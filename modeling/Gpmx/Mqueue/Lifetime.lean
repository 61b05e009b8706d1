import Gpmx.Infra.Accounts
import Gpmx.Mqueue.Queues
import Mathlib

/-!
# Queues live until they are unlinked

`mq_close` of the last descriptor sets `pending_unlink`, as `mq_unlink` does, and a queue with that
flag cannot be opened any more. A queue therefore lasts until it is unlinked only where it is always
open until then.

* `Sys.Keeps` — what the callers keep to
* `Sys.Sound` — the list, the elements and the threads fit together
* `Sys.Counted` — every queue that was created is in memory or has been destroyed once
-/

namespace Gpmx.Mqueue

open Infra Function Option List

variable {T D : Type} {nameMax : Nat}

/-- The queue that a thread is about to send to or to receive from. -/
def Call.queue : Call D → Option D
  | .sending p _ _ => some p
  | .receiving p _ => some p
  | _ => none

structure Element.Held (nameMax : Nat) (e : Element) : Prop where
  named : validateQueuename nameMax e.name ≠ none
  opens_pos : 0 < e.history.opens
  opens_lt : e.history.opens < 2 ^ 32
  count : e.openDescriptors = e.history.opens
  unlink : e.pendingUnlink = e.history.unlinked

namespace Sys

/--
What the callers keep to: a queue is not open 2^32 times, and the last descriptor of a queue is closed
after the queue has been unlinked, when no thread is about to send to it or to receive from it.
-/
def Keeps (s : Sys T D) : Action T D → Prop
  | .mqOpen _ name _ _ _ => ∀ p ∈ s.list, ∀ e ∈ s.elements p, e.name = name →
      e.history.opens + 1 < 2 ^ 32
  | .mqClose _ mqdes => ∀ e ∈ s.elements mqdes, e.history.opens = 1 →
      e.history.unlinked = true ∧ ∀ t, (s.calls t).queue ≠ some mqdes
  | _ => True

instance [DecidableEq D] [Fintype T] (s : Sys T D) : DecidablePred s.Keeps
  | .mqOpen _ name _ _ _ => inferInstanceAs (Decidable (∀ p ∈ s.list, ∀ e ∈ s.elements p,
      e.name = name → e.history.opens + 1 < 2 ^ 32))
  | .mqClose _ mqdes => inferInstanceAs (Decidable (∀ e ∈ s.elements mqdes, e.history.opens = 1 →
      e.history.unlinked = true ∧ ∀ t, (s.calls t).queue ≠ some mqdes))
  | .mqUnlink .. | .mqTimedsend .. | .mqTimedreceive .. | .transfer _ | .giveUp _
  | .deleteMessagequeue _ => isTrue trivial

structure Sound (nameMax : Nat) (s : Sys T D) : Prop where
  nodup : s.list.Nodup
  held : ∀ p ∈ s.list, ∃ e, s.elements p = some e ∧ e.Held nameMax
  distinct : ∀ p ∈ s.list, ∀ q ∈ s.list, ∀ e e', s.elements p = some e → s.elements q = some e' →
    e.name = e'.name → p = q
  dying : ∀ p e, s.elements p = some e → p ∉ s.list →
    e.history.unlinked = true ∧ e.history.opens = 0 ∧ ∃ t, s.calls t = .deleting p
  deleting : ∀ t p, s.calls t = .deleting p → p ∉ s.list ∧ s.elements p ≠ none
  alone : ∀ t t' p, s.calls t = .deleting p → s.calls t' = .deleting p → t = t'
  inUse : ∀ t p, (s.calls t).queue = some p → p ∈ s.list
  messages : ∀ p e, s.elements p = some e → e.history.sent = e.history.received ++ e.queue

/-- Every queue that was created is in memory or has been destroyed, once. -/
structure Counted (s : Sys T D) : Prop where
  accounted : Accounted s.elements (fun e => e.history.number) s.created
    (s.destroyed.map History.number)
  gone : ∀ h ∈ s.destroyed, h.unlinked = true ∧ h.opens = 0

end Sys

open Sys

variable {s s' : Sys T D} {p : D} {e e' : Element} {name : Name}

theorem start_sound : (start : Sys T D).Sound nameMax := by
  refine ⟨nodup_nil, ?_, ?_, ?_, ?_, ?_, ?_, ?_⟩ <;> simp [start, Call.queue]

theorem start_counted : (start : Sys T D).Counted :=
  ⟨accounted_none, by simp [start]⟩

structure Sys.Well (nameMax : Nat) (s : Sys T D) : Prop where
  sound : s.Sound nameMax
  counted : s.Counted

section

variable [DecidableEq T] {t : T} {c : Call D}

theorem Sys.Sound.goOn (h : s.Sound nameMax) (hbefore : ∀ p, s.calls t ≠ .deleting p)
    (hafter : ∀ p, c ≠ .deleting p) (huse : ∀ p, c.queue = some p → p ∈ s.list) :
    (s.goOn t c).Sound nameMax := by
  have hcalls : ∀ t' p, (s.goOn t c).calls t' = .deleting p → s.calls t' = .deleting p := by
    intro t' p ht'
    rcases update_cases ht' with ⟨-, hc⟩ | ⟨-, ht'⟩
    · exact absurd hc (hafter p)
    · exact ht'
  refine ⟨h.nodup, h.held, h.distinct, ?_, ?_, ?_, ?_, h.messages⟩
  · intro p e he hp
    obtain ⟨hunlinked, hopens, t', ht'⟩ := h.dying p e he hp
    have hne : t' ≠ t := by
      rintro rfl
      exact hbefore p ht'
    exact ⟨hunlinked, hopens, t', (update_of_ne hne _ _).trans ht'⟩
  · intro t' p ht'
    exact h.deleting t' p (hcalls t' p ht')
  · intro t1 t2 p h1 h2
    exact h.alone t1 t2 p (hcalls t1 p h1) (hcalls t2 p h2)
  · intro t' p ht'
    simp only [Sys.goOn, update_apply] at ht'
    split at ht'
    · exact huse p ht'
    · exact h.inUse t' p ht'

theorem Sys.Counted.goOn (h : s.Counted) (t : T) (c : Call D) : (s.goOn t c).Counted :=
  ⟨h.accounted, h.gone⟩

theorem Sys.Well.goOn (h : s.Well nameMax) (hbefore : ∀ p, s.calls t ≠ .deleting p)
    (hafter : ∀ p, c ≠ .deleting p) (huse : ∀ p, c.queue = some p → p ∈ s.list) :
    (s.goOn t c).Well nameMax :=
  ⟨h.sound.goOn hbefore hafter huse, h.counted.goOn t c⟩

theorem Sys.Well.leave (h : s.Well nameMax) (hbefore : ∀ p, s.calls t ≠ .deleting p)
    (r : Returned D) : (s.leave t r).Well nameMax :=
  h.goOn hbefore (by simp) (by simp [Call.queue])

end

variable [DecidableEq D]

/-! ## Looking for a queue -/

theorem find_descriptor : s.findQueueInlist none (some p) = if p ∈ s.list then some p else none := by
  unfold findQueueInlist
  simp only [isSome_none, Bool.false_and, Bool.false_or, some.injEq]
  split
  · next hp =>
    cases hfind : s.list.find? (fun q => decide (p = q)) with
    | none =>
      have hnot := find?_eq_none.mp hfind p hp
      simp at hnot
    | some q =>
      have hq := find?_some hfind
      simp only [decide_eq_true_eq] at hq
      rw [hq]
  · next hp =>
    rw [find?_eq_none]
    rintro q hq heq
    rw [decide_eq_true_eq] at heq
    exact hp (heq ▸ hq)

theorem find_name (h : s.Sound nameMax) (name : Name) :
    (∃ p e, s.findQueueInlist (some name) none = some p ∧ p ∈ s.list ∧ s.elements p = some e ∧
      e.name = name ∧ e.Held nameMax) ∨
    (s.findQueueInlist (some name) none = none ∧
      ∀ p ∈ s.list, ∀ e, s.elements p = some e → e.name ≠ name) := by
  cases hfind : s.findQueueInlist (some name) none with
  | none =>
    refine .inr ⟨rfl, ?_⟩
    intro p hp e he hname
    have hnot := find?_eq_none.mp hfind p hp
    simp [he, hname] at hnot
  | some p =>
    have hp := mem_of_find?_eq_some hfind
    have hname := find?_some hfind
    obtain ⟨e, he, hheld⟩ := h.held p hp
    simp [he] at hname
    exact .inl ⟨p, e, rfl, hp, he, hname, hheld⟩

theorem modify_elements (f : Element → Element) (he : s.elements p = some e) :
    (s.modify p f).elements = update s.elements p (some (f e)) := by
  simp [Sys.modify, he]

/-! ## Elementary changes -/

theorem Sys.Sound.modify (h : s.Sound nameMax) (f : Element → Element) (hp : p ∈ s.list)
    (he : s.elements p = some e) (hname : (f e).name = e.name) (hheld : (f e).Held nameMax)
    (hmessages : (f e).history.sent = (f e).history.received ++ (f e).queue) :
    (s.modify p f).Sound nameMax := by
  have helements := modify_elements f he
  have hback : ∀ q x, (s.modify p f).elements q = some x →
      ∃ y, s.elements q = some y ∧ x.name = y.name ∧ (q ≠ p → x = y) := by
    intro q x hx
    rw [helements] at hx
    rcases update_some_cases hx with ⟨rfl, rfl⟩ | ⟨-, hx⟩
    · exact ⟨e, he, hname, fun hne => absurd rfl hne⟩
    · exact ⟨x, hx, rfl, fun _ => rfl⟩
  refine ⟨h.nodup, ?_, ?_, ?_, ?_, h.alone, h.inUse, ?_⟩
  · intro q hq
    rw [helements]
    by_cases hqp : q = p
    · subst hqp
      exact ⟨f e, update_self _ _ _, hheld⟩
    · rw [update_of_ne hqp]
      exact h.held q hq
  · intro q hq r hr x y hx hy hxy
    obtain ⟨x', hx', hxn, -⟩ := hback q x hx
    obtain ⟨y', hy', hyn, -⟩ := hback r y hy
    exact h.distinct q hq r hr x' y' hx' hy' (by rw [← hxn, ← hyn, hxy])
  · intro q x hx hq
    obtain ⟨y, hy, -, hxy⟩ := hback q x hx
    have hne : q ≠ p := fun heq => hq (heq ▸ hp)
    rw [hxy hne]
    exact h.dying q y hy hq
  · intro t q hq
    obtain ⟨hnot, hsome⟩ := h.deleting t q hq
    have hne : q ≠ p := fun heq => hnot (heq ▸ hp)
    rw [helements, update_of_ne hne]
    exact ⟨hnot, hsome⟩
  · intro q x hx
    rw [helements] at hx
    rcases update_some_cases hx with ⟨rfl, rfl⟩ | ⟨-, hx⟩
    · exact hmessages
    · exact h.messages q x hx

theorem Sys.Counted.modify (h : s.Counted) (f : Element → Element) (he : s.elements p = some e)
    (hnumber : (f e).history.number = e.history.number) : (s.modify p f).Counted := by
  refine ⟨?_, h.gone⟩
  rw [modify_elements f he]
  exact h.accounted.update he hnumber

variable {attr : MqAttr} {alloc : Option D} {deadline : Option (Except Errno Nat)}
    {ticks : Option Nat} {last : Option (Returned D)}

theorem Sys.Sound.create (h : s.Sound nameMax) (hvalid : validateQueuename nameMax name ≠ none)
    (hnew : ∀ p ∈ s.list, ∀ e, s.elements p = some e → e.name ≠ name) (hfree : s.elements p = none)
    (hs : s.createNewMessagequeue attr name (some p) = some (p, s')) : s'.Sound nameMax := by
  obtain rfl : _ = s' := congrArg Prod.snd (some.inj hs)
  have hnot : p ∉ s.list := by
    intro hp
    obtain ⟨e, he, -⟩ := h.held p hp
    rw [hfree] at he
    cases he
  have hne : ∀ q ∈ s.list, q ≠ p := fun q hq heq => hnot (heq ▸ hq)
  refine ⟨nodup_cons.mpr ⟨hnot, h.nodup⟩, ?_, ?_, ?_, ?_, h.alone, ?_, ?_⟩
  · intro q hq
    rcases mem_cons.mp hq with rfl | hq
    · exact ⟨_, update_self _ _ _, hvalid, Nat.zero_lt_one, by simp, rfl, rfl⟩
    · simp only [update_of_ne (hne q hq)]
      exact h.held q hq
  · intro q hq r hr x y hx hy hxy
    rcases mem_cons.mp hq with hqp | hq' <;> rcases mem_cons.mp hr with hrp | hr'
    · rw [hqp, hrp]
    · subst hqp
      simp only [update_self, some.injEq, update_of_ne (hne r hr')] at hx hy
      exact absurd (hxy.symm.trans (by rw [← hx])) (hnew r hr' y hy)
    · subst hrp
      simp only [update_self, some.injEq, update_of_ne (hne q hq')] at hx hy
      exact absurd (hxy.trans (by rw [← hy])) (hnew q hq' x hx)
    · simp only [update_of_ne (hne q hq'), update_of_ne (hne r hr')] at hx hy
      exact h.distinct q hq' r hr' x y hx hy hxy
  · intro q x hx hq
    rw [mem_cons, not_or] at hq
    simp only [update_of_ne hq.1] at hx
    exact h.dying q x hx hq.2
  · intro t q hq
    obtain ⟨hlist, hsome⟩ := h.deleting t q hq
    have hqp : q ≠ p := by
      rintro rfl
      exact hsome hfree
    constructor
    · rw [mem_cons, not_or]
      exact ⟨hqp, hlist⟩
    · simp only [update_of_ne hqp]
      exact hsome
  · intro t q hq
    exact mem_cons_of_mem _ (h.inUse t q hq)
  · intro q x hx
    rcases update_some_cases hx with ⟨rfl, rfl⟩ | ⟨-, hx⟩
    · rfl
    · exact h.messages q x hx

theorem Sys.Counted.create (h : s.Counted) (hfree : s.elements p = none)
    (hs : s.createNewMessagequeue attr name (some p) = some (p, s')) : s'.Counted := by
  obtain rfl : _ = s' := congrArg Prod.snd (some.inj hs)
  exact ⟨h.accounted.create hfree rfl, h.gone⟩

theorem Sys.Counted.delete (h : s.Counted) (he : s.elements p = some e)
    (hunlinked : e.history.unlinked = true) (hopens : e.history.opens = 0) :
    { s with
      elements := update s.elements p none
      destroyed := s.destroyed ++ [e.history] }.Counted := by
  constructor
  · rw [map_append]
    exact h.accounted.destroy he
  · intro g hg
    rcases mem_append.mp hg with hg | hg
    · exact h.gone g hg
    · rw [mem_singleton.mp hg]
      exact ⟨hunlinked, hopens⟩

theorem Sys.Well.modify (h : s.Well nameMax) (f : Element → Element) (hp : p ∈ s.list)
    (he : s.elements p = some e) (hname : (f e).name = e.name) (hheld : (f e).Held nameMax)
    (hmessages : (f e).history.sent = (f e).history.received ++ (f e).queue)
    (hnumber : (f e).history.number = e.history.number) : (s.modify p f).Well nameMax :=
  ⟨h.sound.modify f hp he hname hheld hmessages, h.counted.modify f he hnumber⟩

/-! ## `mq_open` -/

theorem mqOpen_found (h : s.Sound nameMax) {oflag : Oflag} {attr : Option MqAttr} (hp : p ∈ s.list)
    (he : s.elements p = some e) (hunlinked : e.history.unlinked = false)
    (hcreat : oflag.creat = false) : (s.mqOpen nameMax e.name oflag attr alloc).1 = .ok p := by
  rcases find_name h e.name with ⟨q, x, hfind, hq, hx, hname, hheld⟩ | ⟨-, hnone⟩
  · obtain rfl := h.distinct q hq p hp x e hx he hname
    rw [he, some.injEq] at hx
    subst hx
    have hpending : e.pendingUnlink = false := hheld.unlink.trans hunlinked
    unfold mqOpen
    simp [hheld.named, hcreat, hfind, he, hpending]
  · exact absurd rfl (hnone p hp e he)

theorem mqOpen_well (h : s.Well nameMax) (oflag : Oflag) (attr : Option MqAttr)
    (hkeeps : ∀ p ∈ s.list, ∀ e, s.elements p = some e → e.name = name → e.history.opens + 1 < 2 ^ 32)
    (hfree : ∀ p, alloc = some p → s.elements p = none) :
    (s.mqOpen nameMax name oflag attr alloc).2.Well nameMax ∧
      (s.mqOpen nameMax name oflag attr alloc).2.calls = s.calls := by
  unfold mqOpen
  split
  · exact ⟨h, rfl⟩
  next hvalid =>
  split
  · exact ⟨h, rfl⟩
  rcases find_name h.sound name with ⟨p, e, hfind, hp, he, hname, hheld⟩ | ⟨hfind, hnone⟩
  · rw [hfind]
    dsimp only
    split
    · exact ⟨h, rfl⟩
    split
    · exact ⟨h, rfl⟩
    · have hlt := hkeeps p hp e he hname
      refine ⟨h.modify _ hp he rfl ?_ (h.sound.messages p e he) rfl, rfl⟩
      refine ⟨hheld.named, Nat.succ_pos _, hlt, ?_, hheld.unlink⟩
      show (e.openDescriptors + 1) % 2 ^ 32 = e.history.opens + 1
      rw [hheld.count, Nat.mod_eq_of_lt hlt]
  · rw [hfind]
    dsimp only
    split
    swap
    · exact ⟨h, rfl⟩
    · cases alloc with
      | none => exact ⟨h, rfl⟩
      | some p =>
        have hp := hfree p rfl
        exact ⟨⟨h.sound.create hvalid hnone hp rfl, h.counted.create hp rfl⟩, rfl⟩

/-! ## The other calls -/

theorem mqClose_cases (h : s.Sound nameMax) (mqdes : D) :
    (s.mqClose mqdes = (.error .ebadf, s)) ∨
    ∃ e, mqdes ∈ s.list ∧ s.elements mqdes = some e ∧ e.Held nameMax ∧
      ((1 < e.history.opens ∧ s.mqClose mqdes = (.ok false, s.modify mqdes Element.close)) ∨
        (e.history.opens = 1 ∧ (e.history.unlinked = true →
          s.mqClose mqdes = (.ok true, (s.modify mqdes Element.close).listREMOVE mqdes)))) := by
  unfold mqClose
  rw [find_descriptor]
  by_cases hp : mqdes ∈ s.list
  · obtain ⟨e, he, hheld⟩ := h.held mqdes hp
    have hpos := hheld.opens_pos
    refine .inr ⟨e, hp, he, hheld, ?_⟩
    simp only [if_pos hp, modify_elements Element.close he, update_self, Element.close,
      hheld.count, hheld.unlink]
    by_cases hone : e.history.opens = 1
    · refine .inr ⟨hone, fun hunlinked => ?_⟩
      rw [if_pos (by omega), if_pos hunlinked]
    · refine .inl ⟨by omega, ?_⟩
      rw [if_neg (by omega)]
  · rw [if_neg hp]
    exact .inl rfl

theorem mqUnlink_cases (h : s.Sound nameMax) (name : Name) :
    (∃ e, s.mqUnlink nameMax name = (.error e, s)) ∨
    ∃ p e, p ∈ s.list ∧ s.elements p = some e ∧ e.Held nameMax ∧
      s.mqUnlink nameMax name = (.ok none, (s.modify p Element.unlink).modify p Element.setPending) := by
  unfold mqUnlink
  split
  · exact .inl ⟨_, rfl⟩
  rcases find_name h name with ⟨p, e, hfind, hp, he, -, hheld⟩ | ⟨hfind, -⟩
  · refine .inr ⟨p, e, hp, he, hheld, ?_⟩
    have hpos := hheld.opens_pos
    simp only [hfind, modify_elements Element.unlink he, update_self, Element.unlink,
      hheld.count]
    rw [if_neg (by omega)]
  · rw [hfind]
    exact .inl ⟨_, rfl⟩

theorem mqTimedsend_mem {msg : Message} {alloc : Bool}
    (hs : s.mqTimedsend p msg deadline alloc = .ok ticks) : p ∈ s.list := by
  unfold mqTimedsend at hs
  rw [find_descriptor] at hs
  by_contra hp
  simp [hp] at hs

theorem mqTimedreceive_mem {msgLen : Nat} (hs : s.mqTimedreceive p msgLen deadline = .ok ticks) :
    p ∈ s.list := by
  unfold mqTimedreceive at hs
  rw [find_descriptor] at hs
  by_contra hp
  simp [hp] at hs

variable [DecidableEq T] {t : T}

/-! ## The end of a queue -/

theorem Sys.Sound.remove (h : s.Sound nameMax) (f : Element → Element) (hp : p ∈ s.list)
    (he : s.elements p = some e) (hunlinked : (f e).history.unlinked = true)
    (hopens : (f e).history.opens = 0)
    (hmessages : (f e).history.sent = (f e).history.received ++ (f e).queue)
    (hbefore : ∀ p, s.calls t ≠ .deleting p) (hidle : ∀ t, (s.calls t).queue ≠ some p) :
    (((s.modify p f).listREMOVE p).goOn t (.deleting p)).Sound nameMax := by
  have helements : (((s.modify p f).listREMOVE p).goOn t (.deleting p)).elements
      = update s.elements p (some (f e)) := modify_elements f he
  have hmem : ∀ q, q ∈ s.list.erase p ↔ q ≠ p ∧ q ∈ s.list := fun q => h.nodup.mem_erase_iff
  refine ⟨h.nodup.erase p, ?_, ?_, ?_, ?_, ?_, ?_, ?_⟩
  · intro q hq
    obtain ⟨hne, hq⟩ := (hmem q).mp hq
    rw [helements, update_of_ne hne]
    exact h.held q hq
  · intro q hq r hr x y hx hy hxy
    obtain ⟨hqp, hq⟩ := (hmem q).mp hq
    obtain ⟨hrp, hr⟩ := (hmem r).mp hr
    rw [helements, update_of_ne hqp] at hx
    rw [helements, update_of_ne hrp] at hy
    exact h.distinct q hq r hr x y hx hy hxy
  · intro q x hx hq
    rw [helements] at hx
    rcases update_some_cases hx with ⟨rfl, rfl⟩ | ⟨hqp, hx⟩
    · exact ⟨hunlinked, hopens, t, update_self _ _ _⟩
    · obtain ⟨h1, h2, t', ht'⟩ := h.dying q x hx fun hq' => hq ((hmem q).mpr ⟨hqp, hq'⟩)
      have hne : t' ≠ t := by
        rintro rfl
        exact hbefore q ht'
      exact ⟨h1, h2, t', (update_of_ne hne _ _).trans ht'⟩
  · intro t' q ht'
    rw [helements]
    rcases update_cases ht' with ⟨-, ⟨⟩⟩ | ⟨-, ht'⟩
    · exact ⟨fun hq => ((hmem p).mp hq).1 rfl, by simp⟩
    · obtain ⟨hq, hsome⟩ := h.deleting t' q ht'
      have hqp : q ≠ p := fun heq => hq (heq ▸ hp)
      rw [update_of_ne hqp]
      exact ⟨fun hq' => hq ((hmem q).mp hq').2, hsome⟩
  · intro t1 t2 q h1 h2
    rcases update_cases h1 with ⟨ht1, ⟨⟩⟩ | ⟨-, h1'⟩ <;> rcases update_cases h2 with ⟨ht2, ⟨⟩⟩ | ⟨-, h2'⟩
    · rw [ht1, ht2]
    · exact absurd hp (h.deleting t2 p h2').1
    · exact absurd hp (h.deleting t1 p h1').1
    · exact h.alone t1 t2 q h1' h2'
  · intro t' q ht'
    simp only [Sys.goOn, update_apply] at ht'
    split at ht'
    · cases ht'
    · refine (hmem q).mpr ⟨?_, h.inUse t' q ht'⟩
      rintro rfl
      exact hidle t' ht'
  · intro q x hx
    rw [helements] at hx
    rcases update_some_cases hx with ⟨rfl, rfl⟩ | ⟨-, hx⟩
    · exact hmessages
    · exact h.messages q x hx

theorem Sys.Sound.delete (h : s.Sound nameMax) (ht : s.calls t = .deleting p) {r : Returned D}
    {destroyed : List History} :
    ({ s with elements := update s.elements p none, destroyed }.leave t r).Sound nameMax := by
  have hp := (h.deleting t p ht).1
  have hcalls : ∀ {t' q}, update s.calls t (.outside (some r)) t' = .deleting q →
      t' ≠ t ∧ s.calls t' = .deleting q := fun ht' => (update_cases ht').resolve_left (nomatch ·.2)
  refine ⟨h.nodup, ?_, ?_, ?_, ?_, ?_, ?_, ?_⟩
  · intro q hq
    have hqp : q ≠ p := fun heq => hp (heq ▸ hq)
    simp only [Sys.leave, Sys.goOn, update_of_ne hqp]
    exact h.held q hq
  · intro q hq q' hq' x y hx hy hxy
    exact h.distinct q hq q' hq' x y (live_of_destroyed hx).2 (live_of_destroyed hy).2 hxy
  · intro q x hx hq
    obtain ⟨hqp, hx⟩ := live_of_destroyed hx
    obtain ⟨h1, h2, t', ht'⟩ := h.dying q x hx hq
    have hne : t' ≠ t := by
      rintro rfl
      rw [ht, Call.deleting.injEq] at ht'
      exact hqp ht'.symm
    exact ⟨h1, h2, t', (update_of_ne hne _ _).trans ht'⟩
  · intro t' q ht'
    obtain ⟨hne, hbefore⟩ := hcalls ht'
    have hqp : q ≠ p := by
      rintro rfl
      exact hne (h.alone t' t q hbefore ht)
    obtain ⟨hq, hsome⟩ := h.deleting t' q hbefore
    simp only [Sys.leave, Sys.goOn, update_of_ne hqp]
    exact ⟨hq, hsome⟩
  · intro t1 t2 q h1 h2
    exact h.alone t1 t2 q (hcalls h1).2 (hcalls h2).2
  · intro t' q ht'
    simp only [Sys.leave, Sys.goOn, update_apply] at ht'
    split at ht'
    · cases ht'
    · exact h.inUse t' q ht'
  · intro q x hx
    exact h.messages q x (live_of_destroyed hx).2

theorem mqClose_well (h : s.Well nameMax) {mqdes : D} (ht : s.calls t = .outside last)
    (hkeeps : s.Keeps (.mqClose t mqdes)) (hs : s.step nameMax (.mqClose t mqdes) = some s') :
    s'.Well nameMax := by
  have hbefore : ∀ p, s.calls t ≠ .deleting p := by simp [ht]
  simp only [step, ht] at hs
  rcases mqClose_cases h.sound mqdes with hbad | ⟨e, hp, he, hheld, ⟨hmore, hok⟩ | ⟨hone, hok⟩⟩
  · rw [hbad] at hs
    cases hs
    exact h.leave hbefore _
  · rw [hok] at hs
    cases hs
    have hheld' : e.close.Held nameMax := by
      have hlt := hheld.opens_lt
      refine ⟨hheld.named, ?_, ?_, ?_, hheld.unlink⟩
      · show 0 < e.history.opens - 1
        omega
      · show e.history.opens - 1 < 2 ^ 32
        omega
      · show e.openDescriptors - 1 = e.history.opens - 1
        rw [hheld.count]
    have hclosed := h.modify Element.close hp he rfl hheld' (h.sound.messages _ e he) rfl
    exact hclosed.leave hbefore _
  · obtain ⟨hunlinked, hidle⟩ := hkeeps e he hone
    rw [hok hunlinked] at hs
    cases hs
    have hcounted := h.counted.modify Element.close he rfl
    refine ⟨h.sound.remove Element.close hp he hunlinked ?_ (h.sound.messages _ e he) hbefore hidle,
      hcounted.accounted, hcounted.gone⟩
    show e.history.opens - 1 = 0
    omega

theorem mqUnlink_well (h : s.Well nameMax) (ht : s.calls t = .outside last)
    (hs : s.step nameMax (.mqUnlink t name) = some s') : s'.Well nameMax := by
  have hbefore : ∀ p, s.calls t ≠ .deleting p := by simp [ht]
  simp only [step, ht] at hs
  rcases mqUnlink_cases h.sound name with ⟨e, hbad⟩ | ⟨p, e, hp, he, hheld, hok⟩
  · rw [hbad] at hs
    cases hs
    exact h.leave hbefore _
  · rw [hok] at hs
    cases hs
    have htwice : (s.modify p Element.unlink).modify p Element.setPending
        = s.modify p fun e => e.unlink.setPending := by
      simp [Sys.modify, he]
    have hunlinked := h.modify (fun e => e.unlink.setPending) hp he rfl
      ⟨hheld.named, hheld.opens_pos, hheld.opens_lt, hheld.count, rfl⟩ (h.sound.messages p e he) rfl
    rw [htwice]
    exact hunlinked.leave hbefore _

theorem transfer_well (h : s.Well nameMax) (hs : s.transfer t = some s') : s'.Well nameMax := by
  unfold transfer at hs
  split at hs
  · next p msg ticks ht =>
    have hp := h.sound.inUse t p (by rw [ht]; rfl)
    obtain ⟨e, he, hheld⟩ := h.sound.held p hp
    have hmessages := h.sound.messages p e he
    simp only [he] at hs
    split at hs
    · cases hs
      have hput := h.modify (Element.put msg) hp he rfl
        ⟨hheld.named, hheld.opens_pos, hheld.opens_lt, hheld.count, hheld.unlink⟩
        (by simp [Element.put, hmessages]) rfl
      exact hput.leave (t := t) (fun q hq => by simp [Sys.modify, ht] at hq) _
    · cases hs
  · next p ticks ht =>
    have hp := h.sound.inUse t p (by rw [ht]; rfl)
    obtain ⟨e, he, hheld⟩ := h.sound.held p hp
    have hmessages := h.sound.messages p e he
    simp only [he] at hs
    split at hs
    · next msg rest hqueue =>
      cases hs
      have htake := h.modify (Element.take msg) hp he rfl
        ⟨hheld.named, hheld.opens_pos, hheld.opens_lt, hheld.count, hheld.unlink⟩
        (by simp [Element.take, hmessages, hqueue]) rfl
      exact htake.leave (t := t) (fun q hq => by simp [Sys.modify, ht] at hq) _
    · cases hs
  · cases hs

omit [DecidableEq D] in
theorem giveUp_well (h : s.Well nameMax) (hs : s.giveUp t = some s') : s'.Well nameMax := by
  unfold giveUp at hs
  split at hs
  · next p msg ticks ht =>
    split at hs
    · split at hs
      · cases hs
      · cases hs
        exact h.leave (by simp [ht]) _
    · cases hs
  · next p ticks ht =>
    split at hs
    · split at hs
      · cases hs
        exact h.leave (by simp [ht]) _
      · cases hs
    · cases hs
  · cases hs

theorem deleteMessagequeue_well (h : s.Well nameMax) (hs : s.deleteMessagequeue t = some s') :
    s'.Well nameMax := by
  unfold deleteMessagequeue at hs
  split at hs
  · next p ht =>
    obtain ⟨e, he, rfl⟩ := map_eq_some_iff.mp hs
    obtain ⟨hp, -⟩ := h.sound.deleting t p ht
    obtain ⟨hunlinked, hopens, -⟩ := h.sound.dying p e he hp
    exact ⟨h.sound.delete ht, (h.counted.delete he hunlinked hopens).goOn t _⟩
  · cases hs

/-! ## Results -/

theorem step_well {a : Action T D} (h : s.Well nameMax) (ha : s.Keeps a)
    (hs : s.step nameMax a = some s') : s'.Well nameMax := by
  cases a with
  | mqOpen t name oflag attr alloc =>
    simp only [step] at hs
    split at hs
    · next ht =>
      split at hs
      · cases hs
      · next hfree =>
        have hfree' : ∀ p, alloc = some p → s.elements p = none := by
          rintro p rfl
          simpa using hfree
        obtain ⟨hopen, hcalls⟩ := mqOpen_well h oflag attr ha hfree'
        have hbefore : ∀ p, (s.mqOpen nameMax name oflag attr alloc).2.calls t ≠ .deleting p := by
          simp [hcalls, ht]
        split at hs <;> next heq =>
          cases hs
          rw [heq] at hopen hbefore
          exact hopen.leave hbefore _
    · cases hs
  | mqClose t mqdes =>
    cases ht : s.calls t with
    | outside last => exact mqClose_well h ht ha hs
    | sending | receiving | deleting => simp [step, ht] at hs
  | mqUnlink t name =>
    cases ht : s.calls t with
    | outside last => exact mqUnlink_well h ht hs
    | sending | receiving | deleting => simp [step, ht] at hs
  | mqTimedsend t mqdes msg deadline alloc =>
    simp only [step] at hs
    split at hs
    · next ht =>
      split at hs
      · next hok =>
        cases hs
        refine h.goOn (by simp [ht]) (by simp) ?_
        intro q hq
        cases hq
        exact mqTimedsend_mem hok
      · cases hs
        exact h.leave (by simp [ht]) _
    · cases hs
  | mqTimedreceive t mqdes msgLen deadline =>
    simp only [step] at hs
    split at hs
    · next ht =>
      split at hs
      · next hok =>
        cases hs
        refine h.goOn (by simp [ht]) (by simp) ?_
        intro q hq
        cases hq
        exact mqTimedreceive_mem hok
      · cases hs
        exact h.leave (by simp [ht]) _
    · cases hs
  | transfer t => exact transfer_well h hs
  | giveUp t => exact giveUp_well h hs
  | deleteMessagequeue t => exact deleteMessagequeue_well h hs

/--
**As long as the callers keep to `Keeps`, queues live until they are unlinked.** Every queue that was
created is in memory or has been destroyed once. Those in memory have all messages that were sent and
not received, in order; those that were not unlinked are found by their name; and those that were are
about to be deleted when they are not open any more, and only then.
-/
theorem queue_lasts_until_unlinked (h : Reaches (step nameMax) Keeps (start : Sys T D) s) :
    (∀ n < s.created, (∃ p e, s.elements p = some e ∧ e.history.number = n) ∨
      n ∈ s.destroyed.map History.number) ∧
    (∀ p e, s.elements p = some e → e.history.sent = e.history.received ++ e.queue) ∧
    (∀ p e, s.elements p = some e → e.history.unlinked = false → ∀ oflag attr alloc,
      oflag.creat = false → (s.mqOpen nameMax e.name oflag attr alloc).1 = .ok p) ∧
    (∀ p e, s.elements p = some e → (e.history.unlinked = true ∧ e.history.opens = 0 ↔
      ∃ t, s.calls t = .deleting p ∧ (s.deleteMessagequeue t).isSome = true)) ∧
    (s.destroyed.map History.number).Nodup ∧
    ∀ g ∈ s.destroyed, g.unlinked = true ∧ g.opens = 0 ∧
      ∀ p e, s.elements p = some e → e.history.number ≠ g.number := by
  obtain ⟨hsound, hcounted⟩ : s.Well nameMax := h.invariant ⟨start_sound, start_counted⟩
    fun s a s' hs ha hstep => step_well hs ha hstep
  refine ⟨hcounted.accounted.all, hsound.messages, ?_, ?_, hcounted.accounted.once, ?_⟩
  · intro p e he hunlinked oflag attr alloc hcreat
    have hp : p ∈ s.list := by
      by_contra hp
      have hdying := (hsound.dying p e he hp).1
      rw [hunlinked] at hdying
      cases hdying
    exact mqOpen_found hsound hp he hunlinked hcreat
  · intro p e he
    constructor
    · rintro ⟨-, hopens⟩
      have hp : p ∉ s.list := by
        intro hp
        obtain ⟨x, hx, hheld⟩ := hsound.held p hp
        rw [he, some.injEq] at hx
        have hpos := hheld.opens_pos
        rw [← hx] at hpos
        omega
      obtain ⟨-, -, t, ht⟩ := hsound.dying p e he hp
      exact ⟨t, ht, by simp [deleteMessagequeue, ht, he]⟩
    · rintro ⟨t, ht, -⟩
      obtain ⟨hp, -⟩ := hsound.deleting t p ht
      obtain ⟨hunlinked, hopens, -⟩ := hsound.dying p e he hp
      exact ⟨hunlinked, hopens⟩
  · intro g hg
    obtain ⟨hunlinked, hopens⟩ := hcounted.gone g hg
    refine ⟨hunlinked, hopens, fun p e he heq => ?_⟩
    have hmem : g.number ∈ s.destroyed.map History.number := mem_map_of_mem hg
    exact hcounted.accounted.apart p e he (heq ▸ hmem)

/-- A queue is created, opened again and closed once; a message is sent, and the name unlinked. -/
theorem queue_lasts_until_unlinked_closed :
    ∃ s : Sys Unit Nat, Reaches (step 40) Keeps start s ∧
      (s.elements 0).map (fun e => (e.history.unlinked, e.history.opens, e.queue))
        = some (true, 0, [[5]]) ∧
      ∃ t, s.calls t = .deleting 0 ∧ (s.deleteMessagequeue t).isSome = true := by
  let oflag : Oflag := ⟨true, false, false⟩
  have hrun : ([.mqOpen () ['/', 'q'] oflag none (some 0), .mqOpen () ['/', 'q'] oflag none none,
      .mqClose () 0, mqSend () 0 [5] true, .transfer (), .mqUnlink () ['/', 'q'], .mqClose () 0].foldlM
      (guarded (step 40) Keeps) (start : Sys Unit Nat)).map (fun s =>
        (s.elements 0).map fun e => (e.history.unlinked, e.history.opens, e.queue))
      = some (some (true, 0, [[5]])) := by decide
  obtain ⟨s, hs, he⟩ := map_eq_some_iff.mp hrun
  have hreach := Reaches.of_guarded _ hs
  refine ⟨s, hreach, he, ?_⟩
  obtain ⟨e, hmem, heq⟩ := map_eq_some_iff.mp he
  simp only [Prod.mk.injEq] at heq
  exact ((queue_lasts_until_unlinked hreach).2.2.2.1 0 e hmem).mp ⟨heq.1, heq.2.1⟩

/-- A queue with a message in it that is closed and was never unlinked cannot be opened again. -/
theorem closed_queue_not_found :
    ∃ s s' : Sys Unit Nat,
      [.mqOpen () ['/', 'q'] ⟨true, false, false⟩ none (some 0), mqSend () 0 [5] true, .transfer (),
        .mqClose () 0].foldlM (step 40) start = some s ∧
      (s.elements 0).map (fun e => (e.history.unlinked, e.queue)) = some (false, [[5]]) ∧
      s.step 40 (.mqOpen () ['/', 'q'] ⟨false, false, false⟩ none none) = some s' ∧
      s'.calls () = .outside (some (.error .einval)) := by
  have hrun : ([.mqOpen () ['/', 'q'] ⟨true, false, false⟩ none (some 0), mqSend () 0 [5] true,
      .transfer (), .mqClose () 0].foldlM (step 40) (start : Sys Unit Nat)).map (fun s =>
        ((s.elements 0).map fun e => (e.history.unlinked, e.queue),
          (s.step 40 (.mqOpen () ['/', 'q'] ⟨false, false, false⟩ none none)).map fun s => s.calls ()))
      = some (some (false, [[5]]), some (.outside (some (.error .einval)))) := by decide
  obtain ⟨s, hs, heq⟩ := map_eq_some_iff.mp hrun
  simp only [Prod.mk.injEq] at heq
  obtain ⟨s', hs', hcalls⟩ := map_eq_some_iff.mp heq.2
  exact ⟨s, s', hs, heq.1, hs', hcalls⟩

end Gpmx.Mqueue
