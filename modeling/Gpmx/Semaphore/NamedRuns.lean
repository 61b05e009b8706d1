import Gpmx.Infra.Accounts
import Gpmx.Semaphore.Named

/-!
# Names of semaphores

A name stands for a semaphore from the call that creates it to the one that unlinks it. The code keeps
to that only where its callers avoid what it does not look at: `O_CREAT` alone does not look for a
semaphore of that name, and a semaphore that was unlinked is found by its name as long as it is open.

* `Sys.Keeps` — what the callers avoid
* `Sys.Bound` — a name stands for a semaphore
* `Sys.Sound` — the list and the semaphores fit together
-/

namespace Gpmx.Semaphore

open Infra Function Option List

variable {D : Type} {rtNameMax : Nat}

namespace Sys

/--
A name can be told from those in the list by the characters that are compared, and none of these was
unlinked.
-/
def Clear (rtNameMax : Nat) (s : Sys D) (name : Name) : Prop :=
  ∀ p ∈ s.list, ∀ e ∈ s.sems p, e.history.name.take rtNameMax = name.take rtNameMax →
    e.history.name = name ∧ e.unlinked = false

/--
What the callers avoid: a name that is not clear; `O_CREAT` without `O_EXCL` for a name that exists;
to open a semaphore 2^16 times; and to close one that is not open.
-/
def Keeps (rtNameMax : Nat) (s : Sys D) : Action D → Prop
  | .semOpen name oflag _ => s.Clear rtNameMax name ∧
      ∀ p ∈ s.list, ∀ e ∈ s.sems p, e.history.name = name →
        (oflag.creat = true → oflag.excl = true) ∧ e.history.refs + 1 < 2 ^ 16
  | .semClose sem => ∀ p ∈ sem, ∀ e ∈ s.sems p, 0 < e.history.refs
  | .semUnlink name => s.Clear rtNameMax name

instance (s : Sys D) (name : Name) : Decidable (s.Clear rtNameMax name) :=
  inferInstanceAs (Decidable (∀ p ∈ s.list, ∀ e ∈ s.sems p,
    e.history.name.take rtNameMax = name.take rtNameMax →
      e.history.name = name ∧ e.unlinked = false))

instance (s : Sys D) : DecidablePred (s.Keeps rtNameMax)
  | .semOpen name oflag _ => inferInstanceAs (Decidable (s.Clear rtNameMax name ∧
      ∀ p ∈ s.list, ∀ e ∈ s.sems p, e.history.name = name →
        (oflag.creat = true → oflag.excl = true) ∧ e.history.refs + 1 < 2 ^ 16))
  | .semClose sem => inferInstanceAs (Decidable (∀ p ∈ sem, ∀ e ∈ s.sems p, 0 < e.history.refs))
  | .semUnlink name => inferInstanceAs (Decidable (s.Clear rtNameMax name))

/-- The name stands for the semaphore at `p`. -/
def Bound (s : Sys D) (name : Name) (p : D) : Prop :=
  ∃ e, s.sems p = some e ∧ e.history.name = name ∧ e.unlinked = false

structure Sound (rtNameMax : Nat) (s : Sys D) : Prop where
  nodup : s.list.Nodup
  listed : ∀ p, p ∈ s.list ↔ s.sems p ≠ none
  object : ∀ p e, s.sems p = some e → e.object = some (e.history.name.take rtNameMax)
  count : ∀ p e, s.sems p = some e → e.refcount = e.history.refs ∧ e.history.refs < 2 ^ 16
  alive : ∀ p e, s.sems p = some e → e.unlinked = true → 0 < e.history.refs
  distinct : ∀ p q e e', s.sems p = some e → s.sems q = some e' →
    e.history.name = e'.history.name → p = q
  accounted : Accounted s.sems (fun e => e.history.number) s.created
    (s.destroyed.map fun e => e.history.number)
  gone : ∀ e ∈ s.destroyed, e.unlinked = true ∧ e.history.refs = 0

end Sys

open Sys

variable {s s' : Sys D} {p q : D} {e e' : Sem} {name : Name}

theorem start_sound : (start : Sys D).Sound rtNameMax := by
  refine ⟨nodup_nil, ?_, ?_, ?_, ?_, ?_, accounted_none, ?_⟩ <;> simp [start]

theorem Sys.Sound.mem (h : s.Sound rtNameMax) (he : s.sems p = some e) : p ∈ s.list :=
  (h.listed p).mpr (by simp [he])

theorem Sys.Sound.exists_of_mem (h : s.Sound rtNameMax) (hp : p ∈ s.list) :
    ∃ e, s.sems p = some e := by
  cases he : s.sems p with
  | none => exact absurd he ((h.listed p).mp hp)
  | some e => exact ⟨e, rfl⟩

theorem Sys.Sound.bound_unique (h : s.Sound rtNameMax) (hp : s.Bound name p) (hq : s.Bound name q) :
    p = q := by
  obtain ⟨e, he, hname, -⟩ := hp
  obtain ⟨e', he', hname', -⟩ := hq
  exact h.distinct p q e e' he he' (hname.trans hname'.symm)

/-! ## Looking for a semaphore -/

theorem findLoop_spec (h : s.Sound rtNameMax) (hclear : s.Clear rtNameMax name) :
    ∀ {L : List D}, (∀ p ∈ L, p ∈ s.list) →
      (∃ p ∈ L, s.findLoop rtNameMax name L = some (some p) ∧ s.Bound name p) ∨
      (s.findLoop rtNameMax name L = some none ∧
        ∀ p ∈ L, ∀ e, s.sems p = some e → e.history.name ≠ name)
  | [], _ => .inr ⟨rfl, by simp⟩
  | iter :: rest, hL => by
    obtain ⟨e, he⟩ := h.exists_of_mem (hL iter mem_cons_self)
    have hobject : (s.sems iter).bind Sem.object = some (e.history.name.take rtNameMax) := by
      rw [he, bind_some, h.object iter e he]
    rw [findLoop]
    simp only [hobject, take_take, Nat.min_self]
    by_cases hname : e.history.name.take rtNameMax = name.take rtNameMax
    · obtain ⟨heq, hlinked⟩ := hclear iter (hL iter mem_cons_self) e he hname
      exact .inl ⟨iter, mem_cons_self, by rw [if_pos hname], e, he, heq, hlinked⟩
    · rw [if_neg hname]
      rcases findLoop_spec h hclear fun p hp => hL p (mem_cons_of_mem _ hp) with
        ⟨p, hp, hfound, hbound⟩ | ⟨hnone, hrest⟩
      · exact .inl ⟨p, mem_cons_of_mem _ hp, hfound, hbound⟩
      · refine .inr ⟨hnone, ?_⟩
        intro p hp x hx
        rcases mem_cons.mp hp with rfl | hp
        · rw [he, some.injEq] at hx
          rintro rfl
          exact hname (by rw [hx])
        · exact hrest p hp x hx

/-- **`posix_sem_find` finds what the name stands for**, where it can tell the name from the others. -/
theorem posixSemFind_spec (h : s.Sound rtNameMax) (hclear : s.Clear rtNameMax name) :
    (∃ p, s.posixSemFind rtNameMax name = some (some p) ∧ s.Bound name p) ∨
    (s.posixSemFind rtNameMax name = some none ∧ ∀ p e, s.sems p = some e → e.history.name ≠ name) := by
  rcases findLoop_spec h hclear (L := s.list) fun p hp => hp with ⟨p, -, hfound, hbound⟩ |
    ⟨hnone, hrest⟩
  · exact .inl ⟨p, hfound, hbound⟩
  · exact .inr ⟨hnone, fun p e he => hrest p (h.mem he) e he⟩

variable [DecidableEq D]

/-! ## Elementary changes -/

theorem modify_sems (f : Sem → Sem) (he : s.sems p = some e) :
    (s.modify p f).sems = update s.sems p (some (f e)) := by
  simp [Sys.modify, he]

theorem of_modify (f : Sem → Sem) (he : s.sems p = some e) {x : Sem}
    (hx : (s.modify p f).sems q = some x) : q = p ∧ x = f e ∨ q ≠ p ∧ s.sems q = some x := by
  rw [modify_sems f he] at hx
  exact update_some_cases hx

theorem Sys.Sound.modify (h : s.Sound rtNameMax) (f : Sem → Sem) (he : s.sems p = some e)
    (hobject : (f e).object = e.object) (hname : (f e).history.name = e.history.name)
    (hnumber : (f e).history.number = e.history.number)
    (hcount : (f e).refcount = (f e).history.refs ∧ (f e).history.refs < 2 ^ 16)
    (halive : (f e).unlinked = true → 0 < (f e).history.refs) : (s.modify p f).Sound rtNameMax := by
  have hback : ∀ q x, (s.modify p f).sems q = some x →
      ∃ y, s.sems q = some y ∧ x.history.name = y.history.name := by
    intro q x hx
    rcases of_modify f he hx with ⟨rfl, rfl⟩ | ⟨-, hx⟩
    · exact ⟨e, he, hname⟩
    · exact ⟨x, hx, rfl⟩
  refine ⟨h.nodup, ?_, ?_, ?_, ?_, ?_, ?_, h.gone⟩
  · intro q
    rw [modify_sems f he]
    by_cases hq : q = p
    · subst hq
      exact ⟨fun _ => by simp, fun _ => h.mem he⟩
    · rw [update_of_ne hq]
      exact h.listed q
  · intro q x hx
    rcases of_modify f he hx with ⟨rfl, rfl⟩ | ⟨-, hx⟩
    · rw [hobject, hname]
      exact h.object q e he
    · exact h.object q x hx
  · intro q x hx
    rcases of_modify f he hx with ⟨rfl, rfl⟩ | ⟨-, hx⟩
    · exact hcount
    · exact h.count q x hx
  · intro q x hx
    rcases of_modify f he hx with ⟨rfl, rfl⟩ | ⟨-, hx⟩
    · exact halive
    · exact h.alive q x hx
  · intro q r x y hx hy hxy
    obtain ⟨x', hx', hxn⟩ := hback q x hx
    obtain ⟨y', hy', hyn⟩ := hback r y hy
    exact h.distinct q r x' y' hx' hy' (by rw [← hxn, ← hyn, hxy])
  · rw [modify_sems f he]
    exact h.accounted.update he hnumber

theorem Sys.Sound.create (h : s.Sound rtNameMax) (hfree : s.sems p = none)
    (hnew : ∀ p e, s.sems p = some e → e.history.name ≠ name) :
    (s.semCreate rtNameMax false name (some p)).2.Sound rtNameMax := by
  have hback : ∀ q x, (s.semCreate rtNameMax false name (some p)).2.sems q = some x →
      (q = p ∧ x = ⟨1, false, some (name.take rtNameMax), s.created, name, 1⟩) ∨
        (q ≠ p ∧ s.sems q = some x) := by
    intro q x hx
    exact update_some_cases hx
  have hnot : p ∉ s.list := fun hp => (h.listed p).mp hp hfree
  refine ⟨nodup_cons.mpr ⟨hnot, h.nodup⟩, ?_, ?_, ?_, ?_, ?_, h.accounted.create hfree rfl, h.gone⟩
  · intro q
    simp only [semCreate, mem_cons]
    by_cases hq : q = p
    · subst hq
      simp
    · simp [hq, h.listed q]
  · intro q x hx
    rcases hback q x hx with ⟨rfl, rfl⟩ | ⟨-, hx⟩
    · rfl
    · exact h.object q x hx
  · intro q x hx
    rcases hback q x hx with ⟨rfl, rfl⟩ | ⟨-, hx⟩
    · exact ⟨rfl, by simp⟩
    · exact h.count q x hx
  · intro q x hx
    rcases hback q x hx with ⟨rfl, rfl⟩ | ⟨-, hx⟩
    · simp
    · exact h.alive q x hx
  · intro q r x y hx hy hxy
    rcases hback q x hx with ⟨hq, rfl⟩ | ⟨-, hx'⟩ <;> rcases hback r y hy with ⟨hr, rfl⟩ | ⟨-, hy'⟩
    · rw [hq, hr]
    · exact absurd hxy.symm (hnew r y hy')
    · exact absurd hxy (hnew q x hx')
    · exact h.distinct q r x y hx' hy' hxy

theorem Sys.Sound.destroy (h : s.Sound rtNameMax) (f : Sem → Sem) (he : s.sems p = some e)
    (hnumber : (f e).history.number = e.history.number) (hunlinked : (f e).unlinked = true)
    (hrefs : (f e).history.refs = 0) : ((s.modify p f).posixSemDelete p).Sound rtNameMax := by
  have hsems : (s.modify p f).sems p = some (f e) := by
    rw [modify_sems f he, update_self]
  have hdeleted : (s.modify p f).posixSemDelete p
      = { s with
          list := s.list.erase p
          sems := update s.sems p none
          destroyed := s.destroyed ++ [f e] } := by
    unfold posixSemDelete
    simp only [hsems]
    rw [if_pos (show p ∈ (s.modify p f).list from h.mem he), modify_sems f he, update_idem]
    rfl
  rw [hdeleted]
  refine ⟨h.nodup.erase p, ?_, ?_, ?_, ?_, ?_, ?_, ?_⟩
  · intro q
    rw [h.nodup.mem_erase_iff]
    by_cases hq : q = p
    · subst hq
      simp
    · simp [hq, h.listed q]
  · intro q x hx
    exact h.object q x (live_of_destroyed hx).2
  · intro q x hx
    exact h.count q x (live_of_destroyed hx).2
  · intro q x hx
    exact h.alive q x (live_of_destroyed hx).2
  · intro q r x y hx hy
    exact h.distinct q r x y (live_of_destroyed hx).2 (live_of_destroyed hy).2
  · have hacc := h.accounted.destroy he
    rw [map_append, map_cons, map_nil, hnumber]
    exact hacc
  · intro g hg
    rcases mem_append.mp hg with hg | hg
    · exact h.gone g hg
    · rw [mem_singleton.mp hg]
      exact ⟨hunlinked, hrefs⟩

/-! ## Calls -/

variable {oflag : Oflag} {alloc : Option D}

theorem semOpen_bound (h : s.Sound rtNameMax)
    (hkeeps : s.Keeps rtNameMax (.semOpen name oflag alloc)) (hp : s.Bound name p) :
    s.semOpen rtNameMax false name oflag alloc
      = some (if oflag.creat then (.error .eexist, s) else (.ok p, s.addref p)) := by
  obtain ⟨e, he, hname, hlinked⟩ := hp
  rcases posixSemFind_spec h hkeeps.1 with ⟨q, hfound, hq⟩ | ⟨-, hnone⟩
  · obtain rfl := h.bound_unique hq ⟨e, he, hname, hlinked⟩
    obtain ⟨hexcl, -⟩ := hkeeps.2 q (h.mem he) e he hname
    unfold semOpen
    rw [hfound]
    by_cases hcreat : oflag.creat
    · simp [hcreat, hexcl hcreat]
    · simp [hcreat]
  · exact absurd hname (hnone p e he)

theorem semOpen_free (h : s.Sound rtNameMax)
    (hkeeps : s.Keeps rtNameMax (.semOpen name oflag alloc)) (hfree : ∀ p, ¬s.Bound name p) :
    s.semOpen rtNameMax false name oflag alloc
        = some (if oflag.creat then s.semCreate rtNameMax false name alloc else (.error .enoent, s)) ∧
      ∀ p e, s.sems p = some e → e.history.name ≠ name := by
  rcases posixSemFind_spec h hkeeps.1 with ⟨q, -, hq⟩ | ⟨hnone, hrest⟩
  · exact absurd hq (hfree q)
  · refine ⟨?_, hrest⟩
    unfold semOpen
    rw [hnone]
    cases hcreat : oflag.creat <;> cases hexcl : oflag.excl <;> simp

theorem semUnlink_bound (h : s.Sound rtNameMax) (hclear : s.Clear rtNameMax name)
    (hp : s.Bound name p) : ∃ e, s.sems p = some e ∧ e.history.name = name ∧
      s.semUnlink rtNameMax name = some (.ok (),
        if e.history.refs = 0 then (s.modify p fun e => { e with unlinked := true }).posixSemDelete p
        else s.modify p fun e => { e with unlinked := true }) := by
  obtain ⟨e, he, hname, hlinked⟩ := hp
  refine ⟨e, he, hname, ?_⟩
  rcases posixSemFind_spec h hclear with ⟨q, hfound, hq⟩ | ⟨-, hnone⟩
  · obtain rfl := h.bound_unique hq ⟨e, he, hname, hlinked⟩
    unfold semUnlink
    rw [hfound]
    simp only [modify_sems _ he, update_self, (h.count q e he).1]
    split <;> rfl
  · exact absurd hname (hnone p e he)

theorem semUnlink_free (h : s.Sound rtNameMax) (hclear : s.Clear rtNameMax name)
    (hfree : ∀ p, ¬s.Bound name p) : s.semUnlink rtNameMax name = some (.error .enoent, s) := by
  rcases posixSemFind_spec h hclear with ⟨q, -, hq⟩ | ⟨hnone, -⟩
  · exact absurd hq (hfree q)
  · unfold semUnlink
    rw [hnone]

theorem pred_refcount {n : Nat} (hpos : 0 < n) (hlt : n < 2 ^ 16) : (n + 2 ^ 16 - 1) % 2 ^ 16 = n - 1 := by
  omega

theorem semClose_open (h : s.Sound rtNameMax) (he : s.sems p = some e) (hpos : 0 < e.history.refs) :
    s.semClose (some p) = some (.ok (),
      if e.history.refs = 1 ∧ e.unlinked = true then (s.dropref p).posixSemDelete p
      else s.dropref p) := by
  obtain ⟨hcount, hlt⟩ := h.count p e he
  have hsems : (s.dropref p).sems p = some { e with
      refcount := e.history.refs - 1, history.refs := e.history.refs - 1 } := by
    simp only [dropref, modify_sems _ he, update_self, hcount, pred_refcount hpos hlt]
  unfold semClose
  simp only [hsems]
  by_cases hone : e.history.refs = 1
  · simp only [hone, Nat.sub_self, true_and]
    split <;> rfl
  · have hne : e.history.refs - 1 ≠ 0 := by omega
    simp [hone, hne]

/-! ## Results -/

section

variable (h : s.Sound rtNameMax)
include h

theorem addref_sound (he : s.sems p = some e)
    (hlt : e.history.refs + 1 < 2 ^ 16) : (s.addref p).Sound rtNameMax := by
  obtain ⟨hcount, -⟩ := h.count p e he
  refine h.modify _ he rfl rfl rfl ⟨?_, hlt⟩ fun _ => Nat.succ_pos _
  show (e.refcount + 1) % 2 ^ 16 = e.history.refs + 1
  rw [hcount, Nat.mod_eq_of_lt hlt]

variable {r : Except Errno Unit} {a : Action D}

theorem semClose_sound {sem : Option D} (hkeeps : s.Keeps rtNameMax (.semClose sem))
    (hs : s.semClose sem = some (r, s')) : s'.Sound rtNameMax := by
  cases sem with
  | none =>
    cases hs
    exact h
  | some p =>
    cases he : s.sems p with
    | none =>
      unfold semClose at hs
      simp [dropref, Sys.modify, he] at hs
    | some e =>
      have hpos := hkeeps p rfl e he
      obtain ⟨hcount, hlt⟩ := h.count p e he
      rw [semClose_open h he hpos, some.injEq, Prod.mk.injEq] at hs
      obtain ⟨-, rfl⟩ := hs
      split
      · next hlast =>
        refine h.destroy _ he rfl hlast.2 ?_
        show e.history.refs - 1 = 0
        omega
      · next hmore =>
        refine h.modify _ he rfl rfl rfl ⟨?_, ?_⟩ fun hunlinked => ?_
        · show (e.refcount + 2 ^ 16 - 1) % 2 ^ 16 = e.history.refs - 1
          rw [hcount, pred_refcount hpos hlt]
        · show e.history.refs - 1 < 2 ^ 16
          omega
        · have hne : e.history.refs ≠ 1 := fun hone => hmore ⟨hone, hunlinked⟩
          show 0 < e.history.refs - 1
          omega

theorem semUnlink_sound (hclear : s.Clear rtNameMax name)
    (hs : s.semUnlink rtNameMax name = some (r, s')) : s'.Sound rtNameMax := by
  by_cases hbound : ∃ p, s.Bound name p
  · obtain ⟨p, hp⟩ := hbound
    obtain ⟨e, he, -, hunlink⟩ := semUnlink_bound h hclear hp
    rw [hunlink, some.injEq, Prod.mk.injEq] at hs
    obtain ⟨-, rfl⟩ := hs
    split
    · next hzero => exact h.destroy _ he rfl rfl hzero
    · next hne => exact h.modify _ he rfl rfl rfl (h.count p e he) fun _ => Nat.pos_of_ne_zero hne
  · rw [semUnlink_free h hclear fun p hp => hbound ⟨p, hp⟩, some.injEq, Prod.mk.injEq] at hs
    rw [← hs.2]
    exact h

theorem semOpen_sound {r : Except Errno D} (hkeeps : s.Keeps rtNameMax (.semOpen name oflag alloc))
    (halloc : ∀ p, alloc = some p → s.sems p = none)
    (hs : s.semOpen rtNameMax false name oflag alloc = some (r, s')) : s'.Sound rtNameMax := by
  by_cases hbound : ∃ p, s.Bound name p
  · obtain ⟨p, hp⟩ := hbound
    rw [semOpen_bound h hkeeps hp] at hs
    obtain ⟨e, he, hname, -⟩ := hp
    split at hs
    · cases hs
      exact h
    · cases hs
      exact addref_sound h he (hkeeps.2 p (h.mem he) e he hname).2
  · obtain ⟨hopen, hnew⟩ := semOpen_free h hkeeps fun p hp => hbound ⟨p, hp⟩
    rw [hopen] at hs
    split at hs
    · cases alloc with
      | none =>
        cases hs
        exact h
      | some p =>
        cases hs
        exact h.create (halloc p rfl) hnew
    · cases hs
      exact h

theorem step_sound (ha : s.Keeps rtNameMax a) (hs : s.step rtNameMax false a = some s') :
    s'.Sound rtNameMax := by
  cases a with
  | semOpen name oflag alloc =>
    simp only [step] at hs
    split at hs
    · cases hs
    · next hfree =>
      obtain ⟨⟨r, s1⟩, hopen, rfl⟩ := map_eq_some_iff.mp hs
      refine semOpen_sound h ha ?_ hopen
      rintro p rfl
      simpa using hfree
  | semClose sem =>
    obtain ⟨⟨r, s1⟩, hclose, rfl⟩ := map_eq_some_iff.mp hs
    exact semClose_sound h ha hclose
  | semUnlink name =>
    obtain ⟨⟨r, s1⟩, hunlink, rfl⟩ := map_eq_some_iff.mp hs
    exact semUnlink_sound h ha hunlink

end

theorem Sys.Bound.modify (hp : s.Bound name p) (f : Sem → Sem) (he : s.sems q = some e)
    (hf : q = p → (f e).history.name = e.history.name ∧ (f e).unlinked = e.unlinked) :
    (s.modify q f).Bound name p := by
  obtain ⟨x, hx, hname, hlinked⟩ := hp
  unfold Bound
  rw [modify_sems f he]
  by_cases hq : p = q
  · subst hq
    rw [he, some.injEq] at hx
    obtain ⟨h1, h2⟩ := hf rfl
    refine ⟨f e, update_self _ _ _, ?_, ?_⟩
    · rw [h1, hx, hname]
    · rw [h2, hx, hlinked]
  · exact ⟨x, (update_of_ne hq _ _).trans hx, hname, hlinked⟩

theorem Sys.Bound.delete (hp : s.Bound name p) (hne : p ≠ q) : (s.posixSemDelete q).Bound name p := by
  obtain ⟨x, hx, hrest⟩ := hp
  unfold posixSemDelete
  split
  · exact ⟨x, hx, hrest⟩
  · split
    · exact ⟨x, (update_of_ne hne _ _).trans hx, hrest⟩
    · exact ⟨x, hx, hrest⟩

/-- **A name stands for the same semaphore until it is unlinked.** -/
theorem step_bound (h : s.Sound rtNameMax) (ha : s.Keeps rtNameMax a) (hp : s.Bound name p)
    (hne : a ≠ .semUnlink name) (hs : s.step rtNameMax false a = some s') : s'.Bound name p := by
  cases a with
  | semOpen name' oflag alloc =>
    simp only [step] at hs
    split at hs
    · cases hs
    next hfree =>
    by_cases hbound : ∃ q, s.Bound name' q
    · obtain ⟨q, hq⟩ := hbound
      rw [semOpen_bound h ha hq] at hs
      obtain ⟨e, he, -⟩ := hq
      split at hs
      · cases hs
        exact hp
      · cases hs
        exact hp.modify _ he fun _ => ⟨rfl, rfl⟩
    · rw [(semOpen_free h ha fun q hq => hbound ⟨q, hq⟩).1] at hs
      split at hs
      · cases alloc with
        | none =>
          cases hs
          exact hp
        | some q =>
          cases hs
          obtain ⟨x, hx, hrest⟩ := hp
          have hpq : p ≠ q := by
            rintro rfl
            simp [hx] at hfree
          exact ⟨x, (update_of_ne hpq _ _).trans hx, hrest⟩
      · cases hs
        exact hp
  | semClose sem =>
    cases sem with
    | none =>
      cases hs
      exact hp
    | some q =>
      cases he : s.sems q with
      | none => simp [step, semClose, dropref, Sys.modify, he] at hs
      | some e =>
        rw [step, semClose_open h he (ha q rfl e he)] at hs
        cases hs
        have hdrop : (s.dropref q).Bound name p := hp.modify _ he fun _ => ⟨rfl, rfl⟩
        split
        · next hlast =>
          -- what is deleted was unlinked, and what the name stands for was not
          refine hdrop.delete ?_
          rintro rfl
          obtain ⟨x, hx, -, hlinked⟩ := hp
          rw [he, some.injEq] at hx
          rw [← hx, hlast.2] at hlinked
          cases hlinked
        · exact hdrop
  | semUnlink name' =>
    have hname : name' ≠ name := fun heq => hne (by rw [heq])
    by_cases hbound : ∃ q, s.Bound name' q
    · obtain ⟨q, hq⟩ := hbound
      obtain ⟨e, he, hename, hunlink⟩ := semUnlink_bound h ha hq
      rw [step, hunlink] at hs
      cases hs
      have hpq : p ≠ q := by
        rintro rfl
        obtain ⟨x, hx, hxname, -⟩ := hp
        rw [he, some.injEq] at hx
        exact hname (hename.symm.trans (by rw [hx, hxname]))
      have hother : (s.modify q fun e => { e with unlinked := true }).Bound name p :=
        hp.modify _ he fun heq => absurd heq.symm hpq
      split
      · exact hother.delete hpq
      · exact hother
    · rw [step, semUnlink_free h ha fun q hq => hbound ⟨q, hq⟩] at hs
      cases hs
      exact hp

/-- **`sem_unlink` frees the name**, and leaves the semaphore to those who have it open. -/
theorem semUnlink_frees (h : s.Sound rtNameMax) (hclear : s.Clear rtNameMax name)
    (hp : s.Bound name p) : ∃ e s', s.sems p = some e ∧
      s.semUnlink rtNameMax name = some (.ok (), s') ∧ (∀ q, ¬s'.Bound name q) ∧
      (0 < e.history.refs → s'.sems p = some { e with unlinked := true }) := by
  obtain ⟨e, he, hname, hunlink⟩ := semUnlink_bound h hclear hp
  refine ⟨e, _, he, hunlink, ?_, ?_⟩
  · rintro q ⟨x, hx, hxname, hlinked⟩
    have hother : q ≠ p → s.sems q ≠ some x := by
      intro hq hx
      exact hq (h.distinct q p x e hx he (hxname.trans hname.symm))
    have hleft : (s.modify p fun e => { e with unlinked := true }).sems q = some x := by
      split at hx
      · unfold posixSemDelete at hx
        split at hx
        · exact hx
        · split at hx
          · exact (live_of_destroyed hx).2
          · exact hx
      · exact hx
    rcases of_modify _ he hleft with ⟨-, rfl⟩ | ⟨hq, hx⟩
    · cases hlinked
    · exact hother hq hx
  · intro hpos
    rw [if_neg (Nat.pos_iff_ne_zero.mp hpos), modify_sems _ he, update_self]

/--
**As long as the callers keep to `Keeps`, names of semaphores form a map.** A name stands for one
semaphore at most, the one that `sem_open` returns, and for the same one until it is unlinked; with
`O_CREAT` and `O_EXCL` the call fails if and only if there is one. Then the name is free, and the
semaphore stays for those who have it open. It is destroyed once, when it is unlinked and not open
any more.
-/
theorem semaphore_names_form_a_map
    (h : Reaches (step rtNameMax false) (Keeps rtNameMax) (start : Sys D) s) :
    (∀ name p q, s.Bound name p → s.Bound name q → p = q) ∧
    (∀ name oflag alloc, s.Keeps rtNameMax (.semOpen name oflag alloc) →
      (∀ p, s.Bound name p → (s.semOpen rtNameMax false name oflag alloc).map Prod.fst
        = some (if oflag.creat then .error .eexist else .ok p)) ∧
      ((∀ p, ¬s.Bound name p) → (s.semOpen rtNameMax false name oflag alloc).map Prod.fst
        = some (if oflag.creat then alloc.elim (.error .enfile) .ok else .error .enoent))) ∧
    (∀ name p, s.Bound name p → ∀ s', Reaches (step rtNameMax false)
      (fun s a => s.Keeps rtNameMax a ∧ a ≠ .semUnlink name) s s' → s'.Bound name p) ∧
    (∀ name p, s.Bound name p → s.Clear rtNameMax name → ∃ e s', s.sems p = some e ∧
      s.semUnlink rtNameMax name = some (.ok (), s') ∧ (∀ q, ¬s'.Bound name q) ∧
      (0 < e.history.refs → s'.sems p = some { e with unlinked := true })) ∧
    (∀ n < s.created, (∃ p e, s.sems p = some e ∧ e.history.number = n) ∨
      n ∈ s.destroyed.map fun e => e.history.number) ∧
    (∀ p e, s.sems p = some e → e.unlinked = true → 0 < e.history.refs) ∧
    (s.destroyed.map fun e => e.history.number).Nodup ∧
    ∀ g ∈ s.destroyed, g.unlinked = true ∧ g.history.refs = 0 ∧
      ∀ p e, s.sems p = some e → e.history.number ≠ g.history.number := by
  have hsound : s.Sound rtNameMax := h.invariant start_sound fun s a s' hs ha => step_sound hs ha
  refine ⟨fun name p q => hsound.bound_unique, ?_, ?_, fun name p hp hclear =>
    semUnlink_frees hsound hclear hp, hsound.accounted.all, hsound.alive, hsound.accounted.once, ?_⟩
  · intro name oflag alloc hkeeps
    constructor
    · intro p hp
      rw [semOpen_bound hsound hkeeps hp]
      cases oflag.creat <;> rfl
    · intro hfree
      rw [(semOpen_free hsound hkeeps hfree).1]
      cases oflag.creat <;> cases alloc <;> rfl
  · intro name p hp s' hrun
    have hboth : s'.Sound rtNameMax ∧ s'.Bound name p := by
      refine hrun.invariant (P := fun s => s.Sound rtNameMax ∧ s.Bound name p) ⟨hsound, hp⟩ ?_
      rintro s a s' ⟨hs, hp⟩ ⟨ha, hne⟩ hstep
      exact ⟨step_sound hs ha hstep, step_bound hs ha hp hne hstep⟩
    exact hboth.2
  · intro g hg
    obtain ⟨hunlinked, hrefs⟩ := hsound.gone g hg
    refine ⟨hunlinked, hrefs, fun p e he heq => ?_⟩
    have hmem : g.history.number ∈ s.destroyed.map fun e => e.history.number :=
      mem_map_of_mem (f := fun e : Sem => e.history.number) hg
    exact hsound.accounted.apart p e he (heq ▸ hmem)

/-- A semaphore is created, opened again, unlinked, and closed twice. -/
theorem semaphore_names_form_a_map_closed :
    ∃ s : Sys Nat, Reaches (step 16 false) (Keeps 16) start s ∧ s.created = 1 ∧
      (s.destroyed.map fun e => e.history.number).Nodup ∧
      (s.destroyed.map fun e => (e.history.number, e.unlinked, e.history.refs)) = [(0, true, 0)] := by
  have hrun : ([.semOpen ['a'] ⟨true, true⟩ (some 0), .semOpen ['a'] ⟨false, false⟩ none,
      .semUnlink ['a'], .semClose (some 0), .semClose (some 0)].foldlM
      (guarded (step 16 false) (Keeps 16)) (start : Sys Nat)).map (fun s =>
        (s.created, s.destroyed.map fun e => (e.history.number, e.unlinked, e.history.refs)))
      = some (1, [(0, true, 0)]) := by decide
  obtain ⟨s, hs, heq⟩ := map_eq_some_iff.mp hrun
  simp only [Prod.mk.injEq] at heq
  have hreach := Reaches.of_guarded _ hs
  have hmap := semaphore_names_form_a_map hreach
  exact ⟨s, hreach, heq.1, hmap.2.2.2.2.2.2.1, heq.2⟩

/--
`O_CREAT` makes a second semaphore of a name that exists. A name that was unlinked cannot be used
again while the semaphore is open. Two names that differ in the seventeenth character stand for the
same semaphore. And with `CONFIG_LIBC_SEMAPHORE_INHERIT` the second call follows a null pointer.
-/
theorem semaphore_names_clash :
    let a : Name := ['a']
    let long : Name := List.replicate 16 'a'
    (∃ s : Sys Nat, [.semOpen a ⟨true, false⟩ (some 0), .semOpen a ⟨true, false⟩ (some 1)].foldlM
      (step 16 false) start = some s ∧ s.Bound a 0 ∧ s.Bound a 1) ∧
    (∃ s : Sys Nat, [.semOpen a ⟨true, true⟩ (some 0), .semUnlink a].foldlM (step 16 false) start
      = some s ∧ (∀ p, ¬s.Bound a p) ∧
      (s.semOpen 16 false a ⟨true, true⟩ (some 1)).map Prod.fst = some (.error .eexist)) ∧
    (∃ s : Sys Nat, [.semOpen (long ++ ['b']) ⟨true, true⟩ (some 0)].foldlM (step 16 false) start
      = some s ∧ (∀ p, ¬s.Bound (long ++ ['c']) p) ∧
      (s.semOpen 16 false (long ++ ['c']) ⟨false, false⟩ none).map Prod.fst = some (.ok 0)) ∧
    ∃ s : Sys Nat, [.semOpen a ⟨true, true⟩ (some 0)].foldlM (step 16 true) start = some s ∧
      s.semOpen 16 true a ⟨false, false⟩ none = none := by
  intro a long
  refine ⟨⟨_, rfl, ⟨_, rfl, rfl, rfl⟩, ⟨_, rfl, rfl, rfl⟩⟩, ⟨_, rfl, ?_, rfl⟩, ⟨_, rfl, ?_, rfl⟩,
    ⟨_, rfl, rfl⟩⟩
  · rintro p ⟨e, he, -, hlinked⟩
    by_cases hp : p = 0
    · subst hp
      cases he
      cases hlinked
    · simp [Sys.modify, update_of_ne hp, start, semCreate] at he
  · rintro p ⟨e, he, hname, -⟩
    by_cases hp : p = 0
    · subst hp
      cases he
      exact absurd hname (by decide)
    · simp [update_of_ne hp, start, semCreate] at he

end Gpmx.Semaphore
