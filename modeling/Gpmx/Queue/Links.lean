import Gpmx.Infra.Chain

/-!
# Singly linked queues

`gpm/libs/libc/queue/sq_*.c`. `Sq` is a queue head together with the `flink` of every node
there is; a node is linked into at most one queue. `Sq.Holds` reads it as a list, and every
function is described by what it does to that list.

A function is `none` where it would follow a NULL pointer, and where the loop of `sq_rem`, which
follows the links, needs more than `fuel` turns. More turns than the list has nodes always do.
-/

namespace Gpmx.Queue

open Infra Function List

/-- `sq_queue_t`, and the `flink` of the nodes. -/
structure Sq (ι : Type) where
  head : Option ι
  tail : Option ι
  flink : ι → Option ι

variable {ι : Type}

/-- The queue is the list `L`. -/
structure Sq.Holds (q : Sq ι) (L : List ι) : Prop where
  chain : Seg q.flink q.head L none
  tail : q.tail = L.getLast?

variable {q : Sq ι} {L : List ι}

theorem Sq.Holds.nodup (h : q.Holds L) : L.Nodup := h.chain.nodup

theorem Sq.Holds.head (h : q.Holds L) : q.head = L.head? := h.chain.start

variable [DecidableEq ι]

namespace Sq

/-- `node->flink = p` -/
def setFlink (q : Sq ι) (node : ι) (p : Option ι) : Sq ι :=
  { q with flink := update q.flink node p }

def addfirst (node : ι) (q : Sq ι) : Sq ι :=
  let q := q.setFlink node q.head
  let q := if q.head.isNone then { q with tail := some node } else q
  { q with head := some node }

def addlast (node : ι) (q : Sq ι) : Option (Sq ι) :=
  let q := q.setFlink node none
  if q.head.isNone then some { q with head := some node, tail := some node }
  else
    match q.tail with
    | none => none
    | some tail => some { q.setFlink tail (some node) with tail := some node }

def addafter (prev node : ι) (q : Sq ι) : Option (Sq ι) :=
  if q.head.isNone ∨ q.tail = some prev then q.addlast node
  else some ((q.setFlink node (q.flink prev)).setFlink prev (some node))

/-- `sq_remafter`, whose result `sq_rem` does not use -/
def remafter (node : ι) (q : Sq ι) : Sq ι :=
  match q.head, q.flink node with
  | some _, some ret =>
    let q := if q.tail = some ret then { q.setFlink node none with tail := some node }
      else q.setFlink node (q.flink ret)
    q.setFlink ret none
  | _, _ => q

/-- The loop of `sq_rem`: the node before `node`, from `prev` on. -/
def findPrev (q : Sq ι) (node : ι) : Nat → Option ι → Option (Option ι)
  | 0, _ => none
  | _ + 1, none => some none
  | fuel + 1, some prev =>
    if q.flink prev ≠ some node then q.findPrev node fuel (q.flink prev) else some (some prev)

def rem (fuel : Nat) (node : ι) (q : Sq ι) : Option (Sq ι) :=
  if q.head.isNone then some q
  else if some node = q.head then
    let q := { q with head := q.flink node }
    some (if some node = q.tail then { q with tail := none } else q)
  else
    match q.findPrev node fuel q.head with
    | none => none
    | some none => some q
    | some (some prev) => some (q.remafter prev)

end Sq

open Sq

variable {q : Sq ι} {L M N : List ι} {node prev : ι}

/-! ## Adding a node -/

theorem addfirst_holds (h : q.Holds L) (hn : node ∉ L) : (q.addfirst node).Holds (node :: L) := by
  have hchain : Seg (update q.flink node q.head) (some node) (node :: L) none := by
    refine ⟨rfl, ?_⟩
    rw [update_self]
    exact h.chain.update hn
  unfold addfirst setFlink
  cases L with
  | nil =>
    have hhead : q.head = none := h.head
    simp only [hhead, Option.isNone_none, if_true] at hchain ⊢
    exact ⟨hchain, rfl⟩
  | cons a L =>
    have hhead : q.head = some a := h.head
    have htail := h.tail
    simp only [hhead, Option.isNone_some, Bool.false_eq_true, if_false] at hchain ⊢
    refine ⟨hchain, ?_⟩
    rw [getLast?_cons_cons]
    exact htail

theorem addlast_holds (h : q.Holds L) (hn : node ∉ L) :
    ∃ q', q.addlast node = some q' ∧ q'.Holds (L ++ [node]) := by
  rcases eq_nil_or_concat L with rfl | ⟨M, last, rfl⟩
  · have hhead : q.head = none := h.head
    unfold addlast setFlink
    simp only [hhead]
    exact ⟨_, rfl, ⟨rfl, update_self _ _ _⟩, rfl⟩
  · rw [concat_eq_append] at h hn ⊢
    have hhead : q.head.isNone = false := by
      rw [h.head]
      cases M <;> rfl
    have htail : q.tail = some last := by
      rw [h.tail, getLast?_append_of_ne_nil _ (by simp)]
      rfl
    have hlast : last ≠ node := by
      rintro rfl
      simp at hn
    have hM : last ∉ M := h.chain.apart.1
    unfold addlast setFlink
    simp only [hhead, htail, Bool.false_eq_true, if_false]
    refine ⟨_, rfl, ?_, ?_⟩
    · have hnode : Seg (update q.flink node none) q.head (M ++ [last]) none :=
        h.chain.update hn
      refine seg_append.mpr ⟨some node, hnode.retarget hM, rfl, ?_⟩
      show update _ _ _ _ = _
      rw [update_of_ne (Ne.symm hlast), update_self]
    · simp

theorem addafter_holds (h : q.Holds (M ++ prev :: N)) (hn : node ∉ M ++ prev :: N) :
    ∃ q', q.addafter prev node = some q' ∧ q'.Holds (M ++ prev :: node :: N) := by
  obtain ⟨hM, hprev⟩ := h.chain.apart
  have hhead : q.head.isNone = false := by
    rw [h.head]
    cases M <;> rfl
  unfold addafter
  cases N with
  | nil =>
    have htail : q.tail = some prev := by
      rw [h.tail, getLast?_append_of_ne_nil _ (by simp)]
      rfl
    rw [if_pos (.inr htail)]
    obtain ⟨q', hq, hL⟩ := addlast_holds h hn
    rw [append_assoc] at hL
    exact ⟨q', hq, hL⟩
  | cons b N =>
    have hlast : (M ++ prev :: b :: N).getLast? = (b :: N).getLast? := by
      rw [getLast?_append_of_ne_nil _ (by simp), getLast?_cons_cons]
    have htail : ¬(q.head.isNone = true ∨ q.tail = some prev) := by
      rintro (hnone | htail)
      · rw [hhead] at hnone
        cases hnone
      · rw [h.tail, hlast] at htail
        exact hprev (mem_of_getLast? htail)
    rw [if_neg htail]
    refine ⟨_, rfl, h.chain.insert hn, ?_⟩
    · show q.tail = _
      rw [h.tail, hlast, getLast?_append_of_ne_nil _ (by simp), getLast?_cons_cons,
        getLast?_cons_cons]

/-! ## Removing a node -/

theorem findPrev_spec (node : ι) : ∀ {L : List ι} {p : Option ι} (fuel : Nat), Seg q.flink p L none →
    (q.findPrev node fuel p = none ∧ fuel ≤ L.length) ∨
    (∃ M prev N, L = M ++ prev :: node :: N ∧ q.findPrev node fuel p = some (some prev)) ∨
    node ∉ L.tail ∧ q.findPrev node fuel p = some none
  | L, p, 0, _ => .inl ⟨rfl, Nat.zero_le _⟩
  | [], p, fuel + 1, h => by
    have hp : p = none := h
    subst hp
    exact .inr (.inr ⟨not_mem_nil, rfl⟩)
  | a :: L, p, fuel + 1, h => by
    obtain ⟨rfl, hL⟩ := h
    rw [findPrev]
    by_cases hnext : q.flink a = some node
    · rw [if_neg (not_not_intro hnext)]
      have hL' := hL
      rw [hnext] at hL'
      cases L with
      | nil => cases hL'
      | cons b N =>
        obtain rfl : node = b := Option.some.inj hL'.1
        exact .inr (.inl ⟨[], a, N, rfl, rfl⟩)
    · rw [if_pos hnext]
      have hstart := hL.start
      rcases findPrev_spec node fuel hL with ⟨hf, hle⟩ | ⟨M, prev, N, rfl, hf⟩ | ⟨hn, hf⟩
      · exact .inl ⟨hf, Nat.succ_le_succ hle⟩
      · exact .inr (.inl ⟨a :: M, prev, N, rfl, hf⟩)
      · refine .inr (.inr ⟨?_, hf⟩)
        cases L with
        | nil => exact not_mem_nil
        | cons b L =>
          rintro (⟨⟩ | ⟨_, hmem⟩)
          · exact hnext hstart
          · exact hn hmem

theorem remafter_holds (h : q.Holds (M ++ prev :: node :: N)) :
    (q.remafter prev).Holds (M ++ prev :: N) := by
  have hnode : node ∉ N := by
    have hchain := h.chain
    rw [append_cons] at hchain
    exact hchain.apart.2
  obtain ⟨a, hhead⟩ : ∃ a, q.head = some a := by
    rw [h.head]
    cases M <;> simp
  obtain ⟨r, -, -, hnext, hsegN⟩ := seg_append.mp h.chain
  -- in both branches `prev` gets the link of `node`
  have hchain := h.chain.unlink
  have hlast : (M ++ prev :: node :: N).getLast? = (node :: N).getLast? := by
    rw [getLast?_append_of_ne_nil _ (by simp), getLast?_cons_cons]
  unfold remafter setFlink
  simp only [hhead, hnext]
  rw [hhead] at hchain
  cases N with
  | nil =>
    have htail : q.tail = some node := by
      rw [h.tail, hlast]
      rfl
    rw [if_pos htail]
    rw [hsegN] at hchain
    refine ⟨hchain, ?_⟩
    simp
  | cons b N =>
    have htail : q.tail ≠ some node := by
      rw [h.tail, hlast, getLast?_cons_cons]
      intro he
      exact hnode (mem_of_getLast? he)
    rw [if_neg htail]
    refine ⟨hchain, ?_⟩
    show q.tail = _
    rw [h.tail, hlast, getLast?_append_of_ne_nil _ (by simp), getLast?_cons_cons,
      getLast?_cons_cons]

theorem rem_holds (fuel : Nat) (node : ι) (h : q.Holds L) :
    (q.rem fuel node = none ∧ fuel ≤ L.length) ∨
    ∃ q', q.rem fuel node = some q' ∧ q'.Holds (L.erase node) := by
  unfold rem
  cases L with
  | nil =>
    have hhead : q.head = none := h.head
    rw [hhead]
    exact .inr ⟨q, rfl, h⟩
  | cons a L =>
    have hhead : q.head = some a := h.head
    simp only [hhead, Option.isNone_some, Bool.false_eq_true, if_false, Option.some.injEq]
    by_cases ha : node = a
    · subst ha
      rw [if_pos rfl, erase_cons_head]
      refine .inr ⟨_, rfl, ?_⟩
      have hchain := h.chain.2
      cases L with
      | nil =>
        have htail : some node = q.tail := h.tail.symm
        rw [if_pos htail]
        exact ⟨hchain, rfl⟩
      | cons b L =>
        have htail : some node ≠ q.tail := by
          rw [h.tail, getLast?_cons_cons]
          intro he
          exact (nodup_cons.mp h.nodup).1 (mem_of_getLast? he.symm)
        rw [if_neg htail]
        exact ⟨hchain, h.tail.trans getLast?_cons_cons⟩
    · rw [if_neg ha]
      have hchain := h.chain
      rw [hhead] at hchain
      rcases findPrev_spec node fuel hchain with ⟨hf, hle⟩ | ⟨M, prev, N, hL, hf⟩ | ⟨hn, hf⟩
      · rw [hf]
        exact .inl ⟨rfl, hle⟩
      · rw [hf]
        refine .inr ⟨_, rfl, ?_⟩
        have hmem : node ∉ M ++ [prev] := by
          have hnd := h.nodup
          rw [hL, append_cons, nodup_append] at hnd
          exact fun hm => hnd.2.2 node hm node mem_cons_self rfl
        rw [hL] at h ⊢
        rw [append_cons, erase_append_right _ hmem, erase_cons_head,
          ← append_cons]
        exact remafter_holds h
      · rw [hf]
        refine .inr ⟨q, rfl, ?_⟩
        rw [erase_of_not_mem]
        · exact h
        · rintro (⟨⟩ | ⟨_, hmem⟩)
          · exact ha rfl
          · exact hn hmem

end Gpmx.Queue

/-!
## Doubly linked queues

`gpm/libs/libc/queue/dq_addlast.c` and `dq_rem.c`. `Dq` is a queue head together with the links of
every node there is; several queues can share the nodes. `Dq.Holds` reads a queue as a list, along
the `flink`s from its head and along the `blink`s from its tail.

`dq_addlast` is `none` where it would follow a NULL pointer. Neither function asks whether the node
is in the queue.
-/

namespace Gpmx.Queue

open Infra Function List

/-- `dq_queue_t`, and the links of the nodes. -/
structure Dq (ι : Type) where
  head : Option ι
  tail : Option ι
  flink : ι → Option ι
  blink : ι → Option ι

variable {ι : Type}

/-- The queue is the list `L`. -/
structure Dq.Holds (q : Dq ι) (L : List ι) : Prop where
  forward : Seg q.flink q.head L none
  backward : Seg q.blink q.tail L.reverse none

/-- The nodes that are not in `L` have the same links. -/
def Dq.SameOutside (q q' : Dq ι) (L : List ι) : Prop :=
  ∀ a ∉ L, q'.flink a = q.flink a ∧ q'.blink a = q.blink a

theorem Dq.Holds.nodup {q : Dq ι} (h : q.Holds L) : L.Nodup := h.forward.nodup

theorem Dq.Holds.congr {q q' : Dq ι} (h : q.Holds L) (hhead : q'.head = q.head)
    (htail : q'.tail = q.tail) (hlinks : ∀ a ∈ L, q'.flink a = q.flink a ∧ q'.blink a = q.blink a) :
    q'.Holds L := by
  constructor
  · rw [hhead]
    exact h.forward.congr fun a ha => (hlinks a ha).1
  · rw [htail]
    exact h.backward.congr fun a ha => (hlinks a (mem_reverse.mp ha)).2

variable [DecidableEq ι]

namespace Dq

def addlast (node : ι) (q : Dq ι) : Option (Dq ι) :=
  let q :=
    { q with
      flink := update q.flink node none
      blink := update q.blink node q.tail }
  match q.head, q.tail with
  | none, _ => some { q with head := some node, tail := some node }
  | some _, none => none
  | some _, some tail =>
    some { q with flink := update q.flink tail (some node), tail := some node }

def rem (node : ι) (q : Dq ι) : Dq ι :=
  let prev := q.blink node
  let next := q.flink node
  let q :=
    match prev with
    | none => { q with head := next }
    | some prev => { q with flink := update q.flink prev next }
  let q :=
    match next with
    | none => { q with tail := prev }
    | some next => { q with blink := update q.blink next prev }
  { q with
    flink := update q.flink node none
    blink := update q.blink node none }

end Dq

open Dq

variable {q : Dq ι} {L M N : List ι} {node : ι}

theorem dq_addlast_holds (h : q.Holds L) (hn : node ∉ L) :
    ∃ q', q.addlast node = some q' ∧ q'.Holds (L ++ [node]) ∧ q.SameOutside q' (L ++ [node]) := by
  have hback : Seg (update q.blink node q.tail) (some node) (node :: L.reverse) none := by
    refine ⟨rfl, ?_⟩
    rw [update_self]
    exact h.backward.update (by simpa using hn)
  have hrev : (L ++ [node]).reverse = node :: L.reverse := by simp
  unfold addlast
  rcases eq_nil_or_concat L with rfl | ⟨M, last, rfl⟩
  · have hhead : q.head = none := h.forward
    simp only [hhead]
    refine ⟨_, rfl, ⟨⟨rfl, update_self _ _ _⟩, hback⟩, ?_⟩
    intro a ha
    have hne : a ≠ node := by simpa using ha
    exact ⟨update_of_ne hne _ _, update_of_ne hne _ _⟩
  · rw [concat_eq_append] at h hn hback hrev ⊢
    obtain ⟨first, hhead⟩ : ∃ first, q.head = some first := by
      have hstart := h.forward.start
      cases M with
      | nil => exact ⟨last, hstart⟩
      | cons a M => exact ⟨a, hstart⟩
    have htail : q.tail = some last := by
      have hstart := h.backward.start
      simpa using hstart
    have hM : last ∉ M := h.forward.apart.1
    have hne : node ≠ last := by
      rintro rfl
      simp at hn
    rw [htail] at hback
    simp only [hhead, htail]
    refine ⟨_, rfl, ⟨?_, ?_⟩, ?_⟩
    · have hnode := h.forward.update (v := none) hn
      rw [hhead] at hnode
      refine seg_append.mpr ⟨some node, hnode.retarget hM, rfl, ?_⟩
      show update _ _ _ _ = _
      rw [update_of_ne hne, update_self]
    · rw [hrev]
      exact hback
    · intro a ha
      have hanode : a ≠ node := by
        rintro rfl
        simp at ha
      have halast : a ≠ last := by
        rintro rfl
        simp at ha
      refine ⟨?_, update_of_ne hanode _ _⟩
      show update _ _ _ _ = _
      rw [update_of_ne halast, update_of_ne hanode]

theorem dq_rem_split (h : q.Holds (M ++ node :: N)) :
    (q.rem node).Holds (M ++ N) ∧ q.SameOutside (q.rem node) (M ++ node :: N) := by
  have hrev : (M ++ node :: N).reverse = N.reverse ++ node :: M.reverse := by simp
  have hback := h.backward
  rw [hrev] at hback
  have hprev : q.blink node = M.getLast? := by
    obtain ⟨r, -, -, hM⟩ := seg_append.mp hback
    rw [hM.start, head?_reverse]
  have hnext : q.flink node = N.head? := by
    obtain ⟨r, -, -, hN⟩ := seg_append.mp h.forward
    exact hN.start
  have hforward' := h.forward.splice
  have hback' := hback.splice
  have hnot : node ∉ M ++ N := (nodup_cons.mp (nodup_middle.mp h.nodup)).1
  have hnot' : node ∉ (M ++ N).reverse := mt mem_reverse.mp hnot
  rw [← reverse_append, getLast?_reverse] at hback'
  unfold rem
  simp only [hprev, hnext] at hforward' hback' ⊢
  constructor
  · cases hM : M.getLast? <;> cases hN : N.head? <;> simp only [hM, hN] at hforward' hback' ⊢ <;>
      exact ⟨hforward'.update hnot, hback'.update hnot'⟩
  · intro a ha
    have hnode : a ≠ node := by
      rintro rfl
      simp at ha
    have hMa : ∀ b, M.getLast? = some b → a ≠ b := by
      rintro b hb rfl
      exact ha (mem_append_left _ (mem_of_getLast? hb))
    have hNa : ∀ b, N.head? = some b → a ≠ b := by
      rintro b hb rfl
      exact ha (mem_append_right _ (mem_cons_of_mem _ (mem_of_head? hb)))
    cases hM : M.getLast? <;> cases hN : N.head? <;>
      simp only [hM, hN, Option.some.injEq, forall_eq'] at hMa hNa ⊢ <;>
      simp [*]

theorem dq_rem_holds (h : q.Holds L) (hn : node ∈ L) :
    (q.rem node).Holds (L.erase node) ∧ q.SameOutside (q.rem node) L := by
  obtain ⟨M, N, rfl⟩ := append_of_mem hn
  rw [erase_append_right _ h.forward.apart.1, erase_cons_head]
  exact dq_rem_split h

end Gpmx.Queue
