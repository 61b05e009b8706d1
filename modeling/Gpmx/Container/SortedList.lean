import Gpmx.Infra.Chain
import Gpmx.Infra.Transducer
import Mathlib

/-!
# Intrusive sorted lists

`gpm/modules/container/intrusive_sorted_list.c`. A node that is added goes before the first one that the comparison
puts behind it. What a list should be is told by the nodes in the order in which they were added, `live`.

* `add_holds`, `remove_holds` — what a call does to the list
* `sorted_list_ordered` — a run of calls
-/

namespace Gpmx.Container

open Infra Function List

/-- `struct intrusive_sorted_list_head`, and the `next` of the nodes. -/
structure SortedList (ι : Type) where
  head : Option ι
  cmpf : ι → ι → Bool
  next : ι → Option ι

variable {ι : Type}

namespace SortedList

/-- `intrusive_sorted_list_init` -/
def init (cmpf : ι → ι → Bool) : SortedList ι := { head := none, cmpf, next := fun _ => none }

/-- The list is `L`. -/
def Holds (list : SortedList ι) (L : List ι) : Prop := Seg list.next list.head L none

variable [DecidableEq ι]

/-- `node->next = p` -/
def setNext (list : SortedList ι) (node : ι) (p : Option ι) : SortedList ι :=
  { list with next := update list.next node p }

/-- The `while` of `intrusive_sorted_list_add`, and the end of it. -/
def addLoop (list : SortedList ι) (newNode : ι) : Nat → ι → Option (SortedList ι)
  | 0, _ => none
  | fuel + 1, node =>
    match list.next node with
    | none => some (list.setNext node (some newNode))
    | some after =>
      if list.cmpf newNode after then
        some ((list.setNext newNode (some after)).setNext node (some newNode))
      else list.addLoop newNode fuel after

def add (fuel : Nat) (newNode : ι) (list : SortedList ι) : Option (SortedList ι) :=
  let list := list.setNext newNode none
  match list.head with
  | none => some { list with head := some newNode }
  | some head =>
    if list.cmpf newNode head then
      some { list.setNext newNode (some head) with head := some newNode }
    else list.addLoop newNode fuel head

/-- The `for` of `intrusive_sorted_list_remove`. -/
def removeLoop (list : SortedList ι) (removeNode : ι) : Nat → Option ι → Option (Bool × SortedList ι)
  | 0, _ => none
  | _ + 1, none => some (false, list)
  | fuel + 1, some node =>
    if list.next node = some removeNode then
      some (true, (list.setNext node (list.next removeNode)).setNext removeNode none)
    else list.removeLoop removeNode fuel (list.next node)

def remove (fuel : Nat) (removeNode : Option ι) (list : SortedList ι) : Option (Bool × SortedList ι) :=
  match removeNode with
  | none => some (false, list)
  | some removeNode =>
    if some removeNode = list.head then
      some (true, { list with head := list.next removeNode }.setNext removeNode none)
    else list.removeLoop removeNode fuel list.head

end SortedList

open SortedList

variable {list : SortedList ι} {L M N : List ι} {node a : ι}

def SortedList.place (cmpf : ι → ι → Bool) (node : ι) (L : List ι) : List ι :=
  L.orderedInsert (fun a b => cmpf a b = true) node

variable [DecidableEq ι]

theorem addLoop_holds (fuel : Nat) : ∀ {N M : List ι} {a : ι}, list.Holds (M ++ a :: N) →
    node ∉ M ++ a :: N → list.next node = none → N.length < fuel →
    ∃ list', list.addLoop node fuel a = some list' ∧
      list'.Holds (M ++ a :: place list.cmpf node N) ∧ list'.cmpf = list.cmpf := by
  induction fuel with
  | zero => exact fun _ _ _ hfuel => absurd hfuel (Nat.not_lt_zero _)
  | succ fuel ih =>
    intro N M a h hn hnone hfuel
    obtain ⟨r, -, -, hN⟩ := seg_append.mp h
    have hinsert := Seg.insert h hn
    rw [addLoop]
    cases N with
    | nil =>
      have hlast : list.next a = none := hN
      have hsame : update list.next node (list.next a) = list.next := by
        rw [hlast, ← hnone, update_eq_self]
      rw [hsame] at hinsert
      rw [hlast]
      exact ⟨_, rfl, hinsert, rfl⟩
    | cons b N =>
      have hnext : list.next a = some b := hN.1
      rw [hnext] at hinsert ⊢
      dsimp only
      unfold place
      rw [orderedInsert_cons]
      by_cases hcmp : list.cmpf node b = true
      · rw [if_pos hcmp, if_pos hcmp]
        exact ⟨_, rfl, hinsert, rfl⟩
      · rw [if_neg hcmp, if_neg hcmp]
        rw [append_cons] at h hn ⊢
        exact ih h hn hnone (Nat.lt_of_succ_lt_succ hfuel)

theorem add_holds {fuel : Nat} (h : list.Holds L) (hn : node ∉ L) (hfuel : L.length < fuel) :
    ∃ list', list.add fuel node = some list' ∧ list'.Holds (place list.cmpf node L) ∧
      list'.cmpf = list.cmpf := by
  have hclear : (list.setNext node none).Holds L := Seg.update h hn
  have hself : (list.setNext node none).next node = none := update_self ..
  unfold add
  cases L with
  | nil =>
    have hhead : (list.setNext node none).head = none := h
    simp only [hhead]
    exact ⟨_, rfl, ⟨rfl, hself⟩, rfl⟩
  | cons b L =>
    have hhead : (list.setNext node none).head = some b := h.1
    have hsame : (list.setNext node none).cmpf = list.cmpf := rfl
    simp only [hhead, hsame]
    unfold place
    rw [orderedInsert_cons]
    by_cases hcmp : list.cmpf node b = true
    · rw [if_pos hcmp, if_pos hcmp]
      refine ⟨_, rfl, ⟨rfl, ?_⟩, rfl⟩
      have hfrom : Seg (list.setNext node none).next (some b) (b :: L) none := by
        rw [← hhead]
        exact hclear
      have hnext : ((list.setNext node none).setNext node (some b)).next node = some b := update_self ..
      rw [hnext]
      exact hfrom.update hn
    · rw [if_neg hcmp, if_neg hcmp]
      exact addLoop_holds (M := []) fuel hclear hn hself (by simp at hfuel; omega)

theorem sorted_removeLoop_holds (fuel : Nat) : ∀ {N M : List ι} {p : Option ι}, list.Holds (M ++ N) →
    Seg list.next p N none → N.length < fuel →
    (node ∈ N.tail ∧ ∃ list', list.removeLoop node fuel p = some (true, list') ∧
      list'.Holds ((M ++ N).erase node) ∧ list'.cmpf = list.cmpf) ∨
    node ∉ N.tail ∧ list.removeLoop node fuel p = some (false, list) := by
  induction fuel with
  | zero => exact fun _ _ hfuel => absurd hfuel (Nat.not_lt_zero _)
  | succ fuel ih =>
    intro N M p h hp hfuel
    cases N with
    | nil =>
      rw [seg_nil] at hp
      rw [hp]
      exact .inr ⟨not_mem_nil, rfl⟩
    | cons a N =>
      obtain ⟨rfl, hN⟩ := hp
      rw [removeLoop]
      by_cases hnext : list.next a = some node
      · rw [if_pos hnext]
        rw [hnext] at hN
        cases N with
        | nil => cases hN
        | cons b N =>
          obtain rfl : node = b := Option.some.inj hN.1
          refine .inl ⟨mem_cons_self, _, rfl, ?_, rfl⟩
          have hbefore : node ∉ M ++ [a] := by
            have hchain : Seg list.next list.head ((M ++ [a]) ++ node :: N) none := by
              rw [← append_cons]
              exact h
            exact hchain.apart.1
          rw [append_cons, erase_append_right _ hbefore, erase_cons_head, ← append_cons]
          exact Seg.unlink h
      · rw [if_neg hnext]
        have hhead : N.head? ≠ some node := by
          rw [← hN.start]
          exact hnext
        have htail : node ∈ N ↔ node ∈ N.tail := by
          cases N with
          | nil => simp
          | cons b N =>
            have hne : node ≠ b := fun he => hhead (by simp [he])
            simp [hne]
        rw [append_cons] at h ⊢
        rw [tail_cons, htail]
        exact ih h hN (Nat.lt_of_succ_lt_succ hfuel)

theorem sorted_remove_holds {fuel : Nat} (node : ι) (h : list.Holds L) (hfuel : L.length < fuel) :
    (node ∈ L ∧ ∃ list', list.remove fuel (some node) = some (true, list') ∧
      list'.Holds (L.erase node) ∧ list'.cmpf = list.cmpf) ∨
    node ∉ L ∧ list.remove fuel (some node) = some (false, list) := by
  unfold remove
  dsimp only
  by_cases hhead : some node = list.head
  · rw [if_pos hhead]
    cases L with
    | nil => cases hhead.trans h
    | cons a L =>
      obtain rfl : node = a := Option.some.inj (hhead.trans h.1)
      refine .inl ⟨mem_cons_self, _, rfl, ?_, rfl⟩
      rw [erase_cons_head]
      exact Seg.update h.2 (nodup_cons.mp (Seg.nodup h)).1
  · rw [if_neg hhead]
    have hmem : node ∈ L ↔ node ∈ L.tail := by
      rw [Seg.start h] at hhead
      cases L with
      | nil => simp
      | cons a L =>
        have hne : node ≠ a := fun he => hhead (by simp [he])
        simp [hne]
    rw [hmem]
    exact sorted_removeLoop_holds (M := []) fuel h h hfuel

/-! ## Order -/

section Order

variable {κ : Type} [LinearOrder κ] {key : ι → κ} {first : Bool} {live : List ι}

/-- A comparison of keys; a new node goes before the equal ones or behind them. -/
def byKey (key : ι → κ) (first : Bool) (a b : ι) : Bool :=
  if first then key a ≤ key b else key a < key b

/-- The list in order, of the nodes in the order in which they were added. -/
structure InOrder (key : ι → κ) (first : Bool) (L live : List ι) : Prop where
  sorted : L.Pairwise fun a b => key a ≤ key b
  perm : L.Perm live
  nodup : live.Nodup
  equal : ∀ k, L.filter (key · = k) = (if first then live.reverse else live).filter (key · = k)

omit [DecidableEq ι] in
theorem place_sorted (hs : L.Pairwise fun a b => key a ≤ key b) :
    (place (byKey key first) node L).Pairwise fun a b => key a ≤ key b := by
  induction L with
  | nil => simp [place]
  | cons a L ih =>
    obtain ⟨ha, hL⟩ := pairwise_cons.mp hs
    unfold place
    rw [orderedInsert_cons]
    by_cases hcmp : byKey key first node a = true
    · rw [if_pos hcmp]
      have hle : key node ≤ key a := by
        cases first
        · exact le_of_lt (of_decide_eq_true hcmp)
        · exact of_decide_eq_true hcmp
      refine pairwise_cons.mpr ⟨fun b hb => ?_, hs⟩
      rcases mem_cons.mp hb with rfl | hb
      · exact hle
      · exact hle.trans (ha b hb)
    · rw [if_neg hcmp]
      have hle : key a ≤ key node := by
        cases first
        · exact not_lt.mp (mt decide_eq_true hcmp)
        · exact le_of_lt (not_le.mp (mt decide_eq_true hcmp))
      refine pairwise_cons.mpr ⟨fun b hb => ?_, ih hL⟩
      rcases (perm_orderedInsert _ node L).mem_iff.mp hb with - | hb
      · exact hle
      · exact ha b ‹_›

omit [DecidableEq ι] in
theorem place_filter (hs : L.Pairwise fun a b => key a ≤ key b) (k : κ) :
    (place (byKey key first) node L).filter (key · = k) =
      if key node = k then
        if first then node :: L.filter (key · = k) else L.filter (key · = k) ++ [node]
      else L.filter (key · = k) := by
  induction L with
  | nil => by_cases hk : key node = k <;> simp [place, hk]
  | cons a L ih =>
    obtain ⟨ha, hL⟩ := pairwise_cons.mp hs
    have ih := ih hL
    unfold place at ih ⊢
    rw [orderedInsert_cons]
    by_cases hcmp : byKey key first node a = true
    · rw [if_pos hcmp, filter_cons]
      by_cases hk : key node = k
      · rw [if_pos (decide_eq_true hk), if_pos hk]
        cases first
        · have hlt : key node < key a := of_decide_eq_true hcmp
          have hnil : (a :: L).filter (key · = k) = [] := by
            refine filter_eq_nil_iff.mpr fun b hb => ?_
            have hlt : key node < key b := by
              rcases mem_cons.mp hb with rfl | hb
              · exact hlt
              · exact hlt.trans_le (ha b hb)
            rw [hk] at hlt
            simpa using hlt.ne'
          rw [hnil]
          rfl
        · rfl
      · rw [if_neg (by simpa using hk), if_neg hk]
    · rw [if_neg hcmp, filter_cons, ih, filter_cons]
      cases first
      · split <;> split <;> rfl
      · have hlt : key a < key node := not_le.mp (mt decide_eq_true hcmp)
        by_cases hk : key node = k
        · have hak : ¬decide (key a = k) = true := by
            rw [← hk]
            simpa using hlt.ne
          rw [if_neg hak, if_neg hak]
        · rw [if_neg hk, if_neg hk]

omit [DecidableEq ι] in
theorem InOrder.place (h : InOrder key first L live) (hn : node ∉ live) :
    InOrder key first (place (byKey key first) node L) (live ++ [node]) where
  sorted := place_sorted h.sorted
  perm := (perm_orderedInsert _ node L).trans
    ((h.perm.cons node).trans (perm_append_singleton node live).symm)
  nodup := nodup_append.mpr ⟨h.nodup, nodup_singleton node, by
    rintro a ha b hb rfl
    exact hn (mem_singleton.mp hb ▸ ha)⟩
  equal k := by
    rw [place_filter h.sorted k, h.equal k]
    cases first <;> by_cases hk : key node = k <;> simp [hk]

theorem InOrder.erase (h : InOrder key first L live) (node : ι) :
    InOrder key first (L.erase node) (live.erase node) where
  sorted := h.sorted.erase node
  perm := h.perm.erase node
  nodup := h.nodup.erase node
  equal k := by
    rw [(h.perm.nodup_iff.mpr h.nodup).erase_eq_filter, h.nodup.erase_eq_filter, filter_comm, h.equal k]
    cases first
    · exact filter_comm ..
    · rw [if_pos rfl, if_pos rfl, ← filter_reverse, filter_comm]

end Order

/-! ## A run -/

inductive SortedOp (ι : Type)
  | add (node : ι)
  | remove (node : ι)

def sortedStep (fuel : Nat) (list : SortedList ι) : SortedOp ι → Option (SortedList ι × Option Bool)
  | .add node => (list.add fuel node).map fun list => (list, none)
  | .remove node => (list.remove fuel (some node)).map fun r => (r.2, some r.1)

def liveStep (live : List ι) : SortedOp ι → List ι × Option Bool
  | .add node => (live ++ [node], none)
  | .remove node => (live.erase node, some (decide (node ∈ live)))

/-- `new_node` is a single node. -/
def Single (live : List ι) : SortedOp ι → Prop
  | .add node => node ∉ live
  | .remove _ => True

/-- The list in memory, for the nodes in the order in which they were added. -/
def SortedList.Right {κ : Type} [LinearOrder κ] (key : ι → κ) (first : Bool) (list : SortedList ι) (live : List ι) : Prop :=
  list.cmpf = byKey key first ∧ ∃ L, list.Holds L ∧ InOrder key first L live

theorem sortedStep_right {κ : Type} [LinearOrder κ] {key : ι → κ} {first : Bool} {live : List ι} {fuel : Nat}
    (op : SortedOp ι) (h : list.Right key first live) (hop : Single live op) (hfuel : live.length < fuel) :
    ∃ list', sortedStep fuel list op = some (list', (liveStep live op).2) ∧
      list'.Right key first (liveStep live op).1 := by
  obtain ⟨hcmp, L, hL, hord⟩ := h
  rw [← hord.perm.length_eq] at hfuel
  cases op with
  | add node =>
    have hn : node ∉ live := hop
    obtain ⟨list', hadd, hL', hcmp'⟩ := add_holds hL (mt hord.perm.mem_iff.mp hn) hfuel
    rw [hcmp] at hL'
    refine ⟨list', ?_, hcmp'.trans hcmp, _, hL', hord.place hn⟩
    rw [sortedStep, hadd]
    rfl
  | remove node =>
    rcases sorted_remove_holds node hL hfuel with ⟨hmem, list', hrem, hL', hcmp'⟩ | ⟨hmem, hrem⟩
    · refine ⟨list', ?_, hcmp'.trans hcmp, _, hL', hord.erase node⟩
      rw [sortedStep, hrem, liveStep, decide_eq_true (hord.perm.mem_iff.mp hmem)]
      rfl
    · have hn : node ∉ live := mt hord.perm.mem_iff.mpr hmem
      refine ⟨list, ?_, hcmp, L, hL, ?_⟩
      · rw [sortedStep, hrem, liveStep, decide_eq_false hn]
        rfl
      · rw [liveStep, erase_of_not_mem hn]
        exact hord

theorem length_liveStep (live : List ι) (op : SortedOp ι) : (liveStep live op).1.length ≤ live.length + 1 := by
  cases op with
  | add node => simp [liveStep]
  | remove node => exact Nat.le_succ_of_le length_erase_le

/-- **A sorted list is in order**, for every comparison of keys: it has the nodes that were added and not removed, each
once, by key, and those of equal keys in the order in which they were added, or the other way round; and to remove
a node that is not there changes nothing. -/
theorem sorted_list_ordered {κ : Type} [LinearOrder κ] (key : ι → κ) (first : Bool) (ops : List (SortedOp ι))
    (extra : Nat) (hops : Guarded liveStep Single [] ops) :
    ∃ list' L, runs (sortedStep (ops.length + 1 + extra)) (init (byKey key first)) ops =
        some (list', (Infra.run liveStep [] ops).2) ∧
      list'.Holds L ∧ InOrder key first L (Infra.run liveStep [] ops).1 ∧
      ∀ node ∉ L, list'.remove (L.length + 1) (some node) = some (false, list') := by
  have hstart : (init (byKey key first)).Right key first [] :=
    ⟨rfl, [], rfl, List.Pairwise.nil, List.Perm.nil, nodup_nil, by cases first <;> simp⟩
  obtain ⟨list', hrun, -, L, hL, hord⟩ := Guarded.refined (SortedList.Right key first) List.length
    (fun _ _ op h hop hfuel => sortedStep_right op h hop hfuel) length_liveStep hops hstart
    (show [].length + ops.length < ops.length + 1 + extra by simp; omega)
  refine ⟨list', L, hrun, hL, hord, fun node hn => ?_⟩
  exact (sorted_remove_holds node hL (Nat.lt_succ_self _)).elim (fun h => absurd h.1 hn) (·.2)

/-- `1`, a node with the same key behind it, and the first one removed twice. -/
theorem sorted_list_ordered_equal : ∃ list' L, runs (sortedStep (4 + 1 + 0)) (init (byKey (fun _ : Nat => 0) false))
        [.add 1, .add 2, .remove 1, .remove 1] =
        some (list', (Infra.run liveStep [] [.add 1, .add 2, .remove 1, .remove 1]).2) ∧
      list'.Holds L ∧ InOrder (fun _ => 0) false L (Infra.run liveStep [] [.add 1, .add 2, .remove 1, .remove 1]).1 ∧
      ∀ node ∉ L, list'.remove (L.length + 1) (some node) = some (false, list') :=
  sorted_list_ordered (fun _ => 0) false [.add 1, .add 2, .remove 1, .remove 1] 0
    ⟨by simp [Single], by simp [Single, liveStep], trivial, trivial, trivial⟩

end Gpmx.Container
