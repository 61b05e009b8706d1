import Gpmx.Vfs.FileList
import Mathlib

/-!
# VFS: growing the list of files

`files_extend` gets the array of row pointers a new size before it has the new rows. Where a row cannot
be had, it frees the array, and `fl_files` still points to it.
-/

namespace Gpmx.Vfs

open Function

variable {lim : Limits} {g : Growth} {heap heap' : Heap} {list list' : Filelist} {row : Nat}

/-! ## The loop over the new rows -/

/-- The heap with `m` rows more, whose numbers start where the next one was. -/
def Heap.withRows (heap : Heap) (m next : Nat) : Heap where
  arrays := heap.arrays
  rows := fun p => if heap.next ≤ p ∧ p < heap.next + m then some fun _ => .zero else heap.rows p
  next := next

/-- The array with pointers to `m` new rows from `base` on. -/
def newRows (array : Nat → Nat) (base next m : Nat) : Nat → Nat := fun k =>
  if base ≤ k ∧ k < base + m then next + (k - base) else array k

theorem withRows_zero (heap : Heap) (next : Nat) : heap.withRows 0 next = { heap with next } := by
  unfold Heap.withRows
  congr 1
  funext p
  exact if_neg (by omega)

theorem newRows_zero (array : Nat → Nat) (base next : Nat) : newRows array base next 0 = array := by
  funext k
  exact if_neg (by omega)

theorem newRows_succ (array : Nat → Nat) (base next m : Nat) :
    update (newRows array base next m) (base + m) (next + m) =
      newRows array base next (m + 1) := by
  funext k
  unfold newRows
  by_cases hk : k = base + m
  · subst hk
    rw [update_self, if_pos (by omega)]
    omega
  · rw [update_of_ne hk]
    split_ifs <;> first | rfl | omega

theorem zalloc_withRows (heap : Heap) (m : Nat) :
    (heap.withRows m (heap.next + m)).zalloc =
      (heap.next + m, heap.withRows (m + 1) (heap.next + (m + 1))) := by
  unfold Heap.zalloc Heap.withRows
  dsimp only
  congr 2
  funext p
  by_cases hp : p = heap.next + m
  · subst hp
    rw [update_self, if_pos (by omega)]
  · rw [update_of_ne hp]
    split_ifs <;> first | rfl | omega

theorem freeRows_withRows (hfresh : ∀ p, heap.next ≤ p → heap.rows p = none) (array : Nat → Nat)
    (base next n m : Nat) (hm : m ≤ n) :
    freeRows (newRows array base heap.next n) (heap.withRows m next) base m = { heap with next } := by
  induction m with
  | zero => exact withRows_zero heap next
  | succ m ih =>
    have hlast : newRows array base heap.next n (base + m) = heap.next + m := by
      unfold newRows
      rw [if_pos (by omega)]
      omega
    have hfree : (heap.withRows (m + 1) next).freeRow (heap.next + m) = heap.withRows m next := by
      unfold Heap.freeRow Heap.withRows
      dsimp only
      congr 1
      funext p
      by_cases hp : p = heap.next + m
      · subst hp
        rw [update_self, if_neg (by omega), hfresh _ (by omega)]
      · rw [update_of_ne hp]
        split_ifs <;> first | rfl | omega
    rw [freeRows, hlast, hfree]
    exact ih (by omega)

/-- **Every row is had.** -/
theorem allocRows_ok {zalloc : Nat → Bool} {base m n : Nat}
    (h : ∀ k, base + m ≤ k → k < base + m + n → zalloc k = true) (tmp : Nat) (array : Nat → Nat) :
    allocRows zalloc tmp base (newRows array base heap.next m) (heap.withRows m (heap.next + m))
        (base + m) n =
      (true, { heap.withRows (m + n) (heap.next + (m + n)) with
        arrays := update heap.arrays tmp (some (newRows array base heap.next (m + n))) }) := by
  induction n generalizing m with
  | zero => rfl
  | succ n ih =>
    unfold allocRows
    rw [if_pos (h (base + m) (Nat.le_refl _) (by omega)), zalloc_withRows]
    dsimp only
    rw [newRows_succ, Nat.add_assoc base m 1, ih fun k hk hlt => h k (by omega) (by omega),
      Nat.add_right_comm m 1 n, Nat.add_assoc m n 1]

/-- **A row is missing**: those before it are freed, and the array. -/
theorem allocRows_failed (hfresh : ∀ p, heap.next ≤ p → heap.rows p = none) {zalloc : Nat → Bool}
    {base m n : Nat} (h : ∃ k, base + m ≤ k ∧ k < base + m + n ∧ zalloc k = false) (tmp : Nat)
    (array : Nat → Nat) : ∃ next, heap.next ≤ next ∧
      allocRows zalloc tmp base (newRows array base heap.next m) (heap.withRows m (heap.next + m))
          (base + m) n =
        (false, { heap with arrays := update heap.arrays tmp none, next }) := by
  induction n generalizing m with
  | zero =>
    obtain ⟨k, hk, hlt, -⟩ := h
    omega
  | succ n ih =>
    unfold allocRows
    by_cases hz : zalloc (base + m) = true
    · rw [if_pos hz, zalloc_withRows]
      dsimp only
      rw [newRows_succ, Nat.add_assoc base m 1]
      obtain ⟨k, hk, hlt, hfalse⟩ := h
      refine ih ⟨k, ?_, by omega, hfalse⟩
      have hne : k ≠ base + m := by
        rintro rfl
        exact nomatch hz.symm.trans hfalse
      omega
    · rw [if_neg hz]
      refine ⟨heap.next + m, Nat.le_add_right _ _, ?_⟩
      have hfree := freeRows_withRows hfresh array base (heap.next + m) m m (Nat.le_refl m)
      rw [Nat.add_sub_cancel_left, hfree]
      rfl

theorem allocRows_all {zalloc : Nat → Bool} {base n : Nat}
    (h : ∀ k, base ≤ k → k < base + n → zalloc k = true) (tmp : Nat) (array : Nat → Nat) :
    allocRows zalloc tmp base array heap base n =
      (true, { heap.withRows n (heap.next + n) with
        arrays := update heap.arrays tmp (some (newRows array base heap.next n)) }) := by
  have hok := @allocRows_ok heap zalloc base 0 n h tmp array
  rw [newRows_zero, withRows_zero, Nat.zero_add] at hok
  exact hok

theorem allocRows_missing (hfresh : ∀ p, heap.next ≤ p → heap.rows p = none) {zalloc : Nat → Bool}
    {base n : Nat} (h : ∃ k, base ≤ k ∧ k < base + n ∧ zalloc k = false) (tmp : Nat)
    (array : Nat → Nat) : ∃ next, heap.next ≤ next ∧
      allocRows zalloc tmp base array heap base n =
        (false, { heap with arrays := update heap.arrays tmp none, next }) := by
  have hfailed := @allocRows_failed heap hfresh zalloc base 0 n h tmp array
  rw [newRows_zero, withRows_zero] at hfailed
  exact hfailed

/-! ## `files_extend` -/

/-- A list of files in the heap: its rows are there, one block each. -/
structure Laid (heap : Heap) (list : Filelist) : Prop where
  null : list.rows = 0 → list.files = 0
  next_pos : 0 < heap.next
  arrays_null : heap.arrays 0 = none
  fresh : ∀ p, heap.next ≤ p → heap.arrays p = none ∧ heap.rows p = none
  rows : ∀ i < list.rows, (rowOf heap list i).isSome
  inj : ∀ i < list.rows, ∀ j < list.rows, ∀ p row row', rowOf heap list i = some (p, row) →
    rowOf heap list j = some (p, row') → i = j

theorem rowOf_eq_some {i p : Nat} {files : Nat → File} : rowOf heap list i = some (p, files) ↔
    ∃ array, heap.arrays list.files = some array ∧ array i = p ∧ heap.rows p = some files := by
  unfold rowOf
  constructor
  · intro h
    obtain ⟨array, harray, h⟩ := Option.bind_eq_some_iff.mp h
    obtain ⟨r, hr, h⟩ := Option.bind_eq_some_iff.mp h
    cases h
    exact ⟨array, harray, rfl, hr⟩
  · rintro ⟨array, harray, rfl, hr⟩
    simp [harray, hr]

theorem Laid.get_row (h : Laid heap list) {i : Nat} (hi : i < list.rows) :
    ∃ p files, rowOf heap list i = some (p, files) := by
  obtain ⟨⟨p, files⟩, hr⟩ := Option.isSome_iff_exists.mp (h.rows i hi)
  exact ⟨p, files, hr⟩

theorem Laid.array (h : Laid heap list) (hpos : 0 < list.rows) :
    ∃ array, heap.arrays list.files = some array := by
  obtain ⟨p, files, hr⟩ := h.get_row hpos
  obtain ⟨array, harray, -⟩ := rowOf_eq_some.mp hr
  exact ⟨array, harray⟩

/-- The heap after `kmm_realloc`. -/
def Heap.moved (heap : Heap) (p : Nat) (array : Nat → Nat) : Heap where
  arrays := update (update heap.arrays p none) heap.next (some array)
  rows := heap.rows
  next := heap.next + 1

theorem Laid.realloc (h : Laid heap list) : ∃ array,
    heap.realloc list.files = some (heap.next, heap.moved list.files array) ∧
      (0 < list.rows → heap.arrays list.files = some array) := by
  by_cases hpos : 0 < list.rows
  · obtain ⟨array, harray⟩ := h.array hpos
    have hne : list.files ≠ 0 := by
      intro h0
      rw [h0, h.arrays_null] at harray
      cases harray
    exact ⟨array, by simp [Heap.realloc, hne, harray, Heap.moved], fun _ => harray⟩
  · have h0 : list.files = 0 := h.null (by omega)
    exact ⟨fun _ => 0, by simp [Heap.realloc, h0, Heap.moved], fun hpos' => absurd hpos' hpos⟩

def Reallocs (lim : Limits) (g : Growth) (list : Filelist) (row : Nat) : Prop :=
  list.rows < row ∧ row * lim.perBlock % 2 ^ 32 ≤ lim.openMax ∧ g.realloc = true

instance : Decidable (Reallocs lim g list row) := inferInstanceAs (Decidable (_ ∧ _ ∧ _))

theorem extend_early (h : ¬Reallocs lim g list row) :
    (row ≤ list.rows ∧ filesExtend lim g heap list row = some (0, heap, list)) ∨
    (list.rows < row ∧ lim.openMax < row * lim.perBlock % 2 ^ 32 ∧
      filesExtend lim g heap list row = some (-EMFILE, heap, list)) ∨
    (list.rows < row ∧ filesExtend lim g heap list row = some (-ENFILE, heap, list)) := by
  unfold filesExtend
  by_cases hrow : row ≤ list.rows
  · exact .inl ⟨hrow, if_pos hrow⟩
  rw [if_neg hrow]
  by_cases hmax : row * lim.perBlock % 2 ^ 32 > lim.openMax
  · exact .inr (.inl ⟨by omega, hmax, if_pos hmax⟩)
  rw [if_neg hmax]
  have hre : ¬g.realloc = true := fun hre => h ⟨by omega, by omega, hre⟩
  exact .inr (.inr ⟨by omega, if_neg hre⟩)

theorem extend_late (hl : Laid heap list) (h : Reallocs lim g list row) : ∃ array,
    (0 < list.rows → heap.arrays list.files = some array) ∧
    filesExtend lim g heap list row =
      match allocRows g.zalloc heap.next list.rows array (heap.moved list.files array) list.rows
        (row - list.rows) with
      | (false, heap) => some (-ENFILE, heap, list)
      | (true, heap') => some (0, heap', { rows := row % 2 ^ 8, files := heap.next }) := by
  obtain ⟨array, hre, harray⟩ := hl.realloc
  refine ⟨array, harray, ?_⟩
  have hmoved : (heap.moved list.files array).arrays heap.next = some array := update_self ..
  unfold filesExtend
  rw [if_neg (Nat.not_le.mpr h.1), if_neg (Nat.not_lt.mpr h.2.1), if_pos h.2.2, hre,
    Option.bind_eq_bind, Option.bind_some]
  dsimp only
  rw [hmoved]
  rfl

def RowsHad (g : Growth) (list : Filelist) (row : Nat) : Prop :=
  ∀ k, list.rows ≤ k → k < row → g.zalloc k = true

/-- **The table grows.** -/
theorem extend_grows (hl : Laid heap list) (h : Reallocs lim g list row) (hz : RowsHad g list row) :
    ∃ array, (0 < list.rows → heap.arrays list.files = some array) ∧
      filesExtend lim g heap list row = some (0,
        { (heap.moved list.files array).withRows (row - list.rows) (heap.next + 1 + (row - list.rows)) with
          arrays := update (heap.moved list.files array).arrays heap.next
            (some (newRows array list.rows (heap.next + 1) (row - list.rows))) },
        { rows := row % 2 ^ 8, files := heap.next }) := by
  obtain ⟨array, harray, heq⟩ := extend_late hl h
  refine ⟨array, harray, heq.trans ?_⟩
  have hrow := h.1
  rw [@allocRows_all (heap.moved list.files array) g.zalloc list.rows (row - list.rows)
    (fun k hk hlt => hz k hk (by omega)) heap.next array]
  rfl

/-- **A row cannot be had**: the array is freed. -/
theorem extend_fails (hl : Laid heap list) (h : Reallocs lim g list row) (hz : ¬RowsHad g list row) :
    ∃ next, heap.next ≤ next ∧ filesExtend lim g heap list row = some (-ENFILE,
      { heap with arrays := update heap.arrays list.files none, next }, list) := by
  obtain ⟨array, harray, heq⟩ := extend_late hl h
  have hfail : ∃ k, list.rows ≤ k ∧ k < list.rows + (row - list.rows) ∧ g.zalloc k = false := by
    unfold RowsHad at hz
    simp only [not_forall, Bool.not_eq_true] at hz
    obtain ⟨k, hk, hlt, hfalse⟩ := hz
    exact ⟨k, hk, by omega, hfalse⟩
  obtain ⟨next, hle, hfailed⟩ := @allocRows_missing (heap.moved list.files array)
    (fun p hp => (hl.fresh p (Nat.le_of_succ_le hp)).2) g.zalloc list.rows (row - list.rows) hfail
    heap.next array
  refine ⟨next, Nat.le_of_succ_le hle, heq.trans ?_⟩
  rw [hfailed]
  -- the block that was freed had no number before
  have harrays : update (heap.moved list.files array).arrays heap.next none =
      update heap.arrays list.files none := by
    unfold Heap.moved
    rw [update_idem]
    by_cases hp : heap.next = list.files
    · rw [hp, update_idem]
    · refine Function.update_eq_self_iff.mpr ?_
      rw [update_of_ne hp]
      exact ((hl.fresh _ (Nat.le_refl _)).1).symm
  simp only [harrays]
  rfl

/-! ## A call that fails -/

structure Intact (heap : Heap) (list : Filelist) (heap' : Heap) (list' : Filelist) : Prop where
  rows : list'.rows = list.rows
  kept : ∀ i < list.rows, rowOf heap' list' i = rowOf heap list i
  no_array : ∀ p, heap.arrays p = none → heap'.arrays p = none
  no_row : ∀ p, heap.rows p = none → heap'.rows p = none

theorem Intact.refl (heap : Heap) (list : Filelist) (next : Nat) :
    Intact heap list { heap with next } list := ⟨rfl, fun _ _ => rfl, fun _ h => h, fun _ h => h⟩

def ExtendAtomic (lim : Limits) (g : Growth) (heap : Heap) (list : Filelist) (row : Nat) : Prop :=
  ∃ ret heap' list', filesExtend lim g heap list row = some (ret, heap', list') ∧
    (ret < 0 → Intact heap list heap' list')

theorem not_atomic (hl : Laid heap list) (h : Reallocs lim g list row) (hz : ¬RowsHad g list row)
    (hpos : 0 < list.rows) : ¬ExtendAtomic lim g heap list row := by
  obtain ⟨next, -, heq⟩ := extend_fails hl h hz
  rintro ⟨ret, heap', list', heq', hintact⟩
  cases heq.symm.trans heq'
  obtain ⟨p, files, hr⟩ := hl.get_row hpos
  have hkept := (hintact (by decide)).kept 0 hpos
  rw [hr] at hkept
  obtain ⟨array, harray, -⟩ := rowOf_eq_some.mp hkept
  simp at harray

/-- **A call that fails leaves the list intact exactly if the list has no row, or no row is missing after
the array has moved.** -/
theorem extend_atomic_iff (hl : Laid heap list) : ExtendAtomic lim g heap list row ↔
    (list.rows = 0 ∨ ¬Reallocs lim g list row ∨ RowsHad g list row) := by
  by_cases h : Reallocs lim g list row
  · by_cases hz : RowsHad g list row
    · obtain ⟨array, -, heq⟩ := extend_grows hl h hz
      exact iff_of_true ⟨0, _, _, heq, fun hneg => absurd hneg (by decide)⟩ (.inr (.inr hz))
    · by_cases h0 : list.rows = 0
      · obtain ⟨next, -, heq⟩ := extend_fails hl h hz
        refine iff_of_true ⟨_, _, _, heq, fun _ => ?_⟩ (.inl h0)
        have hnull : update heap.arrays list.files none = heap.arrays := by
          rw [hl.null h0]
          exact Function.update_eq_self_iff.mpr hl.arrays_null.symm
        rw [hnull]
        exact .refl heap list next
      · exact iff_of_false (not_atomic hl h hz (Nat.pos_of_ne_zero h0)) (by simp [h0, h, hz])
  · refine iff_of_true ?_ (.inr (.inl h))
    rcases @extend_early lim g heap list row h with ⟨-, heq⟩ | ⟨-, -, heq⟩ | ⟨-, heq⟩
    · exact ⟨_, _, _, heq, fun hneg => absurd hneg (by decide)⟩
    · exact ⟨_, _, _, heq, fun _ => .refl heap list heap.next⟩
    · exact ⟨_, _, _, heq, fun _ => .refl heap list heap.next⟩

def oneRowHeap : Heap where
  arrays := update (fun _ => none) 1 (some fun _ => 2)
  rows := update (fun _ => none) 2 (some fun _ => .zero)
  next := 3

def oneRow : Filelist := ⟨1, 1⟩

theorem laid_oneRow : Laid oneRowHeap oneRow where
  null := nofun
  next_pos := by decide
  arrays_null := rfl
  fresh p hp := by
    have hp : 3 ≤ p := hp
    have h1 : p ≠ 1 := by omega
    have h2 : p ≠ 2 := by omega
    exact ⟨by simp [oneRowHeap, h1], by simp [oneRowHeap, h2]⟩
  rows i hi := by
    have hi : i = 0 := Nat.lt_one_iff.mp hi
    rw [hi]
    rfl
  inj i hi j hj _ _ _ _ _ := (Nat.lt_one_iff.mp hi).trans (Nat.lt_one_iff.mp hj).symm

/-- The second row is had. -/
theorem extend_atomic_iff_oneRow :
    ExtendAtomic defaultLimits ⟨true, fun _ => true⟩ oneRowHeap oneRow 2 ↔
      (oneRow.rows = 0 ∨ ¬Reallocs defaultLimits ⟨true, fun _ => true⟩ oneRow 2 ∨
        RowsHad ⟨true, fun _ => true⟩ oneRow 2) :=
  extend_atomic_iff laid_oneRow

/-- The array for a second row is had, and the row is not. -/
theorem not_extend_atomic : ¬∀ (lim : Limits) (g : Growth) (heap : Heap) (list : Filelist) (row : Nat),
    Laid heap list → ExtendAtomic lim g heap list row := by
  intro h
  refine @not_atomic defaultLimits _ _ _ 2 laid_oneRow ?_ ?_ Nat.one_pos
    (h defaultLimits ⟨true, fun _ => false⟩ oneRowHeap oneRow 2 laid_oneRow)
  · decide
  · intro hz
    exact nomatch hz 1 (Nat.le_refl 1) (by decide)

end Gpmx.Vfs
