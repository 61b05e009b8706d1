import Gpmx.Infra.Runs
import Gpmx.Vfs.FileListGrow
import Mathlib

/-!
# VFS: descriptors are given out from below

The table stands for a function from descriptors to files: `fileAt`. Growing it does not change this
function, since a new row has the file that stands for every descriptor above the table.
-/

namespace Gpmx.Vfs

open Infra Function Option

variable {lim : Limits} {g : Growth} {heap heap' : Heap} {list list' : Filelist} {row : Nat}

def fileAt (lim : Limits) (heap : Heap) (list : Filelist) (fd : Nat) : File :=
  if fd / lim.perBlock < list.rows then
    match rowOf heap list (fd / lim.perBlock) with
    | some (_, row) => row (fd % lim.perBlock)
    | none => .zero
  else .zero

theorem fileAt_of_row {fd p : Nat} {files : Nat → File} (hrow : fd / lim.perBlock < list.rows)
    (h : rowOf heap list (fd / lim.perBlock) = some (p, files)) :
    fileAt lim heap list fd = files (fd % lim.perBlock) := by
  simp [fileAt, hrow, h]

theorem fileAt_above {fd : Nat} (h : list.rows ≤ fd / lim.perBlock) :
    fileAt lim heap list fd = .zero := if_neg (Nat.not_lt.mpr h)

/-- The table is in the heap, does not go beyond `OPEN_MAX`, and has the files it had. -/
structure Keeps (lim : Limits) (heap : Heap) (list : Filelist) (heap' : Heap) (list' : Filelist) : Prop where
  laid : Laid heap' list'
  limit : list'.rows * lim.perBlock ≤ lim.openMax
  files : ∀ fd, fileAt lim heap' list' fd = fileAt lim heap list fd

theorem Keeps.refl (hl : Laid heap list) (hmax : list.rows * lim.perBlock ≤ lim.openMax) :
    Keeps lim heap list heap list := ⟨hl, hmax, fun _ => rfl⟩

/-! ## Growing -/

/-- The heap after `n` rows more. -/
def Heap.grown (heap : Heap) (list : Filelist) (array : Nat → Nat) (n : Nat) : Heap where
  arrays := update (heap.moved list.files array).arrays heap.next
    (some (newRows array list.rows (heap.next + 1) n))
  rows := ((heap.moved list.files array).withRows n (heap.next + 1 + n)).rows
  next := heap.next + 1 + n

theorem rowOf_grown_old (hl : Laid heap list) {array : Nat → Nat}
    (harray : 0 < list.rows → heap.arrays list.files = some array) (n rows : Nat) {i : Nat}
    (hi : i < list.rows) :
    rowOf (heap.grown list array n) ⟨rows, heap.next⟩ i = rowOf heap list i := by
  obtain ⟨p, files, hr⟩ := hl.get_row hi
  obtain ⟨array', harray', rfl, hrow⟩ := rowOf_eq_some.mp hr
  cases (harray (Nat.zero_lt_of_lt hi)).symm.trans harray'
  have hlt : array i < heap.next := by
    by_contra hge
    rw [(hl.fresh _ (Nat.le_of_not_lt hge)).2] at hrow
    cases hrow
  rw [hr]
  refine rowOf_eq_some.mpr ⟨_, update_self .., ?_, ?_⟩
  · exact if_neg (by omega)
  · have hout : ¬(heap.next + 1 ≤ array i ∧ array i < heap.next + 1 + n) := by omega
    exact (if_neg hout).trans hrow

theorem rowOf_grown_new (heap : Heap) (list : Filelist) (array : Nat → Nat) (n rows : Nat) {i : Nat}
    (hi : list.rows ≤ i) (hlt : i < list.rows + n) :
    rowOf (heap.grown list array n) ⟨rows, heap.next⟩ i =
      some (heap.next + 1 + (i - list.rows), fun _ => .zero) := by
  refine rowOf_eq_some.mpr ⟨_, update_self .., ?_, ?_⟩
  · exact if_pos ⟨hi, hlt⟩
  · have hin : heap.next + 1 ≤ heap.next + 1 + (i - list.rows) ∧
        heap.next + 1 + (i - list.rows) < heap.next + 1 + n := by omega
    exact if_pos hin

/-- **A table that has grown is the same function.** -/
theorem keeps_grown (hl : Laid heap list) {array : Nat → Nat}
    (harray : 0 < list.rows → heap.arrays list.files = some array) {n : Nat} (hn : 0 < n)
    (hmax : (list.rows + n) * lim.perBlock ≤ lim.openMax) :
    Keeps lim heap list (heap.grown list array n) ⟨list.rows + n, heap.next⟩ := by
  have hold : ∀ i < list.rows, rowOf (heap.grown list array n) ⟨list.rows + n, heap.next⟩ i =
      rowOf heap list i := fun i hi => rowOf_grown_old hl harray n _ hi
  have hnew : ∀ i, list.rows ≤ i → i < list.rows + n →
      rowOf (heap.grown list array n) ⟨list.rows + n, heap.next⟩ i =
        some (heap.next + 1 + (i - list.rows), fun _ => .zero) :=
    fun i hi hlt => rowOf_grown_new heap list array n _ hi hlt
  -- the rows there were have smaller numbers
  have hbelow : ∀ i < list.rows, ∀ p files, rowOf heap list i = some (p, files) → p < heap.next := by
    intro i hi p files hr
    obtain ⟨-, -, -, hrow⟩ := rowOf_eq_some.mp hr
    by_contra hge
    rw [(hl.fresh _ (Nat.le_of_not_lt hge)).2] at hrow
    cases hrow
  refine ⟨⟨fun h0 => ?_, Nat.lt_of_lt_of_le (Nat.succ_pos _) (Nat.le_add_right _ _), ?_,
    fun p hp => ⟨?_, ?_⟩, fun i hi => ?_, fun i hi j hj p r r' hr hr' => ?_⟩, hmax, fun fd => ?_⟩
  · have h0 : list.rows + n = 0 := h0
    omega
  · have h0 : (0 : Nat) ≠ heap.next := Nat.ne_of_lt hl.next_pos
    show update (update (update heap.arrays list.files none) heap.next
      (some array)) heap.next _ 0 = none
    rw [update_of_ne h0, update_of_ne h0]
    by_cases hf : 0 = list.files
    · rw [← hf, update_self]
    · rw [update_of_ne hf]
      exact hl.arrays_null
  · have hp : heap.next + 1 + n ≤ p := hp
    have hne : p ≠ heap.next := by omega
    show update (update (update heap.arrays list.files none) heap.next
      (some array)) heap.next _ p = none
    rw [update_of_ne hne, update_of_ne hne]
    by_cases hf : p = list.files
    · rw [← hf, update_self]
    · rw [update_of_ne hf]
      exact (hl.fresh p (by omega)).1
  · have hp : heap.next + 1 + n ≤ p := hp
    have hout : ¬(heap.next + 1 ≤ p ∧ p < heap.next + 1 + n) := by omega
    exact (if_neg hout).trans (hl.fresh p (by omega)).2
  · have hi : i < list.rows + n := hi
    by_cases hlt : i < list.rows
    · rw [hold i hlt]
      exact hl.rows i hlt
    · rw [hnew i (Nat.le_of_not_lt hlt) hi]
      rfl
  · have hi : i < list.rows + n := hi
    have hj : j < list.rows + n := hj
    by_cases hil : i < list.rows
    · rw [hold i hil] at hr
      by_cases hjl : j < list.rows
      · rw [hold j hjl] at hr'
        exact hl.inj i hil j hjl p r r' hr hr'
      · rw [hnew j (Nat.le_of_not_lt hjl) hj] at hr'
        have hlt := hbelow i hil p r hr
        have heq := congrArg Prod.fst (some.inj hr')
        omega
    · rw [hnew i (Nat.le_of_not_lt hil) hi] at hr
      have heq := congrArg Prod.fst (some.inj hr)
      by_cases hjl : j < list.rows
      · rw [hold j hjl] at hr'
        have hlt := hbelow j hjl p r' hr'
        omega
      · rw [hnew j (Nat.le_of_not_lt hjl) hj] at hr'
        have heq' := congrArg Prod.fst (some.inj hr')
        omega
  · by_cases hlt : fd / lim.perBlock < list.rows
    · obtain ⟨p, files, hr⟩ := hl.get_row hlt
      rw [fileAt_of_row hlt hr]
      exact fileAt_of_row (Nat.lt_add_right n hlt) ((hold _ hlt).trans hr)
    · rw [fileAt_above (Nat.le_of_not_lt hlt)]
      by_cases hin : fd / lim.perBlock < list.rows + n
      · exact fileAt_of_row hin (hnew _ (Nat.le_of_not_lt hlt) hin)
      · exact fileAt_above (Nat.le_of_not_lt hin)

/-- The condition of `extend_atomic_iff`. -/
def Safe (lim : Limits) (g : Growth) (list : Filelist) (row : Nat) : Prop :=
  list.rows = 0 ∨ ¬Reallocs lim g list row ∨ RowsHad g list row

/-- **What `files_extend` does to descriptors.** -/
theorem extend_spec (hl : Laid heap list) (hmax : list.rows * lim.perBlock ≤ lim.openMax)
    (hfit : row * lim.perBlock < 2 ^ 32) : ∃ ret heap' list',
    filesExtend lim g heap list row = some (ret, heap', list') ∧
    (Safe lim g list row → Keeps lim heap list heap' list') ∧
    (0 ≤ ret → Keeps lim heap list heap' list' ∧ row ≤ list'.rows ∧
      (list.rows < row → list'.rows = row)) ∧
    (ret = -EMFILE → list.rows < row ∧ lim.openMax < row * lim.perBlock) := by
  by_cases h : Reallocs lim g list row
  · have hrows : row * lim.perBlock ≤ lim.openMax := by
      have hle := h.2.1
      rwa [Nat.mod_eq_of_lt hfit] at hle
    by_cases hz : RowsHad g list row
    · obtain ⟨array, harray, heq⟩ := extend_grows hl h hz
      have hadd : list.rows + (row - list.rows) = row := Nat.add_sub_cancel' (Nat.le_of_lt h.1)
      have hkeeps := @keeps_grown lim heap list hl array harray (row - list.rows)
        (Nat.sub_pos_of_lt h.1) (by rw [hadd]; exact hrows)
      have hbyte : row % 2 ^ 8 = row := by
        refine Nat.mod_eq_of_lt (Nat.lt_of_le_of_lt ?_ lim.rows_lt)
        exact (Nat.le_div_iff_mul_le lim.perBlock_pos).mpr hrows
      rw [hadd] at hkeeps
      rw [hbyte] at heq
      exact ⟨_, _, _, heq, fun _ => hkeeps, fun _ => ⟨hkeeps, Nat.le_refl row, fun _ => rfl⟩, nofun⟩
    · obtain ⟨next, hle, heq⟩ := extend_fails hl h hz
      refine ⟨_, _, _, heq, fun hs => ?_, fun hneg => absurd hneg (by decide),
        fun he => absurd he (by decide)⟩
      have h0 : list.rows = 0 := by
        rcases hs with h0 | hs | hs
        · exact h0
        · exact absurd h hs
        · exact absurd hs hz
      have hnull : update heap.arrays list.files none = heap.arrays := by
        rw [hl.null h0]
        exact Function.update_eq_self_iff.mpr hl.arrays_null.symm
      rw [hnull]
      have hlaid : Laid { heap with next } list :=
        ⟨hl.null, Nat.lt_of_lt_of_le hl.next_pos hle, hl.arrays_null,
          fun p hp => hl.fresh p (Nat.le_trans hle hp), hl.rows, hl.inj⟩
      exact ⟨hlaid, hmax, fun _ => rfl⟩
  · have hrefl := Keeps.refl hl hmax
    rcases @extend_early lim g heap list row h with ⟨hle, heq⟩ | ⟨hlt, hgt, heq⟩ | ⟨hlt, heq⟩
    · exact ⟨_, _, _, heq, fun _ => hrefl, fun _ => ⟨hrefl, hle, fun hlt => absurd hle (by omega)⟩,
        nofun⟩
    · rw [Nat.mod_eq_of_lt hfit] at hgt
      exact ⟨_, _, _, heq, fun _ => hrefl, fun hneg => absurd hneg (by decide), fun _ => ⟨hlt, hgt⟩⟩
    · exact ⟨_, _, _, heq, fun _ => hrefl, fun hneg => absurd hneg (by decide),
        fun he => absurd he (by decide)⟩

/-! ## One file -/

/-- **A file is written**: the others stay. -/
theorem setFile_spec (hl : Laid heap list) {i j : Nat} (hi : i < list.rows) (hj : j < lim.perBlock)
    (file : File) : ∃ heap', setFile heap list i j file = some heap' ∧ Laid heap' list ∧
      ∀ fd, fileAt lim heap' list fd =
        if fd = i * lim.perBlock + j then file else fileAt lim heap list fd := by
  obtain ⟨p, files, hr⟩ := hl.get_row hi
  obtain ⟨array, harray, hp, hrow⟩ := rowOf_eq_some.mp hr
  obtain ⟨heap', hheap⟩ : ∃ heap' : Heap, heap' = { heap with
    rows := update heap.rows p (some (update files j file)) } := ⟨_, rfl⟩
  have hself : rowOf heap' list i = some (p, update files j file) :=
    rowOf_eq_some.mpr ⟨array, by rw [hheap]; exact harray, hp, by rw [hheap]; exact update_self ..⟩
  have hother : ∀ k < list.rows, k ≠ i → rowOf heap' list k = rowOf heap list k := by
    intro k hk hne
    obtain ⟨q, files', hr'⟩ := hl.get_row hk
    obtain ⟨array', harray', hq, hrow'⟩ := rowOf_eq_some.mp hr'
    have hqp : q ≠ p := by
      rintro rfl
      exact hne (hl.inj k hk i hi q files' files hr' hr)
    rw [hr']
    refine rowOf_eq_some.mpr ⟨array', by rw [hheap]; exact harray', hq, ?_⟩
    rw [hheap]
    exact (update_of_ne hqp _ _).trans hrow'
  refine ⟨heap', by rw [hheap]; simp [setFile, hr], ⟨hl.null, ?_, ?_, fun q hq => ?_, fun k hk => ?_,
    fun k hk k' hk' q r r' hkr hkr' => ?_⟩, fun fd => ?_⟩
  · rw [hheap]
    exact hl.next_pos
  · rw [hheap]
    exact hl.arrays_null
  · rw [hheap] at hq ⊢
    have hqp : q ≠ p := by
      rintro rfl
      exact nomatch hrow.symm.trans (hl.fresh q hq).2
    exact ⟨(hl.fresh q hq).1, (update_of_ne hqp _ _).trans (hl.fresh q hq).2⟩
  · by_cases hki : k = i
    · rw [hki, hself]
      rfl
    · rw [hother k hk hki]
      exact hl.rows k hk
  · have hsame : ∀ k < list.rows, ∀ r, rowOf heap' list k = some (q, r) →
        ∃ r, rowOf heap list k = some (q, r) := by
      intro k hk r hkr
      by_cases hki : k = i
      · rw [hki, hself] at hkr
        cases hkr
        exact ⟨files, hki ▸ hr⟩
      · rw [hother k hk hki] at hkr
        exact ⟨r, hkr⟩
    obtain ⟨r₁, h₁⟩ := hsame k hk r hkr
    obtain ⟨r₂, h₂⟩ := hsame k' hk' r' hkr'
    exact hl.inj k hk k' hk' q r₁ r₂ h₁ h₂
  · have hfd : fd = i * lim.perBlock + j ↔ fd / lim.perBlock = i ∧ fd % lim.perBlock = j := by
      constructor
      · rintro rfl
        rw [Nat.mul_comm, Nat.mul_add_div lim.perBlock_pos, Nat.mul_add_mod, Nat.div_eq_of_lt hj,
          Nat.mod_eq_of_lt hj]
        exact ⟨rfl, rfl⟩
      · rintro ⟨rfl, rfl⟩
        exact (Nat.div_add_mod' fd lim.perBlock).symm
    by_cases hk : fd / lim.perBlock < list.rows
    · by_cases hki : fd / lim.perBlock = i
      · have hold : rowOf heap list (fd / lim.perBlock) = some (p, files) := hki ▸ hr
        rw [fileAt_of_row hk (hki ▸ hself), fileAt_of_row hk hold]
        by_cases hkj : fd % lim.perBlock = j
        · rw [if_pos (hfd.mpr ⟨hki, hkj⟩), hkj, update_self]
        · rw [if_neg fun h => hkj (hfd.mp h).2, update_of_ne hkj]
      · obtain ⟨q, files', hr'⟩ := hl.get_row hk
        rw [if_neg fun h => hki (hfd.mp h).1, fileAt_of_row hk hr',
          fileAt_of_row hk ((hother _ hk hki).trans hr')]
    · rw [if_neg fun h => hk ((hfd.mp h).1 ▸ hi), fileAt_above (Nat.le_of_not_lt hk),
        fileAt_above (Nat.le_of_not_lt hk)]

/-! ## The scan -/

theorem scanRow_spec (files : Nat → File) (j n : Nat) : match scanRow files j n with
    | some k => j ≤ k ∧ k < j + n ∧ (files k).inode = 0 ∧ ∀ l, j ≤ l → l < k → (files l).inode ≠ 0
    | none => ∀ l, j ≤ l → l < j + n → (files l).inode ≠ 0 := by
  induction n generalizing j with
  | zero =>
    intro l hl hlt
    omega
  | succ n ih =>
    unfold scanRow
    by_cases h0 : (files j).inode = 0
    · rw [if_pos h0]
      exact ⟨Nat.le_refl j, by omega, h0, fun l hl hlt => by omega⟩
    · rw [if_neg h0]
      have hrest := ih (j + 1)
      have hfirst : ∀ l, j ≤ l → ¬j + 1 ≤ l → (files l).inode ≠ 0 := by
        intro l hl hlt
        have hlj : l = j := by omega
        rwa [hlj]
      cases hk : scanRow files (j + 1) n with
      | none =>
        rw [hk] at hrest
        intro l hl hlt
        by_cases hjl : j + 1 ≤ l
        · exact hrest l hjl (by omega)
        · exact hfirst l hl hjl
      | some k =>
        rw [hk] at hrest
        refine ⟨by omega, by omega, hrest.2.2.1, fun l hl hlt => ?_⟩
        by_cases hjl : j + 1 ≤ l
        · exact hrest.2.2.2 l hjl hlt
        · exact hfirst l hl hjl

def InUse (lim : Limits) (heap : Heap) (list : Filelist) (fd : Nat) : Prop :=
  (fileAt lim heap list fd).inode ≠ 0

theorem fileAt_row {i j p : Nat} {files : Nat → File} (hi : i < list.rows) (hj : j < lim.perBlock)
    (hr : rowOf heap list i = some (p, files)) :
    fileAt lim heap list (i * lim.perBlock + j) = files j := by
  have hdiv : (i * lim.perBlock + j) / lim.perBlock = i := by
    rw [Nat.mul_comm, Nat.mul_add_div lim.perBlock_pos, Nat.div_eq_of_lt hj, Nat.add_zero]
  have hmod : (i * lim.perBlock + j) % lim.perBlock = j := by
    rw [Nat.mul_comm, Nat.mul_add_mod, Nat.mod_eq_of_lt hj]
  rw [fileAt_of_row (p := p) (hdiv.symm ▸ hi) (hdiv.symm ▸ hr), hmod]

theorem scanRow_inUse {i j p : Nat} {files : Nat → File} (hi : i < list.rows) (hj : j < lim.perBlock)
    (hr : rowOf heap list i = some (p, files)) : match scanRow files j (lim.perBlock - j) with
    | some k => k < lim.perBlock ∧ j ≤ k ∧ ¬InUse lim heap list (i * lim.perBlock + k) ∧
        ∀ fd, i * lim.perBlock + j ≤ fd → fd < i * lim.perBlock + k → InUse lim heap list fd
    | none => ∀ fd, i * lim.perBlock + j ≤ fd → fd < (i + 1) * lim.perBlock →
        InUse lim heap list fd := by
  have huse : ∀ l < lim.perBlock, InUse lim heap list (i * lim.perBlock + l) ↔ (files l).inode ≠ 0 := by
    intro l hl
    unfold InUse
    rw [fileAt_row hi hl hr]
  have hfd : ∀ fd l, i * lim.perBlock ≤ fd → fd = i * lim.perBlock + l → l < lim.perBlock →
      (files l).inode ≠ 0 → InUse lim heap list fd := by
    rintro fd l - rfl hl h0
    exact (huse l hl).mpr h0
  have hscan := scanRow_spec files j (lim.perBlock - j)
  cases hk : scanRow files j (lim.perBlock - j) with
  | some k =>
    rw [hk] at hscan
    obtain ⟨hle, hlt, h0, hbefore⟩ := hscan
    refine ⟨by omega, hle, fun hin => (huse k (by omega)).mp hin h0, fun fd hfd₁ hfd₂ => ?_⟩
    exact hfd fd (fd - i * lim.perBlock) (by omega) (by omega) (by omega)
      (hbefore _ (by omega) (by omega))
  | none =>
    rw [hk] at hscan
    intro fd hfd₁ hfd₂
    rw [Nat.succ_mul] at hfd₂
    exact hfd fd (fd - i * lim.perBlock) (by omega) (by omega) (by omega)
      (hscan _ (by omega) (by omega))

/-- **The scan finds the first free descriptor** from `(i, j)` to the end of the rows it is over. -/
theorem scanRows_spec (hl : Laid heap list) {i j n : Nat} (hn : i + n < list.rows)
    (hj : j < lim.perBlock) : ∃ r, scanRows lim heap list i j n = some r ∧ match r with
    | some (i', j') => i' < list.rows ∧ j' < lim.perBlock ∧
        i * lim.perBlock + j ≤ i' * lim.perBlock + j' ∧
        ¬InUse lim heap list (i' * lim.perBlock + j') ∧
        ∀ fd, i * lim.perBlock + j ≤ fd → fd < i' * lim.perBlock + j' → InUse lim heap list fd
    | none => ∀ fd, i * lim.perBlock + j ≤ fd → fd < (i + n + 1) * lim.perBlock →
        InUse lim heap list fd := by
  induction n using Nat.strongRecOn generalizing i j with
  | ind n ih =>
    have hi : i < list.rows := by omega
    obtain ⟨p, files, hr⟩ := hl.get_row hi
    have hrow := scanRow_inUse hi hj hr
    cases hk : scanRow files j (lim.perBlock - j) with
    | some k =>
      rw [hk] at hrow
      refine ⟨some (i, k), by cases n <;> simp [scanRows, hr, hk], ?_⟩
      exact ⟨hi, hrow.1, Nat.add_le_add_left hrow.2.1 _, hrow.2.2⟩
    | none =>
      rw [hk] at hrow
      cases n with
      | zero => exact ⟨none, by simp [scanRows, hr, hk], hrow⟩
      | succ n =>
        obtain ⟨r, heq, hrest⟩ := @ih n (Nat.lt_succ_self n) (i + 1) 0 (by omega) lim.perBlock_pos
        refine ⟨r, by simp [scanRows, hr, hk, heq], ?_⟩
        have hsplit : ∀ fd, i * lim.perBlock + j ≤ fd → ¬(i + 1) * lim.perBlock + 0 ≤ fd →
            InUse lim heap list fd := fun fd hle hlt => hrow fd hle (by omega)
        have hnext : (i + 1) * lim.perBlock = i * lim.perBlock + lim.perBlock := Nat.succ_mul ..
        cases r with
        | some r =>
          obtain ⟨hi', hj', hle, hfree, hbefore⟩ := hrest
          refine ⟨hi', hj', by omega, hfree, fun fd hfd₁ hfd₂ => ?_⟩
          by_cases hin : (i + 1) * lim.perBlock + 0 ≤ fd
          · exact hbefore fd hin hfd₂
          · exact hsplit fd hfd₁ hin
        | none =>
          intro fd hfd₁ hfd₂
          have hend : i + 1 + n + 1 = i + (n + 1) + 1 := by omega
          rw [hend] at hrest
          by_cases hin : (i + 1) * lim.perBlock + 0 ≤ fd
          · exact hrest fd hin hfd₂
          · exact hsplit fd hfd₁ hin

/-! ## `files_allocate` -/

/-- What a call of `files_allocate` with a result is to have done. -/
structure Allocated (lim : Limits) (heap : Heap) (list : Filelist) (file : File) (minfd : Nat) (ret : Int)
    (heap' : Heap) (list' : Filelist) : Prop where
  /-- the smallest descriptor that is not in use, and no other file has changed -/
  found : 0 ≤ ret → ∃ fd : Nat, ret = fd ∧
    IsLeast {fd | minfd ≤ fd ∧ ¬InUse lim heap list fd} fd ∧
    ∀ n, fileAt lim heap' list' n = if n = fd then file else fileAt lim heap list n
  /-- every descriptor up to the last whole row is in use -/
  full : ret = -EMFILE → ∀ fd, minfd ≤ fd → fd < lim.openMax / lim.perBlock * lim.perBlock →
    InUse lim heap list fd

variable {file : File} {minfd : Nat}

theorem Allocated.of_files {heap₁ : Heap} {list₁ : Filelist} {ret : Int}
    (h : Allocated lim heap₁ list₁ file minfd ret heap' list')
    (hsame : ∀ fd, fileAt lim heap₁ list₁ fd = fileAt lim heap list fd) :
    Allocated lim heap list file minfd ret heap' list' := by
  have huse : ∀ fd, InUse lim heap₁ list₁ fd ↔ InUse lim heap list fd := by
    intro fd
    unfold InUse
    rw [hsame]
  refine ⟨fun hret => ?_, fun hret fd hle hlt => (huse fd).mp (h.full hret fd hle hlt)⟩
  obtain ⟨fd, hfd, hleast, hfiles⟩ := h.found hret
  refine ⟨fd, hfd, ?_, fun n => by rw [hfiles, hsame]⟩
  simpa only [huse] using hleast

theorem not_allocated {ret : Int} (hneg : ret < 0) (hfull : ret = -EMFILE → lim.openMax / lim.perBlock *
    lim.perBlock ≤ minfd ∨ ∀ fd, minfd ≤ fd → fd < lim.openMax / lim.perBlock * lim.perBlock →
      InUse lim heap list fd) : Allocated lim heap list file minfd ret heap' list' where
  found hret := absurd hret (by omega)
  full hret fd hle hlt := by
    rcases hfull hret with hend | huse
    · omega
    · exact huse fd hle hlt

theorem lastRow_le (h : lim.openMax < (row + 1) * lim.perBlock) :
    lim.openMax / lim.perBlock * lim.perBlock ≤ row * lim.perBlock := by
  refine Nat.mul_le_mul_right _ (Nat.le_of_lt_succ ?_)
  exact (Nat.div_lt_iff_lt_mul lim.perBlock_pos).mpr h

theorem fits (hmax : list.rows * lim.perBlock ≤ lim.openMax) :
    (list.rows + 1) * lim.perBlock < 2 ^ 32 := by
  have hblock := lim.perBlock_lt
  have hopen := lim.openMax_lt
  rw [Nat.succ_mul]
  omega

theorem findFile_spec (hl : Laid heap list) (hmax : list.rows * lim.perBlock ≤ lim.openMax)
    (hi : minfd / lim.perBlock < list.rows) : ∃ ret heap' list',
    findFile lim g heap list file minfd = some (ret, heap', list') ∧
    Allocated lim heap list file minfd ret heap' list' ∧
    (Safe lim g list (list.rows + 1) ∨ ¬InUse lim heap list minfd →
      Laid heap' list' ∧ list'.rows * lim.perBlock ≤ lim.openMax) := by
  have hminfd : minfd / lim.perBlock * lim.perBlock + minfd % lim.perBlock = minfd :=
    Nat.div_add_mod' minfd lim.perBlock
  obtain ⟨r, hscan, hr⟩ := @scanRows_spec lim heap list hl (minfd / lim.perBlock)
    (minfd % lim.perBlock) (list.rows - 1 - minfd / lim.perBlock) (by omega)
    (Nat.mod_lt _ lim.perBlock_pos)
  rw [hminfd] at hr
  unfold findFile
  dsimp only
  rw [hscan]
  cases r with
  | some r =>
    obtain ⟨hi', hj', hle, hfree, hbefore⟩ := hr
    obtain ⟨heap', hset, hl', hfiles⟩ := setFile_spec hl hi' hj' file
    refine ⟨_, heap', list, by simp [hset], ⟨fun _ => ⟨_, rfl, ⟨⟨hle, hfree⟩, ?_⟩, hfiles⟩, ?_⟩,
      fun _ => ⟨hl', hmax⟩⟩
    · rintro fd ⟨hfd, hfree'⟩
      by_contra hlt
      exact hfree' (hbefore fd hfd (by omega))
    · intro hret
      have hneg : (0 : Int) ≤ -EMFILE := hret ▸ Int.natCast_nonneg _
      cases hneg
  | none =>
    have hend : minfd / lim.perBlock + (list.rows - 1 - minfd / lim.perBlock) + 1 = list.rows := by omega
    rw [hend] at hr
    obtain ⟨ret, heap', list', hext, hsafe, hok, hfull⟩ :=
      @extend_spec lim g heap list (list.rows + 1) hl hmax (fits hmax)
    have hlt : minfd < list.rows * lim.perBlock := (Nat.div_lt_iff_lt_mul lim.perBlock_pos).mp hi
    have hused : InUse lim heap list minfd := hr minfd (Nat.le_refl _) hlt
    by_cases hret : 0 ≤ ret
    · obtain ⟨hkeeps, -, hrows⟩ := hok hret
      have hrows := hrows (Nat.lt_succ_self _)
      obtain ⟨heap'', hset, hl'', hfiles⟩ :=
        @setFile_spec lim heap' list' hkeeps.laid list.rows 0 (by omega) lim.perBlock_pos file
      refine ⟨(list.rows * lim.perBlock : Nat), heap'', list', by simp [hext, hret, hset],
        ⟨fun _ => ⟨_, rfl, ⟨⟨?_, ?_⟩, ?_⟩, ?_⟩, ?_⟩, fun _ => ⟨hl'', hkeeps.limit⟩⟩
      · exact Nat.le_of_lt hlt
      · unfold InUse
        rw [fileAt_above (Nat.le_of_eq (Nat.mul_div_cancel _ lim.perBlock_pos).symm)]
        exact fun h => h rfl
      · rintro fd ⟨hfd, hfree⟩
        by_contra hlt
        exact hfree (hr fd hfd (by omega))
      · intro n
        rw [hfiles, hkeeps.files, Nat.add_zero]
      · intro hret
        have hneg : (0 : Int) ≤ -EMFILE := hret ▸ Int.natCast_nonneg _
        cases hneg
    · have hend : ¬ret ≥ 0 := hret
      refine ⟨ret, heap', list', by simp only [bind_eq_bind, bind_some, hext, if_neg hend]; rfl,
        not_allocated (by omega) fun he => ?_, ?_⟩
      · obtain ⟨-, hgt⟩ := hfull he
        exact .inr fun fd hle hlt => hr fd hle (Nat.lt_of_lt_of_le hlt (lastRow_le hgt))
      · rintro (hs | hfree)
        · exact ⟨(hsafe hs).laid, (hsafe hs).limit⟩
        · exact absurd hused hfree

def rowsFor (lim : Limits) (list : Filelist) (fd : Nat) : Nat :=
  max (fd / lim.perBlock + 1) (list.rows + 1)

theorem fits_fd {fd : Nat} (hfd : fd < 2 ^ 31) : (fd / lim.perBlock + 1) * lim.perBlock < 2 ^ 32 := by
  have hblock := lim.perBlock_lt
  have hle := Nat.div_mul_le_self fd lim.perBlock
  rw [Nat.succ_mul]
  omega

/-- **A call of `files_allocate`.** -/
theorem filesAllocate_spec (hl : Laid heap list) (hmax : list.rows * lim.perBlock ≤ lim.openMax)
    (sem : Bool) (hminfd : minfd < 2 ^ 31) : ∃ ret heap' list',
    filesAllocate lim sem g heap list file minfd = some (ret, heap', list') ∧
    Allocated lim heap list file minfd ret heap' list' ∧
    (Safe lim g list (rowsFor lim list minfd) →
      Laid heap' list' ∧ list'.rows * lim.perBlock ≤ lim.openMax) := by
  unfold filesAllocate
  cases sem with
  | false =>
    exact ⟨-1, heap, list, rfl, not_allocated (by decide) fun h => absurd h (by decide), fun _ => ⟨hl, hmax⟩⟩
  | true =>
    rw [if_pos rfl]
    by_cases hi : minfd / lim.perBlock ≥ list.rows
    · rw [if_pos hi]
      have hrow : rowsFor lim list minfd = minfd / lim.perBlock + 1 := Nat.max_eq_left (by omega)
      rw [hrow]
      obtain ⟨ret, heap₁, list₁, hext, hsafe, hok, hfull⟩ :=
        @extend_spec lim g heap list (minfd / lim.perBlock + 1) hl hmax (fits_fd hminfd)
      rw [hext]
      by_cases hret : ret < 0
      · refine ⟨ret, heap₁, list₁, by simp [hret], not_allocated hret fun he => ?_, fun hs => ?_⟩
        · obtain ⟨-, hgt⟩ := hfull he
          exact .inl (Nat.le_trans (lastRow_le hgt) (Nat.div_mul_le_self minfd lim.perBlock))
        · exact ⟨(hsafe hs).laid, (hsafe hs).limit⟩
      · obtain ⟨hkeeps, -, hrows⟩ := hok (by omega)
        have hrows := hrows (Nat.lt_succ_of_le hi)
        obtain ⟨ret', heap', list', hfind, hspec, hlaid⟩ :=
          @findFile_spec lim g heap₁ list₁ file minfd hkeeps.laid hkeeps.limit (by omega)
        refine ⟨ret', heap', list', by simp [hret, hfind], hspec.of_files hkeeps.files, fun _ => ?_⟩
        -- the row of `minfd` is new
        refine hlaid (.inr fun huse => huse ?_)
        rw [hkeeps.files, fileAt_above hi]
        rfl
    · rw [if_neg hi]
      have hrow : rowsFor lim list minfd = list.rows + 1 := Nat.max_eq_right (by omega)
      rw [hrow]
      obtain ⟨ret, heap', list', hfind, hspec, hlaid⟩ :=
        @findFile_spec lim g heap list file minfd hl hmax (by omega)
      exact ⟨ret, heap', list', hfind, hspec, fun hs => hlaid (.inl hs)⟩

/-! ## `nx_dup2` and `nx_close` -/

theorem dupFile_spec (hl : Laid heap list) {dup : Dup} {fd₁ fd₂ : Nat}
    (h₁ : fd₁ / lim.perBlock < list.rows) (h₂ : fd₂ / lim.perBlock < list.rows) : ∃ ret heap',
    dupFile lim dup heap list fd₁ fd₂ = some (ret, heap', list) ∧ Laid heap' list := by
  obtain ⟨p, files, hr⟩ := hl.get_row h₁
  have hdup : ∃ ret heap', fileDup2 dup heap list (fd₁ / lim.perBlock) (fd₁ % lim.perBlock)
      (fd₂ / lim.perBlock) (fd₂ % lim.perBlock) = some (ret, heap') ∧ Laid heap' list := by
    unfold fileDup2
    simp only [hr, bind_eq_bind, bind_some]
    split_ifs with hnone hsame
    · exact ⟨_, heap, rfl, hl⟩
    · exact ⟨_, heap, rfl, hl⟩
    · cases dup with
      | error ret => exact ⟨ret, heap, rfl, hl⟩
      | ok priv =>
        obtain ⟨heap', hset, hl', -⟩ := setFile_spec hl h₂ (Nat.mod_lt fd₂ lim.perBlock_pos)
          { files (fd₁ % lim.perBlock) with priv }
        exact ⟨0, heap', by simp [hset], hl'⟩
  obtain ⟨ret, heap', heq, hl'⟩ := hdup
  exact ⟨_, heap', by simp only [dupFile, heq]; rfl, hl'⟩

theorem row_of_lt {fd : Int} (h0 : 0 ≤ fd) (h : fd < lim.perBlock * list.rows) :
    fd.toNat / lim.perBlock < list.rows := by
  have hlt : fd.toNat < lim.perBlock * list.rows := by
    have hcast : (fd.toNat : Int) < (lim.perBlock * list.rows : Nat) := by
      rw [Int.toNat_of_nonneg h0]
      exact_mod_cast h
    exact_mod_cast hcast
  exact Nat.div_lt_of_lt_mul hlt

theorem nxDup2_spec (hl : Laid heap list) (hmax : list.rows * lim.perBlock ≤ lim.openMax) (sem : Bool)
    (dup : Dup) (fd₁ : Int) {fd₂ : Int} (hfd : fd₂ < 2 ^ 31) : ∃ ret heap' list',
    nxDup2 lim sem g dup heap list fd₁ fd₂ = some (ret, heap', list') ∧
    (Safe lim g list (fd₂.toNat / lim.perBlock + 1) →
      Laid heap' list' ∧ list'.rows * lim.perBlock ≤ lim.openMax) := by
  unfold nxDup2
  by_cases hbad : fd₁ < 0 ∨ fd₁ ≥ lim.perBlock * list.rows ∨ fd₂ < 0
  · rw [if_pos hbad]
    exact ⟨_, heap, list, rfl, fun _ => ⟨hl, hmax⟩⟩
  rw [if_neg hbad]
  have h₁ : fd₁.toNat / lim.perBlock < list.rows := row_of_lt (by omega) (by omega)
  cases sem with
  | false => exact ⟨_, heap, list, rfl, fun _ => ⟨hl, hmax⟩⟩
  | true =>
    rw [if_pos rfl]
    by_cases hgrow : fd₂ ≥ lim.perBlock * list.rows
    · rw [if_pos hgrow]
      obtain ⟨ret, heap₁, list₁, hext, hsafe, hok, -⟩ :=
        @extend_spec lim g heap list (fd₂.toNat / lim.perBlock + 1) hl hmax (fits_fd (by omega))
      rw [hext]
      by_cases hret : ret < 0
      · exact ⟨ret, heap₁, list₁, by simp [hret], fun hs => ⟨(hsafe hs).laid, (hsafe hs).limit⟩⟩
      · obtain ⟨hkeeps, hle, hrows⟩ := hok (by omega)
        have hlt : list.rows < fd₂.toNat / lim.perBlock + 1 := by
          refine Nat.lt_succ_of_le ((Nat.le_div_iff_mul_le lim.perBlock_pos).mpr ?_)
          have hcast : ((list.rows * lim.perBlock : Nat) : Int) ≤ fd₂ := by
            rw [Nat.mul_comm]
            exact_mod_cast hgrow
          omega
        have hrows := hrows hlt
        obtain ⟨ret', heap', hdup, hl'⟩ :=
          @dupFile_spec lim heap₁ list₁ hkeeps.laid dup fd₁.toNat fd₂.toNat (by omega) (by omega)
        exact ⟨ret', heap', list₁, by simp [hret, hdup], fun _ => ⟨hl', hkeeps.limit⟩⟩
    · rw [if_neg hgrow]
      have h₂ : fd₂.toNat / lim.perBlock < list.rows := row_of_lt (by omega) (by omega)
      obtain ⟨ret, heap', hdup, hl'⟩ := @dupFile_spec _ _ _ hl dup _ _ h₁ h₂
      exact ⟨ret, heap', list, hdup, fun _ => ⟨hl', hmax⟩⟩

theorem nxClose_spec (hl : Laid heap list) (sem : Bool) (ret fd : Int) : ∃ ret' heap',
    nxClose lim sem ret heap list fd = some (ret', heap', list) ∧ Laid heap' list := by
  unfold nxClose
  cases sem with
  | false => exact ⟨_, heap, rfl, hl⟩
  | true =>
    rw [if_pos rfl]
    by_cases hbad : fd < 0 ∨ fd ≥ list.rows * lim.perBlock
    · rw [if_pos hbad]
      exact ⟨_, heap, rfl, hl⟩
    · rw [if_neg hbad]
      have hcomm : (lim.perBlock : Int) * list.rows = list.rows * lim.perBlock := Int.mul_comm ..
      have hrow : fd.toNat / lim.perBlock < list.rows := row_of_lt (by omega) (by omega)
      obtain ⟨p, files, hr⟩ := hl.get_row hrow
      obtain ⟨heap', hset, hl', -⟩ := setFile_spec hl hrow (Nat.mod_lt fd.toNat lim.perBlock_pos) .zero
      simp only [hr, hset, bind_eq_bind, bind_some]
      split_ifs
      · exact ⟨_, heap, rfl, hl⟩
      · exact ⟨_, heap', rfl, hl'⟩

/-! ## Runs -/

inductive Op where
  | allocate (sem : Bool) (g : Growth) (file : File) (minfd : Nat)
  | dup2 (sem : Bool) (g : Growth) (dup : Dup) (fd₁ fd₂ : Int)
  | close (sem : Bool) (ret fd : Int)

/-- A call, in a task with this list of files; descriptors are of type `int`. -/
def Op.exec (lim : Limits) (s : Heap × Filelist) : Op → Option (Heap × Filelist)
  | .allocate sem g file minfd =>
    if minfd < 2 ^ 31 then (filesAllocate lim sem g s.1 s.2 file minfd).map (·.2) else none
  | .dup2 sem g dup fd₁ fd₂ =>
    if fd₂ < 2 ^ 31 then (nxDup2 lim sem g dup s.1 s.2 fd₁ fd₂).map (·.2) else none
  | .close sem ret fd => (nxClose lim sem ret s.1 s.2 fd).map (·.2)

/-- **No row is missing** when a list that has rows gets another array. -/
def Op.GrowsSafely (lim : Limits) (s : Heap × Filelist) : Op → Prop
  | .allocate _ g _ minfd => Safe lim g s.2 (rowsFor lim s.2 minfd)
  | .dup2 _ g _ _ fd₂ => Safe lim g s.2 (fd₂.toNat / lim.perBlock + 1)
  | .close _ _ _ => True

def Sound (lim : Limits) (s : Heap × Filelist) : Prop :=
  Laid s.1 s.2 ∧ s.2.rows * lim.perBlock ≤ lim.openMax

theorem sound_empty (lim : Limits) : Sound lim (Heap.empty, Filelist.empty) := by
  refine ⟨⟨fun _ => rfl, by decide, rfl, fun _ _ => ⟨rfl, rfl⟩, nofun, nofun⟩, ?_⟩
  show 0 * lim.perBlock ≤ lim.openMax
  rw [Nat.zero_mul]
  exact Nat.zero_le _

theorem exec_sound {s s' : Heap × Filelist} {op : Op} (h : Sound lim s) (hop : op.GrowsSafely lim s)
    (hs : op.exec lim s = some s') : Sound lim s' := by
  obtain ⟨hl, hmax⟩ := h
  cases op with
  | allocate sem g file minfd =>
    obtain ⟨hminfd, hs⟩ := ite_none_right_eq_some.mp hs
    obtain ⟨ret, heap', list', heq, -, hlaid⟩ := @filesAllocate_spec lim g _ _ file _ hl hmax sem hminfd
    rw [heq] at hs
    cases hs
    exact hlaid hop
  | dup2 sem g dup fd₁ fd₂ =>
    obtain ⟨hfd, hs⟩ := ite_none_right_eq_some.mp hs
    obtain ⟨ret, heap', list', heq, hlaid⟩ := @nxDup2_spec lim g _ _ hl hmax sem dup fd₁ _ hfd
    rw [heq] at hs
    cases hs
    exact hlaid hop
  | close sem ret fd =>
    obtain ⟨ret', heap', heq, hl'⟩ := @nxClose_spec lim _ _ hl sem ret fd
    have hs : (nxClose lim sem ret s.1 s.2 fd).map (·.2) = some s' := hs
    rw [heq] at hs
    cases hs
    exact ⟨hl', hmax⟩

/-- **Descriptors are given out from below** after every run in which no row is missing. -/
theorem files_allocate_least (lim : Limits) {heap : Heap} {list : Filelist}
    (h : Reaches (fun s op => Op.exec lim s op) (fun s op => Op.GrowsSafely lim s op)
      (Heap.empty, Filelist.empty) (heap, list))
    (sem : Bool) (g : Growth) (file : File) {minfd : Nat} (hminfd : minfd < 2 ^ 31) :
    ∃ ret heap' list', filesAllocate lim sem g heap list file minfd = some (ret, heap', list') ∧
      Allocated lim heap list file minfd ret heap' list' := by
  have hsound : Sound lim (heap, list) :=
    h.invariant (sound_empty lim) fun _ _ _ hs hop he => exec_sound hs hop he
  obtain ⟨ret, heap', list', heq, hspec, -⟩ :=
    @filesAllocate_spec lim g _ _ file _ hsound.1 hsound.2 sem hminfd
  exact ⟨ret, heap', list', heq, hspec⟩

def plenty : Growth := ⟨true, fun _ => true⟩

def someFile : File := ⟨1, 0, 5, 7⟩

def reuse : List Op :=
  [.allocate true plenty someFile 0, .allocate true plenty someFile 0, .close true 0 0]

/-- The descriptor that was closed is given out again. -/
theorem files_allocate_least_reuse : ∃ heap list ret heap' list',
    filesAllocate defaultLimits true plenty heap list someFile 0 = some (ret, heap', list') ∧ ret = 0 ∧
      Allocated defaultLimits heap list someFile 0 ret heap' list' := by
  obtain ⟨⟨heap, list⟩, hs⟩ : ∃ s, reuse.foldlM (Op.exec defaultLimits) (Heap.empty, Filelist.empty) =
      some s := isSome_iff_exists.mp (by decide)
  have hret : ((reuse.foldlM (Op.exec defaultLimits) (Heap.empty, Filelist.empty)).bind fun s =>
      (filesAllocate defaultLimits true plenty s.1 s.2 someFile 0).map (·.1)) = some 0 := by decide
  have hsafe : ∀ s, ∀ op ∈ reuse, Op.GrowsSafely defaultLimits s op := by
    intro s op hop
    simp only [reuse, List.mem_cons, List.not_mem_nil, or_false] at hop
    rcases hop with rfl | rfl | rfl
    · exact .inr (.inr fun _ _ _ => rfl)
    · exact .inr (.inr fun _ _ _ => rfl)
    · trivial
  obtain ⟨ret, heap', list', heq, hspec⟩ := @files_allocate_least defaultLimits
    heap list (.of_foldlM_of_forall reuse hs hsafe) true plenty someFile 0 (by decide)
  rw [hs] at hret
  simp [heq] at hret
  exact ⟨heap, list, ret, heap', list', heq, hret, hspec⟩

def missingRow : List Op :=
  [.allocate true plenty someFile 0, .allocate true ⟨true, fun _ => false⟩ someFile 8]

/-- After that, the list is read through a dangling pointer. -/
theorem not_files_allocate_least : ¬∀ (lim : Limits) (heap : Heap) (list : Filelist),
    Reaches (fun s op => Op.exec lim s op) Always (Heap.empty, Filelist.empty) (heap, list) →
    ∀ (sem : Bool) (g : Growth) (file : File) (minfd : Nat), minfd < 2 ^ 31 →
      ∃ ret heap' list', filesAllocate lim sem g heap list file minfd = some (ret, heap', list') ∧
        Allocated lim heap list file minfd ret heap' list' := by
  intro h
  obtain ⟨⟨heap, list⟩, hs⟩ : ∃ s, missingRow.foldlM (Op.exec defaultLimits)
      (Heap.empty, Filelist.empty) = some s := isSome_iff_exists.mp (by decide)
  have hnone : ((missingRow.foldlM (Op.exec defaultLimits) (Heap.empty, Filelist.empty)).bind fun s =>
      (filesAllocate defaultLimits true plenty s.1 s.2 someFile 0).map (·.1)) = none := by decide
  obtain ⟨ret, heap', list', heq, -⟩ :=
    h defaultLimits heap list (.of_foldlM missingRow hs) true plenty someFile 0 (by decide)
  rw [hs] at hnone
  simp [heq] at hnone

end Gpmx.Vfs
