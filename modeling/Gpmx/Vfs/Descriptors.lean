import Gpmx.Infra.Accounts
import Gpmx.Infra.OpenFiles

/-!
# VFS: descriptors of the files of a mount point

`struct file` holds a position and a pointer to the file system's structure for an open file, which counts
the descriptors that share it. Both file systems duplicate and close a descriptor in the same way. The
file system's semaphore makes each call one step. A structure that is freed is never used again under
its number: an allocation gets a new one.
-/

namespace Gpmx.Vfs

open Infra Function Option

/-- `f_pos` and `f_priv` of `struct file`. -/
structure Filep where
  fPos : Nat
  fPriv : Nat
deriving DecidableEq

/-- `struct fatfs_file_s`, `struct littlefs_file_s`. -/
structure Priv (F : Type) where
  file : F
  refs : Int

/-- The descriptors, the allocated structures, and how often the file of each was closed. -/
structure Mount (Fd F : Type) where
  fds : Fd → Option Filep
  priv : Nat → Option (Priv F)
  closes : Nat → Nat

variable {Fd F A β : Type} [DecidableEq Fd]

def Mount.empty : Mount Fd F := ⟨fun _ => none, fun _ => none, fun _ => 0⟩

def Mount.onFile (s : Mount Fd F) (fd : Fd) (op : Nat → F → A × Nat × F) :
    Option (A × Mount Fd F) := do
  let filep ← s.fds fd
  let priv ← s.priv filep.fPriv
  let (a, fPos, file) := op filep.fPos priv.file
  return (a, { s with
    fds := update s.fds fd (some { filep with fPos })
    priv := update s.priv filep.fPriv (some { priv with file }) })

/-- The method `dup`, called by `file_dup2`, which copies the position before it. -/
def Mount.dup (s : Mount Fd F) (oldp newp : Fd) : Option (Reply β × Mount Fd F) := do
  let filep ← s.fds oldp
  let priv ← s.priv filep.fPriv
  if (s.fds newp).isSome then none
  else return (.done, { s with
    fds := update s.fds newp (some { fPos := filep.fPos, fPriv := filep.fPriv })
    priv := update s.priv filep.fPriv (some { priv with refs := priv.refs + 1 }) })

/-- The method `close`, called by `file_close`, which clears the descriptor after it. -/
def Mount.close (closeFile : F → Int) (s : Mount Fd F) (fd : Fd) :
    Option (Reply β × Mount Fd F) := do
  let filep ← s.fds fd
  let priv ← s.priv filep.fPriv
  let fds := update s.fds fd none
  let refs := priv.refs - 1
  if refs ≤ 0 then
    let ret := closeFile priv.file
    return (if ret < 0 then .error ret else .done, {
      fds
      priv := update s.priv filep.fPriv none
      closes := update s.closes filep.fPriv (s.closes filep.fPriv + 1) })
  else
    return (.done, { s with
      fds
      priv := update s.priv filep.fPriv (some { priv with refs }) })

/-- The end of the method `open`: `priv` is the new structure, with one descriptor. -/
def Mount.opened (s : Mount Fd F) (fd : Fd) (priv : Nat) (fPos : Nat) (file : F) : Mount Fd F :=
  { s with
    fds := update s.fds fd (some { fPos, fPriv := priv })
    priv := update s.priv priv (some { file, refs := 1 }) }

/-- `fd` is free and `priv` a structure that was not allocated before. -/
def Mount.Fresh (s : Mount Fd F) (fd : Fd) (priv : Nat) : Prop :=
  s.fds fd = none ∧ s.priv priv = none ∧ s.closes priv = 0

instance (s : Mount Fd F) (fd : Fd) (priv : Nat) : Decidable (s.Fresh fd priv) :=
  decidable_of_iff (s.fds fd = none ∧ (s.priv priv).isNone ∧ s.closes priv = 0)
    (by simp [Mount.Fresh])

def Mount.files (contents : F → List β) (s : Mount Fd F) : Files Fd Nat β where
  contents i := (s.priv i).elim [] fun priv => contents priv.file
  fds fd := (s.fds fd).map fun filep => ⟨filep.fPriv, filep.fPos⟩
  closes := s.closes

/-! ## The reference counts -/

def IsFor (i : Nat) (o : Option Filep) : Prop := o.map Filep.fPriv = some i

instance (i : Nat) : DecidablePred (IsFor i) := fun o =>
  inferInstanceAs (Decidable (o.map Filep.fPriv = some i))

variable [Fintype Fd]

structure Counted (s : Mount Fd F) : Prop where
  owned : ∀ fd filep, s.fds fd = some filep → (s.priv filep.fPriv).isSome
  refs : ∀ i priv, s.priv i = some priv → priv.refs = census (IsFor i) s.fds
  unclosed : ∀ i, (s.priv i).isSome → s.closes i = 0

variable {s s' : Mount Fd F} {fd fd' : Fd} {filep : Filep} {priv : Priv F} {i : Nat}

theorem isFor_some : IsFor i (some filep) ↔ filep.fPriv = i := by simp [IsFor]

theorem not_isFor_none : ¬IsFor i none := by simp [IsFor]

omit [DecidableEq Fd] in
theorem counted_empty : Counted (Mount.empty : Mount Fd F) := by
  refine ⟨nofun, nofun, fun i _ => rfl⟩

omit [DecidableEq Fd] [Fintype Fd] in
theorem shares_files {contents : F → List β} :
    (s.files contents).Shares fd i ↔ IsFor i (s.fds fd) := by
  cases h : s.fds fd <;> simp [Files.Shares, Mount.files, h, IsFor]

omit [DecidableEq Fd] [Fintype Fd] in
theorem files_fds {contents : F → List β} (h : s.fds fd = some filep) :
    (s.files contents).fds fd = some ⟨filep.fPriv, filep.fPos⟩ := by
  simp [Mount.files, h]

omit [DecidableEq Fd] [Fintype Fd] in
theorem files_contents {contents : F → List β} (h : s.priv i = some priv) :
    (s.files contents).contents i = contents priv.file := by
  simp [Mount.files, h]

omit [Fintype Fd] in
theorem files_update {contents : F → List β} (i pos : Nat) (file : F) (refs : Int) :
    Mount.files contents { s with
      fds := update s.fds fd (some ⟨pos, i⟩)
      priv := update s.priv i (some ⟨file, refs⟩) }
      = (s.files contents).move fd i pos (contents file) := by
  unfold Mount.files Files.move
  congr 1
  · funext j
    by_cases hj : j = i
    · subst hj; simp
    · simp [hj]
  · funext fd'
    by_cases hfd : fd' = fd
    · subst hfd; simp
    · simp [hfd]

theorem Counted.set (hs : Counted s) {pos : Nat} {priv : Priv F} (hi : s.closes i = 0)
    (hold : ∀ j, j ≠ i → ¬IsFor j (s.fds fd))
    (hrefs : priv.refs = census (IsFor i) (update s.fds fd (some ⟨pos, i⟩))) :
    Counted { s with
      fds := update s.fds fd (some ⟨pos, i⟩)
      priv := update s.priv i (some priv) } := by
  refine ⟨fun fd' filep' h => ?_, fun j priv' h => ?_, fun j h => ?_⟩
  · by_cases hj : filep'.fPriv = i
    · simp [hj]
    · by_cases hfd : fd' = fd
      · subst hfd; simp at h; exact absurd (h ▸ rfl) hj
      · simp [hfd] at h
        simpa [hj] using hs.owned fd' filep' h
  · by_cases hj : j = i
    · subst hj
      simp at h
      exact h ▸ hrefs
    · simp [hj] at h
      have hcount := census_update (p := IsFor j) s.fds fd (some ⟨pos, i⟩)
      rw [if_neg (hold j hj), if_neg fun h => hj (isFor_some.mp h).symm] at hcount
      have := hs.refs j priv' h
      dsimp only
      omega
  · by_cases hj : j = i
    · exact hj ▸ hi
    · exact hs.unclosed j (by simpa [hj] using h)

/-- **A call on file and position**: the descriptor moves and the file changes, no more. -/
theorem onFile_spec {op : Nat → F → A × Nat × F} {a : A} (contents : F → List β) (hs : Counted s)
    (h : s.onFile fd op = some (a, s')) :
    ∃ filep priv, s.fds fd = some filep ∧ s.priv filep.fPriv = some priv ∧
      a = (op filep.fPos priv.file).1 ∧ Counted s' ∧
      s'.files contents = (s.files contents).move fd filep.fPriv (op filep.fPos priv.file).2.1
        (contents (op filep.fPos priv.file).2.2) := by
  obtain ⟨filep, hfilep, h⟩ := bind_eq_some_iff.mp h
  obtain ⟨priv, hpriv, h⟩ := bind_eq_some_iff.mp h
  cases h
  refine ⟨filep, priv, hfilep, hpriv, rfl, ?_, files_update _ _ _ _⟩
  have hopen : s.closes filep.fPriv = 0 := hs.unclosed _ (by simp [hpriv])
  refine hs.set hopen (fun j hj => ?_) ?_
  · rw [hfilep, isFor_some]
    exact Ne.symm hj
  · -- the descriptor was one of this structure before
    rw [hs.refs _ _ hpriv]
    refine congrArg Nat.cast (census_congr fun fd' => ?_)
    by_cases hfd : fd' = fd
    · subst hfd; simp [hfilep, isFor_some]
    · simp [hfd]

/-- A call does what a descriptor with a position of its own does. -/
def Answers (contents : F → List β) (s : Mount Fd F) (fd : Fd) (call : Call Fd β) (a : Reply β) (s' : Mount Fd F) : Prop :=
  ∃ i pos, (s.files contents).fds fd = some ⟨i, pos⟩ ∧ (s.files contents).Does fd i pos call a (s'.files contents)

/-- So does what a file system does to the position and the file. -/
def Performs (contents : F → List β) (t : Files Fd Nat β) (fd : Fd) (i pos : Nat) (file : F) (call : Call Fd β)
    (op : Nat → F → Reply β × Nat × F) : Prop :=
  t.Does fd i pos call (op pos file).1 (t.move fd i (op pos file).2.1 (contents (op pos file).2.2))

theorem onFile_does {op : Nat → F → Reply β × Nat × F} {call : Call Fd β} {a : Reply β}
    (contents : F → List β) (hs : Counted s) (h : s.onFile fd op = some (a, s'))
    (hop : ∀ i pos priv, s.fds fd = some ⟨pos, i⟩ → s.priv i = some priv →
      Performs contents (s.files contents) fd i pos priv.file call op) :
    Counted s' ∧ Answers contents s fd call a s' := by
  obtain ⟨filep, priv, hfilep, hpriv, rfl, hs', hfiles⟩ := onFile_spec contents hs h
  exact ⟨hs', _, _, files_fds hfilep, hfiles ▸ hop _ _ _ hfilep hpriv⟩

/-- **A duplicate** shares the file and starts at the position of the descriptor. -/
theorem dup_spec {new : Fd} {a : Reply β} (contents : F → List β) (hs : Counted s)
    (h : s.dup fd new = some (a, s')) :
    Counted s' ∧ Answers contents s fd (.dup new) a s' := by
  obtain ⟨filep, hfilep, h⟩ := bind_eq_some_iff.mp h
  obtain ⟨priv, hpriv, h⟩ := bind_eq_some_iff.mp h
  split_ifs at h with hnew
  cases h
  have hnew : s.fds new = none := by simpa using hnew
  refine ⟨?_, filep.fPriv, filep.fPos, files_fds hfilep, ?_⟩
  · refine hs.set (hs.unclosed _ (by simp [hpriv])) (fun j _ => hnew ▸ not_isFor_none) ?_
    have hcount := census_update (p := IsFor filep.fPriv) s.fds new (some ⟨filep.fPos, filep.fPriv⟩)
    rw [if_neg (hnew ▸ not_isFor_none), if_pos (isFor_some.mpr rfl)] at hcount
    have := hs.refs _ _ hpriv
    dsimp only
    omega
  · have hfiles : Mount.files contents { s with
        fds := update s.fds new (some ⟨filep.fPos, filep.fPriv⟩)
        priv := update s.priv filep.fPriv (some { priv with refs := priv.refs + 1 }) }
        = { s.files contents with
            fds := update (s.files contents).fds new (some ⟨filep.fPriv, filep.fPos⟩) } := by
      rw [files_update, Files.move]
      congr 1
      refine Function.update_eq_self_iff.mpr ?_
      simp [Mount.files, hpriv]
    rw [hfiles]
    exact .dup (by simp [Mount.files, hnew])

omit [Fintype Fd] in
theorem files_removed {contents : F → List β} {p : Option (Priv F)} {closes : Nat → Nat} :
    Mount.files contents { fds := update s.fds fd none, priv := update s.priv i p, closes }
      = { contents := update (s.files contents).contents i (p.elim [] fun priv => contents priv.file)
          fds := update (s.files contents).fds fd none
          closes } := by
  unfold Mount.files
  congr 1
  · funext j
    by_cases hj : j = i
    · subst hj; simp
    · simp [hj]
  · funext fd'
    by_cases hfd : fd' = fd
    · subst hfd; simp
    · simp [hfd]

/-- A descriptor is cleared, and its structure freed where no other is left. -/
theorem Counted.removed (hs : Counted s) (hfilep : s.fds fd = some filep) {p : Option (Priv F)} {closes : Nat → Nat}
    (hrefs : p.elim 0 Priv.refs = census (IsFor filep.fPriv) (update s.fds fd none))
    (hcloses : ∀ j, (update s.priv filep.fPriv p j).isSome → closes j = 0) :
    Counted { fds := update s.fds fd none, priv := update s.priv filep.fPriv p, closes } := by
  refine ⟨fun fd' filep' h => ?_, fun j priv' h => ?_, hcloses⟩
  · have hfd : fd' ≠ fd := by rintro rfl; simp at h
    by_cases hj : filep'.fPriv = filep.fPriv
    · cases p with
      | some priv => simp [hj]
      | none =>
        refine absurd ?_ (census_eq_zero.mp (Int.ofNat.inj hrefs).symm fd')
        rw [show update s.fds fd none fd' = some filep' from h, isFor_some]
        exact hj
    · simp [hfd] at h
      simpa [hj] using hs.owned fd' filep' h
  · by_cases hj : j = filep.fPriv
    · subst hj
      simp at h
      subst h
      exact hrefs
    · simp [hj] at h
      have hcount := census_update (p := IsFor j) s.fds fd none
      rw [if_neg (by rw [hfilep, isFor_some]; exact Ne.symm hj), if_neg not_isFor_none] at hcount
      exact (hs.refs j priv' h).trans (congrArg Nat.cast hcount.symm)

/-- **The file is closed with its last descriptor**, and not before. -/
theorem close_spec {closeFile : F → Int} {a : Reply β} (contents : F → List β) (hs : Counted s)
    (h : s.close closeFile fd = some (a, s')) :
    Counted s' ∧ Answers contents s fd .close a s' := by
  obtain ⟨filep, hfilep, h⟩ := bind_eq_some_iff.mp h
  obtain ⟨priv, hpriv, h⟩ := bind_eq_some_iff.mp h
  have hrefs := hs.refs _ _ hpriv
  -- the other descriptors of the structure
  have hcount := census_update (p := IsFor filep.fPriv) s.fds fd none
  rw [hfilep, if_pos (isFor_some.mpr rfl), if_neg not_isFor_none] at hcount
  suffices hdone : Counted s' ∧ (s.files contents).Does fd filep.fPriv filep.fPos .close a
      (s'.files contents) from ⟨hdone.1, _, _, files_fds hfilep, hdone.2⟩
  by_cases hlast : priv.refs - 1 ≤ 0
  · rw [if_pos hlast] at h
    cases h
    have hzero : census (IsFor filep.fPriv) (update s.fds fd none) = 0 := by omega
    constructor
    · refine hs.removed hfilep (congrArg Nat.cast hzero.symm) fun j hj => ?_
      have hne : j ≠ filep.fPriv := by rintro rfl; simp at hj
      simp [hne] at hj ⊢
      exact hs.unclosed j hj
    · rw [files_removed]
      refine .closeLast fun fd' hne hshares => census_eq_zero.mp hzero fd' ?_
      rw [update_of_ne hne]
      exact shares_files.mp hshares
  · rw [if_neg hlast] at h
    cases h
    constructor
    · refine hs.removed hfilep (show priv.refs - 1 = _ by omega) fun j hj => hs.unclosed j ?_
      by_cases hne : j = filep.fPriv
      · simp [hne, hpriv]
      · simpa [hne] using hj
    · have hsame : update (s.files contents).contents filep.fPriv (contents priv.file)
          = (s.files contents).contents :=
        Function.update_eq_self_iff.mpr (by simp [Mount.files, hpriv])
      have hmore : census (IsFor filep.fPriv) (update s.fds fd none) ≠ 0 := by omega
      rw [Ne, census_eq_zero] at hmore
      simp only [not_forall, not_not] at hmore
      obtain ⟨fd', hfd'⟩ := hmore
      have hne : fd' ≠ fd := by
        rintro rfl
        rw [update_self] at hfd'
        exact not_isFor_none hfd'
      rw [update_of_ne hne] at hfd'
      rw [files_removed]
      dsimp only [Option.elim]
      rw [hsame]
      exact .close hne (shares_files.mpr hfd')

/-- **A new file** has one descriptor. -/
theorem opened_spec (contents : F → List β) (hs : Counted s) (hfresh : s.Fresh fd i) (pos : Nat)
    (file : F) :
    Counted (s.opened fd i pos file) ∧
      (s.opened fd i pos file).files contents = (s.files contents).move fd i pos (contents file) := by
  obtain ⟨hfd, hpriv, hcloses⟩ := hfresh
  refine ⟨hs.set hcloses (fun j _ => hfd ▸ not_isFor_none) ?_, files_update _ _ _ _⟩
  -- nothing refers to a structure that is not allocated
  have hnone : census (IsFor i) s.fds = 0 := by
    refine census_eq_zero.mpr fun fd' hfor => ?_
    cases hfilep : s.fds fd' with
    | none => exact not_isFor_none (hfilep ▸ hfor)
    | some filep =>
      have howned := hs.owned fd' filep hfilep
      rw [hfilep, isFor_some] at hfor
      simp [hfor, hpriv] at howned
  have hnew : IsFor i (some ⟨pos, i⟩) := isFor_some.mpr rfl
  have hcount := census_update (p := IsFor i) s.fds fd (some ⟨pos, i⟩)
  rw [if_neg (hfd ▸ not_isFor_none), if_pos hnew, hnone] at hcount
  rw [Nat.add_zero] at hcount
  simp [hcount]

end Gpmx.Vfs
