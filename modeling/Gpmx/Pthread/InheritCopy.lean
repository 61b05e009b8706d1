import Gpmx.Infra.Accounts
import Gpmx.Pthread.Inherit

/-!
# Lists of descriptors, and their copy for a new thread

`Copied` says what the loops of `files_duplist` do to the list of the new thread and to the counts of the
inodes, whatever memory and drivers answer.
-/

namespace Gpmx.Pthread.Inherit

open Infra List

variable {ι : Type}

/-! ## Lists -/

def slotRefs (slot : Option (File ι)) : List ι := (slot.map File.fInode).toList

def FileList.refs (list : FileList ι) : List ι := list.slots.flatMap slotRefs

section Lists

variable {list list' : FileList ι} {fd : Nat} {file : File ι}

theorem filesExtend_eq {row : Nat} {memory : Memory} {ret : Int}
    (h : filesExtend list row memory = (ret, list')) :
    (∃ n, list'.slots = list.slots ++ List.replicate n none ∧ (0 ≤ ret → row * perBlock ≤ list'.slots.length)) ∧
      (ret < 0 → list'.slots = list.slots) := by
  unfold filesExtend at h
  split at h
  · rename_i hlong
    cases h
    exact ⟨⟨0, by simp, fun _ => hlong⟩, fun _ => rfl⟩
  · split at h
    · cases h
      exact ⟨⟨0, by simp, fun hret => absurd hret (by decide)⟩, fun _ => rfl⟩
    · cases memory with
      | noTable | noRow =>
        cases h
        exact ⟨⟨0, by simp, fun hret => absurd hret (by decide)⟩, fun _ => rfl⟩
      | enough =>
        cases h
        refine ⟨⟨_, rfl, fun _ => ?_⟩, fun hret => absurd hret (by decide)⟩
        simp only [length_append, length_replicate]
        omega

theorem file_append_none {n : Nat} (h : list'.slots = list.slots ++ List.replicate n none) (k : Nat) :
    list'.file k = list.file k := by
  unfold FileList.file
  rw [h]
  by_cases hk : k < list.slots.length
  · rw [getElem?_append_left hk]
  · rw [getElem?_append_right (Nat.le_of_not_lt hk), getElem?_eq_none (Nat.le_of_not_lt hk),
      getElem?_replicate]
    split <;> rfl

theorem refs_append_none {n : Nat} (h : list'.slots = list.slots ++ List.replicate n none) :
    list'.refs = list.refs := by
  have hfree : (List.replicate n (none : Option (File ι))).flatMap slotRefs = [] := by
    simp [flatMap_eq_nil_iff, slotRefs]
  unfold FileList.refs
  rw [h, flatMap_append, hfree, append_nil]

theorem file_setFile (hfd : fd < list.slots.length) (slot : Option (File ι)) (k : Nat) :
    (list.setFile fd slot).file k = if k = fd then slot else list.file k := by
  unfold FileList.file FileList.setFile
  by_cases hk : k = fd
  · rw [if_pos hk, hk, getElem?_set_self hfd]
    rfl
  · rw [if_neg hk, getElem?_set_ne (Ne.symm hk)]

theorem count_setFile [DecidableEq ι] {old : Option (File ι)} (hold : list.slots[fd]? = some old)
    (slot : Option (File ι)) (a : ι) :
    (list.setFile fd slot).refs.count a + (slotRefs old).count a =
      list.refs.count a + (slotRefs slot).count a :=
  count_flatMap_set slotRefs hold slot a

theorem slot_of_file (h : list.file fd = some file) : list.slots[fd]? = some (some file) :=
  Option.join_eq_some_iff.mp h

theorem file_lt (h : list.file fd = some file) : fd < list.slots.length :=
  (List.getElem?_eq_some_iff.mp (slot_of_file h)).1

theorem filesExtend_enough (list : FileList ι) {row : Nat} (hrow : row * perBlock ≤ openMax) :
    (filesExtend list row .enough).1 = 0 := by
  unfold filesExtend
  split
  · rfl
  · rw [if_neg (Nat.not_lt.mpr hrow)]

theorem slot_of_free (hfd : fd < list.slots.length) (h : list.file fd = none) :
    list.slots[fd]? = some none := by
  unfold FileList.file at h
  rw [getElem?_eq_getElem hfd] at h ⊢
  rw [Option.join_some] at h
  rw [h]

theorem file_empty (k : Nat) : (FileList.empty : FileList ι).file k = none := rfl

theorem refs_of_closed (h : ∀ fd, list.file fd = none) : list.refs = [] := by
  unfold FileList.refs
  rw [flatMap_eq_nil_iff]
  intro slot hslot
  obtain ⟨fd, hfd, rfl⟩ := getElem_of_mem hslot
  have hfile := h fd
  unfold FileList.file at hfile
  rw [getElem?_eq_getElem hfd, Option.join_some] at hfile
  rw [hfile]
  rfl

theorem closed_of_refs (h : list.refs = []) (fd : Nat) : list.file fd = none := by
  cases hfile : list.file fd with
  | none => rfl
  | some file =>
    unfold FileList.refs at h
    rw [flatMap_eq_nil_iff] at h
    have hmem : some file ∈ list.slots := mem_of_getElem? (slot_of_file hfile)
    cases h _ hmem

theorem dangling_filesExtend {row : Nat} {memory : Memory} {ret : Int}
    (h : filesExtend list row memory = (ret, list'))
    (hgood : memory ≠ .noRow ∨ list.slots = [] ∨ row * perBlock ≤ list.slots.length) :
    list'.dangling = list.dangling := by
  unfold filesExtend at h
  split at h
  · cases h
    rfl
  · rename_i hshort
    split at h
    · cases h
      rfl
    · cases memory with
      | noTable | enough =>
        cases h
        rfl
      | noRow =>
        cases h
        rcases hgood with hno | hempty | hlong
        · exact absurd rfl hno
        · simp [hempty]
        · exact absurd hlong hshort

end Lists

variable [DecidableEq ι]

/-! ## The copy for a new thread -/

def Inherits (plist : FileList ι) (fd : Nat) (file : File ι) : Prop :=
  fd < 3 ∧ plist.file fd = some file ∧ file.cloexec = false

structure Answers.Fine (answers : Answers) : Prop where
  semtake : answers.semtake = true
  memory : ∀ fd < 3, answers.memory fd = .enough
  dup2 : ∀ fd < 3, 0 ≤ answers.dup2 fd

/-- What the loops do from the descriptor `fd` on. -/
structure Copied (plist : FileList ι) (answers : Answers) (fd : Nat) (clist clist' : FileList ι)
    (crefs crefs' : Counts ι) : Prop where
  only : ∀ k file, clist'.file k = some file → clist.file k = some file ∨ Inherits plist k file
  kept : ∀ k file, clist.file k = some file → clist'.file k = some file
  count : ∀ a, crefs' a + clist.refs.count a = crefs a + clist'.refs.count a
  all : answers.Fine → ∀ k file, fd ≤ k → Inherits plist k file → clist'.file k = some file
  dangling : clist'.dangling = clist.dangling

section Copy

variable {plist clist clist' : FileList ι} {answers : Answers} {fd : Nat} {crefs crefs' : Counts ι}
  {file : File ι}

theorem copied_stop {n : Nat} (h : clist'.slots = clist.slots ++ List.replicate n none)
    (hdangling : clist'.dangling = clist.dangling) (hall : answers.Fine → ∀ k file, fd ≤ k → ¬Inherits plist k file) :
    Copied plist answers fd clist clist' crefs crefs where
  only k file hk := by
    rw [file_append_none h] at hk
    exact .inl hk
  kept k file hk := by
    rw [file_append_none h]
    exact hk
  count a := by rw [refs_append_none h]
  all hfine k file hle hin := absurd hin (hall hfine k file hle)
  dangling := hdangling

theorem Copied.skip (h : Copied plist answers (fd + 1) clist clist' crefs crefs')
    (hno : ∀ file, ¬Inherits plist fd file) : Copied plist answers fd clist clist' crefs crefs' where
  only := h.only
  kept := h.kept
  count := h.count
  all hfine k file hle hin := by
    by_cases hk : k = fd
    · rw [hk] at hin
      exact absurd hin (hno file)
    · exact h.all hfine k file (by omega) hin
  dangling := h.dangling

theorem addref_count (crefs : Counts ι) (a b : ι) :
    inodeAddref crefs a b = crefs b + [a].count b := by
  unfold inodeAddref
  rw [Function.update_apply]
  by_cases hb : b = a
  · simp [hb]
  · simp [hb, Ne.symm hb]

theorem release_addref (crefs : Counts ι) (a : ι) : inodeRelease (inodeAddref crefs a) a = crefs := by
  unfold inodeRelease inodeAddref
  simp

theorem Copied.copy {n : Nat} {clist₁ : FileList ι} (hextend : clist₁.slots = clist.slots ++ List.replicate n none)
    (hdangling : clist₁.dangling = clist.dangling) (hfd : fd < clist₁.slots.length)
    (hfree : clist.file fd = none) (hin : Inherits plist fd file)
    (h : Copied plist answers (fd + 1) (clist₁.setFile fd (some file)) clist'
      (inodeAddref crefs file.fInode) crefs') : Copied plist answers fd clist clist' crefs crefs' := by
  have hfile := file_append_none hextend
  have hset := file_setFile hfd (some file)
  have hself : clist'.file fd = some file := h.kept fd file (by rw [hset, if_pos rfl])
  constructor
  · intro k g hk
    rcases h.only k g hk with hold | hin'
    · rw [hset] at hold
      split at hold
      · rename_i heq
        cases hold
        rw [heq]
        exact .inr hin
      · rw [hfile] at hold
        exact .inl hold
    · exact .inr hin'
  · intro k g hk
    refine h.kept k g ?_
    have hne : k ≠ fd := by
      rintro rfl
      rw [hfree] at hk
      cases hk
    rw [hset, if_neg hne, hfile]
    exact hk
  · intro a
    have hcount := h.count a
    have hslot : clist₁.slots[fd]? = some none := slot_of_free hfd (by rw [hfile]; exact hfree)
    have hone := count_setFile hslot (some file) a
    rw [refs_append_none hextend] at hone
    rw [addref_count] at hcount
    simp only [slotRefs, Option.map_some, Option.toList_some, Option.map_none, Option.toList_none,
      count_nil] at hone
    omega
  · intro hfine k g hle hin'
    by_cases hk : k = fd
    · rw [hk] at hin' ⊢
      obtain ⟨-, hp, -⟩ := hin
      rw [hin'.2.1] at hp
      cases hp
      exact hself
    · exact h.all hfine k g (by omega) hin'
  · exact h.dangling.trans hdangling

theorem duplistLoop_copied (n : Nat) : ∀ {fd : Nat} {ret : Int} {clist : FileList ι} {crefs : Counts ι},
    plist.slots.length ≤ fd + n → (∀ k, fd ≤ k → clist.file k = none) →
    clist.slots = [] ∨ perBlock ≤ clist.slots.length →
    Copied plist answers fd clist (duplistLoop plist answers n fd ret clist crefs).2.1 crefs
      (duplistLoop plist answers n fd ret clist crefs).2.2 := by
  induction n with
  | zero =>
    intro fd ret clist crefs hlen _ _
    refine copied_stop (n := 0) (by simp [duplistLoop]) rfl fun _ k file hle hin => ?_
    have hlt := file_lt hin.2.1
    omega
  | succ n ih =>
    intro fd ret clist crefs hlen hfree hrows
    have hfree' : ∀ k, fd + 1 ≤ k → clist.file k = none := fun k hk => hfree k (by omega)
    unfold duplistLoop
    split
    · rename_i hstdio
      refine copied_stop (n := 0) (by simp) rfl fun _ k file hle hin => ?_
      have hlt := hin.1
      omega
    · rename_i hstdio
      split
      · rename_i hnone
        refine (ih (by omega) hfree' hrows).skip fun file hin => ?_
        rw [hin.2.1] at hnone
        cases hnone
      · rename_i file hfile
        split
        · rename_i hclo
          refine (ih (by omega) hfree' hrows).skip fun g hin => ?_
          obtain ⟨-, hg, hno⟩ := hin
          rw [hfile] at hg
          cases hg
          rw [hclo] at hno
          cases hno
        · rename_i hclo
          have hin : Inherits plist fd file := ⟨by omega, hfile, by simpa using hclo⟩
          split
          rename_i ret₁ clist₁ hextend
          obtain ⟨⟨m, hslots, hlong⟩, -⟩ := filesExtend_eq hextend
          -- the new thread has no table, or it has the row
          have hdangling : clist₁.dangling = clist.dangling := by
            refine dangling_filesExtend hextend (.inr (hrows.imp_right fun hle => ?_))
            unfold perBlock at hle ⊢
            omega
          split
          · rename_i hret
            refine copied_stop hslots hdangling fun hfine _ _ _ _ => ?_
            have hrow : (fd / perBlock + 1) * perBlock ≤ openMax := by
              unfold perBlock openMax
              omega
            have hzero := filesExtend_enough clist hrow
            rw [← hfine.memory fd (by omega), hextend] at hzero
            exact absurd hret (by simp only at hzero; omega)
          · rename_i hret
            have hfd : fd < clist₁.slots.length := by
              have hlong := hlong (by omega)
              unfold perBlock at hlong
              omega
            have hslot : clist₁.file fd = none := by
              rw [file_append_none hslots]
              exact hfree fd (Nat.le_refl _)
            rw [hslot]
            unfold fileDup2
            by_cases hdup : answers.dup2 fd < 0
            · rw [if_pos hdup]
              dsimp only
              rw [if_pos hdup, release_addref]
              refine copied_stop hslots hdangling fun hfine _ _ _ _ => ?_
              have hok := hfine.dup2 fd (by omega)
              omega
            · rw [if_neg hdup]
              dsimp only
              rw [if_neg (by decide)]
              refine Copied.copy hslots hdangling hfd (hfree fd (Nat.le_refl _)) hin
                (ih (by omega) (fun k hk => ?_) (.inr ?_))
              · rw [file_setFile hfd, if_neg (by omega), file_append_none hslots]
                exact hfree' k hk
              · show perBlock ≤ (clist₁.slots.set fd (some file)).length
                have hlong := hlong (by omega)
                rw [length_set]
                unfold perBlock at hlong ⊢
                omega

theorem filesDuplist_copied (plist : FileList ι) (answers : Answers) (crefs : Counts ι) :
    Copied plist answers 0 .empty (filesDuplist plist .empty answers crefs).2.1 crefs
      (filesDuplist plist .empty answers crefs).2.2 := by
  unfold filesDuplist
  split
  · exact duplistLoop_copied _ (by omega) (fun k _ => file_empty k) (.inl rfl)
  · rename_i hsem
    exact copied_stop (n := 0) (by simp) rfl fun hfine => absurd hfine.semtake hsem

end Copy

end Gpmx.Pthread.Inherit
