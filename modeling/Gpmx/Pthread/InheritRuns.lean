import Gpmx.Pthread.InheritCopy

/-!
# Descriptors over the life of threads

* `Balanced` — the counts of the inodes are the references of the threads
* `descriptors_inherited` — what a new thread gets, and the balance over whole runs
-/

namespace Gpmx.Pthread.Inherit

open Infra List

variable {ι : Type} [DecidableEq ι]

def Call.refs : Call ι → List ι
  | .idle => []
  | .opening file => [file.fInode]
  | .closing file => [file.fInode]

def Thread.refs (t : Thread ι) : List ι := t.files.refs ++ t.call.refs

/-- The counts are the references of all threads, and who has ended has none. -/
structure Balanced (s : Sys ι) : Prop where
  count : ∀ a, s.crefs a = (s.threads.flatMap Thread.refs).count a
  ended : ∀ t ∈ s.threads, t.ended = true → t.refs = []
  dangling : ∀ t ∈ s.threads, t.files.dangling = false
  counter : s.threads ≠ [] → 0 < s.pthreadCounter

/--
A thread ends with all of its descriptors closed, memory for a row does not fail when there is a table,
and where no task can be created there was nothing to copy.
-/
def Tidy (s : Sys ι) : Act ι → Prop
  | .create parent _ creation => creation = .noTask →
    ∀ i t, parent = some i → s.threads[i]? = some t → ∀ fd file, ¬Inherits t.files fd file
  | .install _ memory => memory ≠ .noRow
  | .finish i => ∀ t, s.threads[i]? = some t → ∀ fd, t.files.file fd = none
  | _ => True

section Runs

variable {s s' : Sys ι} {t t' : Thread ι} {crefs crefs' : Counts ι}

variable {list list' : FileList ι} {file : File ι} {memory : Memory} {ret : Int} {a : Act ι}

theorem count_filesAllocate (h : filesAllocate list file memory = (ret, list')) (a : ι) :
    list'.refs.count a = list.refs.count a + if ret < 0 then 0 else [file.fInode].count a := by
  unfold filesAllocate at h
  split at h
  · rename_i fd hfd
    cases h
    obtain ⟨hlt, hnone, -⟩ := findIdx?_eq_some_iff_getElem.mp hfd
    have hslot : list.slots[fd]? = some none := by
      rw [getElem?_eq_getElem hlt, Option.isNone_iff_eq_none.mp hnone]
    have hone := count_setFile hslot (some file) a
    rw [if_neg (by omega)]
    simpa [slotRefs] using hone
  · split at h
    rename_i ret₁ list₁ hextend
    obtain ⟨⟨n, hslots, hlong⟩, hsame⟩ := filesExtend_eq hextend
    split at h
    · rename_i hret
      cases h
      have hlt : list.slots.length < list₁.slots.length := by
        have hlong := hlong hret
        unfold perBlock at hlong
        omega
      have hpos : 0 < n := by
        rw [hslots, length_append, length_replicate] at hlt
        omega
      have hslot : list₁.slots[list.slots.length]? = some none := by
        rw [hslots, getElem?_append_right (Nat.le_refl _), Nat.sub_self,
          getElem?_replicate_of_lt hpos]
      have hone := count_setFile hslot (some file) a
      rw [refs_append_none hslots] at hone
      rw [if_neg (by omega)]
      simpa [slotRefs] using hone
    · rename_i hret
      cases h
      rw [if_pos (by omega), refs_append_none hslots]
      rfl

theorem release_count {crefs : Counts ι} {a : ι} (hpos : 0 < crefs a) (b : ι) :
    inodeRelease crefs a b + [a].count b = crefs b := by
  unfold inodeRelease
  rw [Function.update_apply]
  by_cases hb : b = a
  · subst hb
    simp
    omega
  · simp [hb, Ne.symm hb]

theorem act_count (hheld : ∀ b, t.refs.count b ≤ crefs b)
    (h : Sys.act t crefs a = some (t', crefs')) (b : ι) :
    crefs' b + t.refs.count b = crefs b + t'.refs.count b := by
  obtain ⟨files, call, ended⟩ := t
  unfold Sys.act at h
  cases a with
  | create parent answers creation => cases h
  | lookup i file =>
    cases call with
    | idle =>
      cases h
      rw [addref_count]
      simp only [Thread.refs, Call.refs, count_append, count_nil]
      omega
    | _ => cases h
  | install i memory =>
    cases call with
    | opening file =>
      dsimp only at h
      generalize halloc : filesAllocate files file memory = r at h
      obtain ⟨ret, files'⟩ := r
      have hcount := count_filesAllocate halloc b
      split at h
      · rename_i hret
        cases h
        rw [if_pos hret] at hcount
        simp only [Thread.refs, Call.refs, count_append]
        omega
      · rename_i hret
        cases h
        rw [if_neg hret] at hcount
        simp only [Thread.refs, Call.refs, count_append, count_nil]
        omega
    | _ => cases h
  | abandon i =>
    cases call with
    | opening file =>
      cases h
      rfl
    | _ => cases h
  | take i fd =>
    cases call with
    | idle =>
      dsimp only at h
      cases hfile : files.file fd with
      | none =>
        rw [hfile] at h
        cases h
      | some file =>
        rw [hfile] at h
        cases h
        have hcount := count_setFile (slot_of_file hfile) none b
        simp only [slotRefs, Option.map_some, Option.toList_some, Option.map_none, Option.toList_none,
          count_nil] at hcount
        simp only [Thread.refs, Call.refs, count_append, count_nil]
        omega
    | _ => cases h
  | release i =>
    cases call with
    | closing file =>
      cases h
      have hpos : 0 < crefs file.fInode := by
        have hone := hheld file.fInode
        simp only [Thread.refs, Call.refs, count_append, count_singleton_self] at hone
        omega
      have hcount := release_count hpos b
      simp only [Thread.refs, Call.refs, count_append, count_nil]
      omega
    | _ => cases h
  | finish i =>
    cases call with
    | idle =>
      cases h
      rfl
    | _ => cases h

omit [DecidableEq ι] in
theorem filesAllocate_dangling (h : filesAllocate list file memory = (ret, list'))
    (hmemory : memory ≠ .noRow) : list'.dangling = list.dangling := by
  unfold filesAllocate at h
  split at h
  · cases h
    rfl
  · split at h
    rename_i ret₁ list₁ hextend
    have hsame := dangling_filesExtend hextend (.inl hmemory)
    split at h <;>
    · cases h
      exact hsame

theorem act_dangling (h : Sys.act t crefs a = some (t', crefs'))
    (hmemory : ∀ i memory, a = .install i memory → memory ≠ .noRow) :
    t'.files.dangling = t.files.dangling := by
  unfold Sys.act at h
  cases a with
  | create parent answers creation => cases h
  | install i memory =>
    dsimp only at h
    split at h
    · rename_i file _
      generalize halloc : filesAllocate t.files file memory = r at h
      obtain ⟨ret, files'⟩ := r
      have hsame := filesAllocate_dangling halloc (hmemory i memory rfl)
      split at h <;>
      · cases h
        exact hsame
    · cases h
  | _ =>
    dsimp only at h
    split at h
    · cases h
      rfl
    · cases h

theorem act_ended (h : Sys.act t crefs a = some (t', crefs')) (hstarted : t.ended = false)
    (hclosed : ∀ i, a = .finish i → ∀ fd, t.files.file fd = none) (hend : t'.ended = true) :
    t'.refs = [] := by
  have hsame : ∀ x : Thread ι, x.ended = t.ended → ¬x.ended = true := by
    intro x hx
    rw [hx, hstarted]
    exact Bool.false_ne_true
  unfold Sys.act at h
  cases a with
  | create parent answers creation => cases h
  | finish i =>
    dsimp only at h
    split at h
    · rename_i hcall
      cases h
      have hrefs := refs_of_closed (hclosed i rfl)
      simp [Thread.refs, hrefs, hcall, Call.refs]
    · cases h
  | install i memory =>
    dsimp only at h
    split at h
    · split at h <;>
      · cases h
        exact absurd hend (hsame _ rfl)
    · cases h
  | _ =>
    dsimp only at h
    split at h
    · cases h
      exact absurd hend (hsame _ rfl)
    · cases h

theorem count_le_flatMap {α : Type} (held : α → List ι) {l : List α} {x : α} (hx : x ∈ l) (b : ι) :
    (held x).count b ≤ (l.flatMap held).count b := by
  induction l with
  | nil => cases hx
  | cons y l ih =>
    rw [flatMap_cons, count_append]
    rcases mem_cons.mp hx with rfl | hx
    · omega
    · have hle := ih hx
      omega

theorem Balanced.onThread {i : Nat} (h : Balanced s)
    (hmemory : ∀ i memory, a = .install i memory → memory ≠ .noRow)
    (hclosed : ∀ j, a = .finish j → ∀ t, s.threads[i]? = some t → ∀ fd, t.files.file fd = none)
    (hs : s.onThread i a = some s') : Balanced s' := by
  unfold Sys.onThread at hs
  split at hs
  · cases hs
  · rename_i t ht
    split at hs
    · cases hs
    · rename_i hstarted
      obtain ⟨⟨t', crefs'⟩, hact, hs⟩ := Option.map_eq_some_iff.mp hs
      cases hs
      have hmem : t ∈ s.threads := mem_of_getElem? ht
      have hheld : ∀ b, t.refs.count b ≤ s.crefs b := by
        intro b
        rw [h.count b]
        exact count_le_flatMap Thread.refs hmem b
      constructor
      · intro b
        have hone := act_count hheld hact b
        have hset := count_flatMap_set Thread.refs ht t' b
        have hall := h.count b
        show crefs' b = ((s.threads.set i t').flatMap Thread.refs).count b
        omega
      · intro x hx hend
        rcases mem_or_eq_of_mem_set hx with hx | rfl
        · exact h.ended x hx hend
        · exact act_ended hact (by simpa using hstarted) (fun j hj => hclosed j hj t ht) hend
      · intro x hx
        rcases mem_or_eq_of_mem_set hx with hx | rfl
        · exact h.dangling x hx
        · exact (act_dangling hact hmemory).trans (h.dangling t hmem)
      · intro hne
        refine h.counter fun hnil => ?_
        rw [hnil] at hmem
        cases hmem

structure Inherited (s : Sys ι) (parent : Option Nat) (answers : Answers) (files : FileList ι)
    (crefs : Counts ι) : Prop where
  only : ∀ fd file, files.file fd = some file →
    ∃ i p, parent = some i ∧ s.threads[i]? = some p ∧ Inherits p.files fd file
  all : answers.Fine → ∀ i p, parent = some i → s.threads[i]? = some p →
    ∀ fd file, Inherits p.files fd file → files.file fd = some file
  count : ∀ a, crefs a = s.crefs a + files.refs.count a
  dangling : files.dangling = false

theorem inherited_nothing {parent : Option Nat} (answers : Answers)
    (hnone : ∀ i, parent = some i → s.threads[i]? = none) :
    Inherited s parent answers .empty s.crefs where
  only fd file hfile := by cases hfile
  all _ i p hi hp := by
    rw [hnone i hi] at hp
    cases hp
  count _ := rfl
  dangling := rfl

theorem inherit_inherited (hcounter : s.threads ≠ [] → 0 < s.pthreadCounter) (parent : Option Nat)
    (answers : Answers) : Inherited s parent answers (s.inherit parent answers).1
      (s.inherit parent answers).2 := by
  unfold Sys.inherit
  split
  · split
    · rename_i hnone
      refine inherited_nothing answers fun i hi => ?_
      rw [hi] at hnone
      exact hnone
    · rename_i p hp
      obtain ⟨i, hi, hp⟩ := Option.bind_eq_some_iff.mp hp
      have hcopied := filesDuplist_copied p.files answers s.crefs
      constructor
      · intro fd file hfile
        rcases hcopied.only fd file hfile with hno | hin
        · cases hno
        · exact ⟨i, p, hi, hp, hin⟩
      · intro hfine j q hj hq fd file hin
        rw [hi] at hj
        cases hj
        rw [hp] at hq
        cases hq
        exact hcopied.all hfine fd file (Nat.zero_le _) hin
      · intro a
        exact hcopied.count a
      · exact hcopied.dangling
  · rename_i hfirst
    refine inherited_nothing answers fun i _ => ?_
    have hnil : s.threads = [] := by
      by_contra hne
      exact hfirst (hcounter hne)
    rw [hnil]
    rfl

theorem Balanced.create (h : Balanced s) (parent : Option Nat) (answers : Answers) (creation : Creation)
    (htidy : Tidy s (.create parent answers creation)) :
    Balanced (s.pthreadCreate parent answers creation) := by
  have hin := inherit_inherited h.counter parent answers
  unfold Sys.pthreadCreate
  cases creation with
  | noMemory => exact h
  | noTask =>
    have hclosed : ∀ fd, (s.inherit parent answers).1.file fd = none := by
      intro fd
      cases hfile : (s.inherit parent answers).1.file fd with
      | none => rfl
      | some file =>
        obtain ⟨i, p, hi, hp, hinherits⟩ := hin.only fd file hfile
        exact absurd hinherits (htidy rfl i p hi hp fd file)
    refine ⟨fun a => ?_, h.ended, h.dangling, fun _ => Nat.succ_pos _⟩
    show (s.inherit parent answers).2 a = _
    rw [hin.count a, refs_of_closed hclosed, count_nil, Nat.add_zero]
    exact h.count a
  | created =>
    refine ⟨fun a => ?_, fun t ht hend => ?_, fun t ht => ?_, fun _ => Nat.succ_pos _⟩
    · have hall := h.count a
      show (s.inherit parent answers).2 a = _
      rw [hin.count a, hall]
      simp [Thread.refs, Call.refs]
    · rcases mem_append.mp ht with ht | ht
      · exact h.ended t ht hend
      · rw [mem_singleton.mp ht] at hend
        cases hend
    · rcases mem_append.mp ht with ht | ht
      · exact h.dangling t ht
      · rw [mem_singleton.mp ht]
        exact hin.dangling

theorem Balanced.step (h : Balanced s) (htidy : Tidy s a) (hs : s.step a = some s') :
    Balanced s' := by
  cases a with
  | create parent answers creation =>
    unfold Sys.step at hs
    dsimp only at hs
    split at hs
    · cases hs
      exact h.create parent answers creation htidy
    · cases hs
  | install i memory =>
    refine h.onThread (fun j memory' heq => ?_) (fun j heq => ?_) hs
    · cases heq
      exact htidy
    · cases heq
  | finish i =>
    refine h.onThread (fun j memory' heq => ?_) (fun _ _ => htidy) hs
    cases heq
  | _ =>
    refine h.onThread (fun j memory' heq => ?_) (fun j heq => ?_) hs
    · cases heq
    · cases heq

theorem balanced_reaches (h : Reaches Sys.step Tidy Sys.start s) : Balanced s :=
  h.invariant ⟨fun _ => rfl, nofun, nofun, fun hne => absurd rfl hne⟩
    fun _ _ _ hbal htidy hs => hbal.step htidy hs

theorem count_remaining (h : Balanced s) (a : ι) : s.crefs a =
    ((s.threads.filter fun t => !t.ended).flatMap Thread.refs).count a := by
  rw [h.count a]
  have hended := h.ended
  generalize s.threads = threads at hended
  induction threads with
  | nil => rfl
  | cons t threads ih =>
    have ih := ih fun x hx => hended x (mem_cons_of_mem t hx)
    rw [filter_cons, flatMap_cons, count_append, ih]
    cases hend : t.ended with
    | true => simp [hended t mem_cons_self hend]
    | false => simp

end Runs

/-- A thread has been created before `pthread_create` looks for the list of its caller. -/
def Counted (s : Sys ι) : Prop := s.threads ≠ [] → 0 < s.pthreadCounter

def fine : Answers := { semtake := true, memory := fun _ => .enough, dup2 := fun _ => 0 }

def device (name : String) : File String := { fInode := name, fOflags := 3, fPos := 0 }

def consoleOpened : List (Act String) :=
  [.create none fine .created, .lookup 0 (device "console"), .install 0 .enough]

theorem consoleOpened_tidy (s : Sys String) : ∀ a ∈ consoleOpened, Tidy s a := by
  simp [consoleOpened, Tidy]

def fourOpened : List (Act String) :=
  consoleOpened ++ [.lookup 0 (device "console"), .install 0 .enough, .lookup 0 (device "console"),
    .install 0 .enough, .lookup 0 (device "uart"), .install 0 .enough]

end Gpmx.Pthread.Inherit
