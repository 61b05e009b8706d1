import Gpmx.Romfs.GromfsLookup

/-!
# GROMFS: opening and reading in any tree

`dfs_romfs_open`, `dfs_romfs_lookup` and `dfs_romfs_read` of `gpm/fs/romfs/gromfs.c`, over every tree of
records that pass `check_dirent`.

* `Leads` — the entry that the parts of a path lead to
* `lookupLoop_iff` — what the lookup returns: that entry, or a file that the path goes on behind
* `opens_and_reads_iff` — the paths that are opened as they should be, and the reads that are right
-/

namespace Gpmx.Romfs

open Infra Memory List

/-! ## Opening and reading -/

structure DfsFile where
  data : Nat

/-- `dfs_romfs_open`, with what it returns and the file behind it -/
def dfsRomfsOpen (mem : Memory UInt8) (root : Nat) (file : Option DfsFile) (path : List UInt8) :
    Int × Option DfsFile :=
  match file with
  | none => (-1, none)
  | some file =>
    if checkDirent mem root ≠ 0 then (-5, some file)
    else
      match dfsRomfsLookup mem root path with
      | none => (-6, some file)
      | some (dirent, _) => (0, some { file with data := dirent })

/-- A call of `dfs_romfs_read`, at another position than the one the call before has left, or there. -/
structure ReadCall where
  seek : Option UInt32
  count : UInt32

structure ReadEntry where
  pos : Nat
  count : Nat
  result : ReadResult

/-- A sequence of calls with one `*pos`. -/
def readCalls (mem : Memory UInt8) (file : DfsFile) : Nat → List ReadCall → List ReadEntry
  | _, [] => []
  | pos, c :: calls =>
    let pos := (c.seek.map UInt32.toNat).getD pos
    let result := dfsRomfsRead mem file.data c.count.toNat pos
    { pos, count := c.count.toNat, result } :: readCalls mem file result.pos calls

/-! ## What a tree is -/

section Tree

variable (mem : Memory UInt8) (root : Nat)

inductive Reached : Nat → Prop
  | root : Reached root
  | entry {d i : Nat} (h : Reached d) (hdir : direntType mem d = ROMFS_DIRENT_DIR)
      (hi : i < direntSize mem d) : Reached (direntData mem d + 16 * i)

/-- A tree below the record of a directory, all of whose records pass `check_dirent`. -/
structure RomTree : Prop where
  dir : direntType mem root = ROMFS_DIRENT_DIR
  checked : ∀ d, Reached mem root d → checkDirent mem d = 0
  apart : ∀ d i, Reached mem root d → direntType mem d = ROMFS_DIRENT_DIR → i < direntSize mem d →
    direntData mem d + 16 * i ≠ root

/-- The entry of the directory that has the name; the first one, where there are several. -/
def Named (d : Nat) (name : List UInt8) (e : Nat) : Prop :=
  ∃ i < direntSize mem d, e = direntData mem d + 16 * i ∧ SameName mem e name ∧
    ∀ j < i, ¬SameName mem (direntData mem d + 16 * j) name

inductive Leads : Nat → List (List UInt8) → Nat → Prop
  | here (d : Nat) : Leads d [] d
  | down {d e t : Nat} {name : List UInt8} {names : List (List UInt8)}
      (hdir : direntType mem d = ROMFS_DIRENT_DIR) (hname : Named mem d name e)
      (h : Leads e names t) : Leads d (name :: names) t

end Tree

/-- The path is opened if and only if its parts lead to an entry, and then the file has that entry. -/
structure OpensRight (mem : Memory UInt8) (root : Nat) (file : DfsFile) (path : List UInt8) : Prop where
  succeeds : (dfsRomfsOpen mem root (some file) path).1 = 0 ↔ ∃ t, Leads mem root (segments 47 path) t
  selects : ∀ t, Leads mem root (segments 47 path) t →
    (dfsRomfsOpen mem root (some file) path).2 = some { file with data := t }

def fileBytes (mem : Memory UInt8) (d : Nat) : List UInt8 := mem.read (direntData mem d) (direntSize mem d)

/-- The bytes from the position on, no more than the file has; none from its end on. -/
def ReadEntry.Right (bytes : List UInt8) (e : ReadEntry) : Prop :=
  e.result = { ret := min e.count (bytes.length - e.pos)
               buf := (bytes.drop e.pos).take e.count
               pos := e.pos + min e.count (bytes.length - e.pos) }

/-- A path without parts is `/`, and no part but the last one leads to a file. -/
structure PathFits (mem : Memory UInt8) (root : Nat) (path : List UInt8) : Prop where
  slash : segments 47 path = [] → path = [47]
  folders : ∀ front rest d, segments 47 path = front ++ rest → rest ≠ [] → Leads mem root front d →
    direntType mem d = ROMFS_DIRENT_DIR

/-! ## The lookup -/

variable {mem : Memory UInt8} {root : Nat}

variable {name : List UInt8} {e d t : Nat} {names : List (List UInt8)} {path : List UInt8}

theorem searchFolder_iff {n a : Nat} (h : ∀ i < n, checkDirent mem (a + 16 * i) = 0) :
    searchFolder mem name n a = some e ↔
      ∃ i < n, e = a + 16 * i ∧ SameName mem e name ∧ ∀ j < i, ¬SameName mem (a + 16 * j) name := by
  induction n generalizing a with
  | zero => simp [searchFolder]
  | succ n ih =>
    have hrest : ∀ i < n, checkDirent mem (a + 16 + 16 * i) = 0 := fun i hi => by
      rw [show a + 16 + 16 * i = a + 16 * (i + 1) by omega]
      exact h (i + 1) (by omega)
    have hfirst : checkDirent mem a = 0 := by simpa using h 0 (by omega)
    simp only [searchFolder, hfirst, ne_eq, not_true_eq_false, if_false]
    by_cases hname : SameName mem a name
    · rw [if_pos hname, Option.some.injEq]
      constructor
      · rintro rfl
        exact ⟨0, by omega, by simp, hname, by simp⟩
      · rintro ⟨i, -, rfl, -, hnone⟩
        cases i with
        | zero => simp
        | succ i => exact absurd (by simpa using hname) (hnone 0 (by omega))
    · rw [if_neg hname, ih hrest]
      constructor
      · rintro ⟨i, hi, rfl, hsame, hnone⟩
        refine ⟨i + 1, by omega, by omega, hsame, fun j hj => ?_⟩
        cases j with
        | zero => simpa using hname
        | succ j =>
          rw [show a + 16 * (j + 1) = a + 16 + 16 * j by omega]
          exact hnone j (by omega)
      · rintro ⟨i, hi, rfl, hsame, hnone⟩
        cases i with
        | zero => exact absurd (by simpa using hsame) hname
        | succ i =>
          refine ⟨i, by omega, by omega, hsame, fun j hj => ?_⟩
          rw [show a + 16 + 16 * j = a + 16 * (j + 1) by omega]
          exact hnone (j + 1) (by omega)

namespace RomTree

variable {d : Nat}

theorem data_ne_zero (h : RomTree mem root) (hd : Reached mem root d)
    (hdir : direntType mem d = ROMFS_DIRENT_DIR) (hsize : 0 < direntSize mem d) :
    direntData mem d ≠ 0 := by
  intro hzero
  have hfirst := h.checked _ (hd.entry hdir hsize)
  simp [hzero, checkDirent] at hfirst

theorem searchFolder_iff_named (h : RomTree mem root) (hd : Reached mem root d)
    (hdir : direntType mem d = ROMFS_DIRENT_DIR) :
    searchFolder mem name (direntSize mem d) (direntData mem d) = some e ↔ Named mem d name e :=
  searchFolder_iff fun _ hi => h.checked _ (hd.entry hdir hi)

theorem reached_of_named (hd : Reached mem root d) (hdir : direntType mem d = ROMFS_DIRENT_DIR)
    (hname : Named mem d name e) : Reached mem root e := by
  obtain ⟨i, hi, rfl, -, -⟩ := hname
  exact hd.entry hdir hi

end RomTree

theorem named_unique {e' : Nat} (h : Named mem d name e) (h' : Named mem d name e') : e = e' := by
  obtain ⟨i, -, rfl, hsame, hnone⟩ := h
  obtain ⟨j, -, rfl, hsame', hnone'⟩ := h'
  rcases Nat.lt_trichotomy i j with hlt | heq | hgt
  · exact absurd hsame (hnone' i hlt)
  · rw [heq]
  · exact absurd hsame' (hnone j hgt)

namespace Leads

variable {d t : Nat} {name : List UInt8} {names : List (List UInt8)}

theorem nil_iff : Leads mem d [] t ↔ t = d := by
  constructor
  · intro h
    cases h
    rfl
  · rintro rfl
    exact .here t

theorem cons_iff : Leads mem d (name :: names) t ↔
    direntType mem d = ROMFS_DIRENT_DIR ∧ ∃ e, Named mem d name e ∧ Leads mem e names t := by
  constructor
  · intro h
    cases h with
    | down hdir hname hrest => exact ⟨hdir, _, hname, hrest⟩
  · rintro ⟨hdir, e, hname, hrest⟩
    exact .down hdir hname hrest

theorem unique {t' : Nat} (h : Leads mem d names t) (h' : Leads mem d names t') : t = t' := by
  induction h with
  | here d => exact (nil_iff.mp h').symm
  | down _ hname _ ih =>
    obtain ⟨-, e', hname', hrest'⟩ := cons_iff.mp h'
    cases named_unique hname hname'
    exact ih hrest'

theorem append_iff {front rest : List (List UInt8)} :
    Leads mem d (front ++ rest) t ↔ ∃ e, Leads mem d front e ∧ Leads mem e rest t := by
  induction front generalizing d with
  | nil => simp [nil_iff]
  | cons name front ih =>
    simp only [cons_append, cons_iff, ih]
    constructor
    · rintro ⟨hdir, e, hname, e', hfront, hrest⟩
      exact ⟨e', ⟨hdir, e, hname, hfront⟩, hrest⟩
    · rintro ⟨e', ⟨hdir, e, hname, hfront⟩, hrest⟩
      exact ⟨hdir, e, hname, e', hfront, hrest⟩

end Leads

def StopsAt (mem : Memory UInt8) (d : Nat) (names : List (List UInt8)) (t : Nat) : Prop :=
  ∃ front rest, names = front ++ rest ∧ front ≠ [] ∧ rest ≠ [] ∧ Leads mem d front t ∧
    direntType mem t ≠ ROMFS_DIRENT_DIR

theorem stopsAt_cons_iff :
    StopsAt mem d (name :: names) t ↔ direntType mem d = ROMFS_DIRENT_DIR ∧ ∃ e, Named mem d name e ∧
      (names ≠ [] ∧ t = e ∧ direntType mem e ≠ ROMFS_DIRENT_DIR ∨ StopsAt mem e names t) := by
  constructor
  · rintro ⟨front, rest, hnames, hfront, hrest, hleads, hfile⟩
    cases front with
    | nil => exact absurd rfl hfront
    | cons name' front =>
      obtain ⟨rfl, rfl⟩ := List.cons.inj hnames
      obtain ⟨hdir, e, hname, hleads⟩ := Leads.cons_iff.mp hleads
      refine ⟨hdir, e, hname, ?_⟩
      by_cases hnil : front = []
      · subst hnil
        obtain rfl := Leads.nil_iff.mp hleads
        exact .inl ⟨by simpa using hrest, rfl, hfile⟩
      · exact .inr ⟨front, rest, rfl, hnil, hrest, hleads, hfile⟩
  · rintro ⟨hdir, e, hname, ⟨hmore, rfl, hfile⟩ | ⟨front, rest, rfl, hfront, hrest, hleads, hfile⟩⟩
    · exact ⟨[name], names, rfl, by simp, hmore, .down hdir hname (.here _), hfile⟩
    · exact ⟨name :: front, rest, rfl, by simp, hrest, .down hdir hname hleads, hfile⟩

theorem RomTree.lookupLoop_eq (h : RomTree mem root) (hd : Reached mem root d)
    (hdir : direntType mem d = ROMFS_DIRENT_DIR) (hrel : path.head? ≠ some 47)
    (hsegs : segments 47 path = name :: names) (hname : Named mem d name e) :
    lookupLoop mem (direntData mem d) (direntSize mem d) path =
      if names = [] then some (e, some (direntSize mem e))
      else if direntType mem e = ROMFS_DIRENT_DIR then
        lookupLoop mem (direntData mem e) (direntSize mem e) (nextSubpath path)
      else some (e, none) := by
  obtain ⟨hfront, -, -, hend⟩ := front_segment hrel hsegs
  have hsize : 0 < direntSize mem d := by
    obtain ⟨i, hi, -⟩ := hname
    omega
  have hsearch := (h.searchFolder_iff_named hd hdir).mpr hname
  rw [lookupLoop, if_neg (h.data_ne_zero hd hdir hsize), hfront]
  simp only [hsearch, hend]

/-- **What the lookup returns**: the entry that the parts lead to, or a file that they go on behind. -/
theorem RomTree.lookupLoop_iff (h : RomTree mem root) :
    ∀ {d : Nat} {path : List UInt8} {t : Nat}, Reached mem root d →
    direntType mem d = ROMFS_DIRENT_DIR → path.head? ≠ some 47 → segments 47 path = names →
    names ≠ [] →
    ((lookupLoop mem (direntData mem d) (direntSize mem d) path).map Prod.fst = some t ↔
      Leads mem d names t ∨ StopsAt mem d names t) := by
  induction names with
  | nil => intro d path t _ _ _ _ hne; exact absurd rfl hne
  | cons name names ih =>
    intro d path t hd hdir hrel hsegs _
    rw [Leads.cons_iff, stopsAt_cons_iff]
    by_cases hfound : ∃ e, Named mem d name e
    · obtain ⟨e, hname⟩ := hfound
      have honly : ∀ {P : Nat → Prop}, (∃ e, Named mem d name e ∧ P e) ↔ P e := by
        intro P
        constructor
        · rintro ⟨e', hname', hP⟩
          rwa [named_unique hname hname']
        · exact fun hP => ⟨e, hname, hP⟩
      simp only [hdir, true_and, honly, h.lookupLoop_eq hd hdir hrel hsegs hname]
      by_cases hlast : names = []
      · subst hlast
        have hstop : ¬StopsAt mem e [] t := by
          rintro ⟨front, rest, hnames, hfront, -⟩
          exact hfront (append_eq_nil_iff.mp hnames.symm).1
        simp [Leads.nil_iff, hstop, eq_comm]
      · rw [if_neg hlast]
        by_cases hsub : direntType mem e = ROMFS_DIRENT_DIR
        · obtain ⟨-, hnext, hrel', -⟩ := front_segment hrel hsegs
          have hreached := RomTree.reached_of_named hd hdir hname
          rw [if_pos hsub, ih hreached hsub hrel' hnext hlast]
          simp [hsub]
        · -- behind a file there is nothing
          obtain ⟨name', names', rfl⟩ := exists_cons_of_ne_nil hlast
          simp [hsub, Leads.cons_iff, stopsAt_cons_iff, eq_comm]
    · have hnone : searchFolder mem name (direntSize mem d) (direntData mem d) = none := by
        rw [Option.eq_none_iff_forall_ne_some]
        intro e he
        exact hfound ⟨e, (h.searchFolder_iff_named hd hdir).mp he⟩
      obtain ⟨hfront, -⟩ := front_segment hrel hsegs
      have hloop : lookupLoop mem (direntData mem d) (direntSize mem d) path = none := by
        rw [lookupLoop, hfront]
        simp only [hnone]
        exact ite_self _
      rw [hloop]
      constructor
      · intro hsome
        cases hsome
      · rintro (⟨-, e, hname, -⟩ | ⟨-, e, hname, -⟩) <;> exact absurd ⟨e, hname⟩ hfound

/-! ## Opening -/

theorem Leads.not_stopsAt {t' : Nat} (h : Leads mem d names t) : ¬StopsAt mem d names t' := by
  rintro ⟨front, rest, rfl, -, hrest, hfront, hfile⟩
  obtain ⟨e, hleads, hmore⟩ := Leads.append_iff.mp h
  cases hleads.unique hfront
  obtain ⟨name, rest, rfl⟩ := exists_cons_of_ne_nil hrest
  exact hfile (Leads.cons_iff.mp hmore).1

section

variable (h : RomTree mem root)
include h

theorem pathFits_iff : PathFits mem root path ↔ (segments 47 path = [] → path = [47]) ∧
      ∀ t, ¬StopsAt mem root (segments 47 path) t := by
  constructor
  · rintro ⟨hslash, hfolders⟩
    refine ⟨hslash, ?_⟩
    rintro t ⟨front, rest, hnames, -, hrest, hleads, hfile⟩
    exact hfile (hfolders front rest t hnames hrest hleads)
  · rintro ⟨hslash, hstop⟩
    refine ⟨hslash, fun front rest d hnames hrest hleads => ?_⟩
    by_contra hfile
    have hfront : front ≠ [] := by
      rintro rfl
      rw [Leads.nil_iff.mp hleads] at hfile
      exact hfile h.dir
    exact hstop d ⟨front, rest, hnames, hfront, hrest, hleads, hfile⟩

theorem RomTree.open_eq (file : DfsFile) (path : List UInt8) :
    dfsRomfsOpen mem root (some file) path =
      match (dfsRomfsLookup mem root path).map Prod.fst with
      | none => (-6, some file)
      | some t => (0, some { file with data := t }) := by
  have hroot := h.checked root .root
  simp only [dfsRomfsOpen, hroot, ne_eq, not_true_eq_false, if_false]
  cases dfsRomfsLookup mem root path with
  | none | some found => rfl

theorem RomTree.opensRight_iff_lookup (file : DfsFile) : OpensRight mem root file path ↔
      ∀ t, (dfsRomfsLookup mem root path).map Prod.fst = some t ↔
        Leads mem root (segments 47 path) t := by
  have hopen := h.open_eq file path
  cases hfound : (dfsRomfsLookup mem root path).map Prod.fst with
  | none =>
    rw [hfound] at hopen
    constructor
    · rintro ⟨hsucceeds, -⟩ t
      rw [hopen] at hsucceeds
      constructor
      · intro hsome
        cases hsome
      · intro hleads
        exact absurd (hsucceeds.mpr ⟨t, hleads⟩) (by simp)
    · intro hall
      have hnone : ∀ t, ¬Leads mem root (segments 47 path) t := fun t hleads => by
        cases (hall t).mpr hleads
      exact ⟨by simp [hopen, hnone], fun t hleads => absurd hleads (hnone t)⟩
  | some found =>
    rw [hfound] at hopen
    constructor
    · rintro ⟨hsucceeds, hselects⟩ t
      rw [hopen] at hsucceeds hselects
      obtain ⟨t', hleads'⟩ := hsucceeds.mp rfl
      have hfile := hselects t' hleads'
      simp only [Option.some.injEq, DfsFile.mk.injEq] at hfile
      subst hfile
      constructor
      · intro hsome
        cases hsome
        exact hleads'
      · intro hleads
        rw [hleads'.unique hleads]
    · intro hall
      have hleads := (hall found).mp rfl
      refine ⟨by simp only [hopen, true_iff]; exact ⟨found, hleads⟩, fun t hleads' => ?_⟩
      rw [hopen, hleads.unique hleads']

theorem RomTree.lookup_no_part (hsegs : segments 47 path = [])
    (hpath : path ≠ [47]) (hfound : (dfsRomfsLookup mem root path).map Prod.fst = some t) :
    ∃ i < direntSize mem root, t = direntData mem root + 16 * i := by
  have hskip : skipSlashes path = [] := dropWhile_eq_nil_iff_segments.mpr hsegs
  have hnext : nextSubpath [] = [] := rfl
  unfold dfsRomfsLookup at hfound
  rw [if_neg (by simp [h.checked root .root]), if_neg hpath, hskip, lookupLoop] at hfound
  by_cases hdata : direntData mem root = 0
  · simp [hdata] at hfound
  · rw [if_neg hdata, takeWhile_nil] at hfound
    cases hsearch : searchFolder mem [] (direntSize mem root) (direntData mem root) with
    | none => simp [hsearch] at hfound
    | some e =>
      obtain ⟨i, hi, rfl, -⟩ := (h.searchFolder_iff_named .root h.dir).mp hsearch
      simp only [hsearch, hnext, if_true, Option.map_some, Option.some.injEq] at hfound
      exact ⟨i, hi, hfound.symm⟩

theorem RomTree.lookup_iff (hsegs : segments 47 path ≠ []) :
    (dfsRomfsLookup mem root path).map Prod.fst = some t ↔
      Leads mem root (segments 47 path) t ∨ StopsAt mem root (segments 47 path) t := by
  rw [dfsRomfsLookup_path (h.checked root .root) rfl rfl hsegs]
  exact h.lookupLoop_iff .root h.dir (head_dropWhile_sep path) (segments_dropWhile path) hsegs

/-- **A path is opened as it should be** if and only if it fits. -/
theorem RomTree.opensRight_iff (file : DfsFile) :
    OpensRight mem root file path ↔ PathFits mem root path := by
  rw [h.opensRight_iff_lookup file, pathFits_iff h]
  by_cases hsegs : segments 47 path = []
  · have hcheck := h.checked root .root
    have hstop : ∀ t, ¬StopsAt mem root [] t := by
      rintro t ⟨front, rest, hnames, hfront, -⟩
      exact hfront (append_eq_nil_iff.mp hnames.symm).1
    simp only [hsegs, Leads.nil_iff, hstop, not_false_eq_true, implies_true, and_true, forall_const]
    constructor
    · intro hall
      by_contra hpath
      obtain ⟨i, hi, hroot⟩ := h.lookup_no_part hsegs hpath ((hall root).mpr rfl)
      exact h.apart root i .root h.dir hi hroot.symm
    · rintro rfl t
      simp [dfsRomfsLookup, hcheck, eq_comm]
  · simp only [h.lookup_iff hsegs, hsegs, false_implies, true_and]
    constructor
    · intro hall t hstop
      exact ((hall t).mp (.inr hstop)).not_stopsAt hstop
    · intro hstop t
      simp [hstop t]

end

theorem Reached.leads (hd : Reached mem root d) (h : Leads mem d names t) : Reached mem root t := by
  induction h with
  | here d => exact hd
  | down hdir hname _ ih => exact ih (RomTree.reached_of_named hd hdir hname)

theorem RomTree.reached_of_open (h : RomTree mem root) {file opened : DfsFile}
    (hopen : dfsRomfsOpen mem root (some file) path = (0, some opened)) :
    Reached mem root opened.data := by
  rw [h.open_eq] at hopen
  cases hfound : (dfsRomfsLookup mem root path).map Prod.fst with
  | none => simp [hfound] at hopen
  | some t =>
    obtain rfl : t = opened.data := by
      simp only [hfound, Prod.mk.injEq, Option.some.injEq, true_and] at hopen
      rw [← hopen]
    by_cases hsegs : segments 47 path = []
    · by_cases hpath : path = [47]
      · have hroot : opened.data = root := by
          simpa [dfsRomfsLookup, hpath, h.checked root .root, eq_comm] using hfound
        rw [hroot]
        exact .root
      · obtain ⟨i, hi, hentry⟩ := h.lookup_no_part hsegs hpath hfound
        rw [hentry]
        exact Reached.root.entry h.dir hi
    · rcases (h.lookup_iff hsegs).mp hfound with hleads | ⟨front, -, -, -, -, hleads, -⟩ <;>
      · exact Reached.root.leads hleads

/-! ## Reading -/

theorem direntSize_lt (mem : Memory UInt8) (d : Nat) : direntSize mem d < 2 ^ 32 := by
  have h0 := (mem (d + 12)).toNat_lt
  have h1 := (mem (d + 12 + 1)).toNat_lt
  have h2 := (mem (d + 12 + 2)).toNat_lt
  have h3 := (mem (d + 12 + 3)).toNat_lt
  unfold direntSize word
  omega

@[simp] theorem length_fileBytes (mem : Memory UInt8) (d : Nat) :
    (fileBytes mem d).length = direntSize mem d := by
  simp [fileBytes]

section Read

variable {d pos count : Nat}

section

variable (hcheck : checkDirent mem d = 0)
include hcheck

theorem dfsRomfsRead_eq : dfsRomfsRead mem d count pos =
      let length := min count ((direntSize mem d + 2 ^ 32 - pos) % 2 ^ 32)
      { ret := length
        buf := mem.read (direntData mem d + pos) length
        pos := (pos + length) % 2 ^ 32 } := by
  have hmin : ∀ a b : Nat, (if a < b then a else b) = min a b := fun a b => by
    split <;> omega
  simp only [dfsRomfsRead, hcheck, ne_eq, not_true_eq_false, if_false, hmin]

theorem read_inside (hpos : pos ≤ direntSize mem d) :
    ReadEntry.Right (fileBytes mem d) { pos, count, result := dfsRomfsRead mem d count pos } := by
  have hsize := direntSize_lt mem d
  have hleft : (direntSize mem d + 2 ^ 32 - pos) % 2 ^ 32 = direntSize mem d - pos := by omega
  have hend : pos + min count (direntSize mem d - pos) ≤ direntSize mem d := by omega
  have hbytes : mem.read (direntData mem d + pos) (min count (direntSize mem d - pos))
      = ((fileBytes mem d).drop pos).take count := by
    rw [← take_drop_read mem hend, fileBytes]
    conv_rhs => rw [take_eq_take_min, length_drop, length_read]
  unfold ReadEntry.Right
  simp only [dfsRomfsRead_eq hcheck, hleft, hbytes, length_fileBytes, ReadResult.mk.injEq, true_and]
  exact Nat.mod_eq_of_lt (by omega)

theorem read_outside (hpos : direntSize mem d < pos) (hlt : pos < 2 ^ 32) :
    ReadEntry.Right (fileBytes mem d) { pos, count, result := dfsRomfsRead mem d count pos } ↔
      count = 0 := by
  have hnone : direntSize mem d - pos = 0 := by omega
  have hleft : (direntSize mem d + 2 ^ 32 - pos) % 2 ^ 32 = direntSize mem d + 2 ^ 32 - pos := by omega
  unfold ReadEntry.Right
  simp only [dfsRomfsRead_eq hcheck, hleft, length_fileBytes, hnone, Nat.min_zero]
  constructor
  · intro hright
    have hret : min count (direntSize mem d + 2 ^ 32 - pos) = 0 := congrArg ReadResult.ret hright
    omega
  · rintro rfl
    rw [Nat.zero_min, Nat.add_zero, Nat.mod_eq_of_lt hlt]
    rfl

theorem readCalls_entry {calls : List ReadCall} {start : Nat}
    (hstart : start < 2 ^ 32) {e : ReadEntry} (he : e ∈ readCalls mem ⟨d⟩ start calls) :
    e.pos < 2 ^ 32 ∧ e.result = dfsRomfsRead mem d e.count e.pos := by
  induction calls generalizing start with
  | nil => simp [readCalls] at he
  | cons c calls ih =>
    have hpos : (c.seek.map UInt32.toNat).getD start < 2 ^ 32 := by
      cases c.seek with
      | none => exact hstart
      | some pos => exact pos.toNat_lt
    rw [readCalls] at he
    rcases mem_cons.mp he with rfl | hrest
    · exact ⟨hpos, rfl⟩
    · refine ih ?_ hrest
      rw [dfsRomfsRead_eq hcheck]
      exact Nat.mod_lt _ (by decide)

/-- **A read is right** if and only if it does not begin behind the end, or asks for nothing. -/
theorem readCalls_right_iff {calls : List ReadCall} {start : Nat}
    (hstart : start < 2 ^ 32) {e : ReadEntry} (he : e ∈ readCalls mem ⟨d⟩ start calls) :
    e.Right (fileBytes mem d) ↔ e.pos ≤ direntSize mem d ∨ e.count = 0 := by
  obtain ⟨hpos, hresult⟩ := readCalls_entry hcheck hstart he
  obtain ⟨pos, count, result⟩ := e
  dsimp only at hpos hresult ⊢
  subst hresult
  by_cases hinside : pos ≤ direntSize mem d
  · simp [hinside, read_inside hcheck hinside]
  · rw [read_outside hcheck (by omega) hpos]
    simp [hinside]

end

end Read

/-- **Which paths are opened and which reads are right**, in every tree. -/
theorem opens_and_reads_iff (h : RomTree mem root) :
    (∀ (file : DfsFile) (path : List UInt8),
      OpensRight mem root file path ↔ PathFits mem root path) ∧
    ∀ (file opened : DfsFile) (path : List UInt8),
      dfsRomfsOpen mem root (some file) path = (0, some opened) →
      direntType mem opened.data = ROMFS_DIRENT_FILE →
      ∀ (start : UInt32) (calls : List ReadCall), ∀ e ∈ readCalls mem opened start.toNat calls,
        e.Right (fileBytes mem opened.data) ↔ e.pos ≤ direntSize mem opened.data ∨ e.count = 0 := by
  refine ⟨fun file path => h.opensRight_iff file, ?_⟩
  intro file opened path hopen _ start calls e he
  exact readCalls_right_iff (h.checked _ (h.reached_of_open hopen)) start.toNat_lt he

/-- A root with the file `c`, which has three bytes. -/
def oneFile : Memory UInt8 :=
  Memory.write (fun _ => 0) 4096
    (le32 1 ++ le32 4130 ++ le32 4112 ++ le32 1 ++ (le32 0 ++ le32 4128 ++ le32 4132 ++ le32 3) ++
      [99, 0, 47, 0, 1, 2, 3, 0])

theorem oneFile_reached (h : Reached oneFile 4096 d) : d = 4096 ∨ d = 4112 := by
  induction h with
  | root => exact .inl rfl
  | @entry d i _ hdir hi ih =>
    rcases ih with rfl | rfl
    · have hone : i < 1 := hi
      obtain rfl : i = 0 := by omega
      exact .inr (by decide +kernel)
    · exact absurd hdir (by decide +kernel)

theorem oneFile_tree : RomTree oneFile 4096 where
  dir := by decide +kernel
  checked := by
    intro d hd
    rcases oneFile_reached hd with rfl | rfl <;> decide +kernel
  apart := by
    intro d i hd hdir hi
    rcases oneFile_reached hd with rfl | rfl
    · have hdata : direntData oneFile 4096 = 4112 := by decide +kernel
      omega
    · exact absurd hdir (by decide +kernel)

theorem oneFile_leads : Leads oneFile 4096 [[99]] 4112 :=
  .down (by decide +kernel) ⟨0, by decide +kernel, by decide +kernel, by decide +kernel, by simp⟩ (.here _)

/-- The path `//c/` is opened, and the file is read. -/
theorem opens_and_reads_oneFile :
    OpensRight oneFile 4096 ⟨0⟩ [47, 47, 99, 47] ∧
      ∀ e ∈ readCalls oneFile ⟨4112⟩ 1 [⟨none, 5⟩, ⟨some 0, 2⟩], e.Right [1, 2, 3] := by
  have hsegs : segments 47 [47, 47, 99, 47] = [[(99 : UInt8)]] := by decide
  have hfits : PathFits oneFile 4096 [47, 47, 99, 47] := by
    constructor
    · rw [hsegs]
      simp
    · intro front rest d hnames hrest hleads
      rw [hsegs] at hnames
      cases front with
      | nil =>
        rw [Leads.nil_iff.mp hleads]
        exact oneFile_tree.dir
      | cons name front =>
        have hnil : front ++ rest = [] := (List.cons.inj hnames).2.symm
        exact absurd (append_eq_nil_iff.mp hnil).2 hrest
  have hopens := ((opens_and_reads_iff oneFile_tree).1 ⟨0⟩ [47, 47, 99, 47]).mpr hfits
  have hleads : Leads oneFile 4096 (segments 47 [47, 47, 99, 47]) 4112 := by
    rw [hsegs]
    exact oneFile_leads
  have hopen : dfsRomfsOpen oneFile 4096 (some ⟨0⟩) [47, 47, 99, 47] = (0, some ⟨4112⟩) :=
    Prod.ext (hopens.succeeds.mpr ⟨4112, hleads⟩) (hopens.selects 4112 hleads)
  refine ⟨hopens, fun e he => ?_⟩
  have hbytes : fileBytes oneFile 4112 = [1, 2, 3] := by decide +kernel
  have hright := (opens_and_reads_iff oneFile_tree).2 _ _ _ hopen (by decide +kernel) 1 _ e he
  rw [hbytes] at hright
  refine hright.mpr (.inl ?_)
  have hinside : ∀ e ∈ readCalls oneFile ⟨4112⟩ 1 [⟨none, 5⟩, ⟨some 0, 2⟩],
      e.pos ≤ direntSize oneFile 4112 := by decide +kernel
  exact hinside e he

/-- `/c/x` opens the file `c`, `//` does not open the root, and a read behind the end of `c` returns a
byte that is not in the file. -/
theorem opens_and_reads_wrong :
    RomTree oneFile 4096 ∧ ¬OpensRight oneFile 4096 ⟨0⟩ [47, 99, 47, 120] ∧
      ¬OpensRight oneFile 4096 ⟨0⟩ [47, 47] ∧
      ∃ e ∈ readCalls oneFile ⟨4112⟩ 0 [⟨some 5, 1⟩], e.result.ret = 1 ∧
        ¬e.Right (fileBytes oneFile 4112) := by
  refine ⟨oneFile_tree, fun h => ?_, fun h => ?_, _, mem_singleton.mpr rfl, by decide +kernel, ?_⟩
  · have hfits := (oneFile_tree.opensRight_iff ⟨0⟩).mp h
    have hdir := hfits.folders [[99]] [[120]] 4112 (by decide) (by simp) oneFile_leads
    exact absurd hdir (by decide +kernel)
  · have hfits := (oneFile_tree.opensRight_iff ⟨0⟩).mp h
    exact absurd (hfits.slash (by decide)) (by decide)
  · unfold ReadEntry.Right
    decide +kernel

end Gpmx.Romfs
