import Gpmx.Infra.Accounts
import Gpmx.Infra.Runs
import Gpmx.PseudoFs.References

/-!
# Inode reference counts, over runs

Any number of threads, in any order of their sections. The counts of the inodes are the numbers of files,
streams and lookups that refer to them, and no inode is freed while there is one, in every run without
these:

* a directory gets its first child after `rmdir` or `nx_unlink` has looked at it, and before it is taken
  out of the tree
* the old path of a `rename` no longer leads to the inode that was looked up
* `open_pseudodir` or `seek_pseudodir` reads the first child without the semaphore, and that child is
  freed before it is counted
-/

namespace Gpmx.PseudoFs

open Infra Option List

/-! ## Tables -/

def slotRefs (slot : Option File) : List Addr := slot.elim [] File.refs

def Thread.refs (t : Thread) : List Addr := t.files.flatMap slotRefs ++ t.call.refs

section Tables

variable {list list' : FileList} {file : File} {room : Bool} {fd : Nat}

theorem filesExtend_eq {row : Nat} (h : filesExtend list row room = some list') :
    ∃ n, list' = list ++ List.replicate n none ∧ row * perBlock ≤ list.length + n := by
  unfold filesExtend at h
  split_ifs at h with hlong
  · cases h
    exact ⟨0, by simp, hlong⟩
  · cases h
    exact ⟨_, rfl, by omega⟩

theorem count_filesExtend {row : Nat} (h : filesExtend list row room = some list') (a : Addr) :
    (list'.flatMap slotRefs).count a = (list.flatMap slotRefs).count a := by
  obtain ⟨n, rfl, -⟩ := filesExtend_eq h
  have hfree : (List.replicate n (none : Option File)).flatMap slotRefs = [] := by
    simp [flatMap_eq_nil_iff, slotRefs]
  rw [flatMap_append, hfree, append_nil]

theorem count_filesAllocate (h : filesAllocate list file room = some list') (a : Addr) :
    (list'.flatMap slotRefs).count a = (list.flatMap slotRefs).count a + file.refs.count a := by
  unfold filesAllocate at h
  split at h
  · next fd hfd =>
    cases h
    obtain ⟨hlt, hnone, -⟩ := findIdx?_eq_some_iff_getElem.mp hfd
    have hslot : list[fd]? = some none := by
      rw [getElem?_eq_getElem hlt, isNone_iff_eq_none.mp hnone]
    exact count_flatMap_set slotRefs hslot (some file) a
  · obtain ⟨list₁, hextend, rfl⟩ := map_eq_some_iff.mp h
    obtain ⟨n, hlist₁, hlong⟩ := filesExtend_eq hextend
    have hpos : 0 < n := by
      unfold perBlock at hlong
      omega
    have hslot : list₁[list.length]? = some none := by
      rw [hlist₁, getElem?_append_right (Nat.le_refl _), Nat.sub_self,
        getElem?_replicate_of_lt hpos]
    have hset := count_flatMap_set slotRefs hslot (some file) a
    rw [count_filesExtend hextend] at hset
    exact hset

end Tables

/-! ## What a section can do -/

def Call.Frees (fs : Fs) (a : Addr) : Call → Prop
  | .remove path _ => Finds fs path a ∧ fs.crefs a = 0
  | .release inode _ => a = inode ∧ fs.crefs a ≤ 1 ∧ ∃ d, fs.data a = some d ∧ d.deleted = true
  | _ => False

def Call.Undisturbed (fs : Fs) (answers : List Addr) : Call → Prop
  | .remove path _ => ∀ a, Finds fs path a → fs.target (.child a) = none
  | .move oldpath oldinode newpath => StillFinds fs oldpath oldinode newpath answers
  | _ => True

structure Progress (fs fs' : Fs) (t t' : Thread) (frees : Addr → Prop) : Prop where
  tidy : fs'.Tidy
  count : ∀ a, fs'.crefs a + t.refs.count a = fs.crefs a + t'.refs.count a
  freed : ∀ a, fs'.data a = none → fs.data a = none ∨ frees a
  aside : ∀ g, fs.Aside g → fs'.Aside g
  noted : ∀ a, t'.call.noted = some a → fs'.data a ≠ none ∨ t.call.noted = some a

section Threads

variable {fs fs' : Fs} {t t' : Thread} {frees : Addr → Prop}

theorem Section.progress (h : Section fs fs' t.call.refs t'.call)
    (hfiles : ∀ a, (t'.files.flatMap slotRefs).count a = (t.files.flatMap slotRefs).count a) :
    Progress fs fs' t t' frees where
  tidy := h.tidy
  count a := by
    have hcount := h.count a
    rw [Thread.refs, Thread.refs, count_append, count_append, hfiles]
    omega
  freed a ha := .inl (h.kept a ha)
  aside := h.aside
  noted a ha := .inl (h.noted a ha)

theorem Progress.same (hfs : fs.Tidy) (hrefs : ∀ a, t.refs.count a = t'.refs.count a)
    (hnoted : t'.call.noted = none) : Progress fs fs t t' frees where
  tidy := hfs
  count a := by rw [hrefs]
  freed _ h := .inl h
  aside _ h := h
  noted a ha := by
    rw [hnoted] at ha
    cases ha

theorem Progress.addref {a : Addr} (hfs : fs.Tidy) (h : fs.onInode a Inode.addref = some fs')
    (hrefs : ∀ b, t'.refs.count b = t.refs.count b + [a].count b) (hnoted : t'.call.noted = none) :
    Progress fs fs' t t' frees where
  tidy := hfs.onInode h fun _ => rfl
  count b := by
    rw [crefs_addref h, hrefs]
    omega
  freed b hb := .inl (data_onInode h hb)
  aside g hg := hg.addref h
  noted b hb := by
    rw [hnoted] at hb
    cases hb

variable {fd : Nat} {file : File} {gDirInode : Addr} {size n : Nat} {root : Addr}

theorem Thread.slot_of_file (h : t.file fd = some file) :
    t.files[fd]? = some (some file) := Option.join_eq_some_iff.mp h

theorem Advances.progress {dir dir' : Dir} {call : Call} (h : Advances fs fs' dir dir' call)
    (hfile : t.file fd = some file) (hdir : file.fPriv = some dir) (hcall : t.call.refs = []) :
    Progress fs fs' t ⟨t.files.set fd (some { file with fPriv := some dir' }), call⟩ frees := by
  refine ⟨h.tidy, fun a => ?_, fun a ha => .inl (h.kept a ha), h.aside, by simp [h.noted]⟩
  have hset := count_flatMap_set slotRefs (Thread.slot_of_file hfile)
    (some { file with fPriv := some dir' }) a
  have hcount := h.count a
  simp only [slotRefs, Option.elim, File.refs, hdir, count_cons] at hset
  simp only [Thread.refs, count_append, hcall, count_nil]
  omega

theorem Thread.file_there {a : Addr} (hheld : ∀ a, t.refs.count a ≤ fs.crefs a)
    (hfile : t.file fd = some file) (ha : a ∈ file.refs) : fs.data a ≠ none := by
  intro hnone
  have hset := count_flatMap_set slotRefs (Thread.slot_of_file hfile) none a
  have hcount : t.refs.count a ≤ 0 := Fs.crefs_of_none hnone ▸ hheld a
  have hpos : 0 < file.refs.count a := count_pos_iff.mpr ha
  simp only [Thread.refs, count_append] at hcount
  simp only [slotRefs, Option.elim, count_nil] at hset
  omega

theorem begin_progress {act : Act} (hfs : fs.Tidy) (hheld : ∀ a, t.refs.count a ≤ fs.crefs a)
    (hidle : t.call = .idle)
    (h : t.begin fs act = some (t', fs')) : Progress fs fs' t t' frees := by
  obtain ⟨files, call⟩ := t
  subst hidle
  cases act with
  | «open» path directory access opens =>
    obtain ⟨⟨call, fs₁⟩, hopen, h⟩ := bind_eq_some_iff.mp h
    cases h
    exact (fileVopen_section hfs hopen).progress fun _ => rfl
  | close fd =>
    obtain ⟨file, hfile, h⟩ := bind_eq_some_iff.mp h
    cases h
    refine .same hfs (fun a => ?_) (noted_fileClose file)
    have hset := count_flatMap_set slotRefs (Thread.slot_of_file hfile) none a
    simp only [Thread.refs, count_append, refs_fileClose]
    simp only [slotRefs, Option.elim, count_nil] at hset
    omega
  | dup fd opens =>
    obtain ⟨file, hfile, h⟩ := bind_eq_some_iff.mp h
    obtain ⟨⟨call, fs₁⟩, hdup, h⟩ := bind_eq_some_iff.mp h
    cases h
    exact (fileDup2_section hfs hdup).progress fun _ => rfl
  | dup2 fd1 fd2 opens room =>
    obtain ⟨files', hextend, h⟩ := bind_eq_some_iff.mp h
    have hfiles := count_filesExtend hextend
    split at h
    · cases h
      refine Section.progress ?_ hfiles
      exact .refl hfs rfl nofun
    · split at h
      · cases h
        refine Section.progress ?_ hfiles
        exact .refl hfs rfl nofun
      · obtain ⟨⟨call, fs₁⟩, hdup, h⟩ := bind_eq_some_iff.mp h
        cases h
        exact (fileDup2_section hfs hdup).progress hfiles
  | readdir fd =>
    obtain ⟨file, hfile, h⟩ := bind_eq_some_iff.mp h
    obtain ⟨dir, hdir, h⟩ := bind_eq_some_iff.mp h
    obtain ⟨⟨dir', call, fs₁⟩, hread, h⟩ := bind_eq_some_iff.mp h
    cases h
    exact (readPseudodir_advances hfs hread).progress hfile hdir rfl
  | seek fd offset =>
    obtain ⟨file, hfile, h⟩ := bind_eq_some_iff.mp h
    obtain ⟨dir, hdir, h⟩ := bind_eq_some_iff.mp h
    obtain ⟨call, hseek, h⟩ := bind_eq_some_iff.mp h
    cases h
    refine Section.progress (dirSeek_section hfs (fun a ha => ?_) hseek) fun _ => rfl
    exact Thread.file_there hheld hfile (by simp [File.refs, hdir, Dir.refs, ha])
  | mkdir path =>
    obtain ⟨⟨call, fs₁⟩, hmkdir, h⟩ := bind_eq_some_iff.mp h
    cases h
    exact (mkdir_section hfs hmkdir).progress fun _ => rfl
  | rmdir path =>
    obtain ⟨⟨call, fs₁⟩, hrmdir, h⟩ := bind_eq_some_iff.mp h
    cases h
    exact (rmdir_section hfs hrmdir).progress fun _ => rfl
  | unlink path unlinked =>
    obtain ⟨⟨call, fs₁⟩, hunlink, h⟩ := bind_eq_some_iff.mp h
    cases h
    exact (nxUnlink_section hfs hunlink).progress fun _ => rfl
  | rename oldpath newpath renames =>
    obtain ⟨⟨call, fs₁⟩, hrename, h⟩ := bind_eq_some_iff.mp h
    cases h
    exact (rename_section hfs hrename).progress fun _ => rfl
  | registerDriver path fops priv answers =>
    obtain ⟨fs₁, hregister, h⟩ := bind_eq_some_iff.mp h
    cases h
    exact (registerDriver_section hfs hregister).progress fun _ => rfl
  | goOn answers room => cases h

theorem opened_progress {fd : Option Nat} {answers : List Addr} {room : Bool} (hfs : fs.Tidy)
    (hcall : t.call = .opened file fd) (h : t.goOn gDirInode fs answers room = some (t', fs')) :
    Progress fs fs' t t' frees := by
  obtain ⟨files, call⟩ := t
  subst hcall
  cases fd with
  | none =>
    simp only [Thread.goOn] at h
    split at h
    · next files' hallocate =>
      cases h
      refine .same hfs (fun a => ?_) rfl
      simp only [Thread.refs, count_append, count_filesAllocate hallocate, Call.refs, count_nil]
      omega
    · cases h
      refine .same hfs (fun a => ?_) (noted_fileClose file)
      simp only [Thread.refs, count_append, refs_fileClose, Call.refs, count_nil]
      omega
  | some fd =>
    simp only [Thread.goOn] at h
    split at h
    · cases h
    · next hslot =>
      cases h
      refine .same hfs (fun a => ?_) rfl
      have hset := count_flatMap_set slotRefs hslot (some file) a
      simp only [slotRefs, Option.elim, count_nil] at hset
      simp only [Thread.refs, count_append, Call.refs, count_nil]
      omega
    · next old hslot =>
      cases h
      refine .same hfs (fun a => ?_) (noted_fileClose old)
      have hset := count_flatMap_set slotRefs hslot (some file) a
      simp only [slotRefs, Option.elim] at hset
      simp only [Thread.refs, count_append, refs_fileClose, Call.refs, count_nil]
      omega

/-- **A section of a call in flight.** -/
theorem goOn_progress {answers : List Addr} {room : Bool} (hfs : fs.Tidy)
    (hheld : ∀ a, t.refs.count a ≤ fs.crefs a) (hundisturbed : t.call.Undisturbed fs answers)
    (h : t.goOn gDirInode fs answers room = some (t', fs')) :
    Progress fs fs' t t' (t.call.Frees fs ·) := by
  obtain ⟨files, call⟩ := t
  cases call with
  | idle | freed oldinode => cases h
  | make path =>
    obtain ⟨⟨ret, node, fs₁⟩, hreserve, h⟩ := bind_eq_some_iff.mp h
    cases h
    obtain ⟨htidy, henlarged, -⟩ := inodeReserve_links hfs hreserve
    refine ⟨htidy, fun a => ?_, fun a ha => .inl (henlarged.kept ha), fun g hg => hg.reserve hreserve, nofun⟩
    rw [henlarged.crefs]
    rfl
  | dirRead root child pos fd =>
    cases child with
    | none =>
      cases h
      exact .same hfs (fun _ => rfl) rfl
    | some child =>
      obtain ⟨fs₁, haddref, h⟩ := bind_eq_some_iff.mp h
      cases h
      refine .addref hfs haddref (fun b => ?_) rfl
      simp only [Thread.refs, count_append, Call.refs, Dir.refs, Option.toList, count_cons,
        count_nil]
      omega
  | dirCounted dir fd =>
    obtain ⟨fs₁, haddref, h⟩ := bind_eq_some_iff.mp h
    cases h
    refine .addref hfs haddref (fun b => ?_) rfl
    simp only [Thread.refs, count_append, Call.refs, File.refs, Option.elim, count_cons,
      count_nil]
    omega
  | opened file fd => exact opened_progress hfs rfl h
  | seek fd curr pos offset =>
    obtain ⟨file, hfile, h⟩ := bind_eq_some_iff.mp h
    obtain ⟨dir, hdir, h⟩ := bind_eq_some_iff.mp h
    obtain ⟨⟨dir', call, fs₁⟩, hseek, h⟩ := bind_eq_some_iff.mp h
    cases h
    exact (seekPseudodir_advances hfs hseek).progress hfile hdir rfl
  | remove path inode =>
    obtain ⟨⟨ret, fs₁⟩, hremove, h⟩ := bind_eq_some_iff.mp h
    cases h
    obtain ⟨htidy, hcrefs, hfreed⟩ := inodeRemove_links hfs hundisturbed hremove
    refine ⟨htidy, fun a => ?_, hfreed, fun g hg => hg.remove hundisturbed hremove,
      fun a ha => (some_ne_none a ha.symm).elim⟩
    rw [hcrefs]
    rfl
  | probe oldpath oldinode newpath again =>
    obtain ⟨⟨call, fs₁⟩, hprobe, h⟩ := bind_eq_some_iff.mp h
    cases h
    exact (probeSection_section hfs hprobe).progress fun _ => rfl
  | move oldpath oldinode newpath =>
    obtain ⟨⟨ret, fs₁⟩, hmove, h⟩ := bind_eq_some_iff.mp h
    cases h
    have hpos : 0 < fs.crefs oldinode :=
      Nat.lt_of_lt_of_le (count_pos_iff.mpr (by simp [Thread.refs, Call.refs])) (hheld oldinode)
    obtain ⟨htidy, hcrefs, hkept⟩ := moveInode_links hfs hpos hundisturbed hmove
    refine ⟨htidy, fun a => ?_, fun a ha => .inl (hkept a ha),
      fun g hg => hg.move hfs hpos hundisturbed hmove, fun a ha => (some_ne_none a ha.symm).elim⟩
    rw [hcrefs]
    rfl
  | mountProbe oldinode newpath =>
    obtain ⟨⟨call, fs₁⟩, hprobe, h⟩ := bind_eq_some_iff.mp h
    cases h
    exact (mountProbeSection_section hfs hprobe).progress fun _ => rfl
  | release inode rest =>
    obtain ⟨fs₁, hrelease, h⟩ := bind_eq_some_iff.mp h
    cases h
    obtain ⟨htidy, hcrefs, hsame, hfreed⟩ := inodeRelease_links hfs hrelease
    have hpos : 0 < fs.crefs inode :=
      Nat.lt_of_lt_of_le (count_pos_iff.mpr (by simp [Thread.refs, Call.refs])) (hheld inode)
    refine ⟨htidy, fun a => ?_, fun a ha => ?_, fun g hg => (hg.release hfs hrelease).2, fun a ha => .inr ha⟩
    · simp only [Thread.refs, count_append, Call.refs]
      by_cases ha : a = inode
      · subst ha
        rw [hcrefs, count_cons_self]
        omega
      · rw [Fs.crefs_congr (hsame a ha), count_cons_of_ne (Ne.symm ha)]
    · by_cases hai : a = inode
      · subst hai
        exact .inr ⟨rfl, hfreed ha⟩
      · exact .inl ((hsame a hai).symm.trans ha)

end Threads

/-! ## Runs -/

/-- The references to an inode, of all threads. `g_dir_inode` has one more. -/
def Sys.references (s : Sys) (a : Addr) : Nat :=
  (s.threads.flatMap Thread.refs).count a + if a = s.gDirInode then 1 else 0

def Sys.Noted (s : Sys) (a : Addr) : Prop := ∃ t ∈ s.threads, t.call.noted = some a

def Sys.Lets (s : Sys) (t : Thread) : Act → Prop
  | .goOn answers _ => t.call.Undisturbed s.fs answers ∧ ∀ a, s.Noted a → ¬t.call.Frees s.fs a
  | _ => True

def Sys.Careful (s : Sys) (act : Nat × Act) : Prop := ∀ t ∈ s.threads[act.1]?, s.Lets t act.2

section Deciding

variable {fs : Fs} {path : List Char} {a : Addr}

def found (fs : Fs) (path : List Char) : Option Addr :=
  (inodeSearch fs path).bind fun desc => if desc.ret ≥ 0 then desc.node else none

theorem finds_iff : Finds fs path a ↔ found fs path = some a := by
  unfold Finds found
  rw [bind_eq_some_iff]
  refine exists_congr fun desc => and_congr_right fun _ => ?_
  split_ifs with hret
  · exact and_iff_right hret
  · simp [hret]

instance : Decidable (Finds fs path a) := decidable_of_iff _ finds_iff.symm

instance (answers : List Addr) : (call : Call) → Decidable (call.Undisturbed fs answers)
  | .remove path _ =>
    decidable_of_iff (∀ a ∈ found fs path, fs.target (.child a) = none)
      (by simp only [Call.Undisturbed, finds_iff, mem_def])
  | .move oldpath oldinode newpath =>
    decidable_of_iff (∀ r ∈ inodeReserve fs newpath answers, r.2.1 ≠ none → Finds r.2.2 oldpath oldinode)
      (by
        constructor
        · intro h ret n fs₁ hreserve
          exact h _ hreserve (by simp)
        · rintro h ⟨ret, node, fs₁⟩ hreserve hnode
          obtain ⟨n, rfl⟩ := ne_none_iff_exists'.mp hnode
          exact h ret n fs₁ hreserve)
  | .idle | .make _ | .dirRead _ _ _ _ | .dirCounted _ _ | .seek _ _ _ _ | .opened _ _ | .probe _ _ _ _ | .freed _
  | .mountProbe _ _ | .release _ _ => .isTrue trivial

instance : (call : Call) → Decidable (call.Frees fs a)
  | .remove _ _ => inferInstanceAs (Decidable (_ ∧ _))
  | .release inode _ =>
    inferInstanceAs (Decidable (a = inode ∧ fs.crefs a ≤ 1 ∧ ∃ d ∈ fs.data a, d.deleted = true))
  | .idle | .make _ | .dirRead _ _ _ _ | .dirCounted _ _ | .seek _ _ _ _ | .opened _ _ | .probe _ _ _ _ | .freed _
  | .mountProbe _ _ | .move _ _ _ => .isFalse id

instance (s : Sys) (t : Thread) : (act : Act) → Decidable (s.Lets t act)
  | .goOn answers _ =>
    decidable_of_iff (t.call.Undisturbed s.fs answers ∧
        ∀ u ∈ s.threads, ∀ a ∈ u.call.noted, ¬t.call.Frees s.fs a)
      (and_congr_right fun _ => ⟨fun h a ⟨u, hu, ha⟩ => h u hu a ha, fun h u hu a ha => h a ⟨u, hu, ha⟩⟩)
  | .open _ _ _ _ | .close _ | .dup _ _ | .dup2 _ _ _ _ | .readdir _ | .seek _ _ | .mkdir _ | .rmdir _ | .unlink _ _
  | .rename _ _ _ | .registerDriver _ _ _ _ => .isTrue trivial

instance (s : Sys) (act : Nat × Act) : Decidable (s.Careful act) :=
  inferInstanceAs (Decidable (∀ t ∈ s.threads[act.1]?, s.Lets t act.2))

end Deciding

/-- The counts are the numbers of references, and what is read and not counted is there. -/
structure Sys.Counted (s : Sys) : Prop where
  tidy : s.fs.Tidy
  count : ∀ a, s.fs.crefs a = s.references a
  noted : ∀ a, s.Noted a → s.fs.data a ≠ none

/-- `g_dir_inode` before the first stream. -/
def dirInode : Inode := ⟨1, .pseudodir, false, some 0, none, []⟩

/-- After `inode_initialize`, with threads that have no files. -/
def Sys.start (size : Nat) (root gDirInode : Addr) (n : Nat) : Sys where
  fs := ⟨(Fs.empty size root).heap.put gDirInode (some ⟨none, none, none, dirInode⟩), some root⟩
  gDirInode := gDirInode
  threads := List.replicate n ⟨[], .idle⟩

section Runs

variable {s s' : Sys}

/-- **One thread goes on**, with the counts. -/
theorem Sys.Counted.progress {i : Nat} {t t' : Thread} {fs' : Fs} {frees : Addr → Prop}
    (hs : s.Counted) (ht : s.threads[i]? = some t) (h : Progress s.fs fs' t t' frees)
    (hfrees : ∀ a, s.Noted a → ¬frees a) :
    Sys.Counted { s with fs := fs', threads := s.threads.set i t' } where
  tidy := h.tidy
  count a := by
    have hset := count_flatMap_set Thread.refs ht t' a
    have hprogress := h.count a
    have hcount := hs.count a
    simp only [Sys.references] at hcount ⊢
    omega
  noted := by
    have hold : ∀ a, s.Noted a → fs'.data a ≠ none := by
      intro a ha hnone
      rcases h.freed a hnone with hgone | hfreed
      · exact hs.noted a ha hgone
      · exact hfrees a ha hfreed
    rintro a ⟨u, hu, hnoted⟩
    rcases mem_or_eq_of_mem_set hu with hmem | rfl
    · exact hold a ⟨u, hmem, hnoted⟩
    · rcases h.noted a hnoted with hthere | hbefore
      · exact hthere
      · exact hold a ⟨t, mem_of_getElem? ht, hbefore⟩

theorem Sys.Counted.held {i : Nat} {t : Thread} (hs : s.Counted) (ht : s.threads[i]? = some t)
    (a : Addr) : t.refs.count a ≤ s.fs.crefs a := by
  have hset := count_flatMap_set Thread.refs ht ⟨[], .idle⟩ a
  have hnone : (Thread.refs ⟨[], .idle⟩).count a = 0 := rfl
  rw [hs.count, Sys.references]
  omega

theorem step_counted {act : Nat × Act} (hs : s.Counted) (hcareful : s.Careful act)
    (h : s.step act = some s') : s'.Counted ∧ (s.fs.Aside s.gDirInode → s'.fs.Aside s'.gDirInode) := by
  obtain ⟨t, ht, h⟩ := bind_eq_some_iff.mp h
  obtain ⟨⟨t', fs'⟩, hstep, h⟩ := bind_eq_some_iff.mp h
  cases h
  unfold Thread.step at hstep
  split at hstep
  · next answers room hact =>
    have hlets := hcareful t ht
    rw [hact] at hlets
    have hprogress := goOn_progress hs.tidy (hs.held ht) hlets.1 hstep
    exact ⟨hs.progress ht hprogress hlets.2, hprogress.aside _⟩
  · next hidle _ =>
    have hprogress : Progress s.fs fs' t t' fun _ => False := begin_progress hs.tidy (hs.held ht) hidle hstep
    exact ⟨hs.progress ht hprogress fun _ _ => id, hprogress.aside _⟩
  · cases hstep

theorem start_read (hroot : root < size) (hdir : gDirInode < size) (a : Addr) :
    (Sys.start size root gDirInode n).fs.heap.read a
      = if a = gDirInode then some ⟨none, none, none, dirInode⟩
        else if a = root then some ⟨none, none, none, Inode.fresh []⟩ else none := by
  have hsize : (Fs.empty size root).heap.size = size := by
    rw [Fs.empty, Heap.size_put, Heap.size, length_replicate]
  have hempty : ∀ b, (Heap.mk (List.replicate size (none : Option (Cell Inode)))).read b = none := by
    intro b
    rw [Heap.read, getElem?_replicate]
    split <;> rfl
  unfold Sys.start
  split_ifs with ha hr
  · subst ha
    exact Heap.read_put_self _ (by rw [hsize]; exact hdir)
  · subst hr
    rw [Heap.read_put_ne _ ha, Fs.empty]
    exact Heap.read_put_self _ (by rw [Heap.size, length_replicate]; exact hroot)
  · rw [Heap.read_put_ne _ ha, Fs.empty, Heap.read_put_ne _ hr, hempty]

theorem start_counted (hroot : root < size) (hdir : gDirInode < size) (hne : gDirInode ≠ root) :
    (Sys.start size root gDirInode n).Counted := by
  have hread := start_read (n := n) hroot hdir
  have hbare : ∀ {l : Link Addr} {a : Addr}, (Sys.start size root gDirInode n).fs.target l = some a →
      l = .root ∧ a = root := by
    intro l a hl
    cases l with
    | root =>
      cases hl
      exact ⟨rfl, rfl⟩
    | child b | peer b =>
      rw [Fs.target, hread] at hl
      split_ifs at hl <;> cases hl
  have hidle : ∀ t ∈ (Sys.start size root gDirInode n).threads, t = ⟨[], .idle⟩ :=
    fun t ht => eq_of_mem_replicate ht
  refine ⟨⟨?_, ?_, ?_⟩, fun a => ?_, ?_⟩
  · intro l a hl
    obtain ⟨-, rfl⟩ := hbare hl
    refine ⟨Inode.fresh [], ?_, rfl⟩
    rw [Fs.data, hread, if_neg (Ne.symm hne), if_pos rfl]
    rfl
  · intro l l' a hl hl'
    rw [(hbare hl).1, (hbare hl').1]
  · intro l a hl _
    cases htarget : (Sys.start size root gDirInode n).fs.target l with
    | none => rfl
    | some b =>
      rw [(hbare htarget).1] at hl
      cases hl
  · have hnone : (Sys.start size root gDirInode n).threads.flatMap Thread.refs = [] := by
      rw [flatMap_eq_nil_iff]
      intro t ht
      rw [hidle t ht]
      rfl
    rw [Sys.references, hnone, Fs.crefs, Fs.data, hread]
    change _ = 0 + if a = gDirInode then 1 else 0
    split_ifs <;> rfl
  · rintro a ⟨t, ht, hnoted⟩
    rw [hidle t ht] at hnoted
    cases hnoted

theorem reaches_counted (hroot : root < size) (hdir : gDirInode < size) (hne : gDirInode ≠ root)
    (h : Reaches Sys.step Sys.Careful (Sys.start size root gDirInode n) s) : s.Counted :=
  h.invariant (start_counted hroot hdir hne) fun _ _ _ hs hcareful hstep =>
    (step_counted hs hcareful hstep).1

/-- **`g_dir_inode` stays aside**, in every run of any number of threads. -/
theorem reaches_aside {size n : Nat} {root gDirInode : Addr} {s : Sys} (hroot : root < size)
    (hdir : gDirInode < size) (hne : gDirInode ≠ root)
    (h : Reaches Sys.step Sys.Careful (Sys.start size root gDirInode n) s) :
    s.fs.Aside s.gDirInode := by
  have hread := start_read (n := n) hroot hdir
  have hstart : (Sys.start size root gDirInode n).fs.Aside gDirInode := by
    refine ⟨fun l hl => ?_, fun l hl => ?_, ⟨dirInode, ?_, rfl, rfl⟩⟩
    · cases l with
      | root =>
        cases hl
        exact hne rfl
      | child b | peer b =>
        rw [Fs.target, hread] at hl
        split_ifs at hl <;> cases hl
    · cases l with
      | root => cases hl
      | child b | peer b =>
        cases hl
        rw [Fs.target, hread, if_pos rfl]
        rfl
    · rw [Fs.data, hread, if_pos rfl]
      rfl
  exact (h.invariant (P := fun s => s.Counted ∧ s.fs.Aside s.gDirInode)
    ⟨start_counted hroot hdir hne, hstart⟩ fun _ _ _ hs hcareful hstep =>
      (step_counted hs.1 hcareful hstep).imp_right fun haside => haside hs.2).2

end Runs

/-- The actions of a stream on `/a`, whose child is read and renamed, and of the removal of `/a` while the
stream is open. -/
def streamRun : List (Nat × Act) :=
  [(0, .mkdir "/a".toList), (0, .goOn [2] true), (0, .mkdir "/a/b".toList), (0, .goOn [3] true),
    (1, .open "/a".toList true true true), (1, .goOn [] true), (1, .goOn [] true), (1, .goOn [] true),
    (1, .readdir 0), (1, .goOn [] true),
    (0, .rename "/a/b".toList "/c".toList true), (0, .goOn [] true), (0, .goOn [4] true),
    (0, .goOn [] true),
    (0, .rmdir "/a".toList), (0, .goOn [] true), (0, .goOn [] true)]

/-- The actions of a `rmdir` of `/a`, while another thread makes `/a/b` and opens it. -/
def staleRun : List (Nat × Act) :=
  [(0, .mkdir "/a".toList), (0, .goOn [2] true), (0, .rmdir "/a".toList),
    (1, .mkdir "/a/b".toList), (1, .goOn [3] true),
    (1, .open "/a/b".toList true true true), (1, .goOn [] true), (1, .goOn [] true), (1, .goOn [] true),
    (0, .goOn [] true)]

end Gpmx.PseudoFs
