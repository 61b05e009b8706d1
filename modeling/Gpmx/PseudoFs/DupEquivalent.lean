import Gpmx.PseudoFs.DupStream

/-!
# The duplicate of a directory descriptor

A duplicate can be closed before or after the descriptor it was made of, each gives back what it refers
to, and the other goes on. But its stream is one of `g_dir_inode`, which has no entries, so nothing can be
read from it. It is like a stream of the directory when this has no entries either.
-/

namespace Gpmx.PseudoFs

open Infra Option

/-! ## What a duplicate should be -/

/-- `dup` or `dup2` has made the second descriptor of the first. -/
inductive Duplicates (g : Addr) (t : Thread) (fs : Fs) (fd1 fd2 : Nat) (t' : Thread) (fs' : Fs) : Prop
  | dup (room : Bool) (hcall : t.perform g fs (.dup fd1 true) room = some (t', fs'))
      (hfree : t.file fd2 = none) (hnew : t'.file fd2 ≠ none)
  | dup2 (room : Bool) (hcall : t.perform g fs (.dup2 fd1 fd2 true room) room = some (t', fs'))
      (hne : fd1 ≠ fd2)

structure Opens (g : Addr) (u : Thread) (fs : Fs) (path : List Char) (fd : Nat) (dir : Dir) (u' : Thread)
    (fs' : Fs) : Prop where
  atRest : AtRest g u fs
  idle : u.call = .idle
  free : u.file fd = none
  call : ∃ room, u.perform g fs (.open path true true true) room = some (u', fs')
  new : u'.file fd = some ⟨g, some dir⟩

structure Closes (g : Addr) (t : Thread) (fs : Fs) (fd : Nat) (t' : Thread) (fs' : Fs) : Prop where
  call : t.perform g fs (.close fd) true = some (t', fs')
  gone : t'.file fd = none
  others : ∀ fd', fd' ≠ fd → t'.file fd' = t.file fd'
  once : ∀ file, t.file fd = some file → ∀ a, fs'.crefs a + file.refs.count a = fs.crefs a

def Usable (g : Addr) (t : Thread) (fs : Fs) (fd : Nat) : Prop :=
  ∃ dir : Dir, t.file fd = some ⟨g, some dir⟩ ∧ (∀ a ∈ File.refs ⟨g, some dir⟩, fs.data a ≠ none) ∧
    ∀ n, (readEntries n fs dir.pdir).isSome

def ClosesThen (g : Addr) (t : Thread) (fs : Fs) (fd other : Nat) : Prop :=
  ∃ t₁ fs₁ t₂ fs₂, Closes g t fs fd t₁ fs₁ ∧ Usable g t₁ fs₁ other ∧ Closes g t₁ fs₁ other t₂ fs₂

/-- Two descriptors are equivalent streams of what is at the path. -/
structure DupEquivalent (g : Addr) (t : Thread) (fs : Fs) (path : List Char) (fd1 fd2 : Nat) : Prop where
  same : ∀ dup fresh u u' fs' fd, t.file fd2 = some ⟨g, some dup⟩ → Opens g u fs path fd fresh u' fs' →
    ∀ rewound n, dup.entries fs rewound n = fresh.entries fs' rewound n
  first : ClosesThen g t fs fd1 fd2
  second : ClosesThen g t fs fd2 fd1

/-- `open` with `O_DIRECTORY` lists the inode itself. -/
def Inode.Lists (node : Inode) : Prop :=
  node.iType ≠ .block ∧ node.iType ≠ .mtd ∧ node.iType ≠ .mountpt

/-! ## The duplicate -/

section Duplicating

variable {g : Addr} {t t' : Thread} {fs fs' : Fs} {fd1 fd2 : Nat} {dir : Dir}

theorem fileDup2_stream {fd : Option Nat} {call : Call} (hg : fs.Aside g)
    (h : fileDup2 fs ⟨g, some dir⟩ fd true = some (call, fs')) :
    call = .dirRead g none dir.fPos fd ∧ fs'.target = fs.target := by
  obtain ⟨fs₁, haddref, h⟩ := bind_eq_some_iff.mp h
  obtain ⟨c, hr, h⟩ := bind_eq_some_iff.mp h
  have hchild : c.child = none := by
    have hbare := (hg.addref haddref).bare (.child g) rfl
    rw [Fs.target, hr] at hbare
    exact hbare
  rw [if_neg (by simp)] at h
  cases h
  exact ⟨by rw [hchild], (Fs.onInode_links haddref).1⟩

/-- **What `dup` and `dup2` make**: a stream at the end of `g_dir_inode`. -/
theorem Duplicates.stream (ht : AtRest g t fs) (hidle : t.call = .idle)
    (hfile : t.file fd1 = some ⟨g, some dir⟩) (h : Duplicates g t fs fd1 fd2 t' fs') :
    AtRest g t' fs' ∧ t'.call = .idle ∧ fs'.target = fs.target ∧ fd1 ≠ fd2 ∧
      t'.file fd1 = some ⟨g, some dir⟩ ∧ t'.file fd2 = some ⟨g, some ⟨g, none, dir.fPos⟩⟩ := by
  cases h with
  | dup room hcall hfree hnew =>
    have hne : fd1 ≠ fd2 := by
      rintro rfl
      rw [hfree] at hfile
      cases hfile
    obtain ⟨⟨t₁, fs₁⟩, hbegin, hfinish⟩ := bind_eq_some_iff.mp hcall
    have hsection := hbegin
    simp only [Thread.begin, hfile, bind_eq_bind, bind_some] at hsection
    obtain ⟨⟨call, fs₂⟩, hdup, heq⟩ := bind_eq_some_iff.mp hsection
    cases heq
    obtain ⟨rfl, htarget₁⟩ := fileDup2_stream ht.aside hdup
    obtain ⟨ht₁, -⟩ := begin_atRest ht hidle hbegin
    obtain ⟨ht', hidle', htarget, -⟩ := finish_atRest ht₁ trivial hfinish
    obtain ⟨fs₃, hfinish⟩ := finish_dirRead hfinish
    refine ⟨ht', hidle', htarget.trans htarget₁, hne, ?_⟩
    rcases finish_allocate hfinish with hsame | ⟨fd, hnone, hfiles⟩
    · rw [Thread.file, hsame] at hnew
      exact absurd hfree hnew
    · have hfd : fd = fd2 := by
        by_contra hother
        rw [hfiles fd2, if_neg (Ne.symm hother)] at hnew
        exact hnew hfree
      subst hfd
      exact ⟨by rw [hfiles fd1, if_neg hne]; exact hfile, by rw [hfiles fd, if_pos rfl]⟩
  | dup2 room hcall hne =>
    obtain ⟨⟨t₁, fs₁⟩, hbegin, hfinish⟩ := bind_eq_some_iff.mp hcall
    have hsection := hbegin
    simp only [Thread.begin] at hsection
    obtain ⟨files, hextend, hsection⟩ := bind_eq_some_iff.mp hsection
    rw [hfile] at hsection
    dsimp only at hsection
    rw [if_neg hne] at hsection
    obtain ⟨⟨call, fs₂⟩, hdup, heq⟩ := bind_eq_some_iff.mp hsection
    cases heq
    obtain ⟨rfl, htarget₁⟩ := fileDup2_stream ht.aside hdup
    obtain ⟨ht₁, -⟩ := begin_atRest ht hidle hbegin
    obtain ⟨ht', hidle', htarget, -⟩ := finish_atRest ht₁ trivial hfinish
    obtain ⟨fs₃, hfinish⟩ := finish_dirRead hfinish
    have hfiles := finish_replace hfinish
    refine ⟨ht', hidle', htarget.trans htarget₁, hne, ?_, by rw [hfiles fd2, if_pos rfl]⟩
    rw [hfiles fd1, if_neg hne, file_filesExtend hextend]
    exact hfile

end Duplicating

/-! ## A fresh stream -/

section Fresh

variable {g a : Addr} {u u' : Thread} {fs fs' : Fs} {path : List Char} {fd : Nat} {dir : Dir} {d : Inode}

theorem fileVopen_lists (hfinds : Finds fs path a) (hd : fs.data a = some d) (hlists : d.Lists) :
    ∃ fs₁, fileVopen fs path true true true = some (.dirRead a (fs.target (.child a)) 0 none, fs₁) ∧
      fs₁.target = fs.target := by
  obtain ⟨desc, hsearch, hret, hnode⟩ := hfinds
  obtain ⟨fs₁, haddref⟩ := onInode_of_data fs Inode.addref (show fs.data a ≠ none by rw [hd]; simp)
  obtain ⟨htarget, e, he, he₁, -⟩ := Fs.onInode_links haddref
  rw [hd] at he
  cases he
  obtain ⟨c, hr, hc⟩ := Fs.read_of_data he₁
  have hchild : c.child = fs.target (.child a) := by
    rw [← htarget, Fs.target, hr]
    rfl
  have hfind : inodeFind fs path = some (desc, fs₁) := by
    simp only [inodeFind, hsearch, bind_eq_bind, bind_some, if_pos hret, hnode, haddref]
  have htype : c.data.iType = d.iType := by
    rw [hc]
    rfl
  refine ⟨fs₁, ?_, htarget⟩
  unfold fileVopen
  rw [hfind, bind_eq_bind, bind_some]
  dsimp only
  rw [if_neg (by omega), hnode, bind_eq_bind, bind_some, hr, bind_eq_bind,
    bind_some, htype, hchild, if_neg (fun h => h.elim hlists.1 hlists.2.1), if_neg (by simp),
    if_pos rfl, if_neg hlists.2.2]

theorem begin_open (hfinds : Finds fs path a) (hd : fs.data a = some d) (hlists : d.Lists) :
    ∃ fs₁, u.begin fs (.open path true true true)
        = some (⟨u.files, .dirRead a (fs.target (.child a)) 0 none⟩, fs₁) ∧ fs₁.target = fs.target := by
  obtain ⟨fs₁, hopen, htarget⟩ := fileVopen_lists hfinds hd hlists
  refine ⟨fs₁, ?_, htarget⟩
  simp only [Thread.begin, hopen, bind_eq_bind, bind_some]

/-- **What `open` makes**: a stream at the first entry. -/
theorem Opens.stream (h : Opens g u fs path fd dir u' fs') (hfinds : Finds fs path a)
    (hd : fs.data a = some d) (hlists : d.Lists) :
    AtRest g u' fs' ∧ fs'.target = fs.target ∧ dir = ⟨a, fs.target (.child a), 0⟩ := by
  obtain ⟨room, hcall⟩ := h.call
  obtain ⟨fs₁, hbegin, htarget₁⟩ := begin_open (u := u) hfinds hd hlists
  obtain ⟨ht₁, -⟩ := begin_atRest h.atRest h.idle hbegin
  rw [Thread.perform, hbegin] at hcall
  have hfinish : Thread.finish g room 6 ⟨u.files, .dirRead a (fs.target (.child a)) 0 none⟩ fs₁
      = some (u', fs') := hcall
  obtain ⟨ht', -, htarget, -⟩ := finish_atRest ht₁ trivial hfinish
  obtain ⟨fs₂, hfinish⟩ := finish_dirRead hfinish
  refine ⟨ht', htarget.trans htarget₁, ?_⟩
  have hnew := h.new
  have hfree : u.files[fd]?.join = none := h.free
  rcases finish_allocate hfinish with hsame | ⟨fd', -, hfiles⟩
  · rw [Thread.file, hsame, hfree] at hnew
    cases hnew
  · rw [hfiles fd] at hnew
    split_ifs at hnew
    · cases hnew
      rfl
    · rw [hfree] at hnew
      cases hnew

theorem exists_opens (hfs : fs.Tidy) (hg : fs.Aside g) (hfinds : Finds fs path a)
    (hd : fs.data a = some d) (hlists : d.Lists) :
    ∃ dir u' fs', Opens g ⟨[], .idle⟩ fs path 0 dir u' fs' := by
  have hrest : AtRest g ⟨[], .idle⟩ fs := ⟨hfs, hg, fun _ => Nat.zero_le _⟩
  obtain ⟨fs₁, hbegin, htarget₁⟩ := begin_open (u := ⟨[], .idle⟩) hfinds hd hlists
  obtain ⟨ht₁, -⟩ := begin_atRest hrest rfl hbegin
  have hread : ∃ fs₂, Thread.goOn ⟨[], .dirRead a (fs.target (.child a)) 0 none⟩ g fs₁ [] true
      = some (⟨[], .dirCounted ⟨a, fs.target (.child a), 0⟩ none⟩, fs₂) := by
    cases hchild : fs.target (.child a) with
    | none => exact ⟨fs₁, rfl⟩
    | some child =>
      rw [← htarget₁] at hchild
      obtain ⟨e, he, -⟩ := ht₁.tidy.target_inside hchild
      obtain ⟨fs₂, haddref⟩ := onInode_of_data fs₁ Inode.addref (show fs₁.data child ≠ none by rw [he]; simp)
      refine ⟨fs₂, ?_⟩
      simp only [Thread.goOn, haddref, bind_eq_bind, bind_some]
  obtain ⟨fs₂, hread⟩ := hread
  obtain ⟨ht₂, -⟩ := goOn_atRest ht₁ trivial hread
  obtain ⟨fs₃, haddref⟩ := onInode_of_data fs₂ Inode.addref ht₂.aside.there
  refine ⟨⟨a, fs.target (.child a), 0⟩,
    ⟨(List.replicate perBlock none).set 0 (some ⟨g, some ⟨a, fs.target (.child a), 0⟩⟩), .idle⟩, fs₃,
    hrest, rfl, rfl, ⟨true, ?_⟩, rfl⟩
  rw [Thread.perform, hbegin]
  change Thread.finish g true 6 ⟨[], .dirRead a (fs.target (.child a)) 0 none⟩ fs₁ = _
  rw [finish_goOn (by simp), hread, bind_some, finish_goOn (by simp)]
  simp only [Thread.goOn, haddref, bind_eq_bind, bind_some]
  have hallocate : ∀ file, filesAllocate [] file true
      = some ((List.replicate perBlock none).set 0 (some file)) := fun _ => rfl
  rw [finish_goOn (by simp)]
  simp only [Thread.goOn, hallocate, bind_some]
  exact finish_idle rfl

end Fresh

/-! ## Equivalence -/

section Equivalence

variable {g : Addr} {t t' : Thread} {fs fs' : Fs} {fd fd' fd1 fd2 : Nat} {dir dir' : Dir}
  {path : List Char} {d : Inode}

theorem next_there (ht : AtRest g t fs) (hfile : t.file fd = some ⟨g, some dir⟩) (a : Addr)
    (hnext : dir.next = some a) : fs.data a ≠ none :=
  Thread.file_there ht.held hfile (by simp [File.refs, Dir.refs, hnext])

theorem usable_of_atRest (ht : AtRest g t fs) (hfile : t.file fd = some ⟨g, some dir⟩) :
    Usable g t fs fd :=
  ⟨dir, hfile, fun _ ha => Thread.file_there ht.held hfile ha,
    fun n => readEntries_isSome n ht.tidy (next_there ht hfile)⟩

theorem closes_of_atRest (ht : AtRest g t fs) (hidle : t.call = .idle)
    (hfile : t.file fd = some ⟨g, some dir⟩) :
    ∃ fs', Closes g t fs fd ⟨t.files.set fd none, .idle⟩ fs' ∧
      AtRest g ⟨t.files.set fd none, .idle⟩ fs' := by
  obtain ⟨fs', hcall, ht', -, hcount⟩ := close_spec true ht hidle hfile
  have hfd : fd < t.files.length := (List.getElem?_eq_some_iff.mp (Thread.slot_of_file hfile)).1
  refine ⟨fs', ⟨hcall, ?_, fun fd' hne => ?_, fun file hfile' => ?_⟩, ht'⟩
  · rw [Thread.file, file_set hfd, if_pos rfl]
  · rw [Thread.file, file_set hfd, if_neg hne]
    rfl
  · rw [hfile] at hfile'
    cases hfile'
    exact hcount

/-- **Either descriptor can be closed first.** -/
theorem closesThen_of_atRest (ht : AtRest g t fs) (hidle : t.call = .idle) (hne : fd ≠ fd')
    (hfile : t.file fd = some ⟨g, some dir⟩) (hfile' : t.file fd' = some ⟨g, some dir'⟩) :
    ClosesThen g t fs fd fd' := by
  obtain ⟨fs₁, hcloses, ht₁⟩ := closes_of_atRest ht hidle hfile
  have hother := hcloses.others fd' (Ne.symm hne)
  rw [hfile'] at hother
  obtain ⟨fs₂, hcloses', -⟩ := closes_of_atRest ht₁ rfl hother
  exact ⟨_, fs₁, _, fs₂, hcloses, usable_of_atRest ht₁ hother, hcloses'⟩

/-- **The duplicate of a directory descriptor.** Both descriptors can be closed in either order, each gives
back what it refers to once, and the other can be used. The duplicate returns the entries that a fresh
stream of the directory returns if and only if the directory has none. -/
theorem dup_equivalent_iff (ht : AtRest g t fs) (hidle : t.call = .idle)
    (hfile : t.file fd1 = some ⟨g, some dir⟩) (hdup : Duplicates g t fs fd1 fd2 t' fs')
    (hpath : Finds fs' path dir.fdRoot) (hd : fs'.data dir.fdRoot = some d) (hlists : d.Lists) :
    DupEquivalent g t' fs' path fd1 fd2 ↔ fs.target (.child dir.fdRoot) = none := by
  obtain ⟨ht', hidle', htarget, hne, hfile1, hfile2⟩ := hdup.stream ht hidle hfile
  have hempty : ∀ rewound n, Dir.entries fs' ⟨g, none, dir.fPos⟩ rewound n = some [] :=
    fun rewound n => entries_end rewound n rfl ht'.aside.there (ht'.aside.bare _ rfl)
  constructor
  · intro hequivalent
    obtain ⟨fresh, u, fs'', hopens⟩ := exists_opens ht'.tidy ht'.aside hpath hd hlists
    obtain ⟨hu, htarget', rfl⟩ := hopens.stream hpath hd hlists
    have hsame := hequivalent.same _ _ _ _ _ _ hfile2 hopens false 1
    rw [hempty] at hsame
    by_contra hchild
    refine readEntries_one hu.tidy (next_there hu hopens.new) (fun hnone => hchild ?_) hsame.symm
    rw [← htarget]
    exact hnone
  · intro hchild
    refine ⟨fun dup fresh u u' fs'' fd hfile hopens rewound n => ?_,
      closesThen_of_atRest ht' hidle' hne hfile1 hfile2,
      closesThen_of_atRest ht' hidle' hne.symm hfile2 hfile1⟩
    rw [hfile2] at hfile
    cases hfile
    obtain ⟨hu, htarget', rfl⟩ := hopens.stream hpath hd hlists
    have hnone : fs'.target (.child dir.fdRoot) = none := by rw [htarget, hchild]
    rw [hempty]
    refine (entries_end rewound n hnone ?_ ?_).symm
    · exact Thread.file_there hu.held hopens.new (by simp [File.refs, Dir.refs])
    · rw [htarget', hnone]

theorem reaches_atRest {size n : Nat} {root gDirInode : Addr} {s : Sys} {i : Nat} {t : Thread}
    (hroot : root < size) (hdir : gDirInode < size) (hne : gDirInode ≠ root)
    (h : Reaches Sys.step Sys.Careful (Sys.start size root gDirInode n) s) (hi : s.threads[i]? = some t) :
    AtRest s.gDirInode t s.fs :=
  have hs := reaches_counted hroot hdir hne h
  ⟨hs.tidy, reaches_aside hroot hdir hne h, hs.held hi⟩

end Equivalence

/-! ## Two directories -/

/-- A thread makes `/a`, and `/a/b` or not, and opens `/a`. -/
def openRun (fills : Bool) : List (Nat × Act) :=
  [(0, .mkdir "/a".toList), (0, .goOn [2] true)] ++
    (if fills then [(0, .mkdir "/a/b".toList), (0, .goOn [3] true)] else []) ++
    [(0, .open "/a".toList true true true), (0, .goOn [] true), (0, .goOn [] true), (0, .goOn [] true)]

def openSys (fills : Bool) : Sys :=
  ((openRun fills).foldlM Sys.step (Sys.start 6 0 1 1)).getD (Sys.start 6 0 1 1)

def openThread (fills : Bool) : Thread := ((openSys fills).threads[0]?).getD ⟨[], .idle⟩

/-- The thread and the tree after a `dup` of the descriptor. -/
def dupState (fills : Bool) : Thread × Fs :=
  ((openThread fills).perform 1 (openSys fills).fs (.dup 0 true) true).getD (⟨[], .idle⟩, (openSys fills).fs)

theorem openSys_reaches (fills : Bool) :
    Reaches Sys.step Sys.Careful (Sys.start 6 0 1 1) (openSys fills) := by
  refine Reaches.of_guarded (openRun fills) ?_
  cases fills <;> decide

theorem openThread_atRest (fills : Bool) :
    AtRest 1 (openThread fills) (openSys fills).fs := by
  have hi : (openSys fills).threads[0]? = some (openThread fills) := by
    cases fills <;> decide
  have hg : (openSys fills).gDirInode = 1 := by
    cases fills <;> decide
  have hrest := reaches_atRest (by decide) (by decide) (by decide) (openSys_reaches fills) hi
  rwa [hg] at hrest

theorem dupState_duplicates (fills : Bool) :
    Duplicates 1 (openThread fills) (openSys fills).fs 0 1 (dupState fills).1 (dupState fills).2 := by
  refine .dup true ?_ ?_ ?_ <;> cases fills <;> decide

/-- `/a` has no entries. -/
theorem dup_equivalent_empty :
    DupEquivalent 1 (dupState false).1 (dupState false).2 "/a".toList 0 1 := by
  have hfile : (openThread false).file 0 = some ⟨1, some ⟨2, none, 0⟩⟩ := by decide
  have hpath : Finds (dupState false).2 "/a".toList 2 := by decide
  have hd : (dupState false).2.data 2 = some ⟨1, .pseudodir, false, none, none, "a".toList⟩ := by decide
  exact (dup_equivalent_iff (openThread_atRest false) (by decide) hfile (dupState_duplicates false)
    hpath hd ⟨nofun, nofun, nofun⟩).mpr (by decide)

/-- `/a` has the entry `b`, and the duplicate returns nothing. -/
theorem dup_not_equivalent :
    ∃ s t t' fs' dir, Reaches Sys.step Sys.Careful (Sys.start 6 0 1 1) s ∧ s.threads[0]? = some t ∧
      t.call = .idle ∧ t.file 0 = some ⟨1, some dir⟩ ∧ Duplicates 1 t s.fs 0 1 t' fs' ∧
      Finds fs' "/a".toList dir.fdRoot ∧ (fs'.data dir.fdRoot).map Inode.iType = some .pseudodir ∧
      ¬DupEquivalent 1 t' fs' "/a".toList 0 1 := by
  refine ⟨openSys true, openThread true, (dupState true).1, (dupState true).2, ⟨2, some 3, 0⟩,
    openSys_reaches true, by decide, by decide, by decide, dupState_duplicates true, by decide, by decide,
    fun h => ?_⟩
  have hfile : (openThread true).file 0 = some ⟨1, some ⟨2, some 3, 0⟩⟩ := by decide
  obtain ⟨ht', -, -, -, -, hfile2⟩ :=
    (dupState_duplicates true).stream (openThread_atRest true) (by decide) hfile
  have hopens : Opens 1 ⟨[], .idle⟩ (dupState true).2 "/a".toList 0 ⟨2, some 3, 0⟩
      (((⟨[], .idle⟩ : Thread).perform 1 (dupState true).2 (.open "/a".toList true true true) true).getD
        (⟨[], .idle⟩, (dupState true).2)).1
      (((⟨[], .idle⟩ : Thread).perform 1 (dupState true).2 (.open "/a".toList true true true) true).getD
        (⟨[], .idle⟩, (dupState true).2)).2 :=
    ⟨⟨ht'.tidy, ht'.aside, fun _ => Nat.zero_le _⟩, rfl, rfl, ⟨true, by decide⟩, by decide⟩
  have hsame := h.same _ _ _ _ _ _ hfile2 hopens false 1
  exact absurd hsame (by decide)

end Gpmx.PseudoFs
