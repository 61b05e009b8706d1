import Gpmx.PseudoFs.DirStream
import Gpmx.PseudoFs.ReferenceRuns

/-!
# Calls on directory descriptors, one after the other

`gpm/fs/vfs/fs_dir.c` and `fs_dup2.c`. A call of a thread from its first section to its last, with nobody
in between; the entries that a stream returns; and what `open`, `close`, `dup` and `dup2` make of the
table of descriptors and of the counts.

`file_dup2` opens the file again through its inode, and the inode of every stream is `g_dir_inode`. So the
stream of a duplicate is one of `g_dir_inode`.
-/

namespace Gpmx.PseudoFs

open Infra Option List

/-! ## Whole calls -/

/-- The sections that are left of a call. A call on streams has no more than six of them: `dup2` reads
and counts the first child, counts `g_dir_inode`, and closes what it puts the file in place of. -/
def Thread.finish (gDirInode : Addr) (room : Bool) : Nat → Thread → Fs → Option (Thread × Fs)
  | 0, t, fs => if t.call = .idle then some (t, fs) else none
  | n + 1, t, fs =>
    if t.call = .idle then some (t, fs)
    else do
      let (t, fs) ← t.goOn gDirInode fs [] room
      Thread.finish gDirInode room n t fs

def Thread.perform (t : Thread) (gDirInode : Addr) (fs : Fs) (act : Act) (room : Bool) :
    Option (Thread × Fs) := do
  let (t, fs) ← t.begin fs act
  t.finish gDirInode room 6 fs

/-! ## The entries of a stream -/

def Dir.pdir (dir : Dir) : PseudoDir := ⟨dir.fdRoot, dir.next⟩

/-- What that many calls of `dir_read` return, up to the end of the directory. -/
def readEntries : Nat → Fs → PseudoDir → Option (List Dirent)
  | 0, _, _ => some []
  | n + 1, fs, pdir => do
    let (_, entry, pdir, fs) ← pdir.readPseudodir fs
    match entry with
    | none => some []
    | some entry => (readEntries n fs pdir).map (entry :: ·)

/-- `dir_seek` to the first entry. -/
def Dir.rewind (fs : Fs) (dir : Dir) : Option (Dir × Fs) := do
  let c ← fs.heap.read dir.fdRoot
  let (dir', _, fs) ←
    if 0 < dir.fPos then seekPseudodir fs dir c.child 0 0 else seekPseudodir fs dir dir.next dir.fPos 0
  let fs ← dir.next.elim (some fs) (inodeRelease fs)
  some (dir', fs)

def Dir.entries (fs : Fs) (dir : Dir) (rewound : Bool) (n : Nat) : Option (List Dirent) :=
  if rewound then (dir.rewind fs).bind fun r => readEntries n r.2 r.1.pdir
  else readEntries n fs dir.pdir

/-! ## What is counted -/

/-- A thread between two calls, or in one: what it refers to is counted. -/
structure AtRest (g : Addr) (t : Thread) (fs : Fs) : Prop where
  tidy : fs.Tidy
  aside : fs.Aside g
  held : ∀ a, t.refs.count a ≤ fs.crefs a

def Call.OnStream : Call → Prop
  | .idle | .dirRead _ _ _ _ | .dirCounted _ _ | .opened _ _ => True
  | .release _ rest => rest.OnStream
  | _ => False

theorem onStream_fileClose (file : File) : (fileClose file .idle).OnStream := by
  obtain ⟨fInode, fPriv⟩ := file
  rcases fPriv with _ | ⟨fdRoot, _ | next, fPos⟩ <;> trivial

section AtRest

variable {fs fs' : Fs} {g : Addr} {t t' : Thread} {room : Bool}

theorem Call.OnStream.undisturbed {call : Call} (h : call.OnStream) (answers : List Addr) :
    call.Undisturbed fs answers := by
  cases call <;> trivial

theorem AtRest.progress {frees : Addr → Prop} (ht : AtRest g t fs) (h : Progress fs fs' t t' frees) :
    AtRest g t' fs' ∧ ∀ a, fs'.crefs a + t.refs.count a = fs.crefs a + t'.refs.count a := by
  refine ⟨⟨h.tidy, h.aside g ht.aside, fun a => ?_⟩, h.count⟩
  have hcount := h.count a
  have hle := ht.held a
  omega

theorem begin_atRest {act : Act} (ht : AtRest g t fs) (hidle : t.call = .idle)
    (h : t.begin fs act = some (t', fs')) :
    AtRest g t' fs' ∧ ∀ a, fs'.crefs a + t.refs.count a = fs.crefs a + t'.refs.count a := by
  have hprogress : Progress fs fs' t t' fun _ => True := begin_progress ht.tidy ht.held hidle h
  exact ht.progress hprogress

theorem goOn_atRest (ht : AtRest g t fs) (hcall : t.call.OnStream)
    (h : t.goOn g fs [] room = some (t', fs')) :
    AtRest g t' fs' ∧ ∀ a, fs'.crefs a + t.refs.count a = fs.crefs a + t'.refs.count a :=
  ht.progress (goOn_progress ht.tidy ht.held (hcall.undisturbed _) h)

theorem goOn_onStream (ht : AtRest g t fs) (hcall : t.call.OnStream)
    (h : t.goOn g fs [] room = some (t', fs')) : fs'.target = fs.target ∧ t'.call.OnStream := by
  obtain ⟨files, call⟩ := t
  cases call with
  | dirRead root child pos fd =>
    cases child with
    | none =>
      cases h
      exact ⟨rfl, trivial⟩
    | some child =>
      obtain ⟨fs₁, haddref, h⟩ := bind_eq_some_iff.mp h
      cases h
      exact ⟨(Fs.onInode_links haddref).1, trivial⟩
  | dirCounted dir fd =>
    obtain ⟨fs₁, haddref, h⟩ := bind_eq_some_iff.mp h
    cases h
    exact ⟨(Fs.onInode_links haddref).1, trivial⟩
  | opened file fd =>
    cases fd <;> simp only [Thread.goOn] at h <;> split at h <;> cases h
    · exact ⟨rfl, trivial⟩
    · exact ⟨rfl, onStream_fileClose _⟩
    · exact ⟨rfl, trivial⟩
    · exact ⟨rfl, onStream_fileClose _⟩
  | release inode rest =>
    obtain ⟨fs₁, hrelease, h⟩ := bind_eq_some_iff.mp h
    cases h
    exact ⟨(ht.aside.release ht.tidy hrelease).1, hcall⟩
  | idle => cases h
  | make | seek | remove | probe | move | freed | mountProbe => exact hcall.elim

variable {n : Nat} {files : FileList} {file : File}

/-- **A call on streams**, to its end: the counts go with the references of the thread, and the links
stay. -/
theorem finish_atRest (ht : AtRest g t fs) (hcall : t.call.OnStream)
    (h : t.finish g room n fs = some (t', fs')) :
    AtRest g t' fs' ∧ t'.call = .idle ∧ fs'.target = fs.target ∧
      ∀ a, fs'.crefs a + t.refs.count a = fs.crefs a + t'.refs.count a := by
  induction n generalizing t fs with
  | zero =>
    unfold Thread.finish at h
    split at h
    · next hidle =>
      cases h
      exact ⟨ht, hidle, rfl, fun _ => rfl⟩
    · cases h
  | succ n ih =>
    unfold Thread.finish at h
    split at h
    · next hidle =>
      cases h
      exact ⟨ht, hidle, rfl, fun _ => rfl⟩
    · obtain ⟨⟨t₁, fs₁⟩, hstep, h⟩ := bind_eq_some_iff.mp h
      obtain ⟨ht₁, hcount₁⟩ := goOn_atRest ht hcall hstep
      obtain ⟨htarget₁, hcall₁⟩ := goOn_onStream ht hcall hstep
      obtain ⟨ht', hidle, htarget, hcount⟩ := ih ht₁ hcall₁ h
      refine ⟨ht', hidle, htarget.trans htarget₁, fun a => ?_⟩
      have h₁ := hcount₁ a
      have h₂ := hcount a
      omega

theorem finish_goOn (hcall : t.call ≠ .idle) :
    t.finish g room (n + 1) fs = (t.goOn g fs [] room).bind fun r => r.1.finish g room n r.2 := by
  rw [Thread.finish, if_neg hcall]
  rfl

theorem finish_idle (hcall : t.call = .idle) : t.finish g room n fs = some (t, fs) := by
  cases n <;> rw [Thread.finish, if_pos hcall]

end AtRest

/-! ## Nothing is missing -/

section Missing

variable {fs : Fs} {a : Addr}

theorem onInode_of_data (fs : Fs) (u : Inode → Inode) (ha : fs.data a ≠ none) :
    ∃ fs', fs.onInode a u = some fs' := by
  obtain ⟨d, hd⟩ := ne_none_iff_exists'.mp ha
  obtain ⟨c, hr, -⟩ := Fs.read_of_data hd
  unfold Fs.onInode
  rw [Heap.modify_of_read _ hr]
  exact ⟨_, rfl⟩

theorem inodeFree_of_bare (ha : fs.data a ≠ none) (hchild : fs.target (.child a) = none)
    (hpeer : fs.target (.peer a) = none) : ∃ heap, inodeFree fs.heap.size fs.heap (some a) = some heap := by
  obtain ⟨d, hd⟩ := ne_none_iff_exists'.mp ha
  obtain ⟨c, hr, rfl⟩ := Fs.read_of_data hd
  have hc : c.child = none := by
    rw [Fs.target, hr] at hchild
    exact hchild
  have hp : c.peer = none := by
    rw [Fs.target, hr] at hpeer
    exact hpeer
  obtain ⟨fuel, hfuel⟩ := Nat.exists_eq_add_one_of_ne_zero (Nat.ne_zero_of_lt (Heap.lt_size_of_read hr))
  have hnil : ∀ m heap, inodeFree m heap none = some heap := by
    intro m heap
    cases m <;> rfl
  rw [hfuel, inodeFree]
  simp only [hr, hc, hp, hnil, bind_eq_bind, bind_some]
  exact ⟨_, rfl⟩

theorem inodeRelease_of_data (hfs : fs.Tidy) (ha : fs.data a ≠ none) :
    ∃ fs', inodeRelease fs a = some fs' := by
  obtain ⟨fs₁, hdrop⟩ := onInode_of_data fs Inode.dropref ha
  obtain ⟨-, d, -, hd₁, -⟩ := Fs.onInode_links hdrop
  obtain ⟨c, hr, hc⟩ := Fs.read_of_data hd₁
  unfold inodeRelease
  rw [hdrop, bind_eq_bind, bind_some, hr, bind_eq_bind, bind_some]
  split
  · next hlast =>
    have hbare := fun l hl => (hfs.onInode hdrop fun _ => rfl).bare_of_deleted (l := l)
      (Fs.data_of_read hr) hlast.2 hl
    obtain ⟨heap, hfree⟩ := inodeFree_of_bare (by rw [hd₁]; simp) (hbare _ rfl) (hbare _ rfl)
    rw [hfree]
    exact ⟨_, rfl⟩
  · exact ⟨_, rfl⟩

theorem readPseudodir_goes_on {pdir : PseudoDir} (hfs : fs.Tidy)
    (hnext : ∀ a, pdir.next = some a → fs.data a ≠ none) :
    ∃ ret entry pdir' fs', pdir.readPseudodir fs = some (ret, entry, pdir', fs') ∧ fs'.Tidy ∧
      (∀ a, pdir'.next = some a → fs'.data a ≠ none) ∧ (entry = none ↔ pdir.next = none) := by
  obtain ⟨root, next⟩ := pdir
  cases next with
  | none => exact ⟨_, _, _, _, rfl, hfs, nofun, by simp⟩
  | some prev =>
    obtain ⟨d, hd⟩ := ne_none_iff_exists'.mp (hnext prev rfl)
    obtain ⟨c, hr, -⟩ := Fs.read_of_data hd
    have hpeer : fs.target (.peer prev) = c.peer := by
      rw [Fs.target, hr]
      rfl
    have haddref : ∃ fs₁, inodeAddref fs c.peer = some fs₁ ∧ fs₁.Tidy ∧ fs₁.target = fs.target ∧
        ∀ b, fs₁.data b = none → fs.data b = none := by
      cases hp : c.peer with
      | none => exact ⟨fs, rfl, hfs, rfl, fun _ h => h⟩
      | some next =>
        obtain ⟨e, he, -⟩ := hfs.target_inside (hpeer.trans hp)
        obtain ⟨fs₁, hon⟩ := onInode_of_data fs Inode.addref (show fs.data next ≠ none by rw [he]; simp)
        exact ⟨fs₁, hon, hfs.onInode hon fun _ => rfl, (Fs.onInode_links hon).1, fun _ => data_onInode hon⟩
    obtain ⟨fs₁, haddref, hfs₁, htarget₁, hkept₁⟩ := haddref
    obtain ⟨fs', hrelease⟩ := inodeRelease_of_data hfs₁ fun hnone => hnext prev rfl (hkept₁ prev hnone)
    obtain ⟨hfs', -, hsame, hfreed⟩ := inodeRelease_links hfs₁ hrelease
    refine ⟨0, some ⟨c.data.iName.take nameMax, direntType c⟩, ⟨root, c.peer⟩, fs', ?_, hfs', ?_, by simp⟩
    · simp only [PseudoDir.readPseudodir, hr, haddref, hrelease, bind_eq_bind, bind_some]
    · intro a ha hnone
      have hlink : fs₁.target (.peer prev) = some a := by
        rw [htarget₁, hpeer]
        exact ha
      by_cases hap : a = prev
      · -- an inode that is freed has been taken out, and has no link to itself
        subst hap
        obtain ⟨-, e, he, hdeleted⟩ := hfreed hnone
        rw [hfs₁.bare_of_deleted he hdeleted rfl] at hlink
        cases hlink
      · obtain ⟨e, he, -⟩ := hfs₁.target_inside hlink
        rw [hsame a hap, he] at hnone
        cases hnone

theorem readEntries_isSome {pdir : PseudoDir} (n : Nat) (hfs : fs.Tidy)
    (hnext : ∀ a, pdir.next = some a → fs.data a ≠ none) : (readEntries n fs pdir).isSome := by
  induction n generalizing fs pdir with
  | zero => rfl
  | succ n ih =>
    obtain ⟨ret, entry, pdir', fs', hread, hfs', hnext', -⟩ := readPseudodir_goes_on hfs hnext
    rw [readEntries, hread, bind_eq_bind, bind_some]
    cases entry with
    | none => rfl
    | some entry => simpa using ih hfs' hnext'

theorem readEntries_end (n : Nat) (fs : Fs) (root : Addr) : readEntries n fs ⟨root, none⟩ = some [] := by
  cases n <;> rfl

theorem readEntries_one {pdir : PseudoDir} (hfs : fs.Tidy)
    (hnext : ∀ a, pdir.next = some a → fs.data a ≠ none) (hopen : pdir.next ≠ none) :
    readEntries 1 fs pdir ≠ some [] := by
  obtain ⟨ret, entry, pdir', fs', hread, -, -, hentry⟩ := readPseudodir_goes_on hfs hnext
  rw [readEntries, hread, bind_eq_bind, bind_some]
  cases entry with
  | none => exact absurd (hentry.mp rfl) hopen
  | some entry => simp [readEntries]

theorem entries_end {dir : Dir} (rewound : Bool) (n : Nat) (hnext : dir.next = none)
    (hroot : fs.data dir.fdRoot ≠ none) (hchild : fs.target (.child dir.fdRoot) = none) :
    dir.entries fs rewound n = some [] := by
  obtain ⟨root, next, pos⟩ := dir
  cases hnext
  cases rewound with
  | false => exact readEntries_end n fs root
  | true =>
    obtain ⟨d, hd⟩ := ne_none_iff_exists'.mp hroot
    obtain ⟨c, hr, -⟩ := Fs.read_of_data hd
    have hc : c.child = none := by
      rw [Fs.target, hr] at hchild
      exact hchild
    have hseek : ∀ pos', seekPseudodir fs ⟨root, none, pos⟩ none pos' 0
        = some (⟨root, none, pos'⟩, .idle, fs) := by
      intro pos'
      have hloop : ∀ m, seekLoop fs.heap 0 m none pos' = some (none, pos') := by
        intro m
        cases m <;> rfl
      unfold seekPseudodir
      rw [hloop]
      rfl
    have hrewind : Dir.rewind fs ⟨root, none, pos⟩
        = some (⟨root, none, if 0 < pos then 0 else pos⟩, fs) := by
      unfold Dir.rewind
      dsimp only at hr ⊢
      rw [hr, bind_eq_bind, bind_some, hc, hseek, hseek]
      split <;> rfl
    unfold Dir.entries
    rw [if_pos rfl, hrewind]
    exact readEntries_end n fs root

end Missing

/-! ## Closing -/

def Call.closes : List Addr → Call
  | [] => .idle
  | a :: as => .release a (Call.closes as)

theorem onStream_closes : ∀ as : List Addr, (Call.closes as).OnStream
  | [] => trivial
  | _ :: as => onStream_closes as

theorem refs_closes : ∀ as : List Addr, (Call.closes as).refs = as
  | [] => rfl
  | a :: as => congrArg (a :: ·) (refs_closes as)

theorem fileClose_closes (file : File) :
    ∃ as, fileClose file .idle = Call.closes as ∧ as.length ≤ 3 ∧
      ∀ a, as.count a = file.refs.count a := by
  have hcount : ∀ as, fileClose file .idle = Call.closes as → ∀ a, as.count a = file.refs.count a := by
    intro as has a
    have hrefs := refs_fileClose file .idle a
    rw [has, refs_closes] at hrefs
    exact hrefs
  obtain ⟨fInode, fPriv⟩ := file
  rcases fPriv with _ | ⟨fdRoot, _ | next, fPos⟩
  · exact ⟨[fInode], rfl, by simp, hcount _ rfl⟩
  · exact ⟨[fdRoot, fInode], rfl, by simp, hcount _ rfl⟩
  · exact ⟨[next, fdRoot, fInode], rfl, by simp, hcount _ rfl⟩

section Closing

variable {fs : Fs} {g : Addr} {t : Thread}

theorem finish_closes (room : Bool) {as : List Addr} (hn : as.length ≤ n)
    (ht : AtRest g ⟨files, Call.closes as⟩ fs) :
    ∃ fs', Thread.finish g room n ⟨files, Call.closes as⟩ fs = some (⟨files, .idle⟩, fs') := by
  induction as generalizing n fs with
  | nil => exact ⟨fs, finish_idle rfl⟩
  | cons a as ih =>
    cases n with
    | zero => cases hn
    | succ n =>
      have hthere : fs.data a ≠ none := by
        intro hnone
        have hheld := ht.held a
        rw [Fs.crefs_of_none hnone] at hheld
        simp [Thread.refs, Call.closes, Call.refs] at hheld
      obtain ⟨fs₁, hrelease⟩ := inodeRelease_of_data ht.tidy hthere
      have hstep : Thread.goOn ⟨files, Call.closes (a :: as)⟩ g fs [] room
          = some (⟨files, Call.closes as⟩, fs₁) := by
        simp only [Thread.goOn, Call.closes, hrelease, bind_eq_bind, bind_some]
      obtain ⟨ht₁, -⟩ := goOn_atRest ht (onStream_closes (a :: as)) hstep
      rw [finish_goOn (by simp [Call.closes]), hstep, bind_some]
      exact ih (by simpa using hn) ht₁

theorem refs_close {fd : Nat} (hidle : t.call = .idle) (hfile : t.file fd = some file) (a : Addr) :
    (Thread.refs ⟨t.files.set fd none, .idle⟩).count a + file.refs.count a = t.refs.count a := by
  have hset := count_flatMap_set slotRefs (Thread.slot_of_file hfile) none a
  simp only [slotRefs, Option.elim, count_nil] at hset
  simp only [Thread.refs, hidle, Call.refs, append_nil]
  omega

/-- **`close`** gives back the references of the file, and leaves the other descriptors as they are. -/
theorem close_spec (room : Bool) {fd : Nat} (ht : AtRest g t fs) (hidle : t.call = .idle)
    (hfile : t.file fd = some file) :
    ∃ fs', t.perform g fs (.close fd) room = some (⟨t.files.set fd none, .idle⟩, fs') ∧
      AtRest g ⟨t.files.set fd none, .idle⟩ fs' ∧ fs'.target = fs.target ∧
      ∀ a, fs'.crefs a + file.refs.count a = fs.crefs a := by
  obtain ⟨as, has, hlength, -⟩ := fileClose_closes file
  have hbegin : t.begin fs (.close fd) = some (⟨t.files.set fd none, Call.closes as⟩, fs) := by
    simp only [Thread.begin, hfile, has, bind_eq_bind, bind_some]
  obtain ⟨ht₁, hcount₁⟩ := begin_atRest ht hidle hbegin
  obtain ⟨fs', hfinish⟩ := finish_closes room (n := 6) (by omega) ht₁
  obtain ⟨ht', -, htarget, hcount⟩ := finish_atRest ht₁ (onStream_closes as) hfinish
  refine ⟨fs', ?_, ht', htarget, fun a => ?_⟩
  · rw [Thread.perform, hbegin]
    exact hfinish
  · have h₁ := hcount₁ a
    have h₂ := hcount a
    have h₃ := refs_close hidle hfile a
    omega

end Closing

/-! ## Opening -/

section Opening

variable {fs fs' : Fs} {g : Addr} {t t' : Thread} {room : Bool}

theorem file_set {list : FileList} {slot : Option File} {fd : Nat} (hfd : fd < list.length) (fd' : Nat) :
    (list.set fd slot)[fd']?.join = if fd' = fd then slot else list[fd']?.join := by
  by_cases heq : fd' = fd
  · subst heq
    rw [getElem?_set_self hfd, if_pos rfl]
    rfl
  · rw [getElem?_set_ne (Ne.symm heq), if_neg heq]

theorem file_filesExtend {list list' : FileList} {row : Nat} (h : filesExtend list row room = some list')
    (fd : Nat) : list'[fd]?.join = list[fd]?.join := by
  obtain ⟨n, rfl, -⟩ := filesExtend_eq h
  by_cases hlt : fd < list.length
  · rw [getElem?_append_left hlt]
  · rw [getElem?_append_right (by omega), getElem?_replicate,
      getElem?_eq_none (by omega : list.length ≤ fd)]
    split <;> rfl

theorem file_filesAllocate {list list' : FileList} (h : filesAllocate list file room = some list') :
    ∃ fd : Nat, list[fd]?.join = none ∧
      ∀ fd' : Nat, list'[fd']?.join = if fd' = fd then some file else list[fd']?.join := by
  unfold filesAllocate at h
  split at h
  · next fd hfd =>
    cases h
    obtain ⟨hlt, hnone, -⟩ := findIdx?_eq_some_iff_getElem.mp hfd
    refine ⟨fd, ?_, file_set hlt⟩
    rw [getElem?_eq_getElem hlt, isNone_iff_eq_none.mp hnone]
    rfl
  · obtain ⟨list₁, hextend, rfl⟩ := map_eq_some_iff.mp h
    refine ⟨list.length, by rw [getElem?_eq_none (Nat.le_refl _)]; rfl, fun fd' => ?_⟩
    have hlong : list.length < list₁.length := by
      obtain ⟨n, rfl, hlong⟩ := filesExtend_eq hextend
      unfold perBlock at hlong
      rw [length_append, length_replicate]
      omega
    rw [file_set hlong, file_filesExtend hextend]

theorem finish_dirRead {root : Addr} {child : Option Addr} {pos : Int} {fd : Option Nat}
    (h : Thread.finish g room (n + 2) ⟨files, .dirRead root child pos fd⟩ fs = some (t', fs')) :
    ∃ fs₁, Thread.finish g room n ⟨files, .opened ⟨g, some ⟨root, child, pos⟩⟩ fd⟩ fs₁ = some (t', fs') := by
  rw [finish_goOn (by simp)] at h
  obtain ⟨⟨t₁, fs₁⟩, hstep₁, h⟩ := bind_eq_some_iff.mp h
  have ht₁ : t₁ = ⟨files, .dirCounted ⟨root, child, pos⟩ fd⟩ := by
    cases child with
    | none =>
      cases hstep₁
      rfl
    | some child =>
      obtain ⟨fs₂, -, hstep₁⟩ := bind_eq_some_iff.mp hstep₁
      cases hstep₁
      rfl
  subst ht₁
  rw [finish_goOn (by simp)] at h
  obtain ⟨⟨t₂, fs₂⟩, hstep₂, h⟩ := bind_eq_some_iff.mp h
  obtain ⟨fs₃, -, hstep₂⟩ := bind_eq_some_iff.mp hstep₂
  cases hstep₂
  exact ⟨_, h⟩

theorem finish_fileClose
    (h : Thread.finish g room n ⟨files, fileClose file .idle⟩ fs = some (t', fs')) :
    t'.files = files := by
  obtain ⟨as, has, -, -⟩ := fileClose_closes file
  rw [has] at h
  clear has
  induction as generalizing n fs with
  | nil =>
    rw [Call.closes, finish_idle rfl] at h
    cases h
    rfl
  | cons a as ih =>
    cases n with
    | zero => cases h
    | succ n =>
      rw [finish_goOn (by simp [Call.closes])] at h
      obtain ⟨⟨t₁, fs₁⟩, hstep, h⟩ := bind_eq_some_iff.mp h
      obtain ⟨fs₂, -, hstep⟩ := bind_eq_some_iff.mp hstep
      cases hstep
      exact ih h

/-- **The last sections of `open` and of `dup`**: the file is in a place that was free, or in none. -/
theorem finish_allocate
    (h : Thread.finish g room (n + 1) ⟨files, .opened file none⟩ fs = some (t', fs')) :
    t'.files = files ∨ ∃ fd : Nat, files[fd]?.join = none ∧
      ∀ fd', t'.file fd' = if fd' = fd then some file else files[fd']?.join := by
  rw [finish_goOn (by simp)] at h
  obtain ⟨⟨t₁, fs₁⟩, hstep, h⟩ := bind_eq_some_iff.mp h
  simp only [Thread.goOn] at hstep
  split at hstep
  · next files' hallocate =>
    cases hstep
    rw [finish_idle rfl] at h
    cases h
    exact .inr (file_filesAllocate hallocate)
  · cases hstep
    exact .inl (finish_fileClose h)

/-- **The last sections of `dup2`**: the file is in place of what was there. -/
theorem finish_replace {fd : Nat}
    (h : Thread.finish g room (n + 1) ⟨files, .opened file (some fd)⟩ fs = some (t', fs'))
    (fd' : Nat) : t'.file fd' = if fd' = fd then some file else files[fd']?.join := by
  rw [finish_goOn (by simp)] at h
  obtain ⟨⟨t₁, fs₁⟩, hstep, h⟩ := bind_eq_some_iff.mp h
  simp only [Thread.goOn] at hstep
  split at hstep
  · cases hstep
  · next hslot =>
    cases hstep
    rw [finish_idle rfl] at h
    cases h
    exact file_set (List.getElem?_eq_some_iff.mp hslot).1 fd'
  · next old hslot =>
    cases hstep
    rw [Thread.file, finish_fileClose h]
    exact file_set (List.getElem?_eq_some_iff.mp hslot).1 fd'

end Opening

end Gpmx.PseudoFs
