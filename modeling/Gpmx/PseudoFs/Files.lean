import Gpmx.PseudoFs.Rename

/-!
# Files, directory streams and calls in flight

Model of the calls of `gpm/fs/vfs` on the pseudo file system, by what they do to inodes. Each thread has
its own table of descriptors (`tg_filelist`) and is in at most one call. A call takes the inode semaphore
several times; between two of these sections other threads go on. What a call reads or does without the
semaphore goes with the section before.

What is not decided by the inodes is an argument: whether `inode_checkflags` lets a file be opened, what
a driver or a mounted file system returns, and the answers of the allocator. A result `none` is a fault.
-/

namespace Gpmx.PseudoFs

open Infra

/-! ## Files -/

/-- `struct fs_pseudodir_s`, with the `f_pos` of its file -/
structure Dir where
  fdRoot : Addr
  next : Option Addr
  fPos : Int
deriving DecidableEq

/-- `struct file`, with the stream that `f_priv` points to if it is a directory -/
structure File where
  fInode : Addr
  fPriv : Option Dir
deriving DecidableEq

def openMax : Nat := 255

def perBlock : Nat := 8

abbrev FileList := List (Option File)

/-- `files_extend` to a number of rows, with whether there is memory for it -/
def filesExtend (list : FileList) (row : Nat) (room : Bool) : Option FileList :=
  if row * perBlock ≤ list.length then some list
  else if row * perBlock > openMax then none
  else if room then some (list ++ List.replicate (row * perBlock - list.length) none)
  else none

/-- `files_allocate` from descriptor 0 on -/
def filesAllocate (list : FileList) (file : File) (room : Bool) : Option FileList :=
  match list.findIdx? Option.isNone with
  | some fd => some (list.set fd (some file))
  | none =>
    (filesExtend list (list.length / perBlock + 1) room).map fun list' => list'.set list.length (some file)

/-! ## Calls -/

inductive Call where
  | idle
  /-- `mkdir` has found nothing at the path -/
  | make (path : List Char)
  /-- `open_pseudodir` has read the first child, which is not counted yet -/
  | dirRead (root : Addr) (child : Option Addr) (pos : Int) (fd : Option Nat)
  /-- `dir_allocate` has a stream, and `g_dir_inode` is not counted yet -/
  | dirCounted (dir : Dir) (fd : Option Nat)
  /-- a file that is not in the table yet; with `dup2`, the descriptor it is for -/
  | opened (file : File) (fd : Option Nat)
  /-- `seek_pseudodir` before the semaphore, with where it starts -/
  | seek (fd : Nat) (curr : Option Addr) (pos offset : Int)
  /-- `nx_unlink` or `rmdir` after its checks -/
  | remove (path : List Char) (inode : Addr)
  /-- `pseudorename` at `next_subdir` -/
  | probe (oldpath : List Char) (oldinode : Addr) (newpath : List Char) (again : Bool)
  /-- `pseudorename` before it makes the new inode -/
  | move (oldpath : List Char) (oldinode : Addr) (newpath : List Char)
  /-- `pseudorename`, when the path that it reads next has been freed -/
  | freed (oldinode : Addr)
  /-- `mountptrename` -/
  | mountProbe (oldinode : Addr) (newpath : List Char)
  /-- before an `inode_release` -/
  | release (inode : Addr) (rest : Call)
deriving DecidableEq

/-- `file_close`, with `dir_close` for a stream -/
def fileClose (file : File) (rest : Call) : Call :=
  match file.fPriv with
  | none => .release file.fInode rest
  | some ⟨fdRoot, none, _⟩ => .release fdRoot (.release file.fInode rest)
  | some ⟨fdRoot, some next, _⟩ => .release next (.release fdRoot (.release file.fInode rest))

/-! ## The first section of a call -/

/-- `file_vopen`, with `O_DIRECTORY` or without -/
def fileVopen (fs : Fs) (path : List Char) (directory access opens : Bool) : Option (Call × Fs) := do
  let (desc, fs) ← inodeFind fs path
  if desc.ret < 0 then some (.idle, fs)
  else
    let inode ← desc.node
    let c ← fs.heap.read inode
    if c.data.iType = .block ∨ c.data.iType = .mtd then
      -- the rest is left to `block_proxy`, which makes a driver of its own
      some (.release inode .idle, fs)
    else if access = false ∨ opens = false then some (.release inode .idle, fs)
    else if directory then
      some (.dirRead inode (if c.data.iType = .mountpt then none else c.child) 0 none, fs)
    else if c.data.iType = .mountpt ∨ c.data.iType = .driver then
      some (.opened ⟨inode, none⟩ none, fs)
    else some (.release inode .idle, fs)

def mkdir (fs : Fs) (path : List Char) : Option (Call × Fs) := do
  let (desc, fs) ← inodeFind fs path
  if desc.ret < 0 then some (.make path, fs)
  else
    -- it exists, or is made by the mounted file system
    let inode ← desc.node
    some (.release inode .idle, fs)

def rmdir (fs : Fs) (path : List Char) : Option (Call × Fs) := do
  let (desc, fs) ← inodeFind fs path
  if desc.ret < 0 then some (.idle, fs)
  else
    let inode ← desc.node
    let c ← fs.heap.read inode
    if c.data.iType = .mountpt ∧ c.data.u ≠ none then some (.release inode .idle, fs)
    else if c.data.u ≠ none ∨ c.child ≠ none then some (.release inode .idle, fs)
    else some (.remove path inode, fs)

/-- `nx_unlink`, with whether the driver has an `unlink` method that succeeds -/
def nxUnlink (fs : Fs) (path : List Char) (unlinked : Bool) : Option (Call × Fs) := do
  let (desc, fs) ← inodeFind fs path
  if desc.ret < 0 then some (.idle, fs)
  else
    let inode ← desc.node
    let c ← fs.heap.read inode
    if c.data.iType = .mountpt ∧ c.data.u ≠ none then some (.release inode .idle, fs)
    else if c.child ≠ none then some (.release inode .idle, fs)
    else if (c.data.iType = .driver ∨ c.data.iType = .block) ∧ unlinked = true then
      some (.remove path inode, fs)
    else if c.data.iType = .pseudodir then some (.remove path inode, fs)
    else some (.release inode .idle, fs)

/-- `rename`, with whether a mounted file system can rename -/
def rename (fs : Fs) (oldpath newpath : List Char) (renames : Bool) : Option (Call × Fs) :=
  if oldpath = [] ∨ newpath = [] then some (.idle, fs)
  else do
    let (desc, fs) ← inodeFind fs oldpath
    if desc.ret < 0 then some (.idle, fs)
    else
      let oldinode ← desc.node
      let c ← fs.heap.read oldinode
      if c.data.iType = .mountpt ∧ desc.relpath ≠ some [] then
        if renames then some (.mountProbe oldinode newpath, fs)
        else some (.release oldinode .idle, fs)
      else some (.probe oldpath oldinode newpath false, fs)

/-- `file_dup2` up to the file in `temp`, for a descriptor or, with `dup`, for the first that is free -/
def fileDup2 (fs : Fs) (file : File) (fd : Option Nat) (opens : Bool) : Option (Call × Fs) := do
  let fs ← fs.onInode file.fInode Inode.addref
  let c ← fs.heap.read file.fInode
  if opens = false then some (.release file.fInode .idle, fs)
  else
    match file.fPriv with
    -- `dir_open` makes a stream of `g_dir_inode`, which is what `f_inode` is
    | some dir => some (.dirRead file.fInode c.child dir.fPos fd, fs)
    | none => some (.opened ⟨file.fInode, none⟩ fd, fs)

/-- `read_pseudodir`: the stream goes on to the next inode. -/
def readPseudodir (fs : Fs) (dir : Dir) : Option (Dir × Call × Fs) :=
  match dir.next with
  | none => some (dir, .idle, fs)
  | some prev => do
    let c ← fs.heap.read prev
    match c.peer with
    | none => some ({ dir with next := none, fPos := dir.fPos + 1 }, .release prev .idle, fs)
    | some next =>
      let fs ← fs.onInode next Inode.addref
      some ({ dir with next := some next, fPos := dir.fPos + 1 }, .release prev .idle, fs)

/-- `dir_seek` with `SEEK_SET`, up to the semaphore. The first child is read without it. -/
def dirSeek (fs : Fs) (dir : Dir) (fd : Nat) (offset : Int) : Option Call := do
  let c ← fs.heap.read dir.fdRoot
  if c.data.iType = .mountpt then some .idle
  else if offset < dir.fPos then some (.seek fd c.child 0 offset)
  else some (.seek fd dir.next dir.fPos offset)

def Inode.driver (fops priv : Option Nat) (node : Inode) : Inode :=
  { node with iType := .driver, u := fops, iPrivate := priv }

def registerDriver (fs : Fs) (path : List Char) (fops priv : Option Nat) (answers : List Addr) :
    Option Fs := do
  let (_, node, fs) ← inodeReserve fs path answers
  match node with
  | none => some fs
  | some node => fs.onInode node (Inode.driver fops priv)

/-! ## The other sections -/

/-- The loop of `seek_pseudodir`. The list of peers is no longer than the heap. -/
def seekLoop (heap : Heap Inode) (offset : Int) : Nat → Option Addr → Int → Option (Option Addr × Int)
  | _, none, pos => some (none, pos)
  | 0, some _, _ => none
  | fuel + 1, some curr, pos =>
    if pos = offset then some (some curr, pos)
    else do
      let c ← heap.read curr
      seekLoop heap offset fuel c.peer (pos + 1)

/-- `seek_pseudodir` from the semaphore on -/
def seekPseudodir (fs : Fs) (dir : Dir) (curr : Option Addr) (pos offset : Int) :
    Option (Dir × Call × Fs) := do
  let (curr, pos) ← seekLoop fs.heap offset fs.heap.size curr pos
  let call := dir.next.elim Call.idle fun prev => .release prev .idle
  match curr with
  | none => some ({ dir with next := none, fPos := pos }, call, fs)
  | some next =>
    let fs ← fs.onInode next Inode.addref
    some ({ dir with next := some next, fPos := pos }, call, fs)

def probeSection (fs : Fs) (oldpath : List Char) (oldinode : Addr) (newpath : List Char)
    (again : Bool) : Option (Call × Fs) := do
  let (newdesc, fs) ← inodeFind fs newpath
  if newdesc.ret < 0 then some (.move oldpath oldinode newpath, fs)
  else
    let newinode ← newdesc.node
    let c ← fs.heap.read newinode
    if oldinode = newinode ∨ c.data.iType = .mountpt then
      some (.release newinode (.release oldinode .idle), fs)
    else if c.data.u = none ∨ c.child ≠ none then
      if again then some (.release newinode (.freed oldinode), fs)
      else
        let (oldpath, subdirname) := basename oldpath
        some (.release newinode (.probe oldpath oldinode (newpath ++ '/' :: subdirname) true), fs)
    else
      let (_, fs) ← inodeRemove fs newpath
      some (.release newinode (.move oldpath oldinode newpath), fs)

/-- `mountptrename` looks for the destination; what follows is left to the mounted file system. -/
def mountProbeSection (fs : Fs) (oldinode : Addr) (newpath : List Char) : Option (Call × Fs) := do
  let (newdesc, fs) ← inodeFind fs newpath
  if newdesc.ret < 0 then some (.release oldinode .idle, fs)
  else
    let newinode ← newdesc.node
    some (.release newinode (.release oldinode .idle), fs)

structure Thread where
  files : FileList
  call : Call
deriving DecidableEq

def Thread.file (t : Thread) (fd : Nat) : Option File := t.files[fd]?.join

def Thread.goOn (t : Thread) (gDirInode : Addr) (fs : Fs) (answers : List Addr) (room : Bool) :
    Option (Thread × Fs) :=
  match t.call with
  | .idle | .freed _ => none
  | .make path => do
    let (_, _, fs) ← inodeReserve fs path answers
    some ({ t with call := .idle }, fs)
  | .dirRead root none pos fd => some ({ t with call := .dirCounted ⟨root, none, pos⟩ fd }, fs)
  | .dirRead root (some child) pos fd => do
    let fs ← fs.onInode child Inode.addref
    some ({ t with call := .dirCounted ⟨root, some child, pos⟩ fd }, fs)
  | .dirCounted dir fd => do
    let fs ← fs.onInode gDirInode Inode.addref
    some ({ t with call := .opened ⟨gDirInode, some dir⟩ fd }, fs)
  | .opened file none =>
    match filesAllocate t.files file room with
    | some files => some ({ files, call := .idle }, fs)
    | none => some ({ t with call := fileClose file .idle }, fs)
  | .opened file (some fd) =>
    -- nobody else looks at the table before the file that was there is closed
    match t.files[fd]? with
    | none => none
    | some none => some ({ files := t.files.set fd (some file), call := .idle }, fs)
    | some (some old) => some ({ files := t.files.set fd (some file), call := fileClose old .idle }, fs)
  | .seek fd curr pos offset => do
    let file ← t.file fd
    let dir ← file.fPriv
    let (dir, call, fs) ← seekPseudodir fs dir curr pos offset
    some ({ files := t.files.set fd (some { file with fPriv := some dir }), call }, fs)
  | .remove path inode => do
    let (_, fs) ← inodeRemove fs path
    some ({ t with call := .release inode .idle }, fs)
  | .probe oldpath oldinode newpath again => do
    let (call, fs) ← probeSection fs oldpath oldinode newpath again
    some ({ t with call }, fs)
  | .move oldpath oldinode newpath => do
    let (_, fs) ← moveInode fs oldpath oldinode newpath answers
    some ({ t with call := .release oldinode .idle }, fs)
  | .mountProbe oldinode newpath => do
    let (call, fs) ← mountProbeSection fs oldinode newpath
    some ({ t with call }, fs)
  | .release inode rest => do
    let fs ← inodeRelease fs inode
    some ({ t with call := rest }, fs)

/-! ## Threads -/

inductive Act where
  | open (path : List Char) (directory access opens : Bool)
  | close (fd : Nat)
  | dup (fd : Nat) (opens : Bool)
  | dup2 (fd1 fd2 : Nat) (opens room : Bool)
  | readdir (fd : Nat)
  | seek (fd : Nat) (offset : Int)
  | mkdir (path : List Char)
  | rmdir (path : List Char)
  | unlink (path : List Char) (unlinked : Bool)
  | rename (oldpath newpath : List Char) (renames : Bool)
  | registerDriver (path : List Char) (fops priv : Option Nat) (answers : List Addr)
  /-- the call that the thread is in goes on -/
  | goOn (answers : List Addr) (room : Bool)
deriving DecidableEq

def Thread.begin (t : Thread) (fs : Fs) : Act → Option (Thread × Fs)
  | .open path directory access opens => do
    let (call, fs) ← fileVopen fs path directory access opens
    some ({ t with call }, fs)
  | .close fd => do
    let file ← t.file fd
    some ({ files := t.files.set fd none, call := fileClose file .idle }, fs)
  | .dup fd opens => do
    let file ← t.file fd
    let (call, fs) ← fileDup2 fs file none opens
    some ({ t with call }, fs)
  | .dup2 fd1 fd2 opens room => do
    let files ← filesExtend t.files (fd2 / perBlock + 1) room
    match t.file fd1 with
    | none => some ({ t with files }, fs)
    | some file =>
      if fd1 = fd2 then some ({ t with files }, fs)
      else
        let (call, fs) ← fileDup2 fs file (some fd2) opens
        some ({ files, call }, fs)
  | .readdir fd => do
    let file ← t.file fd
    let dir ← file.fPriv
    let (dir, call, fs) ← readPseudodir fs dir
    some ({ files := t.files.set fd (some { file with fPriv := some dir }), call }, fs)
  | .seek fd offset => do
    let file ← t.file fd
    let dir ← file.fPriv
    let call ← dirSeek fs dir fd offset
    some ({ t with call }, fs)
  | .mkdir path => do
    let (call, fs) ← PseudoFs.mkdir fs path
    some ({ t with call }, fs)
  | .rmdir path => do
    let (call, fs) ← PseudoFs.rmdir fs path
    some ({ t with call }, fs)
  | .unlink path unlinked => do
    let (call, fs) ← nxUnlink fs path unlinked
    some ({ t with call }, fs)
  | .rename oldpath newpath renames => do
    let (call, fs) ← PseudoFs.rename fs oldpath newpath renames
    some ({ t with call }, fs)
  | .registerDriver path fops priv answers => do
    let fs ← PseudoFs.registerDriver fs path fops priv answers
    some (t, fs)
  | .goOn _ _ => none

/-- One section of a thread: of the call that it is in, or the first of a new one. -/
def Thread.step (t : Thread) (gDirInode : Addr) (fs : Fs) (act : Act) : Option (Thread × Fs) :=
  match t.call, act with
  | _, .goOn answers room => t.goOn gDirInode fs answers room
  | .idle, _ => t.begin fs act
  | _, _ => none

/-- All threads, with `g_dir_inode`, which is in no directory. -/
structure Sys where
  fs : Fs
  gDirInode : Addr
  threads : List Thread
deriving DecidableEq

def Sys.step (s : Sys) (act : Nat × Act) : Option Sys := do
  let t ← s.threads[act.1]?
  let (t, fs) ← t.step s.gDirInode s.fs act.2
  some { s with fs, threads := s.threads.set act.1 t }

end Gpmx.PseudoFs
