import Gpmx.Infra.Runs
import Gpmx.Infra.TreeRows
import Gpmx.PseudoFs.Namespace

/-!
# Reading a directory of the pseudo file system

`gpm/fs/vfs/fs_dir.c`. A directory stream keeps a pointer to the inode that `readdir` returns
next, with a reference on it, so that the inode is not freed. `inode_unlink` clears the `i_peer`
of the inode it takes out. If that is the inode the stream is at, the next `readdir` returns it,
finds no peer, and the stream is at its end, whatever still follows in the directory.

While the inode the stream is at stays in the directory, it is in its place among the
siblings, and the rest of the directory is to the right of it.

The names of inodes do not change, so it does not matter that `readdir` copies the name before
it takes the semaphore.
-/

namespace Gpmx.PseudoFs

open Infra

/-! ## The stream -/

inductive DType where
  | unknown | chr | sem | directory | mq | blk | shm | mtd
deriving DecidableEq

def nameMax : Nat := 40

structure Dirent where
  dName : Name
  dType : DType
deriving DecidableEq

/-- `struct fs_pseudodir_s`, without the path of the directory. -/
structure PseudoDir where
  fdRoot : Addr
  next : Option Addr
deriving DecidableEq

def inodeAddref (fs : Fs) : Option Addr → Option Fs
  | none => some fs
  | some node => fs.onInode node Inode.addref

/-- `open_pseudodir`, with the memory for the stream. -/
def openPseudodir (fs : Fs) (inode : Addr) : Option (PseudoDir × Fs) := do
  let c ← fs.heap.read inode
  let fs ← inodeAddref fs c.child
  some (⟨inode, c.child⟩, fs)

/-- The type that `read_pseudodir` reports. -/
def direntType (c : Cell Inode) : DType :=
  if c.child ≠ none ∨ c.data.u = none then .directory
  else
    match c.data.iType with
    | .block => .blk
    | .mtd => .mtd
    | .mountpt => .directory
    | .driver => .chr
    | .namedsem => .sem
    | .mqueue => .mq
    | .shm => .shm
    | _ => .unknown

/-- `read_pseudodir`: the return value, the entry filled in, the stream and the tree. -/
def PseudoDir.readPseudodir (fs : Fs) (pdir : PseudoDir) : Option (Int × Option Dirent × PseudoDir × Fs) :=
  match pdir.next with
  | none => some (-ENOENT, none, pdir, fs)
  | some prev => do
    let c ← fs.heap.read prev
    let entry : Dirent := ⟨c.data.iName.take nameMax, direntType c⟩
    let next := c.peer
    -- a reference on the next inode, before the one on this inode is given back
    let fs ← inodeAddref fs next
    let fs ← inodeRelease fs prev
    some (0, some entry, { pdir with next }, fs)

/-! ## A stream among other tasks -/

/-- The tree, the stream, what the stream returned (the inode and its name), and whether it has
reported the end. -/
structure DirState where
  fs : Fs
  pdir : PseudoDir
  returned : List (Addr × Name)
  ended : Bool
deriving DecidableEq

inductive DirEvent where
  /-- another task makes an inode and what is missing above it -/
  | create (path : List Char) (answers : List Addr)
  /-- another task removes an inode -/
  | remove (path : List Char)
  | readdir
deriving DecidableEq

/-- What `readdir` adds to the record: the inode the stream was at. -/
def DirState.current (s : DirState) : List (Addr × Name) :=
  match s.pdir.next.bind fun a => (s.fs.heap.read a).map fun c => (a, c.data.iName) with
  | none => []
  | some entry => [entry]

def DirState.step (s : DirState) : DirEvent → Option DirState
  | .create path answers => do
    let (_, _, fs) ← inodeReserve s.fs path answers
    some { s with fs }
  | .remove path => do
    let (_, fs) ← inodeRemove s.fs path
    some { s with fs }
  | .readdir => do
    let (ret, _, pdir, fs) ← PseudoDir.readPseudodir s.fs s.pdir
    some ⟨fs, pdir, s.returned ++ s.current, s.ended || ret < 0⟩

def inodeAt (fs : Fs) (path : List Char) : Option Addr :=
  (inodeSearch fs path).bind SearchDesc.node

/-- Others only remove what is in the directory, or below its entries. -/
def DirEvent.Inside (dir : List Char) : DirEvent → Prop
  | .remove path => pathKeys dir <+: pathKeys path ∧ pathKeys path ≠ pathKeys dir
  | _ => True

/-- The inode that a stream is at is not removed, unless it is the last of the directory. -/
def DirEvent.KeepsNext (s : DirState) : DirEvent → Prop
  | .remove path =>
    ∀ a, s.pdir.next = some a → inodeAt s.fs path = some a →
      (s.fs.heap.read a).bind Cell.peer = none
  | _ => True

/-- The entry `b` is not removed. -/
def DirEvent.Spares (s : DirState) (b : Addr) : DirEvent → Prop
  | .remove path => inodeAt s.fs path ≠ some b
  | _ => True

instance (dir : List Char) : (ev : DirEvent) → Decidable (ev.Inside dir)
  | .remove path => inferInstanceAs (Decidable (pathKeys dir <+: pathKeys path ∧ _))
  | .create _ _ => inferInstanceAs (Decidable True)
  | .readdir => inferInstanceAs (Decidable True)

instance (s : DirState) : (ev : DirEvent) → Decidable (ev.KeepsNext s)
  | .remove path => decidable_of_iff
      (s.pdir.next.isSome = true → inodeAt s.fs path = s.pdir.next →
        (s.pdir.next.bind fun a => (s.fs.heap.read a).bind Cell.peer) = none)
      (by
        unfold DirEvent.KeepsNext
        cases s.pdir.next with
        | none => simp
        | some a => simp [eq_comm])
  | .create _ _ => inferInstanceAs (Decidable True)
  | .readdir => inferInstanceAs (Decidable True)

instance (s : DirState) (b : Addr) : (ev : DirEvent) → Decidable (ev.Spares s b)
  | .remove path => inferInstanceAs (Decidable (inodeAt s.fs path ≠ some b))
  | .create _ _ => inferInstanceAs (Decidable True)
  | .readdir => inferInstanceAs (Decidable True)

end Gpmx.PseudoFs
