import Gpmx.Infra.Runs
import Mathlib

/-!
# Threads and their descriptors

`files_extend`, `files_allocate`, `files_duplist` and `nx_close` of `gpm/fs/inode/fs_files.c`,
`file_dup2` and `file_close`, and what `pthread_create` and the end of a thread do with the list of
descriptors.

The rows of a list are put together to one list of slots, in which the descriptor is the index. A thread
uses its own list only, and `pthread_create` copies with the scheduler suspended. What memory and drivers
answer is an argument.
-/

namespace Gpmx.Pthread.Inherit

/-- `struct file` of an open descriptor, without what its driver keeps in `f_priv` -/
structure File (ι : Type) where
  fInode : ι
  fOflags : Nat
  fPos : Int
  deriving DecidableEq

def oCloexec : Nat := 1 <<< 10

/-- `(f_oflags & O_CLOEXEC) != 0` -/
def File.cloexec {ι : Type} (file : File ι) : Bool := file.fOflags &&& oCloexec ≠ 0

structure FileList (ι : Type) where
  slots : List (Option (File ι))
  /-- `fl_files` is the address of memory that has been freed. -/
  dangling : Bool
  deriving DecidableEq

def perBlock : Nat := 8

def openMax : Nat := 255

def ENFILE : Int := 23
def EMFILE : Int := 24

/-- What the allocator answers to `files_extend`: `kmm_realloc` or `kmm_zalloc` may fail. -/
inductive Memory where
  | enough
  | noTable
  | noRow
  deriving DecidableEq

variable {ι : Type}

def FileList.file (list : FileList ι) (fd : Nat) : Option (File ι) := list.slots[fd]?.join

def FileList.empty : FileList ι := { slots := [], dangling := false }

def filesExtend (list : FileList ι) (row : Nat) (memory : Memory) : Int × FileList ι :=
  if row * perBlock ≤ list.slots.length then (0, list)
  else if row * perBlock > openMax then (-EMFILE, list)
  else
    match memory with
    | .noTable => (-ENFILE, list)
    -- the table that `kmm_realloc` returned is freed, `fl_files` is what it was
    | .noRow => (-ENFILE, { list with dangling := list.dangling || !list.slots.isEmpty })
    | .enough =>
      (0, { list with
        slots := list.slots ++ List.replicate (row * perBlock - list.slots.length) none })

def FileList.setFile (list : FileList ι) (fd : Nat) (file : Option (File ι)) : FileList ι :=
  { list with slots := list.slots.set fd file }

/-- `files_allocate` from descriptor 0 on -/
def filesAllocate (list : FileList ι) (file : File ι) (memory : Memory) : Int × FileList ι :=
  match list.slots.findIdx? Option.isNone with
  | some fd => (fd, list.setFile fd (some file))
  | none =>
    match filesExtend list (list.slots.length / perBlock + 1) memory with
    | (ret, list') =>
      if ret ≥ 0 then (list.slots.length, list'.setFile list.slots.length (some file))
      else (ret, list')

abbrev Counts (ι : Type) := ι → Nat

variable [DecidableEq ι]

def inodeAddref (crefs : Counts ι) (inode : ι) : Counts ι :=
  Function.update crefs inode (crefs inode + 1)

def inodeRelease (crefs : Counts ι) (inode : ι) : Counts ι :=
  Function.update crefs inode (crefs inode - 1)

def fileClose (slot : Option (File ι)) (crefs : Counts ι) : Counts ι :=
  match slot with
  | none => crefs
  | some file => inodeRelease crefs file.fInode

/-- `file_dup2`; `ret` is what the driver or the file system returns. -/
def fileDup2 (file : File ι) (old : Option (File ι)) (ret : Int) (crefs : Counts ι) :
    Int × Option (File ι) × Counts ι :=
  if ret < 0 then (ret, old, inodeRelease (inodeAddref crefs file.fInode) file.fInode)
  else (0, some file, fileClose old (inodeAddref crefs file.fInode))

structure Answers where
  semtake : Bool
  memory : Nat → Memory
  dup2 : Nat → Int

/-- The loops of `files_duplist`, from a descriptor on. -/
def duplistLoop (plist : FileList ι) (answers : Answers) :
    Nat → Nat → Int → FileList ι → Counts ι → Int × FileList ι × Counts ι
  | 0, _, ret, clist, crefs => (ret, clist, crefs)
  | n + 1, fd, ret, clist, crefs =>
    -- `CONFIG_FDCLONE_STDIO`
    if fd ≥ 3 then (ret, clist, crefs)
    else
      match plist.file fd with
      | none => duplistLoop plist answers n (fd + 1) ret clist crefs
      | some file =>
        if file.cloexec then duplistLoop plist answers n (fd + 1) ret clist crefs
        else
          match filesExtend clist (fd / perBlock + 1) (answers.memory fd) with
          | (ret, clist) =>
            if ret < 0 then (ret, clist, crefs)
            else
              match fileDup2 file (clist.file fd) (answers.dup2 fd) crefs with
              | (ret, slot, crefs) =>
                if ret < 0 then (ret, clist, crefs)
                else duplistLoop plist answers n (fd + 1) ret (clist.setFile fd slot) crefs

def filesDuplist (plist clist : FileList ι) (answers : Answers) (crefs : Counts ι) :
    Int × FileList ι × Counts ι :=
  if answers.semtake then duplistLoop plist answers plist.slots.length 0 0 clist crefs
  else (-1, clist, crefs)

/-! ## Threads -/

/-- A call between two of its steps, with the reference that it has. -/
inductive Call (ι : Type) where
  | idle
  /-- `open`, with a file that is not in the list yet -/
  | opening (file : File ι)
  /-- `close`, with a file that is not in the list any more -/
  | closing (file : File ι)

structure Thread (ι : Type) where
  files : FileList ι
  call : Call ι
  ended : Bool

structure Sys (ι : Type) where
  crefs : Counts ι
  pthreadCounter : Nat
  threads : List (Thread ι)

/-- What becomes of `pthread_create`. -/
inductive Creation where
  | noMemory
  | noTask
  | created
  deriving DecidableEq

inductive Act (ι : Type) where
  | create (parent : Option Nat) (answers : Answers) (creation : Creation)
  | lookup (t : Nat) (file : File ι)
  | install (t : Nat) (memory : Memory)
  | abandon (t : Nat)
  | take (t : Nat) (fd : Nat)
  | release (t : Nat)
  | finish (t : Nat)

namespace Sys

def inherit (s : Sys ι) (parent : Option Nat) (answers : Answers) : FileList ι × Counts ι :=
  if s.pthreadCounter > 0 then
    -- `pthread_self` of a task that is no thread is `NULL`
    match parent.bind (s.threads[·]?) with
    | none => (.empty, s.crefs)
    | some p => (filesDuplist p.files .empty answers s.crefs).2
  else (.empty, s.crefs)

/-- `pthread_create`, where the result of `files_duplist` is not looked at -/
def pthreadCreate (s : Sys ι) (parent : Option Nat) (answers : Answers) : Creation → Sys ι
  | .noMemory => s
  | .noTask =>
    { s with crefs := (s.inherit parent answers).2, pthreadCounter := s.pthreadCounter + 1 }
  | .created =>
    { crefs := (s.inherit parent answers).2, pthreadCounter := s.pthreadCounter + 1
      threads := s.threads ++ [{ files := (s.inherit parent answers).1, call := .idle, ended := false }] }

def act (t : Thread ι) (crefs : Counts ι) : Act ι → Option (Thread ι × Counts ι)
  | .lookup _ file =>
    match t.call with
    | .idle => some ({ t with call := .opening file }, inodeAddref crefs file.fInode)
    | _ => none
  | .install _ memory =>
    match t.call with
    | .opening file =>
      match filesAllocate t.files file memory with
      | (ret, files) =>
        if ret < 0 then some ({ t with files, call := .closing file }, crefs)
        else some ({ t with files, call := .idle }, crefs)
    | _ => none
  | .abandon _ =>
    match t.call with
    | .opening file => some ({ t with call := .closing file }, crefs)
    | _ => none
  | .take _ fd =>
    match t.call, t.files.file fd with
    | .idle, some file => some ({ t with files := t.files.setFile fd none, call := .closing file }, crefs)
    | _, _ => none
  | .release _ =>
    match t.call with
    | .closing file => some ({ t with call := .idle }, inodeRelease crefs file.fInode)
    | _ => none
  | .finish _ =>
    match t.call with
    -- neither `prv_exit_thread` nor the join or the detach releases the list
    | .idle => some ({ t with ended := true }, crefs)
    | _ => none
  | .create _ _ _ => none

/-- The thread `i` does something. -/
def onThread (s : Sys ι) (i : Nat) (a : Act ι) : Option (Sys ι) :=
  match s.threads[i]? with
  | none => none
  | some t =>
    if t.ended then none
    else (act t s.crefs a).map fun r => { s with crefs := r.2, threads := s.threads.set i r.1 }

/-- A thread that can call `pthread_create`; every other task can. -/
def calls (s : Sys ι) : Option Nat → Bool
  | none => true
  | some i =>
    match s.threads[i]? with
    | some { files := _, call := .idle, ended := false } => true
    | _ => false

def step (s : Sys ι) : Act ι → Option (Sys ι)
  | .create parent answers creation =>
    if s.calls parent then some (s.pthreadCreate parent answers creation) else none
  | .lookup i file => s.onThread i (.lookup i file)
  | .install i memory => s.onThread i (.install i memory)
  | .abandon i => s.onThread i (.abandon i)
  | .take i fd => s.onThread i (.take i fd)
  | .release i => s.onThread i (.release i)
  | .finish i => s.onThread i (.finish i)

def start : Sys ι := { crefs := fun _ => 0, pthreadCounter := 0, threads := [] }

end Sys

end Gpmx.Pthread.Inherit
