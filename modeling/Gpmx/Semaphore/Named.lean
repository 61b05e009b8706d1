import Gpmx.Infra.Runs
import Mathlib

/-!
# Named semaphores

`gpm/libs/libc/semaphore` over RT-Thread: `prv_sem.c`, `sem_open.c`, `sem_close.c`, `sem_unlink.c`.
Every call holds the lock from beginning to end, so that a call is one step. The value of a semaphore
and the threads that wait for it play no part here.

A semaphore is found by the name of its RT-Thread object, of which `RT_NAME_MAX` characters are kept
and compared. With `CONFIG_LIBC_SEMAPHORE_INHERIT` there is a mutex instead, and the pointer to the
object is null, which `posix_sem_find` does not look at.
-/

namespace Gpmx.Semaphore

inductive Errno where
  | einval
  | eexist
  | enfile
  | enoent
  deriving DecidableEq

abbrev Name := List Char

/-- `O_CREAT` and `O_EXCL` -/
structure Oflag where
  creat : Bool
  excl : Bool
  deriving DecidableEq

/-- What was done with a semaphore: the how manyth it was, its name, and how often it is open. -/
structure History where
  number : Nat
  name : Name
  refs : Nat
  deriving DecidableEq

/-- `struct posix_sem`; `object` is the name of the RT-Thread semaphore, if there is one. -/
structure Sem where
  refcount : Nat
  unlinked : Bool
  object : Option Name
  history : History
  deriving DecidableEq

/-- The list from its head on, the semaphores in memory, and a record of those that are not. -/
structure Sys (D : Type) where
  list : List D
  sems : D → Option Sem
  created : Nat
  destroyed : List Sem

variable {D : Type}

def start : Sys D := { list := [], sems := fun _ => none, created := 0, destroyed := [] }

inductive Action (D : Type) where
  /-- `alloc` is where a new semaphore is, if there is memory for it. -/
  | semOpen (name : Name) (oflag : Oflag) (alloc : Option D)
  | semClose (sem : Option D)
  | semUnlink (name : Name)
  deriving DecidableEq

namespace Sys

/-- The loop of `posix_sem_find`; there is no result where it follows a null pointer. -/
def findLoop (rtNameMax : Nat) (s : Sys D) (name : Name) : List D → Option (Option D)
  | [] => some none
  | iter :: rest =>
    match (s.sems iter).bind Sem.object with
    | none => none
    | some object =>
      if object.take rtNameMax = name.take rtNameMax then some (some iter)
      else s.findLoop rtNameMax name rest

def posixSemFind (rtNameMax : Nat) (s : Sys D) (name : Name) : Option (Option D) :=
  s.findLoop rtNameMax name s.list

variable [DecidableEq D]

/-- The part of `sem_open` that makes a new semaphore. -/
def semCreate (rtNameMax : Nat) (inherit : Bool) (name : Name) (alloc : Option D) (s : Sys D) :
    Except Errno D × Sys D :=
  match alloc with
  | none => (.error .enfile, s)
  | some sem =>
    (.ok sem, { s with
      list := sem :: s.list
      sems := Function.update s.sems sem (some
        { refcount := 1, unlinked := false
          object := if inherit then none else some (name.take rtNameMax)
          history := ⟨s.created, name, 1⟩ })
      created := s.created + 1 })

/-- Changes the semaphore at `p`. -/
def modify (s : Sys D) (p : D) (f : Sem → Sem) : Sys D :=
  { s with sems := Function.update s.sems p ((s.sems p).map f) }

/-- One more reference; `refcount` is a `rt_uint16_t`. -/
def addref (s : Sys D) (p : D) : Sys D :=
  s.modify p fun e =>
    { e with refcount := (e.refcount + 1) % 2 ^ 16, history.refs := e.history.refs + 1 }

def dropref (s : Sys D) (p : D) : Sys D :=
  s.modify p fun e =>
    { e with refcount := (e.refcount + 2 ^ 16 - 1) % 2 ^ 16, history.refs := e.history.refs - 1 }

def semOpen (rtNameMax : Nat) (inherit : Bool) (name : Name) (oflag : Oflag) (alloc : Option D)
    (s : Sys D) : Option (Except Errno D × Sys D) :=
  if oflag.creat then
    if oflag.excl then
      match s.posixSemFind rtNameMax name with
      | none => none
      | some (some _) => some (.error .eexist, s)
      | some none => some (s.semCreate rtNameMax inherit name alloc)
    else some (s.semCreate rtNameMax inherit name alloc)
  else
    match s.posixSemFind rtNameMax name with
    | none => none
    | some (some sem) => some (.ok sem, s.addref sem)
    | some none => some (.error .enoent, s)

def posixSemDelete (psem : D) (s : Sys D) : Sys D :=
  match s.sems psem with
  | none => s
  | some e =>
    if psem ∈ s.list then
      { s with
        list := s.list.erase psem
        sems := Function.update s.sems psem none
        destroyed := s.destroyed ++ [e] }
    else s

def semClose (sem : Option D) (s : Sys D) : Option (Except Errno Unit × Sys D) :=
  match sem with
  | none => some (.error .einval, s)
  | some sem =>
    let s := s.dropref sem
    match s.sems sem with
    | none => none
    | some e =>
      if e.refcount = 0 ∧ e.unlinked then some (.ok (), s.posixSemDelete sem) else some (.ok (), s)

def semUnlink (rtNameMax : Nat) (name : Name) (s : Sys D) : Option (Except Errno Unit × Sys D) :=
  match s.posixSemFind rtNameMax name with
  | none => none
  | some none => some (.error .enoent, s)
  | some (some psem) =>
    let s := s.modify psem fun e => { e with unlinked := true }
    match s.sems psem with
    | none => none
    | some e => if e.refcount = 0 then some (.ok (), s.posixSemDelete psem) else some (.ok (), s)

def step (rtNameMax : Nat) (inherit : Bool) (s : Sys D) : Action D → Option (Sys D)
  | .semOpen name oflag alloc =>
    -- the address of a new semaphore is not in use
    if alloc.any (fun p => (s.sems p).isSome) then none
    else (s.semOpen rtNameMax inherit name oflag alloc).map Prod.snd
  | .semClose sem => (s.semClose sem).map Prod.snd
  | .semUnlink name => (s.semUnlink rtNameMax name).map Prod.snd

end Sys

end Gpmx.Semaphore
