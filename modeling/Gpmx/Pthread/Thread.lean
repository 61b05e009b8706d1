import Gpmx.Infra.Runs
import Mathlib

/-!
# Threads

`pthread_create`, `pthread_join`, `pthread_detach`, `pthread_exit` of
`gpm/libs/libc/pthread/pthread.c` and `prv_exit_thread` of `prv_pthread.c`, in their variants for
FreeRTOS.

A task goes through a call in steps, and tasks take turns between them. What stands between
`vTaskSuspendAll` and `xTaskResumeAll` is one step, and so is every call of the kernel outside of it.
Blocks are numbered as they are allocated and a number is not used again, so that a use of a block
that was freed shows.
-/

namespace Gpmx.Pthread.Threads

open Function

/-- A task: that of a thread, with its `pthread_obj_t` as tag, or another one. -/
inductive Task where
  | other (k : Nat)
  | thread (p : Nat)
  deriving DecidableEq

def pthreadSelf : Task → Option Nat
  | .other _ => none
  | .thread p => some p

/--
`pthread_obj_t`. A semaphore is there to be taken if the barrier is `true`, and if the mutex has no
holder.
-/
structure PthreadObj (β : Type) where
  detached : Bool
  ret : Option β
  joinBarrier : Bool
  joinMutex : Option Task

inductive Pc where
  | absent
  /-- in the program, not in one of the calls -/
  | user
  /-- `pthread_join`, in front of the take of `join_mutex` -/
  | joinMutex (p : Nat)
  /-- in front of the take of `join_barrier` -/
  | joinBarrier (p : Nat)
  /-- in front of `vTaskSuspendAll` -/
  | joinSection (p : Nat)
  /-- `pthread_detach`, in front of `vTaskSuspendAll` -/
  | detachSection (p : Nat)
  /-- `prv_exit_thread`, in front of `vTaskSuspendAll` -/
  | exitSection
  /-- in front of `vTaskSuspend` -/
  | exitSuspend
  | suspended
  /-- in front of `vPortFree` -/
  | exitFree
  /-- in front of `vTaskDelete` -/
  | exitDelete
  | deleted
  deriving DecidableEq

inductive Cause where
  | joined
  | detachedEnded
  | endedDetached
  | createFailed
  deriving DecidableEq

/-- A call that has returned: the depth of `vTaskSuspendAll` at its entry and its return. -/
structure Return where
  entry : UInt32
  exit : UInt32
  code : Nat
  deriving DecidableEq

def EAGAIN : Nat := 11
def ENOMEM : Nat := 12
def EINVAL : Nat := 22
def EDEADLK : Nat := 45

/--
The kernel and the blocks. The fields from `entry` on record what happened: `result` is what a thread
ended with, and `fault` is set where a block is used that is not there.
-/
structure State (β : Type) where
  /-- `uxSchedulerSuspended` -/
  depth : UInt32
  running : Task
  blk : Nat → Option (PthreadObj β)
  next : Nat
  pc : Task → Pc
  entry : Task → UInt32
  result : Nat → Option β
  joins : List (Nat × Option β)
  frees : List (Nat × Cause)
  returns : List Return
  fault : Bool

/-- What becomes of `pthread_create`. -/
inductive Creation where
  | noMemory
  | noTask
  | created

variable {β : Type}

namespace State

def vTaskSuspendAll (s : State β) : State β := { s with depth := s.depth + 1 }

def xTaskResumeAll (s : State β) : State β := { s with depth := s.depth - 1 }

def goto (s : State β) (t : Task) (pc : Pc) : State β := { s with pc := update s.pc t pc }

def enter (s : State β) (t : Task) : State β := { s with entry := update s.entry t s.depth }

def leave (s : State β) (t : Task) (code : Nat) : State β :=
  { s.goto t .user with returns := ⟨s.entry t, s.depth, code⟩ :: s.returns }

def setObj (s : State β) (p : Nat) (o : PthreadObj β) : State β :=
  { s with blk := update s.blk p (some o) }

def vPortFree (s : State β) (p : Nat) (cause : Cause) : State β :=
  { s with blk := update s.blk p none, frees := (p, cause) :: s.frees }

def withObj (s : State β) (p : Nat) (f : PthreadObj β → State β) : State β :=
  match s.blk p with
  | none => { s with fault := true }
  | some o => f o

end State

open State

/-- `pthread_create`; nobody else knows the block before its task exists. -/
def pthreadCreate (t : Task) (detached : Bool) (creation : Creation) (s : State β) : State β :=
  let s := s.enter t
  let fresh : PthreadObj β := { detached, ret := none, joinBarrier := false, joinMutex := none }
  match creation with
  | .noMemory => s.leave t ENOMEM
  | .noTask =>
    let p := s.next
    let s := vTaskSuspendAll ({ s with next := p + 1 }.setObj p fresh)
    (xTaskResumeAll (s.vPortFree p .createFailed)).leave t EAGAIN
  | .created =>
    let p := s.next
    let s := vTaskSuspendAll ({ s with next := p + 1 }.setObj p fresh)
    (xTaskResumeAll (s.goto (.thread p) .user)).leave t 0

def pthreadJoin (t : Task) (p : Nat) (s : State β) : State β :=
  let s := s.enter t
  s.withObj p fun o => if o.detached then s.leave t EDEADLK else s.goto t (.joinMutex p)

/-- `xSemaphoreTake (&p->join_mutex, 0)` -/
def joinTakeMutex (t : Task) (p : Nat) (s : State β) : State β :=
  s.withObj p fun o =>
    if o.joinMutex ≠ none then s.leave t EDEADLK
    else
      let s := s.setObj p { o with joinMutex := some t }
      if pthreadSelf t = some p then s.leave t EDEADLK else s.goto t (.joinBarrier p)

/-- `xSemaphoreTake (&p->join_barrier, portMAX_DELAY)`, which may have to wait -/
def joinTakeBarrier (t : Task) (p : Nat) (s : State β) : Option (State β) :=
  match s.blk p with
  | none => some { s with fault := true }
  | some o =>
    if o.joinBarrier then some ((s.setObj p { o with joinBarrier := false }).goto t (.joinSection p))
    else none

/-- The end of `pthread_join`. The semaphores are given, but they are not looked at any more. -/
def joinSection (t : Task) (p : Nat) (s : State β) : State β :=
  let s := vTaskSuspendAll s
  s.withObj p fun o =>
    let s := s.setObj p { o with joinBarrier := true, joinMutex := none }
    let s := s.goto (.thread p) .deleted
    let s := { s with joins := (p, o.ret) :: s.joins }
    (xTaskResumeAll (s.vPortFree p .joined)).leave t 0

def pthreadDetach (t : Task) (p : Nat) (s : State β) : State β :=
  let s := s.enter t
  s.withObj p fun o =>
    if o.detached then (xTaskResumeAll s).leave t EDEADLK else s.goto t (.detachSection p)

/-- `eTaskGetState` of a task that is gone -/
def eDeleted (pc : Pc) : Bool := pc = .deleted || pc = .absent

/-- The rest of `pthread_detach`. -/
def detachSection (t : Task) (p : Nat) (s : State β) : State β :=
  let s := vTaskSuspendAll s
  s.withObj p fun o =>
    if eDeleted (s.pc (.thread p)) then (xTaskResumeAll s).leave t EINVAL
    else
      let o := { o with joinBarrier := true, joinMutex := none }
      if s.pc (.thread p) = .suspended then
        let s := (s.setObj p o).goto (.thread p) .deleted
        (xTaskResumeAll (s.vPortFree p .detachedEnded)).leave t 0
      else (xTaskResumeAll (s.setObj p { o with detached := true })).leave t 0

/-- The return from the start routine, and `pthread_exit`. -/
def threadEnd (p : Nat) (value : β) (s : State β) : State β :=
  s.withObj p fun o =>
    { (s.setObj p { o with ret := some value }).goto (.thread p) .exitSection with
      result := update s.result p (some value) }

/-- `prv_exit_thread`, up to `xTaskResumeAll` -/
def prvExitThread (p : Nat) (s : State β) : State β :=
  let s := vTaskSuspendAll s
  s.withObj p fun o =>
    if o.detached then (xTaskResumeAll s).goto (.thread p) .exitFree
    else (xTaskResumeAll (s.setObj p { o with joinBarrier := true })).goto (.thread p) .exitSuspend

/-- `vPortFree (p)` at the end of a detached thread -/
def exitFree (p : Nat) (s : State β) : State β :=
  s.withObj p fun _ => (s.vPortFree p .endedDetached).goto (.thread p) .exitDelete

def goOn (t : Task) (s : State β) : Option (State β) :=
  match s.pc t, pthreadSelf t with
  | .joinMutex p, _ => some (joinTakeMutex t p s)
  | .joinBarrier p, _ => joinTakeBarrier t p s
  | .joinSection p, _ => some (joinSection t p s)
  | .detachSection p, _ => some (detachSection t p s)
  | .exitSection, some p => some (prvExitThread p s)
  | .exitSuspend, some p => some (s.goto (.thread p) .suspended)
  | .exitFree, some p => some (exitFree p s)
  | .exitDelete, some p => some (s.goto (.thread p) .deleted)
  | _, _ => none

inductive Act (β : Type) where
  | create (t : Task) (detached : Bool) (creation : Creation)
  | join (t : Task) (p : Nat)
  | detach (t : Task) (p : Nat)
  | threadEnd (p : Nat) (value : β)
  | goOn (t : Task)

def Act.task : Act β → Task
  | .create t _ _ => t
  | .join t _ => t
  | .detach t _ => t
  | .threadEnd p _ => .thread p
  | .goOn t => t

def act (s : State β) : Act β → Option (State β)
  | .create t detached creation =>
    if s.pc t = .user then some (pthreadCreate t detached creation s) else none
  | .join t p => if s.pc t = .user then some (pthreadJoin t p s) else none
  | .detach t p => if s.pc t = .user then some (pthreadDetach t p s) else none
  | .threadEnd p value => if s.pc (.thread p) = .user then some (threadEnd p value s) else none
  | .goOn t => goOn t s

/-- A task runs as long as it likes; another one does not run while the scheduler is suspended. -/
def step (s : State β) (a : Act β) : Option (State β) :=
  if s.depth = 0 ∨ s.running = a.task then act { s with running := a.task } a else none

def start : State β where
  depth := 0
  running := .other 0
  blk _ := none
  next := 0
  pc
    | .other _ => .user
    | .thread _ => .absent
  entry _ := 0
  result _ := none
  joins := []
  frees := []
  returns := []
  fault := false

end Gpmx.Pthread.Threads
