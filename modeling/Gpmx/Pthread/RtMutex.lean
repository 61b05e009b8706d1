import Gpmx.Infra.Runs
import Gpmx.Pthread.Mutex
import Mathlib

/-!
# Mutexes on RT-Thread

`gpm/libs/libc/pthread/pthread_mutex.c`: `pthread_mutex_init`, `pthread_mutex_lock`,
`pthread_mutex_trylock` and `pthread_mutex_unlock` in their variants for RT-Thread, over
`rt_mutex_take` and `rt_mutex_release` of `gpm/sched/rttnano/ipc.c`.

The mutex of the kernel is recursive, and is handed to the first thread that waits for it. A mutex that
is initialised statically has the attribute -1, and each call that reads it initialises the mutex, without
a critical section: the attribute is written in one step and the mutex of the kernel in another.
-/

namespace Gpmx.Pthread.RtThread

open Mutex

/-! ## The kernel's mutex -/

def RT_MUTEX_HOLD_MAX : Nat := 255
def RT_MUTEX_VALUE_MAX : Nat := 65535

variable {T : Type} [DecidableEq T]

structure RtMutex (T : Type) where
  suspend_thread : List T
  value : Nat
  original_priority : Nat
  hold : Nat
  owner : Option T
  deriving DecidableEq

def rtMutexInit : RtMutex T :=
  { suspend_thread := [], value := 1, original_priority := 0xff, hold := 0, owner := none }

inductive Take (T : Type) where
  | ok (k : RtMutex T)
  | full (k : RtMutex T)
  | unavailable

/-- `rt_mutex_take`, up to where the thread would have to wait -/
def rtMutexTake (k : RtMutex T) (thread : T) (current_priority : T → Nat) : Take T :=
  if k.owner = some thread then
    if k.hold < RT_MUTEX_HOLD_MAX then .ok { k with hold := k.hold + 1 } else .full k
  else if 0 < k.value then
    let k := { k with
      value := k.value - 1, owner := some thread, original_priority := current_priority thread }
    if k.hold < RT_MUTEX_HOLD_MAX then .ok { k with hold := k.hold + 1 } else .full k
  else .unavailable

/-- `_ipc_list_suspend` with `RT_IPC_FLAG_PRIO`: in front of the first thread with less priority. -/
def ipcListSuspend (list : List T) (thread : T) (current_priority : T → Nat) : List T :=
  match list with
  | [] => [thread]
  | sthread :: rest =>
    if current_priority thread < current_priority sthread then thread :: sthread :: rest
    else sthread :: ipcListSuspend rest thread current_priority

/-- `rt_mutex_release`; with `RT_EOK` comes the thread that is resumed. -/
def rtMutexRelease (k : RtMutex T) (thread : T) (current_priority : T → Nat) :
    RtMutex T × Option (Option T) :=
  if k.owner ≠ some thread then (k, none)
  else
    let k := { k with hold := k.hold - 1 }
    if k.hold = 0 then
      match k.suspend_thread with
      | next :: rest =>
        ({ k with
            owner := some next
            original_priority := current_priority next
            hold := k.hold + 1
            suspend_thread := rest }, some (some next))
      | [] =>
        if k.value < RT_MUTEX_VALUE_MAX then
          ({ k with value := k.value + 1, owner := none, original_priority := 0xff }, some none)
        else (k, none)
    else (k, some none)

/-! ## The mutex -/

/-- `pthread_mutex_t`; `lock` is not there before it is initialised. -/
structure PthreadMutex (T : Type) where
  attr : Attr
  lock : Option (RtMutex T)

def PTHREAD_MUTEX_INITIALIZER : PthreadMutex T := { attr := -1, lock := none }

/-- `mutex->lock.owner`, which is null before the initialisation -/
def PthreadMutex.owner (m : PthreadMutex T) : Option T := m.lock.bind RtMutex.owner

/-! ## Threads -/

inductive Pc where
  | idle
  /-- the attribute was -1; the write of the attribute -/
  | setAttr (c : Call)
  /-- `rt_mutex_init` -/
  | init (c : Call)
  /-- the comparison with the owner -/
  | check (c : Call)
  /-- `rt_mutex_take` -/
  | take (c : Call)
  /-- it waits in the list of the mutex -/
  | suspended
  /-- it was given the mutex -/
  | resumed
  /-- the comparison with `RT_NULL` -/
  | empty
  /-- `rt_mutex_release` -/
  | release
  deriving DecidableEq

/-- The mutex and the threads; `depth` records how often a thread has got the mutex and not given it back. -/
structure State (T : Type) where
  mutex : PthreadMutex T
  pc : T → Pc
  current_priority : T → Nat
  depth : T → Nat
  fault : Bool

namespace State

def goto (s : State T) (t : T) (pc : Pc) : State T := { s with pc := Function.update s.pc t pc }

def got (s : State T) (t : T) : State T := { s with depth := Function.update s.depth t (s.depth t + 1) }

def gave (s : State T) (t : T) : State T := { s with depth := Function.update s.depth t (s.depth t - 1) }

def setLock (s : State T) (k : RtMutex T) : State T :=
  { s with mutex := { s.mutex with lock := some k } }

/-- `RT_THREAD_CTRL_CHANGE_PRIORITY` -/
def setPriority (s : State T) (t : T) (p : Nat) : State T :=
  { s with current_priority := Function.update s.current_priority t p }

end State

/-- A call of a thread begins, its next step is taken, or somebody changes the priority of a thread. -/
inductive Act (T : Type) where
  | call (t : T) (c : Call)
  | goOn (t : T)
  | setPriority (t : T) (p : Nat)

def check (s : State T) (t : T) : Call → State T × Option Int
  | .unlock =>
    if s.mutex.owner ≠ some t then
      if mtype s.mutex.attr = PTHREAD_MUTEX_ERRORCHECK then (s.goto t .idle, some EPERM)
      else (s.goto t .empty, none)
    else (s.goto t .release, none)
  | c =>
    if s.mutex.owner = some t ∧ mtype s.mutex.attr ≠ PTHREAD_MUTEX_RECURSIVE then
      (s.goto t .idle, some EDEADLK)
    else (s.goto t (.take c), none)

/-- `rt_mutex_take`, with the time that `lock` and `trylock` give it -/
def take (s : State T) (t : T) (c : Call) : State T × Option Int :=
  match s.mutex.lock with
  | none => ({ s with fault := true }, none)
  | some k =>
    match rtMutexTake k t s.current_priority with
    | .ok k => (((s.setLock k).got t).goto t .idle, some 0)
    | .full k => ((s.setLock k).goto t .idle, some (if c = .trylock then EBUSY else EINVAL))
    | .unavailable =>
      if c = .trylock then (s.goto t .idle, some EBUSY)
      else
        match k.owner with
        | none => ({ s with fault := true }, none)
        | some owner =>
          let s := if s.current_priority t < s.current_priority owner then
            s.setPriority owner (s.current_priority t) else s
          let list := ipcListSuspend k.suspend_thread t s.current_priority
          ((s.setLock { k with suspend_thread := list }).goto t .suspended, none)

/-- `rt_mutex_release`, with the threads it is about -/
def release (s : State T) (t : T) : State T × Option Int :=
  match s.mutex.lock with
  | none => ({ s with fault := true }, none)
  | some k =>
    let s := if k.owner = some t ∧ k.hold - 1 = 0 then s.setPriority t k.original_priority else s
    match rtMutexRelease k t s.current_priority with
    | (k, none) => ((s.setLock k).goto t .idle, some EINVAL)
    | (k, some none) => (((s.setLock k).gave t).goto t .idle, some 0)
    | (k, some (some next)) =>
      (((((s.setLock k).gave t).got next).goto next .resumed).goto t .idle, some 0)

def act (s : State T) : Act T → Option (State T × Option Int)
  | .call t c =>
    match s.pc t with
    | .idle => some (s.goto t (if s.mutex.attr = -1 then .setAttr c else .check c), none)
    | _ => none
  | .goOn t =>
    match s.pc t with
    | .idle => none
    | .setAttr c =>
      some ({ s with mutex := { s.mutex with attr := pthreadDefaultMutexattr } }.goto t (.init c), none)
    | .init c => some ((s.setLock rtMutexInit).goto t (.check c), none)
    | .check c => some (check s t c)
    | .take c => some (take s t c)
    | .suspended => none
    | .resumed => some (s.goto t .idle, some 0)
    | .empty =>
      if s.mutex.owner = none then some (s.goto t .idle, some 0) else some (s.goto t .release, none)
    | .release => some (release s t)
  | .setPriority t p => some (s.setPriority t p, none)

def step (s : State T) (a : Act T) : Option (State T) := (act s a).map Prod.fst

/-- The mutex is initialised with an attribute, or else statically. -/
def start (current_priority : T → Nat) (init : Option Attr) : State T where
  mutex :=
    match init with
    | none => PTHREAD_MUTEX_INITIALIZER
    | some attr => { attr, lock := some rtMutexInit }
  pc _ := .idle
  current_priority := current_priority
  depth _ := 0
  fault := false

def view : View (State T) T (PthreadMutex T) where
  mutex s := s.mutex
  fault s := s.fault
  depth s := s.depth
  free s := s.mutex.owner = none
  checks s t c := s.pc t = .check c
  tries s t := s.pc t = .take .trylock
  full s t := RT_MUTEX_HOLD_MAX ≤ s.depth t
  goOn s t := act s (.goOn t)

end Gpmx.Pthread.RtThread
