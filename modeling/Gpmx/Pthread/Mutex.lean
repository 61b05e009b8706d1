import Gpmx.Infra.Runs
import Mathlib

/-!
# What a mutex is for

`gpm/libs/libc/pthread/pthread_mutex.c`: the attributes, which the two kernels share, and what is
expected of the mutex on each of them. A kernel's model is looked at through a `View`.
-/

namespace Gpmx.Pthread.Mutex

def EPERM : Int := 1
def EBUSY : Int := 16
def EINVAL : Int := 22
def EDEADLK : Int := 45

/-! ## Attributes -/

def PTHREAD_MUTEX_NORMAL : Int := 0
def PTHREAD_MUTEX_ERRORCHECK : Int := 1
def PTHREAD_MUTEX_RECURSIVE : Int := 2

/-- `pthread_mutexattr_t` is a `long`. -/
abbrev Attr := BitVec 32

def MUTEXATTR_TYPE_MASK : Attr := 0xf

/-- `PTHREAD_PROCESS_PRIVATE` -/
def pthreadDefaultMutexattr : Attr := 0

/-- `attr & MUTEXATTR_TYPE_MASK` -/
def mtype (attr : Attr) : Int := (attr &&& MUTEXATTR_TYPE_MASK).toInt

def pthreadMutexattrSettype (attr : Attr) (type : Int) : Int × Attr :=
  if type ≥ PTHREAD_MUTEX_NORMAL ∧ type ≤ PTHREAD_MUTEX_ERRORCHECK then
    (0, (attr &&& ~~~MUTEXATTR_TYPE_MASK) ||| BitVec.ofInt 32 type)
  else (EINVAL, attr)

def Documented (type : Int) : Prop :=
  type = PTHREAD_MUTEX_NORMAL ∨ type = PTHREAD_MUTEX_ERRORCHECK ∨ type = PTHREAD_MUTEX_RECURSIVE

/-- The type that the mutex is initialised with: by an attribute, or else statically. -/
def initType : Option Attr → Int
  | none => PTHREAD_MUTEX_NORMAL
  | some attr => mtype attr

theorem mtype_default : mtype pthreadDefaultMutexattr = PTHREAD_MUTEX_NORMAL := by decide

theorem pthreadMutexattrSettype_type {attr : Attr} {type : Int} (htype : Documented type)
    (hrec : type ≠ PTHREAD_MUTEX_RECURSIVE) :
    (pthreadMutexattrSettype attr type).1 = 0 ∧ mtype (pthreadMutexattrSettype attr type).2 = type := by
  have hmask : ∀ word : Attr, word &&& MUTEXATTR_TYPE_MASK = word →
      ((attr &&& ~~~MUTEXATTR_TYPE_MASK) ||| word) &&& MUTEXATTR_TYPE_MASK = word := by
    intro word hword
    rw [BitVec.and_or_distrib_right, hword, BitVec.and_assoc, BitVec.and_comm (~~~_)]
    simp
  rcases htype with rfl | rfl | rfl
  · refine ⟨rfl, ?_⟩
    show (((attr &&& ~~~MUTEXATTR_TYPE_MASK) ||| BitVec.ofInt 32 0) &&& MUTEXATTR_TYPE_MASK).toInt = _
    rw [hmask _ (by decide)]
    rfl
  · refine ⟨rfl, ?_⟩
    show (((attr &&& ~~~MUTEXATTR_TYPE_MASK) ||| BitVec.ofInt 32 1) &&& MUTEXATTR_TYPE_MASK).toInt = _
    rw [hmask _ (by decide)]
    rfl
  · exact absurd rfl hrec

/-! ## Calls -/

inductive Call where
  | lock
  | trylock
  | unlock
  deriving DecidableEq

structure View (σ T M : Type) where
  mutex : σ → M
  /-- A use of a lock that was never created. -/
  fault : σ → Bool
  /-- How often a thread has got the mutex and not given it back. -/
  depth : σ → T → Nat
  /-- Nobody has the lock of the kernel. -/
  free : σ → Prop
  /-- The thread is in front of the comparison with the owner. -/
  checks : σ → T → Call → Prop
  /-- The thread is in front of the take of `pthread_mutex_trylock`. -/
  tries : σ → T → Prop
  /-- The thread has got the mutex as often as the kernel can count. -/
  full : σ → T → Prop
  /-- The next step of a thread, with what the call returns where it does. -/
  goOn : σ → T → Option (σ × Option Int)

/--
At most one thread has the mutex, which is free when it has been unlocked as often as it was locked. On an
error-checking mutex a relock by the owner fails with `EDEADLK` and an unlock by another thread with
`EPERM`, and both change nothing. `trylock` fails with `EBUSY` exactly when another thread has the mutex,
or the thread itself has it and it is a normal one, or the kernel can count no further.
-/
structure Correct {σ T M : Type} (V : View σ T M) (type : Int) (s : σ) : Prop where
  fault : V.fault s = false
  exclusive : ∀ t u, 0 < V.depth s t → 0 < V.depth s u → t = u
  released : V.free s ↔ ∀ t, V.depth s t = 0
  relock : type = PTHREAD_MUTEX_ERRORCHECK → ∀ t c, c ≠ .unlock → V.checks s t c →
    ∃ s' r, V.goOn s t = some (s', r) ∧ (r = some EDEADLK ↔ 0 < V.depth s t) ∧
      (r = some EDEADLK → V.mutex s' = V.mutex s ∧ V.depth s' = V.depth s)
  unlock : type = PTHREAD_MUTEX_ERRORCHECK → ∀ t, V.checks s t .unlock →
    ∃ s' r, V.goOn s t = some (s', r) ∧ (r = some EPERM ↔ V.depth s t = 0) ∧
      (r = some EPERM → V.mutex s' = V.mutex s ∧ V.depth s' = V.depth s)
  busy : ∀ t, V.tries s t →
    ∃ s' r, V.goOn s t = some (s', r) ∧
      (r = some EBUSY ↔
        V.full s t ∨ ∃ u, 0 < V.depth s u ∧ (u ≠ t ∨ type = PTHREAD_MUTEX_NORMAL))

end Gpmx.Pthread.Mutex

/-!
## Mutexes on FreeRTOS

`gpm/libs/libc/pthread/pthread_mutex.c`: `init_staticmutix`, `pthread_mutex_init`,
`pthread_mutex_timedlock`, `pthread_mutex_trylock` and `pthread_mutex_unlock` in their variants for
FreeRTOS.

A thread goes through a call in steps. A call of the kernel is one step, and so is each read or write of
the mutex next to it. `pthread_mutex_trylock` is `pthread_mutex_timedlock` up to the beginning of the
epoch: seconds are unsigned, so this time has come whatever the clock says, and the call does not wait.
-/

namespace Gpmx.Pthread.Mutex

/-! ## The kernel's mutex -/

variable {T : Type} [DecidableEq T]

structure Semaphore (T : Type) where
  xMutexHolder : Option T
  uxRecursiveCallCount : Nat
  deriving DecidableEq

/-- `xSemaphoreCreateMutexStatic`, `xSemaphoreCreateRecursiveMutexStatic` -/
def Semaphore.create : Semaphore T := { xMutexHolder := none, uxRecursiveCallCount := 0 }

/-- `xSemaphoreTake`, where the mutex is not held -/
def Semaphore.take (k : Semaphore T) (t : T) : Option (Semaphore T) :=
  if k.xMutexHolder = none then some { k with xMutexHolder := some t } else none

/-- `xSemaphoreTakeRecursive`, where it does not have to wait -/
def Semaphore.takeRecursive (k : Semaphore T) (t : T) : Option (Semaphore T) :=
  if k.xMutexHolder = some t then
    some { k with uxRecursiveCallCount := k.uxRecursiveCallCount + 1 }
  else
    (k.take t).map fun k => { k with uxRecursiveCallCount := k.uxRecursiveCallCount + 1 }

def Semaphore.give (k : Semaphore T) : Semaphore T := { k with xMutexHolder := none }

def Semaphore.giveRecursive (k : Semaphore T) (t : T) : Semaphore T :=
  if k.xMutexHolder = some t then
    let k := { k with uxRecursiveCallCount := k.uxRecursiveCallCount - 1 }
    if k.uxRecursiveCallCount = 0 then k.give else k
  else k

/-! ## The mutex -/

/-- `pthread_mutex_t`; `lock` is not there before it is created. -/
structure PthreadMutex (T : Type) where
  attr : Attr
  lock : Option (Semaphore T)
  initialized : Bool
  owner : Option T

def PTHREAD_MUTEX_INITIALIZER : PthreadMutex T :=
  { attr := -1, lock := none, initialized := false, owner := none }

def pthreadMutexInit (attr : Attr) : PthreadMutex T :=
  { PTHREAD_MUTEX_INITIALIZER with attr, lock := some .create, initialized := true }

/-- The critical section of `init_staticmutix` -/
def initStaticmutix (m : PthreadMutex T) : PthreadMutex T :=
  if m.initialized then m
  else { m with attr := pthreadDefaultMutexattr, lock := some .create, initialized := true }

/-! ## Threads -/

inductive Pc where
  | idle
  /-- the mutex was not initialised; `taskENTER_CRITICAL` -/
  | enter (c : Call)
  /-- the comparison with the owner -/
  | check (c : Call)
  /-- the take of the semaphore -/
  | take (c : Call)
  /-- the write of the owner -/
  | own
  /-- `vTaskSuspendAll` of `pthread_mutex_unlock` -/
  | give
  deriving DecidableEq

/-- The mutex and the threads; `depth` records how often a thread has got the mutex and not given it back. -/
structure State (T : Type) where
  mutex : PthreadMutex T
  pc : T → Pc
  depth : T → Nat
  fault : Bool

namespace State

def goto (s : State T) (t : T) (pc : Pc) : State T := { s with pc := Function.update s.pc t pc }

def got (s : State T) (t : T) : State T := { s with depth := Function.update s.depth t (s.depth t + 1) }

def gave (s : State T) (t : T) : State T := { s with depth := Function.update s.depth t (s.depth t - 1) }

def setMutex (s : State T) (m : PthreadMutex T) : State T := { s with mutex := m }

end State

inductive Act (T : Type) where
  | call (t : T) (c : Call)
  | goOn (t : T)

def check (s : State T) (t : T) : Call → State T × Option Int
  | .unlock =>
    if (mtype s.mutex.attr = PTHREAD_MUTEX_ERRORCHECK ∨ mtype s.mutex.attr = PTHREAD_MUTEX_RECURSIVE) ∧
        s.mutex.owner ≠ some t then (s.goto t .idle, some EPERM)
    else (s.goto t .give, none)
  | c =>
    if mtype s.mutex.attr = PTHREAD_MUTEX_ERRORCHECK ∧ s.mutex.owner = some t then
      (s.goto t .idle, some EDEADLK)
    else (s.goto t (.take c), none)

/-- The take; a `lock` waits where the semaphore is not there. -/
def takeSemaphore (s : State T) (t : T) (c : Call) : Option (State T × Option Int) :=
  match s.mutex.lock with
  | none => some ({ s with fault := true }, none)
  | some k =>
    match if mtype s.mutex.attr = PTHREAD_MUTEX_RECURSIVE then k.takeRecursive t else k.take t with
    | some k => some (((s.setMutex { s.mutex with lock := some k }).got t).goto t .own, none)
    | none => if c = .trylock then some (s.goto t .idle, some EBUSY) else none

/-- The section of `pthread_mutex_unlock` -/
def giveSemaphore (s : State T) (t : T) : State T × Option Int :=
  match s.mutex.lock with
  | none => ({ s with fault := true }, none)
  | some k =>
    let k := if mtype s.mutex.attr = PTHREAD_MUTEX_RECURSIVE then k.giveRecursive t else k.give
    (((s.setMutex { s.mutex with lock := some k, owner := k.xMutexHolder }).gave t).goto t .idle, some 0)

def act (s : State T) : Act T → Option (State T × Option Int)
  | .call t c =>
    match s.pc t with
    | .idle => some (s.goto t (if s.mutex.initialized then .check c else .enter c), none)
    | _ => none
  | .goOn t =>
    match s.pc t with
    | .idle => none
    | .enter c => some ((s.setMutex (initStaticmutix s.mutex)).goto t (.check c), none)
    | .check c => some (check s t c)
    | .take c => takeSemaphore s t c
    | .own => some ((s.setMutex { s.mutex with owner := some t }).goto t .idle, some 0)
    | .give => some (giveSemaphore s t)

def step (s : State T) (a : Act T) : Option (State T) := (act s a).map Prod.fst

/-- The mutex is initialised with an attribute, or else statically. -/
def start (init : Option Attr) : State T where
  mutex :=
    match init with
    | none => PTHREAD_MUTEX_INITIALIZER
    | some attr => pthreadMutexInit attr
  pc _ := .idle
  depth _ := 0
  fault := false

def view : View (State T) T (PthreadMutex T) where
  mutex s := s.mutex
  fault s := s.fault
  depth s := s.depth
  free s := ∀ k, s.mutex.lock = some k → k.xMutexHolder = none
  checks s t c := s.pc t = .check c
  tries s t := s.pc t = .take .trylock
  full _ _ := False
  goOn s t := act s (.goOn t)

end Gpmx.Pthread.Mutex
