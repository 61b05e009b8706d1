import Gpmx.Pthread.Rwlock
import Mathlib

/-!
# The mutex inside a reader/writer lock

The functions of `gpm/libs/libc/pthread/pthread_rwlock.c` with the calls they make on `rw_mutex`
and on the conditions, in their variants for FreeRTOS and for RT-Thread. A thread goes through a
call in steps, and other threads may go on between any two of them: the initialisation of a lock
whose `attr` is -1, `pthread_mutex_lock`, the section that works on the counters, each part of
`pthread_cond_wait`, and `pthread_mutex_unlock`.

`rw_mutex` has the default type: `pthread_mutex_lock` waits while it is held, or returns an
error and leaves it alone. A wait on a condition may return at once, with the mutex still locked;
otherwise it unlocks the mutex, and locks it again when it is over, where this may fail.
What other threads do to the conditions by waits and signals may happen at any time (`conds`).
-/

namespace Gpmx.Pthread.Rw

open Infra Function

inductive Port where
  | freeRtos
  | rtThread
  deriving DecidableEq

/-- `pthread_cond_t`: the slots `wait_task` on FreeRTOS, the value of `sem` on RT-Thread. -/
structure CondVar (T : Type) where
  waitTask : List (Option T)
  value : Nat

/-- `pthread_rwlock_t`, with the holder of `rw_mutex`; `initialized` if `attr` is not -1. -/
structure RwlockObject (T : Type) where
  initialized : Bool
  rwMutex : Option T
  rwCondreaders : CondVar T
  rwCondwriters : CondVar T
  counters : Rwlock
  destroyed : Bool

inductive RwCall where
  | take (c : LockCall)
  | unlock
  | destroy
  deriving DecidableEq

inductive Pc where
  | idle
  /-- `pthread_rwlock_init` for a static lock -/
  | init (op : RwCall)
  | lock (op : RwCall)
  /-- the section after `pthread_mutex_lock` -/
  | body (op : RwCall)
  /-- `pthread_cond_wait`, `pthread_cond_timedwait` -/
  | wait (op : RwCall)
  /-- in the wait, with the mutex unlocked -/
  | waiting (op : RwCall)
  /-- the wait is over with `result`; `pthread_mutex_lock` -/
  | relock (op : RwCall) (result : Int)
  /-- the section after a wait -/
  | resume (op : RwCall) (result : Int)
  /-- `pthread_mutex_unlock`, before `result` is returned -/
  | unlock (op : RwCall) (result : Int)
  deriving DecidableEq

/-- The lock, the threads, and what their last calls have returned. -/
structure State (T : Type) where
  rw : RwlockObject T
  pc : T → Pc
  returned : T → Option Int

inductive Act (T : Type) where
  | call (t : T) (op : RwCall)
  | init (t : T)
  | lock (t : T) (result : Int)
  /-- the section; a signal on a condition returns `signal` -/
  | body (t : T) (signal : Int)
  /-- the wait returns at once -/
  | condReturn (t : T) (result : Int)
  | condRelease (t : T)
  | wake (t : T) (result : Int)
  | relock (t : T) (result : Int)
  | resume (t : T)
  | unlock (t : T)
  | conds (readers writers : CondVar T)

/-- `destroy` finds the lock in use by its counters. -/
def InUse (l : Rwlock) : Prop :=
  l.rwRefcount ≠ 0 ∨ l.rwNwaitreaders ≠ 0 ∨ l.rwNwaitwriters ≠ 0

instance (l : Rwlock) : Decidable (InUse l) := inferInstanceAs (Decidable (_ ∨ _ ∨ _))

variable {T : Type} [DecidableEq T]

/-! ## The conditions in `pthread_rwlock_destroy` -/

def semTrytake (c : CondVar T) : Option (CondVar T) :=
  if c.value = 0 then none else some { c with value := c.value - 1 }

/-- `rt_sem_release` of a semaphore that had a value, so nobody waits for it -/
def semRelease (c : CondVar T) : CondVar T := { c with value := c.value + 1 }

def condsBusy (port : Port) (readers writers : CondVar T) : Bool × CondVar T × CondVar T :=
  match port with
  | .freeRtos =>
    ((readers.waitTask.any Option.isSome) || (writers.waitTask.any Option.isSome), readers, writers)
  | .rtThread =>
    match semTrytake readers with
    | none => (true, readers, writers)
    | some readers =>
      match semTrytake writers with
      | none => (true, semRelease readers, writers)
      | some writers => (false, semRelease readers, semRelease writers)

/-- `pthread_cond_init`, with `CONFIG_PTHREAD_COND_MAX_WAITERS` slots -/
def condInit : CondVar T := { waitTask := List.replicate 4 none, value := 0 }

/-! ## The steps -/

/-- `pthread_mutex_unlock` of a mutex of the default type: FreeRTOS gives it back whoever calls,
RT-Thread only for its owner. -/
def mutexUnlock (port : Port) (t : T) (owner : Option T) : Option T :=
  match port with
  | .freeRtos => none
  | .rtThread => if owner = some t then none else owner

namespace State

def goto (s : State T) (t : T) (pc : Pc) : State T := { s with pc := update s.pc t pc }

def ret (s : State T) (t : T) (result : Int) : State T :=
  { s.goto t .idle with returned := update s.returned t (some result) }

def setMutex (s : State T) (owner : Option T) : State T :=
  { s with rw := { s.rw with rwMutex := owner } }

def setCounters (s : State T) (l : Rwlock) : State T :=
  { s with rw := { s.rw with counters := l } }

def setConds (s : State T) (readers writers : CondVar T) : State T :=
  { s with rw := { s.rw with rwCondreaders := readers, rwCondwriters := writers } }

/-- `pthread_rwlock_init`: the mutex and the conditions are made anew. -/
def initRwlock (s : State T) : State T :=
  { s with
    rw := { s.rw with
      initialized := true
      rwMutex := none
      rwCondreaders := condInit
      rwCondwriters := condInit
      counters := pthreadRwlockInit } }

def settle (s : State T) (t : T) (op : RwCall) (r : Outcome × Rwlock) : State T :=
  match r.1 with
  | .ret result => (s.setCounters r.2).goto t (.unlock op result)
  | .wait => (s.setCounters r.2).goto t (.wait op)

/-- The section of `pthread_rwlock_destroy`. -/
def destroyBody (port : Port) (s : State T) (t : T) : State T :=
  -- this branch returns without `pthread_mutex_unlock`
  if InUse s.rw.counters then s.ret t EBUSY
  else
    let r := condsBusy port s.rw.rwCondreaders s.rw.rwCondwriters
    let s := s.setConds r.2.1 r.2.2
    if r.1 then s.goto t (.unlock .destroy EBUSY) else s.goto t (.unlock .destroy 0)

def body (port : Port) (s : State T) (t : T) (signal : Int) : RwCall → State T
  | .take c => s.settle t (.take c) (c.enter s.rw.counters)
  | .unlock =>
    let r := pthreadRwlockUnlock s.rw.counters
    (s.setCounters r.2).goto t (.unlock .unlock (if r.1 = .none then 0 else signal))
  | .destroy => s.destroyBody port t

/-- The section after a wait; only the calls that take the lock wait. -/
def resume (s : State T) (t : T) (result : Int) : RwCall → State T
  | .take c =>
    s.settle t (.take c)
      (if c.isRead then rdlockResume result s.rw.counters else wrlockResume result s.rw.counters)
  | op => s.goto t (.unlock op result)

/-- `pthread_mutex_unlock`; a lock that is destroyed has its mutex destroyed then. -/
def unlock (port : Port) (s : State T) (t : T) (op : RwCall) (result : Int) : State T :=
  let s := (s.setMutex (mutexUnlock port t s.rw.rwMutex)).ret t result
  if op = .destroy ∧ result = 0 then { s with rw := { s.rw with destroyed := true } } else s

def call (s : State T) (t : T) (op : RwCall) : State T :=
  if s.rw.initialized then s.goto t (.lock op)
  else if op = .destroy then s.ret t 0
  else s.goto t (.init op)

end State

/-- One step; a lock that has been destroyed is not used any more. -/
def step (port : Port) (s : State T) : Act T → Option (State T)
  | .call t op =>
    if s.pc t = .idle ∧ s.rw.destroyed = false then some (s.call t op) else none
  | .init t =>
    match s.pc t with
    | .init op => some (s.initRwlock.goto t (.lock op))
    | _ => none
  | .lock t result =>
    match s.pc t with
    | .lock op =>
      if result ≠ 0 then some (s.ret t result)
      else if s.rw.rwMutex = none then some ((s.setMutex (some t)).goto t (.body op))
      else none
    | _ => none
  | .body t signal =>
    match s.pc t with
    | .body op => some (s.body port t signal op)
    | _ => none
  | .condReturn t result =>
    match s.pc t with
    | .wait op => some (s.goto t (.resume op result))
    | _ => none
  | .condRelease t =>
    match s.pc t with
    | .wait op => some ((s.setMutex (mutexUnlock port t s.rw.rwMutex)).goto t (.waiting op))
    | _ => none
  | .wake t result =>
    match s.pc t with
    | .waiting op => some (s.goto t (.relock op result))
    | _ => none
  | .relock t result =>
    match s.pc t with
    | .relock op woken =>
      -- FreeRTOS returns the result of the lock where the wait itself has succeeded
      let woken := if port = .freeRtos ∧ woken = 0 then result else woken
      if result ≠ 0 then some (s.goto t (.resume op woken))
      else if s.rw.rwMutex = none then some ((s.setMutex (some t)).goto t (.resume op woken))
      else none
    | _ => none
  | .resume t =>
    match s.pc t with
    | .resume op result => some (s.resume t result op)
    | _ => none
  | .unlock t =>
    match s.pc t with
    | .unlock op result => some (s.unlock port t op result)
    | _ => none
  | .conds readers writers => some (s.setConds readers writers)

def start (initialized : Bool) (readers writers : CondVar T) (counters : Rwlock) : State T :=
  { rw :=
      { initialized
        rwMutex := none
        rwCondreaders := readers
        rwCondwriters := writers
        counters
        destroyed := false }
    pc := fun _ => .idle
    returned := fun _ => none }

def Within (s : State T) : Act T → Prop
  | .body t _ => s.pc t = .body .destroy → ¬InUse s.rw.counters
  | _ => True

/-! ## Who holds the mutex -/

variable {port : Port} {s s' : State T} {t : T} {pc : Pc} {op : RwCall}

def Pc.outside : Pc → Bool
  | .idle | .init _ | .lock _ | .waiting _ | .relock _ _ => true
  | _ => false

def Guarded (s : State T) : Prop := ∀ t, (s.pc t).outside = true → s.rw.rwMutex ≠ some t

omit [DecidableEq T] in
theorem Guarded.not_holder (h : Guarded s) (hpc : s.pc t = pc) (hout : pc.outside = true) :
    s.rw.rwMutex ≠ some t := h t (by rw [hpc]; exact hout)

theorem Guarded.goOn (h : Guarded s) (hpc : s'.pc = update s.pc t pc)
    (hother : ∀ u, s'.rw.rwMutex = some u → u = t ∨ s.rw.rwMutex = some u)
    (ht : pc.outside = true → s'.rw.rwMutex ≠ some t) : Guarded s' := by
  intro u hu
  rw [hpc] at hu
  by_cases hut : u = t
  · subst hut
    rw [update_self] at hu
    exact ht hu
  · rw [update_of_ne hut] at hu
    intro hm
    exact h u hu ((hother u hm).resolve_left hut)

theorem Guarded.same (h : Guarded s) (hpc : s'.pc = update s.pc t pc)
    (hm : s'.rw.rwMutex = s.rw.rwMutex) (ht : pc.outside = true → s.rw.rwMutex ≠ some t) :
    Guarded s' := by
  refine h.goOn hpc (fun u hu => ?_) (by rwa [hm])
  rw [hm] at hu
  exact .inr hu

theorem mutexUnlock_ne (port : Port) (t : T) (owner : Option T) :
    mutexUnlock port t owner ≠ some t := by
  cases port with
  | freeRtos => exact nofun
  | rtThread =>
    unfold mutexUnlock
    dsimp only
    split
    · exact nofun
    · next hne => exact hne

theorem mutexUnlock_other {owner : Option T} {u : T} (h : mutexUnlock port t owner = some u) :
    owner = some u := by
  cases port with
  | freeRtos => cases h
  | rtThread =>
    unfold mutexUnlock at h
    dsimp only at h
    split at h
    · cases h
    · exact h

omit [DecidableEq T] in
theorem condsBusy_conds (port : Port) (readers writers : CondVar T) :
    (condsBusy port readers writers).2 = (readers, writers) := by
  have hback : ∀ {c c' : CondVar T}, semTrytake c = some c' → semRelease c' = c := by
    intro c c' h
    unfold semTrytake at h
    split at h
    · cases h
    · next hpos =>
      cases h
      unfold semRelease
      rw [Nat.sub_add_cancel (Nat.one_le_iff_ne_zero.mpr hpos)]
  cases port with
  | freeRtos => rfl
  | rtThread =>
    unfold condsBusy
    cases hr : semTrytake readers with
    | none => rfl
    | some r =>
      dsimp only
      cases hw : semTrytake writers with
      | none => rw [hback hr]
      | some w =>
        dsimp only
        rw [hback hr, hback hw]

/-! ## What the sections do -/

theorem settle_cases (s : State T) (t : T) (op : RwCall) (r : Outcome × Rwlock) :
    ∃ pc, pc.outside = false ∧ (s.settle t op r).pc = update s.pc t pc ∧
      (s.settle t op r).rw.rwMutex = s.rw.rwMutex := by
  obtain ⟨o, l⟩ := r
  cases o with
  | ret result => exact ⟨.unlock op result, rfl, rfl, rfl⟩
  | wait => exact ⟨.wait op, rfl, rfl, rfl⟩

theorem destroyBody_inUse (h : InUse s.rw.counters) : s.destroyBody port t = s.ret t EBUSY :=
  if_pos h

theorem destroyBody_free (h : ¬InUse s.rw.counters) :
    ∃ result, s.destroyBody port t = s.goto t (.unlock .destroy result) := by
  unfold State.destroyBody
  rw [if_neg h]
  have hsame : s.setConds (condsBusy port s.rw.rwCondreaders s.rw.rwCondwriters).2.1
      (condsBusy port s.rw.rwCondreaders s.rw.rwCondwriters).2.2 = s := by
    rw [condsBusy_conds]
    rfl
  dsimp only
  rw [hsame]
  split
  · exact ⟨EBUSY, rfl⟩
  · exact ⟨0, rfl⟩

theorem body_cases {signal : Int} (hw : op = .destroy → ¬InUse s.rw.counters) :
    ∃ pc, pc.outside = false ∧ (s.body port t signal op).pc = update s.pc t pc ∧
      (s.body port t signal op).rw.rwMutex = s.rw.rwMutex := by
  cases op with
  | take c => exact settle_cases s t (.take c) _
  | unlock => exact ⟨_, rfl, rfl, rfl⟩
  | destroy =>
    obtain ⟨result, hres⟩ : ∃ result, s.destroyBody port t = s.goto t (.unlock .destroy result) :=
      destroyBody_free (hw rfl)
    refine ⟨.unlock .destroy result, rfl, ?_, ?_⟩
    · show (s.destroyBody port t).pc = _
      rw [hres]
      rfl
    · show (s.destroyBody port t).rw.rwMutex = _
      rw [hres]
      rfl

theorem resume_cases (s : State T) (t : T) (result : Int) (op : RwCall) :
    ∃ pc, pc.outside = false ∧ (s.resume t result op).pc = update s.pc t pc ∧
      (s.resume t result op).rw.rwMutex = s.rw.rwMutex := by
  cases op with
  | take c => exact settle_cases s t (.take c) _
  | unlock | destroy => exact ⟨_, rfl, rfl, rfl⟩

theorem unlock_eq (s : State T) (t : T) (op : RwCall) (result : Int) :
    (s.unlock port t op result).pc = update s.pc t .idle ∧
      (s.unlock port t op result).rw.rwMutex = mutexUnlock port t s.rw.rwMutex := by
  unfold State.unlock
  split <;> exact ⟨rfl, rfl⟩

end Gpmx.Pthread.Rw
