import Gpmx.Infra.Accounts
import Gpmx.Infra.Runs

/-!
# Reader/writer locks

`gpm/libs/libc/pthread/pthread_rwlock.c`. A lock has three counters, and a call works on them
with `rw_mutex` held: from its start up to its return or to the first wait on a condition, and
then from the end of each wait up to the return or to the next wait. Such a section is one step
here, a function from the counters to the counters and to how the section ends.

The code never asks who calls. A thread here is one call, or what that call has got; one that
takes the lock for reading twice is two of them.

A wait releases `rw_mutex` and takes it again before it returns. It ends because the condition is
signalled, or for no reason, or with an error; a timed one may also time out. The lock has been
initialised. The counters are `int` in the code, and are bounded by the number of threads.
-/

namespace Gpmx.Pthread

open Infra

def EBUSY : Int := 16
def ETIMEDOUT : Int := 116

/-- The counters of `pthread_rwlock_t`. -/
structure Rwlock where
  rwNwaitwriters : Int
  rwNwaitreaders : Int
  rwRefcount : Int
  deriving DecidableEq

def pthreadRwlockInit : Rwlock := { rwNwaitwriters := 0, rwNwaitreaders := 0, rwRefcount := 0 }

inductive Outcome where
  | ret (result : Int)
  | wait
  deriving DecidableEq

/-! ## The sections -/

def rdlockLoop (l : Rwlock) : Outcome × Rwlock :=
  if l.rwRefcount < 0 ∨ l.rwNwaitwriters > 0 then
    (.wait, { l with rwNwaitreaders := l.rwNwaitreaders + 1 })
  else (.ret 0, { l with rwRefcount := l.rwRefcount + 1 })

def rdlockResume (result : Int) (l : Rwlock) : Outcome × Rwlock :=
  let l := { l with rwNwaitreaders := l.rwNwaitreaders - 1 }
  if result ≠ 0 then (.ret result, l) else rdlockLoop l

def wrlockLoop (l : Rwlock) : Outcome × Rwlock :=
  if l.rwRefcount ≠ 0 then (.wait, { l with rwNwaitwriters := l.rwNwaitwriters + 1 })
  else (.ret 0, { l with rwRefcount := -1 })

def wrlockResume (result : Int) (l : Rwlock) : Outcome × Rwlock :=
  let l := { l with rwNwaitwriters := l.rwNwaitwriters - 1 }
  if result ≠ 0 then (.ret result, l) else wrlockLoop l

def pthreadRwlockRdlock (l : Rwlock) : Outcome × Rwlock := rdlockLoop l

def pthreadRwlockTimedrdlock (l : Rwlock) : Outcome × Rwlock := rdlockLoop l

def pthreadRwlockTryrdlock (l : Rwlock) : Outcome × Rwlock :=
  if l.rwRefcount < 0 ∨ l.rwNwaitwriters > 0 then (.ret EBUSY, l)
  else (.ret 0, { l with rwRefcount := l.rwRefcount + 1 })

def pthreadRwlockWrlock (l : Rwlock) : Outcome × Rwlock := wrlockLoop l

def pthreadRwlockTimedwrlock (l : Rwlock) : Outcome × Rwlock := wrlockLoop l

def pthreadRwlockTrywrlock (l : Rwlock) : Outcome × Rwlock :=
  if l.rwRefcount ≠ 0 then (.ret EBUSY, l) else (.ret 0, { l with rwRefcount := -1 })

/-- What `pthread_rwlock_unlock` does to the conditions. -/
inductive Signal where
  | none
  | signalWriters
  | broadcastReaders
  deriving DecidableEq

def releaseOne (l : Rwlock) : Rwlock :=
  if l.rwRefcount > 0 then { l with rwRefcount := l.rwRefcount - 1 }
  else if l.rwRefcount = -1 then { l with rwRefcount := 0 }
  else l

def pthreadRwlockUnlock (l : Rwlock) : Signal × Rwlock :=
  let l := releaseOne l
  if l.rwNwaitwriters > 0 then
    if l.rwRefcount = 0 then (.signalWriters, l) else (.none, l)
  else if l.rwNwaitreaders > 0 then (.broadcastReaders, l)
  else (.none, l)

/-! ## Threads -/

/-- Where a thread stands while `rw_mutex` is free; `woken` if its condition has been signalled. -/
inductive Phase where
  | idle
  | waitRead (timed woken : Bool)
  | waitWrite (timed woken : Bool)
  | reading
  | writing
  deriving DecidableEq

namespace Phase

def isWaitRead : Phase → Bool
  | .waitRead _ _ => true
  | _ => false

def isWaitWrite : Phase → Bool
  | .waitWrite _ _ => true
  | _ => false

def isAsleepWriter : Phase → Bool
  | .waitWrite _ woken => !woken
  | _ => false

def wake : Phase → Phase
  | .waitRead timed _ => .waitRead timed true
  | .waitWrite timed _ => .waitWrite timed true
  | p => p

/-- What `pthread_cond_broadcast` on `rw_condreaders` does to a thread. -/
def wakeReader (p : Phase) : Phase := if p.isWaitRead then p.wake else p

end Phase

inductive LockCall where
  | rdlock
  | timedrdlock
  | tryrdlock
  | wrlock
  | timedwrlock
  | trywrlock
  deriving DecidableEq

namespace LockCall

def enter : LockCall → Rwlock → Outcome × Rwlock
  | .rdlock => pthreadRwlockRdlock
  | .timedrdlock => pthreadRwlockTimedrdlock
  | .tryrdlock => pthreadRwlockTryrdlock
  | .wrlock => pthreadRwlockWrlock
  | .timedwrlock => pthreadRwlockTimedwrlock
  | .trywrlock => pthreadRwlockTrywrlock

def isRead : LockCall → Bool
  | .rdlock | .timedrdlock | .tryrdlock => true
  | .wrlock | .timedwrlock | .trywrlock => false

def isTimed : LockCall → Bool
  | .timedrdlock | .timedwrlock => true
  | _ => false

end LockCall

structure System (T : Type) where
  lock : Rwlock
  threads : T → Phase

/-- A thread calls, or returns from a wait with a result, or unlocks; `target` gets the signal. -/
inductive Act (T : Type) where
  | call (t : T) (c : LockCall)
  | resume (t : T) (result : Int)
  | unlock (t target : T)

variable {T : Type} [DecidableEq T]

def phaseAfter (read timed : Bool) : Outcome → Phase
  | .ret result => if result = 0 then (if read then .reading else .writing) else .idle
  | .wait => if read then .waitRead timed false else .waitWrite timed false

/-- Thread `t` has gone through a section. -/
def System.settle (s : System T) (t : T) (read timed : Bool) (r : Outcome × Rwlock) : System T :=
  { lock := r.2, threads := Function.update s.threads t (phaseAfter read timed r.1) }

def signalWriter [Fintype T] (f : T → Phase) (target : T) : Option (T → Phase) :=
  if (f target).isAsleepWriter then some (Function.update f target (f target).wake)
  else if ∃ u, (f u).isAsleepWriter then none
  else some f

def notify [Fintype T] (f : T → Phase) (target : T) : Signal → Option (T → Phase)
  | .none => some f
  | .signalWriters => signalWriter f target
  | .broadcastReaders => some fun u => (f u).wakeReader

/-- One section; only who holds the lock unlocks it, and only a timed wait times out. -/
def System.step [Fintype T] (s : System T) : Act T → Option (System T)
  | .call t c =>
    if s.threads t = .idle then some (s.settle t c.isRead c.isTimed (c.enter s.lock)) else none
  | .resume t result =>
    match s.threads t with
    | .waitRead timed _ =>
      if result = ETIMEDOUT ∧ timed = false then none
      else some (s.settle t true timed (rdlockResume result s.lock))
    | .waitWrite timed _ =>
      if result = ETIMEDOUT ∧ timed = false then none
      else some (s.settle t false timed (wrlockResume result s.lock))
    | _ => none
  | .unlock t target =>
    if s.threads t = .reading ∨ s.threads t = .writing then do
      let r := pthreadRwlockUnlock s.lock
      let threads ← notify (Function.update s.threads t .idle) target r.1
      some { lock := r.2, threads }
    else none

def System.start (T : Type) : System T := { lock := pthreadRwlockInit, threads := fun _ => .idle }

end Gpmx.Pthread
