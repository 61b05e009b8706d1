import Gpmx.Infra.Runs
import Mathlib

/-!
# Posting and waiting

`gpm/libs/libc/semaphore`: `sem_post.c`, `sem_wait.c`, `sem_trywait.c`, `sem_timedwait.c` and
`sem_getvalue.c`, for one semaphore whose kernel object counts. The three ways in which these files
are compiled are the values of `Config`: over RT-Thread, over FreeRTOS, and over FreeRTOS with
`CONFIG_LIBC_SEMAPHORE_CACHE`, where `val` is counted beside the kernel object.

A wait is a step up to the call of the kernel, which may wait, and that call is another. So is the
post, where the counter and the kernel object are not changed together.
-/

namespace Gpmx.Semaphore.Tokens

/-- `SEM_PRIO_NONE` and `SEM_PRIO_INHERIT` -/
inductive Protocol where
  | prioNone
  | prioInherit
  deriving DecidableEq

inductive Config where
  | rtthread
  | freertos
  | freertosCache (protocol : Protocol)
  deriving DecidableEq

inductive Errno where
  | eintr
  | eagain
  | eacces
  | einval
  | etimedout
  deriving DecidableEq

def Errno.code : Errno → Int
  | .eintr => 4
  | .eagain => 11
  | .eacces => 13
  | .einval => 22
  | .etimedout => 116

inductive Deadline where
  /-- it is no valid time -/
  | invalid
  /-- the clock, or the time that is left, cannot be read -/
  | unreadable
  | past
  | ticks (left : Nat)
  deriving DecidableEq

/-- The calls that wait; `sem_trywait` has the deadline zero over FreeRTOS. -/
inductive Wait where
  | wait
  | trywait (zero : Deadline)
  | timedwait (abstime : Option Deadline)
  | tickwait (delay : Nat)
  deriving DecidableEq

inductive Outcome where
  | ok
  | timeout
  | error
  deriving DecidableEq

/-- A wait that is over: what it returned, with which `errno`, and how many tokens it took. -/
structure Done where
  ret : Int
  errno : Option Errno
  consumed : Nat
  deriving DecidableEq

/-- Where a thread stands. The ticks to wait are `none` for ever. -/
inductive Call where
  | idle
  /-- before the take; `ret` is the error of the deadline -/
  | taking (w : Wait) (delay : Option Nat) (ret : Option Errno)
  /-- before the give -/
  | giving
  deriving DecidableEq

/-- The kernel object, `val`, the threads, and a record of the posts and of the waits that are over. -/
structure Sys (T : Type) where
  count : Nat
  val : Int
  calls : T → Call
  posts : Nat
  done : List Done

inductive Action (T : Type) where
  | wait (t : T) (w : Wait)
  | take (t : T) (outcome : Outcome)
  | post (t : T)
  | give (t : T)
  deriving DecidableEq

def Config.kernelCount (cfg : Config) (value : Nat) : Nat :=
  match cfg with
  | .freertosCache .prioNone => 0
  | _ => value

def start {T : Type} (cfg : Config) (value : Nat) : Sys T :=
  { count := cfg.kernelCount value, val := value, calls := fun _ => .idle, posts := 0, done := [] }

/-- `RT_SEM_VALUE_MAX` and `SEM_VALUE_MAX` -/
def Config.max : Config → Nat
  | .rtthread => 0xFFFF
  | _ => 0x7FFF

/-- An `int` -/
def toInt (x : Int) : Int := x.bmod (2 ^ 32)

/-! ## Waiting -/

/-- How long `rt_sem_take` waits, or what the call returns before. -/
def rtDelay : Wait → Except Errno (Option Nat)
  | .wait => .ok none
  | .trywait _ => .ok (some 0)
  | .timedwait none => .error .einval
  | .timedwait (some (.ticks n)) => .ok (some n)
  | .timedwait (some _) => .ok (some 0)
  | .tickwait delay => .ok (if delay < 2 ^ 31 then some delay else none)

/-- How long `xSemaphoreTake` waits, and the error of the deadline. -/
def freertosDelay : Wait → Option Nat × Option Errno
  | .wait => (none, none)
  | .timedwait none => (none, none)
  | .trywait d | .timedwait (some d) =>
    match d with
    | .invalid => (some 0, some .einval)
    | .unreadable => (none, some .einval)
    | .past => (some 0, some .etimedout)
    | .ticks n => (some n, none)
  | .tickwait delay => (if delay < 2 ^ 32 - 1 then some delay else none, none)

def rtReturn : Wait → Outcome → Int × Option Errno
  | .wait, .ok => (0, none)
  | .wait, _ => (-Errno.eintr.code, some .eintr)
  | .trywait _, .timeout => (-1, some .eagain)
  | .trywait _, .ok => (0, none)
  | .trywait _, .error => (-1, some .eintr)
  | .timedwait _, .timeout => (-1, some .etimedout)
  | .timedwait _, .ok => (-1, some .eintr)
  | .timedwait _, .error => (0, none)
  | .tickwait _, .timeout => (-1, some .eagain)
  | .tickwait _, .ok => (0, none)
  | .tickwait _, .error => (-1, some .eintr)

def freertosReturn (w : Wait) (ret : Option Errno) : Outcome → Int × Option Errno
  | .ok => (0, none)
  | _ =>
    let errno := ret.getD .etimedout
    match w with
    | .trywait _ => (-1, some (if errno = .etimedout then .eagain else errno))
    | _ => (-1, some errno)

def Config.returns (cfg : Config) (w : Wait) (ret : Option Errno) (outcome : Outcome) :
    Int × Option Errno :=
  match cfg with
  | .rtthread => rtReturn w outcome
  | _ => freertosReturn w ret outcome

/-- A wait that finds a token in `val` does not go to the kernel; `sem_tickwait` does not look at the
protocol. -/
def Wait.cached (w : Wait) (protocol : Protocol) : Bool :=
  match w with
  | .tickwait _ => true
  | _ => protocol ≠ .prioInherit

namespace Sys

variable {T : Type}

/-- What `sem_getvalue` stores, if it does. -/
def semGetvalue (cfg : Config) (s : Sys T) : Option Int :=
  match cfg with
  | .rtthread | .freertos => some s.count
  | .freertosCache .prioNone => some s.val
  | .freertosCache .prioInherit => none

variable [DecidableEq T]

def goOn (t : T) (c : Call) (s : Sys T) : Sys T :=
  { s with calls := Function.update s.calls t c }

def finish (t : T) (r : Int × Option Errno) (consumed : Nat) (s : Sys T) : Sys T :=
  { s with
    calls := Function.update s.calls t .idle
    done := s.done ++ [⟨r.1, r.2, consumed⟩] }

def wait (cfg : Config) (t : T) (w : Wait) (s : Sys T) : Option (Sys T) :=
  match s.calls t with
  | .idle =>
    match cfg with
    | .rtthread =>
      match rtDelay w with
      | .error e => some (s.finish t (e.code, none) 0)
      | .ok delay => some (s.goOn t (.taking w delay none))
    | .freertos => some (s.goOn t (.taking w (freertosDelay w).1 (freertosDelay w).2))
    | .freertosCache protocol =>
      let preVal := s.val
      let s := { s with val := toInt (s.val - 1) }
      if preVal > 0 ∧ w.cached protocol then some (s.finish t (0, none) 1)
      else some (s.goOn t (.taking w (freertosDelay w).1 (freertosDelay w).2))
  | _ => none

/-- A take that is answered: there is a token, or none until the time is over, or an error over
RT-Thread. -/
def take (cfg : Config) (t : T) (outcome : Outcome) (s : Sys T) : Option (Sys T) :=
  match s.calls t with
  | .taking w delay ret =>
    match outcome with
    | .ok =>
      if 0 < s.count then
        some ({ s with count := s.count - 1 }.finish t (cfg.returns w ret .ok) 1)
      else none
    | .timeout =>
      if s.count = 0 ∧ delay.isSome then some (s.finish t (cfg.returns w ret .timeout) 0) else none
    | .error => if cfg = .rtthread then some (s.finish t (cfg.returns w ret .error) 0) else none
  | _ => none

def post (cfg : Config) (t : T) (s : Sys T) : Option (Sys T) :=
  match s.calls t with
  | .idle =>
    match cfg with
    | .freertosCache protocol =>
      let preVal := s.val
      let s := { s with val := toInt (s.val + 1), posts := s.posts + 1 }
      if preVal < 0 ∨ protocol = .prioInherit then some (s.goOn t .giving) else some s
    | _ => some (s.goOn t .giving)
  | _ => none

def give (cfg : Config) (t : T) (s : Sys T) : Option (Sys T) :=
  match s.calls t with
  | .giving =>
    if s.count < cfg.max then
      match cfg with
      | .freertosCache _ => some ({ s with count := s.count + 1 }.goOn t .idle)
      | _ => some ({ s with count := s.count + 1, posts := s.posts + 1 }.goOn t .idle)
    else some (s.goOn t .idle)
  | _ => none

def step (cfg : Config) (s : Sys T) : Action T → Option (Sys T)
  | .wait t w => s.wait cfg t w
  | .take t outcome => s.take cfg t outcome
  | .post t => s.post cfg t
  | .give t => s.give cfg t

end Sys

end Gpmx.Semaphore.Tokens
