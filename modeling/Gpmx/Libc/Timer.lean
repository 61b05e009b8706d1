import Gpmx.Infra.Runs
import Gpmx.Libc.Timespec

/-!
# POSIX timers over software timers

`timer_settime.c`, `timer_delete.c` and `prv_timer.c` in `gpm/libs/libc/timer`, over the software timers of
`gpm/sched/freertos/timers.c`. One timer; any number of calls at a time, and the timer task, take their
statements in any order. The command queue is seen with the commands for this timer only, so that a send that
does not wait may find room or not.

Time is what `CLOCK_MONOTONIC` shows, whole ticks, and does not wrap. `CLOCK_REALTIME` is read once, and goes on
with the ticks from there. The timer notifies (`SIGEV_THREAD`).

* `step` — one statement of a call or of the timer task, or a tick
* `Timely`, `Fires` — each notification is one that is due, and one that is asked for comes
-/

namespace Gpmx.Libc

open Infra

structure Itimerspec where
  itInterval : Timespec
  itValue : Timespec
  deriving DecidableEq

def Timespec.notZero (t : Timespec) : Bool := !(t.tvSec = 0 && t.tvNsec = 0)

namespace Timer

inductive Command
  | stop
  | changePeriod (ticks : Nat)
  | start (tick : Nat)
  deriving DecidableEq

inductive Daemon
  /-- before `prvProcessTimerOrBlockTask` -/
  | timers
  /-- in it, waiting for a command or for the next timer -/
  | blocked
  /-- in `prvProcessReceivedCommands` -/
  | commands
  /-- in `prv_timer_callback` -/
  | callback
  /-- in it, before the notification -/
  | notify
  deriving DecidableEq

/-- Where a call of `timer_settime` or `timer_delete` is. -/
inductive Call
  | isActive (abstime : Bool) (value : Itimerspec)
  | sendStop (abstime : Bool) (value : Itimerspec)
  | stopped (abstime : Bool) (value : Itimerspec)
  | setExpiration (abstime : Bool) (value : Itimerspec)
  /-- `prv_timer_callback`, called by `timer_settime` -/
  | callback
  | notify
  | sendChangePeriod (ticks : Nat)
  /-- `xTaskGetTickCount`, for `xTimerStart` -/
  | readTick
  | sendStart (tick : Nat)
  | deleteStop
  | deleteWait
  deriving DecidableEq

inductive Event
  /-- Armed: nanoseconds to the first notification, and from one to the next. -/
  | armed (since delay interval : Nat)
  | disarmed
  | notified (tick : Nat)
  deriving DecidableEq

structure State where
  now : Nat
  /-- `tmrSTATUS_IS_ACTIVE` -/
  active : Bool
  /-- The expiry time, while the timer is in a list. -/
  expiry : Option Nat
  /-- `xTimerPeriodInTicks` -/
  ticks : Nat
  queue : List Command
  daemon : Daemon
  /-- `p->period` -/
  period : Nat
  freed : Bool
  calls : List Call
  /-- The newest first. -/
  history : List Event
  deriving DecidableEq

/-- After `timer_create`. -/
def init : State where
  now := 0
  active := false
  expiry := none
  ticks := 2 ^ 32 - 1
  queue := []
  daemon := .blocked
  period := 0
  freed := false
  calls := []
  history := []

inductive Action
  | tick
  /-- The next statement of the timer task; whether the queue has room for a command. -/
  | daemon (room : Bool)
  | settime (abstime : Bool) (value : Itimerspec)
  | delete
  /-- The next statement of a call; and what `CLOCK_REALTIME` shows. -/
  | call (k : Nat) (room : Bool) (cur : Timespec)

namespace State

variable (c : TickConfig) (s : State)

def send (x : Command) : State := { s with queue := s.queue ++ [x] }

/-- `xTimerChangePeriod` of `prv_timer_callback` does not wait. -/
def rearm (room : Bool) : State :=
  if s.period > 0 ∧ room then s.send (.changePeriod s.period) else s

def record (e : Event) : State := { s with history := e :: s.history }

/-- `prvProcessReceivedCommands`, for a command. -/
def process (x : Command) : State :=
  match x with
  | .stop => { s with active := false, expiry := none }
  | .changePeriod ticks => { s with active := true, ticks := ticks, expiry := some (s.now + ticks) }
  | .start tick =>
    if tick + s.ticks ≤ s.now then { s with active := true, expiry := none, daemon := .callback }
    else { s with active := true, expiry := some (tick + s.ticks) }

/-- `prvProcessTimerOrBlockTask` -/
def processTimer : State :=
  match s.expiry with
  | some e => if e ≤ s.now then { s with active := false, expiry := none, daemon := .callback }
    else { s with daemon := .blocked }
  | none => { s with daemon := .blocked }

def daemonStep (room : Bool) : State :=
  match s.daemon with
  | .timers => s.processTimer
  | .blocked => { s with daemon := .commands }
  | .commands =>
    match s.queue with
    | x :: queue => { s with queue := queue }.process x
    | [] => { s with daemon := .timers }
  | .callback => { s.rearm room with daemon := .notify }
  | .notify => { s.record (.notified s.now) with daemon := .commands }

def expirationPeriod (value : Itimerspec) : Nat :=
  if value.itInterval.notZero then (utilsTimespecToticks c (some value.itInterval) (some 0)).2.getD 0 else 0

def nextExpiration (abstime : Bool) (value : Itimerspec) (cur : Timespec) : Nat :=
  if abstime then
    let r := utilsTimespecTodeltaticks c (some value.itValue) (some cur) (some 0)
    if r.1 ≠ 0 then 0 else r.2.getD 0
  else (utilsTimespecToticks c (some value.itValue) (some 0)).2.getD 0

def delay (abstime : Bool) (value : Itimerspec) (cur : Timespec) : Nat :=
  if abstime then value.itValue.value - cur.value else value.itValue.value

def callStep (room : Bool) (cur : Timespec) (x : Call) : Option (Option Call × State) :=
  match x with
  | .isActive abstime value =>
    some (some (if s.active then .sendStop abstime value else .stopped abstime value), s)
  | .sendStop abstime value => some (some (.stopped abstime value), s.send .stop)
  | .stopped abstime value =>
    if value.itValue.notZero then
      some (some (.setExpiration abstime value), { s with period := expirationPeriod c value })
    else some (none, s.record .disarmed)
  | .setExpiration abstime value =>
    let next := nextExpiration c abstime value cur
    some (some (if next = 0 then .callback else .sendChangePeriod next),
      s.record (.armed s.now (delay abstime value cur) value.itInterval.value))
  | .callback => some (some .notify, s.rearm room)
  | .notify => some (none, s.record (.notified s.now))
  | .sendChangePeriod ticks => some (some .readTick, s.send (.changePeriod ticks))
  | .readTick => some (some (.sendStart s.now), s)
  -- the send waits for a time only
  | .sendStart tick => some (none, if room then s.send (.start tick) else s)
  | .deleteStop => some (some .deleteWait, s.send .stop)
  | .deleteWait => if s.active then none else some (none, { s.record .disarmed with freed := true })

/-- One step, or `none` where it cannot be taken. -/
def step (s : State) : Action → Option State
  | .tick => some { s with now := s.now + 1 }
  | .daemon room => some (s.daemonStep room)
  | .settime abstime value =>
    if s.freed then none
    else if value.itValue.notZero ∧
        (utilsValidtimespec (some value.itInterval) = false ∨ utilsValidtimespec (some value.itValue) = false) then
      some s
    else some { s with calls := s.calls ++ [.isActive abstime value] }
  | .delete => if s.freed then none else some { s with calls := s.calls ++ [.deleteStop] }
  | .call k room cur =>
    if utilsValidtimespec (some cur) = false then none
    else do
      let x ← s.calls[k]?
      let r ← s.callStep c room cur x
      match r.1 with
      | some y => some { r.2 with calls := s.calls.set k y }
      | none => some { r.2 with calls := s.calls.eraseIdx k }

end State

/-! ## What is asked of a timer -/

structure Arming where
  since : Nat
  delay : Nat
  interval : Nat
  deriving DecidableEq

def expected : List Event → Option Arming
  | [] => none
  | .armed since delay interval :: _ => some ⟨since, delay, interval⟩
  | .disarmed :: _ => none
  | .notified tick :: history =>
    match expected history with
    | some a => if a.interval = 0 then none else some ⟨tick, a.interval, a.interval⟩
    | none => none

def Arming.Over (c : TickConfig) (a : Arming) (tick : Nat) : Prop :=
  a.since ≤ tick ∧ tick - a.since ∈ c.covers a.delay

/-- Each notification is one that is due: none before its time, one only where no interval is asked for, and none
of a timer that is not armed. -/
def Timely (c : TickConfig) : List Event → Prop
  | [] => True
  | .notified tick :: history => (∃ a ∈ expected history, a.Over c tick) ∧ Timely c history
  | _ :: history => Timely c history

instance (c : TickConfig) (a : Arming) (tick : Nat) : Decidable (a.Over c tick) :=
  inferInstanceAs (Decidable (_ ∧ (a.delay : Int) ≤ (tick - a.since : Nat) * c.nanosecondsPerTick))

instance decidableTimely (c : TickConfig) : ∀ history, Decidable (Timely c history)
  | [] => isTrue trivial
  | .notified tick :: history =>
    have := decidableTimely c history
    inferInstanceAs (Decidable ((∃ a ∈ expected history, a.Over c tick) ∧ Timely c history))
  | .armed .. :: history => decidableTimely c history
  | .disarmed :: history => decidableTimely c history

def leftAlone (ticks steps : Nat) : List Action :=
  List.replicate ticks .tick ++ List.replicate steps (.daemon true)

/-- A timer that is to notify once does so, when no call is in progress and it is left alone. -/
def Fires (c : TickConfig) (s : State) : Prop :=
  ∀ a ∈ expected s.history, a.interval = 0 → s.calls = [] →
    ∃ ticks steps, ∃ s', (leftAlone ticks steps).foldlM (State.step c) s = some s' ∧
      s'.history = .notified (s.now + ticks) :: s.history

def ends (c : TickConfig) (run : List Action) : List Event :=
  ((run.foldlM (State.step c) init).map (·.history)).getD []

/-- In every run, in any order of steps, the timer keeps what is asked of it. -/
def KeepsTime (c : TickConfig) : Prop :=
  ∀ s, Reaches (State.step c) Always init s → Timely c s.history ∧ Fires c s

end Timer

end Gpmx.Libc
