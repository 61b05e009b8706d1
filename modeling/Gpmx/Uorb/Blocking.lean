import Gpmx.Infra.Runs
import Gpmx.Uorb.DeviceNode

/-!
# uORB: waiting for a publication

`gpm/modules/uorb/SubscriptionBlocking.hpp`, with what it takes from `SubscriptionCallback.hpp`,
`SubscriptionInterval.hpp` and `Subscription.cpp`, for an interval of 0. One thread is in
`updatedBlocking`; publishers of the node are not counted. A publication is one step: the critical section
of `uorb_device_node_write` has the callbacks in it.

Mutex and condition variable are those of POSIX: a signal reaches a thread that waits and nobody else, and
a wait may end without one. `unsigned long` and `time_t` have 32 bits.
-/

namespace Gpmx.Uorb

open Infra

/-- Where the thread is in `updatedBlocking`. -/
inductive Pc where
  | idle
  /-- before `registerCallback` -/
  | registering
  /-- before the first `updated` -/
  | checking
  /-- before `pthread_mutex_lock` -/
  | locking
  /-- before `clock_gettime` -/
  | timing
  /-- before the wait, with the time it is to end at -/
  | entering (deadline : Option Nat)
  | waiting (deadline : Option Nat)
  /-- before the second `updated` -/
  | rechecking
  /-- before `pthread_mutex_unlock` -/
  | unlocking (ret : Bool)
  | done (ret : Bool)
deriving DecidableEq

/-- The node, the subscription, the thread and the clock, in nanoseconds. The last three fields are for the
reader: when the call began, whether a signal has reached it, and the messages since `_last_generation`. -/
structure Blocking where
  node : DeviceNode
  bound : Bool
  registered : Bool
  lastGeneration : Nat
  mutex : Bool
  pc : Pc
  timeout : Nat
  now : Nat
  start : Nat
  signalled : Bool
  unread : Nat

def Blocking.initial (node : DeviceNode) (now : Nat) : Blocking :=
  { node, bound := false, registered := false, lastGeneration := 0, mutex := false, pc := .idle,
    timeout := 0, now, start := 0, signalled := false, unread := 0 }

/-- The generations from `lastGeneration` on. -/
def Blocking.since (s : Blocking) (lastGeneration : Nat) : Nat :=
  (s.node.generation + 2 ^ 32 - lastGeneration) % 2 ^ 32

/-- `Subscription::subscribe`, where the node is there. -/
def Blocking.subscribe (s : Blocking) : Blocking :=
  if s.bound then s
  else
    let lastGeneration :=
      if s.node.queueSize < s.node.generation then s.node.generation - s.node.queueSize else 0
    { s with bound := true, lastGeneration, unread := s.since lastGeneration }

/-- `SubscriptionInterval::updated`; the subscription has its node. -/
def Blocking.updated (s : Blocking) : Bool :=
  s.node.advertised && s.node.generation != s.lastGeneration

def Blocking.copy (s : Blocking) : Blocking :=
  let s := s.subscribe
  match s.node.advertised, s.node.data with
  | true, some data =>
    let r := uorbDeviceNodeCopyLocked s.node data s.lastGeneration
    { s with lastGeneration := r.2, unread := s.since r.2 }
  | _, _ => s

/-- `SubscriptionBlocking::call`: `pthread_cond_signal`. The mutex is not taken. -/
def Blocking.call (s : Blocking) : Blocking :=
  match s.pc with
  | .waiting _ => { s with signalled := true }
  | _ => s

/-- `uorb_device_node_write` with its callbacks. -/
def Blocking.write (s : Blocking) (heap : Option (Memory UInt8)) (buffer : Memory UInt8)
    (buflen : Nat) : Blocking :=
  let r := uorbDeviceNodeWrite heap s.node buffer buflen
  let s := { s with node := r.2 }
  if r.1 < 0 then s
  else
    let s := { s with unread := if s.bound then s.unread + 1 else s.unread }
    if s.registered then s.call else s

/-- The absolute time `updatedBlocking` computes from `ts` and `timeout_us`. -/
def deadlineOf (tvSec tvNsec timeoutUs : Nat) : Nat :=
  let nsecs := (tvNsec + timeoutUs * 1000 % 2 ^ 32) % 2 ^ 32
  (tvSec + nsecs / 10 ^ 9) % 2 ^ 32 * 10 ^ 9 + nsecs % 10 ^ 9

inductive Blocking.Action where
  | advertise
  | unadvertise
  | publish (heap : Option (Memory UInt8)) (buffer : Memory UInt8) (buflen : Nat)
  | tick (nanoseconds : Nat)
  /-- the thread reads a message, outside of `updatedBlocking` -/
  | copy
  | enter (timeoutUs : Nat)
  | registerCallback
  | check
  | lock
  | gettime
  | wait
  /-- the wait ends: after a signal, without one, at the deadline -/
  | wake
  | spurious
  | timedOut
  | recheck
  | unlock

def Blocking.step (s : Blocking) : Action → Option Blocking
  | .advertise => some { s with node := { s.node with advertised := true } }
  | .unadvertise => some { s with node := { s.node with advertised := false } }
  | .publish heap buffer buflen => some (s.write heap buffer buflen)
  | .tick nanoseconds => some { s with now := s.now + nanoseconds }
  | .copy =>
    match s.pc with
    | .idle | .done _ => some { s.copy with pc := .idle }
    | _ => none
  | .enter timeoutUs =>
    match s.pc with
    | .idle | .done _ =>
      if timeoutUs < 2 ^ 32 then
        some { s with
          pc := if s.registered then .checking else .registering
          timeout := timeoutUs
          start := s.now
          signalled := false }
      else none
    | _ => none
  | .registerCallback =>
    if s.pc = .registering then some { s.subscribe with registered := true, pc := .checking } else none
  | .check =>
    if s.pc = .checking then some { s with pc := if s.updated then .done true else .locking }
    else none
  | .lock =>
    if s.pc = .locking ∧ s.mutex = false then
      some { s with mutex := true, pc := if s.timeout = 0 then .entering none else .timing }
    else none
  | .gettime =>
    if s.pc = .timing then
      some { s with
        pc := .entering (some (deadlineOf (s.now / 10 ^ 9 % 2 ^ 32) (s.now % 10 ^ 9) s.timeout)) }
    else none
  | .wait =>
    match s.pc with
    | .entering deadline => some { s with mutex := false, pc := .waiting deadline }
    | _ => none
  | .wake =>
    match s.pc with
    | .waiting _ =>
      if s.signalled ∧ s.mutex = false then some { s with mutex := true, pc := .rechecking } else none
    | _ => none
  | .spurious =>
    match s.pc with
    | .waiting _ => if s.mutex = false then some { s with mutex := true, pc := .rechecking } else none
    | _ => none
  | .timedOut =>
    match s.pc with
    | .waiting (some deadline) =>
      if s.signalled = false ∧ deadline ≤ s.now ∧ s.mutex = false then
        some { s with mutex := true, pc := .unlocking false }
      else none
    | _ => none
  | .recheck => if s.pc = .rechecking then some { s with pc := .unlocking s.updated } else none
  | .unlock =>
    match s.pc with
    | .unlocking ret => some { s with mutex := false, pc := .done ret }
    | _ => none

def Pc.decided : Pc → Bool
  | .locking | .timing | .entering _ => true
  | _ => false

/-- **When nothing is lost**: no message comes between the check and the wait, messages that are unread at
the check are those of an advertised topic, no wait ends without a reason, the sum of nanoseconds fits into
32 bits, as do the seconds, and fewer than `2 ^ 32` messages are unread. -/
def Blocking.Prompt (s : Blocking) : Action → Prop
  | .publish heap _ buflen => (s.node.data <|> heap).isSome → s.node.oSize = buflen →
      s.pc.decided = false ∧ s.unread + 1 ≠ 2 ^ 32
  | .check => s.node.advertised = true ∨ s.unread = 0
  | .spurious => False
  | .gettime => s.now % 10 ^ 9 + s.timeout * 1000 < 2 ^ 32 ∧
      s.now / 10 ^ 9 + (s.now % 10 ^ 9 + s.timeout * 1000) / 10 ^ 9 < 2 ^ 32
  | _ => True

instance (s : Blocking) : (a : Blocking.Action) → Decidable (s.Prompt a)
  | .publish heap _ buflen => inferInstanceAs (Decidable ((s.node.data <|> heap).isSome →
      s.node.oSize = buflen → s.pc.decided = false ∧ s.unread + 1 ≠ 2 ^ 32))
  | .check => inferInstanceAs (Decidable (_ ∨ _))
  | .gettime => inferInstanceAs (Decidable (_ ∧ _))
  | .spurious => isFalse id
  | .advertise | .unadvertise | .tick _ | .copy | .enter _ | .registerCallback | .lock | .wait
  | .wake | .timedOut | .recheck | .unlock => isTrue trivial

/-- What `updatedBlocking` is to do. -/
structure Blocking.Heard (s : Blocking) : Prop where
  /-- no wait goes on with a message unread and no signal on its way -/
  woken : ∀ deadline, s.pc = .waiting deadline → 0 < s.unread → s.signalled = true
  /-- `true` means a message -/
  message : s.pc = .done true → 0 < s.unread
  /-- `false` without a signal comes when the time is over -/
  time : s.pc = .done false → 0 < s.timeout → s.signalled = false →
    s.start + s.timeout * 1000 ≤ s.now

end Gpmx.Uorb
