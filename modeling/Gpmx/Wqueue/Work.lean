import Gpmx.Queue.Links
import Gpmx.Infra.Runs

/-!
# Queues of delayed work

`gpm/modules/wqueue`: the high and the low priority queue (`work_queue.c`, `work_cancel.c`,
`work_thread.c`) and the queue of the high resolution timer (`hrt_queue.c`, `hrt_work_cancel.c`,
`hrt_thread.c`). The three work alike, on the same work structures; they differ in the clock, in
its unit, and in how long they sleep.

A call of `work_queue` is two steps, the one that initialises the work structure without the lock
and the one with the lock. A call of `work_cancel` is one, and so is each section of `work_process`
with the lock: from the head of the queue to the first work that is ready, or to the end. A reading
of `hrt_absolute_time` is not earlier than the one before. The signal that ends the sleep of a
worker thread early is not looked at: it may sleep for any time.
-/

namespace Gpmx.Wqueue

open Infra Queue Function

/-- `HPWORK`, `LPWORK`, and the queue `g_hrt_work` -/
inductive Qid where
  | hpwork
  | lpwork
  | hrt
  deriving DecidableEq

/-! ## Clocks -/

def usecPerTick (clocksPerSec : Nat) : Nat := 1000 * (1000 / clocksPerSec)

/-- `USEC2TICK`, of a `uint64_t` -/
def usec2tick (clocksPerSec x : Nat) : Nat :=
  (x + usecPerTick clocksPerSec / 2) % 2 ^ 64 / usecPerTick clocksPerSec

/-- `clock_systimer`, when `hrt_absolute_time` is `now` -/
def clockSystimer (now : Nat) : Nat := now % 2 ^ 32

/-- What a queue stores in `qtime`. -/
def timeTag (qid : Qid) (now : Nat) : Nat :=
  match qid with
  | .hrt => now
  | _ => clockSystimer now

/-- `elapsed`, a `uint64_t` -/
def elapsed (clocksPerSec : Nat) (qid : Qid) (now qtime : Nat) : Nat :=
  match qid with
  | .hrt => (now + 2 ^ 64 - qtime) % 2 ^ 64
  | _ => usec2tick clocksPerSec ((clockSystimer now + 2 ^ 64 - qtime) % 2 ^ 64)

def usecs (clocksPerSec : Nat) (qid : Qid) (delay : Nat) : Nat :=
  match qid with
  | .hrt => delay
  | _ => usecPerTick clocksPerSec * delay

/-- `remaining`, a `uint32_t` -/
def remaining (clocksPerSec : Nat) (qid : Qid) (delay elapsed : Nat) : Nat :=
  usecs clocksPerSec qid (delay - elapsed) % 2 ^ 32

def longestSleep : Qid → Nat
  | .hrt => 1000000
  | _ => 50000

/-! ## State -/

/-- The arguments of a call of `work_queue`. -/
structure Request (ι W A : Type) where
  qid : Qid
  work : ι
  worker : Option W
  arg : A
  delay : Nat

/-- A call of `work_queue` that has put its work into the queue, the how manyth and when. -/
structure Entry (ι W A : Type) extends Request ι W A where
  number : Nat
  since : Nat

def Request.entry {ι W A : Type} (r : Request ι W A) (number since : Nat) : Entry ι W A :=
  { r with number, since }

/-- A call of a worker, for an entry whose work was found ready at `time`. -/
structure Called (ι W A : Type) where
  entry : Entry ι W A
  worker : W
  arg : A
  time : Nat

inductive Phase (ι W A : Type) where
  /-- before a section of `work_process` -/
  | looking
  /-- before the call of the worker; `taken` is what was taken from the queue, and when -/
  | calling (worker : Option W) (arg : A) (taken : List (Entry ι W A)) (time : Nat)
  | sleeping (next : Nat)

/-- Where a thread stands that calls `work_queue`. -/
inductive Call (ι W A : Type) where
  | idle
  /-- the work structure is initialised -/
  | queuing (r : Request ι W A)

/--
The work structures, the queues, the callers and the worker threads, and a record of the calls of
`work_queue`: of all, and of those whose work is pending, whose work was cancelled and whose worker
has been called.
-/
structure Sys (T ι W A : Type) where
  head : Qid → Option ι
  tail : Qid → Option ι
  flink : ι → Option ι
  blink : ι → Option ι
  worker : ι → Option W
  arg : ι → A
  qtime : ι → Nat
  delay : ι → Nat
  calls : T → Call ι W A
  phase : Qid → Phase ι W A
  time : Nat
  queued : List (Entry ι W A)
  pending : List (Entry ι W A)
  cancelled : List (Entry ι W A)
  called : List (Called ι W A)

variable {T ι W A : Type}

def start (arg : ι → A) : Sys T ι W A :=
  { head := fun _ => none, tail := fun _ => none, flink := fun _ => none, blink := fun _ => none,
    worker := fun _ => none, arg, qtime := fun _ => 0, delay := fun _ => 0, calls := fun _ => .idle,
    phase := fun _ => .looking, time := 0, queued := [], pending := [], cancelled := [],
    called := [] }

inductive Action (T ι W A : Type) where
  /-- `work_queue`, without the lock -/
  | initialise (t : T) (r : Request ι W A)
  /-- `work_queue`, with the lock -/
  | enqueue (t : T) (now : Nat)
  /-- `work_cancel` -/
  | cancel (qid : Qid) (work : ι)
  /-- a section of `work_process`, with a reading of the clock for each work looked at -/
  | process (qid : Qid) (clock : List Nat)
  /-- the call of the worker -/
  | callWorker (qid : Qid)
  /-- the end of the sleep -/
  | wake (qid : Qid)

/-- What a section of `work_process` finds. -/
inductive Scan (ι : Type) where
  | ready (work : ι) (time : Nat)
  | done (next : Nat)

namespace Sys

def dq (s : Sys T ι W A) (qid : Qid) : Dq ι :=
  { head := s.head qid, tail := s.tail qid, flink := s.flink, blink := s.blink }

def setDq (s : Sys T ι W A) (qid : Qid) (q : Dq ι) : Sys T ι W A :=
  { s with
    head := update s.head qid q.head
    tail := update s.tail qid q.tail
    flink := q.flink
    blink := q.blink }

/-- The loop of `work_process`, up to the first work that is ready. -/
def scan (clocksPerSec : Nat) (s : Sys T ι W A) (qid : Qid) :
    List Nat → Option ι → Nat → Option (Scan ι)
  | _, none, next => some (.done next)
  | [], some _, _ => none
  | now :: clock, some work, next =>
    let elapsed := elapsed clocksPerSec qid now (s.qtime work)
    if elapsed ≥ s.delay work then some (.ready work now)
    else
      let remaining := remaining clocksPerSec qid (s.delay work) elapsed
      s.scan clocksPerSec qid clock (s.flink work) (if remaining < next then remaining else next)

variable [DecidableEq ι] [DecidableEq T]

def entriesOf (s : Sys T ι W A) (work : ι) : List (Entry ι W A) :=
  s.pending.filter fun e => e.work = work

def entriesBut (s : Sys T ι W A) (work : ι) : List (Entry ι W A) :=
  s.pending.filter fun e => e.work ≠ work

def initialise (t : T) (r : Request ι W A) (s : Sys T ι W A) : Option (Sys T ι W A) :=
  match s.calls t with
  | .idle =>
    some { s with
      worker := update s.worker r.work r.worker
      arg := update s.arg r.work r.arg
      delay := update s.delay r.work r.delay
      calls := update s.calls t (.queuing r) }
  | .queuing _ => none

def enqueue (t : T) (now : Nat) (s : Sys T ι W A) : Option (Sys T ι W A) :=
  match s.calls t with
  | .idle => none
  | .queuing r =>
    if s.time ≤ now ∧ now < 2 ^ 64 then
      ((s.dq r.qid).addlast r.work).map fun q =>
        let e := r.entry s.queued.length now
        { s.setDq r.qid q with
          qtime := update s.qtime r.work (timeTag r.qid now)
          calls := update s.calls t .idle
          time := now
          queued := s.queued ++ [e]
          pending := s.pending ++ [e] }
    else none

/-- `dq_rem`, and the work is marked as no longer queued. -/
def dequeue (qid : Qid) (work : ι) (s : Sys T ι W A) : Sys T ι W A :=
  { s.setDq qid ((s.dq qid).rem work) with
    worker := update s.worker work none
    pending := s.entriesBut work }

def workCancel (qid : Qid) (work : ι) (s : Sys T ι W A) : Sys T ι W A :=
  if (s.worker work).isSome then
    { s.dequeue qid work with cancelled := s.cancelled ++ s.entriesOf work }
  else s

def settle (qid : Qid) (s : Sys T ι W A) : Scan ι → Sys T ι W A
  | .ready work time =>
    { s.dequeue qid work with
      phase := update s.phase qid
        (.calling (s.worker work) (s.arg work) (s.entriesOf work) time) }
  | .done next => { s with phase := update s.phase qid (.sleeping next) }

def Readings (s : Sys T ι W A) (clock : List Nat) : Prop :=
  (s.time :: clock).Pairwise (· ≤ ·) ∧ ∀ now ∈ clock, now < 2 ^ 64

instance (s : Sys T ι W A) (clock : List Nat) : Decidable (s.Readings clock) :=
  inferInstanceAs (Decidable (_ ∧ _))

def workProcess (clocksPerSec : Nat) (qid : Qid) (clock : List Nat) (s : Sys T ι W A) :
    Option (Sys T ι W A) :=
  match s.phase qid with
  | .looking =>
    if s.Readings clock then
      (s.scan clocksPerSec qid clock (s.head qid) (longestSleep qid)).map fun found =>
        { s with time := clock.getLastD s.time }.settle qid found
    else none
  | _ => none

def callWorker (qid : Qid) (s : Sys T ι W A) : Option (Sys T ι W A) :=
  match s.phase qid with
  | .calling worker arg taken time =>
    some { s with
      phase := update s.phase qid .looking
      called := s.called ++ (match worker with
        | some worker => taken.map fun entry => { entry, worker, arg, time }
        | none => []) }
  | _ => none

def wake (qid : Qid) (s : Sys T ι W A) : Option (Sys T ι W A) :=
  match s.phase qid with
  | .sleeping _ => some { s with phase := update s.phase qid .looking }
  | _ => none

def step (clocksPerSec : Nat) (s : Sys T ι W A) : Action T ι W A → Option (Sys T ι W A)
  | .initialise t r => s.initialise t r
  | .enqueue t now => s.enqueue t now
  | .cancel qid work => some (s.workCancel qid work)
  | .process qid clock => s.workProcess clocksPerSec qid clock
  | .callWorker qid => s.callWorker qid
  | .wake qid => s.wake qid

end Sys

end Gpmx.Wqueue
