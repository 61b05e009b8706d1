import Gpmx.Infra.Runs
import Gpmx.Hrt.Callout

/-!
# The time of the high resolution timer

`hrt_absolute_time` and `hrt_call_reschedule` of `gpm/sched/platform/hrt/hrt_stm32.c`. The
hardware has a counter of 16 bits that counts microseconds; `base_time` and `last_count` extend
it to 64 bits, which is right as long as a period of the counter never goes by without a call.
The compare interrupt sees to that: whatever is in the callout queue, it is programmed for at
most `HRT_INTERVAL_MAX` microseconds ahead, and its handler reads the time.

`hrt_call_reschedule` reads the time and then writes the compare register. These are two
steps here; as the comment at `HRT_INTERVAL_MIN` asks, less than that time lies between them.
-/

namespace Gpmx.Hrt

open Infra

def HRT_INTERVAL_MIN : Nat := 50
def HRT_INTERVAL_MAX : Nat := 50000
def HRT_COUNTER_PERIOD : Nat := 65536

/-- `base_time` and `last_count` -/
structure Clock where
  baseTime : Nat
  lastCount : Nat

/-- `hrt_absolute_time`, where `count` is the value of `rCNT`. -/
def hrtAbsoluteTime (count : Nat) (clock : Clock) : Nat × Clock :=
  let baseTime :=
    if count < clock.lastCount then absTime (clock.baseTime + HRT_COUNTER_PERIOD) else clock.baseTime
  (absTime (baseTime + count), ⟨baseTime, count⟩)

/-- The deadline that `hrt_call_reschedule` computes; `next` is the deadline of the first entry. -/
def rescheduleDeadline (now : Nat) (next : Option Nat) : Nat :=
  match next with
  | none => absTime (now + HRT_INTERVAL_MAX)
  | some next =>
    if next ≤ absTime (now + HRT_INTERVAL_MIN) then absTime (now + HRT_INTERVAL_MIN)
    else if next < absTime (now + HRT_INTERVAL_MAX) then next
    else absTime (now + HRT_INTERVAL_MAX)

/-- The first entry of the callout queue, as `hrt_call_reschedule` looks at it. -/
def Callouts.nextDeadline (s : Callouts) : Option Nat := s.queue.head.map s.deadline

/-! ## The hardware -/

/-- A `hrt_call_reschedule` between reading the time and writing `rCCR_HRT`. -/
structure Rescheduling where
  since : Nat
  deadline : Nat

structure Timer where
  /-- microseconds since the counter was started -/
  time : Nat
  clock : Clock
  /-- when the clock was last read -/
  sampled : Nat
  /-- `rCCR_HRT` -/
  ccr : Nat
  /-- since when the compare interrupt waits to be served, or is being served -/
  due : Option Nat
  rescheduling : Option Rescheduling

/-- `rCNT` -/
def Timer.count (s : Timer) : Nat := s.time % HRT_COUNTER_PERIOD

/-- A call of `hrt_absolute_time`. -/
def Timer.sample (s : Timer) : Timer :=
  { s with clock := (hrtAbsoluteTime s.count s.clock).2, sampled := s.time }

inductive TimerAction where
  /-- A microsecond passes. -/
  | tick
  | absoluteTime
  /--
  `hrt_call_reschedule`, up to its last line, with any first entry in the queue. The one at the
  end of `hrt_tim_isr` ends the service of the interrupt.
  -/
  | reschedule (isr : Bool) (next : Option Nat)
  /-- `rCCR_HRT = deadline & 0xffff` -/
  | program

/-- From its match to the `hrt_call_reschedule` of its handler, an interrupt takes less than this. -/
def serviceTime : Nat := HRT_COUNTER_PERIOD - HRT_INTERVAL_MAX

def Timer.mayPass (s : Timer) : Bool :=
  (match s.due with
    | none => true
    | some due => s.time + 1 < due + serviceTime) &&
  (match s.rescheduling with
    | none => true
    | some r => s.time + 1 < r.since + HRT_INTERVAL_MIN)

/-- The counter counts, and the interrupt fires when it equals the compare register. -/
def Timer.advance (s : Timer) : Timer :=
  { s with
    time := s.time + 1
    due := if (s.time + 1) % HRT_COUNTER_PERIOD = s.ccr then s.due.or (some (s.time + 1)) else s.due }

def Timer.step (s : Timer) : TimerAction → Option Timer
  | .tick => if s.mayPass then some s.advance else none
  | .absoluteTime => some s.sample
  | .reschedule isr next =>
    if s.rescheduling.isNone ∧ (isr = true → s.due.isSome) then
      let now := (hrtAbsoluteTime s.count s.clock).1
      some { s.sample with
        rescheduling := some ⟨s.time, rescheduleDeadline now next⟩
        due := if isr then none else s.due }
    else none
  | .program =>
    match s.rescheduling with
    | none => none
    | some r =>
      some { s with ccr := r.deadline % 2 ^ 16, rescheduling := none }

/-- `hrt_tim_init` -/
def Timer.start : Timer :=
  { time := 0, clock := ⟨0, 0⟩, sampled := 0, ccr := 1000, due := none, rescheduling := none }

/-! ## Reading the time -/

/-- The clock stands at the time `t`. -/
structure Clock.At (clock : Clock) (t : Nat) : Prop where
  base : clock.baseTime = absTime (t / HRT_COUNTER_PERIOD * HRT_COUNTER_PERIOD)
  count : clock.lastCount = t % HRT_COUNTER_PERIOD

/--
**The clock is extended rightly while less than a period of the counter goes by between two
readings.**
-/
theorem hrtAbsoluteTime_spec {clock : Clock} {last t : Nat} (h : clock.At last) (hle : last ≤ t)
    (hlt : t < last + HRT_COUNTER_PERIOD) :
    (hrtAbsoluteTime (t % HRT_COUNTER_PERIOD) clock).1 = absTime t ∧
      (hrtAbsoluteTime (t % HRT_COUNTER_PERIOD) clock).2.At t := by
  have hbase : (if t % HRT_COUNTER_PERIOD < clock.lastCount
      then absTime (clock.baseTime + HRT_COUNTER_PERIOD) else clock.baseTime)
        = absTime (t / HRT_COUNTER_PERIOD * HRT_COUNTER_PERIOD) := by
    rw [h.base, h.count]
    unfold absTime HRT_COUNTER_PERIOD at *
    split <;> omega
  unfold hrtAbsoluteTime
  simp only [hbase]
  refine ⟨?_, rfl, rfl⟩
  unfold absTime HRT_COUNTER_PERIOD
  omega

theorem absTime_add (t n : Nat) : absTime (absTime t + n) = absTime (t + n) := by
  unfold absTime
  rw [Nat.mod_add_mod]

/-- **Whatever is queued, the next interrupt is programmed for neither too early nor too late.** -/
theorem rescheduleDeadline_spec (t : Nat) (next : Option Nat) :
    ∃ deadline, t + HRT_INTERVAL_MIN ≤ deadline ∧ deadline ≤ t + HRT_INTERVAL_MAX ∧
      rescheduleDeadline (absTime t) next = absTime deadline := by
  have hminmax : HRT_INTERVAL_MIN ≤ HRT_INTERVAL_MAX := by decide
  have hlatest : ∃ deadline, t + HRT_INTERVAL_MIN ≤ deadline ∧ deadline ≤ t + HRT_INTERVAL_MAX ∧
      absTime (absTime t + HRT_INTERVAL_MAX) = absTime deadline :=
    ⟨t + HRT_INTERVAL_MAX, by omega, Nat.le_refl _, absTime_add _ _⟩
  cases next with
  | none => exact hlatest
  | some next =>
    unfold rescheduleDeadline
    simp only
    split
    · exact ⟨t + HRT_INTERVAL_MIN, Nat.le_refl _, by omega, absTime_add _ _⟩
    · split
      · rename_i hearly hlate
        -- `next` lies between the two bounds, in this round of the 64 bits or in the next one
        rw [absTime_add] at hearly hlate
        unfold absTime HRT_INTERVAL_MIN HRT_INTERVAL_MAX at *
        by_cases hwrap : (t + 50) / 2 ^ 64 = t / 2 ^ 64
        · exact ⟨t / 2 ^ 64 * 2 ^ 64 + next, by omega, by omega, by omega⟩
        · exact ⟨(t / 2 ^ 64 + 1) * 2 ^ 64 + next, by omega, by omega, by omega⟩
      · exact hlatest

/-! ## The invariant -/

/-- A period of the counter does not go by unread, because the next interrupt comes before. -/
structure InTime (s : Timer) : Prop where
  clock : s.clock.At s.sampled
  sampled_le : s.sampled ≤ s.time
  read_soon : s.time < s.sampled + HRT_COUNTER_PERIOD
  /-- While nothing is under way, the compare register holds a time to come. -/
  programmed : s.due = none → s.rescheduling = none →
    ∃ deadline, s.time < deadline ∧ deadline ≤ s.sampled + HRT_INTERVAL_MAX ∧
      s.ccr = deadline % HRT_COUNTER_PERIOD
  served : ∀ due, s.due = some due →
    due ≤ s.sampled + HRT_INTERVAL_MAX ∧ s.time < due + serviceTime
  rescheduled : ∀ r, s.rescheduling = some r →
    r.since ≤ s.sampled ∧ s.time < r.since + HRT_INTERVAL_MIN ∧
      ∃ deadline, r.since + HRT_INTERVAL_MIN ≤ deadline ∧ deadline ≤ r.since + HRT_INTERVAL_MAX ∧
        r.deadline = absTime deadline

variable {s s' : Timer}

theorem InTime.absoluteTime (h : InTime s) :
    (hrtAbsoluteTime s.count s.clock).1 = absTime s.time ∧
      (hrtAbsoluteTime s.count s.clock).2.At s.time :=
  hrtAbsoluteTime_spec h.clock h.sampled_le h.read_soon

theorem InTime.sample (h : InTime s) : InTime s.sample := by
  have hle := h.sampled_le
  refine ⟨h.absoluteTime.2, Nat.le_refl _, ?_, ?_, ?_, ?_⟩
  · show s.time < s.time + HRT_COUNTER_PERIOD
    exact Nat.lt_add_of_pos_right (by decide)
  · intro hd hr
    obtain ⟨deadline, hlt, hmax, hccr⟩ := h.programmed hd hr
    exact ⟨deadline, hlt, by show _ ≤ s.time + _; omega, hccr⟩
  · intro due hdue
    obtain ⟨hmax, hlt⟩ := h.served due hdue
    exact ⟨by show _ ≤ s.time + _; omega, hlt⟩
  · intro r hr
    obtain ⟨hsince, hlt, hex⟩ := h.rescheduled r hr
    exact ⟨by show _ ≤ s.time; omega, hlt, hex⟩

theorem due_of_mayPass {due : Nat} (hpass : s.mayPass = true) (hd : s.due = some due) :
    s.time + 1 < due + serviceTime := by
  have hdue := (Bool.and_eq_true_iff.mp hpass).1
  rw [hd] at hdue
  exact of_decide_eq_true hdue

theorem rescheduling_of_mayPass {r : Rescheduling} (hpass : s.mayPass = true)
    (hr : s.rescheduling = some r) : s.time + 1 < r.since + HRT_INTERVAL_MIN := by
  have hresch := (Bool.and_eq_true_iff.mp hpass).2
  rw [hr] at hresch
  exact of_decide_eq_true hresch

theorem InTime.not_overdue (h : InTime s) (hpass : s.mayPass = true) (hd : s.due = none) :
    s.time + 1 ≤ s.sampled + HRT_INTERVAL_MAX := by
  cases hr : s.rescheduling with
  | none =>
    obtain ⟨deadline, hlt, hmax, -⟩ := h.programmed hd hr
    omega
  | some r =>
    have hmin : HRT_INTERVAL_MIN ≤ HRT_INTERVAL_MAX := by decide
    have hsince := (h.rescheduled r hr).1
    have hlt := rescheduling_of_mayPass hpass hr
    omega

theorem InTime.advance (h : InTime s) (hpass : s.mayPass = true) : InTime s.advance := by
  have hle := h.sampled_le
  -- the time a service may take ends before the period does
  have hserved : ∀ due, s.due = some due →
      due ≤ s.sampled + HRT_INTERVAL_MAX ∧ s.time + 1 < due + serviceTime := by
    intro due hd
    exact ⟨(h.served due hd).1, due_of_mayPass hpass hd⟩
  have hsum : serviceTime + HRT_INTERVAL_MAX = HRT_COUNTER_PERIOD := rfl
  have hmax : HRT_INTERVAL_MAX < HRT_COUNTER_PERIOD := by decide
  refine ⟨h.clock, Nat.le_succ_of_le hle, ?_, ?_, ?_, ?_⟩
  · show s.time + 1 < s.sampled + HRT_COUNTER_PERIOD
    cases hd : s.due with
    | none =>
      have := h.not_overdue hpass hd
      omega
    | some due =>
      obtain ⟨h1, h2⟩ := hserved due hd
      omega
  · intro hd hr
    have hr : s.rescheduling = none := hr
    simp only [Timer.advance] at hd ⊢
    split at hd
    · cases hd' : s.due with
      | none | some due => simp [hd'] at hd
    · rename_i hmatch
      obtain ⟨deadline, hlt, hmax, hccr⟩ := h.programmed hd hr
      refine ⟨deadline, ?_, hmax, hccr⟩
      rcases Nat.lt_or_eq_of_le hlt with hlt | heq
      · exact hlt
      · rw [hccr, ← heq] at hmatch
        exact absurd rfl hmatch
  · intro due hd
    show due ≤ s.sampled + _ ∧ s.time + 1 < due + serviceTime
    cases hd' : s.due with
    | none =>
      simp only [Timer.advance, hd'] at hd
      split at hd
      · obtain rfl : s.time + 1 = due := by simpa using hd
        exact ⟨h.not_overdue hpass hd', Nat.lt_add_of_pos_right (by decide)⟩
      · cases hd
    | some due' =>
      have hsame : due' = due := by
        simp only [Timer.advance, hd'] at hd
        split at hd <;> simpa using hd
      rw [← hsame]
      exact hserved due' hd'
  · intro r hr
    have hr : s.rescheduling = some r := hr
    obtain ⟨hsince, -, hex⟩ := h.rescheduled r hr
    exact ⟨hsince, rescheduling_of_mayPass hpass hr, hex⟩

theorem InTime.reschedule (h : InTime s) (isr : Bool) (next : Option Nat) :
    InTime { s.sample with
      rescheduling := some ⟨s.time, rescheduleDeadline (hrtAbsoluteTime s.count s.clock).1 next⟩
      due := if isr then none else s.due } := by
  obtain ⟨hclock, hle, hread, -, hserved, -⟩ := h.sample
  refine ⟨hclock, hle, hread, ?_, ?_, ?_⟩
  · rintro - ⟨⟩
  · intro due hdue
    refine hserved due ?_
    have hdue : (if isr = true then none else s.due) = some due := hdue
    split at hdue
    · cases hdue
    · exact hdue
  · intro r hr
    cases hr
    refine ⟨Nat.le_refl _, Nat.lt_add_of_pos_right (by decide), ?_⟩
    rw [h.absoluteTime.1]
    exact rescheduleDeadline_spec s.time next

theorem InTime.program (h : InTime s) {r : Rescheduling} (hr : s.rescheduling = some r) :
    InTime { s with ccr := r.deadline % 2 ^ 16, rescheduling := none } := by
  refine ⟨h.clock, h.sampled_le, h.read_soon, ?_, h.served, by rintro _ ⟨⟩⟩
  intro _ _
  obtain ⟨hsince, hlt, deadline, hmin, hmax, hdl⟩ := h.rescheduled r hr
  refine ⟨deadline, by show s.time < _; omega, by show _ ≤ s.sampled + _; omega, ?_⟩
  show r.deadline % 2 ^ 16 = _
  rw [hdl]
  exact Nat.mod_mod_of_dvd deadline (by decide)

theorem step_inTime (h : InTime s) {a : TimerAction} (hs : s.step a = some s') : InTime s' := by
  cases a with simp only [Timer.step] at hs
  | tick =>
    split at hs
    · rename_i hpass
      cases hs
      exact h.advance hpass
    · cases hs
  | absoluteTime =>
    cases hs
    exact h.sample
  | reschedule isr next =>
    split at hs
    · cases hs
      exact h.reschedule isr next
    · cases hs
  | program =>
    split at hs
    · cases hs
    · rename_i r hr
      cases hs
      exact h.program hr

theorem step_time_le {a : TimerAction} (hs : s.step a = some s') : s.time ≤ s'.time := by
  cases a with simp only [Timer.step] at hs
  | tick =>
    split at hs
    · cases hs
      exact Nat.le_succ _
    · cases hs
  | absoluteTime =>
    cases hs
    exact Nat.le_refl _
  | reschedule isr next =>
    split at hs
    · cases hs
      exact Nat.le_refl _
    · cases hs
  | program =>
    split at hs
    · cases hs
    · cases hs
      exact Nat.le_refl _

/-! ## Every run -/

theorem start_inTime : InTime Timer.start := by
  refine ⟨⟨rfl, rfl⟩, Nat.le_refl _, by decide, ?_, by rintro _ ⟨⟩, by rintro _ ⟨⟩⟩
  intro _ _
  exact ⟨1000, by decide, by decide, rfl⟩

theorem reaches_inTime (h : Reaches Timer.step Always Timer.start s) : InTime s :=
  h.invariant start_inTime fun _ _ _ hI _ hs => step_inTime hI hs

theorem reaches_time_le (h : Reaches Timer.step Always s s') : s.time ≤ s'.time :=
  h.invariant (P := fun t => s.time ≤ t.time) (Nat.le_refl _)
    fun _ _ _ hle _ hs => Nat.le_trans hle (step_time_le hs)

/--
**In every run `hrt_absolute_time` returns the time since the start**, in the 64 bits of a
`hrt_abstime`, so it never goes back; and whatever the callout queue holds,
`hrt_call_reschedule` programs a deadline between `HRT_INTERVAL_MIN` and `HRT_INTERVAL_MAX`
from now.
-/
theorem hrt_time_right (h : Reaches Timer.step Always Timer.start s) :
    (hrtAbsoluteTime s.count s.clock).1 = s.time % 2 ^ 64 ∧
    (∀ s', Reaches Timer.step Always s s' → s'.time < 2 ^ 64 →
      (hrtAbsoluteTime s.count s.clock).1 = s.time ∧
      (hrtAbsoluteTime s.count s.clock).1 ≤ (hrtAbsoluteTime s'.count s'.clock).1) ∧
    ∀ isr next s', s.step (.reschedule isr next) = some s' →
      ∃ r deadline, s'.rescheduling = some r ∧
        s.time + HRT_INTERVAL_MIN ≤ deadline ∧ deadline ≤ s.time + HRT_INTERVAL_MAX ∧
        r.deadline = deadline % 2 ^ 64 := by
  have hnow := (reaches_inTime h).absoluteTime.1
  refine ⟨hnow, ?_, ?_⟩
  · intro s' h' hsmall
    have hnow' := (reaches_inTime (h.trans h')).absoluteTime.1
    have hle := reaches_time_le h'
    rw [hnow, hnow']
    unfold absTime
    rw [Nat.mod_eq_of_lt hsmall, Nat.mod_eq_of_lt (by omega)]
    exact ⟨rfl, hle⟩
  · intro isr next s' hs
    obtain ⟨deadline, hmin, hmax, hdl⟩ := rescheduleDeadline_spec s.time next
    simp only [Timer.step] at hs
    split at hs
    · cases hs
      refine ⟨_, deadline, rfl, hmin, hmax, ?_⟩
      rw [← hnow] at hdl
      exact hdl
    · cases hs

/-- One microsecond after the start the time is 1. -/
theorem hrt_time_right_one :
    (hrtAbsoluteTime Timer.start.advance.count Timer.start.advance.clock).1 = 1 := by
  have h : Reaches Timer.step Always Timer.start Timer.start.advance :=
    .of_foldlM [.tick] rfl
  exact (hrt_time_right h).1

end Gpmx.Hrt
