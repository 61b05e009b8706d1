import Mathlib

/-!
# Times and ticks

`gpm/libs/libc/time/utils.c`, with the types of `gpm/include/time.h`: `time_t` is `uint32_t`, and
`tv_nsec` is an `unsigned long`, of 32 bits on the processors of the boards. An `int64_t` is an
`Int` cut to 64 bits where a product is formed in it. A pointer that may be NULL is an `Option`,
of what it points to.
-/

namespace Gpmx.Libc

def EINVAL : Int := 22
def ETIMEDOUT : Int := 116

def NANOSECONDS_PER_SECOND : Int := 1000000000

structure Timespec where
  tvSec : UInt32
  tvNsec : UInt32
  deriving DecidableEq

/-- `CLOCKS_PER_SEC`, which is `configTICK_RATE_HZ` or `RT_TICK_PER_SECOND`, and the bits of a
`tick_type_t`. -/
structure TickConfig where
  clocksPerSec : Nat
  bits : Nat

def TickConfig.nanosecondsPerTick (c : TickConfig) : Int :=
  NANOSECONDS_PER_SECOND.tdiv c.clocksPerSec

/-- An `int64_t` -/
def int64 (n : Int) : Int := n.bmod (2 ^ 64)

def utilsValidtimespec : Option Timespec → Bool
  | none => false
  | some p => 0 ≤ p.tvNsec && (p.tvNsec.toNat : Int) < NANOSECONDS_PER_SECOND

def utilsTimespecCompare : Option Timespec → Option Timespec → Int
  | none, none => 0
  | _, none => 1
  | none, _ => -1
  | some x, some y =>
    if x.tvSec > y.tvSec then 1
    else if x.tvSec < y.tvSec then -1
    else if x.tvNsec > y.tvNsec then 1
    else if x.tvNsec < y.tvNsec then -1
    else 0

def utilsTimespecAdd (x y z : Option Timespec) : Int × Option Timespec :=
  match x, y, z with
  | some x, some y, some z =>
    let tvNsec := x.tvNsec + y.tvNsec
    if tvNsec < 0 then (1, some { z with tvNsec })
    else
      let psec := (tvNsec.toNat : Int).tdiv NANOSECONDS_PER_SECOND
      let z : Timespec :=
        { tvSec := UInt32.ofInt ((x.tvSec + y.tvSec).toNat + psec)
          tvNsec := UInt32.ofInt ((tvNsec.toNat : Int).tmod NANOSECONDS_PER_SECOND) }
      (if z.tvSec < 0 then 1 else 0, some z)
  | _, _, _ => (-1, z)

def utilsTimespecAddnanoseconds (x : Option Timespec) (nanosec : Int) (y : Option Timespec) :
    Int × Option Timespec :=
  match x, y with
  | some x, some y =>
    let totalNsec := int64 (x.tvNsec.toNat + nanosec)
    if totalNsec < 0 then (1, some y)
    else
      let y : Timespec :=
        { tvSec := UInt32.ofInt (x.tvSec.toNat + totalNsec.tdiv NANOSECONDS_PER_SECOND)
          tvNsec := UInt32.ofInt (totalNsec.tmod NANOSECONDS_PER_SECOND) }
      (if y.tvSec < 0 then 1 else 0, some y)
  | _, _ => (-1, y)

def utilsTimespecSubtract (x y z : Option Timespec) : Int × Option Timespec :=
  match x, y, z with
  | some x, some y, some z =>
    let compareRet := utilsTimespecCompare (some x) (some y)
    if compareRet = -1 then (1, some z)
    else if compareRet = 0 then (0, some { tvSec := 0, tvNsec := 0 })
    else
      let z : Timespec := { tvSec := x.tvSec - y.tvSec, tvNsec := x.tvNsec - y.tvNsec }
      -- the borrow: an unsigned `tv_nsec` is never below 0
      let z : Timespec :=
        if z.tvNsec < 0 then
          { tvSec := z.tvSec - 1
            tvNsec := z.tvNsec + UInt32.ofInt NANOSECONDS_PER_SECOND }
        else z
      (if z.tvNsec < 0 then -1 else 0, some z)
  | _, _, _ => (-1, z)

/-- `utils_nanoseconds_totimespec`; C divides towards 0. -/
def utilsNanosecondsTotimespec (source : Int) : Timespec :=
  let dst : Timespec :=
    { tvSec := UInt32.ofInt (source.tdiv NANOSECONDS_PER_SECOND)
      tvNsec := UInt32.ofInt (source.tmod NANOSECONDS_PER_SECOND) }
  -- the carry of a negative remainder: again the test is on an unsigned value
  if dst.tvNsec < 0 then
    let carrySec := (dst.tvNsec.toNat : Int).tdiv NANOSECONDS_PER_SECOND + 1
    { tvSec := dst.tvSec - UInt32.ofInt carrySec
      tvNsec := dst.tvNsec + UInt32.ofInt (carrySec * NANOSECONDS_PER_SECOND) }
  else dst

/-- `utils_timespec_toticks`; `res` is where the ticks go. -/
def utilsTimespecToticks (c : TickConfig) (x : Option Timespec) (res : Option Nat) :
    Int × Option Nat :=
  match x, res with
  | some x, some res =>
    if utilsValidtimespec (some x) = false then (EINVAL, some res)
    else
      let totalTick := int64 (c.clocksPerSec * x.tvSec.toNat)
      let nanoSec := (x.tvNsec.toNat : Int).tdiv c.nanosecondsPerTick +
        if (x.tvNsec.toNat : Int).tmod c.nanosecondsPerTick ≠ 0 then 1 else 0
      let totalTick := int64 (totalTick + nanoSec)
      let ret :=
        if totalTick < 0 then EINVAL
        else if c.bits = 32 ∧ totalTick > 4294967295 then EINVAL
        else 0
      (ret, some (totalTick % 2 ^ c.bits).toNat)
  | _, _ => (EINVAL, res)

def utilsTimespecTodeltaticks (c : TickConfig) (ab cur : Option Timespec) (res : Option Nat) :
    Int × Option Nat :=
  match ab, cur, res with
  | some ab, some cur, some res =>
    let r := utilsTimespecSubtract (some ab) (some cur) (some { tvSec := 0, tvNsec := 0 })
    if r.1 = 1 then (ETIMEDOUT, some res)
    else if r.1 = -1 then (EINVAL, some res)
    else utilsTimespecToticks c r.2 (some res)
  | _, _, _ => (EINVAL, res)

/-! ## What the values mean -/

def Timespec.value (t : Timespec) : Nat := t.tvSec.toNat * 1000000000 + t.tvNsec.toNat

def Timespec.Valid (t : Timespec) : Prop := t.tvNsec.toNat < 1000000000

def Borrows (x y : Timespec) : Prop := y.tvSec < x.tvSec ∧ x.tvNsec < y.tvNsec

/-- One second is a whole number of ticks, of a whole number of nanoseconds each. -/
def TickConfig.Whole (c : TickConfig) : Prop :=
  ∃ tick : Nat, c.nanosecondsPerTick = tick ∧ c.clocksPerSec * tick = 1000000000

/-- The ticks that are not shorter than `v` nanoseconds. -/
def TickConfig.covers (c : TickConfig) (v : Nat) : Set Nat :=
  {n | (v : Int) ≤ n * c.nanosecondsPerTick}

/-- The least number of them fits in a `tick_type_t`. -/
def TickConfig.Fits (c : TickConfig) (v : Nat) : Prop := ∃ n ∈ c.covers v, n < 2 ^ c.bits

/-- The subtraction fails with 1 exactly when `x` is before `y`; and otherwise gives the
difference, which together with `y` is `x` again. -/
def SubtractExact (x y : Timespec) : Prop :=
  ∀ z, ∃ z', utilsTimespecSubtract (some x) (some y) (some z) =
      (if x.value < y.value then 1 else 0, some z') ∧
    (y.value ≤ x.value → z'.Valid ∧ z'.value = x.value - y.value ∧
      ∀ w, utilsTimespecAdd (some z') (some y) (some w) = (0, some x))

def TotimespecExact (source : Int) : Prop :=
  (utilsNanosecondsTotimespec source).Valid ∧ (utilsNanosecondsTotimespec source).value = source

/-- The least number of ticks for `v` nanoseconds, or an error where it does not fit. -/
def TicksExact (c : TickConfig) (v : Nat) (r : Int × Option Nat) : Prop :=
  ∀ n, IsLeast (c.covers v) n → (n < 2 ^ c.bits → r = (0, some n)) ∧ (2 ^ c.bits ≤ n → r.1 ≠ 0)

/-- The same for the time from `cur` to `ab`, which is over when `ab` is before `cur`. -/
def DeltaExact (c : TickConfig) (ab cur : Timespec) : Prop :=
  ∀ res, (ab.value < cur.value → (utilsTimespecTodeltaticks c ab cur (some res)).1 ≠ 0) ∧
    (cur.value ≤ ab.value →
      TicksExact c (ab.value - cur.value) (utilsTimespecTodeltaticks c ab cur (some res)))

end Gpmx.Libc
