import Gpmx.Infra.Gregorian

/-!
# `gpm/drivers/rtc/lib_rtc.c`

Calendar and time stamps, beside the Gregorian calendar. `rtc_time_t` has 64 bits with
`CONFIG_RTC_TIME_LONGLONG` and else 32. A sum of `int`s that is too large wraps.

* `Denotes` — the fields are those of a date and a time of day
* `rtcTimstampToTm_denotes`, `rtcTmToTimstamp_eq` — what each direction computes
* `converts_iff` — exactly when both together give back what they were given: the days are counted in 32
  bits
-/

namespace Gpmx.Rtc

structure RtcTm where
  sec : Int32
  min : Int32
  hour : Int32
  mday : Int32
  mon : Int32
  year : Int32
  wday : Int32
  deriving DecidableEq

/-- The bits of `rtc_time_t`. -/
def timeWidth (longlong : Bool) : Nat := if longlong then 64 else 32

def isLeapYear (year : Int32) : Bool :=
  (year.toInt.tmod 4 = 0 && year.toInt.tmod 100 ≠ 0) || year.toInt.tmod 400 = 0

def daysInMonth (yearLeap : Bool) : List Nat :=
  if yearLeap then [31, 29, 31, 30, 31, 30, 31, 31, 30, 31, 30, 31]
  else [31, 28, 31, 30, 31, 30, 31, 31, 30, 31, 30, 31]

def daysSince1970 (year : BitVec 32) : BitVec 32 :=
  let y := year - 1970
  let leaps := (y + 1) / 4 - (y + 69) / 100 + (y + 369) / 400
  y * 365 + leaps

def yearLoop : Nat → Nat → BitVec 32 → Nat × BitVec 32
  | 0, days, year => (days, year)
  | fuel + 1, days, year =>
    let length := if isLeapYear (Int32.ofBitVec year) then 366 else 365
    if days ≥ length then yearLoop fuel (days - length) (year + 1) else (days, year)

def monthLoop : List Nat → Nat → Nat → Nat × Nat
  | [], month, days => (month, days)
  | length :: rest, month, days =>
    if days ≥ length then monthLoop rest (month + 1) (days - length) else (month, days)

def rtcTimstampToTm (timestamp : Nat) : RtcTm :=
  let days := timestamp / 86400
  let remSec := timestamp % 86400
  -- every turn takes at least 365 days away
  let (rest, year) := yearLoop days days 1970
  let (month, mday) := monthLoop (daysInMonth (isLeapYear (Int32.ofBitVec year))) 0 rest
  { sec := Int32.ofNat (remSec % 3600 % 60)
    min := Int32.ofNat (remSec % 3600 / 60)
    hour := Int32.ofNat (remSec / 3600)
    mday := Int32.ofNat mday + 1
    mon := Int32.ofNat month
    year := Int32.ofBitVec (year - 1900)
    wday := Int32.ofNat ((days + 4) % 7) }

def fieldsRefused (tm : RtcTm) : Bool :=
  tm.mon.toInt < 0 || tm.mon.toInt > 11 || tm.mday.toInt < 1 || tm.mday.toInt > 31 ||
    tm.hour.toInt < 0 || tm.hour.toInt > 23 || tm.min.toInt < 0 || tm.min.toInt > 59 ||
    tm.sec.toInt < 0 || tm.sec.toInt > 60

/-- `rtc_tm_to_timstamp`: the result and `*timestamp`. -/
def rtcTmToTimstamp (longlong : Bool) (tm : RtcTm) (timestamp : Nat) : Bool × Nat :=
  if fieldsRefused tm then (false, timestamp)
  else
    let year := (tm.year + 1900).toBitVec
    if year < 1970 then (false, timestamp)
    else
      let monthDays := daysInMonth (isLeapYear (Int32.ofBitVec year))
      let seconds := (daysSince1970 year).toNat * 86400
      let seconds := seconds + ((monthDays.take tm.mon.toInt.toNat).map (· * 86400)).sum
      let seconds := seconds + (tm.mday.toInt - 1).toNat * 86400
      let seconds := seconds + tm.hour.toInt.toNat * 3600
      let seconds := seconds + tm.min.toInt.toNat * 60
      let seconds := seconds + tm.sec.toInt.toNat
      (true, seconds % 2 ^ timeWidth longlong)

open Infra.Gregorian List BitVec

variable {longlong : Bool} {tm tm' : RtcTm} {d d' : Date} {year : BitVec 32} {n days : Nat}

/-! ## Years -/

theorem toInt_ofBitVec (h : year.toNat < 2 ^ 31) : (Int32.ofBitVec year).toInt = year.toNat :=
  toInt_eq_toNat_of_lt (show 2 * year.toNat < 2 ^ 32 by omega)

theorem isLeapYear_eq (h : year.toNat < 2 ^ 31) :
    isLeapYear (Int32.ofBitVec year) = decide (IsLeap year.toNat) := by
  have hmod (k : Nat) : (year.toNat : Int).tmod (k : Int) = ((year.toNat % k : Nat) : Int) := by
    rw [Int.tmod_eq_emod_of_nonneg (by omega)]
    rfl
  unfold isLeapYear IsLeap
  rw [toInt_ofBitVec h, show (4 : Int) = (4 : Nat) from rfl, show (100 : Int) = (100 : Nat) from rfl,
    show (400 : Int) = (400 : Nat) from rfl, hmod, hmod, hmod]
  by_cases h4 : year.toNat % 4 = 0 <;> by_cases h100 : year.toNat % 100 = 0 <;>
    by_cases h400 : year.toNat % 400 = 0 <;> simp [h4, h100, h400] <;> omega

theorem daysInMonth_eq (year : Nat) : daysInMonth (decide (IsLeap year)) = monthLengths year := by
  unfold daysInMonth monthLengths
  by_cases h : IsLeap year <;> simp [h]

theorem ite_leap (year : Nat) : (if decide (IsLeap year) then 366 else 365) = yearLength year := by
  unfold yearLength
  by_cases h : IsLeap year <;> simp [h]

theorem daysOfYears_eq (n : Nat) :
    daysOfYears 1970 n = n * 365 + ((n + 1) / 4 - (n + 69) / 100 + (n + 369) / 400) := by
  induction n with
  | zero => rfl
  | succ n ih =>
    unfold daysOfYears yearLength
    rw [ih]
    by_cases h : IsLeap (1970 + n)
    · rw [if_pos h]
      unfold IsLeap at h
      omega
    · rw [if_neg h]
      unfold IsLeap at h
      omega

theorem daysSince1970_toNat (h : 1970 ≤ year.toNat) :
    (daysSince1970 year).toNat = daysOfYears 1970 (year.toNat - 1970) % 2 ^ 32 := by
  have hlt := year.isLt
  rw [daysOfYears_eq]
  unfold daysSince1970
  have hy : (year - 1970).toNat = year.toNat - 1970 := by
    have hle : (1970 : BitVec 32) ≤ year := le_def.mpr h
    rw [toNat_sub_of_le hle]
    rfl
  generalize year - 1970 = y at hy
  have h1 : (y + 1).toNat = y.toNat + 1 := by
    rw [toNat_add, Nat.mod_eq_of_lt]
    · rfl
    · show y.toNat + 1 < 2 ^ 32
      omega
  have h69 : (y + 69).toNat = y.toNat + 69 := by
    rw [toNat_add, Nat.mod_eq_of_lt]
    · rfl
    · show y.toNat + 69 < 2 ^ 32
      omega
  have h369 : (y + 369).toNat = y.toNat + 369 := by
    rw [toNat_add, Nat.mod_eq_of_lt]
    · rfl
    · show y.toNat + 369 < 2 ^ 32
      omega
  have hleaps : ((y + 1) / 4 - (y + 69) / 100).toNat = (y.toNat + 1) / 4 - (y.toNat + 69) / 100 := by
    have hle : (y + 69) / 100 ≤ (y + 1) / 4 := by
      rw [le_def, toNat_udiv, toNat_udiv, h1, h69]
      show (y.toNat + 69) / 100 ≤ (y.toNat + 1) / 4
      omega
    rw [toNat_sub_of_le hle, toNat_udiv, toNat_udiv, h1, h69]
    rfl
  rw [toNat_add, toNat_mul, toNat_add, hleaps, toNat_udiv, h369, ← hy]
  show (y.toNat * 365 % 2 ^ 32 + ((y.toNat + 1) / 4 - (y.toNat + 69) / 100 +
    (y.toNat + 369) / 400) % 2 ^ 32) % 2 ^ 32 = _
  omega

/-! ## The loops -/

theorem daysOfYears_succ' (first n : Nat) :
    daysOfYears first (n + 1) = yearLength first + daysOfYears (first + 1) n := by
  induction n with
  | zero => exact Nat.add_comm ..
  | succ n ih =>
    rw [daysOfYears_succ, ih, daysOfYears_succ, show first + 1 + n = first + (n + 1) by omega]
    exact Nat.add_assoc ..

theorem le_daysOfYears (first n : Nat) : 365 * n ≤ daysOfYears first n ∧ daysOfYears first n ≤ 366 * n := by
  induction n with
  | zero => exact ⟨Nat.le_refl _, Nat.le_refl _⟩
  | succ n ih =>
    unfold daysOfYears yearLength
    split <;> omega

theorem yearLoop_eq {fuel rest : Nat} {last : BitVec 32} (hfuel : days ≤ fuel)
    (hbound : days + 365 * year.toNat < 365 * 2 ^ 31) (h : yearLoop fuel days year = (rest, last)) :
    ∃ n, last.toNat = year.toNat + n ∧ last.toNat < 2 ^ 31 ∧ days = daysOfYears year.toNat n + rest ∧
      rest < yearLength last.toNat := by
  induction fuel generalizing days year with
  | zero =>
    cases h
    have hlength := @le_yearLength last.toNat
    exact ⟨0, rfl, by omega, (Nat.zero_add _).symm, by omega⟩
  | succ fuel ih =>
    have hyear : year.toNat < 2 ^ 31 := by omega
    unfold yearLoop at h
    rw [isLeapYear_eq hyear, ite_leap] at h
    dsimp only at h
    have hlength := @le_yearLength year.toNat
    split_ifs at h with hlast
    · have hnext : (year + 1).toNat = year.toNat + 1 := by
        rw [toNat_add]
        show (year.toNat + 1) % 2 ^ 32 = _
        omega
      obtain ⟨n, h1, h2, h3, h4⟩ := ih (by omega) (by omega) h
      refine ⟨n + 1, by omega, h2, ?_, h4⟩
      rw [daysOfYears_succ', ← hnext, Nat.add_assoc, ← h3]
      omega
    · cases h
      exact ⟨0, rfl, hyear, (Nat.zero_add _).symm, Nat.lt_of_not_le hlast⟩

theorem monthLoop_eq {lengths : List Nat} {start month rest : Nat} (hsum : days < lengths.sum)
    (h : monthLoop lengths start days = (month, rest)) :
    ∃ j, j < lengths.length ∧ month = start + j ∧ days = (lengths.take j).sum + rest ∧
      rest < lengths.getD j 0 := by
  induction lengths generalizing days start with
  | nil => exact absurd hsum (Nat.not_lt_zero _)
  | cons length lengths ih =>
    unfold monthLoop at h
    split_ifs at h with hlast
    · rw [sum_cons] at hsum
      obtain ⟨j, h1, h2, h3, h4⟩ := ih (by omega) h
      refine ⟨j + 1, Nat.succ_lt_succ h1, by omega, ?_, h4⟩
      rw [take_succ_cons, sum_cons]
      omega
    · cases h
      exact ⟨0, Nat.succ_pos _, rfl, (Nat.zero_add _).symm, Nat.lt_of_not_le hlast⟩

/-! ## What the fields denote -/

structure Denotes (tm : RtcTm) (d : Date) : Prop where
  valid : d.Valid 1970
  year : tm.year.toInt + 1900 = d.year
  month : tm.mon.toInt = d.month
  day : tm.mday.toInt = d.day
  hour : 0 ≤ tm.hour.toInt ∧ tm.hour.toInt ≤ 23
  min : 0 ≤ tm.min.toInt ∧ tm.min.toInt ≤ 59
  sec : 0 ≤ tm.sec.toInt ∧ tm.sec.toInt ≤ 60

def RtcTm.time (tm : RtcTm) : Nat :=
  tm.hour.toInt.toNat * 3600 + tm.min.toInt.toNat * 60 + tm.sec.toInt.toNat

def seconds (tm : RtcTm) (d : Date) : Nat := d.number 1970 * 86400 + tm.time

theorem Denotes.unique (h : Denotes tm d) (h' : Denotes tm d') : d = d' := by
  obtain ⟨y, m, a⟩ := d
  obtain ⟨y', m', a'⟩ := d'
  have hyear : (y : Int) = y' := h.year.symm.trans h'.year
  have hmonth : (m : Int) = m' := h.month.symm.trans h'.month
  have hday : (a : Int) = a' := h.day.symm.trans h'.day
  rw [Date.mk.injEq]
  omega

theorem Denotes.time_lt (h : Denotes tm d) (hsec : tm.sec.toInt ≤ 59) : tm.time < 86400 := by
  obtain ⟨hhour, hhour'⟩ := h.hour
  obtain ⟨hmin, hmin'⟩ := h.min
  unfold RtcTm.time
  omega

theorem toInt_ofNat {n : Nat} (h : n < 2 ^ 31) : (Int32.ofNat n).toInt = n := by
  rw [← Int32.ofInt_eq_ofNat]
  exact Int32.toInt_ofInt_of_le (by omega) (by omega)

/-- **A time stamp to the date and the time of day.** -/
theorem rtcTimstampToTm_denotes {t : Nat} (h : t / 86400 + 365 * 1970 < 365 * 2 ^ 31) :
    ∃ d, Denotes (rtcTimstampToTm t) d ∧ (rtcTimstampToTm t).sec.toInt ≤ 59 ∧
      seconds (rtcTimstampToTm t) d = t ∧
      (rtcTimstampToTm t).wday.toInt = ((d.number 1970 + 4) % 7 : Nat) := by
  have hstart : (1970 : BitVec 32).toNat = 1970 := rfl
  rcases hyears : yearLoop (t / 86400) (t / 86400) 1970 with ⟨rest, last⟩
  obtain ⟨n, hlast, hlt, hdays, hrest⟩ := yearLoop_eq (Nat.le_refl _) (hstart ▸ h) hyears
  rw [hstart] at hlast hdays
  rcases hmonths : monthLoop (monthLengths last.toNat) 0 rest with ⟨month, mday⟩
  have hsum : (monthLengths last.toNat).sum = yearLength last.toNat := daysOfMonths_twelve
  obtain ⟨j, hj, rfl, hrest', hmday⟩ := monthLoop_eq (hsum ▸ hrest) hmonths
  rw [Nat.zero_add] at hmonths
  have hj : j < 12 := hj
  have hmday' : mday < 31 := by
    refine Nat.lt_of_lt_of_le hmday ?_
    unfold monthLengths
    interval_cases j <;> simp
    split <;> decide
  have htm : rtcTimstampToTm t =
      { sec := Int32.ofNat (t % 86400 % 3600 % 60)
        min := Int32.ofNat (t % 86400 % 3600 / 60)
        hour := Int32.ofNat (t % 86400 / 3600)
        mday := Int32.ofNat mday + 1
        mon := Int32.ofNat j
        year := Int32.ofBitVec (last - 1900)
        wday := Int32.ofNat ((t / 86400 + 4) % 7) } := by
    unfold rtcTimstampToTm
    dsimp only
    rw [hyears]
    rw [isLeapYear_eq hlt, daysInMonth_eq, hmonths]
  have hday : (Int32.ofNat mday + 1).toInt = ((mday + 1 : Nat) : Int) := by
    rw [show Int32.ofNat mday + 1 = Int32.ofNat (mday + 1) by rw [Int32.ofNat_add]; rfl]
    exact toInt_ofNat (by omega)
  have hyear : (Int32.ofBitVec (last - 1900)).toInt + 1900 = (last.toNat : Int) := by
    have hle : (1900 : BitVec 32) ≤ last := le_def.mpr (show 1900 ≤ last.toNat by omega)
    have hsub : (last - 1900).toNat = last.toNat - 1900 := toNat_sub_of_le hle
    rw [toInt_ofBitVec (by omega), hsub]
    omega
  have hnumber : Date.number 1970 { year := last.toNat, month := j, day := mday + 1 } = t / 86400 := by
    unfold Date.number daysOfMonths
    rw [hdays, hrest', hlast, Nat.add_sub_cancel_left, Nat.add_sub_cancel, Nat.add_assoc]
  refine ⟨{ year := last.toNat, month := j, day := mday + 1 }, ?_, ?_, ?_, ?_⟩
  · rw [htm]
    refine ⟨⟨by show 1970 ≤ last.toNat; omega, hj, Nat.succ_pos _, hmday⟩, hyear, toInt_ofNat (by omega),
      hday, ?_, ?_, ?_⟩
    · rw [toInt_ofNat (by omega)]
      omega
    · rw [toInt_ofNat (by omega)]
      omega
    · rw [toInt_ofNat (by omega)]
      omega
  · rw [htm]
    rw [toInt_ofNat (by omega)]
    omega
  · unfold seconds RtcTm.time
    rw [hnumber, htm]
    dsimp only
    rw [toInt_ofNat (by omega), toInt_ofNat (by omega), toInt_ofNat (by omega)]
    simp only [Int.toNat_natCast]
    omega
  · rw [hnumber, htm]
    exact toInt_ofNat (by omega)

/-! ## Dates to time stamps -/

/-- `year` of `rtc_tm_to_timstamp`. -/
def yearOf (tm : RtcTm) : Nat := (tm.year + 1900).toBitVec.toNat

theorem yearOf_eq (tm : RtcTm) :
    (yearOf tm : Int) = tm.year.toInt + 1900 ∨ (yearOf tm : Int) = tm.year.toInt + 1900 + 2 ^ 32 := by
  have hadd : (tm.year + 1900).toBitVec = tm.year.toBitVec + 1900 := rfl
  have hbits : tm.year.toInt = tm.year.toBitVec.toInt := rfl
  have hlt := tm.year.toBitVec.isLt
  unfold yearOf
  have h1900 : (1900 : BitVec 32).toNat = 1900 := rfl
  rw [hadd, hbits, toInt_eq_toNat_cond, toNat_add, h1900]
  split_ifs <;> omega

theorem Denotes.yearOf (h : Denotes tm d) : yearOf tm = d.year := by
  have hyear := h.year
  have hvalid := h.valid.year
  have hlt : Rtc.yearOf tm < 2 ^ 32 := (tm.year + 1900).toBitVec.isLt
  obtain heq | heq := yearOf_eq tm <;> omega

theorem fieldsRefused_eq_false_iff : fieldsRefused tm = false ↔
    (0 ≤ tm.mon.toInt ∧ tm.mon.toInt ≤ 11) ∧ (1 ≤ tm.mday.toInt ∧ tm.mday.toInt ≤ 31) ∧
      (0 ≤ tm.hour.toInt ∧ tm.hour.toInt ≤ 23) ∧ (0 ≤ tm.min.toInt ∧ tm.min.toInt ≤ 59) ∧
      (0 ≤ tm.sec.toInt ∧ tm.sec.toInt ≤ 60) := by
  unfold fieldsRefused
  simp only [Bool.or_eq_false_iff, decide_eq_false_iff_not, not_lt]
  omega

theorem Denotes.accepted (h : Denotes tm d) : fieldsRefused tm = false := by
  have hmonth := h.month
  have hday := h.day
  have hvalid := h.valid
  have hlt := hvalid.month
  have hpos := hvalid.pos
  have hle := Nat.le_trans hvalid.day monthLength_le
  exact fieldsRefused_eq_false_iff.mpr ⟨by omega, by omega, h.hour, h.min, h.sec⟩

theorem sum_daysInMonth_le (leap : Bool) (n : Nat) : ((daysInMonth leap).take n).sum ≤ 366 := by
  have hsplit : (daysInMonth leap).sum =
      ((daysInMonth leap).take n).sum + ((daysInMonth leap).drop n).sum := by
    rw [← sum_append, take_append_drop]
  have hall : (daysInMonth leap).sum ≤ 366 := by cases leap <;> decide
  omega

theorem rtcTmToTimstamp_eq (longlong : Bool) (haccepted : fieldsRefused tm = false) (hyear : 1970 ≤ yearOf tm)
    (timestamp : Nat) : ∃ months ≤ 366,
      (yearOf tm < 2 ^ 31 → months = daysOfMonths (yearOf tm) tm.mon.toInt.toNat) ∧
      rtcTmToTimstamp longlong tm timestamp = (true,
        ((daysOfYears 1970 (yearOf tm - 1970) % 2 ^ 32 + months + (tm.mday.toInt - 1).toNat) * 86400 + tm.time) %
          2 ^ timeWidth longlong) := by
  refine ⟨((daysInMonth (isLeapYear (Int32.ofBitVec (tm.year + 1900).toBitVec))).take tm.mon.toInt.toNat).sum,
    sum_daysInMonth_le .., fun hlt => ?_, ?_⟩
  · rw [isLeapYear_eq hlt, daysInMonth_eq]
    rfl
  · have hmul (l : List Nat) : (l.map (· * 86400)).sum = l.sum * 86400 := by
      induction l with
      | nil => rfl
      | cons a l ih => rw [map_cons, sum_cons, ih, sum_cons, Nat.add_mul]
    have hnot : ¬ (tm.year + 1900).toBitVec < 1970 := fun hlt =>
      absurd (lt_def.mp hlt) (Nat.not_lt.mpr hyear)
    unfold rtcTmToTimstamp RtcTm.time
    rw [haccepted]
    dsimp only
    rw [if_neg (by decide), if_neg hnot, daysSince1970_toNat hyear, hmul]
    refine congrArg (Prod.mk true) (congrArg (· % 2 ^ timeWidth longlong) ?_)
    unfold yearOf
    omega

def CountFits (d : Date) : Prop := daysOfYears 1970 (d.year - 1970) < 2 ^ 32

theorem CountFits.year_lt (h : CountFits d) : d.year < 2 ^ 31 := by
  have hle := (le_daysOfYears 1970 (d.year - 1970)).1
  unfold CountFits at h
  omega

/-- The seconds fit in `rtc_time_t`. -/
def Fits (longlong : Bool) (tm : RtcTm) (d : Date) : Prop := seconds tm d < 2 ^ timeWidth longlong

/-- **A date to a time stamp**: the seconds are stored exactly when the days of the years fit in 32
bits. -/
theorem stored_iff (h : Denotes tm d) (hfits : Fits longlong tm d) (timestamp : Nat) :
    rtcTmToTimstamp longlong tm timestamp = (true, seconds tm d) ↔ CountFits d := by
  have hyear := h.yearOf
  have hvalid := h.valid
  have hmonth : tm.mon.toInt.toNat = d.month := by have := h.month; omega
  have hday : (tm.mday.toInt - 1).toNat = d.day - 1 := by have := h.day; have := hvalid.pos; omega
  obtain ⟨months, hle, hmonths, heq⟩ := rtcTmToTimstamp_eq longlong h.accepted
    (hyear ▸ hvalid.year) timestamp
  rw [heq, Prod.mk.injEq, and_iff_right rfl, hyear, hday]
  rw [hyear, hmonth] at hmonths
  constructor
  · intro hsame
    by_contra hwrap
    -- what is stored is too small by 2 ^ 32 days at least, months being no help
    have hsmall := Nat.mod_le
      ((daysOfYears 1970 (d.year - 1970) % 2 ^ 32 + months + (d.day - 1)) * 86400 + tm.time)
      (2 ^ timeWidth longlong)
    rw [hsame] at hsmall
    unfold seconds Date.number at hsmall
    unfold CountFits at hwrap
    omega
  · intro hcount
    rw [hmonths hcount.year_lt, Nat.mod_eq_of_lt hcount]
    exact Nat.mod_eq_of_lt hfits

/-! ## Both directions -/

/-- The time stamps: in the 64-bit build those of the years below 1000000. -/
def Stamp (longlong : Bool) (t : Nat) : Prop :=
  if longlong then t < daysOfYears 1970 (1000000 - 1970) * 86400 else t < 2 ^ 32

/-- A time stamp gives its date, time of day and weekday (1970-01-01 is a Thursday), and these give it
back. -/
def StampConverts (longlong : Bool) (t : Nat) : Prop :=
  ∃ d, Denotes (rtcTimstampToTm t) d ∧ (rtcTimstampToTm t).sec.toInt ≤ 59 ∧
    seconds (rtcTimstampToTm t) d = t ∧
    (rtcTimstampToTm t).wday.toInt = ((d.number 1970 + 4) % 7 : Nat) ∧
    ∀ timestamp, rtcTmToTimstamp longlong (rtcTimstampToTm t) timestamp = (true, t)

def RoundTrips (longlong : Bool) (tm : RtcTm) : Prop :=
  ∀ timestamp, ∃ t, rtcTmToTimstamp longlong tm timestamp = (true, t) ∧
    { rtcTimstampToTm t with wday := tm.wday } = tm

def Earlier (tm tm' : RtcTm) (d d' : Date) : Prop := d.Before d' ∨ d = d' ∧ tm.time < tm'.time

theorem stampConverts {t : Nat} (ht : Stamp longlong t) : StampConverts longlong t := by
  have hdays : t / 86400 < 2 ^ 32 ∧ t < 2 ^ timeWidth longlong := by
    unfold Stamp at ht
    unfold timeWidth
    cases longlong with
    | false =>
      rw [if_neg (by decide)] at ht ⊢
      omega
    | true =>
      rw [if_pos rfl] at ht ⊢
      have hle := (le_daysOfYears 1970 (1000000 - 1970)).2
      omega
  obtain ⟨d, hdenotes, hsec, hseconds, hwday⟩ := rtcTimstampToTm_denotes (t := t) (by omega)
  refine ⟨d, hdenotes, hsec, hseconds, hwday, fun timestamp => ?_⟩
  have hfits : Fits longlong (rtcTimstampToTm t) d := by
    unfold Fits
    rw [hseconds]
    exact hdays.2
  have hcount : CountFits d := by
    unfold seconds Date.number at hseconds
    unfold CountFits
    omega
  rw [(stored_iff hdenotes hfits timestamp).mpr hcount, hseconds]

theorem Denotes.fields_eq (h : Denotes tm d) (h' : Denotes tm' d) (hsec : tm.sec.toInt ≤ 59)
    (hsec' : tm'.sec.toInt ≤ 59) (htime : tm.time = tm'.time) : { tm with wday := tm'.wday } = tm' := by
  have hhour := h.hour
  have hhour' := h'.hour
  have hmin := h.min
  have hmin' := h'.min
  have hlow := h.sec.1
  have hlow' := h'.sec.1
  unfold RtcTm.time at htime
  have hyear : tm.year = tm'.year := Int32.toInt_inj.mp (by have := h.year; have := h'.year; omega)
  have hmonth : tm.mon = tm'.mon := Int32.toInt_inj.mp (h.month.trans h'.month.symm)
  have hday : tm.mday = tm'.mday := Int32.toInt_inj.mp (h.day.trans h'.day.symm)
  have hh : tm.hour = tm'.hour := Int32.toInt_inj.mp (by omega)
  have hm : tm.min = tm'.min := Int32.toInt_inj.mp (by omega)
  have hs : tm.sec = tm'.sec := Int32.toInt_inj.mp (by omega)
  cases tm
  cases tm'
  simp_all

theorem Denotes.of_fields (h : Denotes tm' d) (hsame : { tm' with wday := tm.wday } = tm) :
    Denotes tm d ∧ tm.time = tm'.time := by
  rw [← hsame]
  exact ⟨⟨h.valid, h.year, h.month, h.day, h.hour, h.min, h.sec⟩, rfl⟩

theorem roundTrips_iff (h : Denotes tm d) (hsec : tm.sec.toInt ≤ 59) (hfits : Fits longlong tm d) :
    RoundTrips longlong tm ↔ CountFits d := by
  constructor
  · intro hround
    obtain ⟨t, hstored, hsame⟩ := hround 0
    refine (stored_iff h hfits 0).mp (hstored.trans (congrArg (Prod.mk true) ?_))
    obtain ⟨months, hle, -, heq⟩ := rtcTmToTimstamp_eq longlong h.accepted (h.yearOf ▸ h.valid.year) 0
    rw [hstored, Prod.mk.injEq] at heq
    have hmod := Nat.mod_le ((daysOfYears 1970 (yearOf tm - 1970) % 2 ^ 32 + months +
      (tm.mday.toInt - 1).toNat) * 86400 + tm.time) (2 ^ timeWidth longlong)
    rw [← heq.2] at hmod
    have htime := h.time_lt hsec
    have hday := h.day
    have hdayle := Nat.le_trans h.valid.day monthLength_le
    obtain ⟨d', hdenotes, -, hseconds, -⟩ := rtcTimstampToTm_denotes (t := t) (by omega)
    obtain ⟨hdenotes', htime'⟩ := hdenotes.of_fields hsame
    rw [h.unique hdenotes', ← hseconds]
    unfold seconds
    rw [htime']
  · intro hcount timestamp
    refine ⟨seconds tm d, (stored_iff h hfits timestamp).mpr hcount, ?_⟩
    have htime := h.time_lt hsec
    have hin := h.valid.lt_yearLength
    have hlen : yearLength d.year ≤ 366 := by
      unfold yearLength
      split <;> decide
    obtain ⟨d', hdenotes, hsec', hseconds, -⟩ := rtcTimstampToTm_denotes (t := seconds tm d) (by
      unfold seconds Date.number
      unfold CountFits at hcount
      omega)
    have htime' := hdenotes.time_lt hsec'
    have hboth : d'.number 1970 = d.number 1970 ∧
        (rtcTimstampToTm (seconds tm d)).time = tm.time := by
      generalize rtcTimstampToTm (seconds tm d) = tm' at *
      unfold seconds at hseconds
      omega
    obtain rfl := Date.number_inj hdenotes.valid h.valid hboth.1
    exact hdenotes.fields_eq h hsec' hsec hboth.2

/-- **When the conversions are inverse to each other and keep the order**: for the dates whose years have
less than 2 ^ 32 days. -/
theorem converts_iff {t : Nat} (ht : Stamp longlong t) (h : Denotes tm d) (hsec : tm.sec.toInt ≤ 59)
    (hfits : Fits longlong tm d) (h' : Denotes tm' d') (hsec' : tm'.sec.toInt ≤ 59)
    (hfits' : Fits longlong tm' d') :
    (StampConverts longlong t ∧ RoundTrips longlong tm ∧ RoundTrips longlong tm' ∧
      (Earlier tm tm' d d' → ∀ timestamp, (rtcTmToTimstamp longlong tm timestamp).2 <
        (rtcTmToTimstamp longlong tm' timestamp).2)) ↔ CountFits d ∧ CountFits d' := by
  rw [roundTrips_iff h hsec hfits, roundTrips_iff h' hsec' hfits']
  constructor
  · exact fun hall => ⟨hall.2.1, hall.2.2.1⟩
  · rintro ⟨hcount, hcount'⟩
    refine ⟨stampConverts ht, hcount, hcount', fun hearlier timestamp => ?_⟩
    rw [(stored_iff h hfits timestamp).mpr hcount, (stored_iff h' hfits' timestamp).mpr hcount']
    have htime := h.time_lt hsec
    unfold seconds
    obtain hbefore | ⟨rfl, hlt⟩ := hearlier
    · have hlt := Date.number_lt h.valid hbefore
      dsimp only
      omega
    · dsimp only
      omega

def leapDay : RtcTm := { sec := 0, min := 0, hour := 12, mday := 29, mon := 1, year := 100, wday := 0 }

def nextDay : RtcTm := { sec := 59, min := 0, hour := 0, mday := 1, mon := 2, year := 100, wday := 0 }

theorem denotes_leapDay : Denotes leapDay { year := 2000, month := 1, day := 29 } :=
  ⟨⟨by decide, by decide, by decide, by decide⟩, by decide, by decide, by decide, by decide, by decide,
    by decide⟩

theorem denotes_nextDay : Denotes nextDay { year := 2000, month := 2, day := 1 } :=
  ⟨⟨by decide, by decide, by decide, by decide⟩, by decide, by decide, by decide, by decide, by decide,
    by decide⟩

theorem converts_days : StampConverts true 0xffffffff ∧ RoundTrips true leapDay ∧
    RoundTrips true nextDay ∧
    (Earlier leapDay nextDay { year := 2000, month := 1, day := 29 } { year := 2000, month := 2, day := 1 } →
      ∀ timestamp, (rtcTmToTimstamp true leapDay timestamp).2 <
        (rtcTmToTimstamp true nextDay timestamp).2) := by
  have hcount : daysOfYears 1970 30 = 10957 := by rw [daysOfYears_eq]
  have hfits : Fits true leapDay { year := 2000, month := 1, day := 29 } := by
    show (daysOfYears 1970 30 + 31 + 28) * 86400 + 43200 < 2 ^ 64
    rw [hcount]
    decide
  have hfits' : Fits true nextDay { year := 2000, month := 2, day := 1 } := by
    show (daysOfYears 1970 30 + 60 + 0) * 86400 + 59 < 2 ^ 64
    rw [hcount]
    decide
  have hstamp : Stamp true 0xffffffff := by
    unfold Stamp
    rw [daysOfYears_eq]
    decide
  have hyear : daysOfYears 1970 30 < 2 ^ 32 := by
    rw [hcount]
    decide
  exact (converts_iff hstamp denotes_leapDay (by decide) hfits denotes_nextDay (by decide) hfits').mpr
    ⟨hyear, hyear⟩

/-- 11761192-01-01 00:00:00, 2 ^ 32 days and 345 after 1970-01-01, and the fields that come back. -/
theorem not_converts :
    rtcTmToTimstamp true
        { sec := 0, min := 0, hour := 0, mday := 1, mon := 0, year := 11759292, wday := 0 } 0 =
      (true, 345 * 86400) ∧
    rtcTimstampToTm (345 * 86400) =
      { sec := 0, min := 0, hour := 0, mday := 12, mon := 11, year := 70, wday := 6 } := by
  decide +kernel

end Gpmx.Rtc

/-!
## What `rtc_tm_to_timstamp` refuses

The fields are checked one by one: a day is not compared with the length of its month, a year before 0 is a
large number, and seconds that do not fit are cut off.
-/

namespace Gpmx.Rtc

open Infra.Gregorian

variable {longlong : Bool} {tm : RtcTm} {timestamp : Nat}

/-- Real dates whose seconds fit are accepted and these are stored; all else is refused, and nothing is
stored. -/
structure Validates (longlong : Bool) (tm : RtcTm) (timestamp : Nat) : Prop where
  accepts : ∀ d, Denotes tm d → Fits longlong tm d →
    rtcTmToTimstamp longlong tm timestamp = (true, seconds tm d)
  refuses : (∀ d, Denotes tm d → ¬ Fits longlong tm d) →
    rtcTmToTimstamp longlong tm timestamp = (false, timestamp)

theorem refused_of_fields (h : fieldsRefused tm = true ∨ yearOf tm < 1970) :
    rtcTmToTimstamp longlong tm timestamp = (false, timestamp) := by
  unfold rtcTmToTimstamp
  by_cases hfields : fieldsRefused tm = true
  · rw [if_pos hfields]
  · have hyear : (tm.year + 1900).toBitVec < 1970 := BitVec.lt_def.mpr (h.resolve_left hfields)
    rw [if_neg hfields]
    exact if_pos hyear

theorem not_denotes_of_fields (h : fieldsRefused tm = true ∨ yearOf tm < 1970) (d : Date) :
    ¬ Denotes tm d := by
  intro hdenotes
  obtain h | h := h
  · rw [hdenotes.accepted] at h
    cases h
  · rw [hdenotes.yearOf] at h
    exact absurd hdenotes.valid.year (Nat.not_le.mpr h)

/-- **When a date is validated**: it is refused for one of its fields, or it is real, its seconds fit and
the days of its years do so in 32 bits. -/
theorem validates_iff : Validates longlong tm timestamp ↔
    fieldsRefused tm = true ∨ yearOf tm < 1970 ∨
      ∃ d, Denotes tm d ∧ Fits longlong tm d ∧ CountFits d := by
  by_cases hfields : fieldsRefused tm = true ∨ yearOf tm < 1970
  · have hnone := not_denotes_of_fields hfields
    refine iff_of_true ⟨fun d hd => absurd hd (hnone d), fun _ => refused_of_fields hfields⟩ ?_
    exact hfields.imp_right .inl
  · obtain ⟨haccepted, hyear⟩ := not_or.mp hfields
    have haccepted : fieldsRefused tm = false := Bool.not_eq_true _ ▸ haccepted
    obtain ⟨months, -, -, hstored⟩ := rtcTmToTimstamp_eq longlong haccepted (Nat.le_of_not_lt hyear)
      timestamp
    constructor
    · rintro ⟨haccepts, hrefuses⟩
      refine .inr (.inr ?_)
      by_contra hnone
      by_cases hreal : ∃ d, Denotes tm d ∧ Fits longlong tm d
      · obtain ⟨d, hd, hfits⟩ := hreal
        exact hnone ⟨d, hd, hfits, (stored_iff hd hfits timestamp).mp (haccepts d hd hfits)⟩
      · have hrefused := hrefuses fun d hd hfits => hreal ⟨d, hd, hfits⟩
        rw [hstored] at hrefused
        cases hrefused
    · intro h
      obtain ⟨d, hd, hfits, hcount⟩ := (h.resolve_left (not_or.mp hfields).1).resolve_left hyear
      refine ⟨fun d' hd' hfits' => ?_, fun hnone => absurd hfits (hnone d hd)⟩
      rw [hd'.unique hd]
      exact (stored_iff hd hfits timestamp).mpr hcount

/-- 2001-02-30 is taken for 2001-03-02. -/
theorem not_validates : ¬ Validates false
    { sec := 0, min := 0, hour := 0, mday := 30, mon := 1, year := 101, wday := 0 } 7 := by
  intro h
  have hstored : rtcTmToTimstamp false
      { sec := 0, min := 0, hour := 0, mday := 30, mon := 1, year := 101, wday := 0 } 7 =
      (true, 983491200) := by decide +kernel
  have hrefused := h.refuses fun d hd _ => by
    have hyear := hd.yearOf
    have hmonth : (1 : Int) = d.month := hd.month
    have hday : (30 : Int) = d.day := hd.day
    have hle := hd.valid.day
    rw [← hyear, show d.month = 1 by omega, show d.day = 30 by omega] at hle
    exact absurd hle (by decide)
  rw [hstored] at hrefused
  cases hrefused

end Gpmx.Rtc
