import Mathlib

/-!
# The Gregorian calendar

Years, months and days counted from the first day of a year.

* `Date.number` — the days from that day to a date
* `Date.number_lt` — a later date has a larger number; so no two dates have the same one
-/

namespace Gpmx.Infra.Gregorian

def IsLeap (year : Nat) : Prop := year % 4 = 0 ∧ year % 100 ≠ 0 ∨ year % 400 = 0

instance (year : Nat) : Decidable (IsLeap year) := inferInstanceAs (Decidable (_ ∨ _))

def yearLength (year : Nat) : Nat := if IsLeap year then 366 else 365

def monthLengths (year : Nat) : List Nat :=
  [31, if IsLeap year then 29 else 28, 31, 30, 31, 30, 31, 31, 30, 31, 30, 31]

def monthLength (year month : Nat) : Nat := (monthLengths year).getD month 0

def daysOfYears (first : Nat) : Nat → Nat
  | 0 => 0
  | n + 1 => daysOfYears first n + yearLength (first + n)

def daysOfMonths (year month : Nat) : Nat := ((monthLengths year).take month).sum

structure Date where
  year : Nat
  month : Nat
  day : Nat
  deriving DecidableEq

structure Date.Valid (first : Nat) (d : Date) : Prop where
  year : first ≤ d.year
  month : d.month < 12
  pos : 1 ≤ d.day
  day : d.day ≤ monthLength d.year d.month

def Date.number (first : Nat) (d : Date) : Nat :=
  daysOfYears first (d.year - first) + daysOfMonths d.year d.month + (d.day - 1)

def Date.Before (d e : Date) : Prop :=
  d.year < e.year ∨ d.year = e.year ∧ (d.month < e.month ∨ d.month = e.month ∧ d.day < e.day)

variable {first year month n k : Nat} {d e : Date}

/-! ## Years and months -/

theorem le_yearLength : 365 ≤ yearLength year := by
  unfold yearLength
  split <;> decide

theorem daysOfYears_succ (first n : Nat) :
    daysOfYears first (n + 1) = daysOfYears first n + yearLength (first + n) := rfl

theorem daysOfYears_mono (h : n ≤ k) : daysOfYears first n ≤ daysOfYears first k := by
  induction h with
  | refl => exact Nat.le_refl _
  | step _ ih => exact Nat.le_trans ih (Nat.le_add_right ..)

theorem daysOfYears_add_le (h : n < k) : daysOfYears first n + yearLength (first + n) ≤ daysOfYears first k :=
  daysOfYears_mono h

theorem daysOfMonths_succ (h : month < 12) :
    daysOfMonths year (month + 1) = daysOfMonths year month + monthLength year month := by
  unfold daysOfMonths monthLength
  rw [List.take_add_one, List.sum_append]
  have hlt : month < (monthLengths year).length := h
  rw [List.getElem?_eq_getElem hlt]
  simp [hlt]

theorem daysOfMonths_twelve : daysOfMonths year 12 = yearLength year := by
  unfold daysOfMonths monthLengths yearLength
  split <;> rfl

theorem monthLength_le : monthLength year month ≤ 31 := by
  have hall : ∀ length ∈ monthLengths year, length ≤ 31 := by
    unfold monthLengths
    split <;> simp
  unfold monthLength
  by_cases hlt : month < (monthLengths year).length
  · have hmem := hall _ (List.getElem_mem hlt)
    simpa [hlt] using hmem
  · simp [Nat.le_of_not_lt hlt]

theorem daysOfMonths_mono (h : n ≤ k) : daysOfMonths year n ≤ daysOfMonths year k := by
  obtain ⟨j, rfl⟩ := Nat.exists_eq_add_of_le h
  unfold daysOfMonths
  rw [List.take_add, List.sum_append]
  exact Nat.le_add_right ..

theorem Date.Valid.day_lt (h : d.Valid first) :
    daysOfMonths d.year d.month + (d.day - 1) < daysOfMonths d.year (d.month + 1) := by
  rw [daysOfMonths_succ h.month]
  have hpos := h.pos
  have hday := h.day
  omega

theorem Date.Valid.lt_yearLength (h : d.Valid first) :
    daysOfMonths d.year d.month + (d.day - 1) < yearLength d.year := by
  rw [← daysOfMonths_twelve]
  exact Nat.lt_of_lt_of_le h.day_lt (daysOfMonths_mono h.month)

/-! ## Numbers -/

theorem Date.number_lt (hd : d.Valid first) (h : d.Before e) :
    d.number first < e.number first := by
  unfold Date.number
  obtain hyear | ⟨hyear, h⟩ := h
  · have hin := hd.lt_yearLength
    have hle : daysOfYears first (d.year - first) + yearLength (first + (d.year - first)) ≤
        daysOfYears first (e.year - first) := daysOfYears_add_le (by have := hd.year; omega)
    rw [Nat.add_sub_of_le hd.year] at hle
    omega
  · rw [hyear]
    obtain hmonth | ⟨hmonth, hday⟩ := h
    · have hin := hd.day_lt
      have hle : daysOfMonths e.year (d.month + 1) ≤ daysOfMonths e.year e.month := daysOfMonths_mono hmonth
      rw [hyear] at hin
      omega
    · rw [hmonth]
      have hpos := hd.pos
      omega

theorem Date.before_trichotomy (d e : Date) : d.Before e ∨ d = e ∨ e.Before d := by
  obtain ⟨y, m, a⟩ := d
  obtain ⟨y', m', a'⟩ := e
  unfold Date.Before
  simp only [Date.mk.injEq]
  omega

/-- **No two dates have the same number.** -/
theorem Date.number_inj (hd : d.Valid first) (he : e.Valid first) (h : d.number first = e.number first) :
    d = e := by
  obtain hlt | heq | hlt := d.before_trichotomy e
  · exact absurd h (Nat.ne_of_lt (number_lt hd hlt))
  · exact heq
  · exact absurd h.symm (Nat.ne_of_lt (number_lt he hlt))

end Gpmx.Infra.Gregorian
