import Gpmx.Libc.Timespec
import Mathlib

/-!
# Where times and ticks are exact

The seconds and nanoseconds are unsigned, so the code's tests for a negative value never succeed.
What depends on them, the borrow of a subtraction and the carry of a negative number of
nanoseconds, does not happen; the rest is exact.
-/

namespace Gpmx.Libc

open UInt32 (le_iff_toNat_le lt_iff_toNat_lt ofInt toNat_add toNat_inj toNat_lt)

variable {x y t : Timespec} {c : TickConfig} {source : Int} {v : Nat}

/-! ## Words -/

theorem word_not_neg (a : UInt32) : ¬a < 0 := by
  rw [lt_iff_toNat_lt]
  exact Nat.not_lt_zero _

theorem toNat_ofInt_word (n : Int) : (ofInt n).toNat = (n % 2 ^ 32).toNat := by
  have hlt : (n % 2 ^ 32).toNat < 2 ^ 32 := by omega
  exact Nat.mod_eq_of_lt hlt

theorem toNat_ofInt_of_lt {n : Int} (h0 : 0 ≤ n) (h : n < 2 ^ 32) :
    ((ofInt n).toNat : Int) = n := by
  rw [toNat_ofInt_word]
  omega

theorem valid_iff : utilsValidtimespec (some t) = true ↔ t.Valid := by
  have hnonneg : (0 : UInt32) ≤ t.tvNsec := le_iff_toNat_le.mpr (Nat.zero_le _)
  unfold utilsValidtimespec Timespec.Valid NANOSECONDS_PER_SECOND
  simp only [hnonneg, decide_true, Bool.true_and, decide_eq_true_eq]
  omega

theorem value_inj (hx : x.Valid) (hy : y.Valid) (h : x.value = y.value) : x = y := by
  unfold Timespec.Valid Timespec.value at *
  have hsec : x.tvSec = y.tvSec := toNat_inj.mp (by omega)
  have hnsec : x.tvNsec = y.tvNsec := toNat_inj.mp (by omega)
  cases x
  cases y
  rw [Timespec.mk.injEq]
  exact ⟨hsec, hnsec⟩

/-! ## Comparison, sum and difference -/

section

variable (hx : x.Valid)
include hx

theorem compare_spec (hy : y.Valid) :
    (x.value < y.value ∧ utilsTimespecCompare (some x) (some y) = -1) ∨
    (x = y ∧ utilsTimespecCompare (some x) (some y) = 0) ∨
    (y.value < x.value ∧ utilsTimespecCompare (some x) (some y) = 1 ∧
      (y.tvSec < x.tvSec ∨ y.tvSec = x.tvSec ∧ y.tvNsec < x.tvNsec)) := by
  unfold utilsTimespecCompare
  simp only [gt_iff_lt]
  unfold Timespec.Valid at hx hy
  by_cases h1 : y.tvSec < x.tvSec
  · have h1' := lt_iff_toNat_lt.mp h1
    rw [if_pos h1]
    exact .inr (.inr ⟨by unfold Timespec.value; omega, rfl, .inl h1⟩)
  have h1' := mt lt_iff_toNat_lt.mpr h1
  rw [if_neg h1]
  by_cases h2 : x.tvSec < y.tvSec
  · have h2' := lt_iff_toNat_lt.mp h2
    rw [if_pos h2]
    exact .inl ⟨by unfold Timespec.value; omega, rfl⟩
  have h2' := mt lt_iff_toNat_lt.mpr h2
  have hsec : y.tvSec = x.tvSec := toNat_inj.mp (by omega)
  rw [if_neg h2]
  by_cases h3 : y.tvNsec < x.tvNsec
  · have h3' := lt_iff_toNat_lt.mp h3
    rw [if_pos h3]
    exact .inr (.inr ⟨by unfold Timespec.value; omega, rfl, .inr ⟨hsec, h3⟩⟩)
  have h3' := mt lt_iff_toNat_lt.mpr h3
  rw [if_neg h3]
  by_cases h4 : x.tvNsec < y.tvNsec
  · have h4' := lt_iff_toNat_lt.mp h4
    rw [if_pos h4]
    exact .inl ⟨by unfold Timespec.value; omega, rfl⟩
  have h4' := mt lt_iff_toNat_lt.mpr h4
  rw [if_neg h4]
  refine .inr (.inl ⟨value_inj hx hy ?_, rfl⟩)
  unfold Timespec.value
  omega

theorem add_exact (hy : y.Valid) (hfit : x.value + y.value < 2 ^ 32 * 1000000000)
    (w : Timespec) : ∃ z, utilsTimespecAdd (some x) (some y) (some w) = (0, some z) ∧ z.Valid ∧
      z.value = x.value + y.value := by
  have hlt : ∀ a : UInt32, a.toNat < 2 ^ 32 := toNat_lt
  unfold Timespec.Valid Timespec.value at *
  have hnsec : (x.tvNsec + y.tvNsec).toNat = x.tvNsec.toNat + y.tvNsec.toNat := by
    rw [toNat_add]
    exact Nat.mod_eq_of_lt (by omega)
  have hsec : (x.tvSec + y.tvSec).toNat = x.tvSec.toNat + y.tvSec.toNat := by
    rw [toNat_add]
    exact Nat.mod_eq_of_lt (by omega)
  have hdiv : ((x.tvNsec.toNat + y.tvNsec.toNat : Nat) : Int).tdiv NANOSECONDS_PER_SECOND =
      (x.tvNsec.toNat + y.tvNsec.toNat) / 1000000000 := Int.tdiv_eq_ediv_of_nonneg (by omega)
  have hmod : ((x.tvNsec.toNat + y.tvNsec.toNat : Nat) : Int).tmod NANOSECONDS_PER_SECOND =
      (x.tvNsec.toNat + y.tvNsec.toNat) % 1000000000 := Int.tmod_eq_emod_of_nonneg (by omega)
  refine ⟨_, by
    unfold utilsTimespecAdd
    simp only [word_not_neg, if_false]
    rfl, ?_⟩
  rw [hnsec, hsec, hdiv, hmod]
  have hn : (ofInt (((x.tvNsec.toNat : Int) + y.tvNsec.toNat) % 1000000000)).toNat =
      (x.tvNsec.toNat + y.tvNsec.toNat) % 1000000000 := by
    have := toNat_ofInt_of_lt (n := ((x.tvNsec.toNat : Int) + y.tvNsec.toNat) % 1000000000)
      (by omega) (by omega)
    omega
  have hs : (ofInt ((x.tvSec.toNat + y.tvSec.toNat : Nat) +
      ((x.tvNsec.toNat : Int) + y.tvNsec.toNat) / 1000000000)).toNat =
      x.tvSec.toNat + y.tvSec.toNat + (x.tvNsec.toNat + y.tvNsec.toNat) / 1000000000 := by
    have := toNat_ofInt_of_lt (n := (x.tvSec.toNat + y.tvSec.toNat : Nat) +
      ((x.tvNsec.toNat : Int) + y.tvNsec.toNat) / 1000000000) (by omega) (by omega)
    omega
  rw [hn, hs]
  constructor <;> omega

theorem subtract_later (hy : y.Valid) (hlt : y.value < x.value) (z : Timespec) :
    utilsTimespecSubtract (some x) (some y) (some z) =
      (0, some { tvSec := x.tvSec - y.tvSec, tvNsec := x.tvNsec - y.tvNsec }) := by
  rcases compare_spec hx hy with ⟨h, -⟩ | ⟨rfl, -⟩ | ⟨-, hcmp, -⟩
  · omega
  · omega
  · unfold utilsTimespecSubtract
    dsimp only
    rw [hcmp]
    simp only [word_not_neg, if_false]
    rfl

theorem subtract_earlier (hy : y.Valid) (hlt : x.value < y.value) (z : Timespec) :
    utilsTimespecSubtract (some x) (some y) (some z) = (1, some z) := by
  rcases compare_spec hx hy with ⟨-, hcmp⟩ | ⟨rfl, -⟩ | ⟨h, -⟩
  · unfold utilsTimespecSubtract
    dsimp only
    rw [hcmp]
    rfl
  · omega
  · omega

theorem subtract_same (z : Timespec) :
    utilsTimespecSubtract (some x) (some x) (some z) = (0, some { tvSec := 0, tvNsec := 0 }) := by
  rcases compare_spec hx hx with ⟨h, -⟩ | ⟨-, hcmp⟩ | ⟨h, -⟩
  · omega
  · unfold utilsTimespecSubtract
    dsimp only
    rw [hcmp]
    rfl
  · omega

theorem difference_value (hle : y.value ≤ x.value) (hb : ¬Borrows x y) (hy : y.Valid) :
    (⟨x.tvSec - y.tvSec, x.tvNsec - y.tvNsec⟩ : Timespec).Valid ∧
      (⟨x.tvSec - y.tvSec, x.tvNsec - y.tvNsec⟩ : Timespec).value = x.value - y.value := by
  unfold Borrows at hb
  rw [lt_iff_toNat_lt, lt_iff_toNat_lt] at hb
  unfold Timespec.Valid Timespec.value at *
  have hsec : y.tvSec ≤ x.tvSec := le_iff_toNat_le.mpr (by omega)
  have hnsec : y.tvNsec ≤ x.tvNsec := le_iff_toNat_le.mpr (by omega)
  rw [UInt32.toNat_sub_of_le _ _ hsec, UInt32.toNat_sub_of_le _ _ hnsec]
  constructor <;> omega

theorem difference_not_valid (hy : y.Valid) (hb : Borrows x y) :
    ¬(⟨x.tvSec - y.tvSec, x.tvNsec - y.tvNsec⟩ : Timespec).Valid := by
  obtain ⟨-, hlt⟩ := hb
  have hlt := lt_iff_toNat_lt.mp hlt
  unfold Timespec.Valid at *
  rw [UInt32.toNat_sub]
  omega

theorem value_lt : x.value < 2 ^ 32 * 1000000000 := by
  have hsec := toNat_lt x.tvSec
  unfold Timespec.Valid Timespec.value at *
  omega

end

theorem borrows_lt (hy : y.Valid) (hb : Borrows x y) : y.value < x.value := by
  have hsec := lt_iff_toNat_lt.mp hb.1
  unfold Timespec.Valid Timespec.value at *
  omega

/-- **The subtraction is exact when it does not borrow.** -/
theorem subtract_exact_iff (hx : x.Valid) (hy : y.Valid) : SubtractExact x y ↔ ¬Borrows x y := by
  constructor
  · intro h hb
    obtain ⟨z', hz', hrest⟩ := h ⟨0, 0⟩
    have hlt := borrows_lt hy hb
    rw [subtract_later hx hy hlt, if_neg (by omega)] at hz'
    obtain rfl := Option.some.inj (Prod.mk.inj hz').2
    exact difference_not_valid hx hy hb (hrest (by omega)).1
  · intro hb z
    -- the sum of the difference and `y` is `x`
    have hback : ∀ {z' : Timespec}, z'.Valid → z'.value = x.value - y.value → y.value ≤ x.value →
        ∀ w, utilsTimespecAdd (some z') (some y) (some w) = (0, some x) := by
      intro z' hv hval hle w
      have hfit : z'.value + y.value < 2 ^ 32 * 1000000000 := by
        have := value_lt hx
        omega
      obtain ⟨s, hs, hsv, hsval⟩ := add_exact hv hy hfit w
      rw [hs, value_inj hsv hx (by omega)]
    rcases compare_spec hx hy with ⟨hlt, -⟩ | ⟨rfl, -⟩ | ⟨hlt, -⟩
    · refine ⟨z, ?_, fun hle => absurd hle (by omega)⟩
      rw [subtract_earlier hx hy hlt, if_pos hlt]
    · have hzero : (⟨0, 0⟩ : Timespec).Valid ∧ (⟨0, 0⟩ : Timespec).value = x.value - x.value :=
        ⟨by unfold Timespec.Valid; decide, by rw [Nat.sub_self]; rfl⟩
      refine ⟨⟨0, 0⟩, ?_, fun hle => ⟨hzero.1, hzero.2, hback hzero.1 hzero.2 hle⟩⟩
      rw [subtract_same hx, if_neg (lt_irrefl _)]
    · obtain ⟨hv, hval⟩ := difference_value hx hlt.le hb hy
      refine ⟨_, ?_, fun hle => ⟨hv, hval, hback hv hval hle⟩⟩
      rw [subtract_later hx hy hlt, if_neg (by omega)]

/-- **A number of nanoseconds becomes a time exactly when its seconds are not negative and fit.** -/
theorem totimespec_exact_iff :
    TotimespecExact source ↔ 0 ≤ source ∧ source < 2 ^ 32 * 1000000000 := by
  have heq : utilsNanosecondsTotimespec source =
      { tvSec := ofInt (source.tdiv NANOSECONDS_PER_SECOND)
        tvNsec := ofInt (source.tmod NANOSECONDS_PER_SECOND) } := by
    unfold utilsNanosecondsTotimespec
    simp only [word_not_neg, if_false]
  unfold TotimespecExact
  constructor
  · rintro ⟨hvalid, hval⟩
    have := value_lt hvalid
    omega
  · rintro ⟨h0, hlt⟩
    have hdiv : source.tdiv NANOSECONDS_PER_SECOND = source / 1000000000 :=
      Int.tdiv_eq_ediv_of_nonneg h0
    have hmod : source.tmod NANOSECONDS_PER_SECOND = source % 1000000000 :=
      Int.tmod_eq_emod_of_nonneg h0
    have hsec := toNat_ofInt_of_lt (n := source / 1000000000) (by omega) (by omega)
    have hnsec := toNat_ofInt_of_lt (n := source % 1000000000) (by omega) (by omega)
    rw [heq, hdiv, hmod]
    unfold Timespec.Valid Timespec.value
    dsimp only
    constructor <;> omega

/-! ## Ticks -/

def TickConfig.ticks (c : TickConfig) (tick : Nat) (t : Timespec) : Nat :=
  c.clocksPerSec * t.tvSec.toNat + (t.tvNsec.toNat / tick + if t.tvNsec.toNat % tick ≠ 0 then 1 else 0)

variable {n tick : Nat}

theorem mem_covers (hn : c.nanosecondsPerTick = tick) : n ∈ c.covers v ↔ v ≤ n * tick := by
  show (v : Int) ≤ n * c.nanosecondsPerTick ↔ _
  rw [hn]
  exact_mod_cast Iff.rfl

theorem div_roundUp_le_iff {a : Nat} (hpos : 0 < tick) :
    (a / tick + if a % tick ≠ 0 then 1 else 0) ≤ n ↔ a ≤ n * tick := by
  have hdiv : a = tick * (a / tick) + a % tick := (Nat.div_add_mod a tick).symm
  have hmod : a % tick < tick := Nat.mod_lt a hpos
  generalize a / tick = q at *
  generalize a % tick = r at *
  subst hdiv
  constructor
  · intro hle
    split at hle
    · calc tick * q + r ≤ tick * (q + 1) := by rw [Nat.mul_add_one]; omega
        _ ≤ tick * n := Nat.mul_le_mul_left tick hle
        _ = n * tick := Nat.mul_comm _ _
    · next hr =>
      have hr : r = 0 := not_not.mp hr
      rw [hr, Nat.add_zero, Nat.mul_comm]
      exact Nat.mul_le_mul_right tick hle
  · intro hle
    by_contra hgt
    split at hgt
    · next hr =>
      have hq : n ≤ q := by omega
      have := Nat.mul_le_mul_right tick hq
      have := Nat.pos_of_ne_zero hr
      rw [Nat.mul_comm tick q] at hle
      omega
    · have hq : n + 1 ≤ q := by omega
      have := Nat.mul_le_mul_right tick hq
      rw [Nat.add_one_mul] at this
      rw [Nat.mul_comm tick q] at hle
      omega

/-- **The ticks are the least number that is not shorter.** -/
theorem ticks_isLeast (hn : c.nanosecondsPerTick = tick)
    (hwhole : c.clocksPerSec * tick = 1000000000) :
    IsLeast (c.covers t.value) (c.ticks tick t) := by
  have hpos : 0 < tick := by
    rcases Nat.eq_zero_or_pos tick with rfl | hpos
    · omega
    · exact hpos
  -- whole seconds are whole numbers of ticks, and drop out of the comparison
  have hvalue : t.value = c.clocksPerSec * t.tvSec.toNat * tick + t.tvNsec.toNat := by
    unfold Timespec.value
    rw [Nat.mul_right_comm, hwhole, Nat.mul_comm]
  have hiff : ∀ n, n ∈ c.covers t.value ↔ c.ticks tick t ≤ n := by
    intro n
    rw [mem_covers hn, hvalue]
    unfold TickConfig.ticks
    generalize c.clocksPerSec * t.tvSec.toNat = secs
    rcases Nat.lt_or_ge n secs with hlt | hle
    · have hmul := Nat.mul_lt_mul_of_pos_right hlt hpos
      refine iff_of_false (by omega) fun h => ?_
      exact absurd (Nat.le_of_add_right_le h) (Nat.not_le.mpr hlt)
    · obtain ⟨m, rfl⟩ := Nat.exists_eq_add_of_le hle
      rw [Nat.add_mul, Nat.add_le_add_iff_left, Nat.add_le_add_iff_left]
      exact (div_roundUp_le_iff hpos).symm
  exact ⟨(hiff _).mpr le_rfl, fun n h => (hiff n).mp h⟩

theorem toticks_eq (ht : t.Valid) (hn : c.nanosecondsPerTick = tick)
    (hwhole : c.clocksPerSec * tick = 1000000000) (res : Nat) :
    utilsTimespecToticks c (some t) (some res) =
      (if c.bits = 32 ∧ c.ticks tick t > 4294967295 then EINVAL else 0,
        some (c.ticks tick t % 2 ^ c.bits)) := by
  have hsec := toNat_lt t.tvSec
  have hpos : 0 < tick := by
    rcases Nat.eq_zero_or_pos tick with rfl | hpos
    · omega
    · exact hpos
  have hrate : c.clocksPerSec ≤ 1000000000 := by
    rw [← hwhole]
    exact Nat.le_mul_of_pos_right _ hpos
  -- nothing overflows the 64 bits
  have hsecs : c.clocksPerSec * t.tvSec.toNat ≤ 1000000000 * 4294967295 :=
    Nat.mul_le_mul hrate (by omega)
  have hnano : t.tvNsec.toNat / tick ≤ t.tvNsec.toNat := Nat.div_le_self _ _
  have hint : ∀ n : Nat, n < 2 ^ 63 → int64 n = n := fun n hlt => by
    exact Int.bmod_eq_of_le (by omega) (by omega)
  have hsum : (t.tvNsec.toNat : Int).tdiv c.nanosecondsPerTick +
      (if (t.tvNsec.toNat : Int).tmod c.nanosecondsPerTick ≠ 0 then 1 else 0) =
      (t.tvNsec.toNat / tick + if t.tvNsec.toNat % tick ≠ 0 then 1 else 0 : Nat) := by
    rw [hn, ← Int.ofNat_tdiv, ← Int.ofNat_tmod]
    by_cases hr : t.tvNsec.toNat % tick = 0
    · rw [hr]
      rfl
    · rw [if_pos (by exact_mod_cast hr), if_pos hr]
      rfl
  have htotal : int64 (int64 ((c.clocksPerSec : Int) * t.tvSec.toNat) +
      (t.tvNsec.toNat / tick + if t.tvNsec.toNat % tick ≠ 0 then 1 else 0 : Nat)) =
      (c.ticks tick t : Int) := by
    have hcast : (c.clocksPerSec : Int) * t.tvSec.toNat =
      ((c.clocksPerSec * t.tvSec.toNat : Nat) : Int) := by push_cast; rfl
    rw [hcast, hint _ (by omega), ← Int.natCast_add]
    refine hint _ ?_
    unfold Timespec.Valid at ht
    split <;> omega
  unfold utilsTimespecToticks
  dsimp only
  rw [if_neg (by rw [valid_iff.mpr ht]; exact Bool.noConfusion), hsum, htotal,
    if_neg (Int.not_lt.mpr (Int.natCast_nonneg _))]
  have hcut : ((c.ticks tick t : Int) % 2 ^ c.bits).toNat = c.ticks tick t % 2 ^ c.bits := by
    have hcast : ((c.ticks tick t : Int) % 2 ^ c.bits) =
      ((c.ticks tick t % 2 ^ c.bits : Nat) : Int) := by push_cast; rfl
    rw [hcast, Int.toNat_natCast]
  rw [hcut]
  refine Prod.ext ?_ rfl
  by_cases hbig : c.bits = 32 ∧ c.ticks tick t > 4294967295
  · rw [if_pos hbig, if_pos ⟨hbig.1, by omega⟩]
  · rw [if_neg hbig, if_neg (by omega)]

theorem fits_iff (hn : IsLeast (c.covers v) n) : c.Fits v ↔ n < 2 ^ c.bits := by
  constructor
  · rintro ⟨m, hm, hlt⟩
    exact (hn.2 hm).trans_lt hlt
  · exact fun hlt => ⟨n, hn.1, hlt⟩

/-- **The ticks are exact unless a `tick_type_t` that is not of 32 bits cuts them.** -/
theorem toticks_exact_iff (ht : t.Valid) (hw : c.Whole) (res : Nat) :
    TicksExact c t.value (utilsTimespecToticks c (some t) (some res)) ↔
      c.bits = 32 ∨ c.Fits t.value := by
  obtain ⟨tick, hn, hwhole⟩ := hw
  have hleast := ticks_isLeast (t := t) hn hwhole
  have heinval : EINVAL ≠ 0 := by decide
  rw [toticks_eq ht hn hwhole, fits_iff hleast]
  constructor
  · intro h
    by_contra hno
    obtain ⟨hbits, hlarge⟩ := not_or.mp hno
    refine (h _ hleast).2 (Nat.not_lt.mp hlarge) ?_
    exact if_neg fun hb => hbits hb.1
  · intro hcond n hleast'
    obtain rfl := hleast'.unique hleast
    constructor
    · intro hlt
      rw [Nat.mod_eq_of_lt hlt, if_neg]
      rintro ⟨hbits, hbig⟩
      rw [hbits] at hlt
      omega
    · intro hle
      have hbits := hcond.resolve_right (Nat.not_lt.mpr hle)
      rw [hbits] at hle
      rw [if_pos ⟨hbits, by omega⟩]
      exact heinval

theorem todeltaticks_eq (hx : x.Valid) (hy : y.Valid) (res : Nat) :
    utilsTimespecTodeltaticks c x y (some res) =
      if x.value < y.value then (ETIMEDOUT, some res)
      else utilsTimespecToticks c (some ⟨x.tvSec - y.tvSec, x.tvNsec - y.tvNsec⟩) (some res) := by
  unfold utilsTimespecTodeltaticks
  dsimp only
  rcases lt_trichotomy x.value y.value with hlt | heq | hlt
  · rw [subtract_earlier hx hy hlt, if_pos hlt]
    exact if_pos rfl
  · obtain rfl := value_inj hx hy heq
    rw [subtract_same hx, if_neg (lt_irrefl _), UInt32.sub_self, UInt32.sub_self]
    rw [if_neg (by decide), if_neg (by decide)]
  · rw [subtract_later hx hy hlt, if_neg (by omega : ¬x.value < y.value)]
    dsimp only
    rw [if_neg (by decide), if_neg (by decide)]

/-- **The time that is left is exact unless the subtraction borrows.** With a borrow the result
is an error, as it should be only where the ticks do not fit. -/
theorem todeltaticks_exact_iff (hx : x.Valid) (hy : y.Valid) (hw : c.Whole) :
    DeltaExact c x y ↔ x.value < y.value ∨
      (Borrows x y ∧ ¬c.Fits (x.value - y.value)) ∨
      (¬Borrows x y ∧ (c.bits = 32 ∨ c.Fits (x.value - y.value))) := by
  unfold DeltaExact
  have heq : ∀ res, utilsTimespecTodeltaticks c (some x) (some y) (some res) = _ :=
    fun res => todeltaticks_eq hx hy res
  by_cases hlt : x.value < y.value
  · refine iff_of_true (fun res => ⟨fun _ => ?_, fun hle => absurd hle (by omega)⟩) (.inl hlt)
    rw [heq, if_pos hlt]
    exact (by decide : ETIMEDOUT ≠ 0)
  have hle : y.value ≤ x.value := Nat.not_lt.mp hlt
  simp only [heq, hlt, hle, if_false, false_or, false_implies, true_implies, true_and]
  by_cases hb : Borrows x y
  · simp only [hb, true_and, not_true_eq_false, false_and, or_false]
    -- an invalid difference is refused
    have hinvalid : ∀ res, utilsTimespecToticks c
        (some ⟨x.tvSec - y.tvSec, x.tvNsec - y.tvNsec⟩) (some res) = (EINVAL, some res) := by
      intro res
      have hno := mt valid_iff.mp (difference_not_valid hx hy hb)
      unfold utilsTimespecToticks
      dsimp only
      rw [if_pos (Bool.eq_false_iff.mpr hno)]
    simp only [hinvalid]
    constructor
    · rintro h ⟨m, hm, hfit⟩
      classical
      have hex : ∃ n, n ∈ c.covers (x.value - y.value) := ⟨m, hm⟩
      have hn : IsLeast (c.covers (x.value - y.value)) (Nat.find hex) :=
        ⟨Nat.find_spec hex, fun _ h => Nat.find_min' hex h⟩
      have hlt := (hn.2 hm).trans_lt hfit
      have hres := (h 0 _ hn).1 hlt
      exact absurd (Prod.mk.inj hres).1 (by decide)
    · intro hno res n hn
      refine ⟨fun hlt => absurd ⟨n, hn.1, hlt⟩ hno, fun _ => ?_⟩
      exact (by decide : EINVAL ≠ 0)
  · simp only [hb, false_and, false_or, not_false_eq_true, true_and]
    obtain ⟨hv, hval⟩ := difference_value hx hle hb hy
    rw [← hval]
    constructor
    · exact fun h => (toticks_exact_iff hv hw 0).mp (h 0)
    · exact fun h res => (toticks_exact_iff hv hw res).mpr h

/--
**Times are exact but for a borrow, a negative carry, and ticks of another width.** The
subtraction, and with it the addition, is exact exactly when it does not borrow a second; the
conversion of nanoseconds exactly for those of a time that can be represented; and the two
conversions to ticks give the least number that is not shorter, or an error when it does not fit,
exactly when the type of the ticks has 32 bits or the number fits, and the subtraction does not
borrow.
-/
theorem times_exact_iff (hx : x.Valid) (hy : y.Valid) (hw : c.Whole) :
    (SubtractExact x y ↔ ¬Borrows x y) ∧
    (∀ source, TotimespecExact source ↔ 0 ≤ source ∧ source < 2 ^ 32 * 1000000000) ∧
    (∀ res, TicksExact c x.value (utilsTimespecToticks c (some x) (some res)) ↔
      c.bits = 32 ∨ c.Fits x.value) ∧
    (DeltaExact c x y ↔ x.value < y.value ∨
      (Borrows x y ∧ ¬c.Fits (x.value - y.value)) ∨
      (¬Borrows x y ∧ (c.bits = 32 ∨ c.Fits (x.value - y.value)))) :=
  ⟨subtract_exact_iff hx hy, fun _ => totimespec_exact_iff, toticks_exact_iff hx hw,
    todeltaticks_exact_iff hx hy hw⟩

def millisecondTicks : TickConfig := { clocksPerSec := 1000, bits := 32 }

theorem millisecondTicks_whole : millisecondTicks.Whole := ⟨1000000, rfl, rfl⟩

/-- From 1.0000001 to 2.0000005 seconds. -/
theorem times_exact_second :
    SubtractExact ⟨2, 500⟩ ⟨1, 100⟩ ∧ TotimespecExact 1500000000 ∧
      DeltaExact millisecondTicks ⟨2, 500⟩ ⟨1, 100⟩ := by
  have hx : (⟨2, 500⟩ : Timespec).Valid := by unfold Timespec.Valid; decide
  have hy : (⟨1, 100⟩ : Timespec).Valid := by unfold Timespec.Valid; decide
  have hb : ¬Borrows ⟨2, 500⟩ ⟨1, 100⟩ := by unfold Borrows; decide
  obtain ⟨hsub, htime, -, hdelta⟩ := times_exact_iff hx hy millisecondTicks_whole
  exact ⟨hsub.mpr hb, (htime _).mpr (by decide), hdelta.mpr (.inr (.inr ⟨hb, .inl rfl⟩))⟩

/-- From 1.000000001 to 2 seconds, and a nanosecond before the epoch. -/
theorem times_not_exact :
    ¬SubtractExact ⟨2, 0⟩ ⟨1, 1⟩ ∧
    utilsTimespecSubtract (some ⟨2, 0⟩) (some ⟨1, 1⟩) (some ⟨0, 0⟩) = (0, some ⟨1, 4294967295⟩) ∧
    ¬DeltaExact millisecondTicks ⟨2, 0⟩ ⟨1, 1⟩ ∧
    utilsTimespecTodeltaticks millisecondTicks (some ⟨2, 0⟩) (some ⟨1, 1⟩) (some 0) =
      (EINVAL, some 0) ∧
    ¬TotimespecExact (-1) ∧ utilsNanosecondsTotimespec (-1) = ⟨0, 4294967295⟩ := by
  have hx : (⟨2, 0⟩ : Timespec).Valid := by unfold Timespec.Valid; decide
  have hy : (⟨1, 1⟩ : Timespec).Valid := by unfold Timespec.Valid; decide
  have hb : Borrows ⟨2, 0⟩ ⟨1, 1⟩ := by unfold Borrows; decide
  have hlater : ¬(⟨2, 0⟩ : Timespec).value < (⟨1, 1⟩ : Timespec).value := by
    unfold Timespec.value
    decide
  have hfits : millisecondTicks.Fits
      ((⟨2, 0⟩ : Timespec).value - (⟨1, 1⟩ : Timespec).value) := by
    have htick : millisecondTicks.nanosecondsPerTick = (1000000 : Nat) := rfl
    refine ⟨1000, (mem_covers htick).mpr ?_, by decide⟩
    unfold Timespec.value
    decide
  refine ⟨fun h => (subtract_exact_iff hx hy).mp h hb, by decide +kernel, fun h => ?_,
    by decide +kernel, fun h => ?_, by decide +kernel⟩
  · rcases (todeltaticks_exact_iff hx hy millisecondTicks_whole).mp h with hlt | ⟨-, hno⟩ | ⟨hno, -⟩
    · exact hlater hlt
    · exact hno hfits
    · exact hno hb
  · have := (totimespec_exact_iff.mp h).1
    omega

end Gpmx.Libc
