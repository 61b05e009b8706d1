import Mathlib

/-!
# Bit sets

`gpm/modules/container/atomic_bitset.h`: `bits` bits in words of 32. The bit at `pos` is bit
`pos % 32` of word `pos / 32`. A position is one of the `bits` there are; the code does not look
whether it is.

* `AtomicBitset.test_init` — no bit is set in a new set
* `AtomicBitset.test_set` — a bit changes alone
-/

namespace Gpmx.Container

open BitVec

/-- The type that `DEFINE_ATOMIC_BITSET` defines. -/
structure AtomicBitset (bits : Nat) where
  data : Vector (BitVec 32) ((bits + 31) / 32)

namespace AtomicBitset

variable {bits : Nat}

def arrayIndex (pos : Fin bits) : Fin ((bits + 31) / 32) := ⟨pos / 32, by omega⟩

def elementMask (pos : Nat) : BitVec 32 := 1#32 <<< (pos % 32)

def init (bits : Nat) : AtomicBitset bits := ⟨Vector.replicate _ 0⟩

def test (set : AtomicBitset bits) (pos : Fin bits) : Bool :=
  set.data[arrayIndex pos] &&& elementMask pos != 0

def set (set : AtomicBitset bits) (pos : Fin bits) (val : Bool) : AtomicBitset bits :=
  let word := set.data[arrayIndex pos]
  let word := if val then word ||| elementMask pos else word &&& ~~~elementMask pos
  ⟨set.data.set (arrayIndex pos) word⟩

/-! ## One bit -/

theorem getLsbD_elementMask (pos i : Nat) :
    (elementMask pos).getLsbD i = decide (pos % 32 = i) := by
  have hlt : pos % 32 < 32 := Nat.mod_lt pos (by decide)
  unfold elementMask
  rw [← twoPow_eq, getLsbD_twoPow, decide_eq_true hlt, Bool.true_and]

theorem and_elementMask (word : BitVec 32) (pos : Nat) :
    (word &&& elementMask pos != 0) = word.getLsbD (pos % 32) := by
  have hlt : pos % 32 < 32 := Nat.mod_lt pos (by decide)
  unfold elementMask
  rw [← twoPow_eq, and_twoPow]
  cases word.getLsbD (pos % 32) with
  | false => simp
  | true =>
    have hne : BitVec.twoPow 32 (pos % 32) ≠ 0 := by
      intro h
      have hbit := congrArg (fun w => w.getLsbD (pos % 32)) h
      simp [hlt] at hbit
    simp only [if_true, bne_iff_ne]
    exact hne

theorem test_eq (set : AtomicBitset bits) (pos : Fin bits) :
    set.test pos = set.data[arrayIndex pos].getLsbD (pos % 32) :=
  and_elementMask _ _

theorem pos_eq {p q : Fin bits} (hword : arrayIndex p = arrayIndex q)
    (hbit : (p : Nat) % 32 = q % 32) : p = q := by
  have hdiv : (p : Nat) / 32 = q / 32 := congrArg Fin.val hword
  omega

@[simp] theorem test_init (pos : Fin bits) : (init bits).test pos = false := by
  rw [test_eq]
  simp [init]

def written (s : AtomicBitset bits) (p : Fin bits) (val : Bool) : BitVec 32 :=
  if val then s.data[arrayIndex p] ||| elementMask p
  else s.data[arrayIndex p] &&& ~~~elementMask p

theorem word_set (s : AtomicBitset bits) (p q : Fin bits) (val : Bool) :
    (s.set p val).data[arrayIndex q]
      = if arrayIndex p = arrayIndex q then s.written p val else s.data[arrayIndex q] := by
  show (s.data.set (arrayIndex p) (s.written p val))[(arrayIndex q).val] = _
  rw [Vector.getElem_set]
  simp [Fin.ext_iff]

/-- **A bit changes alone.** -/
theorem test_set (s : AtomicBitset bits) (p q : Fin bits) (val : Bool) :
    (s.set p val).test q = if q = p then val else s.test q := by
  rw [test_eq, test_eq, word_set]
  by_cases hword : arrayIndex p = arrayIndex q
  · rw [if_pos hword]
    have hlt : (q : Nat) % 32 < 32 := Nat.mod_lt _ (by decide)
    have hsame : (p : Nat) % 32 = q % 32 ↔ q = p :=
      ⟨fun h => (pos_eq hword h).symm, fun h => by rw [h]⟩
    cases val with
    | true =>
      simp only [written, hword, if_true, getLsbD_or, getLsbD_elementMask, hsame]
      by_cases h : q = p <;> simp [h]
    | false =>
      simp only [written, hword, Bool.false_eq_true, if_false, getLsbD_and,
        getLsbD_not, getLsbD_elementMask, hsame, hlt, decide_true, Bool.true_and]
      by_cases h : q = p <;> simp [h]
  · have hne : q ≠ p := by
      rintro rfl
      exact hword rfl
    rw [if_neg hword, if_neg hne]

end AtomicBitset

end Gpmx.Container
