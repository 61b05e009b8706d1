import Mathlib

/-!
# Addressed memory

A memory is a total map from addresses to values. Block devices, sector buffers and
flash arrays are all read and written in runs of consecutive cells, so the two
operations here work on runs.

* `read m a n` — the `n` cells from `a` on
* `write m a bs` — the memory with `bs` stored from `a` on
* `Holds m a bs` — the memory has `bs` from `a` on

Everything a proof needs is said pointwise (`write_of_lt`, `write_of_mem`, `write_of_ge`)
or as an equation between runs (`read_append`, `write_append`).
-/

namespace Gpmx.Infra

open List

abbrev Memory (β : Type) := Nat → β

namespace Memory

variable {β : Type}

/-- The `n` cells from address `a` on. -/
def read (m : Memory β) (a : Nat) : Nat → List β
  | 0 => []
  | n + 1 => m a :: read m (a + 1) n

/-- The memory with the list `bs` stored from address `a` on. -/
def write (m : Memory β) (a : Nat) (bs : List β) : Memory β :=
  fun i => if a ≤ i then (bs[i - a]?).getD (m i) else m i

/-! ## Pointwise -/

variable {m : Memory β} {a i : Nat} {bs : List β} {m' : Memory β} {n : Nat} {xs : List β}

theorem write_of_lt (h : i < a) : write m a bs i = m i := by
  unfold write
  rw [if_neg (by omega)]

theorem write_of_ge (h : a + bs.length ≤ i) : write m a bs i = m i := by
  unfold write
  split
  · rw [getElem?_eq_none (by omega)]
    rfl
  · rfl

theorem write_of_not_mem (h : i < a ∨ a + bs.length ≤ i) : write m a bs i = m i := by
  rcases h with h | h
  · exact write_of_lt h
  · exact write_of_ge h

theorem write_of_mem (h1 : a ≤ i) (h2 : i - a < bs.length) : write m a bs i = bs[i - a] := by
  unfold write
  rw [if_pos h1, getElem?_eq_getElem h2]
  rfl

theorem write_congr_of_mem (h1 : a ≤ i) (h2 : i < a + bs.length) :
    write m a bs i = write m' a bs i := by
  rw [write_of_mem h1 (by omega), write_of_mem h1 (by omega)]

@[simp] theorem write_nil (m : Memory β) (a : Nat) : write m a [] = m := by
  funext i
  exact write_of_not_mem (by simp; omega)

theorem write_shift {c : Nat} (a : Nat) (bs : List β) (h : m i = m' (c + i)) :
    write m a bs i = write m' (c + a) bs (c + i) := by
  by_cases h1 : a ≤ i ∧ i < a + bs.length
  · rw [write_of_mem h1.1 (by omega), write_of_mem (by omega) (by omega)]
    congr 1
    omega
  · rw [write_of_not_mem (by omega), write_of_not_mem (by omega), h]

/-! ## Runs -/

@[simp] theorem length_read (m : Memory β) (n : Nat) : ∀ a, (read m a n).length = n := by
  induction n with
  | zero => intro a; rfl
  | succ n ih => intro a; simp [read, ih]

theorem getElem?_read (m : Memory β) (n : Nat) : ∀ (a i : Nat), i < n →
    (read m a n)[i]? = some (m (a + i)) := by
  induction n with
  | zero => intro a i h; omega
  | succ n ih =>
    intro a i h
    cases i with
    | zero => simp [read]
    | succ i =>
      rw [read, getElem?_cons_succ, ih (a + 1) i (by omega)]
      rw [show a + 1 + i = a + (i + 1) by omega]

theorem getElem_read (m : Memory β) (h : i < (read m a n).length) :
    (read m a n)[i] = m (a + i) := by
  have h' : i < n := by simpa using h
  have := getElem?_read m n a i h'
  rw [getElem?_eq_getElem h] at this
  exact Option.some.inj this

theorem read_congr (h : ∀ i, a ≤ i → i < a + n → m i = m' i) : read m a n = read m' a n := by
  apply ext_getElem?
  intro i
  by_cases hi : i < n
  · rw [getElem?_read m n a i hi, getElem?_read m' n a i hi, h (a + i) (by omega) (by omega)]
  · rw [getElem?_eq_none (by simp; omega), getElem?_eq_none (by simp; omega)]

theorem read_shift {b : Nat} (h : ∀ i, i < n → m (a + i) = m' (b + i)) :
    read m a n = read m' b n := by
  apply ext_getElem?
  intro i
  by_cases hi : i < n
  · rw [getElem?_read m n a i hi, getElem?_read m' n b i hi, h i hi]
  · rw [getElem?_eq_none (by simp; omega), getElem?_eq_none (by simp; omega)]

theorem read_append (m : Memory β) (n : Nat) : ∀ (a k : Nat),
    read m a (n + k) = read m a n ++ read m (a + n) k := by
  induction n with
  | zero => intro a k; simp [read]
  | succ n ih =>
    intro a k
    rw [show n + 1 + k = (n + k) + 1 by omega, read, ih (a + 1) k, read, cons_append]
    rw [show a + 1 + n = a + (n + 1) by omega]

theorem write_append (m : Memory β) (a : Nat) (xs ys : List β) :
    write m a (xs ++ ys) = write (write m a xs) (a + xs.length) ys := by
  funext i
  by_cases h1 : i < a
  · rw [write_of_lt h1, write_of_lt (by omega), write_of_lt h1]
  by_cases h2 : i < a + xs.length
  · rw [write_of_mem (by omega) (by simp; omega), write_of_lt h2, write_of_mem (by omega) (by omega)]
    exact getElem_append_left (by omega)
  by_cases h3 : i < a + xs.length + ys.length
  · rw [write_of_mem (by omega) (by simp; omega), write_of_mem (by omega) (by omega),
      getElem_append_right (by omega)]
    congr 1
    omega
  · rw [write_of_ge (by simp; omega), write_of_ge (by omega), write_of_ge (by omega)]

theorem write_take_drop (m : Memory β) (a : Nat) {k : Nat} (h : k ≤ bs.length) :
    write m a bs = write (write m a (bs.take k)) (a + k) (bs.drop k) := by
  conv => lhs; rw [← take_append_drop k bs]
  rw [write_append, length_take_of_le h]

@[simp] theorem read_write_self (m : Memory β) (a : Nat) (bs : List β) :
    read (write m a bs) a bs.length = bs := by
  apply ext_getElem?
  intro i
  by_cases hi : i < bs.length
  · rw [getElem?_read _ _ _ _ hi, write_of_mem (by omega) (by omega), getElem?_eq_getElem hi]
    simp
  · rw [getElem?_eq_none (by simp; omega), getElem?_eq_none (by omega)]

/-- The memory has `bs` from address `a` on. -/
def Holds (m : Memory β) (a : Nat) (bs : List β) : Prop := read m a bs.length = bs

theorem holds_append {ys : List β} :
    Holds m a (xs ++ ys) ↔ Holds m a xs ∧ Holds m (a + xs.length) ys := by
  unfold Holds
  rw [length_append, read_append]
  constructor
  · intro h
    exact append_inj h (by simp)
  · rintro ⟨hx, hy⟩
    rw [hx, hy]

theorem holds_cons {x : β} : Holds m a (x :: xs) ↔ m a = x ∧ Holds m (a + 1) xs := by
  unfold Holds
  simp [read]

theorem holds_write_self (m : Memory β) (a : Nat) (bs : List β) : Holds (write m a bs) a bs :=
  read_write_self m a bs

theorem take_drop_read (m : Memory β) {k : Nat} (h : i + k ≤ n) :
    ((read m a n).drop i).take k = read m (a + i) k := by
  obtain ⟨r, rfl⟩ := Nat.exists_eq_add_of_le h
  rw [Nat.add_assoc, read_append, drop_left' (length_read m i a), read_append,
    take_left' (length_read m k (a + i))]

theorem write_read_self (m : Memory β) (a n : Nat) : write m a (read m a n) = m := by
  funext i
  by_cases hi : a ≤ i ∧ i < a + n
  · rw [write_of_mem hi.1 (by simp; omega), getElem_read]
    congr 1
    omega
  · exact write_of_not_mem (by simp; omega)

theorem write_write_of_length_le (m : Memory β) (a : Nat) {ys : List β} (h : xs.length ≤ ys.length) :
    write (write m a xs) a ys = write m a ys := by
  funext i
  by_cases hi : a ≤ i ∧ i < a + ys.length
  · exact write_congr_of_mem hi.1 hi.2
  · rw [write_of_not_mem (by omega), write_of_not_mem (by omega), write_of_not_mem (by omega)]

theorem write_read_patch (m b : Memory β) {off : Nat} (h : off + bs.length ≤ n) :
    write m a (read (write (write b 0 (read m a n)) off bs) 0 n) = write m (a + off) bs := by
  funext i
  by_cases hi : a ≤ i ∧ i < a + n
  · rw [write_of_mem hi.1 (by simp; omega), getElem_read, Nat.zero_add]
    by_cases hp : off ≤ i - a ∧ i - a < off + bs.length
    · rw [write_of_mem hp.1 (by omega), write_of_mem (by omega) (by omega)]
      congr 1
      omega
    · rw [write_of_not_mem (by omega), write_of_mem (by omega) (by simp; omega), getElem_read,
        write_of_not_mem (by omega)]
      congr 1
      omega
  · rw [write_of_not_mem (by simp; omega), write_of_not_mem (by omega)]

end Memory

end Gpmx.Infra
