import Gpmx.Infra.Memory

/-!
# Rings

A ring of `size` cells with a read index `rd`. Either the values in it are counted, or there is a write
index `wr` as well. Then equal indices mean empty, so the ring never fills its last cell and holds at most
`size - 1` values.

* `next` — the index after another one
* `slot` — the index `k` places after another one
* `held` — the number of values between the two indices
* `contents` — the values from the read index on, oldest first

`contents_put` and `contents_take` are the two facts that a queue with a count needs, and `contents_push`
and `contents_pop` those of one with two indices.
-/

namespace Gpmx.Infra.Ring

open List

variable {β : Type} {size rd wr : Nat}

/-- The index after `i`. -/
def next (size i : Nat) : Nat := if i + 1 ≥ size then 0 else i + 1

/-- The index `k` places after `rd`, for `k ≤ size`. -/
def slot (size rd k : Nat) : Nat := if rd + k < size then rd + k else rd + k - size

/-- How many cells lie from `rd` up to `wr`. -/
def held (size rd wr : Nat) : Nat := if wr < rd then size - rd + wr else wr - rd

/-- The `n` values from `rd` on. -/
def contents (m : Memory β) (size rd n : Nat) : List β :=
  (List.range n).map fun k => m (slot size rd k)

@[simp] theorem length_contents (m : Memory β) (n : Nat) :
    (contents m size rd n).length = n := by
  simp [contents]

theorem next_lt (h : wr < size) : next size wr < size := by
  unfold next
  split <;> omega

theorem held_lt (hrd : rd < size) (hwr : wr < size) : held size rd wr < size := by
  unfold held
  split <;> omega

theorem slot_held (hrd : rd < size) (hwr : wr < size) : slot size rd (held size rd wr) = wr := by
  unfold slot held
  split <;> split <;> omega

theorem slot_next (hrd : rd < size) {k : Nat} (hk : k + 1 < size) :
    slot size (next size rd) k = slot size rd (k + 1) := by
  unfold slot next
  split <;> split <;> split <;> omega

theorem slot_injective {j k : Nat} (hj : j < size) (hk : k < size)
    (h : slot size rd j = slot size rd k) : j = k := by
  unfold slot at h
  split at h <;> split at h <;> omega

/-! ## Values that are counted -/

theorem slot_succ (hrd : rd < size) {n : Nat} (hn : n < size) :
    slot size rd (n + 1) = next size (slot size rd n) := by
  unfold slot next
  split <;> split <;> split <;> omega

theorem contents_put (m : Memory β) (b : β) {n : Nat} (hn : n < size) :
    contents (m.write (slot size rd n) [b]) size rd (n + 1) = contents m size rd n ++ [b] := by
  rw [contents, range_succ, map_append]
  congr 1
  · refine map_congr_left fun k hk => ?_
    have hk : k < n := mem_range.mp hk
    have hne : slot size rd k ≠ slot size rd n := by
      intro he
      have := slot_injective (show k < size by omega) hn he
      omega
    exact Memory.write_of_not_mem (by simp; omega)
  · simp only [map_cons, map_nil]
    rw [Memory.write_of_mem (Nat.le_refl _) (by simp)]
    simp

theorem contents_take (m : Memory β) (hrd : rd < size) {n : Nat} (hn : n < size) :
    contents m size rd (n + 1) = m rd :: contents m size (next size rd) n := by
  rw [contents, range_succ_eq_map, map_cons, map_map]
  congr 1
  · simp [slot, hrd]
  · refine map_congr_left fun k hk => ?_
    have hk : k < n := mem_range.mp hk
    simp [slot_next hrd (show k + 1 < size by omega)]

/-! ## One value in -/

theorem next_eq_iff (hrd : rd < size) (hwr : wr < size) :
    next size wr = rd ↔ held size rd wr = size - 1 := by
  unfold next held
  constructor <;>
  · intro h
    split at h <;> split <;> omega

theorem held_next (hrd : rd < size) (hwr : wr < size) (h : next size wr ≠ rd) :
    held size rd (next size wr) = held size rd wr + 1 := by
  unfold next held at *
  split at h <;> split <;> split <;> split <;> omega

theorem contents_push (m : Memory β) (b : β) (hrd : rd < size) (hwr : wr < size)
    (h : next size wr ≠ rd) :
    contents (m.write wr [b]) size rd (held size rd (next size wr))
      = contents m size rd (held size rd wr) ++ [b] := by
  have hput := @contents_put β size rd m b (held size rd wr) (held_lt hrd hwr)
  rw [slot_held hrd hwr] at hput
  rw [held_next hrd hwr h, hput]

/-! ## One value out -/

theorem held_next_rd (hrd : rd < size) (hwr : wr < size) (h : wr ≠ rd) :
    held size (next size rd) wr + 1 = held size rd wr := by
  unfold next held
  split <;> split <;> split <;> omega

theorem contents_pop (m : Memory β) (hrd : rd < size) (hwr : wr < size) (h : wr ≠ rd) :
    contents m size rd (held size rd wr)
      = m rd :: contents m size (next size rd) (held size (next size rd) wr) := by
  have hlt := held_lt hrd hwr
  rw [← held_next_rd hrd hwr h] at hlt ⊢
  exact contents_take m hrd (by omega)

end Gpmx.Infra.Ring
