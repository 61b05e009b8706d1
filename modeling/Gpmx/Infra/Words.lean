import Mathlib

/-!
# Words in a memory with 32-bit addresses

Bytes at 32-bit addresses, little-endian half-words and words, and stores that can be looked at before
they are made.

* `load16`, `load32` — the half-word and the word at an address
* `Store` — bytes that are stored from an address on, with `half` and `word`
* `Store.run` — the memory after some stores
-/

namespace Gpmx.Infra

open BitVec

abbrev ByteMem := BitVec 32 → BitVec 8

/-- The half-word at `a`. -/
def load16 (m : ByteMem) (a : BitVec 32) : BitVec 16 := m (a + 1) ++ m a

/-- The word at `a`. -/
def load32 (m : ByteMem) (a : BitVec 32) : BitVec 32 := load16 m (a + 2) ++ load16 m a

structure Store where
  addr : BitVec 32
  bytes : List (BitVec 8)

namespace Store

/-- The half-word `v` at `a`. -/
def half (a : BitVec 32) (v : BitVec 16) : Store := ⟨a, [v.extractLsb' 0 8, v.extractLsb' 8 8]⟩

/-- The word `v` at `a`. -/
def word (a : BitVec 32) (v : BitVec 32) : Store :=
  ⟨a, [v.extractLsb' 0 8, v.extractLsb' 8 8, v.extractLsb' 16 8, v.extractLsb' 24 8]⟩

def apply (m : ByteMem) (s : Store) : ByteMem := fun x => (s.bytes[(x - s.addr).toNat]?).getD (m x)

def Writes (s : Store) (x : BitVec 32) : Prop := (x - s.addr).toNat < s.bytes.length

def run (m : ByteMem) (stores : List Store) : ByteMem := stores.foldl apply m

end Store

variable {m : ByteMem} {a b : BitVec 32}

variable {s : Store} {x : BitVec 32}

theorem Store.apply_of_not_writes (h : ¬ s.Writes x) : s.apply m x = m x := by
  unfold Store.apply
  rw [List.getElem?_eq_none (Nat.le_of_not_lt h)]
  rfl

theorem Store.run_of_not_writes {stores : List Store} (h : ∀ s ∈ stores, ¬ s.Writes x) :
    run m stores x = m x := by
  induction stores generalizing m with
  | nil => rfl
  | cons s rest ih =>
    obtain ⟨hs, hrest⟩ := List.forall_mem_cons.mp h
    exact (ih hrest).trans (apply_of_not_writes hs)

theorem Store.run_append (stores rest : List Store) : run m (stores ++ rest) = run (run m stores) rest :=
  List.foldl_append

theorem Store.apply_add {i : Nat} (hi : i < s.bytes.length) (hi' : i < 2 ^ 32) :
    s.apply m (s.addr + BitVec.ofNat 32 i) = s.bytes[i] := by
  have hdist : (s.addr + BitVec.ofNat 32 i - s.addr).toNat = i := by bv_omega
  unfold Store.apply
  rw [hdist, List.getElem?_eq_getElem hi]
  rfl

theorem Store.apply_addr (h : 0 < s.bytes.length) : s.apply m s.addr = s.bytes[0] := by
  have hzero := Store.apply_add (m := m) h (by decide)
  rwa [BitVec.add_zero] at hzero

theorem Store.within_iff_le {n : Nat} (h : n < 2 ^ 32) :
    s.bytes = [] ∨ (s.addr - b).toNat + s.bytes.length ≤ n ↔
      ∀ x, s.Writes x → (x - b).toNat < n := by
  unfold Store.Writes
  constructor
  · rintro (hnil | hle) x hx
    · rw [hnil] at hx
      exact absurd hx (Nat.not_lt_zero _)
    · bv_omega
  · intro hall
    by_cases hnil : s.bytes = []
    · exact .inl hnil
    refine .inr (Nat.le_of_not_lt fun hlt => ?_)
    have hpos := List.length_pos_iff.mpr hnil
    -- the byte at the distance `n`
    have hfirst := hall s.addr (by bv_omega)
    have hout := hall (b + BitVec.ofNat 32 n) (by bv_omega)
    bv_omega

theorem load16_half (v : BitVec 16) : load16 ((Store.half a v).apply m) a = v := by
  have h0 : (Store.half a v).apply m a = v.extractLsb' 0 8 :=
    Store.apply_addr (s := Store.half a v) (show 0 < 2 by decide)
  have h1 : (Store.half a v).apply m (a + 1) = v.extractLsb' 8 8 :=
    Store.apply_add (s := Store.half a v) (i := 1) (show 1 < 2 by decide) (by decide)
  unfold load16
  rw [h0, h1]
  exact extractLsb'_append_extractLsb'

theorem load16_word (v : BitVec 32) : load16 ((Store.word a v).apply m) a = v.extractLsb' 0 16 ∧
    load16 ((Store.word a v).apply m) (a + 2) = v.extractLsb' 16 16 := by
  have h0 : (Store.word a v).apply m a = v.extractLsb' 0 8 :=
    Store.apply_addr (s := Store.word a v) (show 0 < 4 by decide)
  have h1 : (Store.word a v).apply m (a + 1) = v.extractLsb' 8 8 :=
    Store.apply_add (s := Store.word a v) (i := 1) (show 1 < 4 by decide) (by decide)
  have h2 : (Store.word a v).apply m (a + 2) = v.extractLsb' 16 8 :=
    Store.apply_add (s := Store.word a v) (i := 2) (show 2 < 4 by decide) (by decide)
  have h3 : (Store.word a v).apply m (a + 3) = v.extractLsb' 24 8 :=
    Store.apply_add (s := Store.word a v) (i := 3) (show 3 < 4 by decide) (by decide)
  unfold load16
  rw [h0, h1, BitVec.add_assoc, show (2 : BitVec 32) + 1 = 3 from rfl, h2, h3]
  exact ⟨extractLsb'_append_extractLsb'_eq_extractLsb' rfl,
    extractLsb'_append_extractLsb'_eq_extractLsb' rfl⟩

theorem load32_word (v : BitVec 32) : load32 ((Store.word a v).apply m) a = v := by
  unfold load32
  rw [(load16_word v).1, (load16_word v).2]
  exact extractLsb'_append_extractLsb'

theorem load16_of_not_writes (h0 : ¬ s.Writes a) (h1 : ¬ s.Writes (a + 1)) :
    load16 (s.apply m) a = load16 m a := by
  unfold load16
  rw [Store.apply_of_not_writes h0, Store.apply_of_not_writes h1]

theorem extract_load32 : (load32 m a).extractLsb' 0 16 = load16 m a ∧
    (load32 m a).extractLsb' 16 16 = load16 m (a + 2) := by
  exact ⟨extractLsb'_append_eq_right, extractLsb'_append_eq_left⟩

theorem load16_inj {m' : ByteMem} (h : load16 m' a = load16 m a) : m' a = m a ∧ m' (a + 1) = m (a + 1) := by
  have hlow := congrArg (BitVec.extractLsb' 0 8) h
  have hhigh := congrArg (BitVec.extractLsb' 8 8) h
  unfold load16 at hlow hhigh
  rw [extractLsb'_append_eq_right, extractLsb'_append_eq_right] at hlow
  rw [extractLsb'_append_eq_left, extractLsb'_append_eq_left] at hhigh
  exact ⟨hlow, hhigh⟩

end Gpmx.Infra
