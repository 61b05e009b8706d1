import Gpmx.Dloader.Arch
import Mathlib

/-!
# What a relocation makes of an instruction

The operands of the instructions that `dl_relocate` patches, read from their bits, and what the
relocation is to make of them. Of all types only `R_ARM_THM_CALL` and `R_ARM_THM_JUMP24` go wrong: their
second half-word is stored eight bytes behind the first one (`relocates_iff`).
-/

namespace Gpmx.Dloader

open Infra
open BitVec (eq_of_getLsbD_eq getLsbD_and getLsbD_append getLsbD_extractLsb' getLsbD_not getLsbD_or
  getLsbD_setWidth getLsbD_shiftLeft getLsbD_signExtend getLsbD_sshiftRight getLsbD_ushiftRight getLsbD_xor
  msb_eq_getLsbD_last toInt_eq_toNat_cond twoPow)

variable {handle : DlHandler} {m m' : ByteMem} {rel : Elf32Rel} {p s : BitVec 32}

/-! ## Operands -/

/-- The offset of an ARM branch: `SignExtend(imm24:'00')`. -/
def branchOffset (w : BitVec 32) : BitVec 32 := (w.extractLsb' 0 24 ++ 0#2).signExtend 32

/-- The offset of a Thumb branch: `SignExtend(S:I1:I2:imm10:imm11:'0')`, where `I1 = NOT(J1 EOR S)` and
`I2 = NOT(J2 EOR S)`. -/
def thumbOffset (upper lower : BitVec 16) : BitVec 32 :=
  let sign := upper.extractLsb' 10 1
  (sign ++ ~~~(lower.extractLsb' 13 1 ^^^ sign) ++ ~~~(lower.extractLsb' 11 1 ^^^ sign) ++
    upper.extractLsb' 0 10 ++ lower.extractLsb' 0 11 ++ 0#1).signExtend 32

/-- The operand of a Thumb `MOVW` or `MOVT`: `imm4:i:imm3:imm8`. -/
def imm16 (upper lower : BitVec 16) : BitVec 16 :=
  upper.extractLsb' 0 4 ++ upper.extractLsb' 10 1 ++ lower.extractLsb' 12 3 ++ lower.extractLsb' 0 8

def branchRest (w : BitVec 32) : BitVec 8 := w.extractLsb' 24 8

def thumbRest (upper lower : BitVec 16) : BitVec 8 :=
  upper.extractLsb' 11 5 ++ lower.extractLsb' 14 2 ++ lower.extractLsb' 12 1

/-- The bits of a Thumb `MOVW` or `MOVT` beside its operand: the opcode and the register. -/
def movRest (upper lower : BitVec 16) : BitVec 16 :=
  upper.extractLsb' 11 5 ++ upper.extractLsb' 4 6 ++ lower.extractLsb' 15 1 ++ lower.extractLsb' 8 4

/-- What a relocation of the word at `p` with the symbol at `s` is to do to the instruction. A Thumb
branch goes to a Thumb address, whose lowest bit is no part of the offset. -/
def Patched (m m' : ByteMem) (p s : BitVec 32) : RelType → Prop
  | .none => load32 m' p = load32 m p
  | .abs32 => load32 m' p = s + load32 m p
  | .rel32 => load32 m' p = s + load32 m p - p
  | .pc24 | .plt32 | .call | .jump24 =>
    branchRest (load32 m' p) = branchRest (load32 m p) ∧
      ((∃ w, branchOffset w = s + branchOffset (load32 m p) - p) →
        branchOffset (load32 m' p) = s + branchOffset (load32 m p) - p)
  | .v4bx =>
    (load32 m' p).extractLsb' 28 4 = (load32 m p).extractLsb' 28 4 ∧
      (load32 m' p).extractLsb' 4 24 = 0x1a0f00 ∧
      (load32 m' p).extractLsb' 0 4 = (load32 m p).extractLsb' 0 4
  | .globDat | .jumpSlot => load32 m' p = s
  | .relative => load32 m' p = s + load32 m p
  | .thmCall | .thmJump24 =>
    thumbRest (load16 m' p) (load16 m' (p + 2)) = thumbRest (load16 m p) (load16 m (p + 2)) ∧
      thumbOffset (load16 m' p) (load16 m' (p + 2)) =
        (s + thumbOffset (load16 m p) (load16 m (p + 2)) - p) &&& ~~~1
  | .thmMovwAbsNc =>
    movRest (load16 m' p) (load16 m' (p + 2)) = movRest (load16 m p) (load16 m (p + 2)) ∧
      imm16 (load16 m' p) (load16 m' (p + 2)) = s.extractLsb' 0 16
  | .thmMovtAbs =>
    movRest (load16 m' p) (load16 m' (p + 2)) = movRest (load16 m p) (load16 m (p + 2)) ∧
      imm16 (load16 m' p) (load16 m' (p + 2)) = s.extractLsb' 16 16
  | .unsupported => False

/-- Only the four bytes at `p` change, and the instruction there is patched. -/
structure Patches (m m' : ByteMem) (p s : BitVec 32) (type : RelType) : Prop where
  outside : ∀ x, 4 ≤ (x - p).toNat → m' x = m x
  instruction : Patched m m' p s type

def Relocates (handle : DlHandler) (m : ByteMem) (rel : Elf32Rel) (s : BitVec 32) : Prop :=
  (dlRelocate handle m rel s).1 = .noErr →
    Patches m (Store.run m (dlRelocate handle m rel s).2) (place handle rel) s (elf32RType rel.rInfo)

def InRange (x : BitVec 32) : Prop := x.getLsbD 0 ∧ -0x01000000 < x.toInt ∧ x.toInt < 0x01000000

structure SameLower (x y : BitVec 32) : Prop where
  imm11 : x.extractLsb' 1 11 = y.extractLsb' 1 11
  j1 : (x.getLsbD 24 ^^ x.getLsbD 23) = (y.getLsbD 24 ^^ y.getLsbD 23)
  j2 : (x.getLsbD 24 ^^ x.getLsbD 22) = (y.getLsbD 24 ^^ y.getLsbD 22)

/-- A Thumb branch whose second half-word need not be stored at `p + 2`, nor is changed at `p + 8`. -/
def ThumbLuck (m : ByteMem) (p s : BitVec 32) : Prop :=
  InRange (s + thumbOffset (load16 m p) (load16 m (p + 2)) - p) →
    load16 m (p + 8) = load16 m (p + 2) ∧
      SameLower (s + thumbOffset (load16 m p) (load16 m (p + 2)) - p)
        (thumbOffset (load16 m p) (load16 m (p + 2)))

/-! ## ARM branches -/

variable {x : BitVec 32}

theorem and_twoPow_ne_zero {i : Nat} (hi : i < 32) :
    x &&& twoPow 32 i ≠ 0 ↔ x.getLsbD i = true := by
  rw [BitVec.and_twoPow]
  split_ifs with h
  · refine iff_of_true (fun hzero => ?_) h
    have hbit := congrArg (BitVec.getLsbD · i) hzero
    simp [hi] at hbit
  · exact iff_of_false (fun hne => hne rfl) h

theorem relocateBranch_rest (w p s : BitVec 32) : branchRest (relocateBranch w p s) = branchRest w := by
  unfold branchRest relocateBranch
  apply eq_of_getLsbD_eq
  intro i hi
  simp only [getLsbD_extractLsb', getLsbD_or, getLsbD_and]
  interval_cases i <;> simp

theorem addend_eq (w : BitVec 32) :
    (if w &&& 0x00ffffff &&& 0x00800000 ≠ 0 then w &&& 0x00ffffff ||| 0xff000000
      else w &&& 0x00ffffff) <<< 2 = branchOffset w := by
  have htest := and_twoPow_ne_zero (x := w &&& 0x00ffffff) (i := 23) (by decide)
  rw [show twoPow 32 23 = 0x00800000 from rfl] at htest
  unfold branchOffset
  apply eq_of_getLsbD_eq
  intro i hi
  by_cases hsign : w.getLsbD 23
  · rw [if_pos (htest.mpr (by simpa using hsign))]
    simp only [getLsbD_signExtend, msb_eq_getLsbD_last, getLsbD_append,
      getLsbD_extractLsb', getLsbD_or, getLsbD_and, getLsbD_shiftLeft]
    interval_cases i <;> simp_all
  · rw [if_neg (fun h => hsign (by simpa using htest.mp h))]
    simp only [getLsbD_signExtend, msb_eq_getLsbD_last, getLsbD_append,
      getLsbD_extractLsb', getLsbD_and, getLsbD_shiftLeft]
    interval_cases i <;> simp_all

theorem relocateBranch_imm (w p s : BitVec 32) : (relocateBranch w p s).extractLsb' 0 24 =
    (s + branchOffset w - p).extractLsb' 2 24 := by
  unfold relocateBranch
  dsimp only
  rw [addend_eq, show s - p + branchOffset w = s + branchOffset w - p by bv_omega]
  apply eq_of_getLsbD_eq
  intro i hi
  simp only [getLsbD_extractLsb', getLsbD_or, getLsbD_and,
    getLsbD_ushiftRight]
  interval_cases i <;> simp

theorem branchOffset_imm (w : BitVec 32) : (branchOffset w).extractLsb' 2 24 = w.extractLsb' 0 24 := by
  unfold branchOffset
  apply eq_of_getLsbD_eq
  intro i hi
  simp only [getLsbD_signExtend, getLsbD_append, getLsbD_extractLsb']
  interval_cases i <;> simp

theorem relocateBranch_offset {w p s : BitVec 32} (h : ∃ v, branchOffset v = s + branchOffset w - p) :
    branchOffset (relocateBranch w p s) = s + branchOffset w - p := by
  obtain ⟨v, hv⟩ := h
  have himm : (relocateBranch w p s).extractLsb' 0 24 = v.extractLsb' 0 24 := by
    rw [relocateBranch_imm, ← hv, branchOffset_imm]
  rw [← hv]
  unfold branchOffset
  rw [himm]

/-! ## Thumb branches -/

theorem signed_eq (h : ∀ i, 25 ≤ i → i < 32 → x.getLsbD i = false) :
    (if x &&& 0x01000000 ≠ 0 then x - 0x02000000 else x) = (x.setWidth 25).signExtend 32 := by
  have htest := and_twoPow_ne_zero (x := x) (i := 24) (by decide)
  rw [show twoPow 32 24 = 0x01000000 from rfl] at htest
  have hmsb : (x.setWidth 25).msb = x.getLsbD 24 := by
    rw [msb_eq_getLsbD_last, getLsbD_setWidth]
    rfl
  by_cases hsign : x.getLsbD 24
  · have hdisjoint : x &&& 0xfe000000 = 0 := by
      apply eq_of_getLsbD_eq
      intro i hi
      have := fun hi' => h i hi' hi
      rw [getLsbD_and]
      interval_cases i <;> simp_all
    rw [if_pos (htest.mpr hsign), show x - 0x02000000 = x + 0xfe000000 by bv_omega,
      BitVec.add_eq_or_of_and_eq_zero _ _ hdisjoint]
    apply eq_of_getLsbD_eq
    intro i hi
    rw [getLsbD_or, getLsbD_signExtend, getLsbD_setWidth, hmsb]
    interval_cases i <;> simp_all
  · rw [if_neg fun hne => hsign (htest.mp hne)]
    apply eq_of_getLsbD_eq
    intro i hi
    have := fun hi' => h i hi' hi
    rw [getLsbD_signExtend, getLsbD_setWidth, hmsb]
    interval_cases i <;> simp_all

theorem thmOffset_eq (upper lower : BitVec 16) :
    thmOffset (upper.setWidth 32) (lower.setWidth 32) = thumbOffset upper lower := by
  unfold thmOffset
  rw [signed_eq]
  · unfold thumbOffset
    apply eq_of_getLsbD_eq
    intro i hi
    simp only [getLsbD_signExtend, msb_eq_getLsbD_last, getLsbD_append,
      getLsbD_extractLsb', getLsbD_or, getLsbD_and, getLsbD_xor,
      getLsbD_not, getLsbD_shiftLeft, getLsbD_ushiftRight, getLsbD_setWidth]
    interval_cases i <;> simp
  · intro i hi hi'
    simp only [getLsbD_or, getLsbD_and, getLsbD_shiftLeft]
    interval_cases i <;> simp

theorem InRange.sign (h : InRange x) {i : Nat} (hi : 24 ≤ i) (hi' : i < 32) :
    x.getLsbD i = x.getLsbD 24 := by
  obtain ⟨-, hlow, hhigh⟩ := h
  have hx : x = (x.setWidth 25).signExtend 32 := by
    apply BitVec.eq_of_toInt_eq
    rw [BitVec.toInt_signExtend_of_le (by decide)]
    rw [toInt_eq_toNat_cond] at hlow hhigh
    rw [toInt_eq_toNat_cond, toInt_eq_toNat_cond, BitVec.toNat_setWidth]
    split_ifs at hlow hhigh ⊢ <;> omega
  rw [hx, getLsbD_signExtend, getLsbD_signExtend, msb_eq_getLsbD_last,
    getLsbD_setWidth, getLsbD_setWidth]
  interval_cases i <;> simp

theorem thmRest (upper lower : BitVec 16) (x : BitVec 32) :
    thumbRest (thmUpper (upper.setWidth 32) x) (thmLower (lower.setWidth 32) x) =
      thumbRest upper lower := by
  unfold thumbRest thmUpper thmLower
  apply eq_of_getLsbD_eq
  intro i hi
  simp only [getLsbD_append, getLsbD_extractLsb', getLsbD_or, getLsbD_and,
    getLsbD_xor, getLsbD_not, getLsbD_shiftLeft, getLsbD_sshiftRight,
    getLsbD_setWidth]
  interval_cases i <;> simp

theorem bne_bne_self (a b : Bool) : (a != (b != a)) = b := by
  cases a <;> cases b <;> rfl

theorem thumbOffset_thm (upper lower : BitVec 16) (h : InRange x) :
    thumbOffset (thmUpper (upper.setWidth 32) x) (thmLower (lower.setWidth 32) x) = x &&& ~~~1 := by
  unfold thumbOffset thmUpper thmLower
  apply eq_of_getLsbD_eq
  intro i hi
  have hsign : 24 ≤ i → x.getLsbD i = x.getLsbD 24 := fun hi' => h.sign hi' hi
  simp only [getLsbD_signExtend, msb_eq_getLsbD_last, getLsbD_append,
    getLsbD_extractLsb', getLsbD_or, getLsbD_and, getLsbD_xor,
    getLsbD_not, getLsbD_shiftLeft, getLsbD_sshiftRight, getLsbD_setWidth]
  interval_cases i <;> simp_all [bne_bne_self]

theorem sameLower_iff {upper lower : BitVec 16} :
    SameLower x (thumbOffset upper lower) ↔ x.extractLsb' 1 11 = lower.extractLsb' 0 11 ∧
      (x.getLsbD 24 ^^ x.getLsbD 23) = !lower.getLsbD 13 ∧
      (x.getLsbD 24 ^^ x.getLsbD 22) = !lower.getLsbD 11 := by
  have himm : (thumbOffset upper lower).extractLsb' 1 11 = lower.extractLsb' 0 11 := by
    unfold thumbOffset
    apply eq_of_getLsbD_eq
    intro i hi
    simp only [getLsbD_signExtend, getLsbD_append, getLsbD_extractLsb']
    interval_cases i <;> simp
  have hbit (k : Nat) (b : Bool) (h : (thumbOffset upper lower).getLsbD k = !(b ^^ upper.getLsbD 10)) :
      ((thumbOffset upper lower).getLsbD 24 ^^ (thumbOffset upper lower).getLsbD k) = !b := by
    have hsign : (thumbOffset upper lower).getLsbD 24 = upper.getLsbD 10 := by
      unfold thumbOffset
      simp only [getLsbD_signExtend, getLsbD_append, getLsbD_extractLsb']
      simp
    rw [hsign, h]
    cases b <;> cases upper.getLsbD 10 <;> rfl
  have hj1 := hbit 23 (lower.getLsbD 13) (by
    unfold thumbOffset
    simp only [getLsbD_signExtend, getLsbD_append, getLsbD_extractLsb',
      getLsbD_not, getLsbD_xor]
    simp)
  have hj2 := hbit 22 (lower.getLsbD 11) (by
    unfold thumbOffset
    simp only [getLsbD_signExtend, getLsbD_append, getLsbD_extractLsb',
      getLsbD_not, getLsbD_xor]
    simp)
  constructor
  · intro h
    exact ⟨h.imm11.trans himm, h.j1.trans hj1, h.j2.trans hj2⟩
  · rintro ⟨h1, h2, h3⟩
    exact ⟨h1.trans himm.symm, h2.trans hj1.symm, h3.trans hj2.symm⟩

theorem sameLower_and {y : BitVec 32} : SameLower (x &&& ~~~1) y ↔ SameLower x y := by
  have himm : (x &&& ~~~1).extractLsb' 1 11 = x.extractLsb' 1 11 := by
    apply eq_of_getLsbD_eq
    intro i hi
    simp only [getLsbD_extractLsb', getLsbD_and, getLsbD_not]
    interval_cases i <;> simp
  have hbit (k : Nat) (hk : 0 < k) (hk' : k < 32) : (x &&& ~~~1).getLsbD k = x.getLsbD k := by
    simp only [getLsbD_and, getLsbD_not]
    interval_cases k <;> simp
  have h24 := hbit 24 (by decide) (by decide)
  have h23 := hbit 23 (by decide) (by decide)
  have h22 := hbit 22 (by decide) (by decide)
  constructor
  · rintro ⟨h1, h2, h3⟩
    rw [h24, h23] at h2
    rw [h24, h22] at h3
    exact ⟨himm.symm.trans h1, h2, h3⟩
  · rintro ⟨h1, h2, h3⟩
    refine ⟨himm.trans h1, ?_, ?_⟩
    · rw [h24, h23, h2]
    · rw [h24, h22, h3]

theorem eq_xor_not {a b c : Bool} : (a != !b) = c ↔ (a ^^ b) = !c := by
  cases a <;> cases b <;> cases c <;> decide

theorem thmLower_eq_iff (upper lower : BitVec 16) (x : BitVec 32) :
    thmLower (lower.setWidth 32) x = lower ↔ SameLower x (thumbOffset upper lower) := by
  have hbits (i : Nat) (hi : i < 16) : (thmLower (lower.setWidth 32) x).getLsbD i =
      if i < 11 then x.getLsbD (i + 1)
      else if i = 11 then x.getLsbD 24 != !x.getLsbD 22
      else if i = 13 then x.getLsbD 24 != !x.getLsbD 23 else lower.getLsbD i := by
    unfold thmLower
    simp only [getLsbD_or, getLsbD_and, getLsbD_xor, getLsbD_not,
      getLsbD_shiftLeft, getLsbD_sshiftRight, getLsbD_setWidth]
    interval_cases i <;> simp
  rw [sameLower_iff]
  constructor
  · intro h
    rw [h] at hbits
    refine ⟨?_, eq_xor_not.mp (hbits 13 (by decide)).symm, eq_xor_not.mp (hbits 11 (by decide)).symm⟩
    apply eq_of_getLsbD_eq
    intro i hi
    have hb := hbits i (by omega)
    rw [if_pos hi] at hb
    rw [getLsbD_extractLsb', getLsbD_extractLsb', Nat.add_comm 1 i, ← hb, Nat.zero_add]
  · rintro ⟨himm, hj1, hj2⟩
    apply eq_of_getLsbD_eq
    intro i hi
    rw [hbits i hi]
    split_ifs with h1 h2 h3
    · have hb := congrArg (BitVec.getLsbD · i) himm
      rw [getLsbD_extractLsb', getLsbD_extractLsb', Nat.zero_add, Nat.add_comm 1 i,
        decide_eq_true h1] at hb
      exact hb
    · rw [h2, eq_xor_not.mpr hj2]
    · rw [h3, eq_xor_not.mpr hj1]
    · rfl

theorem not_refused_iff (x : BitVec 32) : thmRefused x = false ↔ InRange x := by
  have hodd := and_twoPow_ne_zero (x := x) (i := 0) (by decide)
  rw [show twoPow 32 0 = 1 from rfl] at hodd
  unfold thmRefused InRange
  rw [decide_eq_false_iff_not, not_or, not_or, ← hodd]
  exact and_congr_right fun _ => by omega

theorem offset_eq (m : ByteMem) (p s : BitVec 32) :
    thmOffset ((load16 m p).setWidth 32) ((load16 m (p + 2)).setWidth 32) + (s - p) =
      s + thumbOffset (load16 m p) (load16 m (p + 2)) - p := by
  rw [thmOffset_eq]
  bv_omega

/-! ## `MOVW` and `MOVT` -/

theorem relocateMovw_fields (w info s : BitVec 32) (h : isSttFunc info = false) :
    movRest ((relocateMovw w info s).extractLsb' 0 16) ((relocateMovw w info s).extractLsb' 16 16) =
        movRest (w.extractLsb' 0 16) (w.extractLsb' 16 16) ∧
      imm16 ((relocateMovw w info s).extractLsb' 0 16) ((relocateMovw w info s).extractLsb' 16 16) =
        s.extractLsb' 0 16 := by
  unfold movRest imm16 relocateMovw
  rw [h]
  constructor <;>
  · apply eq_of_getLsbD_eq
    intro i hi
    simp only [getLsbD_extractLsb', getLsbD_append, getLsbD_or, getLsbD_and,
      getLsbD_shiftLeft, getLsbD_ushiftRight]
    interval_cases i <;> simp

theorem relocateMovt_fields (w s : BitVec 32) :
    movRest ((relocateMovt w s).extractLsb' 0 16) ((relocateMovt w s).extractLsb' 16 16) =
        movRest (w.extractLsb' 0 16) (w.extractLsb' 16 16) ∧
      imm16 ((relocateMovt w s).extractLsb' 0 16) ((relocateMovt w s).extractLsb' 16 16) =
        s.extractLsb' 16 16 := by
  unfold movRest imm16 relocateMovt
  constructor <;>
  · apply eq_of_getLsbD_eq
    intro i hi
    simp only [getLsbD_extractLsb', getLsbD_append, getLsbD_or, getLsbD_and,
      getLsbD_shiftLeft, getLsbD_ushiftRight]
    interval_cases i <;> simp

/-! ## Every type -/

theorem apply_word_of_le {v : BitVec 32} (h : 4 ≤ (x - p).toNat) :
    (Store.word p v).apply m x = m x :=
  Store.apply_of_not_writes (Nat.not_lt.mpr h)

theorem patches_word {v : BitVec 32} {type : RelType}
    (h : Patched m ((Store.word p v).apply m) p s type) :
    Patches m (Store.run m [.word p v]) p s type :=
  ⟨fun _ hx => apply_word_of_le hx, h⟩

theorem patched_mov {v : BitVec 32} {imm : BitVec 16}
    (h : movRest (v.extractLsb' 0 16) (v.extractLsb' 16 16) =
        movRest ((load32 m p).extractLsb' 0 16) ((load32 m p).extractLsb' 16 16) ∧
      imm16 (v.extractLsb' 0 16) (v.extractLsb' 16 16) = imm) :
    movRest (load16 ((Store.word p v).apply m) p) (load16 ((Store.word p v).apply m) (p + 2)) =
        movRest (load16 m p) (load16 m (p + 2)) ∧
      imm16 (load16 ((Store.word p v).apply m) p) (load16 ((Store.word p v).apply m) (p + 2)) = imm := by
  rw [(load16_word v).1, (load16_word v).2]
  rwa [extract_load32.1, extract_load32.2] at h

theorem thumb_patches_iff {type : RelType} {x : BitVec 32} (htype : type = .thmCall ∨ type = .thmJump24)
    (hx : s + thumbOffset (load16 m p) (load16 m (p + 2)) - p = x) (hrange : InRange x) :
    Patches m (Store.run m [.half p (thmUpper ((load16 m p).setWidth 32) x),
      .half (p + 8) (thmLower ((load16 m (p + 2)).setWidth 32) x)]) p s type ↔
      load16 m (p + 8) = load16 m (p + 2) ∧
        SameLower x (thumbOffset (load16 m p) (load16 m (p + 2))) := by
  have hpatched (m' : ByteMem) : Patched m m' p s type ↔
      thumbRest (load16 m' p) (load16 m' (p + 2)) = thumbRest (load16 m p) (load16 m (p + 2)) ∧
        thumbOffset (load16 m' p) (load16 m' (p + 2)) = x &&& ~~~1 := by
    rw [← hx]
    obtain rfl | rfl := htype <;> rfl
  have hrest := thmRest (load16 m p) (load16 m (p + 2)) x
  have hoffset := thumbOffset_thm (load16 m p) (load16 m (p + 2)) hrange
  have hlower := thmLower_eq_iff (load16 m p) (load16 m (p + 2)) x
  generalize thmUpper ((load16 m p).setWidth 32) x = upper at *
  generalize thmLower ((load16 m (p + 2)).setWidth 32) x = lower at *
  have hfar (k : BitVec 32) (hk : k.toNat < 4) (v : BitVec 16) : ¬ (Store.half (p + 8) v).Writes (p + k) := by
    show ¬ (p + k - (p + 8)).toNat < 2
    bv_omega
  have hnear (k : BitVec 32) (hk : 2 ≤ k.toNat) (v : BitVec 16) : ¬ (Store.half p v).Writes (p + k) := by
    show ¬ (p + k - p).toNat < 2
    bv_omega
  have h0 : load16 (Store.run m [.half p upper, .half (p + 8) lower]) p = upper :=
    (load16_of_not_writes (by simpa using hfar 0 (by decide) lower) (hfar 1 (by decide) lower)).trans
      (load16_half upper)
  have h2 : load16 (Store.run m [.half p upper, .half (p + 8) lower]) (p + 2) = load16 m (p + 2) := by
    have hadd : p + 2 + 1 = p + 3 := by bv_omega
    refine (load16_of_not_writes (hfar 2 (by decide) lower) ?_).trans
      (load16_of_not_writes (hnear 2 (by decide) upper) ?_)
    · rw [hadd]
      exact hfar 3 (by decide) lower
    · rw [hadd]
      exact hnear 3 (by decide) upper
  have h8 : load16 (Store.run m [.half p upper, .half (p + 8) lower]) (p + 8) = lower := load16_half lower
  constructor
  · rintro ⟨houtside, hinstruction⟩
    rw [hpatched, h0, h2] at hinstruction
    have hsame : SameLower x (thumbOffset (load16 m p) (load16 m (p + 2))) := by
      rw [← sameLower_and, ← hinstruction.2]
      exact sameLower_iff.mpr (sameLower_iff.mp ⟨rfl, rfl, rfl⟩)
    refine ⟨?_, hsame⟩
    rw [← hlower.mpr hsame, ← h8]
    unfold load16
    rw [houtside (p + 8) (by bv_omega), houtside (p + 8 + 1) (by bv_omega)]
  · rintro ⟨hbyte, hsame⟩
    have heq := hlower.mpr hsame
    refine ⟨fun y hy => ?_, ?_⟩
    · by_cases hw : (Store.half (p + 8) lower).Writes y
      · have hbytes := load16_inj (h8.trans (heq.trans hbyte.symm))
        have hcases : y = p + 8 ∨ y = p + 8 + 1 := by
          have hw : (y - (p + 8)).toNat < 2 := hw
          bv_omega
        obtain rfl | rfl := hcases
        · exact hbytes.1
        · exact hbytes.2
      · refine (Store.apply_of_not_writes hw).trans (Store.apply_of_not_writes ?_)
        show ¬ (y - p).toNat < 2
        omega
    · rw [hpatched, h0, h2]
      rw [heq] at hrest hoffset
      exact ⟨hrest, hoffset⟩

theorem thumb_relocates_iff {type : RelType} (htype : type = .thmCall ∨ type = .thmJump24)
    {relocated : DlErr × List Store} (h : relocated =
      let offset := thmOffset ((load16 m p).setWidth 32) ((load16 m (p + 2)).setWidth 32) + (s - p)
      if thmRefused offset then (.relocateErr, [])
      else (.noErr, [.half p (thmUpper ((load16 m p).setWidth 32) offset),
        .half (p + 8) (thmLower ((load16 m (p + 2)).setWidth 32) offset)])) :
    (relocated.1 = .noErr → Patches m (Store.run m relocated.2) p s type) ↔
      (type = .thmCall ∨ type = .thmJump24 → ThumbLuck m p s) := by
  rw [offset_eq] at h
  subst h
  by_cases hrefused : thmRefused (s + thumbOffset (load16 m p) (load16 m (p + 2)) - p)
  · rw [if_pos hrefused]
    refine iff_of_true (fun h => by cases h) fun _ hrange => ?_
    rw [(not_refused_iff _).mpr hrange] at hrefused
    cases hrefused
  · have hrange := (not_refused_iff _).mp (Bool.not_eq_true _ ▸ hrefused)
    rw [if_neg hrefused]
    constructor
    · exact fun h _ _ => (thumb_patches_iff htype rfl hrange).mp (h rfl)
    · exact fun h _ => (thumb_patches_iff htype rfl hrange).mpr (h htype hrange)

theorem patched_v4bx (w : BitVec 32) :
    ((w &&& 0xf000000f) ||| 0x01a0f000).extractLsb' 28 4 = w.extractLsb' 28 4 ∧
      ((w &&& 0xf000000f) ||| 0x01a0f000).extractLsb' 4 24 = 0x1a0f00 ∧
      ((w &&& 0xf000000f) ||| 0x01a0f000).extractLsb' 0 4 = w.extractLsb' 0 4 := by
  refine ⟨?_, ?_, ?_⟩
  all_goals
    apply eq_of_getLsbD_eq
    intro i hi
    simp only [getLsbD_extractLsb', getLsbD_or, getLsbD_and]
    interval_cases i <;> simp

theorem isSttFunc_movw {info : BitVec 32} (h : elf32RType info = .thmMovwAbsNc) :
    isSttFunc info = false := by
  have hnum : (info.setWidth 8).toNat = 47 := by
    unfold elf32RType at h
    split at h <;> first | assumption | cases h
  refine decide_eq_false fun h2 => ?_
  have h2 := congrArg BitVec.toNat h2
  rw [BitVec.toNat_and, show (0xf : BitVec 32).toNat = 2 ^ 4 - 1 from rfl,
    Nat.and_two_pow_sub_one_eq_mod] at h2
  rw [BitVec.toNat_setWidth] at hnum
  have h2 : info.toNat % 2 ^ 4 = 2 := h2
  omega

/-- **When a relocation that succeeds patches exactly its instruction**: always, but for Thumb branches,
whose second half-word is not stored where it belongs. -/
theorem relocates_iff : Relocates handle m rel s ↔
    (elf32RType rel.rInfo = .thmCall ∨ elf32RType rel.rInfo = .thmJump24 →
      ThumbLuck m (place handle rel) s) := by
  have hother (type : RelType) (h1 : type ≠ .thmCall) (h2 : type ≠ .thmJump24) (q : Prop) :
      type = .thmCall ∨ type = .thmJump24 → q := fun h => absurd h (not_or.mpr ⟨h1, h2⟩)
  unfold Relocates dlRelocate
  dsimp only
  generalize place handle rel = p
  cases htype : elf32RType rel.rInfo with
  | none => exact iff_of_true (fun _ => ⟨fun _ _ => rfl, rfl⟩) (hother _ (by decide) (by decide) _)
  | abs32 =>
    refine iff_of_true (fun _ => patches_word ?_) (hother _ (by decide) (by decide) _)
    exact (load32_word _).trans (BitVec.add_comm _ _)
  | pc24 | plt32 | call | jump24 =>
    refine iff_of_true (fun _ => patches_word ?_) (hother _ (by decide) (by decide) _)
    exact ⟨(congrArg branchRest (load32_word _)).trans (relocateBranch_rest _ _ _),
      fun h => (congrArg branchOffset (load32_word _)).trans (relocateBranch_offset h)⟩
  | rel32 =>
    refine iff_of_true (fun _ => patches_word ?_) (hother _ (by decide) (by decide) _)
    refine (load32_word _).trans ?_
    bv_omega
  | v4bx =>
    refine iff_of_true (fun _ => ⟨fun x hx => ?_, ?_⟩) (hother _ (by decide) (by decide) _)
    · exact (apply_word_of_le hx).trans (apply_word_of_le hx)
    · have hword := load32_word (m := (Store.word p (load32 m p &&& 0xf000000f)).apply m) (a := p)
        ((load32 m p &&& 0xf000000f) ||| 0x01a0f000)
      unfold Patched
      dsimp only [Store.run, List.foldl_cons, List.foldl_nil]
      rw [hword]
      exact patched_v4bx (load32 m p)
  | globDat | jumpSlot =>
    exact iff_of_true (fun _ => patches_word (load32_word _)) (hother _ (by decide) (by decide) _)
  | relative =>
    exact iff_of_true (fun _ => patches_word (load32_word _)) (hother _ (by decide) (by decide) _)
  | thmMovwAbsNc =>
    refine iff_of_true (fun _ => patches_word ?_) (hother _ (by decide) (by decide) _)
    exact patched_mov (relocateMovw_fields _ _ _ (isSttFunc_movw htype))
  | thmMovtAbs =>
    refine iff_of_true (fun _ => patches_word ?_) (hother _ (by decide) (by decide) _)
    exact patched_mov (relocateMovt_fields _ _)
  | thmCall => exact thumb_relocates_iff (.inl rfl) rfl
  | thmJump24 => exact thumb_relocates_iff (.inr rfl) rfl
  | unsupported => exact iff_of_true (fun h => by cases h) (hother _ (by decide) (by decide) _)

/-- `bl` to itself, at the beginning of the image. -/
def blMemory : ByteMem := Store.run (fun _ => 0) [.half 0x20000000 0xf7ff, .half 0x20000002 0xfffe]

/-- The word two words behind a call is changed. -/
theorem not_relocates : ¬ Relocates { memPtr := 0x20000000, memSize := 0x100, vstartAddr := 0 } blMemory
    { rOffset := 0, rInfo := 10 } 0x20000101 :=
  fun h => absurd ((h (by decide)).outside 0x20000008 (by decide)) (by decide)

end Gpmx.Dloader
