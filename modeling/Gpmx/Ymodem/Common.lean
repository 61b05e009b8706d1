import Mathlib

/-!
# What sender and receiver have in common

`apps/libs/ymodem/ymdm_cmn.c`: the bytes of the protocol, the checksum, and the reading of the name
and of the size from the header. The sender of `gpm/tools/ym_uploader.py` computes the same checksum.
-/

namespace Gpmx.Ymodem

open List

abbrev Bytes := List UInt8

def SOH : UInt8 := 0x01
def STX : UInt8 := 0x02
def EOT : UInt8 := 0x04
def ACK : UInt8 := 0x06
def NAK : UInt8 := 0x15
def CAN : UInt8 := 0x18
def C : UInt8 := 0x43

def headlen : Nat := 3

def nonpayloadlen : Nat := 5

def payloadlenSoh : Nat := 128

def payloadlenStx : Nat := 1024

/-! ## Checksum -/

/-- One turn of the inner loop of `crc16_xmodem`. -/
def crcBit (crc : BitVec 16) : BitVec 16 :=
  if crc.msb then (crc <<< 1) ^^^ 0x1021#16 else crc <<< 1

/-- `n` turns of it. -/
def crcBits : Nat → BitVec 16 → BitVec 16
  | 0, crc => crc
  | n + 1, crc => crcBits n (crcBit crc)

def crcByte (crc : BitVec 16) (byte : UInt8) : BitVec 16 :=
  crcBits 8 (crc ^^^ (byte.toBitVec.setWidth 16 <<< 8))

def crc16Xmodem (data : Bytes) : BitVec 16 := data.foldl crcByte 0#16

def crcHigh (crc : BitVec 16) : UInt8 := ⟨(crc >>> 8).setWidth 8⟩
def crcLow (crc : BitVec 16) : UInt8 := ⟨crc.setWidth 8⟩

theorem crcBits_low (b : BitVec 8) : crcBits 8 (b.setWidth 16) = b.setWidth 16 <<< 8 := by
  revert b
  decide +kernel

theorem xor_crcHigh (crc : BitVec 16) :
    crc ^^^ ((crcHigh crc).toBitVec.setWidth 16 <<< 8) = (crc.setWidth 8).setWidth 16 := by
  apply BitVec.eq_of_getLsbD_eq
  intro i hi
  simp only [crcHigh, BitVec.getLsbD_xor, BitVec.getLsbD_shiftLeft, BitVec.getLsbD_setWidth,
    BitVec.getLsbD_ushiftRight]
  by_cases hlow : i < 8
  · simp [hlow, hi]
  · have hhigh : i - 8 < 8 := by omega
    have hsum : 8 + (i - 8) = i := by omega
    simp [hlow, hi, hhigh, hsum, show i - 8 < 16 by omega]

/-- **A checksum that is sent after its data cancels itself.** -/
theorem crc16Xmodem_append (data : Bytes) :
    crc16Xmodem (data ++ [crcHigh (crc16Xmodem data), crcLow (crc16Xmodem data)]) = 0#16 := by
  generalize hcrc : crc16Xmodem data = crc
  have hfold : crc16Xmodem (data ++ [crcHigh crc, crcLow crc])
      = crcByte (crcByte crc (crcHigh crc)) (crcLow crc) := by
    rw [← hcrc]
    simp [crc16Xmodem, foldl_append]
  have hhigh : crcByte crc (crcHigh crc) = (crc.setWidth 8).setWidth 16 <<< 8 := by
    unfold crcByte
    rw [xor_crcHigh, crcBits_low]
  have hlow : ((crc.setWidth 8).setWidth 16 <<< 8) ^^^ ((crcLow crc).toBitVec.setWidth 16 <<< 8)
      = (0#8).setWidth 16 := by
    simp [crcLow]
  rw [hfold, hhigh, crcByte, hlow, crcBits_low]
  rfl

/-! ## Name and size -/

/-- The characters of a string that starts at `i`, if there are no more than `n`. -/
def cstring (p : Nat → UInt8) (i : Nat) : Nat → Option Bytes
  | 0 => none
  | n + 1 => if p i = 0 then some [] else (cstring p (i + 1) n).map (p i :: ·)

def isspace (x : UInt8) : Bool :=
  x = 0x20 || x = 0x09 || x = 0x0a || x = 0x0c || x = 0x08 || x = 0x0d

def isdigit (x : UInt8) : Bool := x ≤ 0x39 && 0x30 ≤ x

def accumulate (total : Int) : Bytes → Int
  | [] => total
  | c :: rest => if isdigit c then accumulate (10 * total + (c.toNat - 0x30)) rest else total

/-- `y_atoi`, without the overflow of its `int`, which is the same where the result is stored -/
def yAtoi (nptr : Bytes) : Int :=
  match nptr.dropWhile isspace with
  | [] => 0
  | c :: rest =>
    if c = 0x2d then -accumulate 0 rest
    else if c = 0x2b then accumulate 0 rest
    else accumulate 0 (c :: rest)

/-- `y_filename_size_get`, with the size as a `uint32_t` -/
def yFilenameSizeGet (p : Nat → UInt8) (len : Nat) : Option (Bytes × Nat) :=
  match cstring p 0 (len + 1) with
  | none => none
  | some fname =>
    match cstring p (fname.length + 1) (len + 1) with
    | none => none
    | some psize => some (fname, (yAtoi psize % 2 ^ 32).toNat)

def decimal (n : Nat) : Bytes :=
  if n = 0 then [0x30] else ((Nat.digits 10 n).map fun d => UInt8.ofNat (0x30 + d)).reverse

variable {d : Nat} {c : UInt8} {p : Nat → UInt8}

theorem toNat_digit (hd : d < 10) : (UInt8.ofNat (0x30 + d)).toNat = 0x30 + d := by
  rw [UInt8.toNat_ofNat']
  omega

theorem isdigit_digit (hd : d < 10) : isdigit (UInt8.ofNat (0x30 + d)) = true := by
  have htoNat := toNat_digit hd
  simp only [isdigit, Bool.and_eq_true, decide_eq_true_eq, UInt8.le_iff_toNat_le, htoNat]
  constructor
  · show 0x30 + d ≤ 0x39
    omega
  · show 0x30 ≤ 0x30 + d
    omega

theorem accumulate_append : ∀ {L : Bytes} {total : Int} (M : Bytes), (∀ c ∈ L, isdigit c = true) →
    accumulate total (L ++ M) = accumulate (accumulate total L) M
  | [], _, _, _ => rfl
  | c :: L, total, M, h => by
    have hc := h c mem_cons_self
    simp only [cons_append, accumulate, hc, if_true]
    exact accumulate_append M fun x hx => h x (mem_cons_of_mem _ hx)

theorem accumulate_digits : ∀ {ds : List Nat}, (∀ d ∈ ds, d < 10) →
    accumulate 0 (ds.map fun d => UInt8.ofNat (0x30 + d)).reverse = (Nat.ofDigits 10 ds : Nat)
  | [], _ => rfl
  | d :: ds, h => by
    have hd := h d mem_cons_self
    have hds : ∀ x ∈ ds, x < 10 := fun x hx => h x (mem_cons_of_mem _ hx)
    have hdigits : ∀ c ∈ (ds.map fun d => UInt8.ofNat (0x30 + d)).reverse, isdigit c = true := by
      intro c hc
      obtain ⟨x, hx, rfl⟩ := mem_map.mp (mem_reverse.mp hc)
      exact isdigit_digit (hds x hx)
    rw [map_cons, reverse_cons, accumulate_append _ hdigits, accumulate_digits hds,
      Nat.ofDigits_cons]
    simp only [accumulate, isdigit_digit hd, if_true, toNat_digit hd]
    push_cast
    omega

theorem isdigit_of_mem_decimal {n : Nat} (hc : c ∈ decimal n) : isdigit c = true := by
  unfold decimal at hc
  split at hc
  · rw [mem_singleton.mp hc]
    decide
  · obtain ⟨d, hd, rfl⟩ := mem_map.mp (mem_reverse.mp hc)
    exact isdigit_digit (Nat.digits_lt_base (by decide) hd)

theorem plain_of_isdigit (hc : isdigit c = true) :
    c ≠ 0x2d ∧ c ≠ 0x2b ∧ c ≠ 0 ∧ isspace c = false := by
  refine ⟨?_, ?_, ?_, ?_⟩
  · rintro rfl
    cases hc
  · rintro rfl
    cases hc
  · rintro rfl
    cases hc
  · cases hspace : isspace c with
    | false => rfl
    | true =>
      simp only [isspace, Bool.or_eq_true, decide_eq_true_eq] at hspace
      rcases hspace with ((((rfl | rfl) | rfl) | rfl) | rfl) | rfl <;> cases hc

/-- **What `y_atoi` reads is what was printed.** -/
theorem yAtoi_decimal (n : Nat) : yAtoi (decimal n) = n := by
  have haccumulate : accumulate 0 (decimal n) = n := by
    unfold decimal
    split
    · next hzero =>
      subst hzero
      decide
    · rw [accumulate_digits fun d hd => Nat.digits_lt_base (by decide) hd, Nat.ofDigits_digits]
  cases hdecimal : decimal n with
  | nil =>
    rw [hdecimal] at haccumulate
    exact haccumulate
  | cons c rest =>
    have hc : isdigit c = true := isdigit_of_mem_decimal (by rw [hdecimal]; exact mem_cons_self)
    obtain ⟨hminus, hplus, -, hspace⟩ := plain_of_isdigit hc
    rw [hdecimal] at haccumulate
    unfold yAtoi
    rw [dropWhile_cons_of_neg (by simp [hspace])]
    simp only [hminus, hplus, if_false]
    exact haccumulate

theorem cstring_eq : ∀ {L : Bytes} {i n : Nat}, (∀ c ∈ L, c ≠ 0) →
    (∀ k (hk : k < L.length), p (i + k) = L.get ⟨k, hk⟩) → p (i + L.length) = 0 → L.length < n →
    cstring p i n = some L
  | _, _, 0, _, _, _, hn => absurd hn (Nat.not_lt_zero _)
  | [], i, n + 1, _, _, hend, _ => by
    have hzero : p i = 0 := hend
    simp [cstring, hzero]
  | c :: L, i, n + 1, hne, hget, hend, hn => by
    have hfirst : p i = c := hget 0 (by simp)
    have hrest : cstring p (i + 1) n = some L := by
      refine cstring_eq (fun x hx => hne x (mem_cons_of_mem _ hx)) ?_ ?_ ?_
      · intro k hk
        rw [Nat.add_assoc, Nat.add_comm 1 k]
        exact hget (k + 1) (by simpa using hk)
      · rw [Nat.add_assoc, Nat.add_comm 1 L.length]
        exact hend
      · simpa using hn
    rw [cstring, if_neg (by rw [hfirst]; exact hne c mem_cons_self), hrest, hfirst]
    rfl

/-- **The header is read back**, where name and size fit into it. -/
theorem yFilenameSizeGet_header {name : Bytes} {size len : Nat} (hname : ∀ c ∈ name, c ≠ 0)
    (hp : ∀ k (hk : k < (name ++ 0 :: (decimal size ++ [0])).length), p k = (name ++ 0 :: (decimal size ++ [0])).get ⟨k, hk⟩)
    (hlen : name.length + (decimal size).length + 2 ≤ len) (hsize : size < 2 ^ 32) :
    yFilenameSizeGet p len = some (name, size) := by
  have hget : ∀ k x, (name ++ 0 :: (decimal size ++ [0]))[k]? = some x → p k = x := by
    intro k x hx
    obtain ⟨hk, heq⟩ := List.getElem?_eq_some_iff.mp hx
    rw [hp k hk, ← heq]
    rfl
  have hfname : cstring p 0 (len + 1) = some name := by
    refine cstring_eq hname ?_ ?_ (by omega)
    · intro k hk
      rw [Nat.zero_add]
      refine hget k _ ?_
      rw [getElem?_append_left hk, getElem?_eq_getElem hk]
      rfl
    · rw [Nat.zero_add]
      refine hget _ _ ?_
      rw [getElem?_append_right (Nat.le_refl _), Nat.sub_self]
      rfl
  have hpsize : cstring p (name.length + 1) (len + 1) = some (decimal size) := by
    refine cstring_eq (fun c hc => (plain_of_isdigit (isdigit_of_mem_decimal hc)).2.2.1) ?_ ?_ (by omega)
    · intro k hk
      refine hget _ _ ?_
      rw [getElem?_append_right (by omega), show name.length + 1 + k - name.length = k + 1 by omega,
        getElem?_cons_succ, getElem?_append_left hk, getElem?_eq_getElem hk]
      rfl
    · refine hget _ _ ?_
      rw [getElem?_append_right (by omega),
        show name.length + 1 + (decimal size).length - name.length = (decimal size).length + 1 by omega,
        getElem?_cons_succ, getElem?_append_right (Nat.le_refl _), Nat.sub_self]
      rfl
  unfold yFilenameSizeGet
  simp only [hfname, hpsize, yAtoi_decimal]
  congr 2
  omega

end Gpmx.Ymodem
