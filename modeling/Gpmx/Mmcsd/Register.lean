import Gpmx.Infra.Words
import Mathlib

/-!
# Card registers

`bswap128`, `unpackreg` and what `mmcsd_spi_init` makes of the register with the card's data.

* `received` — the register as it comes from the card, the most significant byte first
* `unpackreg_toNat` — a field of the register, wherever its load ends
* `decodes_iff` — exactly which loads stay in the register, and for which cards the sizes are right
-/

namespace Gpmx.Mmcsd

open Infra BitVec
open BitVec (getLsbD isLt ofNat)

structure Regfield where
  bitpos : Nat
  bits : Nat
deriving DecidableEq

def CSD_VER : Regfield := ⟨126, 2⟩
def READ_BL_LEN : Regfield := ⟨80, 4⟩
def C_SIZE_v1 : Regfield := ⟨62, 12⟩
def C_SIZE_v3 : Regfield := ⟨48, 22⟩
def C_SIZE_MULT : Regfield := ⟨47, 3⟩
def ERASE_SECTOR_SIZE : Regfield := ⟨39, 7⟩
def WRITE_BL_LEN : Regfield := ⟨22, 4⟩

/-- The fields that `mmcsd_spi_init` unpacks. -/
def initFields : List Regfield :=
  [CSD_VER, READ_BL_LEN, WRITE_BL_LEN, ERASE_SECTOR_SIZE, C_SIZE_v1, C_SIZE_MULT, C_SIZE_v3]

/-- `mmcsd_cardtype_t`. -/
inductive CardType where
  | CT_UNKNOWN
  | CT_MMC
  | CT_SD1
  | CT_SD2
  | CT_SDHC
  | CT_SDUC
deriving DecidableEq, Repr

/-! ## The functions of the source -/

def bswap32 (value : BitVec 32) : BitVec 32 :=
  (value.extractLsb' 0 8 ++ value.extractLsb' 8 8) ++ (value.extractLsb' 16 8 ++ value.extractLsb' 24 8)

/-- `bswap128`: the words are copied before the first one is stored. -/
def bswap128 (m : ByteMem) (ptr : BitVec 32) : ByteMem :=
  Store.run m [.word ptr (bswap32 (load32 m (ptr + 12))), .word (ptr + 4) (bswap32 (load32 m (ptr + 8))),
    .word (ptr + 8) (bswap32 (load32 m (ptr + 4))), .word (ptr + 12) (bswap32 (load32 m ptr))]

/-- Where `unpackreg` loads its word. -/
def unpackregAddr (p : BitVec 32) (rf : Regfield) : BitVec 32 := p + BitVec.ofNat 32 (rf.bitpos / 8)

def unpackreg (m : ByteMem) (p : BitVec 32) (rf : Regfield) : BitVec 32 :=
  (load32 m (unpackregAddr p rf) >>> (rf.bitpos % 8)) &&& ~~~(BitVec.allOnes 32 <<< rf.bits)

/-- The bytes that `unpackreg` loads. -/
def unpackregLoads (p : BitVec 32) (rf : Regfield) : List (BitVec 32) :=
  let a := unpackregAddr p rf
  [a, a + 1, a + 2, a + 3]

/-- What `mmcsd_spi_init` stores about the card. -/
structure CardInfo where
  csdVer : BitVec 8
  blocklenRD : BitVec 16
  blocklenWR : BitVec 16
  sectorlen : BitVec 8
  blockcount : BitVec 32
  capacity : BitVec 64
deriving DecidableEq

/-- `mmcsd_spi_init`, from the register at `csd`. -/
def decodeCsd (type : CardType) (m : ByteMem) (csd : BitVec 32) : CardInfo :=
  let csdVer : BitVec 8 := if type = .CT_MMC then 1 else (unpackreg m csd CSD_VER).setWidth 8 + 1
  let blocklenRD := ((1 : BitVec 32) <<< ((unpackreg m csd READ_BL_LEN).setWidth 8)).setWidth 16
  let blocklenWR := ((1 : BitVec 32) <<< ((unpackreg m csd WRITE_BL_LEN).setWidth 8)).setWidth 16
  let sectorlen := (unpackreg m csd ERASE_SECTOR_SIZE).setWidth 8 + 1
  let blockcount : BitVec 32 :=
    if csdVer = 1 then
      (((unpackreg m csd C_SIZE_v1).setWidth 16).setWidth 32 + 1) *
        ((1 : BitVec 32) <<< (((unpackreg m csd C_SIZE_MULT).setWidth 8).setWidth 32 + 2))
    else (unpackreg m csd C_SIZE_v3 + 1) * 1024
  {
    csdVer := csdVer
    blocklenRD := blocklenRD
    blocklenWR := blocklenWR
    sectorlen := sectorlen
    blockcount := blockcount
    capacity := blockcount.setWidth 64 * blocklenRD.setWidth 64
  }

/-! ## The register -/

def msbFirst (csd : BitVec 128) : List (BitVec 8) :=
  (List.range 16).map fun i => csd.extractLsb' (8 * (15 - i)) 8

/-- The memory once the register has been received at `p`. -/
def received (m : ByteMem) (p : BitVec 32) (csd : BitVec 128) : ByteMem :=
  (⟨p, msbFirst csd⟩ : Store).apply m

/-- The number in the bits `[bitpos, bitpos + bits)`. -/
def fieldOf (csd : BitVec 128) (rf : Regfield) : Nat := (csd.extractLsb' rf.bitpos rf.bits).toNat

/-- The version of the register: that of an MMC is not looked at. -/
def versionOf (type : CardType) (csd : BitVec 128) : Nat :=
  if type = .CT_MMC then 1 else fieldOf csd CSD_VER + 1

def blocksOf (type : CardType) (csd : BitVec 128) : Nat :=
  if versionOf type csd = 1 then (fieldOf csd C_SIZE_v1 + 1) * 2 ^ (fieldOf csd C_SIZE_MULT + 2)
  else (fieldOf csd C_SIZE_v3 + 1) * 1024

def Unpacks (m : ByteMem) (p : BitVec 32) (csd : BitVec 128) (rf : Regfield) : Prop :=
  (∀ a ∈ unpackregLoads p rf, (a - p).toNat < 16) ∧ (unpackreg m p rf).toNat = fieldOf csd rf

/-- What is stored about the card is its size, and no product on the way to it is too big: that of the
blocks is an `int` for the first version and unsigned for the others. -/
structure Sized (info : CardInfo) (type : CardType) (csd : BitVec 128) : Prop where
  version1 : versionOf type csd = 1 → info.capacity.toNat = (fieldOf csd C_SIZE_v1 + 1) *
    2 ^ (fieldOf csd C_SIZE_MULT + 2) * 2 ^ fieldOf csd READ_BL_LEN
  version2 : versionOf type csd = 2 → info.capacity.toNat = (fieldOf csd C_SIZE_v3 + 1) * (512 * 1024)
  product : info.blockcount.toNat * info.blocklenRD.toNat = info.capacity.toNat
  blocks : blocksOf type csd < if versionOf type csd = 1 then 2 ^ 31 else 2 ^ 32
  bytes : info.blockcount.toNat * info.blocklenRD.toNat < 2 ^ 64

variable {m : ByteMem} {p : BitVec 32} {csd : BitVec 128} {rf : Regfield} {type : CardType} {i j : Nat}

theorem length_msbFirst (csd : BitVec 128) : (msbFirst csd).length = 16 := by
  unfold msbFirst
  rw [List.length_map, List.length_range]

theorem getElem_msbFirst (h : i < (msbFirst csd).length) :
    (msbFirst csd)[i] = csd.extractLsb' (8 * (15 - i)) 8 := by
  simp only [msbFirst, List.getElem_map, List.getElem_range]

theorem received_byte (hi : i < 16) :
    received m p csd (p + ofNat 32 i) = csd.extractLsb' (8 * (15 - i)) 8 := by
  have hbytes : i < (msbFirst csd).length := by rwa [length_msbFirst]
  exact (Store.apply_add (s := ⟨p, msbFirst csd⟩) hbytes (by omega)).trans (getElem_msbFirst hbytes)

theorem extract_bswap32 (v : BitVec 32) (hi : i < 4) :
    (bswap32 v).extractLsb' (8 * i) 8 = v.extractLsb' (8 * (3 - i)) 8 := by
  apply eq_of_getLsbD_eq
  intro j hj
  unfold bswap32
  simp only [getLsbD_extractLsb', getLsbD_append]
  interval_cases i <;> interval_cases j <;> simp

theorem extract_load32_byte (hi : i < 4) :
    (load32 m p).extractLsb' (8 * i) 8 = m (p + ofNat 32 i) := by
  apply eq_of_getLsbD_eq
  intro j hj
  unfold load32 load16
  simp only [getLsbD_extractLsb', getLsbD_append]
  interval_cases i <;> interval_cases j <;> simp [BitVec.add_assoc]

theorem apply_word (v : BitVec 32) (hi : i < 16) (hj : j < 16) :
    (Store.word (p + ofNat 32 j) v).apply m (p + ofNat 32 i) =
      if j ≤ i ∧ i < j + 4 then v.extractLsb' (8 * (i - j)) 8 else m (p + ofNat 32 i) := by
  split
  · next hin =>
    have hplace : p + ofNat 32 i = p + ofNat 32 j + ofNat 32 (i - j) := by bv_omega
    have hlt : i - j < (Store.word (p + ofNat 32 j) v).bytes.length :=
      show i - j < 4 by omega
    rw [hplace]
    refine (Store.apply_add (s := Store.word (p + ofNat 32 j) v) hlt (by omega)).trans ?_
    have hcases : i - j = 0 ∨ i - j = 1 ∨ i - j = 2 ∨ i - j = 3 := by omega
    rcases hcases with h | h | h | h <;> simp only [h] <;> rfl
  · next hout =>
    refine Store.apply_of_not_writes fun hwrites => hout ?_
    have hdist : (p + ofNat 32 i - (p + ofNat 32 j)).toNat < 4 := hwrites
    bv_omega

theorem bswap128_byte (hi : i < 16) :
    bswap128 m p (p + ofNat 32 i) = m (p + ofNat 32 (15 - i)) := by
  have hword (k : Nat) (r : Nat) (hr : r < 4) :
      (bswap32 (load32 m (p + ofNat 32 k))).extractLsb' (8 * r) 8 =
        m (p + ofNat 32 (k + (3 - r))) := by
    rw [extract_bswap32 _ hr, extract_load32_byte (by omega), BitVec.add_assoc, ofNat_add]
  have h0 := hword 0
  rw [show p + ofNat 32 0 = p from BitVec.add_zero p] at h0
  have hstore (m : ByteMem) (v : BitVec 32) := apply_word (m := m) (p := p) (j := 0) v hi (by omega)
  rw [show p + ofNat 32 0 = p from BitVec.add_zero p] at hstore
  show (Store.word (p + ofNat 32 12) _).apply ((Store.word (p + ofNat 32 8) _).apply
    ((Store.word (p + ofNat 32 4) _).apply ((Store.word p _).apply m))) _ = _
  rw [apply_word _ hi (by omega), apply_word _ hi (by omega), apply_word _ hi (by omega), hstore]
  split
  · rw [h0 _ (by omega)]
    congr 3
    omega
  split
  · refine (hword 4 _ (by omega)).trans ?_
    congr 3
    omega
  split
  · refine (hword 8 _ (by omega)).trans ?_
    congr 3
    omega
  rw [if_pos (by omega)]
  refine (hword 12 _ (by omega)).trans ?_
  congr 3
  omega

theorem register_byte (m : ByteMem) (p : BitVec 32) (csd : BitVec 128) (hi : i < 16) :
    bswap128 (received m p csd) p (p + ofNat 32 i) = csd.extractLsb' (8 * i) 8 := by
  rw [bswap128_byte hi, received_byte (by omega)]
  congr 1
  omega

/-! ## Fields -/

theorem getLsbD_load (hj : j < 32) (h : rf.bitpos / 8 * 8 + j < 128) :
    (load32 (bswap128 (received m p csd) p) (unpackregAddr p rf)).getLsbD j =
      csd.getLsbD (rf.bitpos / 8 * 8 + j) := by
  generalize hm : bswap128 (received m p csd) p = m'
  have hbyte := congrArg (getLsbD · (j % 8)) (extract_load32_byte (m := m')
    (p := unpackregAddr p rf) (show j / 8 < 4 by omega))
  have hreg := congrArg (getLsbD · (j % 8)) (register_byte m p csd
    (show rf.bitpos / 8 + j / 8 < 16 by omega))
  have hplace : unpackregAddr p rf + ofNat 32 (j / 8) =
      p + ofNat 32 (rf.bitpos / 8 + j / 8) := by
    unfold unpackregAddr
    rw [BitVec.add_assoc, ofNat_add]
  rw [hm] at hreg
  rw [hplace, hreg] at hbyte
  have hlt : j % 8 < 8 := Nat.mod_lt _ (by decide)
  simp only [getLsbD_extractLsb', hlt, decide_true, Bool.true_and] at hbyte
  rw [show 8 * (j / 8) + j % 8 = j by omega] at hbyte
  rw [hbyte]
  congr 1
  omega

theorem unpackreg_toNat (hword : rf.bitpos % 8 + rf.bits ≤ 32) (hreg : rf.bitpos + rf.bits ≤ 128)
    (hbits : rf.bits < 32) :
    (unpackreg (bswap128 (received m p csd) p) p rf).toNat = fieldOf csd rf := by
  have hfield : unpackreg (bswap128 (received m p csd) p) p rf =
      (csd.extractLsb' rf.bitpos rf.bits).setWidth 32 := by
    apply eq_of_getLsbD_eq
    intro i hi
    unfold unpackreg
    rw [getLsbD_and, getLsbD_ushiftRight, getLsbD_not, getLsbD_shiftLeft,
      getLsbD_allOnes, getLsbD_setWidth, getLsbD_extractLsb']
    by_cases hin : i < rf.bits
    · rw [getLsbD_load (by omega) (by omega), show rf.bitpos / 8 * 8 + (rf.bitpos % 8 + i) = rf.bitpos + i by
        omega]
      simp [hi, hin]
    · have hlt : i - rf.bits < 32 := by omega
      simp [hi, hin, hlt]
  rw [hfield, toNat_setWidth, Nat.mod_eq_of_lt]
  · rfl
  · exact Nat.lt_of_lt_of_le (isLt _) (Nat.pow_le_pow_right (by decide) (Nat.le_of_lt hbits))

theorem loads_inside_iff (h : rf.bitpos < 128) :
    (∀ a ∈ unpackregLoads p rf, (a - p).toNat < 16) ↔ rf.bitpos < 104 := by
  unfold unpackregLoads unpackregAddr
  simp only [List.mem_cons, List.not_mem_nil, or_false, forall_eq_or_imp, forall_eq]
  have hdist (k : Nat) (hk : k < 4) :
      (p + ofNat 32 (rf.bitpos / 8) + ofNat 32 k - p).toNat = rf.bitpos / 8 + k := by
    bv_omega
  have h0 := hdist 0 (by decide)
  rw [BitVec.add_zero] at h0
  rw [h0, show (1 : BitVec 32) = ofNat 32 1 from rfl, show (2 : BitVec 32) = ofNat 32 2 from rfl,
    show (3 : BitVec 32) = ofNat 32 3 from rfl, hdist 1 (by decide), hdist 2 (by decide),
    hdist 3 (by decide)]
  omega

theorem fieldOf_lt (csd : BitVec 128) (rf : Regfield) : fieldOf csd rf < 2 ^ rf.bits := isLt _

theorem unpackreg_initFields (m : ByteMem) (p : BitVec 32) (csd : BitVec 128) (h : rf ∈ initFields) :
    (unpackreg (bswap128 (received m p csd) p) p rf).toNat = fieldOf csd rf := by
  have hfits : ∀ rf ∈ initFields, rf.bitpos % 8 + rf.bits ≤ 32 ∧ rf.bitpos + rf.bits ≤ 128 ∧ rf.bits < 32 := by
    decide
  obtain ⟨hword, hreg, hbits⟩ := hfits rf h
  exact unpackreg_toNat hword hreg hbits

/-! ## Sizes -/

section Sizes

/-- What `mmcsd_spi_init` stores for a register received. -/
def infoOf (type : CardType) (m : ByteMem) (p : BitVec 32) (csd : BitVec 128) : CardInfo :=
  decodeCsd type (bswap128 (received m p csd) p) p

theorem csdVer_toNat : (infoOf type m p csd).csdVer.toNat = versionOf type csd := by
  have hver := unpackreg_initFields m p csd (show CSD_VER ∈ initFields by decide)
  have hlt := fieldOf_lt csd CSD_VER
  rw [show CSD_VER.bits = 2 from rfl] at hlt
  show (if type = .CT_MMC then (1 : BitVec 8) else _).toNat = _
  unfold versionOf
  split
  · rfl
  · rw [toNat_add, toNat_setWidth, hver]
    show (fieldOf csd CSD_VER % 2 ^ 8 + 1) % 2 ^ 8 = _
    omega

theorem csdVer_eq_one_iff : (infoOf type m p csd).csdVer = 1 ↔ versionOf type csd = 1 := by
  rw [← csdVer_toNat (m := m) (p := p)]
  exact toNat_inj.symm

theorem blocklenRD_toNat : (infoOf type m p csd).blocklenRD.toNat = 2 ^ fieldOf csd READ_BL_LEN := by
  have hfield := unpackreg_initFields m p csd (show READ_BL_LEN ∈ initFields by decide)
  have hlt := fieldOf_lt csd READ_BL_LEN
  rw [show READ_BL_LEN.bits = 4 from rfl] at hlt
  show (((1 : BitVec 32) <<< ((unpackreg _ p READ_BL_LEN).setWidth 8)).setWidth 16).toNat = _
  rw [toNat_setWidth, shiftLeft_eq', toNat_shiftLeft, toNat_setWidth, hfield]
  generalize fieldOf csd READ_BL_LEN = n at hlt
  interval_cases n <;> rfl

theorem blockcount_toNat : (infoOf type m p csd).blockcount.toNat = blocksOf type csd % 2 ^ 32 := by
  have hsize1 := unpackreg_initFields m p csd (show C_SIZE_v1 ∈ initFields by decide)
  have hmult := unpackreg_initFields m p csd (show C_SIZE_MULT ∈ initFields by decide)
  have hsize3 := unpackreg_initFields m p csd (show C_SIZE_v3 ∈ initFields by decide)
  have hlt1 : fieldOf csd C_SIZE_v1 < 2 ^ 12 := fieldOf_lt csd C_SIZE_v1
  have hltm : fieldOf csd C_SIZE_MULT < 2 ^ 3 := fieldOf_lt csd C_SIZE_MULT
  show (if (infoOf type m p csd).csdVer = 1 then _ else _ : BitVec 32).toNat = _
  unfold blocksOf
  by_cases hver : versionOf type csd = 1
  · rw [if_pos (csdVer_eq_one_iff.mpr hver), if_pos hver, toNat_mul]
    congr 2
    · rw [toNat_add, toNat_setWidth, toNat_setWidth, hsize1]
      show (fieldOf csd C_SIZE_v1 % 2 ^ 16 % 2 ^ 32 + 1) % 2 ^ 32 = _
      omega
    · rw [shiftLeft_eq', toNat_shiftLeft, toNat_add, toNat_setWidth,
        toNat_setWidth, hmult]
      generalize fieldOf csd C_SIZE_MULT = n at hltm
      interval_cases n <;> rfl
  · rw [if_neg (mt csdVer_eq_one_iff.mp hver), if_neg hver, toNat_mul, toNat_add, hsize3]
    show (fieldOf csd C_SIZE_v3 + 1) % 2 ^ 32 * 1024 % 2 ^ 32 = _
    omega

theorem capacity_toNat : (infoOf type m p csd).capacity.toNat =
    (infoOf type m p csd).blockcount.toNat * (infoOf type m p csd).blocklenRD.toNat := by
  show ((infoOf type m p csd).blockcount.setWidth 64 * (infoOf type m p csd).blocklenRD.setWidth 64).toNat = _
  have hcount := (infoOf type m p csd).blockcount.isLt
  have hlen := (infoOf type m p csd).blocklenRD.isLt
  have hprod := Nat.mul_lt_mul'' hcount hlen
  rw [toNat_mul, toNat_setWidth, toNat_setWidth,
    Nat.mod_eq_of_lt (show (infoOf type m p csd).blockcount.toNat < 2 ^ 64 by omega),
    Nat.mod_eq_of_lt (show (infoOf type m p csd).blocklenRD.toNat < 2 ^ 64 by omega)]
  exact Nat.mod_eq_of_lt (by omega)

theorem blocksOf_lt_iff : (blocksOf type csd < if versionOf type csd = 1 then 2 ^ 31 else 2 ^ 32) ↔
    (versionOf type csd ≠ 1 → fieldOf csd C_SIZE_v3 ≠ 2 ^ 22 - 1) := by
  have hlt1 : fieldOf csd C_SIZE_v1 < 2 ^ 12 := fieldOf_lt csd C_SIZE_v1
  have hltm : fieldOf csd C_SIZE_MULT < 2 ^ 3 := fieldOf_lt csd C_SIZE_MULT
  have hlt3 : fieldOf csd C_SIZE_v3 < 2 ^ 22 := fieldOf_lt csd C_SIZE_v3
  unfold blocksOf
  by_cases hver : versionOf type csd = 1
  · rw [if_pos hver, if_pos hver]
    have hpow : 2 ^ (fieldOf csd C_SIZE_MULT + 2) ≤ 2 ^ 9 := Nat.pow_le_pow_right (by decide) (by omega)
    have hle := Nat.mul_le_mul (show fieldOf csd C_SIZE_v1 + 1 ≤ 2 ^ 12 by omega) hpow
    exact iff_of_true (by omega) fun h => absurd hver h
  · rw [if_neg hver, if_neg hver]
    omega

theorem blockcount_eq (h : versionOf type csd ≠ 1 → fieldOf csd C_SIZE_v3 ≠ 2 ^ 22 - 1) :
    (infoOf type m p csd).blockcount.toNat = blocksOf type csd := by
  have hlt := blocksOf_lt_iff.mpr h
  rw [blockcount_toNat, Nat.mod_eq_of_lt]
  split at hlt <;> omega

theorem sized_iff : Sized (infoOf type m p csd) type csd ↔
    (versionOf type csd ≠ 1 → fieldOf csd C_SIZE_v3 ≠ 2 ^ 22 - 1) ∧
      (versionOf type csd = 2 → fieldOf csd READ_BL_LEN = 9) := by
  constructor
  · intro hsized
    have hcount := blocksOf_lt_iff.mp hsized.blocks
    refine ⟨hcount, fun hver => ?_⟩
    have hcap := hsized.version2 hver
    rw [capacity_toNat, blockcount_eq hcount, blocklenRD_toNat] at hcap
    unfold blocksOf at hcap
    rw [if_neg (by omega), Nat.mul_assoc] at hcap
    have hpow : 1024 * 2 ^ fieldOf csd READ_BL_LEN = 512 * 1024 :=
      Nat.eq_of_mul_eq_mul_left (Nat.succ_pos _) hcap
    exact Nat.pow_right_injective (Nat.le_refl 2) (show 2 ^ fieldOf csd READ_BL_LEN = 2 ^ 9 by omega)
  · rintro ⟨hcount, hlen⟩
    have hblocks := blockcount_eq (m := m) (p := p) hcount
    refine ⟨fun hver => ?_, fun hver => ?_, capacity_toNat.symm, blocksOf_lt_iff.mpr hcount, ?_⟩
    · rw [capacity_toNat, hblocks, blocklenRD_toNat]
      unfold blocksOf
      rw [if_pos hver]
    · rw [capacity_toNat, hblocks, blocklenRD_toNat, hlen hver]
      unfold blocksOf
      rw [if_neg (by omega), Nat.mul_assoc]
      rfl
    · rw [← capacity_toNat]
      exact isLt _

end Sizes

/-- Exactly which fields are unpacked from the register alone, and for which cards the sizes are right.

The word that is loaded for the version begins with the last byte of the register, so that its other
three bytes are not of the register. The blocks of a card whose size is the biggest one are `2 ^ 32`, and
those of a second version are counted in the length of its own field instead of 512 bytes. -/
theorem decodes_iff (m : ByteMem) (p : BitVec 32) (csd : BitVec 128) (type : CardType) (rf : Regfield)
    (hrf : rf ∈ initFields) :
    (Unpacks (bswap128 (received m p csd) p) p csd rf ↔ rf ≠ CSD_VER) ∧
      (Sized (infoOf type m p csd) type csd ↔
        (versionOf type csd ≠ 1 → fieldOf csd C_SIZE_v3 ≠ 2 ^ 22 - 1) ∧
          (versionOf type csd = 2 → fieldOf csd READ_BL_LEN = 9)) := by
  refine ⟨?_, sized_iff⟩
  have hpos : ∀ rf ∈ initFields, rf.bitpos < 128 ∧ (rf.bitpos < 104 ↔ rf ≠ CSD_VER) := by decide
  obtain ⟨hlt, hver⟩ := hpos rf hrf
  unfold Unpacks
  rw [loads_inside_iff hlt, hver]
  exact and_iff_left (unpackreg_initFields m p csd hrf)

/-- The register of a card of the second version with eight gigabytes. -/
def csdSdhc : BitVec 128 := 0x400e00325b5900003b377f800a400001

theorem decodes_sdhc :
    READ_BL_LEN ∈ initFields ∧ Unpacks (bswap128 (received (fun _ => 0) 0 csdSdhc) 0) 0 csdSdhc READ_BL_LEN ∧
      Sized (infoOf .CT_SDHC (fun _ => 0) 0 csdSdhc) .CT_SDHC csdSdhc := by
  obtain ⟨hfield, hsized⟩ := decodes_iff (fun _ => 0) 0 csdSdhc .CT_SDHC READ_BL_LEN (by decide)
  exact ⟨by decide, hfield.mpr (by decide), hsized.mpr ⟨fun _ => by decide +kernel, fun _ => by decide +kernel⟩⟩

/-- The register of a card of the second version with the biggest size. -/
def csdBiggest : BitVec 128 := 0x400e00325b59003fffff7f800a400001

/-- The version of a card is loaded together with the bytes behind the register, and for the biggest size
a capacity of zero is stored. -/
theorem not_decodes : CSD_VER ∈ initFields ∧ 16 ∈ unpackregLoads 0 CSD_VER ∧
    ¬ Unpacks (bswap128 (received (fun _ => 0) 0 csdSdhc) 0) 0 csdSdhc CSD_VER ∧
    (infoOf .CT_SDHC (fun _ => 0) 0 csdBiggest).capacity = 0 ∧
    ¬ Sized (infoOf .CT_SDHC (fun _ => 0) 0 csdBiggest) .CT_SDHC csdBiggest := by
  have hload : 16 ∈ unpackregLoads 0 CSD_VER := by decide
  have hzero : (infoOf .CT_SDHC (fun _ => 0) 0 csdBiggest).capacity = 0 := by decide +kernel
  refine ⟨by decide, hload, fun hunpacks => ?_, hzero, fun hsized => ?_⟩
  · exact absurd (hunpacks.1 16 hload) (by decide)
  · have hcap := hsized.version2 (by decide +kernel)
    rw [hzero] at hcap
    exact absurd hcap (by decide +kernel)

end Gpmx.Mmcsd
