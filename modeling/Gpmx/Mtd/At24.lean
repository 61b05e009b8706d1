import Gpmx.Infra.Memory
import Mathlib

/-!
# AT24: EEPROM in pages

`gpm/drivers/mtd/at24xx.c`. The device offers blocks that are one page or several. `off_t`, `size_t` and
`int` have 32 bits; sums and products that do not fit wrap. The EEPROM acknowledges every transfer, so
that the loops that wait for it end at once, and takes the address it gets modulo its size.

* `Part` — the parts of the table, with `CONFIG_AT24XX_MTD_BLOCKSIZE`
* `bwrite`, `bread` — `at24c_bwrite` and `at24c_bread`
* `keepsBlocks_iff` — exactly when a write changes only the blocks of the request that are on the device
-/

namespace Gpmx.Mtd.At24

open Infra BitVec Memory
open BitVec (ofNat)

/-- `AT24XX_NPAGES`, `AT24XX_PAGESIZE` and `AT24XX_ADDRSIZE`, in the order of `CONFIG_AT24XX_SIZE`. -/
def table : List (Nat × Nat × Nat) :=
  [(32, 8, 1), (32, 16, 1), (64, 16, 1), (128, 16, 1), (128, 32, 2), (192, 32, 2), (256, 32, 2), (256, 64, 2),
    (512, 64, 2), (512, 128, 2)]

/-- A part, with the pages of a block. The block size is a multiple of the page size, and at least one
block is on the device. An address on the bus leaves its last three bits to the EEPROM. -/
structure Part where
  npages : Nat
  pagesize : Nat
  addrsize : Nat
  factor : Nat
  addr : BitVec 16
  known : (npages, pagesize, addrsize) ∈ table
  factor_pos : 0 < factor
  factor_le : factor ≤ npages
  addr_low : addr &&& 7 = 0

namespace Part

variable (p : Part)

def size : Nat := p.npages * p.pagesize

def blocksize : Nat := p.factor * p.pagesize

def nblocks : Nat := p.npages / p.factor

/-- `at24addr`, and the address bytes in `buf`. -/
def sent (offset : BitVec 32) : BitVec 16 × List (BitVec 8) :=
  if p.addrsize = 2 then (p.addr, [offset.extractLsb' 8 8, offset.extractLsb' 0 8])
  else (p.addr ||| ((offset >>> 8) &&& 7).setWidth 16, [offset.extractLsb' 0 8])

def cell (at24addr : BitVec 16) (bytes : List (BitVec 8)) : Nat :=
  match bytes with
  | [high, low] => (high.toNat * 256 + low.toNat) % p.size
  | [low] => ((at24addr &&& 7).toNat * 256 + low.toNat) % p.size
  | _ => 0

def cellOf (offset : BitVec 32) : Nat := p.cell (p.sent offset).1 (p.sent offset).2

/-- The loop of `at24c_bwrite`, with `buffer` at `pos`. The offset of a page is a `uint16_t`. -/
def writeLoop (buffer : Memory UInt8) (m : Memory UInt8) (startblock : BitVec 32) (pos : Nat) :
    (blocksleft : Nat) → Memory UInt8
  | 0 => m
  | blocksleft + 1 =>
    let offset := ((startblock * BitVec.ofNat 32 p.pagesize).setWidth 16).setWidth 32
    let m := m.write (p.cellOf offset) (buffer.read pos p.pagesize)
    writeLoop buffer m (startblock + 1) (pos + p.pagesize) blocksleft

/-- `nblocks`, once it does not reach past the end. -/
def clamp (startblock nblocks : BitVec 32) : BitVec 32 :=
  if startblock + nblocks > BitVec.ofNat 32 p.npages then BitVec.ofNat 32 p.npages - startblock else nblocks

/-- `at24c_bwrite`: what it returns, and the EEPROM afterwards. -/
def bwrite (m : Memory UInt8) (startblock nblocks : BitVec 32) (buffer : Memory UInt8) :
    BitVec 32 × Memory UInt8 :=
  let startblock := startblock * BitVec.ofNat 32 p.factor
  let nblocks := nblocks * BitVec.ofNat 32 p.factor
  let blocksleft := nblocks
  if (BitVec.ofNat 32 p.npages).sle startblock then (0, m)
  else
    let nblocks := p.clamp startblock nblocks
    (nblocks / BitVec.ofNat 32 p.factor, p.writeLoop buffer m startblock 0 blocksleft.toNat)

/-- The loop of `at24c_bread`. -/
def readLoop (m : Memory UInt8) (offset : BitVec 32) : (nblocks : Nat) → List UInt8
  | 0 => []
  | nblocks + 1 =>
    m.read (p.cellOf offset) p.pagesize ++ readLoop m (offset + BitVec.ofNat 32 p.pagesize) nblocks

/-- `at24c_bread`: what it returns, and the bytes it stores. -/
def bread (m : Memory UInt8) (startblock nblocks : BitVec 32) : BitVec 32 × List UInt8 :=
  let startblock := startblock * BitVec.ofNat 32 p.factor
  let nblocks := nblocks * BitVec.ofNat 32 p.factor
  if (BitVec.ofNat 32 p.npages).sle startblock then (0, [])
  else
    let nblocks := p.clamp startblock nblocks
    (nblocks / BitVec.ofNat 32 p.factor,
      p.readLoop m (startblock * BitVec.ofNat 32 p.pagesize) nblocks.toNat)

end Part

/-! ## Addresses -/

variable {p : Part} {m buffer : Memory UInt8} {start n : BitVec 32}

theorem Part.bounds (p : Part) : 32 ≤ p.npages ∧ p.npages ≤ 512 ∧ 8 ≤ p.pagesize ∧ p.pagesize ≤ 128 ∧
    p.size ≤ 65536 ∧ (p.addrsize ≠ 2 → p.size ≤ 2048) := by
  have htable : ∀ t ∈ table, 32 ≤ t.1 ∧ t.1 ≤ 512 ∧ 8 ≤ t.2.1 ∧ t.2.1 ≤ 128 ∧ t.1 * t.2.1 ≤ 65536 ∧
      (t.2.2 ≠ 2 → t.1 * t.2.1 ≤ 2048) := by decide
  exact htable _ p.known

theorem Part.size_pos (p : Part) : 0 < p.size := by
  obtain ⟨hpages, -, hsize, -⟩ := p.bounds
  exact Nat.mul_pos (by omega) (by omega)

theorem toNat_extract_low (offset : BitVec 32) : (offset.extractLsb' 0 8).toNat = offset.toNat % 256 := by
  rw [extractLsb'_toNat, Nat.shiftRight_zero]

theorem toNat_extract_high (offset : BitVec 32) :
    (offset.extractLsb' 8 8).toNat = offset.toNat / 256 % 256 := by
  rw [extractLsb'_toNat, Nat.shiftRight_eq_div_pow]

theorem toNat_and_seven (x : BitVec 32) : (x &&& 7).toNat = x.toNat % 8 := by
  rw [toNat_and]
  exact Nat.and_two_pow_sub_one_eq_mod x.toNat 3

theorem or_and_seven {addr x : BitVec 16} (haddr : addr &&& 7 = 0) (hx : x.toNat < 8) :
    ((addr ||| x) &&& 7).toNat = x.toNat := by
  have hlow : (x &&& (7 : BitVec 16)).toNat = x.toNat := by
    rw [toNat_and]
    exact (Nat.and_two_pow_sub_one_eq_mod x.toNat 3).trans (Nat.mod_eq_of_lt hx)
  rw [and_or_distrib_right, haddr, toNat_or, hlow]
  exact Nat.zero_or x.toNat

theorem cellOf_eq (p : Part) (offset : BitVec 32) :
    p.cellOf offset = offset.toNat % (if p.addrsize = 2 then 65536 else 2048) % p.size := by
  unfold Part.cellOf Part.sent Part.cell
  by_cases h2 : p.addrsize = 2
  · rw [if_pos h2, if_pos h2]
    dsimp only
    rw [toNat_extract_low, toNat_extract_high]
    congr 1
    omega
  · rw [if_neg h2, if_neg h2]
    dsimp only
    have hbits : (((offset >>> 8) &&& 7).setWidth 16).toNat = offset.toNat / 256 % 8 := by
      rw [toNat_setWidth, toNat_and_seven, toNat_ushiftRight, Nat.shiftRight_eq_div_pow]
      omega
    rw [or_and_seven p.addr_low (by omega), hbits, toNat_extract_low]
    congr 1
    omega

theorem cellOf_of_lt {offset : BitVec 32} (h : offset.toNat < p.size) : p.cellOf offset = offset.toNat := by
  obtain ⟨-, -, -, -, hsize, hsmall⟩ := p.bounds
  have hmod : offset.toNat % (if p.addrsize = 2 then 65536 else 2048) = offset.toNat := by
    split
    · exact Nat.mod_eq_of_lt (by omega)
    · next h2 => exact Nat.mod_eq_of_lt (Nat.lt_of_lt_of_le h (hsmall h2))
  rw [cellOf_eq, hmod, Nat.mod_eq_of_lt h]

theorem cellOf_lt (p : Part) (offset : BitVec 32) : p.cellOf offset < p.size := by
  rw [cellOf_eq]
  exact Nat.mod_lt _ p.size_pos

/-! ## The loops -/

theorem mul_pagesize_toNat (page : BitVec 32) (h : page.toNat < p.npages) :
    (page * ofNat 32 p.pagesize).toNat = page.toNat * p.pagesize ∧
      page.toNat * p.pagesize + p.pagesize ≤ p.size := by
  obtain ⟨-, -, -, hpagesize, hsize, -⟩ := p.bounds
  have hle : page.toNat * p.pagesize + p.pagesize ≤ p.size := by
    have hmul := Nat.mul_le_mul_right p.pagesize (show page.toNat + 1 ≤ p.npages from h)
    rw [Nat.succ_mul] at hmul
    exact hmul
  refine ⟨?_, hle⟩
  rw [toNat_mul, toNat_ofNat, Nat.mod_eq_of_lt (show p.pagesize < 2 ^ 32 by omega),
    Nat.mod_eq_of_lt (by omega)]

theorem add_one_toNat (page : BitVec 32) (h : page.toNat < p.npages) :
    (page + 1).toNat = page.toNat + 1 := by
  obtain ⟨-, hpages, -⟩ := p.bounds
  rw [toNat_add]
  exact Nat.mod_eq_of_lt (show page.toNat + 1 < 2 ^ 32 by omega)

theorem writeLoop_inside (buffer m : Memory UInt8) (page : BitVec 32) (pos count : Nat)
    (h : page.toNat + count ≤ p.npages) :
    p.writeLoop buffer m page pos count =
      m.write (page.toNat * p.pagesize) (buffer.read pos (count * p.pagesize)) := by
  induction count generalizing m page pos with
  | zero =>
    rw [Nat.zero_mul]
    exact (write_nil m _).symm
  | succ count ih =>
    obtain ⟨hoffset, hle⟩ := mul_pagesize_toNat (p := p) page (by omega)
    obtain ⟨-, -, hpos, -, hsize, -⟩ := p.bounds
    have hcell : p.cellOf (((page * ofNat 32 p.pagesize).setWidth 16).setWidth 32) =
        page.toNat * p.pagesize := by
      have hsame : (((page * ofNat 32 p.pagesize).setWidth 16).setWidth 32).toNat =
          page.toNat * p.pagesize := by
        rw [toNat_setWidth, toNat_setWidth, hoffset]
        omega
      rw [cellOf_of_lt (by omega), hsame]
    have hnext := add_one_toNat (p := p) page (by omega)
    unfold Part.writeLoop
    dsimp only
    rw [hcell, ih _ _ _ (by omega), hnext, Nat.succ_mul count, Nat.add_comm (count * p.pagesize),
      read_append, write_append, length_read, Nat.succ_mul]

theorem writeLoop_succ (buffer m : Memory UInt8) (page : BitVec 32) (pos count : Nat) :
    ∃ offset, p.writeLoop buffer m page pos (count + 1) =
      (p.writeLoop buffer m page pos count).write (p.cellOf offset)
        (buffer.read (pos + count * p.pagesize) p.pagesize) := by
  induction count generalizing m page pos with
  | zero =>
    refine ⟨((page * ofNat 32 p.pagesize).setWidth 16).setWidth 32, ?_⟩
    rw [Nat.zero_mul]
    rfl
  | succ count ih =>
    obtain ⟨offset, hlast⟩ := ih _ (page + 1) (pos + p.pagesize)
    refine ⟨offset, Eq.trans hlast ?_⟩
    rw [Nat.succ_mul, Nat.add_assoc, Nat.add_comm p.pagesize]
    rfl

theorem readLoop_inside (m : Memory UInt8) (page : Nat) (offset : BitVec 32) (count : Nat)
    (hoffset : offset.toNat = page * p.pagesize) (h : page + count ≤ p.npages) :
    p.readLoop m offset count = m.read (page * p.pagesize) (count * p.pagesize) := by
  induction count generalizing page offset with
  | zero =>
    rw [Nat.zero_mul]
    rfl
  | succ count ih =>
    obtain ⟨-, -, hpos, hpagesize, hsize, -⟩ := p.bounds
    have hle : page * p.pagesize + p.pagesize ≤ p.size := by
      have hmul := Nat.mul_le_mul_right p.pagesize (show page + 1 ≤ p.npages by omega)
      rw [Nat.succ_mul] at hmul
      exact hmul
    have hnext : (offset + ofNat 32 p.pagesize).toNat = (page + 1) * p.pagesize := by
      rw [toNat_add, toNat_ofNat, Nat.mod_eq_of_lt (show p.pagesize < 2 ^ 32 by omega),
        Nat.mod_eq_of_lt (by omega), hoffset, Nat.succ_mul]
    unfold Part.readLoop
    rw [cellOf_of_lt (by omega), hoffset, ih (page + 1) _ hnext (by omega), Nat.succ_mul count,
      Nat.add_comm (count * p.pagesize), read_append, Nat.succ_mul]

/-! ## Requests -/

namespace Part

variable (p : Part)

def firstPage (start : BitVec 32) : Int := (start * BitVec.ofNat 32 p.factor).toInt

def inside (start n : BitVec 32) : Nat := min n.toNat (p.nblocks - start.toNat)

/-- A write returns the number of blocks that are on the device and changes these blocks only, and a read
of the same request gives them back. -/
structure KeepsBlocks (start n : BitVec 32) (m buffer : Memory UInt8) : Prop where
  count : (p.bwrite m start n buffer).1.toNat = p.inside start n
  written : ∀ i < p.size, (p.bwrite m start n buffer).2 i =
    if start.toNat * p.blocksize ≤ i ∧ i < (start.toNat + p.inside start n) * p.blocksize then
      buffer (i - start.toNat * p.blocksize)
    else m i
  readCount : (p.bread (p.bwrite m start n buffer).2 start n).1.toNat = p.inside start n
  readBytes : (p.bread (p.bwrite m start n buffer).2 start n).2 =
    buffer.read 0 (p.inside start n * p.blocksize)

end Part

theorem factor_toNat (p : Part) : (ofNat 32 p.factor).toNat = p.factor := by
  obtain ⟨-, hpages, -⟩ := p.bounds
  have hle := p.factor_le
  rw [toNat_ofNat, Nat.mod_eq_of_lt (by omega)]

theorem npages_toNat (p : Part) : (ofNat 32 p.npages).toNat = p.npages := by
  obtain ⟨-, hpages, -⟩ := p.bounds
  rw [toNat_ofNat, Nat.mod_eq_of_lt (by omega)]

theorem nblocks_mul_le (p : Part) : p.nblocks * p.factor ≤ p.npages := Nat.div_mul_le_self _ _

theorem sle_iff (p : Part) (start : BitVec 32) :
    (ofNat 32 p.npages).sle (start * ofNat 32 p.factor) ↔ (p.npages : Int) ≤ p.firstPage start := by
  obtain ⟨-, hpages, -⟩ := p.bounds
  rw [sle_iff_toInt_le, toInt_eq_toNat_of_lt (by rw [npages_toNat]; omega), npages_toNat]
  rfl

theorem pages_toNat (hbuffer : n.toNat * p.blocksize < 2 ^ 32) :
    (n * ofNat 32 p.factor).toNat = n.toNat * p.factor := by
  obtain ⟨-, -, hpos, -⟩ := p.bounds
  have hle : n.toNat * p.factor ≤ n.toNat * p.blocksize :=
    Nat.mul_le_mul_left _ (Nat.le_mul_of_pos_right _ (by omega))
  rw [toNat_mul, factor_toNat, Nat.mod_eq_of_lt (by omega)]

theorem inside_eq_zero (h : p.npages ≤ start.toNat * p.factor) : p.inside start n = 0 := by
  have hle : p.nblocks ≤ start.toNat := by
    exact (Nat.div_le_iff_le_mul_add_pred p.factor_pos).mpr (by rw [Nat.mul_comm]; omega)
  unfold Part.inside
  omega

theorem firstPage_le (start : BitVec 32) : p.firstPage start ≤ (start.toNat * p.factor : Nat) := by
  unfold Part.firstPage
  have hle : (start * ofNat 32 p.factor).toNat ≤ start.toNat * p.factor := by
    rw [toNat_mul, factor_toNat]
    exact Nat.mod_le _ _
  rw [toInt_eq_toNat_cond]
  split <;> omega

theorem keepsBlocks_behind (h : (p.npages : Int) ≤ p.firstPage start) (m buffer : Memory UInt8) :
    p.KeepsBlocks start n m buffer := by
  have hpage := firstPage_le (p := p) start
  have hinside : p.inside start n = 0 := inside_eq_zero (by omega)
  have hsle := (sle_iff p start).mpr h
  have hwrite : p.bwrite m start n buffer = (0, m) := if_pos hsle
  have hread : p.bread m start n = (0, []) := if_pos hsle
  refine ⟨?_, fun i _ => ?_, ?_, ?_⟩
  · rw [hwrite, hinside]
    rfl
  · rw [hwrite, hinside, if_neg (by rw [Nat.add_zero]; omega)]
  · rw [hwrite, hread, hinside]
    rfl
  · rw [hwrite, hread, hinside, Nat.zero_mul]
    rfl

theorem request_inside (hpage : start.toNat * p.factor < p.npages)
    (hend : start.toNat + n.toNat ≤ p.nblocks) (m buffer : Memory UInt8) :
    p.bwrite m start n buffer = (n, m.write (start.toNat * p.blocksize) (buffer.read 0 (n.toNat * p.blocksize))) ∧
      p.bread m start n = (n, m.read (start.toNat * p.blocksize) (n.toNat * p.blocksize)) := by
  obtain ⟨-, hpages, -, -, hsize, -⟩ := p.bounds
  have hblocks := nblocks_mul_le p
  have hfits : (start.toNat + n.toNat) * p.factor ≤ p.npages :=
    Nat.le_trans (Nat.mul_le_mul_right _ hend) hblocks
  rw [Nat.add_mul] at hfits
  have hstart : (start * ofNat 32 p.factor).toNat = start.toNat * p.factor := by
    rw [toNat_mul, factor_toNat, Nat.mod_eq_of_lt (by omega)]
  have hcount : (n * ofNat 32 p.factor).toNat = n.toNat * p.factor := by
    rw [toNat_mul, factor_toNat, Nat.mod_eq_of_lt (by omega)]
  have hsle : ¬ (ofNat 32 p.npages).sle (start * ofNat 32 p.factor) := by
    rw [sle_iff]
    have hle := firstPage_le (p := p) start
    omega
  have hclamp : p.clamp (start * ofNat 32 p.factor) (n * ofNat 32 p.factor) =
      n * ofNat 32 p.factor := by
    refine if_neg fun hgt => ?_
    rw [gt_iff_lt, lt_def, npages_toNat, toNat_add, hstart, hcount,
      Nat.mod_eq_of_lt (by omega)] at hgt
    omega
  have hquot : n * ofNat 32 p.factor / ofNat 32 p.factor = n := by
    apply eq_of_toNat_eq
    rw [toNat_udiv, hcount, factor_toNat, Nat.mul_div_cancel _ p.factor_pos]
  have hbytes (k : Nat) : k * p.factor * p.pagesize = k * p.blocksize := Nat.mul_assoc ..
  constructor
  · unfold Part.bwrite
    dsimp only
    rw [if_neg hsle, hclamp, hquot, writeLoop_inside _ _ _ _ _ (by omega), hstart, hcount, hbytes, hbytes]
  · obtain ⟨hoffset, -⟩ := mul_pagesize_toNat (p := p) (start * ofNat 32 p.factor) (by omega)
    unfold Part.bread
    dsimp only
    rw [if_neg hsle, hclamp, hquot, readLoop_inside m _ _ _ hoffset (by omega), hstart, hcount, hbytes, hbytes]

theorem keepsBlocks_inside (hpage : start.toNat * p.factor < p.npages)
    (hend : start.toNat + n.toNat ≤ p.nblocks) (m buffer : Memory UInt8) : p.KeepsBlocks start n m buffer := by
  obtain ⟨hwrite, -⟩ := request_inside hpage hend m buffer
  have hinside : p.inside start n = n.toNat := by
    unfold Part.inside
    omega
  have hlen : (buffer.read 0 (n.toNat * p.blocksize)).length = n.toNat * p.blocksize := length_read ..
  refine ⟨?_, fun i _ => ?_, ?_, ?_⟩
  · rw [hwrite, hinside]
  · rw [hwrite, hinside, Nat.add_mul]
    dsimp only
    split
    · next hin =>
      rw [write_of_mem hin.1 (by omega), getElem_read, Nat.zero_add]
    · next hout => exact write_of_not_mem (by omega)
  · rw [hwrite, (request_inside hpage hend _ buffer).2, hinside]
  · rw [hwrite, (request_inside hpage hend _ buffer).2, hinside]
    have hback := read_write_self m (start.toNat * p.blocksize) (buffer.read 0 (n.toNat * p.blocksize))
    rwa [hlen] at hback

theorem keepsBlocks_empty (hn : n = 0) (hpos : 0 ≤ p.firstPage start)
    (hlt : p.firstPage start < (p.npages : Int)) (m buffer : Memory UInt8) : p.KeepsBlocks start n m buffer := by
  subst hn
  have hsle : ¬ (ofNat 32 p.npages).sle (start * ofNat 32 p.factor) := by
    rw [sle_iff]
    omega
  have hzero : (0 : BitVec 32) * ofNat 32 p.factor = 0 := zero_mul
  have hpage : (start * ofNat 32 p.factor).toNat < p.npages := by
    unfold Part.firstPage at hpos hlt
    rw [toInt_eq_toNat_cond] at hpos hlt
    split at hpos <;> omega
  have hclamp : p.clamp (start * ofNat 32 p.factor) 0 = 0 := by
    refine if_neg fun hgt => ?_
    have hadd : start * ofNat 32 p.factor + 0 = start * ofNat 32 p.factor := BitVec.add_zero _
    rw [gt_iff_lt, lt_def, npages_toNat, hadd] at hgt
    omega
  have hquot : (0 : BitVec 32) / ofNat 32 p.factor = 0 := zero_udiv
  have hinside : p.inside start 0 = 0 := Nat.zero_min _
  have hwrite : p.bwrite m start 0 buffer = (0, m) := by
    unfold Part.bwrite
    dsimp only
    rw [if_neg hsle, hzero, hclamp, hquot]
    rfl
  have hread : p.bread m start 0 = (0, []) := by
    unfold Part.bread
    dsimp only
    rw [if_neg hsle, hzero, hclamp, hquot]
    rfl
  refine ⟨?_, fun i _ => ?_, ?_, ?_⟩
  · rw [hwrite, hinside]
    rfl
  · rw [hwrite, hinside, if_neg (by rw [Nat.add_zero]; omega)]
  · rw [hwrite, hread, hinside]
    rfl
  · rw [hwrite, hread, hinside, Nat.zero_mul]
    rfl

theorem not_keepsBlocks_negative (hneg : p.firstPage start < 0) (hbuffer : n.toNat * p.blocksize < 2 ^ 32)
    (m buffer : Memory UInt8) : ¬ p.KeepsBlocks start n m buffer := by
  intro h
  obtain ⟨-, hpages, -⟩ := p.bounds
  have hfactor := p.factor_le
  have hlt := (start * ofNat 32 p.factor).isLt
  have hbig : 2 ^ 31 ≤ (start * ofNat 32 p.factor).toNat := by
    unfold Part.firstPage at hneg
    rw [toInt_eq_toNat_cond] at hneg
    split at hneg <;> omega
  have hinside : p.inside start n = 0 := by
    refine inside_eq_zero ?_
    rw [toNat_mul, factor_toNat] at hbig
    have hle := Nat.mod_le (start.toNat * p.factor) (2 ^ 32)
    omega
  have hsle : ¬ (ofNat 32 p.npages).sle (start * ofNat 32 p.factor) := by
    rw [sle_iff]
    omega
  have hcount := h.count
  have hpagesn := pages_toNat (p := p) hbuffer
  unfold Part.bwrite at hcount
  rw [if_neg hsle, hinside] at hcount
  rw [toNat_udiv, factor_toNat] at hcount
  -- at least one block is counted
  have hge : p.factor ≤
      (p.clamp (start * ofNat 32 p.factor) (n * ofNat 32 p.factor)).toNat := by
    unfold Part.clamp
    generalize start * ofNat 32 p.factor = page at hlt hbig
    generalize hpn : n * ofNat 32 p.factor = pages at hpagesn
    split
    · rw [toNat_sub, npages_toNat]
      omega
    · next hle =>
      rw [gt_iff_lt, lt_def, npages_toNat, toNat_add] at hle
      have hpagespos : 0 < n.toNat * p.factor := by
        by_contra hzero
        rw [hpagesn, show n.toNat * p.factor = 0 by omega] at hle
        omega
      rw [hpagesn]
      exact Nat.le_mul_of_pos_left _ (Nat.pos_of_mul_pos_right hpagespos)
  have hone := Nat.div_pos hge p.factor_pos
  omega

theorem not_keepsBlocks_over (hlt : p.firstPage start < (p.npages : Int))
    (hn : n ≠ 0) (hover : p.nblocks < start.toNat + n.toNat) (hbuffer : n.toNat * p.blocksize < 2 ^ 32) :
    ∃ m buffer, ¬ p.KeepsBlocks start n m buffer := by
  obtain ⟨-, -, hpagesize, -⟩ := p.bounds
  have hfactor := p.factor_pos
  have hpos' : 0 < n.toNat := by
    refine Nat.pos_of_ne_zero fun hzero => hn (eq_of_toNat_eq hzero)
  obtain ⟨count, hcount⟩ : ∃ count, n.toNat * p.factor = count + 1 :=
    Nat.exists_eq_succ_of_ne_zero (Nat.ne_of_gt (Nat.mul_pos hpos' hfactor))
  refine ⟨fun _ => 0, fun i => if i = count * p.pagesize then 1 else 0, fun h => ?_⟩
  have hsle : ¬ (ofNat 32 p.npages).sle (start * ofNat 32 p.factor) := by
    rw [sle_iff]
    omega
  obtain ⟨offset, hlast⟩ := writeLoop_succ (p := p) (fun i => if i = count * p.pagesize then 1 else 0)
    (fun _ => 0) (start * ofNat 32 p.factor) 0 count
  have hcell := h.written (p.cellOf offset) (cellOf_lt p offset)
  unfold Part.bwrite at hcell
  rw [if_neg hsle] at hcell
  dsimp only at hcell
  rw [pages_toNat hbuffer, hcount, hlast, Nat.zero_add, write_of_mem (Nat.le_refl _)
    (by rw [length_read]; omega), getElem_read, Nat.sub_self, Nat.add_zero, if_pos rfl] at hcell
  -- no block of the request that is on the device has the last page of the buffer
  have hbefore : p.inside start n * p.blocksize ≤ count * p.pagesize := by
    have hless : p.inside start n + 1 ≤ n.toNat := by
      unfold Part.inside
      omega
    have hmul := Nat.mul_le_mul_right p.factor hless
    rw [Nat.succ_mul, hcount] at hmul
    calc p.inside start n * p.blocksize = p.inside start n * p.factor * p.pagesize := (Nat.mul_assoc ..).symm
      _ ≤ count * p.pagesize := Nat.mul_le_mul_right _ (by omega)
  split at hcell
  · next hin =>
    rw [Nat.add_mul] at hin
    rw [if_neg (by omega)] at hcell
    cases hcell
  · cases hcell

/-- **Exactly when a write changes only the blocks of the request that are on the device.**

The loop of `at24c_bwrite` runs over all blocks of the request, also where fewer are returned: what is behind
the end goes to the beginning. The first page is computed in 32 bits with a sign; a request that begins so
far behind the end that it wraps is taken for another one. -/
theorem keepsBlocks_iff (p : Part) (start n : BitVec 32) (hbuffer : n.toNat * p.blocksize < 2 ^ 32) :
    (∀ m buffer, p.KeepsBlocks start n m buffer) ↔
      (p.npages : Int) ≤ p.firstPage start ∨
        (0 ≤ p.firstPage start ∧ (n = 0 ∨ start.toNat + n.toNat ≤ p.nblocks)) := by
  by_cases hbehind : (p.npages : Int) ≤ p.firstPage start
  · exact iff_of_true (keepsBlocks_behind hbehind) (.inl hbehind)
  have hlt : p.firstPage start < (p.npages : Int) := by omega
  constructor
  · intro h
    refine .inr ⟨?_, ?_⟩
    · by_contra hneg
      exact not_keepsBlocks_negative (by omega) hbuffer (fun _ => 0) (fun _ => 0) (h _ _)
    · by_contra hover
      obtain ⟨hn, hend⟩ := not_or.mp hover
      obtain ⟨m, buffer, hnot⟩ := not_keepsBlocks_over hlt hn (by omega) hbuffer
      exact hnot (h m buffer)
  · rintro (h | ⟨hpos, hn | hend⟩)
    · exact absurd h hbehind
    · exact keepsBlocks_empty hn hpos hlt
    · by_cases hn : n = 0
      · exact keepsBlocks_empty hn hpos hlt
      · have hpos' : 0 < n.toNat := Nat.pos_of_ne_zero fun hzero => hn (eq_of_toNat_eq hzero)
        refine keepsBlocks_inside ?_ hend
        calc start.toNat * p.factor < p.nblocks * p.factor :=
              Nat.mul_lt_mul_of_pos_right (by omega) p.factor_pos
          _ ≤ p.npages := nblocks_mul_le p

def at24c02 : Part where
  npages := 32
  pagesize := 8
  addrsize := 1
  factor := 1
  addr := 0x50
  known := by decide
  factor_pos := by decide
  factor_le := by decide
  addr_low := by decide

theorem keepsBlocks_end : (2 : BitVec 32).toNat * at24c02.blocksize < 2 ^ 32 ∧
    ∀ m buffer, at24c02.KeepsBlocks 30 2 m buffer :=
  ⟨by decide, (keepsBlocks_iff at24c02 30 2 (by decide)).mpr (.inr ⟨by decide, .inr (by decide)⟩)⟩

/-- Two blocks from the last one on: the second one goes to the first block of the device. -/
theorem not_keepsBlocks :
    (at24c02.bwrite (fun _ => 0) 31 2 fun _ => 1).1 = 1 ∧ (at24c02.bwrite (fun _ => 0) 31 2 fun _ => 1).2 0 = 1 ∧
      ¬ at24c02.KeepsBlocks 31 2 (fun _ => 0) fun _ => 1 := by
  have hfirst : (at24c02.bwrite (fun _ => 0) 31 2 fun _ => 1).2 0 = 1 := by decide
  refine ⟨by decide, hfirst, fun h => ?_⟩
  exact absurd ((h.written 0 (by decide)).symm.trans hfirst) (by decide)

end Gpmx.Mtd.At24
