import Gpmx.Mtd.Partition
import Mathlib

/-!
# FTL: a block driver over flash

`gpm/drivers/mtd/ftl.c`. Flash is written in read/write blocks but erased in erase blocks of
`blkper` read/write blocks each, and only an erased block may be written. FTL hides this: to
write part of an erase block it reads the whole block, erases it, and writes it back changed.

Block numbers are `off_t`, 32 bits wide, and stay inside the device, so they are naturals here.
The two masks `& mask` and `& ~mask` are taken on 32-bit words, as in the source. Byte counts
within one erase block are smaller than `erasesize`, an `uint32_t`.
-/

namespace Gpmx.Mtd

open Infra

/-! ## The flash below -/

/--
A flash device whose calls succeed.

`erased` has one entry for each read/write block: it has been erased and not been written
since. A call is `none` when it leaves the device or writes a block that is not erased.
-/
structure Flash where
  geo : Geometry
  erasedValue : UInt8
  cells : Memory UInt8
  erased : Memory Bool

namespace Flash

def nblocks (mtd : Flash) : Nat := mtd.geo.neraseblocks * (mtd.geo.erasesize / mtd.geo.blocksize)

/-- Read/write block `b`. -/
def block (mtd : Flash) (b : Nat) : List UInt8 :=
  mtd.cells.read (b * mtd.geo.blocksize) mtd.geo.blocksize

def erase (mtd : Flash) (eraseblock : Nat) : Option Flash :=
  if eraseblock < mtd.geo.neraseblocks then
    let blkper := mtd.geo.erasesize / mtd.geo.blocksize
    some { mtd with
      cells := mtd.cells.write (eraseblock * mtd.geo.erasesize)
        (List.replicate mtd.geo.erasesize mtd.erasedValue)
      erased := mtd.erased.write (eraseblock * blkper) (List.replicate blkper true) }
  else none

/-- `MTD_BREAD`: the bytes of `n` blocks. -/
def bread (mtd : Flash) (startblock n : Nat) : Option (List UInt8) :=
  if startblock + n ≤ mtd.nblocks then
    some (mtd.cells.read (startblock * mtd.geo.blocksize) (n * mtd.geo.blocksize))
  else none

/-- `MTD_BWRITE`: write `n` blocks, all of them erased. -/
def bwrite (mtd : Flash) (startblock n : Nat) (bytes : List UInt8) : Option Flash :=
  if startblock + n ≤ mtd.nblocks ∧ mtd.erased.read startblock n = List.replicate n true then
    some { mtd with
      cells := mtd.cells.write (startblock * mtd.geo.blocksize) bytes
      erased := mtd.erased.write startblock (List.replicate n false) }
  else none

end Flash

/-! ## The driver -/

/-- `struct ftl_struct_s`, without the fields for open and unlink. -/
structure FtlStruct where
  mtd : Flash
  blkper : Nat
  /-- one erase block in memory, once it is allocated -/
  eblock : Option (Memory UInt8)

/-- The device `ftl_initialize_by_path` sets up; `blkper` is an `uint16_t`. -/
def ftlInitialize (mtd : Flash) : FtlStruct :=
  { mtd, blkper := mtd.geo.erasesize / mtd.geo.blocksize % 2 ^ 16, eblock := none }

/-- `x & mask` on `off_t` -/
def maskLow (x mask : Nat) : Nat := (BitVec.ofNat 32 x &&& BitVec.ofNat 32 mask).toNat

/-- `x & ~mask` on `off_t` -/
def maskHigh (x mask : Nat) : Nat := (BitVec.ofNat 32 x &&& ~~~BitVec.ofNat 32 mask).toNat

/-- `ftl_alloc_eblock`, where `heap` is what `kmm_malloc(erasesize)` gives. -/
def ftlAllocEblock (heap : Option (Memory UInt8)) (dev : FtlStruct) : FtlStruct :=
  match dev.eblock with
  | none => { dev with eblock := heap }
  | some _ => dev

/--
Read erase block `rwblock` into the buffer, erase it, copy `bytes` over the buffer from `offset`
on and write it back. Both partial transfers of `ftl_flush` do this.
-/
def ftlRewrite (dev : FtlStruct) (eblock : Memory UInt8) (rwblock offset : Nat)
    (bytes : List UInt8) : Option FtlStruct := do
  let old ← dev.mtd.bread rwblock dev.blkper
  let mtd ← dev.mtd.erase (rwblock / dev.blkper)
  let eblock := (eblock.write 0 old).write offset bytes
  let mtd ← mtd.bwrite rwblock dev.blkper (eblock.read 0 (dev.blkper * mtd.geo.blocksize))
  some { dev with mtd := mtd, eblock := some eblock }

def ftlFlushTail (heap : Option (Memory UInt8)) (dev : FtlStruct) (buffer : Memory UInt8)
    (pos alignedblock remaining nblocks : Nat) : Option (Int × FtlStruct) :=
  if remaining > 0 then
    let dev := ftlAllocEblock heap dev
    match dev.eblock with
    | none => some (-ENOMEM, dev)
    | some eblock => do
      let nbytes := remaining * dev.mtd.geo.blocksize
      let dev ← ftlRewrite dev eblock alignedblock 0 (buffer.read pos nbytes)
      some (nblocks, dev)
  else some (nblocks, dev)

/--
The whole erase blocks, and then the tail. `pos` is how far `buffer` has moved on. The loop
ends for every `blkper` but 0; `fuel` bounds its passes.
-/
def ftlFlushMiddle (heap : Option (Memory UInt8)) (buffer : Memory UInt8) (nblocks : Nat) :
    Nat → FtlStruct → Nat → Nat → Nat → Option (Int × FtlStruct)
  | 0, _, _, _, _ => none
  | fuel + 1, dev, pos, alignedblock, remaining =>
    if remaining ≥ dev.blkper then do
      let mtd ← dev.mtd.erase (alignedblock / dev.blkper)
      let mtd ← mtd.bwrite alignedblock dev.blkper
        (buffer.read pos (dev.blkper * mtd.geo.blocksize))
      ftlFlushMiddle heap buffer nblocks fuel { dev with mtd := mtd } (pos + mtd.geo.erasesize)
        (alignedblock + dev.blkper) (remaining - dev.blkper)
    else ftlFlushTail heap dev buffer pos alignedblock remaining nblocks

/-- `ftl_flush`: the return value and the device. -/
def ftlFlush (heap : Option (Memory UInt8)) (dev : FtlStruct) (buffer : Memory UInt8)
    (startblock nblocks : Nat) : Option (Int × FtlStruct) :=
  let mask := dev.blkper - 1
  let alignedblock := maskHigh (startblock + mask) mask
  if alignedblock > startblock then
    let shortWrite := decide (nblocks < alignedblock - startblock)
    let dev := ftlAllocEblock heap dev
    match dev.eblock with
    | none => some (-ENOMEM, dev)
    | some eblock => do
      let offset := maskLow startblock mask * dev.mtd.geo.blocksize
      let nbytes :=
        if shortWrite then nblocks * dev.mtd.geo.blocksize else dev.mtd.geo.erasesize - offset
      let dev ← ftlRewrite dev eblock (maskHigh startblock mask) offset (buffer.read 0 nbytes)
      let remaining :=
        if shortWrite then 0 else nblocks - (dev.blkper - maskLow startblock mask)
      ftlFlushMiddle heap buffer nblocks (nblocks + 1) dev nbytes alignedblock remaining
  else ftlFlushMiddle heap buffer nblocks (nblocks + 1) dev 0 alignedblock nblocks

end Gpmx.Mtd

/-!
## What `ftl_flush` writes

On a device whose erase blocks have a power of two of read/write blocks, `ftl_flush` stores
the buffer from the start block on, leaves every other block as it was, and writes only
blocks it has erased before (`ftlFlush_spec`).

Each phase is first described by the cells it stores: a rewrite of a partial erase block
stores just the new bytes (`ftlRewrite_spec`), a pass of the middle loop stores one erase
block (`eraseWrite_spec`). The phases then join by `Memory.write_append`.
-/

namespace Gpmx.Mtd

open Infra Option BitVec Memory

/-- The geometries the driver's masks are made for: `2 ^ k` blocks in an erase block. -/
structure Supported (k : Nat) (dev : FtlStruct) : Prop where
  k_lt : k < 16
  blocksize_pos : 0 < dev.mtd.geo.blocksize
  erasesize_eq : dev.mtd.geo.erasesize = 2 ^ k * dev.mtd.geo.blocksize
  blkper_eq : dev.blkper = 2 ^ k
  /-- block numbers are `off_t` -/
  nblocks_lt : dev.mtd.geo.neraseblocks * 2 ^ k < 2 ^ 31

variable {k : Nat} {dev : FtlStruct}

theorem Supported.per_eq (h : Supported k dev) :
    dev.mtd.geo.erasesize / dev.mtd.geo.blocksize = 2 ^ k := by
  rw [h.erasesize_eq]
  exact Nat.mul_div_cancel _ h.blocksize_pos

theorem Supported.nblocks_eq (h : Supported k dev) :
    dev.mtd.nblocks = dev.mtd.geo.neraseblocks * 2 ^ k := by
  unfold Flash.nblocks
  rw [h.per_eq]

variable {dev' : FtlStruct} {x : Nat} {mtd : Flash} {startblock n : Nat} {buffer : Memory UInt8}
    {pos block : Nat} {r : Int × FtlStruct} {remaining : Nat}

theorem Supported.congr (h : Supported k dev) (hgeo : dev'.mtd.geo = dev.mtd.geo)
    (hblk : dev'.blkper = dev.blkper) : Supported k dev' := by
  obtain ⟨h1, h2, h3, h4, h5⟩ := h
  exact ⟨h1, by rw [hgeo]; exact h2, by rw [hgeo]; exact h3, by rw [hblk]; exact h4,
    by rw [hgeo]; exact h5⟩

/-! ## The masks -/

theorem maskLow_eq (hx : x < 2 ^ 32) (hk : k < 16) : maskLow x (2 ^ k - 1) = x % 2 ^ k := by
  have hp : 2 ^ k ≤ 2 ^ 16 := Nat.pow_le_pow_right (by decide) (by omega)
  unfold maskLow
  rw [toNat_and, toNat_ofNat, toNat_ofNat, Nat.mod_eq_of_lt hx,
    Nat.mod_eq_of_lt (by omega), Nat.and_two_pow_sub_one_eq_mod]

theorem maskHigh_eq (hx : x < 2 ^ 32) (hk : k < 16) :
    maskHigh x (2 ^ k - 1) = x / 2 ^ k * 2 ^ k := by
  unfold maskHigh
  apply Nat.eq_of_testBit_eq
  intro i
  rw [testBit_toNat, getLsbD_and, getLsbD_not, getLsbD_ofNat,
    getLsbD_ofNat, Nat.testBit_two_pow_sub_one, ← Nat.shiftRight_eq_div_pow,
    ← Nat.shiftLeft_eq, Nat.testBit_shiftLeft, Nat.testBit_shiftRight]
  by_cases hi : i < 32
  · by_cases hik : i < k
    · simp [hi, hik]
    · rw [show k + (i - k) = i by omega]
      simp [hi, hik]
      omega
  · have hx' : x < 2 ^ i := Nat.lt_of_lt_of_le hx (Nat.pow_le_pow_right (by decide) (by omega))
    rw [show k + (i - k) = i by omega, Nat.testBit_lt_two_pow hx']
    simp [hi]

theorem roundUp_eq {p : Nat} (e o : Nat) (ho : o < p) :
    (e * p + o + (p - 1)) / p * p = if o = 0 then e * p else (e + 1) * p := by
  have hp : 0 < p := by omega
  split
  · rename_i h
    subst h
    rw [Nat.add_zero, Nat.mul_comm e p, Nat.mul_add_div hp, Nat.div_eq_of_lt (by omega),
      Nat.add_zero, Nat.mul_comm]
  · rw [show e * p + o + (p - 1) = p * e + (p + (o - 1)) by rw [Nat.mul_comm]; omega,
      Nat.mul_add_div hp, Nat.add_div_left _ hp, Nat.div_eq_of_lt (by omega)]

/-! ## One erase block -/

variable {e : Nat} {heap : Option (Memory UInt8)} {nblocks : Nat}

theorem erase_spec (he : e < mtd.geo.neraseblocks) :
    ∃ mtd', mtd.erase e = some mtd' ∧ mtd'.geo = mtd.geo ∧
      mtd'.cells = mtd.cells.write (e * mtd.geo.erasesize)
        (List.replicate mtd.geo.erasesize mtd.erasedValue) ∧
      mtd'.erased = mtd.erased.write (e * (mtd.geo.erasesize / mtd.geo.blocksize))
        (List.replicate (mtd.geo.erasesize / mtd.geo.blocksize) true) :=
  ⟨_, if_pos he, rfl, rfl, rfl⟩

theorem bwrite_spec (bytes : List UInt8) (hin : startblock + n ≤ mtd.nblocks)
    (herased : mtd.erased.read startblock n = List.replicate n true) :
    ∃ mtd', mtd.bwrite startblock n bytes = some mtd' ∧ mtd'.geo = mtd.geo ∧
      mtd'.cells = mtd.cells.write (startblock * mtd.geo.blocksize) bytes :=
  ⟨_, if_pos ⟨hin, herased⟩, rfl, rfl⟩

theorem Supported.block_end_le (h : Supported k dev) (he : e < dev.mtd.geo.neraseblocks) :
    e * 2 ^ k + 2 ^ k ≤ dev.mtd.nblocks := by
  rw [h.nblocks_eq, ← Nat.succ_mul]
  exact Nat.mul_le_mul_right _ he

theorem eraseWrite_spec (h : Supported k dev) (he : e < dev.mtd.geo.neraseblocks) :
    ∃ mtd, dev.mtd.erase e = some mtd ∧ mtd.geo = dev.mtd.geo ∧
      ∀ bytes : List UInt8, bytes.length = dev.mtd.geo.erasesize →
        ∃ mtd', mtd.bwrite (e * 2 ^ k) (2 ^ k) bytes = some mtd' ∧ mtd'.geo = dev.mtd.geo ∧
          mtd'.cells = dev.mtd.cells.write (e * dev.mtd.geo.erasesize) bytes := by
  obtain ⟨mtd, herase, hgeo, hcells, herased⟩ := erase_spec he
  refine ⟨mtd, herase, hgeo, ?_⟩
  intro bytes hlen
  have hin : e * 2 ^ k + 2 ^ k ≤ mtd.nblocks := by
    rw [Flash.nblocks, hgeo]
    exact h.block_end_le he
  have hall : mtd.erased.read (e * 2 ^ k) (2 ^ k) = List.replicate (2 ^ k) true := by
    have := read_write_self dev.mtd.erased (e * 2 ^ k) (List.replicate (2 ^ k) true)
    rwa [List.length_replicate, ← h.per_eq, ← herased, h.per_eq] at this
  obtain ⟨mtd', hwrite, hgeo', hcells'⟩ := bwrite_spec bytes hin hall
  refine ⟨mtd', hwrite, hgeo'.trans hgeo, ?_⟩
  rw [hcells', hcells, hgeo, Nat.mul_assoc, ← h.erasesize_eq]
  exact write_write_of_length_le _ _ (by rw [List.length_replicate, hlen])

/-- **Rewriting part of an erase block changes that part only.** -/
theorem ftlRewrite_spec (h : Supported k dev) (eblock : Memory UInt8) {offset : Nat}
    (he : e < dev.mtd.geo.neraseblocks) {bytes : List UInt8}
    (hlen : offset + bytes.length ≤ dev.mtd.geo.erasesize) :
    ∃ dev', ftlRewrite dev eblock (e * 2 ^ k) offset bytes = some dev' ∧
      dev'.mtd.geo = dev.mtd.geo ∧ dev'.blkper = dev.blkper ∧ dev'.eblock ≠ none ∧
      dev'.mtd.cells = dev.mtd.cells.write (e * dev.mtd.geo.erasesize + offset) bytes := by
  have hpos : 0 < 2 ^ k := Nat.two_pow_pos k
  obtain ⟨mtd, herase, hgeo, hbwrite⟩ := eraseWrite_spec h he
  have hread : dev.mtd.bread (e * 2 ^ k) (2 ^ k)
      = some (dev.mtd.cells.read (e * dev.mtd.geo.erasesize) dev.mtd.geo.erasesize) := by
    rw [Flash.bread, if_pos (h.block_end_le he), h.erasesize_eq, Nat.mul_assoc]
  let patched := (eblock.write 0
    (dev.mtd.cells.read (e * dev.mtd.geo.erasesize) dev.mtd.geo.erasesize)).write offset bytes
  obtain ⟨mtd', hwrite, hgeo', hcells⟩ :=
    hbwrite (patched.read 0 dev.mtd.geo.erasesize) (length_read _ _ _)
  refine ⟨{ dev with mtd := mtd', eblock := some patched }, ?_, hgeo', rfl,
    Option.some_ne_none _, ?_⟩
  · unfold ftlRewrite
    rw [h.blkper_eq, Nat.mul_div_cancel _ hpos, hread, herase]
    simp only [bind_eq_bind, bind_some, hgeo]
    rw [← h.erasesize_eq, hwrite]
    rfl
  · show mtd'.cells = _
    rw [hcells, write_read_patch _ _ hlen]

/-! ## The phases

A phase that starts with `remaining` blocks to write from `block` on, with the buffer at `pos`,
ends with `Stored`: some of these blocks are stored, all of them unless there was no memory
for the erase block buffer.
-/

/-- What is stored when a phase of a call for `nblocks` blocks, and all after it, are done. -/
def Stored (heap : Option (Memory UInt8)) (buffer : Memory UInt8) (nblocks : Nat)
    (dev : FtlStruct) (pos block remaining : Nat) (r : Int × FtlStruct) : Prop :=
  r.2.mtd.geo = dev.mtd.geo ∧
    ∃ m ≤ remaining,
      r.2.mtd.cells = dev.mtd.cells.write (block * dev.mtd.geo.blocksize)
        (buffer.read pos (m * dev.mtd.geo.blocksize)) ∧
      (r.1 = nblocks ∧ m = remaining ∨ dev.eblock = none ∧ heap = none)

theorem stored_zero (heap : Option (Memory UInt8)) (buffer : Memory UInt8) (nblocks : Nat)
    (dev : FtlStruct) (pos block : Nat) : Stored heap buffer nblocks dev pos block 0 (nblocks, dev) := by
  refine ⟨rfl, 0, Nat.le_refl 0, ?_, .inl ⟨rfl, rfl⟩⟩
  rw [Nat.zero_mul]
  exact (write_nil _ _).symm

theorem Stored.of_zero (h : Stored heap buffer nblocks dev pos block 0 r) (pos' block' : Nat) :
    Stored heap buffer nblocks dev pos' block' 0 r := by
  obtain ⟨hgeo, m, hm, hcells, hdone⟩ := h
  obtain rfl : m = 0 := Nat.le_zero.mp hm
  refine ⟨hgeo, 0, Nat.le_refl 0, ?_, hdone⟩
  rw [Nat.zero_mul] at hcells ⊢
  exact hcells.trans ((write_nil _ _).trans (write_nil _ _).symm)

theorem Stored.trans (hgeo : dev'.mtd.geo = dev.mtd.geo)
    (hcells : dev'.mtd.cells = dev.mtd.cells.write (block * dev.mtd.geo.blocksize) (buffer.read pos (n * dev.mtd.geo.blocksize)))
    (heblock : dev'.eblock = none → dev.eblock = none)
    (h : Stored heap buffer nblocks dev' (pos + n * dev.mtd.geo.blocksize) (block + n) remaining r) :
    Stored heap buffer nblocks dev pos block (n + remaining) r := by
  obtain ⟨hgeo', m, hm, hcells', hdone⟩ := h
  refine ⟨hgeo'.trans hgeo, n + m, by omega, ?_, ?_⟩
  · rw [hcells', hcells, hgeo, Nat.add_mul n m, read_append, write_append,
      length_read, Nat.add_mul block n]
  · rcases hdone with ⟨hr, rfl⟩ | ⟨h1, h2⟩
    · exact .inl ⟨hr, rfl⟩
    · exact .inr ⟨heblock h1, h2⟩

theorem allocEblock_mtd (heap : Option (Memory UInt8)) (dev : FtlStruct) :
    (ftlAllocEblock heap dev).mtd = dev.mtd ∧ (ftlAllocEblock heap dev).blkper = dev.blkper := by
  unfold ftlAllocEblock
  cases dev.eblock <;> exact ⟨rfl, rfl⟩

theorem allocEblock_eq_none {dev : FtlStruct} (h : (ftlAllocEblock heap dev).eblock = none) :
    dev.eblock = none ∧ heap = none := by
  unfold ftlAllocEblock at h
  cases he : dev.eblock with
  | none =>
    rw [he] at h
    exact ⟨rfl, h⟩
  | some eblock =>
    rw [he] at h
    exact absurd (he.symm.trans h) (Option.some_ne_none _)

theorem ftlFlushTail_spec (h : Supported k dev) (heap : Option (Memory UInt8))
    (buffer : Memory UInt8) (nblocks pos : Nat) (hlt : remaining < 2 ^ k)
    (hin : e * 2 ^ k + remaining ≤ dev.mtd.nblocks) :
    ∃ r, ftlFlushTail heap dev buffer pos (e * 2 ^ k) remaining nblocks = some r ∧
      Stored heap buffer nblocks dev pos (e * 2 ^ k) remaining r := by
  unfold ftlFlushTail
  by_cases hrem : remaining > 0
  · rw [if_pos hrem]
    obtain ⟨hmtd, hblk⟩ := allocEblock_mtd heap dev
    have he : e < dev.mtd.geo.neraseblocks := by
      rw [h.nblocks_eq] at hin
      exact Nat.lt_of_mul_lt_mul_right (Nat.lt_of_lt_of_le (by omega) hin)
    simp only
    cases heb : (ftlAllocEblock heap dev).eblock with
    | none =>
      refine ⟨_, rfl, by rw [hmtd], 0, Nat.zero_le _, ?_, .inr (allocEblock_eq_none heb)⟩
      rw [hmtd, Nat.zero_mul]
      exact (write_nil _ _).symm
    | some eblock =>
      have h' : Supported k (ftlAllocEblock heap dev) := h.congr (by rw [hmtd]) hblk
      have hlen : 0 + (buffer.read pos (remaining * dev.mtd.geo.blocksize)).length
          ≤ (ftlAllocEblock heap dev).mtd.geo.erasesize := by
        rw [length_read, Nat.zero_add, hmtd, h.erasesize_eq]
        exact Nat.mul_le_mul_right _ (Nat.le_of_lt hlt)
      obtain ⟨dev', hrw, hgeo, -, -, hcells⟩ :=
        ftlRewrite_spec h' eblock (by rw [hmtd]; exact he) hlen
      rw [hmtd] at hgeo hcells
      refine ⟨(nblocks, dev'), ?_, hgeo, remaining, Nat.le_refl _, ?_, .inl ⟨rfl, rfl⟩⟩
      · simp only [hmtd, hrw, bind_eq_bind, bind_some]
      · rw [hcells, Nat.add_zero, h.erasesize_eq, Nat.mul_assoc]
  · have h0 : remaining = 0 := by omega
    subst h0
    rw [if_neg hrem]
    exact ⟨_, rfl, stored_zero heap buffer nblocks dev pos (e * 2 ^ k)⟩

theorem ftlFlushMiddle_spec (heap : Option (Memory UInt8)) (buffer : Memory UInt8) (nblocks : Nat) :
    ∀ (fuel : Nat) {dev : FtlStruct} (pos e remaining : Nat), Supported k dev →
      remaining < fuel → e * 2 ^ k + remaining ≤ dev.mtd.nblocks →
      ∃ r, ftlFlushMiddle heap buffer nblocks fuel dev pos (e * 2 ^ k) remaining = some r ∧
        Stored heap buffer nblocks dev pos (e * 2 ^ k) remaining r
  | 0, dev, pos, e, remaining, _, hf, _ => by omega
  | fuel + 1, dev, pos, e, remaining, h, hf, hin => by
    have hpos : 0 < 2 ^ k := Nat.two_pow_pos k
    by_cases hge : remaining ≥ 2 ^ k
    · have he : e < dev.mtd.geo.neraseblocks := by
        rw [h.nblocks_eq] at hin
        exact Nat.lt_of_mul_lt_mul_right (Nat.lt_of_lt_of_le (by omega) hin)
      obtain ⟨mtd, herase, hgeo, hbwrite⟩ := eraseWrite_spec h he
      obtain ⟨mtd', hwrite, hgeo', hcells⟩ :=
        hbwrite (buffer.read pos dev.mtd.geo.erasesize) (length_read _ _ _)
      have h' : Supported k { dev with mtd := mtd' } := h.congr hgeo' rfl
      have hin' : (e + 1) * 2 ^ k + (remaining - 2 ^ k) ≤ mtd'.nblocks := by
        rw [Flash.nblocks, hgeo', Nat.succ_mul]
        show _ ≤ dev.mtd.nblocks
        omega
      obtain ⟨r, hr, hstored⟩ := ftlFlushMiddle_spec heap buffer nblocks fuel
        (pos + dev.mtd.geo.erasesize) (e + 1) (remaining - 2 ^ k) h' (by omega) hin'
      refine ⟨r, ?_, ?_⟩
      · rw [ftlFlushMiddle, h.blkper_eq, if_pos hge, Nat.mul_div_cancel _ hpos, herase]
        simp only [bind_eq_bind, bind_some, hgeo]
        rw [← h.erasesize_eq, hwrite]
        simp only [bind_some, hgeo']
        rw [h.blkper_eq] at hr
        rw [← Nat.succ_mul]
        exact hr
      · rw [Nat.succ_mul, h.erasesize_eq] at hstored
        rw [h.erasesize_eq] at hcells
        have hsum : remaining = 2 ^ k + (remaining - 2 ^ k) := by omega
        rw [hsum]
        refine Stored.trans (show ({ dev with mtd := mtd' } : FtlStruct).mtd.geo = _ from hgeo') ?_
          (fun hnone => hnone) hstored
        rw [hcells, Nat.mul_assoc e]
    · obtain ⟨r, hr, hstored⟩ := ftlFlushTail_spec h heap buffer nblocks pos (by omega) hin
      refine ⟨r, ?_, hstored⟩
      rw [ftlFlushMiddle, h.blkper_eq, if_neg hge]
      exact hr

theorem Supported.head_blocks (h : Supported k dev) (e nblocks : Nat) {o : Nat} (ho : o < 2 ^ k) :
    ∃ n, o + n ≤ 2 ^ k ∧ (n = 2 ^ k - o ∧ n ≤ nblocks ∨ n = nblocks) ∧
      (if decide (nblocks < (e + 1) * 2 ^ k - (e * 2 ^ k + o)) = true
        then nblocks * dev.mtd.geo.blocksize
        else dev.mtd.geo.erasesize - o * dev.mtd.geo.blocksize) = n * dev.mtd.geo.blocksize ∧
      (if decide (nblocks < (e + 1) * 2 ^ k - (e * 2 ^ k + o)) = true then 0
        else nblocks - (2 ^ k - o)) = nblocks - n := by
  have hdist : (e + 1) * 2 ^ k - (e * 2 ^ k + o) = 2 ^ k - o := by
    rw [Nat.succ_mul]
    omega
  rw [hdist]
  by_cases hs : nblocks < 2 ^ k - o
  · refine ⟨nblocks, by omega, .inr rfl, ?_, ?_⟩
    · rw [if_pos (decide_eq_true hs)]
    · rw [if_pos (decide_eq_true hs), Nat.sub_self]
  · refine ⟨2 ^ k - o, by omega, .inl ⟨rfl, by omega⟩, ?_, ?_⟩
    · rw [if_neg (by simpa using hs), h.erasesize_eq, Nat.sub_mul]
    · rw [if_neg (by simpa using hs)]

theorem ftlFlush_stored (h : Supported k dev) (heap : Option (Memory UInt8)) (buffer : Memory UInt8)
    (hin : startblock + nblocks ≤ dev.mtd.nblocks) :
    ∃ r, ftlFlush heap dev buffer startblock nblocks = some r ∧
      Stored heap buffer nblocks dev 0 startblock nblocks r := by
  have hpos : 0 < 2 ^ k := Nat.two_pow_pos k
  have hk16 : 2 ^ k ≤ 2 ^ 16 := Nat.pow_le_pow_right (by decide) (Nat.le_of_lt h.k_lt)
  have hn := h.nblocks_lt
  rw [← h.nblocks_eq] at hn
  -- the start block is block `o` of erase block `e`
  obtain ⟨e, o, ho, rfl⟩ : ∃ e o, o < 2 ^ k ∧ startblock = e * 2 ^ k + o :=
    ⟨startblock / 2 ^ k, startblock % 2 ^ k, Nat.mod_lt _ hpos, (Nat.div_add_mod' _ _).symm⟩
  have hhigh : maskHigh (e * 2 ^ k + o) (2 ^ k - 1) = e * 2 ^ k := by
    rw [maskHigh_eq (by omega) h.k_lt, Nat.mul_comm e, Nat.mul_add_div hpos, Nat.div_eq_of_lt ho,
      Nat.add_zero, Nat.mul_comm]
  have hlow : maskLow (e * 2 ^ k + o) (2 ^ k - 1) = o := by
    rw [maskLow_eq (by omega) h.k_lt, Nat.mul_comm e, Nat.mul_add_mod, Nat.mod_eq_of_lt ho]
  have hround := roundUp_eq e o ho
  have halign : maskHigh (e * 2 ^ k + o + (2 ^ k - 1)) (2 ^ k - 1)
      = if o = 0 then e * 2 ^ k else (e + 1) * 2 ^ k := by
    rw [maskHigh_eq (by omega) h.k_lt]
    exact hround
  unfold ftlFlush
  simp only [h.blkper_eq, halign, hhigh, hlow]
  by_cases ho0 : o = 0
  · subst ho0
    rw [if_pos rfl, if_neg (by omega)]
    exact ftlFlushMiddle_spec heap buffer nblocks (nblocks + 1) 0 e nblocks h (by omega) hin
  · rw [if_neg ho0, if_pos (by rw [Nat.succ_mul]; omega)]
    have he : e < dev.mtd.geo.neraseblocks := by
      rw [h.nblocks_eq] at hin
      exact Nat.lt_of_mul_lt_mul_right (Nat.lt_of_lt_of_le (by omega) hin)
    have hend := h.block_end_le he
    obtain ⟨hmtd, hblk⟩ := allocEblock_mtd heap dev
    have h' : Supported k (ftlAllocEblock heap dev) := h.congr (by rw [hmtd]) hblk
    cases heb : (ftlAllocEblock heap dev).eblock with
    | none =>
      refine ⟨_, rfl, by rw [hmtd], 0, Nat.zero_le _, ?_, .inr (allocEblock_eq_none heb)⟩
      rw [hmtd, Nat.zero_mul]
      exact (write_nil _ _).symm
    | some eblock =>
      obtain ⟨n, hnle, hnlast, hnbytes, hnrem⟩ := h.head_blocks e nblocks ho
      have hlen : o * dev.mtd.geo.blocksize + (buffer.read 0 (n * dev.mtd.geo.blocksize)).length
          ≤ (ftlAllocEblock heap dev).mtd.geo.erasesize := by
        rw [length_read, hmtd, h.erasesize_eq, ← Nat.add_mul]
        exact Nat.mul_le_mul_right _ hnle
      obtain ⟨dev', hrw, hgeo, hblk', heb', hcells⟩ :=
        ftlRewrite_spec h' eblock (by rw [hmtd]; exact he) hlen
      rw [hmtd] at hgeo hcells
      have h'' : Supported k dev' := h.congr hgeo (hblk'.trans hblk)
      obtain ⟨r, hr, hstored⟩ := ftlFlushMiddle_spec heap buffer nblocks (nblocks + 1)
        (n * dev.mtd.geo.blocksize) (e + 1) (nblocks - n) h'' (by omega)
        (by rw [Flash.nblocks, hgeo, Nat.succ_mul]; show _ ≤ dev.mtd.nblocks; omega)
      refine ⟨r, ?_, ?_⟩
      · simp only [hmtd, hnbytes, hrw, bind_eq_bind, bind_some, h''.blkper_eq, hnrem]
        exact hr
      · have hsum : nblocks = n + (nblocks - n) := by omega
        rw [hsum]
        refine Stored.trans hgeo ?_ (fun hnone => absurd hnone heb') ?_
        · rw [hcells, h.erasesize_eq, Nat.add_mul, Nat.mul_assoc]
        · rw [← hsum, Nat.zero_add]
          rcases hnlast with ⟨hn1, -⟩ | hn1
          · rw [show e * 2 ^ k + o + n = (e + 1) * 2 ^ k by rw [Nat.succ_mul]; omega]
            exact hstored
          · rw [hn1, Nat.sub_self] at hstored ⊢
            exact hstored.of_zero _ _

/--
**`ftl_flush` writes the blocks it is asked to write and no others.**

The call returns, so it wrote only blocks that it had erased before. Blocks outside the
request are as before, whatever happens. If there is a buffer for one erase block, or memory
for one, the call reports `nblocks` and block `startblock + i` is the `i`-th block of the buffer.
-/
theorem ftlFlush_spec (h : Supported k dev) (heap : Option (Memory UInt8)) (buffer : Memory UInt8)
    {startblock nblocks : Nat} (hin : startblock + nblocks ≤ dev.mtd.nblocks) :
    ∃ r, ftlFlush heap dev buffer startblock nblocks = some r ∧
      (∀ b, b < startblock ∨ startblock + nblocks ≤ b → r.2.mtd.block b = dev.mtd.block b) ∧
      (dev.eblock.isSome ∨ heap.isSome → r.1 = nblocks ∧ ∀ i < nblocks,
        r.2.mtd.block (startblock + i)
          = buffer.read (i * dev.mtd.geo.blocksize) dev.mtd.geo.blocksize) := by
  obtain ⟨r, hr, hgeo, m, hm, hcells, hdone⟩ := ftlFlush_stored h heap buffer hin
  refine ⟨r, hr, ?_, ?_⟩
  · intro b hb
    unfold Flash.block
    rw [hgeo, hcells]
    apply read_congr
    intro j hj1 hj2
    apply write_of_not_mem
    rw [length_read]
    rcases hb with hb | hb
    · have := Nat.mul_le_mul_right dev.mtd.geo.blocksize (Nat.succ_le_of_lt hb)
      rw [Nat.succ_mul] at this
      exact .inl (by omega)
    · have := Nat.mul_le_mul_right dev.mtd.geo.blocksize
        (Nat.le_trans (Nat.add_le_add_left hm startblock) hb)
      rw [Nat.add_mul] at this
      exact .inr (by omega)
  · intro hmem
    rcases hdone with ⟨hret, rfl⟩ | ⟨h1, h2⟩
    · refine ⟨hret, ?_⟩
      intro i hi
      unfold Flash.block
      rw [hgeo, hcells]
      apply read_shift
      intro j hj
      have := Nat.mul_le_mul_right dev.mtd.geo.blocksize (Nat.succ_le_of_lt hi)
      rw [Nat.succ_mul] at this
      rw [Nat.add_mul, write_of_mem (by omega) (by rw [length_read]; omega),
        getElem_read]
      congr 1
      omega
    · rw [h1, h2] at hmem
      rcases hmem with hmem | hmem <;> cases hmem

/-- Three erase blocks of two blocks of two bytes, all written with 7. -/
def smallFlash : Flash :=
  { geo := { blocksize := 2, erasesize := 4, neraseblocks := 3 }, erasedValue := 0xff,
    cells := fun _ => 7, erased := fun _ => false }

/-- A write with a head, a middle and a tail. -/
theorem ftlFlush_spec_threePhases :
    ∃ r, ftlFlush (some fun _ => 0) (ftlInitialize smallFlash) (fun i => UInt8.ofNat i) 1 4 = some r ∧
      r.1 = 4 ∧ r.2.mtd.block 0 = [7, 7] ∧ r.2.mtd.block 1 = [0, 1] ∧ r.2.mtd.block 4 = [6, 7] ∧
      r.2.mtd.block 5 = [7, 7] := by
  have hsup : Supported 1 (ftlInitialize smallFlash) :=
    ⟨by decide, by decide, by decide, by decide, by decide⟩
  obtain ⟨r, hr, hother, hdone⟩ :=
    ftlFlush_spec hsup (some fun _ => 0) (fun i => UInt8.ofNat i) (show 1 + 4 ≤ 6 by decide)
  obtain ⟨hret, hblock⟩ := hdone (.inr rfl)
  exact ⟨r, hr, hret, hother 0 (by decide), hblock 0 (by decide), hblock 3 (by decide),
    hother 5 (by decide)⟩

end Gpmx.Mtd
