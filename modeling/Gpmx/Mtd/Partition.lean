import Gpmx.Infra.Footprint

/-!
# The MTD interface

`gpm/include/gpm/mtd/mtd.h`: the geometry of a memory technology device and the methods of
`struct mtd_dev_s`, as functions on the bytes of the device.

A driver behind this interface promises little: each method stays within the bytes that its
arguments name. That promise is part of `MtdDev`.
-/

namespace Gpmx.Mtd

open Infra

def ENOMEM : Int := 12
def ENXIO : Int := 6
def ENOSYS : Int := 38

/-- `struct mtd_geometry_s` -/
structure Geometry where
  blocksize : Nat
  erasesize : Nat
  neraseblocks : Nat

/-- Byte `i` belongs to the `n` units of `size` bytes from unit `start` on. -/
def InUnits (size : Nat) (start : Int) (n : Nat) (i : Nat) : Prop :=
  start * size ≤ i ∧ (i : Int) < (start + n) * size

/--
`struct mtd_dev_s` of a device with the given geometry.

Block numbers and offsets are `off_t`. The byte methods are optional. Each method is local to
the units it is called for.
-/
structure MtdDev (geo : Geometry) where
  erase : Int → Nat → Method UInt8
  bread : Int → Nat → Method UInt8
  bwrite : Int → Nat → List UInt8 → Method UInt8
  read : Option (Int → Nat → Method UInt8)
  write : Option (Int → Nat → List UInt8 → Method UInt8)
  erase_local : ∀ start n, Local (InUnits geo.erasesize start n) (erase start n)
  bread_local : ∀ start n, Local (InUnits geo.blocksize start n) (bread start n)
  bwrite_local : ∀ start n bytes, Local (InUnits geo.blocksize start n) (bwrite start n bytes)
  read_local : ∀ f ∈ read, ∀ start n, Local (InUnits 1 start n) (f start n)
  write_local : ∀ f ∈ write, ∀ start n bytes, Local (InUnits 1 start n) (f start n bytes)

/-! ## Plain memory as a device -/

/-- Read `n` units of `size` bytes; there are none at negative numbers. -/
def ramRead (size : Nat) (start : Int) (n : Nat) : Method UInt8 :=
  if 0 ≤ start then fetchRun n (start.toNat * size) (n * size) else refuse ENXIO

/-- Store `n` units of `size` bytes. -/
def ramWrite (size : Nat) (start : Int) (n : Nat) (bytes : List UInt8) : Method UInt8 :=
  if 0 ≤ start then storeRun n (start.toNat * size) (bytes.take (n * size)) else refuse ENXIO

theorem inUnits_of_run {size n i k : Nat} {start : Int} (hs : 0 ≤ start) (hk : k ≤ n * size)
    (h : start.toNat * size ≤ i ∧ i < start.toNat * size + k) : InUnits size start n i := by
  obtain ⟨a, rfl⟩ := Int.eq_ofNat_of_zero_le hs
  rw [Int.toNat_natCast] at h
  unfold InUnits
  rw [← Int.natCast_add, ← Int.natCast_mul, ← Int.natCast_mul, Nat.add_mul]
  omega

theorem local_ramRead (size : Nat) (start : Int) (n : Nat) :
    Local (InUnits size start n) (ramRead size start n) := by
  unfold ramRead
  split
  · rename_i hs
    exact (local_fetchRun _ _ _).mono fun i => inUnits_of_run hs (Nat.le_refl _)
  · exact local_refuse _ _

theorem local_ramWrite (size : Nat) (start : Int) (n : Nat) (bytes : List UInt8) :
    Local (InUnits size start n) (ramWrite size start n bytes) := by
  unfold ramWrite
  split
  · rename_i hs
    exact (local_storeRun _ _ _).mono fun i => inUnits_of_run hs (List.length_take_le _ _)
  · exact local_refuse _ _

def ramDev (geo : Geometry) : MtdDev geo where
  erase start n := ramWrite geo.erasesize start n (List.replicate (n * geo.erasesize) 0xff)
  bread start n := ramRead geo.blocksize start n
  bwrite start n bytes := ramWrite geo.blocksize start n bytes
  read := some fun start n => ramRead 1 start n
  write := some fun start n bytes => ramWrite 1 start n bytes
  erase_local _ _ := local_ramWrite _ _ _ _
  bread_local _ _ := local_ramRead _ _ _
  bwrite_local _ _ _ := local_ramWrite _ _ _ _
  read_local f hf _ _ := by
    cases hf
    exact local_ramRead _ _ _
  write_local f hf _ _ _ := by
    cases hf
    exact local_ramWrite _ _ _ _

end Gpmx.Mtd

/-!
## MTD partitions

`gpm/drivers/mtd/mtd_partition.c`. A partition is an MTD device over a range of erase blocks
of another one. Its methods check the request against the size of the partition, add the
offset of the partition and call the parent.

`off_t` has 32 bits and a sign, `size_t` has 32 bits and none: `offset + nbytes - 1` is computed
without a sign and then stored in an `off_t`. `toOff` is that conversion.
-/

namespace Gpmx.Mtd

open Infra

/-- A value stored in an `off_t`. -/
def toOff (n : Int) : Int := n.bmod (2 ^ 32)

/-- `struct mtd_partition_s`, without the parent and the name. -/
structure Partition where
  firstblock : Int
  neraseblocks : Int
  blocksize : Int
  blkpererase : Nat
  deriving DecidableEq

/-- `mtd_partition`, when there is memory for the new device. -/
def mtdPartition (geo : Geometry) (firstblock nblocks : Int) : Option Partition :=
  let blkpererase := geo.erasesize / geo.blocksize
  let erasestart := toOff ((firstblock + blkpererase - 1) % 2 ^ 32 / blkpererase)
  let eraseend := toOff ((firstblock + nblocks) % 2 ^ 32 / blkpererase)
  if erasestart ≥ eraseend then none
  else if eraseend % 2 ^ 32 > geo.neraseblocks then none
  else
    some { firstblock := toOff (erasestart * blkpererase), neraseblocks := eraseend - erasestart,
           blocksize := geo.blocksize, blkpererase := blkpererase % 2 ^ 16 }

def partBlockcheck (priv : Partition) (block : Int) : Bool :=
  decide (block < toOff (priv.neraseblocks * priv.blkpererase))

def partBytecheck (priv : Partition) (byoff : Int) : Bool :=
  let erasesize := toOff (priv.blocksize * priv.blkpererase)
  let readend := (toOff (byoff + erasesize - 1)).tdiv erasesize
  decide (readend ≤ priv.neraseblocks)

variable {geo : Geometry}

def partErase (parent : MtdDev geo) (priv : Partition) (startblock : Int) (nblocks : Nat) :
    Method UInt8 :=
  if partBlockcheck priv (toOff ((startblock + nblocks - 1) * priv.blkpererase)) then
    parent.erase (toOff (startblock + priv.firstblock.tdiv priv.blkpererase)) nblocks
  else refuse ENXIO

def partBread (parent : MtdDev geo) (priv : Partition) (startblock : Int) (nblocks : Nat) :
    Method UInt8 :=
  if partBlockcheck priv (toOff (startblock + nblocks - 1)) then
    parent.bread (toOff (startblock + priv.firstblock)) nblocks
  else refuse ENXIO

def partBwrite (parent : MtdDev geo) (priv : Partition) (startblock : Int) (nblocks : Nat)
    (buf : List UInt8) : Method UInt8 :=
  if partBlockcheck priv (toOff (startblock + nblocks - 1)) then
    parent.bwrite (toOff (startblock + priv.firstblock)) nblocks buf
  else refuse ENXIO

def partRead (parent : MtdDev geo) (priv : Partition) (offset : Int) (nbytes : Nat) :
    Method UInt8 :=
  match parent.read with
  | none => refuse ENOSYS
  | some read =>
    if partBytecheck priv (toOff (offset + nbytes - 1)) then
      read (toOff (offset + toOff (priv.firstblock * priv.blocksize))) nbytes
    else refuse ENXIO

def partWrite (parent : MtdDev geo) (priv : Partition) (offset : Int) (nbytes : Nat)
    (buffer : List UInt8) : Method UInt8 :=
  match parent.write with
  | none => refuse ENOSYS
  | some write =>
    if partBytecheck priv (toOff (offset + nbytes - 1)) then
      write (toOff (offset + toOff (priv.firstblock * priv.blocksize))) nbytes buffer
    else refuse ENXIO

end Gpmx.Mtd
