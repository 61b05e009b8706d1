import Gpmx.Infra.Memory

/-!
# W25: serial flash with a sector cache

`gpm/drivers/mtd/w25.c` with `CONFIG_W25_SECTOR512` and `CONFIG_MTD_BYTE_WRITE`. The chip erases sectors
of 4096 bytes; the driver offers blocks of 512. It keeps one erase sector in memory: a block is changed
there, the sector is erased, and the whole of it is programmed again. `w25_read`, `w25_write` and
`MTDIOC_BULKERASE` go to the chip.

Here each function is run to its end; `w25_waitwritecomplete` returns when the chip is not busy. What
other threads can do while it waits is the subject of `Gpmx.Mtd.W25Bus`. Calls stay inside the device, so
sector numbers and addresses are naturals. A buffer is a function of the offset.
-/

namespace Gpmx.Mtd.W25

open Infra

/-- `prev_instr`: the instructions that are given to the chip here. -/
inductive Instr where
  | none
  | frd
  | pp
  | se
  | ce
deriving DecidableEq

/-- The chip, and `struct w25_dev_s`: the three flags, `esectno`, `sector` and `prev_instr`. -/
structure Dev where
  chip : Memory UInt8
  busy : Bool
  valid : Bool
  dirty : Bool
  erased : Bool
  esectno : Nat
  sector : Memory UInt8
  prevInstr : Instr

/-- The device as `w25_initialize` leaves it, where the chip holds `chip`. -/
def w25Initialize (chip sector : Memory UInt8) : Dev :=
  { chip, busy := false, valid := false, dirty := false, erased := false, esectno := 0, sector,
    prevInstr := .none }

/-- `n` cells from `a` on get the values of `data`. -/
def store (m : Memory UInt8) (a n : Nat) (data : Nat → UInt8) : Memory UInt8 := fun i =>
  if a ≤ i ∧ i < a + n then data (i - a) else m i

def program (m : Memory UInt8) (a n : Nat) (data : Nat → UInt8) : Memory UInt8 := fun i =>
  if a ≤ i ∧ i < a + n then m i &&& data (i - a) else m i

def erasedState : UInt8 := 0xff

/-! ## The chip's instructions -/

def waitwritecomplete (dev : Dev) : Dev := { dev with busy := false }

/-- `w25_byteread`: the bytes are those of the chip from `address` on. -/
def byteread (dev : Dev) (address : Nat) : Dev × (Nat → UInt8) :=
  let dev := waitwritecomplete dev
  ({ dev with prevInstr := .frd }, fun i => dev.chip (address + i))

/-- The loop of `w25_is_erased` over the pages. -/
def isErasedPages (dev : Dev) (address : Nat) : (npages : Nat) → Dev × Bool
  | 0 => (dev, true)
  | npages + 1 =>
    let (dev, buf) := byteread dev address
    if ∀ i < 256, buf i = erasedState then isErasedPages dev (address + 256) npages
    else (dev, false)

/-- `w25_is_erased` on a sector; `mem` says whether `kmm_malloc` succeeds. -/
def isErased (mem : Bool) (dev : Dev) (address : Nat) : Dev × Bool :=
  if mem then isErasedPages dev address 16 else (dev, false)

/-- The instruction `W25_SE`. -/
def sendErase (dev : Dev) (sector : Nat) : Dev :=
  { dev with
    chip := store dev.chip (sector * 4096) 4096 fun _ => erasedState
    busy := true
    prevInstr := .se }

def sectorerase (mem : Bool) (dev : Dev) (sector : Nat) : Dev :=
  let (dev, isErased) := isErased mem dev (sector * 4096)
  if isErased then dev
  else sendErase (waitwritecomplete dev) sector

def chiperase (dev : Dev) : Dev :=
  let dev := waitwritecomplete dev
  { dev with chip := fun _ => erasedState, busy := true, prevInstr := .ce }

/-- The instruction `W25_PP`, with `n` bytes for one page. -/
def sendPage (dev : Dev) (address n : Nat) (buffer : Nat → UInt8) : Dev :=
  { dev with chip := program dev.chip address n buffer, busy := true, prevInstr := .pp }

/-- The loop of `w25_pagewrite`. -/
def pagewrite (dev : Dev) (buffer : Nat → UInt8) (address : Nat) : (npages : Nat) → Dev
  | 0 => dev
  | npages + 1 =>
    let dev := sendPage (waitwritecomplete dev) address 256 buffer
    pagewrite dev (fun i => buffer (256 + i)) (address + 256) npages

def bytewrite (dev : Dev) (buffer : Nat → UInt8) (offset count : Nat) : Dev :=
  sendPage (waitwritecomplete dev) offset count buffer

/-! ## The cache -/

def cacheflush (dev : Dev) : Dev :=
  if dev.dirty ∨ dev.erased then
    let dev := pagewrite dev dev.sector (dev.esectno * 4096) 16
    { dev with dirty := false, erased := false }
  else dev

/-- The erase sector `esectno` is read into the cache. -/
def cacheload (dev : Dev) (esectno : Nat) : Dev :=
  let (dev, buffer) := byteread dev (esectno * 4096)
  { dev with
    sector := store dev.sector 0 4096 buffer
    esectno
    valid := true
    dirty := false
    erased := false }

/-- The block `sector` is in the cache afterwards, at `(sector % 8) * 512`. -/
def cacheread (dev : Dev) (sector : Nat) : Dev :=
  if dev.valid = false ∨ sector / 8 ≠ dev.esectno then cacheload (cacheflush dev) (sector / 8)
  else dev

def setBlock (dev : Dev) (sector : Nat) (data : Nat → UInt8) : Dev :=
  { dev with
    erased := true
    sector := store dev.sector (sector % 8 * 512) 512 data
    dirty := true }

/-- The sector is erased unless this is done already; `w25_cacheerase` and `w25_cachewrite` both do this
with each block. -/
def cacheset (mem : Bool) (dev : Dev) (sector : Nat) (data : Nat → UInt8) : Dev :=
  let dev := cacheread dev sector
  let dev := if dev.erased then dev else sectorerase mem dev (sector / 8)
  setBlock dev sector data

def cacheerase (mem : Bool) (dev : Dev) (sector : Nat) : Dev :=
  cacheset mem dev sector fun _ => erasedState

/-- The blocks of a buffer, one after the other; `mem` has an entry for each erase sector. -/
def cachewriteBlocks (mem : Nat → Bool) (dev : Dev) (buffer : Nat → UInt8) (sector : Nat) :
    (nsectors : Nat) → Dev
  | 0 => dev
  | nsectors + 1 =>
    let dev := cacheset (mem (sector / 8)) dev sector buffer
    cachewriteBlocks mem dev (fun i => buffer (512 + i)) (sector + 1) nsectors

def cachewrite (mem : Nat → Bool) (dev : Dev) (buffer : Nat → UInt8) (sector nsectors : Nat) : Dev :=
  cacheflush (cachewriteBlocks mem dev buffer sector nsectors)

/-! ## The methods of the device -/

/-- The loop of `w25_erase`. -/
def eraseBlocks (mem : Nat → Bool) (dev : Dev) (startblock : Nat) : (nblocks : Nat) → Dev
  | 0 => dev
  | nblocks + 1 =>
    eraseBlocks mem (cacheerase (mem (startblock / 8)) dev startblock) (startblock + 1) nblocks

def erase (mem : Nat → Bool) (dev : Dev) (startblock nblocks : Nat) : Dev :=
  cacheflush (eraseBlocks mem dev startblock nblocks)

def bwrite (mem : Nat → Bool) (dev : Dev) (startblock nblocks : Nat) (buffer : Nat → UInt8) : Dev :=
  cachewrite mem dev buffer startblock nblocks

/-- `w25_read`: the first `nbytes` bytes that come. -/
def read (dev : Dev) (offset nbytes : Nat) : Dev × List UInt8 :=
  let (dev, buffer) := byteread dev offset
  (dev, (List.range nbytes).map buffer)

def bread (dev : Dev) (startblock nblocks : Nat) : Dev × List UInt8 :=
  read dev (startblock * 512) (nblocks * 512)

/-- The loop of `w25_write` over full pages: `index` and `offset` go on by a page. -/
def writePages (dev : Dev) (buffer : Nat → UInt8) (offset : Nat) : (npages : Nat) → Dev
  | 0 => dev
  | npages + 1 =>
    writePages (bytewrite dev buffer offset 256) (fun i => buffer (256 + i)) (offset + 256) npages

def write (dev : Dev) (offset nbytes : Nat) (buffer : Nat → UInt8) : Dev :=
  let startpage := offset / 256
  let endpage := (offset + nbytes) / 256
  if startpage = endpage then bytewrite dev buffer offset nbytes
  else
    let bytestowrite := 256 - offset % 256
    let dev := bytewrite dev buffer offset bytestowrite
    let count := nbytes - bytestowrite
    let npages := count / 256
    let dev := writePages dev (fun i => buffer (bytestowrite + i)) (offset + bytestowrite) npages
    let index := bytestowrite + npages * 256
    if count % 256 > 0 then
      bytewrite dev (fun i => buffer (index + i)) (offset + index) (count % 256)
    else dev

def bulkErase (dev : Dev) : Dev := chiperase dev

/-- A call of the device. `mem` says for each erase sector whether `kmm_malloc` succeeds when
`w25_is_erased` looks at it. -/
inductive Op where
  | erase (mem : Nat → Bool) (startblock nblocks : Nat)
  | bwrite (mem : Nat → Bool) (startblock nblocks : Nat) (buffer : Nat → UInt8)
  | bread (startblock nblocks : Nat)
  | read (offset nbytes : Nat)
  | write (offset nbytes : Nat) (buffer : Nat → UInt8)
  | bulkErase

def Op.exec (dev : Dev) : Op → Dev × List UInt8
  | .erase mem startblock nblocks => (W25.erase mem dev startblock nblocks, [])
  | .bwrite mem startblock nblocks buffer => (W25.bwrite mem dev startblock nblocks buffer, [])
  | .bread startblock nblocks => W25.bread dev startblock nblocks
  | .read offset nbytes => W25.read dev offset nbytes
  | .write offset nbytes buffer => (W25.write dev offset nbytes buffer, [])
  | .bulkErase => (W25.bulkErase dev, [])

end Gpmx.Mtd.W25
