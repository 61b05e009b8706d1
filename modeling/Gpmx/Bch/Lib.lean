import Gpmx.Infra.Memory
import Gpmx.Infra.Transducer

/-!
# BCH: a block driver seen as a byte device

`gpm/drivers/bch`. A block driver transfers whole sectors. BCH puts a buffer of one
sector in front of it, so that reads and writes may start and end anywhere.

A transfer has up to three phases: the rest of the sector it starts in, the whole sectors
that follow, and the head of the sector it ends in. The first and the last go through the
sector buffer, the middle one goes straight to the driver.

`size_t` has 32 bits on the targets. The two sums that can leave that range,
`sectoffset + len` and `sector + nsectors`, are taken modulo `2 ^ 32`, and `sectoffset`
itself is an `uint16_t`.
-/

namespace Gpmx.Bch

open Infra

def EFBIG : Int := 27

/--
The block driver behind the inode.

`media` is the medium, sector after sector. The driver's `read` and `write` methods return
a negative errno or a sector count; the two functions give that return value for a start
sector and a number of sectors.
-/
structure BlockDriver where
  media : Memory UInt8
  readRet : Nat → Nat → Int
  writeRet : Nat → Nat → Int

def BlockDriver.Reliable (d : BlockDriver) : Prop :=
  ∀ start n, 0 ≤ d.readRet start n ∧ 0 ≤ d.writeRet start n

/-- `struct bchlib_s`, without the fields that only open, close and unlink use. -/
structure Bchlib where
  inode : BlockDriver
  sectsize : Nat
  nsectors : Nat
  sector : Nat
  dirty : Bool
  buffer : Memory UInt8

/-- `(size_t)-1`, the number of no sector. -/
def noSector : Nat := 2 ^ 32 - 1

/-- `bchlib_setup` on an available, writable device; the sector buffer is not initialized. -/
def bchlibSetup (inode : BlockDriver) (nsectors sectsize : Nat) (buffer : Memory UInt8) : Bchlib :=
  { inode, sectsize, nsectors, sector := noSector, dirty := false, buffer }

namespace Bchlib

/-- The `n` sectors from `start` on, as the driver's `read` delivers them. -/
def mediaRead (bch : Bchlib) (start n : Nat) : List UInt8 :=
  bch.inode.media.read (start * bch.sectsize) (n * bch.sectsize)

/-- The driver's `write`: store whole sectors from sector `start` on. -/
def mediaWrite (bch : Bchlib) (start : Nat) (bytes : List UInt8) : Bchlib :=
  { bch with inode :=
      { bch.inode with media := bch.inode.media.write (start * bch.sectsize) bytes } }

/-- Copy into the sector buffer from offset `off` on, and mark it dirty. -/
def patch (bch : Bchlib) (off : Nat) (bytes : List UInt8) : Bchlib :=
  { bch with buffer := bch.buffer.write off bytes, dirty := true }

end Bchlib

/-! ## The one-sector cache (`bchlib_cache.c`) -/

/-- `bchlib_flushsector`: write the sector buffer back if it is dirty. -/
def bchlibFlushsector (bch : Bchlib) : Int × Bchlib :=
  if bch.dirty then
    if bch.inode.writeRet bch.sector 1 < 0 then (bch.inode.writeRet bch.sector 1, bch)
    else
      (bch.inode.writeRet bch.sector 1,
        { bch.mediaWrite bch.sector (bch.buffer.read 0 bch.sectsize) with dirty := false })
  else (0, bch)

/-- `bchlib_readsector`: make `sector` the one in the buffer. -/
def bchlibReadsector (bch : Bchlib) (sector : Nat) : Int × Bchlib :=
  if bch.sector ≠ sector then
    let r := bchlibFlushsector bch
    if r.1 < 0 then r
    else
      let bch : Bchlib := { r.2 with sector := noSector }
      if bch.inode.readRet sector 1 < 0 then (bch.inode.readRet sector 1, bch)
      else
        (bch.inode.readRet sector 1,
          { bch with buffer := bch.buffer.write 0 (bch.mediaRead sector 1), sector := sector })
  else (0, bch)

/-! ## Shared arithmetic of the two transfers -/

/-- `sectoffset`, the offset into the first sector, stored in an `uint16_t`. -/
def sectoffset (bch : Bchlib) (offset : Nat) : Nat :=
  (offset - offset / bch.sectsize * bch.sectsize) % 2 ^ 16

/-- `nbytes` of the initial partial sector. -/
def headBytes (bch : Bchlib) (sectoffset len : Nat) : Nat :=
  if (sectoffset + len) % 2 ^ 32 > bch.sectsize then bch.sectsize - sectoffset else len

def wholeSectors (bch : Bchlib) (sector len : Nat) : Nat :=
  if (sector + len / bch.sectsize) % 2 ^ 32 > bch.nsectors then bch.nsectors - sector
  else len / bch.sectsize

/-! ## `bchlib_write` -/

def bchlibWriteTail (bch : Bchlib) (buffer : List UInt8) (sector byteswritten : Nat) :
    Int × Bchlib :=
  if buffer.length > 0 then
    let r := bchlibReadsector bch sector
    if r.1 < 0 then r
    else
      (byteswritten + buffer.length, r.2.patch 0 buffer)
  else (byteswritten, bch)

def bchlibWriteSectors (bch : Bchlib) (buffer : List UInt8) (sector byteswritten : Nat) :
    Int × Bchlib :=
  if buffer.length ≥ bch.sectsize then
    let nsectors := wholeSectors bch sector buffer.length
    let r := bchlibFlushsector bch
    if r.1 < 0 then r
    else if r.2.inode.writeRet sector nsectors < 0 then (r.2.inode.writeRet sector nsectors, r.2)
    else
      let nbytes := nsectors * bch.sectsize
      let bch := r.2.mediaWrite sector (buffer.take nbytes)
      if sector + nsectors ≥ bch.nsectors then (byteswritten + nbytes, bch)
      else bchlibWriteTail bch (buffer.drop nbytes) (sector + nsectors) (byteswritten + nbytes)
  else bchlibWriteTail bch buffer sector byteswritten

/-- `bchlib_write`: the return value and the new state. -/
def bchlibWrite (bch : Bchlib) (buffer : List UInt8) (offset : Nat) : Int × Bchlib :=
  if buffer.length < 1 then (0, bch)
  else
    let sector := offset / bch.sectsize
    let sectoffset := sectoffset bch offset
    if sector ≥ bch.nsectors then (-EFBIG, bch)
    else if sectoffset > 0 then
      let r := bchlibReadsector bch sector
      if r.1 < 0 then r
      else
        let nbytes := headBytes bch sectoffset buffer.length
        let bch := r.2.patch sectoffset (buffer.take nbytes)
        if sector + 1 ≥ bch.nsectors then (nbytes, bch)
        else bchlibWriteSectors bch (buffer.drop nbytes) (sector + 1) nbytes
    else bchlibWriteSectors bch buffer sector 0

/-! ## `bchlib_read`

The user buffer is filled from its start, so the result is the list of the bytes stored
there; `bytesread` is its length.
-/

/-- A result of `bchlib_read`: return value, bytes stored, new state. -/
structure ReadResult where
  ret : Int
  bytes : List UInt8
  bch : Bchlib

def bchlibReadTail (bch : Bchlib) (buffer : List UInt8) (sector len : Nat) : ReadResult :=
  if len > 0 then
    let r := bchlibReadsector bch sector
    if r.1 < 0 then ⟨r.1, buffer, r.2⟩
    else
      let buffer := buffer ++ r.2.buffer.read 0 len
      ⟨buffer.length, buffer, r.2⟩
  else ⟨buffer.length, buffer, bch⟩

def bchlibReadSectors (bch : Bchlib) (buffer : List UInt8) (sector len : Nat) : ReadResult :=
  if len ≥ bch.sectsize then
    let nsectors := wholeSectors bch sector len
    if bch.inode.readRet sector nsectors < 0 then ⟨bch.inode.readRet sector nsectors, buffer, bch⟩
    else
      let buffer := buffer ++ bch.mediaRead sector nsectors
      if sector + nsectors ≥ bch.nsectors then ⟨buffer.length, buffer, bch⟩
      else bchlibReadTail bch buffer (sector + nsectors) (len - nsectors * bch.sectsize)
  else bchlibReadTail bch buffer sector len

def bchlibRead (bch : Bchlib) (offset len : Nat) : ReadResult :=
  if len < 1 then ⟨0, [], bch⟩
  else
    let sector := offset / bch.sectsize
    let sectoffset := sectoffset bch offset
    if sector ≥ bch.nsectors then ⟨0, [], bch⟩
    else if sectoffset > 0 then
      let r := bchlibReadsector bch sector
      if r.1 < 0 then ⟨r.1, [], r.2⟩
      else
        let nbytes := headBytes bch sectoffset len
        let buffer := r.2.buffer.read sectoffset nbytes
        if sector + 1 ≥ bch.nsectors then ⟨nbytes, buffer, r.2⟩
        else bchlibReadSectors r.2 buffer (sector + 1) (len - nbytes)
    else bchlibReadSectors bch [] sector len

end Gpmx.Bch

/-!
## The BCH cache against a flat byte array

A BCH device should behave as one flat array of `nsectors * sectsize` bytes. `Coherent bch flat`
says that the device, medium and sector buffer together, stands for the array `flat`:
the buffer holds the array's bytes of the cached sector, and the medium holds all others.

Every phase of a transfer keeps `Coherent`, with one exception each for the two fast paths.
A whole-sector read does not look at the buffer, so it must not cover a dirty cached sector.
A whole-sector write does not update the buffer, so it must not cover the cached sector at
all. `Op.CacheSafe` says just that.
-/

namespace Gpmx.Bch

open Infra Memory

variable {bch : Bchlib} {flat : Memory UInt8}

/-- The device stands for the byte array `flat`. -/
structure Coherent (bch : Bchlib) (flat : Memory UInt8) : Prop where
  reliable : bch.inode.Reliable
  /-- `geo_sectorsize` is an `int16_t`. -/
  sectsize_pos : 0 < bch.sectsize
  sectsize_lt : bch.sectsize < 2 ^ 15
  nsectors_lt : bch.nsectors < 2 ^ 32
  dirty_cached : bch.dirty = true → bch.sector < bch.nsectors
  cached : bch.sector < bch.nsectors →
    ∀ j, j < bch.sectsize → bch.buffer j = flat (bch.sector * bch.sectsize + j)
  media : ∀ i, i < bch.nsectors * bch.sectsize →
    (bch.dirty = true →
      i < bch.sector * bch.sectsize ∨ bch.sector * bch.sectsize + bch.sectsize ≤ i) →
    bch.inode.media i = flat i

theorem coherent_setup {inode : BlockDriver} {nsectors sectsize : Nat} (buffer : Memory UInt8)
    (hr : inode.Reliable) (hpos : 0 < sectsize) (hss : sectsize < 2 ^ 15)
    (hns : nsectors < 2 ^ 32) :
    Coherent (bchlibSetup inode nsectors sectsize buffer) inode.media where
  reliable := hr
  sectsize_pos := hpos
  sectsize_lt := hss
  nsectors_lt := hns
  dirty_cached := by intro h; simp [bchlibSetup] at h
  cached := by
    intro h
    simp only [bchlibSetup, noSector] at h
    omega
  media := fun _ _ _ => rfl

/-! ## Sector arithmetic -/

theorem sector_end_le {s n k : Nat} (h : s < n) : s * k + k ≤ n * k := by
  have := Nat.mul_le_mul_right k (show s + 1 ≤ n from h)
  rwa [Nat.succ_mul] at this

theorem sector_apart {s a n k j : Nat} (h : s < a ∨ a + n ≤ s) (hj : j < k) :
    s * k + j < a * k ∨ a * k + n * k ≤ s * k + j := by
  rcases h with h | h
  · have := sector_end_le (k := k) h
    omega
  · have := Nat.mul_le_mul_right k h
    rw [Nat.add_mul] at this
    omega

theorem sectoffset_eq (hpos : 0 < bch.sectsize) (hlt : bch.sectsize < 2 ^ 15) (offset : Nat) :
    sectoffset bch offset = offset % bch.sectsize := by
  have h1 := Nat.mod_lt offset hpos
  have h3 := Nat.div_add_mod' offset bch.sectsize
  unfold sectoffset
  rw [show offset - offset / bch.sectsize * bch.sectsize = offset % bch.sectsize by omega]
  exact Nat.mod_eq_of_lt (by omega)

theorem wholeSectors_eq (h : Coherent bch flat) {sector len : Nat}
    (hin : sector * bch.sectsize + len ≤ bch.nsectors * bch.sectsize) :
    wholeSectors bch sector len = len / bch.sectsize ∧
      sector + len / bch.sectsize ≤ bch.nsectors := by
  have hle : sector + len / bch.sectsize ≤ bch.nsectors := by
    rw [← Nat.mul_le_mul_right_iff h.sectsize_pos, Nat.add_mul]
    have := Nat.div_mul_le_self len bch.sectsize
    omega
  refine ⟨?_, hle⟩
  have := h.nsectors_lt
  unfold wholeSectors
  rw [if_neg]
  rw [Nat.mod_eq_of_lt (by omega)]
  omega

/-! ## The cache operations keep the geometry -/

@[simp] theorem mediaWrite_sectsize (start : Nat) (bytes : List UInt8) :
    (bch.mediaWrite start bytes).sectsize = bch.sectsize := rfl

@[simp] theorem mediaWrite_nsectors (start : Nat) (bytes : List UInt8) :
    (bch.mediaWrite start bytes).nsectors = bch.nsectors := rfl

@[simp] theorem patch_sectsize (off : Nat) (bytes : List UInt8) :
    (bch.patch off bytes).sectsize = bch.sectsize := rfl

@[simp] theorem patch_nsectors (off : Nat) (bytes : List UInt8) :
    (bch.patch off bytes).nsectors = bch.nsectors := rfl

@[simp] theorem patch_sector (off : Nat) (bytes : List UInt8) :
    (bch.patch off bytes).sector = bch.sector := rfl

@[simp] theorem flushsector_sectsize : (bchlibFlushsector bch).2.sectsize = bch.sectsize := by
  unfold bchlibFlushsector
  split
  · split <;> rfl
  · rfl

@[simp] theorem flushsector_nsectors : (bchlibFlushsector bch).2.nsectors = bch.nsectors := by
  unfold bchlibFlushsector
  split
  · split <;> rfl
  · rfl

@[simp] theorem readsector_sectsize (s : Nat) :
    (bchlibReadsector bch s).2.sectsize = bch.sectsize := by
  unfold bchlibReadsector
  split
  · dsimp only
    split
    · simp
    · split <;> simp
  · rfl

@[simp] theorem readsector_nsectors (s : Nat) :
    (bchlibReadsector bch s).2.nsectors = bch.nsectors := by
  unfold bchlibReadsector
  split
  · dsimp only
    split
    · simp
    · split <;> simp
  · rfl

/-! ## One lemma for each cache operation -/

section

variable (h : Coherent bch flat)
include h

theorem flushsector_spec : 0 ≤ (bchlibFlushsector bch).1 ∧ Coherent (bchlibFlushsector bch).2 flat ∧
      (bchlibFlushsector bch).2.dirty = false ∧
      (bchlibFlushsector bch).2.sector = bch.sector := by
  have hok := (h.reliable bch.sector 1).2
  unfold bchlibFlushsector
  by_cases hd : bch.dirty = true
  · rw [if_pos hd, if_neg (by omega)]
    refine ⟨hok, ?_, rfl, rfl⟩
    have hs := h.dirty_cached hd
    exact
      { h with
        dirty_cached := fun hc => by simp at hc
        cached := h.cached
        media := by
          intro i hi _
          show bch.inode.media.write _ _ i = flat i
          by_cases hin : bch.sector * bch.sectsize ≤ i ∧ i < bch.sector * bch.sectsize + bch.sectsize
          · rw [write_of_mem hin.1 (by simp; omega), getElem_read,
              h.cached hs _ (by omega)]
            congr 1
            omega
          · rw [write_of_not_mem (by simp; omega)]
            exact h.media i hi (fun _ => by omega) }
  · rw [if_neg hd]
    exact ⟨Int.le_refl _, h, by simpa using hd, rfl⟩

theorem readsector_spec {s : Nat} (hs : s < bch.nsectors) :
    0 ≤ (bchlibReadsector bch s).1 ∧ Coherent (bchlibReadsector bch s).2 flat ∧
      (bchlibReadsector bch s).2.sector = s := by
  obtain ⟨hf, hc, hd, _⟩ := flushsector_spec h
  unfold bchlibReadsector
  by_cases hne : bch.sector ≠ s
  · rw [if_pos hne]
    dsimp only
    have hok := (hc.reliable s 1).1
    rw [if_neg (by omega), if_neg (by omega)]
    refine ⟨hok, ?_, rfl⟩
    exact
      { hc with
        dirty_cached := fun hdd => by simp [hd] at hdd
        cached := by
          intro _ j hj
          have hend := sector_end_le (k := bch.sectsize) hs
          simp only [flushsector_sectsize] at hj ⊢
          rw [write_of_mem (by omega) (by simp [Bchlib.mediaRead]; omega)]
          unfold Bchlib.mediaRead
          rw [getElem_read]
          simp only [Nat.sub_zero]
          exact hc.media _ (by simp; omega) (fun hdd => by rw [hd] at hdd; simp at hdd)
        media := fun i hi _ => hc.media i hi (fun hdd => by rw [hd] at hdd; simp at hdd) }
  · rw [if_neg hne]
    exact ⟨Int.le_refl _, h, by simpa using hne⟩

theorem coherent_patch (hs : bch.sector < bch.nsectors)
    (off : Nat) (bytes : List UInt8) (hoff : off + bytes.length ≤ bch.sectsize) :
    Coherent (bch.patch off bytes) (flat.write (bch.sector * bch.sectsize + off) bytes) :=
  { h with
    dirty_cached := fun _ => hs
    cached := fun _ j hj => write_shift off bytes (h.cached hs j hj)
    media := by
      intro i hi hout
      have hout := hout rfl
      simp only [patch_sector, patch_sectsize] at hout
      rw [write_of_not_mem (by omega)]
      exact h.media i hi (fun _ => hout) }

theorem coherent_mediaWrite (hd : bch.dirty = false)
    (start n : Nat) (bytes : List UInt8) (hlen : bytes.length = n * bch.sectsize)
    (hfree : bch.sector < bch.nsectors → bch.sector < start ∨ start + n ≤ bch.sector) :
    Coherent (bch.mediaWrite start bytes) (flat.write (start * bch.sectsize) bytes) :=
  { h with
    cached := by
      intro hs j hj
      rw [write_of_not_mem (by rw [hlen]; exact sector_apart (hfree hs) hj)]
      exact h.cached hs j hj
    media := by
      intro i hi _
      have hm := h.media i hi (fun hdd => by rw [hd] at hdd; simp at hdd)
      show bch.inode.media.write _ _ i = flat.write _ _ i
      simpa using write_shift (c := 0) (start * bch.sectsize) bytes
        (show bch.inode.media i = flat (0 + i) by simpa using hm) }

theorem mediaRead_eq {start n : Nat} (hn : start + n ≤ bch.nsectors)
    (hfree : bch.dirty = true → bch.sector < start ∨ start + n ≤ bch.sector) :
    bch.mediaRead start n = flat.read (start * bch.sectsize) (n * bch.sectsize) := by
  refine read_congr fun i h1 h2 => h.media i ?_ fun hd => ?_
  · have := Nat.mul_le_mul_right bch.sectsize hn
    rw [Nat.add_mul] at this
    omega
  · rcases hfree hd with hf | hf
    · have := sector_end_le (k := bch.sectsize) hf
      omega
    · have := Nat.mul_le_mul_right bch.sectsize hf
      rw [Nat.add_mul] at this
      omega

end

end Gpmx.Bch
