import Gpmx.Infra.Memory

/-!
# CROMFS: reading a file

`cromfs_read` of `gpm/fs/romfs/fs_cromfs.c`. The data of a file are blocks one behind the other in
the image, each under a header: type 0 with the bytes as they are, type 1 with compressed ones
(`include/lzf.h`). `lzf_decompress` comes from outside.

Positions and lengths are words of 32 bits. The one sum that can reach 2^32 on a well-formed image,
`f_pos + buflen`, wraps here as it does there.
-/

namespace Gpmx.Romfs

open Infra

def LZF_TYPE0_HDR : UInt8 := 0
def LZF_TYPE0_HDR_SIZE : Nat := 5
def LZF_TYPE1_HDR_SIZE : Nat := 7

def be16 (hi lo : UInt8) : Nat := hi.toNat * 256 + lo.toNat

/-- What the header at `hdr` says: the type, the length of the data, and that of the block. -/
def lzfType (image : Memory UInt8) (hdr : Nat) : UInt8 := image (hdr + 2)

def lzfClen (image : Memory UInt8) (hdr : Nat) : Nat := be16 (image (hdr + 3)) (image (hdr + 4))

def lzfUlen (image : Memory UInt8) (hdr : Nat) : Nat :=
  if lzfType image hdr = LZF_TYPE0_HDR then be16 (image (hdr + 3)) (image (hdr + 4))
  else be16 (image (hdr + 5)) (image (hdr + 6))

def lzfBlksize (image : Memory UInt8) (hdr : Nat) : Nat :=
  if lzfType image hdr = LZF_TYPE0_HDR then lzfUlen image hdr + LZF_TYPE0_HDR_SIZE
  else lzfClen image hdr + LZF_TYPE1_HDR_SIZE

/-- An open file: `f_pos`, and `struct cromfs_file_s` with the node it refers to. -/
structure OpenFile where
  cnSize : Nat
  cnBlocks : Nat
  fPos : Nat
  ffOffset : Nat
  ffUlen : Nat
  ffBuffer : Memory UInt8

/-- The variables of `cromfs_read`, and what it writes to. `dest` counts from the buffer on. -/
structure Transfer where
  dest : Nat
  remaining : Nat
  fpos : Nat
  blkoffs : Nat
  ulen : Nat
  nexthdr : Nat
  ffOffset : Nat
  ffUlen : Nat
  ffBuffer : Memory UInt8
  buffer : Memory UInt8

section Read

variable (lzfDecompress : List UInt8 → Nat → List UInt8) (image : Memory UInt8) (cvBsize : Nat)

/-- The search for the block with `fpos`: `currhdr` and the variables. -/
def searchBlock : Nat → Transfer → Option (Nat × Transfer)
  | 0, _ => none
  | fuel + 1, t =>
    let currhdr := t.nexthdr
    let t := { t with
      blkoffs := t.blkoffs + t.ulen
      ulen := lzfUlen image currhdr
      nexthdr := currhdr + lzfBlksize image currhdr }
    if t.fpos ≥ t.blkoffs + t.ulen then searchBlock fuel t else some (currhdr, t)

def copyoffs (fPos : Nat) (t : Transfer) : Nat := if t.blkoffs ≥ fPos then 0 else fPos - t.blkoffs

def copysize (fPos : Nat) (t : Transfer) : Nat :=
  if t.ulen - copyoffs fPos t > t.remaining then t.remaining else t.ulen - copyoffs fPos t

def Transfer.advance (t : Transfer) (n : Nat) : Transfer :=
  { t with dest := t.dest + n, remaining := t.remaining - n, fpos := t.fpos + n }

def decompressed (currhdr : Nat) : List UInt8 :=
  lzfDecompress (image.read (currhdr + LZF_TYPE1_HDR_SIZE) (lzfClen image currhdr)) cvBsize

def copyBlock (fPos currhdr : Nat) (t : Transfer) : Transfer :=
  let offs := copyoffs fPos t
  let size := copysize fPos t
  if lzfType image currhdr = LZF_TYPE0_HDR then
    { t with
      buffer := t.buffer.write t.dest (image.read (currhdr + LZF_TYPE0_HDR_SIZE + offs) size) }.advance size
  else
    let voloffs := currhdr + LZF_TYPE1_HDR_SIZE
    let out := decompressed lzfDecompress image cvBsize currhdr
    if fPos ≤ t.blkoffs ∧ t.ulen ≤ t.remaining then
      -- straight to the user's buffer, and not at all if the offset is noted
      if voloffs ≠ t.ffOffset then
        { t with
          buffer := t.buffer.write t.dest out
          ffOffset := voloffs
          ffUlen := out.length % 2 ^ 16 }.advance t.ulen
      else t.advance t.ulen
    else
      let t := if voloffs ≠ t.ffOffset then
          { t with
            ffBuffer := t.ffBuffer.write 0 out
            ffOffset := voloffs
            ffUlen := out.length % 2 ^ 16 }
        else t
      { t with buffer := t.buffer.write t.dest (t.ffBuffer.read offs size) }.advance size

def readLoop (fPos : Nat) : Nat → Transfer → Option Transfer
  | 0, _ => none
  | fuel + 1, t =>
    if t.remaining = 0 then some t
    else do
      let r ← searchBlock image fuel t
      readLoop fPos fuel (copyBlock lzfDecompress image cvBsize fPos r.1 r.2)

/-- A `size_t` returned as `ssize_t`. -/
def toSsize (n : Nat) : Int := if n < 2 ^ 31 then n else (n : Int) - 2 ^ 32

/-- `cromfs_read`: the return value, the file, and the user's buffer. -/
def cromfsRead (fuel : Nat) (file : OpenFile) (buffer : Memory UInt8) (buflen : Nat) :
    Option (Int × OpenFile × Memory UInt8) :=
  if file.fPos > file.cnSize then some (0, file, buffer)
  else
    let buflen := if (file.fPos + buflen) % 2 ^ 32 > file.cnSize then file.cnSize - file.fPos else buflen
    (readLoop lzfDecompress image cvBsize file.fPos fuel
      ⟨0, buflen, file.fPos, 0, 0, file.cnBlocks, file.ffOffset, file.ffUlen, file.ffBuffer,
        buffer⟩).map fun t =>
      (toSsize buflen,
        { file with
          fPos := t.fpos % 2 ^ 32, ffOffset := t.ffOffset, ffUlen := t.ffUlen,
          ffBuffer := t.ffBuffer },
        t.buffer)

end Read

end Gpmx.Romfs
