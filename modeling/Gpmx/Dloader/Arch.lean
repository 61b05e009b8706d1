import Gpmx.Infra.Words

/-!
# `dl_relocate`

`apps/libs/dloader/dl_arch.c` on a 32-bit ARM, as the stores that a relocation makes. The 32-bit
arithmetic is that of `uint32_t`; `Elf32_Sword` is the same word, shifted to the right with its sign.
-/

namespace Gpmx.Dloader

open Infra

/-- `DL_Err_Type` -/
inductive DlErr where
  | noErr
  | fileInvalid
  | mallocFail
  | memsizeErr
  | relocateErr
  | undefSymErr
  | platformErr
  | elfNotSupport
  deriving DecidableEq

/-- The fields of `DL_Handler` that say where the image is. -/
structure DlHandler where
  memPtr : BitVec 32
  memSize : BitVec 32
  vstartAddr : BitVec 32

structure Elf32Rel where
  rOffset : BitVec 32
  rInfo : BitVec 32
  deriving DecidableEq

/-- The types of `dl_relocate`, `R_ARM_NONE` to `R_ARM_THM_MOVT_ABS`. -/
inductive RelType where
  | none
  | pc24
  | abs32
  | rel32
  | thmCall
  | globDat
  | jumpSlot
  | relative
  | plt32
  | call
  | jump24
  | thmJump24
  | v4bx
  | thmMovwAbsNc
  | thmMovtAbs
  | unsupported
  deriving DecidableEq

def elf32RType (info : BitVec 32) : RelType :=
  match (info.setWidth 8).toNat with
  | 0 => .none
  | 1 => .pc24
  | 2 => .abs32
  | 3 => .rel32
  | 10 => .thmCall
  | 21 => .globDat
  | 22 => .jumpSlot
  | 23 => .relative
  | 27 => .plt32
  | 28 => .call
  | 29 => .jump24
  | 30 => .thmJump24
  | 40 => .v4bx
  | 47 => .thmMovwAbsNc
  | 48 => .thmMovtAbs
  | _ => .unsupported

/-- `ELF_ST_TYPE(rel->r_info) == STT_FUNC` -/
def isSttFunc (info : BitVec 32) : Bool := info &&& 0xf = 2

/-- `where` -/
def place (handle : DlHandler) (rel : Elf32Rel) : BitVec 32 :=
  handle.memPtr + rel.rOffset - handle.vstartAddr

/-- The word that `R_ARM_PC24` and its likes store. -/
def relocateBranch (word place symAddr : BitVec 32) : BitVec 32 :=
  let addend := word &&& 0x00ffffff
  let addend := if addend &&& 0x00800000 ≠ 0 then addend ||| 0xff000000 else addend
  let tmp := symAddr - place + (addend <<< 2)
  let tmp := tmp >>> 2
  (word &&& 0xff000000) ||| (tmp &&& 0x00ffffff)

/-- `offset` of `R_ARM_THM_CALL`, before and after the address of the symbol has been added. -/
def thmOffset (upper lower : BitVec 32) : BitVec 32 :=
  let sign := (upper >>> 10) &&& 1
  let j1 := (lower >>> 13) &&& 1
  let j2 := (lower >>> 11) &&& 1
  let offset := (sign <<< 24) ||| ((~~~(j1 ^^^ sign) &&& 1) <<< 23) |||
    ((~~~(j2 ^^^ sign) &&& 1) <<< 22) ||| ((upper &&& 0x03ff) <<< 12) ||| ((lower &&& 0x07ff) <<< 1)
  if offset &&& 0x01000000 ≠ 0 then offset - 0x02000000 else offset

/-- The test for `Only Thumb addresses allowed`. -/
def thmRefused (offset : BitVec 32) : Bool :=
  offset &&& 1 = 0 ∨ offset.toInt ≤ -0x01000000 ∨ offset.toInt ≥ 0x01000000

/-- The first half-word that `R_ARM_THM_CALL` stores. -/
def thmUpper (upper offset : BitVec 32) : BitVec 16 :=
  let sign := (offset.sshiftRight 24) &&& 1
  ((upper &&& 0xf800) ||| (sign <<< 10) ||| ((offset.sshiftRight 12) &&& 0x03ff)).setWidth 16

def thmLower (lower offset : BitVec 32) : BitVec 16 :=
  let sign := (offset.sshiftRight 24) &&& 1
  let j1 := sign ^^^ (~~~(offset.sshiftRight 23) &&& 1)
  let j2 := sign ^^^ (~~~(offset.sshiftRight 22) &&& 1)
  ((lower &&& 0xd000) ||| (j1 <<< 13) ||| (j2 <<< 11) ||| ((offset.sshiftRight 1) &&& 0x07ff)).setWidth 16

/-- The word that `R_ARM_THM_MOVW_ABS_NC` stores. -/
def relocateMovw (word info symAddr : BitVec 32) : BitVec 32 :=
  let tmp := (word >>> 16) ||| (word <<< 16)
  let tmp := tmp &&& 0xFBF08F00
  let symAddr := symAddr &&& 0x0000ffff
  let symAddr := if isSttFunc info then symAddr ||| 1 else symAddr
  let tmp := tmp ||| (((symAddr >>> 12) &&& 0xf) <<< 16)
  let tmp := tmp ||| (((symAddr >>> 11) &&& 0x1) <<< 26)
  let tmp := tmp ||| (((symAddr >>> 8) &&& 0x7) <<< 12)
  let tmp := tmp ||| (symAddr &&& 0xff)
  (tmp >>> 16) ||| (tmp <<< 16)

/-- The word that `R_ARM_THM_MOVT_ABS` stores. -/
def relocateMovt (word symAddr : BitVec 32) : BitVec 32 :=
  let tmp := (word >>> 16) ||| (word <<< 16)
  let tmp := tmp &&& 0xFBF08F00
  let symAddr := symAddr &&& 0xffff0000
  let tmp := tmp ||| (((symAddr >>> 28) &&& 0xf) <<< 16)
  let tmp := tmp ||| (((symAddr >>> 27) &&& 0x1) <<< 26)
  let tmp := tmp ||| (((symAddr >>> 24) &&& 0x7) <<< 12)
  let tmp := tmp ||| ((symAddr >>> 16) &&& 0xff)
  (tmp >>> 16) ||| (tmp <<< 16)

def dlRelocate (handle : DlHandler) (m : ByteMem) (rel : Elf32Rel) (symAddr : BitVec 32) :
    DlErr × List Store :=
  let p := place handle rel
  let w := load32 m p
  match elf32RType rel.rInfo with
  | .none => (.noErr, [])
  | .abs32 => (.noErr, [.word p (w + symAddr)])
  | .pc24 | .plt32 | .call | .jump24 => (.noErr, [.word p (relocateBranch w p symAddr)])
  | .rel32 => (.noErr, [.word p (w + (symAddr - p))])
  | .v4bx => (.noErr, [.word p (w &&& 0xf000000f), .word p ((w &&& 0xf000000f) ||| 0x01a0f000)])
  | .globDat | .jumpSlot => (.noErr, [.word p symAddr])
  | .relative => (.noErr, [.word p (symAddr + w)])
  | .thmCall | .thmJump24 =>
    let upper := (load16 m p).setWidth 32
    let lower := (load16 m (p + 2)).setWidth 32
    let offset := thmOffset upper lower + (symAddr - p)
    if thmRefused offset then (.relocateErr, [])
    else
      -- `where` points to words, so that `where + 2` is eight bytes on
      (.noErr, [.half p (thmUpper upper offset), .half (p + 8) (thmLower lower offset)])
  | .thmMovwAbsNc => (.noErr, [.word p (relocateMovw w rel.rInfo symAddr)])
  | .thmMovtAbs => (.noErr, [.word p (relocateMovt w symAddr)])
  | .unsupported => (.relocateErr, [])

end Gpmx.Dloader
