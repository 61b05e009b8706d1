import Gpmx.Dloader.Arch
import Gpmx.Mm.Rtxmem

/-!
# `dl_load_lib`

`apps/libs/dloader/dl_lib.c` over the pool of `dl_port.c`. An image is the bytes behind `lib_ptr`. A call
ends as soon as it writes where it has allocated nothing: what follows then is left open.
-/

namespace Gpmx.Dloader

open Infra Mm

/-! ## `dl_port.c` -/

/-- `align_byte`, at least `sizeof(void *)`. -/
def alignment (alignByte : BitVec 32) : BitVec 32 := if alignByte < 4 then 4 else alignByte

/-- `total` -/
def alignedTotal (alignByte size : BitVec 32) : BitVec 32 := size + alignment alignByte - 1 + 4

def aligned (alignByte raw : BitVec 32) : BitVec 32 :=
  (raw + 4 + alignment alignByte - 1) &&& ~~~(alignment alignByte - 1)

/-- `dl_port_aligned_alloc`: the block, and the pointer into it that is returned. -/
def dlPortAlignedAlloc (pool : MemPool) (alignByte size : BitVec 32) :
    Option (BitVec 32 × BitVec 32 × MemPool) :=
  if alignByte = 0 ∨ alignByte &&& (alignByte - 1) ≠ 0 then none
  else if size = 0 ∨ size > 0xffffffff - alignment alignByte - 4 + 1 then none
  else
    (rtxMemAlloc pool (alignedTotal alignByte size) 0).map fun (raw, pool) =>
      (raw, aligned alignByte raw, pool)

/-- `dl_port_aligned_free` frees the pointer that it is given. -/
def dlPortAlignedFree (pool : MemPool) (ptr : BitVec 32) : MemPool := rtxMemFree pool ptr

def dlPortMalloc (pool : MemPool) (size : BitVec 32) : Option (BitVec 32 × MemPool) :=
  rtxMemAlloc pool size 0

def dlPortFree (pool : MemPool) (ptr : BitVec 32) : MemPool := rtxMemFree pool ptr

/-! ## The tables of an image -/

structure Elf32Phdr where
  pType : BitVec 32
  pOffset : BitVec 32
  pVaddr : BitVec 32
  pFilesz : BitVec 32
  pMemsz : BitVec 32
  pAlign : BitVec 32

structure Elf32Shdr where
  shName : BitVec 32
  shType : BitVec 32
  shOffset : BitVec 32
  shSize : BitVec 32
  shLink : BitVec 32

structure Elf32Sym where
  stName : BitVec 32
  stValue : BitVec 32
  stInfo : BitVec 8
  stShndx : BitVec 16
  deriving DecidableEq

def Elf32Sym.bind (sym : Elf32Sym) : BitVec 8 := sym.stInfo >>> 4

def Elf32Sym.type (sym : Elf32Sym) : BitVec 8 := sym.stInfo &&& 0xf

def elfPhdr (lib : ByteMem) (i : BitVec 32) : Elf32Phdr :=
  let a := load32 lib 28 + 32 * i
  { pType := load32 lib a
    pOffset := load32 lib (a + 4)
    pVaddr := load32 lib (a + 8)
    pFilesz := load32 lib (a + 16)
    pMemsz := load32 lib (a + 20)
    pAlign := load32 lib (a + 28) }

def elfShdr (lib : ByteMem) (i : BitVec 32) : Elf32Shdr :=
  let a := load32 lib 32 + 40 * i
  { shName := load32 lib a
    shType := load32 lib (a + 4)
    shOffset := load32 lib (a + 16)
    shSize := load32 lib (a + 20)
    shLink := load32 lib (a + 24) }

/-- `symtab[i]` -/
def elfSym (lib : ByteMem) (symtab i : BitVec 32) : Elf32Sym :=
  let a := symtab + 16 * i
  { stName := load32 lib a
    stValue := load32 lib (a + 4)
    stInfo := lib (a + 12)
    stShndx := load16 lib (a + 14) }

/-- `rel[j]` -/
def elfRel (lib : ByteMem) (table j : BitVec 32) : Elf32Rel :=
  { rOffset := load32 lib (table + 8 * j)
    rInfo := load32 lib (table + 8 * j + 4) }

def table {α : Type} (entry : BitVec 32 → α) (n : Nat) : List α :=
  (List.range n).map fun i => entry (BitVec.ofNat 32 i)

def elfPhdrs (lib : ByteMem) : List Elf32Phdr := table (elfPhdr lib) (load16 lib 44).toNat

/-- Those with `PT_LOAD`. -/
def loadPhdrs (phdrs : List Elf32Phdr) : List Elf32Phdr := phdrs.filter (·.pType = 1)

def elfShdrs (lib : ByteMem) : List Elf32Shdr := table (elfShdr lib) (load16 lib 48).toNat

/-- The relocations of the sections with `IS_REL`, each with its symbol. -/
def relocations (lib : ByteMem) : List (Elf32Rel × Elf32Sym) :=
  ((elfShdrs lib).filter (·.shType = 9)).flatMap fun shdr =>
    table (fun j =>
      let rel := elfRel lib shdr.shOffset j
      (rel, elfSym lib (elfShdr lib shdr.shLink).shOffset (rel.rInfo >>> 8))) (shdr.shSize / 8).toNat

/-- `strcmp` with a text, whether it is 0. -/
def strcmpEq (lib : ByteMem) : BitVec 32 → List (BitVec 8) → Bool
  | a, [] => lib a = 0
  | a, c :: text => lib a = c && strcmpEq lib (a + 1) text

/-- `strlen`, within so many bytes. -/
def strlenIn (lib : ByteMem) : Nat → BitVec 32 → Nat
  | 0, _ => 0
  | fuel + 1, a => if lib a = 0 then 0 else strlenIn lib fuel (a + 1) + 1

def strlen (lib : ByteMem) (a : BitVec 32) : BitVec 32 := BitVec.ofNat 32 (strlenIn lib (2 ^ 32) a)

def elfDynsym : List (BitVec 8) := [0x2e, 0x64, 0x79, 0x6e, 0x73, 0x79, 0x6d]

def dynsym (lib : ByteMem) : Option Elf32Shdr :=
  let shstrab := (elfShdr lib ((load16 lib 50).setWidth 32)).shOffset
  (elfShdrs lib).find? fun shdr => strcmpEq lib (shstrab + shdr.shName) elfDynsym

def functions (lib : ByteMem) (dynsym : Elf32Shdr) : List Elf32Sym :=
  (table (elfSym lib dynsym.shOffset) (dynsym.shSize / 16).toNat).filter fun sym =>
    sym.bind = 1 && sym.type = 2

/-- `length` of the name of a symbol. -/
def nameLength (lib : ByteMem) (dynsym : Elf32Shdr) (sym : Elf32Sym) : BitVec 32 :=
  strlen lib ((elfShdr lib dynsym.shLink).shOffset + sym.stName) + 1

/-! ## The load -/

inductive Outcome (ε α : Type) where
  /-- Bytes have been written outside of what has been allocated. -/
  | wild
  | fail (err : ε)
  | ok (value : α)

def headerErr (lib : ByteMem) : Option DlErr :=
  if lib 0 ≠ 0x7f ∨ lib 1 ≠ 0x45 ∨ lib 2 ≠ 0x4c ∨ lib 3 ≠ 0x46 then some .fileInvalid
  else if lib 4 ≠ 1 then some .platformErr
  else if load16 lib 16 ≠ 3 ∧ load16 lib 16 ≠ 2 then some .elfNotSupport
  else none

/-- `vstart_addr`, `vend_addr` and `max_align`. -/
structure Span where
  vstartAddr : BitVec 32
  vendAddr : BitVec 32
  maxAlign : BitVec 32
  deriving DecidableEq

def Span.memSize (span : Span) : BitVec 32 := span.vendAddr - span.vstartAddr

def Span.handle (span : Span) (memPtr : BitVec 32) : DlHandler :=
  { memPtr
    memSize := span.memSize
    vstartAddr := span.vstartAddr }

/-- The loop over the segments; `none` until `has_vstart` is set. -/
def spanOf : Option Span → List Elf32Phdr → Except DlErr (Option Span)
  | span, [] => .ok span
  | span, phdr :: rest =>
    if phdr.pType ≠ 1 then spanOf span rest
    else if phdr.pMemsz < phdr.pFilesz then .error .fileInvalid
    else
      let vendAddr := phdr.pVaddr + phdr.pMemsz
      match span with
      | none =>
        if vendAddr < phdr.pVaddr then .error .fileInvalid
        else spanOf (some { vstartAddr := phdr.pVaddr, vendAddr, maxAlign := phdr.pAlign }) rest
      | some span =>
        if phdr.pVaddr < span.vendAddr then .error .fileInvalid
        else if vendAddr < phdr.pVaddr then .error .fileInvalid
        else
          let maxAlign := if phdr.pAlign > span.maxAlign then phdr.pAlign else span.maxAlign
          spanOf (some { span with vendAddr, maxAlign }) rest

/-- A store that writes only into `mem_size` bytes from `mem_ptr` on. -/
def Inside (handle : DlHandler) (s : Store) : Prop :=
  ∀ x, s.Writes x → (x - handle.memPtr).toNat < handle.memSize.toNat

instance (handle : DlHandler) (s : Store) : Decidable (Inside handle s) :=
  decidable_of_iff (s.bytes = [] ∨ (s.addr - handle.memPtr).toNat + s.bytes.length ≤ handle.memSize.toNat)
    (Store.within_iff_le handle.memSize.isLt)

/-- The `memcpy` of a segment. -/
def copySegment (handle : DlHandler) (lib : ByteMem) (phdr : Elf32Phdr) : Store :=
  { addr := handle.memPtr + phdr.pVaddr - handle.vstartAddr
    bytes := table (fun k => lib (phdr.pOffset + k)) phdr.pFilesz.toNat }

/-- The `memcpy` of every segment. -/
def copySegments (handle : DlHandler) (lib : ByteMem) : List Store :=
  (loadPhdrs (elfPhdrs lib)).map (copySegment handle lib)

/-- `memset(pHandle->mem_ptr,0,pHandle->mem_size)` -/
def clear (handle : DlHandler) : Store :=
  { addr := handle.memPtr
    bytes := List.replicate handle.memSize.toNat 0 }

/-- The memory before relocation; the pointer to the block is stored before the region. -/
def copied (handle : DlHandler) (raw : BitVec 32) (lib memory : ByteMem) : ByteMem :=
  Store.run memory (.word (handle.memPtr - 4) raw :: clear handle :: copySegments handle lib)

structure Region where
  handle : DlHandler
  memory : ByteMem
  pool : MemPool

/-- `dl_load_lib` until the segments have been copied. -/
def prepare (lib memory : ByteMem) (pool : MemPool) : Outcome DlErr Region :=
  match headerErr lib with
  | some err => .fail err
  | none =>
    match spanOf none (elfPhdrs lib) with
    | .error err => .fail err
    | .ok none => .fail .memsizeErr
    | .ok (some span) =>
      if span.memSize = 0 then .fail .memsizeErr
      else
        match dlPortAlignedAlloc pool span.maxAlign span.memSize with
        | none => .fail .mallocFail
        | some (raw, memPtr, pool) =>
          let handle := span.handle memPtr
          -- the region is to end before the block that it is in
          if (memPtr - raw).toNat + span.memSize.toNat + 8 ≤
              (blockSize (alignedTotal span.maxAlign span.memSize)).toNat then
            if ∀ s ∈ copySegments handle lib, Inside handle s then
              .ok { handle, memory := copied handle raw lib memory, pool }
            else .wild
          else .wild

/-- `(sym->st_shndx != SHT_NULL) || (ELF_ST_BIND(sym->st_info) == STB_LOCAL)` -/
def Elf32Sym.resolved (sym : Elf32Sym) : Bool := sym.stShndx ≠ 0 || sym.bind = 0

/-- `pHandle->mem_ptr + sym->st_value - vstart_addr` -/
def symAddr (handle : DlHandler) (sym : Elf32Sym) : BitVec 32 :=
  handle.memPtr + sym.stValue - handle.vstartAddr

def relocateAll (handle : DlHandler) : ByteMem → List (Elf32Rel × Elf32Sym) → Outcome DlErr ByteMem
  | m, [] => .ok m
  | m, (rel, sym) :: rest =>
    if sym.resolved then
      match dlRelocate handle m rel (symAddr handle sym) with
      | (.noErr, stores) =>
        if ∀ s ∈ stores, Inside handle s then relocateAll handle (Store.run m stores) rest else .wild
      | (err, _) => .fail err
    else .fail .undefSymErr

/-- `DL_Symbol_Type` -/
structure DlSymbol where
  name : BitVec 32
  addr : BitVec 32

def copyNames (handle : DlHandler) (length : Elf32Sym → BitVec 32) :
    MemPool → List DlSymbol → List Elf32Sym → Outcome (DlErr × MemPool) (List DlSymbol × MemPool)
  | pool, symtab, [] => .ok (symtab, pool)
  | pool, symtab, sym :: rest =>
    match dlPortMalloc pool (length sym) with
    -- `fail3`: the names that are still to come are `NULL`
    | none => .fail (.mallocFail, symtab.foldl (fun pool s => dlPortFree pool s.name) pool)
    | some (name, pool) =>
      if (length sym).toNat + 8 ≤ (blockSize (length sym)).toNat then
        copyNames handle length pool (symtab ++ [{ name, addr := symAddr handle sym }]) rest
      else .wild

def buildSymtab (handle : DlHandler) (lib : ByteMem) (pool : MemPool) :
    Outcome (DlErr × MemPool) (List DlSymbol × MemPool) :=
  match dynsym lib with
  | none => .ok ([], pool)
  | some dynsym =>
    let syms := functions lib dynsym
    let size := BitVec.ofNat 32 (syms.length * 8)
    match dlPortMalloc pool size with
    | none =>
      if syms.length = 0 then .ok ([], pool)
      -- `fail2`
      else .fail (.mallocFail, dlPortFree pool 0)
    | some (symtab, pool) =>
      if size.toNat + 8 ≤ (blockSize size).toNat then
        match copyNames handle (nameLength lib dynsym) pool [] syms with
        | .fail (err, pool) => .fail (err, dlPortFree pool symtab)
        | outcome => outcome
      else .wild

structure Loaded where
  handle : DlHandler
  entryAddr : BitVec 32
  symtab : List DlSymbol
  memory : ByteMem
  pool : MemPool

def dlLoadLib (lib memory : ByteMem) (pool : MemPool) : Outcome (DlErr × MemPool) Loaded :=
  match prepare lib memory pool with
  | .wild => .wild
  | .fail err => .fail (err, pool)
  | .ok { handle, memory, pool } =>
    let entry := load32 lib 24
    let entryAddr := if entry ≠ 0 then handle.memPtr + entry - handle.vstartAddr else 0
    match relocateAll handle memory (relocations lib) with
    | .wild => .wild
    | .fail err => .fail (err, dlPortAlignedFree pool handle.memPtr)
    | .ok memory =>
      match buildSymtab handle lib pool with
      | .wild => .wild
      | .fail (err, pool) => .fail (err, dlPortAlignedFree pool handle.memPtr)
      | .ok (symtab, pool) => .ok { handle, entryAddr, symtab, memory, pool }

end Gpmx.Dloader
