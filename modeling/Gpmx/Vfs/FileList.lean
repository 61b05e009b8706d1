import Mathlib

/-!
# VFS: the list of files of a task

`gpm/fs/inode/fs_files.c`. A descriptor is an index into a table of two levels: `fl_files` points to an
array of row pointers, and a row has `CONFIG_NFILE_DESCRIPTORS_PER_BLOCK` files. The table grows by whole
rows when a descriptor is needed that it does not have.

The heap has the blocks that are allocated; a block that is freed is never given out again under its
number, so that a pointer to it can be told from every other one. `none` is a step through such a pointer.
-/

namespace Gpmx.Vfs

open Function

def EBADF : Int := 9
def ENFILE : Int := 23
def EMFILE : Int := 24

/-- `CONFIG_NFILE_DESCRIPTORS_PER_BLOCK` and `OPEN_MAX`, with what the types of `fl_rows` and of a
descriptor ask of them. -/
structure Limits where
  perBlock : Nat
  openMax : Nat
  perBlock_pos : 0 < perBlock
  perBlock_lt : perBlock < 2 ^ 31
  openMax_lt : openMax < 2 ^ 31
  rows_lt : openMax / perBlock < 2 ^ 8

/-- The values of `gpm/fs/fs.h` and `sys/types.h`. -/
def defaultLimits : Limits := ⟨8, 255, (by decide : 1 ≤ 8), by decide, by decide, by decide⟩

/-- `struct file`; an inode and a private structure are known by their addresses. -/
structure File where
  oflags : Int
  pos : Int
  inode : Nat
  priv : Nat
deriving DecidableEq

/-- What `kmm_zalloc` and `memset` leave. -/
def File.zero : File := ⟨0, 0, 0, 0⟩

/-- The arrays of row pointers and the rows that are allocated, and the number of the next block. -/
structure Heap where
  arrays : Nat → Option (Nat → Nat)
  rows : Nat → Option (Nat → File)
  next : Nat

structure Filelist where
  rows : Nat
  files : Nat

/-- No file has been opened; blocks are numbered from 1, and 0 is NULL. -/
def Heap.empty : Heap := ⟨fun _ => none, fun _ => none, 1⟩

def Filelist.empty : Filelist := ⟨0, 0⟩

/-! ## The heap -/

/-- `kmm_realloc` of an array of row pointers, where there is memory: the block moves, with its contents. -/
def Heap.realloc (heap : Heap) (p : Nat) : Option (Nat × Heap) := do
  let contents ← if p = 0 then some fun _ => 0 else heap.arrays p
  return (heap.next, { heap with
    arrays := update (update heap.arrays p none) heap.next (some contents)
    next := heap.next + 1 })

/-- `kmm_zalloc` of a row, where there is memory. -/
def Heap.zalloc (heap : Heap) : Nat × Heap :=
  (heap.next, { heap with
    rows := update heap.rows heap.next (some fun _ => .zero)
    next := heap.next + 1 })

def Heap.freeRow (heap : Heap) (p : Nat) : Heap :=
  { heap with rows := update heap.rows p none }

def Heap.freeArray (heap : Heap) (p : Nat) : Heap :=
  { heap with arrays := update heap.arrays p none }

/-! ## `files_extend` -/

/-- Which allocations succeed: that of the array, and that of each row. -/
structure Growth where
  realloc : Bool
  zalloc : Nat → Bool

/-- The loop `while (--i >= list->fl_rows)`: `n` rows are freed, the last one first. -/
def freeRows (array : Nat → Nat) (heap : Heap) (base : Nat) : (n : Nat) → Heap
  | 0 => heap
  | n + 1 => freeRows array (heap.freeRow (array (base + n))) base n

/-- The loop over the new rows, from row `i` on, with `n` to go; `array` is what `tmp` points to. -/
def allocRows (zalloc : Nat → Bool) (tmp base : Nat) (array : Nat → Nat) (heap : Heap) (i : Nat) :
    (n : Nat) → Bool × Heap
  | 0 => (true, { heap with arrays := update heap.arrays tmp (some array) })
  | n + 1 =>
    if zalloc i then
      let (row, heap) := heap.zalloc
      allocRows zalloc tmp base (update array i row) heap (i + 1) n
    else (false, (freeRows array heap base (i - base)).freeArray tmp)

def filesExtend (lim : Limits) (g : Growth) (heap : Heap) (list : Filelist) (row : Nat) :
    Option (Int × Heap × Filelist) :=
  if row ≤ list.rows then some (0, heap, list)
  else if row * lim.perBlock % 2 ^ 32 > lim.openMax then some (-EMFILE, heap, list)
  else if g.realloc then do
    let (tmp, heap) ← heap.realloc list.files
    let array ← heap.arrays tmp
    match allocRows g.zalloc tmp list.rows array heap list.rows (row - list.rows) with
    -- `list->fl_files` is what it was
    | (false, heap) => some (-ENFILE, heap, list)
    | (true, heap) => some (0, heap, { rows := row % 2 ^ 8, files := tmp })
  else some (-ENFILE, heap, list)

/-! ## Descriptors -/

/-- `list->fl_files[i]`, and the files it points to. -/
def rowOf (heap : Heap) (list : Filelist) (i : Nat) : Option (Nat × (Nat → File)) := do
  let array ← heap.arrays list.files
  let row ← heap.rows (array i)
  return (array i, row)

/-- `list->fl_files[i][j]` is written. -/
def setFile (heap : Heap) (list : Filelist) (i j : Nat) (file : File) : Option Heap := do
  let (p, row) ← rowOf heap list i
  return { heap with rows := update heap.rows p (some (update row j file)) }

/-- The inner loop of `files_allocate`: the first free file from `j` on, with `n` to go. -/
def scanRow (row : Nat → File) (j : Nat) : (n : Nat) → Option Nat
  | 0 => none
  | n + 1 => if (row j).inode = 0 then some j else scanRow row (j + 1) n

/-- The outer loop: from `j` on in row `i`, and from 0 on in the `n` rows after it. -/
def scanRows (lim : Limits) (heap : Heap) (list : Filelist) (i j : Nat) :
    (n : Nat) → Option (Option (Nat × Nat))
  | 0 => do
    let (_, row) ← rowOf heap list i
    return (scanRow row j (lim.perBlock - j)).map fun j => (i, j)
  | n + 1 => do
    let (_, row) ← rowOf heap list i
    match scanRow row j (lim.perBlock - j) with
    | some j => return some (i, j)
    | none => scanRows lim heap list (i + 1) 0 n

/-- `files_allocate` from "Find free file" on. -/
def findFile (lim : Limits) (g : Growth) (heap : Heap) (list : Filelist) (file : File) (minfd : Nat) :
    Option (Int × Heap × Filelist) := do
  let i := minfd / lim.perBlock
  match ← scanRows lim heap list i (minfd % lim.perBlock) (list.rows - 1 - i) with
  | some (i, j) =>
    let heap ← setFile heap list i j file
    return ((i * lim.perBlock + j : Nat), heap, list)
  | none =>
    -- the loop over the rows ends at `fl_rows`
    let i := list.rows
    let (ret, heap, list) ← filesExtend lim g heap list (i + 1)
    if ret ≥ 0 then
      let heap ← setFile heap list i 0 file
      return ((i * lim.perBlock : Nat), heap, list)
    else return (ret, heap, list)

/-- `files_allocate`; `sem` says whether the semaphore is taken. -/
def filesAllocate (lim : Limits) (sem : Bool) (g : Growth) (heap : Heap) (list : Filelist)
    (file : File) (minfd : Nat) : Option (Int × Heap × Filelist) :=
  if sem then
    let i := minfd / lim.perBlock
    if i ≥ list.rows then do
      let (ret, heap, list) ← filesExtend lim g heap list (i + 1)
      if ret < 0 then return (ret, heap, list) else findFile lim g heap list file minfd
    else findFile lim g heap list file minfd
  else some (-1, heap, list)

/-- What the inode's methods do in `file_dup2`: an error of `inode_addref`, `dup` or `open`, or the
private structure of the copy. -/
abbrev Dup := Except Int Nat

/-- `file_dup2` on two files of the list. -/
def fileDup2 (dup : Dup) (heap : Heap) (list : Filelist) (i₁ j₁ i₂ j₂ : Nat) : Option (Int × Heap) := do
  let (_, row) ← rowOf heap list i₁
  if (row j₁).inode = 0 then return (-EBADF, heap)
  else if i₁ = i₂ ∧ j₁ = j₂ then return (0, heap)
  else
    match dup with
    | .error ret => return (ret, heap)
    | .ok priv =>
      let heap ← setFile heap list i₂ j₂ { row j₁ with priv }
      return (0, heap)

/-- `nx_dup2` from "Perform the dup2 operation" on. -/
def dupFile (lim : Limits) (dup : Dup) (heap : Heap) (list : Filelist) (fd₁ fd₂ : Nat) :
    Option (Int × Heap × Filelist) := do
  let (ret, heap) ← fileDup2 dup heap list (fd₁ / lim.perBlock) (fd₁ % lim.perBlock)
    (fd₂ / lim.perBlock) (fd₂ % lim.perBlock)
  return (if ret < 0 then ret else fd₂, heap, list)

def nxDup2 (lim : Limits) (sem : Bool) (g : Growth) (dup : Dup) (heap : Heap) (list : Filelist)
    (fd₁ fd₂ : Int) : Option (Int × Heap × Filelist) :=
  if fd₁ < 0 ∨ fd₁ ≥ lim.perBlock * list.rows ∨ fd₂ < 0 then some (-EBADF, heap, list)
  else if sem then
    if fd₂ ≥ lim.perBlock * list.rows then do
      let (ret, heap, list) ← filesExtend lim g heap list (fd₂.toNat / lim.perBlock + 1)
      if ret < 0 then return (ret, heap, list) else dupFile lim dup heap list fd₁.toNat fd₂.toNat
    else dupFile lim dup heap list fd₁.toNat fd₂.toNat
  else some (-1, heap, list)

/-- `nx_close`; `ret` is what `file_close` returns. -/
def nxClose (lim : Limits) (sem : Bool) (ret : Int) (heap : Heap) (list : Filelist) (fd : Int) :
    Option (Int × Heap × Filelist) :=
  if sem then
    if fd < 0 ∨ fd ≥ list.rows * lim.perBlock then some (-EBADF, heap, list)
    else do
      let (_, row) ← rowOf heap list (fd.toNat / lim.perBlock)
      if (row (fd.toNat % lim.perBlock)).inode = 0 then return (-EBADF, heap, list)
      else
        let heap ← setFile heap list (fd.toNat / lim.perBlock) (fd.toNat % lim.perBlock) .zero
        return (ret, heap, list)
  else some (-1, heap, list)

end Gpmx.Vfs
