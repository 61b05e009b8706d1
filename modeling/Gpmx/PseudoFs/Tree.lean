import Gpmx.Infra.LinkedTree
import Mathlib

/-!
# Paths and names

How `_inode_compare` and `inode_nextname` read a path, and the names it is made of. Strings are
lists of characters, their end stands for the terminating NUL.

* `inodeCompare_eq` — `_inode_compare` is the lexicographic comparison of the first segment
* `segments_absolute` — the segments a search meets are the root's and the components of the path
-/

namespace Gpmx.PseudoFs

open List

abbrev Name := List Char

/-- `_inode_compare`: negative, zero or positive as the segment at `fname` is before, at or
after the name. -/
def inodeCompare : List Char → Name → Int
  | [], [] => 0
  | c :: _, [] => if c = '/' then 0 else 1
  | [], _ :: _ => -1
  | c :: fname, n :: nname =>
    if c = '/' then -1
    else if n < c then 1
    else if c < n then -1
    else inodeCompare fname nname

/-- `inode_nextname`: skip the segment, then all slashes behind it. -/
def inodeNextname (name : List Char) : List Char :=
  (name.dropWhile (· != '/')).dropWhile (· == '/')

/-- What `inode_namecpy` copies: up to a slash or the end. -/
def inodeNamecpy (src : List Char) : Name := src.takeWhile (· != '/')

def components (path : List Char) : List Name := (path.splitOn '/').filter (· ≠ [])

/-- What a search that starts at `name` looks for, one name after the other. -/
def segments (name : List Char) : List Name := inodeNamecpy name :: components (inodeNextname name)

theorem inodeCompare_eq (fname : List Char) (nname : Name) :
    inodeCompare fname nname =
      if inodeNamecpy fname < nname then -1 else if nname < inodeNamecpy fname then 1 else 0 := by
  induction fname generalizing nname with
  | nil => cases nname <;> simp [inodeCompare, inodeNamecpy]
  | cons c fname ih =>
    cases nname with
    | nil =>
      by_cases hc : c = '/' <;> simp [inodeCompare, inodeNamecpy, hc]
    | cons n nname =>
      unfold inodeCompare
      by_cases hc : c = '/'
      · simp [inodeNamecpy, hc]
      · have hcpy : inodeNamecpy (c :: fname) = c :: inodeNamecpy fname := by
          simp [inodeNamecpy, hc]
        rw [if_neg hc, hcpy, ih]
        rcases lt_trichotomy c n with hlt | rfl | hgt
        · have h1 : c :: inodeNamecpy fname < n :: nname := cons_lt_cons_iff.mpr (Or.inl hlt)
          rw [if_neg (lt_asymm hlt), if_pos hlt, if_pos h1]
        · simp
        · have h1 : n :: nname < c :: inodeNamecpy fname := cons_lt_cons_iff.mpr (Or.inl hgt)
          rw [if_pos hgt, if_neg (lt_asymm h1), if_pos h1]

/-! ## Components -/

@[simp] theorem components_nil : components [] = [] := by
  simp [components]

theorem components_append_slash (xs ys : List Char) :
    components (xs ++ '/' :: ys) = components xs ++ components ys := by
  unfold components
  rw [splitOn_append_cons_self, filter_append]

theorem components_slash (ys : List Char) : components ('/' :: ys) = components ys :=
  components_append_slash [] ys

theorem components_dropWhile_slash (ys : List Char) :
    components (ys.dropWhile (· == '/')) = components ys := by
  induction ys with
  | nil => rfl
  | cons c ys ih =>
    by_cases hc : c = '/'
    · subst hc
      rw [components_slash, ← ih]
      rfl
    · rw [dropWhile_cons_of_neg (by simpa using hc)]

theorem slash_not_mem_namecpy (name : List Char) : '/' ∉ inodeNamecpy name := by
  intro hmem
  simpa using mem_takeWhile_imp hmem

variable {n : Name} {name : List Char}

theorem components_of_name (hslash : '/' ∉ n) (hne : n ≠ []) : components n = [n] := by
  unfold components
  rw [splitOn_eq_singleton hslash]
  simp [hne]

theorem components_eq (name : List Char) :
    components name = components (inodeNamecpy name) ++ components (inodeNextname name) := by
  have hsplit := takeWhile_append_dropWhile (p := (· != '/')) (l := name)
  unfold inodeNextname
  rw [components_dropWhile_slash]
  cases hd : name.dropWhile (· != '/') with
  | nil =>
    rw [hd, append_nil] at hsplit
    rw [show inodeNamecpy name = name from hsplit, components_nil, append_nil]
  | cons c ys =>
    have hc : c = '/' := by
      have := head_dropWhile_not (p := (· != '/')) (l := name) (by rw [hd]; simp)
      simpa [hd] using this
    subst hc
    rw [hd] at hsplit
    rw [components_slash, ← components_append_slash]
    exact congrArg components hsplit.symm

theorem namecpy_nextname_ne_nil (h : inodeNextname name ≠ []) :
    inodeNamecpy (inodeNextname name) ≠ [] := by
  unfold inodeNamecpy inodeNextname at *
  generalize name.dropWhile (· != '/') = ys at h ⊢
  have hhead := head_dropWhile_not (p := (· == '/')) (l := ys) h
  cases hd : ys.dropWhile (· == '/') with
  | nil => exact absurd hd h
  | cons c zs =>
    have hc : c ≠ '/' := by simpa [hd] using hhead
    rw [takeWhile_cons_of_pos (by simpa using hc)]
    exact cons_ne_nil _ _

theorem segments_nextname (h : inodeNextname name ≠ []) :
    segments (inodeNextname name) = components (inodeNextname name) := by
  rw [components_eq (inodeNextname name),
    components_of_name (slash_not_mem_namecpy _) (namecpy_nextname_ne_nil h)]
  rfl

theorem components_nextname_eq_nil :
    components (inodeNextname name) = [] ↔ inodeNextname name = [] := by
  refine ⟨fun h => ?_, fun h => by rw [h, components_nil]⟩
  by_contra hne
  rw [← segments_nextname hne] at h
  exact cons_ne_nil _ _ h

theorem segments_absolute (s : List Char) : segments ('/' :: s) = [] :: components ('/' :: s) := by
  unfold segments
  rw [components_eq ('/' :: s)]
  simp [inodeNamecpy]

theorem slash_not_mem_splitOn {path : List Char} (h : n ∈ path.splitOn '/') : '/' ∉ n := by
  induction path generalizing n with
  | nil =>
    rw [splitOn_nil, mem_singleton] at h
    rw [h]
    exact not_mem_nil
  | cons c path ih =>
    rw [splitOn_cons_eq_if_modifyHead] at h
    split at h
    · rcases mem_cons.mp h with rfl | h
      · exact not_mem_nil
      · exact ih h
    · rename_i hc
      obtain ⟨m, ms, hms⟩ := exists_cons_of_ne_nil (splitOn_ne_nil '/' path)
      rw [hms, modifyHead_cons] at h
      rcases mem_cons.mp h with rfl | h
      · have hm : '/' ∉ m := ih (by rw [hms]; exact mem_cons_self)
        rw [mem_cons, not_or]
        exact ⟨fun he => hc (by simp [← he]), hm⟩
      · exact ih (by rw [hms]; exact mem_cons_of_mem _ h)

theorem name_of_mem_components {path : List Char} (h : n ∈ components path) : n ≠ [] ∧ '/' ∉ n := by
  unfold components at h
  rw [mem_filter, decide_eq_true_eq] at h
  exact ⟨h.2, slash_not_mem_splitOn h.1⟩

end Gpmx.PseudoFs

/-!
## The inode tree

Model of `gpm/fs/inode`: the inodes of the pseudo file system in a heap, found by path, made by
`inode_reserve`, taken out by `inode_remove`, and kept alive by their reference count.

A result `none` is a fault: a NULL or dangling pointer is followed. The callers hold the inode
semaphore, which always can be taken, so it is left out.
-/

namespace Gpmx.PseudoFs

open Infra

def ENOENT : Int := 2
def ENOMEM : Int := 12
def EBUSY : Int := 16
def EEXIST : Int := 17
def EINVAL : Int := 22

/-! ## Inodes -/

/-- The type bits of `i_flags`. -/
inductive NodeType where
  | pseudodir | driver | block | mountpt | namedsem | mqueue | shm | mtd | softlink | socket
deriving DecidableEq

structure Inode where
  iCrefs : Nat
  iType : NodeType
  /-- `FSNODEFLAG_DELETED` -/
  deleted : Bool
  /-- the table of operations, whichever member of the union -/
  u : Option Nat
  iPrivate : Option Nat
  iName : Name
deriving DecidableEq

/-- What `kmm_zalloc` and `inode_namecpy` make of a name. -/
def Inode.fresh (name : Name) : Inode := ⟨0, .pseudodir, false, none, none, name⟩

def Inode.isMountpt (node : Inode) : Bool := node.iType == .mountpt

structure Fs where
  heap : Heap Inode
  /-- `g_root_inode` -/
  root : Option Addr
deriving DecidableEq

/-- The tree with nothing but the root in it, after `inode_root_reserve`. -/
def Fs.empty (size : Nat) (root : Addr) : Fs :=
  ⟨(Heap.mk (List.replicate size none)).put root (some ⟨none, none, none, Inode.fresh []⟩), some root⟩

/-! ## Searching -/

/-- `struct inode_search_s` after a search, with what the search returns. -/
structure SearchDesc where
  ret : Int
  /-- the part of the path not traversed -/
  path : List Char
  node : Option Addr
  /-- the node to the left -/
  peer : Option Addr
  parent : Option Addr
  relpath : Option (List Char)
deriving DecidableEq

/-- The loop of `_inode_search`. -/
def searchLoop (heap : Heap Inode) :
    Nat → List Char → Option Addr → Option Addr → Option Addr → Option SearchDesc
  | 0, _, _, _, _ => none
  | _ + 1, name, none, left, above => some ⟨-ENOENT, name, none, left, above, none⟩
  | fuel + 1, name, some node, left, above =>
    match heap.read node with
    | none => none
    | some c =>
      let result := inodeCompare name c.data.iName
      if result < 0 then
        -- the names are in order, so there is no match further right
        some ⟨-ENOENT, name, none, left, above, none⟩
      else if result > 0 then
        searchLoop heap fuel name c.peer (some node) above
      else
        let name := inodeNextname name
        if name = [] ∨ c.data.isMountpt = true then
          -- a mountpoint takes the rest of the path
          some ⟨0, name, some node, left, above, some name⟩
        else
          searchLoop heap fuel name c.child none (some node)

/-- `_inode_search`. Every step goes right or takes a segment, which bounds the loop. -/
def inodeSearchAbs (fs : Fs) (path : List Char) : Option SearchDesc :=
  if path.head? = some '/' then
    searchLoop fs.heap ((fs.heap.size + 1) * (path.length + 1)) path fs.root none none
  else some ⟨-EINVAL, path, none, none, none, none⟩

/-- `inode_search`: a relative path is taken from `/`, by `asprintf(.., "%s/%s", "/", path)`. -/
def inodeSearch (fs : Fs) (path : List Char) : Option SearchDesc :=
  inodeSearchAbs fs (if path.head? = some '/' then path else '/' :: '/' :: path)

/-! ## Making inodes -/

/-- `inode_alloc`. The allocator's answer is an address; one that is in use, or beyond the
memory, stands for NULL. -/
def inodeAlloc (heap : Heap Inode) (answer : Addr) (name : List Char) : Option (Heap Inode) :=
  if answer < heap.size ∧ heap.read answer = none then
    some (heap.put answer (some ⟨none, none, none, Inode.fresh (inodeNamecpy name)⟩))
  else none

def inodeInsert (heap : Heap Inode) (node : Addr) (peer parent : Option Addr) :
    Option (Heap Inode) :=
  match peer, parent with
  | some l, _ => do
    let c ← heap.read l
    let heap ← heap.modify node fun n => { n with peer := c.peer, parent := parent }
    heap.modify l fun c => { c with peer := some node }
  | none, some p => do
    let c ← heap.read p
    let heap ← heap.modify node fun n => { n with peer := c.child, parent := parent }
    heap.modify p fun c => { c with child := some node }
  | none, none => none

/-- The loop of `inode_reserve`: the return value and the inode, with one answer of the
allocator for each pass. -/
def reserveLoop (root : Option Addr) :
    List Addr → Heap Inode → List Char → Option Addr → Option Addr →
      Option (Int × Option Addr × Fs)
  | [], heap, _, _, _ => some (-ENOMEM, none, ⟨heap, root⟩)
  | answer :: answers, heap, name, left, parent =>
    let nextname := inodeNextname name
    match inodeAlloc heap answer name with
    | none => some (-ENOMEM, none, ⟨heap, root⟩)
    | some heap => do
      let heap ← inodeInsert heap answer left parent
      if nextname ≠ [] then
        reserveLoop root answers heap nextname none (some answer)
      else some (0, some answer, ⟨heap, root⟩)

def inodeReserve (fs : Fs) (path : List Char) (answers : List Addr) :
    Option (Int × Option Addr × Fs) :=
  if path = [] then some (-EINVAL, none, fs)
  else do
    let desc ← inodeSearch fs path
    if desc.ret ≥ 0 then some (-EEXIST, none, fs)
    else reserveLoop fs.root answers fs.heap desc.path desc.peer desc.parent

/-! ## Removing inodes -/

/-- `inode_unlink`: the inode, if there is one. -/
def inodeUnlink (fs : Fs) (path : List Char) : Option (Option Addr × Fs) := do
  let desc ← inodeSearch fs path
  if desc.ret ≥ 0 then
    let node ← desc.node
    let c ← fs.heap.read node
    -- off the peer to the left, else off the head of the parent's children
    let heap ← relink fs.heap desc.peer desc.parent c.peer
    let heap ← heap.modify node fun n => { n with peer := none, parent := none }
    some (some node, ⟨heap, fs.root⟩)
  else some (none, fs)

/-- `inode_free`. The recursion is as deep as the subtree, which the size of the heap bounds. -/
def inodeFree : Nat → Heap Inode → Option Addr → Option (Heap Inode)
  | _, heap, none => some heap
  | 0, _, some _ => none
  | fuel + 1, heap, some node => do
    let c ← heap.read node
    let heap ← inodeFree fuel heap c.peer
    let c ← heap.read node
    let heap ← inodeFree fuel heap c.child
    let _ ← heap.read node
    some (heap.put node none)

def inodeRemove (fs : Fs) (path : List Char) : Option (Int × Fs) := do
  let (node, fs) ← inodeUnlink fs path
  match node with
  | none => some (-ENOENT, fs)
  | some node =>
    let c ← fs.heap.read node
    if c.data.iCrefs ≠ 0 then
      -- the subtree goes when the last reference is released
      let heap ← fs.heap.modify node fun n => { n with data := { n.data with deleted := true } }
      some (-EBUSY, { fs with heap })
    else
      let heap ← inodeFree fs.heap.size fs.heap (some node)
      some (0, { fs with heap })

/-! ## References -/

def Fs.onInode (fs : Fs) (node : Addr) (change : Inode → Inode) : Option Fs := do
  let heap ← fs.heap.modify node fun n => { n with data := change n.data }
  some { fs with heap }

def Inode.addref (node : Inode) : Inode := { node with iCrefs := node.iCrefs + 1 }

/-- `if (node->i_crefs) node->i_crefs--`: a count of zero stays. -/
def Inode.dropref (node : Inode) : Inode := { node with iCrefs := node.iCrefs - 1 }

def inodeFind (fs : Fs) (path : List Char) : Option (SearchDesc × Fs) := do
  let desc ← inodeSearch fs path
  if desc.ret ≥ 0 then
    let node ← desc.node
    let fs ← fs.onInode node Inode.addref
    some (desc, fs)
  else some (desc, fs)

/-- `inode_release` of a pointer that is not NULL. -/
def inodeRelease (fs : Fs) (node : Addr) : Option Fs := do
  let fs ← fs.onInode node Inode.dropref
  let c ← fs.heap.read node
  if c.data.iCrefs = 0 ∧ c.data.deleted = true then
    let heap ← inodeFree fs.heap.size fs.heap (some node)
    some { fs with heap }
  else some fs

end Gpmx.PseudoFs
