import Gpmx.Infra.Segments
import Mathlib

/-!
# CROMFS: nodes and path lookup

`cromfs_find_node` of `gpm/fs/romfs/fs_cromfs.c` with what it calls. The image is in memory, and
what it has at an offset is read as a node (`struct cromfs_node_s`) or as a name.

A string ends where the list ends: `s[i]? = none` is the terminator. A function is `none` where it
follows a NULL pointer. `cromfs_foreach_node` runs for as long as there are peers, and counts its
steps down from `fuel`.
-/

namespace Gpmx.Romfs

def ENOENT : Int := 2
def ENOTDIR : Int := 20
def EINVAL : Int := 22
def ELOOP : Int := 92

def S_IFMT : UInt16 := (15 : UInt16) <<< 12
def S_IFDIR : UInt16 := (4 : UInt16) <<< 12
def S_IFLNK : UInt16 := (10 : UInt16) <<< 12

def isDir (mode : UInt16) : Bool := mode &&& S_IFMT == S_IFDIR

def CROMFS_MAX_LINKS : Nat := 64

/-- `struct cromfs_node_s`; the members of the union are one word. -/
structure Node where
  cnMode : UInt16
  cnName : Nat
  cnSize : Nat
  cnPeer : Nat
  cnChild : Nat
  deriving DecidableEq

/-- `struct cromfs_volume_s` and the image behind it. -/
structure Volume where
  cvRoot : Nat
  cvFsize : Nat
  cvBsize : Nat
  nodeAt : Nat → Node
  stringAt : Nat → List Char

/-- `cromfs_offset2addr`; an address is the offset itself. -/
def cromfsOffset2addr (fs : Volume) (offset : Nat) : Option Nat :=
  if offset = 0 ∨ offset ≥ fs.cvFsize then none else some offset

def nodeName (fs : Volume) (node : Node) : Option (List Char) :=
  (cromfsOffset2addr fs node.cnName).map fs.stringAt

/-- The node that `.` and `..` are taken for. -/
def dirNode (node : Node) : Node :=
  { node with cnMode := S_IFDIR ||| (node.cnMode &&& ~~~S_IFMT), cnSize := 0 }

/-- `cromfs_follow_link`, with `i` turns of its loop left: the return value and `*ppnode`. -/
def cromfsFollowLink (fs : Volume) (follow : Bool) : Nat → Node → Option (Int × Node)
  | 0, node => some (-ELOOP, node)
  | i + 1, node =>
    if node.cnMode &&& S_IFMT ≠ S_IFLNK then some (0, node)
    else do
      let name ← nodeName fs node
      -- these two refer to the first node of a directory, and are not followed
      if name = ['.'] ∨ name = ['.', '.'] then some (0, dirNode node)
      else do
        let linknode ← (cromfsOffset2addr fs node.cnChild).map fs.nodeAt
        cromfsFollowLink fs follow i
          { linknode with
            cnName := node.cnName
            cnPeer := if follow then linknode.cnPeer else node.cnPeer }

/-- `struct cromfs_nodeinfo_s` -/
structure NodeInfo where
  ciMode : UInt16
  ciSize : Nat
  ciChild : Nat
  deriving DecidableEq

/-- `struct cromfs_comparenode_s`; `segment` is the path from the cursor on. -/
structure CompareNode where
  info : NodeInfo
  segment : List Char
  offset : Nat
  seglen : Nat
  deriving DecidableEq

/-- `cromfs_seglen`; the length is returned as a `uint16_t`. -/
def cromfsSeglen (relpath : List Char) : Nat := (relpath.takeWhile (· ≠ '/')).length % 2 ^ 16

def cromfsChildNode (fs : Volume) (node : Node) (info : NodeInfo) : Option (Int × NodeInfo) := do
  let child ← (cromfsOffset2addr fs node.cnChild).map fs.nodeAt
  let r ← cromfsFollowLink fs false CROMFS_MAX_LINKS child
  some (if r.1 < 0 then (r.1, info) else (0, ⟨r.2.cnMode, r.2.cnSize, node.cnChild⟩))

def cromfsLastSegment (fs : Volume) (node : Node) (offset : Nat) (cpnode : CompareNode) :
    Option (Int × CompareNode) :=
  if isDir node.cnMode then do
    let r ← cromfsChildNode fs node cpnode.info
    some (if r.1 < 0 then (r.1, cpnode) else (1, { cpnode with info := r.2, offset }))
  else
    some (1, { cpnode with info := ⟨node.cnMode, node.cnSize, node.cnChild⟩, offset })

/-- `cromfs_compare_node`; `foreachNode` is the traversal that it recurses into. -/
def cromfsCompareNode (fs : Volume) (foreachNode : Nat → CompareNode → Option (Int × CompareNode))
    (node : Node) (offset : Nat) (cpnode : CompareNode) : Option (Int × CompareNode) := do
  let name ← nodeName fs node
  if name.length ≠ cpnode.seglen then some (0, cpnode)
  else if cpnode.segment.take name.length ≠ name then some (0, cpnode)
  else if cpnode.segment[name.length]? = none then cromfsLastSegment fs node offset cpnode
  -- `segment[namlen = 1]`: the index is 1, whatever the length of the name
  else if cpnode.segment[name.length]? = some '/' ∧ cpnode.segment[1]? = none then
    some (if isDir node.cnMode then 1 else -ENOENT,
      { cpnode with info := ⟨node.cnMode, node.cnSize, node.cnChild⟩ })
  else if isDir node.cnMode = false then some (-ENOTDIR, cpnode)
  else
    let segment := (cpnode.segment.drop cpnode.seglen).dropWhile (· = '/')
    foreachNode node.cnChild { cpnode with segment, seglen := cromfsSeglen segment }

/-- `cromfs_foreach_node` with `cromfs_compare_node` as its callback. -/
def cromfsForeachNode (fs : Volume) :
    Nat → Bool → Nat → CompareNode → Option (Int × CompareNode)
  | 0, _, _, _ => none
  | fuel + 1, follow, offset, cpnode =>
    match cromfsOffset2addr fs offset with
    | none => some (0, cpnode)
    | some addr => do
      let r ← cromfsFollowLink fs follow CROMFS_MAX_LINKS (fs.nodeAt addr)
      if r.1 < 0 then some (r.1, cpnode)
      else do
        let c ← cromfsCompareNode fs (cromfsForeachNode fs fuel true) r.2 offset cpnode
        -- the cursor may have been moved by a descent that found nothing
        if c.1 ≠ 0 then some c else cromfsForeachNode fs fuel follow r.2.cnPeer c.2

/--
`cromfs_find_node`: the return value, `*info` and `*offset`. A path that is NULL is as one that is
empty.
-/
def cromfsFindNode (fs : Volume) (fuel : Nat) (relpath : List Char) (info : NodeInfo) (offset : Nat) :
    Option (Int × NodeInfo × Nat) :=
  match relpath with
  | [] => do
    let root ← (cromfsOffset2addr fs fs.cvRoot).map fs.nodeAt
    let r ← cromfsFollowLink fs false CROMFS_MAX_LINKS root
    some (if r.1 < 0 then (r.1, info, offset)
      else (0, ⟨r.2.cnMode, r.2.cnSize, r.2.cnChild⟩, fs.cvRoot))
  | '/' :: _ => some (-EINVAL, info, offset)
  | relpath => do
    let r ← cromfsForeachNode fs fuel false fs.cvRoot
      ⟨info, relpath, fs.cvRoot, cromfsSeglen relpath⟩
    some (if r.1 > 0 then (0, r.2.info, r.2.offset)
      else if r.1 = 0 then (-ENOENT, r.2.info, offset)
      else (r.1, r.2.info, offset))

end Gpmx.Romfs

/-!
## CROMFS: the tree, and what a path names

* `Layout` — a well-formed image: its directories, as lists of entries
* `Layout.target` — the entry that the components of a path name
* `Layout.Finds` — what the traversal finds: when a directory has been searched in vain, it goes on
  among the entries behind that directory, with the rest of the path

`.` and `..` are entries like the others, and stand for directories.
-/

namespace Gpmx.Romfs

open Infra List

/-- An entry of a directory, as `cromfs_follow_link` presents it. -/
structure Entry where
  name : List Char
  mode : UInt16
  size : Nat
  ptr : Nat
  offset : Nat
  link : Bool
  deriving DecidableEq

namespace Entry

def info (e : Entry) : NodeInfo := ⟨e.mode, e.size, e.ptr⟩

def dir (e : Entry) : Bool := isDir e.mode

end Entry

structure IsEntry (fs : Volume) (offset : Nat) (e : Entry) (peer : Nat) : Prop where
  addr : cromfsOffset2addr fs offset = some offset
  offset_eq : e.offset = offset
  name : nodeName fs (fs.nodeAt offset) = some e.name
  ptr : e.ptr = (fs.nodeAt offset).cnChild
  peer : peer = (fs.nodeAt offset).cnPeer
  plain : e.link = false → (fs.nodeAt offset).cnMode &&& S_IFMT ≠ S_IFLNK ∧
    e.mode = (fs.nodeAt offset).cnMode ∧ e.size = (fs.nodeAt offset).cnSize
  dots : e.link = true → (fs.nodeAt offset).cnMode &&& S_IFMT = S_IFLNK ∧
    (e.name = ['.'] ∨ e.name = ['.', '.']) ∧ e.mode = (dirNode (fs.nodeAt offset)).cnMode ∧ e.size = 0

/-- The nodes from an offset on, linked by `cn_peer`. -/
inductive Chain (fs : Volume) : Nat → List Entry → Prop
  | nil : Chain fs 0 []
  | cons {offset peer : Nat} {e : Entry} {es : List Entry} (he : IsEntry fs offset e peer)
      (hes : Chain fs peer es) : Chain fs offset (e :: es)

variable {e : Entry} {es : List Entry} {p : List Char} {d : Entry}

theorem Chain.head {fs : Volume} {offset : Nat} (h : Chain fs offset (e :: es)) :
    ∃ peer, IsEntry fs offset e peer ∧ Chain fs peer es := by
  cases h with
  | cons he hes => exact ⟨_, he, hes⟩

/--
A well-formed image. `heads` are the offsets of the first nodes of the directories. A name fits the
16 bits that `cromfs_seglen` has for it.
-/
structure Layout (fs : Volume) where
  heads : Nat → Prop
  entries : Nat → List Entry
  root : heads fs.cvRoot
  chain : ∀ o, heads o → Chain fs o (entries o)
  dot : ∀ o, heads o → ∃ e es, entries o = e :: es ∧ e.name = ['.'] ∧ e.link = true ∧ e.ptr = o
  closed : ∀ o, heads o → ∀ e ∈ entries o, e.dir = true → heads e.ptr
  distinct : ∀ o, heads o → ((entries o).map Entry.name).Nodup
  nonempty : ∀ o, heads o → ∀ e ∈ entries o, e.name ≠ []
  separate : ∀ o, heads o → ∀ e ∈ entries o, '/' ∉ e.name
  short : ∀ o, heads o → ∀ e ∈ entries o, e.name.length < 2 ^ 16

def components (path : List Char) : List (List Char) := (path.splitOn '/').filter (· ≠ [])

/-- The path ends in `/`. -/
def Trailing (path : List Char) : Prop := path.getLast? = some '/'

instance (path : List Char) : Decidable (Trailing path) := inferInstanceAs (Decidable (_ = _))

/-! ## The cursor -/

def seg (p : List Char) : List Char := p.take (cromfsSeglen p)

def Last (p : List Char) : Prop := p.drop (cromfsSeglen p) = []

instance (p : List Char) : Decidable (Last p) := inferInstanceAs (Decidable (_ = _))

/-- The cursor behind the segment and the `/` that follow it. -/
def next (p : List Char) : List Char := (p.drop (cromfsSeglen p)).dropWhile (· = '/')

namespace Layout

variable {fs : Volume} (L : Layout fs)

def descend : List Entry → List (List Char) → Option Entry
  | _, [] => none
  | es, [c] => es.find? (·.name = c)
  | es, c :: cs => do
    let d ← es.find? (·.name = c)
    if d.dir then descend (L.entries d.ptr) cs else none

/-- The entry that a path names; only a directory may have `/` behind it. -/
def target (path : List Char) : Option Entry :=
  if path = [] then (L.entries fs.cvRoot).head?
  else (L.descend (L.entries fs.cvRoot) (components path)).filter fun e => ¬Trailing path ∨ e.dir

/--
What the traversal finds among entries, from a cursor on. The entries of a directory are searched
first, and then those that follow it, as if they were its own.
-/
inductive Finds : List Entry → List Char → Entry → Prop
  | skip {d e : Entry} {es : List Entry} {p : List Char} (hname : d.name ≠ seg p)
      (h : Finds es p e) : Finds (d :: es) p e
  | last {d : Entry} {es : List Entry} {p : List Char} (hname : d.name = seg p) (hlast : Last p) :
      Finds (d :: es) p d
  | down {d e : Entry} {es : List Entry} {p : List Char} (hname : d.name = seg p) (hlast : ¬Last p)
      (hdir : d.dir = true) (h : Finds (L.entries d.ptr ++ es) (next p) e) : Finds (d :: es) p e

def dotOf (e : Entry) : Option Entry := (L.entries e.ptr).head?

end Layout

/-! ## Paths and segments -/

theorem components_dropWhile (p : List Char) :
    components (p.dropWhile (· = '/')) = components p := segments_dropWhile p

theorem first_component (hne : p ≠ []) (hrel : p.head? ≠ some '/') :
    ∃ c r, p = c ++ r ∧ c ≠ [] ∧ '/' ∉ c ∧ c = p.takeWhile (· ≠ '/') ∧ (r = [] ∨ r.head? = some '/') ∧
      components p = c :: components r := by
  obtain ⟨hcne, hcomp⟩ := first_segment hne hrel
  exact ⟨_, _, takeWhile_append_dropWhile.symm, hcne, not_mem_takeWhile p, rfl,
    dropWhile_ne_cases p, hcomp⟩

theorem cursor_component {c r : List Char} (hp : p = c ++ r) (hc : c = p.takeWhile (· ≠ '/'))
    (hlt : c.length < 2 ^ 16) : seg p = c ∧ (Last p ↔ r = []) ∧ next p = r.dropWhile (· = '/') := by
  have hlen : cromfsSeglen p = c.length := by
    unfold cromfsSeglen
    rw [← hc, Nat.mod_eq_of_lt hlt]
  unfold seg Last next
  rw [hlen, hp]
  simp

theorem trailing_drop {k : Nat} (hne : p.drop k ≠ []) (h : Trailing p) :
    (p.drop k).dropWhile (· = '/') = [] ∨ Trailing ((p.drop k).dropWhile (· = '/')) := by
  have hlast : (p.drop k).getLast? = some '/' := by
    rw [getLast?_drop, if_neg]
    · exact h
    · intro hle
      exact hne (drop_eq_nil_of_le hle)
  by_cases hnil : (p.drop k).dropWhile (· = '/') = []
  · exact .inl hnil
  · refine .inr ?_
    have hsplit : (p.drop k).takeWhile (· = '/') ++ (p.drop k).dropWhile (· = '/') = p.drop k :=
      takeWhile_append_dropWhile
    rw [← hsplit, getLast?_append_of_ne_nil _ hnil] at hlast
    exact hlast

theorem nil_of_components {c r : List Char} (hr : components r = []) (h : ¬Trailing (c ++ r)) :
    r = [] := by
  by_contra hne
  have hall : ∀ x ∈ r, x = '/' := by
    simpa using dropWhile_eq_nil_iff.mp (dropWhile_eq_nil_iff_segments.mpr hr)
  apply h
  unfold Trailing
  rw [getLast?_append_of_ne_nil _ hne, getLast?_eq_some_getLast hne,
    hall _ (getLast_mem hne)]

theorem trailing_of_suffix {q : List Char} (hs : q <:+ p) (h : Trailing q) : Trailing p := by
  obtain ⟨t, rfl⟩ := hs
  have hne : q ≠ [] := by
    rintro rfl
    cases h
  unfold Trailing
  rw [getLast?_append_of_ne_nil _ hne]
  exact h

/-! ## What is found -/

namespace Layout

variable {fs : Volume} {L : Layout fs}

def Own (L : Layout fs) (es : List Entry) : Prop := ∀ e ∈ es, ∃ o, L.heads o ∧ e ∈ L.entries o

theorem own_entries {o : Nat} (ho : L.heads o) : L.Own (L.entries o) := fun _ he => ⟨o, ho, he⟩

theorem Own.tail (h : L.Own (d :: es)) : L.Own es :=
  fun e he => h e (mem_cons_of_mem d he)

theorem Own.append {es' : List Entry} (h : L.Own es) (h' : L.Own es') : L.Own (es ++ es') := by
  intro e he
  rcases mem_append.mp he with he | he
  · exact h e he
  · exact h' e he

theorem Own.name_ne (h : L.Own (d :: es)) : d.name ≠ [] := by
  obtain ⟨o, ho, hd⟩ := h d mem_cons_self
  exact L.nonempty o ho d hd

theorem Own.no_slash (h : L.Own (d :: es)) : '/' ∉ d.name := by
  obtain ⟨o, ho, hd⟩ := h d mem_cons_self
  exact L.separate o ho d hd

theorem Own.head (h : L.Own (d :: es)) (hdir : d.dir = true) : L.heads d.ptr := by
  obtain ⟨o, ho, hd⟩ := h d mem_cons_self
  exact L.closed o ho d hd hdir

theorem Own.down (h : L.Own (d :: es)) (hdir : d.dir = true) :
    L.Own (L.entries d.ptr) := own_entries (h.head hdir)

theorem Finds.unique {e' : Entry} (h : L.Finds es p e) (h' : L.Finds es p e') : e = e' := by
  induction h with
  | skip hname _ ih =>
    cases h' with
    | skip _ h' => exact ih h'
    | last hname' _ | down hname' _ _ _ => exact absurd hname' hname
  | last hname hlast =>
    cases h' with
    | skip hname' _ => exact absurd hname hname'
    | last _ _ => rfl
    | down _ hlast' _ _ => exact absurd hlast hlast'
  | down hname hlast _ _ ih =>
    cases h' with
    | skip hname' _ => exact absurd hname hname'
    | last _ hlast' => exact absurd hlast' hlast
    | down _ _ _ h' => exact ih h'

theorem Finds.ne_nil (h : L.Finds es p e) (ho : L.Own es) : p ≠ [] := by
  induction h with
  | skip _ _ ih => exact ih ho.tail
  | last hname _ | down hname _ _ _ _ =>
    rintro rfl
    exact ho.name_ne hname

/-- **Nothing is found under a path with `/` at its end.** -/
theorem Finds.not_trailing (h : L.Finds es p e) (ho : L.Own es) : ¬Trailing p := by
  induction h with
  | skip _ _ ih => exact ih ho.tail
  | last hname hlast =>
    rename_i d es p
    -- the path is the name
    have hp : p = d.name := by
      rw [hname]
      exact (take_of_length_le (drop_eq_nil_iff.mp hlast)).symm
    rw [hp]
    intro htrail
    exact ho.no_slash (mem_of_getLast? htrail)
  | down hname hlast hdir h ih =>
    have hown := (ho.down hdir).append ho.tail
    intro htrail
    rcases trailing_drop hlast htrail with hnil | hnext
    · exact h.ne_nil hown hnil
    · exact ih hown hnext

theorem find_finds {rest : List Entry} (hfind : es.find? (·.name = seg p) = some d)
    (h : ∀ es', L.Finds (d :: es') p e) : L.Finds (es ++ rest) p e := by
  induction es with
  | nil => cases hfind
  | cons x es ih =>
    by_cases hx : x.name = seg p
    · simp only [find?_cons, hx, decide_true] at hfind
      cases hfind
      exact h _
    · simp only [find?_cons, hx, decide_false] at hfind
      exact .skip hx (ih hfind)

/-- **What the components name is found.** -/
theorem descend_finds : ∀ (cs : List (List Char)) {es rest : List Entry} {p : List Char},
    L.Own es → p ≠ [] → p.head? ≠ some '/' → ¬Trailing p → components p = cs →
    L.descend es cs = some e → L.Finds (es ++ rest) p e
  | [], es, rest, p, _, hne, hrel, _, hcs, h => by cases h
  | [c], es, rest, p, hown, hne, hrel, htrail, hcs, h => by
    obtain ⟨c', r, hp, -, -, hc', hr, hcomp⟩ := first_component hne hrel
    rw [hcs] at hcomp
    obtain ⟨rfl, hnone⟩ := List.cons.inj hcomp
    have hname : e.name = c := by simpa using find?_some h
    obtain ⟨o, ho, hmem⟩ := hown e (mem_of_find?_eq_some h)
    obtain ⟨hseg, hlast, -⟩ := cursor_component hp hc' (hname ▸ L.short o ho e hmem)
    have hnil : r = [] := nil_of_components hnone.symm (hp ▸ htrail)
    refine find_finds (by rw [hseg]; exact h) fun es' => .last (hname.trans hseg.symm) (hlast.mpr hnil)
  | c :: c2 :: cs, es, rest, p, hown, hne, hrel, htrail, hcs, h => by
    obtain ⟨c', r, hp, -, -, hc', hr, hcomp⟩ := first_component hne hrel
    rw [hcs] at hcomp
    obtain ⟨rfl, hrest⟩ := List.cons.inj hcomp
    obtain ⟨d, hfind, h⟩ := Option.bind_eq_some_iff.mp h
    have hname : d.name = c := by simpa using find?_some hfind
    obtain ⟨o, ho, hmem⟩ := hown d (mem_of_find?_eq_some hfind)
    obtain ⟨hseg, hlast, hnext⟩ := cursor_component hp hc' (hname ▸ L.short o ho d hmem)
    split at h
    · rename_i hdir
      have hcomps : components (next p) = c2 :: cs := by
        rw [hnext, components_dropWhile, ← hrest]
      have hne' : next p ≠ [] := by
        intro hnil
        rw [hnil] at hcomps
        cases hcomps
      have hsuffix : next p <:+ p := by
        rw [hnext, hp]
        exact (dropWhile_suffix _).trans (suffix_append c r)
      have hnotlast : ¬Last p := by
        intro hl
        rw [hlast.mp hl] at hrest
        cases hrest
      have hrel' : (next p).head? ≠ some '/' := by
        rw [hnext]
        exact head_dropWhile_sep r
      refine find_finds (by rw [hseg]; exact hfind) fun es' =>
        .down (hname.trans hseg.symm) hnotlast hdir ?_
      exact descend_finds (c2 :: cs) (own_entries (L.closed o ho d hmem hdir)) hne' hrel'
        (fun ht => htrail (trailing_of_suffix hsuffix ht)) hcomps h
    · cases h

end Layout

end Gpmx.Romfs
