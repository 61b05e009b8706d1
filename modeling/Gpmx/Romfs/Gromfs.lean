import Gpmx.Infra.Memory
import Gpmx.Infra.Segments

/-!
# GROMFS: the image generator and the reader

`Folder.bin_data` and `get_bin_data` of `gpm/tools/mkgromfs.py`, and `dfs_romfs_lookup` and
`dfs_romfs_read` of `gpm/fs/romfs/gromfs.c`.

The generator is `none` where `struct.pack` raises: a value does not fit a 32-bit word. The reader
follows addresses in a memory of bytes; a word is little-endian, and `size_t` has 32 bits. A path is
the list of its bytes, and `[]` stands where the string has its terminator.
-/

namespace Gpmx.Romfs

open Infra List

/-! ## The generator -/

/-- `File` and `Folder` -/
inductive Item where
  | file (name : List Char) (data : List UInt8)
  | folder (name : List Char) (children : List Item)

namespace Item

def name : Item → List Char
  | file name _ => name
  | folder name _ => name

def tp : Item → Nat
  | file _ _ => 0
  | folder _ _ => 1

def entrySize : Item → Nat
  | file _ data => data.length
  | folder _ children => children.length

end Item

def encode (s : List Char) : List UInt8 := s.flatMap String.utf8EncodeChar

/-- `bin_name`, encoded; the padding is counted in characters. -/
def binName (name : List Char) : List UInt8 :=
  encode (name ++ List.replicate (4 - name.length % 4) (Char.ofNat 0))

def padData (data : List UInt8) : List UInt8 :=
  if data.length % 4 ≠ 0 then data ++ List.replicate (4 - data.length % 4) 0 else data

def le32 (v : Nat) : List UInt8 :=
  [UInt8.ofNat v, UInt8.ofNat (v / 256), UInt8.ofNat (v / 256 ^ 2), UInt8.ofNat (v / 256 ^ 3)]

/-- `bin_fmt.pack` of a `bin_item` -/
def binPack (type name data size : Nat) : Option (List UInt8) :=
  if type < 2 ^ 32 ∧ name < 2 ^ 32 ∧ data < 2 ^ 32 ∧ size < 2 ^ 32 then
    some (le32 type ++ le32 name ++ le32 data ++ le32 size)
  else none

mutual

def Item.binData (baseAddr : Nat) : Item → Option (List UInt8)
  | .file _ data => some data
  | .folder _ children => do
    let r ← binItems (baseAddr + 16 * children.length) children
    some (r.1 ++ r.2)

/-- The loop over the children: `d_li` and `p_li`, joined. -/
def binItems (vLen : Nat) : List Item → Option (List UInt8 × List UInt8)
  | [] => some ([], [])
  | c :: children => do
    let name := binName c.name
    let dataAddr := vLen + name.length
    let data ← c.binData dataAddr
    let item ← binPack c.tp vLen dataAddr c.entrySize
    let r ← binItems (dataAddr + (padData data).length) children
    some (item ++ r.1, name ++ padData data ++ r.2)

end

/-- `get_bin_data`; of the root, only the children are written. -/
def getBinData (children : List Item) (baseAddr : Nat) : Option (List UInt8) := do
  let item ← binPack 1 (baseAddr + 16) (baseAddr + 20) children.length
  let r ← binItems (baseAddr + 20 + 16 * children.length) children
  some (item ++ [47, 0, 0, 0] ++ (r.1 ++ r.2))

/-! ## The reader -/

def word (mem : Memory UInt8) (a : Nat) : Nat :=
  (mem a).toNat + 256 * (mem (a + 1)).toNat + 256 ^ 2 * (mem (a + 2)).toNat +
    256 ^ 3 * (mem (a + 3)).toNat

/-! `struct romfs_dirent` -/

def direntType (mem : Memory UInt8) (d : Nat) : Nat := word mem d

def direntName (mem : Memory UInt8) (d : Nat) : Nat := word mem (d + 4)

def direntData (mem : Memory UInt8) (d : Nat) : Nat := word mem (d + 8)

def direntSize (mem : Memory UInt8) (d : Nat) : Nat := word mem (d + 12)

def ROMFS_DIRENT_FILE : Nat := 0
def ROMFS_DIRENT_DIR : Nat := 1

def checkDirent (mem : Memory UInt8) (d : Nat) : Int :=
  if d = 0 ∨ (direntType mem d ≠ ROMFS_DIRENT_FILE ∧ direntType mem d ≠ ROMFS_DIRENT_DIR) ∨
      direntSize mem d = 2 ^ 32 - 1 then -1
  else 0

/-- `strlen(s) == n` -/
def StrlenIs (mem : Memory UInt8) (s n : Nat) : Prop := 0 ∉ mem.read s n ∧ mem (s + n) = 0

instance (mem : Memory UInt8) (s n : Nat) : Decidable (StrlenIs mem s n) :=
  inferInstanceAs (Decidable (_ ∧ _))

/-- The name of the entry is the part of the path from `subpath` to `subpath_end`. -/
def SameName (mem : Memory UInt8) (d : Nat) (subpath : List UInt8) : Prop :=
  StrlenIs mem (direntName mem d) subpath.length ∧
    mem.read (direntName mem d) subpath.length = subpath

instance (mem : Memory UInt8) (d : Nat) (subpath : List UInt8) :
    Decidable (SameName mem d subpath) := inferInstanceAs (Decidable (_ ∧ _))

/--
`/* search in folder */`, with `left` entries to go. A record that does not pass the check ends the
lookup, as if nothing were found.
-/
def searchFolder (mem : Memory UInt8) (subpath : List UInt8) : Nat → Nat → Option Nat
  | 0, _ => none
  | left + 1, d =>
    if checkDirent mem d ≠ 0 then none
    else if SameName mem d subpath then some d
    else searchFolder mem subpath left (d + 16)

/-- `/* skip /// */` -/
def skipSlashes (path : List UInt8) : List UInt8 := path.dropWhile (· = 47)

def nextSubpath (path : List UInt8) : List UInt8 := skipSlashes (path.dropWhile (· ≠ 47))

theorem nextSubpath_length_lt {path : List UInt8} (h : nextSubpath path ≠ []) :
    (nextSubpath path).length < path.length := by
  cases path with
  | nil => exact absurd rfl h
  | cons x p =>
    by_cases hx : x = 47
    · subst hx
      have hle := (dropWhile_suffix (fun c : UInt8 => decide (c = 47)) (l := p)).length_le
      simpa [nextSubpath, skipSlashes] using Nat.lt_succ_of_le hle
    · have hle := (dropWhile_suffix (fun c : UInt8 => decide (c = 47))
        (l := p.dropWhile (· ≠ 47))).length_le
      have hle' := (dropWhile_suffix (fun c : UInt8 => decide (c ≠ 47)) (l := p)).length_le
      simpa [nextSubpath, skipSlashes, hx] using Nat.lt_succ_of_le (hle.trans (by simpa using hle'))

/--
The loop of `dfs_romfs_lookup`. The result is the entry with the value stored in `*size`, if one is.
-/
def lookupLoop (mem : Memory UInt8) (dirent direntCount : Nat) (path : List UInt8) :
    Option (Nat × Option Nat) :=
  if dirent = 0 then none
  else
    match searchFolder mem (path.takeWhile (· ≠ 47)) direntCount dirent with
    | none => none
    | some d =>
      if nextSubpath path = [] then some (d, some (direntSize mem d))
      else if direntType mem d = ROMFS_DIRENT_DIR then
        lookupLoop mem (direntData mem d) (direntSize mem d) (nextSubpath path)
      -- a file in the middle of the path; `*size` is not stored
      else some (d, none)
termination_by path.length
decreasing_by exact nextSubpath_length_lt ‹_›

def dfsRomfsLookup (mem : Memory UInt8) (root : Nat) (path : List UInt8) :
    Option (Nat × Option Nat) :=
  if checkDirent mem root ≠ 0 then none
  else if path = [47] then some (root, some (direntSize mem root))
  else lookupLoop mem (direntData mem root) (direntSize mem root) (skipSlashes path)

/-- What `dfs_romfs_read` returns, stores in `buf` and leaves in `*pos`. -/
structure ReadResult where
  ret : Nat
  buf : List UInt8
  pos : Nat
  deriving DecidableEq

/-- `dfs_romfs_read`; the difference of the size and the position is unsigned. -/
def dfsRomfsRead (mem : Memory UInt8) (dirent count pos : Nat) : ReadResult :=
  if checkDirent mem dirent ≠ 0 then ⟨2 ^ 32 - 5, [], pos⟩
  else
    let left := (direntSize mem dirent + 2 ^ 32 - pos) % 2 ^ 32
    let length := if count < left then count else left
    ⟨length, mem.read (direntData mem dirent + pos) length, (pos + length) % 2 ^ 32⟩

end Gpmx.Romfs

/-!
## GROMFS: the records of an image

* `WellNamed` — the names of the children of a folder
* `Described mem d c` — the record at `d` is that of the item, and so on for all that is in it
* `binItems_described` — the image has such a record for each item of the tree
-/

namespace Gpmx.Romfs

open Infra Memory List

/-- A name of ASCII characters, without `/` and NUL. -/
structure GoodName (name : List Char) : Prop where
  ne : name ≠ []
  ascii : ∀ c ∈ name, c.toNat < 128
  slash : '/' ∉ name
  nul : Char.ofNat 0 ∉ name

mutual

def Item.Named : Item → Prop
  | .file name _ => GoodName name
  | .folder name children => GoodName name ∧ (children.map Item.name).Nodup ∧ AllNamed children

def AllNamed : List Item → Prop
  | [] => True
  | c :: children => c.Named ∧ AllNamed children

end

/-- The children of a folder: their names are good and distinct, and so on below. -/
def WellNamed (children : List Item) : Prop := (children.map Item.name).Nodup ∧ AllNamed children

variable {c : Item} {children : List Item} {s name : List Char} {mem : Memory UInt8} {a : Nat}
    {bytes : List UInt8}

theorem Item.Named.good (h : c.Named) : GoodName c.name := by
  cases c with
  | file name data => exact h
  | folder name children => exact h.1

theorem AllNamed.named (h : AllNamed children) : ∀ c ∈ children, c.Named := by
  induction children with
  | nil => simp
  | cons d children ih =>
    intro c hc
    rcases mem_cons.mp hc with rfl | hc
    · exact h.1
    · exact ih h.2 c hc

/-! ## Names and words as bytes -/

theorem encode_ascii (h : ∀ c ∈ s, c.toNat < 128) :
    encode s = s.map fun c => UInt8.ofNat c.toNat := by
  induction s with
  | nil => rfl
  | cons c s ih =>
    have hc : c.toNat < 128 := h c mem_cons_self
    have henc : String.utf8EncodeChar c = [UInt8.ofNat c.toNat] := by
      simp [String.utf8EncodeChar, show c.toNat ≤ 127 from Nat.le_of_lt_succ hc]
    have hs := ih fun x hx => h x (mem_cons_of_mem c hx)
    unfold encode at hs ⊢
    rw [flatMap_cons, henc, hs]
    rfl

theorem ofNat_toNat_inj {c d : Char} (hc : c.toNat < 128) (hd : d.toNat < 128)
    (h : UInt8.ofNat c.toNat = UInt8.ofNat d.toNat) : c = d := by
  have hnat := congrArg UInt8.toNat h
  simp only [UInt8.toNat_ofNat'] at hnat
  have heq : c.toNat = d.toNat := by omega
  exact Char.toNat_inj.mp heq

theorem encode_inj {t : List Char} (hs : GoodName s) (ht : GoodName t) (h : encode s = encode t) :
    s = t := by
  rw [encode_ascii hs.ascii, encode_ascii ht.ascii] at h
  have hascii := hs.ascii
  have hascii' := ht.ascii
  clear hs ht
  induction s generalizing t with
  | nil => simpa using h.symm
  | cons c s ih =>
    cases t with
    | nil => simp at h
    | cons d t =>
      simp only [map_cons, List.cons.injEq] at h
      rw [ofNat_toNat_inj (hascii c (by simp)) (hascii' d (by simp)) h.1,
        ih h.2 (fun x hx => hascii x (by simp [hx])) (fun x hx => hascii' x (by simp [hx]))]

theorem encode_ne_of_not_mem {d : Char} (hascii : ∀ c ∈ s, c.toNat < 128) (hd : d.toNat < 128)
    (h : d ∉ s) : UInt8.ofNat d.toNat ∉ encode s := by
  rw [encode_ascii hascii]
  intro hmem
  obtain ⟨c, hc, heq⟩ := mem_map.mp hmem
  exact h (ofNat_toNat_inj (hascii c hc) hd heq ▸ hc)

theorem GoodName.encode (h : GoodName s) : encode s ≠ [] ∧ 47 ∉ encode s ∧ 0 ∉ encode s := by
  refine ⟨?_, encode_ne_of_not_mem h.ascii (by decide) h.slash,
    encode_ne_of_not_mem h.ascii (by decide) h.nul⟩
  rw [encode_ascii h.ascii]
  simpa using h.ne

theorem binName_eq (name : List Char) :
    binName name = encode name ++ List.replicate (4 - name.length % 4) 0 := by
  have hzero : ∀ n, encode (List.replicate n (Char.ofNat 0)) = List.replicate n 0 := by
    intro n
    rw [encode_ascii fun c hc => by rw [eq_of_mem_replicate hc]; decide, map_replicate]
    rfl
  unfold binName
  rw [← hzero]
  simp [encode]

theorem length_binName (h : ∀ c ∈ name, c.toNat < 128) : (binName name).length % 4 = 0 := by
  rw [binName_eq, encode_ascii h]
  simp
  omega

theorem length_padData (data : List UInt8) : (padData data).length % 4 = 0 := by
  unfold padData
  split
  · simp
    omega
  · omega

theorem word_of_holds {v : Nat} (h : mem.Holds a (le32 v)) (hv : v < 2 ^ 32) : word mem a = v := by
  simp only [le32, holds_cons] at h
  obtain ⟨h0, h1, h2, h3, -⟩ := h
  unfold word
  rw [h0, h1, show a + 2 = a + 1 + 1 from rfl, h2, show a + 3 = a + 1 + 1 + 1 from rfl, h3]
  simp only [UInt8.toNat_ofNat']
  omega

theorem dirent_of_holds {d type name data size : Nat}
    (hpack : binPack type name data size = some bytes) (h : mem.Holds d bytes) :
    direntType mem d = type ∧ direntName mem d = name ∧
      direntData mem d = data ∧ direntSize mem d = size := by
  unfold binPack at hpack
  split at hpack
  · rename_i hlt
    cases hpack
    simp only [holds_append] at h
    obtain ⟨⟨⟨htype, hname⟩, hdata⟩, hsize⟩ := h
    exact ⟨word_of_holds htype hlt.1, word_of_holds hname hlt.2.1,
      word_of_holds hdata hlt.2.2.1, word_of_holds hsize hlt.2.2.2⟩
  · cases hpack

/-! ## The records of the tree -/

def NameAt (mem : Memory UInt8) (a : Nat) (name : List Char) : Prop :=
  mem.Holds a (encode name) ∧ mem (a + (encode name).length) = 0

structure IsRecord (mem : Memory UInt8) (d : Nat) (c : Item) : Prop where
  aligned : d % 4 = 0
  ne : d ≠ 0
  type : direntType mem d = c.tp
  size : direntSize mem d = c.entrySize
  lt : c.entrySize < 2 ^ 32 - 1
  name : NameAt mem (direntName mem d) c.name

mutual

/-- The record at `d` is that of the item. -/
def Described (mem : Memory UInt8) (d : Nat) : Item → Prop
  | .file name data => IsRecord mem d (.file name data) ∧ mem.Holds (direntData mem d) data
  | .folder name children => IsRecord mem d (.folder name children) ∧ direntData mem d ≠ 0 ∧
      AllDescribed mem (direntData mem d) children

/-- The records from `d` on are those of the items. -/
def AllDescribed (mem : Memory UInt8) (d : Nat) : List Item → Prop
  | [] => True
  | c :: children => Described mem d c ∧ AllDescribed mem (d + 16) children

end

theorem Described.record {d : Nat} (h : Described mem d c) : IsRecord mem d c := by
  cases c with
  | file name data | folder name children => exact h.1

theorem nameAt_of_holds (h : mem.Holds a (binName name)) : NameAt mem a name := by
  have hpos : 4 - name.length % 4 = (3 - name.length % 4) + 1 := by omega
  rw [binName_eq, hpos, replicate_succ, holds_append, holds_cons] at h
  exact ⟨h.1, h.2.1⟩

theorem holds_of_padData {data : List UInt8} (h : mem.Holds a (padData data)) :
    mem.Holds a data := by
  unfold padData at h
  split at h
  · exact (holds_append.mp h).1
  · exact h

theorem length_le_padData (data : List UInt8) : data.length ≤ (padData data).length := by
  unfold padData
  split <;> simp

theorem binItems_cons {vLen : Nat} {r : List UInt8 × List UInt8}
    (h : binItems vLen (c :: children) = some r) :
    ∃ data item r', c.binData (vLen + (binName c.name).length) = some data ∧
      binPack c.tp vLen (vLen + (binName c.name).length) c.entrySize = some item ∧
      binItems (vLen + (binName c.name).length + (padData data).length) children = some r' ∧
      r = (item ++ r'.1, binName c.name ++ padData data ++ r'.2) := by
  rw [binItems] at h
  obtain ⟨data, hdata, h⟩ := Option.bind_eq_some_iff.mp h
  obtain ⟨item, hitem, h⟩ := Option.bind_eq_some_iff.mp h
  obtain ⟨r', hr', h⟩ := Option.bind_eq_some_iff.mp h
  exact ⟨data, item, r', hdata, hitem, hr', (Option.some.inj h).symm⟩

theorem length_binPack {type name data size : Nat} (h : binPack type name data size = some bytes) :
    bytes.length = 16 := by
  unfold binPack at h
  split at h
  · cases h
    rfl
  · cases h

theorem length_binItems : ∀ {vLen : Nat} {r : List UInt8 × List UInt8},
    binItems vLen children = some r → r.1.length = 16 * children.length := by
  induction children with
  | nil =>
    intro vLen r h
    cases h
    rfl
  | cons c children ih =>
    intro vLen r h
    obtain ⟨data, item, r', -, hitem, hr', rfl⟩ := binItems_cons h
    simp [length_binPack hitem, ih hr']
    omega

theorem binData_folder (h : (Item.folder name children).binData a = some bytes) :
    ∃ r, binItems (a + 16 * children.length) children = some r ∧ bytes = r.1 ++ r.2 := by
  rw [Item.binData] at h
  obtain ⟨r, hr, h⟩ := Option.bind_eq_some_iff.mp h
  exact ⟨r, hr, (Option.some.inj h).symm⟩

theorem entrySize_le (h : c.binData a = some bytes) : c.entrySize ≤ bytes.length := by
  cases c with
  | file name data =>
    cases h
    exact Nat.le_refl _
  | folder name children =>
    obtain ⟨r, hr, rfl⟩ := binData_folder h
    have hlen := length_binItems hr
    simp only [Item.entrySize, length_append]
    omega

mutual

theorem binData_described : ∀ (c : Item) {d a : Nat} {bytes : List UInt8},
    c.Named → c.binData a = some bytes → mem.Holds a bytes → a % 4 = 0 → a ≠ 0 →
    a + bytes.length ≤ 2 ^ 32 → IsRecord mem d c → direntData mem d = a → Described mem d c
  | .file name data, d, a, bytes, _, hdata, hholds, _, _, _, hrec, hptr => by
    cases hdata
    exact ⟨hrec, hptr ▸ hholds⟩
  | .folder name children, d, a, bytes, hnamed, hdata, hholds, ha, hne, hfit, hrec, hptr => by
    obtain ⟨r, hr, rfl⟩ := binData_folder hdata
    obtain ⟨hrecs, hpay⟩ := holds_append.mp hholds
    have hlen := length_binItems hr
    rw [hlen] at hpay
    rw [length_append, hlen] at hfit
    refine ⟨hrec, hptr ▸ hne, ?_⟩
    rw [hptr]
    exact binItems_described children hnamed.2.2 hr hrecs hpay ha hne (by omega) (by omega) (by omega)

/-- **The image has the records of the items, and all that is in them.** -/
theorem binItems_described :
    ∀ (children : List Item) {d vLen : Nat} {r : List UInt8 × List UInt8},
    AllNamed children → binItems vLen children = some r → mem.Holds d r.1 → mem.Holds vLen r.2 →
    d % 4 = 0 → d ≠ 0 → vLen % 4 = 0 → vLen ≠ 0 → vLen + r.2.length ≤ 2 ^ 32 →
    AllDescribed mem d children
  | [], _, _, _, _, _, _, _, _, _, _, _, _ => trivial
  | c :: children, d, vLen, r, hnamed, hr, hrecs, hpay, hd, hdne, hv, hvne, hfit => by
    obtain ⟨data, item, r', hdata, hitem, hr', rfl⟩ := binItems_cons hr
    obtain ⟨hrec, hrecs⟩ := holds_append.mp hrecs
    obtain ⟨hpay, hrest⟩ := holds_append.mp hpay
    obtain ⟨hname, hpad⟩ := holds_append.mp hpay
    rw [length_binPack hitem] at hrecs
    simp only [length_append] at hrest hfit
    obtain ⟨htype, hnameAddr, hdataAddr, hsize⟩ := dirent_of_holds hitem hrec
    have hnlen := length_binName hnamed.1.good.ascii
    have hplen := length_padData data
    have hdlen := length_le_padData data
    have hsz := entrySize_le hdata
    refine ⟨binData_described c hnamed.1 hdata (holds_of_padData hpad) (by omega) (by omega)
      (by omega) ?_ hdataAddr, ?_⟩
    · exact ⟨hd, hdne, htype, hsize, by omega, hnameAddr ▸ nameAt_of_holds hname⟩
    · rw [← Nat.add_assoc] at hrest
      exact binItems_described children hnamed.2 hr' hrecs hrest (by omega) (by omega) (by omega)
        (by omega) (by omega)

end

end Gpmx.Romfs
