import Gpmx.Romfs.Gromfs

/-!
# GROMFS: what the generator writes is what the reader finds

* `FolderAt` — the folders of the tree, by the names that lead to them
* `lookup_folder` — the lookup goes down to a folder
* `image_read_back` — lookup and read, over every tree

The root is at the address of the image, and address 0 is NULL to `check_dirent`.
-/

namespace Gpmx.Romfs

open Infra Memory List

variable {mem : Memory UInt8}

/-! ## Searching a folder -/

variable {d : Nat} {c : Item} {children : List Item} {seg path : List UInt8} {base : Nat}

theorem checkDirent_record (h : IsRecord mem d c) : checkDirent mem d = 0 := by
  have htype : direntType mem d = ROMFS_DIRENT_FILE ∨ direntType mem d = ROMFS_DIRENT_DIR := by
    rw [h.type]
    cases c with
    | file name data => exact .inl rfl
    | folder name children => exact .inr rfl
  have hsize : direntSize mem d ≠ 2 ^ 32 - 1 := by
    rw [h.size]
    exact h.lt.ne
  unfold checkDirent
  rw [if_neg]
  have hne := h.ne
  tauto

theorem string_unique {a : Nat} {xs ys : List UInt8} (hx : mem.Holds a xs) (hx0 : 0 ∉ xs)
    (hxe : mem (a + xs.length) = 0) (hy : mem.Holds a ys) (hy0 : 0 ∉ ys)
    (hye : mem (a + ys.length) = 0) : xs = ys := by
  have hlt : ∀ {xs ys : List UInt8}, mem.Holds a xs → 0 ∉ xs → mem (a + ys.length) = 0 →
      xs.length ≤ ys.length := by
    intro xs ys hx hx0 hye
    by_contra hlt
    have hmem : mem (a + ys.length) ∈ mem.read a xs.length := by
      have hi : ys.length < (mem.read a xs.length).length := by
        simp
        omega
      rw [← getElem_read mem hi]
      exact getElem_mem hi
    rw [hx, hye] at hmem
    exact hx0 hmem
  have hlen : xs.length = ys.length := Nat.le_antisymm (hlt hx hx0 hye) (hlt hy hy0 hxe)
  rw [← hx, ← hy, hlen]

theorem sameName_iff (h : IsRecord mem d c) (hgood : GoodName c.name) (seg : List UInt8) :
    SameName mem d seg ↔ seg = encode c.name := by
  obtain ⟨hholds, hend⟩ := h.name
  have hnul := hgood.encode.2.2
  constructor
  · rintro ⟨⟨hnone, hterm⟩, hread⟩
    rw [hread] at hnone
    exact string_unique hread hnone hterm hholds hnul hend
  · rintro rfl
    refine ⟨⟨?_, hend⟩, hholds⟩
    rw [hholds]
    exact hnul

theorem searchFolder_cons {left : Nat} (h : IsRecord mem d c) (hgood : GoodName c.name)
    (seg : List UInt8) : searchFolder mem seg (left + 1) d =
      if seg = encode c.name then some d else searchFolder mem seg left (d + 16) := by
  rw [searchFolder, if_neg (by simp [checkDirent_record h])]
  simp only [sameName_iff h hgood]

theorem searchFolder_found (hc : c ∈ children) :
    ∀ {d : Nat}, WellNamed children → AllDescribed mem d children →
    ∃ d', searchFolder mem (encode c.name) children.length d = some d' ∧ Described mem d' c := by
  induction children with
  | nil => cases hc
  | cons x children ih =>
    intro d hnamed hdesc
    have hx := hnamed.2.1.good
    rw [length_cons, searchFolder_cons hdesc.1.record hx]
    by_cases hname : encode c.name = encode x.name
    · -- names are distinct, so this is the item
      have heq := encode_inj (hnamed.2.named c hc).good hx hname
      have hcx : c = x := by
        rcases mem_cons.mp hc with rfl | hc
        · rfl
        · have hnodup := hnamed.1
          rw [map_cons, nodup_cons] at hnodup
          exact absurd (mem_map.mpr ⟨c, hc, heq⟩) hnodup.1
      subst hcx
      exact ⟨d, if_pos rfl, hdesc.1⟩
    · rw [if_neg hname]
      have hmem : c ∈ children := by
        rcases mem_cons.mp hc with rfl | hc
        · exact absurd rfl hname
        · exact hc
      exact ih hmem ⟨(nodup_cons.mp hnamed.1).2, hnamed.2.2⟩ hdesc.2

theorem searchFolder_missing :
    ∀ {d : Nat}, AllNamed children → AllDescribed mem d children →
    (∀ c ∈ children, encode c.name ≠ seg) → searchFolder mem seg children.length d = none := by
  induction children with
  | nil => intro d _ _ _; rfl
  | cons x children ih =>
    intro d hnamed hdesc hmissing
    rw [length_cons, searchFolder_cons hdesc.1.record hnamed.1.good,
      if_neg (hmissing x mem_cons_self).symm]
    exact ih hnamed.2 hdesc.2 fun c hc => hmissing c (mem_cons_of_mem x hc)

/-! ## Going down the path -/

inductive FolderAt : List Item → List (List Char) → List Item → Prop
  | here (children : List Item) : FolderAt children [] children
  | down {children sub target : List Item} {name : List Char} {names : List (List Char)}
      (hmem : Item.folder name sub ∈ children) (h : FolderAt sub names target) :
      FolderAt children (name :: names) target

theorem front_segment {segs : List (List UInt8)} (hrel : path.head? ≠ some 47)
    (hsegs : segments 47 path = seg :: segs) :
    path.takeWhile (· ≠ 47) = seg ∧ segments 47 (nextSubpath path) = segs ∧
      (nextSubpath path).head? ≠ some 47 ∧ (nextSubpath path = [] ↔ segs = []) := by
  have hne : path ≠ [] := by
    rintro rfl
    simp at hsegs
  have hfirst := (first_segment hne hrel).2
  rw [hsegs] at hfirst
  obtain ⟨hseg, hrest⟩ := List.cons.inj hfirst
  have hnext : segments 47 (nextSubpath path) = segs := by
    unfold nextSubpath skipSlashes
    rw [segments_dropWhile, hrest]
  refine ⟨hseg.symm, hnext, head_dropWhile_sep _, ?_⟩
  rw [hrest]
  exact dropWhile_eq_nil_iff_segments

/-- **The lookup goes down to a folder**, with the rest of the path. -/
theorem lookup_folder {target : List Item} {names : List (List Char)}
    (h : FolderAt children names target) :
    ∀ {d : Nat} {path : List UInt8} {rest : List (List UInt8)},
    WellNamed children → AllDescribed mem d children → d ≠ 0 → path.head? ≠ some 47 → rest ≠ [] →
    segments 47 path = names.map encode ++ rest →
    ∃ d' path', lookupLoop mem d children.length path = lookupLoop mem d' target.length path' ∧
      WellNamed target ∧ AllDescribed mem d' target ∧ d' ≠ 0 ∧ path'.head? ≠ some 47 ∧
      segments 47 path' = rest := by
  induction h with
  | here children =>
    intro d path rest hnamed hdesc hd hrel _ hsegs
    exact ⟨d, path, rfl, hnamed, hdesc, hd, hrel, hsegs⟩
  | @down children sub target name names hmem _ ih =>
    intro d path rest hnamed hdesc hd hrel hrest hsegs
    obtain ⟨hfront, hnext, hrel', hend⟩ := front_segment hrel hsegs
    obtain ⟨d1, hsearch, hd1⟩ := searchFolder_found hmem hnamed hdesc
    have hmore : nextSubpath path ≠ [] := by
      rw [Ne, hend]
      simp [hrest]
    have hstep : lookupLoop mem d children.length path =
        lookupLoop mem (direntData mem d1) sub.length (nextSubpath path) := by
      rw [lookupLoop, if_neg hd, hfront]
      simp only [Item.name] at hsearch
      simp only [hsearch, if_neg hmore]
      have hdir : direntType mem d1 = ROMFS_DIRENT_DIR := hd1.record.type
      rw [if_pos hdir, hd1.record.size]
      rfl
    rw [hstep]
    have hsub := hnamed.2.named _ hmem
    exact ih hsub.2 hd1.2.2 hd1.2.1 hrel' hrest hnext

theorem lookupLoop_last {n : Nat} (hd : d ≠ 0) (hrel : path.head? ≠ some 47)
    (hsegs : segments 47 path = [seg]) :
    lookupLoop mem d n path =
      (searchFolder mem seg n d).map fun d' => (d', some (direntSize mem d')) := by
  obtain ⟨hfront, -, -, hend⟩ := front_segment hrel hsegs
  rw [lookupLoop, if_neg hd, hfront]
  cases searchFolder mem seg n d with
  | none => rfl
  | some d' => simp [hend.mpr rfl]

/-! ## Reading -/

theorem dfsRomfsRead_file {name : List Char} {data : List UInt8}
    (h : Described mem d (.file name data)) {count pos : Nat} (hpos : pos ≤ data.length) :
    dfsRomfsRead mem d count pos =
      ⟨min count (data.length - pos), (data.drop pos).take count,
        pos + min count (data.length - pos)⟩ := by
  obtain ⟨hrec, hholds⟩ := h
  have hlt : data.length < 2 ^ 32 - 1 := hrec.lt
  have hsize : direntSize mem d = data.length := hrec.size
  have hleft : (direntSize mem d + 2 ^ 32 - pos) % 2 ^ 32 = data.length - pos := by
    rw [hsize]
    omega
  have hlen : (if count < data.length - pos then count else data.length - pos) =
      min count (data.length - pos) := by
    split <;> omega
  have hread : mem.read (direntData mem d + pos) (min count (data.length - pos)) =
      (data.drop pos).take count := by
    rw [← take_drop_read mem (show pos + min count (data.length - pos) ≤ data.length by omega), hholds,
      ← length_drop, ← take_eq_take_min]
  unfold dfsRomfsRead
  rw [if_neg (by simp [checkDirent_record hrec])]
  simp only [hleft, hlen, hread]
  rw [Nat.mod_eq_of_lt (by omega)]

/-! ## The image -/

mutual

/-- The length of what `bin_data` returns. -/
def Item.binSize : Item → Nat
  | .file _ data => data.length
  | .folder _ children => 16 * children.length + payloadSize children

def payloadSize : List Item → Nat
  | [] => 0
  | c :: children => (binName c.name).length + (c.binSize + 3) / 4 * 4 + payloadSize children

end

def imageSize (children : List Item) : Nat := 20 + 16 * children.length + payloadSize children

theorem length_padData_eq (data : List UInt8) :
    (padData data).length = (data.length + 3) / 4 * 4 := by
  unfold padData
  split
  · simp
    omega
  · omega

theorem Item.entrySize_le_binSize (c : Item) : c.entrySize ≤ c.binSize := by
  cases c with
  | file name data => exact Nat.le_refl _
  | folder name children =>
    simp only [Item.entrySize, Item.binSize]
    omega

mutual

theorem binData_total : ∀ (c : Item) {a : Nat}, a + c.binSize < 2 ^ 32 →
    ∃ bytes, c.binData a = some bytes ∧ bytes.length = c.binSize
  | .file _ data, _, _ => ⟨data, rfl, rfl⟩
  | .folder _ children, a, hfit => by
    rw [Item.binSize] at hfit
    obtain ⟨r, hr, hlen⟩ := binItems_total children (show a + 16 * children.length +
      payloadSize children < 2 ^ 32 by omega)
    refine ⟨r.1 ++ r.2, by simp [Item.binData, hr], ?_⟩
    rw [length_append, length_binItems hr, hlen, Item.binSize]

theorem binItems_total : ∀ (children : List Item) {vLen : Nat},
    vLen + payloadSize children < 2 ^ 32 →
    ∃ r, binItems vLen children = some r ∧ r.2.length = payloadSize children
  | [], _, _ => ⟨_, rfl, rfl⟩
  | c :: children, vLen, hfit => by
    rw [payloadSize] at hfit
    have hsz := c.entrySize_le_binSize
    obtain ⟨data, hdata, hdlen⟩ := binData_total c (show vLen + (binName c.name).length +
      c.binSize < 2 ^ 32 by omega)
    have hplen := length_padData_eq data
    rw [hdlen] at hplen
    obtain ⟨r, hr, hrlen⟩ := binItems_total children (show vLen + (binName c.name).length +
      (padData data).length + payloadSize children < 2 ^ 32 by omega)
    have htp : c.tp < 2 ^ 32 := by cases c <;> simp [Item.tp]
    have hpack : binPack c.tp vLen (vLen + (binName c.name).length) c.entrySize = some
        (le32 c.tp ++ le32 vLen ++ le32 (vLen + (binName c.name).length) ++ le32 c.entrySize) :=
      if_pos ⟨htp, by omega, by omega, by omega⟩
    refine ⟨_, by simp only [binItems, hdata, hpack, hr, Option.bind_eq_bind, Option.bind_some]; rfl, ?_⟩
    simp only [length_append, hplen, hrlen, payloadSize]

end

theorem getBinData_total (hfit : base + imageSize children < 2 ^ 32) :
    ∃ bytes, getBinData children base = some bytes ∧ bytes.length = imageSize children := by
  unfold imageSize at *
  obtain ⟨r, hr, hlen⟩ := binItems_total children (show base + 20 + 16 * children.length +
    payloadSize children < 2 ^ 32 by omega)
  have hpack : binPack 1 (base + 16) (base + 20) children.length = some
      (le32 1 ++ le32 (base + 16) ++ le32 (base + 20) ++ le32 children.length) :=
    if_pos ⟨by omega, by omega, by omega, by omega⟩
  refine ⟨_, by simp only [getBinData, hpack, hr, Option.bind_eq_bind, Option.bind_some]; rfl, ?_⟩
  simp [length_binItems hr, hlen, le32]
  omega

theorem getBinData_described {bytes : List UInt8} (hnamed : WellNamed children)
    (halign : base % 4 = 0) (hbase : base ≠ 0) (hbin : getBinData children base = some bytes)
    (hfit : base + bytes.length ≤ 2 ^ 32) (hmem : mem.Holds base bytes) :
    direntType mem base = 1 ∧ direntSize mem base = children.length ∧
      direntData mem base = base + 20 ∧ checkDirent mem base = 0 ∧
      AllDescribed mem (base + 20) children := by
  obtain ⟨item, hitem, h⟩ := Option.bind_eq_some_iff.mp hbin
  obtain ⟨r, hr, h⟩ := Option.bind_eq_some_iff.mp h
  cases h
  have hlen := length_binItems hr
  obtain ⟨hmem, hrest⟩ := holds_append.mp hmem
  obtain ⟨hrecs, hpay⟩ := holds_append.mp hrest
  obtain ⟨hroot, -⟩ := holds_append.mp hmem
  simp only [length_append, length_binPack hitem, hlen, length_cons, length_nil] at *
  obtain ⟨htype, -, hdata, hsize⟩ := dirent_of_holds hitem hroot
  refine ⟨htype, hsize, hdata, ?_, ?_⟩
  · unfold checkDirent ROMFS_DIRENT_FILE ROMFS_DIRENT_DIR
    rw [if_neg]
    rw [htype, hsize]
    omega
  · exact binItems_described children hnamed.2 hr hrecs hpay (by omega) (by omega) (by omega) (by omega)
      (by omega)

/--
The reader and the tree agree: every item is found under its path, with its type and size, in a
record at a multiple of 4; a file is read; and what is in no folder is not found.
-/
structure ReadsBack (mem : Memory UInt8) (children : List Item) (base : Nat) : Prop where
  root : dfsRomfsLookup mem base [47] = some (base, some children.length) ∧
    direntType mem base = ROMFS_DIRENT_DIR ∧ direntSize mem base = children.length ∧ base % 4 = 0
  found : ∀ {names : List (List Char)} {target : List Item} {c : Item} {path : List UInt8},
    FolderAt children names target → c ∈ target →
    segments 47 path = names.map encode ++ [encode c.name] →
    ∃ d, dfsRomfsLookup mem base path = some (d, some c.entrySize) ∧ direntType mem d = c.tp ∧
      direntSize mem d = c.entrySize ∧ d % 4 = 0 ∧
      ∀ name data, c = .file name data → ∀ count pos, pos ≤ data.length →
        dfsRomfsRead mem d count pos = ⟨min count (data.length - pos), (data.drop pos).take count,
          pos + min count (data.length - pos)⟩
  missing : ∀ {names : List (List Char)} {target : List Item} {last path : List UInt8},
    FolderAt children names target → (∀ c ∈ target, encode c.name ≠ last) →
    segments 47 path = names.map encode ++ [last] → dfsRomfsLookup mem base path = none

theorem dfsRomfsLookup_path {n a : Nat} (hcheck : checkDirent mem base = 0)
    (hsize : direntSize mem base = n) (hdata : direntData mem base = a)
    (hsegs : segments 47 path ≠ []) :
    dfsRomfsLookup mem base path = lookupLoop mem a n (skipSlashes path) := by
  have hroot : path ≠ [47] := by
    rintro rfl
    exact hsegs (segments_sep_cons [])
  unfold dfsRomfsLookup
  rw [if_neg (by simp [hcheck]), if_neg hroot, hsize, hdata]

/-- **What the generator writes is what the reader finds**, at every address but 0. -/
theorem image_read_back {children : List Item} {base : Nat} (hnamed : WellNamed children)
    (halign : base % 4 = 0) (hbase : base ≠ 0) :
    (base + imageSize children < 2 ^ 32 → ∃ bytes, getBinData children base = some bytes) ∧
      ∀ bytes, getBinData children base = some bytes → base + bytes.length ≤ 2 ^ 32 →
        ∀ mem : Memory UInt8, mem.Holds base bytes → ReadsBack mem children base := by
  constructor
  · intro hfit
    obtain ⟨bytes, hbin, -⟩ := getBinData_total hfit
    exact ⟨bytes, hbin⟩
  intro bytes hbin hfit mem hmem
  obtain ⟨htype, hsize, hdata, hcheck, hdesc⟩ :=
    getBinData_described hnamed halign hbase hbin hfit hmem
  -- the path is followed down to the folder, and the last name is looked up there
  have hlookup : ∀ {names : List (List Char)} {target : List Item} {last path : List UInt8},
      FolderAt children names target → segments 47 path = names.map encode ++ [last] →
      ∃ d, WellNamed target ∧ AllDescribed mem d target ∧ dfsRomfsLookup mem base path =
        (searchFolder mem last target.length d).map fun d' => (d', some (direntSize mem d')) := by
    intro names target last path hat hsegs
    rw [dfsRomfsLookup_path hcheck hsize hdata (by simp [hsegs])]
    obtain ⟨d, path', hloop, hwell, hall, hd, hrel, hlast⟩ := lookup_folder hat hnamed hdesc
      (by omega) (head_dropWhile_sep path) (cons_ne_nil last [])
      (show segments 47 (skipSlashes path) = _ by rw [← hsegs]; exact segments_dropWhile path)
    exact ⟨d, hwell, hall, hloop.trans (lookupLoop_last hd hrel hlast)⟩
  constructor
  · refine ⟨?_, htype, hsize, halign⟩
    unfold dfsRomfsLookup
    rw [if_neg (by simp [hcheck]), if_pos rfl, hsize]
  · intro names target c path hat hc hsegs
    obtain ⟨d, hwell, hall, hpath⟩ := hlookup hat hsegs
    obtain ⟨d', hsearch, hd'⟩ := searchFolder_found hc hwell hall
    refine ⟨d', by rw [hpath, hsearch, ← hd'.record.size]; rfl, hd'.record.type, hd'.record.size,
      hd'.record.aligned, ?_⟩
    rintro name data rfl count pos hpos
    exact dfsRomfsRead_file hd' hpos
  · intro names target last path hat hmissing hsegs
    obtain ⟨d, hwell, hall, hpath⟩ := hlookup hat hsegs
    rw [hpath, searchFolder_missing hwell.2 hall hmissing]
    rfl

/-- `/a/b` with three bytes, and `/c`, which is empty. -/
def smallTree : List Item := [.folder ['a'] [.file ['b'] [1, 2, 3]], .file ['c'] []]

theorem smallTree_wellNamed : WellNamed smallTree := by
  have hgood : ∀ c : Char, c.toNat < 128 → c ≠ '/' → c ≠ Char.ofNat 0 → GoodName [c] := by
    intro c h1 h2 h3
    exact ⟨by simp, by simpa using h1, by simpa using h2.symm, by simpa using h3.symm⟩
  have ha := hgood 'a' (by decide) (by decide) (by decide)
  have hb := hgood 'b' (by decide) (by decide) (by decide)
  have hc := hgood 'c' (by decide) (by decide) (by decide)
  exact ⟨by decide, ⟨ha, by decide, hb, trivial⟩, hc, trivial⟩

theorem image_read_back_small : ∃ bytes, getBinData smallTree 4096 = some bytes ∧
    ∃ d, dfsRomfsLookup (Memory.write (fun _ => 0) 4096 bytes) 4096 [47, 97, 47, 98] =
      some (d, some 3) := by
  obtain ⟨bytes, hbin, hlen⟩ := getBinData_total (show 4096 + imageSize smallTree < 2 ^ 32 by decide)
  have hback := (image_read_back smallTree_wellNamed (show 4096 % 4 = 0 by decide) (by decide)).2 bytes
    hbin (by rw [hlen]; decide) _ (holds_write_self (fun _ => 0) 4096 bytes)
  have hat : FolderAt smallTree [['a']] [.file ['b'] [1, 2, 3]] :=
    .down mem_cons_self (.here _)
  obtain ⟨d, hd, -⟩ := hback.found hat mem_cons_self
    (show segments 47 [47, 97, 47, 98] = _ by decide)
  exact ⟨bytes, hbin, d, hd⟩

/-- At address 0 the root is NULL. -/
theorem image_at_zero_not_found : ¬∀ (children : List Item) (base : Nat), WellNamed children →
    base % 4 = 0 → ∀ bytes, getBinData children base = some bytes → base + bytes.length ≤ 2 ^ 32 →
      ∀ mem : Memory UInt8, mem.Holds base bytes → ReadsBack mem children base := by
  intro h
  obtain ⟨bytes, hbin, hlen⟩ := getBinData_total (show 0 + imageSize [] < 2 ^ 32 by decide)
  have hfit : 0 + bytes.length ≤ 2 ^ 32 := by
    rw [hlen]
    decide
  have hback := h [] 0 ⟨nodup_nil, trivial⟩ rfl bytes hbin hfit _
    (holds_write_self (fun _ => 0) 0 bytes)
  have hroot := hback.root.1
  simp [dfsRomfsLookup, checkDirent] at hroot

end Gpmx.Romfs
