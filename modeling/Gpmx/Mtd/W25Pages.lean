import Gpmx.Mtd.W25Flat

/-!
# W25: page programs

`w25_write` cuts a transfer into page programs. Here with the types of the source: `off_t` and `int` have
32 bits, `w25_bytewrite` takes the number of bytes as a `uint16_t`, and the chip gets the address in three
bytes. The chip goes on from the end of a page at the beginning of the same page.

* `writeCalls` — the calls of `w25_bytewrite`
* `Bytewrite.cells` — what the chip programs for a call
* `write_splits` — no call leaves its page, and together they program each byte once
-/

namespace Gpmx.Mtd.W25

open BitVec List

/-- The arguments of a call of `w25_bytewrite`: `&buffer[index]`, `offset` and `count`. -/
structure Bytewrite where
  index : BitVec 32
  offset : BitVec 32
  count : BitVec 32
deriving DecidableEq

theorem sub_page_lt {count : BitVec 32} (h : (256 : BitVec 32).sle count) :
    256 ≤ count.toNat ∧ count.toNat < 2 ^ 31 ∧ (count - 256).toNat = count.toNat - 256 := by
  rw [sle_iff_toInt_le, show (256 : BitVec 32).toInt = 256 from rfl, toInt_eq_toNat_cond] at h
  have hlt := count.isLt
  have hsplit : 256 ≤ count.toNat ∧ count.toNat < 2 ^ 31 := by
    split at h <;> omega
  refine ⟨hsplit.1, hsplit.2, ?_⟩
  rw [toNat_sub_of_le (show (256 : BitVec 32) ≤ count from le_def.mpr hsplit.1)]
  rfl

theorem lt_page_of_not_sle {count : BitVec 32} (hcount : count.toNat < 2 ^ 31)
    (h : ¬(256 : BitVec 32).sle count) : count.toNat < 256 := by
  by_contra hge
  refine h ?_
  rw [sle_iff_toInt_le, toInt_eq_toNat_of_lt (x := count) (by omega)]
  show (256 : Int) ≤ _
  omega

theorem toNat_add_page {x : BitVec 32} (h : x.toNat + 256 < 2 ^ 32) :
    (x + 256).toNat = x.toNat + 256 := by
  rw [toNat_add, show (256 : BitVec 32).toNat = 256 from rfl, Nat.mod_eq_of_lt h]

def writePageCalls (index offset count : BitVec 32) : List Bytewrite :=
  if h : (256 : BitVec 32).sle count then
    ⟨index, offset, 256⟩ :: writePageCalls (index + 256) (offset + 256) (count - 256)
  else if (0 : BitVec 32).slt count then [⟨index, offset, count⟩]
  else []
termination_by count.toNat
decreasing_by
  obtain ⟨hle, -, hsub⟩ := sub_page_lt h
  omega

/-- The calls of `w25_bytewrite` that `w25_write` makes. The sum of an `off_t` and a `size_t` is
unsigned. -/
def writeCalls (offset nbytes : BitVec 32) : List Bytewrite :=
  let startpage := offset.sdiv 256
  let endpage := (offset + nbytes) / 256
  if startpage = endpage then [⟨0, offset, nbytes⟩]
  else
    let bytestowrite := 256 - (offset &&& 255)
    ⟨0, offset, bytestowrite⟩ ::
      writePageCalls bytestowrite (offset + bytestowrite) (nbytes - bytestowrite)

namespace Bytewrite

def address (c : Bytewrite) : BitVec 24 :=
  c.offset.extractLsb' 16 8 ++ c.offset.extractLsb' 8 8 ++ c.offset.extractLsb' 0 8

def sent (c : Bytewrite) : Nat := (c.count.setWidth 16).toNat

/-- The cells that the chip programs, each with its value: the address stays in its page. -/
def cells (buffer : Nat → UInt8) (c : Bytewrite) : List (Nat × UInt8) :=
  (List.range c.sent).map fun k =>
    (c.address.toNat / 256 * 256 + (c.address.toNat % 256 + k) % 256, buffer (c.index.toNat + k))

/-- The call does not leave its page, and its arguments fit what is sent. -/
structure InPage (c : Bytewrite) : Prop where
  address : c.offset.toNat < 2 ^ 24
  count : c.count.toNat < 2 ^ 16
  page : c.offset.toNat % 256 + c.count.toNat ≤ 256

end Bytewrite

/-! ## What a call programs -/

/-- `n` cells from `a` on, with the bytes of the buffer from `i` on. -/
def cellsFrom (buffer : Nat → UInt8) (a i n : Nat) : List (Nat × UInt8) :=
  (List.range n).map fun k => (a + k, buffer (i + k))

theorem cellsFrom_append (buffer : Nat → UInt8) (a i n k : Nat) :
    cellsFrom buffer a i n ++ cellsFrom buffer (a + n) (i + n) k = cellsFrom buffer a i (n + k) := by
  unfold cellsFrom
  rw [range_add, map_append, map_map]
  congr 1
  refine map_congr_left fun j _ => ?_
  show _ = (a + (n + j), buffer (i + (n + j)))
  rw [Nat.add_assoc, Nat.add_assoc]

theorem Bytewrite.address_toNat {c : Bytewrite} (h : c.offset.toNat < 2 ^ 24) :
    c.address.toNat = c.offset.toNat := by
  have hlow : c.address = c.offset.setWidth 24 := by
    unfold Bytewrite.address
    rw [extractLsb'_append_extractLsb'_eq_extractLsb' (show 16 = 8 + 8 from rfl),
      extractLsb'_append_extractLsb'_eq_extractLsb' (show 8 = 0 + 8 from rfl),
      setWidth_eq_extractLsb' (by decide)]
  rw [hlow, toNat_setWidth, Nat.mod_eq_of_lt h]

theorem Bytewrite.InPage.cells_eq {c : Bytewrite} (h : c.InPage) (buffer : Nat → UInt8) :
    c.cells buffer = cellsFrom buffer c.offset.toNat c.index.toNat c.count.toNat := by
  unfold Bytewrite.cells cellsFrom Bytewrite.sent
  rw [toNat_setWidth, Nat.mod_eq_of_lt h.count, Bytewrite.address_toNat h.address]
  refine map_congr_left fun k hk => ?_
  have hlt := mem_range.mp hk
  have hpage := h.page
  congr 1
  omega

/-! ## The pages -/

variable {index offset count nbytes : BitVec 32}

theorem slt_zero_iff (h : count.toNat < 2 ^ 31) : (0 : BitVec 32).slt count ↔ 0 < count.toNat := by
  rw [slt_iff_toInt_lt, show (0 : BitVec 32).toInt = 0 from rfl,
    toInt_eq_toNat_of_lt (by omega)]
  omega

theorem writePageCalls_splits (buffer : Nat → UInt8) (index offset count : BitVec 32)
    (haligned : offset.toNat % 256 = 0) (hbound : offset.toNat + count.toNat ≤ 2 ^ 24)
    (hindex : index.toNat + count.toNat ≤ 2 ^ 24) :
    (∀ c ∈ writePageCalls index offset count, c.InPage) ∧
      (writePageCalls index offset count).flatMap (Bytewrite.cells buffer) =
        cellsFrom buffer offset.toNat index.toNat count.toNat := by
  induction index, offset, count using writePageCalls.induct with
  | case1 index offset count hfull ih =>
    obtain ⟨hle, -, hsub⟩ := sub_page_lt hfull
    have hoffset := toNat_add_page (x := offset) (by omega)
    have hnext := toNat_add_page (x := index) (by omega)
    obtain ⟨hrest, hcells⟩ := ih (by omega) (by omega) (by omega)
    have hpage : (⟨index, offset, 256⟩ : Bytewrite).InPage :=
      ⟨show offset.toNat < 2 ^ 24 by omega, show 256 < 2 ^ 16 by decide,
        show offset.toNat % 256 + 256 ≤ 256 by omega⟩
    rw [writePageCalls, dif_pos hfull, forall_mem_cons, flatMap_cons, hcells, hpage.cells_eq]
    refine ⟨⟨hpage, hrest⟩, ?_⟩
    have hsent : (Bytewrite.mk index offset 256).count.toNat = 256 := rfl
    rw [hsent, hoffset, hnext, hsub, cellsFrom_append, Nat.add_sub_cancel' hle]
  | case2 index offset count hfull hsome =>
    have hlt := lt_page_of_not_sle (by omega) hfull
    have hpos := (slt_zero_iff (by omega)).mp hsome
    have hpage : (⟨index, offset, count⟩ : Bytewrite).InPage :=
      ⟨show offset.toNat < 2 ^ 24 by omega, show count.toNat < 2 ^ 16 by omega,
        show offset.toNat % 256 + count.toNat ≤ 256 by omega⟩
    rw [writePageCalls, dif_neg hfull, if_pos hsome, forall_mem_singleton, flatMap_singleton]
    exact ⟨hpage, hpage.cells_eq buffer⟩
  | case3 index offset count hfull hnone =>
    have hzero : count.toNat = 0 := by
      by_contra hne
      exact hnone ((slt_zero_iff (by omega)).mpr (Nat.pos_of_ne_zero hne))
    rw [writePageCalls, dif_neg hfull, if_neg hnone, hzero]
    exact ⟨fun _ h => absurd h not_mem_nil, rfl⟩

/-! ## The whole transfer -/

theorem sdiv_page (offset : BitVec 32) (h : offset.toNat < 2 ^ 31) : (offset.sdiv 256).toNat = offset.toNat / 256 := by
  have hmsb : offset.msb = false := msb_eq_false_iff_two_mul_lt.mpr (by omega)
  rw [sdiv_eq, hmsb, show (256 : BitVec 32).msb = false from rfl]
  exact toNat_udiv

theorem toNat_and_low (offset : BitVec 32) : (offset &&& 255).toNat = offset.toNat % 256 := by
  rw [toNat_and]
  exact Nat.and_two_pow_sub_one_eq_mod offset.toNat 8

theorem writeCalls_cases (hoffset : offset.toNat < 2 ^ 24) (hend : offset.toNat + nbytes.toNat ≤ 2 ^ 24) :
    (offset.toNat / 256 = (offset.toNat + nbytes.toNat) / 256 →
      writeCalls offset nbytes = [⟨0, offset, nbytes⟩]) ∧
    (offset.toNat / 256 ≠ (offset.toNat + nbytes.toNat) / 256 →
      ∃ first : BitVec 32, first.toNat = 256 - offset.toNat % 256 ∧ first.toNat ≤ nbytes.toNat ∧
        (offset + first).toNat = offset.toNat + first.toNat ∧
        (nbytes - first).toNat = nbytes.toNat - first.toNat ∧
        writeCalls offset nbytes =
          ⟨0, offset, first⟩ :: writePageCalls first (offset + first) (nbytes - first)) := by
  have hstart := sdiv_page offset (by omega)
  have hstop : ((offset + nbytes) / 256).toNat = (offset.toNat + nbytes.toNat) / 256 := by
    rw [toNat_udiv, toNat_add, Nat.mod_eq_of_lt (by omega)]
    rfl
  have heq : offset.sdiv 256 = (offset + nbytes) / 256 ↔
      offset.toNat / 256 = (offset.toNat + nbytes.toNat) / 256 := by
    rw [← hstart, ← hstop]
    exact toNat_inj.symm
  refine ⟨fun hin => if_pos (heq.mpr hin), fun hover => ?_⟩
  have hlow := toNat_and_low offset
  have hfirst : (256 - (offset &&& 255)).toNat = 256 - offset.toNat % 256 := by
    rw [toNat_sub_of_le (le_def.mpr _), hlow]
    · rfl
    · rw [hlow]
      show offset.toNat % 256 ≤ 256
      omega
  have hle : (256 - (offset &&& 255)).toNat ≤ nbytes.toNat := by omega
  refine ⟨256 - (offset &&& 255), hfirst, hle, ?_, toNat_sub_of_le (le_def.mpr hle),
    if_neg (mt heq.mp hover)⟩
  rw [toNat_add, Nat.mod_eq_of_lt (by omega)]

theorem writeCalls_splits (offset nbytes : BitVec 32) (buffer : Nat → UInt8) (hoffset : offset.toNat < 2 ^ 24)
    (hend : offset.toNat + nbytes.toNat ≤ 2 ^ 24) :
    (∀ c ∈ writeCalls offset nbytes, c.InPage) ∧
      (writeCalls offset nbytes).flatMap (Bytewrite.cells buffer) =
        cellsFrom buffer offset.toNat 0 nbytes.toNat := by
  obtain ⟨hsame, hother⟩ := writeCalls_cases hoffset hend
  by_cases hin : offset.toNat / 256 = (offset.toNat + nbytes.toNat) / 256
  · have hpage : (⟨0, offset, nbytes⟩ : Bytewrite).InPage :=
      ⟨hoffset, show nbytes.toNat < 2 ^ 16 by omega, show offset.toNat % 256 + nbytes.toNat ≤ 256 by omega⟩
    rw [hsame hin, forall_mem_singleton, flatMap_singleton]
    exact ⟨hpage, hpage.cells_eq buffer⟩
  · -- the first page ends inside the transfer
    obtain ⟨first, hfirst, hle, hnext, hleft, hcalls⟩ := hother hin
    have hpage : (⟨0, offset, first⟩ : Bytewrite).InPage :=
      ⟨hoffset, show first.toNat < 2 ^ 16 by omega, show offset.toNat % 256 + first.toNat ≤ 256 by omega⟩
    obtain ⟨hrest, hcells⟩ := writePageCalls_splits buffer first (offset + first) (nbytes - first)
      (by omega) (by omega) (by omega)
    rw [hcalls, forall_mem_cons, flatMap_cons, hcells, hpage.cells_eq]
    refine ⟨⟨hpage, hrest⟩, ?_⟩
    have hsent : (Bytewrite.mk 0 offset first).count.toNat = first.toNat := rfl
    have hindex : (Bytewrite.mk 0 offset first).index.toNat = 0 := rfl
    have happend := cellsFrom_append buffer offset.toNat 0 first.toNat (nbytes.toNat - first.toNat)
    rw [Nat.zero_add, Nat.add_sub_cancel' hle] at happend
    rw [hsent, hindex, hnext, hleft]
    exact happend

/-! ## The calls on the device -/

def Bytewrite.exec (buffer : Nat → UInt8) (dev : Dev) (c : Bytewrite) : Dev :=
  bytewrite dev (fun k => buffer (c.index.toNat + k)) c.offset.toNat c.count.toNat

theorem Bytewrite.exec_zero (buffer : Nat → UInt8) (dev : Dev) (offset count : BitVec 32) :
    exec buffer dev ⟨0, offset, count⟩ = bytewrite dev buffer offset.toNat count.toNat := by
  have hzero : (0 : BitVec 32).toNat = 0 := rfl
  unfold exec
  simp only [hzero, Nat.zero_add]

def writeRest (buffer : Nat → UInt8) (dev : Dev) (index offset count : Nat) : Dev :=
  let npages := count / 256
  let dev := writePages dev (fun i => buffer (index + i)) offset npages
  if count % 256 > 0 then
    bytewrite dev (fun i => buffer (index + npages * 256 + i)) (offset + npages * 256) (count % 256)
  else dev

theorem writeRest_page (buffer : Nat → UInt8) (dev : Dev) (index offset : Nat) {count : Nat}
    (h : 256 ≤ count) : writeRest buffer dev index offset count =
      writeRest buffer (bytewrite dev (fun i => buffer (index + i)) offset 256) (index + 256) (offset + 256)
        (count - 256) := by
  obtain ⟨rest, rfl⟩ := Nat.exists_eq_add_of_le h
  unfold writeRest
  dsimp only
  rw [Nat.add_sub_cancel_left, Nat.add_mod_left, Nat.add_div_left _ (by decide), writePages]
  have hindex (i : Nat) : index + (rest / 256).succ * 256 + i = index + 256 + rest / 256 * 256 + i := by omega
  have hoffset : offset + (rest / 256).succ * 256 = offset + 256 + rest / 256 * 256 := by omega
  simp only [hindex, hoffset, Nat.add_assoc]

theorem foldl_writePageCalls (buffer : Nat → UInt8) (dev : Dev) (index offset count : BitVec 32)
    (hcount : count.toNat < 2 ^ 24) (hoffset : offset.toNat + count.toNat < 2 ^ 32)
    (hindex : index.toNat + count.toNat < 2 ^ 32) :
    (writePageCalls index offset count).foldl (Bytewrite.exec buffer) dev =
      writeRest buffer dev index.toNat offset.toNat count.toNat := by
  induction index, offset, count using writePageCalls.induct generalizing dev with
  | case1 index offset count hfull ih =>
    obtain ⟨hle, -, hsub⟩ := sub_page_lt hfull
    have hnext := toNat_add_page (x := offset) (by omega)
    have hindex' := toNat_add_page (x := index) (by omega)
    rw [writePageCalls, dif_pos hfull, foldl_cons, ih _ (by omega) (by omega) (by omega), hnext, hindex',
      hsub]
    exact (writeRest_page buffer dev index.toNat offset.toNat hle).symm
  | case2 index offset count hfull hsome =>
    have hlt := lt_page_of_not_sle (by omega) hfull
    have hpos := (slt_zero_iff (by omega)).mp hsome
    rw [writePageCalls, dif_neg hfull, if_pos hsome]
    unfold writeRest
    rw [Nat.div_eq_of_lt hlt, Nat.mod_eq_of_lt hlt, if_pos hpos, Nat.zero_mul, Nat.add_zero, Nat.add_zero]
    rfl
  | case3 index offset count hfull hnone =>
    have hzero : count.toNat = 0 := by
      by_contra hne
      exact hnone ((slt_zero_iff (by omega)).mpr (Nat.pos_of_ne_zero hne))
    rw [writePageCalls, dif_neg hfull, if_neg hnone, hzero]
    rfl

/-- `nsectors`: the erase sectors of the parts that `w25_readid` knows. -/
def nsectors : List Nat := [256, 512, 1024, 2048, 4096]

/-- **`w25_write` splits at page boundaries.** On every part, a transfer inside the device becomes page
programs that stay in their pages, with addresses and counts that fit what is sent; the cells that the
chip programs are those of the transfer, each once and with its byte of the buffer. -/
theorem write_splits (sectors : Nat) (offset nbytes : BitVec 32) (buffer : Nat → UInt8)
    (hpart : sectors ∈ nsectors) (hoffset : offset.toNat < sectors * 4096)
    (hend : offset.toNat + nbytes.toNat ≤ sectors * 4096) :
    (∀ c ∈ writeCalls offset nbytes, c.InPage) ∧
      (writeCalls offset nbytes).flatMap (Bytewrite.cells buffer) =
        (List.range nbytes.toNat).map fun i => (offset.toNat + i, buffer i) := by
  have hsize : ∀ sectors ∈ nsectors, sectors ≤ 4096 := by decide
  have hle := hsize sectors hpart
  obtain ⟨hpages, hcells⟩ := writeCalls_splits offset nbytes buffer (by omega) (by omega)
  refine ⟨hpages, hcells.trans ?_⟩
  unfold cellsFrom
  simp only [Nat.zero_add]

/-- From the middle of a page to the end of the next one. -/
theorem write_splits_sample :
    writeCalls 250 262 = [⟨0, 250, 6⟩, ⟨6, 256, 256⟩] ∧
      (∀ c ∈ writeCalls 250 262, c.InPage) ∧
      (writeCalls 250 262).flatMap (Bytewrite.cells fun _ => 0) =
        (List.range (262 : BitVec 32).toNat).map fun i => ((250 : BitVec 32).toNat + i, 0) :=
  ⟨by decide +kernel, write_splits 4096 250 262 (fun _ => 0) (by decide) (by decide) (by decide)⟩

end Gpmx.Mtd.W25
