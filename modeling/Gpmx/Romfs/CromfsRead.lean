import Gpmx.Infra.Runs
import Gpmx.Romfs.CromfsFile

/-!
# CROMFS: the bytes that a read returns

The offset of the last block that was decompressed is noted, be it that the block went to the
file's own buffer or straight to the user's. A block that is noted is not decompressed again. So a
read of it takes what the file's buffer holds, or, when all of it was asked for, leaves the user's
buffer as it was.

* `pieces` — what each block contributes to the user's buffer
* `Ready` — the first compressed block of a read is not the noted one, or its bytes are at hand
* `read_exact` — a read is right exactly when it meets `Faithful`
-/

namespace Gpmx.Romfs

open Infra Option List Memory

structure Block where
  hdr : Nat
  packed : Bool
  data : List UInt8

def content (blocks : List Block) : List UInt8 := blocks.flatMap Block.data

section Stored

variable (lzfDecompress : List UInt8 → Nat → List UInt8) (image : Memory UInt8) (cvBsize : Nat)

inductive Stored : Nat → List Block → Prop
  | nil {o : Nat} : Stored o []
  | plain {o : Nat} {data : List UInt8} {bs : List Block} (htype : lzfType image o = LZF_TYPE0_HDR)
      (hlen : lzfUlen image o = data.length)
      (hdata : image.read (o + LZF_TYPE0_HDR_SIZE) data.length = data)
      (hfits : data.length ≤ cvBsize) (h : Stored (o + lzfBlksize image o) bs) :
      Stored o (⟨o, false, data⟩ :: bs)
  | packed {o : Nat} {data : List UInt8} {bs : List Block} (htype : lzfType image o ≠ LZF_TYPE0_HDR)
      (hlen : lzfUlen image o = data.length)
      (hdata : decompressed lzfDecompress image cvBsize o = data)
      (hfits : data.length ≤ cvBsize) (h : Stored (o + lzfBlksize image o) bs) :
      Stored o (⟨o, true, data⟩ :: bs)

variable {lzfDecompress image cvBsize}

variable {o : Nat} {bs : List Block} {pos fuel : Nat} {t : Transfer} {buflen : Nat}

theorem Stored.head {b : Block} (h : Stored lzfDecompress image cvBsize o (b :: bs)) :
    b.hdr = o ∧ lzfUlen image o = b.data.length ∧
      Stored lzfDecompress image cvBsize (o + lzfBlksize image o) bs ∧
      (b.packed = false ∧ lzfType image o = LZF_TYPE0_HDR ∧
          image.read (o + LZF_TYPE0_HDR_SIZE) b.data.length = b.data ∨
        b.packed = true ∧ lzfType image o ≠ LZF_TYPE0_HDR ∧
          decompressed lzfDecompress image cvBsize o = b.data) := by
  cases h with
  | plain htype hlen hdata _ h => exact ⟨rfl, hlen, h, .inl ⟨rfl, htype, hdata⟩⟩
  | packed htype hlen hdata _ h => exact ⟨rfl, hlen, h, .inr ⟨rfl, htype, hdata⟩⟩

end Stored

/-! ## What the blocks contribute -/

structure Cache where
  noted : Nat
  buf : Memory UInt8

/-- A block is all in the bytes from `pos + k` up to `pos + n`. -/
def Whole (pos n k start : Nat) (b : Block) : Prop := pos ≤ start ∧ b.data.length ≤ n - k

instance (pos n k start : Nat) (b : Block) : Decidable (Whole pos n k start b) :=
  inferInstanceAs (Decidable (_ ∧ _))

def pieceSize (pos n k start : Nat) (b : Block) : Nat := min (b.data.length - (pos - start)) (n - k)

def Cache.after (c : Cache) (pos n k start : Nat) (b : Block) : Cache :=
  if b.packed = false ∨ b.hdr + LZF_TYPE1_HDR_SIZE = c.noted then c
  else if Whole pos n k start b then { c with noted := b.hdr + LZF_TYPE1_HDR_SIZE }
  else ⟨b.hdr + LZF_TYPE1_HDR_SIZE, c.buf.write 0 b.data⟩

/-- The bytes that the user's buffer has, behind the copy of a block, where that was copied to. -/
def piece (buffer : Memory UInt8) (c : Cache) (pos n k start : Nat) (b : Block) : List UInt8 :=
  if b.packed ∧ b.hdr + LZF_TYPE1_HDR_SIZE = c.noted then
    if Whole pos n k start b then buffer.read k b.data.length
    else c.buf.read (pos - start) (pieceSize pos n k start b)
  else (b.data.drop (pos - start)).take (pieceSize pos n k start b)

/--
The bytes that a read of `n` bytes from `pos` on leaves in the user's buffer, from byte `k` on, and
the cache. The first of the blocks has its data at `start`.
-/
def pieces (buffer : Memory UInt8) (pos n : Nat) : Cache → Nat → Nat → List Block → List UInt8 × Cache
  | c, _, _, [] => ([], c)
  | c, k, start, b :: bs =>
    if n ≤ k then ([], c)
    else if start + b.data.length ≤ pos + k then pieces buffer pos n c k (start + b.data.length) bs
    else
      let r := pieces buffer pos n (c.after pos n k start b) (k + pieceSize pos n k start b)
        (start + b.data.length) bs
      (piece buffer c pos n k start b ++ r.1, r.2)

/-! ## The code copies the pieces -/

section Code

variable {lzfDecompress : List UInt8 → Nat → List UInt8} {image : Memory UInt8} {cvBsize : Nat}

theorem searchBlock_mono : ∀ {fuel : Nat} {t : Transfer} {r : Nat × Transfer},
    searchBlock image fuel t = some r → searchBlock image (fuel + 1) t = some r
  | 0, _, _, h => by cases h
  | fuel + 1, t, r, h => by
    rw [searchBlock] at h ⊢
    simp only at h ⊢
    split at h
    · rename_i hskip
      rw [if_pos hskip]
      exact searchBlock_mono h
    · rename_i hskip
      rw [if_neg hskip]
      exact h

theorem readLoop_mono : ∀ {fuel : Nat} {t r : Transfer},
    readLoop lzfDecompress image cvBsize pos fuel t = some r →
    readLoop lzfDecompress image cvBsize pos (fuel + 1) t = some r
  | 0, _, _, h => by cases h
  | fuel + 1, t, r, h => by
    rw [readLoop] at h ⊢
    split at h
    · rename_i hdone
      rw [if_pos hdone]
      exact h
    · rename_i hdone
      rw [if_neg hdone]
      obtain ⟨b, hb, h⟩ := bind_eq_some_iff.mp h
      exact bind_eq_some_iff.mpr ⟨b, searchBlock_mono hb, readLoop_mono h⟩

def Transfer.enter (t : Transfer) (image : Memory UInt8) : Transfer :=
  { t with
    blkoffs := t.blkoffs + t.ulen
    ulen := lzfUlen image t.nexthdr
    nexthdr := t.nexthdr + lzfBlksize image t.nexthdr }

theorem readLoop_skip {r : Transfer} (hrem : t.remaining ≠ 0)
    (hskip : t.blkoffs + t.ulen + lzfUlen image t.nexthdr ≤ t.fpos)
    (h : readLoop lzfDecompress image cvBsize pos fuel (t.enter image) = some r) :
    readLoop lzfDecompress image cvBsize pos (fuel + 1) t = some r := by
  cases fuel with
  | zero => cases h
  | succ fuel =>
    have hrem' : (t.enter image).remaining ≠ 0 := hrem
    rw [readLoop, if_neg hrem'] at h
    rw [readLoop, if_neg hrem]
    obtain ⟨b, hb, h⟩ := bind_eq_some_iff.mp h
    refine bind_eq_some_iff.mpr ⟨b, ?_, readLoop_mono h⟩
    rw [searchBlock]
    exact (if_pos hskip).trans hb

theorem readLoop_copy (hrem : t.remaining ≠ 0)
    (hin : t.fpos < t.blkoffs + t.ulen + lzfUlen image t.nexthdr) :
    readLoop lzfDecompress image cvBsize pos (fuel + 2) t =
      readLoop lzfDecompress image cvBsize pos (fuel + 1)
        (copyBlock lzfDecompress image cvBsize pos t.nexthdr (t.enter image)) := by
  rw [readLoop, if_neg hrem, searchBlock]
  simp only [bind_eq_bind]
  rw [if_neg (Nat.not_le_of_lt hin)]
  rfl

/-- The variables of the loop: `k` bytes are copied, and the next block is at `o`. -/
structure Transfer.At (t : Transfer) (buffer : Memory UInt8) (pos n : Nat) (c : Cache)
    (k start o : Nat) (acc : List UInt8) : Prop where
  dest : t.dest = k
  remaining : t.remaining = n - k
  fpos : t.fpos = pos + k
  here : t.blkoffs + t.ulen = start
  hdr : t.nexthdr = o
  noted : t.ffOffset = c.noted
  buf : t.ffBuffer = c.buf
  length : acc.length = k
  buffer : t.buffer = buffer.write 0 acc

variable {buffer : Memory UInt8} {pos n k start o : Nat} {c : Cache} {acc : List UInt8} {b : Block}
  {bs : List Block} {t : Transfer}

theorem pieceSize_whole (h : Whole pos n k start b) : pieceSize pos n k start b = b.data.length := by
  obtain ⟨hle, hlen⟩ := h
  unfold pieceSize
  omega

theorem length_piece : (piece buffer c pos n k start b).length = pieceSize pos n k start b := by
  unfold piece
  split
  · split
    · rename_i hwhole
      rw [length_read, pieceSize_whole hwhole]
    · exact length_read _ _ _
  · rw [length_take, length_drop]
    unfold pieceSize
    omega

theorem write_acc (h : acc.length = k) (p : List UInt8) :
    (buffer.write 0 acc).write k p = buffer.write 0 (acc ++ p) := by
  rw [write_append, Nat.zero_add, h]

theorem write_acc_read (h : acc.length = k) (m : Nat) :
    buffer.write 0 (acc ++ buffer.read k m) = buffer.write 0 acc := by
  rw [← write_acc h]
  have hsame : buffer.read k m = (buffer.write 0 acc).read k m := by
    refine read_congr fun i hi _ => ?_
    rw [write_of_ge (by omega)]
  rw [hsame, write_read_self]

section

variable (h : t.At buffer pos n c k start o acc)
include h

theorem copyoffs_enter : copyoffs pos (t.enter image) = pos - start := by
  show (if t.blkoffs + t.ulen ≥ pos then 0 else pos - (t.blkoffs + t.ulen)) = pos - start
  rw [h.here]
  split
  · omega
  · rfl

theorem copysize_enter (hlen : lzfUlen image o = b.data.length) :
    copysize pos (t.enter image) = pieceSize pos n k start b := by
  unfold copysize
  rw [copyoffs_enter h]
  show (if lzfUlen image t.nexthdr - (pos - start) > t.remaining then t.remaining
    else lzfUlen image t.nexthdr - (pos - start)) = _
  rw [h.hdr, hlen, h.remaining]
  unfold pieceSize
  split <;> omega

theorem Transfer.At.advance (hlen : lzfUlen image o = b.data.length) {c' : Cache} {ulen : Nat} {p : List UInt8} :
    ({ t.enter image with
        ffOffset := c'.noted, ffUlen := ulen, ffBuffer := c'.buf,
        buffer := buffer.write 0 (acc ++ p) }.advance p.length).At buffer pos n c' (k + p.length)
      (start + b.data.length) (o + lzfBlksize image o) (acc ++ p) where
  dest := congrArg (· + p.length) h.dest
  remaining := by
    show t.remaining - p.length = n - (k + p.length)
    rw [h.remaining]
    omega
  fpos := by
    show t.fpos + p.length = pos + (k + p.length)
    rw [h.fpos, Nat.add_assoc]
  here := by
    show t.blkoffs + t.ulen + lzfUlen image t.nexthdr = start + b.data.length
    rw [h.here, h.hdr, hlen]
  hdr := by
    show t.nexthdr + lzfBlksize image t.nexthdr = _
    rw [h.hdr]
  noted := rfl
  buf := rfl
  length := by rw [length_append, h.length]
  buffer := rfl

theorem copyBlock_eq (hs : Stored lzfDecompress image cvBsize o (b :: bs)) (hin : pos + k < start + b.data.length) :
    ∃ ulen, copyBlock lzfDecompress image cvBsize pos o (t.enter image)
      = { t.enter image with
          ffOffset := (c.after pos n k start b).noted, ffUlen := ulen,
          ffBuffer := (c.after pos n k start b).buf,
          buffer := buffer.write 0 (acc ++ piece buffer c pos n k start b) }.advance
            (pieceSize pos n k start b) := by
  obtain ⟨rfl, hlen, -, hkind⟩ := hs.head
  have hoffs : copyoffs pos (t.enter image) = pos - start := copyoffs_enter h
  have hsize := copysize_enter h hlen
  have hwhole : pos ≤ (t.enter image).blkoffs ∧ (t.enter image).ulen ≤ (t.enter image).remaining ↔
      Whole pos n k start b := by
    show pos ≤ t.blkoffs + t.ulen ∧ lzfUlen image t.nexthdr ≤ t.remaining ↔ _
    rw [h.here, h.hdr, hlen, h.remaining]
    rfl
  have hulen : (t.enter image).ulen = b.data.length := by
    show lzfUlen image t.nexthdr = _
    rw [h.hdr, hlen]
  have hfields : t.enter image = { t.enter image with
      dest := k, ffOffset := c.noted, ffBuffer := c.buf, buffer := buffer.write 0 acc } := by
    rw [← h.dest, ← h.noted, ← h.buf, ← h.buffer]
    rfl
  unfold copyBlock
  simp only [hoffs, hsize]
  rcases hkind with ⟨hpacked, htype, hdata⟩ | ⟨hpacked, htype, hdata⟩
  · have hafter : c.after pos n k start b = c := if_pos (.inl hpacked)
    have hpiece : image.read (b.hdr + LZF_TYPE0_HDR_SIZE + (pos - start)) (pieceSize pos n k start b)
        = piece buffer c pos n k start b := by
      unfold piece
      rw [hpacked, if_neg (by simp), ← take_drop_read image, hdata]
      unfold pieceSize
      omega
    rw [if_pos htype, hafter, hpiece, hfields]
    exact ⟨_, by rw [write_acc h.length]⟩
  · rw [if_neg htype, hdata]
    by_cases hnoted : b.hdr + LZF_TYPE1_HDR_SIZE = c.noted
    · -- the block is noted, and nothing is decompressed
      have hafter : c.after pos n k start b = c := if_pos (.inr hnoted)
      have hnoted' : ¬(b.hdr + LZF_TYPE1_HDR_SIZE ≠ (t.enter image).ffOffset) := by
        rw [not_not, hnoted]
        exact h.noted.symm
      rw [hafter, if_neg hnoted', if_neg hnoted']
      by_cases hw : Whole pos n k start b
      · have hpiece : piece buffer c pos n k start b = buffer.read k b.data.length := by
          unfold piece
          rw [if_pos ⟨hpacked, hnoted⟩, if_pos hw]
        rw [if_pos (hwhole.mpr hw), hpiece, write_acc_read h.length, pieceSize_whole hw, ← hulen, hfields]
        exact ⟨_, rfl⟩
      · have hpiece : piece buffer c pos n k start b
            = c.buf.read (pos - start) (pieceSize pos n k start b) := by
          unfold piece
          rw [if_pos ⟨hpacked, hnoted⟩, if_neg hw]
        rw [if_neg (fun hc => hw (hwhole.mp hc)), hpiece, ← write_acc h.length, hfields]
        exact ⟨_, rfl⟩
    · have hnoted' : b.hdr + LZF_TYPE1_HDR_SIZE ≠ (t.enter image).ffOffset := by
        rintro he
        exact hnoted (he.trans h.noted)
      have hpiece : piece buffer c pos n k start b
          = (b.data.drop (pos - start)).take (pieceSize pos n k start b) := by
        unfold piece
        rw [if_neg (fun hc => hnoted hc.2)]
      have hfirst : ¬(b.packed = false ∨ b.hdr + LZF_TYPE1_HDR_SIZE = c.noted) := by
        rintro (hp | hn)
        · rw [hpacked] at hp
          cases hp
        · exact hnoted hn
      rw [if_pos hnoted', if_pos hnoted']
      by_cases hw : Whole pos n k start b
      · have hafter : c.after pos n k start b = { c with noted := b.hdr + LZF_TYPE1_HDR_SIZE } := by
          unfold Cache.after
          rw [if_neg hfirst, if_pos hw]
        have hall : (b.data.drop (pos - start)).take (pieceSize pos n k start b) = b.data := by
          rw [pieceSize_whole hw, Nat.sub_eq_zero_of_le hw.1, drop_zero, take_length]
        rw [if_pos (hwhole.mpr hw), hafter, hpiece, hall, ← write_acc h.length, pieceSize_whole hw,
          ← hulen, hfields]
        exact ⟨_, rfl⟩
      · have hafter : c.after pos n k start b
            = ⟨b.hdr + LZF_TYPE1_HDR_SIZE, c.buf.write 0 b.data⟩ := by
          unfold Cache.after
          rw [if_neg hfirst, if_neg hw]
        have hread : (c.buf.write 0 b.data).read (pos - start) (pieceSize pos n k start b)
            = (b.data.drop (pos - start)).take (pieceSize pos n k start b) := by
          have hle : pos - start + pieceSize pos n k start b ≤ b.data.length := by
            unfold pieceSize
            omega
          rw [← Nat.zero_add (pos - start), ← take_drop_read _ hle, read_write_self,
            Nat.zero_add]
        rw [if_neg (fun hc => hw (hwhole.mp hc)), hafter, hpiece, ← hread, ← write_acc h.length, hfields]
        exact ⟨_, rfl⟩

/-- **The copy of a block leaves its piece in the user's buffer.** -/
theorem Transfer.At.copy (hs : Stored lzfDecompress image cvBsize o (b :: bs)) (hin : pos + k < start + b.data.length) :
    (copyBlock lzfDecompress image cvBsize pos o (t.enter image)).At buffer pos n
      (c.after pos n k start b) (k + pieceSize pos n k start b) (start + b.data.length)
      (o + lzfBlksize image o) (acc ++ piece buffer c pos n k start b) := by
  obtain ⟨ulen, hcopy⟩ := copyBlock_eq h hs hin
  obtain ⟨-, hlen, -, -⟩ := hs.head
  rw [hcopy, ← length_piece]
  exact h.advance hlen

theorem Transfer.At.skip (hlen : lzfUlen image o = b.data.length) :
    (t.enter image).At buffer pos n c k (start + b.data.length) (o + lzfBlksize image o) acc where
  dest := h.dest
  remaining := h.remaining
  fpos := h.fpos
  here := by
    show t.blkoffs + t.ulen + lzfUlen image t.nexthdr = _
    rw [h.here, h.hdr, hlen]
  hdr := by
    show t.nexthdr + lzfBlksize image t.nexthdr = _
    rw [h.hdr]
  noted := h.noted
  buf := h.buf
  length := h.length
  buffer := h.buffer

end

/-- **The loop copies the pieces of the blocks, and ends.** -/
theorem readLoop_pieces : ∀ (bs : List Block) {t : Transfer} {c : Cache} {k start o : Nat}
    {acc : List UInt8}, t.At buffer pos n c k start o acc →
    Stored lzfDecompress image cvBsize o bs → k ≤ n → n = k ∨ start ≤ pos + k →
    n = k ∨ pos + n ≤ start + (content bs).length →
    ∃ m, ∀ fuel ≥ m, ∃ t' start' o',
      readLoop lzfDecompress image cvBsize pos fuel t = some t' ∧
      t'.At buffer pos n (pieces buffer pos n c k start bs).2 n start' o'
        (acc ++ (pieces buffer pos n c k start bs).1) := by
  intro bs
  have hdone : ∀ {t : Transfer} {c : Cache} {k start o : Nat} {acc : List UInt8},
      t.At buffer pos n c k start o acc → n = k → ∃ m, ∀ fuel ≥ m, ∃ t' start' o',
        readLoop lzfDecompress image cvBsize pos fuel t = some t' ∧
          t'.At buffer pos n c n start' o' (acc ++ []) := by
    intro t c k start o acc h hk
    subst hk
    refine ⟨1, fun fuel hfuel => ?_⟩
    obtain ⟨j, rfl⟩ := Nat.exists_eq_add_of_le' hfuel
    refine ⟨t, start, o, ?_, by rw [append_nil]; exact h⟩
    rw [readLoop, if_pos (by rw [h.remaining, Nat.sub_self])]
  induction bs with
  | nil =>
    intro t c k start o acc h _ hk hstart hlen
    have hnk : n = k := by
      rcases hlen with hnk | hlen
      · exact hnk
      · rcases hstart with hnk | hstart
        · exact hnk
        · simp only [content, flatMap_nil, length_nil] at hlen
          omega
    exact hdone h hnk
  | cons b bs ih =>
    intro t c k start o acc h hs hk hstart hlen
    by_cases hnk : n = k
    · have hpieces : pieces buffer pos n c k start (b :: bs) = ([], c) := by
        rw [pieces, if_pos (Nat.le_of_eq hnk)]
      rw [hpieces]
      exact hdone h hnk
    · obtain ⟨-, hulen, htail, -⟩ := hs.head
      have hrem : t.remaining ≠ 0 := by
        rw [h.remaining]
        omega
      have hstart := hstart.resolve_left hnk
      have hlen := hlen.resolve_left hnk
      have hcontent : (content (b :: bs)).length = b.data.length + (content bs).length := by
        simp [content]
      have hend : t.blkoffs + t.ulen + lzfUlen image t.nexthdr = start + b.data.length := by
        rw [h.here, h.hdr, hulen]
      rw [pieces, if_neg (by omega)]
      by_cases hskip : start + b.data.length ≤ pos + k
      · rw [if_pos hskip]
        obtain ⟨m, hm⟩ := ih (h.skip hulen) htail hk (.inr hskip) (.inr (by omega))
        refine ⟨m + 1, fun fuel hfuel => ?_⟩
        obtain ⟨j, rfl⟩ := Nat.exists_eq_add_of_le' hfuel
        obtain ⟨t', start', o', hrun, hat⟩ := hm (j + m) (Nat.le_add_left m j)
        exact ⟨t', start', o', readLoop_skip hrem (by rw [hend, h.fpos]; exact hskip) hrun, hat⟩
      · rw [if_neg hskip]
        have hin : pos + k < start + b.data.length := Nat.lt_of_not_le hskip
        have hsize : pieceSize pos n k start b ≤ n - k := Nat.min_le_right _ _
        have hnext : n = k + pieceSize pos n k start b ∨
            start + b.data.length ≤ pos + (k + pieceSize pos n k start b) := by
          unfold pieceSize
          omega
        obtain ⟨m, hm⟩ := ih (h.copy hs hin) htail (by omega) hnext (.inr (by omega))
        refine ⟨m + 2, fun fuel hfuel => ?_⟩
        obtain ⟨j, rfl⟩ := Nat.exists_eq_add_of_le' hfuel
        obtain ⟨t', start', o', hrun, hat⟩ := hm (j + m + 1) (by omega)
        refine ⟨t', start', o', ?_, by rw [← append_assoc]; exact hat⟩
        rw [show j + (m + 2) = j + m + 2 by omega, readLoop_copy hrem (by rw [hend, h.fpos]; exact hin), h.hdr]
        exact hrun

end Code

/-! ## When the pieces are those of the file -/

section Pieces

variable {buffer : Memory UInt8} {pos n k start : Nat} {c : Cache} {b : Block} {bs : List Block}

def wanted (pos n k start : Nat) (bs : List Block) : List UInt8 :=
  ((content bs).drop (pos + k - start)).take (n - k)

theorem content_cons (b : Block) (bs : List Block) : content (b :: bs) = b.data ++ content bs := by
  simp [content]

theorem wanted_skip (h : start + b.data.length ≤ pos + k) :
    wanted pos n k start (b :: bs) = wanted pos n k (start + b.data.length) bs := by
  unfold wanted
  rw [content_cons, drop_append, drop_eq_nil_of_le (by omega), nil_append,
    Nat.sub_sub]

theorem wanted_copy (hk : k < n) (hin : pos + k < start + b.data.length) (hstart : start ≤ pos + k)
    (hcontig : k = 0 ∨ pos + k = start) :
    wanted pos n k start (b :: bs)
      = (b.data.drop (pos - start)).take (pieceSize pos n k start b)
        ++ wanted pos n (k + pieceSize pos n k start b) (start + b.data.length) bs := by
  have hoff : pos + k - start = pos - start := by omega
  have hzero : pos - start - b.data.length = 0 := by omega
  unfold wanted
  rw [content_cons, hoff, drop_append, hzero, drop_zero, take_append, length_drop]
  by_cases hlast : n - k ≤ b.data.length - (pos - start)
  · have hsize : pieceSize pos n k start b = n - k := Nat.min_eq_right hlast
    have hrest : n - (k + (n - k)) = 0 := by omega
    rw [hsize, hrest, Nat.sub_eq_zero_of_le hlast, take_zero, take_zero]
  · have hsize : pieceSize pos n k start b = b.data.length - (pos - start) :=
      Nat.min_eq_left (by omega)
    have hnext : pos + (k + (b.data.length - (pos - start))) - (start + b.data.length) = 0 := by omega
    have hall : ∀ m, b.data.length - (pos - start) ≤ m →
        (b.data.drop (pos - start)).take m = b.data.drop (pos - start) := by
      intro m hm
      exact take_of_length_le (by rw [length_drop]; exact hm)
    rw [hsize, hnext, drop_zero, Nat.sub_add_eq, hall (n - k) (by omega), hall _ (Nat.le_refl _)]

def Behind (c : Cache) (bs : List Block) : Prop :=
  ∀ b ∈ bs, b.packed = true → c.noted < b.hdr + LZF_TYPE1_HDR_SIZE

def Ordered (bs : List Block) : Prop := bs.Pairwise fun b b' => b.hdr < b'.hdr

theorem piece_of_not_noted (h : ¬(b.packed = true ∧ b.hdr + LZF_TYPE1_HDR_SIZE = c.noted)) :
    piece buffer c pos n k start b = (b.data.drop (pos - start)).take (pieceSize pos n k start b) := by
  unfold piece
  rw [if_neg h]

theorem noted_after (h : b.packed = true) :
    (c.after pos n k start b).noted = b.hdr + LZF_TYPE1_HDR_SIZE := by
  unfold Cache.after
  split
  · rename_i hcases
    rcases hcases with hp | hn
    · rw [h] at hp
      cases hp
    · exact hn.symm
  · split <;> rfl

theorem behind_after (ho : Ordered (b :: bs)) (h : b.packed = true) :
    Behind (c.after pos n k start b) bs := by
  intro b' hb' _
  rw [noted_after h]
  exact Nat.add_lt_add_right (rel_of_pairwise_cons ho hb') _

def Reading (pos n k start : Nat) : Prop :=
  n ≤ k ∧ pos + n ≤ start ∨ start ≤ pos + k ∧ (k = 0 ∨ pos + k = start)

theorem Reading.skip (h : Reading pos n k start) (hskip : start + b.data.length ≤ pos + k) :
    Reading pos n k (start + b.data.length) := by
  unfold Reading at h ⊢
  omega

theorem Reading.copy (h : Reading pos n k start) (hin : pos + k < start + b.data.length) :
    Reading pos n (k + pieceSize pos n k start b) (start + b.data.length) := by
  unfold Reading pieceSize at *
  omega

theorem pieces_copy (hnk : ¬n ≤ k) (hskip : ¬start + b.data.length ≤ pos + k) :
    (pieces buffer pos n c k start (b :: bs)).1 = piece buffer c pos n k start b
      ++ (pieces buffer pos n (c.after pos n k start b) (k + pieceSize pos n k start b)
        (start + b.data.length) bs).1 := by
  rw [pieces, if_neg hnk, if_neg hskip]

theorem pieces_skip (hnk : ¬n ≤ k) (hskip : start + b.data.length ≤ pos + k) :
    pieces buffer pos n c k start (b :: bs) = pieces buffer pos n c k (start + b.data.length) bs := by
  rw [pieces, if_neg hnk, if_pos hskip]

theorem pieces_done (hnk : n ≤ k) : (pieces buffer pos n c k start bs).1 = wanted pos n k start bs := by
  unfold wanted
  rw [Nat.sub_eq_zero_of_le hnk, take_zero]
  cases bs with
  | nil => rfl
  | cons b bs => rw [pieces, if_pos hnk]

/-- **Behind the noted block, all pieces are those of the file.** -/
theorem pieces_behind : ∀ (bs : List Block) {c : Cache} {k start : Nat}, Ordered bs → Behind c bs →
    Reading pos n k start →
    (pieces buffer pos n c k start bs).1 = wanted pos n k start bs := by
  intro bs
  induction bs with
  | nil =>
    intro c k start _ _ _
    simp [pieces, wanted, content]
  | cons b bs ih =>
    intro c k start ho hb hread
    have hbs : Behind c bs := fun b' hb' => hb b' (mem_cons_of_mem b hb')
    by_cases hnk : n ≤ k
    · exact pieces_done hnk
    · obtain ⟨hstart, hcontig⟩ := hread.resolve_left fun h => hnk h.1
      by_cases hskip : start + b.data.length ≤ pos + k
      · rw [wanted_skip hskip, pieces_skip hnk hskip]
        exact ih ho.of_cons hbs (hread.skip hskip)
      · have hin := Nat.lt_of_not_le hskip
        have hnoted : ¬(b.packed = true ∧ b.hdr + LZF_TYPE1_HDR_SIZE = c.noted) := by
          rintro ⟨hp, hn⟩
          have hlt := hb b mem_cons_self hp
          omega
        have hafter : Behind (c.after pos n k start b) bs := by
          cases hp : b.packed with
          | true => exact behind_after ho hp
          | false =>
            have hsame : c.after pos n k start b = c := if_pos (.inl hp)
            rw [hsame]
            exact hbs
        rw [wanted_copy (Nat.lt_of_not_le hnk) hin hstart hcontig, pieces_copy hnk hskip,
          piece_of_not_noted hnoted, ih ho.of_cons hafter (hread.copy hin)]

/-- The first compressed block that a read of `n` bytes from `pos` on touches, and where it starts. -/
def firstPacked (pos n : Nat) : Nat → List Block → Option (Nat × Block)
  | _, [] => none
  | start, b :: bs =>
    if b.packed ∧ max pos start < min (pos + n) (start + b.data.length) then some (start, b)
    else firstPacked pos n (start + b.data.length) bs

/--
The first compressed block of a read is not the one that is noted. Or its bytes are at hand: in the
user's buffer, if the block is read as a whole, and in the file's own buffer, if a part of it is.
-/
def Ready (buffer : Memory UInt8) (c : Cache) (pos n : Nat) (start : Nat) (bs : List Block) : Prop :=
  ∀ first b, firstPacked pos n start bs = some (first, b) → b.hdr + LZF_TYPE1_HDR_SIZE = c.noted →
    if pos ≤ first ∧ first + b.data.length ≤ pos + n then
      buffer.read (first - pos) b.data.length = b.data
    else
      c.buf.read (pos - first) (pieceSize pos n (first - pos) first b)
        = (b.data.drop (pos - first)).take (pieceSize pos n (first - pos) first b)

theorem firstPacked_behind : ∀ (bs : List Block) {start : Nat}, n = 0 ∨ pos + n ≤ start →
    firstPacked pos n start bs = none
  | [], _, _ => rfl
  | b :: bs, start, h => by
    rw [firstPacked, if_neg (by omega)]
    exact firstPacked_behind bs (by omega)

theorem piece_iff (hk : k = start - pos) (hkn : k < n) (hpacked : b.packed = true) :
    piece buffer c pos n k start b = (b.data.drop (pos - start)).take (pieceSize pos n k start b) ↔
      (b.hdr + LZF_TYPE1_HDR_SIZE = c.noted →
        if pos ≤ start ∧ start + b.data.length ≤ pos + n then
          buffer.read (start - pos) b.data.length = b.data
        else c.buf.read (pos - start) (pieceSize pos n (start - pos) start b)
          = (b.data.drop (pos - start)).take (pieceSize pos n (start - pos) start b)) := by
  by_cases hnoted : b.hdr + LZF_TYPE1_HDR_SIZE = c.noted
  · have hwhole : Whole pos n k start b ↔ pos ≤ start ∧ start + b.data.length ≤ pos + n := by
      unfold Whole
      omega
    rw [← hk]
    simp only [hnoted, forall_const, ← hwhole]
    unfold piece
    rw [if_pos ⟨hpacked, hnoted⟩]
    by_cases hw : Whole pos n k start b
    · rw [if_pos hw, if_pos hw, pieceSize_whole hw, Nat.sub_eq_zero_of_le hw.1, drop_zero,
        take_length]
    · rw [if_neg hw, if_neg hw]
  · exact iff_of_true (piece_of_not_noted fun h => hnoted h.2) fun h => absurd h hnoted

/-- **The pieces are those of the file exactly when the read is ready.** -/
theorem pieces_iff : ∀ (bs : List Block) {k start : Nat}, Ordered bs → Reading pos n k start →
    ((pieces buffer pos n c k start bs).1 = wanted pos n k start bs ↔ Ready buffer c pos n start bs) := by
  intro bs
  induction bs with
  | nil =>
    intro k start _ _
    exact iff_of_true (by simp [pieces, wanted, content]) fun first b h => nomatch h
  | cons b bs ih =>
    intro k start ho hread
    have hready : firstPacked pos n start (b :: bs) = firstPacked pos n (start + b.data.length) bs →
        (Ready buffer c pos n start (b :: bs) ↔ Ready buffer c pos n (start + b.data.length) bs) := by
      intro hsame
      unfold Ready
      rw [hsame]
    by_cases hnk : n ≤ k
    · have hnone : firstPacked pos n start (b :: bs) = none := by
        refine firstPacked_behind _ ?_
        unfold Reading at hread
        omega
      refine iff_of_true (pieces_done hnk) fun first b' h => ?_
      rw [hnone] at h
      cases h
    · obtain ⟨hstart, hcontig⟩ := hread.resolve_left fun h => hnk h.1
      by_cases hskip : start + b.data.length ≤ pos + k
      · have hsame : firstPacked pos n start (b :: bs) = firstPacked pos n (start + b.data.length) bs := by
          rw [firstPacked, if_neg (by omega)]
        rw [wanted_skip hskip, pieces_skip hnk hskip, hready hsame]
        exact ih ho.of_cons (hread.skip hskip)
      · have hin := Nat.lt_of_not_le hskip
        rw [wanted_copy (Nat.lt_of_not_le hnk) hin hstart hcontig, pieces_copy hnk hskip]
        cases hp : b.packed with
        | false =>
          have hafter : c.after pos n k start b = c := if_pos (.inl hp)
          have hsame : firstPacked pos n start (b :: bs)
              = firstPacked pos n (start + b.data.length) bs := by
            rw [firstPacked, if_neg (by simp [hp])]
          rw [piece_of_not_noted (by simp [hp]), hafter, hready hsame, append_cancel_left_eq]
          exact ih ho.of_cons (hread.copy hin)
        | true =>
          -- the blocks behind this one are not the noted one any more
          have hbehind : Behind (c.after pos n k start b) bs := behind_after ho hp
          have hfirst : firstPacked pos n start (b :: bs) = some (start, b) := by
            rw [firstPacked, if_pos ⟨hp, by omega⟩]
          rw [pieces_behind bs ho.of_cons hbehind (hread.copy hin), append_cancel_right_eq,
            piece_iff (by omega) (Nat.lt_of_not_le hnk) hp]
          constructor
          · intro h first b' hfirst'
            cases hfirst.symm.trans hfirst'
            exact h
          · intro h
            exact h start b hfirst

end Pieces

/-! ## Reads -/

def OpenFile.count (file : OpenFile) (buflen : Nat) : Nat := min buflen (file.cnSize - file.fPos)

def OpenFile.cache (file : OpenFile) : Cache := ⟨file.ffOffset, file.ffBuffer⟩

section Reads

variable (lzfDecompress : List UInt8 → Nat → List UInt8) (image : Memory UInt8) (cvBsize : Nat)

/-- The file's blocks cover it, and its size and position are words of 32 bits. -/
structure OpenFile.Wf (file : OpenFile) (blocks : List Block) : Prop where
  stored : Stored lzfDecompress image cvBsize file.cnBlocks blocks
  size : file.cnSize = (content blocks).length
  size_lt : file.cnSize < 2 ^ 32
  pos_lt : file.fPos < 2 ^ 32

/-- The read returns the bytes of the file, as many as there are, and moves the position. -/
def Right (file : OpenFile) (blocks : List Block) (buffer : Memory UInt8) (buflen : Nat) : Prop :=
  ∃ m, ∀ fuel ≥ m, ∃ file' buffer',
    cromfsRead lzfDecompress image cvBsize fuel file buffer buflen
      = some ((file.count buflen : Int), file', buffer') ∧
    buffer'.read 0 (file.count buflen)
      = ((content blocks).drop file.fPos).take (file.count buflen) ∧
    (∀ i ≥ file.count buflen, buffer' i = buffer i) ∧ file'.fPos = file.fPos + file.count buflen

/--
The reads that are right.

* `f_pos + buflen` does not wrap around to a position inside the file.
* The number of bytes is not negative as an `ssize_t`.
* The first compressed block is ready.
-/
structure Faithful (file : OpenFile) (blocks : List Block) (buffer : Memory UInt8) (buflen : Nat) :
    Prop where
  noWrap : file.fPos ≤ file.cnSize →
    file.fPos + buflen < 2 ^ 32 ∨ file.cnSize < (file.fPos + buflen) % 2 ^ 32
  positive : file.count buflen < 2 ^ 31
  ready : Ready buffer file.cache file.fPos (file.count buflen) 0 blocks

variable {lzfDecompress image cvBsize} {file : OpenFile} {blocks : List Block}

theorem lt_blksize (image : Memory UInt8) (o : Nat) : 0 < lzfBlksize image o := by
  unfold lzfBlksize
  split <;> exact Nat.succ_pos _

theorem Stored.ordered (h : Stored lzfDecompress image cvBsize o bs) :
    Ordered bs ∧ ∀ b ∈ bs, o ≤ b.hdr := by
  have hcons : ∀ {o : Nat} {b : Block} {bs : List Block}, b.hdr = o →
      (Ordered bs ∧ ∀ b' ∈ bs, o + lzfBlksize image o ≤ b'.hdr) →
      Ordered (b :: bs) ∧ ∀ b' ∈ b :: bs, o ≤ b'.hdr := by
    rintro o b bs rfl ⟨ho, hle⟩
    have hpos := lt_blksize image b.hdr
    constructor
    · refine pairwise_cons.mpr ⟨fun b' hb' => ?_, ho⟩
      have := hle b' hb'
      omega
    · intro b' hb'
      rcases mem_cons.mp hb' with rfl | hb'
      · exact Nat.le_refl _
      · have := hle b' hb'
        omega
  induction h with
  | nil => exact ⟨List.Pairwise.nil, fun b hb => nomatch hb⟩
  | plain _ _ _ _ _ ih | packed _ _ _ _ _ ih => exact hcons rfl ih

theorem clip_eq {size : Nat} (hpos : pos ≤ size) (hsize : size < 2 ^ 32)
    (h : pos + buflen < 2 ^ 32 ∨ size < (pos + buflen) % 2 ^ 32) :
    (if (pos + buflen) % 2 ^ 32 > size then size - pos else buflen) = min buflen (size - pos) := by
  rcases Nat.lt_or_ge (pos + buflen) (2 ^ 32) with hlt | hge
  · rw [Nat.mod_eq_of_lt hlt]
    split <;> omega
  · rw [if_pos (h.resolve_left (Nat.not_lt_of_le hge))]
    omega

theorem toSsize_eq_iff {n : Nat} : toSsize n = (n : Int) ↔ n < 2 ^ 31 := by
  unfold toSsize
  split
  · rename_i hlt
    exact iff_of_true rfl hlt
  · rename_i hge
    refine iff_of_false ?_ hge
    omega

theorem cromfsRead_eq (hwf : file.Wf lzfDecompress image cvBsize blocks) (buffer : Memory UInt8)
    (hpos : file.fPos ≤ file.cnSize)
    (hwrap : file.fPos + buflen < 2 ^ 32 ∨ file.cnSize < (file.fPos + buflen) % 2 ^ 32) :
    ∃ m, ∀ fuel ≥ m, ∃ file' : OpenFile,
      cromfsRead lzfDecompress image cvBsize fuel file buffer buflen
        = some (toSsize (file.count buflen), file', buffer.write 0
            (pieces buffer file.fPos (file.count buflen) file.cache 0 0 blocks).1) ∧
      file'.fPos = file.fPos + file.count buflen ∧
      (pieces buffer file.fPos (file.count buflen) file.cache 0 0 blocks).1.length
        = file.count buflen := by
  have hcount : file.fPos + file.count buflen ≤ file.cnSize := by
    unfold OpenFile.count
    omega
  have hat : Transfer.At ⟨0, file.count buflen, file.fPos, 0, 0, file.cnBlocks, file.ffOffset,
      file.ffUlen, file.ffBuffer, buffer⟩ buffer file.fPos (file.count buflen) file.cache 0 0
      file.cnBlocks [] :=
    ⟨rfl, rfl, rfl, rfl, rfl, rfl, rfl, rfl, (write_nil buffer 0).symm⟩
  obtain ⟨m, hm⟩ := readLoop_pieces blocks hat hwf.stored (Nat.zero_le _) (.inr (Nat.zero_le _))
    (.inr (by rw [← hwf.size]; omega))
  refine ⟨m, fun fuel hfuel => ?_⟩
  obtain ⟨t, start, o, hrun, ht⟩ := hm fuel hfuel
  rw [nil_append] at ht
  refine ⟨{ file with
    fPos := t.fpos % 2 ^ 32, ffOffset := t.ffOffset, ffUlen := t.ffUlen, ffBuffer := t.ffBuffer },
    ?_, ?_, ht.length⟩
  · unfold cromfsRead
    rw [if_neg (Nat.not_lt_of_le hpos)]
    simp only [clip_eq hpos hwf.size_lt hwrap]
    rw [← ht.buffer]
    show Option.map _ (readLoop lzfDecompress image cvBsize file.fPos fuel
      ⟨0, file.count buflen, file.fPos, 0, 0, file.cnBlocks, file.ffOffset, file.ffUlen, file.ffBuffer,
        buffer⟩) = _
    rw [hrun]
    rfl
  · show t.fpos % 2 ^ 32 = _
    have hlt := hwf.size_lt
    rw [ht.fpos, Nat.mod_eq_of_lt (by omega)]

/-- **A read is right exactly when it is faithful.** -/
theorem right_iff (hwf : file.Wf lzfDecompress image cvBsize blocks) (buffer : Memory UInt8)
    (hbuf : buflen < 2 ^ 32) :
    Right lzfDecompress image cvBsize file blocks buffer buflen ↔ Faithful file blocks buffer buflen := by
  by_cases hpos : file.fPos ≤ file.cnSize
  · by_cases hwrap : file.fPos + buflen < 2 ^ 32 ∨ file.cnSize < (file.fPos + buflen) % 2 ^ 32
    · obtain ⟨m, hm⟩ := cromfsRead_eq hwf buffer hpos hwrap
      have hpieces : (pieces buffer file.fPos (file.count buflen) file.cache 0 0 blocks).1
          = ((content blocks).drop file.fPos).take (file.count buflen) ↔
            Ready buffer file.cache file.fPos (file.count buflen) 0 blocks :=
        pieces_iff blocks hwf.stored.ordered.1 (.inr ⟨Nat.zero_le _, .inl rfl⟩)
      have hback : ∀ {p : List UInt8}, p.length = file.count buflen →
          (buffer.write 0 p).read 0 (file.count buflen) = p := by
        intro p hp
        rw [← hp, read_write_self]
      constructor
      · rintro ⟨m', hright⟩
        obtain ⟨file', hread, -, hlen⟩ := hm (max m m') (Nat.le_max_left _ _)
        obtain ⟨file'', buffer'', hread', hbytes, -, -⟩ := hright (max m m') (Nat.le_max_right _ _)
        obtain ⟨hret, hrest⟩ := Prod.mk.inj (some.inj (hread.symm.trans hread'))
        cases hrest
        rw [hback hlen] at hbytes
        exact ⟨fun _ => hwrap, toSsize_eq_iff.mp hret, hpieces.mp hbytes⟩
      · intro hfaithful
        refine ⟨m, fun fuel hfuel => ?_⟩
        obtain ⟨file', hread, hpos', hlen⟩ := hm fuel hfuel
        rw [toSsize_eq_iff.mpr hfaithful.positive] at hread
        refine ⟨file', _, hread, ?_, fun i hi => ?_, hpos'⟩
        · rw [hback hlen]
          exact hpieces.mpr hfaithful.ready
        · exact write_of_ge (by rw [hlen, Nat.zero_add]; exact hi)
    · -- the length is not cut down, and that is what is returned
      refine iff_of_false ?_ fun hfaithful => hwrap (hfaithful.noWrap hpos)
      rintro ⟨m, hright⟩
      obtain ⟨file', buffer', hread, -⟩ := hright m (Nat.le_refl m)
      unfold cromfsRead at hread
      rw [if_neg (Nat.not_lt_of_le hpos)] at hread
      simp only [if_neg (show ¬(file.fPos + buflen) % 2 ^ 32 > file.cnSize from
        fun h => hwrap (.inr h))] at hread
      obtain ⟨t, -, hret⟩ := map_eq_some_iff.mp hread
      have hret : toSsize buflen = (file.count buflen : Int) := congrArg Prod.fst hret
      have hsize := hwf.size_lt
      unfold toSsize OpenFile.count at hret
      split at hret <;> omega
  · -- past the end
    have hzero : file.count buflen = 0 := by
      unfold OpenFile.count
      omega
    refine iff_of_true ⟨0, fun fuel _ => ⟨file, buffer, ?_, ?_, fun _ _ => rfl, ?_⟩⟩
      ⟨fun h => absurd h hpos, ?_, fun first b h => ?_⟩
    · unfold cromfsRead
      rw [if_pos (Nat.lt_of_not_le hpos), hzero]
      rfl
    · rw [hzero]
      rfl
    · rw [hzero, Nat.add_zero]
    · rw [hzero]
      decide
    · rw [hzero, firstPacked_behind blocks (.inl rfl)] at h
      cases h

end Reads

/-! ## Every run -/

inductive FileOp where
  | seek (pos : UInt32)
  | read (fuel : Nat) (buffer : Memory UInt8) (buflen : UInt32)

def fileStep (lzfDecompress : List UInt8 → Nat → List UInt8) (image : Memory UInt8) (cvBsize : Nat)
    (file : OpenFile) : FileOp → Option OpenFile
  | .seek pos => some { file with fPos := pos.toNat }
  | .read fuel buffer buflen =>
    (cromfsRead lzfDecompress image cvBsize fuel file buffer buflen.toNat).map fun r => r.2.1

section Runs

variable {lzfDecompress : List UInt8 → Nat → List UInt8} {image : Memory UInt8} {cvBsize : Nat}
  {file file' : OpenFile} {blocks : List Block}

theorem OpenFile.Wf.step (h : file.Wf lzfDecompress image cvBsize blocks) {op : FileOp}
    (hs : fileStep lzfDecompress image cvBsize file op = some file') :
    file'.Wf lzfDecompress image cvBsize blocks := by
  cases op with
  | seek pos =>
    cases hs
    exact ⟨h.stored, h.size, h.size_lt, UInt32.toNat_lt pos⟩
  | read fuel buffer buflen =>
    obtain ⟨r, hr, rfl⟩ := map_eq_some_iff.mp hs
    unfold cromfsRead at hr
    split at hr
    · cases hr
      exact h
    · obtain ⟨t, -, rfl⟩ := map_eq_some_iff.mp hr
      exact ⟨h.stored, h.size, h.size_lt, Nat.mod_lt _ (Nat.two_pow_pos 32)⟩

theorem OpenFile.Wf.reaches (h0 : file.Wf lzfDecompress image cvBsize blocks)
    (h : Reaches (fileStep lzfDecompress image cvBsize) Always file file') :
    file'.Wf lzfDecompress image cvBsize blocks :=
  h.invariant (P := fun file => file.Wf lzfDecompress image cvBsize blocks) h0
    fun _ _ _ hw _ hs => hw.step hs

/--
**After any seeks and reads, a read returns the bytes of the file exactly when it is faithful.**
-/
theorem reads_right_iff (h0 : file.Wf lzfDecompress image cvBsize blocks)
    (h : Reaches (fileStep lzfDecompress image cvBsize) Always file file') (buffer : Memory UInt8)
    (buflen : UInt32) : Right lzfDecompress image cvBsize file' blocks buffer buflen.toNat ↔
      Faithful file' blocks buffer buflen.toNat :=
  right_iff (h0.reaches h) buffer (UInt32.toNat_lt buflen)

end Runs

/-! ### A file of one compressed block, ten times the letter `a` -/

def tenImage : Memory UInt8 := fun i =>
  ([0x5A, 0x56, 1, 0, 5, 0, 10, 0x00, 0x61, 0xE0, 0x00, 0x00][i - 20]?).getD 0

/-- What `lzf_decompress` makes of it. -/
def tenDecompress (src : List UInt8) (_ : Nat) : List UInt8 :=
  if src = [0x00, 0x61, 0xE0, 0x00, 0x00] then List.replicate 10 0x61 else []

def tenBlocks : List Block := [⟨20, true, List.replicate 10 0x61⟩]

def tenFile : OpenFile := ⟨10, 20, 0, 0, 0, fun _ => 0⟩

theorem tenFile_wf : tenFile.Wf tenDecompress tenImage 512 tenBlocks where
  stored := .packed (by decide) (by decide) (by decide) (by decide) .nil
  size := by decide
  size_lt := by decide
  pos_lt := by decide

theorem reads_right_iff_first :
    Right tenDecompress tenImage 512 tenFile tenBlocks (fun _ => 0) (10 : UInt32).toNat := by
  refine (reads_right_iff tenFile_wf .refl (fun _ => 0) 10).mpr ⟨fun _ => .inl ?_, ?_, ?_⟩
  · decide
  · decide
  · intro first b hfirst hnoted
    cases (show firstPacked 0 10 0 tenBlocks = some (0, ⟨20, true, List.replicate 10 0x61⟩) from
      rfl).symm.trans hfirst
    cases hnoted

/-- Read as a whole, and once more from the start: the second read leaves the user's buffer alone. -/
theorem second_read_wrong : ∃ file', Reaches (fileStep tenDecompress tenImage 512) Always tenFile file' ∧
    ¬Right tenDecompress tenImage 512 file' tenBlocks (fun _ => 0) (10 : UInt32).toNat := by
  have hrun : ([FileOp.read 3 (fun _ => 0) 10, .seek 0].foldlM (fileStep tenDecompress tenImage 512)
      tenFile).map (fun f => (f.ffOffset, f.fPos, f.cnSize)) = some (27, 0, 10) := by decide +kernel
  obtain ⟨file', hfile, hstate⟩ := map_eq_some_iff.mp hrun
  obtain ⟨hoffset, hstate⟩ := Prod.mk.inj hstate
  obtain ⟨hpos, hsize⟩ := Prod.mk.inj hstate
  have hreach := Reaches.of_foldlM _ hfile
  refine ⟨file', hreach, fun hright => ?_⟩
  have hready := ((right_iff (tenFile_wf.reaches hreach) _ (by decide)).mp hright).ready
  have hcount : file'.count (10 : UInt32).toNat = 10 := by
    unfold OpenFile.count
    rw [hpos, hsize]
    decide
  rw [hpos, hcount] at hready
  have hbytes := hready 0 ⟨20, true, List.replicate 10 0x61⟩ rfl hoffset.symm
  rw [if_pos (by decide)] at hbytes
  revert hbytes
  decide

end Gpmx.Romfs
