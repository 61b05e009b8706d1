import Gpmx.Bch.Transfer

/-!
# What a flush leaves on the medium

The medium and a dirty sector buffer together are an image of the whole device
(`Bchlib.image`), and `bchlib_flushsector` makes the medium equal to it. So a run of
transfers ends up on the medium if each of them changes the image as it changes a flat array.

`Images` is weaker than `Coherent`: it says nothing about a clean buffer. A whole-sector
write over the cached sector leaves such a buffer behind, with the bytes from before. That
does no harm until a later partial write patches the buffer instead of reading the sector
again; from there on the old bytes are dirty, and the next flush puts them over the new
ones. `Op.CachedFresh` leaves out just the calls that patch a stale buffer.
-/

namespace Gpmx.Bch

open Infra List Memory

variable {bch : Bchlib} {flat flat' : Memory UInt8}

def Bchlib.image (bch : Bchlib) : Memory UInt8 :=
  if bch.dirty then
    bch.inode.media.write (bch.sector * bch.sectsize) (bch.buffer.read 0 bch.sectsize)
  else bch.inode.media

/-- The bytes in the sector buffer are those of the sector it is said to hold. -/
def Bchlib.Fresh (bch : Bchlib) : Prop :=
  bch.sector < bch.nsectors →
    ∀ j, j < bch.sectsize → bch.buffer j = bch.image (bch.sector * bch.sectsize + j)

instance : Decidable bch.Fresh :=
  inferInstanceAs (Decidable (bch.sector < bch.nsectors → ∀ j, j < bch.sectsize →
    bch.buffer j = bch.image (bch.sector * bch.sectsize + j)))

/-- The image of the device is the array `flat`. -/
structure Images (bch : Bchlib) (flat : Memory UInt8) : Prop where
  reliable : bch.inode.Reliable
  sectsize_pos : 0 < bch.sectsize
  sectsize_lt : bch.sectsize < 2 ^ 15
  nsectors_lt : bch.nsectors < 2 ^ 32
  dirty_cached : bch.dirty = true → bch.sector < bch.nsectors
  image : ∀ i, i < bch.nsectors * bch.sectsize → bch.image i = flat i

/-! ## The image against `Coherent` -/

theorem image_of_clean (hd : bch.dirty = false) : bch.image = bch.inode.media := by
  unfold Bchlib.image
  rw [hd]
  rfl

theorem flushsector_image (hr : bch.inode.Reliable) :
    0 ≤ (bchlibFlushsector bch).1 ∧ (bchlibFlushsector bch).2.inode.media = bch.image ∧
      (bchlibFlushsector bch).2.dirty = false := by
  have hok := (hr bch.sector 1).2
  unfold bchlibFlushsector Bchlib.image
  by_cases hd : bch.dirty = true
  · rw [if_pos hd, if_pos hd, if_neg (by omega)]
    exact ⟨hok, rfl, rfl⟩
  · rw [if_neg hd, if_neg hd]
    exact ⟨Int.le_refl _, rfl, by simpa using hd⟩

theorem flushsector_frame :
    (bchlibFlushsector bch).2.sector = bch.sector ∧
      (bchlibFlushsector bch).2.buffer = bch.buffer ∧
      (bch.inode.Reliable → (bchlibFlushsector bch).2.inode.Reliable) := by
  unfold bchlibFlushsector
  split
  · split <;> exact ⟨rfl, rfl, id⟩
  · exact ⟨rfl, rfl, id⟩

theorem flushsector_of_clean (hd : bch.dirty = false) : bchlibFlushsector bch = (0, bch) := by
  unfold bchlibFlushsector
  rw [hd]
  rfl

theorem Coherent.images (h : Coherent bch flat) : Images bch flat :=
  { h with
    image := by
      intro i hi
      obtain ⟨_, hm, hd⟩ := flushsector_image h.reliable
      obtain ⟨_, hc, _, _⟩ := flushsector_spec h
      rw [← hm]
      exact hc.media i (by simpa using hi) (fun hdd => by rw [hd] at hdd; simp at hdd) }

theorem Images.coherent (h : Images bch flat) (hf : bch.Fresh) : Coherent bch flat :=
  { h with
    cached := by
      intro hs j hj
      have hend := sector_end_le (k := bch.sectsize) hs
      rw [hf hs j hj]
      exact h.image _ (by omega)
    media := by
      intro i hi hout
      rw [← h.image i hi]
      unfold Bchlib.image
      split
      · next hd =>
        have hout := hout hd
        rw [write_of_not_mem (by simp; omega)]
      · rfl }

theorem Images.congr (h : Images bch flat)
    (heq : ∀ i, i < bch.nsectors * bch.sectsize → flat i = flat' i) : Images bch flat' :=
  { h with
    image := fun i hi => (h.image i hi).trans (heq i hi) }

/-! ## The cache operations and the image -/

theorem flushsector_images (h : Images bch flat) : Images (bchlibFlushsector bch).2 flat := by
  obtain ⟨_, hm, hd⟩ := flushsector_image h.reliable
  exact
    { reliable := flushsector_frame.2.2 h.reliable
      sectsize_pos := by simpa using h.sectsize_pos
      sectsize_lt := by simpa using h.sectsize_lt
      nsectors_lt := by simpa using h.nsectors_lt
      dirty_cached := fun hdd => by simp [hd] at hdd
      image := by
        intro i hi
        rw [image_of_clean hd, hm]
        exact h.image i (by simpa using hi) }

def Bchlib.forget (bch : Bchlib) : Bchlib := { bch with sector := noSector }

theorem Images.coherent_forget (h : Images bch flat) (hd : bch.dirty = false) :
    Coherent bch.forget flat :=
  { h with
    dirty_cached := fun hdd => by simp [Bchlib.forget, hd] at hdd
    cached := by
      intro hs
      have := h.nsectors_lt
      simp only [Bchlib.forget, noSector] at hs
      omega
    media := by
      intro i hi _
      rw [← h.image i hi, image_of_clean hd]
      rfl }

theorem readsector_of_ne (hr : bch.inode.Reliable) {s : Nat} (hne : bch.sector ≠ s)
    (hs : noSector ≠ s) :
    bchlibReadsector bch s = bchlibReadsector (bchlibFlushsector bch).2.forget s := by
  obtain ⟨hf, _, hd⟩ := flushsector_image hr
  have hclean : bchlibFlushsector (bchlibFlushsector bch).2.forget
      = (0, (bchlibFlushsector bch).2.forget) := flushsector_of_clean hd
  have hne' : (bchlibFlushsector bch).2.forget.sector ≠ s := hs
  conv => lhs; unfold bchlibReadsector
  conv => rhs; unfold bchlibReadsector
  rw [if_pos hne, if_pos hne', hclean]
  rw [if_neg (show ¬ (bchlibFlushsector bch).1 < 0 by omega), if_neg (show ¬ (0 : Int) < 0 by decide)]
  rfl

theorem readsector_images (h : Images bch flat) {s : Nat} (hs : s < bch.nsectors) :
    0 ≤ (bchlibReadsector bch s).1 ∧ Images (bchlibReadsector bch s).2 flat ∧
      (bchlibReadsector bch s).2.sector = s ∧
      ((bch.sector = s → bch.Fresh) → Coherent (bchlibReadsector bch s).2 flat) := by
  by_cases hne : bch.sector = s
  · have hsame : bchlibReadsector bch s = (0, bch) := by
      unfold bchlibReadsector
      rw [if_neg (by simpa using hne)]
    rw [hsame]
    exact ⟨Int.le_refl _, h, hne, fun hf => h.coherent (hf hne)⟩
  · have hlt := h.nsectors_lt
    have hc := (flushsector_images h).coherent_forget (flushsector_image h.reliable).2.2
    obtain ⟨hret, hco, hsec⟩ := readsector_spec hc (s := s) (by simpa [Bchlib.forget] using hs)
    rw [readsector_of_ne h.reliable hne (by unfold noSector; omega)]
    exact ⟨hret, hco.images, hsec, fun _ => hco⟩


theorem patch_images (h : Coherent bch flat) {s : Nat} (hsec : bch.sector = s)
    (hs : s < bch.nsectors) (off : Nat) (bytes : List UInt8)
    (hoff : off + bytes.length ≤ bch.sectsize) :
    Images (bch.patch off bytes) (flat.write (s * bch.sectsize + off) bytes) := by
  subst hsec
  exact (coherent_patch h hs off bytes hoff).images

theorem mediaWrite_images (h : Images bch flat) (hd : bch.dirty = false) (start : Nat)
    (bytes : List UInt8) :
    Images (bch.mediaWrite start bytes) (flat.write (start * bch.sectsize) bytes) :=
  { h with
    image := by
      intro i hi
      have hm := h.image i hi
      have hclean : (bch.mediaWrite start bytes).dirty = false := hd
      rw [image_of_clean hd] at hm
      rw [image_of_clean hclean]
      show bch.inode.media.write _ _ i = flat.write _ _ i
      simpa using write_shift (c := 0) (start * bch.sectsize) bytes
        (show bch.inode.media i = flat (0 + i) by simpa using hm) }

/-! ## The phases of a write -/

theorem writeTail_images (h : Images bch flat) (buffer : List UInt8) (sector n : Nat)
    (hs : sector < bch.nsectors) (hlen : buffer.length ≤ bch.sectsize)
    (hf : 0 < buffer.length → bch.sector = sector → bch.Fresh) :
    Images (bchlibWriteTail bch buffer sector n).2 (flat.write (sector * bch.sectsize) buffer) := by
  obtain ⟨hr, _, hsec, hc⟩ := readsector_images h hs
  unfold bchlibWriteTail
  by_cases hz : buffer.length > 0
  · rw [if_pos hz]
    rw [if_neg (by omega)]
    simpa using patch_images (hc (hf hz)) hsec (by simpa using hs) 0 buffer (by simpa using hlen)
  · rw [if_neg hz]
    have hnil : buffer = [] := eq_nil_of_length_eq_zero (by omega)
    rw [hnil]
    simpa using h

theorem fresh_mediaWrite (hd : bch.dirty = false) {start n : Nat} {bytes : List UInt8}
    (hlen : bytes.length ≤ n * bch.sectsize) (hout : start + n ≤ bch.sector) (hf : bch.Fresh) :
    (bch.mediaWrite start bytes).Fresh := by
  intro hs j hj
  have hj : j < bch.sectsize := hj
  have hclean : (bch.mediaWrite start bytes).dirty = false := hd
  have hafter := Nat.mul_le_mul_right bch.sectsize hout
  rw [Nat.add_mul] at hafter
  rw [image_of_clean hclean]
  show bch.buffer j = bch.inode.media.write (start * bch.sectsize) bytes
    (bch.sector * bch.sectsize + j)
  rw [write_of_ge (by omega), hf hs j hj, image_of_clean hd]

theorem fresh_flushsector (h : bch.inode.Reliable) (hf : bch.Fresh) :
    (bchlibFlushsector bch).2.Fresh := by
  obtain ⟨_, hm, hd⟩ := flushsector_image h
  obtain ⟨hsec, hbuf, _⟩ := @flushsector_frame bch
  intro hs j hj
  rw [image_of_clean hd, hm, hsec, hbuf]
  simpa using hf (by simpa [hsec] using hs) j (by simpa using hj)

theorem images_of_take {a k : Nat} {buffer : List UInt8} (hk : k ≤ buffer.length)
    (hend : bch.nsectors * bch.sectsize ≤ a + k) (h : Images bch (flat.write a (buffer.take k))) :
    Images bch (flat.write a buffer) := by
  refine h.congr fun i hi => ?_
  rw [write_take_drop flat a hk]
  exact (write_of_lt (by omega)).symm

theorem writeSectors_images (h : Images bch flat) (buffer : List UInt8) (sector n : Nat)
    (hs : sector < bch.nsectors) (hfit : sector + buffer.length / bch.sectsize < 2 ^ 32)
    (hf : bch.sector = sector + buffer.length / bch.sectsize →
      0 < buffer.length % bch.sectsize → bch.Fresh) :
    Images (bchlibWriteSectors bch buffer sector n).2
      (flat.write (sector * bch.sectsize) buffer) := by
  have hpos := h.sectsize_pos
  obtain ⟨hret, _, hd⟩ := flushsector_image h.reliable
  have hc := flushsector_images h
  have hdm := Nat.div_add_mod' buffer.length bch.sectsize
  have hml := Nat.mod_lt buffer.length hpos
  unfold bchlibWriteSectors
  by_cases hbig : buffer.length ≥ bch.sectsize
  · rw [if_pos hbig]
    have hok := (hc.reliable sector (wholeSectors bch sector buffer.length)).2
    rw [if_neg (by omega), if_neg (by omega)]
    have hmid := fun k => mediaWrite_images hc hd sector (buffer.take k)
    simp only [flushsector_sectsize] at hmid
    by_cases hcut : sector + buffer.length / bch.sectsize > bch.nsectors
    · -- the request goes past the end of the device
      have hw : wholeSectors bch sector buffer.length = bch.nsectors - sector := by
        unfold wholeSectors
        rw [Nat.mod_eq_of_lt hfit, if_pos hcut]
      have hle : (bch.nsectors - sector) * bch.sectsize ≤ buffer.length := by
        have := Nat.mul_le_mul_right bch.sectsize
          (show bch.nsectors - sector ≤ buffer.length / bch.sectsize by omega)
        omega
      have hsize : sector * bch.sectsize + (bch.nsectors - sector) * bch.sectsize
          = bch.nsectors * bch.sectsize := by
        rw [← Nat.add_mul, Nat.add_sub_cancel' (by omega)]
      rw [hw, if_pos (by simp; omega)]
      exact images_of_take hle (by simp; omega) (hmid _)
    · have hw : wholeSectors bch sector buffer.length = buffer.length / bch.sectsize := by
        unfold wholeSectors
        rw [Nat.mod_eq_of_lt hfit, if_neg hcut]
      rw [hw]
      by_cases hend : sector + buffer.length / bch.sectsize ≥ bch.nsectors
      · -- the whole sectors reach the end of the device
        have hsize := Nat.mul_le_mul_right bch.sectsize hend
        rw [Nat.add_mul] at hsize
        rw [if_pos (by simpa using hend)]
        exact images_of_take (by omega) (by simpa using hsize) (hmid _)
      · rw [if_neg (by simpa using hend)]
        rw [write_take_drop flat (sector * bch.sectsize) (Nat.div_mul_le_self buffer.length bch.sectsize),
          ← Nat.add_mul]
        have ht := writeTail_images (hmid (buffer.length / bch.sectsize * bch.sectsize))
          (buffer.drop (buffer.length / bch.sectsize * bch.sectsize))
          (sector + buffer.length / bch.sectsize) (n + buffer.length / bch.sectsize * bch.sectsize)
          (by simpa using Nat.lt_of_not_ge hend) (by simp; omega) ?_
        · simpa using ht
        · -- the whole sectors end before the cached one, so its buffer stays fresh
          intro hrest hsec
          have hsec' : bch.sector = sector + buffer.length / bch.sectsize := by
            rw [← flushsector_frame.1]
            exact hsec
          have hfresh := hf hsec' (by simp at hrest; omega)
          exact fresh_mediaWrite hd (n := buffer.length / bch.sectsize)
            (by simp only [length_take, flushsector_sectsize]; omega)
            (by rw [flushsector_frame.1]; omega) (fresh_flushsector h.reliable hfresh)
  · rw [if_neg hbig]
    have hdiv : buffer.length / bch.sectsize = 0 := Nat.div_eq_of_lt (by omega)
    refine writeTail_images h buffer sector n hs (by omega) fun hlen hsec => hf ?_ ?_
    · rw [hdiv]
      exact hsec
    · rw [Nat.mod_eq_of_lt (by omega)]
      exact hlen


/-! ## The calls -/

/-- The first sum of a call, and the number of the sector it ends in, fit `size_t`. -/
def SumsFit (sectsize offset len : Nat) : Prop :=
  offset % sectsize + len < 2 ^ 32 ∧ (offset + len) / sectsize < 2 ^ 32

def PatchesCached (bch : Bchlib) (offset len : Nat) : Prop :=
  0 < len ∧
    if offset % bch.sectsize = 0 then
      0 < len % bch.sectsize ∧ bch.sector = (offset + len) / bch.sectsize
    else bch.sector = offset / bch.sectsize

theorem end_sector {offset len k : Nat} (hk : 0 < k) (hcross : k - offset % k ≤ len) :
    offset / k + 1 + (len - (k - offset % k)) / k = (offset + len) / k := by
  have hdm := Nat.div_add_mod' offset k
  have hml := Nat.mod_lt offset hk
  have hsum : offset + len = (len - (k - offset % k)) + (offset / k + 1) * k := by
    rw [Nat.succ_mul]
    omega
  rw [hsum, Nat.add_mul_div_right _ _ hk]
  omega

/-- **What `bchlib_write` does to the image**: one store, cut off at the end of the device. -/
theorem write_images (h : Images bch flat) {buffer : List UInt8} {offset : Nat}
    (hfit : SumsFit bch.sectsize offset buffer.length)
    (hf : PatchesCached bch offset buffer.length → bch.Fresh) :
    Images (bchlibWrite bch buffer offset).2 (flat.write offset buffer) := by
  have hpos := h.sectsize_pos
  have hdm := Nat.div_add_mod' offset bch.sectsize
  have hml := Nat.mod_lt offset hpos
  unfold bchlibWrite
  by_cases hz : buffer.length < 1
  · rw [if_pos hz]
    have hnil : buffer = [] := eq_nil_of_length_eq_zero (by omega)
    rw [hnil]
    simpa using h
  rw [if_neg hz]
  by_cases hs : offset / bch.sectsize ≥ bch.nsectors
  · -- the request starts past the end of the device
    rw [if_pos hs]
    have hpast := Nat.mul_le_mul_right bch.sectsize hs
    exact h.congr fun i hi => (write_of_lt (by omega)).symm
  rw [if_neg hs, sectoffset_eq h.sectsize_pos h.sectsize_lt]
  by_cases ho : offset % bch.sectsize > 0
  · rw [if_pos ho]
    obtain ⟨hr, _, hsec, hc⟩ := readsector_images h (Nat.lt_of_not_ge hs)
    have hc := hc fun hcached => hf ⟨by omega, by rw [if_neg (by omega)]; exact hcached⟩
    have hs' : offset / bch.sectsize < (bchlibReadsector bch (offset / bch.sectsize)).2.nsectors := by
      simpa using Nat.lt_of_not_ge hs
    obtain ⟨n, hn, heq, hroom, hall⟩ := headBytes_spec hml hfit.1
    rw [if_neg (by omega), heq]
    have hhead := patch_images hc hsec hs' (offset % bch.sectsize) (buffer.take n)
      (by rw [length_take_of_le hn]; simpa using hroom)
    simp only [readsector_sectsize, hdm] at hhead
    have hnext := next_sector offset hpos
    by_cases hend : offset / bch.sectsize + 1 ≥ bch.nsectors
    · rw [if_pos (by simpa using hend)]
      rcases hall with rfl | hall
      · rw [take_length] at hhead ⊢
        exact hhead
      · have hsize := Nat.mul_le_mul_right bch.sectsize hend
        exact images_of_take hn (by simp; omega) hhead
    · rw [if_neg (by simpa using hend)]
      have hlast : offset / bch.sectsize + 1 + (buffer.length - n) / bch.sectsize < 2 ^ 32 := by
        have hlt := h.nsectors_lt
        rcases hall with rfl | hall
        · rw [Nat.sub_self, Nat.zero_div]
          omega
        · have hsum := @end_sector offset buffer.length _ hpos (by omega)
          rw [show n = bch.sectsize - offset % bch.sectsize by omega, hsum]
          exact hfit.2
      have ht := writeSectors_images hhead (buffer.drop n) (offset / bch.sectsize + 1) n (by simpa using hend)
        (by simpa only [length_drop, patch_sectsize, readsector_sectsize] using hlast)
        (by
          -- the cached sector is the first one of the request, not the last
          intro hlast
          simp only [patch_sector, hsec] at hlast
          exact absurd hlast (Nat.ne_of_lt (Nat.lt_of_lt_of_le (Nat.lt_succ_self _) (Nat.le_add_right _ _))))
      rw [write_head hpos hn hall]
      simpa using ht
  · rw [if_neg ho]
    have hzero : offset % bch.sectsize = 0 := by omega
    have hbase : offset / bch.sectsize * bch.sectsize = offset := by omega
    -- the request is `len` bytes from a sector boundary on
    have hsum : offset / bch.sectsize + buffer.length / bch.sectsize
        = (offset + buffer.length) / bch.sectsize := by
      conv => rhs; rw [← hbase, Nat.add_comm, Nat.add_mul_div_right _ _ hpos]
      omega
    have ht := writeSectors_images h buffer (offset / bch.sectsize) 0 (Nat.lt_of_not_ge hs)
      (by rw [hsum]; exact hfit.2)
      (fun hlast hrest => hf ⟨by omega, by rw [if_pos hzero, ← hsum]; exact ⟨hrest, hlast⟩⟩)
    rw [hbase] at ht
    exact ht

theorem readTail_images (h : Images bch flat) (buffer : List UInt8) (sector len : Nat)
    (hs : sector < bch.nsectors) : Images (bchlibReadTail bch buffer sector len).bch flat := by
  obtain ⟨_, hi, _, _⟩ := readsector_images h hs
  unfold bchlibReadTail
  split
  · dsimp only
    split <;> exact hi
  · exact h

theorem readSectors_images (h : Images bch flat) (buffer : List UInt8) (sector len : Nat)
    (hs : sector < bch.nsectors) : Images (bchlibReadSectors bch buffer sector len).bch flat := by
  unfold bchlibReadSectors
  split
  · dsimp only
    split
    · exact h
    · split
      · exact h
      · next hend => exact readTail_images h _ _ _ (Nat.lt_of_not_ge hend)
  · exact readTail_images h buffer sector len hs

theorem read_images (h : Images bch flat) (offset len : Nat) :
    Images (bchlibRead bch offset len).bch flat := by
  unfold bchlibRead
  split
  · exact h
  · dsimp only
    split
    · exact h
    · next hs =>
      obtain ⟨_, hi, _, _⟩ := readsector_images h (Nat.lt_of_not_ge hs)
      split
      · split
        · exact hi
        · split
          · exact hi
          · next hend =>
            exact readSectors_images hi _ _ _ (by simpa using Nat.lt_of_not_ge hend)
      · exact readSectors_images h _ _ _ (Nat.lt_of_not_ge hs)

/-! ## Runs -/

/--
The call does not reach the defect: if it patches the sector buffer as it finds it, the buffer
holds what the device holds there. The sums of the call must fit `size_t`.
-/
def Op.CachedFresh (bch : Bchlib) : Op → Prop
  | .write offset bytes =>
    SumsFit bch.sectsize offset bytes.length ∧
      (PatchesCached bch offset bytes.length → bch.Fresh)
  | .read offset len => SumsFit bch.sectsize offset len

instance (k offset len : Nat) : Decidable (SumsFit k offset len) :=
  inferInstanceAs (Decidable (_ ∧ _))

instance (offset len : Nat) : Decidable (PatchesCached bch offset len) :=
  inferInstanceAs (Decidable (0 < len ∧
    if offset % bch.sectsize = 0 then
      0 < len % bch.sectsize ∧ bch.sector = (offset + len) / bch.sectsize
    else bch.sector = offset / bch.sectsize))

instance (bch : Bchlib) : (op : Op) → Decidable (op.CachedFresh bch)
  | .write _ _ => inferInstanceAs (Decidable (_ ∧ _))
  | .read _ _ => inferInstanceAs (Decidable (SumsFit _ _ _))

theorem step_images {nsectors sectsize : Nat} {bch : Bchlib} {flat : Memory UInt8} {op : Op}
    (h : Images bch flat ∧ bch.nsectors = nsectors ∧ bch.sectsize = sectsize)
    (hok : op.CachedFresh bch) :
    Images (step bch op).1 (flatStep flat op).1 ∧
      (step bch op).1.nsectors = nsectors ∧ (step bch op).1.sectsize = sectsize := by
  obtain ⟨h, rfl, rfl⟩ := h
  cases op with
  | write offset bytes =>
    obtain ⟨hg1, hg2⟩ := @write_sameGeometry bch bytes offset
    exact ⟨write_images h hok.1 hok.2, hg2, hg1⟩
  | read offset len =>
    obtain ⟨hg1, hg2⟩ := @read_sameGeometry bch offset len
    exact ⟨read_images h offset len, hg2, hg1⟩

/--
**A flush leaves the written array on the medium, as long as no call patches a stale buffer.**

After any run of such calls on a freshly set up device whose driver does not fail,
`bchlib_flushsector` succeeds, the medium then holds what the writes of the run store in a
flat array that starts out as the medium, and another flush returns 0 without a driver call.
-/
theorem flush_persists_run {inode : BlockDriver} {nsectors sectsize : Nat}
    (buffer : Memory UInt8) (ops : List Op) (hr : inode.Reliable) (hpos : 0 < sectsize)
    (hss : sectsize < 2 ^ 15) (hns : nsectors < 2 ^ 32)
    (hops : Guarded step (fun bch op => op.CachedFresh bch)
      (bchlibSetup inode nsectors sectsize buffer) ops) :
    let bch := (run step (bchlibSetup inode nsectors sectsize buffer) ops).1
    0 ≤ (bchlibFlushsector bch).1 ∧
      (∀ i, i < nsectors * sectsize →
        (bchlibFlushsector bch).2.inode.media i = (run flatStep inode.media ops).1 i) ∧
      bchlibFlushsector (bchlibFlushsector bch).2 = (0, (bchlibFlushsector bch).2) := by
  intro bch
  have h0 : Images (bchlibSetup inode nsectors sectsize buffer) inode.media :=
    (coherent_setup buffer hr hpos hss hns).images
  have hstep : ∀ (bch : Bchlib) (flat : Memory UInt8) (op : Op),
      (Images bch flat ∧ bch.nsectors = nsectors ∧ bch.sectsize = sectsize) →
      op.CachedFresh bch → Images (step bch op).1 (flatStep flat op).1 ∧
        (step bch op).1.nsectors = nsectors ∧ (step bch op).1.sectsize = sectsize :=
    fun _ _ _ h hok => step_images h hok
  obtain ⟨himg, hgn, hgs⟩ := Guarded.related hstep hops ⟨h0, rfl, rfl⟩
  obtain ⟨hret, hmedia, hclean⟩ := flushsector_image himg.reliable
  refine ⟨hret, fun i hi => ?_, flushsector_of_clean hclean⟩
  rw [hmedia]
  exact himg.image i (by rw [hgn, hgs]; exact hi)

/-- A run that covers the cached sector with a whole-sector write, and reads it in again later. -/
theorem flush_persists_run_reloaded :
    let bch := (run step (bchlibSetup zeroDriver 4 2 (fun _ => 9))
      [.read 1 1, .write 0 [5, 6], .read 3 1, .write 1 [7], .write 5 [1, 2, 3, 4]]).1
    0 ≤ (bchlibFlushsector bch).1 ∧
      (∀ i, i < 4 * 2 → (bchlibFlushsector bch).2.inode.media i
        = (run flatStep zeroDriver.media
          [.read 1 1, .write 0 [5, 6], .read 3 1, .write 1 [7], .write 5 [1, 2, 3, 4]]).1 i) ∧
      bchlibFlushsector (bchlibFlushsector bch).2 = (0, (bchlibFlushsector bch).2) :=
  flush_persists_run _ _ zeroDriver_reliable (by decide) (by decide) (by decide) (by decide)

/--
Without the condition newer data is lost. A partial read caches sector 0, a whole-sector write
stores 5, 6 over it, and a partial write of its second byte makes the old buffer dirty; the
flush puts the old 0 over the 5.
-/
theorem flush_overwrites_newer_sector :
    (bchlibFlushsector (run step (bchlibSetup zeroDriver 2 2 (fun _ => 0))
        [.read 1 1, .write 0 [5, 6], .write 1 [7]]).1).2.inode.media 0
      ≠ (run flatStep zeroDriver.media [.read 1 1, .write 0 [5, 6], .write 1 [7]]).1 0 := by
  decide

end Gpmx.Bch
