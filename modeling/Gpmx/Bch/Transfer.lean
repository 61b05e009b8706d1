import Gpmx.Bch.Lib

/-!
# BCH transfers

`bchlibWrite_spec` and `bchlibRead_spec` say what one call does to the array a device
stands for. Both go through the three phases of the call in reverse order, because each
phase ends in the next one.
-/

namespace Gpmx.Bch

open Infra List Memory

variable {bch : Bchlib} {flat : Memory UInt8}

/-! ## No call changes the geometry -/

def SameGeometry (bch bch' : Bchlib) : Prop :=
  bch'.sectsize = bch.sectsize ∧ bch'.nsectors = bch.nsectors

theorem SameGeometry.trans {a b c : Bchlib} (h1 : SameGeometry a b) (h2 : SameGeometry b c) :
    SameGeometry a c := ⟨h2.1.trans h1.1, h2.2.trans h1.2⟩

theorem flushsector_sameGeometry : SameGeometry bch (bchlibFlushsector bch).2 := by
  constructor <;> simp

theorem readsector_sameGeometry (s : Nat) : SameGeometry bch (bchlibReadsector bch s).2 := by
  constructor <;> simp

theorem mediaWrite_sameGeometry (start : Nat) (bytes : List UInt8) :
    SameGeometry bch (bch.mediaWrite start bytes) := ⟨rfl, rfl⟩

theorem patch_sameGeometry (off : Nat) (bytes : List UInt8) :
    SameGeometry bch (bch.patch off bytes) := ⟨rfl, rfl⟩

theorem writeTail_sameGeometry (buffer : List UInt8) (sector n : Nat) :
    SameGeometry bch (bchlibWriteTail bch buffer sector n).2 := by
  unfold bchlibWriteTail
  split
  · dsimp only
    split
    · exact readsector_sameGeometry sector
    · exact (readsector_sameGeometry sector).trans (patch_sameGeometry _ _)
  · exact ⟨rfl, rfl⟩

theorem writeSectors_sameGeometry (buffer : List UInt8) (sector n : Nat) :
    SameGeometry bch (bchlibWriteSectors bch buffer sector n).2 := by
  unfold bchlibWriteSectors
  split
  · dsimp only
    split
    · exact flushsector_sameGeometry
    · split
      · exact flushsector_sameGeometry
      · split
        · exact flushsector_sameGeometry.trans (mediaWrite_sameGeometry _ _)
        · exact (flushsector_sameGeometry.trans (mediaWrite_sameGeometry _ _)).trans
            (writeTail_sameGeometry _ _ _)
  · exact writeTail_sameGeometry buffer sector n

theorem write_sameGeometry (buffer : List UInt8) (offset : Nat) :
    SameGeometry bch (bchlibWrite bch buffer offset).2 := by
  unfold bchlibWrite
  split
  · exact ⟨rfl, rfl⟩
  · dsimp only
    split
    · exact ⟨rfl, rfl⟩
    · split
      · split
        · exact readsector_sameGeometry _
        · split
          · exact (readsector_sameGeometry _).trans (patch_sameGeometry _ _)
          · exact ((readsector_sameGeometry _).trans (patch_sameGeometry _ _)).trans
              (writeSectors_sameGeometry _ _ _)
      · exact writeSectors_sameGeometry _ _ _

theorem readTail_sameGeometry (buffer : List UInt8) (sector len : Nat) :
    SameGeometry bch (bchlibReadTail bch buffer sector len).bch := by
  unfold bchlibReadTail
  split
  · dsimp only
    split <;> exact readsector_sameGeometry sector
  · exact ⟨rfl, rfl⟩

theorem readSectors_sameGeometry (buffer : List UInt8) (sector len : Nat) :
    SameGeometry bch (bchlibReadSectors bch buffer sector len).bch := by
  unfold bchlibReadSectors
  split
  · dsimp only
    split
    · exact ⟨rfl, rfl⟩
    · split
      · exact ⟨rfl, rfl⟩
      · exact readTail_sameGeometry _ _ _
  · exact readTail_sameGeometry buffer sector len

theorem read_sameGeometry (offset len : Nat) :
    SameGeometry bch (bchlibRead bch offset len).bch := by
  unfold bchlibRead
  split
  · exact ⟨rfl, rfl⟩
  · dsimp only
    split
    · exact ⟨rfl, rfl⟩
    · split
      · split
        · exact readsector_sameGeometry _
        · split
          · exact readsector_sameGeometry _
          · exact (readsector_sameGeometry _).trans (readSectors_sameGeometry _ _ _)
      · exact readSectors_sameGeometry _ _ _

/-! ## Writing -/

theorem bchlibWriteTail_spec (h : Coherent bch flat) (buffer : List UInt8) (sector n : Nat)
    (hs : sector < bch.nsectors) (hlen : buffer.length ≤ bch.sectsize) :
    (bchlibWriteTail bch buffer sector n).1 = (n + buffer.length : Nat) ∧
      Coherent (bchlibWriteTail bch buffer sector n).2
        (flat.write (sector * bch.sectsize) buffer) := by
  obtain ⟨hr, hc, hsec⟩ := readsector_spec h hs
  unfold bchlibWriteTail
  by_cases hz : buffer.length > 0
  · rw [if_pos hz]
    rw [if_neg (by omega)]
    refine ⟨by simp, ?_⟩
    have := coherent_patch hc (by rw [hsec]; simpa using hs) 0 buffer (by simpa using hlen)
    simpa [hsec] using this
  · rw [if_neg hz]
    have hnil : buffer = [] := eq_nil_of_length_eq_zero (by omega)
    rw [hnil]
    exact ⟨by simp, by simpa using h⟩

theorem next_sector (offset : Nat) {k : Nat} (hk : 0 < k) :
    (offset / k + 1) * k = offset + (k - offset % k) := by
  have hdm := Nat.div_add_mod' offset k
  have hml := Nat.mod_lt offset hk
  rw [Nat.succ_mul]
  omega

theorem bchlibWriteSectors_spec (h : Coherent bch flat) (buffer : List UInt8) (sector n : Nat)
    (hs : sector < bch.nsectors)
    (hin : sector * bch.sectsize + buffer.length ≤ bch.nsectors * bch.sectsize)
    (hfree : bch.sectsize ≤ buffer.length → bch.sector < bch.nsectors →
      bch.sector < sector ∨ sector + buffer.length / bch.sectsize ≤ bch.sector) :
    (bchlibWriteSectors bch buffer sector n).1 = (n + buffer.length : Nat) ∧
      Coherent (bchlibWriteSectors bch buffer sector n).2
        (flat.write (sector * bch.sectsize) buffer) := by
  obtain ⟨hf, hc, hd, hsec⟩ := flushsector_spec h
  obtain ⟨hw, hle⟩ := wholeSectors_eq h hin
  unfold bchlibWriteSectors
  by_cases hbig : buffer.length ≥ bch.sectsize
  · rw [if_pos hbig]
    have hok := (hc.reliable sector (wholeSectors bch sector buffer.length)).2
    rw [if_neg (by omega), if_neg (by omega), hw]
    -- the whole sectors and the rest of the user buffer
    have hdm := Nat.div_mul_le_self buffer.length bch.sectsize
    have htake : (buffer.take (buffer.length / bch.sectsize * bch.sectsize)).length
        = buffer.length / bch.sectsize * bch.sectsize := by simp; omega
    have hmid := coherent_mediaWrite hc hd sector (buffer.length / bch.sectsize)
      (buffer.take (buffer.length / bch.sectsize * bch.sectsize))
      (by rw [htake]; simp) (by rw [hsec]; simpa using hfree hbig)
    simp only [flushsector_sectsize] at hmid
    have hall := write_take_drop flat (sector * bch.sectsize) hdm
    rw [← Nat.add_mul] at hall
    have hrest : (buffer.drop (buffer.length / bch.sectsize * bch.sectsize)).length
        < bch.sectsize := by
      have h1 := Nat.div_add_mod' buffer.length bch.sectsize
      have h2 := Nat.mod_lt buffer.length h.sectsize_pos
      simp
      omega
    by_cases hend : sector + buffer.length / bch.sectsize ≥ bch.nsectors
    · rw [if_pos (by simpa using hend)]
      -- the whole sectors reach the end of the device, so nothing is left over
      have hall2 : bch.nsectors * bch.sectsize
          ≤ (sector + buffer.length / bch.sectsize) * bch.sectsize := Nat.mul_le_mul_right _ hend
      rw [Nat.add_mul] at hall2
      have hdrop : buffer.drop (buffer.length / bch.sectsize * bch.sectsize) = [] :=
        drop_eq_nil_of_le (by omega)
      rw [hall, hdrop, write_nil]
      refine ⟨?_, hmid⟩
      have : buffer.length / bch.sectsize * bch.sectsize = buffer.length := by omega
      rw [this]
      simp
    · rw [if_neg (by simpa using hend)]
      have ht := bchlibWriteTail_spec hmid
        (buffer.drop (buffer.length / bch.sectsize * bch.sectsize))
        (sector + buffer.length / bch.sectsize) (n + buffer.length / bch.sectsize * bch.sectsize)
        (by simpa using Nat.lt_of_not_ge hend)
        (by simpa only [mediaWrite_sectsize, flushsector_sectsize] using Nat.le_of_lt hrest)
      rw [hall]
      refine ⟨?_, by simpa using ht.2⟩
      rw [ht.1, length_drop]
      congr 1
      omega
  · rw [if_neg hbig]
    exact bchlibWriteTail_spec h buffer sector n hs (by omega)

variable {len offset : Nat}

/-- The first sector takes all of the request, or it is filled up. -/
theorem headBytes_spec {off : Nat} (hoff : off < bch.sectsize) (hwrap : off + len < 2 ^ 32) :
    ∃ n ≤ len, headBytes bch off len = n ∧ off + n ≤ bch.sectsize ∧ (n = len ∨ off + n = bch.sectsize) := by
  unfold headBytes
  rw [Nat.mod_eq_of_lt hwrap]
  split <;> exact ⟨_, by omega, rfl, by omega, by omega⟩

/-- What is behind the first sector goes to the start of the next one. -/
theorem write_head {buffer : List UInt8} {k n : Nat} (hpos : 0 < k) (hn : n ≤ buffer.length)
    (hall : n = buffer.length ∨ offset % k + n = k) : flat.write offset buffer =
      (flat.write offset (buffer.take n)).write ((offset / k + 1) * k) (buffer.drop n) := by
  rcases hall with rfl | hall
  · rw [drop_length, take_length, write_nil]
  · rw [write_take_drop flat offset hn, next_sector offset hpos]
    congr 1
    omega

/--
**What `bchlib_write` does.** The whole request is written, and the array changes as by one
store. The fast path must not cover the cached sector; it can only do so in a request that
starts on a sector boundary, as any other one caches its first sector before.
-/
theorem bchlibWrite_spec (h : Coherent bch flat) {buffer : List UInt8}
    (hin : offset + buffer.length ≤ bch.nsectors * bch.sectsize)
    (hwrap : offset % bch.sectsize + buffer.length < 2 ^ 32)
    (hfree : offset % bch.sectsize = 0 → bch.sectsize ≤ buffer.length → bch.sector < bch.nsectors → bch.sector < offset / bch.sectsize ∨ offset / bch.sectsize + buffer.length / bch.sectsize ≤ bch.sector) :
    (bchlibWrite bch buffer offset).1 = buffer.length ∧
      Coherent (bchlibWrite bch buffer offset).2 (flat.write offset buffer) := by
  unfold bchlibWrite
  by_cases hz : buffer.length < 1
  · rw [if_pos hz]
    have hnil : buffer = [] := eq_nil_of_length_eq_zero (by omega)
    rw [hnil]
    exact ⟨by simp, by simpa using h⟩
  rw [if_neg hz]
  have hdm := Nat.div_add_mod' offset bch.sectsize
  have hml := Nat.mod_lt offset h.sectsize_pos
  have hs : offset / bch.sectsize < bch.nsectors := by
    rw [Nat.div_lt_iff_lt_mul h.sectsize_pos]
    omega
  rw [if_neg (by omega), sectoffset_eq h.sectsize_pos h.sectsize_lt]
  by_cases ho : offset % bch.sectsize > 0
  · rw [if_pos ho]
    obtain ⟨hr, hc, hsec⟩ := readsector_spec h hs
    obtain ⟨n, hn, heq, hfit, hall⟩ := headBytes_spec hml hwrap
    rw [if_neg (by omega), heq]
    have hhead := coherent_patch hc (by rw [hsec]; simpa using hs) (offset % bch.sectsize) (buffer.take n)
      (by rw [length_take_of_le hn]; simpa using hfit)
    simp only [hsec, readsector_sectsize, hdm] at hhead
    have hnext := next_sector offset h.sectsize_pos
    by_cases hend : offset / bch.sectsize + 1 ≥ bch.nsectors
    · have hle := Nat.mul_le_mul_right bch.sectsize hend
      obtain rfl : n = buffer.length := by omega
      rw [if_pos (by simpa using hend)]
      rw [take_length] at hhead ⊢
      exact ⟨rfl, hhead⟩
    · have hle := Nat.mul_le_mul_right bch.sectsize (Nat.le_of_not_ge hend)
      rw [if_neg (by simpa using hend)]
      have ht := bchlibWriteSectors_spec hhead (buffer.drop n) (offset / bch.sectsize + 1) n (by simpa using hend)
        (by simp [hnext]; omega) (by intro _ _; left; simp [hsec])
      rw [write_head h.sectsize_pos hn hall]
      refine ⟨?_, by simpa using ht.2⟩
      rw [ht.1, length_drop]
      congr 1
      omega
  · rw [if_neg ho]
    have ho : offset % bch.sectsize = 0 := by omega
    have hbase : offset / bch.sectsize * bch.sectsize = offset := by omega
    have ht := bchlibWriteSectors_spec h buffer (offset / bch.sectsize) 0 hs (by rw [hbase]; exact hin) (hfree ho)
    rw [hbase] at ht
    simpa using ht

/-! ## Reading -/

theorem bchlibReadTail_spec (h : Coherent bch flat) (buffer : List UInt8) (sector len : Nat)
    (hs : sector < bch.nsectors) (hlen : len ≤ bch.sectsize) :
    (bchlibReadTail bch buffer sector len).ret = (buffer.length + len : Nat) ∧
      (bchlibReadTail bch buffer sector len).bytes
        = buffer ++ flat.read (sector * bch.sectsize) len ∧
      Coherent (bchlibReadTail bch buffer sector len).bch flat := by
  obtain ⟨hr, hc, hsec⟩ := readsector_spec h hs
  unfold bchlibReadTail
  by_cases hz : len > 0
  · rw [if_pos hz]
    rw [if_neg (by omega)]
    refine ⟨by simp, ?_, hc⟩
    show buffer ++ _ = buffer ++ _
    congr 1
    refine read_shift fun i hi => ?_
    rw [Nat.zero_add, hc.cached (by rw [hsec]; simpa using hs) i (by simp; omega), hsec,
      readsector_sectsize]
  · rw [if_neg hz]
    have hnil : len = 0 := by omega
    rw [hnil]
    exact ⟨by simp, by simp [Memory.read], h⟩

theorem bchlibReadSectors_spec (h : Coherent bch flat) (buffer : List UInt8) (sector len : Nat)
    (hs : sector < bch.nsectors)
    (hin : sector * bch.sectsize + len ≤ bch.nsectors * bch.sectsize)
    (hfree : bch.sectsize ≤ len → bch.dirty = true →
      bch.sector < sector ∨ sector + len / bch.sectsize ≤ bch.sector) :
    (bchlibReadSectors bch buffer sector len).ret = (buffer.length + len : Nat) ∧
      (bchlibReadSectors bch buffer sector len).bytes
        = buffer ++ flat.read (sector * bch.sectsize) len ∧
      Coherent (bchlibReadSectors bch buffer sector len).bch flat := by
  obtain ⟨hw, hle⟩ := wholeSectors_eq h hin
  unfold bchlibReadSectors
  by_cases hbig : len ≥ bch.sectsize
  · rw [if_pos hbig]
    have hok := (h.reliable sector (wholeSectors bch sector len)).1
    rw [if_neg (by omega), hw, mediaRead_eq h hle (hfree hbig)]
    have hdm := Nat.div_mul_le_self len bch.sectsize
    have hall : flat.read (sector * bch.sectsize) len
        = flat.read (sector * bch.sectsize) (len / bch.sectsize * bch.sectsize)
          ++ flat.read ((sector + len / bch.sectsize) * bch.sectsize)
              (len - len / bch.sectsize * bch.sectsize) := by
      rw [Nat.add_mul, ← read_append]
      congr 1
      omega
    by_cases hend : sector + len / bch.sectsize ≥ bch.nsectors
    · rw [if_pos hend]
      -- the whole sectors reach the end of the device, so nothing is left over
      have hall2 : bch.nsectors * bch.sectsize
          ≤ (sector + len / bch.sectsize) * bch.sectsize := Nat.mul_le_mul_right _ hend
      rw [Nat.add_mul] at hall2
      have hlen : len / bch.sectsize * bch.sectsize = len := by omega
      refine ⟨?_, ?_, h⟩
      · simp [hlen]
      · rw [hlen]
    · rw [if_neg hend]
      have hrest : len - len / bch.sectsize * bch.sectsize ≤ bch.sectsize := by
        have h1 := Nat.div_add_mod' len bch.sectsize
        have h2 := Nat.mod_lt len h.sectsize_pos
        omega
      have ht := bchlibReadTail_spec h
        (buffer ++ flat.read (sector * bch.sectsize) (len / bch.sectsize * bch.sectsize))
        (sector + len / bch.sectsize) (len - len / bch.sectsize * bch.sectsize)
        (Nat.lt_of_not_ge hend) hrest
      refine ⟨?_, ?_, ht.2.2⟩
      · rw [ht.1, length_append, length_read]
        congr 1
        omega
      · rw [ht.2.1, hall, append_assoc]
  · rw [if_neg hbig]
    exact bchlibReadTail_spec h buffer sector len hs (by omega)

/--
**What `bchlib_read` does.** It delivers the bytes of the array and leaves the array as it is.
The fast path must not cover a dirty cached sector.
-/
theorem bchlibRead_spec (h : Coherent bch flat) (hin : offset + len ≤ bch.nsectors * bch.sectsize)
    (hwrap : offset % bch.sectsize + len < 2 ^ 32)
    (hfree : offset % bch.sectsize = 0 → bch.sectsize ≤ len → bch.dirty = true → bch.sector < offset / bch.sectsize ∨ offset / bch.sectsize + len / bch.sectsize ≤ bch.sector) :
    (bchlibRead bch offset len).ret = len ∧
      (bchlibRead bch offset len).bytes = flat.read offset len ∧
      Coherent (bchlibRead bch offset len).bch flat := by
  unfold bchlibRead
  by_cases hz : len < 1
  · rw [if_pos hz]
    have hnil : len = 0 := by omega
    rw [hnil]
    exact ⟨rfl, rfl, h⟩
  rw [if_neg hz]
  dsimp only
  have hdm := Nat.div_add_mod' offset bch.sectsize
  have hml := Nat.mod_lt offset h.sectsize_pos
  have hs : offset / bch.sectsize < bch.nsectors := by
    rw [Nat.div_lt_iff_lt_mul h.sectsize_pos]
    omega
  rw [if_neg (by omega), sectoffset_eq h.sectsize_pos h.sectsize_lt]
  by_cases ho : offset % bch.sectsize > 0
  · rw [if_pos ho]
    obtain ⟨hr, hc, hsec⟩ := readsector_spec h hs
    obtain ⟨n, hn, heq, hfit, hall⟩ := headBytes_spec hml hwrap
    have hhead : (bchlibReadsector bch (offset / bch.sectsize)).2.buffer.read (offset % bch.sectsize) n
        = flat.read offset n := by
      refine read_shift fun i hi => ?_
      rw [hc.cached (by rw [hsec]; simpa using hs) _ (by simp; omega), hsec, readsector_sectsize]
      congr 1
      omega
    rw [if_neg (by omega), heq, hhead]
    have hnext := next_sector offset h.sectsize_pos
    by_cases hend : offset / bch.sectsize + 1 ≥ bch.nsectors
    · have hle := Nat.mul_le_mul_right bch.sectsize hend
      obtain rfl : n = len := by omega
      rw [if_pos (by simpa using hend)]
      exact ⟨rfl, rfl, hc⟩
    · have hle := Nat.mul_le_mul_right bch.sectsize (Nat.le_of_not_ge hend)
      rw [if_neg (by simpa using hend)]
      have ht := bchlibReadSectors_spec hc (flat.read offset n) (offset / bch.sectsize + 1) (len - n)
        (by simpa using hend) (by simp [hnext]; omega) (by intro _ _; left; simp [hsec])
      refine ⟨?_, ?_, ht.2.2⟩
      · rw [ht.1, length_read]
        congr 1
        omega
      · rw [ht.2.1, readsector_sectsize]
        rcases hall with rfl | hall
        · rw [Nat.sub_self, Memory.read, append_nil]
        · rw [show (offset / bch.sectsize + 1) * bch.sectsize = offset + n by omega, ← read_append]
          congr 1
          omega
  · rw [if_neg ho]
    have ho : offset % bch.sectsize = 0 := by omega
    have hbase : offset / bch.sectsize * bch.sectsize = offset := by omega
    have ht := bchlibReadSectors_spec h [] (offset / bch.sectsize) len hs
      (by rw [hbase]; exact hin) (hfree ho)
    rw [hbase] at ht
    simpa using ht

end Gpmx.Bch

/-!
## Read your writes

Runs of `bchlib_write` and `bchlib_read` calls against the same calls on one flat byte array.

The two agree as long as no call takes its fast path over the cached sector
(`run_eq_flat_of_cacheSafe`). Without that condition they do not: a whole-sector read
misses what is still in the buffer, and a whole-sector write leaves a stale buffer behind
(`fastPath_ignores_cache`).
-/

namespace Gpmx.Bch

open Infra

inductive Op where
  | write (offset : Nat) (bytes : List UInt8)
  | read (offset len : Nat)
  deriving DecidableEq

structure Answer where
  ret : Int
  bytes : List UInt8
  deriving DecidableEq

def step (bch : Bchlib) : Op → Bchlib × Answer
  | .write offset bytes => ((bchlibWrite bch bytes offset).2, ⟨(bchlibWrite bch bytes offset).1, []⟩)
  | .read offset len =>
    ((bchlibRead bch offset len).bch, ⟨(bchlibRead bch offset len).ret,
      (bchlibRead bch offset len).bytes⟩)

def flatStep (flat : Memory UInt8) : Op → Memory UInt8 × Answer
  | .write offset bytes => (flat.write offset bytes, ⟨bytes.length, []⟩)
  | .read offset len => (flat, ⟨len, flat.read offset len⟩)

/-- The request lies inside a device of `size` bytes. -/
def Op.Inside (size : Nat) : Op → Prop
  | .write offset bytes => offset + bytes.length ≤ size
  | .read offset len => offset + len ≤ size

/--
The call does not reach the defect of its fast path: when it starts on a sector boundary and
has whole sectors, these do not cover the cached sector (for a read: a dirty one). The sum
`sectoffset + len` must fit `size_t`, or the first phase miscounts.
-/
def Op.CacheSafe (bch : Bchlib) : Op → Prop
  | .write offset bytes =>
    offset % bch.sectsize + bytes.length < 2 ^ 32 ∧
      (offset % bch.sectsize = 0 → bch.sectsize ≤ bytes.length → bch.sector < bch.nsectors →
        bch.sector < offset / bch.sectsize ∨
          offset / bch.sectsize + bytes.length / bch.sectsize ≤ bch.sector)
  | .read offset len =>
    offset % bch.sectsize + len < 2 ^ 32 ∧
      (offset % bch.sectsize = 0 → bch.sectsize ≤ len → bch.dirty = true →
        bch.sector < offset / bch.sectsize ∨
          offset / bch.sectsize + len / bch.sectsize ≤ bch.sector)

instance (size : Nat) : (op : Op) → Decidable (op.Inside size)
  | .write _ _ => inferInstanceAs (Decidable (_ ≤ _))
  | .read _ _ => inferInstanceAs (Decidable (_ ≤ _))

instance (bch : Bchlib) : (op : Op) → Decidable (op.CacheSafe bch)
  | .write _ _ => inferInstanceAs (Decidable (_ ∧ _))
  | .read _ _ => inferInstanceAs (Decidable (_ ∧ _))

def Stands (nsectors sectsize : Nat) (bch : Bchlib) (flat : Memory UInt8) : Prop :=
  Coherent bch flat ∧ bch.nsectors = nsectors ∧ bch.sectsize = sectsize

theorem step_stands {nsectors sectsize : Nat} {bch : Bchlib} {flat : Memory UInt8} {op : Op}
    (h : Stands nsectors sectsize bch flat)
    (hok : op.Inside (nsectors * sectsize) ∧ op.CacheSafe bch) :
    Stands nsectors sectsize (step bch op).1 (flatStep flat op).1 ∧
      (step bch op).2 = (flatStep flat op).2 := by
  obtain ⟨h, rfl, rfl⟩ := h
  obtain ⟨hin, hsafe⟩ := hok
  cases op with
  | write offset bytes =>
    obtain ⟨hr, hc⟩ := bchlibWrite_spec h hin hsafe.1 hsafe.2
    obtain ⟨hg1, hg2⟩ := @write_sameGeometry bch bytes offset
    exact ⟨⟨hc, hg2, hg1⟩, by simp [step, flatStep, hr]⟩
  | read offset len =>
    obtain ⟨hr, hb, hc⟩ := bchlibRead_spec h hin hsafe.1 hsafe.2
    obtain ⟨hg1, hg2⟩ := @read_sameGeometry bch offset len
    exact ⟨⟨hc, hg2, hg1⟩, by simp [step, flatStep, hr, hb]⟩

/--
**A BCH device reads what was written, as long as no call takes its fast path over the cached
sector.**

Every call of such a run, on a freshly set up device whose driver does not fail, returns
what it would return on a flat array that starts out as the medium.
-/
theorem run_eq_flat_of_cacheSafe {inode : BlockDriver} {nsectors sectsize : Nat}
    (buffer : Memory UInt8) (ops : List Op) (hr : inode.Reliable) (hpos : 0 < sectsize)
    (hss : sectsize < 2 ^ 15) (hns : nsectors < 2 ^ 32)
    (hops : Guarded step (fun bch op => op.Inside (nsectors * sectsize) ∧ op.CacheSafe bch)
      (bchlibSetup inode nsectors sectsize buffer) ops) :
    (run step (bchlibSetup inode nsectors sectsize buffer) ops).2
      = (run flatStep inode.media ops).2 := by
  have h0 : Stands nsectors sectsize (bchlibSetup inode nsectors sectsize buffer) inode.media :=
    ⟨coherent_setup buffer hr hpos hss hns, rfl, rfl⟩
  exact (Guarded.simulation (fun bch flat op => @step_stands nsectors sectsize bch flat op)
    hops h0).2

def zeroDriver : BlockDriver :=
  { media := fun _ => 0, readRet := fun _ n => n, writeRet := fun _ n => n }

theorem zeroDriver_reliable : zeroDriver.Reliable := by
  intro start n
  exact ⟨Int.natCast_nonneg n, Int.natCast_nonneg n⟩

/-- A run over partial and whole sectors that meets the condition. -/
theorem run_eq_flat_of_cacheSafe_mixed :
    (run step (bchlibSetup zeroDriver 4 2 (fun _ => 9))
        [.write 1 [7, 8], .write 4 [1, 2], .read 2 1, .read 4 2, .read 1 4]).2
      = (run flatStep zeroDriver.media
        [.write 1 [7, 8], .write 4 [1, 2], .read 2 1, .read 4 2, .read 1 4]).2 :=
  run_eq_flat_of_cacheSafe _ _ zeroDriver_reliable (by decide) (by decide) (by decide) (by decide)

/--
Without the condition both fast paths go wrong. A partial write leaves sector 0 dirty in the
buffer, and reading that sector as a whole returns the old medium. A partial read caches
sector 0, writing it as a whole does not reach the buffer, and the next partial read returns
the old byte.
-/
theorem fastPath_ignores_cache :
    (run step (bchlibSetup zeroDriver 2 2 (fun _ => 0)) [.write 1 [7], .read 0 2]).2
        ≠ (run flatStep zeroDriver.media [.write 1 [7], .read 0 2]).2 ∧
      (run step (bchlibSetup zeroDriver 2 2 (fun _ => 0))
          [.read 1 1, .write 0 [5, 6], .read 1 1]).2
        ≠ (run flatStep zeroDriver.media [.read 1 1, .write 0 [5, 6], .read 1 1]).2 := by
  decide

end Gpmx.Bch
