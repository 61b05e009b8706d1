import Gpmx.Mtd.Partition
import Gpmx.Infra.Memory

/-!
# RAMTRON: FRAM in blocks

`gpm/drivers/mtd/ramtron.c`, with `CONFIG_RAMTRON_CHUNKING` and `CONFIG_RAMTRON_FRAM_NON_JEDEC`; without
the first, `ramtron_bwrite` is what is called `ramtron_bwrite_nonchunked` here. `off_t`, `size_t` and
`uint32_t` have 32 bits. The chip takes as many address bytes as the table says, modulo its size, and
stores what follows from there on.

* `parts` — the part table
* `bwrite`, `bread` — `ramtron_bwrite` and `ramtron_bread`
* `geometry`, `partinfo` — `MTDIOC_GEOMETRY` and `BIOC_PARTINFO` of `ramtron_ioctl`
* `never_roundTrips` — what is wrong on each request, and what is not
-/

namespace Gpmx.Mtd.Ramtron

open Infra List Memory

/-- `struct ramtron_parts_s` -/
structure Part where
  name : String
  size : Nat
  addrLen : Nat
  chunked : Bool
  chunksize : BitVec 16

def parts : List Part :=
  [⟨"FM25V01", 16 * 1024, 2, false, 512⟩,
    ⟨"FM25V01A", 16 * 1024, 2, false, 512⟩,
    ⟨"FM25V02", 32 * 1024, 2, false, 512⟩,
    ⟨"FM25V02A", 32 * 1024, 2, false, 512⟩,
    ⟨"FM25VN02", 32 * 1024, 2, false, 512⟩,
    ⟨"FM25V05", 64 * 1024, 2, false, 512⟩,
    ⟨"FM25VN05", 64 * 1024, 2, false, 512⟩,
    ⟨"FM25V10", 128 * 1024, 3, false, 512⟩,
    ⟨"FM25VN10", 128 * 1024, 3, false, 512⟩,
    ⟨"FM25V20A", 256 * 1024, 3, false, 512⟩,
    ⟨"CY15B104Q", 512 * 1024, 3, false, 512⟩,
    ⟨"MB85RS1MT", 128 * 1024, 3, false, 512⟩,
    ⟨"MB85RS2MT", 256 * 1024, 3, false, 512⟩,
    ⟨"MB85RS256B", 32 * 1024, 3, false, 512⟩,
    ⟨"MB85AS4MT", 512 * 1024, 3, true, 256⟩,
    ⟨"FM25H20", 256 * 1024, 3, false, 512⟩]

def sectorshift : Nat := 9

def pageshift : Nat := 9

namespace Part

variable (d : Part)

/-- `nsectors`, as `ramtron_readid` sets it. -/
def nsectors : BitVec 16 := BitVec.ofNat 16 (d.size / (1 <<< sectorshift))

/-- `npages`, as `ramtron_readid` sets it. -/
def npages : Nat := d.size / (1 <<< pageshift)

def sendaddr (addr : BitVec 32) : List (BitVec 8) :=
  (if d.addrLen = 3 then [addr.extractLsb' 16 8] else []) ++ [addr.extractLsb' 8 8, addr.extractLsb' 0 8]

def cell (bytes : List (BitVec 8)) : Nat :=
  bytes.foldl (fun a b => a * 256 + b.toNat) 0 % d.size

/-- `ramtron_pagewrite` with `buffer + pos`: what it returns, and the memory afterwards. -/
def pagewrite (m buffer : Memory UInt8) (pos : Nat) (page pagesize : BitVec 32) : Int × Memory UInt8 :=
  let offset := page * pagesize
  (0, m.write (d.cell (d.sendaddr offset)) (buffer.read pos pagesize.toNat))

/-- The loop of `ramtron_bwrite_nonchunked`. -/
def nonchunkedLoop (m buffer : Memory UInt8) (nblocks startblock : BitVec 32) :
    (blocksleft : Nat) → BitVec 32 × Memory UInt8
  | 0 => (nblocks, m)
  | blocksleft + 1 =>
    let w := d.pagewrite m buffer 0 startblock (1 <<< pageshift)
    if w.1 ≠ 0 then (0, w.2) else nonchunkedLoop w.2 buffer nblocks (startblock + 1) blocksleft

/-- `ramtron_bwrite_nonchunked`: what it returns, and the memory afterwards. -/
def bwriteNonchunked (m : Memory UInt8) (startblock nblocks : BitVec 32) (buffer : Memory UInt8) :
    BitVec 32 × Memory UInt8 :=
  d.nonchunkedLoop m buffer nblocks startblock nblocks.toNat

/-- The loop over the chunks of a block, from chunk `p` on with `left` of them to go. -/
def chunkLoop (m buffer : Memory UInt8) (newstartblock : BitVec 32) (p : Nat) :
    (left : Nat) → Int × Memory UInt8 × BitVec 32
  | 0 => (0, m, newstartblock)
  | left + 1 =>
    let w := d.pagewrite m buffer (p * d.chunksize.toNat) newstartblock (d.chunksize.setWidth 32)
    if w.1 ≠ 0 then (w.1, w.2, newstartblock) else chunkLoop w.2 buffer (newstartblock + 1) (p + 1) left

/-- The loop of `ramtron_bwrite_chunked`. -/
def chunkedLoop (m buffer : Memory UInt8) (nblocks newstartblock writesplits : BitVec 32) :
    (blocksleft : Nat) → BitVec 32 × Memory UInt8
  | 0 => (nblocks, m)
  | blocksleft + 1 =>
    let w := d.chunkLoop m buffer newstartblock 0 writesplits.toNat
    if w.1 ≠ 0 then (0, w.2.1) else chunkedLoop w.2.1 buffer nblocks w.2.2 writesplits blocksleft

def bwriteChunked (m : Memory UInt8) (startblock nblocks : BitVec 32) (buffer : Memory UInt8) :
    BitVec 32 × Memory UInt8 :=
  let writesplits := (1 <<< pageshift) / d.chunksize.setWidth 32
  let newstartblock := startblock * writesplits
  d.chunkedLoop m buffer nblocks newstartblock writesplits nblocks.toNat

def bwrite (m : Memory UInt8) (startblock nblocks : BitVec 32) (buffer : Memory UInt8) :
    BitVec 32 × Memory UInt8 :=
  if d.chunked then d.bwriteChunked m startblock nblocks buffer
  else d.bwriteNonchunked m startblock nblocks buffer

/-- `ramtron_read`: what it returns, and the bytes it stores. -/
def read (m : Memory UInt8) (offset nbytes : BitVec 32) : BitVec 32 × List UInt8 :=
  (nbytes, m.read (d.cell (d.sendaddr offset)) nbytes.toNat)

def bread (m : Memory UInt8) (startblock nblocks : BitVec 32) : BitVec 32 × List UInt8 :=
  let r := d.read m (startblock <<< pageshift) (nblocks <<< pageshift)
  if (0 : BitVec 32).slt r.1 then (r.1.sshiftRight pageshift, r.2) else r

def geometry : Geometry where
  blocksize := 1 <<< pageshift
  erasesize := 1 <<< sectorshift
  neraseblocks := d.nsectors.toNat

/-- `numsectors` and `sectorsize` of `BIOC_PARTINFO`. -/
def partinfo : Nat × Nat := (d.nsectors.toNat * (sectorshift - pageshift), 1 <<< pageshift)

end Part

/-! ## Addresses -/

variable {d : Part} {m buffer : Memory UInt8} {start n : BitVec 32}

theorem bounds (hd : d ∈ parts) : d.npages * 512 = d.size ∧ d.npages ≤ 1024 ∧ 0 < d.size ∧
    (d.size ≤ if d.addrLen = 3 then 2 ^ 24 else 2 ^ 16) ∧
    (1 <<< pageshift / d.chunksize.setWidth 32 : BitVec 32).toNat * d.chunksize.toNat = 512 := by
  have hparts : ∀ d ∈ parts, d.npages * 512 = d.size ∧ d.npages ≤ 1024 ∧ 0 < d.size ∧
      (d.size ≤ if d.addrLen = 3 then 2 ^ 24 else 2 ^ 16) ∧
      (1 <<< pageshift / d.chunksize.setWidth 32 : BitVec 32).toNat * d.chunksize.toNat = 512 := by decide
  exact hparts d hd

theorem cell_sendaddr (d : Part) (addr : BitVec 32) :
    d.cell (d.sendaddr addr) = addr.toNat % (if d.addrLen = 3 then 2 ^ 24 else 2 ^ 16) % d.size := by
  unfold Part.cell Part.sendaddr
  split
  · simp only [cons_append, nil_append, foldl_cons, foldl_nil, BitVec.extractLsb'_toNat,
      Nat.shiftRight_eq_div_pow]
    congr 1
    omega
  · simp only [nil_append, foldl_cons, foldl_nil, BitVec.extractLsb'_toNat,
      Nat.shiftRight_eq_div_pow]
    congr 1
    omega

theorem cell_of_lt (hd : d ∈ parts) {addr : BitVec 32} (h : addr.toNat < d.size) :
    d.cell (d.sendaddr addr) = addr.toNat := by
  obtain ⟨-, -, -, hsize, -⟩ := bounds hd
  rw [cell_sendaddr, Nat.mod_eq_of_lt (Nat.lt_of_lt_of_le h hsize), Nat.mod_eq_of_lt h]

/-! ## Writes -/

def repeated (buffer : Memory UInt8) : Memory UInt8 := fun i => buffer (i % 512)

theorem read_repeated (buffer : Memory UInt8) (c : Nat) {pos k : Nat} (h : pos + k ≤ 512) :
    (repeated buffer).read (c * 512 + pos) k = buffer.read pos k := by
  refine read_shift fun i hi => ?_
  unfold repeated
  congr 1
  omega

theorem pagewrite_eq (hd : d ∈ parts) (m buffer : Memory UInt8) (pos : Nat) (page pagesize : BitVec 32) (hpos : 0 < pagesize.toNat)
    (h : page.toNat * pagesize.toNat + pagesize.toNat ≤ d.size) :
    d.pagewrite m buffer pos page pagesize =
      (0, m.write (page.toNat * pagesize.toNat) (buffer.read pos pagesize.toNat)) := by
  obtain ⟨hpages, hle, -⟩ := bounds hd
  have hoffset : (page * pagesize).toNat = page.toNat * pagesize.toNat := by
    rw [BitVec.toNat_mul, Nat.mod_eq_of_lt (by omega)]
  unfold Part.pagewrite
  dsimp only
  rw [cell_of_lt hd (by omega), hoffset]

theorem nonchunkedLoop_eq (hd : d ∈ parts) (m buffer : Memory UInt8) (nblocks start : BitVec 32) (left : Nat)
    (h : start.toNat + left ≤ d.npages) :
    d.nonchunkedLoop m buffer nblocks start left =
      (nblocks, m.write (start.toNat * 512) ((repeated buffer).read (start.toNat * 512) (left * 512))) := by
  obtain ⟨hpages, hle, -⟩ := bounds hd
  induction left generalizing m start with
  | zero =>
    rw [Nat.zero_mul]
    exact congrArg (nblocks, ·) (write_nil m _).symm
  | succ left ih =>
    have hsize : (1 <<< pageshift : BitVec 32).toNat = 512 := rfl
    have hpage := pagewrite_eq hd m buffer 0 start (1 <<< pageshift) (by rw [hsize]; decide) (by rw [hsize]; omega)
    rw [hsize] at hpage
    have hnext : (start + 1).toNat = start.toNat + 1 := by
      rw [BitVec.toNat_add]
      exact Nat.mod_eq_of_lt (show start.toNat + 1 < 2 ^ 32 by omega)
    have hfirst := read_repeated buffer start.toNat (Nat.le_of_eq (Nat.zero_add 512))
    rw [Nat.add_zero] at hfirst
    unfold Part.nonchunkedLoop
    rw [hpage]
    dsimp only
    rw [if_neg (by decide), ih _ _ (by omega), hnext, Nat.succ_mul left, Nat.add_comm (left * 512),
      read_append, write_append, length_read, Nat.succ_mul, hfirst]

theorem chunkLoop_eq (hd : d ∈ parts) (m buffer : Memory UInt8) (start : BitVec 32) (p left block : Nat) {c : Nat}
    (hc : d.chunksize.toNat = c) (hstart : start.toNat * c = block * 512 + p * c)
    (hblock : block * 512 + 512 ≤ d.size) (hleft : (p + left) * c = 512) :
    ∃ next, d.chunkLoop m buffer start p left =
        (0, m.write (block * 512 + p * c) ((repeated buffer).read (block * 512 + p * c) (left * c)), next) ∧
      next.toNat = start.toNat + left := by
  obtain ⟨hpages, hle, -, -, hsplits⟩ := bounds hd
  have hcpos : 0 < c := by
    refine Nat.pos_of_ne_zero fun hzero => ?_
    rw [hc, hzero] at hsplits
    omega
  induction left generalizing m start p with
  | zero =>
    refine ⟨start, ?_, rfl⟩
    rw [Nat.zero_mul]
    exact congrArg (fun x => (0, x, start)) (write_nil m _).symm
  | succ left ih =>
    have hcsize : (d.chunksize.setWidth 32).toNat = c := by
      rw [BitVec.toNat_setWidth, hc]
      have := d.chunksize.isLt
      omega
    have hin : p * c + c ≤ 512 := by
      rw [show p + (left + 1) = p + 1 + left by omega, Nat.add_mul, Nat.succ_mul] at hleft
      omega
    have hlt : start.toNat < 2 ^ 32 - 1 := by
      have := Nat.le_mul_of_pos_right start.toNat hcpos
      omega
    have hnext : (start + 1).toNat = start.toNat + 1 := by
      rw [BitVec.toNat_add]
      exact Nat.mod_eq_of_lt (show start.toNat + 1 < 2 ^ 32 by omega)
    have hpage := pagewrite_eq hd m buffer (p * c) start (d.chunksize.setWidth 32) (by omega)
      (by rw [hcsize]; omega)
    rw [hcsize, hstart] at hpage
    obtain ⟨next, hrest, hlast⟩ := ih (m.write (block * 512 + p * c) (buffer.read (p * c) c)) (start + 1) (p + 1)
      (by rw [hnext, Nat.succ_mul, Nat.succ_mul]; omega) (by rw [← hleft]; congr 1; omega)
    refine ⟨next, ?_, by omega⟩
    unfold Part.chunkLoop
    rw [hc, hpage]
    dsimp only
    rw [if_neg (by decide), hrest, Nat.succ_mul left, Nat.add_comm (left * c), read_append,
      write_append, length_read, read_repeated buffer block hin, Nat.succ_mul, Nat.add_assoc]

theorem chunkedLoop_eq (hd : d ∈ parts) (m buffer : Memory UInt8) (nblocks : BitVec 32) {start splits : BitVec 32}
    (block left : Nat) (hsplits : splits.toNat * d.chunksize.toNat = 512)
    (hstart : start.toNat = block * splits.toNat) (h : block + left ≤ d.npages) :
    d.chunkedLoop m buffer nblocks start splits left =
      (nblocks, m.write (block * 512) ((repeated buffer).read (block * 512) (left * 512))) := by
  obtain ⟨hpages, hle, -⟩ := bounds hd
  induction left generalizing m start block with
  | zero =>
    rw [Nat.zero_mul]
    exact congrArg (nblocks, ·) (write_nil m _).symm
  | succ left ih =>
    obtain ⟨next, hchunks, hnext⟩ := chunkLoop_eq hd m buffer start 0 splits.toNat block rfl
      (by rw [hstart, Nat.mul_assoc, hsplits, Nat.zero_mul, Nat.add_zero]) (by omega) (by rw [Nat.zero_add, hsplits])
    rw [Nat.zero_mul, Nat.add_zero, hsplits] at hchunks
    unfold Part.chunkedLoop
    rw [hchunks]
    dsimp only
    rw [if_neg (by decide), ih _ (block + 1) (by rw [hnext, hstart, Nat.succ_mul]) (by omega),
      Nat.succ_mul left, Nat.add_comm (left * 512), read_append, write_append, length_read,
      Nat.succ_mul]

/-! ## Requests -/

def written (m : Memory UInt8) (start n : BitVec 32) (buffer : Memory UInt8) : Memory UInt8 :=
  m.write (start.toNat * 512) ((repeated buffer).read (start.toNat * 512) (n.toNat * 512))

theorem bwriteNonchunked_eq (hd : d ∈ parts) (h : start.toNat + n.toNat ≤ d.npages) :
    d.bwriteNonchunked m start n buffer = (n, written m start n buffer) :=
  nonchunkedLoop_eq hd m buffer n start n.toNat h

theorem bwriteChunked_eq (hd : d ∈ parts) (h : start.toNat + n.toNat ≤ d.npages) :
    d.bwriteChunked m start n buffer = (n, written m start n buffer) := by
  obtain ⟨hpages, hle, -, hsize, hsplits⟩ := bounds hd
  refine chunkedLoop_eq hd m buffer n start.toNat n.toNat hsplits ?_ h
  have hsmall : (1 <<< pageshift / d.chunksize.setWidth 32 : BitVec 32).toNat ≤ 512 := by
    rw [BitVec.toNat_udiv]
    exact Nat.div_le_self 512 _
  have hmul := Nat.mul_le_mul (show start.toNat ≤ 1024 by omega) hsmall
  rw [BitVec.toNat_mul]
  exact Nat.mod_eq_of_lt (by omega)

theorem bwrite_eq (hd : d ∈ parts) (h : start.toNat + n.toNat ≤ d.npages) :
    d.bwrite m start n buffer = (n, written m start n buffer) := by
  unfold Part.bwrite
  split
  · exact bwriteChunked_eq hd h
  · exact bwriteNonchunked_eq hd h

theorem toNat_shift (x : BitVec 32) (h : x.toNat ≤ 1024) : (x <<< pageshift).toNat = x.toNat * 512 := by
  rw [BitVec.toNat_shiftLeft, Nat.shiftLeft_eq]
  exact Nat.mod_eq_of_lt (show x.toNat * 512 < 2 ^ 32 by omega)

theorem bread_eq (hd : d ∈ parts) (h : start.toNat + n.toNat ≤ d.npages) (m : Memory UInt8) :
    d.bread m start n = (n, m.read (start.toNat * 512) (n.toNat * 512)) := by
  obtain ⟨hpages, hle, -⟩ := bounds hd
  have hnbytes := toNat_shift n (by omega)
  by_cases hn : n = 0
  · subst hn
    rfl
  have hpos : 0 < n.toNat := Nat.pos_of_ne_zero fun hzero => hn (BitVec.eq_of_toNat_eq hzero)
  have hoffset := toNat_shift start (by omega)
  have hslt : (0 : BitVec 32).slt (n <<< pageshift) := by
    rw [BitVec.slt_iff_toInt_lt, BitVec.toInt_eq_toNat_of_lt (x := n <<< pageshift) (by omega)]
    show (0 : Int) < _
    omega
  have hback : (n <<< pageshift).sshiftRight pageshift = n := by
    apply BitVec.eq_of_toNat_eq
    rw [BitVec.toNat_sshiftRight_of_msb_false, hnbytes, Nat.shiftRight_eq_div_pow]
    · exact Nat.mul_div_cancel _ (by decide)
    · rw [BitVec.msb_eq_false_iff_two_mul_lt]
      omega
  unfold Part.bread Part.read
  rw [if_pos hslt, hback, cell_of_lt hd (by omega), hoffset, hnbytes]

namespace Part

variable (d : Part) (start n : BitVec 32) (m buffer : Memory UInt8)

def ReadsBack : Prop :=
  d.bread (d.bwrite m start n buffer).2 start n = (n, buffer.read 0 (n.toNat * 512))

def KeepsOutside : Prop :=
  ∀ i, i < start.toNat * 512 ∨ (start.toNat + n.toNat) * 512 ≤ i → (d.bwrite m start n buffer).2 i = m i

def SamePaths : Prop :=
  d.bwriteChunked m start n buffer = d.bwriteNonchunked m start n buffer

/-- Both requests of `ramtron_ioctl` tell the same number of bytes. -/
def SameCapacity : Prop :=
  d.partinfo.1 * d.partinfo.2 = d.geometry.neraseblocks * d.geometry.erasesize

structure RoundTrips : Prop where
  readsBack : d.ReadsBack start n m buffer
  keepsOutside : d.KeepsOutside start n m buffer
  samePaths : d.SamePaths start n m buffer
  sameCapacity : d.SameCapacity

end Part

theorem readsBack_iff (hd : d ∈ parts) (h : start.toNat + n.toNat ≤ d.npages) :
    d.ReadsBack start n m buffer ↔ ∀ i < n.toNat * 512, buffer i = buffer (i % 512) := by
  have hlen : ((repeated buffer).read (start.toNat * 512) (n.toNat * 512)).length = n.toNat * 512 :=
    length_read ..
  have hread := read_write_self m (start.toNat * 512)
    ((repeated buffer).read (start.toNat * 512) (n.toNat * 512))
  rw [hlen] at hread
  have hcell (i : Nat) : repeated buffer (start.toNat * 512 + i) = buffer (i % 512) := by
    unfold repeated
    congr 1
    omega
  unfold Part.ReadsBack
  rw [bwrite_eq hd h, bread_eq hd h]
  unfold written
  rw [hread, Prod.mk.injEq, eq_self, true_and]
  constructor
  · intro hsame i hi
    have hget := congrArg (·[i]?) hsame
    rw [getElem?_read _ _ _ _ hi, getElem?_read _ _ _ _ hi, hcell, Nat.zero_add] at hget
    exact (Option.some.inj hget).symm
  · intro hsame
    refine read_shift fun i hi => ?_
    rw [hcell, Nat.zero_add, hsame i hi]

theorem keepsOutside (hd : d ∈ parts) (h : start.toNat + n.toNat ≤ d.npages) :
    d.KeepsOutside start n m buffer := by
  intro i hi
  rw [bwrite_eq hd h]
  refine write_of_not_mem ?_
  rw [length_read, ← Nat.add_mul]
  exact hi

theorem samePaths (hd : d ∈ parts) (h : start.toNat + n.toNat ≤ d.npages) : d.SamePaths start n m buffer :=
  (bwriteChunked_eq hd h).trans (bwriteNonchunked_eq hd h).symm

theorem not_sameCapacity (hd : d ∈ parts) : ¬ d.SameCapacity := by
  have hparts : ∀ d ∈ parts, 0 < d.geometry.neraseblocks := by decide
  have hpos := hparts d hd
  unfold Part.SameCapacity
  have hnone : d.partinfo.1 = 0 := Nat.mul_zero _
  rw [hnone, Nat.zero_mul]
  exact Nat.ne_of_lt (Nat.mul_pos hpos (show 0 < 512 by decide))

/-- **What is wrong on each request, and what is not.**

`buffer` is never advanced, so every block of the request gets the first block of the buffer. The number of
sectors is always given as zero. What is written stays inside the request, in chunks or not. -/
theorem never_roundTrips (hd : d ∈ parts) (h : start.toNat + n.toNat ≤ d.npages) :
    ¬ d.RoundTrips start n m buffer ∧
      (d.ReadsBack start n m buffer ↔ ∀ i < n.toNat * 512, buffer i = buffer (i % 512)) ∧
      d.KeepsOutside start n m buffer ∧ d.SamePaths start n m buffer ∧ ¬ d.SameCapacity :=
  ⟨fun hall => not_sameCapacity hd hall.sameCapacity, readsBack_iff hd h, keepsOutside hd h, samePaths hd h,
    not_sameCapacity hd⟩

def fm25v01 : Part := ⟨"FM25V01", 16 * 1024, 2, false, 512⟩

theorem never_roundTrips_fm25v01 :
    ¬ fm25v01.RoundTrips 0 2 (fun _ => 0) (fun i => if i < 512 then 1 else 2) ∧
      (fm25v01.ReadsBack 0 2 (fun _ => 0) (fun i => if i < 512 then 1 else 2) ↔
        ∀ i < 2 * 512, (if i < 512 then 1 else 2 : UInt8) = if i % 512 < 512 then 1 else 2) ∧
      fm25v01.KeepsOutside 0 2 (fun _ => 0) (fun i => if i < 512 then 1 else 2) ∧
      fm25v01.SamePaths 0 2 (fun _ => 0) (fun i => if i < 512 then 1 else 2) ∧ ¬ fm25v01.SameCapacity :=
  never_roundTrips (.head _) (by decide)

/-- Two blocks that differ do not come back, and no bytes are told of. -/
theorem not_roundTrips_fm25v01 :
    ¬ fm25v01.RoundTrips 0 2 (fun _ => 0) (fun i => if i < 512 then 1 else 2) ∧
      ¬ fm25v01.ReadsBack 0 2 (fun _ => 0) (fun i => if i < 512 then 1 else 2) ∧ ¬ fm25v01.SameCapacity := by
  refine ⟨fun hall => not_sameCapacity (.head _) hall.sameCapacity, fun hback => ?_, not_sameCapacity (.head _)⟩
  have hsecond := (readsBack_iff (.head _) (by decide)).mp hback 512 (by decide)
  exact absurd hsecond (by decide)

end Gpmx.Mtd.Ramtron
