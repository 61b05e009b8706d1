import Gpmx.Mtd.Partition
import Mathlib

/-!
# Partitions and their borders

A call on a partition should stay within the partition, and be refused when it reaches beyond.

The checks do not quite do that. `part_bytecheck` rounds the last byte up to erase blocks and
allows as many as the partition has, so the first byte after the partition passes. And the last
block or byte is stored in a signed `off_t`: a request so large that this wraps to a negative
value passes every check. `isolated_iff` says which calls are safe.
-/

namespace Gpmx.Mtd

open Infra

/-! ## What `mtd_partition` makes -/

/-- Erase blocks are whole numbers of blocks, and every byte has an `off_t`. -/
structure Geometry.Addressable (geo : Geometry) : Prop where
  blocksize_pos : 0 < geo.blocksize
  erasesize_pos : 0 < geo.erasesize
  whole : geo.erasesize % geo.blocksize = 0
  per_lt : geo.erasesize / geo.blocksize < 2 ^ 16
  size_lt : geo.neraseblocks * geo.erasesize < 2 ^ 31

def Partition.Owns (p : Partition) (i : Nat) : Prop :=
  p.firstblock * p.blocksize ≤ i ∧
    (i : Int) < (p.firstblock + p.neraseblocks * p.blkpererase) * p.blocksize

/--
The partition `p` made of a request for `nblocks` blocks from `firstblock` on: `c` erase blocks
from erase block `e` on, of `per` blocks each, none of them outside the request.
-/
structure Partition.Made (geo : Geometry) (firstblock nblocks e c per : Nat) (p : Partition) :
    Prop where
  eq : p = { firstblock := (e * per : Nat), neraseblocks := (c : Nat), blocksize := geo.blocksize,
             blkpererase := per }
  blocksize_pos : 0 < geo.blocksize
  per_pos : 0 < per
  erasesize_eq : geo.erasesize = per * geo.blocksize
  c_pos : 0 < c
  inside : (e + c) * (per * geo.blocksize) < 2 ^ 31
  first_le : firstblock ≤ e * per
  end_le : (e + c) * per ≤ firstblock + nblocks

theorem toOff_of_small {n : Int} (h0 : 0 ≤ n) (h1 : n < 2 ^ 31) : toOff n = n := by
  unfold toOff
  rw [Int.bmod_eq_of_le (by omega) (by omega)]

variable {geo : Geometry} {p : Partition} {firstblock nblocks e c per : Nat}

theorem toOff_eq (n : Int) :
    toOff n = if n % 2 ^ 32 < 2 ^ 31 then n % 2 ^ 32 else n % 2 ^ 32 - 2 ^ 32 := by
  unfold toOff
  rw [Int.bmod_def]
  rfl

theorem udiv_eq {x per : Nat} (hx : x < 2 ^ 32) :
    ((x : Int) % 2 ^ 32 / (per : Int)) = ((x / per : Nat) : Int) := by
  rw [Int.emod_eq_of_lt (by omega) (by omega), Int.natCast_ediv]

/-- **`mtd_partition` rounds the request inwards to erase blocks.** -/
theorem partition_made (hgeo : geo.Addressable) (hf : firstblock < 2 ^ 31) (hn : nblocks < 2 ^ 31)
    (h : mtdPartition geo firstblock nblocks = some p) :
    ∃ e c per, p.Made geo firstblock nblocks e c per := by
  obtain ⟨hbs, hes, hwhole, hlt, hsize⟩ := hgeo
  have hdvd : geo.erasesize = geo.erasesize / geo.blocksize * geo.blocksize :=
    (Nat.div_mul_cancel (Nat.dvd_of_mod_eq_zero hwhole)).symm
  unfold mtdPartition at h
  generalize geo.erasesize / geo.blocksize = per at *
  have hpos : 0 < per := by
    rcases Nat.eq_zero_or_pos per with h0 | h0
    · rw [h0, Nat.zero_mul] at hdvd
      omega
    · exact h0
  -- both quotients, as naturals
  have hstart : ((firstblock : Int) + per - 1) % 2 ^ 32 / (per : Int)
      = (((firstblock + (per - 1)) / per : Nat) : Int) := by
    rw [← udiv_eq (by omega)]
    congr 2
    omega
  have hend : ((firstblock : Int) + nblocks) % 2 ^ 32 / (per : Int)
      = (((firstblock + nblocks) / per : Nat) : Int) := by
    rw [← udiv_eq (by omega), Int.natCast_add]
  have hroundup : firstblock ≤ (firstblock + (per - 1)) / per * per := by
    have := @Nat.lt_div_mul_add (firstblock + (per - 1)) per hpos
    omega
  have hrounddown : (firstblock + nblocks) / per * per ≤ firstblock + nblocks :=
    Nat.div_mul_le_self _ _
  have he0 : (firstblock + (per - 1)) / per ≤ firstblock := by
    rw [← Nat.lt_succ_iff, Nat.div_lt_iff_lt_mul hpos, Nat.succ_mul]
    have := Nat.le_mul_of_pos_right firstblock hpos
    omega
  simp only [hstart, hend] at h
  generalize (firstblock + (per - 1)) / per = e0 at *
  have he1 : (firstblock + nblocks) / per < 2 ^ 32 :=
    Nat.lt_of_le_of_lt (Nat.div_le_self _ _) (by omega)
  generalize (firstblock + nblocks) / per = e1 at *
  rw [toOff_of_small (show (0 : Int) ≤ e0 by omega) (by omega)] at h
  split at h
  · cases h
  · rename_i hlt'
    split at h
    · cases h
    · rename_i hle
      -- an end that does not fit `off_t` is negative, and was refused by the first test
      have he1' : e1 < 2 ^ 31 := by
        rw [toOff_eq] at hlt'
        split at hlt' <;> omega
      rw [toOff_of_small (show (0 : Int) ≤ e1 by omega) (by omega)] at h hlt' hle
      have hle' : e1 ≤ geo.neraseblocks := by omega
      have hlt'' : e0 < e1 := by omega
      have hin : e1 * (per * geo.blocksize) < 2 ^ 31 := by
        rw [← hdvd]
        exact Nat.lt_of_le_of_lt (Nat.mul_le_mul_right _ hle') hsize
      have hfirst : e0 * per < 2 ^ 31 := by
        refine Nat.lt_of_le_of_lt ?_ hin
        exact Nat.mul_le_mul (Nat.le_of_lt hlt'') (Nat.le_mul_of_pos_right _ hbs)
      rw [Option.some.injEq] at h
      refine ⟨e0, e1 - e0, per, ?_, hbs, hpos, hdvd, by omega, ?_, hroundup, ?_⟩
      · rw [← h, ← Int.natCast_mul, toOff_of_small (by omega) (by omega), Nat.mod_eq_of_lt hlt,
          Int.natCast_sub (Nat.le_of_lt hlt'')]
      · rw [show e0 + (e1 - e0) = e1 by omega]
        exact hin
      · rw [show e0 + (e1 - e0) = e1 by omega]
        exact hrounddown

theorem Partition.Made.owns_iff (h : p.Made geo firstblock nblocks e c per) (i : Nat) :
    p.Owns i ↔ e * per * geo.blocksize ≤ i ∧ i < (e + c) * per * geo.blocksize := by
  unfold Partition.Owns
  rw [h.eq]
  simp only
  rw [Nat.add_mul e c per, ← Int.natCast_mul, ← Int.natCast_mul, ← Int.natCast_add,
    ← Int.natCast_mul, Int.ofNat_le, Int.ofNat_lt]

theorem Partition.Made.disjoint {q : Partition} {firstblock' nblocks' e' c' per' : Nat}
    (hp : p.Made geo firstblock nblocks e c per)
    (hq : q.Made geo firstblock' nblocks' e' c' per')
    (hdisj : firstblock + nblocks ≤ firstblock' ∨ firstblock' + nblocks' ≤ firstblock) :
    ∀ i, p.Owns i → ¬q.Owns i := by
  intro i hpi hqi
  obtain ⟨hp1, hp2⟩ := (hp.owns_iff i).mp hpi
  obtain ⟨hq1, hq2⟩ := (hq.owns_iff i).mp hqi
  rcases hdisj with hd | hd
  · have := Nat.mul_le_mul_right geo.blocksize
      (Nat.le_trans hp.end_le (Nat.le_trans hd hq.first_le))
    omega
  · have := Nat.mul_le_mul_right geo.blocksize
      (Nat.le_trans hq.end_le (Nat.le_trans hd hp.first_le))
    omega

/-! ## What the checks let through -/

theorem blockcheck_iff (h : p.Made geo firstblock nblocks e c per) (x : Int) :
    partBlockcheck p (toOff x) = true ↔
      ¬(p.neraseblocks * p.blkpererase ≤ x % 2 ^ 32 ∧ x % 2 ^ 32 < 2 ^ 31) := by
  have hsmall : c * per < 2 ^ 31 := by
    refine Nat.lt_of_le_of_lt ?_ h.inside
    exact Nat.mul_le_mul (Nat.le_add_left c e) (Nat.le_mul_of_pos_right _ h.blocksize_pos)
  unfold partBlockcheck
  rw [h.eq, decide_eq_true_iff]
  simp only
  rw [← Int.natCast_mul, toOff_of_small (n := ((c * per : Nat) : Int)) (by omega) (by omega),
    toOff_eq]
  split <;> omega

theorem tdiv_nonpos_of_lt {v d : Int} (hd : 0 < d) (h : v < d) : v.tdiv d ≤ 0 := by
  by_cases hv : v < 0
  · have := Int.tdiv_nonneg (show 0 ≤ -v by omega) (Int.le_of_lt hd)
    rw [Int.neg_tdiv] at this
    omega
  · rw [Int.tdiv_eq_zero_of_lt (by omega) h]

theorem bytecheck_iff (h : p.Made geo firstblock nblocks e c per) (x : Int) :
    partBytecheck p (toOff x) = true ↔
      ¬(p.neraseblocks * p.blkpererase * p.blocksize < x % 2 ^ 32 ∧
        x % 2 ^ 32 + p.blkpererase * p.blocksize ≤ 2 ^ 31) := by
  have hsize : c * (per * geo.blocksize) < 2 ^ 31 :=
    Nat.lt_of_le_of_lt (Nat.mul_le_mul_right _ (Nat.le_add_left c e)) h.inside
  have hespos : 0 < per * geo.blocksize := Nat.mul_pos h.per_pos h.blocksize_pos
  have heslt : per * geo.blocksize ≤ c * (per * geo.blocksize) := Nat.le_mul_of_pos_left _ h.c_pos
  unfold partBytecheck
  rw [h.eq, decide_eq_true_iff]
  simp only
  rw [← Int.natCast_mul, ← Int.natCast_mul, ← Int.natCast_mul, ← Int.natCast_mul,
    Nat.mul_comm geo.blocksize per, Nat.mul_assoc c]
  generalize per * geo.blocksize = es at *
  rw [toOff_of_small (n := (es : Int)) (by omega) (by omega)]
  have hx0 : 0 ≤ x % 2 ^ 32 := Int.emod_nonneg _ (by decide)
  have hx1 : x % 2 ^ 32 < 2 ^ 32 := Int.emod_lt_of_pos _ (by decide)
  rw [toOff_eq x]
  generalize x % 2 ^ 32 = l at *
  have hes : (0 : Int) < es := by omega
  by_cases hw : l + es ≤ 2 ^ 31
  · rw [if_pos (by omega), toOff_of_small (by omega) (by omega),
      Int.tdiv_eq_ediv_of_nonneg (by omega), ← Int.lt_add_one_iff, Int.ediv_lt_iff_lt_mul hes,
      Int.add_mul, ← Int.natCast_mul]
    omega
  · -- the sum wraps, and what is left of it is no whole erase block
    have hv : toOff ((if l < 2 ^ 31 then l else l - 2 ^ 32) + es - 1) < es := by
      rw [toOff_eq]
      split <;> split <;> omega
    have := tdiv_nonpos_of_lt hes hv
    omega

/-! ## Calls -/

inductive Call where
  | erase (startblock nblocks : Nat)
  | bread (startblock nblocks : Nat)
  | bwrite (startblock nblocks : Nat) (buf : List UInt8)
  | read (offset nbytes : Nat)
  | write (offset nbytes : Nat) (buffer : List UInt8)

namespace Call

/-- The call, made on partition `p` of `parent`. -/
def run (parent : MtdDev geo) (p : Partition) : Call → Method UInt8
  | erase startblock nblocks => partErase parent p startblock nblocks
  | bread startblock nblocks => partBread parent p startblock nblocks
  | bwrite startblock nblocks buf => partBwrite parent p startblock nblocks buf
  | read offset nbytes => partRead parent p offset nbytes
  | write offset nbytes buffer => partWrite parent p offset nbytes buffer

def start : Call → Nat
  | erase startblock _ | bread startblock _ | bwrite startblock _ _ => startblock
  | read offset _ | write offset _ _ => offset

def count : Call → Nat
  | erase _ nblocks | bread _ nblocks | bwrite _ nblocks _ => nblocks
  | read _ nbytes | write _ nbytes _ => nbytes

def limit (p : Partition) : Call → Int
  | erase _ _ => p.neraseblocks
  | bread _ _ | bwrite _ _ _ => p.neraseblocks * p.blkpererase
  | read _ _ | write _ _ _ => p.neraseblocks * p.blkpererase * p.blocksize

def Beyond (p : Partition) (call : Call) : Prop :=
  0 < call.count ∧ call.limit p < (call.start + call.count : Nat)

/--
The last unit of the request is one that the check refuses: a block at or beyond the end, or a
byte beyond the one after the end, with no sum on the way that wraps around.
-/
def Refused (p : Partition) : Call → Prop
  | erase startblock nblocks =>
    p.neraseblocks * p.blkpererase
        ≤ ((startblock + nblocks - 1 : Int) * p.blkpererase) % 2 ^ 32 ∧
      ((startblock + nblocks - 1 : Int) * p.blkpererase) % 2 ^ 32 < 2 ^ 31
  | bread startblock nblocks | bwrite startblock nblocks _ =>
    p.neraseblocks * p.blkpererase ≤ (startblock + nblocks - 1 : Int) % 2 ^ 32 ∧
      (startblock + nblocks - 1 : Int) % 2 ^ 32 < 2 ^ 31
  | read offset nbytes | write offset nbytes _ =>
    p.neraseblocks * p.blkpererase * p.blocksize < (offset + nbytes - 1 : Int) % 2 ^ 32 ∧
      (offset + nbytes - 1 : Int) % 2 ^ 32 + p.blkpererase * p.blocksize ≤ 2 ^ 31

/-- If the request reaches beyond the partition, the check sees it. -/
def Confined (p : Partition) (call : Call) : Prop := call.Beyond p → call.Refused p

end Call

/--
The call stays within the bytes of the partition, and a request that reaches beyond is
refused and changes nothing.
-/
structure Isolated (parent : MtdDev geo) (p : Partition) (call : Call) : Prop where
  stays : Local p.Owns (call.run parent p)
  refused : call.Beyond p → ∀ m, (call.run parent p m).ret < 0 ∧ (call.run parent p m).mem = m

variable {n start i : Nat} {call : Call}

theorem inUnits_shifted {size base limit : Nat} (hlt : base + limit < 2 ^ 31)
    (hin : n = 0 ∨ start + n ≤ limit) (h : InUnits size (toOff (start + base)) n i) :
    base * size ≤ i ∧ i < (base + limit) * size := by
  obtain ⟨h1, h2⟩ := h
  rcases hin with rfl | hin
  · rw [Int.natCast_zero, Int.add_zero] at h2
    omega
  · rw [toOff_of_small (by omega) (by omega)] at h1 h2
    rw [← Int.natCast_add, ← Int.natCast_mul, Int.ofNat_le] at h1
    rw [← Int.natCast_add, ← Int.natCast_add, ← Int.natCast_mul, Int.ofNat_lt] at h2
    refine ⟨Nat.le_trans (Nat.mul_le_mul_right size (Nat.le_add_left base start)) h1, ?_⟩
    refine Nat.lt_of_lt_of_le h2 (Nat.mul_le_mul_right size ?_)
    omega

section

variable (h : p.Made geo firstblock nblocks e c per)
include h

theorem Call.run_refused (parent : MtdDev geo)
    (hr : call.Refused p) : ∃ errno > 0, call.run parent p = refuse errno := by
  cases call with
  | erase startblock nblocks | bread startblock nblocks | bwrite startblock nblocks buf =>
    refine ⟨ ENXIO, by decide, if_neg fun hc => ?_⟩
    exact (blockcheck_iff h _).mp hc hr
  | read offset nbytes =>
    show ∃ errno > 0, partRead parent p offset nbytes = _
    unfold partRead
    cases parent.read with
    | none => exact ⟨ENOSYS, by decide, rfl⟩
    | some read =>
      refine ⟨ ENXIO, by decide, if_neg fun hc => ?_⟩
      exact (bytecheck_iff h _).mp hc hr
  | write offset nbytes buffer =>
    show ∃ errno > 0, partWrite parent p offset nbytes buffer = _
    unfold partWrite
    cases parent.write with
    | none => exact ⟨ENOSYS, by decide, rfl⟩
    | some write =>
      refine ⟨ ENXIO, by decide, if_neg fun hc => ?_⟩
      exact (bytecheck_iff h _).mp hc hr

theorem Partition.Made.bytes_lt : e * per * geo.blocksize + c * per * geo.blocksize < 2 ^ 31 := by
  have := h.inside
  rw [← Nat.mul_assoc, Nat.add_mul, Nat.add_mul] at this
  exact this

theorem Partition.Made.blocks_lt : e * per + c * per < 2 ^ 31 := by
  have h0 := h.bytes_lt
  have h1 := Nat.le_mul_of_pos_right (e * per) h.blocksize_pos
  have h2 := Nat.le_mul_of_pos_right (c * per) h.blocksize_pos
  omega

theorem Partition.Made.erase_owned (hin : n = 0 ∨ start + n ≤ c)
    (hi : InUnits geo.erasesize (toOff (start + p.firstblock.tdiv p.blkpererase)) n i) :
    p.Owns i := by
  have hper : (per : Int) ≠ 0 := by
    have := h.per_pos
    omega
  have hlt : e + c < 2 ^ 31 := by
    have h0 := h.blocks_lt
    have h1 := Nat.le_mul_of_pos_right e h.per_pos
    have h2 := Nat.le_mul_of_pos_right c h.per_pos
    omega
  have hoff : p.firstblock.tdiv p.blkpererase = e := by
    rw [h.eq]
    show ((e * per : Nat) : Int).tdiv per = e
    rw [Int.natCast_mul, Int.mul_tdiv_cancel _ hper]
  rw [hoff] at hi
  have := inUnits_shifted hlt hin hi
  rw [h.erasesize_eq, ← Nat.mul_assoc, ← Nat.mul_assoc] at this
  exact (h.owns_iff i).mpr this

theorem Partition.Made.block_owned (hin : n = 0 ∨ start + n ≤ c * per)
    (hi : InUnits geo.blocksize (toOff (start + p.firstblock)) n i) : p.Owns i := by
  have hoff : p.firstblock = (e * per : Nat) := by rw [h.eq]
  rw [hoff] at hi
  have := inUnits_shifted h.blocks_lt hin hi
  rw [← Nat.add_mul e c per] at this
  exact (h.owns_iff i).mpr this

theorem Partition.Made.byte_owned (hin : n = 0 ∨ start + n ≤ c * per * geo.blocksize)
    (hi : InUnits 1 (toOff (start + toOff (p.firstblock * p.blocksize))) n i) : p.Owns i := by
  have hlt := h.bytes_lt
  have hoff : toOff (p.firstblock * p.blocksize) = (e * per * geo.blocksize : Nat) := by
    rw [h.eq]
    show toOff (((e * per : Nat) : Int) * geo.blocksize) = _
    rw [← Int.natCast_mul]
    exact toOff_of_small (by omega) (by omega)
  rw [hoff] at hi
  have := inUnits_shifted hlt hin hi
  rw [Nat.mul_one, Nat.mul_one, ← Nat.add_mul, ← Nat.add_mul] at this
  exact (h.owns_iff i).mpr this

theorem Partition.Made.limit_eq (call : Call) : call.limit p = match call with
      | .erase _ _ => (c : Int)
      | .bread _ _ | .bwrite _ _ _ => (c * per : Nat)
      | .read _ _ | .write _ _ _ => (c * per * geo.blocksize : Nat) := by
  rw [h.eq]
  cases call <;> simp only [Call.limit, Int.natCast_mul]

theorem Call.run_local (parent : MtdDev geo)
    (hb : ¬call.Beyond p) : Local p.Owns (call.run parent p) := by
  have hin : call.count = 0 ∨ ((call.start + call.count : Nat) : Int) ≤ call.limit p := by
    unfold Call.Beyond at hb
    omega
  rw [h.limit_eq call] at hin
  cases call with
  | erase startblock nblocks =>
    show Local _ (partErase parent p startblock nblocks)
    unfold partErase
    split
    · exact (parent.erase_local _ _).mono fun i => h.erase_owned (hin.imp_right Int.ofNat_le.mp)
    · exact local_refuse _ _
  | bread startblock nblocks =>
    show Local _ (partBread parent p startblock nblocks)
    unfold partBread
    split
    · exact (parent.bread_local _ _).mono fun i => h.block_owned (hin.imp_right Int.ofNat_le.mp)
    · exact local_refuse _ _
  | bwrite startblock nblocks buf =>
    show Local _ (partBwrite parent p startblock nblocks buf)
    unfold partBwrite
    split
    · exact (parent.bwrite_local _ _ _).mono fun i =>
        h.block_owned (hin.imp_right Int.ofNat_le.mp)
    · exact local_refuse _ _
  | read offset nbytes =>
    show Local _ (partRead parent p offset nbytes)
    unfold partRead
    cases hread : parent.read with
    | none => exact local_refuse _ _
    | some read =>
      simp only
      split
      · exact (parent.read_local read hread _ _).mono fun i =>
          h.byte_owned (hin.imp_right Int.ofNat_le.mp)
      · exact local_refuse _ _
  | write offset nbytes buffer =>
    show Local _ (partWrite parent p offset nbytes buffer)
    unfold partWrite
    cases hwrite : parent.write with
    | none => exact local_refuse _ _
    | some write =>
      simp only
      split
      · exact (parent.write_local write hwrite _ _ _).mono fun i =>
          h.byte_owned (hin.imp_right Int.ofNat_le.mp)
      · exact local_refuse _ _

end

/-! ## The exact condition -/

def idleMethod (n : Nat) : Method UInt8 := fun m => ⟨n, [], m⟩

theorem local_idle (F : Nat → Prop) (n : Nat) : Local F (idleMethod n) :=
  ⟨fun _ _ _ => rfl, fun _ _ hag => ⟨rfl, rfl, hag⟩⟩

def idleDev (geo : Geometry) : MtdDev geo where
  erase _ n := idleMethod n
  bread _ n := idleMethod n
  bwrite _ n _ := idleMethod n
  read := some fun _ n => idleMethod n
  write := some fun _ n _ => idleMethod n
  erase_local _ _ := local_idle _ _
  bread_local _ _ := local_idle _ _
  bwrite_local _ _ _ := local_idle _ _
  read_local f hf _ _ := by
    cases hf
    exact local_idle _ _
  write_local f hf _ _ _ := by
    cases hf
    exact local_idle _ _

theorem Call.run_idle (h : p.Made geo firstblock nblocks e c per) (hr : ¬call.Refused p)
    (m : Memory UInt8) : 0 ≤ (call.run (idleDev geo) p m).ret := by
  cases call with
  | erase startblock nblocks =>
    show 0 ≤ (partErase (idleDev geo) p startblock nblocks m).ret
    rw [partErase, if_pos ((blockcheck_iff h _).mpr hr)]
    exact Int.natCast_nonneg _
  | bread startblock nblocks =>
    show 0 ≤ (partBread (idleDev geo) p startblock nblocks m).ret
    rw [partBread, if_pos ((blockcheck_iff h _).mpr hr)]
    exact Int.natCast_nonneg _
  | bwrite startblock nblocks buf =>
    show 0 ≤ (partBwrite (idleDev geo) p startblock nblocks buf m).ret
    rw [partBwrite, if_pos ((blockcheck_iff h _).mpr hr)]
    exact Int.natCast_nonneg _
  | read offset nbytes =>
    show 0 ≤ (partRead (idleDev geo) p offset nbytes m).ret
    simp only [partRead, idleDev]
    rw [if_pos ((bytecheck_iff h _).mpr hr)]
    exact Int.natCast_nonneg _
  | write offset nbytes buffer =>
    show 0 ≤ (partWrite (idleDev geo) p offset nbytes buffer m).ret
    simp only [partWrite, idleDev]
    rw [if_pos ((bytecheck_iff h _).mpr hr)]
    exact Int.natCast_nonneg _

/--
**A call on a partition is isolated exactly when a request that reaches beyond the partition is
one the check refuses.**

Isolated means, on every parent with that geometry: the call stays within the partition, a
request beyond it is refused and changes nothing, and no partition made of another, disjoint
range is touched.
-/
theorem isolated_iff (hgeo : geo.Addressable) (hf : firstblock < 2 ^ 31) (hn : nblocks < 2 ^ 31)
    (hp : mtdPartition geo firstblock nblocks = some p) {call : Call} :
    (∀ parent : MtdDev geo, Isolated parent p call ∧
        ∀ firstblock' nblocks' : Nat, firstblock' < 2 ^ 31 → nblocks' < 2 ^ 31 →
          firstblock + nblocks ≤ firstblock' ∨ firstblock' + nblocks' ≤ firstblock →
          ∀ q, mtdPartition geo firstblock' nblocks' = some q →
            Untouched q.Owns (call.run parent p)) ↔
      call.Confined p := by
  obtain ⟨e, c, per, h⟩ := partition_made hgeo hf hn hp
  constructor
  · intro hiso hb
    by_contra hr
    have hret := ((hiso (idleDev geo)).1.refused hb (fun _ => 0)).1
    have := Call.run_idle h hr (fun _ => 0)
    omega
  · intro hconf parent
    have hlocal : Local p.Owns (call.run parent p) := by
      by_cases hb : call.Beyond p
      · obtain ⟨errno, -, hrun⟩ := Call.run_refused h parent (hconf hb)
        rw [hrun]
        exact local_refuse _ _
      · exact Call.run_local h parent hb
    refine ⟨⟨hlocal, ?_⟩, ?_⟩
    · intro hb m
      obtain ⟨errno, hpos, hrun⟩ := Call.run_refused h parent (hconf hb)
      rw [hrun]
      refine ⟨?_, rfl⟩
      show -errno < 0
      omega
    · intro firstblock' nblocks' hf' hn' hdisj q hq
      obtain ⟨e', c', per', h'⟩ := partition_made hgeo hf' hn' hq
      exact hlocal.untouched (h.disjoint h' hdisj)

/-! ## Two partitions side by side -/

def tinyGeo : Geometry := { blocksize := 1, erasesize := 2, neraseblocks := 4 }

def tinyLow : Partition := { firstblock := 0, neraseblocks := 2, blocksize := 1, blkpererase := 2 }

def tinyHigh : Partition := { firstblock := 4, neraseblocks := 2, blocksize := 1, blkpererase := 2 }

theorem tinyGeo_addressable : tinyGeo.Addressable :=
  ⟨by decide, by decide, by decide, by decide, by decide⟩

/-- A read inside the lower half is isolated, on plain memory too. -/
theorem isolated_iff_tinyLow : Isolated (ramDev tinyGeo) tinyLow (.read 1 2) := by
  have hconf : (Call.read 1 2).Confined tinyLow := by
    intro hb
    exact absurd hb.2 (by decide)
  have hmade : mtdPartition tinyGeo (0 : Nat) (4 : Nat) = some tinyLow := by decide
  exact ((isolated_iff tinyGeo_addressable (by decide) (by decide) hmade).mpr hconf
    (ramDev tinyGeo)).1

/--
The byte after the lower half passes its check: reading it returns a byte of the upper half, and
writing it changes one.
-/
theorem byteAfterEnd_not_isolated :
    mtdPartition tinyGeo 0 4 = some tinyLow ∧ mtdPartition tinyGeo 4 4 = some tinyHigh ∧
      ¬Isolated (ramDev tinyGeo) tinyLow (.read 4 1) ∧
      ¬Untouched tinyHigh.Owns ((Call.read 4 1).run (ramDev tinyGeo) tinyLow) ∧
      ¬Untouched tinyHigh.Owns ((Call.write 4 1 [9]).run (ramDev tinyGeo) tinyLow) := by
  have hown : tinyHigh.Owns 4 := by
    unfold Partition.Owns
    decide
  refine ⟨by decide, by decide, ?_, ?_, ?_⟩
  · intro h
    have hb : (Call.read 4 1).Beyond tinyLow := by
      unfold Call.Beyond
      decide
    exact absurd (h.refused hb fun _ => 0).1 (by decide)
  · intro h
    have hdata := (h.congr (fun _ => 0) (fun i => if i = 4 then 1 else 0) ?_).2
    · exact absurd hdata (by decide)
    · intro i hi
      have hne : i ≠ 4 := fun h4 => hi (h4 ▸ hown)
      exact (if_neg hne).symm
  · intro h
    exact absurd (h.frame (fun _ => 0) 4 hown) (by decide)

end Gpmx.Mtd
