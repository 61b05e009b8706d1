import Gpmx.Dloader.Lib

/-!
# What a load writes and what it leaves

* `Layout` — the segments in their region before relocation
* `Loads` — a call that writes only into the region, places the segments there, and frees everything when
  it fails
* `loads_iff` — exactly when: the offset of a relocation is not checked, and the region of a load that
  fails is not freed
-/

namespace Gpmx.Dloader

open Infra Mm List

variable {lib memory m : ByteMem} {pool pool' : MemPool} {handle : DlHandler} {phdr : Elf32Phdr}
  {rel : Elf32Rel} {sym : Elf32Sym} {span : Span} {raw memPtr : BitVec 32}

/-! ## What a load is to do -/

structure Layout (lib : ByteMem) (region : Region) : Prop where
  noWrap : ∀ phdr ∈ loadPhdrs (elfPhdrs lib), phdr.pVaddr.toNat + phdr.pMemsz.toNat < 2 ^ 32
  fits : ∀ phdr ∈ loadPhdrs (elfPhdrs lib),
    (phdr.pVaddr - region.handle.vstartAddr).toNat + phdr.pMemsz.toNat ≤ region.handle.memSize.toNat
  disjoint : (loadPhdrs (elfPhdrs lib)).Pairwise fun phdr next =>
    (phdr.pVaddr - region.handle.vstartAddr).toNat + phdr.pMemsz.toNat ≤
      (next.pVaddr - region.handle.vstartAddr).toNat
  file : ∀ phdr ∈ loadPhdrs (elfPhdrs lib), ∀ k : BitVec 32, k < phdr.pFilesz →
    region.memory (region.handle.memPtr + (phdr.pVaddr - region.handle.vstartAddr) + k) =
      lib (phdr.pOffset + k)
  zero : ∀ phdr ∈ loadPhdrs (elfPhdrs lib), ∀ k : BitVec 32, phdr.pFilesz ≤ k → k < phdr.pMemsz →
    region.memory (region.handle.memPtr + (phdr.pVaddr - region.handle.vstartAddr) + k) = 0

/-- A load that writes only into its region; when it fails, the pool is as before. -/
def Loads (lib memory : ByteMem) (pool : MemPool) : Prop :=
  match dlLoadLib lib memory pool with
  | .wild => False
  | .fail (_, pool') => pool' = pool
  | .ok _ => ∃ region, prepare lib memory pool = .ok region ∧ Layout lib region

/-! ## When it does -/

/-- The header and the segments are accepted, and there is memory for the region. -/
structure Allocates (lib : ByteMem) (pool : MemPool) (span : Span) (raw memPtr : BitVec 32)
    (pool' : MemPool) : Prop where
  header : headerErr lib = none
  accepted : spanOf none (elfPhdrs lib) = .ok (some span)
  size : span.memSize ≠ 0
  alloc : dlPortAlignedAlloc pool span.maxAlign span.memSize = some (raw, memPtr, pool')

def reach : RelType → Nat
  | .thmCall | .thmJump24 => 10
  | _ => 4

def Fits (handle : DlHandler) (rel : Elf32Rel) : Prop :=
  elf32RType rel.rInfo = .none ∨
    (rel.rOffset - handle.vstartAddr).toNat + reach (elf32RType rel.rInfo) ≤ handle.memSize.toNat

instance (handle : DlHandler) (rel : Elf32Rel) : Decidable (Fits handle rel) :=
  inferInstanceAs (Decidable (_ ∨ _))

def Relocatable (handle : DlHandler) : ByteMem → List (Elf32Rel × Elf32Sym) → Prop
  | _, [] => True
  | m, (rel, sym) :: rest =>
    sym.resolved ∧ (dlRelocate handle m rel (symAddr handle sym)).1 = .noErr ∧ Fits handle rel ∧
      Relocatable handle (Store.run m (dlRelocate handle m rel (symAddr handle sym)).2) rest

def Available : MemPool → List (BitVec 32) → Prop
  | _, [] => True
  | pool, size :: rest => size.toNat + 15 < 2 ^ 32 ∧
    ∃ ptr pool', dlPortMalloc pool size = some (ptr, pool') ∧ Available pool' rest

def symtabSizes (lib : ByteMem) : List (BitVec 32) :=
  match dynsym lib with
  | none => []
  | some dynsym =>
    let syms := functions lib dynsym
    if syms.length = 0 then [] else BitVec.ofNat 32 (syms.length * 8) :: syms.map (nameLength lib dynsym)

/-- The region and its alignment do not wrap, every relocation is accepted and stays in the region, and
there is memory for the symbols. -/
structure Clean (lib memory : ByteMem) (span : Span) (raw memPtr : BitVec 32) (pool : MemPool) : Prop where
  size : span.memSize.toNat + (alignment span.maxAlign).toNat + 18 < 2 ^ 32
  relocatable : Relocatable (span.handle memPtr) (copied (span.handle memPtr) raw lib memory)
    (relocations lib)
  available : Available pool (symtabSizes lib)

/-! ## The segments -/

structure Ordered (low high : Nat) (phdrs : List Elf32Phdr) : Prop where
  low : ∀ phdr ∈ phdrs, low ≤ phdr.pVaddr.toNat
  high : ∀ phdr ∈ phdrs, phdr.pVaddr.toNat + phdr.pMemsz.toNat ≤ high
  file : ∀ phdr ∈ phdrs, phdr.pFilesz.toNat ≤ phdr.pMemsz.toNat
  sorted : phdrs.Pairwise fun phdr next => phdr.pVaddr.toNat + phdr.pMemsz.toNat ≤ next.pVaddr.toNat

variable {high : Nat} {rest : List Elf32Phdr} {k a size ptr : BitVec 32}

theorem Ordered.cons {low : Nat} (hlow : low ≤ phdr.pVaddr.toNat)
    (hfile : phdr.pFilesz.toNat ≤ phdr.pMemsz.toNat)
    (hhigh : phdr.pVaddr.toNat + phdr.pMemsz.toNat ≤ high)
    (h : Ordered (phdr.pVaddr.toNat + phdr.pMemsz.toNat) high rest) :
    Ordered low high (phdr :: rest) := by
  refine ⟨forall_mem_cons.mpr ⟨hlow, fun p hp => ?_⟩, forall_mem_cons.mpr ⟨hhigh, h.high⟩,
    forall_mem_cons.mpr ⟨hfile, h.file⟩, pairwise_cons.mpr ⟨h.low, h.sorted⟩⟩
  have hle := h.low p hp
  omega

theorem loadPhdrs_skip (h : phdr.pType ≠ 1) :
    loadPhdrs (phdr :: rest) = loadPhdrs rest :=
  filter_cons_of_neg (by simpa using h)

theorem loadPhdrs_keep (h : ¬ phdr.pType ≠ 1) :
    loadPhdrs (phdr :: rest) = phdr :: loadPhdrs rest :=
  filter_cons_of_pos (by simpa using h)

variable {phdrs : List Elf32Phdr} {α : Type} {symtab : List DlSymbol} {rest : List (BitVec 32)}
    {p : BitVec 32}

theorem spanOf_some {start result : Span} (h : spanOf (some start) phdrs = .ok (some result)) :
    result.vstartAddr = start.vstartAddr ∧
      start.vendAddr.toNat ≤ result.vendAddr.toNat ∧
      Ordered start.vendAddr.toNat result.vendAddr.toNat (loadPhdrs phdrs) := by
  induction phdrs generalizing start with
  | nil =>
    cases h
    exact ⟨rfl, Nat.le_refl _, ⟨by simp [loadPhdrs], by simp [loadPhdrs], by simp [loadPhdrs], .nil⟩⟩
  | cons phdr rest ih =>
    unfold spanOf at h
    dsimp only at h
    split_ifs at h with hload hfile hsorted hwrap
    · rw [loadPhdrs_skip hload]
      exact ih h
    all_goals
      obtain ⟨h1, h2, h3⟩ := ih h
      dsimp only at hsorted hwrap h1 h2 h3
      have hend : (phdr.pVaddr + phdr.pMemsz).toNat = phdr.pVaddr.toNat + phdr.pMemsz.toNat := by
        bv_omega
      rw [hend] at h2 h3
      rw [loadPhdrs_keep hload]
      refine ⟨h1, by bv_omega, Ordered.cons (by bv_omega) (by bv_omega) h2 h3⟩

theorem spanOf_none (h : spanOf none phdrs = .ok (some span)) :
    span.vstartAddr.toNat ≤ span.vendAddr.toNat ∧
      Ordered span.vstartAddr.toNat span.vendAddr.toNat (loadPhdrs phdrs) := by
  induction phdrs with
  | nil => cases h
  | cons phdr rest ih =>
    unfold spanOf at h
    dsimp only at h
    split_ifs at h with hload hfile hwrap
    · rw [loadPhdrs_skip hload]
      exact ih h
    · obtain ⟨h1, h2, h3⟩ := spanOf_some h
      dsimp only at hwrap h1 h2 h3
      have hend : (phdr.pVaddr + phdr.pMemsz).toNat = phdr.pVaddr.toNat + phdr.pMemsz.toNat := by
        bv_omega
      rw [hend] at h2 h3
      rw [loadPhdrs_keep hload, h1]
      exact ⟨by omega, Ordered.cons (Nat.le_refl _) (by bv_omega) h2 h3⟩

/-! ## The region before relocation -/

theorem table_length (entry : BitVec 32 → α) (n : Nat) : (table entry n).length = n := by
  unfold table
  rw [length_map, length_range]

theorem copySegment_length : (copySegment handle lib phdr).bytes.length = phdr.pFilesz.toNat := by
  show (table (fun k => lib (phdr.pOffset + k)) phdr.pFilesz.toNat).length = phdr.pFilesz.toNat
  exact table_length _ _

theorem copySegments_inside (h : Ordered handle.vstartAddr.toNat high (loadPhdrs (elfPhdrs lib)))
    (hsize : handle.vstartAddr.toNat + handle.memSize.toNat = high) :
    ∀ s ∈ copySegments handle lib, Inside handle s := by
  intro s hs
  obtain ⟨phdr, hphdr, rfl⟩ := mem_map.mp hs
  refine (Store.within_iff_le handle.memSize.isLt).mp (.inr ?_)
  rw [copySegment_length]
  have hlow := h.low phdr hphdr
  have hhigh := h.high phdr hphdr
  have hfile := h.file phdr hphdr
  show (handle.memPtr + phdr.pVaddr - handle.vstartAddr - handle.memPtr).toNat + _ ≤ _
  rw [show handle.memPtr + phdr.pVaddr - handle.vstartAddr - handle.memPtr =
    phdr.pVaddr - handle.vstartAddr by grind, BitVec.toNat_sub_of_le (BitVec.le_def.mpr hlow)]
  omega

theorem not_writes_other {next : Elf32Phdr} {x : BitVec 32}
    (hx : handle.memPtr + (phdr.pVaddr - handle.vstartAddr) + k = x) (hk : k < phdr.pMemsz)
    (hphdr : phdr.pVaddr.toNat + phdr.pMemsz.toNat ≤ 2 ^ 32)
    (hnext : next.pVaddr.toNat + next.pMemsz.toNat ≤ 2 ^ 32)
    (hfile : next.pFilesz.toNat ≤ next.pMemsz.toNat)
    (hapart : phdr.pVaddr.toNat + phdr.pMemsz.toNat ≤ next.pVaddr.toNat ∨ next.pVaddr.toNat + next.pMemsz.toNat ≤ phdr.pVaddr.toNat) :
    ¬ (copySegment handle lib next).Writes x := by
  unfold Store.Writes
  rw [copySegment_length]
  show ¬ (x - (handle.memPtr + next.pVaddr - handle.vstartAddr)).toNat < _
  rw [show x - (handle.memPtr + next.pVaddr - handle.vstartAddr) =
    phdr.pVaddr + k - next.pVaddr by grind]
  have hk := BitVec.lt_def.mp hk
  rw [BitVec.toNat_sub, BitVec.toNat_add]
  obtain hapart | hapart := hapart <;> omega

theorem copied_eq (handle : DlHandler) (raw : BitVec 32) (memory : ByteMem)
    (h : Ordered handle.vstartAddr.toNat high (loadPhdrs (elfPhdrs lib))) (hhigh : high ≤ 2 ^ 32)
    (hphdr : phdr ∈ loadPhdrs (elfPhdrs lib)) (hk : k < phdr.pMemsz) {x : BitVec 32}
    (hx : handle.memPtr + (phdr.pVaddr - handle.vstartAddr) + k = x) :
    ∃ m, copied handle raw lib memory x = (copySegment handle lib phdr).apply m x ∧
      m x = (clear handle).apply ((Store.word (handle.memPtr - 4) raw).apply memory) x := by
  obtain ⟨front, back, hsplit⟩ := append_of_mem hphdr
  have hsorted := pairwise_append.mp (hsplit ▸ h.sorted)
  have hbound (q : Elf32Phdr) (hq : q ∈ loadPhdrs (elfPhdrs lib)) :
      q.pVaddr.toNat + q.pMemsz.toNat ≤ 2 ^ 32 := Nat.le_trans (h.high q hq) hhigh
  have hfront : ∀ s ∈ front.map (copySegment handle lib), ¬ s.Writes x := by
    intro s hs
    obtain ⟨q, hq, rfl⟩ := mem_map.mp hs
    have hmem : q ∈ loadPhdrs (elfPhdrs lib) := hsplit ▸ mem_append_left _ hq
    exact not_writes_other hx hk (hbound phdr hphdr) (hbound q hmem) (h.file q hmem)
      (.inr (hsorted.2.2 q hq phdr (mem_cons_self ..)))
  have hback : ∀ s ∈ back.map (copySegment handle lib), ¬ s.Writes x := by
    intro s hs
    obtain ⟨q, hq, rfl⟩ := mem_map.mp hs
    have hmem : q ∈ loadPhdrs (elfPhdrs lib) :=
      hsplit ▸ mem_append_right _ (mem_cons_of_mem _ hq)
    exact not_writes_other hx hk (hbound phdr hphdr) (hbound q hmem) (h.file q hmem)
      (.inl ((pairwise_cons.mp hsorted.2.1).1 q hq))
  refine ⟨Store.run memory (.word (handle.memPtr - 4) raw :: clear handle ::
    front.map (copySegment handle lib)), ?_, Store.run_of_not_writes hfront⟩
  have hstores : copySegments handle lib = front.map (copySegment handle lib) ++
      copySegment handle lib phdr :: back.map (copySegment handle lib) := by
    unfold copySegments
    rw [hsplit, map_append, map_cons]
  unfold copied
  rw [hstores, ← cons_append, ← cons_append, Store.run_append]
  exact Store.run_of_not_writes hback

theorem copySegment_apply (hk : k < phdr.pFilesz) : (copySegment handle lib phdr).apply m
    (handle.memPtr + (phdr.pVaddr - handle.vstartAddr) + k) = lib (phdr.pOffset + k) := by
  have hlt : k.toNat < (copySegment handle lib phdr).bytes.length := by
    rw [copySegment_length]
    exact hk
  have hbyte := Store.apply_add (m := m) hlt k.isLt
  rw [BitVec.ofNat_toNat, BitVec.setWidth_eq] at hbyte
  rw [show handle.memPtr + (phdr.pVaddr - handle.vstartAddr) + k =
    (copySegment handle lib phdr).addr + k by unfold copySegment; grind, hbyte]
  simp [copySegment, table]

theorem clear_apply {d : BitVec 32} (hd : d < handle.memSize) :
    (clear handle).apply m (handle.memPtr + d) = 0 := by
  have hlt : d.toNat < (clear handle).bytes.length := by
    unfold clear
    rw [length_replicate]
    exact hd
  have hbyte := Store.apply_add (m := m) hlt d.isLt
  rw [BitVec.ofNat_toNat, BitVec.setWidth_eq] at hbyte
  exact hbyte.trans (getElem_replicate ..)

theorem layout (haccepted : spanOf none (elfPhdrs lib) = .ok (some span)) :
    Layout lib { handle := span.handle memPtr, memory := copied (span.handle memPtr) raw lib memory, pool } := by
  obtain ⟨hspan, hordered⟩ := spanOf_none haccepted
  have hsize : span.vstartAddr.toNat + span.memSize.toNat = span.vendAddr.toNat := by
    unfold Span.memSize
    rw [BitVec.toNat_sub_of_le (BitVec.le_def.mpr hspan)]
    omega
  have hend := span.vendAddr.isLt
  -- the distance of a segment from the beginning of the region
  have hdist (phdr : Elf32Phdr) (hphdr : phdr ∈ loadPhdrs (elfPhdrs lib)) :
      (phdr.pVaddr - span.vstartAddr).toNat = phdr.pVaddr.toNat - span.vstartAddr.toNat :=
    BitVec.toNat_sub_of_le (BitVec.le_def.mpr (hordered.low phdr hphdr))
  refine ⟨fun phdr hphdr => ?_, fun phdr hphdr => ?_, ?_, fun phdr hphdr k hk => ?_,
    fun phdr hphdr k hfile hk => ?_⟩
  · have hhigh := hordered.high phdr hphdr
    omega
  · have hhigh := hordered.high phdr hphdr
    have hlow := hordered.low phdr hphdr
    show (phdr.pVaddr - span.vstartAddr).toNat + _ ≤ span.memSize.toNat
    rw [hdist phdr hphdr]
    omega
  · refine hordered.sorted.imp_of_mem fun {phdr next} hphdr hnext hle => ?_
    have hlow := hordered.low phdr hphdr
    show (phdr.pVaddr - span.vstartAddr).toNat + _ ≤ (next.pVaddr - span.vstartAddr).toNat
    rw [hdist phdr hphdr, hdist next hnext]
    omega
  · have hle := hordered.file phdr hphdr
    obtain ⟨m, hcopied, -⟩ := copied_eq (span.handle memPtr) raw memory hordered (Nat.le_of_lt hend)
      hphdr (BitVec.lt_def.mpr (Nat.lt_of_lt_of_le (BitVec.lt_def.mp hk) hle)) rfl
    exact hcopied.trans (copySegment_apply hk)
  · have hlow := hordered.low phdr hphdr
    have hhigh := hordered.high phdr hphdr
    obtain ⟨m, hcopied, hclear⟩ := copied_eq (span.handle memPtr) raw memory hordered (Nat.le_of_lt hend)
      hphdr hk rfl
    have hnot : ¬ (copySegment (span.handle memPtr) lib phdr).Writes
        (memPtr + (phdr.pVaddr - span.vstartAddr) + k) := by
      unfold Store.Writes
      rw [copySegment_length]
      show ¬ (memPtr + (phdr.pVaddr - span.vstartAddr) + k -
        (memPtr + phdr.pVaddr - span.vstartAddr)).toNat < _
      rw [show memPtr + (phdr.pVaddr - span.vstartAddr) + k -
        (memPtr + phdr.pVaddr - span.vstartAddr) = k by grind]
      exact Nat.not_lt.mpr hfile
    refine (hcopied.trans (Store.apply_of_not_writes hnot)).trans (hclear.trans ?_)
    have hadd : (span.handle memPtr).memPtr + (phdr.pVaddr - (span.handle memPtr).vstartAddr) + k =
        (span.handle memPtr).memPtr + (phdr.pVaddr - span.vstartAddr + k) := BitVec.add_assoc ..
    rw [hadd]
    refine clear_apply (show phdr.pVaddr - span.vstartAddr + k < span.memSize from ?_)
    have hk := BitVec.lt_def.mp hk
    rw [BitVec.lt_def, BitVec.toNat_add, hdist phdr hphdr]
    omega

/-! ## The block of the region -/

theorem le_of_and_sub_one (h : a &&& (a - 1) = 0) : a.toNat ≤ 2 ^ 31 := by
  refine Nat.le_of_not_lt fun hlt => ?_
  have hmsb := congrArg BitVec.msb h
  rw [BitVec.msb_and, BitVec.msb_eq_true_iff_two_mul_ge.mpr (by omega),
    BitVec.msb_eq_true_iff_two_mul_ge.mpr (by bv_omega)] at hmsb
  cases hmsb

theorem alignment_bounds (h : a &&& (a - 1) = 0) :
    4 ≤ (alignment a).toNat ∧ (alignment a).toNat ≤ 2 ^ 31 := by
  have hle := le_of_and_sub_one h
  unfold alignment
  split_ifs with hlt
  · exact ⟨by decide, by decide⟩
  · exact ⟨by bv_omega, hle⟩

theorem dlPortAlignedAlloc_eq_some (h : dlPortAlignedAlloc pool a size = some (raw, memPtr, pool')) :
    rtxMemAlloc pool (alignedTotal a size) 0 = some (raw, pool') ∧ memPtr = aligned a raw ∧
      4 ≤ (alignment a).toNat ∧ (alignment a).toNat ≤ 2 ^ 31 ∧
      (alignedTotal a size).toNat = size.toNat + (alignment a).toNat + 3 := by
  unfold dlPortAlignedAlloc at h
  split_ifs at h with hargs hsize
  obtain ⟨⟨raw', pool''⟩, hblock, heq⟩ := Option.map_eq_some_iff.mp h
  obtain ⟨rfl, heq⟩ := Prod.ext_iff.mp heq
  obtain ⟨rfl, rfl⟩ := Prod.ext_iff.mp heq
  obtain ⟨hlow, hhigh⟩ := alignment_bounds (not_not.mp (not_or.mp hargs).2)
  have hguard := (not_or.mp hsize).2
  refine ⟨hblock, rfl, hlow, hhigh, ?_⟩
  unfold alignedTotal
  bv_omega

theorem aligned_bounds (hlow : 4 ≤ (alignment a).toNat)
    (hend : raw.toNat + (alignment a).toNat + 3 < 2 ^ 32) :
    raw.toNat + 4 ≤ (aligned a raw).toNat ∧ (aligned a raw).toNat ≤ raw.toNat + (alignment a).toNat + 3 := by
  have hsplit := toNat_and_not (raw + 4 + alignment a - 1) (alignment a - 1)
  have hmask : (raw + 4 + alignment a - 1 &&& (alignment a - 1)).toNat ≤ (alignment a - 1).toNat :=
    BitVec.toNat_and _ _ ▸ Nat.and_le_right
  have hsum : (raw + 4 + alignment a - 1).toNat = raw.toNat + (alignment a).toNat + 3 := by bv_omega
  have hsub : (alignment a - 1).toNat = (alignment a).toNat - 1 := by bv_omega
  unfold aligned
  omega

structure Around (b : MemBlock) (ptr : BitVec 32) : Prop where
  info : b.info ≠ 0
  low : b.addr.toNat < (ptr - 8).toNat
  high : (ptr - 8).toNat < b.addr.toNat + b.len.toNat

theorem region_block (hpool : pool.InOrder)
    (h : dlPortAlignedAlloc pool a size = some (raw, memPtr, pool'))
    (hsize : size.toNat + (alignment a).toNat + 18 < 2 ^ 32) :
    Allocated pool pool' raw (alignedTotal a size) ∧
      (memPtr - raw).toNat + size.toNat + 8 ≤ (blockSize (alignedTotal a size)).toNat ∧
      ∃ b ∈ pool'.blocks, b.addr = raw - 8 ∧ Around b memPtr := by
  obtain ⟨hblock, rfl, hlow, -, htotal⟩ := dlPortAlignedAlloc_eq_some h
  have hallocated := rtxMemAlloc_spec hpool (by omega) hblock
  obtain ⟨b, hb, haddr, hinfo, hlen⟩ := hallocated.block
  have hend := (hallocated.inOrder.last b hb).2
  have hlast := pool'.last.isLt
  have hraw : raw.toNat = b.addr.toNat + 8 := by bv_omega
  obtain ⟨hge, hle⟩ : raw.toNat + 4 ≤ (aligned a raw).toNat ∧
      (aligned a raw).toNat ≤ raw.toNat + (alignment a).toNat + 3 := aligned_bounds hlow (by omega)
  have hroom : (alignedTotal a size).toNat + 8 ≤ (blockSize (alignedTotal a size)).toNat :=
    le_blockSize (by omega)
  refine ⟨hallocated, ?_, b, hb, haddr, hinfo, ?_, ?_⟩ <;> bv_omega

theorem not_room (h : dlPortAlignedAlloc pool a size = some (raw, memPtr, pool'))
    (hsize : ¬ size.toNat + (alignment a).toNat + 18 < 2 ^ 32) :
    ¬ (memPtr - raw).toNat + size.toNat + 8 ≤ (blockSize (alignedTotal a size)).toNat := by
  obtain ⟨-, -, -, hhigh, htotal⟩ := dlPortAlignedAlloc_eq_some h
  have hle : (blockSize (alignedTotal a size)).toNat ≤ (alignedTotal a size + 8 + 7).toNat :=
    BitVec.toNat_and _ _ ▸ Nat.and_le_left
  have hwrap : (alignedTotal a size + 8 + 7).toNat ≤ 14 := by bv_omega
  omega

/-! ## What stays allocated -/

structure Keeps (b : MemBlock) (last : BitVec 32) (pool : MemPool) : Prop where
  inOrder : pool.InOrder
  mem : b ∈ pool.blocks
  last : pool.last = last

structure Other (b : MemBlock) (last ptr : BitVec 32) : Prop where
  addr : b.addr ≠ ptr - 8
  last : last ≠ ptr - 8

variable {b : MemBlock} {last : BitVec 32}

theorem Keeps.malloc (h : Keeps b last pool) (hinfo : b.info ≠ 0) (hsize : size.toNat + 15 < 2 ^ 32)
    (hfound : dlPortMalloc pool size = some (ptr, pool')) :
    Keeps b last pool' ∧ Other b last ptr := by
  have hallocated := rtxMemAlloc_spec h.inOrder hsize hfound
  obtain ⟨c, hc, haddr, -, -⟩ := hallocated.block
  have hbefore := (hallocated.inOrder.last c hc).1
  refine ⟨⟨hallocated.inOrder, hallocated.keeps b h.mem hinfo, hallocated.last.trans h.last⟩,
    hallocated.fresh b h.mem hinfo, fun heq => ?_⟩
  rw [haddr, hallocated.last, h.last, heq] at hbefore
  exact absurd hbefore (Nat.lt_irrefl _)

theorem Keeps.free (h : Keeps b last pool) (hother : Other b last ptr) :
    Keeps b last (dlPortFree pool ptr) := by
  have hne : pool.last ≠ ptr - 8 := h.last.symm ▸ hother.last
  obtain ⟨hmem, hlast⟩ := mem_rtxMemFree h.mem hother.addr hne
  exact ⟨rtxMemFree_inOrder h.inOrder hne, hmem, hlast.trans h.last⟩

theorem Keeps.free_names (h : Keeps b last pool) (hnames : ∀ s ∈ symtab, Other b last s.name) :
    Keeps b last (symtab.foldl (fun pool s => dlPortFree pool s.name) pool) := by
  induction symtab generalizing pool with
  | nil => exact h
  | cons s rest ih =>
    obtain ⟨hs, hrest⟩ := forall_mem_cons.mp hnames
    exact ih (h.free hs) hrest

theorem not_available (h : dlPortMalloc pool size = none) : ¬ Available pool (size :: rest) := by
  rintro ⟨-, ptr, pool', hsome, -⟩
  rw [h] at hsome
  cases hsome

theorem available_cons_iff (hsize : size.toNat + 15 < 2 ^ 32)
    (h : dlPortMalloc pool size = some (ptr, pool')) :
    Available pool (size :: rest) ↔ Available pool' rest := by
  constructor
  · rintro ⟨-, ptr', pool'', hsome, hrest⟩
    rw [h] at hsome
    obtain ⟨rfl, rfl⟩ := Prod.ext_iff.mp (Option.some.inj hsome)
    exact hrest
  · exact fun hrest => ⟨hsize, ptr, pool', h, hrest⟩

/-- A part that ends well exactly when `P` holds, and otherwise leaves the block allocated. -/
def Ends {α : Type} (b : MemBlock) (last : BitVec 32) (P : Prop) : Outcome (DlErr × MemPool) α → Prop
  | .wild => ¬ P
  | .fail (_, pool) => ¬ P ∧ Keeps b last pool
  | .ok _ => P

theorem copyNames_ends (handle : DlHandler) (length : Elf32Sym → BitVec 32) (syms : List Elf32Sym)
    (h : Keeps b last pool) (hinfo : b.info ≠ 0) (hnames : ∀ s ∈ symtab, Other b last s.name) :
    Ends b last (Available pool (syms.map length)) (copyNames handle length pool symtab syms) := by
  induction syms generalizing pool symtab with
  | nil => trivial
  | cons sym rest ih =>
    unfold copyNames
    split
    next hnone => exact ⟨not_available hnone, h.free_names hnames⟩
    next name pool' hfound =>
      by_cases hsize : (length sym).toNat + 15 < 2 ^ 32
      · rw [if_pos (le_blockSize_iff.mpr hsize)]
        obtain ⟨hkeeps, hother⟩ := h.malloc hinfo hsize hfound
        rw [map_cons, available_cons_iff hsize hfound]
        refine ih hkeeps fun s hs => ?_
        obtain hs | hs := mem_append.mp hs
        · exact hnames s hs
        · obtain rfl := mem_singleton.mp hs
          exact hother
      · rw [if_neg fun hroom => hsize (le_blockSize_iff.mp hroom)]
        exact fun havailable => hsize havailable.1

theorem buildSymtab_ends (h : Keeps b last pool) (hinfo : b.info ≠ 0) :
    Ends b last (Available pool (symtabSizes lib)) (buildSymtab handle lib pool) := by
  unfold buildSymtab symtabSizes
  cases dynsym lib with
  | none => trivial
  | some dynsym =>
    dsimp only
    by_cases hlength : (functions lib dynsym).length = 0
    · have hnone : dlPortMalloc pool (BitVec.ofNat 32 (0 * 8)) = none := rtxMemAlloc_zero
      rw [hlength, hnone]
      exact trivial
    · rw [if_neg hlength]
      generalize BitVec.ofNat 32 ((functions lib dynsym).length * 8) = size
      split
      next hnone =>
        rw [if_neg hlength]
        refine ⟨not_available hnone, ?_⟩
        rw [show dlPortFree pool 0 = pool from rtxMemFree_null]
        exact h
      next symtab pool' hfound =>
        by_cases hsize : size.toNat + 15 < 2 ^ 32
        · rw [if_pos (le_blockSize_iff.mpr hsize)]
          obtain ⟨hkeeps, hother⟩ := h.malloc hinfo hsize hfound
          have hnames := copyNames_ends handle (nameLength lib dynsym) (functions lib dynsym) hkeeps hinfo
            (forall_mem_nil _)
          rw [available_cons_iff hsize hfound]
          revert hnames
          cases copyNames handle (nameLength lib dynsym) pool' [] (functions lib dynsym) with
          | wild | ok _ => exact id
          | fail err => exact fun hnames => ⟨hnames.1, hnames.2.free hother⟩
        · rw [if_neg fun hroom => hsize (le_blockSize_iff.mp hroom)]
          exact fun havailable => hsize havailable.1

/-! ## Relocations -/

theorem inside_word_iff {v : BitVec 32} :
    Inside handle (.word p v) ↔ (p - handle.memPtr).toNat + 4 ≤ handle.memSize.toNat := by
  refine (Store.within_iff_le handle.memSize.isLt).symm.trans ?_
  exact or_iff_right (cons_ne_nil _ _)

theorem inside_half_iff {v : BitVec 16} :
    Inside handle (.half p v) ↔ (p - handle.memPtr).toNat + 2 ≤ handle.memSize.toNat := by
  refine (Store.within_iff_le handle.memSize.isLt).symm.trans ?_
  exact or_iff_right (cons_ne_nil _ _)

theorem stores_inside_iff {s : BitVec 32} (hsize : handle.memSize.toNat + 8 ≤ 2 ^ 32)
    (h : (dlRelocate handle m rel s).1 = .noErr) :
    (∀ store ∈ (dlRelocate handle m rel s).2, Inside handle store) ↔ Fits handle rel := by
  have hplace : place handle rel - handle.memPtr = rel.rOffset - handle.vstartAddr := by
    unfold place
    bv_omega
  have hword (v : BitVec 32) : (∀ store ∈ [Store.word (place handle rel) v], Inside handle store) ↔
      (rel.rOffset - handle.vstartAddr).toNat + 4 ≤ handle.memSize.toNat := by
    rw [forall_mem_singleton, inside_word_iff, hplace]
  have hthumb (upper lower : BitVec 16) : (∀ store ∈ [Store.half (place handle rel) upper,
      .half (place handle rel + 8) lower], Inside handle store) ↔
      (rel.rOffset - handle.vstartAddr).toNat + 10 ≤ handle.memSize.toNat := by
    have hsecond : place handle rel + 8 - handle.memPtr = rel.rOffset - handle.vstartAddr + 8 := by
      bv_omega
    rw [forall_mem_cons, forall_mem_singleton, inside_half_iff, inside_half_iff, hplace, hsecond]
    bv_omega
  have hor {type : RelType} {n : Nat} (hne : type ≠ .none) (hreach : reach type = n) :
      (rel.rOffset - handle.vstartAddr).toNat + n ≤ handle.memSize.toNat ↔
        type = .none ∨ (rel.rOffset - handle.vstartAddr).toNat + reach type ≤ handle.memSize.toNat := by
    rw [or_iff_right hne, hreach]
  revert h
  unfold dlRelocate Fits
  cases elf32RType rel.rInfo with
  | none => exact fun _ => iff_of_true (forall_mem_nil _) (.inl rfl)
  | v4bx =>
    refine fun _ => Iff.trans ?_ ((hword (load32 m (place handle rel) &&& 0xf000000f)).trans
      (hor nofun rfl))
    simp only [forall_mem_cons, inside_word_iff, and_self_left]
  | thmCall | thmJump24 =>
    dsimp only
    split_ifs with hrefused
    · intro h
      cases h
    · exact fun _ => (hthumb _ _).trans (or_iff_right not_false).symm
  | unsupported =>
    intro h
    cases h
  | abs32 | pc24 | plt32 | call | jump24 | rel32 | globDat | jumpSlot | relative | thmMovwAbsNc
    | thmMovtAbs => exact fun _ => (hword _).trans (hor nofun rfl)

theorem relocateAll_spec {rels : List (Elf32Rel × Elf32Sym)} (hsize : handle.memSize.toNat + 8 ≤ 2 ^ 32) :
    (∃ m', relocateAll handle m rels = .ok m') ↔ Relocatable handle m rels := by
  induction rels generalizing m with
  | nil => exact iff_of_true ⟨m, rfl⟩ trivial
  | cons entry rest ih =>
    obtain ⟨rel, sym⟩ := entry
    have hinside : (dlRelocate handle m rel (symAddr handle sym)).1 = .noErr →
        ((∀ store ∈ (dlRelocate handle m rel (symAddr handle sym)).2, Inside handle store) ↔
          Fits handle rel) := stores_inside_iff hsize
    unfold relocateAll Relocatable
    by_cases hresolved : sym.resolved
    · rw [if_pos hresolved]
      rcases hrel : dlRelocate handle m rel (symAddr handle sym) with ⟨err, stores⟩
      rw [hrel] at hinside
      by_cases herr : err = .noErr
      · subst herr
        dsimp only at hinside ⊢
        by_cases hfits : Fits handle rel
        · rw [if_pos ((hinside rfl).mpr hfits), ih]
          exact ⟨fun h => ⟨hresolved, rfl, hfits, h⟩, fun h => h.2.2.2⟩
        · rw [if_neg fun h => hfits ((hinside rfl).mp h)]
          exact iff_of_false (fun ⟨_, h⟩ => nomatch h) fun h => hfits h.2.2.1
      · refine iff_of_false ?_ fun h => herr h.2.1
        rintro ⟨m', h⟩
        cases err <;> first | exact herr rfl | cases h
    · rw [if_neg hresolved]
      exact iff_of_false (fun ⟨_, h⟩ => nomatch h) fun h => hresolved h.1

/-! ## The whole load -/

theorem Allocates.unique {span' : Span} {raw' memPtr' : BitVec 32} {pool'' : MemPool}
    (h : Allocates lib pool span raw memPtr pool') (h' : Allocates lib pool span' raw' memPtr' pool'') :
    span = span' ∧ raw = raw' ∧ memPtr = memPtr' ∧ pool' = pool'' := by
  have hspan : span = span' := Option.some.inj (Except.ok.inj (h.accepted.symm.trans h'.accepted))
  subst hspan
  have halloc := Option.some.inj (h.alloc.symm.trans h'.alloc)
  obtain ⟨hraw, hrest⟩ := Prod.ext_iff.mp halloc
  obtain ⟨hptr, hpool⟩ := Prod.ext_iff.mp hrest
  exact ⟨rfl, hraw, hptr, hpool⟩

theorem prepare_cases (lib memory : ByteMem) (pool : MemPool) :
    (∃ err, prepare lib memory pool = .fail err ∧
      ∀ span raw memPtr pool', ¬ Allocates lib pool span raw memPtr pool') ∨
    ∃ span raw memPtr pool', Allocates lib pool span raw memPtr pool' ∧
      prepare lib memory pool =
        if (memPtr - raw).toNat + span.memSize.toNat + 8 ≤
            (blockSize (alignedTotal span.maxAlign span.memSize)).toNat then
          .ok { handle := span.handle memPtr, memory := copied (span.handle memPtr) raw lib memory,
                pool := pool' }
        else .wild := by
  unfold prepare
  cases hheader : headerErr lib with
  | some err => exact .inl ⟨err, rfl, fun _ _ _ _ h => by rw [h.header] at hheader; cases hheader⟩
  | none =>
    rcases haccepted : spanOf none (elfPhdrs lib) with err | _ | span
    · exact .inl ⟨err, rfl, fun _ _ _ _ h => by rw [h.accepted] at haccepted; cases haccepted⟩
    · exact .inl ⟨.memsizeErr, rfl, fun _ _ _ _ h => by rw [h.accepted] at haccepted; cases haccepted⟩
    · dsimp only
      have hspan (span' : Span) (raw memPtr : BitVec 32) (pool' : MemPool)
          (h : Allocates lib pool span' raw memPtr pool') : span' = span :=
        Option.some.inj (Except.ok.inj (h.accepted.symm.trans haccepted))
      by_cases hsize : span.memSize = 0
      · rw [if_pos hsize]
        exact .inl ⟨.memsizeErr, rfl, fun span' raw memPtr pool' h =>
          h.size (hspan span' raw memPtr pool' h ▸ hsize)⟩
      · rw [if_neg hsize]
        rcases halloc : dlPortAlignedAlloc pool span.maxAlign span.memSize with _ | ⟨raw, memPtr, pool'⟩
        · refine .inl ⟨.mallocFail, rfl, fun span' raw memPtr pool' h => ?_⟩
          have hsome := h.alloc
          rw [hspan span' raw memPtr pool' h, halloc] at hsome
          cases hsome
        · refine .inr ⟨span, raw, memPtr, pool', ⟨hheader, haccepted, hsize, halloc⟩, ?_⟩
          obtain ⟨hle, hordered⟩ := spanOf_none haccepted
          have hinside : ∀ s ∈ copySegments (span.handle memPtr) lib, Inside (span.handle memPtr) s := by
            refine copySegments_inside hordered ?_
            show span.vstartAddr.toNat + (span.vendAddr - span.vstartAddr).toNat = _
            bv_omega
          dsimp only
          rw [if_pos hinside]

theorem loads_allocated (hpool : pool.InOrder) (h : Allocates lib pool span raw memPtr pool')
    (hsize : span.memSize.toNat + (alignment span.maxAlign).toNat + 18 < 2 ^ 32)
    (hprepare : prepare lib memory pool = .ok
      { handle := span.handle memPtr, memory := copied (span.handle memPtr) raw lib memory, pool := pool' }) :
    Loads lib memory pool ↔
      Relocatable (span.handle memPtr) (copied (span.handle memPtr) raw lib memory) (relocations lib) ∧
        Available pool' (symtabSizes lib) := by
  obtain ⟨hallocated, -, b, hb, haddr, haround⟩ := region_block hpool h.alloc hsize
  have hkeeps : Keeps b pool'.last pool' := ⟨hallocated.inOrder, hb, rfl⟩
  -- the block is new, and the pointer to the region does not free it
  have hleak {final : MemPool} (hfinal : Keeps b pool'.last final) :
      dlPortAlignedFree final memPtr ≠ pool := by
    intro heq
    have hfree : dlPortAlignedFree final memPtr = final :=
      rtxMemFree_of_inside hfinal.inOrder hfinal.mem haround.low haround.high
    rw [hfree] at heq
    exact hallocated.fresh b (heq ▸ hfinal.mem) haround.info haddr
  have hmem : (span.handle memPtr).memSize.toNat + 8 ≤ 2 ^ 32 := by
    show span.memSize.toNat + 8 ≤ 2 ^ 32
    omega
  have hrelocate : (∃ m', relocateAll (span.handle memPtr) (copied (span.handle memPtr) raw lib memory)
      (relocations lib) = .ok m') ↔ _ := relocateAll_spec hmem
  have hsymtab : Ends b pool'.last (Available pool' (symtabSizes lib))
      (buildSymtab (span.handle memPtr) lib pool') := buildSymtab_ends hkeeps haround.info
  have hlayout : Layout lib { handle := span.handle memPtr,
                              memory := copied (span.handle memPtr) raw lib memory,
                              pool := pool' } := layout h.accepted
  unfold Loads dlLoadLib
  rw [hprepare]
  dsimp only
  revert hrelocate
  cases relocateAll (span.handle memPtr) (copied (span.handle memPtr) raw lib memory) (relocations lib) with
  | wild => exact fun hrelocate => iff_of_false id fun hboth => nomatch hrelocate.mpr hboth.1
  | fail err =>
    exact fun hrelocate => iff_of_false (hleak hkeeps) fun hboth => nomatch hrelocate.mpr hboth.1
  | ok m' =>
    intro hrelocate
    rw [and_iff_right (hrelocate.mp ⟨m', rfl⟩)]
    revert hsymtab
    cases buildSymtab (span.handle memPtr) lib pool' with
    | wild => exact fun hsymtab => iff_of_false id hsymtab
    | fail err => exact fun hsymtab => iff_of_false (hleak hsymtab.2) hsymtab.1
    | ok _ => exact fun hsymtab => iff_of_true ⟨_, rfl, hlayout⟩ hsymtab

/-- **When a load writes only into its region and frees what it has allocated**: there is no region, or its
size and alignment do not wrap, every relocation is accepted and stays in it, and there is memory for the
symbols. -/
theorem loads_iff (hpool : pool.InOrder) : Loads lib memory pool ↔
    ∀ span raw memPtr pool', Allocates lib pool span raw memPtr pool' →
      Clean lib memory span raw memPtr pool' := by
  obtain ⟨err, hprepare, hnone⟩ | ⟨span, raw, memPtr, pool', h, hprepare⟩ :=
    prepare_cases lib memory pool
  · refine iff_of_true ?_ fun span raw memPtr pool' h => absurd h (hnone span raw memPtr pool')
    unfold Loads dlLoadLib
    rw [hprepare]
  · by_cases hsize : span.memSize.toNat + (alignment span.maxAlign).toNat + 18 < 2 ^ 32
    · rw [if_pos (region_block hpool h.alloc hsize).2.1] at hprepare
      rw [loads_allocated hpool h hsize hprepare]
      constructor
      · rintro ⟨hrelocatable, havailable⟩ span' raw' memPtr' pool'' h'
        obtain ⟨rfl, rfl, rfl, rfl⟩ := h.unique h'
        exact ⟨hsize, hrelocatable, havailable⟩
      · intro hclean
        obtain ⟨-, hrelocatable, havailable⟩ := hclean span raw memPtr pool' h
        exact ⟨hrelocatable, havailable⟩
    · rw [if_neg (not_room h.alloc hsize)] at hprepare
      refine iff_of_false ?_ fun hclean => hsize (hclean span raw memPtr pool' h).size
      unfold Loads dlLoadLib
      rw [hprepare]
      exact id

/-- An image with one segment and one relocation, of a word at an offset. -/
def sampleImage (offset : BitVec 32) : ByteMem :=
  Store.run (fun _ => 0) [.word 0 0x464c457f, .word 4 1, .half 16 3, .word 28 52, .word 32 84, .half 44 1,
    .half 48 2, .word 52 1, .word 72 16, .word 80 4, .word 88 9, .word 100 164, .word 104 8, .word 108 1,
    .word 140 172, .word 164 offset, .word 168 2, .half 186 1]

def samplePool : MemPool :=
  { blocks := [{ addr := 0x20000008, info := 0 }]
    last := 0x200027f8
    lastInfo := 16
    stop := 0x200027f8
    used := 16 }

theorem loads_sample : Loads (sampleImage 4) (fun _ => 0) samplePool := by
  have hpool : samplePool.InOrder :=
    rtxMemInit_inOrder (show rtxMemInit 0x20000000 0x2800 = some samplePool by decide +kernel) (by decide)
  have hallocates : Allocates (sampleImage 4) samplePool { vstartAddr := 0, vendAddr := 16, maxAlign := 4 }
      0x20000010 0x20000014
      { samplePool with
        blocks := [{ addr := 0x20000008, info := 32 }]
        lastInfo := 48
        used := 48 } :=
    ⟨by decide +kernel, by decide +kernel, by decide +kernel, by decide +kernel⟩
  refine (loads_iff hpool).mpr fun span raw memPtr pool' h => ?_
  obtain ⟨rfl, rfl, rfl, rfl⟩ := hallocates.unique h
  have hsizes : symtabSizes (sampleImage 4) = [] := by decide +kernel
  have hrels : relocations (sampleImage 4) = [({ rOffset := 4, rInfo := 2 },
      { stName := 0, stValue := 0, stInfo := 0, stShndx := 1 })] := by decide +kernel
  refine ⟨by decide +kernel, ?_, ?_⟩
  · rw [hrels]
    exact ⟨by decide +kernel, by decide +kernel, by decide +kernel, trivial⟩
  · rw [hsizes]
    trivial

def Outcome.isWild {ε α : Type} : Outcome ε α → Bool
  | .wild => true
  | _ => false

theorem Outcome.eq_wild {ε : Type} {outcome : Outcome ε α} (h : outcome.isWild) :
    outcome = .wild := by
  cases outcome with
  | wild => rfl
  | fail _ | ok _ => cases h

/-- A relocation whose word is not in the region is applied. -/
theorem not_loads : ¬ Loads (sampleImage 0x1000) (fun _ => 0) samplePool := by
  have hwild : dlLoadLib (sampleImage 0x1000) (fun _ => 0) samplePool = .wild :=
    Outcome.eq_wild (by decide +kernel)
  unfold Loads
  rw [hwild]
  exact id

end Gpmx.Dloader
