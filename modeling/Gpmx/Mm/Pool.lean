import Gpmx.Mm.Rtxmem
import Mathlib

/-!
# Runs of calls on a memory pool

`rtx_mem_alloc` and `rtx_mem_free` one after the other, with the blocks that have been returned and not
been freed beside the pool.

* `Sound` — what holds of these blocks
* `sound_run` — it holds after every run in which no size wraps and the last header is not freed
-/

namespace Gpmx.Mm

open List

inductive Call where
  | alloc (size type : BitVec 32)
  | free (block : BitVec 32)

structure Live where
  ptr : BitVec 32
  size : BitVec 32
  deriving DecidableEq

structure Run where
  pool : MemPool
  live : List Live
  deriving DecidableEq

def Run.step (s : Run) : Call → Run
  | .alloc size type =>
    match rtxMemAlloc s.pool size type with
    | none => s
    | some (ptr, pool) => { pool, live := s.live ++ [{ ptr, size }] }
  | .free block => { pool := rtxMemFree s.pool block, live := s.live.filter (·.ptr ≠ block) }

def rounded (size : BitVec 32) : Nat := (size.toNat + 15) / 8 * 8

def Live.Holds (l : Live) (a : Nat) : Prop :=
  l.ptr.toNat - 8 ≤ a ∧ a < l.ptr.toNat - 8 + rounded l.size

/-- What holds of the pool with `size` bytes at `mem`. -/
structure Sound (mem size : BitVec 32) (s : Run) : Prop where
  aligned : ∀ l ∈ s.live, l.ptr.toNat % 8 = 0
  low : ∀ l ∈ s.live, mem.toNat + 8 ≤ l.ptr.toNat - 8
  high : ∀ l ∈ s.live, l.ptr.toNat - 8 + rounded l.size ≤ mem.toNat + size.toNat - 8
  room : ∀ l ∈ s.live, l.ptr.toNat + l.size.toNat ≤ l.ptr.toNat - 8 + rounded l.size
  disjoint : s.live.Pairwise fun l k => ∀ a, l.Holds a → ¬ k.Holds a
  used : s.pool.used.toNat = 16 + (s.live.map fun l => rounded l.size).sum
  /-- Where a call that fails could have put a block, there is one. -/
  fails : ∀ n type, n ≠ 0 → type &&& ~~~3 = 0 → rtxMemAlloc s.pool n type = none →
    ∀ a, mem.toNat + 8 ≤ a → a + rounded n ≤ mem.toNat + size.toNat - 8 →
      ∃ l ∈ s.live, ∃ x, a ≤ x ∧ x < a + rounded n ∧ l.Holds x
  /-- What is no block is not freed. -/
  keeps : ∀ block, block ≠ mem + size → (∀ l ∈ s.live, l.ptr ≠ block) →
    rtxMemFree s.pool block = s.pool

/-- A call whose size does not wrap, or that does not free the last header. -/
def Legal (mem size : BitVec 32) : Call → Prop
  | .alloc n _ => n.toNat + 15 < 2 ^ 32
  | .free block => block ≠ mem + size

variable {mem size : BitVec 32} {s : Run} {pool pool' : MemPool}

/-! ## Sizes -/

variable {n : BitVec 32} {l : Live} {b : MemBlock} {a : Nat} {type : BitVec 32}

theorem blockSize_toNat (h : n.toNat + 15 < 2 ^ 32) : (blockSize n).toNat = rounded n := by
  have hmask (x : BitVec 32) : x &&& ~~~(7 : BitVec 32) = (x >>> 3) <<< 3 := by
    apply BitVec.eq_of_getLsbD_eq
    intro i hi
    simp only [BitVec.getLsbD_and, BitVec.getLsbD_not, BitVec.getLsbD_shiftLeft,
      BitVec.getLsbD_ushiftRight]
    interval_cases i <;> simp
  have hsum : (n + 8 + 7).toNat = n.toNat + 15 := by bv_omega
  unfold blockSize rounded
  rw [hmask, BitVec.toNat_shiftLeft, BitVec.toNat_ushiftRight, hsum, Nat.shiftRight_eq_div_pow,
    Nat.shiftLeft_eq]
  omega

def lengths (blocks : List MemBlock) : Nat := (blocks.map fun b => b.len.toNat).sum

theorem lengths_append (front rest : List MemBlock) :
    lengths (front ++ rest) = lengths front + lengths rest := by
  unfold lengths
  rw [map_append, sum_append]

theorem lengths_cons (p : MemBlock) (rest : List MemBlock) :
    lengths (p :: rest) = p.len.toNat + lengths rest := by
  unfold lengths
  rw [map_cons, sum_cons]

theorem lengths_le {last : BitVec 32} {p : MemBlock} {rest : List MemBlock}
    (hsorted : (p :: rest).Pairwise fun p q => p.Before q.addr) (hlast : ∀ q ∈ p :: rest, q.Before last) :
    p.addr.toNat + lengths (p :: rest) ≤ last.toNat := by
  induction rest generalizing p with
  | nil =>
    have hle := (hlast p (mem_cons_self ..)).2
    rw [lengths_cons]
    exact hle
  | cons q rest ih =>
    obtain ⟨hp, htail⟩ := pairwise_cons.mp hsorted
    have hle := (hp q (mem_cons_self ..)).2
    have hrest := ih htail fun c hc => hlast c (mem_cons_of_mem _ hc)
    rw [lengths_cons]
    omega

/-! ## The invariant -/

def MemPool.inUse (pool : MemPool) : List (BitVec 32 × BitVec 32) :=
  (pool.blocks.filter (·.info ≠ 0)).map fun b => (b.addr + 8, b.len)

structure Inv (mem size : BitVec 32) (s : Run) : Prop where
  inOrder : s.pool.InOrder
  first : ∃ p rest, s.pool.blocks = p :: rest ∧ p.addr = mem + 8 ∧ ∀ q ∈ rest, q.info ≠ 0
  last : s.pool.last = mem + (size - 8)
  aligned : ∀ b ∈ s.pool.blocks, b.addr.toNat % 8 = 0
  live : s.pool.inUse.Perm (s.live.map fun l => (l.ptr, blockSize l.size))
  sizes : ∀ l ∈ s.live, l.size.toNat + 15 < 2 ^ 32
  used : s.pool.used.toNat = 16 + lengths s.pool.blocks

structure Placed (mem size : BitVec 32) : Prop where
  aligned : mem.toNat % 8 = 0
  low : 8 ≤ mem.toNat
  header : 24 ≤ size.toNat
  high : mem.toNat + size.toNat ≤ 2 ^ 32

theorem Placed.last (h : Placed mem size) : (mem + (size - 8)).toNat = mem.toNat + size.toNat - 8 := by
  obtain ⟨-, hlow, hsize, hhigh⟩ := h
  bv_omega

theorem Placed.first (h : Placed mem size) : (mem + 8).toNat = mem.toNat + 8 := by
  obtain ⟨-, hlow, hsize, hhigh⟩ := h
  bv_omega

theorem and_seven_eq_zero {x : BitVec 32} (h : x &&& 7 = 0) : x.toNat % 8 = 0 := by
  have hnat := congrArg BitVec.toNat h
  rw [BitVec.toNat_and, show (7 : BitVec 32).toNat = 2 ^ 3 - 1 from rfl, Nat.and_two_pow_sub_one_eq_mod]
    at hnat
  exact hnat

theorem placed_of_init (h : rtxMemInit mem size = some pool) (hend : mem.toNat + size.toNat ≤ 2 ^ 32) :
    Placed mem size := by
  unfold rtxMemInit at h
  split_ifs at h with hargs
  rw [not_or, not_or, not_or] at hargs
  obtain ⟨hnull, hmem, -, hsize⟩ := hargs
  have haligned := and_seven_eq_zero (not_not.mp hmem)
  have hpos : mem.toNat ≠ 0 := fun hzero => hnull (BitVec.eq_of_toNat_eq hzero)
  refine ⟨haligned, by omega, ?_, hend⟩
  exact Nat.le_of_not_lt fun hlt => hsize (BitVec.lt_def.mpr hlt)

theorem inv_init (h : rtxMemInit mem size = some pool) (hend : mem.toNat + size.toNat ≤ 2 ^ 32) :
    Inv mem size { pool, live := [] } := by
  have hplaced := placed_of_init h hend
  have hinOrder := rtxMemInit_inOrder h hend
  unfold rtxMemInit at h
  split_ifs at h
  cases h
  refine ⟨hinOrder, ⟨_, [], rfl, rfl, fun _ hq => (nomatch hq)⟩, rfl, fun b hb => ?_, .nil,
    fun _ hl => (nomatch hl), ?_⟩
  rotate_left
  · show 16 = 16 + lengths [{ addr := mem + 8, info := 0 }]
    rw [lengths_cons, MemBlock.len_of_free rfl]
    rfl
  obtain rfl := mem_singleton.mp hb
  have haligned := hplaced.aligned
  show (mem + 8).toNat % 8 = 0
  rw [hplaced.first]
  omega

/-! ## What the invariant gives -/

section

variable (h : Inv mem size s)
include h

theorem Inv.header (hl : l ∈ s.live) :
    ∃ b ∈ s.pool.blocks, b.info ≠ 0 ∧ b.addr + 8 = l.ptr ∧ b.len = blockSize l.size := by
  have hmem : (l.ptr, blockSize l.size) ∈ s.pool.inUse :=
    h.live.mem_iff.mpr (mem_map.mpr ⟨l, hl, rfl⟩)
  obtain ⟨b, hb, heq⟩ := mem_map.mp hmem
  obtain ⟨hb, hinfo⟩ := mem_filter.mp hb
  exact ⟨b, hb, of_decide_eq_true hinfo, (Prod.ext_iff.mp heq).1, (Prod.ext_iff.mp heq).2⟩

theorem Inv.block (hb : b ∈ s.pool.blocks) (hinfo : b.info ≠ 0) :
    ∃ l ∈ s.live, l.ptr = b.addr + 8 ∧ blockSize l.size = b.len := by
  have hmem : (b.addr + 8, b.len) ∈ s.live.map fun l => (l.ptr, blockSize l.size) :=
    h.live.mem_iff.mp (mem_map.mpr ⟨b, mem_filter.mpr ⟨hb, by simpa using hinfo⟩, rfl⟩)
  obtain ⟨l, hl, heq⟩ := mem_map.mp hmem
  exact ⟨l, hl, (Prod.ext_iff.mp heq).1, (Prod.ext_iff.mp heq).2⟩

theorem Inv.bounds (hplaced : Placed mem size) (hb : b ∈ s.pool.blocks) :
    mem.toNat + 8 ≤ b.addr.toNat ∧ b.addr.toNat < mem.toNat + size.toNat - 8 ∧
      b.addr.toNat + b.len.toNat ≤ mem.toNat + size.toNat - 8 := by
  obtain ⟨hlt, hle⟩ := h.inOrder.last b hb
  rw [h.last, hplaced.last] at hlt hle
  obtain ⟨p, rest, hblocks, hp, -⟩ := h.first
  refine ⟨?_, hlt, hle⟩
  have hsorted := hblocks ▸ h.inOrder.sorted
  rw [hblocks] at hb
  obtain rfl | hb := mem_cons.mp hb
  · rw [hp, hplaced.first]
  · have hbefore := ((pairwise_cons.mp hsorted).1 b hb).1
    rw [hp, hplaced.first] at hbefore
    exact Nat.le_of_lt hbefore

theorem Inv.ptr (hplaced : Placed mem size) (hb : b ∈ s.pool.blocks)
    (haddr : b.addr + 8 = l.ptr) : l.ptr.toNat = b.addr.toNat + 8 := by
  have hlt := (h.bounds hplaced hb).2.1
  have hhigh := hplaced.high
  rw [← haddr, BitVec.toNat_add]
  show (b.addr.toNat + 8) % 2 ^ 32 = _
  omega

theorem Inv.holds_iff (hplaced : Placed mem size) (hl : l ∈ s.live)
    (hb : b ∈ s.pool.blocks) (haddr : b.addr + 8 = l.ptr) (hlen : b.len = blockSize l.size) :
    l.Holds a ↔ b.addr.toNat ≤ a ∧ a < b.addr.toNat + b.len.toNat := by
  unfold Live.Holds
  rw [h.ptr hplaced hb haddr, hlen, blockSize_toNat (h.sizes l hl), Nat.add_sub_cancel]

end

def Apart (x y : BitVec 32 × BitVec 32) : Prop :=
  x.1.toNat - 8 + x.2.toNat ≤ y.1.toNat - 8 ∨ y.1.toNat - 8 + y.2.toNat ≤ x.1.toNat - 8

theorem Inv.apart (h : Inv mem size s) (hplaced : Placed mem size) :
    s.live.Pairwise fun l k => Apart (l.ptr, blockSize l.size) (k.ptr, blockSize k.size) := by
  have haddr {b : MemBlock} (hb : b ∈ s.pool.blocks) : (b.addr + 8).toNat = b.addr.toNat + 8 := by
    have hlt := (h.bounds hplaced hb).2.1
    have hhigh := hplaced.high
    rw [BitVec.toNat_add]
    show (b.addr.toNat + 8) % 2 ^ 32 = _
    omega
  have hinUse : s.pool.inUse.Pairwise Apart := by
    refine pairwise_map.mpr ((h.inOrder.sorted.filter _).imp_of_mem fun {b c} hb hc hbefore => ?_)
    have hle := hbefore.2
    refine .inl ?_
    dsimp only
    rw [haddr (mem_of_mem_filter hb), haddr (mem_of_mem_filter hc)]
    omega
  exact pairwise_map.mp ((h.live.pairwise_iff fun {_ _} hxy => Or.symm hxy).mp hinUse)

theorem lengths_filter (blocks : List MemBlock) :
    lengths (blocks.filter (·.info ≠ 0)) = lengths blocks := by
  induction blocks with
  | nil => rfl
  | cons b rest ih =>
    by_cases hinfo : b.info = 0
    · rw [filter_cons_of_neg (by simpa using hinfo), ih, lengths_cons, MemBlock.len_of_free hinfo]
      exact (Nat.zero_add _).symm
    · rw [filter_cons_of_pos (by simpa using hinfo), lengths_cons, lengths_cons, ih]

theorem Inv.lengths_live (h : Inv mem size s) :
    lengths s.pool.blocks = (s.live.map fun l => rounded l.size).sum := by
  have hsum := (h.live.map fun x => x.2.toNat).sum_eq
  unfold MemPool.inUse at hsum
  rw [map_map, map_map] at hsum
  rw [← lengths_filter]
  refine hsum.trans (congrArg List.sum (map_congr_left fun l hl => ?_))
  exact blockSize_toNat (h.sizes l hl)

/-! ## A call that finds no block -/

/-- A block that overlaps the bytes from `a` on. -/
def MemBlock.Overlaps (b : MemBlock) (a n : Nat) : Prop :=
  b.info ≠ 0 ∧ b.addr.toNat < a + n ∧ a < b.addr.toNat + b.len.toNat

/-- An address behind `p` where `bs` bytes do not fit in before `e`. -/
theorem gap_lt {e bs : BitVec 32} {p : MemBlock} (hbefore : p.Before e)
    (hhole : ¬bs ≤ e - p.addr - p.len) (hin : ¬a < p.addr.toNat + p.len.toNat) :
    e.toNat < a + bs.toNat := by
  refine Nat.lt_of_not_le fun hle => hhole (BitVec.le_def.mpr ?_)
  show bs.toNat ≤ (e - p.addr - p.len).toNat
  obtain ⟨hlt, hend⟩ := hbefore
  have hsub := BitVec.toNat_sub_of_le (BitVec.le_def.mpr hlt.le)
  rw [BitVec.toNat_sub_of_le (BitVec.le_def.mpr (by omega)), hsub]
  omega

theorem overlaps_of_none {last bs : BitVec 32} {p : MemBlock} {rest : List MemBlock}
    (hsorted : (p :: rest).Pairwise fun p q => p.Before q.addr)
    (hlast : ∀ q ∈ p :: rest, q.Before last) (hlen : p.info = 0 → p.len = 0)
    (hrest : ∀ q ∈ rest, q.info ≠ 0) (hbs : 0 < bs.toNat)
    (hnone : allocIn last bs type (p :: rest) = none) (hlow : p.addr.toNat ≤ a)
    (hhigh : a + bs.toNat ≤ last.toNat) : ∃ b ∈ p :: rest, b.Overlaps a bs.toNat := by
  induction rest generalizing p with
  | nil =>
    unfold allocIn at hnone
    split_ifs at hnone with hhole
    by_cases hin : a < p.addr.toNat + p.len.toNat
    · exact ⟨p, mem_cons_self .., fun hinfo => by simp [hlen hinfo] at hin; omega, by omega, hin⟩
    · exact absurd (gap_lt (hlast p (mem_cons_self ..)) hhole hin) (Nat.not_lt.mpr hhigh)
  | cons q rest ih =>
    obtain ⟨hp, htail⟩ := pairwise_cons.mp hsorted
    unfold allocIn at hnone
    split_ifs at hnone with hhole
    have hq := hrest q (mem_cons_self ..)
    by_cases hin : a < p.addr.toNat + p.len.toNat
    · exact ⟨p, mem_cons_self .., fun hinfo => by simp [hlen hinfo] at hin; omega, by omega, hin⟩
    have hnext := gap_lt (hp q (mem_cons_self ..)) hhole hin
    by_cases hstart : a < q.addr.toNat
    · exact ⟨q, mem_cons_of_mem _ (mem_cons_self ..), hq, hnext, by omega⟩
    · obtain ⟨b, hb, hover⟩ := ih htail (fun c hc => hlast c (mem_cons_of_mem _ hc))
        (fun hinfo => absurd hinfo hq) (fun c hc => hrest c (mem_cons_of_mem _ hc))
        (Option.map_eq_none_iff.mp hnone) (Nat.le_of_not_lt hstart)
      exact ⟨b, mem_cons_of_mem _ hb, hover⟩

theorem Inv.fails (h : Inv mem size s) (hplaced : Placed mem size) (hn : n ≠ 0)
    (htype : type &&& ~~~3 = 0) (hnone : rtxMemAlloc s.pool n type = none)
    (hlow : mem.toNat + 8 ≤ a) (hhigh : a + rounded n ≤ mem.toNat + size.toNat - 8) :
    ∃ l ∈ s.live, ∃ x, a ≤ x ∧ x < a + rounded n ∧ l.Holds x := by
  have hend := hplaced.high
  have hwrap : n.toNat + 15 < 2 ^ 32 := by
    unfold rounded at hhigh
    omega
  have hsize := blockSize_toNat hwrap
  obtain ⟨p, rest, hblocks, hp, hrest⟩ := h.first
  have hin : allocIn s.pool.last (blockSize n) type (p :: rest) = none := by
    unfold rtxMemAlloc at hnone
    rw [if_neg (not_or.mpr ⟨hn, not_not.mpr htype⟩), hblocks] at hnone
    exact Option.map_eq_none_iff.mp hnone
  have hfirst : p.addr.toNat ≤ a := by
    rw [hp, hplaced.first]
    exact hlow
  obtain ⟨b, hb, hinfo, hover, hover'⟩ := overlaps_of_none (hblocks ▸ h.inOrder.sorted)
    (hblocks ▸ h.inOrder.last) MemBlock.len_of_free hrest
    (by rw [hsize]; unfold rounded; omega) hin hfirst
    (by rw [h.last, hplaced.last, hsize]; exact hhigh)
  rw [hsize] at hover
  have hb := hblocks ▸ hb
  obtain ⟨l, hl, hptr, hlen⟩ := h.block hb hinfo
  refine ⟨l, hl, max a b.addr.toNat, Nat.le_max_left .., ?_, ?_⟩
  · exact max_lt (by unfold rounded; omega) hover
  · refine (h.holds_iff hplaced hl hb hptr.symm hlen.symm).mpr ⟨Nat.le_max_right .., max_lt hover' ?_⟩
    have hpos := h.inOrder.len b hb hinfo
    have hne : b.len.toNat ≠ 0 := fun hzero => hpos (BitVec.eq_of_toNat_eq hzero)
    omega

theorem Inv.keeps (h : Inv mem size s) {block : BitVec 32} (hstop : block ≠ mem + size)
    (hnot : ∀ l ∈ s.live, l.ptr ≠ block) : rtxMemFree s.pool block = s.pool := by
  have hlast : s.pool.last ≠ block - 8 := by
    rw [h.last]
    exact fun heq => hstop (by grind)
  by_cases hany : ∀ c ∈ s.pool.blocks, c.addr ≠ block - 8
  · exact rtxMemFree_of_ne hany hlast
  -- the first header, without a block
  obtain ⟨c, hc⟩ := not_forall.mp hany
  obtain ⟨hc, heq⟩ := Classical.not_imp.mp hc
  have heq := not_not.mp heq
  have hfree : c.info = 0 := by
    by_contra hinfo
    obtain ⟨l, hl, hptr, -⟩ := h.block hc hinfo
    exact hnot l hl (by rw [hptr, heq]; grind)
  obtain ⟨p, rest, hblocks, hp, hrest⟩ := h.first
  rw [hblocks] at hc
  obtain rfl | hc := mem_cons.mp hc
  · unfold rtxMemFree
    by_cases hnull : block = 0
    · rw [if_pos hnull]
    rw [if_neg hnull, hblocks]
    dsimp only
    rw [if_pos heq, MemBlock.len_of_free hfree, show (MemBlock.mk c.addr 0) = c by rw [← hfree], ← hblocks]
    simp
  · exact absurd hfree (hrest c hc)

theorem Inv.sound (h : Inv mem size s) (hplaced : Placed mem size) : Sound mem size s := by
  have hheader : ∀ l ∈ s.live, ∃ b ∈ s.pool.blocks, l.ptr.toNat = b.addr.toNat + 8 ∧
      b.len.toNat = rounded l.size := by
    intro l hl
    obtain ⟨b, hb, -, haddr, hlen⟩ := h.header hl
    exact ⟨b, hb, h.ptr hplaced hb haddr, by rw [hlen, blockSize_toNat (h.sizes l hl)]⟩
  refine ⟨fun l hl => ?_, fun l hl => ?_, fun l hl => ?_, fun l hl => ?_, ?_, ?_,
    fun n type hn htype hnone a hlow hhigh => h.fails hplaced hn htype hnone hlow hhigh,
    fun block hstop hnot => h.keeps hstop hnot⟩
  · obtain ⟨b, hb, hptr, -⟩ := hheader l hl
    have haligned := h.aligned b hb
    omega
  · obtain ⟨b, hb, hptr, -⟩ := hheader l hl
    have hlow := (h.bounds hplaced hb).1
    omega
  · obtain ⟨b, hb, hptr, hlen⟩ := hheader l hl
    have hhigh := (h.bounds hplaced hb).2.2
    omega
  · obtain ⟨b, hb, hptr, -⟩ := hheader l hl
    unfold rounded
    omega
  · refine (h.apart hplaced).imp_of_mem fun {l k} hl hk hapart a hla hka => ?_
    obtain ⟨hla, hla'⟩ := hla
    obtain ⟨hka, hka'⟩ := hka
    unfold Apart at hapart
    rw [blockSize_toNat (h.sizes l hl), blockSize_toNat (h.sizes k hk)] at hapart
    dsimp only at hapart
    omega
  · rw [h.used, h.lengths_live]

/-! ## The calls -/

theorem Inv.len_mod (h : Inv mem size s) (hb : b ∈ s.pool.blocks) : b.len.toNat % 8 = 0 := by
  by_cases hinfo : b.info = 0
  · rw [MemBlock.len_of_free hinfo]
    rfl
  · obtain ⟨l, hl, -, hlen⟩ := h.block hb hinfo
    rw [← hlen, blockSize_toNat (h.sizes l hl)]
    exact Nat.mul_mod_left ..

theorem Inv.alloc (h : Inv mem size s) (hplaced : Placed mem size) {ptr : BitVec 32}
    (hn : n.toNat + 15 < 2 ^ 32) (hfound : rtxMemAlloc s.pool n type = some (ptr, pool')) :
    Inv mem size { pool := pool', live := s.live ++ [{ ptr, size := n }] } := by
  have hallocated := rtxMemAlloc_spec h.inOrder hn hfound
  obtain ⟨front, mid, rest, b, hins⟩ := rtxMemAlloc_inserts h.inOrder hn hfound
  have hlenb : b.len.toNat = rounded n := by rw [hins.len, blockSize_toNat hn]
  have hinfo : b.info ≠ 0 := by
    intro hzero
    rw [MemBlock.len_of_free hzero] at hlenb
    have hpos : 8 ≤ rounded n := by unfold rounded; omega
    exact absurd (hlenb ▸ hpos) (by decide)
  have hmem : ∀ c ∈ pool'.blocks, c = b ∨ c ∈ s.pool.blocks := by
    intro c hc
    rw [hins.blocks'] at hc
    rw [hins.blocks]
    obtain hc | hc := mem_append.mp hc
    · exact .inr (mem_append_left _ (mem_append_left _ hc))
    · exact (mem_cons.mp hc).imp_right (mem_append_right _)
  have hfree : mid.filter (·.info ≠ 0) = [] :=
    filter_eq_nil_iff.mpr fun p hp => by simpa using hins.free p hp
  obtain ⟨p, tail, hblocks, hp, htail⟩ := h.first
  have hfirst : ∃ p rest, pool'.blocks = p :: rest ∧ p.addr = mem + 8 ∧ ∀ q ∈ rest, q.info ≠ 0 := by
    cases front with
    | nil =>
      obtain ⟨-, c, hc, -⟩ | ⟨c, hmid, haddr⟩ := hins.place
      · cases hc
      · have heq := hblocks.symm.trans hins.blocks
        rw [hmid] at heq
        obtain ⟨rfl, rfl⟩ := List.cons.inj heq
        exact ⟨b, _, hins.blocks', haddr.trans hp, htail⟩
    | cons c front =>
      have heq := hblocks.symm.trans hins.blocks
      rw [cons_append, cons_append] at heq
      obtain ⟨rfl, rfl⟩ := List.cons.inj heq
      refine ⟨p, front ++ b :: rest, hins.blocks', hp, fun q hq => ?_⟩
      obtain hq | hq := mem_append.mp hq
      · exact htail q (mem_append_left _ (mem_append_left _ hq))
      · obtain rfl | hq := mem_cons.mp hq
        · exact hinfo
        · exact htail q (mem_append_right _ hq)
  refine ⟨hallocated.inOrder, hfirst, hins.last.trans h.last, fun c hc => ?_, ?_, fun l hl => ?_, ?_⟩
  · obtain rfl | hc := hmem c hc
    · obtain ⟨-, q, hq, haddr⟩ | ⟨q, hmid, haddr⟩ := hins.place
      · have hq : q ∈ s.pool.blocks :=
          hins.blocks ▸ mem_append_left _ (mem_append_left _ hq)
        have haligned := h.aligned q hq
        have hlen := h.len_mod hq
        have hle := (h.bounds hplaced hq).2.2
        have hhigh := hplaced.high
        rw [haddr, BitVec.toNat_add]
        omega
      · have hq : q ∈ s.pool.blocks :=
          hins.blocks ▸ mem_append_left _ (mem_append_right _ (hmid ▸ mem_singleton_self q))
        rw [haddr]
        exact h.aligned q hq
    · exact h.aligned c hc
  · have hold : s.pool.inUse = (front.filter (·.info ≠ 0)).map (fun b => (b.addr + 8, b.len)) ++
        (rest.filter (·.info ≠ 0)).map fun b => (b.addr + 8, b.len) := by
      unfold MemPool.inUse
      rw [hins.blocks, filter_append, filter_append, hfree, append_nil, map_append]
    have hnew : pool'.inUse = (front.filter (·.info ≠ 0)).map (fun b => (b.addr + 8, b.len)) ++
        (ptr, blockSize n) :: (rest.filter (·.info ≠ 0)).map fun b => (b.addr + 8, b.len) := by
      unfold MemPool.inUse
      rw [hins.blocks', filter_append, filter_cons_of_pos (by simpa using hinfo), map_append,
        map_cons, ← hins.addr, hins.len]
    rw [map_append, hnew]
    refine perm_middle.trans ((List.Perm.cons _ (hold ▸ h.live)).trans ?_)
    exact (perm_append_singleton ..).symm
  · obtain hl | hl := mem_append.mp hl
    · exact h.sizes l hl
    · obtain rfl := mem_singleton.mp hl
      exact hn
  · have hold : lengths s.pool.blocks = lengths front + lengths rest := by
      rw [hins.blocks, lengths_append, lengths_append, ← lengths_filter mid, hfree]
      rfl
    have hnew : lengths pool'.blocks = lengths front + rounded n + lengths rest := by
      rw [hins.blocks', lengths_append, lengths_cons, hlenb]
      omega
    -- the blocks fit in the pool, so that what is counted does not wrap
    have hbound : mem.toNat + 8 + lengths pool'.blocks ≤ mem.toNat + size.toNat - 8 := by
      obtain ⟨q, rest', hcons, hq, -⟩ := hfirst
      have hle := lengths_le (hcons ▸ hallocated.inOrder.sorted) (hcons ▸ hallocated.inOrder.last)
      rwa [hins.last, h.last, hplaced.last, hq, hplaced.first, ← hcons] at hle
    have hhigh := hplaced.high
    have hlow := hplaced.low
    show pool'.used.toNat = 16 + lengths pool'.blocks
    rw [hins.used, BitVec.toNat_add, h.used, blockSize_toNat hn]
    omega

theorem Inv.free (h : Inv mem size s) (hplaced : Placed mem size) {a : BitVec 32} (hstop : a ≠ mem + size) :
    Inv mem size { pool := rtxMemFree s.pool a, live := s.live.filter (·.ptr ≠ a) } := by
  by_cases hlive : ∀ l ∈ s.live, l.ptr ≠ a
  · rw [h.keeps hstop hlive, filter_eq_self.mpr fun l hl => by simpa using hlive l hl]
    exact h
  obtain ⟨l, hl⟩ := not_forall.mp hlive
  obtain ⟨hl, heq⟩ := Classical.not_imp.mp hl
  obtain ⟨b, hb, hinfo, haddr, -⟩ := h.header hl
  have heq := haddr.trans (not_not.mp heq)
  have hnull : a ≠ 0 := by
    have hptr := h.ptr hplaced hb haddr
    rw [← haddr, heq] at hptr
    rintro rfl
    cases hptr
  have hlast : s.pool.last ≠ a - 8 := by
    rw [h.last]
    exact fun hsame => hstop (by grind)
  obtain ⟨front, back, hblocks⟩ := append_of_mem hb
  have hfreed := rtxMemFree_of_mem h.inOrder hblocks (by rw [← heq]; grind) hnull
  have hsorted := pairwise_append.mp (hblocks ▸ h.inOrder.sorted)
  -- the other headers have other addresses
  have hother {c : MemBlock} (hc : c ∈ front ∨ c ∈ back) : c.addr + 8 ≠ a := by
    rw [← heq]
    intro hsame
    have hsame : c.addr = b.addr := by grind
    obtain hc | hc := hc
    · have hlt := (hsorted.2.2 c hc b (mem_cons_self ..)).1
      rw [hsame] at hlt
      exact absurd hlt (Nat.lt_irrefl _)
    · have hlt := ((pairwise_cons.mp hsorted.2.1).1 c hc).1
      rw [hsame] at hlt
      exact absurd hlt (Nat.lt_irrefl _)
  have hused : (without front b back).filter (·.info ≠ 0) = (front ++ back).filter (·.info ≠ 0) := by
    cases front with
    | nil => exact filter_cons_of_neg (by simp)
    | cons => rfl
  have hlengths : lengths (without front b back) + b.len.toNat = lengths s.pool.blocks := by
    rw [← lengths_filter, hused, lengths_filter, hblocks, lengths_append, lengths_append, lengths_cons]
    omega
  have hmem : ∀ c ∈ without front b back, ∃ d ∈ s.pool.blocks, c.addr = d.addr := by
    rw [hblocks]
    intro c hc
    cases front with
    | nil =>
      obtain rfl | hc := mem_cons.mp hc
      · exact ⟨b, mem_cons_self .., rfl⟩
      · exact ⟨c, mem_cons_of_mem _ hc, rfl⟩
    | cons p front =>
      obtain hc | hc := mem_append.mp hc
      · exact ⟨c, mem_append_left _ hc, rfl⟩
      · exact ⟨c, mem_append_right _ (mem_cons_of_mem _ hc), rfl⟩
  have hinOrder := rtxMemFree_inOrder h.inOrder hlast
  rw [hfreed] at hinOrder ⊢
  refine ⟨hinOrder, ?_, h.last, fun c hc => ?_, ?_, fun k hk => h.sizes k (mem_of_mem_filter hk), ?_⟩
  · obtain ⟨p, tail, hcons, hp, htail⟩ := h.first
    have hcons := hcons.symm.trans hblocks
    cases front with
    | nil =>
      obtain ⟨rfl, rfl⟩ := List.cons.inj hcons
      exact ⟨_, tail, rfl, hp, htail⟩
    | cons q front =>
      obtain ⟨rfl, rfl⟩ := List.cons.inj hcons
      refine ⟨p, front ++ back, rfl, hp, fun c hc => htail c ?_⟩
      obtain hc | hc := mem_append.mp hc
      · exact mem_append_left _ hc
      · exact mem_append_right _ (mem_cons_of_mem _ hc)
  · obtain ⟨d, hd, hsame⟩ := hmem c hc
    rw [hsame]
    exact h.aligned d hd
  · have hnew : ((without front b back).filter (·.info ≠ 0)).map (fun b => (b.addr + 8, b.len)) =
        s.pool.inUse.filter (·.1 ≠ a) := by
      have hkeep : ∀ x ∈ ((front ++ back).filter (·.info ≠ 0)).map (fun b => (b.addr + 8, b.len)),
          decide (x.1 ≠ a) = true := by
        intro x hx
        obtain ⟨c, hc, rfl⟩ := mem_map.mp hx
        exact decide_eq_true (hother (mem_append.mp (mem_of_mem_filter hc)))
      unfold MemPool.inUse
      rw [hused, ← filter_eq_self.mpr hkeep, hblocks, filter_append, filter_append,
        filter_cons_of_pos (by simpa using hinfo), map_append, map_append, map_cons,
        filter_append, filter_append, filter_cons_of_neg (by simpa using heq)]
    have hperm := h.live.filter (·.1 ≠ a)
    rw [← hnew, filter_map] at hperm
    exact hperm
  · show (s.pool.used - b.len).toNat = 16 + lengths (without front b back)
    have hle : b.len.toNat ≤ s.pool.used.toNat := by
      rw [h.used]
      omega
    rw [BitVec.toNat_sub_of_le (BitVec.le_def.mpr hle), h.used]
    omega

theorem Inv.step (h : Inv mem size s) (hplaced : Placed mem size) {call : Call}
    (hlegal : Legal mem size call) : Inv mem size (s.step call) := by
  cases call with
  | alloc n type =>
    unfold Run.step
    dsimp only
    rcases hfound : rtxMemAlloc s.pool n type with _ | ⟨ptr, pool'⟩
    · exact h
    · exact h.alloc hplaced hlegal hfound
  | free a => exact h.free hplaced hlegal

/-- **A pool after any run** in which no size wraps and the last header is not freed. -/
theorem sound_run (h : rtxMemInit mem size = some pool) (hend : mem.toNat + size.toNat ≤ 2 ^ 32)
    (calls : List Call) (hlegal : ∀ call ∈ calls, Legal mem size call) :
    Sound mem size (calls.foldl Run.step { pool, live := [] }) := by
  have hplaced := placed_of_init h hend
  refine Inv.sound ?_ hplaced
  refine List.foldlRecOn calls Run.step (inv_init h hend) fun s hs call hcall => ?_
  exact hs.step hplaced (hlegal call hcall)

def freshPool : MemPool :=
  { blocks := [{ addr := 0x20000008, info := 0 }]
    last := 0x20000038
    lastInfo := 16
    stop := 0x20000038
    used := 16 }

theorem sound_fresh : Sound 0x20000000 64
    ([.alloc 5 0, .alloc 8 1, .free 0x20000010, .free 0x20000011].foldl Run.step
      { pool := freshPool, live := [] }) :=
  sound_run (show rtxMemInit 0x20000000 64 = some freshPool by decide) (by decide) _ (by simp [Legal])

/-- No block for the size 0; one of no bytes for a size that wraps; and the last header is freed, which
is no block. -/
theorem not_sound : rtxMemInit 0x20000000 64 = some freshPool ∧ rtxMemAlloc freshPool 0 0 = none ∧
    (Run.step { pool := freshPool, live := [] } (.alloc 0xfffffff8 0)).live = [⟨0x20000010, 0xfffffff8⟩] ∧
    ¬ (0x20000010 + 0xfffffff8 ≤ 0x20000000 + 64) ∧
    rtxMemFree freshPool 0x20000040 ≠ freshPool := by
  decide

end Gpmx.Mm
