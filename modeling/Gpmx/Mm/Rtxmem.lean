import Mathlib

/-!
# The memory pool of `gpm/mm/rtxmem.c`

The headers of a pool as a list, in the order in which they are chained. A header holds the length of its
block, itself included; only the first one can be of length 0, and then has no block.

* `rtxMemInit`, `rtxMemAlloc`, `rtxMemFree` — on the headers
* `MemPool.InOrder` — every block ends before the next header; what `rtx_mem_init` builds and the calls
  keep
-/

namespace Gpmx.Mm

open List

/-- `mem_block_t`, with its address. -/
structure MemBlock where
  addr : BitVec 32
  info : BitVec 32
  deriving DecidableEq

/-- `info & MB_INFO_LEN_MASK` -/
def MemBlock.len (p : MemBlock) : BitVec 32 := p.info &&& 0xfffffffc

/-- A pool: its headers without the last one, that one, and `used`. The last header is at `stop`, where
its `info` is the greatest `used` so far, until it is freed. -/
structure MemPool where
  blocks : List MemBlock
  last : BitVec 32
  lastInfo : BitVec 32
  stop : BitVec 32
  used : BitVec 32
  deriving DecidableEq

def rtxMemInit (mem size : BitVec 32) : Option MemPool :=
  if mem = 0 ∨ mem &&& 7 ≠ 0 ∨ size &&& 7 ≠ 0 ∨ size < 8 + 2 * 8 then none
  else
    some
      { blocks := [{ addr := mem + 8, info := 0 }]
        last := mem + (size - 8)
        lastInfo := 16
        stop := mem + (size - 8)
        used := 16 }

/-- `p->next` of the header before some headers. -/
def nextAddr (last : BitVec 32) : List MemBlock → BitVec 32
  | [] => last
  | p :: _ => p.addr

def blockSize (size : BitVec 32) : BitVec 32 := (size + 8 + 7) &&& ~~~7

def allocIn (last blockSize type : BitVec 32) : List MemBlock → Option (BitVec 32 × List MemBlock)
  | [] => none
  | p :: rest =>
    if blockSize ≤ nextAddr last rest - p.addr - p.len then
      if p.info = 0 then some (p.addr + 8, { p with info := blockSize ||| type } :: rest)
      else
        let new := p.addr + p.len
        some (new + 8, p :: { addr := new, info := blockSize ||| type } :: rest)
    else (allocIn last blockSize type rest).map fun r => (r.1, p :: r.2)

def count (mem : MemPool) (blockSize : BitVec 32) : MemPool :=
  let used := mem.used + blockSize
  { mem with
    used
    lastInfo := if mem.last = mem.stop ∧ mem.lastInfo < used then used else mem.lastInfo }

def rtxMemAlloc (mem : MemPool) (size type : BitVec 32) : Option (BitVec 32 × MemPool) :=
  if size = 0 ∨ type &&& ~~~3 ≠ 0 then none
  else
    let blockSize := blockSize size
    match mem.blocks with
    -- the last header has been freed, and the first one has no `next`
    | [] =>
      let p : MemBlock := { addr := mem.last, info := mem.lastInfo }
      if blockSize ≤ 0 - p.addr - p.len then
        if p.info = 0 then some (p.addr + 8, { count mem blockSize with lastInfo := blockSize ||| type })
        else
          let new := p.addr + p.len
          some (new + 8,
            { count mem blockSize with
              blocks := [p]
              last := new
              lastInfo := blockSize ||| type })
      else none
    | p :: rest =>
      (allocIn mem.last blockSize type (p :: rest)).map fun r =>
        (r.1, { count mem blockSize with blocks := r.2 })

/-- `rtx_mem_free`: the first header stays, another one is taken out of the chain. -/
def rtxMemFree (mem : MemPool) (block : BitVec 32) : MemPool :=
  if block = 0 then mem
  else
    match mem.blocks with
    | [] =>
      let p : MemBlock := { addr := mem.last, info := mem.lastInfo }
      if p.addr = block - 8 then { mem with lastInfo := 0, used := mem.used - p.len } else mem
    | p :: rest =>
      if p.addr = block - 8 then
        { mem with blocks := { p with info := 0 } :: rest, used := mem.used - p.len }
      else
        match rest.find? (·.addr = block - 8) with
        | some q =>
          { mem with blocks := p :: rest.eraseP (·.addr = block - 8), used := mem.used - q.len }
        | none =>
          -- the last header is found too, and then the one before it becomes the last
          if mem.last = block - 8 then
            let q := (p :: rest).getLast (cons_ne_nil _ _)
            { mem with
              blocks := (p :: rest).dropLast
              last := q.addr
              lastInfo := q.info
              used := mem.used - (MemBlock.mk mem.last mem.lastInfo).len }
          else mem

def MemBlock.Before (p : MemBlock) (a : BitVec 32) : Prop :=
  p.addr.toNat < a.toNat ∧ p.addr.toNat + p.len.toNat ≤ a.toNat

/-- Headers in the order of their addresses, none of them inside a block. -/
structure MemPool.InOrder (mem : MemPool) : Prop where
  nonempty : mem.blocks ≠ []
  sorted : mem.blocks.Pairwise fun p q => p.Before q.addr
  last : ∀ p ∈ mem.blocks, p.Before mem.last
  len : ∀ p ∈ mem.blocks, p.info ≠ 0 → p.len ≠ 0

/-! ## Sizes -/

theorem toNat_and_not (x m : BitVec 32) : (x &&& ~~~m).toNat + (x &&& m).toNat = x.toNat := by
  have hdisjoint : (x &&& ~~~m) &&& (x &&& m) = 0 := by
    apply BitVec.eq_of_getLsbD_eq
    intro i hi
    simp only [BitVec.getLsbD_and, BitVec.getLsbD_not]
    cases x.getLsbD i <;> cases m.getLsbD i <;> simp
  have hor : (x &&& ~~~m) ||| (x &&& m) = x := by
    apply BitVec.eq_of_getLsbD_eq
    intro i hi
    simp only [BitVec.getLsbD_or, BitVec.getLsbD_and, BitVec.getLsbD_not, hi]
    cases x.getLsbD i <;> cases m.getLsbD i <;> simp
  have hlow : (x &&& m).toNat ≤ x.toNat := BitVec.toNat_and x m ▸ Nat.and_le_left
  have hadd := congrArg BitVec.toNat (BitVec.add_eq_or_of_and_eq_zero _ _ hdisjoint)
  rw [hor, BitVec.toNat_add] at hadd
  have hhigh : (x &&& ~~~m).toNat ≤ x.toNat := BitVec.toNat_and x (~~~m) ▸ Nat.and_le_left
  omega

variable {size : BitVec 32} {b : MemBlock} {a : BitVec 32} {front rest : List MemBlock}

theorem le_blockSize (h : size.toNat + 15 < 2 ^ 32) : size.toNat + 8 ≤ (blockSize size).toNat := by
  have hsplit := toNat_and_not (size + 8 + 7) 7
  have hlow : (size + 8 + 7 &&& 7).toNat ≤ 7 := BitVec.toNat_and _ _ ▸ Nat.and_le_right
  have hsum : (size + 8 + 7).toNat = size.toNat + 15 := by bv_omega
  unfold blockSize
  omega

theorem le_blockSize_iff : size.toNat + 8 ≤ (blockSize size).toNat ↔ size.toNat + 15 < 2 ^ 32 := by
  refine ⟨fun h => Nat.lt_of_not_le fun hwrap => ?_, le_blockSize⟩
  have hle : (blockSize size).toNat ≤ (size + 8 + 7).toNat := BitVec.toNat_and _ _ ▸ Nat.and_le_left
  bv_omega

theorem len_blockSize {type : BitVec 32} (h : type &&& ~~~3 = 0) (a : BitVec 32) :
    (MemBlock.mk a (blockSize size ||| type)).len = blockSize size := by
  unfold MemBlock.len blockSize
  apply BitVec.eq_of_getLsbD_eq
  intro i hi
  have hbit := congrArg (BitVec.getLsbD · i) h
  simp only [BitVec.getLsbD_and, BitVec.getLsbD_or, BitVec.getLsbD_not] at hbit ⊢
  interval_cases i <;> simp_all

theorem MemBlock.len_of_free (h : b.info = 0) : b.len = 0 := by
  unfold MemBlock.len
  rw [h]
  exact BitVec.zero_and

/-! ## `rtx_mem_alloc` -/

variable {mem mem' : MemPool} {last bs type q size : BitVec 32}

theorem rtxMemAlloc_zero : rtxMemAlloc mem 0 type = none := by
  exact if_pos (.inl rfl)

theorem allocIn_eq_some {blocks blocks' : List MemBlock}
    (h : allocIn last bs type blocks = some (q, blocks')) :
    ∃ front p rest, blocks = front ++ p :: rest ∧ bs ≤ nextAddr last rest - p.addr - p.len ∧
      (p.info = 0 ∧ q = p.addr + 8 ∧ blocks' = front ++ { p with info := bs ||| type } :: rest ∨
        p.info ≠ 0 ∧ q = p.addr + p.len + 8 ∧
          blocks' = front ++ p :: { addr := p.addr + p.len, info := bs ||| type } :: rest) := by
  induction blocks generalizing blocks' with
  | nil => cases h
  | cons p rest ih =>
    unfold allocIn at h
    split_ifs at h with hhole hinfo
    · obtain ⟨rfl, rfl⟩ := Prod.ext_iff.mp (Option.some.inj h)
      exact ⟨[], p, rest, rfl, hhole, .inl ⟨hinfo, rfl, rfl⟩⟩
    · obtain ⟨rfl, rfl⟩ := Prod.ext_iff.mp (Option.some.inj h)
      exact ⟨[], p, rest, rfl, hhole, .inr ⟨hinfo, rfl, rfl⟩⟩
    · obtain ⟨⟨q', blocks''⟩, hfound, heq⟩ := Option.map_eq_some_iff.mp h
      obtain ⟨rfl, rfl⟩ := Prod.ext_iff.mp heq
      obtain ⟨front, p', rest', rfl, hle, hcase⟩ := ih hfound
      refine ⟨p :: front, p', rest', rfl, hle, ?_⟩
      exact hcase.imp (fun ⟨h1, h2, h3⟩ => ⟨h1, h2, congrArg (p :: ·) h3⟩)
        fun ⟨h1, h2, h3⟩ => ⟨h1, h2, congrArg (p :: ·) h3⟩

structure Allocated (mem mem' : MemPool) (q size : BitVec 32) : Prop where
  inOrder : mem'.InOrder
  last : mem'.last = mem.last
  block : ∃ b ∈ mem'.blocks, b.addr = q - 8 ∧ b.info ≠ 0 ∧ size.toNat + 8 ≤ b.len.toNat
  keeps : ∀ c ∈ mem.blocks, c.info ≠ 0 → c ∈ mem'.blocks
  fresh : ∀ c ∈ mem.blocks, c.info ≠ 0 → c.addr ≠ q - 8

variable {p : MemBlock} {mid : List MemBlock}

theorem MemBlock.Before.trans_lt {b : BitVec 32} (h : p.Before a) (hlt : a.toNat ≤ b.toNat) :
    p.Before b :=
  ⟨Nat.lt_of_lt_of_le h.1 hlt, Nat.le_trans h.2 hlt⟩

theorem MemPool.InOrder.congr (h : mem.InOrder) (hblocks : mem'.blocks = mem.blocks)
    (hlast : mem'.last = mem.last) : mem'.InOrder :=
  ⟨hblocks ▸ h.nonempty, hblocks ▸ h.sorted, hblocks ▸ hlast ▸ h.last, hblocks ▸ h.len⟩

theorem MemPool.InOrder.before_next (h : mem.InOrder) (hblocks : mem.blocks = front ++ p :: rest) :
    p.Before (nextAddr mem.last rest) := by
  have hsorted := hblocks ▸ h.sorted
  cases rest with
  | nil => exact h.last p (hblocks ▸ mem_append_right _ (mem_cons_self ..))
  | cons next rest =>
    have htail := (pairwise_append.mp hsorted).2.1
    exact (pairwise_cons.mp htail).1 next (mem_cons_self ..)

theorem MemPool.InOrder.insert (h : mem.InOrder) (hblocks : mem.blocks = front ++ mid ++ rest)
    (hfront : ∀ p ∈ front, p.Before b.addr) (hnext : b.Before (nextAddr mem.last rest))
    (hlen : b.info ≠ 0 → b.len ≠ 0) :
    MemPool.InOrder { mem with blocks := front ++ b :: rest } := by
  have hall := pairwise_append.mp (hblocks ▸ h.sorted)
  have hlast := hblocks ▸ h.last
  have hlens := hblocks ▸ h.len
  have hrest : (∀ q ∈ rest, b.Before q.addr) ∧ b.Before mem.last := by
    cases rest with
    | nil => exact ⟨fun _ hq => (nomatch hq), hnext⟩
    | cons next rest =>
      refine ⟨fun q hq => ?_, ?_⟩
      · obtain rfl | hq := mem_cons.mp hq
        · exact hnext
        · exact hnext.trans_lt (Nat.le_of_lt ((pairwise_cons.mp hall.2.1).1 q hq).1)
      · have hlater := hlast next (mem_append_right _ (mem_cons_self ..))
        exact hnext.trans_lt (Nat.le_of_lt hlater.1)
  refine ⟨by simp, pairwise_append.mpr ⟨(pairwise_append.mp hall.1).1,
    pairwise_cons.mpr ⟨hrest.1, hall.2.1⟩, fun p hp q hq => ?_⟩, fun p hp => ?_, fun p hp => ?_⟩
  · obtain rfl | hq := mem_cons.mp hq
    · exact hfront p hp
    · exact hall.2.2 p (mem_append_left _ hp) q hq
  · obtain hp | hp := mem_append.mp hp
    · exact hlast p (mem_append_left _ (mem_append_left _ hp))
    · obtain rfl | hp := mem_cons.mp hp
      · exact hrest.2
      · exact hlast p (mem_append_right _ hp)
  · obtain hp | hp := mem_append.mp hp
    · exact hlens p (mem_append_left _ (mem_append_left _ hp))
    · obtain rfl | hp := mem_cons.mp hp
      · exact hlen
      · exact hlens p (mem_append_right _ hp)

theorem Allocated.of_insert (h : mem.InOrder) (hblocks : mem.blocks = front ++ mid ++ rest)
    (hmid : ∀ p ∈ mid, p.info = 0) (hfront : ∀ p ∈ front, p.Before b.addr)
    (hnext : b.Before (nextAddr mem.last rest)) (haddr : q = b.addr + 8)
    (hlen : size.toNat + 8 ≤ b.len.toNat) (hnew : mem'.blocks = front ++ b :: rest)
    (hlast : mem'.last = mem.last) : Allocated mem mem' q size := by
  have hne : b.len ≠ 0 := fun hzero => by
    rw [hzero] at hlen
    cases hlen
  have hinfo : b.info ≠ 0 := fun hzero => hne (MemBlock.len_of_free hzero)
  have hq : b.addr = q - 8 := by rw [haddr]; bv_omega
  have hinOrder : mem'.InOrder := (h.insert hblocks hfront hnext fun _ => hne).congr hnew hlast
  have hsorted := pairwise_append.mp (hnew ▸ hinOrder.sorted)
  have hold : ∀ c ∈ mem.blocks, c.info ≠ 0 → c ∈ front ∨ c ∈ rest := by
    intro c hc hused
    rw [hblocks] at hc
    obtain hc | hc := mem_append.mp hc
    · obtain hc | hc := mem_append.mp hc
      · exact .inl hc
      · exact absurd (hmid c hc) hused
    · exact .inr hc
  refine ⟨hinOrder, hlast, ⟨b, ?_, hq, hinfo, hlen⟩, fun c hc hused => ?_, fun c hc hused heq => ?_⟩
  · exact hnew ▸ mem_append_right _ (mem_cons_self ..)
  · exact hnew ▸ mem_append.mpr ((hold c hc hused).imp_right (mem_cons_of_mem _))
  · have heq := congrArg BitVec.toNat (heq.trans hq.symm)
    obtain hc | hc := hold c hc hused
    · exact absurd heq (Nat.ne_of_lt (hsorted.2.2 c hc b (mem_cons_self ..)).1)
    · exact absurd heq.symm (Nat.ne_of_lt ((pairwise_cons.mp hsorted.2.1).1 c hc).1)

structure Inserted (mem mem' : MemPool) (q size type : BitVec 32) (front mid rest : List MemBlock)
    (b : MemBlock) : Prop where
  blocks : mem.blocks = front ++ mid ++ rest
  blocks' : mem'.blocks = front ++ b :: rest
  free : ∀ p ∈ mid, p.info = 0
  info : b.info = blockSize size ||| type
  len : b.len = blockSize size
  addr : q = b.addr + 8
  before : ∀ p ∈ front, p.Before b.addr
  next : b.Before (nextAddr mem.last rest)
  place : mid = [] ∧ (∃ p ∈ front, b.addr = p.addr + p.len) ∨ ∃ p, mid = [p] ∧ b.addr = p.addr
  last : mem'.last = mem.last
  stop : mem'.stop = mem.stop
  used : mem'.used = mem.used + blockSize size

theorem rtxMemAlloc_inserts (h : mem.InOrder) (hsize : size.toNat + 15 < 2 ^ 32)
    (hfound : rtxMemAlloc mem size type = some (q, mem')) :
    ∃ front mid rest b, Inserted mem mem' q size type front mid rest b := by
  unfold rtxMemAlloc at hfound
  split_ifs at hfound with hargs
  have htype : type &&& ~~~3 = 0 := not_not.mp (not_or.mp hargs).2
  obtain ⟨p, rest, hblocks⟩ := exists_cons_of_ne_nil h.nonempty
  rw [hblocks] at hfound
  dsimp only at hfound
  rw [← hblocks] at hfound
  clear hblocks p rest
  obtain ⟨⟨q', blocks'⟩, hin, heq⟩ := Option.map_eq_some_iff.mp hfound
  obtain ⟨rfl, rfl⟩ := Prod.ext_iff.mp heq
  have hroom := le_blockSize hsize
  obtain ⟨front, p, rest, hblocks, hhole, hcase⟩ := allocIn_eq_some hin
  have hbefore := h.before_next hblocks
  have hsorted := pairwise_append.mp (hblocks ▸ h.sorted)
  have hfront : ∀ c ∈ front, c.Before p.addr := fun c hc => hsorted.2.2 c hc p (mem_cons_self ..)
  have hhole : (blockSize size).toNat ≤
      (nextAddr mem.last rest).toNat - p.addr.toNat - p.len.toNat := by
    have hle := BitVec.le_def.mp hhole
    obtain ⟨hlt, hend⟩ := hbefore
    rw [BitVec.toNat_sub_of_le (BitVec.le_def.mpr _), BitVec.toNat_sub_of_le (BitVec.le_def.mpr hlt.le)]
      at hle
    · exact hle
    · rw [BitVec.toNat_sub_of_le (BitVec.le_def.mpr hlt.le)]
      omega
  obtain ⟨hinfo, rfl, rfl⟩ | ⟨hinfo, rfl, rfl⟩ := hcase
  · refine ⟨front, [p], rest, { p with info := blockSize size ||| type }, by simpa using hblocks, rfl,
      by simpa using hinfo, rfl, len_blockSize htype _, rfl, hfront, ⟨hbefore.1, ?_⟩,
      .inr ⟨p, rfl, rfl⟩, rfl, rfl, rfl⟩
    rw [len_blockSize htype]
    have hlt := hbefore.1
    dsimp only
    omega
  · have hne := h.len p (hblocks ▸ mem_append_right _ (mem_cons_self ..)) hinfo
    have hpos : 0 < p.len.toNat := Nat.pos_of_ne_zero fun hzero => hne (BitVec.eq_of_toNat_eq hzero)
    have haddr : (p.addr + p.len).toNat = p.addr.toNat + p.len.toNat := by
      rw [BitVec.toNat_add]
      have hlt := (nextAddr mem.last rest).isLt
      have hend := hbefore.2
      omega
    refine ⟨front ++ [p], [], rest, { addr := p.addr + p.len, info := blockSize size ||| type },
      by simpa using hblocks, by simp, fun _ hp => (nomatch hp), rfl, len_blockSize htype _, rfl,
      fun c hc => ?_, ⟨?_, ?_⟩, .inl ⟨rfl, p, mem_append_right _ (mem_singleton_self p), rfl⟩,
      rfl, rfl, rfl⟩
    · obtain hc | hc := mem_append.mp hc
      · exact (hfront c hc).trans_lt (by rw [haddr]; omega)
      · obtain rfl := mem_singleton.mp hc
        exact ⟨by rw [haddr]; omega, haddr.ge⟩
    · rw [haddr]
      omega
    · rw [len_blockSize htype, haddr]
      omega

/-- **Calls that find a block** keep the order and every block, as long as the size does not wrap. -/
theorem rtxMemAlloc_spec (h : mem.InOrder) (hsize : size.toNat + 15 < 2 ^ 32)
    (hfound : rtxMemAlloc mem size type = some (q, mem')) :
    Allocated mem mem' q size := by
  obtain ⟨front, mid, rest, b, hinserted⟩ := rtxMemAlloc_inserts h hsize hfound
  exact Allocated.of_insert h hinserted.blocks hinserted.free hinserted.before hinserted.next hinserted.addr
    (hinserted.len ▸ le_blockSize hsize) hinserted.blocks' hinserted.last

/-! ## `rtx_mem_init` and `rtx_mem_free` -/

theorem rtxMemFree_null : rtxMemFree mem 0 = mem := by
  exact if_pos rfl

theorem rtxMemInit_inOrder (h : rtxMemInit a size = some mem) (hend : a.toNat + size.toNat ≤ 2 ^ 32) :
    mem.InOrder := by
  unfold rtxMemInit at h
  split_ifs at h with hargs
  cases h
  have hsize : 24 ≤ size.toNat := by
    have hge := fun hlt => hargs (.inr (.inr (.inr hlt)))
    exact Nat.le_of_not_lt fun hlt => hge (BitVec.lt_def.mpr hlt)
  refine ⟨cons_ne_nil _ _, pairwise_singleton .., fun p hp => ?_, fun p hp hused => ?_⟩
  · obtain rfl := mem_singleton.mp hp
    refine ⟨?_, ?_⟩
    · show (a + 8).toNat < (a + (size - 8)).toNat
      bv_omega
    · rw [MemBlock.len_of_free rfl]
      show (a + 8).toNat + 0 ≤ (a + (size - 8)).toNat
      bv_omega
  · obtain rfl := mem_singleton.mp hp
    exact absurd rfl hused

theorem rtxMemFree_inOrder (h : mem.InOrder) (hlast : mem.last ≠ a - 8) :
    (rtxMemFree mem a).InOrder := by
  unfold rtxMemFree
  by_cases hnull : a = 0
  · rw [if_pos hnull]
    exact h
  rw [if_neg hnull]
  rcases hblocks : mem.blocks with _ | ⟨p, rest⟩
  · exact absurd hblocks h.nonempty
  · have hsorted := hblocks ▸ h.sorted
    have hlasts := hblocks ▸ h.last
    have hlen := hblocks ▸ h.len
    have hhead := pairwise_cons.mp hsorted
    dsimp only
    by_cases hfirst : p.addr = a - 8
    · rw [if_pos hfirst]
      have hbefore {b : BitVec 32} (hlt : p.Before b) : (MemBlock.mk p.addr 0).Before b :=
        ⟨hlt.1, by rw [MemBlock.len_of_free rfl]; exact Nat.le_of_lt hlt.1⟩
      refine ⟨cons_ne_nil _ _, pairwise_cons.mpr ⟨fun q hq => hbefore (hhead.1 q hq), hhead.2⟩,
        fun q hq => ?_, fun q hq => ?_⟩
      · obtain rfl | hq := mem_cons.mp hq
        · exact hbefore (hlasts p (mem_cons_self ..))
        · exact hlasts q (mem_cons_of_mem _ hq)
      · obtain rfl | hq := mem_cons.mp hq
        · exact fun hused => absurd rfl hused
        · exact hlen q (mem_cons_of_mem _ hq)
    · rw [if_neg hfirst]
      split
      · have hsub : (p :: rest.eraseP (·.addr = a - 8)).Sublist (p :: rest) :=
          (eraseP_sublist).cons_cons p
        exact ⟨cons_ne_nil _ _, hsorted.sublist hsub, fun q hq => hlasts q (hsub.subset hq),
          fun q hq => hlen q (hsub.subset hq)⟩
      · rw [if_neg hlast]
        exact h

theorem MemPool.InOrder.ne_of_inside (h : mem.InOrder) (hb : b ∈ mem.blocks)
    (hlow : b.addr.toNat < a.toNat) (hhigh : a.toNat < b.addr.toNat + b.len.toNat) :
    (∀ c ∈ mem.blocks, c.addr ≠ a) ∧ mem.last ≠ a := by
  refine ⟨fun c hc heq => ?_, fun heq => ?_⟩
  · subst heq
    obtain ⟨front, rest, hblocks⟩ := append_of_mem hb
    have hsorted := pairwise_append.mp (hblocks ▸ h.sorted)
    rw [hblocks] at hc
    obtain hc | hc := mem_append.mp hc
    · have hlt := (hsorted.2.2 c hc b (mem_cons_self ..)).1
      omega
    · obtain rfl | hc := mem_cons.mp hc
      · omega
      · have hle := ((pairwise_cons.mp hsorted.2.1).1 c hc).2
        omega
  · subst heq
    have hle := (h.last b hb).2
    omega

theorem rtxMemFree_of_ne (hne : ∀ c ∈ mem.blocks, c.addr ≠ a - 8) (hlast : mem.last ≠ a - 8) :
    rtxMemFree mem a = mem := by
  unfold rtxMemFree
  by_cases hnull : a = 0
  · rw [if_pos hnull]
  rw [if_neg hnull]
  rcases hblocks : mem.blocks with _ | ⟨p, rest⟩
  · exact if_neg hlast
  · rw [hblocks] at hne
    have hnone : rest.find? (·.addr = a - 8) = none :=
      find?_eq_none.mpr fun c hc => by simpa using hne c (mem_cons_of_mem _ hc)
    dsimp only
    rw [if_neg (hne p (mem_cons_self ..)), hnone]
    exact if_neg hlast

theorem rtxMemFree_of_inside (h : mem.InOrder) (hb : b ∈ mem.blocks)
    (hlow : b.addr.toNat < (a - 8).toNat) (hhigh : (a - 8).toNat < b.addr.toNat + b.len.toNat) :
    rtxMemFree mem a = mem := by
  obtain ⟨hne, hlast⟩ := h.ne_of_inside hb hlow hhigh
  exact rtxMemFree_of_ne hne hlast

theorem mem_rtxMemFree {c : MemBlock} (hc : c ∈ mem.blocks) (hne : c.addr ≠ a - 8)
    (hlast : mem.last ≠ a - 8) :
    c ∈ (rtxMemFree mem a).blocks ∧ (rtxMemFree mem a).last = mem.last := by
  unfold rtxMemFree
  by_cases hnull : a = 0
  · rw [if_pos hnull]
    exact ⟨hc, rfl⟩
  rw [if_neg hnull]
  rcases hblocks : mem.blocks with _ | ⟨p, rest⟩
  · rw [hblocks] at hc
    cases hc
  · have hc' := hblocks ▸ hc
    dsimp only
    by_cases hfirst : p.addr = a - 8
    · rw [if_pos hfirst]
      refine ⟨?_, rfl⟩
      obtain rfl | hc := mem_cons.mp hc'
      · exact absurd hfirst hne
      · exact mem_cons_of_mem _ hc
    · rw [if_neg hfirst]
      split
      · refine ⟨?_, rfl⟩
        obtain rfl | hc := mem_cons.mp hc'
        · exact mem_cons_self ..
        · exact mem_cons_of_mem _ ((mem_eraseP_of_neg (by simpa using hne)).mpr hc)
      · rw [if_neg hlast]
        exact ⟨hc, rfl⟩

def without (front : List MemBlock) (b : MemBlock) (back : List MemBlock) : List MemBlock :=
  match front with
  | [] => { b with info := 0 } :: back
  | _ :: _ => front ++ back

theorem rtxMemFree_of_mem {back : List MemBlock} (h : mem.InOrder)
    (hblocks : mem.blocks = front ++ b :: back) (haddr : b.addr = a - 8) (hnull : a ≠ 0) :
    rtxMemFree mem a = { mem with
      blocks := without front b back
      used := mem.used - b.len } := by
  have hsorted := hblocks ▸ h.sorted
  unfold rtxMemFree
  rw [if_neg hnull, hblocks]
  cases front with
  | nil => exact if_pos haddr
  | cons p front =>
    have hlt := (pairwise_append.mp hsorted).2.2
    have hne {c : MemBlock} (hc : c ∈ p :: front) : c.addr ≠ a - 8 := by
      rw [← haddr]
      intro heq
      have hbefore := (hlt c hc b (mem_cons_self ..)).1
      rw [heq] at hbefore
      exact absurd hbefore (Nat.lt_irrefl _)
    have hfind : (front ++ b :: back).find? (·.addr = a - 8) = some b := by
      rw [find?_append, find?_eq_none.mpr fun c hc => by simpa using hne (mem_cons_of_mem _ hc),
        Option.none_or, find?_cons_of_pos (by simpa using haddr)]
    have herase : (front ++ b :: back).eraseP (·.addr = a - 8) = front ++ back := by
      rw [eraseP_append_right _ fun c hc => by simpa using hne (mem_cons_of_mem _ hc),
        eraseP_cons_of_pos (by simpa using haddr)]
    dsimp only [cons_append]
    rw [if_neg (hne (mem_cons_self ..)), hfind, herase]
    rfl

end Gpmx.Mm
