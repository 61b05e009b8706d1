import Gpmx.Mtd.W25

/-!
# W25: the sector cache

What the chip holds after a call is said by `content`: the cache, where it is ahead of the chip, and the
chip everywhere else. Each function of the driver has one lemma about it.
-/

namespace Gpmx.Mtd.W25

open Infra

variable {dev dev' : Dev} {mem : Bool} {m : Memory UInt8}

/-! ## Stores and page programs -/

theorem erased_and (b : UInt8) : erasedState &&& b = b := UInt8.neg_one_and

variable {a n i : Nat} {data : Nat → UInt8}

theorem store_of_mem (h : a ≤ i ∧ i < a + n) :
    store m a n data i = data (i - a) := if_pos h

theorem store_of_not_mem (h : ¬(a ≤ i ∧ i < a + n)) :
    store m a n data i = m i := if_neg h

@[simp] theorem store_zero (a : Nat) (data : Nat → UInt8) : store m a 0 data = m := by
  funext i
  exact store_of_not_mem (by omega)

theorem store_store (a n k : Nat) (data : Nat → UInt8) :
    store (store m a n data) (a + n) k (fun i => data (n + i)) = store m a (n + k) data := by
  funext i
  unfold store
  split_ifs <;> first | rfl | omega | exact congrArg data (by omega)

theorem program_erased (h : ∀ i, a ≤ i → i < a + n → m i = erasedState) :
    program m a n data = store m a n data := by
  funext i
  unfold program store
  split_ifs with hi
  · rw [h i hi.1 hi.2, erased_and]
  · rfl

theorem program_program (a n k : Nat) (data : Nat → UInt8) :
    program (program m a n data) (a + n) k (fun i => data (n + i)) = program m a (n + k) data := by
  funext i
  have hdata : ∀ j, a + n ≤ j → data (n + (j - (a + n))) = data (j - a) := by
    intro j hj
    exact congrArg data (by omega)
  unfold program
  split_ifs <;> first | rfl | omega | exact congrArg (m i &&& ·) (hdata i (by omega))

/-! ## The chip's instructions -/

structure SameCache (dev dev' : Dev) : Prop where
  valid : dev'.valid = dev.valid
  dirty : dev'.dirty = dev.dirty
  erased : dev'.erased = dev.erased
  esectno : dev'.esectno = dev.esectno
  sector : dev'.sector = dev.sector

theorem SameCache.refl (dev : Dev) : SameCache dev dev := ⟨rfl, rfl, rfl, rfl, rfl⟩

theorem SameCache.trans {dev'' : Dev} (h : SameCache dev dev') (h' : SameCache dev' dev'') :
    SameCache dev dev'' :=
  ⟨h'.valid.trans h.valid, h'.dirty.trans h.dirty, h'.erased.trans h.erased,
    h'.esectno.trans h.esectno, h'.sector.trans h.sector⟩

theorem isErasedPages_spec (address n : Nat) : SameCache dev (isErasedPages dev address n).1 ∧
    (isErasedPages dev address n).1.chip = dev.chip ∧
    ((isErasedPages dev address n).2 = true →
      ∀ i, address ≤ i → i < address + 256 * n → dev.chip i = erasedState) := by
  induction n generalizing dev address with
  | zero => exact ⟨.refl dev, rfl, fun _ i h h' => absurd h' (by omega)⟩
  | succ n ih =>
    unfold isErasedPages
    dsimp only
    split_ifs with hpage
    · obtain ⟨hsame, hchip, hrest⟩ := @ih (byteread dev address).1 (address + 256)
      have hread : SameCache dev (byteread dev address).1 := ⟨rfl, rfl, rfl, rfl, rfl⟩
      refine ⟨hread.trans hsame, hchip, fun h i hi hlt => ?_⟩
      by_cases hfirst : i < address + 256
      · have hi' : dev.chip i = dev.chip (address + (i - address)) := congrArg dev.chip (by omega)
        exact hi'.trans (hpage (i - address) (by omega))
      · exact hrest h i (by omega) (by omega)
    · exact ⟨⟨rfl, rfl, rfl, rfl, rfl⟩, rfl, nofun⟩

/-- **After `w25_sectorerase` the sector is erased**, whether the instruction was sent or not. -/
theorem sectorerase_spec (sector : Nat) : SameCache dev (sectorerase mem dev sector) ∧
    (sectorerase mem dev sector).chip = store dev.chip (sector * 4096) 4096 fun _ => erasedState := by
  have hspec : SameCache dev (isErased mem dev (sector * 4096)).1 ∧
      (isErased mem dev (sector * 4096)).1.chip = dev.chip ∧
      ((isErased mem dev (sector * 4096)).2 = true → ∀ i, sector * 4096 ≤ i →
        i < sector * 4096 + 4096 → dev.chip i = erasedState) := by
    unfold isErased
    split_ifs
    · exact isErasedPages_spec (sector * 4096) 16
    · exact ⟨.refl dev, rfl, nofun⟩
  obtain ⟨hsame, hchip, herased⟩ := hspec
  unfold sectorerase
  dsimp only
  split_ifs with h
  · refine ⟨hsame, hchip.trans ?_⟩
    funext i
    unfold store
    split_ifs with hi
    · exact herased h i hi.1 hi.2
    · rfl
  · exact ⟨.trans hsame ⟨rfl, rfl, rfl, rfl, rfl⟩, by rw [← hchip]; rfl⟩

theorem pagewrite_spec (buffer : Nat → UInt8) (address n : Nat) :
    SameCache dev (pagewrite dev buffer address n) ∧
      (pagewrite dev buffer address n).chip = program dev.chip address (256 * n) buffer := by
  induction n generalizing dev buffer address with
  | zero =>
    refine ⟨.refl dev, ?_⟩
    funext i
    exact (if_neg (by omega)).symm
  | succ n ih =>
    obtain ⟨hsame, hchip⟩ := @ih (sendPage (waitwritecomplete dev) address 256 buffer)
      (fun i => buffer (256 + i)) (address + 256)
    have hsent : SameCache dev (sendPage (waitwritecomplete dev) address 256 buffer) :=
      ⟨rfl, rfl, rfl, rfl, rfl⟩
    refine ⟨hsent.trans hsame, hchip.trans ?_⟩
    rw [Nat.mul_succ, Nat.add_comm (256 * n)]
    exact program_program address 256 (256 * n) buffer

/-! ## The cache -/

/-- What the chip is to hold: the cache where it is ahead of the chip. -/
def content (dev : Dev) : Memory UInt8 := fun i =>
  if dev.dirty = true ∧ i / 4096 = dev.esectno then dev.sector (i % 4096) else dev.chip i

structure CacheOk (dev : Dev) : Prop where
  dirty_eq : dev.dirty = dev.erased
  valid : dev.erased = true → dev.valid = true
  erased : dev.erased = true → ∀ i, i / 4096 = dev.esectno → dev.chip i = erasedState

def Clean (dev : Dev) : Prop := dev.dirty = false ∧ dev.erased = false

theorem Clean.cacheOk (h : Clean dev) : CacheOk dev where
  dirty_eq := h.1.trans h.2.symm
  valid he := nomatch h.2.symm.trans he
  erased he := nomatch h.2.symm.trans he

theorem Clean.content (h : Clean dev) : content dev = dev.chip := by
  funext i
  simp [W25.content, h.1]

theorem cacheflush_spec (h : CacheOk dev) : (cacheflush dev).chip = content dev ∧
    Clean (cacheflush dev) ∧ (cacheflush dev).valid = dev.valid ∧
    (cacheflush dev).esectno = dev.esectno ∧ (cacheflush dev).sector = dev.sector := by
  by_cases hd : dev.dirty = true
  · have he : dev.erased = true := h.dirty_eq ▸ hd
    obtain ⟨hsame, hchip⟩ := @pagewrite_spec dev dev.sector (dev.esectno * 4096) 16
    rw [program_erased fun i hi hlt => h.erased he i (by omega)] at hchip
    have hflush : cacheflush dev = { pagewrite dev dev.sector (dev.esectno * 4096) 16 with
        dirty := false, erased := false } := if_pos (.inl hd)
    rw [hflush]
    refine ⟨?_, ⟨rfl, rfl⟩, hsame.valid, hsame.esectno, hsame.sector⟩
    refine hchip.trans (funext fun i => ?_)
    unfold store content
    by_cases hi : i / 4096 = dev.esectno
    · rw [if_pos (by omega), if_pos ⟨hd, hi⟩]
      exact congrArg dev.sector (by omega)
    · rw [if_neg (by omega), if_neg fun h => hi h.2]
  · have hclean : Clean dev := by
      have hd : dev.dirty = false := by simpa using hd
      exact ⟨hd, h.dirty_eq ▸ hd⟩
    have hflush : cacheflush dev = dev := if_neg (by simp [hclean.1, hclean.2])
    rw [hflush]
    exact ⟨hclean.content.symm, hclean, rfl, rfl, rfl⟩

def overlay (dev : Dev) : Memory UInt8 := fun i =>
  if i / 4096 = dev.esectno then dev.sector (i % 4096) else dev.chip i

def seen (dev : Dev) (sector : Nat) : Memory UInt8 :=
  if dev.valid = true ∧ sector / 8 = dev.esectno then overlay dev else content dev

theorem overlay_of_dirty (hd : dev.dirty = true) : overlay dev = content dev := by
  funext i
  simp [overlay, content, hd]

theorem seen_of_dirty (hd : dev.dirty = true) (sector : Nat) : seen dev sector = content dev := by
  unfold seen
  split_ifs
  · exact overlay_of_dirty hd
  · rfl

theorem cacheload_sector {esectno : Nat} (h : i < 4096) :
    (cacheload dev esectno).sector i = dev.chip (esectno * 4096 + i) := by
  show store dev.sector 0 4096 (fun i => dev.chip (esectno * 4096 + i)) i = _
  rw [store_of_mem (by omega), Nat.sub_zero]

theorem cacheread_spec (h : CacheOk dev) (sector : Nat) : CacheOk (cacheread dev sector) ∧
    (cacheread dev sector).valid = true ∧ (cacheread dev sector).esectno = sector / 8 ∧
    overlay (cacheread dev sector) = seen dev sector := by
  unfold cacheread
  by_cases hhit : dev.valid = true ∧ sector / 8 = dev.esectno
  · rw [if_neg (by simp [hhit.1, hhit.2]), seen, if_pos hhit]
    exact ⟨h, hhit.1, hhit.2.symm, rfl⟩
  · have hmiss : dev.valid = false ∨ sector / 8 ≠ dev.esectno := by
      by_cases hv : dev.valid = true
      · exact .inr fun he => hhit ⟨hv, he⟩
      · exact .inl (by simpa using hv)
    rw [if_pos hmiss, seen, if_neg hhit, ← (cacheflush_spec h).1]
    refine ⟨Clean.cacheOk ⟨rfl, rfl⟩, rfl, rfl, funext fun i => ?_⟩
    unfold overlay
    split_ifs with hi
    · have hi : i / 4096 = sector / 8 := hi
      rw [cacheload_sector (by omega)]
      exact congrArg (cacheflush dev).chip (by omega)
    · rfl

/-- **One block**: it is changed in what the call finds, and the chip is behind then. -/
theorem cacheset_spec (h : CacheOk dev) (sector : Nat) (data : Nat → UInt8) :
    CacheOk (cacheset mem dev sector data) ∧ (cacheset mem dev sector data).dirty = true ∧
      (cacheset mem dev sector data).valid = true ∧
      (cacheset mem dev sector data).esectno = sector / 8 ∧
      content (cacheset mem dev sector data) = store (seen dev sector) (sector * 512) 512 data := by
  obtain ⟨hok, hvalid, hesect, hseen⟩ := cacheread_spec h sector
  -- the sector is erased, now or since it was in the cache
  have hstep : ∃ d, cacheset mem dev sector data = setBlock d sector data ∧
      SameCache (cacheread dev sector) { d with erased := (cacheread dev sector).erased } ∧
      d.chip = store (cacheread dev sector).chip (sector / 8 * 4096) 4096 fun _ => erasedState := by
    by_cases he : (cacheread dev sector).erased = true
    · refine ⟨cacheread dev sector, by simp [cacheset, he], .refl _, ?_⟩
      funext i
      unfold store
      split_ifs with hi
      · exact hok.erased he i (by omega)
      · rfl
    · obtain ⟨hsame, hchip⟩ := @sectorerase_spec (cacheread dev sector) mem (sector / 8)
      exact ⟨_, by simp [cacheset, he], ⟨hsame.valid, hsame.dirty, rfl, hsame.esectno, hsame.sector⟩,
        hchip⟩
  obtain ⟨d, hset, hsame, hchip⟩ := hstep
  have hd : d.esectno = sector / 8 := hsame.esectno.trans hesect
  have hsector : d.sector = (cacheread dev sector).sector := hsame.sector
  rw [hset]
  refine ⟨⟨rfl, fun _ => hsame.valid.trans hvalid, fun _ i hi => ?_⟩, rfl, hsame.valid.trans hvalid, hd, ?_⟩
  · have hi : i / 4096 = sector / 8 := hi.trans hd
    show d.chip i = erasedState
    rw [hchip]
    exact store_of_mem (by omega)
  · rw [← hseen]
    funext i
    have hcontent : content (setBlock d sector data) i = if i / 4096 = d.esectno then
        store d.sector (sector % 8 * 512) 512 data (i % 4096) else d.chip i := by
      simp [content, setBlock]
    rw [hcontent, hd, hchip, hsector]
    unfold store overlay
    rw [hesect]
    split_ifs <;> first | rfl | omega | exact congrArg data (by omega)

/-- **A run of blocks**, changed in what the call finds. -/
theorem cachewriteBlocks_spec {mem : Nat → Bool} (h : CacheOk dev) (buffer : Nat → UInt8)
    (sector n : Nat) :
    CacheOk (cachewriteBlocks mem dev buffer sector n) ∧
      (0 < n → (cachewriteBlocks mem dev buffer sector n).dirty = true) ∧
      content (cachewriteBlocks mem dev buffer sector n) =
        store (if n = 0 then content dev else seen dev sector) (sector * 512) (n * 512) buffer := by
  induction n generalizing dev buffer sector with
  | zero => exact ⟨h, nofun, by rw [Nat.zero_mul, store_zero, if_pos rfl]; rfl⟩
  | succ n ih =>
    obtain ⟨hok, hdirty, -, -, hcontent⟩ :=
      @cacheset_spec dev (mem (sector / 8)) h sector buffer
    obtain ⟨hok', hdirty', hcontent'⟩ := ih hok (fun i => buffer (512 + i)) (sector + 1)
    refine ⟨hok', fun _ => ?_, hcontent'.trans ?_⟩
    · cases n with
      | zero => exact hdirty
      | succ n => exact hdirty' (Nat.succ_pos n)
    · rw [seen_of_dirty hdirty, ite_self, hcontent, if_neg (Nat.succ_ne_zero n), Nat.succ_mul,
        Nat.succ_mul, Nat.add_comm (n * 512)]
      exact store_store (sector * 512) 512 (n * 512) buffer

/-- **What the chip holds after `w25_bwrite`.** -/
theorem bwrite_spec {mem : Nat → Bool} (h : CacheOk dev) (startblock n : Nat) (buffer : Nat → UInt8) :
    Clean (bwrite mem dev startblock n buffer) ∧
      (bwrite mem dev startblock n buffer).chip = store
        (if n = 0 then content dev else seen dev startblock) (startblock * 512) (n * 512) buffer := by
  obtain ⟨hok, -, hcontent⟩ := @cachewriteBlocks_spec dev mem h buffer startblock n
  obtain ⟨hchip, hclean, -⟩ := cacheflush_spec hok
  exact ⟨hclean, hchip.trans hcontent⟩

theorem erase_eq (mem : Nat → Bool) (dev : Dev) (startblock n : Nat) :
    erase mem dev startblock n = bwrite mem dev startblock n fun _ => erasedState := by
  have hblocks : ∀ n dev startblock, eraseBlocks mem dev startblock n =
      cachewriteBlocks mem dev (fun _ => erasedState) startblock n := by
    intro n
    induction n with
    | zero => intro dev startblock; rfl
    | succ n ih => intro dev startblock; exact ih _ _
  exact congrArg cacheflush (hblocks n dev startblock)

end Gpmx.Mtd.W25
