import Gpmx.Infra.Runs
import Gpmx.Infra.SerialOrder
import Gpmx.Mtd.W25Cache
import Mathlib

/-!
# W25: block calls of several threads

`w25_erase` and `w25_bwrite` hold the lock of the SPI bus, but `w25_waitwritecomplete` gives it up for a
millisecond while the chip is busy with something other than a page program. Another thread can then be
anywhere in a call of its own, with the same sector cache.

A thread stands where it waits for the chip; from there it goes on to its next wait in one step. The state
of a call is the point it waits at and the blocks it has not put into the cache.
-/

namespace Gpmx.Mtd.W25

open Infra

variable {T : Type} [DecidableEq T]

abbrev Block := Nat × (Nat → UInt8)

/-- The blocks of a buffer, in the order in which `w25_cachewrite` takes them. -/
def blocksOf (buffer : Nat → UInt8) (sector : Nat) : (nsectors : Nat) → List Block
  | 0 => []
  | nsectors + 1 => (sector, buffer) :: blocksOf (fun i => buffer (512 + i)) (sector + 1) nsectors

inductive BlockCall where
  | erase (startblock nblocks : Nat)
  | bwrite (startblock nblocks : Nat) (buffer : Nat → UInt8)

def BlockCall.blocks : BlockCall → List Block
  | .erase startblock nblocks => blocksOf (fun _ => erasedState) startblock nblocks
  | .bwrite startblock nblocks buffer => blocksOf buffer startblock nblocks

def BlockCall.run (mem : Nat → Bool) (dev : Dev) : BlockCall → Dev
  | .erase startblock nblocks => W25.erase mem dev startblock nblocks
  | .bwrite startblock nblocks buffer => W25.bwrite mem dev startblock nblocks buffer

/-- Where a call is in `w25_waitwritecomplete`. -/
inductive Point where
  /-- `w25_pagewrite` of `w25_cacheflush`, before the page with this number -/
  | flush (address page : Nat)
  /-- `w25_byteread` of `w25_cacheread` -/
  | load
  /-- `w25_byteread` of `w25_is_erased`, before the page with this number -/
  | check (page : Nat)
  /-- `w25_sectorerase`, before `W25_SE` -/
  | erase

def proceed (mem : Bool) (dev : Dev) : List Block → Dev × Option (Point × List Block)
  | [] =>
    if dev.dirty ∨ dev.erased then (dev, some (.flush (dev.esectno * 4096) 0, []))
    else (dev, none)
  | (sector, data) :: rest =>
    if dev.valid = false ∨ sector / 8 ≠ dev.esectno then
      if dev.dirty ∨ dev.erased then
        (dev, some (.flush (dev.esectno * 4096) 0, (sector, data) :: rest))
      else (dev, some (.load, (sector, data) :: rest))
    else if dev.erased then proceed mem (setBlock dev sector data) rest
    else (dev, some (if mem then .check 0 else .erase, (sector, data) :: rest))

/-- From a wait that is over to the next one; `mem` says whether `kmm_malloc` succeeds on the way. -/
def goOn (mem : Bool) (dev : Dev) : Point → List Block → Dev × Option (Point × List Block)
  | .flush address page, pending =>
    let dev := sendPage dev (address + page * 256) 256 fun i => dev.sector (page * 256 + i)
    if page + 1 < 16 then (dev, some (.flush address (page + 1), pending))
    else
      let dev := { dev with dirty := false, erased := false }
      match pending with
      | [] => (dev, none)
      | block :: rest => (dev, some (.load, block :: rest))
  | .load, (sector, data) :: rest =>
    proceed mem (cacheload dev (sector / 8)) ((sector, data) :: rest)
  | .check page, (sector, data) :: rest =>
    let (dev, buf) := byteread dev (sector / 8 * 4096 + page * 256)
    if ∀ i < 256, buf i = erasedState then
      if page + 1 < 16 then (dev, some (.check (page + 1), (sector, data) :: rest))
      else proceed mem (setBlock dev sector data) rest
    else (dev, some (.erase, (sector, data) :: rest))
  | .erase, (sector, data) :: rest =>
    proceed mem (setBlock (sendErase dev (sector / 8)) sector data) rest
  -- a call without a block is at no other point than `flush`
  | _, [] => (dev, none)

/-- The device, who has the lock of the bus, where each thread is in its call, and the calls that have been
made. -/
structure Sys (T : Type) where
  dev : Dev
  lock : Option T
  pc : T → Option (Point × List Block)
  calls : List (T × BlockCall)

/-- The device as `w25_initialize` leaves it; no thread is in a call. -/
def Sys.initial (chip sector : Memory UInt8) : Sys T where
  dev := w25Initialize chip sector
  lock := none
  pc _ := none
  calls := []

inductive Action (T : Type) where
  /-- a thread makes a call and gets the lock -/
  | start (t : T) (call : BlockCall) (mem : Bool)
  /-- the chip is busy: `w25_unlock`, and `usleep` -/
  | release (t : T)
  /-- `w25_lock` after that -/
  | retake (t : T)
  /-- the chip is not busy -/
  | go (t : T) (mem : Bool)
  /-- the chip is done with what it was busy with -/
  | ready

/-- The thread with the lock is at its next wait, or its call is over and it unlocks the bus. -/
def Sys.leave (s : Sys T) (t : T) (r : Dev × Option (Point × List Block)) : Sys T :=
  { s with
    dev := r.1
    lock := r.2.map fun _ => t
    pc := Function.update s.pc t r.2 }

def Sys.step (s : Sys T) : Action T → Option (Sys T)
  | .start t call mem =>
    if s.lock = none ∧ (s.pc t).isNone then
      some { s.leave t (proceed mem s.dev call.blocks) with calls := s.calls ++ [(t, call)] }
    else none
  | .release t =>
    if s.lock = some t ∧ s.dev.prevInstr ≠ .pp ∧ s.dev.busy then some { s with lock := none }
    else none
  | .retake t =>
    if s.lock = none ∧ (s.pc t).isSome then some { s with lock := some t }
    else none
  | .go t mem =>
    if s.lock = some t ∧ s.dev.busy = false then
      (s.pc t).map fun (point, pending) => s.leave t (goOn mem s.dev point pending)
    else none
  | .ready => some { s with dev := waitwritecomplete s.dev }

/-- **When block calls are serial**: `w25_cacheread` puts another sector into the cache only while no other
call is suspended. -/
def Alone (s : Sys T) : Action T → Prop
  | .go t _ => ∀ pending, s.pc t = some (.load, pending) → ∀ u, u ≠ t → s.pc u = none
  | _ => True

instance [Fintype T] (s : Sys T) : (a : Action T) → Decidable (Alone s a)
  | .go t _ =>
    match h : s.pc t with
    | some (.load, l) => decidable_of_iff (∀ u, u ≠ t → (s.pc u).isNone = true) <| by
        simp [Alone, h]
    | none | some (.flush _ _, _) | some (.check _, _) | some (.erase, _) => isTrue (by simp [Alone, h])
  | .start _ _ _ | .release _ | .retake _ | .ready => isTrue trivial

def afterCalls (mem : Nat → Bool) (chip sector : Memory UInt8) (calls : List (T × BlockCall)) :
    Memory UInt8 :=
  (calls.foldl (fun dev call => call.2.run mem dev) (w25Initialize chip sector)).chip

end Gpmx.Mtd.W25

/-!
## W25: the blocks of a call

A call of one thread alone stores its blocks, one after the other, into what the chip holds. A call in
between others does so with the blocks it puts into the cache from one wait to the next.
-/

namespace Gpmx.Mtd.W25

open Infra List

variable {T : Type} {dev : Dev} {mem : Bool} {m chip sector : Memory UInt8} {b b' : Block}
  {l pending : List Block}

def writeBlock (m : Memory UInt8) (b : Block) : Memory UInt8 := store m (b.1 * 512) 512 b.2

theorem writeBlock_comm (m : Memory UInt8) (h : b.1 ≠ b'.1) :
    writeBlock (writeBlock m b) b' = writeBlock (writeBlock m b') b := by
  funext i
  unfold writeBlock store
  split_ifs <;> first | rfl | omega

theorem foldl_blocksOf (m : Memory UInt8) (buffer : Nat → UInt8) (sector n : Nat) :
    (blocksOf buffer sector n).foldl writeBlock m = store m (sector * 512) (n * 512) buffer := by
  induction n generalizing m buffer sector with
  | zero =>
    rw [Nat.zero_mul, store_zero]
    rfl
  | succ n ih =>
    rw [blocksOf, foldl_cons, ih, Nat.succ_mul, Nat.succ_mul, Nat.add_comm (n * 512)]
    exact store_store (sector * 512) 512 (n * 512) buffer

def Sorted (l : List Block) : Prop := l.Pairwise fun b b' => b.1 / 8 ≤ b'.1 / 8

theorem sorted_blocksOf (buffer : Nat → UInt8) (sector n : Nat) : Sorted (blocksOf buffer sector n) := by
  have hge : ∀ n buffer sector, ∀ b ∈ blocksOf buffer sector n, sector ≤ b.1 := by
    intro n
    induction n with
    | zero => exact fun _ _ _ h => nomatch h
    | succ n ih =>
      intro buffer sector b hb
      rcases mem_cons.mp hb with rfl | hb
      · exact Nat.le_refl _
      · exact Nat.le_of_succ_le (ih _ _ b hb)
  induction n generalizing buffer sector with
  | zero => exact List.Pairwise.nil
  | succ n ih =>
    refine pairwise_cons.mpr ⟨fun b hb => ?_, ih _ _⟩
    have hle := hge n _ _ b hb
    exact Nat.div_le_div_right (Nat.le_of_succ_le hle)

theorem BlockCall.sorted : ∀ call : BlockCall, Sorted call.blocks
  | .erase startblock n => sorted_blocksOf _ startblock n
  | .bwrite startblock n buffer => sorted_blocksOf buffer startblock n

/-! ## One call alone -/

def Coherent (dev : Dev) : Prop :=
  Clean dev ∧ (dev.valid = true → ∀ i, i / 4096 = dev.esectno → dev.sector (i % 4096) = dev.chip i)

theorem Coherent.seen (h : Coherent dev) (sector : Nat) : seen dev sector = dev.chip := by
  unfold W25.seen
  split_ifs with hhit
  · funext i
    unfold overlay
    split_ifs with hi
    · exact h.2 hhit.1 i hi
    · rfl
  · exact h.1.content

theorem cacheflush_coherent (h : CacheOk dev) (hd : dev.dirty = true) : Coherent (cacheflush dev) := by
  obtain ⟨hchip, hclean, -, hesect, hsector⟩ := cacheflush_spec h
  refine ⟨hclean, fun _ i hi => ?_⟩
  rw [hchip, hsector, content, if_pos ⟨hd, hi.trans hesect⟩]

theorem bwrite_coherent {mem : Nat → Bool} (h : Coherent dev) (startblock n : Nat)
    (buffer : Nat → UInt8) : Coherent (bwrite mem dev startblock n buffer) ∧
      (bwrite mem dev startblock n buffer).chip =
        (blocksOf buffer startblock n).foldl writeBlock dev.chip := by
  obtain ⟨hok, hdirty, -⟩ := @cachewriteBlocks_spec dev mem h.1.cacheOk buffer startblock n
  obtain ⟨-, hchip⟩ := @bwrite_spec dev mem h.1.cacheOk startblock n buffer
  rw [h.seen, h.1.content, ite_self, ← foldl_blocksOf] at hchip
  refine ⟨?_, hchip⟩
  cases n with
  | zero =>
    have hsame : bwrite mem dev startblock 0 buffer = dev := by
      show cacheflush dev = dev
      exact if_neg (by simp [h.1.1, h.1.2])
    rw [hsame]
    exact h
  | succ n => exact cacheflush_coherent hok (hdirty (Nat.succ_pos n))

/-- **A call alone writes its blocks.** -/
theorem BlockCall.run_spec {mem : Nat → Bool} (h : Coherent dev) (call : BlockCall) :
    Coherent (call.run mem dev) ∧ (call.run mem dev).chip = call.blocks.foldl writeBlock dev.chip := by
  cases call with
  | erase startblock n =>
    show Coherent (W25.erase mem dev startblock n) ∧ (W25.erase mem dev startblock n).chip = _
    rw [erase_eq]
    exact bwrite_coherent h startblock n _
  | bwrite startblock n buffer => exact bwrite_coherent h startblock n buffer

/-- **Calls one after the other write their blocks.** -/
theorem afterCalls_eq (mem : Nat → Bool) (chip sector : Memory UInt8) (calls : List (T × BlockCall)) :
    afterCalls mem chip sector calls = serially BlockCall.blocks writeBlock chip calls := by
  have hcalls : ∀ (calls : List (T × BlockCall)) dev, Coherent dev →
      (calls.foldl (fun dev call => call.2.run mem dev) dev).chip =
        serially BlockCall.blocks writeBlock dev.chip calls := by
    intro calls
    induction calls with
    | nil => exact fun _ _ => rfl
    | cons call calls ih =>
      intro dev h
      obtain ⟨h', hchip⟩ := @BlockCall.run_spec dev mem h call.2
      rw [foldl_cons, ih _ h', hchip]
      unfold serially
      rw [flatMap_cons, foldl_append]
  exact hcalls calls _ ⟨⟨rfl, rfl⟩, nofun⟩

/-! ## From one wait to the next -/

structure Kept (dev : Dev) (pages : Nat) : Prop where
  dirty_eq : dev.dirty = dev.erased
  valid : dev.erased = true → dev.valid = true
  chip : dev.valid = true → ∀ i, i / 4096 = dev.esectno → dev.chip i =
    if dev.erased = false ∨ i % 4096 < pages * 256 then dev.sector (i % 4096) else erasedState
  -- the lock is given up only while the sector of the cache is erased
  busy : dev.busy = true → dev.prevInstr ≠ .pp → dev.erased = true

theorem Kept.overlay {pages : Nat} (h : Kept dev pages) (hv : dev.valid = true) :
    overlay dev = content dev := by
  by_cases he : dev.erased = true
  · exact overlay_of_dirty (h.dirty_eq.trans he)
  · have he : dev.erased = false := by simpa using he
    funext i
    have hd : dev.dirty = false := h.dirty_eq.trans he
    unfold W25.overlay
    split_ifs with hi
    · simp [content, hd, h.chip hv i hi, he]
    · simp [content, hd]

theorem setBlock_keeps {sector : Nat} (data : Nat → UInt8) (hv : dev.valid = true)
    (hs : sector / 8 = dev.esectno)
    (herased : ∀ i, i / 4096 = dev.esectno → dev.chip i = erasedState) :
    Kept (setBlock dev sector data) 0 ∧
      content (setBlock dev sector data) = writeBlock (overlay dev) (sector, data) := by
  refine ⟨⟨rfl, fun _ => hv, fun _ i hi => ?_, fun _ _ => rfl⟩, funext fun i => ?_⟩
  · rw [if_neg (by simp [setBlock])]
    exact herased i hi
  · have hcontent : content (setBlock dev sector data) i = if i / 4096 = dev.esectno then
        store dev.sector (sector % 8 * 512) 512 data (i % 4096) else dev.chip i := by
      simp [content, setBlock]
    rw [hcontent]
    unfold writeBlock store overlay
    split_ifs <;> first | rfl | omega | exact congrArg data (by omega)

def setBlocks (dev : Dev) (blocks : List Block) : Dev :=
  blocks.foldl (fun dev b => setBlock dev b.1 b.2) dev

structure Ahead (dev : Dev) (esectno : Nat) : Prop where
  valid : dev.valid = true
  dirty : dev.dirty = true
  erased : dev.erased = true
  esectno : dev.esectno = esectno

theorem setBlocks_keeps {esectno : Nat} (h : Kept dev 0) (ha : Ahead dev esectno)
    (hl : ∀ b ∈ l, b.1 / 8 = esectno) : Kept (setBlocks dev l) 0 ∧ Ahead (setBlocks dev l) esectno ∧
      content (setBlocks dev l) = l.foldl writeBlock (content dev) := by
  induction l generalizing dev with
  | nil => exact ⟨h, ha, rfl⟩
  | cons b l ih =>
    have hb : b.1 / 8 = dev.esectno := (hl b mem_cons_self).trans ha.esectno.symm
    have herased : ∀ i, i / 4096 = dev.esectno → dev.chip i = erasedState := by
      intro i hi
      rw [h.chip ha.valid i hi, if_neg (by simp [ha.erased])]
    obtain ⟨hkept, hcontent⟩ := setBlock_keeps b.2 ha.valid hb herased
    obtain ⟨hkept', ha', hcontent'⟩ :=
      ih hkept ⟨ha.valid, rfl, rfl, ha.esectno⟩ fun c hc => hl c (mem_cons_of_mem b hc)
    refine ⟨hkept', ha', hcontent'.trans ?_⟩
    rw [hcontent, overlay_of_dirty ha.dirty]
    rfl

theorem div_of_mem_takeWhile {esectno : Nat} :
    ∀ b ∈ l.takeWhile (·.1 / 8 = esectno), b.1 / 8 = esectno :=
  fun b hb => by simpa using mem_takeWhile_imp hb

/-- **While the sector is erased, the blocks in it go to the cache**, and the call is at the flush then. -/
theorem proceed_ahead {esectno : Nat} (ha : Ahead dev esectno) (pending : List Block) :
    proceed mem dev pending =
      (setBlocks dev (pending.takeWhile (·.1 / 8 = esectno)),
        some (.flush (esectno * 4096) 0, pending.dropWhile (·.1 / 8 = esectno))) := by
  induction pending generalizing dev with
  | nil =>
    unfold proceed
    rw [if_pos (.inl ha.dirty), ha.esectno]
    rfl
  | cons b rest ih =>
    unfold proceed
    by_cases hb : b.1 / 8 = esectno
    · have ha' : Ahead (setBlock dev b.1 b.2) esectno := ⟨ha.valid, rfl, rfl, ha.esectno⟩
      rw [if_neg (by simp [ha.valid, ha.esectno, hb]), if_pos ha.erased, ih ha',
        takeWhile_cons_of_pos (by simpa using hb), dropWhile_cons_of_pos (by simpa using hb)]
      rfl
    · rw [if_pos (.inr fun he => hb (he.trans ha.esectno)), if_pos (.inl ha.dirty),
        takeWhile_cons_of_neg (by simpa using hb), dropWhile_cons_of_neg (by simpa using hb),
        ha.esectno]
      rfl

theorem ne_of_mem_dropWhile {esectno : Nat} (hs : Sorted l) (hge : ∀ b ∈ l, esectno ≤ b.1 / 8) :
    ∀ b ∈ l.dropWhile (·.1 / 8 = esectno), b.1 / 8 ≠ esectno := by
  induction l with
  | nil => exact nofun
  | cons b l ih =>
    obtain ⟨hb, hs⟩ := pairwise_cons.mp hs
    by_cases he : b.1 / 8 = esectno
    · rw [dropWhile_cons_of_pos (by simpa using he)]
      exact ih hs fun c hc => hge c (mem_cons_of_mem b hc)
    · rw [dropWhile_cons_of_neg (by simpa using he)]
      have hlt : esectno < b.1 / 8 := Nat.lt_of_le_of_ne (hge b mem_cons_self) (Ne.symm he)
      intro c hc
      rcases mem_cons.mp hc with rfl | hc
      · exact he
      · exact Nat.ne_of_gt (Nat.lt_of_lt_of_le hlt (hb c hc))

/-! ## The flush, page by page -/

/-- **A page of the cache is programmed**, be it erased or what it was. -/
theorem sendPage_keeps {page : Nat} (h : Kept dev page) (hv : dev.valid = true) (hp : page < 16) :
    Kept (sendPage dev (dev.esectno * 4096 + page * 256) 256 fun i => dev.sector (page * 256 + i))
        (page + 1) ∧
      content (sendPage dev (dev.esectno * 4096 + page * 256) 256
        fun i => dev.sector (page * 256 + i)) = content dev := by
  obtain ⟨d, hd⟩ : ∃ d, d = sendPage dev (dev.esectno * 4096 + page * 256) 256
    fun i => dev.sector (page * 256 + i) := ⟨_, rfl⟩
  have hchip : ∀ i, d.chip i =
      if i / 4096 = dev.esectno ∧ page * 256 ≤ i % 4096 ∧ i % 4096 < page * 256 + 256 then
        dev.sector (i % 4096) else dev.chip i := by
    intro i
    rw [hd]
    unfold sendPage program
    dsimp only
    by_cases hi : i / 4096 = dev.esectno ∧ page * 256 ≤ i % 4096 ∧ i % 4096 < page * 256 + 256
    · have hdata : page * 256 + (i - (dev.esectno * 4096 + page * 256)) = i % 4096 := by omega
      rw [if_pos (by omega), if_pos hi, hdata, h.chip hv i hi.1]
      split_ifs
      · exact UInt8.and_self
      · exact erased_and _
    · rw [if_neg (by omega), if_neg hi]
  have hsame : d.dirty = dev.dirty ∧ d.erased = dev.erased ∧ d.valid = dev.valid ∧
      d.esectno = dev.esectno ∧ d.sector = dev.sector ∧ d.prevInstr = .pp := by
    rw [hd]
    exact ⟨rfl, rfl, rfl, rfl, rfl, rfl⟩
  obtain ⟨hdirty, herased, hvalid, hesect, hsector, hinstr⟩ := hsame
  rw [← hd]
  refine ⟨⟨by rw [hdirty, herased, h.dirty_eq], fun _ => hvalid.trans hv, fun _ i hi => ?_,
    fun _ hne => absurd hinstr hne⟩, funext fun i => ?_⟩
  · rw [hesect] at hi
    rw [hchip, hsector, herased, h.chip hv i hi]
    split_ifs <;> first | rfl | grind
  · have hahead := h.chip hv i
    unfold content
    rw [hdirty, hesect, hsector, hchip]
    rw [← h.dirty_eq] at hahead
    split_ifs with hahd hpage <;> first | rfl | skip
    have hclean : dev.dirty = false := by
      by_contra hne
      exact hahd ⟨by simpa using hne, hpage.1⟩
    rw [hahead hpage.1, if_pos (.inl hclean)]

/-- **All pages are programmed.** -/
theorem flushed_keeps (h : Kept dev 16) (hv : dev.valid = true) (hi : dev.prevInstr = .pp) :
    Kept { dev with dirty := false, erased := false } 0 ∧
      content { dev with dirty := false, erased := false } = content dev := by
  have hchip : ∀ i, i / 4096 = dev.esectno → dev.chip i = dev.sector (i % 4096) := by
    intro i hesect
    rw [h.chip hv i hesect, if_pos (.inr (by omega))]
  refine ⟨⟨rfl, nofun, fun _ i hesect => ?_, fun _ hne => absurd hi hne⟩, funext fun i => ?_⟩
  · rw [if_pos (.inl rfl)]
    exact hchip i hesect
  · unfold content
    rw [if_neg (by simp)]
    split_ifs with hahead
    · exact hchip i hahead.2
    · rfl

end Gpmx.Mtd.W25
