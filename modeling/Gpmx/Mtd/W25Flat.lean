import Gpmx.Mtd.W25Cache

/-!
# W25: the device as a flat array

A call is compared with the same call on an array of bytes. A block call that starts in the cached sector
uses the cache, and `w25_write` and `MTDIOC_BULKERASE` change the chip behind it. The device is the array
exactly as long as every block call finds in the cache what the chip holds outside its own blocks.
-/

namespace Gpmx.Mtd.W25

open Infra

variable {dev : Dev} {m : Memory UInt8}

/-! ## Writes of bytes -/

theorem writePages_spec (buffer : Nat → UInt8) (offset n : Nat) :
    SameCache dev (writePages dev buffer offset n) ∧
      (writePages dev buffer offset n).chip = program dev.chip offset (n * 256) buffer := by
  induction n generalizing dev buffer offset with
  | zero =>
    refine ⟨.refl dev, ?_⟩
    funext i
    exact (if_neg (by omega)).symm
  | succ n ih =>
    obtain ⟨hsame, hchip⟩ :=
      @ih (bytewrite dev buffer offset 256) (fun i => buffer (256 + i)) (offset + 256)
    have hsent : SameCache dev (bytewrite dev buffer offset 256) := ⟨rfl, rfl, rfl, rfl, rfl⟩
    refine ⟨hsent.trans hsame, hchip.trans ?_⟩
    rw [Nat.succ_mul, Nat.add_comm (n * 256)]
    exact program_program offset 256 (n * 256) buffer

/-- **The pages of `w25_write` are one page program**, as far as the chip is concerned. -/
theorem write_spec (offset nbytes : Nat) (buffer : Nat → UInt8) :
    SameCache dev (write dev offset nbytes buffer) ∧
      (write dev offset nbytes buffer).chip = program dev.chip offset nbytes buffer := by
  unfold write
  dsimp only
  by_cases hpage : offset / 256 = (offset + nbytes) / 256
  · rw [if_pos hpage]
    exact ⟨⟨rfl, rfl, rfl, rfl, rfl⟩, rfl⟩
  rw [if_neg hpage]
  -- the first page ends inside the bytes: `f` of them are in it, and `n` full pages follow
  obtain ⟨f, hf⟩ : ∃ f, f = 256 - offset % 256 := ⟨_, rfl⟩
  obtain ⟨n, hn⟩ : ∃ n, n = (nbytes - f) / 256 := ⟨_, rfl⟩
  have hle : f ≤ nbytes := by omega
  rw [← hf, ← hn]
  have hfirst : SameCache dev (bytewrite dev buffer offset f) := ⟨rfl, rfl, rfl, rfl, rfl⟩
  obtain ⟨hsame, hchip⟩ := @writePages_spec (bytewrite dev buffer offset f)
    (fun i => buffer (f + i)) (offset + f) n
  replace hchip := hchip.trans (program_program (m := dev.chip) offset f (n * 256) buffer)
  generalize writePages (bytewrite dev buffer offset f) (fun i => buffer (f + i)) (offset + f) n = dev' at *
  split_ifs with hrest
  · have hlast : SameCache dev' (bytewrite dev' (fun i => buffer (f + n * 256 + i))
        (offset + (f + n * 256)) ((nbytes - f) % 256)) := ⟨rfl, rfl, rfl, rfl, rfl⟩
    refine ⟨(hfirst.trans hsame).trans hlast, ?_⟩
    have hall := program_program (m := dev.chip) offset (f + n * 256) ((nbytes - f) % 256) buffer
    rw [show f + n * 256 + (nbytes - f) % 256 = nbytes by omega, ← hchip] at hall
    exact hall
  · refine ⟨hfirst.trans hsame, hchip.trans ?_⟩
    rw [show f + n * 256 = nbytes by omega]

/-! ## Calls on an array -/

def Op.flat (m : Memory UInt8) : Op → Memory UInt8 × List UInt8
  | .erase _ startblock n => (store m (startblock * 512) (n * 512) fun _ => erasedState, [])
  | .bwrite _ startblock n buffer => (store m (startblock * 512) (n * 512) buffer, [])
  | .bread startblock n => (m, (List.range (n * 512)).map fun i => m (startblock * 512 + i))
  | .read offset nbytes => (m, (List.range nbytes).map fun i => m (offset + i))
  | .write offset nbytes buffer => (store m offset nbytes buffer, [])
  | .bulkErase => (fun _ => erasedState, [])

def Op.Allowed (m : Memory UInt8) : Op → Prop
  | .write offset nbytes _ => ∀ i, offset ≤ i → i < offset + nbytes → m i = erasedState
  | _ => True

/-- The blocks from `startblock` on start in the cached sector, and outside of them the cache is not what
the chip holds there. -/
def Stale (dev : Dev) (startblock n : Nat) : Prop :=
  0 < n ∧ dev.valid = true ∧ startblock / 8 = dev.esectno ∧
    ∃ i, i / 4096 = dev.esectno ∧ ¬(startblock * 512 ≤ i ∧ i < startblock * 512 + n * 512) ∧
      dev.sector (i % 4096) ≠ dev.chip i

def Op.Fresh (dev : Dev) : Op → Prop
  | .erase _ startblock n | .bwrite _ startblock n _ => ¬Stale dev startblock n
  | _ => True

/-- **A block call is the one on the array exactly if the cache is not stale.** -/
theorem bwrite_flat_iff {mem : Nat → Bool} (hclean : Clean dev) (startblock n : Nat)
    (buffer : Nat → UInt8) :
    (bwrite mem dev startblock n buffer).chip =
        store dev.chip (startblock * 512) (n * 512) buffer ↔ ¬Stale dev startblock n := by
  rw [(bwrite_spec hclean.cacheOk startblock n buffer).2]
  by_cases hn : n = 0
  · subst hn
    simp [Stale, hclean.content]
  rw [if_neg hn]
  by_cases hhit : dev.valid = true ∧ startblock / 8 = dev.esectno
  · rw [seen, if_pos hhit]
    constructor
    · rintro heq ⟨-, -, -, i, hi, hout, hne⟩
      have heq := congrFun heq i
      rw [store_of_not_mem hout, store_of_not_mem hout, overlay, if_pos hi] at heq
      exact hne heq
    · intro hfresh
      funext i
      by_cases hin : startblock * 512 ≤ i ∧ i < startblock * 512 + n * 512
      · rw [store_of_mem hin, store_of_mem hin]
      · rw [store_of_not_mem hin, store_of_not_mem hin, overlay]
        split_ifs with hi
        · by_contra hne
          exact hfresh ⟨Nat.pos_of_ne_zero hn, hhit.1, hhit.2, i, hi, hin, hne⟩
        · rfl
  · rw [seen, if_neg hhit, hclean.content]
    refine iff_of_true rfl ?_
    rintro ⟨-, hv, he, -⟩
    exact hhit ⟨hv, he⟩

/-- **One call**: it leaves the chip as the call on the array does exactly if it does not use a stale
cache, and what it reads is what the array holds. -/
theorem exec_flat_iff (hclean : Clean dev) {op : Op} (h : op.Allowed dev.chip) :
    Clean (op.exec dev).1 ∧ (op.exec dev).2 = (op.flat dev.chip).2 ∧
      ((op.exec dev).1.chip = (op.flat dev.chip).1 ↔ op.Fresh dev) := by
  cases op with
  | erase mem startblock n =>
    have heq : (Op.exec dev (.erase mem startblock n)).1 = bwrite mem dev startblock n _ :=
      erase_eq mem dev startblock n
    rw [heq]
    exact ⟨(bwrite_spec hclean.cacheOk startblock n _).1, rfl, bwrite_flat_iff hclean startblock n _⟩
  | bwrite mem startblock n buffer =>
    exact ⟨(bwrite_spec hclean.cacheOk startblock n buffer).1, rfl,
      bwrite_flat_iff hclean startblock n buffer⟩
  | bread startblock n | read offset nbytes | bulkErase => exact ⟨hclean, rfl, iff_of_true rfl trivial⟩
  | write offset nbytes buffer =>
    obtain ⟨hsame, hchip⟩ := @write_spec dev offset nbytes buffer
    refine ⟨⟨hsame.dirty.trans hclean.1, hsame.erased.trans hclean.2⟩, rfl, iff_of_true ?_ trivial⟩
    exact hchip.trans (program_erased h)

/-! ## Runs -/

/-- The device holds what the array holds, before the calls and after each, and yields what it yields. -/
def Tracks (dev : Dev) (m : Memory UInt8) : List Op → Prop
  | [] => dev.chip = m
  | op :: ops => dev.chip = m ∧ (op.exec dev).2 = (op.flat m).2 ∧ Tracks (op.exec dev).1 (op.flat m).1 ops

def AllAllowed (m : Memory UInt8) : List Op → Prop
  | [] => True
  | op :: ops => op.Allowed m ∧ AllAllowed (op.flat m).1 ops

def AllFresh (dev : Dev) : List Op → Prop
  | [] => True
  | op :: ops => op.Fresh dev ∧ AllFresh (op.exec dev).1 ops

theorem Tracks.chip : ∀ {ops : List Op}, Tracks dev m ops → dev.chip = m
  | [], h => h
  | _ :: _, h => h.1

theorem tracks_iff (hclean : Clean dev) (ops : List Op) (h : AllAllowed dev.chip ops) :
    Tracks dev dev.chip ops ↔ AllFresh dev ops := by
  induction ops generalizing dev with
  | nil => exact iff_of_true rfl trivial
  | cons op ops ih =>
    obtain ⟨hclean', hret, hchip⟩ := exec_flat_iff hclean h.1
    constructor
    · rintro ⟨-, -, htracks⟩
      have hsame := htracks.chip
      have hrest := ih hclean' (hsame ▸ h.2)
      exact ⟨hchip.mp hsame, hrest.mp (hsame ▸ htracks)⟩
    · rintro ⟨hfresh, hrest⟩
      have hsame := hchip.mpr hfresh
      have htracks := (ih hclean' (hsame ▸ h.2)).mpr hrest
      exact ⟨rfl, hret, hsame ▸ htracks⟩

/-- **The device is a flat array of blocks exactly in the runs in which no block call uses a stale
cache.** -/
theorem w25_tracks_iff (chip sector : Memory UInt8) (ops : List Op) (h : AllAllowed chip ops) :
    Tracks (w25Initialize chip sector) chip ops ↔ AllFresh (w25Initialize chip sector) ops :=
  tracks_iff ⟨rfl, rfl⟩ ops h

/-- Two blocks of one sector are written, and one is read back. -/
theorem w25_tracks_iff_blocks :
    Tracks (w25Initialize (fun _ => erasedState) fun _ => 0) (fun _ => erasedState)
        [.bwrite (fun _ => true) 0 1 fun _ => 1, .bwrite (fun _ => true) 1 1 fun _ => 2, .bread 0 1] ↔
      AllFresh (w25Initialize (fun _ => erasedState) fun _ => 0)
        [.bwrite (fun _ => true) 0 1 fun _ => 1, .bwrite (fun _ => true) 1 1 fun _ => 2, .bread 0 1] :=
  w25_tracks_iff _ _ _ ⟨trivial, trivial, trivial, trivial⟩

def lostByte : List Op :=
  [.bwrite (fun _ => false) 0 1 fun _ => 1, .write 512 1 fun _ => 0,
    .bwrite (fun _ => false) 0 1 fun _ => 2]

theorem not_w25_tracks : ¬∀ (chip sector : Memory UInt8) (ops : List Op), AllAllowed chip ops →
    Tracks (w25Initialize chip sector) chip ops := by
  intro h
  have hallowed : AllAllowed (fun _ => erasedState) lostByte := by
    refine ⟨trivial, fun i hi _ => ?_, trivial, trivial⟩
    show store (fun _ => erasedState) (0 * 512) (1 * 512) (fun _ => 1) i = erasedState
    rw [store_of_not_mem (by omega)]
  have hclean : Clean (w25Initialize (fun _ => erasedState) fun _ => 0) := ⟨rfl, rfl⟩
  obtain ⟨-, -, hfresh, -⟩ := (tracks_iff hclean lostByte hallowed).mp (h _ _ _ hallowed)
  refine hfresh ⟨by decide, rfl, rfl, 512, by decide, by decide, ?_⟩
  decide

end Gpmx.Mtd.W25
