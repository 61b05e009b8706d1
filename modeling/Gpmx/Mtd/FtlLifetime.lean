import Gpmx.Bch.Lifetime
import Gpmx.Bch.Transfer
import Gpmx.Mtd.Ftl

/-!
# FTL: open, close and unlink

`gpm/drivers/mtd/ftl.c`. The count of opens has sixteen bits. It is raised and lowered without a look at
its value, where BCH refuses an open that would not fit. With 65536 opens the count is zero again, and the
next `unlink` frees the device under all of them.
-/

namespace Gpmx.Mtd

open Infra Bch

/-- `struct ftl_struct_s` with its fields for open and unlink -/
structure FtlDev where
  dev : FtlStruct
  refs : UInt16
  unlinked : Bool

inductive FtlPart where
  | eblock
  | dev
deriving DecidableEq

def FtlDev.parts (ftl : FtlDev) : List FtlPart :=
  if ftl.dev.eblock.isSome then [.eblock, .dev] else [.dev]

/-- The end of `ftl_close` and `ftl_unlink`: the erase block, if there is one, and the device are freed. -/
def ftlFree (ftl : FtlDev) : Int × Option FtlDev × List FtlPart := (0, none, ftl.parts)

def ftlOpen (ftl : FtlDev) (_ : Unit) : Int × FtlDev := (0, { ftl with refs := ftl.refs + 1 })

def ftlClose (ftl : FtlDev) (_ : Unit) : Int × Option FtlDev × List FtlPart :=
  let ftl := { ftl with refs := ftl.refs - 1 }
  if ftl.refs = 0 ∧ ftl.unlinked = true then ftlFree ftl else (0, some ftl, [])

def ftlUnlink (ftl : FtlDev) (_ : Unit) : Int × Option FtlDev × List FtlPart :=
  let ftl := { ftl with unlinked := true }
  if ftl.refs = 0 then ftlFree ftl else (0, some ftl, [])

/-- `ftl_alloc_eblock`, with what `kmm_malloc` gives: what a transfer does to what the device holds. -/
def ftlTransfer (ftl : FtlDev) (heap : Option (Memory UInt8)) : FtlDev :=
  { ftl with dev := ftlAllocEblock heap ftl.dev }

def gBops : Driver FtlDev Unit (Option (Memory UInt8)) FtlPart where
  onOpen := ftlOpen
  onClose := ftlClose
  onUnlink := ftlUnlink
  onUse := ftlTransfer
  parts := FtlDev.parts

/-- After `ftl_initialize_by_path` -/
def FtlDev.fresh (mtd : Flash) : FtlDev := ⟨ftlInitialize mtd, 0, false⟩

/-! ## The count -/

theorem ftlRefs_eq_zero_iff {n : UInt16} : n = 0 ↔ n.toNat = 0 := by
  rw [← UInt16.toNat_inj]
  rfl

section Calls

variable {ftl : FtlDev}

theorem ftlPred_toNat (hpos : 0 < ftl.refs.toNat) : (ftl.refs - 1).toNat = ftl.refs.toNat - 1 :=
  UInt16.toNat_sub_of_le ftl.refs 1 (UInt16.le_iff_toNat_le.mpr hpos)

theorem ftlClose_kept (hpos : 0 < ftl.refs.toNat) (hlast : ¬(ftl.refs.toNat = 1 ∧ ftl.unlinked = true)) :
    ftlClose ftl () = (0, some { ftl with refs := ftl.refs - 1 }, []) := by
  have hcond : ¬(ftl.refs - 1 = 0 ∧ ftl.unlinked = true) := by
    rw [ftlRefs_eq_zero_iff, ftlPred_toNat hpos]
    exact fun h => hlast ⟨by omega, h.2⟩
  simp only [ftlClose, if_neg hcond]

theorem ftlClose_last (hlast : ftl.refs.toNat = 1 ∧ ftl.unlinked = true) :
    ftlClose ftl () = (0, none, ftl.parts) := by
  have hzero : ftl.refs - 1 = 0 := by
    rw [ftlRefs_eq_zero_iff, ftlPred_toNat (by omega)]
    omega
  simp only [ftlClose, if_pos (And.intro hzero hlast.2)]
  rfl

end Calls

theorem gBops_counts :
    gBops.Counts (fun ftl => ftl.refs.toNat) FtlDev.unlinked fun n => n < 2 ^ 16 - 1 where
  nodup ftl := by
    simp only [gBops, FtlDev.parts]
    split <;> decide
  marked_open ftl w := rfl
  count_open ftl w hroom := by
    have hlt : ftl.refs.toNat + 1 < 2 ^ 16 := by omega
    simpa [gBops, ftlOpen, UInt16.toNat_add] using hlt
  close ftl w hpos := by
    by_cases hlast : ftl.refs.toNat = 1 ∧ ftl.unlinked = true
    · have hclose := ftlClose_last hlast
      simp [gBops, hclose, hlast]
    · have hclose := ftlClose_kept hpos hlast
      have hpred := ftlPred_toNat hpos
      simp [gBops, hclose, hlast, hpred]
  unlink ftl w := by
    by_cases hzero : ftl.refs.toNat = 0
    · have hrefs := ftlRefs_eq_zero_iff.mpr hzero
      simp [gBops, ftlUnlink, ftlFree, FtlDev.parts, hrefs]
    · have hrefs := mt ftlRefs_eq_zero_iff.mp hzero
      simp [gBops, ftlUnlink, hrefs, hzero]
  marked_use ftl heap := rfl
  count_use ftl heap := rfl

/-! ## Runs -/

/-- **The lifetimes of block devices.** In every run of a BCH device, and in every run of a FTL device in
which no open is made on top of 65535, the device is there until it has been unlinked and the last open
has been closed. Then it is torn down, once, and a count of zero means that nobody has it open. -/
theorem lifetimes_balanced {lib : Bchlib} {mtd : Flash} {s : Shared BchDev Part}
    {s' : Shared FtlDev FtlPart}
    (hbch : Reaches bchFops.step (Shared.AllowsIn fun _ => True) (bchFops.start (.fresh lib)) s)
    (hftl : Reaches gBops.step (Shared.AllowsIn fun n => n < 2 ^ 16 - 1) (gBops.start (.fresh mtd)) s') :
    s.Balanced (fun bch => bch.refs.toNat) ∧ s'.Balanced (fun ftl => ftl.refs.toNat) :=
  ⟨bchFops_counts.all_balanced rfl rfl hbch, gBops_counts.all_balanced rfl rfl hftl⟩

/-- Two opens, an `unlink` between them, a write, and two closes. -/
def unlinkRun {W U : Type} (w : W) (u : U) : List (Request W U) :=
  [.open w, .unlink w, .open w, .use u, .close w, .close w]

/-- Both devices are gone after that, with all they had. -/
theorem lifetimes_balanced_unlinked :
    ∃ s s', Reaches bchFops.step (Shared.AllowsIn fun _ => True)
        (bchFops.start (.fresh (bchlibSetup zeroDriver 4 2 fun _ => 9))) s ∧
      Reaches gBops.step (Shared.AllowsIn fun n => n < 2 ^ 16 - 1) (gBops.start (.fresh smallFlash)) s' ∧
      s.released = [.blockdriver, .buffer, .sem, .bch] ∧ s'.released = [.eblock, .dev] := by
  have hbch : ((unlinkRun (0 : Int) (.write [7] 1)).foldlM
      (guarded bchFops.step (Shared.AllowsIn fun _ => True))
      (bchFops.start (.fresh (bchlibSetup zeroDriver 4 2 fun _ => 9)))).map
        (fun s => (s.unlinked, s.opens, s.acquired)) = some (true, 0, [.blockdriver, .buffer, .sem, .bch]) := by
    decide
  have hftl : ((unlinkRun () (some fun _ => 0)).foldlM
      (guarded gBops.step (Shared.AllowsIn fun n => n < 2 ^ 16 - 1)) (gBops.start (.fresh smallFlash))).map
        (fun s => (s.unlinked, s.opens, s.acquired)) = some (true, 0, [.eblock, .dev]) := by
    decide
  obtain ⟨s, hs, heq⟩ := Option.map_eq_some_iff.mp hbch
  obtain ⟨s', hs', heq'⟩ := Option.map_eq_some_iff.mp hftl
  simp only [Prod.mk.injEq] at heq heq'
  have hreach := Reaches.of_guarded _ hs
  have hreach' := Reaches.of_guarded _ hs'
  obtain ⟨hbalanced, hbalanced'⟩ := lifetimes_balanced hreach hreach'
  refine ⟨s, s', hreach, hreach', ?_, ?_⟩
  · rw [hbalanced.released, if_pos ⟨heq.1, heq.2.1⟩, heq.2.2]
  · rw [hbalanced'.released, if_pos ⟨heq'.1, heq'.2.1⟩, heq'.2.2]

theorem reaches_opens (mtd : Flash) (n : Nat) :
    Reaches gBops.step (Shared.AllowsIn fun _ => True) (gBops.start (.fresh mtd))
      ⟨some ⟨ftlInitialize mtd, UInt16.ofNat n, false⟩, n, false, [.dev], []⟩ := by
  induction n with
  | zero => exact .refl
  | succ n ih =>
    refine ih.tail (a := .open ()) ⟨fun hgone => Bool.false_ne_true hgone.1, trivial⟩ ?_
    simp only [Driver.step, Driver.settle, gBops, ftlOpen, Option.map_some, UInt16.ofNat_add]
    rfl

/-- With 65536 opens the count is zero, and `unlink` frees the device under them. -/
theorem lifetimes_unbalanced :
    ∃ s s', Reaches gBops.step (Shared.AllowsIn fun _ => True) (gBops.start (.fresh smallFlash)) s ∧
      s.opens = 2 ^ 16 ∧ ¬s.Balanced (fun ftl => ftl.refs.toNat) ∧
      gBops.step s (.unlink ()) = some s' ∧ s'.object = none ∧ s'.opens = 2 ^ 16 ∧
      ¬s'.Balanced (fun ftl => ftl.refs.toNat) := by
  have hreach := reaches_opens smallFlash (2 ^ 16)
  have hzero : UInt16.ofNat (2 ^ 16) = 0 := rfl
  rw [hzero] at hreach
  refine ⟨_, ⟨none, 2 ^ 16, true, [.dev], [.dev]⟩, hreach, rfl, fun h => ?_, rfl, rfl, rfl, fun h => ?_⟩
  · exact absurd (h.counted _ rfl rfl) (by decide)
  · exact absurd (h.gone.mp rfl).2 (by decide)

end Gpmx.Mtd
