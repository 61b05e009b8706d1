import Gpmx.Bch.Lib
import Gpmx.Infra.Unlinking

/-!
# BCH: open, close and unlink

`gpm/drivers/bch/bchdev_driver.c` and `bchlib_teardown.c`. The count of opens has eight bits, and an open
that would not fit is refused. The device is torn down by the last close after `unlink`, or by `unlink`
if nobody has it open.

A call that cannot take the semaphore returns its error and does nothing.
-/

namespace Gpmx.Bch

open Infra

def EIO : Int := 5
def EBUSY : Int := 16
def EMFILE : Int := 24

def maxOpencnt : UInt8 := 255

/-- `struct bchlib_s` with its fields for open, close and unlink -/
structure BchDev where
  lib : Bchlib
  refs : UInt8
  unlinked : Bool

/-- What `bchlib_setup` acquires and `bchlib_teardown` gives back. -/
inductive Part where
  /-- the open of the block driver, for `close_blockdriver` -/
  | blockdriver
  | buffer
  | sem
  | bch
deriving DecidableEq

def BchDev.parts (_ : BchDev) : List Part := [.blockdriver, .buffer, .sem, .bch]

/-- `bchlib_teardown`: the return value, the device if it is still there, and what is given back. -/
def bchlibTeardown (bch : BchDev) : Int × Option BchDev × List Part :=
  if bch.refs > 0 then (-EBUSY, some bch, [])
  else
    -- what is dirty is written back, or lost
    let bch := { bch with lib := (bchlibFlushsector bch.lib).2 }
    (0, none, bch.parts)

/-- `bch_open`, with what `bchlib_semtake` returns -/
def bchOpen (bch : BchDev) (semtake : Int) : Int × BchDev :=
  if semtake < 0 then (semtake, bch)
  else if bch.refs = maxOpencnt then (-EMFILE, bch)
  else (semtake, { bch with refs := bch.refs + 1 })

def bchClose (bch : BchDev) (semtake : Int) : Int × Option BchDev × List Part :=
  if semtake < 0 then (semtake, some bch, [])
  else
    let bch := { bch with lib := (bchlibFlushsector bch.lib).2 }
    if bch.refs = 0 then (- EIO, some bch, [])
    else
      let bch := { bch with refs := bch.refs - 1 }
      if bch.refs = 0 ∧ bch.unlinked = true then bchlibTeardown bch
      else (semtake, some bch, [])

def bchUnlink (bch : BchDev) (semtake : Int) : Int × Option BchDev × List Part :=
  if semtake < 0 then (semtake, some bch, [])
  else
    let bch := { bch with unlinked := true }
    if bch.refs = 0 then bchlibTeardown bch
    else (semtake, some bch, [])

inductive Transfer where
  | read (offset len : Nat)
  | write (buffer : List UInt8) (offset : Nat)

/-- `bch_read` and `bch_write`, at a position of the file -/
def bchTransfer (bch : BchDev) : Transfer → BchDev
  | .read offset len => { bch with lib := (bchlibRead bch.lib offset len).bch }
  | .write buffer offset => { bch with lib := (bchlibWrite bch.lib buffer offset).2 }

def bchFops : Driver BchDev Int Transfer Part where
  onOpen := bchOpen
  onClose := bchClose
  onUnlink := bchUnlink
  onUse := bchTransfer
  parts := BchDev.parts

/-- After `bchlib_setup` -/
def BchDev.fresh (lib : Bchlib) : BchDev := ⟨lib, 0, false⟩

/-! ## The count -/

theorem refs_eq_zero_iff {n : UInt8} : n = 0 ↔ n.toNat = 0 := by
  rw [← UInt8.toNat_inj]
  rfl

theorem bchlibTeardown_eq {bch : BchDev} (h : bch.refs = 0) :
    bchlibTeardown bch = (0, none, bch.parts) := by
  unfold bchlibTeardown
  rw [if_neg (by rw [h]; decide)]
  rfl

theorem count_bchOpen (bch : BchDev) (semtake : Int) :
    (bchOpen bch semtake).2.refs.toNat
      = if (bchOpen bch semtake).1 < 0 then bch.refs.toNat else bch.refs.toNat + 1 := by
  unfold bchOpen
  by_cases hsem : semtake < 0
  · rw [if_pos hsem, if_pos hsem]
  · rw [if_neg hsem]
    by_cases hfull : bch.refs = maxOpencnt
    · rw [if_pos hfull, if_pos (show -EMFILE < 0 by decide)]
    · rw [if_neg hfull, if_neg hsem]
      have hne : bch.refs.toNat ≠ 255 := fun h => hfull (UInt8.toNat_inj.mp h)
      have hlt := bch.refs.toNat_lt
      simp only [UInt8.toNat_add, UInt8.toNat_one]
      omega

section Calls

variable {bch : BchDev} {semtake : Int}

theorem pred_toNat (hpos : 0 < bch.refs.toNat) : (bch.refs - 1).toNat = bch.refs.toNat - 1 :=
  UInt8.toNat_sub_of_le bch.refs 1 (UInt8.le_iff_toNat_le.mpr hpos)

theorem bchClose_kept (hsem : ¬semtake < 0) (hpos : 0 < bch.refs.toNat)
    (hlast : ¬(bch.refs.toNat = 1 ∧ bch.unlinked = true)) :
    bchClose bch semtake = (semtake, some ⟨(bchlibFlushsector bch.lib).2, bch.refs - 1, bch.unlinked⟩, []) := by
  have hne : bch.refs ≠ 0 := mt refs_eq_zero_iff.mp (by omega)
  have hcond : ¬(bch.refs - 1 = 0 ∧ bch.unlinked = true) := by
    rw [refs_eq_zero_iff, pred_toNat hpos]
    exact fun h => hlast ⟨by omega, h.2⟩
  simp only [bchClose, if_neg hsem, if_neg hne, if_neg hcond]

theorem bchClose_last (hsem : ¬semtake < 0) (hlast : bch.refs.toNat = 1 ∧ bch.unlinked = true) :
    bchClose bch semtake = (0, none, bch.parts) := by
  have hne : bch.refs ≠ 0 := mt refs_eq_zero_iff.mp (by omega)
  have hzero : bch.refs - 1 = 0 := by
    rw [refs_eq_zero_iff, pred_toNat (by omega)]
    omega
  simp only [bchClose, if_neg hsem, if_neg hne, if_pos (And.intro hzero hlast.2)]
  exact bchlibTeardown_eq hzero

theorem bchUnlink_open (hsem : ¬semtake < 0) (hopen : bch.refs.toNat ≠ 0) :
    bchUnlink bch semtake = (semtake, some { bch with unlinked := true }, []) := by
  simp only [bchUnlink, if_neg hsem, if_neg (mt refs_eq_zero_iff.mp hopen)]

theorem bchUnlink_closed (hsem : ¬semtake < 0) (hzero : bch.refs.toNat = 0) :
    bchUnlink bch semtake = (0, none, bch.parts) := by
  have hrefs := refs_eq_zero_iff.mpr hzero
  simp only [bchUnlink, if_neg hsem, if_pos hrefs]
  exact bchlibTeardown_eq hrefs

end Calls

theorem bchFops_counts :
    bchFops.Counts (fun bch => bch.refs.toNat) BchDev.unlinked fun _ => True where
  nodup bch := by simp [bchFops, BchDev.parts]
  marked_open bch semtake := by
    simp only [bchFops, bchOpen]
    split_ifs <;> rfl
  count_open bch semtake _ := count_bchOpen bch semtake
  close bch semtake hpos := by
    by_cases hsem : semtake < 0
    · simp [bchFops, bchClose, hsem]
    · by_cases hlast : bch.refs.toNat = 1 ∧ bch.unlinked = true
      · have hclose := bchClose_last hsem hlast
        simp [bchFops, hclose, hlast]
      · have hclose := bchClose_kept hsem hpos hlast
        have hpred := pred_toNat hpos
        simp [bchFops, hclose, hlast, hsem, hpred]
  unlink bch semtake := by
    by_cases hsem : semtake < 0
    · simp [bchFops, bchUnlink, hsem]
    · by_cases hzero : bch.refs.toNat = 0
      · have hunlink := bchUnlink_closed hsem hzero
        simp [bchFops, hunlink, hzero]
      · have hunlink := bchUnlink_open hsem hzero
        simp [bchFops, hunlink, hzero, hsem]
  marked_use bch transfer := by cases transfer <;> rfl
  count_use bch transfer := by cases transfer <;> rfl

end Gpmx.Bch
