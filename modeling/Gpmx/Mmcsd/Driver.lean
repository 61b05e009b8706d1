import Gpmx.Infra.Contract
import Gpmx.Infra.Memory
import Gpmx.Mmcsd.Register

/-!
# MMC/SD driver

`gpm/drivers/spi/mmcsd_spi.c` on a SPI bus that is open: what a transfer returns, and what time it is, is
the bus's own business.

* `Bus`, `Obj` — the bus, and `mmcsd_obj_t`
* `mmcsdCmd` — a command, with its response
* `mmcsdSpiInit`, `mmcsdSpiReadblock`, … — the public operations

The loops that wait for a token or for the card to be idle have no bound; they get fuel. States of the
card are returned as `mmcsd_state_t`, but several functions return the status of a transfer in its place;
both are integers here. `log` and `chip` are bookkeeping: what has gone over the bus, and the level of the
chip select.
-/

namespace Gpmx.Mmcsd

open Infra

abbrev Byte := BitVec 8

/-- The SPI device and the clock of the board. Transfers give a status; what is received may be shorter
than asked for when the transfer fails. -/
structure Bus (σ : Type) where
  select : σ → Bool → σ
  sndblock : σ → List Byte → Int × σ
  exchangeblock : σ → Nat → Int × List Byte × σ
  boardGetTime : σ → BitVec 32 × σ

inductive EventKind where
  | select
  | deselect
  | transfer
  /-- the clocks before CMD0 -/
  | clocks
  /-- a command is refused with `SMBUS_BUSY` -/
  | refused
deriving DecidableEq, Repr

/-- What has happened, with `active_lock` and the level of the chip select afterwards. -/
structure Event where
  kind : EventKind
  lock : BitVec 8
  chip : Bool
deriving DecidableEq, Repr

/-- `mmcsd_obj_t`. `csd` and `cid` are memories with the register at address 0. -/
structure Obj (σ : Type) where
  r1 : Byte
  dword : BitVec 32
  state : Int
  activeLock : BitVec 8
  maxRetry : BitVec 8
  errorToken : Byte
  ocr : BitVec 32
  type : CardType
  csd : ByteMem
  cid : ByteMem
  info : CardInfo
  bus : σ
  chip : Bool
  log : List Event

def SMBUS_OK : Int := 0
def SMBUS_ERROR : Int := 1
def SMBUS_BUSY : Int := 2

def SM_STATE_RESET : Int := 0
def SM_STATE_READY : Int := 1
def SM_STATE_BUSY : Int := 2
def SM_STATE_ERROR : Int := 3

def CMD0 : Byte := 0x40
def CMD1 : Byte := 0x41
def CMD8 : Byte := 0x48
def CMD9 : Byte := 0x49
def CMD10 : Byte := 0x4a
def CMD17 : Byte := 0x51
def ACMD23 : Byte := 0x57
def CMD24 : Byte := 0x58
def ACMD41 : Byte := 0x69
def CMD55 : Byte := 0x77
def CMD58 : Byte := 0x7a

def R1_IDLE : Byte := 0x01
def R1_START : Byte := 0x80

def SD_START_SINGLE_BLOCK_READ : Byte := 0xfe

variable {σ : Type}

namespace Obj

def record (o : Obj σ) (kind : EventKind) : Obj σ := { o with log := ⟨kind, o.activeLock, o.chip⟩ :: o.log }

def select (B : Bus σ) (o : Obj σ) : Obj σ :=
  record { o with
    activeLock := o.activeLock + 1
    bus := B.select o.bus true
    chip := true } .select

def deselect (B : Bus σ) (o : Obj σ) : Obj σ :=
  let lock := o.activeLock - 1
  let o :=
    if lock = 0 then
      { o with
        activeLock := lock
        bus := B.select o.bus false
        chip := false }
    else { o with activeLock := lock }
  record o .deselect

end Obj

section

variable (B : Bus σ)

def mmcsdSelect : Prog (Obj σ) Unit := modify (Obj.select B)

def mmcsdDeselect : Prog (Obj σ) Unit := modify (Obj.deselect B)

/-! ## Transfers -/

def sndblock (bytes : List Byte) : Prog (Obj σ) Int := fun o =>
  let (sta, bus) := B.sndblock o.bus bytes
  some (sta, { o with bus := bus }.record .transfer)

/-- With the bytes of `dummy` going out. -/
def exchangeblock (n : Nat) : Prog (Obj σ) (Int × List Byte) := fun o =>
  let (sta, rx, bus) := B.exchangeblock o.bus n
  some ((sta, rx), { o with bus := bus }.record .transfer)

def sndClocks (n : Nat) : Prog (Obj σ) Int := fun o =>
  let (sta, bus) := B.sndblock o.bus (List.replicate n 0xff)
  some (sta, { o with bus := bus }.record .clocks)

def boardGetTime : Prog (Obj σ) (BitVec 32) := fun o =>
  let (time, bus) := B.boardGetTime o.bus
  some (time, { o with bus := bus })

/-! ## Responses -/

/-- `mmcsd_recv_r1`, with `ncr` attempts left. -/
def mmcsdRecvR1 : (ncr : Nat) → Prog (Obj σ) Int
  | 0 => pure SMBUS_ERROR
  | ncr + 1 => do
    let (sta, rx) ← exchangeblock B 1
    modify fun o => { o with r1 := rx.headD o.r1 }
    if sta ≠ SMBUS_OK then pure sta
    else if ncr = 0 then pure SMBUS_ERROR
    else do
      let o ← get
      if o.r1 &&& R1_START ≠ 0 then mmcsdRecvR1 ncr else pure sta

def bigEndian (rx : List Byte) : BitVec 32 :=
  rx.headD 0 ++ (rx.drop 1).headD 0 ++ (rx.drop 2).headD 0 ++ (rx.drop 3).headD 0

def mmcsdRecvR3R7 : Prog (Obj σ) Int := do
  let sta ← mmcsdRecvR1 B 10
  if sta = SMBUS_OK then do
    let (sta, rx) ← exchangeblock B 4
    if sta = SMBUS_OK then do
      modify fun o => { o with dword := bigEndian rx }
      pure sta
    else pure sta
  else pure sta

/-! ## Commands -/

/-- `cmd.crc`. -/
def crcOf (idx : Byte) : Byte :=
  if idx = CMD0 then 0x95 else if idx = CMD8 then 0x87 else if idx = CMD17 then 0xff else 0x01

/-- The packed `mmcsd_cmd_t`: the argument is stored turned around. -/
def frame (idx : Byte) (arg : BitVec 32) : List Byte :=
  idx :: (Store.word 0 (bswap32 arg)).bytes ++ [crcOf idx]

def mmcsdRecv (idx : Byte) : Prog (Obj σ) Int :=
  if idx = CMD8 ∨ idx = CMD58 then mmcsdRecvR3R7 B else mmcsdRecvR1 B 10

/-- The end of `mmcsd_cmd`, from `mmcsd_select` on. -/
def mmcsdCmdFrame (idx : Byte) (arg : BitVec 32) : Prog (Obj σ) Int := do
  mmcsdSelect B
  let sta ← sndblock B (frame idx arg)
  if sta = SMBUS_OK then do
    let sta ← mmcsdRecv B idx
    let o ← get
    mmcsdDeselect B
    if sta = SMBUS_OK ∧ o.r1 &&& ~~~R1_IDLE ≠ 0 then pure SMBUS_ERROR else pure sta
  else do
    mmcsdDeselect B
    pure sta

/-- `mmcsd_cmd` for a command that is no application command. -/
def mmcsdCmdPlain (idx : Byte) (arg : BitVec 32) : Prog (Obj σ) Int := do
  let o ← get
  if 2 ≤ o.activeLock then do
    modify (Obj.record · .refused)
    pure SMBUS_BUSY
  else mmcsdCmdFrame B idx arg

/-- `mmcsd_cmd`: an application command is a command of its own after CMD55. -/
def mmcsdCmd (idx : Byte) (arg : BitVec 32) : Prog (Obj σ) Int := do
  let o ← get
  if 2 ≤ o.activeLock then do
    modify (Obj.record · .refused)
    pure SMBUS_BUSY
  else if idx = ACMD23 ∨ idx = ACMD41 then do
    let sta ← mmcsdCmdPlain B CMD55 0
    if sta ≠ SMBUS_OK then pure sta else mmcsdCmdFrame B idx arg
  else mmcsdCmdFrame B idx arg

/-! ## Data -/

def pollToken : (fuel : Nat) → (token : Byte) → Prog (Obj σ) (Int × Byte)
  | 0, _ => failure
  | fuel + 1, token => do
    let (sta, rx) ← exchangeblock B 1
    if sta = SMBUS_OK ∧ rx.headD token = 0xff then pollToken fuel (rx.headD token)
    else pure (sta, rx.headD token)

/-- The loop that receives `size` bytes, 16 at a time, into the memory from `p` on. Some functions step on
by 16 bytes even after the last part, where nothing follows. -/
def receive : (parts : Nat) → (size : Nat) → Memory Byte → (p : Nat) → Prog (Obj σ) (Int × Memory Byte)
  | 0, _, m, _ => pure (SMBUS_OK, m)
  | parts + 1, size, m, p =>
    if size = 0 then pure (SMBUS_OK, m)
    else do
      let readSize := if size > 16 then 16 else size
      let (sta, rx) ← exchangeblock B readSize
      if sta ≠ SMBUS_OK then pure (sta, m.write p rx)
      else receive parts (size - readSize) (m.write p rx) (p + 16)

/-- `mmcsd_read_datablock`; the token has no value before the first byte. -/
def mmcsdReadDatablock (fuel : Nat) (m : Memory Byte) (p size : Nat) :
    Prog (Obj σ) (Int × Memory Byte) := do
  let (sta, token) ← pollToken B fuel 0xff
  if sta ≠ SMBUS_OK then do
    modify fun o => { o with errorToken := token }
    pure (sta, m)
  else if token ≠ 0xfe then do
    modify fun o => { o with errorToken := token }
    pure (SMBUS_ERROR, m)
  else do
    let (sta, m) ← receive B size size m p
    if sta ≠ SMBUS_OK then pure (sta, m)
    else do
      let (sta, _) ← exchangeblock B 2
      pure (sta, m)

/-! ## Initialisation -/

def setState (state : Int) : Prog (Obj σ) Int := do
  modify fun o => { o with state := state }
  pure state

def mmcsdCmd0Goidlestate : Prog (Obj σ) Int := do
  let sta ← sndClocks B 10
  if sta ≠ SMBUS_OK then setState SM_STATE_RESET
  else do
    let sta ← mmcsdCmd B CMD0 0
    let o ← get
    if sta ≠ SMBUS_OK ∨ o.r1 ≠ R1_IDLE then setState SM_STATE_ERROR
    else pure SM_STATE_READY

/-- The rounds of a loop that counts `retry` down before it looks at it. -/
def rounds (retry : BitVec 8) : Nat := if retry = 0 then 256 else retry.toNat

/-- ACMD41 for a second version: `false` when the retries are used up. -/
def hcsLoop : (retry : Nat) → Prog (Obj σ) Bool
  | 0 => pure false
  | retry + 1 => do
    let sta ← mmcsdCmd B ACMD41 0x40000000
    if sta ≠ SMBUS_OK ∨ retry = 0 then pure false
    else do
      let o ← get
      if o.r1 ≠ 0 then hcsLoop retry else pure true

def sd1Loop : (retry : Nat) → Prog (Obj σ) Unit
  | 0 => pure ()
  | retry + 1 => do
    let sta ← mmcsdCmd B ACMD41 0
    let o ← get
    if o.r1 ≠ 0 ∧ sta = SMBUS_OK ∧ retry ≠ 0 then sd1Loop retry else pure ()

def mmcLoop : (retry : Nat) → Prog (Obj σ) Bool
  | 0 => pure false
  | 1 => do
    let _ ← mmcsdCmd B CMD1 0
    pure false
  | retry + 2 => do
    let sta ← mmcsdCmd B CMD1 0
    if sta ≠ SMBUS_OK then pure false
    else do
      let o ← get
      if o.r1 ≠ 0 ∧ retry ≠ 0 then mmcLoop retry else pure true

def ccs (ocr : BitVec 32) : Bool := ocr.getLsbD 30

def mmcsdCmd8Optcondvalidation : Prog (Obj σ) Int := do
  let sta ← mmcsdCmd B CMD8 0x1aa
  if sta = SMBUS_OK then do
    let o ← get
    let ok ← hcsLoop B (rounds o.maxRetry)
    if ok = false then setState SM_STATE_ERROR
    else do
      let sta ← mmcsdCmd B CMD58 0
      if sta ≠ SMBUS_OK then setState SM_STATE_ERROR
      else do
        modify fun o =>
          { o with
            ocr := o.dword
            type := if ccs o.dword then .CT_SDHC else .CT_SD2 }
        pure SM_STATE_READY
  else do
    let o ← get
    sd1Loop B (rounds o.maxRetry)
    let o ← get
    if o.r1 = 0 then do
      modify fun o => { o with type := .CT_SD1 }
      pure SM_STATE_READY
    else do
      let ok ← mmcLoop B (rounds o.maxRetry)
      let o ← get
      if ok = false then setState SM_STATE_ERROR
      else if o.r1 = 0 then do
        modify fun o => { o with type := .CT_MMC }
        pure SM_STATE_READY
      else setState SM_STATE_ERROR

/-- `mmcsd_cmd9_readOSD` and `mmcsd_cmd10_readOID`: a register is received and turned around. -/
def readRegister (fuel : Nat) (idx : Byte) (get : Obj σ → ByteMem) (set : ByteMem → Obj σ → Obj σ) :
    Prog (Obj σ) Int := do
  let sta ← mmcsdCmd B idx 0
  if sta ≠ SMBUS_OK then setState SM_STATE_ERROR
  else do
    let o ← MonadState.get
    let (sta, m) ← mmcsdReadDatablock B fuel (fun i => get o (BitVec.ofNat 32 i)) 0 16
    if sta ≠ SMBUS_OK then do
      modify (set fun a => m a.toNat)
      setState SM_STATE_ERROR
    else do
      modify (set (bswap128 (fun a => m a.toNat) 0))
      pure SM_STATE_READY

def mmcsdCmd9ReadOSD (fuel : Nat) : Prog (Obj σ) Int :=
  readRegister B fuel CMD9 Obj.csd fun csd o => { o with csd := csd }

def mmcsdCmd10ReadOID (fuel : Nat) : Prog (Obj σ) Int :=
  readRegister B fuel CMD10 Obj.cid fun cid o => { o with cid := cid }

/-- `obj->state`. -/
def returnState : Prog (Obj σ) Int := do
  let o ← get
  pure o.state

/-- The end of `mmcsd_spi_init`, from `mmcsd_cmd0_goidlestate` on. -/
def identifyCard (fuel : Nat) : Prog (Obj σ) Int := do
  let res ← mmcsdCmd0Goidlestate B
  if res ≠ SM_STATE_READY then returnState
  else do
    let res ← mmcsdCmd8Optcondvalidation B
    if res ≠ SM_STATE_READY then returnState
    else do
      mmcsdSelect B
      let res ← mmcsdCmd9ReadOSD B fuel
      if res ≠ SM_STATE_READY then do
        mmcsdDeselect B
        returnState
      else do
        let res ← mmcsdCmd10ReadOID B fuel
        if res ≠ SM_STATE_READY then do
          mmcsdDeselect B
          returnState
        else do
          mmcsdDeselect B
          modify fun o => { o with info := decodeCsd o.type o.csd 0 }
          setState SM_STATE_READY

def mmcsdSpiInit (fuel : Nat) : Prog (Obj σ) Int := do
  let o ← get
  if o.state ≠ SM_STATE_RESET then pure o.state
  else do
    modify fun o => { o with state := SM_STATE_BUSY, activeLock := 1 }
    mmcsdDeselect B
    identifyCard B fuel

/-! ## Blocks -/

def blockArgs (type : CardType) (addr : BitVec 64) (blocksize : BitVec 16) : BitVec 64 × BitVec 16 :=
  if type = .CT_SDHC then (addr / 512, 512) else (addr, blocksize)

def mmcsdCmd17Readsingleblock (fuel : Nat) (m : Memory Byte) (pbuf : Nat) (addr : BitVec 64)
    (blocksize : BitVec 16) : Prog (Obj σ) (Int × Memory Byte) := do
  let o ← get
  let (addr, blocksize) := blockArgs o.type addr blocksize
  let sta ← mmcsdCmd B CMD17 (addr.setWidth 32)
  if sta ≠ SMBUS_OK then do
    let res ← setState SM_STATE_ERROR
    pure (res, m)
  else do
    let (sta, token) ← pollToken B fuel 0xff
    if sta ≠ SMBUS_OK then do
      modify fun o => { o with errorToken := token }
      pure (sta, m)
    else if token ≠ SD_START_SINGLE_BLOCK_READ then do
      modify fun o => { o with errorToken := token }
      pure (SM_STATE_ERROR, m)
    else do
      let (sta, m) ← receive B blocksize.toNat blocksize.toNat m pbuf
      if sta ≠ SMBUS_OK then pure (SM_STATE_ERROR, m)
      else do
        let (sta, _) ← exchangeblock B 2
        if sta ≠ SMBUS_OK then pure (sta, m) else pure (SM_STATE_READY, m)

/-- The loop of `mmcsd_cmd17_readmultiblocks`. The address goes on by one for each block, whatever it
counts. -/
def mmcsdCmd17Readmultiblocks (fuel : Nat) (pbuf : Nat) (addr : BitVec 64) (blocksize : BitVec 16) :
    (numblocks : Nat) → (offset : BitVec 32) → Memory Byte → Prog (Obj σ) (Int × Memory Byte)
  | 0, _, m => pure (SM_STATE_READY, m)
  | numblocks + 1, offset, m => do
    let sta ← mmcsdCmd B CMD17 ((addr + offset.setWidth 64).setWidth 32)
    if sta ≠ SMBUS_OK then do
      let res ← setState SM_STATE_ERROR
      pure (res, m)
    else do
      let (sta, token) ← pollToken B fuel 0xff
      if sta ≠ SMBUS_OK then do
        modify fun o => { o with errorToken := token }
        pure (sta, m)
      else if token ≠ SD_START_SINGLE_BLOCK_READ then do
        modify fun o => { o with errorToken := token }
        pure (SM_STATE_ERROR, m)
      else do
        let ptr := pbuf + (offset * blocksize.setWidth 32).toNat
        let (sta, m) ← receive B blocksize.toNat blocksize.toNat m ptr
        if sta ≠ SMBUS_OK then pure (sta, m)
        else do
          let (sta, _) ← exchangeblock B 2
          if sta ≠ SMBUS_OK then pure (sta, m)
          else mmcsdCmd17Readmultiblocks fuel pbuf addr blocksize numblocks (offset + 1) m

def mmcsdCmd24Writesingleblock (m : Memory Byte) (pbuf : Nat) (addr : BitVec 64) (blocksize : BitVec 16) :
    Prog (Obj σ) Int := do
  let o ← get
  let (addr, blocksize) := blockArgs o.type addr blocksize
  let sta ← mmcsdCmd B CMD24 (addr.setWidth 32)
  if sta ≠ SMBUS_OK then setState SM_STATE_ERROR
  else do
    let sta ← sndblock B [0xff, 0xfe]
    if sta ≠ SMBUS_OK then pure sta
    else do
      let sta ← sndblock B (m.read pbuf blocksize.toNat)
      if sta ≠ SMBUS_OK then pure sta
      else do
        let (sta, _) ← exchangeblock B 2
        if sta ≠ SMBUS_OK then pure sta else pure SM_STATE_READY

def pollIdle (timestamp : BitVec 32) : (fuel : Nat) → (recv : Byte) → (elapsed : BitVec 32) →
    Prog (Obj σ) (BitVec 32)
  | 0, _, _ => failure
  | fuel + 1, recv, elapsed => do
    let (_, rx) ← exchangeblock B 1
    if rx.headD recv = 0xff then pure elapsed
    else do
      let time ← boardGetTime B
      if time - timestamp < 500 then pollIdle timestamp fuel (rx.headD recv) (time - timestamp)
      else pure (time - timestamp)

/-- The loop of `mmcsd_cmd24_writemultiblocks`, with the start token that is sent. -/
def writeBlocks (fuel : Nat) (token : Byte) (m : Memory Byte) (addr : BitVec 64) (blocksize : BitVec 16) :
    (numblocks : Nat) → (offset : BitVec 32) → (pbuf : Nat) → Prog (Obj σ) Int
  | 0, _, _ => pure SM_STATE_READY
  | numblocks + 1, offset, pbuf => do
    let sta ← mmcsdCmd B CMD24 ((addr + offset.setWidth 64).setWidth 32)
    if sta ≠ SMBUS_OK then setState SM_STATE_ERROR
    else do
      let sta ← sndblock B [token]
      if sta ≠ SMBUS_OK then pure sta
      else do
        let sta ← sndblock B (m.read pbuf blocksize.toNat)
        if sta ≠ SMBUS_OK then pure sta
        else do
          -- neither the status of the checksum nor that of the response is looked at
          let _ ← exchangeblock B 2
          let (_, rx) ← exchangeblock B 1
          if rx.headD 0 &&& 0x1f ≠ 0x05 then pure SM_STATE_ERROR
          else do
            let timestamp ← boardGetTime B
            let elapsed ← pollIdle B timestamp fuel 0 0
            if 500 ≤ elapsed then pure SM_STATE_ERROR
            else writeBlocks fuel token m addr blocksize numblocks (offset + 1) (pbuf + 512)

def mmcsdCmd24Writemultiblocks (fuel : Nat) (m : Memory Byte) (pbuf : Nat) (addr : BitVec 64)
    (blocksize : BitVec 16) (numblocks : Nat) : Prog (Obj σ) Int :=
  let token : Byte := if numblocks = 1 then 0xfe else 0xfc
  writeBlocks B fuel token m addr blocksize numblocks 0 pbuf

/-! ## The public operations -/

/-- An operation between `mmcsd_select` and `mmcsd_deselect`. -/
def selected {α : Type} (f : Prog (Obj σ) α) : Prog (Obj σ) α := do
  mmcsdSelect B
  let res ← f
  mmcsdDeselect B
  pure res

def mmcsdSpiReadblock (fuel : Nat) (m : Memory Byte) (p : Nat) (addr blocksize : BitVec 32) :
    Prog (Obj σ) (Int × Memory Byte) :=
  selected B (mmcsdCmd17Readsingleblock B fuel m p (addr.setWidth 64) (blocksize.setWidth 16))

def mmcsdSpiReadmultiblocks (fuel : Nat) (m : Memory Byte) (p : Nat) (addr blocksize numblock : BitVec 32) :
    Prog (Obj σ) (Int × Memory Byte) :=
  selected B (mmcsdCmd17Readmultiblocks B fuel p (addr.setWidth 64) (blocksize.setWidth 16) numblock.toNat 0 m)

def mmcsdSpiWriteblock (m : Memory Byte) (p : Nat) (addr blocksize : BitVec 32) : Prog (Obj σ) Int :=
  selected B (mmcsdCmd24Writesingleblock B m p (addr.setWidth 64) (blocksize.setWidth 16))

def mmcsdSpiWritemultiblocks (fuel : Nat) (m : Memory Byte) (p : Nat)
    (addr blocksize numblock : BitVec 32) : Prog (Obj σ) Int :=
  selected B (mmcsdCmd24Writemultiblocks B fuel m p (addr.setWidth 64) (blocksize.setWidth 16) numblock.toNat)

end

end Gpmx.Mmcsd
