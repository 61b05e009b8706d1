import Gpmx.Infra.Ring

/-!
# Pipes and FIFOs: the common driver

`gpm/drivers/pipes/pipe_common.c`. A pipe is a ring of `d_bufsize` bytes shared by readers
and writers. Every call runs under `d_bfsem`; a call that cannot go on releases it, waits on
`d_rdsem` or `d_wrsem`, takes it again and looks anew.

The code between taking and releasing `d_bfsem` is a *section*. A section is a function from
the device to the device, the bytes it moved between the ring and the user buffer, and its
outcome: the call returned, or it waits and has the rest of its work still to do. A section
is `none` where the code would follow a NULL `d_buffer` or leave the allocated bytes.

The index type `pipe_ndx_t` has 8, 16 or 32 bits after the configured size; `w` is that width.
Poll waiters are left out: no call looks at them to decide what to do.
-/

namespace Gpmx.Pipe

open Infra

def EAGAIN : Int := 11
def ENOMEM : Int := 12
def ENOTTY : Int := 25
def EPIPE : Int := 32

/-- The width of `pipe_ndx_t` for a `CONFIG_DEV_PIPE_MAXSIZE`. -/
def ndxBits (maxsize : Nat) : Nat :=
  if maxsize > 65535 then 32 else if maxsize > 255 then 16 else 8

/-- `struct pipe_dev_s`, without its semaphores and poll slots. -/
structure PipeDev where
  dWrndx : Nat
  dRdndx : Nat
  dBufsize : Nat
  dNwriters : Nat
  dNreaders : Nat
  /-- bit `PIPE_FLAG_POLICY` of `d_flags` -/
  policy1 : Bool
  dBuffer : Option (Memory UInt8)

/-- The bits of `f_oflags` the driver looks at. -/
structure Oflags where
  rdok : Bool
  wrok : Bool
  nonblock : Bool

inductive Pending where
  | opening (oflags : Oflags)
  | reading (len : Nat)
  | writing (rest : List UInt8) (nwritten : Nat)

inductive Outcome where
  | done (ret : Int)
  | wait (pending : Pending)

structure Section where
  dev : PipeDev
  moved : List UInt8
  outcome : Outcome

/-- `kmm_malloc` for the ring: a buffer with arbitrary contents, or NULL. -/
abbrev Malloc := Nat → Option (Memory UInt8)

/-! ## Life of the device -/

/-- `pipecommon_allocdev`: one byte more than asked for, to tell full from empty. -/
def pipecommonAllocdev (w bufsize : Nat) : PipeDev :=
  { dWrndx := 0, dRdndx := 0, dBufsize := (bufsize + 1) % 2 ^ w, dNwriters := 0, dNreaders := 0,
    policy1 := false, dBuffer := none }

/-- The loop of `pipecommon_open`: a blocking read-only open waits for a writer or for data. -/
def openWait (oflags : Oflags) (dev : PipeDev) : Section :=
  if oflags.nonblock = false ∧ (oflags.rdok = true ∧ oflags.wrok = false) ∧
      dev.dNwriters < 1 ∧ dev.dWrndx = dev.dRdndx then ⟨dev, [], .wait (.opening oflags)⟩
  else ⟨dev, [], .done 0⟩

/-- `d_nwriters++` and `d_nreaders++`, each an `uint8_t`. -/
def countOpen (oflags : Oflags) (dev : PipeDev) : PipeDev :=
  { dev with
    dNwriters := if oflags.wrok then (dev.dNwriters + 1) % 2 ^ 8 else dev.dNwriters
    dNreaders := if oflags.rdok then (dev.dNreaders + 1) % 2 ^ 8 else dev.dNreaders }

/-- `--d_nwriters` and `--d_nreaders`. -/
def countClose (oflags : Oflags) (dev : PipeDev) : PipeDev :=
  { dev with
    dNwriters := if oflags.wrok then (dev.dNwriters + (2 ^ 8 - 1)) % 2 ^ 8 else dev.dNwriters
    dNreaders := if oflags.rdok then (dev.dNreaders + (2 ^ 8 - 1)) % 2 ^ 8 else dev.dNreaders }

/-- `pipecommon_open` with `i_crefs = crefs`; the first reference allocates the ring. -/
def pipecommonOpen (malloc : Malloc) (crefs : Nat) (oflags : Oflags) (dev : PipeDev) : Section :=
  if crefs = 1 ∧ dev.dBuffer.isNone then
    match malloc dev.dBufsize with
    | none => ⟨dev, [], .done (-ENOMEM)⟩
    | some buffer => openWait oflags (countOpen oflags { dev with dBuffer := some buffer })
  else openWait oflags (countOpen oflags dev)

/-- `pipecommon_close` with `i_crefs = crefs`. -/
def pipecommonClose (crefs : Nat) (oflags : Oflags) (dev : PipeDev) : PipeDev :=
  if crefs > 1 then countClose oflags dev
  else if dev.policy1 = false ∨ dev.dWrndx = dev.dRdndx then
    { dev with dBuffer := none, dWrndx := 0, dRdndx := 0, dNwriters := 0, dNreaders := 0 }
  else dev

/-! ## Reading -/

/-- `d_buffer[d_rdndx]` -/
def PipeDev.fetch (dev : PipeDev) : Option UInt8 :=
  match dev.dBuffer with
  | none => none
  | some buffer => if dev.dRdndx < dev.dBufsize then some (buffer dev.dRdndx) else none

/-- `if (++d_rdndx >= d_bufsize) d_rdndx = 0` -/
def PipeDev.advance (w : Nat) (dev : PipeDev) : PipeDev :=
  { dev with
    dRdndx := if (dev.dRdndx + 1) % 2 ^ w ≥ dev.dBufsize then 0 else (dev.dRdndx + 1) % 2 ^ w }

/-- The copy loop of `pipecommon_read`. -/
def readLoop (w : Nat) : Nat → PipeDev → Option (PipeDev × List UInt8)
  | 0, dev => some (dev, [])
  | len + 1, dev =>
    if dev.dWrndx ≠ dev.dRdndx then do
      let b ← dev.fetch
      let r ← readLoop w len (dev.advance w)
      some (r.1, b :: r.2)
    else some (dev, [])

/-- A section of `pipecommon_read`. -/
def readSection (w : Nat) (nonblock : Bool) (len : Nat) (dev : PipeDev) : Option Section :=
  if dev.dWrndx = dev.dRdndx then
    if dev.dNwriters ≤ 0 then some ⟨dev, [], .done 0⟩
    else if nonblock then some ⟨dev, [], .done (-EAGAIN)⟩
    else some ⟨dev, [], .wait (.reading len)⟩
  else do
    let r ← readLoop w len dev
    some ⟨r.1, r.2, .done r.2.length⟩

/-- `pipecommon_read`, up to its first wait. -/
def pipecommonRead (w : Nat) (nonblock : Bool) (len : Nat) (dev : PipeDev) : Option Section :=
  if len = 0 then some ⟨dev, [], .done 0⟩ else readSection w nonblock len dev

/-! ## Writing -/

/-- `nxtwrndx`, an `int` compared with an index -/
def PipeDev.nxtwrndx (dev : PipeDev) : Nat :=
  if (dev.dWrndx + 1) % 2 ^ 32 ≥ dev.dBufsize then 0 else (dev.dWrndx + 1) % 2 ^ 32

/-- `d_buffer[d_wrndx] = b; d_wrndx = nxtwrndx` -/
def PipeDev.store (w : Nat) (dev : PipeDev) (b : UInt8) : Option PipeDev :=
  match dev.dBuffer with
  | none => none
  | some buffer =>
    if dev.dWrndx < dev.dBufsize then
      some { dev with
        dBuffer := some (buffer.write dev.dWrndx [b]), dWrndx := dev.nxtwrndx % 2 ^ w }
    else none

/--
A section of `pipecommon_write`: the loop from taking `d_bfsem` on, with `nwritten` bytes
written before and the others still in the user buffer. The empty buffer is the test
`nwritten >= len` after the last byte.
-/
def writeSection (w : Nat) (nonblock : Bool) : List UInt8 → Nat → PipeDev → Option Section
  | [], nwritten, dev => some ⟨dev, [], .done nwritten⟩
  | b :: rest, nwritten, dev =>
    if dev.dNreaders ≤ 0 then some ⟨dev, [], .done (if nwritten = 0 then -EPIPE else nwritten)⟩
    else if dev.nxtwrndx ≠ dev.dRdndx then do
      let dev ← dev.store w b
      let s ← writeSection w nonblock rest (nwritten + 1) dev
      some { s with moved := b :: s.moved }
    else if nonblock then some ⟨dev, [], .done (if nwritten = 0 then -EAGAIN else nwritten)⟩
    else some ⟨dev, [], .wait (.writing (b :: rest) nwritten)⟩

/-- `pipecommon_write`, up to its first wait. -/
def pipecommonWrite (w : Nat) (nonblock : Bool) (buffer : List UInt8) (dev : PipeDev) :
    Option Section :=
  if buffer.length = 0 then some ⟨dev, [], .done 0⟩ else writeSection w nonblock buffer 0 dev

/-! ## `pipecommon_ioctl` -/

/-- A value computed in the index type and assigned to an `int`. -/
def toInt (n : Int) : Int := n.bmod (2 ^ 32)

inductive IoctlCmd where
  | policy (arg : Nat)
  | fionwrite
  | fionread
  | fionspace
  | other

/-- The number of bytes in the ring, as `FIONREAD` computes it. -/
def PipeDev.fionread (dev : PipeDev) : Int :=
  if dev.dWrndx < dev.dRdndx then toInt ((dev.dBufsize - dev.dRdndx : Int) + dev.dWrndx)
  else toInt (dev.dWrndx - dev.dRdndx : Int)

/-- The number of free bytes in the ring, as `FIONSPACE` computes it. -/
def PipeDev.fionspace (dev : PipeDev) : Int :=
  if dev.dWrndx < dev.dRdndx then toInt ((dev.dRdndx - dev.dWrndx : Int) - 1)
  else toInt (((dev.dBufsize - dev.dWrndx : Int) + dev.dRdndx) - 1)

/-- `pipecommon_ioctl`: the device, the return value, and the `int` stored through `arg`. -/
def pipecommonIoctl (dev : PipeDev) : IoctlCmd → PipeDev × Int × Option Int
  | .policy arg => ({ dev with policy1 := decide (arg ≠ 0) }, 0, none)
  | .fionwrite => (dev, 0, some dev.fionread)
  | .fionread => (dev, 0, some dev.fionread)
  | .fionspace => (dev, 0, some dev.fionspace)
  | .other => (dev, -ENOTTY, none)

end Gpmx.Pipe
