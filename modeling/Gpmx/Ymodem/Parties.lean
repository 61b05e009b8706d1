import Gpmx.Ymodem.Common
import Mathlib

/-!
# The receiver

`apps/libs/ymodem/ymdm_rcv.c`. A call of `ymodem_rx_process` gets some bytes, which may be a part of a
frame; what it sends with `_fsnd` and what it hands to `_fcallback` is kept with its state.
-/

namespace Gpmx.Ymodem

/-- `YMODEM_SOH`, `YMODEM_STX` and `YMODEM_EOT` as the kind of frame to look for -/
inductive PackType where
  | soh
  | stx
  | eot
  deriving DecidableEq

namespace PackType

def header : PackType → UInt8
  | .soh => SOH
  | .stx => STX
  | .eot => EOT

def payloadLen : PackType → Nat
  | .stx => payloadlenStx
  | _ => payloadlenSoh

end PackType

structure Parse where
  buff : Nat → UInt8
  nbyte : Nat
  seq : UInt8
  seqXor : UInt8

def protoClear : Parse := { buff := fun _ => 0, nbyte := 0, seq := 0, seqXor := 0 }

namespace Parse

def read (msg : Parse) (off n : Nat) : Bytes := (List.range n).map fun i => msg.buff (off + i)

def store (msg : Parse) (c : UInt8) : Parse :=
  let msg := { msg with buff := Function.update msg.buff msg.nbyte c, nbyte := msg.nbyte + 1 }
  let msg := if msg.nbyte = 2 then { msg with seq := msg.buff 1 } else msg
  if msg.nbyte = 3 then { msg with seqXor := msg.buff 2 } else msg

def dframe (type : PackType) (msg : Parse) (c : UInt8) : Int × Parse :=
  if msg.nbyte = 0 then
    if c ≠ type.header then (-1, msg)
    else (-2, { msg with buff := Function.update msg.buff 0 c, nbyte := 1 })
  else
    let msg := msg.store c
    if msg.nbyte < nonpayloadlen + type.payloadLen then (-3, msg)
    else
      let msg := { msg with nbyte := 0 }
      if crc16Xmodem (msg.read headlen (type.payloadLen + 2)) ≠ 0#16 then (-4, msg) else (0, msg)

def parser (type : PackType) (msg : Parse) (c : UInt8) : Int × Parse :=
  match type with
  | .eot => (if c = EOT then 0 else -5, msg)
  | _ => msg.dframe type c

/-- The loop of `ymodem_parser_buff`, which drops what follows a frame that is complete. -/
def buffLoop (type : PackType) (ret : Int) (msg : Parse) : Bytes → Int × Parse
  | [] => (ret, msg)
  | c :: rest =>
    let (ret, msg) := msg.parser type c
    if ret = 0 then (0, msg)
    else buffLoop type ret (if ret = -1 then protoClear else msg) rest

def parserBuff (type : PackType) (msg : Parse) (p : Bytes) : Int × Parse := buffLoop type 0xff msg p

end Parse

inductive RcvState where
  | idle
  | syncWait
  | rcvPayload
  | rcvEota
  | rcvEotb
  | rcvEndtransmission
  | rcvCompleted
  deriving DecidableEq

/-- `struct __ymodem_receiver`, with what was sent and what was handed to the callback -/
structure Receiver where
  state : RcvState
  proto : Parse
  fname : Bytes
  fsize : Nat
  fsizeCal : Nat
  seqLst : UInt8
  seqTotal : Nat
  sent : Bytes
  calledBack : List (Nat × Bytes)

namespace Receiver

def reset (r : Receiver) : Receiver :=
  { r with state := .idle, proto := protoClear, fname := [], fsize := 0, fsizeCal := 0, seqLst := 0 }

def start (r : Receiver) : Receiver := { r with state := .syncWait }

/-- The kind of frame that `ymodem_rx_process` looks for. -/
def packType (r : Receiver) : PackType :=
  match r.state with
  | .rcvPayload =>
    if (r.fsize + 2 ^ 32 - r.fsizeCal) % 2 ^ 32 ≤ payloadlenSoh then .soh else .stx
  | .rcvEota | .rcvEotb => .eot
  | _ => .soh

def fsnd (r : Receiver) (bytes : Bytes) : Receiver := { r with sent := r.sent ++ bytes }

def InSequence (r : Receiver) : Prop :=
  r.proto.seq ||| r.proto.seqXor = 0xff ∧
    ((r.proto.seq.toNat : Int) - r.seqLst.toNat = 1 ∨ r.proto.seq = 0xff ∧ r.seqLst = 0x00)

instance (r : Receiver) : Decidable r.InSequence := inferInstanceAs (Decidable (_ ∧ _))

/-- A header that is complete. A name is in `fname` also where the header is refused afterwards. -/
def acceptHeader (r : Receiver) : Receiver :=
  if r.proto.seq = 0x00 ∧ r.proto.seqXor = 0xff then
    match yFilenameSizeGet (fun i => r.proto.buff (headlen + i)) payloadlenSoh with
    | some (fname, fsize) =>
      { r.fsnd [ACK, C] with fname, fsize, state := .rcvPayload, seqLst := 0 }
    | none => { r with fname := (r.proto.read headlen payloadlenSoh).takeWhile (· ≠ 0) }
  else r

def acceptPayload (type : PackType) (r : Receiver) : Receiver :=
  if r.InSequence then
    let r := { r.fsnd [ACK] with
      seqLst := r.proto.seq
      seqTotal := (r.seqTotal + 1) % 2 ^ 32
      fsizeCal := (r.fsizeCal + type.payloadLen) % 2 ^ 32 }
    let final := r.fsizeCal ≥ r.fsize
    let rcvPackLen := if r.fsizeCal > r.fsize then r.fsize % type.payloadLen else type.payloadLen
    { r with
      state := if final then .rcvEota else r.state
      calledBack := r.calledBack ++ [(r.seqTotal, r.proto.read headlen rcvPackLen)] }
  else r

def accept (type : PackType) (r : Receiver) : Receiver :=
  match r.state with
  | .idle | .rcvCompleted => r
  | .syncWait => r.acceptHeader
  | .rcvPayload => r.acceptPayload type
  | .rcvEota => { r.fsnd [NAK] with state := .rcvEotb }
  | .rcvEotb => { r.fsnd [ACK, C] with state := .rcvEndtransmission }
  | .rcvEndtransmission => { r.fsnd [ACK] with state := .rcvCompleted }

def rxProcess (r : Receiver) (p : Bytes) : Receiver :=
  match r.state with
  | .idle | .rcvCompleted => r
  | _ =>
    let (ret, proto) := r.proto.parserBuff r.packType p
    if ret = 0 then { r with proto }.accept r.packType else { r with proto }

end Receiver

end Gpmx.Ymodem

/-!
## The sender

`YModemSender` of `gpm/tools/ym_uploader.py`, connected to the receiver: a write hands the bytes to
`ymodem_rx_process` in pieces, and what the receiver sends is there when the sender reads. A read
that finds nothing runs into its timeout. How a frame is cut into pieces is a parameter.
-/

namespace Gpmx.Ymodem

abbrev Split := Nat → Bytes → List Bytes

structure Link where
  receiver : Receiver
  replies : Bytes
  frames : Nat

def packet (packetNum : Nat) (data : Bytes) (isHeader : Bool) : Bytes :=
  let startByte := if data.length > 128 then STX else SOH
  let packetNumByte := packetNum % 256
  let dataLength := if startByte = STX then 1024 else 128
  let body := data ++ List.replicate (dataLength - data.length) (if isHeader then 0x00 else 0x1A)
  let crc := crc16Xmodem body
  startByte :: UInt8.ofNat packetNumByte :: UInt8.ofNat (255 - packetNumByte) ::
    (body ++ [crcHigh crc, crcLow crc])

/-- `file.read(1024)` until there is nothing left. -/
def blocks (content : Bytes) : List Bytes :=
  if content = [] then []
  else content.take 1024 :: blocks (content.drop 1024)
termination_by content.length
decreasing_by
  rw [List.length_drop]
  have hpos := List.length_pos_iff.mpr ‹_›
  omega

def headerData (name : Bytes) (size : Nat) : Bytes := name ++ 0 :: (decimal size ++ [0])

namespace Link

def write (split : Split) (frame : Bytes) (l : Link) : Link :=
  let receiver := (split l.frames frame).foldl Receiver.rxProcess l.receiver
  { receiver
    replies := l.replies ++ receiver.sent.drop l.receiver.sent.length
    frames := l.frames + 1 }

def receiveByte (l : Link) : Option UInt8 × Link := (l.replies.head?, { l with replies := l.replies.tail })

def waitForSignal (signal : UInt8) (l : Link) : Bool × Link :=
  match l.replies.dropWhile (· ≠ signal) with
  | [] => (false, { l with replies := [] })
  | _ :: rest => (true, { l with replies := rest })

/-- `send_packet`, which returns `True`, `False` or `None` -/
def sendPacket (split : Split) (packetNum : Nat) (data : Bytes) (isHeader : Bool) (l : Link) :
    Option Bool × Link :=
  let (response, l) := (l.write split (packet packetNum data isHeader)).receiveByte
  if response = some ACK then (some true, l)
  else if response = some NAK then (some false, l)
  else if response = some CAN then (none, l)
  else (some false, l)

def sendRetry (split : Split) (packetNum : Nat) (data : Bytes) : Nat → Link → Bool × Link
  | 0, l => (false, l)
  | retries + 1, l =>
    match l.sendPacket split packetNum data false with
    | (some true, l) => (true, l)
    | (none, l) => (false, l)
    | (some false, l) => sendRetry split packetNum data retries l

def sendBlocks (split : Split) : Nat → List Bytes → Link → Bool × Link
  | _, [], l => (true, l)
  | packetNum, data :: rest, l =>
    match l.sendRetry split packetNum data 5 with
    | (false, l) => (false, l)
    | (true, l) => sendBlocks split (if packetNum + 1 > 255 then 1 else packetNum + 1) rest l

/-- A step of `send_file` that has to succeed; otherwise `send_file` returns `False`. -/
def must : Bool × Link → Except (Option Bool × Link) Link
  | (true, l) => .ok l
  | (false, l) => .error (some false, l)

/-- `send_file` up to its end; an early return is an error. -/
def session (split : Split) (name content : Bytes) (l : Link) : Except (Option Bool × Link) Link := do
  let l ← must (l.waitForSignal C)
  let (result, l) := l.sendPacket split 0 (headerData name content.length) true
  let l ← must (result = some true, l)
  let l ← must (l.waitForSignal C)
  let l ← must (l.sendBlocks split 1 (blocks content))
  let l ← must ((l.write split [EOT]).waitForSignal NAK)
  let l ← must ((l.write split [EOT]).waitForSignal ACK)
  let l ← must (l.waitForSignal C)
  match l.sendPacket split 0 (List.replicate 128 0) false with
  | (some true, l) => .ok l
  | (none, l) => .error (some false, l)
  | (some false, l) => .error (none, l)

def sendFile (split : Split) (name content : Bytes) (l : Link) : Option Bool × Link :=
  match l.session split name content with
  | .ok l => (some true, l)
  | .error stopped => stopped

end Link

/-- After `ymodem_reset` and `ymodem_start`, with the `C` that the application sends to begin. -/
def Receiver.opened (r : Receiver) : Link :=
  { receiver := { r.reset.start with sent := [], calledBack := [] }, replies := [C], frames := 0 }

end Gpmx.Ymodem
