import Gpmx.Infra.Memory

/-!
# uORB: the node of one topic instance

`gpm/modules/uorb/uorb_device_node.c`. A node keeps the last `_queue_size` messages of a topic
in a ring and counts the publications in `_generation`. A subscriber has a record with the
generation it has read up to; the record hangs off `nd._priv` of the node.

A method is `none` where the code follows a NULL pointer or one to freed memory. What the
methods get from outside are arguments: the clock, and what `kmm_malloc` returns. Generations
are `uint32_t`.
-/

namespace Gpmx.Uorb

open Infra

def EIO : Int := 5
def ENOMEM : Int := 12
def EINVAL : Int := 22

/-- `UORB_F_RDONLY` and `UORB_F_WRONLY` -/
def rdonly : Nat := 1
def wronly : Nat := 2

/-- `struct __update_interval_data` -/
structure UpdateInterval where
  lastUpdate : Nat
  interval : Nat
  deriving DecidableEq

structure SubscriberData where
  generation : Nat
  updateInterval : Option UpdateInterval
  deriving DecidableEq

/-- What `nd._priv` points to. -/
inductive Priv where
  | null
  | live (sd : SubscriberData)
  | freed
  deriving DecidableEq

/-- `struct __uorb_device_node` with its `struct urbnode`; lists, locks and priority are left out. -/
structure DeviceNode where
  devname : List Char
  oSize : Nat
  data : Option (Memory UInt8)
  generation : Nat
  queueSize : Nat
  subscriberCount : Int
  advertised : Bool
  oflags : Nat
  priv : Priv

def uorbDeviceNodeInit (devname : List Char) (oSize queueSize : Nat) : DeviceNode :=
  { devname, oSize, data := none, generation := 0, queueSize, subscriberCount := 0,
    advertised := false, oflags := 0, priv := .null }

/-- A value kept in an `int8_t`. -/
def toInt8 (n : Int) : Int := n.bmod (2 ^ 8)

/-! ## Publishing -/

/-- `uorb_device_node_write`; `heap` is the ring that `kmm_malloc` gives if there is none yet. -/
def uorbDeviceNodeWrite (heap : Option (Memory UInt8)) (node : DeviceNode) (buffer : Memory UInt8)
    (buflen : Nat) : Int × DeviceNode :=
  match node.data <|> heap with
  | none => (-ENOMEM, node)
  | some data =>
    let node := { node with data := some data }
    if node.oSize ≠ buflen then (- EIO, node)
    else
      (node.oSize,
        { node with
          generation := (node.generation + 1) % 2 ^ 32
          data := some (data.write (node.oSize * (node.generation % node.queueSize))
            (buffer.read 0 node.oSize)) })

/-- `uorb_device_node_publish` with the node's own metadata and some data. -/
def uorbDeviceNodePublish (heap : Option (Memory UInt8)) (node : DeviceNode)
    (data : Memory UInt8) : Int × DeviceNode :=
  let r := uorbDeviceNodeWrite heap node data node.oSize
  if r.1 < 0 then (-1, r.2)
  else if r.1 ≠ node.oSize then (-1, r.2)
  else (0, r.2)

/-! ## Reading -/

/-- The generation `uorb_device_node_copy_locked` reads at. -/
def copyGeneration (node : DeviceNode) (generation : Nat) : Nat :=
  let generation :=
    if node.generation > (generation + node.queueSize) % 2 ^ 32 then
      (node.generation + 2 ^ 32 - node.queueSize) % 2 ^ 32
    else generation
  if node.generation = generation ∧ generation > 0 then generation - 1 else generation

/-- `uorb_device_node_copy_locked`: the message and the new generation of the subscriber. -/
def uorbDeviceNodeCopyLocked (node : DeviceNode) (data : Memory UInt8) (generation : Nat) :
    List UInt8 × Nat :=
  let generation := copyGeneration node generation
  (data.read (node.oSize * (generation % node.queueSize)) node.oSize,
    if generation < node.generation then (generation + 1) % 2 ^ 32 else generation)

/-- A result of `uorb_device_node_read`. -/
structure ReadResult where
  ret : Int
  bytes : List UInt8
  node : DeviceNode

/-- The record after a read at time `now`: an interval starts anew. -/
def SubscriberData.touch (sd : SubscriberData) (now generation : Nat) : SubscriberData :=
  { generation, updateInterval := sd.updateInterval.map fun ui => { ui with lastUpdate := now } }

def uorbDeviceNodeRead (now : Nat) (node : DeviceNode) (buflen : Nat) : Option ReadResult :=
  match node.data with
  | none => some ⟨0, [], node⟩
  | some data =>
    if buflen ≠ node.oSize then some ⟨- EIO, [], node⟩
    else
      match node.priv with
      | .live sd =>
        let r := uorbDeviceNodeCopyLocked node data sd.generation
        some ⟨node.oSize, r.1, { node with priv := .live (sd.touch now r.2) }⟩
      | _ => none

def hrtElapsedTime (now since : Nat) : Nat := if since > now then 0 else now - since

def uorbDeviceNodeAppearsUpdated (now : Nat) (node : DeviceNode) : Option Bool :=
  match node.data with
  | none => some false
  | some _ =>
    match node.priv with
    | .live sd =>
      match sd.updateInterval with
      | some ui =>
        if hrtElapsedTime now ui.lastUpdate < ui.interval then some false
        else some (decide (sd.generation ≠ node.generation))
      | none => some (decide (sd.generation ≠ node.generation))
    | _ => none

/-! ## Opening and closing -/

/--
`uorb_device_node_open`. For a subscriber the record is written before the pointer is checked,
so without memory (`mem = false`) the code writes through NULL.
-/
def uorbDeviceNodeOpen (mem : Bool) (node : DeviceNode) : Option (Int × DeviceNode) :=
  if node.oflags = wronly then some (0, { node with advertised := true })
  else if node.oflags = rdonly then
    if mem then
      let gen := node.generation
      let sd : SubscriberData :=
        { generation := gen - (if node.queueSize < gen then node.queueSize else gen),
          updateInterval := none }
      some (0, { node with priv := .live sd, subscriberCount := toInt8 (node.subscriberCount + 1) })
    else none
  else some (-EINVAL, node)

/-- `uorb_device_node_close`; the pointer to the freed record stays in `nd._priv`. -/
def uorbDeviceNodeClose (node : DeviceNode) : Option (Int × DeviceNode) :=
  if node.oflags = rdonly then
    match node.priv with
    | .null => some (0, node)
    | .live _ =>
      some (0, { node with priv := .freed, subscriberCount := toInt8 (node.subscriberCount - 1) })
    | .freed => none
  else some (0, node)

/-! ## `uorb_device_node_ioctl` -/

/--
`ORBIOCSETINTERVAL`. `fresh` is what `kmm_malloc` gives for a new interval: memory whose
`last_update` holds whatever was there, or nothing.
-/
def ioctlSetInterval (fresh : Option Nat) (node : DeviceNode) (arg : Nat) :
    Option (Int × DeviceNode) :=
  match node.priv with
  | .live sd =>
    let set (ui : Option UpdateInterval) : DeviceNode :=
      { node with priv := .live { sd with updateInterval := ui } }
    if arg = 0 then some (0, set none)
    else
      match sd.updateInterval, fresh with
      | some ui, _ => some (0, set (some { ui with interval := arg }))
      | none, some lastUpdate => some (0, set (some { lastUpdate, interval := arg }))
      | none, none => some (-ENOMEM, node)
  | _ => none

/-- `ORBIOCGETINTERVAL` -/
def ioctlGetInterval (node : DeviceNode) : Option Nat :=
  match node.priv with
  | .live sd =>
    match sd.updateInterval with
    | some ui => some ui.interval
    | none => some 0
  | _ => none

/-- `uorb_device_node_update_queue_size`, for `ORBIOCSETQUEUESIZE` -/
def uorbDeviceNodeUpdateQueueSize (node : DeviceNode) (queueSize : Nat) : Int × DeviceNode :=
  if node.queueSize = queueSize then (0, node)
  else if node.data.isSome ∨ node.queueSize > queueSize ∨ queueSize > 255 then (-1, node)
  else (0, { node with queueSize })

end Gpmx.Uorb
