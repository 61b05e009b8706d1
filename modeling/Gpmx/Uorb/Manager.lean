import Gpmx.Uorb.Handles

/-!
# uORB: the device master and the manager

`uorb_device_master_advertise` of `gpm/modules/uorb/uorb_device_master.c`, and
`manager_node_open` with the calls built on it of `uorb_manager.c`. A topic has up to
`ORB_MULTI_MAX_INSTANCES` instances, each with a node under the path `/obj/<name><instance>`.
The master makes the nodes that are missing and hands out the instances.

A pointer to a node is the number of its slot in `node_map`: a node is put there when it is
made and stays. Priorities are left out, and so is the bit set that only `orb_exists` reads. A
function is `none` where it follows a NULL pointer. What `kmm_malloc` returns comes from outside.
-/

namespace Gpmx.Uorb

open Infra

def ORB_MULTI_MAX_INSTANCES : Nat := 4
def ORB_MAXPATH : Nat := 64
def ENAMETOOLONG : Int := 36

/-- What `%d` prints for an `unsigned`. -/
def printIndex (index : Nat) : List Char :=
  if index < 2 ^ 31 then Nat.toDigits 10 index else '-' :: Nat.toDigits 10 (2 ^ 32 - index)

/-- The text that `uorb_node_mkpath` prints. -/
def nodePath (oName : List Char) (index : Nat) : List Char :=
  "/obj/".toList ++ oName ++ printIndex index

/-- `uorb_node_mkpath`; the path, unless it is too long. -/
def uorbNodeMkpath (oName : List Char) (inst : Option Nat) : Option (List Char) :=
  let path := nodePath oName (inst.getD 0)
  if path.length ≥ ORB_MAXPATH then none else some path

/-- A node in `_node_list`. -/
structure Listed where
  oName : List Char
  inst : Nat
  slot : Nat
  deriving DecidableEq

/-- `node_map`, `_node_list` and `errno`. -/
structure Orb where
  map : NodeMap
  nodeList : List Listed
  errno : Int

/-- A change of the node in slot `i`. -/
def NodeMap.modify (map : NodeMap) (i : Nat) (f : DeviceNode → DeviceNode) : NodeMap :=
  match getUorbnode map i with
  | none => map
  | some node => map.put i (f node)

def markAsAdvertised (node : DeviceNode) : DeviceNode := { node with advertised := true }

def Orb.getNodeLocked (s : Orb) (oName : List Char) (inst : Nat) : Option Listed :=
  s.nodeList.find? fun n => n.oName = oName ∧ n.inst = inst

def Orb.isAdvertised (s : Orb) (slot : Nat) : Bool :=
  (getUorbnode s.map slot).any DeviceNode.advertised

/-- What `kmm_malloc` does for the path and for the node of one try. -/
inductive Alloc where
  | ok
  | noPath
  | noNode
  deriving DecidableEq

/-- The outcome of one turn of the loop of `uorb_device_master_advertise`. -/
inductive Tried where
  | noMemory
  | tried (ret : Int) (s : Orb)

section Master

variable (oSize : List Char → Nat)

/-- One turn of the loop. `uorb_device_node_init` writes to a node that was not allocated. -/
def advertiseTry (alloc : Alloc) (oName : List Char) (isAdvertiser single : Bool) (groupTries : Nat)
    (devpath : List Char) (s : Orb) : Option Tried :=
  match alloc with
  | .noPath => some .noMemory
  | .noNode => none
  | .ok =>
    let r := registerUorbDriver s.map (uorbDeviceNodeInit devpath (oSize oName) 1)
    if r.1 = 0 then
      let slot := s.map.slots.findIdx Option.isNone
      some (.tried 0
        { s with
          map := if isAdvertiser then r.2.modify slot markAsAdvertised else r.2
          nodeList := ⟨oName, groupTries, slot⟩ :: s.nodeList })
    else if r.1 = -EEXIST then
      match s.getNodeLocked oName groupTries with
      | none => some (.tried r.1 s)
      | some existing =>
        if s.isAdvertised existing.slot = false ∨ single = true ∨ isAdvertiser = false then
          some (.tried 0
            { s with
              map := if isAdvertiser then s.map.modify existing.slot markAsAdvertised else s.map })
        else some (.tried r.1 s)
    else some (.tried r.1 s)

/-- `nodepath[strlen(nodepath) - 1] = '0' + group_tries` -/
def setInstance (nodepath : List Char) (groupTries : Nat) : List Char :=
  nodepath.dropLast ++ [Char.ofNat ('0'.toNat + groupTries)]

/--
The loop over the instances, with `left` tries after this one: the return value, the last
instance tried, and the state.
-/
def advertiseLoop (alloc : Nat → Alloc) (oName : List Char) (isAdvertiser : Bool)
    (nodepath : List Char) : Nat → Nat → Orb → Option (Int × Nat × Orb)
  | left, groupTries, s => do
    let t ← advertiseTry oSize (alloc groupTries) oName isAdvertiser false groupTries
      (setInstance nodepath groupTries) s
    match t with
    | .noMemory => some (-ENOMEM, groupTries, s)
    | .tried ret s =>
      if ret = 0 then some (0, groupTries, s)
      else
        match left with
        | 0 => some (-ENOMEM, groupTries, s)
        | left + 1 => advertiseLoop alloc oName isAdvertiser nodepath left (groupTries + 1) s

/-- `uorb_device_master_advertise`: the return value, `*instance`, and the state. -/
def uorbDeviceMasterAdvertise (alloc : Nat → Alloc) (oName : List Char) (isAdvertiser : Bool)
    (inst : Option Nat) (s : Orb) : Option (Int × Option Nat × Orb) :=
  match uorbNodeMkpath oName inst with
  | none => some (-ENAMETOOLONG, inst, s)
  | some nodepath =>
    match inst with
    | none => do
      -- a topic without instances: one try, with the path as it is
      let t ← advertiseTry oSize (alloc 0) oName isAdvertiser isAdvertiser 0 nodepath s
      match t with
      | .noMemory => some (-ENOMEM, none, s)
      | .tried ret s => some (if ret = 0 then 0 else -ENOMEM, none, s)
    | some inst =>
      if inst ≥ ORB_MULTI_MAX_INSTANCES then some (-ENOMEM, some inst, s)
      else do
        let r ← advertiseLoop oSize alloc oName isAdvertiser nodepath
          (ORB_MULTI_MAX_INSTANCES - 1 - inst) inst s
        some (r.1, some r.2.1, r.2.2)

/-- The second half of `manager_node_open`, when there is no file descriptor yet. -/
def managerNodeAdvertise (alloc : Nat → Alloc) (mem : Bool) (oName : List Char) (advertiser : Bool)
    (inst : Option Nat) (s : Orb) : Option (Int × Option Nat × Orb) := do
  let r ← uorbDeviceMasterAdvertise oSize alloc oName advertiser inst s
  let s := r.2.2
  let inst := r.2.1
  -- it is taken to be OK if `errno` says that the node exists already
  if r.1 = 0 ∨ s.errno = EEXIST then
    match uorbNodeMkpath oName inst with
    | none => some (-1, inst, { s with errno := ENAMETOOLONG })
    | some path => do
      let o ← unodeOpen mem s.map path (if advertiser then wronly else rdonly)
      if o.1 < 0 then some (-1, inst, { s with map := o.2, errno := EIO })
      else some (o.1, inst, { s with map := o.2 })
  else some (-1, inst, { s with errno := EIO })

/-- `manager_node_open`: the file descriptor or -1, `*instance`, and the state. -/
def managerNodeOpen (alloc : Nat → Alloc) (mem : Bool) (oName : List Char) (advertiser : Bool)
    (inst : Option Nat) (s : Orb) : Option (Int × Option Nat × Orb) :=
  if inst.isNone ∨ advertiser = false then
    match uorbNodeMkpath oName inst with
    | none => some (-1, inst, s)
    | some path => do
      let o ← unodeOpen mem s.map path (if advertiser then wronly else rdonly)
      if o.1 < 0 then managerNodeAdvertise oSize alloc mem oName advertiser inst { s with map := o.2 }
      else some (o.1, inst, { s with map := o.2 })
  else managerNodeAdvertise oSize alloc mem oName advertiser (some 0) s

/--
The calls of `orb_manager_advertise_multi` on the node it has opened, in slot `fd`: the queue
size is set, the node closed, and the first data published. Without memory for the data the
call fails, and the instance stays advertised.
-/
def advertiseOpened (queueSize : Nat) (heap : Option (Memory UInt8)) (data : Option (Memory UInt8))
    (fd : Int) (s : Orb) : Option (Option Nat × Orb) :=
  match getUorbnode s.map fd with
  | none => none
  | some node => do
    let node := (uorbDeviceNodeUpdateQueueSize node queueSize).2
    let c ← uorbDeviceNodeClose node
    match data with
    | none => some (some fd.toNat, { s with map := s.map.put fd.toNat c.2 })
    | some data =>
      let p := uorbDeviceNodePublish heap c.2 data
      let s := { s with map := s.map.put fd.toNat p.2 }
      some (if p.1 = -1 then (none, { s with errno := ENOMEM }) else (some fd.toNat, s))

/--
`orb_manager_advertise_multi`: the advertiser's pointer to the node or NULL, `*instance`, and
the state.
-/
def orbManagerAdvertiseMulti (alloc : Nat → Alloc) (oName : List Char) (queueSize : Nat)
    (heap : Option (Memory UInt8)) (data : Option (Memory UInt8)) (inst : Option Nat) (s : Orb) :
    Option (Option Nat × Option Nat × Orb) := do
  let r ← managerNodeOpen oSize alloc true oName true inst s
  if r.1 = -1 then some (none, r.2.1, r.2.2)
  else do
    let a ← advertiseOpened queueSize heap data r.1 r.2.2
    some (a.1, r.2.1, a.2)

def orbManagerSubscribeMulti (alloc : Nat → Alloc) (mem : Bool) (oName : List Char) (inst : Nat)
    (s : Orb) : Option (Int × Orb) := do
  let r ← managerNodeOpen oSize alloc mem oName false (some inst) s
  some (r.1, r.2.2)

/-- `orb_manager_subscribe` without an instance, `orb_manager_subscribe_multi` with one. -/
def orbSubscribe (alloc : Nat → Alloc) (mem : Bool) (oName : List Char) (inst : Option Nat)
    (s : Orb) : Option (Int × Orb) := do
  let r ← managerNodeOpen oSize alloc mem oName false inst s
  some (r.1, r.2.2)

end Master

/-- `orb_manager_unadvertise`; the pointer is NULL or that of a node. -/
def orbManagerUnadvertise (handle : Option Nat) (s : Orb) : Option (Int × Orb) :=
  match handle with
  | none => some (-EINVAL, s)
  | some slot =>
    match getUorbnode s.map slot with
    | none => none
    | some node => some (0, { s with map := s.map.put slot { node with advertised := false } })

/-- `orb_manager_publish` through an advertiser's pointer, with the topic's own metadata. -/
def orbManagerPublish (heap : Option (Memory UInt8)) (handle : Nat) (data : Memory UInt8)
    (s : Orb) : Option (Int × Orb) :=
  match getUorbnode s.map handle with
  | none => none
  | some node =>
    let p := uorbDeviceNodePublish heap node data
    some (p.1, { s with map := s.map.put handle p.2 })

/-- The manager before any topic is used, with whatever `errno` holds. -/
def Orb.start (errno : Int) : Orb := { map := .empty, nodeList := [], errno }

end Gpmx.Uorb
