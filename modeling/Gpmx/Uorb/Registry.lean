import Gpmx.Container.AtomicBitset
import Gpmx.Uorb.Instances
import Mathlib

/-!
# uORB: where the device master keeps its nodes

A node of the master is in three places: `_node_list`, which is sorted by the paths, `node_map`
under its path, and the bit set `_node_exists` of its instance, which lookups read first. This is
`uorb_device_master_advertise` of `gpm/modules/uorb/uorb_device_master.c` with all three, and the
calls of `uorb_manager.c` on top of it. Others register nodes in `node_map` too, and take them out.

The table of the topics is generated from the message files; what the code relies on is in `Topics`.
-/

namespace Gpmx.Uorb

open Infra Container

/--
`uorb_topics.h`: the names of the topics, each with its place as its `enum ORB_ID`, and
`ORB_TOPICS_COUNT`. The metadata keeps the id in a byte.
-/
structure Topics where
  names : List (List Char)
  nodup : names.Nodup
  count : Nat
  length_le : names.length ≤ count
  fits : names.length < 2 ^ 8

/-- An `enum ORB_ID` that is a topic's, not `ORB_ID_INVALID`. -/
abbrev Topics.Id (topics : Topics) := Fin topics.names.length

variable {topics : Topics}

def Topics.oName (topics : Topics) (id : topics.Id) : List Char := topics.names[id]

/-- The bit of a topic, `(uint8_t)id`. -/
def Topics.oId (topics : Topics) (id : topics.Id) : Fin topics.count :=
  ⟨id % 2 ^ 8, Nat.lt_of_le_of_lt (Nat.mod_le _ _) (Nat.lt_of_lt_of_le id.isLt topics.length_le)⟩

/-- `struct __uorb_device_master`, with `node_map` and `errno`. -/
structure Registry (topics : Topics) extends Orb where
  nodeExists : Vector (AtomicBitset topics.count) ORB_MULTI_MAX_INSTANCES

/-- The `_devname` of a node of the master. -/
def Listed.devname (n : Listed) : List Char := nodePath n.oName n.inst

def uorbDeviceCmpMethod (a b : Listed) : Prop := a.devname ≤ b.devname

instance : DecidableRel uorbDeviceCmpMethod := fun a b =>
  inferInstanceAs (Decidable (a.devname ≤ b.devname))

/-- `intrusive_sorted_list_add`: the node comes before the first one that `cmpf` puts it before. -/
def intrusiveSortedListAdd {α : Type} (cmpf : α → α → Prop) [DecidableRel cmpf] (l : List α)
    (newNode : α) : List α := l.orderedInsert cmpf newNode

def unregisterUorbDriver (map : NodeMap) (name : List Char) : Int × NodeMap :=
  if getUorbnodefd map name = nodemapLength then (-EINVAL, map)
  else
    (0, ⟨map.slots.set (getUorbnodefd map name) none,
      by rw [List.length_set]; exact map.length_eq⟩)

namespace Registry

/-- `uorb_device_master_init` -/
def start (errno : Int) : Registry topics :=
  { Orb.start errno with nodeExists := Vector.replicate _ (.init _) }

/-- `uorb_device_master_node_exists`; `ORB_ID_INVALID` is `none`. -/
def uorbDeviceMasterNodeExists (r : Registry topics) (id : Option topics.Id) (inst : Nat) : Bool :=
  match id with
  | none => false
  | some id =>
    if h : inst < ORB_MULTI_MAX_INSTANCES then r.nodeExists[inst].test (topics.oId id) else false

/-- `uorb_device_master_get_node2` for the metadata of a topic. -/
def uorbDeviceMasterGetNode2 (r : Registry topics) (id : topics.Id) (inst : Nat) : Option Listed :=
  if r.uorbDeviceMasterNodeExists (some id) inst then r.getNodeLocked (topics.oName id) inst
  else none

/-- `node_bits_set(&master->_node_exists[inst], id, true)` -/
def setNodeExists (r : Registry topics) (inst : Nat) (id : topics.Id) : Option (Registry topics) :=
  if h : inst < ORB_MULTI_MAX_INSTANCES then
    some { r with
      nodeExists := r.nodeExists.set inst (r.nodeExists[inst].set (topics.oId id) true) }
  else none

/-- The outcome of one turn of the loop of `uorb_device_master_advertise`. -/
inductive Turn (topics : Topics) where
  | noMemory
  | tried (ret : Int) (r : Registry topics)

section Master

variable (oSize : List Char → Nat)

/-- One turn of the loop. `uorb_device_node_init` writes to a node that was not allocated. -/
def advertiseTry (alloc : Alloc) (id : topics.Id) (isAdvertiser single : Bool) (groupTries : Nat)
    (devpath : List Char) (r : Registry topics) : Option (Turn topics) :=
  match alloc with
  | .noPath => some .noMemory
  | .noNode => none
  | .ok =>
    let reg := registerUorbDriver r.map (uorbDeviceNodeInit devpath (oSize (topics.oName id)) 1)
    if reg.1 = 0 then do
      let slot := r.map.slots.findIdx Option.isNone
      let r : Registry topics :=
        { r with
          map := if isAdvertiser then reg.2.modify slot markAsAdvertised else reg.2
          nodeList := intrusiveSortedListAdd uorbDeviceCmpMethod r.nodeList
            ⟨topics.oName id, groupTries, slot⟩ }
      let r ← r.setNodeExists groupTries id
      some (.tried 0 r)
    else if reg.1 = -EEXIST then
      match r.getNodeLocked (topics.oName id) groupTries with
      | none => some (.tried reg.1 r)
      | some existing =>
        if r.isAdvertised existing.slot = false ∨ single = true ∨ isAdvertiser = false then
          some (.tried 0
            { r with
              map := if isAdvertiser then r.map.modify existing.slot markAsAdvertised else r.map })
        else some (.tried reg.1 r)
    else some (.tried reg.1 r)

/--
The loop over the instances, with `left` tries after this one: the return value, the last
instance tried, and the state.
-/
def advertiseLoop (alloc : Nat → Alloc) (id : topics.Id) (isAdvertiser : Bool)
    (nodepath : List Char) : Nat → Nat → Registry topics → Option (Int × Nat × Registry topics)
  | left, groupTries, r => do
    let t ← advertiseTry oSize (alloc groupTries) id isAdvertiser false groupTries
      (setInstance nodepath groupTries) r
    match t with
    | .noMemory => some (-ENOMEM, groupTries, r)
    | .tried ret r =>
      if ret = 0 then some (0, groupTries, r)
      else
        match left with
        | 0 => some (-ENOMEM, groupTries, r)
        | left + 1 => advertiseLoop alloc id isAdvertiser nodepath left (groupTries + 1) r

/-- `uorb_device_master_advertise`: the return value, `*instance`, and the state. -/
def uorbDeviceMasterAdvertise (alloc : Nat → Alloc) (id : topics.Id) (isAdvertiser : Bool)
    (inst : Option Nat) (r : Registry topics) : Option (Int × Option Nat × Registry topics) :=
  match uorbNodeMkpath (topics.oName id) inst with
  | none => some (-ENAMETOOLONG, inst, r)
  | some nodepath =>
    match inst with
    | none => do
      -- a topic without instances: one try, with the path as it is
      let t ← advertiseTry oSize (alloc 0) id isAdvertiser isAdvertiser 0 nodepath r
      match t with
      | .noMemory => some (-ENOMEM, none, r)
      | .tried ret r => some (if ret = 0 then 0 else -ENOMEM, none, r)
    | some inst =>
      if inst ≥ ORB_MULTI_MAX_INSTANCES then some (-ENOMEM, some inst, r)
      else do
        let res ← advertiseLoop oSize alloc id isAdvertiser nodepath
          (ORB_MULTI_MAX_INSTANCES - 1 - inst) inst r
        some (res.1, some res.2.1, res.2.2)

/-- The second half of `manager_node_open`, when there is no file descriptor yet. -/
def managerNodeAdvertise (alloc : Nat → Alloc) (mem : Bool) (id : topics.Id) (advertiser : Bool)
    (inst : Option Nat) (r : Registry topics) : Option (Int × Option Nat × Registry topics) := do
  let res ← uorbDeviceMasterAdvertise oSize alloc id advertiser inst r
  let r := res.2.2
  let inst := res.2.1
  if res.1 = 0 ∨ r.errno = EEXIST then
    match uorbNodeMkpath (topics.oName id) inst with
    | none => some (-1, inst, { r with errno := ENAMETOOLONG })
    | some path => do
      let o ← unodeOpen mem r.map path (if advertiser then wronly else rdonly)
      if o.1 < 0 then some (-1, inst, { r with map := o.2, errno := EIO })
      else some (o.1, inst, { r with map := o.2 })
  else some (-1, inst, { r with errno := EIO })

/-- `manager_node_open`: the file descriptor or -1, `*instance`, and the state. -/
def managerNodeOpen (alloc : Nat → Alloc) (mem : Bool) (id : topics.Id) (advertiser : Bool)
    (inst : Option Nat) (r : Registry topics) : Option (Int × Option Nat × Registry topics) :=
  if inst.isNone ∨ advertiser = false then
    match uorbNodeMkpath (topics.oName id) inst with
    | none => some (-1, inst, r)
    | some path => do
      let o ← unodeOpen mem r.map path (if advertiser then wronly else rdonly)
      if o.1 < 0 then managerNodeAdvertise oSize alloc mem id advertiser inst { r with map := o.2 }
      else some (o.1, inst, { r with map := o.2 })
  else managerNodeAdvertise oSize alloc mem id advertiser (some 0) r

/-- `orb_manager_advertise_multi`: the advertiser's pointer or NULL, `*instance`, and the state. -/
def orbManagerAdvertiseMulti (alloc : Nat → Alloc) (id : topics.Id) (queueSize : Nat)
    (heap : Option (Memory UInt8)) (data : Option (Memory UInt8)) (inst : Option Nat)
    (r : Registry topics) : Option (Option Nat × Option Nat × Registry topics) := do
  let o ← managerNodeOpen oSize alloc true id true inst r
  if o.1 = -1 then some (none, o.2.1, o.2.2)
  else do
    let a ← advertiseOpened queueSize heap data o.1 o.2.2.toOrb
    some (a.1, o.2.1, { o.2.2 with toOrb := a.2 })

/-- `orb_manager_subscribe` without an instance, `orb_manager_subscribe_multi` with one. -/
def orbSubscribe (alloc : Nat → Alloc) (mem : Bool) (id : topics.Id) (inst : Option Nat)
    (r : Registry topics) : Option (Int × Registry topics) := do
  let o ← managerNodeOpen oSize alloc mem id false inst r
  some (o.1, o.2.2)

end Master

/-! ## Runs -/

/-- The calls. `register` and `unregister` are of nodes that are not the master's. -/
inductive Call (topics : Topics) where
  | advertise (alloc : Nat → Alloc) (id : topics.Id) (isAdvertiser : Bool) (inst : Option Nat)
  | advertiseMulti (alloc : Nat → Alloc) (id : topics.Id) (queueSize : Nat)
      (heap data : Option (Memory UInt8)) (inst : Option Nat)
  | subscribe (alloc : Nat → Alloc) (mem : Bool) (id : topics.Id) (inst : Option Nat)
  | unsubscribe (fd : Int)
  | unadvertise (handle : Option Nat)
  | publish (heap : Option (Memory UInt8)) (handle : Nat) (data : Memory UInt8)
  | register (node : DeviceNode)
  | unregister (name : List Char)

def step (oSize : List Char → Nat) (r : Registry topics) : Call topics → Option (Registry topics)
  | .advertise alloc id isAdvertiser inst =>
    (uorbDeviceMasterAdvertise oSize alloc id isAdvertiser inst r).map fun res => res.2.2
  | .advertiseMulti alloc id queueSize heap data inst =>
    (orbManagerAdvertiseMulti oSize alloc id queueSize heap data inst r).map fun res => res.2.2
  | .subscribe alloc mem id inst => (orbSubscribe oSize alloc mem id inst r).map Prod.snd
  | .unsubscribe fd => (unodeClose r.map fd).map fun res => { r with map := res.2 }
  | .unadvertise handle =>
    (orbManagerUnadvertise handle r.toOrb).map fun res => { r with toOrb := res.2 }
  | .publish heap handle data =>
    (orbManagerPublish heap handle data r.toOrb).map fun res => { r with toOrb := res.2 }
  | .register node => some { r with map := (registerUorbDriver r.map node).2 }
  | .unregister name => some { r with map := (unregisterUorbDriver r.map name).2 }

end Registry

end Gpmx.Uorb
