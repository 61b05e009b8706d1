import Gpmx.Uorb.DeviceNode

/-!
# uORB handles

`gpm/modules/uorb/uorb_gnode.c` and the subscriber side of `uorb_manager.c`. A handle is an
index into `node_map`, the table of all nodes. Opening looks a path up in the table and returns
the index it finds, so everybody who opens the same topic instance has the same handle, and the
node has one `_oflags` and one `_priv` for all of them.

A node is in the table from its creation on and never moves, so the table holds the nodes
themselves. The device master, which makes a missing node before the open is tried again, is
`registerUorbDriver` here.
-/

namespace Gpmx.Uorb

open Infra

def EEXIST : Int := 17
def ENOSPC : Int := 28

def nodemapLength : Nat := 128

structure NodeMap where
  slots : List (Option DeviceNode)
  length_eq : slots.length = nodemapLength

namespace NodeMap

def empty : NodeMap := ⟨List.replicate nodemapLength none, List.length_replicate⟩

/-- Put `node` into slot `i`. -/
def put (map : NodeMap) (i : Nat) (node : DeviceNode) : NodeMap :=
  ⟨map.slots.set i (some node), by rw [List.length_set]; exact map.length_eq⟩

end NodeMap

def isNamed (name : List Char) (slot : Option DeviceNode) : Bool :=
  slot.any fun node => decide (node.devname = name)

def registerUorbDriver (map : NodeMap) (node : DeviceNode) : Int × NodeMap :=
  if map.slots.any (isNamed node.devname) then (-EEXIST, map)
  else if map.slots.findIdx Option.isNone = nodemapLength then (-ENOSPC, map)
  else (0, map.put (map.slots.findIdx Option.isNone) node)

def getUorbnode (map : NodeMap) (fd : Int) : Option DeviceNode :=
  if fd < nodemapLength ∧ fd ≥ 0 then (map.slots[fd.toNat]?).join else none

/-- `get_uorbnodefd`: the first index with the name, or the length of the table. -/
def getUorbnodefd (map : NodeMap) (name : List Char) : Nat := map.slots.findIdx (isNamed name)

def unodeOpen (mem : Bool) (map : NodeMap) (path : List Char) (flags : Nat) :
    Option (Int × NodeMap) :=
  let i := getUorbnodefd map path
  if i = nodemapLength then some (-1, map)
  else
    match getUorbnode map i with
    | none => some (-1, map)
    | some node => do
      let r ← uorbDeviceNodeOpen mem { node with oflags := flags }
      some (if r.1 < 0 then -1 else (i : Int), map.put i r.2)

def unodeClose (map : NodeMap) (fd : Int) : Option (Int × NodeMap) :=
  match getUorbnode map fd with
  | none => some (-1, map)
  | some node => do
    let r ← uorbDeviceNodeClose node
    some (if r.1 < 0 then -1 else r.1, map.put fd.toNat r.2)

/-- `unode_read` on behalf of `orb_manager_copy`: the return value and the bytes copied. -/
def orbManagerCopy (now : Nat) (map : NodeMap) (oSize : Nat) (handle : Int) :
    Option ((Int × List UInt8) × NodeMap) :=
  match getUorbnode map handle with
  | none => some ((-1, []), map)
  | some node => do
    let r ← uorbDeviceNodeRead now node oSize
    some ((if r.ret < 0 then -1 else if r.ret ≠ oSize then -1 else 0, r.bytes),
      map.put handle.toNat r.node)

def orbManagerCheck (now : Nat) (map : NodeMap) (handle : Int) : Option (Int × Bool) :=
  match getUorbnode map handle with
  | none => some (-EINVAL, false)
  | some node => (uorbDeviceNodeAppearsUpdated now node).map fun updated => (0, updated)

/-- `orb_manager_set_interval`; the product is an `unsigned`. -/
def orbManagerSetInterval (fresh : Option Nat) (map : NodeMap) (handle : Int) (interval : Nat) :
    Option (Int × NodeMap) :=
  match getUorbnode map handle with
  | none => some (-EINVAL, map)
  | some node => do
    let r ← ioctlSetInterval fresh node (interval * 1000 % 2 ^ 32)
    some (r.1, map.put handle.toNat r.2)

/-- `orb_manager_get_interval`; without a node nothing is stored before the division. -/
def orbManagerGetInterval (map : NodeMap) (handle : Int) : Option (Int × Option Nat) :=
  match getUorbnode map handle with
  | none => some (-EINVAL, none)
  | some node => (ioctlGetInterval node).map fun interval => (0, some (interval / 1000))

def orbManagerUnsubscribe (map : NodeMap) (fd : Int) : Option (Int × NodeMap) := unodeClose map fd

/-- `orb_manager_subscribe` on a topic instance that has its node. -/
def orbManagerSubscribe (mem : Bool) (map : NodeMap) (path : List Char) : Option (Int × NodeMap) :=
  unodeOpen mem map path rdonly

end Gpmx.Uorb
