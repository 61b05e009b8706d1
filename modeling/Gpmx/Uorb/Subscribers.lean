import Gpmx.Uorb.InstanceRuns
import Mathlib

/-!
# uORB: counting the subscribers of a node

`_subscriber_count` is raised by `uorb_device_node_open` and `add_internal_subscriber`, and
lowered by `uorb_device_node_close` and `remove_internal_subscriber`. Whether a close lowers it,
and frees a record, is read from `_oflags` and `_priv` of the node. These hold what the last open
of the node has left there, be it an advertiser's or another subscriber's.

The accounts have the open subscriptions, whose record `_priv` points to, and whose records have
been freed; the program has none of these.
-/

namespace Gpmx.Uorb

open Infra Function Option List

/-! ## Opening, whatever happens -/

section Opening

variable {oSize : List Char → Nat} {oName : List Char} {s : Orb}

variable {alloc : Nat → Alloc} {adv : Bool} {g : Nat} {r : Int × Option Nat × Orb} {mem : Bool}
    {inst : Option Nat} {oName : List Char} {sub : Nat × Nat}

theorem loop_any (hs : s.Sound) {nodepath : List Char}
    (hpath : ∀ j < ORB_MULTI_MAX_INSTANCES, setInstance nodepath j = nodePath oName j) {left : Nat}
    (hg : g + left + 1 = ORB_MULTI_MAX_INSTANCES) {r : Int × Nat × Orb}
    (h : advertiseLoop oSize alloc oName adv nodepath left g s = some r) :
    r.2.1 < ORB_MULTI_MAX_INSTANCES ∧
      (r.1 ≠ 0 ∧ r.2.2 = s ∨ r.1 = 0 ∧ Given oSize s oName r.2.1 adv r.2.2) := by
  have hmem : -ENOMEM ≠ 0 := by decide
  obtain ⟨f, -, hf, -, hend⟩ := loop_stops hs hpath left g hg h
  rcases hend with ⟨-, rfl⟩ | ⟨s', ht, rfl⟩ | ⟨-, -, rfl⟩
  · exact ⟨hf, .inl ⟨hmem, rfl⟩⟩
  · refine ⟨hf, .inr ⟨rfl, ?_⟩⟩
    rcases try_cases hs hf ht with ⟨-, hne⟩ | ⟨-, -, ret, hret, hne⟩ | ⟨-, -, -, ret, hret, hne⟩ |
      ⟨-, -, t, hgiven, he⟩
    · cases hne
    · cases hne
      exact absurd rfl hret
    · cases hne
      exact absurd rfl hret
    · cases he
      exact hgiven
  · exact ⟨hf, .inl ⟨hmem, rfl⟩⟩

/-- `manager_node_open` has opened a node of the topic, which it may have made. -/
def OpenedSome (oSize : List Char → Nat) (s : Orb) (mem : Bool) (oName : List Char) (adv : Bool)
    (r : Int × Option Nat × Orb) : Prop :=
  ∃ g s' slot node node',
    (s' = s ∨ g < ORB_MULTI_MAX_INSTANCES ∧ Given oSize s oName g adv s') ∧
    lookup s'.map (nodePath oName g) = some (slot, node) ∧
    uorbDeviceNodeOpen mem { node with oflags := openFlags adv } = some (0, node') ∧
    r.1 = (slot : Nat) ∧ r.2.2 = s'.put slot node'

theorem OpenedAt.some (h : OpenedAt oSize s mem oName adv inst r) :
    OpenedSome oSize s mem oName adv r := by
  obtain ⟨s', slot, node, node', hs', hlook, hopen, rfl⟩ := h
  exact ⟨_, s', slot, node, node', hs', hlook, hopen, rfl, rfl⟩

theorem master_any (hs : s.Sound) {i : Nat}
    (h : uorbDeviceMasterAdvertise oSize alloc oName adv (some i) s = some r) :
    ∃ g, r.2.1 = some g ∧ (r.1 ≠ 0 ∧ r.2.2 = s ∨
      r.1 = 0 ∧ (uorbNodeMkpath oName (some g)).isSome ∧ g < ORB_MULTI_MAX_INSTANCES ∧
        Given oSize s oName g adv r.2.2) := by
  unfold uorbDeviceMasterAdvertise at h
  cases hfits : uorbNodeMkpath oName (some i) with
  | none =>
    rw [hfits] at h
    cases h
    exact ⟨i, rfl, .inl ⟨show -ENAMETOOLONG ≠ 0 by decide, rfl⟩⟩
  | some p =>
    rw [hfits] at h
    simp only at h
    split at h
    · cases h
      exact ⟨i, rfl, .inl ⟨show -ENOMEM ≠ 0 by decide, rfl⟩⟩
    · rename_i hi
      have hi : i < ORB_MULTI_MAX_INSTANCES := Nat.lt_of_not_le hi
      have hi10 : i < 10 := Nat.lt_trans hi (by decide)
      have hpath : ∀ j < ORB_MULTI_MAX_INSTANCES, setInstance p j = nodePath oName j := by
        intro j hj
        rw [(mkpath_some hfits).1, getD_some]
        exact setInstance_nodePath hi10 (Nat.lt_trans hj (by decide))
      obtain ⟨l, hl, h⟩ := bind_eq_some_iff.mp h
      cases h
      have hstart : i + (ORB_MULTI_MAX_INSTANCES - 1 - i) + 1 = ORB_MULTI_MAX_INSTANCES := by omega
      obtain ⟨hg, hcases⟩ := loop_any hs hpath hstart hl
      refine ⟨l.2.1, rfl, hcases.imp_right fun ⟨hret, hgiven⟩ => ⟨hret, ?_, hg, hgiven⟩⟩
      rw [(mkpath_eq hi10 (Nat.lt_trans hg (by decide)) hfits).2]
      rfl

theorem managerAdvertise_any (hs : s.Sound) {i : Nat}
    (h : managerNodeAdvertise oSize alloc mem oName adv (some i) s = some r) :
    (r.1 = -1 ∧ ∃ e, r.2.2 = { s with errno := e }) ∨ OpenedSome oSize s mem oName adv r := by
  obtain ⟨m, hm, h⟩ := bind_eq_some_iff.mp h
  obtain ⟨g, hinst, hcases⟩ := master_any hs hm
  simp only [hinst] at h
  rcases hcases with ⟨hret, hsame⟩ | ⟨hret, hfits, hg, hgiven⟩
  · simp only [hret, false_or, hsame] at h
    split at h
    · cases hfits : uorbNodeMkpath oName (some g) with
      | none =>
        rw [hfits] at h
        cases h
        exact .inl ⟨rfl, _, rfl⟩
      | some p =>
        rw [hfits] at h
        obtain ⟨o, ho, h⟩ := bind_eq_some_iff.mp h
        rw [(mkpath_some hfits).1, getD_some] at ho
        cases hlook : lookup s.map (nodePath oName g) with
        | none =>
          rw [unodeOpen_missing hlook] at ho
          cases ho
          rw [if_pos (show (-1 : Int) < 0 by decide)] at h
          cases h
          exact .inl ⟨rfl, _, rfl⟩
        | some found =>
          obtain ⟨slot, node⟩ := found
          obtain ⟨node', hopen, rfl⟩ := unodeOpen_ok hlook ho
          have hpos : ¬((slot : Int) < 0) := by omega
          rw [if_neg hpos] at h
          cases h
          exact .inr ⟨g, s, slot, node, node', .inl rfl, hlook, hopen, rfl, rfl⟩
    · cases h
      exact .inl ⟨rfl, _, rfl⟩
  · obtain ⟨p, hfits⟩ := isSome_iff_exists.mp hfits
    simp only [hret, true_or, if_true, hfits] at h
    obtain ⟨o, ho, h⟩ := bind_eq_some_iff.mp h
    rw [(mkpath_some hfits).1, getD_some] at ho
    obtain ⟨⟨slot, node⟩, hlook⟩ := hgiven.lookup_self hs
    obtain ⟨node', hopen, rfl⟩ := unodeOpen_ok hlook ho
    have hpos : ¬((slot : Int) < 0) := by omega
    rw [if_neg hpos] at h
    cases h
    exact .inr ⟨g, m.2.2, slot, node, node', .inr ⟨hg, hgiven⟩, hlook, hopen, rfl, rfl⟩

/-- **`manager_node_open` changes nothing but `errno`, or opens a node of the topic.** -/
theorem managerOpen_any (hs : s.Sound)
    (h : managerNodeOpen oSize alloc mem oName adv inst s = some r) :
    (r.1 = -1 ∧ ∃ e, r.2.2 = { s with errno := e }) ∨ OpenedSome oSize s mem oName adv r := by
  cases inst with
  | none =>
    refine (openPlain_cases hs (.inl rfl) (by simp) h).imp_right OpenedAt.some
  | some i =>
    cases adv with
    | true => exact managerAdvertise_any hs h
    | false =>
      simp only [managerNodeOpen, or_true, if_true] at h
      cases hfits : uorbNodeMkpath oName (some i) with
      | none =>
        rw [hfits] at h
        cases h
        exact .inl ⟨rfl, _, rfl⟩
      | some p =>
        rw [hfits] at h
        obtain ⟨o, ho, h⟩ := bind_eq_some_iff.mp h
        rw [(mkpath_some hfits).1, getD_some] at ho
        cases hlook : lookup s.map (nodePath oName i) with
        | none =>
          rw [unodeOpen_missing hlook] at ho
          cases ho
          rw [if_pos (show (-1 : Int) < 0 by decide)] at h
          exact managerAdvertise_any hs h
        | some found =>
          obtain ⟨slot, node⟩ := found
          obtain ⟨node', hopen, rfl⟩ := unodeOpen_ok hlook ho
          have hpos : ¬((slot : Int) < 0) := by omega
          rw [if_neg hpos] at h
          cases h
          exact .inr ⟨i, s, slot, node, node', .inl rfl, hlook, hopen, rfl, rfl⟩

end Opening

/-! ## The accounts -/

def addInternalSubscriber (node : DeviceNode) : DeviceNode :=
  { node with subscriberCount := toInt8 (node.subscriberCount + 1) }

def removeInternalSubscriber (node : DeviceNode) : DeviceNode :=
  { node with subscriberCount := toInt8 (node.subscriberCount - 1) }

structure Accounts where
  orb : Orb
  /-- the open subscriptions, each with its number and its slot -/
  subs : List (Nat × Nat)
  /-- how many internal subscribers a slot has -/
  internal : Nat → Nat
  /-- the subscription whose record `_priv` of a slot points to -/
  owner : Nat → Option Nat
  /-- the number of the next subscription -/
  next : Nat
  /-- the subscriptions whose records have been freed, once for each time -/
  released : List Nat

inductive Entry where
  | advertise (alloc : Nat → Alloc) (oName : List Char) (queueSize : Nat)
      (heap data : Option (Memory UInt8)) (inst : Option Nat)
  | unadvertise (handle : Option Nat)
  | subscribe (alloc : Nat → Alloc) (mem : Bool) (oName : List Char) (inst : Option Nat)
  | unsubscribe (id : Nat)
  | addInternal (slot : Nat)
  | removeInternal (slot : Nat)
  | setErrno (errno : Int)

namespace Accounts

def alive (a : Accounts) (slot : Nat) : Nat :=
  a.subs.countP (fun sub => sub.2 = slot) + a.internal slot

/-- The accounts after a call of `orb_subscribe`. -/
def opened (a : Accounts) (r : Int × Orb) : Accounts :=
  if r.1 < 0 then { a with orb := r.2 }
  else
    { a with
      orb := r.2
      subs := (a.next, r.1.toNat) :: a.subs
      owner := update a.owner r.1.toNat (some a.next)
      next := a.next + 1 }

/-- `uorb_device_node_close` frees the record that `_priv` points to. -/
def closeFrees (node : DeviceNode) : Bool :=
  decide (node.oflags = rdonly) && (match node.priv with | .live _ => true | _ => false)

/-- The accounts after `orb_unsubscribe` of a subscription has left `map`. -/
def closed (a : Accounts) (sub : Nat × Nat) (map : NodeMap) : Accounts :=
  let frees := (getUorbnode a.orb.map sub.2).any closeFrees
  { a with
    orb := { a.orb with map }
    subs := a.subs.erase sub
    owner := if frees then update a.owner sub.2 none else a.owner
    released := if frees then (a.owner sub.2).toList ++ a.released else a.released }

/-- The accounts after a call; a handle that is not open is not closed. -/
def step (oSize : List Char → Nat) (a : Accounts) : Entry → Option Accounts
  | .advertise alloc oName queueSize heap data inst =>
    (orbManagerAdvertiseMulti oSize alloc oName queueSize heap data inst a.orb).map fun r =>
      { a with orb := r.2.2 }
  | .unadvertise handle =>
    (orbManagerUnadvertise handle a.orb).map fun r => { a with orb := r.2 }
  | .subscribe alloc mem oName inst => (orbSubscribe oSize alloc mem oName inst a.orb).map a.opened
  | .unsubscribe id => do
    let sub ← a.subs.find? fun sub => sub.1 = id
    let r ← orbManagerUnsubscribe a.orb.map sub.2
    some (a.closed sub r.2)
  | .addInternal slot => do
    let node ← getUorbnode a.orb.map slot
    some
      { a with
        orb := a.orb.put slot (addInternalSubscriber node)
        internal := update a.internal slot (a.internal slot + 1) }
  | .removeInternal slot =>
    if a.internal slot = 0 then none
    else do
      let node ← getUorbnode a.orb.map slot
      some
        { a with
          orb := a.orb.put slot (removeInternalSubscriber node)
          internal := update a.internal slot (a.internal slot - 1) }
  | .setErrno errno => some { a with orb := { a.orb with errno } }

def start (errno : Int) : Accounts :=
  { orb := .start errno, subs := [], internal := fun _ => 0, owner := fun _ => none, next := 0,
    released := [] }

/--
The calls that keep the accounts.

* A subscriber is added to a node that has fewer than 127. For a missing node that cannot be made,
  `orb_subscribe_multi` may come to any instance of the topic.
* A subscription is closed when the last open of its node was its own.
-/
def Own (a : Accounts) : Entry → Prop
  | .subscribe _ _ oName inst =>
    ∀ g r, (g = inst.getD 0 ∨ inst.isSome ∧ ¬a.orb.CanHave oName (inst.getD 0)) →
      lookup a.orb.map (nodePath oName g) = some r → r.2.subscriberCount < 127
  | .unsubscribe id =>
    ∀ sub ∈ a.subs, sub.1 = id → a.owner sub.2 = some id ∧
      ∀ node, getUorbnode a.orb.map sub.2 = some node → node.oflags = rdonly
  | .addInternal slot =>
    ∀ node, getUorbnode a.orb.map slot = some node → node.subscriberCount < 127
  | _ => True

end Accounts

/-! ## The count and the record of a slot -/

section Slots

variable {map : NodeMap} {i j : Nat} {node old : DeviceNode}

theorem getUorbnode_nat (map : NodeMap) (j : Nat) : getUorbnode map j = (map.slots[j]?).join := by
  unfold getUorbnode
  by_cases hj : j < nodemapLength
  · rw [if_pos ⟨by omega, by omega⟩, Int.toNat_natCast]
  · rw [if_neg (by omega), getElem?_eq_none (by rw [map.length_eq]; omega)]
    rfl

theorem getUorbnode_put (hi : i < nodemapLength) :
    getUorbnode (map.put i node) j = if j = i then some node else getUorbnode map j := by
  rw [getUorbnode_nat, getUorbnode_nat]
  show ((map.slots.set i (some node))[j]?).join = _
  rw [getElem?_set]
  by_cases hij : i = j
  · subst hij
    simp [map.length_eq, hi]
  · simp [hij, Ne.symm hij]

def stateAt (map : NodeMap) (slot : Nat) : Int × Priv :=
  match getUorbnode map slot with
  | none => (0, .null)
  | some node => (node.subscriberCount, node.priv)

theorem stateAt_of_node (h : getUorbnode map i = some node) :
    stateAt map i = (node.subscriberCount, node.priv) := by
  unfold stateAt
  rw [h]

theorem stateAt_put (hi : i < nodemapLength) :
    stateAt (map.put i node) j
      = if j = i then (node.subscriberCount, node.priv) else stateAt map j := by
  unfold stateAt
  rw [getUorbnode_put hi]
  by_cases hj : j = i <;> simp [hj]

theorem lt_of_slot {o : Option DeviceNode} (h : map.slots[i]? = some o) : i < nodemapLength := by
  obtain ⟨hlt, -⟩ := List.getElem?_eq_some_iff.mp h
  rwa [map.length_eq] at hlt

structure Orb.Keeps (s s' : Orb) : Prop where
  sound : s'.Sound
  same : ∀ slot, stateAt s'.map slot = stateAt s.map slot

theorem Orb.Keeps.trans {s s' s'' : Orb} (h : s.Keeps s') (h' : s'.Keeps s'') : s.Keeps s'' :=
  ⟨h'.sound, fun slot => (h'.same slot).trans (h.same slot)⟩

theorem Orb.Sound.keeps_errno {s : Orb} (h : s.Sound) (e : Int) : s.Keeps { s with errno := e } :=
  ⟨⟨h.tidy, h.listed⟩, fun _ => rfl⟩

theorem Orb.Sound.keeps_put {s : Orb} (h : s.Sound) (hslot : s.map.slots[i]? = some (some old))
    (hname : node.devname = old.devname) (hcount : node.subscriberCount = old.subscriberCount)
    (hpriv : node.priv = old.priv) : s.Keeps (s.put i node) := by
  refine ⟨h.put hslot hname, fun slot => ?_⟩
  show stateAt (s.map.put i node) slot = _
  rw [stateAt_put (lt_of_slot hslot)]
  split
  · rename_i hi
    rw [hi, stateAt_of_node (getUorbnode_natCast hslot), hcount, hpriv]
  · rfl

theorem Orb.Keeps.put {s s' : Orb} (h : s.Keeps s') (hslot : s'.map.slots[i]? = some (some old))
    (hname : node.devname = old.devname) (hcount : node.subscriberCount = old.subscriberCount)
    (hpriv : node.priv = old.priv) (e : Int) : s.Keeps { s'.put i node with errno := e } := by
  have hput := h.sound.keeps_put hslot hname hcount hpriv
  exact (h.trans hput).trans (hput.sound.keeps_errno e)

theorem Given.keeps {oSize : List Char → Nat} {s s' : Orb} (hs : s.Sound)
    (hg : g < ORB_MULTI_MAX_INSTANCES) (h : Given oSize s oName g adv s') : s.Keeps s' := by
  cases h with
  | claimed hsome => exact hs.keeps_put (lookup_eq_some.mp hsome).2 rfl rfl rfl
  | made hnone hroom =>
    refine ⟨hs.create hg hnone hroom, fun slot => ?_⟩
    have hslot := freeSlot_empty hroom
    show stateAt (s.map.put s.map.freeSlot _) slot = _
    rw [stateAt_put (lt_of_slot hslot)]
    split
    · rename_i hi
      unfold stateAt
      rw [hi, getUorbnode_nat, hslot]
      rfl
    · rfl

variable {oSize : List Char → Nat} {s : Orb}

/-- **Advertising does not touch the counts and the records.** -/
theorem advertise_keeps (hs : s.Sound) {queueSize : Nat} {heap data : Option (Memory UInt8)}
    {r : Option Nat × Option Nat × Orb}
    (h : orbManagerAdvertiseMulti oSize alloc oName queueSize heap data inst s = some r) :
    s.Keeps r.2.2 := by
  obtain ⟨o, ho, h⟩ := bind_eq_some_iff.mp h
  rcases managerOpen_any hs ho with ⟨hret, e, he⟩ | ⟨g, s', slot, node, node', hs', hlook, hopen, hret, hput⟩
  · rw [if_pos hret] at h
    rw [← some.inj h, he]
    exact hs.keeps_errno e
  · have hkeeps : s.Keeps s' := by
      rcases hs' with rfl | ⟨hg, hgiven⟩
      · exact ⟨hs, fun _ => rfl⟩
      · exact hgiven.keeps hs hg
    have hopened : node' = node.opened := (congrArg Prod.snd (some.inj hopen)).symm
    subst hopened
    have hslot := (lookup_eq_some.mp hlook).2
    have hkeeps : s.Keeps (s'.put slot node.opened) :=
      hkeeps.trans (hkeeps.sound.keeps_put hslot rfl rfl rfl)
    rw [if_neg (by rw [hret]; omega), hret, hput] at h
    obtain ⟨a, ha, h⟩ := bind_eq_some_iff.mp h
    cases h
    have hslot' : (s'.put slot node.opened).map.slots[slot]? = some (some node.opened) :=
      getElem?_put hslot
    obtain ⟨q, hframe⟩ := resize_frame node.opened queueSize
    obtain ⟨e, hcases⟩ := advertiseOpened_cases hslot' rfl hframe ha
    rcases hcases with ⟨-, rfl⟩ | ⟨d, -, p, rfl, hs, -⟩
    · exact hkeeps.put hslot' (by rfl) (by rfl) (by rfl) e
    · obtain ⟨generation, ring, hpub⟩ := publish_frame heap { node.opened with queueSize := q } d
      rw [hs]
      exact hkeeps.put hslot' (by rw [hpub]) (by rw [hpub]) (by rw [hpub]) e

theorem unadvertise_keeps (hs : s.Sound) {handle : Option Nat} {r : Int × Orb}
    (h : orbManagerUnadvertise handle s = some r) : s.Keeps r.2 := by
  cases handle with
  | none =>
    have horb : r.2 = s := (congrArg Prod.snd (some.inj h)).symm
    rw [horb]
    exact ⟨hs, fun _ => rfl⟩
  | some slot =>
    obtain ⟨node, hslot, rfl⟩ := unadvertise_cases h
    exact hs.keeps_put hslot rfl rfl rfl

theorem opened_few {s' : Orb} {slot : Nat} (hs : s.Sound)
    (hfew : ∀ r, lookup s.map (nodePath oName g) = some r → r.2.subscriberCount < 127)
    (hs' : s' = s ∨ g < ORB_MULTI_MAX_INSTANCES ∧ Given oSize s oName g false s')
    (hlook : lookup s'.map (nodePath oName g) = some (slot, node)) :
    node.subscriberCount < 127 := by
  rcases hs' with rfl | ⟨-, hgiven⟩
  · exact hfew _ hlook
  · cases hgiven with
    | made hnone hroom =>
      rw [lookup_create hroom hnone, if_pos rfl] at hlook
      cases hlook
      exact show (0 : Int) < 127 by decide
    | claimed hsome =>
      have hold := hfew _ hsome
      cases hlook.symm.trans (lookup_put_self hs.tidy hsome rfl)
      exact hold

/-- **A subscriber's open raises one count, and leaves a record of its own.** -/
theorem subscribe_cases (hs : s.Sound)
    (hfew : ∀ g r, (g = inst.getD 0 ∨ inst.isSome ∧ ¬s.CanHave oName (inst.getD 0)) → lookup s.map (nodePath oName g) = some r → r.2.subscriberCount < 127)
    {r : Int × Orb} (h : orbSubscribe oSize alloc mem oName inst s = some r) :
    (r.1 = -1 ∧ s.Keeps r.2) ∨
      ∃ (slot : Nat) (sd : SubscriberData), r.1 = slot ∧ r.2.Sound ∧ (stateAt s.map slot).1 < 127 ∧
        ∀ j, stateAt r.2.map j = if j = slot then (toInt8 ((stateAt s.map slot).1 + 1), .live sd)
          else stateAt s.map j := by
  obtain ⟨o, ho, h⟩ := bind_eq_some_iff.mp h
  cases h
  have hcases : (o.1 = -1 ∧ ∃ e, o.2.2 = { s with errno := e }) ∨
      ∃ g s' slot node node',
        (g = inst.getD 0 ∨ inst.isSome ∧ ¬s.CanHave oName (inst.getD 0)) ∧
        (s' = s ∨ g < ORB_MULTI_MAX_INSTANCES ∧ Given oSize s oName g false s') ∧
        lookup s'.map (nodePath oName g) = some (slot, node) ∧
        uorbDeviceNodeOpen mem { node with oflags := openFlags false } = some (0, node') ∧
        o.1 = (slot : Nat) ∧ o.2.2 = s'.put slot node' := by
    by_cases hcan : inst.isSome ∧ ¬s.CanHave oName (inst.getD 0)
    · refine (managerOpen_any hs ho).imp_right ?_
      rintro ⟨g, s', slot, node, node', hrest⟩
      exact ⟨g, s', slot, node, node', .inr hcan, hrest⟩
    · refine (openPlain_cases hs (.inr rfl) ?_ ho).imp_right ?_
      · rintro g rfl -
        by_contra hno
        exact hcan ⟨rfl, hno⟩
      · rintro ⟨s', slot, node, node', hs', hlook, hopen, rfl⟩
        exact ⟨_, s', slot, node, node', .inl rfl, hs', hlook, hopen, rfl, rfl⟩
  rcases hcases with ⟨hret, e, he⟩ | ⟨g, s', slot, node, node', hg, hs', hlook, hopen, hret, hput⟩
  · rw [he]
    exact .inl ⟨hret, hs.keeps_errno e⟩
  · have hkeeps : s.Keeps s' := by
      rcases hs' with rfl | ⟨hlt, hgiven⟩
      · exact ⟨hs, fun _ => rfl⟩
      · exact hgiven.keeps hs hlt
    have hslot := (lookup_eq_some.mp hlook).2
    have hstate : stateAt s.map slot = (node.subscriberCount, node.priv) := by
      rw [← hkeeps.same slot, stateAt_of_node (getUorbnode_of_lookup hlook)]
    have hcount := opened_few hs (fun r => hfew g r hg) hs' hlook
    cases mem with
    | false => cases hopen
    | true =>
      obtain ⟨sd, hnode⟩ : ∃ sd, node' = { node with
          oflags := rdonly, priv := .live sd, subscriberCount := toInt8 (node.subscriberCount + 1) } :=
        ⟨_, (congrArg Prod.snd (some.inj hopen)).symm⟩
      subst hnode
      refine .inr ⟨slot, sd, hret, ?_, ?_, fun j => ?_⟩
      · rw [hput]
        exact hkeeps.sound.put hslot rfl
      · rw [hstate]
        exact hcount
      · rw [hput, hstate]
        show stateAt (s'.map.put slot _) j = _
        rw [stateAt_put (lt_of_slot hslot), hkeeps.same j]

end Slots

/-! ## The accounts agree with the nodes -/

structure Accounts.Books (a : Accounts) : Prop where
  sound : a.orb.Sound
  counted : ∀ slot, (stateAt a.orb.map slot).1 = a.alive slot
  few : ∀ slot, a.alive slot ≤ 127
  owned : ∀ slot id, a.owner slot = some id →
    (id, slot) ∈ a.subs ∧ ∃ sd, (stateAt a.orb.map slot).2 = .live sd
  numbered : ∀ sub ∈ a.subs, sub.1 < a.next
  distinct : (a.subs.map Prod.fst).Nodup
  once : a.released.Nodup
  freed : ∀ id, id ∈ a.released ↔ id < a.next ∧ ∀ sub ∈ a.subs, sub.1 ≠ id

namespace Accounts

variable {oSize : List Char → Nat} {a a' : Accounts}

theorem books_start (errno : Int) : (start errno).Books := by
  have hsound := (inv_start (fun _ => 0) errno).sound
  refine ⟨hsound, fun slot => ?_, fun _ => Nat.zero_le _, ?_, ?_, nodup_nil, nodup_nil, ?_⟩
  · have hnone : getUorbnode (start errno).orb.map slot = none := by
      rw [getUorbnode_nat]
      cases hslot : (start errno).orb.map.slots[slot]? with
      | none => rfl
      | some o => rw [eq_of_mem_replicate (mem_of_getElem? hslot)]; rfl
    unfold stateAt
    rw [hnone]
    rfl
  · intro slot id h
    cases h
  · intro sub h
    cases h
  · intro id
    exact ⟨fun h => (nomatch h), fun h => absurd h.1 (Nat.not_lt_zero id)⟩

theorem Books.keeps (h : a.Books) {s : Orb} (hk : a.orb.Keeps s) : Books { a with orb := s } :=
  ⟨hk.sound, fun slot => (congrArg Prod.fst (hk.same slot)).trans (h.counted slot),
    h.few, fun slot id ho => (h.owned slot id ho).imp_right fun ⟨sd, hsd⟩ =>
      ⟨sd, (congrArg Prod.snd (hk.same slot)).trans hsd⟩,
    h.numbered, h.distinct, h.once, h.freed⟩

theorem toInt8_of_range {n : Int} (h0 : 0 ≤ n) (h1 : n ≤ 127) : toInt8 n = n := by
  exact Int.bmod_eq_of_le (by omega) (by omega)

theorem alive_cons (a : Accounts) (id slot j : Nat) :
    ((id, slot) :: a.subs).countP (fun s => s.2 = j) + a.internal j
      = a.alive j + if j = slot then 1 else 0 := by
  unfold alive
  rw [countP_cons]
  by_cases hj : slot = j
  · simp only [hj, decide_true, if_true]
    omega
  · simp only [hj, Ne.symm hj, decide_false, Bool.false_eq_true, if_false, Nat.add_zero]

theorem Books.freed_cons (h : a.Books) (slot id : Nat) :
    id ∈ a.released ↔ id < a.next + 1 ∧ ∀ sub ∈ (a.next, slot) :: a.subs, sub.1 ≠ id := by
  rw [h.freed id, forall_mem_cons]
  constructor
  · rintro ⟨hlt, hall⟩
    exact ⟨Nat.lt_succ_of_lt hlt, Nat.ne_of_gt hlt, hall⟩
  · rintro ⟨hlt, hne, hall⟩
    refine ⟨?_, hall⟩
    have hne : a.next ≠ id := hne
    omega

theorem Books.subscribe (h : a.Books) (hok : a.Own (.subscribe alloc mem oName inst))
    {r : Int × Orb} (hr : orbSubscribe oSize alloc mem oName inst a.orb = some r) :
    (a.opened r).Books := by
  unfold opened
  rcases subscribe_cases h.sound hok hr with ⟨hret, hk⟩ | ⟨slot, sd, hret, hsound, hfew, hstate⟩
  · rw [hret, if_pos (by decide)]
    exact h.keeps hk
  · have hpos : ¬((slot : Int) < 0) := by omega
    rw [hret, if_neg hpos, Int.toNat_natCast]
    have hcount := h.counted slot
    refine ⟨hsound, fun j => ?_, fun j => ?_, fun j id ho => ?_, fun sub hsub => ?_, ?_, h.once,
      h.freed_cons slot⟩
    · show (stateAt r.2.map j).1 = ((_ + _ : Nat) : Int)
      rw [hstate j, alive_cons]
      by_cases hj : j = slot
      · subst hj
        rw [if_pos rfl, if_pos rfl, hcount, toInt8_of_range (by omega) (by omega)]
        rfl
      · rw [if_neg hj, if_neg hj]
        exact h.counted j
    · show _ + _ ≤ 127
      rw [alive_cons]
      by_cases hj : j = slot
      · subst hj
        rw [if_pos rfl]
        omega
      · rw [if_neg hj]
        exact h.few j
    · have ho : update a.owner slot (some a.next) j = some id := ho
      show _ ∧ ∃ sd, (stateAt r.2.map j).2 = .live sd
      rw [hstate j]
      rcases update_cases ho with ⟨rfl, heq⟩ | ⟨hj, ho⟩
      · cases heq
        exact ⟨mem_cons_self, sd, by rw [if_pos rfl]⟩
      · rw [if_neg hj]
        exact (h.owned j id ho).imp_left (mem_cons_of_mem _)
    · rcases mem_cons.mp hsub with rfl | hsub
      · exact Nat.lt_succ_self _
      · exact Nat.lt_succ_of_lt (h.numbered sub hsub)
    · refine nodup_cons.mpr ⟨fun hmem => ?_, h.distinct⟩
      obtain ⟨sub, hsub, he⟩ := mem_map.mp hmem
      have hlt := h.numbered sub hsub
      rw [he] at hlt
      exact Nat.lt_irrefl _ hlt

theorem node_of_live {map : NodeMap} {slot : Nat} {sd : SubscriberData}
    (h : (stateAt map slot).2 = .live sd) :
    ∃ node, getUorbnode map slot = some node ∧ node.priv = .live sd ∧
      (stateAt map slot).1 = node.subscriberCount := by
  unfold stateAt at h ⊢
  cases hnode : getUorbnode map slot with
  | none =>
    rw [hnode] at h
    cases h
  | some node =>
    rw [hnode] at h
    exact ⟨node, rfl, h, rfl⟩

theorem close_own (h : a.Books) (hsub : sub ∈ a.subs) (hok : a.Own (.unsubscribe sub.1)) :
    ∃ node sd map, a.orb.map.slots[sub.2]? = some (some node) ∧ node.priv = .live sd ∧
      node.oflags = rdonly ∧ (stateAt a.orb.map sub.2).1 = node.subscriberCount ∧
      map = a.orb.map.put sub.2
        { node with priv := .freed, subscriberCount := toInt8 (node.subscriberCount - 1) } ∧
      orbManagerUnsubscribe a.orb.map sub.2 = some (0, map) := by
  obtain ⟨howner, hflags⟩ := hok sub hsub rfl
  obtain ⟨-, sd, hsd⟩ := h.owned _ _ howner
  obtain ⟨node, hnode, hpriv, hcount⟩ := node_of_live hsd
  have hslot := slot_of_getUorbnode hnode
  refine ⟨node, sd, _, hslot, hpriv, hflags node hnode, hcount, rfl, ?_⟩
  unfold orbManagerUnsubscribe unodeClose uorbDeviceNodeClose
  rw [hnode]
  simp only [hflags node hnode, if_true, hpriv]
  rfl

theorem Books.sub_unique (h : a.Books) {sub' : Nat × Nat} (hs : sub ∈ a.subs) (hs' : sub' ∈ a.subs)
    (he : sub.1 = sub'.1) : sub = sub' :=
  inj_on_of_nodup_map h.distinct hs hs' he

theorem Books.mem_erase_iff (h : a.Books) {s : Nat × Nat} :
    s ∈ a.subs.erase sub ↔ s ≠ sub ∧ s ∈ a.subs :=
  (List.Nodup.of_map Prod.fst h.distinct).mem_erase_iff

theorem Books.find_sub (h : a.Books) (hsub : sub ∈ a.subs) :
    a.subs.find? (fun s => s.1 = sub.1) = some sub := by
  cases hfind : a.subs.find? (fun s => s.1 = sub.1) with
  | none =>
    have hno := find?_eq_none.mp hfind sub hsub
    simp at hno
  | some s =>
    have hs := mem_of_find?_eq_some hfind
    have he : s.1 = sub.1 := by simpa using find?_some hfind
    rw [h.sub_unique hs hsub he]

theorem countP_erase_slot {subs : List (Nat × Nat)} (hsub : sub ∈ subs) (j : Nat) :
    (subs.erase sub).countP (fun s => s.2 = j) + (if j = sub.2 then 1 else 0)
      = subs.countP fun s => s.2 = j := by
  rw [(perm_cons_erase hsub).countP_eq, countP_cons]
  by_cases hj : sub.2 = j
  · simp [hj]
  · simp [hj, Ne.symm hj]

theorem Books.freed_erase (h : a.Books) (hsub : sub ∈ a.subs) (id : Nat) :
    id ∈ sub.1 :: a.released ↔ id < a.next ∧ ∀ s ∈ a.subs.erase sub, s.1 ≠ id := by
  rw [mem_cons, h.freed id]
  constructor
  · rintro (rfl | ⟨hlt, hall⟩)
    · refine ⟨h.numbered sub hsub, fun s hs he => ?_⟩
      obtain ⟨hne, hs⟩ := h.mem_erase_iff.mp hs
      exact hne (h.sub_unique hs hsub he)
    · exact ⟨hlt, fun s hs => hall s (mem_of_mem_erase hs)⟩
  · rintro ⟨hlt, hall⟩
    by_cases hid : id = sub.1
    · exact .inl hid
    · refine .inr ⟨hlt, fun s hs he => ?_⟩
      refine hall s (h.mem_erase_iff.mpr ⟨?_, hs⟩) he
      rintro rfl
      exact hid he.symm

/-- **Closing one's own subscription releases its record, and nobody else's.** -/
theorem Books.unsubscribe (oSize : List Char → Nat) (h : a.Books) (hsub : sub ∈ a.subs)
    (hok : a.Own (.unsubscribe sub.1)) :
    ∃ a', a.step oSize (.unsubscribe sub.1) = some a' ∧ a'.released = sub.1 :: a.released ∧
      a'.Books := by
  obtain ⟨node, sd, map, hslot, hpriv, hflags, hcount, hmap, hclose⟩ := close_own h hsub hok
  have howner := (hok sub hsub rfl).1
  have hfrees : (getUorbnode a.orb.map sub.2).any closeFrees = true := by
    rw [getUorbnode_natCast hslot]
    simp [closeFrees, hflags, hpriv]
  have hclosed : a.closed sub map = { a with
      orb := { a.orb with map := map }
      subs := a.subs.erase sub
      owner := update a.owner sub.2 none
      released := sub.1 :: a.released } := by
    simp [closed, hfrees, howner]
  refine ⟨a.closed sub map, ?_, by rw [hclosed], ?_⟩
  · simp only [step, h.find_sub hsub, hclose, bind_eq_bind, bind_some]
  rw [hclosed]
  have hnot : sub.1 ∉ a.released := fun hmem => ((h.freed sub.1).mp hmem).2 sub hsub rfl
  refine ⟨?_, fun j => ?_, fun j => ?_, fun j id ho => ?_, fun s hs => ?_, ?_, ?_, h.freed_erase hsub⟩
  · rw [hmap]
    exact h.sound.put hslot rfl
  · show (stateAt map j).1 = (((a.subs.erase sub).countP (fun s => s.2 = j) + a.internal j : Nat) : Int)
    have hj := countP_erase_slot hsub j
    have hfew := h.few j
    have hcounted := h.counted j
    unfold alive at hfew hcounted
    rw [hmap, stateAt_put (lt_of_slot hslot)]
    by_cases hjs : j = sub.2
    · subst hjs
      rw [if_pos rfl] at hj ⊢
      show toInt8 (node.subscriberCount - 1) = _
      rw [← hcount, hcounted, toInt8_of_range (by omega) (by omega)]
      omega
    · rw [if_neg hjs] at hj ⊢
      omega
  · have hj := countP_erase_slot hsub j
    have hfew := h.few j
    unfold alive at hfew ⊢
    simp only
    omega
  · have ho : update a.owner sub.2 none j = some id := ho
    show _ ∧ ∃ sd, (stateAt map j).2 = .live sd
    have hj : j ≠ sub.2 := by
      rintro rfl
      rw [update_self] at ho
      cases ho
    rw [update_of_ne hj] at ho
    rw [hmap, stateAt_put (lt_of_slot hslot), if_neg hj]
    refine (h.owned j id ho).imp_left fun hmem => h.mem_erase_iff.mpr ⟨?_, hmem⟩
    rintro rfl
    exact hj rfl
  · exact h.numbered s (mem_of_mem_erase hs)
  · exact h.distinct.sublist (erase_sublist.map _)
  · exact nodup_cons.mpr ⟨hnot, h.once⟩

theorem Books.setInternal (h : a.Books) {slot k : Nat} {node : DeviceNode} {count : Int}
    (hnode : getUorbnode a.orb.map slot = some node)
    (hcount : count = (a.subs.countP (fun s => s.2 = slot) + k : Nat))
    (hfew : a.subs.countP (fun s => s.2 = slot) + k ≤ 127) :
    Books { a with
      orb := a.orb.put slot { node with subscriberCount := count }
      internal := update a.internal slot k } := by
  have hslot := slot_of_getUorbnode hnode
  have hstate := stateAt_of_node hnode
  refine ⟨h.sound.put hslot rfl, fun j => ?_, fun j => ?_, fun j id ho => ?_, h.numbered, h.distinct,
    h.once, h.freed⟩
  · show (stateAt (a.orb.map.put slot _) j).1 = ((_ + update a.internal slot k j : Nat) : Int)
    rw [stateAt_put (lt_of_slot hslot)]
    by_cases hj : j = slot
    · subst hj
      rw [if_pos rfl, update_self]
      exact hcount
    · rw [if_neg hj, update_of_ne hj]
      exact h.counted j
  · show _ + update a.internal slot k j ≤ 127
    by_cases hj : j = slot
    · subst hj
      rw [update_self]
      exact hfew
    · rw [update_of_ne hj]
      exact h.few j
  · refine (h.owned j id ho).imp_right ?_
    rintro ⟨sd, hsd⟩
    show ∃ sd, (stateAt (a.orb.map.put slot _) j).2 = .live sd
    rw [stateAt_put (lt_of_slot hslot)]
    by_cases hj : j = slot
    · subst hj
      rw [if_pos rfl]
      rw [hstate] at hsd
      exact ⟨sd, hsd⟩
    · rw [if_neg hj]
      exact ⟨sd, hsd⟩

/-- **Every call within the condition keeps the books.** -/
theorem Books.count_of_node {slot : Nat} {node : DeviceNode} (h : a.Books)
    (hnode : getUorbnode a.orb.map slot = some node) :
    node.subscriberCount = (a.subs.countP (fun s => s.2 = slot) + a.internal slot : Nat) := by
  have hcount := h.counted slot
  rw [stateAt_of_node hnode] at hcount
  exact hcount

theorem Books.step {e : Entry} (h : a.Books) (hok : a.Own e) (hs : a.step oSize e = some a') :
    a'.Books := by
  cases e with
  | advertise alloc oName queueSize heap data inst =>
    obtain ⟨r, hr, rfl⟩ := map_eq_some_iff.mp hs
    exact h.keeps (advertise_keeps h.sound hr)
  | unadvertise handle =>
    obtain ⟨r, hr, rfl⟩ := map_eq_some_iff.mp hs
    exact h.keeps (unadvertise_keeps h.sound hr)
  | subscribe alloc mem oName inst =>
    obtain ⟨r, hr, rfl⟩ := map_eq_some_iff.mp hs
    exact h.subscribe hok hr
  | unsubscribe id =>
    have hstep := hs
    simp only [Accounts.step, bind_eq_bind, bind_eq_some_iff] at hs
    obtain ⟨sub, hfind, -⟩ := hs
    have hsub := mem_of_find?_eq_some hfind
    obtain rfl : sub.1 = id := by simpa using find?_some hfind
    obtain ⟨a1, h1, -, hbooks⟩ := h.unsubscribe oSize hsub hok
    cases hstep.symm.trans h1
    exact hbooks
  | addInternal slot =>
    simp only [Accounts.step, bind_eq_bind, bind_eq_some_iff] at hs
    obtain ⟨node, hnode, hs⟩ := hs
    cases hs
    have hfew := hok node hnode
    have hnow := h.count_of_node hnode
    refine h.setInternal hnode ?_ (by omega)
    rw [toInt8_of_range (by omega) (by omega)]
    omega
  | removeInternal slot =>
    simp only [Accounts.step] at hs
    split at hs
    · cases hs
    · rename_i hpos
      obtain ⟨node, hnode, hs⟩ := bind_eq_some_iff.mp hs
      cases hs
      have hfew : a.subs.countP (fun s => s.2 = slot) + a.internal slot ≤ 127 := h.few slot
      have hnow := h.count_of_node hnode
      refine h.setInternal hnode ?_ (by omega)
      rw [toInt8_of_range (by omega) (by omega)]
      omega
  | setErrno errno =>
    cases hs
    exact h.keeps (h.sound.keeps_errno errno)

end Accounts

/-! ## Every run -/

/--
**The count of a node is the number of its subscriptions, and every closed subscription has had
its record freed once.**

For every run of calls, with any `errno`, whose calls meet `Own`: every node's `_subscriber_count`
is the number of subscriptions alive on it. The records freed are those of the subscriptions that
have been closed, each once, and a close frees the record of the subscription it closes.
-/
theorem subscribers_counted (oSize : List Char → Nat) (errno : Int) {a : Accounts}
    (h : Reaches (Accounts.step oSize) Accounts.Own (Accounts.start errno) a) :
    (∀ (slot : Nat) node, getUorbnode a.orb.map slot = some node →
      node.subscriberCount = a.alive slot) ∧
    a.released.Nodup ∧
    (∀ id, id ∈ a.released ↔ id < a.next ∧ ∀ sub ∈ a.subs, sub.1 ≠ id) ∧
    ∀ sub ∈ a.subs, a.Own (.unsubscribe sub.1) →
      ∃ a', a.step oSize (.unsubscribe sub.1) = some a' ∧ a'.released = sub.1 :: a.released := by
  have hbooks : a.Books := h.invariant (P := Accounts.Books) (Accounts.books_start errno)
    fun a e a' ha hok hs => ha.step hok hs
  refine ⟨fun slot node hnode => ?_, hbooks.once, hbooks.freed, fun sub hsub hok => ?_⟩
  · have hcount := hbooks.counted slot
    rw [stateAt_of_node hnode] at hcount
    exact hcount
  · obtain ⟨a', hs, hreleased, -⟩ := hbooks.unsubscribe oSize hsub hok
    exact ⟨a', hs, hreleased⟩

/-- A call of `orb_subscribe` with all the memory it needs. -/
def plainSubscribe (oName : List Char) : Entry := .subscribe (fun _ => .ok) true oName none

theorem subscribed_and_closed :
    ∃ a, Reaches (Accounts.step fun _ => 4) Accounts.Own (Accounts.start 0) a ∧
      a.released = [0] ∧ a.next = 1 := by
  have hrun : ((Accounts.step (fun _ => 4) (Accounts.start 0) (plainSubscribe ['t'])).bind fun a1 =>
      (Accounts.step (fun _ => 4) a1 (.unsubscribe 0)).map fun a2 =>
        ((a1.subs, a1.owner 0, (getUorbnode a1.orb.map 0).map DeviceNode.oflags), a2.released, a2.next))
      = some (([(0, 0)], some 0, some rdonly), [0], 1) := by decide +kernel
  obtain ⟨a1, h1, hrun⟩ := bind_eq_some_iff.mp hrun
  obtain ⟨a2, h2, hrun⟩ := map_eq_some_iff.mp hrun
  simp only [Prod.mk.injEq] at hrun
  obtain ⟨⟨hsubs, howner, hflags⟩, hreleased, hnext⟩ := hrun
  refine ⟨a2, .tail (.tail .refl ?_ h1) ?_ h2, hreleased, hnext⟩
  · intro g r _ hlook
    cases (lookup_empty _).symm.trans hlook
  · intro sub hsub _
    rw [hsubs, mem_singleton] at hsub
    subst hsub
    refine ⟨howner, fun node hnode => ?_⟩
    have hnode : getUorbnode a1.orb.map 0 = some node := hnode
    rw [hnode] at hflags
    exact some.inj hflags

theorem subscribers_counted_closed :
    ∃ a, Reaches (Accounts.step fun _ => 4) Accounts.Own (Accounts.start 0) a ∧
      a.released = [0] ∧ a.next = 1 ∧
      ∀ (slot : Nat) node, getUorbnode a.orb.map slot = some node →
        node.subscriberCount = a.alive slot := by
  obtain ⟨a, ha, hreleased, hnext⟩ := subscribed_and_closed
  exact ⟨a, ha, hreleased, hnext, (subscribers_counted _ _ ha).1⟩

/--
A subscription, an advertiser of the same topic, and the subscription closed: the close finds the
advertiser's flags, lowers nothing and frees nothing.
-/
theorem subscriber_left_behind :
    ∃ a, Reaches (Accounts.step fun _ => 4) Always (Accounts.start 0) a ∧
      (∃ node, getUorbnode a.orb.map 0 = some node ∧ node.subscriberCount ≠ a.alive 0) ∧
      ¬∀ id, id ∈ a.released ↔ id < a.next ∧ ∀ sub ∈ a.subs, sub.1 ≠ id := by
  have hrun : (([plainSubscribe ['t'], .advertise (fun _ => .ok) ['t'] 1 none none (some 0),
      .unsubscribe 0] : List Entry).foldlM (Accounts.step fun _ => 4) (Accounts.start 0)).map
      (fun a => (((getUorbnode a.orb.map 0).map DeviceNode.subscriberCount, a.alive 0), a.released,
        a.next, a.subs.length)) = some ((some 1, 0), [], 1, 0) := by decide +kernel
  obtain ⟨a, ha, hrun⟩ := map_eq_some_iff.mp hrun
  simp only [Prod.mk.injEq] at hrun
  obtain ⟨⟨hcount, halive⟩, hreleased, hnext, hsubs⟩ := hrun
  obtain ⟨node, hnode, hcount⟩ := map_eq_some_iff.mp hcount
  refine ⟨a, Reaches.of_foldlM _ ha, ⟨node, hnode, ?_⟩, fun hall => ?_⟩
  · rw [hcount, halive]
    decide
  · have hzero := (hall 0).mpr ⟨by rw [hnext]; decide, by rw [eq_nil_of_length_eq_zero hsubs]; simp⟩
    rw [hreleased] at hzero
    cases hzero

end Gpmx.Uorb
