import Gpmx.Uorb.Instances
import Gpmx.Uorb.Queue

/-!
# uORB: runs of advertisers and subscribers

Any number of tasks advertise and subscribe to instances of any topics. The world has the
manager's state, and two lists that the program does not have: the advertisers with an instance
that have not unadvertised it, and the subscriptions that are open. A handle is the pointer to a
node, so `orb_unadvertise` ends whoever holds that pointer.

* `Within` — the calls under which an advertiser and a subscriber get what they ask for
* `World.Inv` — the invariant
* `instances_allocated` — the result
-/

namespace Gpmx.Uorb

open Infra Option List

/-! ## Nodes -/

variable {node node' : DeviceNode} {feed : Feed}

/-- Fewer than `2 ^ 32` messages. -/
structure Stores (node : DeviceNode) (feed : Feed) : Prop extends Holds node feed where
  count_lt : feed.pubs.length < 2 ^ 32

structure Carries (node : DeviceNode) (feed : Feed) : Prop extends Tracks node feed where
  count_lt : feed.pubs.length < 2 ^ 32

/-- The node holds its last messages, and its reader is not ahead of them. -/
def DeviceNode.Good (node : DeviceNode) : Prop :=
  ∃ feed, Stores node feed ∧ feed.q ≤ 255 ∧ (feed.q = 1 ∨ feed.pubs.length + feed.q < 2 ^ 32) ∧
    ∀ sd, node.priv = .live sd → sd.updateInterval = none ∧ sd.generation ≤ feed.pubs.length

def DeviceNode.Spare (node : DeviceNode) : Prop :=
  node.generation + 1 < 2 ^ 32 ∧
    (node.queueSize = 1 ∨ node.generation + 1 + node.queueSize < 2 ^ 32)

theorem Stores.generation (h : Stores node feed) : node.generation = feed.pubs.length :=
  h.count.trans (Nat.mod_eq_of_lt h.count_lt)

theorem Carries.stores (h : Carries node feed) : Stores node feed := ⟨h.toHolds, h.count_lt⟩

theorem Stores.congr (h : Stores node feed) (hsize : node'.oSize = node.oSize)
    (hq : node'.queueSize = node.queueSize) (hgen : node'.generation = node.generation)
    (hdata : node'.data = node.data) : Stores node' feed := by
  refine ⟨⟨hsize.trans h.oSize_eq, hq.trans h.q_eq, h.q_pos, h.q_le, hgen.trans h.count,
    hdata ▸ h.empty_iff, fun data hd => ?_⟩, h.count_lt⟩
  have hslots := h.slots data (hdata ▸ hd)
  unfold Slots at hslots ⊢
  rwa [hq, hsize]

theorem Carries.good (h : Carries node feed) (hq : feed.q ≤ 255)
    (hwrap : feed.q = 1 ∨ feed.pubs.length + feed.q < 2 ^ 32) : node.Good := by
  refine ⟨feed, h.stores, hq, hwrap, fun sd hsd => ?_⟩
  rw [h.reader] at hsd
  cases hsd
  exact ⟨rfl, Nat.le_trans (Nat.mod_le _ _) h.pos_le⟩

theorem DeviceNode.Good.carries (h : node.Good) {sd : SubscriberData} (hsd : node.priv = .live sd) :
    ∃ feed, Carries node feed ∧ feed.q ≤ 255 ∧ (feed.q = 1 ∨ feed.pubs.length + feed.q < 2 ^ 32) := by
  obtain ⟨feed, hst, hq, hwrap, hpriv⟩ := h
  obtain ⟨hui, hle⟩ := hpriv sd hsd
  refine ⟨{ feed with pos := sd.generation }, ⟨⟨⟨hst.oSize_eq, hst.q_eq, hst.q_pos, hst.q_le, hst.count,
    hst.empty_iff, hst.slots⟩, hle, ?_⟩, hst.count_lt⟩, hq, hwrap⟩
  obtain ⟨generation, updateInterval⟩ := sd
  cases hui
  rw [Nat.mod_eq_of_lt (Nat.lt_of_le_of_lt hle hst.count_lt)]
  exact hsd

theorem Carries.publish (h : Carries node feed) (hlt : feed.pubs.length + 1 < 2 ^ 32)
    (heap : Option (Memory UInt8)) (data : Memory UInt8) :
    Carries (nodeStep node (.publish heap data)).1 (feedStep feed (.publish heap data)).1 ∧
      (nodeStep node (.publish heap data)).2 = (feedStep feed (.publish heap data)).2 := by
  obtain ⟨h', hans⟩ := publish_tracks h.toTracks heap data
  exact ⟨⟨h', Nat.lt_of_le_of_lt (length_feedStep feed (.publish heap data)) hlt⟩, hans⟩

/-- Away from the wrap every copy is as the feed has it. -/
theorem Carries.copy (h : Carries node feed) (hwrap : feed.q = 1 ∨ feed.pubs.length + feed.q < 2 ^ 32)
    (now : Nat) : Carries (nodeStep node (.copy now)).1 (feedStep feed (.copy now)).1 ∧
      (nodeStep node (.copy now)).2 = (feedStep feed (.copy now)).2 := by
  have hsafe : (Op.copy now).NoWrap node := by
    intro sd hsd
    rw [h.reader] at hsd
    cases hsd
    rw [h.q_eq]
    exact hwrap.imp_right fun hlt =>
      Nat.lt_of_le_of_lt (Nat.add_le_add_right (Nat.le_trans (Nat.mod_le _ _) h.pos_le) _) hlt
  obtain ⟨h', hans⟩ := copy_tracks h.toTracks now (h.toTracks.inTime h.count_lt hsafe)
  exact ⟨⟨h', Nat.lt_of_le_of_lt (length_feedStep feed (.copy now)) h.count_lt⟩, hans⟩

theorem good_fresh (oSize : List Char → Nat) (oName : List Char) (g : Nat) (adv : Bool) :
    (freshNode oSize oName g adv).Good := by
  refine ⟨newFeed (oSize oName) 1, ⟨⟨rfl, rfl, Nat.one_pos, show 1 ≤ 255 by decide, rfl, ⟨fun _ => rfl, fun _ => rfl⟩,
    nofun⟩, Nat.two_pow_pos 32⟩, show 1 ≤ 255 by decide, .inl rfl, ?_⟩
  intro sd hsd
  cases hsd

theorem DeviceNode.Good.congr (h : node.Good) (hsize : node'.oSize = node.oSize)
    (hq : node'.queueSize = node.queueSize) (hgen : node'.generation = node.generation)
    (hdata : node'.data = node.data)
    (hpriv : ∀ sd, node'.priv = .live sd → node.priv = .live sd) : node'.Good := by
  obtain ⟨feed, hst, hle, hwrap, hreader⟩ := h
  exact ⟨feed, hst.congr hsize hq hgen hdata, hle, hwrap, fun sd hsd => hreader sd (hpriv sd hsd)⟩

theorem DeviceNode.Good.publish (h : node.Good) (hspare : node.Spare) (heap : Option (Memory UInt8))
    (data : Memory UInt8) : (uorbDeviceNodePublish heap node data).2.Good := by
  obtain ⟨feed, hst, hle, hwrap, hreader⟩ := h
  obtain ⟨hlt, hnext⟩ := hspare
  rw [hst.generation] at hlt hnext
  rw [hst.q_eq] at hnext
  obtain ⟨hst', -⟩ := publish_holds hst.toHolds heap data
  obtain ⟨-, hlen⟩ := feed_publish feed heap data
  have hlen' := length_feedStep feed (.publish heap data)
  have hq : (feedStep feed (.publish heap data)).1.q = feed.q := by
    simp only [feedStep]
    split <;> rfl
  refine ⟨_, ⟨hst', Nat.lt_of_le_of_lt hlen' hlt⟩, hq ▸ hle, ?_, fun sd hsd => ?_⟩
  · rw [hq]
    refine hnext.imp_right fun hn => Nat.lt_of_le_of_lt (Nat.add_le_add_right hlen' _) hn
  · have hpriv := publish_priv node heap data
    obtain ⟨hui, hgen⟩ := hreader sd (hpriv ▸ hsd)
    exact ⟨hui, Nat.le_trans hgen hlen⟩

theorem DeviceNode.Good.resize (h : node.Good) (queueSize : Nat) :
    (uorbDeviceNodeUpdateQueueSize node queueSize).2.Good ∧
      (node.Spare → (uorbDeviceNodeUpdateQueueSize node queueSize).2.Spare) := by
  unfold uorbDeviceNodeUpdateQueueSize
  split
  · exact ⟨h, id⟩
  · split
    · exact ⟨h, id⟩
    · rename_i hsame hok
      simp only [not_or] at hok
      obtain ⟨hdata, hge, hle⟩ := hok
      have hdata : node.data = none := by simpa using hdata
      obtain ⟨feed, hst, -, -, hreader⟩ := h
      have hempty := hst.empty_iff.mp hdata
      have hcount := hst.count
      have hqpos := hst.q_pos
      rw [← hst.q_eq] at hqpos
      rw [hempty, length_nil] at hcount
      refine ⟨⟨newFeed node.oSize queueSize, ⟨⟨rfl, rfl, ?_, Nat.le_of_not_lt hle, hcount,
        ⟨fun _ => rfl, fun _ => hdata⟩, fun _ _ _ => nofun⟩, Nat.two_pow_pos 32⟩,
        Nat.le_of_not_lt hle, ?_, ?_⟩, ?_⟩
      · exact Nat.lt_of_lt_of_le hqpos (Nat.le_of_not_lt hge)
      · refine .inr ?_
        simp only [newFeed, length_nil]
        omega
      · intro sd hsd
        obtain ⟨hui, hgen⟩ := hreader sd hsd
        rw [hempty] at hgen
        exact ⟨hui, hgen⟩
      · intro _
        refine ⟨?_, .inr ?_⟩
        · simp only [hcount]
          decide
        · simp only [hcount]
          omega

variable {now : Nat} {map : NodeMap} {i : Nat} {heap : Option (Memory UInt8)} {s : Orb}
    {oName : List Char} {g : Nat} {adv : Bool} {s' : Orb} {r : Int × Orb} {mem : Bool}
    {alloc : Nat → Alloc} {data : Option (Memory UInt8)} {slot queueSize f : Nat}

theorem DeviceNode.Good.read (h : node.Good) {buflen : Nat} {r : ReadResult}
    (hr : uorbDeviceNodeRead now node buflen = some r) :
    r.node.Good ∧ ∀ sd, node.priv = .live sd → ∃ sd', r.node.priv = .live sd' := by
  cases hd : node.data with
  | none =>
    simp only [uorbDeviceNodeRead, hd] at hr
    cases hr
    exact ⟨h, fun sd hsd => ⟨sd, hsd⟩⟩
  | some data =>
    by_cases hlen : buflen = node.oSize
    · subst hlen
      cases hpriv : node.priv with
      | live sd =>
        obtain ⟨feed, hc, hq, hwrap⟩ := h.carries hpriv
        obtain ⟨hc', -⟩ := hc.copy hwrap now
        simp only [nodeStep, hr] at hc'
        have hsame : (feedStep feed (.copy now)).1.q = feed.q ∧
            (feedStep feed (.copy now)).1.pubs = feed.pubs := by
          simp only [feedStep]
          split
          · exact ⟨rfl, rfl⟩
          · split <;> exact ⟨rfl, rfl⟩
        refine ⟨hc'.good (hsame.1 ▸ hq) ?_, fun _ _ => ⟨_, hc'.reader⟩⟩
        rw [hsame.1, hsame.2]
        exact hwrap
      | null | freed => simp [uorbDeviceNodeRead, hd, hpriv] at hr
    · simp only [uorbDeviceNodeRead, hd, ne_eq, hlen, not_false_eq_true, if_true] at hr
      cases hr
      exact ⟨h, fun sd hsd => ⟨sd, hsd⟩⟩

/-! ### What the methods leave alone -/

theorem publish_frame (heap : Option (Memory UInt8)) (node : DeviceNode) (data : Memory UInt8) :
    ∃ generation ring,
      (uorbDeviceNodePublish heap node data).2 = { node with generation, data := ring } := by
  cases hd : (node.data <|> heap) with
  | none =>
    rw [write_eq_none hd]
    exact ⟨_, _, rfl⟩
  | some ring =>
    rw [write_eq hd]
    exact ⟨_, _, rfl⟩

theorem resize_frame (node : DeviceNode) (queueSize : Nat) :
    ∃ q, (uorbDeviceNodeUpdateQueueSize node queueSize).2 = { node with queueSize := q } := by
  unfold uorbDeviceNodeUpdateQueueSize
  split
  · exact ⟨_, rfl⟩
  · split <;> exact ⟨_, rfl⟩

theorem read_frame {buflen : Nat} {r : ReadResult} (h : uorbDeviceNodeRead now node buflen = some r) :
    ∃ priv, r.node = { node with priv } := by
  unfold uorbDeviceNodeRead at h
  split at h
  · cases h
    exact ⟨_, rfl⟩
  · split at h
    · cases h
      exact ⟨_, rfl⟩
    · split at h
      · cases h
        exact ⟨_, rfl⟩
      · cases h

theorem close_frame {r : Int × DeviceNode} (h : uorbDeviceNodeClose node = some r) :
    ∃ priv subscriberCount, r.2 = { node with priv, subscriberCount } := by
  unfold uorbDeviceNodeClose at h
  split at h
  · split at h
    · cases h
      exact ⟨_, _, rfl⟩
    · cases h
      exact ⟨_, _, rfl⟩
    · cases h
  · cases h
    exact ⟨_, _, rfl⟩

/-! ### Reading up to the last message -/

/-- `k` copies, and one more: what the last one returns. -/
def copyTimes (now oSize : Nat) (fd : Int) : Nat → NodeMap → Option ((Int × List UInt8) × NodeMap)
  | 0, map => orbManagerCopy now map oSize fd
  | k + 1, map => do
    let r ← orbManagerCopy now map oSize fd
    copyTimes now oSize fd k r.2

theorem copy_next (hslot : map.slots[i]? = some (some node)) (h : Carries node feed)
    (hwrap : feed.q = 1 ∨ feed.pubs.length + feed.q < 2 ^ 32) (hlt : feed.pos < feed.pubs.length)
    (now : Nat) :
    ∃ node', orbManagerCopy now map node.oSize i
        = some ((0, (feed.pubs[feed.next]?).getD []), map.put i node') ∧
      node'.oSize = node.oSize ∧ Carries node' { feed with pos := feed.next + 1 } := by
  have hne : feed.pubs ≠ [] := length_pos_iff.mp (Nat.zero_lt_of_lt hlt)
  have hnext : feed.next < feed.pubs.length := by
    have := h.q_pos
    unfold Feed.next
    omega
  obtain ⟨hc, hans⟩ := h.copy hwrap now
  cases hr : uorbDeviceNodeRead now node node.oSize with
  | none =>
    simp only [nodeStep, feedStep, hr, if_neg hne, if_pos hnext] at hans
    cases hans
  | some r =>
    simp only [nodeStep, feedStep, hr, if_neg hne, if_pos hnext, Answer.copied.injEq] at hc hans
    obtain ⟨priv, hframe⟩ := read_frame hr
    refine ⟨r.node, ?_, by rw [hframe], hc⟩
    unfold orbManagerCopy
    rw [getUorbnode_natCast hslot]
    have hret : r.ret = node.oSize := by rw [hans.1, h.oSize_eq]
    simp only [hr, bind_eq_bind, bind_some, hret, hans.2]
    rw [if_neg (by omega), if_neg (by simp), Int.toNat_natCast]

/-- **A reader that is behind gets to the last message in at most `q` copies.** -/
theorem copyTimes_last (now : Nat) : ∀ (m : Nat) {map : NodeMap} {node : DeviceNode}
    {feed : Feed}, feed.pubs.length = feed.next + m + 1 →
    map.slots[i]? = some (some node) → Carries node feed →
    (feed.q = 1 ∨ feed.pubs.length + feed.q < 2 ^ 32) → feed.pos < feed.pubs.length →
    ∃ map', copyTimes now node.oSize i m map
      = some ((0, (feed.pubs[feed.pubs.length - 1]?).getD []), map')
  | 0, map, node, feed, hm, hslot, h, hwrap, hlt => by
    obtain ⟨node', hcopy, -⟩ := copy_next hslot h hwrap hlt now
    refine ⟨map.put i node', ?_⟩
    rw [hm, Nat.add_sub_cancel, Nat.add_zero]
    exact hcopy
  | m + 1, map, node, feed, hm, hslot, h, hwrap, hlt => by
    obtain ⟨node', hcopy, hsize, hc⟩ := copy_next hslot h hwrap hlt now
    have hnext : (Feed.next { feed with pos := feed.next + 1 }) = feed.next + 1 := by
      have hge : feed.pubs.length - feed.q ≤ feed.next := Nat.le_max_right _ _
      show max (feed.next + 1) (feed.pubs.length - feed.q) = feed.next + 1
      omega
    obtain ⟨map', hrest⟩ := copyTimes_last now m (by rw [hnext, hm]; omega) (getElem?_put hslot) hc
      hwrap (by show feed.next + 1 < feed.pubs.length; omega)
    refine ⟨map', ?_⟩
    rw [hsize] at hrest
    simp only [copyTimes, hcopy, bind_eq_bind, bind_some]
    exact hrest

/-- The next copies of `fd`, no more than the queue has room for, come to these bytes. -/
def Sees (map : NodeMap) (fd oSize : Nat) (bytes : List UInt8) : Prop :=
  ∃ node, getUorbnode map fd = some node ∧
    ∀ now, ∃ k < node.queueSize, ∃ map', copyTimes now oSize fd k map = some ((0, bytes), map')

/-- **What is published is read**, after at most `q` copies. -/
theorem publish_seen (hslot : map.slots[i]? = some (some node')) (hgood : node.Good)
    (hspare : node.Spare) {sd : SubscriberData} (hsd : node.priv = .live sd) {data : Memory UInt8}
    (hok : (uorbDeviceNodePublish heap node data).1 = 0) :
    Sees (map.put i (uorbDeviceNodePublish heap node data).2) i node.oSize
      (data.read 0 node.oSize) := by
  obtain ⟨feed, hc, hq, hwrap⟩ := hgood.carries hsd
  obtain ⟨hlt, hnext⟩ := hspare
  rw [hc.stores.generation] at hlt hnext
  rw [hc.q_eq] at hnext
  obtain ⟨hc', hans⟩ := hc.publish hlt heap data
  have hpubs : (feedStep feed (.publish heap data)).1
      = { feed with pubs := feed.pubs ++ [data.read 0 feed.oSize] } := by
    simp only [nodeStep, hok] at hans
    simp only [feedStep] at hans ⊢
    split at hans
    · cases hans
    · rename_i hsome
      rw [if_neg hsome]
  rw [hpubs] at hc'
  obtain ⟨generation, ring, hframe⟩ := publish_frame heap node data
  have hsize : (uorbDeviceNodePublish heap node data).2.oSize = node.oSize := by rw [hframe]
  have hlen : (feed.pubs ++ [data.read 0 feed.oSize]).length = feed.pubs.length + 1 := by simp
  have hqpos := hc.q_pos
  have hle := hc.pos_le
  have hnextle : max feed.pos (feed.pubs.length + 1 - feed.q) ≤ feed.pubs.length := by omega
  refine ⟨_, getUorbnode_natCast (getElem?_put hslot), fun now => ?_⟩
  refine ⟨feed.pubs.length - max feed.pos (feed.pubs.length + 1 - feed.q), ?_, ?_⟩
  · rw [hframe]
    show _ < node.queueSize
    rw [hc.q_eq]
    omega
  obtain ⟨map', hcopies⟩ := copyTimes_last now
    (feed.pubs.length - max feed.pos (feed.pubs.length + 1 - feed.q))
    (by simp only [Feed.next, hlen]; omega) (getElem?_put hslot) hc' (by simp only [hlen]; exact hnext)
    (by simp only [hlen]; omega)
  refine ⟨map', ?_⟩
  rw [show nodeStep node (.publish heap data) = _ from rfl] at hcopies
  simp only [nodeStep, hsize] at hcopies
  rw [hcopies]
  simp [hc.oSize_eq]

/-! ## The world -/

/-- The manager, the advertisers that hold an instance, and the open subscriptions. -/
structure World where
  orb : Orb
  live : List Listed
  subs : List Listed

inductive Call where
  | setErrno (errno : Int)
  | advertiseMulti (alloc : Nat → Alloc) (oName : List Char) (queueSize : Nat)
      (heap data : Option (Memory UInt8)) (inst : Option Nat)
  | unadvertise (handle : Option Nat)
  | subscribeMulti (alloc : Nat → Alloc) (mem : Bool) (oName : List Char) (inst : Nat)
  | unsubscribe (sub : Listed)
  | publish (heap : Option (Memory UInt8)) (handle : Nat) (data : Memory UInt8)
  | copy (now oSize : Nat) (fd : Int)

/-- The advertisers after a call of `orb_advertise_multi` that returned a handle and an instance. -/
def World.advertised (w : World) (oName : List Char) (r : Option Nat × Option Nat × Orb) : World :=
  match r.1, r.2.1 with
  | some slot, some g => { w with orb := r.2.2, live := ⟨oName, g, slot⟩ :: w.live }
  | _, _ => { w with orb := r.2.2 }

/-- The subscriptions after a call of `orb_subscribe_multi`. -/
def World.subscribed (w : World) (oName : List Char) (inst : Nat) (r : Int × Orb) : World :=
  if r.1 < 0 then { w with orb := r.2 }
  else { w with orb := r.2, subs := ⟨oName, inst, r.1.toNat⟩ :: w.subs }

def World.step (oSize : List Char → Nat) (w : World) : Call → Option World
  | .setErrno errno => some { w with orb := { w.orb with errno } }
  | .advertiseMulti alloc oName queueSize heap data inst =>
    (orbManagerAdvertiseMulti oSize alloc oName queueSize heap data inst w.orb).map
      (w.advertised oName)
  | .unadvertise handle =>
    (orbManagerUnadvertise handle w.orb).map fun r =>
      { w with orb := r.2, live := w.live.filter fun a => some a.slot ≠ handle }
  | .subscribeMulti alloc mem oName inst =>
    (orbManagerSubscribeMulti oSize alloc mem oName inst w.orb).map (w.subscribed oName inst)
  | .unsubscribe sub =>
    (orbManagerUnsubscribe w.orb.map sub.slot).map fun r =>
      { w with orb := { w.orb with map := r.2 }, subs := w.subs.erase sub }
  | .publish heap handle data =>
    (orbManagerPublish heap handle data w.orb).map fun r => { w with orb := r.2 }
  | .copy now oSize fd =>
    (orbManagerCopy now w.orb.map oSize fd).map fun r =>
      { w with orb := { w.orb with map := r.2 } }

def World.start (errno : Int) : World := ⟨.start errno, [], []⟩

def Orb.SpareAll (s : Orb) (oName : List Char) : Prop :=
  ∀ g < ORB_MULTI_MAX_INSTANCES, ∀ r, lookup s.map (nodePath oName g) = some r → r.2.Spare

/--
The calls that do what they are for.

* An advertiser with `EEXIST` in `errno` has an instance to get, and memory to get there.
* The instance that an advertiser or a subscriber is to get has its node, or there is room in
  `node_map` for one.
* `orb_unsubscribe` does not free the record that another subscription of the node reads from.
* The generations do not reach their wrap.
-/
def Within (w : World) : Call → Prop
  | .setErrno _ => True
  | .advertiseMulti alloc oName _ _ data inst =>
    (inst.isSome → w.orb.Harmless alloc oName ∧
      ∀ f, w.orb.Lowest oName f → w.orb.CanHave oName f) ∧
    (data.isSome → w.orb.SpareAll oName)
  | .unadvertise _ => True
  | .subscribeMulti _ _ oName inst =>
    inst < ORB_MULTI_MAX_INSTANCES → w.orb.CanHave oName inst
  | .unsubscribe sub =>
    ∀ node, getUorbnode w.orb.map sub.slot = some node → node.oflags = rdonly →
      ∀ other ∈ w.subs.erase sub, other.slot ≠ sub.slot
  | .publish _ handle _ => ∀ node, getUorbnode w.orb.map handle = some node → node.Spare
  | .copy _ _ _ => True

/-! ## The invariant -/

structure World.Inv (oSize : List Char → Nat) (w : World) : Prop where
  sound : w.orb.Sound
  good : ∀ (i : Nat) (node : DeviceNode), w.orb.map.slots[i]? = some (some node) → node.Good
  sized : ∀ oName g r, g < ORB_MULTI_MAX_INSTANCES →
    lookup w.orb.map (nodePath oName g) = some r → r.2.oSize = oSize oName
  live : ∀ a ∈ w.live, a.inst < ORB_MULTI_MAX_INSTANCES ∧
    ∃ node, lookup w.orb.map (nodePath a.oName a.inst) = some (a.slot, node) ∧ node.advertised = true
  apart : (w.live.map fun a => (a.oName, a.inst)).Nodup
  subs : ∀ b ∈ w.subs, ∃ node, lookup w.orb.map (nodePath b.oName b.inst) = some (b.slot, node) ∧
    ∃ sd, node.priv = .live sd

section Keeps

variable {oSize : List Char → Nat} {w : World} {i : Nat} {old : DeviceNode}

theorem inv_start (oSize : List Char → Nat) (errno : Int) : (World.start errno).Inv oSize := by
  refine ⟨⟨tidy_empty, fun oName g _ => ?_⟩, ?_, ?_, ?_, nodup_nil, ?_⟩
  · show none = (lookup NodeMap.empty (nodePath oName g)).map Prod.fst
    rw [lookup_empty]
    rfl
  · intro i node hslot
    cases eq_of_mem_replicate (mem_of_getElem? hslot)
  · intro oName g r _ hl
    cases (lookup_empty _).symm.trans hl
  · intro a ha
    cases ha
  · intro b hb
    cases hb

theorem World.Inv.setErrno (h : w.Inv oSize) (e : Int) :
    World.Inv oSize { w with orb := { w.orb with errno := e } } :=
  ⟨⟨h.sound.tidy, h.sound.listed⟩, h.good, h.sized, h.live, h.apart, h.subs⟩

theorem Orb.Sound.put (h : s.Sound) (hslot : s.map.slots[i]? = some (some old))
    (hname : node.devname = old.devname) : (s.put i node).Sound := by
  refine ⟨h.tidy.put hslot hname, fun oName g hg => ?_⟩
  show (s.getNodeLocked oName g).map Listed.slot = (lookup (s.map.put i node) _).map Prod.fst
  rw [h.listed oName g hg, lookup_put h.tidy hslot hname]
  split
  · rename_i hp
    rw [hp, h.tidy i old hslot]
    rfl
  · rfl

theorem forall_put {P : DeviceNode → Prop}
    (h : ∀ (i : Nat) (node : DeviceNode), map.slots[i]? = some (some node) → P node)
    (hnode : P node) (j : Nat) (n : DeviceNode) (hj : (map.put i node).slots[j]? = some (some n)) :
    P n := by
  have hj : (map.slots.set i (some node))[j]? = some (some n) := hj
  rw [getElem?_set] at hj
  split at hj
  · split at hj
    · cases hj
      exact hnode
    · cases hj
  · exact h j n hj

/-- **A node changes, and keeps its name and what the advertisers and subscriptions need.** -/
theorem World.Inv.put (h : w.Inv oSize) (hslot : w.orb.map.slots[i]? = some (some old))
    (hname : node.devname = old.devname) (hsize : node.oSize = old.oSize) (hgood : node.Good)
    (hlive : ∀ a ∈ w.live, a.slot = i → node.advertised = true)
    (hsubs : ∀ b ∈ w.subs, b.slot = i → ∃ sd, node.priv = .live sd) :
    World.Inv oSize { w with orb := w.orb.put i node } := by
  have hlook : ∀ path, lookup (w.orb.map.put i node) path
      = if path = old.devname then some (i, node) else lookup w.orb.map path :=
    lookup_put h.sound.tidy hslot hname
  refine ⟨h.sound.put hslot hname, ?_, ?_, ?_, h.apart, ?_⟩
  · exact forall_put h.good hgood
  · intro oName g r hg hl
    have hl : lookup (w.orb.map.put i node) (nodePath oName g) = some r := hl
    rw [hlook] at hl
    split at hl
    · rename_i hp
      cases hl
      have hold := h.sound.tidy i old hslot
      rw [← hp] at hold
      exact hsize.trans (h.sized oName g _ hg hold)
    · exact h.sized oName g r hg hl
  · intro a ha
    obtain ⟨hg, n, hl, hadv⟩ := h.live a ha
    refine ⟨hg, ?_⟩
    show ∃ n, lookup (w.orb.map.put i node) _ = some (a.slot, n) ∧ n.advertised = true
    rw [hlook]
    split
    · rename_i hp
      rw [hp, h.sound.tidy i old hslot] at hl
      cases hl
      exact ⟨node, rfl, hlive a ha rfl⟩
    · exact ⟨n, hl, hadv⟩
  · intro b hb
    obtain ⟨n, hl, hpriv⟩ := h.subs b hb
    show ∃ n, lookup (w.orb.map.put i node) _ = some (b.slot, n) ∧ ∃ sd, n.priv = .live sd
    rw [hlook]
    split
    · rename_i hp
      rw [hp, h.sound.tidy i old hslot] at hl
      cases hl
      exact ⟨node, rfl, hsubs b hb rfl⟩
    · exact ⟨n, hl, hpriv⟩

theorem Orb.Sound.create (h : s.Sound) (hg : g < ORB_MULTI_MAX_INSTANCES)
    (hnone : lookup s.map (nodePath oName g) = none) (hroom : Room s.map) :
    (s.create oSize oName g adv).Sound := by
  refine ⟨h.tidy.register hroom hnone, fun n j hj => ?_⟩
  rw [lookup_create hroom hnone]
  unfold Orb.create Orb.getNodeLocked
  rw [find?_cons]
  by_cases hsame : oName = n ∧ g = j
  · obtain ⟨rfl, rfl⟩ := hsame
    simp
  · have hne : nodePath n j ≠ nodePath oName g := by
      intro he
      obtain ⟨hn, hjg⟩ :=
        nodePath_injective (Nat.lt_trans hj (by decide)) (Nat.lt_trans hg (by decide)) he
      exact hsame ⟨hn.symm, hjg.symm⟩
    simp only [hsame, decide_false]
    rw [if_neg hne]
    exact h.listed n j hj

section

variable (h : w.Inv oSize)
include h

theorem World.Inv.create (hg : g < ORB_MULTI_MAX_INSTANCES)
    (hnone : lookup w.orb.map (nodePath oName g) = none) (hroom : Room w.orb.map) :
    World.Inv oSize { w with orb := w.orb.create oSize oName g adv } := by
  have hkeep : ∀ {path r}, lookup w.orb.map path = some r →
      lookup (w.orb.create oSize oName g adv).map path = some r := by
    intro path r hl
    rw [lookup_create hroom hnone, if_neg]
    · exact hl
    · rintro rfl
      cases hnone.symm.trans hl
  refine ⟨h.sound.create hg hnone hroom, ?_, ?_, ?_, h.apart, ?_⟩
  · exact forall_put h.good (good_fresh _ _ _ _)
  · intro n j r hj hl
    rw [lookup_create hroom hnone] at hl
    split at hl
    · rename_i hp
      obtain ⟨rfl, -⟩ :=
        nodePath_injective (Nat.lt_trans hj (by decide)) (Nat.lt_trans hg (by decide)) hp
      cases hl
      rfl
    · exact h.sized n j r hj hl
  · intro a ha
    obtain ⟨hlt, n, hl, hadv⟩ := h.live a ha
    exact ⟨hlt, n, hkeep hl, hadv⟩
  · intro b hb
    obtain ⟨n, hl, hpriv⟩ := h.subs b hb
    exact ⟨n, hkeep hl, hpriv⟩

theorem World.Inv.live_at (hslot : w.orb.map.slots[i]? = some (some old))
    {a : Listed} (ha : a ∈ w.live) (hi : a.slot = i) : old.advertised = true := by
  obtain ⟨-, n, hl, hadv⟩ := h.live a ha
  have hn := (lookup_eq_some.mp hl).2
  rw [hi, hslot] at hn
  cases hn
  exact hadv

theorem World.Inv.sub_at (hslot : w.orb.map.slots[i]? = some (some old))
    {b : Listed} (hb : b ∈ w.subs) (hi : b.slot = i) : ∃ sd, old.priv = .live sd := by
  obtain ⟨n, hl, hpriv⟩ := h.subs b hb
  have hn := (lookup_eq_some.mp hl).2
  rw [hi, hslot] at hn
  cases hn
  exact hpriv

theorem World.Inv.put_mono (hslot : w.orb.map.slots[i]? = some (some old))
    (hname : node.devname = old.devname) (hsize : node.oSize = old.oSize) (hgood : node.Good)
    (hadv : old.advertised = true → node.advertised = true)
    (hpriv : ∀ sd, old.priv = .live sd → ∃ sd', node.priv = .live sd') :
    World.Inv oSize { w with orb := w.orb.put i node } := by
  refine h.put hslot hname hsize hgood ?_ ?_
  · intro a ha hi
    exact hadv (h.live_at hslot ha hi)
  · intro b hb hi
    obtain ⟨sd, hsd⟩ := h.sub_at hslot hb hi
    exact hpriv sd hsd

theorem World.Inv.given (hg : g < ORB_MULTI_MAX_INSTANCES)
    (hgiven : Given oSize w.orb oName g adv s') : World.Inv oSize { w with orb := s' } := by
  cases hgiven with
  | made hnone hroom => exact h.create hg hnone hroom
  | claimed hsome =>
    have hslot := (lookup_eq_some.mp hsome).2
    refine h.put_mono hslot rfl rfl ?_ ?_ fun sd hsd => ⟨sd, hsd⟩
    · exact (h.good _ _ hslot).congr rfl rfl rfl rfl fun sd hsd => hsd
    · intro hadv
      simp [hadv]

theorem World.Inv.fewer {live subs : List Listed} (hlive : live.Sublist w.live)
    (hsubs : subs.Sublist w.subs) : World.Inv oSize { w with live, subs } :=
  ⟨h.sound, h.good, h.sized, fun a ha => h.live a (hlive.subset ha),
    h.apart.sublist (hlive.map _), fun b hb => h.subs b (hsubs.subset hb)⟩

end

/-! ### Each call -/

theorem World.Inv.unadvertise (h : w.Inv oSize) {handle : Option Nat}
    (hr : orbManagerUnadvertise handle w.orb = some r) :
    World.Inv oSize { w with orb := r.2, live := w.live.filter fun a => some a.slot ≠ handle } := by
  have hfewer := h.fewer (filter_sublist (p := fun a => some a.slot ≠ handle)) (.refl w.subs)
  cases handle with
  | none =>
    have horb : r.2 = w.orb := (congrArg Prod.snd (some.inj hr)).symm
    rw [horb]
    exact hfewer
  | some slot =>
    obtain ⟨node, hslot, rfl⟩ := unadvertise_cases hr
    refine hfewer.put hslot rfl rfl ?_ ?_ ?_
    · exact (h.good _ _ hslot).congr rfl rfl rfl rfl fun sd hsd => hsd
    · intro a ha hs
      have hne := of_decide_eq_true (mem_filter.mp ha).2
      exact absurd (congrArg some hs) hne
    · intro b hb hs
      have hpriv := h.sub_at hslot hb hs
      exact hpriv

theorem World.Inv.unsubscribe (h : w.Inv oSize) {sub : Listed}
    (hok : Within w (.unsubscribe sub)) {r : Int × NodeMap}
    (hr : orbManagerUnsubscribe w.orb.map sub.slot = some r) :
    World.Inv oSize { w with orb := { w.orb with map := r.2 }, subs := w.subs.erase sub } := by
  have hfewer := h.fewer (.refl w.live) (erase_sublist (a := sub))
  generalize hfd : (sub.slot : Int) = fd at hr
  rcases handle_cases hr with rfl | ⟨i, node, hi, hslot, hr⟩
  · exact hfewer
  · obtain ⟨c, hc, hr⟩ := bind_eq_some_iff.mp hr
    cases hr
    subst hfd
    obtain rfl : sub.slot = i := Int.ofNat.inj hi
    obtain ⟨priv, count, hframe⟩ := close_frame hc
    rw [Int.toNat_natCast]
    refine hfewer.put hslot (by rw [hframe]) (by rw [hframe]) ?_ ?_ ?_
    · refine (h.good _ _ hslot).congr (by rw [hframe]) (by rw [hframe]) (by rw [hframe])
        (by rw [hframe]) fun sd hsd => ?_
      -- a close leaves no record that was not there
      unfold uorbDeviceNodeClose at hc
      split at hc
      · split at hc <;> cases hc
        · exact hsd
        · cases hsd
      · cases hc
        exact hsd
    · intro a ha hs
      have hadv := h.live_at hslot ha hs
      rw [hframe]
      exact hadv
    · intro b hb hs
      by_cases hrd : node.oflags = rdonly
      · exact absurd hs (hok node (getUorbnode_natCast hslot) hrd b hb)
      · unfold uorbDeviceNodeClose at hc
        rw [if_neg hrd] at hc
        cases hc
        exact h.sub_at hslot (mem_of_mem_erase hb) hs

theorem World.Inv.publish (h : w.Inv oSize) {handle : Nat} {data : Memory UInt8}
    (hok : Within w (.publish heap handle data))
    (hr : orbManagerPublish heap handle data w.orb = some r) :
    World.Inv oSize { w with orb := r.2 } := by
  obtain ⟨node, hslot, rfl⟩ := publish_cases hr
  obtain ⟨generation, ring, hframe⟩ := publish_frame heap node data
  refine h.put_mono hslot (by rw [hframe]) (by rw [hframe]) ?_ (by rw [hframe]; exact id) ?_
  · exact (h.good _ _ hslot).publish (hok node (getUorbnode_natCast hslot)) heap data
  · intro sd hsd
    rw [hframe]
    exact ⟨sd, hsd⟩

theorem World.Inv.copy (h : w.Inv oSize) {size : Nat} {fd : Int} {r : (Int × List UInt8) × NodeMap}
    (hr : orbManagerCopy now w.orb.map size fd = some r) :
    World.Inv oSize { w with orb := { w.orb with map := r.2 } } := by
  obtain rfl | ⟨i, node, rfl, hslot, hr⟩ := handle_cases hr
  · exact h
  · obtain ⟨q, hq, hr⟩ := bind_eq_some_iff.mp hr
    cases hr
    obtain ⟨priv, hframe⟩ := read_frame hq
    obtain ⟨hgood, hlive⟩ := (h.good _ _ hslot).read hq
    rw [Int.toNat_natCast]
    exact h.put_mono hslot (by rw [hframe]) (by rw [hframe]) hgood (by rw [hframe]; exact id) hlive

theorem DeviceNode.Good.open (h : old.Good)
    (ho : uorbDeviceNodeOpen mem { old with oflags := openFlags adv } = some (0, node)) :
    node.Good ∧ (old.advertised = true → node.advertised = true) ∧
      (adv = false → ∃ sd, node.priv = .live sd) := by
  cases adv with
  | true =>
    cases ho
    refine ⟨h.congr rfl rfl rfl rfl fun sd hsd => hsd, fun _ => rfl, fun hf => nomatch hf⟩
  | false =>
    cases mem with
    | false => cases ho
    | true =>
      obtain ⟨feed, hst, hq, hwrap, -⟩ := h
      obtain ⟨node', hopen, ht⟩ := open_tracks hst.toHolds
      obtain rfl : node' = node := congrArg Prod.snd (some.inj (hopen.symm.trans ho))
      have hc : Carries node' feed.opened := ⟨ht, hst.count_lt⟩
      refine ⟨hc.good hq hwrap, ?_, fun _ => ⟨_, hc.reader⟩⟩
      cases ho
      exact id

theorem open_names
    (ho : uorbDeviceNodeOpen mem { old with oflags := openFlags adv } = some (0, node)) :
    node.devname = old.devname ∧ node.oSize = old.oSize := by
  cases adv with
  | true =>
    cases ho
    exact ⟨rfl, rfl⟩
  | false =>
    cases mem with
    | false => cases ho
    | true =>
      cases ho
      exact ⟨rfl, rfl⟩

theorem World.Inv.openedAt (h : w.Inv oSize) {inst : Option Nat} {r : Int × Option Nat × Orb}
    (hr : OpenedAt oSize w.orb mem oName adv inst r) :
    ∃ slot node, r.1 = (slot : Nat) ∧ r.2.1 = inst ∧ World.Inv oSize { w with orb := r.2.2 } ∧
      lookup r.2.2.map (nodePath oName (inst.getD 0)) = some (slot, node) ∧
      (adv = false → ∃ sd, node.priv = .live sd) := by
  obtain ⟨s', slot, old, node, hs', hlook, hopen, rfl⟩ := hr
  have hw' : World.Inv oSize { w with orb := s' } := by
    rcases hs' with rfl | ⟨hg, hgiven⟩
    · exact h
    · exact h.given hg hgiven
  have hslot := (lookup_eq_some.mp hlook).2
  obtain ⟨hname, hsize⟩ := open_names hopen
  obtain ⟨hgood, hadv, hreader⟩ := (hw'.good _ _ hslot).open hopen
  refine ⟨slot, node, rfl, rfl, ?_, lookup_put_self hw'.sound.tidy hlook hname, hreader⟩
  refine hw'.put_mono hslot hname hsize hgood hadv fun sd hsd => ?_
  obtain ⟨-, hkeep⟩ := open_keeps hopen
  exact hkeep sd hsd

theorem World.Inv.subscribeMulti (h : w.Inv oSize) {inst : Nat}
    (hok : Within w (.subscribeMulti alloc mem oName inst))
    (hr : orbManagerSubscribeMulti oSize alloc mem oName inst w.orb = some r) :
    (w.subscribed oName inst r).Inv oSize := by
  obtain ⟨o, ho, hr⟩ := bind_eq_some_iff.mp hr
  cases hr
  have hcan : ∀ g, some inst = some g → g < ORB_MULTI_MAX_INSTANCES → w.orb.CanHave oName g := by
    rintro g hg hlt
    cases hg
    exact hok hlt
  unfold World.subscribed
  rcases openPlain_cases h.sound (.inr rfl) hcan ho with ⟨hret, e, he⟩ | hopen
  · rw [hret, if_pos (by decide), he]
    exact h.setErrno e
  · obtain ⟨slot, node, hslot, -, hw', hlook, hreader⟩ := h.openedAt hopen
    have hpos : ¬((slot : Int) < 0) := by omega
    rw [hslot, if_neg hpos, Int.toNat_natCast]
    refine ⟨hw'.sound, hw'.good, hw'.sized, hw'.live, hw'.apart, fun b hb => ?_⟩
    rcases mem_cons.mp hb with rfl | hb
    · exact ⟨node, hlook, hreader rfl⟩
    · exact hw'.subs b hb

/-! ### Advertising -/

theorem publish_ret (heap : Option (Memory UInt8)) (node : DeviceNode) (data : Memory UInt8) :
    (uorbDeviceNodePublish heap node data).1 = 0 ∨
      (uorbDeviceNodePublish heap node data).1 = -1 ∧ heap = none := by
  cases hd : (node.data <|> heap) with
  | some ring =>
    rw [write_eq hd]
    exact .inl rfl
  | none =>
    rw [write_eq_none hd]
    refine .inr ⟨rfl, ?_⟩
    cases hn : node.data with
    | none =>
      rw [hn] at hd
      exact hd
    | some ring =>
      rw [hn] at hd
      cases hd

theorem advertiseOpened_cases (hslot : s.map.slots[slot]? = some (some node))
    (hw : node.oflags = wronly) {q : Nat}
    (hframe : (uorbDeviceNodeUpdateQueueSize node queueSize).2 = { node with queueSize := q })
    {a : Option Nat × Orb} (h : advertiseOpened queueSize heap data slot s = some a) :
    ∃ e, (data = none ∧ a = (some slot, { s.put slot { node with queueSize := q } with errno := e })) ∨
      ∃ d, data = some d ∧ ∃ p, p = uorbDeviceNodePublish heap { node with queueSize := q } d ∧
        a.2 = { s.put slot p.2 with errno := e } ∧
        (p.1 = 0 ∧ a.1 = some slot ∨ a.1 = none ∧ heap = none) := by
  have hclose : uorbDeviceNodeClose { node with queueSize := q } = some (0, { node with queueSize := q }) := by
    unfold uorbDeviceNodeClose
    rw [if_neg]
    show ¬node.oflags = rdonly
    rw [hw]
    decide
  unfold advertiseOpened at h
  simp only [getUorbnode_natCast hslot, hframe, hclose, bind_eq_bind, bind_some, Int.toNat_natCast] at h
  cases data with
  | none => exact ⟨s.errno, .inl ⟨rfl, (some.inj h).symm⟩⟩
  | some d =>
    simp only at h
    rcases publish_ret heap { node with queueSize := q } d with hret | ⟨hret, hheap⟩
    · rw [if_neg (by rw [hret]; decide)] at h
      cases h
      exact ⟨s.errno, .inr ⟨d, rfl, _, rfl, rfl, .inl ⟨hret, rfl⟩⟩⟩
    · rw [if_pos hret] at h
      cases h
      exact ⟨ENOMEM, .inr ⟨d, rfl, _, rfl, rfl, .inr ⟨rfl, hheap⟩⟩⟩

/-- The node that `orb_advertise_multi` has opened, whichever way. -/
structure Opening (oSize : List Char → Nat) (s : Orb) (oName : List Char) (f : Nat) (slot : Nat)
    (s' : Orb) : Prop where
  lt : f < ORB_MULTI_MAX_INSTANCES
  made : ∃ s1 node, (s1 = s ∨ Given oSize s oName f true s1) ∧
    lookup s1.map (nodePath oName f) = some (slot, node) ∧ s' = s1.put slot node.opened

theorem OpenedAs.opening {r : Int × Option Nat × Orb} (hlow : s.Lowest oName f)
    (h : OpenedAs oSize s oName f r) :
    ∃ slot : Nat, r.1 = slot ∧ r.2.1 = some f ∧ Opening oSize s oName f slot r.2.2 := by
  obtain ⟨s1, slot, node, hgiven, hlook, rfl⟩ := h
  exact ⟨slot, rfl, rfl, hlow.1, s1, node, .inr hgiven, hlook, rfl⟩

theorem OpenedAt.opening {r : Int × Option Nat × Orb} (h : OpenedAt oSize s mem oName true none r) :
    ∃ slot : Nat, r.1 = slot ∧ r.2.1 = none ∧ Opening oSize s oName 0 slot r.2.2 := by
  obtain ⟨s1, slot, node, node', hs1, hlook, hopen, rfl⟩ := h
  have hopened : node' = node.opened := (congrArg Prod.snd (some.inj hopen)).symm
  exact ⟨slot, rfl, rfl, by decide, s1, node, hs1.imp_right And.right, hlook, by rw [hopened]⟩

theorem Opening.inv (h : w.Inv oSize) (ho : Opening oSize w.orb oName f slot s') :
    World.Inv oSize { w with orb := s' } ∧
      ∃ node, lookup s'.map (nodePath oName f) = some (slot, node) ∧ node.oflags = wronly ∧
        node.advertised = true ∧ (w.orb.SpareAll oName → node.Spare) := by
  obtain ⟨hf, s1, node, hs1, hlook, rfl⟩ := ho
  have hw1 : World.Inv oSize { w with orb := s1 } := by
    rcases hs1 with rfl | hgiven
    · exact h
    · exact h.given hf hgiven
  have hslot := (lookup_eq_some.mp hlook).2
  refine ⟨?_, node.opened, lookup_put_self hw1.sound.tidy hlook rfl, rfl, rfl, fun hspare => ?_⟩
  · refine hw1.put_mono hslot rfl rfl ?_ (fun _ => rfl) fun sd hsd => ⟨sd, hsd⟩
    exact (hw1.good _ _ hslot).congr rfl rfl rfl rfl fun sd hsd => hsd
  · show node.Spare
    rcases hs1 with rfl | hgiven
    · exact hspare f hf _ hlook
    · cases hgiven with
      | made hnone hroom =>
        rw [lookup_create hroom hnone, if_pos rfl] at hlook
        cases hlook
        exact ⟨show 0 + 1 < 2 ^ 32 by decide, .inl rfl⟩
      | claimed hsome =>
        have hold := hspare f hf _ hsome
        cases hlook.symm.trans (lookup_put_self h.sound.tidy hsome rfl)
        exact hold

theorem World.Inv.update (h : w.Inv oSize) {path : List Char}
    (hlook : lookup w.orb.map path = some (slot, old)) (hadv : old.advertised = true)
    (hframe : node = { old with generation := node.generation, data := node.data, queueSize := node.queueSize })
    (hgood : node.Good) (e : Int) :
    World.Inv oSize { w with orb := { w.orb.put slot node with errno := e } } ∧
      ∃ n, lookup (w.orb.map.put slot node) path = some (slot, n) ∧ n.advertised = true := by
  have hslot := (lookup_eq_some.mp hlook).2
  refine ⟨?_, node, lookup_put_self h.sound.tidy hlook (by rw [hframe]), by rw [hframe]; exact hadv⟩
  refine (h.put_mono hslot (by rw [hframe]) (by rw [hframe]) hgood (by rw [hframe]; exact id) ?_).setErrno e
  intro sd hsd
  rw [hframe]
  exact ⟨sd, hsd⟩

theorem World.Inv.advertised (h : w.Inv oSize) (ho : Opening oSize w.orb oName f slot s')
    (hspare : data.isSome → w.orb.SpareAll oName) {a : Option Nat × Orb}
    (ha : advertiseOpened queueSize heap data slot s' = some a) :
    World.Inv oSize { w with orb := a.2 } ∧
      (∃ node, lookup a.2.map (nodePath oName f) = some (slot, node) ∧ node.advertised = true) ∧
      (a.1 = some slot ∨ a.1 = none ∧ heap = none ∧ data.isSome) ∧
      ∀ d, data = some d → a.1 ≠ none → ∀ b ∈ w.subs, b.oName = oName → b.inst = f →
        Sees a.2.map b.slot (oSize oName) (d.read 0 (oSize oName)) := by
  obtain ⟨hw', node, hlook, hflags, hadv, hspare'⟩ := ho.inv h
  have hslot := (lookup_eq_some.mp hlook).2
  obtain ⟨hgood, hresized⟩ := (hw'.good _ _ hslot).resize queueSize
  obtain ⟨q, hframe⟩ := resize_frame node queueSize
  rw [hframe] at hgood hresized
  obtain ⟨e, hcases⟩ := advertiseOpened_cases hslot hflags hframe ha
  rcases hcases with ⟨rfl, rfl⟩ | ⟨d, rfl, p, rfl, hs, hret⟩
  · obtain ⟨hinv, hfound⟩ := hw'.update hlook hadv rfl hgood e
    exact ⟨hinv, hfound, .inl rfl, fun d hd => nomatch hd⟩
  · have hsp := hresized (hspare' (hspare rfl))
    obtain ⟨generation, ring, hpub⟩ := publish_frame heap { node with queueSize := q } d
    obtain ⟨hinv, hfound⟩ := hw'.update hlook hadv (by rw [hpub]) (hgood.publish hsp heap d) e
    rw [hs]
    refine ⟨hinv, hfound, hret.imp And.right fun hn => ⟨hn.1, hn.2, rfl⟩, ?_⟩
    intro d' hd' hne b hb hbn hbi
    cases hd'
    obtain ⟨hok, -⟩ := hret.resolve_right fun hn => hne hn.1
    obtain ⟨n, hl, sd, hsd⟩ := hw'.subs b hb
    rw [hbn, hbi] at hl
    cases hlook.symm.trans hl
    rw [← hw'.sized oName f _ ho.lt hlook]
    exact publish_seen hslot hgood hsp hsd hok

/--
What a call of `orb_advertise_multi` owes its caller: the lowest instance that is not advertised,
where the subscriptions made before see its data; or, when nothing else stands in the way, all
instances were advertised.
-/
structure Owed (oSize : List Char → Nat) (w : World) (alloc : Nat → Alloc) (oName : List Char)
    (heap data : Option (Memory UInt8)) (r : Option Nat × Option Nat × Orb) : Prop where
  granted : ∀ slot, r.1 = some slot → ∃ f, r.2.1 = some f ∧ w.orb.Lowest oName f ∧
    ∀ d, data = some d → ∀ b ∈ w.subs, b.oName = oName → b.inst = f →
      Sees r.2.2.map b.slot (oSize oName) (d.read 0 (oSize oName))
  refused : r.1 = none → (uorbNodeMkpath oName (some 0)).isSome → (∀ g, alloc g = .ok) →
    (data.isSome → heap.isSome) → ∀ g < ORB_MULTI_MAX_INSTANCES, w.orb.taken oName g = true

theorem World.Inv.advertiseMulti (h : w.Inv oSize) {inst : Nat}
    (hok : Within w (.advertiseMulti alloc oName queueSize heap data (some inst)))
    {r : Option Nat × Option Nat × Orb}
    (hr : orbManagerAdvertiseMulti oSize alloc oName queueSize heap data (some inst) w.orb = some r) :
    (w.advertised oName r).Inv oSize ∧ Owed oSize w alloc oName heap data r := by
  obtain ⟨hmulti, hspare⟩ := hok
  obtain ⟨hharm, hcan⟩ := hmulti rfl
  obtain ⟨o, ho, hr⟩ := bind_eq_some_iff.mp hr
  rcases openMulti_cases h.sound hcan hharm ho with ⟨hret, ⟨e, he⟩, hall⟩ | ⟨f, hlow, hopened⟩
  · rw [if_pos hret] at hr
    cases hr
    refine ⟨?_, fun slot hslot => (by simp at hslot), fun _ hfits hmem _ => hall hfits hmem⟩
    show World.Inv oSize { w with orb := o.2.2 }
    rw [he]
    exact h.setErrno e
  · obtain ⟨slot, hslot, hinst, hopening⟩ := hopened.opening hlow
    rw [if_neg (by rw [hslot]; omega), hslot] at hr
    obtain ⟨a, ha, hr⟩ := bind_eq_some_iff.mp hr
    rw [← some.inj hr, hinst]
    obtain ⟨hinv, ⟨node, hlook, hadv⟩, hret, hseen⟩ := h.advertised hopening hspare ha
    rcases hret with hsome | ⟨hnone, hheap, hdata⟩
    · refine ⟨?_, fun slot' _ => ⟨f, rfl, hlow, fun d hd => hseen d hd (by rw [hsome]; simp)⟩,
        fun hn => absurd (hsome.symm.trans hn) (by simp)⟩
      show World.Inv oSize (World.advertised w oName (a.1, some f, a.2))
      rw [hsome]
      refine ⟨hinv.sound, hinv.good, hinv.sized, fun b hb => ?_, ?_, hinv.subs⟩
      · rcases mem_cons.mp hb with rfl | hb
        · exact ⟨hlow.1, node, hlook, hadv⟩
        · exact hinv.live b hb
      · -- whoever held the instance would have it advertised
        refine nodup_cons.mpr ⟨fun hmem => ?_, h.apart⟩
        obtain ⟨b, hb, hbe⟩ := mem_map.mp hmem
        obtain ⟨hbn, hbi⟩ := Prod.mk.inj hbe
        obtain ⟨-, n, hl, hadv'⟩ := h.live b hb
        rw [hbn, hbi] at hl
        have htaken := taken_of_lookup hl
        rw [hlow.2.1] at htaken
        exact absurd (htaken.trans hadv') (by decide)
    · refine ⟨?_, fun slot' hs => absurd (hnone.symm.trans hs) (by simp), fun _ _ _ hmem => ?_⟩
      · show World.Inv oSize (World.advertised w oName (a.1, some f, a.2))
        rw [hnone]
        exact hinv
      · rw [hheap] at hmem
        exact absurd (hmem hdata) (by simp)

theorem World.Inv.advertiseSingle (h : w.Inv oSize)
    (hok : Within w (.advertiseMulti alloc oName queueSize heap data none))
    {r : Option Nat × Option Nat × Orb}
    (hr : orbManagerAdvertiseMulti oSize alloc oName queueSize heap data none w.orb = some r) :
    (w.advertised oName r).Inv oSize := by
  obtain ⟨o, ho, hr⟩ := bind_eq_some_iff.mp hr
  have hworld : ∀ (a : Option Nat) (s : Orb), World.advertised w oName (a, none, s) = { w with orb := s } := by
    intro a s
    cases a <;> rfl
  rcases openPlain_cases h.sound (.inl rfl) (by simp) ho with ⟨hret, e, he⟩ | hopened
  · rw [if_pos hret] at hr
    cases hr
    show World.Inv oSize { w with orb := o.2.2 }
    rw [he]
    exact h.setErrno e
  · obtain ⟨slot, hslot, hinst, hopening⟩ := hopened.opening
    rw [if_neg (by rw [hslot]; omega), hslot] at hr
    obtain ⟨a, ha, hr⟩ := bind_eq_some_iff.mp hr
    rw [← some.inj hr, hinst, hworld]
    exact (h.advertised hopening hok.2 ha).1

/-- **Every call within the condition keeps the invariant.** -/
theorem World.Inv.step {w' : World} {c : Call} (h : w.Inv oSize) (hok : Within w c)
    (hs : w.step oSize c = some w') : w'.Inv oSize := by
  cases c with
  | setErrno errno =>
    cases hs
    exact h.setErrno errno
  | advertiseMulti alloc oName queueSize heap data inst =>
    obtain ⟨r, hr, rfl⟩ := map_eq_some_iff.mp hs
    cases inst with
    | none => exact h.advertiseSingle hok hr
    | some inst => exact (h.advertiseMulti hok hr).1
  | unadvertise handle =>
    obtain ⟨r, hr, rfl⟩ := map_eq_some_iff.mp hs
    exact h.unadvertise hr
  | subscribeMulti alloc mem oName inst =>
    obtain ⟨r, hr, rfl⟩ := map_eq_some_iff.mp hs
    exact h.subscribeMulti hok hr
  | unsubscribe sub =>
    simp only [World.step, map_eq_some_iff] at hs
    obtain ⟨r, hr, rfl⟩ := hs
    exact h.unsubscribe hok hr
  | publish heap handle data =>
    simp only [World.step, map_eq_some_iff] at hs
    obtain ⟨r, hr, rfl⟩ := hs
    exact h.publish hok hr
  | copy now size fd =>
    obtain ⟨r, hr, rfl⟩ := map_eq_some_iff.mp hs
    exact h.copy hr

end Keeps

/-! ## Every run -/

structure World.Allocated (oSize : List Char → Nat) (w : World) : Prop where
  apart : (w.live.map fun a => (a.oName, a.inst)).Nodup
  owed : ∀ alloc oName queueSize heap data inst r,
    Within w (.advertiseMulti alloc oName queueSize heap data (some inst)) →
    orbManagerAdvertiseMulti oSize alloc oName queueSize heap data (some inst) w.orb = some r →
    Owed oSize w alloc oName heap data r
  heard : ∀ adv ∈ w.live, ∀ sub ∈ w.subs, sub.oName = adv.oName → sub.inst = adv.inst →
    adv.slot = sub.slot ∧ ∀ heap data, Within w (.publish heap adv.slot data) →
      ∃ r, orbManagerPublish heap adv.slot data w.orb = some r ∧ (heap.isSome → r.1 = 0) ∧
        (r.1 = 0 → Sees r.2.map sub.slot (oSize sub.oName) (data.read 0 (oSize sub.oName)))

theorem World.Inv.heard {oSize : List Char → Nat} {w : World} (h : w.Inv oSize) {adv sub : Listed}
    (hadv : adv ∈ w.live) (hsub : sub ∈ w.subs) (hname : sub.oName = adv.oName)
    (hinst : sub.inst = adv.inst) :
    adv.slot = sub.slot ∧ ∀ heap data, Within w (.publish heap adv.slot data) →
      ∃ r, orbManagerPublish heap adv.slot data w.orb = some r ∧ (heap.isSome → r.1 = 0) ∧
        (r.1 = 0 → Sees r.2.map sub.slot (oSize sub.oName) (data.read 0 (oSize sub.oName))) := by
  obtain ⟨hlt, node, hlook, -⟩ := h.live adv hadv
  obtain ⟨node', hlook', sd, hsd⟩ := h.subs sub hsub
  rw [hname, hinst] at hlook'
  obtain ⟨hslots, rfl⟩ := Prod.mk.inj (some.inj (hlook.symm.trans hlook'))
  refine ⟨hslots, fun heap data hok => ?_⟩
  have hslot := (lookup_eq_some.mp hlook).2
  have hnode := getUorbnode_of_lookup hlook
  refine ⟨_, by unfold orbManagerPublish; rw [hnode], fun hheap => ?_, fun hret => ?_⟩
  · rcases publish_ret heap node data with hret | ⟨-, hno⟩
    · exact hret
    · rw [hno] at hheap
      cases hheap
  · have hseen := publish_seen hslot (h.good _ _ hslot) (hok node hnode) hsd hret
    have hsize : node.oSize = oSize adv.oName := h.sized _ _ _ hlt hlook
    rw [hsize] at hseen
    rw [hname, ← hslots]
    exact hseen

/--
**Instances are given out lowest first and to one advertiser each, and a subscription hears
whoever advertises its instance.**

For every run of calls, on any topics and with any `errno`, whose calls meet `Within`.
-/
theorem instances_allocated (oSize : List Char → Nat) (errno : Int) {w : World}
    (h : Reaches (World.step oSize) Within (World.start errno) w) : w.Allocated oSize := by
  have hinv : w.Inv oSize := h.invariant (P := World.Inv oSize) (inv_start oSize errno)
    fun w c w' hw hok hs => hw.step hok hs
  exact ⟨hinv.apart, fun _ _ _ _ _ _ _ hok hr => (hinv.advertiseMulti hok hr).2,
    fun adv hadv sub hsub hname hinst => hinv.heard hadv hsub hname hinst⟩

/-- A call of `orb_advertise_multi` without data and with all the memory it needs. -/
def plainAdvertise (oName : List Char) : Call :=
  .advertiseMulti (fun _ => .ok) oName 1 none none (some 0)

theorem subscribed_then_advertised :
    ∃ w, Reaches (World.step fun _ => 4) Within (World.start 0) w ∧
      w.live = [⟨['t'], 0, 0⟩] ∧ w.subs = [⟨['t'], 0, 0⟩] := by
  have hrun : ((World.step (fun _ => 4) (World.start 0) (.subscribeMulti (fun _ => .ok) true ['t'] 0)).bind
      fun w1 => (World.step (fun _ => 4) w1 (plainAdvertise ['t'])).map fun w2 =>
        (w1.orb.errno, w1.orb.map.freeSlot, w2.live, w2.subs))
      = some (0, 1, [⟨['t'], 0, 0⟩], [⟨['t'], 0, 0⟩]) := by decide +kernel
  obtain ⟨w1, h1, hrun⟩ := bind_eq_some_iff.mp hrun
  obtain ⟨w2, h2, hrun⟩ := map_eq_some_iff.mp hrun
  simp only [Prod.mk.injEq] at hrun
  obtain ⟨herrno, hfree, hlive, hsubs⟩ := hrun
  refine ⟨w2, .tail (.tail .refl ?_ h1) ?_ h2, hlive, hsubs⟩
  · exact fun _ => .inr (show NodeMap.empty.freeSlot ≠ nodemapLength by decide +kernel)
  · refine ⟨fun _ => ⟨fun he => ?_, fun f _ => .inr ?_⟩, fun hd => nomatch hd⟩
    · rw [herrno] at he
      cases he
    · show w1.orb.map.freeSlot ≠ nodemapLength
      rw [hfree]
      decide

theorem instances_allocated_heard :
    ∃ w, Reaches (World.step fun _ => 4) Within (World.start 0) w ∧
      w.live = [⟨['t'], 0, 0⟩] ∧ w.subs = [⟨['t'], 0, 0⟩] ∧ w.Allocated fun _ => 4 := by
  obtain ⟨w, hw, hlive, hsubs⟩ := subscribed_then_advertised
  exact ⟨w, hw, hlive, hsubs, instances_allocated _ _ hw⟩

/--
With `EEXIST` in `errno`, a fifth advertiser of a topic is let in, and shares the last instance
with the fourth.
-/
theorem fifth_advertiser_let_in :
    ∃ w, Reaches (World.step fun _ => 4) Always (World.start EEXIST) w ∧
      ¬(w.live.map fun a => (a.oName, a.inst)).Nodup := by
  have hrun : ((List.replicate 5 (plainAdvertise ['t'])).foldlM (World.step fun _ => 4)
      (World.start EEXIST)).map (fun w => w.live.map fun a => (a.oName, a.inst))
      = some [(['t'], 3), (['t'], 3), (['t'], 2), (['t'], 1), (['t'], 0)] := by decide +kernel
  obtain ⟨w, hw, hlive⟩ := map_eq_some_iff.mp hrun
  refine ⟨w, Reaches.of_foldlM _ hw, ?_⟩
  rw [hlive]
  decide

end Gpmx.Uorb
