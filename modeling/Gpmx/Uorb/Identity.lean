import Gpmx.Uorb.Subscribers

/-!
# uORB: which node a subscription refers to

A node is of one topic and one instance: `_meta` and `_instance`, which stand here in its entry of
`_node_list`. `orb_subscribe_multi` finds it by its path, the topic's name with the instance printed
behind it. The nodes have instances of one digit, so that no two of them have one path. The
instance of a subscriber may have more digits, and then the path is that of a topic whose name
ends in the first of them.

* `Orb.Grows` — what any call does to the nodes
* `Orb.Labelled` — the invariant: the path of a node says what it is
* `Strays` — when a subscription comes to another node
-/

namespace Gpmx.Uorb

open Infra Option List

/-- The node in slot `fd` is that of the topic and the instance. -/
def Orb.NodeOf (s : Orb) (fd : Int) (oName : List Char) (inst : Nat) : Prop :=
  ∃ n ∈ s.nodeList, (n.slot : Int) = fd ∧ n.oName = oName ∧ n.inst = inst

/-! ## The nodes of a run -/

inductive Orb.Grows (oSize : List Char → Nat) (s : Orb) : Orb → Prop
  | refl : Orb.Grows oSize s s
  | errno {s' : Orb} (h : Orb.Grows oSize s s') (e : Int) : Orb.Grows oSize s { s' with errno := e }
  | put {s' : Orb} {i : Nat} {node old : DeviceNode} (h : Orb.Grows oSize s s')
      (hslot : s'.map.slots[i]? = some (some old)) (hname : node.devname = old.devname) :
      Orb.Grows oSize s (s'.put i node)
  | create {s' : Orb} {oName : List Char} {g : Nat} {adv : Bool} (h : Orb.Grows oSize s s')
      (hg : g < ORB_MULTI_MAX_INSTANCES) (hnone : lookup s'.map (nodePath oName g) = none)
      (hroom : Room s'.map) : Orb.Grows oSize s (s'.create oSize oName g adv)

structure Orb.Labelled (s : Orb) : Prop where
  sound : s.Sound
  listed : ∀ (i : Nat) (node : DeviceNode), s.map.slots[i]? = some (some node) →
    ∃ n ∈ s.nodeList, n.slot = i
  named : ∀ n ∈ s.nodeList, n.inst < ORB_MULTI_MAX_INSTANCES ∧
    ∃ node, s.map.slots[n.slot]? = some (some node) ∧ node.devname = nodePath n.oName n.inst

section Nodes

variable {oSize : List Char → Nat} {s s' : Orb} {i : Nat} {node old : DeviceNode}

theorem Orb.Labelled.put (h : s.Labelled) (hslot : s.map.slots[i]? = some (some old))
    (hname : node.devname = old.devname) : (s.put i node).Labelled := by
  refine ⟨h.sound.put hslot hname, fun j m hj => ?_, fun n hn => ?_⟩
  · have hj : (s.map.slots.set i (some node))[j]? = some (some m) := hj
    by_cases hij : i = j
    · subst hij
      exact h.listed i old hslot
    · rw [getElem?_set_ne hij] at hj
      exact h.listed j m hj
  · obtain ⟨hlt, m, hm, hdev⟩ := h.named n hn
    refine ⟨hlt, ?_⟩
    show ∃ node', (s.map.slots.set i (some node))[n.slot]? = some (some node') ∧ _
    by_cases hin : i = n.slot
    · rw [← hin, hslot] at hm
      cases hm
      rw [← hin]
      exact ⟨node, getElem?_put hslot, hname.trans hdev⟩
    · rw [getElem?_set_ne hin]
      exact ⟨m, hm, hdev⟩

variable {oName : List Char} {g : Nat} {adv : Bool} {fd : Int} {mem : Bool}
    {r : Int × Option Nat × Orb} {path : List Char}

theorem Orb.Labelled.create (h : s.Labelled) (hg : g < ORB_MULTI_MAX_INSTANCES)
    (hnone : lookup s.map (nodePath oName g) = none) (hroom : Room s.map) :
    (s.create oSize oName g adv).Labelled := by
  have hfree := freeSlot_empty hroom
  refine ⟨h.sound.create hg hnone hroom, fun j m hj => ?_, fun n hn => ?_⟩
  · have hj : (s.map.slots.set s.map.freeSlot (some (freshNode oSize oName g adv)))[j]?
        = some (some m) := hj
    by_cases hij : s.map.freeSlot = j
    · exact ⟨_, mem_cons_self, hij⟩
    · rw [getElem?_set_ne hij] at hj
      obtain ⟨n, hn, hslot⟩ := h.listed j m hj
      exact ⟨n, mem_cons_of_mem _ hn, hslot⟩
  · rcases mem_cons.mp hn with rfl | hn
    · exact ⟨hg, _, freeSlot_put hroom _, rfl⟩
    · obtain ⟨hlt, m, hm, hdev⟩ := h.named n hn
      refine ⟨hlt, m, ?_, hdev⟩
      have hne : s.map.freeSlot ≠ n.slot := by
        intro he
        rw [← he, hfree] at hm
        cases hm
      show (s.map.slots.set s.map.freeSlot _)[n.slot]? = _
      rw [getElem?_set_ne hne]
      exact hm

/-- **Whatever a call does, the paths of the nodes say what they are.** -/
theorem Orb.Labelled.grows (h : s.Labelled) (hg : s.Grows oSize s') : s'.Labelled := by
  induction hg with
  | refl => exact h
  | errno _ e ih => exact ⟨⟨ih.sound.tidy, ih.sound.listed⟩, ih.listed, ih.named⟩
  | put _ hslot hname ih => exact ih.put hslot hname
  | create _ hlt hnone hroom ih => exact ih.create hlt hnone hroom

theorem labelled_start (errno : Int) : (Orb.start errno).Labelled := by
  have hempty : ∀ (i : Nat) (node : DeviceNode), NodeMap.empty.slots[i]? ≠ some (some node) := by
    intro i node hslot
    cases eq_of_mem_replicate (mem_of_getElem? hslot)
  refine ⟨(inv_start (fun _ => 0) errno).sound, fun i node hslot => ?_, fun n hn => ?_⟩
  · exact absurd hslot (hempty i node)
  · cases hn

theorem Orb.Labelled.nodeOf (h : s.Labelled) (hg : g < ORB_MULTI_MAX_INSTANCES)
    (hlook : lookup s.map (nodePath oName g) = some (i, node)) : s.NodeOf i oName g := by
  have hslot := (lookup_eq_some.mp hlook).2
  obtain ⟨n, hn, rfl⟩ := h.listed i node hslot
  obtain ⟨hlt, m, hm, hdev⟩ := h.named n hn
  cases hm.symm.trans hslot
  obtain ⟨hname, hinst⟩ := nodePath_injective (Nat.lt_trans hlt (by decide))
    (Nat.lt_trans hg (by decide)) (hdev.symm.trans (lookup_devname hlook))
  exact ⟨n, hn, rfl, hname, hinst⟩

/-- **A node is of one topic and one instance.** -/
theorem Orb.Labelled.unique (h : s.Labelled) {a b : List Char} {k : Nat} (ha : s.NodeOf fd a g)
    (hb : s.NodeOf fd b k) : a = b ∧ g = k := by
  obtain ⟨n, hn, hfd, rfl, rfl⟩ := ha
  obtain ⟨m, hm, hfd', rfl, rfl⟩ := hb
  have hslots : n.slot = m.slot := Int.ofNat.inj (hfd.trans hfd'.symm)
  obtain ⟨hlt, x, hx, hxn⟩ := h.named n hn
  obtain ⟨hlt', y, hy, hyn⟩ := h.named m hm
  rw [hslots] at hx
  cases hx.symm.trans hy
  exact nodePath_injective (Nat.lt_trans hlt (by decide)) (Nat.lt_trans hlt' (by decide))
    (hxn.symm.trans hyn)

theorem Orb.Labelled.inst_lt (h : s.Labelled) (ho : s.NodeOf fd oName g) :
    g < ORB_MULTI_MAX_INSTANCES := by
  obtain ⟨n, hn, -, -, rfl⟩ := ho
  exact (h.named n hn).1

end Nodes

/-! ## Every call -/

section Calls

variable {oSize : List Char → Nat} {s : Orb} {oName : List Char}

theorem Given.grows {s' : Orb} (hg : g < ORB_MULTI_MAX_INSTANCES) (h : Given oSize s oName g adv s') :
    s.Grows oSize s' := by
  cases h with
  | made hnone hroom => exact .create .refl hg hnone hroom
  | claimed hsome => exact .put .refl (lookup_eq_some.mp hsome).2 rfl

theorem open_grows (hs : s.Sound) {alloc : Nat → Alloc} {inst : Option Nat}
    (h : managerNodeOpen oSize alloc mem oName adv inst s = some r) :
    s.Grows oSize r.2.2 ∧ (r.1 = -1 ∨ ∃ (slot : Nat) (node : DeviceNode), r.1 = slot ∧
      r.2.2.map.slots[slot]? = some (some node) ∧ (adv = true → node.oflags = wronly)) := by
  rcases managerOpen_any hs h with ⟨hret, e, he⟩ | ⟨g, s', slot, old, node, hs', hlook, hopen, hret, hput⟩
  · rw [he]
    exact ⟨.errno .refl e, .inl hret⟩
  · have hslot := (lookup_eq_some.mp hlook).2
    have hgrows : s.Grows oSize s' := by
      rcases hs' with rfl | ⟨hg, hgiven⟩
      · exact .refl
      · exact hgiven.grows hg
    rw [hput]
    refine ⟨.put hgrows hslot (open_names hopen).1, .inr ⟨slot, node, hret, getElem?_put hslot, ?_⟩⟩
    rintro rfl
    cases hopen
    rfl

theorem advertise_grows (hs : s.Sound) {alloc : Nat → Alloc} {queueSize : Nat}
    {heap data : Option (Memory UInt8)} {inst : Option Nat} {r : Option Nat × Option Nat × Orb}
    (h : orbManagerAdvertiseMulti oSize alloc oName queueSize heap data inst s = some r) :
    s.Grows oSize r.2.2 := by
  obtain ⟨o, ho, h⟩ := bind_eq_some_iff.mp h
  obtain ⟨hgrows, hret | ⟨slot, node, hret, hslot, hflags⟩⟩ := open_grows hs ho
  · rw [if_pos hret] at h
    cases h
    exact hgrows
  · rw [if_neg (by rw [hret]; omega), hret] at h
    obtain ⟨a, ha, h⟩ := bind_eq_some_iff.mp h
    cases h
    obtain ⟨q, hframe⟩ := resize_frame node queueSize
    obtain ⟨e, hcases⟩ := advertiseOpened_cases hslot (hflags rfl) hframe ha
    rcases hcases with ⟨-, rfl⟩ | ⟨d, -, p, rfl, hs, -⟩
    · exact .errno (.put hgrows hslot (by rfl)) e
    · obtain ⟨generation, ring, hpub⟩ := publish_frame heap { node with queueSize := q } d
      rw [hs]
      exact .errno (.put hgrows hslot (by rw [hpub])) e

theorem unadvertise_grows {handle : Option Nat} {r : Int × Orb}
    (h : orbManagerUnadvertise handle s = some r) : s.Grows oSize r.2 := by
  cases handle with
  | none =>
    cases h
    exact .refl
  | some slot =>
    obtain ⟨node, hslot, rfl⟩ := unadvertise_cases h
    exact .put .refl hslot rfl

theorem unsubscribe_grows {r : Int × NodeMap} (h : orbManagerUnsubscribe s.map fd = some r) :
    s.Grows oSize { s with map := r.2 } := by
  obtain rfl | ⟨i, node, rfl, hslot, h⟩ := handle_cases h
  · exact .refl
  · obtain ⟨c, hc, h⟩ := bind_eq_some_iff.mp h
    cases h
    obtain ⟨priv, count, hframe⟩ := close_frame hc
    rw [Int.toNat_natCast]
    exact .put .refl hslot (by rw [hframe])

theorem publish_grows {heap : Option (Memory UInt8)} {handle : Nat} {data : Memory UInt8}
    {r : Int × Orb} (h : orbManagerPublish heap handle data s = some r) : s.Grows oSize r.2 := by
  obtain ⟨node, hslot, rfl⟩ := publish_cases h
  obtain ⟨generation, ring, hframe⟩ := publish_frame heap node data
  exact .put .refl hslot (by rw [hframe])

theorem copy_grows {now size : Nat} {r : (Int × List UInt8) × NodeMap}
    (h : orbManagerCopy now s.map size fd = some r) : s.Grows oSize { s with map := r.2 } := by
  obtain rfl | ⟨i, node, rfl, hslot, h⟩ := handle_cases h
  · exact .refl
  · obtain ⟨q, hq, h⟩ := bind_eq_some_iff.mp h
    cases h
    obtain ⟨priv, hframe⟩ := read_frame hq
    rw [Int.toNat_natCast]
    exact .put .refl hslot (by rw [hframe])

/-- **What a call does to the nodes.** -/
theorem World.step_grows {w w' : World} {c : Call} (hs : w.orb.Sound)
    (h : w.step oSize c = some w') : w.orb.Grows oSize w'.orb := by
  cases c with
  | setErrno e =>
    cases h
    exact .errno .refl e
  | advertiseMulti alloc oName queueSize heap data inst =>
    obtain ⟨r, hr, rfl⟩ := map_eq_some_iff.mp h
    have horb : (w.advertised oName r).orb = r.2.2 := by
      unfold World.advertised
      split <;> rfl
    rw [horb]
    exact advertise_grows hs hr
  | unadvertise handle =>
    obtain ⟨r, hr, rfl⟩ := map_eq_some_iff.mp h
    exact unadvertise_grows hr
  | subscribeMulti alloc mem oName inst =>
    obtain ⟨r, hr, rfl⟩ := map_eq_some_iff.mp h
    obtain ⟨o, ho, hr⟩ := bind_eq_some_iff.mp hr
    cases hr
    have horb : (w.subscribed oName inst (o.1, o.2.2)).orb = o.2.2 := by
      unfold World.subscribed
      split <;> rfl
    rw [horb]
    exact (open_grows hs ho).1
  | unsubscribe sub =>
    simp only [World.step, map_eq_some_iff] at h
    obtain ⟨r, hr, rfl⟩ := h
    exact unsubscribe_grows hr
  | publish heap handle data =>
    simp only [World.step, map_eq_some_iff] at h
    obtain ⟨r, hr, rfl⟩ := h
    exact publish_grows hr
  | copy now size fd =>
    obtain ⟨r, hr, rfl⟩ := map_eq_some_iff.mp h
    exact copy_grows hr

theorem labelled_of_reaches {errno : Int} {w : World}
    (h : Reaches (World.step oSize) Always (World.start errno) w) : w.orb.Labelled :=
  h.invariant (P := fun w => w.orb.Labelled) (labelled_start errno)
    fun _ _ _ hw _ hs => hw.grows (World.step_grows hw.sound hs)

end Calls

/-! ## The walk of a subscriber -/

/--
From an instance without a node, the walk of the master passes over instances without nodes and
comes to one that has its node. Without memory for the path it stops there, and the manager goes
on nevertheless if `errno` says that the node exists.
-/
structure Orb.WalksTo (s : Orb) (alloc : Nat → Alloc) (oName : List Char) (inst f : Nat) : Prop where
  later : inst < f
  lt : f < ORB_MULTI_MAX_INSTANCES
  passed : ∀ j, inst ≤ j → j < f → lookup s.map (nodePath oName j) = none ∧ alloc j = .ok
  found : lookup s.map (nodePath oName f) ≠ none
  opens : alloc f = .ok ∨ alloc f = .noPath ∧ s.errno = EEXIST

/--
The subscriptions that come to the node of another topic or instance.

* The path of an instance that cannot exist is that of a node.
* `node_map` is full, and the walk goes past the instance to a later one.
-/
inductive Strays (s : Orb) (alloc : Nat → Alloc) (oName : List Char) (inst : Nat) : Prop
  | digits {path : List Char} (hge : ORB_MULTI_MAX_INSTANCES ≤ inst)
      (hpath : uorbNodeMkpath oName (some inst) = some path) (hsome : lookup s.map path ≠ none)
  | full {f : Nat} (hfits : (uorbNodeMkpath oName (some inst)).isSome) (hroom : ¬Room s.map)
      (hwalk : s.WalksTo alloc oName inst f)

section Walk

variable {oSize : List Char → Nat} {s : Orb} {oName : List Char} {alloc : Nat → Alloc} {inst : Nat}

theorem passes_subscriber (hs : s.Sound) {j : Nat} (hj : j < ORB_MULTI_MAX_INSTANCES)
    (h : s.Passes oSize alloc oName false j) :
    lookup s.map (nodePath oName j) = none ∧ alloc j = .ok := by
  obtain ⟨ret, hret, ht⟩ := h
  rcases try_cases hs hj ht with ⟨-, hne⟩ | ⟨hok, hno, -⟩ | ⟨-, hadv, -⟩ | ⟨-, -, s', -, hne⟩
  · cases hne
  · refine ⟨?_, hok⟩
    by_contra hsome
    exact hno (.inl hsome)
  · cases hadv
  · cases hne
    exact absurd rfl hret

theorem given_full (hroom : ¬Room s.map) {f : Nat} {s' : Orb}
    (h : Given oSize s oName f false s') :
    s' = s ∧ lookup s.map (nodePath oName f) ≠ none := by
  cases h with
  | made _ hfree => exact absurd hfree hroom
  | claimed hsome =>
    refine ⟨?_, by rw [hsome]; exact Option.some_ne_none _⟩
    simp [Orb.put, put_self (lookup_eq_some.mp hsome).2]

theorem walk_ends (hs : s.Sound) (hroom : ¬Room s.map)
    (hnone : lookup s.map (nodePath oName inst) = none) (hlt : inst < ORB_MULTI_MAX_INSTANCES)
    (hfits : uorbNodeMkpath oName (some inst) = some path)
    (h : uorbDeviceMasterAdvertise oSize alloc oName false (some inst) s = some r) :
    ∃ f, inst ≤ f ∧ f < ORB_MULTI_MAX_INSTANCES ∧ r.2 = (some f, s) ∧
      (∀ j, inst ≤ j → j < f → lookup s.map (nodePath oName j) = none ∧ alloc j = .ok) ∧
      (r.1 = -ENOMEM ∧ (alloc f = .noPath ∨
          f + 1 = ORB_MULTI_MAX_INSTANCES ∧ lookup s.map (nodePath oName f) = none) ∨
        r.1 = 0 ∧ alloc f = .ok ∧ inst < f ∧ lookup s.map (nodePath oName f) ≠ none) := by
  have h10 : inst < 10 := Nat.lt_trans hlt (by decide)
  have hpath : ∀ j < ORB_MULTI_MAX_INSTANCES, setInstance path j = nodePath oName j := by
    intro j hj
    rw [(mkpath_some hfits).1, getD_some]
    exact setInstance_nodePath h10 (Nat.lt_trans hj (by decide))
  simp only [uorbDeviceMasterAdvertise, hfits, if_neg (Nat.not_le_of_lt hlt)] at h
  obtain ⟨l, hl, h⟩ := bind_eq_some_iff.mp h
  cases h
  obtain ⟨f, hle, hf, hpass, hend⟩ := loop_stops hs hpath (ORB_MULTI_MAX_INSTANCES - 1 - inst) inst
    (by omega) hl
  have hover : ∀ j, inst ≤ j → j < f → lookup s.map (nodePath oName j) = none ∧ alloc j = .ok :=
    fun j hj hjf => passes_subscriber hs (Nat.lt_trans hjf hf) (hpass j hj hjf)
  rcases hend with ⟨hno, rfl⟩ | ⟨s', ht, rfl⟩ | ⟨hlast, hfail, rfl⟩
  · exact ⟨f, hle, hf, rfl, hover, .inl ⟨rfl, .inl hno⟩⟩
  · rcases try_cases hs hf ht with ⟨-, hne⟩ | ⟨-, -, ret, hret, hne⟩ | ⟨-, hadv, -⟩ |
      ⟨hok, -, t, hgiven, he⟩
    · cases hne
    · cases hne
      exact absurd rfl hret
    · cases hadv
    · cases he
      obtain ⟨rfl, hfound⟩ := given_full hroom hgiven
      refine ⟨f, hle, hf, rfl, hover, .inr ⟨rfl, hok, Nat.lt_of_le_of_ne hle ?_, hfound⟩⟩
      rintro rfl
      exact hfound hnone
  · exact ⟨f, hle, hf, rfl, hover, .inl ⟨rfl, .inr ⟨hlast, (passes_subscriber hs hf hfail).1⟩⟩⟩

theorem walksTo_iff {f : Nat} (hle : inst ≤ f) (hf : f < ORB_MULTI_MAX_INSTANCES)
    (hnone : lookup s.map (nodePath oName inst) = none)
    (hover : ∀ j, inst ≤ j → j < f → lookup s.map (nodePath oName j) = none ∧ alloc j = .ok)
    (hend : alloc f = .noPath ∨
      f + 1 = ORB_MULTI_MAX_INSTANCES ∧ lookup s.map (nodePath oName f) = none) :
    (∃ f', s.WalksTo alloc oName inst f') ↔
      s.errno = EEXIST ∧ lookup s.map (nodePath oName f) ≠ none := by
  constructor
  · rintro ⟨f', hwalk⟩
    have hff : f' = f := by
      rcases Nat.lt_trichotomy f' f with hlt | heq | hgt
      · exact absurd (hover f' (Nat.le_of_lt hwalk.later) hlt).1 hwalk.found
      · exact heq
      · rcases hend with hno | ⟨hlast, -⟩
        · exact absurd ((hwalk.passed f hle hgt).2.symm.trans hno) (by decide)
        · have := hwalk.lt
          omega
    subst hff
    refine ⟨?_, hwalk.found⟩
    have hno := hend.resolve_right fun h => hwalk.found h.2
    rcases hwalk.opens with hok | ⟨-, herrno⟩
    · exact absurd (hok.symm.trans hno) (by decide)
    · exact herrno
  · rintro ⟨herrno, hfound⟩
    have hno := hend.resolve_right fun h => hfound h.2
    refine ⟨f, Nat.lt_of_le_of_ne hle ?_, hf, hover, hfound, .inr ⟨hno, herrno⟩⟩
    rintro rfl
    exact hfound hnone

theorem open_full (hs : s.Sound) (hroom : ¬Room s.map)
    (hnone : lookup s.map (nodePath oName inst) = none) (hlt : inst < ORB_MULTI_MAX_INSTANCES)
    (hfits : uorbNodeMkpath oName (some inst) = some path)
    (h : managerNodeOpen oSize alloc mem oName false (some inst) s = some r) :
    (r.1 = -1 ∧ ¬∃ f, s.WalksTo alloc oName inst f) ∨
      ∃ f slot old node, s.WalksTo alloc oName inst f ∧
        lookup s.map (nodePath oName f) = some (slot, old) ∧ node.devname = old.devname ∧
        r.1 = (slot : Nat) ∧ r.2.2 = s.put slot node := by
  have hopened : ∀ {f slot old o}, lookup s.map (nodePath oName f) = some (slot, old) →
      unodeOpen mem s.map (nodePath oName f) (openFlags false) = some o →
      ∃ node : DeviceNode, node.devname = old.devname ∧ o = ((slot : Int), s.map.put slot node) := by
    intro f slot old o hlook ho
    obtain ⟨node, hopen, ho⟩ := unodeOpen_ok hlook ho
    exact ⟨node, (open_names hopen).1, ho⟩
  simp only [managerNodeOpen, or_true, if_true, hfits, (mkpath_some hfits).1, getD_some,
    unodeOpen_missing hnone, bind_eq_bind, bind_some,
    if_pos (show (-1 : Int) < 0 by decide)] at h
  obtain ⟨m, hm, h⟩ := bind_eq_some_iff.mp h
  obtain ⟨f, hle, hf, hsame, hover, hcases⟩ := walk_ends hs hroom hnone hlt hfits hm
  obtain ⟨ret, tried⟩ := m
  obtain rfl : tried = (some f, s) := hsame
  have hpath := (mkpath_eq (Nat.lt_trans hlt (by decide)) (Nat.lt_trans hf (by decide)) hfits).2
  have hreopen : ∀ {slot old}, lookup s.map (nodePath oName f) = some (slot, old) →
      (unodeOpen mem s.map (nodePath oName f) rdonly).bind (fun o =>
        if o.1 < 0 then some (-1, some f, { s with map := o.2, errno := EIO })
        else some (o.1, some f, { s with map := o.2 })) = some r →
      ∃ node : DeviceNode, node.devname = old.devname ∧ r.1 = (slot : Nat) ∧
        r.2.2 = s.put slot node := by
    intro slot old hlook hr
    obtain ⟨o, ho, hr⟩ := bind_eq_some_iff.mp hr
    obtain ⟨node, hname, rfl⟩ := hopened hlook ho
    have hpos : ¬((slot : Int) < 0) := by omega
    rw [if_neg hpos] at hr
    cases hr
    exact ⟨node, hname, rfl, rfl⟩
  rcases hcases with ⟨hret, hend⟩ | ⟨hret, hok, hlater, hfound⟩
  · have hret : ret = -ENOMEM := hret
    have hne : ¬(-ENOMEM = 0) := by decide
    have hiff := walksTo_iff hle hf hnone hover hend
    simp only [hret, hne, false_or, hpath] at h
    split at h
    · rename_i herrno
      cases hlook : lookup s.map (nodePath oName f) with
      | none =>
        rw [unodeOpen_missing hlook] at h
        simp only [bind_eq_bind, bind_some, if_pos (show (-1 : Int) < 0 by decide)] at h
        cases h
        exact .inl ⟨rfl, fun hwalk => (hiff.mp hwalk).2 hlook⟩
      | some found =>
        obtain ⟨slot, old⟩ := found
        have hfound : lookup s.map (nodePath oName f) ≠ none := by
          rw [hlook]
          exact Option.some_ne_none _
        obtain ⟨node, hname, hr⟩ := hreopen hlook h
        have hno := hend.resolve_right fun hn => hfound hn.2
        refine .inr ⟨f, slot, old, node, ⟨Nat.lt_of_le_of_ne hle ?_, hf, hover, hfound, .inr ⟨hno, herrno⟩⟩,
          hlook, hname, hr⟩
        rintro rfl
        exact hfound hnone
    · rename_i herrno
      cases h
      exact .inl ⟨rfl, fun hwalk => herrno (hiff.mp hwalk).1⟩
  · have hret : ret = 0 := hret
    simp only [hret, true_or, if_true, hpath] at h
    obtain ⟨⟨slot, old⟩, hlook⟩ := ne_none_iff_exists'.mp hfound
    obtain ⟨node, hname, hr⟩ := hreopen hlook h
    exact .inr ⟨f, slot, old, node, ⟨hlater, hf, hover, hfound, .inl hok⟩, hlook, hname, hr⟩

theorem open_there {i : Nat} {old : DeviceNode}
    (hfits : uorbNodeMkpath oName (some inst) = some path)
    (hlook : lookup s.map (nodePath oName inst) = some (i, old))
    (h : managerNodeOpen oSize alloc mem oName false (some inst) s = some r) :
    ∃ node : DeviceNode, node.devname = old.devname ∧ r.1 = (i : Nat) ∧ r.2.2 = s.put i node := by
  simp only [managerNodeOpen, or_true, if_true, hfits, (mkpath_some hfits).1, getD_some] at h
  obtain ⟨o, ho, h⟩ := bind_eq_some_iff.mp h
  have ho : unodeOpen mem s.map (nodePath oName inst) (openFlags false) = some o := ho
  obtain ⟨node, hopen, rfl⟩ := unodeOpen_ok hlook ho
  have hpos : ¬((i : Int) < 0) := by omega
  rw [if_neg hpos] at h
  cases h
  exact ⟨node, (open_names hopen).1, rfl, rfl⟩

theorem not_strays (hdigits : ORB_MULTI_MAX_INSTANCES ≤ inst → lookup s.map (nodePath oName inst) = none)
    (hfull : inst < ORB_MULTI_MAX_INSTANCES →
      lookup s.map (nodePath oName inst) ≠ none ∨ Room s.map) : ¬Strays s alloc oName inst := by
  intro hstrays
  cases hstrays with
  | digits hge hpath hsome =>
    rw [(mkpath_some hpath).1] at hsome
    exact hsome (hdigits hge)
  | full _ hroom hwalk =>
    rcases hfull (Nat.lt_trans hwalk.later hwalk.lt) with hsome | hfree
    · exact hsome (hwalk.passed inst (Nat.le_refl inst) hwalk.later).1
    · exact hroom hfree

/-- **A subscription fails or comes to the node it asks for, unless it strays.** -/
theorem subscribe_exact (hs : s.Labelled) {r : Int × Orb}
    (h : orbManagerSubscribeMulti oSize alloc mem oName inst s = some r) :
    r.1 = -1 ∨ r.2.NodeOf r.1 oName inst ↔ ¬Strays s alloc oName inst := by
  obtain ⟨o, ho, h⟩ := bind_eq_some_iff.mp h
  have hgrown : o.2.2.Labelled := hs.grows (open_grows hs.sound ho).1
  cases h
  have hnonneg : ∀ i : Nat, (i : Int) ≠ -1 := by omega
  cases hfits : uorbNodeMkpath oName (some inst) with
  | none =>
    simp only [managerNodeOpen, or_true, if_true, hfits] at ho
    cases ho
    refine iff_of_true (.inl rfl) fun hstrays => ?_
    cases hstrays with
    | digits _ hpath _ => cases hfits.symm.trans hpath
    | full hsome _ _ => rw [hfits] at hsome; cases hsome
  | some path =>
    cases hlook : lookup s.map (nodePath oName inst) with
    | some found =>
      obtain ⟨i, old⟩ := found
      obtain ⟨node, hname, hret, hput⟩ := open_there hfits hlook ho
      by_cases hlt : inst < ORB_MULTI_MAX_INSTANCES
      · have hself : lookup o.2.2.map (nodePath oName inst) = some (i, node) := by
          rw [hput]
          exact lookup_put_self hs.sound.tidy hlook hname
        refine iff_of_true (.inr ?_) (not_strays (fun hge => absurd hlt (Nat.not_lt_of_le hge)) ?_)
        · rw [hret]
          exact hgrown.nodeOf hlt hself
        · intro _
          rw [hlook]
          exact .inl (Option.some_ne_none _)
      · -- no node has such an instance
        refine iff_of_false ?_ (not_not_intro (.digits (Nat.le_of_not_lt hlt) hfits ?_))
        · rintro (hfail | hof)
          · exact hnonneg i (hret.symm.trans hfail)
          · exact hlt (hgrown.inst_lt hof)
        · rw [(mkpath_some hfits).1]
          show lookup s.map (nodePath oName inst) ≠ none
          rw [hlook]
          exact Option.some_ne_none _
    | none =>
      by_cases hwalks : inst < ORB_MULTI_MAX_INSTANCES ∧ ¬Room s.map
      · obtain ⟨hlt, hroom⟩ := hwalks
        rcases open_full hs.sound hroom hlook hlt hfits ho with
          ⟨hret, hnone⟩ | ⟨f, slot, old, node, hwalk, hfound, hname, hret, hput⟩
        · refine iff_of_true (.inl hret) fun hstrays => ?_
          cases hstrays with
          | digits hge _ _ => exact absurd hlt (Nat.not_lt_of_le hge)
          | full _ _ hwalk => exact hnone ⟨_, hwalk⟩
        · refine iff_of_false ?_ (not_not_intro (.full (by rw [hfits]; rfl) hroom hwalk))
          rintro (hfail | hof)
          · exact hnonneg slot (hret.symm.trans hfail)
          · -- the node is that of the later instance
            have hself : lookup o.2.2.map (nodePath oName f) = some (slot, node) := by
              rw [hput]
              exact lookup_put_self hs.sound.tidy hfound hname
            rw [hret] at hof
            obtain ⟨-, hinst⟩ := hgrown.unique hof (hgrown.nodeOf hwalk.lt hself)
            exact absurd hinst (Nat.ne_of_lt hwalk.later)
      · have hfree : inst < ORB_MULTI_MAX_INSTANCES → Room s.map := by
          intro hlt
          by_contra hroom
          exact hwalks ⟨hlt, hroom⟩
        have hno : ¬Strays s alloc oName inst :=
          not_strays (fun _ => hlook) fun hlt => .inr (hfree hlt)
        have hcan : ∀ g, some inst = some g → g < ORB_MULTI_MAX_INSTANCES → s.CanHave oName g := by
          rintro g hg hlt
          cases hg
          exact .inr (hfree hlt)
        rcases openPlain_cases hs.sound (.inr rfl) hcan ho with
          ⟨hret, -⟩ | ⟨s', slot, old, node, hs', hfound, hopen, rfl⟩
        · exact iff_of_true (.inl hret) hno
        · refine iff_of_true (.inr ?_) hno
          rcases hs' with rfl | ⟨hlt, hgiven⟩
          · cases hlook.symm.trans hfound
          · have hkept := hs.grows (hgiven.grows hlt)
            exact hgrown.nodeOf hlt (lookup_put_self hkept.sound.tidy hfound (open_names hopen).1)

end Walk

/--
**A subscription refers to the topic and the instance that were asked for, exactly when it does
not stray.** A node is of one topic and one instance, in every state of every run.
-/
theorem subscription_refers (oSize : List Char → Nat) (errno : Int) {w : World}
    (h : Reaches (World.step oSize) Always (World.start errno) w) :
    (∀ fd a g b k, w.orb.NodeOf fd a g → w.orb.NodeOf fd b k → a = b ∧ g = k) ∧
      ∀ (alloc : Nat → Alloc) (mem : Bool) (oName : List Char) (inst : UInt32) (r : Int × Orb),
        orbManagerSubscribeMulti oSize alloc mem oName inst.toNat w.orb = some r →
        (r.1 = -1 ∨ r.2.NodeOf r.1 oName inst.toNat ↔ ¬Strays w.orb alloc oName inst.toNat) := by
  have hlabelled := labelled_of_reaches h
  constructor
  · intro fd a g b k ha hb
    exact hlabelled.unique ha hb
  · intro alloc mem oName inst r hr
    exact subscribe_exact hlabelled hr

def askAfter (advertised asked : List Char) (inst : UInt32) : Option (World × Int × Orb) := do
  let w ← World.step (fun _ => 4) (World.start 0) (plainAdvertise advertised)
  let r ← orbManagerSubscribeMulti (fun _ => 4) (fun _ => .ok) true asked inst.toNat w.orb
  some (w, r)

theorem askAfter_some {advertised asked : List Char} {inst : UInt32} {x : World × Int × Orb}
    (h : askAfter advertised asked inst = some x) :
    Reaches (World.step fun _ => 4) Always (World.start 0) x.1 ∧
      orbManagerSubscribeMulti (fun _ => 4) (fun _ => .ok) true asked inst.toNat x.1.orb = some x.2 := by
  obtain ⟨w, hw, h⟩ := bind_eq_some_iff.mp h
  obtain ⟨r, hr, h⟩ := bind_eq_some_iff.mp h
  cases h
  exact ⟨.tail .refl trivial hw, hr⟩

/-- A subscriber to instance 0 of an advertised topic. -/
theorem subscription_refers_advertised :
    ∃ (w : World) (r : Int × Orb), Reaches (World.step fun _ => 4) Always (World.start 0) w ∧
      orbManagerSubscribeMulti (fun _ => 4) (fun _ => .ok) true ['t'] 0 w.orb = some r ∧
      ¬Strays w.orb (fun _ => .ok) ['t'] 0 ∧ (r.1 = -1 ∨ r.2.NodeOf r.1 ['t'] 0) := by
  have hrun : ((askAfter ['t'] ['t'] 0).map fun x => (lookup x.1.orb.map (nodePath ['t'] 0)).isSome)
      = some true := by decide +kernel
  obtain ⟨⟨w, r⟩, hx, hfound⟩ := map_eq_some_iff.mp hrun
  obtain ⟨hw, hr⟩ := askAfter_some hx
  have hno : ¬Strays w.orb (fun _ => .ok) ['t'] 0 :=
    not_strays (fun hge => absurd hge (by decide)) fun _ => .inl (isSome_iff_ne_none.mp hfound)
  exact ⟨w, r, hw, hr, hno, ((subscription_refers _ _ hw).2 _ _ _ 0 _ hr).mpr hno⟩

/-- Instance 10 of `foo` is the node of instance 0 of `foo1`. -/
theorem subscription_to_other_topic :
    ∃ (w : World) (r : Int × Orb), Reaches (World.step fun _ => 4) Always (World.start 0) w ∧
      orbManagerSubscribeMulti (fun _ => 4) (fun _ => .ok) true ['f', 'o', 'o']
        (10 : UInt32).toNat w.orb = some r ∧
      r.2.NodeOf r.1 ['f', 'o', 'o', '1'] 0 ∧
      ¬(r.1 = -1 ∨ r.2.NodeOf r.1 ['f', 'o', 'o'] (10 : UInt32).toNat) := by
  have hrun : ((askAfter ['f', 'o', 'o', '1'] ['f', 'o', 'o'] 10).map fun x => (x.2.1, x.2.2.nodeList))
      = some (0, [⟨['f', 'o', 'o', '1'], 0, 0⟩]) := by decide +kernel
  obtain ⟨⟨w, r⟩, hx, hr⟩ := map_eq_some_iff.mp hrun
  obtain ⟨hfd, hlist⟩ := Prod.mk.inj hr
  have hfd : r.1 = 0 := hfd
  have hlist : r.2.nodeList = [⟨['f', 'o', 'o', '1'], 0, 0⟩] := hlist
  obtain ⟨hw, hask⟩ := askAfter_some hx
  refine ⟨w, r, hw, hask, ⟨⟨['f', 'o', 'o', '1'], 0, 0⟩, by rw [hlist]; exact mem_singleton_self _,
    hfd.symm, rfl, rfl⟩, ?_⟩
  rintro (hfail | ⟨n, hn, -, hname, -⟩)
  · rw [hfd] at hfail
    cases hfail
  · rw [hlist] at hn
    obtain rfl := mem_singleton.mp hn
    cases hname

end Gpmx.Uorb
