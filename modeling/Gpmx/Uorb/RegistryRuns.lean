import Gpmx.Infra.Runs
import Gpmx.Uorb.Registry

/-!
# uORB: list, bits and map agree

In every state that the calls reach, the node list has each instance of a topic once, the bit of an
instance is set exactly when its node is listed, and the path of a listed node is in `node_map` in
one slot, that of the node. The rest is what others have registered there.

An advertise that fails has changed nothing, whether `node_map` is full, another one has the path, or
there is no memory for the path. Without memory for the node it does not get to fail:
`uorb_device_node_init` writes through the pointer before it is checked.

* `Registry.Change` — what a call can do to the three
* `Registry.Kept` — the invariant
* `Registry.Starves` — the advertise comes to a node that it gets no memory for
-/

namespace Gpmx.Uorb

open Infra Container Option List

variable {topics : Topics}

variable {id : topics.Id} {node : DeviceNode} {g : Nat} {oName : List Char} {alloc : Nat → Alloc}
    {inst : Option Nat} {res : Int × Option Nat × Registry topics} {mem : Bool}

variable {id' : topics.Id} {i : Nat} {map : NodeMap} {path : List Char} {k : Nat} {n : Listed}
    {hg : g < ORB_MULTI_MAX_INSTANCES} {r'' : Registry topics}

theorem Topics.oName_injective (h : topics.oName id = topics.oName id') :
    id = id' := Fin.ext (topics.nodup.getElem_inj_iff.mp h)

theorem Topics.oId_injective (h : topics.oId id = topics.oId id') : id = id' := by
  have hlt : id.val < 2 ^ 8 := Nat.lt_trans id.isLt topics.fits
  have hlt' : id'.val < 2 ^ 8 := Nat.lt_trans id'.isLt topics.fits
  have hmod : id.val % 2 ^ 8 = id'.val % 2 ^ 8 := congrArg Fin.val h
  rw [Nat.mod_eq_of_lt hlt, Nat.mod_eq_of_lt hlt'] at hmod
  exact Fin.ext hmod

/-! ## Taking a node out of `node_map` -/

section Unregister

variable {map : NodeMap} {name : List Char}

theorem unregister_slots (ht : Tidy map) (name : List Char) (j : Nat) (node : DeviceNode) :
    (unregisterUorbDriver map name).2.slots[j]? = some (some node)
      ↔ map.slots[j]? = some (some node) ∧ node.devname ≠ name := by
  unfold unregisterUorbDriver
  split
  · rename_i hnone
    refine ⟨fun h => ⟨h, fun hname => ?_⟩, And.left⟩
    have hl := ht j node h
    rw [hname, lookup_eq_none.mpr hnone] at hl
    cases hl
  · rename_i hsome
    obtain ⟨⟨i, old⟩, hl⟩ := ne_none_iff_exists'.mp (mt lookup_eq_none.mp hsome)
    obtain ⟨hfind, hslot⟩ := lookup_eq_some.mp hl
    show (map.slots.set (getUorbnodefd map name) none)[j]? = _ ↔ _
    rw [hfind]
    by_cases hij : i = j
    · subst hij
      obtain ⟨hlt, -⟩ := List.getElem?_eq_some_iff.mp hslot
      rw [getElem?_set_self hlt]
      refine ⟨fun h => by simp at h, fun h => ?_⟩
      cases hslot.symm.trans h.1
      exact absurd (lookup_devname hl) h.2
    · rw [getElem?_set_ne hij]
      refine ⟨fun h => ⟨h, fun hname => ?_⟩, And.left⟩
      have hl' := ht j node h
      rw [hname, hl] at hl'
      cases hl'
      exact hij rfl

theorem lookup_of_slot (hslot : map.slots[i]? = some (some node))
    (honly : ∀ j n, map.slots[j]? = some (some n) → n.devname = node.devname → j = i) :
    lookup map node.devname = some (i, node) := by
  cases hl : lookup map node.devname with
  | none =>
    have hany : map.slots.any (isNamed node.devname) = true :=
      any_eq_true.mpr ⟨_, mem_of_getElem? hslot, by simp [isNamed]⟩
    exact absurd hl (any_named_iff.mp hany)
  | some r =>
    obtain ⟨j, n⟩ := r
    have hj := (lookup_eq_some.mp hl).2
    obtain rfl := honly j n hj (lookup_devname hl)
    rw [hslot] at hj
    cases hj
    rfl

theorem Tidy.unregister (ht : Tidy map) (name : List Char) :
    Tidy (unregisterUorbDriver map name).2 := by
  intro i node h
  refine lookup_of_slot h fun j n hj hname => ?_
  have hl := ht i node ((unregister_slots ht name i node).mp h).1
  have hl' := ht j n ((unregister_slots ht name j n).mp hj).1
  rw [hname, hl] at hl'
  cases hl'
  rfl

end Unregister

/-! ## The invariant -/

theorem entry_iff (ht : Tidy map) :
    (∀ i, (∃ node, map.slots[i]? = some (some node) ∧ node.devname = path) ↔ i = k)
      ↔ ∃ node, lookup map path = some (k, node) := by
  constructor
  · intro h
    obtain ⟨node, hslot, rfl⟩ := (h k).mpr rfl
    exact ⟨node, ht k node hslot⟩
  · rintro ⟨node, hl⟩ i
    constructor
    · rintro ⟨m, hslot, rfl⟩
      have hl' := ht i m hslot
      rw [hl] at hl'
      cases hl'
      rfl
    · rintro rfl
      exact ⟨node, (lookup_eq_some.mp hl).2, lookup_devname hl⟩

namespace Registry

def Lists (r : Registry topics) (oName : List Char) (g : Nat) : Prop :=
  ∃ n ∈ r.nodeList, n.oName = oName ∧ n.inst = g

structure Coherent (r : Registry topics) : Prop where
  once : (r.nodeList.map fun n => (n.oName, n.inst)).Nodup
  known : ∀ n ∈ r.nodeList, (∃ id, topics.oName id = n.oName) ∧ n.inst < ORB_MULTI_MAX_INSTANCES
  bit : ∀ (id : topics.Id) (g : Nat) (hg : g < ORB_MULTI_MAX_INSTANCES),
    r.nodeExists[g].test (topics.oId id) = true ↔ r.Lists (topics.oName id) g
  entry : ∀ n ∈ r.nodeList, ∀ i,
    (∃ node, r.map.slots[i]? = some (some node) ∧ node.devname = n.devname) ↔ i = n.slot

structure Kept (r : Registry topics) : Prop extends r.Coherent where
  tidy : Tidy r.map

def made (r : Registry topics) (id : topics.Id) (g : Nat) (hg : g < ORB_MULTI_MAX_INSTANCES)
    (node : DeviceNode) : Registry topics :=
  { r with
    map := r.map.put r.map.freeSlot node
    nodeList := intrusiveSortedListAdd uorbDeviceCmpMethod r.nodeList
      ⟨topics.oName id, g, r.map.freeSlot⟩
    nodeExists := r.nodeExists.set g (r.nodeExists[g].set (topics.oId id) true) }

inductive Change (r : Registry topics) : Registry topics → Prop
  | errno (e : Int) : Change r { r with errno := e }
  | put {i : Nat} {node old : DeviceNode} (hslot : r.map.slots[i]? = some (some old))
      (hname : node.devname = old.devname) : Change r { r with map := r.map.put i node }
  | made {id : topics.Id} {g : Nat} {node : DeviceNode} (hg : g < ORB_MULTI_MAX_INSTANCES)
      (hnone : lookup r.map (nodePath (topics.oName id) g) = none) (hroom : Room r.map)
      (hname : node.devname = nodePath (topics.oName id) g) : Change r (r.made id g hg node)
  | register (node : DeviceNode) : Change r { r with map := (registerUorbDriver r.map node).2 }
  | unregister {name : List Char} (hfree : ∀ n ∈ r.nodeList, n.devname ≠ name) :
      Change r { r with map := (unregisterUorbDriver r.map name).2 }

variable {r r' : Registry topics}

theorem Kept.lookup_listed (h : r.Kept) (hn : n ∈ r.nodeList) :
    ∃ node, lookup r.map n.devname = some (n.slot, node) :=
  (entry_iff h.tidy).mp (h.entry n hn)

theorem Kept.setMap (h : r.Kept) (ht : Tidy map)
    (hentry : ∀ n ∈ r.nodeList, ∃ node, lookup map n.devname = some (n.slot, node)) :
    Kept { r with map := map } :=
  ⟨⟨h.once, h.known, h.bit, fun n hn => (entry_iff ht).mpr (hentry n hn)⟩, ht⟩

theorem Kept.put (h : r.Kept) {old : DeviceNode} (hslot : r.map.slots[i]? = some (some old))
    (hname : node.devname = old.devname) : Kept { r with map := r.map.put i node } := by
  refine h.setMap (h.tidy.put hslot hname) fun n hn => ?_
  obtain ⟨m, hl⟩ := h.lookup_listed hn
  rw [lookup_put h.tidy hslot hname]
  split
  · rename_i hp
    rw [hp, h.tidy i old hslot] at hl
    cases hl
    exact ⟨node, rfl⟩
  · exact ⟨m, hl⟩

theorem Kept.register (h : r.Kept) (node : DeviceNode) :
    Kept { r with map := (registerUorbDriver r.map node).2 } := by
  rcases register_cases r.map node with ⟨-, hreg⟩ | ⟨-, -, hreg⟩ | ⟨hnew, hroom, hreg⟩
  · rw [hreg]
    exact h
  · rw [hreg]
    exact h
  · rw [hreg]
    refine h.setMap (h.tidy.register hroom hnew) fun n hn => ?_
    obtain ⟨m, hl⟩ := h.lookup_listed hn
    refine ⟨m, ?_⟩
    rw [lookup_register hroom hnew, if_neg]
    · exact hl
    · intro hp
      rw [hp, hnew] at hl
      cases hl

theorem Kept.unregister (h : r.Kept) {name : List Char}
    (hfree : ∀ n ∈ r.nodeList, n.devname ≠ name) :
    Kept { r with map := (unregisterUorbDriver r.map name).2 } := by
  have ht := h.tidy.unregister name
  refine h.setMap ht fun n hn => ?_
  obtain ⟨m, hl⟩ := h.lookup_listed hn
  have hdev := lookup_devname hl
  refine ⟨m, ?_⟩
  rw [← hdev]
  refine ht n.slot m ((unregister_slots h.tidy name n.slot m).mpr ⟨(lookup_eq_some.mp hl).2, ?_⟩)
  rw [hdev]
  exact hfree n hn

theorem mem_made :
    n ∈ (r.made id g hg node).nodeList
      ↔ n = ⟨topics.oName id, g, r.map.freeSlot⟩ ∨ n ∈ r.nodeList := by
  simp [made, intrusiveSortedListAdd]

theorem lists_made :
    (r.made id g hg node).Lists oName k
      ↔ oName = topics.oName id ∧ k = g ∨ r.Lists oName k := by
  constructor
  · rintro ⟨n, hn, rfl, rfl⟩
    rcases mem_made.mp hn with rfl | hn
    · exact .inl ⟨rfl, rfl⟩
    · exact .inr ⟨n, hn, rfl, rfl⟩
  · rintro (⟨rfl, rfl⟩ | ⟨n, hn, rfl, rfl⟩)
    · exact ⟨_, mem_made.mpr (.inl rfl), rfl, rfl⟩
    · exact ⟨n, mem_made.mpr (.inr hn), rfl, rfl⟩

theorem Kept.not_listed (h : r.Kept) (hnone : lookup r.map (nodePath oName g) = none) :
    ¬r.Lists oName g := by
  rintro ⟨n, hn, rfl, rfl⟩
  obtain ⟨m, hl⟩ := h.lookup_listed hn
  cases hl.symm.trans hnone

theorem Kept.made (h : r.Kept) (hg : g < ORB_MULTI_MAX_INSTANCES)
    (hnone : lookup r.map (nodePath (topics.oName id) g) = none) (hroom : Room r.map)
    (hname : node.devname = nodePath (topics.oName id) g) : (r.made id g hg node).Kept := by
  have hnew : lookup r.map node.devname = none := by
    rw [hname]
    exact hnone
  have ht : Tidy (r.map.put r.map.freeSlot node) := h.tidy.register hroom hnew
  refine ⟨⟨?_, fun n hn => ?_, fun id' k hk => ?_, fun n hn => (entry_iff ht).mpr ?_⟩, ht⟩
  · -- the instance was not in the list
    have hperm := (perm_orderedInsert uorbDeviceCmpMethod
      (⟨topics.oName id, g, r.map.freeSlot⟩ : Listed) r.nodeList).map fun n => (n.oName, n.inst)
    refine hperm.nodup_iff.mpr (nodup_cons.mpr ⟨fun hmem => ?_, h.once⟩)
    obtain ⟨n, hn, hkey⟩ := mem_map.mp hmem
    obtain ⟨hoName, hinst⟩ := Prod.mk.inj hkey
    exact h.not_listed hnone ⟨n, hn, hoName, hinst⟩
  · rcases mem_made.mp hn with rfl | hn
    · exact ⟨⟨id, rfl⟩, hg⟩
    · exact h.known n hn
  · rw [lists_made, ← h.bit id' k hk]
    show ((r.nodeExists.set g _ hg)[k]).test _ = true ↔ _
    rw [Vector.getElem_set]
    by_cases hgk : g = k
    · subst hgk
      rw [if_pos rfl, AtomicBitset.test_set]
      have hid : topics.oId id' = topics.oId id ↔ topics.oName id' = topics.oName id :=
        ⟨fun he => by rw [Topics.oId_injective he], fun he => by rw [Topics.oName_injective he]⟩
      simp [hid]
    · rw [if_neg hgk]
      simp [Ne.symm hgk]
  · show ∃ m, lookup (r.map.put r.map.freeSlot node) n.devname = some (n.slot, m)
    rw [lookup_register hroom hnew]
    rcases mem_made.mp hn with rfl | hn
    · exact ⟨node, if_pos hname.symm⟩
    · obtain ⟨m, hl⟩ := h.lookup_listed hn
      refine ⟨m, ?_⟩
      rw [if_neg]
      · exact hl
      · intro hp
        rw [hp, hnew] at hl
        cases hl

/-- **Whatever a call does, list, bits and map go on to agree.** -/
theorem Kept.change (h : r.Kept) (hc : Change r r') : r'.Kept := by
  cases hc with
  | errno e => exact ⟨⟨h.once, h.known, h.bit, h.entry⟩, h.tidy⟩
  | put hslot hname => exact h.put hslot hname
  | made hg hnone hroom hname => exact h.made hg hnone hroom hname
  | register node => exact h.register node
  | unregister hfree => exact h.unregister hfree

theorem kept_start (errno : Int) : (start errno : Registry topics).Kept := by
  refine ⟨⟨nodup_nil, fun n hn => ?_, fun id g hg => ?_, fun n hn => ?_⟩, tidy_empty⟩
  · cases hn
  · refine iff_of_false (by simp [start]) ?_
    rintro ⟨n, hn, -⟩
    cases hn
  · cases hn

def Changes : Registry topics → Registry topics → Prop := Relation.ReflTransGen Change

theorem Changes.refl : Changes r r := Relation.ReflTransGen.refl

theorem Change.one (h : Change r r') : Changes r r' := Relation.ReflTransGen.single h

theorem Changes.tail (h : Changes r r') (hc : Change r' r'') :
    Changes r r'' := Relation.ReflTransGen.tail h hc

theorem Kept.changes (h : r.Kept) (hc : Changes r r') : r'.Kept := by
  induction hc with
  | refl => exact h
  | tail _ hc ih => exact ih.change hc

/-! ## The master -/

/--
The try of instance `g` fails: `node_map` is full, or another one has the path and the node is not
one to claim.
-/
def Blocked (r : Registry topics) (oName : List Char) (adv single : Bool) (g : Nat) : Prop :=
  match lookup r.map (nodePath oName g) with
  | none => ¬Room r.map
  | some _ => ∀ existing, r.getNodeLocked oName g = some existing →
      r.isAdvertised existing.slot = true ∧ single = false ∧ adv = true

/--
From instance `first` on, the tries fail until one gets no memory for its node; `last` is the last
one.
-/
def Starves (r : Registry topics) (alloc : Nat → Alloc) (oName : List Char) (adv single : Bool)
    (first last : Nat) : Prop :=
  ∃ f, first ≤ f ∧ f ≤ last ∧ alloc f = .noNode ∧
    ∀ j, first ≤ j → j < f → alloc j = .ok ∧ r.Blocked oName adv single j

def NodeStarves (r : Registry topics) (alloc : Nat → Alloc) (id : topics.Id) (adv : Bool)
    (inst : Option Nat) : Prop :=
  (uorbNodeMkpath (topics.oName id) inst).isSome = true ∧
    match inst with
    | none => r.Starves alloc (topics.oName id) adv adv 0 0
    | some inst => r.Starves alloc (topics.oName id) adv false inst (ORB_MULTI_MAX_INSTANCES - 1)

section Master

variable {oSize : List Char → Nat} {id : topics.Id} {adv single : Bool} {g : Nat}

theorem changes_mark (slot : Nat) :
    Changes r { r with map := if adv then r.map.modify slot markAsAdvertised else r.map } := by
  cases adv with
  | false => exact .refl
  | true =>
    rw [if_pos rfl]
    cases hnode : getUorbnode r.map slot with
    | none =>
      have hsame : r.map.modify slot markAsAdvertised = r.map := by
        unfold NodeMap.modify
        rw [hnode]
      rw [hsame]
      exact .refl
    | some node =>
      have hslot := slot_of_getUorbnode hnode
      rw [modify_of_slot hslot]
      have hput : Change r { r with map := r.map.put slot (markAsAdvertised node) } :=
        .put hslot rfl
      exact hput.one

theorem try_ok (oSize : List Char → Nat) (r : Registry topics) (id : topics.Id) (adv single : Bool)
    (hg : g < ORB_MULTI_MAX_INSTANCES) :
    (r.Blocked (topics.oName id) adv single g ∧ ∃ ret, ret ≠ 0 ∧
      advertiseTry oSize .ok id adv single g (nodePath (topics.oName id) g) r
        = some (.tried ret r)) ∨
    (¬r.Blocked (topics.oName id) adv single g ∧ ∃ r', Changes r r' ∧
      advertiseTry oSize .ok id adv single g (nodePath (topics.oName id) g) r
        = some (.tried 0 r')) := by
  simp only [advertiseTry, Blocked]
  rcases register_cases r.map
      (uorbDeviceNodeInit (nodePath (topics.oName id) g) (oSize (topics.oName id)) 1) with
    ⟨hsome, hreg⟩ | ⟨hnone, hfull, hreg⟩ | ⟨hnone, hroom, hreg⟩
  · -- the path is taken
    obtain ⟨found, hlook⟩ := ne_none_iff_exists'.mp hsome
    have hlook : lookup r.map (nodePath (topics.oName id) g) = some found := hlook
    rw [hreg, hlook, if_neg (show ¬(-EEXIST = 0) by decide), if_pos rfl]
    cases hex : r.getNodeLocked (topics.oName id) g with
    | none => exact .inl ⟨by simp, -EEXIST, by decide, rfl⟩
    | some existing =>
      by_cases hclaim : r.isAdvertised existing.slot = false ∨ single = true ∨ adv = false
      · refine .inr ⟨fun hall => ?_, _, changes_mark existing.slot, if_pos hclaim⟩
        obtain ⟨hadv, hsingle, hadvertiser⟩ := hall existing rfl
        simp [hadv, hsingle, hadvertiser] at hclaim
      · refine .inl ⟨fun e he => ?_, -EEXIST, by decide, if_neg hclaim⟩
        cases he
        simpa using hclaim
  · have hnone : lookup r.map (nodePath (topics.oName id) g) = none := hnone
    rw [hreg, hnone]
    exact .inl ⟨hfull, -ENOSPC, by decide, rfl⟩
  · have hnone : lookup r.map (nodePath (topics.oName id) g) = none := hnone
    have hslot := freeSlot_put hroom
      (uorbDeviceNodeInit (nodePath (topics.oName id) g) (oSize (topics.oName id)) 1)
    refine .inr ⟨?_, r.made id g hg (freshNode oSize (topics.oName id) g adv),
      (Change.made hg hnone hroom rfl).one, ?_⟩
    · rw [hnone]
      exact not_not_intro hroom
    · rw [hreg, if_pos rfl]
      have hmark := modify_of_slot hslot markAsAdvertised
      rw [put_put] at hmark
      rw [show r.map.slots.findIdx Option.isNone = r.map.freeSlot from rfl, hmark]
      cases adv with
      | true => simp [setNodeExists, hg, made, freshNode, markAsAdvertised]
      | false => simp [setNodeExists, hg, made, freshNode, uorbDeviceNodeInit]

theorem starves_iff {first last : Nat} :
    r.Starves alloc oName adv single first last ↔ first ≤ last ∧
      (alloc first = .noNode ∨
        alloc first = .ok ∧ r.Blocked oName adv single first ∧
          r.Starves alloc oName adv single (first + 1) last) := by
  constructor
  · rintro ⟨f, hle, hlast, hnode, hbefore⟩
    refine ⟨Nat.le_trans hle hlast, ?_⟩
    rcases Nat.eq_or_lt_of_le hle with rfl | hlt
    · exact .inl hnode
    · obtain ⟨hok, hblocked⟩ := hbefore first (Nat.le_refl first) hlt
      exact .inr ⟨hok, hblocked, f, hlt, hlast, hnode,
        fun j hj hjf => hbefore j (Nat.le_of_succ_le hj) hjf⟩
  · rintro ⟨hle, hnode | ⟨hok, hblocked, f, hlt, hlast, hnode, hbefore⟩⟩
    · exact ⟨first, Nat.le_refl first, hle, hnode, by omega⟩
    · refine ⟨f, Nat.le_of_succ_le hlt, hlast, hnode, fun j hj hjf => ?_⟩
      rcases Nat.eq_or_lt_of_le hj with rfl | hj
      · exact ⟨hok, hblocked⟩
      · exact hbefore j hj hjf

/-- How an advertise comes out: it fails and changes nothing, or succeeds. -/
def Ends (r : Registry topics) (ret : Int) (r' : Registry topics) : Prop :=
  ret ≠ 0 ∧ r' = r ∨ ret = 0 ∧ Changes r r'

theorem ends_noMemory : Ends r (-ENOMEM) r := .inl ⟨by decide, rfl⟩

/-- **The loop**, with the tries from instance `g` on. -/
theorem loop_ends (oSize : List Char → Nat) (r : Registry topics) (alloc : Nat → Alloc) (adv : Bool)
    {nodepath : List Char}
    (hpath : ∀ j < ORB_MULTI_MAX_INSTANCES,
      setInstance nodepath j = nodePath (topics.oName id) j) :
    ∀ left g, g + left = ORB_MULTI_MAX_INSTANCES - 1 →
      (r.Starves alloc (topics.oName id) adv false g (ORB_MULTI_MAX_INSTANCES - 1) ∧
        advertiseLoop oSize alloc id adv nodepath left g r = none) ∨
      (¬r.Starves alloc (topics.oName id) adv false g (ORB_MULTI_MAX_INSTANCES - 1) ∧
        ∃ res, advertiseLoop oSize alloc id adv nodepath left g r = some res ∧
          Ends r res.1 res.2.2) := by
  have hmax : ORB_MULTI_MAX_INSTANCES - 1 < ORB_MULTI_MAX_INSTANCES := by decide
  intro left
  induction left using Nat.strongRecOn with
  | ind left ih =>
    intro g hg
    have hlt : g < ORB_MULTI_MAX_INSTANCES := by omega
    unfold advertiseLoop
    rw [hpath g hlt, starves_iff]
    cases alloc g with
    | noPath => exact .inr ⟨by simp, _, rfl, ends_noMemory⟩
    | noNode => exact .inl ⟨⟨by omega, .inl rfl⟩, rfl⟩
    | ok =>
      rcases try_ok oSize r id adv false hlt with
        ⟨hblocked, ret, hret, ht⟩ | ⟨hfree, r', hc, ht⟩
      · rw [ht]
        simp only [bind_eq_bind, bind_some, if_neg hret]
        cases left with
        | zero =>
          have hlast : ¬r.Starves alloc (topics.oName id) adv false (g + 1)
              (ORB_MULTI_MAX_INSTANCES - 1) := by
            rintro ⟨f, hf, hf', -⟩
            omega
          exact .inr ⟨by simp [hlast], _, rfl, ends_noMemory⟩
        | succ left =>
          rcases ih left (Nat.lt_succ_self left) (g + 1) (by omega) with ⟨hstarves, hl⟩ | ⟨hfed, hl⟩
          · exact .inl ⟨⟨by omega, .inr ⟨trivial, hblocked, hstarves⟩⟩, hl⟩
          · exact .inr ⟨by simp [hfed], hl⟩
      · rw [ht]
        exact .inr ⟨by simp [hfree], (0, g, r'), rfl, .inr ⟨rfl, hc⟩⟩

theorem single_ends (alloc : Nat → Alloc) {p : List Char}
    (hpath : uorbNodeMkpath (topics.oName id) none = some p) :
    (r.NodeStarves alloc id adv none ∧
      uorbDeviceMasterAdvertise oSize alloc id adv none r = none) ∨
    (¬r.NodeStarves alloc id adv none ∧
      ∃ res, uorbDeviceMasterAdvertise oSize alloc id adv none r = some res ∧
        Ends r res.1 res.2.2) := by
  have hzero : (0 : Nat) < ORB_MULTI_MAX_INSTANCES := by decide
  have hlast : ¬r.Starves alloc (topics.oName id) adv adv 1 0 := by
    rintro ⟨f, hf, hf', -⟩
    omega
  have hone : r.Starves alloc (topics.oName id) adv adv 0 0 ↔ alloc 0 = .noNode := by
    rw [starves_iff]
    simp [hlast]
  have hp : p = nodePath (topics.oName id) 0 := (mkpath_some hpath).1
  simp only [NodeStarves, uorbDeviceMasterAdvertise, hpath, hp, hone, isSome_some, true_and]
  cases alloc 0 with
  | noPath => exact .inr ⟨by simp, _, rfl, ends_noMemory⟩
  | noNode => exact .inl ⟨rfl, rfl⟩
  | ok =>
    refine .inr ⟨by simp, ?_⟩
    rcases try_ok oSize r id adv adv hzero with ⟨-, ret, hret, ht⟩ | ⟨-, r', hc, ht⟩
    · rw [ht]
      simp only [bind_eq_bind, bind_some, if_neg hret]
      exact ⟨_, rfl, ends_noMemory⟩
    · rw [ht]
      exact ⟨(0, none, r'), rfl, .inr ⟨rfl, hc⟩⟩

/--
**An advertise comes to an end unless it comes to a node that it gets no memory for**; it succeeds,
or leaves list, bits and map as they were.
-/
theorem master_ends (oSize : List Char → Nat) (r : Registry topics) (alloc : Nat → Alloc)
    (id : topics.Id) (adv : Bool) (inst : Option Nat) :
    (r.NodeStarves alloc id adv inst ∧
      uorbDeviceMasterAdvertise oSize alloc id adv inst r = none) ∨
    (¬r.NodeStarves alloc id adv inst ∧
      ∃ res, uorbDeviceMasterAdvertise oSize alloc id adv inst r = some res ∧
        Ends r res.1 res.2.2) := by
  cases hpath : uorbNodeMkpath (topics.oName id) inst with
  | none =>
    refine .inr ⟨fun h => ?_, (-ENAMETOOLONG, inst, r), ?_, .inl ⟨by simp [ENAMETOOLONG], rfl⟩⟩
    · have hfits := h.1
      rw [hpath] at hfits
      cases hfits
    · simp only [uorbDeviceMasterAdvertise, hpath]
  | some p =>
    cases inst with
    | none => exact single_ends alloc hpath
    | some inst =>
      by_cases hinst : inst ≥ ORB_MULTI_MAX_INSTANCES
      · refine .inr ⟨fun ⟨_, f, hle, hlast, _⟩ => ?_, (-ENOMEM, some inst, r), ?_, ends_noMemory⟩
        · have hmax : ORB_MULTI_MAX_INSTANCES = 4 := rfl
          omega
        · simp only [uorbDeviceMasterAdvertise, hpath, if_pos hinst]
      · have hlt : inst < 10 := Nat.lt_trans (Nat.lt_of_not_le hinst) (by decide)
        obtain ⟨rfl, -⟩ := mkpath_eq hlt hlt hpath
        have hset : ∀ j < ORB_MULTI_MAX_INSTANCES,
            setInstance (nodePath (topics.oName id) inst) j = nodePath (topics.oName id) j :=
          fun j hj => setInstance_nodePath hlt (Nat.lt_trans hj (by decide))
        simp only [NodeStarves, uorbDeviceMasterAdvertise, hpath, if_neg hinst, isSome_some,
          true_and]
        rcases loop_ends oSize r alloc adv hset (ORB_MULTI_MAX_INSTANCES - 1 - inst) inst
            (by omega) with ⟨hs, hl⟩ | ⟨hs, res, hl, he⟩
        · exact .inl ⟨hs, by rw [hl]; rfl⟩
        · exact .inr ⟨hs, (res.1, some res.2.1, res.2.2), by rw [hl]; rfl, he⟩

theorem advertise_changes (h : uorbDeviceMasterAdvertise oSize alloc id adv inst r = some res) :
    Changes r res.2.2 := by
  rcases master_ends oSize r alloc id adv inst with ⟨-, hnone⟩ | ⟨-, res', hsome, he⟩
  · cases hnone.symm.trans h
  · obtain rfl : res' = res := some.inj (hsome.symm.trans h)
    rcases he with ⟨-, hsame⟩ | ⟨-, hc⟩
    · rw [hsame]
      exact .refl
    · exact hc

/-! ## The calls -/

theorem unodeOpen_changes {flags : Nat} {o : Int × NodeMap}
    (h : unodeOpen mem r.map path flags = some o) : Changes r { r with map := o.2 } := by
  obtain rfl | ⟨node, q, hslot, hq, rfl⟩ := unodeOpen_cases h
  · exact .refl
  · exact (Change.put hslot (open_keeps hq).1).one

theorem Changes.trans (h : Changes r r') (h' : Changes r' r'') :
    Changes r r'' := Relation.ReflTransGen.trans h h'

theorem managerAdvertise_changes (h : managerNodeAdvertise oSize alloc mem id adv inst r = some res) :
    Changes r res.2.2 := by
  obtain ⟨m, hm, h⟩ := bind_eq_some_iff.mp h
  have hmaster := advertise_changes hm
  simp only at h
  split at h
  · split at h
    · cases h
      exact hmaster.tail (.errno _)
    · obtain ⟨o, ho, h⟩ := bind_eq_some_iff.mp h
      have hopen := hmaster.trans (unodeOpen_changes ho)
      split at h
      · cases h
        exact hopen.tail (.errno _)
      · cases h
        exact hopen
  · cases h
    exact hmaster.tail (.errno _)

theorem managerOpen_changes (h : managerNodeOpen oSize alloc mem id adv inst r = some res) :
    Changes r res.2.2 := by
  unfold managerNodeOpen at h
  split at h
  · split at h
    · cases h
      exact .refl
    · obtain ⟨o, ho, h⟩ := bind_eq_some_iff.mp h
      have hopen := unodeOpen_changes ho
      split at h
      · exact hopen.trans (managerAdvertise_changes h)
      · cases h
        exact hopen
  · exact managerAdvertise_changes h

theorem updateQueueSize_devname (node : DeviceNode) (queueSize : Nat) :
    (uorbDeviceNodeUpdateQueueSize node queueSize).2.devname = node.devname := by
  unfold uorbDeviceNodeUpdateQueueSize
  split
  · rfl
  · split <;> rfl

theorem advertiseOpened_changes {queueSize : Nat} {heap data : Option (Memory UInt8)} {fd : Int}
    {a : Option Nat × Orb} (h : advertiseOpened queueSize heap data fd r.toOrb = some a) :
    Changes r { r with toOrb := a.2 } := by
  unfold advertiseOpened at h
  split at h
  · cases h
  · rename_i node hnode
    obtain ⟨i, rfl, hslot⟩ := getUorbnode_eq_some hnode
    obtain ⟨c, hc, h⟩ := bind_eq_some_iff.mp h
    have hclosed : c.2.devname = node.devname :=
      (close_keeps hc).trans (updateQueueSize_devname node queueSize)
    cases data with
    | none =>
      cases h
      exact (Change.put hslot hclosed).one
    | some data =>
      simp only at h
      have hput : Change r { r with map := r.map.put i (uorbDeviceNodePublish heap c.2 data).2 } :=
        .put hslot ((publish_keeps heap c.2 data).1.trans hclosed)
      split at h
      · cases h
        exact hput.one.tail (.errno _)
      · cases h
        exact hput.one

def KeepsListed (r : Registry topics) (c : Call topics) : Prop :=
  ∀ name, c = .unregister name → ∀ n ∈ r.nodeList, n.devname ≠ name

theorem step_changes {c : Call topics} (hc : r.KeepsListed c) (h : step oSize r c = some r') :
    Changes r r' := by
  cases c with
  | advertise alloc id isAdvertiser inst =>
    obtain ⟨res, hres, rfl⟩ := map_eq_some_iff.mp h
    exact advertise_changes hres
  | advertiseMulti alloc id queueSize heap data inst =>
    obtain ⟨res, hres, rfl⟩ := map_eq_some_iff.mp h
    obtain ⟨o, ho, hres⟩ := bind_eq_some_iff.mp hres
    have hopen := managerOpen_changes ho
    split at hres
    · cases hres
      exact hopen
    · obtain ⟨a, ha, hres⟩ := bind_eq_some_iff.mp hres
      cases hres
      exact hopen.trans (advertiseOpened_changes ha)
  | subscribe alloc mem id inst =>
    obtain ⟨res, hres, rfl⟩ := map_eq_some_iff.mp h
    obtain ⟨o, ho, hres⟩ := bind_eq_some_iff.mp hres
    cases hres
    exact managerOpen_changes ho
  | unsubscribe fd =>
    obtain ⟨res, hres, rfl⟩ := map_eq_some_iff.mp h
    obtain rfl | ⟨i, node, rfl, hslot, hres⟩ := handle_cases hres
    · exact .refl
    · obtain ⟨q, hq, hres⟩ := bind_eq_some_iff.mp hres
      cases hres
      exact (Change.put hslot (close_keeps hq)).one
  | unadvertise handle =>
    obtain ⟨res, hres, rfl⟩ := map_eq_some_iff.mp h
    cases handle with
    | none =>
      cases hres
      exact .refl
    | some slot =>
      obtain ⟨node, hslot, rfl⟩ := unadvertise_cases hres
      have hput : Change r { r with map := r.map.put slot { node with advertised := false } } :=
        .put hslot rfl
      exact hput.one
  | publish heap handle data =>
    simp only [step, map_eq_some_iff] at h
    obtain ⟨res, hres, rfl⟩ := h
    obtain ⟨node, hslot, rfl⟩ := publish_cases hres
    have hput : Change r
        { r with map := r.map.put handle (uorbDeviceNodePublish heap node data).2 } :=
      .put hslot (publish_keeps heap node data).1
    exact hput.one
  | register node =>
    cases h
    exact (Change.register node).one
  | unregister name =>
    cases h
    exact (Change.unregister (hc name rfl)).one

end Master

/-! ## Every run -/

theorem kept_of_run {oSize : List Char → Nat} {errno : Int}
    (h : Reaches (step oSize) KeepsListed (start errno) r) : r.Kept :=
  h.invariant (kept_start errno) fun _ _ _ hk hc hs => hk.changes (step_changes hc hs)

/--
**List, bits and map agree in every state**, and an advertise fails without a change, unless it comes
to a node that it gets no memory for.
-/
theorem coherent_and_fails_iff {oSize : List Char → Nat} {errno : Int} {r : Registry topics}
    (h : Reaches (step oSize) KeepsListed (start errno) r) :
    r.Coherent ∧ ∀ alloc id adv inst,
      ((∃ res, uorbDeviceMasterAdvertise oSize alloc id adv inst r = some res ∧
        (res.1 ≠ 0 → res.2.2 = r)) ↔ ¬r.NodeStarves alloc id adv inst) := by
  refine ⟨(kept_of_run h).toCoherent, fun alloc id adv inst => ?_⟩
  rcases master_ends oSize r alloc id adv inst with ⟨hs, hnone⟩ | ⟨hs, res, hres, he⟩
  · refine iff_of_false (fun ⟨res, hres, _⟩ => ?_) (not_not_intro hs)
    cases hnone.symm.trans hres
  · refine iff_of_true ⟨res, hres, fun hret => ?_⟩ hs
    rcases he with ⟨-, hsame⟩ | ⟨hzero, -⟩
    · exact hsame
    · exact absurd hzero hret

def twoTopics : Topics :=
  { names := ["accel".toList, "gyro".toList]
    nodup := by decide
    count := 2
    length_le := by decide
    fits := by decide }

def accel : twoTopics.Id := ⟨0, by decide⟩
def gyro : twoTopics.Id := ⟨1, by decide⟩

def otherNode : DeviceNode := uorbDeviceNodeInit "/obj/log".toList 4 1

/-- Two advertisers of one topic, a subscriber of the other, and another module. -/
def fewCalls : List (Call twoTopics) :=
  [.advertise (fun _ => .ok) accel true (some 0), .subscribe (fun _ => .ok) true gyro none,
    .register otherNode, .advertise (fun _ => .ok) accel true (some 0)]

theorem coherent_and_fails_few :
    ∃ r : Registry twoTopics,
      (fewCalls ++ [Call.unregister otherNode.devname]).foldlM (step fun _ => 4) (start 0) = some r ∧
      r.nodeList.map (fun n => (n.oName, n.inst, n.slot))
        = [("accel".toList, 0, 0), ("accel".toList, 1, 3), ("gyro".toList, 0, 1)] ∧
      r.Coherent ∧ ∀ alloc id adv inst,
        ((∃ res, uorbDeviceMasterAdvertise (fun _ => 4) alloc id adv inst r = some res ∧
          (res.1 ≠ 0 → res.2.2 = r)) ↔ ¬r.NodeStarves alloc id adv inst) := by
  have hfew : (fewCalls.foldlM (step fun _ => 4) (start 0)).map (fun r =>
        (r.nodeList.map (fun n => (n.oName, n.inst, n.slot)),
          decide (∀ n ∈ r.nodeList, n.devname ≠ otherNode.devname)))
      = some ([("accel".toList, 0, 0), ("accel".toList, 1, 3), ("gyro".toList, 0, 1)], true) := by
    decide +kernel
  obtain ⟨r, hr, hproj⟩ := map_eq_some_iff.mp hfew
  obtain ⟨hlist, hfree⟩ := Prod.mk.inj hproj
  have hrun : Reaches (step fun _ => 4) KeepsListed (start 0) r := by
    refine Reaches.of_foldlM_of_forall fewCalls hr fun s c hc name he => ?_
    subst he
    simp [fewCalls] at hc
  have hkeeps : KeepsListed r (.unregister otherNode.devname) := by
    intro name he
    cases he
    exact of_decide_eq_true hfree
  refine ⟨{ r with map := (unregisterUorbDriver r.map otherNode.devname).2 }, ?_, hlist,
    coherent_and_fails_iff (hrun.tail hkeeps rfl)⟩
  rw [foldlM_append, hr]
  rfl

/--
Memory for the path and none for the node: the first advertise there is writes through NULL, and so
does not fail as it was to.
-/
theorem not_always_fails :
    ¬∀ (topics : Topics) (r : Registry topics),
      Reaches (step fun _ => 4) KeepsListed (start 0) r →
      r.Coherent ∧ ∀ alloc id adv inst,
        ∃ res, uorbDeviceMasterAdvertise (fun _ => 4) alloc id adv inst r = some res ∧
          (res.1 ≠ 0 → res.2.2 = r) := by
  intro h
  obtain ⟨res, hres, -⟩ := (h twoTopics (start 0) .refl).2 (fun _ => .noNode) accel true (some 0)
  have hnone : (uorbDeviceMasterAdvertise (fun _ => 4) (fun _ => .noNode) accel true (some 0)
      (start 0)).isNone = true := by decide +kernel
  rw [hres] at hnone
  cases hnone

end Registry

end Gpmx.Uorb
