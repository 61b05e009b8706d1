import Gpmx.Infra.Runs
import Gpmx.Uorb.Manager
import Gpmx.Uorb.Sharing

/-!
# uORB: which instance an advertiser gets

`orb_advertise_multi` walks through the instances of its topic and takes the first whose node
is not advertised, or makes the node if it is missing. What it does is stated with `lookup`: the
slot and the node that a path stands for in `node_map`.

Two things make it go wrong. `manager_node_open` takes the failure of the master for success
when `errno` is `EEXIST`, and nothing sets `errno` on the way there. And with `node_map` full the
walk goes past an instance whose node it cannot make, and takes a later one.
-/

namespace Gpmx.Uorb

open Infra List
open Option (any_some bind_eq_bind bind_eq_some_iff bind_some getD_some isNone some_ne_none)

/-! ## Paths -/

variable {g : Nat} {oName : List Char} {inst : Option Nat} {p : List Char} {adv : Bool} {t : Tried}
    {alloc : Nat → Alloc} {mem : Bool} {r : Int × Option Nat × Orb}

theorem printIndex_digit (h : g < 10) : printIndex g = [Char.ofNat ('0'.toNat + g)] := by
  have hall : ∀ g ∈ List.range 10, printIndex g = [Char.ofNat ('0'.toNat + g)] := by decide
  exact hall g (mem_range.mpr h)

theorem digit_injective {g' : Nat} (h : g < 10) (h' : g' < 10)
    (he : Char.ofNat ('0'.toNat + g) = Char.ofNat ('0'.toNat + g')) : g = g' := by
  have hall : ∀ g ∈ List.range 10, ∀ g' ∈ List.range 10,
      Char.ofNat ('0'.toNat + g) = Char.ofNat ('0'.toNat + g') → g = g' := by decide
  exact hall g (mem_range.mpr h) g' (mem_range.mpr h') he

theorem nodePath_injective {a b : List Char} {g' : Nat} (h : g < 10) (h' : g' < 10)
    (he : nodePath a g = nodePath b g') : a = b ∧ g = g' := by
  unfold nodePath at he
  rw [printIndex_digit h, printIndex_digit h', append_assoc, append_assoc] at he
  obtain ⟨ha, hg⟩ := append_inj' (append_cancel_left he) rfl
  exact ⟨ha, digit_injective h h' (singleton_inj.mp hg)⟩

theorem setInstance_nodePath {i : Nat} (hi : i < 10) (hg : g < 10) :
    setInstance (nodePath oName i) g = nodePath oName g := by
  unfold setInstance nodePath
  rw [printIndex_digit hi, printIndex_digit hg, dropLast_concat]

theorem mkpath_some (h : uorbNodeMkpath oName inst = some p) :
    p = nodePath oName (inst.getD 0) ∧ p.length < ORB_MAXPATH := by
  simp only [uorbNodeMkpath] at h
  split at h
  · cases h
  · rename_i hshort
    cases h
    exact ⟨rfl, Nat.lt_of_not_le hshort⟩

theorem mkpath_eq {i : Nat} (hi : i < 10) (hg : g < 10) (h : uorbNodeMkpath oName (some i) = some p) :
    p = nodePath oName i ∧ uorbNodeMkpath oName (some g) = some (nodePath oName g) := by
  obtain ⟨rfl, hshort⟩ := mkpath_some h
  have hlen : (nodePath oName g).length = (nodePath oName i).length := by
    unfold nodePath
    rw [printIndex_digit hi, printIndex_digit hg]
    simp
  refine ⟨rfl, ?_⟩
  simp only [uorbNodeMkpath, getD_some, hlen]
  exact if_neg (Nat.not_le_of_lt hshort)

/-! ## Looking a path up -/

variable {map : NodeMap} {path : List Char} {i : Nat} {node old : DeviceNode}

def lookup (map : NodeMap) (path : List Char) : Option (Nat × DeviceNode) :=
  (map.slots[getUorbnodefd map path]?).join.map fun node => (getUorbnodefd map path, node)

theorem lookup_eq_some : lookup map path = some (i, node) ↔
    getUorbnodefd map path = i ∧ map.slots[i]? = some (some node) := by
  unfold lookup
  constructor
  · intro h
    obtain ⟨n, hn, he⟩ := Option.map_eq_some_iff.mp h
    cases he
    exact ⟨rfl, Option.join_eq_some_iff.mp hn⟩
  · rintro ⟨rfl, h⟩
    rw [h]
    rfl

theorem lookup_eq_none : lookup map path = none ↔ getUorbnodefd map path = nodemapLength := by
  constructor
  · intro h
    rw [← map.length_eq]
    refine Nat.le_antisymm findIdx_le_length (Nat.le_of_not_lt fun hlt => ?_)
    have hnamed : isNamed path (map.slots[getUorbnodefd map path]) = true :=
      findIdx_getElem (w := hlt)
    unfold lookup at h
    rw [getElem?_eq_getElem hlt] at h
    cases hslot : map.slots[getUorbnodefd map path] with
    | none =>
      rw [hslot] at hnamed
      cases hnamed
    | some n =>
      rw [hslot] at h
      cases h
  · intro h
    unfold lookup
    rw [h, getElem?_eq_none (Nat.le_of_eq map.length_eq)]
    rfl

theorem lookup_devname (h : lookup map path = some (i, node)) : node.devname = path := by
  obtain ⟨hfind, hslot⟩ := lookup_eq_some.mp h
  exact named_of_getUorbnodefd hfind hslot

theorem getUorbnode_of_lookup (h : lookup map path = some (i, node)) :
    getUorbnode map i = some node := getUorbnode_natCast (lookup_eq_some.mp h).2

def Tidy (map : NodeMap) : Prop :=
  ∀ i node, map.slots[i]? = some (some node) → lookup map node.devname = some (i, node)

theorem tidy_empty : Tidy .empty := by
  intro i node h
  have hnone : ∀ slot ∈ NodeMap.empty.slots, slot = none := fun slot hs => eq_of_mem_replicate hs
  cases hnone _ (mem_of_getElem? h)

theorem lookup_empty (path : List Char) : lookup .empty path = none := by
  cases hl : lookup NodeMap.empty path with
  | none => rfl
  | some r =>
    have hslot := mem_of_getElem? (lookup_eq_some.mp hl).2
    cases eq_of_mem_replicate hslot

theorem lookup_put (ht : Tidy map) (hslot : map.slots[i]? = some (some old))
    (hname : node.devname = old.devname) (path : List Char) :
    lookup (map.put i node) path
      = if path = old.devname then some (i, node) else lookup map path := by
  have hfind : getUorbnodefd (map.put i node) path = getUorbnodefd map path :=
    getUorbnodefd_put hslot (by simp only [isNamed, any_some, hname])
  split
  · rename_i hp
    subst hp
    refine lookup_eq_some.mpr ⟨?_, getElem?_put hslot⟩
    rw [hfind]
    exact (lookup_eq_some.mp (ht i old hslot)).1
  · rename_i hp
    unfold lookup
    rw [hfind]
    have hne : i ≠ getUorbnodefd map path := by
      intro he
      exact hp (named_of_getUorbnodefd he.symm hslot).symm
    show ((map.slots.set i (some node))[getUorbnodefd map path]?).join.map _ = _
    rw [getElem?_set_ne hne]

theorem lookup_put_self (ht : Tidy map) (h : lookup map path = some (i, old))
    (hname : node.devname = old.devname) : lookup (map.put i node) path = some (i, node) := by
  rw [lookup_put ht (lookup_eq_some.mp h).2 hname, if_pos (lookup_devname h).symm]

theorem Tidy.put (ht : Tidy map) (hslot : map.slots[i]? = some (some old))
    (hname : node.devname = old.devname) : Tidy (map.put i node) := by
  intro j n hj
  rw [lookup_put ht hslot hname]
  have hj : (map.slots.set i (some node))[j]? = some (some n) := hj
  by_cases hij : i = j
  · subst hij
    obtain ⟨hlt, -⟩ := List.getElem?_eq_some_iff.mp hslot
    rw [getElem?_set_self hlt] at hj
    cases hj
    rw [if_pos hname]
  · rw [getElem?_set_ne hij] at hj
    have hl := ht j n hj
    split
    · rename_i he
      rw [he, ht i old hslot] at hl
      cases hl
      exact absurd rfl hij
    · exact hl

/-- `node_map` has a free slot. -/
def Room (map : NodeMap) : Prop := map.slots.findIdx Option.isNone ≠ nodemapLength

def NodeMap.freeSlot (map : NodeMap) : Nat := map.slots.findIdx Option.isNone

theorem freeSlot_empty (h : Room map) : map.slots[map.freeSlot]? = some none := by
  have hlt : map.freeSlot < map.slots.length := by
    rw [map.length_eq]
    refine Nat.lt_of_le_of_ne ?_ h
    rw [← map.length_eq]
    exact findIdx_le_length
  have hnone : (map.slots[map.freeSlot]).isNone = true := findIdx_getElem (w := hlt)
  rw [getElem?_eq_getElem hlt, Option.isNone_iff_eq_none.mp hnone]

theorem any_named_iff : map.slots.any (isNamed path) = true ↔ lookup map path ≠ none := by
  rw [Ne, lookup_eq_none, ← map.length_eq]
  unfold getUorbnodefd
  rw [findIdx_eq_length, any_eq_true]
  push Not
  constructor
  · rintro ⟨slot, hmem, hnamed⟩
    exact ⟨slot, hmem, by rw [hnamed]; decide⟩
  · rintro ⟨slot, hmem, hnamed⟩
    exact ⟨slot, hmem, by simpa using hnamed⟩

theorem register_cases (map : NodeMap) (node : DeviceNode) :
    (lookup map node.devname ≠ none ∧ registerUorbDriver map node = (-EEXIST, map)) ∨
    (lookup map node.devname = none ∧ ¬Room map ∧ registerUorbDriver map node = (-ENOSPC, map)) ∨
    lookup map node.devname = none ∧ Room map ∧
      registerUorbDriver map node = (0, map.put map.freeSlot node) := by
  unfold registerUorbDriver
  by_cases hnamed : map.slots.any (isNamed node.devname) = true
  · rw [if_pos hnamed]
    exact .inl ⟨any_named_iff.mp hnamed, rfl⟩
  · rw [if_neg hnamed]
    have hnone : lookup map node.devname = none := by
      by_contra hne
      exact hnamed (any_named_iff.mpr hne)
    by_cases hfull : map.slots.findIdx isNone = nodemapLength
    · rw [if_pos hfull]
      exact .inr (.inl ⟨hnone, not_not_intro hfull, rfl⟩)
    · rw [if_neg hfull]
      exact .inr (.inr ⟨hnone, hfull, rfl⟩)

theorem lookup_register (hroom : Room map) (hnew : lookup map node.devname = none)
    (path : List Char) : lookup (map.put map.freeSlot node) path
      = if path = node.devname then some (map.freeSlot, node) else lookup map path := by
  have hslot := freeSlot_empty hroom
  obtain ⟨hlt, -⟩ := List.getElem?_eq_some_iff.mp hslot
  have hself : (map.put map.freeSlot node).slots[map.freeSlot]? = some (some node) := by
    show (map.slots.set map.freeSlot (some node))[map.freeSlot]? = _
    rw [getElem?_set_self hlt]
  have hother : ∀ j, j ≠ map.freeSlot →
      (map.put map.freeSlot node).slots[j]? = map.slots[j]? := by
    intro j hj
    show (map.slots.set map.freeSlot (some node))[j]? = _
    rw [getElem?_set_ne hj.symm]
  split
  · rename_i hp
    subst hp
    cases hl : lookup (map.put map.freeSlot node) node.devname with
    | none =>
      have hany : (map.put map.freeSlot node).slots.any (isNamed node.devname) = true :=
        any_eq_true.mpr ⟨_, mem_of_getElem? hself, by simp [isNamed]⟩
      exact absurd hl (any_named_iff.mp hany)
    | some r =>
      obtain ⟨j, n⟩ := r
      obtain ⟨-, hj⟩ := lookup_eq_some.mp hl
      by_cases hjk : j = map.freeSlot
      · subst hjk
        rw [hself] at hj
        cases hj
        rfl
      · rw [hother j hjk] at hj
        have hany : map.slots.any (isNamed node.devname) = true :=
          any_eq_true.mpr
            ⟨_, mem_of_getElem? hj, by simp [isNamed, lookup_devname hl]⟩
        exact absurd hnew (any_named_iff.mp hany)
  · rename_i hp
    have hfind : getUorbnodefd (map.put map.freeSlot node) path = getUorbnodefd map path := by
      refine getUorbnodefd_put hslot ?_
      simp only [isNamed, any_some, Option.any_none, decide_eq_false_iff_not]
      exact fun he => hp he.symm
    unfold lookup
    rw [hfind]
    by_cases hk : getUorbnodefd map path = map.freeSlot
    · rw [hk, hslot, hself]
      -- then the slot would be named, and it is empty
      exfalso
      have hlt' : getUorbnodefd map path < map.slots.length := by
        rw [hk]
        exact hlt
      have hnamed : isNamed path (map.slots[getUorbnodefd map path]) = true :=
        findIdx_getElem (w := hlt')
      have hempty : map.slots[getUorbnodefd map path]? = some none := by
        rw [hk]
        exact hslot
      rw [getElem?_eq_getElem hlt'] at hempty
      rw [Option.some.inj hempty] at hnamed
      cases hnamed
    · rw [hother _ hk]

theorem Tidy.register (ht : Tidy map) (hroom : Room map) (hnew : lookup map node.devname = none) :
    Tidy (map.put map.freeSlot node) := by
  intro j n hj
  rw [lookup_register hroom hnew]
  have hj : (map.slots.set map.freeSlot (some node))[j]? = some (some n) := hj
  by_cases hjk : map.freeSlot = j
  · obtain ⟨hlt, -⟩ := List.getElem?_eq_some_iff.mp (freeSlot_empty hroom)
    subst hjk
    rw [getElem?_set_self hlt] at hj
    cases hj
    rw [if_pos rfl]
  · rw [getElem?_set_ne hjk] at hj
    have hl := ht j n hj
    rw [if_neg]
    · exact hl
    · intro he
      rw [he, hnew] at hl
      cases hl

/-! ## The master -/

def Orb.taken (s : Orb) (oName : List Char) (g : Nat) : Bool :=
  (lookup s.map (nodePath oName g)).any fun r => r.2.advertised

/-- `_node_list` and `node_map` have the same nodes. -/
structure Orb.Sound (s : Orb) : Prop where
  tidy : Tidy s.map
  listed : ∀ oName g, g < ORB_MULTI_MAX_INSTANCES →
    (s.getNodeLocked oName g).map Listed.slot = (lookup s.map (nodePath oName g)).map Prod.fst

def Orb.Lowest (s : Orb) (oName : List Char) (f : Nat) : Prop :=
  f < ORB_MULTI_MAX_INSTANCES ∧ s.taken oName f = false ∧ ∀ j < f, s.taken oName j = true

def Orb.CanHave (s : Orb) (oName : List Char) (g : Nat) : Prop :=
  lookup s.map (nodePath oName g) ≠ none ∨ Room s.map

def freshNode (oSize : List Char → Nat) (oName : List Char) (g : Nat) (adv : Bool) : DeviceNode :=
  { uorbDeviceNodeInit (nodePath oName g) (oSize oName) 1 with advertised := adv }

def Orb.create (oSize : List Char → Nat) (s : Orb) (oName : List Char) (g : Nat) (adv : Bool) : Orb :=
  { s with
    map := s.map.put s.map.freeSlot (freshNode oSize oName g adv)
    nodeList := ⟨oName, g, s.map.freeSlot⟩ :: s.nodeList }

/-- The state with another node in slot `i`. -/
def Orb.put (s : Orb) (i : Nat) (node : DeviceNode) : Orb := { s with map := s.map.put i node }

inductive Given (oSize : List Char → Nat) (s : Orb) (oName : List Char) (g : Nat) (adv : Bool) :
    Orb → Prop
  | made (hnone : lookup s.map (nodePath oName g) = none) (hroom : Room s.map) :
      Given oSize s oName g adv (s.create oSize oName g adv)
  | claimed {i : Nat} {node : DeviceNode} (hsome : lookup s.map (nodePath oName g) = some (i, node)) :
      Given oSize s oName g adv (s.put i { node with advertised := node.advertised || adv })

theorem unadvertise_cases {s : Orb} {r : Int × Orb} (h : orbManagerUnadvertise (some i) s = some r) :
    ∃ node, s.map.slots[i]? = some (some node) ∧ (0, s.put i { node with advertised := false }) = r := by
  unfold orbManagerUnadvertise at h
  dsimp only at h
  cases hnode : getUorbnode s.map i with
  | none =>
    rw [hnode] at h
    cases h
  | some node =>
    rw [hnode] at h
    exact ⟨node, slot_of_getUorbnode hnode, Option.some.inj h⟩

theorem publish_cases {s : Orb} {heap : Option (Memory UInt8)} {data : Memory UInt8} {r : Int × Orb}
    (h : orbManagerPublish heap i data s = some r) : ∃ node, s.map.slots[i]? = some (some node) ∧
      ((uorbDeviceNodePublish heap node data).1, s.put i (uorbDeviceNodePublish heap node data).2) = r := by
  unfold orbManagerPublish at h
  cases hnode : getUorbnode s.map i with
  | none =>
    rw [hnode] at h
    cases h
  | some node =>
    rw [hnode] at h
    exact ⟨node, slot_of_getUorbnode hnode, Option.some.inj h⟩

theorem lookup_create {oSize : List Char → Nat} {s : Orb} (hroom : Room s.map)
    (hnone : lookup s.map (nodePath oName g) = none) (path : List Char) :
    lookup (s.create oSize oName g adv).map path
      = if path = nodePath oName g then some (s.map.freeSlot, freshNode oSize oName g adv)
        else lookup s.map path := lookup_register hroom hnone path

theorem put_put (map : NodeMap) (i : Nat) (node node' : DeviceNode) :
    (map.put i node).put i node' = map.put i node' := by
  simp [NodeMap.put]

theorem put_self (h : map.slots[i]? = some (some node)) : map.put i node = map := by
  obtain ⟨slots, hlen⟩ := map
  obtain ⟨hlt, hget⟩ := List.getElem?_eq_some_iff.mp h
  simp only [NodeMap.put, NodeMap.mk.injEq]
  rw [← hget]
  exact set_getElem_self hlt

theorem modify_of_slot (h : map.slots[i]? = some (some node)) (f : DeviceNode → DeviceNode) :
    map.modify i f = map.put i (f node) := by
  unfold NodeMap.modify
  rw [getUorbnode_natCast h]

theorem freeSlot_put (hroom : Room map) (node : DeviceNode) :
    (map.put map.freeSlot node).slots[map.freeSlot]? = some (some node) := by
  obtain ⟨hlt, -⟩ := List.getElem?_eq_some_iff.mp (freeSlot_empty hroom)
  exact getElem?_set_self hlt

section Master

variable {oSize : List Char → Nat} {oName : List Char} {s : Orb} {g : Nat}

theorem try_missing (hnone : lookup s.map (nodePath oName g) = none) {alloc : Alloc} {single : Bool}
    (h : advertiseTry oSize alloc oName adv single g (nodePath oName g) s = some t) :
    (alloc = .noPath ∧ t = .noMemory) ∨
    (alloc = .ok ∧ ¬Room s.map ∧ ∃ ret, ret ≠ 0 ∧ t = .tried ret s) ∨
    alloc = .ok ∧ Room s.map ∧ t = .tried 0 (s.create oSize oName g adv) := by
  cases alloc with
  | noPath => exact .inl ⟨rfl, (Option.some.inj h).symm⟩
  | noNode => cases h
  | ok =>
    refine .inr ?_
    simp only [advertiseTry] at h
    rcases register_cases s.map (uorbDeviceNodeInit (nodePath oName g) (oSize oName) 1) with
      ⟨hsome, -⟩ | ⟨-, hfull, hreg⟩ | ⟨-, hroom, hreg⟩
    · exact absurd hnone hsome
    · rw [hreg] at h
      exact .inl ⟨rfl, hfull, -ENOSPC, by decide, (Option.some.inj h).symm⟩
    · refine .inr ⟨rfl, hroom, ?_⟩
      rw [hreg, if_pos rfl] at h
      cases h
      have hmark := modify_of_slot
        (freeSlot_put hroom (uorbDeviceNodeInit (nodePath oName g) (oSize oName) 1)) markAsAdvertised
      cases adv with
      | true =>
        simp only [if_true]
        rw [show s.map.slots.findIdx isNone = s.map.freeSlot from rfl, hmark, put_put]
        rfl
      | false => rfl

theorem taken_of_lookup {r : Nat × DeviceNode} (h : lookup s.map (nodePath oName g) = some r) :
    s.taken oName g = r.2.advertised := by
  unfold Orb.taken
  rw [h]
  rfl

theorem not_taken_of_missing (h : lookup s.map (nodePath oName g) = none) :
    s.taken oName g = false := by
  unfold Orb.taken
  rw [h]
  rfl

theorem try_found (hs : s.Sound) (hg : g < ORB_MULTI_MAX_INSTANCES)
    (hlook : lookup s.map (nodePath oName g) = some (i, node)) {alloc : Alloc}
    (h : advertiseTry oSize alloc oName adv false g (nodePath oName g) s = some t) :
    (alloc = .noPath ∧ t = .noMemory) ∨
    (alloc = .ok ∧ adv = true ∧ node.advertised = true ∧ ∃ ret, ret ≠ 0 ∧ t = .tried ret s) ∨
    alloc = .ok ∧ (adv = true → node.advertised = false) ∧
      t = .tried 0 (s.put i { node with advertised := node.advertised || adv }) := by
  have hlisted := hs.listed oName g hg
  rw [hlook, Option.map_some] at hlisted
  obtain ⟨existing, hex, hslot⟩ := Option.map_eq_some_iff.mp hlisted
  have hslot : existing.slot = i := hslot
  have hadv : s.isAdvertised i = node.advertised := by
    unfold Orb.isAdvertised
    rw [getUorbnode_of_lookup hlook]
    rfl
  cases alloc with
  | noPath => exact .inl ⟨rfl, (Option.some.inj h).symm⟩
  | noNode => cases h
  | ok =>
    refine .inr ?_
    simp only [advertiseTry] at h
    rcases register_cases s.map (uorbDeviceNodeInit (nodePath oName g) (oSize oName) 1) with
      ⟨-, hreg⟩ | ⟨hnone, -⟩ | ⟨hnone, -⟩
    · rw [hreg, if_neg (show ¬(-EEXIST = 0) by decide), if_pos rfl, hex] at h
      simp only [hslot, hadv] at h
      split at h
      · rename_i hclaim
        refine .inr ⟨rfl, ?_, ?_⟩
        · intro hadvertiser
          simpa [hadvertiser] using hclaim
        · rw [← Option.some.inj h, modify_of_slot (lookup_eq_some.mp hlook).2]
          cases adv with
          | true => simp [Orb.put, markAsAdvertised]
          | false => simp [Orb.put, put_self (lookup_eq_some.mp hlook).2]
      · rename_i hclaim
        push Not at hclaim
        exact .inl ⟨rfl, by simpa using hclaim.2.2, by simpa using hclaim.1, -EEXIST, by decide,
          (Option.some.inj h).symm⟩
    · exact absurd (hlook.symm.trans hnone) (some_ne_none _)
    · exact absurd (hlook.symm.trans hnone) (some_ne_none _)

theorem try_cases (hs : s.Sound) (hg : g < ORB_MULTI_MAX_INSTANCES) {alloc : Alloc}
    (h : advertiseTry oSize alloc oName adv false g (nodePath oName g) s = some t) :
    (alloc = .noPath ∧ t = .noMemory) ∨
    (alloc = .ok ∧ ¬s.CanHave oName g ∧ ∃ ret, ret ≠ 0 ∧ t = .tried ret s) ∨
    (alloc = .ok ∧ adv = true ∧ s.taken oName g = true ∧ ∃ ret, ret ≠ 0 ∧ t = .tried ret s) ∨
    alloc = .ok ∧ (adv = true → s.taken oName g = false) ∧
      ∃ s', Given oSize s oName g adv s' ∧ t = .tried 0 s' := by
  cases hlook : lookup s.map (nodePath oName g) with
  | none =>
    rcases try_missing hlook h with hmem | ⟨hok, hfull, ht⟩ | ⟨hok, hroom, ht⟩
    · exact .inl hmem
    · refine .inr (.inl ⟨hok, ?_, ht⟩)
      rintro (hne | hroom)
      · exact hne hlook
      · exact hfull hroom
    · exact .inr (.inr (.inr ⟨hok, fun _ => not_taken_of_missing hlook, _, .made hlook hroom, ht⟩))
  | some r =>
    obtain ⟨i, node⟩ := r
    rw [taken_of_lookup hlook]
    rcases try_found hs hg hlook h with hmem | hadv | ⟨hok, hfree, ht⟩
    · exact .inl hmem
    · exact .inr (.inr (.inl hadv))
    · exact .inr (.inr (.inr ⟨hok, hfree, _, .claimed hlook, ht⟩))

theorem try_shape (hs : s.Sound) (hg : g < ORB_MULTI_MAX_INSTANCES) {alloc : Alloc}
    (h : advertiseTry oSize alloc oName adv false g (nodePath oName g) s = some t) :
    (alloc = .noPath ∧ t = .noMemory) ∨ (∃ ret, ret ≠ 0 ∧ t = .tried ret s) ∨
      ∃ s', t = .tried 0 s' := by
  rcases try_cases hs hg h with hmem | ⟨-, -, hfail⟩ | ⟨-, -, -, hfail⟩ | ⟨-, -, s', -, ht⟩
  · exact .inl hmem
  · exact .inr (.inl hfail)
  · exact .inr (.inl hfail)
  · exact .inr (.inr ⟨s', ht⟩)

theorem canHave_of_taken (h : s.taken oName g = true) : s.CanHave oName g := by
  refine .inl fun hnone => ?_
  unfold Orb.taken at h
  rw [hnone] at h
  cases h

theorem turn_cases (hs : s.Sound) (hcan : ∀ f, s.Lowest oName f → s.CanHave oName f)
    (hg : g < ORB_MULTI_MAX_INSTANCES) (htaken : ∀ j < g, s.taken oName j = true) {alloc : Alloc}
    (h : advertiseTry oSize alloc oName true false g (nodePath oName g) s = some t) :
    (alloc = .noPath ∧ t = .noMemory) ∨
    (s.taken oName g = true ∧ ∃ ret, ret ≠ 0 ∧ t = .tried ret s) ∨
    s.Lowest oName g ∧ ∃ s', Given oSize s oName g true s' ∧ t = .tried 0 s' := by
  have hhas : s.CanHave oName g := by
    cases hadv : s.taken oName g with
    | true => exact canHave_of_taken hadv
    | false => exact hcan g ⟨hg, hadv, htaken⟩
  rcases try_cases hs hg h with hmem | ⟨-, hno, -⟩ | ⟨-, -, hadv⟩ | ⟨-, hfree, hgiven⟩
  · exact .inl hmem
  · exact absurd hhas hno
  · exact .inr (.inl hadv)
  · exact .inr (.inr ⟨⟨hg, hfree rfl, htaken⟩, hgiven⟩)

/-- The try of instance `j` fails, and leaves everything as it is. -/
def Orb.Passes (oSize : List Char → Nat) (s : Orb) (alloc : Nat → Alloc) (oName : List Char)
    (adv : Bool) (j : Nat) : Prop :=
  ∃ ret, ret ≠ 0 ∧
    advertiseTry oSize (alloc j) oName adv false j (nodePath oName j) s = some (.tried ret s)

theorem loop_stops (hs : s.Sound) {nodepath : List Char}
    (hpath : ∀ j < ORB_MULTI_MAX_INSTANCES, setInstance nodepath j = nodePath oName j)
    {r : Int × Nat × Orb} : ∀ (left g : Nat), g + left + 1 = ORB_MULTI_MAX_INSTANCES →
      advertiseLoop oSize alloc oName adv nodepath left g s = some r →
      ∃ f, g ≤ f ∧ f < ORB_MULTI_MAX_INSTANCES ∧ (∀ j, g ≤ j → j < f → s.Passes oSize alloc oName adv j) ∧
        (alloc f = .noPath ∧ r = (-ENOMEM, f, s) ∨
          (∃ s', advertiseTry oSize (alloc f) oName adv false f (nodePath oName f) s
              = some (.tried 0 s') ∧ r = (0, f, s')) ∨
          f + 1 = ORB_MULTI_MAX_INSTANCES ∧ s.Passes oSize alloc oName adv f ∧
            r = (-ENOMEM, f, s)) := by
  intro left
  induction left using Nat.strongRecOn with
  | ind left ih =>
    intro g hg h
    have hlt : g < ORB_MULTI_MAX_INSTANCES := by omega
    have hnone : ∀ j, g ≤ j → j < g → s.Passes oSize alloc oName adv j := by omega
    unfold advertiseLoop at h
    rw [hpath g hlt] at h
    obtain ⟨t, ht, h⟩ := bind_eq_some_iff.mp h
    rcases try_shape hs hlt ht with ⟨ha, rfl⟩ | ⟨ret, hret, rfl⟩ | ⟨s', rfl⟩
    · exact ⟨g, Nat.le_refl g, hlt, hnone, .inl ⟨ha, (Option.some.inj h).symm⟩⟩
    · simp only [if_neg hret] at h
      cases left with
      | zero =>
        exact ⟨g, Nat.le_refl g, hlt, hnone, .inr (.inr ⟨hg, ⟨ret, hret, ht⟩, (Option.some.inj h).symm⟩)⟩
      | succ left =>
        obtain ⟨f, hgf, hf, hpass, hend⟩ := ih left (Nat.lt_succ_self left) (g + 1) (by omega) h
        refine ⟨f, Nat.le_of_succ_le hgf, hf, fun j hgj hj => ?_, hend⟩
        rcases Nat.lt_or_eq_of_le hgj with hgj | rfl
        · exact hpass j hgj hj
        · exact ⟨ret, hret, ht⟩
    · exact ⟨g, Nat.le_refl g, hlt, hnone, .inr (.inl ⟨s', ht, (Option.some.inj h).symm⟩)⟩

theorem taken_of_passes (hs : s.Sound) (hcan : ∀ f, s.Lowest oName f → s.CanHave oName f)
    (hg : g < ORB_MULTI_MAX_INSTANCES) (htaken : ∀ j < g, s.taken oName j = true)
    (h : s.Passes oSize alloc oName true g) : s.taken oName g = true := by
  obtain ⟨ret, hret, ht⟩ := h
  rcases turn_cases hs hcan hg htaken ht with ⟨-, hne⟩ | ⟨hadv, -⟩ | ⟨-, s', -, hne⟩
  · cases hne
  · exact hadv
  · cases hne
    exact absurd rfl hret

/--
**The master gives away the lowest instance that is not advertised.** Or it stops at an instance
`j` and changes nothing: there was no memory, or the instances have run out.
-/
theorem loop_cases (hs : s.Sound) (hcan : ∀ f, s.Lowest oName f → s.CanHave oName f)
    {nodepath : List Char}
    (hpath : ∀ j < ORB_MULTI_MAX_INSTANCES, setInstance nodepath j = nodePath oName j) {left : Nat}
    (hleft : 0 + left + 1 = ORB_MULTI_MAX_INSTANCES) {r : Int × Nat × Orb}
    (h : advertiseLoop oSize alloc oName true nodepath left 0 s = some r) :
    (∃ f s', s.Lowest oName f ∧ Given oSize s oName f true s' ∧ r = (0, f, s')) ∨
    ∃ j, j < ORB_MULTI_MAX_INSTANCES ∧ (∀ k < j, s.taken oName k = true) ∧
      (alloc j = .noPath ∨ j + 1 = ORB_MULTI_MAX_INSTANCES ∧ s.taken oName j = true) ∧
      r = (-ENOMEM, j, s) := by
  obtain ⟨f, -, hf, hpass, hend⟩ := loop_stops hs hpath left 0 hleft h
  have htaken : ∀ j < f, s.taken oName j = true := by
    intro j
    induction j using Nat.strongRecOn with
    | ind j ih =>
      intro hj
      exact taken_of_passes hs hcan (Nat.lt_trans hj hf)
        (fun k hk => ih k hk (Nat.lt_trans hk hj)) (hpass j (Nat.zero_le j) hj)
  rcases hend with ⟨ha, rfl⟩ | ⟨s', ht, rfl⟩ | ⟨hlast, hfail, rfl⟩
  · exact .inr ⟨f, hf, htaken, .inl ha, rfl⟩
  · rcases turn_cases hs hcan hf htaken ht with ⟨-, hne⟩ | ⟨-, ret, hret, hne⟩ | ⟨hlow, t, hgiven, he⟩
    · cases hne
    · cases hne
      exact absurd rfl hret
    · cases he
      exact .inl ⟨f, s', hlow, hgiven, rfl⟩
  · exact .inr ⟨f, hf, htaken, .inr ⟨hlast, taken_of_passes hs hcan hf htaken hfail⟩, rfl⟩

/-! ## Opening -/

theorem unodeOpen_missing {flags : Nat} (h : lookup map path = none) :
    unodeOpen mem map path flags = some (-1, map) := by
  unfold unodeOpen
  rw [if_pos (lookup_eq_none.mp h)]

theorem unodeOpen_found {flags : Nat} (h : lookup map path = some (i, node)) :
    unodeOpen mem map path flags = (uorbDeviceNodeOpen mem { node with oflags := flags }).bind
      fun r => some (if r.1 < 0 then -1 else (i : Int), map.put i r.2) := by
  obtain ⟨hfind, hslot⟩ := lookup_eq_some.mp h
  unfold unodeOpen
  have hlt : getUorbnodefd map path ≠ nodemapLength := by
    intro he
    rw [lookup_eq_none.mpr he] at h
    cases h
  rw [if_neg hlt, hfind, getUorbnode_natCast hslot]
  rfl

def DeviceNode.opened (node : DeviceNode) : DeviceNode :=
  { node with oflags := wronly, advertised := true }

theorem unodeOpen_wronly (h : lookup map path = some (i, node)) :
    unodeOpen mem map path wronly = some ((i : Int), map.put i node.opened) := by
  rw [unodeOpen_found h]
  rfl

theorem Given.lookup_self (hs : s.Sound) {s' : Orb} (h : Given oSize s oName g adv s') :
    ∃ r, lookup s'.map (nodePath oName g) = some r := by
  cases h with
  | made hnone hroom => exact ⟨_, (lookup_create hroom hnone _).trans (if_pos rfl)⟩
  | claimed hsome => exact ⟨_, lookup_put_self hs.tidy hsome rfl⟩

/-- `orb_advertise_multi` has opened the node of the instance it was given. -/
def OpenedAs (oSize : List Char → Nat) (s : Orb) (oName : List Char) (f : Nat)
    (r : Int × Option Nat × Orb) : Prop :=
  ∃ s' slot node, Given oSize s oName f true s' ∧
    lookup s'.map (nodePath oName f) = some (slot, node) ∧
    r = ((slot : Int), some f, s'.put slot node.opened)

/-- `EEXIST` in `errno` does no harm when the walk stops at an instance that is not advertised. -/
def Orb.Harmless (s : Orb) (alloc : Nat → Alloc) (oName : List Char) : Prop :=
  s.errno = EEXIST → ∃ f, s.Lowest oName f ∧ ∀ j < f, alloc j ≠ .noPath

theorem mkpath_fits (h : uorbNodeMkpath oName (some 0) = some p) (hg : g < ORB_MULTI_MAX_INSTANCES) :
    uorbNodeMkpath oName (some g) = some (nodePath oName g) := by
  have hg : g < 10 := Nat.lt_trans hg (by decide)
  exact (mkpath_eq (by decide) hg h).2

theorem openMulti_given (hs : s.Sound) {f : Nat} {s' : Orb}
    (hfits : uorbNodeMkpath oName (some 0) = some p) (hlow : s.Lowest oName f)
    (hgiven : Given oSize s oName f true s')
    (hmaster : uorbDeviceMasterAdvertise oSize alloc oName true (some 0) s = some (0, some f, s'))
    (h : managerNodeAdvertise oSize alloc true oName true (some 0) s = some r) :
    OpenedAs oSize s oName f r := by
  obtain ⟨⟨slot, node⟩, hlook⟩ := hgiven.lookup_self hs
  refine ⟨s', slot, node, hgiven, hlook, ?_⟩
  have hpos : ¬((slot : Int) < 0) := by omega
  simp only [managerNodeAdvertise, hmaster, bind_eq_bind, bind_some, true_or, if_true,
    mkpath_fits hfits hlow.1, unodeOpen_wronly hlook, if_neg hpos] at h
  exact (Option.some.inj h).symm

theorem openMulti_failed (hs : s.Sound) {j : Nat} (hfits : uorbNodeMkpath oName (some 0) = some p)
    (hharm : s.Harmless alloc oName) (hj : j < ORB_MULTI_MAX_INSTANCES)
    (htaken : ∀ k < j, s.taken oName k = true)
    (hwhy : alloc j = .noPath ∨ j + 1 = ORB_MULTI_MAX_INSTANCES ∧ s.taken oName j = true)
    (hmaster : uorbDeviceMasterAdvertise oSize alloc oName true (some 0) s = some (-ENOMEM, some j, s))
    (h : managerNodeAdvertise oSize alloc true oName true (some 0) s = some r) :
    (r.1 = -1 ∧ ∃ e, r.2.2 = { s with errno := e }) ∨
      ∃ f, s.Lowest oName f ∧ OpenedAs oSize s oName f r := by
  have hret : ¬(-ENOMEM = 0) := by decide
  simp only [managerNodeAdvertise, hmaster, bind_eq_bind, bind_some, hret, false_or,
    mkpath_fits hfits hj] at h
  split at h
  · rename_i herrno
    -- the walk has stopped at the lowest instance, for want of memory
    obtain ⟨f, hlow, hmem⟩ := hharm herrno
    have hjf : j = f := by
      rcases Nat.lt_trichotomy j f with hlt | heq | hgt
      · rcases hwhy with hno | ⟨hlast, -⟩
        · exact absurd hno (hmem j hlt)
        · have := hlow.1
          omega
      · exact heq
      · exact absurd ((htaken f hgt).symm.trans hlow.2.1) (by decide)
    subst hjf
    cases hlook : lookup s.map (nodePath oName j) with
    | none =>
      simp only [unodeOpen_missing hlook, bind_some, if_pos (show (-1 : Int) < 0 by decide)] at h
      exact .inl (by rw [← Option.some.inj h]; exact ⟨rfl, _, rfl⟩)
    | some found =>
      obtain ⟨slot, node⟩ := found
      have hpos : ¬((slot : Int) < 0) := by omega
      simp only [if_true, unodeOpen_wronly hlook, bind_some, if_neg hpos] at h
      refine .inr ⟨j, hlow, _, slot, _, .claimed hlook, lookup_put_self hs.tidy hlook rfl, ?_⟩
      cases h
      simp [Orb.put, put_put, DeviceNode.opened]
  · exact .inl (by rw [← Option.some.inj h]; exact ⟨rfl, _, rfl⟩)

/--
**An advertiser is given the lowest instance that is not advertised.** If it fails, nothing has
changed but `errno`, and the instances are all advertised unless the name is too long or memory
ran out.
-/
theorem openMulti_cases (hs : s.Sound) (hcan : ∀ f, s.Lowest oName f → s.CanHave oName f)
    (hharm : s.Harmless alloc oName) {inst : Nat}
    (h : managerNodeOpen oSize alloc true oName true (some inst) s = some r) :
    (r.1 = -1 ∧ (∃ e, r.2.2 = { s with errno := e }) ∧
      ((uorbNodeMkpath oName (some 0)).isSome → (∀ g, alloc g = .ok) →
        ∀ g < ORB_MULTI_MAX_INSTANCES, s.taken oName g = true)) ∨
    ∃ f, s.Lowest oName f ∧ OpenedAs oSize s oName f r := by
  simp only [managerNodeOpen, Option.isNone_some, Bool.false_eq_true, Bool.true_eq_false, or_self,
    if_false] at h
  cases hfits : uorbNodeMkpath oName (some 0) with
  | none =>
    have hret : ¬(-ENAMETOOLONG = 0) := by decide
    simp only [managerNodeAdvertise, uorbDeviceMasterAdvertise, hfits, bind_eq_bind,
      bind_some, hret, false_or] at h
    refine .inl ?_
    split at h <;>
    · cases h
      exact ⟨rfl, ⟨_, rfl⟩, fun hsome => nomatch hsome⟩
  | some p =>
    have hp : p = nodePath oName 0 := (mkpath_eq (by decide) (show 0 < 10 by decide) hfits).1
    have hpath : ∀ j < ORB_MULTI_MAX_INSTANCES, setInstance p j = nodePath oName j := by
      intro j hj
      rw [hp]
      exact setInstance_nodePath (by decide) (Nat.lt_trans hj (by decide))
    obtain ⟨m, hm, -⟩ := bind_eq_some_iff.mp h
    have hmaster := hm
    simp only [uorbDeviceMasterAdvertise, hfits] at hm
    rw [if_neg (by decide)] at hm
    obtain ⟨l, hl, hm⟩ := bind_eq_some_iff.mp hm
    have hm : (l.1, some l.2.1, l.2.2) = m := Option.some.inj hm
    rcases loop_cases hs hcan hpath rfl hl with
      ⟨f, s', hlow, hgiven, rfl⟩ | ⟨j, hj, htaken, hwhy, rfl⟩
    · subst hm
      exact .inr ⟨f, hlow, openMulti_given hs hfits hlow hgiven hmaster h⟩
    · subst hm
      refine (openMulti_failed hs hfits hharm hj htaken hwhy hmaster h).imp_left ?_
      rintro ⟨hret, hsame⟩
      refine ⟨hret, hsame, fun _ hok g hg => ?_⟩
      rcases hwhy with hno | ⟨hlast, hadv⟩
      · exact absurd hno (by rw [hok]; decide)
      · rcases Nat.lt_succ_iff_lt_or_eq.mp (hlast ▸ hg) with hlt | rfl
        · exact htaken g hlt
        · exact hadv

theorem master_missing (hnone : lookup s.map (nodePath oName (inst.getD 0)) = none)
    (hroom : ∀ g, inst = some g → g < ORB_MULTI_MAX_INSTANCES → Room s.map)
    (h : uorbDeviceMasterAdvertise oSize alloc oName adv inst s = some r) :
    (r.1 ≠ 0 ∧ r.2 = (inst, s)) ∨
      inst.getD 0 < ORB_MULTI_MAX_INSTANCES ∧
        Given oSize s oName (inst.getD 0) adv r.2.2 ∧ r.1 = 0 ∧ r.2.1 = inst := by
  unfold uorbDeviceMasterAdvertise at h
  cases hfits : uorbNodeMkpath oName inst with
  | none =>
    rw [hfits] at h
    cases h
    exact .inl ⟨show -ENAMETOOLONG ≠ 0 by decide, rfl⟩
  | some p =>
    rw [hfits] at h
    have hp := (mkpath_some hfits).1
    have hmem : -ENOMEM ≠ 0 := by decide
    cases inst with
    | none =>
      obtain ⟨t, ht, h⟩ := bind_eq_some_iff.mp h
      rw [hp] at ht
      rcases try_missing hnone ht with ⟨-, rfl⟩ | ⟨-, -, ret, hret, rfl⟩ | ⟨-, hfree, rfl⟩
      · cases h
        exact .inl ⟨hmem, rfl⟩
      · simp only [if_neg hret] at h
        cases h
        exact .inl ⟨hmem, rfl⟩
      · cases h
        exact .inr ⟨by decide, .made hnone hfree, rfl, rfl⟩
    | some g =>
      simp only at h
      split at h
      · cases h
        exact .inl ⟨hmem, rfl⟩
      · rename_i hg
        have hg : g < ORB_MULTI_MAX_INSTANCES := Nat.lt_of_not_le hg
        have hg10 : g < 10 := Nat.lt_trans hg (by decide)
        obtain ⟨l, hl, h⟩ := bind_eq_some_iff.mp h
        unfold advertiseLoop at hl
        rw [hp, getD_some, setInstance_nodePath hg10 hg10] at hl
        obtain ⟨t, ht, hl⟩ := bind_eq_some_iff.mp hl
        rcases try_missing hnone ht with ⟨-, rfl⟩ | ⟨-, hfull, -⟩ | ⟨-, hfree, rfl⟩
        · rw [← Option.some.inj h, ← Option.some.inj hl]
          exact .inl ⟨hmem, rfl⟩
        · exact absurd (hroom g rfl hg) hfull
        · rw [← Option.some.inj h, ← Option.some.inj hl]
          exact .inr ⟨hg, .made hnone hfree, rfl, rfl⟩

/-- The flags that `manager_node_open` opens with. -/
def openFlags (adv : Bool) : Nat := if adv then wronly else rdonly

theorem unodeOpen_ok {o : Int × NodeMap} (h : lookup map path = some (i, node))
    (ho : unodeOpen mem map path (openFlags adv) = some o) :
    ∃ node', uorbDeviceNodeOpen mem { node with oflags := openFlags adv } = some (0, node') ∧
      o = ((i : Int), map.put i node') := by
  rw [unodeOpen_found h] at ho
  obtain ⟨q, hq, ho⟩ := bind_eq_some_iff.mp ho
  have hret : q.1 = 0 := by
    cases adv with
    | true => exact (congrArg Prod.fst (Option.some.inj hq)).symm
    | false =>
      cases mem with
      | true => exact (congrArg Prod.fst (Option.some.inj hq)).symm
      | false => cases hq
  obtain ⟨ret, node'⟩ := q
  cases hret
  exact ⟨node', hq, (Option.some.inj ho).symm⟩

/-- `manager_node_open` has opened the node with this path, which it may have made. -/
def OpenedAt (oSize : List Char → Nat) (s : Orb) (mem : Bool) (oName : List Char) (adv : Bool)
    (inst : Option Nat) (r : Int × Option Nat × Orb) : Prop :=
  ∃ s' slot node node',
    (s' = s ∨ inst.getD 0 < ORB_MULTI_MAX_INSTANCES ∧ Given oSize s oName (inst.getD 0) adv s') ∧
    lookup s'.map (nodePath oName (inst.getD 0)) = some (slot, node) ∧
    uorbDeviceNodeOpen mem { node with oflags := openFlags adv } = some (0, node') ∧
    r = ((slot : Int), inst, s'.put slot node')

/-- **A subscriber opens the instance it asks for**, and so does an advertiser without instances. -/
theorem openPlain_cases (hs : s.Sound) (hplain : inst.isNone ∨ adv = false)
    (hcan : ∀ g, inst = some g → g < ORB_MULTI_MAX_INSTANCES → s.CanHave oName g)
    (h : managerNodeOpen oSize alloc mem oName adv inst s = some r) :
    (r.1 = -1 ∧ ∃ e, r.2.2 = { s with errno := e }) ∨ OpenedAt oSize s mem oName adv inst r := by
  simp only [managerNodeOpen, if_pos hplain] at h
  cases hfits : uorbNodeMkpath oName inst with
  | none =>
    rw [hfits] at h
    cases h
    exact .inl ⟨rfl, _, rfl⟩
  | some p =>
    rw [hfits] at h
    obtain ⟨o, ho, h⟩ := bind_eq_some_iff.mp h
    have hp := (mkpath_some hfits).1
    rw [hp] at ho
    cases hlook : lookup s.map (nodePath oName (inst.getD 0)) with
    | some found =>
      obtain ⟨slot, node⟩ := found
      obtain ⟨node', hopen, rfl⟩ := unodeOpen_ok hlook ho
      have hpos : ¬((slot : Int) < 0) := by omega
      simp only [if_neg hpos] at h
      exact .inr ⟨s, slot, node, node', .inl rfl, hlook, hopen, (Option.some.inj h).symm⟩
    | none =>
      rw [unodeOpen_missing hlook] at ho
      cases ho
      simp only [if_pos (show (-1 : Int) < 0 by decide)] at h
      obtain ⟨m, hm, h⟩ := bind_eq_some_iff.mp h
      have hroom : ∀ g, inst = some g → g < ORB_MULTI_MAX_INSTANCES → Room s.map := by
        rintro g rfl hg
        exact (hcan g rfl hg).resolve_left (fun hne => hne hlook)
      rcases master_missing hlook hroom hm with ⟨hret, hsame⟩ | ⟨hg, hgiven, hret, hinst⟩
      · -- the master has failed, and the node is still missing
        simp only [hsame, hret, false_or, hfits, hp] at h
        refine .inl ?_
        split at h
        · rw [unodeOpen_missing hlook] at h
          simp only [bind_eq_bind, bind_some, if_pos (show (-1 : Int) < 0 by decide)] at h
          cases h
          exact ⟨rfl, _, rfl⟩
        · cases h
          exact ⟨rfl, _, rfl⟩
      · obtain ⟨⟨slot, node⟩, hfound⟩ := hgiven.lookup_self hs
        have hpos : ¬((slot : Int) < 0) := by omega
        simp only [hret, true_or, if_true, hinst, hfits, hp] at h
        obtain ⟨o, ho, h⟩ := bind_eq_some_iff.mp h
        obtain ⟨node', hopen, rfl⟩ := unodeOpen_ok hfound ho
        simp only [if_neg hpos] at h
        exact .inr ⟨m.2.2, slot, node, node', .inr ⟨hg, hgiven⟩, hfound, hopen,
          (Option.some.inj h).symm⟩

end Master

end Gpmx.Uorb
