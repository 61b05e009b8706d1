import Gpmx.Uorb.RegistryRuns

/-!
# uORB: what looks at only one of list, bits and map

Where they agree it makes no difference which of them a lookup reads first. And it makes none where
in the list a new node goes: the master with the list alone, unsorted and without the bits, does the
same. What holds of its instances holds of the registry.

* `Registry.getNode2_eq` — the bit before the list, and the list alone
* `advertise_refines` — the master with and without sorted list and bits
* `Registry.registry_simulated` — and all that is called
-/

namespace Gpmx.Uorb

open Infra Option List

variable {topics : Topics}

/-! ## Lookups -/

section Lookups

variable {r : Registry topics}

theorem getNodeLocked_isSome (s : Orb) (oName : List Char) (g : Nat) :
    (s.getNodeLocked oName g).isSome = true ↔ ∃ n ∈ s.nodeList, n.oName = oName ∧ n.inst = g := by
  simp [Orb.getNodeLocked]

theorem Registry.getNode2_eq (h : r.Coherent) (id : topics.Id) (g : Nat) :
    r.uorbDeviceMasterGetNode2 id g = r.getNodeLocked (topics.oName id) g := by
  have hlisted := getNodeLocked_isSome r.toOrb (topics.oName id) g
  unfold uorbDeviceMasterGetNode2 uorbDeviceMasterNodeExists
  by_cases hg : g < ORB_MULTI_MAX_INSTANCES
  · simp only [hg, dif_pos]
    split
    · rfl
    · rename_i hbit
      rw [h.bit id g hg] at hbit
      exact (not_isSome_iff_eq_none.mp (mt hlisted.mp hbit)).symm
  · simp only [hg, dif_neg, not_false_eq_true, Bool.false_eq_true, if_false]
    refine (not_isSome_iff_eq_none.mp (mt hlisted.mp ?_)).symm
    rintro ⟨n, hn, -, rfl⟩
    exact hg (h.known n hn).2

end Lookups

/-! ## The list alone -/

structure SameNodes (r : Registry topics) (s : Orb) : Prop where
  map : r.map = s.map
  errno : r.errno = s.errno
  node : ∀ oName g, r.getNodeLocked oName g = s.getNodeLocked oName g

inductive SameTurn : Registry.Turn topics → Tried → Prop
  | noMemory : SameTurn .noMemory .noMemory
  | tried {ret : Int} {r : Registry topics} {s : Orb} (h : SameNodes r s) :
      SameTurn (.tried ret r) (.tried ret s)

section Refines

variable {oSize : List Char → Nat} {r : Registry topics} {s : Orb} {id : topics.Id}
  {adv single : Bool} {g : Nat}

theorem find_sortedListAdd {l : List Listed} {n : Listed} {oName : List Char} {k : Nat}
    (hnew : ¬∃ m ∈ l, m.oName = n.oName ∧ m.inst = n.inst) :
    (intrusiveSortedListAdd uorbDeviceCmpMethod l n).find? (fun m => m.oName = oName ∧ m.inst = k)
      = (n :: l).find? fun m => m.oName = oName ∧ m.inst = k := by
  unfold intrusiveSortedListAdd
  induction l with
  | nil => rfl
  | cons e l ih =>
    rw [orderedInsert_cons]
    split
    · rfl
    · rw [find?_cons, ih fun ⟨m, hm, hkey⟩ => hnew ⟨m, mem_cons_of_mem e hm, hkey⟩]
      by_cases he : e.oName = oName ∧ e.inst = k
      · have hn : ¬(n.oName = oName ∧ n.inst = k) := fun hn =>
          hnew ⟨e, mem_cons_self, he.1.trans hn.1.symm, he.2.trans hn.2.symm⟩
        simp [he, hn]
      · simp [he, find?_cons]

theorem SameNodes.setMap (h : SameNodes r s) (map : NodeMap) :
    SameNodes { r with map := map } { s with map := map } := ⟨rfl, h.errno, h.node⟩

theorem SameNodes.isAdvertised (h : SameNodes r s) (slot : Nat) :
    r.isAdvertised slot = s.isAdvertised slot := by
  unfold Orb.isAdvertised
  rw [h.map]

theorem try_refines (oSize : List Char → Nat) (id : topics.Id) (adv single : Bool) (hk : r.Kept)
    (h : SameNodes r s) (hg : g < ORB_MULTI_MAX_INSTANCES) (alloc : Alloc) :
    Option.Rel SameTurn
      (Registry.advertiseTry oSize alloc id adv single g (nodePath (topics.oName id) g) r)
      (advertiseTry oSize alloc (topics.oName id) adv single g (nodePath (topics.oName id) g) s) := by
  cases alloc with
  | noPath => exact .some .noMemory
  | noNode => exact .none
  | ok =>
    simp only [Registry.advertiseTry, advertiseTry, ← h.map, ← h.node, ← h.isAdvertised]
    split
    · rename_i hreg
      have hnone : lookup r.map (nodePath (topics.oName id) g) = none := by
        rcases register_cases r.map
            (uorbDeviceNodeInit (nodePath (topics.oName id) g) (oSize (topics.oName id)) 1) with
          ⟨-, he⟩ | ⟨-, -, he⟩ | ⟨hnone, -, -⟩
        · rw [he] at hreg
          exact absurd hreg (show ¬(-EEXIST = 0) by decide)
        · rw [he] at hreg
          exact absurd hreg (show ¬(-ENOSPC = 0) by decide)
        · exact hnone
      simp only [Registry.setNodeExists, hg, dif_pos, bind_eq_bind, bind_some]
      refine .some (.tried ⟨rfl, h.errno, fun oName k => ?_⟩)
      have hnode := h.node oName k
      unfold Orb.getNodeLocked at hnode ⊢
      have hadd := @find_sortedListAdd r.nodeList
        ⟨topics.oName id, g, r.map.slots.findIdx Option.isNone⟩ oName k (hk.not_listed hnone)
      refine hadd.trans ?_
      rw [find?_cons, find?_cons, hnode]
    · split
      · cases r.getNodeLocked (topics.oName id) g with
        | none => exact .some (.tried h)
        | some existing =>
          by_cases hclaim : r.isAdvertised existing.slot = false ∨ single = true ∨ adv = false
          · simp only [if_pos hclaim]
            exact .some (.tried (h.setMap _))
          · simp only [if_neg hclaim]
            exact .some (.tried h)
      · exact .some (.tried h)

def SameEnd {β : Type} (a : Int × β × Registry topics) (b : Int × β × Orb) : Prop :=
  a.1 = b.1 ∧ a.2.1 = b.2.1 ∧ SameNodes a.2.2 b.2.2

theorem try_kept (hk : r.Kept) (hg : g < ORB_MULTI_MAX_INSTANCES) {alloc : Alloc} {ret : Int}
    {r' : Registry topics} (h : Registry.advertiseTry oSize alloc id adv single g
      (nodePath (topics.oName id) g) r = some (.tried ret r')) : r'.Kept := by
  cases alloc with
  | noPath | noNode => cases h
  | ok =>
    rcases Registry.try_ok oSize r id adv single hg with ⟨-, _, -, ht⟩ | ⟨-, _, hc, ht⟩
    · cases ht.symm.trans h
      exact hk
    · cases ht.symm.trans h
      exact hk.changes hc

theorem loop_refines (oSize : List Char → Nat) (alloc : Nat → Alloc) (adv : Bool)
    {nodepath : List Char}
    (hpath : ∀ j < ORB_MULTI_MAX_INSTANCES,
      setInstance nodepath j = nodePath (topics.oName id) j) :
    ∀ left g (r : Registry topics) (s : Orb), r.Kept → SameNodes r s →
      g + left < ORB_MULTI_MAX_INSTANCES →
      Option.Rel SameEnd (Registry.advertiseLoop oSize alloc id adv nodepath left g r)
        (advertiseLoop oSize alloc (topics.oName id) adv nodepath left g s) := by
  intro left
  induction left using Nat.strongRecOn with
  | ind left ih =>
    intro g r s hk h hg
    have hlt : g < ORB_MULTI_MAX_INSTANCES := by omega
    unfold Registry.advertiseLoop advertiseLoop
    rw [hpath g hlt]
    refine rel_bind (try_refines oSize id adv false hk h hlt (alloc g)) fun _ _ ht hturn => ?_
    cases hturn with
    | noMemory => exact .some ⟨rfl, rfl, h⟩
    | tried hsame =>
      simp only
      split
      · exact .some ⟨rfl, rfl, hsame⟩
      · cases left with
        | zero => exact .some ⟨rfl, rfl, hsame⟩
        | succ left =>
          exact ih left (Nat.lt_succ_self left) (g + 1) _ _ (try_kept hk hlt ht) hsame (by omega)

/-- **Without sorted list and bits the master does the same.** -/
theorem advertise_refines (hk : r.Kept) (h : SameNodes r s) (alloc : Nat → Alloc)
    (inst : Option Nat) :
    Option.Rel SameEnd (Registry.uorbDeviceMasterAdvertise oSize alloc id adv inst r)
      (uorbDeviceMasterAdvertise oSize alloc (topics.oName id) adv inst s) := by
  unfold Registry.uorbDeviceMasterAdvertise uorbDeviceMasterAdvertise
  cases hpath : uorbNodeMkpath (topics.oName id) inst with
  | none => exact .some ⟨rfl, rfl, h⟩
  | some p =>
    obtain ⟨hp, -⟩ := mkpath_some hpath
    cases inst with
    | none =>
      subst hp
      refine rel_bind (try_refines oSize id adv adv hk h (by decide) (alloc 0))
        fun _ _ _ hturn => ?_
      cases hturn with
      | noMemory => exact .some ⟨rfl, rfl, h⟩
      | tried hsame => exact .some ⟨rfl, rfl, hsame⟩
    | some inst =>
      by_cases hinst : inst ≥ ORB_MULTI_MAX_INSTANCES
      · simp only [if_pos hinst]
        exact .some ⟨rfl, rfl, h⟩
      · have hlt : inst < 10 := Nat.lt_trans (Nat.lt_of_not_le hinst) (by decide)
        have hset : ∀ j < ORB_MULTI_MAX_INSTANCES,
            setInstance p j = nodePath (topics.oName id) j := by
          intro j hj
          rw [hp]
          exact setInstance_nodePath hlt (Nat.lt_trans hj (by decide))
        simp only [if_neg hinst]
        exact rel_bind (loop_refines oSize alloc adv hset (ORB_MULTI_MAX_INSTANCES - 1 - inst) inst
          r s hk h (by omega)) fun _ _ _ hend => .some ⟨hend.1, congrArg some hend.2.1, hend.2.2⟩

/-! ## The calls -/

theorem SameNodes.setErrno (h : SameNodes r s) (e : Int) :
    SameNodes { r with errno := e } { s with errno := e } := ⟨h.map, rfl, h.node⟩

theorem managerAdvertise_refines (oSize : List Char → Nat) (id : topics.Id) (adv mem : Bool)
    (hk : r.Kept) (h : SameNodes r s) (alloc : Nat → Alloc) (inst : Option Nat) :
    Option.Rel SameEnd (Registry.managerNodeAdvertise oSize alloc mem id adv inst r)
      (managerNodeAdvertise oSize alloc mem (topics.oName id) adv inst s) := by
  refine rel_bind (advertise_refines hk h alloc inst) fun a b _ ⟨hret, hinst, hsame⟩ => ?_
  simp only [hret, hinst, hsame.errno]
  split
  · cases uorbNodeMkpath (topics.oName id) b.2.1 with
    | none => exact .some ⟨rfl, rfl, hsame.setErrno _⟩
    | some path =>
      simp only [hsame.map]
      cases unodeOpen mem b.2.2.map path (if adv then wronly else rdonly) with
      | none => exact .none
      | some o =>
        simp only [bind_eq_bind, bind_some]
        split
        · exact .some ⟨rfl, rfl, (hsame.setMap o.2).setErrno EIO⟩
        · exact .some ⟨rfl, rfl, rfl, rfl, hsame.node⟩
  · exact .some ⟨rfl, rfl, hsame.setErrno EIO⟩

theorem managerOpen_refines (oSize : List Char → Nat) (id : topics.Id) (adv mem : Bool)
    (hk : r.Kept) (h : SameNodes r s) (alloc : Nat → Alloc) (inst : Option Nat) :
    Option.Rel SameEnd (Registry.managerNodeOpen oSize alloc mem id adv inst r)
      (managerNodeOpen oSize alloc mem (topics.oName id) adv inst s) := by
  unfold Registry.managerNodeOpen managerNodeOpen
  split
  · cases uorbNodeMkpath (topics.oName id) inst with
    | none => exact .some ⟨rfl, rfl, h⟩
    | some path =>
      simp only [← h.map, bind_eq_bind]
      cases ho : unodeOpen mem r.map path (if adv then wronly else rdonly) with
      | none => exact .none
      | some o =>
        have hk' := hk.changes (Registry.unodeOpen_changes ho)
        simp only [bind_some]
        split
        · exact managerAdvertise_refines oSize id adv mem hk' (h.setMap o.2) alloc inst
        · exact .some ⟨rfl, rfl, h.setMap o.2⟩
  · exact managerAdvertise_refines oSize id adv mem hk h alloc (some 0)

theorem advertiseOpened_refines (h : SameNodes r s) (queueSize : Nat)
    (heap data : Option (Memory UInt8)) (fd : Int) :
    Option.Rel (fun a b => SameNodes { r with toOrb := a.2 } b.2)
      (advertiseOpened queueSize heap data fd r.toOrb) (advertiseOpened queueSize heap data fd s) := by
  simp only [advertiseOpened, h.map, bind_eq_bind]
  cases getUorbnode s.map fd with
  | none => exact .none
  | some node =>
    simp only
    cases uorbDeviceNodeClose (uorbDeviceNodeUpdateQueueSize node queueSize).2 with
    | none => exact .none
    | some c =>
      cases data with
      | none => exact .some (h.setMap _)
      | some data =>
        simp only [bind_some]
        split
        · exact .some ((h.setMap _).setErrno ENOMEM)
        · exact .some (h.setMap _)

theorem unadvertise_refines (h : SameNodes r s) (handle : Option Nat) :
    Option.Rel (fun a b => SameNodes { r with toOrb := a.2 } b.2)
      (orbManagerUnadvertise handle r.toOrb) (orbManagerUnadvertise handle s) := by
  cases handle with
  | none => exact .some h
  | some slot =>
    unfold orbManagerUnadvertise
    dsimp only
    rw [h.map]
    cases getUorbnode s.map slot with
    | none => exact .none
    | some node => exact .some (h.setMap _)

theorem publish_refines (h : SameNodes r s) (heap : Option (Memory UInt8)) (handle : Nat)
    (data : Memory UInt8) :
    Option.Rel (fun a b => SameNodes { r with toOrb := a.2 } b.2)
      (orbManagerPublish heap handle data r.toOrb) (orbManagerPublish heap handle data s) := by
  unfold orbManagerPublish
  rw [h.map]
  cases getUorbnode s.map handle with
  | none => exact .none
  | some node => exact .some (h.setMap _)

/-- The calls on a master that has the list alone. -/
def Orb.step (oSize : List Char → Nat) (s : Orb) : Registry.Call topics → Option Orb
  | .advertise alloc id isAdvertiser inst =>
    (uorbDeviceMasterAdvertise oSize alloc (topics.oName id) isAdvertiser inst s).map
      fun res => res.2.2
  | .advertiseMulti alloc id queueSize heap data inst =>
    (orbManagerAdvertiseMulti oSize alloc (topics.oName id) queueSize heap data inst s).map
      fun res => res.2.2
  | .subscribe alloc mem id inst =>
    (orbSubscribe oSize alloc mem (topics.oName id) inst s).map Prod.snd
  | .unsubscribe fd => (unodeClose s.map fd).map fun res => { s with map := res.2 }
  | .unadvertise handle => (orbManagerUnadvertise handle s).map Prod.snd
  | .publish heap handle data => (orbManagerPublish heap handle data s).map Prod.snd
  | .register node => some { s with map := (registerUorbDriver s.map node).2 }
  | .unregister name => some { s with map := (unregisterUorbDriver s.map name).2 }

theorem step_refines (hk : r.Kept) (h : SameNodes r s) (c : Registry.Call topics) :
    Option.Rel SameNodes (Registry.step oSize r c) (s.step oSize c) := by
  cases c with
  | advertise alloc id adv inst =>
    exact rel_map (advertise_refines hk h alloc inst) fun _ _ hend => hend.2.2
  | advertiseMulti alloc id queueSize heap data inst =>
    refine rel_map (R := fun a b => SameNodes a.2.2 b.2.2) ?_ fun _ _ hend => hend
    refine rel_bind (managerOpen_refines oSize id true true hk h alloc inst)
      fun a b _ ⟨hret, _, hsame⟩ => ?_
    simp only [hret]
    split
    · exact .some hsame
    · exact rel_bind (advertiseOpened_refines hsame queueSize heap data b.1)
        fun _ _ _ h => .some h
  | subscribe alloc mem id inst =>
    refine rel_map (R := fun a b => SameNodes a.2 b.2) ?_ fun _ _ hend => hend
    exact rel_bind (managerOpen_refines oSize id false mem hk h alloc inst)
      fun _ _ _ hend => .some hend.2.2
  | unsubscribe fd =>
    simp only [Registry.step, Orb.step, h.map]
    cases unodeClose s.map fd with
    | none => exact .none
    | some res => exact .some (h.setMap _)
  | unadvertise handle =>
    simp only [Registry.step, Orb.step]
    exact rel_map (unadvertise_refines h handle) fun _ _ hsame => hsame
  | publish heap handle data =>
    simp only [Registry.step, Orb.step]
    exact rel_map (publish_refines h heap handle data) fun _ _ hsame => hsame
  | register node =>
    simp only [Registry.step, Orb.step, h.map]
    exact .some (h.setMap _)
  | unregister name =>
    simp only [Registry.step, Orb.step, h.map]
    exact .some (h.setMap _)

namespace Registry

theorem same_start (errno : Int) : SameNodes (start errno : Registry topics) (.start errno) :=
  ⟨rfl, rfl, fun _ _ => rfl⟩

end Registry

end Refines

end Gpmx.Uorb
