import Gpmx.Uorb.Handles

/-!
# Two subscriptions to one topic share their state

Two subscribers of one topic instance get the same handle and one record between them. What
one does through its handle, the other sees: an interval that one sets is the other's interval
(`setInterval_seen`), and once one unsubscribes, the record is freed under the other
(`unsubscribe_frees`). So in no state are two subscriptions independent (`not_independent`);
of the four operations only `orb_check` never disturbs (`check_harmless`).
-/

namespace Gpmx.Uorb

open Infra Option List

/-! ## What a subscriber does and sees -/

inductive HandleOp where
  | copy (now oSize : Nat)
  | check (now : Nat)
  | setInterval (fresh : Option Nat) (interval : Nat)
  | unsubscribe

def perform (map : NodeMap) (fd : Int) : HandleOp → Option NodeMap
  | .copy now oSize => (orbManagerCopy now map oSize fd).map fun r => r.2
  | .check now => (orbManagerCheck now map fd).map fun _ => map
  | .setInterval fresh interval => (orbManagerSetInterval fresh map fd interval).map fun r => r.2
  | .unsubscribe => (orbManagerUnsubscribe map fd).map fun r => r.2

inductive Probe where
  | check (now : Nat)
  | copy (now oSize : Nat)
  | getInterval

inductive Seen where
  | checked (r : Int × Bool)
  | copied (r : Int × List UInt8)
  | interval (r : Int × Option Nat)
  deriving DecidableEq

def probe (map : NodeMap) (fd : Int) : Probe → Option (Seen × NodeMap)
  | .check now => (orbManagerCheck now map fd).map fun r => (.checked r, map)
  | .copy now oSize => (orbManagerCopy now map oSize fd).map fun r => (.copied r.1, r.2)
  | .getInterval => (orbManagerGetInterval map fd).map fun r => (.interval r, map)

/-- What a sequence of calls returns; nothing, if one of them follows a dead pointer. -/
def observe (map : NodeMap) (fd : Int) : List Probe → Option (List Seen)
  | [] => some []
  | p :: ps => do
    let r ← probe map fd p
    let seen ← observe r.2 fd ps
    some (r.1 :: seen)

/-- Whatever is done through `s1`, any later calls on `s2` return the same as without it. -/
def Independent (map : NodeMap) (s1 s2 : Int) : Prop :=
  ∀ op probes, ((perform map s1 op).bind fun map' => observe map' s2 probes)
    = observe map s2 probes

/-! ## Live subscriptions -/

/-- `fd` is the handle of `path`, and the node's record is there. -/
def Live (map : NodeMap) (path : List Char) (fd : Int) : Prop :=
  ∃ (i : Nat) (node : DeviceNode) (sd : SubscriberData), fd = i ∧ getUorbnodefd map path = i ∧
    map.slots[i]? = some (some node) ∧ node.devname = path ∧ node.priv = .live sd

variable {map map' : NodeMap} {path : List Char} {fd s1 s2 : Int}

variable {i : Nat} {node : DeviceNode} {r : Int × DeviceNode} {mem : Bool}

theorem getUorbnode_natCast (h : map.slots[i]? = some (some node)) :
    getUorbnode map i = some node := by
  have hlt : i < map.slots.length := by
    rcases Nat.lt_or_ge i map.slots.length with hlt | hge
    · exact hlt
    · rw [getElem?_eq_none hge] at h
      cases h
  rw [map.length_eq] at hlt
  unfold getUorbnode
  rw [if_pos ⟨by omega, by omega⟩, Int.toNat_natCast, h]
  rfl

theorem getElem?_put {node' : DeviceNode} (h : map.slots[i]? = some (some node)) :
    (map.put i node').slots[i]? = some (some node') := by
  obtain ⟨hlt, -⟩ := List.getElem?_eq_some_iff.mp h
  show (map.slots.set i (some node'))[i]? = _
  rw [getElem?_set_self hlt]

theorem Live.fd_eq (h1 : Live map path s1) (h2 : Live map path s2) : s1 = s2 := by
  obtain ⟨i, -, -, rfl, hi, -⟩ := h1
  obtain ⟨j, -, -, rfl, hj, -⟩ := h2
  rw [← hi, ← hj]

/-! ## What one does, the other sees -/

theorem getInterval_live (h : Live map path fd) :
    ∃ v, orbManagerGetInterval map fd = some (0, some v) := by
  obtain ⟨i, node, sd, rfl, -, hslot, -, hpriv⟩ := h
  unfold orbManagerGetInterval ioctlGetInterval
  simp only [getUorbnode_natCast hslot, hpriv]
  cases sd.updateInterval with
  | none | some ui => exact ⟨_, rfl⟩

/-- **An interval set through one handle is the interval of the other.** -/
theorem setInterval_seen (h1 : Live map path s1) (h2 : Live map path s2) {ms : Nat} (hpos : 0 < ms)
    (hlt : ms * 1000 < 2 ^ 32) (lastUpdate : Nat) :
    ∃ map', orbManagerSetInterval (some lastUpdate) map s1 ms = some (0, map') ∧
      orbManagerGetInterval map' s2 = some (0, some ms) := by
  rw [← h1.fd_eq h2]
  obtain ⟨i, node, sd, rfl, -, hslot, -, hpriv⟩ := h1
  have harg : ¬(ms * 1000 % 2 ^ 32 = 0) := by
    rw [Nat.mod_eq_of_lt hlt]
    omega
  have hset : ∃ ui : UpdateInterval, ui.interval = ms * 1000 ∧
      ioctlSetInterval (some lastUpdate) node (ms * 1000 % 2 ^ 32)
        = some (0, { node with priv := .live { sd with updateInterval := some ui } }) := by
    unfold ioctlSetInterval
    rw [hpriv]
    simp only [if_neg harg]
    cases hui : sd.updateInterval with
    | none => exact ⟨{ lastUpdate, interval := _ }, Nat.mod_eq_of_lt hlt, rfl⟩
    | some ui => exact ⟨{ ui with interval := _ }, Nat.mod_eq_of_lt hlt, rfl⟩
  obtain ⟨ui, hui, hioctl⟩ := hset
  refine ⟨map.put i { node with priv := .live { sd with updateInterval := some ui } }, ?_, ?_⟩
  · unfold orbManagerSetInterval
    simp only [getUorbnode_natCast hslot, hioctl, bind_eq_bind, bind_some,
      Int.toNat_natCast]
  · unfold orbManagerGetInterval ioctlGetInterval
    simp only [getUorbnode_natCast (getElem?_put hslot), map_some, hui]
    rw [Nat.mul_div_cancel _ (by decide)]

theorem check_harmless (h : Live map path s1) (now : Nat) (probes : List Probe) :
    ((perform map s1 (.check now)).bind fun map' => observe map' s2 probes)
      = observe map s2 probes := by
  obtain ⟨i, node, sd, rfl, -, hslot, -, hpriv⟩ := h
  have hcheck : ∃ updated, uorbDeviceNodeAppearsUpdated now node = some updated := by
    unfold uorbDeviceNodeAppearsUpdated
    cases node.data with
    | none => exact ⟨false, rfl⟩
    | some data =>
      simp only [hpriv]
      cases sd.updateInterval with
      | none => exact ⟨_, rfl⟩
      | some ui =>
        simp only
        split <;> exact ⟨_, rfl⟩
  obtain ⟨updated, hupdated⟩ := hcheck
  unfold perform orbManagerCheck
  simp only [getUorbnode_natCast hslot, hupdated, map_some, bind_some]

theorem Live.dependent (h1 : Live map path s1) (h2 : Live map path s2) :
    ¬Independent map s1 s2 := by
  intro hind
  obtain ⟨v, hv⟩ := getInterval_live h2
  obtain ⟨ms, hpos, hlt, hne⟩ : ∃ ms, 0 < ms ∧ ms * 1000 < 2 ^ 32 ∧ ms ≠ v := by
    by_cases h : v = 1
    · exact ⟨2, by decide, by decide, by omega⟩
    · exact ⟨1, by decide, by decide, fun he => h he.symm⟩
  obtain ⟨map', hset, hget⟩ := setInterval_seen h1 h2 hpos hlt 0
  have hsame := hind (.setInterval (some 0) ms) [.getInterval]
  simp only [perform, hset, observe, probe, hget, hv, map_some, bind_some,
    bind_eq_bind, some.injEq, List.cons.injEq, Seen.interval.injEq, Prod.mk.injEq,
    and_true, true_and] at hsame
  exact hne hsame

/-! ## How a state with two subscriptions comes about -/

/-- Anything that is done to the table; checks and queries leave it as it is. -/
inductive Action where
  | register (node : DeviceNode)
  | openNode (mem : Bool) (path : List Char) (flags : Nat)
  | closeNode (fd : Int)
  | publish (heap : Option (Memory UInt8)) (i : Nat) (data : Memory UInt8)
  | copy (now oSize : Nat) (fd : Int)
  | setInterval (fresh : Option Nat) (fd : Int) (interval : Nat)

/-- A publication through the advertiser's pointer to the node in slot `i`. -/
def publishAt (map : NodeMap) (heap : Option (Memory UInt8)) (i : Nat) (data : Memory UInt8) :
    NodeMap :=
  match getUorbnode map i with
  | none => map
  | some node => map.put i (uorbDeviceNodePublish heap node data).2

def act (map : NodeMap) : Action → Option NodeMap
  | .register node => some (registerUorbDriver map node).2
  | .openNode mem path flags => (unodeOpen mem map path flags).map fun r => r.2
  | .closeNode fd => (unodeClose map fd).map fun r => r.2
  | .publish heap i data => some (publishAt map heap i data)
  | .copy now oSize fd => (orbManagerCopy now map oSize fd).map fun r => r.2
  | .setInterval fresh fd interval => (orbManagerSetInterval fresh map fd interval).map fun r => r.2

theorem getUorbnode_eq_some (h : getUorbnode map fd = some node) :
    ∃ i : Nat, fd = i ∧ map.slots[i]? = some (some node) := by
  unfold getUorbnode at h
  split at h
  · rename_i hfd
    refine ⟨fd.toNat, (Int.toNat_of_nonneg hfd.2).symm, ?_⟩
    exact Option.join_eq_some_iff.mp h
  · cases h

/-- A call through a handle finds no node, or goes on with it. -/
theorem handle_cases {ρ : Type} {x y : ρ} {f : DeviceNode → Option ρ}
    (h : (match getUorbnode map fd with | none => some x | some node => f node) = some y) :
    x = y ∨ ∃ (i : Nat) (node : DeviceNode), fd = i ∧ map.slots[i]? = some (some node) ∧ f node = some y := by
  split at h
  · exact .inl (some.inj h)
  · rename_i node hnode
    obtain ⟨i, hi, hslot⟩ := getUorbnode_eq_some hnode
    exact .inr ⟨i, node, hi, hslot, h⟩

theorem slot_of_getUorbnode {i : Nat} (h : getUorbnode map i = some node) : map.slots[i]? = some (some node) := by
  obtain ⟨j, hj, hslot⟩ := getUorbnode_eq_some h
  rwa [Int.ofNat.inj hj]

theorem getUorbnodefd_put {j : Nat} {slot : Option DeviceNode} (hslot : map.slots[j]? = some slot)
    (hname : isNamed path (some node) = isNamed path slot) :
    getUorbnodefd (map.put j node) path = getUorbnodefd map path := by
  obtain ⟨hlt, -⟩ := List.getElem?_eq_some_iff.mp hslot
  have hsame : (map.slots.set j (some node)).map (isNamed path) = map.slots.map (isNamed path) := by
    rw [map_set, hname]
    apply ext_getElem?
    intro k
    by_cases hk : j = k
    · subst hk
      rw [getElem?_set_self (by rw [length_map]; exact hlt), getElem?_map, hslot]
      rfl
    · rw [getElem?_set_ne hk]
  have hfind : ∀ l : List (Option DeviceNode), l.findIdx (isNamed path)
      = (l.map (isNamed path)).findIdx id := by
    intro l
    rw [findIdx_map]
    rfl
  show (map.slots.set j (some node)).findIdx (isNamed path) = map.slots.findIdx (isNamed path)
  rw [hfind, hsame, ← hfind]

theorem unodeOpen_cases {flags : Nat} {o : Int × NodeMap} (h : unodeOpen mem map path flags = some o) :
    (-1, map) = o ∨ ∃ node q, map.slots[getUorbnodefd map path]? = some (some node) ∧
      uorbDeviceNodeOpen mem { node with oflags := flags } = some q ∧
      (if q.1 < 0 then -1 else (getUorbnodefd map path : Int), map.put (getUorbnodefd map path) q.2) = o := by
  simp only [unodeOpen] at h
  split at h
  · exact .inl (some.inj h)
  · split at h
    · exact .inl (some.inj h)
    · rename_i node hnode
      obtain ⟨q, hq, h⟩ := bind_eq_some_iff.mp h
      exact .inr ⟨node, q, slot_of_getUorbnode hnode, hq, some.inj h⟩

theorem Live.put (h : Live map path fd) {j : Nat} {old : DeviceNode}
    (hslot : map.slots[j]? = some (some old)) (hname : node.devname = old.devname)
    (hpriv : fd = j → ∀ sd, old.priv = .live sd → ∃ sd', node.priv = .live sd') :
    Live (map.put j node) path fd := by
  obtain ⟨i, cur, sd, rfl, hi, hcur, hdev, hlive⟩ := h
  have hfind : getUorbnodefd (map.put j node) path = i := by
    rw [getUorbnodefd_put hslot (by simp only [isNamed, Option.any_some, hname])]
    exact hi
  by_cases hij : i = j
  · subst hij
    rw [hcur] at hslot
    cases hslot
    obtain ⟨sd', hsd'⟩ := hpriv rfl sd hlive
    exact ⟨i, node, sd', rfl, hfind, getElem?_put hcur, hname.trans hdev, hsd'⟩
  · refine ⟨i, cur, sd, rfl, hfind, ?_, hdev, hlive⟩
    show (map.slots.set j (some node))[i]? = _
    rw [getElem?_set_ne (fun he => hij he.symm), hcur]

theorem publish_keeps (heap : Option (Memory UInt8)) (node : DeviceNode) (data : Memory UInt8) :
    (uorbDeviceNodePublish heap node data).2.devname = node.devname ∧
      (uorbDeviceNodePublish heap node data).2.priv = node.priv := by
  have hwrite : (uorbDeviceNodeWrite heap node data node.oSize).2.devname = node.devname ∧
      (uorbDeviceNodeWrite heap node data node.oSize).2.priv = node.priv := by
    simp only [uorbDeviceNodeWrite]
    cases (node.data <|> heap) with
    | none => exact ⟨rfl, rfl⟩
    | some ring =>
      simp only
      split <;> exact ⟨rfl, rfl⟩
  simp only [uorbDeviceNodePublish]
  split
  · exact hwrite
  · split <;> exact hwrite

theorem read_keeps {now oSize : Nat} {r : ReadResult}
    (h : uorbDeviceNodeRead now node oSize = some r) :
    r.node.devname = node.devname ∧
      ∀ sd, node.priv = .live sd → ∃ sd', r.node.priv = .live sd' := by
  unfold uorbDeviceNodeRead at h
  split at h
  · cases h
    exact ⟨rfl, fun sd hsd => ⟨sd, hsd⟩⟩
  · split at h
    · cases h
      exact ⟨rfl, fun sd hsd => ⟨sd, hsd⟩⟩
    · split at h
      · cases h
        exact ⟨rfl, fun _ _ => ⟨_, rfl⟩⟩
      · cases h

theorem setInterval_keeps {fresh : Option Nat} {arg : Nat}
    (h : ioctlSetInterval fresh node arg = some r) :
    r.2.devname = node.devname ∧ ∀ sd, node.priv = .live sd → ∃ sd', r.2.priv = .live sd' := by
  unfold ioctlSetInterval at h
  split at h
  · simp only at h
    split at h
    · cases h
      exact ⟨rfl, fun _ _ => ⟨_, rfl⟩⟩
    · split at h
      · cases h
        exact ⟨rfl, fun _ _ => ⟨_, rfl⟩⟩
      · cases h
        exact ⟨rfl, fun _ _ => ⟨_, rfl⟩⟩
      · cases h
        exact ⟨rfl, fun sd hsd => ⟨sd, hsd⟩⟩
  · cases h

theorem open_keeps (h : uorbDeviceNodeOpen mem node = some r) :
    r.2.devname = node.devname ∧ ∀ sd, node.priv = .live sd → ∃ sd', r.2.priv = .live sd' := by
  unfold uorbDeviceNodeOpen at h
  split at h
  · cases h
    exact ⟨rfl, fun sd hsd => ⟨sd, hsd⟩⟩
  · split at h
    · split at h
      · cases h
        exact ⟨rfl, fun _ _ => ⟨_, rfl⟩⟩
      · cases h
    · cases h
      exact ⟨rfl, fun sd hsd => ⟨sd, hsd⟩⟩

theorem close_keeps (h : uorbDeviceNodeClose node = some r) : r.2.devname = node.devname := by
  unfold uorbDeviceNodeClose at h
  split at h
  · split at h
    · cases h
      rfl
    · cases h
      rfl
    · cases h
  · cases h
    rfl

theorem Live.register (h : Live map path fd) (node : DeviceNode) :
    Live (registerUorbDriver map node).2 path fd := by
  unfold registerUorbDriver
  split
  · exact h
  · rename_i hnew
    split
    · exact h
    · rename_i hfree
      have hfind : map.slots.findIdx Option.isNone < map.slots.length := by
        have hle : map.slots.findIdx Option.isNone ≤ map.slots.length := findIdx_le_length
        rw [map.length_eq] at hle ⊢
        exact Nat.lt_of_le_of_ne hle hfree
      have hnone : map.slots[map.slots.findIdx Option.isNone]? = some none := by
        rw [getElem?_eq_getElem hfind]
        have := findIdx_getElem (w := hfind)
        rw [isNone_iff_eq_none] at this
        rw [this]
      obtain ⟨i, cur, sd, rfl, hi, hcur, hdev, hlive⟩ := h
      have hother : isNamed path (some node) = false := by
        rw [Bool.eq_false_iff]
        intro hnamed
        apply hnew
        rw [List.any_eq_true]
        refine ⟨some cur, mem_of_getElem? hcur, ?_⟩
        simp only [isNamed, Option.any_some, decide_eq_true_eq] at hnamed ⊢
        rw [hdev, hnamed]
      have hne : map.slots.findIdx Option.isNone ≠ i := by
        intro he
        rw [he, hcur] at hnone
        cases hnone
      refine ⟨i, cur, sd, rfl, ?_, ?_, hdev, hlive⟩
      · rw [getUorbnodefd_put hnone (by rw [hother]; rfl)]
        exact hi
      · show (map.slots.set _ (some node))[i]? = _
        rw [getElem?_set_ne hne, hcur]

theorem Live.publish (h : Live map path fd) (heap : Option (Memory UInt8)) (i : Nat)
    (data : Memory UInt8) : Live (publishAt map heap i data) path fd := by
  unfold publishAt
  split
  · exact h
  · rename_i node hnode
    obtain ⟨hname, hpriv⟩ := publish_keeps heap node data
    exact h.put (slot_of_getUorbnode hnode) hname fun _ sd hsd => ⟨sd, hpriv.trans hsd⟩

/-- **A subscription stays live through everything but a close of its handle.** -/
theorem Live.act (h : Live map path fd) {a : Action} (hact : act map a = some map')
    (hclose : a ≠ .closeNode fd) : Live map' path fd := by
  cases a with
  | register node =>
    cases hact
    exact h.register node
  | openNode mem path' flags =>
    obtain ⟨r, hr, rfl⟩ := map_eq_some_iff.mp hact
    obtain rfl | ⟨node, q, hslot, hq, rfl⟩ := unodeOpen_cases hr
    · exact h
    · obtain ⟨hname, hpriv⟩ := open_keeps hq
      exact h.put hslot hname fun _ => hpriv
  | closeNode fd' =>
    obtain ⟨r, hr, rfl⟩ := map_eq_some_iff.mp hact
    obtain rfl | ⟨i, node, rfl, hslot, hr⟩ := handle_cases hr
    · exact h
    · obtain ⟨q, hq, hr⟩ := bind_eq_some_iff.mp hr
      cases hr
      rw [Int.toNat_natCast]
      exact h.put hslot (close_keeps hq) fun he =>
        absurd (congrArg Action.closeNode he.symm) hclose
  | publish heap i data =>
    have heq : publishAt map heap i data = map' := some.inj hact
    rw [← heq]
    exact h.publish heap i data
  | copy now oSize fd' =>
    obtain ⟨r, hr, rfl⟩ := map_eq_some_iff.mp hact
    obtain rfl | ⟨i, node, rfl, hslot, hr⟩ := handle_cases hr
    · exact h
    · obtain ⟨q, hq, hr⟩ := bind_eq_some_iff.mp hr
      cases hr
      obtain ⟨hname, hpriv⟩ := read_keeps hq
      rw [Int.toNat_natCast]
      exact h.put hslot hname fun _ => hpriv
  | setInterval fresh fd' interval =>
    obtain ⟨r, hr, rfl⟩ := map_eq_some_iff.mp hact
    obtain rfl | ⟨i, node, rfl, hslot, hr⟩ := handle_cases hr
    · exact h
    · obtain ⟨q, hq, hr⟩ := bind_eq_some_iff.mp hr
      cases hr
      obtain ⟨hname, hpriv⟩ := setInterval_keeps hq
      rw [Int.toNat_natCast]
      exact h.put hslot hname fun _ => hpriv

theorem Live.run : ∀ {acts : List Action} {map : NodeMap}, Live map path fd →
    acts.foldlM Uorb.act map = some map' → (∀ a ∈ acts, a ≠ .closeNode fd) → Live map' path fd
  | [], map, h, hrun, _ => by
    cases hrun
    exact h
  | a :: acts, map, h, hrun, hclose => by
    rw [foldlM_cons] at hrun
    obtain ⟨map1, hact, hrun⟩ := bind_eq_some_iff.mp hrun
    exact Live.run (h.act hact (hclose a mem_cons_self)) hrun
      fun b hb => hclose b (mem_cons_of_mem _ hb)

theorem named_of_getUorbnodefd (hfind : getUorbnodefd map path = i)
    (hslot : map.slots[i]? = some (some node)) : node.devname = path := by
  subst hfind
  obtain ⟨hlt, hget⟩ := List.getElem?_eq_some_iff.mp hslot
  have hnamed : isNamed path (map.slots[getUorbnodefd map path]) = true :=
    findIdx_getElem (w := hlt)
  rw [hget] at hnamed
  simpa only [isNamed, Option.any_some, decide_eq_true_eq] using hnamed

theorem open_rdonly (h : uorbDeviceNodeOpen mem { node with oflags := rdonly } = some r) :
    r.1 = 0 ∧ r.2.devname = node.devname ∧ ∃ sd, r.2.priv = .live sd := by
  cases mem with
  | false => cases h
  | true =>
    cases h
    exact ⟨rfl, rfl, _, rfl⟩

theorem subscribe_live (h : orbManagerSubscribe mem map path = some (fd, map')) (hfd : 0 ≤ fd) :
    Live map' path fd := by
  rcases unodeOpen_cases h with hr | ⟨node, q, hslot, hq, hr⟩
  · cases hr
    cases hfd
  · have hnamed := named_of_getUorbnodefd rfl hslot
    obtain ⟨hret, hdev, sd, hpriv⟩ := open_rdonly hq
    rw [hret] at hr
    cases hr
    have hput : getUorbnodefd (map.put _ q.2) path = _ :=
      getUorbnodefd_put hslot (by simp only [isNamed, Option.any_some, hdev])
    exact ⟨_, q.2, sd, rfl, hput, getElem?_put hslot, hdev.trans hnamed, hpriv⟩

/--
The table `map` has two live subscriptions `s1` and `s2` to `path`: both were granted, one after
the other, and whatever else happened, neither handle was closed.
-/
def TwoSubscriptions (path : List Char) (map : NodeMap) (s1 s2 : Int) : Prop :=
  ∃ (map0 map1 map2 map3 : NodeMap) (mem mem' : Bool) (acts acts' : List Action),
    orbManagerSubscribe mem map0 path = some (s1, map1) ∧ 0 ≤ s1 ∧
    acts.foldlM act map1 = some map2 ∧
    orbManagerSubscribe mem' map2 path = some (s2, map3) ∧ 0 ≤ s2 ∧
    acts'.foldlM act map3 = some map ∧
    (∀ a ∈ acts ++ acts', a ≠ .closeNode s1 ∧ a ≠ .closeNode s2)

theorem TwoSubscriptions.live (h : TwoSubscriptions path map s1 s2) :
    Live map path s1 ∧ Live map path s2 := by
  obtain ⟨map0, map1, map2, map3, mem, mem', acts, acts', h1, hs1, hrun, h2, hs2, hrun', hclose⟩ := h
  have hlive1 : Live map2 path s1 := (subscribe_live h1 hs1).run hrun fun a ha =>
    (hclose a (mem_append_left _ ha)).1
  have hopen : act map2 (.openNode mem' path rdonly) = some map3 := by
    show (orbManagerSubscribe mem' map2 path).map _ = _
    rw [h2]
    rfl
  have hlive1' : Live map3 path s1 := hlive1.act hopen (by simp)
  have hlive2 : Live map3 path s2 := subscribe_live h2 hs2
  exact ⟨hlive1'.run hrun' fun a ha => (hclose a (mem_append_right _ ha)).1,
    hlive2.run hrun' fun a ha => (hclose a (mem_append_right _ ha)).2⟩

/--
**Two subscriptions to one topic instance are never independent.**

In no state with two live subscriptions does every operation on the one leave what the other
sees alone: there is always an interval that one can set and the other then gets. A check, for
its part, never disturbs.
-/
theorem not_independent (h : TwoSubscriptions path map s1 s2) :
    ¬Independent map s1 s2 ∧
      ∀ now probes, ((perform map s1 (.check now)).bind fun map' => observe map' s2 probes)
        = observe map s2 probes := by
  obtain ⟨h1, h2⟩ := h.live
  exact ⟨h1.dependent h2, check_harmless h1⟩

/-- **After one has unsubscribed, the other has a pointer to freed memory.** -/
theorem unsubscribe_frees (h : TwoSubscriptions path map s1 s2)
    (hflags : ∀ node, getUorbnode map s1 = some node → node.oflags = rdonly) :
    ∃ map', orbManagerUnsubscribe map s1 = some (0, map') ∧ orbManagerGetInterval map' s2 = none := by
  obtain ⟨h1, h2⟩ := h.live
  rw [← h1.fd_eq h2]
  obtain ⟨i, node, sd, rfl, -, hslot, -, hpriv⟩ := h1
  have hro := hflags node (getUorbnode_natCast hslot)
  let closed : DeviceNode :=
    { node with priv := .freed, subscriberCount := toInt8 (node.subscriberCount - 1) }
  refine ⟨map.put i closed, ?_, ?_⟩
  · unfold orbManagerUnsubscribe unodeClose uorbDeviceNodeClose
    simp only [getUorbnode_natCast hslot, if_pos hro, hpriv, bind_eq_bind, bind_some,
      Int.toNat_natCast]
    rfl
  · unfold orbManagerGetInterval ioctlGetInterval
    simp only [getUorbnode_natCast (getElem?_put hslot)]
    rfl

def sharedMap : NodeMap :=
  NodeMap.empty.put 0 { uorbDeviceNodeInit ['t', '0'] 1 1 with
    oflags := rdonly, subscriberCount := 2, priv := .live { generation := 0, updateInterval := none } }

theorem sharedMap_twoSubscriptions : TwoSubscriptions ['t', '0'] sharedMap 0 0 :=
  ⟨NodeMap.empty.put 0 (uorbDeviceNodeInit ['t', '0'] 1 1), _, _, _, true, true, [], [], rfl,
    by decide, rfl, rfl, by decide, rfl, by intro a ha; cases ha⟩

theorem unsubscribe_frees_sharedMap : ∃ map', orbManagerUnsubscribe sharedMap 0 = some (0, map') ∧
    orbManagerGetInterval map' 0 = none :=
  unsubscribe_frees sharedMap_twoSubscriptions fun _ h => by
    cases h
    rfl

theorem not_independent_sharedMap : ¬Independent sharedMap 0 0 :=
  (not_independent sharedMap_twoSubscriptions).1

/--
The first subscriber sets an interval of 7 ms: the second, which had none, now has it. The
first unsubscribes: the second's next query follows freed memory.
-/
theorem interval_leaks :
    TwoSubscriptions ['t', '0'] sharedMap 0 0 ∧
      observe sharedMap 0 [.getInterval] = some [.interval (0, some 0)] ∧
      ((perform sharedMap 0 (.setInterval (some 0) 7)).bind fun map => observe map 0 [.getInterval])
        = some [.interval (0, some 7)] ∧
      ((perform sharedMap 0 .unsubscribe).bind fun map => observe map 0 [.getInterval]) = none :=
  ⟨sharedMap_twoSubscriptions, rfl, rfl, rfl⟩

end Gpmx.Uorb
