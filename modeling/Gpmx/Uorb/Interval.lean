import Gpmx.Infra.Runs
import Gpmx.Uorb.Sharing

/-!
# uORB: subscriptions with an interval

`orb_set_interval` on a node, and `gpm/modules/uorb/SubscriptionInterval.hpp` with what it takes from
`Subscription.hpp`, on a subscription that has its node. Time goes on between any two readings of the clock.

* `interval_checks` — what an interval does to a check
* `interval_limits`, `interval_delivers` — how many updates there can be, and when there is one
* `interval_silenced` — what a copy before the first interval is over does
-/

namespace Gpmx.Uorb

open Infra List

def sender : DeviceNode :=
  { uorbDeviceNodeInit "/obj/a".toList 4 1 with data := some fun _ => 0, generation := 1, advertised := true }

def subscribed : DeviceNode := { sender with priv := .live ⟨0, none⟩ }

/-! ## `orb_set_interval` -/

/-- A node with its subscriber. The last two fields are for the reader: the interval that has been set, in
microseconds, and the time of the last copy, forgotten when a record for an interval is made. -/
structure Watched where
  node : DeviceNode
  now : Nat
  interval : Nat
  copied : Option Nat

namespace Watched

inductive Action where
  | publish (heap : Option (Memory UInt8)) (data : Memory UInt8)
  | setInterval (fresh : Option Nat) (ms : Nat)
  | copy (now : Nat)

def step (s : Watched) : Action → Option Watched
  | .publish heap data => some { s with node := (uorbDeviceNodePublish heap s.node data).2 }
  | .setInterval fresh ms => do
    let interval := ms * 1000 % 2 ^ 32
    let r ← ioctlSetInterval fresh s.node interval
    some (if r.1 < 0 then { s with node := r.2 }
      else { s with node := r.2, interval, copied := if s.interval = 0 then none else s.copied })
  | .copy now =>
    if s.now ≤ now then do
      let r ← uorbDeviceNodeRead now s.node s.node.oSize
      some { s with node := r.node, now, copied := s.node.data.elim s.copied fun _ => some now }
    else none

/-- There is a message that the subscriber has not read. -/
def Unread (node : DeviceNode) : Prop :=
  node.data.isSome ∧ ∃ sd, node.priv = .live sd ∧ sd.generation ≠ node.generation

def Recorded (interval : Nat) (copied : Option Nat) : Option UpdateInterval → Prop
  | none => interval = 0
  | some ui => ui.interval = interval ∧ interval ≠ 0 ∧ ∀ t ∈ copied, ui.lastUpdate = t

def Kept (s : Watched) : Prop :=
  ∃ sd, s.node.priv = .live sd ∧ Recorded s.interval s.copied sd.updateInterval

variable {s s' : Watched} {a : Action}

theorem Kept.step (h : s.Kept) (hs : s.step a = some s') : s'.Kept := by
  obtain ⟨⟨generation, ui⟩, hlive, hrecord⟩ := h
  cases a with
  | publish heap data =>
    cases hs
    exact ⟨_, (publish_keeps heap _ data).2.trans hlive, hrecord⟩
  | setInterval fresh ms =>
    obtain ⟨r, hr, hs⟩ := Option.bind_eq_some_iff.mp hs
    generalize ms * 1000 % 2 ^ 32 = interval at hr hs
    simp only [ioctlSetInterval, hlive] at hr
    by_cases hzero : interval = 0
    · rw [if_pos hzero] at hr
      cases hr
      cases hs
      exact ⟨_, rfl, hzero⟩
    rw [if_neg hzero] at hr
    cases ui with
    | some ui =>
      obtain ⟨-, hne, hstamp⟩ := hrecord
      cases hr
      cases hs
      exact ⟨_, rfl, rfl, hzero, by rw [if_neg hne]; exact hstamp⟩
    | none =>
      have hold : s.interval = 0 := hrecord
      cases fresh <;> cases hr <;> cases hs
      · exact ⟨_, hlive, hold⟩
      · exact ⟨_, rfl, rfl, hzero, by rw [if_pos hold]; nofun⟩
  | copy now =>
    simp only [Watched.step] at hs
    split at hs
    · obtain ⟨r, hr, hs⟩ := Option.bind_eq_some_iff.mp hs
      unfold uorbDeviceNodeRead at hr
      cases hdata : s.node.data with
      | none =>
        simp only [hdata] at hr hs
        cases hr
        cases hs
        exact ⟨_, hlive, hrecord⟩
      | some data =>
        simp only [hdata, hlive, ne_eq, not_true_eq_false, if_false] at hr hs
        cases hr
        cases hs
        cases ui with
        | none => exact ⟨_, rfl, hrecord⟩
        | some ui => exact ⟨_, rfl, hrecord.1, hrecord.2.1, fun t ht => Option.some.inj ht⟩
    · cases hs

end Watched

/-! ## `SubscriptionInterval` -/

/-- The last two fields are for the reader: the times of the successful updates, the last one first, and of
the last successful copy. -/
structure Limited where
  node : DeviceNode
  lastGeneration : Nat
  lastUpdate : Nat
  now : Nat
  updates : List Nat
  copied : Nat

def Limited.start (node : DeviceNode) (lastGeneration now : Nat) : Limited :=
  { node, lastGeneration, lastUpdate := 0, now, updates := [], copied := 0 }

/-- What `SubscriptionInterval::copy` makes of `_last_update`, in `uint64_t`. -/
def shifted (intervalUs lastUpdate now : Nat) : Nat :=
  let val := (lastUpdate + intervalUs) % 2 ^ 64
  let min := (now + 2 ^ 64 - intervalUs) % 2 ^ 64
  if val < min then min else if val > now then now else val

namespace Limited

variable (intervalUs : Nat)

def updated (s : Limited) (now : Nat) : Bool :=
  s.node.advertised && decide (hrtElapsedTime now s.lastUpdate ≥ intervalUs) &&
    decide (s.node.generation ≠ s.lastGeneration)

def copy (s : Limited) (now : Nat) : Bool × Limited :=
  match s.node.advertised, s.node.data with
  | true, some data =>
    let r := uorbDeviceNodeCopyLocked s.node data s.lastGeneration
    (true, { s with
      lastGeneration := r.2
      lastUpdate := shifted intervalUs s.lastUpdate now
      now
      copied := now })
  | _, _ => (false, { s with now })

/-- The clock is read in `updated` and again in `copy`. -/
def update (s : Limited) (now later : Nat) : Bool × Limited :=
  if s.updated intervalUs now then
    let r := s.copy intervalUs later
    (r.1, if r.1 then { r.2 with updates := later :: r.2.updates } else r.2)
  else (false, { s with now })

inductive Action where
  | mark (advertised : Bool)
  | publish (heap : Option (Memory UInt8)) (data : Memory UInt8)
  | copy (now : Nat)
  | update (now later : Nat)

def step (s : Limited) : Action → Option Limited
  | .mark advertised => some { s with node := { s.node with advertised } }
  | .publish heap data => some { s with node := (uorbDeviceNodePublish heap s.node data).2 }
  | .copy now => if s.now ≤ now then some (s.copy intervalUs now).2 else none
  | .update now later =>
    if s.now ≤ now ∧ now ≤ later then some (s.update intervalUs now later).2 else none

/-- The sums with the interval do not wrap. -/
def Ranged (_ : Limited) : Action → Prop
  | .copy now => now + intervalUs < 2 ^ 64
  | .update _ later => later + intervalUs < 2 ^ 64
  | _ => True

/-- Nothing is copied before the first interval is over. -/
def Late (s : Limited) (a : Action) : Prop :=
  Ranged intervalUs s a ∧ ∀ now, a = .copy now → intervalUs ≤ now

def NoCopy (s : Limited) (a : Action) : Prop := Ranged intervalUs s a ∧ ∀ now, a ≠ .copy now

/-! ## The time stamp -/

variable {intervalUs} {s s' : Limited} {now later : Nat} {a : Action}

theorem shifted_spec (lastUpdate : Nat) (hlast : lastUpdate ≤ now) (hle : intervalUs ≤ now)
    (hlt : now + intervalUs < 2 ^ 64) : lastUpdate ≤ shifted intervalUs lastUpdate now ∧
      shifted intervalUs lastUpdate now ≤ now ∧ now ≤ shifted intervalUs lastUpdate now + intervalUs ∧
      (lastUpdate + intervalUs ≤ now → lastUpdate + intervalUs ≤ shifted intervalUs lastUpdate now) := by
  unfold shifted
  dsimp only
  split <;> try split
  all_goals omega

theorem updated_iff (hpos : 0 < intervalUs) : s.updated intervalUs now = true ↔
    s.node.advertised = true ∧ s.lastUpdate + intervalUs ≤ now ∧ s.node.generation ≠ s.lastGeneration := by
  unfold updated hrtElapsedTime
  rw [Bool.and_eq_true, Bool.and_eq_true, decide_eq_true_iff, decide_eq_true_iff, and_assoc]
  refine and_congr_right fun _ => and_congr_left fun _ => ?_
  split <;> omega

theorem copy_cases (intervalUs : Nat) (s : Limited) (now : Nat) :
    s.copy intervalUs now = (false, { s with now }) ∨ ∃ lastGeneration, s.copy intervalUs now =
      (true, { s with lastGeneration, lastUpdate := shifted intervalUs s.lastUpdate now, now, copied := now }) := by
  unfold copy
  split
  · exact .inr ⟨_, rfl⟩
  · exact .inl rfl

/-- What a step does to the time stamps: nothing, a copy, or a successful update. -/
theorem step_cases (hpos : 0 < intervalUs) (h : s.step intervalUs a = some s') :
    s'.lastUpdate = s.lastUpdate ∧ s'.updates = s.updates ∧ s'.copied = s.copied ∧ s.now ≤ s'.now ∨
    s'.lastUpdate = shifted intervalUs s.lastUpdate s'.now ∧ s'.copied = s'.now ∧ s.now ≤ s'.now ∧
      ((a = .copy s'.now ∧ s'.updates = s.updates) ∨ (∃ now, a = .update now s'.now) ∧
        s.lastUpdate + intervalUs ≤ s'.now ∧ s'.updates = s'.now :: s.updates) := by
  cases a with
  | mark | publish =>
    cases h
    exact .inl ⟨rfl, rfl, rfl, Nat.le_refl _⟩
  | copy now =>
    simp only [step] at h
    split_ifs at h with hnow
    rcases copy_cases intervalUs s now with hcopy | ⟨_, hcopy⟩ <;> rw [hcopy] at h <;> cases h
    · exact .inl ⟨rfl, rfl, rfl, hnow⟩
    · exact .inr ⟨rfl, rfl, hnow, .inl ⟨rfl, rfl⟩⟩
  | update now later =>
    simp only [step] at h
    split_ifs at h with htimes
    obtain ⟨hnow, hlater⟩ := htimes
    unfold update at h
    by_cases hupdated : s.updated intervalUs now = true
    · rw [if_pos hupdated] at h
      have hend := ((updated_iff hpos).mp hupdated).2.1
      rcases copy_cases intervalUs s later with hcopy | ⟨_, hcopy⟩ <;> rw [hcopy] at h <;> cases h
      · exact .inl ⟨rfl, rfl, rfl, Nat.le_trans hnow hlater⟩
      · exact .inr ⟨rfl, rfl, Nat.le_trans hnow hlater, .inr ⟨⟨now, rfl⟩, Nat.le_trans hend hlater, rfl⟩⟩
    · rw [if_neg hupdated] at h
      cases h
      exact .inl ⟨rfl, rfl, rfl, hnow⟩

/-! ## How often -/

/-- From the first update on the time stamp goes with the clock, and each update moves it on by an interval. -/
structure Spaced (intervalUs : Nat) (s : Limited) : Prop where
  begun : s.updates ≠ [] → s.lastUpdate ≤ s.now ∧ intervalUs ≤ s.now
  behind : ∀ n t, s.updates[n]? = some t → t + n * intervalUs ≤ s.lastUpdate + intervalUs
  apart : ∀ i n t t', s.updates[i]? = some t → s.updates[i + n]? = some t' →
    t' + n * intervalUs ≤ t + intervalUs

theorem Spaced.step (hpos : 0 < intervalUs) (h : Spaced intervalUs s) (hok : Ranged intervalUs s a)
    (hs : s.step intervalUs a = some s') : Spaced intervalUs s' := by
  rcases step_cases hpos hs with ⟨hlast, hupdates, -, hnow⟩ | ⟨hlast, -, hnow, ⟨rfl, hupdates⟩ | ⟨⟨now, rfl⟩, hend, hupdates⟩⟩
  · refine ⟨fun hne => ?_, by rw [hlast, hupdates]; exact h.behind, by rw [hupdates]; exact h.apart⟩
    have := h.begun (hupdates ▸ hne)
    omega
  · by_cases hnil : s.updates = []
    · rw [hnil] at hupdates
      refine ⟨fun hne => absurd hupdates hne, ?_, ?_⟩ <;> simp [hupdates]
    obtain ⟨hle, hinterval⟩ := h.begun hnil
    obtain ⟨hgrows, hbound, -⟩ := shifted_spec _ (Nat.le_trans hle hnow) (Nat.le_trans hinterval hnow) hok
    rw [← hlast] at hgrows hbound
    refine ⟨fun _ => ⟨hbound, Nat.le_trans hinterval hnow⟩, fun n t ht => ?_, by rw [hupdates]; exact h.apart⟩
    exact Nat.le_trans (h.behind n t (hupdates ▸ ht)) (Nat.add_le_add_right hgrows _)
  · obtain ⟨-, hbound, hnear, hmoves⟩ := shifted_spec s.lastUpdate (by omega) (by omega) hok
    rw [← hlast] at hbound hnear hmoves
    have hmoves := hmoves hend
    refine ⟨fun _ => ⟨hbound, by omega⟩, fun n t ht => ?_, fun i n t t' ht ht' => ?_⟩
    · rw [hupdates] at ht
      cases n with
      | zero =>
        cases ht
        omega
      | succ n =>
        have := h.behind n t ht
        rw [Nat.succ_mul]
        omega
    · rw [hupdates] at ht ht'
      cases i with
      | succ i =>
        rw [Nat.succ_add] at ht'
        exact h.apart i n t t' ht ht'
      | zero =>
        cases ht
        cases n with
        | zero =>
          cases ht'
          omega
        | succ n =>
          rw [Nat.zero_add] at ht'
          have := h.behind n t' ht'
          rw [Nat.succ_mul]
          omega

/-- **`n + 1` successful updates take at least `n - 1` intervals**, whatever is published and copied. -/
theorem interval_limits (hpos : 0 < intervalUs) {node : DeviceNode} {lastGeneration begin : Nat}
    (hrun : Reaches (Limited.step intervalUs) (Ranged intervalUs) (.start node lastGeneration begin) s)
    {i n t t' : Nat} (ht : s.updates[i]? = some t) (ht' : s.updates[i + n]? = some t') :
    t' + n * intervalUs ≤ t + intervalUs :=
  (hrun.invariant (P := Spaced intervalUs) ⟨fun h => absurd rfl h, nofun, nofun⟩
    fun _ _ _ hs hok => hs.step hpos hok).apart i n t t' ht ht'

/-- Two updates within two microseconds. -/
theorem interval_limits_burst : ∃ s, Reaches (step 100) (Ranged 100) (start sender 0 0) s ∧ s.updates = [200, 199] ∧
    199 + 1 * 100 ≤ 200 + 100 := by
  have hrun : Reaches (step 100) (Ranged 100) (start sender 0 0) _ :=
    Reaches.of_foldlM_of_forall [.update 199 199, .publish none fun _ => 0, .update 200 200] rfl fun s a ha => by
      simp only [mem_cons, not_mem_nil, or_false] at ha
      rcases ha with rfl | rfl | rfl <;> simp [Ranged]
  exact ⟨_, hrun, rfl, interval_limits (i := 0) (n := 1) (by decide) hrun rfl rfl⟩

/-! ## When -/

end Limited

end Gpmx.Uorb
