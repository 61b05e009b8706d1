import Gpmx.Infra.Runs

/-!
# Objects that are open when they are unlinked

The object behind a name can be opened any number of times. When the name is taken away the object stays
for those who have it open, and it is given back when the last of them closes it, or at once if there is
none. A driver counts the opens in the object itself.

* `Driver` — the calls of a driver; `Driver.step` — the object among its users
* `Shared.Balanced` — what is released is what was acquired, once, and at the right time
* `Driver.Counts` — what the calls do to the count; `Driver.Counts.all_balanced` — then every run is balanced
-/

namespace Gpmx.Infra

/-- A call returns a value, which is negative for an error, and the object, if it is still there, with
what was released. `W` is what the environment answers, and `U` what can be done with an open object. -/
structure Driver (D W U P : Type) where
  onOpen : D → W → Int × D
  onClose : D → W → Int × Option D × List P
  onUnlink : D → W → Int × Option D × List P
  onUse : D → U → D
  /-- what the object holds, itself included -/
  parts : D → List P

/-- An object and its users. What it has acquired and released is kept when it is gone. -/
structure Shared (D P : Type) where
  object : Option D
  opens : Nat
  unlinked : Bool
  acquired : List P
  released : List P

inductive Request (W U : Type) where
  | open (answer : W)
  | close (answer : W)
  | unlink (answer : W)
  | use (what : U)

variable {D W U P : Type} {drv : Driver D W U P} {s s' : Shared D P}

def Shared.Gone (s : Shared D P) : Prop := s.unlinked = true ∧ s.opens = 0

instance (s : Shared D P) : Decidable s.Gone := inferInstanceAs (Decidable (_ ∧ _))

def Shared.Allows (s : Shared D P) : Request W U → Prop
  | .open _ | .unlink _ => ¬s.Gone
  | .close _ | .use _ => 0 < s.opens

instance (s : Shared D P) : (r : Request W U) → Decidable (s.Allows r)
  | .open _ | .unlink _ => inferInstanceAs (Decidable ¬s.Gone)
  | .close _ | .use _ => inferInstanceAs (Decidable (0 < s.opens))

namespace Driver

def start (drv : Driver D W U P) (d : D) : Shared D P := ⟨some d, 0, false, drv.parts d, []⟩

def settle (drv : Driver D W U P) (s : Shared D P) (opens : Nat) (unlinked : Bool)
    (r : Option D × List P) : Shared D P where
  object := r.1
  opens := opens
  unlinked := unlinked
  acquired := r.1.elim s.acquired drv.parts
  released := s.released ++ r.2

/-- One call. An error leaves the users as they are; `none` is a call on an object that is not there. -/
def step (drv : Driver D W U P) (s : Shared D P) : Request W U → Option (Shared D P)
  | .open answer => s.object.map fun d =>
    let r := drv.onOpen d answer
    drv.settle s (if r.1 < 0 then s.opens else s.opens + 1) s.unlinked (some r.2, [])
  | .close answer => s.object.map fun d =>
    let r := drv.onClose d answer
    drv.settle s (if r.1 < 0 then s.opens else s.opens - 1) s.unlinked r.2
  | .unlink answer => s.object.map fun d =>
    let r := drv.onUnlink d answer
    drv.settle s s.opens (if r.1 < 0 then s.unlinked else true) r.2
  | .use what => s.object.map fun d => drv.settle s s.opens s.unlinked (some (drv.onUse d what), [])

end Driver

/-- The object is there exactly as long as somebody can come to it; what it had is released then and not
before, each part once; and a count of zero means that nobody has it open. -/
structure Shared.Balanced (count : D → Nat) (s : Shared D P) : Prop where
  gone : s.object = none ↔ s.Gone
  released : s.released = if s.Gone then s.acquired else []
  once : s.released.Nodup
  counted : ∀ d, s.object = some d → count d = 0 → s.opens = 0

structure Driver.Counts (drv : Driver D W U P) (count : D → Nat) (marked : D → Bool)
    (room : Nat → Prop) : Prop where
  nodup : ∀ d, (drv.parts d).Nodup
  marked_open : ∀ d w, marked (drv.onOpen d w).2 = marked d
  count_open : ∀ d w, room (count d) →
    count (drv.onOpen d w).2 = if (drv.onOpen d w).1 < 0 then count d else count d + 1
  close : ∀ d w, 0 < count d →
    if (drv.onClose d w).1 < 0 ∨ ¬(count d = 1 ∧ marked d = true) then
      ∃ d', (drv.onClose d w).2 = (some d', []) ∧ marked d' = marked d ∧
        count d' = if (drv.onClose d w).1 < 0 then count d else count d - 1
    else (drv.onClose d w).2 = (none, drv.parts d)
  unlink : ∀ d w,
    if (drv.onUnlink d w).1 < 0 ∨ count d ≠ 0 then
      ∃ d', (drv.onUnlink d w).2 = (some d', []) ∧ count d' = count d ∧
        marked d' = if (drv.onUnlink d w).1 < 0 then marked d else true
    else (drv.onUnlink d w).2 = (none, drv.parts d)
  marked_use : ∀ d u, marked (drv.onUse d u) = marked d
  count_use : ∀ d u, count (drv.onUse d u) = count d

/-! ## Runs -/

/-- A request that is allowed, and has room for the open that it is. -/
def Shared.AllowsIn (room : Nat → Prop) (s : Shared D P) (r : Request W U) : Prop :=
  s.Allows r ∧ match r with
    | .open _ => room s.opens
    | _ => True

instance (room : Nat → Prop) [DecidablePred room] (s : Shared D P) :
    (r : Request W U) → Decidable (s.AllowsIn room r)
  | .open _ => inferInstanceAs (Decidable (_ ∧ room s.opens))
  | .close _ | .unlink _ | .use _ => inferInstanceAs (Decidable (_ ∧ True))

/-- The object has the count and the mark, and what it holds; or it is gone, and that is released. -/
def Shared.Tracks (drv : Driver D W U P) (count : D → Nat) (marked : D → Bool) (s : Shared D P) : Prop :=
  match s.object with
  | some d => ¬s.Gone ∧ count d = s.opens ∧ marked d = s.unlinked ∧ s.acquired = drv.parts d ∧
      s.released = []
  | none => s.Gone ∧ s.released = s.acquired ∧ s.released.Nodup

namespace Driver.Counts

variable {count : D → Nat} {marked : D → Bool} {room : Nat → Prop}

variable {d : D} {opens : Nat} {unlinked : Bool}

theorem tracks_start (hcount : count d = 0) (hmarked : marked d = false) :
    (drv.start d).Tracks drv count marked := by
  simp [Shared.Tracks, Driver.start, Shared.Gone, hcount, hmarked]

theorem tracks_kept (hgone : ¬(unlinked = true ∧ opens = 0)) (hcount : count d = opens)
    (hmarked : marked d = unlinked) (hreleased : s.released = []) :
    (drv.settle s opens unlinked (some d, [])).Tracks drv count marked :=
  ⟨hgone, hcount, hmarked, rfl, by simp [Driver.settle, hreleased]⟩

theorem tracks_torn (h : drv.Counts count marked room) (hgone : unlinked = true ∧ opens = 0)
    (hacquired : s.acquired = drv.parts d) (hreleased : s.released = []) :
    (drv.settle s opens unlinked (none, drv.parts d)).Tracks drv count marked := by
  refine ⟨hgone, ?_, ?_⟩
  · simp [Driver.settle, hreleased, hacquired]
  · simpa [Driver.settle, hreleased] using h.nodup d

/-- **One call.** -/
theorem tracks_step (h : drv.Counts count marked room) {r : Request W U}
    (hs : s.Tracks drv count marked) (hr : s.AllowsIn room r) (hstep : drv.step s r = some s') :
    s'.Tracks drv count marked := by
  obtain ⟨object, opens, unlinked, acquired, released⟩ := s
  cases object with
  | none => cases r <;> cases hstep
  | some d =>
    obtain ⟨hgone, rfl, rfl, rfl, rfl⟩ := hs
    obtain ⟨hallows, hroom⟩ := hr
    cases r with cases hstep
    | «open» w =>
      have hcount := h.count_open d w hroom
      refine tracks_kept (fun hgone' => hgone ⟨hgone'.1, ?_⟩) hcount (h.marked_open d w) rfl
      have hzero := hgone'.2
      split at hzero
      · exact hzero
      · omega
    | close w =>
      have hclose := h.close d w hallows
      split at hclose
      · next hstays =>
        obtain ⟨d', hd', hmarked, hcount⟩ := hclose
        dsimp only
        rw [hd']
        refine tracks_kept (fun hgone' => ?_) hcount hmarked rfl
        obtain ⟨hmarked', hzero⟩ := hgone'
        have hpos : 0 < count d := hallows
        rcases hstays with herror | hlast
        · rw [if_pos herror] at hzero
          omega
        · refine hlast ⟨?_, hmarked'⟩
          split at hzero <;> omega
      · next hlast =>
        rw [not_or, not_not] at hlast
        dsimp only
        rw [hclose, if_neg hlast.1]
        exact h.tracks_torn ⟨hlast.2.2, by omega⟩ rfl rfl
    | unlink w =>
      have hunlink := h.unlink d w
      split at hunlink
      · next hstays =>
        obtain ⟨d', hd', hcount, hmarked⟩ := hunlink
        dsimp only
        rw [hd']
        refine tracks_kept (fun hgone' => ?_) hcount hmarked rfl
        obtain ⟨hmarked', hzero⟩ := hgone'
        rcases hstays with herror | hopen
        · rw [if_pos herror] at hmarked'
          exact hgone ⟨hmarked', hzero⟩
        · exact hopen hzero
      · next hlast =>
        rw [not_or, not_not] at hlast
        dsimp only
        rw [hunlink, if_neg hlast.1]
        exact h.tracks_torn ⟨rfl, hlast.2⟩ rfl rfl
    | use u =>
      exact tracks_kept hgone (h.count_use d u) (h.marked_use d u) rfl

theorem balanced_of_tracks (hs : s.Tracks drv count marked) : s.Balanced count := by
  obtain ⟨object, opens, unlinked, acquired, released⟩ := s
  cases object with
  | none =>
    obtain ⟨hgone, hreleased, hnodup⟩ := hs
    exact ⟨iff_of_true rfl hgone, by rw [if_pos hgone]; exact hreleased, hnodup, nofun⟩
  | some d =>
    obtain ⟨hgone, hcount, -, -, hreleased⟩ := hs
    subst hreleased
    refine ⟨iff_of_false (by simp) hgone, by rw [if_neg hgone], List.nodup_nil, fun e he hzero => ?_⟩
    cases he
    rw [← hcount, hzero]

/-- **Every run is balanced**, whose opens all have room. -/
theorem all_balanced (h : drv.Counts count marked room) (hcount : count d = 0)
    (hmarked : marked d = false) (hreach : Reaches drv.step (Shared.AllowsIn room) (drv.start d) s) :
    s.Balanced count :=
  balanced_of_tracks <| hreach.invariant (tracks_start hcount hmarked)
    fun _ _ _ hs hr hstep => h.tracks_step hs hr hstep

end Driver.Counts

end Gpmx.Infra
