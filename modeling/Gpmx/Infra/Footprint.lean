import Gpmx.Infra.Memory

/-!
# Footprints

A call on a device gives a return value, some data, and the device's memory after it. The call
is *local* to a set of addresses when it neither changes nor depends on anything outside.

* `Local.mono` — a call local to a set is local to every larger one
* `Local.untouched` — a call leaves alone what lies apart from its footprint
* `local_refuse` — a call that only returns an error is local to every set
-/

namespace Gpmx.Infra

variable {β : Type}

structure Answer (β : Type) where
  ret : Int
  data : List β
  mem : Memory β

abbrev Method (β : Type) := Memory β → Answer β

/-- The call changes only addresses in `F`, and what it does there is decided by what is there. -/
structure Local (F : Nat → Prop) (f : Method β) : Prop where
  frame : ∀ m i, ¬F i → (f m).mem i = m i
  congr : ∀ m m', (∀ i, F i → m i = m' i) →
    (f m).ret = (f m').ret ∧ (f m).data = (f m').data ∧ ∀ i, F i → (f m).mem i = (f m').mem i

variable {F G : Nat → Prop} {f : Method β}

theorem Local.mono (h : Local F f) (hsub : ∀ i, F i → G i) : Local G f := by
  constructor
  · intro m i hi
    exact h.frame m i (fun hF => hi (hsub i hF))
  · intro m m' hag
    obtain ⟨hret, hdata, hmem⟩ := h.congr m m' (fun i hF => hag i (hsub i hF))
    refine ⟨hret, hdata, ?_⟩
    intro i hG
    by_cases hF : F i
    · exact hmem i hF
    · rw [h.frame m i hF, h.frame m' i hF]
      exact hag i hG

/-- The call leaves the addresses in `G` alone, and what it returns does not depend on them. -/
structure Untouched (G : Nat → Prop) (f : Method β) : Prop where
  frame : ∀ m i, G i → (f m).mem i = m i
  congr : ∀ m m', (∀ i, ¬G i → m i = m' i) → (f m).ret = (f m').ret ∧ (f m).data = (f m').data

theorem Local.untouched (h : Local F f) (hdisj : ∀ i, F i → ¬G i) : Untouched G f := by
  constructor
  · intro m i hG
    exact h.frame m i (fun hF => hdisj i hF hG)
  · intro m m' hag
    obtain ⟨hret, hdata, -⟩ := h.congr m m' (fun i hF => hag i (hdisj i hF))
    exact ⟨hret, hdata⟩

def refuse (errno : Int) : Method β := fun m => ⟨-errno, [], m⟩

theorem local_refuse (F : Nat → Prop) (errno : Int) : Local F (refuse errno : Method β) :=
  ⟨fun _ _ _ => rfl, fun _ _ hag => ⟨rfl, rfl, hag⟩⟩

def fetchRun (ret : Int) (a n : Nat) : Method β := fun m => ⟨ret, m.read a n, m⟩

def storeRun (ret : Int) (a : Nat) (bs : List β) : Method β := fun m => ⟨ret, [], m.write a bs⟩

theorem local_fetchRun (ret : Int) (a n : Nat) :
    Local (fun i => a ≤ i ∧ i < a + n) (fetchRun ret a n : Method β) := by
  refine ⟨fun _ _ _ => rfl, ?_⟩
  intro m m' hag
  refine ⟨rfl, ?_, hag⟩
  exact Memory.read_congr fun i h1 h2 => hag i ⟨h1, h2⟩

theorem local_storeRun (ret : Int) (a : Nat) (bs : List β) :
    Local (fun i => a ≤ i ∧ i < a + bs.length) (storeRun ret a bs) := by
  constructor
  · intro m i hi
    exact Memory.write_of_not_mem (by omega)
  · intro m m' hag
    exact ⟨rfl, rfl, fun i hi => Memory.write_congr_of_mem hi.1 hi.2⟩

end Gpmx.Infra
