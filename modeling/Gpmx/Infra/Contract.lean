import Mathlib

/-!
# Contracts of programs on a state

A program reads and changes a state and may not come to an end.

* `Prog` — such programs
* `Contract P f Q` — when `f` begins where `P` holds and comes to an end, `Q` holds there
* `Contract.bind`, `Contract.ite`, `Contract.modify` — one rule for each way to build a program
* `Returns f s Q` — `f` comes to an end from `s` on, and `Q` holds there, with the rules for it
-/

namespace Gpmx.Infra

abbrev Prog (σ α : Type) := StateT σ Option α

variable {σ α β : Type} {P P' : σ → Prop} {f : Prog σ α} {g : α → Prog σ β} {Q Q' : α → σ → Prop}
  {R : β → σ → Prop}

/-- When `f` begins where `P` holds and comes to an end, `Q` holds there of its result. -/
def Contract (P : σ → Prop) (f : Prog σ α) (Q : α → σ → Prop) : Prop :=
  ∀ s, P s → ∀ a s', f.run s = some (a, s') → Q a s'

/-- `f` comes to an end from `s` on, where `Q` holds of its result. -/
def Returns (f : Prog σ α) (s : σ) (Q : α → σ → Prop) : Prop :=
  ∃ a s', f.run s = some (a, s') ∧ Q a s'

theorem Prog.run_bind_of {s s' : σ} {a : α} (h : f.run s = some (a, s')) :
    (f >>= g).run s = (g a).run s' := by
  rw [StateT.run_bind, h]
  rfl

namespace Contract

theorem pure {a : α} (h : ∀ s, P s → Q a s) : Contract P (pure a) Q := by
  intro s hs b s' hrun
  cases hrun
  exact h s hs

theorem bind (hf : Contract P f Q) (hg : ∀ a, Contract (Q a) (g a) R) : Contract P (f >>= g) R := by
  intro s hs b s' hrun
  rw [StateT.run_bind] at hrun
  obtain ⟨⟨a, s1⟩, hfirst, hrest⟩ := Option.bind_eq_some_iff.mp hrun
  exact hg a s1 (hf s hs a s1 hfirst) b s' hrest

theorem ite {c : Prop} [Decidable c] {f' : Prog σ α} (ht : c → Contract P f Q) (he : ¬ c → Contract P f' Q) :
    Contract P (if c then f else f') Q := by
  by_cases h : c
  · rw [if_pos h]
    exact ht h
  · rw [if_neg h]
    exact he h

theorem get {Q : σ → σ → Prop} (h : ∀ s, P s → Q s s) : Contract P (MonadState.get : Prog σ σ) Q := by
  intro s hs b s' hrun
  cases hrun
  exact h s hs

theorem modify {t : σ → σ} {Q : PUnit → σ → Prop} (h : ∀ s, P s → Q ⟨⟩ (t s)) :
    Contract P (modify t : Prog σ PUnit) Q := by
  intro s hs b s' hrun
  cases hrun
  exact h s hs

theorem weaken (hf : Contract P f Q) (hpre : ∀ s, P' s → P s) (hpost : ∀ a s, Q a s → Q' a s) :
    Contract P' f Q' :=
  fun s hs a s' hrun => hpost a s' (hf s (hpre s hs) a s' hrun)

end Contract

namespace Returns

variable {s : σ}

theorem pure {a : α} (h : Q a s) : Returns (pure a) s Q := ⟨a, s, rfl, h⟩

theorem bind (hf : Returns f s Q) (hg : ∀ a s', Q a s' → Returns (g a) s' R) : Returns (f >>= g) s R := by
  obtain ⟨a, s1, hfirst, hq⟩ := hf
  obtain ⟨b, s2, hrest, hr⟩ := hg a s1 hq
  exact ⟨b, s2, (Prog.run_bind_of hfirst).trans hrest, hr⟩

theorem bind_eq {v : α} {Q : σ → Prop} (hf : Returns f s fun a s' => a = v ∧ Q s')
    (hg : ∀ s', Q s' → Returns (g v) s' R) : Returns (f >>= g) s R := by
  refine hf.bind ?_
  rintro _ s' ⟨rfl, hs'⟩
  exact hg s' hs'

/-- A status that is looked at before anything else. -/
theorem check {v : α} {Q : σ → Prop} {e : α → Prog σ β} [∀ a : α, Decidable (a ≠ v)]
    (hf : Returns f s fun a s' => a = v ∧ Q s') (hg : ∀ s', Q s' → Returns (g v) s' R) :
    Returns (f >>= fun a => if a ≠ v then e a else g a) s R := by
  refine hf.bind_eq fun s' hs' => ?_
  rw [if_neg (not_not.mpr rfl)]
  exact hg s' hs'

theorem get_bind {f : σ → Prog σ α} (h : Returns (f s) s Q) : Returns (MonadState.get >>= f) s Q :=
  bind (Q := fun a s' => a = s ∧ s' = s) ⟨s, s, rfl, rfl, rfl⟩ fun _ _ ⟨ha, hs⟩ => ha ▸ hs ▸ h

theorem modify_bind {t : σ → σ} {f : Prog σ α} (h : Returns f (t s) Q) :
    Returns (MonadState.modifyGet (fun s => (PUnit.unit, t s)) >>= fun _ => f) s Q :=
  bind (Q := fun _ s' => s' = t s) ⟨⟨⟩, t s, rfl, rfl⟩ fun _ _ hs => hs ▸ h

theorem weaken (hf : Returns f s Q) (h : ∀ a s', Q a s' → Q' a s') : Returns f s Q' := by
  obtain ⟨a, s', hrun, hq⟩ := hf
  exact ⟨a, s', hrun, h a s' hq⟩

end Returns

end Gpmx.Infra
