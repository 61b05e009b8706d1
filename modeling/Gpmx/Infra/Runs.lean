import Mathlib

/-!
# Runs of a system under a condition

A system is a partial step function: `step s a` is the state after action `a` in state `s`,
or `none` where `s` cannot take `a`. Which actions come, and in which order, is open; a
theorem about the system is about every state that some run reaches.

* `Reaches` — a run reaches a state with steps that all meet a condition
* `Reaches.invariant` — what every such step keeps holds in every state reached
* `Reaches.of_foldlM` — a list of actions that can be taken is a run
* `Reaches.of_guarded` — and one under the condition, where that can be decided
* `Reaches.simulated` — a run of another system, which the steps keep related to this one
-/

namespace Gpmx.Infra

variable {σ α : Type} {step : σ → α → Option σ} {ok : σ → α → Prop} {s s' s'' : σ}

/-- One step with an action that meets `ok` in the state it is taken in. -/
def Taken (step : σ → α → Option σ) (ok : σ → α → Prop) (s s' : σ) : Prop :=
  ∃ a, ok s a ∧ step s a = some s'

/-- The states of the runs from `s` on whose steps all meet `ok`. -/
def Reaches (step : σ → α → Option σ) (ok : σ → α → Prop) : σ → σ → Prop :=
  Relation.ReflTransGen (Taken step ok)

def Always (_ : σ) (_ : α) : Prop := True

theorem Reaches.refl : Reaches step ok s s := Relation.ReflTransGen.refl

theorem Reaches.trans (h : Reaches step ok s s') (h' : Reaches step ok s' s'') :
    Reaches step ok s s'' := Relation.ReflTransGen.trans h h'

theorem Reaches.tail (h : Reaches step ok s s') {a : α} (ha : ok s' a)
    (hs : step s' a = some s'') : Reaches step ok s s'' :=
  Relation.ReflTransGen.tail h ⟨a, ha, hs⟩

/-- **What every step keeps holds in every state reached.** -/
theorem Reaches.invariant {P : σ → Prop} (h : Reaches step ok s s') (hinit : P s)
    (hstep : ∀ s a s', P s → ok s a → step s a = some s' → P s') : P s' := by
  induction h with
  | refl => exact hinit
  | tail _ ht ih =>
    obtain ⟨a, ha, hs⟩ := ht
    exact hstep _ a _ ih ha hs

theorem Reaches.of_foldlM_of_forall : ∀ (as : List α) {s : σ}, as.foldlM step s = some s' →
    (∀ s, ∀ a ∈ as, ok s a) → Reaches step ok s s'
  | [], s, h, _ => by
    cases h
    exact .refl
  | a :: as, s, h, hok => by
    rw [List.foldlM_cons] at h
    obtain ⟨s1, hs, h1⟩ := Option.bind_eq_some_iff.mp h
    have hrest := of_foldlM_of_forall as h1 fun s b hb => hok s b (List.mem_cons_of_mem a hb)
    exact Reaches.trans (.tail .refl (hok s a List.mem_cons_self) hs) hrest

theorem Reaches.of_foldlM (as : List α) (h : as.foldlM step s = some s') :
    Reaches step Always s s' :=
  Reaches.of_foldlM_of_forall as h fun _ _ _ => trivial

/-- The steps that meet `ok`. -/
def guarded (step : σ → α → Option σ) (ok : σ → α → Prop) [∀ s a, Decidable (ok s a)] (s : σ)
    (a : α) : Option σ :=
  if ok s a then step s a else none

theorem Reaches.of_guarded [∀ s a, Decidable (ok s a)] : ∀ (as : List α) {s : σ},
    as.foldlM (guarded step ok) s = some s' → Reaches step ok s s'
  | [], s, h => by
    cases h
    exact .refl
  | a :: as, s, h => by
    rw [List.foldlM_cons] at h
    obtain ⟨s1, hs, h1⟩ := Option.bind_eq_some_iff.mp h
    unfold guarded at hs
    split at hs
    · next ha => exact Reaches.trans (.tail .refl ha hs) (of_guarded as h1)
    · cases hs

/-! ## Two systems side by side -/

section Simulation

variable {τ β γ : Type} {R : σ → τ → Prop}

theorem rel_map {S : β → γ → Prop} {f : σ → β} {g : τ → γ} {a : Option σ} {b : Option τ}
    (h : Option.Rel R a b) (hfg : ∀ x y, R x y → S (f x) (g y)) :
    Option.Rel S (a.map f) (b.map g) := by
  cases h with
  | none => exact .none
  | some h => exact .some (hfg _ _ h)

theorem rel_bind {S : β → γ → Prop} {f : σ → Option β} {g : τ → Option γ} {a : Option σ}
    {b : Option τ} (h : Option.Rel R a b)
    (hfg : ∀ x y, a = some x → R x y → Option.Rel S (f x) (g y)) :
    Option.Rel S (a.bind f) (b.bind g) := by
  cases h with
  | none => exact .none
  | some h => exact hfg _ _ rfl h

/-- **Where steps keep two systems related, a run of the one is a run of the other.** -/
theorem Reaches.simulated {step' : τ → α → Option τ} {t : τ} (h : Reaches step ok s s')
    (hinit : R s t)
    (hstep : ∀ s'' t a, Reaches step ok s s'' → R s'' t → Option.Rel R (step s'' a) (step' t a)) :
    ∃ t', Reaches step' Always t t' ∧ R s' t' := by
  induction h with
  | refl => exact ⟨t, .refl, hinit⟩
  | tail hrun ht ih =>
    obtain ⟨t', ht', hR⟩ := ih
    obtain ⟨a, -, hs⟩ := ht
    have hrel := hstep _ t' a hrun hR
    rw [hs] at hrel
    generalize hs' : step' t' a = b at hrel
    obtain ⟨hR'⟩ := hrel
    exact ⟨_, ht'.tail trivial hs', hR'⟩

end Simulation

/-- What is read from a state that is a function, after one place of it was set. -/
theorem update_cases {ι β : Type} [DecidableEq ι] {f : ι → β} {i j : ι} {x y : β}
    (h : Function.update f i x j = y) : j = i ∧ x = y ∨ j ≠ i ∧ f j = y := by
  by_cases hj : j = i
  · subst hj
    exact .inl ⟨rfl, (Function.update_self ..).symm.trans h⟩
  · exact .inr ⟨hj, (Function.update_of_ne hj ..).symm.trans h⟩

theorem update_some_cases {ι β : Type} [DecidableEq ι] {f : ι → Option β} {i j : ι} {x y : β}
    (h : Function.update f i (some x) j = some y) : j = i ∧ y = x ∨ j ≠ i ∧ f j = some y :=
  (update_cases h).imp_left fun ⟨hj, hx⟩ => ⟨hj, (Option.some.inj hx).symm⟩

end Gpmx.Infra
