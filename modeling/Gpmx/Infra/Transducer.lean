import Mathlib

/-!
# Runs of a transducer

A component that is called again and again is a transducer: a step function that takes a
state and an input and gives the next state and an output. This file has what is said of
whole runs.

* `run` — the final state and the outputs of a list of inputs
* `Guarded` — every input of the run meets a condition in the state it arrives in
* `Guarded.simulation` — a relation that every step keeps, with equal outputs, makes the
  runs of the two transducers have equal outputs
* `Guarded.related` — a relation that every step keeps holds at the end, whatever the outputs
* `Guarded.refined` — the same for steps that need so much fuel
* `Along.simulation` — the same for steps that may fail, with the condition on their own states
-/

namespace Gpmx.Infra

variable {σ τ ι ο : Type}

/-- Feed the inputs one after the other; the final state and the outputs in order. -/
def run (step : σ → ι → σ × ο) : σ → List ι → σ × List ο
  | s, [] => (s, [])
  | s, i :: is => ((run step (step s i).1 is).1, (step s i).2 :: (run step (step s i).1 is).2)

@[simp] theorem run_nil (step : σ → ι → σ × ο) (s : σ) : run step s [] = (s, []) := rfl

theorem run_cons (step : σ → ι → σ × ο) (s : σ) (i : ι) (is : List ι) :
    run step s (i :: is)
      = ((run step (step s i).1 is).1, (step s i).2 :: (run step (step s i).1 is).2) := rfl

theorem run_append (step : σ → ι → σ × ο) : ∀ (is js : List ι) (s : σ),
    run step s (is ++ js)
      = ((run step (run step s is).1 js).1, (run step s is).2 ++ (run step (run step s is).1 js).2)
  | [], js, s => by simp
  | i :: is, js, s => by
    rw [List.cons_append, run_cons, run_append step is js, run_cons]
    simp

/-- Every input meets `ok` in the state in which it arrives. -/
def Guarded (step : σ → ι → σ × ο) (ok : σ → ι → Prop) : σ → List ι → Prop
  | _, [] => True
  | s, i :: is => ok s i ∧ Guarded step ok (step s i).1 is

instance Guarded.decidable (step : σ → ι → σ × ο) (ok : σ → ι → Prop)
    [∀ s i, Decidable (ok s i)] : ∀ s is, Decidable (Guarded step ok s is)
  | _, [] => isTrue trivial
  | s, i :: is =>
    have := Guarded.decidable step ok (step s i).1 is
    inferInstanceAs (Decidable (ok s i ∧ Guarded step ok (step s i).1 is))

variable {step : σ → ι → σ × ο} {ok : σ → ι → Prop} {astep : τ → ι → τ × ο}

theorem Guarded.of_forall_mem :
    ∀ {is : List ι} {s : σ}, (∀ i ∈ is, ∀ s, ok s i) → Guarded step ok s is
  | [], _, _ => trivial
  | i :: _, _, h =>
    ⟨h i List.mem_cons_self _, Guarded.of_forall_mem fun j hj => h j (List.mem_cons_of_mem _ hj)⟩

/--
**Guarded simulation.** If related states step to related states with the same output,
for every input the guard lets through, then related runs have the same outputs.
-/
theorem Guarded.simulation {R : σ → τ → Prop}
    (hstep : ∀ s t i, R s t → ok s i → R (step s i).1 (astep t i).1 ∧ (step s i).2 = (astep t i).2) :
    ∀ {is : List ι} {s : σ} {t : τ}, Guarded step ok s is → R s t →
      R (run step s is).1 (run astep t is).1 ∧ (run step s is).2 = (run astep t is).2
  | [], _, _, _, hr => ⟨hr, rfl⟩
  | i :: _, s, t, hg, hr => by
    obtain ⟨hr', ho⟩ := hstep s t i hr hg.1
    obtain ⟨hrs, hos⟩ := Guarded.simulation hstep hg.2 hr'
    refine ⟨hrs, ?_⟩
    rw [run_cons, run_cons, ho, hos]

theorem Guarded.related {R : σ → τ → Prop}
    (hstep : ∀ s t i, R s t → ok s i → R (step s i).1 (astep t i).1) :
    ∀ {is : List ι} {s : σ} {t : τ}, Guarded step ok s is → R s t →
      R (run step s is).1 (run astep t is).1
  | [], _, _, _, hr => hr
  | i :: _, s, t, hg, hr => by
    have hrest := Guarded.related hstep hg.2 (hstep s t i hr hg.1)
    exact hrest

def runs (step : σ → ι → Option (σ × ο)) : σ → List ι → Option (σ × List ο)
  | s, [] => some (s, [])
  | s, i :: is => do
    let (s, o) ← step s i
    let (s, os) ← runs step s is
    return (s, o :: os)

/-- **Refinement.** A step ends where the abstract state is smaller than the fuel, which grows by one with an
input at most. -/
theorem Guarded.refined {step : σ → ι → Option (σ × ο)} {ok : τ → ι → Prop} (R : σ → τ → Prop)
    (size : τ → Nat) {fuel : Nat}
    (hstep : ∀ s t i, R s t → ok t i → size t < fuel → ∃ s', step s i = some (s', (astep t i).2) ∧ R s' (astep t i).1)
    (hsize : ∀ t i, size (astep t i).1 ≤ size t + 1) :
    ∀ {is : List ι} {s : σ} {t : τ}, Guarded astep ok t is → R s t → size t + is.length < fuel →
      ∃ s', runs step s is = some (s', (run astep t is).2) ∧ R s' (run astep t is).1
  | [], s, _, _, hr, _ => ⟨s, rfl, hr⟩
  | i :: is, s, t, hg, hr, hfuel => by
    rw [List.length_cons] at hfuel
    obtain ⟨s', hs, hr'⟩ := hstep s t i hr hg.1 (by omega)
    have hgrows := hsize t i
    have hfuel' : size (astep t i).1 + is.length < fuel := by omega
    obtain ⟨s'', hss, hr''⟩ := Guarded.refined R size hstep hsize hg.2 hr' hfuel'
    refine ⟨s'', ?_, hr''⟩
    simp only [runs, hs, hss, Option.bind_eq_bind, Option.bind_some]
    rfl

/-- Every input meets `ok` in the state in which it arrives, up to where a step fails. -/
def Along (step : σ → ι → Option (σ × ο)) (ok : σ → ι → Prop) : σ → List ι → Prop
  | _, [] => True
  | s, i :: is => ok s i ∧ ∀ r ∈ step s i, Along step ok r.1 is

instance Along.decidable (step : σ → ι → Option (σ × ο)) (ok : σ → ι → Prop)
    [∀ s i, Decidable (ok s i)] : ∀ s is, Decidable (Along step ok s is)
  | _, [] => isTrue trivial
  | s, i :: is =>
    have := fun r : σ × ο => Along.decidable step ok r.1 is
    inferInstanceAs (Decidable (ok s i ∧ ∀ r ∈ step s i, Along step ok r.1 is))

theorem Along.simulation {step : σ → ι → Option (σ × ο)} {ok : σ → ι → Prop} {R : σ → τ → Prop} :
    ∀ {is : List ι} {s : σ} {t : τ},
      (∀ i ∈ is, ∀ s t, R s t → ok s i → ∃ s', step s i = some (s', (astep t i).2) ∧ R s' (astep t i).1) →
      Along step ok s is → R s t →
      ∃ s', runs step s is = some (s', (run astep t is).2) ∧ R s' (run astep t is).1
  | [], s, _, _, _, hr => ⟨s, rfl, hr⟩
  | i :: is, s, t, hstep, hg, hr => by
    obtain ⟨s', hs, hr'⟩ := hstep i List.mem_cons_self s t hr hg.1
    obtain ⟨s'', hss, hr''⟩ :=
      Along.simulation (fun j hj => hstep j (List.mem_cons_of_mem i hj)) (hg.2 _ hs) hr'
    refine ⟨s'', ?_, hr''⟩
    simp only [runs, hs, hss, Option.bind_eq_bind, Option.bind_some]
    rfl

end Gpmx.Infra
