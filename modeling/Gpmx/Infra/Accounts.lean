import Gpmx.Infra.Runs
import Mathlib

/-!
# Objects that are created and destroyed

Objects live at addresses that are used again when an object has been destroyed. To say that an
object is destroyed at most once, objects are numbered as they are created.

* `Accounted` — every number that was given is that of one live object, or of one that is gone
* `Accounted.update`, `Accounted.create`, `Accounted.destroy` — what can happen to an object
-/

namespace Gpmx.Infra

open List

variable {D α : Type} {live : D → Option α} {number : α → Nat} {created : Nat} {gone : List Nat}
  {p : D} {x y : α}

structure Accounted (live : D → Option α) (number : α → Nat) (created : Nat) (gone : List Nat) :
    Prop where
  lt : ∀ p x, live p = some x → number x < created
  inj : ∀ p q x y, live p = some x → live q = some y → number x = number y → p = q
  once : gone.Nodup
  gone_lt : ∀ n ∈ gone, n < created
  apart : ∀ p x, live p = some x → number x ∉ gone
  all : ∀ n < created, (∃ p x, live p = some x ∧ number x = n) ∨ n ∈ gone

theorem accounted_none : Accounted (fun _ : D => none) number 0 [] := by
  refine ⟨?_, ?_, nodup_nil, ?_, ?_, ?_⟩ <;> simp

variable [DecidableEq D]

theorem Accounted.update (h : Accounted live number created gone) (hx : live p = some x)
    (hnumber : number y = number x) :
    Accounted (Function.update live p (some y)) number created gone := by
  have hback : ∀ q z, Function.update live p (some y) q = some z →
      ∃ z', live q = some z' ∧ number z = number z' := by
    intro q z hz
    rcases update_some_cases hz with ⟨rfl, rfl⟩ | ⟨-, hz⟩
    · exact ⟨x, hx, hnumber⟩
    · exact ⟨z, hz, rfl⟩
  refine ⟨?_, ?_, h.once, h.gone_lt, ?_, ?_⟩
  · intro q z hz
    obtain ⟨z', hz', heq⟩ := hback q z hz
    rw [heq]
    exact h.lt q z' hz'
  · intro q r z w hz hw hzw
    obtain ⟨z', hz', hzn⟩ := hback q z hz
    obtain ⟨w', hw', hwn⟩ := hback r w hw
    exact h.inj q r z' w' hz' hw' (by rw [← hzn, ← hwn, hzw])
  · intro q z hz
    obtain ⟨z', hz', heq⟩ := hback q z hz
    rw [heq]
    exact h.apart q z' hz'
  · intro n hn
    refine (h.all n hn).imp_left ?_
    rintro ⟨q, z, hz, hzn⟩
    by_cases hq : q = p
    · subst hq
      rw [hx, Option.some.injEq] at hz
      exact ⟨q, y, Function.update_self _ _ _, by rw [hnumber, hz, hzn]⟩
    · exact ⟨q, z, (Function.update_of_ne hq _ _).trans hz, hzn⟩

theorem Accounted.create (h : Accounted live number created gone) (hfree : live p = none)
    (hnumber : number y = created) :
    Accounted (Function.update live p (some y)) number (created + 1) gone := by
  have hcases : ∀ q z, Function.update live p (some y) q = some z →
      (q = p ∧ number z = created) ∨ live q = some z := by
    intro q z hz
    rcases update_some_cases hz with ⟨rfl, rfl⟩ | ⟨-, hz⟩
    · exact .inl ⟨rfl, hnumber⟩
    · exact .inr hz
  refine ⟨?_, ?_, h.once, ?_, ?_, ?_⟩
  · intro q z hz
    rcases hcases q z hz with ⟨-, hn⟩ | hz
    · omega
    · exact Nat.lt_succ_of_lt (h.lt q z hz)
  · intro q r z w hz hw hzw
    rcases hcases q z hz with ⟨hq, hn⟩ | hz <;> rcases hcases r w hw with ⟨hr, hm⟩ | hw
    · rw [hq, hr]
    · have hlt := h.lt r w hw
      omega
    · have hlt := h.lt q z hz
      omega
    · exact h.inj q r z w hz hw hzw
  · intro n hn
    exact Nat.lt_succ_of_lt (h.gone_lt n hn)
  · intro q z hz hmem
    rcases hcases q z hz with ⟨-, hn⟩ | hz
    · have hlt := h.gone_lt _ hmem
      omega
    · exact h.apart q z hz hmem
  · intro n hn
    rcases Nat.lt_succ_iff_lt_or_eq.mp hn with hlt | rfl
    · refine (h.all n hlt).imp_left ?_
      rintro ⟨q, z, hz, hzn⟩
      have hq : q ≠ p := by
        rintro rfl
        rw [hfree] at hz
        cases hz
      exact ⟨q, z, (Function.update_of_ne hq _ _).trans hz, hzn⟩
    · exact .inl ⟨p, y, Function.update_self _ _ _, hnumber⟩

theorem live_of_destroyed {q : D} (hx : Function.update live p none q = some x) :
    q ≠ p ∧ live q = some x := (update_cases hx).resolve_left (nomatch ·.2)

theorem Accounted.destroy (h : Accounted live number created gone) (hx : live p = some x) :
    Accounted (Function.update live p none) number created (gone ++ [number x]) := by
  refine ⟨?_, ?_, ?_, ?_, ?_, ?_⟩
  · intro q z hz
    exact h.lt q z (live_of_destroyed hz).2
  · intro q r z w hz hw hzw
    exact h.inj q r z w (live_of_destroyed hz).2 (live_of_destroyed hw).2 hzw
  · rw [nodup_append]
    refine ⟨h.once, by simp, ?_⟩
    rintro n hn m hm rfl
    exact h.apart p x hx (mem_singleton.mp hm ▸ hn)
  · intro n hn
    rcases mem_append.mp hn with hn | hn
    · exact h.gone_lt n hn
    · rw [mem_singleton.mp hn]
      exact h.lt p x hx
  · intro q z hz hmem
    obtain ⟨hq, hz⟩ := live_of_destroyed hz
    rcases mem_append.mp hmem with hmem | hmem
    · exact h.apart q z hz hmem
    · exact hq (h.inj q p z x hz hx (mem_singleton.mp hmem))
  · intro n hn
    rw [mem_append]
    rcases h.all n hn with ⟨q, z, hz, hzn⟩ | hmem
    · by_cases hq : q = p
      · subst hq
        rw [hx, Option.some.injEq] at hz
        exact .inr (.inr (by simp [hz, hzn]))
      · exact .inl ⟨q, z, (Function.update_of_ne hq _ _).trans hz, hzn⟩
    · exact .inr (.inl hmem)

end Gpmx.Infra

/-!
## Counting threads by what they are doing

A family of threads gives each thread a phase. `census p f` is the number of threads whose phase
meets `p`. A step of the system changes the phase of one thread, or wakes some of them.

* `census_update` — the change of a count when one thread moves on
* `census_congr` — a change that the count cannot see
* `count_flatMap_set` — the same for what a list of owners hold, when one of them changes
-/

namespace Gpmx.Infra

open List

variable {T φ : Type} [Fintype T] (p : φ → Prop) [DecidablePred p]

/-- The number of threads whose phase meets `p`. -/
def census (f : T → φ) : Nat := (Finset.univ.filter fun t => p (f t)).card

variable {p} {f g : T → φ} {t t' : T}

theorem census_congr (h : ∀ t, p (f t) ↔ p (g t)) : census p f = census p g := by
  unfold census
  simp only [h]

theorem census_eq_zero : census p f = 0 ↔ ∀ t, ¬p (f t) := by
  simp [census, Finset.filter_eq_empty_iff]

theorem census_pos (h : p (f t)) : 0 < census p f :=
  Finset.card_pos.mpr ⟨t, Finset.mem_filter.mpr ⟨Finset.mem_univ t, h⟩⟩

theorem census_le_card : census p f ≤ Fintype.card T := Finset.card_le_univ _

theorem eq_of_census_eq_one (h : census p f = 1) (ht : p (f t)) (ht' : p (f t')) : t = t' := by
  obtain ⟨u, hu⟩ := Finset.card_eq_one.mp h
  have hmem : ∀ t, p (f t) → t = u := by
    intro t ht
    have : t ∈ Finset.univ.filter fun t => p (f t) := Finset.mem_filter.mpr ⟨Finset.mem_univ t, ht⟩
    rw [hu] at this
    exact Finset.mem_singleton.mp this
  rw [hmem t ht, hmem t' ht']

variable [DecidableEq T]

/-- **One thread moves on**: the count loses its old phase and gains its new one. -/
theorem census_update (f : T → φ) (t : T) (x : φ) :
    census p (Function.update f t x) + (if p (f t) then 1 else 0)
      = census p f + (if p x then 1 else 0) := by
  have hrest : ∀ g : T → φ, census p g = ((Finset.univ.erase t).filter fun u => p (g u)).card
      + if p (g t) then 1 else 0 := by
    intro g
    unfold census
    rw [← Finset.insert_erase (Finset.mem_univ t), Finset.filter_insert]
    split
    · rw [Finset.card_insert_of_notMem (by simp)]
      simp
    · simp
  have hsame : ((Finset.univ.erase t).filter fun u => p (Function.update f t x u))
      = (Finset.univ.erase t).filter fun u => p (f u) := by
    apply Finset.filter_congr
    intro u hu
    rw [Function.update_of_ne (Finset.ne_of_mem_erase hu)]
  rw [hrest, hrest f, hsame, Function.update_self]
  omega

/-- **One owner changes**: what all of them hold loses what it held and gains what it holds. -/
theorem count_flatMap_set {ω α : Type} [DecidableEq α] (held : ω → List α) {owners : List ω} {i : Nat}
    {x : ω} (h : owners[i]? = some x) (y : ω) (a : α) :
    ((owners.set i y).flatMap held).count a + (held x).count a
      = (owners.flatMap held).count a + (held y).count a := by
  induction owners generalizing i with
  | nil => cases h
  | cons z owners ih =>
    cases i with
    | zero =>
      cases h
      simp only [set_cons_zero, flatMap_cons, count_append]
      omega
    | succ i =>
      have hrest := ih h
      simp only [set_cons_succ, flatMap_cons, count_append]
      omega

end Gpmx.Infra
