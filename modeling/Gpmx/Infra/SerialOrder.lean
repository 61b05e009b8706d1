import Mathlib

/-!
# Calls that are done in pieces

Threads make calls; a call stands for a list of updates, and these are done a few at a time, in between
those of other calls. If what is done early commutes with what other calls have begun and not finished,
the calls could as well have come one after the other.

* `Ledger` — the calls that have begun, in order, would lead where the value is led by what is left
* `Ledger.start`, `Ledger.perform`, `Ledger.finish` — what can happen to a call
* `Ledger.serial` — when no call is left, the value is that of a serial order of all calls
-/

namespace Gpmx.Infra

open Function List

variable {T C M U : Type} [DecidableEq T]

def callsOf (calls : List (T × C)) (t : T) : List (T × C) := calls.filter (·.1 = t)

/-- A serial order: the same calls for each thread, in the same order. -/
def SerialOrder (order calls : List (T × C)) : Prop := ∀ t, callsOf order t = callsOf calls t

def serially (updates : C → List U) (apply : M → U → M) (m : M) (calls : List (T × C)) : M :=
  (calls.flatMap fun call => updates call.2).foldl apply m

/-- `order` has the calls of the threads in `begun` and those that are over; a call that has not begun is
left as a whole. -/
structure Ledger (updates : C → List U) (apply : M → U → M) (m₀ m : M) (calls : List (T × C))
    (pending : T → Option (List U)) (begun : List T) (order : List (T × C)) : Prop where
  nodup : begun.Nodup
  open_ : ∀ t ∈ begun, pending t ≠ none
  same : ∀ t, t ∈ begun ∨ pending t = none → callsOf order t = callsOf calls t
  waiting : ∀ t us, t ∉ begun → pending t = some us →
    ∃ c, us = updates c ∧ callsOf calls t = callsOf order t ++ [(t, c)]
  value : (begun.flatMap fun t => (pending t).getD []).foldl apply m =
    serially updates apply m₀ order

variable {updates : C → List U} {apply : M → U → M} {m₀ m : M} {calls order : List (T × C)}
  {pending : T → Option (List U)} {begun : List T} {t : T} {xs ys us : List U}

theorem ledger_nil (m₀ : M) : Ledger updates apply m₀ m₀ [] (fun _ : T => none) [] [] where
  nodup := nodup_nil
  open_ := nofun
  same _ _ := rfl
  waiting := nofun
  value := rfl

theorem callsOf_append_self (calls : List (T × C)) (t : T) (c : C) :
    callsOf (calls ++ [(t, c)]) t = callsOf calls t ++ [(t, c)] := by
  simp [callsOf]

theorem callsOf_append_ne (calls : List (T × C)) {t t' : T} (h : t' ≠ t) (c : C) :
    callsOf (calls ++ [(t, c)]) t' = callsOf calls t' := by
  simp [callsOf, h.symm]

theorem flatMap_pending_update {o : Option (List U)} (h : t ∉ begun) :
    (begun.flatMap fun u => (update pending t o u).getD []) =
      begun.flatMap fun u => (pending u).getD [] := by
  refine flatMap_congr fun u hu => ?_
  have hne : u ≠ t := fun he => h (he ▸ hu)
  rw [update_of_ne hne]

theorem foldl_comm (h : ∀ x ∈ xs, ∀ y ∈ ys, ∀ m, apply (apply m x) y = apply (apply m y) x) (m : M) :
    ys.foldl apply (xs.foldl apply m) = xs.foldl apply (ys.foldl apply m) := by
  have hone : ∀ x, (∀ y ∈ ys, ∀ m, apply (apply m x) y = apply (apply m y) x) → ∀ m,
      ys.foldl apply (apply m x) = apply (ys.foldl apply m) x := by
    intro x hx
    induction ys with
    | nil => intro m; rfl
    | cons y ys ih =>
      intro m
      rw [foldl_cons, foldl_cons, hx y mem_cons_self]
      exact ih (fun x hx y hy => h x hx y (mem_cons_of_mem _ hy))
        (fun y hy => hx y (mem_cons_of_mem _ hy)) _
  induction xs generalizing m with
  | nil => rfl
  | cons x xs ih =>
    rw [foldl_cons, foldl_cons, ih fun x hx => h x (mem_cons_of_mem _ hx)]
    rw [hone x (h x mem_cons_self)]

section

variable (h : Ledger updates apply m₀ m calls pending begun order)
include h

/-- **A thread makes a call.** -/
theorem Ledger.start (ht : pending t = none) (c : C) : Ledger updates apply m₀ m (calls ++ [(t, c)])
      (update pending t (some (updates c))) begun order := by
  have hnot : t ∉ begun := fun hmem => h.open_ t hmem ht
  refine ⟨h.nodup, fun u hu => ?_, fun u hu => ?_, fun u vs hu hvs => ?_, ?_⟩
  · have hne : u ≠ t := fun he => hnot (he ▸ hu)
    rw [update_of_ne hne]
    exact h.open_ u hu
  · have hne : u ≠ t := by
      rintro rfl
      rcases hu with hu | hu
      · exact hnot hu
      · simp at hu
    rw [update_of_ne hne] at hu
    rw [callsOf_append_ne _ hne]
    exact h.same u hu
  · by_cases hne : u = t
    · subst hne
      simp at hvs
      exact ⟨c, hvs.symm, by rw [callsOf_append_self, h.same u (.inr ht)]⟩
    · rw [update_of_ne hne] at hvs
      rw [callsOf_append_ne _ hne]
      exact h.waiting u vs hu hvs
  · rw [flatMap_pending_update hnot]
    exact h.value

/-- **A thread does the next updates of its call**, which commute with what the other calls that have
begun have left. -/
theorem Ledger.perform (ht : pending t = some (xs ++ ys))
    (hcomm : ∀ u ∈ begun, u ≠ t → ∀ us, pending u = some us → ∀ x ∈ xs, ∀ y ∈ us, ∀ m,
      apply (apply m x) y = apply (apply m y) x) :
    ∃ order', Ledger updates apply m₀ (xs.foldl apply m) calls (update pending t (some ys))
      (if t ∈ begun then begun else begun ++ [t]) order' := by
  -- what others have left commutes as a whole
  have hlist : ∀ l : List T, (∀ u ∈ l, u ∈ begun) → t ∉ l → ∀ m,
      (l.flatMap fun u => (pending u).getD []).foldl apply (xs.foldl apply m) =
        xs.foldl apply ((l.flatMap fun u => (pending u).getD []).foldl apply m) := by
    intro l hl hnot
    refine foldl_comm fun x hx y hy => ?_
    obtain ⟨u, hu, hy⟩ := mem_flatMap.mp hy
    cases hp : pending u with
    | none => simp [hp] at hy
    | some us =>
      rw [hp] at hy
      exact hcomm u (hl u hu) (fun he => hnot (he ▸ hu)) us hp x hx y hy
  have hopen : ∀ u, update pending t (some ys) u = none ↔ pending u = none := by
    intro u
    by_cases hu : u = t
    · subst hu; simp [ht]
    · rw [update_of_ne hu]
  by_cases hmem : t ∈ begun
  · rw [if_pos hmem]
    refine ⟨order, h.nodup, fun u hu => ?_, fun u hu => ?_, fun u vs hu hvs => ?_, ?_⟩
    · rw [Ne, hopen]
      exact h.open_ u hu
    · rw [hopen] at hu
      exact h.same u hu
    · have hne : u ≠ t := fun he => hu (he ▸ hmem)
      rw [update_of_ne hne] at hvs
      exact h.waiting u vs hu hvs
    · obtain ⟨l₁, l₂, rfl⟩ := append_of_mem hmem
      have hnot₁ : t ∉ l₁ := fun hmem₁ =>
        (nodup_append.mp h.nodup).2.2 t hmem₁ t mem_cons_self rfl
      have hnot₂ : t ∉ l₂ :=
        (nodup_cons.mp (nodup_append.mp h.nodup).2.1).1
      rw [← h.value, flatMap_append, flatMap_append, flatMap_cons, flatMap_cons,
        flatMap_pending_update hnot₁, flatMap_pending_update hnot₂, update_self, ht,
        foldl_append, foldl_append, foldl_append, foldl_append,
        hlist l₁ (fun u hu => mem_append_left _ hu) hnot₁]
      simp [foldl_append]
  · rw [if_neg hmem]
    obtain ⟨c, hc, hcalls⟩ := h.waiting t _ hmem ht
    refine ⟨order ++ [(t, c)], nodup_append.mpr ⟨h.nodup, by simp, ?_⟩, fun u hu => ?_,
      fun u hu => ?_, fun u vs hu hvs => ?_, ?_⟩
    · rintro a ha b hb rfl
      exact hmem (mem_singleton.mp hb ▸ ha)
    · rw [Ne, hopen]
      rcases mem_append.mp hu with hu | hu
      · exact h.open_ u hu
      · rw [mem_singleton.mp hu, ht]
        nofun
    · by_cases hne : u = t
      · subst hne
        rw [callsOf_append_self, hcalls]
      · rw [callsOf_append_ne _ hne]
        rw [hopen, mem_append, mem_singleton] at hu
        exact h.same u (hu.imp_left fun hu => hu.resolve_right hne)
    · have hne : u ≠ t := by rintro rfl; exact hu (by simp)
      rw [update_of_ne hne] at hvs
      rw [callsOf_append_ne _ hne]
      exact h.waiting u vs (fun hu' => hu (mem_append_left _ hu')) hvs
    · have hvalue := h.value
      unfold serially at hvalue ⊢
      rw [flatMap_append, flatMap_pending_update hmem, foldl_append,
        hlist begun (fun u hu => hu) hmem, hvalue]
      simp [foldl_append, ← hc]

/-- **A call is over.** -/
theorem Ledger.finish (ht : pending t = some []) :
    ∃ order', Ledger updates apply m₀ m calls (update pending t none) (begun.erase t) order' := by
  -- a call without updates has begun at the latest now
  obtain ⟨order', hlast⟩ := @Ledger.perform T C M U _ updates apply m₀ m calls order pending begun t [] [] h ht
    fun _ _ _ _ _ x hx => nomatch hx
  have hsame : update pending t (some []) = pending := by
    rw [← ht]
    exact update_eq_self t pending
  rw [hsame, foldl_nil] at hlast
  obtain ⟨l, hl, hbegun⟩ : ∃ l, (t ∈ l ∧ l.erase t = begun.erase t) ∧
      Ledger updates apply m₀ m calls pending l order' := by
    refine ⟨if t ∈ begun then begun else begun ++ [t], ?_, hlast⟩
    split_ifs with hmem
    · exact ⟨hmem, rfl⟩
    · refine ⟨by simp, ?_⟩
      rw [erase_append_right _ hmem, erase_of_not_mem hmem]
      simp
  rw [← hl.2]
  have hnot : t ∉ l.erase t := hbegun.nodup.not_mem_erase
  have hmem : ∀ u, u ≠ t → (u ∈ l.erase t ↔ u ∈ l) := fun u hu => mem_erase_of_ne hu
  refine ⟨order', hbegun.nodup.erase t, fun u hu => ?_, fun u hu => ?_, fun u vs hu hvs => ?_, ?_⟩
  · have hne : u ≠ t := fun he => hnot (he ▸ hu)
    rw [update_of_ne hne]
    exact hbegun.open_ u ((hmem u hne).mp hu)
  · by_cases hne : u = t
    · subst hne
      exact hbegun.same u (.inl hl.1)
    · rw [update_of_ne hne, hmem u hne] at hu
      exact hbegun.same u hu
  · have hne : u ≠ t := by rintro rfl; simp at hvs
    rw [update_of_ne hne] at hvs
    exact hbegun.waiting u vs (fun hu' => hu ((hmem u hne).mpr hu')) hvs
  · rw [flatMap_pending_update hnot, ← hbegun.value]
    congr 1
    obtain ⟨l₁, l₂, hnot₁, rfl, herase⟩ := exists_erase_eq hl.1
    rw [herase]
    simp [ht]

/-- **When no call is left, the value is that of a serial order.** -/
theorem Ledger.serial (hnone : ∀ t, pending t = none) : SerialOrder order calls ∧ m = serially updates apply m₀ order := by
  have hbegun : begun = [] := by
    refine eq_nil_iff_forall_not_mem.mpr fun t ht => ?_
    exact h.open_ t ht (hnone t)
  refine ⟨fun t => h.same t (.inr (hnone t)), ?_⟩
  rw [← h.value, hbegun]
  rfl

end

end Gpmx.Infra
