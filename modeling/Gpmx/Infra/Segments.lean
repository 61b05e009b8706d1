import Mathlib

/-!
# Paths and their segments

A path is a list of characters in which one, the separator, stands between the segments. Several
separators in a row count as one, and those at the ends do not count.

* `segments sep p` — the segments of a path
* `first_segment` — the first of them, and what is behind it
-/

namespace Gpmx.Infra

open List

variable {α : Type} [DecidableEq α] {sep : α}

def segments (sep : α) (path : List α) : List (List α) := (path.splitOn sep).filter (· ≠ [])

@[simp] theorem segments_nil : segments sep ([] : List α) = [] := by
  simp [segments]

theorem segments_append_sep (p r : List α) :
    segments sep (p ++ sep :: r) = segments sep p ++ segments sep r := by
  unfold segments
  rw [splitOn_append_cons_self, filter_append]

@[simp] theorem segments_sep_cons (p : List α) : segments sep (sep :: p) = segments sep p :=
  segments_append_sep [] p

@[simp] theorem segments_dropWhile (p : List α) :
    segments sep (p.dropWhile (· = sep)) = segments sep p := by
  induction p with
  | nil => rfl
  | cons c p ih =>
    by_cases hc : c = sep
    · subst hc
      rw [segments_sep_cons, ← ih]
      simp
    · simp [hc]

theorem segments_single {c : List α} (hc : sep ∉ c) (hne : c ≠ []) : segments sep c = [c] := by
  unfold segments
  rw [splitOn_eq_singleton hc]
  simp [hne]

theorem segments_append {c r : List α} (hc : sep ∉ c) (hne : c ≠ []) :
    segments sep (c ++ sep :: r) = c :: segments sep r := by
  rw [segments_append_sep, segments_single hc hne, singleton_append]

theorem not_mem_takeWhile (p : List α) : sep ∉ p.takeWhile (· ≠ sep) := by
  intro hmem
  have hne := mem_takeWhile_imp hmem
  simp at hne

theorem dropWhile_ne_cases (p : List α) :
    p.dropWhile (· ≠ sep) = [] ∨ (p.dropWhile (· ≠ sep)).head? = some sep := by
  cases hd : p.dropWhile (· ≠ sep) with
  | nil => exact .inl rfl
  | cons x r =>
    have hx := head_dropWhile_not (fun c => decide (c ≠ sep)) (l := p) (by rw [hd]; simp)
    simp only [hd, head_cons, decide_eq_false_iff_not, not_not] at hx
    exact .inr (by rw [hx]; rfl)

theorem first_segment {p : List α} (hne : p ≠ []) (hrel : p.head? ≠ some sep) :
    p.takeWhile (· ≠ sep) ≠ [] ∧
      segments sep p = p.takeWhile (· ≠ sep) :: segments sep (p.dropWhile (· ≠ sep)) := by
  have hsplit : p.takeWhile (· ≠ sep) ++ p.dropWhile (· ≠ sep) = p := takeWhile_append_dropWhile
  have hsep : sep ∉ p.takeWhile (· ≠ sep) := not_mem_takeWhile p
  have hcne : p.takeWhile (· ≠ sep) ≠ [] := by
    cases p with
    | nil => exact absurd rfl hne
    | cons x p =>
      have hx : x ≠ sep := fun he => hrel (by rw [he]; rfl)
      simp [hx]
  refine ⟨hcne, ?_⟩
  have hrest : p.dropWhile (· ≠ sep) = [] ∨ (p.dropWhile (· ≠ sep)).head? = some sep :=
    dropWhile_ne_cases p
  generalize p.dropWhile (· ≠ sep) = r at hsplit hrest
  generalize p.takeWhile (· ≠ sep) = c at hsplit hsep hcne
  subst hsplit
  cases r with
  | nil => rw [append_nil, segments_single hsep hcne, segments_nil]
  | cons x r =>
    obtain rfl : x = sep := by simpa using hrest
    rw [segments_append hsep hcne, segments_sep_cons]

theorem head_dropWhile_sep (r : List α) : (r.dropWhile (· = sep)).head? ≠ some sep := by
  cases hd : r.dropWhile (· = sep) with
  | nil => simp
  | cons x t =>
    have hx := head_dropWhile_not (fun c => decide (c = sep)) (l := r) (by rw [hd]; simp)
    simp only [hd, head_cons, decide_eq_false_iff_not] at hx
    simpa using hx

theorem dropWhile_eq_nil_iff_segments {r : List α} :
    r.dropWhile (· = sep) = [] ↔ segments sep r = [] := by
  constructor
  · intro hnil
    rw [← segments_dropWhile, hnil, segments_nil]
  · intro hnone
    by_contra hne
    have hcons := (first_segment hne (head_dropWhile_sep r)).2
    rw [segments_dropWhile, hnone] at hcons
    cases hcons

end Gpmx.Infra
