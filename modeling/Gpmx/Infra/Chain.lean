import Mathlib

/-!
# Linked chains

Nodes point to their successors: `next a` is the node after `a`, or `none`. `Seg next p L q`
says that following the pointers from `p` passes exactly the nodes `L` and arrives at `q`.
A list in memory is a segment that arrives at the null pointer; it visits no node twice
(`Seg.nodup`), and there is only one such list (`Seg.unique`).
-/

namespace Gpmx.Infra

open List

variable {ι : Type} {next next' : ι → Option ι} {p q r : Option ι} {L M N : List ι} {a b : ι}

/-- The pointers lead from `p` through the nodes `L` to `q`. -/
def Seg (next : ι → Option ι) : Option ι → List ι → Option ι → Prop
  | p, [], q => p = q
  | p, a :: L, q => p = some a ∧ Seg next (next a) L q

@[simp] theorem seg_nil : Seg next p [] q ↔ p = q := Iff.rfl

@[simp] theorem seg_cons : Seg next p (a :: L) q ↔ p = some a ∧ Seg next (next a) L q := Iff.rfl

theorem seg_append : ∀ {L : List ι} {p : Option ι},
    Seg next p (L ++ M) r ↔ ∃ q, Seg next p L q ∧ Seg next q M r
  | [], p => by simp
  | a :: L, p => by
    rw [cons_append, seg_cons, seg_append]
    constructor
    · rintro ⟨hp, q, hL, hM⟩
      exact ⟨q, ⟨hp, hL⟩, hM⟩
    · rintro ⟨q, ⟨hp, hL⟩, hM⟩
      exact ⟨hp, q, hL, hM⟩

theorem Seg.congr : ∀ {L : List ι} {p : Option ι}, (∀ a ∈ L, next' a = next a) →
    Seg next p L q → Seg next' p L q
  | [], _, _, h => h
  | a :: L, p, heq, h => by
    refine ⟨h.1, ?_⟩
    rw [heq a mem_cons_self]
    exact Seg.congr (fun b hb => heq b (mem_cons_of_mem _ hb)) h.2

theorem Seg.start (h : Seg next p L none) : p = L.head? := by
  cases L with
  | nil => exact h
  | cons a L => exact h.1

theorem Seg.unique : ∀ {L M : List ι} {p : Option ι}, Seg next p L none → Seg next p M none → L = M
  | [], [], _, _, _ => rfl
  | [], b :: M, p, hL, hM => by
    rw [seg_nil] at hL
    rw [hL] at hM
    cases hM.1
  | a :: L, [], p, hL, hM => by
    rw [seg_nil] at hM
    rw [hM] at hL
    cases hL.1
  | a :: L, b :: M, p, hL, hM => by
    have hab : a = b := Option.some.inj (hL.1.symm.trans hM.1)
    subst hab
    rw [Seg.unique hL.2 hM.2]

/-- **A chain that ends visits no node twice.** -/
theorem Seg.nodup : ∀ {L : List ι} {p : Option ι}, Seg next p L none → L.Nodup
  | [], _, _ => nodup_nil
  | a :: L, p, h => by
    refine nodup_cons.mpr ⟨?_, Seg.nodup h.2⟩
    intro hmem
    obtain ⟨M, N, hL⟩ := append_of_mem hmem
    -- from the second `a` on the chain is the chain from the first, and it is shorter
    have h2 := h.2
    rw [hL] at h2
    obtain ⟨q, -, hq⟩ := seg_append.mp h2
    have hp : Seg next (some a) (a :: L) none := ⟨rfl, h.2⟩
    rw [hq.1] at hq
    have hlen := congrArg List.length (Seg.unique hp hq)
    rw [hL] at hlen
    simp only [length_cons, length_append] at hlen
    omega

theorem Seg.apart (h : Seg next p (M ++ a :: N) none) : a ∉ M ∧ a ∉ N := by
  have hnot := (nodup_cons.mp (nodup_middle.mp h.nodup)).1
  exact ⟨fun ha => hnot (mem_append_left _ ha), fun ha => hnot (mem_append_right _ ha)⟩

theorem Seg.not_of_loop (ha : next a = some a) : ¬Seg next (some a) L none := by
  intro h
  cases L with
  | nil => cases h
  | cons b L =>
    obtain ⟨hb, hL⟩ := h
    obtain rfl : a = b := Option.some.inj hb
    have hself : Seg next (some a) (a :: L) none := ⟨rfl, hL⟩
    rw [ha] at hL
    have hlen := congrArg List.length (Seg.unique hself hL)
    simp at hlen

/-! ## Updates -/

variable [DecidableEq ι] {v : Option ι}

theorem Seg.update (h : Seg next p L q) (ha : a ∉ L) : Seg (Function.update next a v) p L q := by
  refine h.congr fun b hb => Function.update_of_ne ?_ _ _
  rintro rfl
  exact ha hb

theorem Seg.retarget (h : Seg next p (L ++ [a]) q) (ha : a ∉ L) :
    Seg (Function.update next a v) p (L ++ [a]) v := by
  obtain ⟨r, hL, hr⟩ := seg_append.mp h
  refine seg_append.mpr ⟨r, hL.update ha, hr.1, ?_⟩
  rw [Function.update_self]
  exact rfl

/-- **A node is put in** behind another one. -/
theorem Seg.insert (h : Seg next p (M ++ a :: N) none) (hb : b ∉ M ++ a :: N) :
    Seg (Function.update (Function.update next b (next a)) a (some b)) p (M ++ a :: b :: N) none := by
  obtain ⟨haM, haN⟩ := h.apart
  obtain ⟨hbM, hbN⟩ := not_or.mp (mt mem_append.mpr hb)
  obtain ⟨hne, hbN⟩ := not_or.mp (mt mem_cons.mpr hbN)
  obtain ⟨r, hM, rfl, hN⟩ := seg_append.mp h
  refine seg_append.mpr ⟨some a, (hM.update hbM).update haM, rfl, ?_⟩
  rw [Function.update_self]
  refine ⟨rfl, ?_⟩
  rw [Function.update_of_ne hne, Function.update_self]
  exact (hN.update hbN).update haN

/-- **A node is taken out**: the node before it, or the start, gets its pointer. -/
theorem Seg.splice (h : Seg next p (M ++ a :: N) none) :
    Seg (match M.getLast? with
      | none => next
      | some b => Function.update next b (next a))
    (match M.getLast? with
      | none => next a
      | some _ => p) (M ++ N) none := by
  obtain ⟨q, hM, rfl, hN⟩ := seg_append.mp h
  rcases eq_nil_or_concat M with rfl | ⟨K, b, rfl⟩
  · exact hN
  · rw [concat_eq_append] at h hM ⊢
    rw [append_assoc, singleton_append] at h
    obtain ⟨hbK, hbN⟩ := h.apart
    simp only [getLast?_append, getLast?_singleton, Option.some_or]
    exact seg_append.mpr ⟨next a, hM.retarget hbK, hN.update (mt (mem_cons_of_mem a) hbN)⟩

theorem Seg.unlink (h : Seg next p (M ++ b :: a :: N) none) :
    Seg (Function.update (Function.update next b (next a)) a none) p (M ++ b :: N) none := by
  rw [append_cons] at h ⊢
  have hsplice := h.splice
  simp only [getLast?_append, getLast?_singleton, Option.some_or] at hsplice
  exact hsplice.update fun ha => (mem_append.mp ha).elim h.apart.1 h.apart.2

end Gpmx.Infra
