import Mathlib

/-!
# Critical sections without saved flags

A processor has one flag that says whether interrupts are served. A critical section that saves
nothing clears the flag when it is entered and sets it when it is left. Such sections nest where
the flag, after every act, is what it was at the beginning outside of all sections, and clear
inside of one.

* `Nests` — the acts of some code, begun with the flag `outer`, nest
* `nests_append` — one piece of code after another nests if both do
-/

namespace Gpmx.Infra

open List

inductive Act where
  | enter
  | leave
  deriving DecidableEq

namespace Act

/-- How many sections are open, after `n` were. -/
def depthFrom (n : Nat) (acts : List Act) : Nat :=
  acts.foldl (fun n act =>
    match act with
    | enter => n + 1
    | leave => n - 1) n

def depth (acts : List Act) : Nat := depthFrom 0 acts

def flag (outer : Bool) (acts : List Act) : Bool :=
  acts.foldl (fun _ act =>
    match act with
    | enter => false
    | leave => true) outer

/-- Interrupts are enabled outside of all sections where they were at the beginning, and nowhere
else. -/
def Nests (outer : Bool) (acts : List Act) : Prop :=
  ∀ p ∈ acts.inits, flag outer p = (outer && depth p == 0)

instance (outer : Bool) (acts : List Act) : Decidable (Nests outer acts) :=
  List.decidableBAll _ _

variable {outer : Bool} {a b : List Act}

theorem depth_append (ha : depth a = 0) : depth (a ++ b) = depth b := by
  unfold depth depthFrom at *
  rw [foldl_append, ha]

theorem flag_append : flag outer (a ++ b) = flag (flag outer a) b := foldl_append

theorem Nests.flag_eq (h : Nests outer a) (ha : depth a = 0) : flag outer a = outer := by
  rw [h a ((mem_inits _ _).mpr prefix_rfl), ha]
  exact Bool.and_true outer

theorem nests_nil : Nests outer [] := by
  cases outer <;> decide

/-- **Code whose sections are closed nests together with what follows if both do.** -/
theorem nests_append (ha : depth a = 0) :
    Nests outer (a ++ b) ↔ Nests outer a ∧ Nests outer b := by
  constructor
  · intro h
    have hfirst : Nests outer a := by
      intro p hp
      have hpre : p <+: a := (mem_inits _ _).mp hp
      exact h p ((mem_inits _ _).mpr (hpre.trans (prefix_append a b)))
    refine ⟨hfirst, fun p hp => ?_⟩
    have hpre : p <+: b := (mem_inits _ _).mp hp
    have hp' := h (a ++ p) ((mem_inits _ _).mpr ((prefix_append_right_inj a).mpr hpre))
    rwa [flag_append, hfirst.flag_eq ha, depth_append ha] at hp'
  · rintro ⟨hfirst, hsecond⟩ p hp
    have hpre : p <+: a ++ b := (mem_inits _ _).mp hp
    rcases prefix_or_prefix_of_prefix hpre (prefix_append a b) with hin | ⟨q, rfl⟩
    · exact hfirst p ((mem_inits _ _).mpr hin)
    · have hq : q <+: b := (prefix_append_right_inj a).mp hpre
      rw [flag_append, hfirst.flag_eq ha, depth_append ha]
      exact hsecond q ((mem_inits _ _).mpr hq)

end Act

end Gpmx.Infra
