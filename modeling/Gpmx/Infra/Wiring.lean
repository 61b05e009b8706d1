import Mathlib

/-!
# Links that share nothing

Nodes with a link to a first child and a link to the next sibling, and a link to the root. What can be
said of the links alone, whether or not they form a tree: no node is pointed to twice, a link only
points to a node that is inside, and a node that is outside has no links.

* `Wired.insert`, `Wired.cut`, `Wired.transfer` — a node is put in, taken out, and gets the children
  of another one
* `FromRoot` — the nodes that are found from the root; none of them points to itself
-/

namespace Gpmx.Infra

inductive Link (N : Type) where
  | root
  | child (n : N)
  | peer (n : N)
deriving DecidableEq

variable {N : Type}

def Link.owner : Link N → Option N
  | .root => none
  | .child n | .peer n => some n

structure Wired (target : Link N → Option N) (inside : N → Prop) : Prop where
  target_inside : ∀ {l n}, target l = some n → inside n
  single : ∀ {l l' n}, target l = some n → target l' = some n → l = l'
  bare : ∀ {l n}, l.owner = some n → ¬inside n → target l = none

inductive FromRoot (target : Link N → Option N) : N → Prop
  | root {n : N} (h : target .root = some n) : FromRoot target n
  | step {l : Link N} {m n : N} (hm : FromRoot target m) (hl : l.owner = some m)
      (h : target l = some n) : FromRoot target n

variable {target : Link N → Option N} {inside : N → Prop} {k l : Link N} {m n : N}

theorem FromRoot.mem (h : Wired target inside) (hn : FromRoot target n) : inside n := by
  cases hn with
  | root hroot => exact h.target_inside hroot
  | step _ _ hl => exact h.target_inside hl

theorem FromRoot.not_self (h : Wired target inside) (hn : FromRoot target n) (hl : l.owner = some n) :
    target l ≠ some n := by
  induction hn generalizing l with
  | root hroot =>
    intro hself
    cases h.single hroot hself
    cases hl
  | step _ hk hkn ih =>
    intro hself
    cases h.single hkn hself
    rw [hl] at hk
    cases hk
    exact ih hl hself

theorem Wired.congr {target' : Link N → Option N} {inside' : N → Prop} (h : Wired target inside)
    (htarget : ∀ l, target' l = target l) (hinside : ∀ n, inside' n ↔ inside n) :
    Wired target' inside' where
  target_inside {l n} hl := (hinside n).mpr (h.target_inside ((htarget l).symm.trans hl))
  single {l l' _} hl hl' := h.single ((htarget l).symm.trans hl) ((htarget l').symm.trans hl')
  bare {l n} hl hn := (htarget l).trans (h.bare hl (mt (hinside n).mpr hn))

variable [DecidableEq N]

theorem Wired.insert (h : Wired target inside) (hn : ¬inside n)
    (hk : ∀ m, k.owner = some m → inside m) :
    Wired (fun l => if l = k then some n else if l = .peer n then target k else target l)
      (fun m => m = n ∨ inside m) where
  target_inside {l m} hl := by
    split_ifs at hl
    · exact .inl (Option.some.inj hl).symm
    · exact .inr (h.target_inside hl)
    · exact .inr (h.target_inside hl)
  single {l l' m} hl hl' := by
    -- nothing pointed to the new node before
    have hnew : ∀ j, target j ≠ some n := fun j hj => hn (h.target_inside hj)
    split_ifs at hl with hlk hln <;> split_ifs at hl' with hlk' hln'
    · rw [hlk, hlk']
    · cases hl
      exact absurd hl' (hnew k)
    · cases hl
      exact absurd hl' (hnew l')
    · cases hl'
      exact absurd hl (hnew k)
    · rw [hln, hln']
    · exact absurd (h.single hl hl').symm hlk'
    · cases hl'
      exact absurd hl (hnew l)
    · exact absurd (h.single hl hl') hlk
    · exact h.single hl hl'
  bare {l m} hl hm := by
    obtain ⟨hmn, hout⟩ := not_or.mp hm
    rw [if_neg, if_neg]
    · exact h.bare hl hout
    · rintro rfl
      exact hmn (Option.some.inj hl).symm
    · rintro rfl
      exact hout (hk m hl)

theorem Wired.cut (h : Wired target inside) (hk : target k = some n) (hchild : target (.child n) = none) :
    Wired (fun l => if l = .peer n then none else if l = k then target (.peer n) else target l)
      (fun m => m ≠ n ∧ inside m) where
  target_inside {l m} hl := by
    split_ifs at hl with hpeer hlk
    · refine ⟨?_, h.target_inside hl⟩
      rintro rfl
      exact hpeer (hlk.trans (h.single hk hl))
    · refine ⟨?_, h.target_inside hl⟩
      rintro rfl
      exact hlk (h.single hl hk)
  single {l l' m} hl hl' := by
    split_ifs at hl with hpeer hlk <;> split_ifs at hl' with hpeer' hlk'
    · rw [hlk, hlk']
    · exact absurd (h.single hl' hl) hpeer'
    · exact absurd (h.single hl hl') hpeer
    · exact h.single hl hl'
  bare {l m} hl hm := by
    split_ifs with hpeer hlk
    · rfl
    · subst hlk
      have hin : inside m := by
        by_contra hout
        rw [h.bare hl hout] at hk
        cases hk
      have hmn : m = n := not_not.mp fun hne => hm ⟨hne, hin⟩
      subst hmn
      -- `k` would be the link to its own children, which has been excluded
      cases l with
      | root => cases hl
      | child _ =>
        cases hl
        rw [hchild] at hk
        cases hk
      | peer _ =>
        cases hl
        exact absurd rfl hpeer
    · by_cases hin : inside m
      · have hmn : m = n := not_not.mp fun hne => hm ⟨hne, hin⟩
        subst hmn
        cases l with
        | root => cases hl
        | child _ =>
          cases hl
          exact hchild
        | peer _ =>
          cases hl
          exact absurd rfl hpeer
      · exact h.bare hl hin

theorem Wired.transfer (h : Wired target inside) (hn : inside n) (old : N) :
    Wired (fun l => if l = .child n then target (.child old) else if l = .child old then none else target l)
      inside where
  target_inside {l m} hl := by
    split_ifs at hl <;> exact h.target_inside hl
  single {l l' m} hl hl' := by
    split_ifs at hl with hln hlo <;> split_ifs at hl' with hln' hlo'
    · rw [hln, hln']
    · exact absurd (h.single hl hl').symm hlo'
    · exact absurd (h.single hl hl') hlo
    · exact h.single hl hl'
  bare {l m} hl hm := by
    split_ifs with hln
    · subst hln
      cases hl
      exact absurd hn hm
    · rfl
    · exact h.bare hl hm

end Gpmx.Infra
