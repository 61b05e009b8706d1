import Gpmx.Nsh.Parser

/-!
# NSH: how structured programs end

The results that are left over are no more than there were, and in a run that is `tame` a block does
not end by an error and an `if` does not end by `break`.
-/

namespace Gpmx.Nsh

variable {α : Type}

def End.Within (n : Nat) : End → Prop
  | .done rs => rs.length ≤ n
  | .broke rs => rs.length ≤ n
  | _ => True

theorem End.Within.mono {e : End} {n m : Nat} (h : e.Within n) (hle : n ≤ m) : e.Within m := by
  cases e with
  | done rs | broke rs => exact Nat.le_trans h hle
  | failed | waiting => trivial

theorem andThen_within {r : Reading α} {k : List Bool → Reading α} {n : Nat} (hr : r.2.Within n)
    (hk : ∀ rs, (k rs).2.Within rs.length) : (r.andThen k).2.Within n := by
  unfold Reading.andThen
  cases hend : r.2 with
  | done rs =>
    rw [hend] at hr
    exact (hk rs).mono hr
  | _ => simpa [hend] using hr

variable {isUntil : Bool} {c : α} {body : List Bool → Reading α} {ignore : Bool}

theorem turns_within (hbody : ∀ rs, (body rs).2.Within rs.length) (n : Nat) :
    ∀ rs, (turns isUntil c body n rs).2.Within rs.length := by
  induction n with
  | zero => exact fun _ => trivial
  | succ n ih =>
    intro rs
    cases rs with
    | nil => trivial
    | cons fail rs =>
      rw [turns]
      split
      · have hb := hbody rs
        split
        · rename_i rs' hbroke
          rw [hbroke] at hb
          exact Nat.le_succ_of_le hb
        · exact (andThen_within hb ih).mono (Nat.le_succ _)
      · exact Nat.le_succ _

mutual

theorem run_within (ignore : Bool) : ∀ (s : Stmt α) (rs : List Bool),
    (s.run ignore rs).2.Within rs.length
  | .cmd c l, [] | .ite inverted c thn hasElse els l1 l2 l3 l4, [] => trivial
  | .cmd c l, fail :: rs => by
    simp only [Stmt.run]
    split
    · trivial
    · exact Nat.le_succ _
  | .brk l, rs => Nat.le_refl _
  | .ite inverted c thn hasElse els l1 l2 l3 l4, fail :: rs => by
    simp only [Stmt.run, Reading.after]
    split
    · split
      · exact (runAll_within ignore els rs).mono (Nat.le_succ _)
      · exact Nat.le_succ _
    · exact (runAll_within ignore thn rs).mono (Nat.le_succ _)
  | .loop isUntil c body l1 l2 l3, rs => turns_within (runAll_within ignore body) _ rs

theorem runAll_within (ignore : Bool) : ∀ (ss : List (Stmt α)) (rs : List Bool),
    (runAll ignore ss rs).2.Within rs.length
  | [], _ => Nat.le_refl _
  | s :: ss, rs => andThen_within (run_within ignore s rs) (runAll_within ignore ss)

end

theorem turns_ne_broke (n : Nat) : ∀ rs rs', (turns isUntil c body n rs).2 ≠ .broke rs' := by
  induction n with
  | zero => exact fun _ _ h => nomatch h
  | succ n ih =>
    intro rs rs'
    cases rs with
    | nil => exact fun h => nomatch h
    | cons fail rs =>
      rw [turns]
      split
      · unfold Reading.after
        split
        · exact fun h => nomatch h
        · rename_i hne
          unfold Reading.andThen
          split
          · exact ih _ _
          · exact hne rs'
      · exact fun h => nomatch h

mutual

theorem run_ne_broke {inBlock : Bool} : ∀ (s : Stmt α) {rs : List Bool} {inIf : Bool},
    s.Closed false ∨ inIf = true → s.tame ignore inBlock inIf rs = true →
    ∀ rs', (s.run ignore rs).2 ≠ .broke rs'
  | .cmd c l, [], _, _, _ | .ite inverted c thn hasElse els l1 l2 l3 l4, [], _, _, _ => fun _ h => nomatch h
  | .cmd c l, fail :: rs, _, _, _ => by
    intro rs'
    simp only [Stmt.run]
    split <;> exact fun h => nomatch h
  | .brk l, rs, inIf, hwhy, htame => by
    rcases hwhy with hclosed | hif
    · exact absurd hclosed (by simp [Stmt.Closed])
    · rw [hif] at htame
      cases htame
  | .ite inverted c thn hasElse els l1 l2 l3 l4, fail :: rs, inIf, _, htame => by
    intro rs'
    simp only [Stmt.tame] at htame
    simp only [Stmt.run, Reading.after]
    split
    · rename_i hcond
      rw [if_pos hcond] at htame
      split
      · rename_i helse
        rw [helse] at htame
        exact runAll_ne_broke els (.inr rfl) (by simpa using htame) rs'
      · exact fun h => nomatch h
    · rename_i hcond
      rw [if_neg hcond] at htame
      exact runAll_ne_broke thn (.inr rfl) htame rs'
  | .loop isUntil c body l1 l2 l3, rs, _, _, _ => turns_ne_broke _ rs

theorem runAll_ne_broke {inBlock : Bool} : ∀ (ss : List (Stmt α)) {rs : List Bool}
    {inIf : Bool}, ClosedAll false ss ∨ inIf = true → tameAll ignore inBlock inIf ss rs = true →
    ∀ rs', (runAll ignore ss rs).2 ≠ .broke rs'
  | [], _, _, _, _ => fun _ h => nomatch h
  | s :: ss, rs, inIf, hwhy, htame => by
    intro rs'
    simp only [tameAll, Bool.and_eq_true] at htame
    simp only [runAll, Reading.andThen]
    cases hend : (s.run ignore rs).2 with
    | done rs1 =>
      rw [hend] at htame
      exact runAll_ne_broke ss (hwhy.imp_left And.right) htame.2 rs'
    | broke rs1 => exact absurd hend (run_ne_broke s (hwhy.imp_left And.left) htame.1 rs1)
    | failed | waiting => simp [hend]

end

theorem turns_ne_failed {skippable : Bool} {bodyTame : List Bool → Bool}
    (hbody : ∀ rs, bodyTame rs = true → (body rs).2 ≠ .failed) (n : Nat) :
    ∀ rs, turnsTame isUntil body bodyTame skippable n rs = true →
      (turns isUntil c body n rs).2 ≠ .failed := by
  induction n with
  | zero => exact fun _ _ h => nomatch h
  | succ n ih =>
    intro rs htame
    cases rs with
    | nil => exact fun h => nomatch h
    | cons fail rs =>
      rw [turnsTame] at htame
      rw [turns]
      split
      · rename_i hmore
        rw [if_pos hmore, Bool.and_eq_true] at htame
        split
        · exact fun h => nomatch h
        · unfold Reading.andThen
          split
          · rename_i hdone
            rw [hdone] at htame
            exact ih _ htame.2
          · exact hbody rs htame.1
      · exact fun h => nomatch h

mutual

theorem run_ne_failed {inIf : Bool} : ∀ (s : Stmt α) {rs : List Bool},
    s.tame ignore true inIf rs = true → (s.run ignore rs).2 ≠ .failed
  | .cmd c l, [], _ | .brk l, rs, _ | .ite inverted c thn hasElse els l1 l2 l3 l4, [], _ => fun h => nomatch h
  | .cmd c l, fail :: rs, htame => by
    simp only [Stmt.tame] at htame
    simp only [Stmt.run]
    cases fail <;> cases ignore <;> simp_all
  | .ite inverted c thn hasElse els l1 l2 l3 l4, fail :: rs, htame => by
    simp only [Stmt.tame] at htame
    simp only [Stmt.run, Reading.after]
    split
    · rename_i hcond
      rw [if_pos hcond] at htame
      split
      · rename_i helse
        rw [helse] at htame
        exact runAll_ne_failed els (by simpa using htame)
      · exact fun h => nomatch h
    · rename_i hcond
      rw [if_neg hcond] at htame
      exact runAll_ne_failed thn htame
  | .loop isUntil c body l1 l2 l3, rs, htame =>
    turns_ne_failed (fun _ h => runAll_ne_failed body h) _ rs htame

theorem runAll_ne_failed {inIf : Bool} : ∀ (ss : List (Stmt α)) {rs : List Bool},
    tameAll ignore true inIf ss rs = true → (runAll ignore ss rs).2 ≠ .failed
  | [], _, _ => fun h => nomatch h
  | s :: ss, rs, htame => by
    simp only [tameAll, Bool.and_eq_true] at htame
    simp only [runAll, Reading.andThen]
    cases hend : (s.run ignore rs).2 with
    | done rs1 =>
      rw [hend] at htame
      exact runAll_ne_failed ss htame.2
    | broke rs1 | waiting => simp [hend]
    | failed => exact absurd hend (run_ne_failed s htame.1)

end

end Gpmx.Nsh
