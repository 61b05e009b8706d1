import Gpmx.Nsh.Skip
import Gpmx.Nsh.Ends

/-!
# NSH: the parser follows a statement

* `Cont` — what has to be shown of the text behind a statement, for each way in which it can end
* `Follows` — the parser runs the commands of a text, as long as the run is `tame`
* `follow_cmd`, `follow_brk`, `follow_ite`, `follow_loop` — the statements, one after the other
-/

namespace Gpmx.Nsh

open List

variable {α : Type}

/-- Commands are run, and there is room for `d` more blocks. -/
structure Ready (N d : Nat) (inLoop inBlock inIf : Bool) (v : Vtbl α) : Prop where
  ie : v.ie.state ≠ .if_
  lp : v.lp.state = if inLoop then .do_ else .normal
  on : nshCmdenabled v = true
  ideep : v.iendx + d < N
  ldeep : v.lpndx + d < N
  home : inLoop = true → inIf = false → v.lp.iendx = v.iendx
  outside : inBlock = false → v.iendx = 0 ∧ v.lpndx = 0

namespace Ready

variable {N d d' : Nat} {inLoop inBlock inIf : Bool} {v w : Vtbl α}

section

variable (h : Ready N d inLoop inBlock inIf v)
include h

theorem between : Between v := by
  refine ⟨h.ie, ?_⟩
  rw [h.lp]
  cases inLoop <;> decide

theorem itefEnabled : nshItefEnabled v = true := by
  have hon := h.on
  exact (Bool.and_eq_true_iff.mp hon).2

theorem mono (hle : d' ≤ d) : Ready N d' inLoop inBlock inIf v :=
  ⟨h.ie, h.lp, h.on, by have := h.ideep; omega, by have := h.ldeep; omega, h.home, h.outside⟩

theorem like (hw : Like v w) : Ready N d inLoop inBlock inIf w where
  ie := by rw [hw.ie]; exact h.ie
  lp := by rw [hw.lp]; exact h.lp
  on := hw.cmdenabled.trans h.on
  ideep := by rw [hw.iendx]; exact h.ideep
  ldeep := by rw [hw.lpndx]; exact h.ldeep
  home hl hi := by rw [hw.lp, hw.iendx]; exact h.home hl hi
  outside ho := by rw [hw.iendx, hw.lpndx]; exact h.outside ho

end

end Ready

section Follow

variable {N : Nat} {file : List (Piece α)} {Q : Halt α → Prop}

/-- What has to be shown of the text at `pc`, for each way in which what is in front of it can end. -/
def Cont (N : Nat) (file : List (Piece α)) (Q : Halt α → Prop) (pc : Nat) (v : Vtbl α)
    (r : Reading α) : Prop :=
  match r.2 with
  | .done rs => ∀ w, After r.1 rs v w → Goes N file Q pc w
  | .broke rs => ∀ w, After r.1 rs v.stopLoop w → Goes N file Q pc w
  | .failed => ∀ ret w, w.executed = v.executed ++ r.1 → w.iendx = 0 → w.lpndx = 0 → Q (.ended ret w)
  | .waiting => ∀ w, w.executed = v.executed ++ r.1 → Q (.blocked w)

variable {v : Vtbl α} {rs : List Bool} {r : Reading α} {pc' : Nat}

variable {w : Vtbl α} {t : List α} {e : Itef} {x : Vtbl α}

theorem stopLoop_like (h : Like v w) : Like v.stopLoop w.stopLoop := by
  unfold Vtbl.stopLoop
  rw [h.lp]
  exact h.setLp _

theorem Cont.moved {pc : Nat} (h : Cont N file Q pc v (t ++ r.1, r.2)) (hw : After t rs v w) :
    Cont N file Q pc w r := by
  unfold Cont at h ⊢
  cases hend : r.2 with rw [hend] at h
  | done rs' =>
    exact fun x hx => h x (hw.trans hx)
  | broke rs' =>
    refine fun x hx => h x ⟨(stopLoop_like hw.toLike).trans hx.toLike, ?_, hx.results⟩
    rw [hx.executed]
    show w.executed ++ r.1 = _
    rw [hw.executed, append_assoc]
    rfl
  | failed =>
    intro ret x hexe
    exact h ret x (by rw [hexe, hw.executed, append_assoc])
  | waiting =>
    intro x hexe
    exact h x (by rw [hexe, hw.executed, append_assoc])

def Follows (N : Nat) (file : List (Piece α)) (Q : Halt α → Prop) (ignore : Bool) (L : List (Piece α))
    (ok : Vtbl α → Prop) (tame : List Bool → Bool) (run : List Bool → Reading α) : Prop :=
  ∀ {pc : Nat} {v : Vtbl α}, ok v → v.ignore = ignore → tame v.results = true → At file pc L →
    Cont N file Q (pc + L.length) v (run v.results) → Goes N file Q pc v

variable {ignore inLoop inBlock inIf : Bool} {d : Nat}

theorem follow_cmd (c : α) (l : Bool) :
    Follows N file Q ignore (Stmt.cmd c l).pieces (Ready N d inLoop inBlock inIf)
      ((Stmt.cmd c l).tame ignore inBlock inIf) ((Stmt.cmd c l).run ignore) := by
  intro pc v hready hignore htame hat hcont
  refine goes_piece hat.head fun w hw => ?_
  have hafter := hw.after
  have hbetween := hafter.toLike.between hready.between
  have hon := hafter.toLike.cmdenabled.trans hready.on
  have hexe : w.executed = v.executed := by
    rw [hafter.executed, append_nil]
  cases hres : v.results with
  | nil =>
    rw [parse_cmd_blocked hbetween hon (hafter.results.trans hres)]
    rw [hres] at hcont
    exact .blocked (hcont _ (congrArg (· ++ [c]) hexe))
  | cons fail rs =>
    rw [parse_cmd hbetween hon (hafter.results.trans hres)]
    rw [hres] at hcont htame
    simp only [Stmt.tame] at htame
    have hnext : After [c] rs v { w with executed := w.executed ++ [c], results := rs, fail } :=
      hafter.ran ⟨rfl, fun _ _ => rfl, rfl, fun _ _ => rfl, rfl⟩ rfl rfl
    have hlike := hnext.toLike
    by_cases hstop : fail = true ∧ ignore = false
    · -- the script ends here
      obtain ⟨rfl, rfl⟩ := hstop
      have houtside : inBlock = false := by simpa using htame
      obtain ⟨hi, hl⟩ := hready.outside houtside
      exact .ended (by simp) (hlike.ignore.trans hignore)
        (hcont _ _ hnext.executed (hlike.iendx.trans hi) (hlike.lpndx.trans hl))
    · have hgo : Goes N file Q (pc + 1) { w with executed := w.executed ++ [c], results := rs, fail } := by
        have hdone : (fail && !ignore) = false := by
          cases fail <;> cases ignore <;> simp_all
        simp only [Stmt.run, hdone, Cont] at hcont
        exact hcont _ hnext
      refine .next ?_ hw.jump rfl rfl hgo
      cases fail with
      | false => exact .inl rfl
      | true =>
        have hig : ignore = true := by simpa using hstop
        rw [hig] at htame
        exact .inr ⟨hlike.ignore.trans (hignore.trans hig), by simpa using htame⟩

theorem follow_brk (l : Bool) (hloop : inLoop = true) :
    Follows N file Q ignore (Stmt.brk l : Stmt α).pieces (Ready N d inLoop inBlock inIf)
      ((Stmt.brk l : Stmt α).tame ignore inBlock inIf) ((Stmt.brk l).run ignore) := by
  intro pc v hready _ htame hat hcont
  refine goes_next hat.head fun w hw _ hjump => ?_
  have hlike := hw.toLike
  have hdo : w.lp.state = .do_ := by
    rw [hlike.lp, hready.lp, hloop]
    rfl
  have hhome : w.lp.iendx = w.iendx := by
    rw [hlike.lp, hlike.iendx]
    exact hready.home hloop (by simpa [Stmt.tame] using htame)
  refine ⟨_, parse_brk (hlike.between hready.between) (hlike.cmdenabled.trans hready.on) hdo hhome,
    hjump, rfl, rfl, hcont _ ?_⟩
  exact ⟨(stopLoop_like hlike).trans ⟨rfl, fun _ _ => rfl, rfl, fun _ _ => rfl, rfl⟩, hw.executed,
    hw.results⟩

theorem itefEnabled_pushIe (v : Vtbl α) (e : Itef) : nshItefEnabled (v.pushIe e) =
    if e.disabled then false else
      match e.state with
      | .then_ => !e.ifcond
      | .else_ => e.ifcond
      | _ => true := by
  cases hstate : e.state <;> simp [nshItefEnabled, Vtbl.ie_pushIe, hstate]

theorem Ready.pushIe (h : Ready N (d + 1) inLoop inBlock inIf v) (hstate : e.state ≠ .if_)
    (hon : nshItefEnabled (v.pushIe e) = true) :
    Ready N d inLoop true true (v.pushIe e) where
  ie := by rw [Vtbl.ie_pushIe]; exact hstate
  lp := h.lp
  on := by
    have hloop : nshLoopEnabled (v.pushIe e) = nshLoopEnabled v := rfl
    have hv := h.on
    unfold nshCmdenabled at hv ⊢
    rw [hloop, (Bool.and_eq_true_iff.mp hv).1, hon]
    rfl
  ideep := Nat.lt_of_le_of_lt (Nat.le_of_eq (Nat.succ_add _ d)) h.ideep
  ldeep := Nat.lt_of_succ_lt h.ldeep
  home _ hno := by cases hno
  outside hno := by cases hno

theorem Ready.off (h : Ready N (d + 1) inLoop inBlock inIf v) (hstate : e.state ≠ .if_)
    (hoff : nshItefEnabled (v.pushIe e) = false) :
    Off N d (v.pushIe e) where
  between := ⟨by rw [Vtbl.ie_pushIe]; exact hstate, h.between.lp⟩
  off := hoff
  ideep := Nat.lt_of_le_of_lt (Nat.le_of_eq (Nat.succ_add _ d)) h.ideep
  ldeep := Nat.lt_of_succ_lt h.ldeep

section Ite

variable {inverted hasElse : Bool} {c : α} {thn els : List (Stmt α)} {l1 l2 l3 l4 : Bool}
  {pc : Nat} {v x : Vtbl α} {t : List α} {rs : List Bool} {e : Itef}

/-- The text behind the first part of an `if`. -/
def elsePart (hasElse : Bool) (els : List (Stmt α)) (l3 l4 : Bool) : List (Piece α) :=
  (if hasElse then ⟨.else_, l3⟩ :: piecesAll els else []) ++ [⟨.fi, l4⟩]

theorem goes_taken (hready : Ready N (d + 1) inLoop inBlock inIf v) (hels : depthAll els ≤ d)
    (hx : After t rs (v.pushIe e) x) (hstate : e.state = .then_) (hcond : e.ifcond = false)
    (hat : At file pc (elsePart hasElse els l3 l4))
    (hnext : ∀ w, After t rs v w → Goes N file Q (pc + (elsePart hasElse els l3 l4).length) w) :
    Goes N file Q pc x := by
  unfold elsePart at hat hnext
  cases hasElse with
  | false => exact goes_fi hat.head hx hready.between.lp rfl (.inl hstate) hnext
  | true =>
    simp only [if_true, cons_append] at hat hnext
    refine goes_branch hat.head hx hready.between.lp (.inr ⟨rfl, hstate, rfl⟩) fun w hw => ?_
    have hoff : Off N d (v.pushIe { e with state := .else_ }) :=
      hready.off (by simp) (by rw [itefEnabled_pushIe]; simp [hcond])
    refine skipAll_off els ((hoff.mono hels).like hw.toLike) hat.tail.left fun w2 hw2 => ?_
    refine goes_fi hat.tail.right.head (hw.then_quiet hw2) hready.between.lp rfl (.inr rfl)
      fun w3 hw3 => ?_
    refine (hnext w3 hw3).move ?_
    simp only [length_cons, length_append, length_nil]
    omega

theorem cont_part (hbroke : ∀ rs', r.2 ≠ .broke rs') (hfailed : r.2 ≠ .failed)
    (hx : After [c] rs (v.pushIe e) x) (hcont : Cont N file Q pc' v (r.after c))
    (hdone : ∀ {t' rs'}, (∀ w, After (c :: t') rs' v w → Goes N file Q pc' w) → ∀ w, After (c :: t') rs' (v.pushIe e) w → Goes N file Q pc w) :
    Cont N file Q pc x r := by
  unfold Cont Reading.after at *
  cases hend : r.2 with
  | done rs' =>
    simp only [hend] at hcont
    exact fun w hw => hdone hcont w (hx.trans hw)
  | broke rs' => exact absurd hend (hbroke rs')
  | failed => exact absurd hend hfailed
  | waiting =>
    simp only [hend] at hcont
    intro w hexe
    refine hcont w ?_
    rw [hexe, hx.executed, append_assoc]
    rfl

theorem follow_ite (hthn : Follows N file Q ignore (piecesAll thn) (Ready N d inLoop true true)
      (tameAll ignore true true thn) (runAll ignore thn))
    (hels : Follows N file Q ignore (piecesAll els) (Ready N d inLoop true true)
      (tameAll ignore true true els) (runAll ignore els))
    (hdthn : depthAll thn ≤ d) (hdels : depthAll els ≤ d) :
    Follows N file Q ignore (Stmt.ite inverted c thn hasElse els l1 l2 l3 l4).pieces
      (Ready N (d + 1) inLoop inBlock inIf)
      ((Stmt.ite inverted c thn hasElse els l1 l2 l3 l4).tame ignore inBlock inIf)
      ((Stmt.ite inverted c thn hasElse els l1 l2 l3 l4).run ignore) := by
  intro pc v hready hignore htame hat hcont
  have hlen : (Stmt.ite inverted c thn hasElse els l1 l2 l3 l4).pieces.length =
      2 + (piecesAll thn).length + (elsePart hasElse els l3 l4).length := by
    simp only [Stmt.pieces, elsePart, length_cons, length_append]
    omega
  rw [hlen] at hcont
  rw [Stmt.pieces] at hat
  have hrest : At file (pc + 1 + 1) (piecesAll thn ++ elsePart hasElse els l3 l4) := hat.tail.tail
  have hi := hready.ideep
  refine goes_piece hat.head fun w hw => ?_
  have hafter := hw.after
  have hbetween := hafter.toLike.between hready.between
  have hon := hafter.toLike.cmdenabled.trans hready.on
  have hdeep : w.iendx + 1 < N := by
    rw [hafter.toLike.iendx]
    omega
  have hexe : w.executed = v.executed := by
    rw [hafter.executed, append_nil]
  cases hres : v.results with
  | nil =>
    rw [parse_if_blocked hbetween hdeep hon inverted (hafter.results.trans hres)]
    rw [hres] at hcont
    exact .blocked (hcont _ (congrArg (· ++ [c]) hexe))
  | cons fail rs =>
    rw [parse_if hbetween hdeep hon inverted (hafter.results.trans hres)]
    rw [hres] at hcont htame
    refine .next (.inl rfl) hw.jump rfl rfl ?_
    have hdec : decided w inverted fail = decided v inverted fail := by
      unfold decided ifItef
      rw [hafter.toLike.cmdenabled]
    have hdis : (decided v inverted fail).disabled = false := by
      unfold decided ifItef
      rw [hready.on]
      rfl
    have hcond : (decided v inverted fail).ifcond = (inverted ^^ fail) := rfl
    have hpush : After [c] rs (v.pushIe (decided v inverted fail))
        ({ w with executed := w.executed ++ [c], results := rs, fail := false }.pushIe
          (decided w inverted fail)) := by
      rw [hdec]
      have hran : After [c] rs v { w with executed := w.executed ++ [c], results := rs, fail := false } :=
        hafter.ran ⟨rfl, fun _ _ => rfl, rfl, fun _ _ => rfl, rfl⟩ rfl rfl
      exact ⟨hran.toLike.pushIe _, hran.executed, rfl⟩
    refine goes_branch hat.tail.head hpush hready.between.lp (.inl ⟨rfl, rfl, rfl⟩) fun w2 hw2 => ?_
    have hign2 : w2.ignore = ignore := hw2.toLike.ignore.trans hignore
    simp only [Stmt.tame] at htame
    simp only [Stmt.run] at hcont
    cases hfail : (inverted ^^ fail) with
    | false =>
      -- the first part is taken
      rw [hfail] at htame hcont hcond
      simp only [Bool.false_eq_true, if_false] at htame hcont
      have hthen : Ready N d inLoop true true
          (v.pushIe { decided v inverted fail with state := .then_ }) :=
        hready.pushIe (by simp) (by rw [itefEnabled_pushIe]; simp [hdis, hcond])
      rw [← hw2.results] at htame hcont
      refine hthn (hthen.like hw2.toLike) hign2 htame hrest.left ?_
      refine cont_part (runAll_ne_broke thn (.inr rfl) htame) (runAll_ne_failed thn htame) hw2 hcont
        fun hnext w3 hw3 => ?_
      exact goes_taken hready hdels hw3 rfl hcond hrest.right fun w4 hw4 => (hnext w4 hw4).move (by omega)
    | true =>
      -- the first part is skipped
      rw [hfail] at htame hcont hcond
      simp only [if_true] at htame hcont
      have hthen : Off N d (v.pushIe { decided v inverted fail with state := .then_ }) :=
        hready.off (by simp) (by rw [itefEnabled_pushIe]; simp [hcond])
      refine skipAll_off thn ((hthen.mono hdthn).like hw2.toLike) hrest.left fun w3 hw3 => ?_
      replace hw3 := hw2.then_quiet hw3
      have helse := hrest.right
      unfold elsePart at helse hcont
      cases hasElse with
      | false =>
        simp only [Bool.false_eq_true, if_false, nil_append, length_singleton] at helse hcont
        exact goes_fi helse.head hw3 hready.between.lp rfl (.inl rfl) fun w4 hw4 =>
          Goes.move (hcont w4 hw4) (by omega)
      | true =>
        simp only [if_true, cons_append, length_cons, length_append, length_nil,
          Bool.not_true, Bool.false_or] at helse hcont htame
        refine goes_branch helse.head hw3 hready.between.lp (.inr ⟨rfl, rfl, rfl⟩) fun w4 hw4 => ?_
        have hready4 : Ready N d inLoop true true
            (v.pushIe { decided v inverted fail with state := .else_ }) :=
          hready.pushIe (by simp) (by rw [itefEnabled_pushIe]; simp [hdis, hcond])
        rw [← hw4.results] at htame hcont
        refine hels (hready4.like hw4.toLike) (hw4.toLike.ignore.trans hignore) htame helse.tail.left ?_
        refine cont_part (runAll_ne_broke els (.inr rfl) htame) (runAll_ne_failed els htame) hw4 hcont
          fun hnext w5 hw5 => ?_
        exact goes_fi helse.tail.right.head hw5 hready.between.lp rfl (.inr rfl) fun w6 hw6 =>
          (hnext w6 hw6).move (by omega)

end Ite

section Loop

variable {isUntil : Bool} {c : α} {body : List (Stmt α)} {l1 l2 l3 : Bool} {pc : Nat} {v : Vtbl α}

def bodyLoop (pc iendx : Nat) (enable : Bool) : Loop :=
  { enable, state := .do_, iendx, topoffs := pc }

theorem Ready.pushLp (h : Ready N (d + 1) inLoop inBlock inIf v) :
    Ready N d true true false (v.pushLp (bodyLoop pc v.iendx true)) where
  ie := h.ie
  lp := by rw [Vtbl.lp_pushLp]; rfl
  on := by
    have hloop : nshLoopEnabled (v.pushLp (bodyLoop pc v.iendx true)) = true := by
      unfold nshLoopEnabled
      rw [Vtbl.lp_pushLp]
      rfl
    have hitef : nshItefEnabled (v.pushLp (bodyLoop pc v.iendx true)) = nshItefEnabled v := rfl
    unfold nshCmdenabled
    rw [hloop, hitef, h.itefEnabled]
    rfl
  ideep := Nat.lt_of_succ_lt h.ideep
  ldeep := Nat.lt_of_le_of_lt (Nat.le_of_eq (Nat.succ_add _ d)) h.ldeep
  home _ _ := by rw [Vtbl.lp_pushLp]; rfl
  outside hno := by cases hno

theorem Ready.stopped (h : Ready N (d + 1) inLoop inBlock inIf v) :
    Stopped N d (v.pushLp (bodyLoop pc v.iendx false)) where
  ie := h.ie
  state := by rw [Vtbl.lp_pushLp]; rfl
  enable := by rw [Vtbl.lp_pushLp]; rfl
  ideep := Nat.lt_of_succ_lt h.ideep
  ldeep := Nat.lt_of_le_of_lt (Nat.le_of_eq (Nat.succ_add _ d)) h.ldeep

theorem stopLoop_pushLp (v : Vtbl α) (pc iendx : Nat) :
    (v.pushLp (bodyLoop pc iendx true)).stopLoop = v.pushLp (bodyLoop pc iendx false) := by
  unfold Vtbl.stopLoop
  rw [Vtbl.lp_pushLp, pushLp_setLp]
  rfl

theorem goes_done_jump {p : Piece α} {iendx : Nat} (hp : file[pc']? = some p)
    (hx : After t rs (v.pushLp (bodyLoop pc iendx true)) x) (htok : p.token = .done_)
    (hnext : ∀ w, After t rs v w → Goes N file Q pc w) : Goes N file Q pc' x := by
  refine goes_piece hp fun w hw => ?_
  have hall := hx.toLike.trans hw.after.toLike
  have hlp : w.lp = bodyLoop pc iendx true := by rw [hall.lp, Vtbl.lp_pushLp]
  have hpos : 0 < w.lpndx := by
    have hidx : w.lpndx = v.lpndx + 1 := hall.lpndx
    omega
  obtain ⟨lp, hparse⟩ := parse_done_jump (N := N) (w := w) (by rw [hlp]; rfl) hpos (by rw [hlp]; rfl)
  rw [htok, hparse]
  refine .jump rfl ?_
  have htop : w.lp.topoffs = pc := by rw [hlp]; rfl
  have hlike : Like v (({ w with fpos := w.lp.topoffs, jump := true }.setLp lp).popLp) :=
    Like.popLp (hall.trans ⟨rfl, fun _ _ => rfl, rfl, fun _ _ => rfl, rfl⟩)
  have hafter := hx.restack hw.after hlike rfl rfl rfl
  have hgo := hnext _ hafter
  rwa [← htop] at hgo

theorem cont_body {k : List Bool → Reading α} (hp : file[pc']? = some ⟨.done_, l3⟩)
    (hfailed : r.2 ≠ .failed) (hx : After [c] rs (v.pushLp (bodyLoop pc v.iendx true)) x)
    (hcont : Cont N file Q (pc' + 1) v (Reading.after c (match r.2 with | .broke rs' => (r.1, .done rs') | _ => r.andThen k)))
    (hagain : ∀ rs', r.2 = .done rs' → ∀ w, After (c :: r.1) rs' v w → Cont N file Q (pc' + 1) w (k rs') → Goes N file Q pc w) :
    Cont N file Q pc' x r := by
  unfold Reading.after Reading.andThen at hcont
  unfold Cont
  cases hend : r.2 with simp only [hend] at hcont
  | done rs' =>
    intro w hw
    refine goes_done_jump hp (hx.trans hw) rfl fun w2 hw2 => ?_
    exact hagain rs' hend w2 hw2 (Cont.moved hcont hw2)
  | broke rs' =>
    intro w hw
    have hstop : After (c :: r.1) rs' (v.pushLp (bodyLoop pc v.iendx false)) w := by
      have hlike := stopLoop_like hx.toLike
      rw [stopLoop_pushLp] at hlike
      refine ⟨hlike.trans hw.toLike, ?_, hw.results⟩
      rw [hw.executed]
      show x.executed ++ r.1 = _
      rw [hx.executed, append_assoc]
      rfl
    exact goes_done_stop hp hstop rfl rfl rfl hcont
  | failed => exact absurd hend hfailed
  | waiting =>
    intro w hexe
    refine hcont w ?_
    rw [hexe, hx.executed, append_assoc]
    rfl

theorem goes_turns (hbody : Follows N file Q ignore (piecesAll body) (Ready N d true true false)
      (tameAll ignore true false body) (runAll ignore body)) (hdbody : depthAll body ≤ d)
    (hat : At file pc (Stmt.loop isUntil c body l1 l2 l3).pieces) (n : Nat) : ∀ {v : Vtbl α},
    v.results.length < n → Ready N (d + 1) inLoop inBlock inIf v → v.ignore = ignore →
    turnsTame isUntil (runAll ignore body) (tameAll ignore true false body) (noLoop body) n
      v.results = true →
    Cont N file Q (pc + 2 + (piecesAll body).length + 1) v
      (turns isUntil c (runAll ignore body) n v.results) → Goes N file Q pc v := by
  rw [Stmt.pieces] at hat
  have hrest := hat.tail.tail
  induction n with
  | zero => exact fun hlt => absurd hlt (Nat.not_lt_zero _)
  | succ n ih =>
    intro v hlt hready hignore htame hcont
    have hl := hready.ldeep
    refine goes_piece hat.head fun w hw => ?_
    have hafter := hw.after
    have hbetween := hafter.toLike.between hready.between
    have hon := hafter.toLike.itefEnabled.trans hready.itefEnabled
    have hdeep : w.lpndx + 1 < N := by
      rw [hafter.toLike.lpndx]
      omega
    have hexe : w.executed = v.executed := by
      rw [hafter.executed, append_nil]
    cases hres : v.results with
    | nil =>
      rw [parse_head_blocked hbetween hdeep isUntil hon (hafter.results.trans hres)]
      rw [hres] at hcont
      exact .blocked (hcont _ (congrArg (· ++ [c]) hexe))
    | cons fail rs =>
      rw [parse_head hbetween hdeep isUntil hon (hafter.results.trans hres)]
      rw [hres] at hcont htame hlt
      rw [turnsTame] at htame
      rw [turns] at hcont
      refine .next (.inl rfl) rfl rfl rfl ?_
      generalize hl' : { headLoop w isUntil with enable := decide (fail = isUntil) } = l
      have hpush : After [c] rs (v.pushLp l) ({ w with
          jump := false, executed := w.executed ++ [c], results := rs, fail := false }.pushLp l) := by
        have hran : After [c] rs v { w with
            jump := false, executed := w.executed ++ [c], results := rs, fail := false } :=
          hafter.ran ⟨rfl, fun _ _ => rfl, rfl, fun _ _ => rfl, rfl⟩ rfl rfl
        exact ⟨hran.toLike.pushLp _, hran.executed, rfl⟩
      have hhead : l.state = .while_ ∨ l.state = .until_ := by
        rw [← hl']
        cases isUntil
        · exact .inl rfl
        · exact .inr rfl
      have hdo : { l with state := .do_ } = bodyLoop pc v.iendx (decide (fail = isUntil)) := by
        rw [← hl']
        unfold headLoop bodyLoop
        rw [hafter.toLike.iendx, hw.here]
      refine goes_do hat.tail.head hpush rfl hhead fun w2 hw2 => ?_
      rw [hdo] at hw2
      by_cases hmore : fail = isUntil
      · rw [if_pos hmore, Bool.and_eq_true] at htame
        rw [if_pos hmore] at hcont
        rw [decide_eq_true hmore] at hw2
        have hres2 := hw2.results
        refine hbody (hready.pushLp.like hw2.toLike) (hw2.toLike.ignore.trans hignore)
          (by rw [hres2]; exact htame.1) hrest.left ?_
        rw [hres2]
        refine cont_body hrest.right.head (runAll_ne_failed body htame.1) hw2 hcont ?_
        intro rs' hend w3 hw3 hk
        have hwithin := runAll_within ignore body rs
        rw [hend] at hwithin htame
        have hres3 := hw3.results
        refine ih ?_ (hready.like hw3.toLike) (hw3.toLike.ignore.trans hignore) ?_ ?_
        · rw [hres3]
          exact Nat.lt_of_le_of_lt hwithin (Nat.lt_of_succ_lt_succ hlt)
        · rw [hres3]
          exact htame.2
        · rw [hres3]
          exact hk
      · rw [if_neg hmore] at htame hcont
        rw [decide_eq_false hmore] at hw2
        refine skipAll_stopped body htame ((hready.stopped.mono hdbody).like hw2.toLike) hrest.left
          fun w3 hw3 => ?_
        exact goes_done_stop hrest.right.head (hw2.then_quiet hw3) rfl rfl rfl hcont

theorem follow_loop (hbody : Follows N file Q ignore (piecesAll body) (Ready N d true true false)
      (tameAll ignore true false body) (runAll ignore body)) (hdbody : depthAll body ≤ d) :
    Follows N file Q ignore (Stmt.loop isUntil c body l1 l2 l3).pieces
      (Ready N (d + 1) inLoop inBlock inIf)
      ((Stmt.loop isUntil c body l1 l2 l3).tame ignore inBlock inIf)
      ((Stmt.loop isUntil c body l1 l2 l3).run ignore) := by
  intro pc v hready hignore htame hat hcont
  have hlen : pc + (Stmt.loop isUntil c body l1 l2 l3).pieces.length =
      pc + 2 + (piecesAll body).length + 1 := by
    simp only [Stmt.pieces, length_cons, length_append, length_nil]
    omega
  rw [hlen] at hcont
  exact goes_turns hbody hdbody hat _ (Nat.lt_succ_self _) hready hignore htame hcont

end Loop

end Follow

end Gpmx.Nsh
