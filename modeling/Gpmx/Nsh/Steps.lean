import Gpmx.Nsh.Parser
import Mathlib

/-!
# NSH: one piece after the other

What `nsh_parse_command` does with each kind of piece, and `Goes`: from a piece on, the script comes
to a certain end. The rules of `Goes` follow the text from its end to its beginning, so the lines into
which it is divided do not matter any more.
-/

namespace Gpmx.Nsh

variable {α : Type}

namespace Vtbl

def pushIe (ie : Itef) (v : Vtbl α) : Vtbl α := { v with iendx := v.iendx + 1 }.setIe ie

def popIe (v : Vtbl α) : Vtbl α := { v with iendx := v.iendx - 1 }

def pushLp (lp : Loop) (v : Vtbl α) : Vtbl α := { v with lpndx := v.lpndx + 1 }.setLp lp

def popLp (v : Vtbl α) : Vtbl α := { v with lpndx := v.lpndx - 1 }

def stopLoop (v : Vtbl α) : Vtbl α := v.setLp { v.lp with enable := false }

@[simp] theorem ie_setIe (v : Vtbl α) (ie : Itef) : (v.setIe ie).ie = ie := by
  simp [setIe, Vtbl.ie]

@[simp] theorem lp_setIe (v : Vtbl α) (ie : Itef) : (v.setIe ie).lp = v.lp := rfl

@[simp] theorem lp_setLp (v : Vtbl α) (lp : Loop) : (v.setLp lp).lp = lp := by
  simp [setLp, Vtbl.lp]

@[simp] theorem ie_setLp (v : Vtbl α) (lp : Loop) : (v.setLp lp).ie = v.ie := rfl

@[simp] theorem ie_pushIe (v : Vtbl α) (ie : Itef) : (v.pushIe ie).ie = ie := ie_setIe _ _

@[simp] theorem lp_pushIe (v : Vtbl α) (ie : Itef) : (v.pushIe ie).lp = v.lp := rfl

@[simp] theorem lp_pushLp (v : Vtbl α) (lp : Loop) : (v.pushLp lp).lp = lp := lp_setLp _ _

@[simp] theorem ie_pushLp (v : Vtbl α) (lp : Loop) : (v.pushLp lp).ie = v.ie := rfl

end Vtbl

/-! ## The pieces -/

/-- The parser is not in front of `then` or `do`. -/
structure Between (v : Vtbl α) : Prop where
  ie : v.ie.state ≠ .if_
  lp : v.lp.state ≠ .while_ ∧ v.lp.state ≠ .until_

section Pieces

variable {N : Nat} {w : Vtbl α} {c : α}

theorem Between.not_waiting (h : Between w) : ¬(w.lp.state = .while_ ∨ w.lp.state = .until_) := by
  rintro (hw | hu)
  · exact h.lp.1 hw
  · exact h.lp.2 hu

theorem saveresult_between (h : Between w) (result : Bool) :
    nshSaveresult w result = (if result then -1 else 0, { w with fail := result }) := by
  unfold nshSaveresult
  rw [if_neg h.lp.1, if_neg h.lp.2, if_neg h.ie]

theorem saveresult_if (hlp : w.lp.state ≠ .while_ ∧ w.lp.state ≠ .until_) (hif : w.ie.state = .if_)
    (result : Bool) : nshSaveresult w result =
      (0, { w with fail := false }.setIe { w.ie with ifcond := w.ie.inverted ^^ result }) := by
  unfold nshSaveresult
  rw [if_neg hlp.1, if_neg hlp.2, if_pos hif]

theorem saveresult_head {isUntil : Bool}
    (hhead : w.lp.state = if isUntil then .until_ else .while_) (result : Bool) :
    nshSaveresult w result =
      (0, { w with fail := false }.setLp { w.lp with enable := result = isUntil }) := by
  unfold nshSaveresult
  rw [hhead]
  cases isUntil <;> cases result <;> rfl

theorem parse_cmd_off (h : Between w) (hoff : nshCmdenabled w = false) :
    nshParseCommand N (.cmd c) w = .ok (0, w) := by
  simp [nshParseCommand, nshLoop, nshItef, h.not_waiting, h.ie, hoff]

theorem parse_brk_off (h : Between w) (hoff : nshCmdenabled w = false) :
    nshParseCommand N .brk w = .ok (0, w) := by
  simp [nshParseCommand, nshLoop, nshItef, h.not_waiting, h.ie, hoff]

theorem parse_cmd_blocked (h : Between w) (hon : nshCmdenabled w = true) (hres : w.results = []) :
    nshParseCommand N (.cmd c) w = .error { w with executed := w.executed ++ [c] } := by
  simp [nshParseCommand, nshLoop, nshItef, nshExecute, h.not_waiting, h.ie, hon, hres]

variable {fail : Bool} {rs : List Bool}

theorem parse_cmd (h : Between w) (hon : nshCmdenabled w = true) (hres : w.results = fail :: rs) :
    nshParseCommand N (.cmd c) w =
      .ok (if fail then -1 else 0,
        { w with executed := w.executed ++ [c], results := rs, fail }) := by
  have hsave := saveresult_between
    (w := { w with executed := w.executed ++ [c], results := rs }) ⟨h.ie, h.lp⟩ fail
  simp [nshParseCommand, nshLoop, nshItef, nshExecute, h.not_waiting, h.ie, hon, hres, hsave]

theorem parse_brk (h : Between w) (hon : nshCmdenabled w = true) (hdo : w.lp.state = .do_)
    (hhome : w.lp.iendx = w.iendx) :
    nshParseCommand N .brk w = .ok (0, { w.stopLoop with fail := false }) := by
  have hbreak : cmdBreak w = w.stopLoop := by
    unfold cmdBreak Vtbl.stopLoop
    rw [if_pos hdo, hhome]
  have hbetween : Between w.stopLoop := ⟨h.ie, by simpa [Vtbl.stopLoop] using h.lp⟩
  have hsave := saveresult_between hbetween false
  simp [nshParseCommand, nshLoop, nshItef, nshExecute, h.not_waiting, h.ie, hon, hbreak, hsave]

/-- The state in which the condition of an `if` is looked at. -/
def ifItef (w : Vtbl α) (inverted : Bool) : Itef :=
  { state := .if_, disabled := !nshCmdenabled w, ifcond := false, inverted }

theorem loop_if (h : Between w) (inverted : Bool) :
    nshLoop N (some (.if_ inverted c)) w = (0, some (.if_ inverted c), w) := by
  simp [nshLoop, h.not_waiting]

theorem itef_if (h : Between w) (hdeep : w.iendx + 1 < N) (inverted : Bool) :
    nshItef N (some (.if_ inverted c)) w = (0, some (.cmd c), w.pushIe (ifItef w inverted)) := by
  have hnot : ¬w.iendx ≥ N - 1 := by omega
  simp only [nshItef, h.ie, hnot, if_false]
  rfl

theorem parse_if_off (h : Between w) (hdeep : w.iendx + 1 < N) (hoff : nshCmdenabled w = false)
    (inverted : Bool) :
    nshParseCommand N (.if_ inverted c) w = .ok (0, w.pushIe (ifItef w inverted)) := by
  have hstill : nshCmdenabled (w.pushIe (ifItef w inverted)) = false := by
    unfold nshCmdenabled
    simp [nshItefEnabled, ifItef, hoff]
  simp [nshParseCommand, loop_if h, itef_if h hdeep, hstill]

theorem cmdenabled_if (hon : nshCmdenabled w = true) (inverted : Bool) :
    nshCmdenabled (w.pushIe (ifItef w inverted)) = true := by
  have hloop : nshLoopEnabled w = true := by
    exact (Bool.and_eq_true_iff.mp hon).1
  have hsame : nshLoopEnabled (w.pushIe (ifItef w inverted)) = nshLoopEnabled w := rfl
  unfold nshCmdenabled
  rw [hsame, hloop]
  simp [nshItefEnabled, ifItef, hon]

theorem parse_if_blocked (h : Between w) (hdeep : w.iendx + 1 < N) (hon : nshCmdenabled w = true)
    (inverted : Bool) (hres : w.results = []) : nshParseCommand N (.if_ inverted c) w =
      .error { w.pushIe (ifItef w inverted) with executed := w.executed ++ [c] } := by
  have hres' : (w.pushIe (ifItef w inverted)).results = [] := hres
  simp [nshParseCommand, loop_if h, itef_if h hdeep, cmdenabled_if hon, nshExecute, hres']
  rfl

/-- The condition of an `if` has been looked at. -/
def decided (w : Vtbl α) (inverted fail : Bool) : Itef :=
  { ifItef w inverted with ifcond := inverted ^^ fail }

theorem parse_if (h : Between w) (hdeep : w.iendx + 1 < N) (hon : nshCmdenabled w = true)
    (inverted : Bool) (hres : w.results = fail :: rs) :
    nshParseCommand N (.if_ inverted c) w =
      .ok (0, { w with executed := w.executed ++ [c], results := rs, fail := false }.pushIe
        (decided w inverted fail)) := by
  have hres' : (w.pushIe (ifItef w inverted)).results = fail :: rs := hres
  have hsave := saveresult_if
    (w := { w.pushIe (ifItef w inverted) with executed := w.executed ++ [c], results := rs }) h.lp
    (by show (w.pushIe (ifItef w inverted)).ie.state = _; rw [Vtbl.ie_pushIe]; rfl) fail
  simp only [nshParseCommand, loop_if h, itef_if h hdeep, cmdenabled_if hon, nshExecute, hres',
    ne_eq, not_true_eq_false, if_false, if_true]
  refine (congrArg Except.ok hsave).trans ?_
  simp [Vtbl.pushIe, Vtbl.setIe, Vtbl.ie, decided, ifItef]

theorem parse_then (hif : w.ie.state = .if_) (hlp : w.lp.state ≠ .while_ ∧ w.lp.state ≠ .until_) :
    nshParseCommand N .then_ w = .ok (0, w.setIe { w.ie with state := .then_ }) := by
  simp [nshParseCommand, nshLoop, nshItef, hif, hlp.1, hlp.2]

theorem parse_else (hthen : w.ie.state = .then_) (h : Between w) :
    nshParseCommand N .else_ w = .ok (0, w.setIe { w.ie with state := .else_ }) := by
  simp [nshParseCommand, nshLoop, nshItef, hthen, h.not_waiting]

theorem parse_fi (hbranch : w.ie.state = .then_ ∨ w.ie.state = .else_) (h : Between w)
    (hpos : 0 < w.iendx) : nshParseCommand N .fi w = .ok (0, w.popIe) := by
  have hnot : ¬(w.ie.state ≠ .then_ ∧ w.ie.state ≠ .else_) := by tauto
  have hzero : ¬w.iendx < 1 := by omega
  simp only [nshParseCommand, nshLoop, h.not_waiting, if_false, nshItef, hnot, hzero, ne_eq,
    not_true_eq_false]
  rfl

def headLoop (w : Vtbl α) (isUntil : Bool) : Loop :=
  { enable := nshCmdenabled w, state := if isUntil then .until_ else .while_, iendx := w.iendx
    topoffs := w.foffs + w.loffs }

abbrev Vtbl.atHead (w : Vtbl α) (isUntil : Bool) : Vtbl α :=
  { w with jump := false }.pushLp (headLoop w isUntil)

theorem loop_head (h : Between w) (hdeep : w.lpndx + 1 < N) (isUntil : Bool) :
    nshLoop N (some (loopHead isUntil c)) w = (0, some (.cmd c), w.atHead isUntil) := by
  have hnot : ¬w.lpndx ≥ N - 1 := by omega
  have hctx : ¬(w.ie.state = .if_ ∨ w.lp.state = .while_ ∨ w.lp.state = .until_) := by
    rintro (hi | hl)
    · exact h.ie hi
    · exact h.not_waiting hl
  cases isUntil with
  | false =>
    simp only [loopHead, nshLoop, pushLoop, hctx, hnot, if_false, Bool.false_eq_true]
    rfl
  | true =>
    simp only [loopHead, nshLoop, pushLoop, hctx, hnot, if_false, if_true]
    rfl

theorem itef_head (h : Between w) (isUntil : Bool) :
    nshItef N (some (.cmd c)) (w.atHead isUntil) = (0, some (.cmd c), w.atHead isUntil) := by
  have hie : (w.atHead isUntil).ie = w.ie := rfl
  simp only [nshItef, hie, h.ie, if_false]

theorem cmdenabled_head (isUntil : Bool) : nshCmdenabled (w.atHead isUntil) = nshItefEnabled w := by
  have hitef : nshItefEnabled (w.atHead isUntil) = nshItefEnabled w := rfl
  have hloop : nshLoopEnabled (w.atHead isUntil) = true := by
    unfold nshLoopEnabled
    rw [Vtbl.lp_pushLp]
    cases isUntil <;> rfl
  unfold nshCmdenabled
  rw [hitef, hloop, Bool.true_and]

theorem parse_head_off (h : Between w) (hdeep : w.lpndx + 1 < N) (isUntil : Bool)
    (hoff : nshItefEnabled w = false) :
    nshParseCommand N (loopHead isUntil c) w = .ok (0, w.atHead isUntil) := by
  simp [nshParseCommand, loop_head h hdeep, itef_head h, cmdenabled_head, hoff]

theorem parse_head_blocked (h : Between w) (hdeep : w.lpndx + 1 < N) (isUntil : Bool)
    (hon : nshItefEnabled w = true) (hres : w.results = []) :
    nshParseCommand N (loopHead isUntil c) w =
      .error { w.atHead isUntil with executed := w.executed ++ [c] } := by
  have hres' : (w.atHead isUntil).results = [] := hres
  simp only [nshParseCommand, loop_head h hdeep, itef_head h, cmdenabled_head, hon, nshExecute,
    ne_eq, not_true_eq_false, if_false, if_true, hres']
  rfl

theorem parse_head (h : Between w) (hdeep : w.lpndx + 1 < N) (isUntil : Bool)
    (hon : nshItefEnabled w = true) (hres : w.results = fail :: rs) :
    nshParseCommand N (loopHead isUntil c) w =
      .ok (0, { w with
        jump := false, executed := w.executed ++ [c], results := rs, fail := false }.pushLp
          { headLoop w isUntil with enable := fail = isUntil }) := by
  have hres' : (w.atHead isUntil).results = fail :: rs := hres
  have hsave := saveresult_head
    (w := { w.atHead isUntil with executed := w.executed ++ [c], results := rs })
    (by show (w.atHead isUntil).lp.state = _
        rw [Vtbl.lp_pushLp]; rfl) fail
  simp only [nshParseCommand, loop_head h hdeep, itef_head h, cmdenabled_head, hon, nshExecute,
    ne_eq, not_true_eq_false, if_false, if_true, hres']
  refine (congrArg Except.ok hsave).trans ?_
  simp [Vtbl.pushLp, Vtbl.setLp, Vtbl.lp, headLoop]

theorem parse_do (hhead : w.lp.state = .while_ ∨ w.lp.state = .until_) :
    nshParseCommand N .do_ w = .ok (0, w.setLp { w.lp with state := .do_ }) := by
  have hnot : ¬(w.lp.state ≠ .while_ ∧ w.lp.state ≠ .until_) := by tauto
  simp [nshParseCommand, nshLoop, nshItef, hnot]

theorem parse_done_stop (hdo : w.lp.state = .do_) (hpos : 0 < w.lpndx) (hend : w.lp.enable = false) :
    ∃ lp, nshParseCommand N .done_ w = .ok (0, (w.setLp lp).popLp) := by
  have hzero : ¬w.lpndx < 1 := by omega
  refine ⟨{ w.lp with enable := true, state := .normal }, ?_⟩
  simp only [nshParseCommand, nshLoop, nshItef, hdo, hzero, hend, ne_eq, not_true_eq_false, if_false,
    Bool.false_eq_true]
  simp [Vtbl.setLp, Vtbl.popLp, Vtbl.lp]

theorem parse_done_jump (hdo : w.lp.state = .do_) (hpos : 0 < w.lpndx) (hmore : w.lp.enable = true) :
    ∃ lp, nshParseCommand N .done_ w =
      .ok (0, ({ w with fpos := w.lp.topoffs, jump := true }.setLp lp).popLp) := by
  have hzero : ¬w.lpndx < 1 := by omega
  refine ⟨{ w.lp with state := .normal }, ?_⟩
  unfold nshParseCommand nshLoop
  rw [if_neg (not_not.mpr hdo), if_neg hzero, if_pos hmore]
  rfl

end Pieces

/-! ## From a piece on -/

section Goes

variable (N : Nat) (file : List (Piece α)) (Q : Halt α → Prop)

/-- What `nsh_script` does behind `nsh_parse`. -/
def finish (n : Nat) : Except (Vtbl α) (Int × Vtbl α) → Halt α
  | .error v => .blocked v
  | .ok (ret, v) => if ret = 0 ∨ v.ignore then nshScript N file n ret v else .ended ret v

/-- The rest of the line that began at `f`, from the piece at `pc` on, and all that follows. -/
def restOf (n f pc : Nat) (v : Vtbl α) : Halt α :=
  finish N file n (nshParse N (takeLine (file.drop pc)) (pc - f)
    { v with foffs := f, fpos := pc + (takeLine (file.drop pc)).length, jump := false })

/-- From the piece at `pc` on, the script comes to an end with `Q`. -/
structure Goes (pc : Nat) (v : Vtbl α) : Prop where
  piece : pc < file.length → ∀ f ≤ pc, ∃ n, Q (restOf N file n f pc v)
  past : file.length ≤ pc → ∀ ret, ∃ n, Q (nshScript N file n ret { v with fpos := pc })

end Goes

section Rules

variable {N : Nat} {file : List (Piece α)} {Q : Halt α → Prop} {pc : Nat} {v : Vtbl α} {p : Piece α}

theorem takeLine_cons (p : Piece α) (ps : List (Piece α)) :
    takeLine (p :: ps) = if p.last then [p] else p :: takeLine ps := rfl

theorem takeLine_ne_nil {ps : List (Piece α)} (h : ps ≠ []) : takeLine ps ≠ [] := by
  cases ps with
  | nil => exact absurd rfl h
  | cons p ps =>
    rw [takeLine_cons]
    split <;> simp

theorem nshParse_loffs {line : List (Piece α)} (hne : line ≠ []) (k x : Nat) :
    nshParse N line k { v with loffs := x } = nshParse N line k v := by
  cases line with
  | nil => exact absurd rfl hne
  | cons p line => cases line <;> rfl

theorem Goes.line (h : Goes N file Q v.fpos v) (ret : Int) : ∃ n, Q (nshScript N file n ret v) := by
  by_cases hlt : v.fpos < file.length
  · obtain ⟨n, hn⟩ := h.piece hlt v.fpos (Nat.le_refl _)
    refine ⟨n + 1, ?_⟩
    have hne : takeLine (file.drop v.fpos) ≠ [] := takeLine_ne_nil (by simpa using hlt)
    have hget : scriptGetline file { v with foffs := v.fpos, loffs := 0 } =
        some (takeLine (file.drop v.fpos)) := by
      unfold scriptGetline
      split
      · exact absurd ‹_› hne
      · rfl
    have hscript : nshScript N file (n + 1) ret v = restOf N file n v.fpos v.fpos v := by
      unfold restOf nshScript
      rw [Nat.sub_self, ← nshParse_loffs hne 0 0]
      simp only [hget]
      generalize nshParse N (takeLine (file.drop v.fpos)) 0 _ = r
      cases r <;> rfl
    rw [hscript]
    exact hn
  · exact h.past (Nat.le_of_not_lt hlt) ret

structure Booked (pc : Nat) (v w : Vtbl α) : Prop where
  eq : w = { v with foffs := w.foffs, loffs := w.loffs, fpos := w.fpos, jump := false }
  here : w.foffs + w.loffs = pc

inductive Leads (N : Nat) (file : List (Piece α)) (Q : Halt α → Prop) (pc : Nat) (p : Piece α)
    (w : Vtbl α) : Except (Vtbl α) (Int × Vtbl α) → Prop
  | next {ret : Int} {w' : Vtbl α} (hret : ret = 0 ∨ w'.ignore = true ∧ p.last = true)
      (hjump : w'.jump = false) (hfoffs : w'.foffs = w.foffs) (hfpos : w'.fpos = w.fpos)
      (h : Goes N file Q (pc + 1) w') : Leads N file Q pc p w (.ok (ret, w'))
  | jump {w' : Vtbl α} (hjump : w'.jump = true) (h : Goes N file Q w'.fpos w') :
      Leads N file Q pc p w (.ok (0, w'))
  | ended {ret : Int} {w' : Vtbl α} (hret : ret ≠ 0) (hstop : w'.ignore = false)
      (h : Q (.ended ret w')) : Leads N file Q pc p w (.ok (ret, w'))
  | blocked {w' : Vtbl α} (h : Q (.blocked w')) : Leads N file Q pc p w (.error w')

theorem Leads.finish {w : Vtbl α} {r : Except (Vtbl α) (Int × Vtbl α)}
    (h : Leads N file Q pc p w r) (hfpos : w.fpos = pc + 1) : ∃ n, Q (Nsh.finish N file n r) := by
  cases h with
  | next hret _ _ hsame h =>
    rw [← hsame.trans hfpos] at h
    obtain ⟨n, hn⟩ := h.line _
    refine ⟨n, ?_⟩
    unfold Nsh.finish
    dsimp only
    rw [if_pos (hret.imp_right And.left)]
    exact hn
  | jump _ h =>
    obtain ⟨n, hn⟩ := h.line 0
    refine ⟨n, ?_⟩
    unfold Nsh.finish
    dsimp only
    rw [if_pos (.inl rfl)]
    exact hn
  | ended hret hstop h =>
    refine ⟨0, ?_⟩
    unfold Nsh.finish
    dsimp only
    rw [if_neg (by simp [hret, hstop])]
    exact h
  | blocked h => exact ⟨0, h⟩

/-- **The rule for a piece.** -/
theorem goes_piece (hp : file[pc]? = some p)
    (h : ∀ w, Booked pc v w → Leads N file Q pc p w (nshParseCommand N p.token w)) :
    Goes N file Q pc v := by
  have hlt : pc < file.length := (List.getElem?_eq_some_iff.mp hp).1
  have hdrop : file.drop pc = p :: file.drop (pc + 1) := by
    rw [List.drop_eq_getElem_cons hlt]
    rw [(List.getElem?_eq_some_iff.mp hp).2]
  refine ⟨?_, fun hle => absurd hlt (by omega)⟩
  intro _ f hf
  by_cases hlast : takeLine (file.drop pc) = [p]
  · -- the piece ends the line
    unfold restOf
    rw [hlast]
    exact (h { v with foffs := f, loffs := pc - f, fpos := pc + 1, jump := false }
      ⟨rfl, by dsimp only; omega⟩).finish rfl
  · have hmore : takeLine (file.drop pc) = p :: takeLine (file.drop (pc + 1)) ∧ p.last = false ∧
        takeLine (file.drop (pc + 1)) ≠ [] := by
      rw [hdrop, takeLine_cons] at hlast ⊢
      cases hl : p.last with
      | true => simp [hl] at hlast
      | false =>
        refine ⟨rfl, rfl, ?_⟩
        intro hnil
        simp [hl, hnil] at hlast
    obtain ⟨hline, hnot, hne⟩ := hmore
    unfold restOf
    rw [hline]
    obtain ⟨q, rest, hrest⟩ := List.exists_cons_of_ne_nil hne
    have hleads := h { v with foffs := f, loffs := pc - f, jump := false
                              fpos := pc + (p :: takeLine (file.drop (pc + 1))).length }
      ⟨rfl, by dsimp only; omega⟩
    rw [hrest] at hleads ⊢
    rw [nshParse]
    · dsimp only at hleads ⊢
      generalize nshParseCommand N p.token _ = r at hleads
      cases hleads with
      | next hret hjump hfoffs hfpos hgo =>
        rename_i ret w'
        obtain rfl : ret = 0 := by
          rcases hret with hret | ⟨-, hl⟩
          · exact hret
          · rw [hnot] at hl
            cases hl
        have hlt' : pc + 1 < file.length := by
          by_contra hge
          rw [List.drop_eq_nil_of_le (by omega)] at hne
          exact hne rfl
        obtain ⟨n, hn⟩ := hgo.piece hlt' f (by omega)
        refine ⟨n, ?_⟩
        unfold restOf at hn
        have hself : { w' with
            foffs := f, fpos := pc + 1 + (takeLine (file.drop (pc + 1))).length, jump := false } = w' := by
          have h1 : w'.fpos = pc + 1 + (takeLine (file.drop (pc + 1))).length := by
            rw [hfpos, hrest]
            simp only [List.length_cons]
            omega
          have h2 : w'.foffs = f := hfoffs
          rw [← h1, ← h2, ← hjump]
        rw [hself, hrest, show pc + 1 - f = pc - f + 1 by omega] at hn
        simp only [ne_eq, not_true_eq_false, if_false, hjump, Bool.false_eq_true]
        exact hn
      | jump hjump hgo =>
        obtain ⟨n, hn⟩ := hgo.line 0
        refine ⟨n, ?_⟩
        simp only [ne_eq, not_true_eq_false, if_false, hjump, if_true]
        unfold finish
        dsimp only
        rw [if_pos (.inl rfl)]
        exact hn
      | ended hret hstop hq =>
        refine ⟨0, ?_⟩
        dsimp only
        rw [if_pos hret]
        unfold finish
        dsimp only
        rw [if_neg (by simp [hret, hstop])]
        exact hq
      | blocked hq => exact ⟨0, hq⟩
    · simp

end Rules

end Gpmx.Nsh
