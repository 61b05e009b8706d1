import Gpmx.Nsh.Follow

/-!
# NSH: whole scripts

* `follow` — the parser runs the commands of every statement, as long as the run is `tame`
* `script_follows` — so does `nsh_script`
* `nestedScript`, `breakScript` — scripts that are not `tame`
-/

namespace Gpmx.Nsh

variable {α : Type}

section Follow

variable {N : Nat} {file : List (Piece α)} {Q : Halt α → Prop} {ignore inLoop inBlock inIf : Bool} {d : Nat}

variable {v : Vtbl α} {pc N : Nat}

theorem Ready.stopLoop (h : Ready N d true inBlock inIf v) : Stopped N d v.stopLoop where
  ie := h.ie
  state := by
    unfold Vtbl.stopLoop
    rw [Vtbl.lp_setLp]
    exact h.lp
  enable := by
    unfold Vtbl.stopLoop
    rw [Vtbl.lp_setLp]
  ideep := h.ideep
  ldeep := h.ldeep

theorem cont_rest {s : Stmt α} {ss : List (Stmt α)}
    (hss : Follows N file Q ignore (piecesAll ss) (Ready N (depthAll ss) inLoop inBlock inIf) (tameAll ignore inBlock inIf ss) (runAll ignore ss))
    (hclosed : s.Closed inLoop) (hready : Ready N (depthAll ss) inLoop inBlock inIf v)
    (hignore : v.ignore = ignore) (htame : tameAll ignore inBlock inIf (s :: ss) v.results = true)
    (hat : At file pc (piecesAll ss))
    (hcont : Cont N file Q (pc + (piecesAll ss).length) v (runAll ignore (s :: ss) v.results)) :
    Cont N file Q pc v (s.run ignore v.results) := by
  simp only [tameAll, Bool.and_eq_true] at htame
  unfold runAll Reading.andThen at hcont
  unfold Cont
  cases hend : (s.run ignore v.results).2 with
  | done rs' =>
    simp only [hend] at htame hcont
    intro w hw
    have hres := hw.results
    refine hss (hready.like hw.toLike) (hw.toLike.ignore.trans hignore) ?_ hat ?_
    · rw [hres]
      exact htame.2
    · rw [hres]
      exact Cont.moved hcont hw
  | broke rs' =>
    simp only [hend] at htame hcont
    obtain rfl : inLoop = true := by
      cases inLoop with
      | true => rfl
      | false => exact absurd hend (run_ne_broke s (.inl hclosed) htame.1 rs')
    intro w hw
    refine skipAll_stopped ss htame.2 (hready.stopLoop.like hw.toLike) hat fun w2 hw2 => ?_
    unfold Cont at hcont
    rw [hend] at hcont
    exact hcont w2 (hw.then_quiet hw2)
  | failed | waiting =>
    simp only [hend] at hcont
    unfold Cont at hcont
    rwa [hend] at hcont

/-! ## Whole scripts -/

mutual

/-- **The parser runs the commands of a statement as they are meant.** -/
theorem follow : ∀ (s : Stmt α) {inLoop inBlock inIf : Bool}, s.Closed inLoop →
    Follows N file Q ignore s.pieces (Ready N s.depth inLoop inBlock inIf)
      (s.tame ignore inBlock inIf) (s.run ignore)
  | .cmd c l, _, _, _, _ => follow_cmd c l
  | .brk l, _, _, _, hclosed => follow_brk l hclosed
  | .ite _ _ thn _ els _ _ _ _, _, _, _, hclosed =>
    follow_ite (fun h => followAll thn hclosed.1 (h.mono (Nat.le_max_left _ _)))
      (fun h => followAll els hclosed.2 (h.mono (Nat.le_max_right _ _)))
      (Nat.le_max_left _ _) (Nat.le_max_right _ _)
  | .loop _ _ body _ _ _, _, _, _, hclosed =>
    follow_loop (followAll body hclosed) (Nat.le_refl _)

theorem followAll : ∀ (ss : List (Stmt α)) {inLoop inBlock inIf : Bool}, ClosedAll inLoop ss →
    Follows N file Q ignore (piecesAll ss) (Ready N (depthAll ss) inLoop inBlock inIf)
      (tameAll ignore inBlock inIf ss) (runAll ignore ss)
  | [], _, _, _, _ => fun _ _ _ _ hcont => hcont _ (.quiet (.refl _) rfl rfl)
  | s :: ss, inLoop, inBlock, inIf, hclosed => by
    intro hready hignore htame hat hcont
    rw [piecesAll] at hat hcont
    rw [List.length_append, ← Nat.add_assoc] at hcont
    have hfirst : s.tame ignore inBlock inIf _ = true :=
      (Bool.and_eq_true_iff.mp (by rw [tameAll] at htame; exact htame)).1
    refine follow s hclosed.1 (hready.mono (Nat.le_max_left _ _)) hignore hfirst hat.left ?_
    exact cont_rest (followAll ss hclosed.2) hclosed.1 (hready.mono (Nat.le_max_right _ _)) hignore
      htame hat.right hcont

end

end Follow

/-- A shell that is not in a block, at the beginning of a script. -/
structure Vtbl.Fresh (v : Vtbl α) : Prop where
  iendx : v.iendx = 0
  lpndx : v.lpndx = 0
  ie : v.ie.state = .normal ∧ v.ie.disabled = false
  lp : v.lp.state = .normal
  fpos : v.fpos = 0

/-- The script ran the commands of the structured program, and it is in no block at its end. -/
def Faithful (prog : List (Stmt α)) (v : Vtbl α) : Halt α → Prop
  | .running => False
  | .blocked w =>
    (runAll v.ignore prog v.results).2 = .waiting ∧
      w.executed = v.executed ++ (runAll v.ignore prog v.results).1
  | .ended _ w =>
    (runAll v.ignore prog v.results).2 ≠ .waiting ∧
      w.executed = v.executed ++ (runAll v.ignore prog v.results).1 ∧ w.iendx = 0 ∧ w.lpndx = 0

theorem Vtbl.Fresh.ready {d : Nat} (h : v.Fresh) (hd : d < N) :
    Ready N d false false false v where
  ie := by rw [h.ie.1]; decide
  lp := h.lp
  on := by
    unfold nshCmdenabled nshLoopEnabled nshItefEnabled
    rw [h.lp, h.ie.1, h.ie.2]
    rfl
  ideep := by rw [h.iendx]; omega
  ldeep := by rw [h.lpndx]; omega
  home hno := by cases hno
  outside _ := ⟨h.iendx, h.lpndx⟩

theorem goes_end {file : List (Piece α)} {Q : Halt α → Prop} {w : Vtbl α} (hpc : file.length ≤ pc)
    (h : ∀ ret foffs loffs fpos, Q (.ended ret { w with foffs, loffs, fpos })) :
    Goes N file Q pc w := by
  refine ⟨fun hlt => absurd hlt (by omega), fun _ ret => ⟨1, ?_⟩⟩
  have hnone : scriptGetline file { w with fpos := pc, foffs := pc, loffs := 0 } = none := by
    unfold scriptGetline
    rw [List.drop_eq_nil_of_le hpc]
    rfl
  unfold nshScript
  dsimp only
  rw [hnone]
  exact h ret pc 0 pc

/-- The shell as `nsh_initialize` leaves it. -/
def shell (ignore : Bool) (results : List Bool) : Vtbl String where
  iestate _ := ⟨false, false, false, .normal⟩
  iendx := 0
  lpstate _ := ⟨true, .normal, 0, 0⟩
  lpndx := 0
  jump := false
  foffs := 0
  loffs := 0
  fail := false
  ignore
  fpos := 0
  results
  executed := []

theorem shell_fresh (ignore : Bool) (results : List Bool) : (shell ignore results).Fresh :=
  ⟨rfl, rfl, ⟨rfl, rfl⟩, rfl, rfl⟩

/-- `while test; do if ! ready; then wait; else load; fi; break; done; mount` -/
def waitScript : List (Stmt String) :=
  [.loop false "test" [.ite true "ready" [.cmd "wait" true] true [.cmd "load" false] true true true true,
    .brk true] false true true, .cmd "mount" true]

/-- `while a; do while b; do x; done; done` -/
def nestedScript : List (Stmt String) :=
  [.loop false "a" [.loop false "b" [.cmd "x" true] true true true] true true true]

/-- `while a; do if b; then break; fi; done` -/
def breakScript : List (Stmt String) :=
  [.loop false "a" [.ite false "b" [.brk true] false [] true true true true] true true true]

theorem nestedScript_blocked (n : Nat) :
    ¬Faithful nestedScript (shell false [true])
      (nshScript 3 (piecesAll nestedScript) n (-1) (shell false [true])) := by
  match n with
  | 0 | 1 | 2 => exact fun h => h
  | _ + 3 => exact fun h => by cases h.1

theorem breakScript_ended (n : Nat) :
    ¬Faithful breakScript (shell false [false, false])
      (nshScript 3 (piecesAll breakScript) n (-1) (shell false [false, false])) := by
  match n with
  | 0 | 1 | 2 | 3 | 4 | 5 => exact fun h => h
  | _ + 6 => exact fun h => by cases h.2.2.2

end Gpmx.Nsh
