import Mathlib

/-!
# NSH: blocks in a script

`nsh_loop`, `nsh_itef`, `nsh_saveresult`, `nsh_parse_command`, `nsh_parse` and `cmd_break` of
`gpm/modules/nshlib/nsh_parse.c`, and `nsh_script` of `nsh_script.c`.

A script is the list of its pieces: a command or a keyword, ended by `;` or by the line. An offset
into the file is the number of pieces in front of it. Commands have no quotation marks, no `#` and do
not run in the background. What the commands return is given beforehand; where nothing is left, the
shell is blocked in the command.
-/

namespace Gpmx.Nsh

/-- `enum nsh_itef_e` -/
inductive ItefState where
  | normal
  | if_
  | then_
  | else_
  deriving DecidableEq

/-- `enum nsh_lp_e` -/
inductive LoopState where
  | normal
  | while_
  | until_
  | do_
  deriving DecidableEq

/-- `struct nsh_itef_s` -/
structure Itef where
  ifcond : Bool
  disabled : Bool
  inverted : Bool
  state : ItefState
  deriving DecidableEq

/-- `struct nsh_loop_s` -/
structure Loop where
  enable : Bool
  state : LoopState
  iendx : Nat
  topoffs : Nat
  deriving DecidableEq

inductive Token (α : Type) where
  | cmd (c : α)
  | brk
  | if_ (inverted : Bool) (c : α)
  | then_
  | else_
  | fi
  | while_ (c : α)
  | until_ (c : α)
  | do_
  | done_
  deriving DecidableEq

structure Piece (α : Type) where
  token : Token α
  last : Bool
  deriving DecidableEq

/--
`struct nsh_parser_s` and what is around it: the position in the file, the results that commands will
have (`true` is a failure), and the commands that were run.
-/
structure Vtbl (α : Type) where
  iestate : Nat → Itef
  iendx : Nat
  lpstate : Nat → Loop
  lpndx : Nat
  jump : Bool
  foffs : Nat
  loffs : Nat
  fail : Bool
  /-- `NSH_PFLAG_IGNORE` -/
  ignore : Bool
  fpos : Nat
  results : List Bool
  executed : List α

variable {α : Type}

namespace Vtbl

/-- The innermost `if`. -/
def ie (v : Vtbl α) : Itef := v.iestate v.iendx

def lp (v : Vtbl α) : Loop := v.lpstate v.lpndx

def setIe (v : Vtbl α) (ie : Itef) : Vtbl α :=
  { v with iestate := Function.update v.iestate v.iendx ie }

def setLp (v : Vtbl α) (lp : Loop) : Vtbl α :=
  { v with lpstate := Function.update v.lpstate v.lpndx lp }

end Vtbl

def nshLoopEnabled (v : Vtbl α) : Bool := if v.lp.state = .do_ then v.lp.enable else true

def nshItefEnabled (v : Vtbl α) : Bool :=
  if v.ie.disabled then false
  else
    match v.ie.state with
    | .then_ => !v.ie.ifcond
    | .else_ => v.ie.ifcond
    | _ => true

def nshCmdenabled (v : Vtbl α) : Bool := nshLoopEnabled v && nshItefEnabled v

def nshSaveresult (v : Vtbl α) (result : Bool) : Int × Vtbl α :=
  if v.lp.state = .while_ then
    (0, { v with fail := false }.setLp { v.lp with enable := !result })
  else if v.lp.state = .until_ then
    (0, { v with fail := false }.setLp { v.lp with enable := result })
  else if v.ie.state = .if_ then
    (0, { v with fail := false }.setIe { v.ie with ifcond := v.ie.inverted ^^ result })
  else (if result then -1 else 0, { v with fail := result })

/-- `errout` of `nsh_loop` -/
def loopErrout (v : Vtbl α) : Vtbl α :=
  { v with
    jump := false
    lpndx := 0
    lpstate := Function.update v.lpstate 0
      { v.lpstate 0 with state := .normal, enable := true, topoffs := 0 } }

/-- `while` and `until`: the new state on top of the old ones. -/
def pushLoop (nestdepth : Nat) (state : LoopState) (c : α) (v : Vtbl α) :
    Int × Option (Token α) × Vtbl α :=
  if v.ie.state = .if_ ∨ v.lp.state = .while_ ∨ v.lp.state = .until_ then
    (-1, some (.cmd c), loopErrout v)
  else if v.lpndx ≥ nestdepth - 1 then (-1, some (.cmd c), loopErrout v)
  else
    (0, some (.cmd c),
      { v with jump := false, lpndx := v.lpndx + 1 }.setLp
        { enable := nshCmdenabled v, state, iendx := v.iendx, topoffs := v.foffs + v.loffs })

/-- `nsh_loop`; the command that is left over is `*ppcmd`. -/
def nshLoop (nestdepth : Nat) (cmd : Option (Token α)) (v : Vtbl α) :
    Int × Option (Token α) × Vtbl α :=
  match cmd with
  | none => (0, none, v)
  | some (.while_ c) => pushLoop nestdepth .while_ c v
  | some (.until_ c) => pushLoop nestdepth .until_ c v
  | some .do_ =>
    if v.lp.state ≠ .while_ ∧ v.lp.state ≠ .until_ then (-1, none, loopErrout v)
    else (0, none, v.setLp { v.lp with state := .do_ })
  | some .done_ =>
    if v.lp.state ≠ .do_ then (-1, none, loopErrout v)
    else if v.lpndx < 1 then (-1, none, loopErrout v)
    else
      let v :=
        if v.lp.enable then { v with fpos := v.lp.topoffs, jump := true }
        else v.setLp { v.lp with enable := true }
      (0, none, { v.setLp { v.lp with state := .normal } with lpndx := v.lpndx - 1 })
  | some cmd =>
    -- nothing but `do` may follow the condition of a loop
    if v.lp.state = .while_ ∨ v.lp.state = .until_ then (-1, some cmd, loopErrout v)
    else (0, some cmd, v)

/-- `errout` of `nsh_itef` -/
def itefErrout (v : Vtbl α) : Vtbl α :=
  { v with
    iendx := 0
    iestate := Function.update v.iestate 0
      { state := .normal, disabled := false, ifcond := false, inverted := false } }

def nshItef (nestdepth : Nat) (cmd : Option (Token α)) (v : Vtbl α) :
    Int × Option (Token α) × Vtbl α :=
  match cmd with
  | none => (0, none, v)
  | some (.if_ inverted c) =>
    if v.ie.state = .if_ then (-1, some (.cmd c), itefErrout v)
    else if v.iendx ≥ nestdepth - 1 then (-1, some (.cmd c), itefErrout v)
    else
      (0, some (.cmd c),
        { v with iendx := v.iendx + 1 }.setIe
          { state := .if_, disabled := !nshCmdenabled v, ifcond := false, inverted })
  | some .then_ =>
    if v.ie.state ≠ .if_ then (-1, none, itefErrout v)
    else (0, none, v.setIe { v.ie with state := .then_ })
  | some .else_ =>
    if v.ie.state ≠ .then_ then (-1, none, itefErrout v)
    else (0, none, v.setIe { v.ie with state := .else_ })
  | some .fi =>
    if v.ie.state ≠ .then_ ∧ v.ie.state ≠ .else_ then (-1, none, itefErrout v)
    else if v.iendx < 1 then (-1, none, itefErrout v)
    else (0, none, { v with iendx := v.iendx - 1 })
  | some cmd =>
    if v.ie.state = .if_ then (-1, some cmd, itefErrout v) else (0, some cmd, v)

def cmdBreak (v : Vtbl α) : Vtbl α :=
  if v.lp.state = .do_ then { v with iendx := v.lp.iendx }.setLp { v.lp with enable := false } else v

/-- `nsh_execute`; the error is the state in which the shell is blocked in the command. -/
def nshExecute (cmd : Token α) (v : Vtbl α) : Except (Vtbl α) (Int × Vtbl α) :=
  match cmd with
  | .cmd c =>
    let v := { v with executed := v.executed ++ [c] }
    match v.results with
    | [] => .error v
    | result :: results => .ok (nshSaveresult { v with results } result)
  | _ => .ok (nshSaveresult (cmdBreak v) false)

def nshParseCommand (nestdepth : Nat) (token : Token α) (v : Vtbl α) :
    Except (Vtbl α) (Int × Vtbl α) :=
  match nshLoop nestdepth (some token) v with
  | (ret, cmd, v) =>
    if ret ≠ 0 then .ok (nshSaveresult v true)
    else
      match nshItef nestdepth cmd v with
      | (ret, cmd, v) =>
        if ret ≠ 0 then .ok (nshSaveresult v true)
        else
          match cmd with
          | none => .ok (0, v)
          | some cmd => if nshCmdenabled v then nshExecute cmd v else .ok (0, v)

/-- `nsh_parse`, from the piece at `loffs` on -/
def nshParse (nestdepth : Nat) : List (Piece α) → Nat → Vtbl α → Except (Vtbl α) (Int × Vtbl α)
  | [], _, v => .ok (0, v)
  | [p], loffs, v => nshParseCommand nestdepth p.token { v with loffs }
  | p :: line, loffs, v =>
    match nshParseCommand nestdepth p.token { v with loffs } with
    | .error v => .error v
    | .ok (ret, v) =>
      if ret ≠ 0 then .ok (ret, v)
      else if v.jump then .ok (0, v)
      else nshParse nestdepth line (loffs + 1) v

def takeLine : List (Piece α) → List (Piece α)
  | [] => []
  | p :: ps => if p.last then [p] else p :: takeLine ps

def scriptGetline (file : List (Piece α)) (v : Vtbl α) : Option (List (Piece α)) :=
  match takeLine (file.drop v.fpos) with
  | [] => none
  | line => some line

/-- How `nsh_script` ends, if it does. -/
inductive Halt (α : Type) where
  | running
  | blocked (v : Vtbl α)
  | ended (ret : Int) (v : Vtbl α)

/-- `nsh_script`, for so many lines; `ret` is what the line before returned. -/
def nshScript (nestdepth : Nat) (file : List (Piece α)) : Nat → Int → Vtbl α → Halt α
  | 0, _, _ => .running
  | n + 1, ret, v =>
    let v := { v with foffs := v.fpos, loffs := 0 }
    match scriptGetline file v with
    | none => .ended ret v
    | some line =>
      match nshParse nestdepth line 0 { v with fpos := v.fpos + line.length, jump := false } with
      | .error v => .blocked v
      | .ok (ret, v) => if ret = 0 ∨ v.ignore then nshScript nestdepth file n ret v else .ended ret v

end Gpmx.Nsh

/-!
## NSH: scripts as structured programs

* `Stmt` — a script as it is meant, with the ends of its lines
* `pieces` — its text
* `run` — the commands that it runs, where their results are given
* `tame` — in this run the parser meets nothing that it takes the wrong way

A command that fails ends the script, unless errors are ignored.
-/

namespace Gpmx.Nsh

/-- A statement; the flags say behind which of its commands and keywords the line ends. -/
inductive Stmt (α : Type) where
  | cmd (c : α) (l : Bool)
  | brk (l : Bool)
  | ite (inverted : Bool) (c : α) (thn : List (Stmt α)) (hasElse : Bool) (els : List (Stmt α))
      (l1 l2 l3 l4 : Bool)
  | loop (isUntil : Bool) (c : α) (body : List (Stmt α)) (l1 l2 l3 : Bool)

variable {α : Type}

/-! ## Text -/

def loopHead (isUntil : Bool) (c : α) : Token α := if isUntil then .until_ c else .while_ c

mutual

def Stmt.pieces : Stmt α → List (Piece α)
  | .cmd c l => [⟨.cmd c, l⟩]
  | .brk l => [⟨.brk, l⟩]
  | .ite inverted c thn hasElse els l1 l2 l3 l4 =>
    ⟨.if_ inverted c, l1⟩ :: ⟨.then_, l2⟩ :: (piecesAll thn ++
      ((if hasElse then ⟨.else_, l3⟩ :: piecesAll els else []) ++ [⟨.fi, l4⟩]))
  | .loop isUntil c body l1 l2 l3 =>
    ⟨loopHead isUntil c, l1⟩ :: ⟨.do_, l2⟩ :: (piecesAll body ++ [⟨.done_, l3⟩])

def piecesAll : List (Stmt α) → List (Piece α)
  | [] => []
  | s :: ss => s.pieces ++ piecesAll ss

end

mutual

def Stmt.depth : Stmt α → Nat
  | .cmd _ _ => 0
  | .brk _ => 0
  | .ite _ _ thn _ els _ _ _ _ => max (depthAll thn) (depthAll els) + 1
  | .loop _ _ body _ _ _ => depthAll body + 1

def depthAll : List (Stmt α) → Nat
  | [] => 0
  | s :: ss => max s.depth (depthAll ss)

end

mutual

/-- `break` stands in loops only. -/
def Stmt.Closed (inLoop : Bool) : Stmt α → Prop
  | .cmd _ _ => True
  | .brk _ => inLoop = true
  | .ite _ _ thn _ els _ _ _ _ => ClosedAll inLoop thn ∧ ClosedAll inLoop els
  | .loop _ _ body _ _ _ => ClosedAll true body

def ClosedAll (inLoop : Bool) : List (Stmt α) → Prop
  | [] => True
  | s :: ss => s.Closed inLoop ∧ ClosedAll inLoop ss

end

/-! ## Meaning -/

inductive End where
  | done (results : List Bool)
  | broke (results : List Bool)
  | failed
  | waiting
  deriving DecidableEq

abbrev Reading (α : Type) := List α × End

def Reading.after (c : α) (r : Reading α) : Reading α := (c :: r.1, r.2)

def Reading.andThen (r : Reading α) (k : List Bool → Reading α) : Reading α :=
  match r.2 with
  | .done results => (r.1 ++ (k results).1, (k results).2)
  | _ => r

/-- The turns of a loop. A turn takes the result of its condition, so `results.length + 1` are enough. -/
def turns (isUntil : Bool) (c : α) (body : List Bool → Reading α) : Nat → List Bool → Reading α
  | 0, _ => ([], .waiting)
  | _ + 1, [] => ([c], .waiting)
  | n + 1, fail :: results =>
    if fail = isUntil then
      Reading.after c
        (match (body results).2 with
        | .broke results' => ((body results).1, .done results')
        | _ => (body results).andThen (turns isUntil c body n))
    else ([c], .done results)

mutual

def Stmt.run (ignore : Bool) : Stmt α → List Bool → Reading α
  | .cmd c _ => fun results =>
    match results with
    | [] => ([c], .waiting)
    | fail :: results => ([c], if fail && !ignore then .failed else .done results)
  | .brk _ => fun results => ([], .broke results)
  | .ite inverted c thn hasElse els _ _ _ _ => fun results =>
    match results with
    | [] => ([c], .waiting)
    | fail :: results =>
      Reading.after c
        (if inverted ^^ fail then if hasElse then runAll ignore els results else ([], .done results)
        else runAll ignore thn results)
  | .loop isUntil c body _ _ _ => fun results =>
    turns isUntil c (runAll ignore body) (results.length + 1) results

def runAll (ignore : Bool) : List (Stmt α) → List Bool → Reading α
  | [] => fun results => ([], .done results)
  | s :: ss => fun results => (s.run ignore results).andThen (runAll ignore ss)

end

/-! ## What the parser does not cope with -/

def Stmt.isLoop : Stmt α → Bool
  | .loop _ _ _ _ _ _ => true
  | _ => false

/-- No statement of the list is a loop; what is in an `if` does not count. -/
def noLoop (ss : List (Stmt α)) : Bool := ss.all fun s => !s.isLoop

/-- Turns of a loop in which the body is `tame`; `skippable` where the body is skipped at the end. -/
def turnsTame (isUntil : Bool) (body : List Bool → Reading α) (bodyTame : List Bool → Bool)
    (skippable : Bool) : Nat → List Bool → Bool
  | 0, _ => true
  | _ + 1, [] => true
  | n + 1, fail :: results =>
    if fail = isUntil then
      bodyTame results &&
        match (body results).2 with
        | .done results' => turnsTame isUntil body bodyTame skippable n results'
        | _ => true
    else skippable

mutual

/--
In this run no `break` is met inside an `if` of its loop, no loop stands directly in a body that is
skipped, and a command that fails is outside of all blocks or, where errors are ignored, the last on
its line.
-/
def Stmt.tame (ignore inBlock inIf : Bool) : Stmt α → List Bool → Bool
  | .cmd _ l => fun results =>
    match results with
    | [] => true
    | fail :: _ => !fail || (if ignore then l else !inBlock)
  | .brk _ => fun _ => !inIf
  | .ite inverted _ thn hasElse els _ _ _ _ => fun results =>
    match results with
    | [] => true
    | fail :: results =>
      if inverted ^^ fail then !hasElse || tameAll ignore true true els results
      else tameAll ignore true true thn results
  | .loop isUntil _ body _ _ _ => fun results =>
    turnsTame isUntil (runAll ignore body) (tameAll ignore true false body) (noLoop body)
      (results.length + 1) results

def tameAll (ignore inBlock inIf : Bool) : List (Stmt α) → List Bool → Bool
  | [] => fun _ => true
  | s :: ss => fun results =>
    s.tame ignore inBlock inIf results &&
      match (s.run ignore results).2 with
      | .done results' => tameAll ignore inBlock inIf ss results'
      -- the rest of the body is skipped
      | .broke _ => noLoop ss
      | _ => true

end

end Gpmx.Nsh
