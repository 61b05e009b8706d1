import Gpmx.Nsh.Steps

/-!
# NSH: text that is skipped

Where the innermost `if` is not taken, all of the text up to its end is skipped. Where a loop has
stopped, `if` blocks are skipped as well, but not loops: between `while` and `do` only the `if` around
the loop counts, and its condition is run.
-/

namespace Gpmx.Nsh

open Function List

variable {α : Type}

structure Like (v w : Vtbl α) : Prop where
  iendx : w.iendx = v.iendx
  iestate : ∀ i ≤ v.iendx, w.iestate i = v.iestate i
  lpndx : w.lpndx = v.lpndx
  lpstate : ∀ i ≤ v.lpndx, w.lpstate i = v.lpstate i
  ignore : w.ignore = v.ignore

/-- The commands `t` have been run, and the results `rs` are left. -/
structure After (t : List α) (rs : List Bool) (v w : Vtbl α) : Prop extends Like v w where
  executed : w.executed = v.executed ++ t
  results : w.results = rs

namespace Like

variable {v w x : Vtbl α}

theorem refl (v : Vtbl α) : Like v v := ⟨rfl, fun _ _ => rfl, rfl, fun _ _ => rfl, rfl⟩

section

variable (h : Like v w)
include h

theorem trans (h' : Like w x) : Like v x where
  iendx := h'.iendx.trans h.iendx
  iestate i hi := (h'.iestate i (by rw [h.iendx]; exact hi)).trans (h.iestate i hi)
  lpndx := h'.lpndx.trans h.lpndx
  lpstate i hi := (h'.lpstate i (by rw [h.lpndx]; exact hi)).trans (h.lpstate i hi)
  ignore := h'.ignore.trans h.ignore

theorem ie : w.ie = v.ie := by
  unfold Vtbl.ie
  rw [h.iendx, h.iestate _ (Nat.le_refl _)]

theorem lp : w.lp = v.lp := by
  unfold Vtbl.lp
  rw [h.lpndx, h.lpstate _ (Nat.le_refl _)]

theorem cmdenabled : nshCmdenabled w = nshCmdenabled v := by
  unfold nshCmdenabled nshLoopEnabled nshItefEnabled
  rw [h.ie, h.lp]

theorem itefEnabled : nshItefEnabled w = nshItefEnabled v := by
  unfold nshItefEnabled
  rw [h.ie]

theorem between (hv : Between v) : Between w := by
  constructor
  · rw [h.ie]
    exact hv.ie
  · rw [h.lp]
    exact hv.lp

theorem setIe (ie : Itef) : Like (v.setIe ie) (w.setIe ie) where
  iendx := h.iendx
  iestate i hi := by
    simp only [Vtbl.setIe, h.iendx]
    by_cases heq : i = v.iendx
    · subst heq
      simp
    · simp only [update_of_ne heq]
      exact h.iestate i hi
  lpndx := h.lpndx
  lpstate := h.lpstate
  ignore := h.ignore

theorem setLp (lp : Loop) : Like (v.setLp lp) (w.setLp lp) where
  iendx := h.iendx
  iestate := h.iestate
  lpndx := h.lpndx
  lpstate i hi := by
    simp only [Vtbl.setLp, h.lpndx]
    by_cases heq : i = v.lpndx
    · subst heq
      simp
    · simp only [update_of_ne heq]
      exact h.lpstate i hi
  ignore := h.ignore

theorem pushIe (ie : Itef) : Like (v.pushIe ie) (w.pushIe ie) where
  iendx := congrArg (· + 1) h.iendx
  iestate i hi := by
    have hi : i ≤ v.iendx + 1 := hi
    simp only [Vtbl.pushIe, Vtbl.setIe, h.iendx]
    by_cases heq : i = v.iendx + 1
    · subst heq
      simp
    · simp only [update_of_ne heq]
      exact h.iestate i (by omega)
  lpndx := h.lpndx
  lpstate := h.lpstate
  ignore := h.ignore

theorem pushLp (lp : Loop) : Like (v.pushLp lp) (w.pushLp lp) where
  iendx := h.iendx
  iestate := h.iestate
  lpndx := congrArg (· + 1) h.lpndx
  lpstate i hi := by
    have hi : i ≤ v.lpndx + 1 := hi
    simp only [Vtbl.pushLp, Vtbl.setLp, h.lpndx]
    by_cases heq : i = v.lpndx + 1
    · subst heq
      simp
    · simp only [update_of_ne heq]
      exact h.lpstate i (by omega)
  ignore := h.ignore

end

theorem popIe {ie : Itef} (h : Like (v.pushIe ie) w) : Like v w.popIe where
  iendx := by
    have hidx : w.iendx = v.iendx + 1 := h.iendx
    show w.iendx - 1 = v.iendx
    omega
  iestate i hi := by
    have hsame := h.iestate i (Nat.le_succ_of_le hi)
    have hne : i ≠ v.iendx + 1 := by omega
    rw [Vtbl.pushIe, Vtbl.setIe] at hsame
    dsimp only at hsame
    rw [update_of_ne hne] at hsame
    exact hsame
  lpndx := h.lpndx
  lpstate := h.lpstate
  ignore := h.ignore

theorem popLp {lp lp' : Loop} (h : Like (v.pushLp lp) w) : Like v (w.setLp lp').popLp where
  iendx := h.iendx
  iestate := h.iestate
  lpndx := by
    have hidx : w.lpndx = v.lpndx + 1 := h.lpndx
    show w.lpndx - 1 = v.lpndx
    omega
  lpstate i hi := by
    have hidx : w.lpndx = v.lpndx + 1 := h.lpndx
    have hne : i ≠ v.lpndx + 1 := by omega
    have hsame := h.lpstate i (Nat.le_succ_of_le hi)
    rw [Vtbl.pushLp, Vtbl.setLp] at hsame
    dsimp only at hsame
    rw [update_of_ne hne] at hsame
    show update w.lpstate w.lpndx lp' i = _
    rw [hidx, update_of_ne hne, hsame]
  ignore := h.ignore

end Like

namespace After

variable {v w x : Vtbl α} {t t' : List α} {rs rs' : List Bool}

theorem trans (h : After t rs v w) (h' : After t' rs' w x) : After (t ++ t') rs' v x where
  toLike := h.toLike.trans h'.toLike
  executed := by rw [h'.executed, h.executed, append_assoc]
  results := h'.results

theorem quiet (h : Like v w) (hexe : w.executed = v.executed) (hres : w.results = v.results) :
    After [] v.results v w where
  toLike := h
  executed := by rw [hexe, append_nil]
  results := hres

theorem ran {c : α} (h : After [] rs v w) (hlike : Like w x) (hexe : x.executed = w.executed ++ [c])
    (hres : x.results = rs') : After [c] rs' v x :=
  ⟨h.toLike.trans hlike, by rw [hexe, h.executed, append_nil], hres⟩

theorem then_quiet (h : After t rs v w) (h' : After [] w.results w x) : After t rs v x := by
  have hall := h.trans h'
  rw [append_nil, h.results] at hall
  exact hall

end After

variable {v w : Vtbl α} {p : Piece α} {e : Itef} {d : Nat}

variable {pc : Nat} {l : Loop} {d' : Nat} {c : α} {l1 l2 l3 : Bool}

theorem Booked.after (h : Booked pc v w) : After [] v.results v w := by
  rw [h.eq]
  exact .quiet ⟨rfl, fun _ _ => rfl, rfl, fun _ _ => rfl, rfl⟩ rfl rfl

theorem Booked.jump (h : Booked pc v w) : w.jump = false := by
  rw [h.eq]

/-! ## Text -/

/-- The text at `pc` begins with these pieces. -/
def At (file : List (Piece α)) (pc : Nat) (L : List (Piece α)) : Prop := L <+: file.drop pc

section Text

variable {file : List (Piece α)} {pc : Nat} {p : Piece α} {L M : List (Piece α)}

theorem At.head (h : At file pc (p :: L)) : file[pc]? = some p := by
  obtain ⟨post, hpost⟩ := h
  have hget := congrArg (fun l => l[0]?) hpost
  simpa using hget.symm

theorem At.tail (h : At file pc (p :: L)) : At file (pc + 1) L := by
  obtain ⟨post, hpost⟩ := h
  refine ⟨post, ?_⟩
  have htail := congrArg List.tail hpost
  rw [tail_drop] at htail
  exact htail

theorem At.left (h : At file pc (L ++ M)) : At file pc L := (prefix_append L M).trans h

theorem At.right (h : At file pc (L ++ M)) : At file (pc + L.length) M := by
  obtain ⟨post, hpost⟩ := h
  refine ⟨post, ?_⟩
  rw [← drop_drop, ← hpost, append_assoc, drop_left]

end Text

section Skip

variable {N : Nat} {file : List (Piece α)} {Q : Halt α → Prop} {pc : Nat} {v : Vtbl α}

theorem Goes.move {pc' : Nat} (h : Goes N file Q pc v) (heq : pc = pc') : Goes N file Q pc' v := heq ▸ h

theorem goes_next (hp : file[pc]? = some p)
    (h : ∀ w, After [] v.results v w → w.foffs + w.loffs = pc → w.jump = false → ∃ w', nshParseCommand N p.token w = .ok (0, w') ∧ w'.jump = false ∧ w'.foffs = w.foffs ∧ w'.fpos = w.fpos ∧ Goes N file Q (pc + 1) w') :
    Goes N file Q pc v := by
  refine goes_piece hp fun w hw => ?_
  obtain ⟨w', hparse, hjump, hfoffs, hfpos, hgo⟩ := h w hw.after hw.here hw.jump
  rw [hparse]
  exact .next (.inl rfl) hjump hfoffs hfpos hgo

theorem skip_piece (hp : file[pc]? = some p) (hbetween : Between v) (hoff : nshCmdenabled v = false)
    (hcmd : (∃ c, p.token = .cmd c) ∨ p.token = .brk)
    (hnext : ∀ w, After [] v.results v w → Goes N file Q (pc + 1) w) : Goes N file Q pc v := by
  refine goes_next hp fun w hw _ hjump => ⟨w, ?_, hjump, rfl, rfl, hnext w hw⟩
  have hbw := hw.toLike.between hbetween
  have howff := hw.toLike.cmdenabled.trans hoff
  rcases hcmd with ⟨c, hc⟩ | hb
  · rw [hc]
    exact parse_cmd_off hbw howff
  · rw [hb]
    exact parse_brk_off hbw howff

theorem pushIe_setIe (v : Vtbl α) (e e' : Itef) : (v.pushIe e).setIe e' = v.pushIe e' := by
  simp [Vtbl.pushIe, Vtbl.setIe]

theorem pushLp_setLp (v : Vtbl α) (l l' : Loop) : (v.pushLp l).setLp l' = v.pushLp l' := by
  simp [Vtbl.pushLp, Vtbl.setLp]

variable {v0 : Vtbl α} {t : List α} {rs : List Bool}

theorem After.restack (h : After t rs v0 v) (hw : After [] v.results v w) {x y : Vtbl α}
    (hlike : Like x y) (hx : x.executed = v0.executed) (hexe : y.executed = w.executed)
    (hres : y.results = w.results) : After t rs x y := by
  have hall := h.then_quiet hw
  exact ⟨hlike, by rw [hexe, hall.executed, hx], by rw [hres, hall.results]⟩

section

variable (hp : file[pc]? = some p)
include hp

theorem goes_branch {state : ItefState} (hlike : After t rs (v0.pushIe e) v) (hlp : v0.lp.state ≠ .while_ ∧ v0.lp.state ≠ .until_)
    (hkind : p.token = .then_ ∧ e.state = .if_ ∧ state = .then_ ∨ p.token = .else_ ∧ e.state = .then_ ∧ state = .else_)
    (hnext : ∀ w, After t rs (v0.pushIe { e with state }) w → Goes N file Q (pc + 1) w) :
    Goes N file Q pc v := by
  refine goes_next hp fun w hw _ hjump => ?_
  have hall := hlike.toLike.trans hw.toLike
  have hie : w.ie = e := by rw [hall.ie, Vtbl.ie_pushIe]
  have hwlp : w.lp.state ≠ .while_ ∧ w.lp.state ≠ .until_ := by
    rw [hall.lp]
    exact hlp
  refine ⟨w.setIe { e with state }, ?_, hjump, rfl, rfl, hnext _ ?_⟩
  · rcases hkind with ⟨htok, hstate, rfl⟩ | ⟨htok, hstate, rfl⟩
    · rw [htok, parse_then (hie ▸ hstate) hwlp, hie]
    · have hnot : w.ie.state ≠ .if_ := by
        rw [hie, hstate]
        decide
      rw [htok, parse_else (hie ▸ hstate) ⟨hnot, hwlp⟩, hie]
  · have hset := hall.setIe { e with state }
    rw [pushIe_setIe] at hset
    exact hlike.restack hw hset rfl rfl rfl

theorem goes_fi (hlike : After t rs (v0.pushIe e) v)
    (hlp : v0.lp.state ≠ .while_ ∧ v0.lp.state ≠ .until_) (htok : p.token = .fi)
    (hbranch : e.state = .then_ ∨ e.state = .else_)
    (hnext : ∀ w, After t rs v0 w → Goes N file Q (pc + 1) w) : Goes N file Q pc v := by
  refine goes_next hp fun w hw _ hjump => ?_
  have hall := hlike.toLike.trans hw.toLike
  have hie : w.ie = e := by rw [hall.ie, Vtbl.ie_pushIe]
  have hnot : w.ie.state ≠ .if_ := by
    rw [hie]
    rcases hbranch with h | h <;> rw [h] <;> decide
  have hwlp : w.lp.state ≠ .while_ ∧ w.lp.state ≠ .until_ := by
    rw [hall.lp]
    exact hlp
  have hpos : 0 < w.iendx := by
    have hidx : w.iendx = v0.iendx + 1 := hall.iendx
    omega
  refine ⟨w.popIe, ?_, hjump, rfl, rfl, hnext _ ?_⟩
  · rw [htok, parse_fi (hie ▸ hbranch) ⟨hnot, hwlp⟩ hpos]
  · exact hlike.restack hw hall.popIe rfl rfl rfl

theorem goes_do (hlike : After t rs (v0.pushLp l) v) (htok : p.token = .do_)
    (hhead : l.state = .while_ ∨ l.state = .until_)
    (hnext : ∀ w, After t rs (v0.pushLp { l with state := .do_ }) w → Goes N file Q (pc + 1) w) :
    Goes N file Q pc v := by
  refine goes_next hp fun w hw _ hjump => ?_
  have hall := hlike.toLike.trans hw.toLike
  have hlp : w.lp = l := by rw [hall.lp, Vtbl.lp_pushLp]
  refine ⟨w.setLp { l with state := .do_ }, ?_, hjump, rfl, rfl, hnext _ ?_⟩
  · rw [htok, parse_do (hlp ▸ hhead), hlp]
  · have hset := hall.setLp { l with state := .do_ }
    rw [pushLp_setLp] at hset
    exact hlike.restack hw hset rfl rfl rfl

theorem goes_done_stop (hlike : After t rs (v0.pushLp l) v) (htok : p.token = .done_)
    (hdo : l.state = .do_) (hstop : l.enable = false)
    (hnext : ∀ w, After t rs v0 w → Goes N file Q (pc + 1) w) : Goes N file Q pc v := by
  refine goes_next hp fun w hw _ hjump => ?_
  have hall := hlike.toLike.trans hw.toLike
  have hlp : w.lp = l := by rw [hall.lp, Vtbl.lp_pushLp]
  have hpos : 0 < w.lpndx := by
    have hidx : w.lpndx = v0.lpndx + 1 := hall.lpndx
    omega
  obtain ⟨lp, hparse⟩ := parse_done_stop (N := N) (hlp ▸ hdo) hpos (hlp ▸ hstop)
  rw [htok]
  exact ⟨_, hparse, hjump, rfl, rfl, hnext _ (hlike.restack hw hall.popLp rfl rfl rfl)⟩

end

/-- The innermost `if` is not taken, and there is room for `d` more blocks. -/
structure Off (N d : Nat) (v : Vtbl α) : Prop where
  between : Between v
  off : nshItefEnabled v = false
  ideep : v.iendx + d < N
  ldeep : v.lpndx + d < N

theorem Off.cmdenabled (h : Off N d v) : nshCmdenabled v = false := by
  unfold nshCmdenabled
  rw [h.off, Bool.and_false]

theorem Off.mono (h : Off N d v) (hle : d' ≤ d) : Off N d' v :=
  ⟨h.between, h.off, by have := h.ideep; omega, by have := h.ldeep; omega⟩

theorem Off.like (h : Off N d v) (hw : Like v w) : Off N d w where
  between := hw.between h.between
  off := hw.itefEnabled.trans h.off
  ideep := by rw [hw.iendx]; exact h.ideep
  ldeep := by rw [hw.lpndx]; exact h.ldeep

theorem off_pushIe (hbetween : Between v) (hdisabled : e.disabled = true) (hstate : e.state ≠ .if_)
    (hi : v.iendx + (d + 1) < N) (hl : v.lpndx + (d + 1) < N) :
    Off N d (v.pushIe e) where
  between := ⟨by rw [Vtbl.ie_pushIe]; exact hstate, hbetween.lp⟩
  off := by
    unfold nshItefEnabled
    rw [Vtbl.ie_pushIe, if_pos hdisabled]
  ideep := Nat.lt_of_le_of_lt (Nat.le_of_eq (Nat.succ_add _ d)) hi
  ldeep := Nat.lt_of_succ_lt hl

def Skips (N : Nat) (file : List (Piece α)) (Q : Halt α → Prop) (L : List (Piece α))
    (ok : Vtbl α → Prop) : Prop :=
  ∀ {pc : Nat} {v : Vtbl α}, ok v → At file pc L →
    (∀ w, After [] v.results v w → Goes N file Q (pc + L.length) w) → Goes N file Q pc v

theorem skip_ite {inverted hasElse : Bool} {thn els : List (Stmt α)} {l4 : Bool}
    (hthn : Skips N file Q (piecesAll thn) (Off N d))
    (hels : Skips N file Q (piecesAll els) (Off N d)) :
    Skips N file Q (Stmt.ite inverted c thn hasElse els l1 l2 l3 l4).pieces fun v =>
      Between v ∧ nshCmdenabled v = false ∧ v.iendx + (d + 1) < N ∧ v.lpndx + (d + 1) < N := by
  rintro pc v ⟨hbetween, hoff, hi, hl⟩ hat hnext
  rw [Stmt.pieces] at hat hnext
  -- `if` and `then`
  refine goes_next hat.head fun w hw _ hjump =>
    ⟨_, parse_if_off (hw.toLike.between hbetween) ?_ (hw.toLike.cmdenabled.trans hoff) inverted,
      hjump, rfl, rfl, ?_⟩
  · rw [hw.toLike.iendx]
    omega
  have hif : ifItef w inverted = ifItef v inverted := by
    unfold ifItef
    rw [hw.toLike.cmdenabled]
  have hdis : (ifItef v inverted).disabled = true := by
    unfold ifItef
    rw [hoff]
    rfl
  have hpush : After [] v.results (v.pushIe (ifItef v inverted)) (w.pushIe (ifItef w inverted)) := by
    rw [hif]
    exact ⟨hw.toLike.pushIe _, hw.executed, hw.results⟩
  refine goes_branch hat.tail.head hpush hbetween.lp (.inl ⟨rfl, rfl, rfl⟩) fun w2 hw2 => ?_
  have hrest := hat.tail.tail
  have hthen : Off N d (v.pushIe { ifItef v inverted with state := .then_ }) :=
    off_pushIe hbetween hdis (by simp) hi hl
  refine hthn (hthen.like hw2.toLike) hrest.left fun w3 hw3 => ?_
  replace hw3 := hw2.then_quiet hw3
  -- `fi`, after either part
  have hfi : ∀ {pc' : Nat} {x : Vtbl α} {e : Itef}, e.state = .then_ ∨ e.state = .else_ →
      file[pc']? = some ⟨.fi, l4⟩ → After [] v.results (v.pushIe e) x →
      (∀ w, After [] v.results v w → Goes N file Q (pc' + 1) w) → Goes N file Q pc' x := by
    intro pc' x e hstate hp hx hgo
    exact goes_fi hp hx hbetween.lp rfl hstate hgo
  cases hasElse with
  | false =>
    simp only [Bool.false_eq_true, if_false, nil_append, length_cons, length_append,
      length_nil] at hrest hnext
    refine hfi (.inl rfl) hrest.right.head hw3 fun w hw => ?_
    exact (hnext w hw).move (by omega)
  | true =>
    simp only [if_true, cons_append, length_cons, length_append, length_nil]
      at hrest hnext
    have helse := hrest.right
    refine goes_branch helse.head hw3 hbetween.lp (.inr ⟨rfl, rfl, rfl⟩) fun w4 hw4 => ?_
    have hoff4 : Off N d (v.pushIe { ifItef v inverted with state := .else_ }) :=
      off_pushIe hbetween hdis (by simp) hi hl
    refine hels (hoff4.like hw4.toLike) helse.tail.left fun w5 hw5 => ?_
    refine hfi (.inr rfl) helse.tail.right.head (hw4.then_quiet hw5) fun w hw => ?_
    exact (hnext w hw).move (by omega)

theorem skip_loop {isUntil : Bool} {body : List (Stmt α)}
    (hbody : Skips N file Q (piecesAll body) (Off N d)) :
    Skips N file Q (Stmt.loop isUntil c body l1 l2 l3).pieces (Off N (d + 1)) := by
  rintro pc v hoff hat hnext
  rw [Stmt.pieces] at hat hnext
  have hi := hoff.ideep
  have hl := hoff.ldeep
  refine goes_next hat.head fun w hw hhere hjump =>
    ⟨_, parse_head_off (hw.toLike.between hoff.between) ?_ isUntil
      (hw.toLike.itefEnabled.trans hoff.off), rfl, rfl, rfl, ?_⟩
  · rw [hw.toLike.lpndx]
    omega
  have hhead : headLoop w isUntil =
      { enable := false, state := if isUntil then .until_ else .while_, iendx := v.iendx, topoffs := pc } := by
    unfold headLoop
    rw [hw.toLike.cmdenabled, hoff.cmdenabled, hw.toLike.iendx, hhere]
  unfold Vtbl.atHead
  generalize headLoop w isUntil = l at hhead
  have hpush : After [] v.results (v.pushLp l) ({ w with jump := false }.pushLp l) := by
    have hjumped : Like v { w with jump := false } :=
      hw.toLike.trans ⟨rfl, fun _ _ => rfl, rfl, fun _ _ => rfl, rfl⟩
    exact ⟨hjumped.pushLp l, hw.executed, hw.results⟩
  refine goes_do hat.tail.head hpush rfl ?_ fun w2 hw2 => ?_
  · rw [hhead]
    cases isUntil
    · exact .inl rfl
    · exact .inr rfl
  have hrest := hat.tail.tail
  have hdo : Off N d (v.pushLp { l with state := .do_ }) :=
    { between := ⟨hoff.between.ie, by rw [Vtbl.lp_pushLp]; simp⟩
      off := hoff.off
      ideep := Nat.lt_of_succ_lt hi
      ldeep := Nat.lt_of_le_of_lt (Nat.le_of_eq (Nat.succ_add _ d)) hl }
  refine hbody (hdo.like hw2.toLike) hrest.left fun w3 hw3 => ?_
  refine goes_done_stop hrest.right.head (hw2.then_quiet hw3) rfl rfl (by rw [hhead]) fun w hw => ?_
  refine (hnext w hw).move ?_
  simp only [length_cons, length_append, length_nil]
  omega

theorem skip_append {L M : List (Piece α)} {ok : Vtbl α → Prop}
    (hlike : ∀ {v w}, ok v → Like v w → ok w) (hL : Skips N file Q L ok)
    (hM : Skips N file Q M ok) : Skips N file Q (L ++ M) ok := by
  intro pc v hv hat hnext
  refine hL hv hat.left fun w hw => hM (hlike hv hw.toLike) hat.right fun x hx => ?_
  have hgo := hnext x (hw.then_quiet hx)
  rwa [length_append, ← Nat.add_assoc] at hgo

mutual

/-- **Where the innermost `if` is not taken, every statement is skipped.** -/
theorem skip_off : ∀ (s : Stmt α), Skips N file Q s.pieces (Off N s.depth)
  | .cmd c l => fun hoff hat hnext =>
    skip_piece hat.head hoff.between hoff.cmdenabled (.inl ⟨c, rfl⟩) hnext
  | .brk l => fun hoff hat hnext =>
    skip_piece hat.head hoff.between hoff.cmdenabled (.inr rfl) hnext
  | .ite inverted c thn hasElse els l1 l2 l3 l4 => by
    intro hoff hat hnext
    have hthn : Skips N file Q (piecesAll thn) (Off N (max (depthAll thn) (depthAll els))) :=
      fun h => skipAll_off thn (h.mono (Nat.le_max_left _ _))
    have hels : Skips N file Q (piecesAll els) (Off N (max (depthAll thn) (depthAll els))) :=
      fun h => skipAll_off els (h.mono (Nat.le_max_right _ _))
    rw [Stmt.depth] at hoff
    exact skip_ite hthn hels ⟨hoff.between, hoff.cmdenabled, hoff.ideep, hoff.ldeep⟩ hat hnext
  | .loop isUntil c body l1 l2 l3 => by
    intro hoff hat hnext
    rw [Stmt.depth] at hoff
    exact skip_loop (fun h => skipAll_off body h) hoff hat hnext

theorem skipAll_off : ∀ (ss : List (Stmt α)), Skips N file Q (piecesAll ss) (Off N (depthAll ss))
  | [] => fun _ _ hnext => hnext _ (.quiet (.refl _) rfl rfl)
  | s :: ss => by
    intro hoff hat hnext
    rw [depthAll] at hoff
    have hs : Skips N file Q s.pieces (Off N (max s.depth (depthAll ss))) :=
      fun h => skip_off s (h.mono (Nat.le_max_left _ _))
    have hss : Skips N file Q (piecesAll ss) (Off N (max s.depth (depthAll ss))) :=
      fun h => skipAll_off ss (h.mono (Nat.le_max_right _ _))
    rw [piecesAll] at hat hnext
    exact skip_append (fun h hw => h.like hw) hs hss hoff hat hnext

end

structure Stopped (N d : Nat) (v : Vtbl α) : Prop where
  ie : v.ie.state ≠ .if_
  state : v.lp.state = .do_
  enable : v.lp.enable = false
  ideep : v.iendx + d < N
  ldeep : v.lpndx + d < N

theorem Stopped.between (h : Stopped N d v) : Between v :=
  ⟨h.ie, by rw [h.state]; decide⟩

theorem Stopped.cmdenabled (h : Stopped N d v) : nshCmdenabled v = false := by
  unfold nshCmdenabled nshLoopEnabled
  rw [if_pos h.state, h.enable, Bool.false_and]

theorem Stopped.mono (h : Stopped N d v) (hle : d' ≤ d) : Stopped N d' v :=
  ⟨h.ie, h.state, h.enable, by have := h.ideep; omega, by have := h.ldeep; omega⟩

theorem Stopped.like (h : Stopped N d v) (hw : Like v w) : Stopped N d w where
  ie := by rw [hw.ie]; exact h.ie
  state := by rw [hw.lp]; exact h.state
  enable := by rw [hw.lp]; exact h.enable
  ideep := by rw [hw.iendx]; exact h.ideep
  ldeep := by rw [hw.lpndx]; exact h.ldeep

/-- **Where a loop has stopped, statements other than loops are skipped.** -/
theorem skip_stopped (s : Stmt α) (hloop : s.isLoop = false) :
    Skips N file Q s.pieces (Stopped N s.depth) := by
  intro pc v hstop hat hnext
  cases s with
  | cmd c l => exact skip_piece hat.head hstop.between hstop.cmdenabled (.inl ⟨c, rfl⟩) hnext
  | brk l => exact skip_piece hat.head hstop.between hstop.cmdenabled (.inr rfl) hnext
  | ite inverted c thn hasElse els l1 l2 l3 l4 =>
    rw [Stmt.depth] at hstop
    exact skip_ite (fun h => skipAll_off thn (h.mono (Nat.le_max_left _ _)))
      (fun h => skipAll_off els (h.mono (Nat.le_max_right _ _)))
      ⟨hstop.between, hstop.cmdenabled, hstop.ideep, hstop.ldeep⟩ hat hnext
  | loop isUntil c body l1 l2 l3 => cases hloop

theorem skipAll_stopped (ss : List (Stmt α)) (hloop : noLoop ss = true) :
    Skips N file Q (piecesAll ss) (Stopped N (depthAll ss)) := by
  induction ss with
  | nil => exact fun _ _ hnext => hnext _ (.quiet (.refl _) rfl rfl)
  | cons s ss ih =>
    intro pc v hstop hat hnext
    obtain ⟨hs, hss⟩ : s.isLoop = false ∧ noLoop ss = true := by
      simpa [noLoop] using hloop
    rw [depthAll] at hstop
    rw [piecesAll] at hat hnext
    exact skip_append (fun h hw => Stopped.like h hw)
      (fun h => skip_stopped s hs (h.mono (Nat.le_max_left _ _)))
      (fun h => ih hss (h.mono (Nat.le_max_right _ _))) hstop hat hnext

end Skip

end Gpmx.Nsh
