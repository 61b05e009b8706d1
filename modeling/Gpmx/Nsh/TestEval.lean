import Gpmx.Nsh.TestGrammar

/-!
# NSH: when `test` evaluates its grammar

The three relations of `Gpmx.Nsh.TestGrammar` exclude each other, so they decide what `test` and `[`
return. What is returned is compared with the documented grammar.
-/

namespace Gpmx.Nsh.Test

variable {stat : Word → Option Stat} {bracket : Bool} {args : List Word}

/-! ## The relations exclude each other -/

theorem head_unique {s s' r r' : List Word} {v v' : Bool} (h : Head stat s v) (h' : Head stat s' v')
    (heq : s ++ r = s' ++ r') : s = s' ∧ v = v' ∧ r = r' := by
  have hval : s = s' → v = v' := by
    rintro rfl
    obtain ⟨op, arg, rfl⟩ | ⟨left, op, right, rfl⟩ := head_words h
    · have hs := (head_value h).2.symm.trans (head_value h').2
      revert hs; cases v <;> cases v' <;> decide
    · have hs := (head_value_binary h).2.symm.trans (head_value_binary h').2
      revert hs; cases v <;> cases v' <;> decide
  obtain ⟨op, arg, rfl⟩ | ⟨left, op, right, rfl⟩ := head_words h <;>
    obtain ⟨op', arg', rfl⟩ | ⟨left', op', right', rfl⟩ := head_words h'
  · simp at heq
    obtain ⟨rfl, rfl, rfl⟩ := heq
    exact ⟨rfl, hval rfl, rfl⟩
  · simp at heq
    obtain ⟨rfl, -⟩ := heq
    exact absurd ((head_value h).1.symm.trans (head_value_binary h').1) (by decide)
  · simp at heq
    obtain ⟨rfl, -⟩ := heq
    exact absurd ((head_value h').1.symm.trans (head_value_binary h).1) (by decide)
  · simp at heq
    obtain ⟨rfl, rfl, rfl, rfl⟩ := heq
    exact ⟨rfl, hval rfl, rfl⟩

theorem not_simple_of_absent {s : List Word} {v : Bool} (h : Absent stat s) :
    ¬Simple stat walked s v := by
  intro hs
  cases h with
  | mk _ hnone _ =>
    cases hs with
    | unary _ hv => simp [hnone] at hv

def Behind (stat : Word → Option Stat) (rest : List Word) (w v : Bool) : Prop :=
  rest = [] ∨ (∃ more, rest = dashA :: more ∧ (w = true → Expression stat walked more v)) ∨
    ∃ more, rest = dashO :: more ∧ (w = false → Expression stat walked more v)

theorem expression_cases {v : Bool} (h : Expression stat walked args v) :
    (∃ rest v', args = bang :: rest ∧ Expression stat walked rest v') ∨
      ∃ s w rest, Simple stat walked s w ∧ args = s ++ rest ∧ Behind stat rest w v := by
  cases h with
  | simple hs => exact .inr ⟨_, _, [], hs, by simp, .inl rfl⟩
  | negation _ hrest => exact .inl ⟨_, _, rfl, hrest⟩
  | and hs hrest => exact .inr ⟨_, _, _, hs, rfl, .inr (.inl ⟨_, rfl, fun _ => hrest⟩)⟩
  | andSkipped hs => exact .inr ⟨_, _, _, hs, rfl, .inr (.inl ⟨_, rfl, nofun⟩)⟩
  | or hs hrest => exact .inr ⟨_, _, _, hs, rfl, .inr (.inr ⟨_, rfl, fun _ => hrest⟩)⟩
  | orSkipped hs => exact .inr ⟨_, _, _, hs, rfl, .inr (.inr ⟨_, rfl, nofun⟩)⟩

theorem form_of_simple {s rest : List Word} {v : Bool} (h : Simple stat walked s v)
    {first : Word} (heq : first :: args = s ++ rest) : form first ≠ .negation := by
  cases h with
  | unary hf | binary hf =>
    obtain ⟨rfl, -⟩ := List.cons.inj heq
    exact fun hn => nomatch hf.symm.trans hn

theorem expression_head_inv {s rest : List Word} {w v : Bool} (hs : Head stat s w)
    (h : Expression stat walked (s ++ rest) v) : Simple stat walked s w ∧ Behind stat rest w v := by
  rcases expression_cases h with ⟨more, v', heq, -⟩ | ⟨s', w', rest', hs', heq, hb⟩
  · exfalso
    obtain ⟨op, arg, rfl⟩ | ⟨left, op, right, rfl⟩ := head_words hs
    · obtain ⟨rfl, -⟩ := List.cons.inj heq
      exact absurd (head_value hs).1 (by decide)
    · obtain ⟨rfl, -⟩ := List.cons.inj heq
      exact absurd (head_value_binary hs).1 (by decide)
  · obtain ⟨rfl, rfl, rfl⟩ := head_unique hs (.inl hs') heq
    exact ⟨hs', hb⟩

theorem expression_bang_inv {rest : List Word} {v : Bool}
    (h : Expression stat walked (bang :: rest) v) : ∃ v', Expression stat walked rest v' := by
  rcases expression_cases h with ⟨more, v', heq, hmore⟩ | ⟨s, w, more, hs, heq, -⟩
  · obtain ⟨-, rfl⟩ := List.cons.inj heq
    exact ⟨v', hmore⟩
  · exact absurd form_bang (form_of_simple hs heq)

theorem expression_first {first : Word} {more : List Word} {v : Bool} (hf : form first ≠ .negation)
    (h : Expression stat walked (first :: more) v) :
    ∃ s w rest, Simple stat walked s w ∧ first :: more = s ++ rest := by
  rcases expression_cases h with ⟨rest, v', heq, -⟩ | ⟨s, w, rest, hs, heq, -⟩
  · obtain ⟨rfl, -⟩ := List.cons.inj heq
    exact absurd form_bang hf
  · exact ⟨s, w, rest, hs, heq⟩

theorem expression_unary {op : Word} {more : List Word} {v : Bool} (hf : form op = .unary)
    (h : Expression stat walked (op :: more) v) :
    ∃ arg rest w, more = arg :: rest ∧ unaryValue stat op arg = some w := by
  obtain ⟨s, w, rest, hs, heq⟩ := expression_first (by simp [hf]) h
  cases hs with
  | unary _ hv =>
    obtain ⟨rfl, rfl⟩ := List.cons.inj heq
    exact ⟨_, rest, w, rfl, hv⟩
  | binary hf' =>
    obtain ⟨rfl, -⟩ := List.cons.inj heq
    exact nomatch hf.symm.trans hf'

theorem expression_binary {left : Word} {more : List Word} {v : Bool} (hf : form left = .binary)
    (h : Expression stat walked (left :: more) v) :
    ∃ op right rest w, more = op :: right :: rest ∧
      binaryValue longInteger left op right = some w := by
  obtain ⟨s, w, rest, hs, heq⟩ := expression_first (by simp [hf]) h
  cases hs with
  | unary hf' =>
    obtain ⟨rfl, -⟩ := List.cons.inj heq
    exact nomatch hf.symm.trans hf'
  | binary _ hv =>
    obtain ⟨rfl, rfl⟩ := List.cons.inj heq
    exact ⟨_, _, rest, w, rfl, hv⟩

theorem expression_onward_inv {rest : List Word} {v : Bool} (ho : Onward stat rest args)
    (h : Expression stat walked args v) : Expression stat walked rest v := by
  cases ho with
  | and hs =>
    rcases (expression_head_inv hs h).2 with h | ⟨more, heq, hmore⟩ | ⟨more, heq, -⟩
    · cases h
    · obtain ⟨-, rfl⟩ := List.cons.inj heq
      exact hmore rfl
    · exact absurd (List.cons.inj heq).1 (by decide)
  | or hs =>
    rcases (expression_head_inv hs h).2 with h | ⟨more, heq, -⟩ | ⟨more, heq, hmore⟩
    · cases h
    · exact absurd (List.cons.inj heq).1 (by decide)
    · obtain ⟨-, rfl⟩ := List.cons.inj heq
      exact hmore rfl

/-- **What is wrong is no expression for the code.** -/
theorem not_walked_of_wrong {b : Bool} (h : Wrong stat bracket args b) :
    ∀ v, ¬Expression stat walked args v := by
  induction h with
  | nothing => intro v; exact not_expression_nil
  | negatedNothing => intro v hv; exact not_expression_nil (expression_bang_inv hv).choose_spec
  | negated _ _ ih => intro v hv; exact ih _ (expression_bang_inv hv).choose_spec
  | unaryShort hf =>
    intro v hv
    obtain ⟨arg, rest, w, hmore, -⟩ := expression_unary hf hv
    cases hmore
  | binaryShort hf hlen =>
    intro v hv
    obtain ⟨op, right, rest, w, rfl, -⟩ := expression_binary hf hv
    simp only [List.length_cons] at hlen
    omega
  | unaryUnknown hf hnone =>
    intro v hv
    obtain ⟨arg, rest, w, hmore, hw⟩ := expression_unary hf hv
    obtain ⟨rfl, rfl⟩ := List.cons.inj hmore
    simp [hnone] at hw
  | binaryUnknown hf hnone =>
    intro v hv
    obtain ⟨op, right, rest, w, hmore, hw⟩ := expression_binary hf hv
    simp at hmore
    obtain ⟨rfl, rfl, rfl⟩ := hmore
    simp [hnone] at hw
  | trailing hs ha ho =>
    intro v hv
    rcases (expression_head_inv hs hv).2 with h | ⟨more, heq, -⟩ | ⟨more, heq, -⟩
    · cases h
    · exact ha (List.cons.inj heq).1
    · exact ho (List.cons.inj heq).1
  | onward ho _ ih => intro v hv; exact ih v (expression_onward_inv ho hv)
  | @absent s ha =>
    intro v hv
    exact not_simple_of_absent ha
      (@expression_head_inv stat s [] false v (.inr ⟨ha, rfl⟩) (by simpa using hv)).1
  | absentAnd ha | absentOr ha =>
    intro v hv
    exact not_simple_of_absent ha (expression_head_inv (.inr ⟨ha, rfl⟩) hv).1

/-! ## The commands -/

/-- The command evaluates the arguments: it uses no argument past the vector, returns the truth value of
an expression of the grammar, and fails where there is none. -/
def Meets (stat : Word → Option Stat) (skipped : List Word → Prop) (args : List Word)
    (ret : Option Int) : Prop :=
  ∃ n, ret = some n ∧
    (∀ v, Expression stat (documented skipped) args v → (n = testTrue ↔ v = true)) ∧
    ((¬∃ v, Expression stat (documented skipped) args v) → n ≠ testTrue)

/-- The code finds the arguments true: as an expression, or because something wrong in them stands behind
an odd number of `!`. -/
def Succeeds (stat : Word → Option Stat) (bracket : Bool) (args : List Word) : Prop :=
  Expression stat walked args true ∨ Wrong stat bracket args true

/-- The condition: the code stays inside the vector, and it finds the arguments true exactly if they are
a true expression of the grammar and not, read in another way, a false one. -/
structure Sound (stat : Word → Option Stat) (skipped : List Word → Prop) (bracket : Bool)
    (args : List Word) : Prop where
  inside : ¬OffEnd stat bracket args
  accepted : Succeeds stat bracket args → Expression stat (documented skipped) args true
  unique : Succeeds stat bracket args → ¬Expression stat (documented skipped) args false
  complete : Expression stat (documented skipped) args true → Succeeds stat bracket args

/-- The grammar reads the arguments in a way in which the code does not: in another form than their first
word tells, or with integers that no `long` holds. -/
def Misread (stat : Word → Option Stat) (skipped : List Word → Prop) (args : List Word) : Prop :=
  ∃ v, Expression stat (documented skipped) args v ∧ ¬Expression stat walked args v

/-- **What `expression` returns.** -/
theorem expression_returns (stat : Word → Option Stat) (bracket : Bool) (args : List Word) :
    (expression stat args.length (args ++ closing bracket) = none ↔ OffEnd stat bracket args) ∧
      (expression stat args.length (args ++ closing bracket) = some testTrue ↔
        Succeeds stat bracket args) := by
  have hends : OffEnd stat bracket args → ¬Succeeds stat bracket args := by
    rintro hoff (he | hw)
    · simpa [expression_of_offEnd hoff] using expression_of_walked he (closing bracket)
    · simpa [expression_of_offEnd hoff] using expression_of_wrong hw
  have hfalse : expression stat args.length (args ++ closing bracket) = some (status false) →
      ¬OffEnd stat bracket args ∧ ¬Succeeds stat bracket args := by
    intro h
    refine ⟨fun hoff => by simp [expression_of_offEnd hoff] at h, ?_⟩
    rintro (he | hw)
    · exact absurd (h.symm.trans (expression_of_walked he _)) (by decide)
    · exact absurd (h.symm.trans (expression_of_wrong hw)) (by decide)
  have hcases : ∀ v r, expression stat args.length (args ++ closing bracket) = r → r = some (status v) →
      (v = true → Succeeds stat bracket args) →
      (r = none ↔ OffEnd stat bracket args) ∧ (r = some testTrue ↔ Succeeds stat bracket args) := by
    rintro v _ rfl h hv
    cases v with
    | true =>
      have hs := hv rfl
      exact ⟨by simpa [h] using fun hoff => hends hoff hs, by simp [h, hs]⟩
    | false =>
      obtain ⟨hoff, hs⟩ := hfalse h
      exact ⟨by simp [h, hoff], by simp [h, hs]⟩
  rcases settled args.length args (Nat.le_refl _) with ⟨v, hv⟩ | ⟨b, hb⟩ | hoff
  · exact hcases v _ rfl (expression_of_walked hv _) (fun h => .inl (h ▸ hv))
  · exact hcases b _ rfl (expression_of_wrong hb) (fun h => .inr (h ▸ hb))
  · have h := expression_of_offEnd hoff
    exact ⟨by simp [h, hoff], by simp [h, hends hoff]⟩

theorem meets_iff_sound (stat : Word → Option Stat) (skipped : List Word → Prop) (bracket : Bool)
    (args : List Word) :
    Meets stat skipped args (expression stat args.length (args ++ closing bracket)) ↔
      Sound stat skipped bracket args := by
  obtain ⟨hnone, htrue⟩ := expression_returns stat bracket args
  constructor
  · rintro ⟨n, hn, hvalue, hfails⟩
    have hs : Succeeds stat bracket args ↔ n = testTrue := by rw [← htrue, hn]; simp
    have hread : Succeeds stat bracket args → Expression stat (documented skipped) args true := by
      intro h
      by_contra hnot
      refine hfails ?_ (hs.mp h)
      rintro ⟨v, hv⟩
      have hvt := (hvalue v hv).mp (hs.mp h)
      exact hnot (hvt ▸ hv)
    exact {
      inside := fun hoff => by simp [hnone.mpr hoff] at hn
      accepted := hread
      unique := fun h hf => nomatch (hvalue false hf).mp (hs.mp h)
      complete := fun h => hs.mpr ((hvalue true h).mpr rfl) }
  · intro h
    obtain ⟨n, hn⟩ := Option.ne_none_iff_exists'.mp (fun hn => h.inside (hnone.mp hn))
    have hs : Succeeds stat bracket args ↔ n = testTrue := by rw [← htrue, hn]; simp
    refine ⟨n, hn, fun v hv => ?_, fun hnot ht => hnot ⟨true, h.accepted (hs.mpr ht)⟩⟩
    cases v with
    | true => exact ⟨fun _ => rfl, fun _ => hs.mp (h.complete hv)⟩
    | false => exact ⟨fun ht => absurd hv (h.unique (hs.mpr ht)), nofun⟩

theorem sound_iff {skipped : List Word → Prop} (h : ¬Misread stat skipped args) :
    Sound stat skipped bracket args ↔
      ¬OffEnd stat bracket args ∧ ¬Wrong stat bracket args true ∧
        (Expression stat walked args true → Expression stat (documented skipped) args true) := by
  have hread : ∀ v, Expression stat (documented skipped) args v → Expression stat walked args v := by
    intro v hv
    by_contra hnot
    exact h ⟨v, hv, hnot⟩
  constructor
  · intro hsound
    refine ⟨hsound.inside, fun hw => ?_, fun he => hsound.accepted (.inl he)⟩
    exact not_walked_of_wrong hw true (hread true (hsound.accepted (.inr hw)))
  · rintro ⟨hoff, hw, he⟩
    exact {
      inside := hoff
      accepted := fun hs => he (hs.resolve_right hw)
      unique := fun hs hf => by
        have htrue := expression_of_walked (hs.resolve_right hw) []
        exact absurd (htrue.symm.trans (expression_of_walked (hread false hf) [])) (by decide)
      complete := fun ht => .inl (hread true ht) }

/-- **`test` and `[` evaluate the grammar exactly on the sound arguments**, whatever is asked of the side
that is not evaluated. -/
theorem test_meets_iff (stat : Word → Option Stat) (skipped : List Word → Prop) (args : List Word) :
    (Meets stat skipped args (cmdTest stat (['t', 'e', 's', 't'] :: args)) ↔
        Sound stat skipped false args) ∧
      (Meets stat skipped args (cmdLbracket stat (['['] :: args ++ [[']']])) ↔
        Sound stat skipped true args) ∧
      (args.getLast? ≠ some [']'] → cmdLbracket stat (['['] :: args) = some (-1)) ∧
      ∀ bracket, ¬Misread stat skipped args →
        (Sound stat skipped bracket args ↔
          ¬OffEnd stat bracket args ∧ ¬Wrong stat bracket args true ∧
            (Expression stat walked args true → Expression stat (documented skipped) args true)) := by
  refine ⟨?_, ?_, fun h => ?_, fun bracket h => sound_iff h⟩
  · have h := meets_iff_sound stat skipped false args
    simpa [cmdTest, closing] using h
  · have hlast : (['['] :: args ++ [[']']]).getLast? = some [']'] := List.getLast?_append_cons _ _ []
    have h := meets_iff_sound stat skipped true args
    rw [cmdLbracket, if_pos hlast]
    simpa [closing] using h
  · have hlast : (['['] :: args).getLast? ≠ some [']'] := by
      cases hl : args.getLast? with
      | none => rw [List.getLast?_eq_none_iff.mp hl]; decide
      | some w => rw [List.getLast?_cons, hl]; simpa [hl] using h
    rw [cmdLbracket, if_neg hlast]

theorem expression_length {R : Reader} {v : Bool} (h : Expression stat R args v) :
    2 ≤ args.length := by
  have hsimple : ∀ {s w}, Simple stat R s w → 2 ≤ s.length := by
    intro s w hs
    cases hs <;> simp
  induction h with
  | simple hs => exact hsimple hs
  | negation _ _ ih => simp; omega
  | and hs | andSkipped hs | or hs | orSkipped hs => have := hsimple hs; simp; omega

/-- `test ! a` is no expression and succeeds, `test a = a -a` uses the null pointer at the end of the
vector, and `test -1 -lt 2` is a true expression and fails. -/
theorem test_not_meets :
    (¬Meets (fun _ => none) (fun _ => True) [bang, ['a']]
        (cmdTest (fun _ => none) [['t', 'e', 's', 't'], bang, ['a']])) ∧
      (¬Meets (fun _ => none) (fun _ => True) [['a'], ['='], ['a'], dashA]
        (cmdTest (fun _ => none) [['t', 'e', 's', 't'], ['a'], ['='], ['a'], dashA])) ∧
      ¬Meets (fun _ => none) (fun _ => True) [['-', '1'], ['-', 'l', 't'], ['2']]
        (cmdTest (fun _ => none) [['t', 'e', 's', 't'], ['-', '1'], ['-', 'l', 't'], ['2']]) := by
  refine ⟨?_, ?_, ?_⟩
  · rintro ⟨n, hn, -, hfails⟩
    refine hfails ?_ (Option.some.inj (hn.symm.trans (by decide)))
    rintro ⟨v, hv⟩
    generalize hargs : [bang, ['a']] = args at hv
    cases hv with
    | simple hs =>
      cases hs with
      | unary _ hv =>
        obtain ⟨rfl, rfl⟩ : bang = _ ∧ ['a'] = _ := by simpa using hargs
        have hnone : unaryValue (fun _ => none) bang ['a'] = none := by decide
        exact nomatch hnone.symm.trans hv
      | binary => simp at hargs
    | negation _ hrest =>
      obtain ⟨-, rfl⟩ := List.cons.inj hargs
      exact absurd (expression_length hrest) (by decide)
    | and hs | andSkipped hs | or hs | orSkipped hs =>
      have hlen := congrArg List.length hargs
      have htwo := expression_length (.simple hs)
      simp at hlen
      omega
  · rintro ⟨n, hn, -⟩
    exact absurd hn (by rw [show cmdTest (fun _ => none)
      [['t', 'e', 's', 't'], ['a'], ['='], ['a'], dashA] = none by decide]; simp)
  · rintro ⟨n, hn, hvalue, -⟩
    have hread : Expression (fun _ => none) (documented fun _ => True)
        [['-', '1'], ['-', 'l', 't'], ['2']] true := .simple (.binary trivial (by decide))
    have ht := (hvalue true hread).mpr rfl
    exact absurd (hn.symm.trans (show _ = some testFalse by decide)) (by rw [ht]; decide)

end Gpmx.Nsh.Test
