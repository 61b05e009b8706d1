import Gpmx.Nsh.Test

/-!
# NSH: `test` and its grammar

The grammar at the head of `nsh_test.c`, with the truth values, and what `expression` makes of arguments.
The grammar is ambiguous, `-n = -n` is read in two ways; `expression` tells the forms apart by the first
word alone. What it does with arguments it cannot read is a relation of its own (`Wrong`, `OffEnd`).

1. A simple expression in front: one equation for the end of the arguments and one for a word behind it.
2. Each of the three relations says what `expression` returns, by induction on the relation.
3. One of the three holds of all arguments, by induction on their number.
-/

namespace Gpmx.Nsh.Test

inductive Form where
  | negation
  | unary
  | binary
deriving DecidableEq

/-- The form `expression` takes an expression for, by its first word. -/
def form (first : Word) : Form :=
  if first = bang then .negation else if first.head? = some '-' then .unary else .binary

/-- A way to read the grammar: the forms an expression with a first word can have, the integers, and what
is asked of the right side of `-a` or `-o` that is not evaluated. -/
structure Reader where
  picks : Word → Form → Prop
  number : Word → Option Int
  skipped : List Word → Prop

def documented (skipped : List Word → Prop) : Reader := ⟨fun _ _ => True, integer, skipped⟩

def walked : Reader := ⟨fun first f => form first = f, longInteger, fun _ => True⟩

inductive Simple (stat : Word → Option Stat) (R : Reader) : List Word → Bool → Prop
  | unary {op arg v} : R.picks op .unary → unaryValue stat op arg = some v → Simple stat R [op, arg] v
  | binary {left op right v} : R.picks left .binary → binaryValue R.number left op right = some v →
      Simple stat R [left, op, right] v

/-- The arguments are an expression, and `v` is its truth value. -/
inductive Expression (stat : Word → Option Stat) (R : Reader) : List Word → Bool → Prop
  | simple {s v} : Simple stat R s v → Expression stat R s v
  | negation {rest v} : R.picks bang .negation → Expression stat R rest v →
      Expression stat R (bang :: rest) (!v)
  | and {s rest v} : Simple stat R s true → Expression stat R rest v →
      Expression stat R (s ++ dashA :: rest) v
  | andSkipped {s rest} : Simple stat R s false → R.skipped rest →
      Expression stat R (s ++ dashA :: rest) false
  | or {s rest v} : Simple stat R s false → Expression stat R rest v →
      Expression stat R (s ++ dashO :: rest) v
  | orSkipped {s rest} : Simple stat R s true → R.skipped rest →
      Expression stat R (s ++ dashO :: rest) true

inductive Absent (stat : Word → Option Stat) : List Word → Prop
  | mk {op arg} : form op = .unary → unaryValue stat op arg = none → stat arg = none →
      Absent stat [op, arg]

def Head (stat : Word → Option Stat) (s : List Word) (v : Bool) : Prop :=
  Simple stat walked s v ∨ Absent stat s ∧ v = false

inductive Onward (stat : Word → Option Stat) : List Word → List Word → Prop
  | and {s rest} : Head stat s true → Onward stat rest (s ++ dashA :: rest)
  | or {s rest} : Head stat s false → Onward stat rest (s ++ dashO :: rest)

/-- The part of the arguments that is evaluated is no expression, and `b` is what this comes to: false
where it is found, and turned over by each `!` in front of it. `bracket` says that a `]` follows. -/
inductive Wrong (stat : Word → Option Stat) (bracket : Bool) : List Word → Bool → Prop
  | nothing : bracket = true → Wrong stat bracket [] false
  | negatedNothing : Wrong stat bracket [bang] false
  | negated {rest b} : rest ≠ [] → Wrong stat bracket rest b → Wrong stat bracket (bang :: rest) (!b)
  | unaryShort {op} : form op = .unary → Wrong stat bracket [op] false
  | binaryShort {left more} : form left = .binary → more.length < 2 →
      Wrong stat bracket (left :: more) false
  | unaryUnknown {op arg rest} : form op = .unary → unaryValue stat op arg = none →
      (stat arg).isSome → Wrong stat bracket (op :: arg :: rest) false
  | binaryUnknown {left op right rest} : form left = .binary →
      binaryValue longInteger left op right = none →
      Wrong stat bracket (left :: op :: right :: rest) false
  | trailing {s v word rest} : Head stat s v → word ≠ dashA → word ≠ dashO →
      Wrong stat bracket (s ++ word :: rest) false
  | onward {rest args b} : Onward stat rest args → Wrong stat bracket rest b →
      Wrong stat bracket args b
  | absent {s} : Absent stat s → Wrong stat bracket s false
  | absentAnd {s rest} : Absent stat s → Wrong stat bracket (s ++ dashA :: rest) false
  | absentOr {s rest v} : Absent stat s → Expression stat walked rest v →
      Wrong stat bracket (s ++ dashO :: rest) v

/-- The code comes to the end of the vector: nothing follows a connective, and no `]`. -/
inductive OffEnd (stat : Word → Option Stat) (bracket : Bool) : List Word → Prop
  | nothing : bracket = false → OffEnd stat bracket []
  | negated {rest} : rest ≠ [] → OffEnd stat bracket rest → OffEnd stat bracket (bang :: rest)
  | onward {rest args} : Onward stat rest args → OffEnd stat bracket rest → OffEnd stat bracket args

variable {stat : Word → Option Stat} {bracket : Bool} {args : List Word}

def closing (bracket : Bool) : List Word := if bracket then [[']']] else []

/-! ## A simple expression in front -/

theorem form_bang : form bang = .negation := rfl

variable {first arg left right : Word}

theorem form_unary (h : form first = .unary) : first ≠ bang ∧ first.head? = some '-' := by
  unfold form at h
  split_ifs at h with hb hm
  exact ⟨hb, hm⟩

theorem form_binary (h : form first = .binary) : first ≠ bang ∧ ¬first.head? = some '-' := by
  unfold form at h
  split_ifs at h with hb hm
  exact ⟨hb, hm⟩

variable {op : Word} {v : Bool} {s rest : List Word}

theorem head_value (h : Head stat [op, arg] v) :
    form op = .unary ∧ unaryexpression stat op arg = status v := by
  rw [unaryexpression_eq]
  rcases h with h | ⟨h, rfl⟩
  · cases h with
    | unary hf hv => exact ⟨hf, by simp [hv]⟩
  · cases h with
    | mk hf hv hs => exact ⟨hf, by simp [hv, hs]; rfl⟩

theorem head_value_binary (h : Head stat [left, op, right] v) :
    form left = .binary ∧ binaryexpression left op right = status v := by
  rw [binaryexpression_eq]
  rcases h with h | ⟨h, rfl⟩
  · cases h with
    | binary hf hv => exact ⟨hf, by simp [show binaryValue longInteger left op right = some v from hv]⟩
  · cases h

theorem head_words (h : Head stat s v) :
    (∃ op arg, s = [op, arg]) ∨ ∃ left op right, s = [left, op, right] := by
  rcases h with h | ⟨h, -⟩
  · cases h with
    | unary => exact .inl ⟨_, _, rfl⟩
    | binary => exact .inr ⟨_, _, _, rfl⟩
  · cases h with
    | mk => exact .inl ⟨_, _, rfl⟩

theorem expression_head (h : Head stat s v) (tail : List Word) :
    expression stat s.length (s ++ tail) = some (status v) := by
  obtain ⟨op, arg, rfl⟩ | ⟨left, op, right, rfl⟩ := head_words h
  · obtain ⟨hf, hv⟩ := head_value h
    have ⟨hb, hm⟩ := form_unary hf
    simp [expression, hb, hm, hv]
  · obtain ⟨hf, hv⟩ := head_value_binary h
    have ⟨hb, hm⟩ := form_binary hf
    simp [expression, hb, hm, hv]

theorem expression_head_cons (h : Head stat s v) (word : Word) (rest tail : List Word) :
    expression stat (s ++ word :: rest).length (s ++ word :: rest ++ tail) =
      connective (status v) word (expression stat rest.length (rest ++ tail)) := by
  obtain ⟨op, arg, rfl⟩ | ⟨left, op, right, rfl⟩ := head_words h
  · obtain ⟨hf, hv⟩ := head_value h
    have ⟨hb, hm⟩ := form_unary hf
    simp [expression, hb, hm, hv, show ¬rest.length + 1 + 1 + 1 < 2 by omega]
  · obtain ⟨hf, hv⟩ := head_value_binary h
    have ⟨hb, hm⟩ := form_binary hf
    simp [expression, hb, hm, hv, show ¬rest.length + 1 + 1 + 1 + 1 < 3 by omega]

theorem expression_onward (h : Onward stat rest args) (tail : List Word) :
    expression stat args.length (args ++ tail) = expression stat rest.length (rest ++ tail) := by
  cases h with
  | and hs => rw [expression_head_cons hs]; simp [connective]
  | or hs => rw [expression_head_cons hs]; simp [connective, show dashO ≠ dashA by decide]

theorem expression_bang (h : rest ≠ []) (tail : List Word) :
    expression stat (bang :: rest).length (bang :: rest ++ tail) =
      (expression stat rest.length (rest ++ tail)).map fun ret =>
        if ret = testTrue then testFalse else testTrue := by
  have hlen : ¬rest.length + 1 < 2 := by have := List.length_pos_iff.mpr h; omega
  rw [List.cons_append, List.length_cons, expression.eq_def]
  simp only [if_true, hlen, if_false, Nat.add_sub_cancel]

theorem status_not (v : Bool) :
    (if status v = testTrue then testFalse else testTrue) = status (!v) := by
  cases v <;> rfl

theorem not_expression_nil {R : Reader} : ¬Expression stat R [] v := by
  intro h
  generalize hn : ([] : List Word) = args at h
  cases h with
  | simple hs => cases hs <;> cases hn
  | negation => cases hn
  | and | andSkipped | or | orSkipped => simp at hn

/-! ## What `expression` returns -/

/-- **An expression, read as the code reads it, has its truth value.** -/
theorem expression_of_walked (h : Expression stat walked args v) (tail : List Word) :
    expression stat args.length (args ++ tail) = some (status v) := by
  induction h with
  | simple hs => exact expression_head (.inl hs) tail
  | @negation rest v hf hrest ih =>
    have hne : rest ≠ [] := by rintro rfl; exact not_expression_nil hrest
    rw [expression_bang hne, ih, Option.map_some, status_not]
  | and hs _ ih => exact (expression_onward (.and (.inl hs)) tail).trans ih
  | or hs _ ih => exact (expression_onward (.or (.inl hs)) tail).trans ih
  | andSkipped hs => rw [expression_head_cons (.inl hs)]; simp [connective]; rfl
  | orSkipped hs =>
    rw [expression_head_cons (.inl hs)]
    simp [connective, show dashO ≠ dashA by decide]
    rfl

/-- **Arguments that are wrong come to `b`.** -/
theorem expression_of_wrong {b : Bool} (h : Wrong stat bracket args b) :
    expression stat args.length (args ++ closing bracket) = some (status b) := by
  induction h with
  | nothing hb => subst hb; rfl
  | negatedNothing => cases bracket <;> rfl
  | negated hne _ ih => rw [expression_bang hne, ih, Option.map_some, status_not]
  | unaryShort hf =>
    have ⟨hb, hm⟩ := form_unary hf
    cases bracket <;> simp [closing, expression, hb, hm] <;> rfl
  | @binaryShort left more hf hlen =>
    have ⟨hb, hm⟩ := form_binary hf
    have hlt : more.length + 1 < 3 := by omega
    rw [List.cons_append, List.length_cons, expression.eq_def]
    simp only [hb, hm, hlt, if_true, if_false]
    rfl
  | @unaryUnknown op arg rest hf hv hs =>
    have ⟨hb, hm⟩ := form_unary hf
    have herr : unaryexpression stat op arg = testError := by simp [unaryexpression_eq, hv, hs]
    simp [expression, hb, hm, herr]
    rfl
  | @binaryUnknown left op right rest hf hv =>
    have ⟨hb, hm⟩ := form_binary hf
    have herr : binaryexpression left op right = testError := by simp [binaryexpression_eq, hv]
    simp [expression, hb, hm, herr]
    rfl
  | trailing hs ha ho => rw [expression_head_cons hs]; simp [connective, ha, ho]; rfl
  | onward ho _ ih => exact (expression_onward ho _).trans ih
  | absent ha => exact expression_head (.inr ⟨ha, rfl⟩) _
  | absentAnd ha => rw [expression_head_cons (.inr ⟨ha, rfl⟩)]; simp [connective]; rfl
  | absentOr ha he => exact (expression_onward (.or (.inr ⟨ha, rfl⟩)) _).trans (expression_of_walked he _)

theorem expression_of_offEnd (h : OffEnd stat bracket args) :
    expression stat args.length (args ++ closing bracket) = none := by
  induction h with
  | nothing hb => subst hb; rfl
  | negated hne _ ih => rw [expression_bang hne, ih, Option.map_none]
  | onward ho _ ih => exact (expression_onward ho _).trans ih

/-! ## One of the three holds -/

def Settled (stat : Word → Option Stat) (bracket : Bool) (args : List Word) : Prop :=
  (∃ v, Expression stat walked args v) ∨ (∃ b, Wrong stat bracket args b) ∨ OffEnd stat bracket args

theorem settled_nil : Settled stat bracket [] := by
  cases bracket
  · exact .inr (.inr (.nothing rfl))
  · exact .inr (.inl ⟨_, .nothing rfl⟩)

theorem settled_bang (h : Settled stat bracket rest) : Settled stat bracket (bang :: rest) := by
  by_cases hne : rest = []
  · subst hne; exact .inr (.inl ⟨_, .negatedNothing⟩)
  rcases h with ⟨v, hv⟩ | ⟨b, hb⟩ | hoff
  · exact .inl ⟨_, .negation rfl hv⟩
  · exact .inr (.inl ⟨_, .negated hne hb⟩)
  · exact .inr (.inr (.negated hne hoff))

theorem settled_simple (hs : Simple stat walked s v) (h : Settled stat bracket rest.tail) :
    Settled stat bracket (s ++ rest) := by
  cases rest with
  | nil => exact .inl ⟨v, by simpa using .simple hs⟩
  | cons word rest =>
    by_cases ha : word = dashA
    · subst ha
      cases v with
      | false => exact .inl ⟨_, .andSkipped hs trivial⟩
      | true =>
        rcases h with ⟨v, hv⟩ | ⟨b, hb⟩ | hoff
        · exact .inl ⟨_, .and hs hv⟩
        · exact .inr (.inl ⟨_, .onward (.and (.inl hs)) hb⟩)
        · exact .inr (.inr (.onward (.and (.inl hs)) hoff))
    by_cases ho : word = dashO
    · subst ho
      cases v with
      | true => exact .inl ⟨_, .orSkipped hs trivial⟩
      | false =>
        rcases h with ⟨v, hv⟩ | ⟨b, hb⟩ | hoff
        · exact .inl ⟨_, .or hs hv⟩
        · exact .inr (.inl ⟨_, .onward (.or (.inl hs)) hb⟩)
        · exact .inr (.inr (.onward (.or (.inl hs)) hoff))
    exact .inr (.inl ⟨_, .trailing (.inl hs) ha ho⟩)

theorem settled_absent (hs : Absent stat s) (h : Settled stat bracket rest.tail) :
    Settled stat bracket (s ++ rest) := by
  cases rest with
  | nil => exact .inr (.inl ⟨_, by simpa using .absent hs⟩)
  | cons word rest =>
    by_cases ha : word = dashA
    · subst ha; exact .inr (.inl ⟨_, .absentAnd hs⟩)
    by_cases ho : word = dashO
    · subst ho
      rcases h with ⟨v, hv⟩ | ⟨b, hb⟩ | hoff
      · exact .inr (.inl ⟨_, .absentOr hs hv⟩)
      · exact .inr (.inl ⟨_, .onward (.or (.inr ⟨hs, rfl⟩)) hb⟩)
      · exact .inr (.inr (.onward (.or (.inr ⟨hs, rfl⟩)) hoff))
    exact .inr (.inl ⟨_, .trailing (.inr ⟨hs, rfl⟩) ha ho⟩)

theorem settled_unary (hf : form op = .unary) (h : Settled stat bracket rest.tail) :
    Settled stat bracket (op :: arg :: rest) := by
  cases hv : unaryValue stat op arg with
  | some v => exact settled_simple (s := [op, arg]) (.unary hf hv) h
  | none =>
    cases hs : stat arg with
    | none => exact settled_absent (s := [op, arg]) (.mk hf hv hs) h
    | some buf => exact .inr (.inl ⟨_, .unaryUnknown hf hv (by simp [hs])⟩)

theorem settled_binary (hf : form left = .binary) (h : Settled stat bracket rest.tail) :
    Settled stat bracket (left :: op :: right :: rest) := by
  cases hv : binaryValue longInteger left op right with
  | some v => exact settled_simple (s := [left, op, right]) (.binary hf hv) h
  | none => exact .inr (.inl ⟨_, .binaryUnknown hf hv⟩)

/-- **Of any arguments one of the three holds.** The induction is on a bound of their number: each form
leaves fewer. -/
theorem settled (n : Nat) : ∀ args : List Word, args.length ≤ n → Settled stat bracket args := by
  induction n with
  | zero => intro args h; rw [List.length_eq_zero_iff.mp (Nat.le_zero.mp h)]; exact settled_nil
  | succ n ih =>
    intro args h
    cases args with
    | nil => exact settled_nil
    | cons first rest =>
      have hrest : rest.length ≤ n := by simpa using h
      cases hf : form first with
      | negation =>
        have hb : first = bang := by
          unfold form at hf
          split_ifs at hf with hb
          exact hb
        exact hb ▸ settled_bang (ih rest hrest)
      | unary =>
        cases rest with
        | nil => exact .inr (.inl ⟨_, .unaryShort hf⟩)
        | cons arg rest =>
          exact settled_unary hf (ih _ (by simp at hrest ⊢; omega))
      | binary =>
        match rest, hrest with
        | [], _ | [op], _ => exact .inr (.inl ⟨_, .binaryShort hf (by simp)⟩)
        | op :: right :: rest, hrest =>
          exact settled_binary hf (ih _ (by simp at hrest ⊢; omega))

end Gpmx.Nsh.Test
