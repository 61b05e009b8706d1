import Gpmx.Nsh.Argument
import Gpmx.Nsh.VarMap

/-!
# NSH: how long the argument vector gets

Both loops that build the vector go on while `argc` is below the last entry. The inner one may reach
the last entry itself, and then the outer one still counts one more. That happens where the words of
an expanded variable do not end before the last entry, and it does no harm only where a `&` is taken
off again.
-/

namespace Gpmx.Nsh.Args

open List

/-! ## Words -/

def firstWord (s : List Char) : List Char := s.takeWhile (!isSeparator ·)

def afterWord (s : List Char) : List Char :=
  (s.drop ((firstWord s).length + 1)).dropWhile isSeparator

/-- The string after at most `room` cuts. -/
def pieces : (room : Nat) → List Char → List (List Char)
  | 0, s => [s]
  | room + 1, s =>
    if (firstWord s).length = s.length then [s] else firstWord s :: pieces room (afterWord s)

def wordsOf (s : List Char) : List (List Char) := pieces s.length s

theorem length_firstWord_le (s : List Char) : (firstWord s).length ≤ s.length :=
  ( takeWhile_prefix _).length_le

variable {s : List Char} {v : Argv}

theorem firstWord_eq_self (h : (firstWord s).length = s.length) : firstWord s = s :=
  ( takeWhile_prefix _).eq_of_length h

theorem length_afterWord_lt (h : (firstWord s).length ≠ s.length) :
    (afterWord s).length < s.length := by
  have hle := length_firstWord_le s
  have hdrop := (dropWhile_suffix isSeparator (l := s.drop ((firstWord s).length + 1))).length_le
  rw [length_drop] at hdrop
  unfold afterWord
  omega

theorem pieces_of_le (n : Nat) : ∀ s : List Char, s.length ≤ n → pieces n s = wordsOf s := by
  induction n using Nat.strong_induction_on with
  | _ n ih =>
    intro s hle
    cases n with
    | zero =>
      unfold wordsOf
      rw [Nat.eq_zero_of_le_zero hle]
    | succ n =>
      by_cases h : (firstWord s).length = s.length
      · unfold wordsOf
        cases hs : s.length <;> simp [pieces, h]
      · have hlt := length_afterWord_lt h
        obtain ⟨k, hk⟩ : ∃ k, s.length = k + 1 := ⟨s.length - 1, by omega⟩
        unfold wordsOf
        rw [hk, pieces, pieces, if_neg h, if_neg h, ih n (by omega) _ (by omega),
          ih k (by omega) _ (by omega)]

theorem wordsOf_of_eq (h : (firstWord s).length = s.length) : wordsOf s = [s] := by
  unfold wordsOf
  cases hs : s.length <;> simp [pieces, h]

theorem wordsOf_of_ne (h : (firstWord s).length ≠ s.length) :
    wordsOf s = firstWord s :: wordsOf (afterWord s) := by
  have hlt := length_afterWord_lt h
  rw [← pieces_of_le (s.length + 1) s (by omega), pieces, if_neg h,
    pieces_of_le s.length _ (by omega)]

theorem pieces_ne_nil (room : Nat) (s : List Char) : pieces room s ≠ [] := by
  cases room with
  | zero => simp [pieces]
  | succ room =>
    rw [pieces]
    split <;> simp

theorem wordsOf_ne_nil (s : List Char) : wordsOf s ≠ [] := pieces_ne_nil _ s

theorem length_pieces_le (room : Nat) : ∀ s : List Char, (pieces room s).length ≤ room + 1 := by
  induction room with
  | zero => simp [pieces]
  | succ room ih =>
    intro s
    rw [pieces]
    split
    · simp
    · simpa using ih (afterWord s)

theorem length_wordsOf_le (s : List Char) : (wordsOf s).length ≤ s.length + 1 :=
  length_pieces_le s.length s

theorem pieces_of_fits (room : Nat) : ∀ s : List Char, (wordsOf s).length ≤ room + 1 →
    pieces room s = wordsOf s := by
  induction room with
  | zero =>
    intro s hlen
    by_cases h : (firstWord s).length = s.length
    · simp [pieces, wordsOf_of_eq h]
    · have hne := length_pos_iff.mpr (wordsOf_ne_nil (afterWord s))
      rw [wordsOf_of_ne h, length_cons] at hlen
      omega
  | succ room ih =>
    intro s hlen
    by_cases h : (firstWord s).length = s.length
    · simp [pieces, h, wordsOf_of_eq h]
    · rw [wordsOf_of_ne h, length_cons] at hlen
      rw [pieces, if_neg h, wordsOf_of_ne h, ih _ (by omega)]

theorem pieces_of_exceeds (room : Nat) : ∀ s : List Char, room < (wordsOf s).length →
    (pieces room s).length = room + 1 ∧
      ∃ r, (pieces room s).getLast? = some r ∧ wordsOf r = (wordsOf s).drop room := by
  induction room with
  | zero =>
    intro s _
    exact ⟨rfl, s, rfl, rfl⟩
  | succ room ih =>
    intro s hlen
    by_cases h : (firstWord s).length = s.length
    · rw [wordsOf_of_eq h] at hlen
      simp at hlen
    · rw [wordsOf_of_ne h] at hlen ⊢
      obtain ⟨hcount, r, hlast, hwords⟩ := ih (afterWord s) (by simpa using hlen)
      rw [pieces, if_neg h]
      refine ⟨by simpa using hcount, r, ?_, by simpa using hwords⟩
      rw [getLast?_cons, hlast]
      rfl

variable {w : List Char} {α : Type} {k room : Nat} {arg : Arg} {used : Nat}

theorem wordsOf_eq_singleton (h : wordsOf s = [w]) : s = w := by
  by_cases heq : (firstWord s).length = s.length
  · rw [wordsOf_of_eq heq] at h
    simpa using h
  · rw [wordsOf_of_ne heq] at h
    have hnil : wordsOf (afterWord s) = [] := by simpa using congrArg List.tail h
    exact absurd hnil (wordsOf_ne_nil _)

/-! ## The inner loop -/

/-- Where the first word of `arg` ends, and the next one begins. -/
def nextEntry (vars : ConsoleStdio) (arg : Arg) : Arg :=
  let s := arg.string vars
  arg.advance ((firstWord s).length + 1
    + ((s.drop ((firstWord s).length + 1)).takeWhile isSeparator).length)

def cutOnce (v : Argv) (arg : Arg) : Argv :=
  let w := v.terminate arg (firstWord (arg.string v.vars)).length
  { w with argc := w.argc + 1 }.store (w.argc + 1) (some (nextEntry v.vars arg))

theorem splitArgument_succ (room : Nat) (v : Argv) (arg : Arg) :
    splitArgument (room + 1) v arg
      = if (firstWord (arg.string v.vars)).length = (arg.string v.vars).length then v
        else splitArgument room (cutOnce v arg) (nextEntry v.vars arg) := rfl

@[simp] theorem argc_terminate (v : Argv) (arg : Arg) (k : Nat) : (v.terminate arg k).argc = v.argc := by
  cases arg <;> rfl

@[simp] theorem stores_terminate (v : Argv) (arg : Arg) (k : Nat) :
    (v.terminate arg k).stores = v.stores := by
  cases arg <;> rfl

@[simp] theorem argc_cutOnce (v : Argv) (arg : Arg) : (cutOnce v arg).argc = v.argc + 1 := by
  simp [cutOnce, Argv.store]

@[simp] theorem stores_cutOnce (v : Argv) (arg : Arg) :
    (cutOnce v arg).stores = (v.argc + 1) :: v.stores := by
  simp [cutOnce, Argv.store]

theorem argv_cutOnce (v : Argv) (arg : Arg) :
    (cutOnce v arg).argv (v.argc + 1) = some (nextEntry v.vars arg) := by
  simp [cutOnce, Argv.store]

theorem vars_cutOnce_congr {w : Argv} (h : v.vars = w.vars) (arg : Arg) :
    (cutOnce v arg).vars = (cutOnce w arg).vars := by
  cases arg <;> simp [cutOnce, Argv.store, Argv.terminate, h]

theorem takeWhile_drop (p : α → Bool) (l : List α) (h : k ≤ (l.takeWhile p).length) :
    (l.drop k).takeWhile p = (l.takeWhile p).drop k := by
  induction k generalizing l with
  | zero => simp
  | succ k ih =>
    cases l with
    | nil => simp
    | cons x l =>
      by_cases hx : p x
      · simp only [takeWhile_cons, hx, if_true, length_cons] at h ⊢
        simpa using ih l (by omega)
      · simp [hx] at h

theorem drop_takeWhile (p : α → Bool) (l : List α) :
    l.drop (l.takeWhile p).length = l.dropWhile p := by
  have h : l = l.takeWhile p ++ l.dropWhile p := by simp
  calc l.drop (l.takeWhile p).length
      = (l.takeWhile p ++ l.dropWhile p).drop (l.takeWhile p).length := by rw [← h]
    _ = l.dropWhile p := drop_left

theorem string_advance (vars : ConsoleStdio) (arg : Arg) (h : k ≤ (arg.string vars).length) :
    (arg.advance k).string vars = (arg.string vars).drop k := by
  cases arg with
  | text s => rfl
  | stored i =>
    show ((vars.bytes.drop (i + k)).takeWhile _) = _
    rw [← drop_drop, takeWhile_drop _ _ h]
    rfl

theorem bytes_terminate (v : Argv) (i k : Nat) :
    (v.terminate (.stored i) k).vars.bytes = v.vars.bytes.set (i + k) nul := by
  cases h : v.vars.varp <;> simp [Argv.terminate, ConsoleStdio.bytes, h]

theorem string_cutOnce (v : Argv) (arg : Arg)
    (h : (firstWord (arg.string v.vars)).length ≠ (arg.string v.vars).length) :
    (nextEntry v.vars arg).string (cutOnce v arg).vars = afterWord (arg.string v.vars) := by
  have hle := length_firstWord_le (arg.string v.vars)
  have hblanks := ( takeWhile_prefix isSeparator
    (l := (arg.string v.vars).drop ((firstWord (arg.string v.vars)).length + 1))).length_le
  rw [length_drop] at hblanks
  have hrest : (nextEntry v.vars arg).string v.vars = afterWord (arg.string v.vars) := by
    unfold nextEntry afterWord
    rw [string_advance _ _ (by omega), ← drop_drop, drop_takeWhile]
  rw [← hrest]
  cases arg with
  | text s => rfl
  | stored i =>
    have hvars : (cutOnce v (.stored i)).vars
        = (v.terminate (.stored i) (firstWord (Arg.string v.vars (.stored i))).length).vars := rfl
    show ((cutOnce v (.stored i)).vars.bytes.drop _).takeWhile _ = (v.vars.bytes.drop _).takeWhile _
    rw [hvars, bytes_terminate, drop_set_of_lt (by omega)]

theorem splitArgument_spec (room : Nat) : ∀ (v : Argv) (arg : Arg), v.argv v.argc = some arg →
    let w := splitArgument room v arg
    w.argc + 1 = v.argc + (pieces room (arg.string v.vars)).length ∧
      (∀ i ∈ w.stores, i ∈ v.stores ∨ i ≤ v.argc + room) ∧
      w.string w.argc = (pieces room (arg.string v.vars)).getLast? := by
  induction room with
  | zero =>
    intro v arg harg
    refine ⟨rfl, fun i hi => .inl hi, ?_⟩
    show (v.argv v.argc).map _ = _
    rw [harg]
    rfl
  | succ room ih =>
    intro v arg harg
    simp only [splitArgument_succ]
    by_cases h : (firstWord (arg.string v.vars)).length = (arg.string v.vars).length
    · rw [if_pos h, pieces, if_pos h]
      refine ⟨rfl, fun i hi => .inl hi, ?_⟩
      show (v.argv v.argc).map _ = _
      rw [harg]
      rfl
    · obtain ⟨hargc, hstores, hlast⟩ := ih (cutOnce v arg) (nextEntry v.vars arg)
        (by rw [argc_cutOnce]; exact argv_cutOnce v arg)
      rw [string_cutOnce v arg h] at hargc hlast
      rw [argc_cutOnce, stores_cutOnce] at hstores
      rw [argc_cutOnce] at hargc
      rw [if_neg h, pieces, if_neg h]
      refine ⟨?_, ?_, ?_⟩
      · rw [length_cons]
        omega
      · intro i hi
        rcases hstores i hi with hmem | hle
        · rcases mem_cons.mp hmem with rfl | hmem
          · exact .inr (by omega)
          · exact .inl hmem
        · exact .inr (by omega)
      · rw [hlast, getLast?_cons]
        cases hp : (pieces room (afterWord (arg.string v.vars))).getLast? with
        | none => exact absurd (getLast?_eq_none_iff.mp hp) (pieces_ne_nil room _)
        | some r => rfl

theorem splitArgument_vars_congr (room : Nat) : ∀ {v w : Argv} (arg : Arg), v.vars = w.vars →
    (splitArgument room v arg).vars = (splitArgument room w arg).vars := by
  induction room with
  | zero => intro v w arg h; exact h
  | succ room ih =>
    intro v w arg h
    rw [splitArgument_succ, splitArgument_succ, h]
    split
    · exact h
    · exact ih _ (vars_cutOnce_congr h arg)

theorem splitArgument_more (room : Nat) : ∀ (v : Argv) (arg : Arg) (k : Nat),
    (wordsOf (arg.string v.vars)).length ≤ room + 1 →
    splitArgument (room + k) v arg = splitArgument room v arg := by
  induction room with
  | zero =>
    intro v arg k hlen
    cases k with
    | zero => rfl
    | succ k =>
      by_cases h : (firstWord (arg.string v.vars)).length = (arg.string v.vars).length
      · rw [Nat.zero_add, splitArgument_succ, if_pos h]
        rfl
      · have hne := length_pos_iff.mpr (wordsOf_ne_nil (afterWord (arg.string v.vars)))
        rw [wordsOf_of_ne h, length_cons] at hlen
        omega
  | succ room ih =>
    intro v arg k hlen
    rw [show room + 1 + k = room + k + 1 by omega, splitArgument_succ, splitArgument_succ]
    by_cases h : (firstWord (arg.string v.vars)).length = (arg.string v.vars).length
    · rw [if_pos h, if_pos h]
    · rw [wordsOf_of_ne h, length_cons] at hlen
      rw [if_neg h, if_neg h, ih _ _ k (by rw [string_cutOnce v arg h]; omega)]

def splitAll (vars : ConsoleStdio) (arg : Arg) : ConsoleStdio :=
  (splitArgument (arg.string vars).length (firstEntry vars arg) arg).vars

theorem splitArgument_vars (h : (wordsOf (arg.string v.vars)).length ≤ room + 1) :
    (splitArgument room v arg).vars = splitAll v.vars arg := by
  have hlen := length_wordsOf_le (arg.string v.vars)
  have hsame := splitArgument_vars_congr (arg.string v.vars).length (v := v)
    (w := firstEntry v.vars arg) arg rfl
  unfold splitAll
  rw [← hsame]
  rcases Nat.le_total room (arg.string v.vars).length with hle | hle
  · obtain ⟨k, hk⟩ := Nat.exists_eq_add_of_le hle
    rw [hk, splitArgument_more room v arg k h]
  · obtain ⟨k, hk⟩ := Nat.exists_eq_add_of_le hle
    rw [hk, splitArgument_more _ v arg k hlen]

/-! ## The outer loop -/

/-- Expansions that read nothing but strings; what comes out of them is open. -/
def total (f : ConsoleStdio → List Char → Arg × Bool × ConsoleStdio) : Expand :=
  fun vars s => some (f vars s)

variable {b : Build} {f : ConsoleStdio → List Char → Arg × Bool × ConsoleStdio}

/-- The words of the first `n` arguments on the line: an argument that came out of a variable has
one entry for each of its words. -/
def argWords (b : Build) (f : ConsoleStdio → List Char → Arg × Bool × ConsoleStdio) :
    (n : Nat) → ConsoleStdio → List Char → List (List (List Char))
  | 0, _, _ => []
  | n + 1, vars, saveptr =>
    match nshArgument b (total f) true vars saveptr with
    | some (some (arg, env, vars, saveptr)) =>
      if env then
        wordsOf (arg.string vars) :: argWords b f n (splitAll vars arg) saveptr
      else
        [arg.string vars] :: argWords b f n vars saveptr
    | _ => []

/-- An argument with the words `ws` that begins at `argv[used]` ends before the last entry, or one
behind and its last word is a `&` that is taken off again. -/
def EndsInside (b : Build) (used : Nat) (ws : List (List Char)) : Prop :=
  used + ws.length ≤ b.maxArgvEntries - 1 ∨
    (b.bg = true ∧ used + ws.length = b.maxArgvEntries ∧ ws.getLast? = some ['&'])

/-- Every argument that begins before the last entry of `argv` ends inside of it. -/
def Fits (b : Build) (used : Nat) (args : List (List (List Char))) : Prop :=
  ∀ pre ws post, args = pre ++ ws :: post →
    used + (pre.map List.length).sum < b.maxArgvEntries - 1 →
    EndsInside b (used + (pre.map List.length).sum) ws

theorem maxArgvEntries_pos (b : Build) : 3 < b.maxArgvEntries := by
  unfold Build.maxArgvEntries
  split <;> omega

theorem fits_nil (used : Nat) : Fits b used [] := by
  intro pre ws post h
  simp at h

theorem fits_of_full (h : b.maxArgvEntries - 1 ≤ used) (args : List (List (List Char))) :
    Fits b used args := by
  intro pre ws post _ hlt
  omega

theorem fits_cons {ws : List (List Char)} {args : List (List (List Char))} :
    Fits b used (ws :: args) ↔
      (used < b.maxArgvEntries - 1 → EndsInside b used ws) ∧ Fits b (used + ws.length) args := by
  constructor
  · intro h
    refine ⟨fun hlt => ?_, fun pre vs post hargs hlt => ?_⟩
    · simpa using h [] ws args rfl (by simpa using hlt)
    · have hsum : used + ((ws :: pre).map List.length).sum
          = used + ws.length + (pre.map List.length).sum := by
        simp
        omega
      have hends := h (ws :: pre) vs post (by rw [hargs]; rfl) (by rw [hsum]; exact hlt)
      rwa [hsum] at hends
  · rintro ⟨hhead, htail⟩ pre vs post hargs hlt
    cases pre with
    | nil =>
      obtain ⟨rfl, rfl⟩ : ws = vs ∧ args = post := by simpa using hargs
      simpa using hhead (by simpa using hlt)
    | cons w pre =>
      obtain ⟨rfl, rfl⟩ : ws = w ∧ args = pre ++ vs :: post := by simpa using hargs
      have hsum : used + ((ws :: pre).map List.length).sum
          = used + ws.length + (pre.map List.length).sum := by
        simp
        omega
      rw [hsum] at hlt ⊢
      exact htail pre vs post rfl hlt

/-- What the outer loop leaves so that the vector still ends inside of `argv`. -/
def Leaves (b : Build) (v : Argv) : Prop :=
  v.argc ≤ b.maxArgvEntries - 1 ∨
    (b.bg = true ∧ v.argc = b.maxArgvEntries ∧ v.string (v.argc - 1) = some ['&'])

theorem last_piece_iff {r : List Char} (hw : (firstWord w).length = w.length)
    (hlen : room < (wordsOf s).length) (h : wordsOf r = (wordsOf s).drop room) :
    r = w ↔ (wordsOf s).length = room + 1 ∧ (wordsOf s).getLast? = some w := by
  constructor
  · rintro rfl
    rw [wordsOf_of_eq hw] at h
    have hlength := congrArg List.length h
    have hlast := congrArg List.getLast? h
    rw [length_drop] at hlength
    rw [getLast?_drop, if_neg (by omega)] at hlast
    exact ⟨by simp at hlength; omega, hlast.symm⟩
  · rintro ⟨hlength, hlast⟩
    have hone : wordsOf r = [w] := by
      rw [h]
      obtain ⟨x, hx⟩ := length_eq_one_iff.mp (show ((wordsOf s).drop room).length = 1 by
        rw [length_drop]; omega)
      have hlast' := congrArg List.getLast? hx
      rw [getLast?_drop, if_neg (by omega), hlast] at hlast'
      rw [hx, Option.some.inj hlast']
      rfl
    exact wordsOf_eq_singleton hone

theorem nshArgument_total (e : Bool) (vars : ConsoleStdio) (saveptr : List Char) :
    ∃ r, nshArgument b (total f) e vars saveptr = some r := by
  unfold nshArgument
  rcases nextToken b saveptr with _ | ⟨token, rest⟩
  · exact ⟨_, rfl⟩
  · cases token with
    | redirect s | word inQuotes s => exact ⟨_, rfl⟩

theorem splitArgument_fits (harg : v.argv v.argc = some arg) (hargc : v.argc < b.maxArgvEntries - 1) :
    let w := splitArgument (b.maxArgvEntries - 1 - v.argc) v arg
    let ws := wordsOf (arg.string v.vars)
    (∀ i ∈ w.stores, i ∈ v.stores ∨ i < b.maxArgvEntries) ∧
      ((v.argc + ws.length ≤ b.maxArgvEntries - 1 ∧ w.argc + 1 = v.argc + ws.length ∧
          w.vars = splitAll v.vars arg) ∨
        (b.maxArgvEntries ≤ v.argc + ws.length ∧ w.argc + 1 = b.maxArgvEntries ∧
          (w.string w.argc = some ['&'] ↔
            v.argc + ws.length = b.maxArgvEntries ∧ ws.getLast? = some ['&']))) := by
  have hpos := maxArgvEntries_pos b
  obtain ⟨hcount, hstores, hlast⟩ :=
    splitArgument_spec (b.maxArgvEntries - 1 - v.argc) v arg harg
  refine ⟨fun i hi => (hstores i hi).imp id fun hle => by omega, ?_⟩
  by_cases hfit : (wordsOf (arg.string v.vars)).length ≤ b.maxArgvEntries - 1 - v.argc
  · rw [pieces_of_fits _ _ (by omega)] at hcount
    exact .inl ⟨by omega, hcount, splitArgument_vars (by omega)⟩
  · obtain ⟨hfull, r, hr, hwords⟩ := pieces_of_exceeds (b.maxArgvEntries - 1 - v.argc)
      (arg.string v.vars) (by omega)
    have hiff := last_piece_iff (w := ['&']) (by decide) (by omega) hwords
    rw [hfull] at hcount
    refine .inr ⟨by omega, by omega, ?_⟩
    rw [hlast, hr, Option.some_inj, hiff]
    constructor <;>
    · rintro ⟨hlen, hl⟩
      exact ⟨by omega, hl⟩

/-- **The outer loop.** It stores inside of `argv`, and it leaves the vector's end inside of `argv`
if and only if every argument ends there. -/
theorem argLoop_spec (room : Nat) : ∀ (v : Argv) (saveptr : List Char),
    b.maxArgvEntries - 1 - v.argc ≤ room → 1 ≤ v.argc → v.argc ≤ b.maxArgvEntries - 1 →
    (∀ i ∈ v.stores, i < b.maxArgvEntries) →
    ∃ r, argLoop b (total f) room v saveptr = some r ∧ 1 ≤ r.argc ∧ r.argc ≤ b.maxArgvEntries ∧
      (∀ i ∈ r.stores, i < b.maxArgvEntries) ∧
      (Leaves b r ↔ Fits b v.argc (argWords b f room v.vars saveptr)) := by
  have hpos := maxArgvEntries_pos b
  induction room with
  | zero =>
    intro v saveptr hroom hone hargc hstores
    exact ⟨v, rfl, hone, by omega, hstores, iff_of_true (.inl hargc) (fits_nil _)⟩
  | succ room ih =>
    intro v saveptr hroom hone hargc hstores
    rw [argLoop]
    by_cases hlt : v.argc < b.maxArgvEntries - 1
    · obtain ⟨next, hnext⟩ := nshArgument_total (b := b) (f := f) true v.vars saveptr
      rw [if_pos hlt, hnext]
      simp only [Option.bind_eq_bind, Option.bind_some]
      rcases next with _ | ⟨arg, env, vars, rest⟩
      · -- the end of the line
        refine ⟨_, rfl, hone, by simpa [Argv.store] using by omega, ?_, ?_⟩
        · intro i hi
          rcases mem_cons.mp hi with rfl | hi
          · omega
          · exact hstores i hi
        · rw [argWords, hnext]
          exact iff_of_true (.inl hargc) (fits_nil _)
      · have hstored : ∀ i ∈ ({ v with vars }.store v.argc (some arg)).stores,
            i < b.maxArgvEntries := by
          intro i hi
          rcases mem_cons.mp hi with rfl | hi
          · omega
          · exact hstores i hi
        rw [argWords, hnext]
        cases env with
        | false =>
          obtain ⟨r, hr, hr1, hrmax, hrstores, hiff⟩ :=
            ih { ({ v with vars }.store v.argc (some arg)) with argc := v.argc + 1 } rest
              (by show _ - (v.argc + 1) ≤ _; omega) (by show 1 ≤ v.argc + 1; omega)
              (by show v.argc + 1 ≤ _; omega) hstored
          refine ⟨r, hr, hr1, hrmax, hrstores, hiff.trans ?_⟩
          simp only [Bool.false_eq_true, if_false]
          rw [fits_cons]
          exact ⟨fun h => ⟨fun _ => .inl (by simp; omega), h⟩, fun h => h.2⟩
        | true =>
          have hargc1 : ({ v with vars }.store v.argc (some arg)).argc = v.argc := rfl
          have hvars1 : ({ v with vars }.store v.argc (some arg)).vars = vars := rfl
          have harg : ({ v with vars }.store v.argc (some arg)).argv v.argc = some arg := by
            simp [Argv.store]
          simp only [if_true]
          generalize { v with vars }.store v.argc (some arg) = v1 at *
          rw [← hargc1] at harg hlt
          obtain ⟨hcuts, hcase⟩ := splitArgument_fits (b := b) harg hlt
          have hcut : ∀ i ∈ (splitArgument (b.maxArgvEntries - 1 - v1.argc) v1 arg).stores,
              i < b.maxArgvEntries := fun i hi => (hcuts i hi).elim (hstored i) id
          generalize splitArgument (b.maxArgvEntries - 1 - v1.argc) v1 arg = w at *
          rw [hargc1, hvars1] at hcase
          rw [hargc1] at hlt
          rw [fits_cons]
          have hwords := length_pos_iff.mpr (wordsOf_ne_nil (arg.string vars))
          rcases hcase with ⟨hfit, hcount, hvars⟩ | ⟨hover, hcount, hiff⟩
          · -- all words are entries
            obtain ⟨r, hr, hr1, hrmax, hrstores, hiff⟩ := ih { w with argc := w.argc + 1 } rest
              (by show _ - (w.argc + 1) ≤ _; omega) (by show 1 ≤ w.argc + 1; omega)
              (by show w.argc + 1 ≤ _; omega) hcut
            refine ⟨r, hr, hr1, hrmax, hrstores, hiff.trans ?_⟩
            show Fits b (w.argc + 1) (argWords b f room w.vars rest) ↔ _
            rw [hcount, hvars]
            exact ⟨fun h => ⟨fun _ => .inl hfit, h⟩, fun h => h.2⟩
          · -- the vector is full
            have hstop : argLoop b (total f) room { w with argc := w.argc + 1 } rest
                = some { w with argc := w.argc + 1 } := by
              cases room with
              | zero => rfl
              | succ room => rw [argLoop, if_neg (by show ¬w.argc + 1 < _; omega)]
            refine ⟨_, hstop, by show 1 ≤ w.argc + 1; omega, by show w.argc + 1 ≤ _; omega, hcut, ?_⟩
            have hlast : ({ w with argc := w.argc + 1 } : Argv).string (w.argc + 1 - 1)
                = w.string w.argc := rfl
            constructor
            · rintro (hle | ⟨hbg, -, hamp⟩)
              · exact absurd (show w.argc + 1 ≤ _ from hle) (by omega)
              · rw [hlast, hiff] at hamp
                exact ⟨fun _ => .inr ⟨hbg, hamp⟩, fits_of_full (by omega) _⟩
            · rintro ⟨hends, -⟩
              rcases hends hlt with hle | ⟨hbg, hlen, hamp⟩
              · omega
              · exact .inr ⟨hbg, hcount, by rw [hlast, hiff]; exact ⟨hlen, hamp⟩⟩
    · rw [if_neg hlt]
      refine ⟨v, rfl, hone, by omega, hstores, iff_of_true (.inl hargc) (fits_of_full (by omega) _)⟩

/-! ## The whole command -/

/-- `nsh_parse_command` stored into `argv[0]` to `argv[MAX_ARGV_ENTRIES - 1]` only, and the
terminating NULL is one of these entries. -/
def InBounds (b : Build) (v : Argv) : Prop :=
  v.argc ≤ b.maxArgvEntries - 1 ∧ ∀ i ∈ v.stores, i < b.maxArgvEntries

theorem finish_inBounds_iff (hone : 1 ≤ v.argc) (hmax : v.argc ≤ b.maxArgvEntries)
    (hstores : ∀ i ∈ v.stores, i < b.maxArgvEntries) : InBounds b (finish b v) ↔ Leaves b v := by
  have hpos := maxArgvEntries_pos b
  by_cases hamp : (b.bg && decide (v.argc > 1) && v.string (v.argc - 1) == some ['&']) = true
  · have hinside : InBounds b (finish b v) := by
      unfold finish
      rw [if_pos hamp]
      refine ⟨show v.argc - 1 ≤ _ by omega, fun i hi => ?_⟩
      rcases mem_cons.mp hi with rfl | hi
      · show v.argc - 1 < _
        omega
      · exact hstores i hi
    simp only [Bool.and_eq_true, decide_eq_true_eq, beq_iff_eq] at hamp
    refine iff_of_true hinside ?_
    rcases Nat.lt_or_ge (b.maxArgvEntries - 1) v.argc with hgt | hle
    · exact .inr ⟨hamp.1.1, by omega, hamp.2⟩
    · exact .inl hle
  · unfold finish
    rw [if_neg hamp]
    constructor
    · intro h
      exact .inl h.1
    · rintro (hle | ⟨hbg, hargc, hlast⟩)
      · refine ⟨hle, fun i hi => ?_⟩
        rcases mem_cons.mp hi with rfl | hi
        · show v.argc < _
          omega
        · exact hstores i hi
      · refine absurd ?_ hamp
        simp only [Bool.and_eq_true, decide_eq_true_eq, beq_iff_eq]
        exact ⟨⟨hbg, by omega⟩, hlast⟩

/-- The condition on a command line: where a command is run, the arguments behind its name fit. -/
def LineFits (b : Build) (f : ConsoleStdio → List Char → Arg × Bool × ConsoleStdio) (front : Front)
    (vars : ConsoleStdio) (cmdline : List Char) : Prop :=
  ∀ vars' cmd saveptr, commandWord b (total f) front vars cmdline = some (some (vars', cmd, saveptr)) →
    Fits b 1 (argWords b f (b.maxArgvEntries - 1) vars' saveptr)

/-- **The argument vector stays inside of `argv` if and only if every argument that begins before the
last entry ends there**, whatever the arguments, the variables and the expansions are. -/
theorem argv_inBounds_iff (b : Build)
    (f : ConsoleStdio → List Char → Arg × Bool × ConsoleStdio) (front : Front) (vars : ConsoleStdio)
    (cmdline : List Char) :
    ∃ r, nshParseCommand b (total f) front vars cmdline = some r ∧
      ((∀ v ∈ r, InBounds b v) ↔ LineFits b f front vars cmdline) := by
  have hpos := maxArgvEntries_pos b
  obtain ⟨first, hfirst⟩ : ∃ w, commandWord b (total f) front vars cmdline = some w := by
    obtain ⟨next, hnext⟩ := nshArgument_total (b := b) (f := f) false vars cmdline
    unfold commandWord
    rw [hnext]
    rcases next with _ | ⟨cmd, env, vars', saveptr⟩
    · exact ⟨_, rfl⟩
    · exact ⟨_, rfl⟩
  unfold nshParseCommand LineFits
  rw [hfirst]
  rcases first with _ | ⟨vars', cmd, saveptr⟩
  · exact ⟨none, rfl, by simp⟩
  · obtain ⟨w, hw, hone, hmax, hstores, hiff⟩ := argLoop_spec (b := b) (f := f)
      (b.maxArgvEntries - 1) (firstEntry vars' cmd) saveptr (by omega) (Nat.le_refl 1)
      (by show 1 ≤ _; omega) (by simp [firstEntry]; omega)
    refine ⟨some (finish b w), ?_, ?_⟩
    · simp [nshParseArgs, hw]
    · have hone' := (finish_inBounds_iff hone hmax hstores).trans hiff
      constructor
      · intro h vars'' cmd' saveptr' heq
        cases heq
        exact hone'.mp (h _ rfl)
      · intro h v hv
        cases hv
        exact hone'.mpr (h _ _ _ rfl)

/-- The configuration with all of these options, and 15 arguments. -/
def fullBuild : Build :=
  { quote := true, argcat := true, cmdparms := true, bg := true, maxArguments := 15 }

/-- No block and no `nice`. -/
def plainFront : Front := fun vars cmd saveptr => some (vars, cmd, saveptr)

def varA : VarName where
  chars := ['a']
  ne_nil := by simp
  nul_notMem := by decide
  eq_notMem := by decide

def nineteen : CString := ⟨"1 2 3 4 5 6 7 8 9 a b c d e f g h i j".toList, by decide⟩

/-- The session after `set a "1 2 ... j"`. -/
def afterSet : ConsoleStdio :=
  { varp := some (pack [⟨varA, nineteen⟩]), varsz := (pack [⟨varA, nineteen⟩]).length }

theorem argc_echo :
    (nshParseCommand fullBuild (nshArgexpandCat fullBuild false id) plainFront afterSet
      "echo $a".toList).map (Option.map Argv.argc) = some (some 20) := by
  decide

/-- Then `echo $a` has nineteen arguments, and the terminating NULL is stored behind `argv`. -/
theorem argv_overflow :
    ¬∀ (calls : List Call) (p : ConsoleStdio) (cmdline : List Char) (v : Argv),
      runCalls .empty calls = some p →
      nshParseCommand fullBuild (nshArgexpandCat fullBuild false id) plainFront p cmdline
        = some (some v) →
      InBounds fullBuild v := by
  intro h
  obtain ⟨r, hr, hmap⟩ := Option.map_eq_some_iff.mp argc_echo
  obtain ⟨v, rfl, hargc⟩ := Option.map_eq_some_iff.mp hmap
  have hset : runCalls .empty [.set varA nineteen fun _ => nul] = some afterSet := by decide
  have hle : v.argc ≤ 19 := (h _ _ _ v hset hr).1
  omega

end Gpmx.Nsh.Args
