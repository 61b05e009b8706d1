import Gpmx.Nsh.Line
import Gpmx.Nsh.ArgvBound
import Mathlib

/-!
# NSH: when the two scans of a line agree

`nsh_argument` knows a quotation mark and a `#` only where a word begins, `nsh_parse` knows them
everywhere. The proof follows the words of a command: as long as they are whole, both are at the same
place behind each of them, and the first word that is not is a token that differs.
-/

namespace Gpmx.Nsh.Args

open List

/-- The configuration in which nothing but quotation marks, `;`, `#`, `>` and blanks is special. -/
def bareBuild : Build :=
  { quote := false, argcat := false, cmdparms := false, bg := true, maxArguments := 15 }

/-! ## Tokens -/

theorem dropWhile_separator_cases (s : List Char) :
    s.dropWhile isSeparator = [] ∨
      ∃ c t, s.dropWhile isSeparator = c :: t ∧ isSeparator c = false := by
  cases h : s.dropWhile isSeparator with
  | nil => exact .inl rfl
  | cons c t =>
    have hhead := head?_dropWhile_not isSeparator s
    rw [h] at hhead
    exact .inr ⟨c, t, rfl, by simpa using hhead⟩

/-- None of the characters that only some configurations know is in the text. -/
def Ordinary (b : Build) (s : List Char) : Prop :=
  (b.quote = true → '\\' ∉ s) ∧ (b.cmdparms = true → '`' ∉ s)

variable {s t : List Char} {c : Char} {w x p r line : List Char}

variable {b : Build} {α : Type} {xs ys zs : List α}

theorem Ordinary.mono (h : Ordinary b s) (ht : t ⊆ s) : Ordinary b t :=
  ⟨fun hq hm => h.1 hq (ht hm), fun hc hm => h.2 hc (ht hm)⟩

theorem ordinary_bare (s : List Char) : Ordinary bareBuild s :=
  ⟨nofun, nofun⟩

theorem scan_ordinary (term : Char → Bool) (s : List Char) :
    ∀ (prev : Option Char) (quoted : Bool), Ordinary b s → (b.quote = true → prev ≠ some '\\') →
    scan b term prev quoted false s = (s.takeWhile (!term ·), (s.dropWhile (!term ·)).tail) := by
  induction s with
  | nil => intro prev quoted _ _; rfl
  | cons c s ih =>
    intro prev quoted h hprev
    have hfirst : ¬(b.quote && prev == some '\\' && !quoted) = true := by
      simp only [Bool.and_eq_true, beq_iff_eq]
      exact fun hh => hprev hh.1.1 hh.1.2
    have hslash : ¬(b.quote && c == '\\') = true := by
      simp only [Bool.and_eq_true, beq_iff_eq]
      exact fun hh => h.1 hh.1 (by simp [hh.2])
    have htick : ¬(b.cmdparms && c == '`') = true := by
      simp only [Bool.and_eq_true, beq_iff_eq]
      exact fun hh => h.2 hh.1 (by simp [hh.2])
    rw [scan, if_neg hfirst, if_neg hslash, if_neg htick]
    by_cases hc : term c = true
    · simp [hc]
    · rw [ih (some c) false (h.mono (subset_cons_self c s)) fun hq heq =>
        h.1 hq (by simp [Option.some.inj heq])]
      simp [hc]

theorem scan_bare (term : Char → Bool) (s : List Char) (prev : Option Char) (quoted : Bool) :
    scan bareBuild term prev quoted false s
      = (s.takeWhile (!term ·), (s.dropWhile (!term ·)).tail) :=
  scan_ordinary term s prev quoted (ordinary_bare s) nofun

theorem nextToken_blank (b : Build) (h : isSeparator c = true) (s : List Char) :
    nextToken b (c :: s) = nextToken b s := by
  unfold nextToken
  rw [dropWhile_cons_of_pos h]

theorem nextToken_dropWhile (b : Build) (s : List Char) :
    nextToken b (s.dropWhile isSeparator) = nextToken b s := by
  have hidem : (s.dropWhile isSeparator).dropWhile isSeparator = s.dropWhile isSeparator := by
    rcases dropWhile_separator_cases s with hnil | ⟨c, t, hcons, hsep⟩
    · rw [hnil]
      rfl
    · rw [hcons, dropWhile_cons_of_neg (by simp [hsep])]
  unfold nextToken
  rw [hidem]

theorem nextToken_hash (b : Build) (s : List Char) : nextToken b ('#' :: s) = none := rfl

theorem nextToken_redirect2 (b : Build) (s : List Char) :
    nextToken b ('>' :: '>' :: s) = some (.redirect ['>', '>'], s) := rfl

theorem nextToken_redirect1 (b : Build) (h : ∀ t, s ≠ '>' :: t) :
    nextToken b ('>' :: s) = some (.redirect ['>'], s) := by
  cases s with
  | nil => rfl
  | cons c s =>
    unfold nextToken
    rw [dropWhile_cons_of_neg (by decide)]
    split
    · next heq => cases heq
    · next heq =>
      cases heq
      exact absurd rfl (h _)
    · next heq =>
      cases heq
      rfl
    · next heq => cases heq
    · next heq => cases heq
    · next hno _ _ => exact absurd rfl (hno _)

theorem nextToken_quote (h : '"' ∉ s) (t : List Char) :
    nextToken bareBuild ('"' :: (s ++ '"' :: t)) = some (.word true s, t) := by
  have hall : ∀ c ∈ s, (!(c == '"')) = true := by
    intro c hc
    have hne : c ≠ '"' := fun heq => h (heq ▸ hc)
    simpa using hne
  unfold nextToken
  rw [dropWhile_cons_of_neg (by decide)]
  show some (Token.word true (scan bareBuild (· == '"') none false false (s ++ '"' :: t)).1,
    (scan bareBuild (· == '"') none false false (s ++ '"' :: t)).2) = _
  rw [scan_bare, takeWhile_append_of_pos hall, dropWhile_append_of_pos hall]
  simp

theorem nextToken_word (hsep : isSeparator c = false) (hgt : c ≠ '>') (hhash : c ≠ '#')
    (hquote : c ≠ '"') (s : List Char) :
    nextToken bareBuild (c :: s)
      = some (.word false (firstWord (c :: s)), ((c :: s).dropWhile (!isSeparator ·)).tail) := by
  unfold nextToken
  rw [dropWhile_cons_of_neg (by simp [hsep])]
  split
  · next heq => cases heq
  · next heq =>
    cases heq
    exact absurd rfl hgt
  · next heq =>
    cases heq
    exact absurd rfl hgt
  · next heq =>
    cases heq
    exact absurd rfl hhash
  · next heq =>
    cases heq
    exact absurd rfl hquote
  · rw [scan_bare]
    rfl

theorem head_cases (s : List Char) :
    nextToken bareBuild s = none ∨
      (∃ token rest, nextToken bareBuild s = some (token, rest) ∧ rest <:+ s ∧
        rest.length < s.length) := by
  have hsuffix := dropWhile_suffix isSeparator (l := s)
  have hle := hsuffix.length_le
  rw [← nextToken_dropWhile]
  rcases dropWhile_separator_cases s with hnil | ⟨c, t, hcons, hsep⟩
  · rw [hnil]
    exact .inl rfl
  · rw [hcons] at hle hsuffix ⊢
    simp only [length_cons] at hle
    have htail : t <:+ s := (suffix_cons c t).trans hsuffix
    by_cases hgt : c = '>'
    · subst hgt
      cases t with
      | nil => exact .inr ⟨_, _, rfl, htail, by simp at hle ⊢; omega⟩
      | cons d t =>
        by_cases hd : d = '>'
        · subst hd
          exact .inr ⟨_, _, rfl, (suffix_cons _ t).trans htail, by simp at hle ⊢; omega⟩
        · refine .inr ⟨_, _, nextToken_redirect1 bareBuild fun u hu => hd (by cases hu; rfl), htail, ?_⟩
          omega
    · by_cases hhash : c = '#'
      · subst hhash
        exact .inl rfl
      · by_cases hquote : c = '"'
        · subst hquote
          refine .inr ⟨_, _, rfl, ?_⟩
          rw [scan_bare]
          have hdrop := dropWhile_suffix (fun c => !(c == '"')) (l := t)
          refine ⟨((tail_suffix _).trans hdrop).trans htail, ?_⟩
          have hlen := hdrop.length_le
          simp only [length_tail]
          omega
        · refine .inr ⟨_, _, nextToken_word hsep hgt hhash hquote t, ?_⟩
          have hdrop := dropWhile_suffix (!isSeparator ·) (l := t)
          rw [dropWhile_cons_of_pos (by simp [hsep])]
          refine ⟨((tail_suffix _).trans hdrop).trans htail, ?_⟩
          have hlen := hdrop.length_le
          rw [length_tail]
          omega

theorem tokensOf_of_lt (n : Nat) : ∀ s : List Char, s.length < n →
    tokensOf bareBuild n s = commandTokens bareBuild s := by
  induction n using Nat.strong_induction_on with
  | _ n ih =>
    intro s hlt
    obtain ⟨n, rfl⟩ : ∃ k, n = k + 1 := ⟨n - 1, by omega⟩
    unfold commandTokens
    rw [tokensOf, tokensOf]
    rcases head_cases s with hnone | ⟨token, rest, hsome, -, hlen⟩
    · rw [hnone]
    · rw [hsome]
      show token :: tokensOf bareBuild n rest = token :: tokensOf bareBuild s.length rest
      rcases Nat.lt_or_ge s.length (n + 1) with hs | hs
      · rw [ih n (by omega) rest (by omega)]
        by_cases heq : s.length = n
        · rw [heq, ih n (by omega) rest (by omega)]
        · rw [ih s.length (by omega) rest hlen]
      · omega

theorem commandTokens_none (h : nextToken bareBuild s = none) : commandTokens bareBuild s = [] := by
  unfold commandTokens
  rw [tokensOf, h]

theorem commandTokens_some {rest : List Char} {token : Token}
    (h : nextToken bareBuild s = some (token, rest)) :
    commandTokens bareBuild s = token :: commandTokens bareBuild rest := by
  have hlt : rest.length < s.length := by
    rcases head_cases s with hnone | ⟨token', rest', hsome, -, hlen⟩
    · rw [h] at hnone
      cases hnone
    · rw [h] at hsome
      cases hsome
      exact hlen
  rw [← tokensOf_of_lt s.length rest hlt]
  unfold commandTokens
  rw [tokensOf, h]

theorem commandTokens_congr (h : nextToken bareBuild s = nextToken bareBuild t) :
    commandTokens bareBuild s = commandTokens bareBuild t := by
  rcases head_cases t with hnone | ⟨token, rest, hsome, -⟩
  · rw [commandTokens_none hnone, commandTokens_none (h.trans hnone)]
  · rw [commandTokens_some hsome, commandTokens_some (h.trans hsome)]

/-! ## Words -/

/-- A command's text: no `#`, newline or `;` outside of quotes, and every quote is closed. -/
def Plain : (inQuotes : Bool) → List Char → Prop
  | inQuotes, [] => inQuotes = false
  | inQuotes, c :: s =>
    (inQuotes = false → c ≠ '#' ∧ c ≠ '\n' ∧ c ≠ ';') ∧ Plain (quoteAfter inQuotes c) s

def OneWord : (inQuotes : Bool) → List Char → Prop
  | _, [] => True
  | inQuotes, c :: s => (inQuotes = false → isSeparator c = false) ∧ OneWord (quoteAfter inQuotes c) s

def AtBlank (x : List Char) : Prop := x = [] ∨ ∃ c t, x = c :: t ∧ isSeparator c = true

theorem wordSpan_spec (p : List Char) : ∀ {q : Bool}, Plain q p →
    p = (wordSpan q p).1 ++ (wordSpan q p).2 ∧ Plain q (wordSpan q p).1 ∧
      OneWord q (wordSpan q p).1 ∧ Plain false (wordSpan q p).2 ∧ AtBlank (wordSpan q p).2 := by
  induction p with
  | nil => intro q h; exact ⟨rfl, h, trivial, rfl, .inl rfl⟩
  | cons c p ih =>
    intro q h
    rw [wordSpan]
    by_cases hc : q = false ∧ isSeparator c = true
    · obtain ⟨rfl, hsep⟩ := hc
      rw [if_pos ⟨rfl, hsep⟩]
      exact ⟨rfl, rfl, trivial, h, .inr ⟨c, p, rfl, hsep⟩⟩
    · obtain ⟨heq, hplain, hone, hrest, hblank⟩ := ih h.2
      rw [if_neg hc]
      refine ⟨congrArg (c :: ·) heq, ⟨h.1, hplain⟩, ⟨fun hq => ?_, hone⟩, hrest, hblank⟩
      cases hsep : isSeparator c with
      | false => rfl
      | true => exact absurd ⟨hq, hsep⟩ hc

theorem Plain.close (t : List Char) (h : Plain true t) (h' : OneWord true t) :
    ∃ s w, t = s ++ '"' :: w ∧ '"' ∉ s ∧ Plain false w ∧ OneWord false w := by
  induction t with
  | nil => cases h
  | cons c t ih =>
    by_cases hc : c = '"'
    · subst hc
      exact ⟨[], t, rfl, not_mem_nil, h.2, h'.2⟩
    · have hq : quoteAfter true c = true := if_neg hc
      have ht := h.2
      have ht' := h'.2
      rw [hq] at ht ht'
      obtain ⟨s, w, rfl, hs, hw, hw'⟩ := ih ht ht'
      refine ⟨c :: s, w, rfl, ?_, hw, hw'⟩
      rintro (_ | ⟨_, hm⟩)
      · exact hc rfl
      · exact hs hm

theorem quote_cases (hs : '"' ∉ s) :
    (Whole ('"' :: (s ++ '"' :: w)) ↔ w = []) ∧ (Closed ('"' :: (s ++ '"' :: w)) ↔ w = []) ∧
      wordToken ('"' :: (s ++ '"' :: w))
        = if w = [] then .word true s else .word false ('"' :: (s ++ '"' :: w)) := by
  have hdrop : dropOperators ('"' :: (s ++ '"' :: w)) = '"' :: (s ++ '"' :: w) := by
    rw [dropOperators]
    intro t ht
    cases ht
  have hclosed : Closed ('"' :: (s ++ '"' :: w)) ↔ w = [] := by
    unfold Closed
    rw [hdrop]
    constructor
    · rintro (hnil | ⟨t, ht, heq⟩)
      · cases hnil
      · have htail : s ++ '"' :: w = t ++ ['"'] := tail_eq_of_cons_eq heq
        rcases append_eq_append_iff.mp htail with ⟨u, rfl, hu⟩ | ⟨u, rfl, hu⟩
        · cases u with
          | nil => simpa using hu
          | cons d u =>
            obtain ⟨rfl, -⟩ := cons_eq_cons.mp hu
            exact absurd (by simp) ht
        · cases u with
          | nil => simpa using hu.symm
          | cons d u => simp at hu
    · rintro rfl
      exact .inr ⟨s, hs, rfl⟩
  refine ⟨?_, hclosed, ?_⟩
  · unfold Whole
    rw [hclosed, hdrop]
    simp
  · by_cases hw : w = []
    · subst hw
      simp [wordToken, hs]
    · have hmem : '"' ∈ (s ++ '"' :: w).dropLast := by
        rw [dropLast_append_of_ne_nil (by simp), dropLast_cons_of_ne_nil hw]
        simp
      have hno : ¬((s ++ '"' :: w).getLast? = some '"' ∧ '"' ∉ (s ++ '"' :: w).dropLast) :=
        fun h => h.2 hmem
      rw [if_neg hw]
      exact if_neg hno

theorem firstWord_append (hw : ∀ c ∈ w, isSeparator c = false) (hx : AtBlank x) :
    firstWord (w ++ x) = w ∧ ((w ++ x).dropWhile (!isSeparator ·)) = x := by
  have hall : ∀ c ∈ w, (!isSeparator c) = true := fun c hc => by simp [hw c hc]
  unfold firstWord
  rw [takeWhile_append_of_pos hall, dropWhile_append_of_pos hall]
  rcases hx with rfl | ⟨c, t, rfl, hc⟩
  · simp
  · simp [hc]

theorem firstWord_ne (h : ¬∀ c ∈ w, isSeparator c = false) : firstWord (w ++ x) ≠ w := by
  intro heq
  refine h fun c hc => ?_
  rw [← heq] at hc
  simpa using mem_takeWhile_imp hc

theorem commandTokens_blank (hx : AtBlank x) :
    commandTokens bareBuild x.tail = commandTokens bareBuild x := by
  rcases hx with rfl | ⟨c, t, rfl, hc⟩
  · rfl
  · exact commandTokens_congr (nextToken_blank bareBuild hc t).symm

theorem wordToken_of_ne (h : c ≠ '"') (w : List Char) :
    wordToken (c :: w) = .word false (c :: w) := by
  unfold wordToken
  split
  · next heq =>
    cases heq
    exact absurd rfl h
  · rfl

theorem dropOperators_of_ne (h : c ≠ '>') (w : List Char) : dropOperators (c :: w) = c :: w := by
  unfold dropOperators
  split
  · next heq =>
    cases heq
    exact absurd rfl h
  · rfl

theorem whole_of_ne (hgt : c ≠ '>') (hquote : c ≠ '"') (w : List Char) :
    (Whole (c :: w) ↔ ∀ d ∈ c :: w, isSeparator d = false) ∧ ¬Closed (c :: w) := by
  have hclosed : ¬Closed (c :: w) := by
    unfold Closed
    rw [dropOperators_of_ne hgt]
    rintro (hnil | ⟨t, -, heq⟩)
    · cases hnil
    · exact hquote (cons_eq_cons.mp heq).1
  refine ⟨?_, hclosed⟩
  unfold Whole
  rw [dropOperators_of_ne hgt]
  simp [hclosed, hquote]

/-- Behind a word a blank or the end: **the word's tokens are found if and only if it is whole**, and
then the scan goes on behind it. -/
theorem word_tokens_iff (w : List Char) : ∀ {x : List Char}, Plain false w → OneWord false w →
    AtBlank x → ∀ ts : List Token,
    commandTokens bareBuild (w ++ x) = wordTokens w ++ ts ↔
      Whole w ∧ commandTokens bareBuild x = ts := by
  fun_induction wordTokens w with
  | case1 =>
    intro x _ _ _ ts
    have hwhole : Whole [] := .inl (.inl rfl)
    simp [hwhole]
  | case2 w ih =>
    intro x hplain hone hx ts
    rw [cons_append, cons_append, commandTokens_some (nextToken_redirect2 bareBuild _),
      cons_append, cons_inj_right]
    exact ih hplain.2.2 hone.2.2 hx ts
  | case3 w hno ih =>
    intro x hplain hone hx ts
    have hnext : ∀ t, w ++ x ≠ '>' :: t := by
      intro t heq
      cases w with
      | nil =>
        rcases hx with rfl | ⟨c, u, rfl, hc⟩
        · cases heq
        · cases heq
          cases hc
      | cons d w =>
        cases heq
        exact hno w rfl
    rw [cons_append, commandTokens_some (nextToken_redirect1 bareBuild hnext),
      cons_append, cons_inj_right]
    exact ih hplain.2 hone.2 hx ts
  | case4 c w hno hno' =>
    intro x hplain hone hx ts
    have hgt : c ≠ '>' := fun heq => hno' heq
    by_cases hquote : c = '"'
    · subst hquote
      obtain ⟨s, u, rfl, hs, -, -⟩ := Plain.close w hplain.2 hone.2
      obtain ⟨hwhole, -, htoken⟩ := quote_cases (w := u) hs
      have hfound : nextToken bareBuild ('"' :: (s ++ '"' :: u) ++ x)
          = some (.word true s, u ++ x) := by
        rw [cons_append, append_assoc, cons_append, nextToken_quote hs]
      rw [commandTokens_some hfound, htoken, hwhole]
      by_cases hu : u = []
      · subst hu
        simp
      · simp [hu]
    · have hsep := hone.1 rfl
      obtain ⟨hhash, -, -⟩ := hplain.1 rfl
      obtain ⟨hwhole, -⟩ := whole_of_ne hgt hquote w
      rw [cons_append, commandTokens_some (nextToken_word hsep hgt hhash hquote (w ++ x)),
        wordToken_of_ne hquote, hwhole, ← cons_append]
      by_cases hall : ∀ d ∈ c :: w, isSeparator d = false
      · obtain ⟨hfirst, hrest⟩ := firstWord_append hall hx
        rw [hfirst, hrest, commandTokens_blank hx, singleton_append, cons_inj_right]
        exact ⟨fun h => ⟨hall, h⟩, fun h => h.2⟩
      · have hne := firstWord_ne (x := x) hall
        simp only [hall, false_and, iff_false, singleton_append]
        intro heq
        exact hne (by injection (cons_eq_cons.mp heq).1)

/-- Behind a word a `#`: **the scan ends there if and only if the word ends by itself**. -/
theorem word_comment_iff (w r : List Char) : Plain false w → OneWord false w →
    (commandTokens bareBuild (w ++ '#' :: r) = wordTokens w ↔ Closed w) := by
  fun_induction wordTokens w with
  | case1 =>
    intro _ _
    exact iff_of_true (commandTokens_none (nextToken_hash bareBuild r)) (.inl rfl)
  | case2 w ih =>
    intro hplain hone
    rw [cons_append, cons_append, commandTokens_some (nextToken_redirect2 bareBuild _),
      cons_inj_right]
    exact ih hplain.2.2 hone.2.2
  | case3 w hno ih =>
    intro hplain hone
    have hnext : ∀ t, w ++ '#' :: r ≠ '>' :: t := by
      intro t heq
      cases w with
      | nil => cases heq
      | cons d w =>
        cases heq
        exact hno w rfl
    rw [cons_append, commandTokens_some (nextToken_redirect1 bareBuild hnext),
      cons_inj_right]
    exact ih hplain.2 hone.2
  | case4 c w hno hno' =>
    intro hplain hone
    have hgt : c ≠ '>' := fun heq => hno' heq
    by_cases hquote : c = '"'
    · subst hquote
      obtain ⟨s, u, rfl, hs, -, -⟩ := Plain.close w hplain.2 hone.2
      obtain ⟨-, hclosed, htoken⟩ := quote_cases (w := u) hs
      have hfound : nextToken bareBuild ('"' :: (s ++ '"' :: u) ++ '#' :: r)
          = some (.word true s, u ++ '#' :: r) := by
        rw [cons_append, append_assoc, cons_append, nextToken_quote hs]
      rw [commandTokens_some hfound, htoken, hclosed]
      by_cases hu : u = []
      · subst hu
        simp [commandTokens_none (nextToken_hash bareBuild r)]
      · simp [hu]
    · have hsep := hone.1 rfl
      obtain ⟨hhash, -, -⟩ := hplain.1 rfl
      obtain ⟨-, hclosed⟩ := whole_of_ne hgt hquote w
      rw [cons_append, commandTokens_some (nextToken_word hsep hgt hhash hquote _),
        wordToken_of_ne hquote, ← cons_append]
      simp only [hclosed, iff_false]
      intro heq
      have hfirst : firstWord (c :: w ++ '#' :: r) = c :: w := by
        injection (cons_eq_cons.mp heq).1
      by_cases hall : ∀ d ∈ c :: w, isSeparator d = false
      · have hlonger : firstWord (c :: w ++ '#' :: r) = c :: w ++ '#' :: firstWord r := by
          unfold firstWord
          rw [takeWhile_append_of_pos fun d hd => by simp [hall d hd]]
          rfl
        rw [hlonger] at hfirst
        simp at hfirst
      · exact firstWord_ne hall hfirst

/-! ## Commands -/

theorem length_wordSpan_le (s : List Char) : ∀ q : Bool, (wordSpan q s).2.length ≤ s.length := by
  induction s with
  | nil => intro q; simp [wordSpan]
  | cons c s ih =>
    intro q
    have hle := ih (quoteAfter q c)
    rw [wordSpan]
    split
    · simp
    · simp
      omega

theorem length_wordSpan_lt (h : isSeparator c = false) (s : List Char) :
    (wordSpan false (c :: s)).2.length ≤ s.length := by
  rw [wordSpan, if_neg (by simp [h])]
  exact length_wordSpan_le s _

theorem firstWords_of_le (n : Nat) : ∀ s : List Char, s.length ≤ n →
    firstWords n s = commandWords s := by
  induction n using Nat.strong_induction_on with
  | _ n ih =>
    intro s hle
    have hdrop := (dropWhile_suffix isSeparator (l := s)).length_le
    unfold commandWords
    rcases dropWhile_separator_cases s with hnil | ⟨c, t, hcons, hsep⟩
    · cases n <;> cases hs : s.length <;> simp [firstWords, hnil]
    · rw [hcons] at hdrop
      simp only [length_cons] at hdrop
      obtain ⟨n, rfl⟩ : ∃ k, n = k + 1 := ⟨n - 1, by omega⟩
      obtain ⟨k, hk⟩ : ∃ k, s.length = k + 1 := ⟨s.length - 1, by omega⟩
      have hrest := length_wordSpan_lt hsep t
      rw [hk, firstWords, firstWords, hcons]
      simp only
      rw [ih n (by omega) _ (by omega), ih k (by omega) _ (by omega)]

theorem commandWords_nil (h : s.dropWhile isSeparator = []) : commandWords s = [] := by
  unfold commandWords
  cases s.length with
  | zero => rfl
  | succ n => rw [firstWords, h]

theorem commandWords_cons (h : s.dropWhile isSeparator = c :: t) (hsep : isSeparator c = false) :
    commandWords s = (wordSpan false (c :: t)).1 :: commandWords (wordSpan false (c :: t)).2 := by
  have hdrop := (dropWhile_suffix isSeparator (l := s)).length_le
  rw [h] at hdrop
  simp only [length_cons] at hdrop
  have hrest := length_wordSpan_lt hsep t
  rw [← firstWords_of_le (s.length + 1) s (by omega), firstWords, h]
  simp only
  rw [firstWords_of_le s.length _ (by omega)]

theorem separator_of_mem_blank (h : p.dropWhile isSeparator = []) :
    ∀ c ∈ p, isSeparator c = true := by
  intro c hc
  rw [← takeWhile_append_dropWhile (p := isSeparator) (l := p), h, append_nil] at hc
  exact mem_takeWhile_imp hc

theorem commandTokens_blanks (h : ∀ d ∈ s, isSeparator d = true) (x : List Char) :
    commandTokens bareBuild (s ++ x) = commandTokens bareBuild x := by
  apply commandTokens_congr
  induction s with
  | nil => rfl
  | cons d s ih =>
    rw [cons_append, nextToken_blank bareBuild (h d (by simp)), ih fun e he => h e (by simp [he])]

theorem commandTokens_skip (s x : List Char) :
    commandTokens bareBuild (s ++ x) = commandTokens bareBuild (s.dropWhile isSeparator ++ x) := by
  nth_rewrite 1 [← takeWhile_append_dropWhile (p := isSeparator) (l := s)]
  rw [append_assoc, commandTokens_blanks fun d hd => mem_takeWhile_imp hd]

theorem Plain.dropWhile (h : Plain false s) : Plain false (s.dropWhile isSeparator) := by
  induction s with
  | nil => exact h
  | cons c s ih =>
    by_cases hc : isSeparator c = true
    · rw [dropWhile_cons_of_pos hc]
      have hq : quoteAfter false c = false := by
        unfold quoteAfter
        rw [if_neg]
        rintro rfl
        cases hc
      have hs := h.2
      rw [hq] at hs
      exact ih hs
    · rw [dropWhile_cons_of_neg hc]
      exact h

def LineEnd (r : List Char) : Prop := r = [] ∨ ∃ t, r = '#' :: t ∨ r = '\n' :: t

theorem last_of_word (w : List Char) : ∀ {q : Bool}, Plain q w → OneWord q w →
    ∀ c, w.getLast? = some c → isSeparator c = false := by
  induction w with
  | nil => intro q _ _ c h; cases h
  | cons d w ih =>
    intro q hplain hone c h
    cases w with
    | nil =>
      obtain rfl : d = c := by simpa using h
      cases q with
      | false => exact hone.1 rfl
      | true =>
        have hclose : quoteAfter true d = false := hplain.2
        by_cases hd : d = '"'
        · subst hd
          rfl
        · rw [quoteAfter, if_neg hd] at hclose
          cases hclose
    | cons e w => exact ih hplain.2 hone.2 c (by simpa using h)

theorem last_word_iff (hw : Plain false w) (hone : OneWord false w) (hne : w ≠ [])
    (hlast : p.getLast? = w.getLast?) (hwords : commandWords p = [w]) (hr : LineEnd r) :
    commandTokens bareBuild (w ++ r) = wordTokens w ↔ Whole w ∧ EndsThere bareBuild p r := by
  rcases hr with rfl | ⟨t, rfl | rfl⟩
  · have hiff := word_tokens_iff w hw hone (.inl rfl) []
    rw [append_nil (wordTokens w)] at hiff
    exact hiff.trans (and_congr_right fun _ => iff_of_true rfl trivial)
  · rw [word_comment_iff w t hw hone]
    constructor
    · intro hclosed
      exact ⟨.inl hclosed, .inr ⟨w, by rw [hwords]; rfl, hclosed⟩⟩
    · rintro ⟨-, hblank | ⟨v, hv, hclosed⟩⟩
      · obtain ⟨c, hc⟩ : ∃ c, w.getLast? = some c := by
          cases h : w.getLast? with
          | none => exact absurd (getLast?_eq_none_iff.mp h) hne
          | some c => exact ⟨c, rfl⟩
        have hsep := hblank c (hlast.trans hc)
        rw [last_of_word w hw hone c hc] at hsep
        cases hsep
      · rw [hwords] at hv
        cases hv
        exact hclosed
  · have hiff := word_tokens_iff w hw hone (.inr ⟨'\n', t, rfl, by decide⟩) []
    rw [append_nil (wordTokens w)] at hiff
    exact hiff

theorem endsThere_congr {q : List Char} (hr : LineEnd r) (hlast : p.getLast? = q.getLast?)
    (hwords : commandWords p = w :: commandWords q) :
    EndsThere bareBuild p r ↔ EndsThere bareBuild q r := by
  rcases hr with rfl | ⟨t, rfl | rfl⟩
  · exact Iff.rfl
  · show ((∀ c, p.getLast? = some c → _) ∨ _) ↔ ((∀ c, q.getLast? = some c → _) ∨ _)
    rw [hlast, hwords]
    cases hcs : commandWords q with
    | nil =>
      have hblank : q.dropWhile isSeparator = [] := by
        rcases dropWhile_separator_cases q with hnil | ⟨c, u, hcons, hsep⟩
        · exact hnil
        · rw [commandWords_cons hcons hsep] at hcs
          cases hcs
      have hall : ∀ c, q.getLast? = some c → isSeparator c = true := fun c hc =>
        separator_of_mem_blank hblank c (mem_of_getLast? hc)
      exact iff_of_true (.inl hall) (.inl hall)
    | cons v vs => rw [getLast?_cons_cons]
  · exact Iff.rfl

/-- **One command**: `nsh_argument` finds the command's tokens if and only if all its words are whole
and the scan ends where the line does. -/
theorem command_tokens_iff (n : Nat) : ∀ p r : List Char, p.length ≤ n → Plain false p → LineEnd r →
    (commandTokens bareBuild (p ++ r) = tokenise p ↔
      (∀ w ∈ commandWords p, Whole w) ∧ EndsThere bareBuild p r) := by
  induction n with
  | zero =>
    intro p r hlen _ hr
    obtain rfl := eq_nil_of_length_eq_zero (Nat.le_zero.mp hlen)
    rcases hr with rfl | ⟨t, rfl | rfl⟩
    · exact iff_of_true rfl ⟨forall_mem_nil _, trivial⟩
    · exact iff_of_true (commandTokens_none (nextToken_hash bareBuild t))
        ⟨forall_mem_nil _, .inl fun c hc => by cases hc⟩
    · exact ⟨fun h => ⟨forall_mem_nil _, h⟩, fun h => h.2⟩
  | succ n ih =>
    intro p r hlen hplain hr
    rcases dropWhile_separator_cases p with hnil | ⟨c, t, hcons, hsep⟩
    · rw [commandTokens_skip, hnil, nil_append, tokenise, commandWords_nil hnil]
      rcases hr with rfl | ⟨u, rfl | rfl⟩
      · exact iff_of_true rfl ⟨forall_mem_nil _, trivial⟩
      · exact iff_of_true (commandTokens_none (nextToken_hash bareBuild u)) ⟨forall_mem_nil _,
          .inl fun c hc => separator_of_mem_blank hnil c (mem_of_getLast? hc)⟩
      · exact ⟨fun h => ⟨forall_mem_nil _, h⟩, fun h => h.2⟩
    · have hdrop := (dropWhile_suffix isSeparator (l := p)).length_le
      have hrest := length_wordSpan_lt hsep t
      have hstart := hplain.dropWhile
      have hwords := commandWords_cons hcons hsep
      rw [hcons] at hstart hdrop
      obtain ⟨hsplit, hw, hone, hplain', hblank⟩ := wordSpan_spec (c :: t) hstart
      have hwne : (wordSpan false (c :: t)).1 ≠ [] := by
        rw [wordSpan, if_neg (by simp [hsep])]
        simp
      have hp : p = p.takeWhile isSeparator ++ (c :: t) := by
        rw [← hcons, takeWhile_append_dropWhile]
      rw [commandTokens_skip, hcons, tokenise, hwords, flatMap_cons]
      simp only [length_cons] at hdrop
      generalize (wordSpan false (c :: t)).1 = w at *
      generalize (wordSpan false (c :: t)).2 = q at *
      rw [hsplit, append_assoc]
      by_cases hq : q = []
      · subst hq
        have hlast : p.getLast? = w.getLast? := by
          rw [hp, hsplit, append_nil, getLast?_append_of_ne_nil _ hwne]
        have hiff := last_word_iff hw hone hwne hlast hwords hr
        rw [commandWords_nil rfl]
        simpa using hiff
      · have hlast : p.getLast? = q.getLast? := by
          rw [hp, hsplit, ← append_assoc, getLast?_append_of_ne_nil _ hq]
        have hx : AtBlank (q ++ r) := by
          rcases hblank with rfl | ⟨d, u, rfl, hd⟩
          · exact absurd rfl hq
          · exact .inr ⟨d, u ++ r, rfl, hd⟩
        rw [word_tokens_iff w hw hone hx, endsThere_congr hr hlast hwords]
        have hih := ih q r (by omega) hplain' hr
        rw [tokenise] at hih
        rw [hih, forall_mem_cons, and_assoc]

/-! ## Lines -/

/-- The text up to the first `;`, `#` or newline outside of quotes, and the rest. -/
def commandSpan : (inQuotes : Bool) → List Char → List Char × List Char
  | _, [] => ([], [])
  | q, c :: s =>
    if q = false ∧ (c = '#' ∨ c = '\n' ∨ c = ';') then
      ([], c :: s)
    else
      (commandSpan (quoteAfter q c) s).map (c :: ·) id

theorem commandSpan_semicolon (line : List Char) : ∀ {q : Bool} {r : List Char},
    (commandSpan q line).2 = ';' :: r →
    line = (commandSpan q line).1 ++ ';' :: r ∧ Plain q (commandSpan q line).1 ∧
      cutLine q line = (commandSpan q line).1 ++ ';' :: cutLine false r ∧
      splitCommands q (cutLine q line)
        = (commandSpan q line).1 :: splitCommands false (cutLine false r) ∧
      endsInQuotes q (cutLine q line) = endsInQuotes false (cutLine false r) := by
  induction line with
  | nil => intro q r h; cases h
  | cons c s ih =>
    intro q r h
    rw [commandSpan] at h ⊢
    by_cases hc : q = false ∧ (c = '#' ∨ c = '\n' ∨ c = ';')
    · rw [if_pos hc] at h ⊢
      obtain ⟨rfl, hspecial⟩ := hc
      obtain ⟨rfl, rfl⟩ := cons_eq_cons.mp h
      have hcut : cutLine false (';' :: s) = ';' :: cutLine false s := by
        rw [cutLine, if_neg (by decide)]
        rfl
      rw [hcut]
      refine ⟨rfl, rfl, rfl, ?_, rfl⟩
      rw [splitCommands, if_pos ⟨rfl, rfl⟩]
    · rw [if_neg hc] at h ⊢
      obtain ⟨hline, hplain, hcut, hsplit, hend⟩ := ih h
      have hc' : ¬(q = false ∧ (c = '#' ∨ c = '\n')) := fun hh => hc ⟨hh.1, hh.2.imp_right Or.inl⟩
      have hc'' : ¬(q = false ∧ c = ';') := fun hh => hc ⟨hh.1, .inr (.inr hh.2)⟩
      have hcons : cutLine q (c :: s) = c :: cutLine (quoteAfter q c) s := by
        rw [cutLine, if_neg hc']
      rw [hcons]
      refine ⟨congrArg (c :: ·) hline, ⟨fun hq => ?_, hplain⟩, congrArg (c :: ·) hcut, ?_, hend⟩
      · exact ⟨fun h' => hc ⟨hq, .inl h'⟩, fun h' => hc ⟨hq, .inr (.inl h')⟩,
          fun h' => hc ⟨hq, .inr (.inr h')⟩⟩
      · rw [splitCommands, if_neg hc'', hsplit]
        rfl

theorem commandSpan_last (line : List Char) : ∀ {q : Bool},
    (∀ r, (commandSpan q line).2 ≠ ';' :: r) →
    line = (commandSpan q line).1 ++ (commandSpan q line).2 ∧
      cutLine q line = (commandSpan q line).1 ∧
      splitCommands q (commandSpan q line).1 = [(commandSpan q line).1] ∧
      LineEnd (commandSpan q line).2 ∧
      (endsInQuotes q (commandSpan q line).1 = false → Plain q (commandSpan q line).1) := by
  induction line with
  | nil => intro q _; exact ⟨rfl, rfl, rfl, .inl rfl, id⟩
  | cons c s ih =>
    intro q h
    rw [commandSpan] at h ⊢
    by_cases hc : q = false ∧ (c = '#' ∨ c = '\n' ∨ c = ';')
    · rw [if_pos hc] at h ⊢
      obtain ⟨rfl, hspecial⟩ := hc
      have hend : LineEnd (c :: s) := by
        rcases hspecial with rfl | rfl | rfl
        · exact .inr ⟨s, .inl rfl⟩
        · exact .inr ⟨s, .inr rfl⟩
        · exact absurd rfl (h s)
      have hcut : c = '#' ∨ c = '\n' := by
        rcases hspecial with rfl | rfl | rfl
        · exact .inl rfl
        · exact .inr rfl
        · exact absurd rfl (h s)
      refine ⟨rfl, ?_, rfl, hend, fun _ => rfl⟩
      rw [cutLine, if_pos ⟨rfl, hcut⟩]
    · rw [if_neg hc] at h ⊢
      obtain ⟨hline, hcut, hsplit, hend, hplain⟩ := ih h
      have hc' : ¬(q = false ∧ (c = '#' ∨ c = '\n')) := fun hh => hc ⟨hh.1, hh.2.imp_right Or.inl⟩
      have hc'' : ¬(q = false ∧ c = ';') := fun hh => hc ⟨hh.1, .inr (.inr hh.2)⟩
      refine ⟨congrArg (c :: ·) hline, ?_, ?_, hend, fun hq => ⟨fun hq' => ?_, hplain hq⟩⟩
      · rw [cutLine, if_neg hc', hcut]
        rfl
      · show splitCommands q (c :: (commandSpan (quoteAfter q c) s).1) = _
        rw [splitCommands, if_neg hc'', hsplit]
        rfl
      · exact ⟨fun h' => hc ⟨hq', .inl h'⟩, fun h' => hc ⟨hq', .inr (.inl h')⟩,
          fun h' => hc ⟨hq', .inr (.inr h')⟩⟩

theorem length_commandSpan (line : List Char) : ∀ q : Bool,
    (commandSpan q line).1.length + (commandSpan q line).2.length = line.length := by
  induction line with
  | nil => intro q; rfl
  | cons c s ih =>
    intro q
    have hlen := ih (quoteAfter q c)
    rw [commandSpan]
    split
    · simp
    · simp
      omega

theorem line_induction {P : List Char → Prop}
    (semicolon : ∀ line r, (commandSpan false line).2 = ';' :: r → P r → P line)
    (last : ∀ line, (∀ r, (commandSpan false line).2 ≠ ';' :: r) → P line) (line : List Char) :
    P line := by
  induction hn : line.length using Nat.strong_induction_on generalizing line with
  | _ n ih =>
    by_cases h : ∃ r, (commandSpan false line).2 = ';' :: r
    · obtain ⟨r, hr⟩ := h
      have hlen := length_commandSpan line false
      rw [hr, length_cons] at hlen
      exact semicolon line r hr (ih r.length (by omega) r rfl)
    · exact last line fun r hr => h ⟨r, hr⟩

/-! ## What `nsh_parse` does -/

variable {run : List Token → Int}

theorem commandSpan_ordinary (h : gLineSeparator.contains c = false) (s : List Char) :
    commandSpan false (c :: s) = (commandSpan false s).map (c :: ·) id := by
  have hc : ¬(c = '"' ∨ c = '#' ∨ c = ';' ∨ c = '\n') := by
    simpa [gLineSeparator] using h
  have hq : quoteAfter false c = false := if_neg fun heq => hc (.inl heq)
  rw [commandSpan, if_neg (fun hh => hc (by tauto)), hq]

theorem commandSpan_append (h : ∀ c ∈ x, gLineSeparator.contains c = false) (y : List Char) :
    commandSpan false (x ++ y) = (commandSpan false y).map (x ++ ·) id ∧
      endsInQuotes false x = false := by
  induction x with
  | nil => exact ⟨rfl, rfl⟩
  | cons c x ih =>
    obtain ⟨hspan, hend⟩ := ih fun d hd => h d (mem_cons_of_mem c hd)
    have hc := h c mem_cons_self
    have hq : quoteAfter false c = false := by
      refine if_neg fun heq => ?_
      rw [heq] at hc
      cases hc
    refine ⟨?_, ?_⟩
    · rw [cons_append, commandSpan_ordinary hc, hspan]
      rfl
    · show endsInQuotes (quoteAfter false c) x = false
      rw [hq]
      exact hend

theorem commandSpan_inQuotes (h : '"' ∉ s) (y : List Char) :
    commandSpan true (s ++ y) = (commandSpan true y).map (s ++ ·) id ∧
      endsInQuotes true s = true := by
  induction s with
  | nil => exact ⟨rfl, rfl⟩
  | cons c s ih =>
    obtain ⟨hspan, hend⟩ := ih fun hm => h (mem_cons_of_mem c hm)
    have hq : quoteAfter true c = true := if_neg fun heq => h (by simp [heq])
    refine ⟨?_, ?_⟩
    · rw [cons_append, commandSpan, if_neg (by simp), hq, hspan]
      rfl
    · show endsInQuotes (quoteAfter true c) s = true
      rw [hq]
      exact hend

theorem nshStrchr_bare (s : List Char) :
    (nshStrchr bareBuild '"' false s = none ∧ '"' ∉ s) ∨
      ∃ x t, s = x ++ '"' :: t ∧ '"' ∉ x ∧ nshStrchr bareBuild '"' false s = some x.length := by
  induction s with
  | nil => exact .inl ⟨rfl, not_mem_nil⟩
  | cons c s ih =>
    by_cases hc : c = '"'
    · subst hc
      exact .inr ⟨[], s, rfl, not_mem_nil, rfl⟩
    · have hstep : nshStrchr bareBuild '"' false (c :: s)
          = (nshStrchr bareBuild '"' false s).map (· + 1) := by
        rw [nshStrchr]
        simp [bareBuild, hc]
      have hne : '"' ≠ c := fun heq => hc heq.symm
      rcases ih with ⟨hnone, hnot⟩ | ⟨x, t, rfl, hx, hsome⟩
      · exact .inl ⟨by rw [hstep, hnone]; rfl, by simp [hne, hnot]⟩
      · refine .inr ⟨c :: x, t, rfl, by simp [hne, hx], ?_⟩
        rw [hstep, hsome]
        rfl

theorem endsInQuotes_append (q : Bool) (x y : List Char) :
    endsInQuotes q (x ++ y) = endsInQuotes (endsInQuotes q x) y :=
  foldl_append

/-- What the loop does from `working = start + off` on. -/
def parseFrom (run : List Token → Int) (start : List Char) (off : Nat) : List (List Token) × Int :=
  let p := (commandSpan false (start.drop off)).1
  match (commandSpan false (start.drop off)).2 with
  | ';' :: r =>
    let tokens := commandTokens bareBuild (start.take (off + p.length))
    if commandStatus run tokens ≠ 0 then
      ([tokens], commandStatus run tokens)
    else
      (nshParse bareBuild run r).map (tokens :: ·) id
  | _ =>
    if endsInQuotes false p then
      ([], -1)
    else
      ([commandTokens bareBuild start], commandStatus run (commandTokens bareBuild start))

theorem nshParseFrom_eq (fuel : Nat) : ∀ (start : List Char) (off : Nat), off ≤ start.length →
    (start.drop off).length < fuel →
    nshParseFrom bareBuild run fuel start off = parseFrom run start off := by
  induction fuel using Nat.strong_induction_on with
  | _ fuel ih =>
    intro start off hoff hlt
    obtain ⟨fuel, rfl⟩ : ∃ k, fuel = k + 1 := ⟨fuel - 1, by omega⟩
    have hprefix : ∀ c ∈ (start.drop off).takeWhile (!gLineSeparator.contains ·),
        gLineSeparator.contains c = false := by
      intro c hc
      simpa using mem_takeWhile_imp hc
    have hsplit := takeWhile_append_dropWhile (p := (!gLineSeparator.contains ·))
      (l := start.drop off)
    have hrest := drop_takeWhile (!gLineSeparator.contains ·) (start.drop off)
    have hhead := head?_dropWhile_not (!gLineSeparator.contains ·) (start.drop off)
    rw [nshParseFrom]
    unfold parseFrom
    simp only [hrest]
    generalize (start.drop off).takeWhile (!gLineSeparator.contains ·) = x at *
    generalize (start.drop off).dropWhile (!gLineSeparator.contains ·) = y at *
    obtain ⟨hspan, hend⟩ := commandSpan_append hprefix y
    rw [← hsplit, hspan]
    have hlen := congrArg List.length hsplit
    rw [length_append, length_drop] at hlen
    rw [length_drop] at hlt
    cases y with
    | nil => simp [commandSpan, hend]
    | cons c ptr =>
      have hc : c = '"' ∨ c = '#' ∨ c = ';' ∨ c = '\n' := by
        have hmem : ¬c = '"' → ¬c = '#' → ¬c = ';' → c = '\n' := by
          simpa [gLineSeparator] using hhead
        tauto
      rw [length_cons] at hlen
      rcases hc with rfl | rfl | rfl | rfl
      · -- a quotation mark
        have hopen : commandSpan false ('"' :: ptr) = (commandSpan true ptr).map ('"' :: ·) id := by
          rw [commandSpan, if_neg (by decide)]
          rfl
        have hq : ∀ z, endsInQuotes false (x ++ '"' :: z) = endsInQuotes true z := by
          intro z
          rw [endsInQuotes_append, hend]
          rfl
        rw [hopen]
        rcases nshStrchr_bare ptr with ⟨hnone, hnot⟩ | ⟨s, t, rfl, hs, hsome⟩
        · obtain ⟨htrue, hin⟩ := commandSpan_inQuotes hnot []
          rw [append_nil] at htrue
          simp only [hnone, htrue]
          simp [commandSpan, hq, hin]
        · obtain ⟨htrue, hin⟩ := commandSpan_inQuotes hs ('"' :: t)
          have hclose : commandSpan true ('"' :: t) = (commandSpan false t).map ('"' :: ·) id := by
            rw [commandSpan, if_neg (by simp)]
            rfl
          have hdrop : start.drop (off + x.length + 1 + s.length + 1) = t := by
            have hall : start.drop off = (x ++ '"' :: (s ++ ['"'])) ++ t := by
              rw [← hsplit]
              simp
            rw [show off + x.length + 1 + s.length + 1 = off + (x ++ '"' :: (s ++ ['"'])).length by
              simp; omega, ← drop_drop, hall, drop_left]
          have hin' : ∀ z, endsInQuotes true (s ++ '"' :: z) = endsInQuotes false z := by
            intro z
            rw [endsInQuotes_append, hin]
            rfl
          rw [length_append, length_cons] at hlen
          simp only [hsome, htrue, hclose]
          rw [ih fuel (by omega) start _ (by omega) (by rw [length_drop]; omega)]
          unfold parseFrom
          rw [hdrop]
          have hoff : ∀ n : Nat, off + x.length + 1 + s.length + 1 + n
              = off + (x.length + (s.length + (n + 1) + 1)) := by
            intro n
            omega
          simp [hq, hin', hoff]
      · simp [commandSpan, hend]
      · -- the end of a command
        have hptr : nshParseFrom bareBuild run fuel ptr 0 = nshParse bareBuild run ptr := by
          unfold nshParse
          rw [ih fuel (by omega) ptr 0 (by omega) (by simp; omega),
            ih (ptr.length + 1) (by omega) ptr 0 (by omega) (by simp)]
        simp [commandSpan, hptr]
      · simp [commandSpan, hend]

theorem nshParse_eq (line : List Char) : nshParse bareBuild run line = parseFrom run line 0 :=
  nshParseFrom_eq _ line 0 (Nat.zero_le _) (by simp)

theorem take_of_eq_append (h : xs = ys ++ zs) : xs.take ys.length = ys := by
  rw [h]
  exact take_left

theorem drop_of_eq_append (h : xs = ys ++ zs) : xs.drop ys.length = zs := by
  rw [h]
  exact drop_left

theorem nshParse_semicolon (h : (commandSpan false line).2 = ';' :: r) :
    nshParse bareBuild run line
      = (let tokens := commandTokens bareBuild (commandSpan false line).1
         if commandStatus run tokens ≠ 0 then ([tokens], commandStatus run tokens)
         else (nshParse bareBuild run r).map (tokens :: ·) id) := by
  obtain ⟨hline, -⟩ := commandSpan_semicolon line h
  have htake : line.take (0 + (commandSpan false line).1.length) = (commandSpan false line).1 := by
    rw [Nat.zero_add]
    exact take_of_eq_append hline
  rw [nshParse_eq]
  unfold parseFrom
  simp only [drop_zero, h, htake]

theorem nshParse_last (h : ∀ r, (commandSpan false line).2 ≠ ';' :: r) :
    nshParse bareBuild run line
      = if endsInQuotes false (commandSpan false line).1 then ([], -1)
        else ([commandTokens bareBuild line], commandStatus run (commandTokens bareBuild line)) := by
  rw [nshParse_eq]
  unfold parseFrom
  rw [drop_zero]
  split
  · next r heq => exact absurd heq (h r)
  · rfl

theorem splitCommands_ne_nil (s : List Char) : ∀ q : Bool, splitCommands q s ≠ [] := by
  induction s with
  | nil => intro q; simp [splitCommands]
  | cons c s ih =>
    intro q
    rw [splitCommands]
    split
    · simp
    · split <;> simp

theorem runLine_semicolon (h : (commandSpan false line).2 = ';' :: r) :
    runLine run line
      = (let tokens := tokenise (commandSpan false line).1
         if commandStatus run tokens ≠ 0 then ([tokens], commandStatus run tokens)
         else (runLine run r).map (tokens :: ·) id) := by
  obtain ⟨-, -, -, hsplit, hend⟩ := commandSpan_semicolon line h
  have hne : (splitCommands false (cutLine false r)).map tokenise ≠ [] := by
    simpa using splitCommands_ne_nil _ _
  unfold runLine
  simp only [hsplit, hend, map_cons, dropLast_cons_of_ne_nil hne, runCommands]
  split <;> split <;> rfl

theorem runLine_last (h : ∀ r, (commandSpan false line).2 ≠ ';' :: r) :
    runLine run line
      = if endsInQuotes false (commandSpan false line).1 then ([], -1)
        else ([tokenise (commandSpan false line).1],
          commandStatus run (tokenise (commandSpan false line).1)) := by
  obtain ⟨-, hcut, hsplit, -⟩ := commandSpan_last line h
  unfold runLine
  simp only [hcut, hsplit, map_cons, map_nil, dropLast_singleton, runCommands]
  split
  · rfl
  · split
    · rfl
    · next hzero =>
      have hzero : commandStatus run (tokenise (commandSpan false line).1) = 0 := by
        simpa using hzero
      rw [hzero]
      rfl

theorem aligned_semicolon (h : (commandSpan false line).2 = ';' :: r) :
    Aligned bareBuild line ↔
      (∀ w ∈ commandWords (commandSpan false line).1, Whole w) ∧ Aligned bareBuild r := by
  obtain ⟨hline, -, hcut, hsplit, hend⟩ := commandSpan_semicolon line h
  have hne := splitCommands_ne_nil (cutLine false r) false
  obtain ⟨c, cs, hcs⟩ := exists_cons_of_ne_nil hne
  have hdrop : line.drop (cutLine false line).length = r.drop (cutLine false r).length := by
    rw [hcut, length_append, length_cons, ← drop_drop, drop_of_eq_append hline,
      drop_succ_cons]
  unfold Aligned
  simp only [hsplit, hend, hdrop]
  rw [dropLast_cons_of_ne_nil hne, forall_mem_cons, and_assoc, hcs,
    getLast?_cons_cons]

theorem aligned_last (h : ∀ r, (commandSpan false line).2 ≠ ';' :: r) :
    Aligned bareBuild line ↔ (endsInQuotes false (commandSpan false line).1 = false →
      (∀ w ∈ commandWords (commandSpan false line).1, Whole w) ∧
        EndsThere bareBuild (commandSpan false line).1 (commandSpan false line).2) := by
  obtain ⟨hline, hcut, hsplit, -⟩ := commandSpan_last line h
  have hdrop := drop_of_eq_append hline
  unfold Aligned
  simp only [hcut, hsplit, hdrop]
  simp

theorem aligned_of_parse (line : List Char)
    (h : nshParse bareBuild (fun _ => 0) line = runLine (fun _ => 0) line) :
    Aligned bareBuild line := by
  have hstatus : ∀ tokens, commandStatus (fun _ => 0) tokens = 0 := by
    intro tokens
    unfold commandStatus
    split <;> rfl
  induction line using line_induction with
  | semicolon line r hr ih =>
    obtain ⟨-, hplain, -⟩ := commandSpan_semicolon line hr
    rw [nshParse_semicolon hr, runLine_semicolon hr] at h
    simp only [hstatus, ne_eq, not_true_eq_false, if_false] at h
    obtain ⟨hcommands, hret⟩ := Prod.ext_iff.mp h
    obtain ⟨htokens, hrest⟩ := cons_eq_cons.mp hcommands
    have hone := command_tokens_iff _ _ [] (Nat.le_refl _) hplain (.inl rfl)
    rw [append_nil] at hone
    exact (aligned_semicolon hr).mpr ⟨(hone.mp htokens).1, ih (Prod.ext hrest hret)⟩
  | last line hr =>
    obtain ⟨hline, -, -, hend, hplain⟩ := commandSpan_last line hr
    rw [nshParse_last hr, runLine_last hr] at h
    refine (aligned_last hr).mpr fun hclosed => ?_
    simp only [hclosed, Bool.false_eq_true, if_false] at h
    have htokens := (cons_eq_cons.mp (Prod.ext_iff.mp h).1).1
    have hone := command_tokens_iff _ _ _ (Nat.le_refl _) (hplain hclosed) hend
    rw [← hline] at hone
    exact hone.mp htokens

theorem parse_of_aligned (line : List Char) (h : Aligned bareBuild line) :
    nshParse bareBuild run line = runLine run line := by
  induction line using line_induction with
  | semicolon line r hr ih =>
    obtain ⟨-, hplain, -⟩ := commandSpan_semicolon line hr
    obtain ⟨hwhole, hrest⟩ := (aligned_semicolon hr).mp h
    have hone := command_tokens_iff _ _ [] (Nat.le_refl _) hplain (.inl rfl)
    rw [append_nil] at hone
    have htokens := hone.mpr ⟨hwhole, trivial⟩
    rw [nshParse_semicolon hr, runLine_semicolon hr, htokens, ih hrest]
  | last line hr =>
    obtain ⟨hline, -, -, hend, hplain⟩ := commandSpan_last line hr
    rw [nshParse_last hr, runLine_last hr]
    cases hclosed : endsInQuotes false (commandSpan false line).1 with
    | true => rfl
    | false =>
      have hone := command_tokens_iff _ _ _ (Nat.le_refl _) (hplain hclosed) hend
      rw [← hline] at hone
      rw [hone.mpr ((aligned_last hr).mp h hclosed)]

/-! ## Other configurations -/

variable {b : Build}

theorem nextToken_ordinary (h : Ordinary b s) : nextToken b s = nextToken bareBuild s := by
  have hdrop : Ordinary b (s.dropWhile isSeparator) :=
    h.mono (dropWhile_suffix isSeparator).subset
  unfold nextToken
  split
  · rfl
  · rfl
  · next hno => rfl
  · rfl
  · next rest heq =>
    rw [heq] at hdrop
    rw [scan_ordinary _ rest none false (hdrop.mono (subset_cons_self _ _)) nofun, scan_bare]
  · rw [scan_ordinary _ _ none false hdrop nofun, scan_bare]

theorem tokensOf_ordinary (n : Nat) : ∀ {s : List Char}, Ordinary b s →
    tokensOf b n s = tokensOf bareBuild n s := by
  induction n with
  | zero => intro s _; rfl
  | succ n ih =>
    intro s h
    rw [tokensOf, tokensOf, nextToken_ordinary h]
    rcases head_cases s with hnone | ⟨token, rest, hsome, hsuffix, -⟩
    · rw [hnone]
    · rw [hsome]
      exact congrArg (token :: ·) (ih (h.mono hsuffix.subset))

theorem nshStrchr_ordinary (h : Ordinary b s) :
    nshStrchr b '"' false s = nshStrchr bareBuild '"' false s := by
  induction s with
  | nil => rfl
  | cons c s ih =>
    have hslash : ¬(b.quote && b.argcat && c == '\\' && !false) = true := by
      simp only [Bool.and_eq_true, beq_iff_eq]
      exact fun hh => h.1 hh.1.1.1 (by simp [hh.1.2])
    rw [nshStrchr, nshStrchr, if_neg hslash, ih (h.mono (subset_cons_self c s))]
    rfl

theorem nshParseFrom_ordinary (fuel : Nat) : ∀ {start : List Char} (off : Nat), Ordinary b start →
    nshParseFrom b run fuel start off = nshParseFrom bareBuild run fuel start off := by
  induction fuel with
  | zero => intro start off _; rfl
  | succ fuel ih =>
    intro start off h
    have hsub : ∀ n, (start.drop off).drop n ⊆ start := fun n =>
      (((drop_suffix n _).trans (drop_suffix off start))).subset
    have htokens : ∀ {t : List Char}, t ⊆ start → commandTokens b t = commandTokens bareBuild t :=
      fun ht => tokensOf_ordinary _ (h.mono ht)
    rw [nshParseFrom, nshParseFrom]
    simp only [htokens (take_subset _ start), htokens (List.Subset.refl start)]
    have hrest := hsub ((start.drop off).takeWhile (!gLineSeparator.contains ·)).length
    split
    · next ptr heq =>
      rw [heq] at hrest
      rw [ih 0 (h.mono fun c hc => hrest (mem_cons_of_mem _ hc))]
    · next ptr heq =>
      rw [heq] at hrest
      rw [nshStrchr_ordinary (h.mono fun c hc => hrest (mem_cons_of_mem _ hc))]
      split
      · rfl
      · exact ih _ h
    · rfl

/-- **When `nsh_parse` does what the line says**, whatever the commands return: if and only if the line
is aligned. Every other configuration does the same with a line that has none of the characters that
only the configuration knows. -/
theorem line_split_iff (line : List Char) :
    ((∀ run : List Token → Int, nshParse bareBuild run line = runLine run line) ↔
      Aligned bareBuild line) ∧
    ∀ (b : Build) (run : List Token → Int), Ordinary b line →
      nshParse b run line = nshParse bareBuild run line :=
  ⟨⟨fun h => aligned_of_parse line (h _), fun h _ => parse_of_aligned line h⟩,
    fun _ _ h => nshParseFrom_ordinary (line.length + 1) 0 h⟩

/-- `echo a#b;ls` prints `a#b;ls`, and `ls` is not run; in `echo a"b c"` the blank ends an argument. -/
theorem line_not_split :
    ¬(∀ line : List Char, nshParse bareBuild (fun _ => 0) line = runLine (fun _ => 0) line) ∧
      (nshParse bareBuild (fun _ => 0) "echo a#b;ls".toList).1
        = [[.word false "echo".toList, .word false "a#b;ls".toList]] ∧
      (nshParse bareBuild (fun _ => 0) "echo a\"b c\"".toList).1
        = [[.word false "echo".toList, .word false "a\"b".toList, .word false "c\"".toList]] := by
  refine ⟨fun h => absurd (h "echo a#b;ls".toList) (by decide), by decide, by decide⟩

end Gpmx.Nsh.Args
