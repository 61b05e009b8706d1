import Gpmx.Infra.Memory
import Mathlib

/-!
# The escapes of `echo -e`

`str_escape` of `gpm/modules/nshlib/nsh_envcmds.c`, on the bytes of the string. What it reads and writes has to
lie before `stop`, or there is no result.

* `strEscape` — the string afterwards, and where its end is
* `unescape` — the same as a function of strings, for any rules; `code` and `meant` are two
* `escapes_iff` — exactly when the escapes are decoded as they are meant
-/

namespace Gpmx.Nsh.Escape

open Infra Option List Memory

/-- `'\\'` -/
abbrev backslash : UInt8 := 92

def load (stop : Nat) (m : Memory UInt8) (i : Nat) : Option UInt8 :=
  if i < stop then some (m i) else none

def store (stop : Nat) (m : Memory UInt8) (i : Nat) (c : UInt8) : Option (Memory UInt8) :=
  if i < stop then some (m.write i [c]) else none

/-- The digits from 0 to `last`. -/
def octalDigit (last : UInt8) (d : UInt8) : Option Nat :=
  if 48 ≤ d ∧ d ≤ last then some (d.toNat - 48) else none

/-- `isxdigit`, and what it stands for. -/
def hexDigit (d : UInt8) : Option Nat :=
  if 48 ≤ d ∧ d ≤ 57 then some (d.toNat - 48)
  else if 97 ≤ d ∧ d ≤ 102 then some (d.toNat - 97 + 10)
  else if 65 ≤ d ∧ d ≤ 70 then some (d.toNat - 65 + 10)
  else none

def numberLoop (digit : UInt8 → Option Nat) (base stop : Nat) (m : Memory UInt8) :
    (l q c : Nat) → Option (Nat × Nat)
  | 0, q, c => some (q, c)
  | l + 1, q, c => do
    let d ← load stop m (q + 1)
    match digit d with
    | some v => numberLoop digit base stop m l (q + 1) (base * c + v)
    | none => some (q, c)

/-- The cases of `CHAR_ESCAPE`. -/
def charEscape (c : UInt8) : Option UInt8 :=
  if c ∈ [7, 8, 12, 10, 13, 11, backslash] then some c else none

/-- The loop of `str_escape`, for so many characters; the end is where the terminator is stored. -/
def strEscapeLoop (stop : Nat) : (fuel : Nat) → Memory UInt8 → (s q : Nat) → Option (Memory UInt8 × Nat)
  | 0, _, _, _ => none
  | fuel + 1, m, s, q => do
    let c ← load stop m q
    if c = 0 then do
      let m ← store stop m s 0
      some (m, s)
    else if c ≠ backslash then do
      let m ← store stop m s c
      strEscapeLoop stop fuel m (s + 1) (q + 1)
    else do
      let q := q + 1
      let c ← load stop m q
      if c = 48 then do
        let (q, n) ← numberLoop (octalDigit 56) 8 stop m 3 q 0
        let m ← store stop m s (UInt8.ofNat n)
        strEscapeLoop stop fuel m (s + 1) (q + 1)
      else if c = 120 then do
        let (q, n) ← numberLoop hexDigit 16 stop m 2 q 0
        let m ← store stop m s (UInt8.ofNat n)
        strEscapeLoop stop fuel m (s + 1) (q + 1)
      else if c = 0 then do
        let m ← store stop m s backslash
        let m ← store stop m (s + 1) 0
        some (m, s + 1)
      else match charEscape c with
        | some b => do
          let m ← store stop m s b
          strEscapeLoop stop fuel m (s + 1) (q + 1)
        | none => do
          let m ← store stop m s backslash
          let m ← store stop m (s + 1) c
          strEscapeLoop stop fuel m (s + 2) (q + 1)

/-- `str_escape` for a string at `a` whose terminator is the last byte before `stop`. -/
def strEscape (stop : Nat) (m : Memory UInt8) (a : Nat) : Option (Memory UInt8 × Nat) :=
  strEscapeLoop stop (stop - a) m a a

/-! ## Rules for escapes -/

structure Rules where
  simple : UInt8 → Option UInt8
  octal : UInt8 → Option Nat

/-- At most `l` digits. -/
def digits (digit : UInt8 → Option Nat) : (l : Nat) → List UInt8 → List Nat
  | l + 1, d :: rest =>
    match digit d with
    | some v => v :: digits digit l rest
    | none => []
  | _, _ => []

def byteOf (base : Nat) (ds : List Nat) : UInt8 :=
  UInt8.ofNat (ds.foldl (fun c v => base * c + v) 0)

def unescape (r : Rules) : List UInt8 → List UInt8
  | [] => []
  | c :: rest =>
    if c ≠ backslash then c :: unescape r rest
    else match rest with
      | [] => [backslash]
      | d :: rest =>
        if d = 48 then
          byteOf 8 (digits r.octal 3 rest) :: unescape r (rest.drop (digits r.octal 3 rest).length)
        else if d = 120 then
          byteOf 16 (digits hexDigit 2 rest) :: unescape r (rest.drop (digits hexDigit 2 rest).length)
        else match r.simple d with
          | some b => b :: unescape r rest
          | none => backslash :: d :: unescape r rest
termination_by str => str.length
decreasing_by all_goals simp <;> omega

def code : Rules where
  simple := charEscape
  octal := octalDigit 56

/-- `\a \b \f \n \r \v \\`, and octal digits up to 7. -/
def meant : Rules where
  simple c := [(97, 7), (98, 8), (102, 12), (110, 10), (114, 13), (118, 11), (backslash, backslash)].lookup c
  octal := octalDigit 55

variable {r : Rules} {c d : UInt8} {rest : List UInt8}

theorem unescape_nil : unescape r [] = [] := by rw [unescape]

theorem unescape_plain (h : c ≠ backslash) : unescape r (c :: rest) = c :: unescape r rest := by
  rw [unescape.eq_def]
  exact if_pos h

theorem unescape_last : unescape r [backslash] = [backslash] := by
  rw [unescape, if_neg (not_not.mpr rfl)]

theorem unescape_octal : unescape r (backslash :: 48 :: rest) =
    byteOf 8 (digits r.octal 3 rest) :: unescape r (rest.drop (digits r.octal 3 rest).length) := by
  rw [unescape, if_neg (not_not.mpr rfl)]
  exact if_pos rfl

theorem unescape_hex : unescape r (backslash :: 120 :: rest) =
    byteOf 16 (digits hexDigit 2 rest) :: unescape r (rest.drop (digits hexDigit 2 rest).length) := by
  rw [unescape, if_neg (not_not.mpr rfl)]
  rw [if_neg (by decide), if_pos rfl]

theorem unescape_simple {b : UInt8} (h0 : d ≠ 48) (hx : d ≠ 120) (h : r.simple d = some b) :
    unescape r (backslash :: d :: rest) = b :: unescape r rest := by
  rw [unescape, if_neg (not_not.mpr rfl)]
  rw [if_neg h0, if_neg hx, h]

theorem unescape_pair (h0 : d ≠ 48) (hx : d ≠ 120) (h : r.simple d = none) :
    unescape r (backslash :: d :: rest) = backslash :: d :: unescape r rest := by
  rw [unescape, if_neg (not_not.mpr rfl)]
  rw [if_neg h0, if_neg hx, h]

theorem escape_induction {P : List UInt8 → Prop} (nil : P [])
    (plain : ∀ c rest, c ≠ backslash → P rest → P (c :: rest)) (last : P [backslash])
    (octal : ∀ rest, (∀ k, P (rest.drop k)) → P (backslash :: 48 :: rest))
    (hex : ∀ rest, (∀ k, P (rest.drop k)) → P (backslash :: 120 :: rest))
    (pair : ∀ d rest, d ≠ 48 → d ≠ 120 → P rest → P (backslash :: d :: rest)) (str : List UInt8) : P str := by
  induction hn : str.length using Nat.strongRecOn generalizing str with
  | ind n ih =>
    subst hn
    match str with
    | [] => exact nil
    | c :: rest =>
      by_cases hc : c = backslash
      · subst hc
        match rest with
        | [] => exact last
        | d :: rest =>
          have hdrop (k : Nat) : P (rest.drop k) := ih _ (by simp; omega) _ rfl
          by_cases h0 : d = 48
          · exact h0 ▸ octal rest hdrop
          · by_cases hx : d = 120
            · exact hx ▸ hex rest hdrop
            · exact pair d rest h0 hx (hdrop 0)
      · exact plain c rest hc (ih _ (by simp) _ rfl)

/-! ## Where the rules agree -/

/-- No escape is taken otherwise than it is meant: no letter and no control character after a backslash, and no 8
among octal digits. -/
inductive Plain : List UInt8 → Prop
  | nil : Plain []
  | plain {c : UInt8} {rest : List UInt8} (hc : c ≠ backslash) (h : Plain rest) : Plain (c :: rest)
  | last : Plain [backslash]
  | octal {rest : List UInt8} (h8 : 8 ∉ digits code.octal 3 rest) (h : Plain (rest.drop (digits code.octal 3 rest).length)) :
    Plain (backslash :: 48 :: rest)
  | hex {rest : List UInt8} (h : Plain (rest.drop (digits hexDigit 2 rest).length)) : Plain (backslash :: 120 :: rest)
  | pair {d : UInt8} {rest : List UInt8} (h0 : d ≠ 48) (hx : d ≠ 120) (hd : code.simple d = meant.simple d) (h : Plain rest) :
    Plain (backslash :: d :: rest)

/-- `a b f n r v` -/
def IsLetter (c : UInt8) : Prop := c ∈ [97, 98, 102, 110, 114, 118]

instance (c : UInt8) : Decidable (IsLetter c) := inferInstanceAs (Decidable (c ∈ _))

theorem simple_cases (d : UInt8) : (d = backslash ∧ code.simple d = some d ∧ meant.simple d = some d) ∨
    (d ≠ backslash ∧ code.simple d = some d ∧ meant.simple d = none) ∨
    (IsLetter d ∧ code.simple d = none ∧ ∃ b ∈ [7, 8, 12, 10, 13, 11], meant.simple d = some b) ∨
    (code.simple d = none ∧ meant.simple d = none ∧ d ≠ backslash) := by
  have hcontrol : ∀ d ∈ [(7 : UInt8), 8, 12, 10, 13, 11], code.simple d = some d ∧ meant.simple d = none := by decide +kernel
  have hletter : ∀ d ∈ [(97 : UInt8), 98, 102, 110, 114, 118], code.simple d = none ∧
      ∃ b ∈ [7, 8, 12, 10, 13, 11], meant.simple d = some b := by decide +kernel
  by_cases hb : d = backslash
  · subst hb
    exact .inl ⟨rfl, by decide, by decide⟩
  by_cases hc : d ∈ [(7 : UInt8), 8, 12, 10, 13, 11]
  · exact .inr (.inl ⟨hb, hcontrol d hc⟩)
  by_cases hl : IsLetter d
  · exact .inr (.inr (.inl ⟨hl, hletter d hl⟩))
  · refine .inr (.inr (.inr ⟨?_, ?_, hb⟩))
    · refine if_neg fun hmem => ?_
      simp only [mem_cons, not_mem_nil, or_false] at hc hmem
      grind
    · show List.lookup _ _ = _
      simp only [IsLetter, mem_cons, not_mem_nil, or_false, not_or] at hl
      rw [lookup_eq_none_iff]
      simp [hl, hb]

variable {d : UInt8} {s : Nat} {str : List UInt8} {q : Nat}

theorem octal_of_ne (h : d ≠ 56) : meant.octal d = code.octal d := by
  have hiff : 48 ≤ d ∧ d ≤ 55 ↔ 48 ≤ d ∧ d ≤ 56 := by
    have hne : d.toNat ≠ 56 := fun heq => h (UInt8.toNat_inj.mp heq)
    have h1 : d ≤ 55 ↔ d.toNat ≤ 55 := UInt8.le_iff_toNat_le
    have h2 : d ≤ 56 ↔ d.toNat ≤ 56 := UInt8.le_iff_toNat_le
    refine and_congr_right fun _ => ?_
    rw [h1, h2]
    omega
  show octalDigit 55 d = octalDigit 56 d
  unfold octalDigit
  by_cases hd : 48 ≤ d ∧ d ≤ 56
  · rw [if_pos hd, if_pos (hiff.mpr hd)]
  · rw [if_neg hd, if_neg (mt hiff.mp hd)]

theorem code_octal_some {v : Nat} (h : code.octal d = some v) :
    d ≠ backslash ∧ ¬IsLetter d ∧ v = d.toNat - 48 ∧ 48 ≤ d.toNat ∧ d.toNat ≤ 56 := by
  have h : octalDigit 56 d = some v := h
  unfold octalDigit at h
  split at h
  · next hd =>
    obtain ⟨h1, h2⟩ := hd
    have h1 : 48 ≤ d.toNat := h1
    have h2 : d.toNat ≤ 56 := h2
    refine ⟨?_, ?_, (some.inj h).symm, h1, h2⟩
    · rintro rfl
      exact absurd h2 (by decide)
    · intro hl
      exact absurd h2 ((by decide +kernel : ∀ d ∈ [(97 : UInt8), 98, 102, 110, 114, 118], ¬d.toNat ≤ 56) d hl)
  · cases h

theorem unescape_digits (l : Nat) (rest : List UInt8) : ∃ s, (∀ c ∈ s, ¬IsLetter c) ∧
    unescape meant rest = s ++ unescape meant (rest.drop (digits code.octal l rest).length) := by
  induction l generalizing rest with
  | zero => exact ⟨[], by simp, by simp [digits]⟩
  | succ l ih =>
    match rest with
    | [] => exact ⟨[], by simp, by simp [digits]⟩
    | d :: rest =>
      rw [digits]
      cases hd : code.octal d with
      | none => exact ⟨[], by simp, rfl⟩
      | some v =>
        obtain ⟨hb, hl, -⟩ := code_octal_some hd
        obtain ⟨s, hs, heq⟩ := ih rest
        refine ⟨d :: s, ?_, ?_⟩
        · simpa using ⟨hl, hs⟩
        · rw [unescape_plain hb, heq]
          rfl

theorem digits_cases (l : Nat) (rest : List UInt8) :
    (8 ∉ digits code.octal l rest ∧ digits meant.octal l rest = digits code.octal l rest) ∨
      (8 ∈ digits code.octal l rest ∧ (digits meant.octal l rest).length < l ∧
        (∀ v ∈ digits meant.octal l rest, v < 8) ∧ ∃ s, s ≠ [] ∧ (∀ c ∈ s, ¬IsLetter c) ∧
        unescape meant (rest.drop (digits meant.octal l rest).length) =
          s ++ unescape meant (rest.drop (digits code.octal l rest).length)) := by
  induction l generalizing rest with
  | zero => exact .inl ⟨by simp [digits], by simp [digits]⟩
  | succ l ih =>
    match rest with
    | [] => exact .inl ⟨by simp [digits], by simp [digits]⟩
    | d :: rest =>
      by_cases h8 : d = 56
      · subst h8
        obtain ⟨s, hs, heq⟩ := unescape_digits l rest
        have hcode : digits code.octal (l + 1) (56 :: rest) = 8 :: digits code.octal l rest := rfl
        have hmeant : digits meant.octal (l + 1) (56 :: rest) = [] := rfl
        refine .inr ⟨by rw [hcode]; exact mem_cons_self, by rw [hmeant]; exact Nat.succ_pos l,
          by rw [hmeant]; simp, 56 :: s, by simp, ?_, ?_⟩
        · simpa using ⟨by decide, hs⟩
        · rw [hmeant, hcode, length_cons, drop_succ_cons, length_nil, drop_zero,
            unescape_plain (by decide), heq]
          rfl
      · rw [digits, digits, octal_of_ne h8]
        cases hd : code.octal d with
        | none => exact .inl ⟨by simp, rfl⟩
        | some v =>
          have hv : v < 8 := by
            obtain ⟨-, -, hv, hlo, hhi⟩ := code_octal_some hd
            have hne : d.toNat ≠ 56 := fun heq => h8 (UInt8.toNat_inj.mp heq)
            omega
          rcases ih rest with ⟨hno, heq⟩ | ⟨hmem, hlen, hsmall, s, hne, hs, heq⟩
          · exact .inl ⟨by simpa using ⟨by omega, hno⟩, by rw [heq]⟩
          · exact .inr ⟨mem_cons_of_mem _ hmem, Nat.succ_lt_succ hlen, by simpa using ⟨hv, hsmall⟩, s, hne, hs,
              heq⟩

theorem not_isLetter_byteOf {ds : List Nat} (hlen : ds.length < 3) (hsmall : ∀ v ∈ ds, v < 8) :
    ¬IsLetter (byteOf 8 ds) := by
  have hlt : ds.foldl (fun c v => 8 * c + v) 0 < 64 := by
    match ds, hlen with
    | [], _ => decide
    | [a], _ =>
      have ha := hsmall a (by simp)
      show 8 * 0 + a < 64
      omega
    | [a, b], _ =>
      have ha := hsmall a (by simp)
      have hb := hsmall b (by simp)
      show 8 * (8 * 0 + a) + b < 64
      omega
  intro hl
  have hge := (by decide +kernel : ∀ d ∈ [(97 : UInt8), 98, 102, 110, 114, 118], 97 ≤ d.toNat) _ hl
  rw [byteOf, UInt8.toNat_ofNat', Nat.mod_eq_of_lt (by omega)] at hge
  omega

theorem octal_cases (rest : List UInt8) :
    (8 ∉ digits code.octal 3 rest ∧ unescape meant (backslash :: 48 :: rest) =
      byteOf 8 (digits code.octal 3 rest) :: unescape meant (rest.drop (digits code.octal 3 rest).length)) ∨
    (8 ∈ digits code.octal 3 rest ∧ ∃ b s, ¬IsLetter b ∧ s ≠ [] ∧ (∀ c ∈ s, ¬IsLetter c) ∧
      unescape meant (backslash :: 48 :: rest) =
        b :: (s ++ unescape meant (rest.drop (digits code.octal 3 rest).length))) := by
  rw [unescape_octal]
  rcases digits_cases 3 rest with ⟨hno, heq⟩ | ⟨hmem, hlen, hsmall, s, hne, hs, heq⟩
  · exact .inl ⟨hno, by rw [heq]⟩
  · exact .inr ⟨hmem, _, s, not_isLetter_byteOf hlen hsmall, hne, hs, by rw [heq]⟩

theorem unescape_ne_ahead (str : List UInt8) : ∀ w, w ≠ [] → (∀ c ∈ w, ¬IsLetter c) →
    unescape code str ≠ w ++ unescape meant str := by
  have hrotate {x : UInt8} {w t u v : List UInt8} (hw : ∀ c ∈ x :: w, ¬IsLetter c) (ht : t ≠ []) (hlt : ∀ c ∈ t, ¬IsLetter c)
      (ih : ∀ w, w ≠ [] → (∀ c ∈ w, ¬IsLetter c) → u ≠ w ++ v) : u ≠ w ++ (t ++ v) := by
    rw [← append_assoc]
    refine ih _ (by simp [ht]) fun c hc => ?_
    rcases mem_append.mp hc with hc | hc
    · exact hw c (mem_cons_of_mem x hc)
    · exact hlt c hc
  have hbackslash : ¬IsLetter backslash := by decide
  induction str using escape_induction with
  | nil =>
    intro w hne _ heq
    rw [unescape_nil, unescape_nil, append_nil] at heq
    exact hne heq.symm
  | plain c rest hc ih =>
    intro w hne hw heq
    obtain ⟨x, w, rfl⟩ := exists_cons_of_ne_nil hne
    rw [unescape_plain hc, unescape_plain hc, cons_append] at heq
    obtain ⟨rfl, htail⟩ := List.cons.inj heq
    exact hrotate (t := [c]) hw (by simp) (by simpa using hw c mem_cons_self) ih htail
  | last =>
    intro w hne _ heq
    rw [unescape_last, unescape_last] at heq
    have hlen := congrArg List.length heq
    rw [length_append] at hlen
    exact hne (length_eq_zero_iff.mp (by omega))
  | octal rest ih =>
    intro w hne hw heq
    obtain ⟨x, w, rfl⟩ := exists_cons_of_ne_nil hne
    rw [unescape_octal, cons_append] at heq
    rcases octal_cases rest with ⟨-, hm⟩ | ⟨-, b, s, hb, -, hs, hm⟩
    · rw [hm] at heq
      obtain ⟨rfl, htail⟩ := List.cons.inj heq
      exact hrotate (t := [_]) hw (by simp) (by simpa using hw _ mem_cons_self) (ih _) htail
    · rw [hm] at heq
      obtain ⟨-, htail⟩ := List.cons.inj heq
      exact hrotate (t := b :: s) hw (by simp) (by simpa using ⟨hb, hs⟩) (ih _) htail
  | hex rest ih =>
    intro w hne hw heq
    obtain ⟨x, w, rfl⟩ := exists_cons_of_ne_nil hne
    rw [unescape_hex, unescape_hex, cons_append] at heq
    obtain ⟨rfl, htail⟩ := List.cons.inj heq
    exact hrotate (t := [_]) hw (by simp) (by simpa using hw _ mem_cons_self) (ih _) htail
  | pair d rest h0 hx ih =>
    intro w hne hw heq
    obtain ⟨x, w, rfl⟩ := exists_cons_of_ne_nil hne
    rcases simple_cases d with ⟨rfl, hcode, hmeant⟩ | ⟨-, hcode, hmeant⟩ | ⟨hl, hcode, b, hb, hmeant⟩ | ⟨hcode, hmeant, hd⟩
    · rw [unescape_simple h0 hx hcode, unescape_simple h0 hx hmeant, cons_append] at heq
      obtain ⟨rfl, htail⟩ := List.cons.inj heq
      exact hrotate (t := [_]) hw (by simp) (by simpa using hbackslash) ih htail
    · rw [unescape_simple h0 hx hcode, unescape_pair h0 hx hmeant, cons_append] at heq
      obtain ⟨rfl, htail⟩ := List.cons.inj heq
      exact hrotate (t := [_, _]) hw (by simp) (by simpa using ⟨hbackslash, hw d mem_cons_self⟩) ih htail
    · -- the letter would be the next that is ahead
      rw [unescape_pair h0 hx hcode, unescape_simple h0 hx hmeant, cons_append] at heq
      obtain ⟨-, htail⟩ := List.cons.inj heq
      match w, htail with
      | [], htail =>
        obtain ⟨rfl, -⟩ := List.cons.inj htail
        exact absurd hb ((by decide +kernel : ∀ d ∈ [(97 : UInt8), 98, 102, 110, 114, 118], d ∉ [(7 : UInt8), 8, 12, 10, 13, 11]) d hl)
      | y :: w, htail =>
        obtain ⟨rfl, -⟩ := List.cons.inj htail
        exact hw d (by simp) hl
    · rw [unescape_pair h0 hx hcode, unescape_pair h0 hx hmeant, cons_append] at heq
      obtain ⟨rfl, htail⟩ := List.cons.inj heq
      match w, htail with
      | [], htail => exact hd (List.cons.inj htail).1
      | y :: w, htail =>
        obtain ⟨rfl, hlast⟩ := List.cons.inj htail
        exact hrotate (t := [_, _]) (fun c hc => hw c (mem_cons_of_mem _ hc)) (by simp)
          (by simpa using ⟨hbackslash, hw d (by simp)⟩) ih hlast

/-- **Exactly when the two rules agree.** -/
theorem unescape_eq_iff (str : List UInt8) : unescape code str = unescape meant str ↔ Plain str := by
  induction str using escape_induction with
  | nil => exact iff_of_true (by rw [unescape_nil, unescape_nil]) .nil
  | plain c rest hc ih =>
    rw [unescape_plain hc, unescape_plain hc, List.cons.injEq, eq_self, true_and, ih]
    refine ⟨.plain hc, fun h => ?_⟩
    cases h with
    | plain _ h => exact h
    | last => exact .nil
    | octal | hex | pair => exact absurd rfl hc
  | last => exact iff_of_true (by rw [unescape_last, unescape_last]) .last
  | octal rest ih =>
    rw [unescape_octal]
    rcases octal_cases rest with ⟨h8, hm⟩ | ⟨h8, b, s, hb, hne, hs, hm⟩
    · rw [hm, List.cons.injEq, eq_self, true_and, ih]
      refine ⟨.octal h8, fun h => ?_⟩
      cases h with
      | plain hc => exact absurd rfl hc
      | octal _ h => exact h
      | pair h0 => exact absurd rfl h0
    · rw [hm, List.cons.injEq]
      refine iff_of_false (fun h => unescape_ne_ahead _ s hne hs h.2) fun h => ?_
      cases h with
      | plain hc => exact absurd rfl hc
      | octal hno => exact hno h8
      | pair h0 => exact absurd rfl h0
  | hex rest ih =>
    rw [unescape_hex, unescape_hex, List.cons.injEq, eq_self, true_and, ih]
    refine ⟨.hex, fun h => ?_⟩
    cases h with
    | plain hc => exact absurd rfl hc
    | hex h => exact h
    | pair _ hx => exact absurd rfl hx
  | pair d rest h0 hx ih =>
    have hinv (h : Plain (backslash :: d :: rest)) : code.simple d = meant.simple d ∧ Plain rest := by
      cases h with
      | plain hc => exact absurd rfl hc
      | octal => exact absurd rfl h0
      | hex => exact absurd rfl hx
      | pair _ _ hd h => exact ⟨hd, h⟩
    rcases simple_cases d with ⟨-, hcode, hmeant⟩ | ⟨hd, hcode, hmeant⟩ | ⟨-, hcode, b, hb, hmeant⟩ | ⟨hcode, hmeant, -⟩
    · rw [unescape_simple h0 hx hcode, unescape_simple h0 hx hmeant, List.cons.injEq, eq_self, true_and, ih]
      exact ⟨.pair h0 hx (hcode.trans hmeant.symm), fun h => (hinv h).2⟩
    · rw [unescape_simple h0 hx hcode, unescape_pair h0 hx hmeant]
      refine iff_of_false (fun h => hd (List.cons.inj h).1) fun h => ?_
      exact nomatch hcode.symm.trans ((hinv h).1.trans hmeant)
    · rw [unescape_pair h0 hx hcode, unescape_simple h0 hx hmeant]
      refine iff_of_false (fun h => ?_) fun h => nomatch hcode.symm.trans ((hinv h).1.trans hmeant)
      obtain ⟨rfl, -⟩ := List.cons.inj h
      exact absurd hb (by decide)
    · rw [unescape_pair h0 hx hcode, unescape_pair h0 hx hmeant, List.cons.injEq, List.cons.injEq, eq_self, eq_self,
        true_and, true_and, ih]
      exact ⟨.pair h0 hx (hcode.trans hmeant.symm), fun h => (hinv h).2⟩

/-! ## In place -/

variable {m m' : Memory UInt8} {stop : Nat}

/-- From `m` to `m'`, a string is stored before `stop` and nothing else. -/
structure Stored (m m' : Memory UInt8) (s : Nat) (str : List UInt8) (stop : Nat) : Prop where
  holds : m'.Holds s (str ++ [0])
  outside : ∀ i, i < s ∨ stop ≤ i → m' i = m i

theorem Stored.cons (h : Stored (m.write s [c]) m' (s + 1) str stop) (hs : s < stop) :
    Stored m m' s (c :: str) stop := by
  have hbyte : m.write s [c] s = c := by simp [Memory.write]
  refine ⟨holds_cons.mpr ⟨?_, h.holds⟩, fun i hi => ?_⟩
  · rw [h.outside s (.inl (Nat.lt_succ_self s)), hbyte]
  · rw [h.outside i (by omega)]
    exact write_of_not_mem (by simp; omega)

theorem stored_terminator (hs : s < stop) : Stored m (m.write s [0]) s [] stop :=
  ⟨holds_write_self m s [0], fun i hi => write_of_not_mem (by simp; omega)⟩

theorem holds_write (hs : s < q) (h : m.Holds q str) : (m.write s [c]).Holds q str := by
  refine Eq.trans (read_congr fun i hi _ => ?_) h
  exact write_of_not_mem (by simp; omega)

theorem load_eq (h : m.Holds q (c :: rest)) (hq : q < stop) : load stop m q = some c := by
  unfold load
  rw [if_pos hq, (holds_cons.mp h).1]

theorem store_eq (hs : s < stop) : store stop m s c = some (m.write s [c]) := if_pos hs

theorem numberLoop_eq {digit : UInt8 → Option Nat} (base : Nat) (h0 : digit 0 = none) (l q n : Nat) (rest : List UInt8)
    (hm : m.Holds (q + 1) (rest ++ [0])) (hstop : q + 1 + rest.length < stop) :
    numberLoop digit base stop m l q n =
      some (q + (digits digit l rest).length, (digits digit l rest).foldl (fun c v => base * c + v) n) := by
  induction l generalizing q n rest with
  | zero => rfl
  | succ l ih =>
    match rest with
    | [] =>
      have hload : load stop m (q + 1) = some 0 := load_eq hm (by omega)
      simp only [numberLoop, hload, bind_eq_bind, bind_some, h0, digits]
      rfl
    | d :: rest =>
      rw [length_cons] at hstop
      have hload : load stop m (q + 1) = some d := load_eq hm (by omega)
      simp only [numberLoop, hload, bind_eq_bind, bind_some, digits]
      cases hd : digit d with
      | none => rfl
      | some v =>
        dsimp only
        rw [ih (q + 1) (base * n + v) rest (holds_cons.mp hm).2 (by omega), length_cons, foldl_cons,
          Nat.add_assoc, Nat.add_comm 1]

theorem length_digits_le (digit : UInt8 → Option Nat) (l : Nat) (rest : List UInt8) :
    (digits digit l rest).length ≤ rest.length := by
  induction l generalizing rest with
  | zero => exact Nat.zero_le _
  | succ l ih =>
    match rest with
    | [] => exact Nat.le_refl _
    | d :: rest =>
      rw [digits]
      split
      · exact Nat.succ_le_succ (ih rest)
      · exact Nat.zero_le _

theorem holds_drop (hm : m.Holds q (rest ++ [0])) {k : Nat} (hk : k ≤ rest.length) :
    m.Holds (q + k) (rest.drop k ++ [0]) := by
  have hsplit : rest ++ [0] = rest.take k ++ (rest.drop k ++ [0]) := by
    rw [← append_assoc, take_append_drop]
  rw [hsplit, holds_append, length_take, Nat.min_eq_left hk] at hm
  exact hm.2

/-- The run ends with the decoded string `out`, of at most `n` bytes, at `s`. -/
def Decodes (run : Option (Memory UInt8 × Nat)) (m : Memory UInt8) (s stop n : Nat) (out : List UInt8) : Prop :=
  ∃ m', run = some (m', s + out.length) ∧ Stored m m' s out stop ∧ out.length ≤ n

theorem Decodes.cons (h : Decodes o (m.write s [c]) (s + 1) stop k out) (hs : s < stop) (hk : k < n) :
    Decodes o m s stop n (c :: out) := by
  obtain ⟨m', hrun, hstored, hlen⟩ := h
  refine ⟨m', ?_, hstored.cons hs, Nat.le_trans (Nat.succ_le_succ hlen) hk⟩
  rw [hrun, length_cons, Nat.add_right_comm, Nat.add_assoc]

theorem decodes_terminator (hs : s < stop) : Decodes (some (m.write s [0], s)) m s stop n [] :=
  ⟨_, rfl, stored_terminator hs, Nat.zero_le n⟩

/-- **The loop decodes in place**, for what is left of the string at `q`. -/
theorem strEscapeLoop_eq (fuel : Nat) (m : Memory UInt8) (s q : Nat) (rest : List UInt8) (hzero : 0 ∉ rest)
    (hm : m.Holds q (rest ++ [0])) (hs : s ≤ q) (hstop : q + rest.length + 1 = stop) (hfuel : rest.length < fuel) :
    Decodes (strEscapeLoop stop fuel m s q) m s stop rest.length (unescape code rest) := by
  induction fuel generalizing m s q rest with
  | zero => exact absurd hfuel (Nat.not_lt_zero _)
  | succ fuel ih =>
    -- a byte is stored, and `k` more bytes of the rest are behind
    have hone (c : UInt8) (rest' : List UInt8) (q' k n : Nat) (hz : 0 ∉ rest') (hm' : m.Holds q' (rest' ++ [0]))
        (hk : k ≤ rest'.length) (hq : s < q') (hend : q' + rest'.length + 1 = stop) (hf : rest'.length < fuel)
        (hn : rest'.length < n) :
        Decodes (strEscapeLoop stop fuel (m.write s [c]) (s + 1) (q' + k)) m s stop n
          (c :: unescape code (rest'.drop k)) :=
      (ih (m.write s [c]) (s + 1) (q' + k) (rest'.drop k) (fun hmem => hz (mem_of_mem_drop hmem))
        (holds_drop (holds_write hq hm') hk) (by omega) (by rw [length_drop]; omega)
        (by rw [length_drop]; omega)).cons (by omega) (by rw [length_drop]; omega)
    have hlt : s < stop := by omega
    match rest with
    | [] =>
      have hload : load stop m q = some 0 := load_eq hm (by omega)
      rw [unescape_nil]
      simp only [strEscapeLoop, hload, bind_eq_bind, bind_some, if_true, store_eq hlt]
      exact decodes_terminator hlt
    | c :: rest =>
      rw [length_cons] at hstop hfuel
      obtain ⟨hc0, hz⟩ := not_or.mp (mt mem_cons.mpr hzero)
      have hload : load stop m q = some c := load_eq hm (by omega)
      have hm1 := (holds_cons.mp hm).2
      by_cases hc : c = backslash
      · subst hc
        match rest with
        | [] =>
          have hload1 : load stop m (q + 1) = some 0 := load_eq hm1 (by omega)
          have hlt1 : s + 1 < stop := by rw [length_nil] at hstop; omega
          rw [unescape_last]
          simp only [strEscapeLoop, hload, hload1, bind_eq_bind, bind_some, store_eq hlt, store_eq hlt1]
          exact (decodes_terminator hlt1).cons hlt Nat.zero_lt_one
        | d :: rest =>
          rw [length_cons] at hstop hfuel
          obtain ⟨hd0, hz1⟩ := not_or.mp (mt mem_cons.mpr hz)
          have hload1 : load stop m (q + 1) = some d := load_eq hm1 (by omega)
          have hm2 := (holds_cons.mp hm1).2
          have hend : q + 1 + 1 + rest.length < stop := by omega
          by_cases h0 : d = 48
          · subst h0
            have hnumber := numberLoop_eq 8 (show octalDigit 56 0 = none by decide) 3 (q + 1) 0 rest hm2 hend
            rw [unescape_octal]
            simp only [strEscapeLoop, hload, hload1, hnumber, bind_eq_bind, bind_some, store_eq hlt]
            rw [Nat.add_right_comm (q + 1)]
            exact hone _ rest (q + 1 + 1) _ _ hz1 hm2 (length_digits_le code.octal 3 rest) (by omega) (by omega)
              (by omega) (Nat.lt_succ_of_lt (Nat.lt_succ_self _))
          by_cases hx : d = 120
          · subst hx
            have hnumber := numberLoop_eq 16 (show hexDigit 0 = none by decide) 2 (q + 1) 0 rest hm2 hend
            rw [unescape_hex]
            simp only [strEscapeLoop, hload, hload1, hnumber, bind_eq_bind, bind_some, store_eq hlt]
            rw [Nat.add_right_comm (q + 1)]
            exact hone _ rest (q + 1 + 1) _ _ hz1 hm2 (length_digits_le hexDigit 2 rest) (by omega) (by omega)
              (by omega) (Nat.lt_succ_of_lt (Nat.lt_succ_self _))
          cases hsimple : code.simple d with
          | some b =>
            rw [unescape_simple h0 hx hsimple]
            have hsimple : charEscape d = some b := hsimple
            simp only [strEscapeLoop, hload, hload1, bind_eq_bind, bind_some, h0, hx, Ne.symm hd0, hsimple,
              if_false, store_eq hlt]
            exact hone b rest (q + 1 + 1) 0 _ hz1 hm2 (Nat.zero_le _) (by omega) (by omega) (by omega)
              (Nat.lt_succ_of_lt (Nat.lt_succ_self _))
          | none =>
            have hlt1 : s + 1 < stop := by omega
            have hm3 := holds_write (c := d) (show s + 1 < q + 1 + 1 by omega)
              (holds_write (c := backslash) (show s < q + 1 + 1 by omega) hm2)
            rw [unescape_pair h0 hx hsimple]
            have hsimple : charEscape d = none := hsimple
            simp only [strEscapeLoop, hload, hload1, bind_eq_bind, bind_some, h0, hx, Ne.symm hd0, hsimple,
              if_false, store_eq hlt, store_eq hlt1]
            exact ((ih _ (s + 2) (q + 1 + 1) rest hz1 hm3 (by omega) (by omega) (by omega)).cons hlt1
              (Nat.lt_succ_self _)).cons hlt (Nat.lt_succ_self _)
      · rw [unescape_plain hc]
        simp only [strEscapeLoop, hload, bind_eq_bind, bind_some, Ne.symm hc0, hc, if_false, ne_eq,
          not_false_eq_true, if_true, store_eq hlt]
        exact hone c rest (q + 1) 0 _ hz hm1 (Nat.zero_le _) (by omega) (by omega) (by omega) (Nat.lt_succ_self _)

/-- **Exactly when the escapes of a string are decoded as they are meant.**

The string is always decoded in place, to one that is no longer, with nothing read or written behind its terminator.
But the cases of `CHAR_ESCAPE` are the control characters and not their letters, and 8 is taken for an octal digit. -/
theorem escapes_iff (m : Memory UInt8) (a : Nat) (str : List UInt8) (hzero : 0 ∉ str) (hm : m.Holds a (str ++ [0])) :
    ∃ m' stop', strEscape (a + str.length + 1) m a = some (m', stop') ∧ stop' ≤ a + str.length ∧
      (∀ i, i < a ∨ a + str.length < i → m' i = m i) ∧
      (stop' = a + (unescape meant str).length ∧ m'.Holds a (unescape meant str ++ [0]) ↔ Plain str) := by
  obtain ⟨m', hrun, ⟨hholds, houtside⟩, hlen⟩ := strEscapeLoop_eq
    (a + str.length + 1 - a) m a a str hzero hm (Nat.le_refl a) rfl (by omega)
  refine ⟨m', _, hrun, by omega, fun i hi => houtside i (by omega), ?_⟩
  rw [← unescape_eq_iff]
  constructor
  · rintro ⟨hend, hmeant⟩
    have hsame : (unescape code str ++ [0]).length = (unescape meant str ++ [0]).length := by
      rw [length_append, length_append]
      omega
    unfold Memory.Holds at hholds hmeant
    rw [hsame, hmeant] at hholds
    exact (append_cancel_right hholds).symm
  · intro heq
    rw [← heq]
    exact ⟨rfl, hholds⟩

/-- `a\x41` -/
theorem escapes_hex : ∃ m' stop', strEscape 6 (Memory.write (fun _ => 0) 0 [97, 92, 120, 52, 49, 0]) 0 = some (m', stop') ∧
    stop' ≤ 5 ∧ (∀ i, i < 0 ∨ 5 < i → m' i = Memory.write (fun _ => 0) 0 [97, 92, 120, 52, 49, 0] i) ∧
    (stop' = 0 + (unescape meant [97, 92, 120, 52, 49]).length ∧
      m'.Holds 0 (unescape meant [97, 92, 120, 52, 49] ++ [0]) ↔ Plain [97, 92, 120, 52, 49]) :=
  escapes_iff _ 0 [97, 92, 120, 52, 49] (by decide) (holds_write_self _ 0 [97, 92, 120, 52, 49, 0])

/-- `\n` is kept, a backslash before a newline is not, and `\08` is the byte 8. -/
theorem not_escapes : unescape code [92, 110] = [92, 110] ∧ unescape meant [92, 110] = [10] ∧
    unescape code [92, 10] = [10] ∧ unescape meant [92, 10] = [92, 10] ∧
    unescape code [92, 48, 56] = [8] ∧ unescape meant [92, 48, 56] = [0, 56] ∧
    (strEscape 3 (Memory.write (fun _ => 0) 0 [92, 110, 0]) 0).map (fun r => (r.1.read 0 3, r.2)) =
      some ([92, 110, 0], 2) := by
  refine ⟨?_, ?_, ?_, ?_, ?_, ?_, by decide⟩
  · rw [unescape_pair (by decide) (by decide) (by decide), unescape_nil]
  · rw [unescape_simple (by decide) (by decide) (show meant.simple 110 = some 10 by decide), unescape_nil]
  · rw [unescape_simple (by decide) (by decide) (show code.simple 10 = some 10 by decide), unescape_nil]
  · rw [unescape_pair (by decide) (by decide) (by decide), unescape_nil]
  · rw [unescape_octal, show digits code.octal 3 [56] = [8] by decide]
    exact congrArg _ unescape_nil
  · rw [unescape_octal, show digits meant.octal 3 [56] = [] by decide]
    exact congrArg _ (Eq.trans (unescape_plain (by decide)) (congrArg _ unescape_nil))

end Gpmx.Nsh.Escape
