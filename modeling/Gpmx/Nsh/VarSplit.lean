import Gpmx.Nsh.ArgvBound
import Mathlib

/-!
# NSH: what changes variables that are not set

A `set` that finds no memory has taken the variable out already. And where strings are not
concatenated, an expanded argument is the variable's value itself: the terminators that split it are
written into the buffer, and the value ends at the first of them.
-/

namespace Gpmx.Nsh.Args

open Option List

structure Store where
  state : ConsoleStdio
  vars : List Var
  represents : Represents state vars

/-! ## Terminators in values -/

/-- A byte that a terminator can be written over: a blank behind a `=` of the same string. -/
def Behind (p : ConsoleStdio) (i : Nat) : Prop :=
  (∃ c, p.bytes[i]? = some c ∧ isSeparator c = true) ∧
    ∃ j, j < i ∧ j < p.varsz ∧ p.bytes[j]? = some '=' ∧
      ∀ l, j < l → l < i → p.bytes[l]? ≠ some nul

/-- The buffer `q` is that of `p`, but for terminators in values. -/
structure Damaged (p q : ConsoleStdio) : Prop where
  varsz : q.varsz = p.varsz
  bytes : ∀ i, q.bytes[i]? = p.bytes[i]? ∨ (q.bytes[i]? = some nul ∧ Behind p i)

def Broken (p q : ConsoleStdio) : Prop := ∃ i, q.bytes[i]? = some nul ∧ Behind p i

theorem Damaged.refl (p : ConsoleStdio) : Damaged p p := ⟨rfl, fun _ => .inl rfl⟩

theorem separator_ne_nul {c : Char} (h : isSeparator c = true) : c ≠ nul := by
  rintro rfl
  cases h

theorem Damaged.of_ne_nul {p q : ConsoleStdio} (h : Damaged p q) {i : Nat}
    (hq : q.bytes[i]? ≠ some nul) : q.bytes[i]? = p.bytes[i]? :=
  (h.bytes i).resolve_right fun hn => hq hn.1

theorem pack_locate (es : List Var) : ∀ {i : Nat}, i < (pack es).length →
    ∃ pre e post, es = pre ++ e :: post ∧ (pack pre).length ≤ i ∧
      i ≤ (pack pre).length + (text e).length := by
  induction es with
  | nil => intro i h; simp at h
  | cons e es ih =>
    intro i h
    by_cases hi : i ≤ (text e).length
    · exact ⟨[], e, es, rfl, Nat.zero_le _, by simpa using hi⟩
    · obtain ⟨pre, d, post, hes, hlow, hhigh⟩ := ih (i := i - ((text e).length + 1))
        (by simp at h; omega)
      refine ⟨e :: pre, d, post, by rw [hes]; rfl, ?_, ?_⟩ <;>
      · simp
        omega

theorem Behind.locate {p : ConsoleStdio} {es : List Var} (h : Represents p es) {i : Nat}
    (hi : Behind p i) :
    ∃ (pre post : List Var) (n : VarName) (v : CString) (k : Nat), es = pre ++ ⟨n, v⟩ :: post ∧
      k < v.1.length ∧ i = (pack pre).length + n.chars.length + 1 + k := by
  obtain ⟨slack, hbytes⟩ := h.bytes
  obtain ⟨⟨c, hc, hsep⟩, j, hji, hjsz, hj, hbetween⟩ := hi
  rw [h.varsz] at hjsz
  obtain ⟨pre, e, post, hes, hlow, hhigh⟩ := pack_locate es hjsz
  have hall : p.bytes = pack pre ++ (text e ++ (nul :: (pack post ++ slack))) := by
    rw [hbytes, hes]
    simp
  have hat : ∀ l, p.bytes[(pack pre).length + l]? = (text e ++ nul :: (pack post ++ slack))[l]? := by
    intro l
    rw [hall, getElem?_append_right (by omega)]
    congr 1
    omega
  have hend : p.bytes[(pack pre).length + (text e).length]? = some nul := by
    rw [hat, getElem?_append_right (by omega)]
    simp
  have hj' : j ≠ (pack pre).length + (text e).length := by
    rintro rfl
    rw [hend] at hj
    exact absurd (some.inj hj) (by decide)
  have hi' : i < (pack pre).length + (text e).length := by
    rcases Nat.lt_trichotomy i ((pack pre).length + (text e).length) with hlt | heq | hgt
    · exact hlt
    · rw [heq, hend] at hc
      exact absurd (some.inj hc).symm (separator_ne_nul hsep)
    · exact absurd hend (hbetween _ (by omega) hgt)
  obtain ⟨l, rfl⟩ := Nat.exists_eq_add_of_le hlow
  rw [hat, getElem?_append_left (by omega), text] at hj
  have hname : e.1.chars.length ≤ l := by
    by_contra hlt
    rw [getElem?_append_left (by omega)] at hj
    exact e.1.eq_notMem (mem_of_getElem? hj)
  refine ⟨pre, post, e.1, e.2, i - ((pack pre).length + e.1.chars.length + 1), hes, ?_, by omega⟩
  have hlen : (text e).length = e.1.chars.length + 1 + e.2.1.length := by
    simp [text]
    omega
  omega

theorem eq_take_of_getElem? {xs ys : List Char} {i : Nat} {c : Char}
    (h : ∀ l < i, ys[l]? = xs[l]?) (hc : ys[i]? = some c) :
    ys = xs.take i ++ c :: ys.drop (i + 1) := by
  obtain ⟨hi, hget⟩ := List.getElem?_eq_some_iff.mp hc
  have htake : ys.take i = xs.take i := by
    apply ext_getElem?
    intro l
    rw [getElem?_take, getElem?_take]
    split
    · next hl => exact h l hl
    · rfl
  calc ys = ys.take i ++ ys.drop i := (take_append_drop i ys).symm
    _ = xs.take i ++ c :: ys.drop (i + 1) := by
      rw [htake, drop_eq_getElem_cons hi, hget]

/-- **Where a terminator was written a variable has lost its value**: the one whose value the first
of them is in. The strings before it are as they were, so that it is found where it was. -/
theorem Broken.changed {p q : ConsoleStdio} {es : List Var} (h : Represents p es)
    (hd : Damaged p q) (hb : Broken p q) :
    ∃ n : VarName, valueOf q n.chars ≠ valueOf p n.chars := by
  classical
  have hex : ∃ i, q.bytes[i]? = some nul ∧ Behind p i := hb
  obtain ⟨hnul, hbehind⟩ := Nat.find_spec hex
  have hfirst : ∀ l < Nat.find hex, q.bytes[l]? = p.bytes[l]? := fun l hl =>
    (hd.bytes l).resolve_right (Nat.find_min hex hl)
  generalize Nat.find hex = i at *
  obtain ⟨pre, post, n, v, k, hes, hk, hi⟩ := hbehind.locate h
  obtain ⟨slack, hbytes⟩ := h.bytes
  have hcut : nul ∉ v.1.take k := fun hm => v.2 (mem_of_mem_take hm)
  have hkeep : p.bytes.take i = pack pre ++ (n.chars ++ '=' :: v.1.take k) := by
    have hall : p.bytes = pack pre ++ (n.chars ++ '=' :: v.1.take k)
        ++ (v.1.drop k ++ nul :: (pack post ++ slack)) := by
      rw [hbytes, hes]
      simp only [pack_append, pack_cons, text, append_assoc, cons_append, nil_append]
      rw [← append_assoc (v.1.take k), take_append_drop]
    rw [hall, take_left' (by simp; omega)]
  have hq : q.bytes = pack (pre ++ [⟨n, ⟨v.1.take k, hcut⟩⟩]) ++ q.bytes.drop (i + 1) := by
    conv_lhs => rw [eq_take_of_getElem? hfirst hnul, hkeep]
    simp [text]
  have hnodup : (pre ++ [(⟨n, ⟨v.1.take k, hcut⟩⟩ : Var)]).NodupKeys := by
    have hkeys := h.nodup
    rw [hes, append_cons] at hkeys
    have hpre : (pre ++ [(⟨n, v⟩ : Var)]).NodupKeys := hkeys.sublist (sublist_append_left _ _)
    simpa [List.NodupKeys, List.keys] using hpre
  have hsz : (pack (pre ++ [(⟨n, ⟨v.1.take k, hcut⟩⟩ : Var)])).length ≤ q.varsz := by
    rw [hd.varsz, h.varsz, hes]
    simp only [pack_append, pack_cons, pack_nil, text, append_nil, length_append,
      length_cons, length_take]
    omega
  refine ⟨n, ?_⟩
  have hafter : (pre ++ [(⟨n, ⟨v.1.take k, hcut⟩⟩ : Var)]).dlookup n = some ⟨v.1.take k, hcut⟩ :=
    mem_dlookup hnodup (by simp)
  have hbefore : es.dlookup n = some v := mem_dlookup h.nodup (by rw [hes]; simp)
  rw [valueOf_found hq hsz hnodup (by simp [List.keys]), valueOf_eq h, hafter, hbefore]
  intro heq
  have hlen := congrArg (Option.map (Option.map List.length)) heq
  simp at hlen
  omega

/-! ## Splitting an argument that is in the buffer -/

/-- A pointer into a value: there is a `=` before it, and no terminator in between. -/
def InValue (p : ConsoleStdio) : Arg → Prop
  | .text _ => True
  | .stored i => ∃ j, j < i ∧ j < p.varsz ∧ p.bytes[j]? = some '=' ∧
      ∀ l, j < l → l < i → p.bytes[l]? ≠ some nul

theorem firstWord_stops {s : List Char} (h : (firstWord s).length ≠ s.length) :
    ∃ c, s[(firstWord s).length]? = some c ∧ isSeparator c = true := by
  have hlt : (firstWord s).length < s.length := by
    have := length_firstWord_le s
    omega
  have hdrop : s.drop (firstWord s).length = s.dropWhile (!isSeparator ·) :=
    drop_takeWhile (!isSeparator ·) s
  have hhead := head?_dropWhile_not (!isSeparator ·) s
  rw [← hdrop, head?_drop, getElem?_eq_getElem hlt] at hhead
  exact ⟨_, getElem?_eq_getElem hlt, by simpa using hhead⟩

theorem getElem?_string (q : ConsoleStdio) (i : Nat) {l : Nat}
    (h : l < ((Arg.stored i).string q).length) :
    q.bytes[i + l]? = ((Arg.stored i).string q)[l]? ∧ q.bytes[i + l]? ≠ some nul := by
  have hprefix : (Arg.stored i).string q <+: q.bytes.drop i := takeWhile_prefix _
  obtain ⟨t, ht⟩ := hprefix
  have heq : q.bytes[i + l]? = ((Arg.stored i).string q)[l]? := by
    rw [← getElem?_drop, ← ht, getElem?_append_left h]
  refine ⟨heq, fun hnul => ?_⟩
  rw [heq] at hnul
  have hmem := mem_takeWhile_imp (mem_of_getElem? hnul)
  simp at hmem

theorem damaged_cutOnce {p : ConsoleStdio} {v : Argv} {arg : Arg} (hd : Damaged p v.vars)
    (harg : InValue p arg)
    (h : (firstWord (arg.string v.vars)).length ≠ (arg.string v.vars).length) :
    Damaged p (cutOnce v arg).vars ∧ InValue p (nextEntry v.vars arg) ∧
      (Broken p v.vars → Broken p (cutOnce v arg).vars) ∧
      (∀ i, arg = .stored i → Broken p (cutOnce v arg).vars) := by
  cases arg with
  | text s => exact ⟨hd, trivial, id, fun i hi => by cases hi⟩
  | stored i =>
    have hget (l : Nat) (hl) := getElem?_string v.vars i (l := l) hl
    obtain ⟨str, hstr⟩ : ∃ str, (Arg.stored i).string v.vars = str := ⟨_, rfl⟩
    rw [hstr] at h hget
    obtain ⟨c, hc, hsep⟩ := firstWord_stops h
    have hblanks := ( takeWhile_prefix isSeparator
      (l := str.drop ((firstWord str).length + 1))).length_le
    have hle := length_firstWord_le str
    rw [length_drop] at hblanks
    have hnext : nextEntry v.vars (.stored i) = .stored (i + ((firstWord str).length + 1
        + ((str.drop ((firstWord str).length + 1)).takeWhile isSeparator).length)) := by
      rw [← hstr]
      rfl
    have hvars : (cutOnce v (.stored i)).vars = (v.terminate (.stored i) (firstWord str).length).vars := by
      rw [← hstr]
      rfl
    have hbytes := bytes_terminate v i (firstWord str).length
    rw [hnext]
    generalize (((str.drop ((firstWord str).length + 1)).takeWhile isSeparator)).length = m at *
    generalize (firstWord str).length = k at *
    obtain ⟨j, hji, hjsz, hj, hbetween⟩ := harg
    have hinside : ∀ l, j < l → l < i + str.length → p.bytes[l]? ≠ some nul := by
      intro l hjl hl
      rcases Nat.lt_or_ge l i with hli | hil
      · exact hbetween l hjl hli
      · obtain ⟨d, rfl⟩ := Nat.exists_eq_add_of_le hil
        have hne := (hget d (by omega)).2
        rw [← hd.of_ne_nul hne]
        exact hne
    have hat := hget k (by omega)
    have hbehind : Behind p (i + k) := by
      refine ⟨⟨c, ?_, hsep⟩, j, by omega, hjsz, hj, fun l hjl hl => hinside l hjl (by omega)⟩
      rw [← hd.of_ne_nul hat.2, hat.1, hc]
    have hlen : i + k < v.vars.bytes.length := by
      by_contra hge
      have hnone := getElem?_eq_none (Nat.le_of_not_lt hge)
      rw [hat.1, hc] at hnone
      cases hnone
    have hset : ∀ l, (cutOnce v (.stored i)).vars.bytes[l]?
        = if i + k = l then some nul else v.vars.bytes[l]? := by
      intro l
      rw [hvars, hbytes, getElem?_set]
      simp [hlen]
    have hcut : Broken p (cutOnce v (.stored i)).vars :=
      ⟨i + k, by rw [hset, if_pos rfl], hbehind⟩
    refine ⟨⟨hd.varsz, fun l => ?_⟩, ⟨j, by omega, hjsz, hj, fun l hjl hl => hinside l hjl (by omega)⟩,
      fun _ => hcut, fun _ _ => hcut⟩
    rw [hset]
    split
    · next heq => exact .inr ⟨rfl, heq ▸ hbehind⟩
    · exact hd.bytes l

theorem damaged_splitArgument {p : ConsoleStdio} (room : Nat) : ∀ {v : Argv} {arg : Arg},
    Damaged p v.vars → InValue p arg →
    Damaged p (splitArgument room v arg).vars ∧
      (Broken p v.vars → Broken p (splitArgument room v arg).vars) ∧
      (∀ i, arg = .stored i → 0 < room →
        (firstWord (arg.string v.vars)).length ≠ (arg.string v.vars).length →
        Broken p (splitArgument room v arg).vars) := by
  induction room with
  | zero =>
    intro v arg hd _
    exact ⟨hd, id, fun _ _ hroom => absurd hroom (by omega)⟩
  | succ room ih =>
    intro v arg hd harg
    rw [splitArgument_succ]
    by_cases h : (firstWord (arg.string v.vars)).length = (arg.string v.vars).length
    · rw [if_pos h]
      exact ⟨hd, id, fun _ _ _ hne => absurd h hne⟩
    · obtain ⟨hd', harg', hkeep, hcut⟩ := damaged_cutOnce hd harg h
      obtain ⟨hd'', hkeep', -⟩ := ih hd' harg'
      rw [if_neg h]
      exact ⟨hd'', fun hb => hkeep' (hkeep hb), fun i hi _ _ => hkeep' (hcut i hi)⟩

/-! ## Pointers that the expansion returns -/

theorem strchr_spec {ch : Char} (l : List Char) : ∀ {k : Nat}, strchr ch l = some k →
    l[k]? = some ch ∧ ∀ m < k, l[m]? ≠ some nul := by
  induction l with
  | nil => intro k h; cases h
  | cons c l ih =>
    intro k h
    rw [strchr] at h
    by_cases hc : c = ch
    · rw [if_pos hc] at h
      cases h
      exact ⟨by simp [hc], fun m hm => absurd hm (by omega)⟩
    · rw [if_neg hc] at h
      by_cases hn : c = nul
      · rw [if_pos hn] at h
        cases h
      · rw [if_neg hn] at h
        obtain ⟨k', hk', rfl⟩ := map_eq_some_iff.mp h
        obtain ⟨hat, hbefore⟩ := ih hk'
        refine ⟨by simpa using hat, fun m hm => ?_⟩
        cases m with
        | zero => simpa using hn
        | succ m => simpa using hbefore m (by omega)

theorem nshFindvarFrom_lt {buf : List Char} {varsz : Nat} {name : List Char} (fuel : Nat) :
    ∀ {ptr i : Nat}, nshFindvarFrom buf varsz name fuel ptr = some (some i) → i < varsz := by
  induction fuel with
  | zero =>
    intro ptr i h
    rw [nshFindvarFrom] at h
    split at h <;> cases h
  | succ fuel ih =>
    intro ptr i h
    rw [nshFindvarFrom] at h
    by_cases hlt : ptr < varsz
    · rw [if_pos hlt] at h
      obtain ⟨found, -, h⟩ := bind_eq_some_iff.mp h
      cases found with
      | true =>
        cases h
        exact hlt
      | false =>
        obtain ⟨len, -, h⟩ := bind_eq_some_iff.mp h
        exact ih h
    · rw [if_neg hlt] at h
      cases h

theorem getElem?_last {p : ConsoleStdio} {es : List Var} (h : Represents p es) (hpos : 0 < p.varsz) :
    p.bytes[p.varsz - 1]? = some nul := by
  obtain ⟨slack, hbytes⟩ := h.bytes
  rw [h.varsz] at hpos
  rw [h.varsz, hbytes, getElem?_append_left (by omega)]
  rcases eq_nil_or_concat es with rfl | ⟨init, e, rfl⟩
  · simp at hpos
  · simp

theorem nshGetvar_inValue {p q : ConsoleStdio} {es : List Var} (h : Represents p es)
    (hd : Damaged p q) {name : List Char} {i : Nat} (hget : nshGetvar q name = some (some i)) :
    InValue p (.stored i) := by
  obtain ⟨pair?, hfind, hget⟩ := bind_eq_some_iff.mp hget
  cases pair? with
  | none => cases hget
  | some pair =>
    obtain ⟨k, hchr, hi⟩ := bind_eq_some_iff.mp hget
    obtain ⟨rfl⟩ : pair + k + 1 = i := by simpa using hi
    have hpair : pair < p.varsz := by
      rw [← hd.varsz]
      exact nshFindvarFrom_lt _ hfind
    obtain ⟨hat, hbefore⟩ := strchr_spec _ hchr
    rw [getElem?_drop] at hat
    have hlast : q.bytes[p.varsz - 1]? = some nul := by
      rcases hd.bytes (p.varsz - 1) with heq | ⟨hnul, -⟩
      · rw [heq, getElem?_last h (by omega)]
      · exact hnul
    have hlt : pair + k < p.varsz := by
      by_contra hge
      refine hbefore (p.varsz - 1 - pair) (by omega) ?_
      rw [getElem?_drop, show pair + (p.varsz - 1 - pair) = p.varsz - 1 by omega, hlast]
    have hp : p.bytes[pair + k]? = some '=' := by
      rw [← hd.of_ne_nul (by rw [hat]; decide), hat]
    exact ⟨pair + k, by omega, hlt, hp, fun l hl hl' => absurd hl' (by omega)⟩

variable {b : Build} {npFail : Bool} {cmdparm : List Char → List Char}

theorem nshArgexpand_spec {p q q' : ConsoleStdio} {es : List Var} (h : Represents p es)
    (hd : Damaged p q) {s : List Char} {arg : Arg} {env : Bool}
    (hexp : nshArgexpand b npFail cmdparm q s = some (arg, env, q')) : q' = q ∧ InValue p arg := by
  unfold nshArgexpand at hexp
  split at hexp
  · cases hexp
    exact ⟨rfl, trivial⟩
  · split at hexp
    · split at hexp
      · cases hexp
        exact ⟨rfl, trivial⟩
      · split at hexp <;>
        · cases hexp
          exact ⟨rfl, trivial⟩
    · cases hexp
      exact ⟨rfl, trivial⟩
  · next varname =>
    obtain ⟨arg', henv, heq⟩ := map_eq_some_iff.mp hexp
    cases heq
    refine ⟨rfl, ?_⟩
    unfold nshEnvexpand at henv
    split at henv
    · cases henv
      trivial
    · obtain ⟨value?, hget, hval⟩ := bind_eq_some_iff.mp henv
      cases value? with
      | none =>
        cases hval
        trivial
      | some i =>
        cases hval
        exact nshGetvar_inValue h hd hget
  · cases hexp
    exact ⟨rfl, trivial⟩

theorem damaged_argLoop {p : ConsoleStdio} {es : List Var} (h : Represents p es) (room : Nat) :
    ∀ {v r : Argv} {saveptr : List Char}, Damaged p v.vars →
      argLoop b (nshArgexpand b npFail cmdparm) room v saveptr = some r →
      Damaged p r.vars ∧ (Broken p v.vars → Broken p r.vars) := by
  induction room with
  | zero =>
    intro v r saveptr hd hrun
    cases hrun
    exact ⟨hd, id⟩
  | succ room ih =>
    intro v r saveptr hd hrun
    rw [argLoop] at hrun
    split at hrun
    · obtain ⟨next, hnext, hrun⟩ := bind_eq_some_iff.mp hrun
      rcases next with _ | ⟨arg, env, vars, rest⟩
      · cases hrun
        exact ⟨hd, id⟩
      · obtain ⟨rfl, harg⟩ : vars = v.vars ∧ InValue p arg := by
          unfold nshArgument at hnext
          split at hnext
          · cases hnext
          · cases hnext
            exact ⟨rfl, trivial⟩
          · obtain ⟨⟨arg', env', vars'⟩, hexp, heq⟩ := bind_eq_some_iff.mp hnext
            cases heq
            exact nshArgexpand_spec h hd hexp
        have hd1 : Damaged p (v.store v.argc (some arg)).vars := hd
        obtain ⟨hd2, hkeep, -⟩ :=
          damaged_splitArgument (b.maxArgvEntries - 1 - v.argc) hd1 harg
        cases env with
        | false =>
          exact ih (v := { v.store v.argc (some arg) with argc := v.argc + 1 }) hd1 hrun
        | true =>
          obtain ⟨hd3, hkeep'⟩ := ih (v := { splitArgument (b.maxArgvEntries - 1 - v.argc)
            (v.store v.argc (some arg)) arg with argc := (splitArgument
            (b.maxArgvEntries - 1 - v.argc) (v.store v.argc (some arg)) arg).argc + 1 }) hd2 hrun
          exact ⟨hd3, fun hb => hkeep' (hkeep hb)⟩
    · cases hrun
      exact ⟨hd, id⟩

/-! ## Lines that only refer to variables -/

/-- The expansion of a token reads nothing outside of the buffer, and where a value takes the token's
place and is not quoted there is no blank in it. -/
def Clean (expand : Expand) (p : ConsoleStdio) : Token → Prop
  | .redirect _ => True
  | .word inQuotes s => ∃ arg env, expand p s = some (arg, env, p) ∧
      (env = true → inQuotes = false → ∀ c ∈ arg.string p, isSeparator c = false)

theorem length_firstWord_eq_iff (s : List Char) :
    (firstWord s).length = s.length ↔ ∀ c ∈ s, isSeparator c = false := by
  constructor
  · intro h c hc
    rw [← firstWord_eq_self h] at hc
    simpa using mem_takeWhile_imp hc
  · intro h
    unfold firstWord
    rw [takeWhile_eq_self_iff.mpr fun c hc => by simp [h c hc]]

theorem stored_of_blank {p : ConsoleStdio} {s : List Char} {arg : Arg} {q : ConsoleStdio}
    (hexp : nshArgexpand b npFail cmdparm p s = some (arg, true, q))
    (hblank : (firstWord (arg.string p)).length ≠ (arg.string p).length) :
    ∃ i, arg = .stored i := by
  cases arg with
  | stored i => exact ⟨i, rfl⟩
  | text t =>
    refine absurd ?_ hblank
    unfold nshArgexpand at hexp
    split at hexp
    · cases hexp
    · split at hexp
      · split at hexp
        · cases hexp
        · split at hexp <;> cases hexp
      · cases hexp
    · obtain ⟨arg', henv, heq⟩ := map_eq_some_iff.mp hexp
      cases heq
      unfold nshEnvexpand at henv
      split at henv
      · cases henv
        cases npFail <;> rfl
      · obtain ⟨value?, -, hval⟩ := bind_eq_some_iff.mp henv
        cases value? with
        | none =>
          cases hval
          rfl
        | some i => cases hval
    · cases hexp

theorem splitArgument_of_eq {v : Argv} {arg : Arg}
    (h : (firstWord (arg.string v.vars)).length = (arg.string v.vars).length) (room : Nat) :
    splitArgument room v arg = v := by
  cases room with
  | zero => rfl
  | succ room => rw [splitArgument_succ, if_pos h]

/-- **The outer loop, where no variable has been changed yet**: either all tokens that are looked at are
clean, and none is changed, or the first one that is not is split in the buffer, unless the buffer was
left before. -/
theorem argLoop_clean {p : ConsoleStdio} {es : List Var} (h : Represents p es) {expand : Expand}
    (hx : nshArgexpand b npFail cmdparm = expand) (room : Nat) :
    ∀ (v : Argv) (saveptr : List Char), v.vars = p → b.maxArgvEntries - 1 - v.argc ≤ room →
      ((∀ t ∈ tokensOf b (b.maxArgvEntries - 1 - v.argc) saveptr,
          Clean expand p t) →
        ∃ r, argLoop b expand room v saveptr = some r ∧ r.vars = p) ∧
      ((¬∀ t ∈ tokensOf b (b.maxArgvEntries - 1 - v.argc) saveptr,
          Clean expand p t) →
        ∀ r, argLoop b expand room v saveptr = some r → Broken p r.vars) := by
  induction room with
  | zero =>
    intro v saveptr hvars hroom
    rw [Nat.le_zero.mp hroom]
    exact ⟨fun _ => ⟨v, rfl, hvars⟩, fun hnot => absurd (fun t ht => by cases ht) hnot⟩
  | succ room ih =>
    intro v saveptr hvars hroom
    rw [argLoop]
    by_cases hlt : v.argc < b.maxArgvEntries - 1
    · obtain ⟨m, hm⟩ : ∃ m, b.maxArgvEntries - 1 - v.argc = m + 1 :=
        ⟨b.maxArgvEntries - 1 - v.argc - 1, by omega⟩
      have hrest : b.maxArgvEntries - 1 - (v.argc + 1) = m := by omega
      rw [if_pos hlt, hm, tokensOf, nshArgument]
      cases hnext : nextToken b saveptr with
      | none => exact ⟨fun _ => ⟨_, rfl, hvars⟩, fun hnot => absurd (fun t ht => by cases ht) hnot⟩
      | some next =>
        obtain ⟨token, rest⟩ := next
        -- the rest of the loop, after an entry that is not split
        have hgo : ∀ w : Argv, w.vars = p → w.argc = v.argc + 1 →
            ((∀ t ∈ tokensOf b m rest, Clean expand p t) →
              ∃ r, argLoop b expand room w rest = some r ∧ r.vars = p) ∧
            ((¬∀ t ∈ tokensOf b m rest, Clean expand p t) →
              ∀ r, argLoop b expand room w rest = some r → Broken p r.vars) := by
          intro w hw hargc
          have hstep := ih w rest hw (by omega)
          rwa [hargc, hrest] at hstep
        cases token with
        | redirect s =>
          have hclean : Clean expand p (.redirect s) := trivial
          simp only [forall_mem_cons, hclean, true_and]
          exact hgo _ hvars rfl
        | word inQuotes s =>
          simp only [forall_mem_cons]
          rw [hvars]
          cases hexp : expand p s with
          | none =>
            refine ⟨fun hall => ?_, fun _ r hr => by cases hr⟩
            obtain ⟨arg, env, hsome, -⟩ := hall.1
            rw [hexp] at hsome
            cases hsome
          | some out =>
            obtain ⟨arg, env, q⟩ := out
            obtain ⟨rfl, harg⟩ := nshArgexpand_spec h (Damaged.refl p) (hx ▸ hexp)
            have hone : Clean expand q (.word inQuotes s) ↔
                (env = true → inQuotes = false → ∀ c ∈ arg.string q, isSeparator c = false) := by
              refine ⟨fun hclean => ?_, fun hno => ⟨arg, env, hexp, hno⟩⟩
              obtain ⟨arg', env', hsome, hno⟩ := hclean
              rw [hexp] at hsome
              cases hsome
              exact hno
            simp only [bind_eq_bind, bind_some]
            by_cases hsplit : (true && !inQuotes && env) = true
            · obtain ⟨rfl, rfl⟩ : inQuotes = false ∧ env = true := by simpa using hsplit
              have hone' : Clean expand q (.word false s) ↔
                  (firstWord (arg.string q)).length = (arg.string q).length := by
                rw [hone, length_firstWord_eq_iff]
                simp
              rw [hone']
              simp only [hsplit, if_true]
              by_cases heq : (firstWord (arg.string q)).length = (arg.string q).length
              · have hgo' := hgo { ({ v with vars := q }.store v.argc (some arg)) with
                  argc := v.argc + 1 } rfl rfl
                have hsame : ∀ k, splitArgument k ({ v with vars := q }.store v.argc (some arg)) arg
                    = { v with vars := q }.store v.argc (some arg) := splitArgument_of_eq heq
                simp only [hsame, heq, true_and]
                exact hgo'
              · obtain ⟨i, rfl⟩ := stored_of_blank (hx ▸ hexp) heq
                obtain ⟨hd, -, hcut⟩ := damaged_splitArgument (p := q)
                  (v := { v with vars := q }.store v.argc (some (.stored i)))
                  (b.maxArgvEntries - 1 - v.argc) (Damaged.refl q) harg
                refine ⟨fun hall => absurd hall.1 heq, fun _ r hr => ?_⟩
                refine (damaged_argLoop h room ?_ (hx ▸ hr)).2 ?_
                · exact hd
                · exact hcut i rfl (by omega) heq
            · have hclean : Clean expand q (.word inQuotes s) := by
                rw [hone]
                rintro rfl rfl
                exact absurd rfl hsplit
              simp only [hclean, hsplit, true_and]
              exact hgo _ rfl rfl
    · rw [if_neg hlt, show b.maxArgvEntries - 1 - v.argc = 0 by omega]
      exact ⟨fun _ => ⟨v, rfl, hvars⟩, fun hnot => absurd (fun t ht => by cases ht) hnot⟩

/-- The words of a block or of `nice` are taken off the line, and no variable is set. -/
def keeping (front : Arg → List Char → Option (Arg × List Char)) : Front :=
  fun vars cmd saveptr => (front cmd saveptr).map fun (cmd, saveptr) => (vars, cmd, saveptr)

/-- The line's expansions read nothing outside of the buffer, and of the arguments that are stored
into `argv` none has taken a value with a blank, unless it is quoted. -/
def LineClean (b : Build) (expand : Expand) (front : Arg → List Char → Option (Arg × List Char))
    (p : ConsoleStdio) (cmdline : List Char) : Prop :=
  ∃ first, commandWord b expand (keeping front) p cmdline = some first ∧
    ∀ vars cmd saveptr, first = some (vars, cmd, saveptr) →
      ∀ t ∈ tokensOf b (b.maxArgvEntries - 2) saveptr, Clean expand p t

theorem finish_vars (v : Argv) : (finish b v).vars = v.vars := by
  unfold finish
  split <;> rfl

theorem commandWord_vars {p : ConsoleStdio} {es : List Var} (h : Represents p es)
    {front : Arg → List Char → Option (Arg × List Char)} {cmdline : List Char}
    {vars : ConsoleStdio} {cmd : Arg} {saveptr : List Char}
    (hfirst : commandWord b (nshArgexpand b npFail cmdparm) (keeping front) p cmdline
      = some (some (vars, cmd, saveptr))) : vars = p := by
  obtain ⟨next, hnext, hfirst⟩ := bind_eq_some_iff.mp hfirst
  rcases next with _ | ⟨arg, env, q, rest⟩
  · cases hfirst
  · obtain ⟨out, -, hout⟩ := map_eq_some_iff.mp (some.inj hfirst)
    cases hout
    unfold nshArgument at hnext
    split at hnext
    · cases hnext
    · cases hnext
      rfl
    · obtain ⟨⟨arg', env', q'⟩, hexp, heq⟩ := bind_eq_some_iff.mp hnext
      cases heq
      exact (nshArgexpand_spec h (Damaged.refl p) hexp).1

/-- **A command line leaves the variables alone if and only if it is clean.** -/
theorem line_keeps_iff {p : ConsoleStdio} {es : List Var} (h : Represents p es)
    (front : Arg → List Char → Option (Arg × List Char)) (cmdline : List Char) :
    (∃ r, nshParseCommand b (nshArgexpand b npFail cmdparm) (keeping front) p cmdline = some r ∧
        ∀ v ∈ r, ∀ n : VarName, valueOf v.vars n.chars = valueOf p n.chars) ↔
      LineClean b (nshArgexpand b npFail cmdparm) front p cmdline := by
  have hpos := maxArgvEntries_pos b
  unfold nshParseCommand LineClean
  cases hfirst : commandWord b (nshArgexpand b npFail cmdparm) (keeping front) p cmdline with
  | none => simp
  | some first =>
    rcases first with _ | ⟨vars, cmd, saveptr⟩
    · simp
    · obtain rfl := commandWord_vars h hfirst
      obtain ⟨hclean, hnot⟩ := @argLoop_clean b npFail cmdparm _ _ h _ rfl
        (b.maxArgvEntries - 1) (firstEntry vars cmd) saveptr rfl (Nat.sub_le _ _)
      rw [show b.maxArgvEntries - 1 - (firstEntry vars cmd).argc = b.maxArgvEntries - 2 from
        Nat.sub_sub _ _ _] at hclean hnot
      constructor
      · rintro ⟨r, hr, hkept⟩
        refine ⟨_, rfl, fun vars' cmd' saveptr' heq => ?_⟩
        cases heq
        by_contra hbad
        obtain ⟨v, hv, rfl⟩ := map_eq_some_iff.mp hr
        obtain ⟨w, hw, rfl⟩ := map_eq_some_iff.mp hv
        obtain ⟨n, hn⟩ := Broken.changed h (damaged_argLoop h _ (Damaged.refl vars) hw).1
          (hnot hbad w hw)
        refine hn ?_
        rw [← finish_vars (b := b)]
        exact hkept _ rfl n
      · rintro ⟨first, heq, hall⟩
        cases heq
        obtain ⟨w, hw, hvars⟩ := hclean (hall _ _ _ rfl)
        refine ⟨some (finish b w), by simp [nshParseArgs, hw], fun v hv n => ?_⟩
        cases hv
        rw [finish_vars, hvars]

/-- **A `set` that fails leaves the variables alone if and only if its variable had no value.** -/
theorem failed_set_keeps_iff {p : ConsoleStdio} {es : List Var} (h : Represents p es) (n : VarName)
    (v : CString) :
    ∃ q, nshSetvar p n.chars v.1 none = some (q, -enomem) ∧
      ((∀ m : VarName, valueOf q m.chars = valueOf p m.chars) ↔ valueOf p n.chars = some none) := by
  obtain ⟨q, hq, hrep⟩ := nshSetvar_enomem h n v
  refine ⟨q, hq, fun hall => ?_, fun hnone m => ?_⟩
  · rw [← hall n, valueOf_eq hrep, dlookup_kerase n h.nodup]
    rfl
  · rw [valueOf_eq hrep, valueOf_eq h, dlookup_kerase_eq h.nodup]
    split
    · next heq =>
      subst heq
      rw [valueOf_eq h] at hnone
      rw [some.inj hnone]
      rfl
    · rfl

/-- **When variables are left alone.** A `set` without memory keeps all of them if and only if its own
variable had no value; a command line that refers to variables keeps all of them if and only if none
of the values that take an argument's place has a blank. -/
theorem variables_kept_iff (s : Store) :
    (∀ (n : VarName) (v : CString), ∃ q,
      nshSetvar s.state n.chars v.1 none = some (q, -enomem) ∧
      ((∀ m : VarName, valueOf q m.chars = valueOf s.state m.chars) ↔
        valueOf s.state n.chars = some none)) ∧
    ∀ (b : Build) (npFail : Bool) (cmdparm : List Char → List Char)
      (front : Arg → List Char → Option (Arg × List Char)) (cmdline : List Char),
      (∃ r, nshParseCommand b (nshArgexpand b npFail cmdparm) (keeping front) s.state cmdline = some r ∧
          ∀ v ∈ r, ∀ n : VarName, valueOf v.vars n.chars = valueOf s.state n.chars) ↔
        LineClean b (nshArgexpand b npFail cmdparm) front s.state cmdline :=
  ⟨fun n v => failed_set_keeps_iff s.represents n v,
    fun _ _ _ front cmdline => line_keeps_iff s.represents front cmdline⟩

def Store.one (n : VarName) (v : CString) : Store where
  state := { varp := some (pack [⟨n, v⟩]), varsz := (pack [⟨n, v⟩]).length }
  vars := [⟨n, v⟩]
  represents := ⟨nodupKeys_singleton _, rfl, [], (append_nil _).symm⟩

def plainBuild : Build :=
  { quote := false, argcat := false, cmdparms := false, bg := true, maxArguments := 15 }

def twoWords : CString := ⟨"x y".toList, by decide⟩

/-- `set a "x y"`, and then a `set a 1` without memory, or `echo $a`: after the one `a` has no value,
after the other its value is `x`. -/
theorem variables_not_kept :
    (¬∀ (s : Store) (n : VarName) (v : CString) (q : ConsoleStdio),
      nshSetvar s.state n.chars v.1 none = some (q, -enomem) →
      ∀ m : VarName, valueOf q m.chars = valueOf s.state m.chars) ∧
    ¬∀ (s : Store) (cmdline : List Char) (v : Argv),
      nshParseCommand plainBuild (nshArgexpand plainBuild false id) plainFront s.state cmdline
        = some (some v) →
      ∀ n : VarName, valueOf v.vars n.chars = valueOf s.state n.chars := by
  constructor
  · intro h
    have hset : (nshSetvar (Store.one varA twoWords).state varA.chars ['1'] none).map
        (fun out => (valueOf out.1 varA.chars, out.2)) = some (some none, -enomem) := by decide
    obtain ⟨⟨q, ret⟩, hq, hout⟩ := map_eq_some_iff.mp hset
    obtain ⟨hvalue, rfl⟩ := Prod.ext_iff.mp hout
    have hsame := h _ _ ⟨['1'], by decide⟩ q hq varA
    rw [show valueOf q varA.chars = some none from hvalue] at hsame
    exact absurd hsame (by decide)
  · intro h
    have hecho : (nshParseCommand plainBuild (nshArgexpand plainBuild false id) plainFront
        (Store.one varA twoWords).state "echo $a".toList).map
          (Option.map fun v => valueOf v.vars varA.chars) = some (some (some (some ['x']))) := by
      decide
    obtain ⟨r, hr, hmap⟩ := map_eq_some_iff.mp hecho
    obtain ⟨v, rfl, hvalue⟩ := map_eq_some_iff.mp hmap
    have hsame := h _ _ v hr varA
    rw [hvalue] at hsame
    exact absurd hsame (by decide)

end Gpmx.Nsh.Args
