import Gpmx.Nsh.Vars

/-!
# NSH variables are a finite map

The buffer holds the strings of a list of variables with distinct names, the oldest first, and a
session's variables are the finite map that its calls describe. Setting a variable takes it out and
puts it behind the others, so that only the order of the strings depends on what has been called.
-/

namespace Gpmx.Nsh

open List Option

abbrev Var := Sigma fun _ : VarName => CString

/-- `name=value` -/
def text (e : Var) : List Char := e.1.chars ++ '=' :: e.2.1

def pack (es : List Var) : List Char := es.flatMap fun e => text e ++ [nul]

/-! ## Strings in memory -/

variable {s : List Char} {n : VarName} {p : ConsoleStdio} {es : List Var}

theorem strlen_append (h : nul ∉ s) (rest : List Char) :
    strlen (s ++ nul :: rest) = some s.length := by
  induction s with
  | nil => simp [strlen]
  | cons c s ih =>
    have hc : c ≠ nul := fun heq => h (by simp [heq])
    rw [cons_append, strlen, if_neg hc, ih fun hm => h (by simp [hm])]
    simp

theorem strchr_append {ch : Char} (h : nul ∉ s) (h' : ch ∉ s) (rest : List Char) :
    strchr ch (s ++ ch :: rest) = some s.length := by
  induction s with
  | nil => simp [strchr]
  | cons c s ih =>
    have hc : c ≠ ch := fun heq => h' (by simp [heq])
    have hn : c ≠ nul := fun heq => h (by simp [heq])
    rw [cons_append, strchr, if_neg hc, if_neg hn,
      ih (fun hm => h (by simp [hm])) fun hm => h' (by simp [hm])]
    simp

theorem stringAt_append (pre : List Char) (h : nul ∉ s) (rest : List Char) :
    stringAt (pre ++ (s ++ nul :: rest)) pre.length = some s := by
  unfold stringAt
  rw [drop_left, strlen_append h]
  simp

theorem length_realloc (buf : List Char) (n : Nat) (fresh : Nat → Char) :
    (realloc buf n fresh).length = n := by
  simp [realloc]
  omega

theorem realloc_append (xs ys : List Char) (n : Nat) (fresh : Nat → Char) (h : xs.length ≤ n) :
    ∃ slack, realloc (xs ++ ys) n fresh = xs ++ slack := by
  refine ⟨ys.take (n - xs.length) ++ (List.range (n - (xs ++ ys).length)).map fresh, ?_⟩
  simp [realloc, take_append, take_of_length_le h]

theorem sprintf_append (xs slack bytes : List Char) (h : slack.length = bytes.length) :
    sprintf (xs ++ slack) xs.length bytes = xs ++ bytes := by
  unfold sprintf
  rw [take_left, ← h, ← length_append, drop_length]
  simp

theorem moveDown_spec (count : Nat) : ∀ (dest src : Nat) (buf : List Char), dest ≤ src →
    src + count ≤ buf.length → ∃ buf', moveDown count dest src buf = some buf' ∧
      buf'.take (dest + count) = buf.take dest ++ (buf.drop src).take count := by
  induction count with
  | zero =>
    intro dest src buf _ _
    exact ⟨buf, rfl, by simp⟩
  | succ count ih =>
    intro dest src buf hle hlen
    have hsrc : src < buf.length := by omega
    have hdest : dest < buf.length := by omega
    obtain ⟨buf', hrun, htake⟩ := ih (dest + 1) (src + 1) (buf.set dest buf[src]) (by omega)
      (by simpa using (by omega : src + 1 + count ≤ buf.length))
    refine ⟨buf', ?_, ?_⟩
    · rw [moveDown, getElem?_eq_getElem hsrc]
      exact hrun
    · rw [show dest + (count + 1) = dest + 1 + count by omega, htake,
        drop_set_of_lt (by omega), take_succ_eq_append_getElem (by simpa using hdest),
        drop_eq_getElem_cons hsrc, take_succ_cons]
      simp [take_set_of_le]

/-! ## The packed variables -/

namespace Var

theorem nul_notMem_text (e : Var) : nul ∉ text e := by
  have hname := e.1.nul_notMem
  have hvalue := e.2.2
  simp only [text, mem_append, mem_cons, not_or]
  exact ⟨hname, by decide, hvalue⟩

end Var

@[simp] theorem pack_nil : pack [] = [] := rfl

@[simp] theorem pack_cons (e : Var) (es : List Var) : pack (e :: es) = text e ++ [nul] ++ pack es := rfl

@[simp] theorem pack_append (es fs : List Var) : pack (es ++ fs) = pack es ++ pack fs := by
  simp [pack]

theorem length_pack (es : List Var) : (pack es).length = (es.map fun e => (text e).length + 1).sum := by
  induction es with
  | nil => rfl
  | cons e es ih =>
    simp [ih]
    omega

theorem length_le_pack (es : List Var) : es.length ≤ (pack es).length := by
  induction es with
  | nil => simp
  | cons e es ih =>
    simp
    omega

/-- **Names are compared up to the first `=`**: a name that another one begins with is not found in
its place. -/
theorem nshCmpname_eq {name other : List Char} (hn : nul ∉ name) (he : '=' ∉ name)
    (hn' : nul ∉ other) (he' : '=' ∉ other) (rest : List Char) :
    nshCmpname name (other ++ '=' :: rest) = some (decide (name = other)) := by
  induction name generalizing other with
  | nil =>
    cases other with
    | nil =>
      have hne : '=' ≠ nul := by decide
      simp [nshCmpname, hne]
    | cons c other =>
      have hc : c ≠ nul := fun heq => hn' (by simp [heq])
      have hc' : c ≠ '=' := fun heq => he' (by simp [heq])
      simp [nshCmpname, hc, hc']
  | cons n name ih =>
    cases other with
    | nil =>
      have hne : n ≠ '=' := fun heq => he (by simp [heq])
      simp [nshCmpname, hne]
    | cons c other =>
      simp only [mem_cons, not_or] at hn he hn' he'
      by_cases h : n = c
      · simp [nshCmpname, h, ih hn.2 he.2 hn'.2 he'.2]
      · simp [nshCmpname, h]

theorem VarName.ext_chars {m : VarName} (h : n.chars = m.chars) : n = m := by
  cases n
  cases m
  cases h
  rfl

theorem nshCmpname_text (n : VarName) (e : Var) (rest : List Char) :
    nshCmpname n.chars (text e ++ rest) = some (decide (n = e.1)) := by
  have h : (n.chars = e.1.chars) ↔ n = e.1 := ⟨VarName.ext_chars, congrArg VarName.chars⟩
  rw [text, append_assoc, cons_append, nshCmpname_eq n.nul_notMem n.eq_notMem
    e.1.nul_notMem e.1.eq_notMem]
  simp [h]

/-! ## Search -/

/-- The session's buffer begins with the strings of `es`, and `varsz` is their length. -/
structure Represents (p : ConsoleStdio) (es : List Var) : Prop where
  nodup : es.NodupKeys
  varsz : p.varsz = (pack es).length
  bytes : ∃ slack, p.bytes = pack es ++ slack

def Tight (p : ConsoleStdio) : Prop := p.bytes.length = p.varsz

theorem drop_pack (pre rest : List Var) (slack : List Char) :
    (pack (pre ++ rest) ++ slack).drop (pack pre).length = pack rest ++ slack := by
  rw [pack_append, append_assoc, drop_left]

theorem length_pack_lt (pre : List Var) (e : Var) (es : List Var) :
    (pack pre).length < (pack (pre ++ e :: es)).length := by
  simp only [pack_append, pack_cons, length_append, length_cons]
  omega

theorem nshFindvarFrom_pack (n : VarName) (slack : List Char) (varsz : Nat) (rest : List Var) :
    ∀ (pre : List Var) (fuel : Nat), rest.length ≤ fuel → (pack (pre ++ rest)).length ≤ varsz →
      (n ∉ rest.keys → varsz = (pack (pre ++ rest)).length) →
      nshFindvarFrom (pack (pre ++ rest) ++ slack) varsz n.chars fuel (pack pre).length
        = some (if n ∈ rest.keys then
            some (pack (pre ++ rest.takeWhile fun e => n ≠ e.1)).length else none) := by
  induction rest with
  | nil =>
    intro pre fuel _ _ hend
    have hsz := hend (by simp)
    cases fuel <;> simp [nshFindvarFrom, hsz]
  | cons e rest ih =>
    intro pre fuel hfuel hle hend
    obtain ⟨fuel, rfl⟩ : ∃ k, fuel = k + 1 := ⟨fuel - 1, by simp at hfuel; omega⟩
    have hlt := length_pack_lt pre e rest
    rw [nshFindvarFrom, if_pos (by omega), drop_pack, pack_cons, append_assoc,
      append_assoc, nshCmpname_text]
    by_cases h : n = e.1
    · simp [h]
    · have hih := ih (pre ++ [e]) fuel (by simpa using hfuel) (by simpa using hle) fun hn => by
        rw [hend (by simp [h, hn])]
        simp
      have hlen : (pack pre).length + ((text e).length + 1) = (pack (pre ++ [e])).length := by
        simp
      simp only [append_assoc, singleton_append] at hih
      simp only [bind_eq_bind, bind_some, h, decide_false, Bool.false_eq_true, if_false,
        singleton_append, strlen_append e.nul_notMem_text, hlen, hih]
      simp [h]

theorem nshFindvar_eq (h : Represents p es) (n : VarName) :
    nshFindvar p n.chars = some (if n ∈ es.keys then
      some (pack (es.takeWhile fun e => n ≠ e.1)).length else none) := by
  obtain ⟨slack, hbytes⟩ := h.bytes
  have hsz := h.varsz
  have hfuel := length_le_pack es
  unfold nshFindvar
  rw [hbytes]
  simpa using nshFindvarFrom_pack n slack p.varsz es [] p.varsz (by omega) (by simp [hsz])
    fun _ => by simp [hsz]

theorem split_at (h : n ∈ es.keys) :
    ∃ v pre post, es = pre ++ ⟨n, v⟩ :: post ∧ es.kerase n = pre ++ post ∧
      (es.takeWhile fun e => n ≠ e.1) = pre := by
  obtain ⟨v, pre, post, hpre, hes, herase⟩ := exists_of_kerase h
  refine ⟨v, pre, post, hes, herase, ?_⟩
  have hall : ∀ e ∈ pre, decide (n ≠ e.1) = true := by
    intro e he
    have hmem : e.1 ∈ pre.keys := mem_map_of_mem he
    simp only [ne_eq, decide_not, Bool.not_eq_true', decide_eq_false_iff_not]
    rintro rfl
    exact hpre hmem
  rw [hes, takeWhile_append_of_pos hall]
  simp

/-! ## What each function does -/

theorem nshRemovevar_spec {pre post : List Var} {e : Var} (h : Represents p (pre ++ e :: post)) :
    ∃ q, nshRemovevar p (pack pre).length = some (q, 0) ∧ Represents q (pre ++ post) ∧
      q.varp.isSome = p.varp.isSome := by
  obtain ⟨slack, hbytes⟩ := h.bytes
  have hlen : p.varsz = (pack pre).length + ((text e).length + 1) + (pack post).length := by
    rw [h.varsz]
    simp
    omega
  have hstr : strlen (p.bytes.drop (pack pre).length) = some (text e).length := by
    rw [hbytes, drop_pack, pack_cons, append_assoc, append_assoc, singleton_append,
      strlen_append e.nul_notMem_text]
  obtain ⟨buf, hmove, htake⟩ := moveDown_spec (pack post).length (pack pre).length
    ((pack pre).length + ((text e).length + 1)) p.bytes (by omega) (by rw [hbytes]; simp; omega)
  have hfront : p.bytes.take (pack pre).length = pack pre := by
    rw [hbytes, pack_append, append_assoc, take_left]
  have hback : (p.bytes.drop ((pack pre).length + ((text e).length + 1))).take (pack post).length
      = pack post := by
    have hgap : (pack pre).length + ((text e).length + 1) = (pack (pre ++ [e])).length := by simp
    rw [hbytes, hgap, append_cons pre e post, drop_pack, take_left]
  rw [hfront, hback] at htake
  refine ⟨{ varp := p.varp.map fun _ => buf, varsz := p.varsz - ((text e).length + 1) }, ?_, ?_, ?_⟩
  · have hcount : p.varsz - ((pack pre).length + ((text e).length + 1)) = (pack post).length := by
      omega
    unfold nshRemovevar
    rw [if_pos (by omega), hstr]
    simp only [bind_eq_bind, bind_some, hcount, hmove]
  · refine ⟨?_, ?_, ?_⟩
    · exact h.nodup.sublist (List.Sublist.append_left (sublist_cons_self _ _) _)
    · show p.varsz - ((text e).length + 1) = _
      rw [pack_append, length_append]
      omega
    · obtain ⟨old, hold⟩ : ∃ old, p.varp = some old := by
        cases hp : p.varp with
        | none =>
          have hnone : p.bytes = [] := by
            unfold ConsoleStdio.bytes
            rw [hp]
            rfl
          rw [hnone] at hbytes
          simp at hbytes
        | some old => exact ⟨old, rfl⟩
      refine ⟨buf.drop ((pack pre).length + (pack post).length), ?_⟩
      show (p.varp.map fun _ => buf).getD [] = _
      rw [hold, pack_append, ← htake]
      exact (take_append_drop _ buf).symm
  · simp

theorem remove_found (h : Represents p es) (hn : n ∈ es.keys) :
    ∃ pair q, nshFindvar p n.chars = some (some pair) ∧ nshRemovevar p pair = some (q, 0) ∧
      Represents q (es.kerase n) ∧ q.varp.isSome = p.varp.isSome := by
  obtain ⟨v, pre, post, rfl, herase, htake⟩ := split_at hn
  obtain ⟨q, hq, hrep, hsome⟩ := nshRemovevar_spec h
  refine ⟨(pack pre).length, q, ?_, hq, ?_, hsome⟩
  · rw [nshFindvar_eq h, if_pos hn, htake]
  · rw [herase]
    exact hrep

theorem valueOf_found {slack : List Char} (hbytes : p.bytes = pack es ++ slack)
    (hsz : (pack es).length ≤ p.varsz) (hnodup : es.NodupKeys) (hn : n ∈ es.keys) :
    valueOf p n.chars = some ((es.dlookup n).map Subtype.val) := by
  have hfuel := length_le_pack es
  have hfind := nshFindvarFrom_pack n slack p.varsz es [] p.varsz (by omega) (by simpa using hsz)
    fun hnot => absurd hn hnot
  rw [nil_append, pack_nil, length_nil, if_pos hn, ← hbytes] at hfind
  unfold valueOf nshGetvar nshFindvar
  rw [hfind]
  obtain ⟨v, pre, post, rfl, -, htake⟩ := split_at hn
  have hpack : p.bytes = pack pre ++ (n.chars ++ '=' :: (v.1 ++ nul :: (pack post ++ slack))) := by
    rw [hbytes]
    simp [text]
  have hchr : strchr '=' (p.bytes.drop (pack pre).length) = some n.chars.length := by
    rw [hpack, drop_left, strchr_append n.nul_notMem n.eq_notMem]
  have hvalue : stringAt p.bytes ((pack pre).length + n.chars.length + 1) = some v.1 := by
    have hsplit : p.bytes = (pack pre ++ n.chars ++ ['=']) ++ (v.1 ++ nul :: (pack post ++ slack)) := by
      rw [hpack]
      simp
    have hlen : (pack pre).length + n.chars.length + 1 = (pack pre ++ n.chars ++ ['=']).length := by
      simp
      omega
    rw [hsplit, hlen, stringAt_append _ v.2]
  have hlookup : (pre ++ ⟨n, v⟩ :: post).dlookup n = some v :=
    mem_dlookup hnodup (by simp)
  rw [nil_append, htake]
  simp [hchr, hvalue, hlookup]

/-- **`nsh_getvar` returns the place of the variable's value**, or NULL where there is no such
variable. -/
theorem valueOf_eq (h : Represents p es) (n : VarName) :
    valueOf p n.chars = some ((es.dlookup n).map Subtype.val) := by
  by_cases hn : n ∈ es.keys
  · obtain ⟨slack, hbytes⟩ := h.bytes
    exact valueOf_found hbytes (Nat.le_of_eq h.varsz.symm) h.nodup hn
  · unfold valueOf nshGetvar
    rw [nshFindvar_eq h, if_neg hn, dlookup_eq_none.mpr hn]
    rfl

theorem bytes_of_none (h : Represents p es) (hp : p.varp = none) : es = [] := by
  obtain ⟨slack, hbytes⟩ := h.bytes
  unfold ConsoleStdio.bytes at hbytes
  rw [hp] at hbytes
  cases es with
  | nil => rfl
  | cons e es => simp at hbytes

theorem removeFormer_spec (h : Represents p es) (n : VarName) :
    ∃ q, removeFormer p n.chars = some q ∧ Represents q (es.kerase n) ∧
      q.varp.isSome = p.varp.isSome := by
  unfold removeFormer
  by_cases hn : n ∈ es.keys
  · obtain ⟨pair, q, hfind, hq, hrep, hsome⟩ := remove_found h hn
    obtain ⟨buf, hbuf⟩ : ∃ buf, p.varp = some buf := by
      cases hp : p.varp with
      | none =>
        rw [bytes_of_none h hp] at hn
        simp at hn
      | some buf => exact ⟨buf, rfl⟩
    refine ⟨q, ?_, hrep, hsome⟩
    rw [hbuf]
    simp [hfind, hq]
  · refine ⟨p, ?_, ?_, rfl⟩
    · cases p.varp with
      | none => rfl
      | some buf => simp [nshFindvar_eq h, hn]
    · rw [kerase_of_notMem_keys hn]
      exact h

theorem nodupKeys_concat (h : es.NodupKeys) (n : VarName) (v : CString) :
    (es.kerase n ++ [(⟨n, v⟩ : Var)]).NodupKeys := by
  have hperm : (es.kerase n ++ [(⟨n, v⟩ : Var)]).Perm (es.kinsert n v) := perm_append_singleton _ _
  exact (perm_nodupKeys hperm).mpr (kinsert_nodupKeys n v h)

/-- **A variable that is set stands behind all others**, with its new value. -/
theorem nshSetvar_spec (h : Represents p es) (n : VarName) (v : CString) (fresh : Nat → Char) :
    ∃ q, nshSetvar p n.chars v.1 (some fresh) = some (q, 0) ∧
      Represents q (es.kerase n ++ [⟨n, v⟩]) ∧ Tight q := by
  obtain ⟨q, hq, hrep, -⟩ := removeFormer_spec h n
  have hlen : (pack (es.kerase n ++ [⟨n, v⟩])).length
      = (pack (es.kerase n)).length + (n.chars.length + v.1.length + 2) := by
    simp [text]
    omega
  have hend : n.chars ++ '=' :: v.1 ++ [nul] = pack [(⟨n, v⟩ : Var)] := by simp [text]
  have hvarlen : (pack [(⟨n, v⟩ : Var)]).length = n.chars.length + v.1.length + 2 := by
    simp [text]
    omega
  have hnodup := nodupKeys_concat h.nodup n v
  unfold nshSetvar
  rw [hq, hend]
  simp only [bind_eq_bind, bind_some]
  cases hvarp : q.varp with
  | none =>
    have hnil := bytes_of_none hrep hvarp
    have hsize : n.chars.length + v.1.length + 2 = (pack (es.kerase n ++ [⟨n, v⟩])).length := by
      rw [hlen, hnil]
      simp
    have hstore : sprintf ((List.range (n.chars.length + v.1.length + 2)).map fresh) 0 (pack [⟨n, v⟩])
        = pack (es.kerase n ++ [⟨n, v⟩]) := by
      rw [hnil]
      exact sprintf_append [] _ (pack [⟨n, v⟩]) (by rw [hvarlen]; simp)
    refine ⟨_, rfl, ⟨hnodup, hsize, [], ?_⟩, ?_⟩
    · rw [append_nil]
      exact hstore
    · exact (congrArg List.length hstore).trans hsize.symm
  | some buf =>
    obtain ⟨slack, hbytes⟩ := hrep.bytes
    have hbuf : buf = pack (es.kerase n) ++ slack := by
      rw [← hbytes, ConsoleStdio.bytes, hvarp]
      rfl
    obtain ⟨grown, hgrown⟩ := realloc_append (pack (es.kerase n)) slack
      (q.varsz + (n.chars.length + v.1.length + 2)) fresh (by rw [hrep.varsz]; omega)
    have hsize : grown.length = (pack [⟨n, v⟩]).length := by
      have hall := length_realloc (pack (es.kerase n) ++ slack)
        (q.varsz + (n.chars.length + v.1.length + 2)) fresh
      rw [hgrown, length_append, hrep.varsz] at hall
      omega
    have hnew : q.varsz + (n.chars.length + v.1.length + 2)
        = (pack (es.kerase n ++ [⟨n, v⟩])).length := by
      rw [hlen, hrep.varsz]
    have hstore : sprintf (realloc buf (q.varsz + (n.chars.length + v.1.length + 2)) fresh) q.varsz
        (pack [⟨n, v⟩]) = pack (es.kerase n ++ [⟨n, v⟩]) := by
      rw [hbuf, hgrown, hrep.varsz, sprintf_append _ _ _ hsize]
      simp
    refine ⟨_, rfl, ⟨hnodup, hnew, [], ?_⟩, ?_⟩
    · rw [append_nil]
      exact hstore
    · exact (congrArg List.length hstore).trans hnew.symm

theorem nshSetvar_enomem (h : Represents p es) (n : VarName) (v : CString) :
    ∃ q, nshSetvar p n.chars v.1 none = some (q, -enomem) ∧ Represents q (es.kerase n) := by
  obtain ⟨q, hq, hrep, -⟩ := removeFormer_spec h n
  refine ⟨q, ?_, hrep⟩
  unfold nshSetvar
  rw [hq]
  cases q.varp <;> rfl

/-- **A variable that is unset is gone**, and with the last one the buffer. -/
theorem nshUnsetvar_spec (h : Represents p es) (n : VarName) (fresh : Nat → Char) :
    ∃ q, nshUnsetvar p n.chars (some fresh) = some (q, 0) ∧ Represents q (es.kerase n) ∧
      (Tight p → Tight q) := by
  unfold nshUnsetvar
  by_cases hn : n ∈ es.keys
  · obtain ⟨pair, q, hfind, hq, hrep, -⟩ := remove_found h hn
    rw [hfind]
    simp only [bind_eq_bind, bind_some, hq]
    by_cases hsize : q.varsz = 0
    · rw [if_pos hsize]
      have hnil : es.kerase n = [] := by
        have hlen := length_le_pack (es.kerase n)
        rw [← hrep.varsz, hsize] at hlen
        exact eq_nil_of_length_eq_zero (by omega)
      rw [hnil]
      exact ⟨_, rfl, ⟨nodupKeys_nil, rfl, [], rfl⟩, fun _ => rfl⟩
    · rw [if_neg hsize]
      obtain ⟨slack, hbytes⟩ := hrep.bytes
      obtain ⟨slack', hgrown⟩ := realloc_append (pack (es.kerase n)) slack q.varsz fresh
        (by rw [hrep.varsz])
      cases hvarp : q.varp with
      | none =>
        exact absurd (by rw [hrep.varsz, bytes_of_none hrep hvarp]; rfl) hsize
      | some buf =>
        have hbuf : buf = pack (es.kerase n) ++ slack := by
          rw [← hbytes, ConsoleStdio.bytes, hvarp]
          rfl
        refine ⟨_, rfl, ⟨hrep.nodup, hrep.varsz, slack', ?_⟩, fun _ => length_realloc _ _ _⟩
        show realloc buf q.varsz fresh = _
        rw [hbuf, hgrown]
  · rw [nshFindvar_eq h, if_neg hn, kerase_of_notMem_keys hn]
    exact ⟨p, rfl, h, id⟩

/-- What a callback does to the strings one after the other, up to the one for which it does not
return 0. -/
def visit {β : Type} (cb : β → List Char → β × Int) (arg : β) : List (List Char) → β × Int
  | [] => (arg, 0)
  | s :: ss => if (cb arg s).2 ≠ 0 then cb arg s else visit cb (cb arg s).1 ss

theorem nshForeachVarFrom_pack {β : Type} (cb : β → List Char → β × Int) (slack : List Char)
    (rest : List Var) : ∀ (pre : List Var) (fuel : Nat) (arg : β), rest.length ≤ fuel →
      nshForeachVarFrom (pack (pre ++ rest) ++ slack) (pack (pre ++ rest)).length cb fuel
          (pack pre).length arg
        = some (visit cb arg (rest.map text)) := by
  induction rest with
  | nil =>
    intro pre fuel arg _
    cases fuel <;> simp [nshForeachVarFrom, visit]
  | cons e rest ih =>
    intro pre fuel arg hfuel
    obtain ⟨fuel, rfl⟩ : ∃ k, fuel = k + 1 := ⟨fuel - 1, by simp at hfuel; omega⟩
    have hstr : strlen (text e ++ nul :: (pack rest ++ slack)) = some (text e).length :=
      strlen_append e.nul_notMem_text _
    have hdrop : (pack (pre ++ e :: rest) ++ slack).drop (pack pre).length
        = text e ++ nul :: (pack rest ++ slack) := by
      rw [drop_pack]
      simp
    have hat : stringAt (pack (pre ++ e :: rest) ++ slack) (pack pre).length = some (text e) := by
      unfold stringAt
      rw [hdrop, hstr]
      simp
    rw [nshForeachVarFrom, if_pos (length_pack_lt pre e rest), hat, hdrop, hstr, map_cons, visit]
    by_cases hret : (cb arg (text e)).2 = 0
    · have hih := ih (pre ++ [e]) fuel (cb arg (text e)).1 (by simpa using hfuel)
      have hlen : (pack pre).length + ((text e).length + 1) = (pack (pre ++ [e])).length := by
        simp
      simp only [append_assoc, singleton_append] at hih
      simp only [bind_eq_bind, bind_some, hret, hlen, hih]
      rfl
    · simp only [bind_eq_bind, bind_some]
      rw [if_pos hret, if_pos hret]

/-- **`nsh_foreach_var` calls the callback for each variable once**, in the buffer's order. -/
theorem nshForeachVar_spec {β : Type} (h : Represents p es) (cb : β → List Char → β × Int) (arg : β) :
    nshForeachVar p cb arg = some (visit cb arg (es.map text)) := by
  obtain ⟨slack, hbytes⟩ := h.bytes
  have hall := nshForeachVarFrom_pack cb slack es [] p.varsz arg
    (by rw [h.varsz]; exact length_le_pack es)
  unfold nshForeachVar
  rw [hbytes, h.varsz] at *
  simpa using hall

/-! ## Sequences of calls -/

/-- A call, with what the allocator leaves in the bytes that it hands out. -/
inductive Call where
  | set (name : VarName) (value : CString) (fresh : Nat → Char)
  | unset (name : VarName) (fresh : Nat → Char)
  | get (name : VarName)

def Call.changes : Call → Option VarName
  | .set name _ _ => some name
  | .unset name _ => some name
  | .get _ => none

/-- The session after a call, and what the call returned; `nsh_getvar` returns no error code. -/
def Call.run (p : ConsoleStdio) : Call → Option (ConsoleStdio × Int)
  | .set name value fresh => nshSetvar p name.chars value.1 (some fresh)
  | .unset name fresh => nshUnsetvar p name.chars (some fresh)
  | .get name => (nshGetvar p name.chars).map fun _ => (p, 0)

def runCalls : ConsoleStdio → List Call → Option ConsoleStdio
  | p, [] => some p
  | p, call :: calls => do
    let (q, _) ← call.run p
    runCalls q calls

/-- The value that was set last, the latest call first; none where the variable was never set or
has been unset since. -/
def latest (n : VarName) : List Call → Option CString
  | [] => none
  | .set m v _ :: earlier => if m = n then some v else latest n earlier
  | .unset m _ :: earlier => if m = n then none else latest n earlier
  | .get _ :: earlier => latest n earlier

theorem dlookup_concat (h : es.NodupKeys) (n m : VarName) (v : CString) :
    (es.kerase n ++ [(⟨n, v⟩ : Var)]).dlookup m = if n = m then some v else es.dlookup m := by
  rw [dlookup_append]
  by_cases hm : n = m
  · subst hm
    simp [dlookup_kerase n h]
  · have hne : m ≠ n := fun heq => hm heq.symm
    simp [hm, dlookup_kerase_ne hne, dlookup_cons_ne _ (⟨n, v⟩ : Var) hne]

theorem dlookup_kerase_eq (h : es.NodupKeys) (n m : VarName) :
    (es.kerase n).dlookup m = if n = m then none else es.dlookup m := by
  by_cases hm : n = m
  · subst hm
    simp [dlookup_kerase n h]
  · have hne : m ≠ n := fun heq => hm heq.symm
    simp [hm, dlookup_kerase_ne hne]

/-- **One call**: it succeeds, and the variables are those of the map with the call done to it. -/
theorem Call.run_spec (h : Represents p es) (call : Call) (htight : Tight p) (before : List Call)
    (hmap : ∀ n, es.dlookup n = latest n before) :
    ∃ q fs, call.run p = some (q, 0) ∧ Represents q fs ∧ Tight q ∧
      ∀ n, fs.dlookup n = latest n (call :: before) := by
  cases call with
  | set name value fresh =>
    obtain ⟨q, hq, hrep, htight'⟩ := nshSetvar_spec h name value fresh
    refine ⟨q, _, hq, hrep, htight', fun n => ?_⟩
    rw [dlookup_concat h.nodup, latest, hmap]
  | unset name fresh =>
    obtain ⟨q, hq, hrep, htight'⟩ := nshUnsetvar_spec h name fresh
    refine ⟨q, _, hq, hrep, htight' htight, fun n => ?_⟩
    rw [dlookup_kerase_eq h.nodup, latest, hmap]
  | get name =>
    obtain ⟨i, hi⟩ : ∃ i, nshGetvar p name.chars = some i := by
      have hvalue := valueOf_eq h name
      obtain ⟨i, hi, -⟩ := bind_eq_some_iff.mp hvalue
      exact ⟨i, hi⟩
    refine ⟨p, es, ?_, h, htight, hmap⟩
    simp [Call.run, hi]

theorem represents_empty : Represents .empty [] := ⟨nodupKeys_nil, rfl, [], rfl⟩

theorem runCalls_spec (calls : List Call) : ∀ (p : ConsoleStdio) (es : List Var) (before : List Call),
    Represents p es → Tight p → (∀ n, es.dlookup n = latest n before) →
    ∃ q fs, runCalls p calls = some q ∧ Represents q fs ∧ Tight q ∧
      ∀ n, fs.dlookup n = latest n (calls.reverse ++ before) := by
  induction calls with
  | nil =>
    intro p es before h htight hmap
    exact ⟨p, es, rfl, h, htight, hmap⟩
  | cons call calls ih =>
    intro p es before h htight hmap
    obtain ⟨q, fs, hq, hrep, htight', hmap'⟩ := call.run_spec h htight before hmap
    obtain ⟨r, gs, hr, hrep', htight'', hmap''⟩ := ih q fs (call :: before) hrep htight' hmap'
    refine ⟨r, gs, ?_, hrep', htight'', ?_⟩
    · simp [runCalls, hq, hr]
    · simpa using hmap''

theorem latest_cons_of_ne {call : Call} (h : call.changes ≠ some n) (before : List Call) :
    latest n (call :: before) = latest n before := by
  cases call with
  | set m v fresh | unset m fresh =>
    have hne : m ≠ n := fun heq => h (by rw [heq]; rfl)
    simp [latest, hne]
  | get m => rfl

/-- **The variables are a finite map.** Any calls succeed. After them each variable has the value
that was set last, unless it has been unset since; one more call changes no variable but its own;
a callback meets each variable that has a value exactly once; and the buffer is as long as the
`name=value` strings with their terminators. -/
theorem variables_are_a_finite_map (calls : List Call) :
    ∃ p, runCalls .empty calls = some p ∧
      (∀ n, valueOf p n.chars = some ((latest n calls.reverse).map Subtype.val)) ∧
      (∀ call : Call, ∃ q, call.run p = some (q, 0) ∧
        ∀ n, call.changes ≠ some n → valueOf q n.chars = valueOf p n.chars) ∧
      ∃ es : List Var, es.NodupKeys ∧ (∀ n v, ⟨n, v⟩ ∈ es ↔ latest n calls.reverse = some v) ∧
        (∀ (β : Type) (cb : β → List Char → β × Int) (arg : β),
          nshForeachVar p cb arg = some (visit cb arg (es.map text))) ∧
        p.bytes.length = p.varsz ∧ p.varsz = (es.map fun e => (text e).length + 1).sum := by
  obtain ⟨p, es, hrun, hrep, htight, hmap⟩ :=
    runCalls_spec calls .empty [] [] represents_empty rfl fun _ => rfl
  rw [append_nil] at hmap
  refine ⟨p, hrun, fun n => ?_, fun call => ?_, es, hrep.nodup, fun n v => ?_, ?_, htight, ?_⟩
  · rw [valueOf_eq hrep, hmap]
  · obtain ⟨q, fs, hq, hrep', -, hmap'⟩ := call.run_spec hrep htight calls.reverse hmap
    refine ⟨q, hq, fun n hn => ?_⟩
    rw [valueOf_eq hrep', valueOf_eq hrep, hmap', latest_cons_of_ne hn, hmap]
  · rw [← mem_dlookup_iff hrep.nodup, hmap]
    exact Iff.rfl
  · intro β cb arg
    exact nshForeachVar_spec hrep cb arg
  · rw [hrep.varsz, length_pack]

end Gpmx.Nsh
