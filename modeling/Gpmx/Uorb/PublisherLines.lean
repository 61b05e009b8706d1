import Gpmx.Uorb.PublisherTopics

/-!
# uORB: the lines of a publisher-rules file

What each line of a file does to the rule, and what the lines do together: the last line of a kind
counts. `RulesFile` is a file as its lines, the last of which may lack its newline.
-/

namespace Gpmx.Uorb.PublisherRules

open List

/-! ## Elements of a list -/

def value (pre line : List Char) : List Char := strtrim (line.drop pre.length)

variable {c : Char} {pre : List Char}

theorem mem_splitOn {a : Char} :
    ∀ {xs e : List Char}, e ∈ xs.splitOn a → c ∈ e → c ∈ xs ∧ c ≠ a := by
  intro xs
  induction xs with
  | nil =>
    intro e he hc
    rw [splitOn_nil, mem_singleton] at he
    subst he
    cases hc
  | cons x xs ih =>
    intro e he hc
    rw [splitOn_cons_eq_if_modifyHead] at he
    split at he
    · rcases mem_cons.mp he with rfl | he
      · cases hc
      · exact ⟨mem_cons_of_mem x (ih he hc).1, (ih he hc).2⟩
    · rename_i hx
      have hx : x ≠ a := by simpa using hx
      cases hs : xs.splitOn a with
      | nil => exact absurd hs (splitOn_ne_nil a xs)
      | cons d ds =>
        rw [hs, modifyHead_cons] at he
        rcases mem_cons.mp he with rfl | he
        · rcases mem_cons.mp hc with rfl | hc
          · exact ⟨mem_cons_self, hx⟩
          · have hd := ih (e := d) (by rw [hs]; exact mem_cons_self) hc
            exact ⟨mem_cons_of_mem x hd.1, hd.2⟩
        · have hd := ih (e := e) (by rw [hs]; exact mem_cons_of_mem d he) hc
          exact ⟨mem_cons_of_mem x hd.1, hd.2⟩

theorem written_commas (init : List (List Char)) (e : List Char) :
    written (init.map fun d => (d, ',')) ++ e = [','].intercalate (init ++ [e]) := by
  induction init with
  | nil => simp [written]
  | cons d init ih =>
    have hne : init ++ [e] ≠ [] := by simp
    rw [cons_append, intercalate_cons_of_ne_nil hne, ← ih]
    simp [written]

structure Line where
  text : List Char
  ended : Bool

namespace Line

variable {l : Line}

/-- What `mem_fgets` reads of the line. -/
def raw (l : Line) : List Char := if l.ended then l.text ++ ['\n'] else l.text

/-- The elements of the list behind `restrict_topics:`. -/
def elements (l : Line) : List (List Char) := (value restrictTopicsStr l.text).splitOn ','

def counted (l : Line) : List (List Char) := if l.ended then l.elements else l.elements.dropLast

def uncounted (l : Line) : List Char := if l.ended then [] else l.elements.getLastD []

def fields (l : Line) : List (List Char × Char) :=
  l.elements.dropLast.map (fun e => (e, ',')) ++
    if l.ended then [(l.elements.getLastD [], '\n')] else []

theorem elements_ne_nil (l : Line) : l.elements ≠ [] := splitOn_ne_nil _ _

theorem elements_eq (l : Line) : l.elements.dropLast ++ [l.elements.getLastD []] = l.elements := by
  rcases eq_nil_or_concat l.elements with h | ⟨init, e, h⟩
  · exact absurd h l.elements_ne_nil
  · rw [h]
    simp

theorem fields_fst (l : Line) : l.fields.map Prod.fst = l.counted := by
  have hmap : (l.elements.dropLast.map fun e => (e, ',')).map Prod.fst
      = l.elements.dropLast := by
    rw [map_map]
    exact map_id _
  unfold fields counted
  rw [map_append, hmap]
  cases l.ended with
  | true => exact l.elements_eq
  | false => exact append_nil _

theorem fields_sep (l : Line) : ∀ f ∈ l.fields.dropLast, f.2 = ',' := by
  unfold fields
  cases l.ended with
  | true =>
    intro f hf
    rw [if_pos rfl, dropLast_concat] at hf
    obtain ⟨e, -, rfl⟩ := mem_map.mp hf
    rfl
  | false =>
    intro f hf
    rw [if_neg (by decide), append_nil] at hf
    obtain ⟨e, -, rfl⟩ := mem_map.mp ((dropLast_sublist _).mem hf)
    rfl

theorem written_fields (l : Line) :
    written l.fields ++ l.uncounted
      = value restrictTopicsStr l.text ++ if l.ended then ['\n'] else [] := by
  have hlist : written (l.elements.dropLast.map fun e => (e, ',')) ++ l.elements.getLastD []
      = value restrictTopicsStr l.text := by
    rw [written_commas, l.elements_eq]
    exact intercalate_splitOn ','
  unfold fields uncounted
  cases l.ended with
  | true =>
    rw [← hlist]
    simp [written]
  | false =>
    rw [if_neg (by decide), if_neg (by decide), if_neg (by decide), append_nil,
      append_nil, hlist]

theorem mem_elements {e : List Char} (he : e ∈ l.elements) (hc : c ∈ e) : c ∈ l.text ∧ c ≠ ',' := by
  obtain ⟨hmem, hne⟩ := mem_splitOn he hc
  exact ⟨(drop_sublist _ _).mem ((dropWhile_sublist _).mem hmem), hne⟩

theorem counted_subset (l : Line) : ∀ e ∈ l.counted ++ [l.uncounted], e = [] ∨ e ∈ l.elements := by
  intro e he
  unfold counted uncounted at he
  cases hend : l.ended with
  | true =>
    rw [hend, if_pos rfl, if_pos rfl] at he
    rcases mem_append.mp he with he | he
    · exact .inr he
    · exact .inl (mem_singleton.mp he)
  | false =>
    rw [hend, if_neg (by decide), if_neg (by decide), l.elements_eq] at he
    exact .inr he

end Line

/-! ## One line -/

theorem startsWith_iff (pre str : List Char) : startsWith pre str = true ↔ pre <+: str := by
  unfold startsWith
  rw [prefix_iff_eq_take]
  split
  · rename_i hlt
    refine iff_of_false (by decide) fun he => ?_
    have hlen := congrArg List.length he
    rw [length_take, Nat.min_eq_right (Nat.le_of_lt hlt)] at hlen
    omega
  · rw [decide_eq_true_eq]
    exact eq_comm

theorem startsWith_newline (hpre : '\n' ∉ pre) (str : List Char) :
    startsWith pre (str ++ ['\n']) = startsWith pre str := by
  rw [Bool.eq_iff_iff, startsWith_iff, startsWith_iff]
  refine ⟨fun h => ?_, fun h => h.trans (prefix_append _ _)⟩
  rcases prefix_concat_iff.mp h with he | h
  · exact absurd (by rw [he]; simp) hpre
  · exact h

theorem strtrim_newline (str : List Char) : strtrim (str ++ ['\n']) = strtrim str ++ ['\n'] := by
  unfold strtrim
  induction str with
  | nil => rfl
  | cons c str ih =>
    by_cases hc : isBlank c = true
    · rw [cons_append, dropWhile_cons_of_pos hc, dropWhile_cons_of_pos hc, ih]
    · rw [cons_append, dropWhile_cons_of_neg hc, dropWhile_cons_of_neg hc]
      rfl

namespace Line

def isRestrict (l : Line) : Bool := startsWith restrictTopicsStr l.text
def isModule (l : Line) : Bool := startsWith moduleStr l.text
def isIgnore (l : Line) : Bool := startsWith ignoreOthers l.text

/-- A blank line, a comment, or a line of one of the three kinds. -/
def Allowed (l : Line) : Prop :=
  l.text = [] ∨ l.text.head? = some '#' ∨ l.isRestrict = true ∨ l.isModule = true ∨
    l.isIgnore = true

def Rejected (l : Line) : Prop := ¬l.Allowed ∧ (l.ended = true ∨ l.text.length ≠ 1)

def Plain (l : Line) : Prop := '\n' ∉ l.text ∧ nul ∉ l.text

def topicsOf (l : Line) : Option (List (List Char)) :=
  if l.isRestrict = true ∧ groups [] l.fields ≠ [] then some ((groups [] l.fields).map strtrim)
  else none

def moduleOf (l : Line) : Option (List Char) :=
  if l.isModule = true then some (value moduleStr l.text) else none

def ignoreOf (l : Line) : Bool :=
  l.isIgnore && startsWith trueStr (value ignoreOthers l.text)

end Line

structure Seen where
  topics : Option (List (List Char))
  moduleName : Option (List Char)
  ignores : Bool

structure Shows (rule : PublisherRule) (v : Seen) : Prop where
  topics : rule.topics.map (fun t => t.map (Option.map cString))
    = v.topics.map fun names => names.map some ++ [none]
  moduleName : rule.moduleName = v.moduleName
  ignores : rule.ignoreOtherTopics = v.ignores

def Seen.after (v : Seen) (l : Line) : Seen :=
  ⟨l.topicsOf <|> v.topics, l.moduleOf <|> v.moduleName, v.ignores || l.ignoreOf⟩

attribute [simp] Line.moduleOf Line.ignoreOf Seen.after

section ReadLine

variable {l : Line}

theorem Line.startsWith_raw (hpre : '\n' ∉ pre) (l : Line) :
    startsWith pre l.raw = startsWith pre l.text := by
  unfold raw
  split
  · exact startsWith_newline hpre l.text
  · rfl

theorem Line.strtrim_drop_raw (h : startsWith pre l.text = true) :
    strtrim (l.raw.drop pre.length) = value pre l.text ++ if l.ended then ['\n'] else [] := by
  have hlen : pre.length ≤ l.text.length := ((startsWith_iff _ _).mp h).length_le
  unfold raw value
  cases l.ended with
  | true =>
    rw [if_pos rfl, if_pos rfl, drop_append_of_le_length hlen, strtrim_newline]
  | false =>
    rw [if_neg (by decide), if_neg (by decide), append_nil]

theorem Line.newline_not_mem_value (h : l.Plain) (pre : List Char) : '\n' ∉ value pre l.text :=
  not_mem_strtrim fun hm => h.1 ((drop_sublist _ _).mem hm)

theorem mem_groups : ∀ (fields : List (List Char × Char)) (pending : List Char),
    (∀ f ∈ fields, c ∉ f.1 ∧ c ≠ f.2) → c ∉ pending → ∀ g ∈ groups pending fields, c ∉ g := by
  intro fields
  induction fields with
  | nil => intro pending _ _ g hg; cases hg
  | cons f fields ih =>
    obtain ⟨e, d⟩ := f
    intro pending hf hp g hg
    obtain ⟨he, hd⟩ := hf (e, d) mem_cons_self
    have hrest := fun f hm => hf f (mem_cons_of_mem _ hm)
    by_cases hnil : e = []
    · simp only [groups, if_pos hnil] at hg
      refine ih _ hrest (fun hm => ?_) g hg
      rcases mem_append.mp hm with hm | hm
      · exact hp hm
      · exact hd (mem_singleton.mp hm)
    · simp only [groups, if_neg hnil] at hg
      rcases mem_cons.mp hg with rfl | hg
      · intro hm
        rcases mem_append.mp hm with hm | hm
        · exact hp hm
        · exact he hm
      · exact ih [] hrest (by simp) g hg

theorem Line.mem_fields (h : l.Plain) : ∀ f ∈ l.fields,
    (∀ c ∈ f.1, ¬isSep c) ∧ isSep f.2 ∧ nul ∉ f.1 ∧ nul ≠ f.2 := by
  have hel : ∀ e ∈ l.elements, (∀ c ∈ e, ¬isSep c) ∧ nul ∉ e := by
    intro e he
    refine ⟨fun c hc hsep => ?_, fun hc => h.2 (l.mem_elements he hc).1⟩
    obtain ⟨hmem, hne⟩ := l.mem_elements he hc
    rcases hsep with rfl | rfl
    · exact hne rfl
    · exact h.1 hmem
  intro f hf
  rcases mem_append.mp hf with hf | hf
  · obtain ⟨e, he, rfl⟩ := mem_map.mp hf
    obtain ⟨h1, h2⟩ := hel e ((dropLast_sublist _).mem he)
    exact ⟨h1, .inl rfl, h2, show nul ≠ ',' by decide⟩
  · split at hf
    · obtain rfl := mem_singleton.mp hf
      have hlast : l.elements.getLastD [] ∈ l.elements := by
        rw [← l.elements_eq]
        simp
      obtain ⟨h1, h2⟩ := hel _ hlast
      exact ⟨h1, .inr rfl, h2, show nul ≠ '\n' by decide⟩
    · cases hf

theorem Line.uncounted_sep (h : l.Plain) : ∀ c ∈ l.uncounted, ¬isSep c := by
  intro c hc hsep
  have hmem : l.uncounted ∈ l.counted ++ [l.uncounted] := by simp
  rcases l.counted_subset _ hmem with hnil | hel
  · rw [hnil] at hc
    cases hc
  · obtain ⟨hm, hne⟩ := l.mem_elements hel hc
    rcases hsep with rfl | rfl
    · exact hne rfl
    · exact h.1 hm

theorem Line.readTopics_raw (h : l.Plain) (hr : l.isRestrict = true) :
    ∃ topics, readTopics (l.raw.drop restrictTopicsStr.length) = some topics ∧
      topics.map (fun t => t.map (Option.map cString))
        = l.topicsOf.map fun names => names.map some ++ [none] := by
  have hf := l.mem_fields h
  obtain ⟨topics, ht, hmap⟩ := readTopics_eq
    ((l.strtrim_drop_raw hr).trans l.written_fields.symm)
    (fun f hm => ⟨(hf f hm).1, (hf f hm).2.1⟩) (l.uncounted_sep h)
    (mem_groups l.fields [] (fun f hm => (hf f hm).2.2) (by simp))
  refine ⟨topics, ht, ?_⟩
  rw [hmap]
  unfold topicsOf
  by_cases hg : groups [] l.fields = []
  · simp [hg]
  · simp [hg, hr]

theorem Line.skipped_iff (l : Line) : (l.raw.length < 2 ∨ l.raw.head? = some '#') ↔
    l.text = [] ∨ l.text.head? = some '#' ∨ l.ended = false ∧ l.text.length = 1 := by
  obtain ⟨text, ended⟩ := l
  cases text with
  | nil => cases ended <;> simp [raw]
  | cons c text =>
    cases ended with
    | false =>
      have hlen : text.length + 1 < 2 ↔ text.length = 0 := by omega
      simp [raw, hlen, or_comm]
    | true =>
      have hlen : ¬text.length + 1 + 1 < 2 := by omega
      simp [raw, hlen]

theorem Line.not_skipped (h : startsWith pre l.text = true) (hlen : 2 ≤ pre.length)
    (hhead : pre.head? ≠ some '#') : ¬(l.raw.length < 2 ∨ l.raw.head? = some '#') := by
  obtain ⟨rest, hrest⟩ := (startsWith_iff _ _).mp h
  rw [l.skipped_iff, ← hrest]
  cases pre with
  | nil => simp at hlen
  | cons c pre =>
    have hpre : 0 < pre.length := by
      rw [length_cons] at hlen
      omega
    rintro (hnil | hhash | ⟨-, hone⟩)
    · cases hnil
    · exact hhead hhash
    · rw [length_append, length_cons] at hone
      omega

theorem Line.skipped_kinds (h : l.raw.length < 2 ∨ l.raw.head? = some '#') :
    l.isRestrict = false ∧ l.isModule = false ∧ l.isIgnore = false := by
  refine ⟨?_, ?_, ?_⟩ <;>
  · exact Bool.eq_false_iff.mpr fun hk => l.not_skipped hk (by decide) (by decide) h

theorem startsWith_head {str : List Char} (h : startsWith (c :: pre) str = true) :
    str.head? = some c := by
  obtain ⟨rest, rfl⟩ := (startsWith_iff _ _).mp h
  rfl

theorem Line.kind_head (l : Line) :
    (l.isRestrict = true → l.text.head? = some 'r') ∧ (l.isModule = true → l.text.head? = some 'm') ∧
      (l.isIgnore = true → l.text.head? = some 'i') :=
  ⟨fun h => startsWith_head h, fun h => startsWith_head h, fun h => startsWith_head h⟩

/-- **What a line does**: it is rejected, or taken into the rule. -/
theorem readLine_spec (h : l.Plain) {rule : PublisherRule} {v : Seen} (hv : Shows rule v) :
    (l.Rejected ∧ readLine l.raw rule = some (-EINVAL, rule)) ∨
    (¬l.Rejected ∧ ∃ rule', readLine l.raw rule = some (0, rule') ∧ Shows rule' (v.after l)) := by
  obtain ⟨hhr, hhm, hhi⟩ := l.kind_head
  unfold readLine
  by_cases hskip : l.raw.length < 2 ∨ l.raw.head? = some '#'
  · obtain ⟨hr, hm, hi⟩ := l.skipped_kinds hskip
    rw [if_pos hskip]
    refine .inr ⟨fun ⟨hbad, hseen⟩ => ?_, rule, rfl, ?_⟩
    · rcases l.skipped_iff.mp hskip with hnil | hhash | ⟨hend, hlen⟩
      · exact hbad (.inl hnil)
      · exact hbad (.inr (.inl hhash))
      · rcases hseen with hseen | hseen
        · exact absurd (hend.symm.trans hseen) (by decide)
        · exact hseen hlen
    · have hafter : v.after l = v := by
        simp [Line.topicsOf, hr, hm, hi]
      rw [hafter]
      exact hv
  · rw [if_neg hskip, l.startsWith_raw (by decide), l.startsWith_raw (by decide),
      l.startsWith_raw (by decide)]
    cases hr : l.isRestrict with
    | true =>
      have hm : l.isModule = false :=
        Bool.eq_false_iff.mpr fun hm => absurd ((hhr hr).symm.trans (hhm hm)) (by decide)
      have hi : l.isIgnore = false :=
        Bool.eq_false_iff.mpr fun hi => absurd ((hhr hr).symm.trans (hhi hi)) (by decide)
      obtain ⟨topics, ht, hmap⟩ := l.readTopics_raw h hr
      rw [if_pos (show startsWith restrictTopicsStr l.text = true from hr), ht]
      refine .inr ⟨fun hbad => hbad.1 (.inr (.inr (.inl hr))), _, rfl, ?_, ?_, ?_⟩
      · show (topics <|> rule.topics).map _ = (l.topicsOf <|> v.topics).map _
        cases topics with
        | none =>
          have hnone : l.topicsOf = none := by
            cases hto : l.topicsOf with
            | none => rfl
            | some names => rw [hto] at hmap; cases hmap
          rw [hnone]
          exact hv.topics
        | some t =>
          cases hto : l.topicsOf with
          | none => rw [hto] at hmap; cases hmap
          | some names =>
            rw [hto] at hmap
            exact hmap
      · simp [hm, hv.moduleName]
      · simp [hi, hv.ignores]
    | false =>
      rw [if_neg (show ¬startsWith restrictTopicsStr l.text = true from Bool.eq_false_iff.mp hr)]
      have hto : l.topicsOf = none := by simp [Line.topicsOf, hr]
      cases hm : l.isModule with
      | true =>
        have hi : l.isIgnore = false :=
          Bool.eq_false_iff.mpr fun hi => absurd ((hhm hm).symm.trans (hhi hi)) (by decide)
        have hname : dropNewline (strtrim (l.raw.drop moduleStr.length)) = value moduleStr l.text := by
          rw [l.strtrim_drop_raw hm]
          unfold dropNewline
          cases l.ended with
          | true => simp
          | false =>
            rw [if_neg Bool.false_ne_true, append_nil, if_neg]
            intro hlast
            exact l.newline_not_mem_value h moduleStr (mem_of_getLast? hlast)
        rw [if_pos (show startsWith moduleStr l.text = true from hm)]
        refine .inr ⟨fun hbad => hbad.1 (.inr (.inr (.inr (.inl hm)))), _, rfl, ?_, ?_, ?_⟩
        · simp [hto, hv.topics]
        · simp [hm, hname]
        · simp [hi, hv.ignores]
      | false =>
        rw [if_neg (show ¬startsWith moduleStr l.text = true from Bool.eq_false_iff.mp hm)]
        cases hi : l.isIgnore with
        | true =>
          have htrue : startsWith trueStr (strtrim (l.raw.drop ignoreOthers.length))
              = startsWith trueStr (value ignoreOthers l.text) := by
            rw [l.strtrim_drop_raw hi]
            cases l.ended with
            | true => exact startsWith_newline (by decide) _
            | false => rw [if_neg (by decide), append_nil]
          rw [if_pos (show startsWith ignoreOthers l.text = true from hi)]
          refine .inr ⟨fun hbad => hbad.1 (.inr (.inr (.inr (.inr hi)))), _, rfl, ?_⟩
          simp only [htrue]
          split
          · rename_i hsays
            refine ⟨?_, ?_, ?_⟩
            · simp [hto, hv.topics]
            · simp [hm, hv.moduleName]
            · simp [hi, hsays]
          · rename_i hsays
            refine ⟨?_, ?_, ?_⟩
            · simp [hto, hv.topics]
            · simp [hm, hv.moduleName]
            · simp [hi, hsays, hv.ignores]
        | false =>
          rw [if_neg (show ¬startsWith ignoreOthers l.text = true from Bool.eq_false_iff.mp hi)]
          refine .inl ⟨⟨?_, ?_⟩, rfl⟩
          · rintro (hnil | hhash | hr' | hm' | hi')
            · exact hskip (l.skipped_iff.mpr (.inl hnil))
            · exact hskip (l.skipped_iff.mpr (.inr (.inl hhash)))
            · exact absurd (hr.symm.trans hr') (by decide)
            · exact absurd (hm.symm.trans hm') (by decide)
            · exact absurd (hi.symm.trans hi') (by decide)
          · by_contra hno
            push Not at hno
            exact hskip (l.skipped_iff.mpr
              (.inr (.inr ⟨Bool.eq_false_iff.mpr hno.1, hno.2⟩)))

end ReadLine

end Gpmx.Uorb.PublisherRules
