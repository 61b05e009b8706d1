import Gpmx.Uorb.PublisherLines

/-!
# uORB: when a publisher-rules file is read as what it says

A file with lines of the format, one list of topics and one module, is read as what it says if the
list is `Legible` and `true` is not the beginning of a longer word. A file with another line is
rejected, except for one character at its end that no newline follows, which is not looked at.
-/

namespace Gpmx.Uorb.PublisherRules

open Option List

/-- A file: lines that a newline ends, and what follows the last newline. -/
structure RulesFile where
  whole : List (List Char)
  last : List Char

namespace RulesFile

variable {f : RulesFile}

def lines (f : RulesFile) : List Line := f.whole.map (fun text => ⟨text, true⟩) ++ [⟨f.last, false⟩]

def content (f : RulesFile) : List Char := (f.lines.map Line.raw).flatten

structure Fits (f : RulesFile) : Prop where
  plain : ∀ l ∈ f.lines, l.Plain
  short : ∀ l ∈ f.lines, l.raw.length < lineLen

end RulesFile

/-! ## The loop over the lines -/

def runLines : List Line → PublisherRule → Option (Int × PublisherRule)
  | [], rule => some (0, rule)
  | l :: lines, rule =>
    match readLine l.raw rule with
    | none => none
    | some (ret, rule) => if ret = 0 then runLines lines rule else some (ret, rule)

variable {text : List Char} {l : Line} {file : List Char} {α β : Type}

theorem fgetsLoop_newline (h : '\n' ∉ text) (rest : List Char) :
    ∀ {left : Nat}, text.length < left →
      fgetsLoop left (text ++ '\n' :: rest) = (text ++ ['\n'], rest) := by
  induction text with
  | nil =>
    intro left hleft
    obtain ⟨left, rfl⟩ := Nat.exists_eq_succ_of_ne_zero (Nat.ne_of_gt hleft)
    simp [fgetsLoop]
  | cons c text ih =>
    intro left hleft
    obtain ⟨left, rfl⟩ := Nat.exists_eq_succ_of_ne_zero (Nat.ne_of_gt (Nat.zero_lt_of_lt hleft))
    have hc : ¬c = '\n' := fun he => h (by simp [he])
    rw [cons_append, fgetsLoop, if_neg hc,
      ih (fun hm => h (mem_cons_of_mem c hm)) (Nat.lt_of_succ_lt_succ hleft)]
    rfl

theorem fgetsLoop_end (h : '\n' ∉ text) :
    ∀ {left : Nat}, text.length ≤ left → fgetsLoop left text = (text, []) := by
  induction text with
  | nil => intro left _; cases left <;> rfl
  | cons c text ih =>
    intro left hleft
    obtain ⟨left, rfl⟩ := Nat.exists_eq_succ_of_ne_zero (Nat.ne_of_gt (Nat.zero_lt_of_lt hleft))
    have hc : ¬c = '\n' := fun he => h (by simp [he])
    rw [fgetsLoop, if_neg hc,
      ih (fun hm => h (mem_cons_of_mem c hm)) (Nat.le_of_succ_le_succ hleft)]

theorem cString_of_not_mem {s : List Char} (h : nul ∉ s) : cString s = s := by
  unfold cString
  rw [takeWhile_eq_self_iff]
  intro c hc
  have hne : c ≠ nul := fun he => h (he ▸ hc)
  simpa using hne

theorem Line.nul_not_mem_raw (h : l.Plain) : nul ∉ l.raw := by
  unfold raw
  split
  · intro hm
    rcases mem_append.mp hm with hm | hm
    · exact h.2 hm
    · exact absurd (mem_singleton.mp hm) (by decide)
  · exact h.2

theorem memFgets_ended (h : Line.Plain ⟨text, true⟩)
    (hshort : (Line.raw ⟨text, true⟩).length < lineLen) (rest : List Char) :
    memFgets lineLen (Line.raw ⟨text, true⟩ ++ rest) = some (Line.raw ⟨text, true⟩, rest) := by
  have hraw : Line.raw ⟨text, true⟩ = text ++ ['\n'] := rfl
  have hlen : text.length < lineLen - 1 := by
    rw [hraw, length_append, length_singleton] at hshort
    omega
  unfold memFgets
  rw [if_neg (by simp [hraw, lineLen])]
  rw [hraw, append_assoc, singleton_append, fgetsLoop_newline h.1 rest hlen, ← hraw]
  simp only [cString_of_not_mem (Line.nul_not_mem_raw h)]

theorem memFgets_end (h : Line.Plain ⟨text, false⟩) (hne : text ≠ [])
    (hshort : text.length < lineLen) : memFgets lineLen text = some (text, []) := by
  unfold memFgets
  rw [if_neg (by simp [hne, lineLen]), fgetsLoop_end h.1 (Nat.le_sub_one_of_lt hshort)]
  simp only [cString_of_not_mem h.2]

theorem readLines_none (h : memFgets lineLen file = none) (rule : PublisherRule) :
    readLines file rule = some (0, rule) := by
  rw [readLines]
  split
  · rfl
  · rename_i hs
    cases h.symm.trans hs

theorem readLines_some {line rest : List Char} (h : memFgets lineLen file = some (line, rest))
    (rule : PublisherRule) :
    readLines file rule = match readLine line rule with
      | none => none
      | some (ret, rule) => if ret = 0 then readLines rest rule else some (ret, rule) := by
  rw [readLines]
  split
  · rename_i hn
    cases h.symm.trans hn
  · rename_i hs
    cases h.symm.trans hs
    rfl

theorem readLines_content (whole : List (List Char)) (last : List Char) (rule : PublisherRule)
    (hfits : RulesFile.Fits ⟨whole, last⟩) :
    readLines (RulesFile.content ⟨whole, last⟩) rule = runLines (RulesFile.lines ⟨whole, last⟩) rule := by
  induction whole generalizing rule with
  | nil =>
    have hmem : (⟨last, false⟩ : Line) ∈ RulesFile.lines ⟨[], last⟩ := by simp [RulesFile.lines]
    have hcontent : RulesFile.content ⟨[], last⟩ = last := by
      simp [RulesFile.content, RulesFile.lines, Line.raw]
    rw [hcontent]
    show _ = runLines [⟨last, false⟩] rule
    by_cases hne : last = []
    · subst hne
      rw [readLines_none rfl]
      rfl
    · have hget := memFgets_end (hfits.plain _ hmem) hne (hfits.short _ hmem)
      rw [readLines_some hget]
      simp only [runLines, Line.raw, Bool.false_eq_true, if_false]
      cases readLine last rule with
      | none => rfl
      | some r =>
        obtain ⟨ret, rule'⟩ := r
        simp only
        split
        · exact readLines_none rfl rule'
        · rfl
  | cons text whole ih =>
    have hmem : (⟨text, true⟩ : Line) ∈ RulesFile.lines ⟨text :: whole, last⟩ := by
      simp [RulesFile.lines]
    have hrest : RulesFile.Fits ⟨whole, last⟩ :=
      ⟨fun l hl => hfits.plain l (mem_cons_of_mem _ hl),
        fun l hl => hfits.short l (mem_cons_of_mem _ hl)⟩
    have hcontent : RulesFile.content ⟨text :: whole, last⟩
        = Line.raw ⟨text, true⟩ ++ RulesFile.content ⟨whole, last⟩ := rfl
    have hget := memFgets_ended (hfits.plain _ hmem) (hfits.short _ hmem)
      (RulesFile.content ⟨whole, last⟩)
    rw [hcontent, readLines_some hget]
    show _ = runLines (⟨text, true⟩ :: RulesFile.lines ⟨whole, last⟩) rule
    simp only [runLines]
    cases readLine (Line.raw ⟨text, true⟩) rule with
    | none => rfl
    | some r =>
      obtain ⟨ret, rule'⟩ := r
      simp only
      split
      · exact ih rule' hrest
      · rfl

/-- **What all the lines do**: one of them is rejected, or each is taken into the rule. -/
theorem runLines_spec : ∀ (lines : List Line) {rule : PublisherRule} {v : Seen},
    (∀ l ∈ lines, l.Plain) → Shows rule v →
    ((∃ l ∈ lines, l.Rejected) ∧ ∃ rule', runLines lines rule = some (-EINVAL, rule')) ∨
    (¬(∃ l ∈ lines, l.Rejected) ∧ ∃ rule', runLines lines rule = some (0, rule') ∧
      Shows rule' (lines.foldl Seen.after v)) := by
  intro lines
  induction lines with
  | nil =>
    intro rule v _ hv
    exact .inr ⟨by simp, rule, rfl, hv⟩
  | cons l lines ih =>
    intro rule v hplain hv
    have hl := hplain l mem_cons_self
    rcases readLine_spec hl hv with ⟨hbad, hr⟩ | ⟨hgood, rule', hr, hv'⟩
    · refine .inl ⟨⟨l, mem_cons_self, hbad⟩, rule, ?_⟩
      rw [runLines, hr]
      exact if_neg (show ¬(-EINVAL = 0) by decide)
    · rw [runLines, hr]
      simp only [if_true]
      rcases ih (fun l hm => hplain l (mem_cons_of_mem _ hm)) hv' with
        ⟨⟨m, hm, hbad⟩, hrun⟩ | ⟨hall, hrun⟩
      · exact .inl ⟨⟨m, mem_cons_of_mem l hm, hbad⟩, hrun⟩
      · refine .inr ⟨?_, hrun⟩
        rintro ⟨m, hm, hbad⟩
        rcases mem_cons.mp hm with rfl | hm
        · exact hgood hbad
        · exact hall ⟨m, hm, hbad⟩

/-! ## The rule of a file -/

theorem foldl_orElse (g : β → Option α) : ∀ (xs : List β) (acc : Option α),
    xs.foldl (fun acc x => g x <|> acc) acc = ((xs.filterMap g).getLast? <|> acc) := by
  intro xs
  induction xs with
  | nil => intro acc; rfl
  | cons x xs ih =>
    intro acc
    rw [foldl_cons, ih]
    cases hg : g x with
    | none => rw [filterMap_cons_none hg]; rfl
    | some a =>
      rw [filterMap_cons_some hg, getLast?_cons]
      cases (xs.filterMap g).getLast? <;> rfl

theorem foldl_after : ∀ (lines : List Line) (v : Seen),
    lines.foldl Seen.after v
      = ⟨lines.foldl (fun acc l => l.topicsOf <|> acc) v.topics,
          lines.foldl (fun acc l => l.moduleOf <|> acc) v.moduleName,
          v.ignores || lines.any Line.ignoreOf⟩ := by
  intro lines
  induction lines with
  | nil => intro v; simp
  | cons l lines ih =>
    intro v
    rw [foldl_cons, ih]
    simp [Seen.after, Bool.or_assoc]

theorem filterMap_filter_of {g : α → Option β} {p : α → Bool} (h : ∀ x, p x = false → g x = none)
    (xs : List α) : xs.filterMap g = (xs.filter p).filterMap g := by
  rw [filterMap_filter]
  congr 1
  funext x
  cases hp : p x with
  | true => rfl
  | false => exact h x hp

theorem Shows.topics_none {rule : PublisherRule} {v : Seen}
    (h : Shows rule v) : rule.topics = none ↔ v.topics = none := by
  have ht := h.topics
  cases hr : rule.topics <;> cases hv : v.topics <;> simp_all

namespace RulesFile

variable {f : RulesFile}

def seen (f : RulesFile) : Seen := f.lines.foldl Seen.after ⟨none, none, false⟩

theorem seen_topics (f : RulesFile) : f.seen.topics
    = ((f.lines.filter Line.isRestrict).filterMap Line.topicsOf).getLast? := by
  have hkind : ∀ l : Line, l.isRestrict = false → l.topicsOf = none := by
    intro l hl
    simp [Line.topicsOf, hl]
  unfold seen
  rw [foldl_after, ← filterMap_filter_of hkind]
  show f.lines.foldl (fun acc l => l.topicsOf <|> acc) none = _
  rw [foldl_orElse]
  simp

theorem seen_moduleName (f : RulesFile) : f.seen.moduleName
    = ((f.lines.filter Line.isModule).filterMap Line.moduleOf).getLast? := by
  have hkind : ∀ l : Line, l.isModule = false → l.moduleOf = none := by
    intro l hl
    simp [Line.moduleOf, hl]
  unfold seen
  rw [foldl_after, ← filterMap_filter_of hkind]
  show f.lines.foldl (fun acc l => l.moduleOf <|> acc) none = _
  rw [foldl_orElse]
  simp

theorem seen_ignores (f : RulesFile) : f.seen.ignores = f.lines.any Line.ignoreOf := by
  unfold seen
  rw [foldl_after, Bool.false_or]

structure Accepted (f : RulesFile) : Prop where
  lines : ¬∃ l ∈ f.lines, l.Rejected
  topics : f.seen.topics ≠ none
  moduleName : f.seen.moduleName ≠ none

theorem shows_empty : Shows ⟨none, none, false⟩ ⟨none, none, false⟩ := ⟨rfl, rfl, rfl⟩

/-- **What the code makes of a file.** -/
theorem read_spec (h : f.Fits) (rule : PublisherRule) :
    (¬f.Accepted ∧ ∃ ret rule', readPublisherRulesFromFile f.content rule = some (ret, rule') ∧
      ret ≠ 0) ∨
    (f.Accepted ∧ ∃ rule', readPublisherRulesFromFile f.content rule = some (0, rule') ∧
      Shows rule' f.seen) := by
  unfold readPublisherRulesFromFile
  have hread := readLines_content f.whole f.last ⟨none, none, false⟩ h
  have hrun := runLines_spec f.lines h.plain shows_empty
  by_cases hnil : f.content = []
  · rw [if_pos hnil]
    refine .inl ⟨fun ha => ha.topics ?_, -ENOMEM, rule, rfl, by decide⟩
    rw [hnil, readLines_none rfl] at hread
    rcases hrun with ⟨-, rule', hr⟩ | ⟨-, rule', hr, hshows⟩
    · rw [show f.lines = RulesFile.lines ⟨f.whole, f.last⟩ from rfl, ← hread] at hr
      cases hr
    · rw [show f.lines = RulesFile.lines ⟨f.whole, f.last⟩ from rfl, ← hread] at hr
      cases hr
      exact hshows.topics_none.mp rfl
  · rw [if_neg hnil]
    have hread : readLines f.content ⟨none, none, false⟩ = runLines f.lines ⟨none, none, false⟩ := hread
    rw [hread]
    rcases hrun with ⟨hbad, rule', hr⟩ | ⟨hgood, rule', hr, hshows⟩
    · rw [hr]
      exact .inl ⟨fun ha => ha.lines hbad, -EINVAL, rule', rfl, by decide⟩
    · rw [hr]
      simp only [bind_eq_bind, bind_some, true_and]
      have hiff : (rule'.moduleName = none ∨ rule'.topics = none) ↔
          (f.seen.moduleName = none ∨ f.seen.topics = none) := by
        rw [hshows.topics_none, hshows.moduleName]
        rfl
      by_cases hno : rule'.moduleName = none ∨ rule'.topics = none
      · rw [if_pos hno]
        refine .inl ⟨fun ha => ?_, -EINVAL, rule', rfl, by decide⟩
        rcases hiff.mp hno with hm | ht
        · exact ha.moduleName hm
        · exact ha.topics ht
      · rw [if_neg hno]
        have hboth := mt hiff.mpr hno
        push Not at hboth
        exact .inr ⟨⟨hgood, hboth.2, hboth.1⟩, rule', rfl, hshows⟩

/-! ## The claim of the format -/

/-- The value says `true`, with nothing but blanks behind it. -/
def saysTrue (v : List Char) : Bool := startsWith trueStr v && (v.drop trueStr.length).all isBlank

structure Valid (f : RulesFile) : Prop where
  allowed : ∀ l ∈ f.lines, l.Allowed
  oneRestrict : (f.lines.filter Line.isRestrict).length = 1
  oneModule : (f.lines.filter Line.isModule).length = 1
  oneIgnore : (f.lines.filter Line.isIgnore).length ≤ 1

def names (f : RulesFile) : List (List Char) :=
  (f.lines.filter Line.isRestrict).flatMap fun l => namesOf l.elements

def moduleName (f : RulesFile) : List Char :=
  ((f.lines.filter Line.isModule).map fun l => value moduleStr l.text).headD []

def ignores (f : RulesFile) : Bool :=
  (f.lines.filter Line.isIgnore).any fun l => saysTrue (value ignoreOthers l.text)

def ReadRight (f : RulesFile) (rule : PublisherRule) : Prop :=
  ∃ rule' topics, readPublisherRulesFromFile f.content rule = some (0, rule') ∧
    rule'.topics = some topics ∧
    topics.map (Option.map cString) = f.names.map some ++ [none] ∧
    (∀ topicName, findTopic topicName topics = some (decide (topicName ∈ f.names))) ∧
    rule'.moduleName = some f.moduleName ∧ rule'.ignoreOtherTopics = f.ignores

def Refused (f : RulesFile) (rule : PublisherRule) : Prop :=
  ∃ ret rule', readPublisherRulesFromFile f.content rule = some (ret, rule') ∧ ret ≠ 0

/-- The list of topics is legible, and no longer word begins with `true`. -/
structure Legibly (f : RulesFile) : Prop where
  topics : ∀ l ∈ f.lines, l.isRestrict = true → Legible l.counted l.uncounted
  ignores : ∀ l ∈ f.lines, l.isIgnore = true →
    startsWith trueStr (value ignoreOthers l.text) = true → saysTrue (value ignoreOthers l.text) = true

def Faulty (f : RulesFile) : Prop :=
  (∃ l ∈ f.lines, l.Rejected) ∨
  (∀ l ∈ f.lines, l.isRestrict = true → ∀ e ∈ l.counted, e = []) ∨
  ∀ l ∈ f.lines, l.isModule = false

theorem findTopic_map (topicName : List Char) : ∀ (topics : List (Option (List Char)))
    (names : List (List Char)), topics.map (Option.map cString) = names.map some ++ [none] →
      findTopic topicName topics = some (decide (topicName ∈ names)) := by
  intro topics
  induction topics with
  | nil => intro names h; simp at h
  | cons p topics ih =>
    intro names h
    cases names with
    | nil =>
      cases p with
      | none => rfl
      | some p => simp at h
    | cons n names =>
      cases p with
      | none => simp at h
      | some p =>
        simp only [map_cons, map_some, cons_append, List.cons.injEq,
          some.injEq] at h
        obtain ⟨rfl, h⟩ := h
        unfold findTopic
        by_cases hp : cString p = topicName
        · simp [hp]
        · rw [if_neg hp, ih names h]
          simp [Ne.symm hp]

theorem topicsOf_eq_none_iff (l : Line) :
    l.topicsOf = none ↔ (l.isRestrict = true → ∀ e ∈ l.counted, e = []) := by
  unfold Line.topicsOf
  rw [← l.fields_fst, ← groups_eq_nil_iff l.fields []]
  by_cases hr : l.isRestrict = true
  · by_cases hg : groups [] l.fields = []
    · simp [hg]
    · simp [hr, hg]
  · simp [hr]

/-- **When the code accepts a file.** -/
theorem not_accepted_iff (f : RulesFile) : ¬f.Accepted ↔ f.Faulty := by
  have htopics : f.seen.topics = none ↔ ∀ l ∈ f.lines, l.isRestrict = true → ∀ e ∈ l.counted, e = [] := by
    rw [seen_topics, getLast?_eq_none_iff, filterMap_eq_nil_iff]
    refine ⟨fun h l hl hr => ?_, fun h l hl => ?_⟩
    · exact (topicsOf_eq_none_iff l).mp (h l (mem_filter.mpr ⟨hl, hr⟩)) hr
    · exact (topicsOf_eq_none_iff l).mpr (h l (mem_filter.mp hl).1)
  have hmodule : f.seen.moduleName = none ↔ ∀ l ∈ f.lines, l.isModule = false := by
    rw [seen_moduleName, getLast?_eq_none_iff, filterMap_eq_nil_iff]
    refine ⟨fun h l hl => Bool.eq_false_iff.mpr fun hm => ?_, fun h l hl => ?_⟩
    · have hnone := h l (mem_filter.mpr ⟨hl, hm⟩)
      simp [Line.moduleOf, hm] at hnone
    · have hm := (mem_filter.mp hl).2
      rw [h l (mem_filter.mp hl).1] at hm
      cases hm
  unfold Faulty
  rw [← htopics, ← hmodule]
  constructor
  · intro hno
    by_contra hall
    push Not at hall
    exact hno ⟨fun ⟨l, hl, hr⟩ => hall.1 l hl hr, hall.2.1, hall.2.2⟩
  · rintro (hbad | ht | hm) ha
    · exact ha.lines hbad
    · exact ha.topics ht
    · exact ha.moduleName hm

theorem namesOf_elements (l : Line) : namesOf (l.counted ++ [l.uncounted]) = namesOf l.elements := by
  unfold Line.counted Line.uncounted
  cases l.ended with
  | true =>
    rw [if_pos rfl, if_pos rfl, namesOf_append, show namesOf [[]] = [] from rfl, append_nil]
  | false => rw [if_neg Bool.false_ne_true, if_neg Bool.false_ne_true, l.elements_eq]

theorem topicsOf_eq_names_iff (hr : l.isRestrict = true) :
    l.topicsOf = some (namesOf l.elements) ↔ Legible l.counted l.uncounted := by
  have hcomma : ∀ e ∈ l.fields.map Prod.fst ++ [l.uncounted], ',' ∉ e := by
    rw [l.fields_fst]
    intro e he hc
    rcases l.counted_subset e he with rfl | hel
    · cases hc
    · exact (l.mem_elements hel hc).2 rfl
  have hiff := groups_eq_names_iff l.fields_sep hcomma
  rw [l.fields_fst, namesOf_elements] at hiff
  rw [← hiff]
  unfold Line.topicsOf
  by_cases hg : groups [] l.fields = []
  · simp [hg]
  · simp [hr, hg]

theorem Valid.seen_topics (hv : f.Valid) : ∃ r ∈ f.lines, r.isRestrict = true ∧
    f.seen.topics = r.topicsOf ∧ f.names = namesOf r.elements ∧
    ∀ l ∈ f.lines, l.isRestrict = true → l = r := by
  obtain ⟨r, hr⟩ := length_eq_one_iff.mp hv.oneRestrict
  obtain ⟨hmem, hkind⟩ := mem_filter.mp (show r ∈ f.lines.filter Line.isRestrict by simp [hr])
  refine ⟨r, hmem, hkind, ?_, ?_, fun l hl hlr => ?_⟩
  · rw [RulesFile.seen_topics, hr]
    cases hto : r.topicsOf <;> simp [hto]
  · unfold names
    rw [hr]
    simp
  · have hl : l ∈ f.lines.filter Line.isRestrict := mem_filter.mpr ⟨hl, hlr⟩
    rw [hr] at hl
    exact mem_singleton.mp hl

theorem Valid.seen_moduleName (hv : f.Valid) : f.seen.moduleName = some f.moduleName := by
  obtain ⟨m, hm⟩ := length_eq_one_iff.mp hv.oneModule
  have hkind : m.isModule = true := (mem_filter.mp (show m ∈ f.lines.filter Line.isModule by simp [hm])).2
  rw [RulesFile.seen_moduleName]
  unfold moduleName
  rw [hm]
  simp [Line.moduleOf, hkind]

theorem Valid.ignores_iff (hv : f.Valid) : f.seen.ignores = f.ignores ↔
    ∀ l ∈ f.lines, l.isIgnore = true → startsWith trueStr (value ignoreOthers l.text) = true →
      saysTrue (value ignoreOthers l.text) = true := by
  have hseen : f.seen.ignores
      = (f.lines.filter Line.isIgnore).any fun l => startsWith trueStr (value ignoreOthers l.text) := by
    rw [RulesFile.seen_ignores, List.any_filter]
    rfl
  rw [hseen, ← forall_mem_filter]
  unfold ignores
  have hone := hv.oneIgnore
  cases hf : f.lines.filter Line.isIgnore with
  | nil => simp
  | cons l ls =>
    have hls : ls = [] := by
      rw [hf, length_cons] at hone
      exact length_eq_zero_iff.mp (by omega)
    subst hls
    simp only [any_cons, any_nil, Bool.or_false, mem_singleton, forall_eq]
    unfold saysTrue
    cases startsWith trueStr (value ignoreOthers l.text) <;> simp

theorem Valid.not_rejected (hv : f.Valid) : ¬∃ l ∈ f.lines, l.Rejected :=
  fun ⟨l, hl, hbad⟩ => hbad.1 (hv.allowed l hl)

/-- **A file of the format is read as what it says exactly if it says it legibly.** -/
theorem Valid.readRight_iff (hv : f.Valid) (h : f.Fits) (rule : PublisherRule) :
    f.ReadRight rule ↔ f.Legibly := by
  obtain ⟨r, hmem, hkind, htopics, hnames, honly⟩ := hv.seen_topics
  have hlegible : f.seen.topics = some f.names ↔
      ∀ l ∈ f.lines, l.isRestrict = true → Legible l.counted l.uncounted := by
    rw [htopics, hnames, topicsOf_eq_names_iff hkind]
    refine ⟨fun hl l hm hlr => ?_, fun hall => hall r hmem hkind⟩
    rw [honly l hm hlr]
    exact hl
  constructor
  · rintro ⟨rule', topics, hread, hrule, hmap, -, -, hignore⟩
    rcases read_spec h rule with ⟨-, ret, rule'', hread', hret⟩ | ⟨-, rule'', hread', hshows⟩
    · cases hread.symm.trans hread'
      exact absurd rfl hret
    · cases hread.symm.trans hread'
      refine ⟨hlegible.mp ?_, hv.ignores_iff.mp ?_⟩
      · have ht := hshows.topics
        rw [hrule, map_some, hmap] at ht
        cases hs : f.seen.topics with
        | none => rw [hs] at ht; cases ht
        | some names =>
          rw [hs, map_some, some.injEq, append_cancel_right_eq] at ht
          rw [map_injective_iff.mpr (fun _ _ => some.inj) ht]
      · rw [← hshows.ignores]
        exact hignore
  · rintro ⟨hlists, hignore⟩
    have hs := hlegible.mpr hlists
    have haccepted : f.Accepted := by
      refine ⟨hv.not_rejected, ?_, ?_⟩
      · rw [hs]
        exact Option.some_ne_none _
      · rw [hv.seen_moduleName]
        exact Option.some_ne_none _
    rcases read_spec h rule with ⟨hno, -⟩ | ⟨-, rule', hread, hshows⟩
    · exact absurd haccepted hno
    · have ht := hshows.topics
      rw [hs, map_some] at ht
      obtain ⟨topics, hrule, hmap⟩ := map_eq_some_iff.mp ht
      refine ⟨rule', topics, hread, hrule, hmap, fun t => findTopic_map t topics f.names hmap, ?_, ?_⟩
      · rw [hshows.moduleName, hv.seen_moduleName]
      · rw [hshows.ignores]
        exact hv.ignores_iff.mpr hignore

theorem refused_iff (h : f.Fits) (rule : PublisherRule) : f.Refused rule ↔ f.Faulty := by
  rw [← not_accepted_iff]
  rcases read_spec h rule with ⟨hno, hread⟩ | ⟨hyes, rule', hread, -⟩
  · exact iff_of_true hread hno
  · refine iff_of_false ?_ (not_not_intro hyes)
    rintro ⟨ret, rule'', hread', hret⟩
    cases hread.symm.trans hread'
    exact hret rfl

/--
**A file is read as what it says, or refused for a line that is none of the format**, exactly if it
says it legibly, and the code sees what makes it refuse the file.
-/
theorem read_right_iff (f : RulesFile) (h : f.Fits) (rule : PublisherRule) :
    ((f.Valid → f.ReadRight rule) ∧ ((∃ l ∈ f.lines, ¬l.Allowed) → f.Refused rule)) ↔
      (f.Valid → f.Legibly) ∧ ((∃ l ∈ f.lines, ¬l.Allowed) → f.Faulty) := by
  refine and_congr (imp_congr_right fun hv => hv.readRight_iff h rule) ?_
  exact imp_congr_right fun _ => refused_iff h rule

def noRule : PublisherRule := ⟨none, none, false⟩

/-- A comment, a list with an empty element at its end, a module, and nothing behind the last line. -/
def sensorRules : RulesFile :=
  { whole := ["# replay".toList, "restrict_topics: accel, gyro,".toList, [],
      "ignore_others: true".toList]
    last := "module: replay".toList }

theorem sensorRules_read : sensorRules.Valid ∧
    (((sensorRules.Valid → sensorRules.ReadRight noRule) ∧
        ((∃ l ∈ sensorRules.lines, ¬l.Allowed) → sensorRules.Refused noRule)) ↔
      (sensorRules.Valid → sensorRules.Legibly) ∧
        ((∃ l ∈ sensorRules.lines, ¬l.Allowed) → sensorRules.Faulty)) := by
  have hfits : sensorRules.Fits := by
    refine ⟨?_, by decide⟩
    intro l hl
    have hall : ∀ l ∈ sensorRules.lines, '\n' ∉ l.text ∧ nul ∉ l.text := by decide
    exact hall l hl
  refine ⟨⟨?_, by decide, by decide, by decide⟩, read_right_iff sensorRules hfits noRule⟩
  have hall : ∀ l ∈ sensorRules.lines, l.text = [] ∨ l.text.head? = some '#' ∨
      l.isRestrict = true ∨ l.isModule = true ∨ l.isIgnore = true := by decide
  exact hall

def twoNames : RulesFile :=
  { whole := ["module: replay".toList], last := "restrict_topics: accel, gyro".toList }

/-- The second name is lost. -/
theorem not_read_right :
    ¬∀ f : RulesFile, f.Fits → ∀ rule, (f.Valid → f.ReadRight rule) ∧
      ((∃ l ∈ f.lines, ¬l.Allowed) → f.Refused rule) := by
  intro h
  have hfits : twoNames.Fits := by
    refine ⟨?_, by decide⟩
    have hall : ∀ l ∈ twoNames.lines, '\n' ∉ l.text ∧ nul ∉ l.text := by decide
    exact hall
  have hvalid : twoNames.Valid := by
    refine ⟨?_, by decide, by decide, by decide⟩
    have hall : ∀ l ∈ twoNames.lines, l.text = [] ∨ l.text.head? = some '#' ∨
        l.isRestrict = true ∨ l.isModule = true ∨ l.isIgnore = true := by decide
    exact hall
  have hlegibly := (hvalid.readRight_iff hfits noRule).mp ((h twoNames hfits noRule).1 hvalid)
  have hlast := (hlegibly.topics ⟨twoNames.last, false⟩ (by simp [lines]) (by decide)).last
  have hgyro : Line.uncounted ⟨twoNames.last, false⟩ = " gyro".toList := by decide
  rw [hgyro] at hlast
  exact absurd hlast (by decide)

end RulesFile

end Gpmx.Uorb.PublisherRules
