import Gpmx.Uorb.PublisherRules

/-!
# uORB: the topics of a publisher rule

The first loop cuts an element where its separator stands, and leaves the separator of an empty
element in place: it becomes the beginning of the next name. An element without a separator behind it
is not cut, and not counted. The second loop finds what lies between the cuts.

* `groups` — what lies between the cuts
* `readTopics_eq` — what both loops make of a list
* `Legible` — the lists of which they make the names
-/

namespace Gpmx.Uorb.PublisherRules

open List

def isSep (c : Char) : Prop := c = ',' ∨ c = '\n'

def written (fields : List (List Char × Char)) : List Char :=
  (fields.map fun f => f.1 ++ [f.2]).flatten

/-- What lies between the cuts, when `pending` has been left in place before the first element. -/
def groups (pending : List Char) : List (List Char × Char) → List (List Char)
  | [] => []
  | (e, c) :: fields =>
    if e = [] then groups (pending ++ [c]) fields else (pending ++ e) :: groups [] fields

/-! ## The first loop -/

section Cut

variable {e : List Char} {fields : List (List Char × Char)}

theorem cutTopics_append (he : ∀ c ∈ e, ¬isSep c) (rest : List Char) : ∀ len,
    cutTopics len (e ++ rest)
      = (e ++ (cutTopics (len + e.length) rest).1, (cutTopics (len + e.length) rest).2) := by
  induction e with
  | nil => intro len; rfl
  | cons c e ih =>
    intro len
    have hc : ¬(c = ',' ∨ c = '\n') := he c mem_cons_self
    have hlen : len + 1 + e.length = len + (c :: e).length := by
      rw [length_cons]
      omega
    rw [cons_append, cutTopics, if_neg hc, ih (fun d hd => he d (mem_cons_of_mem c hd)), hlen]
    rfl

theorem cutTopics_tail (he : ∀ c ∈ e, ¬isSep c) : cutTopics 0 e = (e, 0) := by
  have h := cutTopics_append he [] 0
  rw [append_nil] at h
  rw [h, cutTopics, append_nil]

/-- **The first loop** counts the groups, and puts a terminator behind each. -/
theorem cutTopics_written {tail : List Char} (htail : ∀ c ∈ tail, ¬isSep c) :
    ∀ (fields : List (List Char × Char)) (pending : List Char),
      (∀ f ∈ fields, (∀ c ∈ f.1, ¬isSep c) ∧ isSep f.2) →
      (cutTopics 0 (written fields ++ tail)).2 = (groups pending fields).length ∧
      ∃ rest, pending ++ (cutTopics 0 (written fields ++ tail)).1
        = ((groups pending fields).map fun g => g ++ [nul]).flatten ++ rest := by
  intro fields
  induction fields with
  | nil =>
    intro pending _
    rw [show written [] ++ tail = tail from rfl, cutTopics_tail htail]
    exact ⟨rfl, pending ++ tail, rfl⟩
  | cons f fields ih =>
    obtain ⟨e, c⟩ := f
    intro pending hf
    obtain ⟨he, hc⟩ := hf (e, c) mem_cons_self
    have hc : c = ',' ∨ c = '\n' := hc
    have hrest := fun f hm => hf f (mem_cons_of_mem _ hm)
    have hw : written ((e, c) :: fields) ++ tail = e ++ (c :: (written fields ++ tail)) := by
      simp [written]
    rw [hw, cutTopics_append he, cutTopics, if_pos hc, Nat.zero_add]
    by_cases hnil : e = []
    · subst hnil
      obtain ⟨hcount, rest, hbuf⟩ := ih (pending ++ [c]) hrest
      simp only [groups, if_true, length_nil, Nat.lt_irrefl, if_false, nil_append]
      refine ⟨hcount, rest, ?_⟩
      rw [← hbuf, append_assoc]
      rfl
    · obtain ⟨hcount, rest, hbuf⟩ := ih [] hrest
      have hpos : e.length > 0 := length_pos_iff.mpr hnil
      simp only [groups, if_neg hnil, if_pos hpos, length_cons]
      refine ⟨by rw [hcount], rest, ?_⟩
      rw [nil_append] at hbuf
      rw [hbuf]
      simp

end Cut

/-! ## The second loop -/

section Collect

variable {g : List Char}

theorem strtrim_append_nul (g rest : List Char) :
    strtrim (g ++ nul :: rest) = strtrim g ++ nul :: rest := by
  unfold strtrim
  induction g with
  | nil => rfl
  | cons c g ih =>
    by_cases hc : isBlank c = true
    · rw [cons_append, dropWhile_cons_of_pos hc, dropWhile_cons_of_pos hc, ih]
    · rw [cons_append, dropWhile_cons_of_neg hc, dropWhile_cons_of_neg hc]
      rfl

theorem not_mem_strtrim {c : Char} (hc : c ∉ g) : c ∉ strtrim g :=
  fun hm => hc ((dropWhile_sublist _).mem hm)

theorem cString_append_nul (hg : nul ∉ g) (rest : List Char) : cString (g ++ nul :: rest) = g := by
  unfold cString
  rw [takeWhile_append_of_pos (fun c hc => by
    have hne : c ≠ nul := fun he => hg (he ▸ hc)
    simp [hne])]
  simp

theorem collectTopics_group (hg : nul ∉ g) (rest : List Char) (left : Nat) :
    collectTopics (g ++ nul :: rest) (left + 1)
      = (collectTopics (strtrim rest) left).bind fun found => some (strtrim rest :: found) := by
  induction g with
  | nil =>
    rw [nil_append, collectTopics, if_pos rfl]
    rfl
  | cons c g ih =>
    have hc : ¬c = nul := fun he => hg (by simp [he])
    rw [cons_append, collectTopics, if_neg hc]
    exact ih fun hm => hg (mem_cons_of_mem c hm)

/-- **The second loop** finds the groups, without the blanks before them. -/
theorem collectTopics_groups : ∀ (gs : List (List Char)) (g rest : List Char),
    (∀ h ∈ g :: gs, nul ∉ h) →
    ∃ found, collectTopics (strtrim (((g :: gs).map fun h => h ++ [nul]).flatten ++ rest)) gs.length
        = some found ∧
      (strtrim (((g :: gs).map fun h => h ++ [nul]).flatten ++ rest) :: found).map cString
        = (g :: gs).map strtrim := by
  intro gs
  induction gs with
  | nil =>
    intro g rest hnul
    have hbuf : (([g] : List (List Char)).map fun h => h ++ [nul]).flatten ++ rest
        = g ++ nul :: rest := by simp
    refine ⟨[], by rw [length_nil, collectTopics], ?_⟩
    have hg : nul ∉ strtrim g := not_mem_strtrim (hnul g mem_cons_self)
    rw [hbuf, strtrim_append_nul, map_cons, cString_append_nul hg]
    rfl
  | cons g' gs ih =>
    intro g rest hnul
    obtain ⟨found, hfound, hmap⟩ := ih g' rest fun h hm => hnul h (mem_cons_of_mem g hm)
    have hbuf : ((g :: g' :: gs).map fun h => h ++ [nul]).flatten ++ rest
        = g ++ nul :: (((g' :: gs).map fun h => h ++ [nul]).flatten ++ rest) := by simp
    have hg : nul ∉ strtrim g := not_mem_strtrim (hnul g mem_cons_self)
    rw [hbuf, strtrim_append_nul, length_cons, collectTopics_group hg, hfound]
    refine ⟨_, rfl, ?_⟩
    rw [map_cons, hmap, cString_append_nul hg]
    rfl

end Collect

/-- **What both loops make of a list**: the groups, if there are any. -/
theorem readTopics_eq {fields : List (List Char × Char)} {tail start : List Char}
    (hstart : strtrim start = written fields ++ tail)
    (hfields : ∀ f ∈ fields, (∀ c ∈ f.1, ¬isSep c) ∧ isSep f.2) (htail : ∀ c ∈ tail, ¬isSep c)
    (hnul : ∀ g ∈ groups [] fields, nul ∉ g) :
    ∃ topics, readTopics start = some topics ∧
      topics.map (fun t => t.map (Option.map cString))
        = if groups [] fields = [] then none
          else some (((groups [] fields).map strtrim).map some ++ [none]) := by
  obtain ⟨hcount, rest, hbuf⟩ := cutTopics_written htail fields [] hfields
  simp only [readTopics, hstart]
  rw [nil_append] at hbuf
  cases hgs : groups [] fields with
  | nil =>
    rw [hgs, length_nil] at hcount
    rw [hcount, if_neg (Nat.lt_irrefl 0)]
    exact ⟨none, rfl, rfl⟩
  | cons g gs =>
    rw [hgs] at hcount hbuf hnul
    have hpos : (cutTopics 0 (written fields ++ tail)).2 > 0 := by
      rw [hcount]
      exact Nat.succ_pos _
    obtain ⟨found, hfound, hmap⟩ := collectTopics_groups gs g (rest ++ [nul]) hnul
    rw [if_pos hpos, hbuf, append_assoc, hcount, length_cons, Nat.add_sub_cancel, hfound]
    refine ⟨_, rfl, ?_⟩
    rw [if_neg (cons_ne_nil g gs), ← hmap]
    simp

/-! ## Names -/

def namesOf (elements : List (List Char)) : List (List Char) :=
  (elements.map strtrim).filter (· ≠ [])

structure Legible (elements : List (List Char)) (last : List Char) : Prop where
  some : ∃ e ∈ elements, e ≠ []
  plain : ∀ e ∈ elements, strtrim e = [] → e = []
  order : elements.Pairwise fun e f => e = [] → f = []
  last : strtrim last = []

section Names

variable {fields : List (List Char × Char)}

theorem strtrim_comma_cons (p : List Char) : strtrim (',' :: p) = ',' :: p := rfl

def IsName (g : List Char) : Prop := g ≠ [] ∧ ',' ∉ g

theorem isName_of_mem_namesOf {elements : List (List Char)} (h : ∀ e ∈ elements, ',' ∉ e)
    {g : List Char} (hg : g ∈ namesOf elements) : IsName g := by
  obtain ⟨hmem, hne⟩ := mem_filter.mp hg
  obtain ⟨e, he, rfl⟩ := mem_map.mp hmem
  exact ⟨of_decide_eq_true hne, not_mem_strtrim (h e he)⟩

theorem groups_eq_nil_iff : ∀ (fields : List (List Char × Char)) (pending : List Char),
    groups pending fields = [] ↔ ∀ e ∈ fields.map Prod.fst, e = [] := by
  intro fields
  induction fields with
  | nil => intro pending; simp [groups]
  | cons f fields ih =>
    obtain ⟨e, c⟩ := f
    intro pending
    by_cases he : e = []
    · simp [groups, he, ih]
    · simp [groups, he]

theorem groups_pending (pending : List Char)
    (h : ∀ g ∈ groups (',' :: pending) fields, IsName (strtrim g)) :
    groups (',' :: pending) fields = [] := by
  induction fields generalizing pending with
  | nil => rfl
  | cons f fields ih =>
    obtain ⟨e, c⟩ := f
    by_cases he : e = []
    · simp only [groups, he, if_true, cons_append] at h ⊢
      exact ih _ h
    · simp only [groups, if_neg he, cons_append] at h
      have hname := h _ mem_cons_self
      rw [strtrim_comma_cons] at hname
      exact absurd mem_cons_self hname.2

theorem groups_of_order (hplain : ∀ e ∈ fields.map Prod.fst, strtrim e = [] → e = [])
    (horder : (fields.map Prod.fst).Pairwise fun e f => e = [] → f = []) :
    (groups [] fields).map strtrim = namesOf (fields.map Prod.fst) := by
  induction fields with
  | nil => rfl
  | cons f fields ih =>
    obtain ⟨e, c⟩ := f
    obtain ⟨hfirst, horder⟩ := pairwise_cons.mp horder
    have hrest := ih (fun e he => hplain e (mem_cons_of_mem _ he)) horder
    by_cases he : e = []
    · -- then all the others are empty, too
      have hall : ∀ f ∈ fields.map Prod.fst, f = [] := fun f hf => hfirst f hf he
      have hnames : namesOf (e :: fields.map Prod.fst) = [] := by
        refine filter_eq_nil_iff.mpr fun g hg => ?_
        obtain ⟨f, hf, rfl⟩ := mem_map.mp hg
        have hnil : f = [] := by
          rcases mem_cons.mp hf with rfl | hf
          · exact he
          · exact hall f hf
        rw [hnil]
        simp [strtrim]
      simp only [groups, if_pos he, map_cons]
      rw [hnames, (groups_eq_nil_iff fields _).mpr hall]
      rfl
    · have hne : strtrim e ≠ [] := fun hn => he (hplain e mem_cons_self hn)
      simp only [groups, if_neg he, nil_append, map_cons, hrest]
      simp [namesOf, hne]

theorem order_of_groups (hsep : ∀ f ∈ fields.dropLast, f.2 = ',')
    (h : ∀ g ∈ groups [] fields, IsName (strtrim g)) :
    (∀ e ∈ fields.map Prod.fst, strtrim e = [] → e = []) ∧
      (fields.map Prod.fst).Pairwise fun e f => e = [] → f = [] := by
  induction fields with
  | nil => exact ⟨by simp, List.Pairwise.nil⟩
  | cons f fields ih =>
    obtain ⟨e, c⟩ := f
    by_cases he : e = []
    · subst he
      have hall : ∀ f ∈ fields.map Prod.fst, f = [] := by
        cases fields with
        | nil => simp
        | cons f' fields' =>
          have hc : c = ',' := hsep ([], c) mem_cons_self
          subst hc
          simp only [groups, if_true, nil_append] at h
          exact (groups_eq_nil_iff _ _).mp (groups_pending [] h)
      refine ⟨fun e he _ => ?_, pairwise_cons.mpr ⟨fun f hf _ => hall f hf, ?_⟩⟩
      · rcases mem_cons.mp he with rfl | he
        · rfl
        · exact hall e he
      · exact pairwise_of_forall_mem_list fun _ _ b hb _ => hall b hb
    · simp only [groups, if_neg he, nil_append] at h
      have hsep' : ∀ f ∈ fields.dropLast, f.2 = ',' := by
        intro f hf
        cases fields with
        | nil => cases hf
        | cons f' fields' => exact hsep f (mem_cons_of_mem _ hf)
      obtain ⟨hplain, horder⟩ := ih hsep' fun g hg => h g (mem_cons_of_mem _ hg)
      refine ⟨fun d hd hblank => ?_, pairwise_cons.mpr ⟨fun _ _ hn => absurd hn he, horder⟩⟩
      rcases mem_cons.mp hd with rfl | hd
      · exact absurd hblank (h d mem_cons_self).1
      · exact hplain d hd hblank

theorem namesOf_append (xs ys : List (List Char)) : namesOf (xs ++ ys) = namesOf xs ++ namesOf ys := by
  simp [namesOf]

/-- **Exactly the legible lists are read as what they say.** -/
theorem groups_eq_names_iff {last : List Char} (hsep : ∀ f ∈ fields.dropLast, f.2 = ',')
    (hcomma : ∀ e ∈ fields.map Prod.fst ++ [last], ',' ∉ e) :
    groups [] fields ≠ [] ∧ (groups [] fields).map strtrim = namesOf (fields.map Prod.fst ++ [last])
      ↔ Legible (fields.map Prod.fst) last := by
  constructor
  · rintro ⟨hne, heq⟩
    have hnames : ∀ g ∈ groups [] fields, IsName (strtrim g) := by
      intro g hg
      refine isName_of_mem_namesOf hcomma ?_
      rw [← heq]
      exact mem_map_of_mem hg
    obtain ⟨hplain, horder⟩ := order_of_groups hsep hnames
    have hall := groups_of_order hplain horder
    rw [heq, namesOf_append, append_right_eq_self] at hall
    refine ⟨?_, hplain, horder, ?_⟩
    · by_contra hno
      push Not at hno
      exact hne ((groups_eq_nil_iff fields []).mpr hno)
    · by_contra hlast
      simp [namesOf, hlast] at hall
  · rintro ⟨⟨e, he, hne⟩, hplain, horder, hlast⟩
    refine ⟨fun hnil => hne ((groups_eq_nil_iff fields []).mp hnil e he), ?_⟩
    rw [groups_of_order hplain horder, namesOf_append]
    simp [namesOf, hlast]

end Names

end Gpmx.Uorb.PublisherRules
