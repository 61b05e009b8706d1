import Gpmx.Uorb.DeviceNode
import Mathlib

/-!
# uORB: the publisher rules

`read_publisher_rules_from_file` of `gpm/modules/uorb/uorb_manager.c`, with `mem_fgets` and
`find_topic`. The lines are read into a buffer one after the other. The names of the topics stay in a
copy of their line, in which separators are overwritten with terminators: a first loop cuts and
counts, a second one walks over the copy and notes where names begin.

A pointer into a string is what stands there from the pointer on, with the terminator. A function is
`none` where it reads past the terminator. The memory for buffer and copies is there.
-/

namespace Gpmx.Uorb.PublisherRules

def nul : Char := Char.ofNat 0

def cString (p : List Char) : List Char := p.takeWhile (· ≠ nul)

/-- `struct publisher_rule`; `topics` points to an array of pointers. -/
structure PublisherRule where
  topics : Option (List (Option (List Char)))
  moduleName : Option (List Char)
  ignoreOtherTopics : Bool

/-- `find_topic`, from `topics_ptr` on -/
def findTopic (topicName : List Char) : List (Option (List Char)) → Option Bool
  | [] => none
  | none :: _ => some false
  | some p :: rest => if cString p = topicName then some true else findTopic topicName rest

def startsWith (pre str : List Char) : Bool :=
  if str.length < pre.length then false else str.take pre.length = pre

def isBlank (c : Char) : Bool := c = ' ' ∨ c = '\t'

def strtrim (str : List Char) : List Char := str.dropWhile isBlank

/-- The loop of `mem_fgets`, with room for so many characters. -/
def fgetsLoop : Nat → List Char → List Char × List Char
  | 0, file => ([], file)
  | _ + 1, [] => ([], [])
  | left + 1, c :: file =>
    if c = '\n' then ([c], file)
    else
      let r := fgetsLoop left file
      (c :: r.1, r.2)

/-- `mem_fgets`: the string in the buffer, and what is left of the file. -/
def memFgets (size : Nat) (file : List Char) : Option (List Char × List Char) :=
  if file = [] ∨ size = 0 then none
  else
    let r := fgetsLoop (size - 1) file
    some (cString r.1, r.2)

def lineLen : Nat := 1024

def restrictTopicsStr : List Char := "restrict_topics:".toList
def moduleStr : List Char := "module:".toList
def ignoreOthers : List Char := "ignore_others:".toList
def trueStr : List Char := "true".toList

/-- The first loop: the copy with the terminators, and `num_topics`. -/
def cutTopics : Nat → List Char → List Char × Nat
  | _, [] => ([], 0)
  | topicLen, c :: rest =>
    if c = ',' ∨ c = '\n' then
      let r := cutTopics 0 rest
      if topicLen > 0 then (nul :: r.1, r.2 + 1) else (c :: r.1, r.2)
    else
      let r := cutTopics (topicLen + 1) rest
      (c :: r.1, r.2)

theorem length_strtrim_le (str : List Char) : (strtrim str).length ≤ str.length :=
  (List.dropWhile_sublist _).length_le

def collectTopics : List Char → Nat → Option (List (List Char))
  | _, 0 => some []
  | [], _ + 1 => none
  | c :: rest, left + 1 =>
    if c = nul then do
      let found ← collectTopics (strtrim rest) left
      some (strtrim rest :: found)
    else collectTopics rest (left + 1)
termination_by topics => topics.length
decreasing_by
  · exact Nat.lt_succ_of_le (length_strtrim_le rest)
  · exact Nat.lt_succ_self _

/-- What is stored to `rule->topics` for what follows `restrict_topics:`, if anything. -/
def readTopics (start : List Char) : Option (Option (List (Option (List Char)))) :=
  let cut := cutTopics 0 (strtrim start)
  if cut.2 > 0 then do
    let topics := strtrim (cut.1 ++ [nul])
    let found ← collectTopics topics (cut.2 - 1)
    some (some ((topics :: found).map some ++ [none]))
  else some none

/-- `start` without the newline at its end -/
def dropNewline (start : List Char) : List Char :=
  if start.getLast? = some '\n' then start.dropLast else start

/-- One turn of the loop: `ret`, and the rule. -/
def readLine (line : List Char) (rule : PublisherRule) : Option (Int × PublisherRule) :=
  if line.length < 2 ∨ line.head? = some '#' then some (0, rule)
  else if startsWith restrictTopicsStr line then do
    let topics ← readTopics (line.drop restrictTopicsStr.length)
    some (0, { rule with topics := topics <|> rule.topics })
  else if startsWith moduleStr line then
    let start := strtrim (line.drop moduleStr.length)
    some (0, { rule with moduleName := some (dropNewline start) })
  else if startsWith ignoreOthers line then
    let start := strtrim (line.drop ignoreOthers.length)
    some (0,
      if startsWith trueStr start then { rule with ignoreOtherTopics := true } else rule)
  else some (-EINVAL, rule)

theorem fgetsLoop_length : ∀ (left : Nat) (file : List Char), file ≠ [] → 0 < left →
    (fgetsLoop left file).2.length < file.length
  | left + 1, c :: file, _, _ => by
    unfold fgetsLoop
    split
    · exact Nat.lt_succ_self _
    · by_cases hmore : file ≠ [] ∧ 0 < left
      · have := fgetsLoop_length left file hmore.1 hmore.2
        exact Nat.lt_succ_of_lt this
      · rcases Nat.eq_zero_or_pos left with rfl | hpos
        · exact Nat.lt_succ_self _
        · have hnil : file = [] := by
            by_contra hne
            exact hmore ⟨hne, hpos⟩
          subst hnil
          cases left with
          | zero => cases hpos
          | succ left => exact Nat.lt_succ_self _

theorem memFgets_length {file line rest : List Char}
    (h : memFgets lineLen file = some (line, rest)) : rest.length < file.length := by
  unfold memFgets at h
  split at h
  · cases h
  · rename_i hne
    push Not at hne
    cases h
    exact fgetsLoop_length _ file hne.1 (by decide)

def readLines (file : List Char) (rule : PublisherRule) : Option (Int × PublisherRule) :=
  match h : memFgets lineLen file with
  | none => some (0, rule)
  | some (line, rest) =>
    match readLine line rule with
    | none => none
    | some (ret, rule) =>
      have := memFgets_length h
      if ret = 0 then readLines rest rule else some (ret, rule)
termination_by file.length

def readPublisherRulesFromFile (fileContent : List Char) (rule : PublisherRule) :
    Option (Int × PublisherRule) :=
  if fileContent = [] then some (-ENOMEM, rule)
  else do
    let r ← readLines fileContent
      { topics := none, moduleName := none, ignoreOtherTopics := false }
    if r.1 = 0 ∧ (r.2.moduleName = none ∨ r.2.topics = none) then some (-EINVAL, r.2) else some r

end Gpmx.Uorb.PublisherRules
