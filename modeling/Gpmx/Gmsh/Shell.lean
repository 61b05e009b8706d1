import Gpmx.Gmsh.Msh
import Gpmx.Infra.Transducer

/-!
# The gmsh shell

`gpm/sched/freertos/gmsh/shell.c`. `gmsh_thread_entry` takes one byte after the other; the line, its length
and the cursor are kept apart. `Editor` is what the keys are to do to a string.

A line that gets too long is discarded by its length only: the bytes stay, and the next line is executed with
those that are left behind it. The block of the shell is used as `pvPortMalloc` returns it.
-/

namespace Gpmx.Gmsh

open Infra List Memory

variable {F : Type} {cfg : Config} {table : List (Syscall F)} {ch : UInt8} {m : Memory UInt8} {s t : List UInt8}

/-! ## The code -/

inductive InputStat where
  | waitNormal
  | waitSpecKey
  | waitFuncKey

structure GmshShell where
  stat : InputStat
  currentHistory : Nat
  historyCount : Nat
  cmdHistory : Nat → List UInt8
  line : Memory UInt8
  linePosition : Nat
  lineCurpos : Nat

inductive Key where
  /-- more bytes of the key are to come -/
  | pending
  | up
  | down
  | left
  | right
  | byte

def controlKey (stat : InputStat) (ch : UInt8) : InputStat × Key :=
  if ch = 0x1b then (.waitSpecKey, .pending)
  else match stat with
    | .waitNormal => (.waitNormal, .byte)
    | .waitSpecKey => if ch = 0x5b then (.waitFuncKey, .pending) else (.waitNormal, .byte)
    | .waitFuncKey =>
      (.waitNormal, if ch = 0x41 then .up else if ch = 0x42 then .down else if ch = 0x44 then .left
        else if ch = 0x43 then .right else .byte)

/-- A row of `cmd_history` with the line in it. -/
def newRow (cfg : Config) (sh : GmshShell) : Option (List UInt8) :=
  if sh.linePosition ≤ cfg.cmdSize then
    some (sh.line.read 0 sh.linePosition ++ replicate (cfg.cmdSize - sh.linePosition) 0)
  else none

def pushRow (cfg : Config) (sh : GmshShell) : Option GmshShell :=
  if sh.historyCount ≥ cfg.historyLines then
    if sh.cmdHistory (cfg.historyLines - 1) ≠ sh.line.read 0 cfg.cmdSize then do
      let row ← newRow cfg sh
      return { sh with
        cmdHistory := fun i => if i < cfg.historyLines - 1 then sh.cmdHistory (i + 1) else row
        historyCount := cfg.historyLines }
    else some sh
  else if sh.historyCount = 0 ∨ sh.cmdHistory (sh.historyCount - 1) ≠ sh.line.read 0 cfg.cmdSize then do
    let row ← newRow cfg sh
    return { sh with
      cmdHistory := fun i => if i = sh.historyCount then row else sh.cmdHistory i
      historyCount := sh.historyCount + 1 }
  else some sh

def shellPushHistory (cfg : Config) (sh : GmshShell) : Option GmshShell :=
  (if sh.linePosition ≠ 0 then pushRow cfg sh else some sh).map fun sh =>
    { sh with currentHistory := sh.historyCount }

def recallAt (cfg : Config) (sh : GmshShell) (index : Nat) : Option GmshShell := do
  let line ← store (cfg.cmdSize + 1) sh.line 0 (sh.cmdHistory index)
  let length := (str line 0 (cfg.cmdSize + 1)).length
  return { sh with currentHistory := index, line := line, linePosition := length, lineCurpos := length }

def backspace (cfg : Config) (sh : GmshShell) : Option GmshShell :=
  if sh.lineCurpos = 0 then some sh
  else do
    let position := sh.linePosition - 1
    let curpos := sh.lineCurpos - 1
    let line ← (if position > curpos then
        store (cfg.cmdSize + 1) sh.line curpos (sh.line.read (curpos + 1) (position - curpos))
      else some sh.line)
    let line ← store (cfg.cmdSize + 1) line position [0]
    return { sh with line := line, linePosition := position, lineCurpos := curpos }

def normalCharacter (cfg : Config) (sh : GmshShell) (ch : UInt8) : Option GmshShell := do
  let position := if sh.linePosition ≥ cfg.cmdSize then 0 else sh.linePosition
  let line ← (if sh.lineCurpos < position then
      (store (cfg.cmdSize + 1) sh.line (sh.lineCurpos + 1)
        (sh.line.read sh.lineCurpos (position - sh.lineCurpos))).bind fun line =>
          store (cfg.cmdSize + 1) line sh.lineCurpos [ch]
    else store (cfg.cmdSize + 1) sh.line position [ch])
  if position + 1 ≥ cfg.cmdSize then return { sh with line := line, linePosition := 0, lineCurpos := 0 }
  else return { sh with line := line, linePosition := position + 1, lineCurpos := sh.lineCurpos + 1 }

def endOfLine (cfg : Config) (table : List (Syscall F)) (sh : GmshShell) :
    Option (GmshShell × Option (Called F)) := do
  let sh ← shellPushHistory cfg sh
  let call ← mshExec cfg table sh.line sh.linePosition
  let line ← store (cfg.cmdSize + 1) sh.line 0 (replicate (cfg.cmdSize + 1) 0)
  return ({ sh with line := line, linePosition := 0, lineCurpos := 0 }, call)

def handleKey (cfg : Config) (table : List (Syscall F)) (sh : GmshShell) (key : Key) (ch : UInt8) :
    Option (GmshShell × Option (Called F)) :=
  let edited : Option GmshShell → Option (GmshShell × Option (Called F)) := Option.map (·, none)
  match key with
  | .pending => edited (some sh)
  | .up => edited (if sh.currentHistory > 0 then recallAt cfg sh (sh.currentHistory - 1) else some sh)
  | .down =>
    edited (if sh.currentHistory + 1 < sh.historyCount then recallAt cfg sh (sh.currentHistory + 1)
      else if sh.historyCount ≠ 0 then recallAt cfg sh (sh.historyCount - 1) else some sh)
  | .left => edited (some { sh with lineCurpos := sh.lineCurpos - 1 })
  | .right =>
    edited (some (if sh.lineCurpos < sh.linePosition then { sh with lineCurpos := sh.lineCurpos + 1 } else sh))
  | .byte =>
    if ch = 0 ∨ ch = 0xff then edited (some sh)
    else if ch = 0x09 then none
    else if ch = 0x7f ∨ ch = 0x08 then edited (backspace cfg sh)
    else if ch = 0x0d ∨ ch = 0x0a then endOfLine cfg table sh
    else edited (normalCharacter cfg sh ch)

/-- One turn of the loop of `gmsh_thread_entry`, with the call that it makes; `none` if a store is outside of
its array, and for a tab, whose completion of the line is left out. -/
def gmshStep (cfg : Config) (table : List (Syscall F)) (sh : GmshShell) (ch : UInt8) :
    Option (GmshShell × Option (Called F)) :=
  handleKey cfg table { sh with stat := (controlKey sh.stat ch).1 } (controlKey sh.stat ch).2 ch

/-! ## The line as edited -/

/-- A string, cut at the cursor. -/
structure Editor where
  stat : InputStat
  before : List UInt8
  after : List UInt8
  /-- the lines that have been entered, the oldest first -/
  history : List (List UInt8)
  recalled : Nat

namespace Editor

def start : Editor := ⟨.waitNormal, [], [], [], 0⟩

abbrev text (ed : Editor) : List UInt8 := ed.before ++ ed.after

def recallAt (ed : Editor) (index : Nat) : Editor :=
  { ed with before := (ed.history[index]?).getD [], after := [], recalled := index }

def left (ed : Editor) : Editor :=
  match ed.before.getLast? with
  | none => ed
  | some c => { ed with before := ed.before.dropLast, after := c :: ed.after }

def right (ed : Editor) : Editor :=
  match ed.after with
  | [] => ed
  | c :: after => { ed with before := ed.before ++ [c], after := after }

def insert (cfg : Config) (ed : Editor) (ch : UInt8) : Editor :=
  if ed.text.length + 1 ≥ cfg.cmdSize then { ed with before := [], after := [] }
  else { ed with before := ed.before ++ [ch] }

/-- A line is entered in the history unless it is empty or the same as the last one. -/
def push (cfg : Config) (history : List (List UInt8)) (text : List UInt8) : List (List UInt8) :=
  if text = [] ∨ history.getLast? = some text then history
  else (history ++ [text]).drop (history.length + 1 - cfg.historyLines)

def enter (cfg : Config) (ed : Editor) : Editor :=
  let history := push cfg ed.history ed.text
  { ed with before := [], after := [], history := history, recalled := history.length }

def handleKey (cfg : Config) (table : List (Syscall F)) (ed : Editor) (key : Key) (ch : UInt8) :
    Editor × Option (Called F) :=
  match key with
  | .pending => (ed, none)
  | .up => (if ed.recalled > 0 then ed.recallAt (ed.recalled - 1) else ed, none)
  | .down =>
    (if ed.history = [] then ed else ed.recallAt (min (ed.recalled + 1) (ed.history.length - 1)), none)
  | .left => (ed.left, none)
  | .right => (ed.right, none)
  | .byte =>
    if ch = 0 ∨ ch = 0xff then (ed, none)
    else if ch = 0x7f ∨ ch = 0x08 then ({ ed with before := ed.before.dropLast }, none)
    else if ch = 0x0d ∨ ch = 0x0a then (ed.enter cfg, execute cfg table ed.text)
    else (ed.insert cfg ch, none)

def step (cfg : Config) (table : List (Syscall F)) (ed : Editor) (ch : UInt8) : Editor × Option (Called F) :=
  handleKey cfg table { ed with stat := (controlKey ed.stat ch).1 } (controlKey ed.stat ch).2 ch

end Editor

/-- From what is in its block, the shell makes the calls of the lines as they are edited, and stores nothing
outside of its arrays. -/
def Executes (cfg : Config) (table : List (Syscall F)) (block : GmshShell) (bytes : List UInt8) : Prop :=
  (runs (gmshStep cfg table) block bytes).map Prod.snd = some (run (Editor.step cfg table) .start bytes).2

/-! ## Where they are the same -/

/-- At the end of a line that is not empty, the buffer is NUL behind it and the first word is not in quotation
marks. -/
def Clean (cfg : Config) (sh : GmshShell) (ch : UInt8) : Prop :=
  ch = 0x0d ∨ ch = 0x0a → sh.linePosition ≠ 0 →
    sh.line.read sh.linePosition (cfg.cmdSize - sh.linePosition) = replicate (cfg.cmdSize - sh.linePosition) 0 ∧
      ((sh.line.read 0 sh.linePosition).dropWhile isBlank).head? ≠ some 0x22

/-- The block was zero when it was allocated, as far as it is not the line. -/
def Zeroed (block : GmshShell) : Prop :=
  block.stat = .waitNormal ∧ block.currentHistory = 0 ∧ block.historyCount = 0 ∧ block.linePosition = 0 ∧
    block.lineCurpos = 0

/-- What a row of the history holds. -/
def padded (cfg : Config) (t : List UInt8) : List UInt8 := t ++ replicate (cfg.cmdSize - t.length) 0

/-- A text that fits into a line. -/
structure Fits (cfg : Config) (t : List UInt8) : Prop where
  short : t.length < cfg.cmdSize
  noNul : 0 ∉ t

/-- The rows are the lines of the history. -/
structure Rows (cfg : Config) (count : Nat) (rows : Nat → List UInt8) (history : List (List UInt8)) : Prop where
  count : count = history.length
  count_le : history.length ≤ cfg.historyLines
  rows : ∀ i t, history[i]? = some t → rows i = padded cfg t ∧ Fits cfg t

structure Follows (cfg : Config) (sh : GmshShell) (ed : Editor) : Prop where
  stat : sh.stat = ed.stat
  position : sh.linePosition = ed.text.length
  curpos : sh.lineCurpos = ed.before.length
  text : Holds sh.line 0 ed.text
  fits : Fits cfg ed.text
  rows : Rows cfg sh.historyCount sh.cmdHistory ed.history
  current : sh.currentHistory = ed.recalled
  recalled_le : ed.recalled ≤ ed.history.length

variable {sh : GmshShell} {ed : Editor}

theorem fits_nil : Fits cfg [] := ⟨cfg.cmdSize_pos, not_mem_nil⟩

theorem padded_inj (hs : Fits cfg s) (ht : Fits cfg t) (h : padded cfg s = padded cfg t) : s = t := by
  have htake : ∀ {u : List UInt8}, Fits cfg u → (padded cfg u).takeWhile (· ≠ 0) = u := by
    intro u hu
    unfold padded
    rw [takeWhile_append_of_pos fun c hc => by simpa using fun h0 : c = 0 => hu.noNul (h0 ▸ hc)]
    obtain ⟨n, hn⟩ := Nat.exists_eq_add_of_lt hu.short
    simp [show cfg.cmdSize - u.length = n + 1 by omega, replicate_succ]
  rw [← htake hs, h, htake ht]

/-- The cursor may be anywhere in the text. -/
theorem Follows.moved (h : Follows cfg sh ed) {before after : List UInt8} (htext : before ++ after = ed.text) :
    Follows cfg { sh with lineCurpos := before.length } { ed with before := before, after := after } := by
  refine ⟨h.stat, ?_, rfl, ?_, ?_, h.rows, h.current, h.recalled_le⟩ <;> simp only [Editor.text, htext]
  · exact h.position
  · exact h.text
  · exact h.fits

theorem recall_follows (h : Follows cfg sh ed) {index : Nat} (hindex : index < ed.history.length) :
    ∃ sh', recallAt cfg sh index = some sh' ∧ Follows cfg sh' (ed.recallAt index) := by
  obtain ⟨t, ht⟩ : ∃ t, ed.history[index]? = some t := ⟨_, getElem?_eq_getElem hindex⟩
  obtain ⟨hrow, hfits⟩ := h.rows.rows index t ht
  obtain ⟨n, hn⟩ := Nat.exists_eq_add_of_lt hfits.short
  have hpad : padded cfg t = t ++ [0] ++ replicate n 0 := by
    unfold padded
    rw [show cfg.cmdSize - t.length = n + 1 by omega, replicate_succ, append_assoc]
    rfl
  have hlen := congrArg length hpad
  simp only [length_append, length_cons, length_nil, length_replicate] at hlen
  have hall := holds_write_self sh.line 0 (padded cfg t)
  nth_rewrite 2 [hpad] at hall
  have hheld := (holds_append.mp hall).1
  have hstr : str (sh.line.write 0 (padded cfg t)) 0 (cfg.cmdSize + 1) = t :=
    str_of_holds hheld hfits.noNul (by omega)
  unfold recallAt Editor.recallAt
  rw [hrow, store_ok (by omega), ht]
  dsimp only [Option.bind_eq_bind, Option.bind_some, Option.getD_some]
  rw [hstr]
  refine ⟨_, rfl, h.stat, ?_, rfl, ?_, ?_, h.rows, rfl, Nat.le_of_lt hindex⟩ <;>
    simp only [Editor.text, append_nil]
  · exact (holds_append.mp hheld).1
  · exact hfits

theorem holds_delete {a b : List UInt8} {x : UInt8} (h : Holds m 0 (a ++ x :: b)) :
    Holds ((m.write a.length (m.read (a.length + 1) b.length)).write (a.length + b.length) [0]) 0 (a ++ b) := by
  obtain ⟨ha, hb⟩ := holds_append.mp h
  rw [Nat.zero_add] at hb
  rw [(holds_cons.mp hb).2]
  refine holds_append.mpr ⟨?_, ?_⟩
  · exact holds_congr ha fun i _ hi => by rw [write_of_lt (by omega), write_of_lt (by omega)]
  · rw [Nat.zero_add]
    exact holds_congr (holds_write_self m a.length b) fun i _ hi => write_of_lt hi

theorem holds_insert (ch : UInt8) {a b : List UInt8} (h : Holds m 0 (a ++ b)) :
    Holds ((m.write (a.length + 1) (m.read a.length b.length)).write a.length [ch]) 0 (a ++ [ch] ++ b) := by
  obtain ⟨ha, hb⟩ := holds_append.mp h
  rw [Nat.zero_add] at hb
  rw [hb, append_assoc]
  refine holds_append.mpr ⟨?_, holds_cons.mpr ⟨?_, ?_⟩⟩
  · exact holds_congr ha fun i _ hi => by rw [write_of_lt (by omega), write_of_lt (by omega)]
  · rw [Nat.zero_add, write_of_mem (Nat.le_refl _) (by simp)]
    simp
  · rw [Nat.zero_add]
    exact holds_congr (holds_write_self m (a.length + 1) b) fun i hi _ => write_of_ge hi

theorem backspace_follows (h : Follows cfg sh ed) :
    ∃ sh', backspace cfg sh = some sh' ∧ Follows cfg sh' { ed with before := ed.before.dropLast } := by
  obtain ⟨stat, before, after, history, recalled⟩ := ed
  obtain ⟨hstat, hpos, hcur, hheld, ⟨hshort, hnul⟩, hrows, hcurrent, hrecalled⟩ := h
  simp only [Editor.text] at *
  unfold backspace
  rw [hpos, hcur]
  obtain rfl | ⟨a, x, rfl⟩ := eq_nil_or_concat' before
  · exact ⟨sh, rfl, hstat, hpos, hcur, hheld, ⟨hshort, hnul⟩, hrows, hcurrent, hrecalled⟩
  rw [append_assoc, singleton_append] at hheld hshort hnul ⊢
  have hdelete := holds_delete hheld
  simp only [length_append, length_cons, length_nil, Nat.zero_add] at hshort ⊢
  rw [if_neg (Nat.succ_ne_zero _), Nat.add_sub_cancel, ← Nat.add_assoc, Nat.add_sub_cancel,
    Nat.add_sub_cancel_left, dropLast_concat]
  have hline : (if a.length + after.length > a.length then
      store (cfg.cmdSize + 1) sh.line a.length (sh.line.read (a.length + 1) after.length)
      else some sh.line) = some (sh.line.write a.length (sh.line.read (a.length + 1) after.length)) := by
    split
    · exact store_ok (by rw [length_read]; omega)
    · rw [show after.length = 0 by omega]
      exact congrArg some (write_nil _ _).symm
  rw [hline, Option.bind_eq_bind, Option.bind_some, store_ok (by simp; omega)]
  refine ⟨_, rfl, hstat, length_append.symm, rfl, hdelete, ⟨?_, ?_⟩, hrows, hcurrent, hrecalled⟩
  · simp only [Editor.text, length_append]
    omega
  · simp only [Editor.text, mem_append, mem_cons, not_or] at hnul ⊢
    exact ⟨hnul.1, hnul.2.2⟩

theorem normalCharacter_follows (h : Follows cfg sh ed) (hch : ch ≠ 0) :
    ∃ sh', normalCharacter cfg sh ch = some sh' ∧ Follows cfg sh' (ed.insert cfg ch) := by
  obtain ⟨stat, before, after, history, recalled⟩ := ed
  obtain ⟨hstat, hpos, hcur, hheld, ⟨hshort, hnul⟩, hrows, hcurrent, hrecalled⟩ := h
  simp only [Editor.text] at *
  unfold normalCharacter Editor.insert
  rw [hpos, hcur, if_neg (Nat.not_le.mpr hshort)]
  dsimp only
  have hinsert := holds_insert ch hheld
  rw [length_append] at hshort
  have hline : (if before.length < (before ++ after).length then
      (store (cfg.cmdSize + 1) sh.line (before.length + 1)
        (sh.line.read before.length ((before ++ after).length - before.length))).bind fun line =>
          store (cfg.cmdSize + 1) line before.length [ch]
      else store (cfg.cmdSize + 1) sh.line (before ++ after).length [ch]) =
      some ((sh.line.write (before.length + 1) (sh.line.read before.length after.length)).write before.length
        [ch]) := by
    rw [length_append, Nat.add_sub_cancel_left]
    split
    · rw [store_ok (by rw [length_read]; omega), Option.bind_some, store_ok (by simp; omega)]
    · rw [show after.length = 0 by omega, store_ok (by simp; omega)]
      rw [Memory.read, write_nil, Nat.add_zero]
  rw [hline]
  dsimp only [Option.bind_eq_bind, Option.bind_some]
  by_cases hlong : (before ++ after).length + 1 ≥ cfg.cmdSize
  · rw [if_pos hlong, if_pos hlong]
    exact ⟨_, rfl, hstat, rfl, rfl, rfl, fits_nil, hrows, hcurrent, hrecalled⟩
  · rw [if_neg hlong, if_neg hlong]
    rw [length_append] at hlong
    refine ⟨_, rfl, hstat, ?_, by simp, hinsert, ⟨?_, ?_⟩, hrows, hcurrent, hrecalled⟩
    · simp only [Editor.text, length_append, length_singleton]
      omega
    · simp only [Editor.text, length_append, length_singleton]
      omega
    · simp only [Editor.text, mem_append, mem_singleton, not_or] at hnul ⊢
      exact ⟨⟨hnul.1, Ne.symm hch⟩, hnul.2⟩

theorem pushRow_rows {history : List (List UInt8)}
    (hrows : Rows cfg sh.historyCount sh.cmdHistory history) (hs : Fits cfg s) (hne : s ≠ [])
    (hpos : sh.linePosition = s.length) (hread : sh.line.read 0 s.length = s)
    (hline : sh.line.read 0 cfg.cmdSize = padded cfg s) :
    ∃ count rows, pushRow cfg sh = some { sh with cmdHistory := rows, historyCount := count } ∧
      Rows cfg count rows (Editor.push cfg history s) := by
  obtain ⟨hcount, hle, hrow⟩ := hrows
  have hnew : newRow cfg sh = some (padded cfg s) := by
    unfold newRow
    rw [hpos, if_pos (Nat.le_of_lt hs.short), hread]
    rfl
  have hlines := cfg.historyLines_pos
  unfold pushRow Editor.push
  rw [hline, hnew, hcount]
  by_cases hsame : history.getLast? = some s
  · have hlast := (hrow _ s (getLast?_eq_getElem? ▸ hsame)).1
    have hlen : history.length ≠ 0 := by
      rintro h0
      rw [length_eq_zero_iff.mp h0] at hsame
      cases hsame
    rw [if_pos (Or.inr hsame)]
    refine ⟨_, _, ?_, hcount, hle, hrow⟩
    by_cases hfull : history.length ≥ cfg.historyLines
    · rw [if_pos hfull, Nat.le_antisymm hfull hle, if_neg (not_not.mpr hlast)]
    · rw [if_neg hfull, if_neg (by simp [hlen, hlast])]
  -- the newest row is not this line
  have hother : history.length ≠ 0 → sh.cmdHistory (history.length - 1) ≠ padded cfg s := by
    intro hlen heq
    have hget := getElem?_eq_getElem (show history.length - 1 < history.length by omega)
    obtain ⟨hlast, hfits⟩ := hrow _ _ hget
    rw [← padded_inj hfits hs (hlast.symm.trans heq)] at hsame
    exact hsame (getLast?_eq_getElem?.trans hget)
  rw [if_neg (show ¬(s = [] ∨ history.getLast? = some s) from fun h => h.elim hne hsame)]
  by_cases hfull : history.length ≥ cfg.historyLines
  · have hlen := Nat.le_antisymm hfull hle
    rw [if_pos hfull, hlen, if_pos (hother (by omega)), Nat.add_sub_cancel_left]
    refine ⟨_, _, rfl, by simp, by simpa using hle, fun i t hi => ?_⟩
    rw [getElem?_drop, Nat.add_comm] at hi
    split
    · exact hrow (i + 1) t (by rwa [getElem?_append_left (by omega)] at hi)
    · obtain ⟨hi', rfl⟩ := List.getElem?_eq_some_iff.mp hi
      have hlt := hi'
      simp only [length_append, length_singleton] at hlt
      rw [getElem_append_right (by omega)]
      simpa using hs
  · rw [if_neg hfull, if_pos (by by_cases h0 : history.length = 0 <;> simp_all)]
    have hdrop : history.length + 1 - cfg.historyLines = 0 := by omega
    rw [hdrop, drop_zero]
    refine ⟨_, _, rfl, by simp, by simp; omega, fun i t hi => ?_⟩
    split
    · next heq =>
      subst heq
      rw [getElem?_concat_length] at hi
      cases hi
      exact ⟨rfl, hs⟩
    · next hne' =>
      obtain ⟨hi', rfl⟩ := List.getElem?_eq_some_iff.mp hi
      simp only [length_append, length_singleton] at hi'
      exact hrow i _ (by rw [← getElem?_append_left (by omega)]; exact hi)

theorem endOfLine_follows (h : Follows cfg sh ed) (hch : ch = 0x0d ∨ ch = 0x0a) (hclean : Clean cfg sh ch) :
    ∃ sh', endOfLine cfg table sh = some (sh', execute cfg table ed.text) ∧ Follows cfg sh' (ed.enter cfg) := by
  have hheld := h.text
  have hfits := h.fits
  have hpos := h.position
  have hclean := hclean hch
  rw [hpos] at hclean
  unfold Editor.enter
  generalize ed.text = s at hheld hfits hpos hclean ⊢
  obtain ⟨count, rows, hpush, hrows, hexec⟩ : ∃ count rows,
      shellPushHistory cfg sh =
        some { sh with cmdHistory := rows, historyCount := count, currentHistory := count } ∧
      Rows cfg count rows (Editor.push cfg ed.history s) ∧
      mshExec cfg table sh.line s.length = some (execute cfg table s) := by
    unfold shellPushHistory
    by_cases hnil : s = []
    · subst hnil
      rw [if_neg (show ¬sh.linePosition ≠ 0 from not_not.mpr hpos)]
      refine ⟨_, _, rfl, ?_, ?_⟩
      · rw [Editor.push, if_pos (.inl rfl)]
        exact h.rows
      · rw [execute, words_nil]
        rfl
    · obtain ⟨hzero, hquote⟩ := hclean (by simpa using hnil)
      rw [hheld] at hquote
      have hshort := hfits.short
      have hline : sh.line.read 0 cfg.cmdSize = padded cfg s := by
        rw [show cfg.cmdSize = s.length + (cfg.cmdSize - s.length) by omega, read_append, hheld, Nat.zero_add,
          hzero]
        rfl
      obtain ⟨count, rows, heq, hrows⟩ := pushRow_rows h.rows hfits hnil hpos hheld hline
      refine ⟨count, rows, ?_, hrows, mshExec_spec cfg table ?_ hfits.noNul (Nat.le_of_lt hshort) hquote⟩
      · rw [if_pos (by simpa [hpos] using hnil), heq]
        rfl
      · obtain ⟨n, hn⟩ := Nat.exists_eq_add_of_lt hshort
        rw [show cfg.cmdSize - s.length = n + 1 by omega] at hzero
        exact holds_append.mpr ⟨hheld, holds_cons.mpr ⟨by simpa using (cons.inj hzero).1, rfl⟩⟩
  unfold endOfLine
  dsimp only [Option.bind_eq_bind]
  rw [hpush, Option.bind_some, hpos, hexec, Option.bind_some, store_ok (by simp)]
  exact ⟨_, rfl, h.stat, rfl, rfl, rfl, fits_nil, hrows, hrows.count, Nat.le_refl _⟩

theorem handleKey_follows (h : Follows cfg sh ed) (key : Key) (hch : ch ≠ 0x09) (hclean : Clean cfg sh ch) :
    ∃ sh', handleKey cfg table sh key ch = some (sh', (ed.handleKey cfg table key ch).2) ∧
      Follows cfg sh' (ed.handleKey cfg table key ch).1 := by
  unfold handleKey Editor.handleKey
  cases key with
  | pending => exact ⟨sh, rfl, h⟩
  | up =>
    dsimp only
    rw [h.current]
    split
    · have hle := h.recalled_le
      obtain ⟨sh', heq, h'⟩ := recall_follows h (show ed.recalled - 1 < _ by omega)
      exact ⟨sh', by rw [heq]; rfl, h'⟩
    · exact ⟨sh, rfl, h⟩
  | down =>
    dsimp only
    rw [h.current, h.rows.count]
    have hle := h.recalled_le
    by_cases hnil : ed.history = []
    · rw [if_pos hnil, hnil, if_neg (by simp), if_neg (by simp)]
      exact ⟨sh, rfl, h⟩
    · have hpos := length_pos_iff.mpr hnil
      rw [if_neg hnil, if_pos (Nat.ne_of_gt hpos)]
      obtain ⟨sh', heq, h'⟩ :=
        recall_follows h (show min (ed.recalled + 1) (ed.history.length - 1) < _ by omega)
      have hindex : (if ed.recalled + 1 < ed.history.length then recallAt cfg sh (ed.recalled + 1)
          else recallAt cfg sh (ed.history.length - 1)) = some sh' := by
        rw [← heq]
        split
        · rw [Nat.min_eq_left (by omega)]
        · rw [Nat.min_eq_right (by omega)]
      rw [hindex]
      exact ⟨sh', rfl, h'⟩
  | left =>
    obtain ⟨stat, before, after, history, recalled⟩ := ed
    obtain rfl | ⟨a, x, rfl⟩ := eq_nil_or_concat' before
    · rw [h.curpos]
      exact ⟨_, rfl, h.moved (nil_append after)⟩
    · unfold Editor.left
      rw [h.curpos, getLast?_concat, dropLast_concat, length_append, length_singleton, Nat.add_sub_cancel]
      exact ⟨_, rfl, h.moved (append_assoc a [x] after).symm⟩
  | right =>
    obtain ⟨stat, before, after, history, recalled⟩ := ed
    have hpos := h.position
    rw [Editor.text, length_append, ← h.curpos] at hpos
    dsimp only at hpos ⊢
    cases after with
    | nil =>
      rw [if_neg (by rw [hpos]; simp)]
      exact ⟨sh, rfl, h⟩
    | cons x b =>
      have hmoved := h.moved (append_assoc before [x] b)
      rw [length_append, ← h.curpos] at hmoved
      rw [if_pos (by rw [hpos]; simp)]
      exact ⟨_, rfl, hmoved⟩
  | byte =>
    dsimp only
    by_cases hnul : ch = 0 ∨ ch = 0xff
    · rw [if_pos hnul, if_pos hnul]
      exact ⟨sh, rfl, h⟩
    rw [if_neg hnul, if_neg hnul, if_neg hch]
    by_cases hback : ch = 0x7f ∨ ch = 0x08
    · obtain ⟨sh', heq, h'⟩ := backspace_follows h
      rw [if_pos hback, if_pos hback, heq]
      exact ⟨sh', rfl, h'⟩
    rw [if_neg hback, if_neg hback]
    by_cases hend : ch = 0x0d ∨ ch = 0x0a
    · rw [if_pos hend, if_pos hend]
      exact endOfLine_follows h hend hclean
    · obtain ⟨sh', heq, h'⟩ := normalCharacter_follows h fun h0 => hnul (.inl h0)
      rw [if_neg hend, if_neg hend, heq]
      exact ⟨sh', rfl, h'⟩

theorem gmshStep_follows (h : Follows cfg sh ed) (hch : ch ≠ 0x09) (hclean : Clean cfg sh ch) :
    ∃ sh', gmshStep cfg table sh ch = some (sh', (ed.step cfg table ch).2) ∧
      Follows cfg sh' (ed.step cfg table ch).1 := by
  unfold gmshStep Editor.step
  rw [h.stat]
  have hstat : Follows cfg { sh with stat := (controlKey ed.stat ch).1 }
      { ed with stat := (controlKey ed.stat ch).1 } :=
    ⟨rfl, h.position, h.curpos, h.text, h.fits, h.rows, h.current, h.recalled_le⟩
  exact handleKey_follows hstat _ hch hclean

/-! ## Result -/

instance (cfg : Config) (sh : GmshShell) (ch : UInt8) : Decidable (Clean cfg sh ch) :=
  inferInstanceAs (Decidable (_ → _ → _ ∧ _))

/-- **From a block that was zero, the shell executes the lines as they are edited**, as long as at the end of
each of them the buffer is NUL behind it and its first word is not in quotation marks. -/
theorem gmsh_executes_lines {block : GmshShell} {bytes : List UInt8} (hblock : Zeroed block)
    (hbytes : 0x09 ∉ bytes) (hclean : Along (gmshStep cfg table) (Clean cfg) block bytes) :
    Executes cfg table block bytes := by
  obtain ⟨hstat, hcurrent, hcount, hpos, hcur⟩ := hblock
  have hstart : Follows cfg block .start :=
    ⟨hstat, hpos, hcur, rfl, fits_nil, ⟨hcount, Nat.zero_le _, nofun⟩, hcurrent, Nat.le_refl _⟩
  obtain ⟨sh, hruns, -⟩ : ∃ sh, runs (gmshStep cfg table) block bytes =
      some (sh, (run (Editor.step cfg table) .start bytes).2) ∧
      Follows cfg sh (run (Editor.step cfg table) .start bytes).1 :=
    hclean.simulation (fun ch hch sh ed h hok =>
      gmshStep_follows h (fun htab => hbytes (htab ▸ hch)) hok) hstart
  unfold Executes
  rw [hruns]
  rfl

def defaultConfig : Config := ⟨80, 5, 8, by decide, by decide, by decide, by decide, by decide⟩

/-- A table with the command `help`. -/
def helpTable : List (Syscall Nat) := [⟨[0x68, 0x65, 0x6c, 0x70], 0, by decide⟩]

def zeroBlock : GmshShell := ⟨.waitNormal, 0, 0, fun _ => replicate 80 0, fun _ => 0, 0, 0⟩

/-- The line `xhelp me`, whose first character is taken back. -/
def helpMe : List UInt8 :=
  [0x78, 0x7f, 0x68, 0x65, 0x6c, 0x70, 0x20, 0x6d, 0x65, 0x0d]

theorem gmsh_executes_help :
    Along (gmshStep defaultConfig helpTable) (Clean defaultConfig) zeroBlock helpMe ∧
      Executes defaultConfig helpTable zeroBlock helpMe := by
  have hclean : Along (gmshStep defaultConfig helpTable) (Clean defaultConfig) zeroBlock helpMe := by
    decide +kernel
  exact ⟨hclean, gmsh_executes_lines ⟨rfl, rfl, rfl, rfl, rfl⟩ (by decide) hclean⟩

/-- A line of 80 characters is discarded, but the word of the next one runs on into what is left of it. And a
command in quotation marks is not found. -/
theorem gmsh_not_executes_lines :
    Zeroed zeroBlock ∧
    (0x09 ∉ replicate 80 0x78 ++ [0x68, 0x65, 0x6c, 0x70, 0x0d] ∧
      ¬Executes defaultConfig helpTable zeroBlock (replicate 80 0x78 ++ [0x68, 0x65, 0x6c, 0x70, 0x0d])) ∧
    0x09 ∉ [0x22, 0x68, 0x65, 0x6c, 0x70, 0x22, 0x0d] ∧
      ¬Executes defaultConfig helpTable zeroBlock [0x22, 0x68, 0x65, 0x6c, 0x70, 0x22, 0x0d] := by
  refine ⟨⟨rfl, rfl, rfl, rfl, rfl⟩, ⟨by decide, ?_⟩, by decide, ?_⟩ <;> unfold Executes <;> decide +kernel

end Gpmx.Gmsh
