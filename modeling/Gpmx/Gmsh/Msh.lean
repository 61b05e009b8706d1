import Gpmx.Infra.Memory
import Mathlib

/-!
# Commands of gmsh

`gpm/sched/freertos/gmsh/msh.c`. `msh_exec` gets the line and its length, looks for the command by the
bytes in front of the first blank, and cuts the line into words where it is, with a NUL behind each of
them. The last word is not cut: it ends with the NUL that is to follow the text.

`words` is what the words are, `execute` the call they ask for. The two differ from the code where the
first word is in quotation marks, as these are part of the name that `msh_get_cmd` gets.
-/

namespace Gpmx.Gmsh

open Infra List Memory

/-- `CONFIG_GMSH_CMD_SIZE`, `CONFIG_GMSH_HISTORY_LINES` and `CONFIG_GMSH_ARG_MAX`. The first two are
counted in a `uint16_t`. -/
structure Config where
  cmdSize : Nat
  historyLines : Nat
  argMax : Nat
  cmdSize_pos : 0 < cmdSize
  historyLines_pos : 0 < historyLines
  argMax_pos : 0 < argMax
  cmdSize_lt : cmdSize < 2 ^ 16
  historyLines_lt : historyLines < 2 ^ 16

/-- A row of the table, with the function `func` of a command. -/
structure Syscall (F : Type) where
  name : List UInt8
  func : F
  noNul : 0 ∉ name

variable {F : Type} {size : Nat} {m m' : Memory UInt8} {ptr : Nat} {s t w : List UInt8} {c : UInt8}

/-! ## The code -/

/-- A store in an array of `size` bytes. -/
def store (size : Nat) (m : Memory UInt8) (ptr : Nat) (bytes : List UInt8) : Option (Memory UInt8) :=
  if ptr + bytes.length ≤ size then some (m.write ptr bytes) else none

def isBlank (c : UInt8) : Bool := c == 0x20 || c == 0x09

/-- The string at `ptr`, of less than so many bytes. -/
def str (m : Memory UInt8) (ptr : Nat) : Nat → List UInt8
  | 0 => []
  | left + 1 => if m ptr = 0 then [] else m ptr :: str m (ptr + 1) left

/-- `left` is `length - position` in this loop and the next ones. -/
def skipWhile (p : UInt8 → Bool) (m : Memory UInt8) (ptr : Nat) : (left : Nat) → Nat × Nat
  | 0 => (ptr, 0)
  | left + 1 => if p (m ptr) then skipWhile p m (ptr + 1) left else (ptr, left + 1)

def stripBlanks (size : Nat) (m : Memory UInt8) (ptr : Nat) :
    (left : Nat) → Option (Memory UInt8 × Nat × Nat)
  | 0 => some (m, ptr, 0)
  | left + 1 =>
    if isBlank (m ptr) then do stripBlanks size (← store size m ptr [0]) (ptr + 1) left
    else some (m, ptr, left + 1)

def skipString (m : Memory UInt8) (ptr : Nat) : (left : Nat) → Nat × Nat
  | 0 => (ptr, 0)
  | 1 =>
    if m ptr = 0x22 then (ptr, 1)
    else if m ptr = 0x5c ∧ m (ptr + 1) = 0x22 then (ptr + 2, 0) else (ptr + 1, 0)
  | left + 2 =>
    if m ptr = 0x22 then (ptr, left + 2)
    else if m ptr = 0x5c ∧ m (ptr + 1) = 0x22 then skipString m (ptr + 2) left
    else skipString m (ptr + 1) (left + 1)

/-- The loop of `msh_split` when `argv` has so many free places. -/
def mshSplit (size : Nat) :
    (free : Nat) → Memory UInt8 → (ptr left : Nat) → Option (Memory UInt8 × List Nat)
  | 0, m, ptr, left => do
    let (m, _) ← stripBlanks size m ptr left
    return (m, [])
  | free + 1, m, ptr, left => do
    let (m, ptr, left) ← stripBlanks size m ptr left
    if left = 0 then return (m, [])
    else if m ptr = 0x22 then
      let (stop, left) := skipString m (ptr + 1) (left - 1)
      if left = 0 then return (m, [ptr + 1])
      else do
        let m ← store size m stop [0]
        let (m, argv) ← mshSplit size free m (stop + 1) (left - 1)
        return (m, (ptr + 1) :: argv)
    else
      let (stop, left) := skipWhile (!isBlank ·) m ptr left
      if left = 0 then return (m, [ptr])
      else do
        let (m, argv) ← mshSplit size free m stop left
        return (m, ptr :: argv)

/-- `strncmp(name, cmd, size) == 0` -/
def strncmpEq (m : Memory UInt8) : (name : List UInt8) → (cmd size : Nat) → Bool
  | _, _, 0 => true
  | [], cmd, _ + 1 => m cmd == 0
  | c :: name, cmd, size + 1 => m cmd == c && strncmpEq m name (cmd + 1) size

def mshGetCmd (table : List (Syscall F)) (m : Memory UInt8) (cmd size : Nat) : Option F :=
  (table.find? fun index => strncmpEq m index.name cmd size && (index.name[size]?).getD 0 == 0).map
    Syscall.func

/-- A call of a command: its function and `argv`, whose length is `argc`. -/
abbrev Called (F : Type) := F × List (List UInt8)

def mshExecCmd (cfg : Config) (table : List (Syscall F)) (m : Memory UInt8) (cmd length : Nat) :
    Option (Option (Called F) × Memory UInt8) :=
  let cmd0Size := (skipWhile (!isBlank ·) m cmd length).1 - cmd
  if cmd0Size = 0 then some (none, m)
  else match mshGetCmd table m cmd cmd0Size with
    | none => some (none, m)
    | some func => do
      let (m, argv) ← mshSplit (cfg.cmdSize + 1) cfg.argMax m cmd length
      if argv = [] then return (none, m)
      else return (some (func, argv.map fun arg => str m arg (cfg.cmdSize + 1 - arg)), m)

/-- Where `msh_exec` cuts off a command that is not found. -/
def firstSpace (m : Memory UInt8) (ptr : Nat) : (left : Nat) → Nat
  | 0 => ptr
  | left + 1 => if m ptr = 0x20 ∨ m ptr = 0 then ptr else firstSpace m (ptr + 1) left

/-- `none` if a store is outside of the line. -/
def mshExec (cfg : Config) (table : List (Syscall F)) (m : Memory UInt8) (length : Nat) :
    Option (Option (Called F)) := do
  let (cmd, length) := skipWhile isBlank m 0 length
  if length = 0 then return none
  else do
    let (call, m) ← mshExecCmd cfg table m cmd length
    if call.isSome then return call
    else do
      let _ ← store (cfg.cmdSize + 1) m (firstSpace m cmd (cfg.cmdSize + 1 - cmd)) [0]
      return none

/-! ## The words of a line -/

/-- The text up to the quotation mark that closes a string, and the rest from there on. -/
def quoted : List UInt8 → List UInt8 × List UInt8
  | [] => ([], [])
  | [c] => if c = 0x22 then ([], [c]) else ([c], [])
  | c :: d :: s =>
    if c = 0x22 then ([], c :: d :: s)
    else if c = 0x5c ∧ d = 0x22 then (c :: d :: (quoted s).1, (quoted s).2)
    else (c :: (quoted (d :: s)).1, (quoted (d :: s)).2)

/-- The first words of a line, at most so many. -/
def words : Nat → List UInt8 → List (List UInt8)
  | 0, _ => []
  | free + 1, s =>
    match s.dropWhile isBlank with
    | [] => []
    | c :: s =>
      if c = 0x22 then (quoted s).1 :: words free (quoted s).2.tail
      else (c :: s).takeWhile (!isBlank ·) :: words free ((c :: s).dropWhile (!isBlank ·))

/-- The command named by the first word, with the words of the line. -/
def execute (cfg : Config) (table : List (Syscall F)) (s : List UInt8) : Option (Called F) :=
  match words cfg.argMax s with
  | [] => none
  | w :: ws => (table.find? (·.name == w)).map fun index => (index.func, w :: ws)

/-! ## The code finds the words -/

theorem holds_drop (h : Holds m ptr (s ++ t)) : Holds m (ptr + s.length) t := (holds_append.mp h).2

theorem holds_congr (h : Holds m ptr s) (heq : ∀ i, ptr ≤ i → i < ptr + s.length → m' i = m i) :
    Holds m' ptr s := (read_congr heq).trans h

theorem str_of_holds (h : Holds m ptr (s ++ [0])) (hs : 0 ∉ s) :
    ∀ {left : Nat}, s.length < left → str m ptr left = s := by
  induction s generalizing ptr with
  | nil =>
    intro left hlt
    obtain ⟨left, rfl⟩ := Nat.exists_eq_succ_of_ne_zero (Nat.ne_of_gt hlt)
    rw [str, if_pos (holds_cons.mp h).1]
  | cons c s ih =>
    intro left hlt
    obtain ⟨left, rfl⟩ := Nat.exists_eq_succ_of_ne_zero (Nat.ne_of_gt (Nat.zero_lt_of_lt hlt))
    obtain ⟨hc, hrest⟩ := holds_cons.mp h
    rw [mem_cons, not_or] at hs
    rw [str, hc, if_neg (Ne.symm hs.1), ih hrest hs.2 (Nat.lt_of_succ_lt_succ hlt)]

theorem skipWhile_spec (p : UInt8 → Bool) (h : Holds m ptr s) :
    skipWhile p m ptr s.length = (ptr + (s.takeWhile p).length, (s.dropWhile p).length) := by
  induction s generalizing ptr with
  | nil => rfl
  | cons c s ih =>
    obtain ⟨hc, hrest⟩ := holds_cons.mp h
    rw [length_cons, skipWhile, hc]
    by_cases hp : p c
    · rw [if_pos hp, ih hrest, takeWhile_cons_of_pos hp, dropWhile_cons_of_pos hp, length_cons]
      rw [Nat.add_right_comm, Nat.add_assoc]
    · rw [if_neg hp, takeWhile_cons_of_neg hp, dropWhile_cons_of_neg hp]
      rfl

theorem store_ok {bytes : List UInt8} (h : ptr + bytes.length ≤ size) :
    store size m ptr bytes = some (m.write ptr bytes) := if_pos h

theorem stripBlanks_spec (h : Holds m ptr (s ++ [0])) (hsize : ptr + s.length < size) :
    ∃ m', stripBlanks size m ptr s.length =
        some (m', ptr + (s.takeWhile isBlank).length, (s.dropWhile isBlank).length) ∧
      Holds m' (ptr + (s.takeWhile isBlank).length) (s.dropWhile isBlank ++ [0]) ∧
      (∀ i, i < ptr → m' i = m i) ∧ ((s.head?.any isBlank) → m' ptr = 0) := by
  induction s generalizing ptr m with
  | nil => exact ⟨m, rfl, h, fun _ _ => rfl, nofun⟩
  | cons c s ih =>
    obtain ⟨hc, hrest⟩ := holds_cons.mp h
    rw [length_cons] at hsize
    rw [length_cons, stripBlanks, hc]
    by_cases hp : isBlank c
    · have hafter : Holds (m.write ptr [0]) (ptr + 1) (s ++ [0]) :=
        holds_congr hrest fun i hi _ => write_of_ge hi
      obtain ⟨m', heq, hholds, hsame, -⟩ := ih hafter (by omega)
      rw [if_pos hp, store_ok (by rw [length_singleton]; omega), takeWhile_cons_of_pos hp, dropWhile_cons_of_pos hp, length_cons,
        ← Nat.add_assoc, Nat.add_right_comm]
      refine ⟨m', heq, hholds, fun i hi => ?_, fun _ => ?_⟩
      · rw [hsame i (by omega), write_of_lt hi]
      · rw [hsame ptr (Nat.lt_succ_self _), write_of_mem (Nat.le_refl _) (by simp)]
        simp
    · rw [if_neg hp, takeWhile_cons_of_neg hp, dropWhile_cons_of_neg hp]
      exact ⟨m, rfl, h, fun _ _ => rfl, fun hb => absurd hb hp⟩

theorem skipString_spec (h : Holds m ptr (s ++ [0])) :
    skipString m ptr s.length = (ptr + (quoted s).1.length, (quoted s).2.length) := by
  induction s using quoted.induct generalizing ptr with
  | case1 => rfl
  | case2 | case4 d s =>
    obtain ⟨hc, hrest⟩ := holds_cons.mp h
    simp [skipString, quoted, hc]
  | case3 c hne =>
    obtain ⟨hc, hrest⟩ := holds_cons.mp h
    have hend : m (ptr + 1) = 0 := (holds_cons.mp hrest).1
    simp [skipString, quoted, hc, hend, hne]
  | case5 c d s hne hesc ih =>
    obtain ⟨rfl, rfl⟩ := hesc
    obtain ⟨hc, hrest⟩ := holds_cons.mp h
    obtain ⟨hd, hrest⟩ := holds_cons.mp hrest
    have hih := ih hrest
    simp [skipString, quoted, hc, hd, hih]
    omega
  | case6 c d s hne hesc ih =>
    obtain ⟨hc, hrest⟩ := holds_cons.mp h
    have hd := (holds_cons.mp hrest).1
    have hih := ih hrest
    simp only [length_cons] at hih
    simp [skipString, quoted, hc, hd, hne, hesc, hih]
    omega

theorem quoted_append (s : List UInt8) : (quoted s).1 ++ (quoted s).2 = s := by
  fun_induction quoted s <;> simp_all

theorem quoted_rest (h : (quoted s).2 = c :: t) : c = 0x22 := by
  fun_induction quoted s <;> simp_all

theorem str_word (h : Holds m ptr w) (hw : 0 ∉ w) (hsame : ∀ i, i < ptr + w.length → m' i = m i)
    (hend : m' (ptr + w.length) = 0) (hsize : ptr + w.length < size) : str m' ptr (size - ptr) = w :=
  str_of_holds (holds_append.mpr ⟨holds_congr h fun i _ hi => hsame i hi, holds_cons.mpr ⟨hend, rfl⟩⟩) hw
    (by omega)

theorem words_nil (free : Nat) : words free [] = [] := by
  cases free <;> rfl

theorem mshSplit_spec (free : Nat) : ∀ {m : Memory UInt8} {ptr : Nat} {s : List UInt8},
    Holds m ptr (s ++ [0]) → 0 ∉ s → ptr + s.length < size →
    ∃ m' argv, mshSplit size free m ptr s.length = some (m', argv) ∧
      (argv.map fun arg => str m' arg (size - arg)) = words free s ∧
      (∀ i, i < ptr → m' i = m i) ∧ (s.head?.any isBlank → m' ptr = 0) := by
  induction free with
  | zero =>
    intro m ptr s h hs hsize
    obtain ⟨m', heq, -, hsame, hnul⟩ := stripBlanks_spec h hsize
    refine ⟨m', [], ?_, rfl, hsame, hnul⟩
    rw [mshSplit, heq]
    rfl
  | succ free ih =>
    intro m ptr s h hs hsize
    obtain ⟨m₁, heq, hholds, hsame, hnul⟩ := stripBlanks_spec h hsize
    have hend : ptr + (s.takeWhile isBlank).length + (s.dropWhile isBlank).length < size := by
      rwa [Nat.add_assoc, ← length_append, takeWhile_append_dropWhile]
    have hs₁ : 0 ∉ s.dropWhile isBlank := fun h0 => hs ((dropWhile_suffix _).subset h0)
    have hptr : s.head?.any isBlank → ptr < ptr + (s.takeWhile isBlank).length := by
      cases s with
      | nil => nofun
      | cons c s => intro hc; simp [takeWhile_cons_of_pos (show isBlank c from hc)]
    -- what follows leaves alone what is in front of the first word
    have hframe : ∀ m' : Memory UInt8, (∀ i, i < ptr + (s.takeWhile isBlank).length → m' i = m₁ i) →
        (∀ i, i < ptr → m' i = m i) ∧ (s.head?.any isBlank → m' ptr = 0) := fun m' h' =>
      ⟨fun i hi => (h' i (by omega)).trans (hsame i hi), fun hb => (h' ptr (hptr hb)).trans (hnul hb)⟩
    rw [mshSplit, heq, words]
    generalize ptr + (s.takeWhile isBlank).length = a at hholds hframe hptr hend ⊢
    generalize s.dropWhile isBlank = s₁ at hholds hs₁ hend ⊢
    cases s₁ with
    | nil => exact ⟨m₁, [], rfl, rfl, hframe m₁ fun _ _ => rfl⟩
    | cons c t =>
      have hc := (holds_cons.mp hholds).1
      dsimp only [Option.bind_some, Option.bind_eq_bind, length_cons, Nat.add_one_sub_one]
      rw [if_neg (Nat.succ_ne_zero _)]
      by_cases hq : c = 0x22
      · have ht : Holds m₁ (a + 1) (t ++ [0]) := (holds_cons.mp hholds).2
        have happ := quoted_append t
        have hstop := skipString_spec ht
        have hquote := @quoted_rest t
        rw [if_pos (hc.trans hq), if_pos hq]
        simp only [hstop]
        generalize (quoted t).1 = w, (quoted t).2 = rest at happ hquote ⊢
        subst happ
        rw [append_assoc, holds_append] at ht
        have hw : 0 ∉ w := fun h0 => hs₁ (by simp [h0])
        rw [length_cons, length_append] at hend
        cases rest with
        | nil =>
          refine ⟨m₁, [a + 1], rfl, ?_, hframe m₁ fun _ _ => rfl⟩
          rw [tail_nil, words_nil, map_singleton,
            str_word ht.1 hw (fun _ _ => rfl) (holds_cons.mp ht.2).1 (by omega)]
        | cons d r =>
          rw [length_cons] at hend
          obtain ⟨m', argv, heq', hwords, hsame', -⟩ := ih (m := m₁.write (a + 1 + w.length) [0])
            (holds_congr (holds_cons.mp ht.2).2 fun i hi _ => write_of_ge hi)
            (fun h0 => hs₁ (by simp [h0])) (by omega)
          rw [length_cons, if_neg (Nat.succ_ne_zero _), store_ok (by rw [length_singleton]; omega)]
          dsimp only [Option.bind_some, Option.bind_eq_bind, Nat.add_one_sub_one]
          rw [heq']
          refine ⟨m', (a + 1) :: argv, rfl, ?_, hframe m' fun i hi => ?_⟩
          · have hnul : m' (a + 1 + w.length) = 0 := by
              rw [hsame' _ (Nat.lt_succ_self _), write_of_mem (Nat.le_refl _) (by simp)]
              simp
            have hword := str_word ht.1 hw (fun i hi => by rw [hsame' i (by omega), write_of_lt hi]) hnul
              (show _ < size by omega)
            rw [map_cons, hwords, hword]
            rfl
          · rw [hsame' i (by omega), write_of_lt (by omega)]
      · have happ := takeWhile_append_dropWhile (p := (!isBlank ·)) (l := c :: t)
        have hblank := head?_dropWhile_not (!isBlank ·) (c :: t)
        have hstop := skipWhile_spec (!isBlank ·) (holds_append.mp hholds).1
        rw [length_cons] at hstop
        rw [if_neg (hc ▸ hq), if_neg hq, hstop]
        generalize (c :: t).takeWhile (!isBlank ·) = w, (c :: t).dropWhile (!isBlank ·) = r at happ hblank ⊢
        rw [← happ, append_assoc, holds_append] at hholds
        rw [← happ, mem_append, not_or] at hs₁
        rw [← happ, length_append] at hend
        cases r with
        | nil =>
          refine ⟨m₁, [a], rfl, ?_, hframe m₁ fun _ _ => rfl⟩
          rw [words_nil, map_singleton,
            str_word hholds.1 hs₁.1 (fun _ _ => rfl) (holds_cons.mp hholds.2).1 (by omega)]
        | cons d r =>
          obtain ⟨m', argv, heq', hwords, hsame', hnul'⟩ := ih hholds.2 hs₁.2 (by omega)
          rw [length_cons] at heq'
          rw [length_cons, if_neg (Nat.succ_ne_zero _), heq']
          refine ⟨m', a :: argv, rfl, ?_, hframe m' fun i hi => hsame' i (by omega)⟩
          rw [map_cons, hwords, str_word hholds.1 hs₁.1 hsame' (hnul' (by simpa using hblank)) (by omega)]

theorem strncmpEq_iff {name : List UInt8} (hname : 0 ∉ name) (h : Holds m ptr w) (hw : 0 ∉ w) :
    (strncmpEq m name ptr w.length && (name[w.length]?).getD 0 == 0) = (name == w) := by
  induction w generalizing name ptr with
  | nil =>
    cases name with
    | nil => rfl
    | cons d name =>
      rw [mem_cons, not_or] at hname
      simpa [strncmpEq] using Ne.symm hname.1
  | cons c w ih =>
    obtain ⟨hc, hrest⟩ := holds_cons.mp h
    rw [mem_cons, not_or] at hw
    cases name with
    | nil => simpa [strncmpEq, hc] using Ne.symm hw.1
    | cons d name =>
      rw [mem_cons, not_or] at hname
      have hih := ih hname.2 hrest hw.2
      simp only [strncmpEq, hc, length_cons, getElem?_cons_succ, Bool.and_assoc, hih, cons_beq_cons]
      rw [Bool.beq_comm]

theorem mshGetCmd_spec (table : List (Syscall F)) (h : Holds m ptr w) (hw : 0 ∉ w) :
    mshGetCmd table m ptr w.length = (table.find? (·.name == w)).map Syscall.func := by
  unfold mshGetCmd
  simp only [strncmpEq_iff (Syscall.noNul _) h hw]

theorem firstSpace_le (left : Nat) : ∀ {ptr n : Nat}, m (ptr + n) = 0 →
    firstSpace m ptr left ≤ ptr + n := by
  induction left with
  | zero => exact fun _ => Nat.le_add_right _ _
  | succ left ih =>
    intro ptr n h
    rw [firstSpace]
    split
    · exact Nat.le_add_right _ _
    · next hne =>
      cases n with
      | zero => exact absurd (.inr h) hne
      | succ n =>
        rw [Nat.add_comm n, ← Nat.add_assoc] at h ⊢
        exact ih h

theorem words_dropWhile (free : Nat) (s : List UInt8) : words free (s.dropWhile isBlank) = words free s := by
  cases free with
  | zero => rfl
  | succ free => rw [words, words, dropWhile_idempotent]

theorem mshExecCmd_spec (cfg : Config) (table : List (Syscall F)) (h : Holds m ptr (c :: t ++ [0]))
    (hs : 0 ∉ c :: t) (hsize : ptr + (c :: t).length < cfg.cmdSize + 1) (hblank : isBlank c = false)
    (hquote : c ≠ 0x22) :
    ∃ m', mshExecCmd cfg table m ptr (c :: t).length = some (execute cfg table (c :: t), m') ∧
      (execute cfg table (c :: t) = none → m' = m) := by
  obtain ⟨free, hfree⟩ := Nat.exists_eq_succ_of_ne_zero (Nat.ne_of_gt cfg.argMax_pos)
  obtain ⟨m', argv, hsplit, hwords, -, -⟩ := mshSplit_spec cfg.argMax h hs hsize
  have hall := (holds_append.mp h).1
  rw [← takeWhile_append_dropWhile (p := (!isBlank ·)) (l := c :: t)] at hall hs
  have hword := mshGetCmd_spec table (holds_append.mp hall).1 fun h0 => hs (mem_append_left _ h0)
  have hne : ((c :: t).takeWhile (!isBlank ·)).length ≠ 0 := by simp [hblank]
  have hws : words cfg.argMax (c :: t) =
      (c :: t).takeWhile (!isBlank ·) :: words free ((c :: t).dropWhile (!isBlank ·)) := by
    rw [hfree, words, dropWhile_cons_of_neg (by simp [hblank])]
    exact if_neg hquote
  unfold mshExecCmd execute
  rw [skipWhile_spec _ (holds_append.mp h).1, Nat.add_sub_cancel_left, hws]
  dsimp only
  rw [if_neg hne, hword]
  cases hfind : table.find? (·.name == (c :: t).takeWhile (!isBlank ·)) with
  | none => exact ⟨m, rfl, fun _ => rfl⟩
  | some index =>
    have hargv : argv ≠ [] := by
      rintro rfl
      rw [hws] at hwords
      cases hwords
    refine ⟨m', ?_, nofun⟩
    simp only [Option.map_some, hsplit, Option.bind_eq_bind, Option.bind_some, if_neg hargv, hwords, hws]
    rfl

/-- **`msh_exec` makes the call that the line asks for**, where the first word is not in quotation marks. -/
theorem mshExec_spec (cfg : Config) (table : List (Syscall F)) (h : Holds m 0 (s ++ [0])) (hs : 0 ∉ s)
    (hsize : s.length ≤ cfg.cmdSize) (hquote : (s.dropWhile isBlank).head? ≠ some 0x22) :
    mshExec cfg table m s.length = some (execute cfg table s) := by
  have hall := takeWhile_append_dropWhile (p := isBlank) (l := s)
  have hhead := head?_dropWhile_not isBlank s
  have hlen := congrArg length hall
  have hexec : execute cfg table (s.dropWhile isBlank) = execute cfg table s := by
    unfold execute
    rw [words_dropWhile]
  unfold mshExec
  rw [skipWhile_spec isBlank (holds_append.mp h).1, ← hexec]
  generalize s.takeWhile isBlank = b, s.dropWhile isBlank = s₁ at hall hquote hhead hlen ⊢
  subst hall
  rw [append_assoc, holds_append] at h
  rw [length_append] at hlen hsize
  cases s₁ with
  | nil =>
    obtain ⟨free, hfree⟩ := Nat.exists_eq_succ_of_ne_zero (Nat.ne_of_gt cfg.argMax_pos)
    unfold execute
    rw [words_nil]
    rfl
  | cons c t =>
    obtain ⟨m', heq, hsame⟩ := mshExecCmd_spec cfg table h.2 (fun h0 => hs (mem_append_right _ h0))
      (by omega) (by simpa using hhead) (by simpa using hquote)
    dsimp only
    rw [length_cons] at heq ⊢
    rw [if_neg (Nat.succ_ne_zero _), heq]
    cases hcall : execute cfg table (c :: t) with
    | some call => rfl
    | none =>
      have hstop := firstSpace_le (cfg.cmdSize + 1 - (0 + b.length)) (holds_cons.mp (holds_append.mp h.2).2).1
      rw [hsame hcall]
      dsimp only [Option.bind_eq_bind, Option.bind_some, Option.isSome_none]
      rw [if_neg Bool.false_ne_true, store_ok (by rw [length_singleton]; omega)]
      rfl

end Gpmx.Gmsh
