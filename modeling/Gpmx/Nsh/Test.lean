import Mathlib

/-!
# NSH: the commands `test` and `[`

`expression` walks through the arguments from the left: it negates what follows a `!`, evaluates one
simple expression, and goes on behind `-a` or `-o` where the value of the left side does not decide. True,
false and a wrong expression are three integers; the last one is turned into false where it is found.

`argc` and `argv` are passed on as in the source: `argv` is the rest of the vector, up to its end, and
`argc` counts the arguments the expression may use. A use of the null pointer at `argv[argc]` is `none`.
-/

namespace Gpmx.Nsh.Test

abbrev Word := List Char

def testTrue : Int := 0
def testFalse : Int := -1
def testError : Int := 1

/-- `v ? TEST_TRUE : TEST_FALSE` -/
def status (v : Bool) : Int := if v then testTrue else testFalse

/-! ## `strtol` with base 0 -/

/-- `isspace` in the C locale. -/
def isSpace (c : Char) : Bool := c == ' ' || 9 ≤ c.toNat && c.toNat ≤ 13

def digitValue (base : Nat) (c : Char) : Option Nat :=
  let n := c.toNat
  let d :=
    if 0x30 ≤ n && n ≤ 0x39 then n - 0x30
    else if 0x61 ≤ n && n ≤ 0x7A then n - 0x61 + 10
    else if 0x41 ≤ n && n ≤ 0x5A then n - 0x41 + 10
    else base
  if d < base then some d else none

def digits (base : Nat) : (value : Nat) → List Char → Nat × List Char
  | value, [] => (value, [])
  | value, c :: rest =>
    match digitValue base c with
    | none => (value, c :: rest)
    | some d => digits base (value * base + d) rest

def unsigned : List Char → Option (Nat × List Char)
  | '0' :: x :: c :: rest =>
    if (x == 'x' || x == 'X') && (digitValue 16 c).isSome then some (digits 16 0 (c :: rest))
    else some (digits 8 0 ('0' :: x :: c :: rest))
  | '0' :: rest => some (digits 8 0 ('0' :: rest))
  | c :: rest => if (digitValue 10 c).isSome then some (digits 10 0 (c :: rest)) else none
  | [] => none

/-- The number at the front of a string, as it is written, and what `endptr` is set to. -/
def numeral (nptr : List Char) : Option (Int × List Char) :=
  match nptr.dropWhile isSpace with
  | '-' :: rest => (unsigned rest).map fun (n, endptr) => (-(n : Int), endptr)
  | '+' :: rest => (unsigned rest).map fun (n, endptr) => ((n : Int), endptr)
  | rest => (unsigned rest).map fun (n, endptr) => ((n : Int), endptr)

def longMax : Int := 2 ^ 31 - 1
def longMin : Int := -2 ^ 31

/-- A number out of the range of `long` becomes the nearest one in it. -/
def toLong (n : Int) : Int := max longMin (min longMax n)

def strtol (nptr : List Char) : Int × List Char :=
  match numeral nptr with
  | none => (0, nptr)
  | some (n, endptr) => (toLong n, endptr)

/-! ## Simple expressions -/

/-- The fields of `struct stat` that are looked at. -/
structure Stat where
  mode : Nat
  size : Int

def sIFMT : Nat := 15 <<< 12

def sISCHR (mode : Nat) : Bool := mode &&& sIFMT == 2 <<< 12
def sISDIR (mode : Nat) : Bool := mode &&& sIFMT == 4 <<< 12
def sISBLK (mode : Nat) : Bool := mode &&& sIFMT == 6 <<< 12
def sISREG (mode : Nat) : Bool := mode &&& sIFMT == 8 <<< 12

/-- `S_IRUSR | S_IRGRP | S_IROTH` -/
def readable (mode : Nat) : Bool := mode &&& (1 <<< 8 ||| 1 <<< 5 ||| 1 <<< 2) != 0

/-- `S_IWUSR | S_IWGRP | S_IWOTH` -/
def writable (mode : Nat) : Bool := mode &&& (1 <<< 7 ||| 1 <<< 4 ||| 1 <<< 1) != 0

def binaryexpression (left op right : Word) : Int :=
  if op = ['='] ∨ op = ['=', '='] then status (left == right)
  else if op = ['!', '='] then status (left != right)
  else
    -- the other operators take integers
    let (integer1, endptr) := strtol left
    if left = [] ∨ endptr ≠ [] then testError
    else
      let (integer2, endptr) := strtol right
      if right = [] ∨ endptr ≠ [] then testError
      else if op = ['-', 'e', 'q'] then status (integer1 == integer2)
      else if op = ['-', 'g', 'e'] then status (integer1 ≥ integer2)
      else if op = ['-', 'g', 't'] then status (integer1 > integer2)
      else if op = ['-', 'l', 'e'] then status (integer1 ≤ integer2)
      else if op = ['-', 'l', 't'] then status (integer1 < integer2)
      else if op = ['-', 'n', 'e'] then status (integer1 != integer2)
      else testError

/-- `stat` is the file system's: `none` is a result other than 0. -/
def unaryexpression (stat : Word → Option Stat) (op arg : Word) : Int :=
  if op = ['-', 'n'] then status (arg.length != 0)
  else if op = ['-', 'z'] then status (arg.length == 0)
  else
    match stat arg with
    | none => testFalse
    | some buf =>
      if op = ['-', 'b'] then status (sISBLK buf.mode)
      else if op = ['-', 'c'] then status (sISCHR buf.mode)
      else if op = ['-', 'd'] then status (sISDIR buf.mode)
      else if op = ['-', 'e'] then testTrue
      else if op = ['-', 'f'] then status (sISREG buf.mode)
      else if op = ['-', 'r'] then status (readable buf.mode)
      else if op = ['-', 's'] then status (buf.size > 0)
      else if op = ['-', 'w'] then status (writable buf.mode)
      else testError

/-! ## Expressions -/

def bang : Word := ['!']
def dashA : Word := ['-', 'a']
def dashO : Word := ['-', 'o']

/-- What is done at the word behind a simple expression. `next` is the value of what follows it. -/
def connective (value : Int) (word : Word) (next : Option Int) : Option Int :=
  if word = dashA then
    if value ≠ testTrue then some testFalse else next
  else if word = dashO then
    if value = testTrue then some testTrue else next
  else some testFalse

def expression (stat : Word → Option Stat) : (argc : Nat) → (argv : List Word) → Option Int
  | _, [] => none
  | argc, first :: argv =>
    if first = bang then
      if argc < 2 then some testFalse
      else (expression stat (argc - 1) argv).map fun ret =>
        if ret = testTrue then testFalse else testTrue
    else if first.head? = some '-' then
      if argc < 2 then some testFalse
      else
        match argv with
        | [] => none
        | arg :: argv =>
          let value := unaryexpression stat first arg
          if value = testError then some testFalse
          else if 2 < argc then
            match argv with
            | [] => none
            | word :: argv => connective value word (expression stat (argc - 3) argv)
          else some value
    else
      if argc < 3 then some testFalse
      else
        match argv with
        | op :: right :: argv =>
          let value := binaryexpression first op right
          if value = testError then some testFalse
          else if 3 < argc then
            match argv with
            | [] => none
            | word :: argv => connective value word (expression stat (argc - 4) argv)
          else some value
        | _ => none

/-- `argv` with the name of the command in front. -/
def cmdTest (stat : Word → Option Stat) (argv : List Word) : Option Int :=
  expression stat (argv.length - 1) argv.tail

def cmdLbracket (stat : Word → Option Stat) (argv : List Word) : Option Int :=
  if argv.getLast? = some [']'] then expression stat (argv.length - 2) argv.tail
  else some (-1)

/-! ## What the operators mean -/

/-- The string is an integer: all of it is a number as `strtol` reads it. -/
def integer (w : Word) : Option Int :=
  match numeral w with
  | some (n, []) => some n
  | _ => none

/-- The integer that a `long` can hold of it. -/
def longInteger (w : Word) : Option Int := (integer w).map toLong

def comparison (op : Word) : Option (Int → Int → Bool) :=
  if op = ['-', 'e', 'q'] then some fun m n => m == n
  else if op = ['-', 'g', 'e'] then some fun m n => m ≥ n
  else if op = ['-', 'g', 't'] then some fun m n => m > n
  else if op = ['-', 'l', 'e'] then some fun m n => m ≤ n
  else if op = ['-', 'l', 't'] then some fun m n => m < n
  else if op = ['-', 'n', 'e'] then some fun m n => m != n
  else none

/-- The truth value of a binary expression, if it is one: `number` are the integers. -/
def binaryValue (number : Word → Option Int) (left op right : Word) : Option Bool :=
  if op = ['='] ∨ op = ['=', '='] then some (left == right)
  else if op = ['!', '='] then some (left != right)
  else do
    let compare ← comparison op
    return compare (← number left) (← number right)

def fileProperty (op : Word) : Option (Stat → Bool) :=
  if op = ['-', 'b'] then some fun buf => sISBLK buf.mode
  else if op = ['-', 'c'] then some fun buf => sISCHR buf.mode
  else if op = ['-', 'd'] then some fun buf => sISDIR buf.mode
  else if op = ['-', 'e'] then some fun _ => true
  else if op = ['-', 'f'] then some fun buf => sISREG buf.mode
  else if op = ['-', 'r'] then some fun buf => readable buf.mode
  else if op = ['-', 's'] then some fun buf => buf.size > 0
  else if op = ['-', 'w'] then some fun buf => writable buf.mode
  else none

def unaryValue (stat : Word → Option Stat) (op arg : Word) : Option Bool :=
  if op = ['-', 'n'] then some (arg != [])
  else if op = ['-', 'z'] then some (arg == [])
  else (fileProperty op).map fun property => (stat arg).any property

theorem longInteger_eq (w : Word) :
    longInteger w = if w = [] ∨ (strtol w).2 ≠ [] then none else some (strtol w).1 := by
  unfold strtol longInteger integer
  cases h : numeral w with
  | none => simp
  | some p =>
    obtain ⟨n, endptr⟩ := p
    cases endptr with
    | cons c rest => simp
    | nil =>
      have hw : w ≠ [] := by rintro rfl; simp [numeral, unsigned] at h
      simp [hw]

/-- **`binaryexpression` computes the truth value, with the integers of `long`.** -/
theorem binaryexpression_eq (left op right : Word) :
    binaryexpression left op right =
      ((binaryValue longInteger left op right).map status).getD testError := by
  unfold binaryexpression binaryValue
  by_cases hs : op = ['='] ∨ op = ['=', '=']
  · simp [hs]
  by_cases hn : op = ['!', '=']
  · simp [hn]
  simp only [hs, hn, if_false]
  by_cases hl : left = [] ∨ (strtol left).2 ≠ []
  · simp only [longInteger_eq, hl, if_true]
    cases comparison op <;> rfl
  by_cases hr : right = [] ∨ (strtol right).2 ≠ []
  · simp only [longInteger_eq, hl, hr, if_true, if_false]
    cases comparison op <;> rfl
  simp only [longInteger_eq, hl, hr, if_false]
  unfold comparison
  split_ifs <;> rfl

/-- **`unaryexpression` computes the truth value.** Of an operator it does not know it says so only where
the file is there. -/
theorem unaryexpression_eq (stat : Word → Option Stat) (op arg : Word) :
    unaryexpression stat op arg =
      ((unaryValue stat op arg).map status).getD
        (if (stat arg).isSome then testError else testFalse) := by
  unfold unaryexpression unaryValue
  by_cases hn : op = ['-', 'n']
  · cases arg <;> (simp only [hn, if_true]; rfl)
  by_cases hz : op = ['-', 'z']
  · cases arg <;> (simp only [hz, if_true]; rfl)
  simp only [hn, hz, if_false]
  cases stat arg with
  | none => cases fileProperty op <;> rfl
  | some buf =>
    -- the operators are compared in the same order on both sides
    let value (property : Option (Stat → Bool)) : Int :=
      ((property.map fun p => (some buf).any p).map status).getD testError
    show _ = value (fileProperty op)
    simp only [fileProperty, apply_ite value]
    rfl

@[simp] theorem status_ne_error (v : Bool) : status v ≠ testError := by cases v <;> decide

@[simp] theorem status_eq_true {v : Bool} : status v = testTrue ↔ v = true := by
  cases v <;> decide

end Gpmx.Nsh.Test
