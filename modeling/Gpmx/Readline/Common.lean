import Gpmx.Infra.Memory

/-!
# `readline_common`

`gpm/modules/readline/readline_common.c`, with `CONFIG_READLINE_ECHO`, `CONFIG_READLINE_CMD_HISTORY`,
`CONFIG_READLINE_TABCOMPLETION` and `CONFIG_MODULE_BUILTIN`. The buffer is a memory that goes on behind
`buflen`; the places that are stored to are kept beside it. A row of the history stands for the string
in it.
-/

namespace Gpmx.Readline

open Infra

/-! ## What is configured -/

/-- `CONFIG_EOL_IS_LF` or `CONFIG_EOL_IS_BOTH_CRLF`, `CONFIG_EOL_IS_CR`, `CONFIG_EOL_IS_EITHER_CRLF` -/
inductive Eol where
  | lf
  | cr
  | either
  deriving DecidableEq

def Eol.ends : Eol → UInt8 → Bool
  | .lf, ch => ch = 0x0a
  | .cr, ch => ch = 0x0d
  | .either, ch => ch = 0x0a ∨ ch = 0x0d

/-- The configuration, with the names of the builtin commands and `g_readline_prompt`. -/
structure Config where
  eol : Eol
  /-- `RL_CMDHIST_LEN` -/
  cmdhistLen : Nat
  cmdhistLen_pos : 0 < cmdhistLen
  /-- `RL_CMDHIST_LINELEN` -/
  cmdhistLinelen : Nat
  /-- `CONFIG_READLINE_MAX_BUILTINS` -/
  maxBuiltins : Nat
  /-- `NAME_MAX` -/
  nameMax : Nat
  builtins : List (List UInt8)
  prompt : Option (List UInt8)

/-! ## The line -/

/-- `struct cmdhist_s`; a row is the string in it, without its null. -/
structure Cmdhist where
  buf : Nat → List UInt8
  head : Nat
  offset : Int
  len : Nat

/-- `g_cmdhist` before any call -/
def Cmdhist.zero : Cmdhist := { buf := fun _ => [], head := 0, offset := 0, len := 0 }

/-- The line buffer and the variables of a call, with the places of the buffer that it has stored to and
the characters that it has put out. -/
structure Line where
  buf : Memory UInt8
  nch : Nat
  escape : Nat
  hist : Cmdhist
  stores : List Nat
  echo : List UInt8

/-- `buf[i] = ..` for the bytes from `i` on -/
def Line.store (s : Line) (i : Nat) (bytes : List UInt8) : Line :=
  { s with
    buf := s.buf.write i bytes
    stores := s.stores ++ List.range' i bytes.length }

/-- `RL_PUTC`, `RL_WRITE` -/
def Line.put (s : Line) (bytes : List UInt8) : Line := { s with echo := s.echo ++ bytes }

def gErasetoeol : List UInt8 := [0x1b, 0x5b, 0x4b]

def erased : List UInt8 := 0x08 :: gErasetoeol

def chars (name : List UInt8) : Memory UInt8 := fun i => name.getD i 0

/-- Whether `strncmp` of two arrays from the place `i` on is 0. -/
def strncmpEq (s t : Memory UInt8) (i : Nat) : Nat → Bool
  | 0 => true
  | n + 1 => if s i ≠ t i then false else if s i = 0 then true else strncmpEq s t (i + 1) n

/-! ## Completion -/

/-- `count_builtin_matches`, with the names for their indices -/
def countBuiltinMatches (cfg : Config) (buf : Memory UInt8) (namelen : Nat) : List (List UInt8) :=
  (cfg.builtins.filter fun name => strncmpEq buf (chars name) 0 namelen).take cfg.maxBuiltins

/-- What the name of a match makes of `tmp_name`. -/
def tmpName (cfg : Config) (tmp : Memory UInt8) (name : List UInt8) : Memory UInt8 :=
  -- `strlcpy`
  let tmp := if tmp 0 = 0 then tmp.write 0 (name.take cfg.nameMax ++ [0]) else tmp
  fun j => if j < name.length ∧ j < cfg.nameMax + 1 ∧ name.getD j 0 ≠ tmp j then 0 else tmp j

/-- The string in `tmp_name` after all matches. -/
def commonName (cfg : Config) (names : List (List UInt8)) : List UInt8 :=
  ((names.foldl (tmpName cfg) fun _ => 0).read 0 (cfg.nameMax + 1)).takeWhile (· ≠ 0)

/-- The `n` bytes that `strncpy` stores. -/
def strncpyBytes (str : List UInt8) (n : Nat) : List UInt8 :=
  str.take n ++ List.replicate (n - str.length) 0

def tabCompletion (cfg : Config) (buflen : Nat) (s : Line) : Line :=
  if s.nch < 1 then s
  else
    match countBuiltinMatches cfg s.buf s.nch with
    | [] => s
    | [name] =>
      let t := (s.store s.nch (name.drop s.nch)).put (name.drop s.nch)
      if s.nch < name.length then { t with nch := name.length } else t
    | names =>
      let str := commonName cfg names
      let t := s.put (0x0a :: names.flatMap fun name => 0x20 :: 0x20 :: (name ++ [0x0a]))
      let t := (t.store 0 (strncpyBytes str (buflen - 1))).put (cfg.prompt.getD [])
      let t := t.put (t.buf.read 0 str.length)
      if s.nch < str.length then { t with nch := str.length } else t

/-! ## History -/

/-- `g_cmdhist.offset` after the last byte of an escape sequence. -/
def browse (hist : Cmdhist) (ch : UInt8) : Int :=
  if ch = 0x41 then
    -- up arrow
    if -(hist.offset - 1) ≥ hist.len then -((hist.len : Int) - 1) else hist.offset - 1
  else if ch = 0x42 then
    -- down arrow
    if hist.offset + 1 > 1 then 1 else hist.offset + 1
  else hist.offset

/-- `idx` in the history. -/
def wrapIdx (cfg : Config) (idx : Int) : Nat :=
  (if idx < 0 then idx + cfg.cmdhistLen
    else if idx ≥ cfg.cmdhistLen then idx - cfg.cmdhistLen else idx).toNat

def recalled (cfg : Config) (hist : Cmdhist) (ch : UInt8) : Option (List UInt8) :=
  if hist.len > 0 ∧ browse hist ch ≠ 1 then some (hist.buf (wrapIdx cfg (hist.head + browse hist ch)))
  else none

def arrow (cfg : Config) (s : Line) (ch : UInt8) : Line :=
  if s.hist.len > 0 then
    let t := { s.put (List.replicate s.nch erased).flatten with
      nch := 0
      hist := { s.hist with offset := browse s.hist ch } }
    match recalled cfg s.hist ch with
    | some line => { (t.store 0 (line ++ [0])).put line with nch := line.length }
    | none => t
  else s

def saveHistory (cfg : Config) (s : Line) : Cmdhist :=
  if s.nch ≥ 1 then
    if strncmpEq s.buf (chars (s.hist.buf s.hist.head)) 0 (s.nch + 1) then { s.hist with offset := 1 }
    else
      let head := (s.hist.head + 1) % cfg.cmdhistLen
      let row := (s.buf.read 0 (min s.nch (cfg.cmdhistLinelen - 1))).takeWhile (· ≠ 0)
      { buf := fun i => if i = head then row else s.hist.buf i
        head := head
        offset := 1
        len := if s.hist.len < cfg.cmdhistLen then s.hist.len + 1 else s.hist.len }
  else s.hist

/-! ## The loop -/

def iscntrl (ch : UInt8) : Bool := ch < 0x20 ∨ ch = 0x7f

inductive Key where
  | eof
  /-- the last byte of an escape sequence -/
  | arrow (ch : UInt8)
  /-- `[` behind the escape character -/
  | bracket
  | backspace
  | esc
  | newline
  | char (ch : UInt8)
  | tab
  | other
  deriving DecidableEq

/-- Which branch takes what `RL_GETC` returns. -/
def keyOf (cfg : Config) (escape : Nat) : Option UInt8 → Key
  | none => .eof
  | some ch =>
    if escape ≠ 0 then if ch ≠ 0x5b ∨ escape = 2 then .arrow ch else .bracket
    else if ch = 0x08 ∨ ch = 0x7f then .backspace
    else if ch = 0x1b then .esc
    else if cfg.eol.ends ch then .newline
    else if ¬ iscntrl ch then .char ch
    else if ch = 0x09 then .tab
    else .other

def handle (cfg : Config) (buflen : Nat) (s : Line) : Key → Line × Option Int
  | .eof => if s.nch > 0 then (s.store s.nch [0], some s.nch) else (s, some (-1))
  | .arrow ch => ({ arrow cfg s ch with escape := 0 }, none)
  | .bracket => ({ s with escape := 2 }, none)
  | .backspace => if s.nch > 0 then ({ s with nch := s.nch - 1 }.put erased, none) else (s, none)
  | .esc => ({ s with escape := 1 }, none)
  | .newline =>
    ({ ({ s with hist := saveHistory cfg s }.store s.nch [0x0a, 0]).put [0x0a] with nch := s.nch + 1 },
      some (s.nch + 1))
  | .char ch =>
    let t := { (s.store s.nch [ch]).put [ch] with nch := s.nch + 1 }
    if s.nch + 1 + 1 ≥ buflen then (t.store (s.nch + 1) [0], some (s.nch + 1)) else (t, none)
  | .tab => (tabCompletion cfg buflen s, none)
  | .other => (s, none)

def step (cfg : Config) (buflen : Nat) (s : Line) (ch : Option UInt8) : Line × Option Int :=
  handle cfg buflen s (keyOf cfg s.escape ch)

/-- The loop, on what `RL_GETC` returns one after the other; `none` while the call has not returned. -/
def loop (cfg : Config) (buflen : Nat) (s : Line) : List (Option UInt8) → Line × Option Int
  | [] => (s, none)
  | ch :: input =>
    match step cfg buflen s ch with
    | (t, some ret) => (t, some ret)
    | (t, none) => loop cfg buflen t input

def Line.start (buf : Memory UInt8) (hist : Cmdhist) : Line :=
  { buf := buf, nch := 0, escape := 0, hist := hist, stores := [], echo := gErasetoeol }

def readlineCommon (cfg : Config) (buflen : Nat) (buf : Memory UInt8) (hist : Cmdhist)
    (input : List (Option UInt8)) : Line × Option Int :=
  if buflen < 2 then
    ({ Line.start buf hist with echo := [] }.store 0 [0], some 0)
  else loop cfg buflen (Line.start buf hist) input

end Gpmx.Readline
