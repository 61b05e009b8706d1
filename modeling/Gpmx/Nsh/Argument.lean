import Gpmx.Nsh.Vars
import Mathlib

/-!
# NSH: the argument vector of a command

`nsh_argument` cuts one argument after the other off the line, `nsh_argexpand` puts values in the
place of references, and `nsh_parse_command` stores the arguments into `argv` and splits at its blanks
what came out of a variable. The line is a C string: only its characters are kept. What lies behind a
terminator that was written into it is never looked at again.
-/

namespace Gpmx.Nsh.Args

/-- The configuration: `CONFIG_NSH_QUOTE`, `CONFIG_NSH_ARGCAT`, `CONFIG_NSH_CMDPARMS`, that
`CONFIG_NSH_DISABLEBG` is not set, and `CONFIG_NSH_MAXARGUMENTS`. -/
structure Build where
  quote : Bool
  argcat : Bool
  cmdparms : Bool
  bg : Bool
  maxArguments : Nat

def Build.maxArgvEntries (b : Build) : Nat := b.maxArguments + if b.bg then 5 else 4

def gTokenSeparator : List Char := [' ', '\t', '\n']

def isSeparator (c : Char) : Bool := gTokenSeparator.contains c

/-! ## One argument -/

/-- The search for the end of an argument: the text up to the first character of `term` outside of
back-quotes, and what follows this character. `prev` and `quoted` are those of the source. -/
def scan (b : Build) (term : Char → Bool) :
    (prev : Option Char) → (quoted backquote : Bool) → List Char → List Char × List Char
  | _, _, _, [] => ([], [])
  | prev, quoted, backquote, c :: rest =>
    if b.quote && prev == some '\\' && !quoted then
      (scan b term (some c) true backquote rest).map (c :: ·) id
    else if b.quote && c == '\\' then
      (scan b term (some c) false backquote rest).map (c :: ·) id
    else if b.cmdparms && c == '`' then
      (scan b term (some c) false (!backquote) rest).map (c :: ·) id
    else if !backquote && term c then
      ([], rest)
    else
      (scan b term (some c) false backquote rest).map (c :: ·) id

/-- What `nsh_argument` finds on the line, before it is expanded. -/
inductive Token where
  | redirect (s : List Char)
  | word (inQuotes : Bool) (s : List Char)
deriving DecidableEq

/-- The next token, and `*saveptr` behind it. There is none at the end of the line and at a `#`. -/
def nextToken (b : Build) (saveptr : List Char) : Option (Token × List Char) :=
  match saveptr.dropWhile isSeparator with
  | [] => none
  | '>' :: '>' :: rest => some (.redirect ['>', '>'], rest)
  | '>' :: rest => some (.redirect ['>'], rest)
  | '#' :: _ => none
  | '"' :: rest =>
    let (s, rest) := scan b (· == '"') none false false rest
    some (.word true s, rest)
  | pbegin =>
    let (s, rest) := scan b isSeparator none false false pbegin
    some (.word false s, rest)

/-- The first `n` tokens on the line. -/
def tokensOf (b : Build) : (n : Nat) → List Char → List Token
  | 0, _ => []
  | n + 1, saveptr =>
    match nextToken b saveptr with
    | none => []
    | some (token, saveptr) => token :: tokensOf b n saveptr

/-- An entry of `argv`: a text of its own (on the line, a constant or an allocation), or a pointer
into the variables' buffer. -/
inductive Arg where
  | text (s : List Char)
  | stored (i : Nat)
deriving DecidableEq

def Arg.string (vars : ConsoleStdio) : Arg → List Char
  | .text s => s
  | .stored i => (vars.bytes.drop i).takeWhile (· ≠ nul)

/-- `nsh_argexpand`: the argument for a text, whether a variable was expanded in it, and the
variables afterwards; none where it reads outside of the variables' buffer. -/
abbrev Expand := ConsoleStdio → List Char → Option (Arg × Bool × ConsoleStdio)

/-- `nsh_argument`. `isenvvar` says that the caller wants to know of variables; a quoted string is
never reported. -/
def nshArgument (b : Build) (expand : Expand) (isenvvar : Bool) (vars : ConsoleStdio)
    (saveptr : List Char) : Option (Option (Arg × Bool × ConsoleStdio × List Char)) :=
  match nextToken b saveptr with
  | none => some none
  | some (.redirect s, rest) => some (some (.text s, false, vars, rest))
  | some (.word inQuotes s, rest) => do
    let (arg, env, vars) ← expand vars s
    some (some (arg, isenvvar && !inQuotes && env, vars, rest))

/-! ## Expansion where strings are not concatenated -/

def gExitstatus : List Char := ['?']

def nshEnvexpand (vars : ConsoleStdio) (npFail : Bool) (varname : List Char) : Option Arg :=
  if varname = gExitstatus then
    some (.text (if npFail then ['1'] else ['0']))
  else do
    match ← nshGetvar vars varname with
    | none => some (.text [])
    | some value => some (.stored value)

/-- `nsh_argexpand` without `CONFIG_NSH_ARGCAT`. `cmdparm` is the output of a command in back-quotes,
which is an allocation; the null string stands for one that failed. -/
def nshArgexpand (b : Build) (npFail : Bool) (cmdparm : List Char → List Char) : Expand :=
  fun vars cmdline =>
    match cmdline with
    | '\\' :: _ =>
      -- Without `CONFIG_NSH_QUOTE` a backslash is no special character either.
      some (.text cmdline, false, vars)
    | '`' :: rest =>
      if b.cmdparms then
        match strchr '`' (rest ++ [nul]) with
        | none => some (.text [], false, vars)
        | some k =>
          if k + 1 = rest.length then
            some (.text (cmdparm (rest.take k)), false, vars)
          else
            some (.text [], false, vars)
      else
        some (.text cmdline, false, vars)
    | '$' :: varname => (nshEnvexpand vars npFail varname).map fun arg => (arg, true, vars)
    | _ => some (.text cmdline, false, vars)

/-! ## Expansion where strings are concatenated -/

def gArgSeparator : List Char := ['`', '$']

/-- `strcspn(s, g_arg_separator)` -/
def argSpan (s : List Char) : Nat := (s.takeWhile (!gArgSeparator.contains ·)).length

/-- `nsh_strchr`: a character behind a backslash does not count. It is `strchr` unless strings can be
both quoted and concatenated. -/
def nshStrchr (b : Build) (ch : Char) : (quoted : Bool) → List Char → Option Nat
  | _, [] => none
  | quoted, c :: rest =>
    if b.quote && b.argcat && c == '\\' && !quoted then
      (nshStrchr b ch true rest).map (· + 1)
    else if c == ch && !quoted then
      some 0
    else
      (nshStrchr b ch false rest).map (· + 1)

/-- `nsh_dequote`: each backslash is taken out, and the character behind it stays. -/
def nshDequote (b : Build) : (quoted : Bool) → List Char → List Char
  | _, [] => []
  | quoted, c :: rest =>
    if b.quote && c == '\\' && !quoted then
      nshDequote b true rest
    else
      c :: nshDequote b false rest

def endsQuoted (s : List Char) : Bool :=
  decide ((s.reverse.takeWhile (· == '\\')).length % 2 = 1)

def nextSpecial (b : Build) (working : List Char) : (fuel len : Nat) → Nat
  | 0, len => len
  | fuel + 1, len =>
    if b.quote && decide (len < working.length) && endsQuoted (working.take len) then
      nextSpecial b working fuel (len + (argSpan (working.drop (len + 1)) + 1))
    else
      len

def splitName (b : Build) : List Char → Option (List Char × List Char)
  | '{' :: ptr => (nshStrchr b '}' false ptr).map fun k => (ptr.take k, ptr.drop (k + 1))
  | ptr => some (ptr, [])

/-- The loop of `nsh_argexpand` with `CONFIG_NSH_ARGCAT`. The outer none is an access outside of the
variables' buffer; `argument` is the allocation, if there is one, and memory is never short. -/
def argexpandLoop (b : Build) (npFail : Bool) (cmdparm : List Char → List Char)
    (vars : ConsoleStdio) (cmdline : List Char) :
    (fuel : Nat) → (working : List Char) → (argument : Option (List Char)) → (env : Bool) →
    Option (List Char × Bool)
  | 0, _, argument, env => some (argument.getD [], env)
  | fuel + 1, working, argument, env =>
    let len := nextSpecial b working working.length (argSpan working)
    let before := argument.getD [] ++ working.take len
    match working.drop len with
    | [] =>
      match argument with
      | some argument => some (nshDequote b false (argument ++ working), env)
      | none => some (nshDequote b false cmdline, env)
    | c :: ptr =>
      if b.cmdparms && c == '`' then
        match nshStrchr b '`' false ptr with
        | none => some ([], env)
        | some k =>
          argexpandLoop b npFail cmdparm vars cmdline fuel (ptr.drop (k + 1))
            (some (before ++ cmdparm (ptr.take k))) env
      else if c == '$' then
        match splitName b ptr with
        | none => some ([], env)
        | some (name, working) => do
          let envstr ← nshEnvexpand vars npFail name
          argexpandLoop b npFail cmdparm vars cmdline fuel working
            (some (before ++ envstr.string vars)) true
      else
        argexpandLoop b npFail cmdparm vars cmdline fuel ptr argument env

/-- `nsh_argexpand` with `CONFIG_NSH_ARGCAT`. -/
def nshArgexpandCat (b : Build) (npFail : Bool) (cmdparm : List Char → List Char) : Expand :=
  fun vars cmdline => do
    let (argument, env) ←
      argexpandLoop b npFail cmdparm vars cmdline (cmdline.length + 1) cmdline none false
    some (.text argument, env, vars)

/-! ## The vector -/

/-- `argc` and `argv` while the vector is built; NULL is none. `stores` are the places of `argv` that
have been stored into, the latest first. -/
structure Argv where
  argc : Nat
  argv : Nat → Option Arg
  stores : List Nat
  vars : ConsoleStdio
  npBg : Bool
  tooMany : Bool

namespace Argv

/-- `argv[i] = arg` -/
def store (v : Argv) (i : Nat) (arg : Option Arg) : Argv :=
  { v with argv := Function.update v.argv i arg, stores := i :: v.stores }

/-- The terminator is written into the string of the entry `argv[argc]`, behind `k` characters. -/
def terminate (v : Argv) (arg : Arg) (k : Nat) : Argv :=
  match arg with
  | .text s => { v with argv := Function.update v.argv v.argc (some (.text (s.take k))) }
  | .stored i =>
    { v with vars := { v.vars with varp := v.vars.varp.map fun buf => buf.set (i + k) nul } }

def string (v : Argv) (i : Nat) : Option (List Char) := (v.argv i).map (Arg.string v.vars)

end Argv

/-- The pointer `k` characters further on. -/
def Arg.advance : Arg → Nat → Arg
  | .text s, k => .text (s.drop k)
  | .stored i, k => .stored (i + k)

/-- The inner loop, for the entry `arg` at `argv[argc]`: `room` is what is left up to the last entry
of `argv`. -/
def splitArgument : (room : Nat) → Argv → Arg → Argv
  | 0, v, _ => v
  | room + 1, v, arg =>
    let s := arg.string v.vars
    let token := s.takeWhile (!isSeparator ·)
    if token.length = s.length then
      v
    else
      let v := v.terminate arg token.length
      let blanks := (s.drop (token.length + 1)).takeWhile isSeparator
      let next := arg.advance (token.length + 1 + blanks.length)
      splitArgument room ({ v with argc := v.argc + 1 }.store (v.argc + 1) (some next)) next

/-- The outer loop. It takes at most `room` turns, since each one makes `argc` larger. -/
def argLoop (b : Build) (expand : Expand) : (room : Nat) → Argv → List Char → Option Argv
  | 0, v, _ => some v
  | room + 1, v, saveptr =>
    if v.argc < b.maxArgvEntries - 1 then do
      match ← nshArgument b expand true v.vars saveptr with
      | none => some (v.store v.argc none)
      | some (arg, env, vars, saveptr) =>
        let v := { v with vars }.store v.argc (some arg)
        let v := if env then splitArgument (b.maxArgvEntries - 1 - v.argc) v arg else v
        argLoop b expand room { v with argc := v.argc + 1 } saveptr
    else
      some v

/-- A `&` at the end is taken off, and the vector is ended. -/
def finish (b : Build) (v : Argv) : Argv :=
  let v :=
    if b.bg && decide (v.argc > 1) && v.string (v.argc - 1) == some ['&'] then
      { v with npBg := true, argc := v.argc - 1 }
    else
      v
  { v.store v.argc none with tooMany := decide (v.argc > b.maxArguments) }

def firstEntry (vars : ConsoleStdio) (cmd : Arg) : Argv :=
  { argc := 1, argv := Function.update (fun _ => none) 0 (some cmd), stores := [0], vars,
    npBg := false, tooMany := false }

/-- `nsh_parse_command`, from the first entry of `argv` up to the call of `nsh_execute`. -/
def nshParseArgs (b : Build) (expand : Expand) (vars : ConsoleStdio) (cmd : Arg)
    (saveptr : List Char) : Option Argv :=
  (argLoop b expand (b.maxArgvEntries - 1) (firstEntry vars cmd) saveptr).map (finish b)

/-- What `nsh_loop`, `nsh_itef` and `nsh_nice` make of the first word: they take the words of a
block or of `nice` off the line, or the line holds no command that is run. -/
abbrev Front := ConsoleStdio → Arg → List Char → Option (ConsoleStdio × Arg × List Char)

def commandWord (b : Build) (expand : Expand) (front : Front) (vars : ConsoleStdio)
    (cmdline : List Char) : Option (Option (ConsoleStdio × Arg × List Char)) := do
  match ← nshArgument b expand false vars cmdline with
  | none => some none
  | some (cmd, _, vars, saveptr) => some (front vars cmd saveptr)

/-- `nsh_parse_command`, with the vector that `nsh_execute` is called with; none where no command
is run. -/
def nshParseCommand (b : Build) (expand : Expand) (front : Front) (vars : ConsoleStdio)
    (cmdline : List Char) : Option (Option Argv) := do
  match ← commandWord b expand front vars cmdline with
  | none => some none
  | some (vars, cmd, saveptr) => (nshParseArgs b expand vars cmd saveptr).map some

end Gpmx.Nsh.Args
