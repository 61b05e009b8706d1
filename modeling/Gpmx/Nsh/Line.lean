import Gpmx.Nsh.Argument

/-!
# NSH: the commands on a line

`nsh_parse` looks for the end of each command and hands its text to `nsh_parse_command`, which scans
it a second time. What a line says is written down beside it: it ends at the first `#` or newline
outside of double quotes, it is split at each `;` outside of them, and each command is split at the
blanks outside of them.
-/

namespace Gpmx.Nsh.Args

/-! ## `nsh_parse` -/

def gLineSeparator : List Char := ['"', '#', ';', '\n']

/-- The tokens that `nsh_argument` finds in a command's text, up to the last one. -/
def commandTokens (b : Build) (text : List Char) : List Token := tokensOf b (text.length + 1) text

/-- What `nsh_parse_command` returns: 0 where there is no command in the text, else what comes of
running it. -/
def commandStatus (run : List Token → Int) (tokens : List Token) : Int :=
  if tokens = [] then 0 else run tokens

/-- The loop of `nsh_parse`; `working` is `start + off`. The texts that `nsh_parse_command` is called
with, as the tokens it finds there, and what is returned. -/
def nshParseFrom (b : Build) (run : List Token → Int) :
    (fuel : Nat) → (start : List Char) → (off : Nat) → List (List Token) × Int
  | 0, _, _ => ([], 0)
  | fuel + 1, start, off =>
    let working := start.drop off
    let len := (working.takeWhile (!gLineSeparator.contains ·)).length
    match working.drop len with
    | ';' :: ptr =>
      let tokens := commandTokens b (start.take (off + len))
      let ret := commandStatus run tokens
      if ret ≠ 0 then
        ([tokens], ret)
      else
        (nshParseFrom b run fuel ptr 0).map (tokens :: ·) id
    | '"' :: ptr =>
      match nshStrchr b '"' false ptr with
      | none => ([], -1)
      | some k => nshParseFrom b run fuel start (off + len + 1 + k + 1)
    | _ =>
      -- The end of the line, a newline or a `#`: the text is not ended here.
      let tokens := commandTokens b start
      ([tokens], commandStatus run tokens)

/-- `nsh_parse`. Each turn takes a separator off the line. -/
def nshParse (b : Build) (run : List Token → Int) (cmdline : List Char) : List (List Token) × Int :=
  nshParseFrom b run (cmdline.length + 1) cmdline 0

/-! ## What a line says -/

/-- Whether a character stands inside of double quotes, after `c`. -/
def quoteAfter (inQuotes : Bool) (c : Char) : Bool := if c = '"' then !inQuotes else inQuotes

/-- The line up to its first `#` or newline outside of double quotes. -/
def cutLine : (inQuotes : Bool) → List Char → List Char
  | _, [] => []
  | inQuotes, c :: s =>
    if inQuotes = false ∧ (c = '#' ∨ c = '\n') then [] else c :: cutLine (quoteAfter inQuotes c) s

/-- The texts between the `;` outside of double quotes. -/
def splitCommands : (inQuotes : Bool) → List Char → List (List Char)
  | _, [] => [[]]
  | inQuotes, c :: s =>
    if inQuotes = false ∧ c = ';' then
      [] :: splitCommands false s
    else
      match splitCommands (quoteAfter inQuotes c) s with
      | [] => [[c]]
      | p :: ps => (c :: p) :: ps

def wordSpan : (inQuotes : Bool) → List Char → List Char × List Char
  | _, [] => ([], [])
  | inQuotes, c :: s =>
    if inQuotes = false ∧ isSeparator c = true then
      ([], c :: s)
    else
      (wordSpan (quoteAfter inQuotes c) s).map (c :: ·) id

/-- The first `n` words of a command. -/
def firstWords : (n : Nat) → List Char → List (List Char)
  | 0, _ => []
  | n + 1, text =>
    match text.dropWhile isSeparator with
    | [] => []
    | text => (wordSpan false text).1 :: firstWords n (wordSpan false text).2

def commandWords (text : List Char) : List (List Char) := firstWords text.length text

def wordToken (w : List Char) : Token :=
  match w with
  | '"' :: s =>
    if s.getLast? = some '"' ∧ '"' ∉ s.dropLast then .word true s.dropLast else .word false w
  | _ => .word false w

/-- The operators `>` and `>>` at the beginning of a word are tokens of their own. -/
def wordTokens : List Char → List Token
  | [] => []
  | '>' :: '>' :: w => .redirect ['>', '>'] :: wordTokens w
  | '>' :: w => .redirect ['>'] :: wordTokens w
  | c :: w => [wordToken (c :: w)]

def tokenise (text : List Char) : List Token := (commandWords text).flatMap wordTokens

def runCommands (run : List Token → Int) (final : Int) : List (List Token) → List (List Token) × Int
  | [] => ([], final)
  | tokens :: rest =>
    if commandStatus run tokens ≠ 0 then
      ([tokens], commandStatus run tokens)
    else
      (runCommands run final rest).map (tokens :: ·) id

def endsInQuotes (inQuotes : Bool) (text : List Char) : Bool := text.foldl quoteAfter inQuotes

/-- What is run for a line. A command with a quotation mark that is not closed is an error. -/
def runLine (run : List Token → Int) (line : List Char) : List (List Token) × Int :=
  let text := cutLine false line
  let commands := (splitCommands false text).map tokenise
  if endsInQuotes false text then
    runCommands run (-1) commands.dropLast
  else
    runCommands run 0 commands

/-! ## Lines on which the two scans agree -/

def dropOperators : List Char → List Char
  | '>' :: w => dropOperators w
  | w => w

/-- Behind its operators the word is empty or a quoted string, so that it ends by itself. -/
def Closed (w : List Char) : Prop :=
  dropOperators w = [] ∨ ∃ s, '"' ∉ s ∧ dropOperators w = '"' :: (s ++ ['"'])

/-- Quotation marks enclose the whole word, or they do not begin it and there is no blank inside. -/
def Whole (w : List Char) : Prop :=
  Closed w ∨ ((dropOperators w).head? ≠ some '"' ∧ ∀ c ∈ dropOperators w, isSeparator c = false)

/-- What comes behind a line's last command adds nothing to it: a `#` stands where a word could begin,
and behind a newline there are only blanks or a comment. -/
def EndsThere (b : Build) (text : List Char) : List Char → Prop
  | [] => True
  | '#' :: _ => (∀ c, text.getLast? = some c → isSeparator c = true) ∨
      ∃ w, (commandWords text).getLast? = some w ∧ Closed w
  | rest => commandTokens b rest = []

/-- Every quotation mark that opens a string begins a word and every one that closes it ends the word,
unless there is no blank in the string; and the line ends where `nsh_argument` ends it too. -/
def Aligned (b : Build) (line : List Char) : Prop :=
  let text := cutLine false line
  let commands := splitCommands false text
  (∀ command ∈ commands.dropLast, ∀ w ∈ commandWords command, Whole w) ∧
    (endsInQuotes false text = false → ∀ last, commands.getLast? = some last →
      (∀ w ∈ commandWords last, Whole w) ∧ EndsThere b last (line.drop text.length))

end Gpmx.Nsh.Args
