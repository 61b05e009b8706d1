import Mathlib

/-!
# NSH variables

All variables of a session are kept in one buffer, as `name=value` strings that lie one behind the
other, each with its terminator. Pointers into the buffer are offsets. What is read outside of the
allocated bytes has no value.
-/

namespace Gpmx.Nsh

abbrev nul : Char := '\x00'

def enomem : Int := 12

abbrev CString := { s : List Char // nul ∉ s }

structure VarName where
  chars : List Char
  ne_nil : chars ≠ []
  nul_notMem : nul ∉ chars
  eq_notMem : '=' ∉ chars
deriving DecidableEq

/-! ## Strings in memory -/

def strlen : List Char → Option Nat
  | [] => none
  | c :: rest => if c = nul then some 0 else (strlen rest).map (· + 1)

/-- The offset of the first `ch`; `strchr` returns NULL where the string ends first. -/
def strchr (ch : Char) : List Char → Option Nat
  | [] => none
  | c :: rest =>
    if c = ch then some 0 else if c = nul then none else (strchr ch rest).map (· + 1)

/-- The string that begins at offset `i`. -/
def stringAt (buf : List Char) (i : Nat) : Option (List Char) :=
  (strlen (buf.drop i)).map ((buf.drop i).take ·)

/-- The bytes of `buf` as far as they fit into `n`, and whatever the allocator left behind them. -/
def realloc (buf : List Char) (n : Nat) (fresh : Nat → Char) : List Char :=
  buf.take n ++ (List.range (n - buf.length)).map fresh

/-- `buf` with `bytes` stored from offset `i` on. -/
def sprintf (buf : List Char) (i : Nat) (bytes : List Char) : List Char :=
  buf.take i ++ bytes ++ buf.drop (i + bytes.length)

/-! ## The buffer -/

/-- `struct console_stdio_s`, as far as the variables go. -/
structure ConsoleStdio where
  varp : Option (List Char)
  varsz : Nat
deriving DecidableEq

namespace ConsoleStdio

def empty : ConsoleStdio := ⟨none, 0⟩

/-- The bytes at `varp`; none at NULL. -/
def bytes (p : ConsoleStdio) : List Char := p.varp.getD []

end ConsoleStdio

def nshCmpname : (pszname peqname : List Char) → Option Bool
  | _, [] => none
  | [], c :: _ => if c = nul then none else some (c = '=')
  | n :: name, c :: rest => if n = c then nshCmpname name rest else some false

/-- The loop of `nsh_findvar` from `ptr` on, at most `fuel` strings. -/
def nshFindvarFrom (buf : List Char) (varsz : Nat) (name : List Char) :
    (fuel ptr : Nat) → Option (Option Nat)
  | 0, ptr => if ptr < varsz then none else some none
  | fuel + 1, ptr =>
    if ptr < varsz then do
      if ← nshCmpname name (buf.drop ptr) then
        some (some ptr)
      else
        nshFindvarFrom buf varsz name fuel (ptr + ((← strlen (buf.drop ptr)) + 1))
    else
      some none

/-- Every string takes at least one byte, so that `varsz` strings are enough. -/
def nshFindvar (p : ConsoleStdio) (name : List Char) : Option (Option Nat) :=
  nshFindvarFrom p.bytes p.varsz name p.varsz 0

/-- `while (count-- > 0) *dest++ = *src++;` -/
def moveDown : (count dest src : Nat) → List Char → Option (List Char)
  | 0, _, _, buf => some buf
  | count + 1, dest, src, buf => do
    let c ← buf[src]?
    moveDown count (dest + 1) (src + 1) (buf.set dest c)

def nshRemovevar (p : ConsoleStdio) (pair : Nat) : Option (ConsoleStdio × Int) :=
  if pair < p.varsz then do
    let len := (← strlen (p.bytes.drop pair)) + 1
    let src := pair + len
    let buf ← moveDown (p.varsz - src) pair src p.bytes
    some ({ varp := p.varp.map fun _ => buf, varsz := p.varsz - len }, 0)
  else
    some (p, -1)

def nshGetvar (p : ConsoleStdio) (name : List Char) : Option (Option Nat) := do
  match ← nshFindvar p name with
  | none => some none
  | some pair =>
    let value ← strchr '=' (p.bytes.drop pair)
    some (some (pair + value + 1))

/-- What a caller reads at the place that `nsh_getvar` returned. -/
def valueOf (p : ConsoleStdio) (name : List Char) : Option (Option (List Char)) := do
  match ← nshGetvar p name with
  | none => some none
  | some i => (stringAt p.bytes i).map some

/-- The first part of `nsh_setvar`: a variable that exists already is taken out. -/
def removeFormer (p : ConsoleStdio) (name : List Char) : Option ConsoleStdio :=
  match p.varp with
  | none => some p
  | some _ => do
    match ← nshFindvar p name with
    | none => some p
    | some pair => (nshRemovevar p pair).map Prod.fst

/-- `alloc` is what `malloc` or `realloc` does: none where there is no memory, else what the new
bytes hold. -/
def nshSetvar (p : ConsoleStdio) (name value : List Char) (alloc : Option (Nat → Char)) :
    Option (ConsoleStdio × Int) := do
  let p ← removeFormer p name
  let varlen := name.length + value.length + 2
  match p.varp, alloc with
  | _, none => some (p, -enomem)
  | some buf, some fresh =>
    let newsize := p.varsz + varlen
    let newvarp := realloc buf newsize fresh
    some ({ varp := some (sprintf newvarp p.varsz (name ++ '=' :: value ++ [nul]))
            varsz := newsize }, 0)
  | none, some fresh =>
    let newvarp := (List.range varlen).map fresh
    some ({ varp := some (sprintf newvarp 0 (name ++ '=' :: value ++ [nul]))
            varsz := varlen }, 0)

def nshUnsetvar (p : ConsoleStdio) (name : List Char) (alloc : Option (Nat → Char)) :
    Option (ConsoleStdio × Int) := do
  match ← nshFindvar p name with
  | none => some (p, 0)
  | some pair =>
    let (p, _) ← nshRemovevar p pair
    let newsize := p.varsz
    if newsize = 0 then
      some ({ varp := none, varsz := 0 }, 0)
    else
      match alloc with
      | none => some (p, -enomem)
      | some fresh => some ({ p with varp := p.varp.map fun buf => realloc buf newsize fresh }, 0)

/-- The loop of `nsh_foreach_var` from `ptr` on, at most `fuel` strings. -/
def nshForeachVarFrom {β : Type} (buf : List Char) (varsz : Nat) (cb : β → List Char → β × Int) :
    (fuel ptr : Nat) → β → Option (β × Int)
  | 0, ptr, arg => if ptr < varsz then none else some (arg, 0)
  | fuel + 1, ptr, arg =>
    if ptr < varsz then do
      let (arg, ret) := cb arg (← stringAt buf ptr)
      if ret ≠ 0 then
        some (arg, ret)
      else
        nshForeachVarFrom buf varsz cb fuel (ptr + ((← strlen (buf.drop ptr)) + 1)) arg
    else
      some (arg, 0)

/-- The callback keeps what it needs in `arg`. -/
def nshForeachVar {β : Type} (p : ConsoleStdio) (cb : β → List Char → β × Int) (arg : β) :
    Option (β × Int) :=
  nshForeachVarFrom p.bytes p.varsz cb p.varsz 0 arg

end Gpmx.Nsh
