import Gpmx.Mmcsd.Driver
import Mathlib

/-!
# MMC/SD card

A card on the SPI bus, byte by byte: it takes commands for single blocks, and a block to be written only
after the start token for one block. Standard cards are addressed by bytes, high capacity cards by blocks.

* `Geometry` — the type of the card, its block length and its size
* `Card.byte` — what the card does with a byte, and the byte it sends at the same time
* `cardBus` — the bus with this card on it
-/

namespace Gpmx.Mmcsd

open Infra List

/-- A card of a type that the driver knows, small enough for its addresses and for `blockcount`. -/
structure Geometry where
  type : CardType
  blocklen : Nat
  blocks : Nat
  known : type = .CT_SD1 ∨ type = .CT_SD2 ∨ type = .CT_MMC ∨ type = .CT_SDHC
  blocklen_pos : 0 < blocklen
  blocklen_lt : blocklen < 2 ^ 16
  blocks_lt : blocks < 2 ^ 32
  highCapacity : type = .CT_SDHC → blocklen = 512
  standard : type ≠ .CT_SDHC → blocks * blocklen ≤ 2 ^ 32

inductive Phase where
  | idle
  /-- within a command -/
  | frame (bytes : List Byte)
  /-- bytes that are still to be sent; then a block is waited for that goes to an address -/
  | sending (queue : List Byte) (write : Option Nat)
  /-- waiting for the start token -/
  | token (start : Nat)
  /-- within a block and its checksum -/
  | data (start : Nat) (bytes : List Byte)
  /-- after something that is no start token -/
  | ignoring

structure Card where
  contents : Memory Byte
  phase : Phase

namespace Geometry

variable (g : Geometry)

/-- The address of block `b` in a command. -/
def unitAddr (b : Nat) : BitVec 32 :=
  if g.type = .CT_SDHC then BitVec.ofNat 32 b else BitVec.ofNat 32 (b * g.blocklen)

def start (arg : BitVec 32) : Option Nat :=
  if g.type = .CT_SDHC then if arg.toNat < g.blocks then some (arg.toNat * g.blocklen) else none
  else if arg.toNat % g.blocklen = 0 ∧ arg.toNat / g.blocklen < g.blocks then some arg.toNat
  else none

end Geometry

def Phase.after : List Byte → Option Nat → Phase
  | [], none => .idle
  | [], some start => .token start
  | b :: rest, write => .sending (b :: rest) write

variable (g : Geometry)

def Card.command (c : Card) (frame : List Byte) : Phase :=
  let idx := frame.headD 0
  let arg := bigEndian (frame.drop 1)
  if idx = CMD17 then
    match g.start arg with
    | some start => .sending ([0x00, 0xfe] ++ c.contents.read start g.blocklen ++ [0xff, 0xff]) none
    | none => .sending [0x40] none
  else if idx = CMD24 then
    match g.start arg with
    | some start => .sending [0x00] (some start)
    | none => .sending [0x40] none
  else .sending [0x04] none

def Card.byte (c : Card) (mosi : Byte) : Card × Byte :=
  match c.phase with
  | .idle => if mosi &&& 0xc0 = 0x40 then ({ c with phase := .frame [mosi] }, 0xff) else (c, 0xff)
  | .frame bytes =>
    let bytes := bytes ++ [mosi]
    if bytes.length = 6 then ({ c with phase := c.command g bytes }, 0xff)
    else ({ c with phase := .frame bytes }, 0xff)
  | .sending queue write => ({ c with phase := .after queue.tail write }, queue.headD 0xff)
  | .token start =>
    if mosi = 0xfe then ({ c with phase := .data start [] }, 0xff)
    else if mosi = 0xff then (c, 0xff)
    else ({ c with phase := .ignoring }, 0xff)
  | .data start bytes =>
    let bytes := bytes ++ [mosi]
    if bytes.length = g.blocklen + 2 then
      ({ c with
          contents := c.contents.write start (bytes.take g.blocklen)
          phase := .sending [0x05] none }, 0xff)
    else ({ c with phase := .data start bytes }, 0xff)
  | .ignoring => (c, 0xff)

def Card.exchange (c : Card) : List Byte → Card × List Byte
  | [] => (c, [])
  | mosi :: rest =>
    let r := c.byte g mosi
    let r' := Card.exchange r.1 rest
    (r'.1, r.2 :: r'.2)

def cardBus : Bus Card where
  select c on := if on then c else { c with phase := .idle }
  sndblock c bytes := (SMBUS_OK, (c.exchange g bytes).1)
  exchangeblock c n :=
    let r := c.exchange g (List.replicate n 0xff)
    (SMBUS_OK, r.2, r.1)
  boardGetTime c := (0, c)

/-! ## Exchanges -/

section Exchange

variable {g} {c : Card} {m : Memory Byte}

theorem exchange_cons (c : Card) (mosi : Byte) (rest : List Byte) : c.exchange g (mosi :: rest) =
    (((c.byte g mosi).1.exchange g rest).1, (c.byte g mosi).2 :: ((c.byte g mosi).1.exchange g rest).2) := rfl

theorem exchange_sending (queue tail : List Byte) (write : Option Nat) (bytes : List Byte)
    (hlen : bytes.length = queue.length) (hne : queue ≠ []) :
    (⟨m, .sending (queue ++ tail) write⟩ : Card).exchange g bytes = (⟨m, .after tail write⟩, queue) := by
  induction queue generalizing bytes with
  | nil => exact absurd rfl hne
  | cons b queue ih =>
    cases bytes with
    | nil => cases hlen
    | cons mosi bytes =>
      rw [exchange_cons]
      cases queue with
      | nil =>
        cases bytes with
        | nil => rfl
        | cons _ _ => cases hlen
      | cons b' queue =>
        have hrest := ih bytes (Nat.succ.inj hlen) (cons_ne_nil b' queue)
        have hphase : (⟨m, .sending (b :: b' :: queue ++ tail) write⟩ : Card).byte g mosi =
            (⟨m, .sending (b' :: queue ++ tail) write⟩, b) := rfl
        rw [hphase]
        rw [hrest]

theorem exchange_data (start : Nat) (before bytes : List Byte)
    (hlen : before.length + bytes.length < g.blocklen + 2) :
    ((⟨m, .data start before⟩ : Card).exchange g bytes).1 = ⟨m, .data start (before ++ bytes)⟩ := by
  induction bytes generalizing before with
  | nil =>
    rw [append_nil]
    rfl
  | cons b bytes ih =>
    rw [length_cons] at hlen
    have hbyte : (⟨m, .data start before⟩ : Card).byte g b = (⟨m, .data start (before ++ [b])⟩, 0xff) := by
      refine if_neg ?_
      rw [length_append, length_singleton]
      omega
    have hrest := ih (before ++ [b]) (by rw [length_append, length_singleton]; omega)
    rw [append_assoc, singleton_append] at hrest
    rw [exchange_cons, hbyte]
    exact hrest

theorem exchange_ignoring (bytes : List Byte) :
    (⟨m, .ignoring⟩ : Card).exchange g bytes = (⟨m, .ignoring⟩, List.replicate bytes.length 0xff) := by
  induction bytes with
  | nil => rfl
  | cons b bytes ih =>
    have hbyte : (⟨m, .ignoring⟩ : Card).byte g b = (⟨m, .ignoring⟩, 0xff) := rfl
    rw [exchange_cons, hbyte]
    rw [ih]
    rfl

theorem exchange_block (start : Nat) (bytes : List Byte) (hlen : bytes.length = g.blocklen) :
    let c := ((⟨m, .data start []⟩ : Card).exchange g bytes).1
    c.exchange g (List.replicate 2 0xff) = (⟨m.write start bytes, .sending [0x05] none⟩, [0xff, 0xff]) := by
  intro c
  have hc : c = ⟨m, .data start bytes⟩ := exchange_data start [] bytes (by simp [hlen])
  rw [hc]
  have hfirst : (⟨m, .data start bytes⟩ : Card).byte g 0xff = (⟨m, .data start (bytes ++ [0xff])⟩, 0xff) := by
    refine if_neg ?_
    rw [length_append, length_singleton, hlen]
    omega
  have hsecond : (⟨m, .data start (bytes ++ [0xff])⟩ : Card).byte g 0xff =
      (⟨m.write start bytes, .sending [0x05] none⟩, 0xff) := by
    refine (if_pos ?_).trans ?_
    · simp only [length_append, length_singleton, hlen]
    · rw [append_assoc, take_append_of_le_length (by omega), take_of_length_le (by omega)]
  show ((⟨m, .data start bytes⟩ : Card).exchange g [0xff, 0xff]) = _
  rw [exchange_cons, hfirst]
  rw [exchange_cons, hsecond]
  rfl

theorem frame_eq (idx : Byte) (arg : BitVec 32) : frame idx arg =
    [idx, arg.extractLsb' 24 8, arg.extractLsb' 16 8, arg.extractLsb' 8 8, arg.extractLsb' 0 8, crcOf idx] := by
  have hbyte (i : Nat) (hi : i < 4) := extract_bswap32 arg hi
  have h0 := hbyte 0 (by decide)
  have h1 := hbyte 1 (by decide)
  have h2 := hbyte 2 (by decide)
  have h3 := hbyte 3 (by decide)
  simp only [Nat.mul_zero, Nat.mul_one, Nat.reduceMul, Nat.reduceSub] at h0 h1 h2 h3
  unfold frame Store.word
  simp only [h0, h1, h2, h3, cons_append, nil_append]

theorem exchange_frame (idx : Byte) (arg : BitVec 32) (hidx : idx &&& 0xc0 = 0x40) :
    ((⟨m, .idle⟩ : Card).exchange g (frame idx arg)).1 =
      ⟨m, (⟨m, .idle⟩ : Card).command g (frame idx arg)⟩ := by
  have hfirst : (⟨m, .idle⟩ : Card).byte g idx = (⟨m, .frame [idx]⟩, 0xff) := if_pos hidx
  rw [frame_eq, exchange_cons, hfirst]
  rfl

theorem arg_frame (idx : Byte) (arg : BitVec 32) : bigEndian ((frame idx arg).drop 1) = arg := by
  rw [frame_eq]
  show arg.extractLsb' 24 8 ++ arg.extractLsb' 16 8 ++ arg.extractLsb' 8 8 ++ arg.extractLsb' 0 8 = arg
  apply BitVec.eq_of_getLsbD_eq
  intro i hi
  simp only [BitVec.getLsbD_append, BitVec.getLsbD_extractLsb']
  interval_cases i <;> simp

end Exchange

end Gpmx.Mmcsd
