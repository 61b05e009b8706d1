import Gpmx.Infra.Runs
import Gpmx.Ymodem.Delivery
import Gpmx.Ymodem.Transfer

/-!
# A line that repeats, loses and damages frames

The receiver is waiting for the packets of a file, and frames of it arrive: in any order, any number
of times, and some with one bit the other way. `Sound` says which arrivals the receiver can cope with,
and `packets_in_order` that all goes well as long as they are such. The other arrivals are

* a packet whose number has a bit set by mistake, so that it is the number to come;
* a packet that has the number to come, but is another one: numbers begin again after 255, and 255 is
  taken where nothing has arrived yet;
* a packet that was accepted and comes again, which is not acknowledged a second time;
* a packet of the other length, in which the receiver takes a byte for the beginning of a frame.
-/

namespace Gpmx.Ymodem

open Infra List

def number (index : Nat) : Nat := index % 255 + 1

def block (content : Bytes) (index : Nat) : Bytes := (content.drop (1024 * index)).take 1024

def dataFrame (content : Bytes) (index : Nat) : Bytes :=
  packet (number index) (block content index) false

structure Arrival where
  index : Nat
  flip : Option (Nat × Fin 8)
  pieces : List Bytes
  deriving DecidableEq

def Arrival.frame (content : Bytes) (a : Arrival) : Bytes :=
  match a.flip with
  | none => dataFrame content a.index
  | some (i, b) => flipAt i b (dataFrame content a.index)

/-- A packet of the file, with no more than one bit the other way, and none in the first byte. -/
structure Arrival.Valid (content : Bytes) (a : Arrival) : Prop where
  index : a.index < (blocks content).length
  flip : ∀ i b, a.flip = some (i, b) → 1 ≤ i ∧ i < (dataFrame content a.index).length
  pieces : a.pieces.flatten = a.frame content

structure Line where
  receiver : Receiver
  last : Option Nat

namespace Line

def step (l : Line) (a : Arrival) : Option Line :=
  if l.receiver.state = .rcvPayload then
    let receiver := a.pieces.foldl Receiver.rxProcess l.receiver
    some
      { receiver
        last := if receiver.calledBack.length > l.receiver.calledBack.length then some a.index
          else l.last }
  else none

structure Ready (content : Bytes) (l : Line) : Prop where
  state : l.receiver.state = .rcvPayload
  nbyte : l.receiver.proto.nbyte = 0
  fsize : l.receiver.fsize = content.length
  fsizeCal : l.receiver.fsizeCal = 0
  seqLst : l.receiver.seqLst = 0
  calledBack : l.receiver.calledBack = []
  last : l.last = none

/-- What was handed on is the beginning of the file, packet by packet. -/
def InOrder (content : Bytes) (l : Line) : Prop :=
  l.receiver.calledBack.map Prod.snd <+: blocks content

def Again (l : Line) (a : Arrival) : Prop := a.flip = none ∧ l.last = some a.index

def AckedAgain (content : Bytes) (l : Line) : Prop :=
  ∀ a l', a.Valid content → l.Again a → l.step a = some l' →
    l'.receiver.sent = l.receiver.sent ++ [ACK]

end Line

def Successor (lst seq : UInt8) : Prop :=
  (seq.toNat : Int) - lst.toNat = 1 ∨ seq = 0xff ∧ lst = 0x00

instance (lst seq : UInt8) : Decidable (Successor lst seq) := inferInstanceAs (Decidable (_ ∨ _))

structure Sound (content : Bytes) (l : Line) (a : Arrival) : Prop where
  length : l.receiver.packType = kind (block content a.index).length ∨
    l.receiver.packType.header ∉ a.frame content
  renumbered : ∀ b, a.flip = some (1, b) → (number a.index).testBit b.val = false →
    ¬Successor l.receiver.seqLst (flipBit b (UInt8.ofNat (number a.index)))
  other : a.flip = none ∨ (∃ b, a.flip = some (2, b) ∧ (number a.index).testBit b.val = true) →
    a.index ≠ l.receiver.calledBack.length →
    ¬Successor l.receiver.seqLst (UInt8.ofNat (number a.index))
  again : ¬l.Again a

/-! ## Packets and frames -/

theorem getElem?_blocks (content : Bytes) (i : Nat) : (blocks content)[i]? =
    if 1024 * i < content.length then some (block content i) else none := by
  induction i generalizing content with
  | zero =>
    rw [blocks]
    by_cases hnil : content = []
    · simp [hnil]
    · have hpos := length_pos_iff.mpr hnil
      simp [hnil, block]
  | succ i ih =>
    rw [blocks]
    by_cases hnil : content = []
    · simp [hnil]
    · rw [if_neg hnil, getElem?_cons_succ, ih, length_drop]
      have hblock : block (content.drop 1024) i = block content (i + 1) := by
        unfold block
        rw [drop_drop, Nat.mul_succ, Nat.add_comm]
      have hiff : 1024 * i < content.length - 1024 ↔ 1024 * (i + 1) < content.length := by omega
      simp only [hblock, hiff]

variable {content : Bytes} {i : Nat} {proto : Parse} {l : Line}

theorem lt_length_blocks : i < (blocks content).length ↔ 1024 * i < content.length := by
  rw [← not_iff_not, not_lt, ← getElem?_eq_none_iff, getElem?_blocks]
  simp

theorem take_succ_blocks {k : Nat} (h : k < (blocks content).length) :
    (blocks content).take (k + 1) = (blocks content).take k ++ [block content k] := by
  have hget := getElem?_blocks content k
  rw [if_pos (lt_length_blocks.mp h)] at hget
  rw [take_add_one, hget]
  rfl

theorem length_block_le (content : Bytes) (i : Nat) : (block content i).length ≤ 1024 :=
  length_take_le _ _

theorem isFrame_dataFrame (content : Bytes) (i : Nat) :
    IsFrame (kind (block content i).length) (dataFrame content i) :=
  isFrame_packet _ _ (length_block_le content i)

theorem dataFrame_head (content : Bytes) (i : Nat) :
    (dataFrame content i)[1]? = some (UInt8.ofNat (number i)) ∧
      (dataFrame content i)[2]? = some (UInt8.ofNat (255 - number i)) := by
  have hlt : number i % 256 = number i := Nat.mod_eq_of_lt (by unfold number; omega)
  unfold dataFrame
  rw [packet_eq, hlt]
  exact ⟨rfl, rfl⟩

theorem take_drop_dataFrame (content : Bytes) (i : Nat) :
    ((dataFrame content i).drop headlen).take (block content i).length = block content i := by
  unfold dataFrame
  rw [packet_eq]
  simp [headlen, body]

section Frame

variable {content : Bytes} {a : Arrival}

theorem Arrival.Valid.framed (h : a.Valid content) :
    Framed (kind (block content a.index).length) (a.frame content) := by
  have hframe := (isFrame_dataFrame content a.index).framed
  unfold Arrival.frame
  cases hflip : a.flip with
  | none => exact hframe
  | some ib =>
    obtain ⟨i, b⟩ := ib
    have hi := (h.flip i b hflip).1
    exact ⟨hframe.type_ne, by simpa using hframe.length, by simpa [head_flipAt b hi] using hframe.header⟩

theorem Arrival.Valid.intact (h : a.Valid content)
    (hcrc : crc16Xmodem ((a.frame content).drop headlen) = 0#16) :
    (a.frame content).drop headlen = (dataFrame content a.index).drop headlen := by
  unfold Arrival.frame at hcrc ⊢
  cases hflip : a.flip with
  | none => rfl
  | some ib =>
    obtain ⟨i, b⟩ := ib
    rw [hflip] at hcrc
    by_cases hi : i < headlen
    · exact drop_flipAt_of_lt b hi
    · exact absurd hcrc (crc_flipAt (Nat.le_of_not_lt hi) (h.flip i b hflip).2
        (isFrame_dataFrame content a.index).crc)

theorem Arrival.Valid.numbers (h : a.Valid content)
    (hcrc : crc16Xmodem ((a.frame content).drop headlen) = 0#16) {seq seqXor : UInt8}
    (hseq : (a.frame content)[1]? = some seq) (hseqXor : (a.frame content)[2]? = some seqXor) :
    (∃ b, a.flip = some (1, b) ∧ seq = flipBit b (UInt8.ofNat (number a.index)) ∧
      seqXor = UInt8.ofNat (255 - number a.index)) ∨
    seq = UInt8.ofNat (number a.index) ∧
      (a.flip = none ∨ ∃ b, a.flip = some (2, b) ∧
        seqXor = flipBit b (UInt8.ofNat (255 - number a.index))) := by
  obtain ⟨hone, htwo⟩ := dataFrame_head content a.index
  unfold Arrival.frame at *
  cases hflip : a.flip with
  | none =>
    simp only [hflip, hone, Option.some.injEq] at hseq
    exact .inr ⟨hseq.symm, .inl rfl⟩
  | some ib =>
    obtain ⟨i, b⟩ := ib
    obtain ⟨hpos, hlt⟩ := h.flip i b hflip
    simp only [hflip] at hcrc hseq hseqXor
    by_cases hi : headlen ≤ i
    · exact absurd hcrc (crc_flipAt hi hlt (isFrame_dataFrame content a.index).crc)
    · obtain rfl | rfl : i = 1 ∨ i = 2 := by
        unfold headlen at hi
        omega
      · rw [getElem?_flipAt b (by decide), htwo] at hseqXor
        refine .inl ⟨b, rfl, ?_, (Option.some.inj hseqXor).symm⟩
        simpa [flipAt, hone] using hseq.symm
      · rw [getElem?_flipAt b (by decide), hone] at hseq
        refine .inr ⟨(Option.some.inj hseq).symm, .inr ⟨b, rfl, ?_⟩⟩
        simpa [flipAt, htwo] using hseqXor.symm

end Frame

/-! ## A frame of the other length -/

theorem Parse.buffLoop_skip {type : PackType} (htype : type ≠ .eot) {p : Bytes}
    (hp : type.header ∉ p) : ∀ {ret : Int} {msg : Parse}, ret ≠ 0 → msg.nbyte = 0 →
    ∃ ret' msg', Parse.buffLoop type ret msg p = (ret', msg') ∧ ret' ≠ 0 ∧ msg'.nbyte = 0 := by
  induction p with
  | nil => exact fun hret hmsg => ⟨_, _, rfl, hret, hmsg⟩
  | cons c p ih =>
    intro ret msg hret hmsg
    rw [mem_cons, not_or] at hp
    obtain ⟨hc, hp⟩ := hp
    have hstep : msg.parser type c = (-1, msg) := by
      cases type with
      | eot => exact absurd rfl htype
      | soh | stx => simp [Parse.parser, Parse.dframe, hmsg, Ne.symm hc]
    rw [Parse.buffLoop, hstep]
    exact ih hp (by decide) rfl

theorem Receiver.packType_ne_eot {r : Receiver} (h : r.state = .rcvPayload) : r.packType ≠ .eot := by
  unfold packType
  rw [h]
  dsimp only
  split <;> decide

theorem Receiver.foldl_rxProcess_skip {pieces : List Bytes} : ∀ {r : Receiver},
    r.state = .rcvPayload → r.proto.nbyte = 0 → r.packType.header ∉ pieces.flatten →
    ∃ proto, proto.nbyte = 0 ∧ pieces.foldl rxProcess r = { r with proto } := by
  induction pieces with
  | nil => exact fun {r} _ hnbyte _ => ⟨r.proto, hnbyte, rfl⟩
  | cons p pieces ih =>
    intro r hstate hnbyte hp
    rw [flatten_cons, mem_append, not_or] at hp
    have hlistening : r.Listening := by
      rw [Listening, hstate]
      decide
    obtain ⟨ret, proto, hloop, hret, hzero⟩ := Parse.buffLoop_skip (packType_ne_eot hstate) hp.1
      (show (0xff : Int) ≠ 0 by decide) hnbyte
    have hfirst : r.rxProcess p = { r with proto } := by
      rw [hlistening.rxProcess_eq]
      unfold Parse.parserBuff
      rw [hloop, if_neg hret]
    rw [foldl_cons, hfirst]
    exact ih (r := { r with proto }) hstate hzero hp.2

/-! ## An arrival -/

/-- `k` packets have arrived. -/
structure Going (content : Bytes) (k : Nat) (l : Line) : Prop where
  le : k ≤ (blocks content).length
  nbyte : l.receiver.proto.nbyte = 0
  fsize : l.receiver.fsize = content.length
  seqLst : l.receiver.seqLst.toNat = k
  calledBack : l.receiver.calledBack.map Prod.snd = (blocks content).take k
  fsizeCal : l.receiver.state = .rcvPayload → l.receiver.fsizeCal = 1024 * k

inductive Outcome (content : Bytes) (k : Nat) (l : Line) (a : Arrival) (l' : Line) : Prop
  | dropped (h : Going content k l') (hsent : l'.receiver.sent = l.receiver.sent)
      (hlast : l'.last = l.last) : Outcome content k l a l'
  | accepted (hindex : a.index = k) (h : Going content (k + 1) l')
      (hsent : l'.receiver.sent = l.receiver.sent ++ [ACK]) (hlast : l'.last = some k)
      (hmore : 1024 * (k + 1) < content.length → l'.receiver.state = .rcvPayload) :
      Outcome content k l a l'

section Step

variable {content : Bytes} {k : Nat} {l l' : Line} {a : Arrival}

theorem Going.count (h : Going content k l) : l.receiver.calledBack.length = k := by
  have hlen := congrArg List.length h.calledBack
  rw [length_map, length_take] at hlen
  have hle := h.le
  omega

theorem Line.step_eq (hstep : l.step a = some l') : l.receiver.state = .rcvPayload ∧
    l' = { receiver := a.pieces.foldl Receiver.rxProcess l.receiver
           last := if (a.pieces.foldl Receiver.rxProcess l.receiver).calledBack.length >
             l.receiver.calledBack.length then some a.index else l.last } := by
  unfold Line.step at hstep
  split at hstep
  · rename_i hstate
    exact ⟨hstate, (Option.some.inj hstep).symm⟩
  · cases hstep

theorem Going.dropped (h : Going content k l) (hstep : l.step a = some l')
    (hproto : proto.nbyte = 0)
    (hfold : a.pieces.foldl Receiver.rxProcess l.receiver = { l.receiver with proto }) :
    Outcome content k l a l' := by
  obtain ⟨hstate, rfl⟩ := Line.step_eq hstep
  rw [hfold]
  refine .dropped ?_ rfl ?_
  · exact ⟨h.le, hproto, h.fsize, h.seqLst, h.calledBack, h.fsizeCal⟩
  · simp

theorem number_of_successor {lst : UInt8} (hlst : lst.toNat = k)
    (h : Successor lst (UInt8.ofNat (number k))) : k < 255 := by
  have hnum : (UInt8.ofNat (number k)).toNat = k % 255 + 1 := by
    rw [UInt8.toNat_ofNat', number]
    omega
  rcases h with hnext | ⟨hmax, hzero⟩
  · rw [hnum] at hnext
    omega
  · rw [hmax] at hnum
    rw [hzero] at hlst
    have h255 : (0xff : UInt8).toNat = 255 := rfl
    have hnil : (0x00 : UInt8).toNat = 0 := rfl
    omega

theorem Sound.next (hs : Sound content l a) (hv : a.Valid content)
    (hproto : proto.Complete (a.frame content))
    (hcrc : crc16Xmodem ((a.frame content).drop headlen) = 0#16)
    (hin : Receiver.InSequence { l.receiver with proto }) :
    a.index = l.receiver.calledBack.length ∧ proto.seq = UInt8.ofNat (number a.index) ∧
      Successor l.receiver.seqLst (UInt8.ofNat (number a.index)) := by
  obtain ⟨hor, hsucc⟩ := hin
  have hlt : number a.index < 256 := by
    unfold number
    omega
  have hlong : 2 < (a.frame content).length := by
    rw [hv.framed.length]
    unfold nonpayloadlen
    omega
  have hone := getElem?_eq_getElem (show 1 < (a.frame content).length by omega)
  have htwo := getElem?_eq_getElem hlong
  have hnumbers := hv.numbers hcrc hone htwo
  rw [← hproto.seq _ hone, ← hproto.seqXor _ htwo] at hnumbers
  obtain ⟨b, hflip, hseq, hxor⟩ | ⟨hseq, hflip⟩ := hnumbers
  · rw [hseq, hxor] at hor
    rw [hseq] at hsucc
    cases hbit : (number a.index).testBit b.val with
    | true => exact absurd hor (flipBit_or_complement _ hlt b hbit)
    | false => exact absurd hsucc (hs.renumbered b hflip hbit)
  · have hplausible : a.flip = none ∨
        ∃ b, a.flip = some (2, b) ∧ (number a.index).testBit b.val = true := by
      rcases hflip with hflip | ⟨b, hflip, hxor⟩
      · exact .inl hflip
      · rw [hseq, hxor] at hor
        cases hbit : (number a.index).testBit b.val with
        | true => exact .inr ⟨b, hflip, hbit⟩
        | false => exact absurd hor (or_flipBit_complement _ hlt b hbit)
    rw [hseq] at hsucc
    refine ⟨?_, hseq, hsucc⟩
    by_contra hother
    exact hs.other hplausible hother hsucc

theorem Going.accepted (h : Going content k l) (hv : a.Valid content) (hstep : l.step a = some l')
    (hproto : proto.Complete (a.frame content)) (hindex : a.index = k)
    (hseq : proto.seq = UInt8.ofNat (number k)) (hk : k < 255)
    (hkind : l.receiver.packType = kind (block content k).length)
    (hcrc : crc16Xmodem ((a.frame content).drop headlen) = 0#16)
    (hin : Receiver.InSequence { l.receiver with proto })
    (hfold : a.pieces.foldl Receiver.rxProcess l.receiver = { l.receiver with proto }.accept l.receiver.packType) :
    Outcome content k l a l' := by
  obtain ⟨hstate, rfl⟩ := Line.step_eq hstep
  subst hindex
  have hmore := lt_length_blocks.mp hv.index
  have hpackLen := rcvPackLen_eq hmore
  have hcal : (1024 * a.index + (kind (block content a.index).length).payloadLen) % 2 ^ 32 =
      1024 * a.index + (kind (block content a.index).length).payloadLen := by
    refine Nat.mod_eq_of_lt ?_
    have hpayload : (kind (block content a.index).length).payloadLen ≤ 1024 := by
      unfold kind
      split <;> decide
    omega
  have hread : proto.read headlen (block content a.index).length = block content a.index := by
    have hlong : headlen + (block content a.index).length ≤ (a.frame content).length := by
      have hle := length_block_le content a.index
      rw [hv.framed.length]
      unfold headlen nonpayloadlen kind
      split
      · show _ ≤ 5 + 1024
        omega
      · show _ ≤ 5 + 128
        omega
    rw [hproto.toContains.read_eq hlong, hv.intact hcrc, take_drop_dataFrame]
  rw [Receiver.accept_rcvPayload (r := { l.receiver with proto }) hstate, hin.acceptPayload_eq,
    hkind] at hfold
  rw [h.fsizeCal hstate, h.fsize, hcal] at hfold
  unfold block at hread hfold
  rw [hpackLen, hread] at hfold
  rw [hfold]
  have hnum : (UInt8.ofNat (number a.index)).toNat = a.index + 1 := by
    rw [UInt8.toNat_ofNat', number]
    omega
  refine .accepted rfl ⟨hv.index, hproto.nbyte, rfl, ?_, ?_, ?_⟩ rfl ?_ ?_
  · simp only [hseq, hnum]
  · rw [map_append, h.calledBack, take_succ_blocks hv.index]
    rfl
  · -- more is to come only behind a full packet
    intro hgoing
    dsimp only at hgoing ⊢
    split at hgoing
    · cases hgoing
    · rename_i hnot
      unfold kind at hnot ⊢
      rw [length_take, length_drop] at *
      split at hnot
      · rename_i hbig
        rw [if_pos hbig]
        rfl
      · have h128 : PackType.soh.payloadLen = 128 := rfl
        omega
  · simp
  · intro hnext
    have hbig : (kind ((content.drop (1024 * a.index)).take 1024).length).payloadLen = 1024 := by
      unfold kind
      rw [length_take, length_drop, if_pos (by omega)]
      rfl
    rw [hbig, if_neg (by omega), hstate]

theorem Going.looked_at (h : Going content k l) (hv : a.Valid content)
    (hkind : l.receiver.packType = kind (block content a.index).length)
    (hstate : l.receiver.state = .rcvPayload) :
    ∃ proto, proto.Complete (a.frame content) ∧ a.pieces.foldl Receiver.rxProcess l.receiver =
      if crc16Xmodem ((a.frame content).drop headlen) = 0#16 ∧
          Receiver.InSequence { l.receiver with proto } then
        { l.receiver with proto }.accept l.receiver.packType
      else { l.receiver with proto } := by
  have hframed := hv.framed
  have hne : a.pieces.flatten ≠ [] := by
    rw [hv.pieces, ← length_pos_iff, hframed.length]
    unfold nonpayloadlen
    omega
  rw [← hkind] at hframed
  obtain ⟨proto, hproto, hfold⟩ := Receiver.foldl_rxProcess_framed
    (by rw [Receiver.Listening, hstate]; decide) hframed (Parse.holds_nil h.nbyte)
    (by rw [nil_append, hv.pieces]) hne
  refine ⟨proto, hproto, ?_⟩
  rw [hfold]
  by_cases hcrc : crc16Xmodem ((a.frame content).drop headlen) = 0#16
  · by_cases hin : Receiver.InSequence { l.receiver with proto }
    · rw [if_pos hcrc, if_pos ⟨hcrc, hin⟩]
    · rw [if_pos hcrc, if_neg (fun hboth => hin hboth.2),
        Receiver.accept_rcvPayload (r := { l.receiver with proto }) hstate]
      unfold Receiver.acceptPayload
      rw [if_neg hin]
  · rw [if_neg hcrc, if_neg (fun hboth => hcrc hboth.1)]

/-- **An arrival that the receiver can cope with** is dropped, or it is the next packet. -/
theorem Going.step (h : Going content k l) (hv : a.Valid content) (hs : Sound content l a)
    (hstep : l.step a = some l') : Outcome content k l a l' := by
  by_cases hkind : l.receiver.packType = kind (block content a.index).length
  · obtain ⟨proto, hproto, hfold⟩ := h.looked_at hv hkind (Line.step_eq hstep).1
    split at hfold
    · rename_i hboth
      obtain ⟨hcrc, hin⟩ := hboth
      obtain ⟨hindex, hseq, hsucc⟩ := hs.next hv hproto hcrc hin
      rw [h.count] at hindex
      rw [hindex] at hseq hsucc hkind
      exact h.accepted hv hstep hproto hindex hseq (number_of_successor h.seqLst hsucc) hkind hcrc
        hin hfold
    · exact h.dropped hstep hproto.nbyte hfold
  · have hskip := hs.length.resolve_left hkind
    rw [← hv.pieces] at hskip
    obtain ⟨proto, hproto, hfold⟩ :=
      Receiver.foldl_rxProcess_skip (Line.step_eq hstep).1 h.nbyte hskip
    exact h.dropped hstep hproto hfold

theorem Going.again_unanswered (h : Going content (a.index + 1) l) (hv : a.Valid content)
    (hkind : l.receiver.packType = kind (block content a.index).length) (hflip : a.flip = none)
    (hstep : l.step a = some l') : l'.receiver.sent = l.receiver.sent := by
  obtain ⟨hstate, rfl⟩ := Line.step_eq hstep
  obtain ⟨proto, hproto, hfold⟩ := h.looked_at hv hkind hstate
  rw [hfold, if_neg]
  -- its number is the last one, not the next
  rintro ⟨-, -, hsucc⟩
  have hframe : a.frame content = dataFrame content a.index := by
    unfold Arrival.frame
    rw [hflip]
  have hseq := hproto.seq _ (hframe ▸ (dataFrame_head content a.index).1)
  have hlst := h.seqLst
  have hlt := l.receiver.seqLst.toNat_lt
  have hnum : (UInt8.ofNat (number a.index)).toNat = a.index + 1 := by
    rw [UInt8.toNat_ofNat', number]
    omega
  rw [hseq, hnum, hlst] at hsucc
  rcases hsucc with hnext | ⟨-, hzero⟩
  · omega
  · rw [hzero] at hlst
    cases hlst

end Step

/-! ## Runs -/

def Arrives (content : Bytes) (l : Line) (a : Arrival) : Prop := a.Valid content ∧ Sound content l a

theorem Line.Ready.going (h : l.Ready content) : Going content 0 l where
  le := Nat.zero_le _
  nbyte := h.nbyte
  fsize := h.fsize
  seqLst := by rw [h.seqLst]; rfl
  calledBack := by rw [h.calledBack]; rfl
  fsizeCal _ := h.fsizeCal

theorem going_of_reaches {l' : Line} (hready : l.Ready content)
    (hrun : Reaches Line.step (Arrives content) l l') : ∃ k, Going content k l' := by
  refine hrun.invariant (P := fun m => ∃ k, Going content k m) ⟨0, hready.going⟩ ?_
  rintro m a m' ⟨k, hgoing⟩ ⟨hv, hs⟩ hstep
  cases hgoing.step hv hs hstep with
  | dropped h _ _ => exact ⟨k, h⟩
  | accepted _ h _ _ _ => exact ⟨k + 1, h⟩

/--
**As long as the receiver can cope with what arrives**, it hands on the packets of the file in their
order, each of them once.
-/
theorem packets_in_order {content : Bytes} {l l' : Line} (hready : l.Ready content)
    (hrun : Reaches Line.step (Arrives content) l l') :
    l'.InOrder content ∧
      ∀ a l'', Arrives content l' a → l'.Again a → l'.step a = some l'' →
        l''.receiver.sent = l'.receiver.sent ++ [ACK] := by
  obtain ⟨k, hgoing⟩ := going_of_reaches hready hrun
  constructor
  · unfold Line.InOrder
    rw [hgoing.calledBack]
    exact take_prefix k _
  · intro a l'' ha hagain
    exact absurd hagain ha.2.again

/-! ## Two arrivals that go wrong, and one that does not -/

def waiting (content : Bytes) : Line where
  receiver :=
    { state := .rcvPayload, proto := protoClear, fname := [], fsize := content.length, fsizeCal := 0
      seqLst := 0, seqTotal := 0, sent := [], calledBack := [] }
  last := none

theorem waiting_ready (content : Bytes) : (waiting content).Ready content :=
  ⟨rfl, rfl, rfl, rfl, rfl, rfl, rfl⟩

def intact (content : Bytes) (index : Nat) : Arrival := ⟨index, none, [dataFrame content index]⟩

theorem intact_valid (h : 1024 * i < content.length) :
    (intact content i).Valid content where
  index := lt_length_blocks.mpr h
  flip := by simp [intact]
  pieces := by simp [intact, Arrival.frame]

theorem Going.next_intact {k : Nat} (h : Going content k l)
    (hstate : l.receiver.state = .rcvPayload) (hk : k < 255) (hmore : 1024 * k < content.length)
    (hlen : content.length < 2 ^ 32) :
    ∃ l', l.step (intact content k) = some l' ∧ Going content (k + 1) l' ∧ l'.last = some k ∧
      (1024 * (k + 1) < content.length → l'.receiver.state = .rcvPayload) := by
  have hv := intact_valid hmore
  have hkind : l.receiver.packType = kind (block content k).length :=
    Receiver.packType_eq hstate h.fsize (h.fsizeCal hstate) hmore hlen
  obtain ⟨proto, hproto, hfold⟩ := h.looked_at hv hkind hstate
  have hcrc := (isFrame_dataFrame content k).crc
  have hseq := hproto.seq _ (dataFrame_head content k).1
  have hxor := hproto.seqXor _ (dataFrame_head content k).2
  have hnumber : number k = k + 1 := by
    unfold number
    omega
  have hin : Receiver.InSequence { l.receiver with proto } := by
    constructor
    · show proto.seq ||| proto.seqXor = 0xff
      rw [hseq, hxor]
      exact or_complement _ (by omega)
    · show Successor l.receiver.seqLst proto.seq
      rw [hseq, hnumber]
      refine .inl ?_
      rw [UInt8.toNat_ofNat', h.seqLst]
      omega
  rw [if_pos ⟨hcrc, hin⟩] at hfold
  have hstep : l.step (intact content k) = some _ := if_pos hstate
  cases h.accepted hv hstep hproto rfl hseq hk hkind hcrc hin hfold with
  | dropped hsame _ _ =>
    -- the packet was handed on, so one more is there
    exfalso
    have hcount := hsame.count
    rw [hfold, Receiver.accept_rcvPayload (r := { l.receiver with proto }) hstate,
      hin.acceptPayload_eq] at hcount
    simp [h.count] at hcount
  | accepted _ hnext _ hlast hmore => exact ⟨_, hstep, hnext, hlast, hmore⟩

theorem packets_in_order_two :
    ∃ l', Reaches Line.step (Arrives [0x68, 0x69]) (waiting [0x68, 0x69]) l' ∧
      l'.receiver.calledBack.map Prod.snd = [[0x68, 0x69]] ∧ l'.InOrder [0x68, 0x69] := by
  have hready := waiting_ready [0x68, 0x69]
  obtain ⟨l', hstep, hgoing, -, -⟩ :=
    hready.going.next_intact rfl (by decide) (by decide) (by decide)
  have hsound : Sound [0x68, 0x69] (waiting [0x68, 0x69]) (intact [0x68, 0x69] 0) :=
    { length := .inl (by decide)
      renumbered := by simp [intact]
      other := fun _ hne => absurd rfl hne
      again := by simp [Line.Again, waiting] }
  have hrun : Reaches Line.step (Arrives [0x68, 0x69]) (waiting [0x68, 0x69]) l' :=
    Reaches.refl.tail ⟨intact_valid (by decide), hsound⟩ hstep
  refine ⟨l', hrun, ?_, (packets_in_order hready hrun).1⟩
  rw [hgoing.calledBack, take_succ_blocks (by rw [lt_length_blocks]; decide)]
  rfl

section Renumbered

variable {content : Bytes} (hlen : content.length = 3072)

def renumbered (content : Bytes) : Arrival := ⟨1, some (1, 0), [flipAt 1 0 (dataFrame content 1)]⟩

include hlen

theorem length_block_of_three (hi : i < 3) : (block content i).length = 1024 := by
  unfold block
  rw [length_take, length_drop]
  omega

theorem renumbered_valid : (renumbered content).Valid content where
  index := by
    rw [lt_length_blocks]
    simp [renumbered, hlen]
  flip := by
    rintro i b ⟨⟩
    refine ⟨Nat.le_refl 1, ?_⟩
    rw [(isFrame_dataFrame content _).length]
    unfold nonpayloadlen
    omega
  pieces := by simp [renumbered, Arrival.frame]

theorem renumbered_accepted (h : Going content 2 l) (hstate : l.receiver.state = .rcvPayload) :
    ∃ l', l.step (renumbered content) = some l' ∧ l'.receiver.calledBack.map Prod.snd =
      (blocks content).take 2 ++ [block content 1] := by
  have hone := length_block_of_three hlen (show 1 < 3 by decide)
  have htwo := length_block_of_three hlen (show 2 < 3 by decide)
  have hv := renumbered_valid hlen
  have hkind : l.receiver.packType = kind (block content 1).length := by
    rw [Receiver.packType_eq hstate h.fsize (h.fsizeCal hstate) (by omega) (by omega)]
    show kind (block content 2).length = _
    rw [hone, htwo]
  obtain ⟨proto, hproto, hfold⟩ := h.looked_at hv hkind hstate
  have hdrop : ((renumbered content).frame content).drop headlen =
      (dataFrame content 1).drop headlen := drop_flipAt_of_lt 0 (by decide)
  have hin : Receiver.InSequence { l.receiver with proto } := by
    obtain ⟨hnum, hcompl⟩ := dataFrame_head content 1
    have hseq : proto.seq = 3 := hproto.seq _ (by simp [renumbered, Arrival.frame, flipAt, hnum]; decide)
    have hxor : proto.seqXor = 253 := hproto.seqXor _ (by
      show (flipAt 1 0 (dataFrame content 1))[2]? = _
      rw [getElem?_flipAt 0 (by decide), hcompl]
      rfl)
    constructor
    · show proto.seq ||| proto.seqXor = 0xff
      rw [hseq, hxor]
      decide
    · show Successor l.receiver.seqLst proto.seq
      rw [hseq]
      refine .inl ?_
      rw [h.seqLst]
      rfl
  have hread : proto.read headlen 1024 = block content 1 := by
    have hdata := take_drop_dataFrame content 1
    rw [hone] at hdata
    rw [hproto.toContains.read_eq, hdrop, hdata]
    rw [hv.framed.length]
    show _ ≤ _ + (kind (block content 1).length).payloadLen
    rw [hone]
    decide
  have hstx : l.receiver.packType.payloadLen = 1024 := by
    rw [hkind, hone]
    decide
  rw [hdrop, if_pos ⟨(isFrame_dataFrame content 1).crc, hin⟩,
    Receiver.accept_rcvPayload (r := { l.receiver with proto }) hstate, hin.acceptPayload_eq] at hfold
  refine ⟨_, if_pos hstate, ?_⟩
  dsimp only at hfold ⊢
  rw [hfold]
  simp only [hstx, h.fsizeCal hstate, h.fsize, hlen, map_append, h.calledBack, map_cons,
    map_nil]
  rw [if_neg (by decide), hread]

theorem blocks_eq_of_renumbered
    (hcalled : l.receiver.calledBack.map Prod.snd = (blocks content).take 2 ++ [block content 1])
    (horder : l.InOrder content) : block content 1 = block content 2 := by
  have hcount : 2 < (blocks content).length := by
    rw [lt_length_blocks]
    omega
  unfold Line.InOrder at horder
  rw [hcalled] at horder
  obtain ⟨t, ht⟩ := horder
  have hthird := congrArg (fun L => L[2]?) ht
  simpa [getElem?_blocks, hlen, Nat.min_eq_left hcount.le] using hthird

end Renumbered

def threeBlocks : Bytes := (List.range 3072).map fun i => UInt8.ofNat (i / 1024)

theorem length_threeBlocks : threeBlocks.length = 3072 := by
  rw [threeBlocks, length_map, length_range]

theorem block_threeBlocks_ne : block threeBlocks 1 ≠ block threeBlocks 2 := by
  intro h
  have hfirst := congrArg (fun L => L[0]?) h
  simp [block, threeBlocks] at hfirst

/-- A packet is handed on twice, and a packet that comes again is not acknowledged. -/
theorem packet_twice_and_unacknowledged :
    (¬∀ (content : Bytes) (l l' : Line), l.Ready content →
      Reaches Line.step (fun _ a => a.Valid content) l l' → l'.InOrder content) ∧
    ¬∀ (content : Bytes) (l l' : Line), l.Ready content →
      Reaches Line.step (fun _ a => a.Valid content) l l' → l'.AckedAgain content := by
  have hlen := length_threeBlocks
  have hready := waiting_ready threeBlocks
  obtain ⟨l1, hstep1, h1, hlast1, hstate1⟩ :=
    hready.going.next_intact rfl (by decide) (by omega) (by omega)
  have hrun1 : Reaches Line.step (fun _ a => a.Valid threeBlocks) (waiting threeBlocks) l1 :=
    Reaches.refl.tail (intact_valid (by omega)) hstep1
  have hwaiting1 := hstate1 (by omega)
  constructor
  · intro h
    obtain ⟨l2, hstep2, h2, -, hstate2⟩ :=
      h1.next_intact hwaiting1 (by decide) (by omega) (by omega)
    obtain ⟨l3, hstep3, hcalled⟩ := renumbered_accepted hlen h2 (hstate2 (by omega))
    have hrun3 := (hrun1.tail (intact_valid (by omega)) hstep2).tail (renumbered_valid hlen) hstep3
    exact block_threeBlocks_ne (blocks_eq_of_renumbered hlen hcalled (h _ _ l3 hready hrun3))
  · intro h
    have hv : (intact threeBlocks 0).Valid threeBlocks := intact_valid (by omega)
    have hagain : l1.Again (intact threeBlocks 0) := ⟨rfl, hlast1⟩
    have hstep2 : l1.step (intact threeBlocks 0) = some _ := if_pos hwaiting1
    have hkind : l1.receiver.packType = kind (block threeBlocks 0).length := by
      rw [Receiver.packType_eq hwaiting1 h1.fsize (h1.fsizeCal hwaiting1) (by omega) (by omega)]
      show kind (block threeBlocks 1).length = _
      rw [length_block_of_three hlen (by decide), length_block_of_three hlen (by decide)]
    have hsame := h1.again_unanswered hv hkind rfl hstep2
    have hacked := h _ _ l1 hready hrun1 _ _ hv hagain hstep2
    rw [hsame] at hacked
    simp at hacked

end Gpmx.Ymodem
