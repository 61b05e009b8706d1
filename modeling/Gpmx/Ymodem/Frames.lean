import Gpmx.Ymodem.Parties

/-!
# Frames in pieces

However a frame is cut, its last byte completes it, and the buffer then holds the frame. Until then
nothing is sent and nothing is handed on.
-/

namespace Gpmx.Ymodem

open List

namespace Parse

/-- The buffer begins with `L`, and the number of the packet and its complement are those of `L`. -/
structure Contains (msg : Parse) (L : Bytes) : Prop where
  buff : ∀ i x, L[i]? = some x → msg.buff i = x
  seq : ∀ x, L[1]? = some x → msg.seq = x
  seqXor : ∀ x, L[2]? = some x → msg.seqXor = x

/-- A frame of which `L` has arrived. -/
structure Holds (msg : Parse) (L : Bytes) : Prop extends Contains msg L where
  nbyte : msg.nbyte = L.length

structure Complete (msg : Parse) (frame : Bytes) : Prop extends Contains msg frame where
  nbyte : msg.nbyte = 0

variable {msg : Parse} {L frame : Bytes}

theorem holds_nil (h : msg.nbyte = 0) : Holds msg [] where
  buff := by simp
  seq := by simp
  seqXor := by simp
  nbyte := h

theorem Contains.read_eq {off n : Nat} (h : Contains msg L) (hlen : off + n ≤ L.length) :
    msg.read off n = (L.drop off).take n := by
  apply ext_getElem?
  intro i
  unfold read
  by_cases hi : i < n
  · have hin : off + i < L.length := by omega
    rw [getElem?_map, getElem?_range hi, getElem?_take_of_lt hi, getElem?_drop,
      getElem?_eq_getElem hin, Option.map_some,
      h.buff (off + i) _ (getElem?_eq_getElem hin)]
  · rw [getElem?_eq_none (by simp; omega), getElem?_eq_none (by simp; omega)]

section Store

theorem store_nbyte (msg : Parse) (c : UInt8) : (msg.store c).nbyte = msg.nbyte + 1 := by
  unfold store
  dsimp only
  split_ifs <;> rfl

theorem store_buff (msg : Parse) (c : UInt8) :
    (msg.store c).buff = Function.update msg.buff msg.nbyte c := by
  unfold store
  dsimp only
  split_ifs <;> rfl

theorem store_seq (msg : Parse) (c : UInt8) :
    (msg.store c).seq = if msg.nbyte = 1 then c else msg.seq := by
  unfold store
  by_cases hone : msg.nbyte = 1
  · simp [hone]
  · have hother : msg.nbyte + 1 ≠ 2 := by omega
    simp only [hone, hother, if_false]
    split_ifs <;> rfl

theorem store_seqXor (msg : Parse) (c : UInt8) :
    (msg.store c).seqXor = if msg.nbyte = 2 then c else msg.seqXor := by
  unfold store
  dsimp only
  by_cases htwo : msg.nbyte = 2
  · simp [htwo]
  · have hother : msg.nbyte + 1 ≠ 3 := by omega
    rw [if_neg htwo]
    split_ifs <;> rfl

end Store

theorem getElem?_append_byte {c x : UInt8} {i : Nat} (hx : (L ++ [c])[i]? = some x) :
    (i = L.length ∧ x = c) ∨ (i ≠ L.length ∧ L[i]? = some x) := by
  rcases Nat.lt_trichotomy i L.length with hlt | heq | hgt
  · rw [getElem?_append_left hlt] at hx
    exact .inr ⟨Nat.ne_of_lt hlt, hx⟩
  · subst heq
    rw [getElem?_append_right (Nat.le_refl _), Nat.sub_self] at hx
    exact .inl ⟨rfl, by simpa using hx.symm⟩
  · rw [getElem?_eq_none (by simp; omega)] at hx
    cases hx

theorem Holds.store (h : Holds msg L) (c : UInt8) :
    Holds (msg.store c) (L ++ [c]) where
  buff i x hx := by
    rw [store_buff, h.nbyte]
    rcases getElem?_append_byte hx with ⟨rfl, rfl⟩ | ⟨hne, hx⟩
    · rw [Function.update_self]
    · rw [Function.update_of_ne hne]
      exact h.buff i x hx
  seq x hx := by
    rw [store_seq, h.nbyte]
    rcases getElem?_append_byte hx with ⟨heq, rfl⟩ | ⟨hne, hx⟩
    · rw [if_pos heq.symm]
    · rw [if_neg hne.symm]
      exact h.seq x hx
  seqXor x hx := by
    rw [store_seqXor, h.nbyte]
    rcases getElem?_append_byte hx with ⟨heq, rfl⟩ | ⟨hne, hx⟩
    · rw [if_pos heq.symm]
    · rw [if_neg hne.symm]
      exact h.seqXor x hx
  nbyte := by
    rw [store_nbyte, h.nbyte, length_append]
    rfl

end Parse

/-! ## One frame -/

structure Framed (type : PackType) (frame : Bytes) : Prop where
  type_ne : type ≠ .eot
  length : frame.length = nonpayloadlen + type.payloadLen
  header : frame.head? = some type.header

structure IsFrame (type : PackType) (frame : Bytes) : Prop where
  type_ne : type ≠ .eot
  length : frame.length = nonpayloadlen + type.payloadLen
  header : frame.head? = some type.header
  crc : crc16Xmodem (frame.drop headlen) = 0#16

theorem IsFrame.framed {type : PackType} (h : IsFrame type frame) :
    Framed type frame := ⟨h.type_ne, h.length, h.header⟩

theorem IsFrame.length_pos {type : PackType} (h : IsFrame type frame) : 0 < frame.length := by
  rw [h.length]
  unfold nonpayloadlen
  omega

namespace Framed

open Parse

variable {type : PackType} {frame pre : Bytes} {msg : Parse} {c : UInt8}

theorem parser_eq (h : Framed type frame) (msg : Parse) (c : UInt8) :
    msg.parser type c = msg.dframe type c := by
  cases type with
  | eot => exact absurd rfl h.type_ne
  | soh | stx => rfl

theorem header_eq {rest : Bytes} (h : Framed type (c :: rest)) : c = type.header := by
  simpa using h.header

theorem dframe_partial {post : Bytes} (h : Framed type (pre ++ c :: post)) (hpost : post ≠ [])
    (hmsg : Holds msg pre) :
    ∃ ret msg', msg.dframe type c = (ret, msg') ∧ ret ≠ 0 ∧ ret ≠ -1 ∧ Holds msg' (pre ++ [c]) := by
  have hpos := length_pos_iff.mpr hpost
  cases pre with
  | nil =>
    have hnbyte : msg.nbyte = 0 := hmsg.nbyte
    have hstore := hmsg.store c
    refine ⟨-2, { msg with buff := Function.update msg.buff 0 c, nbyte := 1 }, ?_, by decide, by decide, ?_⟩
    · rw [dframe, if_pos hnbyte, if_neg (not_not.mpr h.header_eq)]
    · -- the first byte is put down without `store`, but with the same effect
      refine ⟨⟨fun i x hx => ?_, by simp, by simp⟩, rfl⟩
      have hbuff := hstore.buff i x hx
      rw [store_buff, hnbyte] at hbuff
      exact hbuff
  | cons b pre =>
    have hne : msg.nbyte ≠ 0 := by
      rw [hmsg.nbyte]
      simp
    have hshort : (msg.store c).nbyte < nonpayloadlen + type.payloadLen := by
      rw [← h.length, store_nbyte, hmsg.nbyte]
      simp only [length_append, length_cons]
      omega
    refine ⟨-3, msg.store c, ?_, by decide, by decide, hmsg.store c⟩
    rw [dframe, if_neg hne]
    exact if_pos hshort

def verdict (frame : Bytes) : Int := if crc16Xmodem (frame.drop headlen) ≠ 0#16 then -4 else 0

theorem verdict_cases (frame : Bytes) : verdict frame = 0 ∨ verdict frame = -4 := by
  unfold verdict
  split
  · exact .inr rfl
  · exact .inl rfl

theorem dframe_last (h : Framed type (pre ++ [c])) (hmsg : Holds msg pre) :
    ∃ msg', msg.dframe type c = (verdict (pre ++ [c]), msg') ∧ Complete msg' (pre ++ [c]) := by
  have hlen := h.length
  rw [length_append, length_singleton] at hlen
  have hne : msg.nbyte ≠ 0 := by
    rw [hmsg.nbyte]
    unfold nonpayloadlen at hlen
    omega
  have hlong : ¬(msg.store c).nbyte < nonpayloadlen + type.payloadLen := by
    rw [store_nbyte, hmsg.nbyte]
    omega
  have hcomplete : Complete { msg.store c with nbyte := 0 } (pre ++ [c]) := by
    obtain ⟨hbuff, hseq, hseqXor⟩ := (hmsg.store c).toContains
    exact ⟨⟨hbuff, hseq, hseqXor⟩, rfl⟩
  have hread : Parse.read { msg.store c with nbyte := 0 } headlen (type.payloadLen + 2) =
      (pre ++ [c]).drop headlen := by
    have hall : headlen + (type.payloadLen + 2) = (pre ++ [c]).length := by
      rw [h.length]
      unfold headlen nonpayloadlen
      omega
    rw [hcomplete.toContains.read_eq (Nat.le_of_eq hall), take_of_length_le]
    rw [length_drop]
    omega
  refine ⟨{ msg.store c with nbyte := 0 }, ?_, hcomplete⟩
  rw [dframe, if_neg hne]
  dsimp only
  rw [if_neg hlong, hread]
  unfold verdict
  split <;> rfl

theorem buffLoop_partial {piece post : Bytes} {ret : Int} (h : Framed type (pre ++ piece ++ post))
    (hpost : post ≠ []) (hmsg : Holds msg pre) (hret : ret ≠ 0) :
    ∃ ret' msg', buffLoop type ret msg piece = (ret', msg') ∧ ret' ≠ 0 ∧ Holds msg' (pre ++ piece) := by
  induction piece generalizing pre msg ret with
  | nil =>
    refine ⟨ret, msg, rfl, hret, ?_⟩
    rw [append_nil]
    exact hmsg
  | cons c piece ih =>
    have hcons : pre ++ (c :: piece) ++ post = pre ++ c :: (piece ++ post) := by simp
    have hmore : piece ++ post ≠ [] := by simp [hpost]
    obtain ⟨ret', msg', hstep, hzero, hclear, hmsg'⟩ := dframe_partial (hcons ▸ h) hmore hmsg
    have hframe : Framed type (pre ++ [c] ++ piece ++ post) := by simpa using h
    obtain ⟨ret'', msg'', hloop, hzero'', hmsg''⟩ := ih hframe hmsg' hzero
    refine ⟨ret'', msg'', ?_, hzero'', by simpa using hmsg''⟩
    rw [buffLoop, h.parser_eq, hstep]
    dsimp only
    rw [if_neg hzero, if_neg hclear]
    exact hloop

theorem buffLoop_end {piece : Bytes} {ret : Int} (h : Framed type (pre ++ piece))
    (hpiece : piece ≠ []) (hmsg : Holds msg pre) (hret : ret ≠ 0) :
    ∃ msg', buffLoop type ret msg piece = (verdict (pre ++ piece), msg') ∧
      Complete msg' (pre ++ piece) := by
  induction piece generalizing pre msg ret with
  | nil => exact absurd rfl hpiece
  | cons c piece ih =>
    by_cases hlast : piece = []
    · subst hlast
      obtain ⟨msg', hstep, hcomplete⟩ := dframe_last h hmsg
      refine ⟨msg', ?_, hcomplete⟩
      rw [buffLoop, h.parser_eq, hstep]
      -- a wrong checksum does not clear the parser, but the frame is behind it
      rcases verdict_cases (pre ++ [c]) with hzero | hwrong
      · rw [hzero]
        rfl
      · rw [hwrong]
        rfl
    · obtain ⟨ret', msg', hstep, hzero, hclear, hmsg'⟩ := dframe_partial h hlast hmsg
      have hframe : Framed type (pre ++ [c] ++ piece) := by simpa using h
      obtain ⟨msg'', hloop, hcomplete⟩ := ih hframe hlast hmsg' hzero
      refine ⟨msg'', ?_, by simpa using hcomplete⟩
      rw [buffLoop, h.parser_eq, hstep]
      dsimp only
      rw [if_neg hzero, if_neg hclear]
      simpa using hloop

end Framed

/-! ## Pieces -/

namespace Receiver

open Parse

def Listening (r : Receiver) : Prop := r.state ≠ .idle ∧ r.state ≠ .rcvCompleted

theorem Listening.rxProcess_eq {r : Receiver} (h : r.Listening) (p : Bytes) :
    r.rxProcess p =
      if (r.proto.parserBuff r.packType p).1 = 0
      then { r with proto := (r.proto.parserBuff r.packType p).2 }.accept r.packType
      else { r with proto := (r.proto.parserBuff r.packType p).2 } := by
  unfold rxProcess
  split
  · next hidle => exact absurd hidle h.1
  · next hcompleted => exact absurd hcompleted h.2
  · rfl

theorem rxProcess_nil (r : Receiver) : r.rxProcess [] = r := by
  unfold rxProcess
  split <;> rfl

theorem foldl_rxProcess_nil {pieces : List Bytes} (r : Receiver) (h : pieces.flatten = []) :
    pieces.foldl rxProcess r = r := by
  induction pieces with
  | nil => rfl
  | cons p pieces ih =>
    rw [flatten_cons, append_eq_nil_iff] at h
    rw [foldl_cons, h.1, rxProcess_nil, ih h.2]

theorem foldl_rxProcess_singleton {pieces : List Bytes} {c : UInt8} (r : Receiver)
    (h : pieces.flatten = [c]) : pieces.foldl rxProcess r = r.rxProcess [c] := by
  induction pieces with
  | nil => cases h
  | cons p pieces ih =>
    rw [flatten_cons, append_eq_singleton_iff] at h
    rw [foldl_cons]
    rcases h with ⟨hp, hrest⟩ | ⟨hp, hrest⟩
    · rw [hp, rxProcess_nil, ih hrest]
    · rw [hp, foldl_rxProcess_nil _ hrest]

/-- **A frame is looked at as a whole**, however it is cut. -/
theorem foldl_rxProcess_framed {r : Receiver} {pre : Bytes} {pieces : List Bytes}
    (hlistening : r.Listening) (hframe : Framed r.packType frame) (hpre : Holds r.proto pre)
    (hpieces : pre ++ pieces.flatten = frame) (hne : pieces.flatten ≠ []) :
    ∃ proto, Complete proto frame ∧ pieces.foldl rxProcess r =
      if crc16Xmodem (frame.drop headlen) = 0#16 then { r with proto }.accept r.packType
      else { r with proto } := by
  induction pieces generalizing r pre with
  | nil => exact absurd rfl hne
  | cons p pieces ih =>
    rw [flatten_cons] at hpieces hne
    rw [foldl_cons, hlistening.rxProcess_eq]
    unfold parserBuff
    by_cases hrest : pieces.flatten = []
    · -- this piece ends the frame, and only empty pieces follow
      rw [hrest, append_nil] at hpieces hne
      obtain ⟨proto, hloop, hcomplete⟩ :=
        Framed.buffLoop_end (hpieces ▸ hframe) hne hpre (show (0xff : Int) ≠ 0 by decide)
      refine ⟨proto, hpieces ▸ hcomplete, ?_⟩
      rw [hloop, foldl_rxProcess_nil _ hrest, hpieces]
      unfold Framed.verdict
      by_cases hcrc : crc16Xmodem (frame.drop headlen) = 0#16 <;> simp [hcrc]
    · rw [← append_assoc] at hpieces
      obtain ⟨ret, proto, hloop, hret, hproto⟩ :=
        Framed.buffLoop_partial (hpieces ▸ hframe) hrest hpre (show (0xff : Int) ≠ 0 by decide)
      rw [hloop]
      rw [if_neg hret]
      exact ih (r := { r with proto }) hlistening hframe hproto hpieces hrest

/-- **A frame is accepted as a whole**, however it is cut. -/
theorem foldl_rxProcess_frame {r : Receiver} {pre : Bytes} {pieces : List Bytes}
    (hlistening : r.Listening) (hframe : IsFrame r.packType frame) (hpre : Holds r.proto pre)
    (hpieces : pre ++ pieces.flatten = frame) (hne : pieces.flatten ≠ []) :
    ∃ proto, Complete proto frame ∧
      pieces.foldl rxProcess r = { r with proto }.accept r.packType := by
  obtain ⟨proto, hcomplete, hfold⟩ :=
    foldl_rxProcess_framed hlistening hframe.framed hpre hpieces hne
  rw [if_pos hframe.crc] at hfold
  exact ⟨proto, hcomplete, hfold⟩

end Receiver

/-! ## The packets of the sender -/

def kind (n : Nat) : PackType := if n > 128 then .stx else .soh

def body (data : Bytes) (isHeader : Bool) : Bytes :=
  data ++ List.replicate ((kind data.length).payloadLen - data.length) (if isHeader then 0x00 else 0x1A)

theorem length_body {data : Bytes} (isHeader : Bool) (h : data.length ≤ 1024) :
    (body data isHeader).length = (kind data.length).payloadLen := by
  unfold body kind
  rw [length_append, length_replicate]
  split
  · show data.length + (1024 - data.length) = 1024
    omega
  · show data.length + (128 - data.length) = 128
    omega

theorem packet_eq (packetNum : Nat) (data : Bytes) (isHeader : Bool) :
    packet packetNum data isHeader =
      (kind data.length).header :: UInt8.ofNat (packetNum % 256) :: UInt8.ofNat (255 - packetNum % 256) ::
        (body data isHeader ++
          [crcHigh (crc16Xmodem (body data isHeader)), crcLow (crc16Xmodem (body data isHeader))]) := by
  unfold packet body kind
  split <;> rfl

theorem isFrame_packet {data : Bytes} (packetNum : Nat) (isHeader : Bool) (h : data.length ≤ 1024) :
    IsFrame (kind data.length) (packet packetNum data isHeader) where
  type_ne := by
    unfold kind
    split <;> decide
  length := by
    rw [packet_eq]
    simp only [length_cons, length_append, length_nil, length_body isHeader h]
    unfold nonpayloadlen
    omega
  header := by
    rw [packet_eq]
    rfl
  crc := by
    rw [packet_eq]
    exact crc16Xmodem_append _

section Arrived

variable {proto : Parse} {packetNum : Nat} {data : Bytes} {isHeader : Bool}

section

variable (h : proto.Complete (packet packetNum data isHeader))
include h

theorem Parse.Complete.seq_packet : proto.seq = UInt8.ofNat (packetNum % 256) :=
  h.seq _ (by rw [packet_eq]; rfl)

theorem Parse.Complete.seqXor_packet : proto.seqXor = UInt8.ofNat (255 - packetNum % 256) :=
  h.seqXor _ (by rw [packet_eq]; rfl)

theorem Parse.Complete.buff_packet {i : Nat}
    {x : UInt8} (hx : data[i]? = some x) : proto.buff (headlen + i) = x := by
  obtain ⟨hi, -⟩ := List.getElem?_eq_some_iff.mp hx
  refine h.buff _ _ ?_
  rw [packet_eq, show headlen + i = i + 1 + 1 + 1 by unfold headlen; omega]
  simp only [getElem?_cons_succ, body, append_assoc]
  rw [getElem?_append_left hi]
  exact hx

theorem Parse.Complete.read_packet : proto.read headlen data.length = data := by
  have hlong : headlen + data.length ≤ (packet packetNum data isHeader).length := by
    rw [packet_eq]
    simp only [length_cons, length_append, body]
    unfold headlen
    omega
  rw [h.toContains.read_eq hlong, packet_eq]
  simp only [headlen, drop_succ_cons, drop_zero, body, append_assoc]
  rw [take_append_of_le_length (Nat.le_refl _), take_length]

end

end Arrived

end Gpmx.Ymodem
