import Gpmx.Ymodem.Frames

/-!
# The steps of a transfer

What the receiver does with the frames of the sender: it accepts the header, each packet of the file
whose number is the next one, both `EOT` and the packet at the end.
-/

namespace Gpmx.Ymodem

open List

/-- Name and size fit into the header, with a null behind each of them. -/
structure Fits (name : Bytes) (size : Nat) : Prop where
  plain : ∀ c ∈ name, c ≠ 0
  nameLen : name.length ≤ 127
  sizeLen : (decimal size).length ≤ 15
  header : name.length + (decimal size).length + 2 ≤ payloadlenSoh

def Split.Lossless (split : Split) : Prop := ∀ k frame, (split k frame).flatten = frame

/-! ## Steps of the sender -/

namespace Link

theorem write_eq {split : Split} {frame : Bytes} {l : Link} {r : Receiver} (out : Bytes)
    (hreceiver : (split l.frames frame).foldl Receiver.rxProcess l.receiver = r)
    (hsent : r.sent = l.receiver.sent ++ out) :
    l.write split frame = { receiver := r, replies := l.replies ++ out, frames := l.frames + 1 } := by
  unfold write
  dsimp only
  rw [hreceiver, hsent, drop_left]

theorem sendPacket_ack {split : Split} {packetNum : Nat} {data : Bytes} {isHeader : Bool} {l : Link}
    {rest : Bytes} (h : (l.write split (packet packetNum data isHeader)).replies = ACK :: rest) :
    l.sendPacket split packetNum data isHeader
      = (some true, { l.write split (packet packetNum data isHeader) with replies := rest }) := by
  unfold sendPacket receiveByte
  rw [h]
  rfl

theorem waitForSignal_cons {signal : UInt8} {rest : Bytes} {l : Link} (h : l.replies = signal :: rest) :
    l.waitForSignal signal = (true, { l with replies := rest }) := by
  unfold waitForSignal
  rw [h, dropWhile_cons_of_neg (by simp)]

end Link

/-! ## Blocks -/

theorem blocks_nil : blocks [] = [] := by
  rw [blocks, if_pos rfl]

theorem blocks_drop {content : Bytes} {k : Nat} (h : 1024 * k < content.length) :
    blocks (content.drop (1024 * k))
      = (content.drop (1024 * k)).take 1024 :: blocks (content.drop (1024 * (k + 1))) := by
  have hne : content.drop (1024 * k) ≠ [] := by
    rw [← length_pos_iff, length_drop]
    omega
  rw [blocks, if_neg hne, drop_drop, Nat.mul_succ]

theorem length_le_blocks (content : Bytes) : content.length ≤ 1024 * (blocks content).length := by
  induction content using blocks.induct with
  | case1 => exact Nat.zero_le _
  | case2 content hne ih =>
    rw [blocks, if_neg hne, length_cons]
    rw [length_drop] at ih
    omega

/-! ## Packets in sequence -/

theorem Receiver.accept_rcvPayload {r : Receiver} {type : PackType} (h : r.state = .rcvPayload) :
    r.accept type = r.acceptPayload type := by
  unfold accept
  rw [h]

theorem Receiver.InSequence.acceptPayload_eq {r : Receiver} {type : PackType} (h : r.InSequence) :
    r.acceptPayload type =
      { r with
        sent := r.sent ++ [ACK]
        seqLst := r.proto.seq
        seqTotal := (r.seqTotal + 1) % 2 ^ 32
        fsizeCal := (r.fsizeCal + type.payloadLen) % 2 ^ 32
        state := if (r.fsizeCal + type.payloadLen) % 2 ^ 32 ≥ r.fsize then .rcvEota else r.state
        calledBack := r.calledBack ++ [((r.seqTotal + 1) % 2 ^ 32, r.proto.read headlen
          (if (r.fsizeCal + type.payloadLen) % 2 ^ 32 > r.fsize then r.fsize % type.payloadLen
            else type.payloadLen))] } := by
  unfold acceptPayload
  rw [if_pos h]
  rfl

theorem or_complement : ∀ n < 256, UInt8.ofNat n ||| UInt8.ofNat (255 - n) = 0xff := by
  decide +kernel

/-- `k` packets of the file have arrived, and there are more. -/
structure Receiving (content : Bytes) (k : Nat) (l : Link) : Prop where
  state : l.receiver.state = .rcvPayload
  nbyte : l.receiver.proto.nbyte = 0
  fsize : l.receiver.fsize = content.length
  fsizeCal : l.receiver.fsizeCal = 1024 * k
  seqLst : l.receiver.seqLst.toNat = k
  replies : l.replies = []
  calledBack : (l.receiver.calledBack.map Prod.snd).flatten = content.take (1024 * k)

structure Received (content : Bytes) (state : RcvState) (l : Link) : Prop where
  state : l.receiver.state = state
  nbyte : l.receiver.proto.nbyte = 0
  replies : l.replies = []
  calledBack : (l.receiver.calledBack.map Prod.snd).flatten = content

section Payload

variable {split : Split} {content : Bytes} {k : Nat} {l : Link}

theorem Receiver.packType_eq {r : Receiver} (hstate : r.state = .rcvPayload)
    (hfsize : r.fsize = content.length) (hcal : r.fsizeCal = 1024 * k)
    (hmore : 1024 * k < content.length) (hlen : content.length < 2 ^ 32) :
    r.packType = kind ((content.drop (1024 * k)).take 1024).length := by
  have hdiff : (content.length + 2 ^ 32 - 1024 * k) % 2 ^ 32 = content.length - 1024 * k := by omega
  unfold Receiver.packType kind
  rw [hstate]
  rw [hfsize, hcal, hdiff, length_take, length_drop]
  unfold payloadlenSoh
  split_ifs <;> first | rfl | omega

theorem Receiving.packType_eq (h : Receiving content k l) (hmore : 1024 * k < content.length)
    (hlen : content.length < 2 ^ 32) :
    l.receiver.packType = kind ((content.drop (1024 * k)).take 1024).length :=
  Receiver.packType_eq h.state h.fsize h.fsizeCal hmore hlen

theorem Receiving.inSequence {data : Bytes} {proto : Parse} (h : Receiving content k l) (hk : k < 255)
    (hproto : proto.Complete (packet (k + 1) data false)) :
    Receiver.InSequence { l.receiver with proto } := by
  have hmod : (k + 1) % 256 = k + 1 := Nat.mod_eq_of_lt (by omega)
  have hseq := hproto.seq_packet
  have hseqXor := hproto.seqXor_packet
  rw [hmod] at hseq hseqXor
  refine ⟨?_, .inl ?_⟩
  · show proto.seq ||| proto.seqXor = 0xff
    rw [hseq, hseqXor]
    exact or_complement (k + 1) (by omega)
  · show (proto.seq.toNat : Int) - l.receiver.seqLst.toNat = 1
    rw [hseq, h.seqLst, UInt8.toNat_ofNat']
    omega

theorem rcvPackLen_eq (hmore : 1024 * k < content.length) :
    (if 1024 * k + (kind ((content.drop (1024 * k)).take 1024).length).payloadLen > content.length
      then content.length % (kind ((content.drop (1024 * k)).take 1024).length).payloadLen
      else (kind ((content.drop (1024 * k)).take 1024).length).payloadLen)
      = ((content.drop (1024 * k)).take 1024).length := by
  rw [length_take, length_drop]
  unfold kind
  split_ifs with hbig hover hover
  · show content.length % 1024 = _
    have hover : 1024 * k + 1024 > content.length := hover
    omega
  · show 1024 = _
    have hover : ¬1024 * k + 1024 > content.length := hover
    omega
  · show content.length % 128 = _
    have hover : 1024 * k + 128 > content.length := hover
    omega
  · show 128 = _
    have hover : ¬1024 * k + 128 > content.length := hover
    omega

theorem Receiving.write_packet {data : Bytes} (h : Receiving content k l) (hsplit : split.Lossless)
    (hmore : 1024 * k < content.length) (hlen : content.length < 2 ^ 32) (hk : k < 255)
    (hdata : (content.drop (1024 * k)).take 1024 = data) :
    ∃ proto, proto.Complete (packet (k + 1) data false) ∧
      l.write split (packet (k + 1) data false) =
        { receiver :=
            { l.receiver with
              proto
              fsize := content.length
              sent := l.receiver.sent ++ [ACK]
              seqLst := proto.seq
              seqTotal := (l.receiver.seqTotal + 1) % 2 ^ 32
              fsizeCal := 1024 * k + (kind data.length).payloadLen
              state := if 1024 * k + (kind data.length).payloadLen ≥ content.length then .rcvEota
                else l.receiver.state
              calledBack := l.receiver.calledBack ++ [((l.receiver.seqTotal + 1) % 2 ^ 32, data)] }
          replies := [ACK]
          frames := l.frames + 1 } := by
  have htype := h.packType_eq hmore hlen
  have hpackLen := rcvPackLen_eq hmore
  rw [hdata] at htype hpackLen
  have hshort : data.length ≤ 1024 := by
    rw [← hdata, length_take]
    exact Nat.min_le_left _ _
  have hcal : (1024 * k + (kind data.length).payloadLen) % 2 ^ 32
      = 1024 * k + (kind data.length).payloadLen := by
    refine Nat.mod_eq_of_lt ?_
    have hpayload : (kind data.length).payloadLen ≤ 1024 := by
      unfold kind
      split <;> decide
    omega
  have hframe := isFrame_packet (k + 1) false hshort
  rw [← htype] at hframe
  obtain ⟨proto, hproto, hfold⟩ := Receiver.foldl_rxProcess_frame
    (by rw [Receiver.Listening, h.state]; decide) hframe (Parse.holds_nil h.nbyte)
    (hsplit l.frames (packet (k + 1) data false))
    (by rw [hsplit]; exact length_pos_iff.mp hframe.length_pos)
  rw [Receiver.accept_rcvPayload (r := { l.receiver with proto }) h.state,
    (h.inSequence hk hproto).acceptPayload_eq, htype] at hfold
  rw [h.fsizeCal, h.fsize, hcal, hpackLen, hproto.read_packet] at hfold
  refine ⟨proto, hproto, ?_⟩
  rw [Link.write_eq [ACK] hfold rfl, h.replies]
  rfl

/-- **The next packet is acknowledged and handed on.** -/
theorem Receiving.sendPacket (h : Receiving content k l) (hsplit : split.Lossless)
    (hmore : 1024 * k < content.length) (hlen : content.length < 2 ^ 32) (hk : k < 255) :
    ∃ l', l.sendPacket split (k + 1) ((content.drop (1024 * k)).take 1024) false = (some true, l') ∧
      if 1024 * (k + 1) < content.length then Receiving content (k + 1) l' else Received content .rcvEota l' := by
  generalize hdata : (content.drop (1024 * k)).take 1024 = data
  obtain ⟨proto, hproto, hwrite⟩ := h.write_packet hsplit hmore hlen hk hdata
  refine ⟨_, Link.sendPacket_ack (by rw [hwrite]), ?_⟩
  have hlength : data.length = min 1024 (content.length - 1024 * k) := by
    rw [← hdata, length_take, length_drop]
  have hflatten : ((l.receiver.calledBack ++ [((l.receiver.seqTotal + 1) % 2 ^ 32, data)]).map
      Prod.snd).flatten = content.take (1024 * (k + 1)) := by
    rw [map_append, flatten_append, h.calledBack, ← hdata, Nat.mul_succ, take_add]
    simp
  rw [hwrite]
  split
  · next hnext =>
    -- a full packet, and more to come
    have hpayload : (kind data.length).payloadLen = 1024 := by
      unfold kind
      rw [if_pos (by omega)]
      rfl
    refine ⟨?_, hproto.nbyte, rfl, ?_, ?_, rfl, hflatten⟩
    · rw [hpayload]
      rw [if_neg (by omega), h.state]
    · rw [hpayload]
      rfl
    · show proto.seq.toNat = k + 1
      rw [hproto.seq_packet, UInt8.toNat_ofNat']
      omega
  · next hlast =>
    have hpayload : data.length ≤ (kind data.length).payloadLen := by
      unfold kind
      split
      · show data.length ≤ 1024
        omega
      · show data.length ≤ 128
        omega
    refine ⟨?_, hproto.nbyte, rfl, ?_⟩
    · dsimp only
      rw [if_pos (by omega)]
    · rw [hflatten, take_of_length_le (by omega)]

/-- **All packets of the file are acknowledged and handed on.** -/
theorem Receiving.sendBlocks (h : Receiving content k l) (hsplit : split.Lossless)
    (hmore : 1024 * k < content.length) (hlen : content.length ≤ 255 * 1024) :
    ∃ l', l.sendBlocks split (k + 1) (blocks (content.drop (1024 * k))) = (true, l') ∧
      Received content .rcvEota l' := by
  induction hrest : 255 - k generalizing k l with
  | zero => omega
  | succ rest ih =>
    have hk : k < 255 := by omega
    obtain ⟨l', hsend, hl'⟩ := h.sendPacket hsplit hmore (by omega) hk
    have hretry : l.sendRetry split (k + 1) ((content.drop (1024 * k)).take 1024) 5 = (true, l') := by
      rw [Link.sendRetry, hsend]
    rw [blocks_drop hmore, Link.sendBlocks, hretry]
    split at hl'
    · next hnext =>
      -- there is a next number, since the file has no more than 255 packets
      rw [if_neg (by omega)]
      exact ih hl' hnext (by omega)
    · next hlast =>
      rw [drop_of_length_le (by omega), blocks_nil]
      exact ⟨l', rfl, hl'⟩

end Payload

/-! ## Beginning and end -/

section Handshake

variable {split : Split} {name content : Bytes}

theorem Receiver.acceptHeader_eq {r : Receiver} {fsize : Nat} (hseq : r.proto.seq = 0x00)
    (hseqXor : r.proto.seqXor = 0xff)
    (hget : yFilenameSizeGet (fun i => r.proto.buff (headlen + i)) payloadlenSoh = some (name, fsize)) :
    r.acceptHeader =
      { r with sent := r.sent ++ [ACK, C], fname := name, fsize, state := .rcvPayload, seqLst := 0 } := by
  unfold acceptHeader
  rw [if_pos ⟨hseq, hseqXor⟩, hget]
  rfl

theorem length_headerData {size : Nat} :
    (headerData name size).length = name.length + (decimal size).length + 2 := by
  unfold headerData
  simp only [length_append, length_cons, length_nil]
  omega

/-- **The header is accepted**, and the receiver waits for the first packet. -/
theorem opened_sendPacket (r : Receiver) (hsplit : split.Lossless) (hfits : Fits name content.length)
    (hlen : content.length < 2 ^ 32) :
    ∃ l₁ l₂ : Link,
      Link.sendPacket split 0 (headerData name content.length) true { r.opened with replies := [] }
        = (some true, l₁) ∧
      l₁.waitForSignal C = (true, l₂) ∧ Receiving content 0 l₂ := by
  have hshort : (headerData name content.length).length ≤ 128 := by
    rw [length_headerData]
    exact hfits.header
  have hkind : kind (headerData name content.length).length = .soh := if_neg (by omega)
  have hframe := isFrame_packet 0 true (show (headerData name content.length).length ≤ 1024 by omega)
  rw [hkind] at hframe
  obtain ⟨proto, hproto, hfold⟩ := Receiver.foldl_rxProcess_frame (r := r.opened.receiver)
    ⟨RcvState.noConfusion, RcvState.noConfusion⟩ hframe (Parse.holds_nil rfl)
    (hsplit 0 (packet 0 (headerData name content.length) true))
    (by rw [hsplit]; exact length_pos_iff.mp hframe.length_pos)
  have hget : yFilenameSizeGet (fun i => proto.buff (headlen + i)) payloadlenSoh
      = some (name, content.length) :=
    yFilenameSizeGet_header hfits.plain
      (fun k hk => hproto.buff_packet (getElem?_eq_getElem hk)) hfits.header hlen
  have haccept : Receiver.accept r.opened.receiver.packType { r.opened.receiver with proto } = _ :=
    Receiver.acceptHeader_eq (r := { r.opened.receiver with proto })
      hproto.seq_packet hproto.seqXor_packet hget
  rw [haccept] at hfold
  have hwrite := Link.write_eq (l := { r.opened with replies := [] }) [ACK, C] hfold rfl
  rw [nil_append] at hwrite
  refine ⟨_, _, Link.sendPacket_ack (by rw [hwrite]), Link.waitForSignal_cons rfl, ?_⟩
  rw [hwrite]
  exact ⟨rfl, hproto.nbyte, rfl, rfl, rfl, rfl, by simp [Receiver.opened]⟩

theorem write_byte {c : UInt8} {l : Link} (out : Bytes) (hsplit : split.Lossless)
    (hsent : (l.receiver.rxProcess [c]).sent = l.receiver.sent ++ out) :
    l.write split [c] =
      { receiver := l.receiver.rxProcess [c], replies := l.replies ++ out, frames := l.frames + 1 } :=
  Link.write_eq out (Receiver.foldl_rxProcess_singleton _ (hsplit _ _)) hsent

theorem rxProcess_eot_of_eota {r : Receiver} (h : r.state = .rcvEota) :
    r.rxProcess [EOT] = { r with sent := r.sent ++ [NAK], state := .rcvEotb } := by
  obtain ⟨state, proto⟩ := r
  cases h
  rfl

theorem rxProcess_eot_of_eotb {r : Receiver} (h : r.state = .rcvEotb) :
    r.rxProcess [EOT] = { r with sent := r.sent ++ [ACK, C], state := .rcvEndtransmission } := by
  obtain ⟨state, proto⟩ := r
  cases h
  rfl

theorem Received.first_eot {l : Link} (h : Received content .rcvEota l) (hsplit : split.Lossless) :
    ∃ l', (l.write split [EOT]).waitForSignal NAK = (true, l') ∧ Received content .rcvEotb l' := by
  have hprocess := rxProcess_eot_of_eota h.state
  have hwrite := write_byte (l := l) [NAK] hsplit (by rw [hprocess])
  rw [h.replies, nil_append, hprocess] at hwrite
  refine ⟨_, Link.waitForSignal_cons (by rw [hwrite]), ?_⟩
  rw [hwrite]
  exact ⟨rfl, h.nbyte, rfl, h.calledBack⟩

theorem Received.second_eot {l : Link} (h : Received content .rcvEotb l) (hsplit : split.Lossless) :
    ∃ l₁ l₂, (l.write split [EOT]).waitForSignal ACK = (true, l₁) ∧
      l₁.waitForSignal C = (true, l₂) ∧ Received content .rcvEndtransmission l₂ := by
  have hprocess := rxProcess_eot_of_eotb h.state
  have hwrite := write_byte (l := l) [ACK, C] hsplit (by rw [hprocess])
  rw [h.replies, nil_append, hprocess] at hwrite
  refine ⟨_, _, Link.waitForSignal_cons (by rw [hwrite]), Link.waitForSignal_cons rfl, ?_⟩
  rw [hwrite]
  exact ⟨rfl, h.nbyte, rfl, h.calledBack⟩

theorem Received.last_packet {l : Link} (h : Received content .rcvEndtransmission l)
    (hsplit : split.Lossless) :
    ∃ l', l.sendPacket split 0 (List.replicate 128 0) false = (some true, l') ∧
      Received content .rcvCompleted l' := by
  have hframe := isFrame_packet 0 false (show (List.replicate 128 (0 : UInt8)).length ≤ 1024 by simp)
  have htype : l.receiver.packType = kind (List.replicate 128 (0 : UInt8)).length := by
    unfold Receiver.packType
    rw [h.state, length_replicate]
    rfl
  rw [← htype] at hframe
  obtain ⟨proto, hproto, hfold⟩ := Receiver.foldl_rxProcess_frame
    (by rw [Receiver.Listening, h.state]; decide) hframe (Parse.holds_nil h.nbyte)
    (hsplit l.frames (packet 0 (List.replicate 128 0) false))
    (by rw [hsplit]; exact length_pos_iff.mp hframe.length_pos)
  rw [h.state] at hfold
  have hwrite := Link.write_eq [ACK] hfold rfl
  rw [h.replies, nil_append] at hwrite
  refine ⟨_, Link.sendPacket_ack (by rw [hwrite]), ?_⟩
  rw [hwrite]
  exact ⟨rfl, hproto.nbyte, rfl, h.calledBack⟩

end Handshake

end Gpmx.Ymodem
