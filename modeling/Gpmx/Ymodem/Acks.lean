import Gpmx.Ymodem.Parties

/-!
# Counting acknowledgements

The sender ends with success only after it has read an `ACK` for the header, for each packet of the
file, for the second `EOT` and for the last packet. The receiver sends no more than 255 for packets of
a file, since each of them has a higher number than the one before.
-/

namespace Gpmx.Ymodem

open List

/-! ## The receiver -/

def RcvState.ackLimit (state : RcvState) (seqLst : UInt8) : Nat :=
  match state with
  | .idle | .syncWait => 0
  | .rcvPayload => 1 + seqLst.toNat
  | .rcvEota | .rcvEotb => 256
  | .rcvEndtransmission => 257
  | .rcvCompleted => 258

theorem RcvState.ackLimit_le (state : RcvState) (seqLst : UInt8) : state.ackLimit seqLst ≤ 258 := by
  have hlt := seqLst.toNat_lt
  unfold ackLimit
  split <;> omega

namespace Receiver

def Acked (r : Receiver) : Prop := r.sent.count ACK ≤ r.state.ackLimit r.seqLst

variable {r : Receiver} {packetNum : Nat}

theorem InSequence.seqLst_lt (h : r.InSequence) : r.seqLst.toNat < r.proto.seq.toNat := by
  rcases h.2 with hnext | ⟨hseq, hlst⟩
  · omega
  · rw [hseq, hlst]
    decide

theorem count_fsnd (r : Receiver) (bytes : Bytes) :
    (r.fsnd bytes).sent.count ACK = r.sent.count ACK + bytes.count ACK :=
  count_append

theorem Acked.acceptHeader (h : r.Acked) (hstate : r.state = .syncWait) : r.acceptHeader.Acked := by
  have hcount : r.sent.count ACK = 0 := by
    unfold Acked at h
    rw [hstate] at h
    exact Nat.le_zero.mp h
  unfold Receiver.acceptHeader
  split
  · split
    · show (r.fsnd [ACK, C]).sent.count ACK ≤ 1 + 0
      rw [count_fsnd, hcount]
      decide
    · exact h
  · exact h

theorem Acked.acceptPayload (h : r.Acked) (hstate : r.state = .rcvPayload) (type : PackType) :
    (r.acceptPayload type).Acked := by
  have hbefore : r.sent.count ACK ≤ 1 + r.seqLst.toNat := by
    unfold Acked at h
    rw [hstate] at h
    exact h
  unfold Receiver.acceptPayload
  split
  · next hin =>
    have hlt := hin.seqLst_lt
    have hseq := r.proto.seq.toNat_lt
    have hcount : (r.fsnd [ACK]).sent.count ACK ≤ 1 + r.proto.seq.toNat := by
      rw [count_fsnd]
      show r.sent.count ACK + 1 ≤ _
      omega
    unfold Acked
    dsimp only
    split
    · show _ ≤ 256
      omega
    · rw [show (r.fsnd [ACK]).state = .rcvPayload from hstate]
      exact hcount
  · exact h

theorem Acked.accept (h : r.Acked) (type : PackType) : (r.accept type).Acked := by
  unfold Receiver.accept
  split
  · exact h
  · exact h
  · next hstate => exact h.acceptHeader hstate
  · next hstate => exact h.acceptPayload hstate type
  all_goals
    next hstate =>
    unfold Acked at h
    rw [hstate] at h
    show (r.fsnd _).sent.count ACK ≤ _
    rw [count_fsnd]
    exact Nat.add_le_add_right h _

theorem Acked.rxProcess (h : r.Acked) (p : Bytes) : (r.rxProcess p).Acked := by
  unfold Receiver.rxProcess
  split
  · exact h
  · exact h
  · dsimp only
    split
    · refine Acked.accept ?_ _
      exact h
    · exact h

theorem accept_sent (r : Receiver) (type : PackType) : r.sent <+: (r.accept type).sent := by
  unfold accept acceptHeader acceptPayload
  split <;> (try split) <;> (try split) <;>
    first | exact prefix_rfl | exact prefix_append _ _

theorem rxProcess_sent (r : Receiver) (p : Bytes) : r.sent <+: (r.rxProcess p).sent := by
  unfold rxProcess
  split
  · exact prefix_rfl
  · exact prefix_rfl
  · dsimp only
    split
    · exact accept_sent { r with proto := (r.proto.parserBuff r.packType p).2 } _
    · exact prefix_rfl

end Receiver

/-! ## The sender -/

namespace Link

/-- The sender has read at least `n` of the acknowledgements. -/
structure Spent (n : Nat) (l : Link) : Prop where
  acked : l.receiver.Acked
  count : n + l.replies.count ACK ≤ l.receiver.sent.count ACK

theorem Spent.le {n : Nat} {l : Link} (h : Spent n l) : n ≤ 258 := by
  have hlimit := l.receiver.state.ackLimit_le l.receiver.seqLst
  have hacked := h.acked
  have hcount := h.count
  unfold Receiver.Acked at hacked
  omega

theorem foldl_rxProcess_acked (pieces : List Bytes) (h : r.Acked) :
    (pieces.foldl Receiver.rxProcess r).Acked ∧ r.sent <+: (pieces.foldl Receiver.rxProcess r).sent := by
  induction pieces generalizing r with
  | nil => exact ⟨h, prefix_rfl⟩
  | cons p pieces ih =>
    obtain ⟨hacked, hsent⟩ := ih (h.rxProcess p)
    exact ⟨hacked, (r.rxProcess_sent p).trans hsent⟩

section Steps

variable {split : Split} {n : Nat} {l l' : Link}

theorem Spent.write (h : Spent n l) (split : Split) (frame : Bytes) : Spent n (l.write split frame) := by
  obtain ⟨hacked, out, hsent⟩ := foldl_rxProcess_acked (split l.frames frame) h.acked
  have hcount := h.count
  refine ⟨hacked, ?_⟩
  unfold Link.write
  dsimp only
  rw [← hsent, drop_left, count_append, count_append]
  omega

theorem Spent.sendPacket {data : Bytes} {isHeader : Bool} {result : Option Bool} (h : Spent n l)
    (hsend : l.sendPacket split packetNum data isHeader = (result, l')) :
    Spent (if result = some true then n + 1 else n) l' := by
  obtain ⟨hacked, hcount⟩ := h.write split (packet packetNum data isHeader)
  unfold Link.sendPacket receiveByte at hsend
  generalize l.write split (packet packetNum data isHeader) = lw at hacked hcount hsend
  cases hreplies : lw.replies with
  | nil =>
    rw [hreplies] at hsend
    cases hsend
    refine ⟨hacked, ?_⟩
    rw [hreplies] at hcount
    exact hcount
  | cons response rest =>
    rw [hreplies, count_cons] at hcount
    rw [hreplies] at hsend
    dsimp only [head?_cons, tail_cons] at hsend
    split at hsend
    · next hack =>
      cases hsend
      rw [if_pos (by rw [Option.some.inj hack]; rfl)] at hcount
      refine ⟨hacked, ?_⟩
      rw [if_pos rfl]
      show n + 1 + rest.count ACK ≤ lw.receiver.sent.count ACK
      omega
    · have hle : n + rest.count ACK ≤ lw.receiver.sent.count ACK := by omega
      split at hsend
      · cases hsend
        exact ⟨hacked, hle⟩
      · split at hsend <;>
        · cases hsend
          exact ⟨hacked, hle⟩

theorem Spent.sendRetry {data : Bytes} {retries : Nat} (h : Spent n l)
    (hsend : l.sendRetry split packetNum data retries = (true, l')) : Spent (n + 1) l' := by
  induction retries generalizing l with
  | zero => exact absurd hsend (by simp [Link.sendRetry])
  | succ retries ih =>
    rw [Link.sendRetry] at hsend
    split at hsend
    · next hpacket =>
      cases hsend
      exact h.sendPacket hpacket
    · cases hsend
    · next hpacket => exact ih (h.sendPacket hpacket) hsend

theorem Spent.sendBlocks {bs : List Bytes} (h : Spent n l)
    (hsend : l.sendBlocks split packetNum bs = (true, l')) : Spent (n + bs.length) l' := by
  induction bs generalizing l n packetNum with
  | nil =>
    cases hsend
    exact h
  | cons data bs ih =>
    rw [Link.sendBlocks] at hsend
    split at hsend
    · cases hsend
    · next hretry =>
      have hrest := ih (h.sendRetry hretry) hsend
      rwa [Nat.add_assoc, Nat.add_comm 1] at hrest

theorem Spent.waitForSignal {signal : UInt8} (h : Spent n l)
    (hwait : l.waitForSignal signal = (true, l')) :
    Spent (if signal = ACK then n + 1 else n) l' := by
  unfold Link.waitForSignal at hwait
  have hcount := h.count
  have hsuffix := (dropWhile_suffix (l := l.replies) (· ≠ signal)).sublist.count_le ACK
  split at hwait
  · cases hwait
  · next found rest hdrop =>
    cases hwait
    rw [hdrop, count_cons] at hsuffix
    refine ⟨h.acked, ?_⟩
    show _ + rest.count ACK ≤ l.receiver.sent.count ACK
    have hfound : found = signal := by
      have hhead := head?_dropWhile_not (· ≠ signal) l.replies
      rw [hdrop] at hhead
      simpa using hhead
    split
    · next hsignal =>
      rw [hfound, hsignal, if_pos (by rfl)] at hsuffix
      omega
    · omega

end Steps

end Link

end Gpmx.Ymodem
