import Gpmx.Ymodem.Delivery

/-!
# A receiver that is used again

`ymodem_reset` leaves `seq_total` as it is. What follows is therefore what a new receiver does, but
for the numbers that the packets are handed on with, which go on where the transfer before ended.
-/

namespace Gpmx.Ymodem

open List

inductive Call where
  | reset
  | start
  | rxProcess (p : Bytes)

namespace Receiver

def call (r : Receiver) : Call → Receiver
  | .reset => r.reset
  | .start => r.start
  | .rxProcess p => r.rxProcess p

/-- A transfer after `ymodem_reset` and `ymodem_start`. -/
def again (r : Receiver) (pieces : List Bytes) : Receiver := pieces.foldl rxProcess r.reset.start

def after (r before : Receiver) : Receiver :=
  { r with
    sent := before.sent ++ r.sent
    calledBack := before.calledBack ++ r.calledBack }

def numbers (r : Receiver) : List Nat := r.calledBack.map Prod.fst

/-- The numbers of `n` packets, which start from 1. -/
def fromOne (n : Nat) : List Nat := (List.range n).map fun i => (i + 1) % 2 ^ 32

/-- From now on it is a new receiver: what it sends, what it hands on and how it ends. -/
structure Reusable (r : Receiver) : Prop where
  same : ∀ pieces, r.again pieces = (unused.again pieces).after r
  numbered : ∀ pieces, ∃ n, (r.again pieces).numbers = r.numbers ++ fromOne n

end Receiver

/-! ## The numbers of the packets -/

namespace Receiver

/-- The packets that were handed on are counted, and each one got the count as its number. -/
structure Counted (r : Receiver) : Prop where
  total : r.seqTotal = r.calledBack.length % 2 ^ 32
  numbered : r.numbers = fromOne r.calledBack.length

theorem fromOne_succ (n : Nat) : fromOne (n + 1) = fromOne n ++ [(n + 1) % 2 ^ 32] := by
  rw [fromOne, range_succ, map_append]
  rfl

theorem lt_of_mem_fromOne {n k : Nat} (h : k ∈ fromOne n) : k < 2 ^ 32 := by
  obtain ⟨i, -, rfl⟩ := mem_map.mp h
  exact Nat.mod_lt _ (by decide)

theorem counted_unused : unused.Counted where
  total := rfl
  numbered := rfl

variable {r : Receiver}

theorem Counted.acceptHeader (h : r.Counted) : r.acceptHeader.Counted := by
  unfold Receiver.acceptHeader
  split_ifs
  · split <;> exact ⟨h.total, h.numbered⟩
  · exact h

theorem Counted.acceptPayload (h : r.Counted) (type : PackType) :
    (r.acceptPayload type).Counted := by
  by_cases hseq : r.InSequence
  · rw [hseq.acceptPayload_eq]
    have htotal : (r.seqTotal + 1) % 2 ^ 32 = (r.calledBack.length + 1) % 2 ^ 32 := by
      rw [h.total]
      omega
    constructor
    · show (r.seqTotal + 1) % 2 ^ 32 = (r.calledBack ++ [_]).length % 2 ^ 32
      rw [htotal, length_append, length_singleton]
    · show (r.calledBack ++ [_]).map Prod.fst = fromOne (r.calledBack ++ [_]).length
      rw [map_append, length_append, length_singleton, fromOne_succ, ← htotal]
      exact congrArg (· ++ _) h.numbered
  · unfold Receiver.acceptPayload
    rw [if_neg hseq]
    exact h

theorem Counted.accept (h : r.Counted) (type : PackType) : (r.accept type).Counted := by
  unfold Receiver.accept
  split
  · exact h
  · exact h
  · exact h.acceptHeader
  · exact h.acceptPayload type
  · exact ⟨h.total, h.numbered⟩
  · exact ⟨h.total, h.numbered⟩
  · exact ⟨h.total, h.numbered⟩

theorem Counted.rxProcess (h : r.Counted) (p : Bytes) : (r.rxProcess p).Counted := by
  unfold Receiver.rxProcess
  split
  · exact h
  · exact h
  · have hproto : { r with proto := (r.proto.parserBuff r.packType p).2 }.Counted :=
      ⟨h.total, h.numbered⟩
    dsimp only
    split
    · exact hproto.accept _
    · exact hproto

theorem Counted.call (h : r.Counted) (c : Call) : (r.call c).Counted := by
  cases c with
  | reset | start => exact ⟨h.total, h.numbered⟩
  | rxProcess p => exact h.rxProcess p

theorem Counted.calls (h : r.Counted) (calls : List Call) :
    (calls.foldl Receiver.call r).Counted :=
  List.foldlRecOn calls Receiver.call h fun _ hr c _ => hr.call c

theorem Counted.again (h : r.Counted) (pieces : List Bytes) : (r.again pieces).Counted :=
  List.foldlRecOn pieces Receiver.rxProcess ((h.call .reset).call .start) fun _ hr p _ => hr.rxProcess p

end Receiver

/-! ## A transfer after another one -/

namespace Receiver

/-- The number of a packet after `total` others. -/
def renumber (total : Nat) (packet : Nat × Bytes) : Nat × Bytes :=
  ((total + packet.1) % 2 ^ 32, packet.2)

def continuing (before r : Receiver) : Receiver :=
  { r with
    sent := before.sent ++ r.sent
    calledBack := before.calledBack ++ r.calledBack.map (renumber before.seqTotal)
    seqTotal := (before.seqTotal + r.seqTotal) % 2 ^ 32 }

variable (before : Receiver)

theorem acceptHeader_continuing (r : Receiver) :
    (before.continuing r).acceptHeader = before.continuing r.acceptHeader := by
  unfold acceptHeader
  by_cases hseq : r.proto.seq = 0x00 ∧ r.proto.seqXor = 0xff
  · rw [if_pos hseq, if_pos (by exact hseq)]
    rw [show (before.continuing r).proto = r.proto from rfl]
    cases yFilenameSizeGet (fun i => r.proto.buff (headlen + i)) payloadlenSoh with
    | none => rfl
    | some header =>
      simp only [continuing, fsnd, append_assoc]
  · rw [if_neg hseq, if_neg (by exact hseq)]

theorem acceptPayload_continuing (r : Receiver) (type : PackType) :
    (before.continuing r).acceptPayload type = before.continuing (r.acceptPayload type) := by
  by_cases hseq : r.InSequence
  · have hseq' : (before.continuing r).InSequence := hseq
    have htotal : ((before.seqTotal + r.seqTotal) % 2 ^ 32 + 1) % 2 ^ 32
        = (before.seqTotal + (r.seqTotal + 1) % 2 ^ 32) % 2 ^ 32 := by
      omega
    rw [hseq.acceptPayload_eq, hseq'.acceptPayload_eq]
    simp only [continuing, htotal, append_assoc, map_append]
    rfl
  · unfold acceptPayload
    rw [if_neg hseq, if_neg (by exact hseq)]

theorem accept_continuing (r : Receiver) (type : PackType) :
    (before.continuing r).accept type = before.continuing (r.accept type) := by
  have hsent : ∀ bytes, before.sent ++ r.sent ++ bytes = before.sent ++ (r.sent ++ bytes) :=
    fun bytes => append_assoc _ _ _
  unfold accept
  cases hstate : r.state with
  | idle | rcvCompleted => simp only [continuing, hstate]
  | syncWait =>
    have h := acceptHeader_continuing before r
    simpa only [continuing, hstate] using h
  | rcvPayload =>
    have h := acceptPayload_continuing before r type
    simpa only [continuing, hstate] using h
  | rcvEota | rcvEotb | rcvEndtransmission => simp only [continuing, hstate, fsnd, hsent]

/-- **What was before changes nothing but the numbers.** -/
theorem rxProcess_continuing (r : Receiver) (p : Bytes) :
    (before.continuing r).rxProcess p = before.continuing (r.rxProcess p) := by
  by_cases hlistening : r.Listening
  · have hlistening' : (before.continuing r).Listening := hlistening
    rw [hlistening.rxProcess_eq, hlistening'.rxProcess_eq]
    show (if (r.proto.parserBuff r.packType p).1 = 0 then _ else _) = _
    split
    · exact accept_continuing before { r with proto := (r.proto.parserBuff r.packType p).2 } _
    · rfl
  · have hstate : r.state = .idle ∨ r.state = .rcvCompleted := by
      unfold Listening at hlistening
      tauto
    have hsame : ∀ r : Receiver, r.state = .idle ∨ r.state = .rcvCompleted → r.rxProcess p = r := by
      rintro r (h | h) <;> simp only [rxProcess, h]
    rw [hsame r hstate, hsame _ (by exact hstate)]

theorem again_eq (h : before.Counted) (pieces : List Bytes) :
    before.again pieces = before.continuing (unused.again pieces) := by
  have hstart : before.reset.start = before.continuing unused.reset.start := by
    have htotal : before.seqTotal % 2 ^ 32 = before.seqTotal := by
      rw [h.total, Nat.mod_mod]
    simp only [reset, start, continuing, unused, append_nil, map_nil, Nat.add_zero, htotal]
  unfold again
  rw [hstart]
  exact foldl_hom before.continuing fun r p => rxProcess_continuing before r p

end Receiver

/-! ## When it is a new receiver -/

namespace Receiver

variable {r : Receiver}

variable {total : Nat} {packet : Nat × Bytes}

theorem renumber_eq_self_iff (h : packet.1 < 2 ^ 32) :
    renumber total packet = packet ↔ 2 ^ 32 ∣ total := by
  unfold renumber
  constructor
  · intro heq
    have hnumber : (total + packet.1) % 2 ^ 32 = packet.1 := congrArg Prod.fst heq
    omega
  · intro hdvd
    have hnumber : (total + packet.1) % 2 ^ 32 = packet.1 := by omega
    rw [hnumber]

theorem map_renumber_iff {packets : List (Nat × Bytes)} (h : ∀ packet ∈ packets, packet.1 < 2 ^ 32)
    (hne : packets ≠ []) : packets.map (renumber total) = packets ↔ 2 ^ 32 ∣ total := by
  constructor
  · intro hsame
    obtain ⟨packet, hmem⟩ := exists_mem_of_ne_nil _ hne
    have hmap : packets.map (renumber total) = packets.map id := by rw [hsame, map_id]
    exact (renumber_eq_self_iff (h packet hmem)).mp (map_inj_left.mp hmap packet hmem)
  · intro hdvd
    have hsame : ∀ packet ∈ packets, renumber total packet = id packet := fun packet hmem =>
      (renumber_eq_self_iff (h packet hmem)).mpr hdvd
    rw [map_congr_left hsame, map_id]

theorem Counted.number_lt (h : r.Counted) (hmem : packet ∈ r.calledBack) : packet.1 < 2 ^ 32 := by
  refine lt_of_mem_fromOne (n := r.calledBack.length) ?_
  rw [← h.numbered]
  exact mem_map_of_mem hmem

theorem Counted.dvd_seqTotal (h : r.Counted) :
    2 ^ 32 ∣ r.seqTotal ↔ 2 ^ 32 ∣ r.calledBack.length := by
  rw [h.total]
  omega

theorem counted_again_unused (pieces : List Bytes) : (unused.again pieces).Counted :=
  counted_unused.again pieces

/-- **A second use calls back what a first one does** if and only if no packet has been counted. -/
theorem calledBack_again_iff (calls : List Call) {pieces : List Bytes}
    (hne : (unused.again pieces).calledBack ≠ []) :
    ((calls.foldl call unused).again pieces).calledBack =
        (calls.foldl call unused).calledBack ++ (unused.again pieces).calledBack ↔
      2 ^ 32 ∣ (calls.foldl call unused).calledBack.length := by
  have h := counted_unused.calls calls
  generalize calls.foldl call unused = r at h ⊢
  have hagain : (r.again pieces).calledBack
      = r.calledBack ++ (unused.again pieces).calledBack.map (renumber r.seqTotal) := by
    rw [again_eq r h]
    rfl
  rw [hagain, append_cancel_left_eq, ← h.dvd_seqTotal]
  exact map_renumber_iff (fun _ hmem => (counted_again_unused pieces).number_lt hmem) hne

theorem continuing_eq_after {before : Receiver} (hbefore : before.seqTotal = 0) (h : r.Counted) :
    before.continuing r = r.after before := by
  have hmap : r.calledBack.map (renumber before.seqTotal) = r.calledBack := by
    by_cases hne : r.calledBack = []
    · rw [hne, map_nil]
    · refine (map_renumber_iff (fun _ hmem => h.number_lt hmem) hne).mpr ?_
      rw [hbefore]
      exact Nat.dvd_zero _
  have htotal : (before.seqTotal + r.seqTotal) % 2 ^ 32 = r.seqTotal := by
    rw [hbefore, Nat.zero_add, h.total, Nat.mod_mod]
  unfold continuing after
  rw [hmap, htotal]

theorem foldl_call_again (r : Receiver) (pieces : List Bytes) :
    (.reset :: .start :: pieces.map .rxProcess : List Call).foldl call r = r.again pieces := by
  rw [foldl_cons, foldl_cons, foldl_map]
  rfl

theorem numbers_after (r before : Receiver) : (r.after before).numbers = before.numbers ++ r.numbers :=
  map_append

end Receiver

/-- **A receiver can be used again if and only if no packet has been counted**, however it got there. -/
theorem reusable_iff (calls : List Call) :
    (calls.foldl Receiver.call unused).Reusable ↔
      2 ^ 32 ∣ (calls.foldl Receiver.call unused).calledBack.length := by
  have hcounted := Receiver.counted_unused.calls calls
  generalize calls.foldl Receiver.call unused = r at hcounted ⊢
  constructor
  · intro h
    have hstart : (r.again []).seqTotal = ((unused.again []).after r).seqTotal := by rw [h.same []]
    have hzero : r.seqTotal = 0 := hstart
    rw [← hcounted.dvd_seqTotal, hzero]
    exact Nat.dvd_zero _
  · intro hdvd
    have hzero : r.seqTotal = 0 := by
      rw [hcounted.total]
      exact Nat.mod_eq_zero_of_dvd hdvd
    have hsame : ∀ pieces, r.again pieces = (unused.again pieces).after r := fun pieces => by
      rw [Receiver.again_eq r hcounted,
        Receiver.continuing_eq_after hzero (Receiver.counted_again_unused pieces)]
    refine ⟨hsame, fun pieces => ⟨(unused.again pieces).calledBack.length, ?_⟩⟩
    rw [hsame, Receiver.numbers_after, (Receiver.counted_again_unused pieces).numbered]

/-- A file `f` with the one byte `x`. -/
def oneByte : List Bytes := [packet 0 [0x66, 0, 0x31, 0] true, packet 1 [0x78] false]

set_option maxRecDepth 100000 in
theorem calledBack_again_oneByte : ((unused.again oneByte).again oneByte).calledBack =
    (unused.again oneByte).calledBack ++ (unused.again oneByte).calledBack ↔
      2 ^ 32 ∣ (unused.again oneByte).calledBack.length := by
  have h := Receiver.calledBack_again_iff (.reset :: .start :: oneByte.map .rxProcess)
    (show (unused.again oneByte).calledBack ≠ [] by decide +kernel)
  rwa [Receiver.foldl_call_again] at h

set_option maxRecDepth 100000 in
/-- The file is received twice, the second time from packet 2 on. -/
theorem not_reusable :
    (unused.again oneByte).calledBack = [(1, [0x78])] ∧
      ((unused.again oneByte).again oneByte).calledBack = [(1, [0x78]), (2, [0x78])] ∧
      ¬∀ calls : List Call, (calls.foldl Receiver.call unused).Reusable := by
  have hfirst : (unused.again oneByte).calledBack = [(1, [0x78])] := by decide +kernel
  have htotal : (unused.again oneByte).seqTotal = 1 := by
    rw [(Receiver.counted_again_unused oneByte).total, hfirst]
    rfl
  have hsecond : ((unused.again oneByte).again oneByte).calledBack = [(1, [0x78]), (2, [0x78])] := by
    rw [Receiver.again_eq _ (Receiver.counted_again_unused oneByte)]
    simp only [Receiver.continuing, hfirst, htotal]
    rfl
  refine ⟨hfirst, hsecond, fun h => ?_⟩
  have hsame := (h (.reset :: .start :: oneByte.map .rxProcess)).same oneByte
  have hcalledBack := congrArg Receiver.calledBack hsame
  rw [Receiver.foldl_call_again, hsecond] at hcalledBack
  simp [Receiver.after, hfirst] at hcalledBack

end Gpmx.Ymodem
