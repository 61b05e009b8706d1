import Gpmx.Ymodem.Acks
import Gpmx.Ymodem.Frames
import Gpmx.Ymodem.Transfer

/-!
# The file arrives

A file of at least one byte and at most 255 packets arrives. An empty file does not: the receiver waits
for a packet and takes the `EOT` for noise. Neither does a longer file: after packet 255 the sender
goes on with packet 1, and the receiver accepts no number that is not higher than the last.
-/

namespace Gpmx.Ymodem

/-- Both sides have ended, and what was handed to the callback is the file. -/
structure Delivered (split : Split) (r : Receiver) (name content : Bytes) : Prop where
  success : (r.opened.sendFile split name content).1 = some true
  completed : (r.opened.sendFile split name content).2.receiver.state = .rcvCompleted
  file : ((r.opened.sendFile split name content).2.receiver.calledBack.map Prod.snd).flatten = content

namespace Link

variable {x : Bool × Link} {f : Link → Except (Option Bool × Link) Link} {l' : Link}
    {stopped : Option Bool × Link} {b : Fin 8}

theorem must_bind_eq_ok {l : Link} :
    (must x >>= f) = .ok l ↔ ∃ l', x = (true, l') ∧ f l' = .ok l := by
  obtain ⟨success, l'⟩ := x
  cases success with
  | false =>
    constructor
    · intro h
      cases h
    · rintro ⟨_, h, -⟩
      cases h
  | true =>
    constructor
    · intro h
      exact ⟨l', rfl, h⟩
    · rintro ⟨_, heq, h⟩
      cases heq
      exact h

variable {split : Split} {name content : Bytes} {l : Link}

theorem session_eq_ok :
    l.session split name content = .ok l' ↔
      ∃ l₁ l₂ l₃ l₄ l₅ l₆ l₇ : Link,
        l.waitForSignal C = (true, l₁) ∧
        l₁.sendPacket split 0 (headerData name content.length) true = (some true, l₂) ∧
        l₂.waitForSignal C = (true, l₃) ∧
        l₃.sendBlocks split 1 (blocks content) = (true, l₄) ∧
        (l₄.write split [EOT]).waitForSignal NAK = (true, l₅) ∧
        (l₅.write split [EOT]).waitForSignal ACK = (true, l₆) ∧
        l₆.waitForSignal C = (true, l₇) ∧
        l₇.sendPacket split 0 (List.replicate 128 0) false = (some true, l') := by
  constructor
  · intro h
    obtain ⟨l₁, h₁, h⟩ := must_bind_eq_ok.mp h
    rcases hsend : l₁.sendPacket split 0 (headerData name content.length) true with ⟨result, l₂⟩
    simp only [hsend] at h
    obtain ⟨_, h₂, h⟩ := must_bind_eq_ok.mp h
    obtain ⟨hresult, rfl⟩ := Prod.mk.inj h₂
    rw [of_decide_eq_true hresult] at hsend
    obtain ⟨l₃, h₃, h⟩ := must_bind_eq_ok.mp h
    obtain ⟨l₄, h₄, h⟩ := must_bind_eq_ok.mp h
    obtain ⟨l₅, h₅, h⟩ := must_bind_eq_ok.mp h
    obtain ⟨l₆, h₆, h⟩ := must_bind_eq_ok.mp h
    obtain ⟨l₇, h₇, h⟩ := must_bind_eq_ok.mp h
    refine ⟨l₁, l₂, l₃, l₄, l₅, l₆, l₇, h₁, hsend, h₃, h₄, h₅, h₆, h₇, ?_⟩
    split at h
    · next heq =>
      cases h
      exact heq
    · cases h
    · cases h
  · rintro ⟨l₁, l₂, l₃, l₄, l₅, l₆, l₇, h₁, h₂, h₃, h₄, h₅, h₆, h₇, h₈⟩
    refine must_bind_eq_ok.mpr ⟨l₁, h₁, ?_⟩
    rw [h₂]
    refine must_bind_eq_ok.mpr ⟨l₂, rfl, ?_⟩
    refine must_bind_eq_ok.mpr ⟨l₃, h₃, ?_⟩
    refine must_bind_eq_ok.mpr ⟨l₄, h₄, ?_⟩
    refine must_bind_eq_ok.mpr ⟨l₅, h₅, ?_⟩
    refine must_bind_eq_ok.mpr ⟨l₆, h₆, ?_⟩
    refine must_bind_eq_ok.mpr ⟨l₇, h₇, ?_⟩
    rw [h₈]

theorem must_bind_ne_true (hf : ∀ l', f l' = .error stopped → stopped.1 ≠ some true)
    (h : (must x >>= f) = .error stopped) : stopped.1 ≠ some true := by
  obtain ⟨success, l'⟩ := x
  cases success with
  | false =>
    cases h
    simp
  | true => exact hf l' h

theorem session_error (h : l.session split name content = .error stopped) :
    stopped.1 ≠ some true := by
  refine must_bind_ne_true (fun l₁ h => ?_) h
  refine must_bind_ne_true (fun l₂ h => ?_) h
  refine must_bind_ne_true (fun l₃ h => ?_) h
  refine must_bind_ne_true (fun l₄ h => ?_) h
  refine must_bind_ne_true (fun l₅ h => ?_) h
  refine must_bind_ne_true (fun l₆ h => ?_) h
  refine must_bind_ne_true (fun l₇ h => ?_) h
  split at h
  · cases h
  · cases h
    simp
  · cases h
    simp

theorem sendFile_success (h : (l.sendFile split name content).1 = some true) :
    ∃ l', l.session split name content = .ok l' := by
  unfold sendFile at h
  split at h
  · next l' hsession => exact ⟨l', hsession⟩
  · next stopped hsession => exact absurd h (session_error hsession)

/-- **Success needs an acknowledgement for each packet.** -/
theorem Spent.session (h : Spent 0 l) (hsession : l.session split name content = .ok l') :
    Spent ((blocks content).length + 3) l' := by
  obtain ⟨l₁, l₂, l₃, l₄, l₅, l₆, l₇, h₁, h₂, h₃, h₄, h₅, h₆, h₇, h₈⟩ := session_eq_ok.mp hsession
  have hheader : Spent 1 l₂ := (h.waitForSignal h₁).sendPacket h₂
  have hblocks : Spent (1 + (blocks content).length) l₄ := (hheader.waitForSignal h₃).sendBlocks h₄
  have hnak : Spent (1 + (blocks content).length) l₅ := (hblocks.write split [EOT]).waitForSignal h₅
  have hack : Spent (1 + (blocks content).length + 1) l₆ := (hnak.write split [EOT]).waitForSignal h₆
  have hlast : Spent (1 + (blocks content).length + 1 + 1) l' := (hack.waitForSignal h₇).sendPacket h₈
  rwa [show 1 + (blocks content).length + 1 + 1 = (blocks content).length + 3 by omega] at hlast

end Link

section Delivery

variable {split : Split} {name content : Bytes} {r : Receiver}

/-- **A file that is not empty and has no more than 255 packets arrives.** -/
theorem delivered_of_length (r : Receiver) (hsplit : split.Lossless) (hfits : Fits name content.length)
    (hpos : 1 ≤ content.length) (hlen : content.length ≤ 255 * 1024) :
    Delivered split r name content := by
  have hwait : r.opened.waitForSignal C = (true, { r.opened with replies := [] }) :=
    Link.waitForSignal_cons rfl
  obtain ⟨l₂, l₃, h₂, h₃, hreceiving⟩ := opened_sendPacket r hsplit hfits (by omega)
  obtain ⟨l₄, h₄, hreceived⟩ := hreceiving.sendBlocks hsplit (by omega) hlen
  obtain ⟨l₅, h₅, hreceived⟩ := hreceived.first_eot hsplit
  obtain ⟨l₆, l₇, h₆, h₇, hreceived⟩ := hreceived.second_eot hsplit
  obtain ⟨l', h₈, hreceived⟩ := hreceived.last_packet hsplit
  have hsession : r.opened.session split name content = .ok l' :=
    Link.session_eq_ok.mpr ⟨_, l₂, l₃, l₄, l₅, l₆, l₇, hwait, h₂, h₃, h₄, h₅, h₆, h₇, h₈⟩
  have hsend : r.opened.sendFile split name content = (some true, l') := by
    unfold Link.sendFile
    rw [hsession]
  constructor
  · rw [hsend]
  · rw [hsend]
    exact hreceived.state
  · rw [hsend]
    exact hreceived.calledBack

theorem rxProcess_eot_of_payload {r : Receiver} (hstate : r.state = .rcvPayload)
    (hnbyte : r.proto.nbyte = 0) (hfsize : r.fsize = r.fsizeCal) :
    r.rxProcess [EOT] = { r with proto := protoClear } := by
  have htype : r.packType = .soh := by
    unfold Receiver.packType
    rw [hstate, hfsize]
    rw [Nat.add_sub_cancel_left]
    rfl
  have hparser : r.proto.parserBuff .soh [EOT] = (-1, protoClear) := by
    have hstep : r.proto.parser .soh EOT = (-1, r.proto) := by
      show r.proto.dframe .soh EOT = _
      rw [Parse.dframe, if_pos hnbyte, if_pos (by decide)]
    rw [Parse.parserBuff, Parse.buffLoop, hstep]
    rfl
  unfold Receiver.rxProcess
  rw [hstate]
  rw [htype, hparser]
  rfl

/-- **An empty file does not arrive**: the `EOT` after the header is not answered. -/
theorem length_of_delivered (hsplit : split.Lossless) (hfits : Fits name content.length)
    (h : Delivered split r name content) : 1 ≤ content.length := by
  by_contra hempty
  have hcontent : content = [] := List.length_eq_zero_iff.mp (by omega)
  subst hcontent
  obtain ⟨l', hsession⟩ := Link.sendFile_success h.success
  obtain ⟨l₁, l₂, l₃, l₄, l₅, -, -, h₁, h₂, h₃, h₄, h₅, -⟩ := Link.session_eq_ok.mp hsession
  have hwait : r.opened.waitForSignal C = (true, { r.opened with replies := [] }) :=
    Link.waitForSignal_cons rfl
  obtain ⟨l₂', l₃', h₂', h₃', hreceiving⟩ := opened_sendPacket r hsplit hfits (by decide)
  -- the run is the one that `opened_sendPacket` describes
  cases hwait.symm.trans h₁
  cases h₂'.symm.trans h₂
  cases h₃'.symm.trans h₃
  rw [blocks_nil] at h₄
  cases h₄
  have hprocess := rxProcess_eot_of_payload hreceiving.state hreceiving.nbyte
    (by rw [hreceiving.fsize, hreceiving.fsizeCal]; rfl)
  rw [write_byte [] hsplit (by rw [hprocess]; simp), Link.waitForSignal] at h₅
  simp [hreceiving.replies] at h₅

/-- **A file of more than 255 packets does not arrive**: too few packets are acknowledged. -/
theorem length_le_of_delivered (h : Delivered split r name content) : content.length ≤ 255 * 1024 := by
  obtain ⟨l', hsession⟩ := Link.sendFile_success h.success
  have hopened : Link.Spent 0 r.opened := ⟨Nat.le_refl 0, Nat.le_refl 0⟩
  have hcount := (hopened.session hsession).le
  have hblocks := length_le_blocks content
  omega

/-- **YMODEM delivers a file if and only if it is not empty and has no more than 255 packets.** -/
theorem file_delivered_iff (hsplit : split.Lossless) (hfits : Fits name content.length) :
    Delivered split r name content ↔ 1 ≤ content.length ∧ content.length ≤ 255 * 1024 := by
  constructor
  · intro h
    exact ⟨length_of_delivered hsplit hfits h, length_le_of_delivered h⟩
  · rintro ⟨hpos, hlen⟩
    exact delivered_of_length r hsplit hfits hpos hlen

end Delivery

/-- A receiver before `ymodem_reset`. -/
def unused : Receiver :=
  { state := .idle, proto := protoClear, fname := [], fsize := 0, fsizeCal := 0, seqLst := 0
    seqTotal := 0, sent := [], calledBack := [] }

def bytewise : Split := fun _ frame => frame.map fun c => [c]

theorem bytewise_lossless : bytewise.Lossless := by
  intro k frame
  induction frame with
  | nil => rfl
  | cons c frame ih =>
    show c :: (bytewise k frame).flatten = c :: frame
    rw [ih]

theorem file_delivered_small : Delivered bytewise unused [0x66] [0x68, 0x69] :=
  (file_delivered_iff bytewise_lossless
    ⟨by simp, by decide, by simp [decimal], by simp [decimal, payloadlenSoh]⟩).mpr (by decide)

/-- An empty file and one of 256 packets. -/
theorem file_not_delivered :
    (Fits [0x66] 0 ∧ ¬Delivered bytewise unused [0x66] []) ∧
      Fits [0x66] 261121 ∧ ¬Delivered bytewise unused [0x66] (List.replicate 261121 0x2a) := by
  have hempty : Fits [0x66] 0 := ⟨by simp, by decide, by decide, by decide⟩
  have hlong : Fits [0x66] 261121 :=
    ⟨by simp, by decide, by simp [decimal], by simp [decimal, payloadlenSoh]⟩
  refine ⟨⟨hempty, fun h => ?_⟩, hlong, fun h => ?_⟩
  · exact absurd (length_of_delivered bytewise_lossless hempty h) (by decide)
  · have hlen := length_le_of_delivered h
    rw [List.length_replicate] at hlen
    omega

end Gpmx.Ymodem

/-!
## One wrong bit

The checksum covers the payload and itself, and notices every wrong byte there. The number of the
packet and its complement are compared by `|`: a bit of them that is set by mistake is not noticed.
-/

namespace Gpmx.Ymodem

open List

/-! ## The checksum notices a wrong byte -/

theorem crcBit_lsb (crc : BitVec 16) : (crcBit crc).getLsbD 0 = crc.msb := by
  unfold crcBit
  cases hmsb : crc.msb <;> simp

variable {x y : BitVec 16} {c : UInt8} {i : Nat} {frame : Bytes}

theorem crcBit_injective (h : crcBit x = crcBit y) : x = y := by
  have hmsb : x.msb = y.msb := by rw [← crcBit_lsb, ← crcBit_lsb, h]
  have hshift : x <<< 1 = y <<< 1 := by
    unfold crcBit at h
    rw [hmsb] at h
    split at h
    · simpa using h
    · exact h
  apply BitVec.eq_of_getLsbD_eq
  intro i hi
  by_cases hlast : i = 15
  · subst hlast
    rw [BitVec.msb_eq_getLsbD_last, BitVec.msb_eq_getLsbD_last] at hmsb
    exact hmsb
  · have hbit := congrArg (fun z => z.getLsbD (i + 1)) hshift
    simpa [BitVec.getLsbD_eq_getElem hi, show i + 1 < 16 by omega] using hbit

theorem crcBits_injective (n : Nat) (h : crcBits n x = crcBits n y) : x = y := by
  induction n generalizing x y with
  | zero => exact h
  | succ n ih => exact crcBit_injective (ih h)

theorem crcByte_injective (h : crcByte x c = crcByte y c) : x = y := by
  have hxor := crcBits_injective 8 h
  simpa using hxor

theorem crcByte_ne {crc : BitVec 16} {d : UInt8} (h : c ≠ d) : crcByte crc c ≠ crcByte crc d := by
  intro heq
  have hxor := crcBits_injective 8 heq
  rw [BitVec.xor_right_inj] at hxor
  apply h
  apply UInt8.toBitVec_inj.mp
  apply BitVec.eq_of_getLsbD_eq
  intro i hi
  have hbit := congrArg (fun z => z.getLsbD (i + 8)) hxor
  simpa [show i + 8 < 16 by omega, show i < 16 by omega] using hbit

theorem foldl_crcByte_injective (data : Bytes) (h : data.foldl crcByte x = data.foldl crcByte y) :
    x = y := by
  induction data generalizing x y with
  | nil => exact h
  | cons c data ih => exact crcByte_injective (ih h)

/-- **A byte that is wrong changes the checksum.** -/
theorem crc16Xmodem_set {data : Bytes} (hi : i < data.length) (hne : data[i] ≠ c) :
    crc16Xmodem (data.set i c) ≠ crc16Xmodem data := by
  have hsplit : data = data.take i ++ data[i] :: data.drop (i + 1) := by simp
  have hset : data.set i c = data.take i ++ c :: data.drop (i + 1) := by
    simp [set_eq_take_append_cons_drop, hi]
  intro heq
  rw [hset] at heq
  conv at heq => rhs; rw [hsplit]
  unfold crc16Xmodem at heq
  rw [foldl_append, foldl_append, foldl_cons, foldl_cons] at heq
  exact crcByte_ne hne (foldl_crcByte_injective _ heq).symm

/-! ## Flipped bits -/

def flipBit (b : Fin 8) (x : UInt8) : UInt8 := x ^^^ UInt8.ofNat (2 ^ b.val)

theorem flipBit_ne (b : Fin 8) (x : UInt8) : flipBit b x ≠ x := by
  intro h
  have hzero : UInt8.ofNat (2 ^ b.val) = 0 := by
    have hxor := congrArg (x ^^^ ·) h
    simpa [flipBit, ← UInt8.xor_assoc] using hxor
  clear h
  revert b
  decide

theorem flipBit_or_complement : ∀ n < 256, ∀ b : Fin 8, n.testBit b.val = true →
    flipBit b (UInt8.ofNat n) ||| UInt8.ofNat (255 - n) ≠ 0xff := by
  decide +kernel

theorem or_flipBit_complement : ∀ n < 256, ∀ b : Fin 8, n.testBit b.val = false →
    UInt8.ofNat n ||| flipBit b (UInt8.ofNat (255 - n)) ≠ 0xff := by
  decide +kernel

def flipAt (i : Nat) (b : Fin 8) (frame : Bytes) : Bytes := frame.modify i (flipBit b)

theorem flipAt_eq_set (hi : i < frame.length) :
    flipAt i b frame = frame.set i (flipBit b frame[i]) := by
  rw [flipAt, modify_eq_set_getElem?, getElem?_eq_getElem hi]
  rfl

@[simp] theorem length_flipAt (i : Nat) (b : Fin 8) (frame : Bytes) :
    (flipAt i b frame).length = frame.length := by
  simp [flipAt]

theorem head_flipAt (b : Fin 8) (hi : 0 < i) : (flipAt i b frame).head? = frame.head? := by
  cases frame with
  | nil => simp [flipAt]
  | cons x frame =>
    obtain ⟨j, rfl⟩ := Nat.exists_eq_succ_of_ne_zero (Nat.ne_of_gt hi)
    simp [flipAt]

theorem getElem?_flipAt {j : Nat} (b : Fin 8) (h : i ≠ j) : (flipAt i b frame)[j]? = frame[j]? := by
  simp [flipAt, h]

theorem drop_flipAt_of_lt {n : Nat} (b : Fin 8) (h : i < n) :
    (flipAt i b frame).drop n = frame.drop n := by
  apply ext_getElem?
  intro j
  rw [getElem?_drop, getElem?_drop, getElem?_flipAt b (by omega)]

/-- **A wrong bit behind the numbers is noticed.** -/
theorem crc_flipAt (hi : headlen ≤ i) (hlen : i < frame.length)
    (hcrc : crc16Xmodem (frame.drop headlen) = 0#16) :
    crc16Xmodem ((flipAt i b frame).drop headlen) ≠ 0#16 := by
  have hlt : i - headlen < (frame.drop headlen).length := by
    rw [length_drop]
    omega
  have hget : (frame.drop headlen)[i - headlen] = frame[i] := by
    rw [getElem_drop]
    congr 1
    omega
  have hdrop : (flipAt i b frame).drop headlen =
      (frame.drop headlen).set (i - headlen) (flipBit b frame[i]) := by
    rw [flipAt_eq_set hlen, drop_set, if_neg (by omega)]
  rw [hdrop, ← hcrc]
  exact crc16Xmodem_set hlt (by rw [hget]; exact (flipBit_ne b _).symm)

end Gpmx.Ymodem
