import Gpmx.Pipe.Common

/-!
# What one section does to the bytes in the ring

`Holds w dev bs` says that the ring of `dev` is in order and holds the bytes `bs`, oldest
first. A read section takes its bytes off the front of `bs`, a write section appends its
bytes, and every other section leaves `bs` alone.
-/

namespace Gpmx.Pipe

open Infra Option

def PipeDev.bytes (dev : PipeDev) : List UInt8 :=
  match dev.dBuffer with
  | none => []
  | some buffer =>
    Ring.contents buffer dev.dBufsize dev.dRdndx (Ring.held dev.dBufsize dev.dRdndx dev.dWrndx)

/-- The ring is allocated, its indices are inside it, and an `int` can hold its size. -/
structure Ready (w : Nat) (dev : PipeDev) : Prop where
  allocated : dev.dBuffer.isSome
  wrndx_lt : dev.dWrndx < dev.dBufsize
  rdndx_lt : dev.dRdndx < dev.dBufsize
  fits : dev.dBufsize < 2 ^ w
  small : dev.dBufsize < 2 ^ 31

variable {w : Nat} {dev dev' : PipeDev}

theorem bytes_of_buffer {buffer : Memory UInt8} (h : dev.dBuffer = some buffer) :
    dev.bytes = Ring.contents buffer dev.dBufsize dev.dRdndx
      (Ring.held dev.dBufsize dev.dRdndx dev.dWrndx) := by
  unfold PipeDev.bytes
  rw [h]

theorem Ready.length_bytes (h : Ready w dev) :
    dev.bytes.length = Ring.held dev.dBufsize dev.dRdndx dev.dWrndx := by
  obtain ⟨buffer, hb⟩ := isSome_iff_exists.mp h.allocated
  rw [bytes_of_buffer hb, Ring.length_contents]

theorem Ready.length_bytes_lt (h : Ready w dev) : dev.bytes.length < dev.dBufsize := by
  rw [h.length_bytes]
  exact Ring.held_lt h.rdndx_lt h.wrndx_lt

structure SameRing (dev dev' : PipeDev) : Prop where
  wrndx : dev'.dWrndx = dev.dWrndx
  rdndx : dev'.dRdndx = dev.dRdndx
  bufsize : dev'.dBufsize = dev.dBufsize
  buffer : dev'.dBuffer = dev.dBuffer

theorem SameRing.bytes (h : SameRing dev dev') : dev'.bytes = dev.bytes := by
  unfold PipeDev.bytes
  rw [h.wrndx, h.rdndx, h.bufsize, h.buffer]

theorem SameRing.ready (h : SameRing dev dev') (hr : Ready w dev) : Ready w dev' := by
  obtain ⟨h1, h2, h3, h4⟩ := h
  obtain ⟨r1, r2, r3, r4, r5⟩ := hr
  exact ⟨by rw [h4]; exact r1, by rw [h1, h3]; exact r2, by rw [h2, h3]; exact r3,
    by rw [h3]; exact r4, by rw [h3]; exact r5⟩

theorem sameRing_countOpen (oflags : Oflags) (dev : PipeDev) :
    SameRing dev (countOpen oflags dev) := ⟨rfl, rfl, rfl, rfl⟩

theorem sameRing_countClose (oflags : Oflags) (dev : PipeDev) :
    SameRing dev (countClose oflags dev) := ⟨rfl, rfl, rfl, rfl⟩

theorem sameRing_ioctl (cmd : IoctlCmd) (dev : PipeDev) :
    SameRing dev (pipecommonIoctl dev cmd).1 := by
  cases cmd <;> exact ⟨rfl, rfl, rfl, rfl⟩

theorem openWait_dev (oflags : Oflags) (dev : PipeDev) : (openWait oflags dev).dev = dev := by
  unfold openWait
  split <;> rfl

/-! ## One byte -/

theorem Ready.advance (h : Ready w dev) : (dev.advance w).dRdndx = Ring.next dev.dBufsize dev.dRdndx := by
  have hlt : dev.dRdndx + 1 < 2 ^ w := Nat.lt_of_le_of_lt h.rdndx_lt h.fits
  unfold PipeDev.advance Ring.next
  rw [Nat.mod_eq_of_lt hlt]

theorem Ready.nxtwrndx (h : Ready w dev) : dev.nxtwrndx = Ring.next dev.dBufsize dev.dWrndx := by
  have hlt : dev.dWrndx + 1 < 2 ^ 32 := by
    have := h.wrndx_lt
    have := h.small
    omega
  unfold PipeDev.nxtwrndx Ring.next
  rw [Nat.mod_eq_of_lt hlt]

theorem fetch_spec (h : Ready w dev) (hne : dev.dWrndx ≠ dev.dRdndx) :
    ∃ b, dev.fetch = some b ∧ Ready w (dev.advance w) ∧
      dev.bytes = b :: (dev.advance w).bytes := by
  obtain ⟨buffer, hb⟩ := isSome_iff_exists.mp h.allocated
  refine ⟨buffer dev.dRdndx, ?_, ?_, ?_⟩
  · unfold PipeDev.fetch
    rw [hb]
    exact if_pos h.rdndx_lt
  · refine ⟨h.allocated, h.wrndx_lt, ?_, h.fits, h.small⟩
    rw [h.advance]
    exact Ring.next_lt h.rdndx_lt
  · have hb' : (dev.advance w).dBuffer = some buffer := hb
    rw [bytes_of_buffer hb, bytes_of_buffer hb', h.advance]
    exact Ring.contents_pop buffer h.rdndx_lt h.wrndx_lt hne

theorem store_spec (h : Ready w dev) (b : UInt8) (hroom : dev.nxtwrndx ≠ dev.dRdndx) :
    ∃ dev', dev.store w b = some dev' ∧ Ready w dev' ∧ dev'.bytes = dev.bytes ++ [b] ∧
      dev'.dBufsize = dev.dBufsize ∧ dev'.dNreaders = dev.dNreaders ∧ dev'.dRdndx = dev.dRdndx := by
  obtain ⟨buffer, hb⟩ := isSome_iff_exists.mp h.allocated
  have hn := h.nxtwrndx
  have hlt : Ring.next dev.dBufsize dev.dWrndx < dev.dBufsize := Ring.next_lt h.wrndx_lt
  have hmod : dev.nxtwrndx % 2 ^ w = Ring.next dev.dBufsize dev.dWrndx := by
    rw [hn]
    exact Nat.mod_eq_of_lt (Nat.lt_trans hlt h.fits)
  refine ⟨{ dev with dBuffer := some (buffer.write dev.dWrndx [b]),
                     dWrndx := dev.nxtwrndx % 2 ^ w }, ?_, ?_, ?_, rfl, rfl, rfl⟩
  · unfold PipeDev.store
    rw [hb]
    exact if_pos h.wrndx_lt
  · refine ⟨rfl, ?_, h.rdndx_lt, h.fits, h.small⟩
    show dev.nxtwrndx % 2 ^ w < dev.dBufsize
    rw [hmod]
    exact hlt
  · rw [bytes_of_buffer rfl, bytes_of_buffer hb]
    show Ring.contents _ dev.dBufsize dev.dRdndx (Ring.held _ _ (dev.nxtwrndx % 2 ^ w)) = _
    rw [hmod]
    rw [hn] at hroom
    exact Ring.contents_push buffer b h.rdndx_lt h.wrndx_lt hroom

/-! ## The copy loops -/

theorem readLoop_spec : ∀ (len : Nat) {dev : PipeDev}, Ready w dev →
    ∃ r, readLoop w len dev = some r ∧ Ready w r.1 ∧ dev.bytes = r.2 ++ r.1.bytes ∧
      r.1.dBufsize = dev.dBufsize
  | 0, dev, h => ⟨(dev, []), rfl, h, rfl, rfl⟩
  | len + 1, dev, h => by
    by_cases hne : dev.dWrndx ≠ dev.dRdndx
    · obtain ⟨b, hf, hr, hbytes⟩ := fetch_spec h hne
      obtain ⟨r, hl, hr', hbytes', hsize⟩ := readLoop_spec len hr
      refine ⟨(r.1, b :: r.2), ?_, hr', ?_, hsize⟩
      · rw [readLoop, if_pos hne, hf]
        simp [hl]
      · rw [hbytes, hbytes', List.cons_append]
    · refine ⟨(dev, []), ?_, h, rfl, rfl⟩
      rw [readLoop, if_neg hne]

/-- **A read section takes its bytes off the front of the ring.** -/
theorem readSection_spec (nonblock : Bool) (len : Nat) (h : Ready w dev) :
    ∃ s, readSection w nonblock len dev = some s ∧ Ready w s.dev ∧
      dev.bytes = s.moved ++ s.dev.bytes ∧ s.dev.dBufsize = dev.dBufsize := by
  unfold readSection
  by_cases he : dev.dWrndx = dev.dRdndx
  · rw [if_pos he]
    split
    · exact ⟨_, rfl, h, rfl, rfl⟩
    · split <;> exact ⟨_, rfl, h, rfl, rfl⟩
  · rw [if_neg he]
    obtain ⟨r, hl, hr, hbytes, hsize⟩ := readLoop_spec len h
    exact ⟨⟨r.1, r.2, .done r.2.length⟩, by simp [hl], hr, hbytes, hsize⟩

/-- **A write section appends its bytes to the ring.** -/
theorem writeSection_spec (nonblock : Bool) : ∀ (buffer : List UInt8) (nwritten : Nat)
    {dev : PipeDev}, Ready w dev →
    ∃ s, writeSection w nonblock buffer nwritten dev = some s ∧ Ready w s.dev ∧
      s.dev.bytes = dev.bytes ++ s.moved ∧ s.dev.dBufsize = dev.dBufsize
  | [], nwritten, dev, h => ⟨_, rfl, h, by simp, rfl⟩
  | b :: rest, nwritten, dev, h => by
    by_cases hrd : dev.dNreaders ≤ 0
    · refine ⟨_, by rw [writeSection, if_pos hrd], h, by simp, rfl⟩
    by_cases hroom : dev.nxtwrndx ≠ dev.dRdndx
    · obtain ⟨dev', hs, hr, hbytes, hsize, -, -⟩ := store_spec h b hroom
      obtain ⟨s, hw, hr', hbytes', hsize'⟩ := writeSection_spec nonblock rest (nwritten + 1) hr
      refine ⟨{ s with moved := b :: s.moved }, ?_, hr', ?_, hsize'.trans hsize⟩
      · rw [writeSection, if_neg hrd, if_pos hroom, hs]
        simp [hw]
      · rw [hbytes', hbytes, List.append_assoc, List.singleton_append]
    · rw [writeSection, if_neg hrd, if_neg hroom]
      split <;> exact ⟨_, rfl, h, by simp, rfl⟩

theorem writeSection_accounts (nonblock : Bool) : ∀ (buffer : List UInt8) (nwritten : Nat)
    {dev : PipeDev} {s : Section}, writeSection w nonblock buffer nwritten dev = some s →
    (∃ rest, buffer = s.moved ++ rest ∧
      s.outcome = .wait (.writing rest (nwritten + s.moved.length))) ∨
    (∃ rest, buffer = s.moved ++ rest) ∧ (s.outcome = .done (nwritten + s.moved.length : Nat) ∨
      nwritten = 0 ∧ s.moved = [] ∧ (s.outcome = .done (-EPIPE) ∨ s.outcome = .done (-EAGAIN)))
  | [], nwritten, dev, s, h => by
    rw [writeSection, some.injEq] at h
    subst h
    exact .inr ⟨⟨[], rfl⟩, .inl (by simp)⟩
  | b :: rest, nwritten, dev, s, h => by
    rw [writeSection] at h
    split at h
    · simp only [some.injEq] at h
      subst h
      refine .inr ⟨⟨b :: rest, rfl⟩, ?_⟩
      by_cases hn : nwritten = 0
      · exact .inr ⟨hn, rfl, .inl (by simp [hn])⟩
      · exact .inl (by simp [hn])
    · split at h
      · obtain ⟨dev', hs, h⟩ := bind_eq_some_iff.mp h
        obtain ⟨s', hw, h⟩ := bind_eq_some_iff.mp h
        simp only [some.injEq] at h
        subst h
        have e : nwritten + 1 + s'.moved.length = nwritten + (s'.moved.length + 1) := by omega
        rcases writeSection_accounts nonblock rest (nwritten + 1) hw with ⟨r, hr, ho⟩ | ⟨⟨r, hr⟩, ho⟩
        · rw [e] at ho
          exact .inl ⟨r, by rw [hr]; rfl, ho⟩
        · rcases ho with ho | ⟨h0, -, -⟩
          · rw [e] at ho
            exact .inr ⟨⟨r, by rw [hr]; rfl⟩, .inl ho⟩
          · cases h0
      · split at h
        · simp only [some.injEq] at h
          subst h
          refine .inr ⟨⟨b :: rest, rfl⟩, ?_⟩
          by_cases hn : nwritten = 0
          · exact .inr ⟨hn, rfl, .inr (by simp [hn])⟩
          · exact .inl (by simp [hn])
        · simp only [some.injEq] at h
          subst h
          exact .inl ⟨b :: rest, rfl, by simp⟩

/-! ## How much fits -/

theorem Ready.room_iff (h : Ready w dev) :
    dev.nxtwrndx ≠ dev.dRdndx ↔ dev.bytes.length < dev.dBufsize - 1 := by
  rw [h.nxtwrndx, Ne, Ring.next_eq_iff h.rdndx_lt h.wrndx_lt, ← h.length_bytes]
  have := h.length_bytes_lt
  omega

/--
**While the pipe has a reader, a write section accepts as many bytes as there is room for, and
it waits exactly when there are more.**
-/
theorem writeSection_room : ∀ (buffer : List UInt8) (nwritten : Nat) {dev : PipeDev},
    Ready w dev → 0 < dev.dNreaders →
    ∃ s, writeSection w false buffer nwritten dev = some s ∧
      s.moved = buffer.take (dev.dBufsize - 1 - dev.bytes.length) ∧
      s.outcome = if buffer.length ≤ dev.dBufsize - 1 - dev.bytes.length
        then .done (nwritten + buffer.length : Nat)
        else .wait (.writing (buffer.drop (dev.dBufsize - 1 - dev.bytes.length))
          (nwritten + (dev.dBufsize - 1 - dev.bytes.length)))
  | [], nwritten, dev, h, hrd => ⟨_, rfl, by simp, by simp⟩
  | b :: rest, nwritten, dev, h, hrd => by
    have hlt := h.length_bytes_lt
    have hnrd : ¬dev.dNreaders ≤ 0 := by omega
    by_cases hroom : dev.nxtwrndx ≠ dev.dRdndx
    · obtain ⟨dev', hs, hr, hbytes, hsize, hreaders, -⟩ := store_spec h b hroom
      obtain ⟨s, hw, hmoved, hout⟩ :=
        writeSection_room rest (nwritten + 1) hr (by rw [hreaders]; exact hrd)
      have hr1 := h.room_iff.mp hroom
      have hlen : dev'.bytes.length = dev.bytes.length + 1 := by rw [hbytes]; simp
      obtain ⟨k, hk⟩ : ∃ k, dev.dBufsize - 1 - dev.bytes.length = k + 1 :=
        ⟨dev.dBufsize - 2 - dev.bytes.length, by omega⟩
      have hk' : dev'.dBufsize - 1 - dev'.bytes.length = k := by rw [hsize, hlen]; omega
      rw [hk'] at hmoved hout
      refine ⟨{ s with moved := b :: s.moved }, ?_, ?_, ?_⟩
      · rw [writeSection, if_neg hnrd, if_pos hroom, hs]
        simp [hw]
      · rw [hk, List.take_succ_cons, ← hmoved]
      · rw [hk]
        show s.outcome = _
        rw [hout, List.drop_succ_cons, List.length_cons]
        have e1 : nwritten + 1 + rest.length = nwritten + (rest.length + 1) := by omega
        have e2 : nwritten + 1 + k = nwritten + (k + 1) := by omega
        rw [e1, e2]
        simp only [Nat.add_le_add_iff_right]
    · have hfull : dev.dBufsize - 1 - dev.bytes.length = 0 := by
        have := mt h.room_iff.mpr hroom
        omega
      rw [hfull, writeSection, if_neg hnrd, if_neg hroom]
      exact ⟨_, rfl, rfl, by simp⟩

/-! ## The counts of `pipecommon_ioctl` -/

theorem toInt_of_small {n : Int} (h0 : 0 ≤ n) (h1 : n < 2 ^ 31) : toInt n = n := by
  unfold toInt
  rw [Int.bmod_eq_of_le (by omega) (by omega)]

theorem Ready.fionread (h : Ready w dev) : dev.fionread = dev.bytes.length := by
  rw [h.length_bytes]
  obtain ⟨-, hw, hr, -, hs⟩ := h
  unfold PipeDev.fionread Ring.held
  by_cases hlt : dev.dWrndx < dev.dRdndx
  · rw [if_pos hlt, if_pos hlt, toInt_of_small] <;> omega
  · rw [if_neg hlt, if_neg hlt, toInt_of_small] <;> omega

theorem Ready.fionspace (h : Ready w dev) :
    dev.fionspace = (dev.dBufsize - 1 - dev.bytes.length : Nat) := by
  rw [h.length_bytes]
  obtain ⟨-, hw, hr, -, hs⟩ := h
  unfold PipeDev.fionspace Ring.held
  by_cases hlt : dev.dWrndx < dev.dRdndx
  · rw [if_pos hlt, if_pos hlt, toInt_of_small] <;> omega
  · rw [if_neg hlt, if_neg hlt, toInt_of_small] <;> omega

end Gpmx.Pipe
