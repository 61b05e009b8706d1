import Gpmx.Pipe.Sections

/-!
# A pipe is a lossless byte stream

Any number of threads call into one pipe. What they do to each other goes through the
sections of their calls, one section at a time, in any order; a waiting thread may come back
whenever the scheduler likes, which includes every order that the semaphores allow.

`accepted` and `delivered` record the bytes that writers handed over and the bytes that
readers got. The ring always holds the difference (`pipe_lossless`).
-/

namespace Gpmx.Pipe

open Infra

/-- A pipe, the calls that wait on it, and the record of what went through. -/
structure Sys where
  dev : PipeDev
  /-- `i_crefs` of the inode -/
  crefs : Nat
  pending : Nat → Option Pending
  accepted : List UInt8
  delivered : List UInt8

inductive Action where
  | callOpen (t : Nat) (oflags : Oflags)
  | callClose (oflags : Oflags)
  | callRead (t : Nat) (nonblock : Bool) (len : Nat)
  | callWrite (t : Nat) (nonblock : Bool) (buffer : List UInt8)
  | callIoctl (cmd : IoctlCmd)
  /-- The wait of `t` ends and `t` has `d_bfsem` again. -/
  | resume (t : Nat)
  /-- The wait of `t` ends with an error. -/
  | interrupt (t : Nat)

def Outcome.failed : Outcome → Bool
  | .done ret => decide (ret < 0)
  | .wait _ => false

def Outcome.rest : Outcome → Option Pending
  | .done _ => none
  | .wait pending => some pending

/-- Thread `t` has gone through a section. -/
def Sys.settle (s : Sys) (t : Nat) (sec : Section) : Sys :=
  { s with
    dev := sec.dev
    pending := fun i => if i = t then sec.outcome.rest else s.pending i }

def Sys.deliver (s : Sys) (t : Nat) (sec : Section) : Sys :=
  { s.settle t sec with delivered := s.delivered ++ sec.moved }

def Sys.accept (s : Sys) (t : Nat) (sec : Section) : Sys :=
  { s.settle t sec with accepted := s.accepted ++ sec.moved }

def Sys.close (s : Sys) (oflags : Oflags) : Sys :=
  if s.crefs > 1 then
    { s with dev := pipecommonClose s.crefs oflags s.dev, crefs := s.crefs - 1 }
  else s

/-- The wait of `t` ended with an error; an open that fails so closes the pipe again. -/
def Sys.abort (s : Sys) (t : Nat) : Sys :=
  match s.pending t with
  | none => s
  | some (.opening oflags) =>
    { s.close oflags with pending := fun i => if i = t then none else s.pending i }
  | some _ => { s with pending := fun i => if i = t then none else s.pending i }

/-- The wait of `t` is over: the next section of its call. -/
def Sys.continue (w : Nat) (s : Sys) (t : Nat) : Option Sys :=
  match s.pending t with
  | none => some s
  | some (.opening oflags) => some (s.settle t (openWait oflags s.dev))
  | some (.reading len) => (readSection w false len s.dev).map (s.deliver t)
  | some (.writing rest nwritten) => (writeSection w false rest nwritten s.dev).map (s.accept t)

def step (malloc : Malloc) (w : Nat) (s : Sys) : Action → Option Sys
  | .callOpen t oflags =>
    if (s.pending t).isSome then some s
    else
      let sec := pipecommonOpen malloc (s.crefs + 1) oflags s.dev
      if sec.outcome.failed then some s
      else some { s.settle t sec with crefs := s.crefs + 1 }
  | .callClose oflags => some (s.close oflags)
  | .callRead t nonblock len =>
    if (s.pending t).isSome then some s
    else (pipecommonRead w nonblock len s.dev).map (s.deliver t)
  | .callWrite t nonblock buffer =>
    if (s.pending t).isSome then some s
    else (pipecommonWrite w nonblock buffer s.dev).map (s.accept t)
  | .callIoctl cmd => some { s with dev := (pipecommonIoctl s.dev cmd).1 }
  | .resume t => s.continue w t
  | .interrupt t => some (s.abort t)

/-- A pipe of `bufsize` bytes, just created and opened by thread `t`, if there was memory. -/
def Sys.opened (malloc : Malloc) (w bufsize t : Nat) (oflags : Oflags) : Option Sys :=
  let sec := pipecommonOpen malloc 1 oflags (pipecommonAllocdev w bufsize)
  if sec.outcome.failed then none
  else
    some { dev := sec.dev, crefs := 1, pending := fun i => if i = t then sec.outcome.rest else none,
           accepted := [], delivered := [] }

/-! ## The invariant -/

structure Streams (w size : Nat) (s : Sys) : Prop where
  ready : Ready w s.dev
  size_eq : s.dev.dBufsize = size
  lossless : s.accepted = s.delivered ++ s.dev.bytes

variable {malloc : Malloc} {w size : Nat} {s : Sys}

section

variable (h : Streams w size s)
include h

theorem Streams.of_sameRing {s' : Sys} (hd : SameRing s.dev s'.dev)
    (ha : s'.accepted = s.accepted) (hdel : s'.delivered = s.delivered) : Streams w size s' :=
  ⟨hd.ready h.ready, hd.bufsize.trans h.size_eq, by rw [ha, hdel, hd.bytes]; exact h.lossless⟩

variable {sec : Section} {dev : PipeDev} {oflags : Oflags}

theorem Streams.deliver (t : Nat) (hr : Ready w sec.dev)
    (hb : s.dev.bytes = sec.moved ++ sec.dev.bytes) (hs : sec.dev.dBufsize = s.dev.dBufsize) :
    Streams w size (s.deliver t sec) := by
  refine ⟨hr, hs.trans h.size_eq, ?_⟩
  show s.accepted = (s.delivered ++ sec.moved) ++ sec.dev.bytes
  rw [h.lossless, hb, List.append_assoc]

theorem Streams.accept (t : Nat) (hr : Ready w sec.dev)
    (hb : sec.dev.bytes = s.dev.bytes ++ sec.moved) (hs : sec.dev.dBufsize = s.dev.dBufsize) :
    Streams w size (s.accept t sec) := by
  refine ⟨hr, hs.trans h.size_eq, ?_⟩
  show s.accepted ++ sec.moved = s.delivered ++ sec.dev.bytes
  rw [h.lossless, hb, List.append_assoc]

theorem Streams.close (oflags : Oflags) : Streams w size (s.close oflags) := by
  unfold Sys.close
  split
  · rename_i hc
    refine h.of_sameRing ?_ rfl rfl
    show SameRing s.dev (pipecommonClose s.crefs oflags s.dev)
    unfold pipecommonClose
    rw [if_pos hc]
    exact sameRing_countClose oflags s.dev
  · exact h

theorem Streams.abort (t : Nat) : Streams w size (s.abort t) := by
  unfold Sys.abort
  split
  · exact h
  · exact (h.close _).of_sameRing ⟨rfl, rfl, rfl, rfl⟩ rfl rfl
  · exact h.of_sameRing ⟨rfl, rfl, rfl, rfl⟩ rfl rfl

theorem Streams.readSection (t : Nat) (nonblock : Bool) (len : Nat) :
    ∃ s', (Pipe.readSection w nonblock len s.dev).map (s.deliver t) = some s' ∧
      Streams w size s' := by
  obtain ⟨sec, hsec, hr, hb, hs⟩ := readSection_spec nonblock len h.ready
  exact ⟨s.deliver t sec, by rw [hsec]; rfl, h.deliver t hr hb hs⟩

theorem Streams.writeSection (t : Nat) (nonblock : Bool) (buffer : List UInt8) (nwritten : Nat) :
    ∃ s', (Pipe.writeSection w nonblock buffer nwritten s.dev).map (s.accept t) = some s' ∧
      Streams w size s' := by
  obtain ⟨sec, hsec, hr, hb, hs⟩ := writeSection_spec nonblock buffer nwritten h.ready
  exact ⟨s.accept t sec, by rw [hsec]; rfl, h.accept t hr hb hs⟩

theorem Streams.continue (t : Nat) : ∃ s', s.continue w t = some s' ∧ Streams w size s' := by
  unfold Sys.continue
  cases s.pending t with
  | none => exact ⟨s, rfl, h⟩
  | some pending =>
    cases pending with
    | opening oflags =>
      refine ⟨_, rfl, h.of_sameRing ?_ rfl rfl⟩
      show SameRing s.dev (openWait oflags s.dev).dev
      rw [openWait_dev]
      exact ⟨rfl, rfl, rfl, rfl⟩
    | reading len => exact h.readSection t false len
    | writing rest nwritten => exact h.writeSection t false rest nwritten

end

theorem sameRing_open (crefs : Nat) (oflags : Oflags) (h : dev.dBuffer.isSome) :
    SameRing dev (pipecommonOpen malloc crefs oflags dev).dev := by
  unfold pipecommonOpen
  have hn : ¬(crefs = 1 ∧ dev.dBuffer.isNone = true) := by
    rintro ⟨-, hnone⟩
    rw [Option.isNone_iff_eq_none] at hnone
    rw [hnone] at h
    cases h
  rw [if_neg hn, openWait_dev]
  exact sameRing_countOpen oflags dev

/-- **Every action keeps the stream, and none leaves the ring's memory.** -/
theorem step_streams (malloc : Malloc) (h : Streams w size s) (a : Action) :
    ∃ s', step malloc w s a = some s' ∧ Streams w size s' := by
  cases a with
  | callOpen t oflags =>
    simp only [step]
    split
    · exact ⟨s, rfl, h⟩
    · split
      · exact ⟨s, rfl, h⟩
      · refine ⟨_, rfl, h.of_sameRing ?_ rfl rfl⟩
        exact sameRing_open (s.crefs + 1) oflags h.ready.allocated
  | callClose oflags => exact ⟨_, rfl, h.close oflags⟩
  | callRead t nonblock len =>
    simp only [step, pipecommonRead]
    split
    · exact ⟨s, rfl, h⟩
    · split
      · exact ⟨_, rfl, h.deliver t h.ready rfl rfl⟩
      · exact h.readSection t nonblock len
  | callWrite t nonblock buffer =>
    simp only [step, pipecommonWrite]
    split
    · exact ⟨s, rfl, h⟩
    · split
      · exact ⟨_, rfl, h.accept t h.ready (List.append_nil _).symm rfl⟩
      · exact h.writeSection t nonblock buffer 0
  | callIoctl cmd => exact ⟨_, rfl, h.of_sameRing (sameRing_ioctl cmd s.dev) rfl rfl⟩
  | resume t => exact h.continue t
  | interrupt t => exact ⟨_, rfl, h.abort t⟩

theorem run_streams (malloc : Malloc) : ∀ (acts : List Action) {s : Sys}, Streams w size s →
    ∃ s', acts.foldlM (step malloc w) s = some s' ∧ Streams w size s'
  | [], s, h => ⟨s, rfl, h⟩
  | a :: acts, s, h => by
    obtain ⟨s1, hs1, h1⟩ := step_streams malloc h a
    obtain ⟨s2, hs2, h2⟩ := run_streams malloc acts h1
    exact ⟨s2, by rw [List.foldlM_cons, hs1]; exact hs2, h2⟩

/-! ## From the first open on -/

/--
What the driver relies on from `kmm_malloc`: it gives no buffer of no bytes, and none whose size
an `int` cannot hold. (`pvPortMalloc` answers both requests with NULL.)
-/
def Malloc.Lawful (malloc : Malloc) : Prop :=
  ∀ n buffer, malloc n = some buffer → 0 < n ∧ n < 2 ^ 31

theorem open_first (hb : dev.dBuffer = none)
    (h : (pipecommonOpen malloc 1 oflags dev).outcome.failed = false) :
    ∃ buffer, malloc dev.dBufsize = some buffer ∧
      (pipecommonOpen malloc 1 oflags dev).dev
        = countOpen oflags { dev with dBuffer := some buffer } := by
  have hfirst : (1 = 1 ∧ dev.dBuffer.isNone = true) := ⟨rfl, by rw [hb]; rfl⟩
  unfold pipecommonOpen at h ⊢
  rw [if_pos hfirst] at h ⊢
  cases hmalloc : malloc dev.dBufsize with
  | none =>
    rw [hmalloc] at h
    cases h
  | some buffer => exact ⟨buffer, rfl, openWait_dev _ _⟩

theorem opened_streams {bufsize maxsize t : Nat} (hm : malloc.Lawful) (hmax : bufsize ≤ maxsize)
    (hsize : maxsize < 2 ^ 32) (h : Sys.opened malloc (ndxBits maxsize) bufsize t oflags = some s) :
    Streams (ndxBits maxsize) (bufsize + 1) s := by
  have hbits : bufsize + 1 ≤ 2 ^ ndxBits maxsize := by
    unfold ndxBits
    split
    · omega
    · split <;> omega
  simp only [Sys.opened] at h
  split at h
  · cases h
  · rename_i hok
    obtain ⟨buffer, hmalloc, hdev⟩ := open_first rfl (Bool.eq_false_iff.mpr hok)
    obtain ⟨hpos, hlt⟩ := hm _ _ hmalloc
    -- a size that wraps to no bytes gets no buffer
    have hmod : (bufsize + 1) % 2 ^ ndxBits maxsize = bufsize + 1 := by
      rcases Nat.lt_or_eq_of_le hbits with hb | hb
      · exact Nat.mod_eq_of_lt hb
      · simp only [pipecommonAllocdev, hb, Nat.mod_self] at hpos
        cases hpos
    simp only [pipecommonAllocdev, hmod] at hpos hlt
    have hfits : bufsize + 1 < 2 ^ ndxBits maxsize := by
      rw [← hmod]
      exact Nat.mod_lt _ (Nat.two_pow_pos _)
    rw [Option.some.injEq] at h
    subst h
    have hsame : SameRing { pipecommonAllocdev (ndxBits maxsize) bufsize with
        dBuffer := some buffer } (pipecommonOpen malloc 1 oflags
          (pipecommonAllocdev (ndxBits maxsize) bufsize)).dev := by
      rw [hdev]
      exact sameRing_countOpen oflags _
    refine ⟨hsame.ready ⟨rfl, ?_, ?_, ?_, ?_⟩, hsame.bufsize.trans hmod, ?_⟩
    · simpa only [pipecommonAllocdev, hmod] using hpos
    · simpa only [pipecommonAllocdev, hmod] using hpos
    · simpa only [pipecommonAllocdev, hmod] using hfits
    · simpa only [pipecommonAllocdev, hmod] using hlt
    · rw [hsame.bytes]
      rfl

def boardMalloc : Malloc := fun n => if 0 < n ∧ n ≤ 1024 then some (fun _ => 0) else none

theorem boardMalloc_lawful : boardMalloc.Lawful := by
  intro n buffer h
  unfold boardMalloc at h
  split at h
  · rename_i hn
    exact ⟨hn.1, Nat.lt_of_le_of_lt hn.2 (by decide)⟩
  · cases h

example : ((Sys.opened boardMalloc (ndxBits 1024) 3 0 ⟨true, true, false⟩).bind fun s0 =>
    ([.callWrite 1 false [1, 2, 3, 4, 5], .callRead 2 false 2, .resume 1,
      .callRead 2 true 9].foldlM (step boardMalloc (ndxBits 1024)) s0).map
        fun s => (s.delivered, s.dev.bytes)) = some ([1, 2, 3, 4, 5], []) := by
  decide

end Gpmx.Pipe
