import Gpmx.Infra.Nesting
import Gpmx.Hrt.CalloutRuns

/-!
# The critical sections of the high resolution timer

The functions of `gpm/sched/platform/hrt/hrt_stm32.c` with what they do to the interrupt flag,
in the build without `CONFIG_HRT_PRIMASK_CONTROL`: `hrt_enter_critical_section` is
`__disable_irq()`, and `hrt_leave_critical_section` is `__enable_irq()` whatever the flag was.

While the flag is set, interrupts may be served, which call any callouts. `serve n` is what they
have done to the queue when the flag is cleared after `n` acts.
-/

namespace Gpmx.Hrt

open Queue Infra Infra.Act Callouts Function Option

structure Cpu where
  callouts : Callouts
  flag : Bool
  acts : List Act

/-- A call of the interface, with the times it reads and the turns of its loops. -/
inductive Request where
  | absoluteTime
  | elapsedTime
  | elapsedTimeAtomic
  | storeAbsoluteTime
  | init
  | callAfter (fuel now : Nat) (entry : Entry) (delay : Nat) (callout : Option Nat) (arg : Nat)
  | callAt (fuel : Nat) (entry : Entry) (calltime : Nat) (callout : Option Nat) (arg : Nat)
  | callEvery (fuel now : Nat) (entry : Entry) (delay interval : Nat) (callout : Option Nat)
      (arg : Nat)
  | called (entry : Entry)
  | cancel (fuel : Nat) (entry : Entry)
  | callInit (entry : Entry)
  | callDelay (now : Nat) (entry : Entry) (delay : Nat)

/-- `memset(entry, 0, sizeof(*entry))` -/
def Callouts.hrtCallInit (entry : Entry) (s : Callouts) : Callouts :=
  { queue := { s.queue with flink := update s.queue.flink entry none }
    deadline := update s.deadline entry 0
    period := update s.period entry 0
    callout := update s.callout entry none
    arg := update s.arg entry 0 }

/-- `sq_init(&callout_queue)`; the interrupts are not touched by `hrt_tim_init`. -/
def Callouts.hrtInit (s : Callouts) : Callouts :=
  { s with queue := { s.queue with head := none, tail := none } }

namespace Cpu

variable (serve : Nat → Callouts → Callouts)

/-- `flags = (0); __disable_irq()` -/
def enter (m : Cpu) : Cpu :=
  { callouts := if m.flag then serve m.acts.length m.callouts else m.callouts
    flag := false
    acts := m.acts ++ [.enter] }

/-- `__enable_irq()` -/
def leave (m : Cpu) : Cpu :=
  { m with flag := true, acts := m.acts ++ [.leave] }

def hrtAbsoluteTime (m : Cpu) : Cpu := (m.enter serve).leave

/-- The inline function of `drv_hrt.h`. -/
def hrtElapsedTime (m : Cpu) : Cpu := m.hrtAbsoluteTime serve

def hrtElapsedTimeAtomic (m : Cpu) : Cpu := ((m.enter serve).hrtAbsoluteTime serve).leave

def hrtStoreAbsoluteTime (m : Cpu) : Cpu := ((m.enter serve).hrtAbsoluteTime serve).leave

/-- `hrt_call_reschedule` reads the time and writes the compare register. -/
def hrtCallReschedule (m : Cpu) : Cpu := m.hrtAbsoluteTime serve

def addfirst (entry : Entry) (m : Cpu) : Cpu :=
  { m with callouts := { m.callouts with queue := m.callouts.queue.addfirst entry } }

def hrtCallEnter (fuel : Nat) (entry : Entry) (m : Cpu) : Option Cpu :=
  match m.callouts.queue.head with
  | none => some ((m.addfirst entry).hrtCallReschedule serve)
  | some call =>
    if m.callouts.deadline entry < m.callouts.deadline call then
      some ((m.addfirst entry).hrtCallReschedule serve)
    else
      (m.callouts.enterLoop entry fuel call).map fun queue =>
        { m with callouts := { m.callouts with queue } }

def hrtCallInternal (fuel : Nat) (entry : Entry) (deadline interval : Nat) (callout : Option Nat)
    (arg : Nat) (m : Cpu) : Option Cpu := do
  let m := m.enter serve
  let queue ← m.callouts.unlinkQueued fuel entry
  let m ← hrtCallEnter serve fuel entry
    { m with callouts := m.callouts.assign entry deadline interval callout arg queue }
  some m.leave

/-- The time is read before the section of `hrt_call_internal`. -/
def hrtCallAfter (fuel now : Nat) (entry : Entry) (delay : Nat) (callout : Option Nat) (arg : Nat)
    (m : Cpu) : Option Cpu :=
  (m.hrtAbsoluteTime serve).hrtCallInternal serve fuel entry (absTime (now + delay)) 0 callout arg

def hrtCallAt (fuel : Nat) (entry : Entry) (calltime : Nat) (callout : Option Nat) (arg : Nat)
    (m : Cpu) : Option Cpu :=
  m.hrtCallInternal serve fuel entry calltime 0 callout arg

def hrtCallEvery (fuel now : Nat) (entry : Entry) (delay interval : Nat) (callout : Option Nat)
    (arg : Nat) (m : Cpu) : Option Cpu :=
  (m.hrtAbsoluteTime serve).hrtCallInternal serve fuel entry (absTime (now + delay)) interval
    callout arg

def hrtCancel (fuel : Nat) (entry : Entry) (m : Cpu) : Option Cpu := do
  let m := m.enter serve
  let callouts ← m.callouts.hrtCancel fuel entry
  some { m with callouts }.leave

def hrtCallDelay (now : Nat) (entry : Entry) (delay : Nat) (m : Cpu) : Cpu :=
  let m := m.hrtAbsoluteTime serve
  { m with callouts := m.callouts.hrtCallDelay now entry delay }

def call (m : Cpu) : Request → Option Cpu
  | .absoluteTime => some (m.hrtAbsoluteTime serve)
  | .elapsedTime => some (m.hrtElapsedTime serve)
  | .elapsedTimeAtomic => some (m.hrtElapsedTimeAtomic serve)
  | .storeAbsoluteTime => some (m.hrtStoreAbsoluteTime serve)
  | .init => some { m with callouts := m.callouts.hrtInit }
  | .callAfter fuel now entry delay callout arg =>
    m.hrtCallAfter serve fuel now entry delay callout arg
  | .callAt fuel entry calltime callout arg => m.hrtCallAt serve fuel entry calltime callout arg
  | .callEvery fuel now entry delay interval callout arg =>
    m.hrtCallEvery serve fuel now entry delay interval callout arg
  | .called _ => some m
  | .cancel fuel entry => m.hrtCancel serve fuel entry
  | .callInit entry => some { m with callouts := m.callouts.hrtCallInit entry }
  | .callDelay now entry delay => some (m.hrtCallDelay serve now entry delay)

def run (m : Cpu) (cs : List Request) : Option Cpu := cs.foldlM (call serve) m

def start (callouts : Callouts) (flag : Bool) : Cpu := ⟨callouts, flag, []⟩

end Cpu

/-! ## The condition on a call -/

/-- `hrt_call_enter` puts the entry before the others. -/
def Callouts.goesFirst (entry : Entry) (s : Callouts) : Bool :=
  match s.queue.head with
  | none => true
  | some call => s.deadline entry < s.deadline call

/-- `hrt_call_internal` puts the entry before the others. -/
def Callouts.becomesHead (fuel : Nat) (entry : Entry) (deadline : Nat) (s : Callouts) : Bool :=
  match s.unlinkQueued fuel entry with
  | none => false
  | some queue => (s.assign entry deadline 0 none 0 queue).goesFirst entry

section

variable (serve : Nat → Callouts → Callouts)

/-- A call that has a critical section is made with the interrupts enabled, and has no other
section in it. -/
def Request.Fits (m : Cpu) : Request → Prop
  | .absoluteTime => m.flag = true
  | .elapsedTime => m.flag = true
  | .elapsedTimeAtomic => False
  | .storeAbsoluteTime => False
  | .init => True
  | .callAfter fuel now entry delay _ _ =>
    m.flag = true ∧ ((m.hrtAbsoluteTime serve).enter serve).callouts.becomesHead fuel entry
      (absTime (now + delay)) = false
  | .callAt fuel entry calltime _ _ =>
    m.flag = true ∧ (m.enter serve).callouts.becomesHead fuel entry calltime = false
  | .callEvery fuel now entry delay _ _ _ =>
    m.flag = true ∧ ((m.hrtAbsoluteTime serve).enter serve).callouts.becomesHead fuel entry
      (absTime (now + delay)) = false
  | .called _ => True
  | .cancel _ _ => m.flag = true
  | .callInit _ => True
  | .callDelay _ _ _ => m.flag = true

def AllFit : Cpu → List Request → Prop
  | _, [] => True
  | m, c :: cs => c.Fits serve m ∧ ∀ m', m.call serve c = some m' → AllFit m' cs

end

/-! ## The acts of one call -/

variable {serve : Nat → Callouts → Callouts} {m m' m'' : Cpu} {acts acts' : List Act}
  {entry : Entry} {fuel deadline interval arg : Nat} {callout : Option Nat}

/-- From `m` to `m'` with these acts, which leave no section open. -/
structure Segment (m m' : Cpu) (acts : List Act) : Prop where
  done : m'.acts = m.acts ++ acts
  left : m'.flag = Act.flag m.flag acts
  closed : depth acts = 0

theorem Segment.refl : Segment m m [] := ⟨(List.append_nil _).symm, rfl, rfl⟩

theorem Segment.trans (h : Segment m m' acts) (h' : Segment m' m'' acts') :
    Segment m m'' (acts ++ acts') where
  done := by rw [h'.done, h.done, List.append_assoc]
  left := by rw [h'.left, h.left, flag_append]
  closed := by rw [depth_append h.closed, h'.closed]

def plain : List Act := [.enter, .leave]

def doubled : List Act := [.enter, .enter, .leave, .leave]

theorem nests_plain : ∀ flag, Nests flag plain ↔ flag = true := by decide

theorem not_nests_doubled : ∀ flag, ¬Nests flag doubled := by decide

theorem segment_absoluteTime : Segment m (m.hrtAbsoluteTime serve) plain :=
  ⟨List.append_assoc _ _ _, rfl, rfl⟩

theorem segment_doubled :
    Segment m ((m.enter serve).hrtAbsoluteTime serve).leave doubled := by
  refine ⟨?_, rfl, rfl⟩
  show ((m.acts ++ [_]) ++ [_] ++ [_]) ++ [_] = m.acts ++ doubled
  simp only [List.append_assoc, List.cons_append, List.nil_append, doubled]

theorem hrtCallEnter_acts (hs : m.hrtCallEnter serve fuel entry = some m') :
    m'.acts = m.acts ++ (if m.callouts.goesFirst entry then plain else []) := by
  unfold Cpu.hrtCallEnter at hs
  unfold Callouts.goesFirst
  cases hhead : m.callouts.queue.head with
  | none =>
    rw [hhead] at hs
    cases hs
    exact List.append_assoc _ _ _
  | some call =>
    simp only [hhead] at hs
    split at hs
    · next hlt =>
      cases hs
      simp only [hlt, decide_true, if_true]
      exact List.append_assoc _ _ _
    · next hle =>
      obtain ⟨queue, -, rfl⟩ := map_eq_some_iff.mp hs
      simp only [hle, decide_false, Bool.false_eq_true, if_false, List.append_nil]

theorem hrtCallInternal_segment
    (hs : m.hrtCallInternal serve fuel entry deadline interval callout arg = some m') :
    ∃ acts, Segment m m' acts ∧ (Nests m.flag acts ↔
      m.flag = true ∧ (m.enter serve).callouts.becomesHead fuel entry deadline = false) := by
  obtain ⟨queue, hqueue, hs⟩ := bind_eq_some_iff.mp hs
  obtain ⟨m₁, henter, hs⟩ := bind_eq_some_iff.mp hs
  cases hs
  have hacts := hrtCallEnter_acts henter
  have hgoes : (m.enter serve).callouts.becomesHead fuel entry deadline =
      ((m.enter serve).callouts.assign entry deadline interval callout arg queue).goesFirst
        entry := by
    unfold Callouts.becomesHead
    rw [hqueue]
    rfl
  rw [hgoes]
  cases hfirst : ((m.enter serve).callouts.assign entry deadline interval callout arg
      queue).goesFirst entry with
  | true =>
    rw [hfirst] at hacts
    refine ⟨doubled, ⟨?_, rfl, rfl⟩, ?_⟩
    · show m₁.acts ++ [_] = _
      rw [hacts]
      show ((m.acts ++ [_]) ++ [_, _]) ++ [_] = _
      simp only [List.append_assoc, List.cons_append, List.nil_append, doubled]
    · exact iff_of_false (not_nests_doubled _) (fun h => Bool.noConfusion h.2)
  | false =>
    rw [hfirst] at hacts
    refine ⟨plain, ⟨?_, rfl, rfl⟩, ?_⟩
    · show m₁.acts ++ [_] = _
      rw [hacts]
      show ((m.acts ++ [_]) ++ []) ++ [_] = _
      simp only [List.append_assoc, List.cons_append, List.nil_append, plain]
    · rw [nests_plain]
      exact ⟨fun h => ⟨h, rfl⟩, And.left⟩

theorem absoluteTime_hrtCallInternal_segment
    (hs : (m.hrtAbsoluteTime serve).hrtCallInternal serve fuel entry deadline interval callout arg =
      some m') :
    ∃ acts, Segment m m' acts ∧ (Nests m.flag acts ↔ m.flag = true ∧
      ((m.hrtAbsoluteTime serve).enter serve).callouts.becomesHead fuel entry deadline = false) := by
  obtain ⟨acts, hseg, hiff⟩ := hrtCallInternal_segment hs
  refine ⟨plain ++ acts, segment_absoluteTime.trans hseg, ?_⟩
  have hflag : (m.hrtAbsoluteTime serve).flag = true := rfl
  rw [hflag] at hiff
  rw [nests_append rfl, nests_plain]
  constructor
  · rintro ⟨hm, hacts⟩
    rw [hm] at hacts
    exact ⟨hm, (hiff.mp hacts).2⟩
  · rintro ⟨hm, hhead⟩
    rw [hm]
    exact ⟨rfl, hiff.mpr ⟨rfl, hhead⟩⟩

theorem hrtCancel_segment (hs : m.hrtCancel serve fuel entry = some m') : Segment m m' plain := by
  obtain ⟨c, -, hs⟩ := bind_eq_some_iff.mp hs
  cases hs
  exact ⟨List.append_assoc _ _ _, rfl, rfl⟩

/-- **One call nests when it fits.** -/
theorem call_segment {c : Request} (hs : m.call serve c = some m') :
    ∃ acts, Segment m m' acts ∧ (Nests m.flag acts ↔ c.Fits serve m) := by
  have hnone : Nests m.flag [] ↔ True := iff_true_intro nests_nil
  cases c with
  | absoluteTime | elapsedTime =>
    cases hs
    exact ⟨plain, segment_absoluteTime, nests_plain _⟩
  | elapsedTimeAtomic | storeAbsoluteTime =>
    cases hs
    exact ⟨doubled, segment_doubled, iff_of_false (not_nests_doubled _) id⟩
  | init | callInit entry =>
    cases hs
    exact ⟨[], ⟨(List.append_nil _).symm, rfl, rfl⟩, hnone⟩
  | callAfter fuel now entry delay callout arg => exact absoluteTime_hrtCallInternal_segment hs
  | callAt fuel entry calltime callout arg => exact hrtCallInternal_segment hs
  | callEvery fuel now entry delay interval callout arg =>
    exact absoluteTime_hrtCallInternal_segment hs
  | called entry =>
    cases hs
    exact ⟨[], Segment.refl, hnone⟩
  | cancel fuel entry => exact ⟨plain, hrtCancel_segment hs, nests_plain _⟩
  | callDelay now entry delay =>
    cases hs
    exact ⟨plain, ⟨List.append_assoc _ _ _, rfl, rfl⟩, nests_plain _⟩

/-! ## What the calls do to the queue -/

theorem hrtCallEnter_callouts (hm : m.flag = false) :
    (m.hrtCallEnter serve fuel entry).map Cpu.callouts = m.callouts.hrtCallEnter fuel entry := by
  have hfirst : ((m.addfirst entry).hrtCallReschedule serve).callouts =
      { m.callouts with queue := m.callouts.queue.addfirst entry } := by
    show (if m.flag then _ else _) = _
    rw [if_neg (Bool.eq_false_iff.mp hm)]
    rfl
  unfold Cpu.hrtCallEnter Callouts.hrtCallEnter
  cases m.callouts.queue.head with
  | none => exact congrArg some hfirst
  | some call =>
    dsimp only
    split
    · exact congrArg some hfirst
    · rw [map_map]
      rfl

theorem hrtCallInternal_callouts :
    (m.hrtCallInternal serve fuel entry deadline interval callout arg).map Cpu.callouts =
      (m.enter serve).callouts.hrtCallInternal fuel entry deadline interval callout arg := by
  unfold Cpu.hrtCallInternal Callouts.hrtCallInternal
  dsimp only [bind_eq_bind]
  cases (m.enter serve).callouts.unlinkQueued fuel entry with
  | none => rfl
  | some queue =>
    rw [bind_some, bind_some]
    have hsection : ({ m.enter serve with
      callouts := (m.enter serve).callouts.assign entry deadline interval callout arg queue }
        : Cpu).flag = false := rfl
    have henter : (Cpu.hrtCallEnter serve fuel entry { m.enter serve with
      callouts := (m.enter serve).callouts.assign entry deadline interval callout arg queue }).map
        Cpu.callouts = _ := hrtCallEnter_callouts hsection
    rw [← henter]
    cases Cpu.hrtCallEnter serve fuel entry { m.enter serve with
      callouts := (m.enter serve).callouts.assign entry deadline interval callout arg queue } <;> rfl

/-! ## Every sequence of calls -/

theorem run_segment : ∀ (cs : List Request) {m : Cpu}, m.run serve cs = some m' →
    ∃ acts, Segment m m' acts ∧ (Nests m.flag acts ↔ AllFit serve m cs)
  | [], m, hs => by
    cases hs
    exact ⟨[], Segment.refl, iff_of_true nests_nil trivial⟩
  | c :: cs, m, hs => by
    obtain ⟨m₁, hcall, hrest⟩ := bind_eq_some_iff.mp hs
    obtain ⟨acts₁, hseg₁, hfits⟩ := call_segment hcall
    obtain ⟨acts₂, hseg₂, hall⟩ := run_segment cs hrest
    refine ⟨acts₁ ++ acts₂, hseg₁.trans hseg₂, ?_⟩
    rw [nests_append hseg₁.closed]
    -- when the first call nests, it leaves the flag as it was for the others
    have hflag : Nests m.flag acts₁ → m₁.flag = m.flag := fun h => by
      rw [hseg₁.left, h.flag_eq hseg₁.closed]
    constructor
    · rintro ⟨hfirst, hsecond⟩
      refine ⟨hfits.mp hfirst, fun m₂ hm₂ => ?_⟩
      obtain rfl := some.inj (hcall.symm.trans hm₂)
      rw [← hflag hfirst] at hsecond
      exact hall.mp hsecond
    · rintro ⟨hfirst, hsecond⟩
      have hnests := hfits.mpr hfirst
      refine ⟨hnests, ?_⟩
      rw [← hflag hnests]
      exact hall.mpr (hsecond m₁ hcall)

/--
**The critical sections nest exactly when every call fits.** After any sequence of calls from any
context, all sections are closed; and the interrupts were enabled only outside of them and only
where the context has them enabled, if and only if each call either has no section, or is made
with the interrupts enabled and has no section within another.
-/
theorem sections_nest_iff {callouts : Callouts} {flag : Bool} {cs : List Request}
    (hs : (Cpu.start callouts flag).run serve cs = some m) :
    depth m.acts = 0 ∧ m.flag = Act.flag flag m.acts ∧
      (Nests flag m.acts ↔ AllFit serve (Cpu.start callouts flag) cs) := by
  obtain ⟨acts, hseg, hiff⟩ := run_segment cs hs
  have hacts : m.acts = acts := hseg.done
  rw [hacts]
  exact ⟨hseg.closed, hseg.left, hiff⟩

/-- The time is read twice with the interrupts enabled. -/
theorem sections_nest_twice :
    Nests true [.enter, .leave, .enter, .leave] ∧
    ((Cpu.start idle.callouts true).run (fun _ c => c) [.absoluteTime, .absoluteTime]).map Cpu.flag =
      some true := by
  obtain ⟨m, hm, hacts⟩ : ∃ m, (Cpu.start idle.callouts true).run (fun _ c => c)
      [.absoluteTime, .absoluteTime] = some m ∧ m.acts = [.enter, .leave, .enter, .leave] :=
    ⟨_, rfl, rfl⟩
  obtain ⟨-, hflag, hiff⟩ := sections_nest_iff hm
  have hfit : AllFit (fun _ c => c) (Cpu.start idle.callouts true)
      [.absoluteTime, .absoluteTime] := by
    refine ⟨rfl, fun m₁ hm₁ => ⟨?_, fun _ _ => trivial⟩⟩
    obtain rfl := some.inj hm₁
    rfl
  rw [hacts] at hiff hflag
  refine ⟨hiff.mpr hfit, ?_⟩
  rw [hm]
  exact congrArg some hflag

/-- Reading the time with the interrupts disabled enables them; and so does, within its section,
`hrt_elapsed_time_atomic`, and `hrt_call_at` for an entry that is due first. -/
theorem sections_not_nested :
    (∃ m, (Cpu.start idle.callouts false).run (fun _ c => c) [.absoluteTime] = some m ∧
      m.flag = true ∧ ¬Nests false m.acts) ∧
    (∃ m, (Cpu.start idle.callouts true).run (fun _ c => c) [.elapsedTimeAtomic] = some m ∧
      ¬Nests true m.acts) ∧
    ∃ m, (Cpu.start idle.callouts true).run (fun _ c => c) [.callAt 9 1 100 none 0] = some m ∧
      ¬Nests true m.acts := by
  refine ⟨⟨_, rfl, rfl, ?_⟩, ⟨_, rfl, ?_⟩, ⟨_, rfl, ?_⟩⟩
  · show ¬Nests false plain
    decide
  · exact not_nests_doubled true
  · exact not_nests_doubled true

end Gpmx.Hrt
