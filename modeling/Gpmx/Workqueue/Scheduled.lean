import Gpmx.Hrt.CalloutRuns

/-!
# Scheduled work items

`gpm/modules/workqueue/scheduledworkitem.c`: a work item with a callout of its own, which puts it
into its work queue. The other entries of the callout queue are used in any way, the interrupt of
the timer comes between any two steps, and so does the worker, which takes the item out to run it.

`schedule_workitem_deinit` is only the second half of `schedule_workitem_clear`: what is armed
stays armed.
-/

namespace Gpmx.Workqueue.Scheduled

open Infra Hrt Function Option

/-- The callout queue, and what becomes of the item whose `_call` is the entry `call`. -/
structure Sched where
  hrt : Hrt.Sys
  /-- `_wq` is not NULL -/
  wq : Bool
  /-- the item is in its work queue -/
  queued : Bool
  /-- the calls of `schedule_workitem_clear` that have cancelled the callout and not returned -/
  clearing : Nat
  /-- `schedule_workitem_clear` or `schedule_workitem_deinit` has returned since the last schedule -/
  cleared : Bool
  /-- the callout has added the item while it was cleared -/
  late : Bool

/-- An item that has not been scheduled yet. -/
def start (hrt : Hrt.Sys) (wq : Bool) : Sched :=
  { hrt, wq, queued := false, clearing := 0, cleared := false, late := false }

inductive Act where
  | workitemInit (found : Bool)
  | workitemDeinit
  | delayed (fuel now : Nat) (delayUs : UInt32)
  | oninterval (fuel now : Nat) (intervalUs delayUs : UInt32)
  /-- `schedule_workitem_clear`, up to `workitem_schedule_clear` -/
  | clear (fuel : Nat)
  /-- the rest of it -/
  | clearReturn
  | deinit
  /-- a call for another entry, or the return of a callout -/
  | timer (fuel : Nat) (op : Op)
  /-- the interrupt comes to `hrt_call_invoke`, or a turn of its loop -/
  | invoke (fuel now : Nat)
  /-- the worker takes the item out of its queue -/
  | worker

namespace Sched

def workitemScheduleNow (s : Sched) : Sched := if s.wq then { s with queued := true } else s

def workitemScheduleClear (s : Sched) : Sched := if s.wq then { s with queued := false } else s

def workitemDeinit (s : Sched) : Sched :=
  if s.wq then { s with wq := false, queued := false } else s

/-- `workitem_init`; a work queue is found for the item, or not. -/
def workitemInit (found : Bool) (s : Sched) : Sched :=
  if found then { s.workitemDeinit with wq := true } else s.workitemDeinit

def scheduleTrampoline (s : Sched) : Sched :=
  { s.workitemScheduleNow with late := s.late || (s.cleared && s.wq) }

/-- A call of the timer. -/
def call (op : Nat × Op) (s : Sched) : Option Sched :=
  (s.hrt.step op).map fun hrt => { s with hrt }

/-- The callout and its argument: `schedule_trampoline` and the item. -/
def afterCall (entry : Entry) (fuel now : Nat) (delayUs : UInt32) : Nat × Op :=
  (fuel, .callAfter now entry delayUs.toNat (some 0) entry)

def everyCall (entry : Entry) (fuel now : Nat) (intervalUs delayUs : UInt32) : Nat × Op :=
  (fuel, .callEvery now entry delayUs.toNat intervalUs.toNat (some 0) entry)

def scheduleWorkitemDelayed (entry : Entry) (fuel now : Nat) (delayUs : UInt32) (s : Sched) :
    Option Sched :=
  (s.call (afterCall entry fuel now delayUs)).map fun s => { s with cleared := false }

def scheduleWorkitemOninterval (entry : Entry) (fuel now : Nat) (intervalUs delayUs : UInt32)
    (s : Sched) : Option Sched :=
  (s.call (everyCall entry fuel now intervalUs delayUs)).map fun s => { s with cleared := false }

def scheduleWorkitemDeinit (s : Sched) : Sched := { s.workitemScheduleClear with cleared := true }

/-- `schedule_workitem_clear` cancels the callout, -/
def scheduleWorkitemClear (entry : Entry) (fuel : Nat) (s : Sched) : Option Sched :=
  (s.call (fuel, .cancel entry)).map fun s => { s with clearing := s.clearing + 1 }

def scheduleWorkitemCleared (s : Sched) : Option Sched :=
  if s.clearing = 0 then none
  else some { s.workitemScheduleClear with clearing := s.clearing - 1, cleared := true }

/-- The callout that is running is that of `entry`. -/
def Fires (entry : Entry) (s : Sched) : Prop := s.hrt.firing.map Callouts.Firing.call = some entry

instance (entry : Entry) (s : Sched) : Decidable (s.Fires entry) := by unfold Fires; infer_instance

def hrtCallInvoke (entry : Entry) (fuel now : Nat) (s : Sched) : Option Sched :=
  (s.call (fuel, .invoke now)).map fun s => if s.Fires entry then s.scheduleTrampoline else s

end Sched

/-- Only the functions of the item use its `_call`; `invoke` is an action of its own. -/
def Foreign (entry : Entry) : Op → Prop
  | .callAfter _ e _ _ _ | .callAt e _ _ _ | .callEvery _ e _ _ _ _ | .cancel e
  | .callDelay _ e _ => e ≠ entry
  | .ret => True
  | .invoke _ => False

instance (entry : Entry) (op : Op) : Decidable (Foreign entry op) := by
  cases op <;> unfold Foreign <;> infer_instance

def step (entry : Entry) (s : Sched) : Act → Option Sched
  | .workitemInit found => some (s.workitemInit found)
  | .workitemDeinit => some s.workitemDeinit
  | .delayed fuel now delayUs => s.scheduleWorkitemDelayed entry fuel now delayUs
  | .oninterval fuel now intervalUs delayUs =>
    s.scheduleWorkitemOninterval entry fuel now intervalUs delayUs
  | .clear fuel => s.scheduleWorkitemClear entry fuel
  | .clearReturn => s.scheduleWorkitemCleared
  | .deinit => some s.scheduleWorkitemDeinit
  | .timer fuel op => if Foreign entry op then s.call (fuel, op) else none
  | .invoke fuel now => s.hrtCallInvoke entry fuel now
  | .worker => some { s with queued := false }

def Quiet (entry : Entry) (s : Sched) : Prop :=
  s.late = false ∧ (s.cleared = true → ¬s.hrt.Queued entry ∧ s.queued = false)

/--
The condition on a step: `schedule_workitem_deinit` finds the callout not armed, no call schedules
the item while another clears it, and the callout queue is used within its limits.
-/
def Within (entry : Entry) (s : Sched) : Act → Prop
  | .delayed fuel now delayUs =>
    s.clearing = 0 ∧ Hrt.Within s.hrt (Sched.afterCall entry fuel now delayUs)
  | .oninterval fuel now intervalUs delayUs =>
    s.clearing = 0 ∧ Hrt.Within s.hrt (Sched.everyCall entry fuel now intervalUs delayUs)
  | .deinit => s.hrt.armed entry = false
  | .timer fuel op => Hrt.Within s.hrt (fuel, op)
  | _ => True

/-! ## The timer -/

variable {t t' : Hrt.Sys} {s s' : Sched} {entry : Entry} {fuel : Nat} {op : Op}

theorem ordered_step (h : ∃ L, Ordered t L) (hw : Hrt.Within t (fuel, op))
    (ht : t.step (fuel, op) = some t') : ∃ L, Ordered t' L := by
  obtain ⟨L, hL⟩ := h
  rcases hL.step (enabled_of_step ht) hw with ⟨hnone, -⟩ | ⟨t1, L', ht1, hL'⟩
  · rw [hnone] at ht
    cases ht
  · rw [ht1] at ht
    cases ht
    exact ⟨L', hL'⟩

theorem not_queued (h : ∃ L, Ordered t L) (hnot : t.armed entry = false) : ¬t.Queued entry := by
  obtain ⟨L, hL⟩ := h
  intro hq
  have harmed := hL.armed entry (hL.queued_iff.mp hq)
  rw [hnot] at harmed
  cases harmed

theorem armed_foreign (hop : Foreign entry op) (ht : t.step (fuel, op) = some t') :
    t'.armed entry = true → t.armed entry = true := by
  have hupdate : ∀ {e : Entry} {b : Bool}, e ≠ entry →
      update t.armed e b entry = t.armed entry :=
    fun he => update_of_ne (Ne.symm he) _ _
  cases op with
  | callAfter | callAt | callEvery | cancel =>
    obtain ⟨c, -, rfl⟩ := map_eq_some_iff.mp ht
    exact fun harmed => (hupdate hop).symm.trans harmed
  | callDelay now e delay =>
    cases ht
    exact id
  | invoke now => exact hop.elim
  | ret =>
    simp only [Hrt.Sys.step] at ht
    split at ht
    · cases ht
    · obtain ⟨c, -, rfl⟩ := map_eq_some_iff.mp ht
      exact id

theorem armed_invoke {now : Nat} (ht : t.step (fuel, .invoke now) = some t') :
    t'.armed entry = true → t.armed entry = true := by
  simp only [Hrt.Sys.step] at ht
  split at ht
  · cases ht
  obtain ⟨⟨c, r⟩, -, rfl⟩ := map_eq_some_iff.mp ht
  cases r with
  | none => exact id
  | some f =>
    show (if c.period f.call = 0 then update t.armed f.call false else t.armed) entry = true →
      t.armed entry = true
    by_cases hp : c.period f.call = 0
    · rw [if_pos hp]
      by_cases he : entry = f.call
      · rw [he, update_self]
        exact fun hf => Bool.noConfusion hf
      · rw [update_of_ne he]
        exact id
    · rw [if_neg hp]
      exact id

theorem queued_of_fires {now : Nat} (h : ∃ L, Ordered t L)
    (ht : t.step (fuel, .invoke now) = some t')
    (hf : t'.firing.map Callouts.Firing.call = some entry) : t.Queued entry := by
  obtain ⟨L, hL⟩ := h
  simp only [Hrt.Sys.step] at ht
  split at ht
  · cases ht
  next hidle =>
  obtain ⟨⟨c, r⟩, hpop, rfl⟩ := map_eq_some_iff.mp ht
  cases r with
  | none =>
    have hf : t.firing.map Callouts.Firing.call = some entry := hf
    rw [hidle] at hf
    cases hf
  | some f =>
    obtain rfl : f.call = entry := some.inj hf
    refine ⟨L, hL.holds, ?_⟩
    have hhead := hL.holds.head
    unfold Callouts.invokePop at hpop
    cases L with
    | nil =>
      rw [hhead] at hpop
      cases hpop
    | cons call L =>
      rw [hhead] at hpop
      dsimp only [List.head?_cons] at hpop
      split at hpop
      · cases hpop
      · obtain ⟨queue, -, heq⟩ := bind_eq_some_iff.mp hpop
        cases heq
        exact List.mem_cons_self

/-! ## Every run -/

structure Inv (entry : Entry) (s : Sched) : Prop where
  ordered : ∃ L, Ordered s.hrt L
  clearing : s.clearing ≠ 0 → s.hrt.armed entry = false
  cleared : s.cleared = true → s.hrt.armed entry = false
  queued : s.queued = true → s.wq = true
  empty : s.cleared = true → s.queued = false
  late : s.late = false

theorem Inv.quiet (h : Inv entry s) : Quiet entry s :=
  ⟨h.late, fun hc => ⟨not_queued h.ordered (h.cleared hc), h.empty hc⟩⟩

theorem start_inv (h : ∃ L, Ordered t L) (wq : Bool) : Inv entry (start t wq) :=
  ⟨h, fun hc => absurd rfl hc, fun hc => Bool.noConfusion hc, fun hc => Bool.noConfusion hc,
    fun _ => rfl, rfl⟩

section

variable (h : Inv entry s)
include h

theorem Inv.withHrt (ho : ∃ L, Ordered t L)
    (ha : t.armed entry = true → s.hrt.armed entry = true) : Inv entry { s with hrt := t } := by
  have hfalse : s.hrt.armed entry = false → t.armed entry = false := by
    intro hf
    by_contra ht
    rw [ha (Bool.eq_true_of_not_eq_false ht)] at hf
    cases hf
  exact ⟨ho, fun hc => hfalse (h.clearing hc), fun hc => hfalse (h.cleared hc), h.queued, h.empty,
    h.late⟩

theorem Inv.workitemDeinit : Inv entry s.workitemDeinit := by
  unfold Sched.workitemDeinit
  split
  · exact ⟨h.ordered, h.clearing, h.cleared, fun hq => Bool.noConfusion hq, fun _ => rfl, h.late⟩
  · exact h

theorem Inv.workitemInit (found : Bool) : Inv entry (s.workitemInit found) := by
  have hd := h.workitemDeinit
  unfold Sched.workitemInit
  split
  · exact ⟨hd.ordered, hd.clearing, hd.cleared, fun _ => rfl, hd.empty, hd.late⟩
  · exact hd

theorem Inv.withCleared (ha : s.hrt.armed entry = false) (n : Nat) :
    Inv entry { s.workitemScheduleClear with clearing := n, cleared := true } := by
  unfold Sched.workitemScheduleClear
  split
  · exact ⟨h.ordered, fun _ => ha, fun _ => ha, fun hq => Bool.noConfusion hq, fun _ => rfl, h.late⟩
  next hwq =>
    refine ⟨h.ordered, fun _ => ha, fun _ => ha, h.queued, fun _ => ?_, h.late⟩
    exact Bool.eq_false_of_not_eq_true fun hq => hwq (h.queued hq)

theorem Inv.scheduled (hc : s.clearing = 0) (hw : Hrt.Within s.hrt (fuel, op))
    (hs : (s.call (fuel, op)).map (fun s => { s with cleared := false }) = some s') :
    Inv entry s' := by
  obtain ⟨s1, hs1, rfl⟩ := map_eq_some_iff.mp hs
  obtain ⟨t, ht, rfl⟩ := map_eq_some_iff.mp hs1
  exact ⟨ordered_step h.ordered hw ht, fun hn => absurd hc hn, fun hf => Bool.noConfusion hf,
    h.queued, fun hf => Bool.noConfusion hf, h.late⟩

theorem Inv.clear (hs : s.scheduleWorkitemClear entry fuel = some s') : Inv entry s' := by
  obtain ⟨s1, hs1, rfl⟩ := map_eq_some_iff.mp hs
  obtain ⟨t, ht, rfl⟩ := map_eq_some_iff.mp hs1
  have hcancel : t.armed entry = false := by
    obtain ⟨c, -, rfl⟩ := map_eq_some_iff.mp ht
    exact update_self _ _ _
  have hw : Hrt.Within s.hrt (fuel, .cancel entry) := ⟨by rintro _ ⟨⟩, by rintro _ _ _ ⟨⟩, by rintro _ ⟨⟩⟩
  exact ⟨ordered_step h.ordered hw ht, fun _ => hcancel, fun _ => hcancel, h.queued, h.empty, h.late⟩

theorem Inv.trampoline (hc : s.cleared = false) : Inv entry s.scheduleTrampoline := by
  have hlate : (s.late || (s.cleared && s.wq)) = false := by
    rw [h.late, hc]
    rfl
  unfold Sched.scheduleTrampoline Sched.workitemScheduleNow
  split
  next hwq =>
    refine ⟨h.ordered, h.clearing, h.cleared, fun _ => hwq, fun hf => ?_, hlate⟩
    rw [hc] at hf
    cases hf
  · exact ⟨h.ordered, h.clearing, h.cleared, h.queued, h.empty, hlate⟩

theorem Inv.invoke {now : Nat} (hs : s.hrtCallInvoke entry fuel now = some s') : Inv entry s' := by
  obtain ⟨s1, hs1, rfl⟩ := map_eq_some_iff.mp hs
  obtain ⟨t, ht, rfl⟩ := map_eq_some_iff.mp hs1
  have hw : Hrt.Within s.hrt (fuel, .invoke now) := ⟨by rintro _ ⟨⟩, by rintro _ _ _ ⟨⟩, by rintro _ ⟨⟩⟩
  have hkept := h.withHrt (ordered_step h.ordered hw ht) (armed_invoke ht)
  split
  next hf =>
    -- what is cleared is not queued, and cannot be called
    refine hkept.trampoline (Bool.eq_false_of_not_eq_true fun hc => ?_)
    exact not_queued h.ordered (h.cleared hc) (queued_of_fires h.ordered ht hf)
  · exact hkept

end

theorem Inv.step {a : Act} (h : Inv entry s) (hw : Within entry s a)
    (hs : step entry s a = some s') : Inv entry s' := by
  cases a with
  | workitemInit found =>
    cases hs
    exact h.workitemInit found
  | workitemDeinit =>
    cases hs
    exact h.workitemDeinit
  | delayed fuel now delayUs | oninterval fuel now intervalUs delayUs => exact h.scheduled hw.1 hw.2 hs
  | clear fuel => exact h.clear hs
  | clearReturn =>
    simp only [Scheduled.step, Sched.scheduleWorkitemCleared] at hs
    split at hs
    · cases hs
    next hc =>
      cases hs
      exact h.withCleared (h.clearing hc) _
  | deinit =>
    cases hs
    have hcl : s.workitemScheduleClear.clearing = s.clearing := by
      unfold Sched.workitemScheduleClear
      split <;> rfl
    have hd := h.withCleared hw s.clearing
    rw [← hcl] at hd
    exact hd
  | timer fuel op =>
    simp only [Scheduled.step] at hs
    split at hs
    next hop =>
      obtain ⟨t, ht, rfl⟩ := map_eq_some_iff.mp hs
      exact h.withHrt (ordered_step h.ordered hw ht) (armed_foreign hop ht)
    · cases hs
  | invoke fuel now => exact h.invoke hs
  | worker =>
    cases hs
    exact ⟨h.ordered, h.clearing, h.cleared, fun hq => Bool.noConfusion hq, fun _ => rfl, h.late⟩

/--
**While every step meets the condition, an item that has been cleared is in neither queue until it
is scheduled again, and no earlier schedule adds it.**
-/
theorem cleared_quiet {deadline period : Entry → Nat} {flink : Entry → Option Entry} {wq : Bool}
    (h : Reaches (step entry) (Within entry) (start (Hrt.Sys.start deadline period flink) wq) s) :
    Quiet entry s := by
  have hinv : Inv entry s :=
    h.invariant (start_inv ⟨[], start_ordered _ _ _⟩ _) fun s a s' hs hw hstep => hs.step hw hstep
  exact hinv.quiet

theorem cleared_quiet_once : ∃ s, [.delayed 1 1 100, .clear 1, .clearReturn, .invoke 1 200].foldlM
    (step 1) (start idle true) = some s ∧ Quiet 1 s := by
  obtain ⟨s1, hs1⟩ : ∃ s, step 1 (start idle true) (.delayed 1 1 100) = some s := ⟨_, rfl⟩
  obtain ⟨s2, hs2⟩ : ∃ s, step 1 s1 (.clear 1) = some s := by
    obtain rfl := some.inj hs1
    exact ⟨_, rfl⟩
  obtain ⟨s3, hs3⟩ : ∃ s, step 1 s2 .clearReturn = some s := by
    obtain rfl := some.inj hs1
    obtain rfl := some.inj hs2
    exact ⟨_, rfl⟩
  obtain ⟨s4, hs4⟩ : ∃ s, step 1 s3 (.invoke 1 200) = some s := by
    obtain rfl := some.inj hs1
    obtain rfl := some.inj hs2
    obtain rfl := some.inj hs3
    exact ⟨_, rfl⟩
  have hw : Within 1 (start idle true) (.delayed 1 1 100) :=
    ⟨rfl, fun _ _ _ => not_queued_idle, by rintro _ _ _ ⟨⟩, by rintro _ ⟨⟩⟩
  have h1 : Reaches (step 1) (Within 1) (start idle true) s1 := .tail .refl hw hs1
  have h2 := Reaches.tail (a := .clear 1) h1 trivial hs2
  have h3 := Reaches.tail (a := .clearReturn) h2 trivial hs3
  have h4 := Reaches.tail (a := .invoke 1 200) h3 trivial hs4
  refine ⟨s4, ?_, cleared_quiet h4⟩
  simp only [List.foldlM_cons, List.foldlM_nil, hs1, hs2, hs3, hs4, bind_eq_bind,
    bind_some]
  rfl

theorem not_cleared_quiet : ¬∀ (entry : Entry) (s : Sched),
    Reaches (step entry) Always (start idle true) s → Quiet entry s := by
  intro h
  obtain ⟨s, hs, hlate⟩ : ∃ s, [.delayed 1 1 100, .deinit, .invoke 1 200].foldlM (step 1)
      (start idle true) = some s ∧ s.late = true := ⟨_, rfl, rfl⟩
  have hquiet := (h 1 s (.of_foldlM _ hs)).1
  rw [hlate] at hquiet
  cases hquiet

end Gpmx.Workqueue.Scheduled
