import Gpmx.Libc.Timer
import Gpmx.Libc.TimespecExact

/-!
# What keeps a timer in time

The calls of `timer_settime` and the timer task get in each other's way. `Prompt` is the condition on the steps
of a run under which they do not, and the times that are asked for are turned into ticks correctly.

* `Prompt` — the condition
* `Phase` — what holds at each place of a call
* `keepsTime_of_prompt` — under the condition, each notification is due and each single one comes
* `not_keepsTime` — runs in which it is otherwise
-/

namespace Gpmx.Libc.Timer

open Infra Option List

variable {c : TickConfig} {s s' : State} {room : Bool}

/-! ## The condition -/

structure State.Quiet (s : State) : Prop where
  daemon : s.daemon = .blocked
  queue : s.queue = []
  notDue : ∀ e ∈ s.expiry, s.now < e

def Converts (c : TickConfig) (abstime : Bool) (value : Itimerspec) : Prop :=
  c.Fits value.itInterval.value ∧ (abstime = false → c.Fits value.itValue.value)

def ConvertsAt (c : TickConfig) (value : Itimerspec) (cur : Timespec) : Prop :=
  value.itValue.value < cur.value ∨
    (¬Borrows value.itValue cur ∧ c.Fits (value.itValue.value - cur.value))

def Call.arming : Call → Bool
  | .readTick | .sendStart _ => true
  | _ => false

/-- The steps that keep a timer in time. Calls do not overlap, and run only while the timer task waits, as they
do where its priority is the highest. The timer does not expire between the two commands of an arming, and no
tick comes between the command and the notification of `prv_timer_callback` in a call. The times convert. -/
def Prompt (c : TickConfig) (s : State) : Action → Prop
  | .tick => .notify ∈ s.calls → s.period = 0
  | .daemon _ => s.daemon = .timers → (∃ e ∈ s.expiry, e ≤ s.now) → ∀ x ∈ s.calls, x.arming = false
  | .settime abstime value => s.Quiet ∧ s.calls = [] ∧ (value.itValue.notZero → Converts c abstime value)
  | .delete => s.Quiet ∧ s.calls = []
  | .call k _ cur => s.Quiet ∧ ∀ value ∈ s.calls[k]?.bind fun
      | .setExpiration true value => some value
      | _ => none, ConvertsAt c value cur

/-! ## Times -/

variable {v n : Nat} {a : Arming} {u : Nat} {abstime : Bool} {calls : List Call} {d : Daemon}
    {steps tick : Nat}

theorem covers_mono {k : Nat} (hn : n ∈ c.covers v) (hle : n ≤ k) : k ∈ c.covers v := by
  have htick : 0 ≤ c.nanosecondsPerTick := Int.tdiv_nonneg (by decide) (Int.natCast_nonneg _)
  have hn : (v : Int) ≤ n * c.nanosecondsPerTick := hn
  have hmul := Int.mul_le_mul_of_nonneg_right (Int.ofNat_le.mpr hle) htick
  exact hn.trans hmul

theorem zero_mem_covers (c : TickConfig) : 0 ∈ c.covers 0 := by
  show ((0 : Nat) : Int) ≤ (0 : Nat) * c.nanosecondsPerTick
  rw [Int.natCast_zero, Int.zero_mul]

theorem pos_of_mem_covers (hv : v ≠ 0) (hn : n ∈ c.covers v) : 0 < n := by
  refine Nat.pos_of_ne_zero fun hzero => ?_
  have hn : (v : Int) ≤ n * c.nanosecondsPerTick := hn
  rw [hzero, Int.natCast_zero, Int.zero_mul] at hn
  omega

variable {t : Nat} {value : Itimerspec} {cur : Timespec} {x : Command} {e : Nat}

theorem Arming.Over.mono (h : a.Over c t) (hle : t ≤ u) : a.Over c u :=
  ⟨h.1.trans hle, covers_mono h.2 (Nat.sub_le_sub_right hle _)⟩

theorem notZero_iff (t : Timespec) : t.notZero ↔ t.value ≠ 0 := by
  have hbits : t.notZero ↔ ¬(t.tvSec = 0 ∧ t.tvNsec = 0) := by simp [Timespec.notZero, imp_iff_not_or]
  rw [hbits, ← UInt32.toNat_inj, ← UInt32.toNat_inj, UInt32.toNat_zero]
  unfold Timespec.value
  omega

theorem toticks_covers {t : Timespec} (ht : t.Valid) (hw : c.Whole) (hfits : c.Fits t.value) :
    ∃ n ∈ c.covers t.value, utilsTimespecToticks c (some t) (some 0) = (0, some n) := by
  have hexact := (toticks_exact_iff ht hw 0).mpr (.inr hfits)
  obtain ⟨tick, hn, hwhole⟩ := hw
  have hleast := ticks_isLeast (t := t) hn hwhole
  exact ⟨_, hleast.1, (hexact _ hleast).1 ((fits_iff hleast).mp hfits)⟩

def Spaced (c : TickConfig) (period : Nat) (interval : Nat) : Prop :=
  if interval = 0 then period = 0 else period ∈ c.covers interval

theorem spaced_expirationPeriod (hw : c.Whole) (hvalid : value.itInterval.Valid)
    (hfits : c.Fits value.itInterval.value) :
    Spaced c (State.expirationPeriod c value) value.itInterval.value := by
  unfold Spaced State.expirationPeriod
  by_cases hzero : value.itInterval.value = 0
  · rw [if_pos hzero, if_neg (mt (notZero_iff _).mp (not_not.mpr hzero))]
  · obtain ⟨n, hn, heq⟩ := toticks_covers hvalid hw hfits
    rw [if_neg hzero, if_pos ((notZero_iff _).mpr hzero), heq]
    exact hn

theorem nextExpiration_covers (hw : c.Whole) (hvalid : value.itValue.Valid) (hcur : cur.Valid)
    (hconv : Converts c abstime value) (hread : abstime = true → ConvertsAt c value cur) :
    State.nextExpiration c abstime value cur ∈ c.covers (State.delay abstime value cur) := by
  unfold State.nextExpiration State.delay
  cases abstime with
  | false =>
    obtain ⟨n, hn, heq⟩ := toticks_covers hvalid hw (hconv.2 rfl)
    rw [if_neg Bool.false_ne_true, if_neg Bool.false_ne_true, heq]
    exact hn
  | true =>
    rw [if_pos rfl, if_pos rfl, todeltaticks_eq hvalid hcur]
    by_cases hlt : value.itValue.value < cur.value
    · rw [if_pos hlt, Nat.sub_eq_zero_of_le hlt.le]
      exact zero_mem_covers c
    · obtain ⟨hb, hfits⟩ := (hread rfl).resolve_left hlt
      obtain ⟨hv, hval⟩ := difference_value hvalid (Nat.not_lt.mp hlt) hb hcur
      rw [← hval] at hfits ⊢
      obtain ⟨n, hn, heq⟩ := toticks_covers hv hw hfits
      rw [if_neg hlt, heq]
      exact hn

/-! ## What holds between the steps -/

/-- The timer task is not in `prv_timer_callback`. -/
def Daemon.InLoop : Daemon → Prop
  | .timers | .blocked | .commands => True
  | .callback | .notify => False

def Daemon.TakesCommands : Daemon → Prop
  | .blocked | .commands => True
  | .timers | .callback | .notify => False

def State.Owes (c : TickConfig) (s : State) (tick : Nat) : Prop :=
  ∃ a, expected s.history = some a ∧ a.Over c tick ∧ Spaced c s.period a.interval

structure Inert (s : State) : Prop where
  daemon : s.daemon.InLoop
  queue : s.queue = []
  expiry : s.expiry = none

structure Listed (c : TickConfig) (s : State) : Prop where
  daemon : s.daemon.InLoop
  queue : s.queue = []
  expiry : ∃ e, s.expiry = some e ∧ s.Owes c e

structure Sent (s : State) (x : Command) : Prop where
  daemon : s.daemon.TakesCommands
  queue : s.queue = [x]

inductive Going (c : TickConfig) (s : State) : Prop
  | settled (hdaemon : s.daemon.InLoop) (hqueue : s.queue = []) (hexpiry : ∀ e ∈ s.expiry, s.Owes c e)
      (hsingle : s.expiry = none → ∀ a ∈ expected s.history, a.interval ≠ 0)
  | starting (tick : Nat) (hsent : Sent s (.start tick)) (howes : s.Owes c (tick + s.ticks))
  | changing (hsent : Sent s (.changePeriod s.period)) (hpos : 0 < s.period) (howes : s.Owes c (s.now + s.period))
  | callback (hdaemon : s.daemon = .callback) (hqueue : s.queue = []) (hexpiry : s.expiry = none)
      (howes : s.Owes c s.now)
  | notify (hdaemon : s.daemon = .notify)
      (hqueue : s.queue = [] ∨ s.queue = [.changePeriod s.period] ∧ 0 < s.period) (hexpiry : s.expiry = none)
      (howes : s.Owes c s.now)

def Stopping (s : State) : Prop := Inert s ∨ Sent s .stop

def Changed (c : TickConfig) (s : State) : Prop :=
  (∃ ticks, Sent s (.changePeriod ticks) ∧ s.Owes c (s.now + ticks)) ∨
    (Listed c s ∧ s.Owes c (s.now + s.ticks))

/-- After the command of `prv_timer_callback` in a call. -/
def Rearmed (s : State) : Prop :=
  Inert s ∨ (0 < s.period ∧ (Sent s (.changePeriod s.period) ∧ s.expiry = none ∨
    s.daemon.InLoop ∧ s.queue = [] ∧ ∃ e, s.expiry = some e ∧ s.now + s.period ≤ e))

/-- What a call of `timer_settime` has checked. -/
def Checked (c : TickConfig) (abstime : Bool) (value : Itimerspec) : Prop :=
  value.itValue.notZero → value.itInterval.Valid ∧ value.itValue.Valid ∧ Converts c abstime value

def Phase (c : TickConfig) (s : State) : List Call → Prop
  | [] => Going c s
  | [.isActive abstime value] => Going c s ∧ Checked c abstime value
  | [.sendStop abstime value] => Going c s ∧ Checked c abstime value
  | [.stopped abstime value] => Stopping s ∧ Checked c abstime value
  | [.setExpiration abstime value] =>
    Inert s ∧ Checked c abstime value ∧ value.itValue.notZero ∧ s.period = State.expirationPeriod c value
  | [.callback] => Inert s ∧ s.Owes c s.now
  | [.notify] => Rearmed s ∧ s.Owes c s.now
  | [.sendChangePeriod ticks] => Inert s ∧ s.Owes c (s.now + ticks)
  | [.readTick] => Changed c s
  | [.sendStart tick] => Listed c s ∧ s.Owes c (tick + s.ticks)
  | [.deleteStop] => Going c s
  | [.deleteWait] => Stopping s
  | _ :: _ :: _ => False

structure Inv (c : TickConfig) (s : State) : Prop where
  timely : Timely c s.history
  active : ∀ e ∈ s.expiry, s.active = true
  phase : Phase c s s.calls

/-! ## Ticks -/

theorem State.Owes.mono (h : s.Owes c t) (hle : t ≤ u) : s.Owes c u := by
  obtain ⟨a, ha, hover, hspaced⟩ := h
  exact ⟨a, ha, hover.mono hle, hspaced⟩

def State.ticked (s : State) : State := { s with now := s.now + 1 }

theorem Inert.ticked (h : Inert s) : Inert s.ticked := ⟨h.daemon, h.queue, h.expiry⟩

theorem Sent.ticked (h : Sent s x) : Sent s.ticked x := ⟨h.daemon, h.queue⟩

theorem Listed.ticked (h : Listed c s) : Listed c s.ticked := ⟨h.daemon, h.queue, h.expiry⟩

theorem Stopping.ticked (h : Stopping s) : Stopping s.ticked := h.imp Inert.ticked Sent.ticked

theorem Going.ticked (h : Going c s) : Going c s.ticked := by
  have hle : s.now ≤ s.now + 1 := Nat.le_succ _
  cases h with
  | settled hdaemon hqueue hexpiry hsingle => exact .settled hdaemon hqueue hexpiry hsingle
  | starting tick hsent howes => exact .starting tick hsent.ticked howes
  | changing hsent hpos howes =>
    exact .changing hsent.ticked hpos (howes.mono (Nat.add_le_add_right hle _))
  | callback hdaemon hqueue hexpiry howes => exact .callback hdaemon hqueue hexpiry (howes.mono hle)
  | notify hdaemon hqueue hexpiry howes => exact .notify hdaemon hqueue hexpiry (howes.mono hle)

theorem Phase.ticked (h : Phase c s calls) (hok : .notify ∈ calls → s.period = 0) :
    Phase c s.ticked calls := by
  have hle : s.now ≤ s.now + 1 := Nat.le_succ _
  match calls, h with
  | [], h | [.deleteStop], h => exact Going.ticked h
  | [.isActive _ _], h | [.sendStop _ _], h | [.stopped _ _], h | [.setExpiration _ _], h | [.sendStart _], h =>
    exact ⟨h.1.ticked, h.2⟩
  | [.callback], h => exact ⟨h.1.ticked, h.2.mono hle⟩
  | [.notify], h =>
    have hzero := hok mem_cons_self
    have hinert : Inert s := h.1.resolve_right fun hpos => by omega
    exact ⟨.inl hinert.ticked, h.2.mono hle⟩
  | [.sendChangePeriod _], h => exact ⟨h.1.ticked, h.2.mono (Nat.add_le_add_right hle _)⟩
  | [.readTick], h =>
    exact h.imp (fun ⟨ticks, hsent, howes⟩ => ⟨ticks, hsent.ticked, howes.mono (Nat.add_le_add_right hle _)⟩)
      fun ⟨hlisted, howes⟩ => ⟨hlisted.ticked, howes.mono (Nat.add_le_add_right hle _)⟩
  | [.deleteWait], h => exact Stopping.ticked h

/-! ## Steps of the timer task -/

/-- Where the timer task looks at the timer, its time has not come. -/
abbrev State.NotDue (s : State) : Prop := s.daemon = .timers → ∀ e ∈ s.expiry, s.now < e

theorem Inert.notDue (h : Inert s) : s.NotDue := by
  intro _ e he
  exact nomatch h.expiry.symm.trans he

theorem daemonStep_inLoop (hdaemon : s.daemon.InLoop) (hqueue : s.queue = []) (hdue : s.NotDue) (room : Bool) :
    ∃ d : Daemon, d.InLoop ∧ s.daemonStep room = { s with daemon := d } := by
  unfold State.daemonStep
  cases hd : s.daemon with
  | timers =>
    refine ⟨.blocked, trivial, ?_⟩
    show s.processTimer = _
    unfold State.processTimer
    cases he : s.expiry with
    | none => rfl
    | some e =>
      have hlt := hdue hd e he
      exact if_neg (Nat.not_le.mpr hlt)
  | blocked => exact ⟨.commands, trivial, rfl⟩
  | commands =>
    refine ⟨.timers, trivial, ?_⟩
    simp only [hqueue]
  | callback | notify =>
    rw [hd] at hdaemon
    exact hdaemon.elim

theorem Sent.daemonStep (h : Sent s x) (room : Bool) :
    s.daemonStep room = { s with daemon := .commands } ∨
      s.daemon = .commands ∧ s.daemonStep room = { s with queue := [] }.process x := by
  unfold State.daemonStep
  cases hd : s.daemon with
  | blocked => exact .inl rfl
  | commands =>
    refine .inr ⟨rfl, ?_⟩
    simp only [h.queue]
  | timers | callback | notify =>
    have hdaemon := h.daemon
    rw [hd] at hdaemon
    exact hdaemon.elim

theorem Sent.waits (h : Sent s x) : Sent { s with daemon := .commands } x :=
  ⟨trivial, h.queue⟩

theorem Inert.daemonStep (h : Inert s) (room : Bool) : Inert (s.daemonStep room) := by
  obtain ⟨d, hd, heq⟩ := daemonStep_inLoop h.daemon h.queue h.notDue room
  rw [heq]
  exact ⟨hd, h.queue, h.expiry⟩

theorem Stopping.daemonStep (h : Stopping s) (room : Bool) : Stopping (s.daemonStep room) := by
  rcases h with hinert | hsent
  · exact .inl (hinert.daemonStep room)
  · rcases hsent.daemonStep room with heq | ⟨hd, heq⟩
    · rw [heq]
      exact .inr hsent.waits
    · rw [heq]
      refine .inl ⟨?_, rfl, rfl⟩
      show s.daemon.InLoop
      rw [hd]
      trivial

theorem Listed.daemonStep (h : Listed c s) (hdue : s.NotDue) (room : Bool) :
    ∃ d : Daemon, s.daemonStep room = { s with daemon := d } ∧ Listed c { s with daemon := d } := by
  obtain ⟨d, hd, heq⟩ := daemonStep_inLoop h.daemon h.queue hdue room
  exact ⟨d, heq, hd, h.queue, h.expiry⟩

theorem Changed.daemonStep (h : Changed c s) (hdue : s.NotDue) (room : Bool) :
    Changed c (s.daemonStep room) := by
  rcases h with ⟨ticks, hsent, howes⟩ | ⟨hlisted, howes⟩
  · rcases hsent.daemonStep room with heq | ⟨hd, heq⟩
    · rw [heq]
      exact .inl ⟨ticks, hsent.waits, howes⟩
    · rw [heq]
      refine .inr ⟨⟨?_, rfl, _, rfl, howes⟩, howes⟩
      show s.daemon.InLoop
      rw [hd]
      trivial
  · obtain ⟨d, heq, hlisted'⟩ := hlisted.daemonStep hdue room
    rw [heq]
    exact .inr ⟨hlisted', howes⟩

theorem Rearmed.daemonStep (h : Rearmed s) (room : Bool) : Rearmed (s.daemonStep room) ∧
    (s.daemonStep room).period = s.period ∧ (s.daemonStep room).history = s.history ∧
    (s.daemonStep room).now = s.now := by
  rcases h with hinert | ⟨hpos, ⟨hsent, hexpiry⟩ | ⟨hdaemon, hqueue, e, he, hle⟩⟩
  · obtain ⟨d, hd, heq⟩ := daemonStep_inLoop hinert.daemon hinert.queue hinert.notDue room
    rw [heq]
    exact ⟨.inl ⟨hd, hinert.queue, hinert.expiry⟩, rfl, rfl, rfl⟩
  · rcases hsent.daemonStep room with heq | ⟨hd, heq⟩
    · rw [heq]
      exact ⟨.inr ⟨hpos, .inl ⟨hsent.waits, hexpiry⟩⟩, rfl, rfl, rfl⟩
    · rw [heq]
      refine ⟨.inr ⟨hpos, .inr ⟨?_, rfl, _, rfl, Nat.le_refl _⟩⟩, rfl, rfl, rfl⟩
      show s.daemon.InLoop
      rw [hd]
      trivial
  · have hdue : s.daemon = .timers → ∀ e' ∈ s.expiry, s.now < e' := by
      intro _ e' he'
      obtain rfl := some.inj (he.symm.trans he')
      omega
    obtain ⟨d, hd, heq⟩ := daemonStep_inLoop hdaemon hqueue hdue room
    rw [heq]
    exact ⟨.inr ⟨hpos, .inr ⟨hd, hqueue, e, he, hle⟩⟩, rfl, rfl, rfl⟩

theorem State.Owes.record (h : s.Owes c t) :
    (s.period = 0 ∧ expected (.notified t :: s.history) = none) ∨
      (0 < s.period ∧ (∀ a ∈ expected (.notified t :: s.history), a.interval ≠ 0) ∧
        ∀ s' : State, s'.history = .notified t :: s.history → s'.period = s.period → s'.Owes c (t + s.period)) := by
  obtain ⟨a, ha, -, hspaced⟩ := h
  unfold Spaced at hspaced
  have hexpected : expected (.notified t :: s.history) =
      if a.interval = 0 then none else some ⟨t, a.interval, a.interval⟩ := by
    simp only [expected, ha]
  by_cases hzero : a.interval = 0
  · rw [if_pos hzero] at hspaced hexpected
    exact .inl ⟨hspaced, hexpected⟩
  · rw [if_neg hzero] at hspaced hexpected
    refine .inr ⟨pos_of_mem_covers hzero hspaced, ?_, ?_⟩
    · intro b hb
      obtain rfl := some.inj (hexpected.symm.trans hb)
      exact hzero
    · intro s' hhistory hperiod
      refine ⟨_, by rw [hhistory]; exact hexpected, ⟨Nat.le_add_right _ _, ?_⟩, ?_⟩
      · show t + s.period - t ∈ _
        rw [Nat.add_sub_cancel_left]
        exact hspaced
      · unfold Spaced
        rw [hperiod, if_neg hzero]
        exact hspaced

theorem Timely.notified (h : Timely c s.history) (howes : s.Owes c t) :
    Timely c (.notified t :: s.history) := by
  obtain ⟨a, ha, hover, -⟩ := howes
  exact ⟨⟨a, ha, hover⟩, h⟩

theorem Going.daemonStep (h : Going c s) (ht : Timely c s.history) (room : Bool) :
    Going c (s.daemonStep room) ∧ Timely c (s.daemonStep room).history := by
  cases h with
  | settled hdaemon hqueue hexpiry hsingle =>
    by_cases hdue : s.NotDue
    · obtain ⟨d, hd, heq⟩ := daemonStep_inLoop hdaemon hqueue hdue room
      rw [heq]
      exact ⟨.settled hd hqueue hexpiry hsingle, ht⟩
    · obtain ⟨hd, e, he, hle⟩ : s.daemon = .timers ∧ ∃ e, s.expiry = some e ∧ e ≤ s.now := by
        push Not at hdue
        exact hdue
      have heq : s.daemonStep room = { s with active := false, expiry := none, daemon := .callback } := by
        unfold State.daemonStep State.processTimer
        rw [hd, he]
        exact if_pos hle
      rw [heq]
      exact ⟨.callback rfl hqueue rfl ((hexpiry e he).mono hle), ht⟩
  | starting tick hsent howes =>
    rcases hsent.daemonStep room with heq | ⟨hd, heq⟩
    · rw [heq]
      exact ⟨.starting tick hsent.waits howes, ht⟩
    · rw [heq]
      show Going c (if tick + s.ticks ≤ s.now then _ else _) ∧ Timely c (State.history (if tick + s.ticks ≤ s.now then _ else _))
      split
      · next hle => exact ⟨.callback rfl rfl rfl (howes.mono hle), ht⟩
      · refine ⟨.settled ?_ rfl ?_ (fun hnone => nomatch hnone), ht⟩
        · show s.daemon.InLoop
          rw [hd]
          trivial
        · intro e he
          cases he
          exact howes
  | changing hsent hpos howes =>
    rcases hsent.daemonStep room with heq | ⟨hd, heq⟩
    · rw [heq]
      exact ⟨.changing hsent.waits hpos howes, ht⟩
    · rw [heq]
      refine ⟨.settled ?_ rfl ?_ (fun hnone => nomatch hnone), ht⟩
      · show s.daemon.InLoop
        rw [hd]
        trivial
      · intro e he
        cases he
        exact howes
  | callback hdaemon hqueue hexpiry howes =>
    have heq : s.daemonStep room = { s.rearm room with daemon := .notify } := by
      unfold State.daemonStep
      rw [hdaemon]
    rw [heq]
    unfold State.rearm
    split
    · next hsend =>
      refine ⟨.notify rfl (.inr ⟨?_, hsend.1⟩) hexpiry howes, ht⟩
      show s.queue ++ [_] = [_]
      rw [hqueue]
      rfl
    · exact ⟨.notify rfl (.inl hqueue) hexpiry howes, ht⟩
  | notify hdaemon hqueue hexpiry howes =>
    have heq : s.daemonStep room = { s.record (.notified s.now) with daemon := .commands } := by
      unfold State.daemonStep
      rw [hdaemon]
    rw [heq]
    refine ⟨?_, ht.notified howes⟩
    rcases howes.record with ⟨hzero, hnone⟩ | ⟨hpos, hinterval, hnext⟩
    · have hempty : s.queue = [] := hqueue.resolve_right fun hsent => by omega
      refine .settled trivial hempty (fun e he => ?_) (fun _ a ha => ?_)
      · exact nomatch hexpiry.symm.trans he
      · exact nomatch hnone.symm.trans ha
    · rcases hqueue with hempty | ⟨hsent, -⟩
      · refine .settled trivial hempty (fun e he => ?_) (fun _ => hinterval)
        exact nomatch hexpiry.symm.trans he
      · exact .changing ⟨trivial, hsent⟩ hpos (hnext _ rfl rfl)

def Shown (s : State) : Prop := ∀ e ∈ s.expiry, s.active = true

theorem shown_process (s : State) (x : Command) : Shown (s.process x) := by
  unfold State.process
  cases x with
  | stop => exact fun e he => nomatch he
  | changePeriod ticks => exact fun _ _ => rfl
  | start tick =>
    dsimp only
    split <;> exact fun _ _ => rfl

theorem process_keeps (s : State) (x : Command) :
    (s.process x).calls = s.calls ∧ (s.process x).history = s.history := by
  unfold State.process
  cases x with
  | stop | changePeriod => exact ⟨rfl, rfl⟩
  | start tick =>
    dsimp only
    split <;> exact ⟨rfl, rfl⟩

theorem daemonStep_keeps (s : State) (room : Bool) : (s.daemonStep room).calls = s.calls ∧
    (s.daemon ≠ .notify → (s.daemonStep room).history = s.history) ∧
    (Shown s → Shown (s.daemonStep room)) := by
  unfold State.daemonStep
  cases s.daemon with
  | timers =>
    show s.processTimer.calls = s.calls ∧ (_ → s.processTimer.history = s.history) ∧ (_ → Shown s.processTimer)
    unfold State.processTimer
    split
    · split
      · exact ⟨rfl, fun _ => rfl, fun _ e he => nomatch he⟩
      · exact ⟨rfl, fun _ => rfl, id⟩
    · exact ⟨rfl, fun _ => rfl, id⟩
  | commands =>
    dsimp only
    split
    · next x queue _ =>
      obtain ⟨hcalls, hhistory⟩ := process_keeps { s with queue := queue, daemon := .commands } x
      exact ⟨hcalls, fun _ => hhistory, fun _ => shown_process _ _⟩
    · exact ⟨rfl, fun _ => rfl, id⟩
  | callback =>
    show (s.rearm room).calls = s.calls ∧ (_ → (s.rearm room).history = s.history) ∧ (_ → Shown { s.rearm room with daemon := .notify })
    unfold State.rearm
    split <;> exact ⟨rfl, fun _ => rfl, id⟩
  | blocked => exact ⟨rfl, fun _ => rfl, id⟩
  | notify => exact ⟨rfl, fun h => absurd rfl h, id⟩

theorem Daemon.InLoop.ne_notify (h : d.InLoop) : d ≠ .notify := by
  rintro rfl
  exact h

theorem Daemon.TakesCommands.ne_notify (h : d.TakesCommands) : d ≠ .notify := by
  rintro rfl
  exact h

theorem Phase.daemonStep (h : Phase c s calls) (ht : Timely c s.history)
    (hok : s.daemon = .timers → (∃ e ∈ s.expiry, e ≤ s.now) → ∀ x ∈ calls, x.arming = false)
    (room : Bool) : Phase c (s.daemonStep room) calls ∧ Timely c (s.daemonStep room).history := by
  have hinert (hin : Inert s) : ∃ d : Daemon, Inert { s with daemon := d } ∧
      s.daemonStep room = { s with daemon := d } := by
    obtain ⟨d, hd, heq⟩ := daemonStep_inLoop hin.daemon hin.queue hin.notDue room
    exact ⟨d, ⟨hd, hin.queue, hin.expiry⟩, heq⟩
  have hstopping (hstop : Stopping s) : Stopping (s.daemonStep room) ∧ Timely c (s.daemonStep room).history := by
    refine ⟨hstop.daemonStep room, ?_⟩
    rw [(daemonStep_keeps s room).2.1]
    · exact ht
    · rcases hstop with hin | hsent
      · exact hin.daemon.ne_notify
      · exact hsent.daemon.ne_notify
  match calls, h with
  | [], h | [.deleteStop], h => exact Going.daemonStep h ht room
  | [.isActive _ _], h | [.sendStop _ _], h =>
    exact ⟨⟨(h.1.daemonStep ht room).1, h.2⟩, (h.1.daemonStep ht room).2⟩
  | [.stopped _ _], h => exact ⟨⟨(hstopping h.1).1, h.2⟩, (hstopping h.1).2⟩
  | [.deleteWait], h => exact hstopping h
  | [.setExpiration _ _], h | [.callback], h | [.sendChangePeriod _], h =>
    obtain ⟨d, hin, heq⟩ := hinert h.1
    rw [heq]
    exact ⟨⟨hin, h.2⟩, ht⟩
  | [.notify], h =>
    obtain ⟨hre, hperiod, hhistory, hnow⟩ := h.1.daemonStep room
    obtain ⟨a, ha, hover, hspaced⟩ := h.2
    rw [← hhistory] at ht ha
    rw [← hperiod] at hspaced
    rw [← hnow] at hover
    exact ⟨⟨hre, a, ha, hover, hspaced⟩, ht⟩
  | [.readTick], h =>
    have hdue : s.NotDue := fun hd e he =>
      Nat.lt_of_not_le fun hle => nomatch hok hd ⟨e, he, hle⟩ _ mem_cons_self
    refine ⟨Changed.daemonStep h hdue room, ?_⟩
    rw [(daemonStep_keeps s room).2.1]
    · exact ht
    · rcases h with ⟨ticks, hsent, -⟩ | ⟨hlisted, -⟩
      · exact hsent.daemon.ne_notify
      · exact hlisted.daemon.ne_notify
  | [.sendStart _], h =>
    have hdue : s.NotDue := fun hd e he =>
      Nat.lt_of_not_le fun hle => nomatch hok hd ⟨e, he, hle⟩ _ mem_cons_self
    obtain ⟨d, heq, hlisted⟩ := h.1.daemonStep hdue room
    rw [heq]
    exact ⟨⟨hlisted, h.2⟩, ht⟩

/-! ## Steps of the calls -/

theorem State.Quiet.inLoop (hq : s.Quiet) : s.daemon.InLoop := by
  rw [hq.daemon]
  trivial

theorem State.Quiet.sent (hq : s.Quiet) (x : Command) : Sent (s.send x) x := by
  refine ⟨?_, ?_⟩
  · show s.daemon.TakesCommands
    rw [hq.daemon]
    trivial
  · show s.queue ++ [x] = [x]
    rw [hq.queue]
    rfl

theorem Stopping.inert (h : Stopping s) (hq : s.Quiet) : Inert s :=
  h.resolve_right fun hsent => nomatch hsent.queue.symm.trans hq.queue

theorem Inert.going_disarmed (h : Inert s) : Going c (s.record .disarmed) := by
  refine .settled h.daemon h.queue (fun e he => ?_) (fun _ a ha => nomatch ha)
  exact nomatch h.expiry.symm.trans he

theorem Rearmed.notified (h : Rearmed s) (hq : s.Quiet) (howes : s.Owes c s.now) :
    Going c (s.record (.notified s.now)) := by
  rcases howes.record with ⟨hzero, hnone⟩ | ⟨hpos, hinterval, hnext⟩
  · have hinert : Inert s := h.resolve_right fun hre => by omega
    refine .settled hinert.daemon hinert.queue (fun e he => ?_) (fun _ a ha => nomatch hnone.symm.trans ha)
    exact nomatch hinert.expiry.symm.trans he
  · rcases h with hinert | ⟨-, ⟨hsent, -⟩ | ⟨hdaemon, hqueue, e, he, hle⟩⟩
    · refine .settled hinert.daemon hinert.queue (fun e he => ?_) (fun _ => hinterval)
      exact nomatch hinert.expiry.symm.trans he
    · exact nomatch hsent.queue.symm.trans hq.queue
    · refine .settled hdaemon hqueue (fun e' he' => ?_) (fun hnone => nomatch hnone.symm.trans he)
      obtain rfl := some.inj (he.symm.trans he')
      exact (hnext (s.record (.notified s.now)) rfl rfl).mono hle

theorem owes_armed (hw : c.Whole) (hcheck : Checked c abstime value)
    (hvalue : value.itValue.notZero) (hperiod : s.period = State.expirationPeriod c value)
    (hcur : cur.Valid) (hread : abstime = true → ConvertsAt c value cur) :
    (s.record (.armed s.now (State.delay abstime value cur) value.itInterval.value)).Owes c
      (s.now + State.nextExpiration c abstime value cur) := by
  obtain ⟨hinterval, hval, hconv⟩ := hcheck hvalue
  refine ⟨_, rfl, ⟨Nat.le_add_right _ _, ?_⟩, ?_⟩
  · show s.now + _ - s.now ∈ _
    rw [Nat.add_sub_cancel_left]
    exact nextExpiration_covers hw hval hcur hconv hread
  · show Spaced c s.period _
    rw [hperiod]
    exact spaced_expirationPeriod hw hinterval hconv.1

theorem Phase.callStep {x : Call} {r : Option Call × State} (h : Phase c s [x]) (hw : c.Whole)
    (hq : s.Quiet) (hshown : Shown s) (ht : Timely c s.history) (hcur : cur.Valid)
    (hread : ∀ value, x = .setExpiration true value → ConvertsAt c value cur)
    (hstep : s.callStep c room cur x = some r) :
    Phase c r.2 r.1.toList ∧ Timely c r.2.history ∧ Shown r.2 := by
  cases x with
  | isActive abstime value =>
    cases hstep
    refine ⟨?_, ht, hshown⟩
    split
    · exact h
    · next hactive =>
      refine ⟨.inl ⟨hq.inLoop, hq.queue, eq_none_iff_forall_not_mem.mpr fun e he => ?_⟩, h.2⟩
      exact hactive (hshown e he)
  | sendStop abstime value =>
    cases hstep
    exact ⟨⟨.inr (hq.sent .stop), h.2⟩, ht, hshown⟩
  | stopped abstime value =>
    have hinert := h.1.inert hq
    unfold State.callStep at hstep
    dsimp only at hstep
    split at hstep
    · next hvalue =>
      cases hstep
      exact ⟨⟨⟨hinert.daemon, hinert.queue, hinert.expiry⟩, h.2, hvalue, rfl⟩, ht, hshown⟩
    · cases hstep
      exact ⟨hinert.going_disarmed, ht, hshown⟩
  | setExpiration abstime value =>
    obtain ⟨hinert, hcheck, hvalue, hperiod⟩ := h
    cases hstep
    have howes := owes_armed hw hcheck hvalue hperiod hcur fun habs => hread value (by rw [habs])
    refine ⟨?_, ht, hshown⟩
    split
    · next hzero =>
      rw [hzero] at howes
      exact ⟨⟨hinert.daemon, hinert.queue, hinert.expiry⟩, howes⟩
    · exact ⟨⟨hinert.daemon, hinert.queue, hinert.expiry⟩, howes⟩
  | callback =>
    obtain ⟨hinert, howes⟩ := h
    cases hstep
    unfold State.rearm
    split
    · next hsend => exact ⟨⟨.inr ⟨hsend.1, .inl ⟨hq.sent _, hinert.expiry⟩⟩, howes⟩, ht, hshown⟩
    · exact ⟨⟨.inl hinert, howes⟩, ht, hshown⟩
  | notify =>
    cases hstep
    exact ⟨h.1.notified hq h.2, ht.notified h.2, hshown⟩
  | sendChangePeriod ticks =>
    cases hstep
    exact ⟨.inl ⟨ticks, hq.sent _, h.2⟩, ht, hshown⟩
  | readTick =>
    cases hstep
    have hlisted := Or.resolve_left h fun ⟨_, hsent, _⟩ => nomatch hsent.queue.symm.trans hq.queue
    exact ⟨hlisted, ht, hshown⟩
  | sendStart tick =>
    obtain ⟨⟨hdaemon, hqueue, e, he, howes⟩, hstart⟩ := h
    cases hstep
    dsimp only
    split
    · exact ⟨.starting tick (hq.sent _) hstart, ht, hshown⟩
    · refine ⟨.settled hdaemon hqueue (fun e' he' => ?_) (fun hnone => nomatch hnone.symm.trans he), ht, hshown⟩
      obtain rfl := some.inj (he.symm.trans he')
      exact howes
  | deleteStop =>
    cases hstep
    exact ⟨.inr (hq.sent .stop), ht, hshown⟩
  | deleteWait =>
    have hinert := Stopping.inert h hq
    unfold State.callStep at hstep
    dsimp only at hstep
    split at hstep
    · exact nomatch hstep
    · cases hstep
      refine ⟨?_, ht, hshown⟩
      refine .settled hinert.daemon hinert.queue (fun e he => ?_) (fun _ a ha => nomatch ha)
      exact nomatch hinert.expiry.symm.trans he

/-! ## Runs -/

def State.withCalls (s : State) (calls : List Call) : State := { s with calls := calls }

variable {calls : List Call}

theorem Inert.withCalls (h : Inert s) : Inert (s.withCalls calls) := ⟨h.daemon, h.queue, h.expiry⟩

theorem Sent.withCalls (h : Sent s x) : Sent (s.withCalls calls) x := ⟨h.daemon, h.queue⟩

theorem Listed.withCalls (h : Listed c s) : Listed c (s.withCalls calls) := ⟨h.daemon, h.queue, h.expiry⟩

theorem Stopping.withCalls (h : Stopping s) : Stopping (s.withCalls calls) := h.imp Inert.withCalls Sent.withCalls

theorem Going.withCalls (h : Going c s) : Going c (s.withCalls calls) := by
  cases h with
  | settled hdaemon hqueue hexpiry hsingle => exact .settled hdaemon hqueue hexpiry hsingle
  | starting tick hsent howes => exact .starting tick hsent.withCalls howes
  | changing hsent hpos howes => exact .changing hsent.withCalls hpos howes
  | callback hdaemon hqueue hexpiry howes => exact .callback hdaemon hqueue hexpiry howes
  | notify hdaemon hqueue hexpiry howes => exact .notify hdaemon hqueue hexpiry howes

theorem Phase.withCalls {l : List Call} (h : Phase c s l) : Phase c (s.withCalls calls) l := by
  match l, h with
  | [], h | [.deleteStop], h => exact Going.withCalls h
  | [.isActive _ _], h | [.sendStop _ _], h | [.stopped _ _], h | [.setExpiration _ _], h | [.callback], h =>
    exact ⟨h.1.withCalls, h.2⟩
  | [.sendChangePeriod _], h | [.sendStart _], h => exact ⟨h.1.withCalls, h.2⟩
  | [.notify], h =>
    exact ⟨h.1.imp Inert.withCalls fun ⟨hpos, hre⟩ => ⟨hpos, hre.imp (.imp_left Sent.withCalls) id⟩, h.2⟩
  | [.readTick], h =>
    exact h.imp (fun ⟨ticks, hsent, howes⟩ => ⟨ticks, hsent.withCalls, howes⟩)
      fun ⟨hlisted, howes⟩ => ⟨hlisted.withCalls, howes⟩
  | [.deleteWait], h => exact Stopping.withCalls h

theorem inv_init (c : TickConfig) : Inv c init where
  timely := trivial
  active := fun _ he => nomatch he
  phase := .settled trivial rfl (fun _ he => nomatch he) (fun _ _ ha => nomatch ha)

theorem Inv.phase_length (h : Inv c s) : s.calls.length ≤ 1 := by
  have hphase := h.phase
  match hcalls : s.calls with
  | [] => exact Nat.zero_le _
  | [_] => exact Nat.le_refl _
  | x :: _ :: _ =>
    rw [hcalls] at hphase
    cases x <;> exact hphase.elim

/-- **What a step under the condition keeps.** -/
theorem Inv.step {a : Action} (h : Inv c s) (hw : c.Whole) (hok : Prompt c s a) (hs : s.step c a = some s') :
    Inv c s' := by
  cases a with
  | tick =>
    cases hs
    exact ⟨h.timely, h.active, h.phase.ticked hok⟩
  | daemon room =>
    cases hs
    obtain ⟨hcalls, -, hshown⟩ := daemonStep_keeps s room
    obtain ⟨hphase, htimely⟩ := h.phase.daemonStep h.timely hok room
    exact ⟨htimely, hshown h.active, by rw [hcalls]; exact hphase⟩
  | settime abstime value =>
    obtain ⟨-, hcalls, hconv⟩ := hok
    have hphase := h.phase
    rw [hcalls] at hphase
    unfold State.step at hs
    dsimp only at hs
    split at hs
    · cases hs
    split at hs
    · cases hs
      exact h
    · next hvalid =>
      cases hs
      refine ⟨h.timely, h.active, ?_⟩
      show Phase c _ (s.calls ++ [_])
      rw [hcalls]
      refine ⟨Going.withCalls hphase, fun hvalue => ?_⟩
      rw [not_and_or, not_or, Bool.not_eq_false, Bool.not_eq_false] at hvalid
      obtain ⟨hinterval, hval⟩ := hvalid.resolve_left (not_not.mpr hvalue)
      exact ⟨valid_iff.mp hinterval, valid_iff.mp hval, hconv hvalue⟩
  | delete =>
    obtain ⟨-, hcalls⟩ := hok
    have hphase := h.phase
    rw [hcalls] at hphase
    unfold State.step at hs
    dsimp only at hs
    split at hs
    · cases hs
    · cases hs
      refine ⟨h.timely, h.active, ?_⟩
      show Phase c _ (s.calls ++ [_])
      rw [hcalls]
      exact Going.withCalls hphase
  | call k room cur =>
    obtain ⟨hq, hread⟩ := hok
    unfold State.step at hs
    dsimp only at hs
    split at hs
    · cases hs
    next hcur =>
    obtain ⟨x, hx, hs⟩ := bind_eq_some_iff.mp hs
    obtain ⟨r, hr, hs⟩ := bind_eq_some_iff.mp hs
    -- it is the only call
    have hlen := h.phase_length
    obtain ⟨hk, -⟩ := List.getElem?_eq_some_iff.mp hx
    obtain rfl : k = 0 := by omega
    obtain ⟨y, hcalls⟩ := length_eq_one_iff.mp (show s.calls.length = 1 by omega)
    rw [hcalls] at hx
    obtain rfl := some.inj hx
    have hphase := h.phase
    rw [hcalls] at hphase
    have hreads : ∀ value, y = .setExpiration true value → ConvertsAt c value cur := by
      rintro value rfl
      refine hread value ?_
      rw [hcalls]
      rfl
    obtain ⟨hnext, htimely, hshown⟩ := hphase.callStep hw hq h.active h.timely
      (valid_iff.mp (Bool.not_eq_false _ ▸ hcur)) hreads hr
    obtain ⟨next, t⟩ := r
    cases next with
    | some z =>
      cases hs
      refine ⟨htimely, hshown, ?_⟩
      show Phase c _ (s.calls.set 0 z)
      rw [hcalls]
      exact hnext.withCalls
    | none =>
      cases hs
      refine ⟨htimely, hshown, ?_⟩
      show Phase c _ (s.calls.eraseIdx 0)
      rw [hcalls]
      exact hnext.withCalls

/-! ## Timers that are left alone -/

def Rings (c : TickConfig) (s : State) (steps : Nat) : Prop :=
  ∃ s', (List.replicate steps (Action.daemon true)).foldlM (State.step c) s = some s' ∧
    s'.history = .notified s.now :: s.history

theorem Rings.succ (h : Rings c (s.daemonStep true) steps) (hnow : (s.daemonStep true).now = s.now)
    (hhistory : (s.daemonStep true).history = s.history) : Rings c s (steps + 1) := by
  obtain ⟨s', hrun, hs'⟩ := h
  rw [hnow, hhistory] at hs'
  refine ⟨s', ?_, hs'⟩
  rw [replicate_succ, foldlM_cons]
  exact hrun

theorem rings_notify (h : s.daemon = .notify) : Rings c s 1 := by
  refine ⟨s.daemonStep true, rfl, ?_⟩
  unfold State.daemonStep
  rw [h]
  rfl

theorem rings_callback (h : s.daemon = .callback) : Rings c s 2 := by
  have heq : s.daemonStep true = { s.rearm true with daemon := .notify } := by
    unfold State.daemonStep
    rw [h]
  have hkeeps : (s.rearm true).now = s.now ∧ (s.rearm true).history = s.history := by
    unfold State.rearm
    split <;> exact ⟨rfl, rfl⟩
  refine Rings.succ (rings_notify (by rw [heq])) ?_ ?_
  · rw [heq]
    exact hkeeps.1
  · rw [heq]
    exact hkeeps.2

theorem rings_timers (h : s.daemon = .timers) (he : s.expiry = some e) (hdue : e ≤ s.now) :
    Rings c s 3 := by
  have heq : s.daemonStep true = { s with active := false, expiry := none, daemon := .callback } := by
    unfold State.daemonStep State.processTimer
    rw [h, he]
    exact if_pos hdue
  refine Rings.succ (rings_callback (by rw [heq])) ?_ ?_
  · rw [heq]
  · rw [heq]

theorem rings_commands (h : s.daemon = .commands) (hqueue : s.queue = []) (he : s.expiry = some e)
    (hdue : e ≤ s.now) : Rings c s 4 := by
  have heq : s.daemonStep true = { s with daemon := .timers } := by
    unfold State.daemonStep
    rw [h]
    rw [hqueue]
  refine Rings.succ (rings_timers (e := e) (by rw [heq]) (by rw [heq]; exact he) (by rw [heq]; exact hdue)) ?_ ?_
  · rw [heq]
  · rw [heq]

theorem rings_start (h : s.daemon = .commands) (hqueue : s.queue = [.start tick])
    (hdue : tick + s.ticks ≤ s.now) : Rings c s 3 := by
  have heq : s.daemonStep true =
      { s with queue := [], active := true, expiry := none, daemon := .callback } := by
    unfold State.daemonStep
    rw [h]
    rw [hqueue]
    exact if_pos hdue
  refine Rings.succ (rings_callback (by rw [heq])) ?_ ?_
  · rw [heq]
  · rw [heq]

theorem rings_blocked (h : s.daemon = .blocked) (hr : Rings c { s with daemon := .commands } steps) :
    Rings c s (steps + 1) := by
  have heq : s.daemonStep true = { s with daemon := .commands } := by
    unfold State.daemonStep
    rw [h]
  refine Rings.succ (by rw [heq]; exact hr) ?_ ?_
  · rw [heq]
  · rw [heq]

theorem rings_listed (h : s.daemon.InLoop) (hqueue : s.queue = []) (he : s.expiry = some e)
    (hdue : e ≤ s.now) : ∃ steps, Rings c s steps := by
  cases hd : s.daemon with
  | timers => exact ⟨_, rings_timers hd he hdue⟩
  | blocked => exact ⟨_, rings_blocked hd (rings_commands rfl hqueue he hdue)⟩
  | commands => exact ⟨_, rings_commands hd hqueue he hdue⟩
  | callback | notify =>
    rw [hd] at h
    exact h.elim

theorem rings_sent (h : Sent s (.start tick)) (hdue : tick + s.ticks ≤ s.now) :
    ∃ steps, Rings c s steps := by
  cases hd : s.daemon with
  | blocked => exact ⟨_, rings_blocked hd (rings_start rfl h.queue hdue)⟩
  | commands => exact ⟨_, rings_start hd h.queue hdue⟩
  | timers | callback | notify =>
    have hdaemon := h.daemon
    rw [hd] at hdaemon
    exact hdaemon.elim

def State.later (s : State) (ticks : Nat) : State := { s with now := s.now + ticks }

theorem foldlM_ticks (c : TickConfig) (s : State) (ticks : Nat) :
    (List.replicate ticks Action.tick).foldlM (State.step c) s = some (s.later ticks) := by
  induction ticks generalizing s with
  | zero => rfl
  | succ ticks ih =>
    rw [replicate_succ, foldlM_cons]
    refine (ih _).trans ?_
    unfold State.later
    rw [Nat.add_assoc, Nat.add_comm 1]

theorem leftAlone_of_rings (ticks : Nat) (h : ∃ steps, Rings c (s.later ticks) steps) :
    ∃ ticks steps, ∃ s', (leftAlone ticks steps).foldlM (State.step c) s = some s' ∧
      s'.history = .notified (s.now + ticks) :: s.history := by
  obtain ⟨steps, s', hrun, hhistory⟩ := h
  refine ⟨ticks, steps, s', ?_, hhistory⟩
  unfold leftAlone
  rw [foldlM_append, foldlM_ticks]
  exact hrun

theorem Going.fires (h : Going c s) (ha : expected s.history = some a) (hzero : a.interval = 0) :
    ∃ ticks steps, ∃ s', (leftAlone ticks steps).foldlM (State.step c) s = some s' ∧
      s'.history = .notified (s.now + ticks) :: s.history := by
  cases h with
  | settled hdaemon hqueue hexpiry hsingle =>
    cases he : s.expiry with
    | none => exact absurd hzero (hsingle he a ha)
    | some e =>
      refine leftAlone_of_rings (e - s.now) (rings_listed hdaemon hqueue he ?_)
      show e ≤ s.now + (e - s.now)
      omega
  | starting tick hsent howes =>
    refine leftAlone_of_rings (tick + s.ticks - s.now) (rings_sent ⟨hsent.daemon, hsent.queue⟩ ?_)
    show tick + s.ticks ≤ s.now + (tick + s.ticks - s.now)
    omega
  | changing hsent hpos howes =>
    obtain ⟨b, hb, -, hspaced⟩ := howes
    obtain rfl := some.inj (ha.symm.trans hb)
    unfold Spaced at hspaced
    rw [if_pos hzero] at hspaced
    omega
  | callback hdaemon => exact leftAlone_of_rings 0 ⟨_, rings_callback hdaemon⟩
  | notify hdaemon => exact leftAlone_of_rings 0 ⟨_, rings_notify hdaemon⟩

/-- **What keeps a timer in time.**

In every run on whose steps all meet the condition, each notification is due, and what is asked for once comes. -/
theorem keepsTime_of_prompt (hw : c.Whole) (h : Reaches (State.step c) (Prompt c) init s) :
    Timely c s.history ∧ Fires c s := by
  have hinv : Inv c s := h.invariant (inv_init c) fun _ _ _ hi hok hs => hi.step hw hok hs
  refine ⟨hinv.timely, fun a ha hzero hcalls => ?_⟩
  have hphase := hinv.phase
  rw [hcalls] at hphase
  exact Going.fires hphase ha hzero

/-! ## A run under the condition -/

instance (s : State) : Decidable s.Quiet :=
  decidable_of_iff (s.daemon = .blocked ∧ s.queue = [] ∧ ∀ e ∈ s.expiry, s.now < e)
    ⟨fun ⟨hd, hq, he⟩ => ⟨hd, hq, he⟩, fun ⟨hd, hq, he⟩ => ⟨hd, hq, he⟩⟩

theorem fits_iff_mem (c : TickConfig) (v : Nat) : c.Fits v ↔ 2 ^ c.bits - 1 ∈ c.covers v := by
  have hpos : 0 < 2 ^ c.bits := Nat.two_pow_pos _
  constructor
  · rintro ⟨n, hn, hlt⟩
    exact covers_mono hn (by omega)
  · exact fun hmem => ⟨_, hmem, by omega⟩

instance (c : TickConfig) (v : Nat) : Decidable (c.Fits v) :=
  decidable_of_iff ((v : Int) ≤ (2 ^ c.bits - 1 : Nat) * c.nanosecondsPerTick) (fits_iff_mem c v).symm

instance (c : TickConfig) (s : State) (a : Action) : Decidable (Prompt c s a) :=
  match a with
  | .tick => inferInstanceAs (Decidable (_ → _))
  | .daemon _ => inferInstanceAs (Decidable (_ → _ → _))
  | .settime abstime value =>
    have : Decidable (Converts c abstime value) := inferInstanceAs (Decidable (_ ∧ _))
    inferInstanceAs (Decidable (_ ∧ _ ∧ (_ → Converts c abstime value)))
  | .delete => inferInstanceAs (Decidable (_ ∧ _))
  | .call _ _ cur =>
    have (value : Itimerspec) : Decidable (ConvertsAt c value cur) :=
      inferInstanceAs (Decidable (_ ∨ (¬(_ ∧ _) ∧ _)))
    inferInstanceAs (Decidable (_ ∧ ∀ value ∈ _, ConvertsAt c value cur))

/-! ## Runs in which it is otherwise -/

def daemonSteps (n : Nat) : List Action := List.replicate n (.daemon true)

def callSteps (n : Nat) : List Action := List.replicate n (.call 0 true ⟨1, 1⟩)

/-- `TIMER_ABSTIME` or not, and the times in seconds and nanoseconds. -/
def settime (abstime : Bool) (value interval : Timespec) : Action := .settime abstime ⟨interval, value⟩

/-- 4294967.297 seconds are one tick more than fit, and are cut to one tick. -/
def early : List Action :=
  settime false ⟨4294967, 297000000⟩ ⟨0, 0⟩ :: callSteps 4 ++ daemonSteps 4 ++ callSteps 2 ++ daemonSteps 3 ++ .tick :: daemonSteps 5

/-- At 1.000000001 seconds the timer is set to 2 seconds, and the subtraction borrows. -/
def borrowed : List Action := settime true ⟨2, 0⟩ ⟨0, 0⟩ :: callSteps 5

/-- The timer expires between the two commands of an arming, and is started again by the second. -/
def twice : List Action :=
  settime false ⟨0, 1000000⟩ ⟨0, 0⟩ :: callSteps 4 ++ daemonSteps 4 ++ .tick :: daemonSteps 5 ++ callSteps 2 ++ daemonSteps 2 ++
    .tick :: daemonSteps 3

/-- A call comes between expiration and notification, where the timer is not active. -/
def disarmed : List Action :=
  settime false ⟨0, 1000000⟩ ⟨0, 1000000⟩ :: callSteps 4 ++ daemonSteps 4 ++ callSteps 2 ++ daemonSteps 3 ++ .tick :: daemonSteps 2 ++
    settime false ⟨0, 0⟩ ⟨0, 0⟩ :: callSteps 2 ++ daemonSteps 2

/-- The timer is set to 2 ms and then each 1 ms; it notifies twice, is set to 1 ms from 1.000001 seconds on, and
notifies once. -/
def prompt : List Action :=
  settime false ⟨0, 2000000⟩ ⟨0, 1000000⟩ :: callSteps 4 ++ daemonSteps 4 ++ callSteps 2 ++ daemonSteps 4 ++
    [.tick, .tick] ++ daemonSteps 8 ++ .tick :: daemonSteps 8 ++
    settime true ⟨1, 1000000⟩ ⟨0, 0⟩ :: callSteps 2 ++ daemonSteps 4 ++ callSteps 3 ++ daemonSteps 4 ++ callSteps 2 ++
    daemonSteps 4 ++ .tick :: daemonSteps 8

theorem keepsTime_prompt : ∃ s, (prompt.foldlM (guarded (State.step millisecondTicks) (Prompt millisecondTicks)) init =
    some s ∧ s.history.length = 5) ∧ Timely millisecondTicks s.history ∧ Fires millisecondTicks s := by
  have hrun : (prompt.foldlM (guarded (State.step millisecondTicks) (Prompt millisecondTicks)) init).map
      (·.history.length) = some 5 := by decide
  obtain ⟨s, hs, hlength⟩ := map_eq_some_iff.mp hrun
  exact ⟨s, ⟨hs, hlength⟩, keepsTime_of_prompt millisecondTicks_whole (.of_guarded prompt hs)⟩

/-- Notifications come before their time, twice, and after disarming. -/
theorem not_keepsTime : ¬ KeepsTime millisecondTicks ∧ ¬ Timely millisecondTicks (ends millisecondTicks early) ∧
    ¬ Timely millisecondTicks (ends millisecondTicks borrowed) ∧
    ¬ Timely millisecondTicks (ends millisecondTicks twice) ∧
    ¬ Timely millisecondTicks (ends millisecondTicks disarmed) := by
  have hearly : ¬ Timely millisecondTicks (ends millisecondTicks early) := by decide
  refine ⟨fun h => ?_, hearly, by decide, by decide, by decide⟩
  cases hrun : early.foldlM (State.step millisecondTicks) init with
  | none =>
    refine hearly ?_
    unfold ends
    rw [hrun]
    trivial
  | some s =>
    refine hearly ?_
    unfold ends
    rw [hrun]
    exact (h s (.of_foldlM early hrun)).1

end Gpmx.Libc.Timer
