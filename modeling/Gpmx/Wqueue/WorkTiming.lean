import Gpmx.Wqueue.WorkRuns

/-!
# When the worker is called

The delay of an entry against the clock itself, not against the ticks that `work_process` counts.
The code subtracts the low 32 bits of two readings and rounds the difference to the nearest tick,
so that it is off by up to half a tick, and by far more where the low bits have started again
between the two readings.

* `Entry.Over` — the delay has passed since the entry was queued
* `Entry.Misread` — the readings at which the code is wrong about it
* `Sys.Timely` — the runs in which no entry is looked at then
-/

namespace Gpmx.Wqueue

open Infra Queue Function List

variable {T ι W A : Type} {clocksPerSec : Nat}

def Entry.Over (clocksPerSec : Nat) (e : Entry ι W A) (now : Nat) : Prop :=
  usecs clocksPerSec e.qid e.delay ≤ now - e.since

def Entry.Early (clocksPerSec : Nat) (e : Entry ι W A) (now : Nat) : Prop :=
  now - e.since < usecs clocksPerSec e.qid e.delay ∧
    (e.since / 2 ^ 32 = now / 2 ^ 32 ∧
        usecs clocksPerSec e.qid e.delay ≤ now - e.since + usecPerTick clocksPerSec / 2 ∨
      clockSystimer now + usecPerTick clocksPerSec / 2 < clockSystimer e.since)

def Entry.Late (clocksPerSec : Nat) (e : Entry ι W A) (now : Nat) : Prop :=
  usecs clocksPerSec e.qid e.delay ≤ now - e.since ∧ 0 < e.delay ∧
    e.since / 2 ^ 32 < now / 2 ^ 32 ∧
    clockSystimer now + usecPerTick clocksPerSec / 2
      < clockSystimer e.since + usecs clocksPerSec e.qid e.delay ∧
    clockSystimer e.since ≤ clockSystimer now + usecPerTick clocksPerSec / 2

/-- The readings at which `work_process` is wrong about the delay of the entry. -/
def Entry.Misread (clocksPerSec : Nat) (e : Entry ι W A) (now : Nat) : Prop :=
  e.qid ≠ .hrt ∧ (e.Early clocksPerSec now ∨ e.Late clocksPerSec now)

variable {s s' : Sys T ι W A} {e : Entry ι W A} {now : Nat} {qid : Qid} {work : ι}

theorem le_usec2tick {delay x : Nat} (htick : 0 < usecPerTick clocksPerSec) :
    delay ≤ usec2tick clocksPerSec x ↔
      usecPerTick clocksPerSec * delay ≤ (x + usecPerTick clocksPerSec / 2) % 2 ^ 64 := by
  unfold usec2tick
  rw [Nat.le_div_iff_mul_le htick, Nat.mul_comm]

theorem elapsed_low (htick : 0 < usecPerTick clocksPerSec) (hqid : e.qid ≠ .hrt) :
    e.delay ≤ elapsed clocksPerSec e.qid now (timeTag e.qid e.since) ↔
      usecs clocksPerSec e.qid e.delay
        ≤ ((clockSystimer now + 2 ^ 64 - clockSystimer e.since) % 2 ^ 64
            + usecPerTick clocksPerSec / 2) % 2 ^ 64 := by
  cases h : e.qid with
  | hrt => exact absurd h hqid
  | hpwork | lpwork => exact le_usec2tick htick

theorem usecPerTick_le_usecs (hqid : e.qid ≠ .hrt) (hpos : 0 < e.delay) :
    usecPerTick clocksPerSec ≤ usecs clocksPerSec e.qid e.delay := by
  unfold usecs
  split
  · next h => exact absurd h hqid
  · exact Nat.le_mul_of_pos_right _ hpos

/-- **The code is right about a delay at every reading that is not misread.** -/
theorem ready_iff_over (htick : 0 < usecPerTick clocksPerSec) (hsince : e.since ≤ now)
    (hnow : now < 2 ^ 64) (hread : ¬e.Misread clocksPerSec now) :
    e.delay ≤ elapsed clocksPerSec e.qid now (timeTag e.qid e.since) ↔ e.Over clocksPerSec now := by
  by_cases hqid : e.qid = .hrt
  · unfold elapsed timeTag Entry.Over usecs
    rw [hqid]
    simp only
    omega
  · have hle := usecPerTick_le clocksPerSec
    have hearly : ¬e.Early clocksPerSec now := fun h => hread ⟨hqid, .inl h⟩
    have hlate : ¬e.Late clocksPerSec now := fun h => hread ⟨hqid, .inr h⟩
    have hpos : 0 < e.delay → usecPerTick clocksPerSec ≤ usecs clocksPerSec e.qid e.delay :=
      usecPerTick_le_usecs hqid
    have hzero : e.delay = 0 → usecs clocksPerSec e.qid e.delay = 0 := fun h => by simp [usecs, h]
    rw [elapsed_low htick hqid]
    unfold Entry.Early Entry.Late Entry.Over clockSystimer at *
    omega

/-- **And it is wrong at those that are**, where the delay is a `uint32_t`. -/
theorem ready_iff_not_over (htick : 0 < usecPerTick clocksPerSec) (hsince : e.since ≤ now)
    (hdelay : e.delay < 2 ^ 32) (hread : e.Misread clocksPerSec now) :
    e.delay ≤ elapsed clocksPerSec e.qid now (timeTag e.qid e.since) ↔
      ¬e.Over clocksPerSec now := by
  obtain ⟨hqid, hread⟩ := hread
  have hle := usecPerTick_le clocksPerSec
  have hbound : usecs clocksPerSec e.qid e.delay ≤ 1000000 * 2 ^ 32 := by
    unfold usecs
    split
    · next h => exact absurd h hqid
    · exact Nat.mul_le_mul hle (Nat.le_of_lt hdelay)
  rw [elapsed_low htick hqid]
  unfold Entry.Early Entry.Late clockSystimer at hread
  unfold Entry.Over clockSystimer
  rcases hread with ⟨hnot, ⟨hblock, hhalf⟩ | hback⟩ | ⟨hover, hpos, hblock, hshow, hback⟩
  · omega
  · omega
  · have hone : usecPerTick clocksPerSec ≤ usecs clocksPerSec e.qid e.delay :=
      usecPerTick_le_usecs hqid hpos
    omega

/-! ## Runs -/

namespace Sys

/-- What `Careful` asks for, and no entry is looked at when its delay is misread. -/
def Timely (clocksPerSec : Nat) (s : Sys T ι W A) (a : Action T ι W A) : Prop :=
  s.Careful a ∧ match a with
    | .process qid clock => ∀ e ∈ s.pendingOf qid, ∀ now ∈ clock, ¬e.Misread clocksPerSec now
    | _ => True

structure Timed (clocksPerSec : Nat) (s : Sys T ι W A) : Prop where
  linked : s.Linked
  handles : s.Handles fun e _ _ now => e.Over clocksPerSec now

def Awaited (s : Sys T ι W A) (e : Entry ι W A) : Prop :=
  (e ∈ s.pending ∧ ∀ next, s.phase e.qid ≠ .sleeping next) ∨ e ∈ (s.phase e.qid).taken ∨
    e ∈ s.called.map Called.entry ∨ e ∈ s.cancelled

end Sys

/-- No reading of the clock by `work_process` is before `start`. -/
def Action.From (start : Nat) : Action T ι W A → Prop
  | .process _ clock => ∀ now ∈ clock, start ≤ now
  | _ => True

open Sys

variable {clock : List Nat} {begin : Nat}

theorem ready_iff (htick : 0 < usecPerTick clocksPerSec) (h : s.Linked) (hclock : s.Readings clock)
    (he : e ∈ s.pendingOf qid) (hnow : now ∈ clock) (hread : ¬e.Misread clocksPerSec now) :
    s.Ready clocksPerSec qid e now ↔ e.Over clocksPerSec now := by
  obtain ⟨hmem, rfl⟩ := mem_pendingOf.mp he
  have ha := h.agrees e hmem
  have hsince : e.since ≤ now :=
    Nat.le_trans ha.since ((pairwise_cons.mp hclock.1).1 now hnow)
  unfold Sys.Ready
  rw [ha.delay, ha.qtime]
  exact ready_iff_over htick hsince (hclock.2 now hnow) hread

theorem callWorker_awaited (ht : s.Timed clocksPerSec) (h : s.Awaited e)
    (hs : s.callWorker qid = some s') : s'.Awaited e := by
  unfold callWorker at hs
  split at hs
  · next worker arg taken time hphase =>
    obtain ⟨x, rfl, hx, hsome, -⟩ := ht.handles.taking qid worker arg taken time hphase
    obtain ⟨worker, rfl⟩ := Option.isSome_iff_exists.mp hsome
    cases hs
    unfold Awaited
    simp only [map_append, mem_append]
    by_cases hqid : e.qid = qid
    · subst hqid
      rw [update_self]
      rcases h with ⟨hp, -⟩ | htaken | hcalled | hcancelled
      · exact .inl ⟨hp, by simp⟩
      · rw [hphase] at htaken
        obtain rfl := mem_singleton.mp htaken
        exact .inr (.inr (.inl (.inr (by simp))))
      · exact .inr (.inr (.inl (.inl hcalled)))
      · exact .inr (.inr (.inr hcancelled))
    · rw [update_of_ne hqid]
      exact h.imp_right (Or.imp_right (Or.imp_left .inl))
  · cases hs

theorem wake_awaited (h : s.Awaited e) (hs : s.wake qid = some s') : s'.Awaited e := by
  unfold wake at hs
  split at hs
  · next next hphase =>
    cases hs
    simp only [Awaited]
    by_cases hqid : e.qid = qid
    · subst hqid
      rw [update_self]
      rcases h with ⟨hp, -⟩ | htaken | hdone
      · exact .inl ⟨hp, by simp⟩
      · rw [hphase] at htaken
        cases htaken
      · exact .inr (.inr hdone)
    · rw [update_of_ne hqid]
      exact h
  · cases hs

variable [DecidableEq ι]

/-! ## What becomes of an entry -/

theorem workCancel_awaited (h : s.Awaited e) : (s.workCancel qid work).Awaited e := by
  unfold workCancel
  split
  · rcases h with ⟨hp, hphase⟩ | htaken | hcalled | hcancelled
    · by_cases hw : e.work = work
      · have hmem : e ∈ s.entriesOf work := by simp [entriesOf, hp, hw]
        exact .inr (.inr (.inr (mem_append_right _ hmem)))
      · exact .inl ⟨mem_entriesBut.mpr ⟨hp, hw⟩, hphase⟩
    · exact .inr (.inl htaken)
    · exact .inr (.inr (.inl hcalled))
    · exact .inr (.inr (.inr (mem_append_left _ hcancelled)))
  · exact h

/-- **A section that finds the delay over takes the entry, or one before it.** -/
theorem workProcess_awaited (htick : 0 < usecPerTick clocksPerSec) (hl : s.Linked)
    (hread : ∀ e ∈ s.pendingOf qid, ∀ now ∈ clock, ¬e.Misread clocksPerSec now)
    (hover : e.Over clocksPerSec begin) (hfrom : ∀ now ∈ clock, begin ≤ now) (h : s.Awaited e)
    (hs : s.workProcess clocksPerSec qid clock = some s') : s'.Awaited e := by
  obtain ⟨hlooking, hclock, -⟩ := workProcess_found hs
  have hlater := hl.later (time_le_getLastD hclock)
  rcases workProcess_takes hl (fun x hx now hnow => ready_iff htick hl hclock hx hnow
    (hread x hx now hnow)) hs with ⟨M, x, N, now, hsplit, rfl, -⟩ |
    ⟨next, rfl, hnot⟩
  · obtain ⟨hx, rfl⟩ := mem_of_split hsplit
    unfold Awaited
    rw [settle_ready_phase hlater hx]
    rcases h with ⟨hp, hsleep⟩ | htaken | hdone
    · by_cases hw : e.work = x.work
      · obtain rfl := hl.eq_of_work hp hx hw
        exact .inr (.inl (by simp [Phase.taken]))
      · refine .inl ⟨mem_entriesBut.mpr ⟨hp, hw⟩, ?_⟩
        intro next
        by_cases hqid : e.qid = x.qid
        · simp [hqid]
        · rw [update_of_ne hqid]
          exact hsleep next
    · refine .inr (.inl ?_)
      by_cases hqid : e.qid = x.qid
      · rw [hqid, hlooking] at htaken
        cases htaken
      · rw [update_of_ne hqid]
        exact htaken
    · exact .inr (.inr hdone)
  · by_cases hqid : e.qid = qid
    · subst hqid
      rcases h with ⟨hp, -⟩ | htaken | hdone
      · -- the delay was over at every reading, so that the section cannot have passed it over
        obtain ⟨now, hnow, hx, -⟩ := hnot e (mem_pendingOf.mpr ⟨hp, rfl⟩)
        have hlate := hfrom now hnow
        unfold Entry.Over at hover hx
        omega
      · rw [hlooking] at htaken
        cases htaken
      · exact .inr (.inr hdone)
    · have hother : ({ s with time := clock.getLastD s.time }.settle qid (.done next)).phase e.qid
          = s.phase e.qid := update_of_ne hqid _ _
      unfold Awaited
      rw [hother]
      exact h

/-! ## Results -/

variable [DecidableEq T]

theorem step_timed (htick : 0 < usecPerTick clocksPerSec) {a : Action T ι W A}
    (h : s.Timed clocksPerSec) (ha : s.Timely clocksPerSec a)
    (hs : s.step clocksPerSec a = some s') : s'.Timed clocksPerSec := by
  refine ⟨step_linked h.linked ha.1 hs, step_handles h.linked h.handles ?_ hs⟩
  rintro qid clock rfl e he now hnow hclock hready
  exact (ready_iff htick h.linked hclock he hnow (ha.2 e he now hnow)).mp hready

theorem step_awaited (htick : 0 < usecPerTick clocksPerSec) {a : Action T ι W A}
    (hover : e.Over clocksPerSec begin) (ht : s.Timed clocksPerSec) (h : s.Awaited e)
    (ha : s.Timely clocksPerSec a) (hfrom : a.From begin) (hs : s.step clocksPerSec a = some s') :
    s'.Awaited e := by
  cases a with
  | initialise t r =>
    simp only [step, initialise] at hs
    split at hs
    · cases hs
      exact h
    · cases hs
  | enqueue t now =>
    simp only [step, enqueue] at hs
    split at hs
    · cases hs
    · split at hs
      · obtain ⟨q, -, rfl⟩ := Option.map_eq_some_iff.mp hs
        exact h.imp_left (And.imp_left (mem_append_left _))
      · cases hs
  | cancel qid work =>
    cases hs
    exact workCancel_awaited h
  | process qid clock => exact workProcess_awaited htick ht.linked ha.2 hover hfrom h hs
  | callWorker qid => exact callWorker_awaited ht h hs
  | wake qid => exact wake_awaited h hs

/--
What a pass that begins at `begin` makes of an entry whose delay is over by then. A section of it
takes the entry, or one that was queued before it, and when the thread goes to sleep again the
worker has been called, or the entry has been cancelled.
-/
def Sys.Prompt (clocksPerSec : Nat) (s : Sys T ι W A) (e : Entry ι W A) (begin : Nat) : Prop :=
  (∀ clock, s.Readings clock → s.Timely clocksPerSec (.process e.qid clock) →
    (∀ now ∈ clock, begin ≤ now) → (s.pendingOf e.qid).length ≤ clock.length →
    ∃ s' M x N now, s.workProcess clocksPerSec e.qid clock = some s' ∧
      s.pendingOf e.qid = M ++ x :: N ∧ e ∉ M ∧ s'.phase e.qid = .calling x.worker x.arg [x] now) ∧
  ∀ s', Reaches (step clocksPerSec) (fun s a => s.Timely clocksPerSec a ∧ a.From begin) s s' →
    ∀ next, s'.phase e.qid = .sleeping next →
    e ∈ s'.called.map Called.entry ∨ e ∈ s'.cancelled

theorem Sys.Timed.prompt (htick : 0 < usecPerTick clocksPerSec) (h : s.Timed clocksPerSec)
    (he : e ∈ s.pending) (hlooking : s.phase e.qid = .looking) (hover : e.Over clocksPerSec begin) :
    s.Prompt clocksPerSec e begin := by
  constructor
  · intro clock hclock htimely hfrom hlength
    obtain ⟨s', hs⟩ : ∃ s', s.workProcess clocksPerSec e.qid clock = some s' :=
      workProcess_isSome h.linked hlooking hclock hlength
    have hmem : e ∈ s.pendingOf e.qid := mem_pendingOf.mpr ⟨he, rfl⟩
    have hnever : ¬∃ now ∈ clock, ¬e.Over clocksPerSec now := by
      rintro ⟨now, hnow, hnot⟩
      have hlate := hfrom now hnow
      unfold Entry.Over at hover hnot
      omega
    rcases workProcess_takes h.linked (fun x hx now hnow => ready_iff htick h.linked hclock hx hnow
      (htimely.2 x hx now hnow)) hs with ⟨M, x, N, now, hsplit, rfl, -, -, hM⟩ | ⟨next, rfl, hnot⟩
    · refine ⟨_, M, x, N, now, hs, hsplit, fun heM => hnever (hM e heM), ?_⟩
      rw [settle_ready_phase (h.linked.later (time_le_getLastD hclock)) (mem_of_split hsplit).1,
        update_self]
    · obtain ⟨now, hnow, hnot, -⟩ := hnot e hmem
      exact absurd ⟨now, hnow, hnot⟩ hnever
  · intro s' hrun next hsleep
    have hawaited : s'.Timed clocksPerSec ∧ s'.Awaited e := by
      refine hrun.invariant (P := fun s => s.Timed clocksPerSec ∧ s.Awaited e) ⟨h, ?_⟩ ?_
      · exact .inl ⟨he, by simp [hlooking]⟩
      · rintro s a s' ⟨ht, hw⟩ ⟨ha, hfrom⟩ hs
        exact ⟨step_timed htick ht ha hs, step_awaited htick hover ht hw ha hfrom hs⟩
    rcases hawaited.2 with ⟨-, hnot⟩ | htaken | hdone
    · exact absurd hsleep (hnot next)
    · rw [hsleep] at htaken
      cases htaken
    · exact hdone

/--
**As long as no entry is looked at when its delay is misread, workers are called in time**: not before
the delay is over, and by the first pass that begins when it is. At a reading that is misread, the
code takes a delay for over that is not, or the other way round.
-/
theorem worker_called_in_time (htick : 0 < usecPerTick clocksPerSec) {arg : ι → A}
    (h : Reaches (step clocksPerSec) (Timely clocksPerSec) (start arg : Sys T ι W A) s) :
    (∀ c ∈ s.called, c.entry.Over clocksPerSec c.time) ∧
    (∀ e ∈ s.pending, ∀ begin, s.phase e.qid = .looking → e.Over clocksPerSec begin →
      s.Prompt clocksPerSec e begin) ∧
    ∀ (e : Entry ι W A) (now : Nat), e.since ≤ now → e.delay < 2 ^ 32 → e.Misread clocksPerSec now →
      (e.delay ≤ elapsed clocksPerSec e.qid now (timeTag e.qid e.since) ↔
        ¬e.Over clocksPerSec now) := by
  have htimed : s.Timed clocksPerSec := h.invariant
    ⟨start_linked arg, start_handles _ arg⟩ fun s a s' hs ha => step_timed htick hs ha
  refine ⟨htimed.handles.called, ?_, ?_⟩
  · intro e he begin hlooking hover
    exact htimed.prompt htick he hlooking hover
  · intro e now hsince hdelay hread
    exact ready_iff_not_over htick hsince hdelay hread

/-- A work with a delay of one tick is called when a tick has passed. -/
theorem worker_called_in_time_tick :
    ∃ s : Sys Unit Bool Nat Nat, Reaches (step 1000) (Timely 1000) (start fun _ => 0) s ∧
      s.called.map (fun c => (c.worker, c.entry.since, c.time)) = [(7, 0, 1000)] ∧
      ∀ c ∈ s.called, c.entry.Over 1000 c.time := by
  obtain ⟨s, h, hcalled⟩ : ∃ s : Sys Unit Bool Nat Nat, Reaches (step 1000) (Timely 1000)
      (start fun _ => 0) s ∧
      s.called.map (fun c => (c.worker, c.arg, c.entry.since, c.time)) = [(7, 5, 0, 1000)] := by
    refine reaches_tick ⟨⟨rfl, rfl⟩, trivial⟩ (fun s => ⟨trivial, trivial⟩) ?_
      fun s => ⟨trivial, trivial⟩
    refine fun s hpending => ⟨trivial, fun e he now hnow => ?_⟩
    rw [pendingOf, hpending] at he
    rw [mem_singleton.mp (mem_filter.mp he).1, mem_singleton.mp hnow]
    simp [Entry.Misread, Entry.Early, Entry.Late, Request.entry, usecs, usecPerTick, tick]
  refine ⟨s, h, ?_, (worker_called_in_time (by decide) h).1⟩
  simpa using congrArg (map fun p => (p.1, p.2.2)) hcalled

/-- When a worker that sleeps wakes. -/
def Phase.wakes : Phase ι W A → Option Nat
  | .sleeping next => some next
  | .looking .. | .calling .. => none

/--
A work with a delay of one tick is called after half of it. A work with a delay of 100 ticks is
called after a microsecond, where the low 32 bits of the clock start again. And one with a delay of
one tick is passed over after more than an hour.
-/
theorem worker_called_early_and_late :
    let r : Request Bool Nat Nat := ⟨.hpwork, true, some 7, 5, 1⟩
    (∃ s : Sys Unit Bool Nat Nat,
      [.initialise () r, .enqueue () 0, .process .hpwork [500], .callWorker .hpwork].foldlM
        (step 1000) (start fun _ => 0) = some s ∧
      ∃ c ∈ s.called, ¬c.entry.Over 1000 c.time) ∧
    (∃ s : Sys Unit Bool Nat Nat,
      [.initialise () { r with delay := 100 }, .enqueue () (2 ^ 32 - 1), .process .hpwork [2 ^ 32],
        .callWorker .hpwork].foldlM (step 1000) (start fun _ => 0) = some s ∧
      ∃ c ∈ s.called, ¬c.entry.Over 1000 c.time) ∧
    ∃ s : Sys Unit Bool Nat Nat,
      [.initialise () r, .enqueue () 0, .process .hpwork [2 ^ 32]].foldlM
        (step 1000) (start fun _ => 0) = some s ∧
      ∃ e ∈ s.pending, e.Over 1000 (2 ^ 32) ∧ ∃ next, s.phase e.qid = .sleeping next := by
  intro r
  have hearly : ∀ {as : List (Action Unit Bool Nat Nat)} (delay since time : Nat),
      (as.foldlM (step 1000) (start fun _ => 0)).map (fun s => s.called.map fun c =>
        (c.entry.qid, c.entry.delay, c.entry.since, c.time)) = some [(.hpwork, delay, since, time)] →
      time - since < 1000 * delay → ∃ s, as.foldlM (step 1000) (start fun _ => 0) = some s ∧
        ∃ c ∈ s.called, ¬c.entry.Over 1000 c.time := by
    intro as delay since time hrun hlt
    obtain ⟨s, hs, hcalled⟩ := Option.map_eq_some_iff.mp hrun
    obtain ⟨c, hc, heq⟩ := mem_map.mp (hcalled ▸ mem_singleton.mpr rfl)
    simp only [Prod.mk.injEq] at heq
    obtain ⟨hqid, rfl, rfl, rfl⟩ := heq
    refine ⟨s, hs, c, hc, ?_⟩
    simp only [Entry.Over, hqid, usecs, usecPerTick]
    omega
  refine ⟨hearly 1 0 500 (by decide) (by decide),
    hearly 100 (2 ^ 32 - 1) (2 ^ 32) (by decide) (by decide), ?_⟩
  have hrun : ([.initialise () r, .enqueue () 0, .process .hpwork [2 ^ 32]].foldlM (step 1000)
      (start fun _ => 0 : Sys Unit Bool Nat Nat)).map (fun s =>
        (s.pending.map fun e => (e.qid, e.delay, e.since), (s.phase .hpwork).wakes))
      = some ([(.hpwork, 1, 0)], some 1000) := by decide
  obtain ⟨s, hs, heq⟩ := Option.map_eq_some_iff.mp hrun
  simp only [Prod.mk.injEq] at heq
  obtain ⟨hpending, hsleep⟩ := heq
  obtain ⟨e, he, heq⟩ := mem_map.mp (hpending ▸ mem_singleton.mpr rfl)
  simp only [Prod.mk.injEq] at heq
  obtain ⟨hqid, hdelay, hsince⟩ := heq
  refine ⟨s, hs, e, he, ?_, ?_⟩
  · simp only [Entry.Over, hqid, hdelay, hsince, usecs, usecPerTick]
    omega
  · rw [hqid]
    cases hphase : s.phase .hpwork with
    | sleeping next => exact ⟨next, rfl⟩
    | looking | calling => simp [Phase.wakes, hphase] at hsleep

end Gpmx.Wqueue
