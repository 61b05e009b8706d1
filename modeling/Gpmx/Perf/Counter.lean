import Mathlib

/-!
# Performance counters

`gpm/modules/perf/perf_counter.c`, without the mean and the variance, which are floats. Nothing clears the memory of
a new counter. The times are of `hrt_absolute_time`, and a `Log` has what was to be counted since the last reset.

* `Inv.step` — a call that is within the limits
* `perf_counter_reports` — a run of them
-/

namespace Gpmx.Perf

open List

/-- `PC_COUNT`, `PC_ELAPSED`, `PC_INTERVAL` -/
inductive CounterType
  | count
  | elapsed
  | interval
  deriving DecidableEq

/-- The fields of `struct perf_ctr_count`, `perf_ctr_elapsed` and `perf_ctr_interval` that a call reads. -/
structure Counter where
  type : CounterType
  eventCount : Nat
  timeStart : Nat
  timeTotal : Nat
  timeLast : Nat
  timeLeast : Nat
  timeMost : Nat

def perfAlloc (type : CounterType) (mem : Counter) : Counter := { mem with type }

/-- `hrt_elapsed_time`, and the difference of two `hrt_abstime` -/
def elapsedTime (now start : Nat) : Nat := (now + 2 ^ 64 - start) % 2 ^ 64

def perfCountInterval (now : Nat) (c : Counter) : Counter :=
  if c.type = .interval then
    let interval := elapsedTime now c.timeLast % 2 ^ 32
    let c :=
      match c.eventCount with
      | 0 => c
      | 1 => { c with timeLeast := interval, timeMost := interval }
      | _ + 2 =>
        { c with
          timeLeast := if interval < c.timeLeast then interval else c.timeLeast
          timeMost := if interval > c.timeMost then interval else c.timeMost }
    { c with timeLast := now, eventCount := (c.eventCount + 1) % 2 ^ 64 }
  else c

def perfCount (now : Nat) (c : Counter) : Counter :=
  match c.type with
  | .count => { c with eventCount := (c.eventCount + 1) % 2 ^ 64 }
  | .interval => perfCountInterval now c
  | .elapsed => c

def perfBegin (now : Nat) (c : Counter) : Counter :=
  if c.type = .elapsed then { c with timeStart := now } else c

def perfSetElapsed (elapsed : Int) (c : Counter) : Counter :=
  if c.type = .elapsed ∧ 0 ≤ elapsed then
    let e := elapsed.toNat % 2 ^ 32
    { c with
      eventCount := (c.eventCount + 1) % 2 ^ 64
      timeTotal := (c.timeTotal + elapsed.toNat) % 2 ^ 64
      timeLeast := if c.timeLeast > e ∨ c.timeLeast = 0 then e else c.timeLeast
      timeMost := if c.timeMost < e then e else c.timeMost
      timeStart := 0 }
  else c

def perfEnd (now : Nat) (c : Counter) : Counter :=
  if c.type = .elapsed ∧ c.timeStart ≠ 0 then
    perfSetElapsed ((elapsedTime now c.timeStart : Int).bmod (2 ^ 64)) c
  else c

def perfCancel (c : Counter) : Counter :=
  if c.type = .elapsed then { c with timeStart := 0 } else c

def perfReset (c : Counter) : Counter :=
  match c.type with
  | .count => { c with eventCount := 0 }
  | .elapsed => { c with eventCount := 0, timeStart := 0, timeTotal := 0, timeLeast := 0, timeMost := 0 }
  | .interval => { c with eventCount := 0, timeLast := 0, timeLeast := 0, timeMost := 0 }

/-- The calls, with the time at which they are made. -/
inductive Op
  | count (now : Nat)
  | begin (now : Nat)
  | stop (now : Nat)
  | setElapsed (elapsed : Int)
  | countInterval (now : Nat)
  | cancel
  | reset
  deriving DecidableEq

def step (c : Counter) : Op → Counter
  | .count now => perfCount now c
  | .begin now => perfBegin now c
  | .stop now => perfEnd now c
  | .setElapsed elapsed => perfSetElapsed elapsed c
  | .countInterval now => perfCountInterval now c
  | .cancel => perfCancel c
  | .reset => perfReset c

/-! ## What is to be counted -/

/-- The events since the last reset, the times or intervals that were recorded, and what has begun. -/
structure Log where
  events : Nat
  values : List Nat
  start : Option Nat
  last : Option Nat

def Log.empty : Log := ⟨0, [], none, none⟩

def Log.event (log : Log) (now : Nat) : Log :=
  { log with
    events := log.events + 1
    values := (log.last.map fun last => now - last).toList ++ log.values
    last := some now }

def Log.record (log : Log) (elapsed : Nat) : Log :=
  { log with events := log.events + 1, values := elapsed :: log.values, start := none }

def Log.step (type : CounterType) (log : Log) : Op → Log
  | .reset => .empty
  | .count now =>
    match type with
    | .count => { log with events := log.events + 1 }
    | .interval => log.event now
    | .elapsed => log
  | .countInterval now => if type = .interval then log.event now else log
  | .begin now => if type = .elapsed then { log with start := some now } else log
  | .stop now =>
    match log.start with
    | some start => if type = .elapsed then log.record (now - start) else log
    | none => log
  | .setElapsed elapsed => if type = .elapsed ∧ 0 ≤ elapsed then log.record elapsed.toNat else log
  | .cancel => if type = .elapsed then { log with start := none } else log

/-- The counter says what was to be counted. -/
structure Reports (c : Counter) (log : Log) : Prop where
  count : c.eventCount = log.events
  total : c.type = .elapsed → c.timeTotal = log.values.sum
  least : c.type ≠ .count → ∀ t, IsLeast {x | x ∈ log.values} t → c.timeLeast = t
  most : c.type ≠ .count → ∀ t, IsGreatest {x | x ∈ log.values} t → c.timeMost = t

/-! ## The limits -/

def Log.Takes (log : Log) (elapsed : Nat) : Prop :=
  elapsed < 2 ^ 32 ∧ log.values.sum + elapsed < 2 ^ 64 ∧ (0 ∈ log.values → elapsed = 0)

def Log.Later (log : Log) (now : Nat) : Prop :=
  now < 2 ^ 64 ∧ ∀ last, log.last = some last → last ≤ now ∧ now - last < 2 ^ 32

def Op.Within (type : CounterType) (log : Log) (op : Op) : Prop :=
  log.events + 1 < 2 ^ 64 ∧
    match op with
    | .count now => type = .interval → log.Later now
    | .countInterval now => type = .interval → log.Later now
    | .begin now => type = .elapsed → now ≠ 0
    | .stop now => type = .elapsed → ∀ start, log.start = some start →
      start ≤ now ∧ now < 2 ^ 64 ∧ log.Takes (now - start)
    | .setElapsed elapsed => type = .elapsed → 0 ≤ elapsed → log.Takes elapsed.toNat
    | .cancel => True
    | .reset => True

def Within (type : CounterType) : Log → List Op → Prop
  | _, [] => True
  | log, op :: ops => op.Within type log ∧ Within type (log.step type op) ops

/-- The memory of the counter is cleared. -/
def Clean (type : CounterType) (mem : Counter) : Prop :=
  mem.eventCount = 0 ∧ (type = .elapsed →
    mem.timeStart = 0 ∧ mem.timeTotal = 0 ∧ mem.timeLeast = 0 ∧ mem.timeMost = 0)

/-! ## Runs -/

structure Inv (c : Counter) (log : Log) : Prop where
  count : c.eventCount = log.events
  total : c.type = .elapsed → c.timeTotal = log.values.sum
  start : c.type = .elapsed → c.timeStart = log.start.getD 0 ∧ log.start ≠ some 0
  empty : c.type = .elapsed → log.values = [] → c.timeLeast = 0 ∧ c.timeMost = 0
  extremes : c.type ≠ .count → log.values ≠ [] →
    IsLeast {x | x ∈ log.values} c.timeLeast ∧ IsGreatest {x | x ∈ log.values} c.timeMost
  last : c.type = .interval → (log.last = none ∧ log.events = 0 ∧ log.values = []) ∨
    log.last = some c.timeLast ∧ (log.events = 1 ∧ log.values = [] ∨ 2 ≤ log.events ∧ log.values ≠ [])

variable {c : Counter} {log : Log} {type : CounterType}

theorem elapsedTime_eq {now start : Nat} (hle : start ≤ now) (hlt : now < 2 ^ 64) :
    elapsedTime now start = now - start := by
  unfold elapsedTime
  omega

theorem extremes_cons {l : List Nat} {least most e : Nat}
    (h : IsLeast {x | x ∈ l} least ∧ IsGreatest {x | x ∈ l} most) :
    IsLeast {x | x ∈ e :: l} (if e < least then e else least) ∧
      IsGreatest {x | x ∈ e :: l} (if most < e then e else most) := by
  obtain ⟨⟨hleast, hlower⟩, hmost, hupper⟩ := h
  constructor
  · constructor
    · split
      · exact mem_cons_self
      · exact mem_cons_of_mem _ hleast
    · intro x hx
      rcases mem_cons.mp hx with rfl | hx
      · split <;> omega
      · have := hlower hx
        split <;> omega
  · constructor
    · split
      · exact mem_cons_self
      · exact mem_cons_of_mem _ hmost
    · intro x hx
      rcases mem_cons.mp hx with rfl | hx
      · split <;> omega
      · have := hupper hx
        split <;> omega

theorem extremes_singleton (e : Nat) : IsLeast {x | x ∈ [e]} e ∧ IsGreatest {x | x ∈ [e]} e := by
  constructor <;> refine ⟨mem_singleton_self e, fun x hx => ?_⟩ <;> rw [mem_singleton.mp hx]

theorem Inv.reports (h : Inv c log) : Reports c log where
  count := h.count
  total := h.total
  least hc t ht := by
    obtain ⟨hleast, -⟩ := h.extremes hc (ne_nil_of_mem ht.1)
    exact hleast.unique ht
  most hc t ht := by
    obtain ⟨-, hmost⟩ := h.extremes hc (ne_nil_of_mem ht.1)
    exact hmost.unique ht

theorem Inv.record (h : Inv c log) (hc : c.type = .elapsed) (hroom : log.events + 1 < 2 ^ 64) {elapsed : Int}
    (h0 : 0 ≤ elapsed) (ht : log.Takes elapsed.toNat) :
    Inv (perfSetElapsed elapsed c) (log.record elapsed.toNat) := by
  obtain ⟨hlt, hsum, hzero⟩ := ht
  have htotal := h.total hc
  have hcount := h.count
  unfold perfSetElapsed
  rw [if_pos ⟨hc, h0⟩, Nat.mod_eq_of_lt hlt]
  refine ⟨?_, fun _ => ?_, fun _ => ⟨rfl, by simp [Log.record]⟩, fun _ hnil => (nomatch hnil), fun _ _ => ?_,
    fun hi => (nomatch hc.symm.trans hi)⟩
  · show (c.eventCount + 1) % 2 ^ 64 = log.events + 1
    rw [hcount, Nat.mod_eq_of_lt hroom]
  · show (c.timeTotal + elapsed.toNat) % 2 ^ 64 = (elapsed.toNat :: log.values).sum
    rw [htotal, Nat.mod_eq_of_lt hsum, sum_cons, Nat.add_comm]
  · dsimp only [Log.record]
    by_cases hnil : log.values = []
    · obtain ⟨hleast, hmost⟩ := h.empty hc hnil
      rw [hnil, hleast, hmost, if_pos (.inr rfl)]
      have hsame : (if 0 < elapsed.toNat then elapsed.toNat else 0) = elapsed.toNat := by
        split <;> omega
      rw [hsame]
      exact extremes_singleton _
    · have hold := h.extremes (by rw [hc]; decide) hnil
      have hsame : (if c.timeLeast > elapsed.toNat ∨ c.timeLeast = 0 then elapsed.toNat else c.timeLeast) =
          if elapsed.toNat < c.timeLeast then elapsed.toNat else c.timeLeast := by
        -- a least time of 0 is in the list, so this one is 0 too
        have hmem : c.timeLeast = 0 → elapsed.toNat = 0 := fun he => hzero (he ▸ hold.1.1)
        split <;> split <;> omega
      rw [hsame]
      exact extremes_cons hold

theorem Inv.event (h : Inv c log) (hc : c.type = .interval) (hroom : log.events + 1 < 2 ^ 64) {now : Nat}
    (hl : log.Later now) : Inv (perfCountInterval now c) (log.event now) := by
  obtain ⟨hnow, hlater⟩ := hl
  have hcount := h.count
  have hne : c.type ≠ .elapsed := by rw [hc]; decide
  unfold perfCountInterval Log.event
  rw [if_pos hc]
  rcases h.last hc with ⟨hlast, hevents, hnil⟩ | ⟨hlast, hevents⟩
  · have h0 : c.eventCount = 0 := hcount.trans hevents
    simp only [h0, hlast, hevents, hnil]
    exact ⟨rfl, fun he => absurd he hne, fun he => absurd he hne, fun he => absurd he hne,
      fun _ hvalues => absurd rfl hvalues, fun _ => .inr ⟨rfl, .inl ⟨rfl, rfl⟩⟩⟩
  · obtain ⟨hle, hlt⟩ := hlater _ hlast
    have hinterval : elapsedTime now c.timeLast % 2 ^ 32 = now - c.timeLast := by
      rw [elapsedTime_eq hle hnow, Nat.mod_eq_of_lt hlt]
    have hvalues : (log.last.map fun last => now - last).toList ++ log.values =
        (now - c.timeLast) :: log.values := by
      rw [hlast]
      rfl
    simp only [hinterval, hvalues]
    rcases hevents with ⟨hone, hnil⟩ | ⟨htwo, hsome⟩
    · have h1 : c.eventCount = 1 := hcount.trans hone
      simp only [h1, hone, hnil]
      exact ⟨rfl, fun he => absurd he hne, fun he => absurd he hne, fun he => absurd he hne,
        fun _ _ => extremes_singleton _, fun _ => .inr ⟨rfl, .inr ⟨Nat.le_refl 2, by simp⟩⟩⟩
    · obtain ⟨n, hn⟩ : ∃ n, c.eventCount = n + 2 := ⟨c.eventCount - 2, by omega⟩
      have hold := h.extremes (by rw [hc]; decide) hsome
      simp only [hn]
      refine ⟨?_, fun he => absurd he hne, fun he => absurd he hne, fun he => absurd he hne,
        fun _ _ => extremes_cons hold, fun _ => .inr ⟨rfl, .inr ⟨?_, by simp⟩⟩⟩
      · show (n + 2 + 1) % 2 ^ 64 = log.events + 1
        omega
      · show 2 ≤ log.events + 1
        omega

theorem type_countInterval (now : Nat) (c : Counter) : (perfCountInterval now c).type = c.type := by
  unfold perfCountInterval
  split
  · dsimp only
    split <;> rfl
  · rfl

theorem type_setElapsed (elapsed : Int) (c : Counter) : (perfSetElapsed elapsed c).type = c.type := by
  unfold perfSetElapsed
  split <;> rfl

theorem type_step (op : Op) (c : Counter) : (step c op).type = c.type := by
  cases op with
  | count now =>
    unfold step perfCount
    dsimp only
    split
    · rfl
    · exact type_countInterval now c
    · rfl
  | «begin» now =>
    unfold step perfBegin
    dsimp only
    split <;> rfl
  | stop now =>
    unfold step perfEnd
    dsimp only
    split
    · exact type_setElapsed _ c
    · rfl
  | setElapsed elapsed => exact type_setElapsed elapsed c
  | countInterval now => exact type_countInterval now c
  | cancel =>
    unfold step perfCancel
    dsimp only
    split <;> rfl
  | reset =>
    unfold step perfReset
    dsimp only
    split <;> rfl

theorem inv_reset (c : Counter) : Inv (perfReset c) .empty := by
  unfold perfReset Log.empty
  cases hc : c.type <;>
    exact ⟨rfl, fun he => by simp_all, fun he => by simp_all, fun he => by simp_all, fun _ hv => absurd rfl hv,
      fun _ => .inl ⟨rfl, rfl, rfl⟩⟩

/-- **A call within the limits is counted.** -/
theorem Inv.step (h : Inv c log) (hc : c.type = type) {op : Op} (hop : op.Within type log) :
    Inv (step c op) (log.step type op) := by
  subst hc
  obtain ⟨hroom, hop⟩ := hop
  have hcount := h.count
  cases op with
  | reset => exact inv_reset c
  | count now =>
    cases hc : c.type with simp only [Perf.step, Log.step, perfCount, hc]
    | count =>
      refine ⟨?_, fun he => ?_, fun he => ?_, fun he => ?_, fun hn => ?_, fun hi => ?_⟩
      · show (c.eventCount + 1) % 2 ^ 64 = log.events + 1
        rw [hcount, Nat.mod_eq_of_lt hroom]
      · exact CounterType.noConfusion he
      · exact CounterType.noConfusion he
      · exact CounterType.noConfusion he
      · exact absurd rfl hn
      · exact CounterType.noConfusion hi
    | elapsed =>
      exact h
    | interval =>
      exact h.event hc hroom (hop hc)
  | countInterval now =>
    simp only [Perf.step, Log.step]
    by_cases hc : c.type = .interval
    · rw [if_pos hc]
      exact h.event hc hroom (hop hc)
    · rw [if_neg hc, perfCountInterval, if_neg hc]
      exact h
  | «begin» now =>
    simp only [Perf.step, Log.step, perfBegin]
    by_cases hc : c.type = .elapsed
    · rw [if_pos hc, if_pos hc]
      exact ⟨h.count, h.total, fun _ => ⟨rfl, fun he => hop hc (Option.some.inj he)⟩, h.empty, h.extremes, h.last⟩
    · rw [if_neg hc, if_neg hc]
      exact h
  | stop now =>
    simp only [Perf.step, Log.step, perfEnd]
    by_cases hc : c.type = .elapsed
    · obtain ⟨hstart, hne⟩ := h.start hc
      cases hs : log.start with
      | none =>
        rw [hs] at hstart
        rw [if_neg (by simp [hstart])]
        exact h
      | some start =>
        obtain ⟨hle, hlt, htakes⟩ := hop hc start hs
        rw [hs] at hstart hne
        have hsome : c.timeStart = start := hstart
        have hnot : c.timeStart ≠ 0 := fun he => hne (by rw [← hsome, he])
        have htime : (elapsedTime now c.timeStart : Int).bmod (2 ^ 64) = (now - start : Nat) := by
          rw [hsome, elapsedTime_eq hle hlt]
          have := htakes.1
          rw [Int.bmod_eq_of_le] <;> omega
        rw [if_pos ⟨hc, hnot⟩, htime]
        simp only [hc, if_true]
        have hrec := h.record hc hroom (Int.natCast_nonneg (now - start)) htakes
        exact hrec
    · rw [if_neg fun he => hc he.1]
      have hsame : (match log.start with
          | some start => if c.type = .elapsed then log.record (now - start) else log
          | none => log) = log := by
        split
        · exact if_neg hc
        · rfl
      rw [hsame]
      exact h
  | setElapsed elapsed =>
    simp only [Perf.step, Log.step]
    by_cases hc : c.type = .elapsed ∧ 0 ≤ elapsed
    · rw [if_pos hc]
      exact h.record hc.1 hroom hc.2 (hop hc.1 hc.2)
    · rw [if_neg hc, perfSetElapsed, if_neg hc]
      exact h
  | cancel =>
    simp only [Perf.step, Log.step, perfCancel]
    by_cases hc : c.type = .elapsed
    · rw [if_pos hc, if_pos hc]
      exact ⟨h.count, h.total, fun _ => ⟨rfl, nofun⟩, h.empty, h.extremes, h.last⟩
    · rw [if_neg hc, if_neg hc]
      exact h

theorem Inv.run : ∀ (ops : List Op) {c : Counter} {log : Log}, Inv c log → c.type = type → Within type log ops →
    Inv (ops.foldl Perf.step c) (ops.foldl (Log.step type) log)
  | [], _, _, h, _, _ => h
  | op :: ops, _, _, h, hc, hops =>
    Inv.run ops (h.step hc hops.1) ((type_step op _).trans hc) hops.2

theorem inv_alloc {mem : Counter} (h : Clean type mem) : Inv (perfAlloc type mem) .empty where
  count := h.1
  total he := (h.2 he).2.1
  start he := ⟨(h.2 he).1, nofun⟩
  empty he _ := (h.2 he).2.2
  extremes _ hv := absurd rfl hv
  last _ := .inl ⟨rfl, rfl, rfl⟩

/-- **A counter reports exact counts and extremes** while its memory was cleared, or it has been reset; no positive
time is recorded after a time of 0; nothing begins at time 0; and neither the number of events nor the sum of the times
is too large for its field. -/
theorem perf_counter_reports (type : CounterType) (mem : Counter) (ops : List Op)
    (hstart : Clean type mem ∨ ops.head? = some .reset) (hops : Within type .empty ops) :
    Reports (ops.foldl Perf.step (perfAlloc type mem)) (ops.foldl (Log.step type) .empty) := by
  rcases hstart with hclean | hreset
  · exact ((inv_alloc hclean).run ops rfl hops).reports
  · cases ops with
    | nil => cases hreset
    | cons op ops =>
      obtain rfl : op = .reset := Option.some.inj hreset
      exact ((inv_reset _).run ops (type_step .reset (perfAlloc type mem)) hops.2).reports

/-- A counter whose memory held something, and which has been reset. -/
theorem perf_counter_reports_reset : Reports
    ([Op.reset, .begin 100, .stop 105].foldl Perf.step (perfAlloc .elapsed ⟨.count, 7, 7, 7, 7, 7, 7⟩))
    ([Op.reset, .begin 100, .stop 105].foldl (Log.step .elapsed) .empty) :=
  perf_counter_reports .elapsed _ _ (.inr rfl) (by simp [Within, Op.Within, Log.step, Log.empty, Log.Takes])

/-- A new counter whose memory held a 7; a time of 5 after one of 0; a time that begins at 0. -/
theorem not_perf_counter_reports :
    ¬Reports ([Op.count 1].foldl Perf.step (perfAlloc .count ⟨.count, 7, 0, 0, 0, 0, 0⟩))
        ([Op.count 1].foldl (Log.step .count) .empty) ∧
      ¬Reports ([Op.setElapsed 0, .setElapsed 5].foldl Perf.step (perfAlloc .elapsed ⟨.count, 0, 0, 0, 0, 0, 0⟩))
        ([Op.setElapsed 0, .setElapsed 5].foldl (Log.step .elapsed) .empty) ∧
      ¬Reports ([Op.begin 0, .stop 5].foldl Perf.step (perfAlloc .elapsed ⟨.count, 0, 0, 0, 0, 0, 0⟩))
        ([Op.begin 0, .stop 5].foldl (Log.step .elapsed) .empty) := by
  refine ⟨fun h => absurd h.count (by decide), fun h => ?_, fun h => absurd h.count (by decide)⟩
  have hleast := h.least (by decide) 0 ⟨by decide, fun x _ => Nat.zero_le x⟩
  exact absurd hleast (by decide)

end Gpmx.Perf
