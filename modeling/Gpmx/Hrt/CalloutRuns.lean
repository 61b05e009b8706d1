import Gpmx.Infra.Runs
import Gpmx.Hrt.Callout

/-!
# The callout queue over whole runs

Any sequence of calls of the interface and of turns of `hrt_call_invoke`; the calls between the
two halves of a turn are those the callout makes. `armed` records what the callers asked for: an
entry is armed by `hrt_call_after`, `hrt_call_at` and `hrt_call_every`, until it is cancelled or
called as a one-shot.

The queue is kept in order and in step with `armed` while three things do not happen
(`Within`): arming a queued entry whose deadline is 0, moving the deadline of a queued entry past
its neighbours with `hrt_call_delay`, and returning from a callout whose entry has a period and
is queued again.
-/

namespace Gpmx.Hrt

open Queue Infra Callouts Function Option List

/-- The callouts, the one that is running, and which entries are armed. -/
structure Sys where
  callouts : Callouts
  firing : Option Firing
  armed : Entry → Bool

inductive Op where
  | callAfter (now : Nat) (entry : Entry) (delay : Nat) (callout : Option Nat) (arg : Nat)
  | callAt (entry : Entry) (calltime : Nat) (callout : Option Nat) (arg : Nat)
  | callEvery (now : Nat) (entry : Entry) (delay interval : Nat) (callout : Option Nat) (arg : Nat)
  | cancel (entry : Entry)
  | callDelay (now : Nat) (entry : Entry) (delay : Nat)
  /-- A turn of `hrt_call_invoke` up to its callout. -/
  | invoke (now : Nat)
  /-- The callout returns. -/
  | ret

/-- A call has armed `entry`. -/
def Sys.arm (s : Sys) (entry : Entry) (callouts : Callouts) : Sys :=
  { s with callouts, armed := update s.armed entry true }

/-- `f` has been taken out of the queue; a one-shot is not armed any more. -/
def Sys.fire (s : Sys) (callouts : Callouts) (f : Firing) : Sys :=
  { callouts
    firing := some f
    armed := if callouts.period f.call = 0 then update s.armed f.call false else s.armed }

/-- One operation, with `fuel` turns for each loop through the queue. -/
def Sys.step (s : Sys) : Nat × Op → Option Sys
  | (fuel, .callAfter now entry delay callout arg) =>
    (s.callouts.hrtCallAfter fuel now entry delay callout arg).map (s.arm entry)
  | (fuel, .callAt entry calltime callout arg) =>
    (s.callouts.hrtCallAt fuel entry calltime callout arg).map (s.arm entry)
  | (fuel, .callEvery now entry delay interval callout arg) =>
    (s.callouts.hrtCallEvery fuel now entry delay interval callout arg).map (s.arm entry)
  | (fuel, .cancel entry) =>
    (s.callouts.hrtCancel fuel entry).map fun callouts =>
      { s with callouts, armed := update s.armed entry false }
  | (_, .callDelay now entry delay) =>
    some { s with callouts := s.callouts.hrtCallDelay now entry delay }
  | (fuel, .invoke now) =>
    match s.firing with
    | some _ => none
    | none => (s.callouts.invokePop fuel now).map fun r =>
        match r.2 with
        | none => s
        | some f => s.fire r.1 f
  | (fuel, .ret) =>
    match s.firing with
    | none => none
    | some f => (s.callouts.invokeReturn fuel f).map fun callouts =>
        { s with callouts, firing := none }

/-- After `hrt_init`, with whatever the memory of the entries holds. -/
def Sys.start (deadline period : Entry → Nat) (flink : Entry → Option Entry) : Sys :=
  { callouts :=
      { queue := { head := none, tail := none, flink }
        deadline, period, callout := fun _ => none, arg := fun _ => 0 }
    firing := none
    armed := fun _ => false }

/-! ## The condition on a step -/

def Sys.Queued (s : Sys) (entry : Entry) : Prop :=
  ∃ L, s.callouts.queue.Holds L ∧ entry ∈ L

def Op.arms : Op → Option Entry
  | .callAfter _ entry _ _ _ => some entry
  | .callAt entry _ _ _ => some entry
  | .callEvery _ entry _ _ _ _ => some entry
  | _ => none

/-- A deadline that `entry` may take at its place in the queue. -/
def Sys.Fits (s : Sys) (entry : Entry) (deadline : Nat) : Prop :=
  ∀ M N, s.callouts.queue.Holds (M ++ entry :: N) →
    (∀ a ∈ M, s.callouts.deadline a ≤ deadline) ∧ ∀ b ∈ N, deadline ≤ s.callouts.deadline b

structure Within (s : Sys) (op : Nat × Op) : Prop where
  arms : ∀ entry, op.2.arms = some entry → s.callouts.deadline entry = 0 → ¬s.Queued entry
  delay : ∀ now entry delay, op.2 = .callDelay now entry delay → s.Fits entry (absTime (now + delay))
  ret : ∀ f, op.2 = .ret → s.firing = some f → s.callouts.period f.call ≠ 0 → ¬s.Queued f.call

/-! ## The invariant -/

/-- The queue is the list `L`, in order, of the armed entries that are not just being called. -/
structure Ordered (s : Sys) (L : List Entry) : Prop where
  holds : s.callouts.queue.Holds L
  order : InOrder s.callouts.deadline L
  armed : ∀ e ∈ L, s.armed e = true
  queued : ∀ e, s.armed e = true →
    e ∈ L ∨ ∃ f, s.firing = some f ∧ f.call = e ∧ s.callouts.period e ≠ 0
  firing : ∀ f, s.firing = some f → s.callouts.period f.call ≠ 0 → s.armed f.call = true

variable {s s' : Sys} {L : List Entry} {entry : Entry}

theorem Ordered.queued_iff (h : Ordered s L) : s.Queued entry ↔ entry ∈ L := by
  constructor
  · rintro ⟨M, hM, hmem⟩
    rw [h.holds.chain.unique hM.chain]
    exact hmem
  · intro hmem
    exact ⟨L, h.holds, hmem⟩

theorem InOrder.update {deadline : Entry → Nat} {t : Nat} (h : InOrder deadline L)
    (hn : entry ∉ L) : InOrder (update deadline entry t) L := by
  refine h.congr fun a ha => update_of_ne ?_ _ _
  rintro rfl
  exact hn ha

section

variable (h : Ordered s L)
include h

theorem Ordered.unlinkQueued (fuel : Nat) (hq : s.callouts.deadline entry = 0 → entry ∉ L) :
    (s.callouts.unlinkQueued fuel entry = none ∧ fuel ≤ L.length) ∨
    ∃ q', s.callouts.unlinkQueued fuel entry = some q' ∧ q'.Holds (L.erase entry) := by
  unfold Callouts.unlinkQueued
  by_cases hd : s.callouts.deadline entry = 0
  · rw [if_neg (not_not_intro hd), erase_of_not_mem (hq hd)]
    exact .inr ⟨_, rfl, h.holds⟩
  · rw [if_pos hd]
    exact rem_holds fuel entry h.holds

theorem Ordered.hrtCallInternal (deadline interval : Nat) (callout : Option Nat)
    (arg fuel : Nat) (hq : s.callouts.deadline entry = 0 → entry ∉ L) :
    (s.callouts.hrtCallInternal fuel entry deadline interval callout arg = none ∧ fuel ≤ L.length) ∨
    ∃ c L', s.callouts.hrtCallInternal fuel entry deadline interval callout arg = some c ∧
      Ordered (s.arm entry c) L' := by
  have hnot : entry ∉ L.erase entry := h.holds.nodup.not_mem_erase
  have herase : ∀ e, e ≠ entry → (e ∈ L.erase entry ↔ e ∈ L) := fun e he => mem_erase_of_ne he
  unfold Callouts.hrtCallInternal
  rcases h.unlinkQueued fuel hq with ⟨hnone, hle⟩ | ⟨q', hsome, hq'⟩
  · rw [hnone]
    exact .inl ⟨rfl, hle⟩
  rw [hsome, bind_eq_bind, bind_some]
  have hassign : (s.callouts.assign entry deadline interval callout arg q').queue.Holds
    (L.erase entry) := hq'
  rcases hrtCallEnter_holds fuel hassign hnot with ⟨hnone, hle⟩ | ⟨q'', henter, hq''⟩
  · exact .inl ⟨hnone, hle.trans length_erase_le⟩
  refine .inr ⟨_, _, henter, hq'', ?_, ?_, ?_, ?_⟩
  · have hsub : InOrder s.callouts.deadline (L.erase entry) := h.order.sublist erase_sublist
    exact InOrder.inserted (hsub.update hnot)
  · intro e he
    show update s.armed entry true e = true
    by_cases hee : e = entry
    · rw [hee, update_self]
    · rw [update_of_ne hee]
      rcases mem_inserted.mp he with rfl | he
      · exact absurd rfl hee
      · exact h.armed e ((herase e hee).mp he)
  · intro e he
    by_cases hee : e = entry
    · exact .inl (mem_inserted.mpr (.inl hee))
    · have he : update s.armed entry true e = true := he
      rw [update_of_ne hee] at he
      rcases h.queued e he with hmem | ⟨f, hf, hcall, hp⟩
      · exact .inl (mem_inserted.mpr (.inr ((herase e hee).mpr hmem)))
      · refine .inr ⟨f, hf, hcall, ?_⟩
        show update s.callouts.period entry interval e ≠ 0
        rw [update_of_ne hee]
        exact hp
  · intro f hf hp
    show update s.armed entry true f.call = true
    by_cases hee : f.call = entry
    · rw [hee, update_self]
    · have hp : update s.callouts.period entry interval f.call ≠ 0 := hp
      rw [update_of_ne hee] at hp ⊢
      exact h.firing f hf hp

theorem Ordered.hrtCancel (fuel : Nat) :
    (s.callouts.hrtCancel fuel entry = none ∧ fuel ≤ L.length) ∨
    ∃ c L', s.callouts.hrtCancel fuel entry = some c ∧
      Ordered { s with callouts := c, armed := update s.armed entry false } L' := by
  have hnot : entry ∉ L.erase entry := h.holds.nodup.not_mem_erase
  unfold Callouts.hrtCancel
  rcases rem_holds fuel entry h.holds with ⟨hnone, hle⟩ | ⟨q', hsome, hq'⟩
  · rw [hnone]
    exact .inl ⟨rfl, hle⟩
  rw [hsome, bind_eq_bind, bind_some]
  refine .inr ⟨_, L.erase entry, rfl, hq', ?_, ?_, ?_, ?_⟩
  · have hsub : InOrder s.callouts.deadline (L.erase entry) := h.order.sublist erase_sublist
    exact hsub.update hnot
  · intro e he
    have hee : e ≠ entry := by
      rintro rfl
      exact hnot he
    show update s.armed entry false e = true
    rw [update_of_ne hee]
    exact h.armed e (mem_of_mem_erase he)
  · intro e he
    have he : update s.armed entry false e = true := he
    by_cases hee : e = entry
    · rw [hee, update_self] at he
      cases he
    · rw [update_of_ne hee] at he
      rcases h.queued e he with hmem | ⟨f, hf, hcall, hp⟩
      · exact .inl ((mem_erase_of_ne hee).mpr hmem)
      · refine .inr ⟨f, hf, hcall, ?_⟩
        show update s.callouts.period entry 0 e ≠ 0
        rw [update_of_ne hee]
        exact hp
  · intro f hf hp
    have hp : update s.callouts.period entry 0 f.call ≠ 0 := hp
    show update s.armed entry false f.call = true
    by_cases hee : f.call = entry
    · rw [hee, update_self] at hp
      exact absurd rfl hp
    · rw [update_of_ne hee] at hp ⊢
      exact h.firing f hf hp

theorem Ordered.hrtCallDelay {now delay : Nat} (hfits : s.Fits entry (absTime (now + delay))) :
    Ordered { s with callouts := s.callouts.hrtCallDelay now entry delay } L := by
  refine ⟨h.holds, ?_, h.armed, h.queued, h.firing⟩
  show InOrder (update s.callouts.deadline entry (absTime (now + delay))) L
  by_cases hmem : entry ∈ L
  · obtain ⟨M, N, rfl⟩ := append_of_mem hmem
    obtain ⟨hM, hN⟩ := hfits M N h.holds
    have hnd := h.holds.nodup
    have horder := h.order
    unfold InOrder at horder ⊢
    rw [nodup_append, nodup_cons] at hnd
    rw [pairwise_append, pairwise_cons] at horder ⊢
    obtain ⟨oM, ⟨-, oN⟩, oMN⟩ := horder
    have hnM : ∀ a ∈ M, a ≠ entry := fun a ha => hnd.2.2 a ha entry mem_cons_self
    have hnN : ∀ b ∈ N, b ≠ entry := fun b hb he => hnd.2.1.1 (he ▸ hb)
    refine ⟨?_, ⟨?_, ?_⟩, ?_⟩
    · refine InOrder.update oM ?_
      exact fun he => hnM entry he rfl
    · intro b hb
      rw [update_self, update_of_ne (hnN b hb)]
      exact hN b hb
    · exact InOrder.update oN hnd.2.1.1
    · intro a ha b hb
      rw [update_of_ne (hnM a ha)]
      rcases mem_cons.mp hb with rfl | hb
      · rw [update_self]
        exact hM a ha
      · rw [update_of_ne (hnN b hb)]
        exact oMN a ha b (mem_cons_of_mem _ hb)
  · exact h.order.update hmem

theorem Ordered.invokePop (hidle : s.firing = none) (fuel now : Nat) :
    s.callouts.invokePop fuel now = some (s.callouts, none) ∨
    (s.callouts.invokePop fuel now = none ∧ fuel ≤ L.length) ∨
    ∃ c f L', s.callouts.invokePop fuel now = some (c, some f) ∧ Ordered (s.fire c f) L' := by
  unfold Callouts.invokePop
  rw [h.holds.head]
  cases L with
  | nil => exact .inl rfl
  | cons call L =>
    dsimp only [head?_cons]
    by_cases hlate : s.callouts.deadline call > now
    · rw [if_pos hlate]
      exact .inl rfl
    rw [if_neg hlate]
    rcases rem_holds fuel call h.holds with ⟨hnone, hle⟩ | ⟨q', hsome, hq'⟩
    · rw [hnone]
      exact .inr (.inl ⟨rfl, hle⟩)
    rw [erase_cons_head] at hq'
    obtain ⟨-, horder⟩ := pairwise_cons.mp h.order
    obtain ⟨hnot, -⟩ := nodup_cons.mp h.holds.nodup
    rw [hsome, bind_eq_bind, bind_some]
    refine .inr (.inr ⟨_, _, L, rfl, hq', InOrder.update horder hnot, ?_, ?_, ?_⟩)
    · intro e he
      have hee : e ≠ call := by
        rintro rfl
        exact hnot he
      have harmed := h.armed e (mem_cons_of_mem _ he)
      simp only [Sys.fire]
      split
      · rw [update_of_ne hee]
        exact harmed
      · exact harmed
    · intro e he
      simp only [Sys.fire] at he ⊢
      by_cases hee : e = call
      · subst hee
        refine .inr ⟨_, rfl, rfl, ?_⟩
        intro hp
        rw [if_pos hp, update_self] at he
        cases he
      · have harmed : s.armed e = true := by
          split at he
          · rwa [update_of_ne hee] at he
          · exact he
        rcases h.queued e harmed with hmem | ⟨f, hf, -⟩
        · rcases mem_cons.mp hmem with hmem | hmem
          · exact absurd hmem hee
          · exact .inl hmem
        · rw [hidle] at hf
          cases hf
    · intro f hf hp
      cases hf
      have hp : s.callouts.period call ≠ 0 := hp
      show (if s.callouts.period call = 0 then update s.armed call false else s.armed) call = true
      rw [if_neg hp]
      exact h.armed call mem_cons_self

theorem Ordered.invokeReturn {f : Firing} (hf : s.firing = some f) (fuel : Nat)
    (hq : s.callouts.period f.call ≠ 0 → f.call ∉ L) :
    (s.callouts.invokeReturn fuel f = none ∧ fuel ≤ L.length) ∨
    ∃ c L', s.callouts.invokeReturn fuel f = some c ∧
      Ordered { s with callouts := c, firing := none } L' := by
  have hcalling : ∀ g, s.firing = some g → g = f := by
    intro g hg
    exact some.inj (hg.symm.trans hf)
  unfold Callouts.invokeReturn
  by_cases hp : s.callouts.period f.call = 0
  · rw [if_neg (not_not_intro hp)]
    refine .inr ⟨_, L, rfl, h.holds, h.order, h.armed, ?_, by rintro _ ⟨⟩⟩
    intro e he
    rcases h.queued e he with hmem | ⟨g, hg, rfl, hpe⟩
    · exact .inl hmem
    · rw [hcalling g hg] at hpe
      exact absurd hp hpe
  have hnot := hq hp
  have harmed := h.firing f hf hp
  -- the two branches differ in the deadline of the entry, which is not in the list
  have key : ∀ c : Callouts, c.queue = s.callouts.queue → InOrder c.deadline L →
      (c.hrtCallEnter fuel f.call = none ∧ fuel ≤ L.length) ∨
      ∃ c' L', c.hrtCallEnter fuel f.call = some c' ∧
        Ordered { s with callouts := c', firing := none } L' := by
    intro c hcq hco
    have hholds : c.queue.Holds L := by
      rw [hcq]
      exact h.holds
    rcases hrtCallEnter_holds fuel hholds hnot with hnone | ⟨q', henter, hq'⟩
    · exact .inl hnone
    refine .inr ⟨_, _, henter, hq', hco.inserted, ?_, ?_, by rintro _ ⟨⟩⟩
    · intro e he
      rcases mem_inserted.mp he with rfl | he
      · exact harmed
      · exact h.armed e he
    · intro e he
      rcases h.queued e he with hmem | ⟨g, hg, rfl, -⟩
      · exact .inl (mem_inserted.mpr (.inr hmem))
      · rw [hcalling g hg]
        exact .inl (mem_inserted.mpr (.inl rfl))
  rw [if_pos hp]
  split
  · exact key _ rfl (h.order.update hnot)
  · exact key _ rfl h.order

end

/-! ## One step -/

/-- The operation can be made: a turn begins when no callout runs, and ends when one does. -/
def Sys.Enabled (s : Sys) : Op → Prop
  | .invoke _ => s.firing = none
  | .ret => s.firing ≠ none
  | _ => True

theorem Ordered.step (h : Ordered s L) {fuel : Nat} {op : Op} (hen : s.Enabled op)
    (hw : Within s (fuel, op)) :
    (s.step (fuel, op) = none ∧ fuel ≤ L.length) ∨
    ∃ s' L', s.step (fuel, op) = some s' ∧ Ordered s' L' := by
  have harms : ∀ entry, op.arms = some entry → s.callouts.deadline entry = 0 → entry ∉ L :=
    fun entry he hd hmem => hw.arms entry he hd (h.queued_iff.mpr hmem)
  have hmap : ∀ {r : Option Callouts} {g : Callouts → Sys},
      (r = none ∧ fuel ≤ L.length) ∨ (∃ c L', r = some c ∧ Ordered (g c) L') →
      (r.map g = none ∧ fuel ≤ L.length) ∨ ∃ s' L', r.map g = some s' ∧ Ordered s' L' := by
    rintro r g (⟨rfl, hle⟩ | ⟨c, L', rfl, hord⟩)
    · exact .inl ⟨rfl, hle⟩
    · exact .inr ⟨g c, L', rfl, hord⟩
  cases op with
  | callAfter now entry delay callout arg | callAt entry calltime callout arg
  | callEvery now entry delay interval callout arg =>
    exact hmap (h.hrtCallInternal _ _ callout arg fuel (harms entry rfl))
  | cancel entry => exact hmap (h.hrtCancel fuel)
  | callDelay now entry delay =>
    exact .inr ⟨_, L, rfl, h.hrtCallDelay (hw.delay now entry delay rfl)⟩
  | invoke now =>
    have hidle : s.firing = none := hen
    simp only [Sys.step, hidle]
    rcases h.invokePop hidle fuel now with hdone | ⟨hnone, hle⟩ | ⟨c, f, L', hpop, hord⟩
    · rw [hdone]
      exact .inr ⟨s, L, rfl, h⟩
    · rw [hnone]
      exact .inl ⟨rfl, hle⟩
    · rw [hpop]
      exact .inr ⟨_, L', rfl, hord⟩
  | ret =>
    obtain ⟨f, hf⟩ := ne_none_iff_exists'.mp hen
    have hq : s.callouts.period f.call ≠ 0 → f.call ∉ L :=
      fun hp hmem => hw.ret f rfl hf hp (h.queued_iff.mpr hmem)
    simp only [Sys.step, hf]
    exact hmap (h.invokeReturn hf fuel hq)

theorem enabled_of_step {fuel : Nat} {op : Op} (hs : s.step (fuel, op) = some s') :
    s.Enabled op := by
  cases op with
  | invoke now =>
    show s.firing = none
    cases hf : s.firing with
    | none => rfl
    | some f => simp [Sys.step, hf] at hs
  | ret =>
    intro hf
    simp [Sys.step, hf] at hs
  | _ => trivial

/-! ## Every run -/

theorem start_ordered (deadline period : Entry → Nat) (flink : Entry → Option Entry) :
    Ordered (Sys.start deadline period flink) [] := by
  refine ⟨⟨rfl, rfl⟩, List.Pairwise.nil, ?_, ?_, ?_⟩
  · intro e he
    cases he
  · rintro e ⟨⟩
  · rintro f ⟨⟩

theorem reaches_ordered {deadline period : Entry → Nat} {flink : Entry → Option Entry}
    (h : Reaches Sys.step Within (Sys.start deadline period flink) s) : ∃ L, Ordered s L := by
  refine h.invariant (P := fun s => ∃ L, Ordered s L) ⟨[], start_ordered _ _ _⟩ ?_
  rintro s ⟨fuel, op⟩ s' ⟨L, hL⟩ hw hs
  rcases hL.step (enabled_of_step hs) hw with ⟨hnone, -⟩ | ⟨s1, L', hs1, hL'⟩
  · rw [hnone] at hs
    cases hs
  · rw [hs1] at hs
    cases hs
    exact ⟨L', hL'⟩

/--
**While every step is within the limits, the callout queue is a list without repetition, in the
order of the deadlines, of the armed entries.** Only the periodic entry whose callout is running
is armed and not queued. And no operation gets lost in the queue: some number of turns is always
enough.
-/
theorem callout_queue_ordered {deadline period : Entry → Nat} {flink : Entry → Option Entry}
    (h : Reaches Sys.step Within (Sys.start deadline period flink) s) :
    (∃ L, s.callouts.queue.Holds L ∧ L.Nodup ∧ InOrder s.callouts.deadline L ∧
      (∀ e ∈ L, s.armed e = true) ∧
      (∀ e, s.armed e = true →
        e ∈ L ∨ ∃ f, s.firing = some f ∧ f.call = e ∧ s.callouts.period e ≠ 0) ∧
      (s.firing = none → ∀ e, e ∈ L ↔ s.armed e = true)) ∧
    ∀ op, s.Enabled op → ∃ enough, ∀ fuel, enough ≤ fuel → Within s (fuel, op) →
      ∃ s', s.step (fuel, op) = some s' := by
  obtain ⟨L, hL⟩ := reaches_ordered h
  refine ⟨⟨L, hL.holds, hL.holds.nodup, hL.order, hL.armed, hL.queued, ?_⟩, ?_⟩
  · intro hidle e
    refine ⟨hL.armed e, fun he => ?_⟩
    rcases hL.queued e he with hmem | ⟨f, hf, -⟩
    · exact hmem
    · rw [hidle] at hf
      cases hf
  · intro op hen
    refine ⟨L.length + 1, fun fuel hfuel hw => ?_⟩
    rcases hL.step hen hw with ⟨-, hle⟩ | ⟨s', L', hs, -⟩
    · omega
    · exact ⟨s', hs⟩

/-- Memory that `hrt_call_init` has cleared. -/
def idle : Sys := Sys.start (fun _ => 0) (fun _ => 0) fun _ => none

theorem not_queued_idle : ¬idle.Queued entry := fun h =>
  not_mem_nil ((start_ordered _ _ _).queued_iff.mp h)

/-- One entry is armed for time 100. -/
theorem callout_queue_ordered_one : ∃ s, idle.step (1, .callAt 1 100 none 0) = some s ∧
    ∃ L, s.callouts.queue.Holds L ∧ (1 ∈ L ↔ s.armed 1 = true) := by
  have hw : Within idle (1, .callAt 1 100 none 0) :=
    ⟨fun _ _ _ => not_queued_idle, by rintro _ _ _ ⟨⟩, by rintro _ ⟨⟩⟩
  obtain ⟨s, hs⟩ : ∃ s, idle.step (1, .callAt 1 100 none 0) = some s := ⟨_, rfl⟩
  have hidle : s.firing = none := by
    obtain rfl := some.inj hs
    rfl
  obtain ⟨⟨L, hL, -, -, -, -, hiff⟩, -⟩ := callout_queue_ordered (Reaches.tail .refl hw hs)
  exact ⟨s, hs, L, hL, hiff hidle 1⟩

/-! ## What happens beyond the limits -/

/-- A callout calls `hrt_call_every` on its own entry, and returns. -/
def rearmedInCallout : List (Nat × Op) :=
  [(9, .callEvery 0 1 100 1000 none 0), (9, .invoke 100), (9, .callEvery 100 1 100 1000 none 0),
    (9, .ret)]

def delayedInQueue : List (Nat × Op) :=
  [(9, .callAt 1 100 none 0), (9, .callAt 2 200 none 0), (9, .callDelay 0 1 1000)]

def armedForZero : List (Nat × Op) :=
  [(9, .callAt 1 0 none 0), (9, .callAt 1 50 none 0)]

theorem not_holds_of_loop {q : Sq Entry} (hhead : q.head = some entry)
    (hloop : q.flink entry = some entry) : ¬q.Holds L := by
  intro h
  have hchain := h.chain
  rw [hhead] at hchain
  exact Seg.not_of_loop hloop hchain

/--
Beyond the limits the queue breaks. An entry that its own callout arms with a period is put in
twice and points to itself; so does one that is armed again after it was armed for time 0; and
a delayed entry stays before one that is due earlier.
-/
theorem callout_queue_broken :
    (∃ s, Reaches Sys.step Always idle s ∧ s.firing = none ∧ ∀ L, ¬s.callouts.queue.Holds L) ∧
    (∃ s, Reaches Sys.step Always idle s ∧
      ∃ L, s.callouts.queue.Holds L ∧ ¬InOrder s.callouts.deadline L) ∧
    ∃ s, Reaches Sys.step Always idle s ∧ s.firing = none ∧ ∀ L, ¬s.callouts.queue.Holds L := by
  refine ⟨?_, ?_, ?_⟩
  · obtain ⟨s, hs, hf, hhead, hloop⟩ : ∃ s, rearmedInCallout.foldlM Sys.step idle = some s ∧
        s.firing = none ∧ s.callouts.queue.head = some 1 ∧ s.callouts.queue.flink 1 = some 1 :=
      ⟨_, rfl, rfl, rfl, rfl⟩
    exact ⟨s, .of_foldlM _ hs, hf, fun L => not_holds_of_loop hhead hloop⟩
  · obtain ⟨s, hs, hq, hd⟩ : ∃ s, delayedInQueue.foldlM Sys.step idle = some s ∧
        s.callouts.queue.Holds [1, 2] ∧ s.callouts.deadline 2 < s.callouts.deadline 1 :=
      ⟨_, rfl, ⟨⟨rfl, rfl, rfl⟩, rfl⟩, by decide⟩
    refine ⟨s, .of_foldlM _ hs, [1, 2], hq, ?_⟩
    intro horder
    have hle := (pairwise_cons.mp horder).1 2 mem_cons_self
    omega
  · obtain ⟨s, hs, hf, hhead, hloop⟩ : ∃ s, armedForZero.foldlM Sys.step idle = some s ∧
        s.firing = none ∧ s.callouts.queue.head = some 1 ∧ s.callouts.queue.flink 1 = some 1 :=
      ⟨_, rfl, rfl, rfl, rfl⟩
    exact ⟨s, .of_foldlM _ hs, hf, fun L => not_holds_of_loop hhead hloop⟩

end Gpmx.Hrt
