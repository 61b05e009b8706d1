import Gpmx.Infra.Runs
import Mathlib

/-!
# Condition variables on FreeRTOS

`gpm/libs/libc/pthread/pthread_cond.c`. A thread that waits writes its handle into a free slot of
`wait_task`, releases the mutex and waits for its task notification. Who signals takes a handle out
of the slots and notifies the thread. A thread that has timed out takes its own handle out, but only
after it has got the mutex back. In between it can still be chosen, and then the signal is lost to the
others and the notification stays for its next wait.

The slots are read and written in critical sections, so each of these is one step, and so are the
notification of a thread and the end of its wait.

* `Sys.Within` — no signal goes to a thread that has timed out
* `Sys.Listed` — the slots hold the threads that wait and have not been notified
-/

namespace Gpmx.Pthread.Cond

open Infra Function

def ENOMEM : Int := 12
def ETIMEDOUT : Int := 116

/-- Where a thread stands in `pthread_cond_wait` and `pthread_cond_timedwait`. -/
inductive Phase where
  | idle
  /-- before `pthread_mutex_unlock` -/
  | registered (timed : Bool)
  /-- in `xTaskNotifyWait` -/
  | waiting (timed : Bool)
  /-- the wait is over; before the mutex is locked again and the slot is looked for -/
  | leaving (ret : Int)
  deriving DecidableEq

/-- The slots, the threads with their notifications, and what their waits have returned. -/
structure Sys (T : Type) where
  waitTask : List (Option T)
  threads : T → Phase
  notified : T → Bool
  results : T → List Int

inductive Action (T : Type) where
  /-- the call, up to the release of the mutex -/
  | wait (t : T) (timed : Bool)
  /-- `pthread_mutex_unlock` returns `ret` -/
  | unlock (t : T) (ret : Int)
  /-- `xTaskNotifyWait` finds a notification -/
  | takeNotification (t : T)
  /-- `xTaskNotifyWait` gives up -/
  | timeout (t : T)
  /-- the call, from the lock of the mutex to its end -/
  | leave (t : T)
  /-- `pthread_cond_signal`, with the priorities of the threads -/
  | signal (priority : T → Nat)
  | broadcast

variable {T : Type}

/-- After `pthread_cond_init`, with `wait_count` slots. -/
def start (waitCount : Nat) : Sys T :=
  { waitTask := List.replicate waitCount none, threads := fun _ => .idle, notified := fun _ => false,
    results := fun _ => [] }

def register (t : T) : List (Option T) → Option (List (Option T))
  | [] => none
  | none :: slots => some (some t :: slots)
  | some u :: slots => (register t slots).map (some u :: ·)

/-- The loop of `pthread_cond_signal`: the first thread of the highest priority, with its slot. -/
def chooseLoop (priority : T → Nat) :
    List (Option T) → Nat → Option (Nat × T) → Option (Nat × T)
  | [], _, best => best
  | none :: slots, i, best => chooseLoop priority slots (i + 1) best
  | some t :: slots, i, none => chooseLoop priority slots (i + 1) (some (i, t))
  | some t :: slots, i, some (j, u) =>
    chooseLoop priority slots (i + 1) (if priority u < priority t then some (i, t) else some (j, u))

namespace Sys

def choose (s : Sys T) (priority : T → Nat) : Option (Nat × T) :=
  chooseLoop priority s.waitTask 0 none

variable [DecidableEq T]

def goto (s : Sys T) (t : T) (phase : Phase) : Sys T :=
  { s with threads := update s.threads t phase }

def finish (s : Sys T) (t : T) (ret : Int) : Sys T :=
  { s.goto t .idle with results := update s.results t (s.results t ++ [ret]) }

def setNotified (s : Sys T) (t : T) (notified : Bool) : Sys T :=
  { s with notified := update s.notified t notified }

def wait (s : Sys T) (t : T) (timed : Bool) : Sys T :=
  match register t s.waitTask with
  | some waitTask => { s with waitTask }.goto t (.registered timed)
  | none => s.finish t ENOMEM

/-- The last loop of the call: its handle goes out of the slot it is still in. -/
def unregister (t : T) : List (Option T) → List (Option T)
  | [] => []
  | slot :: slots => if slot = some t then none :: slots else slot :: unregister t slots

def pthreadCondSignal (s : Sys T) (priority : T → Nat) : Sys T :=
  match s.choose priority with
  | some (i, t) => { s.setNotified t true with waitTask := s.waitTask.set i none }
  | none => s

def pthreadCondBroadcast (s : Sys T) : Sys T :=
  { s with
    waitTask := s.waitTask.map fun _ => none
    notified := fun t => s.notified t || s.waitTask.contains (some t) }

def step (s : Sys T) : Action T → Option (Sys T)
  | .wait t timed =>
    match s.threads t with
    | .idle => some (s.wait t timed)
    | _ => none
  | .unlock t ret =>
    match s.threads t with
    | .registered timed => some (if ret = 0 then s.goto t (.waiting timed) else s.finish t ret)
    | _ => none
  | .takeNotification t =>
    match s.threads t, s.notified t with
    | .waiting _, true => some ((s.setNotified t false).goto t (.leaving 0))
    | _, _ => none
  | .timeout t =>
    match s.threads t, s.notified t with
    | .waiting true, false => some (s.goto t (.leaving ETIMEDOUT))
    | _, _ => none
  | .leave t =>
    match s.threads t with
    | .leaving ret => some ({ s with waitTask := unregister t s.waitTask }.finish t ret)
    | _ => none
  | .signal priority => some (s.pthreadCondSignal priority)
  | .broadcast => some s.pthreadCondBroadcast

end Sys

/-! ## The slots -/

namespace Sys

/-- The thread is in its wait and has been neither notified nor timed out. -/
def Blocked (s : Sys T) (t : T) : Prop :=
  (∃ timed, s.threads t = .registered timed ∨ s.threads t = .waiting timed) ∧ s.notified t = false

def TimedOut (s : Sys T) (t : T) : Prop := s.threads t = .leaving ETIMEDOUT

/-- No signal goes to a thread that has timed out, and a thread that waits has locked the mutex. -/
def Within (s : Sys T) : Action T → Prop
  | .signal priority => ∀ i t, s.choose priority = some (i, t) → ¬s.TimedOut t
  | .broadcast => ∀ t, some t ∈ s.waitTask → ¬s.TimedOut t
  | .unlock _ ret => ret = 0
  | _ => True

def listed : Phase → Bool → Nat
  | .registered _, false | .waiting _, false => 1
  | .leaving ret, _ => if ret = ETIMEDOUT then 1 else 0
  | _, _ => 0

/-- What the phase of a thread says of its notification and of its result. -/
def Fits : Phase → Bool → Prop
  | .idle, notified => notified = false
  | .leaving ret, notified => notified = false ∧ (ret = 0 ∨ ret = ETIMEDOUT)
  | _, _ => True

structure Listed [DecidableEq T] (s : Sys T) : Prop where
  slots : ∀ t, s.waitTask.count (some t) = listed (s.threads t) (s.notified t)
  fits : ∀ t, Fits (s.threads t) (s.notified t)

end Sys

open Sys

variable {s s' : Sys T} {t u : T} {slots slots' : List (Option T)}

variable {priority : T → Nat} {i : Nat} {a : Action T} {m : Nat}

theorem chooseLoop_some {best : Option (Nat × T)} {j : Nat}
    (h : chooseLoop priority slots i best = some (j, t)) :
    best = some (j, t) ∨ i ≤ j ∧ slots[j - i]? = some (some t) := by
  induction slots generalizing i best with
  | nil => exact .inl h
  | cons slot slots ih =>
    -- the best so far is the old one or the slot at `i`
    have hstep : ∀ best', chooseLoop priority slots (i + 1) best' = some (j, t) →
        (best' = best ∨ ∃ v, slot = some v ∧ best' = some (i, v)) →
        best = some (j, t) ∨ i ≤ j ∧ (slot :: slots)[j - i]? = some (some t) := by
      intro best' hrest hbest
      rcases ih hrest with hfound | ⟨hle, hfound⟩
      · rcases hbest with rfl | ⟨v, rfl, rfl⟩
        · exact .inl hfound
        · cases hfound
          exact .inr ⟨Nat.le_refl _, by simp⟩
      · refine .inr ⟨by omega, ?_⟩
        rw [show j - i = j - (i + 1) + 1 by omega]
        exact hfound
    cases slot with
    | none => exact hstep _ h (.inl rfl)
    | some v =>
      cases best with
      | none => exact hstep _ h (.inr ⟨v, rfl, rfl⟩)
      | some b =>
        refine hstep _ h ?_
        split
        · exact .inr ⟨v, rfl, rfl⟩
        · exact .inl rfl

theorem chooseLoop_none {best : Option (Nat × T)} (h : chooseLoop priority slots i best = none) :
    best = none ∧ ∀ t, some t ∉ slots := by
  induction slots generalizing i best with
  | nil => exact ⟨h, by simp⟩
  | cons slot slots ih =>
    cases slot with
    | none =>
      obtain ⟨hbest, hnot⟩ := ih h
      exact ⟨hbest, by simpa using hnot⟩
    | some v =>
      cases best with
      | none => cases (ih h).1
      | some b =>
        have hbest := (ih h).1
        split at hbest <;> cases hbest

theorem Sys.Blocked.fits (hb : s.Blocked t) :
    listed (s.threads t) (s.notified t) = 1 ∧ listed (s.threads t) true = 0 ∧
      Fits (s.threads t) true := by
  obtain ⟨⟨timed, hphase | hphase⟩, hnotified⟩ := hb <;>
  · rw [hphase, hnotified]
    exact ⟨rfl, rfl, trivial⟩

variable [DecidableEq T]

theorem register_count (h : register t slots = some slots') (u : T) :
    slots'.count (some u) = slots.count (some u) + if u = t then 1 else 0 := by
  induction slots generalizing slots' with
  | nil => cases h
  | cons slot slots ih =>
    cases slot with
    | none =>
      cases h
      by_cases hu : u = t
      · simp [hu]
      · simp [hu, Ne.symm hu]
    | some v =>
      obtain ⟨rest, hrest, rfl⟩ := Option.map_eq_some_iff.mp h
      have hcount := ih hrest
      simp only [List.count_cons] at hcount ⊢
      omega

theorem unregister_count (slots : List (Option T)) (t u : T) :
    (unregister t slots).count (some u) = slots.count (some u) - if u = t then 1 else 0 := by
  induction slots with
  | nil => simp [unregister]
  | cons slot slots ih =>
    unfold unregister
    split
    · next hslot =>
      subst hslot
      by_cases hu : u = t
      · simp [hu]
      · simp [hu, Ne.symm hu]
    · next hslot =>
      rw [List.count_cons, List.count_cons, ih]
      by_cases hu : u = t
      · subst hu
        simp [hslot]
      · simp [hu]

theorem set_none_count (h : slots[i]? = some (some t)) (u : T) :
    (slots.set i none).count (some u) = slots.count (some u) - if u = t then 1 else 0 := by
  obtain ⟨hlt, hslot⟩ := List.getElem?_eq_some_iff.mp h
  rw [List.count_set hlt, hslot]
  by_cases hu : u = t
  · simp [hu]
  · simp [hu, Ne.symm hu]

/-! ## Steps -/

theorem wait_of_step {timed : Bool} (hs : s.step (.wait t timed) = some s') :
    s.threads t = .idle ∧ s' = s.wait t timed := by
  simp only [Sys.step] at hs
  split at hs
  · next hphase => exact ⟨hphase, (Option.some.inj hs).symm⟩
  · cases hs

theorem unlock_of_step {ret : Int} (hs : s.step (.unlock t ret) = some s') :
    ∃ timed, s.threads t = .registered timed ∧
      s' = if ret = 0 then s.goto t (.waiting timed) else s.finish t ret := by
  simp only [Sys.step] at hs
  split at hs
  · next timed hphase => exact ⟨timed, hphase, (Option.some.inj hs).symm⟩
  · cases hs

theorem takeNotification_of_step (hs : s.step (.takeNotification t) = some s') :
    (∃ timed, s.threads t = .waiting timed) ∧ s.notified t = true ∧
      s' = (s.setNotified t false).goto t (.leaving 0) := by
  simp only [Sys.step] at hs
  split at hs
  · next timed hphase hnotified => exact ⟨⟨timed, hphase⟩, hnotified, (Option.some.inj hs).symm⟩
  · cases hs

theorem timeout_of_step (hs : s.step (.timeout t) = some s') :
    s.threads t = .waiting true ∧ s.notified t = false ∧ s' = s.goto t (.leaving ETIMEDOUT) := by
  simp only [Sys.step] at hs
  split at hs
  · next hphase hnotified => exact ⟨hphase, hnotified, (Option.some.inj hs).symm⟩
  · cases hs

theorem leave_of_step (hs : s.step (.leave t) = some s') :
    ∃ ret, s.threads t = .leaving ret ∧
      s' = { s with waitTask := unregister t s.waitTask }.finish t ret := by
  simp only [Sys.step] at hs
  split at hs
  · next ret hphase => exact ⟨ret, hphase, (Option.some.inj hs).symm⟩
  · cases hs

theorem start_listed (waitCount : Nat) : (start waitCount : Sys T).Listed :=
  ⟨fun t => by simp [start, listed, List.count_eq_zero], fun t => rfl⟩

section

variable (h : s.Listed)
include h

theorem Sys.Listed.move (hothers : ∀ u ≠ t, s'.threads u = s.threads u ∧ s'.notified u = s.notified u ∧
      s'.waitTask.count (some u) = s.waitTask.count (some u))
    (hslots : s'.waitTask.count (some t) = listed (s'.threads t) (s'.notified t))
    (hfits : Fits (s'.threads t) (s'.notified t)) : s'.Listed := by
  constructor
  · intro u
    by_cases hu : u = t
    · subst hu
      exact hslots
    · obtain ⟨hthread, hnotified, hcount⟩ := hothers u hu
      rw [hthread, hnotified, hcount]
      exact h.slots u
  · intro u
    by_cases hu : u = t
    · subst hu
      exact hfits
    · obtain ⟨hthread, hnotified, -⟩ := hothers u hu
      rw [hthread, hnotified]
      exact h.fits u

theorem Sys.Listed.mem_iff : some t ∈ s.waitTask ↔ s.Blocked t ∨ s.TimedOut t := by
  have hslots := h.slots t
  rw [← List.count_pos_iff, hslots]
  unfold Blocked TimedOut
  cases hphase : s.threads t with
  | idle => simp [listed]
  | registered timed | waiting timed => cases hnotified : s.notified t <;> simp [listed]
  | leaving ret => by_cases hret : ret = ETIMEDOUT <;> simp [listed, hret]

theorem signal_blocked (hok : s.Within (.signal priority))
    (hchoose : s.choose priority = some (i, t)) : s.Blocked t ∧ s.waitTask[i]? = some (some t) := by
  rcases chooseLoop_some hchoose with hnone | ⟨-, hslot⟩
  · cases hnone
  · have hslot : s.waitTask[i]? = some (some t) := hslot
    refine ⟨?_, hslot⟩
    rcases h.mem_iff.mp (List.mem_of_getElem? hslot) with hblocked | htimed
    · exact hblocked
    · exact absurd htimed (hok i t hchoose)

theorem signal_listed (hok : s.Within (.signal priority)) :
    (s.pthreadCondSignal priority).Listed := by
  unfold pthreadCondSignal
  split
  · next i t hchoose =>
    obtain ⟨hblocked, hslot⟩ := signal_blocked h hok hchoose
    obtain ⟨hone, hzero, hfits⟩ := hblocked.fits
    refine h.move (t := t) (fun u hu => ⟨rfl, update_of_ne hu _ _, ?_⟩) ?_ ?_
    · simp only [set_none_count hslot, if_neg hu, Nat.sub_zero]
    · have hcount := h.slots t
      simp only [set_none_count hslot, setNotified, update_self, if_true, hcount, hone, hzero]
    · simp only [setNotified, update_self]
      exact hfits
  · exact h

theorem broadcast_listed (hok : s.Within .broadcast) : s.pthreadCondBroadcast.Listed := by
  have hempty : ∀ t : T, (s.waitTask.map fun _ => (none : Option T)).count (some t) = 0 := by
    intro t
    rw [List.count_eq_zero]
    simp
  have hblocked : ∀ t, some t ∈ s.waitTask → s.Blocked t := by
    intro t hmem
    rcases h.mem_iff.mp hmem with hblocked | htimed
    · exact hblocked
    · exact absurd htimed (hok t hmem)
  have hnotified : ∀ t, s.pthreadCondBroadcast.notified t
      = if some t ∈ s.waitTask then true else s.notified t := by
    intro t
    unfold pthreadCondBroadcast
    by_cases hmem : some t ∈ s.waitTask <;> simp [hmem]
  constructor
  · intro t
    rw [hnotified]
    refine (hempty t).trans ?_
    show 0 = listed (s.threads t) _
    split
    · next hmem => exact ((hblocked t hmem).fits.2.1).symm
    · next hmem => rw [← h.slots t, List.count_eq_zero.mpr hmem]
  · intro t
    rw [hnotified]
    show Fits (s.threads t) _
    split
    · next hmem => exact (hblocked t hmem).fits.2.2
    · exact h.fits t

theorem step_listed (hok : s.Within a) (hs : s.step a = some s') : s'.Listed := by
  cases a with
  | wait t timed =>
    obtain ⟨hphase, rfl⟩ := wait_of_step hs
    have hslots := h.slots t
    have hfits := h.fits t
    rw [hphase] at hslots hfits
    have hnotified : s.notified t = false := hfits
    unfold Sys.wait
    split
    · next slots hregister =>
      have hcount := register_count hregister
      refine h.move (t := t) (fun u hu => ⟨update_of_ne hu _ _, rfl, ?_⟩) ?_ ?_
      · simp only [Sys.goto, hcount, if_neg hu, Nat.add_zero]
      · simp only [Sys.goto, hcount, if_true, hslots, update_self, hnotified, listed]
      · simp only [Sys.goto, update_self, Fits]
    · refine h.move (t := t) (fun u hu => ⟨update_of_ne hu _ _, rfl, rfl⟩) ?_ ?_
      · simp only [Sys.finish, Sys.goto, update_self, hslots, hnotified]
      · simp only [Sys.finish, Sys.goto, update_self, hnotified, Fits]
  | unlock t ret =>
    obtain ⟨timed, hphase, rfl⟩ := unlock_of_step hs
    have hslots := h.slots t
    rw [hphase] at hslots
    rw [if_pos (show ret = 0 from hok)]
    refine h.move (t := t) (fun u hu => ⟨update_of_ne hu _ _, rfl, rfl⟩) ?_ ?_
    · simp only [Sys.goto, update_self, hslots]
      cases s.notified t <;> rfl
    · simp only [Sys.goto, update_self, Fits]
  | takeNotification t =>
    obtain ⟨⟨timed, hphase⟩, hnotified, rfl⟩ := takeNotification_of_step hs
    have hslots := h.slots t
    rw [hphase, hnotified] at hslots
    refine h.move (t := t) (fun u hu => ⟨update_of_ne hu _ _,
      update_of_ne hu _ _, rfl⟩) ?_ ?_
    · simp only [Sys.goto, setNotified, update_self, hslots]
      rfl
    · simp [Sys.goto, setNotified, Fits]
  | timeout t =>
    obtain ⟨hphase, hnotified, rfl⟩ := timeout_of_step hs
    have hslots := h.slots t
    rw [hphase, hnotified] at hslots
    refine h.move (t := t) (fun u hu => ⟨update_of_ne hu _ _, rfl, rfl⟩) ?_ ?_
    · simp only [Sys.goto, update_self, hslots, hnotified]
      rfl
    · simp [Sys.goto, hnotified, Fits]
  | leave t =>
    obtain ⟨ret, hphase, rfl⟩ := leave_of_step hs
    have hslots := h.slots t
    have hfits := h.fits t
    rw [hphase] at hslots hfits
    have hle : listed (.leaving ret) (s.notified t) ≤ 1 := by
      show (if ret = ETIMEDOUT then 1 else 0) ≤ 1
      split <;> omega
    refine h.move (t := t) (fun u hu => ⟨update_of_ne hu _ _, rfl, ?_⟩) ?_ ?_
    · simp only [Sys.finish, Sys.goto, unregister_count, if_neg hu, Nat.sub_zero]
    · simp only [Sys.finish, Sys.goto, unregister_count, if_true, update_self, hslots,
        hfits.1, listed] at hle ⊢
      omega
    · simp only [Sys.finish, Sys.goto, update_self, hfits.1, Fits]
  | signal priority =>
    cases hs
    exact signal_listed h hok
  | broadcast =>
    cases hs
    exact broadcast_listed h hok

end

/-! ## Wake-ups -/

def Action.thread : Action T → Option T
  | .wait t _ | .unlock t _ | .takeNotification t | .timeout t | .leave t => some t
  | .signal _ | .broadcast => none

namespace Sys

def Woken (s : Sys T) (t : T) : Prop :=
  (∃ timed, s.threads t = .registered timed ∨ s.threads t = .waiting timed) ∧ s.notified t = true ∨
    s.threads t = .leaving 0

/-- The wait of the thread, its `m`th, has returned 0, or is to do so. -/
def Answered (s : Sys T) (t : T) (m : Nat) : Prop :=
  (s.results t)[m]? = some 0 ∨ (s.results t).length = m ∧ s.Woken t

end Sys

omit [DecidableEq T] in
theorem Sys.Woken.not_idle (h : s.Woken t) : s.threads t ≠ .idle := by
  intro hidle
  rcases h with ⟨⟨timed, hwait | hwait⟩, -⟩ | hwait <;> rw [hidle] at hwait <;> cases hwait

theorem answered_append {codes : List Int} (h : codes[m]? = some 0) (ret : Int) :
    (codes ++ [ret])[m]? = some 0 := by
  obtain ⟨hlt, -⟩ := List.getElem?_eq_some_iff.mp h
  rw [List.getElem?_append_left hlt]
  exact h

omit [DecidableEq T] in
theorem Sys.Answered.congr (h : s.Answered t m) (hthread : s'.threads t = s.threads t)
    (hnotified : s.notified t = true → s'.notified t = true) (hresults : s'.results t = s.results t) :
    s'.Answered t m := by
  unfold Answered Woken at h ⊢
  rw [hthread, hresults]
  rcases h with h | ⟨hlen, ⟨hphase, hyes⟩ | hphase⟩
  · exact .inl h
  · exact .inr ⟨hlen, .inl ⟨hphase, hnotified hyes⟩⟩
  · exact .inr ⟨hlen, .inr hphase⟩

theorem step_answered_self (h : s.Answered t m) (hok : s.Within a) (hs : s.step a = some s')
    (ha : a.thread = some t) : s'.Answered t m := by
  cases a with
  | wait u timed =>
    cases ha
    obtain ⟨hphase, rfl⟩ := wait_of_step hs
    -- a thread that begins a wait was not in one
    rcases h with h | ⟨-, hwoken⟩
    · unfold Sys.wait
      split
      · exact .inl h
      · refine .inl ?_
        simp only [Sys.finish, update_self]
        exact answered_append h _
    · exact absurd hphase hwoken.not_idle
  | unlock u ret =>
    cases ha
    obtain ⟨timed, hphase, rfl⟩ := unlock_of_step hs
    rw [if_pos (show ret = 0 from hok)]
    rcases h with h | ⟨hlen, ⟨-, hnotified⟩ | hleaving⟩
    · exact .inl h
    · exact .inr ⟨hlen, .inl ⟨⟨timed, .inr (update_self _ _ _)⟩, hnotified⟩⟩
    · rw [hphase] at hleaving
      cases hleaving
  | takeNotification u =>
    cases ha
    obtain ⟨-, -, rfl⟩ := takeNotification_of_step hs
    rcases h with h | ⟨hlen, -⟩
    · exact .inl h
    · exact .inr ⟨hlen, .inr (update_self _ _ _)⟩
  | timeout u =>
    cases ha
    obtain ⟨hphase, hnotified, rfl⟩ := timeout_of_step hs
    -- a wait that has been notified does not time out
    rcases h with h | ⟨-, ⟨-, hyes⟩ | hleaving⟩
    · exact .inl h
    · rw [hnotified] at hyes
      cases hyes
    · rw [hphase] at hleaving
      cases hleaving
  | leave u =>
    cases ha
    obtain ⟨ret, hphase, rfl⟩ := leave_of_step hs
    refine .inl ?_
    simp only [Sys.finish, update_self]
    rcases h with h | ⟨hlen, ⟨⟨timed, hwait | hwait⟩, -⟩ | hleaving⟩
    · exact answered_append h _
    · rw [hphase] at hwait
      cases hwait
    · rw [hphase] at hwait
      cases hwait
    · rw [hphase, Phase.leaving.injEq] at hleaving
      rw [hleaving, ← hlen]
      simp
  | signal priority | broadcast => cases ha

theorem step_answered_other (h : s.Answered t m) (hs : s.step a = some s') (ha : a.thread ≠ some t) :
    s'.Answered t m := by
  have hother {u : T} (hu : some u ≠ some t) : t ≠ u := fun he => hu (congrArg some he.symm)
  cases a with
  | wait u timed =>
    obtain ⟨-, rfl⟩ := wait_of_step hs
    unfold Sys.wait
    split
    · exact h.congr (update_of_ne (hother ha) _ _) id rfl
    · exact h.congr (update_of_ne (hother ha) _ _) id (update_of_ne (hother ha) _ _)
  | unlock u ret =>
    obtain ⟨timed, -, rfl⟩ := unlock_of_step hs
    split
    · exact h.congr (update_of_ne (hother ha) _ _) id rfl
    · exact h.congr (update_of_ne (hother ha) _ _) id (update_of_ne (hother ha) _ _)
  | takeNotification u =>
    obtain ⟨-, -, rfl⟩ := takeNotification_of_step hs
    exact h.congr (update_of_ne (hother ha) _ _) (update_of_ne (hother ha) _ _).trans rfl
  | timeout u =>
    obtain ⟨-, -, rfl⟩ := timeout_of_step hs
    exact h.congr (update_of_ne (hother ha) _ _) id rfl
  | leave u =>
    obtain ⟨ret, -, rfl⟩ := leave_of_step hs
    exact h.congr (update_of_ne (hother ha) _ _) id (update_of_ne (hother ha) _ _)
  | signal priority =>
    cases hs
    unfold pthreadCondSignal
    split
    · next i u hchoose =>
      refine h.congr rfl ?_ rfl
      intro hyes
      by_cases hu : t = u
      · subst hu
        exact update_self _ _ _
      · exact (update_of_ne hu _ _).trans hyes
    · exact h
  | broadcast =>
    cases hs
    refine h.congr rfl ?_ rfl
    intro hyes
    simp [pthreadCondBroadcast, hyes]

theorem step_answered (h : s.Answered t m) (hok : s.Within a) (hs : s.step a = some s') :
    s'.Answered t m := by
  by_cases ha : a.thread = some t
  · exact step_answered_self h hok hs ha
  · exact step_answered_other h hs ha

theorem reaches_answered (h : s.Answered t m) (hr : Reaches step Within s s') :
    s'.Answered t m :=
  hr.invariant (P := fun s => s.Answered t m) h fun _ _ _ h hok => step_answered h hok

omit [DecidableEq T] in
theorem Sys.Blocked.answered (hb : s.Blocked t) (hthread : s'.threads t = s.threads t)
    (hnotified : s'.notified t = true) (hresults : s'.results t = s.results t) :
    s'.Answered t (s.results t).length := by
  obtain ⟨⟨timed, hphase⟩, -⟩ := hb
  refine .inr ⟨congrArg List.length hresults, .inl ⟨⟨timed, ?_⟩, hnotified⟩⟩
  rw [hthread]
  exact hphase

/--
**In a run within the condition no wake-up is lost.** A signal that finds a thread blocked makes the
wait of such a thread return 0, a broadcast that of each of them; a thread that is not in a wait is in
no slot, and has no notification left over.
-/
theorem cond_loses_no_wakeup {waitCount : Nat} (h : Reaches step Within (start waitCount : Sys T) s) :
    (∀ priority s', s.Within (.signal priority) → s.step (.signal priority) = some s' →
      (∃ t, s.Blocked t) → ∃ t, s.Blocked t ∧ ∀ s'', Reaches step Within s' s'' →
        s''.Answered t (s.results t).length) ∧
    (∀ s', s.Within .broadcast → s.step .broadcast = some s' → ∀ t, s.Blocked t →
      ∀ s'', Reaches step Within s' s'' → s''.Answered t (s.results t).length) ∧
    ∀ t, s.threads t = .idle → some t ∉ s.waitTask ∧ s.notified t = false := by
  have hl : s.Listed := h.invariant (P := Sys.Listed) (start_listed waitCount)
    fun s a s' hs hok => step_listed hs hok
  refine ⟨?_, ?_, ?_⟩
  · intro priority s' hok hs hblocked
    obtain ⟨u, hu⟩ := hblocked
    cases hchoose : s.choose priority with
    | none => exact absurd (hl.mem_iff.mpr (.inl hu)) ((chooseLoop_none hchoose).2 u)
    | some chosen =>
      obtain ⟨i, t⟩ := chosen
      have hb := (signal_blocked hl hok hchoose).1
      refine ⟨t, hb, fun s'' hr => reaches_answered ?_ hr⟩
      cases hs
      refine hb.answered ?_ ?_ ?_ <;> simp [pthreadCondSignal, hchoose, setNotified]
  · intro s' hok hs t hb s'' hr
    refine reaches_answered ?_ hr
    cases hs
    refine hb.answered rfl ?_ rfl
    have hmem := hl.mem_iff.mpr (.inl hb)
    simp [pthreadCondBroadcast, hmem]
  · intro t hidle
    have hfits := hl.fits t
    rw [hidle] at hfits
    refine ⟨fun hmem => ?_, hfits⟩
    rcases hl.mem_iff.mp hmem with ⟨⟨timed, hphase | hphase⟩, -⟩ | hphase
    · rw [hidle] at hphase
      cases hphase
    · rw [hidle] at hphase
      cases hphase
    · rw [TimedOut, hidle] at hphase
      cases hphase

/-- One of two threads has timed out and left, and a signal finds the other one. -/
theorem cond_loses_no_wakeup_two : ∃ s s' : Sys Bool, Reaches step Within (start 4) s ∧
    s.step (.signal fun _ => 0) = some s' ∧ s.Blocked false ∧
    ∃ t, s.Blocked t ∧ s'.Answered t (s.results t).length := by
  obtain ⟨s, hs, hslots, hphase, hnotified⟩ : ∃ s : Sys Bool, [.wait true true,
      .unlock true 0, .wait false false, .unlock false 0, .timeout true, .leave true].foldlM step
        (start 4) = some s ∧ s.waitTask = [none, some false, none, none] ∧
      s.threads false = .waiting false ∧ s.notified false = false := ⟨_, rfl, rfl, rfl, rfl⟩
  have hr : Reaches step Within (start 4) s := by
    refine Reaches.of_foldlM_of_forall _ hs fun s a ha => ?_
    simp only [List.mem_cons, List.not_mem_nil, or_false] at ha
    rcases ha with rfl | rfl | rfl | rfl | rfl | rfl <;> trivial
  have hb : s.Blocked false := ⟨⟨false, .inr hphase⟩, hnotified⟩
  have hok : s.Within (.signal fun _ => 0) := by
    intro i t ht
    simp only [choose, hslots] at ht
    cases ht
    rw [TimedOut, hphase]
    intro h
    cases h
  obtain ⟨t, ht, hanswered⟩ := (cond_loses_no_wakeup hr).1 (fun _ => 0) _ hok rfl ⟨false, hb⟩
  exact ⟨s, _, hr, rfl, hb, t, ht, hanswered _ .refl⟩

/--
A thread that has timed out is chosen before it has got the mutex back. The other thread stays
blocked, and the next wait of the first one returns 0 without a signal.
-/
theorem signal_lost : ∃ s s' s'' : Sys Bool, Reaches step Always (start 4) s ∧
    s.Blocked false ∧ s.step (.signal fun _ => 0) = some s' ∧
    [.leave true, .wait true false, .unlock true 0, .takeNotification true, .leave true].foldlM step s'
      = some s'' ∧ s''.Blocked false ∧ s''.results true = [ETIMEDOUT, 0] ∧ s''.results false = [] := by
  refine ⟨_, _, _, Reaches.of_foldlM [.wait true true, .unlock true 0, .wait false false,
    .unlock false 0, .timeout true] rfl, ⟨⟨false, .inr rfl⟩, rfl⟩, rfl, rfl, ⟨⟨false, .inr rfl⟩, rfl⟩, rfl,
    rfl⟩

end Gpmx.Pthread.Cond
