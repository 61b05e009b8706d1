import Gpmx.Infra.Accounts
import Gpmx.Infra.Runs

/-!
# Barriers

`gpm/libs/libc/pthread/pthread_barrier.c`. A call of `pthread_barrier_wait` works on the count with
the mutex held: from its start up to its return or to the wait on the condition, and then from the
end of the wait to the return. Such a section is one step. The wait may end at any time, with a
broadcast or without.

The count goes down to 0 and is never set again, no code returns `PTHREAD_BARRIER_SERIAL_THREAD`,
and a thread whose wait has ended does not look whether the barrier is open.
-/

namespace Gpmx.Pthread.Barrier

open Infra Function

def EINVAL : Int := 22
def PTHREAD_BARRIER_SERIAL_THREAD : Int := 0x1000

/-- The value an `int` takes. -/
def toInt (n : Int) : Int := n.bmod (2 ^ 32)

/-- `pthread_barrier_init`: the count of the barrier, or `EINVAL` -/
def pthreadBarrierInit (count : Nat) : Except Int Int :=
  if count = 0 then .error EINVAL else .ok (toInt count)

/-- How the first section of `pthread_barrier_wait` ends. -/
inductive Outcome where
  | ret (code : Int)
  /-- the same, after a broadcast -/
  | opened (code : Int)
  | wait

/-- `pthread_barrier_wait`, up to its return or to the wait -/
def pthreadBarrierWait (count : Int) : Int × Outcome :=
  if count = 0 then (count, .ret EINVAL)
  else
    let count := toInt (count - 1)
    if count = 0 then (count, .opened 0) else (count, .wait)

inductive Phase where
  | outside
  | waiting (woken : Bool)
  deriving DecidableEq

/-- The count, the threads, how often each has entered, and what its calls have returned. -/
structure Sys (T : Type) where
  count : Int
  threads : T → Phase
  entered : T → Nat
  returned : T → List Int

inductive Action (T : Type) where
  | call (t : T)
  /-- the end of the wait, and the section after it -/
  | resume (t : T)

variable {T : Type}

/-- After `pthread_barrier_init`. -/
def start (count : Int) : Sys T :=
  { count, threads := fun _ => .outside, entered := fun _ => 0, returned := fun _ => [] }

namespace Sys

section

variable [DecidableEq T]

def finish (s : Sys T) (t : T) (code : Int) : Sys T :=
  { s with
    threads := update s.threads t .outside
    returned := update s.returned t (s.returned t ++ [code]) }

def broadcast (s : Sys T) : Sys T :=
  { s with threads := fun t => match s.threads t with
      | .waiting _ => .waiting true
      | .outside => .outside }

def enter (s : Sys T) (t : T) : Sys T :=
  let entered := update s.entered t (s.entered t + 1)
  match pthreadBarrierWait s.count with
  | (count, .ret code) => { s with count, entered }.finish t code
  | (count, .opened code) => { s.broadcast with count, entered }.finish t code
  | (count, .wait) =>
    { s with count, entered, threads := update s.threads t (.waiting false) }

def step (s : Sys T) : Action T → Option (Sys T)
  | .call t =>
    match s.threads t with
    | .outside => some (s.enter t)
    | .waiting _ => none
  | .resume t =>
    match s.threads t with
    | .waiting _ => some (s.finish t 0)
    | .outside => none

end

variable [Fintype T]

/-- The threads that have entered their `k`th round. -/
def entrants (s : Sys T) (k : Nat) : Nat := census (fun n => k ≤ n) s.entered

/-- The threads that have returned from their `k`th round. -/
def leavers (s : Sys T) (k : Nat) : Nat := census (fun codes => k ≤ codes.length) s.returned

/-- The threads whose `k`th call has returned `PTHREAD_BARRIER_SERIAL_THREAD`. -/
def serials (s : Sys T) (k : Nat) : Nat :=
  census (fun codes : List Int => codes[k - 1]? = some PTHREAD_BARRIER_SERIAL_THREAD) s.returned

/--
What a barrier for `n` threads is for: nobody returns from a round before `n` threads have entered
it, and when `n` threads have returned from it, one of them has got
`PTHREAD_BARRIER_SERIAL_THREAD`.
-/
structure Meets (s : Sys T) (n : Nat) : Prop where
  together : ∀ t k, 1 ≤ k → k ≤ (s.returned t).length → n ≤ s.entrants k
  serial : ∀ k, 1 ≤ k → n ≤ s.leavers k → s.serials k = 1

end Sys

/-! ## What a call returns -/

open Sys

variable [DecidableEq T] {s s' : Sys T} {t : T}

/-- A thread returns 0 or `EINVAL`. -/
def Sys.Plain (s : Sys T) : Prop := ∀ t, ∀ code ∈ s.returned t, code = 0 ∨ code = EINVAL

theorem Sys.Plain.finish (h : s.Plain) {code : Int} (hcode : code = 0 ∨ code = EINVAL) :
    (s.finish t code).Plain := by
  intro t' c hc
  simp only [Sys.finish, update_apply] at hc
  split at hc
  · rcases List.mem_append.mp hc with hc | hc
    · exact h t c hc
    · rw [List.mem_singleton.mp hc]
      exact hcode
  · exact h t' c hc

theorem enter_plain (h : s.Plain) : (s.enter t).Plain := by
  unfold enter pthreadBarrierWait
  by_cases hzero : s.count = 0
  · rw [if_pos hzero]
    exact Sys.Plain.finish h (.inr rfl)
  · rw [if_neg hzero]
    by_cases hlast : toInt (s.count - 1) = 0
    · simp only [if_pos hlast]
      exact Sys.Plain.finish h (.inl rfl)
    · simp only [if_neg hlast]
      exact h

theorem step_plain {a : Action T} (h : s.Plain) (hs : s.step a = some s') : s'.Plain := by
  cases a with
  | call t =>
    simp only [Sys.step] at hs
    split at hs
    · cases hs
      exact enter_plain h
    · cases hs
  | resume t =>
    simp only [Sys.step] at hs
    split at hs
    · cases hs
      exact h.finish (.inl rfl)
    · cases hs

theorem enter_open (hcount : s.count = 0) : (s.enter t).returned t = s.returned t ++ [EINVAL] := by
  simp [enter, pthreadBarrierWait, hcount, Sys.finish]

theorem toInt_ne_zero {n : Nat} (hn : 1 ≤ n) (hmax : n < 2 ^ 32) : toInt n ≠ 0 := by
  unfold toInt Int.bmod
  dsimp only
  split <;> omega

theorem enter_start (t : T) {count : Int} (hzero : count ≠ 0) :
    ∃ s : Sys T, Reaches step Always (start count) s ∧ s.returned t = [0] ∧
      ∀ t', s.entered t' = if t' = t then 1 else 0 := by
  have hcall : (start count : Sys T).step (.call t) = some ((start count).enter t) := rfl
  have hreach : Reaches step Always (start count) ((start count : Sys T).enter t) :=
    Reaches.tail .refl trivial hcall
  by_cases hlast : toInt (count - 1) = 0
  · refine ⟨_, hreach, ?_, fun t' => ?_⟩
    · simp [enter, pthreadBarrierWait, start, Sys.finish, Sys.broadcast, hzero, hlast]
    · simp [enter, pthreadBarrierWait, start, Sys.finish, hzero, hlast, update_apply]
  · have hwaiting : ((start count : Sys T).enter t).threads t = .waiting false := by
      simp [enter, pthreadBarrierWait, start, hzero, hlast]
    have hresume : ((start count : Sys T).enter t).step (.resume t)
        = some (((start count).enter t).finish t 0) := by
      simp only [Sys.step, hwaiting]
    refine ⟨_, hreach.tail trivial hresume, ?_, fun t' => ?_⟩
    · simp [enter, pthreadBarrierWait, start, hzero, hlast, Sys.finish]
    · simp [enter, pthreadBarrierWait, start, hzero, hlast, Sys.finish, update_apply]

variable [Fintype T]

omit [DecidableEq T] in
theorem Sys.Plain.serials (h : s.Plain) (k : Nat) : s.serials k = 0 := by
  refine census_eq_zero.mpr fun t hserial => ?_
  rcases h t _ (List.mem_of_getElem? hserial) with hc | hc <;> cases hc

/--
**No barrier does what it is for.** Nobody ever gets `PTHREAD_BARRIER_SERIAL_THREAD`, a barrier that
is open turns away whoever comes for a second round, and already a single thread brings it to a
state in which it has let a thread through too early, or has completed a round without a serial
thread.
-/
theorem barrier_never_right [Nonempty T] {n : Nat} {count : Int} (hmax : n < 2 ^ 32)
    (hinit : pthreadBarrierInit n = .ok count) :
    (∀ s, Reaches step Always (start count : Sys T) s →
      (∀ k, s.serials k = 0) ∧
      (s.count = 0 → ∀ t, s.threads t = .outside →
        ∃ s', s.step (.call t) = some s' ∧ s'.returned t = s.returned t ++ [EINVAL])) ∧
    ∃ s, Reaches step Always (start count : Sys T) s ∧ ¬s.Meets n := by
  have hzero : count ≠ 0 := by
    unfold pthreadBarrierInit at hinit
    split at hinit
    · cases hinit
    · next hn =>
      rw [← Except.ok.inj hinit]
      exact toInt_ne_zero (by omega) hmax
  constructor
  · intro s hs
    have hplain : s.Plain := hs.invariant (P := Sys.Plain) (by intro t c hc; cases hc)
      fun s a s' h _ => step_plain h
    refine ⟨hplain.serials, fun hcount t hphase => ⟨s.enter t, ?_, enter_open hcount⟩⟩
    simp only [Sys.step, hphase]
  · obtain ⟨t⟩ := ‹Nonempty T›
    obtain ⟨s, hs, hreturned, hentered⟩ := enter_start t hzero
    have hplain : s.Plain := hs.invariant (P := Sys.Plain) (by intro t c hc; cases hc)
      fun s a s' h _ => step_plain h
    refine ⟨s, hs, fun hmeets => ?_⟩
    have hleavers : 1 ≤ s.leavers 1 := census_pos (t := t) (by rw [hreturned]; rfl)
    have htogether := hmeets.together t 1 (Nat.le_refl 1) (by rw [hreturned]; rfl)
    have hentrants : s.entrants 1 = 1 := by
      have hfilter : (Finset.univ.filter fun t' => 1 ≤ s.entered t') = {t} := by
        ext t'
        rw [Finset.mem_filter, hentered, Finset.mem_singleton]
        by_cases ht : t' = t <;> simp [ht]
      unfold entrants census
      rw [hfilter, Finset.card_singleton]
    have hserial := hmeets.serial 1 (Nat.le_refl 1) (by omega)
    rw [hplain.serials] at hserial
    cases hserial

theorem barrier_never_right_two : pthreadBarrierInit 2 = .ok 2 ∧
    ∃ s, Reaches step Always (start 2 : Sys Bool) s ∧ ¬s.Meets 2 :=
  ⟨rfl, (barrier_never_right (T := Bool) (by decide) rfl).2⟩

/--
Two threads go through a barrier for two, and neither of them is the serial thread. Both are turned
away when they come again.
-/
theorem barrier_without_serial : ∃ s : Sys Bool, Reaches step Always (start 2) s ∧
    s.leavers 1 = 2 ∧ s.serials 1 = 0 ∧ (∀ t, s.returned t = [0, EINVAL]) ∧ ¬s.Meets 2 := by
  obtain ⟨s, hs, hleavers, hserials, hreturned⟩ : ∃ s : Sys Bool,
      [.call true, .call false, .resume true, .call true, .call false].foldlM step (start 2) = some s ∧
      s.leavers 1 = 2 ∧ s.serials 1 = 0 ∧ ∀ t, s.returned t = [0, EINVAL] :=
    ⟨_, rfl, by decide⟩
  refine ⟨s, Reaches.of_foldlM _ hs, hleavers, hserials, hreturned, fun hmeets => ?_⟩
  have hone := hmeets.serial 1 (Nat.le_refl 1) (Nat.le_of_eq hleavers.symm)
  rw [hserials] at hone
  cases hone

end Gpmx.Pthread.Barrier
