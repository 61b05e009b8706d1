import Gpmx.Infra.Runs
import Mathlib

/-!
# Spin locks

`gpm/libs/libc/pthread/pthread_spin.c`. A spin lock is one cell. The functions read it and write
it, each access is a step of its own, and other threads run between any two of them.

`pthread_spin_lock` loops while the lock is free instead of while it is taken, and nobody reads
and writes the cell in one step. So the lock excludes as long as nobody calls `pthread_spin_lock`
while the lock is taken, and nobody reads a free lock while another thread is about to take it.
-/

namespace Gpmx.Pthread.Spin

open Infra

def EPERM : Int := 1
def EBUSY : Int := 16

inductive Phase where
  | idle
  /-- `pthread_spin_lock`, before the first test of the loop -/
  | lockTest
  /-- before `lock->lock = 1` in the loop -/
  | lockSet
  /-- before the test that follows -/
  | lockRetest
  /-- `pthread_spin_trylock`, before the test -/
  | tryTest
  | trySet
  /-- the thread has acquired the lock -/
  | held
  /-- `pthread_spin_unlock`, before the test -/
  | unlockTest
  | unlockSet
  deriving DecidableEq

inductive Outcome where
  | goto (phase : Phase)
  | ret (code : Int)

/-- `while (!(lock->lock))` -/
def lockTest (lock : Int) : Outcome := if lock = 0 then .goto .lockSet else .ret 0

/-- `if (!(lock->lock))` of `pthread_spin_trylock` -/
def trylockTest (lock : Int) : Outcome := if lock = 0 then .goto .trySet else .ret EBUSY

/-- `if (!(lock->lock))` of `pthread_spin_unlock` -/
def unlockTest (lock : Int) : Outcome := if lock = 0 then .ret EPERM else .goto .unlockSet

def acquiring : Outcome → Phase
  | .goto phase => phase
  | .ret code => if code = 0 then .held else .idle

def releasing : Outcome → Phase
  | .goto phase => phase
  | .ret _ => .idle

structure Sys (T : Type) where
  lock : Int
  threads : T → Phase

inductive Action (T : Type) where
  | callLock (t : T)
  | callTrylock (t : T)
  | callUnlock (t : T)
  /-- the next step of the call -/
  | run (t : T)

variable {T : Type}

/-- After `pthread_spin_init`. -/
def start : Sys T := { lock := 0, threads := fun _ => .idle }

namespace Sys

section

variable [DecidableEq T]

def goto (s : Sys T) (t : T) (phase : Phase) : Sys T :=
  { s with threads := Function.update s.threads t phase }

def run (s : Sys T) (t : T) : Option (Sys T) :=
  match s.threads t with
  | .lockTest | .lockRetest => some (s.goto t (acquiring (lockTest s.lock)))
  | .lockSet => some ({ s with lock := 1 }.goto t .lockRetest)
  | .tryTest => some (s.goto t (acquiring (trylockTest s.lock)))
  | .trySet => some ({ s with lock := 1 }.goto t (acquiring (.ret 0)))
  | .unlockTest => some (s.goto t (releasing (unlockTest s.lock)))
  | .unlockSet => some ({ s with lock := 0 }.goto t (releasing (.ret 0)))
  | .idle | .held => none

def step (s : Sys T) : Action T → Option (Sys T)
  | .callLock t => if s.threads t = .idle then some (s.goto t .lockTest) else none
  | .callTrylock t => if s.threads t = .idle then some (s.goto t .tryTest) else none
  | .callUnlock t => if s.threads t = .held then some (s.goto t .unlockTest) else none
  | .run t => s.run t

end

end Sys

/-! ## Exclusion -/

namespace Phase

/-- The thread is between a successful acquisition and the end of its unlock. -/
def holds : Phase → Bool
  | .held | .unlockTest | .unlockSet => true
  | _ => false

def taking : Phase → Bool
  | .lockSet | .trySet => true
  | _ => false

/-- The thread has taken the lock, whether its call has returned or not. -/
def taken : Phase → Bool
  | .lockRetest | .held | .unlockTest | .unlockSet => true
  | _ => false

def claims (p : Phase) : Bool := p.taking || p.taken

theorem claims_of_holds {p : Phase} (h : p.holds = true) : p.claims = true := by
  cases p <;> first | rfl | cases h

end Phase

namespace Sys

def Alone (s : Sys T) (t : T) : Prop := ∀ t' ≠ t, (s.threads t').taking = false

/--
`pthread_spin_lock` looks at the lock when it is free, and no thread finds it free while another
one is about to take it.
-/
def Within (s : Sys T) : Action T → Prop
  | .run t =>
    (s.threads t = .lockTest → s.lock = 0 ∧ s.Alone t) ∧
    (s.threads t = .tryTest → s.lock = 0 → s.Alone t)
  | _ => True

instance [Fintype T] [DecidableEq T] (s : Sys T) (t : T) : Decidable (s.Alone t) :=
  inferInstanceAs (Decidable (∀ t' ≠ t, _))

instance [Fintype T] [DecidableEq T] (s : Sys T) : (a : Action T) → Decidable (s.Within a)
  | .run _ => inferInstanceAs (Decidable (_ ∧ _))
  | .callLock _ | .callTrylock _ | .callUnlock _ => inferInstanceAs (Decidable True)

structure Exclusive (s : Sys T) : Prop where
  unique : ∀ t t', (s.threads t).claims = true → (s.threads t').claims = true → t = t'
  locked : ∀ t, (s.threads t).taken = true → s.lock = 1

end Sys

open Sys

variable {s s' : Sys T} {t : T}

theorem start_exclusive : (start : Sys T).Exclusive := by
  constructor
  · intro t t' h
    cases h
  · intro t h
    cases h

theorem Sys.Exclusive.others (h : s.Exclusive) (ht : (s.threads t).claims = true) :
    ∀ t' ≠ t, (s.threads t').claims = false := by
  intro t' hne
  cases hclaims : (s.threads t').claims with
  | false => rfl
  | true => exact absurd (h.unique t' t hclaims ht) hne

theorem taken_eq_false {p : Phase} (h : p.claims = false) : p.taken = false :=
  (Bool.or_eq_false_iff.mp h).2

theorem Sys.Exclusive.free (h : s.Exclusive) (hlock : s.lock = 0) (halone : s.Alone t) :
    ∀ t' ≠ t, (s.threads t').claims = false := by
  intro t' hne
  refine Bool.or_eq_false_iff.mpr ⟨halone t' hne, ?_⟩
  cases htaken : (s.threads t').taken with
  | false => rfl
  | true =>
    have hone := h.locked t' htaken
    rw [hlock] at hone
    cases hone

variable [DecidableEq T]

theorem Sys.Exclusive.move (h : s.Exclusive) {lock : Int} {phase : Phase}
    (hself : phase.claims = true → ∀ t' ≠ t, (s.threads t').claims = false)
    (hlock : phase.taken = true → lock = 1)
    (hothers : ∀ t' ≠ t, (s.threads t').taken = true → lock = 1) :
    ({ s with lock := lock }.goto t phase).Exclusive := by
  have hphase : ∀ t', ({ s with lock := lock }.goto t phase).threads t'
      = if t' = t then phase else s.threads t' := fun t' => Function.update_apply _ _ _ _
  constructor
  · intro t1 t2 h1 h2
    rw [hphase] at h1 h2
    split at h1 <;> split at h2
    · next he1 he2 => rw [he1, he2]
    · next he1 he2 =>
      rw [hself h1 t2 he2] at h2
      cases h2
    · next he1 he2 =>
      rw [hself h2 t1 he1] at h1
      cases h1
    · exact h.unique t1 t2 h1 h2
  · intro t1 h1
    rw [hphase] at h1
    split at h1
    · exact hlock h1
    · next hne => exact hothers t1 hne h1

theorem run_exclusive (h : s.Exclusive) (hok : s.Within (.run t)) (hs : s.run t = some s') :
    s'.Exclusive := by
  have hkeep : ∀ t' ≠ t, (s.threads t').taken = true → s.lock = 1 := fun t' _ => h.locked t'
  unfold Sys.run at hs
  cases hphase : s.threads t with
  | idle | held =>
    rw [hphase] at hs
    cases hs
  | lockTest =>
    obtain ⟨hfree, halone⟩ := hok.1 hphase
    simp only [hphase, lockTest, hfree, if_true, acquiring] at hs
    cases hs
    exact h.move (fun _ => h.free hfree halone) (by intro h; cases h) hkeep
  | lockRetest | unlockTest =>
    -- the thread has written the lock itself, and nobody else has it
    have hlock : s.lock = 1 := h.locked t (by rw [hphase]; rfl)
    have hothers := h.others (t := t) (by rw [hphase]; rfl)
    rw [hphase] at hs
    simp only [lockTest, unlockTest, hlock] at hs
    cases hs
    exact h.move (fun _ => hothers) (fun _ => hlock) hkeep
  | lockSet | trySet =>
    have hothers := h.others (t := t) (by rw [hphase]; rfl)
    rw [hphase] at hs
    cases hs
    exact h.move (fun _ => hothers) (fun _ => rfl) fun _ _ _ => rfl
  | tryTest =>
    rw [hphase] at hs
    simp only [trylockTest] at hs
    split at hs
    · next hfree =>
      cases hs
      exact h.move (fun _ => h.free hfree (hok.2 hphase hfree)) (by intro h; cases h) hkeep
    · cases hs
      exact h.move (by intro h; cases h) (by intro h; cases h) hkeep

  | unlockSet =>
    have hothers := h.others (t := t) (by rw [hphase]; rfl)
    rw [hphase] at hs
    cases hs
    refine h.move (by intro h; cases h) (by intro h; cases h) fun t' hne htaken => ?_
    rw [taken_eq_false (hothers t' hne)] at htaken
    cases htaken

theorem step_exclusive {a : Action T} (h : s.Exclusive) (hok : s.Within a)
    (hs : s.step a = some s') : s'.Exclusive := by
  have hkeep : ∀ t t', t' ≠ t → (s.threads t').taken = true → s.lock = 1 := fun _ t' _ => h.locked t'
  cases a with
  | callLock t | callTrylock t =>
    simp only [Sys.step] at hs
    split at hs
    · cases hs
      exact h.move (by intro h; cases h) (by intro h; cases h) (hkeep t)
    · cases hs
  | callUnlock t =>
    simp only [Sys.step] at hs
    split at hs
    · next hheld =>
      cases hs
      have hclaims : (s.threads t).claims = true := by
        rw [hheld]
        rfl
      exact h.move (fun _ => h.others hclaims) (fun _ => h.locked t (by rw [hheld]; rfl)) (hkeep t)
    · cases hs
  | run t => exact run_exclusive h hok hs

/-- **In a run within the condition at most one thread has the lock.** -/
theorem spin_lock_excludes (h : Reaches step Within (start : Sys T) s) (t t' : T)
    (ht : (s.threads t).holds = true) (ht' : (s.threads t').holds = true) : t = t' := by
  have hex : s.Exclusive := h.invariant (P := Sys.Exclusive) start_exclusive
    fun s a s' hs hok => step_exclusive hs hok
  exact hex.unique t t' (Phase.claims_of_holds ht) (Phase.claims_of_holds ht')

/-- A thread has locked, and a trylock of another one is refused. -/
theorem spin_lock_excludes_one : ∃ s : Sys Bool, Reaches step Within start s ∧
    (s.threads true).holds = true ∧ ∀ t, (s.threads t).holds = true → t = true := by
  have h : Reaches step Within (start : Sys Bool) _ := Reaches.of_guarded
    [.callLock true, .run true, .run true, .run true, .callTrylock false, .run false] rfl
  exact ⟨_, h, rfl, fun t ht => spin_lock_excludes h t true ht rfl⟩

/--
`pthread_spin_lock` returns 0 at once when the lock is taken. And two threads that find the lock
free before either has written it both acquire it.
-/
theorem spin_lock_shared :
    (∃ s : Sys Bool, Reaches step Always start s ∧ ∀ t, s.threads t = .held) ∧
    ∃ s : Sys Bool, Reaches step Always start s ∧ ∀ t, s.threads t = .held := by
  constructor
  · refine ⟨_, Reaches.of_foldlM [.callLock true, .run true, .run true, .run true,
      .callLock false, .run false] rfl, ?_⟩
    decide
  · refine ⟨_, Reaches.of_foldlM [.callTrylock true, .callTrylock false, .run true, .run false,
      .run true, .run false] rfl, ?_⟩
    decide

end Gpmx.Pthread.Spin
