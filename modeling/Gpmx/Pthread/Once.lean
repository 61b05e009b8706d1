import Gpmx.Infra.Runs
import Mathlib

/-!
# Once-only initialisation

`pthread_once` of `gpm/libs/libc/pthread/pthread.c`. The control variable is tested and set in a
critical section, which is one step here: while a thread is in it, no other thread runs. The
routine runs outside.

The function is the same for both kernels, and leaves the critical section once more than it has
entered it when it has run the routine. The kernels differ in what that does to the nesting depth
when it is 0: that of FreeRTOS becomes `0xffffffff`, that of RT-Thread stays 0. The other threads
are not held back while the routine is running.
-/

namespace Gpmx.Pthread.Once

open Infra Function

/-- `CONFIG_FREERTOS_ENABLE`, `CONFIG_RTTNANO_ENABLE` -/
inductive Kernel where
  | freertos
  | rttnano
  deriving DecidableEq

/-- `vPortEnterCritical`, `rt_enter_critical` -/
def enterCritical (kernel : Kernel) (depth : Nat) : Nat :=
  match kernel with
  | .freertos => (depth + 1) % 2 ^ 32
  | .rttnano => depth + 1

/-- `vPortExitCritical`, `rt_exit_critical` -/
def exitCritical (kernel : Kernel) (depth : Nat) : Nat :=
  match kernel with
  | .freertos => (depth + (2 ^ 32 - 1)) % 2 ^ 32
  | .rttnano => depth - 1

/-- Where a thread stands in `pthread_once`, and the nesting depth at which it called. -/
inductive Phase where
  | idle
  /-- before the critical section -/
  | called (entry : Nat)
  /-- before `init_routine()` -/
  | starting (entry : Nat)
  | running (entry : Nat)
  /-- before the last exit from the critical section -/
  | leaving (entry : Nat)
  /-- the call has returned 0 -/
  | returned (entry : Nat)
  deriving DecidableEq

/-- The control variable, the threads with their nesting depths, and the calls and the returns of
the routine. -/
structure Sys (T : Type) where
  onceControl : Int
  threads : T → Phase
  depth : T → Nat
  calls : Nat
  returns : Nat

inductive Action (T : Type) where
  /-- a call, at a nesting depth -/
  | call (t : T) (entry : Nat)
  /-- the next step of the call -/
  | run (t : T)

variable {T : Type}

def start : Sys T :=
  { onceControl := 0, threads := fun _ => .idle, depth := fun _ => 0, calls := 0, returns := 0 }

def Phase.free : Phase → Bool
  | .idle | .returned _ => true
  | _ => false

namespace Sys

section

variable [DecidableEq T]

def goto (s : Sys T) (t : T) (phase : Phase) : Sys T :=
  { s with threads := update s.threads t phase }

def setDepth (s : Sys T) (t : T) (depth : Nat) : Sys T :=
  { s with depth := update s.depth t depth }

def testControl (kernel : Kernel) (s : Sys T) (t : T) (entry : Nat) : Sys T :=
  let depth := exitCritical kernel (enterCritical kernel (s.depth t))
  if s.onceControl = 0 then { s.setDepth t depth with onceControl := 1 }.goto t (.starting entry)
  else (s.setDepth t depth).goto t (.returned entry)

def run (kernel : Kernel) (s : Sys T) (t : T) : Option (Sys T) :=
  match s.threads t with
  | .called entry => some (s.testControl kernel t entry)
  | .starting entry => some ({ s with calls := s.calls + 1 }.goto t (.running entry))
  | .running entry => some ({ s with returns := s.returns + 1 }.goto t (.leaving entry))
  | .leaving entry =>
    some ((s.setDepth t (exitCritical kernel (s.depth t))).goto t (.returned entry))
  | .idle | .returned _ => none

def step (kernel : Kernel) (s : Sys T) : Action T → Option (Sys T)
  | .call t entry =>
    if (s.threads t).free ∧ entry < 2 ^ 32 then some ((s.setDepth t entry).goto t (.called entry))
    else none
  | .run t => s.run kernel t

end

/--
A call that is to run the routine is made with RT-Thread and outside of every critical section,
and a call that finds the routine called before finds that it has returned.
-/
def Within (kernel : Kernel) (s : Sys T) : Action T → Prop
  | .run t => ∀ entry, s.threads t = .called entry →
      if s.onceControl = 0 then kernel = .rttnano ∧ entry = 0 else s.returns ≠ 0
  | _ => True

instance (kernel : Kernel) (s : Sys T) : (a : Action T) → Decidable (s.Within kernel a)
  | .call _ _ => inferInstanceAs (Decidable True)
  | .run t =>
    match hphase : s.threads t with
    | .called entry =>
      decidable_of_iff (if s.onceControl = 0 then kernel = .rttnano ∧ entry = 0 else s.returns ≠ 0)
        ⟨fun h e he => by rw [hphase] at he; cases he; exact h, fun h => h entry hphase⟩
    | .idle | .starting _ | .running _ | .leaving _ | .returned _ =>
      .isTrue fun e he => by rw [hphase] at he; cases he

end Sys

/-! ## What the threads know -/

def Phase.active : Phase → Bool
  | .starting _ | .running _ | .leaving _ => true
  | _ => false

namespace Sys

/-- What the phase of a thread says of the routine and of the nesting depth. -/
def Fits (s : Sys T) (depth : Nat) : Phase → Prop
  | .idle => True
  | .called entry => depth = entry ∧ entry < 2 ^ 32
  | .starting entry => s.onceControl = 1 ∧ s.calls = 0 ∧ depth = entry ∧ entry = 0
  | .running entry => s.onceControl = 1 ∧ s.calls = 1 ∧ s.returns = 0 ∧ depth = entry ∧ entry = 0
  | .leaving entry => s.onceControl = 1 ∧ s.calls = 1 ∧ s.returns = 1 ∧ depth = entry ∧ entry = 0
  | .returned entry => s.onceControl = 1 ∧ s.calls = 1 ∧ s.returns = 1 ∧ depth = entry

structure Inv (kernel : Kernel) (s : Sys T) : Prop where
  control : s.onceControl = 0 ∧ s.calls = 0 ∧ s.returns = 0 ∨
    s.onceControl = 1 ∧ s.calls ≤ 1 ∧ s.returns ≤ s.calls
  unique : ∀ t t', (s.threads t).active = true → (s.threads t').active = true → t = t'
  rttnano : ∀ t, (s.threads t).active = true → kernel = .rttnano
  fits : ∀ t, s.Fits (s.depth t) (s.threads t)

end Sys

open Sys

variable {kernel : Kernel} {s s' : Sys T} {t : T}

theorem start_inv : (start : Sys T).Inv kernel := by
  refine ⟨.inl ⟨rfl, rfl, rfl⟩, ?_, ?_, fun t => trivial⟩
  · intro t t' h
    cases h
  · intro t h
    cases h

variable {depth : Nat} {phase : Phase}

theorem exit_enter (h : depth < 2 ^ 32) :
    exitCritical kernel (enterCritical kernel depth) = depth := by
  cases kernel with
  | freertos =>
    simp only [exitCritical, enterCritical]
    omega
  | rttnano => rfl

theorem Sys.Fits.of_inactive (h : s.Fits depth phase) (hactive : phase.active = false)
    (hreturns : s.returns = 0) : s'.Fits depth phase := by
  cases phase with
  | idle => trivial
  | called entry => exact h
  | starting entry | running entry | leaving entry => cases hactive
  | returned entry =>
    obtain ⟨-, -, hone, -⟩ := h
    omega

theorem Sys.Inv.others (h : s.Inv kernel) (ht : (s.threads t).active = true) :
    ∀ t' ≠ t, (s.threads t').active = false := by
  intro t' hne
  cases hactive : (s.threads t').active with
  | false => rfl
  | true => exact absurd (h.unique t' t hactive ht) hne

variable [DecidableEq T]

theorem Sys.Inv.move (h : s.Inv kernel)
    (hcontrol : s'.onceControl = 0 ∧ s'.calls = 0 ∧ s'.returns = 0 ∨ s'.onceControl = 1 ∧ s'.calls ≤ 1 ∧ s'.returns ≤ s'.calls)
    (hthreads : s'.threads = update s.threads t phase) (hdepth : s'.depth = update s.depth t depth)
    (hself : phase.active = true → kernel = .rttnano ∧ ∀ t' ≠ t, (s.threads t').active = false)
    (hfits : s'.Fits depth phase) (hothers : ∀ t' ≠ t, s'.Fits (s.depth t') (s.threads t')) :
    s'.Inv kernel := by
  refine ⟨hcontrol, fun t1 t2 h1 h2 => ?_, fun t1 h1 => ?_, fun t1 => ?_⟩
  · rw [hthreads, update_apply] at h1 h2
    split at h1 <;> split at h2
    · next he1 he2 => rw [he1, he2]
    · next he1 he2 =>
      rw [(hself h1).2 t2 he2] at h2
      cases h2
    · next he1 he2 =>
      rw [(hself h2).2 t1 he1] at h1
      cases h1
    · exact h.unique t1 t2 h1 h2
  · rw [hthreads, update_apply] at h1
    split at h1
    · exact (hself h1).1
    · exact h.rttnano t1 h1
  · by_cases ht : t1 = t
    · subst ht
      rw [hthreads, hdepth, update_self, update_self]
      exact hfits
    · rw [hthreads, hdepth, update_of_ne ht, update_of_ne ht]
      exact hothers t1 ht

theorem testControl_inv (h : s.Inv kernel) {entry : Nat} (hphase : s.threads t = .called entry)
    (hok : if s.onceControl = 0 then kernel = .rttnano ∧ entry = 0 else s.returns ≠ 0) :
    (s.testControl kernel t entry).Inv kernel := by
  have hfits := h.fits t
  rw [hphase] at hfits
  obtain ⟨hdepth, hrange⟩ := hfits
  have hexit : exitCritical kernel (enterCritical kernel (s.depth t)) = s.depth t :=
    exit_enter (by omega)
  unfold testControl
  by_cases hfirst : s.onceControl = 0
  · rw [if_pos hfirst] at hok
    rw [hexit, if_pos hfirst]
    rcases h.control with ⟨-, hcalls, hreturns⟩ | ⟨hone, -⟩
    · have hinactive : ∀ t', (s.threads t').active = false := by
        intro t'
        have hfits' := h.fits t'
        cases hphase' : s.threads t' with
        | idle | called entry' | returned entry' => rfl
        | starting entry' | running entry' | leaving entry' =>
          rw [hphase'] at hfits'
          have hone := hfits'.1
          omega
      refine h.move (.inr ⟨rfl, ?_, ?_⟩) rfl rfl (fun _ => ⟨hok.1, fun t' _ => hinactive t'⟩)
        ⟨rfl, hcalls, hdepth, hok.2⟩ fun t' _ => (h.fits t').of_inactive (hinactive t') hreturns
      · show s.calls ≤ 1
        omega
      · show s.returns ≤ s.calls
        omega
    · omega
  · rw [if_neg hfirst] at hok
    rw [hexit, if_neg hfirst]
    rcases h.control with ⟨hzero, -⟩ | ⟨hone, hcalls, hreturns⟩
    · exact absurd hzero hfirst
    · exact h.move (.inr ⟨hone, hcalls, hreturns⟩) rfl rfl (by intro h; cases h)
        ⟨hone, show s.calls = 1 by omega, show s.returns = 1 by omega, hdepth⟩ fun t' _ => h.fits t'

theorem run_inv (h : s.Inv kernel) (hok : s.Within kernel (.run t)) (hs : s.run kernel t = some s') :
    s'.Inv kernel := by
  have hfits := h.fits t
  unfold Sys.run at hs
  cases hphase : s.threads t with
  | idle | returned entry =>
    rw [hphase] at hs
    cases hs
  | called entry =>
    rw [hphase] at hs
    cases hs
    exact testControl_inv h hphase (hok entry hphase)
  | starting entry =>
    rw [hphase] at hs hfits
    cases hs
    obtain ⟨hone, hcalls, hdepth, hentry⟩ := hfits
    have hactive : (s.threads t).active = true := by
      rw [hphase]
      rfl
    have hothers := h.others hactive
    have hkernel := h.rttnano t hactive
    have hreturns : s.returns = 0 := by
      rcases h.control with ⟨-, -, hzero⟩ | ⟨-, -, hle⟩ <;> omega
    exact h.move (.inr ⟨hone, show s.calls + 1 ≤ 1 by omega, show s.returns ≤ s.calls + 1 by omega⟩) rfl
      (update_eq_self t s.depth).symm (fun _ => ⟨hkernel, hothers⟩)
      ⟨hone, show s.calls + 1 = 1 by omega, hreturns, hdepth, hentry⟩
      fun t' hne => (h.fits t').of_inactive (hothers t' hne) hreturns
  | running entry =>
    rw [hphase] at hs hfits
    cases hs
    obtain ⟨hone, hcalls, hreturns, hdepth, hentry⟩ := hfits
    have hactive : (s.threads t).active = true := by
      rw [hphase]
      rfl
    have hothers := h.others hactive
    have hkernel := h.rttnano t hactive
    exact h.move (.inr ⟨hone, show s.calls ≤ 1 by omega, show s.returns + 1 ≤ s.calls by omega⟩) rfl
      (update_eq_self t s.depth).symm (fun _ => ⟨hkernel, hothers⟩)
      ⟨hone, hcalls, show s.returns + 1 = 1 by omega, hdepth, hentry⟩
      fun t' hne => (h.fits t').of_inactive (hothers t' hne) hreturns
  | leaving entry =>
    rw [hphase] at hs hfits
    cases hs
    obtain ⟨hone, hcalls, hreturns, hdepth, hentry⟩ := hfits
    have hkernel : kernel = .rttnano := h.rttnano t (by rw [hphase]; rfl)
    have hexit : exitCritical kernel (s.depth t) = entry := by
      rw [hkernel, hdepth, hentry]
      rfl
    rw [hexit]
    exact h.move (.inr ⟨hone, show s.calls ≤ 1 by omega, show s.returns ≤ s.calls by omega⟩) rfl rfl
      (by intro h; cases h) ⟨hone, hcalls, hreturns, rfl⟩ fun t' _ => h.fits t'

theorem step_inv {a : Action T} (h : s.Inv kernel) (hok : s.Within kernel a)
    (hs : s.step kernel a = some s') : s'.Inv kernel := by
  cases a with
  | call t entry =>
    simp only [Sys.step] at hs
    split at hs
    · next hcall =>
      cases hs
      exact h.move h.control rfl rfl (by intro h; cases h) ⟨rfl, hcall.2⟩ fun t' _ => h.fits t'
    · cases hs
  | run t => exact run_inv h hok hs

/--
**In a run within the condition the routine is called once, and nobody returns before it has
returned.** Every call leaves the nesting depth as it has found it.
-/
theorem pthread_once_right (h : Reaches (step kernel) (Within kernel) (start : Sys T) s) :
    s.calls ≤ 1 ∧ ∀ t entry, s.threads t = .returned entry →
      s.calls = 1 ∧ s.returns = 1 ∧ s.depth t = entry := by
  have hinv : s.Inv kernel := h.invariant (P := Sys.Inv kernel) start_inv
    fun s a s' hs hok => step_inv hs hok
  constructor
  · rcases hinv.control with ⟨-, hcalls, -⟩ | ⟨-, hcalls, -⟩ <;> omega
  · intro t entry hphase
    have hfits := hinv.fits t
    rw [hphase] at hfits
    exact hfits.2

/-- Two threads, one after the other, with RT-Thread. -/
theorem pthread_once_right_two : ∃ s : Sys Bool,
    Reaches (step .rttnano) (Within .rttnano) start s ∧ (∀ t, s.threads t = .returned 0) ∧
      s.calls = 1 ∧ ∀ t, s.depth t = 0 := by
  obtain ⟨s, hrun, hreturned⟩ : ∃ s, [.call true 0, .run true, .run true, .run true, .run true,
      .call false 0, .run false].foldlM (guarded (step .rttnano) (Within .rttnano)) start = some s ∧
      ∀ t : Bool, s.threads t = .returned 0 := ⟨_, rfl, by decide⟩
  have h := Reaches.of_guarded _ hrun
  exact ⟨s, h, hreturned, ((pthread_once_right h).2 true 0 (hreturned true)).1,
    fun t => ((pthread_once_right h).2 t 0 (hreturned t)).2.2⟩

/--
With FreeRTOS the call that runs the routine leaves the nesting depth at `0xffffffff`. With either
kernel a second call returns while the routine is still running.
-/
theorem pthread_once_wrong :
    (∃ s : Sys Bool, Reaches (step .freertos) Always start s ∧
      s.threads true = .returned 0 ∧ s.depth true = 2 ^ 32 - 1) ∧
    ∀ kernel, ∃ s : Sys Bool, Reaches (step kernel) Always start s ∧
      s.threads false = .returned 0 ∧ s.returns = 0 := by
  constructor
  · exact ⟨_, Reaches.of_foldlM [.call true 0, .run true, .run true, .run true, .run true] rfl, rfl,
      rfl⟩
  · intro kernel
    exact ⟨_, Reaches.of_foldlM [.call true 0, .run true, .run true, .call false 0, .run false] rfl,
      rfl, rfl⟩

end Gpmx.Pthread.Once
