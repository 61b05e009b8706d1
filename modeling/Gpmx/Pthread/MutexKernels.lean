import Gpmx.Pthread.MutexRuns
import Gpmx.Pthread.RtMutexRuns

/-!
# Mutexes on both kernels

What `pthread_mutexattr_settype` can set, and what the mutex does with it, on FreeRTOS and on RT-Thread.
-/

namespace Gpmx.Pthread.Mutex

open Infra

/--
**Mutexes exclude and check their ownership.** `pthread_mutexattr_settype` sets a normal and an
error-checking type. On FreeRTOS every state is correct of a run in which a normal mutex is unlocked by its
holder only; on RT-Thread, of one in which no call begins while the mutex is being initialised.
-/
theorem mutexes_correct {T : Type} [DecidableEq T] :
    (∀ attr type, Documented type → type ≠ PTHREAD_MUTEX_RECURSIVE →
      (pthreadMutexattrSettype attr type).1 = 0 ∧ mtype (pthreadMutexattrSettype attr type).2 = type) ∧
    (∀ init (s : State T), Documented (initType init) → Reaches step Allowed (start init) s →
      Correct view (initType init) s) ∧
    ∀ prio init (s : RtThread.State T), Documented (initType init) →
      Reaches RtThread.step RtThread.Allowed (RtThread.start prio init) s →
      Correct RtThread.view (initType init) s :=
  ⟨fun _ _ => pthreadMutexattrSettype_type, fun _ _ => reaches_correct,
    fun _ _ _ => RtThread.reaches_correct⟩

def lockedRun : List (Act Bool) :=
  [.call true .lock, .call false .trylock, .goOn true, .goOn false, .goOn true, .goOn true, .goOn true,
    .goOn false]

def waitedRun : List (RtThread.Act Bool) :=
  [.call true .lock, .goOn true, .goOn true, .goOn true, .goOn true, .call false .lock, .goOn false,
    .goOn false]

theorem mutexes_correct_locked :
    (pthreadMutexattrSettype 0x10 PTHREAD_MUTEX_ERRORCHECK).1 = 0 ∧
    (∃ s, Reaches step Allowed (start none) s ∧ s.depth true = 1 ∧ Correct view PTHREAD_MUTEX_NORMAL s) ∧
    ∃ s : RtThread.State Bool, Reaches RtThread.step RtThread.Allowed (RtThread.start (fun _ => 10) none) s ∧
      s.depth true = 1 ∧ Correct RtThread.view PTHREAD_MUTEX_NORMAL s :=
  ⟨((mutexes_correct (T := Bool)).1 0x10 _ (.inr (.inl rfl)) (by decide)).1,
    ⟨_, .of_guarded lockedRun rfl, rfl, mutexes_correct.2.1 none _ (.inl rfl) (.of_guarded lockedRun rfl)⟩,
    ⟨_, .of_guarded waitedRun rfl, rfl,
      mutexes_correct.2.2 (fun _ => 10) none _ (.inl rfl) (.of_guarded waitedRun rfl)⟩⟩

def triesAgain : List (Act Bool) :=
  [.call true .lock, .goOn true, .goOn true, .goOn true, .goOn true, .call true .trylock, .goOn true]

def firstUsers : List (RtThread.Act Bool) :=
  [.call false .lock, .call true .lock, .goOn false, .goOn false, .goOn false, .goOn false,
    .goOn true, .goOn true, .goOn true, .goOn true]

def unlocksOther : List (Act Bool) :=
  [.call true .lock, .goOn true, .goOn true, .goOn true, .goOn true, .call false .unlock, .goOn false,
    .goOn false, .call false .lock, .goOn false, .goOn false, .goOn false]

def heldLock (n : Nat) : RtThread.RtMutex Bool :=
  { suspend_thread := [], value := 0, original_priority := 10, hold := n, owner := some true }

def held (n : Nat) : RtThread.State Bool where
  mutex := { attr := 2, lock := some (heldLock n) }
  pc _ := .idle
  current_priority _ := 10
  depth t := if t then n else 0
  fault := false

theorem held_lock {n : Nat} (hn : n < RtThread.RT_MUTEX_HOLD_MAX) :
    Reaches RtThread.step Always (held n) (held (n + 1)) := by
  have hrec : mtype 2 = PTHREAD_MUTEX_RECURSIVE := by decide
  have hcall : RtThread.step (held n) (.call true .lock) = some ((held n).goto true (.check .lock)) := rfl
  have hcheck : RtThread.step ((held n).goto true (.check .lock)) (.goOn true) =
      some (((held n).goto true (.check .lock)).goto true (.take .lock)) := by
    show some (ite _ _ _ : RtThread.State Bool × Option Int).1 = _
    rw [if_neg fun hno => hno.2 hrec]
  have htake : RtThread.step (((held n).goto true (.check .lock)).goto true (.take .lock)) (.goOn true) =
      some (held (n + 1)) := by
    have hok : RtThread.rtMutexTake (heldLock n) true (fun _ => 10) = .ok (heldLock (n + 1)) := by
      exact (if_pos rfl).trans (if_pos hn)
    generalize hs : ((held n).goto true (.check .lock)).goto true (.take .lock) = s
    have hpc : s.pc true = .take .lock := by
      rw [← hs]
      rfl
    have hlock : s.mutex.lock = some (heldLock n) := by
      rw [← hs]
      rfl
    have hprio : s.current_priority = fun _ => 10 := by
      rw [← hs]
      rfl
    unfold RtThread.step RtThread.act
    dsimp only
    rw [hpc]
    unfold RtThread.take
    rw [hlock]
    dsimp only
    rw [hprio, hok, ← hs]
    refine congrArg some ?_
    show RtThread.State.mk _ _ _ _ _ = RtThread.State.mk _ _ _ _ _
    congr 1
    · funext t
      cases t <;> rfl
    · funext t
      cases t <;> rfl
  exact ((Reaches.refl.tail trivial hcall).tail trivial hcheck).tail trivial htake

theorem held_reaches {n : Nat} (hn : n < RtThread.RT_MUTEX_HOLD_MAX) :
    Reaches RtThread.step Always (RtThread.start (fun _ => 10) (some 2)) (held (n + 1)) := by
  induction n with
  | zero =>
    refine .of_foldlM [.call true .lock, .goOn true, .goOn true] (congrArg some ?_)
    show RtThread.State.mk _ _ _ _ _ = RtThread.State.mk _ _ _ _ _
    congr 1
    · funext t
      cases t <;> rfl
    · funext t
      cases t <;> rfl
  | succ n ih => exact (ih (by omega)).trans (held_lock hn)

theorem mutexes_fail :
    (pthreadMutexattrSettype pthreadDefaultMutexattr PTHREAD_MUTEX_RECURSIVE).1 = EINVAL ∧
    (∃ s : RtThread.State Bool, Reaches RtThread.step Always (RtThread.start (fun _ => 10) none) s ∧
      0 < s.depth false ∧ 0 < s.depth true) ∧
    (∃ s : State Bool, Reaches step Always (start none) s ∧ 0 < s.depth false ∧ 0 < s.depth true) ∧
    (∃ s s' : State Bool, Reaches step Always (start none) s ∧ s.pc true = .take .trylock ∧
      act s (.goOn true) = some (s', some EBUSY) ∧ ∀ u, 0 < s.depth u → u = true) ∧
    ∃ s s' : RtThread.State Bool, Reaches RtThread.step Always (RtThread.start (fun _ => 10) (some 2)) s ∧
      s.pc true = .take .trylock ∧ RtThread.act s (.goOn true) = some (s', some EBUSY) ∧
      ∀ u, 0 < s.depth u → u = true := by
  refine ⟨rfl, ⟨_, .of_foldlM firstUsers rfl, by decide, by decide⟩,
    ⟨_, .of_foldlM unlocksOther rfl, by decide, by decide⟩,
    ⟨_, _, .of_foldlM triesAgain rfl, rfl, rfl, fun u hu => ?_⟩,
    ⟨_, _, (held_reaches (n := 254) (by decide)).trans (.of_foldlM [.call true .trylock, .goOn true] rfl), rfl,
      rfl, fun u hu => ?_⟩⟩
  · cases u with
    | false => cases hu
    | true => rfl
  · cases u with
    | false => cases hu
    | true => rfl

end Gpmx.Pthread.Mutex
