import Gpmx.Pthread.RwlockMutex

/-!
# The mutex inside a reader/writer lock, over whole runs

Every call has unlocked `rw_mutex` when it returns, whatever it returns, in every run in which no
thread destroys a lock that is in use by its counters. `pthread_rwlock_destroy` on such a lock
returns EBUSY with the mutex locked.
-/

namespace Gpmx.Pthread.Rw

open Infra Option

variable {T : Type} [DecidableEq T] {port : Port} {s s' : State T} {t : T}

/-! ## One step -/

theorem Guarded.call (h : Guarded s) {op : RwCall} (hpc : s.pc t = .idle) :
    Guarded (s.call t op) := by
  have hfree := h.not_holder hpc rfl
  unfold State.call
  split
  · exact h.same rfl rfl fun _ => hfree
  · split <;> exact h.same rfl rfl fun _ => hfree

theorem Guarded.step (h : Guarded s) {a : Act T} (hw : Within s a) (hs : step port s a = some s') :
    Guarded s' := by
  cases a with simp only [Rw.step] at hs
  | call t op =>
    split at hs
    · next hc =>
      cases hs
      exact h.call hc.1
    · cases hs
  | init t =>
    split at hs
    · next op hpc =>
      cases hs
      exact h.goOn rfl (by rintro u ⟨⟩) fun _ => nofun
    · cases hs
  | lock t result =>
    split at hs
    · next op hpc =>
      have hfree := h.not_holder hpc rfl
      split at hs
      · cases hs
        exact h.same rfl rfl fun _ => hfree
      · split at hs
        · cases hs
          exact h.goOn rfl (fun u hu => .inl (some.inj hu).symm) nofun
        · cases hs
    · cases hs
  | body t signal =>
    split at hs
    · next op hpc =>
      cases hs
      have hno : op = .destroy → ¬InUse s.rw.counters := by
        rintro rfl
        exact hw hpc
      obtain ⟨pc, hin, hpc', hm⟩ : ∃ pc, pc.outside = false ∧
          (s.body port t signal op).pc = Function.update s.pc t pc ∧
          (s.body port t signal op).rw.rwMutex = s.rw.rwMutex := body_cases hno
      exact h.same hpc' hm fun hout => absurd (hin.symm.trans hout) Bool.false_ne_true
    · cases hs
  | condReturn t result =>
    split at hs
    · cases hs
      exact h.same rfl rfl nofun
    · cases hs
  | condRelease t =>
    split at hs
    · cases hs
      exact h.goOn rfl (fun u hu => .inr (mutexUnlock_other hu)) fun _ => mutexUnlock_ne port t _
    · cases hs
  | wake t result =>
    split at hs
    · next op hpc =>
      cases hs
      have hfree := h.not_holder hpc rfl
      exact h.same rfl rfl fun _ => hfree
    · cases hs
  | relock t result =>
    split at hs
    · split at hs
      · cases hs
        exact h.same rfl rfl nofun
      · split at hs
        · cases hs
          exact h.goOn rfl (fun u hu => .inl (some.inj hu).symm) nofun
        · cases hs
    · cases hs
  | resume t =>
    split at hs
    · next op result hpc =>
      cases hs
      obtain ⟨pc, hin, hpc', hm⟩ := resume_cases s t result op
      exact h.same hpc' hm fun hout => absurd (hin.symm.trans hout) Bool.false_ne_true
    · cases hs
  | unlock t =>
    split at hs
    · next op result hpc =>
      cases hs
      obtain ⟨hpc', hm⟩ : (s.unlock port t op result).pc = Function.update s.pc t .idle ∧
        (s.unlock port t op result).rw.rwMutex = mutexUnlock port t s.rw.rwMutex :=
          unlock_eq s t op result
      refine h.goOn hpc' (fun u hu => ?_) fun _ => ?_
      · rw [hm] at hu
        exact .inr (mutexUnlock_other hu)
      · rw [hm]
        exact mutexUnlock_ne port t _
    · cases hs
  | conds readers writers =>
    cases hs
    exact h

/-! ## Every run -/

theorem reaches_guarded {initialized : Bool} {readers writers : CondVar T} {counters : Rwlock}
    (hr : Reaches (step port) Within (start initialized readers writers counters) s) :
    Guarded s := by
  refine hr.invariant ?_ ?_
  · rintro t - ⟨⟩
  · intro s a s' h hw hs
    exact h.step hw hs

/--
**Every call returns with the mutex unlocked, unless it destroys a lock in use.** From any lock
with a free mutex and in every run within the limits, no thread that is out of its call holds the
mutex, and nobody holds it when all threads are. The section of `pthread_rwlock_destroy` that is
beyond the limits returns EBUSY at once with the mutex as locked as it was; and the one within
them, when EBUSY comes out of it, has only the mutex of the lock to unlock.
-/
theorem rwlock_released {initialized : Bool} {readers writers : CondVar T} {counters : Rwlock}
    (hr : Reaches (step port) Within (start initialized readers writers counters) s) :
    (∀ t, s.pc t = .idle → s.rw.rwMutex ≠ some t) ∧
    ((∀ t, s.pc t = .idle) → s.rw.rwMutex = none) ∧
    (∀ t signal s', s.pc t = .body .destroy → step port s (.body t signal) = some s' →
      (InUse s.rw.counters → s' = s.ret t EBUSY) ∧
      (¬InUse s.rw.counters → s'.rw = s.rw ∧ ∃ result, s'.pc t = .unlock .destroy result)) ∧
    ∀ t s', s.pc t = .unlock .destroy EBUSY → step port s (.unlock t) = some s' →
      s' = (s.setMutex (mutexUnlock port t s.rw.rwMutex)).ret t EBUSY := by
  have h := reaches_guarded hr
  have hidle : ∀ t, s.pc t = .idle → s.rw.rwMutex ≠ some t := fun t ht => h.not_holder ht rfl
  refine ⟨hidle, ?_, ?_, ?_⟩
  · intro hall
    cases hm : s.rw.rwMutex with
    | none => rfl
    | some t => exact absurd hm (hidle t (hall t))
  · intro t signal s' hpc hs
    simp only [step, hpc] at hs
    obtain rfl := some.inj hs
    refine ⟨destroyBody_inUse, fun hno => ?_⟩
    obtain ⟨result, hres⟩ : ∃ result, s.destroyBody port t = s.goto t (.unlock .destroy result) :=
      destroyBody_free hno
    show (s.destroyBody port t).rw = s.rw ∧ ∃ result, (s.destroyBody port t).pc t = _
    rw [hres]
    exact ⟨rfl, result, Function.update_self ..⟩
  · intro t s' hpc hs
    simp only [step, hpc] at hs
    obtain rfl := some.inj hs
    have hbusy : ¬(RwCall.destroy = .destroy ∧ EBUSY = 0) := by decide
    unfold State.unlock
    rw [if_neg hbusy]

def fresh : State Bool := start true condInit condInit pthreadRwlockInit

instance : ∀ (s : State Bool) (a : Act Bool), Decidable (Within s a)
  | s, .body t _ => inferInstanceAs (Decidable (s.pc t = .body .destroy → ¬InUse s.rw.counters))
  | _, .call _ _ | _, .init _ | _, .lock _ _ | _, .condReturn _ _ | _, .condRelease _
  | _, .wake _ _ | _, .relock _ _ | _, .resume _ | _, .unlock _ | _, .conds _ _ => isTrue trivial

def timesOut : List (Act Bool) :=
  [.call true (.take .wrlock), .lock true 0, .body true 0, .unlock true,
    .call false (.take .timedrdlock), .lock false 0, .body false 0, .condRelease false,
    .wake false ETIMEDOUT, .relock false 0, .resume false, .unlock false]

theorem rwlock_released_timeout : ∃ s, Reaches (step .freeRtos) Within fresh s ∧
    s.returned false = some ETIMEDOUT ∧ s.rw.rwMutex = none := by
  obtain ⟨s, hs, hret, ht, hf⟩ : ∃ s, timesOut.foldlM (guarded (step .freeRtos) Within) fresh =
      some s ∧ s.returned false = some ETIMEDOUT ∧ s.pc true = .idle ∧ s.pc false = .idle :=
    ⟨_, rfl, rfl, rfl, rfl⟩
  have hr : Reaches (step .freeRtos) Within fresh s := .of_guarded timesOut hs
  obtain ⟨-, hfree, -⟩ := rwlock_released hr
  refine ⟨s, hr, hret, hfree fun t => ?_⟩
  cases t with
  | true => exact ht
  | false => exact hf

def destroysInUse : List (Act Bool) :=
  [.call true (.take .rdlock), .lock true 0, .body true 0, .unlock true,
    .call true .destroy, .lock true 0, .body true 0]

/-- It gets EBUSY and holds the mutex, out of the call; another thread that wants to read cannot
lock it, on either kernel. -/
theorem rwlock_not_released :
    (∃ s, Reaches (step .freeRtos) Always fresh s ∧ s.returned true = some EBUSY ∧
      s.pc true = .idle ∧ s.rw.rwMutex = some true ∧
      ∃ s', step .freeRtos s (.call false (.take .rdlock)) = some s' ∧
        step .freeRtos s' (.lock false 0) = none) ∧
    ∃ s, Reaches (step .rtThread) Always fresh s ∧ s.returned true = some EBUSY ∧
      s.pc true = .idle ∧ s.rw.rwMutex = some true ∧
      ∃ s', step .rtThread s (.call false (.take .rdlock)) = some s' ∧
        step .rtThread s' (.lock false 0) = none :=
  ⟨⟨_, .of_foldlM destroysInUse rfl, rfl, rfl, rfl, _, rfl, rfl⟩,
    ⟨_, .of_foldlM destroysInUse rfl, rfl, rfl, rfl, _, rfl, rfl⟩⟩

end Gpmx.Pthread.Rw
