import Gpmx.Pthread.ThreadSteps

/-!
# Threads: the life cycle over whole runs

`life_cycle` — in a run whose steps are all `sound`, a thread is joined at most once, after its end
and with its result, and its block is freed once and not used afterwards.
-/

namespace Gpmx.Pthread.Threads

open Infra State List

variable {β : Type}

variable {s s' : State β}

theorem inv_start : Inv (start : State β) where
  calm := ⟨rfl, fun _ => rfl, rfl, fun _ hr => nomatch hr⟩
  fits p := by
    have hnobody : ∀ t, ((start : State β).pc t).Off p := by
      intro t
      cases t <;> exact ⟨nofun, nofun⟩
    constructor
    · exact fun _ => rfl
    · exact ⟨rfl, rfl⟩
    · intro t
      have hblk : (start : State β).blk p = none := rfl
      rw [hblk]
      simp [(hnobody t).1, (hnobody t).2]
    · exact fun _ ho => nomatch ho
    · exact fun t ht => absurd ht (hnobody t).2
    · simp [start]
    · exact fun _ hv => nomatch hv
    · exact fun _ hc => nomatch hc
  joins := nodup_nil
  frees := nodup_nil

theorem Inv.runs (h : Inv s) (t : Task) : Inv { s with running := t } :=
  h.quiet ⟨h.calm.depth, h.calm.entry, h.calm.fault, h.calm.returns⟩
    (fun _ => same_of_eq rfl rfl rfl rfl rfl rfl) rfl rfl

theorem self_thread {t : Task} {p : Nat} (h : pthreadSelf t = some p) : t = .thread p := by
  cases t with
  | other k => cases h
  | thread q =>
    cases h
    rfl

theorem Inv.goOn (h : Inv s) {t : Task} (hsound : sound s (.goOn t) = true) (hs : goOn t s = some s') :
    Inv s' := by
  unfold sound at hsound
  dsimp only at hsound
  unfold Threads.goOn at hs
  split at hs
  · rename_i p hpc
    cases hs
    rw [hpc] at hsound
    obtain ⟨o, hblk, hok⟩ := (Option.any_eq_true _ _).mp hsound
    simp only [Bool.and_eq_true, Bool.not_eq_true', Bool.or_eq_true, decide_eq_true_eq] at hok
    exact h.joinTakeMutex hpc hblk hok.1 fun hself => hok.2.resolve_left fun hne => hne hself
  · rename_i p hpc
    exact h.joinTakeBarrier hpc hs
  · rename_i p hpc
    cases hs
    exact h.joinSection hpc
  · rename_i p hpc
    cases hs
    rw [hpc] at hsound
    obtain ⟨o, hblk, hok⟩ := (Option.any_eq_true _ _).mp hsound
    simp only [Bool.and_eq_true, decide_eq_true_eq] at hok
    exact h.detachSection hpc hblk hok.1 hok.2
  · rename_i p hpc hself
    cases hs
    rw [self_thread hself] at hpc
    exact h.prvExitThread hpc
  · rename_i p hpc hself
    cases hs
    rw [self_thread hself] at hpc
    exact h.exitSuspend hpc
  · rename_i p hpc hself
    cases hs
    rw [self_thread hself] at hpc
    exact h.exitFree hpc
  · rename_i p hpc hself
    cases hs
    rw [self_thread hself] at hpc
    exact h.exitDelete hpc
  · cases hs

theorem Inv.act (h : Inv s) {a : Act β} (hsound : sound s a = true) (hs : act s a = some s') : Inv s' := by
  unfold Threads.act at hs
  cases a with
  | create t detached creation =>
    dsimp only at hs
    split at hs
    · rename_i hpc
      cases hs
      exact h.pthreadCreate hpc detached creation
    · cases hs
  | join t p =>
    dsimp only at hs
    split at hs
    · rename_i hpc
      cases hs
      obtain ⟨o, hblk⟩ := Option.isSome_iff_exists.mp hsound
      exact h.pthreadJoin hpc hblk
    · cases hs
  | detach t p =>
    dsimp only at hs
    split at hs
    · rename_i hpc
      cases hs
      obtain ⟨o, hblk, hok⟩ := (Option.any_eq_true _ _).mp hsound
      exact h.pthreadDetach hpc hblk (by simpa using hok)
    · cases hs
  | threadEnd p value =>
    dsimp only at hs
    split at hs
    · rename_i hpc
      cases hs
      exact h.threadEnd hpc value
    · cases hs
  | goOn t => exact h.goOn hsound hs

theorem Inv.step (h : Inv s) {a : Act β} (hsound : Sound s a) (hs : step s a = some s') : Inv s' := by
  unfold Threads.step at hs
  split at hs
  · have hsound' : sound { s with running := a.task } a = true := by
      cases a <;> exact hsound
    exact (h.runs a.task).act hsound' hs
  · cases hs

theorem inv_reaches (h : Reaches step Sound start s) : Inv s :=
  h.invariant inv_start fun _ _ _ hinv hok hs => hinv.step hok hs

structure LifeCycle (s : State β) : Prop where
  joinedOnce : (s.joins.map Prod.fst).Nodup
  joinedEnded : ∀ p v, (p, v) ∈ s.joins → v ≠ none ∧ s.result p = v
  freedOnce : (s.frees.map Prod.fst).Nodup
  freedJoined : ∀ p, (p, Cause.joined) ∈ s.frees ↔ p ∈ s.joins.map Prod.fst
  freedEnded : ∀ p c, (p, c) ∈ s.frees → c = .createFailed ∨ s.result p ≠ none
  freed : ∀ p, s.pc (.thread p) = .suspended ∨ s.pc (.thread p) = .deleted →
    p ∈ s.frees.map Prod.fst ∨ ∃ o, s.blk p = some o ∧ o.detached = false
  unused : s.fault = false
  depth : ∀ r ∈ s.returns, r.exit = r.entry

theorem Inv.lifeCycle (h : Inv s) : LifeCycle s where
  joinedOnce := h.joins
  joinedEnded p v hv := ((h.fits p).joined v hv).2.symm
  freedOnce := h.frees
  freedJoined p := by
    refine ⟨(h.fits p).causes .joined, fun hp => ?_⟩
    obtain ⟨⟨p', v⟩, hv, rfl⟩ := mem_map.mp hp
    exact ((h.fits p').joined v hv).1
  freedEnded p c hc := by
    have hcause := (h.fits p).causes c hc
    cases c with
    | joined =>
      obtain ⟨⟨p', v⟩, hv, rfl⟩ := mem_map.mp hcause
      obtain ⟨_, hresult, hne⟩ := (h.fits p').joined v hv
      exact .inr (by rw [hresult]; exact hne)
    | createFailed => exact .inl rfl
    | detachedEnded | endedDetached => exact .inr hcause
  freed p hp := by
    have hf := h.fits p
    have hstage := hf.stage
    rcases hp with hp | hp
    · rw [hp] at hstage
      obtain ⟨o, v, hblk, _, _, hdetached⟩ := hstage
      exact .inr ⟨o, hblk, hdetached⟩
    · rw [hp] at hstage
      refine .inl (not_not.mp fun hnot => ?_)
      rcases hf.kept.mpr hnot with hblk | hnext
      · exact hblk hstage.1
      · have habsent := hf.unborn hnext
        rw [hp] at habsent
        cases habsent
  unused := h.calm.fault
  depth := h.calm.returns

/-- The step begins a join or a detach, or ends one with an error. -/
def Fails (s s' : State β) : Act β → Prop
  | .join _ _ => True
  | .detach _ _ => True
  | .goOn _ => ∃ r, s'.returns = r :: s.returns ∧ r.code ≠ 0
  | _ => False

theorem goto_quiet (t : Task) (pc : Pc) : (s.goto t pc).blk = s.blk ∧
    ∀ t', t' ≠ t → (s.goto t pc).pc t' = s.pc t' :=
  ⟨rfl, fun _ ht => Function.update_of_ne ht _ _⟩

theorem leave_quiet (t : Task) (code : Nat) : (s.leave t code).blk = s.blk ∧
    ∀ t', t' ≠ t → (s.leave t code).pc t' = s.pc t' :=
  ⟨rfl, fun _ ht => Function.update_of_ne ht _ _⟩

theorem joinTakeMutex_fails {t : Task} {p : Nat} {o : PthreadObj β} (hblk : s.blk p = some o)
    (hself : pthreadSelf t = some p → o.joinMutex ≠ none) {r : Return}
    (hr : (joinTakeMutex t p s).returns = r :: s.returns) :
    (joinTakeMutex t p s).blk = s.blk ∧ ∀ t', t' ≠ t → (joinTakeMutex t p s).pc t' = s.pc t' := by
  unfold joinTakeMutex withObj at hr ⊢
  rw [hblk] at hr ⊢
  dsimp only at hr ⊢
  split at hr
  · rename_i hmutex
    rw [if_pos hmutex]
    exact leave_quiet t _
  · rename_i hmutex
    have hne : pthreadSelf t ≠ some p := fun hs => hself hs (by simpa using hmutex)
    rw [if_neg hne] at hr
    exact absurd hr.symm (cons_ne_self r _)

theorem section_returns {r : Return} {n d : UInt32} {l : List Return} (h : ⟨n, d, 0⟩ :: l = r :: l) :
    r.code = 0 := by
  cases h
  rfl

theorem prvExitThread_returns (p : Nat) : (prvExitThread p s).returns = s.returns := by
  unfold prvExitThread withObj
  dsimp only
  split
  · rfl
  · split <;> rfl

theorem exitFree_returns (p : Nat) : (exitFree p s).returns = s.returns := by
  unfold exitFree withObj
  split <;> rfl

theorem goOn_fails (h : Inv s) {t : Task} (hsound : sound s (.goOn t) = true)
    (hs : goOn t s = some s') {r : Return} (hr : s'.returns = r :: s.returns)
    (hcode : r.code ≠ 0) : s'.blk = s.blk ∧ ∀ t', t' ≠ t → s'.pc t' = s.pc t' := by
  unfold sound at hsound
  dsimp only at hsound
  unfold goOn at hs
  split at hs
  · rename_i p hpc
    cases hs
    rw [hpc] at hsound
    obtain ⟨o, hblk, hok⟩ := (Option.any_eq_true _ _).mp hsound
    simp only [Bool.and_eq_true, Bool.not_eq_true', Bool.or_eq_true, decide_eq_true_eq] at hok
    exact joinTakeMutex_fails hblk (fun hself => hok.2.resolve_left fun hne => hne hself) hr
  · rename_i p hpc
    obtain ⟨o, hblk, -⟩ := (h.fits p).holder (.inl hpc)
    unfold joinTakeBarrier at hs
    rw [hblk] at hs
    dsimp only at hs
    split at hs
    · cases hs
      exact absurd hr.symm (cons_ne_self r _)
    · cases hs
  · rename_i p hpc
    cases hs
    obtain ⟨o, hblk, -⟩ := (h.fits p).holder (.inr hpc)
    have hblk' : (vTaskSuspendAll s).blk p = some o := hblk
    unfold joinSection withObj at hr
    dsimp only at hr
    rw [hblk'] at hr
    exact absurd (section_returns hr) hcode
  · rename_i p hpc
    cases hs
    rw [hpc] at hsound
    obtain ⟨o, hblk, -⟩ := (Option.any_eq_true _ _).mp hsound
    have hblk' : (vTaskSuspendAll s).blk p = some o := hblk
    have hstage := (h.fits p).stage
    rw [hblk] at hstage
    have hlive : eDeleted ((vTaskSuspendAll s).pc (.thread p)) = false := stage_not_deleted hstage
    unfold detachSection withObj at hr
    dsimp only at hr
    rw [hblk'] at hr
    dsimp only at hr
    rw [hlive] at hr
    split at hr
    · rename_i hno
      cases hno
    · split at hr <;> exact absurd (section_returns hr) hcode
  · rename_i p hpc hself
    cases hs
    rw [prvExitThread_returns] at hr
    exact absurd hr.symm (cons_ne_self r _)
  · rename_i p hpc hself
    cases hs
    exact absurd hr.symm (cons_ne_self r _)
  · rename_i p hpc hself
    cases hs
    rw [exitFree_returns] at hr
    exact absurd hr.symm (cons_ne_self r _)
  · rename_i p hpc hself
    cases hs
    exact absurd hr.symm (cons_ne_self r _)
  · cases hs

theorem act_fails (h : Inv s) {a : Act β} (hsound : sound s a = true) (hs : act s a = some s')
    (hf : Fails s s' a) : s'.blk = s.blk ∧ ∀ t, t ≠ a.task → s'.pc t = s.pc t := by
  unfold act at hs
  cases a with
  | create t detached creation | threadEnd p value => cases hf
  | join t p =>
    dsimp only at hs
    split at hs
    · cases hs
      obtain ⟨o, hblk⟩ := Option.isSome_iff_exists.mp hsound
      have hblk' : (s.enter t).blk p = some o := hblk
      unfold pthreadJoin withObj
      dsimp only
      rw [hblk']
      dsimp only
      split
      · exact leave_quiet t _
      · exact goto_quiet t _
    · cases hs
  | detach t p =>
    dsimp only at hs
    split at hs
    · cases hs
      obtain ⟨o, hblk, hok⟩ := (Option.any_eq_true _ _).mp hsound
      have hblk' : (s.enter t).blk p = some o := hblk
      unfold pthreadDetach withObj
      dsimp only
      rw [hblk']
      dsimp only
      split
      · exact leave_quiet t _
      · exact goto_quiet t _
    · cases hs
  | goOn t =>
    obtain ⟨r, hr, hcode⟩ := hf
    exact goOn_fails h hsound hs hr hcode

/--
**The life cycle of threads.** In every state of a run whose steps are all sound, a thread has been
joined at most once, after its end and with its result; its block has been freed at most once, by the
join, by the detach of the ended thread or by the end of the detached one, and where it has ended and
nobody can join it, it has been freed; no block was used that was not there; and every call has left
the scheduler as it found it. A join or detach that fails changes nothing.
-/
theorem life_cycle (h : Reaches step Sound start s) : LifeCycle s ∧
    ∀ a s', Sound s a → step s a = some s' → Fails s s' a →
      s'.blk = s.blk ∧ ∀ t, t ≠ a.task → s'.pc t = s.pc t := by
  have hinv := inv_reaches h
  refine ⟨hinv.lifeCycle, fun a s' hsound hs hf => ?_⟩
  unfold step at hs
  split at hs
  · have hsound' : sound { s with running := a.task } a = true := by
      cases a <;> exact hsound
    have hf' : Fails { s with running := a.task } s' a := by
      cases a <;> exact hf
    exact act_fails (hinv.runs a.task) hsound' hs hf'
  · cases hs

def joinedRun : List (Act Nat) :=
  [.create (.other 0) false .created, .join (.other 0) 0, .goOn (.other 0), .threadEnd 0 7,
    .goOn (.thread 0), .goOn (.other 0), .goOn (.other 0)]

theorem life_cycle_joined : ∃ s : State Nat, Reaches step Sound start s ∧ s.joins = [(0, some 7)] ∧
    LifeCycle s :=
  ⟨_, .of_guarded joinedRun rfl, rfl, (life_cycle (.of_guarded joinedRun rfl)).1⟩

def detachTwice : List (Act Nat) := [.create (.other 0) true .created, .detach (.other 0) 0]

def detachWaited : List (Act Nat) :=
  [.create (.other 0) false .created, .join (.other 0) 0, .goOn (.other 0), .detach (.other 1) 0,
    .goOn (.other 1), .goOn (.other 0), .goOn (.other 0)]

def detachEnding : List (Act Nat) :=
  [.create (.other 0) false .created, .threadEnd 0 7, .goOn (.thread 0), .detach (.other 0) 0,
    .goOn (.other 0), .goOn (.thread 0)]

def joinSelf : List (Act Nat) := [.create (.other 0) false .created, .join (.thread 0) 0]

theorem threads_misused :
    (∃ s : State Nat, Reaches step Always start s ∧ ⟨0, 0xffffffff, EDEADLK⟩ ∈ s.returns) ∧
    (∃ s : State Nat, Reaches step Always start s ∧ s.joins = [(0, none)] ∧ s.result 0 = none) ∧
    (∃ s : State Nat, Reaches step Always start s ∧ s.pc (.thread 0) = .suspended ∧ s.frees = [] ∧
      ∃ o, s.blk 0 = some o ∧ o.detached = true) ∧
    ∃ s s' : State Nat, Reaches step Always start s ∧ step s (.goOn (.thread 0)) = some s' ∧
      Fails s s' (.goOn (.thread 0)) ∧ s'.blk ≠ s.blk := by
  refine ⟨⟨_, .of_foldlM detachTwice rfl, ?_⟩, ⟨_, .of_foldlM detachWaited rfl, rfl, rfl⟩,
    ⟨_, .of_foldlM detachEnding rfl, rfl, rfl, _, rfl, rfl⟩,
    ⟨_, _, .of_foldlM joinSelf rfl, rfl, ⟨⟨0, 0, EDEADLK⟩, rfl, by decide⟩, fun hblk => ?_⟩⟩
  · exact mem_cons_self
  · have hmutex := congrArg (fun b => (b 0).bind PthreadObj.joinMutex) hblk
    cases hmutex

end Gpmx.Pthread.Threads
