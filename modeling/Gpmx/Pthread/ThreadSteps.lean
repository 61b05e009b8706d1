import Gpmx.Pthread.ThreadInv

/-!
# Threads: every sound step keeps what is kept

* `sound` — the steps that do not reach a defect
* `Inv.pthreadJoin` and the like — one lemma for each step
-/

namespace Gpmx.Pthread.Threads

open Infra State Function

variable {β : Type}

def sound (s : State β) : Act β → Bool
  | .create _ _ _ => true
  | .join _ p => (s.blk p).isSome
  | .detach _ p => (s.blk p).any fun o => !o.detached
  | .threadEnd _ _ => true
  | .goOn t =>
    match s.pc t with
    | .joinMutex p =>
      (s.blk p).any fun o => !o.detached && (pthreadSelf t ≠ some p || o.joinMutex ≠ none)
    | .detachSection p =>
      (s.blk p).any fun o => o.joinMutex = none && s.pc (.thread p) ≠ .exitSuspend
    | _ => true

def Sound (s : State β) (a : Act β) : Prop := sound s a = true

instance (s : State β) (a : Act β) : Decidable (Sound s a) := inferInstanceAs (Decidable (_ = true))

/-! ## Steps -/

section Steps

variable {s : State β} {t : Task} {q : Nat} {o : PthreadObj β}

theorem Calm.goto (h : Calm s) (pc : Pc) : Calm (s.goto t pc) := ⟨h.depth, h.entry, h.fault, h.returns⟩

theorem Inv.enter (h : Inv s) : Inv (s.enter t) :=
  h.quiet h.calm.enter (fun _ => same_of_eq rfl rfl rfl rfl rfl rfl) rfl rfl

theorem Inv.leave (h : Inv s) (hoff : ∀ p, (s.pc t).Off p) (halive : (s.pc t).alive = true) (code : Nat) :
    Inv (s.leave t code) :=
  h.quiet (h.calm.leave code) (fun p => same_leave (hoff p) code (.inr halive)) rfl rfl

variable {pc : Pc} {r : Option β}

theorem Inv.goto (h : Inv s) (hoff : ∀ p, (s.pc t).Off p) (hoff' : ∀ p, pc.Off p)
    (halive : (s.pc t).alive = true) (halive' : pc.alive = true) : Inv (s.goto t pc) :=
  h.quiet (h.calm.goto pc) (fun p => same_goto t pc (hoff p) (hoff' p) (.inr ⟨halive, halive'⟩)) rfl rfl

theorem Inv.pthreadJoin (h : Inv s) (hpc : s.pc t = .user) (hblk : s.blk q = some o) :
    Inv (pthreadJoin t q s) := by
  have hpc' : (s.enter t).pc t = .user := hpc
  have hblk' : (s.enter t).blk q = some o := hblk
  have hoff : ∀ p, ((s.enter t).pc t).Off p := by
    intro p
    rw [hpc']
    exact ⟨nofun, nofun⟩
  have halive : ((s.enter t).pc t).alive = true := by
    rw [hpc']
    rfl
  unfold Threads.pthreadJoin withObj
  dsimp only
  rw [hblk']
  dsimp only
  split
  · exact h.enter.leave hoff halive _
  · exact h.enter.goto hoff (fun _ => ⟨nofun, nofun⟩) halive rfl

theorem Inv.pthreadDetach (h : Inv s) (hpc : s.pc t = .user) (hblk : s.blk q = some o)
    (hdetached : o.detached = false) : Inv (pthreadDetach t q s) := by
  have hpc' : (s.enter t).pc t = .user := hpc
  have hblk' : (s.enter t).blk q = some o := hblk
  unfold Threads.pthreadDetach withObj
  dsimp only
  rw [hblk']
  dsimp only
  rw [if_neg (by simp [hdetached])]
  refine h.enter.goto (fun p => ?_) (fun _ => ⟨nofun, nofun⟩) ?_ rfl
  · rw [hpc']
    exact ⟨nofun, nofun⟩
  · rw [hpc']
    rfl

theorem Fits.nobody (h : Fits s q) (hblk : s.blk q = some o) (hmutex : o.joinMutex = none) (t : Task) :
    (s.pc t).Off q := by
  have hnot : ¬(s.pc t = .joinBarrier q ∨ s.pc t = .joinSection q) := by
    rw [h.joiner t, hblk]
    simp [hmutex]
  exact not_or.mp hnot

theorem stage_mutex (h : Stage pc (some o) r) (holder : Option Task) :
    Stage pc (some { o with joinMutex := holder }) r := by
  cases pc <;> simp_all [Stage]

theorem Inv.joinTakeMutex (h : Inv s) (hpc : s.pc t = .joinMutex q) (hblk : s.blk q = some o)
    (hdetached : o.detached = false) (hself : pthreadSelf t = some q → o.joinMutex ≠ none) :
    Inv (joinTakeMutex t q s) := by
  have hoff : ∀ p, (s.pc t).Off p := by
    intro p
    rw [hpc]
    exact ⟨nofun, nofun⟩
  have halive : (s.pc t).alive = true := by
    rw [hpc]
    rfl
  unfold Threads.joinTakeMutex withObj
  rw [hblk]
  dsimp only
  split
  · exact h.leave hoff halive _
  · rename_i hmutex
    have hmutex : o.joinMutex = none := by simpa using hmutex
    have hne : pthreadSelf t ≠ some q := fun hs => hself hs hmutex
    have hthread : Task.thread q ≠ t := by
      rintro rfl
      exact hne rfl
    rw [if_neg hne]
    have hf := h.fits q
    refine h.about ⟨h.calm.depth, h.calm.entry, h.calm.fault, h.calm.returns⟩ (q := q) ?_ ?_ h.joins h.frees
    · intro p hp
      refine (same_setObj hp _).trans (same_goto t _ (hoff p) ⟨?_, nofun⟩ (.inr ⟨halive, rfl⟩))
      simpa using Ne.symm hp
    · have hnobody := hf.nobody hblk hmutex
      have hpcs : ∀ t', ((s.setObj q { o with joinMutex := some t }).goto t (.joinBarrier q)).pc t' =
          if t' = t then .joinBarrier q else s.pc t' := fun t' => update_apply ..
      refine hf.stays { o with joinMutex := some t } hblk (update_self ..) rfl rfl rfl
        ?_ ?_ ?_ ?_
      · rw [hpcs, if_neg hthread]
        have hstage := hf.stage
        rw [hblk] at hstage
        exact stage_mutex hstage _
      · intro t'
        rw [hpcs]
        by_cases ht' : t' = t
        · simp [ht']
        · simp [ht', (hnobody t').1, (hnobody t').2, Ne.symm ht']
      · intro hd
        rw [hdetached] at hd
        cases hd
      · intro t' ht'
        rw [hpcs] at ht'
        split at ht'
        · cases ht'
        · exact absurd ht' (hnobody t').2

theorem stage_barrier (h : Stage pc (some o) r) (hdetached : o.detached = false)
    (hbarrier : o.joinBarrier = true) : pc = .exitSuspend ∨ pc = .suspended := by
  cases pc <;> simp_all [Stage]

theorem Fits.holder (h : Fits s q) (hpc : s.pc t = .joinBarrier q ∨ s.pc t = .joinSection q) :
    ∃ o, s.blk q = some o ∧ o.joinMutex = some t ∧ o.detached = false := by
  obtain ⟨o, hblk, hmutex⟩ := (h.joiner t).mp hpc
  refine ⟨o, hblk, hmutex, ?_⟩
  cases hd : o.detached with
  | false => rfl
  | true =>
    rw [h.free o hblk hd] at hmutex
    cases hmutex

theorem Inv.joinTakeBarrier (h : Inv s) {s' : State β} (hpc : s.pc t = .joinBarrier q)
    (hs : joinTakeBarrier t q s = some s') : Inv s' := by
  have hf := h.fits q
  obtain ⟨o, hblk, hmutex, hdetached⟩ := hf.holder (.inl hpc)
  unfold Threads.joinTakeBarrier at hs
  rw [hblk] at hs
  dsimp only at hs
  split at hs
  · rename_i hbarrier
    cases hs
    have hstage := hf.stage
    rw [hblk] at hstage
    have hended := stage_barrier hstage hdetached hbarrier
    have hthread : Task.thread q ≠ t := by
      rintro rfl
      rw [hpc] at hended
      rcases hended with hended | hended <;> cases hended
    have hpcs : ∀ t', ((s.setObj q { o with joinBarrier := false }).goto t (.joinSection q)).pc t' =
        if t' = t then .joinSection q else s.pc t' := fun t' => update_apply ..
    refine h.about ⟨h.calm.depth, h.calm.entry, h.calm.fault, h.calm.returns⟩ (q := q) ?_ ?_ h.joins h.frees
    · intro p hp
      refine (same_setObj hp _).trans (same_goto t _ ?_ ⟨nofun, ?_⟩ (.inr ⟨?_, rfl⟩))
      · show (s.pc t).Off p
        rw [hpc]
        exact ⟨by simpa using Ne.symm hp, nofun⟩
      · simpa using Ne.symm hp
      · show (s.pc t).alive = true
        rw [hpc]
        rfl
    · refine hf.stays { o with joinBarrier := false } hblk (update_self ..) rfl rfl rfl
        ?_ ?_ ?_ ?_
      · rw [hpcs, if_neg hthread]
        show Stage _ _ (s.result q)
        rcases hended with hended | hended <;> rw [hended] at hstage ⊢ <;> simpa [Stage] using hstage
      · intro t'
        rw [hpcs]
        by_cases ht' : t' = t
        · simp [ht', hmutex]
        · have hjoiner := hf.joiner t'
          rw [hblk] at hjoiner
          simpa [ht'] using hjoiner
      · exact hf.free o hblk
      · intro t' _
        rw [hpcs, if_neg hthread]
        exact hended
  · cases hs

theorem stage_ended (hpc : pc = .exitSuspend ∨ pc = .suspended) (h : Stage pc (some o) r) :
    ∃ v, r = some v ∧ o.ret = some v := by
  rcases hpc with rfl | rfl <;> simp only [Stage, Option.some.injEq] at h <;>
  · obtain ⟨o', v, rfl, hr, hret, _⟩ := h
    exact ⟨v, hr, hret⟩

theorem nodup_cons_of_not_mem {γ : Type} {l : List (Nat × γ)} {x : γ} (hnot : ∀ c, (q, c) ∉ l)
    (h : (l.map Prod.fst).Nodup) : (((q, x) :: l).map Prod.fst).Nodup := by
  rw [List.map_cons, List.nodup_cons]
  refine ⟨?_, h⟩
  simpa using hnot

theorem Inv.joinSection (h : Inv s) (hpc : s.pc t = .joinSection q) : Inv (joinSection t q s) := by
  have hf := h.fits q
  obtain ⟨o, hblk, hmutex, hdetached⟩ := hf.holder (.inr hpc)
  obtain ⟨-, hnot, hno⟩ := hf.live hblk
  have hended := hf.taken t hpc
  have hstage := hf.stage
  rw [hblk] at hstage
  obtain ⟨v, hresult, hret⟩ := stage_ended hended hstage
  have hthread : Task.thread q ≠ t := by
    rintro rfl
    rw [hpc] at hended
    rcases hended with hended | hended <;> cases hended
  unfold Threads.joinSection withObj
  have hblk' : (vTaskSuspendAll s).blk q = some o := hblk
  dsimp only
  rw [hblk']
  dsimp only
  refine h.about (q := q) ?_ ?_ ?_ ?_ ?_
  · refine h.calm.resume_leave ?_ ?_ ?_ ?_ 0 <;> rfl
  · intro p hp
    have hdead : ((s.pc (.thread q))).Off p := by
      rcases hended with hended | hended <;> rw [hended] <;> exact ⟨nofun, nofun⟩
    have hmine : (s.pc t).Off p := by
      rw [hpc]
      exact ⟨nofun, by simpa using Ne.symm hp⟩
    refine same_suspend.trans
      ((same_setObj hp { o with joinBarrier := true, joinMutex := none }).trans ?_)
    refine Same.trans (same_goto (.thread q) .deleted hdead ⟨nofun, nofun⟩
      (.inl (by simpa using Ne.symm hp))) ?_
    refine (same_joins hp o.ret).trans ((same_free hp .joined).trans ?_)
    refine same_resume.trans (same_leave ?_ _ (.inr ?_))
    · show (update s.pc (.thread q) .deleted t).Off p
      rwa [update_of_ne (Ne.symm hthread)]
    · show (update s.pc (.thread q) .deleted t).alive = true
      rw [update_of_ne (Ne.symm hthread), hpc]
      rfl
  · refine hf.goes (c := .joined) (v := v) hblk (update_self ..) rfl ?_ rfl hresult (.inr ?_)
      fun t' => ?_
    · exact .inl ⟨rfl, by rw [hret]; rfl⟩
    · show update (update s.pc (.thread q) .deleted) t .user (.thread q) = _
      rw [update_of_ne hthread, update_self]
    · show (update (update s.pc (.thread q) .deleted) t .user t').Off q
      by_cases ht : t' = t
      · rw [ht, update_self]
        exact ⟨nofun, nofun⟩
      · rw [update_of_ne ht]
        by_cases htq : t' = .thread q
        · rw [htq, update_self]
          exact ⟨nofun, nofun⟩
        · rw [update_of_ne htq]
          refine not_or.mp fun hjoin => ?_
          obtain ⟨o', ho', hm'⟩ := (hf.joiner t').mp hjoin
          rw [hblk] at ho'
          cases ho'
          rw [hmutex] at hm'
          cases hm'
          exact ht rfl
  · exact nodup_cons_of_not_mem hno h.joins
  · exact nodup_cons_of_not_mem hnot h.frees

theorem stage_detached (h : Stage pc (some o) r) (hsuspend : pc ≠ .exitSuspend)
    (hsuspended : pc ≠ .suspended) (holder : Option Task) :
    Stage pc (some { o with joinBarrier := true, joinMutex := holder, detached := true }) r := by
  cases pc with
  | exitSuspend => exact absurd rfl hsuspend
  | suspended => exact absurd rfl hsuspended
  | exitSection =>
    obtain ⟨o', v, heq, hr, hret, _⟩ := h
    cases heq
    exact ⟨_, v, rfl, hr, hret, fun _ => rfl⟩
  | _ => simp_all [Stage]

theorem stage_not_deleted (h : Stage pc (some o) r) : eDeleted pc = false := by
  cases pc <;> simp_all [Stage, eDeleted]

theorem Inv.detachSection (h : Inv s) (hpc : s.pc t = .detachSection q) (hblk : s.blk q = some o)
    (hmutex : o.joinMutex = none) (hsuspend : s.pc (.thread q) ≠ .exitSuspend) :
    Inv (detachSection t q s) := by
  have hf := h.fits q
  have hnobody := hf.nobody hblk hmutex
  obtain ⟨-, hnot, -⟩ := hf.live hblk
  have hstage := hf.stage
  rw [hblk] at hstage
  have hoff : ∀ p, (s.pc t).Off p := by
    intro p
    rw [hpc]
    exact ⟨nofun, nofun⟩
  have halive : (s.pc t).alive = true := by
    rw [hpc]
    rfl
  unfold Threads.detachSection withObj
  have hblk' : (vTaskSuspendAll s).blk q = some o := hblk
  have hpc' : (vTaskSuspendAll s).pc = s.pc := rfl
  dsimp only
  rw [hblk']
  dsimp only
  rw [hpc', if_neg (by simp [stage_not_deleted hstage])]
  split
  · rename_i hsuspended
    -- the thread has ended
    have hthread : Task.thread q ≠ t := by
      rintro rfl
      rw [hpc] at hsuspended
      cases hsuspended
    obtain ⟨v, hresult, -⟩ := stage_ended (.inr hsuspended) hstage
    refine h.about (q := q) ?_ ?_ ?_ h.joins ?_
    · refine h.calm.resume_leave ?_ ?_ ?_ ?_ 0 <;> rfl
    · intro p hp
      refine same_suspend.trans
        ((same_setObj hp { o with joinBarrier := true, joinMutex := none }).trans ?_)
      refine Same.trans (same_goto (.thread q) .deleted ?_ ⟨nofun, nofun⟩
        (.inl (by simpa using Ne.symm hp))) ?_
      · show (s.pc (.thread q)).Off p
        rw [hsuspended]
        exact ⟨nofun, nofun⟩
      refine (same_free hp .detachedEnded).trans (same_resume.trans (same_leave ?_ _ (.inr ?_)))
      · show (update s.pc (.thread q) .deleted t).Off p
        rw [update_of_ne (Ne.symm hthread)]
        exact hoff p
      · show (update s.pc (.thread q) .deleted t).alive = true
        rw [update_of_ne (Ne.symm hthread)]
        exact halive
    · refine hf.goes (c := .detachedEnded) (v := v) hblk (update_self ..) rfl
        (.inr ⟨.inl rfl, rfl⟩) rfl hresult (.inr ?_) fun t' => ?_
      · show update (update s.pc (.thread q) .deleted) t .user (.thread q) = _
        rw [update_of_ne hthread, update_self]
      · show (update (update s.pc (.thread q) .deleted) t .user t').Off q
        rw [update_apply, update_apply]
        split
        · exact ⟨nofun, nofun⟩
        · split
          · exact ⟨nofun, nofun⟩
          · exact hnobody t'
    · exact nodup_cons_of_not_mem hnot h.frees
  · rename_i hsuspended
    refine h.about (q := q) ?_ ?_ ?_ h.joins h.frees
    · refine h.calm.resume_leave ?_ ?_ ?_ ?_ 0 <;> rfl
    · intro p hp
      refine same_suspend.trans ((same_setObj hp
        { o with joinBarrier := true, joinMutex := none, detached := true }).trans ?_)
      refine same_resume.trans (same_leave ?_ _ (.inr ?_))
      · exact hoff p
      · exact halive
    · refine hf.stays _ hblk (update_self ..) rfl rfl rfl ?_ ?_ (fun _ => rfl) ?_
      · show Stage (update s.pc t .user (.thread q)) _ (s.result q)
        have hstage' := stage_detached hstage hsuspend hsuspended none
        rw [update_apply]
        split
        · rename_i ht
          rw [ht] at hstage'
          exact stage_alive hstage' halive rfl
        · exact hstage'
      · intro t'
        show (update s.pc t .user t' = _ ∨ update s.pc t .user t' = _) ↔ _
        rw [update_apply]
        split
        · simp
        · simp [(hnobody t').1, (hnobody t').2]
      · intro t' ht'
        have ht' : update s.pc t .user t' = .joinSection q := ht'
        rw [update_apply] at ht'
        split at ht'
        · cases ht'
        · exact absurd ht' (hnobody t').2

/-! ## The end of a thread -/

theorem Inv.ending {s' : State β} (h : Inv s) (o' : PthreadObj β) (pc' : Pc) (hcalm : Calm s')
    (hblk : s.blk q = some o) (hblk' : s'.blk = update s.blk q (some o'))
    (hpc' : s'.pc = update s.pc (.thread q) pc') (hresult : ∀ p, p ≠ q → s'.result p = s.result p)
    (hjoins : s'.joins = s.joins) (hfrees : s'.frees = s.frees) (hnext : s'.next = s.next)
    (hoff : ∀ p, (s.pc (.thread q)).Off p) (hoff' : ∀ p, pc'.Off p)
    (hstage : Stage pc' (some o') (s'.result q)) (hmutex : o'.joinMutex = o.joinMutex)
    (hdetached : o'.detached = o.detached)
    (htaken : (∃ t, s.pc t = .joinSection q) → pc' = .exitSuspend ∨ pc' = .suspended) : Inv s' := by
  have hf := h.fits q
  have hself : s'.pc (.thread q) = pc' := by
    rw [hpc', update_self]
  have hwait : ∀ p t, (s'.pc t = .joinBarrier p ↔ s.pc t = .joinBarrier p) ∧
      (s'.pc t = .joinSection p ↔ s.pc t = .joinSection p) := by
    intro p t
    rw [hpc', update_apply]
    split
    · rename_i ht
      rw [ht]
      simp [(hoff p).1, (hoff p).2, (hoff' p).1, (hoff' p).2]
    · exact ⟨Iff.rfl, Iff.rfl⟩
  refine h.about (q := q) hcalm ?_ ?_ (by rw [hjoins]; exact h.joins) (by rw [hfrees]; exact h.frees)
  · intro p hp
    refine ⟨by rw [hblk', update_of_ne hp], hresult p hp, by simp [hjoins], by simp [hfrees],
      by rw [hnext], fun t => (hwait p t).1, fun t => (hwait p t).2, .inl ?_⟩
    rw [hpc', update_of_ne (by simpa using hp)]
  · refine hf.stays o' hblk (by rw [hblk', update_self]) hjoins hfrees hnext ?_ ?_ ?_ ?_
    · rw [hself]
      exact hstage
    · intro t
      have hjoiner := hf.joiner t
      rw [hblk] at hjoiner
      rw [(hwait q t).1, (hwait q t).2, hmutex]
      simpa using hjoiner
    · rw [hdetached, hmutex]
      exact hf.free o hblk
    · intro t ht
      rw [hself]
      exact htaken ⟨t, (hwait q t).2.mp ht⟩

theorem Inv.threadEnd (h : Inv s) (hpc : s.pc (.thread q) = .user) (v : β) : Inv (threadEnd q v s) := by
  have hf := h.fits q
  have hstage := hf.stage
  rw [hpc] at hstage
  obtain ⟨o, hblk, -, hbarrier⟩ := hstage
  unfold Threads.threadEnd withObj
  rw [hblk]
  refine h.ending { o with ret := some v } .exitSection
    ⟨h.calm.depth, h.calm.entry, h.calm.fault, h.calm.returns⟩ hblk rfl rfl
    (fun p hp => update_of_ne hp _ _) rfl rfl rfl ?_ (fun _ => ⟨nofun, nofun⟩) ?_ rfl rfl ?_
  · intro p
    rw [hpc]
    exact ⟨nofun, nofun⟩
  · exact ⟨_, v, rfl, update_self .., rfl, hbarrier⟩
  · rintro ⟨t, ht⟩
    have htaken := hf.taken t ht
    rw [hpc] at htaken
    rcases htaken with htaken | htaken <;> cases htaken

theorem Inv.prvExitThread (h : Inv s) (hpc : s.pc (.thread q) = .exitSection) :
    Inv (prvExitThread q s) := by
  have hf := h.fits q
  have hstage := hf.stage
  rw [hpc] at hstage
  obtain ⟨o, v, hblk, hresult, hret, -⟩ := hstage
  have hoff : ∀ p, (s.pc (.thread q)).Off p := by
    intro p
    rw [hpc]
    exact ⟨nofun, nofun⟩
  unfold Threads.prvExitThread withObj
  have hblk' : (vTaskSuspendAll s).blk q = some o := hblk
  dsimp only
  rw [hblk']
  dsimp only
  split
  · rename_i hdetached
    have hsame : s.blk = update s.blk q (some o) := by
      rw [← hblk, update_eq_self]
    refine h.ending o .exitFree ?_ hblk hsame rfl (fun _ _ => rfl) rfl rfl rfl hoff
      (fun _ => ⟨nofun, nofun⟩) ⟨o, v, rfl, hresult, hdetached⟩ rfl rfl ?_
    · exact (h.calm.resume (x := vTaskSuspendAll s) rfl rfl rfl rfl).goto _
    · rintro ⟨t, ht⟩
      have htaken := hf.taken t ht
      rw [hpc] at htaken
      rcases htaken with htaken | htaken <;> cases htaken
  · rename_i hdetached
    refine h.ending { o with joinBarrier := true } .exitSuspend ?_ hblk rfl rfl
      (fun _ _ => rfl) rfl rfl rfl hoff (fun _ => ⟨nofun, nofun⟩)
      ⟨_, v, rfl, hresult, hret, by simpa using hdetached⟩ rfl rfl (fun _ => .inl rfl)
    exact (h.calm.resume (x := (vTaskSuspendAll s).setObj q { o with joinBarrier := true }) rfl rfl rfl
      rfl).goto _

theorem Inv.exitSuspend (h : Inv s) (hpc : s.pc (.thread q) = .exitSuspend) :
    Inv (s.goto (.thread q) .suspended) := by
  have hf := h.fits q
  have hstage := hf.stage
  rw [hpc] at hstage
  obtain ⟨o, v, hblk, hrest⟩ := hstage
  have hsame : s.blk = update s.blk q (some o) := by
    rw [← hblk, update_eq_self]
  refine h.ending o .suspended (h.calm.goto _) hblk hsame rfl (fun _ _ => rfl) rfl rfl
    rfl ?_ (fun _ => ⟨nofun, nofun⟩) ⟨o, v, rfl, hrest⟩ rfl rfl (fun _ => .inr rfl)
  intro p
  rw [hpc]
  exact ⟨nofun, nofun⟩

theorem Inv.exitFree (h : Inv s) (hpc : s.pc (.thread q) = .exitFree) : Inv (exitFree q s) := by
  have hf := h.fits q
  have hstage := hf.stage
  rw [hpc] at hstage
  obtain ⟨o, v, hblk, hresult, hdetached⟩ := hstage
  have hnobody := hf.nobody hblk (hf.free o hblk hdetached)
  obtain ⟨-, hnot, -⟩ := hf.live hblk
  unfold Threads.exitFree withObj
  rw [hblk]
  refine h.about (q := q) ⟨h.calm.depth, h.calm.entry, h.calm.fault, h.calm.returns⟩ ?_ ?_ h.joins
    (nodup_cons_of_not_mem hnot h.frees)
  · intro p hp
    refine (same_free hp .endedDetached).trans (same_goto _ _ ?_ ⟨nofun, nofun⟩
      (.inl (by simpa using Ne.symm hp)))
    show (s.pc (.thread q)).Off p
    rw [hpc]
    exact ⟨nofun, nofun⟩
  · refine hf.goes (c := .endedDetached) (v := v) hblk (update_self ..) rfl
      (.inr ⟨.inr rfl, rfl⟩) rfl hresult (.inl (update_self ..)) fun t' => ?_
    show (update s.pc (.thread q) .exitDelete t').Off q
    rw [update_apply]
    split
    · exact ⟨nofun, nofun⟩
    · exact hnobody t'

theorem Inv.exitDelete (h : Inv s) (hpc : s.pc (.thread q) = .exitDelete) :
    Inv (s.goto (.thread q) .deleted) := by
  have hf := h.fits q
  have hoff : ∀ p, (s.pc (.thread q)).Off p := by
    intro p
    rw [hpc]
    exact ⟨nofun, nofun⟩
  have hpcs : ∀ t, (s.goto (.thread q) .deleted).pc t =
      if t = .thread q then .deleted else s.pc t := fun t => update_apply ..
  refine h.about (q := q) (h.calm.goto _) ?_ ?_ h.joins h.frees
  · intro p hp
    exact same_goto _ _ (hoff p) ⟨nofun, nofun⟩ (.inl (by simpa using Ne.symm hp))
  · have hstage := hf.stage
    rw [hpc] at hstage
    have hnobody : ∀ t, (s.pc t).Off q := by
      intro t
      refine not_or.mp fun hjoin => ?_
      obtain ⟨o, hblk, -⟩ := (hf.joiner t).mp hjoin
      rw [hstage.1] at hblk
      cases hblk
    have hnobody' : ∀ t, ((s.goto (.thread q) .deleted).pc t).Off q := by
      intro t
      rw [hpcs]
      split
      · exact ⟨nofun, nofun⟩
      · exact hnobody t
    constructor
    · intro hnext
      have habsent := hf.unborn hnext
      rw [hpc] at habsent
      cases habsent
    · rw [hpcs, if_pos rfl]
      exact hstage
    · intro t
      have hblk : (s.goto (.thread q) .deleted).blk q = none := hstage.1
      rw [hblk]
      simp [(hnobody' t).1, (hnobody' t).2]
    · exact hf.free
    · exact fun t ht => absurd ht (hnobody' t).2
    · exact hf.kept
    · exact hf.joined
    · intro c hc
      have hcause := hf.causes c hc
      cases c with
      | createFailed =>
        have habsent : s.pc (.thread q) = .absent := hcause
        rw [hpc] at habsent
        cases habsent
      | _ => exact hcause

/-! ## Creation -/

theorem Fits.unused (h : Fits s s.next) : s.blk s.next = none ∧ s.result s.next = none ∧
    (∀ t, (s.pc t).Off s.next) ∧ (∀ c, (s.next, c) ∉ s.frees) ∧ ∀ v, (s.next, v) ∉ s.joins := by
  have hstage := h.stage
  rw [h.unborn (Nat.le_refl _)] at hstage
  have hfrees : ∀ c, (s.next, c) ∉ s.frees := fun c hc =>
    h.kept.mp (.inr (Nat.le_refl _)) (List.mem_map_of_mem hc)
  refine ⟨hstage.1, hstage.2, fun t => not_or.mp fun hjoin => ?_, hfrees,
    fun v hv => hfrees _ (h.joined v hv).1⟩
  obtain ⟨o, hblk, -⟩ := (h.joiner t).mp hjoin
  rw [hstage.1] at hblk
  cases hblk

theorem same_next {p : Nat} (hp : p ≠ s.next) : Same s { s with next := s.next + 1 } p := by
  refine ⟨rfl, rfl, fun _ => Iff.rfl, fun _ => Iff.rfl, ?_, fun _ => Iff.rfl, fun _ => Iff.rfl, .inl rfl⟩
  show s.next + 1 ≤ p ↔ s.next ≤ p
  omega

theorem Fits.born (h : Fits s s.next) (hnext : s'.next = s.next + 1) (hresult : s'.result s.next = none)
    (hjoins : s'.joins = s.joins) (hoff : ∀ t, (s'.pc t).Off s.next)
    (hblk : (s'.blk s.next = none ∧ s'.pc (.thread s.next) = .absent ∧
        s'.frees = (s.next, .createFailed) :: s.frees) ∨
      ∃ o, s'.blk s.next = some o ∧ o.joinMutex = none ∧ o.joinBarrier = false ∧
        s'.pc (.thread s.next) = .user ∧ s'.frees = s.frees) : Fits s' s.next := by
  obtain ⟨-, -, -, hnot, hno⟩ := h.unused
  have hnever : ∀ v, (s.next, v) ∉ s'.joins := by
    rw [hjoins]
    exact hno
  have hcauses : ∀ c, (s.next, c) ∈ s'.frees →
      c = .createFailed ∧ s'.pc (.thread s.next) = .absent := by
    rcases hblk with ⟨-, hpc, hfrees⟩ | ⟨o, -, -, -, -, hfrees⟩ <;> simp [*]
  rcases hblk with ⟨hblk, hpc, hfrees⟩ | ⟨o, hblk, hmutex, hbarrier, hpc, hfrees⟩
  all_goals
    constructor
    · rw [hnext, hpc]
      omega
    · rw [hpc, hblk, hresult]
      simp [Stage, *]
    · intro t'
      simp [(hoff t').1, (hoff t').2, *]
    · simp [*]
    · exact fun t' ht' => absurd ht' (hoff t').2
    · simp [*]
    · exact fun v hv => absurd hv (hnever v)
    · intro c hc
      obtain ⟨rfl, habsent⟩ := hcauses c hc
      exact habsent

theorem Inv.noTask (h : Inv s) (hpc : s.pc t = .user) (o : PthreadObj β) (code : Nat) :
    Inv ((xTaskResumeAll ((vTaskSuspendAll ({ s with next := s.next + 1 }.setObj s.next o)).vPortFree
      s.next .createFailed)).leave t code) := by
  have hf := h.fits s.next
  obtain ⟨hblk, hresult, hnobody, hnot, hno⟩ := hf.unused
  have habsent := hf.unborn (Nat.le_refl _)
  have hthread : Task.thread s.next ≠ t := by
    rintro rfl
    rw [hpc] at habsent
    cases habsent
  refine h.about (q := s.next) ?_ ?_ ?_ h.joins (nodup_cons_of_not_mem hnot h.frees)
  · refine h.calm.resume_leave ?_ ?_ ?_ ?_ code <;> rfl
  · intro p hp
    refine (same_next hp).trans ((same_setObj hp o).trans (same_suspend.trans
      ((same_free hp _).trans (same_resume.trans (same_leave ?_ _ (.inr ?_))))))
    · show (s.pc t).Off p
      rw [hpc]
      exact ⟨nofun, nofun⟩
    · show (s.pc t).alive = true
      rw [hpc]
      rfl
  · refine hf.born rfl hresult rfl (fun t' => ?_) (.inl ⟨update_self .., ?_, rfl⟩)
    · show (update s.pc t .user t').Off s.next
      rw [update_apply]
      split
      · exact ⟨nofun, nofun⟩
      · exact hnobody t'
    · exact (update_of_ne hthread _ _).trans habsent

theorem Inv.created (h : Inv s) (hpc : s.pc t = .user) {o : PthreadObj β} (hmutex : o.joinMutex = none)
    (hbarrier : o.joinBarrier = false) :
    Inv ((xTaskResumeAll ((vTaskSuspendAll ({ s with next := s.next + 1 }.setObj s.next o)).goto
      (.thread s.next) .user)).leave t 0) := by
  have hf := h.fits s.next
  obtain ⟨hblk, hresult, hnobody, hnot, hno⟩ := hf.unused
  have habsent := hf.unborn (Nat.le_refl _)
  have hthread : t ≠ Task.thread s.next := by
    rintro rfl
    rw [hpc] at habsent
    cases habsent
  refine h.about (q := s.next) ?_ ?_ ?_ h.joins h.frees
  · refine h.calm.resume_leave ?_ ?_ ?_ ?_ 0 <;> rfl
  · intro p hp
    refine (same_next hp).trans ((same_setObj hp o).trans (same_suspend.trans ?_))
    refine Same.trans (same_goto (.thread s.next) .user ?_ ⟨nofun, nofun⟩
      (.inl (by simpa using Ne.symm hp))) (same_resume.trans (same_leave ?_ _ (.inr ?_)))
    · show (s.pc (.thread s.next)).Off p
      rw [habsent]
      exact ⟨nofun, nofun⟩
    · show (update s.pc (.thread s.next) .user t).Off p
      rw [update_of_ne hthread, hpc]
      exact ⟨nofun, nofun⟩
    · show (update s.pc (.thread s.next) .user t).alive = true
      rw [update_of_ne hthread, hpc]
      rfl
  · refine hf.born rfl hresult rfl (fun t' => ?_)
      (.inr ⟨o, update_self .., hmutex, hbarrier, ?_, rfl⟩)
    · show (update (update s.pc (.thread s.next) .user) t .user t').Off s.next
      rw [update_apply, update_apply]
      split
      · exact ⟨nofun, nofun⟩
      · split
        · exact ⟨nofun, nofun⟩
        · exact hnobody t'
    · exact (update_of_ne (Ne.symm hthread) _ _).trans (update_self ..)

theorem Inv.pthreadCreate (h : Inv s) (hpc : s.pc t = .user) (detached : Bool) (creation : Creation) :
    Inv (pthreadCreate t detached creation s) := by
  have hpc' : (s.enter t).pc t = .user := hpc
  cases creation with
  | noMemory =>
    refine h.enter.leave (fun p => ?_) ?_ _
    · rw [hpc']
      exact ⟨nofun, nofun⟩
    · rw [hpc']
      rfl
  | noTask => exact h.enter.noTask hpc' _ _
  | created => exact h.enter.created hpc' rfl rfl

end Steps

end Gpmx.Pthread.Threads
