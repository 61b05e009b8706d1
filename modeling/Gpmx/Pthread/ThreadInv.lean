import Gpmx.Pthread.Thread

/-!
# Threads: what is kept

* `Stage` — where a thread is, and what its block looks like there
* `Fits` — all that is kept about one thread, its block, those who wait for it and what was recorded
* `Same` — what a step leaves alone; the steps are put together from parts of which each is about
  one thread
-/

namespace Gpmx.Pthread.Threads

open Infra State Function

variable {β : Type}

/-- In the program, or in a call other than the end of the thread. -/
def Pc.alive : Pc → Bool
  | .user => true
  | .joinMutex _ => true
  | .joinBarrier _ => true
  | .joinSection _ => true
  | .detachSection _ => true
  | _ => false

def Stage : Pc → Option (PthreadObj β) → Option β → Prop
  | .absent, b, r => b = none ∧ r = none
  | .exitSection, b, r =>
    ∃ o v, b = some o ∧ r = some v ∧ o.ret = some v ∧ (o.joinBarrier = true → o.detached = true)
  | .exitSuspend, b, r => ∃ o v, b = some o ∧ r = some v ∧ o.ret = some v ∧ o.detached = false
  | .suspended, b, r => ∃ o v, b = some o ∧ r = some v ∧ o.ret = some v ∧ o.detached = false
  | .exitFree, b, r => ∃ o v, b = some o ∧ r = some v ∧ o.detached = true
  | .exitDelete, b, r => b = none ∧ ∃ v, r = some v
  | .deleted, b, r => b = none ∧ ∃ v, r = some v
  | _, b, r => ∃ o, b = some o ∧ r = none ∧ (o.joinBarrier = true → o.detached = true)

/-- What is kept about the thread `p`. -/
structure Fits (s : State β) (p : Nat) : Prop where
  unborn : s.next ≤ p → s.pc (.thread p) = .absent
  stage : Stage (s.pc (.thread p)) (s.blk p) (s.result p)
  joiner : ∀ t, (s.pc t = .joinBarrier p ∨ s.pc t = .joinSection p) ↔
    ∃ o, s.blk p = some o ∧ o.joinMutex = some t
  free : ∀ o, s.blk p = some o → o.detached = true → o.joinMutex = none
  taken : ∀ t, s.pc t = .joinSection p →
    s.pc (.thread p) = .exitSuspend ∨ s.pc (.thread p) = .suspended
  kept : (s.blk p ≠ none ∨ s.next ≤ p) ↔ p ∉ s.frees.map Prod.fst
  joined : ∀ v, (p, v) ∈ s.joins → (p, Cause.joined) ∈ s.frees ∧ s.result p = v ∧ v ≠ none
  causes : ∀ c, (p, c) ∈ s.frees →
    match c with
    | .joined => p ∈ s.joins.map Prod.fst
    | .createFailed => s.pc (.thread p) = .absent
    | _ => s.result p ≠ none

structure Calm (s : State β) : Prop where
  depth : s.depth = 0
  entry : ∀ t, s.entry t = 0
  fault : s.fault = false
  returns : ∀ r ∈ s.returns, r.exit = r.entry

structure Inv (s : State β) : Prop where
  calm : Calm s
  fits : ∀ p, Fits s p
  joins : (s.joins.map Prod.fst).Nodup
  frees : (s.frees.map Prod.fst).Nodup

variable {s s' : State β} {t : Task} {q : Nat}

/-- What is as before, as far as it concerns the thread `p`. -/
structure Same (s s' : State β) (p : Nat) : Prop where
  blk : s'.blk p = s.blk p
  result : s'.result p = s.result p
  joins : ∀ v, (p, v) ∈ s'.joins ↔ (p, v) ∈ s.joins
  frees : ∀ c, (p, c) ∈ s'.frees ↔ (p, c) ∈ s.frees
  next : s'.next ≤ p ↔ s.next ≤ p
  waits : ∀ t, s'.pc t = .joinBarrier p ↔ s.pc t = .joinBarrier p
  ends : ∀ t, s'.pc t = .joinSection p ↔ s.pc t = .joinSection p
  pc : s'.pc (.thread p) = s.pc (.thread p) ∨
    (s.pc (.thread p)).alive = true ∧ (s'.pc (.thread p)).alive = true

variable {p : Nat}

theorem Same.trans {s'' : State β} (h : Same s s' p) (h' : Same s' s'' p) : Same s s'' p where
  blk := h'.blk.trans h.blk
  result := h'.result.trans h.result
  joins v := (h'.joins v).trans (h.joins v)
  frees c := (h'.frees c).trans (h.frees c)
  next := h'.next.trans h.next
  waits t := (h'.waits t).trans (h.waits t)
  ends t := (h'.ends t).trans (h.ends t)
  pc := by
    rcases h.pc with hpc | ⟨ha, hb⟩
    · rw [← hpc]
      exact h'.pc
    · rcases h'.pc with hpc' | ⟨_, hc⟩
      · exact .inr ⟨ha, by rw [hpc']; exact hb⟩
      · exact .inr ⟨ha, hc⟩

theorem stage_alive {pc pc' : Pc} {b : Option (PthreadObj β)} {r : Option β} (h : Stage pc b r)
    (ha : pc.alive = true) (ha' : pc'.alive = true) : Stage pc' b r := by
  cases pc <;> simp [Pc.alive] at ha <;> cases pc' <;> simp [Pc.alive] at ha' <;> exact h

theorem Fits.same (h : Fits s p) (hs : Same s s' p) : Fits s' p := by
  have hfst : p ∈ s'.frees.map Prod.fst ↔ p ∈ s.frees.map Prod.fst := by simp [hs.frees]
  have hjst : p ∈ s'.joins.map Prod.fst ↔ p ∈ s.joins.map Prod.fst := by simp [hs.joins]
  -- a thread that is not in the program stays where it is
  have hstays : (s.pc (.thread p)).alive = false → s'.pc (.thread p) = s.pc (.thread p) := by
    intro hno
    rcases hs.pc with hpc | ⟨hyes, _⟩
    · exact hpc
    · rw [hno] at hyes
      cases hyes
  constructor
  · intro hnext
    have habsent := h.unborn (hs.next.mp hnext)
    rw [hstays (by rw [habsent]; rfl), habsent]
  · rw [hs.blk, hs.result]
    rcases hs.pc with hpc | ⟨ha, ha'⟩
    · rw [hpc]
      exact h.stage
    · exact stage_alive h.stage ha ha'
  · intro t
    rw [hs.waits, hs.ends, hs.blk]
    exact h.joiner t
  · rw [hs.blk]
    exact h.free
  · intro t ht
    rcases h.taken t ((hs.ends t).mp ht) with hpc | hpc
    · exact .inl (by rw [hstays (by rw [hpc]; rfl), hpc])
    · exact .inr (by rw [hstays (by rw [hpc]; rfl), hpc])
  · rw [hs.blk, hs.next, hfst]
    exact h.kept
  · intro v hv
    rw [hs.frees, hs.result]
    exact h.joined v ((hs.joins v).mp hv)
  · intro c hc
    have hcause := h.causes c ((hs.frees c).mp hc)
    cases c with
    | joined => exact hjst.mpr hcause
    | createFailed =>
      have habsent : s.pc (.thread p) = .absent := hcause
      show s'.pc (.thread p) = .absent
      rw [hstays (by rw [habsent]; rfl), habsent]
    | detachedEnded | endedDetached =>
      show s'.result p ≠ none
      rw [hs.result]
      exact hcause

/-! ### The parts of a step -/

/-- The task is not at its join of `p`. -/
def Pc.Off (pc : Pc) (p : Nat) : Prop := pc ≠ .joinBarrier p ∧ pc ≠ .joinSection p

theorem same_goto (t : Task) (pc : Pc) (hbefore : (s.pc t).Off p) (hafter : pc.Off p)
    (halive : t ≠ .thread p ∨ (s.pc t).alive = true ∧ pc.alive = true) : Same s (s.goto t pc) p := by
  have hother : ∀ t', t' ≠ t → (s.goto t pc).pc t' = s.pc t' := fun t' ht' =>
    update_of_ne ht' _ _
  have hself : (s.goto t pc).pc t = pc := update_self ..
  refine ⟨rfl, rfl, fun _ => Iff.rfl, fun _ => Iff.rfl, Iff.rfl, fun t' => ?_, fun t' => ?_, ?_⟩
  · by_cases ht' : t' = t
    · rw [ht', hself]
      exact ⟨fun h => absurd h hafter.1, fun h => absurd h hbefore.1⟩
    · rw [hother t' ht']
  · by_cases ht' : t' = t
    · rw [ht', hself]
      exact ⟨fun h => absurd h hafter.2, fun h => absurd h hbefore.2⟩
    · rw [hother t' ht']
  · by_cases ht' : Task.thread p = t
    · rw [← ht'] at hself halive
      rw [ht'] at hself halive ⊢
      rw [hself]
      rcases halive with hne | ha
      · exact absurd rfl hne
      · exact .inr ha
    · exact .inl (hother _ ht')

theorem same_setObj (hp : p ≠ q) (o : PthreadObj β) : Same s (s.setObj q o) p :=
  ⟨update_of_ne hp _ _, rfl, fun _ => Iff.rfl, fun _ => Iff.rfl, Iff.rfl, fun _ => Iff.rfl,
    fun _ => Iff.rfl, .inl rfl⟩

theorem same_free (hp : p ≠ q) (c : Cause) : Same s (s.vPortFree q c) p :=
  ⟨update_of_ne hp _ _, rfl, fun _ => Iff.rfl, fun c' => by simp [vPortFree, hp], Iff.rfl,
    fun _ => Iff.rfl, fun _ => Iff.rfl, .inl rfl⟩

theorem same_joins (hp : p ≠ q) (v : Option β) : Same s { s with joins := (q, v) :: s.joins } p :=
  ⟨rfl, rfl, fun v' => by simp [hp], fun _ => Iff.rfl, Iff.rfl, fun _ => Iff.rfl, fun _ => Iff.rfl,
    .inl rfl⟩

theorem Calm.enter (h : Calm s) : Calm (s.enter t) := by
  refine ⟨h.depth, fun t' => ?_, h.fault, h.returns⟩
  show update s.entry t s.depth t' = 0
  rw [update_apply]
  split
  · exact h.depth
  · exact h.entry t'

theorem Calm.leave (h : Calm s) (code : Nat) : Calm (s.leave t code) := by
  refine ⟨h.depth, h.entry, h.fault, fun r hr => ?_⟩
  rcases List.mem_cons.mp hr with rfl | hr
  · exact h.depth.trans (h.entry t).symm
  · exact h.returns r hr

variable {x : State β} {o : PthreadObj β}

theorem Calm.resume (h : Calm s) (hdepth : x.depth = s.depth + 1) (hentry : x.entry = s.entry)
    (hfault : x.fault = s.fault) (hreturns : x.returns = s.returns) : Calm (xTaskResumeAll x) := by
  refine ⟨?_, ?_, ?_, ?_⟩
  · show x.depth - 1 = 0
    rw [hdepth, h.depth]
    rfl
  · show ∀ t, x.entry t = 0
    rw [hentry]
    exact h.entry
  · exact hfault.trans h.fault
  · show ∀ r ∈ x.returns, _
    rw [hreturns]
    exact h.returns

theorem Calm.resume_leave (h : Calm s) (hdepth : x.depth = s.depth + 1) (hentry : x.entry = s.entry)
    (hfault : x.fault = s.fault) (hreturns : x.returns = s.returns) (code : Nat) :
    Calm ((xTaskResumeAll x).leave t code) :=
  (h.resume hdepth hentry hfault hreturns).leave code

theorem same_of_eq (hblk : s'.blk = s.blk) (hresult : s'.result = s.result) (hjoins : s'.joins = s.joins)
    (hfrees : s'.frees = s.frees) (hnext : s'.next = s.next) (hpc : s'.pc = s.pc) : Same s s' p := by
  constructor
  · rw [hblk]
  · rw [hresult]
  · simp [hjoins]
  · simp [hfrees]
  · rw [hnext]
  · simp [hpc]
  · simp [hpc]
  · exact .inl (by rw [hpc])

theorem same_suspend : Same s (vTaskSuspendAll s) p := same_of_eq rfl rfl rfl rfl rfl rfl

theorem same_resume : Same s (xTaskResumeAll s) p := same_of_eq rfl rfl rfl rfl rfl rfl

theorem same_leave (hbefore : (s.pc t).Off p) (code : Nat)
    (halive : t ≠ .thread p ∨ (s.pc t).alive = true) : Same s (s.leave t code) p := by
  have hgoto : Same s (s.goto t .user) p :=
    same_goto t .user hbefore ⟨nofun, nofun⟩ (halive.imp_right fun h => ⟨h, rfl⟩)
  exact hgoto.trans (same_of_eq rfl rfl rfl rfl rfl rfl)

theorem Inv.quiet (h : Inv s) (hcalm : Calm s') (hsame : ∀ p, Same s s' p) (hjoins : s'.joins = s.joins)
    (hfrees : s'.frees = s.frees) : Inv s' :=
  ⟨hcalm, fun p => (h.fits p).same (hsame p), by rw [hjoins]; exact h.joins,
    by rw [hfrees]; exact h.frees⟩

theorem Inv.about (h : Inv s) (hcalm : Calm s') (hsame : ∀ p, p ≠ q → Same s s' p) (hfits : Fits s' q)
    (hjoins : (s'.joins.map Prod.fst).Nodup) (hfrees : (s'.frees.map Prod.fst).Nodup) : Inv s' := by
  refine ⟨hcalm, fun p => ?_, hjoins, hfrees⟩
  by_cases hp : p = q
  · rw [hp]
    exact hfits
  · exact (h.fits p).same (hsame p hp)

theorem Fits.live (h : Fits s q) (hblk : s.blk q = some o) :
    ¬s.next ≤ q ∧ (∀ c, (q, c) ∉ s.frees) ∧ ∀ v, (q, v) ∉ s.joins := by
  have hfrees : ∀ c, (q, c) ∉ s.frees := by
    intro c hc
    exact h.kept.mp (.inl (by simp [hblk])) (List.mem_map_of_mem hc)
  refine ⟨fun hnext => ?_, hfrees, fun v hv => hfrees _ (h.joined v hv).1⟩
  have hstage := h.stage
  rw [h.unborn hnext, hblk] at hstage
  cases hstage.1

theorem Fits.stays (o' : PthreadObj β) (h : Fits s q) (hblk : s.blk q = some o)
    (hblk' : s'.blk q = some o') (hjoins : s'.joins = s.joins) (hfrees : s'.frees = s.frees)
    (hnext : s'.next = s.next) (hstage : Stage (s'.pc (.thread q)) (some o') (s'.result q))
    (hjoiner : ∀ t, (s'.pc t = .joinBarrier q ∨ s'.pc t = .joinSection q) ↔ o'.joinMutex = some t)
    (hfree : o'.detached = true → o'.joinMutex = none)
    (htaken : ∀ t, s'.pc t = .joinSection q → s'.pc (.thread q) = .exitSuspend ∨ s'.pc (.thread q) = .suspended) :
    Fits s' q := by
  obtain ⟨hborn, hnot, hno⟩ := h.live hblk
  constructor
  · intro hle
    rw [hnext] at hle
    exact absurd hle hborn
  · rw [hblk']
    exact hstage
  · intro t
    rw [hjoiner t, hblk']
    simp
  · intro o2 ho2 hdetached
    rw [hblk'] at ho2
    cases ho2
    exact hfree hdetached
  · exact htaken
  · rw [hblk', hfrees]
    simp [hnot]
  · intro v hv
    rw [hjoins] at hv
    exact absurd hv (hno v)
  · intro c hc
    rw [hfrees] at hc
    exact absurd hc (hnot c)

theorem Fits.goes {c : Cause} {v : β} (h : Fits s q) (hblk : s.blk q = some o)
    (hblk' : s'.blk q = none) (hfrees : s'.frees = (q, c) :: s.frees)
    (hjoins : c = .joined ∧ s'.joins = (q, some v) :: s.joins ∨ (c = .detachedEnded ∨ c = .endedDetached) ∧ s'.joins = s.joins)
    (hnext : s'.next = s.next) (hresult : s'.result q = some v)
    (hpc : s'.pc (.thread q) = .exitDelete ∨ s'.pc (.thread q) = .deleted)
    (hoff : ∀ t, (s'.pc t).Off q) : Fits s' q := by
  obtain ⟨hborn, hnot, hno⟩ := h.live hblk
  constructor
  · intro hle
    rw [hnext] at hle
    exact absurd hle hborn
  · rw [hblk', hresult]
    rcases hpc with hpc | hpc <;> rw [hpc] <;> exact ⟨rfl, v, rfl⟩
  · intro t
    rw [hblk']
    simp [(hoff t).1, (hoff t).2]
  · intro o2 ho2
    rw [hblk'] at ho2
    cases ho2
  · exact fun t ht => absurd ht (hoff t).2
  · rw [hblk', hfrees, hnext]
    simpa using hborn
  · intro w hw
    rcases hjoins with ⟨rfl, hj⟩ | ⟨_, hj⟩
    · rw [hj] at hw
      rcases List.mem_cons.mp hw with heq | hw
      · cases heq
        rw [hfrees]
        exact ⟨List.mem_cons_self, hresult, nofun⟩
      · exact absurd hw (hno w)
    · rw [hj] at hw
      exact absurd hw (hno w)
  · intro c' hc'
    rw [hfrees] at hc'
    rcases List.mem_cons.mp hc' with heq | hc'
    · cases heq
      rcases hjoins with ⟨rfl, hj⟩ | ⟨rfl | rfl, hj⟩
      · rw [hj]
        simp
      · simp [hresult]
      · simp [hresult]
    · exact absurd hc' (hnot c')

end Gpmx.Pthread.Threads
