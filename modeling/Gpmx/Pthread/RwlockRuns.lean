import Gpmx.Pthread.Rwlock
import Mathlib

/-!
# Reader/writer locks: who holds the lock, and who waits for it

Two results about every interleaving of any number of threads. The counters tell how many threads
hold the lock and how many wait for it. And a reader that nothing holds back any more has been
woken, unless the last waiting writer has given up: `pthread_rwlock_timedwrlock` lowers
`rw_nwaitwriters` on its way out, and wakes nobody.
-/

namespace Gpmx.Pthread

open Infra Function

variable {T : Type} [Fintype T] [DecidableEq T]

/-! ## The counters -/

attribute [simp] Phase.isWaitRead Phase.isWaitWrite

def readers (f : T → Phase) : Nat := census (fun p => p = .reading) f

def writers (f : T → Phase) : Nat := census (fun p => p = .writing) f

def waitReaders (f : T → Phase) : Nat := census (fun p => p.isWaitRead = true) f

def waitWriters (f : T → Phase) : Nat := census (fun p => p.isWaitWrite = true) f

structure System.Counted (s : System T) : Prop where
  held : (writers s.threads = 0 ∧ s.lock.rwRefcount = readers s.threads) ∨
    (writers s.threads = 1 ∧ readers s.threads = 0 ∧ s.lock.rwRefcount = -1)
  nwaitreaders : s.lock.rwNwaitreaders = waitReaders s.threads
  nwaitwriters : s.lock.rwNwaitwriters = waitWriters s.threads

theorem tally (f : T → Phase) (t : T) (x : Phase) :
    (readers (update f t x) + (if f t = .reading then 1 else 0)
      = readers f + if x = .reading then 1 else 0) ∧
    (writers (update f t x) + (if f t = .writing then 1 else 0)
      = writers f + if x = .writing then 1 else 0) ∧
    (waitReaders (update f t x) + (if (f t).isWaitRead = true then 1 else 0)
      = waitReaders f + if x.isWaitRead = true then 1 else 0) ∧
    waitWriters (update f t x) + (if (f t).isWaitWrite = true then 1 else 0)
      = waitWriters f + if x.isWaitWrite = true then 1 else 0 :=
  ⟨census_update f t x, census_update f t x, census_update f t x, census_update f t x⟩

omit [DecidableEq T] in
theorem tally_wake {f g : T → Phase} (h : ∀ t, g t = f t ∨ g t = (f t).wake) :
    readers g = readers f ∧ writers g = writers f ∧ waitReaders g = waitReaders f ∧
      waitWriters g = waitWriters f := by
  refine ⟨census_congr fun t => ?_, census_congr fun t => ?_, census_congr fun t => ?_,
    census_congr fun t => ?_⟩ <;>
  · rcases h t with he | he <;> rw [he]
    cases f t <;> simp [Phase.wake]

/-! ## What a section can do -/

variable {s s' : System T} {t : T}

/-- The state once thread `t` has given up its place; `l` are the counters without it. -/
def System.without (s : System T) (t : T) (l : Rwlock) : System T :=
  { lock := l, threads := update s.threads t .idle }

omit [Fintype T] in
theorem settle_without (l : Rwlock) (read timed : Bool) (r : Outcome × Rwlock) :
    (s.without t l).settle t read timed r = s.settle t read timed r := by
  simp [System.without, System.settle]

omit [Fintype T] in
theorem without_idle (l : Rwlock) : (s.without t l).threads t = .idle := update_self ..

variable {timed woken : Bool}

theorem System.Counted.quitRead (h : s.Counted) (ht : s.threads t = .waitRead timed woken) :
    (s.without t
      { s.lock with rwNwaitreaders := s.lock.rwNwaitreaders - 1 }).Counted := by
  obtain ⟨hr, hw, hwr, hww⟩ := tally s.threads t .idle
  simp [ht] at hr hw hwr hww
  obtain ⟨hheld, hnr, hnw⟩ := h
  refine ⟨?_, ?_, ?_⟩ <;> simp only [System.without, hr, hw, hww]
  · exact hheld
  · omega
  · exact hnw

theorem System.Counted.quitWrite (h : s.Counted) (ht : s.threads t = .waitWrite timed woken) :
    (s.without t
      { s.lock with rwNwaitwriters := s.lock.rwNwaitwriters - 1 }).Counted := by
  obtain ⟨hr, hw, hwr, hww⟩ := tally s.threads t .idle
  simp [ht] at hr hw hwr hww
  obtain ⟨hheld, hnr, hnw⟩ := h
  refine ⟨?_, ?_, ?_⟩ <;> simp only [System.without, hr, hw, hwr]
  · exact hheld
  · exact hnr
  · omega

theorem System.Counted.enterRead (h : s.Counted) (ht : s.threads t = .idle) (timed : Bool) :
    (s.settle t true timed (rdlockLoop s.lock)).Counted := by
  obtain ⟨hheld, hnr, hnw⟩ := h
  unfold rdlockLoop
  split
  · obtain ⟨hr, hw, hwr, hww⟩ := tally s.threads t (.waitRead timed false)
    simp [ht] at hr hw hwr hww
    refine ⟨?_, ?_, ?_⟩ <;> simp only [System.settle, phaseAfter, if_true, hr, hw, hww]
    · exact hheld
    · omega
    · exact hnw
  · rename_i hfree
    obtain ⟨hr, hw, hwr, hww⟩ := tally s.threads t .reading
    simp [ht] at hr hw hwr hww
    refine ⟨?_, ?_, ?_⟩ <;> simp only [System.settle, phaseAfter, if_true, hw, hwr, hww]
    · omega
    · exact hnr
    · exact hnw

theorem System.Counted.enterWrite (h : s.Counted) (ht : s.threads t = .idle) (timed : Bool) :
    (s.settle t false timed (wrlockLoop s.lock)).Counted := by
  obtain ⟨hheld, hnr, hnw⟩ := h
  unfold wrlockLoop
  split
  · obtain ⟨hr, hw, hwr, hww⟩ := tally s.threads t (.waitWrite timed false)
    simp [ht] at hr hw hwr hww
    refine ⟨?_, ?_, ?_⟩ <;>
      simp only [System.settle, phaseAfter, Bool.false_eq_true, if_false, hr, hw, hwr]
    · exact hheld
    · exact hnr
    · omega
  · rename_i hfree
    have hzero : s.lock.rwRefcount = 0 := by simpa using hfree
    obtain ⟨hr, hw, hwr, hww⟩ := tally s.threads t .writing
    simp [ht] at hr hw hwr hww
    refine ⟨?_, ?_, ?_⟩ <;>
      simp only [System.settle, phaseAfter, Bool.false_eq_true, if_false, if_true, hr, hwr, hww]
    · exact .inr ⟨by omega, by omega, trivial⟩
    · exact hnr
    · exact hnw

omit [Fintype T] in
theorem settle_idle (ht : s.threads t = .idle) (read timed : Bool) {result : Int}
    (hne : result ≠ 0) : s.settle t read timed (.ret result, s.lock) = s := by
  simp only [System.settle, phaseAfter, if_neg hne]
  rw [← ht, update_eq_self]

omit [Fintype T] in
theorem settle_call (ht : s.threads t = .idle) (c : LockCall) :
    let after := s.settle t c.isRead c.isTimed (c.enter s.lock)
    after = s ∨ (∃ timed, after = s.settle t true timed (rdlockLoop s.lock)) ∨
      ∃ timed, after = s.settle t false timed (wrlockLoop s.lock) := by
  have hbusy : EBUSY ≠ 0 := by decide
  cases c with
  | rdlock => exact .inr (.inl ⟨false, rfl⟩)
  | timedrdlock => exact .inr (.inl ⟨true, rfl⟩)
  | wrlock => exact .inr (.inr ⟨false, rfl⟩)
  | timedwrlock => exact .inr (.inr ⟨true, rfl⟩)
  | tryrdlock =>
    simp only [LockCall.enter, pthreadRwlockTryrdlock, LockCall.isRead, LockCall.isTimed]
    split
    · exact .inl (settle_idle ht true false hbusy)
    · next hfree =>
      refine .inr (.inl ⟨false, ?_⟩)
      rw [rdlockLoop, if_neg hfree]
  | trywrlock =>
    simp only [LockCall.enter, pthreadRwlockTrywrlock, LockCall.isRead, LockCall.isTimed]
    split
    · exact .inl (settle_idle ht false false hbusy)
    · next hfree =>
      refine .inr (.inr ⟨false, ?_⟩)
      rw [wrlockLoop, if_neg hfree]

theorem System.Counted.call (h : s.Counted) (ht : s.threads t = .idle) (c : LockCall) :
    (s.settle t c.isRead c.isTimed (c.enter s.lock)).Counted := by
  rcases settle_call ht c with hsame | ⟨timed, hread⟩ | ⟨timed, hwrite⟩
  · rw [hsame]
    exact h
  · rw [hread]
    exact h.enterRead ht timed
  · rw [hwrite]
    exact h.enterWrite ht timed

theorem System.Counted.resumeRead (h : s.Counted) (ht : s.threads t = .waitRead timed woken)
    (result : Int) : (s.settle t true timed (rdlockResume result s.lock)).Counted := by
  have hquit := h.quitRead ht
  unfold rdlockResume
  by_cases hres : result = 0
  · rw [if_neg (by simpa using hres), ← settle_without
      { s.lock with rwNwaitreaders := s.lock.rwNwaitreaders - 1 }]
    exact hquit.enterRead (without_idle _) timed
  · rw [if_pos hres]
    simp only [System.settle, phaseAfter, if_neg hres]
    exact hquit

theorem System.Counted.resumeWrite (h : s.Counted) (ht : s.threads t = .waitWrite timed woken)
    (result : Int) : (s.settle t false timed (wrlockResume result s.lock)).Counted := by
  have hquit := h.quitWrite ht
  unfold wrlockResume
  by_cases hres : result = 0
  · rw [if_neg (by simpa using hres), ← settle_without
      { s.lock with rwNwaitwriters := s.lock.rwNwaitwriters - 1 }]
    exact hquit.enterWrite (without_idle _) timed
  · rw [if_pos hres]
    simp only [System.settle, phaseAfter, if_neg hres]
    exact hquit

theorem unlock_lock (l : Rwlock) : (pthreadRwlockUnlock l).2 = releaseOne l := by
  simp only [pthreadRwlockUnlock]
  split <;>
  · split <;> rfl

theorem System.Counted.release (h : s.Counted)
    (ht : s.threads t = .reading ∨ s.threads t = .writing) :
    (s.without t (releaseOne s.lock)).Counted := by
  obtain ⟨hheld, hnr, hnw⟩ := h
  obtain ⟨hr, hw, hwr, hww⟩ := tally s.threads t .idle
  unfold releaseOne
  rcases ht with ht | ht
  · have hpos : 0 < readers s.threads := census_pos ht
    simp [ht] at hr hw hwr hww
    rw [if_pos (by omega)]
    refine ⟨?_, ?_, ?_⟩ <;> simp only [System.without, hw, hwr, hww]
    · omega
    · exact hnr
    · exact hnw
  · have hpos : 0 < writers s.threads := census_pos ht
    simp [ht] at hr hw hwr hww
    rw [if_neg (by omega), if_pos (by omega)]
    refine ⟨?_, ?_, ?_⟩ <;> simp only [System.without, hr, hwr, hww]
    · omega
    · exact hnr
    · exact hnw

theorem notify_wakes {f g : T → Phase} {target : T} {sig : Signal} (h : notify f target sig = some g)
    (u : T) : g u = f u ∨ g u = (f u).wake := by
  cases sig with
  | none =>
    cases h
    exact .inl rfl
  | signalWriters =>
    simp only [notify, signalWriter] at h
    split at h
    · cases h
      by_cases hu : u = target
      · subst hu
        exact .inr (update_self ..)
      · exact .inl (update_of_ne hu ..)
    · split at h
      · cases h
      · cases h
        exact .inl rfl
  | broadcastReaders =>
    cases h
    simp only [Phase.wakeReader]
    split
    · exact .inr rfl
    · exact .inl rfl

/-- **Every section keeps the counters right.** -/
theorem System.Counted.step {a : Act T} (h : s.Counted) (hs : s.step a = some s') : s'.Counted := by
  cases a with simp only [System.step] at hs
  | call t c =>
    split at hs
    · rename_i ht
      cases hs
      exact h.call ht c
    · cases hs
  | resume t result =>
    split at hs
    · rename_i ht
      split at hs
      · cases hs
      · cases hs
        exact h.resumeRead ht result
    · rename_i ht
      split at hs
      · cases hs
      · cases hs
        exact h.resumeWrite ht result
    · cases hs
  | unlock t target =>
    split at hs
    · rename_i ht
      obtain ⟨g, hg, hs⟩ := Option.bind_eq_some_iff.mp hs
      cases hs
      obtain ⟨hheld, hnr, hnw⟩ := h.release ht
      obtain ⟨hr, hw, hwr, hww⟩ := tally_wake (notify_wakes hg)
      rw [unlock_lock]
      exact ⟨by rw [hr, hw]; exact hheld, by rw [hwr]; exact hnr, by rw [hww]; exact hnw⟩
    · cases hs

omit [DecidableEq T] in
theorem counted_start : (System.start T).Counted := by
  have hzero : ∀ (p : Phase → Prop) [DecidablePred p], ¬p .idle →
      census p (System.start T).threads = 0 := by
    intro p _ hp
    exact census_eq_zero.mpr fun _ => hp
  have hr : readers (System.start T).threads = 0 := hzero _ (by simp)
  have hw : writers (System.start T).threads = 0 := hzero _ (by simp)
  have hwr : waitReaders (System.start T).threads = 0 := hzero _ (by simp)
  have hww : waitWriters (System.start T).threads = 0 := hzero _ (by simp)
  exact ⟨.inl ⟨hw, by rw [hr]; rfl⟩, by rw [hwr]; rfl, by rw [hww]; rfl⟩

/--
**The lock is held by one writer alone or by readers, and the counters count the threads.**

For any threads and any interleaving of their calls, in every state with `rw_mutex` free.
-/
theorem rwlock_counted (h : Reaches System.step Always (System.start T) s) :
    ((writers s.threads = 0 ∧ s.lock.rwRefcount = readers s.threads) ∨
      (writers s.threads = 1 ∧ readers s.threads = 0 ∧ s.lock.rwRefcount = -1)) ∧
    s.lock.rwNwaitreaders = waitReaders s.threads ∧
    s.lock.rwNwaitwriters = waitWriters s.threads := by
  have hcounted : s.Counted := h.invariant (P := System.Counted) counted_start
    fun s a s' hs _ hstep => hs.step hstep
  exact ⟨hcounted.held, hcounted.nwaitreaders, hcounted.nwaitwriters⟩

def twoReaders : List (Act (Fin 2)) :=
  [.call 0 .wrlock, .call 1 .rdlock, .unlock 0 0, .resume 1 0, .call 0 .tryrdlock]

theorem twoReaders_reached : ∃ s, Reaches System.step Always (System.start (Fin 2)) s ∧
    s.lock = { rwNwaitwriters := 0, rwNwaitreaders := 0, rwRefcount := 2 } := by
  have hrun : (twoReaders.foldlM System.step (System.start (Fin 2))).map System.lock
      = some { rwNwaitwriters := 0, rwNwaitreaders := 0, rwRefcount := 2 } := by decide
  obtain ⟨s, hs, hlock⟩ := Option.map_eq_some_iff.mp hrun
  exact ⟨s, Reaches.of_foldlM _ hs, hlock⟩

theorem rwlock_counted_two : ∃ s : System (Fin 2), Reaches System.step Always (System.start (Fin 2)) s ∧
    s.lock.rwRefcount = 2 ∧
    ((writers s.threads = 0 ∧ s.lock.rwRefcount = readers s.threads) ∨
      (writers s.threads = 1 ∧ readers s.threads = 0 ∧ s.lock.rwRefcount = -1)) ∧
    s.lock.rwNwaitreaders = waitReaders s.threads ∧
    s.lock.rwNwaitwriters = waitWriters s.threads := by
  obtain ⟨s, hs, hlock⟩ := twoReaders_reached
  exact ⟨s, hs, by rw [hlock], rwlock_counted hs⟩

def System.Open (s : System T) : Prop := 0 ≤ s.lock.rwRefcount ∧ s.lock.rwNwaitwriters ≤ 0

def System.Awake (s : System T) : Prop := s.Open → ∀ t timed, s.threads t ≠ .waitRead timed false

/--
A writer's wait ends without the lock only if another writer waits, or a writer holds the lock, or
no reader sleeps.
-/
def NoQuit (s : System T) : Act T → Prop
  | .resume t result => (s.threads t).isWaitWrite = true → result ≠ 0 →
      1 < s.lock.rwNwaitwriters ∨ s.lock.rwRefcount < 0 ∨
        ∀ u timed, s.threads u ≠ .waitRead timed false
  | _ => True

omit [DecidableEq T] in
theorem System.Counted.nwaitwriters_nonneg (h : s.Counted) : 0 ≤ s.lock.rwNwaitwriters := by
  rw [h.nwaitwriters]
  omega

omit [Fintype T] in
theorem awake_update {x : Phase}
    (h : ∀ u timed, u ≠ t → s.threads u ≠ .waitRead timed false)
    (hx : ∀ timed, x ≠ .waitRead timed false) :
    ∀ u timed, update s.threads t x u ≠ .waitRead timed false := by
  intro u timed
  by_cases hu : u = t
  · subst hu
    rw [update_self]
    exact hx timed
  · rw [update_of_ne hu]
    exact h u timed hu

omit [Fintype T] in
theorem System.Awake.rdlockLoop (h : s.Awake) {l : Rwlock} (hr : l.rwRefcount = s.lock.rwRefcount)
    (hw : l.rwNwaitwriters = s.lock.rwNwaitwriters) (timed : Bool) :
    (s.settle t true timed (rdlockLoop l)).Awake := by
  unfold Pthread.rdlockLoop
  split
  · rintro ⟨hopen, hwait⟩
    simp only [System.settle] at hopen hwait
    omega
  · rename_i hfree
    intro _
    refine awake_update (fun u timed _ => h ⟨by omega, by omega⟩ u timed) ?_
    intro timed
    simp [phaseAfter]

omit [Fintype T] in
theorem awake_wrlockLoop {l : Rwlock} (hw : 0 ≤ l.rwNwaitwriters) (timed : Bool) :
    (s.settle t false timed (wrlockLoop l)).Awake := by
  unfold wrlockLoop
  split
  · rintro ⟨-, hwait⟩
    simp only [System.settle] at hwait
    omega
  · rintro ⟨hopen, -⟩
    simp only [System.settle] at hopen
    omega

theorem System.Awake.call (h : s.Awake) (hc : s.Counted) (ht : s.threads t = .idle) (c : LockCall) :
    (s.settle t c.isRead c.isTimed (c.enter s.lock)).Awake := by
  rcases settle_call ht c with hsame | ⟨timed, hread⟩ | ⟨timed, hwrite⟩
  · rw [hsame]
    exact h
  · rw [hread]
    exact h.rdlockLoop rfl rfl timed
  · rw [hwrite]
    exact awake_wrlockLoop hc.nwaitwriters_nonneg timed

omit [Fintype T] in
theorem System.Awake.resumeRead (h : s.Awake) (timed : Bool) (result : Int) :
    (s.settle t true timed (rdlockResume result s.lock)).Awake := by
  unfold rdlockResume
  by_cases hres : result = 0
  · rw [if_neg (by simpa using hres)]
    exact System.Awake.rdlockLoop (l := { s.lock with rwNwaitreaders := s.lock.rwNwaitreaders - 1 }) h
      rfl rfl timed
  · rw [if_pos hres]
    intro hopen
    refine awake_update (fun u timed _ => h hopen u timed) ?_
    intro timed
    simp [phaseAfter, hres]

theorem awake_resumeWrite (hc : s.Counted) (ht : s.threads t = .waitWrite timed woken)
    {result : Int} (hok : NoQuit s (.resume t result)) :
    (s.settle t false timed (wrlockResume result s.lock)).Awake := by
  have hwaits : 0 < waitWriters s.threads := census_pos (t := t) (by rw [ht]; rfl)
  have hcount := hc.nwaitwriters
  unfold wrlockResume
  by_cases hres : result = 0
  · rw [if_neg (by simpa using hres)]
    refine awake_wrlockLoop ?_ timed
    simp only
    omega
  · rw [if_pos hres]
    rintro ⟨hopen, hwait⟩
    simp only [System.settle] at hopen hwait
    rcases hok (by rw [ht]; rfl) hres with hmore | hheld | hnone
    · omega
    · omega
    · refine awake_update (fun u timed _ => hnone u timed) ?_
      intro timed
      simp [phaseAfter, hres]

theorem awake_unlock (hc : s.Counted) (ht : s.threads t = .reading ∨ s.threads t = .writing)
    {target : T} {g : T → Phase}
    (hg : notify (update s.threads t .idle) target (pthreadRwlockUnlock s.lock).1 = some g) :
    System.Awake { lock := (pthreadRwlockUnlock s.lock).2, threads := g } := by
  have hcount := (hc.release ht).nwaitreaders
  rintro ⟨hopen, hwait⟩ u timed
  simp only [unlock_lock] at hopen hwait
  simp only [pthreadRwlockUnlock] at hg
  rw [if_neg (by omega)] at hg
  split at hg
  · -- every reader is woken
    cases hg
    simp only [Phase.wakeReader]
    cases update s.threads t .idle u <;> simp [Phase.wake]
  · rename_i hnone
    cases hg
    have hzero : waitReaders (update s.threads t .idle) = 0 := by
      simp only [System.without] at hcount
      omega
    intro hu
    have hu : update s.threads t .idle u = .waitRead timed false := hu
    exact census_eq_zero.mp hzero u (by rw [hu]; rfl)

theorem System.Awake.step {a : Act T} (h : s.Awake) (hc : s.Counted) (hok : NoQuit s a)
    (hs : s.step a = some s') : s'.Awake := by
  cases a with simp only [System.step] at hs
  | call t c =>
    split at hs
    · rename_i ht
      cases hs
      exact h.call hc ht c
    · cases hs
  | resume t result =>
    split at hs
    · split at hs
      · cases hs
      · cases hs
        exact h.resumeRead _ result
    · rename_i ht
      split at hs
      · cases hs
      · cases hs
        exact awake_resumeWrite hc ht hok
    · cases hs
  | unlock t target =>
    split at hs
    · rename_i ht
      obtain ⟨g, hg, hs⟩ := Option.bind_eq_some_iff.mp hs
      cases hs
      exact awake_unlock hc ht hg
    · cases hs

/--
**A reader that nothing holds back has been woken.**

For any threads, in every run in which no writer's wait ends in vain with it the last waiting
writer, no writer holding the lock, and a reader asleep: if no writer holds the lock and none
waits, every reader that still waits has a wake-up outstanding.
-/
theorem rwlock_no_stranded_reader (h : Reaches System.step NoQuit (System.start T) s)
    (hheld : writers s.threads = 0) (hwait : waitWriters s.threads = 0) (t : T) (timed : Bool) :
    s.threads t ≠ .waitRead timed false := by
  have hinv : s.Counted ∧ s.Awake := by
    refine h.invariant (P := fun s => s.Counted ∧ s.Awake)
      ⟨counted_start, fun _ t timed ht => nomatch ht⟩ ?_
    rintro s a s' ⟨hc, ha⟩ hok hstep
    exact ⟨hc.step hstep, ha.step hc hok hstep⟩
  obtain ⟨hc, ha⟩ := hinv
  refine ha ⟨?_, ?_⟩ t timed
  · rcases hc.held with ⟨-, hr⟩ | ⟨hone, -⟩
    · omega
    · omega
  · have := hc.nwaitwriters
    omega

def writerServed : List (Act (Fin 3)) :=
  [.call 0 .rdlock, .call 1 .timedwrlock, .call 2 .rdlock, .unlock 0 1, .resume 1 0, .unlock 1 1]

theorem writerServed_reached : ∃ s, Reaches System.step NoQuit (System.start (Fin 3)) s ∧
    s.threads = ![.idle, .idle, .waitRead false true] := by
  have hrun : (writerServed.foldlM System.step (System.start (Fin 3))).map System.threads
      = some ![.idle, .idle, .waitRead false true] := by decide
  obtain ⟨s, hs, hthreads⟩ := Option.map_eq_some_iff.mp hrun
  refine ⟨s, Reaches.of_foldlM_of_forall _ hs ?_, hthreads⟩
  simp [writerServed, NoQuit]

theorem rwlock_no_stranded_reader_three : ∃ s : System (Fin 3),
    Reaches System.step NoQuit (System.start (Fin 3)) s ∧ s.threads 2 = .waitRead false true ∧
      ∀ t timed, s.threads t ≠ .waitRead timed false := by
  obtain ⟨s, hs, hthreads⟩ := writerServed_reached
  have hheld : writers s.threads = 0 := by
    rw [hthreads]
    decide
  have hwait : waitWriters s.threads = 0 := by
    rw [hthreads]
    decide
  exact ⟨s, hs, by rw [hthreads]; rfl, rwlock_no_stranded_reader hs hheld hwait⟩

/-- The same start, but the writer times out: the reader behind it sleeps on. -/
theorem reader_stranded : ∃ s : System (Fin 3), Reaches System.step Always (System.start (Fin 3)) s ∧
    writers s.threads = 0 ∧ waitWriters s.threads = 0 ∧ s.threads 2 = .waitRead false false ∧
      ∀ t timed, s.threads t ≠ .waitRead timed true := by
  have hrun : (([.call 0 .rdlock, .call 1 .timedwrlock, .call 2 .rdlock,
      .resume 1 ETIMEDOUT] : List (Act (Fin 3))).foldlM System.step (System.start (Fin 3))).map
      System.threads = some ![.reading, .idle, .waitRead false false] := by decide
  obtain ⟨s, hs, hthreads⟩ := Option.map_eq_some_iff.mp hrun
  refine ⟨s, Reaches.of_foldlM _ hs, ?_⟩
  rw [hthreads]
  decide

end Gpmx.Pthread
