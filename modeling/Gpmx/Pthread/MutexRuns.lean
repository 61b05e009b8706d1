import Gpmx.Pthread.Mutex

/-!
# Mutexes on FreeRTOS, over runs

`Sound` is kept by every step that is `Allowed`: the holder of the semaphore is the thread that has got
the mutex, and the owner in the mutex is this thread, or nobody while the thread is about to write it.
-/

namespace Gpmx.Pthread.Mutex

open Infra Function

variable {T : Type} [DecidableEq T]

def kind (m : PthreadMutex T) : Int := if m.initialized then mtype m.attr else PTHREAD_MUTEX_NORMAL

def Allowed (s : State T) : Act T → Prop
  | .call t c => kind s.mutex = PTHREAD_MUTEX_NORMAL → c = .unlock → 0 < s.depth t
  | .goOn _ => True

instance (s : State T) (a : Act T) : Decidable (Allowed s a) :=
  match a with
  | .call t c =>
    inferInstanceAs (Decidable (kind s.mutex = PTHREAD_MUTEX_NORMAL → c = .unlock → 0 < s.depth t))
  | .goOn _ => isTrue trivial

def PcOk (type : Int) (depth : Nat) : Pc → Prop
  | .idle => True
  | .enter c => depth = 0 ∧ c ≠ .unlock
  | .check c => type = PTHREAD_MUTEX_NORMAL → c = .unlock → 0 < depth
  | .take _ => type = PTHREAD_MUTEX_ERRORCHECK → depth = 0
  | .own => 0 < depth
  | .give => 0 < depth

structure Untouched (s : State T) : Prop where
  initialized : s.mutex.initialized = false
  lock : s.mutex.lock = none
  owner : s.mutex.owner = none
  depth : ∀ t, s.depth t = 0
  pc : ∀ t, s.pc t = .idle ∨ ∃ c, c ≠ .unlock ∧ s.pc t = .enter c

structure Sound (s : State T) (k : Semaphore T) : Prop where
  initialized : s.mutex.initialized = true
  lock : s.mutex.lock = some k
  type : Documented (mtype s.mutex.attr)
  holder : ∀ t, k.xMutexHolder = some t ↔ 0 < s.depth t
  count : mtype s.mutex.attr = PTHREAD_MUTEX_RECURSIVE →
    ∀ t, k.xMutexHolder = some t → k.uxRecursiveCallCount = s.depth t
  idle : k.xMutexHolder = none → mtype s.mutex.attr = PTHREAD_MUTEX_RECURSIVE → k.uxRecursiveCallCount = 0
  once : mtype s.mutex.attr ≠ PTHREAD_MUTEX_RECURSIVE → ∀ t, s.depth t ≤ 1
  owner : ∀ t, s.mutex.owner = some t → 0 < s.depth t
  owned : ∀ t, 0 < s.depth t → s.mutex.owner = some t ∨ s.pc t = .own
  pcs : ∀ t, PcOk (mtype s.mutex.attr) (s.depth t) (s.pc t)

structure Inv (s : State T) : Prop where
  fault : s.fault = false
  mutex : Untouched s ∨ ∃ k, Sound s k

section Steps

variable {s s' : State T} {k k' : Semaphore T} {t u : T} {c : Call} {pc : Pc} {r : Option Int}

omit [DecidableEq T] in
theorem Sound.unique (h : Sound s k) (ht : 0 < s.depth t) (hu : 0 < s.depth u) : t = u := by
  have hholder := (h.holder t).mpr ht
  rw [(h.holder u).mpr hu] at hholder
  exact (Option.some.inj hholder).symm

theorem Sound.goto (h : Sound s k) (hpc : PcOk (mtype s.mutex.attr) (s.depth t) pc)
    (howned : s.pc t ≠ .own) : Sound (s.goto t pc) k := by
  have hpcs : ∀ u, (s.goto t pc).pc u = if u = t then pc else s.pc u := fun u => update_apply ..
  refine { h with owned := fun u hu => ?_, pcs := fun u => ?_ }
  · rcases h.owned u hu with ho | ho
    · exact .inl ho
    · have hne : u ≠ t := by
        rintro rfl
        exact howned ho
      rw [hpcs, if_neg hne]
      exact .inr ho
  · rw [hpcs]
    split
    · rename_i hut
      rw [hut]
      exact hpc
    · exact h.pcs u

omit [DecidableEq T] in
theorem Sound.owner_iff (h : Sound s k) (hpc : s.pc t ≠ .own) :
    s.mutex.owner = some t ↔ 0 < s.depth t :=
  ⟨h.owner t, fun ht => (h.owned t ht).resolve_right hpc⟩

theorem Untouched.enter (h : Untouched s) (hpc : s.pc t = .enter c) :
    Sound ((s.setMutex (initStaticmutix s.mutex)).goto t (.check c)) .create := by
  have hinit : initStaticmutix s.mutex =
      { s.mutex with attr := pthreadDefaultMutexattr, lock := some .create, initialized := true } := by
    unfold initStaticmutix
    rw [if_neg (by simp [h.initialized])]
  have hkind : mtype (initStaticmutix s.mutex).attr = PTHREAD_MUTEX_NORMAL := by
    rw [hinit]
    exact mtype_default
  have hsound : Sound (s.setMutex (initStaticmutix s.mutex)) .create := by
    constructor
    · show (initStaticmutix s.mutex).initialized = true
      rw [hinit]
    · show (initStaticmutix s.mutex).lock = _
      rw [hinit]
    · exact .inl hkind
    · intro u
      have hu : (s.setMutex (initStaticmutix s.mutex)).depth u = 0 := h.depth u
      rw [hu]
      simp [Semaphore.create]
    · intro _ u hu
      cases hu
    · exact fun _ _ => rfl
    · intro _ u
      have hu : (s.setMutex (initStaticmutix s.mutex)).depth u = 0 := h.depth u
      omega
    · intro u hu
      have hu : (initStaticmutix s.mutex).owner = some u := hu
      rw [hinit] at hu
      rw [h.owner] at hu
      cases hu
    · intro u hu
      exact absurd (h.depth u) (Nat.pos_iff_ne_zero.mp hu)
    · intro u
      show PcOk _ (s.depth u) (s.pc u)
      rcases h.pc u with hu | ⟨c', hc', hu⟩
      · rw [hu]
        trivial
      · rw [hu]
        exact ⟨h.depth u, hc'⟩
  refine hsound.goto ?_ ?_
  · have hok := hsound.pcs t
    have hpc' : (s.setMutex (initStaticmutix s.mutex)).pc t = .enter c := hpc
    rw [hpc'] at hok
    exact fun _ hc => absurd hc hok.2
  · show s.pc t ≠ .own
    rw [hpc]
    nofun

theorem Sound.enter (h : Sound s k) (hpc : s.pc t = .enter c) :
    Sound ((s.setMutex (initStaticmutix s.mutex)).goto t (.check c)) k := by
  have hinit : initStaticmutix s.mutex = s.mutex := by
    unfold initStaticmutix
    rw [if_pos h.initialized]
  rw [hinit]
  refine Sound.goto (s := s.setMutex s.mutex) h ?_ ?_
  · have hok := h.pcs t
    rw [hpc] at hok
    exact fun _ hc => absurd hc hok.2
  · show s.pc t ≠ .own
    rw [hpc]
    nofun

theorem Sound.check_lock (h : Sound s k) (hpc : s.pc t = .check c) (hc : c ≠ .unlock) :
    Sound (check s t c).1 k ∧ (check s t c).1.mutex = s.mutex ∧ (check s t c).1.depth = s.depth ∧
      (check s t c).1.fault = s.fault ∧
      (check s t c).2 = if mtype s.mutex.attr = PTHREAD_MUTEX_ERRORCHECK ∧ 0 < s.depth t then some EDEADLK
        else none := by
  have hown : s.pc t ≠ .own := by
    rw [hpc]
    nofun
  have hcheck : check s t c = if mtype s.mutex.attr = PTHREAD_MUTEX_ERRORCHECK ∧ s.mutex.owner = some t then
      (s.goto t .idle, some EDEADLK) else (s.goto t (.take c), none) := by
    cases c with
    | unlock => exact absurd rfl hc
    | _ => rfl
  rw [hcheck]
  simp only [h.owner_iff hown]
  split
  · exact ⟨h.goto trivial hown, rfl, rfl, rfl, rfl⟩
  · rename_i hno
    refine ⟨h.goto (fun herr => ?_) hown, rfl, rfl, rfl, rfl⟩
    exact Nat.eq_zero_of_not_pos fun hpos => hno ⟨herr, hpos⟩

theorem Sound.check_unlock (h : Sound s k) (hpc : s.pc t = .check .unlock) :
    Sound (check s t .unlock).1 k ∧ (check s t .unlock).1.mutex = s.mutex ∧
      (check s t .unlock).1.depth = s.depth ∧ (check s t .unlock).1.fault = s.fault ∧
      (check s t .unlock).2 = if 0 < s.depth t then none else some EPERM := by
  have hown : s.pc t ≠ .own := by
    rw [hpc]
    nofun
  have howner := h.owner_iff hown
  unfold check
  by_cases hpos : 0 < s.depth t
  · rw [if_neg fun hno => hno.2 (howner.mpr hpos), if_pos hpos]
    exact ⟨h.goto hpos hown, rfl, rfl, rfl, rfl⟩
  · have htype : mtype s.mutex.attr = PTHREAD_MUTEX_ERRORCHECK ∨
        mtype s.mutex.attr = PTHREAD_MUTEX_RECURSIVE := by
      have hok := h.pcs t
      rw [hpc] at hok
      exact h.type.resolve_left fun hn => hpos (hok hn rfl)
    rw [if_pos ⟨htype, fun ho => hpos (howner.mp ho)⟩, if_neg hpos]
    exact ⟨h.goto trivial hown, rfl, rfl, rfl, rfl⟩

def took (s : State T) (k : Semaphore T) (t : T) : Option (Semaphore T) :=
  if mtype s.mutex.attr = PTHREAD_MUTEX_RECURSIVE then k.takeRecursive t else k.take t

theorem takeSemaphore_eq (hlock : s.mutex.lock = some k) : takeSemaphore s t c =
    match took s k t with
    | some k' => some (((s.setMutex { s.mutex with lock := some k' }).got t).goto t .own, none)
    | none => if c = .trylock then some (s.goto t .idle, some EBUSY) else none := by
  unfold takeSemaphore
  rw [hlock]
  rfl

theorem Sound.took (h : Sound s k) (hk : took s k t = some k') :
    Sound (((s.setMutex { s.mutex with lock := some k' }).got t).goto t .own) k' := by
  have hdepth : ∀ u, (((s.setMutex { s.mutex with lock := some k' }).got t).goto t .own).depth u =
      if u = t then s.depth t + 1 else s.depth u := fun u => update_apply ..
  have hpcs : ∀ u, (((s.setMutex { s.mutex with lock := some k' }).got t).goto t .own).pc u =
      if u = t then .own else s.pc u := fun u => update_apply ..
  -- the semaphore was free, or the thread had it
  have hcases : k'.xMutexHolder = some t ∧ (∀ u, 0 < s.depth u → u = t) ∧
      (mtype s.mutex.attr = PTHREAD_MUTEX_RECURSIVE → k'.uxRecursiveCallCount = s.depth t + 1) ∧
      (mtype s.mutex.attr ≠ PTHREAD_MUTEX_RECURSIVE → s.depth t = 0) := by
    have hfree : k.xMutexHolder = none → ∀ u, s.depth u = 0 := by
      intro hnone u
      refine Nat.eq_zero_of_not_pos fun hpos => ?_
      rw [(h.holder u).mpr hpos] at hnone
      cases hnone
    unfold Mutex.took Semaphore.takeRecursive Semaphore.take at hk
    split at hk
    · rename_i hrec
      split at hk
      · rename_i hmine
        cases hk
        refine ⟨hmine, fun u hu => h.unique hu ((h.holder t).mp hmine), fun _ => ?_, fun hno => absurd hrec hno⟩
        show k.uxRecursiveCallCount + 1 = _
        rw [h.count hrec t hmine]
      · split at hk
        · rename_i hnone
          cases hk
          refine ⟨rfl, fun u hu => ?_, fun _ => ?_, fun hno => absurd hrec hno⟩
          · rw [hfree hnone u] at hu
            cases hu
          · show k.uxRecursiveCallCount + 1 = _
            rw [h.idle hnone hrec, hfree hnone t]
        · cases hk
    · rename_i hrec
      split at hk
      · rename_i hnone
        cases hk
        refine ⟨rfl, fun u hu => ?_, fun hyes => absurd hyes hrec, fun _ => hfree hnone t⟩
        rw [hfree hnone u] at hu
        cases hu
      · cases hk
  obtain ⟨hholder, honly, hcount, honce⟩ := hcases
  have hothers : ∀ u, u ≠ t → s.depth u = 0 := fun u hu => Nat.eq_zero_of_not_pos fun hpos => hu (honly u hpos)
  constructor
  · exact h.initialized
  · rfl
  · exact h.type
  · intro u
    rw [hdepth, hholder]
    by_cases hu : u = t
    · simp [hu]
    · simp [hu, Ne.symm hu, hothers u hu]
  · intro hrec u hu
    rw [hholder] at hu
    cases hu
    rw [hdepth, if_pos rfl]
    exact hcount hrec
  · intro hnone
    rw [hholder] at hnone
    cases hnone
  · intro hrec u
    rw [hdepth]
    have hzero := honce hrec
    have hone := h.once hrec u
    split <;> omega
  · intro u hu
    have hpos := h.owner u hu
    rw [hdepth, honly u hpos, if_pos rfl]
    exact Nat.succ_pos _
  · intro u hu
    rw [hpcs]
    rw [hdepth] at hu
    by_cases hut : u = t
    · exact .inr (if_pos hut)
    · rw [if_neg hut, hothers u hut] at hu
      cases hu
  · intro u
    rw [hpcs, hdepth]
    by_cases hut : u = t
    · rw [if_pos hut, if_pos hut]
      exact Nat.succ_pos _
    · rw [if_neg hut, if_neg hut]
      exact h.pcs u

theorem Sound.own (h : Sound s k) (hpc : s.pc t = .own) :
    Sound ((s.setMutex { s.mutex with owner := some t }).goto t .idle) k := by
  have hpos : 0 < s.depth t := by
    have hok := h.pcs t
    rw [hpc] at hok
    exact hok
  have hpcs : ∀ u, ((s.setMutex { s.mutex with owner := some t }).goto t .idle).pc u =
      if u = t then .idle else s.pc u := fun u => update_apply ..
  refine ⟨h.initialized, h.lock, h.type, h.holder, h.count, h.idle, h.once, fun u hu => ?_, fun u hu => ?_,
    fun u => ?_⟩
  · cases hu
    exact hpos
  · rw [h.unique hu hpos]
    exact .inl rfl
  · rw [hpcs]
    split
    · trivial
    · exact h.pcs u

def given (s : State T) (k : Semaphore T) (t : T) : Semaphore T :=
  if mtype s.mutex.attr = PTHREAD_MUTEX_RECURSIVE then k.giveRecursive t else k.give

theorem Sound.given_holder (h : Sound s k) (hpos : 0 < s.depth t) :
    ((given s k t).xMutexHolder = if s.depth t - 1 = 0 then none else some t) ∧
      (mtype s.mutex.attr = PTHREAD_MUTEX_RECURSIVE → (given s k t).uxRecursiveCallCount = s.depth t - 1) := by
  have hholder := (h.holder t).mpr hpos
  unfold given
  split
  · rename_i hrec
    have hcount := h.count hrec t hholder
    unfold Semaphore.giveRecursive
    rw [if_pos hholder]
    dsimp only
    rw [hcount]
    split
    · rename_i hzero
      exact ⟨rfl, fun _ => rfl⟩
    · exact ⟨hholder, fun _ => rfl⟩
  · rename_i hrec
    have hone := h.once hrec t
    rw [if_pos (by omega)]
    exact ⟨rfl, fun hyes => absurd hyes hrec⟩

theorem Sound.give (h : Sound s k) (hpc : s.pc t = .give) :
    Sound (((s.setMutex { s.mutex with lock := some (given s k t), owner := (given s k t).xMutexHolder }).gave
      t).goto t .idle) (given s k t) := by
  have hpos : 0 < s.depth t := by
    have hok := h.pcs t
    rw [hpc] at hok
    exact hok
  obtain ⟨hholder, hcount⟩ := h.given_holder hpos
  have hothers : ∀ u, u ≠ t → s.depth u = 0 := fun u hu =>
    Nat.eq_zero_of_not_pos fun hu' => hu (h.unique hu' hpos)
  generalize hs' : ((s.setMutex { s.mutex with
    lock := some (given s k t), owner := (given s k t).xMutexHolder }).gave t).goto t .idle = s'
  have hdepth : ∀ u, s'.depth u = if u = t then s.depth t - 1 else s.depth u := by
    rw [← hs']
    exact fun u => update_apply ..
  have hpcs : ∀ u, s'.pc u = if u = t then .idle else s.pc u := by
    rw [← hs']
    exact fun u => update_apply ..
  have hattr : s'.mutex.attr = s.mutex.attr := by
    rw [← hs']
    rfl
  have howner : s'.mutex.owner = (given s k t).xMutexHolder := by
    rw [← hs']
    rfl
  -- who has the mutex afterwards is the thread itself
  have hself : ∀ u, 0 < s'.depth u ↔ u = t ∧ s.depth t - 1 ≠ 0 := by
    intro u
    rw [hdepth]
    split
    · rename_i hu
      simp [hu]
      omega
    · rename_i hu
      simp [hu, hothers u hu]
  have hsome : ∀ u, (given s k t).xMutexHolder = some u ↔ 0 < s'.depth u := by
    intro u
    rw [hself, hholder]
    split
    · rename_i hzero
      simp [hzero]
    · rename_i hzero
      simp [hzero, eq_comm]
  constructor
  · rw [← hs']
    exact h.initialized
  · rw [← hs']
    rfl
  · rw [hattr]
    exact h.type
  · exact hsome
  · intro hrec u hu
    rw [hattr] at hrec
    obtain ⟨rfl, -⟩ := (hself u).mp ((hsome u).mp hu)
    rw [hdepth, if_pos rfl]
    exact hcount hrec
  · intro hnone hrec
    rw [hattr] at hrec
    rw [hcount hrec]
    by_contra hne
    rw [hholder, if_neg hne] at hnone
    cases hnone
  · intro hrec u
    rw [hattr] at hrec
    have hone := h.once hrec u
    have hone' := h.once hrec t
    rw [hdepth]
    split <;> omega
  · intro u hu
    rw [howner] at hu
    exact (hsome u).mp hu
  · intro u hu
    rw [howner]
    exact .inl ((hsome u).mpr hu)
  · intro u
    rw [hpcs, hdepth, hattr]
    split
    · trivial
    · exact h.pcs u

/-! ## Runs -/

omit [DecidableEq T] in
theorem Inv.sound (h : Inv s) {pc} (hpc : s.pc t = pc) (hidle : pc ≠ .idle) (henter : ∀ c, pc ≠ .enter c) :
    ∃ k, Sound s k := by
  subst hpc
  rcases h.mutex with hun | hk
  · rcases hun.pc t with hpc | ⟨c, _, hpc⟩
    · exact absurd hpc hidle
    · exact absurd hpc (henter c)
  · exact hk

structure Keeps (s s' : State T) : Prop where
  inv : Inv s'
  kind : kind s'.mutex = kind s.mutex

theorem Inv.call (h : Inv s) (hallowed : Allowed s (.call t c)) (hpc : s.pc t = .idle) :
    Keeps s (s.goto t (if s.mutex.initialized then .check c else .enter c)) := by
  refine ⟨⟨h.fault, ?_⟩, rfl⟩
  rcases h.mutex with hun | ⟨k, hk⟩
  · have hkind : kind s.mutex = PTHREAD_MUTEX_NORMAL := by
      unfold Mutex.kind
      rw [if_neg (by simp [hun.initialized])]
    have hc : c ≠ .unlock := by
      rintro rfl
      have hpos := hallowed hkind rfl
      rw [hun.depth t] at hpos
      cases hpos
    rw [if_neg (by simp [hun.initialized])]
    refine .inl ⟨hun.initialized, hun.lock, hun.owner, hun.depth, fun u => ?_⟩
    have hpcs : (s.goto t (.enter c)).pc u = if u = t then .enter c else s.pc u := update_apply ..
    rw [hpcs]
    split
    · exact .inr ⟨c, hc, rfl⟩
    · exact hun.pc u
  · rw [if_pos hk.initialized]
    refine .inr ⟨k, hk.goto (fun hn => hallowed ?_) (by rw [hpc]; nofun)⟩
    unfold Mutex.kind
    rw [if_pos hk.initialized]
    exact hn

theorem Inv.enter (h : Inv s) (hpc : s.pc t = .enter c) :
    Keeps s ((s.setMutex (initStaticmutix s.mutex)).goto t (.check c)) := by
  rcases h.mutex with hun | ⟨k, hk⟩
  · refine ⟨⟨h.fault, .inr ⟨_, hun.enter hpc⟩⟩, ?_⟩
    show kind (initStaticmutix s.mutex) = kind s.mutex
    simp [initStaticmutix, Mutex.kind, hun.initialized, mtype_default]
  · refine ⟨⟨h.fault, .inr ⟨k, hk.enter hpc⟩⟩, ?_⟩
    show kind (initStaticmutix s.mutex) = kind s.mutex
    unfold initStaticmutix
    rw [if_pos hk.initialized]

theorem Inv.goOn (h : Inv s) (hs : act s (.goOn t) = some (s', r)) : Keeps s s' := by
  unfold act at hs
  dsimp only at hs
  split at hs
  · cases hs
  · rename_i c hpc
    cases hs
    exact h.enter hpc
  · rename_i c hpc
    obtain ⟨k, hk⟩ := h.sound hpc nofun nofun
    have hs' : (check s t c).1 = s' := congrArg Prod.fst (Option.some.inj hs)
    rw [← hs']
    by_cases hc : c = .unlock
    · subst hc
      obtain ⟨hsound, hmutex, -, hfault, -⟩ := hk.check_unlock hpc
      exact ⟨⟨hfault.trans h.fault, .inr ⟨k, hsound⟩⟩, by rw [hmutex]⟩
    · obtain ⟨hsound, hmutex, -, hfault, -⟩ := hk.check_lock hpc hc
      exact ⟨⟨hfault.trans h.fault, .inr ⟨k, hsound⟩⟩, by rw [hmutex]⟩
  · rename_i c hpc
    obtain ⟨k, hk⟩ := h.sound hpc nofun nofun
    rw [takeSemaphore_eq hk.lock] at hs
    split at hs
    · rename_i k' htook
      cases hs
      exact ⟨⟨h.fault, .inr ⟨k', hk.took htook⟩⟩, rfl⟩
    · split at hs
      · cases hs
        exact ⟨⟨h.fault, .inr ⟨k, hk.goto trivial (by rw [hpc]; nofun)⟩⟩, rfl⟩
      · cases hs
  · rename_i hpc
    obtain ⟨k, hk⟩ := h.sound hpc nofun nofun
    cases hs
    exact ⟨⟨h.fault, .inr ⟨k, hk.own hpc⟩⟩, rfl⟩
  · rename_i hpc
    obtain ⟨k, hk⟩ := h.sound hpc nofun nofun
    have hgive : giveSemaphore s t = (((s.setMutex { s.mutex with
        lock := some (given s k t), owner := (given s k t).xMutexHolder }).gave t).goto t .idle, some 0) := by
      unfold giveSemaphore
      rw [hk.lock]
      rfl
    rw [hgive] at hs
    cases hs
    exact ⟨⟨h.fault, .inr ⟨_, hk.give hpc⟩⟩, rfl⟩

theorem Inv.step {a : Act T} (h : Inv s) (hallowed : Allowed s a) (hs : step s a = some s') :
    Keeps s s' := by
  obtain ⟨⟨s₁, r⟩, hact, heq⟩ := Option.map_eq_some_iff.mp hs
  cases heq
  cases a with
  | call t c =>
    unfold act at hact
    dsimp only at hact
    split at hact
    · rename_i hpc
      cases hact
      exact h.call hallowed hpc
    · cases hact
  | goOn t => exact h.goOn hact

end Steps

omit [DecidableEq T] in
theorem inv_start {init : Option Attr} (htype : Documented (initType init)) :
    Inv (start init : State T) ∧ kind (start init : State T).mutex = initType init := by
  cases init with
  | none => exact ⟨⟨rfl, .inl ⟨rfl, rfl, rfl, fun _ => rfl, fun _ => .inl rfl⟩⟩, rfl⟩
  | some attr =>
    refine ⟨⟨rfl, .inr ⟨.create, ?_⟩⟩, rfl⟩
    constructor
    · rfl
    · rfl
    · exact htype
    · intro t
      simp [Semaphore.create, start]
    · intro _ t ht
      cases ht
    · exact fun _ _ => rfl
    · exact fun _ _ => Nat.zero_le _
    · intro t ht
      cases ht
    · intro t ht
      cases ht
    · exact fun _ => trivial

variable {s : State T}

theorem inv_reaches {init : Option Attr} (htype : Documented (initType init))
    (h : Reaches step Allowed (start init) s) : Inv s ∧ kind s.mutex = initType init :=
  h.invariant (P := fun s => Inv s ∧ kind s.mutex = initType init) (inv_start htype) fun _ _ _ hinv hallowed hs =>
    ⟨(hinv.1.step hallowed hs).inv, (hinv.1.step hallowed hs).kind.trans hinv.2⟩

theorem act_check {t : T} {c : Call} (hpc : s.pc t = .check c) :
    act s (.goOn t) = some (check s t c) := by
  unfold act
  dsimp only
  rw [hpc]

theorem Sound.took_none {k : Semaphore T} {t : T} {c : Call} (h : Sound s k)
    (hpc : s.pc t = .take c) :
    Mutex.took s k t = none ↔
      ∃ u, 0 < s.depth u ∧ (u ≠ t ∨ mtype s.mutex.attr = PTHREAD_MUTEX_NORMAL) := by
  have htake : k.take t = none ↔ ∃ u, k.xMutexHolder = some u := by
    rw [← Option.ne_none_iff_exists']
    unfold Semaphore.take
    split
    · rename_i hnone
      simp [hnone]
    · rename_i hsome
      simp [hsome]
  have hok := h.pcs t
  rw [hpc] at hok
  simp only [← h.holder]
  unfold Mutex.took
  split
  · rename_i hrec
    have hnormal : mtype s.mutex.attr ≠ PTHREAD_MUTEX_NORMAL := by
      rw [hrec]
      decide
    unfold Semaphore.takeRecursive
    split
    · rename_i hmine
      simp [hmine, hnormal]
    · rename_i hmine
      rw [Option.map_eq_none_iff, htake]
      refine exists_congr fun u => ⟨fun hu => ⟨hu, .inl ?_⟩, And.left⟩
      rintro rfl
      exact hmine hu
  · rename_i hrec
    rw [htake]
    refine exists_congr fun u => ⟨fun hu => ⟨hu, ?_⟩, And.left⟩
    rcases h.type with hn | he | hr
    · exact .inr hn
    · refine .inl ?_
      rintro rfl
      exact absurd (hok he) (Nat.pos_iff_ne_zero.mp ((h.holder u).mp hu))
    · exact absurd hr hrec

theorem Sound.correct {k : Semaphore T} (h : Sound s k) (hfault : s.fault = false) :
    Correct view (kind s.mutex) s := by
  have hkind : kind s.mutex = mtype s.mutex.attr := by
    unfold kind
    rw [if_pos h.initialized]
  rw [hkind]
  refine ⟨hfault, fun t u => h.unique, ⟨fun hfree t => ?_, fun hzero k' hk' => ?_⟩,
    fun htype t c hc hpc => ?_, fun _ t hpc => ?_, fun t hpc => ?_⟩
  · refine Nat.eq_zero_of_not_pos fun hpos => ?_
    have hnone := hfree k h.lock
    rw [(h.holder t).mpr hpos] at hnone
    cases hnone
  · have hlock : s.mutex.lock = some k' := hk'
    rw [h.lock] at hlock
    cases hlock
    cases hholder : k.xMutexHolder with
    | none => rfl
    | some t => exact absurd (hzero t) (Nat.pos_iff_ne_zero.mp ((h.holder t).mp hholder))
  · obtain ⟨-, hmutex, hdepth, -, hr⟩ := h.check_lock hpc hc
    refine ⟨(check s t c).1, (check s t c).2, act_check hpc, ?_, fun _ => ⟨hmutex, hdepth⟩⟩
    rw [hr]
    show _ ↔ 0 < s.depth t
    simp [htype]
  · obtain ⟨-, hmutex, hdepth, -, hr⟩ := h.check_unlock hpc
    refine ⟨(check s t .unlock).1, (check s t .unlock).2, act_check hpc, ?_, fun _ => ⟨hmutex, hdepth⟩⟩
    rw [hr]
    show _ ↔ s.depth t = 0
    split <;>
    · simp
      omega
  · have htook := h.took_none hpc
    have hact : act s (.goOn t) = takeSemaphore s t .trylock := by
      unfold act
      dsimp only
      rw [show s.pc t = Pc.take .trylock from hpc]
    cases hk : Mutex.took s k t with
    | none =>
      refine ⟨s.goto t .idle, some EBUSY, ?_, iff_of_true rfl (.inr (htook.mp hk))⟩
      show act s (.goOn t) = _
      rw [hact, takeSemaphore_eq h.lock, hk]
      rfl
    | some k' =>
      refine ⟨((s.setMutex { s.mutex with lock := some k' }).got t).goto t .own, none, ?_,
        iff_of_false nofun (not_or.mpr ⟨id, fun hother => ?_⟩)⟩
      · show act s (.goOn t) = _
        rw [hact, takeSemaphore_eq h.lock, hk]
      · rw [htook.mpr hother] at hk
        cases hk

theorem Untouched.correct (h : Untouched s) (hfault : s.fault = false) :
    Correct view PTHREAD_MUTEX_NORMAL s := by
  have hnobody : ∀ t c, s.pc t ≠ .check c ∧ s.pc t ≠ .take c := by
    intro t c
    rcases h.pc t with hpc | ⟨c', _, hpc⟩ <;> simp [hpc]
  refine ⟨hfault, fun t u ht => ?_, ⟨fun _ => h.depth, fun _ k hk => ?_⟩, nofun, nofun, fun t hpc => ?_⟩
  · exact absurd (h.depth t) (Nat.pos_iff_ne_zero.mp ht)
  · have hlock : s.mutex.lock = some k := hk
    rw [h.lock] at hlock
    cases hlock
  · exact absurd hpc (hnobody t .trylock).2

/-- **Every state of an allowed run is correct.** -/
theorem reaches_correct {init : Option Attr} (htype : Documented (initType init))
    (h : Reaches step Allowed (start init) s) : Correct view (initType init) s := by
  obtain ⟨hinv, hkind⟩ := inv_reaches htype h
  rcases hinv.mutex with hun | ⟨k, hk⟩
  · have hnormal : initType init = PTHREAD_MUTEX_NORMAL := by
      rw [← hkind]
      simp [kind, hun.initialized]
    rw [hnormal]
    exact hun.correct hinv.fault
  · rw [← hkind]
    exact hk.correct hinv.fault

end Gpmx.Pthread.Mutex
