import Gpmx.Pthread.RtMutex
import Mathlib

/-!
# Mutexes on RT-Thread, over runs

`Sound` is kept by every step that is `Allowed`: the owner of the kernel's mutex is the thread that has
got the mutex, as often as the mutex counts. Before that one thread alone goes through the initialisation.
-/

namespace Gpmx.Pthread.RtThread

open Infra Mutex Function List

variable {T : Type} [DecidableEq T]

def kind (m : PthreadMutex T) : Int := if m.attr = -1 then PTHREAD_MUTEX_NORMAL else mtype m.attr

def Initialising : Pc → Prop
  | .setAttr _ | .init _ => True
  | _ => False

instance (pc : Pc) : Decidable (Initialising pc) :=
  match pc with
  | .setAttr _ | .init _ => isTrue trivial
  | .idle | .check _ | .take _ | .suspended | .resumed | .empty | .release => isFalse id

def Allowed (s : State T) : Act T → Prop
  | .call _ _ => ∀ u, ¬ Initialising (s.pc u)
  | _ => True

instance [Fintype T] (s : State T) (a : Act T) : Decidable (Allowed s a) :=
  match a with
  | .call _ _ => inferInstanceAs (Decidable (∀ u, ¬ Initialising (s.pc u)))
  | .goOn _ | .setPriority _ _ => isTrue trivial

def PcOk (type : Int) (depth : Nat) : Pc → Prop
  | .setAttr _ | .init _ => False
  | .take _ => type ≠ PTHREAD_MUTEX_RECURSIVE → depth = 0
  | _ => True

inductive Early : PthreadMutex T → (T → Pc) → Prop
  | unused : Early PTHREAD_MUTEX_INITIALIZER fun _ => .idle
  | setAttr (t : T) (c : Call) :
      Early PTHREAD_MUTEX_INITIALIZER (update (fun _ => .idle) t (.setAttr c))
  | init (t : T) (c : Call) :
      Early { attr := pthreadDefaultMutexattr, lock := none }
        (update (fun _ => .idle) t (.init c))

def Starting (s : State T) : Prop := Early s.mutex s.pc ∧ ∀ t, s.depth t = 0

structure Sound (s : State T) (k : RtMutex T) : Prop where
  lock : s.mutex.lock = some k
  type : Documented (mtype s.mutex.attr)
  holder : ∀ t, k.owner = some t ↔ 0 < s.depth t
  value : k.value = if k.owner = none then 1 else 0
  hold : ∀ t, k.owner = some t → k.hold = s.depth t
  free : k.owner = none → k.hold = 0
  nodup : k.suspend_thread.Nodup
  suspended : ∀ t ∈ k.suspend_thread, s.pc t = .suspended
  pcs : ∀ t, PcOk (mtype s.mutex.attr) (s.depth t) (s.pc t)

structure Inv (s : State T) : Prop where
  fault : s.fault = false
  mutex : Starting s ∨ ∃ k, Sound s k

section Steps

variable {s s' : State T} {k k' : RtMutex T} {t u : T} {c : Call} {pc : Pc} {r : Option Int}

omit [DecidableEq T] in
theorem Sound.unique (h : Sound s k) (ht : 0 < s.depth t) (hu : 0 < s.depth u) : t = u := by
  have hholder := (h.holder t).mpr ht
  rw [(h.holder u).mpr hu] at hholder
  exact (Option.some.inj hholder).symm

theorem attr_ne {attr : Attr} (htype : Documented (mtype attr)) : attr ≠ -1 := by
  rintro rfl
  rcases htype with h | h | h <;> cases h

omit [DecidableEq T] in
theorem Sound.kind_eq (h : Sound s k) : kind s.mutex = mtype s.mutex.attr := by
  unfold kind
  rw [if_neg (attr_ne h.type)]

omit [DecidableEq T] in
theorem Sound.owner_eq (h : Sound s k) : s.mutex.owner = k.owner := by
  unfold PthreadMutex.owner
  rw [h.lock]
  rfl

theorem Sound.goto (h : Sound s k) (hpc : PcOk (mtype s.mutex.attr) (s.depth t) pc) (hrun : s.pc t ≠ .suspended) :
    Sound (s.goto t pc) k := by
  have hpcs : ∀ u, (s.goto t pc).pc u = if u = t then pc else s.pc u := fun u => update_apply ..
  refine { h with suspended := fun u hu => ?_, pcs := fun u => ?_ }
  · have hsus := h.suspended u hu
    rw [hpcs, if_neg, hsus]
    rintro rfl
    exact hrun hsus
  · rw [hpcs]
    split
    · rename_i hut
      rw [hut]
      exact hpc
    · exact h.pcs u

theorem Sound.setPriority (h : Sound s k) (p : Nat) : Sound (s.setPriority t p) k := { h with }

omit [DecidableEq T] in
theorem Sound.setLock (h : Sound s k) (howner : k'.owner = k.owner) (hvalue : k'.value = k.value)
    (hhold : k'.hold = k.hold) (hnodup : k'.suspend_thread.Nodup)
    (hsus : ∀ t ∈ k'.suspend_thread, s.pc t = .suspended) : Sound (s.setLock k') k' where
  lock := rfl
  type := h.type
  holder t := by
    rw [howner]
    exact h.holder t
  value := by
    rw [howner, hvalue]
    exact h.value
  hold t ht := by
    rw [howner] at ht
    rw [hhold]
    exact h.hold t ht
  free hnone := by
    rw [howner] at hnone
    rw [hhold]
    exact h.free hnone
  nodup := hnodup
  suspended := hsus
  pcs := h.pcs

def Taken (s : State T) (k : RtMutex T) (t : T) : Take T → Prop
  | .ok k' => s.depth t < RT_MUTEX_HOLD_MAX ∧ (∀ u, u ≠ t → s.depth u = 0) ∧ k'.owner = some t ∧
    k'.hold = s.depth t + 1 ∧ k'.value = 0 ∧ k'.suspend_thread = k.suspend_thread
  | .full k' => k' = k ∧ RT_MUTEX_HOLD_MAX ≤ s.depth t
  | .unavailable => ∃ u, u ≠ t ∧ k.owner = some u

theorem Sound.taken (h : Sound s k) (prio : T → Nat) : Taken s k t (rtMutexTake k t prio) := by
  have hothers : ∀ u, u ≠ t → k.owner = some t ∨ k.owner = none → s.depth u = 0 := by
    intro u hu howner
    refine Nat.eq_zero_of_not_pos fun hpos => ?_
    rw [(h.holder u).mpr hpos] at howner
    rcases howner with heq | heq
    · exact hu (Option.some.inj heq)
    · cases heq
  unfold rtMutexTake
  by_cases howner : k.owner = some t
  · have hhold := h.hold t howner
    rw [if_pos howner]
    split
    · refine ⟨by omega, fun u hu => hothers u hu (.inl howner), howner, ?_, ?_, rfl⟩
      · show k.hold + 1 = _
        rw [hhold]
      · have hvalue := h.value
        rw [howner] at hvalue
        exact hvalue
    · rename_i hfull
      exact ⟨rfl, by omega⟩
  · rw [if_neg howner]
    cases hnone : k.owner with
    | none =>
      have hvalue : k.value = 1 := by
        rw [h.value, if_pos hnone]
      have hhold := h.free hnone
      have hzero : s.depth t = 0 := Nat.eq_zero_of_not_pos fun hpos => howner ((h.holder t).mpr hpos)
      rw [if_pos (by omega)]
      rw [if_pos (by rw [hhold]; decide)]
      refine ⟨by rw [hzero]; decide, fun u hu => hothers u hu (.inr hnone), rfl, ?_, ?_, rfl⟩
      · show k.hold + 1 = _
        rw [hhold, hzero]
      · show k.value - 1 = 0
        rw [hvalue]
    | some u =>
      have hvalue : k.value = 0 := by
        rw [h.value, hnone]
        rfl
      rw [if_neg (by omega)]
      refine ⟨u, ?_, hnone⟩
      rintro rfl
      exact howner hnone

theorem Sound.took (h : Sound s k) (hrun : s.pc t ≠ .suspended) (hk : Taken s k t (.ok k')) :
    Sound (((s.setLock k').got t).goto t .idle) k' := by
  obtain ⟨-, hothers, howner, hhold, hvalue, hlist⟩ := hk
  have hdepth : ∀ u, (((s.setLock k').got t).goto t .idle).depth u =
      if u = t then s.depth t + 1 else s.depth u := fun u => update_apply ..
  have hpcs : ∀ u, (((s.setLock k').got t).goto t .idle).pc u = if u = t then .idle else s.pc u :=
    fun u => update_apply ..
  constructor
  · rfl
  · exact h.type
  · intro u
    rw [howner, hdepth]
    by_cases hu : u = t
    · simp [hu]
    · simp [hu, Ne.symm hu, hothers u hu]
  · rw [howner, hvalue]
    rfl
  · intro u hu
    rw [howner] at hu
    cases hu
    rw [hdepth, if_pos rfl, hhold]
  · intro hnone
    rw [howner] at hnone
    cases hnone
  · rw [hlist]
    exact h.nodup
  · intro u hu
    rw [hlist] at hu
    have hsus := h.suspended u hu
    rw [hpcs, if_neg, hsus]
    rintro rfl
    exact hrun hsus
  · intro u
    rw [hpcs, hdepth]
    split
    · trivial
    · exact h.pcs u

omit [DecidableEq T] in
theorem ipcListSuspend_perm (list : List T) (t : T) (prio : T → Nat) :
    (ipcListSuspend list t prio).Perm (t :: list) := by
  induction list with
  | nil => exact .refl _
  | cons u rest ih =>
    unfold ipcListSuspend
    split
    · exact .refl _
    · exact (ih.cons u).trans (.swap t u rest)

theorem Sound.suspend (h : Sound s k) (hrun : s.pc t ≠ .suspended) (prio : T → Nat) :
    Sound ((s.setLock { k with suspend_thread := ipcListSuspend k.suspend_thread t prio }).goto t .suspended)
      { k with suspend_thread := ipcListSuspend k.suspend_thread t prio } := by
  have hperm := ipcListSuspend_perm k.suspend_thread t prio
  have hpcs : ∀ u, ((s.setLock { k with suspend_thread := ipcListSuspend k.suspend_thread t prio }).goto t
      .suspended).pc u = if u = t then .suspended else s.pc u := fun u => update_apply ..
  refine ⟨rfl, h.type, h.holder, h.value, h.hold, h.free, ?_, fun u hu => ?_, fun u => ?_⟩
  · rw [hperm.nodup_iff, nodup_cons]
    exact ⟨fun hmem => hrun (h.suspended t hmem), h.nodup⟩
  · rw [hpcs]
    split
    · rfl
    · rename_i hut
      exact h.suspended u ((mem_cons.mp (hperm.mem_iff.mp hu)).resolve_left hut)
  · rw [hpcs]
    split
    · trivial
    · exact h.pcs u

def Released (s : State T) (k : RtMutex T) (t : T) : RtMutex T × Option (Option T) → Prop
  | (k', none) => k' = k ∧ s.depth t = 0
  | (k', some none) => 0 < s.depth t ∧ (k'.owner = if s.depth t - 1 = 0 then none else some t) ∧
    (k'.value = if s.depth t - 1 = 0 then 1 else 0) ∧ k'.hold = s.depth t - 1 ∧
    k'.suspend_thread = k.suspend_thread
  | (k', some (some next)) => s.depth t = 1 ∧ k'.owner = some next ∧ k'.value = 0 ∧ k'.hold = 1 ∧
    k.suspend_thread = next :: k'.suspend_thread

theorem Sound.released (h : Sound s k) (prio : T → Nat) : Released s k t (rtMutexRelease k t prio) := by
  unfold rtMutexRelease
  by_cases howner : k.owner = some t
  · have hhold := h.hold t howner
    have hpos := (h.holder t).mp howner
    have hvalue : k.value = 0 := by
      rw [h.value, howner]
      rfl
    rw [if_neg (not_not.mpr howner)]
    rw [hhold]
    by_cases hlast : s.depth t - 1 = 0
    · rw [if_pos hlast]
      split
      · rename_i next rest hlist
        refine ⟨by omega, rfl, hvalue, ?_, hlist⟩
        show s.depth t - 1 + 1 = 1
        rw [hlast]
      · rw [hvalue, if_pos (by decide)]
        refine ⟨hpos, ?_, ?_, rfl, rfl⟩ <;> rw [if_pos hlast]
    · rw [if_neg hlast]
      refine ⟨hpos, ?_, ?_, rfl, rfl⟩
      · rw [if_neg hlast]
        exact howner
      · rw [if_neg hlast]
        exact hvalue
  · rw [if_pos howner]
    exact ⟨rfl, Nat.eq_zero_of_not_pos fun hpos => howner ((h.holder t).mpr hpos)⟩

theorem Sound.gave (h : Sound s k) (hrun : s.pc t ≠ .suspended) (hk : Released s k t (k', some none)) :
    Sound (((s.setLock k').gave t).goto t .idle) k' := by
  obtain ⟨hpos, howner, hvalue, hhold, hlist⟩ := hk
  have hdepth : ∀ u, (((s.setLock k').gave t).goto t .idle).depth u =
      if u = t then s.depth t - 1 else s.depth u := fun u => update_apply ..
  have hpcs : ∀ u, (((s.setLock k').gave t).goto t .idle).pc u = if u = t then .idle else s.pc u :=
    fun u => update_apply ..
  have hothers : ∀ u, u ≠ t → s.depth u = 0 := fun u hu =>
    Nat.eq_zero_of_not_pos fun hu' => hu (h.unique hu' hpos)
  constructor
  · rfl
  · exact h.type
  · intro u
    rw [howner, hdepth]
    by_cases hu : u = t
    · subst hu
      rw [if_pos rfl]
      split <;> simp <;> omega
    · rw [if_neg hu, hothers u hu]
      split <;> simp [Ne.symm hu]
  · rw [howner, hvalue]
    split <;> simp
  · intro u hu
    rw [howner] at hu
    split at hu
    · cases hu
    · cases hu
      rw [hdepth, if_pos rfl, hhold]
  · intro hnone
    rw [howner] at hnone
    split at hnone
    · omega
    · cases hnone
  · rw [hlist]
    exact h.nodup
  · intro u hu
    rw [hlist] at hu
    have hsus := h.suspended u hu
    rw [hpcs, if_neg, hsus]
    rintro rfl
    exact hrun hsus
  · intro u
    rw [hpcs, hdepth]
    split
    · trivial
    · exact h.pcs u

theorem Sound.handed (h : Sound s k) (hrun : s.pc t ≠ .suspended)
    (hk : Released s k t (k', some (some u))) :
    Sound (((((s.setLock k').gave t).got u).goto u .resumed).goto t .idle) k' := by
  obtain ⟨hone, howner, hvalue, hhold, hlist⟩ := hk
  have hsus : s.pc u = .suspended := h.suspended u (by rw [hlist]; exact mem_cons_self)
  have hut : u ≠ t := by
    rintro rfl
    exact hrun hsus
  have hothers : ∀ v, v ≠ t → s.depth v = 0 := fun v hv =>
    Nat.eq_zero_of_not_pos fun hv' => hv (h.unique hv' (by omega))
  generalize hs' : ((((s.setLock k').gave t).got u).goto u .resumed).goto t .idle = s'
  have hdepth : ∀ v, s'.depth v = if v = u then 1 else 0 := by
    intro v
    rw [← hs']
    simp only [State.goto, State.got, State.gave, State.setLock, update_apply, hut, if_false,
      hothers u hut]
    split
    · rfl
    · split
      · omega
      · rename_i hvt
        exact hothers v hvt
  have hpcs : ∀ v, s'.pc v = if v = t then .idle else if v = u then .resumed else s.pc v := by
    intro v
    rw [← hs']
    simp only [State.goto, State.got, State.gave, State.setLock, update_apply]
  have hattr : s'.mutex.attr = s.mutex.attr := by
    rw [← hs']
    rfl
  have hnodup := h.nodup
  rw [hlist, nodup_cons] at hnodup
  constructor
  · rw [← hs']
    rfl
  · rw [← hs']
    exact h.type
  · intro v
    rw [howner, hdepth]
    by_cases hv : v = u
    · simp [hv]
    · simp [hv, Ne.symm hv]
  · rw [howner, hvalue]
    rfl
  · intro v hv
    rw [howner] at hv
    cases hv
    rw [hdepth, if_pos rfl, hhold]
  · intro hnone
    rw [howner] at hnone
    cases hnone
  · exact hnodup.2
  · intro v hv
    have hvsus := h.suspended v (by rw [hlist]; exact mem_cons_of_mem u hv)
    rw [hpcs, if_neg, if_neg, hvsus]
    · rintro rfl
      exact hnodup.1 hv
    · rintro rfl
      exact hrun hvsus
  · intro v
    rw [hpcs]
    by_cases hvt : v = t
    · rw [if_pos hvt]
      trivial
    · rw [if_neg hvt]
      by_cases hvu : v = u
      · rw [if_pos hvu]
        trivial
      · have hok := h.pcs v
        rw [hothers v hvt] at hok
        rw [if_neg hvu, hdepth, if_neg hvu, hattr]
        exact hok

/-! ## Steps -/

theorem Sound.check_lock (h : Sound s k) (hpc : s.pc t = .check c) (hc : c ≠ .unlock) :
    Sound (check s t c).1 k ∧ (check s t c).1.mutex = s.mutex ∧ (check s t c).1.depth = s.depth ∧
      (check s t c).1.fault = s.fault ∧
      (check s t c).2 = if 0 < s.depth t ∧ mtype s.mutex.attr ≠ PTHREAD_MUTEX_RECURSIVE then some EDEADLK
        else none := by
  have hrun : s.pc t ≠ .suspended := by
    rw [hpc]
    nofun
  have hcheck : check s t c = if s.mutex.owner = some t ∧ mtype s.mutex.attr ≠ PTHREAD_MUTEX_RECURSIVE then
      (s.goto t .idle, some EDEADLK) else (s.goto t (.take c), none) := by
    cases c with
    | unlock => exact absurd rfl hc
    | _ => rfl
  rw [hcheck, h.owner_eq]
  simp only [h.holder]
  split
  · exact ⟨h.goto trivial hrun, rfl, rfl, rfl, rfl⟩
  · rename_i hno
    refine ⟨h.goto (fun htype => ?_) hrun, rfl, rfl, rfl, rfl⟩
    exact Nat.eq_zero_of_not_pos fun hpos => hno ⟨hpos, htype⟩

theorem Sound.check_unlock (h : Sound s k) (hpc : s.pc t = .check .unlock) :
    Sound (check s t .unlock).1 k ∧ (check s t .unlock).1.mutex = s.mutex ∧
      (check s t .unlock).1.depth = s.depth ∧ (check s t .unlock).1.fault = s.fault ∧
      (check s t .unlock).2 = if s.depth t = 0 ∧ mtype s.mutex.attr = PTHREAD_MUTEX_ERRORCHECK then some EPERM
        else none := by
  have hrun : s.pc t ≠ .suspended := by
    rw [hpc]
    nofun
  have howner : s.mutex.owner ≠ some t ↔ s.depth t = 0 := by
    rw [h.owner_eq, ne_eq, h.holder]
    omega
  unfold check
  simp only [howner]
  by_cases hzero : s.depth t = 0
  · rw [if_pos hzero]
    by_cases htype : mtype s.mutex.attr = PTHREAD_MUTEX_ERRORCHECK
    · rw [if_pos htype, if_pos ⟨hzero, htype⟩]
      exact ⟨h.goto trivial hrun, rfl, rfl, rfl, rfl⟩
    · rw [if_neg htype, if_neg fun hno => htype hno.2]
      exact ⟨h.goto trivial hrun, rfl, rfl, rfl, rfl⟩
  · rw [if_neg hzero, if_neg fun hno => hzero hno.1]
    exact ⟨h.goto trivial hrun, rfl, rfl, rfl, rfl⟩

theorem Sound.take (h : Sound s k) (hpc : s.pc t = .take c) :
    (∃ k', Sound (take s t c).1 k') ∧ (take s t c).1.fault = s.fault ∧
      (take s t c).1.mutex.attr = s.mutex.attr ∧
      (c = .trylock → ((take s t c).2 = some EBUSY ↔ RT_MUTEX_HOLD_MAX ≤ s.depth t ∨
        ∃ u, 0 < s.depth u ∧ (u ≠ t ∨ mtype s.mutex.attr = PTHREAD_MUTEX_NORMAL))) := by
  have hrun : s.pc t ≠ .suspended := by
    rw [hpc]
    nofun
  have htaken := h.taken (t := t) s.current_priority
  unfold RtThread.take
  rw [h.lock]
  dsimp only
  cases hk : rtMutexTake k t s.current_priority with rw [hk] at htaken
  | ok k' =>
    refine ⟨⟨k', h.took hrun htaken⟩, rfl, rfl, fun _ => iff_of_false nofun ?_⟩
    rintro (hfull | ⟨u, hu, hut | hnormal⟩)
    · exact absurd htaken.1 (Nat.not_lt.mpr hfull)
    · exact absurd (htaken.2.1 u hut) (Nat.pos_iff_ne_zero.mp hu)
    · -- the check has sent the owner of a normal mutex away
      have hok := h.pcs t
      rw [hpc] at hok
      have hzero := hok (by rw [hnormal]; decide)
      by_cases hut : u = t
      · rw [hut, hzero] at hu
        cases hu
      · exact absurd (htaken.2.1 u hut) (Nat.pos_iff_ne_zero.mp hu)
  | full k' =>
    obtain ⟨rfl, hfull⟩ := htaken
    refine ⟨⟨k', ?_⟩, rfl, rfl, fun hc => iff_of_true (congrArg some (if_pos hc)) (.inl hfull)⟩
    exact (h.setLock rfl rfl rfl h.nodup h.suspended).goto trivial hrun
  | unavailable =>
    obtain ⟨u, hut, hu⟩ := htaken
    dsimp only
    split
    · exact ⟨⟨k, h.goto trivial hrun⟩, rfl, rfl, fun _ =>
        iff_of_true rfl (.inr ⟨u, (h.holder u).mp hu, .inl hut⟩)⟩
    · rename_i hc
      have hwaits : ∀ prio, { k with suspend_thread := ipcListSuspend k.suspend_thread t prio, owner := some u } =
          { k with suspend_thread := ipcListSuspend k.suspend_thread t prio } := by
        intro prio
        rw [← hu]
      rw [hu]
      dsimp only
      rw [hwaits]
      split
      · exact ⟨⟨_, (h.setPriority _).suspend hrun _⟩, rfl, rfl, fun htry => absurd htry hc⟩
      · exact ⟨⟨_, h.suspend hrun _⟩, rfl, rfl, fun htry => absurd htry hc⟩

theorem Sound.release (h : Sound s k) (hpc : s.pc t = .release) :
    (∃ k', Sound (release s t).1 k') ∧ (release s t).1.fault = s.fault ∧
      (release s t).1.mutex.attr = s.mutex.attr := by
  unfold RtThread.release
  rw [h.lock]
  dsimp only
  generalize hs' : (if k.owner = some t ∧ k.hold - 1 = 0 then s.setPriority t k.original_priority else s) = s'
  have hkeeps : Sound s' k ∧ s'.fault = s.fault ∧ s'.mutex = s.mutex ∧ s'.pc t ≠ .suspended := by
    have hrun : s.pc t ≠ .suspended := by
      rw [hpc]
      nofun
    rw [← hs']
    split
    · exact ⟨h.setPriority _, rfl, rfl, hrun⟩
    · exact ⟨h, rfl, rfl, hrun⟩
  obtain ⟨h', hfault, hmutex, hrun⟩ := hkeeps
  have hattr : s'.mutex.attr = s.mutex.attr := by
    rw [hmutex]
  have hreleased := h'.released (t := t) s'.current_priority
  split
  · rename_i k' hk
    rw [hk] at hreleased
    obtain ⟨rfl, -⟩ := hreleased
    exact ⟨⟨k', (h'.setLock rfl rfl rfl h'.nodup h'.suspended).goto trivial hrun⟩, hfault, hattr⟩
  · rename_i k' hk
    rw [hk] at hreleased
    exact ⟨⟨k', h'.gave hrun hreleased⟩, hfault, hattr⟩
  · rename_i k' next hk
    rw [hk] at hreleased
    exact ⟨⟨k', h'.handed hrun hreleased⟩, hfault, hattr⟩

section Early

variable {m : PthreadMutex T} {pcs : T → Pc}

theorem Early.idle_or (h : Early m pcs) (t : T) : pcs t = .idle ∨ Initialising (pcs t) := by
  cases h with
  | unused => exact .inl rfl
  | setAttr u c | init u c =>
    rw [update_apply]
    split
    · exact .inr trivial
    · exact .inl rfl

theorem Early.kind_eq (h : Early m pcs) : kind m = PTHREAD_MUTEX_NORMAL := by
  have hne : pthreadDefaultMutexattr ≠ -1 := by decide
  cases h with
  | unused | setAttr u c => exact if_pos rfl
  | init u c => exact (if_neg hne).trans mtype_default

theorem Early.of_idle (h : Early m pcs) (hidle : ∀ u, pcs u = .idle) :
    m = PTHREAD_MUTEX_INITIALIZER ∧ pcs = fun _ => .idle := by
  refine ⟨?_, funext hidle⟩
  cases h with
  | unused | setAttr u c => rfl
  | init u c =>
    have hu := hidle u
    rw [update_self] at hu
    cases hu

theorem Early.of_setAttr (h : Early m pcs) (hpc : pcs t = .setAttr c) :
    m = PTHREAD_MUTEX_INITIALIZER ∧ pcs = update (fun _ => .idle) t (.setAttr c) := by
  cases h with
  | unused => cases hpc
  | setAttr u c' =>
    rcases update_cases hpc with ⟨rfl, ⟨⟩⟩ | ⟨-, ⟨⟩⟩
    exact ⟨rfl, rfl⟩
  | init u c' =>
    rw [update_apply] at hpc
    split at hpc <;> cases hpc

theorem Early.of_init (h : Early m pcs) (hpc : pcs t = .init c) :
    m = { attr := pthreadDefaultMutexattr, lock := none } ∧
      pcs = update (fun _ => .idle) t (.init c) := by
  cases h with
  | unused => cases hpc
  | setAttr u c' =>
    rw [update_apply] at hpc
    split at hpc <;> cases hpc
  | init u c' =>
    rcases update_cases hpc with ⟨rfl, ⟨⟩⟩ | ⟨-, ⟨⟩⟩
    exact ⟨rfl, rfl⟩

end Early

structure Keeps (s s' : State T) : Prop where
  fault : s'.fault = false
  mutex : Starting s' ∨ ∃ k, Sound s' k
  kind : kind s'.mutex = kind s.mutex

theorem Inv.call (h : Inv s) (hallowed : Allowed s (.call t c)) (hpc : s.pc t = .idle) :
    Keeps s (s.goto t (if s.mutex.attr = -1 then .setAttr c else .check c)) := by
  refine ⟨h.fault, ?_, rfl⟩
  rcases h.mutex with ⟨hearly, hdepth⟩ | ⟨k, hk⟩
  · -- nobody is in the initialisation, so the mutex is as it was initialised statically
    obtain ⟨hmutex, hpcs⟩ := hearly.of_idle fun u => (hearly.idle_or u).resolve_right (hallowed u)
    refine .inl ⟨?_, hdepth⟩
    show Early s.mutex (update s.pc t _)
    rw [hmutex, hpcs]
    exact .setAttr t c
  · rw [if_neg (attr_ne hk.type)]
    exact .inr ⟨k, hk.goto trivial (by rw [hpc]; nofun)⟩

theorem Inv.setAttr (h : Inv s) (hpc : s.pc t = .setAttr c) :
    Keeps s ({ s with mutex := { s.mutex with attr := pthreadDefaultMutexattr } }.goto t (.init c)) := by
  rcases h.mutex with ⟨hearly, hdepth⟩ | ⟨k, hk⟩
  · obtain ⟨hmutex, hpcs⟩ := hearly.of_setAttr hpc
    have hnext : Early { s.mutex with attr := pthreadDefaultMutexattr } (update s.pc t (.init c)) := by
      rw [hmutex, hpcs, update_idem]
      exact .init t c
    exact ⟨h.fault, .inl ⟨hnext, hdepth⟩, hnext.kind_eq.trans hearly.kind_eq.symm⟩
  · have hok := hk.pcs t
    rw [hpc] at hok
    exact hok.elim

theorem Inv.init (h : Inv s) (hpc : s.pc t = .init c) :
    Keeps s ((s.setLock rtMutexInit).goto t (.check c)) := by
  rcases h.mutex with ⟨hearly, hdepth⟩ | ⟨k, hk⟩
  · obtain ⟨hmutex, hold⟩ := hearly.of_init hpc
    have hpcs : ∀ u, ((s.setLock rtMutexInit).goto t (.check c)).pc u = if u = t then .check c else .idle := by
      intro u
      show update s.pc t _ u = _
      rw [hold, update_idem, update_apply]
    refine ⟨h.fault, .inr ⟨rtMutexInit, ?_⟩, rfl⟩
    constructor
    · rfl
    · show Documented (mtype s.mutex.attr)
      rw [hmutex]
      exact .inl mtype_default
    · intro u
      show none = some u ↔ 0 < s.depth u
      rw [hdepth u]
      simp
    · rfl
    · intro u hu
      cases hu
    · exact fun _ => rfl
    · exact nodup_nil
    · intro u hu
      cases hu
    · intro u
      rw [hpcs]
      split <;> trivial
  · have hok := hk.pcs t
    rw [hpc] at hok
    exact hok.elim

theorem Inv.sound (h : Inv s) {pc} (hpc : s.pc t = pc) (hidle : pc ≠ .idle) (hinit : ¬ Initialising pc) :
    ∃ k, Sound s k := by
  subst hpc
  rcases h.mutex with ⟨hearly, -⟩ | hk
  · exact ((hearly.idle_or t).elim hidle hinit).elim
  · exact hk

omit [DecidableEq T] in
theorem kind_of_attr {m m' : PthreadMutex T} (hattr : m'.attr = m.attr) : kind m' = kind m := by
  unfold kind
  rw [hattr]

theorem Inv.goOn (h : Inv s) (hs : act s (.goOn t) = some (s', r)) : Keeps s s' := by
  unfold act at hs
  dsimp only at hs
  split at hs
  · cases hs
  · rename_i c hpc
    cases hs
    exact h.setAttr hpc
  · rename_i c hpc
    cases hs
    exact h.init hpc
  · rename_i c hpc
    obtain ⟨k, hk⟩ := h.sound hpc nofun id
    have hs' : (check s t c).1 = s' := congrArg Prod.fst (Option.some.inj hs)
    rw [← hs']
    by_cases hc : c = .unlock
    · subst hc
      obtain ⟨hsound, hmutex, -, hfault, -⟩ := hk.check_unlock hpc
      exact ⟨hfault.trans h.fault, .inr ⟨k, hsound⟩, by rw [hmutex]⟩
    · obtain ⟨hsound, hmutex, -, hfault, -⟩ := hk.check_lock hpc hc
      exact ⟨hfault.trans h.fault, .inr ⟨k, hsound⟩, by rw [hmutex]⟩
  · rename_i c hpc
    obtain ⟨k, hk⟩ := h.sound hpc nofun id
    have hs' : (RtThread.take s t c).1 = s' := congrArg Prod.fst (Option.some.inj hs)
    rw [← hs']
    obtain ⟨hsound, hfault, hattr, -⟩ := hk.take hpc
    exact ⟨hfault.trans h.fault, .inr hsound, kind_of_attr hattr⟩
  · cases hs
  · rename_i hpc
    obtain ⟨k, hk⟩ := h.sound hpc nofun id
    cases hs
    exact ⟨h.fault, .inr ⟨k, hk.goto trivial (by rw [hpc]; nofun)⟩, rfl⟩
  · rename_i hpc
    obtain ⟨k, hk⟩ := h.sound hpc nofun id
    split at hs <;>
    · cases hs
      exact ⟨h.fault, .inr ⟨k, hk.goto trivial (by rw [hpc]; nofun)⟩, rfl⟩
  · rename_i hpc
    obtain ⟨k, hk⟩ := h.sound hpc nofun id
    have hs' : (RtThread.release s t).1 = s' := congrArg Prod.fst (Option.some.inj hs)
    rw [← hs']
    obtain ⟨hsound, hfault, hattr⟩ := hk.release hpc
    exact ⟨hfault.trans h.fault, .inr hsound, kind_of_attr hattr⟩

theorem Inv.step {a : Act T} (h : Inv s) (hallowed : Allowed s a) (hs : step s a = some s') :
    Keeps s s' := by
  obtain ⟨⟨s₁, r⟩, hact, heq⟩ := Option.map_eq_some_iff.mp hs
  cases heq
  cases a with
  | call t c =>
    unfold act at hact
    dsimp only at hact
    split at hact
    · rename_i hpc
      cases hact
      exact h.call hallowed hpc
    · cases hact
  | goOn t => exact h.goOn hact
  | setPriority t p =>
    cases hact
    exact ⟨h.fault, h.mutex.imp id fun ⟨k, hk⟩ => ⟨k, hk.setPriority p⟩, rfl⟩

end Steps

section Runs

variable {prio : T → Nat} {init : Option Attr} {s : State T} {k : RtMutex T}

theorem inv_start (htype : Documented (initType init)) :
    Inv (start prio init) ∧ kind (start prio init).mutex = initType init := by
  cases init with
  | none => exact ⟨⟨rfl, .inl ⟨.unused, fun _ => rfl⟩⟩, rfl⟩
  | some attr =>
    have hsound : Sound (start prio (some attr)) rtMutexInit := by
      constructor
      · rfl
      · exact htype
      · intro t
        simp [rtMutexInit, start]
      · rfl
      · intro t ht
        cases ht
      · exact fun _ => rfl
      · exact nodup_nil
      · intro t ht
        cases ht
      · exact fun _ => trivial
    exact ⟨⟨rfl, .inr ⟨_, hsound⟩⟩, hsound.kind_eq⟩

theorem inv_reaches (htype : Documented (initType init)) (h : Reaches step Allowed (start prio init) s) :
    Inv s ∧ kind s.mutex = initType init := by
  refine h.invariant (P := fun s => Inv s ∧ kind s.mutex = initType init) (inv_start htype) ?_
  rintro s a s' ⟨hinv, hkind⟩ hallowed hs
  have hkeeps := hinv.step hallowed hs
  exact ⟨⟨hkeeps.fault, hkeeps.mutex⟩, hkeeps.kind.trans hkind⟩

theorem Starting.correct (h : Starting s) (hfault : s.fault = false) :
    Correct view PTHREAD_MUTEX_NORMAL s := by
  obtain ⟨hearly, hdepth⟩ := h
  have hnobody : ∀ t c, s.pc t ≠ .take c := by
    intro t c hpc
    have hidle := hearly.idle_or t
    rw [hpc] at hidle
    exact hidle.elim nofun id
  have howner : s.mutex.owner = none := by
    generalize s.mutex = m, s.pc = pcs at hearly
    cases hearly <;> rfl
  refine ⟨hfault, fun t u ht => ?_, iff_of_true howner hdepth, nofun, nofun, fun t hpc => ?_⟩
  · exact absurd (hdepth t) (Nat.pos_iff_ne_zero.mp ht)
  · exact absurd hpc (hnobody t .trylock)

theorem Sound.correct (h : Sound s k) (hfault : s.fault = false) : Correct view (kind s.mutex) s := by
  have hcheck : ∀ {t c}, s.pc t = .check c → act s (.goOn t) = some (check s t c) := by
    intro t c hpc
    unfold act
    dsimp only
    rw [hpc]
  rw [h.kind_eq]
  refine ⟨hfault, fun t u => h.unique, ?_, fun htype t c hc hpc => ?_, fun htype t hpc => ?_,
    fun t hpc => ?_⟩
  · show s.mutex.owner = none ↔ ∀ t, s.depth t = 0
    rw [h.owner_eq, Option.eq_none_iff_forall_ne_some]
    refine forall_congr' fun t => ?_
    rw [ne_eq, h.holder]
    omega
  · obtain ⟨-, hmutex, hdepth, -, hr⟩ := h.check_lock hpc hc
    refine ⟨(check s t c).1, (check s t c).2, hcheck hpc, ?_, fun _ => ⟨hmutex, hdepth⟩⟩
    rw [hr]
    show _ ↔ 0 < s.depth t
    simp [htype, PTHREAD_MUTEX_ERRORCHECK, PTHREAD_MUTEX_RECURSIVE]
  · obtain ⟨-, hmutex, hdepth, -, hr⟩ := h.check_unlock hpc
    refine ⟨(check s t .unlock).1, (check s t .unlock).2, hcheck hpc, ?_, fun _ => ⟨hmutex, hdepth⟩⟩
    rw [hr]
    show _ ↔ s.depth t = 0
    simp [htype]
  · refine ⟨(RtThread.take s t .trylock).1, (RtThread.take s t .trylock).2, ?_, (h.take hpc).2.2.2 rfl⟩
    show act s (.goOn t) = _
    unfold act
    dsimp only
    rw [show s.pc t = Pc.take .trylock from hpc]

/-- **Every state of an allowed run is correct.** -/
theorem reaches_correct (htype : Documented (initType init))
    (h : Reaches step Allowed (start prio init) s) : Correct view (initType init) s := by
  obtain ⟨hinv, hkind⟩ := inv_reaches htype h
  rcases hinv.mutex with hstarting | ⟨k, hk⟩
  · rw [← hkind, hstarting.1.kind_eq]
    exact hstarting.correct hinv.fault
  · rw [← hkind]
    exact hk.correct hinv.fault

end Runs

end Gpmx.Pthread.RtThread
