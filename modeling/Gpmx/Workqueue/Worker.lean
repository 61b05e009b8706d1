import Gpmx.Container.IntrusiveQueue
import Gpmx.Infra.Runs

/-!
# Work queues

`gpm/modules/workqueue/workqueue.c` and `workitem.c`: one work queue with its worker thread, and
any number of threads that schedule items on it and take them off.

What happens between `work_lock` and `work_unlock` is one step, the test and the post of
`signal_worker_thread` are two, and so are two reads of an item's `_wq`. Only `workqueue_detach`
works on the semaphore with the lock held; the lock is a field of the state for its sake. A read
of a `_wq` that has become NULL since it was tested ends in a fault, and there is no step for it.

A semaphore is the number of its tokens. `sem_post` adds one, or gives it to the worker at once
if that is blocked: the kernels differ in this. A wait that is interrupted is begun again.

The calls an item makes while it runs are calls of other threads here.
-/

namespace Gpmx.Workqueue

open Infra Container Function

variable {T ι : Type}

structure WorkQueue (ι : Type) where
  q : IntrusiveQueue ι
  processLock : Nat
  workItems : List ι
  shouldExit : Bool

/-- `workqueue_init`, with the items that have been attached since -/
def workqueueInit (workItems : List ι) : WorkQueue ι :=
  { q := .init, processLock := 0, workItems, shouldExit := false }

abbrev Insertion (ι : Type) := ι × Nat

/-- Where `workqueue_run` stands. -/
inductive Worker (ι : Type) where
  /-- before the test of `should_exit` -/
  | top
  /-- in `sem_wait` -/
  | waiting
  /-- before the section that takes the next item -/
  | draining
  /-- with an item taken, before its `entry` is called -/
  | running (work : Insertion ι)
  | exited
  deriving DecidableEq

inductive Call (ι : Type) where
  | idle
  /-- `workitem_schedule_now`, with `_wq` found set -/
  | scheduling (item : ι)
  /-- `workqueue_add`, before its section -/
  | adding (item : ι)
  /-- `signal_worker_thread`, before `sem_getvalue` -/
  | signalling
  /-- `signal_worker_thread`, before `sem_post` -/
  | posting
  /-- `workitem_schedule_clear`, with `_wq` found set -/
  | clearing (item : ι)
  /-- `workqueue_remove`, before its section; in `workitem_deinit` or not -/
  | removing (item : ι) (deinit : Bool)
  /-- `workitem_deinit`, with `_wq` found set -/
  | deiniting (item : ι)
  /-- `workitem_deinit`, before `_wq` is set to NULL -/
  | unsetting (item : ι)
  /-- `workqueue_detach`, before its section -/
  | detaching (item : ι)
  /-- in the section of `workqueue_detach`, before `sem_getvalue` -/
  | stopSignalling
  /-- in the section of `workqueue_detach`, before `sem_post` -/
  | stopPosting

inductive Request (ι : Type) where
  | scheduleNow (item : ι)
  | add (item : ι)
  | scheduleClear (item : ι)
  | remove (item : ι)
  | deinit (item : ι)

/--
The queue, the `_wq` of the items, the worker and the threads, and a record of what has happened
to the insertions: `ticket` is the number of the insertion a queued item is in the queue by.
-/
structure Sys (T ι : Type) where
  queue : WorkQueue ι
  wq : ι → Bool
  locked : Bool
  worker : Worker ι
  calls : T → Call ι
  ticket : ι → Nat
  inserted : List (Insertion ι)
  ran : List (Insertion ι)
  removed : List (Insertion ι)

/-- A new work queue, before the worker and the threads do anything. -/
def start (workItems : List ι) (wq : ι → Bool) : Sys T ι :=
  { queue := workqueueInit workItems, wq, locked := false, worker := .top, calls := fun _ => .idle,
    ticket := fun _ => 0, inserted := [], ran := [], removed := [] }

inductive Action (T ι : Type) where
  /-- the worker goes on -/
  | worker
  /-- a thread begins a call -/
  | call (t : T) (request : Request ι)
  /-- a thread goes on with its call, with `fuel` turns for a loop; a post is handed over or not -/
  | advance (t : T) (fuel : Nat) (handover : Bool)

namespace Sys

variable [DecidableEq ι] [DecidableEq T]

/-- The call of `t` has come to `c`. -/
def goto (s : Sys T ι) (t : T) (c : Call ι) : Sys T ι :=
  { s with calls := update s.calls t c }

def setQ (s : Sys T ι) (q : IntrusiveQueue ι) : Sys T ι :=
  { s with queue := { s.queue with q } }

/-! ## The sections -/

/-- The section of `workqueue_add`. -/
def workqueueAdd (item : ι) (s : Sys T ι) : Sys T ι :=
  let s' := s.setQ (s.queue.q.push item)
  if s.queue.q.alreadyQueued item then s'
  else
    { s' with
      ticket := update s.ticket item s.inserted.length
      inserted := s.inserted ++ [(item, s.inserted.length)] }

/-- The section of `workqueue_remove`. -/
def workqueueRemove (fuel : Nat) (item : ι) (s : Sys T ι) : Option (Sys T ι) :=
  (s.queue.q.remove fuel item).map fun (found, q) =>
    { s.setQ q with
      removed := if found then s.removed ++ [(item, s.ticket item)] else s.removed }

/-- The section of `workqueue_detach`, up to `signal_worker_thread` where that is called. -/
def workqueueDetach (t : T) (item : ι) (s : Sys T ι) : Sys T ι :=
  let workItems := s.queue.workItems.erase item
  if workItems.length = 0 then
    { s with queue := { s.queue with workItems, shouldExit := true }, locked := true }.goto t
      .stopSignalling
  else { s with queue := { s.queue with workItems } }.goto t .idle

def semPost (handover : Bool) (s : Sys T ι) : Sys T ι :=
  match handover, s.worker with
  | true, .waiting => { s with worker := .draining }
  | _, _ => { s with queue := { s.queue with processLock := s.queue.processLock + 1 } }

/-- The section of `workqueue_run` that takes the next item. -/
def workqueueNext (s : Sys T ι) : Sys T ι :=
  if s.queue.q.empty then { s with worker := .top }
  else
    match s.queue.q.pop with
    | (some item, q) => { s.setQ q with worker := .running (item, s.ticket item) }
    | (none, _) => s

/-! ## Steps -/

/-- The next step of `workqueue_run`. -/
def workerStep (s : Sys T ι) : Option (Sys T ι) :=
  match s.worker with
  | .top => some { s with worker := if s.queue.shouldExit then .exited else .waiting }
  | .waiting =>
    if s.queue.processLock = 0 then none
    else
      some { s with
        queue := { s.queue with processLock := s.queue.processLock - 1 }
        worker := .draining }
  | .draining => if s.locked then none else some s.workqueueNext
  | .running work => some { s with worker := .draining, ran := s.ran ++ [work] }
  | .exited => none

def callStep (t : T) (request : Request ι) (s : Sys T ι) : Option (Sys T ι) :=
  match s.calls t with
  | .idle =>
    some (s.goto t (match request with
      | .scheduleNow item => if s.wq item then .scheduling item else .idle
      | .add item => .adding item
      | .scheduleClear item => if s.wq item then .clearing item else .idle
      | .remove item => .removing item false
      | .deinit item => if s.wq item then .deiniting item else .idle))
  | _ => none

def advanceStep (t : T) (fuel : Nat) (handover : Bool) (s : Sys T ι) : Option (Sys T ι) :=
  match s.calls t with
  | .idle => none
  | .scheduling item => if s.wq item then some (s.goto t (.adding item)) else none
  | .adding item => if s.locked then none else some ((s.workqueueAdd item).goto t .signalling)
  | .signalling => some (s.goto t (if s.queue.processLock ≤ 0 then .posting else .idle))
  | .posting => some ((s.semPost handover).goto t .idle)
  | .clearing item => if s.wq item then some (s.goto t (.removing item false)) else none
  | .removing item deinit =>
    if s.locked then none
    else (s.workqueueRemove fuel item).map fun s => s.goto t (if deinit then .detaching item else .idle)
  | .deiniting item => if s.wq item then some (s.goto t (.unsetting item)) else none
  | .unsetting item =>
    some ({ s with wq := update s.wq item false }.goto t (.removing item true))
  | .detaching item => if s.locked then none else some (s.workqueueDetach t item)
  | .stopSignalling =>
    some (if s.queue.processLock ≤ 0 then s.goto t .stopPosting
      else { s with locked := false }.goto t .idle)
  | .stopPosting => some ({ s.semPost handover with locked := false }.goto t .idle)

def step (s : Sys T ι) : Action T ι → Option (Sys T ι)
  | .worker => s.workerStep
  | .call t request => s.callStep t request
  | .advance t fuel handover => s.advanceStep t fuel handover

end Sys

end Gpmx.Workqueue

/-!
## The worker of a work queue misses nothing

* `Account` — every insertion is in the queue, with the worker, run or removed, and in one of
  these places only
* `Awake` — before the worker blocks on a queue that is not empty there is a token, or a thread
  between its insertion and the end of `signal_worker_thread`
-/

namespace Gpmx.Workqueue

open Infra Container Function List

variable {T ι : Type}

def Worker.current : Worker ι → List (Insertion ι)
  | .running work => [work]
  | _ => []

/-- The worker comes to `sem_wait` without another look at the queue. -/
def Worker.MayBlock : Worker ι → Prop
  | .top | .waiting => True
  | _ => False

def Call.OwesPost : Call ι → Prop
  | .signalling | .posting => True
  | _ => False

namespace Sys

def queued (s : Sys T ι) (L : List ι) : List (Insertion ι) := L.map fun i => (i, s.ticket i)

/-- The queue is the list `L`, and no insertion is lost or doubled. -/
structure Account (s : Sys T ι) (L : List ι) : Prop where
  holds : s.queue.q.Holds L
  numbered : s.inserted.map Prod.snd = List.range s.inserted.length
  perm : (s.queued L ++ s.worker.current ++ s.ran ++ s.removed).Perm s.inserted

def Awake (s : Sys T ι) (L : List ι) : Prop :=
  s.worker.MayBlock → L ≠ [] → 0 < s.queue.processLock ∨ ∃ t, (s.calls t).OwesPost

end Sys

open Sys

variable {s s' : Sys T ι} {L : List ι} {t : T} {c : Call ι}

theorem start_account (workItems : List ι) (wq : ι → Bool) :
    (start workItems wq : Sys T ι).Account [] :=
  ⟨init_holds, rfl, .refl _⟩

theorem Sys.Account.congr (h : s.Account L) (hq : s'.queue.q = s.queue.q)
    (hworker : s'.worker.current = s.worker.current) (hticket : s'.ticket = s.ticket)
    (hinserted : s'.inserted = s.inserted) (hran : s'.ran = s.ran)
    (hremoved : s'.removed = s.removed) : s'.Account L := by
  refine ⟨?_, ?_, ?_⟩
  · rw [hq]
    exact h.holds
  · rw [hinserted]
    exact h.numbered
  · unfold queued
    rw [hworker, hticket, hinserted, hran, hremoved]
    exact h.perm

theorem semPost_account (handover : Bool) (h : s.Account L) : (s.semPost handover).Account L := by
  unfold semPost
  split
  · next hworker => exact h.congr rfl (by rw [hworker]; rfl) rfl rfl rfl rfl
  · exact h.congr rfl rfl rfl rfl rfl rfl

theorem semPost_token (handover : Bool) (hworker : (s.semPost handover).worker.MayBlock) :
    0 < (s.semPost handover).queue.processLock := by
  unfold semPost at hworker ⊢
  split at hworker
  · exact hworker.elim
  · exact Nat.succ_pos _

section

variable [DecidableEq T]

theorem Sys.Account.goto (h : s.Account L) : (s.goto t c).Account L :=
  h.congr rfl rfl rfl rfl rfl rfl

theorem Sys.Awake.goto (h : s.Awake L)
    (hc : (s.calls t).OwesPost → c.OwesPost ∨ 0 < s.queue.processLock) :
    (s.goto t c).Awake L := by
  intro hworker hL
  rcases h hworker hL with hsem | ⟨t', ht'⟩
  · exact .inl hsem
  by_cases ht : t' = t
  · subst ht
    rcases hc ht' with howes | hsem
    · refine .inr ⟨t', ?_⟩
      simp only [Sys.goto, update_self]
      exact howes
    · exact .inl hsem
  · refine .inr ⟨t', ?_⟩
    simp only [Sys.goto, update_of_ne ht]
    exact ht'

theorem Sys.Awake.aside (h : s.Awake L) (hnot : ¬(s.calls t).OwesPost) : (s.goto t c).Awake L :=
  h.goto fun howes => absurd howes hnot

theorem callStep_keeps {request : Request ι} (ha : s.Account L) (hw : s.Awake L)
    (hs : s.callStep t request = some s') : s'.Account L ∧ s'.Awake L := by
  unfold callStep at hs
  split at hs
  · next hidle =>
    cases hs
    have hnot : ¬(s.calls t).OwesPost := by
      rw [hidle]
      exact id
    exact ⟨ha.goto, hw.aside hnot⟩
  · cases hs

end

variable [DecidableEq ι]

/-! ## No insertion is lost or doubled -/

theorem workqueueAdd_account (item : ι) (h : s.Account L) :
    (s.workqueueAdd item).Account (if item ∈ L then L else L ++ [item]) := by
  have hpush := push_holds item h.holds
  unfold workqueueAdd
  by_cases hmem : item ∈ L
  · rw [if_pos ((alreadyQueued_iff h.holds).mpr hmem)]
    rw [if_pos hmem] at hpush ⊢
    exact ⟨hpush, h.numbered, h.perm⟩
  · rw [if_neg (mt (alreadyQueued_iff h.holds).mp hmem)]
    rw [if_neg hmem] at hpush ⊢
    refine ⟨hpush, ?_, ?_⟩
    · simp [h.numbered, range_succ]
    · -- the tickets of the items that were queued stay
      have hqueued : (L ++ [item]).map
          (fun i => (i, update s.ticket item s.inserted.length i))
          = s.queued L ++ [(item, s.inserted.length)] := by
        rw [map_append, map_singleton, update_self]
        congr 1
        apply map_congr_left
        intro i hi
        rw [update_of_ne]
        rintro rfl
        exact hmem hi
      have hperm := h.perm
      rw [perm_iff_count] at hperm ⊢
      intro a
      have ha := hperm a
      unfold queued at ha hqueued ⊢
      simp only [setQ, hqueued, count_append] at ha ⊢
      omega

theorem workqueueRemove_account (fuel : Nat) (item : ι) (h : s.Account L)
    (hs : s.workqueueRemove fuel item = some s') : s'.Account (L.erase item) := by
  unfold workqueueRemove at hs
  rcases remove_holds fuel item h.holds with ⟨hnone, -⟩ | ⟨q', hq, hL⟩
  · rw [hnone] at hs
    cases hs
  rw [hq] at hs
  cases hs
  refine ⟨hL, h.numbered, ?_⟩
  by_cases hmem : item ∈ L
  · have hcons : (s.queued L).Perm ((item, s.ticket item) :: s.queued (L.erase item)) :=
      (perm_cons_erase hmem).map _
    have hperm := h.perm
    rw [perm_iff_count] at hcons hperm ⊢
    intro a
    have ha := hperm a
    have ha' := hcons a
    rw [← singleton_append] at ha'
    unfold queued at ha ha' ⊢
    simp only [setQ, hmem, decide_true, if_true, count_append] at ha ha' ⊢
    omega
  · rw [erase_of_not_mem hmem]
    simp only [hmem, decide_false, Bool.false_eq_true, if_false]
    exact h.perm

theorem workqueueNext_account (h : s.Account L) (hworker : s.worker.current = []) :
    s.workqueueNext.Account L.tail := by
  unfold workqueueNext
  cases L with
  | nil =>
    rw [if_pos ((empty_iff h.holds).mpr rfl)]
    exact h.congr rfl hworker.symm rfl rfl rfl rfl
  | cons item L =>
    rw [if_neg (mt (empty_iff h.holds).mp (by simp))]
    obtain ⟨q', hpop, hL⟩ := pop_cons h.holds
    rw [hpop]
    refine ⟨hL, h.numbered, ?_⟩
    have hperm := h.perm
    rw [perm_iff_count] at hperm ⊢
    intro a
    have ha := hperm a
    unfold queued at ha ⊢
    rw [map_cons, ← singleton_append, hworker] at ha
    simp only [setQ, Worker.current, tail_cons, count_append, count_nil] at ha ⊢
    omega

theorem run_account {work : Insertion ι} (h : s.Account L) (hworker : s.worker = .running work) :
    { s with worker := .draining, ran := s.ran ++ [work] }.Account L := by
  refine ⟨h.holds, h.numbered, ?_⟩
  have hperm := h.perm
  rw [hworker] at hperm
  rw [perm_iff_count] at hperm ⊢
  intro a
  have ha := hperm a
  unfold queued at ha ⊢
  simp only [Worker.current, count_append, count_nil] at ha ⊢
  omega

/-! ## No wake-up is lost -/

theorem workqueueNext_awake (h : s.queue.q.Holds L) : s.workqueueNext.Awake L.tail := by
  intro hworker hL
  unfold workqueueNext at hworker
  cases L with
  | nil => exact absurd rfl hL
  | cons item L =>
    obtain ⟨q', hpop, -⟩ := pop_cons h
    rw [if_neg (mt (empty_iff h).mp (by simp)), hpop] at hworker
    exact hworker.elim

theorem workqueueRemove_awake {fuel : Nat} {item : ι} (h : s.Awake L)
    (hs : s.workqueueRemove fuel item = some s') :
    s'.calls = s.calls ∧ s'.Awake (L.erase item) := by
  obtain ⟨⟨found, q⟩, -, rfl⟩ := Option.map_eq_some_iff.mp hs
  refine ⟨rfl, fun hworker hL => h hworker ?_⟩
  rintro rfl
  exact hL rfl

/-! ## Steps -/

theorem workerStep_keeps (ha : s.Account L) (hw : s.Awake L) (hs : s.workerStep = some s') :
    ∃ L', s'.Account L' ∧ s'.Awake L' := by
  unfold workerStep at hs
  cases hworker : s.worker with simp only [hworker] at hs
  | top =>
    cases hs
    refine ⟨L, ha.congr rfl ?_ rfl rfl rfl rfl, fun _ hL => hw (by rw [hworker]; trivial) hL⟩
    rw [hworker]
    split <;> rfl
  | waiting =>
    split at hs
    · cases hs
    · cases hs
      refine ⟨L, ha.congr rfl ?_ rfl rfl rfl rfl, fun hdraining => hdraining.elim⟩
      rw [hworker]
      rfl
  | draining =>
    split at hs
    · cases hs
    · cases hs
      have hcurrent : s.worker.current = [] := by
        rw [hworker]
        rfl
      exact ⟨L.tail, workqueueNext_account ha hcurrent, workqueueNext_awake ha.holds⟩
  | running work =>
    cases hs
    exact ⟨L, run_account ha hworker, fun hdraining => hdraining.elim⟩
  | exited =>
    cases hs

variable [DecidableEq T]

theorem advanceStep_keeps {fuel : Nat} {handover : Bool} (ha : s.Account L) (hw : s.Awake L)
    (hs : s.advanceStep t fuel handover = some s') : ∃ L', s'.Account L' ∧ s'.Awake L' := by
  unfold advanceStep at hs
  cases hcall : s.calls t with simp only [hcall] at hs
  | idle =>
    cases hs
  | scheduling item | clearing item | deiniting item =>
    have hnot : ¬(s.calls t).OwesPost := by
      rw [hcall]
      exact id
    split at hs
    · cases hs
      exact ⟨L, ha.goto, hw.aside hnot⟩
    · cases hs
  | adding item =>
    split at hs
    · cases hs
    · cases hs
      refine ⟨_, (workqueueAdd_account item ha).goto, fun _ _ => .inr ⟨t, ?_⟩⟩
      simp only [Sys.goto, update_self]
      trivial
  | signalling =>
    cases hs
    refine ⟨L, ha.goto, hw.goto fun _ => ?_⟩
    split
    · exact .inl trivial
    · exact .inr (by omega)
  | posting =>
    cases hs
    exact ⟨L, (semPost_account handover ha).goto,
      fun hworker _ => .inl (semPost_token handover hworker)⟩
  | removing item deinit =>
    split at hs
    · cases hs
    · obtain ⟨s1, hs1, rfl⟩ := Option.map_eq_some_iff.mp hs
      obtain ⟨hcalls, hw1⟩ := workqueueRemove_awake hw hs1
      refine ⟨_, (workqueueRemove_account fuel item ha hs1).goto, hw1.aside ?_⟩
      rw [hcalls, hcall]
      exact id
  | unsetting item =>
    cases hs
    have ha' : { s with wq := update s.wq item false }.Account L :=
      ha.congr rfl rfl rfl rfl rfl rfl
    have hw' : { s with wq := update s.wq item false }.Awake L := hw
    refine ⟨L, ha'.goto, hw'.aside ?_⟩
    rw [hcall]
    exact id
  | detaching item =>
    split at hs
    · cases hs
    · cases hs
      have hnot : ¬(s.calls t).OwesPost := by
        rw [hcall]
        exact id
      unfold workqueueDetach
      dsimp only
      refine ⟨L, ?_, ?_⟩
      · split <;> exact ha.congr rfl rfl rfl rfl rfl rfl
      · split
        · exact Sys.Awake.aside (s := { s with queue := _, locked := true }) hw hnot
        · exact Sys.Awake.aside (s := { s with queue := _ }) hw hnot
  | stopSignalling =>
    cases hs
    have hnot : ¬(s.calls t).OwesPost := by
      rw [hcall]
      exact id
    refine ⟨L, ?_, ?_⟩
    · split <;> exact ha.congr rfl rfl rfl rfl rfl rfl
    · split
      · exact hw.aside hnot
      · exact Sys.Awake.aside (s := { s with locked := false }) hw hnot
  | stopPosting =>
    cases hs
    refine ⟨L, (semPost_account handover ha).congr rfl rfl rfl rfl rfl rfl, ?_⟩
    exact fun hworker _ => .inl (semPost_token handover hworker)

theorem step_keeps {a : Action T ι} (h : ∃ L, s.Account L ∧ s.Awake L) (hs : s.step a = some s') :
    ∃ L, s'.Account L ∧ s'.Awake L := by
  obtain ⟨L, ha, hw⟩ := h
  cases a with
  | worker => exact workerStep_keeps ha hw hs
  | call t request => exact ⟨L, callStep_keeps ha hw hs⟩
  | advance t fuel handover => exact advanceStep_keeps ha hw hs

theorem reaches_keeps {workItems : List ι} {wq : ι → Bool}
    (h : Reaches step Always (start workItems wq) s) : ∃ L, s.Account L ∧ s.Awake L := by
  refine h.invariant (P := fun s => ∃ L, s.Account L ∧ s.Awake L) ?_ ?_
  · exact ⟨[], start_account workItems wq, fun _ hL => absurd rfl hL⟩
  · intro s a s' hinv _ hs
    exact step_keeps hinv hs

/-! ## Results -/

/-- A post of this thread is still to come: it is about to post, or is when it has looked. -/
def Sys.PostToCome (s : Sys T ι) (t : T) : Prop :=
  s.calls t = .posting ∨ ∃ s', s.step (.advance t 0 false) = some s' ∧ s'.calls t = .posting

theorem Sys.Awake.postToCome (h : s.Awake L) (hworker : s.worker = .waiting) (hL : L ≠ [])
    (hsem : s.queue.processLock = 0) : ∃ t, s.PostToCome t := by
  rcases h (by rw [hworker]; trivial) hL with hpos | ⟨t, ht⟩
  · omega
  refine ⟨t, ?_⟩
  cases hcall : s.calls t with
  | posting => exact .inl hcall
  | signalling =>
    refine .inr ⟨s.goto t .posting, ?_, update_self _ _ _⟩
    simp [step, advanceStep, hcall, hsem]
  | _ =>
    rw [hcall] at ht
    exact ht.elim

/-- **The worker does not sleep on a queue that is not empty, and no item is lost or doubled.** -/
theorem workqueue_loses_nothing {workItems : List ι} {wq : ι → Bool}
    (h : Reaches step Always (start workItems wq) s) :
    (s.worker = .waiting → s.queue.processLock = 0 → s.queue.q.empty = false →
      ∃ t, s.PostToCome t) ∧
    ∃ L, s.queue.q.Holds L ∧ L.Nodup ∧
      (s.queued L ++ s.worker.current ++ s.ran ++ s.removed).Perm s.inserted ∧
      (s.inserted.map Prod.snd).Nodup ∧ (s.ran.map Prod.snd).Nodup ∧
      ∀ x ∈ s.removed, x.2 ∉ s.ran.map Prod.snd := by
  obtain ⟨L, ha, hw⟩ := reaches_keeps h
  have hinserted : (s.inserted.map Prod.snd).Nodup := by
    rw [ha.numbered]
    exact nodup_range
  have hall := (ha.perm.map Prod.snd).nodup_iff.mpr hinserted
  rw [map_append, map_append, nodup_append, nodup_append] at hall
  obtain ⟨⟨-, hran, -⟩, -, hdisj⟩ := hall
  refine ⟨?_, L, ha.holds, ha.holds.nodup, ha.perm, hinserted, hran, ?_⟩
  · intro hworker hsem hempty
    refine hw.postToCome hworker ?_ hsem
    rintro rfl
    rw [(empty_iff ha.holds).mpr rfl] at hempty
    cases hempty
  · intro x hx hmem
    exact hdisj x.2 (mem_append_right _ hmem) x.2 (mem_map_of_mem hx) rfl

/-- The worker blocks between the insertion of the other thread and its post. -/
theorem workqueue_loses_nothing_waiting :
    ∃ s : Sys Bool (Fin 2), Reaches step Always (start [0, 1] fun _ => true) s ∧
      s.worker = .waiting ∧ s.queue.processLock = 0 ∧ ∃ t, s.PostToCome t := by
  have hrun : ([.call true (.scheduleNow 0), .advance true 0 false, .advance true 0 false,
      .worker].foldlM step (start [0, 1] fun _ => true : Sys Bool (Fin 2))).map
      (fun s => (s.worker, s.queue.processLock, s.queue.q.empty))
      = some (.waiting, 0, false) := by decide
  obtain ⟨s, hs, hp⟩ := Option.map_eq_some_iff.mp hrun
  simp only [Prod.mk.injEq] at hp
  have hreach := Reaches.of_foldlM _ hs
  exact ⟨s, hreach, hp.1, hp.2.1, (workqueue_loses_nothing hreach).1 hp.1 hp.2.1 hp.2.2⟩

end Gpmx.Workqueue
