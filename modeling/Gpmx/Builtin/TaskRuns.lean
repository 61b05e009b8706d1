import Gpmx.Builtin.Task

/-!
# The table of built-in tasks, over runs

`Sound` is kept by every step that is `Allowed`: a slot is in use by the last task that was put there, as
long as this task is live, and a task that has not ended has its thread.
-/

namespace Gpmx.Builtin

open Infra Function

variable {T : Type} [DecidableEq T]

def Live (task : Task T) : Prop := task.ended = false ∨ task.joinable = true ∧ task.joined = false

instance (task : Task T) : Decidable (Live task) := inferInstanceAs (Decidable (_ ∨ _))

/--
`pthread_create` fails with `EPERM` only at first; a task that is not joinable finds its own slot when it
ends; the slot that is deleted is in use by the task of the thread that was read there, and this thread
can be cancelled; and the slot that is released after a join is that of the task that was joined.
-/
def Allowed (s : State T) : Act T → Prop
  | .create _ first _ => ∀ rv, first = .failed rv → rv = EPERM
  | .exit t => ∀ k task, s.taskOf t = some k → s.tasks k = some task → Live task → task.joinable = false →
    firstOf s.taskmap t = some task.slot
  | .delete _ id | .join _ id => 0 ≤ id
  | .remove t rv => ∀ id pid, s.pc t = .delete id pid →
    (s.taskmap id).isused = true ∧ (∃ k, s.owner id = some k ∧ s.taskOf pid = some k) ∧ (t = pid ∨ rv = 0)
  | .release t => ∀ id pid seen, s.pc t = .release id pid seen →
    (s.taskmap id).isused = true → (s.taskmap id).pid = pid → s.owner id = seen
  | _ => True

structure TableOk (taskmap : Nat → TaskEntry T) (reserved : Option Nat) (tasks : Nat → Option (Task T))
    (owner : Nat → Option Nat) : Prop where
  used : ∀ i, reserved ≠ some i →
    ((taskmap i).isused = true ↔ ∃ k task, owner i = some k ∧ tasks k = some task ∧ Live task)
  reserved : ∀ i, reserved = some i → ∀ k task, owner i = some k → tasks k = some task → ¬ Live task
  owned : ∀ k task, tasks k = some task → Live task → owner task.slot = some k ∧
    (taskmap task.slot).pid = task.pid ∧ (taskmap task.slot).joinable = task.joinable
  slot : ∀ i k, owner i = some k → ∃ task, tasks k = some task ∧ task.slot = i
  bound : ∀ k task, tasks k = some task → task.slot < CONFIG_BUILDAPP_MAX_TASKS
  joined : ∀ k task, tasks k = some task → task.joined = true → task.ended = true

structure ThreadsOk (tasks : Nat → Option (Task T)) (threads : T → Option Thread) : Prop where
  running : ∀ k task, tasks k = some task → task.ended = false →
    ∃ thr, threads task.pid = some thr ∧ thr.task = some k ∧ thr.ended = false
  task : ∀ p thr k, threads p = some thr → thr.task = some k → ∃ task, tasks k = some task ∧ task.pid = p
  ended : ∀ p thr k task, threads p = some thr → thr.task = some k → tasks k = some task →
    thr.ended = true ∨ thr.canceled = true → task.ended = true

def PcOk (s : State T) (t : T) : Pc T → Prop
  | .leaving => ∃ k task, s.taskOf t = some k ∧ s.tasks k = some task ∧ task.ended = true
  | .attr sp | .lock sp => buildPthdata sp.req.name sp.req.argv = some sp.taskdata
  | .create sp slot before => buildPthdata sp.req.name sp.req.argv = some sp.taskdata ∧ s.mutex = some t ∧
    slot < CONFIG_BUILDAPP_MAX_TASKS ∧ (before slot).isused = false ∧ (s.taskmap slot).isused = true ∧
    (s.taskmap slot).joinable = sp.req.joinable ∧ ∀ j, j ≠ slot → s.taskmap j = before j
  | .joining id pid seen => ∃ k task, seen = some k ∧ s.tasks k = some task ∧ task.slot = id ∧ task.pid = pid ∧
    task.joinable = true
  | .release id pid seen => ∃ k task, seen = some k ∧ s.tasks k = some task ∧ task.slot = id ∧ task.pid = pid ∧
    task.ended = true
  | _ => True

def reservedSlot (s : State T) : Option Nat :=
  s.mutex.bind fun t =>
    match s.pc t with
    | .create _ slot _ => some slot
    | _ => none

structure Sound (s : State T) : Prop where
  fault : s.fault = false
  table : TableOk s.taskmap (reservedSlot s) s.tasks s.owner
  threads : ThreadsOk s.tasks s.threads
  count : ∀ k task, s.tasks k = some task → k < s.count
  data : ∀ k task, s.tasks k = some task →
    buildPthdata task.spawn.req.name task.spawn.req.argv = some task.spawn.taskdata
  alive : ∀ t, s.pc t ≠ .idle → s.running t = true
  holder : ∀ t, s.mutex = some t → ∃ sp slot before, s.pc t = .create sp slot before
  pcs : ∀ t, PcOk s t (s.pc t)

/-! ## The table -/

section Table

variable {taskmap taskmap' : Nat → TaskEntry T} {tasks : Nat → Option (Task T)} {owner : Nat → Option Nat}
  {i k : Nat} {e : TaskEntry T} {task task' : Task T}

omit [DecidableEq T]

theorem update_isused (hi : i ≠ k) : update taskmap k e i = taskmap i := update_of_ne hi ..

theorem TableOk.isused (h : TableOk taskmap none tasks owner) (htask : tasks k = some task) (hlive : Live task) :
    (taskmap task.slot).isused = true :=
  (h.used task.slot nofun).mpr ⟨k, task, (h.owned k task htask hlive).1, htask, hlive⟩

theorem TableOk.reserve (h : TableOk taskmap none tasks owner) (hi : (taskmap i).isused = false) :
    TableOk (update taskmap i e) (some i) tasks owner := by
  have hfree : ∀ k task, tasks k = some task → Live task → task.slot ≠ i := by
    rintro k task htask hlive rfl
    rw [h.isused htask hlive] at hi
    cases hi
  refine ⟨fun j hj => ?_, fun j hj k task howner htask hlive => ?_, fun k task htask hlive => ?_, h.slot, h.bound,
    h.joined⟩
  · have hne : j ≠ i := fun hji => hj (congrArg some hji.symm)
    rw [update_isused hne]
    exact h.used j nofun
  · cases hj
    obtain ⟨task', htask', hslot⟩ := h.slot i k howner
    rw [htask] at htask'
    cases htask'
    exact hfree k task htask hlive hslot
  · rw [update_isused (hfree k task htask hlive)]
    exact h.owned k task htask hlive

theorem TableOk.giveUp (h : TableOk taskmap (some i) tasks owner) (he : e.isused = false) :
    TableOk (update taskmap i e) none tasks owner := by
  have hfree : ∀ k task, tasks k = some task → Live task → task.slot ≠ i := by
    rintro k task htask hlive rfl
    exact h.reserved _ rfl k task (h.owned k task htask hlive).1 htask hlive
  refine ⟨fun j _ => ?_, nofun, fun k task htask hlive => ?_, h.slot, h.bound, h.joined⟩
  · by_cases hj : j = i
    · rw [hj, update_self, he]
      refine iff_of_false nofun ?_
      rintro ⟨k, task, howner, htask, hlive⟩
      exact h.reserved i rfl k task howner htask hlive
    · rw [update_isused hj]
      exact h.used j fun hij => hj (Option.some.inj hij).symm
  · rw [update_isused (hfree k task htask hlive)]
    exact h.owned k task htask hlive

theorem TableOk.spawned (h : TableOk taskmap (some i) tasks owner) (hk : tasks k = none)
    (hi : i < CONFIG_BUILDAPP_MAX_TASKS) (he : e.isused = true ∧ e.pid = task.pid ∧ e.joinable = task.joinable)
    (htask : task.slot = i ∧ task.ended = false ∧ task.joined = false) :
    TableOk (update taskmap i e) none (update tasks k (some task))
      (update owner i (some k)) := by
  have hne : ∀ {k' task'}, tasks k' = some task' → k' ≠ k := by
    rintro k' task' htask' rfl
    rw [hk] at htask'
    cases htask'
  have hold : ∀ {k' task'}, update tasks k (some task) k' = some task' → k' ≠ k → tasks k' = some task' :=
    fun ht hk' => by rwa [update_of_ne hk'] at ht
  have hnew : ∀ {task'}, update tasks k (some task) k = some task' → task' = task := by
    intro task' ht
    rw [update_self] at ht
    exact (Option.some.inj ht).symm
  refine ⟨fun j _ => ?_, nofun, fun k' task' ht hlive => ?_, fun j k' hj => ?_, fun k' task' ht => ?_,
    fun k' task' ht => ?_⟩
  · by_cases hj : j = i
    · rw [hj, update_self, update_self, he.1]
      exact iff_of_true rfl ⟨k, task, rfl, update_self .., .inl htask.2.1⟩
    · rw [update_isused hj, update_of_ne hj, h.used j fun hij => hj (Option.some.inj hij).symm]
      refine exists_congr fun k' => exists_congr fun task' => and_congr_right fun hj' => ?_
      obtain ⟨task'', htask'', -⟩ := h.slot j k' hj'
      rw [update_of_ne (hne htask'')]
  · by_cases hk' : k' = k
    · subst hk'
      rw [hnew ht, htask.1, update_self, update_self]
      exact ⟨rfl, he.2⟩
    · have ht' := hold ht hk'
      have hslot : task'.slot ≠ i := by
        intro hslot
        refine h.reserved i rfl k' task' ?_ ht' hlive
        rw [← hslot]
        exact (h.owned k' task' ht' hlive).1
      rw [update_of_ne hslot, update_of_ne hslot]
      exact h.owned k' task' ht' hlive
  · by_cases hji : j = i
    · rw [hji, update_self] at hj
      cases hj
      exact ⟨task, update_self .., htask.1.trans hji.symm⟩
    · rw [update_of_ne hji] at hj
      obtain ⟨task', ht', hslot⟩ := h.slot j k' hj
      exact ⟨task', by rw [update_of_ne (hne ht')]; exact ht', hslot⟩
  · by_cases hk' : k' = k
    · subst hk'
      rw [hnew ht, htask.1]
      exact hi
    · exact h.bound k' task' (hold ht hk')
  · by_cases hk' : k' = k
    · subst hk'
      rw [hnew ht, htask.2.2]
      nofun
    · exact h.joined k' task' (hold ht hk')

theorem TableOk.congr (h : TableOk taskmap none tasks owner)
    (hsame : ∀ i, (taskmap' i).isused = (taskmap i).isused ∧ ((taskmap i).isused = true → taskmap' i = taskmap i)) :
    TableOk taskmap' none tasks owner := by
  refine { h with used := fun i hi => ?_, owned := fun k task htask hlive => ?_ }
  · rw [(hsame i).1]
    exact h.used i hi
  · rw [(hsame _).2 (h.isused htask hlive)]
    exact h.owned k task htask hlive

variable {k₁ : Nat} {task₁ : Task T}

section

variable (h : TableOk taskmap none tasks owner)
include h

theorem TableOk.slot_update (htask : tasks k = some task)
    (hsame : task'.slot = task.slot) {i : Nat} (hi : owner i = some k₁) :
    ∃ task₁, update tasks k (some task') k₁ = some task₁ ∧ task₁.slot = i := by
  obtain ⟨task₁, ht, hslot⟩ := h.slot i k₁ hi
  by_cases hk : k₁ = k
  · subst hk
    rw [htask] at ht
    cases ht
    exact ⟨task', update_self .., hsame.trans hslot⟩
  · exact ⟨task₁, by rw [update_of_ne hk]; exact ht, hslot⟩

theorem TableOk.bound_update (htask : tasks k = some task)
    (hsame : task'.slot = task.slot) (ht : update tasks k (some task') k₁ = some task₁) :
    task₁.slot < CONFIG_BUILDAPP_MAX_TASKS := by
  rcases update_some_cases ht with ⟨rfl, rfl⟩ | ⟨-, ht'⟩
  · rw [hsame]
    exact h.bound k₁ task htask
  · exact h.bound k₁ task₁ ht'

theorem TableOk.joined_update (hjoined : task'.joined = true → task'.ended = true)
    (ht : update tasks k (some task') k₁ = some task₁) :
    task₁.joined = true → task₁.ended = true := by
  rcases update_some_cases ht with ⟨rfl, rfl⟩ | ⟨-, ht'⟩
  · exact hjoined
  · exact h.joined k₁ task₁ ht'

theorem TableOk.setTask (htask : tasks k = some task)
    (hsame : task'.slot = task.slot ∧ task'.pid = task.pid ∧ task'.joinable = task.joinable)
    (hlive : Live task' ↔ Live task) (hjoined : task'.joined = true → task'.ended = true) :
    TableOk taskmap none (update tasks k (some task')) owner := by
  refine ⟨fun i hi => ?_, nofun, fun k₁ task₁ ht hl => ?_, fun i k₁ hi => h.slot_update htask hsame.1 hi,
    fun k₁ task₁ ht => h.bound_update htask hsame.1 ht, fun k₁ task₁ ht => h.joined_update hjoined ht⟩
  · rw [h.used i hi]
    refine exists_congr fun k₁ => ?_
    by_cases hk : k₁ = k
    · subst hk
      simp [htask, hlive]
    · simp [update_of_ne hk]
  · rcases update_some_cases ht with ⟨rfl, rfl⟩ | ⟨-, ht'⟩
    · rw [hsame.1, hsame.2.1, hsame.2.2]
      exact h.owned k₁ task htask (hlive.mp hl)
    · exact h.owned k₁ task₁ ht' hl

theorem TableOk.finish (htask : tasks k = some task)
    (hsame : task'.slot = task.slot ∧ task'.pid = task.pid ∧ task'.joinable = task.joinable)
    (hlive : ¬ Live task') (hjoined : task'.joined = true → task'.ended = true)
    (hothers : ∀ i, i ≠ task.slot ∨ owner i ≠ some k → taskmap' i = taskmap i)
    (hslot : owner task.slot = some k → (taskmap' task.slot).isused = false) :
    TableOk taskmap' none (update tasks k (some task')) owner := by
  have hcases : ∀ {k₁ task₁}, update tasks k (some task') k₁ = some task₁ → Live task₁ →
      k₁ ≠ k ∧ tasks k₁ = some task₁ := by
    intro k₁ task₁ ht hl
    rcases update_some_cases ht with ⟨-, rfl⟩ | hother
    · exact absurd hl hlive
    · exact hother
  refine ⟨fun i hi => ?_, nofun, fun k₁ task₁ ht hl => ?_, fun i k₁ hi => h.slot_update htask hsame.1 hi,
    fun k₁ task₁ ht => h.bound_update htask hsame.1 ht, fun k₁ task₁ ht => h.joined_update hjoined ht⟩
  · by_cases howner : owner i = some k
    · obtain ⟨task₁, ht, hi'⟩ := h.slot i k howner
      rw [htask] at ht
      cases ht
      subst hi'
      rw [hslot howner]
      refine iff_of_false nofun ?_
      rintro ⟨k₁, task₁, ho, ht, hl⟩
      rw [howner] at ho
      cases ho
      exact (hcases ht hl).1 rfl
    · rw [hothers i (.inr howner), h.used i hi]
      refine exists_congr fun k₁ => ?_
      by_cases hk : k₁ = k
      · subst hk
        simp [howner]
      · simp [update_of_ne hk]
  · obtain ⟨hk, ht'⟩ := hcases ht hl
    obtain ⟨ho, hentry⟩ := h.owned k₁ task₁ ht' hl
    have hne : owner task₁.slot ≠ some k := by
      rw [ho]
      exact fun hk' => hk (Option.some.inj hk')
    rw [hothers _ (.inr hne)]
    exact ⟨ho, hentry⟩

end

end Table

/-! ## The threads -/

section Threads

variable {tasks : Nat → Option (Task T)} {threads : T → Option Thread} {k : Nat} {p : T} {thr thr' : Thread}
  {task task' : Task T}

theorem ThreadsOk.spawned (h : ThreadsOk tasks threads) (hk : tasks k = none) (hp : threads p = none)
    (htask : task.pid = p) :
    ThreadsOk (update tasks k (some task))
      (update threads p (some { task := some k, ended := false, canceled := false })) := by
  have hne : ∀ {k' task'}, tasks k' = some task' → k' ≠ k := by
    rintro k' task' ht rfl
    rw [hk] at ht
    cases ht
  refine ⟨fun k' task' ht hend => ?_, fun q thr k' hq hthr => ?_, fun q thr k' task' hq hthr ht hend => ?_⟩
  · rcases update_some_cases ht with ⟨rfl, rfl⟩ | ⟨hk', ht⟩
    · rw [htask]
      exact ⟨_, update_self .., rfl, rfl⟩
    · obtain ⟨thr, hthr, hrest⟩ := h.running k' task' ht hend
      refine ⟨thr, ?_, hrest⟩
      rw [update_of_ne, hthr]
      intro hpid
      rw [hpid, hp] at hthr
      cases hthr
  · rcases update_some_cases hq with ⟨rfl, rfl⟩ | ⟨hqp, hq⟩
    · cases hthr
      exact ⟨task, update_self .., htask⟩
    · obtain ⟨task', ht, hpid⟩ := h.task q thr k' hq hthr
      exact ⟨task', by rw [update_of_ne (hne ht)]; exact ht, hpid⟩
  · rcases update_some_cases hq with ⟨rfl, rfl⟩ | ⟨hqp, hq⟩
    · rcases hend with hend | hend <;> cases hend
    · obtain ⟨task'', ht', -⟩ := h.task q thr k' hq hthr
      rw [update_of_ne (hne ht')] at ht
      exact h.ended q thr k' task' hq hthr ht hend

omit [DecidableEq T] in
theorem ThreadsOk.setTask (h : ThreadsOk tasks threads) (ht : tasks k = some task)
    (hsame : task'.pid = task.pid ∧ (task.ended = true → task'.ended = true)) :
    ThreadsOk (update tasks k (some task')) threads := by
  refine ⟨fun k' task₁ ht₁ hend => ?_, fun q thr k' hq hthr => ?_, fun q thr k' task₁ hq hthr ht₁ hend => ?_⟩
  · rcases update_some_cases ht₁ with ⟨rfl, rfl⟩ | ⟨hk, ht₁⟩
    · rw [hsame.1]
      refine h.running k' task ht ?_
      cases hended : task.ended with
      | false => rfl
      | true =>
        rw [hsame.2 hended] at hend
        cases hend
    · exact h.running k' task₁ ht₁ hend
  · obtain ⟨task₁, ht₁, hpid⟩ := h.task q thr k' hq hthr
    by_cases hk : k' = k
    · subst hk
      rw [ht] at ht₁
      cases ht₁
      exact ⟨task', update_self .., hsame.1.trans hpid⟩
    · exact ⟨task₁, by rw [update_of_ne hk]; exact ht₁, hpid⟩
  · rcases update_some_cases ht₁ with ⟨rfl, rfl⟩ | ⟨hk, ht₁⟩
    · exact hsame.2 (h.ended q thr k' task hq hthr ht hend)
    · exact h.ended q thr k' task₁ hq hthr ht₁ hend

theorem ThreadsOk.setThread (h : ThreadsOk tasks threads) (hp : threads p = some thr)
    (hsame : thr'.task = thr.task)
    (hended : thr'.ended = true ∨ thr'.canceled = true →
      ∀ k task, thr.task = some k → tasks k = some task → task.ended = true) :
    ThreadsOk tasks (update threads p (some thr')) := by
  refine ⟨fun k task ht hend => ?_, fun q thr₁ k hq hthr => ?_, fun q thr₁ k task hq hthr ht hend => ?_⟩
  · obtain ⟨thr₁, hthr, htask, hrun⟩ := h.running k task ht hend
    by_cases hpid : task.pid = p
    · rw [hpid, hp] at hthr
      cases hthr
      refine ⟨thr', by rw [hpid, update_self], hsame.trans htask, ?_⟩
      cases hthr' : thr'.ended with
      | false => rfl
      | true =>
        rw [hended (.inl hthr') k task htask ht] at hend
        cases hend
    · exact ⟨thr₁, by rw [update_of_ne hpid]; exact hthr, htask, hrun⟩
  · rcases update_some_cases hq with ⟨rfl, rfl⟩ | ⟨hqp, hq⟩
    · exact h.task q thr k hp (hsame ▸ hthr)
    · exact h.task q thr₁ k hq hthr
  · rcases update_some_cases hq with ⟨rfl, rfl⟩ | ⟨hqp, hq⟩
    · exact hended hend k task (hsame ▸ hthr) ht
    · exact h.ended q thr₁ k task hq hthr ht hend

theorem ThreadsOk.gone (h : ThreadsOk tasks threads) (hp : threads p = some thr)
    (hend : thr.ended = true ∨ thr.task = none) : ThreadsOk tasks (update threads p none) := by
  have hother : ∀ {q thr}, update threads p none q = some thr → threads q = some thr :=
    fun hq => ((update_cases hq).resolve_left (nomatch ·.2)).2
  refine ⟨fun k task ht hrun => ?_, fun q thr k hq => h.task q thr k (hother hq),
    fun q thr k task hq => h.ended q thr k task (hother hq)⟩
  obtain ⟨thr₁, hthr, htask, hrun'⟩ := h.running k task ht hrun
  refine ⟨thr₁, ?_, htask, hrun'⟩
  rw [update_of_ne, hthr]
  intro hpid
  rw [hpid, hp] at hthr
  cases hthr
  rcases hend with he | he
  · rw [he] at hrun'
    cases hrun'
  · rw [he] at htask
    cases htask

theorem ThreadsOk.other (h : ThreadsOk tasks threads) (hp : threads p = none) :
    ThreadsOk tasks (update threads p (some { task := none, ended := false, canceled := false })) := by
  have hother : ∀ {q thr k}, update threads p (some { task := none, ended := false, canceled := false })
      q = some thr → thr.task = some k → threads q = some thr := by
    intro q thr k hq hk
    rcases update_some_cases hq with ⟨-, rfl⟩ | ⟨-, hq⟩
    · cases hk
    · exact hq
  refine ⟨fun k task ht hrun => ?_, fun q thr k hq hk => h.task q thr k (hother hq hk) hk,
    fun q thr k task hq hk => h.ended q thr k task (hother hq hk) hk⟩
  obtain ⟨thr, hthr, hrest⟩ := h.running k task ht hrun
  refine ⟨thr, ?_, hrest⟩
  rw [update_of_ne, hthr]
  intro hpid
  rw [hpid, hp] at hthr
  cases hthr

end Threads

/-! ## Changes of the state -/

structure TaskLe (task task' : Task T) : Prop where
  spawn : task'.spawn = task.spawn
  slot : task'.slot = task.slot
  pid : task'.pid = task.pid
  joinable : task'.joinable = task.joinable
  ended : task.ended = true → task'.ended = true

section Changes

variable {s : State T} {t u p : T} {pc : Pc T} {tasks : Nat → Option (Task T)} {k : Nat} {task task' : Task T}
  {taskmap : Nat → TaskEntry T} {thr : Option Thread}

omit [DecidableEq T] in
theorem Sound.not_holder (h : Sound s) (hpc : ∀ sp slot before, s.pc t ≠ .create sp slot before) :
    s.mutex ≠ some t := by
  intro hmutex
  obtain ⟨sp, slot, before, hcreate⟩ := h.holder t hmutex
  exact hpc sp slot before hcreate

omit [DecidableEq T] in
theorem reservedSlot_of_none (hmutex : s.mutex = none) : reservedSlot s = none := by
  unfold reservedSlot
  rw [hmutex]
  rfl

theorem reservedSlot_goto (ht : s.mutex ≠ some t) : reservedSlot (s.goto t pc) = reservedSlot s := by
  have hpcs : ∀ u, u ≠ t → (s.goto t pc).pc u = s.pc u := fun u hu => update_of_ne hu ..
  have hmutex : (s.goto t pc).mutex = s.mutex := rfl
  unfold reservedSlot
  rw [hmutex]
  cases hm : s.mutex with
  | none => rfl
  | some u =>
    have hu : u ≠ t := by
      rintro rfl
      exact ht hm
    rw [Option.bind_some, Option.bind_some, hpcs u hu]

theorem Sound.goto (h : Sound s) (ht : s.mutex ≠ some t) (halive : pc ≠ .idle → s.running t = true)
    (hok : PcOk s t pc) : Sound (s.goto t pc) := by
  have hpcs : ∀ u, (s.goto t pc).pc u = if u = t then pc else s.pc u := fun u => update_apply ..
  refine { h with table := ?_, alive := fun u hu => ?_, holder := fun u hu => ?_, pcs := fun u => ?_ }
  · rw [reservedSlot_goto ht]
    exact h.table
  · rw [hpcs] at hu
    split at hu
    · rename_i hut
      rw [hut]
      exact halive hu
    · exact h.alive u hu
  · have hut : u ≠ t := by
      rintro rfl
      exact ht hu
    rw [hpcs, if_neg hut]
    exact h.holder u hu
  · rw [hpcs]
    split
    · rename_i hut
      rw [hut]
      exact hok
    · exact h.pcs u

theorem Sound.setThread (h : Sound s) (hthreads : ThreadsOk s.tasks (update s.threads p thr))
    (hrun : s.pc p ≠ .idle → (thr.any fun thr => !thr.ended) = true ∧ thr.bind Thread.task = s.taskOf p) :
    Sound (s.setThread p thr) := by
  have hother : ∀ u, u ≠ p → (s.setThread p thr).threads u = s.threads u := fun u hu =>
    update_of_ne hu ..
  have hself : (s.setThread p thr).threads p = thr := update_self ..
  refine { h with threads := hthreads, alive := fun u hu => ?_, pcs := fun u => ?_ }
  · by_cases hup : u = p
    · subst hup
      have hrun' := (hrun hu).1
      unfold State.running
      rw [hself]
      cases thr with
      | none => cases hrun'
      | some thr => exact hrun'
    · unfold State.running
      rw [hother u hup]
      exact h.alive u hu
  · have hok := h.pcs u
    have htask : s.pc u = .leaving → (s.setThread p thr).taskOf u = s.taskOf u := by
      intro hpc
      unfold State.taskOf
      by_cases hup : u = p
      · subst hup
        rw [hself]
        exact (hrun (by rw [hpc]; nofun)).2
      · rw [hother u hup]
    show PcOk _ u (s.pc u)
    cases hpc : s.pc u with
    | leaving =>
      rw [hpc] at hok
      obtain ⟨k, task, hk, hrest⟩ := hok
      exact ⟨k, task, (htask hpc).trans hk, hrest⟩
    | _ =>
      rw [hpc] at hok
      exact hok

omit [DecidableEq T] in
theorem Sound.setTable (h : Sound s) (hmutex : s.mutex = none) (htable : TableOk taskmap none tasks s.owner)
    (hthreads : ThreadsOk tasks s.threads) (hle : ∀ k, Option.Rel TaskLe (s.tasks k) (tasks k)) :
    Sound { s with taskmap, tasks } := by
  have hnew : ∀ {k task}, s.tasks k = some task → ∃ task', tasks k = some task' ∧ TaskLe task task' := by
    intro k task ht
    have hk := hle k
    rw [ht] at hk
    generalize tasks k = o at hk ⊢
    cases hk with
    | some hle => exact ⟨_, rfl, hle⟩
  have hold : ∀ {k task'}, tasks k = some task' → ∃ task, s.tasks k = some task ∧ TaskLe task task' := by
    intro k task' ht
    have hk := hle k
    rw [ht] at hk
    generalize s.tasks k = o at hk ⊢
    cases hk with
    | some hle => exact ⟨_, rfl, hle⟩
  refine ⟨h.fault, ?_, hthreads, fun k task ht => ?_, fun k task ht => ?_, h.alive, h.holder, fun u => ?_⟩
  · have hnone : reservedSlot { s with taskmap, tasks } = none := reservedSlot_of_none hmutex
    rw [hnone]
    exact htable
  · obtain ⟨task', ht', -⟩ := hold ht
    exact h.count k task' ht'
  · obtain ⟨task', ht', hle'⟩ := hold ht
    rw [hle'.spawn]
    exact h.data k task' ht'
  · have hok := h.pcs u
    show PcOk _ u (s.pc u)
    cases hpc : s.pc u with
    | idle => trivial
    | attr sp | lock sp | delete id pid =>
      rw [hpc] at hok
      exact hok
    | create sp slot before =>
      rw [hpc] at hok
      rw [hok.2.1] at hmutex
      cases hmutex
    | leaving =>
      rw [hpc] at hok
      obtain ⟨k, task, hk, ht, hended⟩ := hok
      obtain ⟨task', ht', hle'⟩ := hnew ht
      exact ⟨k, task', hk, ht', hle'.ended hended⟩
    | joining id pid seen =>
      rw [hpc] at hok
      obtain ⟨k, task, hk, ht, hslot, hpid, hjoinable⟩ := hok
      obtain ⟨task', ht', hle'⟩ := hnew ht
      exact ⟨k, task', hk, ht', hle'.slot.trans hslot, hle'.pid.trans hpid, hle'.joinable.trans hjoinable⟩
    | release id pid seen =>
      rw [hpc] at hok
      obtain ⟨k, task, hk, ht, hslot, hpid, hended⟩ := hok
      obtain ⟨task', ht', hle'⟩ := hnew ht
      exact ⟨k, task', hk, ht', hle'.slot.trans hslot, hle'.pid.trans hpid, hle'.ended hended⟩

omit [DecidableEq T] in
theorem rel_update (ht : s.tasks k = some task) (hle : TaskLe task task') (k' : Nat) :
    Option.Rel TaskLe (s.tasks k') (update s.tasks k (some task') k') := by
  by_cases hk : k' = k
  · subst hk
    rw [update_self, ht]
    exact .some hle
  · rw [update_of_ne hk]
    cases s.tasks k' with
    | none => exact .none
    | some task => exact .some ⟨rfl, rfl, rfl, rfl, id⟩

end Changes

end Gpmx.Builtin
