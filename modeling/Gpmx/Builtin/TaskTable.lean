import Gpmx.Builtin.TaskSteps

/-!
# What the table of built-in tasks tracks

In a run whose steps are all `Allowed` a slot is in use as long as its task is live, a spawn that fails
leaves nothing behind, and a task gets the arguments that it was spawned with.
-/

namespace Gpmx.Builtin

open Infra Function

variable {T : Type} [DecidableEq T] {s s' : State T} {a : Act T} {r : Option Int} {t p : T} {rv id : Int}

/-! ## Every step -/

section

variable (h : Sound s)
include h

theorem Sound.act_spawn {req : Request} {allocated : Bool} (hrun : s.running t = true)
    (hs : act s (.spawn t req allocated) = some (s', r)) : Sound s' := by
  dsimp only [act] at hs
  split at hs
  · rename_i hpc
    split at hs
    · split at hs
      · rename_i taskdata hdata
        cases hs
        have hblocks : Sound { s with blocks := s.blocks + 1 } :=
          ⟨h.fault, h.table, h.threads, h.count, h.data, h.alive, h.holder, h.pcs⟩
        exact hblocks.goto (h.not_holder (by rw [hpc]; nofun)) (fun _ => hrun) hdata
      · rename_i hnone
        obtain ⟨data, hdata, -⟩ := buildPthdata_vector req.name req.argv
        rw [hnone] at hdata
        cases hdata
    · cases hs
      exact h
  · cases hs

theorem Sound.act_setAttr (hrun : s.running t = true)
    (hs : act s (.setAttr t rv) = some (s', r)) : Sound s' := by
  dsimp only [act] at hs
  split at hs
  · rename_i sp hpc
    have hfree : s.mutex ≠ some t := h.not_holder (by rw [hpc]; nofun)
    split at hs
    · cases hs
      exact (h.free _).goto hfree (fun hne => absurd rfl hne) trivial
    · cases hs
      have hok := h.pcs t
      rw [hpc] at hok
      exact h.goto hfree (fun _ => hrun) hok
  · cases hs

theorem Sound.act_reserve (hs : act s (.reserve t) = some (s', r)) : Sound s' := by
  dsimp only [act] at hs
  split at hs
  · rename_i sp hpc hmutex
    split at hs
    · rename_i i hi
      cases hs
      exact h.reserve hmutex hpc hi
    · cases hs
      exact (h.free _).goto (show s.mutex ≠ some t by rw [hmutex]; nofun) (fun hne => absurd rfl hne) trivial
  · cases hs

theorem Sound.act_create {first second : Created T} (hallowed : ∀ rv, first = .failed rv → rv = EPERM)
    (hs : act s (.create t first second) = some (s', r)) : Sound s' := by
  dsimp only [act] at hs
  split at hs
  · rename_i sp slot before hpc
    unfold create at hs
    split at hs
    · split at hs
      · rename_i hfresh
        cases hs
        exact h.spawned hpc hfresh
      · cases hs
    · rename_i rv
      have hperm := hallowed rv rfl
      subst hperm
      rw [if_neg (by decide), if_pos rfl] at hs
      split at hs
      · split at hs
        · rename_i hfresh
          cases hs
          exact h.spawned hpc hfresh
        · cases hs
      · split at hs
        · cases hs
        · cases hs
          exact h.giveUp hpc
  · cases hs

theorem Sound.act_exit (hrun : s.running t = true) (hallowed : Allowed s (.exit t))
    (hs : act s (.exit t) = some (s', r)) : Sound s' := by
  dsimp only [act] at hs
  split at hs
  · rename_i k hpc hmutex hk
    cases hs
    obtain ⟨thr, task, -, -, ht, -⟩ := h.task_of hk
    rw [ht, Option.elim_some]
    exact (h.free _).exit hmutex hk (fun task ht => hallowed k task hk ht) hrun
  · cases hs

theorem Sound.act_threadExit (hs : act s (.threadExit t) = some (s', r)) : Sound s' := by
  dsimp only [act] at hs
  split at hs
  · rename_i hpc
    cases hs
    have hok := h.pcs t
    rw [hpc] at hok
    obtain ⟨k, task, hk, ht, hended⟩ := hok
    obtain ⟨thr, -, hthr, hthrTask, -, -⟩ := h.task_of hk
    have hidle : Sound (s.goto t .idle) :=
      h.goto (h.not_holder (by rw [hpc]; nofun)) (fun hne => absurd rfl hne) trivial
    rw [hthr]
    refine hidle.setThread (hidle.threads.setThread hthr rfl fun _ k₁ task₁ hk₁ ht₁ => ?_) fun hne => ?_
    · rw [hthrTask] at hk₁
      cases hk₁
      have ht₂ : s.tasks k = some task₁ := ht₁
      rw [ht] at ht₂
      cases ht₂
      exact hended
    · exact absurd (update_self ..) hne
  · cases hs

theorem Sound.act_delete (hrun : s.running t = true) (hid : 0 ≤ id)
    (hs : act s (.delete t id) = some (s', r)) : Sound s' := by
  dsimp only [act] at hs
  split at hs
  · rename_i hpc
    rw [if_neg (Int.not_lt.mpr hid)] at hs
    split at hs
    · cases hs
      exact h.goto (h.not_holder (by rw [hpc]; nofun)) (fun _ => hrun) trivial
    · cases hs
      exact h
  · cases hs

theorem Sound.act_remove (hrun : s.running t = true) (hallowed : Allowed s (.remove t rv))
    (hs : act s (.remove t rv) = some (s', r)) : Sound s' := by
  dsimp only [act] at hs
  split at hs
  · rename_i id pid hpc hmutex
    obtain ⟨-, ⟨k, howner, hk⟩, hrv⟩ := hallowed id pid hpc
    have hs' : (Builtin.remove s t id pid rv).1 = s' := congrArg Prod.fst (Option.some.inj hs)
    rw [← hs']
    exact h.remove hmutex hk howner hrv hrun
  · cases hs

theorem Sound.act_join (hrun : s.running t = true) (hid : 0 ≤ id)
    (hs : act s (.join t id) = some (s', r)) : Sound s' := by
  dsimp only [act] at hs
  split at hs
  · rename_i hpc hmutex
    rw [if_neg (Int.not_lt.mpr hid)] at hs
    split at hs
    · cases hs
      exact h
    · rename_i hfound
      split at hs
      · cases hs
        exact h
      · rename_i hjoinable
        cases hs
        have hused : (s.taskmap id.toNat).isused = true := by
          simpa using fun hunused => hfound (.inr hunused)
        obtain ⟨k, task, howner, ht, -, hslot, hpid, hjoin⟩ := h.entry hmutex hused
        refine h.goto (by rw [hmutex]; nofun) (fun _ => hrun) ⟨k, task, howner, ht, hslot, hpid.symm, ?_⟩
        rw [← hjoin]
        simpa using hjoinable
  · cases hs

theorem Sound.act_joined (hs : act s (.joined t rv) = some (s', r)) : Sound s' := by
  dsimp only [act] at hs
  split at hs
  · rename_i id pid seen hpc
    split at hs
    · split at hs
      · rename_i thr hthr
        split at hs
        · rename_i hend
          cases hs
          exact h.joined hpc hthr hend
        · cases hs
      · cases hs
    · cases hs
      exact h.goto (h.not_holder (by rw [hpc]; nofun)) (fun hne => absurd rfl hne) trivial
  · cases hs

theorem Sound.act_release (hallowed : Allowed s (.release t))
    (hs : act s (.release t) = some (s', r)) : Sound s' := by
  dsimp only [act] at hs
  split at hs
  · rename_i id pid seen hpc hmutex
    cases hs
    exact h.release hmutex hpc (hallowed id pid seen hpc)
  · cases hs

theorem Sound.act_cancel (hs : act s (.cancel t) = some (s', r)) : Sound s' := by
  dsimp only [act] at hs
  split at hs
  · rename_i thr hthr
    split at hs
    · rename_i hcancel
      cases hs
      have hidle : Sound (s.goto t .idle) := h.goto hcancel.2 (fun hne => absurd rfl hne) trivial
      refine hidle.setThread (hidle.threads.setThread hthr rfl fun _ k task hk ht => ?_) fun hne => ?_
      · exact h.threads.ended t thr k task hthr hk ht (.inr hcancel.1)
      · exact absurd (update_self ..) hne
    · cases hs
  · cases hs

theorem Sound.act_other (hs : act s (.other p) = some (s', r)) : Sound s' := by
  dsimp only [act] at hs
  split at hs
  · rename_i hnone
    cases hs
    refine h.setThread (h.threads.other hnone) fun hne => ?_
    have halive := h.alive p hne
    unfold State.running at halive
    rw [hnone] at halive
    cases halive
  · cases hs

theorem Sound.act_gone (hs : act s (.gone p) = some (s', r)) : Sound s' := by
  dsimp only [act] at hs
  split at hs
  · rename_i thr hthr hpc
    split at hs
    · rename_i htask
      cases hs
      exact h.setThread (h.threads.gone hthr (.inr htask)) fun hne => absurd hpc hne
    · cases hs
  · cases hs

end

theorem Sound.act (h : Sound s) (hrun : a.thread.all s.running = true) (hallowed : Allowed s a)
    (hs : act s a = some (s', r)) : Sound s' := by
  cases a with
  | spawn t req allocated => exact h.act_spawn hrun hs
  | setAttr t rv => exact h.act_setAttr hrun hs
  | reserve t => exact h.act_reserve hs
  | create t first second => exact h.act_create hallowed hs
  | exit t => exact h.act_exit hrun hallowed hs
  | threadExit t => exact h.act_threadExit hs
  | delete t id => exact h.act_delete hrun hallowed hs
  | remove t rv => exact h.act_remove hrun hallowed hs
  | join t id => exact h.act_join hrun hallowed hs
  | joined t rv => exact h.act_joined hs
  | release t => exact h.act_release hallowed hs
  | cancel t => exact h.act_cancel hs
  | other p => exact h.act_other hs
  | gone p => exact h.act_gone hs

omit [DecidableEq T] in
theorem sound_start (zero : T) : Sound (start zero) where
  fault := rfl
  table :=
    { used := fun _ _ => iff_of_false nofun fun ⟨_, _, howner, _⟩ => by cases howner
      reserved := nofun
      owned := nofun
      slot := nofun
      bound := nofun
      joined := nofun }
  threads := ⟨nofun, nofun, nofun⟩
  count := nofun
  data := nofun
  alive _ hne := absurd rfl hne
  holder := nofun
  pcs _ := trivial

theorem sound_reaches {zero : T} (h : Reaches step Allowed (start zero) s) : Sound s := by
  refine h.invariant (P := Sound) (sound_start zero) fun s a s' hsound hallowed hs => ?_
  unfold step at hs
  split at hs
  · rename_i hrun
    obtain ⟨⟨s₁, r⟩, hact, heq⟩ := Option.map_eq_some_iff.mp hs
    cases heq
    exact hsound.act hrun hallowed hact
  · cases hs

/-! ## What is tracked -/

/--
A slot is in use if and only if it belongs to a task that has not ended, or can be joined and has not
been; a task that has not ended has its thread.
-/
structure Tracks (s : State T) : Prop where
  fault : s.fault = false
  used : ∀ i, (s.taskmap i).isused = true ↔ ∃ k task, s.tasks k = some task ∧ task.slot = i ∧ Live task
  one : ∀ k k' task task', s.tasks k = some task → s.tasks k' = some task' → Live task → Live task' →
    task.slot = task'.slot → k = k'
  entry : ∀ k task, s.tasks k = some task → Live task → (s.taskmap task.slot).pid = task.pid ∧
    (s.taskmap task.slot).joinable = task.joinable
  thread : ∀ k task, s.tasks k = some task → task.ended = false → s.running task.pid = true ∧
    s.taskOf task.pid = some k

omit [DecidableEq T] in
theorem Sound.tracks (h : Sound s) (hmutex : s.mutex = none) : Tracks s := by
  have htable := h.table
  rw [reservedSlot_of_none hmutex] at htable
  refine ⟨h.fault, fun i => ?_, fun k k' task task' ht ht' hlive hlive' hslot => ?_,
    fun k task ht hlive => (htable.owned k task ht hlive).2, fun k task ht hend => ?_⟩
  · rw [htable.used i nofun]
    constructor
    · rintro ⟨k, task, howner, ht, hlive⟩
      obtain ⟨task', ht', hslot⟩ := htable.slot i k howner
      rw [ht] at ht'
      cases ht'
      exact ⟨k, task, ht, hslot, hlive⟩
    · rintro ⟨k, task, ht, rfl, hlive⟩
      exact ⟨k, task, (htable.owned k task ht hlive).1, ht, hlive⟩
  · have howner := (htable.owned k task ht hlive).1
    rw [hslot, (htable.owned k' task' ht' hlive').1] at howner
    exact (Option.some.inj howner).symm
  · obtain ⟨thr, hthr, htask, hrun⟩ := h.threads.running k task ht hend
    unfold State.running State.taskOf
    rw [hthr]
    exact ⟨by simp [hrun], htask⟩

def SameTable (taskmap taskmap' : Nat → TaskEntry T) : Prop :=
  ∀ i, (taskmap' i).isused = (taskmap i).isused ∧ ((taskmap i).isused = true → taskmap' i = taskmap i)

/-- A step of `built_task_spawn` -/
def Act.spawns (t : T) : Act T → Prop
  | .spawn u _ _ | .setAttr u _ | .reserve u | .create u _ _ => u = t
  | _ => False

/-- The table is as it was when the mutex was taken, and what was allocated is freed. -/
def LeavesNothing (s s' : State T) (t : T) : Prop :=
  match s.pc t with
  | .create sp _ before => SameTable before s'.taskmap ∧ s'.freed = sp.block :: s.freed
  | .attr sp | .lock sp => SameTable s.taskmap s'.taskmap ∧ s'.freed = sp.block :: s.freed
  | _ => SameTable s.taskmap s'.taskmap ∧ s'.blocks = s.blocks

omit [DecidableEq T] in
theorem SameTable.refl (taskmap : Nat → TaskEntry T) : SameTable taskmap taskmap :=
  fun _ => ⟨rfl, fun _ => rfl⟩

theorem Sound.spawn_fails {e : Int} (h : Sound s) (ha : a.spawns t) (hallowed : Allowed s a)
    (hs : Builtin.act s a = some (s', some e)) (he : e < 0) : LeavesNothing s s' t := by
  unfold LeavesNothing
  unfold Builtin.act at hs
  cases a with
  | spawn u req allocated =>
    obtain rfl : u = t := ha
    dsimp only at hs
    split at hs
    · rename_i hpc
      rw [hpc]
      split at hs
      · split at hs <;> cases hs
      · cases hs
        exact ⟨.refl _, rfl⟩
    · cases hs
  | setAttr u rv =>
    obtain rfl : u = t := ha
    dsimp only at hs
    split at hs
    · rename_i sp hpc
      rw [hpc]
      split at hs
      · cases hs
        exact ⟨.refl _, rfl⟩
      · cases hs
    · cases hs
  | reserve u =>
    obtain rfl : u = t := ha
    dsimp only at hs
    split at hs
    · rename_i sp hpc hmutex
      rw [hpc]
      split at hs
      · cases hs
      · cases hs
        exact ⟨.refl _, rfl⟩
    · cases hs
  | create u first second =>
    obtain rfl : u = t := ha
    dsimp only at hs
    split at hs
    · rename_i sp slot before hpc
      have hok := h.pcs u
      rw [hpc] at hok
      obtain ⟨-, -, -, hunused, -, -, hothers⟩ := hok
      rw [hpc]
      unfold create at hs
      split at hs
      · split at hs
        · cases hs
          omega
        · cases hs
      · rename_i rv
        have hperm := hallowed rv rfl
        subst hperm
        rw [if_neg (by decide), if_pos rfl] at hs
        split at hs
        · split at hs
          · cases hs
            omega
          · cases hs
        · split at hs
          · cases hs
          · cases hs
            refine ⟨fun j => ?_, rfl⟩
            show (update s.taskmap slot _ j).isused = _ ∧ (_ → update s.taskmap slot _ j = _)
            by_cases hj : j = slot
            · rw [hj, update_self, hunused]
              exact ⟨rfl, nofun⟩
            · rw [update_of_ne hj, hothers j hj]
              exact ⟨rfl, fun _ => rfl⟩
    · cases hs
  | _ => exact ha.elim

/--
**The table of built-in tasks.** In every state of an allowed run in which nobody has the mutex the table
tracks the tasks; a step of a spawn that returns an error leaves nothing behind; and every task has got a
vector of its name, copies of the arguments it was spawned with and a null pointer.
-/
theorem tasks_tracked {zero : T} (h : Reaches step Allowed (start zero) s) :
    (s.mutex = none → Tracks s) ∧
    (∀ a t s' e, a.spawns t → Allowed s a → act s a = some (s', some e) → e < 0 → LeavesNothing s s' t) ∧
    ∀ k task, s.tasks k = some task → task.spawn.taskdata.argc = task.spawn.req.argv.length + 1 ∧
      task.spawn.taskdata.vector = (task.spawn.req.name :: task.spawn.req.argv).map (fun arg => some arg.1) ++
        [none] := by
  have hsound := sound_reaches h
  refine ⟨hsound.tracks, fun a t s' e ha hallowed hs he => hsound.spawn_fails ha hallowed hs he,
    fun k task ht => ?_⟩
  obtain ⟨data, hdata, hvector⟩ := buildPthdata_vector task.spawn.req.name task.spawn.req.argv
  rw [hsound.data k task ht] at hdata
  cases hdata
  exact hvector

/-- `a b` -/
def anyRequest (joinable : Bool) : Request :=
  { name := ⟨[0x61], by decide⟩, argv := [⟨[0x62], by decide⟩], joinable }

def spawnRun (t : Nat) (joinable : Bool) : List (Act Nat) :=
  [.spawn t (anyRequest joinable) true, .setAttr t 0, .reserve t]

def backgroundRun : List (Act Nat) :=
  .other 0 :: (spawnRun 0 false ++ [.create 0 (.ok 1) (.failed EPERM)])

theorem tasks_tracked_background : ∃ s, Reaches step Allowed (start 0) s ∧ (s.taskmap 0).isused = true ∧
    Tracks s ∧ (s.tasks 0).map (fun task => task.spawn.taskdata.vector) = some [some [0x61], some [0x62], none] := by
  have hallowed : ∀ s, ∀ a ∈ backgroundRun, Allowed s a := by
    intro s a ha
    simp only [backgroundRun, spawnRun, List.cons_append, List.nil_append, List.mem_cons, List.not_mem_nil,
      or_false] at ha
    rcases ha with rfl | rfl | rfl | rfl | rfl
    · trivial
    · trivial
    · trivial
    · trivial
    · exact fun rv hrv => by cases hrv
  have hreaches : Reaches step Allowed (start 0) _ := .of_foldlM_of_forall backgroundRun rfl hallowed
  exact ⟨_, hreaches, rfl, (tasks_tracked hreaches).1 rfl, by decide⟩

def noThread : List (Act Nat) :=
  .other 0 :: (spawnRun 0 false ++ [.create 0 (.failed 11) (.failed 11)])

def notCancelled : List (Act Nat) := backgroundRun ++ [.delete 0 0, .remove 0 EINVAL]

def reused : List (Act Nat) :=
  .other 0 :: .other 9 :: (spawnRun 0 true ++ [.create 0 (.ok 1) (.failed EPERM), .exit 1, .threadExit 1,
    .join 0 0, .joined 0 0] ++ spawnRun 9 false ++ [.create 9 (.ok 1) (.failed EPERM), .release 0, .exit 1])

omit [DecidableEq T] in
theorem not_tracks (hused : (s.taskmap 1).isused = true)
    (htasks : (s.tasks 0).map Task.slot = some 0 ∧
      (s.tasks 1).map (fun task => (task.ended, task.joinable)) = some (true, false))
    (hnone : ∀ k, s.tasks (k + 2) = none) : ¬ Tracks s := by
  intro h
  obtain ⟨k, task, ht, hslot, hlive⟩ := (h.used 1).mp hused
  match k with
  | 0 =>
    rw [ht] at htasks
    cases hslot.symm.trans (Option.some.inj htasks.1)
  | 1 =>
    rw [ht] at htasks
    obtain ⟨hended, hjoinable⟩ := Prod.ext_iff.mp (Option.some.inj htasks.2)
    rcases hlive with hl | hl
    · cases hl.symm.trans hended
    · cases hl.1.symm.trans hjoinable
  | k + 2 =>
    rw [hnone k] at ht
    cases ht

theorem tasks_lost :
    (∃ s, Reaches step Always (start 0) s ∧ s.mutex = none ∧ (s.taskmap 0).isused = true ∧ ¬ Tracks s) ∧
    (∃ s, Reaches step Always (start 0) s ∧ s.mutex = none ∧ (s.taskmap 0).isused = false ∧ ¬ Tracks s) ∧
    ∃ s, Reaches step Always (start 0) s ∧ s.mutex = none ∧ (s.taskmap 1).isused = true ∧ ¬ Tracks s := by
  refine ⟨⟨_, .of_foldlM noThread rfl, rfl, rfl, fun h => ?_⟩, ⟨_, .of_foldlM notCancelled rfl, rfl, rfl, fun h => ?_⟩,
    ⟨_, .of_foldlM reused rfl, rfl, rfl, not_tracks rfl ⟨rfl, rfl⟩ fun _ => rfl⟩⟩
  · obtain ⟨k, task, ht, -⟩ := (h.used 0).mp rfl
    cases ht
  · have hused := (h.used 0).mpr ⟨0, _, rfl, rfl, .inl rfl⟩
    cases hused

end Gpmx.Builtin
