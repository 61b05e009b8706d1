import Gpmx.Builtin.TaskRuns

/-!
# The table of built-in tasks, step by step

One lemma for each section of `task_mutex`, and the runs.
-/

namespace Gpmx.Builtin

open Infra Function

variable {T : Type} [DecidableEq T]

section Steps

variable {s s' : State T} {t u pid : T} {pc : Pc T} {sp : Spawn} {slot id i : Nat} {r : Option Int}
  {before : Nat → TaskEntry T} {k : Nat} {task : Task T} {seen : Option Nat}

omit [DecidableEq T] in
theorem PcOk.transfer (hok : PcOk s u pc) (hcreate : ∀ sp slot before, pc ≠ .create sp slot before)
    (htasks : ∀ k task, s.tasks k = some task → s'.tasks k = some task)
    (htask : pc = .leaving → s'.taskOf u = s.taskOf u) : PcOk s' u pc := by
  cases pc with
  | idle | attr sp | lock sp | delete id pid => exact hok
  | create sp slot before => exact absurd rfl (hcreate sp slot before)
  | leaving =>
    obtain ⟨k, task, hk, ht, hended⟩ := hok
    exact ⟨k, task, (htask rfl).trans hk, htasks k task ht, hended⟩
  | joining id pid seen | release id pid seen =>
    obtain ⟨k, task, hk, ht, hrest⟩ := hok
    exact ⟨k, task, hk, htasks k task ht, hrest⟩

omit [DecidableEq T] in
theorem Sound.not_create (h : Sound s) (hu : s.mutex ≠ some u) (sp : Spawn) (slot : Nat)
    (before : Nat → TaskEntry T) : s.pc u ≠ .create sp slot before := by
  intro hpc
  have hok := h.pcs u
  rw [hpc] at hok
  exact hu hok.2.1

omit [DecidableEq T] in
theorem Sound.free (h : Sound s) (block : Nat) : Sound (s.free block) :=
  ⟨h.fault, h.table, h.threads, h.count, h.data, h.alive, h.holder, h.pcs⟩

omit [DecidableEq T] in
theorem firstUnused_spec {taskmap : Nat → TaskEntry T} (hi : firstUnused taskmap = some i) :
    i < CONFIG_BUILDAPP_MAX_TASKS ∧ (taskmap i).isused = false := by
  have hunused := List.find?_some hi
  exact ⟨List.mem_range.mp (List.mem_of_find?_eq_some hi), by simpa using hunused⟩

/-- One entry is set by a thread that takes the mutex or gives it back. -/
theorem Sound.entered {e : TaskEntry T} {m : Option T} (h : Sound s) (hothers : ∀ u, u ≠ t → s.mutex ≠ some u)
    (hs' : ((s.setEntry i e).setMutex m).goto t pc = s')
    (htable : TableOk (update s.taskmap i e) (reservedSlot s') s.tasks s.owner)
    (hrun : pc ≠ .idle → s.running t = true)
    (hholder : ∀ u, m = some u → u = t ∧ ∃ sp slot before, pc = .create sp slot before)
    (hok : PcOk s' t pc) : Sound s' := by
  have hpcs : ∀ u, s'.pc u = if u = t then pc else s.pc u := by
    rw [← hs']
    exact fun u => update_apply ..
  subst hs'
  refine ⟨h.fault, htable, h.threads, h.count, h.data, fun u hu => ?_, fun u hu => ?_, fun u => ?_⟩
  · rw [hpcs] at hu
    split at hu
    · rename_i hut
      rw [hut]
      exact hrun hu
    · exact h.alive u hu
  · obtain ⟨rfl, hpc⟩ := hholder u hu
    rw [hpcs, if_pos rfl]
    exact hpc
  · rw [hpcs]
    split
    · rename_i hut
      rw [hut]
      exact hok
    · rename_i hut
      exact (h.pcs u).transfer (h.not_create (hothers u hut)) (fun _ _ => id) fun _ => rfl

theorem Sound.reserve (h : Sound s) (hmutex : s.mutex = none) (hpc : s.pc t = .lock sp)
    (hi : firstUnused s.taskmap = some i) :
    Sound (((s.setEntry i { s.taskmap i with
      name := sp.req.name.1.take 15, isused := true, joinable := sp.req.joinable }).setMutex
        (some t)).goto t (.create sp i s.taskmap)) := by
  obtain ⟨hbound, hunused⟩ := firstUnused_spec hi
  have hok := h.pcs t
  rw [hpc] at hok
  have htable := h.table
  rw [reservedSlot_of_none hmutex] at htable
  refine h.entered (by rw [hmutex]; nofun) rfl ?_ (fun _ => h.alive t (by rw [hpc]; nofun)) ?_ ?_
  · have hreserved : reservedSlot (((s.setEntry i { s.taskmap i with
        name := sp.req.name.1.take 15, isused := true, joinable := sp.req.joinable }).setMutex
          (some t)).goto t (.create sp i s.taskmap)) = some i := by
      simp [reservedSlot, State.setMutex, State.goto]
    rw [hreserved]
    exact htable.reserve hunused
  · rintro u hu
    exact ⟨(Option.some.inj hu).symm, _, _, _, rfl⟩
  · refine ⟨hok, rfl, hbound, hunused, ?_, ?_, fun j hj => update_of_ne hj ..⟩
    · show (update s.taskmap i _ i).isused = true
      rw [update_self]
    · show (update s.taskmap i _ i).joinable = sp.req.joinable
      rw [update_self]

theorem Sound.spawned (h : Sound s) (hpc : s.pc t = .create sp slot before) (hfresh : s.threads pid = none) :
    Sound (spawned s t sp slot pid) := by
  have hok := h.pcs t
  rw [hpc] at hok
  obtain ⟨hdata, hmutex, hbound, -, hused, hjoinable, -⟩ := hok
  have hcount : s.tasks s.count = none := by
    cases ht : s.tasks s.count with
    | none => rfl
    | some task => exact absurd (h.count _ _ ht) (Nat.lt_irrefl _)
  have hreserved : reservedSlot s = some slot := by
    unfold reservedSlot
    rw [hmutex, Option.bind_some, hpc]
  have htable := h.table
  rw [hreserved] at htable
  have hidle : s.pc pid = .idle := by
    by_contra hne
    have hrun := h.alive pid hne
    unfold State.running at hrun
    rw [hfresh] at hrun
    cases hrun
  have hpcs : ∀ u, (Builtin.spawned s t sp slot pid).pc u = if u = t then .idle else s.pc u :=
    fun u => update_apply ..
  have hthreads : ∀ u, u ≠ pid → (Builtin.spawned s t sp slot pid).threads u = s.threads u :=
    fun u hu => update_of_ne hu ..
  have htasks : ∀ k task, s.tasks k = some task → (Builtin.spawned s t sp slot pid).tasks k = some task := by
    intro k task ht
    refine (update_of_ne ?_ ..).trans ht
    rintro rfl
    have ht' : s.tasks s.count = some task := ht
    rw [hcount] at ht'
    cases ht'
  have hall : ∀ {k task}, (Builtin.spawned s t sp slot pid).tasks k = some task →
      (k = s.count ∧ task.spawn = sp) ∨ s.tasks k = some task := by
    intro k task ht
    have ht' : update s.tasks s.count _ k = some task := ht
    rw [update_apply] at ht'
    split at ht'
    · cases ht'
      exact .inl ⟨‹_›, rfl⟩
    · exact .inr ht'
  refine ⟨h.fault, ?_, h.threads.spawned hcount hfresh rfl, fun k task ht => ?_, fun k task ht => ?_,
    fun u hu => ?_, nofun, fun u => ?_⟩
  · have hnone : reservedSlot (Builtin.spawned s t sp slot pid) = none := reservedSlot_of_none rfl
    rw [hnone]
    exact htable.spawned hcount hbound ⟨hused, rfl, hjoinable⟩ ⟨rfl, rfl, rfl⟩
  · show k < s.count + 1
    rcases hall ht with ⟨rfl, -⟩ | ht'
    · exact Nat.lt_succ_self _
    · exact Nat.lt_succ_of_lt (h.count k task ht')
  · rcases hall ht with ⟨-, hsp⟩ | ht'
    · rw [hsp]
      exact hdata
    · exact h.data k task ht'
  · rw [hpcs] at hu
    split at hu
    · exact absurd rfl hu
    · have hup : u ≠ pid := by
        rintro rfl
        exact hu hidle
      unfold State.running
      rw [hthreads u hup]
      exact h.alive u hu
  · rw [hpcs]
    split
    · trivial
    · rename_i hut
      refine (h.pcs u).transfer (h.not_create ?_) htasks fun hleaving => ?_
      · rw [hmutex]
        exact fun htu => hut (Option.some.inj htu).symm
      · have hup : u ≠ pid := by
          rintro rfl
          rw [hidle] at hleaving
          cases hleaving
        unfold State.taskOf
        rw [hthreads u hup]

theorem Sound.giveUp (h : Sound s) (hpc : s.pc t = .create sp slot before) :
    Sound ((((s.setEntry slot { s.taskmap slot with isused := false }).setMutex none).free sp.block).goto t
      .idle) := by
  have hok := h.pcs t
  rw [hpc] at hok
  obtain ⟨-, hmutex, -⟩ := hok
  have hreserved : reservedSlot s = some slot := by
    unfold reservedSlot
    rw [hmutex, Option.bind_some, hpc]
  have htable := h.table
  rw [hreserved] at htable
  refine (h.free sp.block).entered ?_ rfl ?_ (fun hne => absurd rfl hne) nofun trivial
  · intro u hu
    show s.mutex ≠ some u
    rw [hmutex]
    exact fun htu => hu (Option.some.inj htu).symm
  · rw [reservedSlot_of_none rfl]
    exact htable.giveUp rfl

omit [DecidableEq T] in
theorem Sound.task_of (h : Sound s) (hk : s.taskOf t = some k) :
    ∃ thr task, s.threads t = some thr ∧ thr.task = some k ∧ s.tasks k = some task ∧ task.pid = t := by
  obtain ⟨thr, hthr, htask⟩ := Option.bind_eq_some_iff.mp hk
  obtain ⟨task, ht, hpid⟩ := h.threads.task t thr k hthr htask
  exact ⟨thr, task, hthr, htask, ht, hpid⟩

omit [DecidableEq T] in
theorem Sound.entry (h : Sound s) (hmutex : s.mutex = none) (hused : (s.taskmap i).isused = true) :
    ∃ k task, s.owner i = some k ∧ s.tasks k = some task ∧ Live task ∧ task.slot = i ∧
      (s.taskmap i).pid = task.pid ∧ (s.taskmap i).joinable = task.joinable := by
  have htable := h.table
  rw [reservedSlot_of_none hmutex] at htable
  obtain ⟨k, task, howner, ht, hlive⟩ := (htable.used i nofun).mp hused
  obtain ⟨task', ht', hslot⟩ := htable.slot i k howner
  rw [ht] at ht'
  cases ht'
  have howned := (htable.owned k task ht hlive).2
  rw [hslot] at howned
  exact ⟨k, task, howner, ht, hlive, hslot, howned⟩

theorem exitEntries_eq (s : State T) (t : T) :
    exitEntries s t = { s with taskmap := (exitEntries s t).taskmap } := by
  unfold exitEntries
  split
  · split <;> rfl
  · rfl

theorem Sound.exit (h : Sound s) (hmutex : s.mutex = none) (hk : s.taskOf t = some k)
    (hallowed : ∀ task, s.tasks k = some task → Live task → task.joinable = false →
      firstOf s.taskmap t = some task.slot) (hrun : s.running t = true) :
    Sound (((exitEntries s t).setTask k fun task => { task with ended := true }).goto t .leaving) := by
  obtain ⟨thr, task, hthr, hthrTask, ht, hpid⟩ := h.task_of hk
  have htable := h.table
  rw [reservedSlot_of_none hmutex] at htable
  have hstate : (exitEntries s t).setTask k (fun task => { task with ended := true }) =
      { s with
        taskmap := (exitEntries s t).taskmap
        tasks := update s.tasks k (some { task with ended := true }) } := by
    rw [exitEntries_eq]
    unfold State.setTask
    rw [ht]
    rfl
  have hle : TaskLe task { task with ended := true } := ⟨rfl, rfl, rfl, rfl, fun _ => rfl⟩
  have hnext : TableOk (exitEntries s t).taskmap none
      (update s.tasks k (some { task with ended := true })) s.owner := by
    by_cases hgives : Live task ∧ task.joinable = false
    · obtain ⟨hlive, hjoinable⟩ := hgives
      have howned := htable.owned k task ht hlive
      have hfound := hallowed task ht hlive hjoinable
      have hmap : (exitEntries s t).taskmap = update s.taskmap task.slot
          { s.taskmap task.slot with isused := false, name := [] } := by
        unfold exitEntries
        rw [hfound]
        dsimp only
        rw [howned.2.2, hjoinable]
        rfl
      rw [hmap]
      refine htable.finish ht ⟨rfl, rfl, rfl⟩ ?_ (fun _ => rfl) (fun j hj => ?_) fun _ => ?_
      · rintro (hl | hl)
        · cases hl
        · rw [hl.1] at hjoinable
          cases hjoinable
      · refine update_of_ne ?_ ..
        rcases hj with hj | hj
        · exact hj
        · rintro rfl
          exact hj howned.1
      · rw [update_self]
    · refine TableOk.setTask ?_ ht ⟨rfl, rfl, rfl⟩ ?_ fun _ => rfl
      · refine htable.congr fun j => ?_
        -- an entry with this identifier that would be given up is not in use
        unfold exitEntries
        split
        · rename_i found hfound
          split
          · exact ⟨rfl, fun _ => rfl⟩
          · rename_i hjoinable
            have hfoundPid : (s.taskmap found).pid = t := by simpa using List.find?_some hfound
            have hunused : (s.taskmap found).isused = false := by
              rw [Bool.eq_false_iff]
              intro hused
              obtain ⟨k', task', -, ht', hlive, -, hpid', hjoin'⟩ := h.entry hmutex hused
              rw [Bool.not_eq_true, hjoin'] at hjoinable
              have hrunning : task'.ended = false := by
                rcases hlive with hl | hl
                · exact hl
                · rw [hl.1] at hjoinable
                  cases hjoinable
              obtain ⟨thr', hthr', hthrTask', -⟩ := h.threads.running k' task' ht' hrunning
              rw [← hpid', hfoundPid, hthr] at hthr'
              cases hthr'
              rw [hthrTask] at hthrTask'
              cases hthrTask'
              rw [ht] at ht'
              cases ht'
              exact hgives ⟨hlive, hjoinable⟩
            show (update s.taskmap found _ j).isused = _ ∧ (_ → update s.taskmap found _ j = _)
            by_cases hj : j = found
            · rw [hj, update_self, hunused]
              exact ⟨rfl, nofun⟩
            · rw [update_of_ne hj]
              exact ⟨rfl, fun _ => rfl⟩
        · exact ⟨rfl, fun _ => rfl⟩
      · constructor
        · rintro (hl | hl)
          · cases hl
          · exact .inr hl
        · intro hlive
          refine .inr ?_
          rcases hlive with hl | hl
          · constructor
            · cases hj : task.joinable with
              | true => rfl
              | false => exact absurd ⟨.inl hl, hj⟩ hgives
            · cases hj : task.joined with
              | false => rfl
              | true =>
                rw [htable.joined k task ht hj] at hl
                cases hl
          · exact hl
  rw [hstate]
  have hsound := h.setTable hmutex hnext (h.threads.setTask ht ⟨rfl, fun _ => rfl⟩) (rel_update ht hle)
  refine hsound.goto (by rw [hmutex]; nofun) (fun _ => hrun) ⟨k, _, hk, update_self .., rfl⟩

omit [DecidableEq T] in
theorem Sound.deleted (h : Sound s) (hmutex : s.mutex = none)
    (howner : s.owner id = some k) (ht : s.tasks k = some task) :
    Sound ((s.setEntry id { s.taskmap id with name := [], isused := false }).setTask k fun task =>
      { task with ended := true, joined := true }) := by
  have htable := h.table
  rw [reservedSlot_of_none hmutex] at htable
  have hslot : task.slot = id := by
    obtain ⟨task', ht', hslot⟩ := htable.slot id k howner
    rw [ht] at ht'
    cases ht'
    exact hslot
  have hstate : (s.setEntry id { s.taskmap id with name := [], isused := false }).setTask k (fun task =>
      { task with ended := true, joined := true }) =
      { s with
        taskmap := update s.taskmap id { s.taskmap id with name := [], isused := false }
        tasks := update s.tasks k (some { task with ended := true, joined := true }) } := by
    unfold State.setTask State.setEntry
    rw [ht]
    rfl
  rw [hstate]
  refine h.setTable hmutex ?_ (h.threads.setTask ht ⟨rfl, fun _ => rfl⟩)
    (rel_update ht ⟨rfl, rfl, rfl, rfl, fun _ => rfl⟩)
  refine htable.finish ht ⟨rfl, rfl, rfl⟩ ?_ (fun _ => rfl) (fun j hj => ?_) fun _ => ?_
  · rintro (hl | hl)
    · cases hl
    · cases hl.2
  · refine update_of_ne ?_ ..
    rintro rfl
    rcases hj with hj | hj
    · exact hj hslot.symm
    · exact hj howner
  · rw [hslot, update_self]

theorem Sound.remove {rv : Int} (h : Sound s) (hmutex : s.mutex = none) (hk : s.taskOf pid = some k)
    (howner : s.owner id = some k) (hrv : t = pid ∨ rv = 0) (hrun : s.running t = true) :
    Sound (remove s t id pid rv).1 := by
  obtain ⟨thr, task, hthr, hthrTask, ht, hpid⟩ := h.task_of hk
  have hsound := h.deleted hmutex howner ht
  unfold Builtin.remove
  have hk' : (s.setEntry id { s.taskmap id with name := [], isused := false }).taskOf pid = some k := hk
  dsimp only
  rw [hk']
  dsimp only
  generalize hs' : (s.setEntry id { s.taskmap id with name := [], isused := false }).setTask k (fun task =>
    { task with ended := true, joined := true }) = s' at hsound ⊢
  have htask : ∃ task', s'.tasks k = some task' ∧ task'.ended = true := by
    rw [← hs']
    unfold State.setTask State.setEntry
    rw [ht]
    exact ⟨_, update_self .., rfl⟩
  have hmutex' : s'.mutex = none := by
    rw [← hs']
    exact hmutex
  have hthreads : s'.threads = s.threads := by
    rw [← hs']
    rfl
  have hpcs : s'.pc = s.pc := by
    rw [← hs']
    rfl
  have hfree : s'.mutex ≠ some t := by
    rw [hmutex']
    nofun
  obtain ⟨task', ht', hended⟩ := htask
  split
  · rename_i htp
    subst htp
    refine hsound.goto hfree (fun _ => ?_) ⟨k, task', ?_, ht', hended⟩
    · unfold State.running
      rw [hthreads]
      exact hrun
    · unfold State.taskOf
      rw [hthreads]
      exact hk
  · rename_i htp
    rw [if_pos (hrv.resolve_left htp)]
    have hthr' : s'.threads pid = some thr := by
      rw [hthreads]
      exact hthr
    have hcanceled : Sound (s'.setThread pid ((s.threads pid).map fun thr => { thr with canceled := true })) := by
      rw [hthr]
      refine hsound.setThread (hsound.threads.setThread hthr' rfl fun _ k₁ task₁ hk₁ ht₁ => ?_) fun hpc => ⟨?_, ?_⟩
      · rw [hthrTask] at hk₁
        cases hk₁
        rw [ht'] at ht₁
        cases ht₁
        exact hended
      · have halive := hsound.alive pid hpc
        unfold State.running at halive
        rw [hthr'] at halive
        exact halive
      · unfold State.taskOf
        rw [hthr']
        rfl
    exact hcanceled.goto hfree (fun hne => absurd rfl hne) trivial

theorem releaseEntry_eq (s : State T) (id : Nat) (pid : T) :
    releaseEntry s id pid = { s with taskmap := (releaseEntry s id pid).taskmap } := by
  unfold releaseEntry
  split <;> rfl

theorem Sound.release (h : Sound s) (hmutex : s.mutex = none) (hpc : s.pc t = .release id pid seen)
    (hallowed : (s.taskmap id).isused = true → (s.taskmap id).pid = pid → s.owner id = seen) :
    Sound (((releaseEntry s id pid).markJoined seen).goto t .idle) := by
  have hok := h.pcs t
  rw [hpc] at hok
  obtain ⟨k, task, rfl, ht, hslot, hpid, hended⟩ := hok
  have htable := h.table
  rw [reservedSlot_of_none hmutex] at htable
  have hstate : (releaseEntry s id pid).markJoined (some k) =
      { s with
        taskmap := (releaseEntry s id pid).taskmap
        tasks := update s.tasks k (some { task with joined := true }) } := by
    rw [releaseEntry_eq]
    unfold State.markJoined State.setTask
    dsimp only
    rw [ht]
    rfl
  have hnotLive : ¬ Live { task with joined := true } := by
    rintro (hl | hl)
    · rw [hended] at hl
      cases hl
    · cases hl.2
  have hnext : TableOk (releaseEntry s id pid).taskmap none
      (update s.tasks k (some { task with joined := true })) s.owner := by
    refine htable.finish ht ⟨rfl, rfl, rfl⟩ hnotLive (fun _ => hended) (fun j hj => ?_) fun howner => ?_
    · unfold releaseEntry
      split
      · rename_i hmatch
        refine update_of_ne ?_ ..
        rintro rfl
        rcases hj with hj | hj
        · exact hj hslot.symm
        · exact hj (hallowed hmatch.1 hmatch.2)
      · rfl
    · unfold releaseEntry
      rw [hslot] at howner ⊢
      split
      · show (update s.taskmap id _ id).isused = false
        rw [update_self]
      · rename_i hmatch
        rw [Bool.eq_false_iff]
        intro hused
        obtain ⟨k', task', howner', ht', -, -, hpid', -⟩ := h.entry hmutex hused
        rw [howner] at howner'
        cases howner'
        rw [ht] at ht'
        cases ht'
        exact hmatch ⟨hused, hpid'.trans hpid⟩
  rw [hstate]
  have hsound := h.setTable hmutex hnext (h.threads.setTask ht ⟨rfl, fun he => he⟩)
    (rel_update ht ⟨rfl, rfl, rfl, rfl, fun he => he⟩)
  exact hsound.goto (by rw [hmutex]; nofun) (fun hne => absurd rfl hne) trivial

theorem Sound.joined {thr : Thread} (h : Sound s) (hpc : s.pc t = .joining id pid seen)
    (hthr : s.threads pid = some thr) (hend : thr.ended = true) :
    Sound ((s.setThread pid none).goto t (.release id pid seen)) := by
  have hrun := h.alive t (by rw [hpc]; nofun)
  have hidle : s.pc pid = .idle := by
    by_contra hne
    have halive := h.alive pid hne
    unfold State.running at halive
    rw [hthr] at halive
    have hrunning : (!thr.ended) = true := halive
    rw [hend] at hrunning
    cases hrunning
  have htp : t ≠ pid := by
    rintro rfl
    rw [hidle] at hpc
    cases hpc
  have hsound : Sound (s.setThread pid none) :=
    h.setThread (h.threads.gone hthr (.inl hend)) fun hne => absurd hidle hne
  refine hsound.goto ?_ (fun _ => ?_) ?_
  · exact h.not_holder (by rw [hpc]; nofun)
  · unfold State.running
    rw [show (s.setThread pid none).threads t = s.threads t from update_of_ne htp ..]
    exact hrun
  · have hok := h.pcs t
    rw [hpc] at hok
    obtain ⟨k, task, hseen, ht, hslot, hpid, -⟩ := hok
    refine ⟨k, task, hseen, ht, hslot, hpid, ?_⟩
    -- a task that has not ended has a thread that has not
    by_contra hne
    obtain ⟨thr', hthr', -, hrun'⟩ := h.threads.running k task ht (by simpa using hne)
    rw [hpid, hthr] at hthr'
    cases hthr'
    rw [hend] at hrun'
    cases hrun'

end Steps

end Gpmx.Builtin
