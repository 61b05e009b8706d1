import Gpmx.Uorb.Blocking

/-!
# uORB: no wake-up is lost

`call` does not take the mutex, so a message can come between the check and the wait, and its signal finds
nobody. Otherwise the thread waits only while nothing is unread, or is about to wake.
-/

namespace Gpmx.Uorb

open Infra Option
open Blocking (call since step updated write)

variable {s s' : Blocking} {node : DeviceNode} {heap : Option (Memory UInt8)} {buffer data : Memory UInt8}
  {buflen generation : Nat}

/-! ## Generations -/

theorem copyGeneration_lt (h : node.generation < 2 ^ 32) (hg : generation < 2 ^ 32) :
    copyGeneration node generation < 2 ^ 32 := by
  unfold copyGeneration
  dsimp only
  split_ifs <;> omega

theorem copyLocked_lt (h : node.generation < 2 ^ 32) (hg : generation < 2 ^ 32) :
    (uorbDeviceNodeCopyLocked node data generation).2 < 2 ^ 32 := by
  have hlt := copyGeneration_lt h hg
  unfold uorbDeviceNodeCopyLocked
  dsimp only
  split_ifs <;> omega

theorem write_cases (heap : Option (Memory UInt8)) (node : DeviceNode) (buffer : Memory UInt8)
    (buflen : Nat) :
    ((uorbDeviceNodeWrite heap node buffer buflen).1 < 0 ∧
      (uorbDeviceNodeWrite heap node buffer buflen).2.generation = node.generation) ∨
    ((node.data <|> heap).isSome ∧ node.oSize = buflen ∧
      ¬(uorbDeviceNodeWrite heap node buffer buflen).1 < 0 ∧
      (uorbDeviceNodeWrite heap node buffer buflen).2.generation = (node.generation + 1) % 2 ^ 32) := by
  unfold uorbDeviceNodeWrite
  cases hdata : (node.data <|> heap) with
  | none => exact .inl ⟨show -ENOMEM < 0 by decide, rfl⟩
  | some data =>
    dsimp only
    split_ifs with hlen
    · exact .inl ⟨show - EIO < 0 by decide, rfl⟩
    · exact .inr ⟨rfl, by simpa using hlen, by simp, rfl⟩

structure Counted (s : Blocking) : Prop where
  generation_lt : s.node.generation < 2 ^ 32
  last_lt : s.lastGeneration < 2 ^ 32
  bound : s.registered = true → s.bound = true
  unread_lt : s.bound = true → s.unread < 2 ^ 32
  generation_eq : s.bound = true → s.node.generation = (s.lastGeneration + s.unread) % 2 ^ 32
  start_le : s.start ≤ s.now

theorem Counted.updated_iff (h : Counted s) (hb : s.bound = true) :
    s.updated = true ↔ s.node.advertised = true ∧ 0 < s.unread := by
  have hlast := h.last_lt
  have hunread := h.unread_lt hb
  have hgen := h.generation_eq hb
  unfold updated
  rw [Bool.and_eq_true, bne_iff_ne]
  refine and_congr_right fun _ => ?_
  omega

theorem since_spec (h : s.node.generation < 2 ^ 32) (hg : generation < 2 ^ 32) :
    s.since generation < 2 ^ 32 ∧
      s.node.generation = (generation + s.since generation) % 2 ^ 32 := by
  unfold since
  omega

theorem Counted.subscribe (h : Counted s) : Counted s.subscribe ∧ s.subscribe.bound = true := by
  unfold Blocking.subscribe
  by_cases hb : s.bound = true
  · rw [if_pos hb]
    exact ⟨h, hb⟩
  · rw [if_neg hb]
    have hgen := h.generation_lt
    have hlast : (if s.node.queueSize < s.node.generation then s.node.generation - s.node.queueSize
        else 0) < 2 ^ 32 := by
      split_ifs <;> omega
    obtain ⟨hlt, heq⟩ := since_spec hgen hlast
    exact ⟨⟨hgen, hlast, fun _ => rfl, fun _ => hlt, fun _ => heq, h.start_le⟩, rfl⟩

theorem Counted.copy (h : Counted s) : Counted s.copy := by
  obtain ⟨h', -⟩ := h.subscribe
  unfold Blocking.copy
  dsimp only
  split
  · next data _ _ =>
    have hlast := @copyLocked_lt _ data _ h'.generation_lt h'.last_lt
    obtain ⟨hlt, heq⟩ := since_spec h'.generation_lt hlast
    exact ⟨h'.generation_lt, hlast, h'.bound, fun _ => hlt, fun _ => heq, h'.start_le⟩
  · exact h'

/-! ## Where the thread is -/

def InTime (s : Blocking) (deadline : Option Nat) : Prop :=
  ∀ d, deadline = some d → s.start + s.timeout * 1000 ≤ d

def At (s : Blocking) : Pc → Prop
  | .idle | .registering => True
  | .checking => s.registered = true
  | .locking | .timing => s.registered = true ∧ s.unread = 0
  | .entering deadline => s.registered = true ∧ s.unread = 0 ∧ InTime s deadline
  | .waiting deadline =>
    s.registered = true ∧ (0 < s.unread → s.signalled = true) ∧ InTime s deadline
  | .rechecking => s.registered = true ∧ s.signalled = true
  | .unlocking true | .done true => 0 < s.unread
  | .unlocking false | .done false => s.signalled = false → s.start + s.timeout * 1000 ≤ s.now

structure Inv (s : Blocking) : Prop where
  counted : Counted s
  at_ : At s s.pc

theorem At.frame {pc : Pc} (h : At s pc) (hsame : s'.registered = s.registered ∧ s'.unread = s.unread ∧
    s'.signalled = s.signalled ∧ s'.start = s.start ∧ s'.timeout = s.timeout) (hnow : s.now ≤ s'.now) :
    At s' pc := by
  obtain ⟨hreg, hunread, hsignal, hstart, htimeout⟩ := hsame
  have hdeadline : ∀ d, InTime s d → InTime s' d := by
    intro d hd
    unfold InTime
    rw [hstart, htimeout]
    exact hd
  cases pc with
  | idle | registering => trivial
  | checking => exact hreg.trans h
  | locking | timing => exact ⟨hreg.trans h.1, hunread.trans h.2⟩
  | entering d => exact ⟨hreg.trans h.1, hunread.trans h.2.1, hdeadline d h.2.2⟩
  | waiting d =>
    refine ⟨hreg.trans h.1, fun hpos => ?_, hdeadline d h.2.2⟩
    rw [hunread] at hpos
    exact hsignal.trans (h.2.1 hpos)
  | rechecking => exact ⟨hreg.trans h.1, hsignal.trans h.2⟩
  | unlocking ret | done ret =>
    cases ret with
    | true => exact Nat.lt_of_lt_of_eq h hunread.symm
    | false =>
      intro hnone
      rw [hstart, htimeout]
      exact Nat.le_trans (h (hsignal.symm.trans hnone)) hnow

/-- **A message comes**: a thread that waits is signalled. -/
theorem At.publish {pc : Pc} (h : At s pc) (hpc : pc.decided = false)
    (hsame : s'.registered = s.registered ∧ s'.unread = s.unread + 1 ∧ s'.now = s.now ∧
      s'.start = s.start ∧ s'.timeout = s.timeout)
    (hsignal : s'.signalled = s.signalled ∨ s'.signalled = true)
    (hwait : s.registered = true → ∀ d, pc = .waiting d → s'.signalled = true) : At s' pc := by
  obtain ⟨hreg, hunread, hnow, hstart, htimeout⟩ := hsame
  cases pc with
  | idle | registering => trivial
  | checking => exact hreg.trans h
  | locking | timing | entering => cases hpc
  | waiting d =>
    refine ⟨hreg.trans h.1, fun _ => hwait h.1 d rfl, ?_⟩
    unfold InTime
    rw [hstart, htimeout]
    exact h.2.2
  | rechecking =>
    refine ⟨hreg.trans h.1, ?_⟩
    rcases hsignal with hs | hs
    · exact hs.trans h.2
    · exact hs
  | unlocking ret | done ret =>
    cases ret with
    | true => exact Nat.lt_of_lt_of_eq (Nat.succ_pos s.unread) hunread.symm
    | false =>
      intro hnone
      rcases hsignal with hs | hs
      · rw [hstart, htimeout, hnow]
        exact h (hs.symm.trans hnone)
      · exact nomatch hs.symm.trans hnone

theorem call_spec (s : Blocking) : s.call.node = s.node ∧ s.call.bound = s.bound ∧
    s.call.registered = s.registered ∧ s.call.lastGeneration = s.lastGeneration ∧
    s.call.pc = s.pc ∧ s.call.timeout = s.timeout ∧ s.call.now = s.now ∧ s.call.start = s.start ∧
    s.call.unread = s.unread ∧ (s.call.signalled = s.signalled ∨ s.call.signalled = true) ∧
    ∀ d, s.pc = .waiting d → s.call.signalled = true := by
  unfold call
  cases hpc : s.pc with
  | waiting d => exact ⟨rfl, rfl, rfl, rfl, rfl, rfl, rfl, rfl, rfl, .inr rfl, fun _ _ => rfl⟩
  | idle | registering | checking | locking | timing | entering | rechecking | unlocking | done =>
    exact ⟨rfl, rfl, rfl, rfl, hpc, rfl, rfl, rfl, rfl, .inl rfl, nofun⟩

theorem Counted.publish (h : Counted s) (hroom : s.unread + 1 ≠ 2 ^ 32)
    (hgen : s'.node.generation = (s.node.generation + 1) % 2 ^ 32)
    (hsame : s'.bound = s.bound ∧ s'.registered = s.registered ∧
      s'.lastGeneration = s.lastGeneration ∧ s'.now = s.now ∧ s'.start = s.start)
    (hunread : s'.unread = if s.bound then s.unread + 1 else s.unread) : Counted s' := by
  obtain ⟨hbound, hreg, hlast, hnow, hstart⟩ := hsame
  refine ⟨by omega, hlast ▸ h.last_lt, fun hr => ?_, fun hb => ?_, fun hb => ?_, ?_⟩
  · exact hbound.trans (h.bound (hreg ▸ hr))
  · have hb := hbound ▸ hb
    have hlt := h.unread_lt hb
    rw [hunread, if_pos hb]
    omega
  · have hb := hbound ▸ hb
    have heq := h.generation_eq hb
    rw [hgen, hlast, hunread, if_pos hb]
    omega
  · rw [hnow, hstart]
    exact h.start_le

/-- **The callback, once the message is in the node.** -/
theorem notify_keeps (h : Inv s) (hpc : s.pc.decided = false) (hc : Counted s')
    (hsame : s'.registered = s.registered ∧ s'.pc = s.pc ∧ s'.signalled = s.signalled ∧
      s'.now = s.now ∧ s'.start = s.start ∧ s'.timeout = s.timeout)
    (hunread : s'.unread = if s.bound then s.unread + 1 else s.unread) :
    Inv (if s'.registered then s'.call else s') := by
  obtain ⟨hreg, hpcs, hsignal, hnow, hstart, htimeout⟩ := hsame
  have hat := h.at_
  by_cases hr : s'.registered = true
  · rw [if_pos hr]
    have hb : s.bound = true := h.counted.bound (hreg ▸ hr)
    obtain ⟨cnode, cbound, creg, clast, cpc, ctimeout, cnow, cstart, cunread, csignal, cwait⟩ := call_spec s'
    refine ⟨⟨?_, ?_, ?_, ?_, ?_, ?_⟩, ?_⟩
    · exact cnode ▸ hc.generation_lt
    · exact clast ▸ hc.last_lt
    · exact fun hr => cbound.trans (hc.bound (creg ▸ hr))
    · exact fun hb => cunread ▸ hc.unread_lt (cbound ▸ hb)
    · intro hb
      rw [cnode, clast, cunread]
      exact hc.generation_eq (cbound ▸ hb)
    · rw [cstart, cnow]
      exact hc.start_le
    · rw [cpc, hpcs]
      refine hat.publish hpc ⟨creg.trans hreg, ?_, cnow.trans hnow, cstart.trans hstart,
        ctimeout.trans htimeout⟩ (hsignal ▸ csignal) fun _ d hd => cwait d (hpcs.trans hd)
      rw [cunread, hunread, if_pos hb]
  · rw [if_neg hr]
    refine ⟨hc, ?_⟩
    rw [hpcs]
    by_cases hb : s.bound = true
    · rw [if_pos hb] at hunread
      exact hat.publish hpc ⟨hreg, hunread, hnow, hstart, htimeout⟩ (.inl hsignal)
        fun hreg' => absurd (hreg.trans hreg') hr
    · rw [if_neg hb] at hunread
      exact hat.frame ⟨hreg, hunread, hsignal, hstart, htimeout⟩ (Nat.le_of_eq hnow.symm)

theorem write_keeps (h : Inv s) (ha : s.Prompt (.publish heap buffer buflen)) :
    Inv (s.write heap buffer buflen) := by
  obtain ⟨hc, hat⟩ := h
  unfold write
  rcases write_cases heap s.node buffer buflen with ⟨hneg, hgen⟩ | ⟨hmem, hlen, hpos, hgen⟩
  · rw [if_pos hneg]
    refine ⟨⟨?_, hc.last_lt, hc.bound, hc.unread_lt, fun hb => ?_, hc.start_le⟩, ?_⟩
    · rw [hgen]
      exact hc.generation_lt
    · rw [hgen]
      exact hc.generation_eq hb
    · exact hat.frame ⟨rfl, rfl, rfl, rfl, rfl⟩ (Nat.le_refl _)
  · obtain ⟨hpc, hroom⟩ := ha hmem hlen
    rw [if_neg hpos]
    exact @notify_keeps s { s with
        node := (uorbDeviceNodeWrite heap s.node buffer buflen).2
        unread := if s.bound then s.unread + 1 else s.unread } ⟨hc, hat⟩ hpc
      (hc.publish hroom hgen ⟨rfl, rfl, rfl, rfl, rfl⟩ rfl) ⟨rfl, rfl, rfl, rfl, rfl, rfl⟩ rfl

/-! ## Runs -/

theorem deadlineOf_eq {now timeout : Nat} (hnsec : now % 10 ^ 9 + timeout * 1000 < 2 ^ 32)
    (hsec : now / 10 ^ 9 + (now % 10 ^ 9 + timeout * 1000) / 10 ^ 9 < 2 ^ 32) :
    deadlineOf (now / 10 ^ 9 % 2 ^ 32) (now % 10 ^ 9) timeout = now + timeout * 1000 := by
  unfold deadlineOf
  dsimp only
  rw [Nat.mod_eq_of_lt (Nat.lt_of_le_of_lt (Nat.le_add_left _ _) hnsec), Nat.mod_eq_of_lt hnsec,
    Nat.mod_eq_of_lt (Nat.lt_of_le_of_lt (Nat.le_add_right _ _) hsec), Nat.mod_eq_of_lt hsec]
  omega

theorem Inv.move {pc : Pc} {mutex : Bool} (h : Inv s) (hat : At s pc) : Inv { s with mutex, pc } where
  counted := ⟨h.counted.generation_lt, h.counted.last_lt, h.counted.bound, h.counted.unread_lt,
    h.counted.generation_eq, h.counted.start_le⟩
  at_ := hat.frame ⟨rfl, rfl, rfl, rfl, rfl⟩ (Nat.le_refl _)

theorem step_keeps {a : Blocking.Action} (h : Inv s) (ha : s.Prompt a) (hs : s.step a = some s') :
    Inv s' := by
  have hc := h.counted
  have hat := h.at_
  cases a with
  | advertise | unadvertise =>
    cases hs
    exact ⟨⟨hc.generation_lt, hc.last_lt, hc.bound, hc.unread_lt, hc.generation_eq, hc.start_le⟩,
      hat.frame ⟨rfl, rfl, rfl, rfl, rfl⟩ (Nat.le_refl _)⟩
  | publish heap buffer buflen =>
    cases hs
    exact write_keeps h ha
  | tick n =>
    cases hs
    exact ⟨⟨hc.generation_lt, hc.last_lt, hc.bound, hc.unread_lt, hc.generation_eq,
      Nat.le_add_right_of_le hc.start_le⟩, hat.frame ⟨rfl, rfl, rfl, rfl, rfl⟩ (Nat.le_add_right _ _)⟩
  | copy =>
    have hs : s' = { s.copy with pc := .idle } := by
      cases hpc : s.pc with
      | idle | done =>
        simp only [step, hpc] at hs
        exact (some.inj hs).symm
      | _ => simp [step, hpc] at hs
    have hcopy := hc.copy
    rw [hs]
    exact ⟨⟨hcopy.generation_lt, hcopy.last_lt, hcopy.bound, hcopy.unread_lt, hcopy.generation_eq,
      hcopy.start_le⟩, trivial⟩
  | enter timeout =>
    have hs : s' = { s with
        pc := if s.registered then .checking else .registering
        timeout
        start := s.now
        signalled := false } := by
      cases hpc : s.pc with
      | idle | done =>
        simp only [step, hpc] at hs
        exact (some.inj (ite_none_right_eq_some.mp hs).2).symm
      | _ => simp [step, hpc] at hs
    rw [hs]
    refine ⟨⟨hc.generation_lt, hc.last_lt, hc.bound, hc.unread_lt, hc.generation_eq, Nat.le_refl _⟩, ?_⟩
    by_cases hr : s.registered = true
    · simp only [hr, if_true]
      rfl
    · simp only [hr]
      trivial
  | registerCallback =>
    obtain ⟨-, hs⟩ := ite_none_right_eq_some.mp hs
    cases hs
    obtain ⟨hsub, hbound⟩ := hc.subscribe
    exact ⟨⟨hsub.generation_lt, hsub.last_lt, fun _ => hbound, hsub.unread_lt, hsub.generation_eq,
      hsub.start_le⟩, rfl⟩
  | check =>
    obtain ⟨hpc, hs⟩ := ite_none_right_eq_some.mp hs
    cases hs
    have hr : s.registered = true := by
      rw [hpc] at hat
      exact hat
    have hiff := hc.updated_iff (hc.bound hr)
    by_cases hu : s.updated = true
    · rw [if_pos hu]
      exact h.move (hiff.mp hu).2
    · rw [if_neg hu]
      refine h.move ⟨hr, ?_⟩
      rcases ha with ha | ha
      · by_contra hne
        exact hu (hiff.mpr ⟨ha, Nat.pos_of_ne_zero hne⟩)
      · exact ha
  | lock =>
    obtain ⟨⟨hpc, -⟩, hs⟩ := ite_none_right_eq_some.mp hs
    cases hs
    rw [hpc] at hat
    split_ifs
    · exact h.move ⟨hat.1, hat.2, nofun⟩
    · exact h.move hat
  | gettime =>
    obtain ⟨hpc, hs⟩ := ite_none_right_eq_some.mp hs
    cases hs
    rw [hpc] at hat
    refine h.move ⟨hat.1, hat.2, ?_⟩
    rintro d ⟨⟩
    rw [deadlineOf_eq ha.1 ha.2]
    exact Nat.add_le_add_right hc.start_le _
  | wait =>
    cases hpc : s.pc with
    | entering deadline =>
      simp only [step, hpc] at hs
      cases hs
      rw [hpc] at hat
      exact h.move ⟨hat.1, fun hpos => absurd hat.2.1 (Nat.ne_of_gt hpos), hat.2.2⟩
    | _ => simp [step, hpc] at hs
  | wake =>
    cases hpc : s.pc with
    | waiting deadline =>
      simp only [step, hpc] at hs
      obtain ⟨⟨hsignal, -⟩, hs⟩ := ite_none_right_eq_some.mp hs
      cases hs
      rw [hpc] at hat
      exact h.move ⟨hat.1, hsignal⟩
    | _ => simp [step, hpc] at hs
  | spurious => exact ha.elim
  | timedOut =>
    cases hpc : s.pc with
    | waiting deadline =>
      cases deadline with
      | none => simp [step, hpc] at hs
      | some d =>
        simp only [step, hpc] at hs
        obtain ⟨⟨-, hd, -⟩, hs⟩ := ite_none_right_eq_some.mp hs
        cases hs
        rw [hpc] at hat
        exact h.move fun _ => Nat.le_trans (hat.2.2 d rfl) hd
    | _ => simp [step, hpc] at hs
  | recheck =>
    obtain ⟨hpc, hs⟩ := ite_none_right_eq_some.mp hs
    cases hs
    rw [hpc] at hat
    cases hu : s.updated with
    | true => exact h.move ((hc.updated_iff (hc.bound hat.1)).mp hu).2
    | false => exact h.move fun hnone => nomatch hat.2.symm.trans hnone
  | unlock =>
    cases hpc : s.pc with
    | unlocking ret =>
      simp only [step, hpc] at hs
      cases hs
      rw [hpc] at hat
      cases ret with
      | true | false => exact h.move hat
    | _ => simp [step, hpc] at hs

/-- **No wake-up is lost** in the runs that meet the condition. -/
theorem updatedBlocking_heard (node : DeviceNode) (now : Nat) (hnode : node.generation < 2 ^ 32)
    {s : Blocking} (h : Reaches Blocking.step Blocking.Prompt (.initial node now) s) : s.Heard := by
  have hinit : Inv (.initial node now) :=
    ⟨⟨hnode, Nat.two_pow_pos 32, nofun, nofun, nofun, Nat.zero_le _⟩, trivial⟩
  obtain ⟨-, hat⟩ := h.invariant hinit fun _ _ _ hinv ha hs => step_keeps hinv ha hs
  refine ⟨fun d hpc hpos => ?_, fun hpc => ?_, fun hpc _ => ?_⟩
  · rw [hpc] at hat
    exact hat.2.1 hpos
  · rw [hpc] at hat
    exact hat
  · rw [hpc] at hat
    exact hat

def byteTopic : DeviceNode := { uorbDeviceNodeInit ['t'] 1 1 with advertised := true }

def publishByte : Blocking.Action := .publish (some fun _ => 0) (fun _ => 7) 1

/-- The message comes while the thread waits. -/
theorem updatedBlocking_heard_message : ∃ s : Blocking, s.pc = .done true ∧ s.Heard := by
  have hrun : ([.enter 0, .registerCallback, .check, .lock, .wait, publishByte, .wake, .recheck,
      .unlock].foldlM (guarded Blocking.step Blocking.Prompt) (.initial byteTopic 0)).map (·.pc) =
        some (.done true) := by
    decide
  obtain ⟨s, hs, hpc⟩ := map_eq_some_iff.mp hrun
  exact ⟨s, hpc, updatedBlocking_heard byteTopic 0 (by decide) (.of_guarded _ hs)⟩

/-- The message comes between the check and the wait, and the thread sleeps. -/
theorem not_updatedBlocking_heard : ¬∀ (node : DeviceNode) (now : Nat), node.generation < 2 ^ 32 →
    ∀ s, Reaches Blocking.step Always (.initial node now) s → s.Heard := by
  intro h
  have hrun : ([.enter 0, .registerCallback, .check, publishByte, .lock, .wait].foldlM Blocking.step
      (.initial byteTopic 0)).map (fun s => (s.pc, s.unread, s.signalled)) =
        some (.waiting none, 1, false) := by
    decide
  obtain ⟨s, hs, heq⟩ := map_eq_some_iff.mp hrun
  obtain ⟨hpc, hunread, hsignal⟩ : s.pc = .waiting none ∧ s.unread = 1 ∧ s.signalled = false := by
    simpa using heq
  have hheard := h byteTopic 0 (by decide) s (.of_foldlM _ hs)
  exact nomatch hsignal.symm.trans (hheard.woken none hpc (hunread ▸ Nat.one_pos))

end Gpmx.Uorb
