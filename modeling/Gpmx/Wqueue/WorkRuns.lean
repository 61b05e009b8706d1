import Gpmx.Wqueue.Work

/-!
# No work is lost

The queues are read against the record of the calls: a queue links the work structures of its
pending entries, in the order in which they were queued. That stays so as long as the callers take
care of what the code does not look at.

* `Sys.Within` — what the callers and the clock have to keep to
* `Entry.Due` — the delay of an entry is over
* `workProcess_takes` — what a section of `work_process` does
* `Sys.Linked`, `Sys.Ledger`, `Sys.Handles` — the queues, the work structures and the record agree
-/

namespace Gpmx.Wqueue

open Infra Queue Function Option List

variable {T ι W A : Type} {clocksPerSec : Nat}

/-- How long an entry has been in the queue, in the unit of the queue. -/
def Entry.elapsed (clocksPerSec : Nat) (e : Entry ι W A) (now : Nat) : Nat :=
  match e.qid with
  | .hrt => now - e.since
  | _ => (now - e.since + usecPerTick clocksPerSec / 2) / usecPerTick clocksPerSec

def Entry.Due (clocksPerSec : Nat) (e : Entry ι W A) (now : Nat) : Prop :=
  e.delay ≤ e.elapsed clocksPerSec now

def Phase.taken : Phase ι W A → List (Entry ι W A)
  | .calling _ _ taken _ => taken
  | _ => []

namespace Sys

def pendingOf (s : Sys T ι W A) (qid : Qid) : List (Entry ι W A) :=
  s.pending.filter fun e => e.qid = qid

def Queuing (s : Sys T ι W A) (work : ι) : Prop :=
  ∃ t r, s.calls t = .queuing r ∧ r.work = work

/--
What the callers and the clock keep to: work is queued when it is available, with a worker; it is
cancelled in the queue it is pending in, and not while it is being queued; the low 32 bits of the
clock do not start again while work is pending, except for the high resolution timer.
-/
def Within (s : Sys T ι W A) : Action T ι W A → Prop
  | .initialise _ r => s.worker r.work = none ∧ r.worker.isSome = true
  | .cancel qid work => ¬s.Queuing work ∧ ∀ e ∈ s.pending, e.work = work → e.qid = qid
  | .process qid clock => qid ≠ .hrt → ∀ e ∈ s.pendingOf qid, ∀ now ∈ clock,
      e.since / 2 ^ 32 = now / 2 ^ 32
  | _ => True

def Careful (s : Sys T ι W A) : Action T ι W A → Prop
  | .process _ _ => True
  | a => s.Within a

variable {a : Action T ι W A} {clock : List Nat} {t : T}

theorem Within.careful {s : Sys T ι W A} (h : s.Within a) : s.Careful a := by
  cases a with
  | process qid clock => trivial
  | initialise | enqueue | cancel | callWorker | wake => exact h

structure Agrees (s : Sys T ι W A) (e : Entry ι W A) : Prop where
  worker : s.worker e.work = e.worker
  some : e.worker.isSome = true
  arg : s.arg e.work = e.arg
  delay : s.delay e.work = e.delay
  qtime : s.qtime e.work = timeTag e.qid e.since
  since : e.since ≤ s.time

def taken (s : Sys T ι W A) : List (Entry ι W A) :=
  (s.phase .hpwork).taken ++ (s.phase .lpwork).taken ++ (s.phase .hrt).taken

/-- The calls of `work_queue` whose work is not pending any more. -/
def settled (s : Sys T ι W A) : List (Entry ι W A) :=
  s.taken ++ s.called.map Called.entry ++ s.cancelled

/-- The worker of the entry is called, with its argument, and not before its delay is over. -/
structure Rightly (clocksPerSec : Nat) (e : Entry ι W A) (worker : Option W) (arg : A) (time : Nat) :
    Prop where
  worker : worker = e.worker
  some : e.worker.isSome = true
  arg : arg = e.arg
  due : e.Due clocksPerSec time

/-- A queue links the work of its pending entries, and the work structures say what they say. -/
structure Linked (s : Sys T ι W A) : Prop where
  holds : ∀ qid, (s.dq qid).Holds ((s.pendingOf qid).map fun e => e.work)
  nodup : (s.pending.map fun e => e.work).Nodup
  agrees : ∀ e ∈ s.pending, s.Agrees e
  queuing : ∀ t r, s.calls t = .queuing r →
    s.worker r.work = r.worker ∧ r.worker.isSome = true ∧ s.arg r.work = r.arg ∧
      s.delay r.work = r.delay ∧ ∀ e ∈ s.pending, e.work ≠ r.work
  alone : ∀ t t' r r', s.calls t = .queuing r → s.calls t' = .queuing r' → r.work = r'.work → t = t'
  marked : ∀ work, (s.worker work).isSome = true → s.Queuing work ∨ ∃ e ∈ s.pending, e.work = work

/-- Every call of `work_queue` is accounted for. -/
structure Ledger (s : Sys T ι W A) : Prop where
  numbered : s.queued.map Entry.number = List.range s.queued.length
  perm : (s.pending ++ s.settled).Perm s.queued

/-- The worker of an entry that was taken is called as `R` has it. -/
structure Handles (R : Entry ι W A → Option W → A → Nat → Prop) (s : Sys T ι W A) : Prop where
  taking : ∀ qid worker arg taken time, s.phase qid = .calling worker arg taken time →
    ∃ e, taken = [e] ∧ e.qid = qid ∧ worker.isSome = true ∧ R e worker arg time
  called : ∀ c ∈ s.called, R c.entry (some c.worker) c.arg c.time

end Sys

open Sys

variable {s s' : Sys T ι W A} {e : Entry ι W A} {now now' : Nat} {qid : Qid} {work : ι}

/-! ## Clocks -/

theorem usecPerTick_le (clocksPerSec : Nat) : usecPerTick clocksPerSec ≤ 1000000 := by
  have hdiv : 1000 / clocksPerSec ≤ 1000 := Nat.div_le_self _ _
  unfold usecPerTick
  omega

theorem Entry.elapsed_mono (hle : now ≤ now') :
    e.elapsed clocksPerSec now ≤ e.elapsed clocksPerSec now' := by
  unfold Entry.elapsed
  split
  · omega
  · exact Nat.div_le_div_right (by omega)

theorem usecs_mono {m n : Nat} (hle : m ≤ n) : usecs clocksPerSec qid m ≤ usecs clocksPerSec qid n := by
  unfold usecs
  split
  · exact hle
  · exact Nat.mul_le_mul_left _ hle

/-- **The code measures the time since the work was queued**, where its clock has not started again. -/
theorem elapsed_timeTag (hsince : e.since ≤ now) (hnow : now < 2 ^ 64)
    (hwrap : e.qid ≠ .hrt → e.since / 2 ^ 32 = now / 2 ^ 32) :
    elapsed clocksPerSec e.qid now (timeTag e.qid e.since) = e.elapsed clocksPerSec now := by
  have htick := usecPerTick_le clocksPerSec
  have hsys : e.qid ≠ .hrt → (clockSystimer now + 2 ^ 64 - clockSystimer e.since) % 2 ^ 64
      = now - e.since := by
    intro hqid
    have hblock := hwrap hqid
    unfold clockSystimer
    omega
  have hround : e.qid ≠ .hrt → usec2tick clocksPerSec (now - e.since)
      = (now - e.since + usecPerTick clocksPerSec / 2) / usecPerTick clocksPerSec := by
    intro hqid
    have hblock := hwrap hqid
    unfold usec2tick
    rw [Nat.mod_eq_of_lt (by omega)]
  unfold elapsed timeTag Entry.elapsed
  cases hqid : e.qid with
  | hrt =>
    simp only
    omega
  | hpwork | lpwork =>
    simp only
    rw [hsys (by simp [hqid]), hround (by simp [hqid])]

/-! ## Looking for work that is ready -/

def Sys.Ready (clocksPerSec : Nat) (s : Sys T ι W A) (qid : Qid) (e : Entry ι W A) (now : Nat) : Prop :=
  s.delay e.work ≤ Wqueue.elapsed clocksPerSec qid now (s.qtime e.work)

theorem scan_finds : ∀ {es : List (Entry ι W A)} {clock : List Nat} {p : Option ι} {next : Nat},
    Seg s.flink p (es.map fun e => e.work) none →
    (s.scan clocksPerSec qid clock p next = none ∧ clock.length < es.length) ∨
    (∃ M e N now, es = M ++ e :: N ∧ s.scan clocksPerSec qid clock p next = some (.ready e.work now) ∧
      now ∈ clock ∧ s.Ready clocksPerSec qid e now ∧
      ∀ x ∈ M, ∃ now ∈ clock, ¬s.Ready clocksPerSec qid x now) ∨
    ∃ next', s.scan clocksPerSec qid clock p next = some (.done next') ∧ next' ≤ next ∧
      ∀ x ∈ es, ∃ now ∈ clock, ¬s.Ready clocksPerSec qid x now ∧
        next' ≤ usecs clocksPerSec qid
          (s.delay x.work - elapsed clocksPerSec qid now (s.qtime x.work))
  | [], clock, p, next, hseg => by
    have hp : p = none := hseg
    subst hp
    refine .inr (.inr ⟨next, ?_, Nat.le_refl _, by simp⟩)
    cases clock <;> rfl
  | e :: es, [], p, next, hseg => by
    obtain ⟨rfl, -⟩ := hseg
    exact .inl ⟨rfl, by simp⟩
  | e :: es, now :: clock, p, next, hseg => by
    obtain ⟨rfl, hseg⟩ := hseg
    rw [scan]
    by_cases hready : s.Ready clocksPerSec qid e now
    · simp only [if_pos (show elapsed clocksPerSec qid now (s.qtime e.work) ≥ s.delay e.work from hready)]
      exact .inr (.inl ⟨[], e, es, now, rfl, rfl, mem_cons_self, hready, by simp⟩)
    · simp only [if_neg (show ¬elapsed clocksPerSec qid now (s.qtime e.work) ≥ s.delay e.work from hready)]
      rcases scan_finds hseg with ⟨hnone, hlen⟩ | ⟨M, x, N, t, hsplit, hfound, ht, hx, hM⟩ |
        ⟨next', hfound, hle, hnot⟩
      · exact .inl ⟨hnone, by simpa using hlen⟩
      · refine .inr (.inl ⟨e :: M, x, N, t, by rw [hsplit]; rfl, hfound,
          mem_cons_of_mem _ ht, hx, ?_⟩)
        intro y hy
        rcases mem_cons.mp hy with rfl | hy
        · exact ⟨now, mem_cons_self, hready⟩
        · obtain ⟨t', ht', hnot⟩ := hM y hy
          exact ⟨t', mem_cons_of_mem _ ht', hnot⟩
      · have hmin : next' ≤ next ∧ next' ≤ remaining clocksPerSec qid (s.delay e.work)
            (elapsed clocksPerSec qid now (s.qtime e.work)) := by
          split at hle <;> omega
        refine .inr (.inr ⟨next', hfound, hmin.1, ?_⟩)
        intro y hy
        rcases mem_cons.mp hy with rfl | hy
        · exact ⟨now, mem_cons_self, hready, Nat.le_trans hmin.2 (Nat.mod_le _ _)⟩
        · obtain ⟨t', ht', hnot⟩ := hnot y hy
          exact ⟨t', mem_cons_of_mem _ ht', hnot⟩

variable {next : Nat} {t' : T} {r r' : Request ι W A} {phase : Phase ι W A}

theorem not_due_earlier (hle : now ≤ now')
    (hnot : ¬e.Due clocksPerSec now') : ¬e.Due clocksPerSec now := by
  intro hdue
  exact hnot (Nat.le_trans hdue (Entry.elapsed_mono hle))

/-! ## Pending entries -/

theorem Sys.Linked.eq_of_work (h : s.Linked) {e' : Entry ι W A} (he : e ∈ s.pending)
    (he' : e' ∈ s.pending) (hw : e.work = e'.work) : e = e' :=
  inj_on_of_nodup_map h.nodup he he' hw

theorem Sys.Linked.available (h : s.Linked) (hnone : s.worker work = none) :
    (∀ e ∈ s.pending, e.work ≠ work) ∧ ¬s.Queuing work := by
  constructor
  · rintro e he rfl
    have ha := h.agrees e he
    have hsome := ha.some
    rw [← ha.worker, hnone] at hsome
    cases hsome
  · rintro ⟨t, r, hr, rfl⟩
    obtain ⟨h1, h2, -⟩ := h.queuing t r hr
    rw [← h1, hnone] at h2
    cases h2

theorem mem_pendingOf : e ∈ s.pendingOf qid ↔ e ∈ s.pending ∧ e.qid = qid := by
  simp [pendingOf]

theorem filter_add_map (qid' : Qid) :
    ((s.pending ++ [e]).filter fun e => decide (e.qid = qid')).map (fun e => e.work)
      = if qid' = e.qid then ((s.pendingOf e.qid).map fun e => e.work) ++ [e.work]
        else (s.pendingOf qid').map fun e => e.work := by
  rw [filter_append, map_append]
  split
  · next heq =>
    subst heq
    simp [pendingOf]
  · next hne => simp [pendingOf, Ne.symm hne]

theorem pendingOf_disjoint (h : s.Linked) {qid' : Qid} (hne : qid' ≠ qid)
    (hwork : work ∈ (s.pendingOf qid').map fun e => e.work) :
    work ∉ (s.pendingOf qid).map fun e => e.work := by
  intro hwork'
  obtain ⟨x, hx, rfl⟩ := mem_map.mp hwork
  obtain ⟨y, hy, hxy⟩ := mem_map.mp hwork'
  rw [mem_pendingOf] at hx hy
  have hsame := h.eq_of_work hy.1 hx.1 hxy
  rw [hsame] at hy
  exact hne (hx.2.symm.trans hy.2)

theorem Sys.Linked.later (h : s.Linked) (hle : s.time ≤ now) : { s with time := now }.Linked :=
  { h with
    agrees := fun e he =>
      have ha := h.agrees e he
      { ha with since := Nat.le_trans ha.since hle } }

theorem Sys.Linked.record (h : s.Linked) (phase : Qid → Phase ι W A) (called : List (Called ι W A))
    (cancelled : List (Entry ι W A)) : { s with phase, called, cancelled }.Linked :=
  { h with
    agrees := fun e he =>
      have ha := h.agrees e he
      { ha with } }

theorem setDq_holds {Ls : Qid → List ι} {L K : List ι} {q : Dq ι}
    (h : ∀ qid, (s.dq qid).Holds (Ls qid)) (hq : q.Holds L) (hsame : (s.dq qid).SameOutside q K)
    (hK : ∀ qid' ≠ qid, ∀ a ∈ Ls qid', a ∉ K) (qid' : Qid) :
    ((s.setDq qid q).dq qid').Holds (if qid' = qid then L else Ls qid') := by
  by_cases hqid : qid' = qid
  · subst hqid
    rw [if_pos rfl]
    refine hq.congr ?_ ?_ fun a _ => ⟨rfl, rfl⟩
    · simp [dq, setDq]
    · simp [dq, setDq]
  · rw [if_neg hqid]
    refine (h qid').congr ?_ ?_ fun a ha => hsame a (hK qid' hqid a ha)
    · simp [dq, setDq, hqid]
    · simp [dq, setDq, hqid]

theorem time_le_getLastD (h : s.Readings clock) : s.time ≤ clock.getLastD s.time := by
  cases hlast : clock.getLast? with
  | none => simp [getLastD_eq_getLast?, hlast]
  | some t =>
    have hle := (pairwise_cons.mp h.1).1 t (mem_of_getLast? hlast)
    simpa [getLastD_eq_getLast?, hlast] using hle

theorem start_linked (arg : ι → A) : (start arg : Sys T ι W A).Linked := by
  refine ⟨fun qid => ⟨rfl, rfl⟩, nodup_nil, ?_, ?_, ?_, ?_⟩
  · intro e he
    cases he
  · intro t r hr
    cases hr
  · intro t t' r r' hr
    cases hr
  · intro work hsome
    cases hsome

/-! ## Threads -/

section

variable [DecidableEq T]

theorem queuing_of_begin (h : update s.calls t (.queuing r) t' = .queuing r') :
    t' = t ∧ r' = r ∨ t' ≠ t ∧ s.calls t' = .queuing r' :=
  (update_cases h).imp_left fun ⟨ht, hr⟩ => ⟨ht, (Call.queuing.inj hr).symm⟩

theorem queuing_of_end (h : update s.calls t .idle t' = .queuing r') :
    t' ≠ t ∧ s.calls t' = .queuing r' :=
  (update_cases h).resolve_left (nomatch ·.2)

end

/-! ## The record -/

theorem start_handles (R : Entry ι W A → Option W → A → Nat → Prop) (arg : ι → A) :
    (start arg : Sys T ι W A).Handles R := by
  refine ⟨?_, ?_⟩
  · intro qid worker arg taken time hphase
    cases hphase
  · intro c hc
    cases hc

theorem count_taken [DecidableEq (Entry ι W A)] (a : Entry ι W A)
    (hphase : s'.phase = update s.phase qid phase) :
    s'.taken.count a + (s.phase qid).taken.count a = s.taken.count a + phase.taken.count a := by
  unfold taken
  rw [hphase]
  simp only [count_append]
  cases qid <;> simp <;> omega

section

variable {R : Entry ι W A → Option W → A → Nat → Prop}

theorem Sys.Handles.move (h : s.Handles R) (hphase : s'.phase = update s.phase qid phase)
    (htaking : ∀ worker arg taken time, phase = .calling worker arg taken time →
      ∃ e, taken = [e] ∧ e.qid = qid ∧ worker.isSome = true ∧ R e worker arg time)
    (hcalled : ∀ c ∈ s'.called, R c.entry (some c.worker) c.arg c.time) : s'.Handles R := by
  refine ⟨?_, hcalled⟩
  intro qid' worker arg taken time hcalling
  rw [hphase] at hcalling
  rcases update_cases hcalling with ⟨rfl, heq⟩ | ⟨hqid, hcalling⟩
  · exact htaking worker arg taken time heq
  · exact h.taking qid' worker arg taken time hcalling

theorem callWorker_handles (h : s.Handles R) (hs : s.callWorker qid = some s') : s'.Handles R := by
  unfold callWorker at hs
  split at hs
  · next worker arg taken time hphase =>
    obtain ⟨e, rfl, -, hsome, hR⟩ := h.taking qid worker arg taken time hphase
    obtain ⟨worker, rfl⟩ := isSome_iff_exists.mp hsome
    cases hs
    refine h.move rfl (by simp) ?_
    intro c hc
    rcases mem_append.mp hc with hc | hc
    · exact h.called c hc
    · rw [mem_singleton.mp hc]
      exact hR
  · cases hs

variable (h : s.Ledger)
include h

theorem Sys.Ledger.add (hnumber : e.number = s.queued.length) :
    { s with queued := s.queued ++ [e], pending := s.pending ++ [e] }.Ledger := by
  constructor
  · simp [h.numbered, hnumber, range_succ]
  · have hperm := h.perm
    show ((s.pending ++ [e]) ++ s.settled).Perm (s.queued ++ [e])
    rw [append_assoc, singleton_append]
    exact (perm_middle.trans (hperm.cons e)).trans (perm_append_singleton e s.queued).symm

theorem Sys.Ledger.move (hqueued : s'.queued = s.queued)
    (hphase : s'.phase = update s.phase qid phase)
    (hperm : (s'.pending ++ phase.taken ++ s'.called.map Called.entry ++ s'.cancelled).Perm (s.pending ++ (s.phase qid).taken ++ s.called.map Called.entry ++ s.cancelled)) :
    s'.Ledger := by
  constructor
  · rw [hqueued]
    exact h.numbered
  · classical
    have hold := h.perm
    rw [hqueued]
    rw [perm_iff_count] at hperm hold ⊢
    intro a
    have htaken := count_taken a hphase
    have hnew := hperm a
    have hsame := hold a
    unfold settled at hsame ⊢
    simp only [count_append] at hnew hsame ⊢
    omega

theorem wake_ledger (hs : s.wake qid = some s') : s'.Ledger := by
  unfold wake at hs
  split at hs
  · next next hphase =>
    cases hs
    refine h.move rfl rfl ?_
    rw [hphase]
    exact .refl _
  · cases hs

theorem callWorker_ledger (hh : s.Handles R) (hs : s.callWorker qid = some s') : s'.Ledger := by
  unfold callWorker at hs
  split at hs
  · next worker arg taken time hphase =>
    obtain ⟨e, rfl, -, hsome, -⟩ := hh.taking qid worker arg taken time hphase
    obtain ⟨worker, rfl⟩ := isSome_iff_exists.mp hsome
    cases hs
    refine h.move rfl rfl ?_
    rw [hphase, map_append]
    refine List.Perm.append_right _ ?_
    rw [append_assoc, append_assoc]
    have hcomm : (s.called.map Called.entry ++ [e]).Perm ([e] ++ s.called.map Called.entry) :=
      perm_append_comm
    exact hcomm.append_left s.pending
  · cases hs

end

variable [DecidableEq ι]

theorem entriesOf_eq (h : s.Linked) (he : e ∈ s.pending) : s.entriesOf e.work = [e] := by
  obtain ⟨M, N, hsplit⟩ := append_of_mem he
  have hnd := h.nodup
  rw [hsplit, map_append, map_cons, nodup_append] at hnd
  obtain ⟨-, hN, hM⟩ := hnd
  have hM' : M.filter (fun x => decide (x.work = e.work)) = [] := by
    rw [filter_eq_nil_iff]
    intro x hx
    simpa using hM x.work (mem_map_of_mem hx) e.work mem_cons_self
  have hN' : N.filter (fun x => decide (x.work = e.work)) = [] := by
    rw [filter_eq_nil_iff]
    intro x hx
    have hne : x.work ≠ e.work := by
      intro hw
      exact (nodup_cons.mp hN).1 (hw ▸ mem_map_of_mem hx)
    simpa using hne
  unfold entriesOf
  rw [hsplit, filter_append, filter_cons_of_pos (by simp), hM', hN']
  rfl

theorem entries_perm (s : Sys T ι W A) (work : ι) :
    (s.entriesBut work ++ s.entriesOf work).Perm s.pending := by
  have hnot : s.entriesBut work = s.pending.filter fun e => !decide (e.work = work) := by
    unfold entriesBut
    congr 1
    funext e
    exact decide_not
  rw [hnot]
  exact perm_append_comm.trans (filter_append_perm _ _)

theorem mem_entriesBut : e ∈ s.entriesBut work ↔ e ∈ s.pending ∧ e.work ≠ work := by
  simp [entriesBut]

theorem entriesBut_map (h : s.Linked) (qid : Qid) (work : ι) :
    ((s.entriesBut work).filter fun e => decide (e.qid = qid)).map (fun e => e.work)
      = ((s.pendingOf qid).map fun e => e.work).erase work := by
  have hnd : ((s.pendingOf qid).map fun e => e.work).Nodup := (h.holds qid).nodup
  rw [hnd.erase_eq_filter, List.filter_map]
  unfold entriesBut pendingOf
  rw [filter_comm]
  congr 2
  funext e
  rw [Bool.eq_iff_iff]
  simp

/-- **Taking a pending work out of its queue leaves the rest as it is.** -/
theorem dequeue_linked (h : s.Linked) (he : e ∈ s.pending) : (s.dequeue e.qid e.work).Linked := by
  have hmem : e.work ∈ (s.pendingOf e.qid).map fun e => e.work :=
    mem_map_of_mem (f := fun e : Entry ι W A => e.work) (mem_pendingOf.mpr ⟨he, rfl⟩)
  obtain ⟨hrem, hsame⟩ := dq_rem_holds (h.holds e.qid) hmem
  have hother : ∀ qid' ≠ e.qid, ∀ a ∈ (s.pendingOf qid').map fun e => e.work,
      a ∉ (s.pendingOf e.qid).map fun e => e.work := fun qid' hne a => pendingOf_disjoint h hne
  have hworker : ∀ work, work ≠ e.work → (s.dequeue e.qid e.work).worker work = s.worker work :=
    fun work hne => update_of_ne hne _ _
  refine ⟨?_, ?_, ?_, ?_, h.alone, ?_⟩
  · intro qid'
    have hholds := setDq_holds h.holds hrem hsame hother qid'
    have hlist : ((s.dequeue e.qid e.work).pendingOf qid').map (fun e => e.work)
        = if qid' = e.qid then ((s.pendingOf e.qid).map fun e => e.work).erase e.work
          else (s.pendingOf qid').map fun e => e.work := by
      rw [show (s.dequeue e.qid e.work).pendingOf qid'
        = (s.entriesBut e.work).filter fun e => decide (e.qid = qid') from rfl, entriesBut_map h]
      split
      · next heq => rw [heq]
      · next hne => exact erase_of_not_mem fun ha => hother qid' hne _ ha hmem
    rw [hlist]
    exact hholds
  · exact h.nodup.sublist (filter_sublist.map _)
  · intro x hx
    obtain ⟨hx, hne⟩ := mem_entriesBut.mp hx
    have ha := h.agrees x hx
    exact { ha with worker := (hworker _ hne).trans ha.worker }
  · intro t r hr
    obtain ⟨h1, h2, h3, h4, h5⟩ := h.queuing t r hr
    have hne : r.work ≠ e.work := (h5 e he).symm
    exact ⟨(hworker _ hne).trans h1, h2, h3, h4, fun x hx => h5 x (mem_entriesBut.mp hx).1⟩
  · intro work hsome
    by_cases hne : work = e.work
    · subst hne
      simp [dequeue, update_self] at hsome
    · rw [hworker _ hne] at hsome
      rcases h.marked work hsome with hq | ⟨x, hx, hw⟩
      · exact .inl hq
      · exact .inr ⟨x, mem_entriesBut.mpr ⟨hx, by rw [hw]; exact hne⟩, hw⟩

theorem workCancel_ledger (h : s.Ledger) : (s.workCancel qid work).Ledger := by
  unfold workCancel
  split
  · classical
    refine h.move rfl (update_eq_self qid s.phase).symm ?_
    rw [perm_iff_count]
    intro a
    have hentries := (entries_perm s work).count_eq a
    simp only [dequeue, setDq, count_append] at hentries ⊢
    omega
  · exact h

/-! ## A section of `work_process` -/

def NotDue (clocksPerSec : Nat) (clock : List Nat) (es : List (Entry ι W A)) : Prop :=
  ∀ e ∈ es, ∀ now ∈ clock.head?, ¬e.Due clocksPerSec now

theorem workProcess_found (hs : s.workProcess clocksPerSec qid clock = some s') :
    s.phase qid = .looking ∧ s.Readings clock ∧
      ∃ found, s.scan clocksPerSec qid clock (s.head qid) (longestSleep qid) = some found ∧
        s' = { s with time := clock.getLastD s.time }.settle qid found := by
  unfold workProcess at hs
  split at hs
  · next hphase =>
    split at hs
    · next hclock =>
      obtain ⟨found, hfound, rfl⟩ := map_eq_some_iff.mp hs
      exact ⟨hphase, hclock, found, hfound, rfl⟩
    · cases hs
  · cases hs

theorem workProcess_isSome (h : s.Linked) (hlooking : s.phase qid = .looking)
    (hclock : s.Readings clock) (hlength : (s.pendingOf qid).length ≤ clock.length) :
    ∃ s', s.workProcess clocksPerSec qid clock = some s' := by
  have hseg : Seg s.flink (s.head qid) ((s.pendingOf qid).map fun e => e.work) none :=
    (h.holds qid).forward
  have hscan : ∃ found, s.scan clocksPerSec qid clock (s.head qid) (longestSleep qid) = some found := by
    rcases @scan_finds _ _ _ _ clocksPerSec _ qid _ clock _ (longestSleep qid) hseg with ⟨-, hlt⟩ |
      ⟨M, e, N, now, -, hfound, -⟩ | ⟨next, hfound, -⟩
    · omega
    · exact ⟨_, hfound⟩
    · exact ⟨_, hfound⟩
  obtain ⟨found, hfound⟩ := hscan
  unfold workProcess
  rw [hlooking]
  simp only [if_pos hclock, hfound]
  exact ⟨_, rfl⟩

omit [DecidableEq ι] in
theorem mem_of_split {M N : List (Entry ι W A)} (hsplit : s.pendingOf qid = M ++ e :: N) :
    e ∈ s.pending ∧ e.qid = qid := by
  rw [← mem_pendingOf, hsplit]
  simp

/--
**A section takes the first work whose delay is over**, as `P` has it; where there is none the
thread sleeps, no longer than what is left of any delay.
-/
theorem workProcess_takes {P : Entry ι W A → Nat → Prop} (h : s.Linked)
    (hready : ∀ e ∈ s.pendingOf qid, ∀ now ∈ clock, (s.Ready clocksPerSec qid e now ↔ P e now))
    (hs : s.workProcess clocksPerSec qid clock = some s') :
    (∃ M e N now, s.pendingOf qid = M ++ e :: N ∧
      s' = { s with time := clock.getLastD s.time }.settle qid (.ready e.work now) ∧
      now ∈ clock ∧ P e now ∧ ∀ x ∈ M, ∃ now ∈ clock, ¬P x now) ∨
    ∃ next, s' = { s with time := clock.getLastD s.time }.settle qid (.done next) ∧
      ∀ x ∈ s.pendingOf qid, ∃ now ∈ clock, ¬P x now ∧
        next ≤ usecs clocksPerSec qid
          (s.delay x.work - elapsed clocksPerSec qid now (s.qtime x.work)) := by
  obtain ⟨-, -, found, hfound, rfl⟩ := workProcess_found hs
  have hseg : Seg s.flink (s.head qid) ((s.pendingOf qid).map fun e => e.work) none :=
    (h.holds qid).forward
  rcases scan_finds hseg with ⟨hnone, -⟩ | ⟨M, e, N, now, hsplit, hfirst, hnow, hdue, hM⟩ |
    ⟨next, hdone, -, hnot⟩
  · rw [hnone] at hfound
    cases hfound
  · obtain rfl := some.inj (hfirst.symm.trans hfound)
    refine .inl ⟨M, e, N, now, hsplit, rfl, hnow, (hready e (by simp [hsplit]) now hnow).mp hdue, ?_⟩
    intro x hx
    obtain ⟨t, ht, hx'⟩ := hM x hx
    exact ⟨t, ht, fun hP => hx' ((hready x (by simp [hsplit, hx]) t ht).mpr hP)⟩
  · obtain rfl := some.inj (hdone.symm.trans hfound)
    refine .inr ⟨next, rfl, fun x hx => ?_⟩
    obtain ⟨t, ht, hx', hle⟩ := hnot x hx
    exact ⟨t, ht, fun hP => hx' ((hready x hx t ht).mpr hP), hle⟩

omit [DecidableEq ι] in
theorem elapsed_of_within (h : s.Linked) (hclock : s.Readings clock)
    (hwithin : s.Within (.process qid clock)) (he : e ∈ s.pendingOf qid) (hnow : now ∈ clock) :
    elapsed clocksPerSec qid now (s.qtime e.work) = e.elapsed clocksPerSec now := by
  obtain ⟨hmem, rfl⟩ := mem_pendingOf.mp he
  have ha := h.agrees e hmem
  have hsince := Nat.le_trans ha.since ((pairwise_cons.mp hclock.1).1 now hnow)
  rw [ha.qtime]
  exact elapsed_timeTag hsince (hclock.2 now hnow) fun hqid => hwithin hqid e he now hnow

omit [DecidableEq ι] in
theorem ready_iff_due (h : s.Linked) (hclock : s.Readings clock)
    (hwithin : s.Within (.process qid clock)) (he : e ∈ s.pendingOf qid) (hnow : now ∈ clock) :
    s.Ready clocksPerSec qid e now ↔ e.Due clocksPerSec now := by
  unfold Sys.Ready Entry.Due
  rw [(h.agrees e (mem_pendingOf.mp he).1).delay, elapsed_of_within h hclock hwithin he hnow]

omit [DecidableEq ι] in
theorem head_le (hclock : s.Readings clock) (hnow : now ∈ clock.head?) (hnow' : now' ∈ clock) :
    now ≤ now' := by
  cases clock with
  | nil => cases hnow
  | cons a clock =>
    obtain rfl : a = now := some.inj hnow
    rcases mem_cons.mp hnow' with rfl | hnow'
    · exact Nat.le_refl _
    · exact (pairwise_cons.mp (pairwise_cons.mp hclock.1).2).1 now' hnow'

theorem settle_ready_phase (h : s.Linked) (he : e ∈ s.pending) :
    (s.settle qid (.ready e.work now)).phase
      = update s.phase qid (.calling e.worker e.arg [e] now) := by
  have ha := h.agrees e he
  simp only [settle, entriesOf_eq h he, ha.worker, ha.arg]

theorem workProcess_linked (h : s.Linked) (hs : s.workProcess clocksPerSec qid clock = some s') :
    s'.Linked := by
  obtain ⟨-, hclock, -⟩ := workProcess_found hs
  have hlater := h.later (time_le_getLastD hclock)
  rcases workProcess_takes h (fun _ _ _ _ => .rfl) hs with ⟨M, e, N, now, hsplit, rfl, -⟩ |
    ⟨next, rfl, -⟩
  · obtain ⟨he, rfl⟩ := mem_of_split hsplit
    exact (dequeue_linked hlater he).record _ _ _
  · exact hlater.record _ _ _

theorem workProcess_ledger (h : s.Ledger) (hl : s.Linked)
    (hs : s.workProcess clocksPerSec qid clock = some s') : s'.Ledger := by
  obtain ⟨hphase, hclock, -⟩ := workProcess_found hs
  have hlater := hl.later (time_le_getLastD hclock)
  rcases workProcess_takes hl (fun _ _ _ _ => .rfl) hs with ⟨M, e, N, now, hsplit, rfl, -⟩ |
    ⟨next, rfl, -⟩
  · obtain ⟨he, rfl⟩ := mem_of_split hsplit
    refine h.move rfl (settle_ready_phase hlater he) ?_
    rw [hphase]
    refine List.Perm.append_right _ (List.Perm.append_right _ ?_)
    have hperm := entries_perm s e.work
    rw [entriesOf_eq hl he, ← append_nil s.pending] at hperm
    exact hperm
  · refine h.move rfl rfl ?_
    rw [hphase]
    exact .refl _

theorem workProcess_handles {R : Entry ι W A → Option W → A → Nat → Prop} (h : s.Handles R)
    (hl : s.Linked) (hR : ∀ e ∈ s.pendingOf qid, ∀ now ∈ clock, s.Readings clock →
      s.Ready clocksPerSec qid e now → R e e.worker e.arg now)
    (hs : s.workProcess clocksPerSec qid clock = some s') : s'.Handles R := by
  obtain ⟨-, hclock, -⟩ := workProcess_found hs
  rcases workProcess_takes hl (fun _ _ _ _ => .rfl) hs with
    ⟨M, e, N, now, hsplit, rfl, hnow, hready, -⟩ | ⟨next, rfl, -⟩
  · obtain ⟨he, rfl⟩ := mem_of_split hsplit
    refine h.move (settle_ready_phase (hl.later (time_le_getLastD hclock)) he) ?_ h.called
    intro worker arg taken time hcalling
    simp only [Phase.calling.injEq] at hcalling
    obtain ⟨rfl, rfl, rfl, rfl⟩ := hcalling
    exact ⟨e, rfl, rfl, (hl.agrees e he).some,
      hR e (mem_pendingOf.mpr ⟨he, rfl⟩) now hnow hclock hready⟩
  · exact h.move rfl (by simp) h.called

theorem workCancel_linked (h : s.Linked) (hwithin : s.Within (.cancel qid work)) :
    (s.workCancel qid work).Linked := by
  unfold workCancel
  split
  · next hsome =>
    rcases h.marked work hsome with hqueuing | ⟨e, he, rfl⟩
    · exact absurd hqueuing hwithin.1
    · obtain rfl := hwithin.2 e he rfl
      exact (dequeue_linked h he).record _ _ _
  · exact h

/--
What a section of `work_process` does: it takes the first work out of the queue whose delay is over,
to call its worker with its argument, or no delay was over when the section began, and the thread
sleeps for no longer than is left of any of them.
-/
def Sys.Serves (clocksPerSec : Nat) (s : Sys T ι W A) (qid : Qid) (clock : List Nat) : Prop :=
  ∃ s', s.workProcess clocksPerSec qid clock = some s' ∧
    ((∃ M e N now, s.pendingOf qid = M ++ e :: N ∧ NotDue clocksPerSec clock M ∧
        e.Due clocksPerSec now ∧ s'.phase qid = .calling e.worker e.arg [e] now) ∨
      ∃ next, s'.phase qid = .sleeping next ∧ NotDue clocksPerSec clock (s.pendingOf qid) ∧
        ∀ e ∈ s.pendingOf qid, ∀ now ∈ clock.head?,
          next ≤ usecs clocksPerSec qid (e.delay - e.elapsed clocksPerSec now))

theorem workProcess_serves (h : s.Linked) (hphase : s.phase qid = .looking)
    (hclock : s.Readings clock) (hwithin : s.Within (.process qid clock))
    (hlength : (s.pendingOf qid).length ≤ clock.length) : s.Serves clocksPerSec qid clock := by
  obtain ⟨s', hs⟩ : ∃ s', s.workProcess clocksPerSec qid clock = some s' :=
    workProcess_isSome h hphase hclock hlength
  refine ⟨s', hs, ?_⟩
  rcases workProcess_takes h (fun e he now => ready_iff_due h hclock hwithin he) hs with
    ⟨M, e, N, now, hsplit, rfl, -, hdue, hM⟩ | ⟨next, rfl, hnot⟩
  · refine .inl ⟨M, e, N, now, hsplit, ?_, hdue, ?_⟩
    · intro x hx t ht
      obtain ⟨t', ht', hx⟩ := hM x hx
      exact not_due_earlier (head_le hclock ht ht') hx
    · rw [settle_ready_phase (h.later (time_le_getLastD hclock)) (mem_of_split hsplit).1, update_self]
  · refine .inr ⟨next, update_self _ _ _, ?_, ?_⟩
    · intro x hx t ht
      obtain ⟨t', ht', hx, -⟩ := hnot x hx
      exact not_due_earlier (head_le hclock ht ht') hx
    · intro x hx t ht
      obtain ⟨t', ht', -, hle⟩ := hnot x hx
      rw [(h.agrees x (mem_pendingOf.mp hx).1).delay,
        elapsed_of_within h hclock hwithin hx ht'] at hle
      have hmono : x.elapsed clocksPerSec t ≤ x.elapsed clocksPerSec t' :=
        Entry.elapsed_mono (head_le hclock ht ht')
      exact Nat.le_trans hle (usecs_mono (by omega))

/-! ## Queuing work -/

variable [DecidableEq T]

theorem initialise_linked (h : s.Linked) (hnone : s.worker r.work = none)
    (hworker : r.worker.isSome = true) (hs : s.initialise t r = some s') : s'.Linked := by
  obtain ⟨hpending, hqueuing⟩ := h.available hnone
  unfold initialise at hs
  split at hs
  · next hidle =>
    cases hs
    refine ⟨h.holds, h.nodup, ?_, ?_, ?_, ?_⟩
    · intro e he
      have ha := h.agrees e he
      have hne := hpending e he
      exact { ha with
        worker := (update_of_ne hne _ _).trans ha.worker
        arg := (update_of_ne hne _ _).trans ha.arg
        delay := (update_of_ne hne _ _).trans ha.delay }
    · intro t' r' hr'
      rcases queuing_of_begin hr' with ⟨rfl, rfl⟩ | ⟨-, hr'⟩
      · exact ⟨update_self _ _ _, hworker, update_self _ _ _,
          update_self _ _ _, hpending⟩
      · have hne : r'.work ≠ r.work := fun hw => hqueuing ⟨t', r', hr', hw⟩
        simp only [update_of_ne hne]
        exact h.queuing t' r' hr'
    · -- a second thread that queues the same work would have made it unavailable
      intro t1 t2 r1 r2 h1 h2 hw
      rcases queuing_of_begin h1 with ⟨rfl, rfl⟩ | ⟨-, hq1⟩ <;>
        rcases queuing_of_begin h2 with ⟨rfl, rfl⟩ | ⟨-, hq2⟩
      · rfl
      · exact absurd ⟨t2, r2, hq2, hw.symm⟩ hqueuing
      · exact absurd ⟨t1, r1, hq1, hw⟩ hqueuing
      · exact h.alone t1 t2 r1 r2 hq1 hq2 hw
    · intro work hsome
      by_cases hw : work = r.work
      · exact .inl ⟨t, r, update_self _ _ _, hw.symm⟩
      · simp only [update_of_ne hw] at hsome
        rcases h.marked work hsome with ⟨t', r', hr', hw'⟩ | hp
        · have ht : t' ≠ t := by
            rintro rfl
            rw [hidle] at hr'
            cases hr'
          exact .inl ⟨t', r', (update_of_ne ht _ _).trans hr', hw'⟩
        · exact .inr hp
  · cases hs

theorem enqueue_linked (h : s.Linked) (hs : s.enqueue t now = some s') : s'.Linked := by
  unfold enqueue at hs
  split at hs
  · cases hs
  next r hr =>
  split at hs
  swap
  · cases hs
  next htime =>
  obtain ⟨hworker, hsome, harg, hdelay, hpending⟩ := h.queuing t r hr
  have hnot : ∀ qid', r.work ∉ (s.pendingOf qid').map fun e => e.work := by
    intro qid' hmem
    obtain ⟨e, he, hw⟩ := mem_map.mp hmem
    exact hpending e (mem_pendingOf.mp he).1 hw
  obtain ⟨q, hq, hL, hsame⟩ := dq_addlast_holds (h.holds r.qid) (hnot r.qid)
  rw [hq] at hs
  cases hs
  have hother : ∀ qid' ≠ r.qid, ∀ a ∈ (s.pendingOf qid').map fun e => e.work,
      a ∉ ((s.pendingOf r.qid).map fun e => e.work) ++ [r.work] := by
    intro qid' hne a ha ha'
    rcases mem_append.mp ha' with ha' | ha'
    · exact pendingOf_disjoint h hne ha ha'
    · rw [mem_singleton.mp ha'] at ha
      exact hnot qid' ha
  refine ⟨?_, ?_, ?_, ?_, ?_, ?_⟩
  · intro qid'
    have hholds := setDq_holds h.holds hL hsame hother qid'
    unfold pendingOf
    rw [filter_add_map]
    exact hholds
  · rw [map_append, nodup_append]
    refine ⟨h.nodup, by simp, ?_⟩
    rintro a ha b hb rfl
    obtain ⟨e, he, rfl⟩ := mem_map.mp ha
    exact hpending e he (by simpa [Request.entry] using hb)
  · intro e he
    rcases mem_append.mp he with he | he
    · have ha := h.agrees e he
      exact { ha with
        qtime := (update_of_ne (hpending e he) _ _).trans ha.qtime
        since := Nat.le_trans ha.since htime.1 }
    · rw [mem_singleton.mp he]
      exact ⟨hworker, hsome, harg, hdelay, update_self _ _ _, Nat.le_refl _⟩
  · intro t' r' hr'
    obtain ⟨ht, hr'⟩ := queuing_of_end hr'
    obtain ⟨h1, h2, h3, h4, h5⟩ := h.queuing t' r' hr'
    refine ⟨h1, h2, h3, h4, fun e he => ?_⟩
    rcases mem_append.mp he with he | he
    · exact h5 e he
    · rw [mem_singleton.mp he]
      exact fun hw => ht (h.alone t' t r' r hr' hr hw.symm)
  · intro t1 t2 r1 r2 h1 h2 hw
    exact h.alone t1 t2 r1 r2 (queuing_of_end h1).2 (queuing_of_end h2).2 hw
  · intro work hmark
    rcases h.marked work hmark with ⟨t', r', hr', hw⟩ | ⟨e, he, hw⟩
    · by_cases ht : t' = t
      · subst ht
        rw [hr, Call.queuing.injEq] at hr'
        subst hr'
        exact .inr ⟨_, mem_append_right _ (mem_singleton.mpr rfl), hw⟩
      · exact .inl ⟨t', r', (update_of_ne ht _ _).trans hr', hw⟩
    · exact .inr ⟨e, mem_append_left _ he, hw⟩

/-! ## Results -/

theorem step_linked (h : s.Linked) (ha : s.Careful a) (hs : s.step clocksPerSec a = some s') :
    s'.Linked := by
  cases a with
  | initialise t r => exact initialise_linked h ha.1 ha.2 hs
  | enqueue t now => exact enqueue_linked h hs
  | cancel qid work =>
    cases hs
    exact workCancel_linked h ha
  | process qid clock => exact workProcess_linked h hs
  | callWorker qid =>
    simp only [step, callWorker] at hs
    split at hs
    · cases hs
      exact h.record _ _ _
    · cases hs
  | wake qid =>
    simp only [step, wake] at hs
    split at hs
    · cases hs
      exact h.record _ _ _
    · cases hs

theorem step_ledger {R : Entry ι W A → Option W → A → Nat → Prop} (h : s.Linked)
    (hl : s.Ledger) (hh : s.Handles R) (hs : s.step clocksPerSec a = some s') : s'.Ledger := by
  cases a with
  | initialise t r =>
    simp only [step, initialise] at hs
    split at hs
    · cases hs
      exact ⟨hl.numbered, hl.perm⟩
    · cases hs
  | enqueue t now =>
    simp only [step, enqueue] at hs
    split at hs
    · cases hs
    · next r hr =>
      split at hs
      · obtain ⟨q, -, rfl⟩ := map_eq_some_iff.mp hs
        have hadd := hl.add (e := r.entry s.queued.length now) rfl
        exact ⟨hadd.numbered, hadd.perm⟩
      · cases hs
  | cancel qid work =>
    cases hs
    exact workCancel_ledger hl
  | process qid clock => exact workProcess_ledger hl h hs
  | callWorker qid => exact callWorker_ledger hl hh hs
  | wake qid => exact wake_ledger hl hs

/-- **Workers are called as `R` has it**, where the sections take no other entries. -/
theorem step_handles {R : Entry ι W A → Option W → A → Nat → Prop} (h : s.Linked)
    (hh : s.Handles R) (hR : ∀ qid clock, a = .process qid clock → ∀ e ∈ s.pendingOf qid,
      ∀ now ∈ clock, s.Readings clock → s.Ready clocksPerSec qid e now → R e e.worker e.arg now)
    (hs : s.step clocksPerSec a = some s') : s'.Handles R := by
  cases a with
  | initialise t r =>
    simp only [step, initialise] at hs
    split at hs
    · cases hs
      exact ⟨hh.taking, hh.called⟩
    · cases hs
  | enqueue t now =>
    simp only [step, enqueue] at hs
    split at hs
    · cases hs
    · split at hs
      · obtain ⟨q, -, rfl⟩ := map_eq_some_iff.mp hs
        exact ⟨hh.taking, hh.called⟩
      · cases hs
  | cancel qid work =>
    cases hs
    unfold workCancel
    split <;> exact ⟨hh.taking, hh.called⟩
  | process qid clock => exact workProcess_handles hh h (hR qid clock rfl) hs
  | callWorker qid => exact callWorker_handles hh hs
  | wake qid =>
    simp only [step, wake] at hs
    split at hs
    · cases hs
      exact hh.move rfl (by simp) hh.called
    · cases hs

def Sys.Kept (clocksPerSec : Nat) (s : Sys T ι W A) : Prop :=
  s.Linked ∧ s.Ledger ∧ s.Handles (Rightly clocksPerSec)

theorem step_keeps (h : s.Kept clocksPerSec) (ha : s.Within a)
    (hs : s.step clocksPerSec a = some s') : s'.Kept clocksPerSec := by
  obtain ⟨hlinked, hl, hh⟩ := h
  refine ⟨step_linked hlinked ha.careful hs, step_ledger hlinked hl hh hs, step_handles hlinked hh ?_ hs⟩
  rintro qid clock rfl e he now hnow hclock hready
  have hagrees := hlinked.agrees e (mem_pendingOf.mp he).1
  exact ⟨rfl, hagrees.some, rfl, (ready_iff_due hlinked hclock ha he hnow).mp hready⟩

/--
**As long as callers and clock keep to `Within`, no work is lost.** The queues are well formed and
have exactly the pending work, once each; every call of `work_queue` is pending, taken, called or
cancelled, and only one of these; workers are called with their arguments when the delay is over;
and a pass does not end before.
-/
theorem wqueue_loses_no_work {arg : ι → A}
    (h : Reaches (step clocksPerSec) Within (start arg : Sys T ι W A) s) :
    (∀ qid, (s.dq qid).Holds ((s.pendingOf qid).map fun e => e.work)) ∧
    (s.pending.map fun e => e.work).Nodup ∧
    (s.pending ++ (s.taken ++ s.called.map Called.entry ++ s.cancelled)).Perm s.queued ∧
    (s.queued.map Entry.number).Nodup ∧
    (∀ c ∈ s.called, Rightly clocksPerSec c.entry (some c.worker) c.arg c.time) ∧
    ∀ qid clock, s.phase qid = .looking → s.Readings clock → s.Within (.process qid clock) →
      (s.pendingOf qid).length ≤ clock.length → s.Serves clocksPerSec qid clock := by
  obtain ⟨hlinked, hl, hh⟩ := h.invariant (P := Kept clocksPerSec)
    ⟨start_linked arg, ⟨rfl, .refl _⟩, start_handles _ arg⟩ fun s a s' hs ha => step_keeps hs ha
  refine ⟨hlinked.holds, hlinked.nodup, hl.perm, ?_, hh.called, ?_⟩
  · rw [hl.numbered]
    exact nodup_range
  · intro qid clock hphase hclock hwithin hlength
    exact workProcess_serves hlinked hphase hclock hwithin hlength

def tick : Request Bool Nat Nat := ⟨.hpwork, true, some 7, 5, 1⟩

theorem reaches_tick {ok : Sys Unit Bool Nat Nat → Action Unit Bool Nat Nat → Prop}
    (hinit : ok (start fun _ => 0) (.initialise () tick)) (henqueue : ∀ s, ok s (.enqueue () 0))
    (hprocess : ∀ s, s.pending = [tick.entry 0 0] → ok s (.process .hpwork [1000]))
    (hcall : ∀ s, ok s (.callWorker .hpwork)) :
    ∃ s, Reaches (step 1000) ok (start fun _ => 0) s ∧
      s.called.map (fun c => (c.worker, c.arg, c.entry.since, c.time)) = [(7, 5, 0, 1000)] := by
  have h1 : Reaches (step 1000) ok (start fun _ => 0) _ := Reaches.tail .refl hinit rfl
  obtain ⟨s2, h2, hpending, hrun⟩ : ∃ s2, Reaches (step 1000) ok (start fun _ => 0) s2 ∧
      s2.pending = [tick.entry 0 0] ∧
      ([.process .hpwork [1000], .callWorker .hpwork].foldlM (step 1000) s2).map
        (fun s => s.called.map fun c => (c.worker, c.arg, c.entry.since, c.time))
          = some [(7, 5, 0, 1000)] :=
    ⟨_, h1.tail (henqueue _) rfl, rfl, by decide⟩
  obtain ⟨s, hs, hcalled⟩ := map_eq_some_iff.mp hrun
  rw [foldlM_cons] at hs
  obtain ⟨s3, hs3, hs⟩ := bind_eq_some_iff.mp hs
  refine ⟨s, (h2.tail (hprocess s2 hpending) hs3).trans (Reaches.of_foldlM_of_forall _ hs ?_), hcalled⟩
  intro s a ha
  rw [mem_singleton.mp ha]
  exact hcall s

/-- A work is queued, and its worker called when a tick has passed. -/
theorem wqueue_loses_no_work_called :
    ∃ s : Sys Unit Bool Nat Nat, Reaches (step 1000) Within (start fun _ => 0) s ∧
      s.called.map (fun c => (c.worker, c.arg)) = [(7, 5)] ∧
      ∀ c ∈ s.called, Rightly 1000 c.entry (some c.worker) c.arg c.time := by
  obtain ⟨s, h, hcalled⟩ : ∃ s : Sys Unit Bool Nat Nat, Reaches (step 1000) Within
      (start fun _ => 0) s ∧
      s.called.map (fun c => (c.worker, c.arg, c.entry.since, c.time)) = [(7, 5, 0, 1000)] := by
    refine reaches_tick ⟨rfl, rfl⟩ (fun s => trivial) ?_ (fun s => trivial)
    intro s hpending _ e he now hnow
    rw [pendingOf, hpending] at he
    rw [mem_singleton.mp (mem_filter.mp he).1, mem_singleton.mp hnow]
    simp [Request.entry]
  refine ⟨s, h, ?_, (wqueue_loses_no_work h).2.2.2.2.1⟩
  simpa using congrArg (map fun p => (p.1, p.2.1)) hcalled

def Sys.Lost (s : Sys T ι W A) (work : ι) : Prop :=
  (∃ e ∈ s.pending, e.work = work) ∧ ∀ qid L, Seg s.flink (s.head qid) L none → work ∉ L

/--
Queuing work again that is pending drops the work behind it from the queue. Cancelling work between
the two parts of `work_queue` drops all the work that is pending. Work that is pending when the low
32 bits of the clock start again is called at once.
-/
theorem pending_work_lost :
    (∃ s : Sys Unit Bool Nat Nat, Reaches (step 1000) Always (start fun _ => 0) s ∧
      (s.pending.map fun e => e.work) = [true, false, true] ∧ s.Lost false) ∧
    (∃ s : Sys Unit Bool Nat Nat, Reaches (step 1000) Always (start fun _ => 0) s ∧
      (s.pending.map fun e => e.work) = [false] ∧ s.Lost false) ∧
    ∃ s : Sys Unit Bool Nat Nat, Reaches (step 1000) Always (start fun _ => 0) s ∧
      ∃ c ∈ s.called, ¬c.entry.Due 1000 c.time := by
  let r : Request Bool Nat Nat := ⟨.hpwork, true, some 7, 5, 1⟩
  let r' : Request Bool Nat Nat := ⟨.hpwork, false, some 7, 5, 1⟩
  refine ⟨?_, ?_, ?_⟩
  · have hrun : ([.initialise () r, .enqueue () 0, .initialise () r', .enqueue () 0,
        .initialise () r, .enqueue () 0].foldlM (step 1000)
        (start fun _ => 0 : Sys Unit Bool Nat Nat)).map
        (fun s => ((s.pending.map fun e => e.work), (s.head .hpwork, s.flink true),
          s.head .lpwork, s.head .hrt))
        = some ([true, false, true], (some true, none), none, none) := by decide
    obtain ⟨s, hs, hp⟩ := map_eq_some_iff.mp hrun
    simp only [Prod.mk.injEq] at hp
    obtain ⟨hpending, ⟨hhp, htrue⟩, hlp, hhrt⟩ := hp
    refine ⟨s, Reaches.of_foldlM _ hs, hpending, mem_map.mp (by rw [hpending]; simp), ?_⟩
    intro qid L hseg
    cases qid with
    | hpwork =>
      have hone : Seg s.flink (s.head .hpwork) [true] none := ⟨hhp, htrue⟩
      rw [hseg.unique hone]
      simp
    | lpwork =>
      rw [hseg.unique (M := []) hlp]
      simp
    | hrt =>
      rw [hseg.unique (M := []) hhrt]
      simp
  · have hrun : ([.initialise () r', .enqueue () 0, .initialise () r, .cancel .hpwork true].foldlM
        (step 1000) (start fun _ => 0 : Sys Unit Bool Nat Nat)).map
        (fun s => ((s.pending.map fun e => e.work), s.head .hpwork, s.head .lpwork, s.head .hrt))
        = some ([false], none, none, none) := by decide
    obtain ⟨s, hs, hp⟩ := map_eq_some_iff.mp hrun
    simp only [Prod.mk.injEq] at hp
    obtain ⟨hpending, hhp, hlp, hhrt⟩ := hp
    refine ⟨s, Reaches.of_foldlM _ hs, hpending, mem_map.mp (by rw [hpending]; simp), ?_⟩
    intro qid L hseg
    have hempty : s.head qid = none := by cases qid <;> assumption
    rw [hseg.unique (M := []) hempty]
    simp
  · have hrun : ([.initialise () { r with delay := 100 }, .enqueue () (2 ^ 32 - 1),
        .process .hpwork [2 ^ 32], .callWorker .hpwork].foldlM (step 1000)
        (start fun _ => 0 : Sys Unit Bool Nat Nat)).map
        (fun s => s.called.map fun c => (c.entry.delay, c.entry.elapsed 1000 c.time))
        = some [(100, 0)] := by decide
    obtain ⟨s, hs, hp⟩ := map_eq_some_iff.mp hrun
    obtain ⟨c, hc, hearly⟩ := mem_map.mp (hp ▸ mem_singleton.mpr rfl)
    refine ⟨s, Reaches.of_foldlM _ hs, c, hc, ?_⟩
    simp only [Prod.mk.injEq] at hearly
    unfold Entry.Due
    omega

end Gpmx.Wqueue
