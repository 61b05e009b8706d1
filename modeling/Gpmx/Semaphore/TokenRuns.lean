import Gpmx.Infra.Accounts
import Gpmx.Semaphore.Tokens

/-!
# Tokens are conserved

Every token that was posted is taken by one wait at most, and a wait returns 0 when it has taken one.
Two of the three ways to compile the calls do not keep to that. Over RT-Thread `sem_timedwait` has its
results the wrong way round. With the cache a wait that fails has counted `val` down and does not
count it up again.

* `Sys.Keeps` — the runs in which neither comes up
* `Sys.balance` — the initial value, with the posts and without the waits that returned 0
* `Sys.Plain`, `Sys.Cached` — what holds without and with the cache
-/

namespace Gpmx.Semaphore.Tokens

open Infra

variable {T : Type} {cfg : Config} {value : Nat}

def Call.Taking (c : Call) : Prop :=
  match c with
  | .taking .. => True
  | _ => False

instance : DecidablePred Call.Taking
  | .taking .. => isTrue trivial
  | .idle | .giving => isFalse id

def Call.takes : Call → Nat
  | .taking .. => 1
  | _ => 0

def Call.gives : Call → Nat
  | .giving => 1
  | _ => 0

namespace Sys

def successes (s : Sys T) : Nat := s.done.countP fun d => d.ret = 0

/-- The initial value, with the posts and without the waits that returned 0. -/
def balance (value : Nat) (s : Sys T) : Int := value + s.posts - s.successes

/--
Over RT-Thread `sem_timedwait` is answered by a timeout only. With the cache no wait is, `val` stays
within an `int`, and the kernel object is never full.
-/
def Keeps (cfg : Config) (s : Sys T) (a : Action T) : Prop :=
  match cfg with
  | .rtthread =>
    match a with
    | .take t outcome =>
      match s.calls t with
      | .taking (.timedwait _) _ _ => outcome = .timeout
      | _ => True
    | _ => True
  | .freertos => True
  | .freertosCache _ =>
    match a with
    | .wait _ _ => -2 ^ 31 < s.val
    | .take _ outcome => outcome ≠ .timeout
    | .post _ => s.val + 1 < 2 ^ 31
    | .give _ => s.count < cfg.max

def Honest (s : Sys T) : Prop := ∀ d ∈ s.done, d.consumed ≤ 1 ∧ (d.ret = 0 ↔ d.consumed = 1)

def Plain (value : Nat) (s : Sys T) : Prop := s.count + s.successes = value + s.posts

/--
With the cache `val` also counts the waits that have gone to the kernel; when it is negative, it says
how many of them no token is on its way to.
-/
structure Cached [Fintype T] (value : Nat) (s : Sys T) : Prop where
  val : s.val + s.successes + census Call.Taking s.calls = value + s.posts
  short : (-s.val).toNat + s.count + census (· = Call.giving) s.calls = census Call.Taking s.calls
  lower : -2 ^ 31 ≤ s.val
  upper : s.val < 2 ^ 31

end Sys

open Sys

variable {s s' : Sys T} {t : T}

theorem toInt_of_small {x : Int} (hlower : -2 ^ 31 ≤ x) (hupper : x < 2 ^ 31) : toInt x = x := by
  unfold toInt
  rw [Int.bmod_def]
  omega

variable {outcome : Outcome} {a : Action T}

theorem returns_eq_zero {w : Wait} {delay : Option Nat} {ret : Option Errno}
    (hcall : s.calls t = .taking w delay ret) (hkeeps : s.Keeps cfg (.take t outcome)) :
    (cfg.returns w ret outcome).1 = 0 ↔ outcome = .ok := by
  cases cfg with
  | rtthread =>
    simp only [Keeps, hcall] at hkeeps
    cases w <;> cases outcome <;> simp_all [Config.returns, rtReturn, Errno.code]
  | freertos | freertosCache protocol =>
    cases w <;> cases outcome <;> simp [Config.returns, freertosReturn]

variable [DecidableEq T]

theorem finish_successes (r : Int × Option Errno) (consumed : Nat) :
    (s.finish t r consumed).successes = s.successes + if r.1 = 0 then 1 else 0 := by
  simp only [successes, finish, List.countP_append, List.countP_singleton]
  congr 1
  split <;> simp_all

theorem Sys.Honest.finish (h : s.Honest) {r : Int × Option Errno} {consumed : Nat}
    (hle : consumed ≤ 1) (hr : r.1 = 0 ↔ consumed = 1) : (s.finish t r consumed).Honest := by
  intro d hd
  rcases List.mem_append.mp hd with hd | hd
  · exact h d hd
  · rw [List.mem_singleton.mp hd]
    exact ⟨hle, hr⟩

/-! ## What a step does -/

theorem take_cases (hs : s.take cfg t outcome = some s') :
    ∃ w delay ret, s.calls t = .taking w delay ret ∧
      ((outcome = .ok ∧ 0 < s.count ∧
          s' = { s with count := s.count - 1 }.finish t (cfg.returns w ret .ok) 1) ∨
        (outcome ≠ .ok ∧ s' = s.finish t (cfg.returns w ret outcome) 0)) := by
  unfold take at hs
  split at hs
  · next w delay ret hcall =>
    refine ⟨w, delay, ret, hcall, ?_⟩
    cases outcome with
    | ok =>
      simp only [Option.ite_none_right_eq_some, Option.some.injEq] at hs
      exact .inl ⟨rfl, hs.1, hs.2.symm⟩
    | timeout | error =>
      simp only [Option.ite_none_right_eq_some, Option.some.injEq] at hs
      exact .inr ⟨by simp, hs.2.symm⟩
  · cases hs

theorem take_honest (h : s.Honest) (hkeeps : s.Keeps cfg (.take t outcome))
    (hs : s.take cfg t outcome = some s') : s'.Honest := by
  obtain ⟨w, delay, ret, hcall, ⟨rfl, -, rfl⟩ | ⟨hne, rfl⟩⟩ := take_cases hs
  · have hzero := (returns_eq_zero hcall hkeeps).mpr rfl
    exact Sys.Honest.finish (t := t) h (Nat.le_refl _) (by simp [hzero])
  · have hnot := mt (returns_eq_zero hcall hkeeps).mp hne
    exact h.finish (Nat.zero_le _) (by simp [hnot])

theorem step_honest (h : s.Honest) (hkeeps : s.Keeps cfg a) (hs : s.step cfg a = some s') :
    s'.Honest := by
  cases a with
  | wait t w =>
    simp only [step, wait] at hs
    split at hs
    · split at hs
      · split at hs
        · next e _ =>
          cases hs
          refine h.finish (Nat.zero_le _) ?_
          cases e <;> simp [Errno.code]
        · cases hs
          exact h
      · cases hs
        exact h
      · split at hs
        · cases hs
          exact Sys.Honest.finish (t := t) h (Nat.le_refl _) (by simp)
        · cases hs
          exact h
    · cases hs
  | take t outcome => exact take_honest h hkeeps hs
  | post t =>
    simp only [step, post] at hs
    split at hs
    · split at hs
      · split at hs <;>
        · cases hs
          exact h
      · cases hs
        exact h
    · cases hs
  | give t =>
    simp only [step, give] at hs
    split at hs
    · split at hs
      · split at hs <;>
        · cases hs
          exact h
      · cases hs
        exact h
    · cases hs

/-! ## Without the cache -/

theorem take_plain (h : s.Plain value) (hkeeps : s.Keeps cfg (.take t outcome))
    (hs : s.take cfg t outcome = some s') : s'.Plain value := by
  unfold Plain at h ⊢
  obtain ⟨w, delay, ret, hcall, ⟨rfl, hpos, rfl⟩ | ⟨hne, rfl⟩⟩ := take_cases hs
  · rw [finish_successes, if_pos ((returns_eq_zero hcall hkeeps).mpr rfl)]
    show s.count - 1 + (s.successes + 1) = value + s.posts
    omega
  · rw [finish_successes, if_neg (mt (returns_eq_zero hcall hkeeps).mp hne)]
    exact h

theorem step_plain (hcfg : cfg = .rtthread ∨ cfg = .freertos) (h : s.Plain value)
    (hkeeps : s.Keeps cfg a) (hs : s.step cfg a = some s') : s'.Plain value := by
  cases a with
  | wait t w =>
    simp only [step, wait] at hs
    split at hs
    · rcases hcfg with rfl | rfl
      · simp only at hs
        split at hs
        · next e _ =>
          cases hs
          have hcode : e.code ≠ 0 := by cases e <;> simp [Errno.code]
          unfold Plain at h ⊢
          rw [finish_successes, if_neg hcode]
          exact h
        · cases hs
          exact h
      · cases hs
        exact h
    · cases hs
  | take t outcome => exact take_plain h hkeeps hs
  | post t =>
    simp only [step, post] at hs
    split at hs
    · rcases hcfg with rfl | rfl <;>
      · cases hs
        exact h
    · cases hs
  | give t =>
    simp only [step, give] at hs
    unfold Plain at h ⊢
    split at hs
    · split at hs
      · rcases hcfg with rfl | rfl <;>
        · cases hs
          show s.count + 1 + s.successes = value + (s.posts + 1)
          omega
      · cases hs
        exact h
    · cases hs

/-! ## With the cache -/

variable [Fintype T]

theorem census_taking (calls : T → Call) (t : T) (c : Call) :
    census Call.Taking (Function.update calls t c) + (calls t).takes
      = census Call.Taking calls + c.takes := by
  have hupdate := census_update (p := Call.Taking) calls t c
  have htakes : ∀ c : Call, (if c.Taking then 1 else 0) = c.takes := by
    intro c
    cases c <;> rfl
  rwa [htakes, htakes] at hupdate

theorem census_giving (calls : T → Call) (t : T) (c : Call) :
    census (· = Call.giving) (Function.update calls t c) + (calls t).gives
      = census (· = Call.giving) calls + c.gives := by
  have hupdate := census_update (p := (· = Call.giving)) calls t c
  have hgives : ∀ c : Call, (if c = .giving then 1 else 0) = c.gives := by
    intro c
    cases c <;> rfl
  rwa [hgives, hgives] at hupdate

section

variable (h : s.Cached value)
include h

theorem Sys.Cached.move {c : Call} (hcalls : s'.calls = Function.update s.calls t c)
    (hval : s'.val + s'.successes + c.takes - s'.posts
      = s.val + s.successes + (s.calls t).takes - s.posts)
    (hshort : (-s'.val).toNat + s'.count + c.gives + (s.calls t).takes
      = (-s.val).toNat + s.count + (s.calls t).gives + c.takes)
    (hlower : -2 ^ 31 ≤ s'.val) (hupper : s'.val < 2 ^ 31) : s'.Cached value := by
  have htaking := census_taking s.calls t c
  have hgiving := census_giving s.calls t c
  have hv := h.val
  have hs := h.short
  refine ⟨?_, ?_, hlower, hupper⟩ <;> rw [hcalls] <;> omega

theorem wait_cached {w : Wait} (hlower : -2 ^ 31 < s.val)
    (hs : s.wait (.freertosCache .prioNone) t w = some s') : s'.Cached value := by
  have hupper := h.upper
  unfold wait at hs
  split at hs
  · next hidle =>
    have hpred : toInt (s.val - 1) = s.val - 1 := toInt_of_small (by omega) (by omega)
    have hw : w.cached .prioNone = true := by cases w <;> simp [Wait.cached]
    simp only [hw, and_true] at hs
    split at hs
    · next hpos =>
      cases hs
      refine h.move (t := t) rfl ?_ ?_ ?_ ?_
      · rw [finish_successes]
        simp only [Sys.finish, successes, hidle, Call.takes, if_true, hpred]
        omega
      · simp only [Sys.finish, hidle, Call.takes, Call.gives, hpred]
        omega
      · show -2 ^ 31 ≤ toInt (s.val - 1)
        rw [hpred]
        omega
      · show toInt (s.val - 1) < 2 ^ 31
        rw [hpred]
        omega
    · next hneg =>
      cases hs
      refine h.move (t := t) rfl ?_ ?_ ?_ ?_
      · simp only [Sys.goOn, successes, hidle, Call.takes, hpred]
        omega
      · simp only [Sys.goOn, hidle, Call.takes, Call.gives, hpred]
        omega
      · show -2 ^ 31 ≤ toInt (s.val - 1)
        rw [hpred]
        omega
      · show toInt (s.val - 1) < 2 ^ 31
        rw [hpred]
        omega
  · cases hs

theorem take_cached (hkeeps : s.Keeps (.freertosCache .prioNone) (.take t outcome))
    (hs : s.take (.freertosCache .prioNone) t outcome = some s') : s'.Cached value := by
  have hok : outcome = .ok := by
    unfold take at hs
    cases outcome with
    | ok => rfl
    | timeout => exact absurd rfl hkeeps
    | error =>
      split at hs
      · simp at hs
      · cases hs
  subst hok
  obtain ⟨w, delay, ret, hcall, ⟨-, hpos, rfl⟩ | ⟨hne, -⟩⟩ := take_cases hs
  · have hret : ((Config.freertosCache .prioNone).returns w ret .ok).1 = 0 := rfl
    refine h.move (t := t) rfl ?_ ?_ h.lower h.upper
    · rw [finish_successes, if_pos hret]
      simp only [Sys.finish, successes, hcall, Call.takes]
      omega
    · simp only [Sys.finish, hcall, Call.takes, Call.gives]
      omega
  · exact absurd rfl hne

theorem post_cached (hupper : s.val + 1 < 2 ^ 31)
    (hs : s.post (.freertosCache .prioNone) t = some s') : s'.Cached value := by
  have hlower := h.lower
  unfold post at hs
  split at hs
  · next hidle =>
    have hsucc : toInt (s.val + 1) = s.val + 1 := toInt_of_small (by omega) (by omega)
    simp only [reduceCtorEq, or_false] at hs
    split at hs
    · next hneg =>
      cases hs
      refine h.move (t := t) rfl ?_ ?_ ?_ ?_
      · simp only [Sys.goOn, successes, hidle, Call.takes, hsucc]
        omega
      · simp only [Sys.goOn, hidle, Call.takes, Call.gives, hsucc]
        omega
      · show -2 ^ 31 ≤ toInt (s.val + 1)
        rw [hsucc]
        omega
      · show toInt (s.val + 1) < 2 ^ 31
        rw [hsucc]
        omega
    · next hpos =>
      cases hs
      refine h.move (t := t) (Function.update_eq_self t s.calls).symm ?_ ?_ ?_ ?_
      · simp only [successes, hsucc]
        omega
      · simp only [hidle, Call.takes, Call.gives, hsucc]
        omega
      · show -2 ^ 31 ≤ toInt (s.val + 1)
        rw [hsucc]
        omega
      · show toInt (s.val + 1) < 2 ^ 31
        rw [hsucc]
        omega
  · cases hs

theorem give_cached (hroom : s.count < (Config.freertosCache .prioNone).max)
    (hs : s.give (.freertosCache .prioNone) t = some s') : s'.Cached value := by
  unfold give at hs
  split at hs
  · next hgiving =>
    rw [if_pos hroom] at hs
    cases hs
    refine h.move (t := t) rfl ?_ ?_ h.lower h.upper
    · simp only [Sys.goOn, successes, hgiving, Call.takes]
    · simp only [Sys.goOn, hgiving, Call.takes, Call.gives]
      omega
  · cases hs

theorem step_cached (hkeeps : s.Keeps (.freertosCache .prioNone) a)
    (hs : s.step (.freertosCache .prioNone) a = some s') : s'.Cached value := by
  cases a with
  | wait t w => exact wait_cached h hkeeps hs
  | take t outcome => exact take_cached h hkeeps hs
  | post t => exact post_cached h hkeeps hs
  | give t => exact give_cached h hkeeps hs

end

omit [DecidableEq T] in
theorem start_cached (hvalue : value < 2 ^ 31) :
    (start (.freertosCache .prioNone) value : Sys T).Cached value := by
  have htaking : census Call.Taking (fun _ : T => Call.idle) = 0 := census_eq_zero.mpr fun _ => id
  have hgiving : census (· = Call.giving) (fun _ : T => Call.idle) = 0 :=
    census_eq_zero.mpr fun _ => by simp
  refine ⟨?_, ?_, ?_, ?_⟩
  · simp [start, successes, htaking]
  · simp [start, htaking, hgiving, Config.kernelCount]
  · show -2 ^ 31 ≤ (value : Int)
    omega
  · show (value : Int) < 2 ^ 31
    omega

/-! ## Results -/

omit [Fintype T] in
theorem Sys.Plain.observed (hcfg : cfg = .rtthread ∨ cfg = .freertos) (h : s.Plain value) :
    s.semGetvalue cfg = some (s.balance value) ∧ ∀ t w delay ret, s.calls t = .taking w delay ret →
      ((s.take cfg t .ok).isSome = true ↔ 0 < s.balance value) := by
  have hcount : (s.count : Int) = s.balance value := by
    unfold Plain at h
    unfold balance
    omega
  constructor
  · rw [← hcount]
    rcases hcfg with rfl | rfl <;> rfl
  · intro t w delay ret hcall
    unfold take
    simp only [hcall]
    rw [← hcount]
    by_cases hpos : 0 < s.count <;> simp [hpos]

theorem Sys.Cached.observed (h : s.Cached value) (hnone : ∀ t, ¬(s.calls t).Taking) :
    s.semGetvalue (.freertosCache .prioNone) = some (s.balance value) ∧
      ∀ t w, s.calls t = .idle →
        ((∃ s', s.wait (.freertosCache .prioNone) t w = some s' ∧ s'.calls t = .idle) ↔
          0 < s.balance value) := by
  have hval : s.val = s.balance value := by
    have hsum := h.val
    have hzero : census Call.Taking s.calls = 0 := census_eq_zero.mpr hnone
    unfold balance
    omega
  refine ⟨congrArg some hval, ?_⟩
  intro t w hidle
  have hw : w.cached .prioNone = true := by cases w <;> simp [Wait.cached]
  rw [← hval]
  unfold wait
  simp only [hidle, hw, and_true]
  by_cases hpos : s.val > 0
  · simp [hpos, finish]
  · simp [hpos, goOn]

/--
**As long as steps keep to `Keeps`, tokens are conserved.** A wait returns 0 if and only if it has
taken one token. The value that `sem_getvalue` stores, and that decides whether a wait gets a token,
is the initial value with the posts and without the waits that returned 0; with the cache, when no
wait is under way.
-/
theorem tokens_conserved (hcfg : cfg ≠ .freertosCache .prioInherit) (hvalue : value ≤ cfg.max)
    (h : Reaches (step cfg) (Keeps cfg) (start cfg value : Sys T) s) :
    (∀ d ∈ s.done, d.consumed ≤ 1 ∧ (d.ret = 0 ↔ d.consumed = 1)) ∧
    (cfg = .rtthread ∨ cfg = .freertos → s.semGetvalue cfg = some (s.balance value) ∧
      ∀ t w delay ret, s.calls t = .taking w delay ret →
        ((s.take cfg t .ok).isSome = true ↔ 0 < s.balance value)) ∧
    (cfg = .freertosCache .prioNone → (∀ t, ¬(s.calls t).Taking) →
      s.semGetvalue cfg = some (s.balance value) ∧
      ∀ t w, s.calls t = .idle →
        ((∃ s', s.wait cfg t w = some s' ∧ s'.calls t = .idle) ↔ 0 < s.balance value)) := by
  refine ⟨?_, ?_, ?_⟩
  · exact h.invariant (P := Honest) (by simp [Honest, start]) fun s a s' hs ha => step_honest hs ha
  · intro hplain
    have hstart : (start cfg value : Sys T).Plain value := by
      rcases hplain with rfl | rfl <;> simp [Plain, start, successes, Config.kernelCount]
    have hinv : s.Plain value := h.invariant hstart fun s a s' hs ha => step_plain hplain hs ha
    exact hinv.observed hplain
  · rintro rfl hnone
    have hsmall : value < 2 ^ 31 := Nat.lt_of_le_of_lt hvalue (by decide)
    have hinv : s.Cached value := h.invariant (start_cached hsmall) fun s a s' hs ha =>
      step_cached hs ha
    exact hinv.observed hnone

/-- Over FreeRTOS, a token is posted, and of two waits one takes it and the other gives up. -/
theorem tokens_conserved_two :
    ∃ s : Sys Bool, Reaches (step .freertos) (Keeps .freertos) (start .freertos 0) s ∧
      s.done.map (fun d => (d.ret, d.consumed)) = [(0, 1), (-1, 0)] ∧
      s.semGetvalue .freertos = some (s.balance 0) := by
  have hrun : ([.post true, .give true, .wait true .wait, .wait false (.timedwait (some (.ticks 1))),
      .take true .ok, .take false .timeout].foldlM (step .freertos) (start .freertos 0 : Sys Bool)).map
      (fun s => s.done.map fun d => (d.ret, d.consumed)) = some [(0, 1), (-1, 0)] := by decide
  obtain ⟨s, hs, hdone⟩ := Option.map_eq_some_iff.mp hrun
  have hreach : Reaches (step .freertos) (Keeps .freertos) (start .freertos 0) s :=
    Reaches.of_foldlM_of_forall _ hs fun _ _ _ => trivial
  have hall := tokens_conserved (by simp) (by simp [Config.max]) hreach
  exact ⟨s, hreach, hdone, (hall.2.1 (.inr rfl)).1⟩

/--
Over RT-Thread, `sem_timedwait` takes a token and returns -1, and returns 0 without one where the
kernel reports an error. With the cache, `sem_trywait` without a token leaves the value at -1.
-/
theorem tokens_not_conserved :
    (([.wait () (.timedwait (some (.ticks 1))), .take () .ok].foldlM (step .rtthread)
      (start .rtthread 1 : Sys Unit)).map fun s => (s.done.map fun d => (d.ret, d.consumed),
        s.semGetvalue .rtthread, s.balance 1)) = some ([(-1, 1)], some 0, 1) ∧
    (([.wait () (.timedwait (some (.ticks 1))), .take () .error].foldlM (step .rtthread)
      (start .rtthread 0 : Sys Unit)).map fun s => (s.done.map fun d => (d.ret, d.consumed),
        s.semGetvalue .rtthread, s.balance 0)) = some ([(0, 0)], some 0, -1) ∧
    (([.wait () (.trywait .past), .take () .timeout].foldlM (step (.freertosCache .prioNone))
      (start (.freertosCache .prioNone) 0 : Sys Unit)).map fun s =>
        (s.calls (), s.done.map fun d => (d.ret, d.consumed),
          s.semGetvalue (.freertosCache .prioNone), s.balance 0))
      = some (.idle, [(-1, 0)], some (-1), 0) := by
  decide

end Gpmx.Semaphore.Tokens
