import Gpmx.Vfs.Poll
import Mathlib

/-!
# What `nx_poll` returns, and what it leaves behind

Every entry has its own calls of `file_poll`; they are read off the record of a whole call of `nx_poll`.
-/

namespace Gpmx.Vfs.Poll

open Option List

open Gpmx.Semaphore.Tokens (Config Outcome Errno)

variable {cfg : Config} {env : Env} {fds f : PollFd} {pre rest l : List PollFd} {file : File} {i k : Nat}
  {b : Bool} {ret timeout : Int} {r : Run} {res : Result}

/-! ## The record of one entry -/

def own (k : Nat) (calls : List Call) : List Call := calls.filter fun c => c.entry = k

@[simp] theorem own_append {cs ds : List Call} : own k (cs ++ ds) = own k cs ++ own k ds :=
  filter_append ..

@[simp] theorem own_nil : own k [] = [] := rfl

section Loop

variable {α : Type} {g : Nat → α → List Call}

theorem own_loop_before (hg : ∀ i a, ∀ c ∈ g i a, c.entry = i) (l : List α) (h : k < i) :
    own k ((l.zipIdx i).flatMap fun p => g p.2 p.1) = [] := by
  rw [own, filter_eq_nil_iff]
  intro c hc
  obtain ⟨p, hp, hc⟩ := mem_flatMap.mp hc
  have hle := le_snd_of_mem_zipIdx hp
  simp [hg _ _ c hc]
  omega

theorem own_loop (hg : ∀ i a, ∀ c ∈ g i a, c.entry = i) (l : List α) :
    own (i + k) ((l.zipIdx i).flatMap fun p => g p.2 p.1) = (l[k]?.map (g (i + k))).getD [] := by
  induction l generalizing i k with
  | nil => rfl
  | cons a l ih =>
    rw [zipIdx_cons, flatMap_cons, own_append]
    cases k with
    | zero =>
      have hhead : own (i + 0) (g i a) = g i a := by
        rw [own, filter_eq_self]
        intro c hc
        simp [hg i a c hc]
      rw [own_loop_before hg l (show i + 0 < i + 1 by omega), hhead]
      simp
    | succ k =>
      have hhead : own (i + (k + 1)) (g i a) = [] := by
        rw [own, filter_eq_nil_iff]
        intro c hc
        simp [hg i a c hc]
      rw [hhead, show i + (k + 1) = i + 1 + k by omega, ih]
      simp

end Loop

/-! ## Setting up -/

def setUp (env : Env) (i : Nat) (fds : PollFd) : Step := process env i true 0 (fds.reset env.sem)

def setUps (env : Env) (i : Nat) (l : List PollFd) : List Step :=
  (l.zipIdx i).map fun p => setUp env p.2 p.1

def SetsUp (env : Env) (i : Nat) (l : List PollFd) : Prop := ∀ s ∈ setUps env i l, 0 ≤ s.ret

instance : Decidable (SetsUp env i l) := inferInstanceAs (Decidable (∀ s ∈ setUps env i l, 0 ≤ s.ret))

@[simp] theorem setUps_nil : setUps env i [] = [] := rfl

@[simp] theorem setUps_cons : setUps env i (fds :: l) = setUp env i fds :: setUps env (i + 1) l := rfl

theorem setsUp_cons : SetsUp env i (fds :: l) ↔ 0 ≤ (setUp env i fds).ret ∧ SetsUp env (i + 1) l := by
  simp [SetsUp]

@[simp] theorem getElem?_setUps : (setUps env i l)[k]? = l[k]?.map (setUp env (i + k)) := by
  simp [setUps, Function.comp_def]

@[simp] theorem setUp_sem : (setUp env i fds).fds.sem = some env.sem := process_sem

@[simp] theorem fileOf_setUp : env.fileOf (setUp env i fds).fds = env.fileOf fds := by
  simp [setUp]

@[simp] theorem skipped_setUp : (setUp env i fds).fds.Skipped ↔ fds.Skipped := by
  simp [setUp]

theorem setUp_calls : (setUp env i fds).calls =
    if (env.fileOf fds).isSome then [⟨i, true, (setUp env i fds).ret⟩] else [] := by
  simp [setUp, process_calls]

theorem file_or_skipped (h : 0 ≤ (setUp env i fds).ret) : (env.fileOf fds).isSome ∨ fds.Skipped := by
  rcases process_cases env (fds.reset env.sem) with ⟨file, hf, -⟩ | ⟨-, hs, -⟩ | ⟨-, -, e, he, hp⟩
  · left
    rw [← @fileOf_reset env fds env.sem, hf]
    rfl
  · exact .inr ((skipped_reset _).mp hs)
  · rw [setUp, hp] at h
    exact absurd he (by simpa using h)

theorem setUp_fds : (setUp env i fds).fds.fd = fds.fd ∧ (setUp env i fds).fds.ptr = fds.ptr ∧
    (setUp env i fds).fds.events &&& POLLMASK = fds.events &&& POLLMASK := by
  obtain ⟨revents, priv, h⟩ := @process_fds env (fds.reset env.sem) i true 0
  rw [setUp, h]
  exact ⟨rfl, rfl, reset_mask env.sem⟩

theorem setupLoop_append (h : SetsUp env i pre) (hret : 0 ≤ ret) (before : List PollFd) (posts : Nat)
    (calls : List Call) (rest : List PollFd) : ∃ ret', 0 ≤ ret' ∧
    setupLoop env i ret before posts calls (pre ++ rest) =
      setupLoop env (i + pre.length) ret' (before ++ (setUps env i pre).map Step.fds)
        (posts + ((setUps env i pre).map Step.posts).sum)
        (calls ++ (setUps env i pre).flatMap Step.calls) rest := by
  induction pre generalizing i ret before posts calls with
  | nil => exact ⟨ret, hret, by simp⟩
  | cons fds pre ih =>
    obtain ⟨hfds, hpre⟩ := setsUp_cons.mp h
    obtain ⟨hsame, hposts, hcalls, hsign⟩ := @process_ret env (fds.reset env.sem) i true ret
    have hle : 0 ≤ (process env i true ret (fds.reset env.sem)).ret := (hsign hret).mpr hfds
    obtain ⟨ret', hret', heq⟩ := ih hpre hle (before ++ [(setUp env i fds).fds])
      (posts + (setUp env i fds).posts) (calls ++ (setUp env i fds).calls)
    refine ⟨ret', hret', ?_⟩
    rw [cons_append, setupLoop, if_neg (by omega), hsame, hposts, hcalls]
    rw [show i + (fds :: pre).length = i + 1 + pre.length by simp; omega]
    simpa [setUp, Nat.add_assoc] using heq

theorem pollSetup_ok (h : SetsUp env 0 l) :
    pollSetup env l = some ⟨0, (setUps env 0 l).map Step.fds, ((setUps env 0 l).map Step.posts).sum,
      (setUps env 0 l).flatMap Step.calls⟩ := by
  obtain ⟨ret', -, heq⟩ := setupLoop_append h (Int.le_refl 0) [] 0 [] []
  rw [append_nil] at heq
  rw [pollSetup, heq]
  simp [setupLoop]

theorem setsUp_or_refused (env : Env) (i : Nat) (l : List PollFd) : SetsUp env i l ∨
    ∃ pre f rest, l = pre ++ f :: rest ∧ SetsUp env i pre ∧ (setUp env (i + pre.length) f).ret < 0 := by
  induction l generalizing i with
  | nil => exact .inl (by simp [SetsUp])
  | cons fds l ih =>
    by_cases hfds : 0 ≤ (setUp env i fds).ret
    · rcases ih (i + 1) with h | ⟨pre, f, rest, rfl, hpre, hf⟩
      · exact .inl (setsUp_cons.mpr ⟨hfds, h⟩)
      · refine .inr ⟨fds :: pre, f, rest, rfl, setsUp_cons.mpr ⟨hfds, hpre⟩, ?_⟩
        rw [length_cons, show i + (pre.length + 1) = i + 1 + pre.length by omega]
        exact hf
    · exact .inr ⟨[], fds, l, rfl, by simp [SetsUp], Int.not_le.mp hfds⟩

theorem pollSetup_refused (hpre : SetsUp env 0 pre) (hf : (setUp env pre.length f).ret < 0) :
    ∃ ret < 0, ∃ failed posts, pollSetup env (pre ++ f :: rest) =
      (undoLoop env 0 ((setUps env 0 pre).map Step.fds)).map fun u =>
        ⟨ret, u.1 ++ failed :: rest, posts,
          (setUps env 0 pre).flatMap Step.calls ++ (setUp env pre.length f).calls ++ u.2⟩ := by
  obtain ⟨ret', hret', heq⟩ := setupLoop_append hpre (Int.le_refl 0) [] 0 [] (f :: rest)
  obtain ⟨-, -, hcalls, hsign⟩ := @process_ret env (f.reset env.sem) pre.length true ret'
  have hneg : (process env pre.length true ret' (f.reset env.sem)).ret < 0 := by
    have hiff := hsign hret'
    rw [setUp] at hf
    omega
  let s := process env pre.length true ret' (f.reset env.sem)
  refine ⟨s.ret, hneg, { s.fds with revents := s.fds.revents ||| POLLERR },
    0 + ((setUps env 0 pre).map Step.posts).sum + s.posts, ?_⟩
  rw [pollSetup, heq, Nat.zero_add, setupLoop, if_pos hneg, hcalls, nil_append, nil_append]
  cases undoLoop env 0 ((setUps env 0 pre).map Step.fds) <;> rfl

/-! ## Taking back what was set up -/

theorem pollFdsetup_neg (h : fds.fd < 0) : (pollFdsetup env i fds b).fds = fds ∧
    (pollFdsetup env i fds b).calls = [] := by
  have herr : ∃ e, fsGetfilep env fds.fd = .error e := by
    unfold fsGetfilep
    split
    · exact ⟨_, rfl⟩
    · exact ⟨_, if_pos h⟩
  obtain ⟨e, herr⟩ := herr
  simp [pollFdsetup, herr]

theorem pollFdsetup_sem : (pollFdsetup env i fds b).fds.sem = fds.sem := by
  unfold pollFdsetup
  split
  · rfl
  · next file _ =>
    obtain ⟨revents, priv, h⟩ := @filePoll_fds env fds file i b
    rw [h]

theorem undoLoop_neg (h : ∀ f ∈ l, f.events &&& POLLMASK = POLLFD ∧ f.fd < 0) :
    undoLoop env i l = some (l, []) := by
  induction l generalizing i with
  | nil => rfl
  | cons fds l ih =>
    obtain ⟨hmask, hneg⟩ := h fds mem_cons_self
    obtain ⟨hsame, hcalls⟩ := @pollFdsetup_neg env fds i false hneg
    have hrest := @ih (i + 1) fun f hf => h f (mem_cons_of_mem _ hf)
    simp [undoLoop, undoOne, hmask, hsame, hcalls, hrest]

theorem undoLoop_spec {u : List PollFd} {calls : List Call} (h : undoLoop env i l = some (u, calls)) :
    u.map PollFd.sem = l.map PollFd.sem ∧
    ∀ f ∈ l, f.events &&& POLLMASK = POLLFILE → f.ptr ≠ none := by
  induction l generalizing i u calls with
  | nil =>
    cases h
    simp
  | cons fds l ih =>
    rw [undoLoop] at h
    simp only [bind_eq_bind, bind_eq_some_iff] at h
    obtain ⟨s, hs, ⟨u', calls'⟩, hrest, heq⟩ := h
    cases heq
    obtain ⟨hsems, hptrs⟩ := ih hrest
    have hfds : s.fds.sem = fds.sem ∧ (fds.events &&& POLLMASK = POLLFILE → fds.ptr ≠ none) := by
      unfold undoOne at hs
      split_ifs at hs with hfd hfile
      · cases hs
        refine ⟨pollFdsetup_sem, fun hfile => absurd (hfd.symm.trans hfile) (by decide)⟩
      · obtain ⟨file, hptr, rfl⟩ := map_eq_some_iff.mp hs
        obtain ⟨revents, priv, hf⟩ := @filePoll_fds env fds file i false
        exact ⟨by rw [hf], fun _ => by simp [hptr]⟩
      · cases hs
        exact ⟨rfl, fun h => absurd h hfile⟩
    refine ⟨by simp [hfds.1, hsems], fun f hf => ?_⟩
    rcases mem_cons.mp hf with rfl | hf
    · exact hfds.2
    · exact hptrs f hf

/-! ## Tearing down -/

theorem teardown_calls (env : Env) (i : Nat) (status ret : Int) (l : List PollFd) :
    (teardownLoop env i status ret l).calls =
      (l.zipIdx i).flatMap fun p => (process env p.2 false 0 p.1).calls := by
  induction l generalizing i status ret with
  | nil => rfl
  | cons fds l ih =>
    obtain ⟨-, -, hcalls, -⟩ := @process_ret env fds i false status
    simp [teardownLoop, ih, hcalls]

theorem teardown_sem : ∀ f ∈ (teardownLoop env i ret timeout l).fds, f.sem = none := by
  induction l generalizing i ret timeout with
  | nil => simp [teardownLoop]
  | cons fds l ih => simpa [teardownLoop] using ih

theorem length_teardown (env : Env) (i : Nat) (status ret : Int) (l : List PollFd) :
    (teardownLoop env i status ret l).fds.length = l.length := by
  induction l generalizing i status ret with
  | nil => rfl
  | cons fds l ih => simp [teardownLoop, ih]

theorem teardown_count (env : Env) (i : Nat) (status ret : Int) (l : List PollFd) :
    (teardownLoop env i status ret l).count =
      (teardownLoop env i status ret l).fds.countP fun f => f.revents ≠ 0 := by
  induction l generalizing i status ret with
  | nil => rfl
  | cons fds l ih =>
    simp only [teardownLoop, countP_cons, ih]
    split <;> simp_all

theorem teardown_ret (hl : ∀ f ∈ l, (env.fileOf f).isSome ∨ f.Skipped) {status : Int}
    (hst : status < 0 → ret < 0) : (teardownLoop env i status ret l).ret < 0 ↔
      ret < 0 ∨ ∃ c ∈ (teardownLoop env i status ret l).calls, c.ret < 0 := by
  induction l generalizing i status ret with
  | nil => simp [teardownLoop]
  | cons fds l ih =>
    have hrest := fun f hf => hl f (mem_cons_of_mem _ hf)
    have hcalls := @process_calls env fds i false status
    have hkept : env.fileOf fds = none → (process env i false status fds).ret = status := by
      intro hnone
      rcases process_cases env fds with ⟨_, hf, -⟩ | ⟨-, -, hp⟩ | ⟨-, hskip, -⟩
      · cases hf.symm.trans hnone
      · rw [hp]
      · rcases hl fds mem_cons_self with hf | hs
        · simp [hnone] at hf
        · exact absurd hs hskip
    have hst' : (process env i false status fds).ret < 0 →
        (if (process env i false status fds).ret < 0 then (process env i false status fds).ret
          else ret) < 0 := by
      intro h
      rw [if_pos h]
      exact h
    simp only [teardownLoop, ih hrest hst', hcalls]
    cases hfile : env.fileOf fds with
    | some file =>
      by_cases hneg : (process env i false status fds).ret < 0 <;> simp [hneg]
    | none =>
      rw [hkept hfile]
      by_cases hneg : status < 0
      · simp [hneg, hst hneg]
      · simp [hneg]

/-! ## The whole call -/

def pending (env : Env) (i : Nat) (fds : PollFd) : PollFd := env.meanwhile i (setUp env i fds).fds

def pendings (env : Env) (l : List PollFd) : List PollFd :=
  ((setUps env 0 l).map Step.fds).zipIdx.map fun p => env.meanwhile p.2 p.1

@[simp] theorem getElem?_pendings : (pendings env l)[k]? = l[k]?.map (pending env k) := by
  simp [pendings, Function.comp_def]
  rfl

@[simp] theorem fileOf_pending : env.fileOf (pending env i fds) = env.fileOf fds := by
  simp [pending]

theorem pending_file_or_skipped (h : SetsUp env 0 l) :
    ∀ f ∈ pendings env l, (env.fileOf f).isSome ∨ f.Skipped := by
  intro f hf
  obtain ⟨k, hk⟩ := mem_iff_getElem?.mp hf
  rw [getElem?_pendings, map_eq_some_iff] at hk
  obtain ⟨g, hg, rfl⟩ := hk
  have hret : 0 ≤ (setUp env k g).ret := by
    refine h _ (mem_iff_getElem?.mpr ⟨k, ?_⟩)
    simp [hg]
  simpa [pending] using file_or_skipped hret

def tornDown (cfg : Config) (env : Env) (l : List PollFd) (timeout : Int) : Teardown :=
  pollTeardown env (waitRet cfg env ((setUps env 0 l).map Step.posts).sum timeout) (pendings env l)

theorem merged_ret {t : Teardown} {p : Prop} [Decidable p] {n : Nat} (ht : t.ret < 0 ↔ p)
    (hret : ret < 0 → p) (hn : t.count = n) :
    if p then
      (if (if t.ret < 0 ∧ ret ≥ 0 then t.ret else ret) < 0 then
        if t.ret < 0 ∧ ret ≥ 0 then t.ret else ret else (t.count : Int)) < 0
    else
      (if (if t.ret < 0 ∧ ret ≥ 0 then t.ret else ret) < 0 then
        if t.ret < 0 ∧ ret ≥ 0 then t.ret else ret else (t.count : Int)) = n := by
  by_cases hp : p
  · have hneg := ht.mpr hp
    rw [if_pos hp]
    split_ifs <;> omega
  · have hneg := mt ht.mp hp
    have hret' := mt hret hp
    rw [if_neg hp]
    split_ifs <;> omega

theorem nxPoll_setsUp (h : SetsUp env 0 l) : ∃ ret, nxPoll cfg env l timeout =
    some ⟨ret, (tornDown cfg env l timeout).fds,
      (setUps env 0 l).flatMap Step.calls ++ (tornDown cfg env l timeout).calls⟩ ∧
    if waitRet cfg env ((setUps env 0 l).map Step.posts).sum timeout < 0 ∨
        ∃ c ∈ (tornDown cfg env l timeout).calls, c.ret < 0 then ret < 0
    else ret = (tornDown cfg env l timeout).fds.countP fun f => f.revents ≠ 0 := by
  have hneg := @teardown_ret env (pendings env l) 0
    (waitRet cfg env ((setUps env 0 l).map Step.posts).sum timeout) (pending_file_or_skipped h) 0
    (fun h => absurd h (by decide))
  have hcount := teardown_count env 0 0
    (waitRet cfg env ((setUps env 0 l).map Step.posts).sum timeout) (pendings env l)
  simp only [nxPoll, pollSetup_ok h, bind_eq_bind, bind_some]
  rw [if_pos (by decide)]
  refine ⟨_, rfl, ?_⟩
  exact merged_ret hneg Or.inl hcount

/-! ## What the call ought to do -/

/-- `file_poll` has set the entry `k` up. -/
def IsSetUp (res : Result) (k : Nat) : Prop := ∃ c ∈ own k res.calls, c.setup = true ∧ 0 ≤ c.ret

/-- How often the entry `k` has been torn down. -/
def timesTornDown (res : Result) (k : Nat) : Nat := (own k res.calls).countP fun c => c.setup = false

def Undone (res : Result) (k : Nat) : Prop :=
  (IsSetUp res k → timesTornDown res k = 1 ∧ ∃ fds, res.fds[k]? = some fds ∧ fds.sem = none) ∧
  (¬IsSetUp res k → timesTornDown res k = 0)

/-- The number of the entries with events is returned, or that a teardown has failed. -/
def Reports (res : Result) : Prop :=
  if ∃ c ∈ res.calls, c.setup = false ∧ c.ret < 0 then res.ret < 0
  else res.ret = res.fds.countP fun f => f.revents ≠ 0

def Expires (env : Env) (l : List PollFd) (timeout : Int) : Prop :=
  timeout = 0 ∨ 0 < timeout ∧ (∀ s ∈ setUps env 0 l, s.posts = 0) ∧ env.outcome = .timeout

/-- `nx_poll` returns, undoes its setup, and reports a timeout. -/
def Right (cfg : Config) (env : Env) (l : List PollFd) (timeout : Int) : Prop :=
  ∃ res, nxPoll cfg env l timeout = some res ∧ (∀ k, Undone res k) ∧
    (SetsUp env 0 l → Expires env l timeout → Reports res)

def TeardownFails (env : Env) (l : List PollFd) : Prop :=
  ∃ k fds file, l[k]? = some fds ∧ env.fileOf fds = some file ∧
    (filePoll env k file (pending env k fds) false).ret < 0

/-- Before the first entry that is refused only negative descriptors stand; and if none is refused, a wait
does not run into its timeout, unless a teardown fails after it. -/
def Untroubled (env : Env) (l : List PollFd) (timeout : Int) : Prop :=
  (∀ pre f rest, l = pre ++ f :: rest → SetsUp env 0 pre → (setUp env pre.length f).ret < 0 →
    ∀ g ∈ pre, g.events &&& POLLMASK = POLLFD ∧ g.fd < 0) ∧
  (SetsUp env 0 l → 0 < timeout → Expires env l timeout → TeardownFails env l)

/-! ## The entries of a call -/

theorem own_setUps : own k ((setUps env 0 l).flatMap Step.calls) =
    (l[k]?.map fun f => (setUp env k f).calls).getD [] := by
  have hentry : ∀ i f, ∀ c ∈ (setUp env i f).calls, c.entry = i := by
    intro i f c hc
    rw [setUp_calls] at hc
    split at hc
    · rw [mem_singleton.mp hc]
    · cases hc
  have hown := @own_loop 0 k _ (fun i f => (setUp env i f).calls) hentry l
  simpa [setUps, flatMap_map] using hown

theorem own_tornDown : own k (tornDown cfg env l timeout).calls =
    (l[k]?.map fun f => (process env k false 0 (pending env k f)).calls).getD [] := by
  have hentry : ∀ i f, ∀ c ∈ (process env i false 0 f).calls, c.entry = i := by
    intro i f c hc
    rw [process_calls] at hc
    split at hc
    · rw [mem_singleton.mp hc]
    · cases hc
  have hown := @own_loop 0 k _ (fun i f => (process env i false 0 f).calls) hentry (pendings env l)
  rw [tornDown, pollTeardown, teardown_calls]
  simpa [Function.comp_def] using hown

theorem setup_of_setUps {c : Call} (hc : c ∈ (setUps env 0 l).flatMap Step.calls) : c.setup = true := by
  obtain ⟨s, hs, hc⟩ := mem_flatMap.mp hc
  obtain ⟨k, hk⟩ := mem_iff_getElem?.mp hs
  rw [getElem?_setUps, map_eq_some_iff] at hk
  obtain ⟨f, -, rfl⟩ := hk
  rw [setUp_calls] at hc
  split at hc
  · rw [mem_singleton.mp hc]
  · cases hc

theorem mem_tornDown {c : Call} : c ∈ (tornDown cfg env l timeout).calls ↔
    ∃ k fds file, l[k]? = some fds ∧ env.fileOf fds = some file ∧
      c = ⟨k, false, (filePoll env k file (pending env k fds) false).ret⟩ := by
  rw [tornDown, pollTeardown, teardown_calls]
  simp only [mem_flatMap, Prod.exists, mk_mem_zipIdx_iff_getElem?, getElem?_pendings,
    map_eq_some_iff]
  constructor
  · rintro ⟨_, k, ⟨fds, hk, rfl⟩, hc⟩
    rw [process_calls, fileOf_pending] at hc
    cases hf : env.fileOf fds with
    | none => simp [hf] at hc
    | some file =>
      refine ⟨k, fds, file, hk, hf, ?_⟩
      rw [process_of_file (by rw [fileOf_pending, hf])] at hc
      simpa [hf] using hc
  · rintro ⟨k, fds, file, hk, hf, rfl⟩
    refine ⟨_, k, ⟨fds, hk, rfl⟩, ?_⟩
    rw [process_of_file (by rw [fileOf_pending, hf]), filePoll_calls]
    exact mem_singleton_self _

theorem teardownFails_iff : TeardownFails env l ↔
    ∃ c ∈ (setUps env 0 l).flatMap Step.calls ++ (tornDown cfg env l timeout).calls,
      c.setup = false ∧ c.ret < 0 := by
  constructor
  · rintro ⟨k, fds, file, hk, hf, hret⟩
    exact ⟨_, mem_append_right _ (mem_tornDown.mpr ⟨k, fds, file, hk, hf, rfl⟩), rfl, hret⟩
  · rintro ⟨c, hc, hsetup, hret⟩
    rcases mem_append.mp hc with hc | hc
    · rw [setup_of_setUps hc] at hsetup
      cases hsetup
    · obtain ⟨k, fds, file, hk, hf, rfl⟩ := mem_tornDown.mp hc
      exact ⟨k, fds, file, hk, hf, hret⟩

theorem undone_setsUp (h : SetsUp env 0 l) (hcalls : res.calls =
      (setUps env 0 l).flatMap Step.calls ++ (tornDown cfg env l timeout).calls)
    (hfds : res.fds = (tornDown cfg env l timeout).fds) (k : Nat) : Undone res k := by
  have hown : own k res.calls = (l[k]?.map fun f => (setUp env k f).calls).getD [] ++
      (l[k]?.map fun f => (process env k false 0 (pending env k f)).calls).getD [] := by
    rw [hcalls, own_append, own_setUps, own_tornDown]
  unfold Undone IsSetUp timesTornDown
  rw [hown]
  cases hk : l[k]? with
  | none => simp
  | some f =>
    cases hf : env.fileOf f with
    | none => simp [setUp_calls, process_calls, hf]
    | some file =>
      have hret : 0 ≤ (setUp env k f).ret := by
        refine h _ (mem_iff_getElem?.mpr ⟨k, ?_⟩)
        simp [hk]
      have hlen : k < res.fds.length := by
        rw [hfds, tornDown, pollTeardown, length_teardown]
        have hlt := (List.getElem?_eq_some_iff.mp hk).1
        simpa [pendings, setUps] using hlt
      have hcleared : res.fds[k].sem = none := by
        refine teardown_sem _ (?_ : res.fds[k] ∈ (tornDown cfg env l timeout).fds)
        rw [← hfds]
        exact getElem_mem hlen
      simp [setUp_calls, process_calls, hf, hret, getElem?_eq_getElem hlen, hcleared]

/-! ## The result of the wait -/

@[simp] theorem waitRet_zero (posts : Nat) : waitRet cfg env posts 0 = 0 := rfl

theorem waitRet_expired (hpos : 0 < timeout) (ho : env.outcome = .timeout) :
    waitRet cfg env 0 timeout = -1 := by
  have hne : timeout ≠ 0 := by omega
  cases cfg <;>
    simp [waitRet, hne, hpos, Env.waited, ho, Config.returns, Semaphore.Tokens.rtReturn,
      Semaphore.Tokens.freertosReturn, Errno.code]

/-! ## A refused entry -/

theorem exists_index {g : PollFd} (hpre : SetsUp env 0 pre) (hg : g ∈ pre) :
    ∃ k, pre[k]? = some g ∧ (setUps env 0 pre)[k]? = some (setUp env k g) ∧ 0 ≤ (setUp env k g).ret := by
  obtain ⟨k, hk⟩ := mem_iff_getElem?.mp hg
  have hs : (setUps env 0 pre)[k]? = some (setUp env k g) := by simp [hk]
  exact ⟨k, hk, hs, hpre _ (mem_of_getElem? hs)⟩

theorem neg_of_undone (hpre : SetsUp env 0 pre) (hf : (setUp env pre.length f).ret < 0)
    (hres : nxPoll cfg env (pre ++ f :: rest) timeout = some res) (hu : ∀ k, Undone res k) :
    ∀ g ∈ pre, g.events &&& POLLMASK = POLLFD ∧ g.fd < 0 := by
  obtain ⟨ret, hret, failed, posts, hsetup⟩ := @pollSetup_refused env f pre rest hpre hf
  cases hundo : undoLoop env 0 ((setUps env 0 pre).map Step.fds) with
  | none =>
    rw [hundo] at hsetup
    simp [nxPoll, hsetup] at hres
  | some u =>
    obtain ⟨undone, calls⟩ := u
    rw [hundo] at hsetup
    have hneg : ¬ret ≥ 0 := by omega
    simp only [nxPoll, hsetup, map_some, bind_eq_bind, bind_some, if_neg hneg,
      some.injEq] at hres
    subst hres
    obtain ⟨hsems, hptrs⟩ := undoLoop_spec hundo
    intro g hg
    obtain ⟨k, hk, hs, hle⟩ := exists_index hpre hg
    obtain ⟨hfd, hptr, hmask⟩ := @setUp_fds env g k
    rcases file_or_skipped hle with hfile | hneg | hnull
    · -- the entry was set up, and its semaphore is still there
      have hcall : (⟨k, true, (setUp env k g).ret⟩ : Call) ∈
          own k ((setUps env 0 pre).flatMap Step.calls) := by
        rw [own_setUps]
        simp [hk, setUp_calls, hfile]
      have hset : IsSetUp ⟨ret, undone ++ failed :: rest, (setUps env 0 pre).flatMap Step.calls ++
          (setUp env pre.length f).calls ++ calls⟩ k := by
        refine ⟨⟨k, true, (setUp env k g).ret⟩, ?_, rfl, hle⟩
        rw [own_append, own_append]
        exact mem_append_left _ (mem_append_left _ hcall)
      obtain ⟨-, fds, hfds, hsem⟩ := (hu k).1 hset
      have hlen : k < undone.length := by
        have hlt := (List.getElem?_eq_some_iff.mp hk).1
        have hsame := congrArg List.length hsems
        simp [setUps] at hsame
        omega
      rw [getElem?_append_left hlen] at hfds
      have hkept := congrArg (·[k]?) hsems
      simp [hfds, hsem, hk] at hkept
    · exact hneg
    · have hmem : (setUp env k g).fds ∈ (setUps env 0 pre).map Step.fds :=
        mem_map_of_mem (mem_of_getElem? hs)
      exact absurd (hptr.trans hnull.2) (hptrs _ hmem (hmask.trans hnull.1))

theorem undone_of_neg (hpre : SetsUp env 0 pre) (hf : (setUp env pre.length f).ret < 0)
    (hneg : ∀ g ∈ pre, g.events &&& POLLMASK = POLLFD ∧ g.fd < 0) :
    ∃ res, nxPoll cfg env (pre ++ f :: rest) timeout = some res ∧ ∀ k, Undone res k := by
  obtain ⟨ret, hret, failed, posts, hsetup⟩ := @pollSetup_refused env f pre rest hpre hf
  have hundo : undoLoop env 0 ((setUps env 0 pre).map Step.fds)
      = some ((setUps env 0 pre).map Step.fds, []) := by
    refine undoLoop_neg fun g' hg' => ?_
    obtain ⟨s, hs, rfl⟩ := mem_map.mp hg'
    obtain ⟨k, hk⟩ := mem_iff_getElem?.mp hs
    rw [getElem?_setUps, map_eq_some_iff] at hk
    obtain ⟨g, hg, rfl⟩ := hk
    obtain ⟨hfd, -, hmask⟩ := @setUp_fds env g (0 + k)
    rw [hfd, hmask]
    exact hneg g (mem_of_getElem? hg)
  have hnone : (setUps env 0 pre).flatMap Step.calls = [] := by
    rw [flatMap_eq_nil_iff]
    intro s hs
    obtain ⟨k, hk⟩ := mem_iff_getElem?.mp hs
    rw [getElem?_setUps, map_eq_some_iff] at hk
    obtain ⟨g, hg, rfl⟩ := hk
    obtain ⟨hmask, hlt⟩ := hneg g (mem_of_getElem? hg)
    have hfile : env.fileOf g = none := by simp [Env.fileOf, hmask, hlt]
    simp [setUp_calls, hfile]
  refine ⟨⟨ret, (setUps env 0 pre).map Step.fds ++ failed :: rest, (setUp env pre.length f).calls⟩, ?_, ?_⟩
  · have hlt : ¬ret ≥ 0 := by omega
    simp [nxPoll, hsetup, hundo, hnone, hlt]
  · intro k
    have hcall : ∀ c ∈ own k (setUp env pre.length f).calls, c.setup = true ∧ c.ret < 0 := by
      intro c hc
      have hc := (mem_filter.mp hc).1
      rw [setUp_calls] at hc
      split at hc
      · rw [mem_singleton.mp hc]
        exact ⟨rfl, hf⟩
      · cases hc
    refine ⟨?_, fun _ => ?_⟩
    · rintro ⟨c, hc, _, hle⟩
      exact absurd (hcall c hc).2 (by omega)
    rw [timesTornDown, countP_eq_zero]
    intro c hc
    simp [(hcall c hc).1]

/-! ## When the call is right -/

theorem setsUp_not_refused (h : SetsUp env 0 (pre ++ f :: rest)) : 0 ≤ (setUp env pre.length f).ret := by
  refine h _ (mem_iff_getElem?.mpr ⟨pre.length, ?_⟩)
  simp

/-- A task with one open descriptor, for a driver that has no events and never fails. -/
def quiet : Env where
  files := some [⟨some ⟨.driver, true⟩⟩]
  poll := fun _ _ fds => ⟨0, fds.revents, fds.priv, 0⟩
  arrive := fun _ => 0
  outcome := .timeout
  sem := 0
  msecPerTick := 1

def reading (fd : Int) : PollFd := ⟨fd, POLLIN, 0, none, none, none⟩

end Gpmx.Vfs.Poll
