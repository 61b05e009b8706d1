import Gpmx.PseudoFs.Tree
import Gpmx.Semaphore.Tokens
import Mathlib

/-!
# VFS: polling

`gpm/fs/vfs/fs_poll.c`, with `fs_getfilep` of `gpm/fs/inode/fs_files.c`. A call of `nx_poll` sets up the
entries of its array one after the other, waits on a semaphore of its own and tears the entries down.

What the drivers answer, what they bring up while the call waits and how the wait ends is not decided
here: it is in `Env`, and so is the table of descriptors, which stays as it is during the call. A record
is kept of the calls of `file_poll`. `none` is a step through a null pointer.
-/

namespace Gpmx.Vfs.Poll

open Gpmx.PseudoFs (NodeType)
open Gpmx.Semaphore.Tokens (Config Outcome Errno)

def EBADF : Int := 9
def EAGAIN : Int := 11
def EINVAL : Int := 22
def ENOSYS : Int := 38

/-- `pollevent_t` -/
abbrev Events := BitVec 32

def POLLIN : Events := 0x01
def POLLOUT : Events := 0x04
def POLLERR : Events := 0x08
def POLLHUP : Events := 0x10
def POLLFD : Events := 0x00
def POLLFILE : Events := 0x40
def POLLMASK : Events := 0xC0

/-- What `file_poll` looks at in an inode: its type, and whether there is a `poll` method. -/
structure PolledInode where
  iType : NodeType
  poll : Bool
deriving DecidableEq

structure File where
  inode : Option PolledInode
deriving DecidableEq

structure PollFd where
  fd : Int
  events : Events
  revents : Events
  ptr : Option File
  sem : Option Nat
  priv : Option Nat
deriving DecidableEq

/-- What a `poll` method returns, what it writes into the entry, and how often it posts. -/
structure Answer where
  ret : Int
  revents : Events
  priv : Option Nat
  posts : Nat

structure Env where
  /-- the list of files of the task, if it has one -/
  files : Option (List File)
  /-- the `poll` method of the driver of an entry -/
  poll : Nat → Bool → PollFd → Answer
  /-- the events that come up for an entry before it is torn down -/
  arrive : Nat → Events
  /-- what the kernel answers to a wait for which there is no token yet -/
  outcome : Outcome
  /-- the address of the semaphore -/
  sem : Nat
  /-- `MSEC_PER_TICK` -/
  msecPerTick : Nat

/-- A call of `file_poll`. -/
structure Call where
  entry : Nat
  setup : Bool
  ret : Int
deriving DecidableEq

structure Step where
  ret : Int
  fds : PollFd
  posts : Nat
  calls : List Call
deriving DecidableEq

/-! ## One entry -/

def fsGetfilep (env : Env) (fd : Int) : Except Int File :=
  match env.files with
  | none => .error (-EAGAIN)
  | some files =>
    if fd < 0 then .error (-EBADF)
    else
      match files[fd.toNat]? with
      | none => .error (-EBADF)
      | some file => if file.inode = none then .error (-EBADF) else .ok file

/-- `file_poll` for the entry `i` -/
def filePoll (env : Env) (i : Nat) (file : File) (fds : PollFd) (setup : Bool) : Step :=
  match file.inode with
  | none => ⟨0, { fds with revents := fds.revents ||| (POLLERR ||| POLLHUP) }, 1, [⟨i, setup, 0⟩]⟩
  | some inode =>
    match inode.iType with
    | .mountpt | .block | .mtd =>
      let revents :=
        if setup then fds.revents ||| (fds.events &&& (POLLIN ||| POLLOUT)) else fds.revents
      ⟨0, { fds with revents }, if setup = true ∧ revents ≠ 0 then 1 else 0, [⟨i, setup, 0⟩]⟩
    | .driver | .mqueue | .socket =>
      if inode.poll then
        let answer := env.poll i setup fds
        ⟨answer.ret, { fds with revents := answer.revents, priv := answer.priv }, answer.posts,
          [⟨i, setup, answer.ret⟩]⟩
      else ⟨-ENOSYS, fds, 0, [⟨i, setup, -ENOSYS⟩]⟩
    | _ => ⟨-ENOSYS, fds, 0, [⟨i, setup, -ENOSYS⟩]⟩

def pollFdsetup (env : Env) (i : Nat) (fds : PollFd) (setup : Bool) : Step :=
  match fsGetfilep env fds.fd with
  | .error ret => ⟨ret, fds, 0, []⟩
  | .ok file => filePoll env i file fds setup

/-- The `switch` of `poll_setup` and of `poll_teardown`. An entry that is passed over leaves the
variable for the result, `ret` or `status`, as it is. -/
def process (env : Env) (i : Nat) (setup : Bool) (ret : Int) (fds : PollFd) : Step :=
  if fds.events &&& POLLMASK = POLLFD then
    if fds.fd ≥ 0 then pollFdsetup env i fds setup else ⟨ret, fds, 0, []⟩
  else if fds.events &&& POLLMASK = POLLFILE then
    match fds.ptr with
    | some file => filePoll env i file fds setup
    | none => ⟨ret, fds, 0, []⟩
  else ⟨-EINVAL, fds, 0, []⟩

/-- What `poll_setup` writes before the `switch`. -/
def PollFd.reset (fds : PollFd) (sem : Nat) : PollFd :=
  { fds with
    sem := some sem, revents := 0, priv := none, events := fds.events ||| (POLLERR ||| POLLHUP) }

/-! ## The loops -/

structure Run where
  ret : Int
  fds : List PollFd
  posts : Nat
  calls : List Call

/-- The `switch` in the loop over `j`, which passes nothing over. -/
def undoOne (env : Env) (j : Nat) (fds : PollFd) : Option Step :=
  if fds.events &&& POLLMASK = POLLFD then some (pollFdsetup env j fds false)
  else if fds.events &&& POLLMASK = POLLFILE then fds.ptr.map fun file => filePoll env j file fds false
  else some ⟨0, fds, 0, []⟩

/-- The loop over `j`. -/
def undoLoop (env : Env) (j : Nat) : List PollFd → Option (List PollFd × List Call)
  | [] => some ([], [])
  | fds :: rest => do
    let s ← undoOne env j fds
    let (undone, calls) ← undoLoop env (j + 1) rest
    some (s.fds :: undone, s.calls ++ calls)

/-- The loop of `poll_setup` from the entry `i` on, with the entries before it. -/
def setupLoop (env : Env) (i : Nat) (ret : Int) (before : List PollFd) (posts : Nat)
    (calls : List Call) : List PollFd → Option Run
  | [] => some ⟨0, before, posts, calls⟩
  | fds :: rest =>
    let s := process env i true ret (fds.reset env.sem)
    if s.ret < 0 then do
      let (undone, calls') ← undoLoop env 0 before
      let failed := { s.fds with revents := s.fds.revents ||| POLLERR }
      some ⟨s.ret, undone ++ failed :: rest, posts + s.posts, calls ++ s.calls ++ calls'⟩
    else setupLoop env (i + 1) s.ret (before ++ [s.fds]) (posts + s.posts) (calls ++ s.calls) rest

def pollSetup (env : Env) (fds : List PollFd) : Option Run := setupLoop env 0 0 [] 0 [] fds

structure Teardown where
  ret : Int
  count : Nat
  fds : List PollFd
  calls : List Call

/-- The loop of `poll_teardown` from the entry `i` on. -/
def teardownLoop (env : Env) (i : Nat) (status ret : Int) : List PollFd → Teardown
  | [] => ⟨ret, 0, [], []⟩
  | fds :: rest =>
    let s := process env i false status fds
    let t := teardownLoop env (i + 1) s.ret (if s.ret < 0 then s.ret else ret) rest
    ⟨t.ret, if s.fds.revents ≠ 0 then t.count + 1 else t.count, { s.fds with sem := none } :: t.fds,
      s.calls ++ t.calls⟩

def pollTeardown (env : Env) (ret : Int) (fds : List PollFd) : Teardown :=
  teardownLoop env 0 0 ret fds

/-! ## The call -/

def Env.fileOf (env : Env) (fds : PollFd) : Option File :=
  if fds.events &&& POLLMASK = POLLFD then
    if fds.fd ≥ 0 then (fsGetfilep env fds.fd).toOption else none
  else if fds.events &&& POLLMASK = POLLFILE then fds.ptr
  else none

def Env.meanwhile (env : Env) (i : Nat) (fds : PollFd) : PollFd :=
  if (env.fileOf fds).isSome then { fds with revents := fds.revents ||| env.arrive i } else fds

def Env.waited (env : Env) (posts : Nat) : Outcome := if posts = 0 then env.outcome else .ok

def ticks (env : Env) (timeout : Int) : Nat :=
  (timeout.toNat + (env.msecPerTick - 1)) % 2 ^ 32 / env.msecPerTick

structure Result where
  ret : Int
  fds : List PollFd
  calls : List Call

/-- What `nx_poll` makes of the wait, before it tears the entries down. -/
def waitRet (cfg : Config) (env : Env) (posts : Nat) (timeout : Int) : Int :=
  if timeout = 0 then 0
  else if timeout > 0 then
    let ret := (cfg.returns (.tickwait (ticks env timeout)) none (env.waited posts)).1
    if ret < 0 then if ret = -Errno.etimedout.code then 0 else ret else ret
  else (cfg.returns .wait none (env.waited posts)).1

def nxPoll (cfg : Config) (env : Env) (fds : List PollFd) (timeout : Int) : Option Result := do
  let r ← pollSetup env fds
  if r.ret ≥ 0 then
    let ret := waitRet cfg env r.posts timeout
    let t := pollTeardown env ret (r.fds.zipIdx.map fun p => env.meanwhile p.2 p.1)
    let ret := if t.ret < 0 ∧ ret ≥ 0 then t.ret else ret
    some ⟨if ret < 0 then ret else t.count, t.fds, r.calls ++ t.calls⟩
  else some ⟨r.ret, r.fds, r.calls⟩

/-! ## What is done with one entry -/

variable {env : Env} {fds : PollFd} {file : File} {i : Nat} {b : Bool} {ret : Int}

/-- An entry of which `poll_setup` and `poll_teardown` take no notice. -/
def PollFd.Skipped (fds : PollFd) : Prop :=
  fds.events &&& POLLMASK = POLLFD ∧ fds.fd < 0 ∨
    fds.events &&& POLLMASK = POLLFILE ∧ fds.ptr = none

theorem fsGetfilep_error {fd ret : Int} (h : fsGetfilep env fd = .error ret) : ret < 0 := by
  unfold fsGetfilep at h
  split at h
  · cases h
    decide
  · split_ifs at h
    · cases h
      decide
    · split at h
      · cases h
        decide
      · split_ifs at h
        cases h
        decide

/-- **The three ways of an entry**: `file_poll` is called, or nothing is done, or it is refused. -/
theorem process_cases (env : Env) (fds : PollFd) :
    (∃ file, env.fileOf fds = some file ∧
      ∀ i b ret, process env i b ret fds = filePoll env i file fds b) ∨
    (env.fileOf fds = none ∧ fds.Skipped ∧ ∀ i b ret, process env i b ret fds = ⟨ret, fds, 0, []⟩) ∨
    env.fileOf fds = none ∧ ¬fds.Skipped ∧
      ∃ e < 0, ∀ i b ret, process env i b ret fds = ⟨e, fds, 0, []⟩ := by
  unfold process Env.fileOf PollFd.Skipped
  have hne : POLLFILE ≠ POLLFD := by decide
  by_cases hfd : fds.events &&& POLLMASK = POLLFD
  · by_cases hneg : fds.fd ≥ 0
    · cases hget : fsGetfilep env fds.fd with
      | error e =>
        have hskip : ¬(POLLFD = POLLFILE ∧ fds.ptr = none) := fun h => hne h.1.symm
        refine .inr (.inr ⟨by simp [hfd, hneg, Except.toOption], ?_, e, fsGetfilep_error hget, ?_⟩)
        · simp [hfd, hneg, hskip]
        · simp [hfd, hneg, pollFdsetup, hget]
      | ok file =>
        exact .inl ⟨file, by simp [hfd, hneg, Except.toOption], by simp [hfd, hneg, pollFdsetup, hget]⟩
    · exact .inr (.inl ⟨by simp [hfd, hneg], .inl ⟨hfd, by omega⟩, by simp [hfd, hneg]⟩)
  · by_cases hfile : fds.events &&& POLLMASK = POLLFILE
    · cases hptr : fds.ptr with
      | none => exact .inr (.inl ⟨by simp [hne, hfile], .inr ⟨hfile, rfl⟩, by simp [hne, hfile]⟩)
      | some file => exact .inl ⟨file, by simp [hne, hfile], by simp [hne, hfile]⟩
    · refine .inr (.inr ⟨by simp [hfd, hfile], by simp [hfd, hfile], -EINVAL, by decide, ?_⟩)
      simp [hfd, hfile]

theorem process_of_file (h : env.fileOf fds = some file) :
    process env i b ret fds = filePoll env i file fds b := by
  rcases process_cases env fds with ⟨_, hf, hp⟩ | ⟨hf, -⟩ | ⟨hf, -⟩
  · rw [hp, Option.some.inj (hf.symm.trans h)]
  · cases hf.symm.trans h
  · cases hf.symm.trans h

theorem filePoll_calls : (filePoll env i file fds b).calls = [⟨i, b, (filePoll env i file fds b).ret⟩] := by
  unfold filePoll
  repeat' split
  all_goals rfl

theorem filePoll_fds : ∃ revents priv,
    (filePoll env i file fds b).fds = { fds with revents := revents, priv := priv } := by
  unfold filePoll
  repeat' split
  all_goals exact ⟨_, _, rfl⟩

theorem process_calls : (process env i b ret fds).calls =
    if (env.fileOf fds).isSome then [⟨i, b, (process env i b ret fds).ret⟩] else [] := by
  rcases process_cases env fds with ⟨file, hf, hp⟩ | ⟨hf, -, hp⟩ | ⟨hf, -, _, -, hp⟩
  · simp [hf, hp, filePoll_calls]
  · simp [hf, hp]
  · simp [hf, hp]

theorem process_ret (ret : Int) : (process env i b ret fds).fds = (process env i b 0 fds).fds ∧
    (process env i b ret fds).posts = (process env i b 0 fds).posts ∧
    (process env i b ret fds).calls = (process env i b 0 fds).calls ∧
    (0 ≤ ret → (0 ≤ (process env i b ret fds).ret ↔ 0 ≤ (process env i b 0 fds).ret)) := by
  rcases process_cases env fds with ⟨file, -, hp⟩ | ⟨-, -, hp⟩ | ⟨-, -, e, -, hp⟩ <;> simp [hp]

theorem process_fds : ∃ revents priv,
    (process env i b ret fds).fds = { fds with revents := revents, priv := priv } := by
  rcases process_cases env fds with ⟨file, -, hp⟩ | ⟨-, -, hp⟩ | ⟨-, -, e, -, hp⟩
  · rw [hp]
    exact filePoll_fds
  · exact ⟨fds.revents, fds.priv, by rw [hp]⟩
  · exact ⟨fds.revents, fds.priv, by rw [hp]⟩

@[simp] theorem process_sem : (process env i b ret fds).fds.sem = fds.sem := by
  obtain ⟨revents, priv, h⟩ := @process_fds env fds i b ret
  rw [h]

@[simp] theorem fileOf_process : env.fileOf (process env i b ret fds).fds = env.fileOf fds := by
  obtain ⟨revents, priv, h⟩ := @process_fds env fds i b ret
  rw [h]
  rfl

@[simp] theorem skipped_process : (process env i b ret fds).fds.Skipped ↔ fds.Skipped := by
  obtain ⟨revents, priv, h⟩ := @process_fds env fds i b ret
  rw [h]
  rfl

theorem reset_mask (sem : Nat) : (fds.reset sem).events &&& POLLMASK = fds.events &&& POLLMASK := by
  have hflags : (POLLERR ||| POLLHUP) &&& POLLMASK = 0 := by decide
  simp [PollFd.reset, BitVec.and_or_distrib_right, hflags]

@[simp] theorem fileOf_reset (sem : Nat) : env.fileOf (fds.reset sem) = env.fileOf fds := by
  simp only [Env.fileOf, reset_mask]
  rfl

@[simp] theorem skipped_reset (sem : Nat) : (fds.reset sem).Skipped ↔ fds.Skipped := by
  simp only [PollFd.Skipped, reset_mask]
  rfl

@[simp] theorem fileOf_meanwhile : env.fileOf (env.meanwhile i fds) = env.fileOf fds := by
  unfold Env.meanwhile
  split <;> rfl

@[simp] theorem skipped_meanwhile : (env.meanwhile i fds).Skipped ↔ fds.Skipped := by
  unfold Env.meanwhile
  split <;> rfl

end Gpmx.Vfs.Poll
