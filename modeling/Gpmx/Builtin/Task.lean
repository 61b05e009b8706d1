import Gpmx.Infra.Runs
import Gpmx.Builtin.TaskData
import Mathlib

/-!
# The table of built-in tasks

`gpm/modules/builtin/builtin_app.c`: `built_task_spawn`, `built_task_exit`, `built_task_delete` and
`built_task_join`, in steps over the table and the threads. What is done under `task_mutex` is one step,
but for `built_task_spawn`, where the slot is in use before the thread is there.

Of the threads a state knows which identifiers are taken: an identifier can be given again when its thread
has been joined. `tasks`, `count` and `owner` record which tasks there have been.
-/

namespace Gpmx.Builtin

open Function

def EPERM : Int := 1
def ENOMEM : Int := 12
def EINVAL : Int := 22
def ENOSPC : Int := 28

def CONFIG_BUILDAPP_MAX_TASKS : Nat := 20

variable {T : Type} [DecidableEq T]

structure TaskEntry (T : Type) where
  pid : T
  name : List UInt8
  isused : Bool
  joinable : Bool

def firstUnused (taskmap : Nat → TaskEntry T) : Option Nat :=
  (List.range CONFIG_BUILDAPP_MAX_TASKS).find? fun i => !(taskmap i).isused

def firstOf (taskmap : Nat → TaskEntry T) (pid : T) : Option Nat :=
  (List.range CONFIG_BUILDAPP_MAX_TASKS).find? fun i => (taskmap i).pid = pid

structure Request where
  name : CString
  argv : List CString
  joinable : Bool

structure Spawn where
  req : Request
  block : Nat
  taskdata : BuildPthdata

structure Task (T : Type) where
  spawn : Spawn
  slot : Nat
  pid : T
  joinable : Bool
  ended : Bool
  joined : Bool

/-- A thread that is not gone, with the number of the task that it runs. -/
structure Thread where
  task : Option Nat
  ended : Bool
  canceled : Bool

inductive Pc (T : Type) where
  | idle
  /-- the attributes of the new thread -/
  | attr (sp : Spawn)
  /-- `task_mutex` in `built_task_spawn` -/
  | lock (sp : Spawn)
  /-- `pthread_create`, with the slot and with the table as it was -/
  | create (sp : Spawn) (slot : Nat) (before : Nat → TaskEntry T)
  /-- `pthread_exit` -/
  | leaving
  /-- `task_mutex` in `built_task_delete` -/
  | delete (id : Nat) (pid : T)
  /-- `pthread_join`, with the task that was in the slot -/
  | joining (id : Nat) (pid : T) (seen : Option Nat)
  /-- `task_mutex` after it -/
  | release (id : Nat) (pid : T) (seen : Option Nat)

structure State (T : Type) where
  taskmap : Nat → TaskEntry T
  mutex : Option T
  threads : T → Option Thread
  pc : T → Pc T
  tasks : Nat → Option (Task T)
  count : Nat
  owner : Nat → Option Nat
  blocks : Nat
  freed : List Nat
  fault : Bool

namespace State

def goto (s : State T) (t : T) (pc : Pc T) : State T := { s with pc := update s.pc t pc }

def setEntry (s : State T) (i : Nat) (e : TaskEntry T) : State T :=
  { s with taskmap := update s.taskmap i e }

def setThread (s : State T) (p : T) (thr : Option Thread) : State T :=
  { s with threads := update s.threads p thr }

def setTask (s : State T) (k : Nat) (f : Task T → Task T) : State T :=
  { s with tasks := update s.tasks k ((s.tasks k).map f) }

def setMutex (s : State T) (holder : Option T) : State T := { s with mutex := holder }

def free (s : State T) (block : Nat) : State T := { s with freed := block :: s.freed }

def running (s : State T) (t : T) : Bool :=
  match s.threads t with
  | some thr => !thr.ended
  | none => false

def taskOf (s : State T) (t : T) : Option Nat := (s.threads t).bind Thread.task

end State

/-- What `pthread_create` does: an identifier, or an error. -/
inductive Created (T : Type) where
  | ok (pid : T)
  | failed (rv : Int)

/-- The steps of a thread, the end of a cancelled thread, and the threads that are not tasks. -/
inductive Act (T : Type) where
  | spawn (t : T) (req : Request) (allocated : Bool)
  | setAttr (t : T) (rv : Int)
  | reserve (t : T)
  | create (t : T) (first second : Created T)
  | exit (t : T)
  | threadExit (t : T)
  | delete (t : T) (id : Int)
  | remove (t : T) (rv : Int)
  | join (t : T) (id : Int)
  | joined (t : T) (rv : Int)
  | release (t : T)
  | cancel (t : T)
  | other (p : T)
  | gone (p : T)

/-- `(rv < 0) ? rv : -rv` -/
def negated (rv : Int) : Int := if rv < 0 then rv else -rv

/-- The thread of a task is there: the rest of `built_task_spawn`. -/
def spawned (s : State T) (t : T) (sp : Spawn) (slot : Nat) (pid : T) : State T :=
  let s := s.setEntry slot { s.taskmap slot with pid }
  let task : Task T :=
    { spawn := sp, slot, pid, joinable := sp.req.joinable, ended := false, joined := false }
  { s with
      tasks := update s.tasks s.count (some task)
      owner := update s.owner slot (some s.count)
      count := s.count + 1
      threads := update s.threads pid (some { task := some s.count, ended := false, canceled := false })
      mutex := none
      pc := update s.pc t .idle }

/-- `pthread_create`, twice where the first call is not permitted -/
def create (s : State T) (t : T) (sp : Spawn) (slot : Nat) (first second : Created T) :
    Option (State T × Option Int) :=
  match first with
  | .ok pid =>
    if s.threads pid = none then some (spawned s t sp slot pid, some slot) else none
  | .failed rv =>
    if rv = 0 then none
    else if rv = EPERM then
      match second with
      | .ok pid =>
        if s.threads pid = none then some (spawned s t sp slot pid, some slot) else none
      | .failed rv =>
        if rv = 0 then none
        else
          let s := s.setEntry slot { s.taskmap slot with isused := false }
          some (((s.setMutex none).free sp.block).goto t .idle, some (negated rv))
    else some (((s.setMutex none).free sp.block).goto t .idle, some (negated rv))

/-- The table after the section of `built_task_exit` -/
def exitEntries (s : State T) (pid : T) : State T :=
  match firstOf s.taskmap pid with
  | some i =>
    if (s.taskmap i).joinable then s
    else s.setEntry i { s.taskmap i with isused := false, name := [] }
  | none => s

/-- The section of `built_task_delete`; a thread that deletes itself cannot be joined by it. -/
def remove (s : State T) (t : T) (id : Nat) (pid : T) (rv : Int) : State T × Option Int :=
  let deleted (s : State T) : State T :=
    match s.taskOf pid with
    | some k => s.setTask k fun task => { task with ended := true, joined := true }
    | none => s
  let cleared := s.setEntry id { s.taskmap id with name := [], isused := false }
  if t = pid then ((deleted cleared).goto t .leaving, none)
  else if rv = 0 then
    (((deleted cleared).setThread pid ((s.threads pid).map fun thr => { thr with canceled := true })).goto t .idle,
      some rv)
  else (cleared.goto t .idle, some rv)

/-- The second section of `built_task_join` -/
def releaseEntry (s : State T) (id : Nat) (pid : T) : State T :=
  if (s.taskmap id).isused ∧ (s.taskmap id).pid = pid then
    s.setEntry id { s.taskmap id with isused := false, name := [], joinable := false }
  else s

def State.markJoined (s : State T) : Option Nat → State T
  | some k => s.setTask k fun task => { task with joined := true }
  | none => s

def act (s : State T) : Act T → Option (State T × Option Int)
  | .spawn t req allocated =>
    match s.pc t with
    | .idle =>
      if allocated then
        match buildPthdata req.name req.argv with
        | some taskdata =>
          some ({ s with blocks := s.blocks + 1 }.goto t (.attr { req, block := s.blocks, taskdata }), none)
        | none => some ({ s with fault := true }, none)
      else some (s, some (-ENOMEM))
    | _ => none
  | .setAttr t rv =>
    match s.pc t with
    | .attr sp =>
      if rv ≠ 0 then some ((s.free sp.block).goto t .idle, some (negated rv))
      else some (s.goto t (.lock sp), none)
    | _ => none
  | .reserve t =>
    match s.pc t, s.mutex with
    | .lock sp, none =>
      match firstUnused s.taskmap with
      | some i =>
        some (((s.setEntry i
          { s.taskmap i with name := sp.req.name.1.take 15, isused := true, joinable := sp.req.joinable }).setMutex
            (some t)).goto t (.create sp i s.taskmap), none)
      | none => some ((s.free sp.block).goto t .idle, some (-ENOSPC))
    | _, _ => none
  | .create t first second =>
    match s.pc t with
    | .create sp slot _ => create s t sp slot first second
    | _ => none
  | .exit t =>
    match s.pc t, s.mutex, s.taskOf t with
    | .idle, none, some k =>
      let s := (s.tasks k).elim s fun task => s.free task.spawn.block
      some (((exitEntries s t).setTask k fun task => { task with ended := true }).goto t .leaving, none)
    | _, _, _ => none
  | .threadExit t =>
    match s.pc t with
    | .leaving =>
      some ((s.setThread t ((s.threads t).map fun thr => { thr with ended := true })).goto t .idle, none)
    | _ => none
  | .delete t id =>
    match s.pc t with
    | .idle =>
      if id < 0 then some ({ s with fault := true }, none)
      else if id < CONFIG_BUILDAPP_MAX_TASKS ∧ (s.taskmap id.toNat).isused then
        some (s.goto t (.delete id.toNat (s.taskmap id.toNat).pid), none)
      else some (s, some (-EINVAL))
    | _ => none
  | .remove t rv =>
    match s.pc t, s.mutex with
    | .delete id pid, none => some (remove s t id pid rv)
    | _, _ => none
  | .join t id =>
    match s.pc t, s.mutex with
    | .idle, none =>
      if id < 0 then some ({ s with fault := true }, none)
      else if id ≥ CONFIG_BUILDAPP_MAX_TASKS ∨ (s.taskmap id.toNat).isused = false then some (s, some (-EINVAL))
      else if (s.taskmap id.toNat).joinable = false then some (s, some (-EPERM))
      else some (s.goto t (.joining id.toNat (s.taskmap id.toNat).pid (s.owner id.toNat)), none)
    | _, _ => none
  | .joined t rv =>
    match s.pc t with
    | .joining id pid seen =>
      if rv = 0 then
        match s.threads pid with
        | some thr => if thr.ended then some ((s.setThread pid none).goto t (.release id pid seen), none) else none
        | none => none
      else some (s.goto t .idle, some rv)
    | _ => none
  | .release t =>
    match s.pc t, s.mutex with
    | .release id pid seen, none => some (((releaseEntry s id pid).markJoined seen).goto t .idle, some 0)
    | _, _ => none
  | .cancel t =>
    match s.threads t with
    | some thr =>
      if thr.canceled ∧ s.mutex ≠ some t then
        some ((s.setThread t (some { thr with ended := true })).goto t .idle, none)
      else none
    | none => none
  | .other p =>
    if s.threads p = none then
      some (s.setThread p (some { task := none, ended := false, canceled := false }), none)
    else none
  | .gone p =>
    match s.threads p, s.pc p with
    | some thr, .idle => if thr.task = none then some (s.setThread p none, none) else none
    | _, _ => none

def Act.thread : Act T → Option T
  | .spawn t _ _ | .setAttr t _ | .reserve t | .create t _ _ | .exit t | .threadExit t | .delete t _
  | .remove t _ | .join t _ | .joined t _ | .release t | .cancel t => some t
  | .other _ | .gone _ => none

def step (s : State T) (a : Act T) : Option (State T) :=
  if a.thread.all s.running then (act s a).map Prod.fst else none

def start (zero : T) : State T where
  taskmap _ := { pid := zero, name := [], isused := false, joinable := false }
  mutex := none
  threads _ := none
  pc _ := .idle
  tasks _ := none
  count := 0
  owner _ := none
  blocks := 0
  freed := []
  fault := false

end Gpmx.Builtin
