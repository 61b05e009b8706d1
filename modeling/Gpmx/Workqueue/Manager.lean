import Gpmx.Infra.Accounts
import Gpmx.Infra.Runs
import Mathlib

/-!
# The manager of the work queues

`gpm/modules/workqueue/workqueue_manager.c`, and the queue of `gpm/modules/container/blocking_queue.h`
it is asked through. A client that does not find the work queue it wants hands its configuration
over to the manager, which creates a thread for it; that thread adds its work queue to the list
and runs it, while the client looks into the list again and again.

The manager is running, and is not stopped. Looking through the list, adding to it and removing
from it are done with the mutex of the list held and are one step each. The queue of requests has
no mutex, and each access to a semaphore and to the data is a step of its own. A thread may fail
to be created, and a work queue may end its run at any time.
-/

namespace Gpmx.Workqueue.Manager

open Infra

/-! ## Blocking queues -/

/-- A queue of pointers that `DEFINE_BLOCKING_QUEUE` defines. -/
structure BlockingQueue (α : Type) where
  semHead : Nat
  semTail : Nat
  head : Nat
  tail : Nat
  data : Nat → Option α

namespace BlockingQueue

variable {α : Type}

def init (N : Nat) : BlockingQueue α :=
  { semHead := N, semTail := 0, head := 0, tail := 0, data := fun _ => none }

/-- `push`, its `sem_wait` -/
def pushWait (q : BlockingQueue α) : Option (BlockingQueue α) :=
  if q.semHead = 0 then none else some { q with semHead := q.semHead - 1 }

/-- `push`, between its semaphores -/
def pushStore (N : Nat) (item : Option α) (q : BlockingQueue α) : BlockingQueue α :=
  { q with data := Function.update q.data q.tail item, tail := (q.tail + 1) % N }

/-- `push`, its `sem_post` -/
def pushPost (q : BlockingQueue α) : BlockingQueue α := { q with semTail := q.semTail + 1 }

/-- `pop`, its `sem_wait` -/
def popWait (q : BlockingQueue α) : Option (BlockingQueue α) :=
  if q.semTail = 0 then none else some { q with semTail := q.semTail - 1 }

/-- `pop`, between its semaphores -/
def popLoad (N : Nat) (q : BlockingQueue α) : Option α × BlockingQueue α :=
  (q.data q.head, { q with head := (q.head + 1) % N })

/-- `pop`, its `sem_post` -/
def popPost (q : BlockingQueue α) : BlockingQueue α := { q with semHead := q.semHead + 1 }

end BlockingQueue

/-! ## Work queues, clients and the manager -/

/-- `struct wq_config_t`, without the stack size -/
structure Config where
  name : List Char
  relativePriority : Int
  deriving DecidableEq

structure Queue where
  thread : Nat
  config : Config
  deriving DecidableEq

def workqueueCmpMethod (a b : Queue) : Prop := a.config.relativePriority ≥ b.config.relativePriority

instance : DecidableRel workqueueCmpMethod := fun a b =>
  inferInstanceAs (Decidable (a.config.relativePriority ≥ b.config.relativePriority))

/-- Where `workqueue_find_or_create` of a client stands. -/
inductive Client where
  | idle
  /-- the work queue was not found; before `sem_wait` of `push` -/
  | pushing (newWq : Config)
  | storing (newWq : Config)
  /-- before `sem_post` of `push` -/
  | posting (newWq : Config)
  /-- in the loop that waits for the work queue -/
  | polling (newWq : Config) (t : Nat)
  deriving DecidableEq

/-- Where the loop of `workqueue_manager_run` stands. -/
inductive Phase where
  /-- before `sem_wait` of `pop` -/
  | popping
  | loading
  /-- before `sem_post` of `pop` -/
  | releasing (wq : Option Config)
  | creating (wq : Option Config)
  deriving DecidableEq

structure Return where
  newWq : Config
  wq : Queue
  exits : Nat
  deriving DecidableEq

/--
The list of the work queues, the queue of requests, the manager, the threads it has created that
have not added their work queue yet, and the clients. `created`, `exits` and `returned` record how
many threads have been created, how many work queues of a name have ended, and what calls have
returned.
-/
structure Sys (T : Type) where
  wqsList : List Queue
  createQueue : BlockingQueue Config
  manager : Phase
  starting : List Queue
  clients : T → Client
  created : Nat
  exits : List Char → Nat
  returned : List Return

variable {T : Type}

def start : Sys T :=
  { wqsList := [], createQueue := .init 1, manager := .popping, starting := [],
    clients := fun _ => .idle, created := 0, exits := fun _ => 0, returned := [] }

inductive Action (T : Type) where
  /-- a client calls `workqueue_find_or_create` -/
  | call (t : T) (newWq : Config)
  /-- a client goes on -/
  | advance (t : T)
  /-- the manager goes on; a thread it creates can be created or not -/
  | manager (ok : Bool)
  /-- a new thread adds its work queue to the list -/
  | add (wq : Queue)
  /-- a work queue has been run to its end, and is removed from the list -/
  | exit (wq : Queue)

namespace Sys

def findWorkqueueByName (name : List Char) (s : Sys T) : Option Queue :=
  s.wqsList.find? fun queue => queue.config.name = name

variable [DecidableEq T]

def goto (s : Sys T) (t : T) (c : Client) : Sys T :=
  { s with clients := Function.update s.clients t c }

def lookup (t : T) (newWq : Config) (miss : Client) (s : Sys T) : Sys T :=
  match s.findWorkqueueByName newWq.name with
  | some wq =>
    { s.goto t .idle with
      returned := s.returned ++ [{ newWq, wq, exits := s.exits newWq.name }] }
  | none => s.goto t miss

/-- The next step of `workqueue_find_or_create`. -/
def advanceStep (t : T) (s : Sys T) : Option (Sys T) :=
  match s.clients t with
  | .idle => none
  | .pushing newWq =>
    s.createQueue.pushWait.map fun createQueue => { s with createQueue }.goto t (.storing newWq)
  | .storing newWq =>
    some ({ s with createQueue := s.createQueue.pushStore 1 (some newWq) }.goto t (.posting newWq))
  | .posting newWq => some ({ s with createQueue := s.createQueue.pushPost }.goto t (.polling newWq 0))
  | .polling newWq elapsed =>
    if elapsed < 10 * 1000 * 1000 then
      some (s.lookup t newWq (.polling newWq (elapsed + 1 * 1000)))
    else some (s.goto t .idle)

/-- The next step of `workqueue_manager_run`. -/
def managerStep (ok : Bool) (s : Sys T) : Option (Sys T) :=
  match s.manager with
  | .popping => s.createQueue.popWait.map fun createQueue => { s with createQueue, manager := .loading }
  | .loading =>
    let (wq, createQueue) := s.createQueue.popLoad 1
    some { s with createQueue, manager := .releasing wq }
  | .releasing wq => some { s with createQueue := s.createQueue.popPost, manager := .creating wq }
  | .creating none => some { s with manager := .popping }
  | .creating (some config) =>
    if ok then
      some { s with
        manager := .popping
        starting := s.starting ++ [{ thread := s.created, config }]
        created := s.created + 1 }
    else some { s with manager := .popping }

/-- `workqueue_runner`, its `blocking_list_add` -/
def addStep (wq : Queue) (s : Sys T) : Option (Sys T) :=
  if wq ∈ s.starting then
    some { s with
      starting := s.starting.erase wq
      wqsList := s.wqsList.orderedInsert workqueueCmpMethod wq }
  else none

/-- `workqueue_runner`, its `blocking_list_remove` -/
def exitStep (wq : Queue) (s : Sys T) : Option (Sys T) :=
  if wq ∈ s.wqsList then
    some { s with
      wqsList := s.wqsList.erase wq
      exits := Function.update s.exits wq.config.name (s.exits wq.config.name + 1) }
  else none

def step (s : Sys T) : Action T → Option (Sys T)
  | .call t newWq => if s.clients t = .idle then some (s.lookup t newWq (.pushing newWq)) else none
  | .advance t => s.advanceStep t
  | .manager ok => s.managerStep ok
  | .add wq => s.addStep wq
  | .exit wq => s.exitStep wq

end Sys

end Gpmx.Workqueue.Manager
