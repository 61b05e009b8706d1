import Gpmx.Infra.Runs
import Mathlib

/-!
# Named message queues

`gpm/libs/libc/mqueue`, over FreeRTOS queues: `prv_mqueue.c`, `mq_open.c`, `mq_close.c`,
`mq_unlink.c`, `mq_timedsend.c`, `mq_timedreceive.c`. A descriptor is the address of a list element,
so that all descriptors of a queue are the same.

Each call has a section with the lock of the list, and is one step up to its end. What follows without
the lock is a step of its own: `xQueueSend` and `xQueueReceive`, which may wait, and
`delete_messagequeue`. Where memory comes from, and how many ticks are left until a deadline, is open.
-/

namespace Gpmx.Mqueue

open Infra

inductive Errno where
  | einval
  | eexist
  | enospc
  | enoent
  | ebadf
  | emsgsize
  | eagain
  | etimedout
  deriving DecidableEq

abbrev Name := List Char

abbrev Message := List UInt8

/-- `O_CREAT`, `O_EXCL` and `O_NONBLOCK` -/
structure Oflag where
  creat : Bool
  excl : Bool
  nonblock : Bool
  deriving DecidableEq

structure MqAttr where
  mqMaxmsg : Nat
  mqMsgsize : Nat
  mqFlags : Oflag
  deriving DecidableEq

/-- The attributes that `mq_open` gives a queue if the caller has none. -/
def queueCreationAttr : MqAttr :=
  { mqMaxmsg := 10, mqMsgsize := 128, mqFlags := ⟨false, false, false⟩ }

/--
What has been done with a queue: the how manyth it was, how often it is open, whether its name was
unlinked, and the messages that went in and came out.
-/
structure History where
  number : Nat
  opens : Nat
  unlinked : Bool
  sent : List Message
  received : List Message
  deriving DecidableEq

/-- `queuelist_element_t`, with what the queue holds -/
structure Element where
  name : Name
  attr : MqAttr
  openDescriptors : Nat
  pendingUnlink : Bool
  queue : List Message
  history : History
  deriving DecidableEq

inductive Returned (D : Type) where
  | error (e : Errno)
  | descriptor (mqdes : D)
  | message (msg : Message)
  | ok
  deriving DecidableEq

/-- Where a thread stands. The ticks to wait are `none` for `portMAX_DELAY`. -/
inductive Call (D : Type) where
  | outside (last : Option (Returned D))
  /-- before `xQueueSend` -/
  | sending (p : D) (msg : Message) (ticks : Option Nat)
  /-- before `xQueueReceive` -/
  | receiving (p : D) (ticks : Option Nat)
  /-- before `delete_messagequeue` -/
  | deleting (p : D)
  deriving DecidableEq

/-- The list from its head on, the elements in memory, the threads, and a record of the queues. -/
structure Sys (T D : Type) where
  list : List D
  elements : D → Option Element
  calls : T → Call D
  created : Nat
  destroyed : List History

variable {T D : Type}

def start : Sys T D :=
  { list := [], elements := fun _ => none, calls := fun _ => .outside none, created := 0,
    destroyed := [] }

inductive Action (T D : Type) where
  /-- `alloc` is the address of the element if one is created and there is memory for it. -/
  | mqOpen (t : T) (name : Name) (oflag : Oflag) (attr : Option MqAttr) (alloc : Option D)
  | mqClose (t : T) (mqdes : D)
  | mqUnlink (t : T) (name : Name)
  /-- `deadline` is what `cal_ticktimeout` makes of a deadline, and `alloc` whether there is memory
  for the message. -/
  | mqTimedsend (t : T) (mqdes : D) (msg : Message) (deadline : Option (Except Errno Nat)) (alloc : Bool)
  | mqTimedreceive (t : T) (mqdes : D) (msgLen : Nat) (deadline : Option (Except Errno Nat))
  /-- `xQueueSend` and `xQueueReceive` that are not in vain -/
  | transfer (t : T)
  /-- those that are -/
  | giveUp (t : T)
  | deleteMessagequeue (t : T)

def validateQueuename (nameMax : Nat) (name : Name) : Option Nat :=
  if name.head? ≠ some '/' then none
  else if min name.length (nameMax + 2) = nameMax + 2 then none
  else some name.length

def calTicktimeout (flag : Oflag) (deadline : Option (Except Errno Nat)) :
    Except Errno (Option Nat) :=
  if flag.nonblock then .ok (some 0)
  else match deadline with
    | none => .ok none
    | some ticks => ticks.map some

namespace Element

/-- One more descriptor; `open_descriptors` is a `size_t`. -/
def reopen (e : Element) : Element :=
  { e with openDescriptors := (e.openDescriptors + 1) % 2 ^ 32, history.opens := e.history.opens + 1 }

def close (e : Element) : Element :=
  { e with openDescriptors := e.openDescriptors - 1, history.opens := e.history.opens - 1 }

def setPending (e : Element) : Element := { e with pendingUnlink := true }

def unlink (e : Element) : Element := { e with history.unlinked := true }

def put (msg : Message) (e : Element) : Element :=
  { e with queue := e.queue ++ [msg], history.sent := e.history.sent ++ [msg] }

def take (msg : Message) (e : Element) : Element :=
  { e with queue := e.queue.tail, history.received := e.history.received ++ [msg] }

def vain (e : Element) : Errno :=
  if e.attr.mqFlags.nonblock then .eagain else .etimedout

end Element

namespace Sys

variable [DecidableEq D]

def findQueueInlist (s : Sys T D) (name : Option Name) (descriptor : Option D) : Option D :=
  s.list.find? fun p =>
    (name.isSome && decide ((s.elements p).map Element.name = name)) || decide (descriptor = some p)

/-- Changes the element at `p`. -/
def modify (s : Sys T D) (p : D) (f : Element → Element) : Sys T D :=
  { s with elements := Function.update s.elements p ((s.elements p).map f) }

def createNewMessagequeue (attr : MqAttr) (name : Name) (alloc : Option D) (s : Sys T D) :
    Option (D × Sys T D) :=
  alloc.map fun p =>
    (p, { s with
      list := p :: s.list
      elements := Function.update s.elements p (some
        { name, attr, openDescriptors := 1, pendingUnlink := false, queue := [],
          history := ⟨s.created, 1, false, [], []⟩ })
      created := s.created + 1 })

def mqOpen (nameMax : Nat) (name : Name) (oflag : Oflag) (attr : Option MqAttr) (alloc : Option D)
    (s : Sys T D) : Except Errno D × Sys T D :=
  if validateQueuename nameMax name = none then (.error .einval, s)
  else if oflag.creat ∧ attr.any (fun a => a.mqMaxmsg = 0 || a.mqMsgsize = 0) then
    (.error .einval, s)
  else match s.findQueueInlist (some name) none with
    | some p =>
      if oflag.excl ∧ oflag.creat then (.error .eexist, s)
      else if (s.elements p).any Element.pendingUnlink then (.error .einval, s)
      else
        (.ok p, s.modify p Element.reopen)
    | none =>
      if oflag.creat then
        match s.createNewMessagequeue { attr.getD queueCreationAttr with mqFlags := oflag } name alloc with
        | some (p, s') => (.ok p, s')
        | none => (.error .enospc, s)
      else (.error .enoent, s)

def listREMOVE (p : D) (s : Sys T D) : Sys T D := { s with list := s.list.erase p }

/-- `mq_close` up to the end of the lock, and whether it goes on with `delete_messagequeue` -/
def mqClose (mqdes : D) (s : Sys T D) : Except Errno Bool × Sys T D :=
  match s.findQueueInlist none (some mqdes) with
  | none => (.error .ebadf, s)
  | some _ =>
    let s := s.modify mqdes Element.close
    match s.elements mqdes with
    | none => (.error .ebadf, s)
    | some e =>
      if e.openDescriptors = 0 then
        if e.pendingUnlink then (.ok true, s.listREMOVE mqdes)
        else (.ok false, s.modify mqdes Element.setPending)
      else (.ok false, s)

/-- `mq_unlink` up to the end of the lock, and what it goes on with `delete_messagequeue` for -/
def mqUnlink (nameMax : Nat) (name : Name) (s : Sys T D) : Except Errno (Option D) × Sys T D :=
  if validateQueuename nameMax name = none then (.error .einval, s)
  else match s.findQueueInlist (some name) none with
    | none => (.error .enoent, s)
    | some p =>
      let s := s.modify p Element.unlink
      match s.elements p with
      | none => (.error .enoent, s)
      | some e =>
        if e.openDescriptors = 0 then (.ok (some p), s.listREMOVE p)
        else (.ok none, s.modify p Element.setPending)

/-- `mq_timedsend` up to `xQueueSend` -/
def mqTimedsend (mqdes : D) (msg : Message) (deadline : Option (Except Errno Nat)) (alloc : Bool)
    (s : Sys T D) : Except Errno (Option Nat) :=
  match s.findQueueInlist none (some mqdes), s.elements mqdes with
  | some _, some p =>
    if msg.length > p.attr.mqMsgsize then .error .emsgsize
    else match calTicktimeout p.attr.mqFlags deadline with
      | .error e => .error e
      | .ok ticks => if alloc then .ok ticks else .error .emsgsize
  | _, _ => .error .ebadf

/-- `mq_timedreceive` up to `xQueueReceive` -/
def mqTimedreceive (mqdes : D) (msgLen : Nat) (deadline : Option (Except Errno Nat)) (s : Sys T D) :
    Except Errno (Option Nat) :=
  match s.findQueueInlist none (some mqdes), s.elements mqdes with
  | some _, some p =>
    if msgLen < p.attr.mqMsgsize then .error .emsgsize else calTicktimeout p.attr.mqFlags deadline
  | _, _ => .error .ebadf

variable [DecidableEq T]

def goOn (t : T) (c : Call D) (s : Sys T D) : Sys T D :=
  { s with calls := Function.update s.calls t c }

def leave (t : T) (r : Returned D) (s : Sys T D) : Sys T D := s.goOn t (.outside (some r))

/-- `xQueueSend` with room in the queue, and `xQueueReceive` with a message in it -/
def transfer (t : T) (s : Sys T D) : Option (Sys T D) :=
  match s.calls t with
  | .sending p msg _ =>
    match s.elements p with
    | some e =>
      if e.queue.length < e.attr.mqMaxmsg then
        some ((s.modify p (Element.put msg)).leave t .ok)
      else none
    | none => none
  | .receiving p _ =>
    match s.elements p with
    | some e =>
      match e.queue with
      | msg :: _ =>
        some ((s.modify p (Element.take msg)).leave t (.message msg))
      | [] => none
    | none => none
  | _ => none

def giveUp (t : T) (s : Sys T D) : Option (Sys T D) :=
  match s.calls t with
  | .sending p _ (some _) =>
    match s.elements p with
    | some e => if e.queue.length < e.attr.mqMaxmsg then none else some (s.leave t (.error e.vain))
    | none => none
  | .receiving p (some _) =>
    match s.elements p with
    | some e => if e.queue = [] then some (s.leave t (.error e.vain)) else none
    | none => none
  | _ => none

def deleteMessagequeue (t : T) (s : Sys T D) : Option (Sys T D) :=
  match s.calls t with
  | .deleting p =>
    (s.elements p).map fun e =>
      { s with
        elements := Function.update s.elements p none
        destroyed := s.destroyed ++ [e.history] }.leave t .ok
  | _ => none

def step (nameMax : Nat) (s : Sys T D) : Action T D → Option (Sys T D)
  | .mqOpen t name oflag attr alloc =>
    match s.calls t with
    | .outside _ =>
      -- the address of a new element is not in use
      if alloc.any (fun p => (s.elements p).isSome) then none
      else match s.mqOpen nameMax name oflag attr alloc with
        | (.ok p, s') => some (s'.leave t (.descriptor p))
        | (.error e, s') => some (s'.leave t (.error e))
    | _ => none
  | .mqClose t mqdes =>
    match s.calls t with
    | .outside _ =>
      match s.mqClose mqdes with
      | (.ok true, s') => some (s'.goOn t (.deleting mqdes))
      | (.ok false, s') => some (s'.leave t .ok)
      | (.error e, s') => some (s'.leave t (.error e))
    | _ => none
  | .mqUnlink t name =>
    match s.calls t with
    | .outside _ =>
      match s.mqUnlink nameMax name with
      | (.ok (some p), s') => some (s'.goOn t (.deleting p))
      | (.ok none, s') => some (s'.leave t .ok)
      | (.error e, s') => some (s'.leave t (.error e))
    | _ => none
  | .mqTimedsend t mqdes msg deadline alloc =>
    match s.calls t with
    | .outside _ =>
      match s.mqTimedsend mqdes msg deadline alloc with
      | .ok ticks => some (s.goOn t (.sending mqdes msg ticks))
      | .error e => some (s.leave t (.error e))
    | _ => none
  | .mqTimedreceive t mqdes msgLen deadline =>
    match s.calls t with
    | .outside _ =>
      match s.mqTimedreceive mqdes msgLen deadline with
      | .ok ticks => some (s.goOn t (.receiving mqdes ticks))
      | .error e => some (s.leave t (.error e))
    | _ => none
  | .transfer t => s.transfer t
  | .giveUp t => s.giveUp t
  | .deleteMessagequeue t => s.deleteMessagequeue t

end Sys

def mqSend (t : T) (mqdes : D) (msg : Message) (alloc : Bool) : Action T D :=
  .mqTimedsend t mqdes msg none alloc

def mqReceive (t : T) (mqdes : D) (msgLen : Nat) : Action T D := .mqTimedreceive t mqdes msgLen none

end Gpmx.Mqueue
