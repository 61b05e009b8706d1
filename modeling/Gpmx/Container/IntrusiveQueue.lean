import Gpmx.Infra.Chain
import Gpmx.Infra.Transducer

/-!
# Intrusive queues

`gpm/modules/container/intrusive_queue.c`. A queue is a head, a tail and the `next` of every node
there is. Unlike the queues of `libc`, a node tells whether it is queued: one that is in no queue
has a NULL `next`, and only the last one of a queue has a NULL `next` too. `push` relies on it, so
it is part of `Holds`, which reads the queue as a list.

`remove` is `none` where its loop needs more than `fuel` turns. More turns than the list has nodes
always do.

* `push_holds`, `pop_cons`, `remove_holds` — what a call does to the list
* `intrusive_queue_fifo` — a run of calls
-/

namespace Gpmx.Container

open Infra Function List

/-- `struct intrusive_queue_head`, and the `next` of the nodes. -/
structure IntrusiveQueue (ι : Type) where
  head : Option ι
  tail : Option ι
  next : ι → Option ι

variable {ι : Type}

namespace IntrusiveQueue

/-- `intrusive_queue_init`, where `intrusive_node_init` has been called for the nodes -/
def init : IntrusiveQueue ι := { head := none, tail := none, next := fun _ => none }

def empty (queue : IntrusiveQueue ι) : Bool := queue.head.isNone

/-- The queue is the list `L`, and the other nodes are not linked. -/
structure Holds (queue : IntrusiveQueue ι) (L : List ι) : Prop where
  chain : Seg queue.next queue.head L none
  tail : queue.tail = L.getLast?
  loose : ∀ node, node ∉ L → queue.next node = none

variable [DecidableEq ι]

/-- `node->next = p` -/
def setNext (queue : IntrusiveQueue ι) (node : ι) (p : Option ι) : IntrusiveQueue ι :=
  { queue with next := update queue.next node p }

/-- The node is already queued, as `intrusive_queue_push` sees it. -/
def alreadyQueued (queue : IntrusiveQueue ι) (newNode : ι) : Bool :=
  queue.next newNode ≠ none || some newNode = queue.tail

def push (newNode : ι) (queue : IntrusiveQueue ι) : IntrusiveQueue ι :=
  if queue.alreadyQueued newNode then queue
  else
    let queue := if queue.head.isNone then { queue with head := some newNode } else queue
    let queue :=
      match queue.tail with
      | some tail => queue.setNext tail (some newNode)
      | none => queue
    { queue with tail := some newNode }

def pop (queue : IntrusiveQueue ι) : Option ι × IntrusiveQueue ι :=
  match queue.head with
  | none => (none, queue)
  | some ret =>
    let queue :=
      if some ret ≠ queue.tail then { queue with head := queue.next ret }
      else { queue with head := none, tail := none }
    (some ret, queue.setNext ret none)

/-- The loop of `intrusive_queue_remove`, from `node` on. -/
def removeLoop (queue : IntrusiveQueue ι) (removeNode : ι) :
    Nat → Option ι → Option (Bool × IntrusiveQueue ι)
  | 0, _ => none
  | _ + 1, none => some (false, queue)
  | fuel + 1, some node =>
    if queue.next node = some removeNode then
      let queue := if some removeNode = queue.tail then { queue with tail := some node } else queue
      some (true, (queue.setNext node (queue.next removeNode)).setNext removeNode none)
    else queue.removeLoop removeNode fuel (queue.next node)

def remove (fuel : Nat) (removeNode : ι) (queue : IntrusiveQueue ι) :
    Option (Bool × IntrusiveQueue ι) :=
  if some removeNode = queue.head then
    if queue.next removeNode ≠ none then
      some (true, { queue with head := queue.next removeNode }.setNext removeNode none)
    else some (true, { queue with head := none, tail := none })
  else queue.removeLoop removeNode fuel queue.head

end IntrusiveQueue

open IntrusiveQueue

variable {queue : IntrusiveQueue ι} {L M N : List ι} {node prev : ι}

theorem IntrusiveQueue.Holds.nodup (h : queue.Holds L) : L.Nodup := h.chain.nodup

theorem IntrusiveQueue.Holds.head (h : queue.Holds L) : queue.head = L.head? := h.chain.start

theorem init_holds : (init : IntrusiveQueue ι).Holds [] :=
  ⟨rfl, rfl, fun _ _ => rfl⟩

theorem empty_iff (h : queue.Holds L) : queue.empty = true ↔ L = [] := by
  unfold empty
  rw [h.head]
  cases L <;> simp

variable [DecidableEq ι]

/-! ## Adding a node -/

/-- **A node is seen to be queued exactly if it is in the list.** -/
theorem alreadyQueued_iff (h : queue.Holds L) : queue.alreadyQueued node = true ↔ node ∈ L := by
  unfold alreadyQueued
  rw [Bool.or_eq_true, decide_eq_true_iff, decide_eq_true_iff, h.tail]
  constructor
  · rintro (hnext | hlast)
    · by_contra hn
      exact hnext (h.loose node hn)
    · exact mem_of_getLast? hlast.symm
  · intro hmem
    obtain ⟨M, N, rfl⟩ := append_of_mem hmem
    obtain ⟨q, -, -, hN⟩ := seg_append.mp h.chain
    cases N with
    | nil => exact .inr (by simp)
    | cons b N =>
      left
      rw [hN.1]
      simp

/-- **Pushing a queued node does nothing**, pushing another one appends it. -/
theorem push_holds (node : ι) (h : queue.Holds L) :
    (queue.push node).Holds (if node ∈ L then L else L ++ [node]) := by
  unfold push
  by_cases hn : node ∈ L
  · rw [if_pos ((alreadyQueued_iff h).mpr hn), if_pos hn]
    exact h
  rw [if_neg (mt (alreadyQueued_iff h).mp hn), if_neg hn]
  rcases eq_nil_or_concat L with rfl | ⟨M, last, rfl⟩
  · have hhead : queue.head = none := h.head
    have htail : queue.tail = none := h.tail
    simp only [hhead, htail, Option.isNone_none, if_true]
    refine ⟨⟨rfl, h.loose node hn⟩, rfl, ?_⟩
    intro a _
    exact h.loose a not_mem_nil
  · rw [concat_eq_append] at h hn ⊢
    have hhead : queue.head.isNone = false := by
      rw [h.head]
      cases M <;> rfl
    have htail : queue.tail = some last := by
      rw [h.tail]
      simp
    have hM : last ∉ M := h.chain.apart.1
    have hne : node ≠ last := by
      rintro rfl
      simp at hn
    simp only [hhead, htail, Bool.false_eq_true, if_false]
    refine ⟨?_, by simp, ?_⟩
    · refine seg_append.mpr ⟨some node, h.chain.retarget hM, rfl, ?_⟩
      show update _ _ _ _ = _
      rw [update_of_ne hne]
      exact h.loose node hn
    · intro a ha
      show update _ _ _ _ = _
      rw [update_of_ne]
      · exact h.loose a fun hmem => ha (mem_append_left _ hmem)
      · rintro rfl
        simp at ha

/-! ## Taking the first node -/

theorem pop_cons (h : queue.Holds (node :: L)) :
    ∃ queue', queue.pop = (some node, queue') ∧ queue'.Holds L := by
  have hhead : queue.head = some node := h.head
  have hnot : node ∉ L := (nodup_cons.mp h.nodup).1
  have hloose : ∀ a, a ∉ L → update queue.next node none a = none := by
    intro a ha
    by_cases he : a = node
    · rw [he, update_self]
    · rw [update_of_ne he]
      exact h.loose a (by simp [he, ha])
  unfold pop
  simp only [hhead]
  refine ⟨_, rfl, ?_⟩
  cases L with
  | nil =>
    have htail : ¬some node ≠ queue.tail := not_not_intro h.tail.symm
    rw [if_neg htail]
    exact ⟨rfl, rfl, hloose⟩
  | cons b L =>
    have htail : some node ≠ queue.tail := by
      rw [h.tail, getLast?_cons_cons]
      intro he
      exact hnot (mem_of_getLast? he.symm)
    rw [if_pos htail]
    exact ⟨h.chain.2.update hnot, h.tail.trans getLast?_cons_cons, hloose⟩

/-! ## Removing a node -/

theorem unlink_holds (h : queue.Holds (M ++ prev :: node :: N)) {queue' : IntrusiveQueue ι}
    (hq : queue' = if some node = queue.tail then { queue with tail := some prev } else queue) :
    ((queue'.setNext prev (queue'.next node)).setNext node none).Holds (M ++ prev :: N) := by
  have hnode : node ∉ N := by
    have hchain := h.chain
    rw [append_cons] at hchain
    exact hchain.apart.2
  have hnext : queue'.next = queue.next ∧ queue'.head = queue.head := by
    rw [hq]
    split <;> exact ⟨rfl, rfl⟩
  have htail : queue'.tail = (M ++ prev :: N).getLast? := by
    have hlast : (M ++ prev :: node :: N).getLast? = (node :: N).getLast? := by
      rw [getLast?_append_of_ne_nil _ (by simp), getLast?_cons_cons]
    rw [hq, h.tail, hlast, getLast?_append_of_ne_nil _ (by simp)]
    cases N with
    | nil => simp
    | cons b N =>
      have hnot : some node ≠ (b :: N).getLast? := fun he => hnode (mem_of_getLast? he.symm)
      rw [getLast?_cons_cons, getLast?_cons_cons, if_neg hnot, h.tail, hlast,
        getLast?_cons_cons]
  refine ⟨?_, htail, ?_⟩
  · unfold setNext
    simp only [hnext.1, hnext.2]
    exact h.chain.unlink
  · intro a ha
    unfold setNext
    simp only [hnext.1]
    by_cases he : a = node
    · rw [he, update_self]
    · have hap : a ≠ prev := by
        rintro rfl
        simp at ha
      rw [update_of_ne he, update_of_ne hap]
      exact h.loose a (by simp_all)

theorem removeLoop_holds : ∀ {N M : List ι} {p : Option ι} (fuel : Nat),
    queue.Holds (M ++ N) → Seg queue.next p N none →
    (queue.removeLoop node fuel p = none ∧ fuel ≤ N.length) ∨
    (node ∈ N.tail ∧ ∃ queue', queue.removeLoop node fuel p = some (true, queue') ∧
      queue'.Holds ((M ++ N).erase node)) ∨
    node ∉ N.tail ∧ queue.removeLoop node fuel p = some (false, queue)
  | N, M, p, 0, _, _ => .inl ⟨rfl, Nat.zero_le _⟩
  | [], M, p, fuel + 1, _, hp => by
    rw [seg_nil] at hp
    rw [hp]
    exact .inr (.inr ⟨not_mem_nil, rfl⟩)
  | a :: N, M, p, fuel + 1, h, hp => by
    obtain ⟨rfl, hN⟩ := hp
    rw [removeLoop]
    by_cases hnext : queue.next a = some node
    · rw [if_pos hnext]
      rw [hnext] at hN
      cases N with
      | nil => cases hN
      | cons b N =>
        obtain rfl : node = b := Option.some.inj hN.1
        refine .inr (.inl ⟨mem_cons_self, _, rfl, ?_⟩)
        have hmem : node ∉ M ++ [a] := by
          have hnd := h.nodup
          rw [append_cons, nodup_append] at hnd
          exact fun hm => hnd.2.2 node hm node mem_cons_self rfl
        have herase : (M ++ a :: node :: N).erase node = M ++ a :: N := by
          rw [append_cons, erase_append_right _ hmem, erase_cons_head,
            ← append_cons]
        rw [herase]
        exact unlink_holds h rfl
    · rw [if_neg hnext]
      rw [append_cons] at h
      have hhead : N.head? ≠ some node := by
        rw [← hN.start]
        exact hnext
      have htail : node ∈ N ↔ node ∈ N.tail := by
        cases N with
        | nil => simp
        | cons b N =>
          have hb : node ≠ b := fun he => hhead (by simp [he])
          simp [hb]
      rw [append_cons, tail_cons, htail]
      rcases removeLoop_holds fuel h hN with ⟨hf, hle⟩ | hin | hout
      · exact .inl ⟨hf, Nat.succ_le_succ hle⟩
      · exact .inr (.inl hin)
      · exact .inr (.inr hout)

theorem remove_holds (fuel : Nat) (node : ι) (h : queue.Holds L) :
    (queue.remove fuel node = none ∧ fuel ≤ L.length) ∨
    ∃ queue', queue.remove fuel node = some (decide (node ∈ L), queue') ∧
      queue'.Holds (L.erase node) := by
  unfold remove
  by_cases hhead : some node = queue.head
  · rw [if_pos hhead]
    have hL : L.head? = some node := h.head.symm.trans hhead.symm
    cases L with
    | nil => cases hL
    | cons a L =>
      obtain rfl : a = node := Option.some.inj hL
      have hnot : a ∉ L := (nodup_cons.mp h.nodup).1
      have hchain := h.chain.2
      rw [erase_cons_head, decide_eq_true mem_cons_self]
      right
      cases L with
      | nil =>
        have hnone : queue.next a = none := hchain
        rw [if_neg (not_not_intro hnone)]
        refine ⟨_, rfl, rfl, rfl, ?_⟩
        intro b _
        by_cases hb : b = a
        · rw [hb]
          exact hnone
        · exact h.loose b (by simp [hb])
      | cons b L =>
        have hsome : queue.next a ≠ none := by
          rw [hchain.1]
          simp
        rw [if_pos hsome]
        refine ⟨_, rfl, hchain.update hnot, h.tail.trans getLast?_cons_cons, ?_⟩
        intro c hc
        show update _ _ _ _ = _
        by_cases hca : c = a
        · rw [hca, update_self]
        · rw [update_of_ne hca]
          exact h.loose c (by simp_all)
  · rw [if_neg hhead]
    have hmem : node ∈ L ↔ node ∈ L.tail := by
      rw [h.head] at hhead
      cases L with
      | nil => simp
      | cons a L =>
        have hne : node ≠ a := fun he => hhead (by simp [he])
        simp [hne]
    have h' : queue.Holds ([] ++ L) := h
    rcases removeLoop_holds fuel h' h.chain with hf | ⟨hin, queue', hq, hL⟩ | ⟨hout, hq⟩
    · exact .inl hf
    · rw [hq, decide_eq_true (hmem.mpr hin)]
      exact .inr ⟨queue', rfl, hL⟩
    · have hn : node ∉ L := mt hmem.mp hout
      rw [hq, decide_eq_false hn, erase_of_not_mem hn]
      exact .inr ⟨queue, rfl, h⟩

/-! ## A run -/

inductive QueueOp (ι : Type)
  | push (node : ι)
  | pop
  | remove (node : ι)

inductive QueueAnswer (ι : Type)
  | pushed
  | popped (node : Option ι)
  | removed (found : Bool)

def queueStep (fuel : Nat) (queue : IntrusiveQueue ι) :
    QueueOp ι → Option (IntrusiveQueue ι × QueueAnswer ι)
  | .push node => some (queue.push node, .pushed)
  | .pop => some (queue.pop.2, .popped queue.pop.1)
  | .remove node => (queue.remove fuel node).map fun r => (r.2, .removed r.1)

def fifoStep (L : List ι) : QueueOp ι → List ι × QueueAnswer ι
  | .push node => (if node ∈ L then L else L ++ [node], .pushed)
  | .pop => (L.tail, .popped L.head?)
  | .remove node => (L.erase node, .removed (decide (node ∈ L)))

theorem queueStep_holds {fuel : Nat} (op : QueueOp ι) (h : queue.Holds L) (hfuel : L.length < fuel) :
    ∃ queue', queueStep fuel queue op = some (queue', (fifoStep L op).2) ∧
      queue'.Holds (fifoStep L op).1 := by
  cases op with
  | push node => exact ⟨_, rfl, push_holds node h⟩
  | pop =>
    cases L with
    | nil =>
      have hhead : queue.head = none := h.head
      have hpop : queue.pop = (none, queue) := by
        unfold pop
        rw [hhead]
      refine ⟨queue, ?_, h⟩
      rw [queueStep, hpop]
      rfl
    | cons node L =>
      obtain ⟨queue', hpop, hL⟩ := pop_cons h
      refine ⟨queue', ?_, hL⟩
      rw [queueStep, hpop]
      rfl
  | remove node =>
    rcases remove_holds fuel node h with ⟨-, hle⟩ | ⟨queue', hremove, hL⟩
    · omega
    · refine ⟨queue', ?_, hL⟩
      rw [queueStep, hremove]
      rfl

theorem length_fifoStep (L : List ι) (op : QueueOp ι) : (fifoStep L op).1.length ≤ L.length + 1 := by
  cases op with
  | push node =>
    dsimp only [fifoStep]
    split <;> simp
  | pop => exact Nat.le_succ_of_le (by simp [fifoStep])
  | remove node => exact Nat.le_succ_of_le length_erase_le

/-- **An intrusive queue is first in, first out**, with every call that is made of it: the loops end within one turn
more than there were calls, whatever has been pushed twice or was not there to be removed. -/
theorem intrusive_queue_fifo (ops : List (QueueOp ι)) (extra : Nat) :
    ∃ queue', runs (queueStep (ops.length + 1 + extra)) init ops =
        some (queue', (Infra.run fifoStep [] ops).2) ∧
      queue'.Holds (Infra.run fifoStep [] ops).1 ∧ (Infra.run fifoStep [] ops).1.Nodup ∧
      (queue'.head = none ↔ queue'.tail = none) := by
  have hguard : Guarded fifoStep (fun _ _ => True) [] ops := Guarded.of_forall_mem fun _ _ _ => trivial
  obtain ⟨queue', hrun, hL⟩ := Guarded.refined IntrusiveQueue.Holds List.length
    (fun _ _ op h _ hfuel => queueStep_holds op h hfuel) length_fifoStep hguard init_holds
    (show [].length + ops.length < ops.length + 1 + extra by simp; omega)
  refine ⟨queue', hrun, hL, hL.nodup, ?_⟩
  rw [hL.head, hL.tail, head?_eq_none_iff, getLast?_eq_none_iff]

end Gpmx.Container
