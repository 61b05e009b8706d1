import Gpmx.Queue.Links
import Mathlib

/-!
# The callouts of the high resolution timer

The callout list of `gpm/sched/platform/hrt/hrt_stm32.c`. The entries that are due to be called
are linked into `callout_queue`, the earliest first; whether an entry may be queued is read off
its `deadline`, which is 0 once it has been called.

`hrt_call_invoke` runs a callout between taking its entry out of the queue and putting a
periodic one back. It is modelled in these two parts, with the local variables of the loop
(`Firing`) kept in between, so that the callout may call any function of the interface.

What `hrt_absolute_time` returns comes in as `now`. A function is `none` where it would follow a
NULL pointer or needs more than `fuel` turns through the queue.
-/

namespace Gpmx.Hrt

open Queue Function List

/-- The address of a `struct hrt_call`. -/
abbrev Entry := Nat

/-- `callout_queue` and the fields of every entry. -/
structure Callouts where
  queue : Sq Entry
  deadline : Entry → Nat
  period : Entry → Nat
  callout : Entry → Option Nat
  arg : Entry → Nat

/-- A `hrt_abstime` has 64 bits. -/
def absTime (n : Nat) : Nat := n % 2 ^ 64

namespace Callouts

/-- `entry->deadline = t` -/
def setDeadline (s : Callouts) (entry : Entry) (t : Nat) : Callouts :=
  { s with deadline := update s.deadline entry t }

/-- `entry->period = t` -/
def setPeriod (s : Callouts) (entry : Entry) (t : Nat) : Callouts :=
  { s with period := update s.period entry t }

/-- The loop of `hrt_call_enter`, from the entry `call` on. -/
def enterLoop (s : Callouts) (entry : Entry) : Nat → Entry → Option (Sq Entry)
  | 0, _ => none
  | fuel + 1, call =>
    match s.queue.flink call with
    | none => s.queue.addafter call entry
    | some next =>
      if s.deadline entry < s.deadline next then s.queue.addafter call entry
      else s.enterLoop entry fuel next

/-- `hrt_call_enter`; `hrt_call_reschedule`, called for a new head, does not touch the queue. -/
def hrtCallEnter (fuel : Nat) (entry : Entry) (s : Callouts) : Option Callouts :=
  match s.queue.head with
  | none => some { s with queue := s.queue.addfirst entry }
  | some call =>
    if s.deadline entry < s.deadline call then some { s with queue := s.queue.addfirst entry }
    else (s.enterLoop entry fuel call).map fun queue => { s with queue }

/-- The first part of `hrt_call_internal`: an entry that may be queued is taken out. -/
def unlinkQueued (fuel : Nat) (entry : Entry) (s : Callouts) : Option (Sq Entry) :=
  if s.deadline entry ≠ 0 then s.queue.rem fuel entry else some s.queue

def assign (entry : Entry) (deadline interval : Nat) (callout : Option Nat) (arg : Nat)
    (s : Callouts) (queue : Sq Entry) : Callouts :=
  { queue
    deadline := update s.deadline entry deadline
    period := update s.period entry interval
    callout := update s.callout entry callout
    arg := update s.arg entry arg }

def hrtCallInternal (fuel : Nat) (entry : Entry) (deadline interval : Nat) (callout : Option Nat)
    (arg : Nat) (s : Callouts) : Option Callouts := do
  let queue ← s.unlinkQueued fuel entry
  hrtCallEnter fuel entry (s.assign entry deadline interval callout arg queue)

def hrtCallAfter (fuel now : Nat) (entry : Entry) (delay : Nat) (callout : Option Nat) (arg : Nat)
    (s : Callouts) : Option Callouts :=
  s.hrtCallInternal fuel entry (absTime (now + delay)) 0 callout arg

def hrtCallAt (fuel : Nat) (entry : Entry) (calltime : Nat) (callout : Option Nat) (arg : Nat)
    (s : Callouts) : Option Callouts :=
  s.hrtCallInternal fuel entry calltime 0 callout arg

def hrtCallEvery (fuel now : Nat) (entry : Entry) (delay interval : Nat) (callout : Option Nat)
    (arg : Nat) (s : Callouts) : Option Callouts :=
  s.hrtCallInternal fuel entry (absTime (now + delay)) interval callout arg

def hrtCalled (entry : Entry) (s : Callouts) : Bool := s.deadline entry = 0

def hrtCancel (fuel : Nat) (entry : Entry) (s : Callouts) : Option Callouts := do
  let queue ← s.queue.rem fuel entry
  some (({ s with queue }.setDeadline entry 0).setPeriod entry 0)

def hrtCallDelay (now : Nat) (entry : Entry) (delay : Nat) (s : Callouts) : Callouts :=
  s.setDeadline entry (absTime (now + delay))

/-- The local variables of `hrt_call_invoke` while a callout runs. -/
structure Firing where
  call : Entry
  deadline : Nat
  now : Nat

/-- A turn of `hrt_call_invoke` up to the callout, or its end when nothing is due. -/
def invokePop (fuel now : Nat) (s : Callouts) : Option (Callouts × Option Firing) :=
  match s.queue.head with
  | none => some (s, none)
  | some call =>
    if s.deadline call > now then some (s, none)
    else do
      let queue ← s.queue.rem fuel call
      some ({ s with queue }.setDeadline call 0, some ⟨call, s.deadline call, now⟩)

def invokeReturn (fuel : Nat) (f : Firing) (s : Callouts) : Option Callouts :=
  if s.period f.call ≠ 0 then
    if s.deadline f.call ≤ f.now then
      (s.setDeadline f.call (absTime (f.deadline + s.period f.call))).hrtCallEnter fuel f.call
    else s.hrtCallEnter fuel f.call
  else some s

end Callouts

open Callouts

variable {s : Callouts} {L : List Entry} {entry : Entry}

/-! ## `hrt_call_enter` on lists -/

/-- The queue after an entry has been put behind those that are not due later. -/
def inserted (deadline : Entry → Nat) (entry : Entry) (L : List Entry) : List Entry :=
  L.orderedInsert (fun a b => deadline a < deadline b) entry

theorem mem_inserted {deadline : Entry → Nat} {a : Entry} :
    a ∈ inserted deadline entry L ↔ a = entry ∨ a ∈ L := mem_orderedInsert _

def InOrder (deadline : Entry → Nat) (L : List Entry) : Prop :=
  L.Pairwise fun a b => deadline a ≤ deadline b

theorem InOrder.inserted {deadline : Entry → Nat} : ∀ {L : List Entry}, InOrder deadline L →
    InOrder deadline (inserted deadline entry L)
  | [], _ => pairwise_singleton _ _
  | a :: L, h => by
    obtain ⟨ha, hL⟩ := pairwise_cons.mp h
    unfold Hrt.inserted
    rw [orderedInsert_cons]
    split
    · rename_i hlt
      refine pairwise_cons.mpr ⟨?_, h⟩
      intro b hb
      rcases mem_cons.mp hb with rfl | hb
      · exact Nat.le_of_lt hlt
      · exact Nat.le_trans (Nat.le_of_lt hlt) (ha b hb)
    · rename_i hle
      refine pairwise_cons.mpr ⟨?_, InOrder.inserted hL⟩
      intro b hb
      rcases mem_inserted.mp hb with rfl | hb
      · exact Nat.le_of_not_lt hle
      · exact ha b hb

theorem InOrder.congr {deadline deadline' : Entry → Nat} (h : InOrder deadline L)
    (heq : ∀ a ∈ L, deadline' a = deadline a) : InOrder deadline' L := by
  refine List.Pairwise.imp_of_mem ?_ h
  intro a b ha hb hle
  rw [heq a ha, heq b hb]
  exact hle

theorem enterLoop_holds : ∀ {N M : List Entry} {call : Entry} (fuel : Nat),
    s.queue.Holds (M ++ call :: N) → entry ∉ M ++ call :: N →
    (s.enterLoop entry fuel call = none ∧ fuel ≤ N.length) ∨
    ∃ q', s.enterLoop entry fuel call = some q' ∧
      q'.Holds (M ++ call :: inserted s.deadline entry N)
  | N, M, call, 0, _, _ => .inl ⟨rfl, Nat.zero_le _⟩
  | N, M, call, fuel + 1, h, hn => by
    obtain ⟨r, -, rfl, hnext⟩ := Infra.seg_append.mp h.chain
    rw [enterLoop, hnext.start]
    cases N with
    | nil => exact .inr (addafter_holds h hn)
    | cons next N =>
      dsimp only [head?_cons]
      unfold inserted
      rw [orderedInsert_cons]
      by_cases hlt : s.deadline entry < s.deadline next
      · rw [if_pos hlt, if_pos hlt]
        exact .inr (addafter_holds h hn)
      · rw [if_neg hlt, if_neg hlt]
        have happ : M ++ call :: next :: N = (M ++ [call]) ++ next :: N := by simp
        rw [happ] at h hn
        rcases enterLoop_holds fuel h hn with ⟨hnone, hle⟩ | ⟨q', hq, hL⟩
        · exact .inl ⟨hnone, Nat.succ_le_succ hle⟩
        · refine .inr ⟨q', hq, ?_⟩
          rw [append_assoc] at hL
          exact hL

/-- **`hrt_call_enter` puts an entry that is not queued in its place.** -/
theorem hrtCallEnter_holds (fuel : Nat) (h : s.queue.Holds L) (hn : entry ∉ L) :
    (s.hrtCallEnter fuel entry = none ∧ fuel ≤ L.length) ∨
    ∃ q', s.hrtCallEnter fuel entry = some { s with queue := q' } ∧
      q'.Holds (inserted s.deadline entry L) := by
  unfold hrtCallEnter
  rw [h.head]
  cases L with
  | nil => exact .inr ⟨_, rfl, addfirst_holds h hn⟩
  | cons call L =>
    dsimp only [head?_cons]
    unfold inserted
    rw [orderedInsert_cons]
    by_cases hlt : s.deadline entry < s.deadline call
    · rw [if_pos hlt, if_pos hlt]
      exact .inr ⟨_, rfl, addfirst_holds h hn⟩
    · rw [if_neg hlt, if_neg hlt]
      have h' : s.queue.Holds ([] ++ call :: L) := h
      rcases enterLoop_holds fuel h' hn with ⟨hnone, hle⟩ | ⟨q', hq, hL⟩
      · rw [hnone]
        exact .inl ⟨rfl, Nat.le_succ_of_le hle⟩
      · rw [hq]
        exact .inr ⟨q', rfl, hL⟩

end Gpmx.Hrt
