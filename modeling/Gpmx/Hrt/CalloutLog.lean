import Gpmx.Hrt.CalloutRuns

/-!
# What the callers of the timer see

The callout queue with a history of what was asked of it and of the calls it has made, newest
first. A call of the interface is noted with the time it asks for, before that is cut to the
64 bits of a `hrt_abstime`.

`OnTime` is what a caller may expect of a call, read off the history before it: it is not early,
it is in order among the calls of the same pass through the queue, it is made for the time that
was asked for or a whole number of periods later, and it is not the call of an entry that has
been cancelled.
-/

namespace Gpmx.Hrt

open Queue Infra Callouts List

inductive Event where
  /-- `hrt_call_after`, `hrt_call_at` or `hrt_call_every` asks for a call at `deadline`. -/
  | arm (entry : Entry) (deadline period : Nat)
  | delay (entry : Entry) (deadline : Nat)
  | cancel (entry : Entry)
  /-- `hrt_call_invoke` calls the callout of `entry`, which was due at `deadline`. -/
  | call (entry : Entry) (deadline now : Nat)
  /-- `hrt_call_invoke` finds nothing more that is due. -/
  | done

/-- What the operation adds to the history when it ends in `s`. -/
def Sys.events (s : Sys) : Op → List Event
  | .callAfter now entry delay _ _ => [.arm entry (now + delay) 0]
  | .callAt entry calltime _ _ => [.arm entry calltime 0]
  | .callEvery now entry delay interval _ _ => [.arm entry (now + delay) interval]
  | .cancel entry => [.cancel entry]
  | .callDelay now entry delay => [.delay entry (now + delay)]
  | .invoke _ =>
    match s.firing with
    | none => [.done]
    | some f => [.call f.call f.deadline f.now]
  | .ret => []

structure Logged where
  sys : Sys
  history : List Event

def Logged.step (l : Logged) (op : Nat × Op) : Option Logged :=
  (l.sys.step op).map fun sys => ⟨sys, sys.events op.2 ++ l.history⟩

def Logged.start (deadline period : Entry → Nat) (flink : Entry → Option Entry) : Logged :=
  ⟨Sys.start deadline period flink, []⟩

/-! ## What is expected of a call -/

/-- The event gives `entry` another deadline than its period does. -/
def Event.Disturbs (entry : Entry) : Event → Prop
  | .arm e _ _ => e = entry
  | .delay e _ => e = entry
  | .cancel e => e = entry
  | _ => False

def Event.isCall (entry : Entry) : Event → Bool
  | .call e _ _ => e = entry
  | _ => false

/-- How often `entry` has been called. -/
def calls (entry : Entry) (M : List Event) : Nat := M.countP (Event.isCall entry)

/-- `entry` was armed for `D` with the period `P`, and left alone during the events `M` since. -/
def Undisturbed (history : List Event) (entry : Entry) (M : List Event) (D P : Nat) : Prop :=
  ∃ A, history = M ++ .arm entry D P :: A ∧ ∀ x ∈ M, ¬x.Disturbs entry

/-- `d` is not before the deadlines called for since the pass began, as far as `entry` has been
queued or could be: what armed it or delayed it since, asked for no earlier time. -/
def Bound (history : List Event) (entry : Entry) (d : Nat) : Prop :=
  ∀ M e d' t A, history = M ++ .call e d' t :: A → .done ∉ M →
    (∀ D P, .arm entry D P ∈ M → d' ≤ D) → (∀ D, .delay entry D ∈ M → d' ≤ D) → d' ≤ d

/-- `d` is the deadline of the next call when the entry is left alone. -/
def Due (history : List Event) (entry : Entry) (d : Nat) : Prop :=
  ∀ M D P, Undisturbed history entry M D P → d = D + calls entry M * P

def Alive (history : List Event) (entry : Entry) : Prop :=
  ∀ M A, history = M ++ .cancel entry :: A → ∃ D P, .arm entry D P ∈ M

/-- The call of `entry` at time `now`, for `deadline`, after `past`. -/
structure OnTime (past : List Event) (entry : Entry) (deadline now : Nat) : Prop where
  notEarly : deadline ≤ now
  inOrder : Bound past entry deadline
  schedule : Due past entry deadline
  alive : Alive past entry

def Punctual (history : List Event) : Prop :=
  ∀ N entry deadline now past, history = N ++ .call entry deadline now :: past →
    OnTime past entry deadline now

/-! ## The condition on a step -/

def Op.asks : Op → Option Nat
  | .callAfter now _ delay _ _ => some (now + delay)
  | .callAt _ calltime _ _ => some calltime
  | .callEvery now _ delay _ _ _ => some (now + delay)
  | .callDelay now _ delay => some (now + delay)
  | _ => none

structure Timely (l : Logged) (op : Nat × Op) : Prop where
  within : Within l.sys op
  asks : ∀ t, op.2.asks = some t → t < 2 ^ 64
  next : ∀ f, op.2 = .ret → l.sys.firing = some f → l.sys.callouts.period f.call ≠ 0 →
    l.sys.callouts.deadline f.call ≤ f.now → f.deadline + l.sys.callouts.period f.call < 2 ^ 64

theorem absTime_of_lt {n : Nat} (h : n < 2 ^ 64) : absTime n = n := Nat.mod_eq_of_lt h

/-! ## A history that grows by one event -/

variable {h A M : List Event} {x : Event} {entry e : Entry} {d d' t D P : Nat}

theorem undisturbed_cons : Undisturbed (x :: h) entry M D P ↔
    (M = [] ∧ x = .arm entry D P) ∨
    ∃ M', M = x :: M' ∧ ¬x.Disturbs entry ∧ Undisturbed h entry M' D P := by
  constructor
  · rintro ⟨A, heq, hM⟩
    rcases cons_eq_append_iff.mp heq with ⟨rfl, harm⟩ | ⟨M', rfl, hrest⟩
    · exact .inl ⟨rfl, (List.cons.inj harm).1.symm⟩
    · obtain ⟨hx, hM'⟩ := forall_mem_cons.mp hM
      exact .inr ⟨M', rfl, hx, A, hrest, hM'⟩
  · rintro (⟨rfl, rfl⟩ | ⟨M', rfl, hx, A, rfl, hM'⟩)
    · exact ⟨h, rfl, by rintro y ⟨⟩⟩
    · exact ⟨A, rfl, forall_mem_cons.mpr ⟨hx, hM'⟩⟩

theorem not_undisturbed_nil : ¬Undisturbed [] entry M D P := by
  rintro ⟨A, heq, -⟩
  simp at heq

theorem calls_cons (hx : x.isCall entry = false) : calls entry (x :: M) = calls entry M :=
  countP_cons_of_neg (by rw [hx]; exact Bool.false_ne_true)

theorem calls_call : calls entry (.call entry d t :: M) = calls entry M + 1 :=
  countP_cons_of_pos (decide_eq_true rfl)

theorem Due.cons (hd : Due h entry d) (hx : ¬x.Disturbs entry) (hc : x.isCall entry = false) :
    Due (x :: h) entry d := by
  intro M D P hM
  rcases undisturbed_cons.mp hM with ⟨rfl, rfl⟩ | ⟨M', rfl, -, hM'⟩
  · exact absurd rfl hx
  · rw [calls_cons hc]
    exact hd M' D P hM'

theorem Due.arm : Due (.arm entry D P :: h) entry D := by
  intro M D' P' hM
  rcases undisturbed_cons.mp hM with ⟨rfl, heq⟩ | ⟨M', rfl, hx, -⟩
  · cases heq
    simp [calls]
  · exact absurd rfl hx

theorem Due.delay : Due (.delay entry D :: h) entry d := by
  intro M D' P' hM
  rcases undisturbed_cons.mp hM with ⟨rfl, ⟨⟩⟩ | ⟨M', rfl, hx, -⟩
  exact absurd rfl hx

theorem Bound.mono (hb : Bound h entry d) (hle : d ≤ d') : Bound h entry d' :=
  fun M e d₁ t A heq hdone harm hdelay => (hb M e d₁ t A heq hdone harm hdelay).trans hle

theorem Bound.cons (hb : Bound h entry d) (hx : ∀ e d₁ t, x = .call e d₁ t → d₁ ≤ d) :
    Bound (x :: h) entry d := by
  intro M e d₁ t A heq hdone harm hdelay
  rcases cons_eq_append_iff.mp heq with ⟨rfl, hcall⟩ | ⟨M', rfl, hrest⟩
  · exact hx e d₁ t (List.cons.inj hcall).1.symm
  · exact hb M' e d₁ t A hrest (fun hm => hdone (mem_cons_of_mem _ hm))
      (fun D P hm => harm D P (mem_cons_of_mem _ hm))
      fun D hm => hdelay D (mem_cons_of_mem _ hm)

theorem Bound.arm : Bound (.arm entry D P :: h) entry D := by
  intro M e d₁ t A heq _ harm _
  rcases cons_eq_append_iff.mp heq with ⟨rfl, ⟨⟩⟩ | ⟨M', rfl, -⟩
  exact harm D P mem_cons_self

theorem Bound.delay : Bound (.delay entry D :: h) entry D := by
  intro M e d₁ t A heq _ _ hdelay
  rcases cons_eq_append_iff.mp heq with ⟨rfl, ⟨⟩⟩ | ⟨M', rfl, -⟩
  exact hdelay D mem_cons_self

theorem Bound.done : Bound (.done :: h) entry d := by
  intro M e d₁ t A heq hdone _ _
  rcases cons_eq_append_iff.mp heq with ⟨rfl, ⟨⟩⟩ | ⟨M', rfl, -⟩
  exact absurd mem_cons_self hdone

theorem Alive.cons (ha : Alive h entry) (hx : x ≠ .cancel entry) : Alive (x :: h) entry := by
  intro M A heq
  rcases cons_eq_append_iff.mp heq with ⟨rfl, hcancel⟩ | ⟨M', rfl, hrest⟩
  · exact absurd (List.cons.inj hcancel).1.symm hx
  · obtain ⟨D, P, hmem⟩ := ha M' A hrest
    exact ⟨D, P, mem_cons_of_mem _ hmem⟩

theorem Alive.arm : Alive (.arm entry D P :: h) entry := by
  intro M A heq
  rcases cons_eq_append_iff.mp heq with ⟨rfl, ⟨⟩⟩ | ⟨M', rfl, -⟩
  exact ⟨D, P, mem_cons_self⟩

theorem Punctual.cons (hp : Punctual h)
    (hx : ∀ e d t, x = .call e d t → OnTime h e d t) : Punctual (x :: h) := by
  intro N e d t past heq
  rcases cons_eq_append_iff.mp heq with ⟨rfl, hcall⟩ | ⟨N', rfl, hrest⟩
  · obtain ⟨rfl, rfl⟩ := List.cons.inj hcall
    exact hx e d t rfl
  · exact hp N' e d t past hrest

end Gpmx.Hrt
