import Mathlib

/-!
# Thread-specific data

`gpm/libs/libc/pthread/pthread_tls.c` over RT-Thread, with what `pthread_create` and
`_pthread_data_destroy` do to the records of a thread. A call is `none` where it follows a NULL
pointer.

The kernel's record of a thread has two fields for the record of `pthread`: `pthread_create` sets
`pthread_data`, and `pthread_tls.c` reads `user_data`, which `rt_thread_init` has set to 0.
-/

namespace Gpmx.Pthread.Tls

open Function

def PTHREAD_KEY_MAX : Nat := 8

def EAGAIN : Int := 11

def EINVAL : Int := 22

/-- `_pthread_key_data_t` -/
structure Key where
  isUsed : Bool
  destructor : Option Nat

/-- `_thread_keys`, and of each thread the two fields and the `tls` of its record; NULL is 0. -/
structure Sys (T : Type) where
  threadKeys : Nat → Key
  userData : T → Option T
  pthreadData : T → Option T
  tls : T → Option (Nat → Nat)

def start (T : Type) : Sys T where
  threadKeys _ := ⟨false, none⟩
  userData _ := none
  pthreadData _ := none
  tls _ := none

/-- The calls. `self` is what `rt_thread_self` returns, `malloc` what `rt_malloc` gets, with any
contents. -/
inductive Call (T : Type) where
  | pthreadCreate (t : T)
  /-- `_pthread_data_destroy`, at the end of the thread or when it is joined -/
  | dataDestroy (t : T)
  | keyCreate (destructor : Option Nat)
  | keyDelete (key : Nat)
  | setspecific (self : Option T) (key value : Nat) (malloc : Option (Nat → Nat))
  | getspecific (self : Option T) (key : Nat)

inductive Answer where
  | ret (ret : Int)
  | key (key : Nat)
  | value (value : Nat)
  /-- the destructors that are called, with their arguments -/
  | called (calls : List (Nat × Nat))

variable {T : Type}

namespace Sys

def keyCreate (destructor : Option Nat) (s : Sys T) : Answer × Sys T :=
  match (List.range PTHREAD_KEY_MAX).find? fun index => !(s.threadKeys index).isUsed with
  | some index => (.key index, { s with threadKeys := update s.threadKeys index ⟨true, destructor⟩ })
  | none => (.ret EAGAIN, s)

def keyDelete (key : Nat) (s : Sys T) : Answer × Sys T :=
  if key ≥ PTHREAD_KEY_MAX then (.ret EINVAL, s)
  else (.ret 0, { s with threadKeys := update s.threadKeys key ⟨false, none⟩ })

def getspecific (self : Option T) (key : Nat) (s : Sys T) : Option Answer :=
  match self with
  | none => some (.value 0)
  | some t => do
    let ptd ← s.userData t
    match s.tls ptd with
    | none => some (.value 0)
    | some tls =>
      if key < PTHREAD_KEY_MAX ∧ (s.threadKeys key).isUsed then some (.value (tls key))
      else some (.value 0)

variable [DecidableEq T]

def setspecific (self : Option T) (key value : Nat) (malloc : Option (Nat → Nat)) (s : Sys T) :
    Option (Answer × Sys T) :=
  match self with
  | none => some (.ret EINVAL, s)
  | some t => do
    let ptd ← s.userData t
    let tls := s.tls ptd <|> malloc
    if key < PTHREAD_KEY_MAX ∧ (s.threadKeys key).isUsed then do
      let tls ← tls
      some (.ret 0, { s with tls := update s.tls ptd (some (update tls key value)) })
    else some (.ret EINVAL, { s with tls := update s.tls ptd tls })

def pthreadCreate (t : T) (s : Sys T) : Sys T :=
  { s with
    tls := update s.tls t none
    userData := update s.userData t none
    pthreadData := update s.pthreadData t (some t) }

/-- The loop over the keys. -/
def destroyed (s : Sys T) (tls : Nat → Nat) : List (Nat × Nat) :=
  (List.range PTHREAD_KEY_MAX).filterMap fun index =>
    if (s.threadKeys index).isUsed ∧ tls index ≠ 0 then
      (s.threadKeys index).destructor.map fun destructor => (destructor, tls index)
    else none

def dataDestroy (t : T) (s : Sys T) : Answer × Sys T :=
  (.called ((s.tls t).elim [] s.destroyed),
    { s with tls := update s.tls t none, pthreadData := update s.pthreadData t none })

def step (s : Sys T) : Call T → Option (Answer × Sys T)
  | .pthreadCreate t => some (.ret 0, s.pthreadCreate t)
  | .dataDestroy t => some (s.dataDestroy t)
  | .keyCreate destructor => some (s.keyCreate destructor)
  | .keyDelete key => some (s.keyDelete key)
  | .setspecific self key value malloc => s.setspecific self key value malloc
  | .getspecific self key => (s.getspecific self key).map fun answer => (answer, s)

end Sys

/-! ## A map for each thread -/

structure Maps (T : Type) where
  live : Nat → Bool
  destructor : Nat → Option Nat
  value : T → Nat → Nat

def Maps.start (T : Type) : Maps T := ⟨fun _ => false, fun _ => none, fun _ _ => 0⟩

/-- What the calls, with these answers, make of the keys and of the values. -/
def Maps.step [DecidableEq T] (m : Maps T) : Call T → Answer → Maps T
  | .pthreadCreate t, _ => { m with value := update m.value t fun _ => 0 }
  | .keyCreate destructor, .key key =>
    { live := update m.live key true
      destructor := update m.destructor key destructor
      value := fun t => update (m.value t) key 0 }
  | .keyDelete key, .ret 0 => { m with live := update m.live key false }
  | .setspecific (some t) key value _, .ret 0 =>
    { m with value := update m.value t (update (m.value t) key value) }
  | _, _ => m

/-- The destructor of each live key that the thread has a value for, once and with that value. -/
def Maps.destroyed (m : Maps T) (t : T) : List (Nat × Nat) :=
  (List.range PTHREAD_KEY_MAX).filterMap fun key =>
    if m.live key ∧ m.value t key ≠ 0 then
      (m.destructor key).map fun destructor => (destructor, m.value t key)
    else none

/-- The answer is what the maps say; a key that is created is not live. -/
def Maps.Right (m : Maps T) : Call T → Answer → Prop
  | .keyCreate _, .key key => m.live key = false
  | .getspecific self key, .value value => value = self.elim 0 fun t => m.value t key
  | .dataDestroy t, .called calls => calls.Perm (m.destroyed t)
  | _, _ => True

variable [DecidableEq T]

/-- Every call returns, with the right answer. -/
def Meets : Sys T → Maps T → List (Call T) → Prop
  | _, _, [] => True
  | s, m, call :: calls =>
    ∃ answer s', s.step call = some (answer, s') ∧ m.Right call answer ∧
      Meets s' (m.step call answer) calls

/-- A thread reads or sets a value. -/
def Call.UsesData : Call T → Prop
  | .setspecific self _ _ _ | .getspecific self _ => self.isSome
  | _ => False

/-! ## Which runs are right -/

/-- `user_data` is NULL, and so no thread has values; the table has the keys that are live. -/
structure Unlinked (s : Sys T) (m : Maps T) : Prop where
  userData : ∀ t, s.userData t = none
  tls : ∀ t, s.tls t = none
  value : ∀ t key, m.value t key = 0
  live : ∀ key, m.live key = (s.threadKeys key).isUsed

variable {s s' : Sys T} {m : Maps T} {call : Call T} {answer : Answer}

theorem Unlinked.faults (h : Unlinked s m) (hcall : call.UsesData) : s.step call = none := by
  cases call with
  | setspecific self key value malloc =>
    obtain ⟨t, rfl⟩ := Option.isSome_iff_exists.mp hcall
    simp [Sys.step, Sys.setspecific, h.userData]
  | getspecific self key =>
    obtain ⟨t, rfl⟩ := Option.isSome_iff_exists.mp hcall
    simp [Sys.step, Sys.getspecific, h.userData]
  | _ => exact hcall.elim

omit [DecidableEq T] in
theorem Maps.destroyed_eq_nil {t : T} (h : ∀ key, m.value t key = 0) : m.destroyed t = [] := by
  refine List.filterMap_eq_nil_iff.mpr fun key _ => ?_
  rw [if_neg fun hkey => hkey.2 (h key)]

theorem update_live {live : Nat → Bool} {keys : Nat → Key} (h : ∀ key, live key = (keys key).isUsed)
    (index : Nat) (k : Key) (key : Nat) :
    update live index k.isUsed key = (update keys index k key).isUsed := by
  rw [update_apply, update_apply]
  split
  · rfl
  · exact h key

theorem Unlinked.keyCreate (h : Unlinked s m) (destructor : Option Nat) :
    m.Right (.keyCreate destructor) (s.keyCreate destructor).1 ∧
      Unlinked (s.keyCreate destructor).2
        (m.step (.keyCreate destructor) (s.keyCreate destructor).1) := by
  unfold Sys.keyCreate
  split
  next index hindex =>
    have hfree : (s.threadKeys index).isUsed = false := by simpa using List.find?_some hindex
    refine ⟨(h.live index).trans hfree, h.userData, h.tls, fun t key => ?_, ?_⟩
    · show update (m.value t) index 0 key = 0
      rw [update_apply, h.value, ite_self]
    · exact update_live h.live index ⟨true, destructor⟩
  · exact ⟨trivial, h⟩

theorem Unlinked.keyDelete (h : Unlinked s m) (key : Nat) :
    Unlinked (s.keyDelete key).2 (m.step (.keyDelete key) (s.keyDelete key).1) := by
  unfold Sys.keyDelete
  split
  · exact h
  · exact ⟨h.userData, h.tls, h.value, update_live h.live key ⟨false, none⟩⟩

/-- Any other call is right, and leaves `user_data` alone. -/
theorem Unlinked.step (h : Unlinked s m) (hcall : ¬call.UsesData) :
    ∃ answer s', s.step call = some (answer, s') ∧ m.Right call answer ∧
      Unlinked s' (m.step call answer) := by
  cases call with
  | pthreadCreate t =>
    refine ⟨_, _, rfl, trivial, fun u => ?_, fun u => ?_, fun u key => ?_, h.live⟩
    · show update s.userData t none u = none
      rw [update_apply, h.userData, ite_self]
    · show update s.tls t none u = none
      rw [update_apply, h.tls, ite_self]
    · show update m.value t (fun _ => 0) u key = 0
      rw [update_apply]
      split
      · rfl
      · exact h.value u key
  | dataDestroy t =>
    refine ⟨_, _, rfl, ?_, h.userData, fun u => ?_, h.value, h.live⟩
    · show ((s.tls t).elim [] s.destroyed).Perm (m.destroyed t)
      rw [h.tls, Maps.destroyed_eq_nil (h.value t)]
      exact List.Perm.refl _
    · show update s.tls t none u = none
      rw [update_apply, h.tls, ite_self]
  | keyCreate destructor =>
    obtain ⟨hright, hnext⟩ := h.keyCreate destructor
    exact ⟨_, _, rfl, hright, hnext⟩
  | keyDelete key =>
    exact ⟨_, _, rfl, trivial, h.keyDelete key⟩
  | setspecific self key value malloc =>
    obtain rfl := Option.not_isSome_iff_eq_none.mp hcall
    exact ⟨_, _, rfl, trivial, h⟩
  | getspecific self key =>
    obtain rfl := Option.not_isSome_iff_eq_none.mp hcall
    exact ⟨_, _, rfl, rfl, h⟩

/--
**A run of the calls is right if and only if no thread reads or sets a value in it.** Such a call
follows `user_data`, which is NULL in every thread.
-/
theorem meets_iff (calls : List (Call T)) :
    Meets (start T) (Maps.start T) calls ↔ ∀ call ∈ calls, ¬call.UsesData := by
  have hrun : ∀ (calls : List (Call T)) {s : Sys T} {m : Maps T}, Unlinked s m →
      (Meets s m calls ↔ ∀ call ∈ calls, ¬call.UsesData) := by
    intro calls
    induction calls with
    | nil => exact fun _ => iff_of_true trivial nofun
    | cons call calls ih =>
      intro s m h
      rw [List.forall_mem_cons]
      constructor
      · rintro ⟨answer, s', hstep, -, hmeets⟩
        have hcall : ¬call.UsesData := fun hcall => by
          rw [h.faults hcall] at hstep
          cases hstep
        obtain ⟨answer', s'', hstep', -, hnext⟩ := h.step hcall
        rw [hstep] at hstep'
        cases hstep'
        exact ⟨hcall, (ih hnext).mp hmeets⟩
      · rintro ⟨hcall, hcalls⟩
        obtain ⟨answer, s', hstep, hright, hnext⟩ := h.step hcall
        exact ⟨answer, s', hstep, hright, (ih hnext).mpr hcalls⟩
  exact hrun calls ⟨fun _ => rfl, fun _ => rfl, fun _ _ => rfl, fun _ => rfl⟩

/-- A thread that has set no value asks for one. -/
theorem not_meets : ¬∀ calls : List (Call Unit), Meets (start Unit) (Maps.start Unit) calls := by
  intro h
  obtain ⟨_, _, hcreate, -, _, _, hkey, -, _, _, hget, -⟩ :=
    h [.pthreadCreate (), .keyCreate none, .getspecific (some ()) 0]
  cases hcreate
  cases hkey
  cases hget

end Gpmx.Pthread.Tls
