import Gpmx.Hrt.CalloutLog

/-!
# Callouts are punctual

What the queue knows about the history: the deadline of every queued entry is one that `OnTime`
allows for its next call. While a callout runs, the same is known of the deadline its entry is
called for, from which `hrt_call_invoke` computes the next one when the callout returns.

The limits are those of the queue (`Within`), and that no time is beyond the 64 bits of a
`hrt_abstime`.
-/

namespace Gpmx.Hrt

open Queue Infra Callouts Function Option List

variable {s : Sys} {l l' : Logged} {L L' : List Entry} {c : Callouts} {entry : Entry}
  {h : List Event}

/-! ## What the operations do to the entries -/

theorem hrtCallInternal_effect (ho : Ordered s L) {fuel D P arg : Nat} {callout : Option Nat}
    (hq : s.callouts.deadline entry = 0 → entry ∉ L)
    (hs : s.callouts.hrtCallInternal fuel entry D P callout arg = some c) :
    c.deadline = update s.callouts.deadline entry D ∧
    c.period = update s.callouts.period entry P ∧
    ∃ L', Ordered (s.arm entry c) L' ∧ ∀ e, e ∈ L' ↔ e = entry ∨ e ∈ L := by
  have hord : ∃ L', Ordered (s.arm entry c) L' := by
    rcases ho.hrtCallInternal D P callout arg fuel hq with ⟨hnone, -⟩ | ⟨c', L', hsome, hL'⟩
    · rw [hnone] at hs
      cases hs
    · rw [hsome] at hs
      cases hs
      exact ⟨L', hL'⟩
  obtain ⟨L', hL'⟩ := hord
  unfold Callouts.hrtCallInternal at hs
  rcases ho.unlinkQueued fuel hq with ⟨hnone, -⟩ | ⟨q, hsome, hqL⟩
  · rw [hnone] at hs
    cases hs
  rw [hsome, bind_eq_bind, bind_some] at hs
  have hassign : (s.callouts.assign entry D P callout arg q).queue.Holds (L.erase entry) := hqL
  rcases hrtCallEnter_holds fuel hassign ho.holds.nodup.not_mem_erase with ⟨hnone, -⟩ | ⟨q', henter, hq'⟩
  · rw [hnone] at hs
    cases hs
  rw [henter] at hs
  cases hs
  refine ⟨rfl, rfl, L', hL', fun e => ?_⟩
  -- the list in the queue is the one `hrt_call_enter` has built
  rw [hL'.holds.chain.unique hq'.chain, mem_inserted]
  by_cases he : e = entry
  · exact iff_of_true (.inl he) (.inl he)
  · rw [mem_erase_of_ne he]

theorem hrtCancel_effect (ho : Ordered s L) {fuel : Nat}
    (hs : s.callouts.hrtCancel fuel entry = some c) :
    c.deadline = update s.callouts.deadline entry 0 ∧
    c.period = update s.callouts.period entry 0 ∧
    ∃ L', Ordered { s with callouts := c, armed := update s.armed entry false } L' ∧
      ∀ e, e ∈ L' ↔ e ≠ entry ∧ e ∈ L := by
  have hord : ∃ L',
      Ordered { s with callouts := c, armed := update s.armed entry false } L' := by
    rcases ho.hrtCancel fuel with ⟨hnone, -⟩ | ⟨c', L', hsome, hL'⟩
    · rw [hnone] at hs
      cases hs
    · rw [hsome] at hs
      cases hs
      exact ⟨L', hL'⟩
  obtain ⟨L', hL'⟩ := hord
  unfold Callouts.hrtCancel at hs
  rcases rem_holds fuel entry ho.holds with ⟨hnone, -⟩ | ⟨q, hsome, hq⟩
  · rw [hnone] at hs
    cases hs
  rw [hsome, bind_eq_bind, bind_some] at hs
  cases hs
  refine ⟨rfl, rfl, L', hL', fun e => ?_⟩
  have heq : L' = L.erase entry := hL'.holds.chain.unique hq.chain
  rw [heq, ho.holds.nodup.mem_erase_iff]

theorem invokePop_effect (ho : Ordered s L) (hidle : s.firing = none) {fuel now : Nat}
    {f : Firing} (hs : s.callouts.invokePop fuel now = some (c, some f)) :
    c.deadline = update s.callouts.deadline f.call 0 ∧
    c.period = s.callouts.period ∧ f.deadline = s.callouts.deadline f.call ∧
    f.deadline ≤ f.now ∧ ∃ L', L = f.call :: L' ∧ Ordered (s.fire c f) L' := by
  have hord : ∃ L', Ordered (s.fire c f) L' := by
    rcases ho.invokePop hidle fuel now with hnone | ⟨hnone, -⟩ | ⟨c', f', L', hsome, hL'⟩
    · rw [hnone] at hs
      cases hs
    · rw [hnone] at hs
      cases hs
    · rw [hsome] at hs
      cases hs
      exact ⟨L', hL'⟩
  obtain ⟨L', hL'⟩ := hord
  unfold Callouts.invokePop at hs
  rw [ho.holds.head] at hs
  cases L with
  | nil => cases hs
  | cons call L =>
    dsimp only [head?_cons] at hs
    split at hs
    · cases hs
    rename_i hdue
    rcases rem_holds fuel call ho.holds with ⟨hnone, -⟩ | ⟨q, hsome, hq⟩
    · rw [hnone] at hs
      cases hs
    rw [hsome, bind_eq_bind, bind_some] at hs
    cases hs
    rw [erase_cons_head] at hq
    have heq : L' = L := hL'.holds.chain.unique hq.chain
    exact ⟨rfl, rfl, rfl, Nat.le_of_not_lt hdue, L', by rw [heq], hL'⟩

theorem invokeReturn_effect (ho : Ordered s L) {fuel : Nat} {f : Firing}
    (hf : s.firing = some f) (hq : s.callouts.period f.call ≠ 0 → f.call ∉ L)
    (hs : s.callouts.invokeReturn fuel f = some c) :
    c.period = s.callouts.period ∧
    ∃ L', Ordered { s with callouts := c, firing := none } L' ∧
      (s.callouts.period f.call = 0 ∧ c.deadline = s.callouts.deadline ∧ L' = L ∨
        s.callouts.period f.call ≠ 0 ∧ (∀ e, e ∈ L' ↔ e = f.call ∨ e ∈ L) ∧
          (s.callouts.deadline f.call ≤ f.now ∧ c.deadline = update s.callouts.deadline
              f.call (absTime (f.deadline + s.callouts.period f.call)) ∨
            f.now < s.callouts.deadline f.call ∧ c.deadline = s.callouts.deadline)) := by
  have hord : ∃ L', Ordered { s with callouts := c, firing := none } L' := by
    rcases ho.invokeReturn hf fuel hq with ⟨hnone, -⟩ | ⟨c', L', hsome, hL'⟩
    · rw [hnone] at hs
      cases hs
    · rw [hsome] at hs
      cases hs
      exact ⟨L', hL'⟩
  obtain ⟨L', hL'⟩ := hord
  unfold Callouts.invokeReturn at hs
  by_cases hp : s.callouts.period f.call = 0
  · rw [if_neg (not_not_intro hp)] at hs
    cases hs
    exact ⟨rfl, L', hL', .inl ⟨hp, rfl, hL'.holds.chain.unique ho.holds.chain⟩⟩
  rw [if_pos hp] at hs
  -- the entry goes back with either deadline, into the same queue
  have henter : ∀ {c₁ : Callouts}, c₁.queue = s.callouts.queue →
      c₁.hrtCallEnter fuel f.call = some c → c.deadline = c₁.deadline ∧ c.period = c₁.period ∧
        ∀ e, e ∈ L' ↔ e = f.call ∨ e ∈ L := by
    intro c₁ hqueue hc
    have hholds : c₁.queue.Holds L := by
      rw [hqueue]
      exact ho.holds
    rcases hrtCallEnter_holds fuel hholds (hq hp) with ⟨hnone, -⟩ | ⟨q, hsome, hqL⟩
    · rw [hnone] at hc
      cases hc
    rw [hsome] at hc
    cases hc
    refine ⟨rfl, rfl, fun e => ?_⟩
    rw [hL'.holds.chain.unique hqL.chain, mem_inserted]
  by_cases hle : s.callouts.deadline f.call ≤ f.now
  · rw [if_pos hle] at hs
    have hqueue : (s.callouts.setDeadline f.call
      (absTime (f.deadline + s.callouts.period f.call))).queue = s.callouts.queue := rfl
    obtain ⟨hd, hper, hmem⟩ := henter hqueue hs
    exact ⟨hper, L', hL', .inr ⟨hp, hmem, .inl ⟨hle, hd⟩⟩⟩
  · rw [if_neg hle] at hs
    obtain ⟨hd, hper, hmem⟩ := henter rfl hs
    exact ⟨hper, L', hL', .inr ⟨hp, hmem, .inr ⟨Nat.lt_of_not_le hle, hd⟩⟩⟩

/-! ## The invariant -/

/-- While the callout of `f` runs. -/
structure InCall (l : Logged) (L : List Entry) (f : Firing) : Prop where
  bound : Bound l.history f.call f.deadline
  again : l.sys.callouts.deadline f.call = 0 ∨
    Bound l.history f.call (l.sys.callouts.deadline f.call)
  due : ∀ M D P, Undisturbed l.history f.call M D P → f.call ∈ L ∨
    l.sys.callouts.deadline f.call = 0 ∧ f.deadline + P = D + calls f.call M * P

structure Kept (l : Logged) (L : List Entry) : Prop where
  ordered : Ordered l.sys L
  bound : ∀ e ∈ L, Bound l.history e (l.sys.callouts.deadline e)
  due : ∀ e ∈ L, Due l.history e (l.sys.callouts.deadline e)
  period : ∀ e M D P, Undisturbed l.history e M D P → l.sys.callouts.period e = P
  alive : ∀ e, l.sys.armed e = true → Alive l.history e
  firing : ∀ f, l.sys.firing = some f → InCall l L f
  punctual : Punctual l.history

theorem kept_start (deadline period : Entry → Nat) (flink : Entry → Option Entry) :
    Kept (Logged.start deadline period flink) [] where
  ordered := start_ordered deadline period flink
  bound := by rintro e ⟨⟩
  due := by rintro e ⟨⟩
  period := fun _ _ _ _ hM => absurd hM not_undisturbed_nil
  alive := by rintro e ⟨⟩
  firing := by rintro f ⟨⟩
  punctual := by
    intro N e d t past heq
    simp [Logged.start] at heq

theorem undisturbed_other {x : Event} {M : List Event} {D P : Nat} (hx : ¬x.Disturbs entry)
    (hM : Undisturbed (x :: h) entry M D P) :
    ∃ M', M = x :: M' ∧ Undisturbed h entry M' D P := by
  rcases undisturbed_cons.mp hM with ⟨rfl, rfl⟩ | ⟨M', rfl, -, hM'⟩
  · exact absurd rfl hx
  · exact ⟨M', rfl, hM'⟩

theorem not_undisturbed {x : Event} {M : List Event} {D P : Nat} (hx : x.Disturbs entry)
    (harm : ∀ D P, x ≠ .arm entry D P) : ¬Undisturbed (x :: h) entry M D P := by
  intro hM
  rcases undisturbed_cons.mp hM with ⟨-, heq⟩ | ⟨M', -, hno, -⟩
  · exact harm D P heq
  · exact hno hx

theorem isCall_eq_false {x : Event} (hcall : ∀ e d t, x ≠ .call e d t) (e : Entry) :
    x.isCall e = false := by
  cases x with
  | call e d t => exact absurd rfl (hcall e d t)
  | _ => rfl

theorem InCall.other {f : Firing} {x : Event} {s' : Sys} (hi : InCall l L f)
    (hcall : ∀ e d t, x ≠ .call e d t) (hx : ¬x.Disturbs f.call)
    (hd : s'.callouts.deadline f.call = l.sys.callouts.deadline f.call)
    (hmem : f.call ∈ L → f.call ∈ L') : InCall ⟨s', x :: l.history⟩ L' f where
  bound := hi.bound.cons fun e d t heq => absurd heq (hcall e d t)
  again := by
    rw [hd]
    exact hi.again.imp_right fun hb => hb.cons fun e d t heq => absurd heq (hcall e d t)
  due := by
    intro M D P hM
    obtain ⟨M', rfl, hM'⟩ := undisturbed_other hx hM
    rw [calls_cons (isCall_eq_false hcall _), hd]
    exact (hi.due M' D P hM').imp_left hmem

/-! ## One step -/

structure Known (l : Logged) (L : List Entry) (e : Entry) : Prop where
  bound : e ∈ L → Bound l.history e (l.sys.callouts.deadline e)
  due : e ∈ L → Due l.history e (l.sys.callouts.deadline e)
  period : ∀ M D P, Undisturbed l.history e M D P → l.sys.callouts.period e = P
  alive : l.sys.armed e = true → Alive l.history e

structure SameEntry (s s' : Sys) (L L' : List Entry) (e : Entry) : Prop where
  deadline : s'.callouts.deadline e = s.callouts.deadline e
  period : s'.callouts.period e = s.callouts.period e
  armed : s'.armed e = s.armed e
  mem : e ∈ L' ↔ e ∈ L

/-- **What is done to one entry** leaves what is known of the others. -/
theorem Kept.change (k : Kept l L) {x : Event} {s' : Sys} (ho : Ordered s' L')
    (hcalls : ∀ e d t, x ≠ .call e d t) (hother : ∀ e, e ≠ entry → ¬x.Disturbs e)
    (hsame : ∀ e, e ≠ entry → SameEntry l.sys s' L L' e) (hfiring : s'.firing = l.sys.firing)
    (hself : Known ⟨s', x :: l.history⟩ L' entry)
    (hrunning : ∀ f, l.sys.firing = some f → f.call = entry → InCall ⟨s', x :: l.history⟩ L' f) :
    Kept ⟨s', x :: l.history⟩ L' := by
  refine ⟨ho, ?_, ?_, ?_, ?_, ?_, ?_⟩
  · intro e he
    by_cases hee : e = entry
    · subst hee
      exact hself.bound he
    · have hs := hsame e hee
      show Bound _ e (s'.callouts.deadline e)
      rw [hs.deadline]
      exact (k.bound e (hs.mem.mp he)).cons fun e d t heq => absurd heq (hcalls e d t)
  · intro e he
    by_cases hee : e = entry
    · subst hee
      exact hself.due he
    · have hs := hsame e hee
      show Due _ e (s'.callouts.deadline e)
      rw [hs.deadline]
      exact (k.due e (hs.mem.mp he)).cons (hother e hee) (isCall_eq_false hcalls e)
  · intro e M D P hM
    by_cases hee : e = entry
    · subst hee
      exact hself.period M D P hM
    · obtain ⟨M', -, hM'⟩ := undisturbed_other (hother e hee) hM
      show s'.callouts.period e = P
      rw [(hsame e hee).period]
      exact k.period e M' D P hM'
  · intro e he
    by_cases hee : e = entry
    · subst hee
      exact hself.alive he
    · have harmed : l.sys.armed e = true := (hsame e hee).armed ▸ he
      refine (k.alive e harmed).cons ?_
      rintro rfl
      exact hother e hee rfl
  · intro f hf
    rw [hfiring] at hf
    by_cases hee : f.call = entry
    · exact hrunning f hf hee
    · have hs := hsame f.call hee
      exact (k.firing f hf).other hcalls (hother _ hee) hs.deadline hs.mem.mpr
  · exact k.punctual.cons fun e d t heq => absurd heq (hcalls e d t)

theorem Kept.arm (k : Kept l L) {D P : Nat} (ho : Ordered (l.sys.arm entry c) L')
    (hd : c.deadline = update l.sys.callouts.deadline entry D)
    (hp : c.period = update l.sys.callouts.period entry P)
    (hmem : ∀ e, e ∈ L' ↔ e = entry ∨ e ∈ L) :
    Kept ⟨l.sys.arm entry c, .arm entry D P :: l.history⟩ L' := by
  have hself : (l.sys.arm entry c).callouts.deadline entry = D := by
    show c.deadline entry = D
    rw [hd, update_self]
  have hcalls : ∀ e d t, Event.arm entry D P ≠ .call e d t := by rintro e d t ⟨⟩
  refine k.change ho hcalls (fun e he heq => he heq.symm) (fun e he => ?_) rfl ?_ ?_
  · refine ⟨?_, ?_, update_of_ne he _ _, by simp [hmem, he]⟩
    · show c.deadline e = l.sys.callouts.deadline e
      rw [hd, update_of_ne he]
    · show c.period e = l.sys.callouts.period e
      rw [hp, update_of_ne he]
  · refine ⟨fun _ => ?_, fun _ => ?_, ?_, fun _ => Alive.arm⟩
    · rw [hself]
      exact Bound.arm
    · rw [hself]
      exact Due.arm
    · intro M D' P' hM
      rcases undisturbed_cons.mp hM with ⟨rfl, heq⟩ | ⟨M', rfl, hx, -⟩
      · cases heq
        show c.period entry = P
        rw [hp, update_self]
      · exact absurd rfl hx
  · intro f hf hee
    have hi := k.firing f hf
    refine ⟨hi.bound.cons fun e d t heq => absurd heq (hcalls e d t), .inr ?_, fun M D' P' _ => ?_⟩
    · rw [hee, hself]
      exact Bound.arm
    · exact .inl ((hmem f.call).mpr (.inl hee))

theorem Kept.cancel (k : Kept l L)
    (ho : Ordered { l.sys with
      callouts := c
      armed := update l.sys.armed entry false } L')
    (hd : c.deadline = update l.sys.callouts.deadline entry 0)
    (hp : c.period = update l.sys.callouts.period entry 0)
    (hmem : ∀ e, e ∈ L' ↔ e ≠ entry ∧ e ∈ L) :
    Kept ⟨{ l.sys with
      callouts := c
      armed := update l.sys.armed entry false }, .cancel entry :: l.history⟩ L' := by
  have hcalls : ∀ e d t, Event.cancel entry ≠ .call e d t := by rintro e d t ⟨⟩
  have hnot : entry ∉ L' := fun he => ((hmem entry).mp he).1 rfl
  refine k.change ho hcalls (fun e he heq => he heq.symm) (fun e he => ?_) rfl ?_ ?_
  · refine ⟨?_, ?_, update_of_ne he _ _, by simp [hmem, he]⟩
    · show c.deadline e = l.sys.callouts.deadline e
      rw [hd, update_of_ne he]
    · show c.period e = l.sys.callouts.period e
      rw [hp, update_of_ne he]
  · refine ⟨fun he => absurd he hnot, fun he => absurd he hnot, ?_, fun he => ?_⟩
    · intro M D' P' hM
      exact absurd hM (not_undisturbed rfl fun _ _ => nofun)
    · have hfalse : update l.sys.armed entry false entry = true := he
      rw [update_self] at hfalse
      cases hfalse
  · intro f hf hee
    have hi := k.firing f hf
    refine ⟨hi.bound.cons fun e d t heq => absurd heq (hcalls e d t), .inl ?_, fun M D' P' hM => ?_⟩
    · show c.deadline f.call = 0
      rw [hd, hee, update_self]
    · exact absurd hM (not_undisturbed hee.symm fun _ _ => nofun)

theorem Kept.delay (k : Kept l L) {D : Nat} (hc : c = l.sys.callouts.setDeadline entry D)
    (ho : Ordered { l.sys with callouts := c } L) :
    Kept ⟨{ l.sys with callouts := c }, .delay entry D :: l.history⟩ L := by
  subst hc
  have hself : (l.sys.callouts.setDeadline entry D).deadline entry = D := update_self ..
  have hcalls : ∀ e d t, Event.delay entry D ≠ .call e d t := by rintro e d t ⟨⟩
  refine k.change ho hcalls (fun e he heq => he heq.symm) (fun e he => ?_) rfl ?_ ?_
  · exact ⟨update_of_ne he _ _, rfl, rfl, Iff.rfl⟩
  · refine ⟨fun _ => ?_, fun _ => Due.delay, ?_, fun he => (k.alive entry he).cons (by rintro ⟨⟩)⟩
    · show Bound _ entry ((l.sys.callouts.setDeadline entry D).deadline entry)
      rw [hself]
      exact Bound.delay
    · intro M D' P' hM
      exact absurd hM (not_undisturbed rfl fun _ _ => nofun)
  · intro f hf hee
    have hi := k.firing f hf
    refine ⟨hi.bound.cons fun e d t heq => absurd heq (hcalls e d t), .inr ?_, fun M D' P' hM => ?_⟩
    · show Bound _ f.call ((l.sys.callouts.setDeadline entry D).deadline f.call)
      rw [hee, hself]
      exact Bound.delay
    · exact absurd hM (not_undisturbed hee.symm fun _ _ => nofun)

theorem Kept.call (k : Kept l L) {f : Firing} (ho : Ordered (l.sys.fire c f) L')
    (hL : L = f.call :: L') (hf : f.deadline = l.sys.callouts.deadline f.call)
    (hnow : f.deadline ≤ f.now)
    (hd : c.deadline = update l.sys.callouts.deadline f.call 0)
    (hp : c.period = l.sys.callouts.period) :
    Kept ⟨l.sys.fire c f, .call f.call f.deadline f.now :: l.history⟩ L' := by
  obtain ⟨hnot, -⟩ := nodup_cons.mp (hL ▸ k.ordered.holds.nodup)
  obtain ⟨horder, -⟩ := pairwise_cons.mp (hL ▸ k.ordered.order)
  have hhead : f.call ∈ L := hL ▸ mem_cons_self
  have hmem : ∀ e ∈ L', e ∈ L := fun e he => hL ▸ mem_cons_of_mem _ he
  have hne : ∀ e ∈ L', e ≠ f.call := by
    rintro e he rfl
    exact hnot he
  have hdead : ∀ e ∈ L', c.deadline e = l.sys.callouts.deadline e := fun e he => by
    rw [hd, update_of_ne (hne e he)]
  have hbound : Bound l.history f.call f.deadline := hf ▸ k.bound f.call hhead
  have hdue : Due l.history f.call f.deadline := hf ▸ k.due f.call hhead
  have hontime : OnTime l.history f.call f.deadline f.now :=
    ⟨hnow, hbound, hdue, k.alive f.call (k.ordered.armed f.call hhead)⟩
  refine ⟨ho, ?_, ?_, ?_, ?_, ?_, ?_⟩
  · intro e he
    show Bound _ e (c.deadline e)
    rw [hdead e he]
    refine (k.bound e (hmem e he)).cons ?_
    -- what stays in the queue is not due before the head
    rintro e' d t heq
    cases heq
    rw [hf]
    exact horder e he
  · intro e he
    show Due _ e (c.deadline e)
    rw [hdead e he]
    refine (k.due e (hmem e he)).cons id ?_
    exact decide_eq_false (hne e he).symm
  · intro e M D P hM
    show c.period e = P
    obtain ⟨M', -, hM'⟩ := undisturbed_other id hM
    rw [hp]
    exact k.period e M' D P hM'
  · intro e he
    have harmed : l.sys.armed e = true := by
      simp only [Sys.fire] at he
      split at he
      · by_cases hee : e = f.call
        · rw [hee, update_self] at he
          cases he
        · rwa [update_of_ne hee] at he
      · exact he
    exact (k.alive e harmed).cons (by rintro ⟨⟩)
  · intro g hg
    cases hg
    have hzero : c.deadline f.call = 0 := by rw [hd, update_self]
    refine ⟨hbound.cons ?_, .inl hzero, ?_⟩
    · rintro e d t ⟨⟩
      exact Nat.le_refl _
    · intro M D P hM
      obtain ⟨M', rfl, hM'⟩ := undisturbed_other id hM
      refine .inr ⟨hzero, ?_⟩
      rw [calls_call, hdue M' D P hM', Nat.add_one_mul, Nat.add_assoc]
  · refine k.punctual.cons ?_
    rintro e d t ⟨⟩
    exact hontime

theorem Kept.done (k : Kept l L) (hidle : l.sys.firing = none) :
    Kept ⟨l.sys, .done :: l.history⟩ L where
  ordered := k.ordered
  bound := fun _ _ => Bound.done
  due := fun e he => (k.due e he).cons id rfl
  period := by
    intro e M D P hM
    obtain ⟨M', -, hM'⟩ := undisturbed_other id hM
    exact k.period e M' D P hM'
  alive := fun e he => (k.alive e he).cons (by rintro ⟨⟩)
  firing := by
    intro f hf
    rw [hidle] at hf
    cases hf
  punctual := k.punctual.cons (by rintro e d t ⟨⟩)

theorem Kept.ret (k : Kept l L) {f : Firing} (hf : l.sys.firing = some f)
    (hq : l.sys.callouts.period f.call ≠ 0 → f.call ∉ L)
    (hnext : l.sys.callouts.period f.call ≠ 0 → l.sys.callouts.deadline f.call ≤ f.now →
      f.deadline + l.sys.callouts.period f.call < 2 ^ 64)
    (ho : Ordered { l.sys with
      callouts := c
      firing := none } L')
    (hp : c.period = l.sys.callouts.period)
    (hd : l.sys.callouts.period f.call = 0 ∧ c.deadline = l.sys.callouts.deadline ∧ L' = L ∨
      l.sys.callouts.period f.call ≠ 0 ∧ (∀ e, e ∈ L' ↔ e = f.call ∨ e ∈ L) ∧
        (l.sys.callouts.deadline f.call ≤ f.now ∧ c.deadline = update
            l.sys.callouts.deadline f.call (absTime (f.deadline + l.sys.callouts.period f.call)) ∨
          f.now < l.sys.callouts.deadline f.call ∧ c.deadline = l.sys.callouts.deadline)) :
    Kept ⟨{ l.sys with
      callouts := c
      firing := none }, l.history⟩ L' := by
  have hi := k.firing f hf
  -- what is to be shown of the entries in the queue
  have hkey : ∀ e ∈ L', Bound l.history e (c.deadline e) ∧ Due l.history e (c.deadline e) := by
    intro e he
    rcases hd with ⟨-, hsame, rfl⟩ | ⟨hper, hmem, hcase⟩
    · rw [hsame]
      exact ⟨k.bound e he, k.due e he⟩
    have hnot := hq hper
    by_cases hee : e = f.call
    · subst hee
      rcases hcase with ⟨hle, hsame⟩ | ⟨hlt, hsame⟩
      · rw [hsame, update_self, absTime_of_lt (hnext hper hle)]
        refine ⟨hi.bound.mono (Nat.le_add_right _ _), fun M D P hM => ?_⟩
        obtain ⟨-, heq⟩ := (hi.due M D P hM).resolve_left hnot
        rw [k.period _ M D P hM]
        exact heq
      · -- the callout has delayed its entry
        have hpos : l.sys.callouts.deadline f.call ≠ 0 := Nat.ne_of_gt (Nat.zero_lt_of_lt hlt)
        rw [hsame]
        refine ⟨hi.again.resolve_left hpos, fun M D P hM => ?_⟩
        exact absurd ((hi.due M D P hM).resolve_left hnot).1 hpos
    · have heL := ((hmem e).mp he).resolve_left hee
      have hsame : c.deadline e = l.sys.callouts.deadline e := by
        rcases hcase with ⟨-, hsame⟩ | ⟨-, hsame⟩
        · rw [hsame, update_of_ne hee]
        · rw [hsame]
      rw [hsame]
      exact ⟨k.bound e heL, k.due e heL⟩
  exact
    { ordered := ho
      bound := fun e he => (hkey e he).1
      due := fun e he => (hkey e he).2
      period := by
        intro e M D P hM
        show c.period e = P
        rw [hp]
        exact k.period e M D P hM
      alive := k.alive
      firing := by rintro _ ⟨⟩
      punctual := k.punctual }

theorem Kept.step (k : Kept l L) {op : Nat × Op} (ht : Timely l op) (hs : l.step op = some l') :
    ∃ L', Kept l' L' := by
  obtain ⟨fuel, op⟩ := op
  obtain ⟨sys, hsys, rfl⟩ := map_eq_some_iff.mp hs
  have harms : ∀ e, op.arms = some e → l.sys.callouts.deadline e = 0 → e ∉ L :=
    fun e he hz hm => ht.within.arms e he hz (k.ordered.queued_iff.mpr hm)
  have hasks : ∀ t, op.asks = some t → absTime t = t := fun t h => absTime_of_lt (ht.asks t h)
  cases op with
  | callAfter now e delay callout arg | callEvery now e delay interval callout arg =>
    obtain ⟨c, hc, rfl⟩ := map_eq_some_iff.mp hsys
    obtain ⟨hd, hp, L', ho, hmem⟩ := hrtCallInternal_effect k.ordered (harms e rfl) hc
    rw [hasks _ rfl] at hd
    exact ⟨L', k.arm ho hd hp hmem⟩
  | callAt e calltime callout arg =>
    obtain ⟨c, hc, rfl⟩ := map_eq_some_iff.mp hsys
    obtain ⟨hd, hp, L', ho, hmem⟩ := hrtCallInternal_effect k.ordered (harms e rfl) hc
    exact ⟨L', k.arm ho hd hp hmem⟩
  | cancel e =>
    obtain ⟨c, hc, rfl⟩ := map_eq_some_iff.mp hsys
    obtain ⟨hd, hp, L', ho, hmem⟩ := hrtCancel_effect k.ordered hc
    exact ⟨L', k.cancel ho hd hp hmem⟩
  | callDelay now e delay =>
    cases hsys
    refine ⟨L, k.delay ?_ (k.ordered.hrtCallDelay (ht.within.delay now e delay rfl))⟩
    unfold Callouts.hrtCallDelay
    rw [hasks _ rfl]
  | invoke now =>
    have hidle : l.sys.firing = none := enabled_of_step hsys
    simp only [Sys.step, hidle] at hsys
    obtain ⟨⟨c, r⟩, hpop, rfl⟩ := map_eq_some_iff.mp hsys
    cases r with
    | none =>
      show ∃ L', Kept ⟨l.sys, l.sys.events (.invoke now) ++ l.history⟩ L'
      rw [Sys.events, hidle]
      exact ⟨L, k.done hidle⟩
    | some f =>
      obtain ⟨hd, hp, hf, hnow, L', hL, ho⟩ := invokePop_effect k.ordered hidle hpop
      exact ⟨L', k.call ho hL hf hnow hd hp⟩
  | ret =>
    obtain ⟨f, hf⟩ := ne_none_iff_exists'.mp (enabled_of_step hsys)
    have hq : l.sys.callouts.period f.call ≠ 0 → f.call ∉ L :=
      fun hp hm => ht.within.ret f rfl hf hp (k.ordered.queued_iff.mpr hm)
    simp only [Sys.step, hf] at hsys
    obtain ⟨c, hc, rfl⟩ := map_eq_some_iff.mp hsys
    obtain ⟨hp, L', ho, hd⟩ := invokeReturn_effect k.ordered hf hq hc
    exact ⟨L', k.ret hf hq (ht.next f rfl hf) ho hp hd⟩

/-! ## Every run -/

theorem reaches_kept {deadline period : Entry → Nat} {flink : Entry → Option Entry}
    (hr : Reaches Logged.step Timely (Logged.start deadline period flink) l) : ∃ L, Kept l L := by
  refine hr.invariant (P := fun l => ∃ L, Kept l L) ⟨[], kept_start _ _ _⟩ ?_
  rintro l op l' ⟨L, hL⟩ ht hs
  exact hL.step ht hs

/--
**While every step is within the limits, every callout is on time.** It is not called before its
deadline; within a pass the deadlines do not decrease, but for an entry that was asked for at an
earlier time after the later one was called; an entry left alone since it was armed for `D` with
the period `P` is called for `D + k * P` when it has been called `k` times; and an entry that was
cancelled has been armed since.
-/
theorem callouts_punctual {deadline period : Entry → Nat} {flink : Entry → Option Entry}
    (hr : Reaches Logged.step Timely (Logged.start deadline period flink) l) :
    Punctual l.history := by
  obtain ⟨L, hL⟩ := reaches_kept hr
  exact hL.punctual

theorem not_queued_of_head (h : s.callouts.queue.head = none) : ¬s.Queued entry := by
  rintro ⟨L, hL, hmem⟩
  rw [hL.head] at h
  rw [head?_eq_none_iff.mp h] at hmem
  cases hmem

theorem timely_invoke {fuel now : Nat} : Timely l (fuel, .invoke now) where
  within :=
    { arms := by rintro _ ⟨⟩
      delay := by rintro _ _ _ ⟨⟩
      ret := by rintro _ ⟨⟩ }
  asks := by rintro _ ⟨⟩
  next := by rintro _ ⟨⟩

/-- Memory that `hrt_call_init` has cleared. -/
def idleLog : Logged := Logged.start (fun _ => 0) (fun _ => 0) fun _ => none

/-- A periodic entry is called late, and then for its second deadline. -/
theorem callouts_punctual_late : ∃ l, Reaches Logged.step Timely idleLog l ∧
    l.history = [.call 1 1100 1205, .call 1 100 150, .arm 1 100 1000] ∧ Punctual l.history := by
  obtain ⟨l₁, l₂, l₃, l₄, h₁, h₂, h₃, h₄, hhead, hfire, hlog⟩ : ∃ l₁ l₂ l₃ l₄,
      idleLog.step (9, .callEvery 0 1 100 1000 none 0) = some l₁ ∧
      l₁.step (9, .invoke 150) = some l₂ ∧ l₂.step (9, .ret) = some l₃ ∧
      l₃.step (9, .invoke 1205) = some l₄ ∧ l₂.sys.callouts.queue.head = none ∧
      (l₂.sys.firing = some ⟨1, 100, 150⟩ ∧ l₂.sys.callouts.period 1 = 1000) ∧
      l₄.history = [.call 1 1100 1205, .call 1 100 150, .arm 1 100 1000] :=
    ⟨_, _, _, _, rfl, rfl, rfl, rfl, rfl, ⟨rfl, rfl⟩, rfl⟩
  have harm : Timely idleLog (9, .callEvery 0 1 100 1000 none 0) :=
    { within := ⟨fun _ _ _ => not_queued_idle, by rintro _ _ _ ⟨⟩, by rintro _ ⟨⟩⟩
      asks := by
        rintro t ⟨⟩
        decide
      next := by rintro _ ⟨⟩ }
  have hret : Timely l₂ (9, .ret) :=
    { within := ⟨by rintro _ ⟨⟩, by rintro _ _ _ ⟨⟩, fun _ _ _ _ => not_queued_of_head hhead⟩
      asks := by rintro _ ⟨⟩
      next := by
        intro f _ hf _ _
        rw [hfire.1] at hf
        obtain rfl := some.inj hf
        rw [hfire.2]
        decide }
  have hr : Reaches Logged.step Timely idleLog l₄ :=
    (((Reaches.tail .refl harm h₁).tail timely_invoke h₂).tail hret h₃).tail timely_invoke h₄
  exact ⟨l₄, hr, hlog, callouts_punctual hr⟩

/-! ## What happens beyond the limits -/

/-- An entry that its own callout has armed with a period is cancelled after the callout, and
called again; and of two entries the first, delayed, is called before the other, which is due
earlier. -/
theorem callouts_not_punctual :
    (∃ l, Reaches Logged.step Always idleLog l ∧
      l.history = [.call 1 0 5000, .cancel 1, .arm 1 200 1000, .call 1 100 100, .arm 1 100 1000] ∧
      ¬Punctual l.history) ∧
    ∃ l, Reaches Logged.step Always idleLog l ∧
      l.history = [.call 2 200 2000, .call 1 1000 2000, .delay 1 1000, .arm 2 200 0,
        .arm 1 100 0] ∧ ¬Punctual l.history := by
  constructor
  · obtain ⟨l, hs, hlog⟩ : ∃ l, (rearmedInCallout ++ [(9, Op.cancel 1), (9, Op.invoke 5000)]).foldlM
        Logged.step idleLog = some l ∧ l.history = [.call 1 0 5000, .cancel 1, .arm 1 200 1000,
          .call 1 100 100, .arm 1 100 1000] := ⟨_, rfl, rfl⟩
    refine ⟨l, .of_foldlM _ hs, hlog, fun hp => ?_⟩
    obtain ⟨D, P, hmem⟩ := (hp [] 1 0 5000 _ hlog).alive [] _ rfl
    cases hmem
  · obtain ⟨l, hs, hlog⟩ : ∃ l, (delayedInQueue ++ [(9, Op.invoke 2000), (9, Op.ret),
        (9, Op.invoke 2000)]).foldlM Logged.step idleLog = some l ∧
        l.history = [.call 2 200 2000, .call 1 1000 2000, .delay 1 1000, .arm 2 200 0,
          .arm 1 100 0] := ⟨_, rfl, rfl⟩
    refine ⟨l, .of_foldlM _ hs, hlog, fun hp => ?_⟩
    have hle : 1000 ≤ 200 := (hp [] 2 200 2000 _ hlog).inOrder [] 1 1000 2000 _ rfl
      (by rintro ⟨⟩) (by rintro _ _ ⟨⟩) (by rintro _ ⟨⟩)
    omega

end Gpmx.Hrt
