import Gpmx.Workqueue.Manager

/-!
# One work queue for each name

A work queue is asked for, handed over, created and added in separate steps, and nobody looks
into the list again before adding to it. So a name stays unique as long as nobody asks for it
while it is under way already.

* `Handover` — the queue of requests has one place, and who has it
* `Sys.total` — the requests for a name that are under way, and the work queues of that name
-/

namespace Gpmx.Workqueue.Manager

open Infra Function

def Client.asksFor (name : List Char) : Client → Bool
  | .pushing newWq | .storing newWq | .posting newWq => newWq.name = name
  | _ => false

def Client.inPush : Client → Bool
  | .storing _ | .posting _ => true
  | _ => false

def Phase.inPop : Phase → Nat
  | .loading | .releasing _ => 1
  | .popping | .creating _ => 0

def Phase.request : Phase → Option Config
  | .releasing wq | .creating wq => wq
  | _ => none

namespace Sys

variable {T : Type}

def slot (s : Sys T) : Option Config :=
  if 0 < s.createQueue.semTail ∨ s.manager = .loading then s.createQueue.data s.createQueue.head
  else none

def live (s : Sys T) (name : List Char) : Nat :=
  s.wqsList.countP fun wq => wq.config.name = name

structure Returned (s : Sys T) : Prop where
  past : ∀ a ∈ s.returned, a.exits ≤ s.exits a.newWq.name
  listed : ∀ a ∈ s.returned, a.exits = s.exits a.newWq.name →
    a.wq ∈ s.wqsList ∧ a.wq.config.name = a.newWq.name
  same : ∀ a ∈ s.returned, ∀ b ∈ s.returned, a.newWq.name = b.newWq.name → a.exits = b.exits →
    a.wq = b.wq

variable [Fintype T]

def underway (s : Sys T) (name : List Char) : Nat :=
  census (fun c => c.asksFor name) s.clients
    + (s.slot.toList.countP fun config => config.name = name)
    + (s.manager.request.toList.countP fun config => config.name = name)
    + (s.starting.countP fun wq => wq.config.name = name)

def total (s : Sys T) (name : List Char) : Nat := s.underway name + s.live name

structure Handover (s : Sys T) : Prop where
  tokens : s.createQueue.semHead + s.createQueue.semTail
    + census (fun c => c.inPush) s.clients + s.manager.inPop = 1
  head : s.createQueue.head = 0
  tail : s.createQueue.tail = 0
  stored : ∀ t newWq, s.clients t = .posting newWq → s.createQueue.data 0 = some newWq

/-- The request is new: there is none under way for a name that is looked for in vain. -/
def Alone (s : Sys T) : Action T → Prop
  | .call _ newWq => s.findWorkqueueByName newWq.name = none → s.underway newWq.name = 0
  | _ => True

end Sys

open Sys

variable {T : Type} {s s' : Sys T} {t : T} {name : List Char}

theorem countP_erase_add {α : Type} [DecidableEq α] (p : α → Bool) {a : α} {L : List α}
    (ha : a ∈ L) : (L.erase a).countP p + (if p a then 1 else 0) = L.countP p := by
  rw [(List.perm_cons_erase ha).countP_eq, List.countP_cons]

theorem live_eq_zero (h : s.findWorkqueueByName name = none) : s.live name = 0 := by
  unfold live
  rw [List.countP_eq_zero]
  exact List.find?_eq_none.mp h

/-! ## What calls have returned -/

variable {wq : Queue} {newWq : Config} {miss : Client} {ok : Bool} {c' : Client}

theorem eq_of_live_le_one {wq' : Queue} (hone : s.live name ≤ 1) (hwq : wq ∈ s.wqsList)
    (hname : wq.config.name = name) (hwq' : wq' ∈ s.wqsList) (hname' : wq'.config.name = name) :
    wq = wq' := by
  by_contra hne
  have hcount := countP_erase_add (fun wq => decide (wq.config.name = name)) hwq
  have hmem : wq' ∈ s.wqsList.erase wq := (List.mem_erase_of_ne (Ne.symm hne)).mpr hwq'
  have hpos : 0 < (s.wqsList.erase wq).countP (fun wq => decide (wq.config.name = name)) :=
    List.countP_pos_iff.mpr ⟨wq', hmem, by simpa using hname'⟩
  unfold live at hone
  rw [if_pos (by simpa using hname)] at hcount
  omega

theorem Sys.Returned.congr (h : s.Returned) (hlist : s'.wqsList = s.wqsList)
    (hexits : s'.exits = s.exits) (hreturned : s'.returned = s.returned) : s'.Returned := by
  refine ⟨?_, ?_, ?_⟩
  · rw [hreturned, hexits]
    exact h.past
  · rw [hreturned, hexits, hlist]
    exact h.listed
  · rw [hreturned]
    exact h.same

theorem addStep_returned (h : s.Returned) (hs : s.addStep wq = some s') : s'.Returned := by
  unfold addStep at hs
  split at hs
  · cases hs
    refine ⟨h.past, fun a ha hexits => ?_, h.same⟩
    obtain ⟨hmem, hname⟩ := h.listed a ha hexits
    exact ⟨(List.mem_orderedInsert _).mpr (.inr hmem), hname⟩
  · cases hs

theorem exitStep_returned (h : s.Returned) (hs : s.exitStep wq = some s') : s'.Returned := by
  unfold exitStep at hs
  split at hs
  · cases hs
    have hexits : ∀ name, s.exits name
        ≤ update s.exits wq.config.name (s.exits wq.config.name + 1) name := by
      intro name
      by_cases hname : name = wq.config.name
      · subst hname
        rw [update_self]
        exact Nat.le_succ _
      · rw [update_of_ne hname]
    refine ⟨fun a ha => (h.past a ha).trans (hexits _), fun a ha heq => ?_, h.same⟩
    have hne : a.newWq.name ≠ wq.config.name := by
      intro hname
      have hpast := h.past a ha
      simp only [hname, update_self] at heq
      rw [hname] at hpast
      omega
    simp only [update_of_ne hne] at heq
    obtain ⟨hmem, hname⟩ := h.listed a ha heq
    refine ⟨(List.mem_erase_of_ne ?_).mpr hmem, hname⟩
    rintro rfl
    exact hne hname.symm
  · cases hs

section

variable [DecidableEq T]

theorem lookup_returned (h : s.Returned) (hone : s.live newWq.name ≤ 1) :
    (s.lookup t newWq miss).Returned := by
  unfold lookup
  split
  · next wq hfind =>
    have hmem : wq ∈ s.wqsList := List.mem_of_find?_eq_some hfind
    have hname : wq.config.name = newWq.name := by
      have hsome := List.find?_some hfind
      simpa using hsome
    -- a call that has returned a work queue of this name since the last one ended
    have hsame : ∀ a ∈ s.returned, a.newWq.name = newWq.name → a.exits = s.exits newWq.name →
        a.wq = wq := by
      intro a ha haname hexits
      rw [← haname] at hexits
      obtain ⟨hamem, hawq⟩ := h.listed a ha hexits
      exact eq_of_live_le_one hone hamem (hawq.trans haname) hmem hname
    refine ⟨?_, ?_, ?_⟩
    · intro a ha
      rcases List.mem_append.mp ha with ha | ha
      · exact h.past a ha
      · obtain rfl := List.mem_singleton.mp ha
        exact le_rfl
    · intro a ha hexits
      rcases List.mem_append.mp ha with ha | ha
      · exact h.listed a ha hexits
      · obtain rfl := List.mem_singleton.mp ha
        exact ⟨hmem, hname⟩
    · intro a ha b hb hab hexits
      rcases List.mem_append.mp ha with ha | ha <;> rcases List.mem_append.mp hb with hb | hb
      · exact h.same a ha b hb hab hexits
      · obtain rfl := List.mem_singleton.mp hb
        exact hsame a ha hab hexits
      · obtain rfl := List.mem_singleton.mp ha
        exact (hsame b hb hab.symm hexits.symm).symm
      · rw [List.mem_singleton.mp ha, List.mem_singleton.mp hb]
  · exact h.congr rfl rfl rfl

theorem advanceStep_returned (h : s.Returned) (hone : ∀ name, s.live name ≤ 1)
    (hs : s.advanceStep t = some s') : s'.Returned := by
  unfold advanceStep at hs
  split at hs
  · cases hs
  · obtain ⟨q, -, rfl⟩ := Option.map_eq_some_iff.mp hs
    exact h.congr rfl rfl rfl
  · cases hs
    exact h.congr rfl rfl rfl
  · cases hs
    exact h.congr rfl rfl rfl
  · split at hs
    · cases hs
      exact lookup_returned h (hone _)
    · cases hs
      exact h.congr rfl rfl rfl

end

theorem managerStep_returned (h : s.Returned) (hs : s.managerStep ok = some s') : s'.Returned := by
  unfold managerStep at hs
  split at hs
  · obtain ⟨q, -, rfl⟩ := Option.map_eq_some_iff.mp hs
    exact h.congr rfl rfl rfl
  · cases hs
    exact h.congr rfl rfl rfl
  · cases hs
    exact h.congr rfl rfl rfl
  · cases hs
    exact h.congr rfl rfl rfl
  · split at hs <;> cases hs <;> exact h.congr rfl rfl rfl

variable [Fintype T]

/-! ## The manager and the threads of the work queues -/

theorem Sys.Handover.not_waiting (h : s.Handover) (ht : (s.clients t).inPush = true) :
    ¬(0 < s.createQueue.semTail ∨ s.manager = .loading) := by
  have hpos : 0 < census (fun c => c.inPush) s.clients :=
    census_pos (p := fun c => Client.inPush c = true) ht
  have htokens := h.tokens
  rintro (htail | hloading)
  · omega
  · rw [hloading, Phase.inPop] at htokens
    omega

theorem Sys.Handover.eq_of_inPush (h : s.Handover) {t' : T} (ht : (s.clients t).inPush = true)
    (ht' : (s.clients t').inPush = true) : t = t' := by
  have hpos : 0 < census (fun c => c.inPush) s.clients :=
    census_pos (p := fun c => Client.inPush c = true) ht
  have htokens := h.tokens
  have hone : census (fun c => c.inPush) s.clients = 1 := by omega
  exact eq_of_census_eq_one (p := fun c => Client.inPush c = true) hone ht ht'

theorem managerStep_handover (h : s.Handover) (hs : s.managerStep ok = some s') : s'.Handover := by
  have htokens := h.tokens
  unfold managerStep at hs
  cases hm : s.manager with
  | popping =>
    simp only [hm, BlockingQueue.popWait] at hs
    rw [hm, Phase.inPop] at htokens
    split at hs
    · cases hs
    · cases hs
      refine ⟨?_, h.head, h.tail, h.stored⟩
      simp only [Phase.inPop]
      omega
  | loading =>
    simp only [hm, BlockingQueue.popLoad] at hs
    rw [hm, Phase.inPop] at htokens
    cases hs
    exact ⟨htokens, Nat.mod_one _, h.tail, h.stored⟩
  | releasing wq =>
    simp only [hm, BlockingQueue.popPost] at hs
    rw [hm, Phase.inPop] at htokens
    cases hs
    refine ⟨?_, h.head, h.tail, h.stored⟩
    simp only [Phase.inPop]
    omega
  | creating wq =>
    rw [hm, Phase.inPop] at htokens
    cases wq with
    | none =>
      simp only [hm] at hs
      cases hs
      exact ⟨htokens, h.head, h.tail, h.stored⟩
    | some config =>
      simp only [hm] at hs
      split at hs <;> cases hs <;> exact ⟨htokens, h.head, h.tail, h.stored⟩

theorem managerStep_total (h : s.Handover) (hs : s.managerStep ok = some s') :
    s'.total name ≤ s.total name := by
  have htokens := h.tokens
  unfold managerStep at hs
  unfold total underway live slot
  cases hm : s.manager with
  | popping =>
    simp only [hm, BlockingQueue.popWait] at hs
    split at hs
    · cases hs
    · next hsem =>
      cases hs
      have hpos : 0 < s.createQueue.semTail := by omega
      simp [hpos, Phase.request]
  | loading =>
    simp only [hm, BlockingQueue.popLoad] at hs
    rw [hm, Phase.inPop] at htokens
    cases hs
    have hzero : s.createQueue.semTail = 0 := by omega
    simp [hzero, Phase.request]
  | releasing wq =>
    simp only [hm, BlockingQueue.popPost] at hs
    cases hs
    simp [Phase.request]
  | creating wq =>
    cases wq with
    | none =>
      simp only [hm] at hs
      cases hs
      simp [Phase.request]
    | some config =>
      simp only [hm] at hs
      split at hs
      · cases hs
        simp [Phase.request, List.countP_append, List.countP_cons]
        omega
      · cases hs
        simp [Phase.request]

theorem addStep_total (hs : s.addStep wq = some s') : s'.total name = s.total name := by
  unfold addStep at hs
  split at hs
  · next hmem =>
    cases hs
    have hstarting := countP_erase_add (fun wq => decide (wq.config.name = name)) hmem
    have hlist : (s.wqsList.orderedInsert workqueueCmpMethod wq).countP
        (fun wq => decide (wq.config.name = name)) = _ :=
      (List.perm_orderedInsert workqueueCmpMethod wq s.wqsList).countP_eq _
    rw [List.countP_cons] at hlist
    unfold total underway live slot
    simp only at hlist ⊢
    omega
  · cases hs

theorem exitStep_total (hs : s.exitStep wq = some s') : s'.total name ≤ s.total name := by
  unfold exitStep at hs
  split at hs
  · next hmem =>
    cases hs
    have hlist := countP_erase_add (fun wq => decide (wq.config.name = name)) hmem
    unfold total underway live slot
    simp only at hlist ⊢
    omega
  · cases hs

structure Sys.Inv (s : Sys T) : Prop where
  handover : s.Handover
  once : ∀ name, s.total name ≤ 1
  returned : s.Returned

theorem start_inv : (start : Sys T).Inv := by
  refine ⟨⟨?_, rfl, rfl, ?_⟩, ?_, ⟨?_, ?_, ?_⟩⟩
  · have hzero : census (fun c => Client.inPush c = true) (start : Sys T).clients = 0 :=
      census_eq_zero.mpr (by simp [start, Client.inPush])
    rw [hzero]
    rfl
  · intro t newWq ht
    cases ht
  · intro name
    have hzero : census (fun c => Client.asksFor name c = true) (start : Sys T).clients = 0 :=
      census_eq_zero.mpr (by simp [start, Client.asksFor])
    unfold total underway live slot
    rw [hzero]
    simp [start, BlockingQueue.init, Phase.request]
  all_goals simp [start]

/-! ## Clients -/

variable [DecidableEq T]

theorem handover_goto {q : BlockingQueue Config} (h : s.Handover) (hhead : q.head = 0)
    (htail : q.tail = 0)
    (htokens : q.semHead + q.semTail + (if c'.inPush then 1 else 0) = s.createQueue.semHead + s.createQueue.semTail + if (s.clients t).inPush then 1 else 0)
    (hstored : ∀ newWq, c' = .posting newWq → q.data 0 = some newWq)
    (hkeep : ∀ t' ≠ t, ∀ newWq, s.clients t' = .posting newWq → q.data 0 = some newWq) :
    ({ s with createQueue := q }.goto t c').Handover := by
  have hcensus := census_update (p := fun c => Client.inPush c = true) s.clients t c'
  refine ⟨?_, hhead, htail, ?_⟩
  · have hold := h.tokens
    simp only [goto] at hcensus ⊢
    omega
  · intro t' newWq ht'
    by_cases he : t' = t
    · subst he
      simp only [goto, update_self] at ht'
      exact hstored newWq ht'
    · simp only [goto, update_of_ne he] at ht'
      exact hkeep t' he newWq ht'

theorem handover_aside (h : s.Handover) (hc : (s.clients t).inPush = false)
    (hc' : c'.inPush = false) : (s.goto t c').Handover := by
  refine handover_goto h h.head h.tail ?_ ?_ fun t' _ newWq ht' => h.stored t' newWq ht'
  · rw [hc, hc']
  · rintro newWq rfl
    cases hc'

theorem total_goto {q : BlockingQueue Config}
    (hslot : ((({ s with createQueue := q } : Sys T).slot.toList.countP fun config => config.name = name) + if c'.asksFor name then 1 else 0) = (s.slot.toList.countP fun config => config.name = name) + if (s.clients t).asksFor name then 1 else 0) :
    ({ s with createQueue := q }.goto t c').total name = s.total name := by
  have hcensus := census_update (p := fun c => Client.asksFor name c = true) s.clients t c'
  have hsame : ({ s with createQueue := q }.goto t c').slot
      = ({ s with createQueue := q } : Sys T).slot := rfl
  unfold total underway live
  rw [hsame]
  simp only [goto] at hcensus ⊢
  omega

theorem total_aside (hc : (s.clients t).asksFor name = c'.asksFor name) :
    (s.goto t c').total name = s.total name := by
  refine total_goto (q := s.createQueue) ?_
  rw [hc]

theorem lookup_handover (h : s.Handover) (hc : (s.clients t).inPush = false)
    (hmiss : miss.inPush = false) : (s.lookup t newWq miss).Handover := by
  unfold lookup
  split
  · have hidle : (s.goto t .idle).Handover := handover_aside h hc rfl
    exact ⟨hidle.tokens, hidle.head, hidle.tail, hidle.stored⟩
  · exact handover_aside h hc hmiss

theorem lookup_total (hc : (s.clients t).asksFor name = false) (hmiss : miss.asksFor name = false) :
    (s.lookup t newWq miss).total name = s.total name := by
  unfold lookup
  split
  · have hidle : (s.goto t .idle).total name = s.total name := total_aside hc
    exact hidle
  · exact total_aside (hc.trans hmiss.symm)

theorem advanceStep_handover (h : s.Handover) (hs : s.advanceStep t = some s') : s'.Handover := by
  unfold advanceStep at hs
  cases hc : s.clients t with simp only [hc] at hs
  | idle =>
    cases hs
  | pushing newWq =>
    simp only [BlockingQueue.pushWait] at hs
    split at hs
    · cases hs
    · next hsem =>
      cases hs
      refine handover_goto h h.head h.tail ?_ (by simp) fun t' _ newWq ht' => h.stored t' newWq ht'
      simp only [hc, Client.inPush, if_true, Bool.false_eq_true, if_false]
      omega
  | storing newWq =>
    cases hs
    have ht : (s.clients t).inPush = true := by rw [hc]; rfl
    refine handover_goto h h.head (Nat.mod_one _) ?_ ?_ ?_
    · simp [hc, BlockingQueue.pushStore, Client.inPush]
    · intro other hother
      cases hother
      simp [BlockingQueue.pushStore, h.tail]
    · -- the place is not the other client's
      intro t' hne other ht'
      have hin : (s.clients t').inPush = true := by rw [ht']; rfl
      exact absurd (h.eq_of_inPush hin ht) hne
  | posting newWq =>
    cases hs
    refine handover_goto h h.head h.tail ?_ (by simp) fun t' _ newWq ht' => h.stored t' newWq ht'
    simp only [hc, BlockingQueue.pushPost, Client.inPush, if_true, Bool.false_eq_true, if_false]
    omega
  | polling newWq elapsed =>
    have ht : (s.clients t).inPush = false := by rw [hc]; rfl
    split at hs
    · cases hs
      exact lookup_handover h ht rfl
    · cases hs
      exact handover_aside h ht rfl

theorem advanceStep_total (h : s.Handover) (hs : s.advanceStep t = some s') :
    s'.total name = s.total name := by
  unfold advanceStep at hs
  cases hc : s.clients t with simp only [hc] at hs
  | idle =>
    cases hs
  | pushing newWq =>
    simp only [BlockingQueue.pushWait] at hs
    split at hs
    · cases hs
    · cases hs
      refine total_goto ?_
      rw [hc]
      rfl
  | storing newWq =>
    cases hs
    have ht : (s.clients t).inPush = true := by rw [hc]; rfl
    have hfree := h.not_waiting ht
    refine total_goto ?_
    have hslot : s.slot = none := if_neg hfree
    have hslot' : ({ s with createQueue := s.createQueue.pushStore 1 (some newWq) } : Sys T).slot
        = none := if_neg hfree
    rw [hslot, hslot', hc]
    rfl
  | posting newWq =>
    cases hs
    have ht : (s.clients t).inPush = true := by rw [hc]; rfl
    have hslot : ({ s with createQueue := s.createQueue.pushPost } : Sys T).slot = some newWq := by
      unfold slot BlockingQueue.pushPost
      rw [if_pos (.inl (Nat.succ_pos _))]
      show s.createQueue.data s.createQueue.head = _
      rw [h.head]
      exact h.stored t newWq hc
    have hfree : s.slot = none := if_neg (h.not_waiting ht)
    refine total_goto ?_
    rw [hfree, hslot, hc]
    simp [Client.asksFor, List.countP_cons]
  | polling newWq elapsed =>
    split at hs
    · cases hs
      refine lookup_total ?_ rfl
      rw [hc]
      rfl
    · cases hs
      refine total_aside ?_
      rw [hc]
      rfl

theorem call_total (hidle : s.clients t = .idle)
    (halone : s.findWorkqueueByName newWq.name = none → s.underway newWq.name = 0)
    (hone : s.total name ≤ 1) : (s.lookup t newWq (.pushing newWq)).total name ≤ 1 := by
  have hnot : (s.clients t).asksFor name = false := by
    rw [hidle]
    rfl
  by_cases hname : newWq.name = name
  · cases hfind : s.findWorkqueueByName newWq.name with
    | some wq =>
      have hsame : (s.goto t .idle).total name = s.total name := total_aside hnot
      unfold lookup
      rw [hfind]
      exact hsame.trans_le hone
    | none =>
      have hlive := live_eq_zero hfind
      have hunder := halone hfind
      have hcensus := census_update (p := fun c => Client.asksFor name c = true) s.clients t
        (.pushing newWq)
      have hasks : (Client.pushing newWq).asksFor name = true := by simp [Client.asksFor, hname]
      have hslot : (s.goto t (.pushing newWq)).slot = s.slot := rfl
      unfold lookup
      rw [hfind]
      rw [hname] at hlive hunder
      unfold total underway live at *
      rw [hslot]
      simp only [goto, hnot, hasks, if_true, Bool.false_eq_true, if_false] at hcensus ⊢
      omega
  · refine (lookup_total hnot ?_).trans_le hone
    simp [Client.asksFor, hname]

/-! ## Results -/

theorem step_inv {a : Action T} (h : s.Inv) (ha : s.Alone a) (hs : s.step a = some s') : s'.Inv := by
  have hlive : ∀ name, s.live name ≤ 1 := fun name => (Nat.le_add_left _ _).trans (h.once name)
  cases a with
  | call t newWq =>
    simp only [step] at hs
    split at hs
    · next hidle =>
      cases hs
      have hpush : (s.clients t).inPush = false := by
        rw [hidle]
        rfl
      exact ⟨lookup_handover h.handover hpush rfl, fun name => call_total hidle ha (h.once name),
        lookup_returned h.returned (hlive _)⟩
    · cases hs
  | advance t =>
    exact ⟨advanceStep_handover h.handover hs,
      fun name => (advanceStep_total h.handover hs).trans_le (h.once name),
      advanceStep_returned h.returned hlive hs⟩
  | manager ok =>
    exact ⟨managerStep_handover h.handover hs,
      fun name => (managerStep_total h.handover hs).trans (h.once name),
      managerStep_returned h.returned hs⟩
  | add wq =>
    refine ⟨?_, fun name => (addStep_total hs).trans_le (h.once name), addStep_returned h.returned hs⟩
    simp only [step, addStep] at hs
    split at hs
    · cases hs
      exact ⟨h.handover.tokens, h.handover.head, h.handover.tail, h.handover.stored⟩
    · cases hs
  | exit wq =>
    refine ⟨?_, fun name => (exitStep_total hs).trans (h.once name), exitStep_returned h.returned hs⟩
    simp only [step, exitStep] at hs
    split at hs
    · cases hs
      exact ⟨h.handover.tokens, h.handover.head, h.handover.tail, h.handover.stored⟩
    · cases hs

/--
**As long as no work queue is asked for that is under way already, there is one work queue for each
name**, and calls return the same one until it ends.
-/
theorem workqueue_unique_per_name (h : Reaches step Alone (start : Sys T) s) :
    (s.wqsList.map fun wq => wq.config.name).Nodup ∧
    ∀ a ∈ s.returned, ∀ b ∈ s.returned, a.newWq.name = b.newWq.name → a.exits = b.exits →
      a.wq = b.wq := by
  have hinv : s.Inv := h.invariant (P := Sys.Inv) start_inv fun s a s' hs ha => step_inv hs ha
  refine ⟨List.nodup_iff_count_le_one.mpr fun name => ?_, hinv.returned.same⟩
  have hlive : s.live name ≤ 1 := (Nat.le_add_left _ _).trans (hinv.once name)
  unfold live at hlive
  rw [List.count, List.countP_map]
  exact (List.countP_congr fun wq _ => by simp).trans_le hlive

/-- A work queue is created for one client, and found by the other. -/
theorem workqueue_unique_per_name_two :
    ∃ s : Sys Bool, Reaches step Alone start s ∧ s.returned.length = 2 ∧
      (s.wqsList.map fun wq => wq.config.name).Nodup ∧
      ∀ a ∈ s.returned, ∀ b ∈ s.returned, a.newWq.name = b.newWq.name → a.exits = b.exits →
        a.wq = b.wq := by
  let config : Config := { name := ['a'], relativePriority := 0 }
  have hfirst : Reaches step Alone (start : Sys Bool) (start.lookup true config (.pushing config)) := by
    refine Reaches.tail .refl (a := .call true config) ?_ rfl
    intro _
    decide
  have hrun : ([.advance true, .advance true, .advance true, .manager true, .manager true,
      .manager true, .manager true, .add { thread := 0, config }, .advance true].foldlM step
      ((start : Sys Bool).lookup true config (.pushing config))).map
      (fun s => ((s.wqsList, s.clients false), s.returned.length))
      = some (([{ thread := 0, config }], .idle), 1) := by decide
  obtain ⟨s, hs, hp⟩ := Option.map_eq_some_iff.mp hrun
  simp only [Prod.mk.injEq] at hp
  obtain ⟨⟨hlist, hidle⟩, hlength⟩ := hp
  have hcreated : Reaches step Alone start s := by
    refine hfirst.trans (Reaches.of_foldlM_of_forall _ hs ?_)
    intro s a ha
    simp only [List.mem_cons, List.not_mem_nil, or_false] at ha
    rcases ha with rfl | rfl | rfl | rfl | rfl | rfl | rfl | rfl | rfl <;> trivial
  have hfind : s.findWorkqueueByName config.name = some { thread := 0, config } := by
    simp [findWorkqueueByName, hlist]
  have hfound : Reaches step Alone start (s.lookup false config (.pushing config)) := by
    refine hcreated.tail (a := .call false config) ?_ (by simp [step, hidle])
    intro hnone
    rw [hfind] at hnone
    cases hnone
  refine ⟨_, hfound, ?_, workqueue_unique_per_name hfound⟩
  simp [lookup, hfind, hlength]

/--
Both clients look for the work queue before either has asked for it. Each gets its own, of the
same name.
-/
theorem two_workqueues_of_one_name :
    ∃ s : Sys Bool, Reaches step Always start s ∧
      ¬(s.wqsList.map fun wq => wq.config.name).Nodup ∧
      ¬∀ a ∈ s.returned, ∀ b ∈ s.returned, a.newWq = b.newWq → a.exits = b.exits → a.wq = b.wq := by
  let config : Config := { name := ['a'], relativePriority := 0 }
  have hrun : ([.call true config, .call false config, .advance true, .advance true, .advance true,
      .manager true, .manager true, .manager true, .manager true, .advance false, .advance false,
      .advance false, .manager true, .manager true, .manager true, .manager true,
      .add { thread := 0, config }, .advance true, .add { thread := 1, config },
      .advance false].foldlM step (start : Sys Bool)).map (fun s => (s.wqsList, s.returned))
      = some ([{ thread := 1, config }, { thread := 0, config }],
        [{ newWq := config, wq := { thread := 0, config }, exits := 0 },
          { newWq := config, wq := { thread := 1, config }, exits := 0 }]) := by decide
  obtain ⟨s, hs, hp⟩ := Option.map_eq_some_iff.mp hrun
  simp only [Prod.mk.injEq] at hp
  refine ⟨s, Reaches.of_foldlM _ hs, ?_, ?_⟩
  · rw [hp.1]
    simp
  · rw [hp.2]
    simp

end Gpmx.Workqueue.Manager
