import Gpmx.Queue.Links

/-!
# The other queue functions

The rest of `gpm/libs/libc/queue/sq_*.c` and `dq_*.c`, on the queues of `Gpmx.Queue.Links`.

* `sq_step_holds`, `dq_step_holds` — a call on a queue does to its list what it is called for
* `sq_cat_holds`, `dq_cat_holds` — two queues become one
* `queue_primitives_refine` — all of them
-/

namespace Gpmx.Queue

open Infra Function List

variable {ι : Type} [DecidableEq ι] {L M N : List ι} {node prev : ι}

/-! ## What the functions are called for -/

/-- Behind `prev`; the only node where there was none. -/
def insertAfter (prev node : ι) : List ι → List ι
  | [] => [node]
  | a :: L => if a = prev then a :: node :: L else a :: insertAfter prev node L

/-- In front of `next`; the only node where there was none. -/
def insertBefore (next node : ι) : List ι → List ι
  | [] => [node]
  | a :: L => if a = next then node :: a :: L else a :: insertBefore next node L

/-- The node behind `node` is taken out. -/
def removeAfter (node : ι) : List ι → Option ι × List ι
  | [] => (none, [])
  | a :: L => if a = node then (L.head?, a :: L.tail) else ((removeAfter node L).1, a :: (removeAfter node L).2)

theorem insertAfter_split (h : prev ∉ M) :
    insertAfter prev node (M ++ prev :: N) = M ++ prev :: node :: N := by
  induction M with
  | nil => exact if_pos rfl
  | cons a M ih =>
    obtain ⟨ha, hM⟩ := not_or.mp (mt mem_cons.mpr h)
    rw [cons_append, insertAfter, if_neg (Ne.symm ha), ih hM]
    rfl

theorem insertBefore_split {next : ι} (h : next ∉ M) :
    insertBefore next node (M ++ next :: N) = M ++ node :: next :: N := by
  induction M with
  | nil => exact if_pos rfl
  | cons a M ih =>
    obtain ⟨ha, hM⟩ := not_or.mp (mt mem_cons.mpr h)
    rw [cons_append, insertBefore, if_neg (Ne.symm ha), ih hM]
    rfl

theorem removeAfter_split (h : node ∉ M) :
    removeAfter node (M ++ node :: N) = (N.head?, M ++ node :: N.tail) := by
  induction M with
  | nil => exact if_pos rfl
  | cons a M ih =>
    obtain ⟨ha, hM⟩ := not_or.mp (mt mem_cons.mpr h)
    rw [cons_append, removeAfter, if_neg (Ne.symm ha), ih hM]
    rfl

/-! ## Singly linked -/

section Sq

namespace Sq

def remlast (fuel : Nat) (q : Sq ι) : Option (Option ι × Sq ι) :=
  match q.tail with
  | none => some (none, q)
  | some ret =>
    if q.head = q.tail then some (ret, { q with head := none, tail := none }.setFlink ret none)
    else
      match q.findPrev ret fuel q.head with
      | none => none
      | some none => some (ret, q.setFlink ret none)
      | some (some prev) => some (ret, { q.setFlink prev none with tail := some prev }.setFlink ret none)

/-- `sq_cat`, with the head and the tail of `queue1`; `queue2` is `q`. -/
def cat (queue1 : Option ι × Option ι) (q : Sq ι) : Option ((Option ι × Option ι) × Sq ι) :=
  if q.head.isNone then some ((none, none), { q with head := queue1.1, tail := queue1.2 })
  else if queue1.1.isSome then
    match q.tail with
    | none => none
    | some tail => some ((none, none), { q.setFlink tail queue1.1 with tail := queue1.2 })
  else some (queue1, q)

end Sq

inductive SqOp (ι : Type)
  | addafter (prev node : ι)
  | rem (node : ι)
  | remafter (node : ι)
  | remlast

def SqOp.run (fuel : Nat) (q : Sq ι) : SqOp ι → Option (Option ι × Sq ι)
  | .addafter prev node => (q.addafter prev node).map fun q => (none, q)
  | .rem node => (q.rem fuel node).map fun q => (none, q)
  | .remafter node => some (q.flink node, q.remafter node)
  | .remlast => q.remlast fuel

def SqOp.spec (L : List ι) : SqOp ι → Option ι × List ι
  | .addafter prev node => (none, insertAfter prev node L)
  | .rem node => (none, L.erase node)
  | .remafter node => removeAfter node L
  | .remlast => (L.getLast?, L.dropLast)

def SqOp.Ok (L : List ι) : SqOp ι → Prop
  | .addafter prev node => (prev ∈ L ∨ L = []) ∧ node ∉ L
  | .rem node => node ∈ L
  | .remafter node => node ∈ L
  | .remlast => True

variable {q : Sq ι}

theorem sq_remafter_last (h : q.Holds (M ++ [node])) : q.flink node = none ∧ q.remafter node = q := by
  have hnext : q.flink node = none := by
    obtain ⟨r, -, -, hN⟩ := seg_append.mp h.chain
    exact hN
  refine ⟨hnext, ?_⟩
  unfold Sq.remafter
  rw [hnext]
  split
  · next heq => cases heq
  · rfl

theorem sq_remlast_holds {fuel : Nat} (h : q.Holds L) (hfuel : L.length < fuel) :
    ∃ q', q.remlast fuel = some (L.getLast?, q') ∧ q'.Holds L.dropLast := by
  unfold Sq.remlast
  rcases eq_nil_or_concat L with rfl | ⟨M, ret, rfl⟩
  · have htail : q.tail = none := h.tail
    rw [htail]
    exact ⟨q, rfl, h⟩
  rw [concat_eq_append] at h hfuel ⊢
  have hlast : (M ++ [ret]).getLast? = some ret := by simp
  rw [h.tail, hlast, dropLast_concat, h.head]
  dsimp only
  cases M with
  | nil => exact ⟨_, if_pos rfl, rfl, rfl⟩
  | cons a M =>
    have hne : ¬((a :: M ++ [ret]).head? = some ret) := by
      intro he
      have ha : a = ret := Option.some.inj he
      exact h.chain.apart.1 (ha ▸ mem_cons_self)
    rw [if_neg hne, ← h.head]
    rcases findPrev_spec ret fuel h.chain with ⟨-, hle⟩ | ⟨K, prev, N, hL, hf⟩ | ⟨hn, -⟩
    · omega
    · rw [hf]
      refine ⟨_, rfl, ?_⟩
      have hsplit := hL.trans (append_cons K prev (ret :: N))
      have hN : N = [] := by
        have hchain := h.chain
        rw [hsplit] at hchain hlast
        cases N with
        | nil => rfl
        | cons b N =>
          rw [getLast?_append_of_ne_nil _ (by simp), getLast?_cons_cons] at hlast
          exact absurd (mem_of_getLast? hlast) hchain.apart.2
      subst hN
      rw [hL] at h
      have hbefore : a :: M = K ++ [prev] := append_cancel_right hsplit
      rw [hbefore]
      have hnext : q.flink ret = none := by
        rw [append_cons] at h
        exact (sq_remafter_last h).1
      have hunlink := h.chain.unlink
      rw [hnext] at hunlink
      have hprev : (K ++ [prev]).getLast? = some prev := by simp
      exact ⟨hunlink, hprev.symm⟩
    · exact absurd (by simp) hn

theorem sq_step_holds (fuel : Nat) (op : SqOp ι) (h : q.Holds L) (hok : op.Ok L) (hfuel : L.length < fuel) :
    ∃ q', op.run fuel q = some ((op.spec L).1, q') ∧ q'.Holds (op.spec L).2 := by
  cases op with
  | addafter prev node =>
    obtain ⟨hprev, hn⟩ := hok
    rcases hprev with hprev | rfl
    · obtain ⟨M, N, rfl⟩ := append_of_mem hprev
      obtain ⟨q', hq, hL⟩ := addafter_holds h hn
      refine ⟨q', by rw [SqOp.run, hq]; rfl, ?_⟩
      rw [SqOp.spec, insertAfter_split h.chain.apart.1]
      exact hL
    · obtain ⟨q', hq, hL⟩ := addlast_holds h hn
      refine ⟨q', ?_, hL⟩
      have hhead : q.head.isNone = true := by rw [h.head]; rfl
      rw [SqOp.run, Sq.addafter, if_pos (.inl hhead), hq]
      rfl
  | rem node =>
    rcases rem_holds fuel node h with ⟨-, hle⟩ | ⟨q', hq, hL⟩
    · omega
    · exact ⟨q', by rw [SqOp.run, hq]; rfl, hL⟩
  | remafter node =>
    obtain ⟨M, N, rfl⟩ := append_of_mem hok
    rw [SqOp.run, SqOp.spec, removeAfter_split h.chain.apart.1]
    refine ⟨q.remafter node, ?_, ?_⟩
    · obtain ⟨r, -, -, hN⟩ := seg_append.mp h.chain
      rw [hN.start]
    · cases N with
      | nil =>
        rw [(sq_remafter_last h).2]
        exact h
      | cons b N => exact remafter_holds h
  | remlast => exact sq_remlast_holds h hfuel

theorem sq_cat_holds {queue1 : Option ι × Option ι} (h : q.Holds L)
    (h1 : ({ q with head := queue1.1, tail := queue1.2 } : Sq ι).Holds M) (hd : ∀ a ∈ L, a ∉ M) :
    ∃ q', q.cat queue1 = some ((none, none), q') ∧ q'.Holds (L ++ M) := by
  unfold Sq.cat
  rcases eq_nil_or_concat L with rfl | ⟨K, tail, rfl⟩
  · have hhead : q.head = none := h.head
    rw [hhead]
    exact ⟨_, rfl, h1⟩
  rw [concat_eq_append] at h hd ⊢
  have hhead : q.head.isNone = false := by
    rw [h.head]
    cases K <;> rfl
  have htail : q.tail = some tail := by
    rw [h.tail]
    simp
  rw [hhead, htail]
  cases M with
  | nil =>
    have hnone : queue1 = (none, none) := Prod.ext h1.head h1.tail
    rw [hnone, append_nil]
    exact ⟨q, rfl, h⟩
  | cons b M =>
    have hb : queue1.1 = some b := h1.head
    have hlast : queue1.2 = (b :: M).getLast? := h1.tail
    rw [hb, hlast]
    refine ⟨_, rfl, ?_, ?_⟩
    · have hchain := h1.chain
      rw [hb] at hchain
      exact seg_append.mpr ⟨some b, h.chain.retarget h.chain.apart.1, hchain.update (hd tail (by simp))⟩
    · rw [getLast?_append_of_ne_nil _ (by simp)]

end Sq

/-! ## Doubly linked -/

section Dq

namespace Dq

/-- `dq_addfirst` -/
def addfirst (node : ι) (q : Dq ι) : Dq ι :=
  let q :=
    { q with
      blink := update q.blink node none
      flink := update q.flink node q.head }
  match q.head with
  | none => { q with head := some node, tail := some node }
  | some head => { q with blink := update q.blink head (some node), head := some node }

/-- The four links between `prev` and `next`. -/
def between (prev node next : ι) (q : Dq ι) : Dq ι :=
  { q with
    flink := update (update q.flink node (some next)) prev (some node)
    blink := update (update q.blink node (some prev)) next (some node) }

/-- `dq_addafter` -/
def addafter (prev node : ι) (q : Dq ι) : Option (Dq ι) :=
  if q.head.isNone ∨ q.tail = some prev then q.addlast node
  else (q.flink prev).map fun next => q.between prev node next

/-- `dq_addbefore` -/
def addbefore (next node : ι) (q : Dq ι) : Option (Dq ι) :=
  if q.head.isNone ∨ q.head = some next then some (q.addfirst node)
  else (q.blink next).map fun prev => q.between prev node next

/-- `node->flink = node->blink = NULL` -/
def clear (node : ι) (q : Dq ι) : Dq ι :=
  { q with
    flink := update q.flink node none
    blink := update q.blink node none }

def remfirst (q : Dq ι) : Option ι × Dq ι :=
  match q.head with
  | none => (none, q)
  | some ret =>
    match q.flink ret with
    | none => (ret, { q with head := none, tail := none }.clear ret)
    | some next =>
      (ret, { q with head := some next, blink := update q.blink next none }.clear ret)

def remlast (q : Dq ι) : Option ι × Dq ι :=
  match q.tail with
  | none => (none, q)
  | some ret =>
    match q.blink ret with
    | none => (ret, { q with head := none, tail := none }.clear ret)
    | some prev =>
      (ret, { q with tail := some prev, flink := update q.flink prev none }.clear ret)

/-- `dq_cat`, with the head and the tail of `queue1`; `queue2` is `q`. -/
def cat (queue1 : Option ι × Option ι) (q : Dq ι) : Option ((Option ι × Option ι) × Dq ι) :=
  if q.head.isNone then some ((none, none), { q with head := queue1.1, tail := queue1.2 })
  else
    match queue1.1, q.tail with
    | none, _ => some (queue1, q)
    | some _, none => none
    | some head, some tail =>
      some ((none, none), { q with
        tail := queue1.2
        flink := update q.flink tail (some head)
        blink := update q.blink head (some tail) })

end Dq

inductive DqOp (ι : Type)
  | addfirst (node : ι)
  | addlast (node : ι)
  | addafter (prev node : ι)
  | addbefore (next node : ι)
  | rem (node : ι)
  | remfirst
  | remlast

def DqOp.run (q : Dq ι) : DqOp ι → Option (Option ι × Dq ι)
  | .addfirst node => some (none, q.addfirst node)
  | .addlast node => (q.addlast node).map fun q => (none, q)
  | .addafter prev node => (q.addafter prev node).map fun q => (none, q)
  | .addbefore next node => (q.addbefore next node).map fun q => (none, q)
  | .rem node => some (none, q.rem node)
  | .remfirst => some q.remfirst
  | .remlast => some q.remlast

def DqOp.spec (L : List ι) : DqOp ι → Option ι × List ι
  | .addfirst node => (none, node :: L)
  | .addlast node => (none, L ++ [node])
  | .addafter prev node => (none, insertAfter prev node L)
  | .addbefore next node => (none, insertBefore next node L)
  | .rem node => (none, L.erase node)
  | .remfirst => (L.head?, L.tail)
  | .remlast => (L.getLast?, L.dropLast)

def DqOp.Ok (L : List ι) : DqOp ι → Prop
  | .addfirst node => node ∉ L
  | .addlast node => node ∉ L
  | .addafter prev node => (prev ∈ L ∨ L = []) ∧ node ∉ L
  | .addbefore next node => (next ∈ L ∨ L = []) ∧ node ∉ L
  | .rem node => node ∈ L
  | .remfirst => True
  | .remlast => True

variable {q : Dq ι} {next : ι}

omit [DecidableEq ι] in
theorem dq_head (h : q.Holds L) : q.head = L.head? := h.forward.start

omit [DecidableEq ι] in
theorem dq_tail (h : q.Holds L) : q.tail = L.getLast? := by
  rw [h.backward.start, head?_reverse]

theorem dq_addfirst_holds (h : q.Holds L) (hn : node ∉ L) : (q.addfirst node).Holds (node :: L) := by
  have hforward : Seg (update q.flink node q.head) (some node) (node :: L) none := by
    refine ⟨rfl, ?_⟩
    rw [update_self]
    exact h.forward.update hn
  have hback := h.backward.update (v := none) (mt mem_reverse.mp hn)
  unfold Dq.addfirst
  cases L with
  | nil =>
    have hhead : q.head = none := dq_head h
    simp only [hhead] at hforward ⊢
    exact ⟨hforward, rfl, update_self ..⟩
  | cons a L =>
    have hhead : q.head = some a := dq_head h
    have ha : node ≠ a := fun he => hn (he ▸ mem_cons_self)
    have haL : a ∉ L.reverse := mt mem_reverse.mp (nodup_cons.mp h.nodup).1
    simp only [hhead] at hforward ⊢
    refine ⟨hforward, ?_⟩
    rw [reverse_cons] at hback ⊢
    rw [reverse_cons]
    refine seg_append.mpr ⟨some node, hback.retarget haL, rfl, ?_⟩
    show update _ _ _ _ = _
    rw [update_of_ne ha, update_self]

theorem dq_between_holds (h : q.Holds (M ++ prev :: next :: N)) (hn : node ∉ M ++ prev :: next :: N) :
    q.flink prev = some next ∧ q.blink next = some prev ∧
      (q.between prev node next).Holds (M ++ prev :: node :: next :: N) := by
  have hforward := h.forward.insert hn
  have hback := h.backward
  have hrev : (M ++ prev :: next :: N).reverse = N.reverse ++ next :: prev :: M.reverse := by simp
  rw [hrev] at hback
  have hinsert := hback.insert (b := node) (by rw [← hrev]; exact mt mem_reverse.mp hn)
  have hnext : q.flink prev = some next := by
    obtain ⟨r, -, -, hN⟩ := seg_append.mp h.forward
    exact hN.1
  have hprev : q.blink next = some prev := by
    obtain ⟨r, -, -, hM⟩ := seg_append.mp hback
    exact hM.1
  rw [hnext] at hforward
  rw [hprev] at hinsert
  refine ⟨hnext, hprev, hforward, ?_⟩
  have hrev' : (M ++ prev :: node :: next :: N).reverse = N.reverse ++ next :: node :: prev :: M.reverse := by simp
  rw [hrev']
  exact hinsert

theorem dq_addafter_holds (h : q.Holds (M ++ prev :: N)) (hn : node ∉ M ++ prev :: N) :
    ∃ q', q.addafter prev node = some q' ∧ q'.Holds (M ++ prev :: node :: N) := by
  unfold Dq.addafter
  cases N with
  | nil =>
    obtain ⟨q', hq, hL, -⟩ := dq_addlast_holds h hn
    rw [if_pos (.inr (by rw [dq_tail h]; simp)), hq]
    refine ⟨q', rfl, ?_⟩
    rw [append_cons]
    exact hL
  | cons next N =>
    have hnot : ¬(q.head.isNone = true ∨ q.tail = some prev) := by
      rintro (hnone | htail)
      · rw [dq_head h] at hnone
        cases M <;> cases hnone
      · rw [dq_tail h, getLast?_append_of_ne_nil _ (by simp), getLast?_cons_cons] at htail
        exact h.forward.apart.2 (mem_of_getLast? htail)
    obtain ⟨hnext, -, hL⟩ := dq_between_holds h hn
    rw [if_neg hnot, hnext]
    exact ⟨_, rfl, hL⟩

theorem dq_addbefore_holds (h : q.Holds (M ++ next :: N)) (hn : node ∉ M ++ next :: N) :
    ∃ q', q.addbefore next node = some q' ∧ q'.Holds (M ++ node :: next :: N) := by
  unfold Dq.addbefore
  rcases eq_nil_or_concat M with rfl | ⟨K, prev, rfl⟩
  · rw [if_pos (.inr (dq_head h))]
    exact ⟨_, rfl, dq_addfirst_holds h hn⟩
  · rw [concat_eq_append] at h hn ⊢
    have hnot : ¬(q.head.isNone = true ∨ q.head = some next) := by
      have hK := h.forward.apart.1
      rw [dq_head h]
      cases K with
      | nil => simpa [eq_comm] using hK
      | cons a K =>
        have hne : next ≠ a := fun he => hK (by simp [he])
        simpa using Ne.symm hne
    rw [append_assoc, singleton_append] at h hn ⊢
    obtain ⟨-, hprev, hL⟩ := dq_between_holds h hn
    rw [if_neg hnot, hprev]
    exact ⟨_, rfl, hL⟩

theorem dq_remfirst_eq (h : q.Holds (node :: L)) : q.remfirst = (some node, q.rem node) := by
  have hhead : q.head = some node := dq_head h
  have hprev : q.blink node = none := by
    have hback := h.backward
    rw [reverse_cons] at hback
    obtain ⟨r, -, -, hnone⟩ := seg_append.mp hback
    exact hnone
  unfold Dq.remfirst Dq.rem Dq.clear
  rw [hhead]
  dsimp only
  rw [hprev]
  cases q.flink node <;> rfl

theorem dq_remlast_eq (h : q.Holds (L ++ [node])) : q.remlast = (some node, q.rem node) := by
  have htail : q.tail = some node := by
    rw [dq_tail h]
    simp
  have hnext : q.flink node = none := by
    obtain ⟨r, -, -, hnone⟩ := seg_append.mp h.forward
    exact hnone
  unfold Dq.remlast Dq.rem Dq.clear
  rw [htail]
  dsimp only
  rw [hnext]
  cases q.blink node <;> rfl

theorem dq_step_holds (op : DqOp ι) (h : q.Holds L) (hok : op.Ok L) :
    ∃ q', op.run q = some ((op.spec L).1, q') ∧ q'.Holds (op.spec L).2 := by
  cases op with
  | addfirst node => exact ⟨_, rfl, dq_addfirst_holds h hok⟩
  | addlast node =>
    obtain ⟨q', hq, hL, -⟩ := dq_addlast_holds h hok
    exact ⟨q', by rw [DqOp.run, hq]; rfl, hL⟩
  | addafter prev node =>
    obtain ⟨hprev, hn⟩ := hok
    rcases hprev with hprev | rfl
    · obtain ⟨M, N, rfl⟩ := append_of_mem hprev
      obtain ⟨q', hq, hL⟩ := dq_addafter_holds h hn
      refine ⟨q', by rw [DqOp.run, hq]; rfl, ?_⟩
      rw [DqOp.spec, insertAfter_split h.forward.apart.1]
      exact hL
    · obtain ⟨q', hq, hL, -⟩ := dq_addlast_holds h hn
      have hhead : q.head.isNone = true := by rw [dq_head h]; rfl
      refine ⟨q', ?_, hL⟩
      rw [DqOp.run, Dq.addafter, if_pos (.inl hhead), hq]
      rfl
  | addbefore next node =>
    obtain ⟨hnext, hn⟩ := hok
    rcases hnext with hnext | rfl
    · obtain ⟨M, N, rfl⟩ := append_of_mem hnext
      obtain ⟨q', hq, hL⟩ := dq_addbefore_holds h hn
      refine ⟨q', by rw [DqOp.run, hq]; rfl, ?_⟩
      rw [DqOp.spec, insertBefore_split h.forward.apart.1]
      exact hL
    · have hhead : q.head.isNone = true := by rw [dq_head h]; rfl
      refine ⟨_, ?_, dq_addfirst_holds h hn⟩
      rw [DqOp.run, Dq.addbefore, if_pos (.inl hhead)]
      rfl
  | rem node => exact ⟨_, rfl, (dq_rem_holds h hok).1⟩
  | remfirst =>
    cases L with
    | nil =>
      have hhead : q.head = none := dq_head h
      exact ⟨q, by rw [DqOp.run, Dq.remfirst, hhead]; rfl, h⟩
    | cons node L =>
      exact ⟨_, by rw [DqOp.run, dq_remfirst_eq h]; rfl, (dq_rem_split (M := []) h).1⟩
  | remlast =>
    rcases eq_nil_or_concat L with rfl | ⟨M, node, rfl⟩
    · have htail : q.tail = none := dq_tail h
      exact ⟨q, by rw [DqOp.run, Dq.remlast, htail]; rfl, h⟩
    · rw [concat_eq_append] at h ⊢
      have hrem := (dq_rem_split h).1
      rw [append_nil] at hrem
      refine ⟨q.rem node, ?_, ?_⟩
      · rw [DqOp.run, dq_remlast_eq h, DqOp.spec, getLast?_append_of_ne_nil _ (by simp)]
        rfl
      · rw [DqOp.spec, dropLast_concat]
        exact hrem

theorem dq_cat_holds {queue1 : Option ι × Option ι} (h : q.Holds L)
    (h1 : ({ q with head := queue1.1, tail := queue1.2 } : Dq ι).Holds M) (hd : ∀ a ∈ L, a ∉ M) :
    ∃ q', q.cat queue1 = some ((none, none), q') ∧ q'.Holds (L ++ M) := by
  unfold Dq.cat
  rcases eq_nil_or_concat L with rfl | ⟨K, tail, rfl⟩
  · have hhead : q.head = none := dq_head h
    rw [hhead]
    exact ⟨_, rfl, h1⟩
  rw [concat_eq_append] at h hd ⊢
  have hhead : q.head.isNone = false := by
    rw [dq_head h]
    cases K <;> rfl
  have htail : q.tail = some tail := by
    rw [dq_tail h]
    simp
  have hhead1 : queue1.1 = M.head? := dq_head h1
  rw [hhead, htail, hhead1]
  cases M with
  | nil =>
    have hnone : queue1 = (none, none) := Prod.ext hhead1 (dq_tail h1)
    rw [hnone, append_nil]
    exact ⟨q, rfl, h⟩
  | cons b M =>
    have hforward := h1.forward
    have hback := h1.backward
    rw [hhead1] at hforward
    rw [reverse_cons] at hback
    have hbM : b ∉ M.reverse := mt mem_reverse.mp (nodup_cons.mp h1.nodup).1
    have hbL : b ∉ (K ++ [tail]).reverse := fun hmem => hd b (mem_reverse.mp hmem) mem_cons_self
    refine ⟨_, rfl, ?_, ?_⟩
    · exact seg_append.mpr
        ⟨some b, h.forward.retarget h.forward.apart.1, hforward.update (hd tail (by simp))⟩
    · have hbackL := h.backward
      rw [htail] at hbackL
      rw [reverse_append, reverse_cons]
      exact seg_append.mpr ⟨some tail, hback.retarget hbM, hbackL.update hbL⟩

end Dq

/-- **The queue functions do to the list what they are called for**: a queue stays well formed, with the nodes that it
is to have, and what `remfirst`, `remlast` and `remafter` return is the node that they take out. After `cat` the one
queue has the nodes of both, and the other is empty. -/
theorem queue_primitives_refine :
    (∀ (q : Sq ι) (L : List ι) (op : SqOp ι) (fuel : Nat), q.Holds L → op.Ok L → L.length < fuel →
      ∃ q', op.run fuel q = some ((op.spec L).1, q') ∧ q'.Holds (op.spec L).2) ∧
    (∀ (q : Dq ι) (L : List ι) (op : DqOp ι), q.Holds L → op.Ok L →
      ∃ q', op.run q = some ((op.spec L).1, q') ∧ q'.Holds (op.spec L).2) ∧
    (∀ (q : Sq ι) (queue1 : Option ι × Option ι) (L M : List ι), q.Holds L →
      ({ q with head := queue1.1, tail := queue1.2 } : Sq ι).Holds M → (∀ a ∈ L, a ∉ M) →
      ∃ q', q.cat queue1 = some ((none, none), q') ∧ q'.Holds (L ++ M)) ∧
    ∀ (q : Dq ι) (queue1 : Option ι × Option ι) (L M : List ι), q.Holds L →
      ({ q with head := queue1.1, tail := queue1.2 } : Dq ι).Holds M → (∀ a ∈ L, a ∉ M) →
      ∃ q', q.cat queue1 = some ((none, none), q') ∧ q'.Holds (L ++ M) :=
  ⟨fun _ _ op fuel h hok hfuel => sq_step_holds fuel op h hok hfuel, fun _ _ op h hok => dq_step_holds op h hok,
    fun _ _ _ _ h h1 hd => sq_cat_holds h h1 hd, fun _ _ _ _ h h1 hd => dq_cat_holds h h1 hd⟩

/-- A node is added to an empty queue. -/
theorem queue_primitives_one : ∃ q', DqOp.run (Dq.mk none none (fun _ => none) (fun _ => none)) (.addlast 1) =
      some ((DqOp.spec [] (.addlast 1)).1, q') ∧ q'.Holds (DqOp.spec [] (.addlast 1)).2 :=
  queue_primitives_refine.2.1 _ [] (.addlast 1) ⟨rfl, rfl⟩ not_mem_nil

end Gpmx.Queue
