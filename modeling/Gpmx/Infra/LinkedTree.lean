import Mathlib

/-!
# Trees in a heap

A tree of cells that point to their parent, their right neighbour (`peer`) and their first child,
as a shape (`Forest`) and the heaps that hold it (`Rep`). A place in the tree is a one-hole
context `Ctx`; its innermost link is the one pointer an insertion or a removal has to turn.

* `rep_fill` — a heap holds a filled context when it holds the context and what is in the hole
* `Stores.insert`, `Stores.unlink`, `Stores.mapData` — what turning one link, or changing the
  data of one cell, does to the tree held
* `Stores.unique` — a heap holds at most one tree
-/

namespace Gpmx.Infra

open List
open Or (inl inr)

abbrev Addr := Nat

variable {δ ε ζ : Type}

/-! ## Heaps -/

structure Cell (δ : Type) where
  parent : Option Addr
  peer : Option Addr
  child : Option Addr
  data : δ
deriving DecidableEq

/-- A cell that is not allocated is `none`. -/
structure Heap (δ : Type) where
  cells : List (Option (Cell δ))
deriving DecidableEq

namespace Heap

def size (h : Heap δ) : Nat := h.cells.length

def read (h : Heap δ) (a : Addr) : Option (Cell δ) := h.cells[a]?.join

def put (h : Heap δ) (a : Addr) (c : Option (Cell δ)) : Heap δ := ⟨h.cells.set a c⟩

/-- Change an allocated cell; `none` when there is none at the address. -/
def modify (h : Heap δ) (a : Addr) (f : Cell δ → Cell δ) : Option (Heap δ) :=
  (h.read a).map fun c => h.put a (some (f c))

variable {h h' : Heap δ} {a b : Addr} {c : Cell δ}

@[simp] theorem size_put (o : Option (Cell δ)) : (h.put a o).size = h.size := by
  simp [size, put]

theorem lt_size_of_read (hr : h.read a = some c) : a < h.size := by
  unfold read at hr
  by_cases ha : a < h.cells.length
  · exact ha
  · rw [getElem?_eq_none (Nat.le_of_not_lt ha)] at hr
    simp at hr

theorem read_put_self (o : Option (Cell δ)) (ha : a < h.size) : (h.put a o).read a = o := by
  unfold read put
  rw [getElem?_set_self ha]
  rfl

theorem read_put_ne (o : Option (Cell δ)) (hne : b ≠ a) : (h.put a o).read b = h.read b := by
  unfold read put
  rw [getElem?_set_ne (Ne.symm hne)]

theorem put_put (o o' : Option (Cell δ)) : (h.put a o).put a o' = h.put a o' := by
  unfold put
  rw [set_set]

theorem put_read (hr : h.read a = some c) : h.put a (some c) = h := by
  have ha : a < h.cells.length := lt_size_of_read hr
  have hc : h.cells.get ⟨a, ha⟩ = some c := by
    unfold read at hr
    rw [getElem?_eq_getElem ha] at hr
    exact hr
  rw [← hc]
  show Heap.mk (h.cells.set a h.cells[a]) = h
  rw [set_getElem_self ha]

theorem modify_of_read (f : Cell δ → Cell δ) (hr : h.read a = some c) :
    h.modify a f = some (h.put a (some (f c))) := by
  unfold modify
  rw [hr]
  rfl

theorem read_of_modify {f : Cell δ → Cell δ} (hm : h.modify a f = some h') :
    ∃ c, h.read a = some c ∧ h' = h.put a (some (f c)) := by
  obtain ⟨c, hr, rfl⟩ := Option.map_eq_some_iff.mp hm
  exact ⟨c, hr, rfl⟩

end Heap

/-! ## Shapes -/

inductive Forest (δ : Type) where
  | nil
  | cons (a : Addr) (d : δ) (child peer : Forest δ)
deriving DecidableEq

namespace Forest

def head : Forest δ → Option Addr
  | nil => none
  | cons a _ _ _ => some a

def addrs : Forest δ → List Addr
  | nil => []
  | cons a _ child peer => a :: (child.addrs ++ peer.addrs)

/-- Every node's data satisfies `P`. -/
def All (P : δ → Prop) : Forest δ → Prop
  | nil => True
  | cons _ d child peer => P d ∧ child.All P ∧ peer.All P

def height : Forest δ → Nat
  | nil => 0
  | cons _ _ child peer => max child.height peer.height + 1

def mapAt (φ : Addr → δ → ε) : Forest δ → Forest ε
  | nil => nil
  | cons a d child peer => cons a (φ a d) (child.mapAt φ) (peer.mapAt φ)

def only (a : Addr) (u : δ → δ) : Addr → δ → δ := fun b d => if b = a then u d else d

theorem only_self (a : Addr) (u : δ → δ) (d : δ) : only a u a d = u d := if_pos rfl

variable {a : Addr} {f : Forest δ} {d : δ} {g : Forest δ} {up : Option Addr} {ch pe : Forest δ}

theorem only_ne {b : Addr} (u : δ → δ) (d : δ) (hne : b ≠ a) : only a u b d = d := if_neg hne

@[simp] theorem head_mapAt (φ : Addr → δ → ε) (f : Forest δ) : (f.mapAt φ).head = f.head := by
  cases f <;> rfl

@[simp] theorem addrs_mapAt (φ : Addr → δ → ε) (f : Forest δ) : (f.mapAt φ).addrs = f.addrs := by
  induction f with
  | nil => rfl
  | cons a d child peer ihc ihp => simp only [mapAt, addrs, ihc, ihp]

theorem mapAt_mapAt (φ : Addr → δ → ε) (ψ : Addr → ε → ζ) (f : Forest δ) :
    (f.mapAt φ).mapAt ψ = f.mapAt fun a d => ψ a (φ a d) := by
  induction f with
  | nil => rfl
  | cons a d child peer ihc ihp => simp only [mapAt, ihc, ihp]

theorem mapAt_congr {φ ψ : Addr → δ → ε} (h : ∀ a ∈ f.addrs, ∀ d, φ a d = ψ a d) :
    f.mapAt φ = f.mapAt ψ := by
  induction f with
  | nil => rfl
  | cons a d child peer ihc ihp =>
    simp only [addrs, mem_cons, mem_append] at h
    simp only [mapAt]
    rw [h a (inl rfl), ihc fun b hb => h b (inr (inl hb)),
      ihp fun b hb => h b (inr (inr hb))]

theorem mapAt_id (f : Forest δ) : (f.mapAt fun _ d => d) = f := by
  induction f with
  | nil => rfl
  | cons a d child peer ihc ihp => simp only [mapAt, ihc, ihp]

theorem mapAt_only_of_not_mem (ha : a ∉ f.addrs) (u : δ → δ) : f.mapAt (only a u) = f := by
  have hid : ∀ b ∈ f.addrs, ∀ d, only a u b d = d := by
    intro b hb d
    refine only_ne u d ?_
    rintro rfl
    exact ha hb
  rw [mapAt_congr hid, mapAt_id]

/-- The node at `a` holds `d`. -/
def Has (a : Addr) (d : δ) : Forest δ → Prop
  | nil => False
  | cons b e child peer => (b = a ∧ e = d) ∨ child.Has a d ∨ peer.Has a d

theorem mem_addrs_of_has (h : f.Has a d) : a ∈ f.addrs := by
  induction f with
  | nil => cases h
  | cons b e child peer ihc ihp =>
    simp only [addrs, mem_cons, mem_append]
    rcases h with ⟨rfl, -⟩ | h | h
    · exact inl rfl
    · exact inr (inl (ihc h))
    · exact inr (inr (ihp h))

theorem eq_of_mapAt_eq {φ ψ : Addr → δ → ε} (h : f.mapAt φ = f.mapAt ψ) (hd : f.Has a d) :
    φ a d = ψ a d := by
  induction f with
  | nil => cases hd
  | cons b e child peer ihc ihp =>
    obtain ⟨-, he, hc, hp⟩ := Forest.cons.inj h
    rcases hd with ⟨rfl, rfl⟩ | hd | hd
    · exact he
    · exact ihc hc hd
    · exact ihp hp hd

theorem height_le_length_addrs (f : Forest δ) : f.height ≤ f.addrs.length := by
  induction f with
  | nil => exact Nat.le_refl 0
  | cons a d child peer ihc ihp =>
    simp only [height, addrs, length_cons, length_append]
    omega

end Forest

/-! ## Places -/

/--
A forest with a hole, seen from the hole: `peer K a d child` when the hole is the list after
`a`, `child K a d peer` when it is the list of children of `a`.
-/
inductive Ctx (δ : Type) where
  | top
  | peer (K : Ctx δ) (a : Addr) (d : δ) (child : Forest δ)
  | child (K : Ctx δ) (a : Addr) (d : δ) (peer : Forest δ)

namespace Ctx

def fill : Ctx δ → Forest δ → Forest δ
  | top, g => g
  | peer K a d ch, g => K.fill (.cons a d ch g)
  | child K a d pe, g => K.fill (.cons a d g pe)

def above : Ctx δ → Option Addr
  | top => none
  | peer K _ _ _ => K.above
  | child _ a _ _ => some a

def left : Ctx δ → Option Addr
  | top => none
  | peer _ a _ _ => some a
  | child _ _ _ _ => none

def addrs : Ctx δ → List Addr
  | top => []
  | peer K a _ ch => a :: (ch.addrs ++ K.addrs)
  | child K a _ pe => a :: (pe.addrs ++ K.addrs)

def spine : Ctx δ → List δ
  | top => []
  | peer K _ _ _ => K.spine
  | child K _ d _ => K.spine ++ [d]

def All (P : δ → Prop) : Ctx δ → Prop
  | top => True
  | peer K _ d ch => P d ∧ ch.All P ∧ K.All P
  | child K _ d pe => P d ∧ pe.All P ∧ K.All P

def mapAt (φ : Addr → δ → ε) : Ctx δ → Ctx ε
  | top => top
  | peer K a d ch => peer (K.mapAt φ) a (φ a d) (ch.mapAt φ)
  | child K a d pe => child (K.mapAt φ) a (φ a d) (pe.mapAt φ)

theorem mapAt_fill (φ : Addr → δ → ε) (K : Ctx δ) (g : Forest δ) :
    (K.fill g).mapAt φ = (K.mapAt φ).fill (g.mapAt φ) := by
  induction K generalizing g with
  | top => rfl
  | peer K a d ch ih | child K a d pe ih => exact ih _

theorem mapAt_only_of_not_mem {K : Ctx δ} (ha : a ∉ K.addrs) (u : δ → δ) :
    K.mapAt (Forest.only a u) = K := by
  induction K with
  | top => rfl
  | peer K b d ch ih | child K b d pe ih =>
    simp only [addrs, mem_cons, mem_append, not_or] at ha
    rw [mapAt, ih ha.2.2, Forest.only_ne u d (Ne.symm ha.1), Forest.mapAt_only_of_not_mem ha.2.1]

theorem addrs_fill (K : Ctx δ) (g : Forest δ) : (K.fill g).addrs.Perm (K.addrs ++ g.addrs) := by
  induction K generalizing g with
  | top => exact List.Perm.refl _
  | peer K a d ch ih | child K a d pe ih =>
    refine (ih _).trans (perm_iff_count.mpr fun x => ?_)
    simp only [Forest.addrs, addrs, count_append, count_cons]
    omega

theorem mem_addrs_fill {K : Ctx δ} {x : Addr} :
    x ∈ (K.fill g).addrs ↔ x ∈ K.addrs ∨ x ∈ g.addrs := by
  rw [(K.addrs_fill g).mem_iff, mem_append]

theorem all_fill {P : δ → Prop} {K : Ctx δ} : (K.fill g).All P ↔ K.All P ∧ g.All P := by
  induction K generalizing g with
  | top => exact ⟨fun h => ⟨trivial, h⟩, fun h => h.2⟩
  | peer K a d ch ih | child K a d pe ih =>
    simp only [fill, ih, Forest.All, All]
    tauto

theorem has_fill (K : Ctx δ) (h : g.Has a d) : (K.fill g).Has a d := by
  induction K generalizing g with
  | top => exact h
  | peer K b e ch ih => exact ih (inr (inr h))
  | child K b e pe ih => exact ih (inr (inl h))

theorem head_fill {K : Ctx δ} (hK : K ≠ top) (g g' : Forest δ) :
    (K.fill g).head = (K.fill g').head := by
  induction K generalizing g g' with
  | top => exact absurd rfl hK
  | peer K a d ch ih | child K a d pe ih =>
    by_cases hK' : K = top
    · subst hK'
      rfl
    · exact ih hK' _ _

end Ctx

/-! ## Heaps that hold a tree -/

/-- The heap holds the siblings `f`, children of `up`. -/
def Rep (h : Heap δ) : Option Addr → Forest δ → Prop
  | _, .nil => True
  | up, .cons a d child peer =>
    h.read a = some ⟨up, peer.head, child.head, d⟩ ∧ Rep h (some a) child ∧ Rep h up peer

/-- The heap holds the context `K`, with `o` as the link in the hole. -/
def RepCtx (h : Heap δ) : Ctx δ → Option Addr → Prop
  | .top, _ => True
  | .peer K a d ch, o =>
    h.read a = some ⟨K.above, o, ch.head, d⟩ ∧ Rep h (some a) ch ∧ RepCtx h K (some a)
  | .child K a d pe, o =>
    h.read a = some ⟨K.above, pe.head, o, d⟩ ∧ Rep h K.above pe ∧ RepCtx h K (some a)

variable {h h' : Heap δ}

theorem rep_fill {K : Ctx δ} : Rep h none (K.fill g) ↔ RepCtx h K g.head ∧ Rep h K.above g := by
  induction K generalizing g with
  | top => exact ⟨fun h => ⟨trivial, h⟩, fun h => h.2⟩
  | peer K a d ch ih | child K a d pe ih =>
    simp only [Ctx.fill, ih, Rep, RepCtx, Ctx.above, Forest.head]
    tauto

theorem Rep.congr (hf : Rep h up f) (hag : ∀ a ∈ f.addrs, h'.read a = h.read a) : Rep h' up f := by
  induction f generalizing up with
  | nil => trivial
  | cons a d child peer ihc ihp =>
    simp only [Forest.addrs, mem_cons, mem_append] at hag
    obtain ⟨hr, hc, hp⟩ := hf
    refine ⟨?_, ihc hc fun b hb => hag b (inr (inl hb)),
      ihp hp fun b hb => hag b (inr (inr hb))⟩
    rw [hag a (inl rfl)]
    exact hr

theorem RepCtx.congr {K : Ctx δ} {o : Option Addr} (hK : RepCtx h K o)
    (hag : ∀ a ∈ K.addrs, h'.read a = h.read a) : RepCtx h' K o := by
  induction K generalizing o with
  | top => trivial
  | peer K a d ch ih =>
    simp only [Ctx.addrs, mem_cons, mem_append] at hag
    obtain ⟨hr, hc, hK⟩ := hK
    refine ⟨?_, hc.congr fun b hb => hag b (inr (inl hb)),
      ih hK fun b hb => hag b (inr (inr hb))⟩
    rw [hag a (inl rfl)]
    exact hr
  | child K a d pe ih =>
    simp only [Ctx.addrs, mem_cons, mem_append] at hag
    obtain ⟨hr, hp, hK⟩ := hK
    refine ⟨?_, hp.congr fun b hb => hag b (inr (inl hb)),
      ih hK fun b hb => hag b (inr (inr hb))⟩
    rw [hag a (inl rfl)]
    exact hr

theorem Rep.unique {f' : Forest δ} (hf : Rep h up f) (hf' : Rep h up f') (hhead : f.head = f'.head) :
    f = f' := by
  induction f generalizing up f' with
  | nil =>
    cases f' with
    | nil => rfl
    | cons a' d' child' peer' => cases hhead
  | cons a d child peer ihc ihp =>
    cases f' with
    | nil => cases hhead
    | cons a' d' child' peer' =>
      obtain rfl : a = a' := Option.some.inj hhead
      obtain ⟨hr, hc, hp⟩ := hf
      obtain ⟨hr', hc', hp'⟩ := hf'
      rw [hr] at hr'
      have hcell := Cell.mk.inj (Option.some.inj hr')
      rw [hcell.2.2.2, ihc hc hc' hcell.2.2.1, ihp hp hp' hcell.2.1]

theorem Rep.read (hf : Rep h up f) (ha : a ∈ f.addrs) : ∃ c, h.read a = some c := by
  induction f generalizing up with
  | nil => cases ha
  | cons b d child peer ihc ihp =>
    obtain ⟨hr, hc, hp⟩ := hf
    simp only [Forest.addrs, mem_cons, mem_append] at ha
    rcases ha with rfl | ha | ha
    · exact ⟨_, hr⟩
    · exact ihc hc ha
    · exact ihp hp ha

theorem Rep.read_all {P : δ → Prop} (hf : Rep h up f) (hP : f.All P) (ha : a ∈ f.addrs) :
    ∃ c, h.read a = some c ∧ P c.data := by
  induction f generalizing up with
  | nil => cases ha
  | cons b d child peer ihc ihp =>
    obtain ⟨hr, hc, hp⟩ := hf
    obtain ⟨hd, hPc, hPp⟩ := hP
    simp only [Forest.addrs, mem_cons, mem_append] at ha
    rcases ha with rfl | ha | ha
    · exact ⟨_, hr, hd⟩
    · exact ihc hc hPc ha
    · exact ihp hp hPp ha

theorem Rep.read_has (hf : Rep h up f) (hd : f.Has a d) : ∃ c, h.read a = some c ∧ c.data = d := by
  induction f generalizing up with
  | nil => cases hd
  | cons b e child peer ihc ihp =>
    obtain ⟨hr, hc, hp⟩ := hf
    rcases hd with ⟨rfl, rfl⟩ | hd | hd
    · exact ⟨_, hr, rfl⟩
    · exact ihc hc hd
    · exact ihp hp hd

theorem Rep.mapData {c : Cell δ} (hf : Rep h up f) (ha : h.read a = some c) (u : δ → δ) :
    Rep (h.put a (some { c with data := u c.data })) up
      (f.mapAt (Forest.only a u)) := by
  induction f generalizing up with
  | nil => trivial
  | cons b d child peer ihc ihp =>
    obtain ⟨hr, hc, hp⟩ := hf
    refine ⟨?_, ihc hc, ihp hp⟩
    rw [Forest.head_mapAt, Forest.head_mapAt]
    by_cases hb : b = a
    · subst hb
      rw [Heap.read_put_self _ (Heap.lt_size_of_read ha), Forest.only_self]
      rw [ha] at hr
      rw [Option.some.inj hr]
    · rw [Heap.read_put_ne _ hb, Forest.only_ne u d hb]
      exact hr

theorem Rep.height_le (hf : Rep h up f) (hnd : f.addrs.Nodup) : f.height ≤ h.size := by
  have hsub : f.addrs ⊆ List.range h.size := by
    intro a ha
    obtain ⟨c, hr⟩ := hf.read ha
    exact mem_range.mpr (Heap.lt_size_of_read hr)
  have hlen := (subperm_of_subset hnd hsub).length_le
  rw [length_range] at hlen
  exact Nat.le_trans f.height_le_length_addrs hlen

/-! ## The tree from its root -/

structure Apart (K : Ctx δ) (a : Addr) (ch pe : Forest δ) : Prop where
  node_ctx : a ∉ K.addrs
  node_child : a ∉ ch.addrs
  node_peer : a ∉ pe.addrs
  child_ctx : ∀ b ∈ ch.addrs, b ∉ K.addrs
  child_peer : ∀ b ∈ ch.addrs, b ∉ pe.addrs
  child_nodup : ch.addrs.Nodup

theorem apart_of_nodup {K : Ctx δ} (hf : (K.fill (.cons a d ch pe)).addrs.Nodup) :
    Apart K a ch pe := by
  have hnd := (K.addrs_fill _).nodup_iff.mp hf
  simp only [Forest.addrs, nodup_append, nodup_cons, mem_cons, mem_append,
    not_or] at hnd
  obtain ⟨-, ⟨⟨hac, hap⟩, hndc, -, hcp⟩, hK⟩ := hnd
  refine ⟨fun h => hK a h a (inl rfl) rfl, hac, hap, ?_, fun b hc hp => hcp b hc b hp rfl, hndc⟩
  intro b hc hb
  exact hK b hb b (inr (inl hc)) rfl

theorem Apart.not_mem {K : Ctx δ} {b : Addr} (hap : Apart K a ch pe) (hb : b ∈ (K.fill pe).addrs) :
    b ≠ a ∧ b ∉ ch.addrs := by
  rcases Ctx.mem_addrs_fill.mp hb with hb | hb
  · exact ⟨fun he => hap.node_ctx (he ▸ hb), fun hc => hap.child_ctx b hc hb⟩
  · exact ⟨fun he => hap.node_peer (he ▸ hb), fun hc => hap.child_peer b hc hb⟩

theorem Apart.mapAt_only {K : Ctx δ} (hap : Apart K a ch pe) (d : δ) (u : δ → δ) :
    (K.fill (.cons a d ch pe)).mapAt (Forest.only a u) = K.fill (.cons a (u d) ch pe) := by
  rw [Ctx.mapAt_fill, Ctx.mapAt_only_of_not_mem hap.node_ctx, Forest.mapAt, Forest.only_self,
    Forest.mapAt_only_of_not_mem hap.node_child, Forest.mapAt_only_of_not_mem hap.node_peer]

/-- The heap holds the tree `f` at the pointer `root`, each node once. -/
structure Stores (h : Heap δ) (root : Option Addr) (f : Forest δ) : Prop where
  root_eq : root = f.head
  rep : Rep h none f
  nodup : f.addrs.Nodup

namespace Stores

variable {root : Option Addr} {f f' : Forest δ} {K : Ctx δ} {g : Forest δ}

theorem unique (hf : Stores h root f) (hf' : Stores h root f') : f = f' :=
  hf.rep.unique hf'.rep (hf.root_eq.symm.trans hf'.root_eq)

theorem congr (hf : Stores h root f) (hag : ∀ a ∈ f.addrs, h'.read a = h.read a) :
    Stores h' root f :=
  ⟨hf.root_eq, hf.rep.congr hag, hf.nodup⟩

theorem data_unique (hf : Stores h root f) {d' : δ} (hd : f.Has a d) (hd' : f.Has a d') :
    d = d' := by
  obtain ⟨c, hr, hc⟩ := hf.rep.read_has hd
  obtain ⟨c', hr', hc'⟩ := hf.rep.read_has hd'
  rw [hr] at hr'
  rw [← hc, ← hc', Option.some.inj hr']

theorem mapData {c : Cell δ} (hf : Stores h root f) (ha : h.read a = some c) (u : δ → δ) :
    Stores (h.put a (some { c with data := u c.data })) root
      (f.mapAt (Forest.only a u)) := by
  refine ⟨?_, hf.rep.mapData ha u, ?_⟩
  · rw [Forest.head_mapAt]
    exact hf.root_eq
  · rw [Forest.addrs_mapAt]
    exact hf.nodup

theorem not_mem_of_free (hf : Stores h root f) (hfree : h.read a = none) : a ∉ f.addrs := by
  intro hmem
  obtain ⟨c, hr⟩ := hf.rep.read hmem
  rw [hfree] at hr
  cases hr

theorem disjoint (hf : Stores h root (K.fill g)) (hK : a ∈ K.addrs) : a ∉ g.addrs := by
  have hnd := (K.addrs_fill g).nodup_iff.mp hf.nodup
  intro hg
  exact (nodup_append.mp hnd).2.2 a hK a hg rfl

theorem apart (hf : Stores h root (K.fill (.cons a d ch pe))) : Apart K a ch pe :=
  apart_of_nodup hf.nodup

end Stores

/-! ## Turning the innermost link -/

/-- Let the link after `left`, or the link to the children of `above`, point to `o`. -/
def relink (h : Heap δ) (left above : Option Addr) (o : Option Addr) : Option (Heap δ) :=
  match left, above with
  | some l, _ => h.modify l fun c => { c with peer := o }
  | none, some p => h.modify p fun c => { c with child := o }
  | none, none => none

theorem relink_spec {K : Ctx δ} {o : Option Addr} (hK : RepCtx h K o) (hnd : K.addrs.Nodup)
    (hne : K ≠ .top) (o' : Option Addr) :
    ∃ h', relink h K.left K.above o' = some h' ∧ h'.size = h.size ∧ RepCtx h' K o' ∧
      ∀ b, b ∉ K.addrs → h'.read b = h.read b := by
  cases K with
  | top => exact absurd rfl hne
  | peer K a d ch =>
    obtain ⟨hr, hc, hK⟩ := hK
    simp only [Ctx.addrs, nodup_cons, mem_append, not_or] at hnd
    obtain ⟨⟨hac, haK⟩, -⟩ := hnd
    refine ⟨_, Heap.modify_of_read _ hr, Heap.size_put _, ⟨?_, ?_, ?_⟩, ?_⟩
    · exact Heap.read_put_self _ (Heap.lt_size_of_read hr)
    · exact hc.congr fun b hb => Heap.read_put_ne _ fun e => hac (e ▸ hb)
    · exact hK.congr fun b hb => Heap.read_put_ne _ fun e => haK (e ▸ hb)
    · intro b hb
      exact Heap.read_put_ne _ fun e => hb (e ▸ mem_cons_self)
  | child K a d pe =>
    obtain ⟨hr, hp, hK⟩ := hK
    simp only [Ctx.addrs, nodup_cons, mem_append, not_or] at hnd
    obtain ⟨⟨hap, haK⟩, -⟩ := hnd
    refine ⟨_, Heap.modify_of_read _ hr, Heap.size_put _, ⟨?_, ?_, ?_⟩, ?_⟩
    · exact Heap.read_put_self _ (Heap.lt_size_of_read hr)
    · exact hp.congr fun b hb => Heap.read_put_ne _ fun e => hap (e ▸ hb)
    · exact hK.congr fun b hb => Heap.read_put_ne _ fun e => haK (e ▸ hb)
    · intro b hb
      exact Heap.read_put_ne _ fun e => hb (e ▸ mem_cons_self)

namespace Stores

variable {root : Option Addr} {K : Ctx δ} {g : Forest δ}

theorem insert (hf : Stores h root (K.fill g)) (hne : K ≠ .top) {n : Addr}
    (hfree : h.read n = none) (hn : n < h.size) (d : δ) :
    ∃ h', relink (h.put n (some ⟨K.above, g.head, none, d⟩)) K.left K.above (some n) = some h' ∧
      h'.size = h.size ∧ Stores h' root (K.fill (.cons n d .nil g)) ∧
      ∀ b, b ≠ n → b ∉ K.addrs → h'.read b = h.read b := by
  have hout := hf.not_mem_of_free hfree
  rw [Ctx.mem_addrs_fill, not_or] at hout
  obtain ⟨hnK, hng⟩ := hout
  have hnd := (K.addrs_fill g).nodup_iff.mp hf.nodup
  obtain ⟨hK, hg⟩ := rep_fill.mp hf.rep
  have hK1 : RepCtx (h.put n (some ⟨K.above, g.head, none, d⟩)) K g.head :=
    hK.congr fun b hb => Heap.read_put_ne _ fun e => hnK (e ▸ hb)
  obtain ⟨h', hrel, hsize, hK2, hkeep⟩ :=
    relink_spec hK1 (nodup_append.mp hnd).1 hne (some n)
  refine ⟨h', hrel, by rw [hsize, Heap.size_put], ⟨?_, ?_, ?_⟩, ?_⟩
  · rw [hf.root_eq]
    exact Ctx.head_fill hne _ _
  · refine rep_fill.mpr ⟨hK2, ?_, trivial, ?_⟩
    · rw [hkeep n hnK, Heap.read_put_self _ hn]
      rfl
    · refine hg.congr fun b hb => ?_
      have hbn : b ≠ n := fun e => hng (e ▸ hb)
      rw [hkeep b fun hbK => hf.disjoint hbK hb, Heap.read_put_ne _ hbn]
  · rw [(K.addrs_fill _).nodup_iff]
    refine perm_middle.nodup_iff.mpr ?_
    simp only [Forest.addrs, nil_append, nodup_cons, mem_append, not_or]
    exact ⟨⟨hnK, hng⟩, hnd⟩
  · intro b hbn hbK
    rw [hkeep b hbK, Heap.read_put_ne _ hbn]

theorem unlink (hf : Stores h root (K.fill (.cons a d ch pe))) (hne : K ≠ .top) :
    ∃ h', relink h K.left K.above pe.head = some h' ∧ h'.size = h.size ∧
      Stores h' root (K.fill pe) ∧ (∀ b, b ∉ K.addrs → h'.read b = h.read b) := by
  have hnd := (K.addrs_fill _).nodup_iff.mp hf.nodup
  obtain ⟨hK, hr, hc, hp⟩ := rep_fill.mp hf.rep
  obtain ⟨h', hrel, hsize, hK', hkeep⟩ :=
    relink_spec hK (nodup_append.mp hnd).1 hne pe.head
  have hsub : (K.addrs ++ pe.addrs).Sublist (K.addrs ++ (Forest.cons a d ch pe).addrs) :=
    (List.Sublist.refl _).append ((sublist_append_right _ _).cons _)
  refine ⟨h', hrel, hsize, ⟨?_, ?_, ?_⟩, hkeep⟩
  · rw [hf.root_eq]
    exact Ctx.head_fill hne _ _
  · refine rep_fill.mpr ⟨hK', hp.congr fun b hb => hkeep b fun hbK => hf.disjoint hbK ?_⟩
    simp only [Forest.addrs, mem_cons, mem_append]
    exact inr (inr hb)
  · rw [(K.addrs_fill _).nodup_iff]
    exact hnd.sublist hsub

end Stores

end Gpmx.Infra
