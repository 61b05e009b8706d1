import Gpmx.Infra.SortedTree
import Gpmx.PseudoFs.Tree

/-!
# What the operations do to the tree

Each operation of the inode layer is described on the shape of the tree alone: a search ends
where `walk` ends (`inodeSearch_spec`), `inode_reserve` grows a branch there
(`inodeReserve_miss`), `inode_remove` takes the node out (`inodeRemove_hit`), and references
only change the data of a node (`inodeFind_hit`, `inodeRelease_live`).
-/

namespace Gpmx.PseudoFs

open Infra Option List Heap
open Or (inl inr)

def Rooted (f : Forest Inode) : Prop := ∃ r d ch, f = .cons r d ch .nil ∧ d.iName = []

/-- The heap holds the tree, which has a root, and nothing in the tree is marked deleted. -/
structure Linked (fs : Fs) (f : Forest Inode) : Prop where
  stores : Stores fs.heap fs.root f
  live : f.All fun d => d.deleted = false
  rooted : Rooted f

/-- What a path names: the root, whose name is empty, and then its components. -/
def pathKeys (path : List Char) : List Name := [] :: components path

def seek (f : Forest Inode) (path : List Char) : Walk Name Inode :=
  walk Inode.iName Inode.isMountpt (pathKeys path) .top f

abbrev Leads (path : List Char) : Ctx Inode → List Name → Prop :=
  Route Inode.iName Inode.isMountpt (pathKeys path)

variable {fs : Fs} {f : Forest Inode} {heap : Heap Inode} {g : Forest Inode} {K : Ctx Inode}
    {path : List Char} {a : Addr} {d : Inode} {ch pe : Forest Inode} {u : Inode → Inode}
    {rest : List Name} {c : Cell Inode}

theorem Linked.unique {f' : Forest Inode} (h : Linked fs f) (h' : Linked fs f') :
    f = f' := h.stores.unique h'.stores

/-! ## Searching -/

def SearchDesc.Denotes (desc : SearchDesc) : Walk Name Inode → Prop
  | .hit rest K a _ _ _ =>
    desc.ret = 0 ∧ desc.node = some a ∧ desc.peer = K.left ∧ desc.parent = K.above ∧
      desc.relpath = some desc.path ∧ components desc.path = rest ∧ (rest = [] ↔ desc.path = [])
  | .miss rest K _ =>
    desc.ret = -ENOENT ∧ desc.node = none ∧ desc.peer = K.left ∧ desc.parent = K.above ∧
      segments desc.path = rest

theorem searchLoop_spec {fuel : Nat} (name : List Char) (hg : Rep heap K.above g)
    (hfuel : g.height < fuel) :
    ∃ desc, searchLoop heap fuel name g.head K.left K.above = some desc ∧
      desc.Denotes (walk Inode.iName Inode.isMountpt (segments name) K g) := by
  induction g generalizing fuel K name with
  | nil =>
    obtain ⟨fuel, rfl⟩ : ∃ n, fuel = n + 1 := ⟨fuel - 1, by omega⟩
    exact ⟨_, rfl, rfl, rfl, rfl, rfl, rfl⟩
  | cons a d ch pe ihc ihp =>
    obtain ⟨fuel, rfl⟩ : ∃ n, fuel = n + 1 := ⟨fuel - 1, by omega⟩
    obtain ⟨hr, hc, hp⟩ := hg
    simp only [Forest.height] at hfuel
    simp only [Forest.head, searchLoop, hr, inodeCompare_eq]
    rw [segments, walk]
    by_cases hlt : inodeNamecpy name < d.iName
    · rw [if_pos hlt, if_pos hlt, if_pos (by decide)]
      exact ⟨_, rfl, rfl, rfl, rfl, rfl, rfl⟩
    · rw [if_neg hlt, if_neg hlt]
      by_cases hgt : d.iName < inodeNamecpy name
      · rw [if_pos hgt, if_pos hgt, if_neg (by decide), if_pos (by decide)]
        exact ihp (K := .peer K a d ch) name hp (by omega)
      · rw [if_neg hgt, if_neg hgt, if_neg (by decide), if_neg (by decide)]
        by_cases hend : inodeNextname name = [] ∨ d.isMountpt = true
        · rw [if_pos hend, if_pos (by rw [components_nextname_eq_nil]; exact hend)]
          exact ⟨_, rfl, rfl, rfl, rfl, rfl, rfl, rfl, components_nextname_eq_nil⟩
        · rw [if_neg hend, if_neg (by rw [components_nextname_eq_nil]; exact hend),
            ← segments_nextname (not_or.mp hend).1]
          exact ihc (K := .child K a d pe) _ hc (by omega)

theorem inodeSearch_spec {path : List Char} {r : Walk Name Inode} (hf : Linked fs f)
    (hs : seek f path = r) : ∃ desc, inodeSearch fs path = some desc ∧ desc.Denotes r := by
  subst hs
  have habs : ∃ s, (if path.head? = some '/' then path else '/' :: '/' :: path) = '/' :: s ∧
      components ('/' :: s) = components path := by
    by_cases hp : path.head? = some '/'
    · obtain ⟨s, rfl⟩ : ∃ s, path = '/' :: s := by
        cases path with
        | nil => cases hp
        | cons c s => exact ⟨s, by rw [some.inj hp]⟩
      exact ⟨s, if_pos hp, rfl⟩
    · exact ⟨'/' :: path, if_neg hp, by rw [components_slash, components_slash]⟩
  obtain ⟨s, hpath, hcomp⟩ := habs
  have hheight := hf.stores.rep.height_le hf.stores.nodup
  have hfuel : f.height < (fs.heap.size + 1) * (('/' :: s).length + 1) :=
    Nat.lt_of_lt_of_le (Nat.lt_succ_of_le hheight) (Nat.le_mul_of_pos_right _ (Nat.succ_pos _))
  unfold inodeSearch inodeSearchAbs
  rw [hpath, if_pos (by rfl), hf.stores.root_eq]
  have h := searchLoop_spec (K := .top) ('/' :: s) hf.stores.rep hfuel
  rw [segments_absolute, hcomp] at h
  exact h

section

variable {f : Forest Inode} {path : List Char} {rest : List Name} {K : Ctx Inode} {a : Addr}
  {d : Inode} {ch pe g : Forest Inode}

theorem seek_hit (hs : seek f path = .hit rest K a d ch pe) :
    f = K.fill (.cons a d ch pe) ∧ Leads path K (d.iName :: rest) ∧
      (rest = [] ∨ d.isMountpt = true) := by
  have h : (seek f path).Sound Inode.iName Inode.isMountpt (pathKeys path) f :=
    walk_spec _ _ (cons_ne_nil _ _) f
  rw [hs] at h
  exact h

theorem seek_miss (hs : seek f path = .miss rest K g) :
    f = K.fill g ∧ Leads path K rest ∧ Beyond Inode.iName rest g := by
  have h : (seek f path).Sound Inode.iName Inode.isMountpt (pathKeys path) f :=
    walk_spec _ _ (cons_ne_nil _ _) f
  rw [hs] at h
  exact h

theorem seek_cases (path : List Char) (hroot : Rooted f) {V : Inode → Prop}
    {T : Forest Inode → Prop}
    (hT : ∀ r d ch, f = .cons r d ch .nil → ch.All V ∧ ∀ X, X.All V → T (.cons r d X .nil)) :
    (∃ r d ch, seek f path = .hit (components path) .top r d ch .nil) ∨
      ((∀ X, X.All V → T ((seek f path).ctx.fill X)) ∧ (seek f path).here.All V) := by
  obtain ⟨r, d, ch, rfl, hname⟩ := hroot
  unfold seek pathKeys walk
  rw [hname, if_neg (lt_irrefl _), if_neg (lt_irrefl _)]
  split
  · exact inl ⟨r, d, ch, rfl⟩
  · exact inr (walk_under (K := .child .top r d .nil) (hT r d ch rfl).2 (hT r d ch rfl).1)

theorem forest_all_true (g : Forest Inode) : g.All fun _ => True := by
  induction g with
  | nil => trivial
  | cons a d ch pe ihc ihp => exact ⟨trivial, ihc, ihp⟩

theorem seek_rooted (path : List Char) (hroot : Rooted f) :
    (∃ r d ch, seek f path = .hit (components path) .top r d ch .nil) ∨
      ∀ X, Rooted ((seek f path).ctx.fill X) := by
  have hT : ∀ r d ch, f = .cons r d ch .nil →
      ch.All (fun _ => True) ∧ ∀ X, X.All (fun _ => True) → Rooted (.cons r d X .nil) := by
    obtain ⟨r, d, ch, rfl, hname⟩ := hroot
    intro r' d' ch' heq
    obtain ⟨rfl, rfl, rfl, -⟩ := Forest.cons.inj heq
    exact ⟨forest_all_true _, fun X _ => ⟨_, _, X, rfl, hname⟩⟩
  rcases seek_cases path hroot hT with h | ⟨h, -⟩
  · exact inl h
  · exact inr fun X => h X (forest_all_true X)

theorem rooted_of_seek_miss (hroot : Rooted f) (hs : seek f path = .miss rest K g) :
    K ≠ .top ∧ ∀ X, Rooted (K.fill X) := by
  have hall : ∀ X, Rooted (K.fill X) := by
    rcases seek_rooted path hroot with ⟨r, d, ch, h⟩ | h
    · rw [hs] at h
      cases h
    · rw [hs] at h
      exact h
  refine ⟨?_, hall⟩
  rintro rfl
  obtain ⟨r, d, ch, h, -⟩ := hall .nil
  cases h

theorem rooted_of_seek_hit (hroot : Rooted f) (hs : seek f path = .hit rest K a d ch pe) :
    K = .top ∨ ∀ X, Rooted (K.fill X) := by
  rcases seek_rooted path hroot with ⟨r, e, ch', h⟩ | h
  · rw [hs] at h
    injection h with _ hK
    exact inl hK
  · rw [hs] at h
    exact inr h

variable {φ : Addr → Inode → Inode} {fs' : Fs}

theorem seek_mapAt_hit (hname : ∀ b e, (φ b e).iName = e.iName)
    (htype : ∀ b e, (φ b e).isMountpt = e.isMountpt) (hs : seek f path = .hit rest K a d ch pe) :
    seek (f.mapAt φ) path =
      .hit rest (K.mapAt φ) a (φ a d) (ch.mapAt φ) (pe.mapAt φ) := by
  obtain ⟨rfl, hroute, hend⟩ := seek_hit hs
  have hroute' := hroute.mapAt hname htype
  rw [← hname a d] at hroute'
  rw [← htype a d] at hend
  rw [Ctx.mapAt_fill]
  exact walk_eq_hit hroute' hend

theorem seek_mapAt_miss (hname : ∀ b e, (φ b e).iName = e.iName)
    (htype : ∀ b e, (φ b e).isMountpt = e.isMountpt) (hs : seek f path = .miss rest K g) :
    seek (f.mapAt φ) path = .miss rest (K.mapAt φ) (g.mapAt φ) := by
  obtain ⟨rfl, hroute, hbeyond⟩ := seek_miss hs
  rw [Ctx.mapAt_fill]
  refine walk_eq_miss (hroute.mapAt hname htype) ?_
  cases g with
  | nil => trivial
  | cons b e ch pe =>
    obtain ⟨k, ks, rfl, hlt⟩ := hbeyond
    exact ⟨k, ks, rfl, by rw [hname]; exact hlt⟩

theorem has_of_seek_hit (hs : seek f path = .hit rest K a d ch pe) : f.Has a d := by
  rw [(seek_hit hs).1]
  exact Ctx.has_fill K (inl ⟨rfl, rfl⟩)

theorem mem_addrs_of_seek_hit (hs : seek f path = .hit rest K a d ch pe) : a ∈ f.addrs := by
  rw [(seek_hit hs).1, Ctx.mem_addrs_fill]
  exact inr mem_cons_self

end

theorem Linked.seek_only (hf : Linked fs f) (hs : seek f path = .hit [] K a d ch pe)
    (hu : (u d).iName = d.iName) :
    seek (f.mapAt (Forest.only a u)) path = .hit [] K a (u d) ch pe := by
  obtain ⟨rfl, hroute, -⟩ := seek_hit hs
  rw [hf.stores.apart.mapAt_only d u]
  rw [← hu] at hroute
  exact walk_eq_hit hroute (inl rfl)

theorem Linked.read_hit (hf : Linked fs f) (hs : seek f path = .hit rest K a d ch pe) :
    fs.heap.read a = some ⟨K.above, pe.head, ch.head, d⟩ ∧ d.deleted = false := by
  obtain ⟨rfl, -, -⟩ := seek_hit hs
  exact ⟨(rep_fill.mp hf.stores.rep).2.1, (Ctx.all_fill.mp hf.live).2.1⟩

/-! ## Data -/

theorem all_mapAt {P : Inode → Prop} (hφ : ∀ a d, P d → P (φ a d)) (hf : f.All P) :
    (f.mapAt φ).All P := by
  induction f with
  | nil => trivial
  | cons a d ch pe ihc ihp => exact ⟨hφ a d hf.1, ihc hf.2.1, ihp hf.2.2⟩

def Mild (u : Inode → Inode) : Prop := ∀ d, (u d).iName = d.iName ∧ (u d).deleted = d.deleted

theorem mild_addref : Mild Inode.addref := fun _ => ⟨rfl, rfl⟩

theorem mild_dropref : Mild Inode.dropref := fun _ => ⟨rfl, rfl⟩

theorem Mild.only (hu : Mild u) (a b : Addr) : Mild (Forest.only a u b) := by
  intro d
  by_cases hb : b = a
  · rw [hb, Forest.only_self]
    exact hu d
  · rw [Forest.only_ne u d hb]
    exact ⟨rfl, rfl⟩

theorem Linked.congr (hf : Linked fs f) (hroot : fs'.root = fs.root)
    (hag : ∀ a ∈ f.addrs, fs'.heap.read a = fs.heap.read a) : Linked fs' f := by
  refine ⟨?_, hf.live, hf.rooted⟩
  rw [hroot]
  exact hf.stores.congr hag

theorem onInode_eq (hr : fs.heap.read a = some c) (u : Inode → Inode) :
    fs.onInode a u = some ⟨fs.heap.put a (some { c with data := u c.data }), fs.root⟩ := by
  unfold Fs.onInode
  rw [modify_of_read _ hr]
  rfl

theorem Linked.mapData (hf : Linked fs f) (ha : fs.heap.read a = some c)
    (hname : ∀ d, (u d).iName = d.iName) (hlive : ∀ d, d.deleted = false → (u d).deleted = false) :
    Linked ⟨fs.heap.put a (some { c with data := u c.data }), fs.root⟩
      (f.mapAt (Forest.only a u)) := by
  refine ⟨hf.stores.mapData ha u, all_mapAt (fun b d hd => ?_) hf.live, ?_⟩
  · unfold Forest.only
    split
    · exact hlive d hd
    · exact hd
  · obtain ⟨r, d, ch, rfl, hroot⟩ := hf.rooted
    refine ⟨r, _, _, rfl, ?_⟩
    rw [← hroot]
    unfold Forest.only
    split
    · exact hname d
    · rfl

theorem onInode_spec (hf : Linked fs f) (ha : fs.heap.read a = some c) (hu : Mild u) :
    ∃ fs', fs.onInode a u = some fs' ∧ Linked fs' (f.mapAt (Forest.only a u)) ∧
      fs'.heap = fs.heap.put a (some { c with data := u c.data }) := by
  refine ⟨_, onInode_eq ha u, hf.mapData ha (fun d => (hu d).1) fun d hd => ?_, rfl⟩
  rw [(hu d).2]
  exact hd

/-! ## References -/

theorem inodeFind_hit (hf : Linked fs f) (hs : seek f path = .hit rest K a d ch pe) :
    ∃ desc fs', inodeFind fs path = some (desc, fs') ∧
      desc.Denotes (.hit rest K a d ch pe) ∧ fs.onInode a Inode.addref = some fs' ∧
      Linked fs' (f.mapAt (Forest.only a Inode.addref)) := by
  obtain ⟨desc, hsearch, hden⟩ := inodeSearch_spec hf hs
  obtain ⟨hret, hnode, -⟩ := id hden
  obtain ⟨c, hr⟩ := hf.stores.rep.read (mem_addrs_of_seek_hit hs)
  obtain ⟨fs', hon, hf', -⟩ := onInode_spec hf hr mild_addref
  refine ⟨desc, fs', ?_, hden, hon, hf'⟩
  unfold inodeFind
  rw [hsearch]
  show (if desc.ret ≥ 0 then _ else _) = _
  rw [hret, if_pos (by decide), hnode]
  show (fs.onInode a Inode.addref >>= fun fs => some (desc, fs)) = _
  rw [hon]
  rfl

theorem inodeFind_miss (hf : Linked fs f) (hs : seek f path = .miss rest K g) :
    ∃ desc, inodeFind fs path = some (desc, fs) ∧ desc.Denotes (.miss rest K g) := by
  obtain ⟨desc, hsearch, hden⟩ := inodeSearch_spec hf hs
  refine ⟨desc, ?_, hden⟩
  unfold inodeFind
  rw [hsearch]
  show (if desc.ret ≥ 0 then _ else _) = _
  rw [hden.1, if_neg (by decide)]

theorem inodeRelease_live (hr : fs.heap.read a = some c) (hlive : c.data.deleted = false) :
    inodeRelease fs a = fs.onInode a Inode.dropref := by
  have hdel : ¬(c.data.dropref.iCrefs = 0 ∧ c.data.dropref.deleted = true) := by
    rintro ⟨-, h⟩
    rw [show c.data.dropref.deleted = c.data.deleted from rfl, hlive] at h
    cases h
  simp only [inodeRelease, onInode_eq hr, bind_eq_bind, bind_some,
    read_put_self _ (lt_size_of_read hr)]
  rw [if_neg hdel]

theorem inodeRelease_addref (hr : fs.heap.read a = some c) (hlive : c.data.deleted = false)
    (h : fs.onInode a Inode.addref = some fs') : inodeRelease fs' a = some fs := by
  have hlt := lt_size_of_read hr
  rw [onInode_eq hr] at h
  cases h
  have hr' := read_put_self (some { c with data := c.data.addref }) hlt
  have hlive' : c.data.addref.deleted = false := hlive
  have hback : c.data.addref.dropref = c.data := rfl
  rw [inodeRelease_live (c := { c with data := c.data.addref }) hr' hlive', onInode_eq hr',
    put_put]
  simp only [hback, put_read hr]

theorem inodeFind_held (hf : Linked fs f) (hs : seek f path = .hit rest K a d ch pe) :
    ∃ desc fs', inodeFind fs path = some (desc, fs') ∧ desc.ret = 0 ∧ desc.node = some a ∧
      fs.onInode a Inode.addref = some fs' ∧ Linked fs' (f.mapAt (Forest.only a Inode.addref)) ∧
      fs'.heap.read a = some ⟨K.above, pe.head, ch.head, d.addref⟩ ∧
      inodeRelease fs' a = some fs := by
  obtain ⟨desc, fs', hfind, ⟨hret, hnode, -⟩, hon, hf'⟩ := inodeFind_hit hf hs
  obtain ⟨hr, hlive⟩ := hf.read_hit hs
  refine ⟨desc, fs', hfind, hret, hnode, hon, hf', ?_, inodeRelease_addref hr hlive hon⟩
  rw [onInode_eq hr] at hon
  cases hon
  exact read_put_self _ (lt_size_of_read hr)

/-! ## Reserving -/

theorem inodeInsert_eq {n : Addr} (hK : RepCtx heap K g.head) (hn : n < heap.size)
    (hout : n ∉ K.addrs) :
    inodeInsert (heap.put n (some ⟨none, none, none, d⟩)) n K.left K.above =
      relink (heap.put n (some ⟨K.above, g.head, none, d⟩)) K.left K.above (some n) := by
  have hself : (heap.put n (some ⟨none, none, none, d⟩)).read n = some ⟨none, none, none, d⟩ :=
    read_put_self _ hn
  cases K with
  | top => rfl
  | peer K a e ch =>
    have hne : a ≠ n := fun he => hout (he ▸ mem_cons_self)
    simp only [inodeInsert, relink, Ctx.left, read_put_ne _ hne, hK.1, bind_eq_bind,
      bind_some, modify_of_read _ hself, put_put]
  | child K a e pe =>
    have hne : a ≠ n := fun he => hout (he ▸ mem_cons_self)
    simp only [inodeInsert, relink, Ctx.left, Ctx.above, read_put_ne _ hne, hK.1,
      bind_eq_bind, bind_some, modify_of_read _ hself, put_put]

def CanAlloc (heap : Heap Inode) (answers : List Addr) : Prop :=
  ∃ a, answers.head? = some a ∧ a < heap.size ∧ heap.read a = none

/-- What the loop of `inode_reserve` leaves: the nodes `as` were made, all of them or too few. -/
structure Reserved (heap : Heap Inode) (answers : List Addr) (keys : List Name) (as : List Addr)
    (ret : Int) (node : Option Addr) : Prop where
  fresh : ∀ a ∈ as, heap.read a = none
  none_iff : as = [] ↔ ¬CanAlloc heap answers
  outcome : (ret = 0 ∧ as.length = keys.length ∧ node = as.getLast?) ∨
    (ret = -ENOMEM ∧ as.length < keys.length ∧ node = none)

theorem reserveLoop_spec {root : Option Addr} (answers : List Addr) (name : List Char)
    (hf : Stores heap root (K.fill g)) (hK : K ≠ .top) :
    ∃ ret node fs' as, reserveLoop root answers heap name K.left K.above = some (ret, node, fs') ∧
      Stores fs'.heap fs'.root (K.fill (sprout Inode.fresh (segments name) as g)) ∧
      Reserved heap answers (segments name) as ret node := by
  induction answers generalizing heap name K g with
  | nil =>
    refine ⟨-ENOMEM, none, ⟨heap, root⟩, [], rfl, hf, ?_, ?_, inr ⟨rfl, ?_, rfl⟩⟩
    · exact fun a ha => absurd ha not_mem_nil
    · refine ⟨?_, fun _ => rfl⟩
      rintro - ⟨a, ha, -⟩
      cases ha
    · exact Nat.succ_pos _
  | cons answer answers ih =>
    unfold reserveLoop
    by_cases hfree : answer < heap.size ∧ heap.read answer = none
    · rw [inodeAlloc, if_pos hfree]
      have hout : answer ∉ K.addrs := fun hmem =>
        hf.not_mem_of_free hfree.2 (Ctx.mem_addrs_fill.mpr (inl hmem))
      obtain ⟨heap', hrel, hsize, hf', hkeep⟩ :=
        hf.insert hK hfree.2 hfree.1 (Inode.fresh (inodeNamecpy name))
      have hins := inodeInsert_eq (d := Inode.fresh (inodeNamecpy name)) (rep_fill.mp hf.rep).1
        hfree.1 hout
      simp only [hins, hrel, bind_eq_bind, bind_some]
      have hcan : CanAlloc heap (answer :: answers) := ⟨answer, rfl, hfree⟩
      by_cases hnext : inodeNextname name = []
      · rw [if_neg (not_not.mpr hnext)]
        have hseg : segments name = [inodeNamecpy name] := by
          rw [segments, hnext, components_nil]
        refine ⟨0, some answer, ⟨heap', root⟩, [answer], rfl, ?_, ?_, ?_, inl ⟨rfl, ?_, rfl⟩⟩
        · rw [hseg]
          exact hf'
        · intro a ha
          rw [mem_singleton.mp ha]
          exact hfree.2
        · exact ⟨fun h => absurd h (cons_ne_nil _ _), fun h => absurd hcan h⟩
        · rw [hseg]
          rfl
      · rw [if_pos hnext]
        obtain ⟨ret, node, fs', as, hrun, hst, hres⟩ :=
          ih (K := .child K answer (Inode.fresh (inodeNamecpy name)) g) (g := .nil)
            (inodeNextname name) hf' (by intro h; cases h)
        have hseg : segments name = inodeNamecpy name :: segments (inodeNextname name) := by
          rw [segments_nextname hnext, segments]
        refine ⟨ret, node, fs', answer :: as, hrun, ?_, ?_, ?_, ?_⟩
        · rw [hseg]
          exact hst
        · intro a ha
          rcases mem_cons.mp ha with rfl | ha
          · exact hfree.2
          · -- what the rest of the loop finds free is not in the tree made so far
            have hnone := hres.fresh a ha
            have hnot := hf'.not_mem_of_free hnone
            rw [Ctx.mem_addrs_fill, not_or] at hnot
            rw [hkeep a (fun he => hnot.2 (he ▸ mem_cons_self)) hnot.1] at hnone
            exact hnone
        · exact ⟨fun h => absurd h (cons_ne_nil _ _), fun h => absurd hcan h⟩
        · rw [hseg]
          rcases hres.outcome with ⟨hret, hlen, hnode⟩ | ⟨hret, hlen, hnode⟩
          · refine inl ⟨hret, by rw [length_cons, length_cons, hlen], ?_⟩
            cases as with
            | nil => cases hlen
            | cons b bs => rw [hnode, getLast?_cons_cons]
          · exact inr ⟨hret, Nat.succ_lt_succ hlen, hnode⟩
    · rw [inodeAlloc, if_neg hfree]
      refine ⟨-ENOMEM, none, ⟨heap, root⟩, [], rfl, hf, ?_, ?_, inr ⟨rfl, ?_, rfl⟩⟩
      · exact fun a ha => absurd ha not_mem_nil
      · refine ⟨?_, fun _ => rfl⟩
        rintro - ⟨a, ha, hfree'⟩
        rw [← some.inj ha] at hfree'
        exact hfree hfree'
      · exact Nat.succ_pos _

theorem inodeReserve_hit (hf : Linked fs f) (hpath : path ≠ [])
    (hs : seek f path = .hit rest K a d ch pe) (answers : List Addr) :
    inodeReserve fs path answers = some (-EEXIST, none, fs) := by
  obtain ⟨desc, hsearch, hden⟩ := inodeSearch_spec hf hs
  simp only [inodeReserve, if_neg hpath, hsearch, bind_eq_bind, bind_some, hden.1]
  rfl

theorem inodeReserve_miss (hf : Linked fs f) (hpath : path ≠ []) (hs : seek f path = .miss rest K g)
    (answers : List Addr) :
    ∃ ret node fs' as, inodeReserve fs path answers = some (ret, node, fs') ∧
      Linked fs' (K.fill (sprout Inode.fresh rest as g)) ∧
      Reserved fs.heap answers rest as ret node := by
  obtain ⟨desc, hsearch, hden⟩ := inodeSearch_spec hf hs
  obtain ⟨hret, -, hpeer, hparent, hseg⟩ := hden
  obtain ⟨rfl, -, -⟩ := seek_miss hs
  obtain ⟨hK, hroot⟩ := rooted_of_seek_miss hf.rooted hs
  obtain ⟨ret, node, fs', as, hrun, hst, hres⟩ :=
    reserveLoop_spec answers desc.path hf.stores hK
  rw [hseg] at hst hres
  refine ⟨ret, node, fs', as, ?_, ⟨hst, ?_, hroot _⟩, hres⟩
  · simp only [inodeReserve, if_neg hpath, hsearch, bind_eq_bind, bind_some, hret,
      hpeer, hparent]
    exact hrun
  · obtain ⟨hlK, hlg⟩ := Ctx.all_fill.mp hf.live
    exact Ctx.all_fill.mpr ⟨hlK, all_sprout Inode.fresh rest (fun _ _ => rfl) as hlg⟩

theorem inodeReserve_cases (hf : Linked fs f) (hpath : path ≠ [])
    (hs : seek f path = .miss rest K g) (answers : List Addr) :
    (∃ fs' f', inodeReserve fs path answers = some (-ENOMEM, none, fs') ∧ Linked fs' f' ∧
      (∀ b ∈ f.addrs, b ∈ f'.addrs) ∧
      (¬CanAlloc fs.heap answers ∧ f' = f ∨
        CanAlloc fs.heap answers ∧ 2 ≤ rest.length ∧ ∃ b ∈ f'.addrs, b ∉ f.addrs)) ∨
    (∃ fs' K' k a g', inodeReserve fs path answers = some (0, some a, fs') ∧
      Linked fs' (K'.fill (.cons a (Inode.fresh k) .nil g')) ∧
      seek (K'.fill (.cons a (Inode.fresh k) .nil g')) path =
        .hit [] K' a (Inode.fresh k) .nil g' ∧
      K' ≠ .top ∧ CanAlloc fs.heap answers ∧ a ∉ f.addrs ∧
      (∀ b ∈ f.addrs, b ∈ (K'.fill g').addrs) ∧
      (rest.length = 1 ∧ K'.fill g' = f ∨
        2 ≤ rest.length ∧ ∃ b ∈ (K'.fill g').addrs, b ∉ f.addrs)) := by
  obtain ⟨ret, node, fs', as, hrun, hf', hres⟩ := inodeReserve_miss hf hpath hs answers
  have hnew : ∀ a ∈ as, a ∉ f.addrs := fun a ha => hf.stores.not_mem_of_free (hres.fresh a ha)
  obtain ⟨hfK, hroute, -⟩ := seek_miss hs
  have hgrow : ∀ b ∈ f.addrs, b ∈ (K.fill (sprout Inode.fresh rest as g)).addrs := by
    intro b hb
    rw [Ctx.mem_addrs_fill]
    rw [hfK, Ctx.mem_addrs_fill] at hb
    exact hb.imp_right (mem_addrs_sprout as)
  rcases hres.outcome with ⟨rfl, hlen, hnode⟩ | ⟨rfl, hlen, rfl⟩
  · refine inr ?_
    have hrest : rest ≠ [] := hroute.rest_ne_nil (cons_ne_nil _ _)
    obtain ⟨K', k, a, g', hfill, hlast, hroute', hcase⟩ :=
      sprout_leaf (g := g) Inode.fresh (fun _ => rfl) (fun _ => rfl) hrest hlen hroute
    have ha : a ∈ as := mem_of_getLast? hlast
    have hcan : CanAlloc fs.heap answers := by
      by_contra hno
      rw [hres.none_iff.mpr hno] at ha
      cases ha
    have hK' : K' ≠ .top := by
      rintro rfl
      rcases hcase with ⟨-, hK, -⟩ | ⟨-, b, -, hb⟩
      · exact (rooted_of_seek_miss hf.rooted hs).1 hK.symm
      · cases hb
    have hsub : ∀ b ∈ f.addrs, b ∈ (K'.fill g').addrs := by
      intro b hb
      have hbT := hgrow b hb
      rw [hfill, Ctx.mem_addrs_fill] at hbT
      rw [Ctx.mem_addrs_fill]
      refine hbT.imp_right fun h => (mem_cons.mp h).resolve_left ?_
      rintro rfl
      exact hnew b ha hb
    rw [hfill] at hf'
    refine ⟨fs', K', k, a, g', by rw [hrun, hnode, hlast], hf', walk_eq_hit hroute' (inl rfl),
      hK', hcan, hnew a ha, hsub, ?_⟩
    rcases hcase with ⟨h1, rfl, rfl⟩ | ⟨h2, b, hb, hbK⟩
    · exact inl ⟨h1, hfK.symm⟩
    · exact inr ⟨h2, b, Ctx.mem_addrs_fill.mpr (inl hbK), hnew b hb⟩
  · refine inl ⟨fs', _, hrun, hf', hgrow, ?_⟩
    cases as with
    | nil => exact inl ⟨hres.none_iff.mp rfl, by rw [sprout_nil, hfK]⟩
    | cons b bs =>
      have hcan : CanAlloc fs.heap answers :=
        not_not.mp fun hno => cons_ne_nil b bs (hres.none_iff.mpr hno)
      cases rest with
      | nil => cases hlen
      | cons k ks =>
        refine inr ⟨hcan, Nat.lt_of_le_of_lt (Nat.succ_pos _) hlen, b, ?_,
          hnew b mem_cons_self⟩
        exact Ctx.mem_addrs_fill.mpr (inr mem_cons_self)

/-! ## Removing -/

theorem inodeUnlink_hit (hf : Linked fs f) (hs : seek f path = .hit rest K a d ch pe)
    (hK : K ≠ .top) :
    ∃ fs', inodeUnlink fs path = some (some a, fs') ∧ Linked fs' (K.fill pe) ∧
      fs'.heap.size = fs.heap.size ∧ fs'.heap.read a = some ⟨none, none, ch.head, d⟩ ∧
      ∀ b, b ∉ K.addrs → b ≠ a → fs'.heap.read b = fs.heap.read b := by
  obtain ⟨desc, hsearch, hden⟩ := inodeSearch_spec hf hs
  obtain ⟨hret, hnode, hpeer, hparent, -⟩ := hden
  obtain ⟨rfl, -, -⟩ := seek_hit hs
  have hroot := (rooted_of_seek_hit hf.rooted hs).resolve_left hK
  obtain ⟨heap, hrel, hsize, hst, hkeep⟩ := hf.stores.unlink hK
  obtain ⟨-, hr, -, -⟩ := rep_fill.mp hf.stores.rep
  have hap := hf.stores.apart
  have hra : heap.read a = some ⟨K.above, pe.head, ch.head, d⟩ := by
    rw [hkeep a hap.node_ctx, hr]
  have halt := lt_size_of_read hra
  refine ⟨⟨heap.put a (some ⟨none, none, ch.head, d⟩), fs.root⟩, ?_, ⟨?_, ?_, hroot _⟩, ?_, ?_, ?_⟩
  · simp only [inodeUnlink, hsearch, bind_eq_bind, bind_some, hret, hnode, hr, hpeer,
      hparent, hrel, modify_of_read _ hra]
    rfl
  · exact hst.congr fun b hb => read_put_ne _ (hap.not_mem hb).1
  · obtain ⟨hlK, -, -, hlp⟩ := Ctx.all_fill.mp hf.live
    exact Ctx.all_fill.mpr ⟨hlK, hlp⟩
  · exact (size_put _).trans hsize
  · exact read_put_self _ halt
  · intro b hbK hba
    exact (read_put_ne _ hba).trans (hkeep b hbK)

theorem inodeUnlink_root (hf : Linked fs f) (hs : seek f path = .hit rest .top a d ch pe) :
    inodeUnlink fs path = none := by
  obtain ⟨desc, hsearch, hden⟩ := inodeSearch_spec hf hs
  obtain ⟨hret, hnode, hpeer, hparent, -⟩ := hden
  obtain ⟨c, hr⟩ := hf.stores.rep.read (mem_addrs_of_seek_hit hs)
  simp only [inodeUnlink, hsearch, bind_eq_bind, bind_some, hret, hnode, hr, hpeer,
    hparent, Ctx.left, Ctx.above]
  rfl

theorem inodeUnlink_miss (hf : Linked fs f) (hs : seek f path = .miss rest K g) :
    inodeUnlink fs path = some (none, fs) := by
  obtain ⟨desc, hsearch, hden⟩ := inodeSearch_spec hf hs
  simp only [inodeUnlink, hsearch, bind_eq_bind, bind_some, hden.1]
  rfl

theorem inodeFree_spec {up : Option Addr} (fuel : Nat) (hg : Rep heap up g) (hnd : g.addrs.Nodup)
    (hfuel : g.height ≤ fuel) :
    ∃ heap', inodeFree fuel heap g.head = some heap' ∧ heap'.size = heap.size ∧
      ∀ b, heap'.read b = if b ∈ g.addrs then none else heap.read b := by
  induction g generalizing heap up fuel with
  | nil =>
    refine ⟨heap, ?_, rfl, fun b => (if_neg not_mem_nil).symm⟩
    cases fuel <;> rfl
  | cons a d ch pe ihc ihp =>
    simp only [Forest.height] at hfuel
    obtain ⟨fuel, rfl⟩ : ∃ n, fuel = n + 1 := ⟨fuel - 1, by omega⟩
    obtain ⟨hr, hc, hp⟩ := hg
    simp only [Forest.addrs, nodup_cons, mem_append, not_or, nodup_append] at hnd
    obtain ⟨⟨hac, hap⟩, hndc, hndp, hdisj⟩ := hnd
    obtain ⟨heap1, hfree1, hsize1, hread1⟩ := ihp fuel hp hndp (by omega)
    have hr1 : heap1.read a = some ⟨up, pe.head, ch.head, d⟩ := by rw [hread1, if_neg hap, hr]
    have hc1 : Rep heap1 (some a) ch := by
      refine hc.congr fun b hb => ?_
      rw [hread1, if_neg fun hbp => hdisj b hb b hbp rfl]
    obtain ⟨heap2, hfree2, hsize2, hread2⟩ := ihc fuel hc1 hndc (by omega)
    have hr2 : heap2.read a = some ⟨up, pe.head, ch.head, d⟩ := by rw [hread2, if_neg hac, hr1]
    refine ⟨heap2.put a none, ?_, by rw [size_put, hsize2, hsize1], ?_⟩
    · show inodeFree (fuel + 1) heap (some a) = _
      simp only [inodeFree, hr, hfree1, hr1, hfree2, hr2, bind_eq_bind, bind_some]
    · intro b
      by_cases hba : b = a
      · subst hba
        rw [read_put_self _ (lt_size_of_read hr2), Forest.addrs,
          if_pos mem_cons_self]
      · rw [read_put_ne _ hba, hread2, hread1]
        simp only [Forest.addrs, mem_cons, mem_append, hba, false_or]
        by_cases hbc : b ∈ ch.addrs
        · rw [if_pos hbc, if_pos (inl hbc)]
        · by_cases hbp : b ∈ pe.addrs
          · rw [if_neg hbc, if_pos hbp, if_pos (inr hbp)]
          · rw [if_neg hbc, if_neg hbp, if_neg (by tauto)]

section

variable (hf : Linked fs f)
include hf

theorem inodeRemove_hit (hs : seek f path = .hit rest K a d ch pe) (hK : K ≠ .top) :
    ∃ fs', inodeRemove fs path = some (if d.iCrefs = 0 then 0 else -EBUSY, fs') ∧
      Linked fs' (K.fill pe) ∧
      (d.iCrefs ≠ 0 → fs'.heap.read a = some ⟨none, none, ch.head, { d with deleted := true }⟩) ∧
      ∀ b, b ∉ K.addrs → b ≠ a →
        fs'.heap.read b = fs.heap.read b ∨ d.iCrefs = 0 ∧ fs'.heap.read b = none := by
  obtain ⟨fs1, hunlink, hf1, hsize, hra, hkeep⟩ := inodeUnlink_hit hf hs hK
  obtain ⟨rfl, -, -⟩ := seek_hit hs
  obtain ⟨-, hr, hrc, -⟩ := rep_fill.mp hf.stores.rep
  have hap := hf.stores.apart
  by_cases hz : d.iCrefs = 0
  · have hrep : Rep fs1.heap none (.cons a d ch .nil) := by
      refine ⟨hra, hrc.congr fun b hb => hkeep b (hap.child_ctx b hb) ?_, trivial⟩
      rintro rfl
      exact hap.node_child hb
    have hnd : (Forest.cons a d ch .nil).addrs.Nodup := by
      rw [Forest.addrs, Forest.addrs, append_nil]
      exact nodup_cons.mpr ⟨hap.node_child, hap.child_nodup⟩
    obtain ⟨heap', hfree, hsize', hread⟩ :=
      inodeFree_spec fs1.heap.size hrep hnd (hrep.height_le hnd)
    refine ⟨⟨heap', fs1.root⟩, ?_, hf1.congr rfl ?_, fun h => absurd hz h, ?_⟩
    · have hfree' : inodeFree fs1.heap.size fs1.heap (some a) = some heap' := hfree
      simp only [inodeRemove, hunlink, bind_eq_bind, bind_some, hra, hz, hfree']
      rfl
    · intro b hb
      have hout : b ∉ (Forest.cons a d ch .nil).addrs := by
        rw [Forest.addrs, Forest.addrs, append_nil, mem_cons, not_or]
        exact hap.not_mem hb
      rw [hread, if_neg hout]
    · intro b hbK hba
      show heap'.read b = _ ∨ d.iCrefs = 0 ∧ heap'.read b = none
      rw [hread]
      by_cases hb : b ∈ (Forest.cons a d ch .nil).addrs
      · exact inr ⟨hz, if_pos hb⟩
      · exact inl (by rw [if_neg hb, hkeep b hbK hba])
  · refine ⟨⟨fs1.heap.put a (some ⟨none, none, ch.head, { d with deleted := true }⟩), fs1.root⟩,
      ?_, hf1.congr rfl ?_, fun _ => ?_, ?_⟩
    · simp only [inodeRemove, hunlink, bind_eq_bind, bind_some, hra,
        modify_of_read _ hra]
      rw [if_pos hz, if_neg hz]
    · exact fun b hb => read_put_ne _ (hap.not_mem hb).1
    · exact read_put_self _ (lt_size_of_read hra)
    · intro b hbK hba
      exact inl ((read_put_ne _ hba).trans (hkeep b hbK hba))

theorem inodeRemove_root (hs : seek f path = .hit rest .top a d ch pe) :
    inodeRemove fs path = none := by
  simp only [inodeRemove, inodeUnlink_root hf hs, bind_eq_bind, bind_none]

theorem inodeRemove_miss (hs : seek f path = .miss rest K g) :
    inodeRemove fs path = some (-ENOENT, fs) := by
  simp only [inodeRemove, inodeUnlink_miss hf hs, bind_eq_bind, bind_some]

theorem inodeRelease_outside (hrep : Rep fs.heap none (.cons a d ch .nil))
    (hnd : (Forest.cons a d ch .nil).addrs.Nodup)
    (hout : ∀ b ∈ (Forest.cons a d ch .nil).addrs, b ∉ f.addrs) :
    ∃ fs', inodeRelease fs a = some fs' ∧ Linked fs' f := by
  obtain ⟨hr, hrc, -⟩ := hrep
  have hr : fs.heap.read a = some ⟨none, none, ch.head, d⟩ := hr
  have hne : ∀ b ∈ f.addrs, b ≠ a := fun b hb he => hout a mem_cons_self (he ▸ hb)
  have hlt := lt_size_of_read hr
  have hf₁ : Linked ⟨fs.heap.put a (some ⟨none, none, ch.head, d.dropref⟩), fs.root⟩ f :=
    hf.congr rfl fun b hb => read_put_ne _ (hne b hb)
  simp only [inodeRelease, onInode_eq hr, bind_eq_bind, bind_some,
    read_put_self _ hlt]
  by_cases hfree : d.dropref.iCrefs = 0 ∧ d.dropref.deleted = true
  · have hac : a ∉ ch.addrs := by
      have := nodup_cons.mp hnd
      rw [Forest.addrs, append_nil] at this
      exact this.1
    have hrep : Rep (fs.heap.put a (some ⟨none, none, ch.head, d.dropref⟩)) none
        (.cons a d.dropref ch .nil) := by
      refine ⟨read_put_self _ hlt, hrc.congr fun b hb => read_put_ne _ ?_, trivial⟩
      rintro rfl
      exact hac hb
    obtain ⟨heap', hrun, -, hread⟩ := inodeFree_spec _ hrep hnd (hrep.height_le hnd)
    have hrun' : inodeFree _ _ (some a) = some heap' := hrun
    rw [if_pos hfree, hrun']
    refine ⟨⟨heap', fs.root⟩, rfl, hf₁.congr rfl fun b hb => ?_⟩
    have hb' : b ∉ (Forest.cons a d.dropref ch .nil).addrs := fun hmem => hout b hmem hb
    rw [hread, if_neg hb']
  · rw [if_neg hfree]
    exact ⟨_, rfl, hf₁⟩

theorem inodeRelease_removed (hr : fs.heap.read a = some ⟨none, none, none, d⟩)
    (hout : a ∉ f.addrs) : ∃ fs', inodeRelease fs a = some fs' ∧ Linked fs' f := by
  have hrep : Rep fs.heap none (.cons a d .nil .nil) := ⟨hr, trivial, trivial⟩
  refine inodeRelease_outside hf hrep (nodup_singleton a) fun b hb => ?_
  rw [mem_singleton.mp hb]
  exact hout

end

end Gpmx.PseudoFs
