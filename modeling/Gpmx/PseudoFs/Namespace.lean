import Gpmx.PseudoFs.Refine

/-!
# The tree as a map from paths to nodes

In every tree that `inode_reserve` and `inode_remove` can make, siblings are in strict order and
have proper names (`Wf`), so that a search finds the node with the components of the path, with
its left neighbour and its parent, and fails when there is none (`reachable_search_iff`).

The step lemma is `Wf.step`, the run lemma `Reachable.wf`.
-/

namespace Gpmx.PseudoFs

open Infra List

/-! ## Well-formed trees -/

def ProperName (d : Inode) : Prop := d.iName ≠ [] ∧ '/' ∉ d.iName

/-- One node at the top, with the empty name, and only proper names below it. -/
def Named (f : Forest Inode) : Prop :=
  ∃ r d ch, f = .cons r d ch .nil ∧ d.iName = [] ∧ ch.All ProperName

structure Wf (fs : Fs) (f : Forest Inode) : Prop where
  linked : Linked fs f
  sorted : f.Sorted Inode.iName
  named : Named f

def row : Forest Inode → List Inode
  | .nil => []
  | .cons _ d _ peer => d :: row peer

def rowsBelow : Forest Inode → List (List Inode)
  | .nil => []
  | .cons _ _ child peer => row child :: (rowsBelow child ++ rowsBelow peer)

def rows (f : Forest Inode) : List (List Inode) := row f :: rowsBelow f

/-- The order decided by `_inode_compare`. -/
def Before (d e : Inode) : Prop := inodeCompare d.iName e.iName < 0

theorem namecpy_of_proper {n : Name} (h : '/' ∉ n) : inodeNamecpy n = n := by
  unfold inodeNamecpy
  rw [takeWhile_eq_self_iff]
  intro c hc
  rw [bne_iff_ne]
  rintro rfl
  exact h hc

variable {d : Inode} {f : Forest Inode} {fs : Fs} {a : Addr} {ch pe : Forest Inode}

theorem before_iff {e : Inode} (hd : '/' ∉ d.iName) : Before d e ↔ d.iName < e.iName := by
  unfold Before
  rw [inodeCompare_eq, namecpy_of_proper hd]
  split
  · rename_i h
    exact ⟨fun _ => h, fun _ => by decide⟩
  · rename_i h
    refine ⟨fun hlt => ?_, fun hlt => absurd hlt h⟩
    split at hlt <;> cases hlt

theorem row_map_iName (f : Forest Inode) : (row f).map Inode.iName = f.level Inode.iName := by
  induction f with
  | nil => rfl
  | cons a d ch pe ihc ihp => simp only [row, Forest.level, map_cons, ihp]

theorem pairwise_row (hs : f.Sorted Inode.iName) (hn : f.All fun d => '/' ∉ d.iName) :
    (row f).Pairwise fun d e => Before d e ∧ d.iName ≠ e.iName := by
  induction f with
  | nil => exact List.Pairwise.nil
  | cons a d ch pe ihc ihp =>
    obtain ⟨hlt, -, hpe⟩ := hs
    refine List.Pairwise.cons ?_ (ihp hpe hn.2.2)
    intro e he
    have hde : d.iName < e.iName := by
      refine hlt e.iName ?_
      rw [← row_map_iName]
      exact mem_map_of_mem he
    exact ⟨(before_iff hn.1).mpr hde, ne_of_lt hde⟩

theorem pairwise_rowsBelow (hs : f.Sorted Inode.iName) (hn : f.All fun d => '/' ∉ d.iName) :
    ∀ r ∈ rowsBelow f, r.Pairwise fun d e => Before d e ∧ d.iName ≠ e.iName := by
  induction f with
  | nil => exact fun r hr => absurd hr not_mem_nil
  | cons a d ch pe ihc ihp =>
    obtain ⟨-, hch, hpe⟩ := hs
    intro r hr
    rcases mem_cons.mp hr with rfl | hr
    · exact pairwise_row hch hn.2.1
    · rcases mem_append.mp hr with hr | hr
      · exact ihc hch hn.2.1 r hr
      · exact ihp hpe hn.2.2 r hr

theorem all_imp {P Q : Inode → Prop} (hPQ : ∀ d, P d → Q d) (h : f.All P) : f.All Q := by
  induction f with
  | nil => trivial
  | cons a d ch pe ihc ihp => exact ⟨hPQ d h.1, ihc h.2.1, ihp h.2.2⟩

theorem Named.no_slash (h : Named f) : f.All fun d => '/' ∉ d.iName := by
  obtain ⟨r, d, ch, rfl, hroot, hch⟩ := h
  refine ⟨?_, all_imp (fun e he => he.2) hch, trivial⟩
  show '/' ∉ d.iName
  rw [hroot]
  exact not_mem_nil

theorem Wf.ascending (h : Wf fs f) :
    ∀ r ∈ rows f, r.Pairwise Before ∧ (r.map Inode.iName).Nodup := by
  intro r hr
  have hpw : r.Pairwise fun d e => Before d e ∧ d.iName ≠ e.iName := by
    rcases mem_cons.mp hr with rfl | hr
    · exact pairwise_row h.sorted h.named.no_slash
    · exact pairwise_rowsBelow h.sorted h.named.no_slash r hr
  exact ⟨hpw.imp And.left, pairwise_map.mpr (hpw.imp And.right)⟩

/-! ## Runs -/

inductive Step : Fs → Fs → Prop
  | reserve {fs fs' : Fs} {path : List Char} {answers : List Addr} {ret : Int} {node : Option Addr}
      (h : inodeReserve fs path answers = some (ret, node, fs')) : Step fs fs'
  | remove {fs fs' : Fs} {path : List Char} {ret : Int}
      (h : inodeRemove fs path = some (ret, fs')) : Step fs fs'
  | payload {fs fs' : Fs} {a : Addr} {u : Inode → Inode} (hu : Mild u)
      (h : fs.onInode a u = some fs') : Step fs fs'

inductive Reachable : Fs → Prop
  | empty {size : Nat} {root : Addr} (h : root < size) : Reachable (Fs.empty size root)
  | step {fs fs' : Fs} (h : Reachable fs) (hs : Step fs fs') : Reachable fs'

theorem wf_empty {size : Nat} {root : Addr} (h : root < size) :
    Wf (Fs.empty size root) (.cons root (Inode.fresh []) .nil .nil) := by
  have hr : (Fs.empty size root).heap.read root = some ⟨none, none, none, Inode.fresh []⟩ :=
    Heap.read_put_self _ (by simpa [Heap.size] using h)
  refine ⟨⟨⟨rfl, ⟨hr, trivial, trivial⟩, nodup_singleton root⟩, ⟨rfl, trivial, trivial⟩,
    ⟨root, _, _, rfl, rfl⟩⟩, ?_, ⟨root, _, _, rfl, rfl, trivial⟩⟩
  exact ⟨fun k hk => absurd hk not_mem_nil, trivial, trivial⟩

section

variable {fs fs' : Fs} {f : Forest Inode} {path : List Char} {rest : List Name} {K : Ctx Inode}

theorem proper_of_leads (h : Leads path K rest) (hK : K ≠ .top) :
    ∀ n ∈ rest, n ≠ [] ∧ '/' ∉ n := by
  have hne : K.spine ≠ [] := by
    cases K with
    | top => exact absurd rfl hK
    | peer K a d ch =>
      -- no name is before the empty one, so the search is no longer at the root
      intro hsp
      obtain ⟨-, k, ks, rfl, hlt⟩ := id h
      have hkeys := h.keys_eq
      rw [hsp] at hkeys
      rw [← (List.cons.inj hkeys).1] at hlt
      exact absurd hlt (not_lt_nil _)
    | child K a d pe => simp [Ctx.spine]
  obtain ⟨e, es, hsp⟩ := exists_cons_of_ne_nil hne
  have hkeys := h.keys_eq
  rw [hsp] at hkeys
  intro n hn
  have hmem : n ∈ components path := by
    rw [(List.cons.inj hkeys).2]
    exact mem_append_right _ hn
  exact name_of_mem_components hmem

theorem Named.seek_cases (hn : Named f) (path : List Char) :
    (∃ r d ch, seek f path = .hit (components path) .top r d ch .nil) ∨
      ((∀ X, X.All ProperName → Named ((seek f path).ctx.fill X)) ∧
        (seek f path).here.All ProperName) := by
  obtain ⟨r, d, ch, rfl, hroot, hch⟩ := hn
  refine PseudoFs.seek_cases path ⟨r, d, ch, rfl, hroot⟩ ?_
  intro r' d' ch' heq
  obtain ⟨rfl, rfl, rfl, -⟩ := Forest.cons.inj heq
  exact ⟨hch, fun X hX => ⟨_, _, X, rfl, hroot, hX⟩⟩

theorem Wf.reserve {answers : List Addr} {ret : Int} {node : Option Addr} (hwf : Wf fs f)
    (h : inodeReserve fs path answers = some (ret, node, fs')) : ∃ f', Wf fs' f' := by
  by_cases hpath : path = []
  · rw [inodeReserve, if_pos hpath] at h
    obtain ⟨-, -, rfl⟩ := Prod.mk.inj (Option.some.inj h) |>.imp_right Prod.mk.inj
    exact ⟨f, hwf⟩
  · cases hs : seek f path with
    | hit rest K a d ch pe =>
      rw [inodeReserve_hit hwf.linked hpath hs] at h
      obtain ⟨-, -, rfl⟩ := Prod.mk.inj (Option.some.inj h) |>.imp_right Prod.mk.inj
      exact ⟨f, hwf⟩
    | miss rest K g =>
      obtain ⟨ret', node', fs'', as, hrun, hf', -⟩ := inodeReserve_miss hwf.linked hpath hs answers
      rw [hrun] at h
      obtain ⟨-, -, rfl⟩ := Prod.mk.inj (Option.some.inj h) |>.imp_right Prod.mk.inj
      obtain ⟨rfl, hroute, hbeyond⟩ := seek_miss hs
      have hK := (rooted_of_seek_miss hwf.linked.rooted hs).1
      refine ⟨_, hf', sorted_sprout (fun _ => rfl) hwf.sorted hroute hbeyond as, ?_⟩
      rcases hwf.named.seek_cases path with ⟨r, d, ch, hhit⟩ | ⟨hfill, hg⟩
      · rw [hs] at hhit
        cases hhit
      · rw [hs] at hfill hg
        exact hfill _ (all_sprout Inode.fresh rest (proper_of_leads hroute hK) as hg)

theorem Wf.unlink (hwf : Wf fs f) (hs : seek f path = .hit rest K a d ch pe) (hK : K ≠ .top)
    (hf' : Linked fs' (K.fill pe)) : Wf fs' (K.fill pe) := by
  have hsorted := hwf.sorted
  rw [(seek_hit hs).1] at hsorted
  refine ⟨hf', sorted_unlink hsorted, ?_⟩
  rcases hwf.named.seek_cases path with ⟨r, d', ch', hhit⟩ | ⟨hfill, hg⟩
  · rw [hs] at hhit
    injection hhit with _ hKtop
    exact absurd hKtop hK
  · rw [hs] at hfill hg
    exact hfill pe hg.2.2

theorem Wf.remove {ret : Int} (hwf : Wf fs f) (h : inodeRemove fs path = some (ret, fs')) :
    ∃ f', Wf fs' f' := by
  cases hs : seek f path with
  | hit rest K a d ch pe =>
    by_cases hK : K = .top
    · subst hK
      rw [inodeRemove_root hwf.linked hs] at h
      cases h
    · obtain ⟨fs'', hrun, hf', -⟩ := inodeRemove_hit hwf.linked hs hK
      rw [hrun] at h
      cases h
      exact ⟨_, hwf.unlink hs hK hf'⟩
  | miss rest K g =>
    rw [inodeRemove_miss hwf.linked hs] at h
    cases h
    exact ⟨f, hwf⟩

theorem Wf.mapAt {φ : Addr → Inode → Inode} (hwf : Wf fs f)
    (hname : ∀ b d, (φ b d).iName = d.iName) (hf' : Linked fs' (f.mapAt φ)) :
    Wf fs' (f.mapAt φ) := by
  refine ⟨hf', sorted_mapAt hname hwf.sorted, ?_⟩
  obtain ⟨r, d, ch, rfl, hroot, hch⟩ := hwf.named
  refine ⟨r, _, _, rfl, by rw [hname]; exact hroot, all_mapAt ?_ hch⟩
  intro b e he
  unfold ProperName
  rw [hname]
  exact he

end

theorem Wf.step {fs' : Fs} (hwf : Wf fs f) (hs : Step fs fs') : ∃ f', Wf fs' f' := by
  cases hs with
  | reserve h => exact hwf.reserve h
  | remove h => exact hwf.remove h
  | payload hu h =>
    rename_i a u
    obtain ⟨heap, hm, -⟩ := Option.bind_eq_some_iff.mp h
    obtain ⟨c, hr, -⟩ := Heap.read_of_modify hm
    obtain ⟨fs'', hon, hf', -⟩ := onInode_spec hwf.linked hr hu
    rw [hon] at h
    cases h
    exact ⟨_, hwf.mapAt (fun b d => (hu.only a b d).1) hf'⟩

theorem Reachable.wf (h : Reachable fs) : ∃ f, Wf fs f := by
  induction h with
  | empty h => exact ⟨_, wf_empty h⟩
  | step _ hs ih =>
    obtain ⟨f, hwf⟩ := ih
    exact hwf.step hs

/-! ## Searching a well-formed tree -/

def componentsOf (K : Ctx Inode) (d : Inode) : List Name := K.spine.map Inode.iName ++ [d.iName]

def NoMountAbove (f : Forest Inode) (path : List Char) : Prop :=
  ∀ K a d ch pe, f = K.fill (.cons a d ch pe) → componentsOf K d <+: pathKeys path →
    componentsOf K d ≠ pathKeys path → d.iType ≠ .mountpt

section

variable {f : Forest Inode} {path : List Char} {K : Ctx Inode}

theorem NoMountAbove.spine (h : NoMountAbove f path) {g : Forest Inode} {t : List Name}
    (hf : f = K.fill g) (hkeys : pathKeys path = K.spine.map Inode.iName ++ t) (ht : t ≠ []) :
    ∀ e ∈ K.spine, e.isMountpt = false := by
  induction K generalizing g t with
  | top => exact fun e he => absurd he not_mem_nil
  | peer K a d ch ih => exact ih hf hkeys ht
  | child K a d pe ih =>
    have hcomp : pathKeys path = componentsOf K d ++ t := by
      rw [hkeys]
      simp [Ctx.spine, componentsOf]
    intro e he
    rcases mem_append.mp he with he | he
    · refine ih hf ?_ (cons_ne_nil d.iName t) e he
      rw [hcomp]
      simp [componentsOf]
    · rw [mem_singleton.mp he]
      have hne : componentsOf K d ≠ pathKeys path := by
        rw [hcomp]
        intro heq
        exact ht (append_right_eq_self.mp heq.symm)
      have hnot := h K a d g pe hf ⟨t, hcomp.symm⟩ hne
      simpa [Inode.isMountpt] using hnot

theorem seek_of_occurs (hs : f.Sorted Inode.iName) (hm : NoMountAbove f path)
    (hf : f = K.fill (.cons a d ch pe)) (hcomp : componentsOf K d = pathKeys path) :
    seek f path = .hit [] K a d ch pe := by
  have hkeys : pathKeys path = K.spine.map Inode.iName ++ [d.iName] := hcomp.symm
  have hstop := hm.spine hf hkeys (cons_ne_nil _ _)
  subst hf
  exact walk_eq_hit (route_of_sorted hs hkeys (le_refl _) hstop) (Or.inl rfl)

theorem occurs_of_seek (hm : NoMountAbove f path) {rest : List Name}
    (hs : seek f path = .hit rest K a d ch pe) : rest = [] ∧ componentsOf K d = pathKeys path := by
  obtain ⟨hf, hroute, hend⟩ := seek_hit hs
  have hkeys := hroute.keys_eq
  have hcomp : pathKeys path = componentsOf K d ++ rest := by
    rw [hkeys]
    simp [componentsOf]
  by_cases hrest : rest = []
  · refine ⟨hrest, ?_⟩
    rw [hcomp, hrest, append_nil]
  · have hne : componentsOf K d ≠ pathKeys path := by
      rw [hcomp]
      intro heq
      exact hrest (append_right_eq_self.mp heq.symm)
    have hnot := hm K a d ch pe hf ⟨rest, hcomp.symm⟩ hne
    have hmount := hend.resolve_left hrest
    exact absurd (by simpa [Inode.isMountpt] using hmount) hnot

end

/--
**The inode tree is a map from paths to nodes.** In every tree reachable from the empty root,
siblings are strictly ascending, with distinct proper names. A search for an absolute path with
no mountpoint above its end succeeds exactly when a node has the path's components, and returns
that node, its left neighbour and its parent; `inode_reserve` refuses with `-EEXIST` exactly
then.
-/
theorem reachable_search_iff {fs : Fs} (h : Reachable fs) :
    ∃ f, Linked fs f ∧ (∀ r ∈ rows f, r.Pairwise Before ∧ (r.map Inode.iName).Nodup) ∧ Named f ∧
      ∀ path : List Char, path.head? = some '/' →
        ∃ desc, inodeSearch fs path = some desc ∧
          (∀ answers, ∃ ret node fs', inodeReserve fs path answers = some (ret, node, fs') ∧
            (ret = -EEXIST ↔ desc.ret = 0)) ∧
          (NoMountAbove f path →
            (desc.ret = 0 ↔
              ∃ K a d ch pe, f = K.fill (.cons a d ch pe) ∧ componentsOf K d = pathKeys path) ∧
            ∀ K a d ch pe, f = K.fill (.cons a d ch pe) → componentsOf K d = pathKeys path →
              desc.node = some a ∧ desc.peer = K.left ∧ desc.parent = K.above) := by
  obtain ⟨f, hwf⟩ := h.wf
  refine ⟨f, hwf.linked, hwf.ascending, hwf.named, ?_⟩
  intro path hpath
  have hne : path ≠ [] := by
    rintro rfl
    cases hpath
  obtain ⟨desc, hsearch, hden⟩ := inodeSearch_spec hwf.linked (rfl : seek f path = _)
  refine ⟨desc, hsearch, ?_⟩
  cases hs : seek f path with
  | hit rest K a d ch pe =>
    rw [hs] at hden
    obtain ⟨hret, hnode, hpeer, hparent, -⟩ := hden
    refine ⟨?_, fun hm => ⟨⟨?_, fun _ => hret⟩, ?_⟩⟩
    · intro answers
      exact ⟨_, _, _, inodeReserve_hit hwf.linked hne hs answers, fun _ => hret, fun _ => rfl⟩
    · intro _
      exact ⟨K, a, d, ch, pe, (seek_hit hs).1, (occurs_of_seek hm hs).2⟩
    · intro K' a' d' ch' pe' hf' hcomp
      have hs' := seek_of_occurs hwf.sorted hm hf' hcomp
      rw [hs] at hs'
      injection hs' with _ hK ha
      rw [← hK, ← ha]
      exact ⟨hnode, hpeer, hparent⟩
  | miss rest K g =>
    rw [hs] at hden
    have hret : desc.ret ≠ 0 := by
      rw [hden.1]
      decide
    refine ⟨?_, fun hm => ?_⟩
    · intro answers
      obtain ⟨ret, node, fs', as, hrun, -, hres⟩ := inodeReserve_miss hwf.linked hne hs answers
      refine ⟨ret, node, fs', hrun, fun hex => ?_, fun h0 => absurd h0 hret⟩
      rcases hres.outcome with ⟨h0, -⟩ | ⟨h0, -⟩
      · rw [h0] at hex
        exact absurd hex (by decide)
      · rw [h0] at hex
        exact absurd hex (by decide)
    · -- a node with these components would have been found
      have hnone : ∀ K' a' d' ch' pe', f = K'.fill (.cons a' d' ch' pe') →
          componentsOf K' d' ≠ pathKeys path := by
        intro K' a' d' ch' pe' hf' hcomp
        have hs' := seek_of_occurs hwf.sorted hm hf' hcomp
        rw [hs] at hs'
        cases hs'
      refine ⟨⟨fun h0 => absurd h0 hret, ?_⟩, ?_⟩
      · rintro ⟨K', a', d', ch', pe', hf', hcomp⟩
        exact absurd hcomp (hnone K' a' d' ch' pe' hf')
      · intro K' a' d' ch' pe' hf' hcomp
        exact absurd hcomp (hnone K' a' d' ch' pe' hf')

/-- The tree with `/ab/c`, made in one call. -/
def abcTree : Forest Inode :=
  .cons 0 (Inode.fresh [])
    (.cons 2 (Inode.fresh ['a', 'b']) (.cons 1 (Inode.fresh ['c']) .nil .nil) .nil) .nil

def abcFs : Fs :=
  ⟨⟨[some ⟨none, none, some 2, Inode.fresh []⟩, some ⟨some 2, none, none, Inode.fresh ['c']⟩,
    some ⟨some 0, none, some 1, Inode.fresh ['a', 'b']⟩, none]⟩, some 0⟩

theorem reachable_search_iff_abc : Reachable abcFs ∧
    ∃ desc, inodeSearch abcFs ['/', 'a', 'b', '/', 'c'] = some desc ∧
      desc.node = some 1 ∧ desc.peer = none ∧ desc.parent = some 2 := by
  have hreach : Reachable abcFs :=
    .step (.empty (show 0 < 4 by decide))
      (@Step.reserve _ _ ['/', 'a', 'b', '/', 'c'] [2, 1] 0 (some 1) (by decide))
  refine ⟨hreach, ?_⟩
  obtain ⟨f, hlinked, -, -, hsearch⟩ := reachable_search_iff hreach
  have hf : f = abcTree := by
    refine hlinked.stores.unique ⟨rfl, ?_, by decide⟩
    exact ⟨rfl, ⟨rfl, ⟨rfl, trivial, trivial⟩, trivial⟩, trivial⟩
  have hm : NoMountAbove f ['/', 'a', 'b', '/', 'c'] := by
    intro K a d ch pe hfill _ _
    have hall : f.All fun d => d.iType ≠ .mountpt := by
      rw [hf]
      simp [abcTree, Forest.All, Inode.fresh]
    rw [hfill] at hall
    exact (Ctx.all_fill.mp hall).2.1
  obtain ⟨desc, hrun, -, hfound⟩ := hsearch ['/', 'a', 'b', '/', 'c'] rfl
  exact ⟨desc, hrun, (hfound hm).2
    (.child (.child .top 0 (Inode.fresh []) .nil) 2 (Inode.fresh ['a', 'b']) .nil)
    1 (Inode.fresh ['c']) .nil .nil hf rfl⟩

end Gpmx.PseudoFs
