import Gpmx.PseudoFs.Rename

/-!
# What a rename leaves

`pseudorename` gives the new inode the children of the old one, but the children keep the old one
as their parent, and it does not ask whether the new path is below the old one. So a rename that
does anything leaves a tree exactly when the inode has no children, and does not go below itself
(`pseudorename_renamed_iff`).
-/

namespace Gpmx.PseudoFs

open Infra List

abbrev Placed (f : Forest Inode) (b : Addr) (e : Inode) (ks : List Name) : Prop :=
  f.At Inode.iName (fun _ => false) b e ks

/-- The tree `f'` has at `dest` what was at `old` in `f`, with all below it, and everything else
where it was, but for what was at `dest`. -/
structure Renamed (f : Forest Inode) (old : List Name) (d : Inode) (dest : List Name)
    (f' : Forest Inode) : Prop where
  moved : ∃ n x, Placed f' n x dest ∧ x.iType = d.iType ∧ x.u = d.u ∧ x.iPrivate = d.iPrivate
  below : ∀ b e k ks, Placed f b e (old ++ k :: ks) ↔ Placed f' b e (dest ++ k :: ks)
  others : ∀ b e ks, Placed f b e ks → ¬old <+: ks → ks ≠ dest → Placed f' b e ks
  gone : ¬old <+: dest → ∀ b e ks, ¬Placed f' b e (old ++ ks)

variable {a : Addr} {d e : Inode} {b : Addr} {ks : List Name}

theorem placed_first_child {K : Ctx Inode} {c : Addr} {cc cp pe : Forest Inode} :
    Placed (K.fill (.cons a d (.cons c e cc cp) pe)) c e
      (K.keys Inode.iName ++ [d.iName] ++ [e.iName]) := by
  rw [append_assoc]
  exact at_fill (fun _ _ => rfl) (Or.inr (Or.inl ⟨rfl, _, rfl, Or.inl ⟨rfl, rfl, rfl⟩⟩))

theorem renamed_self {f : Forest Inode} {old : List Name} (h : Placed f a d old) :
    Renamed f old d old f where
  moved := ⟨a, d, h, rfl, rfl, rfl⟩
  below := fun _ _ _ _ => Iff.rfl
  others := fun _ _ _ hat _ _ => hat
  gone := fun hno => absurd (prefix_refl old) hno

section

variable {f f₁ f' : Forest Inode} {oldpath newpath : List Char} {a : Addr} {d : Inode}
  {fs fs' fs₂ : Fs} {n : Addr} {x : Inode} {K : Ctx Inode} {ch pe : Forest Inode}

/-! ## The final heap -/

section

variable (hm : Moved f₁ oldpath newpath a d fs' n x K ch pe fs₂)
include hm

theorem Moved.gone : ¬Placed (K.fill pe) b e (pathKeys oldpath ++ ks) := by
  rw [hm.keys, append_assoc]
  exact not_at_unlinked hm.sorted

theorem Moved.mem_children {k : Name}
    (h : Placed (K.fill (.cons a d ch pe)) b e (pathKeys oldpath ++ k :: ks)) : b ∈ ch.addrs := by
  rw [hm.keys, append_assoc] at h
  exact mem_child_of_at hm.sorted h

theorem Moved.apart : Apart K a ch pe :=
  apart_of_nodup hm.nodup

theorem Moved.read_ne (hba : b ≠ a) (hbn : b ≠ n) : fs'.heap.read b = fs₂.heap.read b := by
  rw [hm.result]
  exact (Heap.read_put_ne _ hba).trans (read_graft_ne hbn)

theorem Moved.linked (h : n ∉ (K.fill pe).addrs ∨ ch = .nil) : Linked fs' (K.fill pe) := by
  refine hm.rest.linked.congr (by rw [hm.result]) fun b hb => ?_
  have hba : b ≠ a := (hm.apart.not_mem hb).1
  rcases h with hn | rfl
  · exact hm.read_ne hba fun he => hn (he ▸ hb)
  · rw [hm.result]
    refine (Heap.read_put_ne _ hba).trans ?_
    rw [Forest.head, hm.same rfl]

end

/-! ## The cases -/

theorem Moved.renamed (hm : Moved f₁ oldpath newpath a d fs' n x K .nil pe fs₂)
    (hcl : Cleared f newpath f₁) (hno : ¬pathKeys oldpath <+: pathKeys newpath) :
    Wf fs' (K.fill pe) ∧ Renamed f (pathKeys oldpath) d (pathKeys newpath) (K.fill pe) := by
  have hcut : ∀ {b e ks}, Placed (K.fill (.cons a d .nil pe)) b e ks →
      ¬pathKeys oldpath <+: ks → Placed (K.fill pe) b e ks := by
    intro b e ks hat hks
    refine (at_unlink hat).resolve_right ?_
    rw [← hm.keys]
    exact hks
  refine ⟨⟨hm.linked (Or.inr rfl), hm.rest.sorted, hm.rest.named⟩, ?_, ?_, ?_, ?_⟩
  · exact ⟨n, x, hcut hm.grown.new hno, hm.data⟩
  · intro b e k ks
    constructor
    · -- an inode without children has nothing below it
      intro hat
      have hne : pathKeys oldpath ++ k :: ks ≠ pathKeys newpath := fun he => hno ⟨_, he⟩
      exact absurd (hm.mem_children (hm.grown.keeps (hcl.keeps hat hne))) not_mem_nil
    · intro hat
      exact absurd (at_of_unlink hat) hm.grown.leaf
  · intro b e ks hat hold hne
    exact hcut (hm.grown.keeps (hcl.keeps hat hne)) hold
  · exact fun _ b e ks => hm.gone

section

variable (hm : Moved f₁ oldpath newpath a d fs' n x K ch pe fs₂)
include hm

theorem Moved.not_renamed_below (hpre : pathKeys oldpath <+: pathKeys newpath) (hwf' : Wf fs' f')
    (hren : Renamed f (pathKeys oldpath) d (pathKeys newpath) f') : False := by
  obtain ⟨t, ht⟩ := hpre
  have hn : n ∉ (K.fill pe).addrs := by
    intro hmem
    obtain ⟨e, ks, hat⟩ : ∃ e ks, (K.fill pe).At Inode.iName (fun _ => false) n e ks :=
      exists_at_of_mem hmem
    have hks := at_path_unique hm.nodup (at_of_unlink hat) hm.grown.new
    rw [hks, ← ht] at hat
    exact hm.gone hat
  obtain rfl := hwf'.linked.unique (hm.linked (Or.inl hn))
  obtain ⟨m, y, hat, -⟩ := hren.moved
  rw [← ht] at hat
  exact hm.gone hat

theorem Moved.not_renamed_children (hcl : Cleared f newpath f₁) (hch : ch ≠ .nil)
    (hno : ¬pathKeys oldpath <+: pathKeys newpath) (hwf' : Wf fs' f')
    (hren : Renamed f (pathKeys oldpath) d (pathKeys newpath) f') : False := by
  cases ch with
  | nil => exact hch rfl
  | cons c e cc cp =>
    have hat : Placed (K.fill (.cons a d (.cons c e cc cp) pe)) c e
        (pathKeys oldpath ++ [e.iName]) := by
      rw [hm.keys]
      exact placed_first_child
    have hold : Placed f c e (pathKeys oldpath ++ [e.iName]) := by
      rcases hm.grown.only hat with hat | hpre
      · exact hcl.only hat
      · exact absurd ((prefix_append _ _).trans hpre) hno
    have hca : c ≠ a := by
      rintro rfl
      exact hm.apart.node_child mem_cons_self
    have hcn : c ≠ n := by
      rintro rfl
      exact hno ⟨_, at_path_unique hm.nodup hat hm.grown.new⟩
    have hcell : fs'.heap.read c = some ⟨some a, cp.head, cc.head, e⟩ := by
      rw [hm.read_ne hca hcn]
      exact hm.children.1
    obtain ⟨cell, hread, hcase⟩ :=
      hwf'.linked.stores.rep.parent_of_at ((hren.below c e e.iName []).mp hold)
    rw [hcell] at hread
    cases hread
    rcases hcase with ⟨-, hlen⟩ | ⟨-, p, cellp, hparent, hreadp, hchild⟩
    · simp [pathKeys] at hlen
    · cases hparent
      have hlt : a < (graft fs₂.heap n (Forest.cons c e cc cp).head).size := by
        have := Heap.lt_size_of_read hreadp
        rw [hm.result] at this
        simpa using this
      rw [hm.result, Heap.read_put_self _ hlt] at hreadp
      rw [← Option.some.inj hreadp] at hchild
      exact hchild rfl

theorem Moved.children_iff (hcl : Cleared f newpath f₁) (hno : ¬pathKeys oldpath <+: pathKeys newpath)
    (hsorted : f.Sorted Inode.iName) {K₀ : Ctx Inode} {ch₀ pe₀ : Forest Inode}
    (hf : f = K₀.fill (.cons a d ch₀ pe₀)) (hkeys : pathKeys oldpath = K₀.keys Inode.iName ++ [d.iName]) :
    ch = .nil ↔ ch₀ = .nil := by
  constructor
  · rintro rfl
    cases ch₀ with
    | nil => rfl
    | cons c e cc cp =>
      have hat : Placed f c e (pathKeys oldpath ++ [e.iName]) := by
        rw [hf, hkeys]
        exact placed_first_child
      have hne : pathKeys oldpath ++ [e.iName] ≠ pathKeys newpath := fun he => hno ⟨_, he⟩
      exact absurd (hm.mem_children (hm.grown.keeps (hcl.keeps hat hne))) not_mem_nil
  · rintro rfl
    cases ch with
    | nil => rfl
    | cons c e cc cp =>
      have hat : Placed (K.fill (.cons a d (.cons c e cc cp) pe)) c e
          (pathKeys oldpath ++ [e.iName]) := by
        rw [hm.keys]
        exact placed_first_child
      rcases hm.grown.only hat with hold | hpre
      · have hf₀ := hcl.only hold
        subst hf
        rw [hkeys, append_assoc] at hf₀
        exact absurd (mem_child_of_at hsorted hf₀) not_mem_nil
      · exact absurd ((prefix_append _ _).trans hpre) hno

end

/--
**When a rename leaves a tree.** For every well-formed tree, an inode in it that is no mountpoint
and that the caller holds a reference to, and every new path: when `pseudorename` returns zero,
there is a well-formed tree afterwards with the inode and all below it at the destination, and
everything else where it was, exactly when the destination is the inode itself, or the inode has
no children and the destination is not below it.
-/
theorem pseudorename_renamed_iff {rest : List Name} {answers : List Addr} (hwf : Wf fs f)
    (hold : seek f oldpath = .hit rest K a d ch pe) (htype : d.iType ≠ .mountpt)
    (hheld : d.iCrefs ≠ 0)
    (h : pseudorename fs oldpath a newpath answers = some (0, fs')) :
    (∃ f', Wf fs' f' ∧
        Renamed f (pathKeys oldpath) d (pathKeys (destination f a oldpath newpath)) f') ↔
      pathKeys (destination f a oldpath newpath) = pathKeys oldpath ∨
        (ch = .nil ∧ ¬pathKeys oldpath <+: pathKeys (destination f a oldpath newpath)) := by
  -- only a mountpoint takes the rest of a path
  have hend : ∀ {rest K ch pe path}, seek f path = .hit rest K a d ch pe → rest = [] := by
    intro rest K ch pe path hs
    refine (seek_hit hs).2.2.resolve_right fun hmount => htype ?_
    simpa [Inode.isMountpt] using hmount
  have hfind : ∀ {rest K ch pe path}, seek f path = .hit rest K a d ch pe →
      f.At Inode.iName Inode.isMountpt a d (pathKeys path) := by
    intro rest K ch pe path hs
    obtain rfl := hend hs
    exact at_of_walk (cons_ne_nil _ _) hs
  have hat := hfind hold
  obtain rfl := hend hold
  obtain ⟨hf, hroute, -⟩ := seek_hit hold
  have hkeys : pathKeys oldpath = K.keys Inode.iName ++ [d.iName] := hroute.keys_eq
  generalize hdest : destination f a oldpath newpath = dest
  rcases pseudorename_cases hwf h with ⟨⟨rest', K', d', ch', pe', hs⟩, rfl⟩ |
    ⟨hother, oldpath', fs₁, f₁, hpath, hwf₁, hcl, hmove⟩
  · rw [hdest] at hs
    obtain rfl : d' = d :=
      hwf.linked.stores.data_unique (has_of_seek_hit hs) (has_of_seek_hit hold)
    have heq := at_path_unique hwf.linked.stores.nodup (hfind hs) hat
    rw [heq]
    exact ⟨fun _ => Or.inl rfl, fun _ => ⟨f, hwf, renamed_self hat.weaken⟩⟩
  · rw [hdest] at hother hcl hmove
    have hne : pathKeys dest ≠ pathKeys oldpath := by
      intro he
      refine hother [] K d ch pe ?_
      rw [← hold]
      exact congrArg (fun ks => walk Inode.iName Inode.isMountpt ks .top f) he
    have hat₁ : f₁.At Inode.iName Inode.isMountpt a d (pathKeys oldpath') := by
      rw [hpath]
      exact hcl.keeps hat (Ne.symm hne)
    obtain ⟨n, x, K₁, ch₁, pe₁, fs₂, hm⟩ := moveInode_ok hwf₁ hat₁ hheld hmove
    rw [← hpath] at hkeys ⊢
    constructor
    · rintro ⟨f', hwf', hren⟩
      have hno : ¬pathKeys oldpath' <+: pathKeys dest := fun hpre =>
        hm.not_renamed_below hpre hwf' hren
      refine Or.inr ⟨?_, hno⟩
      by_contra hch
      refine hm.not_renamed_children hcl ?_ hno hwf' hren
      exact fun hnil => hch ((hm.children_iff hcl hno hwf.sorted hf hkeys).mp hnil)
    · rintro (heq | ⟨hch, hno⟩)
      · rw [hpath] at heq
        exact absurd heq hne
      · obtain rfl := (hm.children_iff hcl hno hwf.sorted hf hkeys).mpr hch
        exact ⟨_, hm.renamed hcl hno⟩

end

/-! ## Renaming a directory -/

/-- A driver at `/a`, referenced by the caller. -/
def driverFs : Fs :=
  ⟨⟨[some ⟨none, none, some 1, Inode.fresh []⟩,
    some ⟨some 0, none, none, ⟨1, .driver, false, some 4, none, ['a']⟩⟩, none]⟩, some 0⟩

def driverTree : Forest Inode :=
  .cons 0 (Inode.fresh []) (.cons 1 ⟨1, .driver, false, some 4, none, ['a']⟩ .nil .nil) .nil

theorem wf_driverFs : Wf driverFs driverTree := by
  refine ⟨⟨⟨rfl, ⟨rfl, ⟨rfl, trivial, trivial⟩, trivial⟩, by decide⟩,
    ⟨rfl, ⟨rfl, trivial, trivial⟩, trivial⟩, 0, _, _, rfl, rfl⟩, ?_, ?_⟩
  · simp [driverTree, Forest.Sorted, Forest.level]
  · exact ⟨0, _, _, rfl, rfl, ⟨by decide, by decide⟩, trivial, trivial⟩

/-- The driver at `/c`, and the old inode outside the tree. -/
def renamedDriverFs : Fs :=
  ⟨⟨[some ⟨none, none, some 2, Inode.fresh []⟩,
    some ⟨none, none, none, ⟨1, .driver, true, some 4, none, ['a']⟩⟩,
    some ⟨some 0, none, none, ⟨0, .driver, false, some 4, none, ['c']⟩⟩]⟩, some 0⟩

theorem pseudorename_renamed_iff_driver :
    (∃ f', Wf renamedDriverFs f' ∧ Renamed driverTree (pathKeys ['/', 'a'])
        ⟨1, .driver, false, some 4, none, ['a']⟩
        (pathKeys (destination driverTree 1 ['/', 'a'] ['/', 'c'])) f') ↔
      pathKeys (destination driverTree 1 ['/', 'a'] ['/', 'c']) = pathKeys ['/', 'a'] ∨
        (Forest.nil = (Forest.nil : Forest Inode) ∧
          ¬pathKeys ['/', 'a'] <+: pathKeys (destination driverTree 1 ['/', 'a'] ['/', 'c'])) :=
  @pseudorename_renamed_iff driverTree ['/', 'a'] ['/', 'c'] 1
    ⟨1, .driver, false, some 4, none, ['a']⟩ driverFs renamedDriverFs
    (.child .top 0 (Inode.fresh []) .nil) .nil .nil [] [2] wf_driverFs rfl (by decide)
    (by decide) (by decide +kernel)

/-- A directory `/a`, referenced by the caller, with `/a/b` in it. -/
def parentFs : Fs :=
  ⟨⟨[some ⟨none, none, some 1, Inode.fresh []⟩,
    some ⟨some 0, none, some 2, (Inode.fresh ['a']).addref⟩,
    some ⟨some 1, none, none, Inode.fresh ['b']⟩, none]⟩, some 0⟩

def parentTree : Forest Inode :=
  .cons 0 (Inode.fresh [])
    (.cons 1 (Inode.fresh ['a']).addref (.cons 2 (Inode.fresh ['b']) .nil .nil) .nil) .nil

theorem wf_parentFs : Wf parentFs parentTree := by
  refine ⟨⟨⟨rfl, ⟨rfl, ⟨rfl, ⟨rfl, trivial, trivial⟩, trivial⟩, trivial⟩, by decide⟩,
    ⟨rfl, ⟨rfl, ⟨rfl, trivial, trivial⟩, trivial⟩, trivial⟩, 0, _, _, rfl, rfl⟩, ?_, ?_⟩
  · simp [parentTree, Forest.Sorted, Forest.level]
  · exact ⟨0, _, _, rfl, rfl, ⟨by decide, by decide⟩, ⟨⟨by decide, by decide⟩, trivial, trivial⟩,
      trivial⟩

/-- `/c` has the child, whose parent is still the old inode. -/
def renamedParentFs : Fs :=
  ⟨⟨[some ⟨none, none, some 3, Inode.fresh []⟩,
    some ⟨none, none, none, { (Inode.fresh ['a']).addref with deleted := true }⟩,
    some ⟨some 1, none, none, Inode.fresh ['b']⟩,
    some ⟨some 0, none, some 2, Inode.fresh ['c']⟩]⟩, some 0⟩

/-- Renaming the directory leaves the child with the inode that was taken out as its parent. -/
theorem rename_leaves_stale_parent :
    ¬∀ (fs fs' : Fs) (f : Forest Inode) (oldpath newpath : List Char) (rest : List Name)
        (K : Ctx Inode) (a : Addr) (d : Inode) (ch pe : Forest Inode) (answers : List Addr),
        Wf fs f → seek f oldpath = .hit rest K a d ch pe → d.iType ≠ .mountpt → d.iCrefs ≠ 0 →
        pseudorename fs oldpath a newpath answers = some (0, fs') →
        ∃ f', Wf fs' f' ∧
          Renamed f (pathKeys oldpath) d (pathKeys (destination f a oldpath newpath)) f' := by
  intro h
  obtain ⟨f', hwf', hren⟩ := h parentFs renamedParentFs parentTree ['/', 'a'] ['/', 'c'] []
    (.child .top 0 (Inode.fresh []) .nil) 1 (Inode.fresh ['a']).addref
    (.cons 2 (Inode.fresh ['b']) .nil .nil) .nil [3] wf_parentFs rfl (by decide) (by decide)
    (by decide +kernel)
  have hold : Placed parentTree 2 (Inode.fresh ['b']) (pathKeys ['/', 'a'] ++ [['b']]) :=
    placed_first_child (K := .child .top 0 (Inode.fresh []) .nil)
  obtain ⟨c, hread, hcase⟩ := hwf'.linked.stores.rep.parent_of_at ((hren.below _ _ _ _).mp hold)
  have hcell : renamedParentFs.heap.read 2 = some ⟨some 1, none, none, Inode.fresh ['b']⟩ := rfl
  rw [hcell] at hread
  obtain rfl := Option.some.inj hread
  rcases hcase with ⟨hparent, -⟩ | ⟨-, p, cp, hparent, hreadp, hchild⟩
  · cases hparent
  · obtain rfl := Option.some.inj hparent
    rw [← Option.some.inj (show some _ = some cp from hreadp)] at hchild
    exact hchild rfl

end Gpmx.PseudoFs
