import Gpmx.PseudoFs.DirStream

/-!
# What other tasks do to a directory

For the directory with the path `keys`: who its entries are (`Child`), what a creation and a
removal change of them, and what happens to inodes that are no longer in the tree (`Gone`).

The steps of the stream are in `Gpmx/PseudoFs/DirStreamRuns.lean`.
-/

namespace Gpmx.PseudoFs

open Infra Option List

/-- The pseudo directory at a path, which is reached without passing a mountpoint. -/
def Located (keys : List Name) (f : Forest Inode) (dir : Addr) : Prop :=
  ∃ d, f.At Inode.iName Inode.isMountpt dir d keys ∧ d.isMountpt = false

def Child (keys : List Name) (f : Forest Inode) (b : Addr) (e : Inode) : Prop :=
  f.At Inode.iName (fun _ => false) b e (keys ++ [e.iName])

def Gone (heap : Heap Inode) (f : Forest Inode) (a : Addr) (e : Inode) : Prop :=
  ∃ ch, Rep heap none (.cons a e ch .nil) ∧ (Forest.cons a e ch .nil).addrs.Nodup ∧
    ∀ b ∈ (Forest.cons a e ch .nil).addrs, b ∉ f.addrs

section

variable {fs fs' : Fs} {heap heap' : Heap Inode} {f f' : Forest Inode} {path : List Char}
  {keys : List Name} {answers : List Addr} {root node : Option Addr} {K : Ctx Inode}
  {g ch pe : Forest Inode} {rest : List Name} {ret : Int} {a b dir : Addr} {d e x : Inode}

/-! ## Entries -/

theorem Located.children (hwf : Wf fs f) (hdir : Located keys f dir) :
    ∃ c g, fs.heap.read dir = some c ∧ c.child = g.head ∧ Rep fs.heap (some dir) g ∧
      g.Sorted Inode.iName ∧ ∀ b e, g.Top b e ↔ Child keys f b e := by
  obtain ⟨d, hat, -⟩ := hdir
  obtain ⟨K, ch, pe, rfl, rfl, -⟩ := hat.occurs
  obtain ⟨-, hr, hc, -⟩ := rep_fill.mp hwf.linked.stores.rep
  refine ⟨_, ch, hr, rfl, hc, (sorted_fill.mp hwf.sorted).2.2.1, fun b e => ?_⟩
  exact top_iff_at hwf.linked.stores.nodup hwf.sorted

theorem Child.mem_addrs (hc : Child keys f b e) : b ∈ f.addrs := Forest.At.mem_addrs hc

theorem Child.data_unique (hwf : Wf fs f) (hc : Child keys f b d) (hc' : Child keys f b e) :
    d = e := (at_unique hwf.linked.stores.nodup hc hc').2

theorem Child.unique (hwf : Wf fs f) (hdir : Located keys f dir) (hb : Child keys f b d)
    (ha : Child keys f a e) (hname : d.iName = e.iName) : b = a := by
  obtain ⟨c, g, -, -, -, hs, htop⟩ := hdir.children hwf
  exact (((htop b d).mpr hb).unique hs ((htop a e).mpr ha) hname).1

theorem Child.peer (hwf : Wf fs f) (hdir : Located keys f dir) (hb : Child keys f b e) :
    ∃ c, fs.heap.read b = some c ∧ c.data = e ∧
      (c.peer = none → ∀ a x, Child keys f a x → ¬e.iName < x.iName) ∧
      ∀ q, c.peer = some q → ∃ y, Child keys f q y ∧ e.iName < y.iName ∧
        ∀ a x, Child keys f a x → e.iName < x.iName → y.iName ≤ x.iName := by
  obtain ⟨-, g, -, -, hrep, hs, htop⟩ := hdir.children hwf
  obtain ⟨c, hr, hdata, hright⟩ := hrep.peer_of_top hs ((htop b e).mpr hb)
  refine ⟨c, hr, hdata, fun hpeer a x hx => ?_, fun q hpeer => ?_⟩
  · rw [hpeer] at hright
    exact hright a x ((htop a x).mpr hx)
  · rw [hpeer] at hright
    obtain ⟨y, hy, hlt, hmin⟩ := hright
    exact ⟨y, (htop q y).mp hy, hlt, fun a x hx => hmin a x ((htop a x).mpr hx)⟩

theorem Located.first (hwf : Wf fs f) (hdir : Located keys f dir) :
    ∃ c, fs.heap.read dir = some c ∧ (c.child = none → ∀ a x, ¬Child keys f a x) ∧
      ∀ q, c.child = some q → ∃ y, Child keys f q y ∧
        ∀ a x, Child keys f a x → y.iName ≤ x.iName := by
  obtain ⟨c, g, hr, hchild, -, hs, htop⟩ := hdir.children hwf
  refine ⟨c, hr, fun hnone a x hx => ?_, fun q hq => ?_⟩
  · have hx := (htop a x).mpr hx
    cases g with
    | nil => exact hx
    | cons b y ch pe => rw [hchild] at hnone; cases hnone
  · rw [hchild] at hq
    cases g with
    | nil => cases hq
    | cons b y ch pe =>
      obtain rfl := some.inj hq
      refine ⟨y, (htop b y).mp (Or.inl ⟨rfl, rfl⟩), fun a x hx => ?_⟩
      rcases (htop a x).mpr hx with ⟨-, rfl⟩ | hx
      · exact le_refl _
      · exact le_of_lt (hs.1 _ hx.key_mem)

/-! ## Changes of the data -/

variable {φ : Addr → Inode → Inode} {dirpath : List Char}

theorem Located.mapAt (hname : ∀ c x, (φ c x).iName = x.iName)
    (htype : ∀ c x, (φ c x).isMountpt = x.isMountpt) (hdir : Located keys f dir) :
    Located keys (f.mapAt φ) dir := by
  obtain ⟨d, hat, hd⟩ := hdir
  exact ⟨φ dir d, hat.mapAt hname htype, by rw [htype]; exact hd⟩

theorem Child.mapAt (hname : ∀ c x, (φ c x).iName = x.iName) (hc : Child keys f b e) :
    Child keys (f.mapAt φ) b (φ b e) := by
  unfold Child
  rw [hname]
  exact Forest.At.mapAt hname (fun _ _ => rfl) hc

theorem Gone.congr (hg : Gone heap f a e)
    (hkeep : ∀ b, heap.read b ≠ none → b ∉ f.addrs → heap'.read b = heap.read b)
    (hnew : ∀ b ∈ f'.addrs, b ∈ f.addrs ∨ heap.read b = none) : Gone heap' f' a e := by
  obtain ⟨ch, hrep, hnd, hout⟩ := hg
  have hsome : ∀ b ∈ (Forest.cons a e ch .nil).addrs, heap.read b ≠ none := by
    intro b hb hnone
    obtain ⟨c, hr⟩ := hrep.read hb
    rw [hnone] at hr
    cases hr
  refine ⟨ch, hrep.congr fun b hb => hkeep b (hsome b hb) (hout b hb), hnd, fun b hb hb' => ?_⟩
  rcases hnew b hb' with hf | hnone
  · exact hout b hb hf
  · exact hsome b hb hnone

/-! ## Creation -/

theorem reserveLoop_outside {name : List Char} (hf : Stores heap root (K.fill g)) (hK : K ≠ .top)
    (h : reserveLoop root answers heap name K.left K.above = some (ret, node, fs'))
    (hsome : heap.read b ≠ none) (hout : b ∉ (K.fill g).addrs) :
    fs'.heap.read b = heap.read b := by
  induction answers generalizing heap name K g with
  | nil =>
    obtain ⟨-, -, rfl⟩ := Prod.mk.inj (some.inj h) |>.imp_right Prod.mk.inj
    rfl
  | cons answer answers ih =>
    unfold reserveLoop at h
    by_cases hfree : answer < heap.size ∧ heap.read answer = none
    · rw [inodeAlloc, if_pos hfree] at h
      have hctx : answer ∉ K.addrs := fun hmem =>
        hf.not_mem_of_free hfree.2 (Ctx.mem_addrs_fill.mpr (Or.inl hmem))
      obtain ⟨heap', hrel, -, hf', hkeep⟩ :=
        hf.insert hK hfree.2 hfree.1 (Inode.fresh (inodeNamecpy name))
      have hins := inodeInsert_eq (d := Inode.fresh (inodeNamecpy name)) (rep_fill.mp hf.rep).1
        hfree.1 hctx
      simp only [hins, hrel, bind_eq_bind, bind_some] at h
      have hne : b ≠ answer := by
        rintro rfl
        exact hsome hfree.2
      have hout' := hout
      rw [Ctx.mem_addrs_fill, not_or] at hout'
      have hb : heap'.read b = heap.read b := hkeep b hne hout'.1
      by_cases hnext : inodeNextname name = []
      · rw [if_neg (not_not.mpr hnext)] at h
        obtain ⟨-, -, rfl⟩ := Prod.mk.inj (some.inj h) |>.imp_right Prod.mk.inj
        exact hb
      · rw [if_pos hnext] at h
        have hrest := ih (K := .child K answer (Inode.fresh (inodeNamecpy name)) g) (g := .nil) hf'
          (by intro hc; cases hc) h (by rw [hb]; exact hsome) (by
            show b ∉ (K.fill (.cons answer _ .nil g)).addrs
            rw [Ctx.mem_addrs_fill, not_or]
            refine ⟨hout'.1, fun hmem => ?_⟩
            rcases mem_cons.mp hmem with he | hmem
            · exact hne he
            · exact hout'.2 hmem)
        rw [hrest, hb]
    · rw [inodeAlloc, if_neg hfree] at h
      obtain ⟨-, -, rfl⟩ := Prod.mk.inj (some.inj h) |>.imp_right Prod.mk.inj
      rfl

theorem inodeReserve_outside (hf : Linked fs f) (hs : seek f path = .miss rest K g)
    (hpath : path ≠ []) (h : inodeReserve fs path answers = some (ret, node, fs'))
    (hsome : fs.heap.read b ≠ none) (hout : b ∉ f.addrs) :
    fs'.heap.read b = fs.heap.read b := by
  obtain ⟨desc, hsearch, hden⟩ := inodeSearch_spec hf hs
  obtain ⟨hret, -, hpeer, hparent, -⟩ := hden
  obtain ⟨rfl, -, -⟩ := seek_miss hs
  have hneg : ¬(-ENOENT : Int) ≥ 0 := by decide
  simp only [inodeReserve, if_neg hpath, hsearch, bind_eq_bind, bind_some, hret,
    if_neg hneg, hpeer, hparent] at h
  exact reserveLoop_outside hf.stores (rooted_of_seek_miss hf.rooted hs).1 h hsome hout

theorem mem_addrs_grown {as : List Addr}
    (hb : b ∈ (K.fill (sprout Inode.fresh rest as g)).addrs) : b ∈ (K.fill g).addrs ∨ b ∈ as := by
  obtain ⟨e, ks, hat⟩ := @exists_at_of_mem _ _ Inode.iName _ _ hb
  rcases at_fill_cases g hat with hold | ⟨hopen, t, -, hnew⟩
  · exact Or.inl hold.mem_addrs
  · rcases at_of_sprout (fun _ => rfl) hnew with hold | ⟨has, -⟩
    · exact Or.inl (at_fill hopen hold).mem_addrs
    · exact Or.inr has

theorem create_spec (hwf : Wf fs f) (h : inodeReserve fs path answers = some (ret, node, fs')) :
    ∃ f', Wf fs' f' ∧
      (∀ stop b e ks, f.At Inode.iName stop b e ks → f'.At Inode.iName stop b e ks) ∧
      (∀ b ∈ f'.addrs, b ∈ f.addrs ∨ fs.heap.read b = none) ∧
      ∀ b, fs.heap.read b ≠ none → b ∉ f.addrs → fs'.heap.read b = fs.heap.read b := by
  by_cases hpath : path = []
  · rw [inodeReserve, if_pos hpath] at h
    cases h
    exact ⟨f, hwf, fun _ _ _ _ hat => hat, fun _ hb => Or.inl hb, fun _ _ _ => rfl⟩
  · cases hs : seek f path with
    | hit rest K a d ch pe =>
      rw [inodeReserve_hit hwf.linked hpath hs] at h
      cases h
      exact ⟨f, hwf, fun _ _ _ _ hat => hat, fun _ hb => Or.inl hb, fun _ _ _ => rfl⟩
    | miss rest K g =>
      obtain ⟨f', hwf'⟩ := hwf.reserve h
      obtain ⟨ret', node', fs'', as, hrun, hf', hres⟩ :=
        inodeReserve_miss hwf.linked hpath hs answers
      have hfs : fs'' = fs' := by
        rw [h] at hrun
        exact (Prod.mk.inj (Prod.mk.inj (some.inj hrun)).2).2.symm
      rw [hfs] at hf'
      obtain rfl := hwf'.linked.unique hf'
      refine ⟨_, hwf', ?_, ?_, fun b => inodeReserve_outside hwf.linked hs hpath h⟩
      · intro stop b e ks hat
        rw [(seek_miss hs).1] at hat
        exact at_fill_mono (fun _ ht => sprout_subset Inode.fresh rest as ht) hat
      · intro b hb
        rw [(seek_miss hs).1]
        exact (mem_addrs_grown hb).imp_right (hres.fresh b)

/-! ## Removal -/

theorem inodeRemove_outside (hf : Linked fs f) (hs : seek f path = .hit rest K a d ch pe)
    (hK : K ≠ .top) (h : inodeRemove fs path = some (ret, fs')) :
    (∀ b, b ∉ f.addrs → fs'.heap.read b = fs.heap.read b) ∧
      (d.iCrefs ≠ 0 → ∀ b ∈ ch.addrs, fs'.heap.read b = fs.heap.read b) := by
  obtain ⟨fs₁, hunlink, -, -, hra, hkeep⟩ := inodeUnlink_hit hf hs hK
  obtain ⟨rfl, -, -⟩ := seek_hit hs
  obtain ⟨-, -, hrc, -⟩ := rep_fill.mp hf.stores.rep
  have hap := hf.stores.apart
  have hout : ∀ b, b ∉ (K.fill (.cons a d ch pe)).addrs → b ∉ K.addrs ∧ b ≠ a ∧ b ∉ ch.addrs := by
    intro b hb
    rw [Ctx.mem_addrs_fill, not_or] at hb
    simp only [Forest.addrs, mem_cons, mem_append, not_or] at hb
    exact ⟨hb.1, hb.2.1, hb.2.2.1⟩
  have hchild : ∀ b ∈ ch.addrs, b ∉ K.addrs ∧ b ≠ a := by
    intro b hb
    refine ⟨hap.child_ctx b hb, ?_⟩
    rintro rfl
    exact hap.node_child hb
  by_cases hz : d.iCrefs = 0
  · refine ⟨fun b hb => ?_, fun hnz => absurd hz hnz⟩
    have hrep : Rep fs₁.heap none (.cons a d ch .nil) :=
      ⟨hra, hrc.congr fun b hb => hkeep b (hchild b hb).1 (hchild b hb).2, trivial⟩
    have hnd : (Forest.cons a d ch .nil).addrs.Nodup := by
      rw [Forest.addrs, Forest.addrs, append_nil]
      exact nodup_cons.mpr ⟨hap.node_child, hap.child_nodup⟩
    obtain ⟨heap', hfree, -, hread⟩ :=
      inodeFree_spec fs₁.heap.size hrep hnd (hrep.height_le hnd)
    have hfree' : inodeFree fs₁.heap.size fs₁.heap (some a) = some heap' := hfree
    have hz' : ¬d.iCrefs ≠ 0 := not_not.mpr hz
    simp only [inodeRemove, hunlink, bind_eq_bind, bind_some, hra, if_neg hz',
      hfree'] at h
    cases h
    obtain ⟨hbK, hba, hbc⟩ := hout b hb
    have hsub : b ∉ (Forest.cons a d ch .nil).addrs := by
      rw [Forest.addrs, Forest.addrs, append_nil, mem_cons, not_or]
      exact ⟨hba, hbc⟩
    rw [hread, if_neg hsub, hkeep b hbK hba]
  · simp only [inodeRemove, hunlink, bind_eq_bind, bind_some, hra,
      Heap.modify_of_read _ hra] at h
    rw [if_pos hz] at h
    cases h
    refine ⟨fun b hb => ?_, fun _ b hb => ?_⟩
    · obtain ⟨hbK, hba, -⟩ := hout b hb
      exact (Heap.read_put_ne _ hba).trans (hkeep b hbK hba)
    · obtain ⟨hbK, hba⟩ := hchild b hb
      exact (Heap.read_put_ne _ hba).trans (hkeep b hbK hba)

theorem remove_target (hwf : Wf fs f) (hdir : Located (pathKeys dirpath) f dir)
    (hin : (DirEvent.remove path).Inside dirpath) (hs : seek f path = .hit rest K a d ch pe) :
    K ≠ .top ∧ ¬K.keys Inode.iName ++ [d.iName] <+: pathKeys dirpath := by
  obtain ⟨hfill, hroute, hend⟩ := seek_hit hs
  have hkeys := hroute.keys_eq
  have hnot : ¬K.keys Inode.iName ++ [d.iName] <+: pathKeys dirpath := by
    intro hpre
    rcases hend with rfl | hmount
    · have hsame : pathKeys path <+: pathKeys dirpath := by
        rw [hkeys]
        exact hpre
      exact hin.2 (hsame.eq_of_length (le_antisymm hsame.length_le hin.1.length_le))
    · -- a search for the directory would end at this mountpoint
      obtain ⟨t, ht⟩ := hpre
      obtain ⟨dd, hat, hpseudo⟩ := hdir
      obtain ⟨K', ch', pe', -, hwalk⟩ := walk_of_at hwf.sorted hat
      have hsorted := hwf.sorted
      rw [hfill] at hsorted
      have hroute' := route_of_sorted hsorted
        (show pathKeys dirpath = _ ++ _ :: t by rw [← ht, append_assoc]; rfl) (le_refl _)
        hroute.stop_spine
      rw [hfill, walk_eq_hit hroute' (Or.inr hmount)] at hwalk
      injection hwalk with _ _ _ hd
      rw [hd, hpseudo] at hmount
      cases hmount
  refine ⟨?_, hnot⟩
  rintro rfl
  have hroot : d.iName = [] := (List.cons.inj hkeys).1.symm
  refine hnot ?_
  rw [hroot]
  exact ⟨components dirpath, rfl⟩

theorem remove_spec (hwf : Wf fs f) (hdir : Located (pathKeys dirpath) f dir)
    (hin : (DirEvent.remove path).Inside dirpath) (h : inodeRemove fs path = some (ret, fs')) :
    ∃ f', Wf fs' f' ∧ Located (pathKeys dirpath) f' dir ∧
      (∀ b e, Child (pathKeys dirpath) f b e →
        Child (pathKeys dirpath) f' b e ∨ inodeAt fs path = some b) ∧
      (∀ b ∈ f'.addrs, b ∈ f.addrs) ∧ (∀ b, b ∉ f.addrs → fs'.heap.read b = fs.heap.read b) ∧
      ∀ a e, inodeAt fs path = some a → Child (pathKeys dirpath) f a e → e.iCrefs ≠ 0 →
        Gone fs'.heap f' a { e with deleted := true } := by
  obtain ⟨desc, hsearch, hden⟩ := inodeSearch_spec hwf.linked (rfl : seek f path = _)
  have hfound : inodeAt fs path = desc.node := by
    unfold inodeAt
    rw [hsearch]
    rfl
  cases hs : seek f path with
  | miss rest K g =>
    rw [hs] at hden
    rw [inodeRemove_miss hwf.linked hs] at h
    cases h
    refine ⟨f, hwf, hdir, fun _ _ hb => Or.inl hb, fun _ hb => hb, fun _ _ => rfl, ?_⟩
    intro a e ha
    rw [hfound, hden.2.1] at ha
    cases ha
  | hit rest K a d ch pe =>
    obtain ⟨hK, hbelow⟩ := remove_target hwf hdir hin hs
    rw [hs] at hden
    rw [hden.2.1] at hfound
    obtain ⟨hkeep, hkept⟩ := inodeRemove_outside hwf.linked hs hK h
    obtain ⟨fs'', hrun, hf', hmark, -⟩ := inodeRemove_hit hwf.linked hs hK
    have hfs : fs'' = fs' := by
      rw [hrun] at h
      exact (Prod.mk.inj (some.inj h)).2
    rw [hfs] at hf' hmark
    obtain ⟨rfl, -, -⟩ := seek_hit hs
    have hap := hwf.linked.stores.apart
    have hsub : ∀ b ∈ (K.fill pe).addrs, b ∈ (K.fill (.cons a d ch pe)).addrs := by
      intro b hb
      rw [Ctx.mem_addrs_fill] at hb ⊢
      exact hb.imp_right fun hb => mem_cons_of_mem _ (mem_append_right _ hb)
    have hself : Forest.At Inode.iName (fun _ => false) a d
        (K.keys Inode.iName ++ [d.iName]) (K.fill (.cons a d ch pe)) :=
      at_fill (fun _ _ => rfl) (Or.inl ⟨rfl, rfl, rfl⟩)
    refine ⟨K.fill pe, hwf.unlink hs hK hf', ?_, ?_, hsub, hkeep, ?_⟩
    · obtain ⟨dd, hat, hpseudo⟩ := id hdir
      exact ⟨dd, (at_unlink hat).resolve_right hbelow, hpseudo⟩
    · intro b e hb
      rcases at_unlink hb with hb' | hpre
      · exact Or.inl hb'
      · refine Or.inr ?_
        rcases prefix_concat_iff.mp hpre with heq | hpre
        · -- the inode taken out is at the entry's place
          have hname : d.iName = e.iName := by
            have := append_inj_right' heq rfl
            exact (List.cons.inj this).1
          have ha : Child (pathKeys dirpath) (K.fill (.cons a d ch pe)) a d := by
            unfold Child
            rw [hname, ← heq]
            exact hself
          rw [hfound, ha.unique hwf hdir hb hname]
        · exact absurd hpre hbelow
    · intro b e hb hc hcrefs
      rw [hfound] at hb
      obtain rfl := some.inj hb
      obtain rfl : e = d := (at_unique hwf.linked.stores.nodup hc hself).2
      obtain ⟨-, -, hrc, -⟩ := rep_fill.mp hwf.linked.stores.rep
      refine ⟨ch, ⟨hmark hcrefs, hrc.congr (hkept hcrefs), trivial⟩, ?_, ?_⟩
      · rw [Forest.addrs, Forest.addrs, append_nil]
        exact nodup_cons.mpr ⟨hap.node_child, hap.child_nodup⟩
      · intro b hb hb'
        rw [Forest.addrs, Forest.addrs, append_nil] at hb
        rcases mem_cons.mp hb with rfl | hb
        · exact (hap.not_mem hb').1 rfl
        · exact (hap.not_mem hb').2 hb

/-! ## Releasing -/

theorem inodeRelease_gone (hf : Linked fs f) (hg : Gone fs.heap f a e) :
    ∃ fs', inodeRelease fs a = some fs' ∧ Linked fs' f := by
  obtain ⟨ch, hrep, hnd, hout⟩ := hg
  exact inodeRelease_outside hf hrep hnd hout

end

end Gpmx.PseudoFs
