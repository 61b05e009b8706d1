import Gpmx.PseudoFs.Links

/-!
# Taking inodes out

`inode_remove` and the last section of `pseudorename`, by the links and the counts of the inodes.
-/

namespace Gpmx.PseudoFs

open Infra Option Heap

def Finds (fs : Fs) (path : List Char) (a : Addr) : Prop :=
  ∃ desc, inodeSearch fs path = some desc ∧ desc.ret ≥ 0 ∧ desc.node = some a

variable {fs : Fs} {path : List Char} {a : Addr} {heap : Heap Inode} {fs' : Fs} {desc : SearchDesc}
    {ret : Int}

variable {b : Addr} {heap' : Heap Inode} {node : Option Addr} {n : Addr} {c : Cell Inode}

theorem Finds.unique (h : Finds fs path a) (h' : Finds fs path b) : a = b := by
  obtain ⟨desc, hsearch, -, hnode⟩ := h
  obtain ⟨desc', hsearch', -, hnode'⟩ := h'
  rw [hsearch] at hsearch'
  cases hsearch'
  rw [hnode] at hnode'
  exact some.inj hnode'

theorem Finds.fromRoot (h : Finds fs path a) : FromRoot fs.target a := by
  obtain ⟨desc, hsearch, hret, hnode⟩ := h
  obtain ⟨hfound, hhit⟩ := inodeSearch_links hsearch
  obtain ⟨b, hb, htarget⟩ := hhit hret
  rw [hnode] at hb
  cases hb
  generalize linkAt desc.peer desc.parent = k at hfound htarget
  cases k with
  | root => exact .root htarget
  | child m | peer m => exact .step (hfound m rfl) rfl htarget

theorem searchLoop_congr
    (hsame : ∀ b, (heap'.read b).map (fun c => (c.child, c.peer, c.data.iName, c.data.isMountpt)) = (heap.read b).map (fun c => (c.child, c.peer, c.data.iName, c.data.isMountpt)))
    (fuel : Nat) (name : List Char) (node left above : Option Addr) :
    searchLoop heap' fuel name node left above = searchLoop heap fuel name node left above := by
  induction fuel generalizing name node left above with
  | zero => rfl
  | succ fuel ih =>
    cases node with
    | none => rfl
    | some b =>
      have hb := hsame b
      rw [searchLoop, searchLoop]
      cases hr : heap.read b with
      | none =>
        rw [hr, map_none, map_eq_none_iff] at hb
        rw [hb]
      | some c =>
        rw [hr, map_some, map_eq_some_iff] at hb
        obtain ⟨c', hr', heq⟩ := hb
        simp only [Prod.mk.injEq] at heq
        obtain ⟨hchild, hpeer, hname, htype⟩ := heq
        rw [hr']
        simp only [hchild, hpeer, hname, htype, ih]

theorem Finds.of_addref (h : fs.onInode b Inode.addref = some fs') (hfinds : Finds fs' path a) :
    Finds fs path a := by
  obtain ⟨desc, hsearch, hfound⟩ := hfinds
  refine ⟨desc, ?_, hfound⟩
  obtain ⟨heap, hmodify, h⟩ := bind_eq_some_iff.mp h
  cases h
  obtain ⟨c, hr, rfl⟩ := read_of_modify hmodify
  have hloop := searchLoop_congr fun d => show
      ((fs.heap.put b (some { c with data := c.data.addref })).read d).map _ = (fs.heap.read d).map _ by
    by_cases hd : d = b
    · subst hd
      rw [read_put_self _ (lt_size_of_read hr), hr]
      rfl
    · rw [read_put_ne _ hd]
  rw [← hsearch]
  simp only [inodeSearch, inodeSearchAbs, size_put, hloop]

/-! ## Finding -/

/-- **`inode_find` raises the count of what it finds.** -/
theorem inodeFind_links (h : inodeFind fs path = some (desc, fs')) :
    (desc.ret < 0 ∧ fs' = fs) ∨
      desc.ret ≥ 0 ∧ ∃ a, desc.node = some a ∧ Finds fs path a ∧ fs.onInode a Inode.addref = some fs' := by
  obtain ⟨found, hsearch, h⟩ := bind_eq_some_iff.mp h
  split at h
  · next hret =>
    obtain ⟨a, hnode, h⟩ := bind_eq_some_iff.mp h
    obtain ⟨fs₁, honInode, h⟩ := bind_eq_some_iff.mp h
    cases h
    exact .inr ⟨hret, a, hnode, ⟨_, hsearch, hret, hnode⟩, honInode⟩
  · next hret =>
    cases h
    exact .inl ⟨Int.not_le.mp hret, rfl⟩

/-! ## Removing -/

theorem inodeUnlink_links (hsearch : inodeSearch fs path = some desc)
    (h : inodeUnlink fs path = some (node, fs')) :
    (desc.ret < 0 ∧ node = none ∧ fs' = fs) ∨
      desc.ret ≥ 0 ∧ ∃ a, desc.node = some a ∧ node = some a ∧
        fs.target (linkAt desc.peer desc.parent) = some a ∧ fs'.data = fs.data ∧
        fs'.target = fun l => if l = .peer a then none
          else if l = linkAt desc.peer desc.parent then fs.target (.peer a) else fs.target l := by
  obtain ⟨desc', hsearch', h⟩ := bind_eq_some_iff.mp h
  rw [hsearch] at hsearch'
  cases hsearch'
  split at h
  · next hret =>
    obtain ⟨a, hnode, h⟩ := bind_eq_some_iff.mp h
    obtain ⟨c, hr, h⟩ := bind_eq_some_iff.mp h
    obtain ⟨heap₁, hrelink, h⟩ := bind_eq_some_iff.mp h
    obtain ⟨heap₂, hmodify, h⟩ := bind_eq_some_iff.mp h
    cases h
    obtain ⟨b, hb, htarget⟩ := (inodeSearch_links hsearch).2 hret
    rw [hnode] at hb
    cases hb
    have hpeer : fs.target (.peer a) = c.peer := by
      rw [Fs.target, hr]
      rfl
    obtain ⟨htarget₁, hdata₁⟩ := relink_links fs hrelink
    obtain ⟨htarget₂, hdata₂⟩ := Fs.modify_turn (o := none) ⟨heap₁, fs.root⟩ hmodify (fun _ => rfl)
      (fun _ => .inr ⟨rfl, rfl, rfl⟩)
    refine .inr ⟨hret, a, hnode, rfl, htarget, hdata₂.trans hdata₁, ?_⟩
    rw [hpeer]
    exact htarget₂.trans (by rw [htarget₁])
  · next hret =>
    cases h
    exact .inl ⟨Int.not_le.mp hret, rfl, rfl⟩

theorem inodeRemove_found {d : Inode} (hsearch : inodeSearch fs path = some desc)
    (hret : desc.ret ≥ 0) (hnode : desc.node = some a) (hd : fs.data a = some d)
    (hchild : d.iCrefs = 0 → fs.target (.child a) = none)
    (h : inodeRemove fs path = some (ret, fs')) :
    fs.target (linkAt desc.peer desc.parent) = some a ∧
      (fs'.target = fun l => if l = .peer a then none
        else if l = linkAt desc.peer desc.parent then fs.target (.peer a) else fs.target l) ∧
      (∀ b, b ≠ a → fs'.data b = fs.data b) ∧
      fs'.data a = (if d.iCrefs = 0 then none else some { d with deleted := true }) ∧
      ret = if d.iCrefs = 0 then 0 else -EBUSY := by
  obtain ⟨⟨node, fs₁⟩, hunlink, h⟩ := bind_eq_some_iff.mp h
  rcases inodeUnlink_links hsearch hunlink with ⟨hneg, -⟩ | ⟨-, b, hb, hnode', htarget, hdata₁, htarget₁⟩
  · omega
  rw [hnode] at hb
  cases hb
  subst hnode'
  obtain ⟨c, hr, h⟩ := bind_eq_some_iff.mp h
  have hc : c.data = d := by
    have hread := Fs.data_of_read hr
    rw [hdata₁, hd] at hread
    exact (some.inj hread).symm
  have hd₁ : fs₁.data a = some d := by rw [hdata₁, hd]
  rw [hc] at h
  split at h
  · next hbusy =>
    obtain ⟨heap, hmodify, h⟩ := bind_eq_some_iff.mp h
    cases h
    have hmark : fs₁.onInode a (fun d => { d with deleted := true }) = some ⟨heap, fs₁.root⟩ := by
      unfold Fs.onInode
      rw [hmodify]
      rfl
    obtain ⟨htarget₂, e, he, he', hsame⟩ := Fs.onInode_links hmark
    rw [hd₁] at he
    cases he
    rw [if_neg hbusy, if_neg hbusy]
    refine ⟨htarget, htarget₂.trans htarget₁, fun b hb => ?_, he', rfl⟩
    rw [hsame b hb, hdata₁]
  · next hfree =>
    have hzero : d.iCrefs = 0 := not_not.mp hfree
    obtain ⟨heap, hfree, h⟩ := bind_eq_some_iff.mp h
    cases h
    have hchild₁ : fs₁.target (.child a) = none := by
      rw [htarget₁]
      dsimp only
      rw [if_neg (by simp), if_neg, hchild hzero]
      intro hk
      rw [← hk, hchild hzero] at htarget
      cases htarget
    have hpeer₁ : fs₁.target (.peer a) = none := by
      rw [htarget₁]
      exact if_pos rfl
    obtain ⟨htarget₂, hgone, hsame⟩ := inodeFree_bare hd₁ hchild₁ hpeer₁ hfree
    rw [if_pos hzero, if_pos hzero]
    refine ⟨htarget, htarget₂.trans htarget₁, fun b hb => ?_, hgone, rfl⟩
    rw [hsame b hb, hdata₁]

/-- **`inode_remove` of an inode without children keeps the links in order**, and the counts. The inode
is freed if it has no references. -/
theorem inodeRemove_links (hfs : fs.Tidy)
    (hleaf : ∀ a, Finds fs path a → fs.target (.child a) = none)
    (h : inodeRemove fs path = some (ret, fs')) :
    fs'.Tidy ∧ (∀ a, fs'.crefs a = fs.crefs a) ∧
      ∀ a, fs'.data a = none → fs.data a = none ∨ Finds fs path a ∧ fs.crefs a = 0 := by
  have hremove := h
  obtain ⟨⟨node, fs₁⟩, hunlink, hrest⟩ := bind_eq_some_iff.mp hremove
  have hunlink' := hunlink
  obtain ⟨desc, hsearch, -⟩ := bind_eq_some_iff.mp hunlink'
  rcases inodeUnlink_links hsearch hunlink with ⟨-, hnode, hsame⟩ | ⟨hret, a, hnode, -⟩
  · -- nothing is there
    subst hnode hsame
    cases hrest
    exact ⟨hfs, fun _ => rfl, fun a ha => .inl ha⟩
  · have hfinds : Finds fs path a := ⟨desc, hsearch, hret, hnode⟩
    obtain ⟨d, hd, -⟩ := hfinds.fromRoot.mem hfs
    obtain ⟨htarget, htarget', hsame, hdata, -⟩ :=
      inodeRemove_found hsearch hret hnode hd (fun _ => hleaf a hfinds) h
    refine ⟨(hfs.cut htarget (hleaf a hfinds)).congr (congrFun htarget') fun b => ?_, fun b => ?_,
      fun b hb => ?_⟩
    · by_cases hb : b = a
      · subst hb
        unfold Fs.Inside
        rw [hdata]
        split_ifs <;> simp
      · unfold Fs.Inside
        rw [hsame b hb]
        exact ⟨fun hin => ⟨hb, hin⟩, fun hin => hin.2⟩
    · by_cases hb : b = a
      · subst hb
        rw [Fs.crefs_of_data hd]
        split_ifs at hdata with hzero
        · rw [Fs.crefs_of_none hdata, hzero]
        · rw [Fs.crefs_of_data hdata]
      · exact Fs.crefs_congr (hsame b hb)
    · by_cases hba : b = a
      · subst hba
        refine .inr ⟨hfinds, ?_⟩
        rw [Fs.crefs_of_data hd]
        by_contra hbusy
        rw [hdata, if_neg hbusy] at hb
        cases hb
      · exact .inl ((hsame b hba).symm.trans hb)

/-! ## Renaming -/

theorem searchLoop_leaf {c' : Cell Inode} {fuel : Nat} {name : List Char} {left above : Option Addr}
    (hn : heap.read n = some c) (hn' : heap'.read n = some c')
    (hother : ∀ b, b ≠ n → heap'.read b = heap.read b) (hname : c'.data.iName = c.data.iName)
    (hpeer : c'.peer = c.peer) (hchild : c.child = none)
    (h : searchLoop heap fuel name node left above = some desc) (hret : desc.ret ≥ 0)
    (hne : desc.node ≠ some n) : searchLoop heap' fuel name node left above = some desc := by
  induction fuel generalizing name node left above with
  | zero => cases h
  | succ fuel ih =>
    cases node with
    | none => exact h
    | some a =>
      rw [searchLoop] at h ⊢
      by_cases ha : a = n
      · subst ha
        rw [hn] at h
        rw [hn']
        dsimp only at h ⊢
        rw [hname]
        split_ifs at h with hlt hgt hend
        · exact absurd hret (by cases h; exact (show ¬-ENOENT ≥ 0 by decide))
        · rw [if_neg hlt, if_pos hgt, hpeer]
          exact ih h
        · cases h
          exact absurd rfl hne
        · -- the leaf is on the way, and there the search would have ended
          rw [hchild] at h
          cases fuel with
          | zero => cases h
          | succ fuel =>
            cases h
            exact absurd hret (show ¬-ENOENT ≥ 0 by decide)
      · rw [hother a ha]
        cases hr : heap.read a with
        | none =>
          rw [hr] at h
          cases h
        | some e =>
          rw [hr] at h
          dsimp only at h ⊢
          split_ifs at h ⊢
          · exact h
          · exact ih h
          · exact h
          · exact ih h

theorem Finds.leaf (h : Finds fs path a) (c' : Cell Inode) (hn : fs.heap.read n = some c)
    (hname : c'.data.iName = c.data.iName) (hpeer : c'.peer = c.peer) (hchild : c.child = none)
    (hne : a ≠ n) :
    ∃ desc, inodeSearch fs path = some desc ∧
      inodeSearch { fs with heap := fs.heap.put n (some c') } path = some desc ∧ desc.ret ≥ 0 ∧
      desc.node = some a := by
  obtain ⟨desc, hsearch, hret, hnode⟩ := h
  refine ⟨desc, hsearch, ?_, hret, hnode⟩
  unfold inodeSearch at hsearch ⊢
  generalize (if path.head? = some '/' then path else '/' :: '/' :: path) = absolute at hsearch ⊢
  unfold inodeSearchAbs at hsearch ⊢
  by_cases habsolute : absolute.head? = some '/'
  · rw [if_pos habsolute] at hsearch ⊢
    rw [size_put]
    refine searchLoop_leaf hn (read_put_self _ (lt_size_of_read hn))
      (fun b hb => read_put_ne _ hb) hname hpeer hchild hsearch hret ?_
    rw [hnode]
    simpa using hne
  · rw [if_neg habsolute] at hsearch ⊢
    exact hsearch

/-- When the new inode is in the tree, the old path leads to the inode that `rename` has looked up. -/
def StillFinds (fs : Fs) (oldpath : List Char) (oldinode : Addr) (newpath : List Char)
    (answers : List Addr) : Prop :=
  ∀ ret n fs₁, inodeReserve fs newpath answers = some (ret, some n, fs₁) → Finds fs₁ oldpath oldinode

section Moving

variable {fs fs' : Fs} {oldpath : List Char} {n oldinode : Addr} {cn o : Cell Inode} {ret : Int}

def Fs.copied (fs : Fs) (n : Addr) (cn o : Cell Inode) : Fs :=
  { fs with heap := fs.heap.put n (some { cn with child := o.child, data := o.data.copied cn.data }) }

theorem inodeRemove_copied (hrn : fs.heap.read n = some cn) (ho : fs.heap.read oldinode = some o)
    (hne : oldinode ≠ n) (hcn : cn.child = none) (hcrefs : o.data.iCrefs ≠ 0)
    (hfind : Finds fs oldpath oldinode)
    (h : inodeRemove (fs.copied n cn o) oldpath = some (ret, fs')) :
    ret = -EBUSY ∧
      (∃ k, fs.target k = some oldinode ∧
        fs'.target = fun l => if l = .peer oldinode then none
          else if l = k then fs.target (.peer oldinode)
          else if l = .child n then fs.target (.child oldinode) else fs.target l) ∧
      fs'.data oldinode = some { o.data with deleted := true } ∧
      fs'.data n = some (o.data.copied cn.data) ∧
      ∀ b, b ≠ oldinode → b ≠ n → fs'.data b = fs.data b := by
  obtain ⟨desc, hsearch, hsearch', hret, hnode⟩ := hfind.leaf
    { cn with child := o.child, data := o.data.copied cn.data } hrn rfl rfl hcn hne
  change inodeSearch (fs.copied n cn o) oldpath = some desc at hsearch'
  have htarget : (fs.copied n cn o).target
      = fun l => if l = .child n then o.child else fs.target l :=
    Fs.target_put_turn hrn (.inl ⟨rfl, rfl, rfl⟩)
  have hother : ∀ b, b ≠ n → (fs.copied n cn o).data b = fs.data b := fun b hb => Fs.data_put_ne _ hb
  have hd : (fs.copied n cn o).data oldinode = some o.data := by
    rw [hother oldinode hne]
    exact Fs.data_of_read ho
  obtain ⟨-, htarget', hsame, hdata, hret'⟩ :=
    inodeRemove_found hsearch' hret hnode hd (fun hzero => absurd hzero hcrefs) h
  rw [if_neg hcrefs] at hdata hret'
  obtain ⟨a, ha, hk⟩ := (inodeSearch_links hsearch).2 hret
  rw [hnode] at ha
  cases ha
  have hchild : fs.target (.child oldinode) = o.child := by
    rw [Fs.target, ho]
    rfl
  refine ⟨hret', ⟨_, hk, ?_⟩, hdata, ?_, fun b hb hbn => ?_⟩
  · rw [htarget', htarget, hchild]
    simp
  · rw [hsame n hne.symm]
    exact Fs.data_put_self (lt_size_of_read hrn)
  · rw [hsame b hb, hother b hbn]

theorem tidy_moved (hfs : fs.Tidy) (hrn : fs.heap.read n = some cn)
    (ho : fs.heap.read oldinode = some o) (hne : oldinode ≠ n) (hcn : cn.child = none)
    (hlive : cn.data.deleted = false) (hcrefs : o.data.iCrefs ≠ 0)
    (hfind : Finds fs oldpath oldinode)
    (h : inodeRemove (fs.copied n cn o) oldpath = some (ret, fs'))
    (hclear : fs'.heap.modify oldinode (fun o => { o with child := none, parent := none }) = some heap) :
    Fs.Tidy ⟨heap, fs'.root⟩ ∧ (∀ a, Fs.crefs ⟨heap, fs'.root⟩ a = fs.crefs a) ∧
      ∀ a, Fs.data ⟨heap, fs'.root⟩ a = none → fs.data a = none := by
  obtain ⟨-, ⟨k, hk, htarget⟩, hold, hnew, hother⟩ :=
    inodeRemove_copied hrn ho hne hcn hcrefs hfind h
  obtain ⟨htarget', hdata'⟩ := Fs.modify_turn (o := none) fs' hclear (fun _ => rfl)
    (fun _ => .inl ⟨rfl, rfl, rfl⟩)
  have hrooted := hfind.fromRoot
  obtain ⟨d, hd, hdlive⟩ := hrooted.mem hfs
  rw [Fs.data_of_read ho] at hd
  cases hd
  have hnin : fs.Inside n := ⟨_, Fs.data_of_read hrn, hlive⟩
  have hkn : k ≠ .child n := by
    rintro rfl
    rw [Fs.target, hrn] at hk
    exact absurd (hk.symm.trans hcn) (by simp)
  have hko : k ≠ .child oldinode := by
    rintro rfl
    exact hrooted.not_self hfs rfl hk
  -- first the children go over, then the old inode is cut out
  have hwired := (hfs.transfer hnin oldinode).cut
    (show (if k = .child n then _ else if k = .child oldinode then none else fs.target k)
      = some oldinode by rw [if_neg hkn, if_neg hko, hk])
    (show (if Link.child oldinode = .child n then _ else if Link.child oldinode = .child oldinode then none
      else fs.target (.child oldinode)) = none by
      rw [if_neg (by simpa using hne), if_pos rfl])
  have hcell : ∀ b, Fs.data ⟨heap, fs'.root⟩ b = fs'.data b := congrFun hdata'
  refine ⟨hwired.congr (fun l => ?_) fun b => ?_, fun b => ?_, fun b hb => ?_⟩
  · rw [htarget', htarget]
    by_cases hlk : l = k
    · subst hlk
      simp [hko]
    · by_cases hlo : l = .child oldinode
      · subst hlo
        simp [hlk, hne]
      · simp [hlk, hlo]
  · unfold Fs.Inside
    rw [hcell]
    by_cases hb : b = oldinode
    · subst hb
      rw [hold]
      simp
    · by_cases hbn : b = n
      · subst hbn
        rw [hnew]
        exact iff_of_true ⟨_, rfl, hdlive⟩ ⟨hb, hnin⟩
      · rw [hother b hb hbn]
        exact ⟨fun hin => ⟨hb, hin⟩, fun hin => hin.2⟩
  · rw [Fs.crefs_congr (hcell b)]
    by_cases hb : b = oldinode
    · subst hb
      rw [Fs.crefs_of_data hold, Fs.crefs_of_data (Fs.data_of_read ho)]
    · by_cases hbn : b = n
      · subst hbn
        rw [Fs.crefs_of_data hnew, Fs.crefs_of_data (Fs.data_of_read hrn)]
        rfl
      · exact Fs.crefs_congr (hother b hb hbn)
  · rw [hcell] at hb
    by_cases hbo : b = oldinode
    · subst hbo
      rw [hold] at hb
      cases hb
    · by_cases hbn : b = n
      · subst hbn
        rw [hnew] at hb
        cases hb
      · rw [← hother b hbo hbn, hb]

end Moving

/-- **The last section of `pseudorename` keeps the links in order**, and the counts, and frees nothing,
where the old inode is referenced. -/
theorem moveInode_links {oldpath newpath : List Char} {oldinode : Addr} {answers : List Addr}
    (hfs : fs.Tidy) (hheld : 0 < fs.crefs oldinode)
    (hfinds : StillFinds fs oldpath oldinode newpath answers)
    (h : moveInode fs oldpath oldinode newpath answers = some (ret, fs')) :
    fs'.Tidy ∧ (∀ a, fs'.crefs a = fs.crefs a) ∧ ∀ a, fs'.data a = none → fs.data a = none := by
  obtain ⟨⟨ret₁, node, fs₁⟩, hreserve, h⟩ := bind_eq_some_iff.mp h
  obtain ⟨hfs₁, henlarged, hreserves⟩ := inodeReserve_links hfs hreserve
  dsimp only at h
  rcases hreserves with ⟨hneg, -⟩ | ⟨hzero, n, name, hnode, hnone, hfresh, hleaf⟩
  · rw [if_pos hneg] at h
    cases h
    exact ⟨hfs₁, henlarged.crefs, fun a => henlarged.kept⟩
  · subst hnode
    rw [if_neg (by omega)] at h
    obtain ⟨_, hn, h⟩ := bind_eq_some_iff.mp h
    cases hn
    obtain ⟨o, ho, h⟩ := bind_eq_some_iff.mp h
    obtain ⟨heap₂, hmodify, h⟩ := bind_eq_some_iff.mp h
    obtain ⟨cn, hrn, rfl⟩ := read_of_modify hmodify
    obtain ⟨⟨ret₃, fs₃⟩, hremove, h⟩ := bind_eq_some_iff.mp h
    have hfind := hfinds ret₁ n fs₁ hreserve
    have hne : oldinode ≠ n := by
      rintro rfl
      rw [Fs.crefs_of_none hnone] at hheld
      omega
    have hold := Fs.data_of_read ho
    have hcrefs : o.data.iCrefs ≠ 0 := by
      rw [← henlarged.crefs, Fs.crefs_of_data hold] at hheld
      omega
    have hcn : cn.child = none := by
      rw [Fs.target, hrn] at hleaf
      exact hleaf
    have hlive : cn.data.deleted = false := by
      rw [Fs.data_of_read hrn] at hfresh
      rw [some.inj hfresh]
      rfl
    obtain ⟨hret₃, -⟩ := inodeRemove_copied hrn ho hne hcn hcrefs hfind hremove
    rw [if_neg (fun hfails => hfails.2 hret₃)] at h
    obtain ⟨heap, hclear, h⟩ := bind_eq_some_iff.mp h
    cases h
    obtain ⟨htidy, hsame, hnothing⟩ := tidy_moved hfs₁ hrn ho hne hcn hlive hcrefs hfind hremove hclear
    exact ⟨htidy, fun a => (hsame a).trans (henlarged.crefs a), fun a ha => henlarged.kept (hnothing a ha)⟩

end Gpmx.PseudoFs
