import Gpmx.PseudoFs.MountAtomic

/-!
# A mount and its unmount

`nx_umount2` takes a mountpoint without children out of the tree, whether or not it was there
before the mount, and only takes off the reference it has itself taken from one with children. So
the two calls give back the namespace exactly when `nx_mount` has made the target, and nothing
above it (`mount_umount_iff`).
-/

namespace Gpmx.PseudoFs

open Infra Option Forest
open Inode (addref dropref mounted unmounted)

/--
What is asked of the methods of the filesystem: unbinding what was bound succeeds, and gives back
the driver that was handed over.
-/
def Unbinds (t : Tables) (m : Nat) (drvr : Option Addr) (data : Option Nat) (flags : Nat) : Prop :=
  ∀ bind, (t.mops m).bind = some bind → 0 ≤ (bind drvr data).1 →
    ∃ unbind, (t.mops m).unbind = some unbind ∧ unbind (bind drvr data).2 flags = (0, drvr)

theorem mild_mounted (m : Nat) (fshandle : Option Nat) : Mild (mounted m fshandle) :=
  fun _ => ⟨rfl, rfl⟩

theorem mild_unmounted : Mild unmounted := fun _ => ⟨rfl, rfl⟩

section

variable {cfg : Config} {t : Tables} {fs fs₁ fs' : Fs} {f X : Forest Inode} {target : List Char}
  {flags : Nat} {data : Option Nat} {answers : List Addr} {drvr : Option Addr} {m : Nat} {K : Ctx Inode} {a : Addr}
  {d : Inode} {ch pe g : Forest Inode}

/-! ## Mounting -/

theorem onlyDriver_ne {u : Inode → Inode} {b : Addr} (hb : drvr ≠ some b) (e : Inode) :
    onlyDriver drvr u b e = e := by
  cases drvr with
  | none => rfl
  | some a =>
    rw [onlyDriver, only_ne]
    rintro rfl
    exact hb rfl

theorem onlyDriver_cancel_around (hne : drvr ≠ some a) (u : Inode → Inode) :
    ((X.mapAt (onlyDriver drvr addref)).mapAt (Forest.only a u)).mapAt
      (onlyDriver drvr dropref) = X.mapAt (Forest.only a u) := by
  rw [mapAt_mapAt, mapAt_mapAt]
  refine mapAt_congr fun b _ e => ?_
  by_cases hb : b = a
  · subst hb
    rw [onlyDriver_ne hne, onlyDriver_ne hne]
  · rw [only_ne _ _ hb, only_ne _ _ hb]
    by_cases hd : drvr = some b
    · subst hd
      rw [onlyDriver, onlyDriver, only_self, only_self]
      rfl
    · rw [onlyDriver_ne hd, onlyDriver_ne hd]

theorem mountBind_ok (hs : Settled cfg drvr) (hX : Linked fs X)
    (hmem : ∀ b, drvr = some b → b ∈ X.addrs) (hne : drvr ≠ some a) (ha : a ∈ X.addrs)
    (h : mountBind cfg t fs target m drvr a data = some (0, fs')) :
    ∃ bind, (t.mops m).bind = some bind ∧ 0 ≤ (bind drvr data).1 ∧
      Linked fs' (X.mapAt (Forest.only a (mounted m (bind drvr data).2))) := by
  have herrout : ∀ fs₀ ret, ret < 0 →
      erroutWithMountpt cfg fs₀ target drvr a ret ≠ some (0, fs') := by
    intro fs₀ ret hret herr
    obtain ⟨fs₁, -, herr⟩ := bind_eq_some_iff.mp herr
    obtain ⟨x, -, herr⟩ := bind_eq_some_iff.mp herr
    obtain ⟨fs₃, -, herr⟩ := bind_eq_some_iff.mp herr
    cases herr
    cases hret
  unfold mountBind at h
  split at h
  · exact absurd h (herrout _ _ (by decide))
  · rename_i bind hbind
    obtain ⟨fs₁, hadd, hdrop, hX₁⟩ := onDriver_undo hX hmem
    simp only [countDriver_eq hs, boundDriver_eq hs, hadd, bind_eq_bind,
      bind_some] at h
    split at h
    · rename_i hret
      simp only [hdrop, bind_some] at h
      exact absurd h (herrout _ _ hret)
    · rename_i hret
      obtain ⟨c, hr⟩ := hX₁.stores.rep.read (a := a) (by rw [addrs_mapAt]; exact ha)
      obtain ⟨fs₂, hon, hX₂, -⟩ := onInode_spec hX₁ hr (mild_mounted m (bind drvr data).2)
      have hmem₂ : ∀ b, drvr = some b → b ∈ ((X.mapAt (onlyDriver drvr addref)).mapAt
          (Forest.only a (mounted m (bind drvr data).2))).addrs := by
        intro b hb
        rw [addrs_mapAt, addrs_mapAt]
        exact hmem b hb
      obtain ⟨fs₃, hrel, hX₃⟩ := releaseDriver_spec hs hX₂ hmem₂
      simp only [hon, hrel, bind_some] at h
      cases h
      rw [onlyDriver_cancel_around hne] at hX₃
      exact ⟨bind, hbind, Int.not_lt.mp hret, hX₃⟩

structure MountedAt (fs : Fs) (Y : Forest Inode) (target : List Char) (drvr : Option Addr)
    (K : Ctx Inode) (a : Addr) (d : Inode) (ch pe : Forest Inode) : Prop where
  linked : Linked fs Y
  seek_eq : seek Y target = .hit [] K a d ch pe
  driver : ∀ b, drvr = some b → b ∈ Y.addrs ∧ b ≠ a

theorem mountTarget_ok (hs : Settled cfg drvr) (hf : Linked fs f)
    (hmem : ∀ b, drvr = some b → ∃ e, f.Has b e ∧ e.iType ≠ .pseudodir)
    (hadd : fs.onDriver drvr addref = some fs₁)
    (h : mountTarget cfg t fs₁ target m drvr data answers = some (0, fs')) :
    ∃ bind Y K a d ch pe, (t.mops m).bind = some bind ∧ 0 ≤ (bind drvr data).1 ∧
      MountedAt fs' Y target drvr K a (mounted m (bind drvr data).2 d) ch pe ∧
      ((∃ d₀, f.Has a d₀ ∧ (∀ rest K g, seek f target ≠ .miss rest K g) ∧
          Y = ((f.mapAt (onlyDriver drvr addref)).mapAt (Forest.only a addref)).mapAt
            (Forest.only a (mounted m (bind drvr data).2))) ∨
        (K ≠ .top ∧ ch = .nil ∧ ∃ rest K₀ g, seek f target = .miss rest K₀ g ∧
          (rest.length = 1 ∧ K.fill pe = f.mapAt (onlyDriver drvr addref) ∨
            2 ≤ rest.length ∧ ∃ b ∈ (K.fill pe).addrs, b ∉ f.addrs))) := by
  have hin : ∀ b, drvr = some b → b ∈ f.addrs := by
    intro b hb
    obtain ⟨e, he, -⟩ := hmem b hb
    exact mem_addrs_of_has he
  obtain ⟨fs₁', hadd', -, hf₁⟩ := onDriver_undo hf hin
  obtain rfl : fs₁' = fs₁ := some.inj (hadd'.symm.trans hadd)
  have hname := fun b e => (onlyDriver_mild mild_addref drvr b e).1
  cases hseek : seek f target with
  | hit rest K a d ch pe =>
    have hseek₁ := seek_mapAt_hit hname (onlyDriver_isMountpt drvr) hseek
    obtain ⟨desc, fs₂, hfind, hret₂, hnode, -, hf₂, hr₂, hrel₂⟩ := inodeFind_held hf₁ hseek₁
    have htype₂ : (onlyDriver drvr addref a d).addref.iType = d.iType :=
      onlyDriver_iType drvr a d
    simp only [mountTarget, hfind, bind_eq_bind, bind_some, hret₂, hnode,
      hr₂] at h
    rw [if_pos (by decide)] at h
    by_cases htype : d.iType = .pseudodir
    · rw [if_neg (by rw [htype₂]; exact not_not.mpr htype)] at h
      -- only a mountpoint takes the rest of a path
      obtain rfl : rest = [] := by
        refine (seek_hit hseek).2.2.resolve_right fun hmount => ?_
        rw [Inode.isMountpt, htype] at hmount
        cases hmount
      have hne : ∀ b, drvr = some b → b ≠ a := by
        rintro b hb rfl
        obtain ⟨e, he, hspecial⟩ := hmem b hb
        rw [hf.stores.data_unique he (has_of_seek_hit hseek)] at hspecial
        exact hspecial htype
      have hin₂ : ∀ b, drvr = some b →
          b ∈ ((f.mapAt (onlyDriver drvr addref)).mapAt
            (Forest.only a addref)).addrs := by
        intro b hb
        rw [addrs_mapAt, addrs_mapAt]
        exact hin b hb
      obtain ⟨bind, hbind, hok, hfin⟩ := mountBind_ok hs hf₂ hin₂ (fun hd => hne a hd rfl)
        (by rw [addrs_mapAt, addrs_mapAt]; exact mem_addrs_of_seek_hit hseek) h
      have hseek₂ := hf₁.seek_only (u := addref) hseek₁ rfl
      refine ⟨bind, _, _, a, _, _, _, hbind, hok,
        ⟨hfin, hf₂.seek_only hseek₂ rfl, fun b hb => ⟨?_, hne b hb⟩⟩,
        Or.inl ⟨d, has_of_seek_hit hseek, ?_, rfl⟩⟩
      · rw [addrs_mapAt]
        exact hin₂ b hb
      · intro _ _ _ hmiss
        cases hmiss
    · rw [if_pos (by rw [htype₂]; exact htype)] at h
      simp only [hrel₂, bind_some] at h
      obtain ⟨fs₃, -, h⟩ := bind_eq_some_iff.mp h
      obtain ⟨hret, -⟩ := Prod.mk.inj (some.inj h)
      cases hret
  | miss rest K₀ g =>
    have hseek₁ := seek_mapAt_miss hname (onlyDriver_isMountpt drvr) hseek
    obtain ⟨desc, hfind, hden⟩ := inodeFind_miss hf₁ hseek₁
    simp only [mountTarget, hfind, bind_eq_bind, bind_some, hden.1] at h
    rw [if_neg (by decide)] at h
    rcases inodeReserve_cases hf₁ (target_ne_nil hf hseek) hseek₁ answers with
      ⟨fs₂, f₂, hrun, -⟩ | ⟨fs₂, K', k, a, g', hrun, hf₂, hseek₂, hK', -, hanew, hsub, hcase⟩
    · simp only [hrun, bind_some] at h
      rw [if_pos (by decide)] at h
      obtain ⟨fs₃, -, h⟩ := bind_eq_some_iff.mp h
      obtain ⟨hret, -⟩ := Prod.mk.inj (some.inj h)
      cases hret
    · simp only [hrun, bind_some] at h
      rw [if_neg (by decide)] at h
      rw [addrs_mapAt] at hanew hsub hcase
      have hin₂ : ∀ b, drvr = some b →
          b ∈ (K'.fill (.cons a (Inode.fresh k) .nil g')).addrs ∧ b ≠ a := by
        intro b hb
        have hbf := hin b hb
        refine ⟨?_, fun he => hanew (he ▸ hbf)⟩
        rw [Ctx.mem_addrs_fill]
        exact (Ctx.mem_addrs_fill.mp (hsub b hbf)).imp_right (List.mem_cons_of_mem _)
      obtain ⟨bind, hbind, hok, hfin⟩ := mountBind_ok hs hf₂ (fun b hb => (hin₂ b hb).1)
        (fun hd => (hin₂ a hd).2 rfl) (mem_addrs_of_seek_hit hseek₂) h
      refine ⟨bind, _, K', a, _, _, g', hbind, hok,
        ⟨hfin, hf₂.seek_only hseek₂ rfl, fun b hb => ⟨?_, (hin₂ b hb).2⟩⟩,
        Or.inr ⟨hK', rfl, rest, K₀, g, rfl, hcase⟩⟩
      rw [addrs_mapAt]
      exact (hin₂ b hb).1

/-! ## Unmounting -/

theorem releaseContained_spec (hX : Linked fs X) (hmem : ∀ b, drvr = some b → b ∈ X.addrs) :
    ∃ fs', releaseContained fs drvr = some fs' ∧
      Linked fs' (X.mapAt (onlyDriver drvr dropref)) := by
  obtain ⟨fs', hon, hX'⟩ := onDriver_spec hX mild_dropref hmem
  refine ⟨fs', ?_, hX'⟩
  cases drvr with
  | none => exact hon
  | some b =>
    obtain ⟨c, hr, hlive⟩ := hX.live_read (hmem b rfl)
    exact (inodeRelease_live hr hlive).trans hon

variable {unbind : Option Nat → Nat → Int × Option Addr}

theorem nxUmount2_unbound {e : Inode} (hX : Linked fs X)
    (hseek : seek X target = .hit [] K a e ch pe) (htype : e.iType = .mountpt) (hu : e.u = some m)
    (hunbind : (t.mops m).unbind = some unbind) (hret : unbind e.iPrivate flags = (0, drvr)) :
    ∃ fs' X', nxUmount2 t fs target flags = umountUnbound fs' target a drvr ∧ Linked fs' X' ∧
      X' = X.mapAt (Forest.only a addref) ∧
      seek X' target = .hit [] K a e.addref ch pe := by
  obtain ⟨desc, fs', hfind, hret', hnode, -, hX', hr', -⟩ := inodeFind_held hX hseek
  have htype' : e.addref.iType = .mountpt := htype
  have hu' : e.addref.u = some m := hu
  have hprivate : unbind e.addref.iPrivate flags = (0, drvr) := hret
  refine ⟨fs', _, ?_, hX', rfl, hX.seek_only hseek rfl⟩
  simp only [nxUmount2, hfind, bind_eq_bind, bind_some, hret', hnode, hr', htype',
    hu', hunbind, hprivate]
  rw [if_neg (by decide), if_neg (not_not.mpr rfl)]
  rfl

theorem umountUnbound_children (hX : Linked fs X) (hseek : seek X target = .hit [] K a d ch pe)
    (hch : ch ≠ .nil) (hmem : ∀ b, drvr = some b → b ∈ X.addrs) :
    ∃ fs', umountUnbound fs target a drvr = some (0, fs') ∧
      Linked fs' (((X.mapAt (Forest.only a unmounted)).mapAt
        (Forest.only a dropref)).mapAt (onlyDriver drvr dropref)) := by
  obtain ⟨hr, -⟩ := hX.read_hit hseek
  obtain ⟨fs₁, hon₁, hX₁, -⟩ := onInode_spec hX hr mild_unmounted
  have hseek₁ := hX.seek_only (u := unmounted) hseek rfl
  obtain ⟨hr₁, -⟩ := hX₁.read_hit hseek₁
  obtain ⟨fs₂, hon₂, hX₂, -⟩ := onInode_spec hX₁ hr₁ mild_dropref
  obtain ⟨fs₃, hrel, hX₃⟩ := releaseContained_spec hX₂ fun b hb => by
    rw [addrs_mapAt, addrs_mapAt]
    exact hmem b hb
  have hhead : ch.head ≠ none := by
    cases ch with
    | nil => exact absurd rfl hch
    | cons b e ch' pe' => exact Option.some_ne_none b
  refine ⟨fs₃, ?_, hX₃⟩
  simp only [umountUnbound, hon₁, bind_eq_bind, bind_some, hr₁, hon₂, hrel]
  rw [if_pos hhead]

theorem head_nil : (Forest.nil : Forest Inode).head = none := rfl

theorem umountUnbound_childless (hX : Linked fs X)
    (hseek : seek X target = .hit [] K a d .nil pe) (hK : K ≠ .top) (hd : d.iCrefs ≠ 0)
    (hmem : ∀ b, drvr = some b → b ∈ X.addrs ∧ b ≠ a) :
    ∃ fs', umountUnbound fs target a drvr = some (0, fs') ∧
      Linked fs' ((K.fill pe).mapAt (onlyDriver drvr dropref)) := by
  obtain ⟨hr, -⟩ := hX.read_hit hseek
  obtain ⟨fs₁, hon₁, hX₁, -⟩ := onInode_spec hX hr mild_unmounted
  have hseek₁ := hX.seek_only (u := unmounted) hseek rfl
  obtain ⟨hr₁, -⟩ := hX₁.read_hit hseek₁
  obtain ⟨fs₂, hrem, hX₂, hcell, -⟩ := inodeRemove_hit hX₁ hseek₁ hK
  have hout : a ∉ (K.fill pe).addrs := by
    have hst := hX₁.stores
    rw [(seek_hit hseek₁).1] at hst
    exact fun ha => (hst.apart.not_mem ha).1 rfl
  obtain ⟨fs₃, hrel₃, hX₃⟩ := inodeRelease_removed hX₂ (hcell hd) hout
  obtain ⟨fs₄, hrel₄, hX₄⟩ := releaseContained_spec hX₃ fun b (hb : drvr = some b) => by
    obtain ⟨hbX, hba⟩ := hmem b hb
    rw [(seek_hit hseek).1, Ctx.mem_addrs_fill] at hbX
    rw [Ctx.mem_addrs_fill]
    exact hbX.imp_right fun h => (List.mem_cons.mp h).resolve_left hba
  refine ⟨fs₄, ?_, hX₄⟩
  have hbusy : d.unmounted.iCrefs ≠ 0 := hd
  simp only [umountUnbound, hon₁, bind_eq_bind, bind_some, hr₁, hrem, hrel₃, hrel₄]
  rw [if_neg (not_not.mpr head_nil), if_neg hbusy, if_neg fun h => h.2 rfl]

theorem umountUnbound_root (hX : Linked fs X)
    (hseek : seek X target = .hit [] .top a d .nil pe) :
    umountUnbound fs target a drvr = none := by
  obtain ⟨hr, -⟩ := hX.read_hit hseek
  obtain ⟨fs₁, hon₁, hX₁, -⟩ := onInode_spec hX hr mild_unmounted
  have hseek₁ := hX.seek_only (u := unmounted) hseek rfl
  obtain ⟨hr₁, -⟩ := hX₁.read_hit hseek₁
  simp only [umountUnbound, hon₁, bind_eq_bind, bind_some, hr₁,
    inodeRemove_root hX₁ hseek₁, bind_none]
  rw [if_neg (not_not.mpr head_nil)]

/-! ## Mounting and unmounting -/

theorem nxMount_ok {source : Option (List Char)} {filesystemtype : Name} {mountflags : Nat}
    (hf : Linked fs f)
    (h : nxMount cfg t fs source target filesystemtype mountflags data answers = some (0, fs')) :
    ∃ m fs₁, sourceOps cfg t f source filesystemtype mountflags = some m ∧
      fs.onDriver (sourceDriver cfg t f source mountflags) addref = some fs₁ ∧
      mountTarget cfg t fs₁ target m (sourceDriver cfg t f source mountflags) data answers =
        some (0, fs') := by
  by_cases hany : (cfg.bdfs || cfg.mdfs || cfg.nodfs) = true
  · obtain ⟨errno, fs₁, hops, herrno, hadd⟩ :=
      mountFindops_spec cfg t hf source filesystemtype mountflags
    cases hm : sourceOps cfg t f source filesystemtype mountflags with
    | none =>
      simp only [nxMount, hops, foundOps, hm, bind_eq_bind, bind_some, hany] at h
      rw [if_neg (by simp)] at h
      obtain ⟨fs₂, -, h⟩ := bind_eq_some_iff.mp h
      obtain ⟨hret, -⟩ := Prod.mk.inj (some.inj h)
      rw [if_pos trivial] at hret
      omega
    | some m =>
      simp only [nxMount, hops, foundOps, hm, bind_eq_bind, bind_some, hany] at h
      rw [if_neg (by simp)] at h
      exact ⟨m, fs₁, rfl, hadd, h⟩
  · rw [Bool.not_eq_true] at hany
    rw [nxMount, if_pos hany] at h
    obtain ⟨hret, -⟩ := Prod.mk.inj (some.inj h)
    cases hret

theorem nxUmount2_mountedAt {Y : Forest Inode} {fshandle : Option Nat}
    (hY : MountedAt fs Y target drvr K a (mounted m fshandle d) ch pe)
    (hunbind : (t.mops m).unbind = some unbind) (hret : unbind fshandle flags = (0, drvr)) :
    (ch ≠ .nil → ∃ fs', nxUmount2 t fs target flags = some (0, fs') ∧
      Linked fs' ((((Y.mapAt (Forest.only a addref)).mapAt
        (Forest.only a unmounted)).mapAt (Forest.only a dropref)).mapAt
          (onlyDriver drvr dropref))) ∧
    (ch = .nil → K ≠ .top → ∃ fs', nxUmount2 t fs target flags = some (0, fs') ∧
      Linked fs' ((K.fill pe).mapAt (onlyDriver drvr dropref))) ∧
    (ch = .nil → K = .top → nxUmount2 t fs target flags = none) := by
  obtain ⟨fs₁, Y₁, hrun, hY₁, rfl, hseek₁⟩ :=
    nxUmount2_unbound hY.linked hY.seek_eq rfl rfl hunbind hret
  have hmem : ∀ b, drvr = some b → b ∈ (Y.mapAt (Forest.only a addref)).addrs ∧ b ≠ a := by
    rw [addrs_mapAt]
    exact hY.driver
  rw [hrun]
  refine ⟨fun hch => ?_, ?_, ?_⟩
  · exact umountUnbound_children hY₁ hseek₁ hch fun b hb => (hmem b hb).1
  · rintro rfl hK
    exact umountUnbound_childless hY₁ hseek₁ hK (Nat.succ_ne_zero _) hmem
  · rintro rfl rfl
    exact umountUnbound_root hY₁ hseek₁

/--
**When mounting and unmounting give back the tree.** For every filesystem whose `unbind` succeeds
and gives the driver back, `nx_umount2` after a `nx_mount` that has succeeded returns zero and
leaves all inodes, types, children and reference counts as they were before both exactly when the
target was missing, and all above it was there. A directory that was there before is taken out of
the tree, or keeps a reference.
-/
theorem mount_umount_iff {source : Option (List Char)} {filesystemtype : Name} {mountflags : Nat}
    (hf : Linked fs f)
    (hmount : nxMount cfg t fs source target filesystemtype mountflags data answers =
      some (0, fs₁))
    (hunbind : ∀ m, sourceOps cfg t f source filesystemtype mountflags = some m →
      Unbinds t m (sourceDriver cfg t f source mountflags) data flags) :
    (∃ fs₂, nxUmount2 t fs₁ target flags = some (0, fs₂) ∧ SameTree fs fs₂) ↔
      ∃ rest K g, seek f target = .miss rest K g ∧ rest.length = 1 := by
  obtain ⟨m, fs₀, hm, hadd, htarget⟩ := nxMount_ok hf hmount
  obtain ⟨bind, Y, K, a, d, ch, pe, hbind, hok, hY, hcase⟩ :=
    mountTarget_ok (settled_of_sourceOps hm) hf (fun b hb => sourceDriver_has hb) hadd htarget
  obtain ⟨unbind, hun, hret⟩ := hunbind m hm bind hbind hok
  obtain ⟨hchildren, hchildless, hroot⟩ := nxUmount2_mountedAt hY hun hret
  rcases hcase with ⟨d₀, hd₀, hnot, rfl⟩ | ⟨hK, hch, rest, K₀, g, hmiss, hcase⟩
  · -- a directory that was there before
    refine ⟨?_, fun ⟨rest, K, g, h, _⟩ => absurd h (hnot rest K g)⟩
    rintro ⟨fs₂, hrun, hsame⟩
    exfalso
    by_cases hch : ch = .nil
    · by_cases hK : K = .top
      · rw [hroot hch hK] at hrun
        cases hrun
      · obtain ⟨fs₂', hrun', hfin⟩ := hchildless hch hK
        obtain ⟨-, rfl⟩ := Prod.mk.inj (some.inj (hrun'.symm.trans hrun))
        refine not_sameTree_of_addrs hf hfin a (fun hiff => ?_) hsame
        have hgone := hiff.mp (mem_addrs_of_has hd₀)
        have hst := hY.linked.stores
        rw [(seek_hit hY.seek_eq).1] at hst
        rw [addrs_mapAt] at hgone
        exact (hst.apart.not_mem hgone).1 rfl
    · obtain ⟨fs₂', hrun', hfin⟩ := hchildren hch
      obtain ⟨-, rfl⟩ := Prod.mk.inj (some.inj (hrun'.symm.trans hrun))
      -- two references were taken, and one was given back
      have hne : sourceDriver cfg t f source mountflags ≠ some a := fun hd =>
        (hY.driver a hd).2 rfl
      rw [sameTree_iff hf hfin] at hsame
      simp only [mapAt_mapAt] at hsame
      have hview := eq_of_mapAt_eq hsame hd₀
      simp only [only_self, onlyDriver_ne hne] at hview
      exact absurd (congrArg (fun v => v.2.2) hview) (Nat.succ_ne_self d₀.iCrefs)
  · rw [hmiss]
    rcases hcase with ⟨hlen, hback⟩ | ⟨hlen, b, hb, hnew⟩
    · refine ⟨fun _ => ⟨rest, K₀, g, rfl, hlen⟩, fun _ => ?_⟩
      obtain ⟨fs₂, hrun, hfin⟩ := hchildless hch hK
      rw [hback, onlyDriver_cancel] at hfin
      exact ⟨fs₂, hrun, sameTree_of_linked hf hfin⟩
    · constructor
      · rintro ⟨fs₂, hrun, hsame⟩
        obtain ⟨fs₂', hrun', hfin⟩ := hchildless hch hK
        obtain ⟨-, rfl⟩ := Prod.mk.inj (some.inj (hrun'.symm.trans hrun))
        refine absurd hsame (not_sameTree_of_addrs hf hfin b fun hiff => hnew (hiff.mpr ?_))
        rw [addrs_mapAt]
        exact hb
      · rintro ⟨rest', K', g', h, hone⟩
        injection h with hrest
        rw [hrest, hone] at hlen
        exact absurd hlen (by decide)

end

/-! ## An existing directory -/

def fatTables : Tables :=
  ⟨fun _ => ⟨false, false⟩, fun _ => ⟨some fun _ _ => (0, some 7), some fun _ _ => (0, none)⟩,
    0, 0, 0⟩

theorem unbinds_fatTables (m : Nat) (data : Option Nat) (flags : Nat) :
    Unbinds fatTables m none data flags := by
  intro bind hbind _
  cases hbind
  exact ⟨_, rfl, rfl⟩

/-- FAT mounted at `/a`, an inode of its own. -/
def mountedFs (crefs : Nat) : Fs :=
  ⟨⟨[some ⟨none, none, some 1, Inode.fresh []⟩,
    some ⟨some 0, none, none, ⟨crefs, .mountpt, false, some 0, some 7, ['a']⟩⟩]⟩, some 0⟩

theorem mount_umount_iff_a :
    (∃ fs₂, nxUmount2 fatTables (mountedFs 0) ['/', 'a'] 0 = some (0, fs₂) ∧ SameTree rootFs fs₂) ↔
      ∃ rest K g, seek rootTree ['/', 'a'] = .miss rest K g ∧ rest.length = 1 :=
  @mount_umount_iff fatConfig fatTables rootFs (mountedFs 0) rootTree ['/', 'a'] 0 none [1] none
    ['v', 'f', 'a', 't'] 0 linked_rootFs (by decide) fun m _ => unbinds_fatTables m none 0

def unmountedFs : Fs :=
  ⟨⟨[some ⟨none, none, none, Inode.fresh []⟩,
    some ⟨none, none, none, ⟨1, .pseudodir, true, none, none, ['a']⟩⟩]⟩, some 0⟩

theorem linked_unmountedFs : Linked unmountedFs rootTree :=
  ⟨⟨rfl, ⟨rfl, trivial, trivial⟩, by decide⟩, ⟨rfl, trivial, trivial⟩, 0, _, _, rfl, rfl⟩

/-- A directory that was there before the mount is not there after the unmount. -/
theorem umount_removes_directory :
    ¬∀ (cfg : Config) (t : Tables) (fs fs₁ : Fs) (f : Forest Inode) (source : Option (List Char))
        (target : List Char) (filesystemtype : Name) (mountflags flags : Nat) (data : Option Nat)
        (answers : List Addr), Linked fs f →
        nxMount cfg t fs source target filesystemtype mountflags data answers = some (0, fs₁) →
        (∀ m, sourceOps cfg t f source filesystemtype mountflags = some m →
          Unbinds t m (sourceDriver cfg t f source mountflags) data flags) →
        ∃ fs₂, nxUmount2 t fs₁ target flags = some (0, fs₂) ∧ SameTree fs fs₂ := by
  intro h
  obtain ⟨fs₂, hrun, hsame⟩ := h fatConfig fatTables dirFs (mountedFs 1) dirTree none ['/', 'a']
    ['v', 'f', 'a', 't'] 0 0 none [] linked_dirFs (by decide)
    fun m _ => unbinds_fatTables m none 0
  have hfin : nxUmount2 fatTables (mountedFs 1) ['/', 'a'] 0 = some (0, unmountedFs) := by decide
  obtain ⟨-, rfl⟩ := Prod.mk.inj (some.inj (hfin.symm.trans hrun))
  rw [sameTree_iff linked_dirFs linked_unmountedFs] at hsame
  exact absurd (congrArg Forest.addrs hsame) (by decide)

end Gpmx.PseudoFs
