import Gpmx.PseudoFs.Mount

/-!
# The steps of a mount

What each part of `nx_mount` does to the tree: which filesystem and driver it settles on
(`mountFindops_spec`), how the references to the driver go up and down (`countDriver_spec`,
`releaseDriver_spec`), and what the cleanup takes out of the tree (`erroutWithMountpt_fresh`,
`erroutWithMountpt_directory`).
-/

namespace Gpmx.PseudoFs

open Infra Option Forest
open Inode (addref dropref fresh)

/-! ## The driver and the filesystem -/

def blockAt (t : Tables) (f : Forest Inode) (source : List Char) (mountflags : Nat) :
    Option Addr :=
  match seek f source with
  | .hit _ _ a d _ _ =>
    if d.iType = .block ∧ t.accessible d mountflags = true then some a else none
  | .miss _ _ _ => none

def mtdAt (cfg : Config) (f : Forest Inode) (source : List Char) : Option Addr :=
  match seek f source with
  | .hit _ _ a d _ _ => if cfg.mtd = true ∧ d.iType = .mtd then some a else none
  | .miss _ _ _ => none

def sourceDriver (cfg : Config) (t : Tables) (f : Forest Inode) (source : Option (List Char))
    (mountflags : Nat) : Option Addr :=
  match source with
  | none => none
  | some source => (blockAt t f source mountflags).or (mtdAt cfg f source)

/-- The filesystem `nx_mount` takes. -/
def sourceOps (cfg : Config) (t : Tables) (f : Forest Inode) (source : Option (List Char))
    (filesystemtype : Name) (mountflags : Nat) : Option Nat :=
  match sourceDriver cfg t f source mountflags with
  | some _ => if cfg.bdfs then mountFindfs (gBdfsmap t) filesystemtype else none
  | none => if cfg.nodfs then mountFindfs (gNonbdfsmap cfg t) filesystemtype else none

def Fs.onDriver (fs : Fs) (drvr : Option Addr) (change : Inode → Inode) : Option Fs :=
  match drvr with
  | some drvr => fs.onInode drvr change
  | none => some fs

def onlyDriver (drvr : Option Addr) (u : Inode → Inode) : Addr → Inode → Inode :=
  match drvr with
  | some drvr => Forest.only drvr u
  | none => fun _ d => d

section

variable {cfg : Config} {t : Tables} {fs fs' : Fs} {f : Forest Inode}

theorem findBlockdriver_spec (hf : Linked fs f) (source : List Char) (mountflags : Nat) :
    (∃ a fs₁, blockAt t f source mountflags = some a ∧
      findBlockdriver t fs source mountflags = some (0, some a, fs₁) ∧
      fs.onInode a addref = some fs₁) ∨
    (blockAt t f source mountflags = none ∧
      ∃ ret < 0, findBlockdriver t fs source mountflags = some (ret, none, fs)) := by
  cases hs : seek f source with
  | miss rest K g =>
    obtain ⟨desc, hfind, hden⟩ := inodeFind_miss hf hs
    refine Or.inr ⟨by simp only [blockAt, hs], -ENOENT, by decide, ?_⟩
    simp only [findBlockdriver, hfind, bind_eq_bind, bind_some, hden.1]
    rfl
  | hit rest K a d ch pe =>
    obtain ⟨desc, fs₁, hfind, hret, hnode, hon, -, hr₁, hrel⟩ := inodeFind_held hf hs
    -- the reference changes neither the type nor the operations
    have htype : d.addref.iType = d.iType := rfl
    have haccess : t.accessible d.addref mountflags = t.accessible d mountflags := rfl
    simp only [findBlockdriver, hfind, bind_eq_bind, bind_some, hret, hnode, hr₁,
      hrel]
    rw [if_neg (by decide)]
    by_cases hb : d.iType = .block
    · by_cases hacc : t.accessible d mountflags = true
      · refine Or.inl ⟨a, fs₁, ?_, ?_, hon⟩
        · simp only [blockAt, hs]
          rw [if_pos ⟨hb, hacc⟩]
        · rw [if_neg (by rw [htype]; exact not_not.mpr hb), if_neg (by simp [haccess, hacc])]
      · refine Or.inr ⟨?_, -EACCES, by decide, ?_⟩
        · simp only [blockAt, hs]
          rw [if_neg fun h => hacc h.2]
        · rw [if_neg (by rw [htype]; exact not_not.mpr hb), if_pos (by simpa [haccess] using hacc)]
    · refine Or.inr ⟨?_, -ENOTBLK, by decide, ?_⟩
      · simp only [blockAt, hs]
        rw [if_neg fun h => hb h.1]
      · rw [if_pos (by rw [htype]; exact hb)]

theorem findMtddriver_spec (cfg : Config) (hf : Linked fs f) (source : List Char) :
    (∃ a fs₁, mtdAt cfg f source = some a ∧
      findMtddriver cfg fs source = some (0, some a, fs₁) ∧
      fs.onInode a addref = some fs₁) ∨
    (mtdAt cfg f source = none ∧
      ∃ ret < 0, findMtddriver cfg fs source = some (ret, none, fs)) := by
  by_cases hcfg : cfg.mtd = true
  · cases hs : seek f source with
    | miss rest K g =>
      obtain ⟨desc, hfind, hden⟩ := inodeFind_miss hf hs
      refine Or.inr ⟨by simp only [mtdAt, hs], -ENOENT, by decide, ?_⟩
      simp only [findMtddriver, hcfg, hfind, bind_eq_bind, bind_some, hden.1]
      rfl
    | hit rest K a d ch pe =>
      obtain ⟨desc, fs₁, hfind, hret, hnode, hon, -, hr₁, hrel⟩ := inodeFind_held hf hs
      have htype : d.addref.iType = d.iType := rfl
      simp only [findMtddriver, hcfg, hfind, bind_eq_bind, bind_some, hret, hnode,
        hr₁, hrel, if_true]
      rw [if_neg (by decide)]
      by_cases hm : d.iType = .mtd
      · refine Or.inl ⟨a, fs₁, ?_, ?_, hon⟩
        · simp only [mtdAt, hs]
          rw [if_pos ⟨hcfg, hm⟩]
        · rw [if_neg (by rw [htype]; exact not_not.mpr hm)]
      · refine Or.inr ⟨?_, -ENOTBLK, by decide, ?_⟩
        · simp only [mtdAt, hs]
          rw [if_neg fun h => hm h.2]
        · rw [if_pos (by rw [htype]; exact hm)]
  · refine Or.inr ⟨?_, -ENODEV, by decide, ?_⟩
    · unfold mtdAt
      split
      · rw [if_neg fun h => hcfg h.1]
      · rfl
    · rw [findMtddriver, if_neg hcfg]

theorem mountFindops_spec (cfg : Config) (t : Tables) (hf : Linked fs f) (source : Option (List Char)) (filesystemtype : Name)
    (mountflags : Nat) :
    ∃ errno fs₁, mountFindops cfg t fs source filesystemtype mountflags =
        some (foundOps (sourceOps cfg t f source filesystemtype mountflags) errno
          (sourceDriver cfg t f source mountflags) fs₁) ∧ 0 < errno ∧
      fs.onDriver (sourceDriver cfg t f source mountflags) addref = some fs₁ := by
  cases source with
  | none => exact ⟨ENOTBLK, fs, rfl, by decide, rfl⟩
  | some source =>
    rcases findBlockdriver_spec (t := t) hf source mountflags with
      ⟨a, fs₁, hat, hfind, hon⟩ | ⟨hat, ret, hret, hfind⟩
    · have hdrv : sourceDriver cfg t f (some source) mountflags = some a := by
        simp only [sourceDriver, hat, some_or]
      refine ⟨ENODEV, fs₁, ?_, by decide, by rw [hdrv]; exact hon⟩
      simp only [mountFindops, hfind, bind_eq_bind, bind_some, sourceOps, hdrv]
      rfl
    · rcases findMtddriver_spec cfg hf source with
        ⟨a, fs₁, hat', hfind', hon⟩ | ⟨hat', ret', hret', hfind'⟩
      · have hdrv : sourceDriver cfg t f (some source) mountflags = some a := by
          simp only [sourceDriver, hat, hat', none_or]
        have hmtd : cfg.mdfs = cfg.bdfs := by
          have hcfg : cfg.mtd = true := by
            unfold mtdAt at hat'
            split at hat'
            · split at hat'
              · rename_i h
                exact h.1
              · cases hat'
            · cases hat'
          simp only [Config.mdfs, Config.bdfs, hcfg, Bool.and_true]
        refine ⟨ENODEV, fs₁, ?_, by decide, by rw [hdrv]; exact hon⟩
        simp only [mountFindops, hfind, hfind', bind_eq_bind, bind_some, sourceOps,
          hdrv, hmtd]
        rw [if_neg (show ¬ret ≥ 0 from Int.not_le.mpr hret)]
        rfl
      · have hdrv : sourceDriver cfg t f (some source) mountflags = none := by
          simp only [sourceDriver, hat, hat', none_or]
        refine ⟨ENOTBLK, fs, ?_, by decide, by rw [hdrv]; rfl⟩
        simp only [mountFindops, hfind, hfind', bind_eq_bind, bind_some, sourceOps,
          hdrv]
        rw [if_neg (show ¬ret ≥ 0 from Int.not_le.mpr hret),
          if_neg (show ¬ret' ≥ 0 from Int.not_le.mpr hret')]

variable {source : Option (List Char)} {mountflags : Nat} {b : Addr} {u : Inode → Inode} {m : Nat}
    {ret : Int}

theorem sourceDriver_has (h : sourceDriver cfg t f source mountflags = some b) :
    ∃ d, f.Has b d ∧ d.iType ≠ .pseudodir := by
  cases source with
  | none => cases h
  | some source =>
    rcases or_eq_some_iff.mp h with h | ⟨-, h⟩
    · unfold blockAt at h
      split at h
      · rename_i rest K a d ch pe hs
        split at h
        · rename_i hd
          cases h
          exact ⟨d, has_of_seek_hit hs, by rw [hd.1]; decide⟩
        · cases h
      · cases h
    · unfold mtdAt at h
      split at h
      · rename_i rest K a d ch pe hs
        split at h
        · rename_i hd
          cases h
          exact ⟨d, has_of_seek_hit hs, by rw [hd.2]; decide⟩
        · cases h
      · cases h

/-! ## Counting references to the driver -/

theorem onlyDriver_mild (hu : Mild u) (drvr : Option Addr) (b : Addr) :
    Mild (onlyDriver drvr u b) := by
  cases drvr with
  | none => exact fun d => ⟨rfl, rfl⟩
  | some a => exact hu.only a b

theorem onlyDriver_cancel (drvr : Option Addr) (g : Forest Inode) :
    (g.mapAt (onlyDriver drvr addref)).mapAt (onlyDriver drvr dropref) = g := by
  rw [mapAt_mapAt]
  have hid : ∀ b ∈ g.addrs, ∀ d,
      onlyDriver drvr dropref b (onlyDriver drvr addref b d) = d := by
    intro b _ d
    cases drvr with
    | none => rfl
    | some a =>
      by_cases hb : b = a
      · subst hb
        simp only [onlyDriver, only_self]
        rfl
      · simp only [onlyDriver, only_ne _ _ hb]
  rw [mapAt_congr hid, mapAt_id]

variable {drvr : Option Addr} {X : Forest Inode}

theorem onDriver_spec (hX : Linked fs X) (hu : Mild u) (hmem : ∀ b, drvr = some b → b ∈ X.addrs) :
    ∃ fs', fs.onDriver drvr u = some fs' ∧ Linked fs' (X.mapAt (onlyDriver drvr u)) := by
  cases drvr with
  | none =>
    refine ⟨fs, rfl, ?_⟩
    rw [show X.mapAt (onlyDriver none u) = X from mapAt_id X]
    exact hX
  | some b =>
    obtain ⟨c, hr⟩ := hX.stores.rep.read (hmem b rfl)
    obtain ⟨fs', hon, hX', -⟩ := onInode_spec hX hr hu
    exact ⟨fs', hon, hX'⟩

/-- What `nx_mount` has when it has settled on a filesystem. -/
structure Settled (cfg : Config) (drvr : Option Addr) : Prop where
  bdfs_of_driver : drvr ≠ none → cfg.bdfs = true
  nodfs_of_none : drvr = none → cfg.nodfs = true

theorem settled_of_sourceOps {filesystemtype : Name}
    (h : sourceOps cfg t f source filesystemtype mountflags = some m) :
    Settled cfg (sourceDriver cfg t f source mountflags) := by
  unfold sourceOps at h
  split at h
  · rename_i a hd
    rw [hd]
    refine ⟨fun _ => ?_, fun hn => by cases hn⟩
    by_contra hb
    rw [if_neg hb] at h
    cases h
  · rename_i hd
    rw [hd]
    refine ⟨fun hn => absurd rfl hn, fun _ => ?_⟩
    by_contra hb
    rw [if_neg hb] at h
    cases h

theorem countDriver_eq (hs : Settled cfg drvr) (u : Inode → Inode) :
    countDriver cfg fs drvr u = fs.onDriver drvr u := by
  unfold countDriver
  cases drvr with
  | none =>
    rw [hs.nodfs_of_none rfl]
    split <;> rfl
  | some b =>
    rw [hs.bdfs_of_driver (by simp)]
    rfl

theorem boundDriver_eq (hs : Settled cfg drvr) :
    (if (cfg.bdfs || cfg.mdfs) = true then drvr else none) = drvr := by
  cases drvr with
  | none => split <;> rfl
  | some b =>
    rw [hs.bdfs_of_driver (by simp)]
    rfl

theorem releaseDriver_eq (hs : Settled cfg drvr)
    (hlive : ∀ b, drvr = some b → ∃ c, fs.heap.read b = some c ∧ c.data.deleted = false) :
    releaseDriver cfg fs drvr = fs.onDriver drvr dropref := by
  cases drvr with
  | none => rfl
  | some b =>
    obtain ⟨c, hr, hc⟩ := hlive b rfl
    simp only [releaseDriver, hs.bdfs_of_driver (by simp), Bool.true_or, if_true, Fs.onDriver]
    exact inodeRelease_live hr hc

theorem Linked.live_read (hX : Linked fs X) (hb : b ∈ X.addrs) :
    ∃ c, fs.heap.read b = some c ∧ c.data.deleted = false :=
  hX.stores.rep.read_all hX.live hb

theorem releaseDriver_spec (hs : Settled cfg drvr) (hX : Linked fs X)
    (hmem : ∀ b, drvr = some b → b ∈ X.addrs) :
    ∃ fs', releaseDriver cfg fs drvr = some fs' ∧
      Linked fs' (X.mapAt (onlyDriver drvr dropref)) := by
  rw [releaseDriver_eq hs fun b hb => hX.live_read (hmem b hb)]
  exact onDriver_spec hX mild_dropref hmem

theorem onDriver_undo (hX : Linked fs X) (hmem : ∀ b, drvr = some b → b ∈ X.addrs) :
    ∃ fs', fs.onDriver drvr addref = some fs' ∧
      fs'.onDriver drvr dropref = some fs ∧
      Linked fs' (X.mapAt (onlyDriver drvr addref)) := by
  obtain ⟨fs', hon, hX'⟩ := onDriver_spec hX mild_addref hmem
  refine ⟨fs', hon, ?_, hX'⟩
  cases drvr with
  | none => exact hon.symm
  | some b =>
    obtain ⟨c, hr, hlive⟩ := hX.live_read (hmem b rfl)
    obtain ⟨c', hr', hlive'⟩ := hX'.live_read (b := b) (by
      rw [addrs_mapAt]
      exact hmem b rfl)
    exact (inodeRelease_live hr' hlive').symm.trans (inodeRelease_addref hr hlive hon)

/-! ## The cleanup -/

variable {target : List Char} {rest : List Name} {K : Ctx Inode} {a : Addr} {d : Inode}
  {ch pe g : Forest Inode}

theorem erroutWithMountpt_directory {ret' : Int} (hs : Settled cfg drvr) (hX : Linked fs X)
    (hseek : seek X target = .hit rest K a d ch pe)
    (hmem : ∀ b, drvr = some b → b ∈ X.addrs ∧ b ≠ a)
    (h : erroutWithMountpt cfg fs target drvr a ret = some (ret', fs')) :
    ∃ X', Linked fs' X' ∧ a ∉ X'.addrs := by
  obtain ⟨hr, hlive⟩ := hX.read_hit hseek
  obtain ⟨fs₁, hon, hX₁, -⟩ := onInode_spec hX hr mild_dropref
  have hseek₁ := seek_mapAt_hit (φ := Forest.only a dropref)
    (fun b e => (mild_dropref.only a b e).1) (fun b e => by unfold Forest.only; split <;> rfl) hseek
  have hrel : inodeRelease fs a = some fs₁ := (inodeRelease_live hr hlive).trans hon
  simp only [erroutWithMountpt, hrel, bind_eq_bind, bind_some] at h
  by_cases hK : K.mapAt (Forest.only a dropref) = .top
  · rw [hK] at hseek₁
    rw [inodeRemove_root hX₁ hseek₁] at h
    cases h
  · obtain ⟨fs₂, hrem, hX₂, -, hkeep⟩ := inodeRemove_hit hX₁ hseek₁ hK
    have hap : Apart (K.mapAt (Forest.only a dropref)) a
        (ch.mapAt (Forest.only a dropref)) (pe.mapAt (Forest.only a dropref)) := by
      have hst := hX₁.stores
      rw [(seek_hit hseek₁).1] at hst
      exact hst.apart
    have hout : a ∉ ((K.mapAt (Forest.only a dropref)).fill
        (pe.mapAt (Forest.only a dropref))).addrs := fun ha => (hap.not_mem ha).1 rfl
    simp only [hrem, bind_some] at h
    cases drvr with
    | none =>
      cases h
      exact ⟨_, hX₂, hout⟩
    | some b =>
      obtain ⟨hbX, hba⟩ := hmem b rfl
      -- the driver is still in the tree, or was cut off with the target, or is gone
      have hcell : (∃ c, fs₂.heap.read b = some c ∧ c.data.deleted = false) ∨
          fs₂.heap.read b = none := by
        by_cases hb : b ∈ ((K.mapAt (Forest.only a dropref)).fill
            (pe.mapAt (Forest.only a dropref))).addrs
        · exact Or.inl (hX₂.live_read hb)
        · rw [Ctx.mem_addrs_fill, not_or] at hb
          rcases hkeep b hb.1 hba with hsame | ⟨-, hnone⟩
          · rw [hsame]
            exact Or.inl (hX₁.live_read (by rw [addrs_mapAt]; exact hbX))
          · exact Or.inr hnone
      rcases hcell with ⟨c, hrb, hlb⟩ | hnone
      · obtain ⟨fs₃, hon₃, hX₃, -⟩ := onInode_spec hX₂ hrb mild_dropref
        have hrel₃ : releaseDriver cfg fs₂ (some b) = some fs₃ := by
          rw [releaseDriver_eq hs]
          · exact hon₃
          · intro b' hb'
            cases hb'
            exact ⟨c, hrb, hlb⟩
        simp only [hrel₃, bind_some] at h
        cases h
        exact ⟨_, hX₃, by rw [addrs_mapAt]; exact hout⟩
      · have hfault : releaseDriver cfg fs₂ (some b) = none := by
          simp only [releaseDriver, hs.bdfs_of_driver (by simp), Bool.true_or, if_true, inodeRelease,
            Fs.onInode, Heap.modify, hnone, bind_eq_bind, map_none, bind_none]
        rw [hfault] at h
        cases h

theorem erroutWithMountpt_fresh {k : Name} (ret : Int) (hs : Settled cfg drvr)
    (hX : Linked fs X) (hseek : seek X target = .hit [] K a (fresh k) .nil g)
    (hK : K ≠ .top) (hmem : ∀ b, drvr = some b → b ∈ X.addrs ∧ b ≠ a) :
    ∃ fs', erroutWithMountpt cfg fs target drvr a ret = some (ret, fs') ∧
      Linked fs' ((K.fill g).mapAt (onlyDriver drvr dropref)) := by
  obtain ⟨hr, hlive⟩ := hX.read_hit hseek
  -- its count is zero, so releasing it does nothing
  have hrel : inodeRelease fs a = some fs := by
    have hzero : (fresh k).dropref = fresh k := rfl
    rw [inodeRelease_live hr hlive, onInode_eq hr]
    simp only [hzero, Heap.put_read hr]
  obtain ⟨fs₂, hrem, hX₂, -⟩ := inodeRemove_hit hX hseek hK
  have hmem₂ : ∀ b, drvr = some b → b ∈ (K.fill g).addrs := by
    intro b hb
    obtain ⟨hbX, hba⟩ := hmem b hb
    rw [(seek_hit hseek).1, Ctx.mem_addrs_fill] at hbX
    rw [Ctx.mem_addrs_fill]
    rcases hbX with h | h
    · exact Or.inl h
    · exact Or.inr ((List.mem_cons.mp h).resolve_left hba)
  obtain ⟨fs₃, hrel₃, hX₃⟩ := releaseDriver_spec hs hX₂ hmem₂
  refine ⟨fs₃, ?_, hX₃⟩
  simp only [erroutWithMountpt, hrel, hrem, hrel₃, bind_eq_bind, bind_some]

/-! ## Binding -/

theorem mountBind_error {data : Option Nat} (hs : Settled cfg drvr) (hX : Linked fs X)
    (hmem : ∀ b, drvr = some b → b ∈ X.addrs)
    (h : mountBind cfg t fs target m drvr a data = some (ret, fs')) (hret : ret < 0) :
    ∃ ret', erroutWithMountpt cfg fs target drvr a ret' = some (ret, fs') := by
  unfold mountBind at h
  split at h
  · exact ⟨_, h⟩
  · rename_i bind _
    obtain ⟨fs₁, hadd, hdrop, hX₁⟩ := onDriver_undo hX hmem
    simp only [countDriver_eq hs, boundDriver_eq hs, hadd, bind_eq_bind,
      bind_some] at h
    split at h
    · simp only [hdrop, bind_some] at h
      exact ⟨_, h⟩
    · -- a mount that succeeds returns zero
      obtain ⟨fs₂, -, h⟩ := bind_eq_some_iff.mp h
      obtain ⟨fs₃, -, h⟩ := bind_eq_some_iff.mp h
      cases h
      cases hret

end

end Gpmx.PseudoFs
