import Gpmx.PseudoFs.MountSteps

/-!
# What a failed mount leaves

`nx_mount` has one cleanup for a mountpoint it has made and for a directory that was there before.
A mount that fails leaves the tree as it was in all but three kinds of cases (`Spoils`), and in
each of these it does not (`nxMount_error_sameTree_iff`).
-/

namespace Gpmx.PseudoFs

open Infra Option Forest

/-! ## The same tree -/

/-- What can be seen of an inode: its name, its type and its references. -/
def view (_ : Addr) (d : Inode) : Name × NodeType × Nat := (d.iName, d.iType, d.iCrefs)

/-- The same inodes in the same places, with the same types and references. -/
def SameTree (fs fs' : Fs) : Prop :=
  ∃ f f', Stores fs.heap fs.root f ∧ Stores fs'.heap fs'.root f' ∧ f'.mapAt view = f.mapAt view

variable {fs fs' : Fs} {f f' : Forest Inode}

theorem sameTree_iff (hf : Linked fs f) (hf' : Linked fs' f') :
    SameTree fs fs' ↔ f'.mapAt view = f.mapAt view := by
  constructor
  · rintro ⟨g, g', hg, hg', h⟩
    rw [hf.stores.unique hg, hf'.stores.unique hg']
    exact h
  · intro h
    exact ⟨f, f', hf.stores, hf'.stores, h⟩

theorem sameTree_of_linked (hf : Linked fs f) (hf' : Linked fs' f) :
    SameTree fs fs' := (sameTree_iff hf hf').mpr rfl

theorem not_sameTree_of_addrs (hf : Linked fs f) (hf' : Linked fs' f') (a : Addr)
    (ha : ¬(a ∈ f.addrs ↔ a ∈ f'.addrs)) : ¬SameTree fs fs' := by
  rw [sameTree_iff hf hf']
  intro h
  have haddrs := congrArg Forest.addrs h
  rw [addrs_mapAt, addrs_mapAt] at haddrs
  exact ha (by rw [haddrs])

/-! ## The cases of a failed mount -/

section

variable {cfg : Config} {t : Tables} {fs fs₁ fs' : Fs} {f : Forest Inode}
  {source : Option (List Char)} {target : List Char} {filesystemtype : Name} {mountflags : Nat}
  {data : Option Nat} {answers : List Addr} {ret : Int} {drvr : Option Addr} {m : Nat}

theorem onlyDriver_isMountpt (drvr : Option Addr) (b : Addr) (e : Inode) :
    (onlyDriver drvr Inode.addref b e).isMountpt = e.isMountpt := by
  cases drvr with
  | none => rfl
  | some a =>
    by_cases hb : b = a
    · rw [hb, onlyDriver, only_self]
      rfl
    · rw [onlyDriver, only_ne _ _ hb]

theorem onlyDriver_iType (drvr : Option Addr) (b : Addr) (e : Inode) :
    (onlyDriver drvr Inode.addref b e).iType = e.iType := by
  cases drvr with
  | none => rfl
  | some a =>
    by_cases hb : b = a
    · rw [hb, onlyDriver, only_self]
      rfl
    · rw [onlyDriver, only_ne _ _ hb]

theorem canAlloc_iff (hadd : fs.onDriver drvr Inode.addref = some fs₁) :
    CanAlloc fs₁.heap answers ↔ CanAlloc fs.heap answers := by
  cases drvr with
  | none =>
    cases hadd
    exact Iff.rfl
  | some b =>
    obtain ⟨heap, hm, heq⟩ := bind_eq_some_iff.mp hadd
    obtain ⟨c, hr, rfl⟩ := Heap.read_of_modify hm
    cases heq
    have hfree : ∀ a, (fs.heap.put b (some { c with data := c.data.addref })).read a = none ↔
        fs.heap.read a = none := by
      intro a
      by_cases hab : a = b
      · subst hab
        rw [Heap.read_put_self _ (Heap.lt_size_of_read hr), hr]
        simp
      · rw [Heap.read_put_ne _ hab]
    simp only [CanAlloc, Heap.size_put, hfree]

variable {rest : List Name} {K : Ctx Inode} {a : Addr} {d : Inode} {ch pe g : Forest Inode}

theorem mountTarget_special (hs : Settled cfg drvr) (hf : Linked fs f)
    (hmem : ∀ b, drvr = some b → b ∈ f.addrs)
    (hadd : fs.onDriver drvr Inode.addref = some fs₁)
    (hseek : seek f target = .hit rest K a d ch pe) (htype : d.iType ≠ .pseudodir) :
    mountTarget cfg t fs₁ target m drvr data answers = some (-ENOTDIR, fs) := by
  obtain ⟨fs₁', hadd', hdrop, hf₁⟩ := onDriver_undo hf hmem
  obtain rfl : fs₁' = fs₁ := some.inj (hadd'.symm.trans hadd)
  have hseek₁ := seek_mapAt_hit (fun b e => (onlyDriver_mild mild_addref drvr b e).1)
    (onlyDriver_isMountpt drvr) hseek
  obtain ⟨desc, fs₂, hfind, hret, hnode, -, -, hr₂, hrel⟩ := inodeFind_held hf₁ hseek₁
  have hdriver : releaseDriver cfg fs₁' drvr = some fs := by
    rw [releaseDriver_eq hs, hdrop]
    intro b hb
    exact hf₁.live_read (by rw [addrs_mapAt]; exact hmem b hb)
  have htype₂ : (onlyDriver drvr Inode.addref a d).addref.iType ≠ .pseudodir := by
    rw [show (onlyDriver drvr Inode.addref a d).addref.iType
      = (onlyDriver drvr Inode.addref a d).iType from rfl, onlyDriver_iType]
    exact htype
  simp only [mountTarget, hfind, bind_eq_bind, bind_some, hret, hnode, hr₂, hrel,
    hdriver]
  rw [if_pos (by decide), if_pos htype₂]

theorem mountTarget_directory (hs : Settled cfg drvr) (hf : Linked fs f)
    (hmem : ∀ b, drvr = some b → b ∈ f.addrs ∧ b ≠ a)
    (hadd : fs.onDriver drvr Inode.addref = some fs₁)
    (hseek : seek f target = .hit rest K a d ch pe) (htype : d.iType = .pseudodir)
    (h : mountTarget cfg t fs₁ target m drvr data answers = some (ret, fs')) (hret : ret < 0) :
    ∃ f', Linked fs' f' ∧ a ∉ f'.addrs := by
  obtain ⟨fs₁', hadd', -, hf₁⟩ := onDriver_undo hf fun b hb => (hmem b hb).1
  obtain rfl : fs₁' = fs₁ := some.inj (hadd'.symm.trans hadd)
  have hseek₁ := seek_mapAt_hit (fun b e => (onlyDriver_mild mild_addref drvr b e).1)
    (onlyDriver_isMountpt drvr) hseek
  obtain ⟨desc, fs₂, hfind, hret₂, hnode, -, hf₂, hr₂, -⟩ := inodeFind_held hf₁ hseek₁
  have hseek₂ := seek_mapAt_hit (fun b e => (mild_addref.only a b e).1)
    (onlyDriver_isMountpt (some a)) hseek₁
  have htype₂ : ¬(onlyDriver drvr Inode.addref a d).addref.iType ≠ .pseudodir := by
    rw [show (onlyDriver drvr Inode.addref a d).addref.iType
      = (onlyDriver drvr Inode.addref a d).iType from rfl, onlyDriver_iType]
    exact not_not.mpr htype
  have hmem₂ : ∀ b, drvr = some b →
      b ∈ ((f.mapAt (onlyDriver drvr Inode.addref)).mapAt
        (Forest.only a Inode.addref)).addrs ∧ b ≠ a := by
    intro b hb
    rw [addrs_mapAt, addrs_mapAt]
    exact hmem b hb
  simp only [mountTarget, hfind, bind_eq_bind, bind_some, hret₂, hnode, hr₂] at h
  rw [if_pos (by decide), if_neg htype₂] at h
  obtain ⟨ret', h'⟩ := mountBind_error hs hf₂ (fun b hb => (hmem₂ b hb).1) h hret
  exact erroutWithMountpt_directory hs hf₂ hseek₂ hmem₂ h'

theorem target_ne_nil (hf : Linked fs f) (hseek : seek f target = .miss rest K g) :
    target ≠ [] := by
  rintro rfl
  obtain ⟨r, e, ch', rfl, hname⟩ := hf.rooted
  unfold seek pathKeys walk at hseek
  rw [hname, if_neg (lt_irrefl _), if_neg (lt_irrefl _), components_nil,
    if_pos (Or.inl rfl)] at hseek
  cases hseek

theorem mountTarget_missing (hs : Settled cfg drvr) (hf : Linked fs f)
    (hmem : ∀ b, drvr = some b → b ∈ f.addrs)
    (hadd : fs.onDriver drvr Inode.addref = some fs₁)
    (hseek : seek f target = .miss rest K g)
    (h : mountTarget cfg t fs₁ target m drvr data answers = some (ret, fs')) (hret : ret < 0) :
    ((rest.length = 1 ∨ ¬CanAlloc fs.heap answers) ∧ Linked fs' f) ∨
      (2 ≤ rest.length ∧ CanAlloc fs.heap answers ∧
        ∃ f', Linked fs' f' ∧ ∃ a ∈ f'.addrs, a ∉ f.addrs) := by
  obtain ⟨fs₁', hadd', -, hf₁⟩ := onDriver_undo hf hmem
  obtain rfl : fs₁' = fs₁ := some.inj (hadd'.symm.trans hadd)
  have hseek₁ := seek_mapAt_miss (fun b e => (onlyDriver_mild mild_addref drvr b e).1)
    (onlyDriver_isMountpt drvr) hseek
  obtain ⟨desc, hfind, hden⟩ := inodeFind_miss hf₁ hseek₁
  simp only [mountTarget, hfind, bind_eq_bind, bind_some, hden.1] at h
  rw [if_neg (by decide)] at h
  rcases inodeReserve_cases hf₁ (target_ne_nil hf hseek) hseek₁ answers with
    ⟨fs₂, f₂, hrun, hf₂, hsub, hcase⟩ |
    ⟨fs₂, K', k, a, g', hrun, hf₂, hseek₂, hK', hcan, hanew, hsub, hcase⟩
  · -- out of memory, before or after the first directory
    have hmem₂ : ∀ b, drvr = some b → b ∈ f₂.addrs := fun b hb =>
      hsub b (by rw [addrs_mapAt]; exact hmem b hb)
    obtain ⟨fs₃, hrel, hf₃⟩ := releaseDriver_spec hs hf₂ hmem₂
    simp only [hrun, bind_some, hrel] at h
    rw [if_pos (by decide)] at h
    cases h
    rw [canAlloc_iff hadd, addrs_mapAt] at hcase
    rcases hcase with ⟨hno, rfl⟩ | ⟨hcan, hlen, b, hb, hbnew⟩
    · rw [onlyDriver_cancel] at hf₃
      exact Or.inl ⟨Or.inr hno, hf₃⟩
    · exact Or.inr ⟨hlen, hcan, _, hf₃, b, by rw [addrs_mapAt]; exact hb, hbnew⟩
  · -- the target is made, and taken out again after a failed bind
    rw [canAlloc_iff hadd] at hcan
    rw [addrs_mapAt] at hanew hsub
    simp only [hrun, bind_some] at h
    rw [if_neg (by decide)] at h
    have hmem₂ : ∀ b, drvr = some b →
        b ∈ (K'.fill (.cons a (Inode.fresh k) .nil g')).addrs ∧ b ≠ a := by
      intro b hb
      have hbf := hmem b hb
      refine ⟨?_, fun he => hanew (he ▸ hbf)⟩
      rw [Ctx.mem_addrs_fill]
      exact (Ctx.mem_addrs_fill.mp (hsub b hbf)).imp_right (List.mem_cons_of_mem _)
    obtain ⟨ret', h'⟩ := mountBind_error hs hf₂ (fun b hb => (hmem₂ b hb).1) h hret
    obtain ⟨fs₃, hrun₃, hf₃⟩ := erroutWithMountpt_fresh ret' hs hf₂ hseek₂ hK' hmem₂
    rw [hrun₃] at h'
    cases h'
    rcases hcase with ⟨hlen, hback⟩ | ⟨hlen, b, hb, hbnew⟩
    · rw [hback, onlyDriver_cancel] at hf₃
      exact Or.inl ⟨Or.inl hlen, hf₃⟩
    · rw [addrs_mapAt] at hbnew
      exact Or.inr ⟨hlen, hcan, _, hf₃, b, by rw [addrs_mapAt]; exact hb, hbnew⟩

inductive Spoils (cfg : Config) (t : Tables) (fs : Fs) (f : Forest Inode)
    (source : Option (List Char)) (target : List Char) (filesystemtype : Name) (mountflags : Nat)
    (answers : List Addr) : Prop
  /-- a driver is found, but the release of it is compiled out -/
  | driver {a : Addr} (hd : sourceDriver cfg t f source mountflags = some a)
      (hbdfs : cfg.bdfs = false) (hnodfs : cfg.nodfs = true)
  /-- the target is a directory, which the cleanup removes -/
  | directory {m : Nat} {rest : List Name} {K : Ctx Inode} {a : Addr} {d : Inode}
      {ch pe : Forest Inode} (hm : sourceOps cfg t f source filesystemtype mountflags = some m)
      (hs : seek f target = .hit rest K a d ch pe) (hd : d.iType = .pseudodir)
  /-- directories above the target are missing, and the first of them is made -/
  | above {m : Nat} {rest : List Name} {K : Ctx Inode} {g : Forest Inode}
      (hm : sourceOps cfg t f source filesystemtype mountflags = some m)
      (hs : seek f target = .miss rest K g) (hlen : 2 ≤ rest.length)
      (hcan : CanAlloc fs.heap answers)

theorem spoils_settled
    (h : Spoils cfg t fs f source target filesystemtype mountflags answers) :
    (cfg.bdfs || cfg.mdfs || cfg.nodfs) = true := by
  have hsettled : ∀ m, sourceOps cfg t f source filesystemtype mountflags = some m →
      (cfg.bdfs || cfg.mdfs || cfg.nodfs) = true := by
    intro m hm
    have hs := settled_of_sourceOps hm
    cases hd : sourceDriver cfg t f source mountflags with
    | none => rw [hs.nodfs_of_none hd, Bool.or_true]
    | some b => rw [hs.bdfs_of_driver (by rw [hd]; simp), Bool.true_or, Bool.true_or]
  cases h with
  | driver hd hbdfs hnodfs => rw [hnodfs, Bool.or_true]
  | directory hm hs hd | above hm hs hlen hcan => exact hsettled _ hm

theorem nxMount_refused (hf : Linked fs f)
    (hm : sourceOps cfg t f source filesystemtype mountflags = none)
    (hany : (cfg.bdfs || cfg.mdfs || cfg.nodfs) = true)
    (h : nxMount cfg t fs source target filesystemtype mountflags data answers =
      some (ret, fs')) :
    SameTree fs fs' ↔ ¬Spoils cfg t fs f source target filesystemtype mountflags answers := by
  obtain ⟨errno, fs₁, hops, -, hadd⟩ :=
    mountFindops_spec cfg t hf source filesystemtype mountflags
  simp only [nxMount, hops, foundOps, hm, bind_eq_bind, bind_some, hany] at h
  rw [if_neg (by simp)] at h
  have hspoils : Spoils cfg t fs f source target filesystemtype mountflags answers →
      ∃ b, sourceDriver cfg t f source mountflags = some b ∧ cfg.bdfs = false := by
    intro hsp
    cases hsp with
    | driver hd hbdfs hnodfs => exact ⟨_, hd, hbdfs⟩
    | directory hm' hs hd | above hm' hs hlen hcan =>
      rw [hm] at hm'
      cases hm'
  cases hd : sourceDriver cfg t f source mountflags with
  | none =>
    simp only [hd, releaseDriver, bind_some] at h
    cases h
    rw [hd] at hadd
    cases hadd
    refine ⟨fun _ hsp => ?_, fun _ => sameTree_of_linked hf hf⟩
    obtain ⟨b, hb, -⟩ := hspoils hsp
    rw [hd] at hb
    cases hb
  | some b =>
    obtain ⟨d, hhas, -⟩ := sourceDriver_has hd
    have hb := mem_addrs_of_has hhas
    rw [hd] at hadd
    have hmem : ∀ b', some b = some b' → b' ∈ f.addrs := by
      rintro b' ⟨⟩
      exact hb
    obtain ⟨fs₁', hadd', hdrop, hf₁⟩ := onDriver_undo hf hmem
    obtain rfl : fs₁' = fs₁ := some.inj (hadd'.symm.trans hadd)
    cases hcfg : cfg.bdfs with
    | true =>
      have hrel : releaseDriver cfg fs₁' (some b) = some fs := by
        obtain ⟨c, hr, hlive⟩ := hf₁.live_read (b := b) (by rw [addrs_mapAt]; exact hb)
        simp only [releaseDriver, hcfg, Bool.true_or, if_true]
        exact (inodeRelease_live hr hlive).trans hdrop
      simp only [hd, hrel, bind_some] at h
      cases h
      refine ⟨fun _ hsp => ?_, fun _ => sameTree_of_linked hf hf⟩
      obtain ⟨b', -, hno⟩ := hspoils hsp
      rw [hcfg] at hno
      cases hno
    | false =>
      have hmdfs : cfg.mdfs = false := by
        rw [Config.mdfs, show cfg.littlefs = false from hcfg, Bool.false_and]
      have hnodfs : cfg.nodfs = true := by
        rw [hcfg, hmdfs, Bool.false_or, Bool.false_or] at hany
        exact hany
      have hrel : releaseDriver cfg fs₁' (some b) = some fs₁' := by
        simp only [releaseDriver, hcfg, hmdfs, Bool.or_false]
        rfl
      simp only [hd, hrel, bind_some] at h
      cases h
      refine ⟨fun hsame _ => ?_, fun hno => absurd (.driver hd hcfg hnodfs) hno⟩
      -- one more reference than before
      rw [sameTree_iff hf hf₁, mapAt_mapAt] at hsame
      have hview := eq_of_mapAt_eq hsame hhas
      rw [onlyDriver, only_self] at hview
      exact absurd (congrArg (fun v => v.2.2) hview) (Nat.succ_ne_self d.iCrefs)

/--
**When a failed mount leaves the tree as it was.** Whatever the bind method returns, a mount that
returns an error keeps all inodes, types, children and reference counts exactly when none of
three things happens: a driver is found in a build whose filesystems take none, the target is a
directory already, or directories above the target are missing and the first can be made.
-/
theorem nxMount_error_sameTree_iff (hf : Linked fs f)
    (h : nxMount cfg t fs source target filesystemtype mountflags data answers = some (ret, fs'))
    (hret : ret < 0) :
    SameTree fs fs' ↔ ¬Spoils cfg t fs f source target filesystemtype mountflags answers := by
  by_cases hany : (cfg.bdfs || cfg.mdfs || cfg.nodfs) = true
  · cases hm : sourceOps cfg t f source filesystemtype mountflags with
    | none => exact nxMount_refused hf hm hany h
    | some m =>
      obtain ⟨errno, fs₁, hops, -, hadd⟩ :=
        mountFindops_spec cfg t hf source filesystemtype mountflags
      simp only [nxMount, hops, foundOps, hm, bind_eq_bind, bind_some, hany] at h
      rw [if_neg (by simp)] at h
      have hs := settled_of_sourceOps hm
      have hmem : ∀ b, sourceDriver cfg t f source mountflags = some b → b ∈ f.addrs := by
        intro b hb
        obtain ⟨d, hhas, -⟩ := sourceDriver_has hb
        exact mem_addrs_of_has hhas
      cases hseek : seek f target with
      | hit rest K a d ch pe =>
        by_cases htype : d.iType = .pseudodir
        · -- the driver is another inode, of another type
          have hne : ∀ b, sourceDriver cfg t f source mountflags = some b →
              b ∈ f.addrs ∧ b ≠ a := by
            intro b hb
            refine ⟨hmem b hb, ?_⟩
            rintro rfl
            obtain ⟨e, hhas, he⟩ := sourceDriver_has hb
            rw [hf.stores.data_unique hhas (has_of_seek_hit hseek)] at he
            exact he htype
          obtain ⟨f', hf', hgone⟩ := mountTarget_directory hs hf hne hadd hseek htype h hret
          refine ⟨fun hsame _ => ?_, fun hno => absurd (.directory hm hseek htype) hno⟩
          refine not_sameTree_of_addrs hf hf' a (fun hiff => hgone ?_) hsame
          exact hiff.mp (mem_addrs_of_seek_hit hseek)
        · rw [mountTarget_special hs hf hmem hadd hseek htype] at h
          obtain ⟨-, rfl⟩ := Prod.mk.inj (some.inj h)
          refine ⟨fun _ hsp => ?_, fun _ => sameTree_of_linked hf hf⟩
          cases hsp with
          | driver hd hbdfs hnodfs =>
            rw [hs.bdfs_of_driver (by rw [hd]; simp)] at hbdfs
            cases hbdfs
          | directory hm' hseek' hd =>
            rw [hseek] at hseek'
            injection hseek' with _ _ _ hdd
            rw [hdd] at htype
            exact htype hd
          | above hm' hseek' hlen hcan =>
            rw [hseek] at hseek'
            cases hseek'
      | miss rest K g =>
        rcases mountTarget_missing hs hf hmem hadd hseek h hret with
          ⟨hone, hf'⟩ | ⟨hlen, hcan, f', hf', a, ha, hnew⟩
        · refine ⟨fun _ hsp => ?_, fun _ => sameTree_of_linked hf hf'⟩
          cases hsp with
          | driver hd hbdfs hnodfs =>
            rw [hs.bdfs_of_driver (by rw [hd]; simp)] at hbdfs
            cases hbdfs
          | directory hm' hseek' hd =>
            rw [hseek] at hseek'
            cases hseek'
          | above hm' hseek' hlen hcan =>
            rw [hseek] at hseek'
            injection hseek' with hrest
            rw [← hrest] at hlen
            rcases hone with h1 | hno
            · omega
            · exact hno hcan
        · refine ⟨fun hsame _ => ?_, fun hno => absurd (.above hm hseek hlen hcan) hno⟩
          exact not_sameTree_of_addrs hf hf' a (fun hiff => hnew (hiff.mpr ha)) hsame
  · rw [Bool.not_eq_true] at hany
    rw [nxMount, if_pos hany] at h
    obtain ⟨-, rfl⟩ := Prod.mk.inj (some.inj h)
    refine ⟨fun _ hsp => ?_, fun _ => sameTree_of_linked hf hf⟩
    rw [spoils_settled hsp] at hany
    cases hany

end

/-! ## A failed mount on an existing directory -/

def fatConfig : Config := ⟨false, false, false, true⟩

/-- The bind method fails with `-EIO`. -/
def brokenTables : Tables :=
  ⟨fun _ => ⟨false, false⟩, fun _ => ⟨some fun _ _ => (-5, none), none⟩, 0, 0, 0⟩

/-- The tree with a directory `/a`. -/
def dirTree : Forest Inode :=
  .cons 0 (Inode.fresh []) (.cons 1 (Inode.fresh ['a']) .nil .nil) .nil

def dirFs : Fs :=
  ⟨⟨[some ⟨none, none, some 1, Inode.fresh []⟩, some ⟨some 0, none, none, Inode.fresh ['a']⟩]⟩,
    some 0⟩

def rootTree : Forest Inode := .cons 0 (Inode.fresh []) .nil .nil

def rootFs : Fs := ⟨⟨[some ⟨none, none, none, Inode.fresh []⟩, none]⟩, some 0⟩

theorem linked_dirFs : Linked dirFs dirTree :=
  ⟨⟨rfl, ⟨rfl, ⟨rfl, trivial, trivial⟩, trivial⟩, by decide⟩, ⟨rfl, ⟨rfl, trivial, trivial⟩, trivial⟩,
    0, _, _, rfl, rfl⟩

theorem linked_rootFs : Linked rootFs rootTree :=
  ⟨⟨rfl, ⟨rfl, trivial, trivial⟩, by decide⟩, ⟨rfl, trivial, trivial⟩, 0, _, _, rfl, rfl⟩

theorem nxMount_error_sameTree_iff_directory :
    SameTree dirFs rootFs ↔
      ¬Spoils fatConfig brokenTables dirFs dirTree none ['/', 'a'] ['v', 'f', 'a', 't'] 0 [] :=
  @nxMount_error_sameTree_iff fatConfig brokenTables dirFs rootFs dirTree none ['/', 'a']
    ['v', 'f', 'a', 't'] 0 none [] (-5) linked_dirFs (by decide) (by decide)

/-- Mounting on the directory fails, and the directory is gone. -/
theorem failed_mount_removes_directory :
    ¬∀ (cfg : Config) (t : Tables) (fs fs' : Fs) (f : Forest Inode) (source : Option (List Char))
        (target : List Char) (filesystemtype : Name) (mountflags : Nat) (data : Option Nat)
        (answers : List Addr) (ret : Int), Linked fs f →
        nxMount cfg t fs source target filesystemtype mountflags data answers = some (ret, fs') →
        ret < 0 → SameTree fs fs' := by
  intro h
  have hsame := h fatConfig brokenTables dirFs rootFs dirTree none ['/', 'a'] ['v', 'f', 'a', 't']
    0 none [] (-5) linked_dirFs (by decide) (by decide)
  rw [sameTree_iff linked_dirFs linked_rootFs] at hsame
  have haddrs := congrArg Forest.addrs hsame
  exact absurd haddrs (by decide)

end Gpmx.PseudoFs
