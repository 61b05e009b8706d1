import Gpmx.Infra.TreePaths
import Gpmx.PseudoFs.Namespace
import Gpmx.PseudoFs.Tree

/-!
# Renaming

Model of `pseudorename`, with the `basename` it calls. The caller, `rename`, has found the inode
at the old path and holds a reference to it.
-/

namespace Gpmx.PseudoFs

open Infra List

def EXDEV : Int := 18

/-! ## `basename` -/

def trimSlashes (path : List Char) : List Char := (path.reverse.dropWhile (· == '/')).reverse

/-- `basename`: what it leaves in the buffer, and the name. -/
def basename (path : List Char) : List Char × List Char :=
  if path = [] then (path, ['.'])
  else
    let trimmed := trimSlashes path
    if trimmed = [] then (['/'], ['/'])
    else (trimmed, (trimmed.reverse.takeWhile (· != '/')).reverse)

theorem components_trimSlashes (path : List Char) :
    components (trimSlashes path) = components path := by
  have hrev : ∀ l : List Char, components (l.dropWhile (· == '/')).reverse = components l.reverse := by
    intro l
    induction l with
    | nil => rfl
    | cons c l ih =>
      by_cases hc : c = '/'
      · subst hc
        rw [dropWhile_cons_of_pos (by rfl), ih, reverse_cons, components_append_slash,
          components_nil, append_nil]
      · rw [dropWhile_cons_of_neg (by simpa using hc)]
  rw [trimSlashes, hrev, reverse_reverse]

theorem components_basename_buffer (path : List Char) :
    components (basename path).1 = components path := by
  unfold basename
  by_cases hp : path = []
  · rw [if_pos hp]
  · rw [if_neg hp]
    by_cases ht : trimSlashes path = []
    · rw [if_pos ht, ← components_trimSlashes path, ht]
      exact components_slash []
    · rw [if_neg ht]
      exact components_trimSlashes path

/-! ## `pseudorename` -/

inductive Probe where
  /-- leave with this value -/
  | done (ret : Int)
  /-- make the inode at the destination -/
  | create
  /-- the destination is in a directory, `goto next_subdir` -/
  | directory

/-- From the label `next_subdir` on, one time. -/
def probe (fs : Fs) (oldinode : Addr) (newpath : List Char) : Option (Probe × Fs) := do
  let (newdesc, fs) ← inodeFind fs newpath
  if newdesc.ret ≥ 0 then
    let newinode ← newdesc.node
    if oldinode = newinode then
      let fs ← inodeRelease fs newinode
      some (.done 0, fs)
    else
      let c ← fs.heap.read newinode
      if c.data.iType = .mountpt then
        let fs ← inodeRelease fs newinode
        some (.done (-EXDEV), fs)
      else if c.data.u = none ∨ c.child ≠ none then
        let fs ← inodeRelease fs newinode
        some (.directory, fs)
      else
        -- whether it could be removed is not asked
        let (_, fs) ← inodeRemove fs newpath
        let fs ← inodeRelease fs newinode
        some (.create, fs)
  else some (.create, fs)

/-- The flags, the operations and the private data of another inode. -/
def Inode.copied (old node : Inode) : Inode :=
  { node with iType := old.iType, deleted := old.deleted, u := old.u, iPrivate := old.iPrivate }

/-- The rest of `pseudorename`: make the new inode, copy the old one and take that out. -/
def moveInode (fs : Fs) (oldpath : List Char) (oldinode : Addr) (newpath : List Char)
    (answers : List Addr) : Option (Int × Fs) := do
  let (ret, node, fs) ← inodeReserve fs newpath answers
  if ret < 0 then some (-EEXIST, fs)
  else
    let newinode ← node
    let old ← fs.heap.read oldinode
    let heap ← fs.heap.modify newinode fun n =>
      { n with child := old.child, data := old.data.copied n.data }
    let (ret, fs) ← inodeRemove { fs with heap } oldpath
    if ret < 0 ∧ ret ≠ -EBUSY then
      let (_, fs) ← inodeRemove fs newpath
      some (ret, fs)
    else
      let heap ← fs.heap.modify oldinode fun o => { o with child := none, parent := none }
      some (0, { fs with heap })

def pseudorename (fs : Fs) (oldpath : List Char) (oldinode : Addr) (newpath : List Char)
    (answers : List Addr) : Option (Int × Fs) := do
  let (next, fs) ← probe fs oldinode newpath
  match next with
  | .done ret => some (ret, fs)
  | .create => moveInode fs oldpath oldinode newpath answers
  | .directory =>
    let (oldpath, subdirname) := basename oldpath
    let subdir := newpath ++ '/' :: subdirname
    let (next, fs) ← probe fs oldinode subdir
    match next with
    | .done ret => some (ret, fs)
    | .create => moveInode fs oldpath oldinode subdir answers
    -- `newpath` is `subdir` now, which has been freed when `sprintf` reads it
    | .directory => none

end Gpmx.PseudoFs

/-!
## The steps of a rename

For a moment, `pseudorename` has two inodes with the same children, which is no tree. The heap is
then a tree but for one child link (`graft`), and as long as a search does not go through that
link, taking an inode out does not see it (`inodeRemove_graft`).

`probe_create` and `moveInode_ok` say which nodes are at which paths after each step.
-/

namespace Gpmx.PseudoFs

open Infra Option List Heap

/-! ## A child link that leads elsewhere -/

/-- Let `n` have the children of another node. -/
def graft (heap : Heap Inode) (n : Addr) (o : Option Addr) : Heap Inode :=
  match heap.read n with
  | some c => heap.put n (some { c with child := o })
  | none => heap

def Fs.graft (fs : Fs) (n : Addr) (o : Option Addr) : Fs := ⟨PseudoFs.graft fs.heap n o, fs.root⟩

section

variable {heap : Heap Inode} {n b : Addr} {o : Option Addr} {c : Cell Inode}

theorem graft_of_read (hr : heap.read n = some c) :
    graft heap n o = heap.put n (some { c with child := o }) := by
  simp only [graft, hr]

theorem size_graft : (graft heap n o).size = heap.size := by
  unfold graft
  split
  · exact size_put _
  · rfl

theorem read_graft_ne (hne : b ≠ n) : (graft heap n o).read b = heap.read b := by
  unfold graft
  split
  · exact read_put_ne _ hne
  · rfl

theorem read_graft_self (hr : heap.read n = some c) :
    (graft heap n o).read n = some { c with child := o } := by
  rw [graft_of_read hr, read_put_self _ (lt_size_of_read hr)]

theorem graft_child (hr : heap.read n = some c) : graft heap n c.child = heap := by
  rw [graft_of_read hr, put_read hr]

theorem modify_graft {u : Cell Inode → Cell Inode}
    (hu : b ≠ n ∨ ∀ c, u { c with child := o } = { u c with child := o }) :
    (graft heap n o).modify b u = (heap.modify b u).map fun h => graft h n o := by
  by_cases hb : b = n
  · subst hb
    cases hr : heap.read b with
    | none => simp only [graft, Heap.modify, hr, map_none]
    | some c =>
      have hlt := lt_size_of_read hr
      rw [modify_of_read u (read_graft_self hr), modify_of_read u hr, map_some,
        graft_of_read hr, graft_of_read (read_put_self _ hlt), put_put, put_put,
        hu.resolve_left (not_not.mpr rfl) c]
  · cases hr : heap.read b with
    | none => simp only [Heap.modify, read_graft_ne hb, hr, map_none]
    | some c =>
      rw [modify_of_read u ((read_graft_ne hb).trans hr), modify_of_read u hr,
        map_some]
      refine congrArg some ?_
      unfold graft
      rw [read_put_ne _ (Ne.symm hb)]
      split
      · exact congrArg Heap.mk (set_comm _ _ (Ne.symm hb))
      · rfl

end

section

variable {fs : Fs} {f : Forest Inode} {path : List Char} {n a : Addr} {o : Option Addr}
  {cn : Cell Inode} {rest : List Name} {K : Ctx Inode} {d : Inode} {ch pe : Forest Inode}
  {desc : SearchDesc}

theorem searchLoop_graft {heap : Heap Inode} {fuel : Nat} {name : List Char}
    {node left above : Option Addr} (hr : heap.read n = some cn) (hleaf : cn.child = none)
    (h : searchLoop heap fuel name node left above = some desc) (hret : desc.ret = 0) :
    searchLoop (graft heap n o) fuel name node left above = some desc := by
  induction fuel generalizing name node left above with
  | zero => cases h
  | succ fuel ih =>
    cases node with
    | none => exact h
    | some x =>
      cases hrx : heap.read x with
      | none => simp only [searchLoop, hrx, reduceCtorEq] at h
      | some c =>
        have hcell : ∃ c', (graft heap n o).read x = some c' ∧ c'.data = c.data ∧
            c'.peer = c.peer ∧ (c'.child = c.child ∨ c.child = none) := by
          by_cases hx : x = n
          · subst hx
            rw [hr] at hrx
            cases hrx
            exact ⟨_, read_graft_self hr, rfl, rfl, Or.inr hleaf⟩
          · exact ⟨c, (read_graft_ne hx).trans hrx, rfl, rfl, Or.inl rfl⟩
        obtain ⟨c', hrx', hdata, hpeer, hchild⟩ := hcell
        simp only [searchLoop, hrx] at h
        simp only [searchLoop, hrx', hdata, hpeer]
        split at h
        · rename_i hlt
          rw [if_pos hlt]
          exact h
        · rename_i hlt
          rw [if_neg hlt]
          split at h
          · rename_i hgt
            rw [if_pos hgt]
            exact ih h
          · rename_i hgt
            rw [if_neg hgt]
            split at h
            · rename_i hend
              rw [if_pos hend]
              exact h
            · rename_i hend
              rw [if_neg hend]
              rcases hchild with hsame | hnone
              · rw [hsame]
                exact ih h
              · -- below a leaf there is nothing to find
                rw [hnone] at h
                cases fuel with
                | zero => cases h
                | succ fuel =>
                  rw [← some.inj h] at hret
                  exact absurd hret (show ¬(-ENOENT : Int) = 0 by decide)

theorem inodeSearch_graft (hr : fs.heap.read n = some cn) (hleaf : cn.child = none)
    (h : inodeSearch fs path = some desc) (hret : desc.ret = 0) :
    inodeSearch (fs.graft n o) path = some desc := by
  unfold inodeSearch at h ⊢
  generalize (if path.head? = some '/' then path else '/' :: '/' :: path) = path at h ⊢
  unfold inodeSearchAbs at h ⊢
  rw [show (fs.graft n o).heap.size = fs.heap.size from size_graft]
  split at h
  · rename_i habs
    rw [if_pos habs]
    exact searchLoop_graft hr hleaf h hret
  · rename_i habs
    rw [if_neg habs]
    exact h

theorem inodeUnlink_graft (hf : Linked fs f) (hs : seek f path = .hit rest K a d ch pe)
    (hr : fs.heap.read n = some cn) (hleaf : cn.child = none) (hna : a ≠ n) :
    inodeUnlink (fs.graft n o) path = (inodeUnlink fs path).map fun r => (r.1, r.2.graft n o) := by
  obtain ⟨desc, hsearch, hden⟩ := inodeSearch_spec hf hs
  obtain ⟨hret, hnode, hpeer, hparent, -⟩ := hden
  obtain ⟨hra, -⟩ := hf.read_hit hs
  have hra' : (fs.graft n o).heap.read a = _ := (read_graft_ne hna).trans hra
  have hrelink : ∀ x, relink (fs.graft n o).heap K.left K.above x =
      (relink fs.heap K.left K.above x).map fun h => graft h n o := by
    intro x
    cases K with
    | top => rfl
    | peer K b e ch' => exact modify_graft (Or.inr fun c => rfl)
    | child K b e pe' =>
      -- the parent has a child, so it is not the leaf
      have hrep := hf.stores.rep
      rw [(seek_hit hs).1] at hrep
      obtain ⟨⟨hrb, -, -⟩, -⟩ := rep_fill.mp hrep
      refine modify_graft (Or.inl ?_)
      rintro rfl
      rw [hr] at hrb
      rw [some.inj hrb] at hleaf
      cases hleaf
  simp only [inodeUnlink, hsearch, inodeSearch_graft hr hleaf hsearch hret, bind_eq_bind,
    bind_some, hret, hnode, hra, hra', hpeer, hparent, hrelink]
  rw [if_pos (by decide), if_pos (by decide)]
  cases relink fs.heap K.left K.above pe.head with
  | none => rfl
  | some heap =>
    simp only [map_some, bind_some, modify_graft (Or.inl hna)]
    cases heap.modify a _ with
    | none | some heap' => rfl

theorem inodeRemove_graft (hf : Linked fs f) (hs : seek f path = .hit rest K a d ch pe)
    (hheld : d.iCrefs ≠ 0) (hr : fs.heap.read n = some cn) (hleaf : cn.child = none)
    (hna : a ≠ n) :
    inodeRemove (fs.graft n o) path = (inodeRemove fs path).map fun r => (r.1, r.2.graft n o) := by
  unfold inodeRemove
  rw [inodeUnlink_graft hf hs hr hleaf hna]
  by_cases hK : K = .top
  · subst hK
    rw [inodeUnlink_root hf hs]
    rfl
  · obtain ⟨fs₁, hunlink, -, -, hra, -⟩ := inodeUnlink_hit hf hs hK
    have hra' : (fs₁.graft n o).heap.read a = _ := (read_graft_ne hna).trans hra
    have hmod : ∀ u, (fs₁.graft n o).heap.modify a u =
        (fs₁.heap.modify a u).map fun h => graft h n o := fun u => modify_graft (Or.inl hna)
    simp only [hunlink, map_some, bind_eq_bind, bind_some, hra, hra', hmod]
    rw [if_pos hheld, if_pos hheld]
    cases fs₁.heap.modify a _ with
    | none | some heap => rfl

end

/-! ## The destination -/

structure Cleared (f : Forest Inode) (path : List Char) (f' : Forest Inode) : Prop where
  keeps : ∀ {stop b e ks}, f.At Inode.iName stop b e ks → ks ≠ pathKeys path →
    f'.At Inode.iName stop b e ks
  only : ∀ {stop b e ks}, f'.At Inode.iName stop b e ks → f.At Inode.iName stop b e ks

/-- A directory for `rename`: without operations, or with children. -/
def IsDirectory (e : Inode) (ch : Forest Inode) : Prop := e.u = none ∨ ch ≠ .nil

instance (e : Inode) (ch : Forest Inode) : Decidable (IsDirectory e ch) :=
  inferInstanceAs (Decidable (e.u = none ∨ ch ≠ .nil))

/-- Where the inode is to go: into the directory at the new path, if there is another one. -/
def destination (f : Forest Inode) (a : Addr) (oldpath newpath : List Char) : List Char :=
  match seek f newpath with
  | .hit _ _ b e ch _ =>
    if b ≠ a ∧ IsDirectory e ch then newpath ++ '/' :: (basename oldpath).2 else newpath
  | .miss _ _ _ => newpath

section

variable {fs fs' : Fs} {f : Forest Inode} {path oldpath newpath : List Char} {a : Addr}
  {next : Probe} {answers : List Addr} {rest : List Name} {K : Ctx Inode} {b : Addr} {e : Inode}
  {ch pe : Forest Inode}

theorem cleared_unlink (hs : seek f path = .hit [] K b e .nil pe) : Cleared f path (K.fill pe) := by
  obtain ⟨rfl, hroute, -⟩ := seek_hit hs
  refine ⟨fun hat hne => ?_, at_of_unlink⟩
  rcases at_fill_cases pe hat with hat | ⟨hopen, t, rfl, ⟨rfl, -⟩ | ⟨-, t', -, hat⟩ | hat⟩
  · exact hat
  · exact absurd hroute.keys_eq.symm hne
  · cases hat
  · exact at_fill hopen hat

theorem head_ne_none : ch.head ≠ none ↔ ch ≠ .nil := by
  cases ch with
  | nil => exact ⟨fun h => absurd rfl h, fun h => absurd rfl h⟩
  | cons b e ch pe =>
    constructor <;>
    · intro _ h
      cases h

theorem probe_cases (hwf : Wf fs f) (h : probe fs a path = some (next, fs')) :
    ((∃ rest K d ch pe, seek f path = .hit rest K a d ch pe) ∧ next = .done 0 ∧ fs' = fs) ∨
    next = .done (-EXDEV) ∨
    ((∃ rest K b e ch pe, seek f path = .hit rest K b e ch pe ∧ b ≠ a ∧ IsDirectory e ch) ∧
      next = .directory ∧ fs' = fs) ∨
    ((¬∃ rest K b e ch pe, seek f path = .hit rest K b e ch pe ∧ (b = a ∨ IsDirectory e ch)) ∧
      next = .create ∧ ∃ f', Wf fs' f' ∧ Cleared f path f') := by
  cases hs : seek f path with
  | miss rest K g =>
    obtain ⟨desc, hfind, hden⟩ := inodeFind_miss hwf.linked hs
    simp only [probe, hfind, bind_eq_bind, bind_some, hden.1] at h
    rw [if_neg (by decide)] at h
    cases h
    refine Or.inr (Or.inr (Or.inr ⟨?_, rfl, f, hwf, fun hat _ => hat, id⟩))
    rintro ⟨_, _, _, _, _, _, hhit, -⟩
    cases hhit
  | hit rest K b e ch pe =>
    obtain ⟨desc, fs₁, hfind, hret, hnode, -, hf₁, hr₁, hrel⟩ := inodeFind_held hwf.linked hs
    have htype₁ : e.addref.iType = e.iType := rfl
    have hu₁ : e.addref.u = e.u := rfl
    simp only [probe, hfind, bind_eq_bind, bind_some, hret, hnode, hr₁, hrel, htype₁,
      hu₁] at h
    rw [if_pos (by decide)] at h
    by_cases hba : a = b
    · subst hba
      rw [if_pos rfl] at h
      cases h
      exact Or.inl ⟨⟨rest, K, e, ch, pe, rfl⟩, rfl, rfl⟩
    · rw [if_neg hba] at h
      by_cases htype : e.iType = .mountpt
      · rw [if_pos htype] at h
        cases h
        exact Or.inr (Or.inl rfl)
      · rw [if_neg htype] at h
        by_cases hdir : IsDirectory e ch
        · rw [if_pos (hdir.imp_right head_ne_none.mpr)] at h
          cases h
          exact Or.inr (Or.inr (Or.inl ⟨⟨rest, K, b, e, ch, pe, rfl, Ne.symm hba, hdir⟩, rfl, rfl⟩))
        · rw [if_neg fun hd => hdir (hd.imp_right head_ne_none.mp)] at h
          obtain rfl : ch = .nil := not_not.mp fun hch => hdir (Or.inr hch)
          obtain rfl : rest = [] := by
            refine (seek_hit hs).2.2.resolve_right fun hmount => htype ?_
            simpa [Inode.isMountpt] using hmount
          have hs₁ := hwf.linked.seek_only (u := Inode.addref) hs rfl
          by_cases hK : K = .top
          · rw [hK] at hs₁
            rw [inodeRemove_root hf₁ hs₁] at h
            cases h
          · obtain ⟨fs₂, hrem, hf₂, hcell, -⟩ := inodeRemove_hit hf₁ hs₁ hK
            have hout : b ∉ (K.fill pe).addrs := by
              have hst := hwf.linked.stores
              rw [(seek_hit hs).1] at hst
              exact fun hb => (hst.apart.not_mem hb).1 rfl
            obtain ⟨fs₃, hrel₃, hf₃⟩ :=
              inodeRelease_removed hf₂ (hcell (Nat.succ_ne_zero _)) hout
            simp only [hrem, hrel₃, bind_some] at h
            cases h
            refine Or.inr (Or.inr (Or.inr ⟨?_, rfl, _, hwf.unlink hs hK hf₃, cleared_unlink hs⟩))
            rintro ⟨_, _, _, _, _, _, hhit, hno⟩
            injection hhit with _ _ hb' he' hch'
            subst hb' he' hch'
            rcases hno with rfl | hd
            · exact hba rfl
            · exact hdir hd

theorem pseudorename_cases (hwf : Wf fs f)
    (h : pseudorename fs oldpath a newpath answers = some (0, fs')) :
    ((∃ rest K d ch pe, seek f (destination f a oldpath newpath) = .hit rest K a d ch pe) ∧
      fs' = fs) ∨
    ((∀ rest K d ch pe, seek f (destination f a oldpath newpath) ≠ .hit rest K a d ch pe) ∧
      ∃ oldpath' fs₁ f₁, pathKeys oldpath' = pathKeys oldpath ∧ Wf fs₁ f₁ ∧
        Cleared f (destination f a oldpath newpath) f₁ ∧
        moveInode fs₁ oldpath' a (destination f a oldpath newpath) answers = some (0, fs')) := by
  obtain ⟨⟨next, fs₀⟩, hprobe, hnext⟩ := bind_eq_some_iff.mp h
  rcases probe_cases hwf hprobe with ⟨⟨rest, K, d, ch, pe, hs⟩, rfl, rfl⟩ | rfl |
    ⟨⟨rest, K, b, e, ch, pe, hs, hba, hdir⟩, rfl, rfl⟩ | ⟨hno, rfl, f₁, hwf₁, hcleared⟩
  · have hdest : destination f a oldpath newpath = newpath := by
      simp only [destination, hs]
      rw [if_neg fun hne => hne.1 rfl]
    rw [hdest]
    cases hnext
    exact Or.inl ⟨⟨rest, K, d, ch, pe, hs⟩, rfl⟩
  · obtain ⟨hret, -⟩ := Prod.mk.inj (some.inj hnext)
    cases hret
  · have hdest : destination f a oldpath newpath = newpath ++ '/' :: (basename oldpath).2 := by
      simp only [destination, hs]
      rw [if_pos ⟨hba, hdir⟩]
    rw [hdest]
    obtain ⟨⟨next, fs₁⟩, hprobe₁, hnext₁⟩ := bind_eq_some_iff.mp hnext
    rcases probe_cases hwf hprobe₁ with ⟨hit, rfl, rfl⟩ | rfl | ⟨-, rfl, -⟩ |
      ⟨hno, rfl, f₁, hwf₁, hcleared⟩
    · obtain ⟨-, rfl⟩ := Prod.mk.inj (some.inj hnext₁)
      exact Or.inl ⟨hit, rfl⟩
    · obtain ⟨hret, -⟩ := Prod.mk.inj (some.inj hnext₁)
      cases hret
    · exact absurd hnext₁ (Option.some_ne_none _).symm
    · refine Or.inr ⟨fun rest K d ch pe hs => hno ⟨rest, K, a, d, ch, pe, hs, Or.inl rfl⟩,
        (basename oldpath).1, fs₁, f₁, ?_, hwf₁, hcleared, hnext₁⟩
      rw [pathKeys, components_basename_buffer]
      rfl
  · have hdest : destination f a oldpath newpath = newpath := by
      unfold destination
      split
      · rename_i rest K b e ch pe hs
        rw [if_neg fun hd => hno ⟨rest, K, b, e, ch, pe, hs, Or.inr hd.2⟩]
      · rfl
    rw [hdest]
    exact Or.inr ⟨fun rest K d ch pe hs => hno ⟨rest, K, a, d, ch, pe, hs, Or.inl rfl⟩,
      oldpath, fs₀, f₁, rfl, hwf₁, hcleared, hnext⟩

end

/-! ## The move -/

structure Grown (f : Forest Inode) (path : List Char) (n : Addr) (x : Inode) (f' : Forest Inode) :
    Prop where
  new : f'.At Inode.iName (fun _ => false) n x (pathKeys path)
  keeps : ∀ {stop b e ks}, f.At Inode.iName stop b e ks → f'.At Inode.iName stop b e ks
  only : ∀ {stop b e ks}, f'.At Inode.iName stop b e ks →
    f.At Inode.iName stop b e ks ∨ ks <+: pathKeys path
  leaf : ∀ {stop b e k ks}, ¬f'.At Inode.iName stop b e (pathKeys path ++ k :: ks)

/--
What the move leaves: the tree without the inode `a`, and outside of it `a` itself, without
links, and the children `ch` it had, which the new inode `n` points to.
-/
structure Moved (f : Forest Inode) (oldpath newpath : List Char) (a : Addr) (d : Inode) (fs' : Fs)
    (n : Addr) (x : Inode) (K : Ctx Inode) (ch pe : Forest Inode) (fs₂ : Fs) : Prop where
  ne : a ≠ n
  data : x.iType = d.iType ∧ x.u = d.u ∧ x.iPrivate = d.iPrivate
  sorted : (K.fill (.cons a d ch pe)).Sorted Inode.iName
  nodup : (K.fill (.cons a d ch pe)).addrs.Nodup
  grown : Grown f newpath n x (K.fill (.cons a d ch pe))
  keys : pathKeys oldpath = K.keys Inode.iName ++ [d.iName]
  rest : Wf fs₂ (K.fill pe)
  children : Rep fs₂.heap (some a) ch
  same : ch = .nil → graft fs₂.heap n none = fs₂.heap
  result : fs' = ⟨(graft fs₂.heap n ch.head).put a
    (some ⟨none, none, none, { d with deleted := true }⟩), fs₂.root⟩

section

variable {fs fs' : Fs} {f : Forest Inode} {path oldpath newpath : List Char} {a : Addr}
  {answers : List Addr} {ret : Int} {node : Option Addr} {d : Inode}

theorem inodeReserve_grown (hwf : Wf fs f)
    (h : inodeReserve fs path answers = some (ret, node, fs')) (hret : ¬ret < 0) :
    ∃ (n : Addr) (k : Name) (K : Ctx Inode) (g : Forest Inode), node = some n ∧ n ∉ f.addrs ∧
      Wf fs' (K.fill (.cons n (Inode.fresh k) .nil g)) ∧
      Grown f path n (Inode.fresh k) (K.fill (.cons n (Inode.fresh k) .nil g)) := by
  have hpath : path ≠ [] := by
    rintro rfl
    rw [inodeReserve, if_pos rfl] at h
    cases h
    exact hret (by decide)
  obtain ⟨f', hwf'⟩ := hwf.reserve h
  cases hs : seek f path with
  | hit rest K b e ch pe =>
    rw [inodeReserve_hit hwf.linked hpath hs] at h
    cases h
    exact absurd (by decide) hret
  | miss rest K g =>
    obtain ⟨ret', node', fs'', as, hrun, hf', hres⟩ :=
      inodeReserve_miss hwf.linked hpath hs answers
    rw [hrun] at h
    obtain ⟨rfl, rfl, rfl⟩ := Prod.mk.inj (some.inj h) |>.imp_right Prod.mk.inj
    obtain rfl := hwf'.linked.unique hf'
    rcases hres.outcome with ⟨-, hlen, hnode⟩ | ⟨rfl, -⟩
    · obtain ⟨rfl, hroute, -⟩ := seek_miss hs
      have hrest : rest ≠ [] := hroute.rest_ne_nil (cons_ne_nil _ _)
      obtain ⟨K', k, n, g', hfill, hlast, hroute', -⟩ :=
        sprout_leaf (g := g) Inode.fresh (fun _ => rfl) (fun _ => rfl) hrest hlen hroute
      have hn : n ∈ as := mem_of_getLast? hlast
      refine ⟨n, k, K', g', hnode.trans hlast, hwf.linked.stores.not_mem_of_free (hres.fresh n hn),
        hfill ▸ hwf', ?_, ?_, ?_, ?_⟩
      · rw [hroute'.keys_eq]
        exact at_fill (fun _ _ => rfl) (Or.inl ⟨rfl, rfl, rfl⟩)
      · intro stop b e ks hat
        rw [← hfill]
        exact at_fill_mono (fun _ => sprout_subset Inode.fresh rest as) hat
      · intro stop b e ks hat
        rw [← hfill] at hat
        rcases at_fill_cases g hat with hat | ⟨hopen, t, rfl, hnew⟩
        · exact Or.inl hat
        · rcases at_of_sprout (fun _ => rfl) hnew with hold | ⟨-, hpre⟩
          · exact Or.inl (at_fill hopen hold)
          · refine Or.inr ?_
            rw [hroute.keys_eq]
            exact (prefix_append_right_inj _).mpr hpre
      · intro stop b e k' ks hat
        have hsorted := hwf'.sorted
        rw [hfill] at hsorted
        rw [hroute'.keys_eq, append_assoc] at hat
        exact absurd (mem_child_of_at (d := Inode.fresh k) hsorted hat) not_mem_nil
    · exact absurd (by decide) hret

theorem Grown.congr {n : Addr} {x y : Inode} {K : Ctx Inode} {g : Forest Inode} (hn : n ∉ f.addrs)
    (hxy : y.iName = x.iName) (hnd : (K.fill (.cons n x .nil g)).addrs.Nodup)
    (h : Grown f path n x (K.fill (.cons n x .nil g))) :
    Grown f path n y (K.fill (.cons n y .nil g)) := by
  have hpath : K.keys Inode.iName ++ [x.iName] = pathKeys path :=
    at_path_unique hnd (at_fill (fun _ _ => rfl) (Or.inl ⟨rfl, rfl, rfl⟩)) h.new
  have hnew : (K.fill (.cons n y .nil g)).At Inode.iName (fun _ => false) n y (pathKeys path) := by
    rw [← hpath, ← hxy]
    exact at_fill (fun _ _ => rfl) (Or.inl ⟨rfl, rfl, rfl⟩)
  have hnd' : (K.fill (.cons n y .nil g)).addrs.Nodup := by
    rw [(K.addrs_fill _).nodup_iff] at hnd ⊢
    exact hnd
  refine ⟨hnew, fun hat => ?_, fun {stop b e ks} hat => ?_, fun {stop b e k ks} hat => ?_⟩
  · refine at_leaf_congr ?_ (h.keeps hat)
    rintro rfl
    exact hn hat.mem_addrs
  · by_cases hb : b = n
    · subst hb
      rw [at_path_unique hnd' hat.weaken hnew]
      exact Or.inr (prefix_refl _)
    · exact h.only (at_leaf_congr hb hat)
  · by_cases hb : b = n
    · subst hb
      have heq := at_path_unique hnd' hat.weaken hnew
      exact absurd (append_right_eq_self.mp heq) (cons_ne_nil k ks)
    · exact h.leaf (at_leaf_congr hb hat)

theorem moveInode_ok (hwf : Wf fs f)
    (hat : f.At Inode.iName Inode.isMountpt a d (pathKeys oldpath)) (hheld : d.iCrefs ≠ 0)
    (h : moveInode fs oldpath a newpath answers = some (0, fs')) :
    ∃ n x K ch pe fs₂, Moved f oldpath newpath a d fs' n x K ch pe fs₂ := by
  obtain ⟨⟨ret, node, fs₀⟩, hreserve, hmove⟩ := bind_eq_some_iff.mp h
  have hret : ¬ret < 0 := by
    intro hlt
    simp only [hlt, if_true] at hmove
    obtain ⟨hex, -⟩ := Prod.mk.inj (some.inj hmove)
    cases hex
  obtain ⟨n, k, K₀, g, rfl, hn, hwf₀, hgrown⟩ := inodeReserve_grown hwf hreserve hret
  have han : a ≠ n := by
    rintro rfl
    exact hn hat.mem_addrs
  have hlive : d.deleted = false := by
    obtain ⟨K, ch, pe, rfl, -⟩ := hat.occurs
    exact (Ctx.all_fill.mp hwf.linked.live).2.1
  -- the tree with the data copied, but without the children
  obtain ⟨-, hrn, -, -⟩ := rep_fill.mp hwf₀.linked.stores.rep
  have hlink := hwf₀.linked.mapData (u := d.copied) hrn (fun _ => rfl) fun _ _ => hlive
  have hwf₁ := hwf₀.mapAt (φ := Forest.only n d.copied) (fun b e => by
    unfold Forest.only
    split <;> rfl) hlink
  rw [hwf₀.linked.stores.apart.mapAt_only] at hwf₁
  have hname : (d.copied (Inode.fresh k)).iName = (Inode.fresh k).iName := rfl
  have hgrown₁ := hgrown.congr hn hname hwf₀.linked.stores.nodup
  obtain ⟨K, ch, pe, hF, hs⟩ := walk_of_at hwf₁.sorted (hgrown₁.keeps hat)
  rw [hF] at hwf₁ hgrown₁ hs
  generalize hfs₁ : (⟨fs₀.heap.put n _, fs₀.root⟩ : Fs) = fs₁ at hwf₁
  have hrn₁ : fs₁.heap.read n = some ⟨K₀.above, g.head, none, d.copied (Inode.fresh k)⟩ := by
    rw [← hfs₁]
    exact read_put_self _ (lt_size_of_read hrn)
  obtain ⟨hra, -⟩ := hwf₁.linked.read_hit hs
  have hra₀ : fs₀.heap.read a = some ⟨K.above, pe.head, ch.head, d⟩ := by
    rw [← hra, ← hfs₁]
    exact (read_put_ne _ han).symm
  have hcopy : fs₀.heap.modify n (fun c => { c with child := ch.head, data := d.copied c.data }) =
      some (graft fs₁.heap n ch.head) := by
    rw [modify_of_read _ hrn, graft_of_read hrn₁, ← hfs₁]
    exact congrArg some (put_put _ _).symm
  have hroot : fs₀.root = fs₁.root := by rw [← hfs₁]
  have hremove := inodeRemove_graft (o := ch.head) hwf₁.linked hs hheld hrn₁ rfl han
  have hK : K ≠ .top := by
    rintro rfl
    simp only [hra₀, hcopy, hroot, bind_eq_bind, bind_some] at hmove
    rw [if_neg hret, show (⟨graft fs₁.heap n ch.head, fs₁.root⟩ : Fs) = fs₁.graft n ch.head from rfl,
      hremove, inodeRemove_root hwf₁.linked hs] at hmove
    cases hmove
  obtain ⟨fs₂, hrem₂, hf₂, hcell, hkeep⟩ := inodeRemove_hit hwf₁.linked hs hK
  have hcell₂ := hcell hheld
  have hcell₂' : (fs₂.graft n ch.head).heap.read a = _ := (read_graft_ne han).trans hcell₂
  rw [hrem₂, if_neg hheld] at hremove
  refine ⟨n, d.copied (Inode.fresh k), K, ch, pe, fs₂, han, ⟨rfl, rfl, rfl⟩, hwf₁.sorted,
    hwf₁.linked.stores.nodup, hgrown₁, (seek_hit hs).2.1.keys_eq, hwf₁.unlink hs hK hf₂, ?_, ?_, ?_⟩
  · -- what is below the old inode is not touched
    obtain ⟨-, -, hch, -⟩ := rep_fill.mp hwf₁.linked.stores.rep
    have hap := hwf₁.linked.stores.apart
    refine hch.congr fun b hb => ?_
    rcases hkeep b (hap.child_ctx b hb) (fun he => hap.node_child (he ▸ hb)) with hsame | ⟨hz, -⟩
    · exact hsame
    · exact absurd hz hheld
  · rintro rfl
    -- without children, the copy is the tree itself
    have hsame : fs₁.graft n none = fs₁ := by
      rw [Fs.graft, graft_child hrn₁]
    rw [Forest.head, hsame, hrem₂, if_neg hheld] at hremove
    exact congrArg Fs.heap (Prod.mk.inj (some.inj hremove)).2.symm
  · simp only [hra₀, hcopy, hroot, bind_eq_bind, bind_some] at hmove
    rw [if_neg hret, show (⟨graft fs₁.heap n ch.head, fs₁.root⟩ : Fs) = fs₁.graft n ch.head from rfl,
      hremove] at hmove
    simp only [map_some, bind_some, modify_of_read _ hcell₂'] at hmove
    rw [if_neg fun hbusy => hbusy.2 rfl] at hmove
    exact (Prod.mk.inj (some.inj hmove)).2.symm

end

end Gpmx.PseudoFs
