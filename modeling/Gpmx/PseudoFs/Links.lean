import Gpmx.Infra.Wiring
import Gpmx.PseudoFs.Rename

/-!
# Inodes, by their links and their counts

What the operations of the inode layer do to the links and to the data of the inodes, whatever shape
the links have. No operation but `inode_find` and `inode_release` changes a count, as long as an inode
that is taken out of the tree has no children.
-/

namespace Gpmx.PseudoFs

open Infra Option Heap

namespace Fs

def target (fs : Fs) : Link Addr → Option Addr
  | .root => fs.root
  | .child a => (fs.heap.read a).bind Cell.child
  | .peer a => (fs.heap.read a).bind Cell.peer

def data (fs : Fs) (a : Addr) : Option Inode := (fs.heap.read a).map Cell.data

/-- `i_crefs`, or 0 where there is no inode -/
def crefs (fs : Fs) (a : Addr) : Nat := ((fs.data a).map Inode.iCrefs).getD 0

/-- There is an inode, and it has not been taken out of the tree. -/
def Inside (fs : Fs) (a : Addr) : Prop := ∃ d, fs.data a = some d ∧ d.deleted = false

/-- Every link points to an inode that has not been taken out, and no two to the same. -/
def Tidy (fs : Fs) : Prop := Wired fs.target fs.Inside

variable {fs : Fs} {a b : Addr} {c : Cell Inode} {l : Link Addr}

theorem data_of_read (h : fs.heap.read a = some c) : fs.data a = some c.data := by
  rw [data, h]
  rfl

variable {d : Inode} {c' : Cell Inode} {o : Option Addr} {k : Link Addr} {a : Addr}
    {name : List Char} {node left parent : Option Addr} {answer : Addr}

theorem read_of_data (h : fs.data a = some d) :
    ∃ c, fs.heap.read a = some c ∧ c.data = d := map_eq_some_iff.mp h

/-! ## One cell -/

theorem data_put_self {o : Option (Cell Inode)} (ha : a < fs.heap.size) :
    data { fs with heap := fs.heap.put a o } a = o.map Cell.data := by
  rw [data, read_put_self _ ha]

theorem data_put_ne (o : Option (Cell Inode)) (hne : b ≠ a) :
    data { fs with heap := fs.heap.put a o } b = fs.data b := by
  rw [data, read_put_ne _ hne]
  rfl

theorem target_put_ne (o : Option (Cell Inode)) (hne : l.owner ≠ some a) :
    target { fs with heap := fs.heap.put a o } l = fs.target l := by
  cases l with
  | root => rfl
  | child b | peer b =>
    have hb : b ≠ a := fun he => hne (congrArg some he)
    rw [target, read_put_ne _ hb]
    rfl

theorem target_put_child {o : Option (Cell Inode)} (ha : a < fs.heap.size) :
    target { fs with heap := fs.heap.put a o } (.child a) = o.bind Cell.child := by
  rw [target, read_put_self _ ha]

theorem target_put_peer {o : Option (Cell Inode)} (ha : a < fs.heap.size) :
    target { fs with heap := fs.heap.put a o } (.peer a) = o.bind Cell.peer := by
  rw [target, read_put_self _ ha]

theorem data_put_same (hr : fs.heap.read a = some c) (hdata : c'.data = c.data) :
    data { fs with heap := fs.heap.put a (some c') } = fs.data := by
  funext b
  by_cases hb : b = a
  · subst hb
    rw [data_put_self (lt_size_of_read hr), data_of_read hr, map_some, hdata]
  · exact data_put_ne _ hb

theorem target_put_same (hr : fs.heap.read a = some c) (hchild : c'.child = c.child)
    (hpeer : c'.peer = c.peer) :
    target { fs with heap := fs.heap.put a (some c') } = fs.target := by
  have ha := lt_size_of_read hr
  funext l
  by_cases hl : l.owner = some a
  · cases l with
    | root => rfl
    | child b =>
      cases hl
      rw [target_put_child ha, target, hr]
      exact hchild
    | peer b =>
      cases hl
      rw [target_put_peer ha, target, hr]
      exact hpeer
  · exact target_put_ne _ hl

theorem target_put_turn (hr : fs.heap.read a = some c)
    (hk : k = .child a ∧ c'.child = o ∧ c'.peer = c.peer ∨ k = .peer a ∧ c'.peer = o ∧ c'.child = c.child) :
    target { fs with heap := fs.heap.put a (some c') } = fun l => if l = k then o else fs.target l := by
  have ha := lt_size_of_read hr
  funext l
  by_cases hl : l.owner = some a
  · have hchild : fs.target (.child a) = c.child := by
      rw [target, hr]
      rfl
    have hpeer : fs.target (.peer a) = c.peer := by
      rw [target, hr]
      rfl
    rcases hk with ⟨rfl, hturned, hkept⟩ | ⟨rfl, hturned, hkept⟩ <;> cases l <;> cases hl
    · rw [if_pos rfl]
      exact (target_put_child ha).trans hturned
    · rw [if_neg (by simp), hpeer]
      exact (target_put_peer ha).trans hkept
    · rw [if_neg (by simp), hchild]
      exact (target_put_child ha).trans hkept
    · rw [if_pos rfl]
      exact (target_put_peer ha).trans hturned
  · rw [if_neg]
    · exact target_put_ne _ hl
    · rintro rfl
      rcases hk with ⟨rfl, -⟩ | ⟨rfl, -⟩ <;> exact hl rfl

theorem modify_turn (fs : Fs) {heap : Heap Inode} {f : Cell Inode → Cell Inode}
    (h : fs.heap.modify a f = some heap) (hdata : ∀ c, (f c).data = c.data)
    (hk : ∀ c, k = .child a ∧ (f c).child = o ∧ (f c).peer = c.peer ∨ k = .peer a ∧ (f c).peer = o ∧ (f c).child = c.child) :
    target ⟨heap, fs.root⟩ = (fun l => if l = k then o else fs.target l) ∧
      data ⟨heap, fs.root⟩ = fs.data := by
  obtain ⟨c, hr, rfl⟩ := read_of_modify h
  exact ⟨target_put_turn hr (hk c), data_put_same hr (hdata c)⟩

end Fs

/-! ## Searching -/

def linkAt : Option Addr → Option Addr → Link Addr
  | some l, _ => .peer l
  | none, some p => .child p
  | none, none => .root

def Found (fs : Fs) (l : Link Addr) : Prop := ∀ a, l.owner = some a → FromRoot fs.target a

theorem found_root (fs : Fs) : Found fs .root := by
  intro a ha
  cases ha

theorem Found.next {fs : Fs} {l : Link Addr} (h : Found fs k) (hk : fs.target k = some a)
    (hl : l.owner = some a) : Found fs l := by
  intro b hb
  rw [hl] at hb
  cases hb
  cases k with
  | root => exact .root hk
  | child m | peer m => exact .step (h m rfl) rfl hk

theorem searchLoop_links {fs : Fs} {fuel : Nat} {above : Option Addr} {desc : SearchDesc}
    (h : searchLoop fs.heap fuel name node left above = some desc)
    (hnode : fs.target (linkAt left above) = node) (hfound : Found fs (linkAt left above)) :
    Found fs (linkAt desc.peer desc.parent) ∧
      (desc.ret ≥ 0 → ∃ a, desc.node = some a ∧ fs.target (linkAt desc.peer desc.parent) = some a) := by
  induction fuel generalizing name node left above with
  | zero => cases h
  | succ fuel ih =>
    cases node with
    | none =>
      cases h
      exact ⟨hfound, fun hret => absurd hret (show ¬-ENOENT ≥ 0 by decide)⟩
    | some a =>
      rw [searchLoop] at h
      cases hr : fs.heap.read a with
      | none =>
        rw [hr] at h
        cases h
      | some c =>
        rw [hr] at h
        dsimp only at h
        split_ifs at h
        · cases h
          exact ⟨hfound, fun hret => absurd hret (show ¬-ENOENT ≥ 0 by decide)⟩
        · refine ih h ?_ (hfound.next hnode rfl)
          rw [linkAt, Fs.target, hr]
          rfl
        · cases h
          exact ⟨hfound, fun _ => ⟨a, rfl, hnode⟩⟩
        · refine ih h ?_ (hfound.next hnode rfl)
          rw [linkAt, Fs.target, hr]
          rfl

theorem inodeSearch_links {fs : Fs} {path : List Char} {desc : SearchDesc}
    (h : inodeSearch fs path = some desc) :
    Found fs (linkAt desc.peer desc.parent) ∧
      (desc.ret ≥ 0 → ∃ a, desc.node = some a ∧ fs.target (linkAt desc.peer desc.parent) = some a) := by
  unfold inodeSearch at h
  generalize (if path.head? = some '/' then path else '/' :: '/' :: path) = absolute at h
  unfold inodeSearchAbs at h
  split at h
  · exact searchLoop_links h rfl (found_root fs)
  · cases h
    exact ⟨found_root fs, fun hret => absurd hret (show ¬-EINVAL ≥ 0 by decide)⟩

/-! ## Making inodes -/

structure Enlarged (fs fs' : Fs) : Prop where
  data : ∀ a, fs'.data a = fs.data a ∨ fs.data a = none ∧ ∃ name, fs'.data a = some (Inode.fresh name)

namespace Enlarged

variable {fs fs' fs'' : Fs} {a : Addr} {d : Inode}

theorem refl (fs : Fs) : Enlarged fs fs := ⟨fun _ => .inl rfl⟩

theorem old (h : Enlarged fs fs') (ha : fs.data a = some d) : fs'.data a = some d := by
  rcases h.data a with heq | ⟨hnone, -⟩
  · rw [heq, ha]
  · rw [ha] at hnone
    cases hnone

theorem trans (h : Enlarged fs fs') (h' : Enlarged fs' fs'') : Enlarged fs fs'' where
  data a := by
    rcases h'.data a with heq | ⟨hnone, hfresh⟩
    · rw [heq]
      exact h.data a
    · refine .inr ⟨?_, hfresh⟩
      rcases h.data a with heq | ⟨hnone', -⟩
      · rw [← heq, hnone]
      · exact hnone'

theorem kept (h : Enlarged fs fs') (ha : fs'.data a = none) : fs.data a = none := by
  cases hd : fs.data a with
  | none => rfl
  | some d =>
    rw [h.old hd] at ha
    cases ha

theorem crefs (h : Enlarged fs fs') (a : Addr) : fs'.crefs a = fs.crefs a := by
  unfold Fs.crefs
  rcases h.data a with heq | ⟨hnone, name, hfresh⟩
  · rw [heq]
  · rw [hnone, hfresh]
    rfl

end Enlarged

theorem relink_links (fs : Fs) {heap : Heap Inode} {above : Option Addr}
    (h : relink fs.heap left above o = some heap) :
    Fs.target ⟨heap, fs.root⟩ = (fun l => if l = linkAt left above then o else fs.target l) ∧
      Fs.data ⟨heap, fs.root⟩ = fs.data := by
  unfold relink at h
  split at h
  · exact fs.modify_turn h (fun _ => rfl) (fun _ => .inr ⟨rfl, rfl, rfl⟩)
  · exact fs.modify_turn h (fun _ => rfl) (fun _ => .inl ⟨rfl, rfl, rfl⟩)
  · cases h

theorem inodeInsert_relink (fs : Fs) {heap : Heap Inode} {node : Addr}
    (h : inodeInsert fs.heap node left parent = some heap) :
    ∃ heap₁, fs.heap.modify node (fun n => { n with peer := fs.target (linkAt left parent), parent })
        = some heap₁ ∧
      relink heap₁ left parent (some node) = some heap := by
  unfold inodeInsert at h
  split at h
  · obtain ⟨c, hr, h⟩ := bind_eq_some_iff.mp h
    obtain ⟨heap₁, hmodify, h⟩ := bind_eq_some_iff.mp h
    refine ⟨heap₁, ?_, h⟩
    rw [linkAt, Fs.target, hr]
    exact hmodify
  · obtain ⟨c, hr, h⟩ := bind_eq_some_iff.mp h
    obtain ⟨heap₁, hmodify, h⟩ := bind_eq_some_iff.mp h
    refine ⟨heap₁, ?_, h⟩
    rw [linkAt, Fs.target, hr]
    exact hmodify
  · cases h

theorem inodeAlloc_links {fs : Fs} {heap : Heap Inode}
    (h : inodeAlloc fs.heap answer name = some heap) :
    fs.data answer = none ∧ Fs.target ⟨heap, fs.root⟩ = fs.target ∧
      heap.read answer = some ⟨none, none, none, Inode.fresh (inodeNamecpy name)⟩ ∧
      ∀ a, a ≠ answer → Fs.data ⟨heap, fs.root⟩ a = fs.data a := by
  unfold inodeAlloc at h
  split_ifs at h with hfree
  obtain ⟨hlt, hnone⟩ := hfree
  cases h
  refine ⟨by rw [Fs.data, hnone]; rfl, ?_, read_put_self _ hlt, fun a ha => Fs.data_put_ne _ ha⟩
  funext l
  by_cases hl : l.owner = some answer
  · cases l with
    | root => rfl
    | child b =>
      cases hl
      rw [Fs.target_put_child hlt, Fs.target, hnone]
      rfl
    | peer b =>
      cases hl
      rw [Fs.target_put_peer hlt, Fs.target, hnone]
      rfl
  · exact Fs.target_put_ne _ hl

theorem inodeInsert_turns {fs : Fs} {heap heap' : Heap Inode}
    (halloc : inodeAlloc fs.heap answer name = some heap)
    (hinsert : inodeInsert heap answer left parent = some heap') :
    (Fs.target ⟨heap', fs.root⟩ = fun l => if l = linkAt left parent then some answer
      else if l = .peer answer then fs.target (linkAt left parent) else fs.target l) ∧
      Fs.data ⟨heap', fs.root⟩ = Fs.data ⟨heap, fs.root⟩ := by
  obtain ⟨-, htarget, -, -⟩ := inodeAlloc_links halloc
  obtain ⟨heap₁, hmodify, hrelink⟩ := inodeInsert_relink ⟨heap, fs.root⟩ hinsert
  rw [htarget] at hmodify
  obtain ⟨htarget₁, hdata₁⟩ := Fs.modify_turn (o := fs.target (linkAt left parent)) ⟨heap, fs.root⟩
    hmodify (fun _ => rfl) (fun _ => .inr ⟨rfl, rfl, rfl⟩)
  rw [htarget] at htarget₁
  obtain ⟨htarget', hdata'⟩ := relink_links ⟨heap₁, fs.root⟩ hrelink
  exact ⟨by rw [htarget', htarget₁], hdata'.trans hdata₁⟩

theorem inodeInsert_links {fs : Fs} {heap heap' : Heap Inode} (hfs : fs.Tidy)
    (hk : ∀ m, (linkAt left parent).owner = some m → fs.Inside m)
    (halloc : inodeAlloc fs.heap answer name = some heap)
    (hinsert : inodeInsert heap answer left parent = some heap') :
    Fs.Tidy ⟨heap', fs.root⟩ ∧ Enlarged fs ⟨heap', fs.root⟩ ∧ fs.data answer = none ∧
      Fs.data ⟨heap', fs.root⟩ answer = some (Inode.fresh (inodeNamecpy name)) ∧
      Fs.target ⟨heap', fs.root⟩ (.child answer) = none := by
  obtain ⟨hnone, -, hr, hdata⟩ := inodeAlloc_links halloc
  obtain ⟨htarget', hdata'⟩ := inodeInsert_turns halloc hinsert
  have hout : ¬fs.Inside answer := by
    rintro ⟨d, hd, -⟩
    rw [hnone] at hd
    cases hd
  have hfresh : Fs.data ⟨heap', fs.root⟩ answer = some (Inode.fresh (inodeNamecpy name)) := by
    rw [hdata', Fs.data, hr]
    rfl
  have hsame : ∀ a, a ≠ answer → Fs.data ⟨heap', fs.root⟩ a = fs.data a := by
    intro a ha
    rw [hdata']
    exact hdata a ha
  refine ⟨(hfs.insert hout hk).congr (fun l => congrFun htarget' l) fun m => ?_, ⟨fun a => ?_⟩,
    hnone, hfresh, ?_⟩
  · by_cases hm : m = answer
    · subst hm
      exact iff_of_true ⟨_, hfresh, rfl⟩ (.inl rfl)
    · unfold Fs.Inside
      rw [hsame m hm]
      exact ⟨.inr, fun h => h.resolve_left hm⟩
  · by_cases ha : a = answer
    · subst ha
      exact .inr ⟨hnone, _, hfresh⟩
    · exact .inl (hsame a ha)
  · rw [htarget']
    dsimp only
    rw [if_neg, if_neg (by simp), hfs.bare rfl hout]
    intro hk'
    exact hout (hk answer (by rw [← hk']; rfl))

/-- What `inode_reserve` returns: an error, or a new inode without children. -/
def Reserves (fs fs' : Fs) (ret : Int) (node : Option Addr) : Prop :=
  ret < 0 ∧ node = none ∨
    ret = 0 ∧ ∃ n name, node = some n ∧ fs.data n = none ∧ fs'.data n = some (Inode.fresh name) ∧
      fs'.target (.child n) = none

theorem reserveLoop_links {answers : List Addr} {fs fs' : Fs} {ret : Int} (hfs : fs.Tidy)
    (hk : ∀ m, (linkAt left parent).owner = some m → fs.Inside m)
    (h : reserveLoop fs.root answers fs.heap name left parent = some (ret, node, fs')) :
    fs'.Tidy ∧ Enlarged fs fs' ∧ Reserves fs fs' ret node := by
  induction answers generalizing fs name left parent with
  | nil =>
    cases h
    exact ⟨hfs, .refl fs, .inl ⟨show -ENOMEM < 0 by decide, rfl⟩⟩
  | cons answer answers ih =>
    rw [reserveLoop] at h
    cases halloc : inodeAlloc fs.heap answer name with
    | none =>
      rw [halloc] at h
      cases h
      exact ⟨hfs, .refl fs, .inl ⟨show -ENOMEM < 0 by decide, rfl⟩⟩
    | some heap =>
      rw [halloc] at h
      obtain ⟨heap', hinsert, h⟩ := bind_eq_some_iff.mp h
      obtain ⟨hfs', henlarged, hnone, hfresh, hchild⟩ := inodeInsert_links hfs hk halloc hinsert
      split at h
      · -- the next segment goes below the inode just made
        obtain ⟨htidy, henlarged', hreserves⟩ := ih hfs' (fun m hm => by
          cases hm
          exact ⟨_, hfresh, rfl⟩) h
        refine ⟨htidy, henlarged.trans henlarged', hreserves.imp_right ?_⟩
        rintro ⟨hret, n, k, hnode, hn, hrest⟩
        refine ⟨hret, n, k, hnode, ?_, hrest⟩
        rcases henlarged.data n with heq | ⟨hn', -⟩
        · rw [← heq, hn]
        · exact hn'
      · cases h
        exact ⟨hfs', henlarged, .inr ⟨rfl, answer, _, rfl, hnone, hfresh, hchild⟩⟩

/-- **`inode_reserve` keeps the links in order**, and the counts. -/
theorem inodeReserve_links {fs fs' : Fs} {path : List Char} {answers : List Addr} {ret : Int}
    (hfs : fs.Tidy) (h : inodeReserve fs path answers = some (ret, node, fs')) :
    fs'.Tidy ∧ Enlarged fs fs' ∧ Reserves fs fs' ret node := by
  unfold inodeReserve at h
  split at h
  · cases h
    exact ⟨hfs, .refl fs, .inl ⟨show -EINVAL < 0 by decide, rfl⟩⟩
  · obtain ⟨desc, hsearch, h⟩ := bind_eq_some_iff.mp h
    obtain ⟨hfound, -⟩ := inodeSearch_links hsearch
    split at h
    · cases h
      exact ⟨hfs, .refl fs, .inl ⟨show -EEXIST < 0 by decide, rfl⟩⟩
    · exact reserveLoop_links hfs (fun m hm => (hfound m hm).mem hfs) h

/-! ## References -/

namespace Fs

variable {fs fs' : Fs} {a b : Addr} {u : Inode → Inode}

theorem onInode_links (h : fs.onInode a u = some fs') :
    fs'.target = fs.target ∧
      ∃ d, fs.data a = some d ∧ fs'.data a = some (u d) ∧ ∀ b, b ≠ a → fs'.data b = fs.data b := by
  obtain ⟨heap, hmodify, h⟩ := bind_eq_some_iff.mp h
  cases h
  obtain ⟨c, hr, rfl⟩ := read_of_modify hmodify
  refine ⟨target_put_same hr rfl rfl, c.data, data_of_read hr, ?_, fun b hb => data_put_ne _ hb⟩
  exact data_put_self (lt_size_of_read hr)

theorem crefs_of_data (h : fs.data a = some d) : fs.crefs a = d.iCrefs := by
  rw [crefs, h]
  rfl

theorem crefs_of_none (h : fs.data a = none) : fs.crefs a = 0 := by
  rw [crefs, h]
  rfl

theorem crefs_congr (h : fs'.data a = fs.data a) : fs'.crefs a = fs.crefs a := by
  rw [crefs, crefs, h]

theorem Tidy.bare_of_deleted {l : Link Addr} (h : fs.Tidy) (hd : fs.data a = some d)
    (hdeleted : d.deleted = true) (hl : l.owner = some a) : fs.target l = none := by
  refine h.bare hl ?_
  rintro ⟨e, he, hlive⟩
  rw [hd] at he
  cases he
  rw [hdeleted] at hlive
  cases hlive

theorem Tidy.onInode (hfs : fs.Tidy) (h : fs.onInode a u = some fs')
    (hu : ∀ d, (u d).deleted = d.deleted) : fs'.Tidy := by
  obtain ⟨htarget, d, hd, hd', hsame⟩ := onInode_links h
  refine hfs.congr (congrFun htarget) fun b => ?_
  by_cases hb : b = a
  · subst hb
    unfold Inside
    rw [hd, hd']
    simp only [some.injEq, exists_eq_left', hu]
  · unfold Inside
    rw [hsame b hb]

end Fs

theorem inodeFree_bare {fs : Fs} {heap : Heap Inode} (hd : fs.data a = some d)
    (hchild : fs.target (.child a) = none) (hpeer : fs.target (.peer a) = none)
    (h : inodeFree fs.heap.size fs.heap (some a) = some heap) :
    Fs.target ⟨heap, fs.root⟩ = fs.target ∧ Fs.data ⟨heap, fs.root⟩ a = none ∧
      ∀ b, b ≠ a → Fs.data ⟨heap, fs.root⟩ b = fs.data b := by
  obtain ⟨c, hr, rfl⟩ := Fs.read_of_data hd
  have ha := lt_size_of_read hr
  have hc : c.child = none := by
    rw [Fs.target, hr] at hchild
    exact hchild
  have hp : c.peer = none := by
    rw [Fs.target, hr] at hpeer
    exact hpeer
  obtain ⟨fuel, hfuel⟩ := Nat.exists_eq_add_one_of_ne_zero (Nat.ne_zero_of_lt ha)
  have hnil : ∀ m heap, inodeFree m heap none = some heap := by
    intro m heap
    cases m <;> rfl
  rw [hfuel, inodeFree] at h
  simp only [hr, hc, hp, hnil, bind_eq_bind, bind_some, some.injEq] at h
  subst h
  refine ⟨?_, Fs.data_put_self ha, fun b hb => Fs.data_put_ne _ hb⟩
  funext l
  by_cases hl : l.owner = some a
  · cases l with
    | root => rfl
    | child b =>
      cases hl
      rw [hchild]
      exact Fs.target_put_child ha
    | peer b =>
      cases hl
      rw [hpeer]
      exact Fs.target_put_peer ha
  · exact Fs.target_put_ne _ hl

/-- **`inode_release` lowers one count.** The inode is freed when it has been taken out and this was
the last reference. -/
theorem inodeRelease_links {fs fs' : Fs} (hfs : fs.Tidy) (h : inodeRelease fs a = some fs') :
    fs'.Tidy ∧ fs'.crefs a = fs.crefs a - 1 ∧ (∀ b, b ≠ a → fs'.data b = fs.data b) ∧
      (fs'.data a = none → fs.crefs a ≤ 1 ∧ ∃ d, fs.data a = some d ∧ d.deleted = true) := by
  obtain ⟨fs₁, hdrop, h⟩ := bind_eq_some_iff.mp h
  obtain ⟨c, hr, h⟩ := bind_eq_some_iff.mp h
  obtain ⟨htarget, d, hd, hd₁, hsame⟩ := Fs.onInode_links hdrop
  have hfs₁ := hfs.onInode hdrop fun _ => rfl
  have hc : c.data = d.dropref := by
    rw [Fs.data_of_read hr] at hd₁
    exact some.inj hd₁
  have hcrefs : fs₁.crefs a = fs.crefs a - 1 := by
    rw [Fs.crefs_of_data hd₁, Fs.crefs_of_data hd]
    rfl
  split at h
  · next hlast =>
    obtain ⟨hzero, hdeleted⟩ := hlast
    rw [hc] at hzero hdeleted
    obtain ⟨heap, hfree, h⟩ := bind_eq_some_iff.mp h
    cases h
    have hbare : ∀ l, l.owner = some a → fs₁.target l = none :=
      fun l hl => hfs₁.bare_of_deleted hd₁ hdeleted hl
    obtain ⟨htarget₂, hgone, hsame₂⟩ := inodeFree_bare hd₁ (hbare _ rfl) (hbare _ rfl) hfree
    refine ⟨hfs₁.congr (congrFun htarget₂) fun b => ?_, ?_, fun b hb => (hsame₂ b hb).trans (hsame b hb), ?_⟩
    · by_cases hb : b = a
      · subst hb
        unfold Fs.Inside
        rw [hgone, hd₁]
        simp [hdeleted]
      · unfold Fs.Inside
        rw [hsame₂ b hb]
    · rw [Fs.crefs_of_none hgone, ← hcrefs, Fs.crefs_of_data hd₁, hzero]
    · intro _
      refine ⟨?_, d, hd, hdeleted⟩
      rw [Fs.crefs_of_data hd]
      have hle : d.iCrefs - 1 = 0 := hzero
      omega
  · cases h
    refine ⟨hfs₁, hcrefs, hsame, fun hnone => ?_⟩
    rw [hd₁] at hnone
    cases hnone

end Gpmx.PseudoFs
