import Gpmx.PseudoFs.LinkSteps

/-!
# The inode of the directory streams

The file of every directory stream has `g_dir_inode` as its `f_inode`. This inode is static. It is in no
directory, nothing is put below it, and it is not removed: only its count changes.

A search goes from the root, so it does not come to `g_dir_inode`; and the links that `inode_reserve`,
`inode_remove` and `pseudorename` turn are links that a search came to, or links of what it found.
-/

namespace Gpmx.PseudoFs

open Infra Option

structure Fs.Aside (fs : Fs) (g : Addr) : Prop where
  apart : ∀ l, fs.target l ≠ some g
  bare : ∀ l, l.owner = some g → fs.target l = none
  dir : ∃ d, fs.data g = some d ∧ d.iType = .pseudodir ∧ d.deleted = false

namespace Fs.Aside

variable {fs fs' : Fs} {g a : Addr} {l : Link Addr}

theorem not_fromRoot (h : fs.Aside g) : ¬FromRoot fs.target g := by
  intro hroot
  cases hroot with
  | root hl | step _ _ hl => exact h.apart _ hl

variable {path : List Char} {answers : List Addr} {ret : Int} {newpath : List Char}
    {oldinode : Addr}

theorem ne_of_finds (h : fs.Aside g) (hfinds : Finds fs path a) : a ≠ g := by
  rintro rfl
  exact h.not_fromRoot hfinds.fromRoot

theorem owner_ne (h : fs.Aside g) (hl : fs.target l = some a) : l.owner ≠ some g := by
  intro howner
  rw [h.bare l howner] at hl
  cases hl

theorem there (h : fs.Aside g) : fs.data g ≠ none := by
  obtain ⟨d, hd, -⟩ := h.dir
  rw [hd]
  simp

theorem congr (h : fs.Aside g) (htarget : fs'.target = fs.target)
    (hdata : ∀ d, fs.data g = some d → ∃ d', fs'.data g = some d' ∧ d'.iType = d.iType ∧
      d'.deleted = d.deleted) : fs'.Aside g where
  apart l := by rw [htarget]; exact h.apart l
  bare l hl := by rw [htarget]; exact h.bare l hl
  dir := by
    obtain ⟨d, hd, htype, hlive⟩ := h.dir
    obtain ⟨d', hd', htype', hlive'⟩ := hdata d hd
    exact ⟨d', hd', htype'.trans htype, hlive'.trans hlive⟩

theorem turn (h : fs.Aside g)
    (htarget : ∀ l, fs'.target l = fs.target l ∨ l.owner ≠ some g ∧ fs'.target l ≠ some g)
    (hdata : fs'.data g = fs.data g) : fs'.Aside g where
  apart l := by
    rcases htarget l with heq | ⟨-, hne⟩
    · rw [heq]
      exact h.apart l
    · exact hne
  bare l hl := by
    rcases htarget l with heq | ⟨howner, -⟩
    · rw [heq]
      exact h.bare l hl
    · exact absurd hl howner
  dir := by
    rw [hdata]
    exact h.dir

/-! ## The operations of the inode layer -/

theorem onInode {u : Inode → Inode} (h : fs.Aside g) (hon : fs.onInode a u = some fs')
    (hu : a = g → ∀ d, (u d).iType = d.iType ∧ (u d).deleted = d.deleted) : fs'.Aside g := by
  obtain ⟨htarget, e, he, he', hsame⟩ := Fs.onInode_links hon
  refine h.congr htarget fun d hd => ?_
  by_cases ha : a = g
  · subst ha
    rw [hd] at he
    cases he
    exact ⟨_, he', hu rfl _⟩
  · exact ⟨d, by rw [hsame g (Ne.symm ha), hd], rfl, rfl⟩

theorem addref (h : fs.Aside g) (hon : fs.onInode a Inode.addref = some fs') : fs'.Aside g :=
  h.onInode hon fun _ _ => ⟨rfl, rfl⟩

theorem find {desc : SearchDesc} (h : fs.Aside g) (hfind : inodeFind fs path = some (desc, fs')) :
    fs'.Aside g := by
  rcases inodeFind_links hfind with ⟨-, rfl⟩ | ⟨-, a, -, -, haddref⟩
  · exact h
  · exact h.addref haddref

theorem release (hfs : fs.Tidy) (h : fs.Aside g) (hrelease : inodeRelease fs a = some fs') :
    fs'.target = fs.target ∧ fs'.Aside g := by
  obtain ⟨fs₁, hdrop, hrelease⟩ := bind_eq_some_iff.mp hrelease
  obtain ⟨c, hr, hrelease⟩ := bind_eq_some_iff.mp hrelease
  have hfs₁ := hfs.onInode hdrop fun _ => rfl
  have h₁ := h.onInode hdrop fun _ _ => ⟨rfl, rfl⟩
  have htarget₁ := (Fs.onInode_links hdrop).1
  split at hrelease
  · next hlast =>
    obtain ⟨heap, hfree, hrelease⟩ := bind_eq_some_iff.mp hrelease
    cases hrelease
    have hd := Fs.data_of_read hr
    have hbare : ∀ l, l.owner = some a → fs₁.target l = none :=
      fun l hl => hfs₁.bare_of_deleted hd hlast.2 hl
    obtain ⟨htarget, -, hsame⟩ := inodeFree_bare hd (hbare _ rfl) (hbare _ rfl) hfree
    -- what is freed has been taken out of the tree, which this inode never was in
    have hne : g ≠ a := by
      rintro rfl
      obtain ⟨d, hd', -, hlive⟩ := h₁.dir
      rw [hd] at hd'
      cases hd'
      rw [hlast.2] at hlive
      cases hlive
    exact ⟨htarget.trans htarget₁, h₁.congr htarget fun d hd => ⟨d, by rw [hsame g hne, hd], rfl, rfl⟩⟩
  · cases hrelease
    exact ⟨htarget₁, h₁⟩

theorem insert {heap heap' : Heap Inode} {answer : Addr} {name : List Char} {left parent : Option Addr}
    (h : fs.Aside g) (hk : (linkAt left parent).owner ≠ some g)
    (halloc : inodeAlloc fs.heap answer name = some heap)
    (hinsert : inodeInsert heap answer left parent = some heap') :
    Fs.Aside ⟨heap', fs.root⟩ g ∧ answer ≠ g := by
  obtain ⟨hnone, -, -, hsame⟩ := inodeAlloc_links halloc
  obtain ⟨htarget, hdata⟩ := inodeInsert_turns halloc hinsert
  have hne : answer ≠ g := by
    rintro rfl
    exact h.there hnone
  refine ⟨h.turn (fun l => ?_) ?_, hne⟩
  · rw [htarget]
    dsimp only
    split_ifs with hlk hlp
    · subst hlk
      exact .inr ⟨hk, by simpa using hne⟩
    · subst hlp
      exact .inr ⟨by simpa [Link.owner] using hne, h.apart _⟩
    · exact .inl rfl
  · rw [hdata]
    exact hsame g hne.symm

theorem reserveLoop {name : List Char} {left parent : Option Addr} {node : Option Addr}
    (h : fs.Aside g) (hk : (linkAt left parent).owner ≠ some g)
    (hreserve : reserveLoop fs.root answers fs.heap name left parent = some (ret, node, fs')) :
    fs'.Aside g := by
  induction answers generalizing fs name left parent with
  | nil =>
    cases hreserve
    exact h
  | cons answer answers ih =>
    rw [PseudoFs.reserveLoop] at hreserve
    cases halloc : inodeAlloc fs.heap answer name with
    | none =>
      rw [halloc] at hreserve
      cases hreserve
      exact h
    | some heap =>
      rw [halloc] at hreserve
      obtain ⟨heap', hinsert, hreserve⟩ := bind_eq_some_iff.mp hreserve
      obtain ⟨h', hne⟩ := h.insert hk halloc hinsert
      split at hreserve
      · -- the next segment goes below the inode just made
        exact ih h' (by simpa [linkAt, Link.owner] using hne) hreserve
      · cases hreserve
        exact h'

theorem reserve {node : Option Addr} (h : fs.Aside g)
    (hreserve : inodeReserve fs path answers = some (ret, node, fs')) : fs'.Aside g := by
  unfold inodeReserve at hreserve
  split at hreserve
  · cases hreserve
    exact h
  · obtain ⟨desc, hsearch, hreserve⟩ := bind_eq_some_iff.mp hreserve
    split at hreserve
    · cases hreserve
      exact h
    · refine h.reserveLoop (fun howner => ?_) hreserve
      exact h.not_fromRoot ((inodeSearch_links hsearch).1 g howner)

theorem remove (h : fs.Aside g) (hleaf : ∀ a, Finds fs path a → fs.target (.child a) = none)
    (hremove : inodeRemove fs path = some (ret, fs')) : fs'.Aside g := by
  have hunlink := hremove
  obtain ⟨⟨node, fs₁⟩, hunlink, hrest⟩ := bind_eq_some_iff.mp hunlink
  have hlookup := hunlink
  obtain ⟨desc, hsearch, -⟩ := bind_eq_some_iff.mp hlookup
  rcases inodeUnlink_links hsearch hunlink with ⟨-, rfl, rfl⟩ | ⟨hret, a, hnode, rfl, hk, hdata₁, -⟩
  · cases hrest
    exact h
  obtain ⟨c, hr, -⟩ := bind_eq_some_iff.mp hrest
  have hd : fs.data a = some c.data := by
    rw [← hdata₁]
    exact Fs.data_of_read hr
  obtain ⟨-, htarget, hsame, -⟩ :=
    inodeRemove_found hsearch hret hnode hd (fun _ => hleaf a ⟨desc, hsearch, hret, hnode⟩) hremove
  have hne : a ≠ g := by
    rintro rfl
    exact h.apart _ hk
  refine h.turn (fun l => ?_) (hsame g hne.symm)
  rw [htarget]
  dsimp only
  split_ifs with hpeer hlk
  · subst hpeer
    exact .inr ⟨by simpa [Link.owner] using hne, nofun⟩
  · subst hlk
    exact .inr ⟨h.owner_ne hk, h.apart _⟩
  · exact .inl rfl

theorem move {oldpath : List Char} (hfs : fs.Tidy) (h : fs.Aside g) (hheld : 0 < fs.crefs oldinode)
    (hfinds : StillFinds fs oldpath oldinode newpath answers)
    (hmove : moveInode fs oldpath oldinode newpath answers = some (ret, fs')) : fs'.Aside g := by
  obtain ⟨⟨ret₁, node, fs₁⟩, hreserve, hmove⟩ := bind_eq_some_iff.mp hmove
  obtain ⟨hfs₁, henlarged, hreserves⟩ := inodeReserve_links hfs hreserve
  have h₁ := h.reserve hreserve
  dsimp only at hmove
  rcases hreserves with ⟨hneg, -⟩ | ⟨hzero, n, name, hnode, hnone, hfresh, hleaf⟩
  · rw [if_pos hneg] at hmove
    cases hmove
    exact h₁
  subst hnode
  rw [if_neg (by omega)] at hmove
  obtain ⟨_, hn, hmove⟩ := bind_eq_some_iff.mp hmove
  cases hn
  obtain ⟨o, ho, hmove⟩ := bind_eq_some_iff.mp hmove
  obtain ⟨heap₂, hmodify, hmove⟩ := bind_eq_some_iff.mp hmove
  obtain ⟨cn, hrn, rfl⟩ := Heap.read_of_modify hmodify
  obtain ⟨⟨ret₃, fs₃⟩, hremove, hmove⟩ := bind_eq_some_iff.mp hmove
  have hfind := hfinds ret₁ n fs₁ hreserve
  have hne : oldinode ≠ n := by
    rintro rfl
    rw [Fs.crefs_of_none hnone] at hheld
    omega
  have hold := Fs.data_of_read ho
  have hcrefs : o.data.iCrefs ≠ 0 := by
    rw [← henlarged.crefs, Fs.crefs_of_data hold] at hheld
    omega
  have hcn : cn.child = none := by
    rw [Fs.target, hrn] at hleaf
    exact hleaf
  obtain ⟨hret₃, ⟨k, hk, htarget⟩, -, -, hother⟩ :=
    inodeRemove_copied hrn ho hne hcn hcrefs hfind hremove
  rw [if_neg (fun hfails => hfails.2 hret₃)] at hmove
  obtain ⟨heap, hclear, hmove⟩ := bind_eq_some_iff.mp hmove
  cases hmove
  obtain ⟨htarget', hdata'⟩ := Fs.modify_turn (o := none) fs₃ hclear (fun _ => rfl)
    (fun _ => .inl ⟨rfl, rfl, rfl⟩)
  -- neither the old inode nor the new one is this one
  have hgo : oldinode ≠ g := h₁.ne_of_finds hfind
  have hgn : n ≠ g := by
    rintro rfl
    exact h.there hnone
  refine h₁.turn (fun l => ?_) ?_
  · rw [htarget', htarget]
    dsimp only
    split_ifs with hl₁ hl₂ hl₃ hl₄
    · subst hl₁
      exact .inr ⟨by simpa [Link.owner] using hgo, fun ha => (some_ne_none g ha.symm).elim⟩
    · subst hl₂
      exact .inr ⟨by simpa [Link.owner] using hgo, fun ha => (some_ne_none g ha.symm).elim⟩
    · subst hl₃
      exact .inr ⟨h₁.owner_ne hk, h₁.apart _⟩
    · subst hl₄
      exact .inr ⟨by simpa [Link.owner] using hgn, h₁.apart _⟩
    · exact .inl rfl
  · rw [hdata']
    exact hother g hgo.symm hgn.symm

end Fs.Aside

end Gpmx.PseudoFs
