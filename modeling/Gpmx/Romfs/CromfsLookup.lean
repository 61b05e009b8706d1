import Gpmx.Romfs.Cromfs

/-!
# CROMFS: what `cromfs_find_node` returns

The traversal is described by `Visit`: the entries of a directory one after the other, and how it
ends. It may end with the cursor moved, and the traversal of the enclosing directory goes on from
there. `Visit` has an outcome for every image and path, the code computes it, and `Layout.Finds`
says when it is a success.
-/

namespace Gpmx.Romfs

open Option List

namespace Layout

variable {fs : Volume} (L : Layout fs)

inductive Outcome where
  | found (e : Entry)
  | notDir
  | moved (p : List Char)

inductive Visit : List Entry → List Char → Outcome → Prop
  | done {p : List Char} : Visit [] p (.moved p)
  | skip {d : Entry} {es : List Entry} {p : List Char} {o : Outcome} (hname : d.name ≠ seg p)
      (h : Visit es p o) : Visit (d :: es) p o
  | last {d : Entry} {es : List Entry} {p : List Char} (hname : d.name = seg p) (hlast : Last p) :
      Visit (d :: es) p (.found d)
  | notDir {d : Entry} {es : List Entry} {p : List Char} (hname : d.name = seg p) (hlast : ¬Last p)
      (hdir : d.dir = false) : Visit (d :: es) p .notDir
  | found {d e : Entry} {es : List Entry} {p : List Char} (hname : d.name = seg p) (hlast : ¬Last p)
      (hdir : d.dir = true) (h : Visit (L.entries d.ptr) (next p) (.found e)) :
      Visit (d :: es) p (.found e)
  | failed {d : Entry} {es : List Entry} {p : List Char} (hname : d.name = seg p) (hlast : ¬Last p)
      (hdir : d.dir = true) (h : Visit (L.entries d.ptr) (next p) .notDir) :
      Visit (d :: es) p .notDir
  | resume {d : Entry} {es : List Entry} {p q : List Char} {o : Outcome} (hname : d.name = seg p)
      (hlast : ¬Last p) (hdir : d.dir = true) (h : Visit (L.entries d.ptr) (next p) (.moved q))
      (h' : Visit es q o) : Visit (d :: es) p o

variable {L}

variable {p : List Char} {e : Entry} {es : List Entry} {cp : CompareNode}

theorem length_next_lt (h : seg p ≠ []) : (next p).length < p.length := by
  have hpos : 0 < cromfsSeglen p ∧ 0 < p.length := by
    constructor
    · rw [Nat.pos_iff_ne_zero]
      intro hz
      exact h (by rw [seg, hz]; rfl)
    · rw [length_pos_iff]
      rintro rfl
      exact h rfl
  have hle : (next p).length ≤ (p.drop (cromfsSeglen p)).length := (dropWhile_suffix _).length_le
  rw [length_drop] at hle
  omega

/-- **Every traversal ends.** -/
theorem visit_total : ∀ (n : Nat) (es : List Entry) (p : List Char), p.length ≤ n → L.Own es →
    ∃ o, L.Visit es p o ∧ ∀ q, o = .moved q → q.length ≤ p.length
  | n, [], p, _, _ => ⟨.moved p, .done, fun q hq => by cases hq; exact Nat.le_refl _⟩
  | n, d :: es, p, hn, hown => by
    by_cases hname : d.name = seg p
    · by_cases hlast : Last p
      · exact ⟨.found d, .last hname hlast, fun q hq => nomatch hq⟩
      · cases hdir : d.dir with
        | false => exact ⟨.notDir, .notDir hname hlast hdir, fun q hq => nomatch hq⟩
        | true =>
          have hlt := length_next_lt (hname ▸ hown.name_ne)
          match n with
          | 0 => omega
          | n + 1 =>
            obtain ⟨o, ho, hq⟩ := visit_total n (L.entries d.ptr) (next p) (by omega) (hown.down hdir)
            cases o with
            | found e => exact ⟨.found e, .found hname hlast hdir ho, fun q hq => nomatch hq⟩
            | notDir => exact ⟨.notDir, .failed hname hlast hdir ho, fun q hq => nomatch hq⟩
            | moved q =>
              have hle := hq q rfl
              obtain ⟨o', ho', hq'⟩ := visit_total (n + 1) es q (by omega) hown.tail
              exact ⟨o', .resume hname hlast hdir ho ho', fun r hr => by have := hq' r hr; omega⟩
    · obtain ⟨o, ho, hq⟩ := visit_total n es p hn hown.tail
      exact ⟨o, .skip hname ho, hq⟩
termination_by n es => (n, es.length)

theorem down_iff {d : Entry} (hname : d.name = seg p) (hlast : ¬Last p) (hdir : d.dir = true) :
    L.Finds (d :: es) p e ↔ L.Finds (L.entries d.ptr ++ es) (next p) e := by
  constructor
  · intro hf
    cases hf with
    | skip hn _ => exact absurd hname hn
    | last _ hl => exact absurd hl hlast
    | down _ _ _ hf => exact hf
  · exact .down hname hlast hdir

/-- **What is found, when the entries `rest` are searched after `es`.** -/
theorem Visit.finds_iff {o : Outcome} (h : L.Visit es p o) :
    ∀ (rest : List Entry) (e : Entry), L.Finds (es ++ rest) p e ↔
      o = .found e ∨ ∃ q, o = .moved q ∧ L.Finds rest q e := by
  induction h with intro rest e
  | done =>
    constructor
    · intro hf
      exact .inr ⟨_, rfl, hf⟩
    · rintro (hf | ⟨q, hq, hf⟩)
      · cases hf
      · cases hq
        exact hf
  | skip hname _ ih =>
    rw [← ih rest e]
    constructor
    · intro hf
      cases hf with
      | skip _ hf => exact hf
      | last hn _ | down hn _ _ _ => exact absurd hn hname
    · exact .skip hname
  | last hname hlast =>
    constructor
    · intro hf
      cases hf with
      | skip hn _ => exact absurd hname hn
      | last _ _ => exact .inl rfl
      | down _ hl _ _ => exact absurd hlast hl
    · rintro (hf | ⟨q, hq, _⟩)
      · cases hf
        exact .last hname hlast
      · cases hq
  | notDir hname hlast hdir =>
    constructor
    · intro hf
      cases hf with
      | skip hn _ => exact absurd hname hn
      | last _ hl => exact absurd hl hlast
      | down _ _ hd _ => rw [hdir] at hd; cases hd
    · rintro (hf | ⟨q, hq, _⟩)
      · cases hf
      · cases hq
  | found hname hlast hdir _ ih | failed hname hlast hdir _ ih =>
    rw [cons_append, down_iff hname hlast hdir, ih]
    simp
  | resume hname hlast hdir _ _ ih ih' =>
    rw [cons_append, down_iff hname hlast hdir, ih, ← ih' rest e]
    simp

end Layout

/-! ## The code -/

section Code

variable {fs : Volume} {L : Layout fs} {offset peer : Nat} {e : Entry}

structure Shows (fs : Volume) (node : Node) (e : Entry) (peer : Nat) : Prop where
  mode : node.cnMode = e.mode
  size : node.cnSize = e.size
  ptr : node.cnChild = e.ptr
  peer : node.cnPeer = peer
  name : nodeName fs node = some e.name

theorem follow_entry (h : IsEntry fs offset e peer) (follow : Bool) :
    ∃ node, cromfsFollowLink fs follow CROMFS_MAX_LINKS (fs.nodeAt offset) = some (0, node) ∧
      Shows fs node e peer := by
  unfold CROMFS_MAX_LINKS cromfsFollowLink
  cases hlink : e.link with
  | false =>
    obtain ⟨hkind, hmode, hsize⟩ := h.plain hlink
    rw [if_pos hkind]
    exact ⟨_, rfl, hmode.symm, hsize.symm, h.ptr.symm, h.peer.symm, h.name⟩
  | true =>
    obtain ⟨hkind, hdots, hmode, hsize⟩ := h.dots hlink
    rw [if_neg (not_not_intro hkind)]
    simp only [h.name, bind_eq_bind, bind_some, if_pos hdots]
    exact ⟨_, rfl, hmode.symm, hsize.symm, h.ptr.symm, h.peer.symm, h.name⟩

theorem seglen_le (p : List Char) : cromfsSeglen p ≤ p.length :=
  Nat.le_trans (Nat.mod_le _ _) ( takeWhile_prefix _).length_le

theorem length_seg (p : List Char) : (seg p).length = cromfsSeglen p := by
  unfold seg
  rw [length_take, Nat.min_eq_left (seglen_le p)]

theorem last_iff (p : List Char) : Last p ↔ p[(seg p).length]? = none := by
  rw [length_seg, getElem?_eq_none_iff]
  exact drop_eq_nil_iff

variable {foreachNode : Nat → CompareNode → Option (Int × CompareNode)} {node : Node}

theorem compare_skip (h : Shows fs node e peer) (hlen : cp.seglen = cromfsSeglen cp.segment)
    (hname : e.name ≠ seg cp.segment) :
    cromfsCompareNode fs foreachNode node offset cp = some (0, cp) := by
  simp only [cromfsCompareNode, h.name, bind_eq_bind, bind_some]
  split
  · rfl
  · rename_i hl
    rw [if_pos]
    intro htake
    apply hname
    rw [seg, ← hlen, ← not_not.mp hl, htake]

theorem compare_hit (h : Shows fs node e peer) (hlen : cp.seglen = cromfsSeglen cp.segment)
    (hname : e.name = seg cp.segment) (hne : e.name ≠ []) :
    cromfsCompareNode fs foreachNode node offset cp =
      if Last cp.segment then cromfsLastSegment fs node offset cp
      else if e.dir then
        foreachNode e.ptr
          { cp with segment := next cp.segment, seglen := cromfsSeglen (next cp.segment) }
      else some (-ENOTDIR, cp) := by
  have hlength : e.name.length = cp.seglen := by rw [hname, length_seg, hlen]
  have htake : cp.segment.take e.name.length = e.name := by
    rw [hlength, hlen]
    exact hname.symm
  simp only [cromfsCompareNode, h.name, bind_eq_bind, bind_some, hlength, ne_eq,
    not_true_eq_false, if_false]
  rw [← hlength, if_neg (not_not_intro htake), hname]
  by_cases hlast : Last cp.segment
  · rw [if_pos ((last_iff _).mp hlast), if_pos hlast]
  · have hsome := fun hn => hlast ((last_iff cp.segment).mpr hn)
    have hslash : ¬(cp.segment[(seg cp.segment).length]? = some '/' ∧ cp.segment[1]? = none) := by
      rintro ⟨-, hshort⟩
      have hpos := length_pos_iff.mpr hne
      rw [hname] at hpos
      have hlt : (seg cp.segment).length < cp.segment.length := by
        by_contra hge
        exact hsome (getElem?_eq_none (Nat.le_of_not_lt hge))
      have hle := getElem?_eq_none_iff.mp hshort
      omega
    rw [if_neg hsome, if_neg hlast, if_neg hslash]
    unfold Entry.dir
    rw [h.mode, h.ptr, ← hname, hlength, hlen]
    cases isDir e.mode <;> rfl

def Layout.reported (L : Layout fs) (e : Entry) : NodeInfo :=
  if e.dir then ((L.entries e.ptr).head?.elim e.info fun d => ⟨d.mode, d.size, e.ptr⟩) else e.info

theorem lastSegment_entry (h : Shows fs node e peer) (hhead : e.dir = true → L.heads e.ptr)
    (cp : CompareNode) :
    cromfsLastSegment fs node offset cp = some (1, { cp with info := L.reported e, offset }) := by
  unfold cromfsLastSegment Layout.reported Entry.dir
  rw [h.mode]
  cases hdir : isDir e.mode with
  | false => simp [h.size, h.ptr, Entry.info]
  | true =>
    have ho := hhead hdir
    obtain ⟨d, es, hes, -⟩ := L.dot e.ptr ho
    have hchain := L.chain e.ptr ho
    rw [hes] at hchain
    obtain ⟨second, hd, -⟩ := hchain.head
    obtain ⟨first, hfollow, hshows⟩ := follow_entry hd false
    simp only [if_true, cromfsChildNode, h.ptr, hd.addr, map_some, bind_eq_bind,
      bind_some, hfollow, hes, head?_cons, elim_some, hshows.mode, hshows.size]
    simp

def Layout.Ends (L : Layout fs) (info : NodeInfo) (off : Nat) :
    Layout.Outcome → Int × CompareNode → Prop
  | .found e, r => r.1 = 1 ∧ r.2.info = L.reported e ∧ r.2.offset = e.offset
  | .notDir, r => r.1 = -ENOTDIR
  | .moved q, r => r = (0, ⟨info, q, off, cromfsSeglen q⟩)

theorem foreach_entry (h : IsEntry fs offset e peer) {n fuel : Nat} (hfuel : n + 1 ≤ fuel) {follow : Bool} :
    ∃ node k, n ≤ k ∧ Shows fs node e peer ∧ cromfsForeachNode fs fuel follow offset cp =
      (cromfsCompareNode fs (cromfsForeachNode fs k true) node offset cp).bind fun c =>
        if c.1 ≠ 0 then some c else cromfsForeachNode fs k follow peer c.2 := by
  obtain ⟨k, rfl⟩ := Nat.exists_eq_add_of_le' hfuel
  obtain ⟨node, hfollow, hshows⟩ := follow_entry h follow
  refine ⟨node, k + n, Nat.le_add_left n k, hshows, ?_⟩
  rw [← Nat.add_assoc, cromfsForeachNode]
  simp only [h.addr, hfollow, bind_eq_bind, bind_some, hshows.peer]
  rw [if_neg (Int.lt_irrefl 0)]

/-- **The code computes the outcome of the traversal.** -/
theorem Layout.Visit.code {o : Layout.Outcome} (h : L.Visit es p o) :
    ∀ {offset : Nat}, Chain fs offset es → L.Own es →
    ∃ n, ∀ fuel ≥ n, ∀ (follow : Bool) (info : NodeInfo) (off : Nat), ∃ r,
      cromfsForeachNode fs fuel follow offset ⟨info, p, off, cromfsSeglen p⟩ = some r ∧
        L.Ends info off o r := by
  induction h with intro offset hchain hown
  | done =>
    cases hchain
    refine ⟨1, fun fuel hfuel follow info off => ⟨_, ?_, rfl⟩⟩
    obtain ⟨k, rfl⟩ := Nat.exists_eq_add_of_le' hfuel
    rfl
  | skip hname _ ih =>
    obtain ⟨peer, he, hes⟩ := hchain.head
    obtain ⟨n, hn⟩ := ih hes hown.tail
    refine ⟨n + 1, fun fuel hfuel follow info off => ?_⟩
    obtain ⟨node, k, hk, hshows, hstep⟩ := foreach_entry he hfuel
    rw [hstep, compare_skip hshows rfl hname]
    exact hn k hk follow info off
  | last hname hlast =>
    obtain ⟨peer, he, hes⟩ := hchain.head
    refine ⟨1, fun fuel hfuel follow info off => ?_⟩
    obtain ⟨node, k, -, hshows, hstep⟩ := foreach_entry he hfuel
    rw [hstep, compare_hit hshows rfl hname hown.name_ne, if_pos hlast,
      lastSegment_entry hshows fun hdir => hown.head hdir]
    exact ⟨_, rfl, rfl, rfl, he.offset_eq.symm⟩
  | notDir hname hlast hdir =>
    obtain ⟨peer, he, hes⟩ := hchain.head
    refine ⟨1, fun fuel hfuel follow info off => ?_⟩
    obtain ⟨node, k, -, hshows, hstep⟩ := foreach_entry he hfuel
    rw [hstep, compare_hit hshows rfl hname hown.name_ne, if_neg hlast, hdir]
    exact ⟨_, rfl, rfl⟩
  | found hname hlast hdir _ ih =>
    obtain ⟨peer, he, hes⟩ := hchain.head
    obtain ⟨n, hn⟩ := ih (L.chain _ (hown.head hdir)) (hown.down hdir)
    refine ⟨n + 1, fun fuel hfuel follow info off => ?_⟩
    obtain ⟨node, k, hk, hshows, hstep⟩ := foreach_entry he hfuel
    obtain ⟨r, hr, hret, hinfo⟩ := hn k hk true info off
    rw [hstep, compare_hit hshows rfl hname hown.name_ne, if_neg hlast, if_pos hdir, hr]
    refine ⟨r, ?_, hret, hinfo⟩
    rw [bind_some, if_pos (by rw [hret]; decide)]
  | failed hname hlast hdir _ ih =>
    obtain ⟨peer, he, hes⟩ := hchain.head
    obtain ⟨n, hn⟩ := ih (L.chain _ (hown.head hdir)) (hown.down hdir)
    refine ⟨n + 1, fun fuel hfuel follow info off => ?_⟩
    obtain ⟨node, k, hk, hshows, hstep⟩ := foreach_entry he hfuel
    obtain ⟨r, hr, hret⟩ := hn k hk true info off
    have hret : r.1 = -ENOTDIR := hret
    rw [hstep, compare_hit hshows rfl hname hown.name_ne, if_neg hlast, if_pos hdir, hr]
    refine ⟨r, ?_, hret⟩
    rw [bind_some, if_pos (by rw [hret]; decide)]
  | resume hname hlast hdir _ _ ih ih' =>
    obtain ⟨peer, he, hes⟩ := hchain.head
    obtain ⟨n, hn⟩ := ih (L.chain _ (hown.head hdir)) (hown.down hdir)
    obtain ⟨m, hm⟩ := ih' hes hown.tail
    refine ⟨n + m + 1, fun fuel hfuel follow info off => ?_⟩
    obtain ⟨node, k, hk, hshows, hstep⟩ := foreach_entry he hfuel
    obtain ⟨r, hr, hmoved⟩ := hn k (by omega) true info off
    -- the cursor stays where the sub-directory has left it
    have hmoved : r = (0, _) := hmoved
    rw [hstep, compare_hit hshows rfl hname hown.name_ne, if_neg hlast, if_pos hdir, hr, hmoved]
    exact hm k (by omega) follow info off

end Code

/-! ## Exact lookups -/

namespace Layout

variable {fs : Volume} (L : Layout fs)

/-- The result is that of the entry that the path names, or a failure if it names none. -/
def Exact (path : List Char) (r : Int × NodeInfo × Nat) : Prop :=
  match L.target path with
  | some e => r = (0, e.info, e.offset)
  | none => r.1 < 0

/--
The paths that are looked up exactly.

* With `/` at its end, a path names no directory.
* A directory that is named has the mode and the size of its first entry.
* Nothing is found, by going on behind the directories on the way, for a path that names nothing.
-/
structure Plain (path : List Char) : Prop where
  noSlash : Trailing path → L.target path = none
  alike : ∀ e d, L.target path = some e → e.dir = true → L.dotOf e = some d →
    e.mode = d.mode ∧ e.size = d.size
  straight : (∃ e, L.Finds (L.entries fs.cvRoot) path e) → L.target path ≠ none

variable {L}

theorem find_root (fuel : Nat) (info : NodeInfo) (offset : Nat) :
    ∃ e, L.target [] = some e ∧ e.ptr = fs.cvRoot ∧
      cromfsFindNode fs fuel [] info offset = some (0, e.info, e.offset) := by
  obtain ⟨e, es, hes, -, -, hptr⟩ := L.dot _ L.root
  have hchain := L.chain _ L.root
  rw [hes] at hchain
  obtain ⟨second, he, -⟩ := hchain.head
  obtain ⟨node, hfollow, hshows⟩ := follow_entry he false
  refine ⟨e, by rw [target, if_pos rfl, hes]; rfl, hptr, ?_⟩
  simp only [cromfsFindNode, he.addr, map_some, bind_eq_bind, bind_some, hfollow,
    hshows.mode, hshows.size, hshows.ptr, Entry.info, he.offset_eq]
  rfl

theorem find_relative {path : List Char} (hne : path ≠ []) (hrel : path.head? ≠ some '/')
    (info : NodeInfo) (offset : Nat) : ∃ n, ∀ fuel ≥ n, ∃ r,
      cromfsFindNode fs fuel path info offset = some r ∧
      ((∃ e, L.Finds (L.entries fs.cvRoot) path e ∧ r = (0, L.reported e, e.offset)) ∨
        (¬∃ e, L.Finds (L.entries fs.cvRoot) path e) ∧ r.1 < 0) := by
  have hown := own_entries L.root
  obtain ⟨o, ho, -⟩ := visit_total path.length (L.entries fs.cvRoot) path (Nat.le_refl _) hown
  have hfinds : ∀ e, L.Finds (L.entries fs.cvRoot) path e ↔ o = .found e := by
    intro e
    have hiff := ho.finds_iff [] e
    rw [append_nil] at hiff
    rw [hiff]
    constructor
    · rintro (hf | ⟨q, -, hf⟩)
      · exact hf
      · cases hf
    · exact .inl
  obtain ⟨n, hn⟩ := ho.code (L.chain _ L.root) hown
  refine ⟨n, fun fuel hfuel => ?_⟩
  obtain ⟨r, hr, hends⟩ := hn fuel hfuel false info fs.cvRoot
  have hcode : cromfsFindNode fs fuel path info offset
      = some (if r.1 > 0 then (0, r.2.info, r.2.offset)
        else if r.1 = 0 then (-ENOENT, r.2.info, offset) else (r.1, r.2.info, offset)) := by
    unfold cromfsFindNode
    split
    · exact absurd rfl hne
    · exact absurd rfl hrel
    · rw [hr]
      rfl
  refine ⟨_, hcode, ?_⟩
  cases o with
  | found e =>
    obtain ⟨hret, hinfo, hoff⟩ := hends
    rw [if_pos (by rw [hret]; decide), hinfo, hoff]
    exact .inl ⟨e, (hfinds e).mpr rfl, rfl⟩
  | notDir =>
    have hret : r.1 = -ENOTDIR := hends
    rw [if_neg (by rw [hret]; decide), if_neg (by rw [hret]; decide), hret]
    exact .inr ⟨fun ⟨e, hf⟩ => (nomatch (hfinds e).mp hf), by show -ENOTDIR < 0; decide⟩
  | moved q =>
    have hret : r.1 = 0 := congrArg Prod.fst hends
    rw [if_neg (by rw [hret]; decide), if_pos hret]
    exact .inr ⟨fun ⟨e, hf⟩ => (nomatch (hfinds e).mp hf), by show -ENOENT < 0; decide⟩

theorem target_finds {path : List Char} (hne : path ≠ []) (hrel : path.head? ≠ some '/')
    (htrail : ¬Trailing path) (h : L.target path = some e) :
    L.Finds (L.entries fs.cvRoot) path e := by
  rw [target, if_neg hne] at h
  obtain ⟨hdesc, -⟩ := Option.filter_eq_some_iff.mp h
  have hfinds : L.Finds (L.entries fs.cvRoot ++ []) path e :=
    descend_finds _ (own_entries L.root) hne hrel htrail rfl hdesc
  rwa [append_nil] at hfinds

theorem reported_iff : L.reported e = e.info ↔
    ∀ d, e.dir = true → L.dotOf e = some d → e.mode = d.mode ∧ e.size = d.size := by
  unfold reported dotOf
  cases hdir : e.dir with
  | false => simp
  | true =>
    cases hd : (L.entries e.ptr).head? with
    | none => simp
    | some d =>
      simp only [if_true, elim_some, Entry.info, NodeInfo.mk.injEq, and_true, forall_const,
        some.injEq, forall_eq']
      exact ⟨fun h => ⟨h.1.symm, h.2.symm⟩, fun h => ⟨h.1.symm, h.2.symm⟩⟩

end Layout

/--
**`cromfs_find_node` looks a relative path up exactly if and only if the path is plain.** The
traversal ends, for every path and every well-formed image.
-/
theorem find_node_exact {fs : Volume} (L : Layout fs) {path : List Char}
    (hrel : path.head? ≠ some '/') (info : NodeInfo) (offset : Nat) :
    ∃ n, ∀ fuel ≥ n, ∃ r, cromfsFindNode fs fuel path info offset = some r ∧
      (L.Exact path r ↔ L.Plain path) := by
  by_cases hne : path = []
  · subst hne
    refine ⟨0, fun fuel _ => ?_⟩
    obtain ⟨e, htarget, hptr, hfind⟩ := L.find_root fuel info offset
    refine ⟨_, hfind, iff_of_true (by rw [Layout.Exact, htarget]) ⟨fun h => (nomatch h), ?_, ?_⟩⟩
    · intro e' d he' _ hd
      obtain rfl := some.inj (htarget.symm.trans he')
      rw [Layout.dotOf, hptr] at hd
      rw [Layout.target, if_pos rfl] at htarget
      cases htarget.symm.trans hd
      exact ⟨rfl, rfl⟩
    · intro _
      rw [htarget]
      exact Option.some_ne_none e
  · obtain ⟨n, hn⟩ := L.find_relative hne hrel info offset
    refine ⟨n, fun fuel hfuel => ?_⟩
    obtain ⟨r, hr, hcases⟩ := hn fuel hfuel
    refine ⟨r, hr, ?_⟩
    have hown := Layout.own_entries L.root
    -- a success is that of the entry named, if the path names one
    have hsuccess : ∀ e, L.target path = some e → ¬Trailing path → r = (0, L.reported e, e.offset) := by
      intro e htarget htrail
      have hfound := Layout.target_finds hne hrel htrail htarget
      rcases hcases with ⟨e', hfound', hret⟩ | ⟨hnone, -⟩
      · rw [hfound.unique hfound']
        exact hret
      · exact absurd ⟨e, hfound⟩ hnone
    constructor
    · intro hexact
      have hnoslash : Trailing path → L.target path = none := by
        intro htrail
        by_contra hsome
        obtain ⟨e, htarget⟩ := ne_none_iff_exists'.mp hsome
        rw [Layout.Exact, htarget] at hexact
        rcases hcases with ⟨e', hfound, -⟩ | ⟨-, hneg⟩
        · exact hfound.not_trailing hown htrail
        · rw [hexact] at hneg
          exact absurd hneg (Int.lt_irrefl 0)
      refine ⟨hnoslash, fun e d htarget hdir hd => ?_, fun hfinds hnone => ?_⟩
      · have htrail : ¬Trailing path := fun h => nomatch (hnoslash h).symm.trans htarget
        rw [Layout.Exact, htarget, hsuccess e htarget htrail] at hexact
        have hreported : L.reported e = e.info := congrArg (fun x => x.2.1) hexact
        exact Layout.reported_iff.mp hreported d hdir hd
      · rw [Layout.Exact, hnone] at hexact
        rcases hcases with ⟨e, -, hret⟩ | ⟨hno, -⟩
        · rw [hret] at hexact
          exact absurd hexact (Int.lt_irrefl 0)
        · exact hno hfinds
    · intro hplain
      unfold Layout.Exact
      cases htarget : L.target path with
      | some e =>
        have htrail : ¬Trailing path := fun h => nomatch (hplain.noSlash h).symm.trans htarget
        have hreported : L.reported e = e.info :=
          Layout.reported_iff.mpr fun d hdir hd => hplain.alike e d htarget hdir hd
        show r = (0, e.info, e.offset)
        rw [hsuccess e htarget htrail, hreported]
      | none =>
        rcases hcases with ⟨e, hfound, -⟩ | ⟨-, hneg⟩
        · exact absurd htarget (hplain.straight ⟨e, hfound⟩)
        · exact hneg

/-! ### An image with an empty directory `d` and a file `f` -/

def smallNode : Nat → Node
  | 20 => ⟨0xA16D, 40, 0, 42, 20⟩
  | 42 => ⟨0x416D, 62, 0, 109, 64⟩
  | 64 => ⟨0xA16D, 84, 0, 86, 64⟩
  | 86 => ⟨0xA16D, 106, 0, 0, 20⟩
  | _ => ⟨0x8124, 129, 5, 0, 131⟩

def smallString : Nat → List Char
  | 40 => ['.']
  | 62 => ['d']
  | 84 => ['.']
  | 106 => ['.', '.']
  | _ => ['f']

def smallVolume : Volume := ⟨20, 141, 512, smallNode, smallString⟩

def smallEntries (o : Nat) : List Entry :=
  if o = 20 then
    [⟨['.'], 0x416D, 0, 20, 20, true⟩, ⟨['d'], 0x416D, 0, 64, 42, false⟩,
      ⟨['f'], 0x8124, 5, 131, 109, false⟩]
  else [⟨['.'], 0x416D, 0, 64, 64, true⟩, ⟨['.', '.'], 0x416D, 0, 20, 86, true⟩]

theorem small_chain : Chain smallVolume 20 (smallEntries 20) ∧ Chain smallVolume 64 (smallEntries 64) := by
  constructor <;>
  · repeat refine .cons ⟨by decide, by decide, by decide, by decide, rfl, by decide, by decide⟩ ?_
    exact .nil

def smallLayout : Layout smallVolume where
  heads o := o = 20 ∨ o = 64
  entries := smallEntries
  root := .inl rfl
  chain := by
    rintro o (rfl | rfl)
    · exact small_chain.1
    · exact small_chain.2
  dot := by
    rintro o (rfl | rfl)
    · exact ⟨_, _, rfl, rfl, rfl, rfl⟩
    · exact ⟨_, _, rfl, rfl, rfl, rfl⟩
  closed := by rintro o (rfl | rfl) <;> decide
  distinct := by rintro o (rfl | rfl) <;> decide
  nonempty := by rintro o (rfl | rfl) <;> decide
  separate := by rintro o (rfl | rfl) <;> decide
  short := by rintro o (rfl | rfl) <;> decide

theorem find_node_exact_directory : ∃ n, ∀ fuel ≥ n, ∃ r,
    cromfsFindNode smallVolume fuel ['d'] ⟨0, 0, 0⟩ 0 = some r ∧ smallLayout.Exact ['d'] r := by
  have htarget : smallLayout.target ['d'] = some ⟨['d'], 0x416D, 0, 64, 42, false⟩ := by decide +kernel
  have hplain : smallLayout.Plain ['d'] := by
    refine ⟨fun h => absurd h (by decide), fun e d he _ hd => ?_, fun _ => ?_⟩
    · cases htarget.symm.trans he
      cases hd
      exact ⟨rfl, rfl⟩
    · rw [htarget]
      exact Option.some_ne_none _
  obtain ⟨n, hn⟩ := find_node_exact smallLayout (show ['d'].head? ≠ some '/' by decide) ⟨0, 0, 0⟩ 0
  refine ⟨n, fun fuel hfuel => ?_⟩
  obtain ⟨r, hr, hiff⟩ := hn fuel hfuel
  exact ⟨r, hr, hiff.mpr hplain⟩

/-- `d/f` is not there and the file `f` behind `d` is found; `d/` is there and is not found. -/
theorem file_found_behind_directory :
    (cromfsFindNode smallVolume 8 ['d', '/', 'f'] ⟨0, 0, 0⟩ 0 = some (0, ⟨0x8124, 5, 131⟩, 109) ∧
      smallLayout.target ['d', '/', 'f'] = none ∧
      ¬smallLayout.Exact ['d', '/', 'f'] (0, ⟨0x8124, 5, 131⟩, 109)) ∧
    cromfsFindNode smallVolume 8 ['d', '/'] ⟨0, 0, 0⟩ 0 = some (-ENOENT, ⟨0, 0, 0⟩, 0) ∧
      smallLayout.target ['d', '/'] = some ⟨['d'], 0x416D, 0, 64, 42, false⟩ ∧
      ¬smallLayout.Exact ['d', '/'] (-ENOENT, ⟨0, 0, 0⟩, 0) := by
  have hmissing : smallLayout.target ['d', '/', 'f'] = none := by decide +kernel
  have hthere : smallLayout.target ['d', '/'] = some ⟨['d'], 0x416D, 0, 64, 42, false⟩ := by
    decide +kernel
  refine ⟨⟨by decide +kernel, hmissing, ?_⟩, by decide +kernel, hthere, ?_⟩
  · rw [Layout.Exact, hmissing]
    decide
  · rw [Layout.Exact, hthere]
    decide

end Gpmx.Romfs
