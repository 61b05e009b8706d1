import Gpmx.Infra.TreePaths
import Gpmx.PseudoFs.Namespace

/-!
# Is `inode_reserve` atomic?

The loop of `inode_reserve` makes the missing inodes of a path from the top down and links each
of them at once. An allocation that fails ends the loop with `-ENOMEM`, and nothing unlinks
what was made before. So a call that fails leaves the tree as it was only if its very first
allocation fails (`inodeReserve_atomic_iff`). A call that succeeds adds what is missing, and
nothing else.
-/

namespace Gpmx.PseudoFs

open Infra List

def missing (f : Forest Inode) (path : List Char) : List Name :=
  match seek f path with
  | .hit _ _ _ _ _ _ => []
  | .miss rest _ _ => rest

/-- The first `n` allocations succeed: the allocator answers with `n` different free places. -/
def Grants (heap : Heap Inode) (answers : List Addr) (n : Nat) : Prop :=
  n ≤ answers.length ∧ (answers.take n).Nodup ∧
    ∀ a ∈ answers.take n, a < heap.size ∧ heap.read a = none

/-- The inode `a` with the data `d` is in the tree at the place `keys`. -/
def Places (f : Forest Inode) (a : Addr) (d : Inode) (keys : List Name) : Prop :=
  f.At Inode.iName (fun _ => false) a d keys

/--
`f'` has the inodes of `f` where they are in `f`, and besides one new inode for each missing
component of the path, at the place the path gives it.
-/
def Completed (f : Forest Inode) (path : List Char) (f' : Forest Inode) : Prop :=
  ∃ as : List Addr, as.length = (missing f path).length ∧ as.Nodup ∧ (∀ a ∈ as, a ∉ f.addrs) ∧
    ∀ a d keys, Places f' a d keys ↔ Places f a d keys ∨
      ∃ i k, (missing f path)[i]? = some k ∧ as[i]? = some a ∧ d = Inode.fresh k ∧
        keys ++ (missing f path).drop (i + 1) = pathKeys path

/-- All or nothing: an error leaves the tree, success completes the path. -/
def ReserveAtomic (f : Forest Inode) (path : List Char) (ret : Int) (fs' : Fs) : Prop :=
  (ret < 0 → Linked fs' f) ∧ (0 ≤ ret → ∃ f', Linked fs' f' ∧ Completed f path f')

section

variable {heap heap' : Heap Inode} {fs fs' : Fs} {f : Forest Inode} {path : List Char}
  {answers : List Addr} {root : Option Addr} {K : Ctx Inode} {g : Forest Inode} {rest : List Name}
  {ret : Int} {node : Option Addr}

/-! ## The allocations of a call -/

theorem free_after_insert {n : Addr} {d : Inode} (hf : Stores heap root (K.fill g))
    (hf' : Stores heap' root (K.fill (.cons n d .nil g)))
    (hkeep : ∀ b, b ≠ n → b ∉ K.addrs → heap'.read b = heap.read b) (a : Addr) :
    heap'.read a = none ↔ heap.read a = none ∧ a ≠ n := by
  constructor
  · intro hfree
    have hnot := hf'.not_mem_of_free hfree
    rw [Ctx.mem_addrs_fill, not_or] at hnot
    have hne : a ≠ n := fun he => hnot.2 (he ▸ mem_cons_self)
    exact ⟨by rw [← hkeep a hne hnot.1]; exact hfree, hne⟩
  · rintro ⟨hfree, hne⟩
    have hnot := hf.not_mem_of_free hfree
    rw [Ctx.mem_addrs_fill, not_or] at hnot
    rw [hkeep a hne hnot.1]
    exact hfree

theorem grants_succ_iff {a : Addr} {n : Nat} (hsize : heap'.size = heap.size)
    (ha : a < heap.size ∧ heap.read a = none)
    (hfree : ∀ b, heap'.read b = none ↔ heap.read b = none ∧ b ≠ a) :
    Grants heap (a :: answers) (n + 1) ↔ Grants heap' answers n := by
  simp only [Grants, length_cons, Nat.add_le_add_iff_right, take_succ_cons,
    nodup_cons, mem_cons, hsize, hfree]
  constructor
  · rintro ⟨hlen, ⟨hout, hnd⟩, hall⟩
    refine ⟨hlen, hnd, fun b hb => ⟨(hall b (Or.inr hb)).1, (hall b (Or.inr hb)).2, ?_⟩⟩
    rintro rfl
    exact hout hb
  · rintro ⟨hlen, hnd, hall⟩
    refine ⟨hlen, ⟨fun hmem => (hall a hmem).2.2 rfl, hnd⟩, ?_⟩
    rintro b (rfl | hb)
    · exact ha
    · exact ⟨(hall b hb).1, (hall b hb).2.1⟩

theorem reserveLoop_zero_iff {name : List Char} (hf : Stores heap root (K.fill g)) (hK : K ≠ .top)
    (h : reserveLoop root answers heap name K.left K.above = some (ret, node, fs')) :
    ret = 0 ↔ Grants heap answers (segments name).length := by
  induction answers generalizing heap name K g with
  | nil =>
    cases h
    simp [Grants, segments, ENOMEM]
  | cons answer answers ih =>
    unfold reserveLoop at h
    by_cases hfree : answer < heap.size ∧ heap.read answer = none
    · rw [inodeAlloc, if_pos hfree] at h
      have hout : answer ∉ K.addrs := fun hmem =>
        hf.not_mem_of_free hfree.2 (Ctx.mem_addrs_fill.mpr (Or.inl hmem))
      obtain ⟨heap', hrel, hsize, hf', hkeep⟩ :=
        hf.insert hK hfree.2 hfree.1 (Inode.fresh (inodeNamecpy name))
      have hins := inodeInsert_eq (d := Inode.fresh (inodeNamecpy name)) (rep_fill.mp hf.rep).1
        hfree.1 hout
      simp only [hins, hrel, Option.bind_eq_bind, Option.bind_some] at h
      have hsucc := @grants_succ_iff _ _ answers _ (components (inodeNextname name)).length hsize hfree
        (free_after_insert hf hf' hkeep)
      by_cases hnext : inodeNextname name = []
      · rw [if_neg (not_not.mpr hnext)] at h
        cases h
        rw [segments, length_cons, hsucc, hnext]
        simp [Grants]
      · rw [if_pos hnext] at h
        rw [segments, length_cons, hsucc, ← segments_nextname hnext]
        exact ih (K := .child K answer (Inode.fresh (inodeNamecpy name)) g) hf'
          (by intro hc; cases hc) h
    · rw [inodeAlloc, if_neg hfree] at h
      cases h
      refine ⟨fun h0 => absurd h0 (by decide), fun hgr => absurd ?_ hfree⟩
      exact hgr.2.2 answer (by simp [segments])

theorem inodeReserve_zero_iff (hf : Linked fs f) (hpath : path ≠ [])
    (hs : seek f path = .miss rest K g)
    (h : inodeReserve fs path answers = some (ret, node, fs')) :
    ret = 0 ↔ Grants fs.heap answers rest.length := by
  obtain ⟨desc, hsearch, hden⟩ := inodeSearch_spec hf hs
  obtain ⟨hret, -, hpeer, hparent, rfl⟩ := hden
  obtain ⟨rfl, -, -⟩ := seek_miss hs
  have hneg : ¬(-ENOENT : Int) ≥ 0 := by decide
  simp only [inodeReserve, if_neg hpath, hsearch, Option.bind_eq_bind, Option.bind_some, hret,
    if_neg hneg, hpeer, hparent] at h
  exact reserveLoop_zero_iff hf.stores (rooted_of_seek_miss hf.rooted hs).1 h

/-! ## What a call leaves -/

theorem missing_of_miss (hs : seek f path = .miss rest K g) : missing f path = rest := by
  simp [missing, hs]

variable {as : List Addr}

theorem completed_of_sprout (hf : Linked fs f) (hs : seek f path = .miss rest K g)
    (hlen : as.length = rest.length) (hfresh : ∀ a ∈ as, fs.heap.read a = none) (hnd : as.Nodup) :
    Completed f path (K.fill (sprout Inode.fresh rest as g)) := by
  obtain ⟨rfl, hroute, -⟩ := seek_miss hs
  rw [Completed, missing_of_miss hs]
  refine ⟨as, hlen, hnd, fun a ha => hf.stores.not_mem_of_free (hfresh a ha), ?_⟩
  intro a d keys
  have hkeys : pathKeys path = K.keys Inode.iName ++ rest := hroute.keys_eq
  have hplace : ∀ i, keys = K.keys Inode.iName ++ rest.take (i + 1) ↔
      keys ++ rest.drop (i + 1) = pathKeys path := by
    intro i
    rw [hkeys]
    constructor
    · rintro rfl
      rw [append_assoc, take_append_drop]
    · intro h
      refine (append_left_inj (rest.drop (i + 1))).mp ?_
      rw [h, append_assoc, take_append_drop]
  unfold Places
  rw [at_fill_sprout_iff (fun _ => rfl) (fun _ => rfl) (fun _ _ => rfl) hlen]
  refine or_congr_right (exists_congr fun i => exists_congr fun k => ?_)
  rw [hplace i, and_comm (a := d = _)]

theorem nodup_of_sprout (hlen : as.length = rest.length)
    (hnd : (K.fill (sprout Inode.fresh rest as g)).addrs.Nodup) : as.Nodup := by
  have hbranch := (nodup_append.mp ((K.addrs_fill _).nodup_iff.mp hnd)).2.1
  exact hbranch.sublist (sublist_addrs_sprout Inode.fresh hlen)

theorem not_linked_of_sprout (hf : Linked fs f)
    (hf' : Linked fs' (K.fill (sprout Inode.fresh rest as g))) (hs : seek f path = .miss rest K g)
    (hfresh : ∀ a ∈ as, fs.heap.read a = none) (hne : as ≠ []) : ¬Linked fs' f := by
  intro hsame
  obtain ⟨a, as, rfl⟩ := exists_cons_of_ne_nil hne
  obtain ⟨k, ks, rfl⟩ := exists_cons_of_ne_nil
    ((seek_miss hs).2.1.rest_ne_nil (cons_ne_nil _ _))
  refine hf.stores.not_mem_of_free (hfresh a mem_cons_self) ?_
  rw [hsame.unique hf', Ctx.mem_addrs_fill]
  exact Or.inr mem_cons_self

/--
**When `inode_reserve` is all or nothing.** The call always returns. It is atomic exactly if
its first allocation fails or none of those it makes does: an inode made before a failure
stays in the tree.
-/
theorem inodeReserve_atomic_iff (hf : Linked fs f) (path : List Char) (answers : List Addr)
    (habs : path.head? = some '/') :
    ∃ ret node fs', inodeReserve fs path answers = some (ret, node, fs') ∧
      (ReserveAtomic f path ret fs' ↔
        ¬CanAlloc fs.heap answers ∨ Grants fs.heap answers (missing f path).length) := by
  have hpath : path ≠ [] := by
    rintro rfl
    cases habs
  cases hs : seek f path with
  | hit rest K a d ch pe =>
    -- the path is there, or goes on behind a mountpoint: nothing is allocated
    refine ⟨_, _, _, inodeReserve_hit hf hpath hs answers, ?_⟩
    have hnone : missing f path = [] := by simp [missing, hs]
    rw [hnone]
    refine ⟨fun _ => Or.inr (by simp [Grants]), fun _ => ⟨fun _ => hf, fun h => ?_⟩⟩
    exact absurd h (by decide)
  | miss rest K g =>
    obtain ⟨ret, node, fs', as, hrun, hf', hres⟩ := inodeReserve_miss hf hpath hs answers
    refine ⟨ret, node, fs', hrun, ?_⟩
    have hzero : ret = 0 ↔ Grants fs.heap answers rest.length :=
      inodeReserve_zero_iff hf hpath hs hrun
    rw [missing_of_miss hs, ← hzero]
    rcases hres.outcome with ⟨rfl, hlen, -⟩ | ⟨rfl, -, -⟩
    · refine ⟨fun _ => Or.inr rfl, fun _ => ⟨fun h => absurd h (by decide), fun _ => ⟨_, hf', ?_⟩⟩⟩
      exact completed_of_sprout hf hs hlen hres.fresh (nodup_of_sprout hlen hf'.stores.nodup)
    · have hneg : ¬(-ENOMEM : Int) = 0 := by decide
      rw [← hres.none_iff, or_iff_left hneg]
      constructor
      · rintro ⟨herr, -⟩
        by_contra hne
        exact not_linked_of_sprout hf hf' hs hres.fresh hne (herr (by decide))
      · rintro rfl
        rw [sprout_nil, ← (seek_miss hs).1] at hf'
        exact ⟨fun _ => hf', fun h => absurd h (by decide)⟩

end

def onlyRoot : Forest Inode := .cons 0 (Inode.fresh []) .nil .nil

/-- `/a/b` is made whole, in a memory that has room for it. -/
theorem inodeReserve_atomic_iff_whole :
    ∃ ret node fs', inodeReserve (Fs.empty 3 0) ['/', 'a', '/', 'b'] [2, 1] = some (ret, node, fs') ∧
      (ReserveAtomic onlyRoot ['/', 'a', '/', 'b'] ret fs' ↔
        ¬CanAlloc (Fs.empty 3 0).heap [2, 1] ∨
          Grants (Fs.empty 3 0).heap [2, 1] (missing onlyRoot ['/', 'a', '/', 'b']).length) :=
  inodeReserve_atomic_iff (wf_empty (by decide)).linked _ _ (by decide)

/--
For `/a/b` the inode `a` is made and linked, there is no memory for `b`, the call returns
`-ENOMEM`, and the tree keeps `a`: a search for `/a` finds it, before it did not.
-/
theorem inodeReserve_keeps_intermediate :
    ∃ fs', inodeReserve (Fs.empty 3 0) ['/', 'a', '/', 'b'] [2] = some (-ENOMEM, none, fs') ∧
      ¬ReserveAtomic onlyRoot ['/', 'a', '/', 'b'] (-ENOMEM) fs' ∧
      (inodeSearch (Fs.empty 3 0) ['/', 'a']).map SearchDesc.ret = some (-ENOENT) ∧
      (inodeSearch fs' ['/', 'a']).map SearchDesc.ret = some 0 := by
  refine ⟨⟨⟨[some ⟨none, none, some 2, Inode.fresh []⟩, none,
    some ⟨some 0, none, none, Inode.fresh ['a']⟩]⟩, some 0⟩, by decide, ?_, by decide, by decide⟩
  rintro ⟨herr, -⟩
  -- in the old tree the root has no children, in the heap it has
  have hroot := (herr (by decide)).stores.rep.1
  exact absurd hroot (by decide)

end Gpmx.PseudoFs
