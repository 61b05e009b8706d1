import Gpmx.Infra.Memory
import Gpmx.Infra.TreeRows
import Gpmx.PseudoFs.Namespace

/-!
# Visiting every inode

`gpm/fs/inode/fs_foreachinode.c`. The handler is called for each inode with the path of the
directory it is in. All levels share one path buffer: before a level the name of its directory
is appended, after it the path is cut off again.

A character of the buffer is `none` where it is NUL. `stores` records where the buffer was
written, so that it can be compared with the `PATH_MAX` characters that are declared. The test
`pathlen + namlen > PATH_MAX` counts the separator and the name, but not the terminator.
-/

namespace Gpmx.PseudoFs

open Infra

def ENAMETOOLONG : Int := 36

def pathMax : Nat := 256

/-! ## Strings in a buffer -/

/-- The string that starts at `i`, as far as `n` characters. -/
def cstringFrom (m : Memory (Option Char)) : Nat → Nat → List Char
  | 0, _ => []
  | n + 1, i =>
    match m i with
    | none => []
    | some c => c :: cstringFrom m n (i + 1)

def cstring (m : Memory (Option Char)) : List Char := cstringFrom m (pathMax + 1) 0

/-- What `sprintf` stores for a string: its characters, and the terminator. -/
def terminated (s : List Char) : List (Option Char) := s.map some ++ [none]

/-! ## The traversal -/

/-- `struct inode_path_s`, with the calls of the handler and the indices stored to. -/
structure InodePath where
  path : Memory (Option Char)
  calls : List (Addr × List Char)
  stores : List Nat

/-- Store into the path buffer from index `at` on. -/
def InodePath.store (info : InodePath) (i : Nat) (cs : List (Option Char)) : InodePath :=
  { info with path := info.path.write i cs, stores := info.stores ++ List.range' i cs.length }

/-- Call the handler for `node`. -/
def InodePath.call (info : InodePath) (node : Addr) : InodePath :=
  { info with calls := info.calls ++ [(node, cstring info.path)] }

/-- `foreach_inodelevel`: the return value, and the state with the path buffer. -/
def foreachInodelevel (heap : Heap Inode) (handler : Addr → List Char → Int) :
    Nat → Option Addr → InodePath → Option (Int × InodePath)
  | _, none, info => some (0, info)
  | 0, some _, _ => none
  | fuel + 1, some node, info => do
    let c ← heap.read node
    let ret := handler node (cstring info.path)
    let info := info.call node
    if ret ≠ 0 then some (ret, info)
    else
      match c.child with
      | none => foreachInodelevel heap handler fuel c.peer info
      | some child =>
        let pathlen := (cstring info.path).length
        let namlen := c.data.iName.length + 1
        if pathlen + namlen > pathMax then some (-ENAMETOOLONG, info)
        else do
          let info := info.store pathlen (terminated ('/' :: c.data.iName))
          let (ret, info) ← foreachInodelevel heap handler fuel (some child) info
          -- truncate the path again
          let info := info.store pathlen [none]
          if ret ≠ 0 then some (ret, info)
          else foreachInodelevel heap handler fuel c.peer info

/-- `foreach_inode`, with the answer of the allocator. -/
def foreachInode (fs : Fs) (handler : Addr → List Char → Int) :
    Option (Memory (Option Char)) → Option (Int × InodePath)
  | none => some (-ENOMEM, ⟨fun _ => none, [], []⟩)
  | some buffer => do
    let root ← fs.root
    let c ← fs.heap.read root
    foreachInodelevel fs.heap handler fs.heap.size c.child
      (InodePath.store ⟨buffer, [], []⟩ 0 [none])

/-! ## What a traversal should do -/

/-- The path of the directory with the given names, joined by `/`. -/
def joined (names : List Name) : List Char := names.flatMap ('/' :: ·)

/-- The calls for a list of siblings in the directory `s`, in the order of the traversal. -/
def visits (s : List Char) : Forest Inode → List (Addr × List Char)
  | .nil => []
  | .cons a d child peer => (a, s) :: (visits (s ++ '/' :: d.iName) child ++ visits s peer)

/-- The paths of the directories below `s` that have entries, in the order of the traversal. -/
def directories (s : List Char) : Forest Inode → List (List Char)
  | .nil => []
  | .cons _ d child peer =>
    (if child.head = none then [] else [s ++ '/' :: d.iName]) ++
      (directories (s ++ '/' :: d.iName) child ++ directories s peer)

/-- The directories a traversal gets to: those before the first that is too long. -/
def reached (s : List Char) (f : Forest Inode) : List (List Char) :=
  (directories s f).takeWhile fun p => p.length ≤ pathMax

def below : Forest Inode → Forest Inode
  | .nil => .nil
  | .cons _ _ child _ => child

def VisitsAll (f : Forest Inode) (calls : List (Addr × List Char)) : Prop :=
  ∀ a d names name, f.At Inode.iName (fun _ => false) a d ([] :: (names ++ [name])) →
    calls.filter (fun call => call.1 == a) = [(a, joined names)]

/--
The outcome of a traversal is right: all inodes are visited, or the path of some directory does
not fit the buffer with its terminator, and that is reported; the path is the empty one again,
and all that was stored was stored inside the `PATH_MAX` characters of the buffer.
-/
structure ForeachRight (f : Forest Inode) (ret : Int) (info : InodePath) : Prop where
  outcome : ret = 0 ∧ VisitsAll f info.calls ∨
    ret = -ENAMETOOLONG ∧ info.calls <+: visits [] (below f) ∧
      ∃ p ∈ directories [] (below f), pathMax < p.length + 1
  restored : cstring info.path = []
  inside : ∀ i ∈ info.stores, i < pathMax

end Gpmx.PseudoFs

/-!
## The levels of a traversal

`foreachInodelevel_spec` says what one level does, by induction on the tree: the string in the
buffer is the path of its directory when it starts and when it returns, the calls are those of
`visits`, and the buffer is written up to the terminators of the paths in `reached`. The
terminator of a path of `PATH_MAX` characters lies behind the buffer
(`foreachInode_right_iff`).
-/

namespace Gpmx.PseudoFs

open Infra List Memory

section

variable {m : Memory (Option Char)} {s t : List Char} {i n : Nat} {heap : Heap Inode}
  {handler : Addr → List Char → Int} {up : Option Addr} {f g ch pe : Forest Inode} {a : Addr}
  {d : Inode} {info info' info'' : InodePath} {ret ret' : Int}

/-! ## Strings -/

/-- The buffer starts with the string `s` and its terminator. -/
def HoldsString (m : Memory (Option Char)) (s : List Char) : Prop :=
  (∀ i c, s[i]? = some c → m i = some c) ∧ m s.length = none

theorem cstringFrom_eq : ∀ {t : List Char} {n i : Nat}, t.length < n →
    (∀ j c, t[j]? = some c → m (i + j) = some c) → m (i + t.length) = none →
    cstringFrom m n i = t
  | t, 0, _, hn, _, _ => absurd hn (Nat.not_lt_zero _)
  | [], n + 1, i, _, _, hend => by
    have hend : m i = none := by simpa using hend
    simp [cstringFrom, hend]
  | c :: t, n + 1, i, hn, hchars, hend => by
    have hc : m i = some c := by simpa using hchars 0 c rfl
    have hrest : cstringFrom m n (i + 1) = t := by
      refine cstringFrom_eq (Nat.lt_of_succ_lt_succ hn) (fun j c' hj => ?_) ?_
      · rw [Nat.add_assoc, Nat.add_comm 1 j]
        exact hchars (j + 1) c' (by simpa using hj)
      · rw [Nat.add_assoc, Nat.add_comm 1 t.length]
        exact hend
    simp [cstringFrom, hc, hrest]

theorem HoldsString.cstring (h : HoldsString m s) (hs : s.length ≤ pathMax) : cstring m = s := by
  refine cstringFrom_eq (Nat.lt_succ_of_le hs) (fun j c hj => ?_) ?_
  · rw [Nat.zero_add]
    exact h.1 j c hj
  · rw [Nat.zero_add]
    exact h.2

@[simp] theorem length_terminated (t : List Char) : (terminated t).length = t.length + 1 := by
  simp [terminated]

theorem HoldsString.append (h : HoldsString m s) (t : List Char) :
    HoldsString (m.write s.length (terminated t)) (s ++ t) := by
  constructor
  · intro i c hc
    by_cases hi : i < s.length
    · rw [getElem?_append_left hi] at hc
      rw [write_of_lt hi]
      exact h.1 i c hc
    · rw [getElem?_append_right (Nat.le_of_not_lt hi)] at hc
      have hlt := (List.getElem?_eq_some_iff.mp hc).1
      rw [write_of_mem (Nat.le_of_not_lt hi) (by simp; omega)]
      simp [terminated, getElem_append_left, hlt, (List.getElem?_eq_some_iff.mp hc).2]
  · rw [length_append, write_of_mem (by omega) (by simp)]
    simp [terminated]

theorem HoldsString.truncate (h : HoldsString m (s ++ t)) :
    HoldsString (m.write s.length [none]) s := by
  constructor
  · intro i c hc
    have hi := (List.getElem?_eq_some_iff.mp hc).1
    rw [write_of_lt hi]
    exact h.1 i c (by rw [getElem?_append_left hi]; exact hc)
  · rw [write_of_mem (le_refl _) (by simp)]
    simp

theorem holdsString_start : HoldsString (m.write 0 [none]) [] := by
  refine ⟨fun i c hc => by simp at hc, ?_⟩
  rw [length_nil, write_of_mem (le_refl _) (by simp)]
  simp

/-! ## One level -/

/-- All directories below `s` have paths that pass the test. -/
def Passes (s : List Char) (g : Forest Inode) : Prop :=
  ∀ p ∈ directories s g, p.length ≤ pathMax

/-- What a level in the directory `s`, with the entries `g`, does. -/
structure Level (s : List Char) (g : Forest Inode) (info : InodePath) (ret : Int)
    (info' : InodePath) : Prop where
  restored : HoldsString info'.path s
  returns : ret = 0 ∧ Passes s g ∨ ret = -ENAMETOOLONG ∧ ¬Passes s g
  calls : ∃ new, info'.calls = info.calls ++ new ∧ new <+: visits s g ∧ (ret = 0 → new = visits s g)
  stores : ∃ new, info'.stores = info.stores ++ new ∧
    (∀ i ∈ new, ∃ p ∈ reached s g, i ≤ p.length) ∧ ∀ p ∈ reached s g, p.length ∈ new

theorem Level.nil (h : HoldsString info.path s) : Level s .nil info 0 info where
  restored := h
  returns := Or.inl ⟨rfl, fun _ hp => absurd hp not_mem_nil⟩
  calls := ⟨[], (append_nil _).symm, prefix_refl _, fun _ => rfl⟩
  stores := ⟨[], (append_nil _).symm, fun _ hi => absurd hi not_mem_nil,
    fun _ hp => absurd hp not_mem_nil⟩

theorem Level.leaf (h : Level s pe (info.call a) ret info') (hs : cstring info.path = s) :
    Level s (.cons a d .nil pe) info ret info' where
  restored := h.restored
  returns := h.returns
  calls := by
    obtain ⟨new, hcalls, hpre, hall⟩ := h.calls
    refine ⟨(a, s) :: new, ?_, ?_, ?_⟩
    · rw [hcalls, InodePath.call, hs, append_assoc]
      rfl
    · exact cons_prefix_cons.mpr ⟨rfl, hpre⟩
    · intro h0
      rw [hall h0]
      rfl
  stores := h.stores

theorem Level.tooLong (hh : HoldsString info.path s) (hs : cstring info.path = s)
    (hch : ch.head ≠ none) (hlong : pathMax < (s ++ '/' :: d.iName).length) :
    Level s (.cons a d ch pe) info (-ENAMETOOLONG) (info.call a) where
  restored := hh
  returns := by
    refine Or.inr ⟨rfl, fun hp => ?_⟩
    have hle := hp (s ++ '/' :: d.iName) (by simp [directories, hch])
    omega
  calls := by
    refine ⟨[(a, s)], by rw [InodePath.call, hs], ?_, fun h0 => absurd h0 (by decide)⟩
    exact cons_prefix_cons.mpr ⟨rfl, nil_prefix⟩
  stores := by
    have hnone : reached s (.cons a d ch pe) = [] := by
      unfold reached directories
      rw [if_neg hch, singleton_append, takeWhile_cons_of_neg (by simpa using hlong)]
    rw [hnone]
    exact ⟨[], (append_nil _).symm, fun i hi => absurd hi not_mem_nil,
      fun p hp => absurd hp not_mem_nil⟩

/-! ## Directories inside a level -/

theorem reached_of_passes (h : Passes s g) : reached s g = directories s g := by
  unfold reached
  rw [takeWhile_eq_self_iff]
  simpa [Passes] using h

theorem reached_cons (hch : ch.head ≠ none) (hfit : (s ++ '/' :: d.iName).length ≤ pathMax)
    (hpass : Passes (s ++ '/' :: d.iName) ch) :
    reached s (.cons a d ch pe)
      = (s ++ '/' :: d.iName) :: (reached (s ++ '/' :: d.iName) ch ++ reached s pe) := by
  rw [reached_of_passes hpass]
  unfold reached
  rw [directories, if_neg hch, singleton_append,
    takeWhile_cons_of_pos (by simpa using hfit),
    takeWhile_append_of_pos (by simpa [Passes] using hpass)]

theorem reached_cons_stop (hch : ch.head ≠ none)
    (hfit : (s ++ '/' :: d.iName).length ≤ pathMax)
    (hstop : ¬Passes (s ++ '/' :: d.iName) ch) :
    reached s (.cons a d ch pe)
      = (s ++ '/' :: d.iName) :: reached (s ++ '/' :: d.iName) ch := by
  have hne : ¬(reached (s ++ '/' :: d.iName) ch).length
      = (directories (s ++ '/' :: d.iName) ch).length := by
    intro hlen
    have hall := ( takeWhile_prefix _).eq_of_length hlen
    rw [takeWhile_eq_self_iff] at hall
    exact hstop (by simpa [Passes] using hall)
  unfold reached at hne ⊢
  rw [directories, if_neg hch, singleton_append,
    takeWhile_cons_of_pos (by simpa using hfit), takeWhile_append, if_neg hne]

theorem passes_cons (hch : ch.head ≠ none) :
    Passes s (.cons a d ch pe) ↔ (s ++ '/' :: d.iName).length ≤ pathMax ∧
      Passes (s ++ '/' :: d.iName) ch ∧ Passes s pe := by
  unfold Passes
  rw [directories, if_neg hch]
  simp only [singleton_append, mem_cons, mem_append]
  constructor
  · intro h
    exact ⟨h _ (Or.inl rfl), fun p hp => h p (Or.inr (Or.inl hp)),
      fun p hp => h p (Or.inr (Or.inr hp))⟩
  · rintro ⟨h1, h2, h3⟩ p (rfl | hp | hp)
    · exact h1
    · exact h2 p hp
    · exact h3 p hp

theorem mem_range_name (s : List Char) (name : Name) (i : Nat) :
    i ∈ List.range' s.length (terminated ('/' :: name)).length ↔
      s.length ≤ i ∧ i ≤ (s ++ '/' :: name).length := by
  rw [mem_range'_1, length_terminated, length_append]
  omega

def InodePath.enter (info : InodePath) (a : Addr) (s : List Char) (name : Name) : InodePath :=
  (info.call a).store s.length (terminated ('/' :: name))

def InodePath.leave (info : InodePath) (s : List Char) : InodePath :=
  info.store s.length [none]

theorem Level.stop (hs : cstring info.path = s) (hch : ch.head ≠ none)
    (hfit : (s ++ '/' :: d.iName).length ≤ pathMax)
    (hsub : Level (s ++ '/' :: d.iName) ch (info.enter a s d.iName) ret info') (hret : ret ≠ 0) :
    Level s (.cons a d ch pe) info ret (info'.leave s) := by
  have hstop : ret = -ENAMETOOLONG ∧ ¬Passes (s ++ '/' :: d.iName) ch :=
    hsub.returns.resolve_left fun h => hret h.1
  obtain ⟨new, hcalls, hpre, -⟩ := hsub.calls
  obtain ⟨newStores, hstores, hle, hends⟩ := hsub.stores
  refine ⟨hsub.restored.truncate, Or.inr ⟨hstop.1, fun h => ?_⟩, ⟨(a, s) :: new, ?_, ?_, ?_⟩,
    ⟨List.range' s.length (terminated ('/' :: d.iName)).length ++ newStores ++ [s.length],
      ?_, ?_, ?_⟩⟩
  · exact hstop.2 ((passes_cons hch).mp h).2.1
  · show info'.calls = _
    rw [hcalls, InodePath.enter, InodePath.store, InodePath.call, hs, append_assoc]
    rfl
  · exact cons_prefix_cons.mpr ⟨rfl, hpre.trans (prefix_append _ _)⟩
  · exact fun h0 => absurd h0 hret
  · show info'.stores ++ [s.length] = _
    rw [hstores]
    simp [InodePath.enter, InodePath.store, InodePath.call]
  · rw [reached_cons_stop hch hfit hstop.2]
    intro i hi
    simp only [mem_append, mem_singleton, mem_range_name] at hi
    rcases hi with (⟨-, hi⟩ | hi) | rfl
    · exact ⟨_, mem_cons_self, hi⟩
    · obtain ⟨p, hp, hip⟩ := hle i hi
      exact ⟨p, mem_cons_of_mem _ hp, hip⟩
    · exact ⟨_, mem_cons_self, by simp⟩
  · rw [reached_cons_stop hch hfit hstop.2]
    intro p hp
    simp only [mem_append, mem_range_name]
    rcases mem_cons.mp hp with rfl | hp
    · exact Or.inl (Or.inl ⟨by simp, le_refl _⟩)
    · exact Or.inl (Or.inr (hends p hp))

theorem Level.through (hs : cstring info.path = s) (hch : ch.head ≠ none)
    (hfit : (s ++ '/' :: d.iName).length ≤ pathMax)
    (hsub : Level (s ++ '/' :: d.iName) ch (info.enter a s d.iName) 0 info')
    (hrest : Level s pe (info'.leave s) ret info'') :
    Level s (.cons a d ch pe) info ret info'' := by
  have hpass : Passes (s ++ '/' :: d.iName) ch := by
    rcases hsub.returns with ⟨-, h⟩ | ⟨h, -⟩
    · exact h
    · cases h
  obtain ⟨new, hcalls, -, hall⟩ := hsub.calls
  obtain ⟨new', hcalls', hpre', hall'⟩ := hrest.calls
  obtain ⟨newStores, hstores, hle, hends⟩ := hsub.stores
  obtain ⟨newStores', hstores', hle', hends'⟩ := hrest.stores
  have hnew : new = visits (s ++ '/' :: d.iName) ch := hall rfl
  refine ⟨hrest.restored, ?_, ⟨(a, s) :: (new ++ new'), ?_, ?_, ?_⟩,
    ⟨List.range' s.length (terminated ('/' :: d.iName)).length ++ newStores ++ s.length :: newStores',
      ?_, ?_, ?_⟩⟩
  · rw [passes_cons hch]
    exact hrest.returns.imp (fun h => ⟨h.1, hfit, hpass, h.2⟩) fun h => ⟨h.1, fun hp => h.2 hp.2.2⟩
  · rw [hcalls']
    show info'.calls ++ new' = _
    rw [hcalls]
    simp [InodePath.enter, InodePath.store, InodePath.call, hs]
  · rw [hnew]
    exact cons_prefix_cons.mpr ⟨rfl, (prefix_append_right_inj _).mpr hpre'⟩
  · intro h0
    rw [hnew, hall' h0]
    rfl
  · rw [hstores']
    show info'.stores ++ [s.length] ++ newStores' = _
    rw [hstores]
    simp [InodePath.enter, InodePath.store, InodePath.call]
  · rw [reached_cons hch hfit hpass]
    intro i hi
    simp only [mem_append, mem_cons, mem_range_name] at hi
    rcases hi with (⟨-, hi⟩ | hi) | rfl | hi
    · exact ⟨_, mem_cons_self, hi⟩
    · obtain ⟨p, hp, hip⟩ := hle i hi
      exact ⟨p, mem_cons_of_mem _ (mem_append_left _ hp), hip⟩
    · exact ⟨_, mem_cons_self, by simp⟩
    · obtain ⟨p, hp, hip⟩ := hle' i hi
      exact ⟨p, mem_cons_of_mem _ (mem_append_right _ hp), hip⟩
  · rw [reached_cons hch hfit hpass]
    intro p hp
    simp only [mem_append, mem_cons, mem_range_name]
    rcases mem_cons.mp hp with rfl | hp
    · exact Or.inl (Or.inl ⟨by simp, le_refl _⟩)
    · rcases mem_append.mp hp with hp | hp
      · exact Or.inl (Or.inr (hends p hp))
      · exact Or.inr (Or.inr (hends' p hp))

/-- **One level of a traversal**, for a handler that lets it go on. -/
theorem foreachInodelevel_spec (hzero : ∀ a s, handler a s = 0) (hrep : Rep heap up g)
    (fuel : Nat) (hfuel : g.height ≤ fuel) (hs : s.length ≤ pathMax)
    (hh : HoldsString info.path s) :
    ∃ ret info', foreachInodelevel heap handler fuel g.head info = some (ret, info') ∧
      Level s g info ret info' := by
  induction g generalizing up s info fuel with
  | nil =>
    refine ⟨0, info, ?_, Level.nil hh⟩
    cases fuel <;> rfl
  | cons a d ch pe ihc ihp =>
    simp only [Forest.height] at hfuel
    obtain ⟨fuel, rfl⟩ : ∃ n, fuel = n + 1 := ⟨fuel - 1, by omega⟩
    obtain ⟨hr, hc, hp⟩ := hrep
    have hcs := hh.cstring hs
    have hcall : cstring (info.call a).path = s := hcs
    have hrun : ∀ ret, handler a (cstring info.path) ≠ ret ↔ (0 : Int) ≠ ret := by
      intro ret
      rw [hzero]
    show ∃ ret info', foreachInodelevel heap handler (fuel + 1) (some a) info = some (ret, info') ∧ _
    simp only [foreachInodelevel, hr, hrun, hcall, ne_eq, not_true_eq_false, if_false,
      Option.bind_eq_bind, Option.bind_some]
    cases hch : ch.head with
    | none =>
      have hnil : ch = .nil := by
        cases ch with
        | nil => rfl
        | cons b e c p => cases hch
      subst hnil
      obtain ⟨ret, info', hrun', hlevel⟩ := @ihp _ _ (info.call a) hp fuel (by omega) hs hh
      exact ⟨ret, info', hrun', hlevel.leaf hcs⟩
    | some child =>
      have hne : ch.head ≠ none := by simp [hch]
      have hlen : (s ++ '/' :: d.iName).length = s.length + (d.iName.length + 1) := by simp
      by_cases hlong : s.length + (d.iName.length + 1) > pathMax
      · dsimp only
        rw [if_pos hlong]
        exact ⟨_, _, rfl, Level.tooLong hh hcs hne (by omega)⟩
      · dsimp only
        rw [if_neg hlong]
        have hfit : (s ++ '/' :: d.iName).length ≤ pathMax := by omega
        obtain ⟨ret, info₁, hrun₁, hsub⟩ := @ihc _ _ (info.enter a s d.iName) hc fuel
          (by omega) hfit (hh.append _)
        rw [hch] at hrun₁
        have henter : (info.call a).store s.length (terminated ('/' :: d.iName))
            = info.enter a s d.iName := rfl
        rw [henter, hrun₁]
        simp only [Option.bind_some]
        by_cases hret : ret = 0
        · subst hret
          obtain ⟨ret', info₂, hrun₂, hrest⟩ := @ihp _ _ (info₁.leave s) hp fuel (by omega) hs
            hsub.restored.truncate
          rw [if_neg (not_not.mpr rfl)]
          exact ⟨ret', info₂, hrun₂, Level.through hcs hne hfit hsub hrest⟩
        · rw [if_pos hret]
          exact ⟨ret, info₁.leave s, rfl, Level.stop hcs hne hfit hsub hret⟩

/-! ## The whole tree -/

theorem fst_mem_of_mem_visits {call : Addr × List Char} (h : call ∈ visits s g) :
    call.1 ∈ g.addrs := by
  induction g generalizing s with
  | nil => cases h
  | cons a d ch pe ihc ihp =>
    simp only [Forest.addrs, mem_cons, mem_append]
    simp only [visits, mem_cons, mem_append] at h
    rcases h with rfl | h | h
    · exact Or.inl rfl
    · exact Or.inr (Or.inl (ihc h))
    · exact Or.inr (Or.inr (ihp h))

theorem filter_visits_of_not_mem (h : a ∉ g.addrs) :
    (visits s g).filter (fun call => call.1 == a) = [] := by
  rw [filter_eq_nil_iff]
  intro call hc he
  rw [beq_iff_eq] at he
  exact h (he ▸ fst_mem_of_mem_visits hc)

theorem filter_visits {names : List Name} {name : Name} (hnd : g.addrs.Nodup)
    (hat : g.At Inode.iName (fun _ => false) a d (names ++ [name])) :
    (visits s g).filter (fun call => call.1 == a) = [(a, s ++ joined names)] := by
  induction g generalizing s names with
  | nil => cases hat
  | cons b e ch pe ihc ihp =>
    simp only [Forest.addrs, nodup_cons, mem_append, not_or, nodup_append] at hnd
    obtain ⟨⟨hbc, hbp⟩, hndc, hndp, hdisj⟩ := hnd
    rw [visits, filter_cons, filter_append]
    rcases hat with ⟨hks, rfl, -⟩ | ⟨-, t, hks, hat⟩ | hat
    · have hnames : names = [] := by
        cases names with
        | nil => rfl
        | cons n ns => simp at hks
      rw [hnames, filter_visits_of_not_mem hbc, filter_visits_of_not_mem hbp]
      simp [joined]
    · have hmem := hat.mem_addrs
      have hne : ¬b = a := fun he => hbc (he ▸ hmem)
      rw [filter_visits_of_not_mem (fun hp => hdisj a hmem a hp rfl)]
      cases names with
      | nil =>
        obtain ⟨-, rfl⟩ := List.cons.inj hks
        exact absurd hat not_at_nil
      | cons n ns =>
        obtain ⟨rfl, rfl⟩ := List.cons.inj hks
        rw [ihc hndc hat]
        simp [hne, joined]
    · have hmem := hat.mem_addrs
      have hne : ¬b = a := fun he => hbp (he ▸ hmem)
      rw [filter_visits_of_not_mem (fun hc => hdisj a hc a hmem rfl), ihp hndp hat]
      simp [hne]

theorem visitsAll_visits {fs : Fs} (hf : Linked fs f) : VisitsAll f (visits [] (below f)) := by
  obtain ⟨r, d, ch, rfl, hroot⟩ := hf.rooted
  have hnd := hf.stores.nodup
  simp only [Forest.addrs, append_nil, nodup_cons] at hnd
  intro a e names name hat
  rcases hat with ⟨hks, -, -⟩ | ⟨-, t, hks, hat⟩ | hat
  · simp at hks
  · obtain ⟨-, rfl⟩ := List.cons.inj hks
    exact filter_visits (s := []) hnd.2 hat
  · cases hat

theorem foreachInode_level {fs : Fs} (hf : Linked fs f) (hzero : ∀ a s, handler a s = 0)
    (buffer : Memory (Option Char)) :
    ∃ ret info, foreachInode fs handler (some buffer) = some (ret, info) ∧
      Level [] (below f) (InodePath.store ⟨buffer, [], []⟩ 0 [none]) ret info := by
  obtain ⟨r, d, ch, rfl, -⟩ := hf.rooted
  obtain ⟨hr, hc, -⟩ := hf.stores.rep
  have hroot : fs.root = some r := hf.stores.root_eq
  have hheight := hf.stores.rep.height_le hf.stores.nodup
  simp only [Forest.height] at hheight
  have hstart : HoldsString (InodePath.store ⟨buffer, [], []⟩ 0 [none]).path [] := holdsString_start
  obtain ⟨ret, info, hrun, hlevel⟩ := foreachInodelevel_spec hzero hc fs.heap.size (by omega)
    (Nat.zero_le _) hstart
  refine ⟨ret, info, ?_, hlevel⟩
  simp only [foreachInode, hroot, hr, Option.bind_eq_bind, Option.bind_some]
  exact hrun

/--
**When a traversal stays inside its path buffer.**

`foreach_inode` returns, for every tree and every handler that returns 0, and each level gives
the path back as it found it. The traversal is right if and only if none of the directories it
gets to has a path of exactly `PATH_MAX` characters: such a path passes the test, and its
terminator is stored behind the buffer. No store lies further out than that.
-/
theorem foreachInode_right_iff {fs : Fs} (hf : Linked fs f) (hzero : ∀ a s, handler a s = 0)
    (buffer : Memory (Option Char)) :
    (∃ ret info, foreachInode fs handler (some buffer) = some (ret, info) ∧
      (∀ i ∈ info.stores, i ≤ pathMax) ∧
      (ForeachRight f ret info ↔ ∀ p ∈ reached [] (below f), p.length ≠ pathMax)) ∧
    ∀ up g s info fuel, Rep fs.heap up g → g.height ≤ fuel → s.length ≤ pathMax →
      HoldsString info.path s →
      ∃ ret info', foreachInodelevel fs.heap handler fuel g.head info = some (ret, info') ∧
        HoldsString info'.path s := by
  constructor
  · obtain ⟨ret, info, hrun, hlevel⟩ := foreachInode_level hf hzero buffer
    obtain ⟨new, hcalls, hpre, hall⟩ := hlevel.calls
    obtain ⟨newStores, hstores, hle, hends⟩ := hlevel.stores
    have hcalls : info.calls = new := by
      rw [hcalls]
      rfl
    have hstores : info.stores = 0 :: newStores := by
      rw [hstores]
      rfl
    have hfit : ∀ p ∈ reached [] (below f), p.length ≤ pathMax := by
      intro p hp
      simpa using mem_takeWhile_imp hp
    refine ⟨ret, info, hrun, ?_, ?_⟩
    · rw [hstores]
      intro i hi
      rcases mem_cons.mp hi with rfl | hi
      · exact Nat.zero_le _
      · obtain ⟨p, hp, hip⟩ := hle i hi
        exact le_trans hip (hfit p hp)
    · constructor
      · intro hright p hp
        have := hright.inside p.length (by rw [hstores]; exact mem_cons_of_mem _ (hends p hp))
        omega
      · intro hne
        refine ⟨?_, hlevel.restored.cstring (Nat.zero_le _), ?_⟩
        · rw [hcalls]
          rcases hlevel.returns with ⟨hret, -⟩ | ⟨hret, hlong⟩
          · refine Or.inl ⟨hret, ?_⟩
            rw [hall hret]
            exact visitsAll_visits hf
          · refine Or.inr ⟨hret, hpre, ?_⟩
            unfold Passes at hlong
            push Not at hlong
            obtain ⟨p, hp, hlt⟩ := hlong
            exact ⟨p, hp, Nat.lt_succ_of_lt hlt⟩
        · rw [hstores]
          intro i hi
          rcases mem_cons.mp hi with rfl | hi
          · decide
          · obtain ⟨p, hp, hip⟩ := hle i hi
            have h1 := hfit p hp
            have h2 := hne p hp
            omega
  · intro up g s info fuel hrep hfuel hs hh
    obtain ⟨ret, info', hrun, hlevel⟩ := foreachInodelevel_spec hzero hrep fuel hfuel hs hh
    exact ⟨ret, info', hrun, hlevel.restored⟩

end

def nestedTree (name : Name) : Forest Inode :=
  .cons 0 (Inode.fresh []) (.cons 1 (Inode.fresh name)
    (.cons 2 (Inode.fresh ['b']) .nil .nil) .nil) .nil

def nestedFs (name : Name) : Fs :=
  ⟨⟨[some ⟨none, none, some 1, Inode.fresh []⟩, some ⟨some 0, none, some 2, Inode.fresh name⟩,
    some ⟨some 1, none, none, Inode.fresh ['b']⟩]⟩, some 0⟩

theorem linked_nested (name : Name) : Linked (nestedFs name) (nestedTree name) := by
  refine ⟨⟨rfl, ?_, ?_⟩, ?_, ⟨0, _, _, rfl, rfl⟩⟩
  · exact ⟨rfl, ⟨rfl, ⟨rfl, trivial, trivial⟩, trivial⟩, trivial⟩
  · show [0, 1, 2].Nodup
    decide
  · exact ⟨rfl, ⟨rfl, ⟨rfl, trivial, trivial⟩, trivial⟩, trivial⟩

theorem foreachInode_right_iff_nested :
    (∃ ret info, foreachInode (nestedFs ['a']) (fun _ _ => 0) (some fun _ => none)
        = some (ret, info) ∧ (∀ i ∈ info.stores, i ≤ pathMax) ∧
      (ForeachRight (nestedTree ['a']) ret info ↔
        ∀ p ∈ reached [] (below (nestedTree ['a'])), p.length ≠ pathMax)) ∧
    ∀ up g s info fuel, Rep (nestedFs ['a']).heap up g → g.height ≤ fuel → s.length ≤ pathMax →
      HoldsString info.path s →
      ∃ ret info', foreachInodelevel (nestedFs ['a']).heap (fun _ _ => 0) fuel g.head info
        = some (ret, info') ∧ HoldsString info'.path s :=
  foreachInode_right_iff (linked_nested ['a']) (fun _ _ => rfl) _

/-- The directory `/aa..a` with 255 letters: the traversal reports no error, and the terminator
of the path is stored at index `PATH_MAX` of a buffer with `PATH_MAX` characters. -/
theorem foreachInode_overruns : ∃ ret info,
    foreachInode (nestedFs (List.replicate 255 'a')) (fun _ _ => 0) (some fun _ => none)
      = some (ret, info) ∧ ret = 0 ∧ pathMax ∈ info.stores ∧
    ¬ForeachRight (nestedTree (List.replicate 255 'a')) ret info := by
  obtain ⟨ret, info, hrun, hlevel⟩ := @foreachInode_level (fun _ _ => 0)
    _ _ (linked_nested (List.replicate 255 'a')) (fun _ _ => rfl) fun _ => none
  have hdirs : directories [] (below (nestedTree (List.replicate 255 'a')))
      = ['/' :: List.replicate 255 'a'] := rfl
  have hlen : ('/' :: List.replicate 255 'a').length = pathMax := by
    rw [length_cons, length_replicate]
    rfl
  have hpass : Passes [] (below (nestedTree (List.replicate 255 'a'))) := by
    unfold Passes
    rw [hdirs]
    intro p hp
    rw [mem_singleton.mp hp, hlen]
  have hmem : pathMax ∈ info.stores := by
    obtain ⟨new, hstores, -, hends⟩ := hlevel.stores
    have hend := hends ('/' :: List.replicate 255 'a') (by
      rw [reached_of_passes hpass, hdirs]
      exact mem_singleton_self _)
    rw [hstores, ← hlen]
    exact mem_append_right _ hend
  refine ⟨ret, info, hrun, (hlevel.returns.resolve_right fun h => h.2 hpass).1, hmem, ?_⟩
  exact fun hright => lt_irrefl _ (hright.inside pathMax hmem)

end Gpmx.PseudoFs
