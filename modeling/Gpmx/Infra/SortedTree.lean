import Gpmx.Infra.LinkedTree
import Mathlib

/-!
# Searching a tree with sorted siblings

The nodes carry a key, a list of keys names a node, and a search for it goes right along the
siblings while their key is less, and down where it is equal. It gives up at the first greater
key, and ends early at a node that `stop`s it.

* `Route` — how a search gets to a place: what it has to pass on the way there
* `walk_eq_of_route`, `walk_spec` — a search goes through a place exactly along a route to it
* `route_of_sorted` — with sorted siblings there is a route to every node that is named
* `Sorted.sprout` — a search that fails ends where the missing nodes belong
-/

namespace Gpmx.Infra

open List

variable {δ κ : Type} [LinearOrder κ] (key : δ → κ) (stop : δ → Bool)

/-! ## Order -/

namespace Forest

def level : Forest δ → List κ
  | nil => []
  | cons _ d _ peer => key d :: peer.level

def Sorted : Forest δ → Prop
  | nil => True
  | cons _ d child peer => (∀ k ∈ peer.level key, key d < k) ∧ child.Sorted ∧ peer.Sorted

end Forest

namespace Ctx

/-- Every list of siblings is strictly ascending when the hole holds siblings with keys `ks`. -/
def SortedAt : Ctx δ → List κ → Prop
  | top, _ => True
  | peer K _ d ch, ks => (∀ k ∈ ks, key d < k) ∧ ch.Sorted key ∧ K.SortedAt (key d :: ks)
  | child K _ d pe, _ =>
    (∀ k ∈ pe.level key, key d < k) ∧ pe.Sorted key ∧ K.SortedAt (key d :: pe.level key)

end Ctx

variable {key stop}

variable {K : Ctx δ} {ks : List κ} {a : Addr} {d : δ} {ch pe : Forest δ} {k : κ} {mk : κ → δ}

theorem sorted_fill {g : Forest δ} :
    (K.fill g).Sorted key ↔ K.SortedAt key (g.level key) ∧ g.Sorted key := by
  induction K generalizing g with
  | top => exact ⟨fun h => ⟨trivial, h⟩, fun h => h.2⟩
  | peer K a d ch ih | child K a d pe ih =>
    simp only [Ctx.fill, ih, Forest.Sorted, Forest.level, Ctx.SortedAt]
    tauto

theorem Ctx.SortedAt.mono {ks' : List κ} (h : K.SortedAt key ks) (hsub : ∀ k ∈ ks', k ∈ ks) :
    K.SortedAt key ks' := by
  induction K generalizing ks ks' with
  | top => trivial
  | peer K a d ch ih =>
    obtain ⟨hlt, hch, hK⟩ := h
    refine ⟨fun k hk => hlt k (hsub k hk), hch, ih hK ?_⟩
    intro k hk
    rcases mem_cons.mp hk with rfl | hk
    · exact mem_cons_self
    · exact mem_cons_of_mem _ (hsub k hk)
  | child K a d pe ih => exact h

theorem sorted_unlink (h : (K.fill (.cons a d ch pe)).Sorted key) : (K.fill pe).Sorted key := by
  obtain ⟨hK, -, -, hpe⟩ := sorted_fill.mp h
  exact sorted_fill.mpr ⟨hK.mono fun k hk => mem_cons_of_mem _ hk, hpe⟩

theorem sorted_mapAt {φ : Addr → δ → δ} (hkey : ∀ a d, key (φ a d) = key d) {f : Forest δ}
    (h : f.Sorted key) : (f.mapAt φ).Sorted key := by
  have hlevel : ∀ f : Forest δ, (f.mapAt φ).level key = f.level key := by
    intro f
    induction f with
    | nil => rfl
    | cons a d ch pe ihc ihp => simp only [Forest.mapAt, Forest.level, hkey, ihp]
  induction f with
  | nil => trivial
  | cons a d ch pe ihc ihp =>
    refine ⟨?_, ihc h.2.1, ihp h.2.2⟩
    rw [hlevel, hkey]
    exact h.1

/-! ## The search -/

inductive Walk (κ δ : Type) where
  | hit (rest : List κ) (K : Ctx δ) (a : Addr) (d : δ) (child peer : Forest δ)
  | miss (rest : List κ) (K : Ctx δ) (g : Forest δ)

def Walk.ctx : Walk κ δ → Ctx δ
  | .hit _ K _ _ _ _ => K
  | .miss _ K _ => K

def Walk.here : Walk κ δ → Forest δ
  | .hit _ _ a d ch pe => .cons a d ch pe
  | .miss _ _ g => g

variable (key stop)

def walk : List κ → Ctx δ → Forest δ → Walk κ δ
  | ks, K, .nil => .miss ks K .nil
  | [], K, .cons a d ch pe => .miss [] K (.cons a d ch pe)
  | k :: ks, K, .cons a d ch pe =>
    if k < key d then .miss (k :: ks) K (.cons a d ch pe)
    else if key d < k then walk (k :: ks) (.peer K a d ch) pe
    else if ks = [] ∨ stop d = true then .hit ks K a d ch pe
    else walk ks (.child K a d pe) ch

/-- A search for `keys` gets to the hole with `rest` still to be found. -/
def Route (keys : List κ) : Ctx δ → List κ → Prop
  | .top, rest => rest = keys
  | .peer K _ d _, rest => Route keys K rest ∧ ∃ k ks, rest = k :: ks ∧ key d < k
  | .child K _ d _, rest => rest ≠ [] ∧ stop d = false ∧ Route keys K (key d :: rest)

def Beyond (rest : List κ) : Forest δ → Prop
  | .nil => True
  | .cons _ d _ _ => ∃ k ks, rest = k :: ks ∧ k < key d

variable {key stop} {keys rest : List κ} {K : Ctx δ} {g : Forest δ}

section

variable (h : Route key stop keys K rest)
include h

theorem Route.rest_ne_nil (hkeys : keys ≠ []) : rest ≠ [] := by
  cases K with
  | top =>
    rw [show rest = keys from h]
    exact hkeys
  | peer K a d ch =>
    obtain ⟨-, k, ks, rfl, -⟩ := h
    exact cons_ne_nil k ks
  | child K a d pe => exact h.1

theorem Route.keys_eq : keys = K.spine.map key ++ rest := by
  induction K generalizing rest with
  | top => exact h.symm
  | peer K a d ch ih => exact ih h.1
  | child K a d pe ih =>
    rw [ih h.2.2]
    simp [Ctx.spine]

theorem Route.stop_spine : ∀ e ∈ K.spine, stop e = false := by
  induction K generalizing rest with
  | top => exact fun e he => absurd he not_mem_nil
  | peer K a d ch ih => exact ih h.1
  | child K a d pe ih =>
    intro e he
    rcases mem_append.mp he with he | he
    · exact ih h.2.2 e he
    · rw [mem_singleton.mp he]
      exact h.2.1

theorem Route.mapAt {φ : Addr → δ → δ} (hkey : ∀ a d, key (φ a d) = key d) (hstop : ∀ a d, stop (φ a d) = stop d) :
    Route key stop keys (K.mapAt φ) rest := by
  induction K generalizing rest with
  | top => exact h
  | peer K a d ch ih =>
    refine ⟨ih h.1, ?_⟩
    rw [hkey]
    exact h.2
  | child K a d pe ih =>
    refine ⟨h.1, ?_, ?_⟩
    · rw [hstop]
      exact h.2.1
    · rw [hkey]
      exact ih h.2.2

theorem walk_eq_of_route (g : Forest δ) :
    walk key stop keys .top (K.fill g) = walk key stop rest K g := by
  induction K generalizing rest g with
  | top =>
    rw [show rest = keys from h]
    rfl
  | peer K a d ch ih =>
    obtain ⟨hK, k, ks, rfl, hlt⟩ := h
    rw [Ctx.fill, ih hK, walk, if_neg (lt_asymm hlt), if_pos hlt]
  | child K a d pe ih =>
    obtain ⟨hne, hstop, hK⟩ := h
    have hdown : ¬(rest = [] ∨ stop d = true) := by
      rintro (rfl | h)
      · exact hne rfl
      · rw [hstop] at h
        cases h
    rw [Ctx.fill, ih hK, walk, if_neg (lt_irrefl _), if_neg (lt_irrefl _), if_neg hdown]

end

def Walk.Sound (key : δ → κ) (stop : δ → Bool) (keys : List κ) (f : Forest δ) : Walk κ δ → Prop
  | .hit rest K a d ch pe =>
    f = K.fill (.cons a d ch pe) ∧ Route key stop keys K (key d :: rest) ∧
      (rest = [] ∨ stop d = true)
  | .miss rest K g => f = K.fill g ∧ Route key stop keys K rest ∧ Beyond key rest g

theorem walk_sound (hkeys : keys ≠ []) (h : Route key stop keys K rest) :
    (walk key stop rest K g).Sound key stop keys (K.fill g) := by
  induction g generalizing K rest with
  | nil => exact ⟨rfl, h, trivial⟩
  | cons a d ch pe ihc ihp =>
    obtain ⟨k, ks, rfl⟩ := exists_cons_of_ne_nil (h.rest_ne_nil hkeys)
    unfold walk
    by_cases hlt : k < key d
    · rw [if_pos hlt]
      exact ⟨rfl, h, k, ks, rfl, hlt⟩
    · rw [if_neg hlt]
      by_cases hgt : key d < k
      · rw [if_pos hgt]
        exact ihp (K := .peer K a d ch) ⟨h, k, ks, rfl, hgt⟩
      · rw [if_neg hgt]
        obtain rfl : k = key d := le_antisymm (not_lt.mp hgt) (not_lt.mp hlt)
        by_cases hend : ks = [] ∨ stop d = true
        · rw [if_pos hend]
          exact ⟨rfl, h, hend⟩
        · rw [if_neg hend]
          rw [not_or, Bool.not_eq_true] at hend
          exact ihc (K := .child K a d pe) ⟨hend.1, hend.2, h⟩

theorem walk_spec (key : δ → κ) (stop : δ → Bool) (hkeys : keys ≠ []) (f : Forest δ) :
    (walk key stop keys .top f).Sound key stop keys f :=
  walk_sound (K := .top) hkeys rfl

theorem walk_under {V : δ → Prop} {T : Forest δ → Prop} (hK : ∀ X, X.All V → T (K.fill X))
    (hg : g.All V) :
    (∀ X, X.All V → T ((walk key stop rest K g).ctx.fill X)) ∧
      (walk key stop rest K g).here.All V := by
  induction g generalizing K rest with
  | nil => exact ⟨hK, trivial⟩
  | cons a d ch pe ihc ihp =>
    obtain ⟨hd, hch, hpe⟩ := hg
    cases rest with
    | nil => exact ⟨hK, hd, hch, hpe⟩
    | cons k ks =>
      unfold walk
      split
      · exact ⟨hK, hd, hch, hpe⟩
      · split
        · exact ihp (K := .peer K a d ch) (fun X hX => hK _ ⟨hd, hch, hX⟩) hpe
        · split
          · exact ⟨hK, hd, hch, hpe⟩
          · exact ihc (K := .child K a d pe) (fun X hX => hK _ ⟨hd, hX, hpe⟩) hch

theorem walk_eq_hit (h : Route key stop keys K (key d :: rest)) (hend : rest = [] ∨ stop d = true) :
    walk key stop keys .top (K.fill (.cons a d ch pe)) = .hit rest K a d ch pe := by
  rw [walk_eq_of_route h, walk, if_neg (lt_irrefl _), if_neg (lt_irrefl _), if_pos hend]

theorem walk_eq_miss (h : Route key stop keys K rest) (hbeyond : Beyond key rest g) :
    walk key stop keys .top (K.fill g) = .miss rest K g := by
  rw [walk_eq_of_route h]
  cases g with
  | nil => rfl
  | cons a d ch pe =>
    obtain ⟨k, ks, rfl, hlt⟩ := hbeyond
    rw [walk, if_pos hlt]

/-! ## Sorted trees -/

theorem route_of_sorted (hs : (K.fill (.cons a d ch pe)).Sorted key)
    (hkeys : keys = K.spine.map key ++ k :: ks) (hle : key d ≤ k)
    (hstop : ∀ e ∈ K.spine, stop e = false) : Route key stop keys K (k :: ks) := by
  induction K generalizing a d ch pe k ks with
  | top => exact hkeys.symm
  | peer K b e ch' ih =>
    -- the node to the left is in the same list, so its key is less than the one in the hole
    have hlt : key e < key d := by
      obtain ⟨-, hhere, -, -⟩ := sorted_fill.mp (show (K.fill (.cons b e ch' _)).Sorted key from hs)
      exact hhere (key d) mem_cons_self
    have hlt' : key e < k := lt_of_lt_of_le hlt hle
    exact ⟨ih hs hkeys (le_of_lt hlt') hstop, k, ks, rfl, hlt'⟩
  | child K b e pe' ih =>
    refine ⟨cons_ne_nil k ks, hstop e (by simp [Ctx.spine]), ih hs ?_ (le_refl _) ?_⟩
    · rw [hkeys]
      simp [Ctx.spine]
    · intro x hx
      exact hstop x (by simp [Ctx.spine, hx])

theorem Ctx.SortedAt.cons {lvl : List κ} (hs : K.SortedAt key lvl)
    (h : Route key stop keys K (k :: ks)) : K.SortedAt key (k :: lvl) := by
  induction K generalizing lvl with
  | top => trivial
  | peer K a d ch ih =>
    obtain ⟨hlt, hch, hK⟩ := hs
    obtain ⟨hroute, k', ks', heq, hd⟩ := h
    rw [← (List.cons.inj heq).1] at hd
    refine ⟨?_, hch, (ih hK hroute).mono ?_⟩
    · intro x hx
      rcases mem_cons.mp hx with rfl | hx
      · exact hd
      · exact hlt x hx
    · intro x hx
      simp only [mem_cons] at hx ⊢
      tauto
  | child K a d pe ih => exact hs

theorem Beyond.lt_of_sorted (h : Beyond key (k :: ks) g) (hs : g.Sorted key) :
    ∀ k' ∈ g.level key, k < k' := by
  cases g with
  | nil => exact fun k' hk' => absurd hk' not_mem_nil
  | cons a d ch pe =>
    obtain ⟨k₀, ks₀, heq, hlt⟩ := h
    rw [← (List.cons.inj heq).1] at hlt
    intro k' hk'
    rcases mem_cons.mp hk' with rfl | hk'
    · exact hlt
    · exact lt_trans hlt (hs.1 k' hk')

/-! ## Growing a branch -/

/-- A branch of new nodes, one under the other, the first of them in front of `g`. -/
def sprout (mk : κ → δ) : List κ → List Addr → Forest δ → Forest δ
  | k :: ks, a :: as, g => .cons a (mk k) (sprout mk ks as .nil) g
  | _, _, g => g

omit [LinearOrder κ] in
theorem sprout_nil (mk : κ → δ) (ks : List κ) (g : Forest δ) : sprout mk ks [] g = g := by
  cases ks <;> rfl

theorem sorted_sprout_nil (ks : List κ) (as : List Addr) : (sprout mk ks as .nil).Sorted key := by
  induction ks generalizing as with
  | nil => trivial
  | cons k ks ih =>
    cases as with
    | nil => trivial
    | cons a as => exact ⟨fun k' hk' => absurd hk' not_mem_nil, ih as, trivial⟩

theorem sorted_sprout (hmk : ∀ k, key (mk k) = k) (hs : (K.fill g).Sorted key)
    (h : Route key stop keys K rest) (hbeyond : Beyond key rest g) (as : List Addr) :
    (K.fill (sprout mk rest as g)).Sorted key := by
  cases rest with
  | nil => exact hs
  | cons k ks =>
    cases as with
    | nil => exact hs
    | cons a as =>
      obtain ⟨hK, hg⟩ := sorted_fill.mp hs
      refine sorted_fill.mpr ⟨?_, ?_, sorted_sprout_nil ks as, hg⟩
      · show K.SortedAt key (key (mk k) :: g.level key)
        rw [hmk]
        exact hK.cons h
      · rw [hmk]
        exact hbeyond.lt_of_sorted hg

omit [LinearOrder κ] in
theorem all_sprout {P : δ → Prop} (mk : κ → δ) (ks : List κ) (hmk : ∀ k ∈ ks, P (mk k))
    (as : List Addr) (hg : g.All P) : (sprout mk ks as g).All P := by
  induction ks generalizing as g with
  | nil => exact hg
  | cons k ks ih =>
    cases as with
    | nil => exact hg
    | cons a as =>
      exact ⟨hmk k mem_cons_self,
        ih (fun k' hk' => hmk k' (mem_cons_of_mem _ hk')) as trivial, hg⟩

theorem sprout_leaf (mk : κ → δ) (hkey : ∀ k, key (mk k) = k) (hstop : ∀ k, stop (mk k) = false)
    {as : List Addr} (hrest : rest ≠ []) (hlen : as.length = rest.length)
    (h : Route key stop keys K rest) :
    ∃ K' k a g', K.fill (sprout mk rest as g) = K'.fill (.cons a (mk k) .nil g') ∧
      as.getLast? = some a ∧ Route key stop keys K' [k] ∧
      ((rest.length = 1 ∧ K' = K ∧ g' = g) ∨
        (2 ≤ rest.length ∧ ∃ a₀ ∈ as, a₀ ∈ K'.addrs)) := by
  induction rest generalizing K as g with
  | nil => exact absurd rfl hrest
  | cons k ks ih =>
    cases as with
    | nil => cases hlen
    | cons a as =>
      cases ks with
      | nil =>
        obtain rfl : as = [] := eq_nil_of_length_eq_zero (Nat.succ.inj hlen)
        exact ⟨K, k, a, g, rfl, rfl, h, Or.inl ⟨rfl, rfl, rfl⟩⟩
      | cons k₂ ks =>
        have hroute : Route key stop keys (.child K a (mk k) g) (k₂ :: ks) := by
          refine ⟨cons_ne_nil _ _, hstop k, ?_⟩
          rw [hkey]
          exact h
        obtain ⟨K', k', a', g', hfill, hlast, hroute', hcase⟩ :=
          ih (K := .child K a (mk k) g) (g := .nil) (cons_ne_nil _ _) (Nat.succ.inj hlen)
            hroute
        refine ⟨K', k', a', g', hfill, ?_, hroute', Or.inr ⟨by simp, ?_⟩⟩
        · cases as with
          | nil => cases hlen
          | cons b bs => rw [getLast?_cons_cons, hlast]
        · rcases hcase with ⟨-, rfl, -⟩ | ⟨-, a₀, ha₀, hmem⟩
          · exact ⟨a, mem_cons_self, mem_cons_self⟩
          · exact ⟨a₀, mem_cons_of_mem _ ha₀, hmem⟩

omit [LinearOrder κ] in
theorem mem_addrs_sprout (as : List Addr) (h : a ∈ g.addrs) : a ∈ (sprout mk ks as g).addrs := by
  cases ks with
  | nil => exact h
  | cons k ks =>
    cases as with
    | nil => exact h
    | cons b bs => exact mem_cons_of_mem _ (mem_append_right _ h)

end Gpmx.Infra
