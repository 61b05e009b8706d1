import Gpmx.Infra.SortedTree

/-!
# Nodes by their path

A node is at a path when the path has the keys of its ancestors, the top first, and its own.

* `at_fill`, `at_fill_cases` — what is in a hole is at the paths through the hole, and what is
  outside of it does not move when the hole gets another content
* `at_unlink`, `not_at_unlinked`, `at_sprout` — paths when a node is taken out or a branch grows
* `walk_of_at`, `at_unique` — with sorted siblings, a search finds the node at a path
-/

namespace Gpmx.Infra

open List
open Or (inl inr)

variable {δ κ : Type} (key : δ → κ) (stop : δ → Bool)

/-- The node `b` holds `e` and is at the path, with nothing above it that stops a search. -/
def Forest.At (b : Addr) (e : δ) : List κ → Forest δ → Prop
  | _, .nil => False
  | ks, .cons a d child peer =>
    (ks = [key d] ∧ a = b ∧ d = e) ∨
      (stop d = false ∧ ∃ t, ks = key d :: t ∧ child.At b e t) ∨ peer.At b e ks

def Ctx.Open (K : Ctx δ) : Prop := ∀ e ∈ K.spine, stop e = false

def Ctx.keys (K : Ctx δ) : List κ := K.spine.map key

variable {key stop} {b : Addr} {e : δ} {ks t : List κ} {K : Ctx δ} {f g : Forest δ}

@[simp] theorem Ctx.keys_child (a : Addr) (d : δ) (pe : Forest δ) :
    (Ctx.child K a d pe).keys key = K.keys key ++ [key d] := by
  simp [Ctx.keys, Ctx.spine]

variable {a : Addr} {d : δ} {pe ch : Forest δ} {mk : κ → δ} {as : List Addr}

theorem Ctx.open_child : (Ctx.child K a d pe).Open stop ↔ K.Open stop ∧ stop d = false := by
  simp only [Ctx.Open, Ctx.spine, mem_append, mem_singleton]
  constructor
  · intro h
    exact ⟨fun x hx => h x (inl hx), h d (inr rfl)⟩
  · rintro ⟨hK, hd⟩ x (hx | rfl)
    · exact hK x hx
    · exact hd

/-! ## Through a hole -/

theorem Forest.At.mem_addrs (h : f.At key stop b e ks) : b ∈ f.addrs := by
  induction f generalizing ks with
  | nil => cases h
  | cons a d ch pe ihc ihp =>
    simp only [Forest.addrs, mem_cons, mem_append]
    rcases h with ⟨-, rfl, -⟩ | ⟨-, t, -, h⟩ | h
    · exact inl rfl
    · exact inr (inl (ihc h))
    · exact inr (inr (ihp h))

theorem at_fill (hopen : K.Open stop) (h : g.At key stop b e t) :
    (K.fill g).At key stop b e (K.keys key ++ t) := by
  induction K generalizing g t with
  | top => exact h
  | peer K a d ch ih => exact ih hopen (inr (inr h))
  | child K a d pe ih =>
    obtain ⟨hK, hd⟩ := Ctx.open_child.mp hopen
    rw [Ctx.keys_child, append_assoc]
    exact ih hK (inr (inl ⟨hd, t, rfl, h⟩))

theorem at_fill_cases (g' : Forest δ) (h : (K.fill g).At key stop b e ks) :
    (K.fill g').At key stop b e ks ∨
      (K.Open stop ∧ ∃ t, ks = K.keys key ++ t ∧ g.At key stop b e t) := by
  induction K generalizing g g' with
  | top => exact inr ⟨fun x hx => absurd hx not_mem_nil, ks, rfl, h⟩
  | peer K a d ch ih =>
    rcases ih (.cons a d ch g') h with h | ⟨hopen, t, rfl, hnode | hchild | hpeer⟩
    · exact inl h
    · exact inl (at_fill hopen (inl hnode))
    · exact inl (at_fill hopen (inr (inl hchild)))
    · exact inr ⟨hopen, t, rfl, hpeer⟩
  | child K a d pe ih =>
    rcases ih (.cons a d g' pe) h with h | ⟨hopen, t, rfl, hnode | ⟨hd, t', rfl, hch⟩ | hpeer⟩
    · exact inl h
    · exact inl (at_fill hopen (inl hnode))
    · refine inr ⟨Ctx.open_child.mpr ⟨hopen, hd⟩, t', ?_, hch⟩
      rw [Ctx.keys_child, append_assoc]
      rfl
    · exact inl (at_fill hopen (inr (inr hpeer)))

theorem at_fill_mono {g' : Forest δ} (hg : ∀ t, g.At key stop b e t → g'.At key stop b e t)
    (h : (K.fill g).At key stop b e ks) : (K.fill g').At key stop b e ks := by
  rcases at_fill_cases g' h with h | ⟨hopen, t, rfl, ht⟩
  · exact h
  · exact at_fill hopen (hg t ht)

theorem Forest.At.occurs (h : f.At key stop b e ks) :
    ∃ (K : Ctx δ) (ch pe : Forest δ),
      f = K.fill (.cons b e ch pe) ∧ ks = K.keys key ++ [key e] ∧ K.Open stop := by
  have hin : ∀ K₀ : Ctx δ, K₀.Open stop → ∃ (K : Ctx δ) (ch pe : Forest δ),
      K₀.fill f = K.fill (.cons b e ch pe) ∧ K₀.keys key ++ ks = K.keys key ++ [key e] ∧
        K.Open stop := by
    induction f generalizing ks with
    | nil => cases h
    | cons a d ch pe ihc ihp =>
      intro K₀ hopen
      rcases h with ⟨rfl, rfl, rfl⟩ | ⟨hd, t, rfl, h⟩ | h
      · exact ⟨K₀, ch, pe, rfl, rfl, hopen⟩
      · obtain ⟨K, ch', pe', hfill, hkeys, hK⟩ :=
          ihc h (.child K₀ a d pe) (Ctx.open_child.mpr ⟨hopen, hd⟩)
        refine ⟨K, ch', pe', hfill, ?_, hK⟩
        rw [← hkeys, Ctx.keys_child, append_assoc]
        rfl
      · exact ihp h (.peer K₀ a d ch) hopen
  exact hin .top fun x hx => absurd hx not_mem_nil

theorem Forest.At.weaken (h : f.At key stop b e ks) : f.At key (fun _ => false) b e ks := by
  obtain ⟨K, ch, pe, rfl, rfl, -⟩ := h.occurs
  exact at_fill (fun _ _ => rfl) (inl ⟨rfl, rfl, rfl⟩)

theorem exists_at_of_mem (hb : b ∈ f.addrs) : ∃ e ks, f.At key (fun _ => false) b e ks := by
  induction f with
  | nil => cases hb
  | cons a d ch pe ihc ihp =>
    simp only [Forest.addrs, mem_cons, mem_append] at hb
    rcases hb with rfl | hb | hb
    · exact ⟨d, [key d], inl ⟨rfl, rfl, rfl⟩⟩
    · obtain ⟨e, ks, h⟩ := ihc hb
      exact ⟨e, key d :: ks, inr (inl ⟨rfl, ks, rfl, h⟩)⟩
    · obtain ⟨e, ks, h⟩ := ihp hb
      exact ⟨e, ks, inr (inr h)⟩

theorem at_path_unique {e' : δ} {ks' : List κ} (hnd : f.addrs.Nodup) (h : f.At key stop b e ks)
    (h' : f.At key stop b e' ks') : ks = ks' := by
  induction f generalizing ks ks' with
  | nil => cases h
  | cons a d ch pe ihc ihp =>
    simp only [Forest.addrs, nodup_cons, mem_append, not_or, nodup_append] at hnd
    obtain ⟨⟨hac, hap⟩, hndc, hndp, hdisj⟩ := hnd
    rcases h with ⟨rfl, rfl, -⟩ | ⟨-, t, rfl, h⟩ | h
    · rcases h' with ⟨rfl, -⟩ | ⟨-, t', rfl, h'⟩ | h'
      · rfl
      · exact absurd h'.mem_addrs hac
      · exact absurd h'.mem_addrs hap
    · rcases h' with ⟨-, rfl, -⟩ | ⟨-, t', rfl, h'⟩ | h'
      · exact absurd h.mem_addrs hac
      · rw [ihc hndc h h']
      · exact absurd rfl (hdisj b h.mem_addrs b h'.mem_addrs)
    · rcases h' with ⟨-, rfl, -⟩ | ⟨-, t', rfl, h'⟩ | h'
      · exact absurd h.mem_addrs hap
      · exact absurd rfl (hdisj b h'.mem_addrs b h.mem_addrs)
      · exact ihp hndp h h'

/-! ## Taking a node out, and growing a branch -/

theorem at_of_unlink (h : (K.fill pe).At key stop b e ks) :
    (K.fill (.cons a d ch pe)).At key stop b e ks :=
  at_fill_mono (fun _ ht => inr (inr ht)) h

theorem at_unlink (h : (K.fill (.cons a d ch pe)).At key stop b e ks) :
    (K.fill pe).At key stop b e ks ∨ K.keys key ++ [key d] <+: ks := by
  rcases at_fill_cases pe h with h | ⟨hopen, t, rfl, ⟨rfl, -⟩ | ⟨-, t', rfl, -⟩ | hpeer⟩
  · exact inl h
  · exact inr (prefix_refl _)
  · refine inr ⟨t', ?_⟩
    rw [append_assoc]
    rfl
  · exact inl (at_fill hopen hpeer)

theorem sprout_subset (mk : κ → δ) (ks : List κ) (as : List Addr) (h : g.At key stop b e t) :
    (sprout mk ks as g).At key stop b e t := by
  cases ks with
  | nil => exact h
  | cons k ks =>
    cases as with
    | nil => exact h
    | cons a as => exact inr (inr h)

theorem at_of_sprout (hmk : ∀ k, key (mk k) = k) (h : (sprout mk ks as g).At key stop b e t) :
    g.At key stop b e t ∨ (b ∈ as ∧ t <+: ks) := by
  induction ks generalizing as g t with
  | nil => exact inl h
  | cons k ks ih =>
    cases as with
    | nil => exact inl h
    | cons a as =>
      rcases h with ⟨rfl, rfl, -⟩ | ⟨-, t', rfl, h⟩ | h
      · rw [hmk]
        exact inr ⟨mem_cons_self, ks, rfl⟩
      · rw [hmk]
        rcases ih h with h | ⟨hb, hpre⟩
        · cases h
        · exact inr ⟨mem_cons_of_mem _ hb, cons_prefix_cons.mpr ⟨rfl, hpre⟩⟩
      · exact inl h

theorem sublist_addrs_sprout (mk : κ → δ) (hlen : as.length = ks.length) :
    as.Sublist (sprout mk ks as g).addrs := by
  induction ks generalizing as g with
  | nil =>
    rw [eq_nil_of_length_eq_zero hlen]
    exact nil_sublist _
  | cons k ks ih =>
    obtain ⟨a, as, rfl⟩ : ∃ a as', as = a :: as' :=
      exists_cons_of_ne_nil (by rintro rfl; cases hlen)
    have hrest := ih (g := .nil) (Nat.succ.inj hlen)
    exact (hrest.trans (sublist_append_left _ _)).cons_cons a

theorem at_sprout_iff (hmk : ∀ k, key (mk k) = k) (hstop : ∀ k, stop (mk k) = false)
    (hlen : as.length = ks.length) :
    (sprout mk ks as g).At key stop b e t ↔
      g.At key stop b e t ∨
        ∃ i k, ks[i]? = some k ∧ as[i]? = some b ∧ t = ks.take (i + 1) ∧ e = mk k := by
  induction ks generalizing as g t with
  | nil => simp [sprout]
  | cons k ks ih =>
    obtain ⟨a, as, rfl⟩ : ∃ a as', as = a :: as' :=
      exists_cons_of_ne_nil (by rintro rfl; cases hlen)
    have hlen : as.length = ks.length := Nat.succ.inj hlen
    constructor
    · rintro (⟨rfl, rfl, rfl⟩ | ⟨-, t', rfl, h⟩ | h)
      · exact inr ⟨0, k, rfl, rfl, by simp [hmk], rfl⟩
      · rcases (ih hlen).mp h with h | ⟨i, k', hk, ha, rfl, rfl⟩
        · cases h
        · exact inr ⟨i + 1, k', by simpa using hk, by simpa using ha, by simp [hmk], rfl⟩
      · exact inl h
    · rintro (h | ⟨i, k', hk, ha, rfl, rfl⟩)
      · exact inr (inr h)
      · cases i with
        | zero =>
          obtain rfl : k = k' := by simpa using hk
          exact inl ⟨by simp [hmk], by simpa using ha, rfl⟩
        | succ i =>
          refine inr (inl ⟨hstop k, ks.take (i + 1), by simp [hmk], (ih hlen).mpr (inr ?_)⟩)
          exact ⟨i, k', by simpa using hk, by simpa using ha, rfl, rfl⟩

theorem at_fill_sprout_iff (hmk : ∀ k, key (mk k) = k) (hstop : ∀ k, stop (mk k) = false)
    (hopen : K.Open stop) (hlen : as.length = ks.length) :
    (K.fill (sprout mk ks as g)).At key stop b e t ↔
      (K.fill g).At key stop b e t ∨
        ∃ i k, ks[i]? = some k ∧ as[i]? = some b ∧ t = K.keys key ++ ks.take (i + 1) ∧
          e = mk k := by
  constructor
  · intro h
    rcases at_fill_cases g h with h | ⟨-, t', rfl, ht⟩
    · exact inl h
    · rcases (at_sprout_iff hmk hstop hlen).mp ht with ht | ⟨i, k, hk, ha, rfl, rfl⟩
      · exact inl (at_fill hopen ht)
      · exact inr ⟨i, k, hk, ha, rfl, rfl⟩
  · rintro (h | ⟨i, k, hk, ha, rfl, rfl⟩)
    · exact at_fill_mono (fun _ ht => sprout_subset mk ks as ht) h
    · exact at_fill hopen ((at_sprout_iff hmk hstop hlen).mpr (inr ⟨i, k, hk, ha, rfl, rfl⟩))

theorem at_leaf_congr {n : Addr} {x y : δ} (hne : b ≠ n)
    (h : (K.fill (.cons n x .nil pe)).At key stop b e ks) :
    (K.fill (.cons n y .nil pe)).At key stop b e ks := by
  refine at_fill_mono (fun t ht => ?_) h
  rcases ht with ⟨-, rfl, -⟩ | ⟨-, t', -, ht⟩ | ht
  · exact absurd rfl hne
  · cases ht
  · exact inr (inr ht)

/-! ## Sorted trees -/

section

variable [LinearOrder κ]

theorem walk_of_at (hs : f.Sorted key) (h : f.At key stop b e ks) :
    ∃ K ch pe, f = K.fill (.cons b e ch pe) ∧
      walk key stop ks .top f = .hit [] K b e ch pe := by
  obtain ⟨K, ch, pe, rfl, rfl, hopen⟩ := h.occurs
  exact ⟨K, ch, pe, rfl, walk_eq_hit (route_of_sorted hs rfl (le_refl _) hopen) (inl rfl)⟩

theorem at_of_walk (hks : ks ≠ []) (h : walk key stop ks .top f = .hit [] K b e ch pe) :
    f.At key stop b e ks := by
  have hsound := walk_spec key stop hks f
  rw [h] at hsound
  obtain ⟨rfl, hroute, -⟩ := hsound
  rw [hroute.keys_eq]
  exact at_fill hroute.stop_spine (inl ⟨rfl, rfl, rfl⟩)

theorem mem_addrs_of_walk {rest : List κ} {K' : Ctx δ}
    (h : walk key stop ks K g = .hit rest K' b e ch pe) : b ∈ g.addrs := by
  induction g generalizing ks K with
  | nil =>
    cases ks with
    | nil | cons k ks => cases h
  | cons a d ch' pe' ihc ihp =>
    simp only [Forest.addrs, mem_cons, mem_append]
    cases ks with
    | nil => cases h
    | cons k ks =>
      unfold walk at h
      split at h
      · cases h
      · split at h
        · exact inr (inr (ihp h))
        · split at h
          · injection h with _ _ hb
            exact inl hb.symm
          · exact inr (inl (ihc h))

variable {a : Addr} {d : δ} {ch pe : Forest δ}

theorem mem_child_of_at {k : κ} (hs : (K.fill (.cons a d ch pe)).Sorted key)
    (h : (K.fill (.cons a d ch pe)).At key stop b e (K.keys key ++ key d :: k :: ks)) :
    b ∈ ch.addrs := by
  obtain ⟨K', ch', pe', -, hw⟩ := walk_of_at hs h.weaken
  have hroute : Route key (fun _ => false) (K.keys key ++ key d :: k :: ks) K (key d :: k :: ks) :=
    route_of_sorted hs rfl (le_refl _) fun _ _ => rfl
  have hdown : ¬(k :: ks = [] ∨ false = true) := by simp
  rw [walk_eq_of_route hroute, walk, if_neg (lt_irrefl _), if_neg (lt_irrefl _),
    if_neg hdown] at hw
  exact mem_addrs_of_walk hw

theorem not_at_unlinked (hs : (K.fill (.cons a d ch pe)).Sorted key) :
    ¬(K.fill pe).At key stop b e (K.keys key ++ key d :: ks) := by
  intro h
  obtain ⟨K', ch', pe', -, hw⟩ := walk_of_at (sorted_unlink hs) h.weaken
  have hroute : Route key (fun _ => false) (K.keys key ++ key d :: ks) K (key d :: ks) :=
    route_of_sorted hs rfl (le_refl _) fun _ _ => rfl
  have hbeyond : Beyond key (key d :: ks) pe := by
    cases pe with
    | nil => trivial
    | cons c x cc cp =>
      exact ⟨key d, ks, rfl, (sorted_fill.mp hs).2.1 (key x) mem_cons_self⟩
  rw [walk_eq_miss hroute hbeyond] at hw
  cases hw

end

/-! ## In a heap -/

theorem Rep.parent_of_at {h : Heap δ} {up : Option Addr} (hf : Rep h up f)
    (hat : f.At key stop b e ks) :
    ∃ c, h.read b = some c ∧
      (c.parent = up ∧ ks.length = 1 ∨
        2 ≤ ks.length ∧ ∃ p cp, c.parent = some p ∧ h.read p = some cp ∧ cp.child ≠ none) := by
  induction f generalizing up ks with
  | nil => cases hat
  | cons a d ch pe ihc ihp =>
    obtain ⟨hr, hc, hp⟩ := hf
    rcases hat with ⟨rfl, rfl, -⟩ | ⟨-, t, rfl, hat⟩ | hat
    · exact ⟨_, hr, inl ⟨rfl, rfl⟩⟩
    · obtain ⟨c, hrb, hcase⟩ := ihc hc hat
      have hch : ch.head ≠ none := by
        cases ch with
        | nil => cases hat
        | cons b' e' ch' pe' => exact Option.some_ne_none b'
      refine ⟨c, hrb, inr ?_⟩
      rcases hcase with ⟨hparent, hlen⟩ | ⟨hlen, hparent⟩
      · exact ⟨by simp [hlen], a, _, hparent, hr, hch⟩
      · exact ⟨by simp; omega, hparent⟩
    · exact ihp hp hat

end Gpmx.Infra
