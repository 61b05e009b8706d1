import Gpmx.Infra.TreePaths

/-!
# The children of one node

The nodes of a list of siblings (`Forest.Top`), as they are found by their path
(`top_iff_at`), and what the pointer to the right leads to when they are sorted
(`Rep.peer_of_top`): the node with the next key, or nothing if there is none.
-/

namespace Gpmx.Infra

open List

variable {δ κ : Type}

/-- The node `b` holds `e` and is one of the siblings. -/
def Forest.Top (b : Addr) (e : δ) : Forest δ → Prop
  | .nil => False
  | .cons a d _ peer => (a = b ∧ d = e) ∨ peer.Top b e

variable {key : δ → κ} {stop : δ → Bool} {a b c : Addr} {d e x : δ} {ks ks' : List κ} {K : Ctx δ}
  {f g ch pe : Forest δ} {h : Heap δ} {up : Option Addr}

theorem Forest.Top.key_mem (ht : g.Top b e) : key e ∈ g.level key := by
  induction g with
  | nil => cases ht
  | cons a d ch pe _ ihp =>
    rcases ht with ⟨-, rfl⟩ | ht
    · exact mem_cons_self
    · exact mem_cons_of_mem _ (ihp ht)

/-! ## Siblings and paths -/

theorem not_at_nil : ¬g.At key stop b e [] := by
  induction g with
  | nil => exact id
  | cons a d ch pe _ ihp =>
    rintro (⟨h, -⟩ | ⟨-, t, h, -⟩ | h)
    · cases h
    · cases h
    · exact ihp h

theorem top_iff_at_singleton {k : κ} : g.At key stop b e [k] ↔ g.Top b e ∧ key e = k := by
  induction g with
  | nil => exact ⟨False.elim, fun h => h.1⟩
  | cons a d ch pe _ ihp =>
    constructor
    · rintro (⟨hk, rfl, rfl⟩ | ⟨-, t, hk, h⟩ | h)
      · exact ⟨Or.inl ⟨rfl, rfl⟩, (List.cons.inj hk).1.symm⟩
      · rw [← (List.cons.inj hk).2] at h
        exact absurd h not_at_nil
      · exact ⟨Or.inr (ihp.mp h).1, (ihp.mp h).2⟩
    · rintro ⟨⟨rfl, rfl⟩ | h, rfl⟩
      · exact Or.inl ⟨rfl, rfl, rfl⟩
      · exact Or.inr (Or.inr (ihp.mpr ⟨h, rfl⟩))

theorem at_unique (hnd : f.addrs.Nodup) (hat : f.At key stop b d ks) (hat' : f.At key stop b e ks') :
    ks = ks' ∧ d = e := by
  have hks := at_path_unique hnd hat hat'
  subst hks
  refine ⟨rfl, ?_⟩
  obtain ⟨K, ch, pe, rfl, -, -⟩ := hat.occurs
  have hout := (K.addrs_fill _).nodup_iff.mp hnd
  rcases at_fill_cases .nil hat' with hnil | ⟨-, t, -, ⟨-, -, rfl⟩ | ⟨-, t', -, hch⟩ | hpe⟩
  · -- outside the hole there is no `b`
    have hmem := hnil.mem_addrs
    rw [Ctx.mem_addrs_fill] at hmem
    have hK := hmem.resolve_right not_mem_nil
    exact absurd rfl ((nodup_append.mp hout).2.2 b hK b mem_cons_self)
  · rfl
  · have hcons := (nodup_append.mp hout).2.1
    exact absurd (mem_append_left _ hch.mem_addrs) (nodup_cons.mp hcons).1
  · have hcons := (nodup_append.mp hout).2.1
    exact absurd (mem_append_right _ hpe.mem_addrs) (nodup_cons.mp hcons).1

theorem Forest.At.mapAt {φ : Addr → δ → δ} (hkey : ∀ c x, key (φ c x) = key x)
    (hstop : ∀ c x, stop (φ c x) = stop x) (hat : f.At key stop b e ks) :
    (f.mapAt φ).At key stop b (φ b e) ks := by
  induction f generalizing ks with
  | nil => cases hat
  | cons a d ch pe ihc ihp =>
    rcases hat with ⟨rfl, rfl, rfl⟩ | ⟨hd, t, rfl, hat⟩ | hat
    · exact Or.inl ⟨by rw [hkey], rfl, rfl⟩
    · exact Or.inr (Or.inl ⟨by rw [hstop]; exact hd, t, by rw [hkey], ihc hat⟩)
    · exact Or.inr (Or.inr (ihp hat))

section

variable [LinearOrder κ]

theorem top_iff_at (hnd : (K.fill (.cons a d ch pe)).addrs.Nodup)
    (hs : (K.fill (.cons a d ch pe)).Sorted key) :
    ch.Top b e ↔
      (K.fill (.cons a d ch pe)).At key (fun _ => false) b e (K.keys key ++ [key d] ++ [key e]) := by
  rw [append_assoc]
  constructor
  · intro ht
    refine at_fill (fun _ _ => rfl) (Or.inr (Or.inl ⟨rfl, [key e], rfl, ?_⟩))
    exact top_iff_at_singleton.mpr ⟨ht, rfl⟩
  · intro hat
    obtain ⟨x, t, hx⟩ := @exists_at_of_mem _ _ key _ _ (mem_child_of_at hs hat)
    have hlong : (K.fill (.cons a d ch pe)).At key (fun _ => false) b x (K.keys key ++ key d :: t) :=
      at_fill (fun _ _ => rfl) (Or.inr (Or.inl ⟨rfl, t, rfl, hx⟩))
    obtain ⟨hks, rfl⟩ := at_unique hnd hat hlong
    have ht : t = [key e] := by
      have := append_cancel_left hks
      exact (List.cons.inj this).2.symm
    rw [ht] at hx
    exact (top_iff_at_singleton.mp hx).1

/-! ## The pointer to the right -/

def LeadsRight (key : δ → κ) (g : Forest δ) (e : δ) : Option Addr → Prop
  | none => ∀ b x, g.Top b x → ¬key e < key x
  | some q => ∃ y, g.Top q y ∧ key e < key y ∧
      ∀ b x, g.Top b x → key e < key x → key y ≤ key x

theorem Forest.Top.unique (hs : g.Sorted key) (hb : g.Top b e) (hc : g.Top c x)
    (hkey : key e = key x) : b = c ∧ e = x := by
  induction g with
  | nil => cases hb
  | cons a d ch pe _ ihp =>
    obtain ⟨hlt, -, hps⟩ := hs
    rcases hb with ⟨rfl, rfl⟩ | hb
    · rcases hc with ⟨rfl, rfl⟩ | hc
      · exact ⟨rfl, rfl⟩
      · exact absurd hkey (ne_of_lt (hlt _ hc.key_mem))
    · rcases hc with ⟨rfl, rfl⟩ | hc
      · exact absurd hkey.symm (ne_of_lt (hlt _ hb.key_mem))
      · exact ihp hps hb hc

theorem leadsRight_head (hs : g.Sorted key) (hlt : ∀ k ∈ g.level key, key e < k) :
    LeadsRight key g e g.head := by
  cases g with
  | nil => exact fun b x hx => absurd hx id
  | cons a d ch pe =>
    refine ⟨d, Or.inl ⟨rfl, rfl⟩, hlt _ mem_cons_self, ?_⟩
    rintro b x (⟨-, rfl⟩ | hx) -
    · exact le_refl _
    · exact le_of_lt (hs.1 _ hx.key_mem)

theorem Rep.peer_of_top (hg : Rep h up g) (hs : g.Sorted key) (ht : g.Top b e) :
    ∃ cell, h.read b = some cell ∧ cell.data = e ∧ LeadsRight key g e cell.peer := by
  induction g with
  | nil => cases ht
  | cons a d ch pe _ ihp =>
    obtain ⟨hr, -, hp⟩ := hg
    obtain ⟨hlt, -, hps⟩ := hs
    rcases ht with ⟨rfl, rfl⟩ | ht
    · refine ⟨_, hr, rfl, ?_⟩
      have hright := leadsRight_head (e := d) hps hlt
      show LeadsRight key _ d pe.head
      cases hhead : pe.head with
      | none =>
        rw [hhead] at hright
        rintro c x (⟨-, rfl⟩ | hx)
        · exact lt_irrefl _
        · exact hright c x hx
      | some q =>
        rw [hhead] at hright
        obtain ⟨y, hy, hey, hmin⟩ := hright
        refine ⟨y, Or.inr hy, hey, ?_⟩
        rintro c x (⟨-, rfl⟩ | hx) hdx
        · exact absurd hdx (lt_irrefl _)
        · exact hmin c x hx hdx
    · obtain ⟨cell, hcell, hdata, hright⟩ := ihp hp hps ht
      have hde : key d < key e := hlt _ ht.key_mem
      refine ⟨cell, hcell, hdata, ?_⟩
      cases hpeer : cell.peer with
      | none =>
        rw [hpeer] at hright
        rintro c x (⟨-, rfl⟩ | hx)
        · exact lt_asymm hde
        · exact hright c x hx
      | some q =>
        rw [hpeer] at hright
        obtain ⟨y, hy, hey, hmin⟩ := hright
        refine ⟨y, Or.inr hy, hey, ?_⟩
        rintro c x (⟨-, rfl⟩ | hx) hdx
        · exact absurd hdx (lt_asymm hde)
        · exact hmin c x hx hdx

end

end Gpmx.Infra
