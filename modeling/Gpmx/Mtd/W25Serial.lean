import Gpmx.Mtd.W25Bus

/-!
# W25: when block calls are serial

A call that gives up the lock is in `w25_cacheflush`, with the address of the sector that was in the cache
then. As long as the cache stays that of this sector until the call has the lock again, it does not matter
who flushes it, and what a call has put into the cache counts as done: the rest of the call is in other
sectors.
-/

namespace Gpmx.Mtd.W25

open Infra Function Option List

variable {T : Type} [DecidableEq T] {s s' : Sys T} {t : T} {dev : Dev} {mem : Bool}
  {chip m : Memory UInt8} {point : Point} {l : List Block}

/-! ## What holds where calls wait -/

/-- A call waits at a point; `mine` says that it has the lock. -/
def At (dev : Dev) (mine : Prop) : Point → List Block → Prop
  | .flush address page, _ => address = dev.esectno * 4096 ∧ page < 16 ∧ dev.valid = true ∧
      (page ≠ 0 → mine ∧ dev.prevInstr = .pp)
  | .load, _ :: _ => mine ∧ dev.erased = false
  | .check page, b :: _ => mine ∧ dev.erased = false ∧ dev.valid = true ∧ b.1 / 8 = dev.esectno ∧
      page < 16 ∧ ∀ i, i / 4096 = dev.esectno → i % 4096 < page * 256 → dev.chip i = erasedState
  | .erase, b :: _ => mine ∧ dev.erased = false ∧ dev.valid = true ∧ b.1 / 8 = dev.esectno
  | _, [] => False

theorem At.mono {mine mine' : Prop} (h : At dev mine point l) (hm : mine → mine') :
    At dev mine' point l := by
  cases point with
  | flush address page => exact ⟨h.1, h.2.1, h.2.2.1, fun hp => ⟨hm (h.2.2.2 hp).1, (h.2.2.2 hp).2⟩⟩
  | load | check | erase =>
    cases l with
    | nil => exact h
    | cons b l => exact ⟨hm h.1, h.2⟩

theorem At.suspended {mine : Prop} (h : At dev mine point l) (hm : ¬mine) :
    point = .flush (dev.esectno * 4096) 0 ∧ dev.valid = true := by
  cases point with
  | flush address page =>
    obtain ⟨rfl, -, hv, hp⟩ := h
    have hpage : page = 0 := by
      by_contra hne
      exact hm (hp hne).1
    exact ⟨by rw [hpage], hv⟩
  | load | check | erase =>
    cases l with
    | nil => exact h.elim
    | cons b l => exact absurd h.1 hm

def pagesOf : Option (Point × List Block) → Nat
  | some (.flush _ page, _) => page
  | _ => 0

def Sys.pages (s : Sys T) : Nat := pagesOf (s.lock.bind s.pc)

def Sys.pending (s : Sys T) (t : T) : Option (List Block) := (s.pc t).map (·.2)

/-- What is left of the calls leads from `m` to where a serial order leads; what the calls that have begun
have left meets `Q`. -/
def Recorded (chip m : Memory UInt8) (calls : List (T × BlockCall)) (pending : T → Option (List Block))
    (Q : T → List Block → Prop) : Prop :=
  ∃ begun order, Ledger BlockCall.blocks writeBlock chip m calls pending begun order ∧
    ∀ u ∈ begun, ∀ l, pending u = some l → Q u l

def Outside (dev : Dev) (l : List Block) : Prop := ∀ b ∈ l, b.1 / 8 ≠ dev.esectno

structure Inv (chip : Memory UInt8) (s : Sys T) : Prop where
  kept : Kept s.dev s.pages
  at_ : ∀ t point l, s.pc t = some (point, l) → At s.dev (s.lock = some t) point l ∧ Sorted l
  flushing : s.dev.erased = true → ∃ t, s.pc t ≠ none
  recorded : Recorded chip (content s.dev) s.calls s.pending fun u l =>
    ∀ address page, s.pc u = some (.flush address page, l) → Outside s.dev l

theorem inv_initial (chip sector : Memory UInt8) : Inv chip (Sys.initial chip sector : Sys T) where
  kept := ⟨rfl, nofun, nofun, nofun⟩
  at_ := nofun
  flushing := nofun
  recorded := by
    have hclean : Clean (w25Initialize chip sector) := ⟨rfl, rfl⟩
    refine ⟨[], [], ?_, nofun⟩
    show @Ledger T _ _ _ _ _ _ chip (content (w25Initialize chip sector)) [] _ [] []
    rw [hclean.content]
    exact ledger_nil chip

/-- All calls but that of `t` are suspended, in the flush of the sector that `dev` has in the cache. -/
def Suspended (s : Sys T) (t : T) (dev : Dev) : Prop := ∀ u, u ≠ t → ∀ point l,
  s.pc u = some (point, l) → (point = .flush (dev.esectno * 4096) 0 ∧ dev.valid = true) ∧ Sorted l

theorem Inv.suspended (h : Inv chip s) (hl : s.lock = none ∨ s.lock = some t) :
    Suspended s t s.dev := by
  intro u hu point l hpc
  obtain ⟨hat, hsorted⟩ := h.at_ u point l hpc
  refine ⟨hat.suspended fun hlock => ?_, hsorted⟩
  rcases hl with hl | hl
  · exact nomatch hl.symm.trans hlock
  · exact hu (some.inj (hlock.symm.trans hl))

theorem pending_leave (s : Sys T) (t : T) (r : Dev × Option (Point × List Block)) :
    (s.leave t r).pending = update s.pending t (r.2.map (·.2)) := by
  funext u
  by_cases hu : u = t
  · subst hu; simp [Sys.pending, Sys.leave]
  · simp [Sys.pending, Sys.leave, hu]

/-- **The thread with the lock is at its next wait, or done.** -/
theorem leave_keeps {r : Dev × Option (Point × List Block)} (hkept : Kept r.1 (pagesOf r.2))
    (hothers : Suspended s t r.1)
    (hat : ∀ point l, r.2 = some (point, l) → At r.1 True point l ∧ Sorted l)
    (hend : r.2 = none → r.1.erased = false)
    (hrec : Recorded chip (content r.1) s.calls (update s.pending t (r.2.map (·.2)))
      fun u l => (u ≠ t → Outside r.1 l) ∧
        (u = t → ∀ address page, r.2 = some (.flush address page, l) → Outside r.1 l)) :
    Inv chip (s.leave t r) := by
  have hpc : (s.leave t r).pc t = r.2 := update_self ..
  have hne : ∀ {u}, u ≠ t → (s.leave t r).pc u = s.pc u := fun hu => update_of_ne hu _ _
  refine ⟨?_, fun u point l hu => ?_, fun he => ?_, ?_⟩
  · have hpages : (s.leave t r).pages = pagesOf r.2 := by
      unfold Sys.pages
      cases hr : r.2 with
      | none | some p => simp [Sys.leave, hr]
    rw [hpages]
    exact hkept
  · by_cases hut : u = t
    · subst hut
      rw [hpc] at hu
      obtain ⟨hat, hsorted⟩ := hat point l hu
      exact ⟨hat.mono fun _ => by simp [Sys.leave, hu], hsorted⟩
    · rw [hne hut] at hu
      obtain ⟨⟨rfl, hv⟩, hsorted⟩ := hothers u hut point l hu
      exact ⟨⟨rfl, by decide, hv, fun h => absurd rfl h⟩, hsorted⟩
  · refine ⟨t, fun hnone => ?_⟩
    rw [hpc] at hnone
    exact nomatch he.symm.trans (hend hnone)
  · obtain ⟨begun, order, hled, hq⟩ := hrec
    rw [pending_leave]
    refine ⟨begun, order, hled, fun u hu l hl address page hflush => ?_⟩
    by_cases hut : u = t
    · rw [hut, hpc] at hflush
      exact (hq u hu l hl).2 hut address page hflush
    · exact (hq u hu l hl).1 hut

/-! ## The loop over the blocks -/

/-- Thread `t` is at the head of the loop with the device `dev`, the lock and the blocks `l`. -/
structure Running (chip : Memory UInt8) (s : Sys T) (t : T) (dev : Dev) (l : List Block) : Prop where
  kept : Kept dev 0
  others : Suspended s t dev
  sorted : Sorted l
  recorded : Recorded chip (content dev) s.calls (update s.pending t (some l))
    fun u l => (u ≠ t → Outside dev l) ∧ (u = t → ∀ b ∈ l, dev.esectno ≤ b.1 / 8)

variable {calls : List (T × BlockCall)} {pending : T → Option (List Block)}
    {Q Q' : T → List Block → Prop} {page : Nat}

section

variable (h : Recorded chip m calls pending Q)
include h

theorem Recorded.perform {xs ys : List Block} (ht : pending t = some (xs ++ ys)) (hxs : ∀ b ∈ xs, b.1 / 8 = dev.esectno)
    (hq : ∀ u l, u ≠ t → Q u l → Outside dev l) (hq' : ∀ u l, u ≠ t → Q u l → Q' u l)
    (hys : Q' t ys) :
    Recorded chip (xs.foldl writeBlock m) calls (update pending t (some ys)) Q' := by
  obtain ⟨begun, order, hled, hopen⟩ := h
  obtain ⟨order', hled'⟩ := hled.perform ht fun u hu hne us hus x hx y hy m => by
    have hy := hq u us hne (hopen u hu us hus) y hy
    exact writeBlock_comm m fun hxy => hy (hxy ▸ hxs x hx)
  refine ⟨_, order', hled', fun u hu l hl => ?_⟩
  by_cases hut : u = t
  · rw [hut, update_self] at hl
    rw [hut, ← some.inj hl]
    exact hys
  · rw [update_of_ne hut] at hl
    have hu : u ∈ begun := by
      split_ifs at hu with hmem
      · exact hu
      · exact (mem_append.mp hu).resolve_right fun h => hut (mem_singleton.mp h)
    exact hq' u l hut (hopen u hu l hl)

theorem Recorded.mono (hq : ∀ u l, pending u = some l → Q u l → Q' u l) : Recorded chip m calls pending Q' := by
  obtain ⟨begun, order, hled, hopen⟩ := h
  exact ⟨begun, order, hled, fun u hu l hl => hq u l hl (hopen u hu l hl)⟩

theorem Recorded.finish (ht : pending t = some []) (hq : ∀ u l, u ≠ t → Q u l → Q' u l) :
    Recorded chip m calls (update pending t none) Q' := by
  obtain ⟨begun, order, hled, hopen⟩ := h
  obtain ⟨order', hled'⟩ := hled.finish ht
  refine ⟨_, order', hled', fun u hu l hl => ?_⟩
  have hut : u ≠ t := by rintro rfl; simp at hl
  rw [update_of_ne hut] at hl
  exact hq u l hut (hopen u (mem_of_mem_erase hu) l hl)

end

theorem Running.recorded_ahead (h : Running chip s t dev l) (ha : Ahead dev dev.esectno) :
    Recorded chip (content (setBlocks dev (l.takeWhile (·.1 / 8 = dev.esectno)))) s.calls
      (update s.pending t (some (l.dropWhile (·.1 / 8 = dev.esectno))))
      fun _ l => Outside dev l := by
  obtain ⟨-, -, hcontent⟩ := setBlocks_keeps h.kept ha div_of_mem_takeWhile
  rw [hcontent]
  by_cases hnone : l.takeWhile (·.1 / 8 = dev.esectno) = []
  · -- the call may not have begun, and does not begin now
    have hdrop : l.dropWhile (·.1 / 8 = dev.esectno) = l := by
      have happ := takeWhile_append_dropWhile (p := (·.1 / 8 = dev.esectno)) (l := l)
      rwa [hnone] at happ
    rw [hnone, hdrop]
    refine h.recorded.mono fun u l' hl hq => ?_
    by_cases hut : u = t
    · rw [hut, update_self] at hl
      rw [← some.inj hl, Outside, ← hdrop]
      exact ne_of_mem_dropWhile h.sorted fun b hb => hq.2 hut b (some.inj hl ▸ hb)
    · exact hq.1 hut
  · have hge : ∀ b ∈ l, dev.esectno ≤ b.1 / 8 := by
      cases l with
      | nil => exact nofun
      | cons c l =>
        have hc : c.1 / 8 = dev.esectno := by
          by_contra hne
          exact hnone (takeWhile_cons_of_neg (by simpa using hne))
        intro b hb
        rcases mem_cons.mp hb with rfl | hb
        · exact Nat.le_of_eq hc.symm
        · exact hc ▸ (pairwise_cons.mp h.sorted).1 b hb
    have hsplit : update s.pending t (some l) t = some
        (l.takeWhile (·.1 / 8 = dev.esectno) ++ l.dropWhile (·.1 / 8 = dev.esectno)) := by
      rw [update_self, takeWhile_append_dropWhile]
    have hidem := @update_idem T _ (fun _ => Option (List Block)) t (some l)
      (some (l.dropWhile (·.1 / 8 = dev.esectno))) s.pending
    rw [← hidem]
    exact h.recorded.perform hsplit div_of_mem_takeWhile (fun u l hut hq => hq.1 hut)
      (fun u l hut hq => hq.1 hut) (ne_of_mem_dropWhile h.sorted hge)

/-- **From the head of the loop to the next wait.** -/
theorem proceed_keeps (h : Running chip s t dev l) : Inv chip (s.leave t (proceed mem dev l)) := by
  by_cases he : dev.erased = true
  · have ha : Ahead dev dev.esectno := ⟨h.kept.valid he, h.kept.dirty_eq.trans he, he, rfl⟩
    obtain ⟨hkept, ha', -⟩ := setBlocks_keeps h.kept ha div_of_mem_takeWhile
    have hrec := h.recorded_ahead ha
    have hout : ∀ l', Outside dev l' → Outside (setBlocks dev (l.takeWhile (·.1 / 8 = dev.esectno))) l' :=
      fun l' h b hb => by rw [ha'.esectno]; exact h b hb
    rw [proceed_ahead ha]
    refine leave_keeps hkept (fun u hut point l' hu => ?_) ?_ nofun ?_
    · obtain ⟨⟨rfl, -⟩, hsorted⟩ := h.others u hut point l' hu
      exact ⟨⟨by rw [ha'.esectno], ha'.valid⟩, hsorted⟩
    · rintro point l' ⟨⟩
      refine ⟨⟨by rw [ha'.esectno], by decide, ha'.valid, fun h => absurd rfl h⟩, ?_⟩
      exact List.Pairwise.sublist (dropWhile_sublist _) h.sorted
    · exact hrec.mono fun u l' _ hq => ⟨fun _ => hout l' hq, fun _ _ _ _ => hout l' hq⟩
  · have he : dev.erased = false := by simpa using he
    have hclean : ¬(dev.dirty ∨ dev.erased) := by simp [h.kept.dirty_eq, he]
    -- the blocks stay as they are
    have hstay : ∀ point, (∀ address page, point ≠ .flush address page) → At dev True point l →
        pagesOf (some (point, l)) = 0 → Inv chip (s.leave t (dev, some (point, l))) := by
      intro point hpoint hat hpages
      refine leave_keeps (hpages ▸ h.kept) h.others ?_ nofun ?_
      · rintro _ _ ⟨⟩
        exact ⟨hat, h.sorted⟩
      · refine h.recorded.mono fun u l' _ hq => ⟨hq.1, fun _ address page hflush => ?_⟩
        exact absurd (congrArg Prod.fst (some.inj hflush)) (hpoint address page)
    cases l with
    | nil =>
      unfold proceed
      rw [if_neg hclean]
      refine leave_keeps h.kept h.others (fun _ _ hp => by cases hp) (fun _ => he) ?_
      have hidem := @update_idem T _ (fun _ => Option (List Block)) t (some []) none s.pending
      show Recorded chip (content dev) s.calls (update s.pending t none) _
      rw [← hidem]
      exact h.recorded.finish (update_self ..) fun u l' hut hq =>
        ⟨fun _ => hq.1 hut, fun hu => absurd hu hut⟩
    | cons b l =>
      unfold proceed
      by_cases hmiss : dev.valid = false ∨ b.1 / 8 ≠ dev.esectno
      · rw [if_pos hmiss, if_neg hclean]
        exact hstay .load (by simp) ⟨trivial, he⟩ rfl
      · rw [if_neg hmiss, if_neg (by simp [he])]
        obtain ⟨hv, hs⟩ : dev.valid = true ∧ b.1 / 8 = dev.esectno := by simpa using hmiss
        cases mem with
        | true =>
          exact hstay (.check 0) (by simp) ⟨trivial, he, hv, hs, by decide, fun i _ h => by omega⟩ rfl
        | false => exact hstay .erase (by simp) ⟨trivial, he, hv, hs⟩ rfl

/-! ## From a wait that is over -/

theorem Inv.stay (h : Inv chip s) (hl : s.lock = some t) (hpc : s.pc t = some (point, l)) {d : Dev}
    {point' : Point} (hk : Kept d (pagesOf (some (point', l)))) (hat : At d True point' l)
    (hsame : content d = content s.dev ∧ d.esectno = s.dev.esectno ∧ d.valid = s.dev.valid)
    (hflush : ∀ address page, point' = .flush address page →
      ∃ address page, point = .flush address page) :
    Inv chip (s.leave t (d, some (point', l))) := by
  obtain ⟨hcontent, hesect, hvalid⟩ := hsame
  have hpending : s.pending t = some l := by simp [Sys.pending, hpc]
  refine leave_keeps hk (fun u hut point l' hu => ?_) ?_ nofun ?_
  · obtain ⟨⟨rfl, hv⟩, hsorted⟩ := h.suspended (.inr hl) u hut point l' hu
    exact ⟨⟨by rw [hesect], hvalid.trans hv⟩, hsorted⟩
  · rintro _ _ ⟨⟩
    exact ⟨hat, (h.at_ t point l hpc).2⟩
  · have hupdate : update s.pending t (some l) = s.pending := by
      rw [← hpending]
      exact update_eq_self t s.pending
    show Recorded chip (content d) s.calls (update s.pending t (some l)) _
    rw [hupdate, hcontent]
    refine h.recorded.mono fun u l' hl' hq => ⟨fun hut => ?_, fun hut address page hto => ?_⟩
    · obtain ⟨⟨point, l''⟩, hu, rfl⟩ := map_eq_some_iff.mp hl'
      obtain ⟨⟨rfl, -⟩, -⟩ := h.suspended (.inr hl) u hut point l'' hu
      rw [Outside, hesect]
      exact hq _ _ hu
    · obtain ⟨hto, rfl⟩ := Prod.ext_iff.mp (some.inj hto)
      obtain ⟨address', page', rfl⟩ := hflush _ _ hto
      rw [Outside, hesect]
      exact hq _ _ (hut ▸ hpc)

theorem Inv.outside (h : Inv chip s) (hl : s.lock = none ∨ s.lock = some t) :
    Recorded chip (content s.dev) s.calls s.pending fun u l => u ≠ t → Outside s.dev l := by
  refine h.recorded.mono fun u l hu hq hut => ?_
  obtain ⟨⟨point, l'⟩, hpc, rfl⟩ := map_eq_some_iff.mp hu
  obtain ⟨⟨rfl, -⟩, -⟩ := h.suspended hl u hut point l' hpc
  exact hq _ _ hpc

/-- **The first block goes into the cache** once the sector is erased. -/
theorem Inv.set_block (h : Inv chip s) (hl : s.lock = some t) {b : Block}
    (hpc : s.pc t = some (point, b :: l)) {d : Dev} (hv : d.valid = true) (hs : b.1 / 8 = d.esectno)
    (herased : ∀ i, i / 4096 = d.esectno → d.chip i = erasedState)
    (hsame : overlay d = content s.dev ∧ d.esectno = s.dev.esectno) :
    Running chip s t (setBlock d b.1 b.2) l := by
  obtain ⟨hkept, hcontent⟩ := setBlock_keeps b.2 hv hs herased
  have hpending : s.pending t = some ([b] ++ l) := by simp [Sys.pending, hpc]
  obtain ⟨hb, hsorted⟩ := pairwise_cons.mp (h.at_ t point (b :: l) hpc).2
  refine ⟨hkept, fun u hut point l' hu => ?_, hsorted, ?_⟩
  · obtain ⟨⟨rfl, -⟩, hsorted'⟩ := h.suspended (.inr hl) u hut point l' hu
    exact ⟨⟨by rw [← hsame.2]; rfl, hv⟩, hsorted'⟩
  · rw [hcontent, hsame.1]
    refine (h.outside (.inr hl)).perform hpending (fun c hc => ?_) (fun u l' hut hq => hq hut)
      (fun u l' hut hq => ⟨fun _ c hc => ?_, fun hu => absurd hu hut⟩)
      ⟨fun hne => absurd rfl hne, fun _ c hc => ?_⟩
    · rw [mem_singleton.mp hc, hs]
      exact hsame.2
    · show c.1 / 8 ≠ d.esectno
      rw [hsame.2]
      exact hq hut c hc
    · exact Nat.le_trans (Nat.le_of_eq hs.symm) (hb c hc)

theorem flush_keeps {address : Nat} (h : Inv chip s) (hl : s.lock = some t)
    (hpc : s.pc t = some (.flush address page, l)) :
    Inv chip (s.leave t (goOn mem s.dev (.flush address page) l)) := by
  obtain ⟨⟨rfl, hpage, hv, -⟩, -⟩ := h.at_ t _ l hpc
  have hkept : Kept s.dev page := by
    have hpages : s.pages = page := by simp [Sys.pages, hl, hpc, pagesOf]
    exact hpages ▸ h.kept
  obtain ⟨hkept', hcontent⟩ := sendPage_keeps hkept hv hpage
  unfold goOn
  dsimp only
  split_ifs with hlast
  · exact h.stay hl hpc hkept' ⟨rfl, hlast, hv, fun _ => ⟨trivial, rfl⟩⟩ ⟨hcontent, rfl, rfl⟩
      fun _ _ _ => ⟨_, _, rfl⟩
  · have hpage : page + 1 = 16 := by omega
    rw [hpage] at hkept'
    obtain ⟨hclean, hcontent'⟩ := flushed_keeps hkept' hv rfl
    cases l with
    | nil =>
      refine leave_keeps hclean (h.suspended (.inr hl)) nofun (fun _ => rfl) ?_
      rw [hcontent', hcontent]
      have hpending : s.pending t = some [] := by simp [Sys.pending, hpc]
      exact (h.outside (.inr hl)).finish hpending fun u l' hut hq =>
        ⟨fun _ => hq hut, fun hu => absurd hu hut⟩
    | cons b l =>
      exact h.stay hl hpc hclean ⟨trivial, rfl⟩ ⟨hcontent'.trans hcontent, rfl, rfl⟩ nofun

/-- **Another sector is put into the cache**, while no other call is suspended. -/
theorem load_keeps (h : Inv chip s) (hpc : s.pc t = some (.load, l))
    (halone : ∀ u, u ≠ t → s.pc u = none) : Inv chip (s.leave t (goOn mem s.dev .load l)) := by
  obtain ⟨hat, hsorted⟩ := h.at_ t _ l hpc
  cases l with
  | nil => exact hat.elim
  | cons b l =>
    have hclean : Clean s.dev := ⟨h.kept.dirty_eq.trans hat.2, hat.2⟩
    have hload : content (cacheload s.dev (b.1 / 8)) = content s.dev := by
      have hclean' : Clean (cacheload s.dev (b.1 / 8)) := ⟨rfl, rfl⟩
      rw [hclean.content, hclean'.content]
      rfl
    have hpending : s.pending t = some (b :: l) := by simp [Sys.pending, hpc]
    have hupdate : update s.pending t (some (b :: l)) = s.pending := by
      rw [← hpending]
      exact update_eq_self t s.pending
    refine proceed_keeps ⟨⟨rfl, nofun, fun _ i hi => ?_, nofun⟩, fun u hut point l' hu => ?_, hsorted, ?_⟩
    · have hi : i / 4096 = b.1 / 8 := hi
      rw [if_pos (.inl rfl), cacheload_sector (by omega)]
      exact congrArg s.dev.chip (by omega)
    · exact nomatch (halone u hut).symm.trans hu
    · rw [hload, hupdate]
      refine h.recorded.mono fun u l' hu _ => ⟨fun hut => ?_, fun hut c hc => ?_⟩
      · simp [Sys.pending, halone u hut] at hu
      · rw [hut, hpending] at hu
        rcases mem_cons.mp (some.inj hu ▸ hc) with rfl | hc
        · exact Nat.le_refl _
        · exact (pairwise_cons.mp hsorted).1 c hc

theorem erased_page {sector : Nat} (hs : sector / 8 = dev.esectno)
    (hpages : ∀ i, i / 4096 = dev.esectno → i % 4096 < page * 256 → dev.chip i = erasedState)
    (hpage : ∀ i < 256, dev.chip (sector / 8 * 4096 + page * 256 + i) = erasedState) :
    ∀ i, i / 4096 = dev.esectno → i % 4096 < (page + 1) * 256 → dev.chip i = erasedState := by
  intro i hi hlt
  by_cases hbefore : i % 4096 < page * 256
  · exact hpages i hi hbefore
  · have hread := hpage (i % 4096 - page * 256) (by omega)
    have haddress : sector / 8 * 4096 + page * 256 + (i % 4096 - page * 256) = i := by omega
    rwa [haddress] at hread

theorem check_keeps (h : Inv chip s) (hl : s.lock = some t) (hpc : s.pc t = some (.check page, l)) :
    Inv chip (s.leave t (goOn mem s.dev (.check page) l)) := by
  obtain ⟨hat, -⟩ := h.at_ t _ l hpc
  cases l with
  | nil => exact hat.elim
  | cons b l =>
    obtain ⟨-, he, hv, hs, hpage, hpages⟩ := hat
    have hkept : Kept s.dev 0 := by
      have hpages : s.pages = 0 := by simp [Sys.pages, hl, hpc, pagesOf]
      exact hpages ▸ h.kept
    have hread : Kept (byteread s.dev (b.1 / 8 * 4096 + page * 256)).1 0 :=
      ⟨hkept.dirty_eq, hkept.valid, hkept.chip, nofun⟩
    unfold goOn
    dsimp only
    split_ifs with hff hlast
    · have hnext := erased_page hs hpages hff
      exact h.stay hl hpc hread ⟨trivial, he, hv, hs, hlast, hnext⟩ ⟨rfl, rfl, rfl⟩ nofun
    · have hnext := erased_page hs hpages hff
      refine proceed_keeps (h.set_block hl hpc hv hs (fun i hi => ?_) ⟨?_, rfl⟩)
      · exact hnext i hi (by omega)
      · rw [← h.kept.overlay hv]
        rfl
    · exact h.stay hl hpc hread ⟨trivial, he, hv, hs⟩ ⟨rfl, rfl, rfl⟩ nofun

theorem erase_keeps (h : Inv chip s) (hl : s.lock = some t) (hpc : s.pc t = some (.erase, l)) :
    Inv chip (s.leave t (goOn mem s.dev .erase l)) := by
  obtain ⟨hat, -⟩ := h.at_ t _ l hpc
  cases l with
  | nil => exact hat.elim
  | cons b l =>
    obtain ⟨-, he, hv, hs⟩ := hat
    refine proceed_keeps (h.set_block hl hpc hv hs (fun i hi => ?_) ⟨?_, rfl⟩)
    · have hi : i / 4096 = s.dev.esectno := hi
      show store s.dev.chip (b.1 / 8 * 4096) 4096 (fun _ => erasedState) i = erasedState
      exact store_of_mem (by omega)
    · rw [← h.kept.overlay hv]
      funext i
      show (if i / 4096 = s.dev.esectno then s.dev.sector (i % 4096)
        else store s.dev.chip (b.1 / 8 * 4096) 4096 (fun _ => erasedState) i) = overlay s.dev i
      unfold overlay
      split_ifs with hi
      · rfl
      · exact store_of_not_mem (by omega)

/-! ## Runs -/

section

variable (h : Inv chip s)
include h

theorem start_keeps (hl : s.lock = none) (hpc : s.pc t = none) (call : BlockCall) :
    Inv chip { s.leave t (proceed mem s.dev call.blocks) with calls := s.calls ++ [(t, call)] } := by
  have hkept : Kept s.dev 0 := by
    have hpages : s.pages = 0 := by simp [Sys.pages, hl, pagesOf]
    exact hpages ▸ h.kept
  have hpending : s.pending t = none := by simp [Sys.pending, hpc]
  have hrunning : Running chip { s with calls := s.calls ++ [(t, call)] } t s.dev call.blocks := by
    refine ⟨hkept, h.suspended (.inl hl), call.sorted, ?_⟩
    obtain ⟨begun, order, hled, hq⟩ := @Inv.outside T _ s t chip h (.inl hl)
    refine ⟨begun, order, hled.start hpending call, fun u hu l hus => ?_⟩
    have hut : u ≠ t := by
      rintro rfl
      exact hled.open_ u hu hpending
    rw [update_of_ne hut] at hus
    exact ⟨hq u hu l hus, fun he => absurd he hut⟩
  exact proceed_keeps hrunning

theorem Inv.relock {lock : Option T} (hpages : s.pages = 0)
    (hpages' : ({ s with lock } : Sys T).pages = 0)
    (hat : ∀ u point l, s.pc u = some (point, l) → At s.dev (s.lock = some u) point l →
      At s.dev (lock = some u) point l) : Inv chip { s with lock } where
  kept := by
    have hkept := h.kept
    rw [hpages] at hkept
    rw [hpages']
    exact hkept
  at_ u point l hu := ⟨hat u point l hu (h.at_ u point l hu).1, (h.at_ u point l hu).2⟩
  flushing := h.flushing
  recorded := h.recorded

theorem release_keeps (hl : s.lock = some t) (hinstr : s.dev.prevInstr ≠ .pp)
    (hbusy : s.dev.busy = true) : Inv chip { s with lock := none } := by
  have he : s.dev.erased = true := h.kept.busy hbusy hinstr
  have hat : ∀ u point l, s.pc u = some (point, l) → At s.dev False point l := by
    intro u point l hu
    have hat := (h.at_ u point l hu).1
    cases point with
    | flush address page =>
      exact ⟨hat.1, hat.2.1, hat.2.2.1, fun hp => absurd (hat.2.2.2 hp).2 hinstr⟩
    | load =>
      cases l with
      | nil => exact hat
      | cons => exact nomatch he.symm.trans hat.2
    | check | erase =>
      cases l with
      | nil => exact hat
      | cons => exact nomatch he.symm.trans hat.2.1
  refine h.relock ?_ rfl fun u point l hu _ => (hat u point l hu).mono False.elim
  unfold Sys.pages
  rw [hl, bind_some]
  cases hpc : s.pc t with
  | none => rfl
  | some p =>
    obtain ⟨point, l⟩ := p
    obtain ⟨rfl, -⟩ := (hat t point l hpc).suspended id
    rfl

theorem retake_keeps (hl : s.lock = none) (hpc : (s.pc t).isSome) :
    Inv chip { s with lock := some t } := by
  refine h.relock (by simp [Sys.pages, hl, pagesOf]) ?_ fun u point l _ hat => ?_
  · obtain ⟨⟨point, l⟩, hp⟩ := isSome_iff_exists.mp hpc
    obtain ⟨rfl, -⟩ := (h.at_ t point l hp).1.suspended (by simp [hl])
    show pagesOf (s.pc t) = 0
    rw [hp]
    rfl
  · exact hat.mono fun hu => nomatch hl.symm.trans hu

theorem ready_keeps : Inv chip { s with dev := waitwritecomplete s.dev } where
  kept := ⟨h.kept.dirty_eq, h.kept.valid, h.kept.chip, nofun⟩
  at_ t point l hpc := by
    refine ⟨?_, (h.at_ t point l hpc).2⟩
    have hat := (h.at_ t point l hpc).1
    cases point <;> cases l <;> exact hat
  flushing := h.flushing
  recorded := h.recorded

/-- **One step.** -/
theorem step_keeps {a : Action T} (ha : Alone s a) (hs : s.step a = some s') : Inv chip s' := by
  cases a with
  | start t call mem =>
    obtain ⟨⟨hl, hpc⟩, hs⟩ := ite_none_right_eq_some.mp hs
    cases hs
    exact start_keeps h hl (by simpa using hpc) call
  | release t =>
    obtain ⟨⟨hl, hinstr, hbusy⟩, hs⟩ := ite_none_right_eq_some.mp hs
    cases hs
    exact release_keeps h hl hinstr hbusy
  | retake t =>
    obtain ⟨⟨hl, hpc⟩, hs⟩ := ite_none_right_eq_some.mp hs
    cases hs
    exact retake_keeps h hl hpc
  | go t mem =>
    obtain ⟨⟨hl, -⟩, hs⟩ := ite_none_right_eq_some.mp hs
    obtain ⟨⟨point, l⟩, hpc, rfl⟩ := map_eq_some_iff.mp hs
    cases point with
    | flush address page => exact flush_keeps h hl hpc
    | load => exact load_keeps h hpc (ha l hpc)
    | check page => exact check_keeps h hl hpc
    | erase => exact erase_keeps h hl hpc
  | ready =>
    cases hs
    exact ready_keeps h

end

/-- **Block calls are serial as long as no sector is read into the cache behind a suspended call.** -/
theorem w25_serialisable (chip sector : Memory UInt8) {s : Sys T}
    (h : Reaches Sys.step Alone (Sys.initial chip sector) s) (hdone : ∀ t, s.pc t = none) :
    ∃ order, SerialOrder order s.calls ∧ ∀ mem, s.dev.chip = afterCalls mem chip sector order := by
  have hinv : Inv chip s :=
    h.invariant (inv_initial chip sector) fun _ _ _ hinv ha hs => step_keeps hinv ha hs
  have he : s.dev.erased = false := by
    by_contra he
    obtain ⟨t, ht⟩ := hinv.flushing (by simpa using he)
    exact ht (hdone t)
  have hclean : Clean s.dev := ⟨hinv.kept.dirty_eq.trans he, he⟩
  obtain ⟨begun, order, hled, -⟩ := hinv.recorded
  obtain ⟨horder, hvalue⟩ := hled.serial fun t => by simp [Sys.pending, hdone t]
  refine ⟨order, horder, fun mem => ?_⟩
  rw [afterCalls_eq, ← hvalue, hclean.content]

def flushed (t : T) : List (Action T) :=
  (List.replicate 16 [Action.ready, Action.go t false]).flatten

/-- Thread `true` puts its block into the cache while the call of `false` is suspended, and flushes both. -/
def sharedSector : List (Action Bool) :=
  [.start false (.bwrite 0 1 fun _ => 1) false, .go false false, .go false false, .release false,
    .start true (.bwrite 1 1 fun _ => 2) false] ++ flushed true ++ [.retake false] ++ flushed false

/-- The calls of `sharedSector` are serial. -/
theorem w25_serialisable_shared : ∃ s : Sys Bool, s.dev.chip 512 = 2 ∧ ∃ order,
    SerialOrder order s.calls ∧ ∀ mem, s.dev.chip = afterCalls mem (fun _ => erasedState) (fun _ => 0) order := by
  obtain ⟨s, hs⟩ : ∃ s, sharedSector.foldlM (guarded Sys.step Alone)
      (Sys.initial (fun _ => erasedState) fun _ => 0) = some s :=
    isSome_iff_exists.mp (by decide +kernel)
  have hend : (sharedSector.foldlM (guarded Sys.step Alone)
      (Sys.initial (fun _ => erasedState) fun _ => 0)).map
        (fun s => (s.dev.chip 512, (s.pc false).isNone, (s.pc true).isNone)) = some (2, true, true) := by
    decide +kernel
  rw [hs] at hend
  obtain ⟨hbyte, hfalse, htrue⟩ : s.dev.chip 512 = 2 ∧ (s.pc false).isNone ∧ (s.pc true).isNone := by
    simpa using hend
  have hdone : ∀ t, s.pc t = none := by
    intro t
    cases t with
    | false => simpa using hfalse
    | true => simpa using htrue
  exact ⟨s, hbyte, w25_serialisable _ _ (.of_guarded sharedSector hs) hdone⟩

/-- Thread `true` reads another sector into the cache while the call of `false` is suspended: its flush
programs the wrong data. -/
def twoSectors : List (Action Bool) :=
  [.start false (.bwrite 0 1 fun _ => 1) false, .go false false, .go false false, .release false,
    .start true (.bwrite 8 1 fun _ => 2) false] ++ flushed true ++
  [.ready, .go true false, .go true false, .release true, .retake false] ++ flushed false ++
  [.retake true] ++ flushed true

theorem order_two {C : Type} {c c' : C} {order : List (Bool × C)}
    (h : SerialOrder order [(false, c), (true, c')]) :
    order = [(false, c), (true, c')] ∨ order = [(true, c'), (false, c)] := by
  have hfalse : callsOf order false = [(false, c)] := h false
  have htrue : callsOf order true = [(true, c')] := h true
  -- the calls of one thread, in a list without calls of the other one
  have hall : ∀ (t : Bool) {l : List (Bool × C)}, callsOf l (!t) = [] → callsOf l t = l := by
    intro t l hl
    refine filter_eq_self.mpr fun a ha => ?_
    have hne : ¬(a.1 = !t) := by simpa using filter_eq_nil_iff.mp hl a ha
    have hat : a.1 = t := by simpa using hne
    exact decide_eq_true hat
  cases order with
  | nil => exact nomatch hfalse
  | cons a order =>
    obtain ⟨t, d⟩ := a
    cases t with
    | false =>
      obtain ⟨rfl, hnone⟩ : d = c ∧ callsOf order false = [] := by simpa [callsOf] using hfalse
      have hrest : callsOf order true = [(true, c')] := by simpa [callsOf] using htrue
      exact .inl (by rw [← hall true hnone, hrest])
    | true =>
      obtain ⟨rfl, hnone⟩ : d = c' ∧ callsOf order true = [] := by simpa [callsOf] using htrue
      have hrest : callsOf order false = [(false, c)] := by simpa [callsOf] using hfalse
      exact .inr (by rw [← hall false hnone, hrest])

theorem not_w25_serialisable : ¬∀ (chip sector : Memory UInt8) (s : Sys Bool),
    Reaches Sys.step Always (Sys.initial chip sector) s → (∀ t, s.pc t = none) →
      ∃ order, SerialOrder order s.calls ∧ ∀ mem, s.dev.chip = afterCalls mem chip sector order := by
  intro h
  obtain ⟨s, hs⟩ : ∃ s, twoSectors.foldlM Sys.step
      (Sys.initial (fun _ => erasedState) fun _ => 0) = some s :=
    isSome_iff_exists.mp (by decide +kernel)
  have hend : (twoSectors.foldlM Sys.step (Sys.initial (fun _ => erasedState) fun _ => 0)).map
      (fun s => (s.dev.chip 0, (s.pc false).isNone, (s.pc true).isNone)) = some (0, true, true) := by
    decide +kernel
  have hcalls : (twoSectors.foldlM Sys.step (Sys.initial (fun _ => erasedState) fun _ => 0)).map
      Sys.calls = some [(false, .bwrite 0 1 fun _ => 1), (true, .bwrite 8 1 fun _ => 2)] := by
    rfl
  rw [hs] at hend hcalls
  obtain ⟨hbyte, hfalse, htrue⟩ : s.dev.chip 0 = 0 ∧ (s.pc false).isNone ∧ (s.pc true).isNone := by
    simpa using hend
  have hdone : ∀ t, s.pc t = none := by
    intro t
    cases t with
    | false => simpa using hfalse
    | true => simpa using htrue
  obtain ⟨order, horder, hchip⟩ := h _ _ s (.of_foldlM twoSectors hs) hdone
  rw [some.inj hcalls] at horder
  have hserial := congrFun (hchip fun _ => false) 0
  rw [hbyte] at hserial
  rcases order_two horder with rfl | rfl
  · exact absurd hserial (by decide +kernel)
  · exact absurd hserial (by decide +kernel)

end Gpmx.Mtd.W25
