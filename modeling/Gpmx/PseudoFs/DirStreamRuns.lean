import Gpmx.PseudoFs.DirStreamSteps

/-!
# A stream returns every entry that stays

`Tracks` says where a stream is: at an entry, which it holds a reference on, or at an inode
that is gone, or at its end; and what it has returned is in front of that. Every step keeps it,
so no entry is returned twice and no read faults, whatever others do in the directory.

`Caught` says that an entry that stays is returned or still to the right. It is lost only when
the inode the stream is at is removed while something follows it (`DirEvent.KeepsNext`).
-/

namespace Gpmx.PseudoFs

open Infra Option List

section

variable {keys : List Name} {dirpath : List Char} {s s' : DirState} {f f' : Forest Inode}
  {fs fs' : Fs} {a b dir : Addr} {d e : Inode} {n : Name}

def AtNext (keys : List Name) (s : DirState) (f : Forest Inode) (a : Addr) : Prop :=
  ∃ e, (∀ r ∈ s.returned, r.2 < e.iName) ∧
    (Child keys f a e ∧ e.iCrefs ≠ 0 ∨ Gone s.fs.heap f a e)

structure Tracks (keys : List Name) (s : DirState) (f : Forest Inode) : Prop where
  wf : Wf s.fs f
  dir : Located keys f s.pdir.fdRoot
  ascending : (s.returned.map Prod.snd).Pairwise (· < ·)
  next : ∀ a, s.pdir.next = some a → AtNext keys s f a
  ended : s.ended = true → s.pdir.next = none

/-- The entry `b`, whose name is `n`, is returned, or the stream is at it or in front of it. -/
def Caught (keys : List Name) (s : DirState) (f : Forest Inode) (b : Addr) (n : Name) : Prop :=
  (∃ x, Child keys f b x ∧ x.iName = n) ∧
    ((b, n) ∈ s.returned ∨ ∃ a e, s.pdir.next = some a ∧ Child keys f a e ∧ e.iName ≤ n)

/-! ## References -/

theorem wf_onInode {fs : Fs} {f : Forest Inode} {a : Addr} {c : Cell Inode}
    {u : Inode → Inode} (hwf : Wf fs f) (hr : fs.heap.read a = some c) (hu : Mild u) :
    ∃ fs', fs.onInode a u = some fs' ∧ Wf fs' (f.mapAt (Forest.only a u)) := by
  obtain ⟨fs', hon, hf', -⟩ := onInode_spec hwf.linked hr hu
  exact ⟨fs', hon, hwf.mapAt (fun b d => (hu.only a b d).1) hf'⟩

theorem iName_only_addref (q c : Addr) (x : Inode) :
    (Forest.only q Inode.addref c x).iName = x.iName := (mild_addref.only q c x).1

theorem iName_only_dropref (q c : Addr) (x : Inode) :
    (Forest.only q Inode.dropref c x).iName = x.iName := (mild_dropref.only q c x).1

theorem isMountpt_only {u : Inode → Inode} (hu : ∀ d, (u d).isMountpt = d.isMountpt) (q c : Addr)
    (x : Inode) : (Forest.only q u c x).isMountpt = x.isMountpt := by
  unfold Forest.only
  split
  · exact hu x
  · rfl

theorem addref_spec {q : Addr} {y : Inode} (hwf : Wf fs f) (hdir : Located keys f dir)
    (hq : Child keys f q y) :
    ∃ fs' f', inodeAddref fs (some q) = some fs' ∧ Wf fs' f' ∧ Located keys f' dir ∧
      (∀ b x, Child keys f b x → ∃ x', Child keys f' b x' ∧ x'.iName = x.iName ∧
        x.iCrefs ≤ x'.iCrefs) ∧
      ∃ y', Child keys f' q y' ∧ y'.iName = y.iName ∧ y'.iCrefs ≠ 0 := by
  obtain ⟨c, hr⟩ := hwf.linked.stores.rep.read hq.mem_addrs
  obtain ⟨fs', hon, hwf'⟩ := wf_onInode hwf hr mild_addref
  refine ⟨fs', _, hon, hwf', hdir.mapAt (iName_only_addref q) (isMountpt_only (u := Inode.addref) (fun _ => rfl) q),
    fun b x hb => ⟨_, hb.mapAt (iName_only_addref q), iName_only_addref q b x, ?_⟩,
    _, hq.mapAt (iName_only_addref q), iName_only_addref q q y, ?_⟩
  · unfold Forest.only
    split
    · exact Nat.le_succ _
    · exact le_refl _
  · rw [Forest.only_self]
    exact Nat.succ_ne_zero _

theorem release_spec {p : Addr} {y : Inode} (hwf : Wf fs f) (hdir : Located keys f dir)
    (hp : Child keys f p y) :
    ∃ fs' f', inodeRelease fs p = some fs' ∧ Wf fs' f' ∧ Located keys f' dir ∧
      ∀ b x, Child keys f b x → ∃ x', Child keys f' b x' ∧ x'.iName = x.iName ∧
        (b ≠ p → x'.iCrefs = x.iCrefs) := by
  obtain ⟨c, hr, hlive⟩ :=
    hwf.linked.stores.rep.read_all hwf.linked.live hp.mem_addrs
  obtain ⟨fs', hon, hwf'⟩ := wf_onInode hwf hr mild_dropref
  rw [← inodeRelease_live hr hlive] at hon
  refine ⟨fs', _, hon, hwf', hdir.mapAt (iName_only_dropref p) (isMountpt_only (u := Inode.dropref) (fun _ => rfl) p),
    fun b x hb => ⟨_, hb.mapAt (iName_only_dropref p), iName_only_dropref p b x, fun hne => ?_⟩⟩
  rw [Forest.only_ne _ _ hne]

/-! ## Steps of others -/

theorem Gone.not_child (hg : Gone fs.heap f a d) (hc : Child keys f a e) : False := by
  obtain ⟨ch, -, -, hout⟩ := hg
  exact hout a mem_cons_self hc.mem_addrs

theorem create_tracks {path : List Char} {answers : List Addr} (h : Tracks keys s f)
    (hs : s.step (.create path answers) = some s') :
    ∃ f', Tracks keys s' f' ∧ ∀ b n, Caught keys s f b n → Caught keys s' f' b n := by
  obtain ⟨⟨ret, node, fs'⟩, hrun, hs⟩ := bind_eq_some_iff.mp hs
  cases hs
  obtain ⟨f', hwf', hstay, hnew, hkeep⟩ := create_spec h.wf hrun
  have hchild : ∀ b x, Child keys f b x → Child keys f' b x := fun b x hb => hstay _ _ _ _ hb
  refine ⟨f', ⟨hwf', ?_, h.ascending, ?_, h.ended⟩, ?_⟩
  · obtain ⟨d, hat, hd⟩ := h.dir
    exact ⟨d, hstay _ _ _ _ hat, hd⟩
  · intro a ha
    obtain ⟨e, hlt, hc | hg⟩ := h.next a ha
    · exact ⟨e, hlt, Or.inl ⟨hchild a e hc.1, hc.2⟩⟩
    · exact ⟨e, hlt, Or.inr (hg.congr hkeep hnew)⟩
  · rintro b n ⟨⟨x, hx, hn⟩, hret | ⟨a, e, ha, he, hle⟩⟩
    · exact ⟨⟨x, hchild b x hx, hn⟩, Or.inl hret⟩
    · exact ⟨⟨x, hchild b x hx, hn⟩, Or.inr ⟨a, e, ha, hchild a e he, hle⟩⟩

theorem remove_tracks {path : List Char} (h : Tracks (pathKeys dirpath) s f)
    (hin : (DirEvent.remove path).Inside dirpath) (hs : s.step (.remove path) = some s') :
    ∃ f', Tracks (pathKeys dirpath) s' f' ∧
      ∀ b n, (DirEvent.remove path).KeepsNext s → (DirEvent.remove path).Spares s b →
        Caught (pathKeys dirpath) s f b n → Caught (pathKeys dirpath) s' f' b n := by
  obtain ⟨⟨ret, fs'⟩, hrun, hs⟩ := bind_eq_some_iff.mp hs
  cases hs
  obtain ⟨f', hwf', hdir', hstay, hsub, hkeep, hgone⟩ := remove_spec h.wf h.dir hin hrun
  refine ⟨f', ⟨hwf', hdir', h.ascending, ?_, h.ended⟩, ?_⟩
  · intro a ha
    obtain ⟨e, hlt, ⟨hc, hcrefs⟩ | hg⟩ := h.next a ha
    · rcases hstay a e hc with hc' | hfound
      · exact ⟨e, hlt, Or.inl ⟨hc', hcrefs⟩⟩
      · -- the inode the stream is at is taken out, and kept for its reference
        exact ⟨{ e with deleted := true }, hlt, Or.inr (hgone a e hfound hc hcrefs)⟩
    · exact ⟨e, hlt, Or.inr (hg.congr (fun b _ hb => hkeep b hb) fun b hb => Or.inl (hsub b hb))⟩
  · rintro b n hlast hspare ⟨⟨x, hx, rfl⟩, hcaught⟩
    have hx' : Child (pathKeys dirpath) f' b x := (hstay b x hx).resolve_right hspare
    refine ⟨⟨x, hx', rfl⟩, ?_⟩
    rcases hcaught with hret | ⟨a, e, ha, he, hle⟩
    · exact Or.inl hret
    · rcases hstay a e he with he' | hfound
      · exact Or.inr ⟨a, e, ha, he', hle⟩
      · -- what is taken out is the last entry, and `b` is not to the right of it
        exfalso
        obtain ⟨c, hr, -, hnone, -⟩ := he.peer h.wf h.dir
        have hpeer := hlast a ha hfound
        rw [hr] at hpeer
        have heq : x.iName = e.iName :=
          le_antisymm (not_lt.mp (hnone hpeer b x hx)) hle
        have hab := hx.unique h.wf h.dir he heq
        rw [hab] at hspare
        exact hspare hfound

/-! ## Reading -/

theorem current_of_next {c : Cell Inode} (ha : s.pdir.next = some a)
    (hr : s.fs.heap.read a = some c) : s.current = [(a, c.data.iName)] := by
  simp [DirState.current, ha, hr]

theorem ascending_append (hasc : (s.returned.map Prod.snd).Pairwise (· < ·))
    (hlt : ∀ r ∈ s.returned, r.2 < n) :
    ((s.returned ++ [(a, n)]).map Prod.snd).Pairwise (· < ·) := by
  rw [map_append, pairwise_append]
  refine ⟨hasc, by simp, ?_⟩
  intro x hx y hy
  obtain ⟨r, hr, rfl⟩ := mem_map.mp hx
  obtain rfl : y = n := by simpa using hy
  exact hlt r hr

theorem readdir_child (h : Tracks keys s f) (ha : s.pdir.next = some a)
    (hlt : ∀ r ∈ s.returned, r.2 < e.iName) (he : Child keys f a e) :
    ∃ s' f', s.step .readdir = some s' ∧ Tracks keys s' f' ∧
      ∀ b n, Caught keys s f b n → Caught keys s' f' b n := by
  obtain ⟨c, hr, rfl, hnone, hsome⟩ := he.peer h.wf h.dir
  have hcur := current_of_next ha hr
  have hend : s.ended = false := by
    cases hended : s.ended with
    | false => rfl
    | true =>
      rw [h.ended hended] at ha
      cases ha
  cases hpeer : c.peer with
  | none =>
    obtain ⟨fs', f', hrel, hwf', hdir', hstay⟩ := release_spec h.wf h.dir he
    refine ⟨⟨fs', ⟨s.pdir.fdRoot, none⟩, s.returned ++ s.current, s.ended || false⟩, f', ?_, ?_, ?_⟩
    · simp only [DirState.step, PseudoDir.readPseudodir, ha, hr, hpeer, inodeAddref, hrel,
        bind_eq_bind, bind_some]
      rfl
    · refine ⟨hwf', hdir', ?_, fun b hb => (by cases hb), fun _ => rfl⟩
      rw [hcur]
      exact ascending_append h.ascending hlt
    · rintro b n ⟨⟨x, hx, rfl⟩, hcaught⟩
      obtain ⟨x', hx', hname, -⟩ := hstay b x hx
      refine ⟨⟨x', hx', hname⟩, Or.inl ?_⟩
      rw [hcur]
      rcases hcaught with hret | ⟨a', e', ha', he', hle⟩
      · exact mem_append_left _ hret
      · obtain rfl : a = a' := some.inj (ha.symm.trans ha')
        rw [← he.data_unique h.wf he'] at hle
        have heq : x.iName = c.data.iName := le_antisymm (not_lt.mp (hnone hpeer b x hx)) hle
        rw [hx.unique h.wf h.dir he heq, heq]
        exact mem_append_right _ mem_cons_self
  | some q =>
    obtain ⟨y, hy, hey, hmin⟩ := hsome q hpeer
    obtain ⟨fs₁, f₁, hadd, hwf₁, hdir₁, hstay₁, y₁, hy₁, hname₁, hcrefs₁⟩ :=
      addref_spec h.wf h.dir hy
    obtain ⟨x₁, hx₁, -, -⟩ := hstay₁ a c.data he
    obtain ⟨fs', f', hrel, hwf', hdir', hstay⟩ := release_spec hwf₁ hdir₁ hx₁
    have hne : q ≠ a := by
      rintro rfl
      rw [hy.data_unique h.wf he] at hey
      exact lt_irrefl _ hey
    obtain ⟨y', hy', hname', hcrefs'⟩ := hstay q y₁ hy₁
    rw [hname₁] at hname'
    refine ⟨⟨fs', ⟨s.pdir.fdRoot, some q⟩, s.returned ++ s.current, s.ended || false⟩, f', ?_, ?_, ?_⟩
    · simp only [DirState.step, PseudoDir.readPseudodir, ha, hr, hpeer, hadd, hrel, bind_eq_bind,
        bind_some]
      rfl
    · refine ⟨hwf', hdir', ?_, ?_, ?_⟩
      · rw [hcur]
        exact ascending_append h.ascending hlt
      · intro b hb
        cases hb
        refine ⟨y', ?_, Or.inl ⟨hy', by rw [hcrefs' hne]; exact hcrefs₁⟩⟩
        intro r hret
        rw [hname']
        rw [hcur] at hret
        rcases mem_append.mp hret with hret | hret
        · exact lt_trans (hlt r hret) hey
        · rw [mem_singleton.mp hret]
          exact hey
      · intro hended
        rw [hend] at hended
        cases hended
    · rintro b n ⟨⟨x, hx, rfl⟩, hcaught⟩
      obtain ⟨x₂, hx₂, hn₂, -⟩ := hstay₁ b x hx
      obtain ⟨x', hx', hn', -⟩ := hstay b x₂ hx₂
      refine ⟨⟨x', hx', hn'.trans hn₂⟩, ?_⟩
      rw [hcur]
      rcases hcaught with hret | ⟨a', e', ha', he', hle⟩
      · exact Or.inl (mem_append_left _ hret)
      · obtain rfl : a = a' := some.inj (ha.symm.trans ha')
        rw [← he.data_unique h.wf he'] at hle
        rcases lt_or_eq_of_le hle with hlt' | heq
        · exact Or.inr ⟨q, y', rfl, hy', by rw [hname']; exact hmin b x hx hlt'⟩
        · left
          rw [hx.unique h.wf h.dir he heq.symm, ← heq]
          exact mem_append_right _ mem_cons_self

theorem readdir_gone (h : Tracks keys s f) (ha : s.pdir.next = some a)
    (hlt : ∀ r ∈ s.returned, r.2 < e.iName) (hg : Gone s.fs.heap f a e) :
    ∃ s' f', s.step .readdir = some s' ∧ Tracks keys s' f' ∧
      ∀ b n, Caught keys s f b n → Caught keys s' f' b n := by
  obtain ⟨ch, ⟨hr, -, -⟩, -, -⟩ := id hg
  have hr : s.fs.heap.read a = some ⟨none, none, ch.head, e⟩ := hr
  have hcur := current_of_next ha hr
  obtain ⟨fs', hrel, hf'⟩ := inodeRelease_gone h.wf.linked hg
  refine ⟨⟨fs', ⟨s.pdir.fdRoot, none⟩, s.returned ++ s.current, s.ended || false⟩, f, ?_, ?_, ?_⟩
  · simp only [DirState.step, PseudoDir.readPseudodir, ha, hr, inodeAddref, hrel, bind_eq_bind,
      bind_some]
    rfl
  · refine ⟨⟨hf', h.wf.sorted, h.wf.named⟩, h.dir, ?_, fun b hb => (by cases hb), fun _ => rfl⟩
    rw [hcur]
    exact ascending_append h.ascending hlt
  · rintro b n ⟨hx, hret | ⟨a', e', ha', he', -⟩⟩
    · exact ⟨hx, Or.inl (mem_append_left _ hret)⟩
    · obtain rfl : a = a' := some.inj (ha.symm.trans ha')
      have hgone : Gone s.fs.heap f a e := hg
      exact absurd he' hgone.not_child

theorem readdir_tracks (h : Tracks keys s f) :
    ∃ s' f', s.step .readdir = some s' ∧ Tracks keys s' f' ∧
      ∀ b n, Caught keys s f b n → Caught keys s' f' b n := by
  cases ha : s.pdir.next with
  | none =>
    have hcur : s.current = [] := by simp [DirState.current, ha]
    refine ⟨⟨s.fs, s.pdir, s.returned ++ s.current, s.ended || true⟩, f, ?_, ?_, ?_⟩
    · simp only [DirState.step, PseudoDir.readPseudodir, ha, bind_eq_bind, bind_some]
      rfl
    · rw [hcur, append_nil]
      refine ⟨h.wf, h.dir, h.ascending, fun b hb => ?_, fun _ => ha⟩
      rw [ha] at hb
      cases hb
    · rintro b n ⟨hx, hcaught⟩
      rw [hcur, append_nil]
      exact ⟨hx, hcaught⟩
  | some a =>
    obtain ⟨e, hlt, ⟨hc, -⟩ | hg⟩ := h.next a ha
    · exact readdir_child h ha hlt hc
    · exact readdir_gone h ha hlt hg

/-! ## Runs -/

theorem step_tracks {ev : DirEvent} (h : Tracks (pathKeys dirpath) s f) (hin : ev.Inside dirpath)
    (hs : s.step ev = some s') :
    ∃ f', Tracks (pathKeys dirpath) s' f' ∧
      ∀ b n, ev.KeepsNext s → ev.Spares s b →
        Caught (pathKeys dirpath) s f b n → Caught (pathKeys dirpath) s' f' b n := by
  cases ev with
  | create path answers =>
    obtain ⟨f', h', hcaught⟩ := create_tracks h hs
    exact ⟨f', h', fun b n _ _ => hcaught b n⟩
  | remove path => exact remove_tracks h hin hs
  | readdir =>
    obtain ⟨s'', f', hs', h', hcaught⟩ := readdir_tracks h
    rw [hs] at hs'
    cases hs'
    exact ⟨f', h', fun b n _ _ => hcaught b n⟩

theorem open_tracks {pdir : PseudoDir} (hwf : Wf fs f) (hdir : Located keys f dir)
    (hopen : openPseudodir fs dir = some (pdir, fs')) :
    ∃ f', Tracks keys ⟨fs', pdir, [], false⟩ f' ∧
      ∀ b d, Child keys f b d → Caught keys ⟨fs', pdir, [], false⟩ f' b d.iName := by
  obtain ⟨c, hr, hnone, hsome⟩ := hdir.first hwf
  simp only [openPseudodir, hr, bind_eq_bind, bind_some] at hopen
  cases hchild : c.child with
  | none =>
    rw [hchild] at hopen
    cases hopen
    refine ⟨f, ⟨hwf, hdir, List.Pairwise.nil, fun b hb => (by cases hb), fun h => (by cases h)⟩, ?_⟩
    exact fun b d hb => absurd hb (hnone hchild b d)
  | some q =>
    obtain ⟨y, hy, hmin⟩ := hsome q hchild
    obtain ⟨fs₁, f₁, hadd, hwf₁, hdir₁, hstay, y', hy', hname, hcrefs⟩ := addref_spec hwf hdir hy
    rw [hchild, hadd] at hopen
    cases hopen
    refine ⟨f₁, ⟨hwf₁, hdir₁, List.Pairwise.nil, ?_, fun h => (by cases h)⟩, ?_⟩
    · intro b hb
      cases hb
      exact ⟨y', fun r hret => absurd hret not_mem_nil, Or.inl ⟨hy', hcrefs⟩⟩
    · intro b d hb
      obtain ⟨d', hb', hname', -⟩ := hstay b d hb
      refine ⟨⟨d', hb', hname'⟩, Or.inr ⟨q, y', rfl, hy', ?_⟩⟩
      rw [hname]
      exact hmin b d hb

/--
**A directory stream is complete as long as the inode it is at stays.**

A stream is opened on a pseudo directory of any well-formed tree; other tasks make inodes
anywhere and remove what is in the directory, in any order with the reads. No read faults, and
no name is returned twice. An entry that is there from the opening on is returned, and once,
when the stream reports the end, if the inode the stream is at is never removed while another
entry follows it.
-/
theorem readdir_complete {pdir : PseudoDir} (hwf : Wf fs f)
    (hdir : Located (pathKeys dirpath) f dir)
    (hopen : openPseudodir fs dir = some (pdir, fs')) :
    (∀ s, Reaches DirState.step (fun _ ev => ev.Inside dirpath) ⟨fs', pdir, [], false⟩ s →
      (s.returned.map Prod.snd).Nodup ∧ PseudoDir.readPseudodir s.fs s.pdir ≠ none) ∧
    ∀ b d s, Child (pathKeys dirpath) f b d →
      Reaches DirState.step (fun s ev => ev.Inside dirpath ∧ ev.KeepsNext s ∧ ev.Spares s b)
        ⟨fs', pdir, [], false⟩ s →
      s.ended = true → s.returned.count (b, d.iName) = 1 := by
  obtain ⟨f', htracks, hcaught⟩ := open_tracks hwf hdir hopen
  have hnodup : ∀ {s f}, Tracks (pathKeys dirpath) s f → (s.returned.map Prod.snd).Nodup :=
    fun h => h.ascending.imp ne_of_lt
  constructor
  · intro s hrun
    have hinv : ∃ f, Tracks (pathKeys dirpath) s f := by
      refine hrun.invariant (P := fun s => ∃ f, Tracks (pathKeys dirpath) s f) ⟨f', htracks⟩ ?_
      rintro s ev s' ⟨f, h⟩ hin hs
      obtain ⟨f', h', -⟩ := step_tracks h hin hs
      exact ⟨f', h'⟩
    obtain ⟨f, h⟩ := hinv
    refine ⟨hnodup h, fun hfault => ?_⟩
    obtain ⟨s', -, hs', -⟩ := readdir_tracks h
    simp [DirState.step, hfault] at hs'
  · intro b d s hchild hrun hended
    have hinv : ∃ f, Tracks (pathKeys dirpath) s f ∧ Caught (pathKeys dirpath) s f b d.iName := by
      refine hrun.invariant
        (P := fun s => ∃ f, Tracks (pathKeys dirpath) s f ∧
          Caught (pathKeys dirpath) s f b d.iName) ⟨f', htracks, hcaught b d hchild⟩ ?_
      rintro s ev s' ⟨f, h, hc⟩ ⟨hin, hkeeps, hspares⟩ hs
      obtain ⟨f', h', hstay⟩ := step_tracks h hin hs
      exact ⟨f', h', hstay b d.iName hkeeps hspares hc⟩
    obtain ⟨f, h, -, hret | ⟨a, e, ha, -⟩⟩ := hinv
    · exact count_eq_one_of_mem (List.Nodup.of_map _ (hnodup h)) hret
    · rw [h.ended hended] at ha
      cases ha

end

/-- The root with the entries `a` and `b`. -/
def abTree : Forest Inode :=
  .cons 0 (Inode.fresh []) (.cons 1 (Inode.fresh ['a']) .nil
    (.cons 2 (Inode.fresh ['b']) .nil .nil)) .nil

def abFs : Fs :=
  ⟨⟨[some ⟨none, none, some 1, Inode.fresh []⟩, some ⟨some 0, some 2, none, Inode.fresh ['a']⟩,
    some ⟨some 0, none, none, Inode.fresh ['b']⟩, none]⟩, some 0⟩

theorem wf_abFs : Wf abFs abTree := by
  have h₁ : inodeReserve (Fs.empty 4 0) ['/', 'a'] [1] = some (0, some 1,
      ⟨⟨[some ⟨none, none, some 1, Inode.fresh []⟩, some ⟨some 0, none, none, Inode.fresh ['a']⟩,
        none, none]⟩, some 0⟩) := by decide
  obtain ⟨f₁, hwf₁⟩ := (wf_empty (by decide)).reserve h₁
  obtain ⟨f₂, h₂⟩ := @Wf.reserve _ abFs f₁ ['/', 'b'] [2] 0 (some 2) hwf₁ (by decide)
  have htree : f₂ = abTree := by
    refine h₂.linked.stores.unique ⟨rfl, ?_, by decide⟩
    exact ⟨rfl, ⟨rfl, trivial, rfl, trivial, trivial⟩, trivial⟩
  rw [← htree]
  exact h₂

def abStream : DirState :=
  ⟨⟨⟨[some ⟨none, none, some 1, Inode.fresh []⟩,
    some ⟨some 0, some 2, none, (Inode.fresh ['a']).addref⟩,
    some ⟨some 0, none, none, Inode.fresh ['b']⟩, none]⟩, some 0⟩, ⟨0, some 1⟩, [], false⟩

theorem located_abTree : Located (pathKeys ['/']) abTree 0 :=
  ⟨Inode.fresh [], Or.inl ⟨rfl, rfl, rfl⟩, rfl⟩

theorem child_abTree : Child (pathKeys ['/']) abTree 2 (Inode.fresh ['b']) :=
  Or.inr (Or.inl ⟨rfl, [['b']], rfl, Or.inr (Or.inr (Or.inl ⟨rfl, rfl, rfl⟩))⟩)

/-- `a` is removed after it was returned, `c` is made, and `b` is returned. -/
theorem readdir_complete_kept : ∃ s, s.ended = true ∧ s.returned.count (2, ['b']) = 1 ∧
    Reaches DirState.step
      (fun s ev => ev.Inside ['/'] ∧ ev.KeepsNext s ∧ ev.Spares s 2) abStream s := by
  have hrun : ∃ s, [DirEvent.readdir, .remove ['/', 'a'], .create ['/', 'c'] [1], .readdir,
      .readdir, .readdir].foldlM (guarded DirState.step
        (fun s ev => ev.Inside ['/'] ∧ ev.KeepsNext s ∧ ev.Spares s 2)) abStream = some s ∧
      s.ended = true := by
    refine ⟨_, rfl, ?_⟩
    decide
  obtain ⟨s, hs, hended⟩ := hrun
  have hreach := Reaches.of_guarded _ hs
  exact ⟨s, hended, (@readdir_complete ['/'] abTree abFs abStream.fs 0 abStream.pdir wf_abFs
    located_abTree (by decide)).2 2 _ s child_abTree hreach hended, hreach⟩

/--
The stream is at `a` when `a` is removed: `a` is returned, `b`, which follows it and stays, is
not, and the stream reports its end.
-/
theorem readdir_misses_entry : ∃ s, s.ended = true ∧ s.returned = [(1, ['a'])] ∧
    Reaches DirState.step (fun s ev => ev.Inside ['/'] ∧ ev.Spares s 2) abStream s ∧
    openPseudodir abFs 0 = some (abStream.pdir, abStream.fs) ∧
    Child (pathKeys ['/']) abTree 2 (Inode.fresh ['b']) ∧
    inodeAt s.fs ['/', 'b'] = some 2 := by
  have hrun : ∃ s, [DirEvent.remove ['/', 'a'], .readdir, .readdir].foldlM (guarded DirState.step
        (fun s ev => ev.Inside ['/'] ∧ ev.Spares s 2)) abStream = some s ∧
      s.ended = true ∧ s.returned = [(1, ['a'])] ∧ inodeAt s.fs ['/', 'b'] = some 2 := by
    refine ⟨_, rfl, ?_⟩
    decide
  obtain ⟨s, hs, hended, hret, hfound⟩ := hrun
  exact ⟨s, hended, hret, Reaches.of_guarded _ hs, by decide, child_abTree, hfound⟩

end Gpmx.PseudoFs
