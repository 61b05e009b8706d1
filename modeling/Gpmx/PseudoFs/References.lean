import Gpmx.PseudoFs.Aside
import Gpmx.PseudoFs.Files

/-!
# The sections, by references

What a section of a call adds to the counts of the inodes is what it adds to the references that the
call holds.
-/

namespace Gpmx.PseudoFs

open Infra Option List

def Dir.refs (dir : Dir) : List Addr := dir.fdRoot :: dir.next.toList

def File.refs (file : File) : List Addr := file.fInode :: file.fPriv.elim [] Dir.refs

/-- The references of a call: the lookups in flight, and the files that are in no table. -/
def Call.refs : Call → List Addr
  | .idle | .make _ | .seek _ _ _ _ => []
  | .dirRead root _ _ _ => [root]
  | .dirCounted dir _ => dir.refs
  | .opened file _ => file.refs
  | .remove _ inode => [inode]
  | .probe _ oldinode _ _ | .move _ oldinode _ | .freed oldinode | .mountProbe oldinode _ => [oldinode]
  | .release inode rest => inode :: rest.refs

/-- The first child that `open_pseudodir` has read and not counted, and where `seek_pseudodir` starts. -/
def Call.noted : Call → Option Addr
  | .dirRead _ child _ _ => child
  | .seek _ curr _ _ => curr
  | .release _ rest => rest.noted
  | _ => none

theorem refs_fileClose (file : File) (rest : Call) (a : Addr) :
    (fileClose file rest).refs.count a = file.refs.count a + rest.refs.count a := by
  obtain ⟨fInode, fPriv⟩ := file
  rcases fPriv with _ | ⟨fdRoot, _ | next, fPos⟩
  · simp only [fileClose, Call.refs, File.refs, Option.elim, count_cons, count_nil]
    omega
  · simp only [fileClose, Call.refs, File.refs, Dir.refs, Option.elim, Option.toList, count_cons,
      count_nil]
    omega
  · simp only [fileClose, Call.refs, File.refs, Dir.refs, Option.elim, Option.toList, count_cons,
      count_nil]
    omega

theorem noted_fileClose (file : File) : (fileClose file .idle).noted = none := by
  obtain ⟨fInode, fPriv⟩ := file
  rcases fPriv with _ | ⟨fdRoot, _ | next, fPos⟩ <;> rfl

/-! ## Counting -/

section Addref

variable {fs fs' : Fs} {a : Addr}

theorem crefs_addref (h : fs.onInode a Inode.addref = some fs') (b : Addr) :
    fs'.crefs b = fs.crefs b + [a].count b := by
  obtain ⟨-, d, hd, hd', hsame⟩ := Fs.onInode_links h
  by_cases hb : b = a
  · subst hb
    rw [Fs.crefs_of_data hd, Fs.crefs_of_data hd', count_singleton_self]
    rfl
  · rw [Fs.crefs_congr (hsame b hb), count_singleton, if_neg (by simpa using Ne.symm hb)]
    rfl

theorem data_onInode {u : Inode → Inode} (h : fs.onInode a u = some fs') {b : Addr}
    (hb : fs'.data b = none) : fs.data b = none := by
  obtain ⟨-, d, hd, hd', hsame⟩ := Fs.onInode_links h
  by_cases hba : b = a
  · subst hba
    rw [hd'] at hb
    cases hb
  · rw [← hsame b hba, hb]

end Addref

structure Section (fs fs' : Fs) (held : List Addr) (call : Call) : Prop where
  tidy : fs'.Tidy
  count : ∀ a, fs'.crefs a + held.count a = fs.crefs a + call.refs.count a
  kept : ∀ a, fs'.data a = none → fs.data a = none
  aside : ∀ g, fs.Aside g → fs'.Aside g
  noted : ∀ a, call.noted = some a → fs'.data a ≠ none

theorem Section.refl {fs : Fs} {held : List Addr} {call : Call} (hfs : fs.Tidy)
    (hrefs : call.refs = held) (hnoted : ∀ a, call.noted = some a → fs.data a ≠ none) :
    Section fs fs held call where
  tidy := hfs
  count a := by rw [hrefs]
  kept _ h := h
  aside _ h := h
  noted := hnoted

/-- **A section that begins with a lookup.** What is found is counted, and the call holds it. -/
theorem lookup_section {fs fs₁ fs' : Fs} {path : List Char} {desc : SearchDesc} {held : List Addr}
    {missed call : Call} {rest : Option (Call × Fs)} (hfs : fs.Tidy)
    (hfind : inodeFind fs path = some (desc, fs₁))
    (h : (if desc.ret < 0 then some (missed, fs₁) else rest) = some (call, fs'))
    (hmissed : missed.refs = held ∧ missed.noted = none)
    (hfound : ∀ a, desc.node = some a → Finds fs path a → fs.onInode a Inode.addref = some fs₁ →
      rest = some (call, fs') → Section fs₁ fs' (a :: held) call) : Section fs fs' held call := by
  rcases inodeFind_links hfind with ⟨hmiss, hsame⟩ | ⟨hret, a, hnode, hfinds, haddref⟩
  · rw [if_pos hmiss] at h
    cases h
    rw [hsame]
    exact .refl hfs hmissed.1 (by simp [hmissed.2])
  · rw [if_neg (by omega)] at h
    have hrest := hfound a hnode hfinds haddref h
    refine ⟨hrest.tidy, fun b => ?_, fun b hb => data_onInode haddref (hrest.kept b hb),
      fun g hg => hrest.aside g (hg.addref haddref), hrest.noted⟩
    have hcount := hrest.count b
    rw [crefs_addref haddref, count_cons] at hcount
    rw [count_singleton] at hcount
    omega

/-! ## First sections -/

section First

variable {fs fs' : Fs} {path : List Char} {call : Call}

section

variable (hfs : fs.Tidy)
include hfs

theorem Fs.Tidy.child_data {a b : Addr} {c : Cell Inode} (hr : fs.heap.read a = some c)
    (hchild : c.child = some b) : fs.data b ≠ none := by
  have htarget : fs.target (.child a) = some b := by
    rw [Fs.target, hr]
    exact hchild
  obtain ⟨d, hd, -⟩ := hfs.target_inside htarget
  rw [hd]
  simp

theorem fileVopen_section {directory access opens : Bool} (h : fileVopen fs path directory access opens = some (call, fs')) : Section fs fs' [] call := by
  obtain ⟨⟨desc, fs₁⟩, hfind, h⟩ := bind_eq_some_iff.mp h
  refine lookup_section hfs hfind h ⟨rfl, rfl⟩ fun a hnode _ haddref h => ?_
  have hfs₁ := hfs.onInode haddref fun _ => rfl
  rw [hnode, bind_eq_bind, bind_some] at h
  obtain ⟨c, hr, h⟩ := bind_eq_some_iff.mp h
  split_ifs at h
  · cases h
    exact .refl hfs₁ rfl nofun
  · cases h
    exact .refl hfs₁ rfl nofun
  · cases h
    exact .refl hfs₁ rfl nofun
  · cases h
    exact .refl hfs₁ rfl fun b hb => hfs₁.child_data hr hb
  · cases h
    exact .refl hfs₁ rfl nofun
  · cases h
    exact .refl hfs₁ rfl nofun

theorem mkdir_section (h : mkdir fs path = some (call, fs')) : Section fs fs' [] call := by
  obtain ⟨⟨desc, fs₁⟩, hfind, h⟩ := bind_eq_some_iff.mp h
  refine lookup_section hfs hfind h ⟨rfl, rfl⟩ fun a hnode _ haddref h => ?_
  rw [hnode] at h
  cases h
  exact .refl (hfs.onInode haddref fun _ => rfl) rfl nofun

theorem rmdir_section (h : rmdir fs path = some (call, fs')) : Section fs fs' [] call := by
  obtain ⟨⟨desc, fs₁⟩, hfind, h⟩ := bind_eq_some_iff.mp h
  refine lookup_section hfs hfind h ⟨rfl, rfl⟩ fun a hnode _ haddref h => ?_
  rw [hnode, bind_eq_bind, bind_some] at h
  obtain ⟨c, hr, h⟩ := bind_eq_some_iff.mp h
  split_ifs at h <;>
  · cases h
    exact .refl (hfs.onInode haddref fun _ => rfl) rfl nofun

theorem nxUnlink_section {unlinked : Bool} (h : nxUnlink fs path unlinked = some (call, fs')) : Section fs fs' [] call := by
  obtain ⟨⟨desc, fs₁⟩, hfind, h⟩ := bind_eq_some_iff.mp h
  refine lookup_section hfs hfind h ⟨rfl, rfl⟩ fun a hnode _ haddref h => ?_
  rw [hnode, bind_eq_bind, bind_some] at h
  obtain ⟨c, hr, h⟩ := bind_eq_some_iff.mp h
  split_ifs at h <;>
  · cases h
    exact .refl (hfs.onInode haddref fun _ => rfl) rfl nofun

theorem rename_section {newpath : List Char} {renames : Bool} (h : rename fs path newpath renames = some (call, fs')) : Section fs fs' [] call := by
  unfold rename at h
  split at h
  · cases h
    exact .refl hfs rfl nofun
  obtain ⟨⟨desc, fs₁⟩, hfind, h⟩ := bind_eq_some_iff.mp h
  refine lookup_section hfs hfind h ⟨rfl, rfl⟩ fun a hnode _ haddref h => ?_
  rw [hnode, bind_eq_bind, bind_some] at h
  obtain ⟨c, hr, h⟩ := bind_eq_some_iff.mp h
  split_ifs at h <;>
  · cases h
    exact .refl (hfs.onInode haddref fun _ => rfl) rfl nofun

theorem fileDup2_section {file : File} {fd : Option Nat} {opens : Bool} (h : fileDup2 fs file fd opens = some (call, fs')) : Section fs fs' [] call := by
  obtain ⟨fs₁, haddref, h⟩ := bind_eq_some_iff.mp h
  obtain ⟨c, hr, h⟩ := bind_eq_some_iff.mp h
  have hfs₁ := hfs.onInode haddref fun _ => rfl
  have hsection : ∀ call : Call, call.refs = [file.fInode] →
      (∀ b, call.noted = some b → fs₁.data b ≠ none) → Section fs fs₁ [] call := by
    intro call hrefs hnoted
    refine ⟨hfs₁, fun b => ?_, fun b => data_onInode haddref, fun g hg => hg.addref haddref, hnoted⟩
    rw [crefs_addref haddref, hrefs, count_nil]
    rfl
  split at h
  · cases h
    exact hsection _ rfl nofun
  · split at h
    · cases h
      exact hsection _ rfl fun b hb => hfs₁.child_data hr hb
    · cases h
      exact hsection _ rfl nofun

theorem registerDriver_section {fops priv : Option Nat} {answers : List Addr} (h : registerDriver fs path fops priv answers = some fs') : Section fs fs' [] .idle := by
  obtain ⟨⟨ret, node, fs₁⟩, hreserve, h⟩ := bind_eq_some_iff.mp h
  obtain ⟨hfs₁, henlarged, hreserves⟩ := inodeReserve_links hfs hreserve
  have hkept : ∀ a, fs₁.data a = none → fs.data a = none := fun a => henlarged.kept
  cases node with
  | none =>
    cases h
    exact ⟨hfs₁, fun a => by rw [henlarged.crefs]; rfl, hkept, fun g hg => hg.reserve hreserve, nofun⟩
  | some node =>
    obtain ⟨-, d, hd, hd', hsame⟩ := Fs.onInode_links h
    refine ⟨hfs₁.onInode h fun _ => rfl, fun a => ?_, fun a ha => hkept a (data_onInode h ha), fun g hg => ?_,
      nofun⟩
    · rw [count_nil, Nat.add_zero, ← henlarged.crefs]
      by_cases ha : a = node
      · subst ha
        rw [Fs.crefs_of_data hd, Fs.crefs_of_data hd']
        rfl
      · rw [Fs.crefs_congr (hsame a ha)]
        rfl
    · rcases hreserves with ⟨-, hnode⟩ | ⟨-, n, name, hnode, hnone, -⟩
      · cases hnode
      · cases hnode
        refine (hg.reserve hreserve).onInode h fun hng => ?_
        rw [hng] at hnone
        exact absurd hnone hg.there

end

end First

/-! ## Streams -/

structure Advances (fs fs' : Fs) (dir dir' : Dir) (call : Call) : Prop where
  tidy : fs'.Tidy
  count : ∀ a, fs'.crefs a + dir.refs.count a = fs.crefs a + dir'.refs.count a + call.refs.count a
  kept : ∀ a, fs'.data a = none → fs.data a = none
  aside : ∀ g, fs.Aside g → fs'.Aside g
  noted : call.noted = none

section Streams

variable {fs fs' : Fs} {dir dir' : Dir} {call : Call}

theorem readPseudodir_advances (hfs : fs.Tidy)
    (h : readPseudodir fs dir = some (dir', call, fs')) : Advances fs fs' dir dir' call := by
  obtain ⟨fdRoot, next, fPos⟩ := dir
  cases next with
  | none =>
    cases h
    exact ⟨hfs, fun _ => rfl, fun _ h => h, fun _ h => h, rfl⟩
  | some prev =>
    obtain ⟨c, hr, h⟩ := bind_eq_some_iff.mp h
    split at h
    · cases h
      refine ⟨hfs, fun a => ?_, fun _ h => h, fun _ h => h, rfl⟩
      simp only [Dir.refs, Call.refs, Option.toList, count_cons, count_nil]
      omega
    · obtain ⟨fs₁, haddref, h⟩ := bind_eq_some_iff.mp h
      cases h
      refine ⟨hfs.onInode haddref fun _ => rfl, fun a => ?_, fun _ => data_onInode haddref,
        fun g hg => hg.addref haddref, rfl⟩
      rw [crefs_addref haddref]
      simp only [Dir.refs, Call.refs, Option.toList, count_cons, count_nil]
      omega

theorem dirSeek_section {fd : Nat} {offset : Int} (hfs : fs.Tidy)
    (hnext : ∀ a, dir.next = some a → fs.data a ≠ none) (h : dirSeek fs dir fd offset = some call) :
    Section fs fs [] call := by
  obtain ⟨c, hr, h⟩ := bind_eq_some_iff.mp h
  split_ifs at h
  · cases h
    exact .refl hfs rfl nofun
  · cases h
    exact .refl hfs rfl fun a ha => hfs.child_data hr ha
  · cases h
    exact .refl hfs rfl hnext

theorem seekPseudodir_advances {curr : Option Addr} {pos offset : Int} (hfs : fs.Tidy)
    (h : seekPseudodir fs dir curr pos offset = some (dir', call, fs')) :
    Advances fs fs' dir dir' call := by
  obtain ⟨fdRoot, prev, fPos⟩ := dir
  obtain ⟨⟨curr', pos'⟩, -, h⟩ := bind_eq_some_iff.mp h
  cases curr' with
  | none =>
    cases h
    refine ⟨hfs, fun a => ?_, fun _ h => h, fun _ h => h, by cases prev <;> rfl⟩
    cases prev <;> simp only [Dir.refs, Call.refs, Option.elim, Option.toList, count_cons,
      count_nil] <;> omega
  | some next =>
    obtain ⟨fs₁, haddref, h⟩ := bind_eq_some_iff.mp h
    cases h
    refine ⟨hfs.onInode haddref fun _ => rfl, fun a => ?_, fun _ => data_onInode haddref,
      fun g hg => hg.addref haddref, by cases prev <;> rfl⟩
    rw [crefs_addref haddref]
    cases prev <;> simp only [Dir.refs, Call.refs, Option.elim, Option.toList, count_cons,
      count_nil] <;> omega

end Streams

/-! ## Renaming -/

section Renaming

variable {fs fs' : Fs} {oldpath newpath : List Char} {oldinode : Addr} {call : Call}

theorem probeSection_section {again : Bool} (hfs : fs.Tidy)
    (h : probeSection fs oldpath oldinode newpath again = some (call, fs')) :
    Section fs fs' [oldinode] call := by
  obtain ⟨⟨desc, fs₁⟩, hfind, h⟩ := bind_eq_some_iff.mp h
  refine lookup_section hfs hfind h ⟨rfl, rfl⟩ fun newinode hnode hfinds haddref h => ?_
  have hfs₁ := hfs.onInode haddref fun _ => rfl
  rw [hnode, bind_eq_bind, bind_some] at h
  obtain ⟨c, hr, h⟩ := bind_eq_some_iff.mp h
  split_ifs at h with hsame hdir hagain
  · cases h
    exact .refl hfs₁ rfl nofun
  · cases h
    exact .refl hfs₁ rfl nofun
  · cases h
    exact .refl hfs₁ rfl nofun
  · obtain ⟨⟨ret, fs₂⟩, hremove, h⟩ := bind_eq_some_iff.mp h
    cases h
    have honly : ∀ b, Finds fs₁ newpath b → b = newinode :=
      fun b hb => (Finds.of_addref haddref hb).unique hfinds
    have hleaf : ∀ b, Finds fs₁ newpath b → fs₁.target (.child b) = none := by
      intro b hb
      rw [honly b hb, Fs.target, hr]
      exact not_not.mp fun hchild => hdir (.inr hchild)
    obtain ⟨htidy, hcrefs, hfreed⟩ := inodeRemove_links hfs₁ hleaf hremove
    refine ⟨htidy, fun a => by rw [hcrefs]; rfl, fun a ha => ?_, fun g hg => hg.remove hleaf hremove,
      fun a ha => (some_ne_none a ha.symm).elim⟩
    rcases hfreed a ha with hnone | ⟨hfinds', hzero⟩
    · exact hnone
    · rw [honly a hfinds', crefs_addref haddref, count_singleton_self] at hzero
      omega

theorem mountProbeSection_section (hfs : fs.Tidy)
    (h : mountProbeSection fs oldinode newpath = some (call, fs')) :
    Section fs fs' [oldinode] call := by
  obtain ⟨⟨desc, fs₁⟩, hfind, h⟩ := bind_eq_some_iff.mp h
  refine lookup_section hfs hfind h ⟨rfl, rfl⟩ fun newinode hnode _ haddref h => ?_
  rw [hnode] at h
  cases h
  exact .refl (hfs.onInode haddref fun _ => rfl) rfl nofun

end Renaming

end Gpmx.PseudoFs
