import Gpmx.Infra.Runs
import Gpmx.Pipe.Sections
import Mathlib

/-!
# The counts of open ends

`d_nwriters` and `d_nreaders` stand for the descriptors that are open with write and with read
access; end of file, `EPIPE` and the release of the ring are decided from them. Both are an
`uint8_t`, and `pipecommon_open` never compares them with `CONFIG_DEV_PIPE_MAXUSER`.

A run is any order of the sections of any number of threads. The references of the inode are
those of the open descriptors and `held` others: lookups and opens on their way in, and closes
on their way out, which drop their reference after the driver has been called.
-/

namespace Gpmx.Pipe

open Infra Option List

def CONFIG_DEV_PIPE_MAXUSER : Nat := 255

deriving instance DecidableEq for Oflags

structure Ends where
  dev : PipeDev
  files : List Oflags
  held : Nat

namespace Ends

/-- `i_crefs` of the inode -/
def crefs (s : Ends) : Nat := s.files.length + s.held

def writers (s : Ends) : Nat := s.files.countP Oflags.wrok

def readers (s : Ends) : Nat := s.files.countP Oflags.rdok

/-- `pipecommon_allocdev`, and nobody has opened the pipe. -/
def start (w bufsize : Nat) : Ends := ⟨pipecommonAllocdev w bufsize, [], 0⟩

end Ends

inductive EndAction where
  /-- A lookup takes a reference of the inode. -/
  | acquire
  /-- `inode_release` of a reference that no open descriptor stands for. -/
  | release
  /-- The first section of `pipecommon_open`; a descriptor that waits in it is an open one. -/
  | open (malloc : Malloc) (oflags : Oflags)
  /-- A later section of an open that waits. -/
  | openAgain (oflags : Oflags)
  /-- `pipecommon_close`, from `close` or from an open whose wait failed. -/
  | close (oflags : Oflags)
  /-- A section of `pipecommon_read`. -/
  | read (nonblock : Bool) (len : Nat)
  /-- A section of `pipecommon_write`. -/
  | write (nonblock : Bool) (buffer : List UInt8) (nwritten : Nat)
  | ioctl (cmd : IoctlCmd)

def Section.opened (sec : Section) : Bool :=
  match sec.outcome with
  | .done ret => decide (0 ≤ ret)
  | .wait _ => true

/-- One action. Who opens has a reference; who closes has a descriptor. -/
def Ends.step (w : Nat) (s : Ends) : EndAction → Option Ends
  | .acquire => some { s with held := s.held + 1 }
  | .release => if 0 < s.held then some { s with held := s.held - 1 } else none
  | .open malloc oflags =>
    if 0 < s.held then
      let sec := pipecommonOpen malloc s.crefs oflags s.dev
      if sec.opened then some ⟨sec.dev, oflags :: s.files, s.held - 1⟩
      else some { s with dev := sec.dev }
    else none
  | .openAgain oflags =>
    if oflags ∈ s.files then some { s with dev := (openWait oflags s.dev).dev } else none
  | .close oflags =>
    if oflags ∈ s.files then
      some ⟨pipecommonClose s.crefs oflags s.dev, s.files.erase oflags, s.held + 1⟩
    else none
  | .read nonblock len =>
    (pipecommonRead w nonblock len s.dev).map fun sec => { s with dev := sec.dev }
  | .write nonblock buffer nwritten =>
    (writeSection w nonblock buffer nwritten s.dev).map fun sec => { s with dev := sec.dev }
  | .ioctl cmd => some { s with dev := (pipecommonIoctl s.dev cmd).1 }

/-! ## The invariant and the condition on a step -/

structure Counted (s : Ends) : Prop where
  writers : s.dev.dNwriters = s.writers
  readers : s.dev.dNreaders = s.readers

def Ends.NoMemory (s : Ends) (malloc : Malloc) : Prop :=
  (s.crefs = 1 ∧ s.dev.dBuffer.isNone) ∧ malloc s.dev.dBufsize = none

/--
An open that has its ring leaves at most `CONFIG_DEV_PIPE_MAXUSER` descriptors on each end; and
the last reference is not given up with bytes left in a ring that is to keep them (policy 1),
unless by a descriptor without access.
-/
def Within (s : Ends) : EndAction → Prop
  | .open malloc oflags => s.NoMemory malloc ∨
    (oflags.wrok = true → s.writers < CONFIG_DEV_PIPE_MAXUSER) ∧
    (oflags.rdok = true → s.readers < CONFIG_DEV_PIPE_MAXUSER)
  | .close oflags => s.crefs ≤ 1 → s.dev.policy1 = true → s.dev.dWrndx ≠ s.dev.dRdndx →
    oflags.wrok = false ∧ oflags.rdok = false
  | _ => True

/-! ## What the sections leave alone -/

variable {w : Nat} {dev dev' : PipeDev} {s s' : Ends}

structure SameEnds (dev dev' : PipeDev) : Prop where
  nwriters : dev'.dNwriters = dev.dNwriters
  nreaders : dev'.dNreaders = dev.dNreaders
  policy : dev'.policy1 = dev.policy1
  buffer : dev'.dBuffer.isSome = dev.dBuffer.isSome

theorem SameEnds.refl (dev : PipeDev) : SameEnds dev dev := ⟨rfl, rfl, rfl, rfl⟩

theorem SameEnds.trans {dev'' : PipeDev} (h : SameEnds dev dev') (h' : SameEnds dev' dev'') :
    SameEnds dev dev'' :=
  ⟨h'.nwriters.trans h.nwriters, h'.nreaders.trans h.nreaders, h'.policy.trans h.policy,
    h'.buffer.trans h.buffer⟩

theorem readLoop_sameEnds : ∀ (len : Nat) {dev : PipeDev} {r : PipeDev × List UInt8},
    readLoop w len dev = some r → SameEnds dev r.1
  | 0, dev, r, h => by
    cases h
    exact .refl dev
  | len + 1, dev, r, h => by
    rw [readLoop] at h
    split at h
    · obtain ⟨b, -, h⟩ := bind_eq_some_iff.mp h
      obtain ⟨r', hl, h⟩ := bind_eq_some_iff.mp h
      cases h
      have hadv : SameEnds dev (dev.advance w) := ⟨rfl, rfl, rfl, rfl⟩
      have hrest : SameEnds (dev.advance w) r'.1 := readLoop_sameEnds len hl
      exact hadv.trans hrest
    · cases h
      exact .refl dev

variable {nonblock : Bool} {len : Nat} {sec : Section} {oflags : Oflags}

theorem readSection_sameEnds (h : readSection w nonblock len dev = some sec) :
    SameEnds dev sec.dev := by
  unfold readSection at h
  split at h
  · split at h
    · cases h
      exact .refl dev
    · split at h <;> (cases h; exact .refl dev)
  · obtain ⟨r, hl, h⟩ := bind_eq_some_iff.mp h
    cases h
    exact readLoop_sameEnds len hl

theorem pipecommonRead_sameEnds (h : pipecommonRead w nonblock len dev = some sec) :
    SameEnds dev sec.dev := by
  unfold pipecommonRead at h
  split at h
  · cases h
    exact .refl dev
  · exact readSection_sameEnds h

theorem store_sameEnds {b : UInt8} (h : dev.store w b = some dev') : SameEnds dev dev' := by
  unfold PipeDev.store at h
  split at h
  · cases h
  · rename_i buffer hb
    split at h
    · cases h
      exact ⟨rfl, rfl, rfl, by rw [hb]; rfl⟩
    · cases h

theorem writeSection_sameEnds : ∀ (buffer : List UInt8) (nwritten : Nat)
    {dev : PipeDev} {sec : Section}, writeSection w nonblock buffer nwritten dev = some sec →
    SameEnds dev sec.dev
  | [], nwritten, dev, sec, h => by
    cases h
    exact .refl dev
  | b :: rest, nwritten, dev, sec, h => by
    rw [writeSection] at h
    split at h
    · cases h
      exact .refl dev
    · split at h
      · obtain ⟨dev1, hs, h⟩ := bind_eq_some_iff.mp h
        obtain ⟨sec1, hw, h⟩ := bind_eq_some_iff.mp h
        cases h
        have hrest : SameEnds dev1 sec1.dev := writeSection_sameEnds rest (nwritten + 1) hw
        exact (store_sameEnds hs).trans hrest
      · split at h <;> (cases h; exact .refl dev)

theorem open_cases (malloc : Malloc) (oflags : Oflags) (s : Ends) :
    s.NoMemory malloc ∧ (pipecommonOpen malloc s.crefs oflags s.dev).opened = false ∧
      (pipecommonOpen malloc s.crefs oflags s.dev).dev = s.dev ∨
    ¬s.NoMemory malloc ∧ (pipecommonOpen malloc s.crefs oflags s.dev).opened = true ∧
      ∃ buffer, (s.dev.dBuffer.isSome → buffer = s.dev.dBuffer) ∧
        (pipecommonOpen malloc s.crefs oflags s.dev).dev
          = countOpen oflags { s.dev with dBuffer := buffer } := by
  have hopened : ∀ dev, (openWait oflags dev).opened = true := by
    intro dev
    unfold openWait
    split <;> rfl
  unfold pipecommonOpen Ends.NoMemory
  by_cases hfirst : s.crefs = 1 ∧ s.dev.dBuffer.isNone = true
  · rw [if_pos hfirst]
    cases hm : malloc s.dev.dBufsize with
    | none => exact .inl ⟨⟨hfirst, rfl⟩, rfl, rfl⟩
    | some buffer =>
      refine .inr ⟨by rintro ⟨-, ⟨⟩⟩, hopened _, some buffer, ?_, openWait_dev _ _⟩
      intro hsome
      rw [isNone_iff_eq_none] at hfirst
      rw [hfirst.2] at hsome
      cases hsome
  · rw [if_neg hfirst]
    exact .inr ⟨fun h => hfirst h.1, hopened _, s.dev.dBuffer, fun _ => rfl, openWait_dev _ _⟩

/-! ## One step -/

theorem countP_erase_add {p : Oflags → Bool} {files : List Oflags} (h : oflags ∈ files) :
    (files.erase oflags).countP p + (if p oflags then 1 else 0) = files.countP p := by
  rw [(perm_cons_erase h).countP_eq p, countP_cons]

variable {b : Bool} {n m held : Nat} {a : EndAction}

theorem count_up_iff (h : n = m) :
    (if b then (n + 1) % 2 ^ 8 else n) = m + (if b then 1 else 0) ↔
      (b = true → m < CONFIG_DEV_PIPE_MAXUSER) := by
  unfold CONFIG_DEV_PIPE_MAXUSER
  cases b with
  | false => simp [h]
  | true =>
    simp only [if_true, forall_const]
    omega

theorem count_down (h : n = m + (if b then 1 else 0)) (hlt : n < 2 ^ 8) :
    (if b then (n + (2 ^ 8 - 1)) % 2 ^ 8 else n) = m := by
  cases b with
  | false => simpa using h
  | true =>
    simp only [if_true] at h ⊢
    omega

/-- The counts are those of an `uint8_t`. -/
def Narrow (dev : PipeDev) : Prop := dev.dNwriters < 2 ^ 8 ∧ dev.dNreaders < 2 ^ 8

theorem SameEnds.narrow (h : SameEnds dev dev') (hn : Narrow dev) : Narrow dev' := by
  unfold Narrow
  rw [h.nwriters, h.nreaders]
  exact hn

theorem narrow_countOpen (oflags : Oflags) (hn : Narrow dev) : Narrow (countOpen oflags dev) := by
  obtain ⟨hw, hr⟩ := hn
  constructor <;>
  · simp only [countOpen]
    split <;> omega

theorem narrow_close {crefs : Nat} (oflags : Oflags) (hn : Narrow dev) :
    Narrow (pipecommonClose crefs oflags dev) := by
  obtain ⟨hw, hr⟩ := hn
  unfold pipecommonClose
  split
  · constructor <;>
    · simp only [countClose]
      split <;> omega
  · split
    · exact ⟨Nat.zero_lt_succ _, Nat.zero_lt_succ _⟩
    · exact ⟨hw, hr⟩

theorem Counted.of_sameEnds (h : Counted s) (hd : SameEnds s.dev dev') (held : Nat) :
    Counted ⟨dev', s.files, held⟩ := by
  constructor
  · show dev'.dNwriters = s.writers
    rw [hd.nwriters, h.writers]
  · show dev'.dNreaders = s.readers
    rw [hd.nreaders, h.readers]

theorem counted_open {buffer : Option (Memory UInt8)} (h : Counted s) :
    Counted ⟨countOpen oflags { s.dev with dBuffer := buffer }, oflags :: s.files, held⟩ ↔
      (oflags.wrok = true → s.writers < CONFIG_DEV_PIPE_MAXUSER) ∧
      (oflags.rdok = true → s.readers < CONFIG_DEV_PIPE_MAXUSER) := by
  rw [← count_up_iff h.writers, ← count_up_iff h.readers]
  constructor
  · rintro ⟨hw, hr⟩
    refine ⟨hw.trans ?_, hr.trans ?_⟩ <;> exact countP_cons
  · rintro ⟨hw, hr⟩
    refine ⟨hw.trans ?_, hr.trans ?_⟩ <;> exact countP_cons.symm

theorem counted_close (h : Counted s) (hn : Narrow s.dev) (hmem : oflags ∈ s.files) :
    Counted ⟨pipecommonClose s.crefs oflags s.dev, s.files.erase oflags, held⟩ ↔
      Within s (.close oflags) := by
  have hwr := countP_erase_add (p := Oflags.wrok) hmem
  have hrd := countP_erase_add (p := Oflags.rdok) hmem
  unfold pipecommonClose
  by_cases hlast : s.crefs > 1
  · rw [if_pos hlast]
    constructor
    · intro _ hle
      omega
    · intro _
      exact ⟨count_down (h.writers.trans hwr.symm) hn.1, count_down (h.readers.trans hrd.symm) hn.2⟩
  have hnil : s.files.erase oflags = [] := by
    rw [← length_eq_zero_iff, length_erase_of_mem hmem]
    unfold Ends.crefs at hlast
    omega
  rw [if_neg hlast]
  rw [hnil, countP_nil, Nat.zero_add] at hwr hrd
  by_cases hfree : s.dev.policy1 = false ∨ s.dev.dWrndx = s.dev.dRdndx
  · rw [if_pos hfree, hnil]
    constructor
    · intro _ _ hp hne
      rw [hp] at hfree
      rcases hfree with hfalse | he
      · cases hfalse
      · exact absurd he hne
    · intro _
      exact ⟨rfl, rfl⟩
  · rw [if_neg hfree, hnil]
    have hpol : s.dev.policy1 = true := by
      cases hp : s.dev.policy1 with
      | false => exact absurd (.inl hp) hfree
      | true => rfl
    have hwcount : s.dev.dNwriters = if oflags.wrok then 1 else 0 := h.writers.trans hwr.symm
    have hrcount : s.dev.dNreaders = if oflags.rdok then 1 else 0 := h.readers.trans hrd.symm
    constructor
    · rintro ⟨hw0, hr0⟩ - - -
      have hw0 : s.dev.dNwriters = 0 := hw0
      have hr0 : s.dev.dNreaders = 0 := hr0
      rw [hwcount] at hw0
      rw [hrcount] at hr0
      constructor
      · cases hb : oflags.wrok with
        | false => rfl
        | true => simp [hb] at hw0
      · cases hb : oflags.rdok with
        | false => rfl
        | true => simp [hb] at hr0
    · intro hwithin
      obtain ⟨hw0, hr0⟩ := hwithin (by omega) hpol fun he => hfree (.inr he)
      constructor
      · show s.dev.dNwriters = 0
        rw [hwcount, hw0]
        rfl
      · show s.dev.dNreaders = 0
        rw [hrcount, hr0]
        rfl

/-- **From a state with the right counts, a step leaves the right counts exactly if it is within
the limits.** -/
theorem step_counted_iff (h : Counted s) (hn : Narrow s.dev) (hs : s.step w a = some s') :
    Narrow s'.dev ∧ (Counted s' ↔ Within s a) := by
  cases a with simp only [Ends.step] at hs
  | acquire =>
    cases hs
    exact ⟨hn, iff_of_true (h.of_sameEnds (.refl _) _) trivial⟩
  | release =>
    split at hs
    · cases hs
      exact ⟨hn, iff_of_true (h.of_sameEnds (.refl _) _) trivial⟩
    · cases hs
  | «open» malloc oflags =>
    split at hs
    · rcases open_cases malloc oflags s with ⟨hm, hopened, hdev⟩ | ⟨hm, hopened, buffer, -, hdev⟩
      · rw [hopened, hdev] at hs
        cases hs
        exact ⟨hn, iff_of_true h (.inl hm)⟩
      · rw [hopened, hdev] at hs
        cases hs
        refine ⟨narrow_countOpen oflags hn, (counted_open h).trans ?_⟩
        exact (or_iff_right hm).symm
    · cases hs
  | openAgain oflags =>
    split at hs
    · rw [openWait_dev] at hs
      cases hs
      exact ⟨hn, iff_of_true h trivial⟩
    · cases hs
  | close oflags =>
    split at hs
    · rename_i hmem
      cases hs
      exact ⟨narrow_close oflags hn, counted_close h hn hmem⟩
    · cases hs
  | read nonblock len =>
    obtain ⟨sec, hsec, rfl⟩ := map_eq_some_iff.mp hs
    have hsame := pipecommonRead_sameEnds hsec
    exact ⟨hsame.narrow hn, iff_of_true (h.of_sameEnds hsame _) trivial⟩
  | write nonblock buffer nwritten =>
    obtain ⟨sec, hsec, rfl⟩ := map_eq_some_iff.mp hs
    have hsame := writeSection_sameEnds buffer nwritten hsec
    exact ⟨hsame.narrow hn, iff_of_true (h.of_sameEnds hsame _) trivial⟩
  | ioctl cmd =>
    cases hs
    refine ⟨?_, iff_of_true ?_ trivial⟩
    · cases cmd <;> exact hn
    · cases cmd <;> exact ⟨h.writers, h.readers⟩

/-! ## What the counts decide -/

theorem readSection_eof (hempty : dev.dWrndx = dev.dRdndx)
    (h : readSection w nonblock len dev = some sec) (hret : sec.outcome = .done 0) :
    dev.dNwriters = 0 := by
  unfold readSection at h
  rw [if_pos hempty] at h
  split at h
  · omega
  · exfalso
    split at h <;>
    · cases h
      cases hret

theorem writeSection_epipe {buffer : List UInt8} {nwritten : Nat}
    (h : writeSection w nonblock buffer nwritten dev = some sec)
    (hret : sec.outcome = .done (-EPIPE)) : dev.dNreaders = 0 := by
  have hneg : ∀ n : Nat, Outcome.done n ≠ .done (-EPIPE) := by
    intro n he
    have he := Outcome.done.inj he
    unfold EPIPE at he
    omega
  cases buffer with
  | nil =>
    cases h
    exact absurd hret (hneg nwritten)
  | cons b rest =>
    rw [writeSection] at h
    split at h
    · omega
    · exfalso
      split at h
      · obtain ⟨dev', -, h⟩ := bind_eq_some_iff.mp h
        obtain ⟨sec', hw, h⟩ := bind_eq_some_iff.mp h
        cases h
        -- once a byte is written the call returns how many were
        rcases writeSection_accounts nonblock rest (nwritten + 1) hw with ⟨r, -, ho⟩ | ⟨-, ho | ⟨h0, -⟩⟩
        · rw [ho] at hret
          cases hret
        · rw [ho] at hret
          exact hneg _ hret
        · cases h0
      · split at h
        · cases h
          split at hret
          · cases hret
          · exact hneg nwritten hret
        · cases h
          cases hret

theorem step_discards (hs : s.step w a = some s') (hb : s.dev.dBuffer.isSome)
    (hb' : s'.dev.dBuffer = none) : s'.files = [] := by
  have hkeep : ∀ {dev : PipeDev}, s'.dev = dev → dev.dBuffer.isSome = s.dev.dBuffer.isSome →
      s'.files = [] := by
    intro dev hd he
    rw [hd] at hb'
    rw [hb', hb] at he
    cases he
  cases a with simp only [Ends.step] at hs
  | acquire =>
    cases hs
    exact hkeep rfl rfl
  | release =>
    split at hs
    · cases hs
      exact hkeep rfl rfl
    · cases hs
  | «open» malloc oflags =>
    split at hs
    · rcases open_cases malloc oflags s with ⟨-, hopened, hdev⟩ | ⟨-, hopened, buffer, hbuf, hdev⟩
      · rw [hopened, hdev] at hs
        cases hs
        exact hkeep rfl rfl
      · rw [hopened, hdev] at hs
        cases hs
        exact hkeep rfl (by rw [hbuf hb]; rfl)
    · cases hs
  | openAgain oflags =>
    split at hs
    · rw [openWait_dev] at hs
      cases hs
      exact hkeep rfl rfl
    · cases hs
  | close oflags =>
    split at hs
    · rename_i hmem
      cases hs
      by_cases hlast : s.crefs > 1
      · refine hkeep rfl ?_
        unfold pipecommonClose
        rw [if_pos hlast]
        rfl
      · show s.files.erase oflags = []
        rw [← length_eq_zero_iff, length_erase_of_mem hmem]
        unfold Ends.crefs at hlast
        omega
    · cases hs
  | read nonblock len =>
    obtain ⟨sec, hsec, rfl⟩ := map_eq_some_iff.mp hs
    exact hkeep rfl (pipecommonRead_sameEnds hsec).buffer
  | write nonblock buffer nwritten =>
    obtain ⟨sec, hsec, rfl⟩ := map_eq_some_iff.mp hs
    exact hkeep rfl (writeSection_sameEnds buffer nwritten hsec).buffer
  | ioctl cmd =>
    cases hs
    cases cmd <;> exact hkeep rfl rfl

/-! ## Every run within the limits -/

theorem start_counted (w bufsize : Nat) :
    Counted (Ends.start w bufsize) ∧ Narrow (Ends.start w bufsize).dev :=
  ⟨⟨rfl, rfl⟩, Nat.zero_lt_succ _, Nat.zero_lt_succ _⟩

theorem reaches_counted {bufsize : Nat}
    (h : Reaches (Ends.step w) Within (Ends.start w bufsize) s) : Counted s ∧ Narrow s.dev := by
  refine h.invariant (P := fun s => Counted s ∧ Narrow s.dev) (start_counted w bufsize) ?_
  rintro s a s' ⟨hc, hn⟩ hwithin hs
  obtain ⟨hn', hiff⟩ := step_counted_iff hc hn hs
  exact ⟨hiff.mpr hwithin, hn'⟩

/-- End of file, `EPIPE` and the release of the ring mean what they say in `s`. -/
structure EndsMeanIt (w : Nat) (s : Ends) : Prop where
  eof : ∀ {nonblock len sec}, s.dev.dWrndx = s.dev.dRdndx →
    readSection w nonblock len s.dev = some sec → sec.outcome = .done 0 → s.writers = 0
  epipe : ∀ {nonblock buffer nwritten sec}, writeSection w nonblock buffer nwritten s.dev = some sec →
    sec.outcome = .done (-EPIPE) → s.readers = 0
  discards : ∀ {a s'}, s.step w a = some s' → s.dev.dBuffer.isSome → s'.dev.dBuffer = none →
    s'.files = []

/--
**While no step goes beyond the limits, the counts are the numbers of open descriptors**, and so
what is decided from them is right: a read finds end of file only without a writer, a write
fails with `EPIPE` only without a reader, and the ring is given up only with the last
descriptor.
-/
theorem pipe_ends_counted {bufsize : Nat}
    (h : Reaches (Ends.step w) Within (Ends.start w bufsize) s) :
    s.dev.dNwriters = s.writers ∧ s.dev.dNreaders = s.readers ∧ EndsMeanIt w s := by
  obtain ⟨⟨hw, hr⟩, -⟩ := reaches_counted h
  refine ⟨hw, hr, ?_, ?_, step_discards⟩
  · intro nonblock len sec hempty hsec hret
    rw [← hw]
    exact readSection_eof hempty hsec hret
  · intro nonblock buffer nwritten sec hsec hret
    rw [← hr]
    exact writeSection_epipe hsec hret

/-! ## What happens beyond the limits -/

def wronly : Oflags := { rdok := false, wrok := true, nonblock := false }

def plenty : Malloc := fun _ => some fun _ => 0

/-- A pipe that `n` threads have opened for writing. -/
def manyWriters (w bufsize n : Nat) : Ends :=
  { dev := { pipecommonAllocdev w bufsize with dNwriters := n % 2 ^ 8, dBuffer := some fun _ => 0 }
    files := List.replicate n wronly
    held := 0 }

def openWronly : List EndAction := [.acquire, .open plenty wronly]

theorem manyWriters_succ (w bufsize n : Nat) :
    openWronly.foldlM (Ends.step w) (manyWriters w bufsize (n + 1))
      = some (manyWriters w bufsize (n + 2)) := by
  have hmod : ((n + 1) % 2 ^ 8 + 1) % 2 ^ 8 = (n + 2) % 2 ^ 8 := by omega
  have hdev : (manyWriters w bufsize (n + 2)).dev
      = countOpen wronly (manyWriters w bufsize (n + 1)).dev := by
    unfold manyWriters
    rw [← hmod]
    rfl
  show some (Ends.mk (countOpen wronly (manyWriters w bufsize (n + 1)).dev)
    (manyWriters w bufsize (n + 2)).files 0) = _
  rw [← hdev]
  rfl

theorem reaches_manyWriters (w bufsize : Nat) : ∀ n : Nat,
    Reaches (Ends.step w) Always (Ends.start w bufsize) (manyWriters w bufsize (n + 1))
  | 0 => .of_foldlM openWronly rfl
  | n + 1 => (reaches_manyWriters w bufsize n).trans (.of_foldlM openWronly (manyWriters_succ w bufsize n))

def leftOver : List EndAction :=
  let rdwr : Oflags := { rdok := true, wrok := true, nonblock := false }
  [.acquire, .open plenty rdwr, .ioctl (.policy 1), .write true [1] 0, .close rdwr]

/--
Beyond the limits the counts are wrong. With 256 writers the count is 0, and a read finds end
of file. After a close that keeps the bytes, a writer is counted that is no longer there.
-/
theorem pipe_ends_miscounted :
    (∃ s, Reaches (Ends.step 16) Always (Ends.start 16 1024) s ∧
      s.writers = 256 ∧ s.dev.dNwriters = 0 ∧ s.dev.dWrndx = s.dev.dRdndx ∧
      readSection 16 false 1 s.dev = some ⟨s.dev, [], .done 0⟩) ∧
    ∃ s, Reaches (Ends.step 16) Always (Ends.start 16 1024) s ∧
      s.writers = 0 ∧ s.dev.dNwriters = 1 := by
  constructor
  · refine ⟨manyWriters 16 1024 256, reaches_manyWriters 16 1024 255, ?_, rfl, rfl, rfl⟩
    exact countP_replicate.trans (if_pos rfl)
  · obtain ⟨s, hs, hw, hn⟩ : ∃ s, leftOver.foldlM (Ends.step 16) (Ends.start 16 1024) = some s ∧
        s.writers = 0 ∧ s.dev.dNwriters = 1 := ⟨_, rfl, rfl, rfl⟩
    exact ⟨s, .of_foldlM leftOver hs, hw, hn⟩

/-- A pipe with one writer is within the limits. -/
theorem pipe_ends_counted_one :
    (manyWriters 16 1024 1).dev.dNwriters = (manyWriters 16 1024 1).writers ∧
      (manyWriters 16 1024 1).dev.dNreaders = (manyWriters 16 1024 1).readers ∧
      EndsMeanIt 16 (manyWriters 16 1024 1) := by
  have hopen : Within ⟨pipecommonAllocdev 16 1024, [], 1⟩ (.open plenty wronly) :=
    .inr ⟨fun _ => by decide, fun h => by cases h⟩
  have hreach : Reaches (Ends.step 16) Within (Ends.start 16 1024) (manyWriters 16 1024 1) :=
    Reaches.tail (.tail .refl (a := .acquire) trivial rfl) hopen rfl
  exact pipe_ends_counted hreach

end Gpmx.Pipe
