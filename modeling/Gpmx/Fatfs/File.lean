import Gpmx.Infra.Runs
import Gpmx.Vfs.Descriptors

/-!
# FAT: open files

`fs_fatfs_vfs.c` keeps a position in each `struct file`, and FatFs keeps one in each `FIL`. Before a
transfer the two are compared, and the `FIL` is moved where they differ.

FatFs itself is a parameter (`Ff`). What it does depends on the disk: `D` is what the disk and the free
clusters are like during a call. `off_t` is `int32_t`, `FSIZE_t` is a `DWORD`, and a position is the
number below `2^32` that both stand for.
-/

namespace Gpmx.Fatfs

open Infra Vfs

inductive FResult where
  | ok
  | diskErr
  | intErr
  | notReady
  | noFile
  | noPath
  | invalidName
  | denied
  | exist
  | invalidObject
  | writeProtected
  | invalidDrive
  | notEnabled
  | noFilesystem
  | mkfsAborted
  | timeout
  | locked
  | notEnoughCore
  | tooManyOpenFiles
  | invalidParameter
deriving DecidableEq

def convertResult : FResult → Int
  | .ok => 0
  | .noFile | .noPath | .noFilesystem => -2
  | .invalidName | .invalidParameter | .invalidDrive => -22
  | .exist | .invalidObject => -17
  | .diskErr | .notReady | .intErr | .notEnabled => -5
  | .writeProtected | .denied => -30
  | .mkfsAborted => -22
  -- the case of FR_TOO_MANY_OPEN_FILES has no break
  | .tooManyOpenFiles => -1
  | .timeout | .locked | .notEnoughCore => -1

/-- The functions of FatFs. A read yields the bytes, `*br` is their number; a write yields `*bw`. -/
structure Ff (D FIL β : Type) where
  fTell : FIL → Nat
  fSize : FIL → Nat
  fLseek : D → FIL → Nat → FResult × FIL
  fRead : D → FIL → Nat → FResult × FIL × List β
  fWrite : D → FIL → List β → FResult × FIL × Nat
  fTruncate : D → FIL → FResult × FIL
  fClose : D → FIL → FResult

variable {Fd D FIL β : Type} (ff : Ff D FIL β) (d : D)

/-- The conversion of an `off_t` to an `FSIZE_t`. -/
def toFsize (offset : Int) : Nat := (offset % 2 ^ 32).toNat

/-- `if (filep->f_pos != f_tell(&priv->file))`, and the seek. -/
def resync (fPos : Nat) (file : FIL) : Int × FIL :=
  if fPos ≠ ff.fTell file then
    let (res, file) := ff.fLseek d file fPos
    (convertResult res, file)
  else (0, file)

def fatfsRead (buflen : Nat) (fPos : Nat) (file : FIL) : Reply β × Nat × FIL :=
  let (ret, file) := resync ff d fPos file
  if ret < 0 then (.error ret, fPos, file)
  else
    let (res, file, data) := ff.fRead d file buflen
    let ret := convertResult res
    if ret = 0 then (.bytes data, fPos + data.length, file)
    else (.error ret, fPos, file)

def fatfsWrite (buffer : List β) (fPos : Nat) (file : FIL) : Reply β × Nat × FIL :=
  let (ret, file) := resync ff d fPos file
  if ret < 0 then (.error ret, fPos, file)
  else
    let (res, file, bw) := ff.fWrite d file buffer
    let ret := convertResult res
    if ret = 0 then (.count bw, fPos + bw, file)
    else (.error ret, fPos, file)

/-- `whence` is not looked at. -/
def fatfsSeek (offset : Int) (_whence : Whence) (fPos : Nat) (file : FIL) : Reply β × Nat × FIL :=
  let (res, file) := ff.fLseek d file (toFsize offset)
  let ret := convertResult res
  if ret ≥ 0 then (.position (ff.fTell file), ff.fTell file, file)
  else (.error ret, fPos, file)

def fatfsTruncate (length : Int) (fPos : Nat) (file : FIL) : Reply β × Nat × FIL :=
  let (res, file) := ff.fLseek d file (toFsize length)
  let ret := convertResult res
  if ret = 0 then
    let (res, file) := ff.fTruncate d file
    let ret := convertResult res
    (if ret = 0 then .done else .error ret, fPos, file)
  else (.error ret, fPos, file)

section Descriptors

variable [DecidableEq Fd]

def fatfsClose : Mount Fd FIL → Fd → Option (Reply β × Mount Fd FIL) :=
  Mount.close fun file => convertResult (ff.fClose d file)

def fatfsDup : Mount Fd FIL → Fd → Fd → Option (Reply β × Mount Fd FIL) := Mount.dup

/-- How `fatfs_open` ends: with a position and a file, or with an error, where `closed` says that the
file was closed on the way out. -/
inductive Opening (FIL : Type) where
  | file (fPos : Nat) (file : FIL)
  | failed (ret : Int) (closed : Bool)

/-- `fOpen` is what `f_open` did, `truncates` is `(oflags & O_TRUNC) && !(oflags & O_CREAT)`, and `append`
is `oflags & O_APPEND`. -/
def fatfsOpen (truncates append : Bool) (fOpen : FResult × FIL) : Opening FIL :=
  let (res, file) := fOpen
  let ret := convertResult res
  if ret < 0 then .failed ret false
  else
    let (ret, file) :=
      if truncates then
        let (res, file) := ff.fTruncate d file
        (convertResult res, file)
      else (ret, file)
    if ret < 0 then .failed ret true
    else if append then
      let (res, file) := ff.fLseek d file (ff.fSize file)
      let ret := convertResult res
      if ret ≥ 0 then .file (ff.fTell file) file
      else .failed ret true
    else .file 0 file

/-- What is done next: a file is opened for the descriptor `fd`, with the new structure `priv`, or a
descriptor is used. -/
inductive Action (Fd D FIL β : Type) where
  | opened (d : D) (fd : Fd) (priv : Nat) (truncates append : Bool) (fOpen : FResult × FIL)
  | call (d : D) (fd : Fd) (call : Call Fd β)

/-- One action and what it returns; `none` where the descriptor does not allow it. -/
def act (s : Mount Fd FIL) : Action Fd D FIL β → Option (Reply β × Mount Fd FIL)
  | .opened d fd priv truncates append fOpen =>
    if s.Fresh fd priv then
      match fatfsOpen ff d truncates append fOpen with
      | .file fPos file => some (.done, s.opened fd priv fPos file)
      | .failed ret false => some (.error ret, s)
      | .failed ret true =>
        some (.error ret, { s with closes := Function.update s.closes priv (s.closes priv + 1) })
    else none
  | .call d fd (.read n) => s.onFile fd (fatfsRead ff d n)
  | .call d fd (.write data) => s.onFile fd (fatfsWrite ff d data)
  | .call d fd (.seek offset whence) => s.onFile fd (fatfsSeek ff d offset whence)
  | .call d fd (.truncate length) => s.onFile fd (fatfsTruncate ff d length)
  | .call _ fd (.dup new) => fatfsDup s fd new
  | .call d fd .close => fatfsClose ff d s fd

def step (s : Mount Fd FIL) (action : Action Fd D FIL β) : Option (Mount Fd FIL) :=
  (act ff s action).map Prod.snd

end Descriptors

/-! ## What is asked of FatFs -/

structure Correct (contents : FIL → List β) : Prop where
  /-- Inside the file, `f_lseek` moves to the offset. -/
  lseek : ∀ d f f' n, ff.fLseek d f n = (.ok, f') → n ≤ (contents f).length →
    ff.fTell f' = n ∧ contents f' = contents f
  /-- Behind it, it moves there, and a file that is written is made longer; or it stops at the end, where
  the file is read only or the disk is full. -/
  lseek_behind : ∀ d f f' n, ff.fLseek d f n = (.ok, f') → (contents f).length < n →
    Written (contents f) (contents f') n [] ∧
      (ff.fTell f' = n ∨ ff.fTell f' = (contents f').length ∧ ff.fTell f' < n)
  /-- After it stopped at the end nothing can be written. -/
  lseek_full : ∀ d f f' f'' n data bw, ff.fLseek d f n = (.ok, f') → ff.fTell f' ≠ n →
    ff.fWrite d f' data = (.ok, f'', bw) → bw = 0
  read : ∀ d f f' n data, ff.fRead d f n = (.ok, f', data) →
    data = ((contents f).drop (ff.fTell f)).take n ∧ contents f' = contents f
  write : ∀ d f f' data bw, ff.fWrite d f data = (.ok, f', bw) → bw ≤ data.length ∧
    Written (contents f) (contents f') (ff.fTell f) (data.take bw)

end Gpmx.Fatfs

/-!
## FAT: the positions of the descriptors

The two positions are compared before each transfer, so a transfer happens at the descriptor's own one,
wherever other descriptors have moved the `FIL`. `fatfs_seek` takes each offset as one from the start of
the file. Where every seek is one, every run does what descriptors with positions of their own do.
-/

namespace Gpmx.Fatfs

open Infra Vfs

variable {Fd D FIL β : Type} {ff : Ff D FIL β} {contents : FIL → List β} {d : D}

variable {res : FResult} {pos : Nat}

theorem convertResult_neg : convertResult res < 0 ↔ res ≠ .ok := by
  cases res <;> decide

theorem convertResult_nonneg : convertResult res ≥ 0 ↔ res = .ok := by
  cases res <;> decide

theorem convertResult_eq_zero : convertResult res = 0 ↔ res = .ok := by
  cases res <;> decide

/-! ## One call on a file -/

/-- The file is at the position for a transfer: or it is at its end before the position, and nothing can
be transferred. -/
structure Ready (ff : Ff D FIL β) (contents : FIL → List β) (d : D) (old new : FIL) (pos : Nat) :
    Prop where
  filled : Written (contents old) (contents new) pos []
  there : ff.fTell new = pos ∨ ff.fTell new = (contents new).length ∧ ff.fTell new < pos ∧
    ∀ data new' bw, ff.fWrite d new data = (.ok, new', bw) → bw = 0

theorem ready_resync (hff : Correct ff contents) {file : FIL} (h : ¬(resync ff d pos file).1 < 0) :
    Ready ff contents d file (resync ff d pos file).2 pos := by
  unfold resync at h ⊢
  by_cases hpos : pos = ff.fTell file
  · rw [if_neg (not_not.mpr hpos)]
    exact ⟨.refl _ _, .inl hpos.symm⟩
  rw [if_pos hpos] at h ⊢
  obtain ⟨res, file', heq⟩ : ∃ res file', ff.fLseek d file pos = (res, file') := ⟨_, _, rfl⟩
  simp only [heq, convertResult_neg, not_not] at h ⊢
  subst h
  by_cases hin : pos ≤ (contents file).length
  · obtain ⟨htell, hsame⟩ := hff.lseek d file file' pos heq hin
    exact ⟨hsame ▸ .refl _ _, .inl htell⟩
  · obtain ⟨hfilled, htell⟩ := hff.lseek_behind d file file' pos heq (by omega)
    refine ⟨hfilled, htell.imp_right fun ⟨hend, hlt⟩ => ⟨hend, hlt, ?_⟩⟩
    exact fun data new' bw hw => hff.lseek_full d file file' new' pos data bw heq (by omega) hw

theorem Ready.read {old new : FIL} (h : Ready ff contents d old new pos) (n : Nat) :
    ((contents new).drop (ff.fTell new)).take n = ((contents old).drop pos).take n := by
  rcases h.there with htell | ⟨hend, hlt, -⟩
  · rw [htell, h.filled.drop_eq]
  · have hle := h.filled.le
    rw [List.drop_eq_nil_of_le (by omega), List.drop_eq_nil_of_le (by omega)]

theorem Ready.write (hff : Correct ff contents) {old new new' : FIL} {bw : Nat} {data : List β}
    (h : Ready ff contents d old new pos) (hw : ff.fWrite d new data = (.ok, new', bw)) :
    bw ≤ data.length ∧ Written (contents old) (contents new') pos (data.take bw) := by
  obtain ⟨hbw, hwritten⟩ := hff.write d new new' data bw hw
  refine ⟨hbw, ?_⟩
  rcases h.there with htell | ⟨hend, hlt, hfull⟩
  · exact h.filled.trans (htell ▸ hwritten)
  · have hzero := hfull data new' bw hw
    subst hzero
    rw [List.take_zero] at hwritten ⊢
    -- written at the end, without data: the file is the same
    have hlen := hwritten.length_le
    have hold := h.filled.length_le
    simp at hlen hold
    exact {
      put := nofun
      kept := fun j hj hout => by
        have hj' : j < (contents new).length := Nat.lt_of_lt_of_le hj h.filled.le
        exact (hwritten.kept j hj' (by simp; omega)).trans (h.filled.kept j hj hout)
      le := Nat.le_trans h.filled.le hwritten.le
      length_le := by simp; omega }

variable [DecidableEq Fd] {t : Files Fd Nat β} {fd : Fd} {i pos : Nat} {file : FIL}

theorem fatfsRead_does (hff : Correct ff contents) (ht : t.contents i = contents file) (n : Nat) :
    Performs contents t fd i pos file (.read n) (fatfsRead ff d n) := by
  unfold Performs fatfsRead
  by_cases hret : (resync ff d pos file).1 < 0
  · simp only [hret, if_true]
    exact .failed nofun
  have hready := ready_resync hff hret
  obtain ⟨res, file', data, heq⟩ :
      ∃ res file' data, ff.fRead d (resync ff d pos file).2 n = (res, file', data) := ⟨_, _, _, rfl⟩
  simp only [hret, if_false, heq]
  split_ifs with hok
  · rw [convertResult_eq_zero.mp hok] at heq
    obtain ⟨hdata, hsame⟩ := hff.read _ _ _ _ _ heq
    rw [hready.read n, ← ht] at hdata
    subst hdata
    exact .read (by rw [hsame, ht]; exact hready.filled)
  · exact .failed nofun

theorem fatfsWrite_does (hff : Correct ff contents) (ht : t.contents i = contents file)
    (data : List β) :
    Performs contents t fd i pos file (.write data) (fatfsWrite ff d data) := by
  unfold Performs fatfsWrite
  by_cases hret : (resync ff d pos file).1 < 0
  · simp only [hret, if_true]
    exact .failed nofun
  have hready := ready_resync hff hret
  obtain ⟨res, file', bw, heq⟩ :
      ∃ res file' bw, ff.fWrite d (resync ff d pos file).2 data = (res, file', bw) := ⟨_, _, _, rfl⟩
  simp only [hret, if_false, heq]
  split_ifs with hok
  · rw [convertResult_eq_zero.mp hok] at heq
    obtain ⟨hbw, hwritten⟩ := hready.write hff heq
    exact .write hbw (ht ▸ hwritten)
  · exact .failed nofun

theorem fatfsSeek_does (hff : Correct ff contents) (ht : t.contents i = contents file) {offset : Int}
    {whence : Whence} (hoff : offset < 2 ^ 31) (hpos : 0 ≤ offset)
    (hin : offset ≤ (contents file).length) (hbase : t.base ⟨i, pos⟩ whence = 0) :
    Performs contents t fd i pos file (.seek offset whence) (fatfsSeek ff d offset whence) := by
  have hconv : (toFsize offset : Int) = offset := by unfold toFsize; omega
  unfold Performs fatfsSeek
  obtain ⟨res, file', heq⟩ : ∃ res file', ff.fLseek d file (toFsize offset) = (res, file') :=
    ⟨_, _, rfl⟩
  simp only [heq]
  split_ifs with hok
  · rw [convertResult_nonneg.mp hok] at heq
    obtain ⟨htell, hsame⟩ := hff.lseek _ _ _ _ heq (by omega)
    rw [hsame, ← ht]
    exact .seek (by rw [htell, hbase, hconv, Int.zero_add])
  · exact .failed nofun

theorem fatfsTruncate_does (length : Int) :
    Performs contents t fd i pos file (.truncate length) (fatfsTruncate ff d length) := by
  unfold Performs fatfsTruncate
  dsimp only
  split_ifs
  · exact .truncate
  · exact .failed nofun
  · exact .failed nofun

/-! ## Runs -/

def OnSeek (contents : FIL → List β) (P : Files Fd Nat β → Descriptor Nat → Int → Whence → Prop)
    (s : Mount Fd FIL) : Action Fd D FIL β → Prop
  | .call _ fd (.seek offset whence) =>
    ∀ o, (s.files contents).fds fd = some o → P (s.files contents) o offset whence
  | _ => True

/-- The offset is an `off_t`, and the target of a seek is inside the file. -/
def Inside (contents : FIL → List β) : Mount Fd FIL → Action Fd D FIL β → Prop :=
  OnSeek contents fun t o offset whence => -2 ^ 31 ≤ offset ∧ offset < 2 ^ 31 ∧
    0 ≤ t.base o whence + offset ∧ t.base o whence + offset ≤ (t.contents o.file).length

/-- What the offset of a seek is relative to is the start of the file: by `SEEK_SET`, by `SEEK_CUR` from
the position 0, or by `SEEK_END` in an empty file. -/
def FromStart (contents : FIL → List β) : Mount Fd FIL → Action Fd D FIL β → Prop :=
  OnSeek contents fun t o _ whence => t.base o whence = 0

variable [Fintype Fd] {s s' : Mount Fd FIL}

/-- **One call** does what a descriptor with a position of its own does. -/
theorem act_does (hff : Correct ff contents) (hs : Counted s) {call : Call Fd β} {a : Reply β}
    (hin : Inside contents s (.call d fd call : Action Fd D FIL β))
    (hstart : FromStart contents s (.call d fd call : Action Fd D FIL β))
    (h : act ff s (.call d fd call) = some (a, s')) :
    Counted s' ∧ Answers contents s fd call a s' := by
  cases call with
  | read n =>
    change s.onFile fd (fatfsRead ff d n) = some (a, s') at h
    exact onFile_does contents hs h fun i pos priv _ hpriv =>
      fatfsRead_does hff (files_contents hpriv) n
  | write data =>
    change s.onFile fd (fatfsWrite ff d data) = some (a, s') at h
    exact onFile_does contents hs h fun i pos priv _ hpriv =>
      fatfsWrite_does hff (files_contents hpriv) data
  | seek offset whence =>
    change s.onFile fd (fatfsSeek ff d offset whence) = some (a, s') at h
    refine onFile_does contents hs h fun i pos priv hfd hpriv => ?_
    have hbase := hstart _ (files_fds hfd)
    obtain ⟨-, hoff, hpos, hsize⟩ := hin _ (files_fds hfd)
    rw [hbase, Int.zero_add] at hpos hsize
    rw [files_contents hpriv] at hsize
    exact fatfsSeek_does hff (files_contents hpriv) hoff hpos hsize hbase
  | truncate length =>
    change s.onFile fd (fatfsTruncate ff d length) = some (a, s') at h
    exact onFile_does contents hs h fun i pos priv _ _ => fatfsTruncate_does length
  | dup new => exact dup_spec contents hs h
  | close =>
    change s.close (fun file => convertResult (ff.fClose d file)) fd = some (a, s') at h
    exact close_spec contents hs h

theorem opened_keeps (hs : Counted s) (hclosed : (s.files contents).Closed) {priv : Nat} {truncates append : Bool} {fOpen : FResult × FIL} {a : Reply β}
    (h : act ff s (.opened d fd priv truncates append fOpen) = some (a, s')) :
    Counted s' ∧ (s'.files contents).Closed := by
  simp only [act] at h
  split_ifs at h with hfresh
  split at h
  · cases h
    obtain ⟨hs', hfiles⟩ := opened_spec contents hs hfresh _ _
    exact ⟨hs', hfiles ▸ hclosed.opened hfresh.2.2 _ _⟩
  · cases h
    exact ⟨hs, hclosed⟩
  · cases h
    -- the structure was never allocated, so no descriptor is for it
    have hne : ∀ j, (s.priv j).isSome → j ≠ priv := by
      rintro j hj rfl
      simp [hfresh.2.1] at hj
    refine ⟨⟨hs.owned, hs.refs, fun j hj => ?_⟩, ⟨fun fd' j hj => ?_, fun j => ?_⟩⟩
    · simpa [hne j hj] using hs.unclosed j hj
    · have hfor := shares_files.mp hj
      cases hfilep : s.fds fd' with
      | none => exact absurd (hfilep ▸ hfor) not_isFor_none
      | some filep =>
        rw [hfilep, isFor_some] at hfor
        have := hs.owned fd' filep hfilep
        simpa [Mount.files, hne j (hfor ▸ this)] using hs.unclosed j (hfor ▸ this)
    · by_cases hj : j = priv
      · subst hj; simp [Mount.files, hfresh.2.2]
      · simpa [Mount.files, hj] using hclosed.once j

/-- **The descriptors have positions of their own, and each `FIL` is closed with its last descriptor**, in
every run in which each seek is one from the start of the file. -/
theorem fatfs_positions (hff : Correct ff contents)
    (hrun : Reaches (step ff) (fun s action => Inside contents s action ∧ FromStart contents s action)
      (Mount.empty : Mount Fd FIL) s) :
    (s.files contents).Closed ∧
      ∀ d fd call a s', Inside contents s (.call d fd call : Action Fd D FIL β) →
        FromStart contents s (.call d fd call : Action Fd D FIL β) →
        act ff s (.call d fd call) = some (a, s') →
        ∃ i pos, (s.files contents).fds fd = some ⟨i, pos⟩ ∧
          (s.files contents).Does fd i pos call a (s'.files contents) := by
  have hkept : Counted s ∧ (s.files contents).Closed := by
    refine hrun.invariant (P := fun s => Counted s ∧ (s.files contents).Closed)
      ⟨counted_empty, ⟨fun _ _ h => ?_, fun _ => Nat.zero_le _⟩⟩ ?_
    · exact nomatch h
    rintro s action s' ⟨hs, hclosed⟩ ⟨hin, hstart⟩ hstep
    obtain ⟨⟨a, s''⟩, hact, rfl⟩ := Option.map_eq_some_iff.mp hstep
    cases action with
    | opened d fd priv truncates append fOpen => exact opened_keeps hs hclosed hact
    | call d fd call =>
      obtain ⟨hs', i, pos, hfd, hdoes⟩ := act_does hff hs hin hstart hact
      exact ⟨hs', hdoes.closed hfd hclosed⟩
  refine ⟨hkept.2, fun d fd call a s' hin hstart h => ?_⟩
  exact (act_does hff hkept.1 hin hstart h).2

/-! ## A volume in memory -/

structure Ram where
  data : List Nat
  ptr : Nat

def ramFf : Ff Unit Ram Nat where
  fTell f := f.ptr
  fSize f := f.data.length
  fLseek _ f n := (.ok, ⟨f.data ++ List.replicate (n - f.data.length) 0, n⟩)
  fRead _ f n :=
    let data := (f.data.drop f.ptr).take n
    (.ok, { f with ptr := f.ptr + data.length }, data)
  fWrite _ f data := (.ok, ⟨overwrite 0 f.data f.ptr data, f.ptr + data.length⟩, data.length)
  fTruncate _ f := (.ok, { f with data := f.data.take f.ptr })
  fClose _ _ := .ok

theorem correct_ramFf : Correct ramFf Ram.data where
  lseek d f f' n h hle := by
    cases h
    simp [ramFf, Nat.sub_eq_zero_of_le hle]
  lseek_behind d f f' n h hlt := by
    cases h
    refine ⟨⟨nofun, fun j hj _ => List.getElem?_append_left hj, by simp, ?_⟩, .inl rfl⟩
    simp
    omega
  lseek_full d f f' f'' n data bw h hne := by
    cases h
    exact absurd rfl hne
  read d f f' n data h := by
    cases h
    exact ⟨rfl, rfl⟩
  write d f f' data bw h := by
    cases h
    rw [List.take_length]
    exact ⟨Nat.le_refl _, written_overwrite 0 f.data f.ptr data⟩

local instance neZeroTwo : NeZero 2 := ⟨by decide⟩

def fiveBytes : List (Action (Fin 2) Unit Ram Nat) :=
  [.opened () 0 0 false false (.ok, ⟨[], 0⟩), .call () 0 (.write [1, 2, 3, 4, 5])]

theorem fiveBytes_noSeek (P : Files (Fin 2) Nat Nat → Descriptor Nat → Int → Whence → Prop)
    (s : Mount (Fin 2) Ram) : ∀ action ∈ fiveBytes, OnSeek Ram.data P s action := by
  intro action h
  simp [fiveBytes] at h
  rcases h with rfl | rfl <;> trivial

/-- A seek to the second byte, in a run that is as `fatfs_positions` asks. -/
theorem fatfs_positions_ram : ∃ s, fiveBytes.foldlM (step ramFf) Mount.empty = some s ∧
    (s.files Ram.data).Closed ∧
    ∃ a s', act ramFf s (.call () 0 (.seek 1 .set)) = some (a, s') ∧
      ∃ i pos, (s.files Ram.data).fds 0 = some ⟨i, pos⟩ ∧
        (s.files Ram.data).Does 0 i pos (.seek 1 .set) a (s'.files Ram.data) := by
  refine ⟨_, rfl, ?_⟩
  obtain ⟨hclosed, hdoes⟩ := fatfs_positions correct_ramFf
    (.of_foldlM_of_forall fiveBytes rfl fun s action h =>
      ⟨fiveBytes_noSeek _ s action h, fiveBytes_noSeek _ s action h⟩)
  refine ⟨hclosed, _, _, rfl, hdoes () 0 (.seek 1 .set) _ _ (fun o ho => ?_) (fun o _ => rfl) rfl⟩
  cases ho
  decide

/-- After five bytes were written, `SEEK_CUR` with the offset 0 goes to the start of the file. -/
theorem fatfs_positions_seekCur : ¬∀ s, Reaches (step ramFf) (Inside Ram.data)
      (Mount.empty : Mount (Fin 2) Ram) s →
    ∀ d fd call a s', Inside Ram.data s (.call d fd call : Action (Fin 2) Unit Ram Nat) →
      act ramFf s (.call d fd call) = some (a, s') →
      ∃ i pos, (s.files Ram.data).fds fd = some ⟨i, pos⟩ ∧
        (s.files Ram.data).Does fd i pos call a (s'.files Ram.data) := by
  intro h
  obtain ⟨i, pos, hfd, hdoes⟩ := h _ (.of_foldlM_of_forall fiveBytes rfl (fiveBytes_noSeek _)) () 0
    (.seek 0 .cur) _ _ (fun o ho => by cases ho; decide) rfl
  cases hfd
  exact absurd hdoes.position_eq (by decide)

end Gpmx.Fatfs
