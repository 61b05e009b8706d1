import Gpmx.Infra.Runs
import Gpmx.Vfs.Descriptors

/-!
# littlefs: open files

`lfs_vfs.c` keeps a position in each `struct file` beside the one in each `lfs_file_t`, as the FAT file
system does. A seek is handed to littlefs as it is, with its `whence`.

littlefs itself is a parameter (`Lfs`); `D` is what the flash is like during a call. `off_t` and
`lfs_soff_t` are both `int32_t`. Files are opened without `O_APPEND`.
-/

namespace Gpmx.Littlefs

open Infra Vfs

/-- The errors of littlefs, from `LFS_ERR_IO` on as in the source, with the error codes for them. -/
def errors : List (Int × Int) :=
  [(-5, -5), (-84, -14), (-2, -2), (-17, -17), (-20, -20), (-21, -21), (-39, -90), (-9, -9),
    (-27, -27), (-22, -22), (-28, -28), (-12, -12), (-61, -61), (-36, -91)]

def convertResult (ret : Int) : Int :=
  match errors.find? (·.1 == ret) with
  | some (_, status) => status
  | none => ret

/-- The functions of littlefs on a file; `pos` is a field of `lfs_file_t`. A read yields the buffer too. -/
structure Lfs (D F β : Type) where
  pos : F → Nat
  lfsFileSeek : D → F → Int → Whence → Int × F
  lfsFileRead : D → F → Nat → Int × F × List β
  lfsFileWrite : D → F → List β → Int × F
  lfsFileTruncate : D → F → Int → Int × F
  lfsFileSync : D → F → F
  lfsFileClose : D → F → Int

variable {Fd D F β : Type} (lfs : Lfs D F β) (d : D)

/-- `if (filep->f_pos != priv->file.pos)`, and the seek. -/
def resync (fPos : Nat) (file : F) : Int × F :=
  if fPos ≠ lfs.pos file then
    let (ret, file) := lfs.lfsFileSeek d file fPos .set
    (convertResult ret, file)
  else (0, file)

def littlefsRead (buflen : Nat) (fPos : Nat) (file : F) : Reply β × Nat × F :=
  let (ret, file) := resync lfs d fPos file
  if ret < 0 then (.error ret, fPos, file)
  else
    let (ret, file, buffer) := lfs.lfsFileRead d file buflen
    let ret := convertResult ret
    let fPos := if ret > 0 then fPos + ret.toNat else fPos
    (if ret < 0 then .error ret else .bytes (buffer.take ret.toNat), fPos, file)

def littlefsWrite (buffer : List β) (fPos : Nat) (file : F) : Reply β × Nat × F :=
  let (ret, file) := resync lfs d fPos file
  if ret < 0 then (.error ret, fPos, file)
  else
    let (ret, file) := lfs.lfsFileWrite d file buffer
    let ret := convertResult ret
    let fPos := if ret > 0 then fPos + ret.toNat else fPos
    (if ret < 0 then .error ret else .count ret.toNat, fPos, file)

def littlefsSeek (offset : Int) (whence : Whence) (fPos : Nat) (file : F) : Reply β × Nat × F :=
  let (ret, file) := lfs.lfsFileSeek d file offset whence
  let ret := convertResult ret
  if ret ≥ 0 then (.position ret.toNat, ret.toNat, file)
  else (.error ret, fPos, file)

def littlefsTruncate (length : Int) (fPos : Nat) (file : F) : Reply β × Nat × F :=
  let (ret, file) := lfs.lfsFileTruncate d file length
  let ret := convertResult ret
  (if ret < 0 then .error ret else .done, fPos, file)

section Descriptors

variable [DecidableEq Fd]

def littlefsClose : Mount Fd F → Fd → Option (Reply β × Mount Fd F) :=
  Mount.close fun file => convertResult (lfs.lfsFileClose d file)

def littlefsDup : Mount Fd F → Fd → Fd → Option (Reply β × Mount Fd F) := Mount.dup

/-- The position and the file of a new descriptor; `lfsOpen` is what `lfs_file_open` did. -/
def littlefsOpen (lfsOpen : Int × F) : Except Int (Nat × F) :=
  let (ret, file) := lfsOpen
  let ret := convertResult ret
  if ret < 0 then .error ret
  -- whether the sync succeeds is not looked at
  else .ok (0, lfs.lfsFileSync d file)

/-- What is done next: a file is opened for the descriptor `fd`, with the new structure `priv`, or a
descriptor is used. -/
inductive Action (Fd D F β : Type) where
  | opened (d : D) (fd : Fd) (priv : Nat) (lfsOpen : Int × F)
  | call (d : D) (fd : Fd) (call : Call Fd β)

/-- One action and what it returns; `none` where the descriptor does not allow it. -/
def act (s : Mount Fd F) : Action Fd D F β → Option (Reply β × Mount Fd F)
  | .opened d fd priv lfsOpen =>
    if s.Fresh fd priv then
      match littlefsOpen lfs d lfsOpen with
      | .ok (fPos, file) => some (.done, s.opened fd priv fPos file)
      | .error ret => some (.error ret, s)
    else none
  | .call d fd (.read n) => s.onFile fd (littlefsRead lfs d n)
  | .call d fd (.write data) => s.onFile fd (littlefsWrite lfs d data)
  | .call d fd (.seek offset whence) => s.onFile fd (littlefsSeek lfs d offset whence)
  | .call d fd (.truncate length) => s.onFile fd (littlefsTruncate lfs d length)
  | .call _ fd (.dup new) => littlefsDup s fd new
  | .call d fd .close => littlefsClose lfs d s fd

def step (s : Mount Fd F) (action : Action Fd D F β) : Option (Mount Fd F) :=
  (act lfs s action).map Prod.snd

end Descriptors

/-! ## What is asked of littlefs -/

/-- What `lfs_file_seek` takes an offset relative to: `SEEK_CUR` is the position of the `lfs_file_t`. -/
def fileBase (contents : F → List β) (file : F) : Whence → Int
  | .set => 0
  | .cur => lfs.pos file
  | .fromEnd => (contents file).length

structure Correct (contents : F → List β) : Prop where
  seek : ∀ d f f' offset whence ret, lfs.lfsFileSeek d f offset whence = (ret, f') → 0 ≤ ret →
    ret = fileBase lfs contents f whence + offset ∧ lfs.pos f' = ret ∧ contents f' = contents f
  read : ∀ d f f' n ret buffer, lfs.lfsFileRead d f n = (ret, f', buffer) → 0 ≤ ret →
    buffer.take ret.toNat = ((contents f).drop (lfs.pos f)).take n ∧
      ret = (((contents f).drop (lfs.pos f)).take n).length ∧ contents f' = contents f
  write : ∀ d f f' data ret, lfs.lfsFileWrite d f data = (ret, f') → 0 ≤ ret →
    ret ≤ data.length ∧ Written (contents f) (contents f') (lfs.pos f) (data.take ret.toNat)

end Gpmx.Littlefs

/-!
## littlefs: the positions of the descriptors

A transfer happens at the descriptor's own position, since the `lfs_file_t` is moved there before it. A
seek with `SEEK_CUR` is relative to the position of the `lfs_file_t`, where the last call of any descriptor
has left it. Where the two are the same at each such seek, every run does what descriptors with positions
of their own do.
-/

namespace Gpmx.Littlefs

open Infra Vfs

variable {Fd D F β : Type} {lfs : Lfs D F β} {contents : F → List β} {d : D}

theorem errors_neg : ∀ e ∈ errors, e.1 < 0 ∧ e.2 < 0 := by decide

variable {ret : Int} {a : Reply β}

theorem convertResult_nonneg (h : 0 ≤ ret) : convertResult ret = ret := by
  have hnone : errors.find? (·.1 == ret) = none := by
    refine List.find?_eq_none.mpr fun e he => ?_
    have hneg := (errors_neg e he).1
    simp
    omega
  simp [convertResult, hnone]

theorem convertResult_neg (h : ret < 0) : convertResult ret < 0 := by
  unfold convertResult
  split
  · next e status he => exact (errors_neg _ (List.mem_of_find?_eq_some he)).2
  · exact h

theorem nonneg_of_convertResult (h : ¬convertResult ret < 0) :
    0 ≤ ret ∧ convertResult ret = ret := by
  have hret : 0 ≤ ret := by
    by_contra hneg
    exact h (convertResult_neg (by omega))
  exact ⟨hret, convertResult_nonneg hret⟩

/-! ## One call on a file -/

theorem resync_spec (hlfs : Correct lfs contents) {pos : Nat} {file : F}
    (h : ¬(resync lfs d pos file).1 < 0) :
    lfs.pos (resync lfs d pos file).2 = pos ∧
      contents (resync lfs d pos file).2 = contents file := by
  unfold resync at h ⊢
  by_cases hpos : pos = lfs.pos file
  · rw [if_neg (not_not.mpr hpos)]
    exact ⟨hpos.symm, rfl⟩
  rw [if_pos hpos] at h ⊢
  obtain ⟨ret, file', heq⟩ : ∃ ret file', lfs.lfsFileSeek d file pos .set = (ret, file') :=
    ⟨_, _, rfl⟩
  simp only [heq] at h ⊢
  obtain ⟨hret, htell, hsame⟩ :=
    hlfs.seek _ _ _ _ _ _ heq (nonneg_of_convertResult h).1
  simp only [fileBase] at hret
  exact ⟨by omega, hsame⟩

variable [DecidableEq Fd] {t : Files Fd Nat β} {fd : Fd} {i pos : Nat} {file : F}

theorem littlefsRead_does (hlfs : Correct lfs contents) (ht : t.contents i = contents file) (n : Nat) :
    Performs contents t fd i pos file (.read n) (littlefsRead lfs d n) := by
  unfold Performs littlefsRead
  by_cases hret : (resync lfs d pos file).1 < 0
  · simp only [hret, if_true]
    exact .failed nofun
  obtain ⟨hpos, hfile⟩ := resync_spec hlfs hret
  obtain ⟨ret, file', buffer, heq⟩ : ∃ ret file' buffer,
      lfs.lfsFileRead d (resync lfs d pos file).2 n = (ret, file', buffer) := ⟨_, _, _, rfl⟩
  simp only [hret, if_false, heq]
  by_cases hneg : convertResult ret < 0
  · rw [if_pos hneg, if_neg (by omega)]
    exact .failed nofun
  obtain ⟨hnonneg, hsame⟩ := nonneg_of_convertResult hneg
  obtain ⟨hbytes, hlen, hkept⟩ := hlfs.read _ _ _ _ _ _ heq hnonneg
  rw [hpos, hfile, ← ht] at hbytes hlen
  have hmoved : (if convertResult ret > 0 then pos + (convertResult ret).toNat else pos) =
      pos + (((t.contents i).drop pos).take n).length := by
    rw [hsame]
    split_ifs <;> omega
  rw [hmoved, if_neg hneg, hsame, hbytes]
  exact .read (by rw [hkept, hfile, ht]; exact .refl _ _)

theorem littlefsWrite_does (hlfs : Correct lfs contents) (ht : t.contents i = contents file)
    (data : List β) :
    Performs contents t fd i pos file (.write data) (littlefsWrite lfs d data) := by
  unfold Performs littlefsWrite
  by_cases hret : (resync lfs d pos file).1 < 0
  · simp only [hret, if_true]
    exact .failed nofun
  obtain ⟨hpos, hfile⟩ := resync_spec hlfs hret
  obtain ⟨ret, file', heq⟩ : ∃ ret file',
      lfs.lfsFileWrite d (resync lfs d pos file).2 data = (ret, file') := ⟨_, _, rfl⟩
  simp only [hret, if_false, heq]
  by_cases hneg : convertResult ret < 0
  · rw [if_pos hneg, if_neg (by omega)]
    exact .failed nofun
  obtain ⟨hnonneg, hsame⟩ := nonneg_of_convertResult hneg
  obtain ⟨hle, hwritten⟩ := hlfs.write _ _ _ _ _ heq hnonneg
  rw [hpos, hfile, ← ht] at hwritten
  have hmoved : (if convertResult ret > 0 then pos + (convertResult ret).toNat else pos) =
      pos + ret.toNat := by
    rw [hsame]
    split_ifs <;> omega
  rw [hmoved, if_neg hneg, hsame]
  exact .write (by omega) hwritten

theorem littlefsSeek_does (hlfs : Correct lfs contents) (ht : t.contents i = contents file)
    {offset : Int} {whence : Whence} (hcur : whence = .cur → lfs.pos file = pos) :
    Performs contents t fd i pos file (.seek offset whence) (littlefsSeek lfs d offset whence) := by
  unfold Performs littlefsSeek
  obtain ⟨ret, file', heq⟩ : ∃ ret file', lfs.lfsFileSeek d file offset whence = (ret, file') :=
    ⟨_, _, rfl⟩
  simp only [heq]
  split_ifs with hok
  · obtain ⟨hnonneg, hsame⟩ := nonneg_of_convertResult (not_lt.mpr hok)
    obtain ⟨hret, -, hkept⟩ := hlfs.seek _ _ _ _ _ _ heq hnonneg
    have hbase : fileBase lfs contents file whence = t.base ⟨i, pos⟩ whence := by
      cases whence with
      | set => rfl
      | cur => exact congrArg Nat.cast (hcur rfl)
      | fromEnd => exact congrArg (fun c : List β => (c.length : Int)) ht.symm
    rw [hsame, hkept, ← ht]
    exact .seek (by omega)
  · exact .failed nofun

theorem littlefsTruncate_does (length : Int) :
    Performs contents t fd i pos file (.truncate length) (littlefsTruncate lfs d length) := by
  unfold Performs littlefsTruncate
  dsimp only
  split_ifs
  · exact .failed nofun
  · exact .truncate

/-! ## Runs -/

/-- A seek with `SEEK_CUR` finds the `lfs_file_t` at the position of its descriptor: no other descriptor
of it was used since, or it was left at the same place. -/
def InStep (lfs : Lfs D F β) (s : Mount Fd F) : Action Fd D F β → Prop
  | .call _ fd (.seek _ .cur) =>
    ∀ i pos priv, s.fds fd = some ⟨pos, i⟩ → s.priv i = some priv → lfs.pos priv.file = pos
  | _ => True

variable [Fintype Fd] {s s' : Mount Fd F}

/-- **One call** does what a descriptor with a position of its own does. -/
theorem act_does (hlfs : Correct lfs contents) (hs : Counted s) {call : Call Fd β}
    (hstep : InStep lfs s (.call d fd call : Action Fd D F β))
    (h : act lfs s (.call d fd call) = some (a, s')) :
    Counted s' ∧ Answers contents s fd call a s' := by
  cases call with
  | read n =>
    change s.onFile fd (littlefsRead lfs d n) = some (a, s') at h
    exact onFile_does contents hs h fun i pos priv _ hpriv =>
      littlefsRead_does hlfs (files_contents hpriv) n
  | write data =>
    change s.onFile fd (littlefsWrite lfs d data) = some (a, s') at h
    exact onFile_does contents hs h fun i pos priv _ hpriv =>
      littlefsWrite_does hlfs (files_contents hpriv) data
  | seek offset whence =>
    change s.onFile fd (littlefsSeek lfs d offset whence) = some (a, s') at h
    refine onFile_does contents hs h fun i pos priv hfd hpriv => ?_
    refine littlefsSeek_does hlfs (files_contents hpriv) ?_
    rintro rfl
    exact hstep i pos priv hfd hpriv
  | truncate length =>
    change s.onFile fd (littlefsTruncate lfs d length) = some (a, s') at h
    exact onFile_does contents hs h fun i pos priv _ _ => littlefsTruncate_does length
  | dup new => exact dup_spec contents hs h
  | close =>
    change s.close (fun file => convertResult (lfs.lfsFileClose d file)) fd = some (a, s') at h
    exact close_spec contents hs h

theorem opened_keeps (hs : Counted s) (hclosed : (s.files contents).Closed) {priv : Nat} {lfsOpen : Int × F}
    (h : act lfs s (.opened d fd priv lfsOpen) = some (a, s')) :
    Counted s' ∧ (s'.files contents).Closed := by
  simp only [act] at h
  split_ifs at h with hfresh
  split at h
  · cases h
    obtain ⟨hs', hfiles⟩ := opened_spec contents hs hfresh _ _
    exact ⟨hs', hfiles ▸ hclosed.opened hfresh.2.2 _ _⟩
  · cases h
    exact ⟨hs, hclosed⟩

/-- **The descriptors have positions of their own, and each `lfs_file_t` is closed with its last
descriptor**, in every run in which each `SEEK_CUR` finds the file at the position of its descriptor. -/
theorem littlefs_positions (hlfs : Correct lfs contents)
    (hrun : Reaches (step lfs) (InStep lfs) (Mount.empty : Mount Fd F) s) :
    (s.files contents).Closed ∧
      ∀ d fd call a s', InStep lfs s (.call d fd call : Action Fd D F β) →
        act lfs s (.call d fd call) = some (a, s') →
        ∃ i pos, (s.files contents).fds fd = some ⟨i, pos⟩ ∧
          (s.files contents).Does fd i pos call a (s'.files contents) := by
  have hkept : Counted s ∧ (s.files contents).Closed := by
    refine hrun.invariant (P := fun s => Counted s ∧ (s.files contents).Closed)
      ⟨counted_empty, ⟨fun _ _ h => ?_, fun _ => Nat.zero_le _⟩⟩ ?_
    · exact nomatch h
    rintro s action s' ⟨hs, hclosed⟩ hin hstep
    obtain ⟨⟨a, s''⟩, hact, rfl⟩ := Option.map_eq_some_iff.mp hstep
    cases action with
    | opened d fd priv lfsOpen => exact opened_keeps hs hclosed hact
    | call d fd call =>
      obtain ⟨hs', i, pos, hfd, hdoes⟩ := act_does hlfs hs hin hact
      exact ⟨hs', hdoes.closed hfd hclosed⟩
  exact ⟨hkept.2, fun d fd call a s' hin h => (act_does hlfs hkept.1 hin h).2⟩

/-! ## A volume in memory -/

structure Ram where
  data : List Nat
  ptr : Nat

def ramLfs : Lfs Unit Ram Nat where
  pos f := f.ptr
  lfsFileSeek _ f offset whence :=
    let base : Int := match whence with
      | .set => 0
      | .cur => f.ptr
      | .fromEnd => f.data.length
    if base + offset < 0 ∨ 2 ^ 31 ≤ base + offset then (-22, f)
    else (base + offset, { f with ptr := (base + offset).toNat })
  lfsFileRead _ f n :=
    let data := (f.data.drop f.ptr).take n
    (data.length, { f with ptr := f.ptr + data.length }, data)
  lfsFileWrite _ f data := (data.length, ⟨overwrite 0 f.data f.ptr data, f.ptr + data.length⟩)
  lfsFileTruncate _ f length := (0, { f with data := f.data.take length.toNat })
  lfsFileSync _ f := f
  lfsFileClose _ _ := 0

theorem correct_ramLfs : Correct ramLfs Ram.data where
  seek d f f' offset whence ret h hret := by
    have hbase : ∀ base : Int, (if base + offset < 0 ∨ 2 ^ 31 ≤ base + offset then (-22, f)
        else (base + offset, { f with ptr := (base + offset).toNat })) = (ret, f') →
        ret = base + offset ∧ (f'.ptr : Int) = ret ∧ f'.data = f.data := by
      intro base h
      split_ifs at h with hout
      · cases h
        omega
      · cases h
        exact ⟨rfl, by dsimp only; omega, rfl⟩
    cases whence <;> exact hbase _ h
  read d f f' n ret buffer h _ := by
    cases h
    refine ⟨?_, rfl, rfl⟩
    simp only [ramLfs, Int.toNat_natCast, List.take_length]
  write d f f' data ret h _ := by
    cases h
    rw [Int.toNat_natCast, List.take_length]
    exact ⟨Int.le_refl _, written_overwrite 0 f.data f.ptr data⟩

local instance neZeroTwo : NeZero 2 := ⟨by decide⟩

/-- Five bytes are written, the descriptor is duplicated, and the duplicate goes to the start. -/
def duplicated : List (Action (Fin 2) Unit Ram Nat) :=
  [.opened () 0 0 (0, ⟨[], 0⟩), .call () 0 (.write [1, 2, 3, 4, 5]), .call () 0 (.dup 1),
    .call () 1 (.seek 0 .set)]

theorem duplicated_inStep (s : Mount (Fin 2) Ram) :
    ∀ action ∈ duplicated, InStep ramLfs s action := by
  intro action h
  simp [duplicated] at h
  rcases h with rfl | rfl | rfl | rfl <;> trivial

/-- The duplicate moves on from its own position, in a run that is as `littlefs_positions` asks. -/
theorem littlefs_positions_ram : ∃ s, duplicated.foldlM (step ramLfs) Mount.empty = some s ∧
    (s.files Ram.data).Closed ∧
    ∃ a s', act ramLfs s (.call () 1 (.seek 2 .cur)) = some (a, s') ∧
      ∃ i pos, (s.files Ram.data).fds 1 = some ⟨i, pos⟩ ∧
        (s.files Ram.data).Does 1 i pos (.seek 2 .cur) a (s'.files Ram.data) := by
  refine ⟨_, rfl, ?_⟩
  obtain ⟨hclosed, hdoes⟩ := littlefs_positions correct_ramLfs
    (.of_foldlM_of_forall duplicated rfl fun s action h => duplicated_inStep s action h)
  refine ⟨hclosed, _, _, rfl, hdoes () 1 (.seek 2 .cur) _ _ (fun i pos priv hfd hpriv => ?_) rfl⟩
  cases hfd
  cases hpriv
  rfl

/-- The first descriptor stands behind the five bytes, the duplicate at the start: `SEEK_CUR` with the
offset 0 moves the first one to the start. -/
theorem littlefs_positions_seekCur : ¬∀ s, Reaches (step ramLfs) Always
      (Mount.empty : Mount (Fin 2) Ram) s →
    ∀ d fd call a s', act ramLfs s (.call d fd call) = some (a, s') →
      ∃ i pos, (s.files Ram.data).fds fd = some ⟨i, pos⟩ ∧
        (s.files Ram.data).Does fd i pos call a (s'.files Ram.data) := by
  intro h
  obtain ⟨i, pos, hfd, hdoes⟩ := h _ (.of_foldlM duplicated rfl) () 0 (.seek 0 .cur) _ _ rfl
  cases hfd
  exact absurd hdoes.position_eq (by decide)

end Gpmx.Littlefs
