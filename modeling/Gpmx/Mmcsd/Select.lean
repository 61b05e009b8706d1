import Gpmx.Mmcsd.Driver

/-!
# MMC/SD chip select

`active_lock` counts the selections that are open, and the chip is selected as long as it is not zero.

* `Nested l base tidy n o` — an operation that began with the counter at `l` and the log `base` is `n`
  selections deep
* one contract for each function: it leaves the depth as it is
* `balanced` — every public operation, with whatever its transfers return
-/

namespace Gpmx.Mmcsd

open Infra BitVec

variable {σ : Type} {B : Bus σ} {l : BitVec 8} {base : List Event} {tidy : Prop} {n : Nat} {o o' : Obj σ}

/-- The event is one of an operation that is balanced: the chip is selected as long as the counter is not
zero, data and commands go to a chip that is selected, and no command is refused. -/
structure Event.Good (e : Event) : Prop where
  level : e.chip = true ↔ e.lock ≠ 0
  transfer : e.kind = .transfer → e.chip = true
  accepted : e.kind ≠ .refused

/-- Inside an operation that began with the counter at `l`. Of the chip select something is said where the
operation began with nothing selected, which is `tidy`. -/
structure Nested (l : BitVec 8) (base : List Event) (tidy : Prop) (n : Nat) (o : Obj σ) : Prop where
  lock : o.activeLock = l + BitVec.ofNat 8 n
  zero : tidy → l = 0
  chip : tidy → o.chip = decide (n ≠ 0)
  log : tidy → ∃ new, o.log = new ++ base ∧ ∀ e ∈ new, e.Good

theorem add_depth_eq_zero_iff (hl : l = 0) (hn : n < 256) : l + BitVec.ofNat 8 n = 0 ↔ n = 0 := by
  subst hl
  have hadd : (0 : BitVec 8) + BitVec.ofNat 8 n = BitVec.ofNat 8 n := BitVec.zero_add _
  rw [hadd]
  refine ⟨fun heq => ?_, fun heq => heq ▸ rfl⟩
  have htoNat := congrArg BitVec.toNat heq
  rw [toNat_ofNat, Nat.mod_eq_of_lt hn] at htoNat
  exact htoNat

namespace Nested

section

variable (h : Nested l base tidy n o)
include h

theorem congr (hlock : o'.activeLock = o.activeLock) (hchip : o'.chip = o.chip)
    (hlog : o'.log = o.log) : Nested l base tidy n o' :=
  ⟨hlock.trans h.lock, h.zero, fun ht => hchip.trans (h.chip ht), fun ht => hlog ▸ h.log ht⟩

variable {kind : EventKind} {α : Type} {f : Prog (Obj σ) α}

theorem record (hgood : tidy → (⟨kind, o.activeLock, o.chip⟩ : Event).Good) :
    Nested l base tidy n (o.record kind) := by
  refine ⟨h.lock, h.zero, h.chip, fun ht => ?_⟩
  obtain ⟨new, hlog, hnew⟩ := h.log ht
  refine ⟨⟨kind, o.activeLock, o.chip⟩ :: new, congrArg _ hlog, ?_⟩
  exact List.forall_mem_cons.mpr ⟨hgood ht, hnew⟩

theorem level (ht : tidy) (hn : n < 256) : o.chip = true ↔ o.activeLock ≠ 0 := by
  rw [h.chip ht, h.lock, decide_eq_true_iff]
  exact not_congr (add_depth_eq_zero_iff (h.zero ht) hn).symm

theorem good (hn : n < 256) (htransfer : kind = .transfer → n ≠ 0) (hkind : kind ≠ .refused)
    (ht : tidy) : (⟨kind, o.activeLock, o.chip⟩ : Event).Good := by
  refine ⟨h.level ht hn, fun heq => ?_, hkind⟩
  show o.chip = true
  rw [h.chip ht, decide_eq_true_iff]
  exact htransfer heq

end

end Nested

/-! ## Selecting -/

theorem select_contract (hn : n + 1 < 256) :
    Contract (Nested l base tidy n) (mmcsdSelect B) fun _ => Nested l base tidy (n + 1) := by
  refine Contract.modify fun o h => ?_
  have hnext : Nested l base tidy (n + 1)
      { o with
        activeLock := o.activeLock + 1
        bus := B.select o.bus true
        chip := true } := by
    refine ⟨?_, h.zero, fun _ => (decide_eq_true (Nat.succ_ne_zero n)).symm, h.log⟩
    show o.activeLock + 1 = _
    rw [h.lock, BitVec.add_assoc]
    congr 1
    exact ofNat_add_ofNat n 1
  exact hnext.record (hnext.good hn (fun h => nomatch h) fun h => nomatch h)

theorem deselect_contract (hn : n < 256) :
    Contract (Nested l base tidy (n + 1)) (mmcsdDeselect B) fun _ => Nested l base tidy n := by
  refine Contract.modify fun o h => ?_
  have hlock : o.activeLock - 1 = l + BitVec.ofNat 8 n := by
    rw [h.lock]
    have hsplit : BitVec.ofNat 8 (n + 1) = BitVec.ofNat 8 n + 1 := (ofNat_add_ofNat n 1).symm
    rw [hsplit, ← BitVec.add_assoc, add_sub_cancel]
  have hzero (ht : tidy) : o.activeLock - 1 = 0 ↔ n = 0 := by
    rw [hlock]
    exact add_depth_eq_zero_iff (h.zero ht) hn
  unfold Obj.deselect
  dsimp only
  by_cases hlast : o.activeLock - 1 = 0
  · rw [if_pos hlast]
    have hnext : Nested l base tidy n
        { o with
          activeLock := o.activeLock - 1
          bus := B.select o.bus false
          chip := false } := by
      refine ⟨hlock, h.zero, fun ht => ?_, h.log⟩
      rw [decide_eq_false (not_not.mpr ((hzero ht).mp hlast))]
    exact hnext.record (hnext.good hn (fun h => nomatch h) fun h => nomatch h)
  · rw [if_neg hlast]
    have hnext : Nested l base tidy n { o with activeLock := o.activeLock - 1 } := by
      refine ⟨hlock, h.zero, fun ht => ?_, h.log⟩
      rw [decide_eq_true (mt (hzero ht).mpr hlast)]
      exact (h.chip ht).trans (decide_eq_true (Nat.succ_ne_zero n))
    exact hnext.record (hnext.good hn (fun h => nomatch h) fun h => nomatch h)

/-! ## Transfers -/

/-- The function leaves the operation as deep in selections as it is. -/
abbrev Keeps (l : BitVec 8) (base : List Event) (tidy : Prop) (n : Nat) {α : Type}
    (f : Prog (Obj σ) α) : Prop :=
  Contract (Nested l base tidy n) f fun _ => Nested l base tidy n

theorem sndblock_contract (bytes : List Byte) (hpos : n ≠ 0) (hn : n < 256) :
    Keeps l base tidy n (sndblock B bytes) := by
  intro o h sta o' hrun
  cases hrun
  have hsame : Nested l base tidy n { o with bus := (B.sndblock o.bus bytes).2 } := h.congr rfl rfl rfl
  exact hsame.record (hsame.good hn (fun _ => hpos) fun h => nomatch h)

theorem exchangeblock_contract (count : Nat) (hpos : n ≠ 0) (hn : n < 256) :
    Keeps l base tidy n (exchangeblock B count) := by
  intro o h sta o' hrun
  cases hrun
  have hsame : Nested l base tidy n { o with bus := (B.exchangeblock o.bus count).2.2 } := h.congr rfl rfl rfl
  exact hsame.record (hsame.good hn (fun _ => hpos) fun h => nomatch h)

theorem sndClocks_contract (count : Nat) (hn : n < 256) :
    Keeps l base tidy n (sndClocks B count) := by
  intro o h sta o' hrun
  cases hrun
  have hsame : Nested l base tidy n { o with bus := (B.sndblock o.bus (List.replicate count 0xff)).2 } :=
    h.congr rfl rfl rfl
  exact hsame.record (hsame.good hn (fun h => nomatch h) fun h => nomatch h)

theorem boardGetTime_contract : Keeps l base tidy n (boardGetTime B) := by
  intro o h time o' hrun
  cases hrun
  exact h.congr rfl rfl rfl

theorem modify_bind {t : Obj σ → Obj σ} {Q : α → Obj σ → Prop}
    (hf : Contract (Nested l base tidy n) f Q)
    (ht : ∀ o, (t o).activeLock = o.activeLock ∧ (t o).chip = o.chip ∧ (t o).log = o.log) :
    Contract (Nested l base tidy n) (modify t >>= fun _ => f) Q :=
  (Contract.modify fun o h => h.congr (ht o).1 (ht o).2.1 (ht o).2.2).bind fun _ => hf

theorem branch {c : Prop} [Decidable c] {f' : Prog (Obj σ) α} {Q : α → Obj σ → Prop}
    (hf : Contract (Nested l base tidy n) f Q) (hf' : Contract (Nested l base tidy n) f' Q) :
    Contract (Nested l base tidy n) (if c then f else f') Q :=
  Contract.ite (fun _ => hf) fun _ => hf'

theorem look {f : Obj σ → Prog (Obj σ) α} {Q : α → Obj σ → Prop}
    (hf : ∀ o, Contract (Nested l base tidy n) (f o) Q) : Contract (Nested l base tidy n) (get >>= f) Q :=
  (Contract.get fun _ h => h).bind hf

theorem keep (a : α) : Keeps (σ := σ) l base tidy n (pure a) :=
  Contract.pure fun _ h => h

/-! ## Responses and commands -/

theorem mmcsdRecvR1_contract (ncr : Nat) (hpos : n ≠ 0) (hn : n < 256) :
    Keeps l base tidy n (mmcsdRecvR1 B ncr) := by
  induction ncr with
  | zero => exact keep _
  | succ ncr ih =>
    refine (exchangeblock_contract 1 hpos hn).bind fun (sta, rx) => ?_
    refine modify_bind ?_ fun _ => ⟨rfl, rfl, rfl⟩
    refine branch (keep _) <| branch (keep _) ?_
    exact look fun o => branch ih <| keep _

theorem mmcsdRecvR3R7_contract (hpos : n ≠ 0) (hn : n < 256) :
    Keeps l base tidy n (mmcsdRecvR3R7 B) := by
  refine (mmcsdRecvR1_contract 10 hpos hn).bind fun sta => branch ?_ <| keep _
  refine (exchangeblock_contract 4 hpos hn).bind fun (sta, rx) => branch ?_ <| keep _
  exact modify_bind (keep _) fun _ => ⟨rfl, rfl, rfl⟩

theorem mmcsdRecv_contract (idx : Byte) (hpos : n ≠ 0) (hn : n < 256) :
    Keeps l base tidy n (mmcsdRecv B idx) :=
  branch (mmcsdRecvR3R7_contract hpos hn) <| mmcsdRecvR1_contract 10 hpos hn

theorem mmcsdCmdFrame_contract (idx : Byte) (arg : BitVec 32) (hn : n + 1 < 256) :
    Keeps l base tidy n (mmcsdCmdFrame B idx arg) := by
  have hpos : n + 1 ≠ 0 := Nat.succ_ne_zero n
  have hdeselect : Contract (Nested l base tidy (n + 1)) (mmcsdDeselect B) fun _ => Nested l base tidy n :=
    deselect_contract (by omega)
  refine (select_contract hn).bind fun _ => (sndblock_contract _ hpos hn).bind fun sta => ?_
  refine branch ?_ <| hdeselect.bind fun _ => keep _
  refine (mmcsdRecv_contract idx hpos hn).bind fun sta => look fun o => ?_
  exact hdeselect.bind fun _ => branch (keep _) <| keep _

theorem accept_contract {f : Prog (Obj σ) Int} (hn : n < 2)
    (hf : Keeps l base tidy n f) :
    Keeps l base tidy n
      (do
        let o ← get
        if 2 ≤ o.activeLock then do
          modify (Obj.record · .refused)
          pure SMBUS_BUSY
        else f) := by
  -- the test is made on the state that the command finds
  refine (Contract.get (Q := fun o' o => Nested l base tidy n o ∧ o' = o) fun _ h => ⟨h, rfl⟩).bind fun o' => ?_
  refine Contract.ite (fun hbusy => ?_) fun _ => hf.weaken (fun _ h => h.1) fun _ _ h => h
  refine (Contract.modify (Q := fun _ => Nested l base tidy n) fun o h => ?_).bind fun _ => keep _
  obtain ⟨h, rfl⟩ := h
  refine h.record fun ht => ?_
  -- from a counter at zero on, it is not two here
  rw [h.lock, h.zero ht, le_def] at hbusy
  have hadd : (0 : BitVec 8) + BitVec.ofNat 8 n = BitVec.ofNat 8 n := BitVec.zero_add _
  rw [hadd, toNat_ofNat, Nat.mod_eq_of_lt (by omega)] at hbusy
  have hle : 2 ≤ n := hbusy
  omega

theorem mmcsdCmd_contract (idx : Byte) (arg : BitVec 32) (hn : n < 2) :
    Keeps l base tidy n (mmcsdCmd B idx arg) := by
  have hframe (idx : Byte) (arg : BitVec 32) :
      Keeps l base tidy n (mmcsdCmdFrame B idx arg) :=
    mmcsdCmdFrame_contract idx arg (by omega)
  refine accept_contract hn (branch ?_ <| hframe idx arg)
  refine (accept_contract hn (hframe CMD55 0)).bind fun sta => ?_
  exact branch (keep _) <| hframe idx arg

/-! ## Data -/

theorem pollToken_contract (fuel : Nat) (token : Byte) (hpos : n ≠ 0) (hn : n < 256) :
    Keeps l base tidy n (pollToken B fuel token) := by
  induction fuel generalizing token with
  | zero =>
    intro o _ r o' hrun
    cases hrun
  | succ fuel ih =>
    refine (exchangeblock_contract 1 hpos hn).bind fun (sta, rx) => ?_
    exact branch (ih _) <| keep _

theorem receive_contract (parts size : Nat) (m : Memory Byte) (p : Nat) (hpos : n ≠ 0) (hn : n < 256) :
    Keeps l base tidy n (receive B parts size m p) := by
  induction parts generalizing size m p with
  | zero => exact keep _
  | succ parts ih =>
    refine branch (keep _) ?_
    refine (exchangeblock_contract _ hpos hn).bind fun (sta, rx) => ?_
    exact branch (keep _) <| ih _ _ _

theorem setState_contract (state : Int) :
    Keeps l base tidy n (setState (σ := σ) state) :=
  modify_bind (keep _) fun _ => ⟨rfl, rfl, rfl⟩

theorem errorToken_contract (token : Byte) (a : α) :
    Keeps (σ := σ) l base tidy n
      (do
        modify fun o => { o with errorToken := token }
        pure a) :=
  modify_bind (keep _) fun _ => ⟨rfl, rfl, rfl⟩

theorem mmcsdReadDatablock_contract (fuel : Nat) (m : Memory Byte) (p size : Nat) (hpos : n ≠ 0)
    (hn : n < 256) :
    Keeps l base tidy n (mmcsdReadDatablock B fuel m p size) := by
  refine (pollToken_contract fuel 0xff hpos hn).bind fun (sta, token) => ?_
  refine branch (errorToken_contract _ _) ?_
  refine branch (errorToken_contract _ _) ?_
  refine (receive_contract size size m p hpos hn).bind fun (sta, m) => branch (keep _) ?_
  exact (exchangeblock_contract 2 hpos hn).bind fun (sta, rx) => keep _

/-! ## Initialisation -/

theorem mmcsdCmd0Goidlestate_contract (hn : n < 2) :
    Keeps l base tidy n (mmcsdCmd0Goidlestate B) := by
  refine (sndClocks_contract 10 (by omega)).bind fun sta => ?_
  refine branch (setState_contract _) ?_
  refine (mmcsdCmd_contract CMD0 0 hn).bind fun sta => look fun o => ?_
  exact branch (setState_contract _) <| keep _

theorem hcsLoop_contract (retry : Nat) (hn : n < 2) :
    Keeps l base tidy n (hcsLoop B retry) := by
  induction retry with
  | zero => exact keep _
  | succ retry ih =>
    refine (mmcsdCmd_contract ACMD41 0x40000000 hn).bind fun sta => ?_
    refine branch (keep _) <| look fun o => ?_
    exact branch ih <| keep _

theorem sd1Loop_contract (retry : Nat) (hn : n < 2) :
    Keeps l base tidy n (sd1Loop B retry) := by
  induction retry with
  | zero => exact keep _
  | succ retry ih =>
    refine (mmcsdCmd_contract ACMD41 0 hn).bind fun sta => look fun o => ?_
    exact branch ih <| keep _

theorem mmcLoop_contract (retry : Nat) (hn : n < 2) :
    Keeps l base tidy n (mmcLoop B retry) := by
  induction retry using mmcLoop.induct with
  | case1 => exact keep _
  | case2 => exact (mmcsdCmd_contract CMD1 0 hn).bind fun _ => keep _
  | case3 retry ih =>
    refine (mmcsdCmd_contract CMD1 0 hn).bind fun sta => branch (keep _) ?_
    exact look fun o => branch ih <| keep _

theorem mmcsdCmd8Optcondvalidation_contract (hn : n < 2) :
    Keeps l base tidy n (mmcsdCmd8Optcondvalidation B) := by
  refine (mmcsdCmd_contract CMD8 0x1aa hn).bind fun sta => branch ?_ ?_
  · refine look fun o => (hcsLoop_contract _ hn).bind fun ok => ?_
    refine branch (setState_contract _) ?_
    refine (mmcsdCmd_contract CMD58 0 hn).bind fun sta => ?_
    refine branch (setState_contract _) ?_
    exact modify_bind (keep _) fun _ => ⟨rfl, rfl, rfl⟩
  · refine look fun o => (sd1Loop_contract _ hn).bind fun _ => ?_
    refine look fun o => branch ?_ ?_
    · exact modify_bind (keep _) fun _ => ⟨rfl, rfl, rfl⟩
    refine (mmcLoop_contract _ hn).bind fun ok => look fun o => ?_
    refine branch (setState_contract _) <| branch ?_ ?_
    · exact modify_bind (keep _) fun _ => ⟨rfl, rfl, rfl⟩
    · exact setState_contract _

theorem readRegister_contract (fuel : Nat) (idx : Byte) {get : Obj σ → ByteMem}
    {set : ByteMem → Obj σ → Obj σ}
    (hset : ∀ m o, (set m o).activeLock = o.activeLock ∧ (set m o).chip = o.chip ∧ (set m o).log = o.log)
    (hpos : n ≠ 0) (hn : n < 2) :
    Keeps l base tidy n (readRegister B fuel idx get set) := by
  refine (mmcsdCmd_contract idx 0 hn).bind fun sta => branch (setState_contract _) ?_
  refine look fun o => ?_
  refine (mmcsdReadDatablock_contract fuel _ 0 16 hpos (by omega)).bind fun (sta, m) => ?_
  refine branch ?_ ?_
  · exact modify_bind (setState_contract _) (hset _)
  · exact modify_bind (keep _) (hset _)

theorem returnState_contract : Keeps l base tidy n (returnState (σ := σ)) :=
  look fun _ => keep _

theorem mmcsdCmd9ReadOSD_contract (fuel : Nat) (hpos : n ≠ 0) (hn : n < 2) :
    Keeps l base tidy n (mmcsdCmd9ReadOSD B fuel) := by
  exact readRegister_contract fuel CMD9 (fun _ _ => ⟨rfl, rfl, rfl⟩) hpos hn

theorem mmcsdCmd10ReadOID_contract (fuel : Nat) (hpos : n ≠ 0) (hn : n < 2) :
    Keeps l base tidy n (mmcsdCmd10ReadOID B fuel) := by
  exact readRegister_contract fuel CMD10 (fun _ _ => ⟨rfl, rfl, rfl⟩) hpos hn

theorem identifyCard_contract (fuel : Nat) :
    Keeps l base tidy 0 (identifyCard B fuel) := by
  have hdeselect : Contract (Nested l base tidy 1) (mmcsdDeselect B) fun _ => Nested l base tidy 0 :=
    deselect_contract (by omega)
  have hfail : Contract (Nested l base tidy 1)
      (do
        mmcsdDeselect B
        returnState) fun _ => Nested l base tidy 0 := hdeselect.bind fun _ => returnState_contract
  refine (mmcsdCmd0Goidlestate_contract (by omega)).bind fun res => ?_
  refine branch returnState_contract ?_
  refine (mmcsdCmd8Optcondvalidation_contract (by omega)).bind fun res => ?_
  refine branch returnState_contract <| (select_contract (by omega)).bind fun _ => ?_
  refine (mmcsdCmd9ReadOSD_contract fuel (by omega) (by omega)).bind fun res => ?_
  refine branch hfail ?_
  refine (mmcsdCmd10ReadOID_contract fuel (by omega) (by omega)).bind fun res => ?_
  refine branch hfail <| hdeselect.bind fun _ => ?_
  exact modify_bind (setState_contract _) fun _ => ⟨rfl, rfl, rfl⟩

theorem first_deselect : Contract (fun o : Obj σ => o.activeLock = 1 ∧ o.log = base) (mmcsdDeselect B)
    fun _ => Nested 0 base tidy 0 := by
  refine Contract.modify fun o h => ?_
  have hlast : o.activeLock - 1 = 0 := by
    rw [h.1]
    rfl
  unfold Obj.deselect
  dsimp only
  rw [if_pos hlast]
  have hnext : Nested 0 base tidy 0
      { o with
        activeLock := o.activeLock - 1
        bus := B.select o.bus false
        chip := false } :=
    ⟨hlast, fun _ => rfl, fun _ => rfl, fun _ => ⟨[], h.2, fun _ h => absurd h List.not_mem_nil⟩⟩
  exact hnext.record (hnext.good (by omega) (fun h => nomatch h) fun h => nomatch h)

theorem mmcsdSpiInit_contract (fuel : Nat) :
    Contract (fun o : Obj σ => o.state = SM_STATE_RESET ∧ o.log = base) (mmcsdSpiInit B fuel)
      fun _ => Nested 0 base tidy 0 := by
  refine (Contract.get (Q := fun (o' o : Obj σ) => (o.state = SM_STATE_RESET ∧ o.log = base) ∧ o' = o)
    fun _ h => ⟨h, rfl⟩).bind fun o' => Contract.ite (fun hne => ?_) fun _ => ?_
  · refine Contract.pure fun o h => ?_
    obtain ⟨⟨hreset, -⟩, rfl⟩ := h
    exact absurd hreset hne
  refine (Contract.modify (Q := fun _ (o : Obj σ) => o.activeLock = 1 ∧ o.log = base)
    fun o h => ⟨rfl, h.1.2⟩).bind fun _ => ?_
  exact first_deselect.bind fun _ => identifyCard_contract fuel

/-! ## Blocks -/

theorem mmcsdCmd17Readsingleblock_contract (fuel : Nat) (m : Memory Byte) (pbuf : Nat) (addr : BitVec 64)
    (blocksize : BitVec 16) (hpos : n ≠ 0) (hn : n < 2) :
    Keeps l base tidy n (mmcsdCmd17Readsingleblock B fuel m pbuf addr blocksize) := by
  refine look fun o => (mmcsdCmd_contract CMD17 _ hn).bind fun sta => ?_
  refine branch ((setState_contract _).bind fun _ => keep _) ?_
  refine (pollToken_contract fuel 0xff hpos (by omega)).bind fun (sta, token) => ?_
  refine branch (errorToken_contract _ _) ?_
  refine branch (errorToken_contract _ _) ?_
  refine (receive_contract _ _ m pbuf hpos (by omega)).bind fun (sta, m) => ?_
  refine branch (keep _) ?_
  refine (exchangeblock_contract 2 hpos (by omega)).bind fun (sta, rx) => ?_
  exact branch (keep _) <| keep _

theorem mmcsdCmd17Readmultiblocks_contract (fuel pbuf : Nat) (addr : BitVec 64) (blocksize : BitVec 16)
    (numblocks : Nat) (offset : BitVec 32) (m : Memory Byte) (hpos : n ≠ 0) (hn : n < 2) :
    Keeps l base tidy n (mmcsdCmd17Readmultiblocks B fuel pbuf addr blocksize numblocks offset m) := by
  induction numblocks generalizing offset m with
  | zero => exact keep _
  | succ numblocks ih =>
    refine (mmcsdCmd_contract CMD17 _ hn).bind fun sta => ?_
    refine branch ((setState_contract _).bind fun _ => keep _) ?_
    refine (pollToken_contract fuel 0xff hpos (by omega)).bind fun (sta, token) => ?_
    refine branch (errorToken_contract _ _) ?_
    refine branch (errorToken_contract _ _) ?_
    refine (receive_contract _ _ m _ hpos (by omega)).bind fun (sta, m) => ?_
    refine branch (keep _) ?_
    refine (exchangeblock_contract 2 hpos (by omega)).bind fun (sta, rx) => ?_
    exact branch (keep _) <| ih _ _

theorem mmcsdCmd24Writesingleblock_contract (m : Memory Byte) (pbuf : Nat) (addr : BitVec 64)
    (blocksize : BitVec 16) (hpos : n ≠ 0) (hn : n < 2) :
    Keeps l base tidy n (mmcsdCmd24Writesingleblock B m pbuf addr blocksize) := by
  refine look fun o => (mmcsdCmd_contract CMD24 _ hn).bind fun sta => ?_
  refine branch (setState_contract _) ?_
  refine (sndblock_contract _ hpos (by omega)).bind fun sta => branch (keep _) ?_
  refine (sndblock_contract _ hpos (by omega)).bind fun sta => branch (keep _) ?_
  refine (exchangeblock_contract 2 hpos (by omega)).bind fun (sta, rx) => ?_
  exact branch (keep _) <| keep _

theorem pollIdle_contract (timestamp : BitVec 32) (fuel : Nat) (recv : Byte) (elapsed : BitVec 32)
    (hpos : n ≠ 0) (hn : n < 256) :
    Keeps l base tidy n (pollIdle B timestamp fuel recv elapsed) := by
  induction fuel generalizing recv elapsed with
  | zero =>
    intro o _ r o' hrun
    cases hrun
  | succ fuel ih =>
    refine (exchangeblock_contract 1 hpos hn).bind fun (sta, rx) => branch (keep _) ?_
    exact boardGetTime_contract.bind fun time => branch (ih _ _) <| keep _

theorem writeBlocks_contract (fuel : Nat) (token : Byte) (m : Memory Byte) (addr : BitVec 64)
    (blocksize : BitVec 16) (numblocks : Nat) (offset : BitVec 32) (pbuf : Nat) (hpos : n ≠ 0) (hn : n < 2) :
    Keeps l base tidy n (writeBlocks B fuel token m addr blocksize numblocks offset pbuf) := by
  induction numblocks generalizing offset pbuf with
  | zero => exact keep _
  | succ numblocks ih =>
    refine (mmcsdCmd_contract CMD24 _ hn).bind fun sta => branch (setState_contract _) ?_
    refine (sndblock_contract _ hpos (by omega)).bind fun sta => branch (keep _) ?_
    refine (sndblock_contract _ hpos (by omega)).bind fun sta => branch (keep _) ?_
    refine (exchangeblock_contract 2 hpos (by omega)).bind fun _ => ?_
    refine (exchangeblock_contract 1 hpos (by omega)).bind fun (sta, rx) => ?_
    refine branch (keep _) <| boardGetTime_contract.bind fun time => ?_
    refine (pollIdle_contract time fuel 0 0 hpos (by omega)).bind fun elapsed => ?_
    exact branch (keep _) <| ih _ _

/-! ## The public operations -/

theorem selected_contract (hf : Keeps l base tidy 1 f) : Keeps l base tidy 0 (selected B f) := by
  refine (select_contract (by omega)).bind fun _ => hf.bind fun res => ?_
  exact (deselect_contract (by omega)).bind fun _ => keep _

inductive Op where
  | init
  | readblock (m : Memory Byte) (p : Nat) (addr blocksize : BitVec 32)
  | readmultiblocks (m : Memory Byte) (p : Nat) (addr blocksize numblock : BitVec 32)
  | writeblock (m : Memory Byte) (p : Nat) (addr blocksize : BitVec 32)
  | writemultiblocks (m : Memory Byte) (p : Nat) (addr blocksize numblock : BitVec 32)

def Op.run (B : Bus σ) (fuel : Nat) : Op → Prog (Obj σ) Int
  | .init => mmcsdSpiInit B fuel
  | .readblock m p addr blocksize => do
    let (res, _) ← mmcsdSpiReadblock B fuel m p addr blocksize
    pure res
  | .readmultiblocks m p addr blocksize numblock => do
    let (res, _) ← mmcsdSpiReadmultiblocks B fuel m p addr blocksize numblock
    pure res
  | .writeblock m p addr blocksize => mmcsdSpiWriteblock B m p addr blocksize
  | .writemultiblocks m p addr blocksize numblock => mmcsdSpiWritemultiblocks B fuel m p addr blocksize numblock

/-- The states in which an operation is looked at: the initialisation begins in the reset state. -/
def Op.Entry (o : Obj σ) : Op → Prop
  | .init => o.state = SM_STATE_RESET
  | _ => True

def Op.exitLock (o : Obj σ) : Op → BitVec 8
  | .init => 0
  | _ => o.activeLock

/-- Nothing is selected when the operation begins. The initialisation sees to that itself. -/
def Op.Unselected (o : Obj σ) : Op → Prop
  | .init => True
  | _ => o.activeLock = 0 ∧ o.chip = false

theorem Op.contract (fuel : Nat) (op : Op) (hop : op ≠ .init) :
    Keeps l base tidy 0 (op.run B fuel) := by
  cases op with
  | init => exact absurd rfl hop
  | readblock m p addr blocksize =>
    exact (selected_contract (mmcsdCmd17Readsingleblock_contract fuel m p _ _ (by omega)
      (by omega))).bind fun (res, _) => keep _
  | readmultiblocks m p addr blocksize numblock =>
    exact (selected_contract (mmcsdCmd17Readmultiblocks_contract fuel p _ _ _ 0 m (by omega)
      (by omega))).bind fun (res, _) => keep _
  | writeblock m p addr blocksize =>
    exact selected_contract (mmcsdCmd24Writesingleblock_contract m p _ _ (by omega) (by omega))
  | writemultiblocks m p addr blocksize numblock =>
    exact selected_contract (writeBlocks_contract fuel _ m _ _ _ 0 p (by omega) (by omega))

theorem nested_zero (htidy : tidy → o.activeLock = 0 ∧ o.chip = false) :
    Nested o.activeLock o.log tidy 0 o := by
  refine ⟨(BitVec.add_zero _).symm, fun ht => (htidy ht).1, fun ht => (htidy ht).2, fun _ => ⟨[], rfl, ?_⟩⟩
  exact fun _ h => absurd h List.not_mem_nil

/-- **Chip-select nesting is balanced.** Whatever its transfers return, an operation that comes to an end
returns with the counter it began with, the initialisation with zero. Where nothing was selected when it
began, nothing is in the end, and all that went over the bus is good. -/
theorem balanced (B : Bus σ) (fuel : Nat) (op : Op) (o o' : Obj σ) (res : Int) (hentry : op.Entry o)
    (hrun : (op.run B fuel).run o = some (res, o')) :
    o'.activeLock = op.exitLock o ∧
      (op.Unselected o → o'.chip = false ∧ ∃ new, o'.log = new ++ o.log ∧ ∀ e ∈ new, e.Good) := by
  by_cases hop : op = .init
  · subst hop
    have hend : Nested 0 o.log True 0 o' := mmcsdSpiInit_contract fuel o ⟨hentry, rfl⟩ res o' hrun
    exact ⟨hend.lock, fun _ => ⟨hend.chip trivial, hend.log trivial⟩⟩
  · have hexit : op.exitLock o = o.activeLock := by
      cases op with
      | init => exact absurd rfl hop
      | readblock | readmultiblocks | writeblock | writemultiblocks => rfl
    have hunselected : op.Unselected o → o.activeLock = 0 ∧ o.chip = false := by
      cases op with
      | init => exact absurd rfl hop
      | readblock | readmultiblocks | writeblock | writemultiblocks => exact fun h => h
    have hend := op.contract fuel hop o (nested_zero hunselected) res o' hrun
    rw [hexit]
    exact ⟨hend.lock.trans (BitVec.add_zero _), fun ht => ⟨hend.chip ht, hend.log ht⟩⟩

/-- A bus that fails after some transfers; what it receives is zero. -/
def failingBus : Bus Nat where
  select left _ := left
  sndblock left _ := (if left = 0 then SMBUS_ERROR else SMBUS_OK, left - 1)
  exchangeblock left n := (if left = 0 then SMBUS_ERROR else SMBUS_OK, List.replicate n 0, left - 1)
  boardGetTime left := (0, left)

def failingObj (left : Nat) (log : List Event) : Obj Nat where
  r1 := 0
  dword := 0
  state := SM_STATE_READY
  activeLock := 0
  maxRetry := 10
  errorToken := 0
  ocr := 0
  type := .CT_SD1
  csd := fun _ => 0
  cid := fun _ => 0
  info := ⟨1, 512, 512, 1, 1024, 524288⟩
  bus := left
  chip := false
  log := log

/-- A block is written, and the bus fails with the start token. -/
theorem balanced_failing :
    ((Op.writeblock (fun _ => 0) 0 0 512).run failingBus 1).run (failingObj 2 []) =
      some (SMBUS_ERROR, failingObj 0 [⟨.deselect, 0, false⟩, ⟨.transfer, 1, true⟩, ⟨.deselect, 1, true⟩,
        ⟨.transfer, 2, true⟩, ⟨.transfer, 2, true⟩, ⟨.select, 2, true⟩, ⟨.select, 1, true⟩]) ∧
    (failingObj 0 []).activeLock = (Op.writeblock (fun _ => 0) 0 0 512).exitLock (failingObj 2 []) :=
  have hrun : ((Op.writeblock (fun _ => 0) 0 0 512).run failingBus 1).run (failingObj 2 []) =
      some (SMBUS_ERROR, failingObj 0 [⟨.deselect, 0, false⟩, ⟨.transfer, 1, true⟩, ⟨.deselect, 1, true⟩,
        ⟨.transfer, 2, true⟩, ⟨.transfer, 2, true⟩, ⟨.select, 2, true⟩, ⟨.select, 1, true⟩]) := rfl
  ⟨hrun, (balanced failingBus 1 (.writeblock (fun _ => 0) 0 0 512) _ _ _ trivial hrun).1⟩

end Gpmx.Mmcsd
