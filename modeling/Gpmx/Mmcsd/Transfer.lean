import Gpmx.Mmcsd.Card

/-!
# MMC/SD blocks on a card

The functions for blocks, on a card that answers.

* `OnCard` — the driver's object with a card on its bus
* one lemma for each function: what it returns, and what is on the card then
* `agrees_iff` — exactly when the functions for many blocks do what those for one block do
-/

namespace Gpmx.Mmcsd

open Infra List Memory

variable {g : Geometry} {t : CardType} {l : BitVec 8} {c c' : Card} {m : Memory Byte} {o : Obj Card}

/-- An object of the driver, with the counter at `l` and a card on the bus. -/
structure OnCard (t : CardType) (l : BitVec 8) (c : Card) (o : Obj Card) : Prop where
  bus : o.bus = c
  lock : o.activeLock = l
  type : o.type = t

/-! ## Transfers -/

section

variable (h : OnCard t l c o)
include h

theorem exchangeblock_returns (n : Nat) : Returns (exchangeblock (cardBus g) n) o fun r o' =>
      r = (SMBUS_OK, (c.exchange g (List.replicate n 0xff)).2) ∧
        OnCard t l (c.exchange g (List.replicate n 0xff)).1 o' := by
  obtain ⟨rfl, rfl, rfl⟩ := h
  exact ⟨_, _, rfl, rfl, rfl, rfl, rfl⟩

theorem sndblock_returns (bytes : List Byte) : Returns (sndblock (cardBus g) bytes) o fun sta o' =>
      sta = SMBUS_OK ∧ OnCard t l (c.exchange g bytes).1 o' := by
  obtain ⟨rfl, rfl, rfl⟩ := h
  exact ⟨_, _, rfl, rfl, rfl, rfl, rfl⟩

theorem boardGetTime_returns :
    Returns (boardGetTime (cardBus g)) o fun time o' => time = 0 ∧ OnCard t l c o' := by
  obtain ⟨rfl, rfl, rfl⟩ := h
  exact ⟨_, _, rfl, rfl, rfl, rfl, rfl⟩

theorem select_returns : Returns (mmcsdSelect (cardBus g)) o fun _ o' => OnCard t (l + 1) c o' := by
  obtain ⟨rfl, rfl, rfl⟩ := h
  exact ⟨_, _, rfl, rfl, rfl, rfl⟩

theorem deselect_returns : Returns (mmcsdDeselect (cardBus g)) o fun _ o' =>
      OnCard t (l - 1) (if l - 1 = 0 then ⟨c.contents, .idle⟩ else c) o' ∧ o'.r1 = o.r1 := by
  obtain ⟨rfl, rfl, rfl⟩ := h
  refine ⟨_, _, rfl, ?_⟩
  unfold Obj.deselect
  dsimp only
  split <;> exact ⟨⟨rfl, rfl, rfl⟩, rfl⟩

end

/-! ## Commands -/

theorem mmcsdRecvR1_returns (h : OnCard t l c o) (hnext : c.exchange g [0xff] = (c', [0x00])) :
    Returns (mmcsdRecvR1 (cardBus g) 10) o fun sta o' =>
      sta = SMBUS_OK ∧ o'.r1 = 0 ∧ OnCard t l c' o' := by
  refine (exchangeblock_returns h 1).bind_eq fun o1 h1 => ?_
  rw [show List.replicate 1 (0xff : Byte) = [0xff] from rfl, hnext] at h1 ⊢
  refine Returns.modify_bind ?_
  rw [if_neg (not_not.mpr rfl), if_neg (Nat.succ_ne_zero 8)]
  refine Returns.get_bind ?_
  show Returns (if (0x00 : Byte) &&& R1_START ≠ 0 then _ else _) _ _
  rw [if_neg (by decide)]
  exact Returns.pure ⟨rfl, rfl, h1.bus, h1.lock, h1.type⟩

variable {arg : BitVec 32} {fuel b : Nat}

theorem mmcsdCmd_returns {idx : Byte} {queue : List Byte} {write : Option Nat}
    (hidx : idx = CMD17 ∨ idx = CMD24) (h : OnCard t 1 ⟨m, .idle⟩ o)
    (hcmd : (⟨m, .idle⟩ : Card).command g (frame idx arg) = .sending (0x00 :: queue) write) :
    Returns (mmcsdCmd (cardBus g) idx arg) o fun sta o' =>
      sta = SMBUS_OK ∧ OnCard t 1 ⟨m, .after queue write⟩ o' := by
  have happ : ¬ (idx = ACMD23 ∨ idx = ACMD41) := by rcases hidx with rfl | rfl <;> decide
  have hresp : ¬ (idx = CMD8 ∨ idx = CMD58) := by rcases hidx with rfl | rfl <;> decide
  have hstart : idx &&& 0xc0 = 0x40 := by rcases hidx with rfl | rfl <;> decide
  refine Returns.get_bind ?_
  rw [h.lock, if_neg (by decide), if_neg happ]
  refine (select_returns h).bind fun _ o1 h1 => (sndblock_returns h1 _).bind_eq fun o2 h2 => ?_
  rw [exchange_frame idx arg hstart, hcmd] at h2
  rw [if_pos rfl]
  have hrecv : Returns (mmcsdRecv (cardBus g) idx) o2 fun sta o' =>
      sta = SMBUS_OK ∧ o'.r1 = 0 ∧ OnCard t (1 + 1) ⟨m, .after queue write⟩ o' := by
    unfold mmcsdRecv
    rw [if_neg hresp]
    exact mmcsdRecvR1_returns h2 (exchange_sending [0x00] queue write [0xff] rfl (cons_ne_nil _ _))
  refine hrecv.bind ?_
  rintro _ o3 ⟨rfl, hr1, h3⟩
  refine Returns.get_bind ((deselect_returns h3).bind ?_)
  rintro _ o4 ⟨h4, -⟩
  rw [hr1, if_neg (by decide)]
  exact Returns.pure ⟨rfl, h4⟩

/-! ## Reading -/

theorem pollToken_returns {token : Byte} (hfuel : 0 < fuel) (h : OnCard t l c o)
    (hnext : c.exchange g [0xff] = (c', [0xfe])) :
    Returns (pollToken (cardBus g) fuel token) o fun r o' => r = (SMBUS_OK, 0xfe) ∧ OnCard t l c' o' := by
  obtain ⟨fuel, rfl⟩ := Nat.exists_eq_succ_of_ne_zero (Nat.ne_of_gt hfuel)
  refine (exchangeblock_returns h 1).bind_eq fun o1 h1 => ?_
  rw [show List.replicate 1 (0xff : Byte) = [0xff] from rfl, hnext] at h1 ⊢
  show Returns (if SMBUS_OK = SMBUS_OK ∧ (0xfe : Byte) = 0xff then _ else _) _ _
  rw [if_neg (by decide)]
  exact Returns.pure ⟨rfl, h1⟩

variable {contents : Memory Byte} {start : Nat}

theorem receive_returns {tail : List Byte} (parts : Nat) :
    ∀ (data : List Byte) (m : Memory Byte) (p : Nat) {o : Obj Card}, data.length ≤ parts →
      OnCard t l ⟨contents, .after (data ++ tail) none⟩ o →
      Returns (receive (cardBus g) parts data.length m p) o fun r o' =>
        r = (SMBUS_OK, m.write p data) ∧ OnCard t l ⟨contents, .after tail none⟩ o' := by
  induction parts with
  | zero =>
    intro data m p o hlen h
    cases length_eq_zero_iff.mp (Nat.le_zero.mp hlen)
    exact Returns.pure ⟨by rw [write_nil], h⟩
  | succ parts ih =>
    intro data m p o hlen h
    unfold receive
    by_cases hnil : data = []
    · subst hnil
      rw [length_nil, if_pos rfl]
      exact Returns.pure ⟨by rw [write_nil], h⟩
    have hpos := length_pos_iff.mpr hnil
    rw [if_neg (Nat.ne_of_gt hpos)]
    obtain ⟨n, hn⟩ : ∃ n, n = if data.length > 16 then 16 else data.length := ⟨_, rfl⟩
    rw [← hn]
    have hle : n ≤ data.length ∧ 0 < n := by
      split at hn <;> omega
    -- the part that is received now, and the rest
    have hsplit : data = data.take n ++ data.drop n := (take_append_drop n data).symm
    have htake : (data.take n).length = n := by rw [length_take]; omega
    have hdrop : (data.drop n).length = data.length - n := length_drop
    have hne : data.take n ≠ [] := length_pos_iff.mp (by omega)
    have hphase : Phase.after (data ++ tail) none = .sending (data.take n ++ (data.drop n ++ tail)) none := by
      rw [← append_assoc, take_append_drop]
      cases data with
      | nil => exact absurd rfl hnil
      | cons b data => rfl
    rw [hphase] at h
    have hexchange := exchange_sending (g := g) (m := contents) (data.take n) (data.drop n ++ tail) none
      (List.replicate n 0xff) (by rw [length_replicate, htake]) hne
    refine (exchangeblock_returns h n).bind_eq fun o1 h1 => ?_
    rw [hexchange] at h1 ⊢
    dsimp only
    rw [if_neg (not_not.mpr rfl), ← hdrop]
    refine (ih (data.drop n) _ (p + 16) (by omega) h1).weaken ?_
    rintro _ o2 ⟨rfl, h2⟩
    refine ⟨?_, h2⟩
    by_cases hlast : data.length > 16
    · rw [if_pos hlast] at hn
      conv_rhs => rw [hsplit, write_append, htake, hn]
      rw [hn]
    · rw [if_neg hlast] at hn
      rw [hn, take_length, drop_length, write_nil]

theorem command_read (hstart : g.start arg = some start) :
    (⟨m, .idle⟩ : Card).command g (frame CMD17 arg) =
      .sending (0x00 :: (0xfe :: (m.read start g.blocklen ++ [0xff, 0xff]))) none := by
  unfold Card.command
  dsimp only
  rw [arg_frame, hstart]
  exact if_pos rfl

theorem command_write (hstart : g.start arg = some start) :
    (⟨m, .idle⟩ : Card).command g (frame CMD24 arg) = .sending [0x00] (some start) := by
  unfold Card.command
  dsimp only
  rw [arg_frame, hstart]
  exact (if_neg (show ¬ CMD24 = CMD17 by decide)).trans (if_pos rfl)

/-! ## The functions for blocks -/

section Blocks

variable {contents : Memory Byte} {fuel pbuf start : Nat} {addr : BitVec 64} {blocksize : BitVec 16}

theorem checksum_returns (h : OnCard t l ⟨contents, .after [0xff, 0xff] none⟩ o) :
    Returns (exchangeblock (cardBus g) 2) o fun r o' =>
      r = (SMBUS_OK, [0xff, 0xff]) ∧ OnCard t l ⟨contents, .idle⟩ o' :=
  exchangeblock_returns h 2

theorem readToken_returns (hfuel : 0 < fuel) (data : List Byte)
    (h : OnCard t l ⟨contents, .after (0xfe :: (data ++ [0xff, 0xff])) none⟩ o) :
    Returns (pollToken (cardBus g) fuel 0xff) o fun r o' =>
      r = (SMBUS_OK, SD_START_SINGLE_BLOCK_READ) ∧
        OnCard t l ⟨contents, .after (data ++ [0xff, 0xff]) none⟩ o' :=
  pollToken_returns hfuel h (exchange_sending [0xfe] _ none [0xff] rfl (cons_ne_nil _ _))

theorem readsingleblock_returns (hfuel : 0 < fuel) (h : OnCard t 1 ⟨contents, .idle⟩ o)
    (hstart : g.start ((blockArgs t addr blocksize).1.setWidth 32) = some start)
    (hlen : (blockArgs t addr blocksize).2.toNat = g.blocklen) :
    Returns (mmcsdCmd17Readsingleblock (cardBus g) fuel m pbuf addr blocksize) o fun r o' =>
      r = (SM_STATE_READY, m.write pbuf (contents.read start g.blocklen)) ∧
        OnCard t 1 ⟨contents, .idle⟩ o' := by
  refine Returns.get_bind ?_
  rw [h.type]
  generalize blockArgs t addr blocksize = args at hstart hlen
  obtain ⟨addr, blocksize⟩ := args
  dsimp only at hstart hlen ⊢
  refine (mmcsdCmd_returns (.inl rfl) h (command_read hstart)).check fun o1 h1 => ?_
  refine (readToken_returns hfuel _ h1).bind_eq fun o2 h2 => ?_
  rw [if_neg (not_not.mpr rfl), if_neg (not_not.mpr rfl), hlen]
  have hdata := receive_returns (g := g) g.blocklen (contents.read start g.blocklen) m pbuf
    (Nat.le_of_eq (length_read ..)) h2
  rw [length_read] at hdata
  refine hdata.bind_eq fun o3 h3 => ?_
  rw [if_neg (not_not.mpr rfl)]
  refine (checksum_returns h3).bind_eq fun o4 h4 => ?_
  rw [if_neg (not_not.mpr rfl)]
  exact Returns.pure ⟨rfl, h4⟩

theorem readmultiblocks_one_returns (hfuel : 0 < fuel) (h : OnCard t 1 ⟨contents, .idle⟩ o)
    (hstart : g.start (addr.setWidth 32) = some start) (hlen : blocksize.toNat = g.blocklen) :
    Returns (mmcsdCmd17Readmultiblocks (cardBus g) fuel pbuf addr blocksize 1 0 m) o fun r o' =>
      r = (SM_STATE_READY, m.write pbuf (contents.read start g.blocklen)) ∧
        OnCard t 1 ⟨contents, .idle⟩ o' := by
  have haddr : addr + (0 : BitVec 32).setWidth 64 = addr := BitVec.add_zero addr
  have hzero : (0 : BitVec 32) * blocksize.setWidth 32 = 0 := BitVec.zero_mul
  have hptr : pbuf + ((0 : BitVec 32) * blocksize.setWidth 32).toNat = pbuf := by
    rw [hzero]
    rfl
  unfold mmcsdCmd17Readmultiblocks
  rw [haddr]
  refine (mmcsdCmd_returns (.inl rfl) h (command_read hstart)).check fun o1 h1 => ?_
  refine (readToken_returns hfuel _ h1).bind_eq fun o2 h2 => ?_
  dsimp only
  rw [if_neg (not_not.mpr rfl), if_neg (not_not.mpr rfl), hptr, hlen]
  have hdata := receive_returns (g := g) g.blocklen (contents.read start g.blocklen) m pbuf
    (Nat.le_of_eq (length_read ..)) h2
  rw [length_read] at hdata
  refine hdata.bind_eq fun o3 h3 => ?_
  rw [if_neg (not_not.mpr rfl)]
  refine (checksum_returns h3).bind_eq fun o4 h4 => ?_
  rw [if_neg (not_not.mpr rfl)]
  exact Returns.pure ⟨rfl, h4⟩

theorem writesingleblock_returns (h : OnCard t 1 ⟨contents, .idle⟩ o)
    (hstart : g.start ((blockArgs t addr blocksize).1.setWidth 32) = some start)
    (hlen : (blockArgs t addr blocksize).2.toNat = g.blocklen) :
    Returns (mmcsdCmd24Writesingleblock (cardBus g) m pbuf addr blocksize) o fun res o' =>
      res = SM_STATE_READY ∧
        OnCard t 1 ⟨contents.write start (m.read pbuf g.blocklen), .sending [0x05] none⟩ o' := by
  refine Returns.get_bind ?_
  rw [h.type]
  generalize blockArgs t addr blocksize = args at hstart hlen
  obtain ⟨addr, blocksize⟩ := args
  dsimp only at hstart hlen ⊢
  refine (mmcsdCmd_returns (.inr rfl) h (command_write hstart)).check fun o1 h1 => ?_
  rw [hlen]
  refine (sndblock_returns (g := g) h1 [0xff, 0xfe]).check fun o2 h2 => ?_
  -- the first of the two bytes is passed over
  have htoken : ((⟨contents, .token start⟩ : Card).exchange g [0xff, 0xfe]).1 = ⟨contents, .data start []⟩ := rfl
  refine (sndblock_returns (htoken ▸ h2) (m.read pbuf g.blocklen)).check fun o3 h3 => ?_
  refine (exchangeblock_returns h3 2).bind_eq fun o4 h4 => ?_
  rw [exchange_block start _ (length_read ..)] at h4
  rw [if_neg (not_not.mpr rfl)]
  exact Returns.pure ⟨rfl, h4⟩

theorem writemultiblocks_one_returns (hfuel : 0 < fuel) (h : OnCard t 1 ⟨contents, .idle⟩ o)
    (hstart : g.start (addr.setWidth 32) = some start) (hlen : blocksize.toNat = g.blocklen) :
    Returns (mmcsdCmd24Writemultiblocks (cardBus g) fuel m pbuf addr blocksize 1) o fun res o' =>
      res = SM_STATE_READY ∧ OnCard t 1 ⟨contents.write start (m.read pbuf g.blocklen), .idle⟩ o' := by
  have haddr : addr + (0 : BitVec 32).setWidth 64 = addr := BitVec.add_zero addr
  unfold mmcsdCmd24Writemultiblocks
  rw [if_pos rfl]
  unfold writeBlocks
  rw [haddr]
  refine (mmcsdCmd_returns (.inr rfl) h (command_write hstart)).check fun o1 h1 => ?_
  rw [hlen]
  refine (sndblock_returns (g := g) h1 [0xfe]).check fun o2 h2 => ?_
  have htoken : ((⟨contents, .token start⟩ : Card).exchange g [0xfe]).1 = ⟨contents, .data start []⟩ := rfl
  refine (sndblock_returns (htoken ▸ h2) (m.read pbuf g.blocklen)).check fun o3 h3 => ?_
  refine (exchangeblock_returns h3 2).bind_eq fun o4 h4 => ?_
  rw [exchange_block start _ (length_read ..)] at h4
  refine (exchangeblock_returns (g := g) h4 1).bind_eq fun o5 h5 => ?_
  -- the response says that the block has been accepted
  show Returns (if (0x05 : Byte) &&& 0x1f ≠ 0x05 then _ else _) _ _
  rw [if_neg (by decide)]
  refine (boardGetTime_returns (g := g) h5).bind_eq fun o6 h6 => ?_
  have hidle : Returns (pollIdle (cardBus g) 0 fuel 0 0) o6 fun elapsed o' => elapsed = 0 ∧
      OnCard t 1 ⟨contents.write start (m.read pbuf g.blocklen), .idle⟩ o' := by
    obtain ⟨fuel, rfl⟩ := Nat.exists_eq_succ_of_ne_zero (Nat.ne_of_gt hfuel)
    refine (exchangeblock_returns (g := g) h6 1).bind_eq fun o7 h7 => ?_
    show Returns (if (0xff : Byte) = 0xff then pure 0 else _) _ _
    rw [if_pos rfl]
    exact Returns.pure ⟨rfl, h7⟩
  refine hidle.bind_eq fun o7 h7 => ?_
  rw [if_neg (by decide)]
  exact Returns.pure ⟨rfl, h7⟩

theorem writemultiblocks_returns {numblocks : Nat} (hnum : 1 < numblocks)
    (h : OnCard t 1 ⟨contents, .idle⟩ o) (hstart : g.start (addr.setWidth 32) = some start) :
    Returns (mmcsdCmd24Writemultiblocks (cardBus g) fuel m pbuf addr blocksize numblocks) o fun res o' =>
      res = SM_STATE_ERROR ∧ OnCard t 1 ⟨contents, .ignoring⟩ o' := by
  obtain ⟨numblocks, rfl⟩ := Nat.exists_eq_succ_of_ne_zero (Nat.ne_of_gt (Nat.lt_trans Nat.zero_lt_one hnum))
  have haddr : addr + (0 : BitVec 32).setWidth 64 = addr := BitVec.add_zero addr
  unfold mmcsdCmd24Writemultiblocks
  rw [if_neg (Nat.ne_of_gt hnum)]
  unfold writeBlocks
  rw [haddr]
  refine (mmcsdCmd_returns (.inr rfl) h (command_write hstart)).check fun o1 h1 => ?_
  refine (sndblock_returns (g := g) h1 [0xfc]).check fun o2 h2 => ?_
  have htoken : ((⟨contents, .token start⟩ : Card).exchange g [0xfc]).1 = ⟨contents, .ignoring⟩ := rfl
  refine (sndblock_returns (htoken ▸ h2) (m.read pbuf blocksize.toNat)).check fun o3 h3 => ?_
  rw [exchange_ignoring] at h3
  refine (exchangeblock_returns h3 2).bind_eq fun o4 h4 => ?_
  rw [exchange_ignoring] at h4
  refine (exchangeblock_returns h4 1).bind_eq fun o5 h5 => ?_
  rw [exchange_ignoring] at h5 ⊢
  show Returns (if (0xff : Byte) &&& 0x1f ≠ 0x05 then _ else _) _ _
  rw [if_pos (by decide)]
  exact Returns.pure ⟨rfl, h5⟩

end Blocks

/-! ## The public operations -/

theorem selected_returns {α : Type} {f : Prog (Obj Card) α} {Q : α → Prop} (h : OnCard t 0 c o)
    (hf : ∀ o', OnCard t 1 c o' → Returns f o' fun a o' => Q a ∧ ∃ phase, OnCard t 1 ⟨contents, phase⟩ o') :
    Returns (selected (cardBus g) f) o fun a o' => Q a ∧ OnCard t 0 ⟨contents, .idle⟩ o' := by
  refine (select_returns h).bind fun _ o1 h1 => (hf o1 h1).bind ?_
  rintro a o2 ⟨ha, phase, h2⟩
  refine (deselect_returns h2).bind ?_
  rintro _ o3 ⟨h3, -⟩
  exact Returns.pure ⟨ha, h3⟩

namespace Geometry

variable (g)

/-- The first byte of block `b`, as the functions for one block take it. -/
def byteAddr (b : Nat) : BitVec 32 := BitVec.ofNat 32 (b * g.blocklen)

/-- The block length, as the driver has it in `blocklen_RD`. -/
def blocklenRD : BitVec 32 := BitVec.ofNat 32 g.blocklen

/-- The block that the functions for one block find at `byteAddr b`. -/
def found (b : Nat) : Nat := b * g.blocklen % 2 ^ 32 / g.blocklen

variable {g}

theorem blocklenRD_toNat : (g.blocklenRD.setWidth 16).toNat = g.blocklen := by
  have hlt := g.blocklen_lt
  unfold blocklenRD
  rw [BitVec.toNat_setWidth, BitVec.toNat_ofNat, Nat.mod_mod_of_dvd _ (by decide), Nat.mod_eq_of_lt hlt]

theorem found_of_lt (h : b * g.blocklen < 2 ^ 32) : g.found b = b := by
  unfold found
  rw [Nat.mod_eq_of_lt h, Nat.mul_div_cancel _ g.blocklen_pos]

theorem found_le (b : Nat) : g.found b ≤ b := by
  exact Nat.div_le_of_le_mul ((Nat.mod_le _ _).trans (Nat.le_of_eq (Nat.mul_comm ..)))

theorem mul_lt_of_standard (hb : b < g.blocks) (htype : g.type ≠ .CT_SDHC) :
    b * g.blocklen < 2 ^ 32 :=
  Nat.lt_of_lt_of_le (Nat.mul_lt_mul_of_pos_right hb g.blocklen_pos) (g.standard htype)

theorem start_unitAddr (hb : b < g.blocks) : g.start (g.unitAddr b) = some (b * g.blocklen) := by
  unfold start unitAddr
  by_cases htype : g.type = .CT_SDHC
  · have hlt := Nat.lt_trans hb g.blocks_lt
    rw [if_pos htype, if_pos htype, BitVec.toNat_ofNat, Nat.mod_eq_of_lt hlt, if_pos hb]
  · have hlt := mul_lt_of_standard hb htype
    rw [if_neg htype, if_neg htype, BitVec.toNat_ofNat, Nat.mod_eq_of_lt hlt, Nat.mul_mod_left,
      Nat.mul_div_cancel _ g.blocklen_pos, if_pos ⟨rfl, hb⟩]

theorem blockArgs_byteAddr (hb : b < g.blocks) :
    g.start ((blockArgs g.type ((g.byteAddr b).setWidth 64) (g.blocklenRD.setWidth 16)).1.setWidth 32) =
        some (g.found b * g.blocklen) ∧
      (blockArgs g.type ((g.byteAddr b).setWidth 64) (g.blocklenRD.setWidth 16)).2.toNat = g.blocklen := by
  have hfound := Nat.lt_of_le_of_lt (g.found_le b) hb
  unfold blockArgs
  by_cases htype : g.type = .CT_SDHC
  · have hlen := g.highCapacity htype
    rw [if_pos htype]
    refine ⟨?_, hlen.symm⟩
    have harg : (((g.byteAddr b).setWidth 64 / 512).setWidth 32).toNat = g.found b := by
      unfold byteAddr found
      rw [BitVec.toNat_setWidth, BitVec.toNat_udiv, BitVec.toNat_setWidth, BitVec.toNat_ofNat, hlen]
      show b * 512 % 2 ^ 32 % 2 ^ 64 / 512 % 2 ^ 32 = _
      omega
    unfold start
    rw [if_pos htype, harg, if_pos hfound]
  · rw [if_neg htype]
    refine ⟨?_, blocklenRD_toNat⟩
    have hlt := mul_lt_of_standard hb htype
    have harg : ((g.byteAddr b).setWidth 64).setWidth 32 = g.unitAddr b := by
      unfold byteAddr unitAddr
      rw [if_neg htype, BitVec.setWidth_setWidth_of_le _ (by decide), BitVec.setWidth_eq]
    rw [found_of_lt hlt, harg]
    exact start_unitAddr hb

end Geometry

section Public

variable {contents : Memory Byte} {fuel p b n : Nat}

theorem mmcsdSpiWriteblock_returns (h : OnCard g.type 0 ⟨contents, .idle⟩ o) (hb : b < g.blocks) :
    Returns (mmcsdSpiWriteblock (cardBus g) m p (g.byteAddr b) g.blocklenRD) o fun res o' =>
      res = SM_STATE_READY ∧
        OnCard g.type 0 ⟨contents.write (g.found b * g.blocklen) (m.read p g.blocklen), .idle⟩ o' := by
  obtain ⟨hstart, hlen⟩ := Geometry.blockArgs_byteAddr hb
  refine selected_returns h fun o1 h1 => (writesingleblock_returns h1 hstart hlen).weaken ?_
  exact fun res o2 hend => ⟨hend.1, _, hend.2⟩

theorem mmcsdSpiReadblock_returns (hfuel : 0 < fuel) (h : OnCard g.type 0 ⟨contents, .idle⟩ o)
    (hb : b < g.blocks) :
    Returns (mmcsdSpiReadblock (cardBus g) fuel m p (g.byteAddr b) g.blocklenRD) o fun r o' =>
      r = (SM_STATE_READY, m.write p (contents.read (g.found b * g.blocklen) g.blocklen)) ∧
        OnCard g.type 0 ⟨contents, .idle⟩ o' := by
  obtain ⟨hstart, hlen⟩ := Geometry.blockArgs_byteAddr hb
  refine selected_returns h fun o1 h1 => (readsingleblock_returns hfuel h1 hstart hlen).weaken ?_
  exact fun r o2 hend => ⟨hend.1, _, hend.2⟩

theorem unitAddr_arg (b : Nat) : ((g.unitAddr b).setWidth 64).setWidth 32 = g.unitAddr b := by
  rw [BitVec.setWidth_setWidth_of_le _ (by decide), BitVec.setWidth_eq]

theorem mmcsdSpiWritemultiblocks_one_returns (hfuel : 0 < fuel) (h : OnCard g.type 0 ⟨contents, .idle⟩ o)
    (hb : b < g.blocks) :
    Returns (mmcsdSpiWritemultiblocks (cardBus g) fuel m p (g.unitAddr b) g.blocklenRD 1) o fun res o' =>
      res = SM_STATE_READY ∧
        OnCard g.type 0 ⟨contents.write (b * g.blocklen) (m.read p g.blocklen), .idle⟩ o' := by
  have hstart := Geometry.start_unitAddr hb
  rw [← unitAddr_arg] at hstart
  refine selected_returns h fun o1 h1 => ?_
  refine (writemultiblocks_one_returns hfuel h1 hstart Geometry.blocklenRD_toNat).weaken ?_
  exact fun res o2 hend => ⟨hend.1, _, hend.2⟩

theorem mmcsdSpiReadmultiblocks_one_returns (hfuel : 0 < fuel) (h : OnCard g.type 0 ⟨contents, .idle⟩ o)
    (hb : b < g.blocks) :
    Returns (mmcsdSpiReadmultiblocks (cardBus g) fuel m p (g.unitAddr b) g.blocklenRD 1) o fun r o' =>
      r = (SM_STATE_READY, m.write p (contents.read (b * g.blocklen) g.blocklen)) ∧
        OnCard g.type 0 ⟨contents, .idle⟩ o' := by
  have hstart := Geometry.start_unitAddr hb
  rw [← unitAddr_arg] at hstart
  refine selected_returns h fun o1 h1 => ?_
  refine (readmultiblocks_one_returns hfuel h1 hstart Geometry.blocklenRD_toNat).weaken ?_
  exact fun r o2 hend => ⟨hend.1, _, hend.2⟩

theorem mmcsdSpiWritemultiblocks_returns (fuel : Nat) (hnum : 1 < n) (hlt : n < 2 ^ 32)
    (h : OnCard g.type 0 ⟨contents, .idle⟩ o) (hb : b < g.blocks) :
    Returns (mmcsdSpiWritemultiblocks (cardBus g) fuel m p (g.unitAddr b) g.blocklenRD (BitVec.ofNat 32 n)) o
      fun res o' => res = SM_STATE_ERROR ∧ OnCard g.type 0 ⟨contents, .idle⟩ o' := by
  have hstart := Geometry.start_unitAddr hb
  rw [← unitAddr_arg] at hstart
  have hcount : 1 < (BitVec.ofNat 32 n).toNat := by rwa [BitVec.toNat_ofNat, Nat.mod_eq_of_lt hlt]
  refine selected_returns h fun o1 h1 => (writemultiblocks_returns hcount h1 hstart).weaken ?_
  exact fun res o2 hend => ⟨hend.1, _, hend.2⟩

end Public

/-! ## Many blocks and single blocks -/

/-- The blocks from `b` on, one after the other, from the buffer at `p`. -/
def writeSingles (B : Bus Card) (g : Geometry) (m : Memory Byte) : (n b p : Nat) → Prog (Obj Card) Int
  | 0, _, _ => pure SM_STATE_READY
  | n + 1, b, p => do
    let res ← mmcsdSpiWriteblock B m p (g.byteAddr b) g.blocklenRD
    if res ≠ SM_STATE_READY then pure res else writeSingles B g m n (b + 1) (p + g.blocklen)

def readSingles (B : Bus Card) (g : Geometry) (fuel : Nat) :
    (n b p : Nat) → Memory Byte → Prog (Obj Card) (Int × Memory Byte)
  | 0, _, _, m => pure (SM_STATE_READY, m)
  | n + 1, b, p, m => do
    let (res, m) ← mmcsdSpiReadblock B fuel m p (g.byteAddr b) g.blocklenRD
    if res ≠ SM_STATE_READY then pure (res, m) else readSingles B g fuel n (b + 1) (p + g.blocklen) m

/-- On every card with this geometry, `n` blocks from block `b` on that are written and read with the
functions for many blocks come back, the other blocks stay as they are, and the same is returned and on the
card as when the blocks are written and read one by one. -/
def Agrees (g : Geometry) (fuel b n : Nat) : Prop :=
  ∀ (contents buffer dest : Memory Byte) (o : Obj Card), OnCard g.type 0 ⟨contents, .idle⟩ o →
    ∃ (written : Int) (o1 : Obj Card) (read : Int) (dest1 : Memory Byte) (o2 : Obj Card)
      (written' : Int) (o3 : Obj Card) (read' : Int) (dest2 : Memory Byte) (o4 : Obj Card),
      (mmcsdSpiWritemultiblocks (cardBus g) fuel buffer 0 (g.unitAddr b) g.blocklenRD
        (BitVec.ofNat 32 n)).run o = some (written, o1) ∧
      (mmcsdSpiReadmultiblocks (cardBus g) fuel dest 0 (g.unitAddr b) g.blocklenRD
        (BitVec.ofNat 32 n)).run o1 = some ((read, dest1), o2) ∧
      (writeSingles (cardBus g) g buffer n b 0).run o = some (written', o3) ∧
      (readSingles (cardBus g) g fuel n b 0 dest).run o3 = some ((read', dest2), o4) ∧
      (∀ i < n * g.blocklen, dest1 i = buffer i) ∧
      (∀ i, ¬ (b * g.blocklen ≤ i ∧ i < (b + n) * g.blocklen) → o1.bus.contents i = contents i) ∧
      written = written' ∧ o1.bus.contents = o3.bus.contents ∧ read = read' ∧ dest1 = dest2 ∧
      o2.bus.contents = o4.bus.contents

theorem writeSingles_ready (n : Nat) : ∀ {b p : Nat} {contents : Memory Byte} {o : Obj Card},
    b + n ≤ g.blocks → OnCard g.type 0 ⟨contents, .idle⟩ o →
    Returns (writeSingles (cardBus g) g m n b p) o fun res _ => res = SM_STATE_READY := by
  induction n with
  | zero => exact fun _ _ => Returns.pure rfl
  | succ n ih =>
    intro b p contents o hend h
    refine (mmcsdSpiWriteblock_returns h (by omega)).check fun o1 h1 => ?_
    exact ih (by omega) h1

theorem Agrees.one (hfuel : 0 < fuel) (hb : b < g.blocks) (hfits : b * g.blocklen < 2 ^ 32) :
    Agrees g fuel b 1 := by
  intro contents buffer dest o h
  obtain ⟨_, o1, hrun1, rfl, h1⟩ := mmcsdSpiWritemultiblocks_one_returns (m := buffer) (p := 0) hfuel h hb
  obtain ⟨_, o2, hrun2, rfl, h2⟩ := mmcsdSpiReadmultiblocks_one_returns (m := dest) (p := 0) hfuel h1 hb
  obtain ⟨_, o3, hrun3, rfl, h3⟩ := mmcsdSpiWriteblock_returns (m := buffer) (p := 0) h hb
  obtain ⟨_, o4, hrun4, rfl, h4⟩ := mmcsdSpiReadblock_returns (m := dest) (p := 0) hfuel h3 hb
  rw [Geometry.found_of_lt hfits] at hrun4 h3 h4
  have hback : (contents.write (b * g.blocklen) (buffer.read 0 g.blocklen)).read (b * g.blocklen) g.blocklen =
      buffer.read 0 g.blocklen := by
    have hread := read_write_self contents (b * g.blocklen) (buffer.read 0 g.blocklen)
    rwa [length_read] at hread
  refine ⟨_, o1, _, _, o2, SM_STATE_READY, o3, SM_STATE_READY, _, o4, hrun1, hrun2, ?_, ?_, ?_, ?_, rfl, ?_,
    rfl, rfl, ?_⟩
  · exact (Prog.run_bind_of hrun3).trans rfl
  · exact (Prog.run_bind_of hrun4).trans rfl
  · intro i hi
    rw [Nat.one_mul] at hi
    rw [hback, write_of_mem (Nat.zero_le i) (by rwa [length_read]), getElem_read, Nat.zero_add]
    rfl
  · intro i hi
    rw [h1.bus]
    refine write_of_not_mem ?_
    rw [Nat.add_mul, Nat.one_mul] at hi
    rw [length_read]
    omega
  · rw [h1.bus, h3.bus]
  · rw [h2.bus, h4.bus]

def cardObj (g : Geometry) (contents : Memory Byte) : Obj Card where
  r1 := 0
  dword := 0
  state := SM_STATE_READY
  activeLock := 0
  maxRetry := 10
  errorToken := 0
  ocr := 0
  type := g.type
  csd := fun _ => 0
  cid := fun _ => 0
  info := ⟨1, BitVec.ofNat 16 g.blocklen, BitVec.ofNat 16 g.blocklen, 1, BitVec.ofNat 32 g.blocks, 0⟩
  bus := ⟨contents, .idle⟩
  chip := false
  log := []

theorem onCard_cardObj (contents : Memory Byte) :
    OnCard g.type 0 ⟨contents, .idle⟩ (cardObj g contents) := ⟨rfl, rfl, rfl⟩

theorem not_agrees_many {n : Nat} (hnum : 1 < n) (hend : b + n ≤ g.blocks) :
    ¬ Agrees g fuel b n := by
  intro hagrees
  have h := onCard_cardObj (g := g) fun _ => 0
  have hblocks := g.blocks_lt
  obtain ⟨_, o1, _, _, _, _, o3, _, _, _, hrun1, -, hrun3, -, -, -, heq, -⟩ :=
    hagrees (fun _ => 0) (fun _ => 0) (fun _ => 0) _ h
  obtain ⟨_, _, hmany, rfl, -⟩ :=
    mmcsdSpiWritemultiblocks_returns (m := fun _ => 0) (p := 0) fuel hnum (by omega) h
      (show b < g.blocks by omega)
  obtain ⟨_, _, hsingles, rfl⟩ := writeSingles_ready (m := fun _ => 0) (p := 0) n hend h
  cases hmany.symm.trans hrun1
  cases hsingles.symm.trans hrun3
  cases heq

theorem not_agrees_far (hfuel : 0 < fuel) (hb : b < g.blocks) (hfar : 2 ^ 32 ≤ b * g.blocklen) :
    ¬ Agrees g fuel b 1 := by
  intro hagrees
  have h := onCard_cardObj (g := g) fun _ => 0
  obtain ⟨_, o1, _, _, _, _, o3, _, _, _, hrun1, -, hrun3, -, -, -, -, hcontents, -⟩ :=
    hagrees (fun _ => 0) (fun _ => 1) (fun _ => 0) _ h
  obtain ⟨_, o1', hmany, rfl, h1⟩ :=
    mmcsdSpiWritemultiblocks_one_returns (m := fun _ => 1) (p := 0) hfuel h hb
  obtain ⟨_, o3', hsingle, rfl, h3⟩ := mmcsdSpiWriteblock_returns (m := fun _ => 1) (p := 0) h hb
  have hsingles : (writeSingles (cardBus g) g (fun _ => 1) 1 b 0).run (cardObj g fun _ => 0) =
      some (SM_STATE_READY, o3') := (Prog.run_bind_of hsingle).trans rfl
  cases hmany.symm.trans hrun1
  cases hsingles.symm.trans hrun3
  rw [h1.bus, h3.bus] at hcontents
  -- at the first byte of the block
  have hbyte := congrFun hcontents (b * g.blocklen)
  have hpos := g.blocklen_pos
  have hbefore : g.found b * g.blocklen + g.blocklen ≤ b * g.blocklen := by
    have hle : g.found b * g.blocklen ≤ b * g.blocklen % 2 ^ 32 := Nat.div_mul_le_self _ _
    have hlt : g.found b < b := Nat.lt_of_mul_lt_mul_right (Nat.lt_of_le_of_lt hle
      (Nat.lt_of_lt_of_le (Nat.mod_lt _ (by decide)) hfar))
    calc g.found b * g.blocklen + g.blocklen = (g.found b + 1) * g.blocklen := (Nat.succ_mul ..).symm
      _ ≤ b * g.blocklen := Nat.mul_le_mul_right _ hlt
  dsimp only at hbyte
  rw [write_of_mem (Nat.le_refl _) (by rw [length_read]; omega), getElem_read,
    write_of_ge (by rw [length_read]; exact hbefore)] at hbyte
  cases hbyte

/-- **Exactly when the functions for many blocks agree with those for one block.**

A transfer of two blocks or more begins with a start token that no card takes for a single block. The
functions for one block take the address in bytes, which a block of a high capacity card behind the first
four gigabytes does not have. -/
theorem agrees_iff (g : Geometry) (fuel b n : Nat) (hfuel : 0 < fuel) (hn : 1 ≤ n) (hend : b + n ≤ g.blocks) :
    Agrees g fuel b n ↔ n = 1 ∧ b * g.blocklen < 2 ^ 32 := by
  constructor
  · intro hagrees
    have hone : n = 1 := by
      by_contra hne
      exact not_agrees_many (by omega) hend hagrees
    subst hone
    refine ⟨rfl, ?_⟩
    by_contra hfar
    exact not_agrees_far hfuel (by omega) (Nat.le_of_not_lt hfar) hagrees
  · rintro ⟨rfl, hfits⟩
    exact Agrees.one hfuel (by omega) hfits

def smallCard : Geometry where
  type := .CT_SD2
  blocklen := 512
  blocks := 8
  known := .inr (.inl rfl)
  blocklen_pos := by decide
  blocklen_lt := by decide
  blocks_lt := by decide
  highCapacity := fun h => nomatch h
  standard := fun _ => by decide

theorem agrees_small : 0 < 1 ∧ 1 ≤ 1 ∧ 3 + 1 ≤ smallCard.blocks ∧ Agrees smallCard 1 3 1 :=
  ⟨by decide, by decide, by decide,
    (agrees_iff smallCard 1 3 1 (by decide) (by decide) (by decide)).mpr ⟨rfl, by decide⟩⟩

/-- Two blocks on that card. -/
theorem not_agrees : 3 + 2 ≤ smallCard.blocks ∧ ¬ Agrees smallCard 1 3 2 :=
  ⟨by decide, not_agrees_many (by decide) (by decide)⟩

end Gpmx.Mmcsd
