import Gpmx.Ymodem.Delivery
import Mathlib

/-!
# What the reading of a header touches

`y_filename_size_get` of `apps/libs/ymodem/ymdm_cmn.c`, with the places of the payload that it reads and
with what it stores in `fname` and in `psize`. Either loop stores a byte before it looks at its limit,
and the limit of both is the length of the payload, although `psize` has 16 bytes.
-/

namespace Gpmx.Ymodem

open List

/-! ## The loops -/

structure Copied where
  stop : Option Nat
  reads : List Nat
  stores : List (Nat × UInt8)

/-- A loop of `y_filename_size_get` with the terminator behind it, from the byte `i` of the payload to
the place `k`; `left` more bytes are stored before `++k > len`. -/
def copyString (p : Nat → UInt8) (i k : Nat) : Nat → Copied
  | 0 =>
    if p i = 0 then { stop := some i, reads := [i], stores := [(k, 0)] }
    else { stop := none, reads := [i], stores := [(k, p i)] }
  | left + 1 =>
    if p i = 0 then { stop := some i, reads := [i], stores := [(k, 0)] }
    else
      let rest := copyString p (i + 1) (k + 1) left
      { stop := rest.stop, reads := i :: rest.reads, stores := (k, p i) :: rest.stores }

/-- The string in what was stored from the beginning of an array on. -/
def chars (stores : List (Nat × UInt8)) : Bytes := (stores.map Prod.snd).takeWhile (· ≠ 0)

/-- The loop of `y_atoi`, whose `total` is an `int`. -/
def accumulateInt (total : BitVec 32) : Bytes → BitVec 32
  | [] => total
  | c :: rest =>
    if isdigit c then accumulateInt (10 * total + (c.toBitVec.setWidth 32 - 0x30)) rest else total

/-- `y_atoi` -/
def yAtoiInt (nptr : Bytes) : BitVec 32 :=
  match nptr.dropWhile isspace with
  | [] => 0
  | c :: rest =>
    if c = 0x2d then -accumulateInt 0 rest
    else if c = 0x2b then accumulateInt 0 rest
    else accumulateInt 0 (c :: rest)

/-- A call of `y_filename_size_get`. -/
structure HeaderCall where
  ret : Int
  reads : List Nat
  fname : List (Nat × UInt8)
  psize : List (Nat × UInt8)
  fsize : Option (BitVec 32)

/-- `y_filename_size_get` with what it touches -/
def yFilenameSizeGetCall (p : Nat → UInt8) (len : Nat) : HeaderCall :=
  let name := copyString p 0 0 len
  match name.stop with
  | none => { ret := -1, reads := name.reads, fname := name.stores, psize := [], fsize := none }
  | some i =>
    let size := copyString p (i + 1) 0 len
    match size.stop with
    | none =>
      { ret := -2
        reads := name.reads ++ size.reads
        fname := name.stores
        psize := size.stores
        fsize := none }
    | some _ =>
      { ret := 0
        reads := name.reads ++ size.reads
        fname := name.stores
        psize := size.stores
        fsize := some (yAtoiInt (chars size.stores)) }

/-- The call in `ymodem_rx_process`. -/
def Parse.headerCall (msg : Parse) : HeaderCall :=
  yFilenameSizeGetCall (fun i => msg.buff (headlen + i)) payloadlenSoh

/-! ## What a header says -/

def headerName (payload : Bytes) : Bytes := payload.takeWhile (· ≠ 0)

def headerField (payload : Bytes) : Bytes :=
  (payload.drop ((headerName payload).length + 1)).takeWhile (· ≠ 0)

def digitsNumber (s : Bytes) : Nat :=
  Nat.ofDigits 10 ((s.takeWhile isdigit).map fun c => c.toNat - 0x30).reverse

def leadingNumber (s : Bytes) : Int :=
  let unblanked := s.dropWhile isspace
  if unblanked.head? = some 0x2d then -(digitsNumber unblanked.tail : Int)
  else if unblanked.head? = some 0x2b then digitsNumber unblanked.tail
  else digitsNumber unblanked

/-- The call keeps to the payload and to its arrays, and where it does not fail, the receiver has the
name and the number. -/
structure ReadsHeader (msg : Parse) (r : Receiver) : Prop where
  reads : ∀ i ∈ msg.headerCall.reads, i < payloadlenSoh
  fname : ∀ store ∈ msg.headerCall.fname, store.1 < 128
  psize : ∀ store ∈ msg.headerCall.psize, store.1 < 16
  result : msg.headerCall.ret ≠ 0 ∨
    r.fname = headerName (msg.read headlen payloadlenSoh) ∧
      (r.fsize : Int) = leadingNumber (headerField (msg.read headlen payloadlenSoh))

/-- Both strings end in the payload, the second one has room in `psize`, and its number in a
`uint32_t`. -/
structure HeaderFits (payload : Bytes) : Prop where
  terminated : (headerName payload).length + 1 + (headerField payload).length < payload.length
  field : (headerField payload).length ≤ 15
  nonneg : 0 ≤ leadingNumber (headerField payload)
  bounded : leadingNumber (headerField payload) < 2 ^ 32

/-! ## The number -/

theorem accumulateInt_ofInt (total : Int) (s : Bytes) :
    accumulateInt (BitVec.ofInt 32 total) s = BitVec.ofInt 32 (accumulate total s) := by
  induction s generalizing total with
  | nil => rfl
  | cons c rest ih =>
    unfold accumulateInt accumulate
    split
    · have hc : c.toBitVec.setWidth 32 = BitVec.ofInt 32 c.toNat := by
        apply BitVec.eq_of_toNat_eq
        simp
      have hstep : 10 * BitVec.ofInt 32 total + (c.toBitVec.setWidth 32 - 0x30)
          = BitVec.ofInt 32 (10 * total + (c.toNat - 0x30)) := by
        rw [Int.sub_eq_add_neg, BitVec.ofInt_add, BitVec.ofInt_mul, BitVec.ofInt_add, BitVec.ofInt_neg,
          hc, BitVec.sub_eq_add_neg]
        rfl
      rw [hstep, ih]
    · rfl

theorem yAtoiInt_eq (s : Bytes) : yAtoiInt s = BitVec.ofInt 32 (yAtoi s) := by
  have hzero : ∀ rest, accumulateInt 0 rest = BitVec.ofInt 32 (accumulate 0 rest) :=
    accumulateInt_ofInt 0
  unfold yAtoiInt yAtoi
  cases s.dropWhile isspace with
  | nil => rfl
  | cons c rest =>
    dsimp only
    split_ifs
    · rw [hzero, BitVec.ofInt_neg]
    · exact hzero _
    · exact hzero _

theorem digitsNumber_cons {c : UInt8} (hc : isdigit c = true) (rest : Bytes) :
    digitsNumber (c :: rest)
      = (c.toNat - 0x30) * 10 ^ (rest.takeWhile isdigit).length + digitsNumber rest := by
  unfold digitsNumber
  rw [takeWhile_cons_of_pos hc, map_cons, reverse_cons, Nat.ofDigits_append,
    Nat.ofDigits_singleton, length_reverse, length_map]
  ring

theorem accumulate_eq (total : Int) (s : Bytes) :
    accumulate total s = total * 10 ^ (s.takeWhile isdigit).length + digitsNumber s := by
  induction s generalizing total with
  | nil => simp [accumulate, digitsNumber]
  | cons c rest ih =>
    unfold accumulate
    split
    · next hc =>
      have hdigit : ((c.toNat - 0x30 : Nat) : Int) = (c.toNat : Int) - 0x30 := by
        have hge : 0x30 ≤ c.toNat := by
          simp only [isdigit, Bool.and_eq_true, decide_eq_true_eq, UInt8.le_iff_toNat_le] at hc
          exact hc.2
        omega
      rw [ih, digitsNumber_cons hc, takeWhile_cons_of_pos hc, length_cons]
      push_cast [hdigit]
      ring
    · next hc => simp [digitsNumber, takeWhile_cons_of_neg hc]

theorem yAtoi_eq (s : Bytes) : yAtoi s = leadingNumber s := by
  have hzero : ∀ rest, accumulate 0 rest = digitsNumber rest := fun rest => by
    rw [accumulate_eq, Int.zero_mul, Int.zero_add]
  unfold yAtoi leadingNumber
  split
  · next hnil =>
    simp only [hnil]
    rfl
  · next c rest hcons =>
    simp only [hcons, head?_cons, Option.some.injEq, tail_cons, hzero]

/-! ## The headers of the sender -/

/-! ## What a loop touches -/

/-- A loop has stored `n` bytes and one more, which is its terminator or the byte too many. -/
structure Scanned (p : Nat → UInt8) (i k left : Nat) (c : Copied) (n : Nat) : Prop where
  le : n ≤ left
  plain : ∀ j < n, p (i + j) ≠ 0
  reads : c.reads = List.range' i (n + 1)
  stores : c.stores = (List.range (n + 1)).map fun j => (k + j, p (i + j))
  stop : p (i + n) = 0 ∧ c.stop = some (i + n) ∨ p (i + n) ≠ 0 ∧ n = left ∧ c.stop = none

variable {p : Nat → UInt8} {i k left n N : Nat} {c : Copied}

theorem scanned_null (h : p i = 0) :
    Scanned p i k left { stop := some i, reads := [i], stores := [(k, 0)] } 0 where
  le := Nat.zero_le _
  plain := fun j hj => absurd hj (Nat.not_lt_zero j)
  reads := rfl
  stores := by simp [h]
  stop := Or.inl ⟨h, rfl⟩

theorem Scanned.cons (h : Scanned p (i + 1) (k + 1) left c n) (hi : p i ≠ 0) :
    Scanned p i k (left + 1)
      { stop := c.stop, reads := i :: c.reads, stores := (k, p i) :: c.stores } (n + 1) where
  le := Nat.succ_le_succ h.le
  plain := by
    intro j hj
    cases j with
    | zero => exact hi
    | succ j =>
      rw [show i + (j + 1) = i + 1 + j by omega]
      exact h.plain j (Nat.lt_of_succ_lt_succ hj)
  reads := by
    show i :: c.reads = _
    rw [h.reads, ← range'_succ]
  stores := by
    show (k, p i) :: c.stores = _
    rw [h.stores, range_succ_eq_map (n := n + 1), map_cons, map_map]
    congr 1
    refine map_congr_left fun j _ => ?_
    show (k + 1 + j, p (i + 1 + j)) = (k + (j + 1), p (i + (j + 1)))
    rw [show k + 1 + j = k + (j + 1) by omega, show i + 1 + j = i + (j + 1) by omega]
  stop := by
    rw [show i + (n + 1) = i + 1 + n by omega]
    rcases h.stop with hstop | ⟨hlast, hleft, hstop⟩
    · exact Or.inl hstop
    · exact Or.inr ⟨hlast, by rw [hleft], hstop⟩

theorem scanned_copyString (p : Nat → UInt8) (i k left : Nat) :
    ∃ n, Scanned p i k left (copyString p i k left) n := by
  induction left generalizing i k with
  | zero =>
    unfold copyString
    by_cases hi : p i = 0
    · rw [if_pos hi]
      exact ⟨0, scanned_null hi⟩
    · rw [if_neg hi]
      exact ⟨0, Nat.le_refl _, fun j hj => absurd hj (Nat.not_lt_zero j), rfl, rfl,
        Or.inr ⟨hi, rfl, rfl⟩⟩
  | succ left ih =>
    unfold copyString
    by_cases hi : p i = 0
    · rw [if_pos hi]
      exact ⟨0, scanned_null hi⟩
    · rw [if_neg hi]
      obtain ⟨n, hn⟩ := ih (i + 1) (k + 1)
      exact ⟨n + 1, hn.cons hi⟩

theorem cstring_eq_copyString (p : Nat → UInt8) (i k left : Nat) :
    cstring p i (left + 1)
      = (copyString p i k left).stop.map fun _ => chars (copyString p i k left).stores := by
  induction left generalizing i k with
  | zero =>
    unfold cstring copyString
    by_cases hi : p i = 0
    · rw [if_pos hi, if_pos hi]
      rfl
    · rw [if_neg hi, if_neg hi]
      rfl
  | succ left ih =>
    unfold cstring copyString
    by_cases hi : p i = 0
    · rw [if_pos hi, if_pos hi]
      rfl
    · have hchars : ∀ stores, chars ((k, p i) :: stores) = p i :: chars stores := fun stores => by
        unfold chars
        rw [map_cons, takeWhile_cons_of_pos (by simpa using hi)]
      rw [if_neg hi, if_neg hi, ih (i + 1) (k + 1), Option.map_map]
      simp only [hchars]
      rfl

namespace Scanned

section

variable (h : Scanned p i k left c n)
include h

theorem takeWhile_eq (hN : N ≤ left) : ((List.range N).map fun j => p (i + j)).takeWhile (· ≠ 0)
      = (List.range (min n N)).map fun j => p (i + j) := by
  have hplain : ∀ m ≤ n, ∀ x ∈ (List.range m).map fun j => p (i + j), decide (x ≠ 0) = true := by
    intro m hm x hx
    obtain ⟨j, hj, rfl⟩ := mem_map.mp hx
    exact decide_eq_true (h.plain j (Nat.lt_of_lt_of_le (mem_range.mp hj) hm))
  by_cases hn : n < N
  · have hnull : p (i + n) = 0 := by
      rcases h.stop with ⟨hnull, -⟩ | ⟨-, hleft, -⟩
      · exact hnull
      · omega
    obtain ⟨rest, rfl⟩ : ∃ rest, N = n + (rest + 1) := ⟨N - n - 1, by omega⟩
    rw [range_add, map_append, takeWhile_append_of_pos (hplain n (Nat.le_refl _)),
      range_succ_eq_map, map_cons, map_cons,
      takeWhile_cons_of_neg (by simpa using hnull), append_nil, Nat.min_eq_left (by omega)]
  · rw [takeWhile_eq_self_iff.mpr (hplain N (by omega)), Nat.min_eq_right (by omega)]

theorem chars_eq (hnull : p (i + n) = 0) :
    chars c.stores = (List.range n).map fun j => p (i + j) := by
  have hstored : c.stores.map Prod.snd = (List.range (n + 1)).map fun j => p (i + j) := by
    rw [h.stores, map_map]
    rfl
  have hplain : ∀ x ∈ (List.range n).map fun j => p (i + j), decide (x ≠ 0) = true := by
    intro x hx
    obtain ⟨j, hj, rfl⟩ := mem_map.mp hx
    exact decide_eq_true (h.plain j (mem_range.mp hj))
  unfold chars
  rw [hstored, range_succ, map_append, takeWhile_append_of_pos hplain,
    map_singleton, takeWhile_cons_of_neg (by simpa using hnull), append_nil]

theorem forall_reads_lt : (∀ j ∈ c.reads, j < N) ↔ i + n < N := by
  rw [h.reads]
  constructor
  · intro hall
    exact hall (i + n) (mem_range'_1.mpr (by omega))
  · intro hlt j hj
    have hrange := mem_range'_1.mp hj
    omega

theorem forall_stores_lt : (∀ store ∈ c.stores, store.1 < N) ↔ k + n < N := by
  rw [h.stores]
  constructor
  · intro hall
    exact hall (k + n, p (i + n)) (mem_map.mpr ⟨n, mem_range.mpr (Nat.lt_succ_self n), rfl⟩)
  · rintro hlt store hstore
    obtain ⟨j, hj, rfl⟩ := mem_map.mp hstore
    have hrange := mem_range.mp hj
    show k + j < N
    omega

end

end Scanned

/-! ## What the call touches -/

theorem yFilenameSizeGet_eq_call (p : Nat → UInt8) (len : Nat) :
    yFilenameSizeGet p len = (yFilenameSizeGetCall p len).fsize.map fun size =>
      (chars (yFilenameSizeGetCall p len).fname, size.toNat) := by
  obtain ⟨n, hn⟩ := scanned_copyString p 0 0 len
  unfold yFilenameSizeGet
  rw [cstring_eq_copyString p 0 0 len]
  rcases hn.stop with ⟨hnull, hstop⟩ | ⟨-, -, hstop⟩
  · have hlength : (chars (copyString p 0 0 len).stores).length = 0 + n := by
      rw [hn.chars_eq hnull, length_map, length_range, Nat.zero_add]
    simp only [hstop, Option.map_some, hlength, cstring_eq_copyString p (0 + n + 1) 0 len]
    cases hsize : (copyString p (0 + n + 1) 0 len).stop with
    | none => simp only [yFilenameSizeGetCall, hstop, hsize, Option.map_none]
    | some _ =>
      simp only [yFilenameSizeGetCall, hstop, hsize, Option.map_some, yAtoiInt_eq, BitVec.toNat_ofInt]
      rfl
  · simp only [yFilenameSizeGetCall, hstop, Option.map_none]

theorem yFilenameSizeGetCall_of_name {len j : Nat} (hstop : (copyString p 0 0 len).stop = some j) :
    (yFilenameSizeGetCall p len).reads
        = (copyString p 0 0 len).reads ++ (copyString p (j + 1) 0 len).reads ∧
      (yFilenameSizeGetCall p len).fname = (copyString p 0 0 len).stores ∧
      (yFilenameSizeGetCall p len).psize = (copyString p (j + 1) 0 len).stores := by
  cases hsize : (copyString p (j + 1) 0 len).stop with
  | none | some _ => simp only [yFilenameSizeGetCall, hstop, hsize, and_self]

section Payload

variable {msg : Parse} {m : Nat}

def Parse.payload (msg : Parse) (i : Nat) : UInt8 := msg.buff (headlen + i)

theorem read_eq_map (msg : Parse) :
    msg.read headlen payloadlenSoh = (List.range 128).map fun j => msg.payload (0 + j) := by
  refine map_congr_left fun j _ => ?_
  rw [Nat.zero_add]
  rfl

theorem headerName_eq (hn : Scanned msg.payload 0 0 128 c n) :
    headerName (msg.read headlen payloadlenSoh)
      = (List.range (min n 128)).map fun j => msg.payload (0 + j) := by
  rw [headerName, read_eq_map]
  exact hn.takeWhile_eq (Nat.le_refl _)

theorem headerField_eq {c' : Copied} (hn : Scanned msg.payload 0 0 128 c n) (hlt : n < 128)
    (hm : Scanned msg.payload (n + 1) 0 128 c' m) :
    headerField (msg.read headlen payloadlenSoh)
      = (List.range (min m (127 - n))).map fun j => msg.payload (n + 1 + j) := by
  have hdrop : (msg.read headlen payloadlenSoh).drop (n + 1)
      = (List.range (127 - n)).map fun j => msg.payload (n + 1 + j) := by
    have hrange : List.range 128 = List.range (n + 1) ++ (List.range (127 - n)).map (n + 1 + ·) := by
      rw [← range_add]
      congr 1
      omega
    rw [read_eq_map, hrange, map_append, drop_left' (by simp), map_map]
    refine map_congr_left fun j _ => ?_
    show msg.payload (0 + (n + 1 + j)) = msg.payload (n + 1 + j)
    rw [Nat.zero_add]
  rw [headerField, headerName_eq hn, length_map, length_range, Nat.min_eq_left (by omega),
    hdrop]
  exact hm.takeWhile_eq (by omega)

section

variable (hn : Scanned msg.payload 0 0 128 (copyString msg.payload 0 0 128) n)
include hn

theorem headerCall_touches_iff (hm : Scanned msg.payload (n + 1) 0 128 (copyString msg.payload (n + 1) 0 128) m) :
    ((∀ i ∈ msg.headerCall.reads, i < payloadlenSoh) ∧
      (∀ store ∈ msg.headerCall.fname, store.1 < 128) ∧
      (∀ store ∈ msg.headerCall.psize, store.1 < 16)) ↔ n + 1 + m < 128 ∧ m < 16 := by
  rcases hn.stop with ⟨-, hstop⟩ | ⟨-, hleft, hstop⟩
  · rw [Nat.zero_add] at hstop
    obtain ⟨hreads, hfname, hpsize⟩ := yFilenameSizeGetCall_of_name hstop
    have hall : (∀ i ∈ msg.headerCall.reads, i < payloadlenSoh) ↔ 0 + n < 128 ∧ n + 1 + m < 128 := by
      rw [← hn.forall_reads_lt, ← hm.forall_reads_lt, ← forall_mem_append]
      exact Iff.of_eq (congrArg (fun reads => ∀ i ∈ reads, i < 128) hreads)
    have hname : (∀ store ∈ msg.headerCall.fname, store.1 < 128) ↔ 0 + n < 128 := by
      rw [← hn.forall_stores_lt]
      exact Iff.of_eq (congrArg (fun stores => ∀ store ∈ stores, store.1 < 128) hfname)
    have hsize : (∀ store ∈ msg.headerCall.psize, store.1 < 16) ↔ 0 + m < 16 := by
      rw [← hm.forall_stores_lt]
      exact Iff.of_eq (congrArg (fun stores => ∀ store ∈ stores, store.1 < 16) hpsize)
    rw [hall, hname, hsize]
    omega
  · have hreads : msg.headerCall.reads = (copyString msg.payload 0 0 128).reads := by
      show (yFilenameSizeGetCall msg.payload 128).reads = _
      simp only [yFilenameSizeGetCall, hstop]
    rw [hreads]
    constructor
    · intro h
      have hlt := hn.forall_reads_lt.mp h.1
      unfold payloadlenSoh at hlt
      omega
    · intro h
      omega

theorem headerFits_iff (hm : Scanned msg.payload (n + 1) 0 128 (copyString msg.payload (n + 1) 0 128) m) :
    HeaderFits (msg.read headlen payloadlenSoh) ↔ (n + 1 + m < 128 ∧ m < 16) ∧
      0 ≤ leadingNumber (headerField (msg.read headlen payloadlenSoh)) ∧
        leadingNumber (headerField (msg.read headlen payloadlenSoh)) < 2 ^ 32 := by
  have hpayload : (msg.read headlen payloadlenSoh).length = 128 := by
    rw [read_eq_map, length_map, length_range]
  have hname : (headerName (msg.read headlen payloadlenSoh)).length = min n 128 := by
    rw [headerName_eq hn, length_map, length_range]
  have hfield : n < 128 →
      (headerField (msg.read headlen payloadlenSoh)).length = min m (127 - n) := fun hlt => by
    rw [headerField_eq hn hlt hm, length_map, length_range]
  constructor
  · rintro ⟨hterminated, hroom, hnonneg, hbounded⟩
    rw [hname, hpayload] at hterminated
    have hlt : n < 128 := by omega
    rw [hfield hlt] at hterminated hroom
    exact ⟨by omega, hnonneg, hbounded⟩
  · rintro ⟨⟨hend, hroom⟩, hnonneg, hbounded⟩
    have hlt : n < 128 := by omega
    refine ⟨?_, ?_, hnonneg, hbounded⟩
    · rw [hname, hpayload, hfield hlt]
      omega
    · rw [hfield hlt]
      omega

theorem headerCall_found (hm : Scanned msg.payload (n + 1) 0 128 (copyString msg.payload (n + 1) 0 128) m)
    (hend : n + 1 + m < 128) :
    msg.headerCall.ret = 0 ∧ yFilenameSizeGet msg.payload payloadlenSoh
      = some (headerName (msg.read headlen payloadlenSoh),
        (leadingNumber (headerField (msg.read headlen payloadlenSoh)) % 2 ^ 32).toNat) := by
  have hstopName : msg.payload (0 + n) = 0 ∧ (copyString msg.payload 0 0 128).stop = some n := by
    rcases hn.stop with ⟨hnull, hstop⟩ | ⟨-, hleft, -⟩
    · exact ⟨hnull, by rw [hstop, Nat.zero_add]⟩
    · omega
  have hstopSize : msg.payload (n + 1 + m) = 0 ∧
      (copyString msg.payload (n + 1) 0 128).stop = some (n + 1 + m) := by
    rcases hm.stop with hstop | ⟨-, hleft, -⟩
    · exact hstop
    · omega
  have hname : chars (copyString msg.payload 0 0 128).stores
      = headerName (msg.read headlen payloadlenSoh) := by
    rw [hn.chars_eq hstopName.1, headerName_eq hn, Nat.min_eq_left (by omega)]
  have hsize : chars (copyString msg.payload (n + 1) 0 128).stores
      = headerField (msg.read headlen payloadlenSoh) := by
    rw [hm.chars_eq hstopSize.1, headerField_eq hn (by omega) hm, Nat.min_eq_left (by omega)]
  constructor
  · show (yFilenameSizeGetCall msg.payload 128).ret = 0
    rw [yFilenameSizeGetCall]
    simp only [hstopName.2, hstopSize.2]
  · rw [yFilenameSizeGet_eq_call]
    simp only [payloadlenSoh, yFilenameSizeGetCall, hstopName.2, hstopSize.2, Option.map_some, hname,
      hsize, yAtoiInt_eq, yAtoi_eq, BitVec.toNat_ofInt]
    rfl

end

end Payload

/-! ## When a header is read as it should be -/

theorem toNat_emod_eq_iff {z : Int} : (((z % 2 ^ 32).toNat : Nat) : Int) = z ↔ 0 ≤ z ∧ z < 2 ^ 32 := by
  omega

theorem rxProcess_header {r : Receiver} {piece name : Bytes} {msg : Parse} {fsize : Nat}
    (hstate : r.state = .syncWait) (hframe : r.proto.parserBuff .soh piece = (0, msg))
    (hseq : msg.seq = 0x00) (hseqXor : msg.seqXor = 0xff)
    (hget : yFilenameSizeGet msg.payload payloadlenSoh = some (name, fsize)) :
    (r.rxProcess piece).fname = name ∧ (r.rxProcess piece).fsize = fsize := by
  have hlistening : r.Listening := by
    unfold Receiver.Listening
    rw [hstate]
    decide
  have htype : r.packType = .soh := by
    unfold Receiver.packType
    rw [hstate]
  have haccept : ({ r with proto := msg } : Receiver).accept .soh
      = ({ r with proto := msg } : Receiver).acceptHeader := by
    unfold Receiver.accept
    simp only [hstate]
  rw [hlistening.rxProcess_eq, htype, hframe]
  show (Receiver.accept .soh { r with proto := msg }).fname = name ∧
    (Receiver.accept .soh { r with proto := msg }).fsize = fsize
  rw [haccept, Receiver.acceptHeader_eq (r := { r with proto := msg }) hseq hseqXor hget]
  exact ⟨rfl, rfl⟩

section Read

variable {r : Receiver} {piece : Bytes} {msg : Parse}

theorem ReadsHeader.fits (hstate : r.state = .syncWait)
    (hframe : r.proto.parserBuff .soh piece = (0, msg)) (hseq : msg.seq = 0x00)
    (hseqXor : msg.seqXor = 0xff) (h : ReadsHeader msg (r.rxProcess piece)) :
    HeaderFits (msg.read headlen payloadlenSoh) := by
  obtain ⟨n, hn⟩ := scanned_copyString msg.payload 0 0 128
  obtain ⟨m, hm⟩ := scanned_copyString msg.payload (n + 1) 0 128
  have hinside := (headerCall_touches_iff hn hm).mp ⟨h.reads, h.fname, h.psize⟩
  obtain ⟨hret, hget⟩ := headerCall_found hn hm hinside.1
  have hreceived := rxProcess_header hstate hframe hseq hseqXor hget
  rcases h.result with hfailed | ⟨-, hsize⟩
  · exact absurd hret hfailed
  · rw [hreceived.2] at hsize
    exact (headerFits_iff hn hm).mpr ⟨hinside, toNat_emod_eq_iff.mp hsize⟩

theorem HeaderFits.reads (hstate : r.state = .syncWait)
    (hframe : r.proto.parserBuff .soh piece = (0, msg)) (hseq : msg.seq = 0x00)
    (hseqXor : msg.seqXor = 0xff) (h : HeaderFits (msg.read headlen payloadlenSoh)) :
    ReadsHeader msg (r.rxProcess piece) := by
  obtain ⟨n, hn⟩ := scanned_copyString msg.payload 0 0 128
  obtain ⟨m, hm⟩ := scanned_copyString msg.payload (n + 1) 0 128
  obtain ⟨hinside, hnumber⟩ := (headerFits_iff hn hm).mp h
  obtain ⟨hreads, hfname, hpsize⟩ := (headerCall_touches_iff hn hm).mpr hinside
  obtain ⟨-, hget⟩ := headerCall_found hn hm hinside.1
  have hreceived := rxProcess_header hstate hframe hseq hseqXor hget
  refine ⟨hreads, hfname, hpsize, Or.inr ⟨hreceived.1, ?_⟩⟩
  rw [hreceived.2]
  exact toNat_emod_eq_iff.mpr hnumber

/-- **A header is read inside its buffers, and right, if and only if it fits**, whatever bytes its
payload has. -/
theorem readsHeader_iff (hstate : r.state = .syncWait)
    (hframe : r.proto.parserBuff .soh piece = (0, msg)) (hseq : msg.seq = 0x00)
    (hseqXor : msg.seqXor = 0xff) :
    ReadsHeader msg (r.rxProcess piece) ↔ HeaderFits (msg.read headlen payloadlenSoh) :=
  ⟨fun h => h.fits hstate hframe hseq hseqXor, fun h => h.reads hstate hframe hseq hseqXor⟩

theorem header_arrives {payload : Bytes} (hlen : payload.length = 128) (hnbyte : r.proto.nbyte = 0) :
    ∃ msg, r.proto.parserBuff .soh (packet 0 payload true) = (0, msg) ∧ msg.seq = 0x00 ∧
      msg.seqXor = 0xff ∧ msg.read headlen payloadlenSoh = payload := by
  have htype : kind payload.length = .soh := by
    rw [hlen]
    rfl
  have hframe : IsFrame .soh (packet 0 payload true) :=
    htype ▸ isFrame_packet 0 true (by omega)
  have hne : packet 0 payload true ≠ [] := length_pos_iff.mp hframe.length_pos
  have hwhole : Framed .soh ([] ++ packet 0 payload true) := hframe.framed
  obtain ⟨msg, hloop, hcomplete⟩ :=
    hwhole.buffLoop_end hne (Parse.holds_nil hnbyte) (show (0xff : Int) ≠ 0 by decide)
  have hverdict : Framed.verdict ([] ++ packet 0 payload true) = 0 := by
    unfold Framed.verdict
    rw [nil_append, hframe.crc]
    rfl
  refine ⟨msg, ?_, hcomplete.seq_packet, hcomplete.seqXor_packet, ?_⟩
  · rw [Parse.parserBuff, hloop, hverdict]
  · have hread := hcomplete.read_packet
    rw [hlen] at hread
    exact hread

end Read

/-- The name `a` and the size 1024. -/
def shortHeader : Bytes := [0x61, 0, 0x31, 0x30, 0x32, 0x34] ++ List.replicate 122 0

theorem readsHeader_short :
    ∃ msg, unused.reset.start.proto.parserBuff .soh (packet 0 shortHeader true) = (0, msg) ∧
      ReadsHeader msg (unused.reset.start.rxProcess (packet 0 shortHeader true)) := by
  have hlen : shortHeader.length = 128 := by decide +kernel
  obtain ⟨msg, hframe, hseq, hseqXor, hread⟩ := header_arrives (r := unused.reset.start) hlen rfl
  have hfits : HeaderFits (msg.read headlen payloadlenSoh) := by
    rw [hread]
    exact ⟨by decide +kernel, by decide +kernel, by decide +kernel, by decide +kernel⟩
  exact ⟨msg, hframe, (readsHeader_iff rfl hframe hseq hseqXor).mpr hfits⟩

/-- A new receiver takes the header, and does not read it as it should. -/
def Misread (payload : Bytes) : Prop :=
  ∃ msg, unused.reset.start.proto.parserBuff .soh (packet 0 payload true) = (0, msg) ∧
    msg.seq = 0x00 ∧ msg.seqXor = 0xff ∧
    ¬ReadsHeader msg (unused.reset.start.rxProcess (packet 0 payload true))

theorem misread_of_not_fits {payload : Bytes} (hlen : payload.length = 128)
    (h : ¬HeaderFits payload) : Misread payload := by
  obtain ⟨msg, hframe, hseq, hseqXor, hread⟩ := header_arrives (r := unused.reset.start) hlen rfl
  refine ⟨msg, hframe, hseq, hseqXor, fun hreads => h ?_⟩
  rw [← hread]
  exact hreads.fits rfl hframe hseq hseqXor

/-- `1024 14650341527 100644` behind the name `a`: the size, the date and the mode of a file. -/
def dateHeader : Bytes :=
  [0x61, 0, 0x31, 0x30, 0x32, 0x34, 0x20, 0x31, 0x34, 0x36, 0x35, 0x30, 0x33, 0x34, 0x31, 0x35, 0x32,
    0x37, 0x20, 0x31, 0x30, 0x30, 0x36, 0x34, 0x34] ++ List.replicate 103 0

def endlessName : Bytes := List.replicate 128 0x61

theorem header_not_read : Misread dateHeader ∧ Misread endlessName := by
  have hdate : dateHeader.length = 128 := by decide +kernel
  have hname : endlessName.length = 128 := by decide +kernel
  constructor
  · exact misread_of_not_fits hdate fun h => absurd h.field (by decide +kernel)
  · exact misread_of_not_fits hname fun h => absurd h.terminated (by decide +kernel)

end Gpmx.Ymodem
