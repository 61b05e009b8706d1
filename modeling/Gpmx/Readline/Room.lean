import Gpmx.Readline.Common
import Mathlib

/-!
# The room in the line buffer

Characters are only taken while two bytes are free. A line of the history and the name of a builtin
command are stored without a look at `buflen`: `needs` is how many bytes of the buffer a key takes, and
a call stays within the buffer exactly when no key takes more than there are (`within_iff`).
-/

namespace Gpmx.Readline

open Infra List

variable {cfg : Config} {buflen : Nat} {s t : Line} {hist : Cmdhist} {input : List (Option UInt8)}

/-- The stores are in the buffer, and so is the string that is returned, with its null. -/
structure Within (buflen : Nat) (call : Line × Option Int) : Prop where
  stores : ∀ i ∈ call.1.stores, i < buflen
  string : ∀ n : Nat, call.2 = some (n : Int) → n ≤ buflen - 1 ∧ call.1.buf n = 0

def completes (cfg : Config) (s : Line) : Nat :=
  if s.nch < 1 then 0
  else
    match countBuiltinMatches cfg s.buf s.nch with
    | [name] => if s.nch < name.length then name.length else 0
    | _ => 0

def needs (cfg : Config) (s : Line) : Key → Nat
  | .eof => if s.nch > 0 then s.nch + 1 else 0
  | .arrow ch => ((recalled cfg s.hist ch).map fun line => line.length + 1).getD 0
  | .newline => s.nch + 2
  | .char _ => s.nch + 2
  | .tab => completes cfg s
  | _ => 0

def Roomy (cfg : Config) (buflen : Nat) (s : Line) : List (Option UInt8) → Prop
  | [] => True
  | ch :: input =>
    needs cfg s (keyOf cfg s.escape ch) ≤ buflen ∧
      ((step cfg buflen s ch).2 = none → Roomy cfg buflen (step cfg buflen s ch).1 input)

/-! ## One key -/

section Stores

variable {i n : Nat} {bytes : List UInt8}

@[simp] theorem stores_put : (s.put bytes).stores = s.stores := rfl

@[simp] theorem stores_store : (s.store i bytes).stores = s.stores ++ List.range' i bytes.length := rfl

theorem forall_stores_store_iff : (∀ j ∈ (s.store i bytes).stores, j < n) ↔
    (∀ j ∈ s.stores, j < n) ∧ (bytes = [] ∨ i + bytes.length ≤ n) := by
  rw [stores_store, forall_mem_append]
  refine and_congr_right fun _ => ?_
  constructor
  · intro h
    by_cases hb : bytes = []
    · exact .inl hb
    · have hpos := length_pos_iff.mpr hb
      have := h (i + bytes.length - 1) (mem_range'_1.mpr ⟨by omega, by omega⟩)
      exact .inr (by omega)
  · rintro (rfl | h) j hj
    · simp at hj
    · have := mem_range'_1.mp hj
      omega

theorem buf_store_self {b : UInt8} : (s.store i [b]).buf i = b := by
  show s.buf.write i [b] i = b
  rw [Memory.write_of_mem (by omega) (by simp)]
  simp

theorem buf_store_two {b c : UInt8} : (s.store i [b, c]).buf (i + 1) = c := by
  show s.buf.write i [b, c] (i + 1) = c
  rw [Memory.write_of_mem (by omega) (by simp)]
  simp

end Stores

theorem within_none_iff : Within buflen (s, none) ↔ ∀ i ∈ s.stores, i < buflen :=
  ⟨fun h => h.stores, fun h => ⟨h, by simp⟩⟩

theorem within_some_iff {n : Nat} : Within buflen (s, some (n : Int)) ↔
    (∀ i ∈ s.stores, i < buflen) ∧ n ≤ buflen - 1 ∧ s.buf n = 0 := by
  constructor
  · exact fun h => ⟨h.stores, h.string n rfl⟩
  · refine fun h => ⟨h.1, fun m hm => ?_⟩
    have hmn : n = m := Int.ofNat_inj.mp (Option.some.inj hm)
    exact hmn ▸ h.2

theorem length_strncpyBytes (str : List UInt8) (n : Nat) : (strncpyBytes str n).length = n := by
  unfold strncpyBytes
  simp
  omega

theorem tabCompletion_stores_iff : (∀ i ∈ (tabCompletion cfg buflen s).stores, i < buflen) ↔
    (∀ i ∈ s.stores, i < buflen) ∧ completes cfg s ≤ buflen := by
  unfold tabCompletion completes
  split_ifs with hlen
  · simp
  cases countBuiltinMatches cfg s.buf s.nch with
  | nil => simp
  | cons name names =>
    cases names with
    | nil =>
      have hname : (∀ i ∈ ((s.store s.nch (name.drop s.nch)).put (name.drop s.nch)).stores, i < buflen) ↔
          (∀ i ∈ s.stores, i < buflen) ∧ (if s.nch < name.length then name.length else 0) ≤ buflen := by
        rw [stores_put, forall_stores_store_iff]
        simp only [drop_eq_nil_iff, length_drop]
        refine and_congr_right fun _ => ?_
        split_ifs <;> omega
      dsimp only
      split_ifs at hname ⊢ <;> exact hname
    | cons name' names =>
      dsimp only
      have hstr (str : List UInt8) (u : Line) (hu : u.stores = s.stores) :
          (∀ i ∈ (u.store 0 (strncpyBytes str (buflen - 1))).stores, i < buflen) ↔
            (∀ i ∈ s.stores, i < buflen) ∧ 0 ≤ buflen := by
        rw [forall_stores_store_iff, hu, length_strncpyBytes]
        exact and_congr_right fun _ => ⟨fun _ => by omega, fun _ => .inr (by omega)⟩
      split_ifs <;> exact hstr _ _ rfl

theorem needs_arrow (ch : UInt8) : needs cfg s (.arrow ch) =
    ((recalled cfg s.hist ch).map fun line => line.length + 1).getD 0 := rfl

theorem arrow_stores_iff (ch : UInt8) : (∀ i ∈ (arrow cfg s ch).stores, i < buflen) ↔
    (∀ i ∈ s.stores, i < buflen) ∧ needs cfg s (.arrow ch) ≤ buflen := by
  rw [arrow, needs_arrow]
  by_cases hlen : s.hist.len > 0
  · rw [if_pos hlen]
    cases recalled cfg s.hist ch with
    | none => simp
    | some line =>
      refine Iff.trans forall_stores_store_iff (and_congr_right fun _ => ?_)
      simp
  · have hline : recalled cfg s.hist ch = none := if_neg (by omega)
    rw [if_neg hlen, hline]
    simp

theorem handle_within_iff (hb : 2 ≤ buflen) (key : Key) : Within buflen (handle cfg buflen s key) ↔
    (∀ i ∈ s.stores, i < buflen) ∧ needs cfg s key ≤ buflen := by
  cases key with
  | eof =>
    show Within buflen (if s.nch > 0 then (s.store s.nch [0], some (s.nch : Int)) else (s, some (-1))) ↔
      _ ∧ (if s.nch > 0 then s.nch + 1 else 0) ≤ buflen
    by_cases hn : s.nch > 0
    · rw [if_pos hn, if_pos hn, within_some_iff, forall_stores_store_iff, buf_store_self]
      simp only [length_singleton, cons_ne_nil, false_or, and_true, and_assoc]
      exact and_congr_right fun _ => by omega
    · rw [if_neg hn, if_neg hn]
      refine ⟨fun h => ⟨h.stores, by omega⟩, fun h => ⟨h.1, fun n hn => ?_⟩⟩
      simp only [Option.some.injEq] at hn
      omega
  | arrow ch => exact within_none_iff.trans (arrow_stores_iff ch)
  | newline =>
    show Within buflen (_, some ((s.nch + 1 : Nat) : Int)) ↔ _ ∧ s.nch + 2 ≤ buflen
    rw [within_some_iff]
    show (∀ i ∈ (Line.store { s with hist := saveHistory cfg s } s.nch [0x0a, 0]).stores, i < buflen) ∧
      _ ∧ (Line.store { s with hist := saveHistory cfg s } s.nch [0x0a, 0]).buf (s.nch + 1) = 0 ↔ _
    rw [forall_stores_store_iff, buf_store_two]
    simp only [length_cons, length_nil, cons_ne_nil, false_or, and_true, and_assoc]
    exact and_congr_right fun _ => by omega
  | char ch =>
    have hstore : (∀ i ∈ (s.store s.nch [ch]).stores, i < buflen) ↔
        (∀ i ∈ s.stores, i < buflen) ∧ s.nch + 1 ≤ buflen := by
      rw [forall_stores_store_iff]
      simp
    show Within buflen (if s.nch + 1 + 1 ≥ buflen then
      (Line.store { (s.store s.nch [ch]).put [ch] with nch := s.nch + 1 } (s.nch + 1) [0],
        some ((s.nch + 1 : Nat) : Int)) else
      ({ (s.store s.nch [ch]).put [ch] with nch := s.nch + 1 }, none)) ↔ _ ∧ s.nch + 2 ≤ buflen
    by_cases hfull : s.nch + 1 + 1 ≥ buflen
    · rw [if_pos hfull, within_some_iff, forall_stores_store_iff, buf_store_self]
      refine Iff.trans (and_congr_left' (and_congr_left' hstore)) ?_
      simp only [length_singleton, cons_ne_nil, false_or, and_true, and_assoc]
      exact and_congr_right fun _ => by omega
    · rw [if_neg hfull, within_none_iff]
      refine hstore.trans (and_congr_right fun _ => ?_)
      omega
  | tab => exact within_none_iff.trans tabCompletion_stores_iff
  | backspace =>
    rw [handle]
    split_ifs <;> exact within_none_iff.trans (and_iff_left (Nat.zero_le _)).symm
  | bracket | esc | other => exact within_none_iff.trans (and_iff_left (Nat.zero_le _)).symm

/-! ## A call -/

theorem loop_within_iff (hb : 2 ≤ buflen) : ∀ (input : List (Option UInt8)) (s : Line),
    Within buflen (loop cfg buflen s input) ↔
      (∀ i ∈ s.stores, i < buflen) ∧ Roomy cfg buflen s input
  | [], s => by simp [loop, Roomy, within_none_iff]
  | ch :: input, s => by
    have hstep : Within buflen (handle cfg buflen s (keyOf cfg s.escape ch)) ↔
      (∀ i ∈ s.stores, i < buflen) ∧ needs cfg s (keyOf cfg s.escape ch) ≤ buflen := handle_within_iff hb _
    rw [loop, Roomy]
    rcases heq : step cfg buflen s ch with ⟨t, ret⟩
    rw [step] at heq
    rw [heq] at hstep
    cases ret with
    | some ret => simpa using hstep
    | none =>
      have ih := loop_within_iff hb input t
      rw [within_none_iff] at hstep
      simp only [forall_const]
      rw [ih, hstep, and_assoc]

/-- **When a call of `readline_common` stays within the line buffer**: every key finds the bytes that it
takes. -/
theorem within_iff (hb : 2 ≤ buflen) (buf : Memory UInt8) (hist : Cmdhist)
    (input : List (Option UInt8)) : Within buflen (readlineCommon cfg buflen buf hist input) ↔
      Roomy cfg buflen (Line.start buf hist) input := by
  rw [readlineCommon, if_neg (by omega), loop_within_iff hb]
  simp [Line.start]

/-- A builtin command called `hello`. -/
def hello : Config :=
  { eol := .either
    cmdhistLen := 16
    cmdhistLen_pos := by decide
    cmdhistLinelen := 80
    maxBuiltins := 20
    nameMax := 40
    builtins := [[0x68, 0x65, 0x6c, 0x6c, 0x6f]]
    prompt := none }

theorem within_two : Within 2 (readlineCommon hello 2 (fun _ => 0) .zero [some 0x68]) :=
  (within_iff (by decide) _ _ _).mpr ⟨by decide, fun h => absurd h (by decide)⟩

/-- A history with the line `hello`. -/
def helloHist : Cmdhist := { Cmdhist.zero with
  buf := fun _ => [0x68, 0x65, 0x6c, 0x6c, 0x6f]
  offset := 1
  len := 1 }

/-- `h` and a tab in a buffer of four bytes, and an up arrow. -/
theorem not_within :
    ¬ Within 4 (readlineCommon hello 4 (fun _ => 0) .zero [some 0x68, some 0x09]) ∧
      ¬ Within 4 (readlineCommon hello 4 (fun _ => 0) helloHist [some 0x1b, some 0x5b, some 0x41]) :=
  ⟨fun h => absurd (h.stores 4 (by decide)) (by decide),
    fun h => absurd (h.stores 4 (by decide)) (by decide)⟩

end Gpmx.Readline
