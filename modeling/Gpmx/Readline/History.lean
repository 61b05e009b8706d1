import Gpmx.Infra.Runs
import Gpmx.Readline.Room

/-!
# The history of the lines

Calls of `readline_common` on one buffer, one key after the other. The code compares a line with the
newest one of the history over `nch + 1` bytes, but the byte behind the line is still what an earlier
line or the caller left there; and a call that ends without a line to save leaves `g_cmdhist.offset` to
the next one. Where neither matters (`Clean`), the ring holds what has been entered, and the arrow keys
go through it (`remembers`).
-/

namespace Gpmx.Readline

open Infra List

variable {cfg : Config} {buflen : Nat}

/-! ## What has been entered -/

def withoutRepeats : List (List UInt8) → List (List UInt8)
  | [] => []
  | line :: older =>
    if older.head? = some line then withoutRepeats older else line :: withoutRepeats older

/-- The last `n` of them. -/
def recent (n : Nat) (entered : List (List UInt8)) : List (List UInt8) := (withoutRepeats entered).take n

def Line.text (s : Line) : List UInt8 := s.buf.read 0 s.nch

def entries (cfg : Config) (hist : Cmdhist) : List (List UInt8) :=
  (List.range hist.len).map fun k => hist.buf ((hist.head + cfg.cmdhistLen - k) % cfg.cmdhistLen)

/-- Calls one after the other, with what has been entered in them (newest first), how far the arrow keys
of this call have gone back, and what the last of them is to show. -/
structure Session where
  line : Line
  /-- whether the last call has returned -/
  idle : Bool
  entered : List (List UInt8)
  back : Nat
  shown : Option (List UInt8)

def Session.start (buf : Memory UInt8) : Session :=
  { line := Line.start buf .zero
    idle := true
    entered := []
    back := 0
    shown := none }

/-- The line at the next key: when the last call has returned, another one begins. -/
def Session.begin (s : Session) : Line :=
  if s.idle then Line.start s.line.buf s.line.hist else s.line

def browsed (lines : List (List UInt8)) (back : Nat) : Key → Nat × Option (List UInt8)
  | .arrow ch =>
    if ch = 0x41 then
      let back := min (back + 1) lines.length
      (back, lines[back - 1]?)
    else if ch = 0x42 then
      if back = 0 then (0, none)
      else if back = 1 then (0, some [])
      else (back - 1, lines[back - 2]?)
    else (back, none)
  | _ => (back, none)

def Session.key (cfg : Config) (buflen : Nat) (s : Session) (ch : Option UInt8) : Session :=
  let line := s.begin
  let key := keyOf cfg line.escape ch
  let next := handle cfg buflen line key
  let browse := browsed (recent cfg.cmdhistLen s.entered) s.back key
  { line := next.1
    idle := next.2.isSome
    entered := if key = .newline ∧ line.nch ≥ 1 then line.text :: s.entered else s.entered
    back := if next.2.isSome then 0 else browse.1
    shown := browse.2 }

inductive Event where
  | key (ch : Option UInt8)
  | edit (buf : Memory UInt8)

def Session.step (cfg : Config) (buflen : Nat) (s : Session) : Event → Option Session
  | .key ch => some (s.key cfg buflen ch)
  | .edit buf =>
    if s.idle then some { s with line := { s.line with buf := buf }, shown := none } else none

def up : List (Option UInt8) := [some 0x1b, some 0x5b, some 0x41]

/-- The ring holds the lines entered last, and the line shows what the last arrow key is to show. In
particular, `k` up arrows show the line `k - 1` lines before the newest one. -/
structure Remembers (cfg : Config) (buflen : Nat) (s : Session) : Prop where
  ring : entries cfg s.line.hist = recent cfg.cmdhistLen s.entered
  shown : ∀ line, s.shown = some line → s.line.text = line
  up : s.begin.escape = 0 → s.back = 0 → ∀ k line, (entries cfg s.line.hist)[k]? = some line →
    ((List.replicate (k + 1) up).flatten.foldl (Session.key cfg buflen) s).line.text = line

def ends (buflen : Nat) (s : Line) : Key → Bool
  | .eof => true
  | .newline => true
  | .char _ => s.nch + 1 + 1 ≥ buflen
  | _ => false

def CleanKey (cfg : Config) (buflen : Nat) (s : Session) (ch : Option UInt8) : Prop :=
  if keyOf cfg s.begin.escape ch = .newline ∧ s.begin.nch ≥ 1 then
    s.begin.nch < cfg.cmdhistLinelen ∧ 0 ∉ s.begin.text ∧
      (s.begin.text <+: s.entered.head?.getD [] →
        (s.begin.buf s.begin.nch = chars (s.entered.head?.getD []) s.begin.nch ↔
          s.begin.text = s.entered.head?.getD []))
  else ends buflen s.begin (keyOf cfg s.begin.escape ch) = true → s.back = 0

instance (s : Session) (ch : Option UInt8) : Decidable (CleanKey cfg buflen s ch) :=
  inferInstanceAs (Decidable (if keyOf cfg s.begin.escape ch = .newline ∧ s.begin.nch ≥ 1 then
    s.begin.nch < cfg.cmdhistLinelen ∧ 0 ∉ s.begin.text ∧
      (s.begin.text <+: s.entered.head?.getD [] →
        (s.begin.buf s.begin.nch = chars (s.entered.head?.getD []) s.begin.nch ↔
          s.begin.text = s.entered.head?.getD []))
  else ends buflen s.begin (keyOf cfg s.begin.escape ch) = true → s.back = 0))

def Clean (cfg : Config) (buflen : Nat) (s : Session) : Event → Prop
  | .edit _ => True
  | .key ch => CleanKey cfg buflen s ch

instance (s : Session) : ∀ e, Decidable (Clean cfg buflen s e)
  | .edit _ => .isTrue trivial
  | .key ch => inferInstanceAs (Decidable (CleanKey cfg buflen s ch))

/-! ## The ring -/

/-- The ring and the lines entered, with `g_cmdhist.offset` where the arrow keys have gone back by
`back`. -/
structure Inv (cfg : Config) (hist : Cmdhist) (entered : List (List UInt8)) (back : Nat) : Prop where
  head : hist.head < cfg.cmdhistLen
  len : hist.len ≤ cfg.cmdhistLen
  newest : hist.buf hist.head = entered.head?.getD []
  ring : entries cfg hist = recent cfg.cmdhistLen entered
  offset : 0 < hist.len → hist.offset = 1 - (back : Int)
  back_le : back ≤ hist.len

variable {hist : Cmdhist} {entered : List (List UInt8)} {back : Nat} {s : Line}

@[simp] theorem length_entries : (entries cfg hist).length = hist.len := by
  simp [entries]

theorem slot_eq {n head k : Nat} (hh : head < n) (hk : k < n) :
    (head + n - k) % n = if k ≤ head then head - k else head + n - k := by
  split_ifs with h
  · rw [show head + n - k = head - k + n by omega, Nat.add_mod_right, Nat.mod_eq_of_lt (by omega)]
  · exact Nat.mod_eq_of_lt (by omega)

theorem entries_getElem? {k : Nat} (hk : k < hist.len) :
    (entries cfg hist)[k]? = some (hist.buf ((hist.head + cfg.cmdhistLen - k) % cfg.cmdhistLen)) := by
  unfold entries
  rw [getElem?_map, getElem?_range hk]
  rfl

theorem entries_push (hh : hist.head < cfg.cmdhistLen) (hl : hist.len ≤ cfg.cmdhistLen) {row : List UInt8}
    {offset : Int} : entries cfg
      { buf := fun i => if i = (hist.head + 1) % cfg.cmdhistLen then row else hist.buf i
        head := (hist.head + 1) % cfg.cmdhistLen
        offset := offset
        len := if hist.len < cfg.cmdhistLen then hist.len + 1 else hist.len } =
      (row :: entries cfg hist).take cfg.cmdhistLen := by
  have hpos := cfg.cmdhistLen_pos
  have hlen : (if hist.len < cfg.cmdhistLen then hist.len + 1 else hist.len) =
      min (cfg.cmdhistLen - 1) hist.len + 1 := by
    split_ifs <;> omega
  have hhead : (hist.head + 1) % cfg.cmdhistLen =
      if hist.head + 1 < cfg.cmdhistLen then hist.head + 1 else 0 := by
    split_ifs with h
    · exact Nat.mod_eq_of_lt h
    · rw [show hist.head + 1 = cfg.cmdhistLen by omega, Nat.mod_self]
  have htake : (row :: entries cfg hist).take cfg.cmdhistLen =
      row :: (entries cfg hist).take (cfg.cmdhistLen - 1) := by
    rw [← take_succ_cons, Nat.sub_add_cancel hpos]
  rw [htake]
  unfold entries
  dsimp only
  rw [hlen, range_succ_eq_map, map_cons, ← map_take, take_range, map_map]
  have hlt : (hist.head + 1) % cfg.cmdhistLen < cfg.cmdhistLen := Nat.mod_lt _ hpos
  congr 1
  · rw [Nat.sub_zero, Nat.add_mod_right, Nat.mod_eq_of_lt hlt, if_pos rfl]
  · refine map_congr_left fun k hk => ?_
    have hk := mem_range.mp hk
    dsimp only [Function.comp_apply]
    rw [slot_eq hlt (by omega), slot_eq hh (by omega), hhead, if_neg]
    · congr 1
      split_ifs <;> omega
    · split_ifs <;> omega

/-! ## Saving a line -/

theorem strncmpEq_iff {a b : Memory UInt8} : ∀ {n i : Nat}, (∀ j < n, a (i + j) ≠ 0) →
    (strncmpEq a b i (n + 1) = true ↔ ∀ j ≤ n, a (i + j) = b (i + j))
  | 0, i, _ => by simp [strncmpEq]
  | n + 1, i, h => by
    have h0 : a i ≠ 0 := h 0 (by omega)
    have ih := strncmpEq_iff (a := a) (b := b) (n := n) (i := i + 1) fun j hj => by
      rw [show i + 1 + j = i + (j + 1) by omega]
      exact h (j + 1) (by omega)
    rw [strncmpEq]
    by_cases hne : a i = b i
    · rw [if_neg (by simpa using hne), if_neg h0, ih]
      constructor
      · intro hall j hj
        cases j with
        | zero => exact hne
        | succ j =>
          have := hall j (by omega)
          rwa [show i + 1 + j = i + (j + 1) by omega] at this
      · intro hall j hj
        rw [show i + 1 + j = i + (j + 1) by omega]
        exact hall (j + 1) (by omega)
    · rw [if_pos hne]
      refine ⟨fun hf => absurd hf (by decide), fun hall => absurd (hall 0 (by omega)) hne⟩

@[simp] theorem length_text : s.text.length = s.nch := Memory.length_read _ _ _

theorem text_getElem {j : Nat} (hj : j < s.text.length) : s.text[j] = s.buf j :=
  (Memory.getElem_read s.buf hj).trans (congrArg s.buf (Nat.zero_add j))

theorem buf_ne_zero (h : 0 ∉ s.text) {j : Nat} (hj : j < s.nch) : s.buf j ≠ 0 := by
  have hlen : j < s.text.length := by rwa [length_text]
  intro hz
  rw [← text_getElem hlen] at hz
  exact h (hz ▸ getElem_mem hlen)

theorem text_prefix_iff (h : 0 ∉ s.text) {other : List UInt8} :
    s.text <+: other ↔ ∀ j < s.nch, s.buf j = chars other j := by
  rw [prefix_iff_getElem?]
  unfold chars
  constructor
  · intro hpre j hj
    have hother := hpre j (by rwa [length_text])
    rw [getD_eq_getElem?_getD, hother, text_getElem]
    rfl
  · intro hall j hj
    have hj' : j < s.nch := by rwa [length_text] at hj
    have heq := hall j hj'
    rw [getD_eq_getElem?_getD] at heq
    -- the byte is not null, so the other line is not shorter
    cases hother : other[j]? with
    | none => exact absurd (heq.trans (by rw [hother]; rfl)) (buf_ne_zero h hj')
    | some b =>
      rw [hother] at heq
      rw [text_getElem, heq]
      rfl

variable {line : List UInt8}

theorem strncmpEq_newest (hnull : 0 ∉ s.text)
    (hbyte : s.text <+: line → (s.buf s.nch = chars line s.nch ↔ s.text = line)) :
    strncmpEq s.buf (chars line) 0 (s.nch + 1) = true ↔ s.text = line := by
  rw [strncmpEq_iff fun j hj => by rw [Nat.zero_add]; exact buf_ne_zero hnull hj]
  simp only [Nat.zero_add]
  constructor
  · intro hall
    have hpre := (text_prefix_iff hnull).mpr fun j hj => hall j (by omega)
    exact (hbyte hpre).mp (hall s.nch (Nat.le_refl _))
  · intro heq j hj
    have hpre : s.text <+: line := heq ▸ prefix_refl _
    by_cases hlast : j = s.nch
    · exact hlast ▸ (hbyte hpre).mpr heq
    · exact (text_prefix_iff hnull).mp hpre j (by omega)

theorem row_eq (hnull : 0 ∉ s.text) (hn : s.nch < cfg.cmdhistLinelen) :
    (s.buf.read 0 (min s.nch (cfg.cmdhistLinelen - 1))).takeWhile (· ≠ 0) = s.text := by
  rw [Nat.min_eq_left (by omega)]
  refine takeWhile_eq_self_iff.mpr fun b hb => ?_
  simp only [ne_eq, decide_not, Bool.not_eq_eq_eq_not, Bool.not_true, decide_eq_false_iff_not]
  rintro rfl
  exact hnull hb

theorem recent_cons {n : Nat} (hn : 0 < n) (hne : entered.head? ≠ some line) :
    recent n (line :: entered) = (line :: recent n entered).take n := by
  unfold recent
  rw [withoutRepeats, if_neg hne]
  obtain ⟨m, rfl⟩ := Nat.exists_eq_succ_of_ne_zero (Nat.pos_iff_ne_zero.mp hn)
  rw [take_succ_cons, take_succ_cons, take_take]
  simp

theorem Inv.save (h : Inv cfg s.hist entered back) (hn : s.nch ≥ 1) (hlen : s.nch < cfg.cmdhistLinelen)
    (hnull : 0 ∉ s.text) (hbyte : s.text <+: entered.head?.getD [] →
      (s.buf s.nch = chars (entered.head?.getD []) s.nch ↔ s.text = entered.head?.getD [])) :
    Inv cfg (saveHistory cfg s) (s.text :: entered) 0 := by
  have hcmp := strncmpEq_newest hnull hbyte
  have hhead : s.text = entered.head?.getD [] ↔ entered.head? = some s.text := by
    have hne : s.text ≠ [] := ne_nil_of_length_pos (by rw [length_text]; exact hn)
    cases entered.head? with
    | none => simpa using hne
    | some line => simp [eq_comm]
  rw [hhead, ← h.newest] at hcmp
  unfold saveHistory
  rw [if_pos hn]
  by_cases hsame : entered.head? = some s.text
  · -- it is the newest line once more
    have hrecent : recent cfg.cmdhistLen (s.text :: entered) = recent cfg.cmdhistLen entered := by
      unfold recent
      rw [withoutRepeats, if_pos hsame]
    rw [if_pos (hcmp.mpr hsame)]
    exact
      { head := h.head
        len := h.len
        newest := by rw [h.newest, hsame]; rfl
        ring := by rw [hrecent, ← h.ring]; rfl
        offset := fun _ => rfl
        back_le := Nat.zero_le _ }
  · rw [if_neg fun hc => hsame (hcmp.mp hc)]
    rw [row_eq hnull hlen]
    exact
      { head := Nat.mod_lt _ cfg.cmdhistLen_pos
        len := by
          have := h.len
          dsimp only
          split_ifs <;> omega
        newest := if_pos rfl
        ring := by
          rw [entries_push h.head h.len, recent_cons cfg.cmdhistLen_pos hsame, h.ring]
        offset := fun _ => rfl
        back_le := Nat.zero_le _ }

/-! ## The arrow keys -/

theorem browsed_length (h : Inv cfg hist entered back) :
    (recent cfg.cmdhistLen entered).length = hist.len := by
  rw [← h.ring, length_entries]

theorem Inv.browse (h : Inv cfg hist entered back) (ch : UInt8) :
    Inv cfg (if hist.len > 0 then { hist with offset := browse hist ch } else hist) entered
      (browsed (recent cfg.cmdhistLen entered) back (.arrow ch)).1 := by
  have hlen := browsed_length h
  have hback := h.back_le
  have hto : (browsed (recent cfg.cmdhistLen entered) back (.arrow ch)).1 ≤ hist.len := by
    unfold browsed
    dsimp only
    rw [hlen]
    split_ifs <;> dsimp only <;> omega
  by_cases hpos : hist.len > 0
  · have hoff := h.offset hpos
    rw [if_pos hpos]
    refine ⟨h.head, h.len, h.newest, h.ring, fun _ => ?_, hto⟩
    show Readline.browse hist ch = _
    unfold Readline.browse browsed
    dsimp only
    rw [hlen, hoff]
    split_ifs <;> dsimp only <;> omega
  · rw [if_neg hpos]
    exact ⟨h.head, h.len, h.newest, h.ring, fun hp => absurd hp hpos, hto⟩

theorem Inv.recalled_eq (h : Inv cfg hist entered back) (hpos : 0 < back) {offset : Int}
    (hoff : offset = 1 - (back : Int)) : some (hist.buf (wrapIdx cfg (hist.head + offset))) =
      (recent cfg.cmdhistLen entered)[back - 1]? := by
  have hback := h.back_le
  have hlen := h.len
  have hhead := h.head
  rw [← h.ring, entries_getElem? (by omega), slot_eq hhead (by omega)]
  congr 2
  unfold wrapIdx
  split_ifs <;> omega

theorem browsed_shown {lines : List (List UInt8)} {ch : UInt8}
    (h : (browsed lines back (.arrow ch)).2 = some line) :
    (browsed lines back (.arrow ch)).1 = 0 ∧ line = [] ∨
      0 < (browsed lines back (.arrow ch)).1 ∧
        lines[(browsed lines back (.arrow ch)).1 - 1]? = some line := by
  generalize hdest : browsed lines back (.arrow ch) = dest at h ⊢
  unfold browsed at hdest
  dsimp only at hdest
  split_ifs at hdest with hup hdown hzero hone
  · subst hdest
    have := (List.getElem?_eq_some_iff.mp h).1
    dsimp only at this ⊢
    exact .inr ⟨by omega, h⟩
  · subst hdest
    exact absurd h.symm (Option.some_ne_none line)
  · subst hdest
    exact .inl ⟨rfl, (Option.some.inj h).symm⟩
  · subst hdest
    dsimp only at h ⊢
    rw [show back - 1 - 1 = back - 2 by omega]
    exact .inr ⟨by omega, h⟩
  · subst hdest
    exact absurd h.symm (Option.some_ne_none line)

theorem browsed_nil (ch : UInt8) : (browsed [] 0 (.arrow ch)).2 = none := by
  by_cases hup : ch = 0x41 <;> simp [browsed, hup]

theorem arrow_hist (ch : UInt8) : (arrow cfg s ch).hist =
    if s.hist.len > 0 then { s.hist with offset := browse s.hist ch } else s.hist := by
  unfold arrow
  by_cases hpos : s.hist.len > 0
  · rw [if_pos hpos, if_pos hpos]
    cases recalled cfg s.hist ch <;> rfl
  · rw [if_neg hpos, if_neg hpos]

theorem text_store_line {bytes : List UInt8} :
    ({ (s.store 0 (line ++ [0])).put bytes with nch := line.length } : Line).text = line :=
  (Memory.holds_append.mp (Memory.holds_write_self s.buf 0 (line ++ [0]))).1

theorem Inv.shown (h : Inv cfg s.hist entered back) {ch : UInt8}
    (hline : (browsed (recent cfg.cmdhistLen entered) back (.arrow ch)).2 = some line) :
    (arrow cfg s ch).text = line := by
  have hto := h.browse ch
  have hshown := browsed_shown hline
  by_cases hpos : s.hist.len > 0
  · rw [if_pos hpos] at hto
    have hoff := hto.offset hpos
    dsimp only at hoff
    unfold arrow recalled
    rw [if_pos hpos]
    obtain ⟨hzero, rfl⟩ | ⟨hsome, hshown⟩ := hshown
    · rw [if_neg (by rw [hoff, hzero]; simp)]
      rfl
    · rw [← hto.recalled_eq hsome rfl] at hshown
      have hrow := Option.some.inj hshown
      rw [if_pos ⟨hpos, by omega⟩, hoff, hrow]
      exact text_store_line
  · -- no line has been entered
    have hnil : recent cfg.cmdhistLen entered = [] :=
      eq_nil_of_length_eq_zero (by rw [browsed_length h]; omega)
    have hback : back = 0 := by
      have := h.back_le
      omega
    subst hback
    rw [hnil, browsed_nil] at hline
    exact absurd hline.symm (Option.some_ne_none line)

/-! ## A key of a session -/

theorem tabCompletion_hist : (tabCompletion cfg buflen s).hist = s.hist := by
  unfold tabCompletion
  split_ifs
  · rfl
  split
  · rfl
  · split_ifs <;> rfl
  · dsimp only
    split_ifs <;> rfl

theorem Session.begin_hist (s : Session) : s.begin.hist = s.line.hist := by
  unfold Session.begin
  split_ifs <;> rfl

structure Kept (cfg : Config) (s : Session) : Prop where
  inv : Inv cfg s.line.hist s.entered s.back
  shown : ∀ line, s.shown = some line → s.line.text = line

theorem Kept.of_hist {s : Session} (h : Kept cfg s) {ch : Option UInt8}
    (hkey : ∀ c, keyOf cfg s.begin.escape ch ≠ .arrow c)
    (hnew : ¬ (keyOf cfg s.begin.escape ch = .newline ∧ s.begin.nch ≥ 1))
    (hhist : (handle cfg buflen s.begin (keyOf cfg s.begin.escape ch)).1.hist = s.begin.hist)
    (hback : (handle cfg buflen s.begin (keyOf cfg s.begin.escape ch)).2.isSome → s.back = 0) :
    Kept cfg (s.key cfg buflen ch) := by
  have hbrowse : browsed (recent cfg.cmdhistLen s.entered) s.back (keyOf cfg s.begin.escape ch) =
      (s.back, none) := by
    cases hk : keyOf cfg s.begin.escape ch <;> first | rfl | exact absurd hk (hkey _)
  unfold Session.key
  dsimp only
  rw [if_neg hnew, hbrowse]
  refine ⟨?_, fun line hl => absurd hl (Option.some_ne_none line).symm⟩
  show Inv cfg (handle cfg buflen s.begin (keyOf cfg s.begin.escape ch)).1.hist s.entered (ite _ _ _)
  rw [hhist, Session.begin_hist]
  split_ifs with hret
  · exact hback hret ▸ h.inv
  · exact h.inv

theorem Kept.arrow {s : Session} (h : Kept cfg s) {ch : Option UInt8} {c : UInt8}
    (hkey : keyOf cfg s.begin.escape ch = .arrow c) : Kept cfg (s.key cfg buflen ch) := by
  have hinv : Inv cfg s.begin.hist s.entered s.back := s.begin_hist ▸ h.inv
  unfold Session.key
  dsimp only
  rw [hkey, if_neg (by simp)]
  refine ⟨?_, fun line hl => hinv.shown hl⟩
  have hto := hinv.browse c
  rw [← arrow_hist] at hto
  exact hto

theorem Kept.save {s : Session} (h : Kept cfg s) {ch : Option UInt8}
    (hok : CleanKey cfg buflen s ch)
    (hnew : keyOf cfg s.begin.escape ch = .newline ∧ s.begin.nch ≥ 1) :
    Kept cfg (s.key cfg buflen ch) := by
  have hinv : Inv cfg s.begin.hist s.entered s.back := s.begin_hist ▸ h.inv
  unfold CleanKey at hok
  rw [if_pos hnew] at hok
  obtain ⟨hlen, hnull, hbyte⟩ := hok
  unfold Session.key
  dsimp only
  rw [if_pos hnew, hnew.1]
  exact ⟨hinv.save hnew.2 hlen hnull hbyte, fun line hl => absurd hl.symm (Option.some_ne_none line)⟩

theorem ends_iff (s : Line) (key : Key) : (handle cfg buflen s key).2.isSome = ends buflen s key := by
  cases key with
  | eof =>
    show (ite _ _ _ : Line × Option Int).2.isSome = true
    split_ifs <;> rfl
  | char c =>
    show (ite _ _ _ : Line × Option Int).2.isSome = decide _
    split_ifs with hfull
    · exact (decide_eq_true hfull).symm
    · exact (decide_eq_false hfull).symm
  | backspace =>
    show (ite _ _ _ : Line × Option Int).2.isSome = false
    split_ifs <;> rfl
  | _ => rfl

theorem Kept.key {s : Session} (h : Kept cfg s) {ch : Option UInt8}
    (hok : CleanKey cfg buflen s ch) : Kept cfg (s.key cfg buflen ch) := by
  by_cases hnew : keyOf cfg s.begin.escape ch = .newline ∧ s.begin.nch ≥ 1
  · exact h.save hok hnew
  · unfold CleanKey at hok
    rw [if_neg hnew, ← ends_iff] at hok
    cases hkey : keyOf cfg s.begin.escape ch with
    | arrow c => exact h.arrow hkey
    | newline =>
      refine h.of_hist (by simp [hkey]) hnew ?_ hok
      rw [hkey]
      exact if_neg fun hn => hnew ⟨hkey, hn⟩
    | eof | backspace =>
      refine h.of_hist (by simp [hkey]) hnew ?_ hok
      rw [hkey, handle]
      split_ifs <;> rfl
    | char c =>
      refine h.of_hist (by simp [hkey]) hnew ?_ hok
      rw [hkey, handle]
      split_ifs <;> rfl
    | tab =>
      refine h.of_hist (by simp [hkey]) hnew ?_ hok
      rw [hkey]
      exact tabCompletion_hist
    | bracket | esc | other => exact h.of_hist (by simp [hkey]) hnew (by rw [hkey]; rfl) hok

theorem kept_start (buf : Memory UInt8) : Kept cfg (Session.start buf) where
  inv :=
    { head := cfg.cmdhistLen_pos
      len := Nat.zero_le _
      newest := rfl
      ring := take_nil.symm
      offset := fun h => absurd h (Nat.lt_irrefl 0)
      back_le := Nat.zero_le _ }
  shown := fun line h => absurd h.symm (Option.some_ne_none line)

/-! ## Several up arrows -/

section Up

variable {s : Session}

theorem Session.key_esc (cfg : Config) (buflen : Nat) (hesc : s.begin.escape = 0) :
    (s.key cfg buflen (some 0x1b)).begin.escape = 1 ∧
      (s.key cfg buflen (some 0x1b)).entered = s.entered ∧
      (s.key cfg buflen (some 0x1b)).back = s.back := by
  have hkey : keyOf cfg s.begin.escape (some 0x1b) = .esc := by
    rw [hesc]
    rfl
  unfold Session.key
  dsimp only
  rw [hkey, if_neg (by simp)]
  exact ⟨rfl, rfl, rfl⟩

theorem Session.key_bracket (cfg : Config) (buflen : Nat) (hesc : s.begin.escape = 1) :
    (s.key cfg buflen (some 0x5b)).begin.escape = 2 ∧
      (s.key cfg buflen (some 0x5b)).entered = s.entered ∧
      (s.key cfg buflen (some 0x5b)).back = s.back := by
  have hkey : keyOf cfg s.begin.escape (some 0x5b) = .bracket := by
    rw [hesc]
    rfl
  unfold Session.key
  dsimp only
  rw [hkey, if_neg (by simp)]
  exact ⟨rfl, rfl, rfl⟩

theorem Session.key_arrow (cfg : Config) (buflen : Nat) (ch : UInt8) (hesc : s.begin.escape = 2) :
    (s.key cfg buflen (some ch)).begin.escape = 0 ∧
      (s.key cfg buflen (some ch)).entered = s.entered ∧
      (s.key cfg buflen (some ch)).back =
        (browsed (recent cfg.cmdhistLen s.entered) s.back (.arrow ch)).1 ∧
      (s.key cfg buflen (some ch)).shown =
        (browsed (recent cfg.cmdhistLen s.entered) s.back (.arrow ch)).2 := by
  have hkey : keyOf cfg s.begin.escape (some ch) = .arrow ch := by
    rw [hesc]
    simp [keyOf]
  unfold Session.key
  dsimp only
  rw [hkey, if_neg (by simp)]
  exact ⟨rfl, rfl, rfl, rfl⟩

theorem cleanKey_of_escape {ch : UInt8} (h : ch = 0x1b ∨ s.begin.escape ≠ 0) :
    CleanKey cfg buflen s (some ch) := by
  have hkey : ∃ key, keyOf cfg s.begin.escape (some ch) = key ∧ key ≠ .newline ∧
      ends buflen s.begin key = false := by
    by_cases hesc : s.begin.escape = 0
    · obtain rfl := h.resolve_right (not_not_intro hesc)
      exact ⟨.esc, by rw [hesc]; rfl, by simp, rfl⟩
    · by_cases hlast : ch ≠ 0x5b ∨ s.begin.escape = 2
      · exact ⟨.arrow ch, (if_pos hesc).trans (if_pos hlast), by simp, rfl⟩
      · exact ⟨.bracket, (if_pos hesc).trans (if_neg hlast), by simp, rfl⟩
  obtain ⟨key, hkey, hnew, hends⟩ := hkey
  unfold CleanKey
  rw [hkey, if_neg fun h => hnew h.1, hends]
  exact fun h => absurd h (by decide)

theorem Kept.up (buflen : Nat) (h : Kept cfg s) (hesc : s.begin.escape = 0) :
    Kept cfg (up.foldl (Session.key cfg buflen) s) ∧
      (up.foldl (Session.key cfg buflen) s).begin.escape = 0 ∧
      (up.foldl (Session.key cfg buflen) s).entered = s.entered ∧
      (up.foldl (Session.key cfg buflen) s).back =
        min (s.back + 1) (recent cfg.cmdhistLen s.entered).length ∧
      (up.foldl (Session.key cfg buflen) s).shown = (recent cfg.cmdhistLen s.entered)[
        min (s.back + 1) (recent cfg.cmdhistLen s.entered).length - 1]? := by
  have h1 : Kept cfg (s.key cfg buflen (some 0x1b)) := h.key (cleanKey_of_escape (.inl rfl))
  obtain ⟨hesc1, hentered1, hback1⟩ := Session.key_esc cfg buflen hesc
  have h2 : Kept cfg ((s.key cfg buflen (some 0x1b)).key cfg buflen (some 0x5b)) :=
    h1.key (cleanKey_of_escape (.inr (by omega)))
  obtain ⟨hesc2, hentered2, hback2⟩ := Session.key_bracket cfg buflen hesc1
  have h3 : Kept cfg (((s.key cfg buflen (some 0x1b)).key cfg buflen (some 0x5b)).key cfg buflen
      (some 0x41)) := h2.key (cleanKey_of_escape (.inr (by omega)))
  obtain ⟨hesc3, hentered3, hback3, hshown3⟩ := Session.key_arrow cfg buflen 0x41 hesc2
  rw [hentered2, hentered1, hback2, hback1] at hback3 hshown3
  rw [hentered2, hentered1] at hentered3
  exact ⟨h3, hesc3, hentered3, hback3, hshown3⟩

theorem Kept.ups (buflen : Nat) (h : Kept cfg s) (hesc : s.begin.escape = 0) (hback : s.back = 0) : ∀ k s',
    (List.replicate k Readline.up).flatten.foldl (Session.key cfg buflen) s = s' →
    Kept cfg s' ∧ s'.begin.escape = 0 ∧ s'.entered = s.entered ∧
      s'.back = min k (recent cfg.cmdhistLen s.entered).length
  | 0, _, rfl => ⟨h, hesc, rfl, by rw [Nat.zero_min]; exact hback⟩
  | k + 1, _, rfl => by
    obtain ⟨hkept, hesc, hentered, hback⟩ := Kept.ups buflen h hesc hback k _ rfl
    obtain ⟨hkept', hesc', hentered', hback', -⟩ := hkept.up buflen hesc
    rw [replicate_succ', flatten_concat, foldl_append]
    refine ⟨hkept', hesc', hentered'.trans hentered, ?_⟩
    rw [hback', hentered, hback]
    omega

theorem Kept.ups_text (h : Kept cfg s) (hesc : s.begin.escape = 0) (hback : s.back = 0) {k : Nat}
    (hline : (entries cfg s.line.hist)[k]? = some line) :
    ((List.replicate (k + 1) Readline.up).flatten.foldl (Session.key cfg buflen) s).line.text = line := by
  obtain ⟨hkept, hesc, hentered, hback⟩ := h.ups buflen hesc hback k _ rfl
  obtain ⟨hkept', -, -, -, hshown⟩ := hkept.up buflen hesc
  rw [replicate_succ', flatten_concat, foldl_append]
  rw [h.inv.ring] at hline
  have hk := (List.getElem?_eq_some_iff.mp hline).1
  refine hkept'.shown line ?_
  rw [hshown, hentered, hback, show min (min k (recent cfg.cmdhistLen s.entered).length + 1)
    (recent cfg.cmdhistLen s.entered).length - 1 = k by omega, hline]

end Up

/-- **The history holds what has been entered, and the arrow keys show it**, as long as no step is led
astray by what an earlier line or call left. -/
theorem remembers {buf : Memory UInt8} {s : Session}
    (h : Reaches (Session.step cfg buflen) (Clean cfg buflen) (Session.start buf) s) :
    Remembers cfg buflen s := by
  have hkept : Kept cfg s := by
    refine h.invariant (kept_start buf) fun s e s' hs hok hstep => ?_
    cases e with
    | key ch =>
      obtain rfl := Option.some.inj hstep
      exact hs.key hok
    | edit buf =>
      unfold Session.step at hstep
      dsimp only at hstep
      split_ifs at hstep with hidle
      obtain rfl := Option.some.inj hstep
      exact ⟨hs.inv, fun line h => absurd h.symm (Option.some_ne_none line)⟩
  exact ⟨hkept.inv.ring, hkept.shown, fun hesc hback _ _ hline => hkept.ups_text hesc hback hline⟩

def enter (line : List UInt8) : List (Option UInt8) := line.map some ++ [some 0x0d]

/-- `ls`, then the caller clears the buffer, then `ls` and an up arrow. -/
theorem remembers_ls : ∃ s : Session, s.entered = [[0x6c, 0x73], [0x6c, 0x73]] ∧
    Remembers hello 80 s := by
  have hrun : (((enter [0x6c, 0x73]).map Event.key ++ .edit (fun _ => 0) ::
      (enter [0x6c, 0x73] ++ up).map Event.key).foldlM
        (guarded (Session.step hello 80) (Clean hello 80)) (Session.start fun _ => 0)).map (·.entered) =
          some [[0x6c, 0x73], [0x6c, 0x73]] := by
    decide
  obtain ⟨s, hs, hentered⟩ := Option.map_eq_some_iff.mp hrun
  exact ⟨s, hentered, remembers (.of_guarded _ hs)⟩

/-- `ls` twice; `hello` and `hell`; and `a`, `b`, an up arrow, a backspace and an empty line. -/
theorem not_remembers :
    ¬ Remembers hello 80 ((enter [0x6c, 0x73] ++ enter [0x6c, 0x73]).foldl (Session.key hello 80)
      (Session.start fun _ => 0)) ∧
    ¬ Remembers hello 80 ((enter [0x68, 0x65, 0x6c, 0x6c, 0x6f] ++ enter [0x68, 0x65, 0x6c, 0x6c]).foldl
      (Session.key hello 80) (Session.start fun _ => 0)) ∧
    ¬ Remembers hello 80 ((enter [0x61] ++ enter [0x62] ++ up ++ [some 0x08] ++ enter []).foldl
      (Session.key hello 80) (Session.start fun _ => 0)) :=
  ⟨fun h => absurd h.ring (by decide), fun h => absurd h.ring (by decide),
    fun h => absurd (h.up (by decide) (by decide) 0 [0x62] (by decide)) (by decide)⟩

end Gpmx.Readline
