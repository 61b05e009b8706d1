import Mathlib

/-!
# Descriptors with positions of their own

Open files are shared by descriptors. Each descriptor has a position; a transfer happens there and moves
it on, and no other. A file is closed when its last descriptor is.

* `Files` — the files' contents, the descriptors, and how often each file was closed
* `Files.Does` — what a call on one descriptor may do, and what it answers
* `Files.Closed` — the closes are counted right; `Files.Does.closed` — every call keeps this
-/

namespace Gpmx.Infra

open Function List

inductive Whence where
  | set
  | cur
  | fromEnd
deriving DecidableEq

inductive Call (Fd β : Type) where
  | read (n : Nat)
  | write (data : List β)
  | seek (offset : Int) (whence : Whence)
  | truncate (length : Int)
  | dup (new : Fd)
  | close

inductive Reply (β : Type) where
  | error (ret : Int)
  | bytes (data : List β)
  | count (k : Nat)
  | position (pos : Nat)
  | done

/-- `new` is `old` with `data` written at `pos`. What lies between the end of the file and `pos` is open,
and without data the file may still be filled up to there. -/
structure Written {β : Type} (old new : List β) (pos : Nat) (data : List β) : Prop where
  put : ∀ j < data.length, new[pos + j]? = data[j]?
  kept : ∀ j < old.length, j < pos ∨ pos + data.length ≤ j → new[j]? = old[j]?
  le : old.length ≤ new.length
  length_le : new.length ≤ max old.length (pos + data.length)

structure Descriptor (Id : Type) where
  file : Id
  pos : Nat

structure Files (Fd Id β : Type) where
  contents : Id → List β
  fds : Fd → Option (Descriptor Id)
  closes : Id → Nat

variable {Fd Id β : Type}

theorem Written.refl (c : List β) (pos : Nat) : Written c c pos [] where
  put := nofun
  kept _ _ _ := rfl
  le := Nat.le_refl _
  length_le := Nat.le_max_left _ _

theorem Written.trans {old mid new : List β} {pos : Nat} {data : List β}
    (h : Written old mid pos []) (h' : Written mid new pos data) : Written old new pos data where
  put := h'.put
  kept j hj hout := by
    have hmid := h'.kept j (Nat.lt_of_lt_of_le hj h.le) hout
    exact hmid.trans (h.kept j hj (by simp; omega))
  le := Nat.le_trans h.le h'.le
  length_le := by
    have h1 := h.length_le
    have h2 := h'.length_le
    simp at h1
    omega

theorem Written.drop_eq {old new : List β} {pos : Nat} (h : Written old new pos []) :
    new.drop pos = old.drop pos := by
  have hle := h.length_le
  simp at hle
  by_cases hpos : pos < old.length
  · have hlen : new.length = old.length := by have := h.le; omega
    have heq : new = old := by
      refine ext_getElem? fun j => ?_
      by_cases hj : j < old.length
      · exact h.kept j hj (by simp; omega)
      · rw [getElem?_eq_none (by omega), getElem?_eq_none (by omega)]
    rw [heq]
  · rw [drop_eq_nil_of_le (by omega), drop_eq_nil_of_le (by omega)]

/-- A file in memory with `data` written at `pos`. -/
def overwrite (zero : β) (old : List β) (pos : Nat) (data : List β) : List β :=
  (old ++ List.replicate (pos - old.length) zero).take pos ++ (data ++ old.drop (pos + data.length))

theorem written_overwrite (zero : β) (old : List β) (pos : Nat) (data : List β) :
    Written old (overwrite zero old pos data) pos data := by
  have hfront : ((old ++ List.replicate (pos - old.length) zero).take pos).length = pos := by
    simp
    omega
  have hlen : (overwrite zero old pos data).length = max old.length (pos + data.length) := by
    unfold overwrite
    rw [length_append, hfront, length_append, length_drop]
    omega
  refine ⟨fun j hj => ?_, fun j hj hout => ?_, by omega, by omega⟩
  · unfold overwrite
    rw [getElem?_append_right (by omega), hfront, Nat.add_sub_cancel_left,
      getElem?_append_left hj]
  · unfold overwrite
    rcases hout with hlt | hge
    · rw [getElem?_append_left (by omega), getElem?_take_of_lt hlt,
        getElem?_append_left hj]
    · rw [getElem?_append_right (by omega), hfront, getElem?_append_right (by omega),
        getElem?_drop]
      congr 1
      omega

variable [DecidableEq Fd] [DecidableEq Id]

def Files.Shares (t : Files Fd Id β) (fd : Fd) (i : Id) : Prop := ∃ p, t.fds fd = some ⟨i, p⟩

/-- What a position of `lseek` is relative to. -/
def Files.base (t : Files Fd Id β) (d : Descriptor Id) : Whence → Int
  | .set => 0
  | .cur => d.pos
  | .fromEnd => (t.contents d.file).length

def Files.move (t : Files Fd Id β) (fd : Fd) (i : Id) (pos : Nat) (c : List β) : Files Fd Id β :=
  { t with
    contents := update t.contents i c
    fds := update t.fds fd (some ⟨i, pos⟩) }

/-- What a call on an open descriptor does. A file may change in any way in a call that fails, and when
it is truncated; no position changes then. -/
inductive Files.Does (t : Files Fd Id β) (fd : Fd) (i : Id) (pos : Nat) :
    Call Fd β → Reply β → Files Fd Id β → Prop
  | read {n c} : Written (t.contents i) c pos [] →
      t.Does fd i pos (.read n) (.bytes (((t.contents i).drop pos).take n))
        (t.move fd i (pos + (((t.contents i).drop pos).take n).length) c)
  | write {data k c} : k ≤ data.length → Written (t.contents i) c pos (data.take k) →
      t.Does fd i pos (.write data) (.count k) (t.move fd i (pos + k) c)
  | seek {offset whence} {pos' : Nat} : (pos' : Int) = t.base ⟨i, pos⟩ whence + offset →
      t.Does fd i pos (.seek offset whence) (.position pos') (t.move fd i pos' (t.contents i))
  | truncate {length c} : t.Does fd i pos (.truncate length) .done (t.move fd i pos c)
  | failed {call ret c} : call ≠ .close → t.Does fd i pos call (.error ret) (t.move fd i pos c)
  | dup {new} : t.fds new = none →
      t.Does fd i pos (.dup new) .done { t with fds := update t.fds new (some ⟨i, pos⟩) }
  | close {a fd'} : fd' ≠ fd → t.Shares fd' i →
      t.Does fd i pos .close a { t with fds := update t.fds fd none }
  | closeLast {a c} : (∀ fd', fd' ≠ fd → ¬t.Shares fd' i) →
      t.Does fd i pos .close a
        { contents := update t.contents i c
          fds := update t.fds fd none
          closes := update t.closes i (t.closes i + 1) }

/-- A file that has a descriptor was not closed, and none was closed twice. -/
structure Files.Closed (t : Files Fd Id β) : Prop where
  shared : ∀ fd i, t.Shares fd i → t.closes i = 0
  once : ∀ i, t.closes i ≤ 1

variable {t t' : Files Fd Id β} {fd fd' : Fd} {i i' : Id} {pos : Nat} {call : Call Fd β}
  {a : Reply β}

omit [DecidableEq Id] in
theorem shares_update {fds : Fd → Option (Descriptor Id)} {o : Option (Descriptor Id)}
    {contents : Id → List β} {closes : Id → Nat} :
    (Files.mk contents (update fds fd o) closes).Shares fd' i ↔
      if fd' = fd then ∃ p, o = some ⟨i, p⟩ else ∃ p, fds fd' = some ⟨i, p⟩ := by
  unfold Files.Shares
  by_cases h : fd' = fd
  · subst h; simp
  · simp [h]

theorem Files.Closed.opened (ht : t.Closed) (hi : t.closes i = 0) (pos' : Nat) (c : List β) :
    (t.move fd i pos' c).Closed := by
  refine ⟨fun fd' i' h => ?_, ht.once⟩
  rw [Files.move, shares_update] at h
  split_ifs at h with heq
  · obtain ⟨p, hp⟩ := h
    obtain ⟨rfl, -⟩ := Descriptor.mk.inj (Option.some.inj hp)
    exact hi
  · exact ht.shared fd' i' h

/-- **Every call keeps the closes right.** -/
theorem Files.Does.closed (h : t.Does fd i pos call a t') (hfd : t.fds fd = some ⟨i, pos⟩)
    (ht : t.Closed) : t'.Closed := by
  have hold : t.closes i = 0 := ht.shared fd i ⟨pos, hfd⟩
  cases h with
  | read | write | seek | truncate | failed => exact ht.opened hold _ _
  | dup hnew =>
    refine ⟨fun fd' i' h => ?_, ht.once⟩
    rw [shares_update] at h
    split_ifs at h with heq
    · obtain ⟨p, hp⟩ := h
      obtain ⟨rfl, -⟩ := Descriptor.mk.inj (Option.some.inj hp)
      exact hold
    · exact ht.shared fd' i' h
  | close =>
    refine ⟨fun fd' i' h => ?_, ht.once⟩
    rw [shares_update] at h
    split_ifs at h with heq
    · exact nomatch h
    · exact ht.shared fd' i' h
  | closeLast hlast =>
    refine ⟨fun fd' i' h => ?_, fun i' => ?_⟩
    · rw [shares_update] at h
      split_ifs at h with heq
      · exact nomatch h
      · have hne : i' ≠ i := by
          rintro rfl
          exact hlast fd' heq h
        simpa [hne] using ht.shared fd' i' h
    · by_cases hi : i' = i
      · subst hi; simp [hold]
      · simpa [hi] using ht.once i'

theorem Files.Does.position_eq {pos' : Nat} (h : t.Does fd i pos (.seek 0 .cur) (.position pos') t') :
    pos' = pos := by
  cases h with
  | seek hbase =>
    simp [Files.base] at hbase
    omega

end Gpmx.Infra
