import Gpmx.Infra.Ring

/-!
# Byte buffers of the serial drivers

`gpm/drivers/serial/serial.c` and `sched/platform/drv_grb.c` have the same ring of bytes, with two indices
and a count of sixteen bits each. Only `serial_buf_clear` also zeroes the storage.

The storage has as many bytes as the ring has capacity. A result `none` is an access outside of it.
-/

namespace Gpmx.Serial

open Infra

/-- `struct uart_buffer_s` and `struct gringbuffer` -/
structure Buffer where
  «in» : UInt16
  out : UInt16
  size : UInt16
  capacity : UInt16
  buffer : Memory UInt8

/-- `i++; if (i >= capacity) i -= capacity;` -/
def advance (capacity i : UInt16) : UInt16 :=
  if i + 1 ≥ capacity then i + 1 - capacity else i + 1

def Buffer.put (obj : Buffer) (b : UInt8) : Option Buffer :=
  if obj.in < obj.capacity then
    some { obj with
      buffer := obj.buffer.write obj.in.toNat [b]
      «in» := advance obj.capacity obj.in
      size := obj.size + 1 }
  else none

def Buffer.get (obj : Buffer) : Option (UInt8 × Buffer) :=
  if obj.out < obj.capacity then
    some (obj.buffer obj.out.toNat, { obj with
      out := advance obj.capacity obj.out
      size := obj.size - 1 })
  else none

def Buffer.gets (obj : Buffer) : Nat → Option (List UInt8 × Buffer)
  | 0 => some ([], obj)
  | n + 1 => do
    let (b, obj) ← obj.get
    let (bs, obj) ← obj.gets n
    some (b :: bs, obj)

def Buffer.wlen (obj : Buffer) (len : UInt16) : UInt16 :=
  let rssize := obj.capacity - obj.size
  if rssize ≥ len then len else rssize

def Buffer.rlen (obj : Buffer) (len : UInt16) : UInt16 :=
  if obj.size ≥ len then len else obj.size

/-- A write of the `len` bytes at `p`: how many were accepted, and the buffer. -/
def bufWrite (obj : Buffer) (p : Memory UInt8) (len : UInt16) : Option (UInt16 × Buffer) := do
  let wlen := obj.wlen len
  let obj ← (p.read 0 wlen.toNat).foldlM Buffer.put obj
  some (wlen, obj)

/-- A read of up to `len` bytes: what is stored for the caller, and the buffer. -/
def bufRead (obj : Buffer) (len : UInt16) : Option (List UInt8 × Buffer) :=
  obj.gets (obj.rlen len).toNat

def bufClear (obj : Buffer) : Buffer := { obj with size := 0, «in» := 0, out := 0 }

/-! ## The functions -/

def serialBufWrite (obj : Buffer) (p : Memory UInt8) (len : UInt16) : Option (UInt16 × Buffer) :=
  bufWrite obj p len

def serialBufRead (obj : Buffer) (len : UInt16) : Option (List UInt8 × Buffer) := bufRead obj len

def serialBufClear (obj : Buffer) : Buffer :=
  bufClear { obj with buffer := obj.buffer.write 0 (List.replicate obj.capacity.toNat 0) }

def grbWrite (obj : Buffer) (p : Memory UInt8) (len : UInt16) : Option (UInt16 × Buffer) :=
  bufWrite obj p len

def grbRead (obj : Buffer) (len : UInt16) : Option (List UInt8 × Buffer) := bufRead obj len

def grbClear (obj : Buffer) : Buffer := bufClear obj

/-- `grb_init`, with what is in the storage. The boards initialize an `uart_buffer_s` in the same way. -/
def grbInit (p : Memory UInt8) (capacity : UInt16) : Buffer :=
  grbClear ⟨0, 0, 0, capacity, p⟩

/-! ## Runs -/

inductive Family where
  | serial
  | grb
deriving DecidableEq

def Family.write : Family → Buffer → Memory UInt8 → UInt16 → Option (UInt16 × Buffer)
  | .serial => serialBufWrite
  | .grb => grbWrite

def Family.read : Family → Buffer → UInt16 → Option (List UInt8 × Buffer)
  | .serial => serialBufRead
  | .grb => grbRead

def Family.clear : Family → Buffer → Buffer
  | .serial => serialBufClear
  | .grb => grbClear

inductive Op where
  | write (p : Memory UInt8) (len : UInt16)
  | read (len : UInt16)
  | clear

inductive Reply where
  | accepted (wlen : Nat)
  | bytes (p : List UInt8)
  | cleared
deriving DecidableEq

def step (fam : Family) (obj : Buffer) : Op → Option (Reply × Buffer)
  | .write p len => (fam.write obj p len).map fun r => (.accepted r.1.toNat, r.2)
  | .read len => (fam.read obj len).map fun r => (.bytes r.1, r.2)
  | .clear => some (.cleared, fam.clear obj)

def run (fam : Family) (obj : Buffer) : List Op → Option (List Reply × Buffer)
  | [] => some ([], obj)
  | op :: ops => do
    let (reply, obj) ← step fam obj op
    let (replies, obj) ← run fam obj ops
    some (reply :: replies, obj)

/-! ## A queue with a bound -/

/-- A call on a queue that holds up to `cap` bytes. -/
def fifoStep (cap : Nat) (q : List UInt8) : Op → Reply × List UInt8
  | .write p len =>
    let k := min len.toNat (cap - q.length)
    (.accepted k, q ++ p.read 0 k)
  | .read len => (.bytes (q.take len.toNat), q.drop len.toNat)
  | .clear => (.cleared, [])

def fifoRun (cap : Nat) (q : List UInt8) : List Op → List Reply × List UInt8
  | [] => ([], q)
  | op :: ops =>
    let r := fifoStep cap q op
    let rest := fifoRun cap r.2 ops
    (r.1 :: rest.1, rest.2)

end Gpmx.Serial

/-!
## The byte buffers are bounded queues

An index is less than the capacity, which is at most 65535, so the index after it still fits in sixteen
bits before it is wrapped, and so does a count that is less than the capacity.
-/

namespace Gpmx.Serial

open Infra

def Buffer.contents (obj : Buffer) : List UInt8 :=
  Ring.contents obj.buffer obj.capacity.toNat obj.out.toNat obj.size.toNat

structure Buffer.Stands (obj : Buffer) : Prop where
  out_lt : obj.out.toNat < obj.capacity.toNat
  size_le : obj.size.toNat ≤ obj.capacity.toNat
  in_eq : obj.in.toNat = Ring.slot obj.capacity.toNat obj.out.toNat obj.size.toNat

@[simp] theorem Buffer.length_contents (obj : Buffer) : obj.contents.length = obj.size.toNat := by
  simp [Buffer.contents]

/-! ## One byte -/

theorem advance_toNat {capacity i : UInt16} (h : i.toNat < capacity.toNat) :
    (advance capacity i).toNat = Ring.next capacity.toNat i.toNat := by
  have hcap := capacity.toNat_lt
  have hsucc : (i + 1).toNat = i.toNat + 1 := by
    rw [UInt16.toNat_add, UInt16.toNat_one, Nat.mod_eq_of_lt (by omega)]
  unfold advance Ring.next
  by_cases hlast : capacity.toNat ≤ i.toNat + 1
  · have hle : capacity ≤ i + 1 := by
      rw [UInt16.le_iff_toNat_le, hsucc]
      exact hlast
    rw [if_pos hle, if_pos hlast, UInt16.toNat_sub_of_le _ _ hle, hsucc]
    omega
  · have hnle : ¬capacity ≤ i + 1 := by
      rw [UInt16.le_iff_toNat_le, hsucc]
      exact hlast
    rw [if_neg hnle, if_neg hlast, hsucc]

section Bytes

variable {obj : Buffer}

theorem Buffer.Stands.in_lt (h : obj.Stands) : obj.in.toNat < obj.capacity.toNat := by
  have hout := h.out_lt
  have hsize := h.size_le
  rw [h.in_eq]
  unfold Ring.slot
  split <;> omega

theorem Buffer.Stands.distance (h : obj.Stands) :
    obj.size.toNat = (obj.in.toNat + obj.capacity.toNat - obj.out.toNat) % obj.capacity.toNat ∨
      obj.size.toNat = obj.capacity.toNat ∧ obj.in.toNat = obj.out.toNat := by
  have hout := h.out_lt
  have hsize := h.size_le
  have hin := h.in_eq
  unfold Ring.slot at hin
  by_cases hfull : obj.size.toNat = obj.capacity.toNat
  · refine .inr ⟨hfull, ?_⟩
    rw [hin, if_neg (by omega)]
    omega
  · refine .inl ?_
    split at hin
    · have hsum : obj.in.toNat + obj.capacity.toNat - obj.out.toNat = obj.size.toNat + obj.capacity.toNat := by
        omega
      rw [hsum, Nat.add_mod_right, Nat.mod_eq_of_lt (by omega)]
    · have hsum : obj.in.toNat + obj.capacity.toNat - obj.out.toNat = obj.size.toNat := by omega
      rw [hsum, Nat.mod_eq_of_lt (by omega)]

theorem put_spec (h : obj.Stands) (hroom : obj.size.toNat < obj.capacity.toNat) (b : UInt8) :
    ∃ obj', obj.put b = some obj' ∧ obj'.Stands ∧ obj'.capacity = obj.capacity ∧
      obj'.contents = obj.contents ++ [b] := by
  have hin := h.in_lt
  have hsucc : (obj.size + 1).toNat = obj.size.toNat + 1 := by
    have hcap := obj.capacity.toNat_lt
    rw [UInt16.toNat_add, UInt16.toNat_one, Nat.mod_eq_of_lt (by omega)]
  refine ⟨_, if_pos (UInt16.lt_iff_toNat_lt.mpr hin), ⟨h.out_lt, ?_, ?_⟩, rfl, ?_⟩
  · dsimp only
    rw [hsucc]
    exact hroom
  · dsimp only
    rw [advance_toNat hin, h.in_eq, hsucc, Ring.slot_succ h.out_lt hroom]
  · unfold Buffer.contents
    rw [hsucc, h.in_eq]
    exact Ring.contents_put obj.buffer b hroom

theorem get_spec (h : obj.Stands) (hsome : 0 < obj.size.toNat) :
    ∃ b obj', obj.get = some (b, obj') ∧ obj'.Stands ∧ obj'.capacity = obj.capacity ∧
      obj.contents = b :: obj'.contents := by
  have hout := h.out_lt
  have hsize := h.size_le
  have hpred : (obj.size - 1).toNat = obj.size.toNat - 1 :=
    UInt16.toNat_sub_of_le _ _ (UInt16.le_iff_toNat_le.mpr hsome)
  obtain ⟨n, hn⟩ := Nat.exists_eq_add_one_of_ne_zero (Nat.ne_of_gt hsome)
  refine ⟨_, _, if_pos (UInt16.lt_iff_toNat_lt.mpr hout), ⟨?_, ?_, ?_⟩, rfl, ?_⟩
  · dsimp only
    rw [advance_toNat hout]
    exact Ring.next_lt hout
  · dsimp only
    omega
  · dsimp only
    rw [advance_toNat hout, hpred, h.in_eq, hn, Nat.add_sub_cancel]
    unfold Ring.slot Ring.next
    split <;> split <;> split <;> omega
  · unfold Buffer.contents
    rw [advance_toNat hout, hpred, hn, Nat.add_sub_cancel]
    exact Ring.contents_take obj.buffer hout (by omega)

/-! ## Many bytes -/

theorem puts_spec (bs : List UInt8) (h : obj.Stands)
    (hroom : obj.size.toNat + bs.length ≤ obj.capacity.toNat) :
    ∃ obj', bs.foldlM Buffer.put obj = some obj' ∧ obj'.Stands ∧ obj'.capacity = obj.capacity ∧
      obj'.contents = obj.contents ++ bs := by
  induction bs generalizing obj with
  | nil => exact ⟨obj, rfl, h, rfl, by simp⟩
  | cons b bs ih =>
    rw [List.length_cons] at hroom
    obtain ⟨obj₁, hput, h₁, hcap, hcontents⟩ := put_spec h (by omega) b
    have hsize : obj₁.size.toNat = obj.size.toNat + 1 := by
      rw [← obj₁.length_contents, hcontents]
      simp
    obtain ⟨obj', hputs, h', hcap', hcontents'⟩ := ih h₁ (by rw [hsize, hcap]; omega)
    refine ⟨obj', ?_, h', hcap'.trans hcap, ?_⟩
    · rw [List.foldlM_cons, hput]
      exact hputs
    · rw [hcontents', hcontents, List.append_assoc]
      rfl

theorem gets_spec (n : Nat) (h : obj.Stands) (hsome : n ≤ obj.size.toNat) :
    ∃ obj', obj.gets n = some (obj.contents.take n, obj') ∧ obj'.Stands ∧
      obj'.capacity = obj.capacity ∧ obj'.contents = obj.contents.drop n := by
  induction n generalizing obj with
  | zero => exact ⟨obj, rfl, h, rfl, rfl⟩
  | succ n ih =>
    obtain ⟨b, obj₁, hget, h₁, hcap, hcontents⟩ := get_spec h (by omega)
    have hsize : obj.size.toNat = obj₁.size.toNat + 1 := by
      rw [← obj.length_contents, hcontents]
      simp
    obtain ⟨obj', hgets, h', hcap', hcontents'⟩ := ih h₁ (by omega)
    refine ⟨obj', ?_, h', hcap'.trans hcap, ?_⟩
    · simp [Buffer.gets, hget, hgets, hcontents]
    · simp [hcontents', hcontents]

end Bytes

/-! ## Calls -/

section Calls

variable {obj : Buffer} {fam : Family}

theorem wlen_toNat (h : obj.Stands) (len : UInt16) :
    (obj.wlen len).toNat = min len.toNat (obj.capacity.toNat - obj.size.toNat) := by
  have hfree : (obj.capacity - obj.size).toNat = obj.capacity.toNat - obj.size.toNat :=
    UInt16.toNat_sub_of_le _ _ (UInt16.le_iff_toNat_le.mpr h.size_le)
  simp only [Buffer.wlen, ge_iff_le, UInt16.le_iff_toNat_le, hfree]
  split <;> omega

theorem rlen_toNat (obj : Buffer) (len : UInt16) : (obj.rlen len).toNat = min len.toNat obj.size.toNat := by
  simp only [Buffer.rlen, ge_iff_le, UInt16.le_iff_toNat_le]
  split <;> omega

theorem bufWrite_spec (h : obj.Stands) (p : Memory UInt8) (len : UInt16) :
    ∃ wlen obj', bufWrite obj p len = some (wlen, obj') ∧ obj'.Stands ∧ obj'.capacity = obj.capacity ∧
      wlen.toNat = min len.toNat (obj.capacity.toNat - obj.contents.length) ∧
      obj'.contents = obj.contents ++ p.read 0 wlen.toNat := by
  have hwlen := wlen_toNat h len
  have hsize := h.size_le
  obtain ⟨obj', hputs, h', hcap, hcontents⟩ :=
    puts_spec (p.read 0 (obj.wlen len).toNat) h (by rw [Memory.length_read]; omega)
  refine ⟨obj.wlen len, obj', ?_, h', hcap, ?_, hcontents⟩
  · simp [bufWrite, hputs]
  · rw [hwlen, obj.length_contents]

theorem bufRead_spec (h : obj.Stands) (len : UInt16) :
    ∃ obj', bufRead obj len = some (obj.contents.take len.toNat, obj') ∧ obj'.Stands ∧
      obj'.capacity = obj.capacity ∧ obj'.contents = obj.contents.drop len.toNat := by
  have hrlen := rlen_toNat obj len
  have hsize := obj.length_contents
  obtain ⟨obj', hgets, h', hcap, hcontents⟩ := gets_spec (obj.rlen len).toNat h (by omega)
  refine ⟨obj', ?_, h', hcap, ?_⟩
  · rw [bufRead, hgets, hrlen, ← hsize, ← List.take_eq_take_min]
  · rw [hcontents, hrlen, ← hsize, ← List.drop_eq_drop_min]

theorem bufClear_spec (obj : Buffer) (hcap : 0 < obj.capacity.toNat) :
    (bufClear obj).Stands ∧ (bufClear obj).contents = [] := by
  refine ⟨⟨hcap, Nat.zero_le _, ?_⟩, rfl⟩
  simp [bufClear, Ring.slot, hcap]

theorem clear_spec (fam : Family) (h : obj.Stands) :
    (fam.clear obj).Stands ∧ (fam.clear obj).capacity = obj.capacity ∧ (fam.clear obj).contents = [] := by
  have hcap : 0 < obj.capacity.toNat := Nat.zero_lt_of_lt h.out_lt
  cases fam with
  | serial =>
    obtain ⟨h', hcontents⟩ := bufClear_spec { obj with
      buffer := obj.buffer.write 0 (List.replicate obj.capacity.toNat 0) } hcap
    exact ⟨h', rfl, hcontents⟩
  | grb =>
    obtain ⟨h', hcontents⟩ := bufClear_spec obj hcap
    exact ⟨h', rfl, hcontents⟩

/-- **A call does what it does on a queue.** -/
theorem step_spec (fam : Family) (h : obj.Stands) (op : Op) :
    ∃ reply obj', step fam obj op = some (reply, obj') ∧ obj'.Stands ∧ obj'.capacity = obj.capacity ∧
      fifoStep obj.capacity.toNat obj.contents op = (reply, obj'.contents) := by
  cases op with
  | write p len =>
    obtain ⟨wlen, obj', hwrite, h', hcap, hwlen, hcontents⟩ := bufWrite_spec h p len
    refine ⟨.accepted wlen.toNat, obj', ?_, h', hcap, ?_⟩
    · cases fam <;> simp [step, Family.write, serialBufWrite, grbWrite, hwrite]
    · rw [fifoStep, ← hwlen, hcontents]
  | read len =>
    obtain ⟨obj', hread, h', hcap, hcontents⟩ := bufRead_spec h len
    refine ⟨.bytes (obj.contents.take len.toNat), obj', ?_, h', hcap, ?_⟩
    · cases fam <;> simp [step, Family.read, serialBufRead, grbRead, hread]
    · rw [fifoStep, hcontents]
  | clear =>
    obtain ⟨h', hcap, hcontents⟩ := clear_spec fam h
    exact ⟨.cleared, fam.clear obj, rfl, h', hcap, by rw [fifoStep, hcontents]⟩

theorem run_spec (fam : Family) (h : obj.Stands) (ops : List Op) :
    ∃ replies obj', run fam obj ops = some (replies, obj') ∧ obj'.Stands ∧
      obj'.capacity = obj.capacity ∧ fifoRun obj.capacity.toNat obj.contents ops = (replies, obj'.contents) := by
  induction ops generalizing obj with
  | nil => exact ⟨[], obj, rfl, h, rfl, rfl⟩
  | cons op ops ih =>
    obtain ⟨reply, obj₁, hstep, h₁, hcap₁, hfifo₁⟩ := step_spec fam h op
    obtain ⟨replies, obj', hrun, h', hcap, hfifo⟩ := ih h₁
    refine ⟨reply :: replies, obj', ?_, h', hcap.trans hcap₁, ?_⟩
    · simp [run, hstep, hrun]
    · rw [hcap₁] at hfifo
      simp [fifoRun, hfifo₁, hfifo]

end Calls

/-! ## Traffic -/

/-- What has been accepted and what has been delivered since the last clear. -/
def traffic : List UInt8 × List UInt8 → List Op → List Reply → List UInt8 × List UInt8
  | t, .write p _ :: ops, .accepted wlen :: replies => traffic (t.1 ++ p.read 0 wlen, t.2) ops replies
  | t, .read _ :: ops, .bytes bs :: replies => traffic (t.1, t.2 ++ bs) ops replies
  | _, .clear :: ops, .cleared :: replies => traffic ([], []) ops replies
  | t, _, _ => t

theorem traffic_fifoRun {cap : Nat} {q : List UInt8} (ops : List Op) {t : List UInt8 × List UInt8}
    (h : t.1 = t.2 ++ q) :
    (traffic t ops (fifoRun cap q ops).1).1
      = (traffic t ops (fifoRun cap q ops).1).2 ++ (fifoRun cap q ops).2 := by
  induction ops generalizing q t with
  | nil => exact h
  | cons op ops ih =>
    cases op with
    | write p len | read len => exact ih (by simp [fifoStep, h])
    | clear => exact ih rfl

/-- **The byte buffers are bounded queues.** For every capacity, every sequence of calls and either
family: no call leaves the storage, every call returns what it returns on a queue with that bound, the
count and the indices are in their bounds and go together, and what has been accepted since the last clear
is what has been delivered, followed by what is in the buffer. -/
theorem buffer_fifo (fam : Family) (storage : Memory UInt8) (capacity : UInt16) (ops : List Op)
    (hcap : 0 < capacity) :
    ∃ replies obj, run fam (grbInit storage capacity) ops = some (replies, obj) ∧
      fifoRun capacity.toNat [] ops = (replies, obj.contents) ∧
      obj.size.toNat ≤ capacity.toNat ∧ obj.in.toNat < capacity.toNat ∧ obj.out.toNat < capacity.toNat ∧
      (obj.size.toNat = (obj.in.toNat + capacity.toNat - obj.out.toNat) % capacity.toNat ∨
        obj.size.toNat = capacity.toNat ∧ obj.in.toNat = obj.out.toNat) ∧
      (traffic ([], []) ops replies).1 = (traffic ([], []) ops replies).2 ++ obj.contents := by
  obtain ⟨h, hcontents⟩ := bufClear_spec ⟨0, 0, 0, capacity, storage⟩ (UInt16.lt_iff_toNat_lt.mp hcap)
  obtain ⟨replies, obj, hrun, h', hcap', hfifo⟩ := run_spec fam h ops
  rw [hcontents] at hfifo
  have htraffic := @traffic_fifoRun capacity.toNat [] ops ([], []) rfl
  have hfifo' : fifoRun capacity.toNat [] ops = (replies, obj.contents) := hfifo
  rw [hfifo'] at htraffic
  have hobj : obj.capacity = capacity := hcap'
  subst hobj
  exact ⟨replies, obj, hrun, hfifo', h'.size_le, h'.in_lt, h'.out_lt, h'.distance, htraffic⟩

/-- Bytes that wrap around in a buffer of three. -/
theorem buffer_fifo_wraps :
    ∃ replies obj, run .serial (grbInit (fun _ => 7) 3)
        [.write (fun i => UInt8.ofNat i) 2, .read 1, .write (fun i => UInt8.ofNat (10 + i)) 5, .read 9]
          = some (replies, obj) ∧
      replies = [.accepted 2, .bytes [0], .accepted 2, .bytes [1, 10, 11]] := by
  obtain ⟨replies, obj, hrun, hfifo, -⟩ := buffer_fifo .serial (fun _ => 7) 3
    [.write (fun i => UInt8.ofNat i) 2, .read 1, .write (fun i => UInt8.ofNat (10 + i)) 5, .read 9]
    (by decide)
  have hreplies : _ = replies := congrArg Prod.fst hfifo
  refine ⟨replies, obj, hrun, ?_⟩
  rw [← hreplies]
  decide

end Gpmx.Serial
