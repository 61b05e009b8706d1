import Gpmx.Uorb.DeviceNode
import Gpmx.Infra.Transducer
import Mathlib

/-!
# What a subscriber gets

One topic node with a queue of `q` messages and one subscriber without an update interval,
against the abstract feed it should be: the list of everything published, and the position the
subscriber has read up to. The generation of the node and that of the subscriber are the two numbers of the
feed modulo `2 ^ 32`, and the slot of a message is its number modulo `2 ^ 32`, modulo the size of the queue.

`Abreast` is exactly when a copy is right (`copy_right_iff`, `copy_right_iff_one`). With fewer than `2 ^ 32`
publications (`run_eq_feed`) it is, as long as no copy is made with a generation so large that
adding `q` to it passes `2 ^ 32`. There the test for a reader that fell behind is true for one
that did not, and the subscriber is sent back to messages it has read (`copy_near_wrap`).
-/

namespace Gpmx.Uorb

open Infra List

/-! ## The abstract feed -/

structure Feed where
  oSize : Nat
  q : Nat
  pubs : List (List UInt8)
  pos : Nat

inductive Op where
  | publish (heap : Option (Memory UInt8)) (data : Memory UInt8)
  | copy (now : Nat)
  | check (now : Nat)

inductive Answer where
  | published (ret : Int)
  | copied (ret : Int) (bytes : List UInt8)
  | checked (updated : Bool)
  | fault
  deriving DecidableEq

/-- The oldest message still held that the subscriber has not read; the end, if it has read all. -/
def Feed.next (feed : Feed) : Nat := max feed.pos (feed.pubs.length - feed.q)

def feedStep (feed : Feed) : Op → Feed × Answer
  | .publish heap data =>
    -- the first publication needs memory for the queue
    if feed.pubs = [] ∧ heap = none then (feed, .published (-1))
    else ({ feed with pubs := feed.pubs ++ [data.read 0 feed.oSize] }, .published 0)
  | .copy _ =>
    if feed.pubs = [] then (feed, .copied 0 [])
    else if feed.next < feed.pubs.length then
      ({ feed with pos := feed.next + 1 },
        .copied feed.oSize ((feed.pubs[feed.next]?).getD []))
    else
      ({ feed with pos := feed.pubs.length },
        .copied feed.oSize ((feed.pubs[feed.pubs.length - 1]?).getD []))
  | .check _ => (feed, .checked (decide (feed.pos < feed.pubs.length)))

/-! ## The node -/

def nodeStep (node : DeviceNode) : Op → DeviceNode × Answer
  | .publish heap data =>
    ((uorbDeviceNodePublish heap node data).2,
      .published (uorbDeviceNodePublish heap node data).1)
  | .copy now =>
    match uorbDeviceNodeRead now node node.oSize with
    | none => (node, .fault)
    | some r => (r.node, .copied r.ret r.bytes)
  | .check now =>
    match uorbDeviceNodeAppearsUpdated now node with
    | none => (node, .fault)
    | some updated => (node, .checked updated)

variable {node : DeviceNode} {feed : Feed} {n p q published pos k : Nat} {heap : Option (Memory UInt8)}
  {data : Memory UInt8}

/-- The messages of the last `q` that were published since the counter wrapped are in their slots. With a
queue of one message there is only one slot. -/
def Slots (node : DeviceNode) (data : Memory UInt8) (pubs : List (List UInt8)) : Prop :=
  ∀ i, (h : i < pubs.length) → pubs.length ≤ i + node.queueSize →
    node.queueSize = 1 ∨ pubs.length / 2 ^ 32 * 2 ^ 32 ≤ i →
    data.read (node.oSize * (i % 2 ^ 32 % node.queueSize)) node.oSize = pubs[i]

/-- The node has the messages of the feed, of which there may be any number. -/
structure Holds (node : DeviceNode) (feed : Feed) : Prop where
  oSize_eq : node.oSize = feed.oSize
  q_eq : node.queueSize = feed.q
  q_pos : 0 < feed.q
  q_le : feed.q ≤ 255
  count : node.generation = feed.pubs.length % 2 ^ 32
  empty_iff : node.data = none ↔ feed.pubs = []
  slots : ∀ data, node.data = some data → Slots node data feed.pubs

structure Tracks (node : DeviceNode) (feed : Feed) : Prop extends Holds node feed where
  pos_le : feed.pos ≤ feed.pubs.length
  reader : node.priv = .live { generation := feed.pos % 2 ^ 32, updateInterval := none }

/-! ## Publishing -/

theorem slot_apart {o a b j : Nat} (h : a ≠ b) (h1 : o * a ≤ j) (h2 : j < o * a + o) :
    j < o * b ∨ o * b + o ≤ j := by
  rcases Nat.lt_or_gt_of_ne h with hlt | hgt
  · have := Nat.mul_le_mul_left o (Nat.succ_le_of_lt hlt)
    rw [Nat.mul_succ] at this
    exact .inl (by omega)
  · have := Nat.mul_le_mul_left o (Nat.succ_le_of_lt hgt)
    rw [Nat.mul_succ] at this
    exact .inr (by omega)

theorem mod_ne_of_close {i n : Nat} (h1 : i < n) (h2 : n < i + q) : i % q ≠ n % q := by
  intro he
  have hzero : (n - i) % q = 0 := Nat.sub_mod_eq_zero_of_mod_eq he.symm
  rw [Nat.mod_eq_of_lt (by omega)] at hzero
  omega

theorem write_eq (hd : (node.data <|> heap) = some data) (msg : Memory UInt8) :
    uorbDeviceNodePublish heap node msg
      = (0, { node with
          generation := (node.generation + 1) % 2 ^ 32
          data := some (data.write (node.oSize * (node.generation % node.queueSize))
            (msg.read 0 node.oSize)) }) := by
  have hpos : ¬((node.oSize : Int) < 0) := by omega
  simp only [uorbDeviceNodePublish, uorbDeviceNodeWrite, hd, ne_eq, not_true_eq_false, if_false, hpos]

theorem write_eq_none (hd : (node.data <|> heap) = none) (msg : Memory UInt8) :
    uorbDeviceNodePublish heap node msg = (-1, node) := by
  have hneg : (-ENOMEM) < 0 := by decide
  simp only [uorbDeviceNodePublish, uorbDeviceNodeWrite, hd, hneg, if_true]

theorem slots_write {pubs : List (List UInt8)} {data : Memory UInt8} {msg : List UInt8}
    (hlen : msg.length = node.oSize) (hcount : node.generation = pubs.length % 2 ^ 32)
    (h : Slots node data pubs) :
    Slots node (data.write (node.oSize * (node.generation % node.queueSize)) msg) (pubs ++ [msg]) := by
  intro i hi hin hepoch
  rw [length_append, length_singleton] at hi hin hepoch
  rcases Nat.lt_succ_iff_lt_or_eq.mp hi with hlt | rfl
  · have hepoch' : node.queueSize = 1 ∨ pubs.length / 2 ^ 32 * 2 ^ 32 ≤ i :=
      hepoch.imp_right (Nat.le_trans (Nat.mul_le_mul_right _ (Nat.div_le_div_right (Nat.le_succ _))))
    rw [getElem_append_left hlt, ← h i hlt (by omega) hepoch']
    apply Memory.read_congr
    intro j h1 h2
    have hne : i % 2 ^ 32 % node.queueSize ≠ node.generation % node.queueSize := by
      rw [hcount]
      exact mod_ne_of_close (by omega) (by omega)
    rw [Memory.write_of_not_mem]
    rw [hlen]
    exact slot_apart hne h1 h2
  · rw [getElem_append_right (Nat.le_refl _), hcount]
    simp only [Nat.sub_self, getElem_cons_zero]
    have hself := Memory.read_write_self data
      (node.oSize * (pubs.length % 2 ^ 32 % node.queueSize)) msg
    rwa [hlen] at hself

theorem publish_holds (h : Holds node feed) (heap : Option (Memory UInt8)) (data : Memory UInt8) :
    Holds (nodeStep node (.publish heap data)).1 (feedStep feed (.publish heap data)).1 ∧
      (nodeStep node (.publish heap data)).2 = (feedStep feed (.publish heap data)).2 := by
  cases hd : (node.data <|> heap) with
  | none =>
    obtain ⟨hdata, hheap⟩ : node.data = none ∧ heap = none := by
      cases hn : node.data with
      | none =>
        rw [hn] at hd
        exact ⟨rfl, hd⟩
      | some ring =>
        rw [hn] at hd
        cases hd
    simp only [nodeStep, feedStep, write_eq_none hd]
    rw [if_pos ⟨h.empty_iff.mp hdata, hheap⟩]
    exact ⟨h, rfl⟩
  | some ring =>
    have hsome : ¬(feed.pubs = [] ∧ heap = none) := by
      rintro ⟨hempty, rfl⟩
      rw [h.empty_iff.mpr hempty] at hd
      cases hd
    have hold : Slots node ring feed.pubs := by
      cases hn : node.data with
      | none =>
        intro i hi
        rw [h.empty_iff.mp hn] at hi
        cases hi
      | some ring' =>
        rw [hn] at hd
        cases hd
        exact h.slots _ hn
    simp only [nodeStep, feedStep, write_eq hd, if_neg hsome, and_true]
    refine ⟨h.oSize_eq, h.q_eq, h.q_pos, h.q_le, ?_, ?_, ?_⟩
    · show (node.generation + 1) % 2 ^ 32 = (feed.pubs ++ [_]).length % 2 ^ 32
      rw [length_append, length_singleton, h.count, Nat.mod_add_mod]
    · refine ⟨fun hnone => absurd hnone (Option.some_ne_none _), fun hempty => ?_⟩
      exact absurd hempty (append_ne_nil_of_right_ne_nil _ (cons_ne_nil _ _))
    · rintro data' hdata
      cases hdata
      rw [← h.oSize_eq]
      exact slots_write (Memory.length_read _ _ _) h.count hold

theorem publish_priv (node : DeviceNode) (heap : Option (Memory UInt8)) (data : Memory UInt8) :
    (nodeStep node (.publish heap data)).1.priv = node.priv := by
  cases hd : (node.data <|> heap) with
  | none => simp only [nodeStep, write_eq_none hd]
  | some ring => simp only [nodeStep, write_eq hd]

theorem feed_publish (feed : Feed) (heap : Option (Memory UInt8)) (data : Memory UInt8) :
    (feedStep feed (.publish heap data)).1.pos = feed.pos ∧
      feed.pubs.length ≤ (feedStep feed (.publish heap data)).1.pubs.length := by
  simp only [feedStep]
  split
  · exact ⟨rfl, Nat.le_refl _⟩
  · exact ⟨rfl, by rw [length_append]; exact Nat.le_add_right _ _⟩

theorem publish_tracks (h : Tracks node feed) (heap : Option (Memory UInt8)) (data : Memory UInt8) :
    Tracks (nodeStep node (.publish heap data)).1 (feedStep feed (.publish heap data)).1 ∧
      (nodeStep node (.publish heap data)).2 = (feedStep feed (.publish heap data)).2 := by
  obtain ⟨hs, hans⟩ := publish_holds h.toHolds heap data
  obtain ⟨hpos, hlen⟩ := feed_publish feed heap data
  refine ⟨⟨hs, ?_, ?_⟩, hans⟩
  · rw [hpos]
    exact Nat.le_trans h.pos_le hlen
  · rw [publish_priv, hpos]
    exact h.reader

/-! ## One copy -/

def Feed.readAt (feed : Feed) : Nat :=
  if feed.next < feed.pubs.length then feed.next else feed.pubs.length - 1

def Feed.after (feed : Feed) : Nat :=
  if feed.next < feed.pubs.length then feed.next + 1 else feed.pubs.length

/-- The generation that `uorb_device_node_copy_locked` leaves. -/
def leftGeneration (node : DeviceNode) (g : Nat) : Nat :=
  if g < node.generation then (g + 1) % 2 ^ 32 else g

/-- The generations can be compared. Either both counters have passed `2 ^ 32` equally often, the sum in
the test for a reader that fell behind does not pass it either, and something has been published since.
Or that test comes out true, and the queue has been filled since. A queue of one message asks for less. -/
def Abreast (q published pos : Nat) : Prop :=
  if published / 2 ^ 32 = pos / 2 ^ 32 then
    q = 1 ∨ pos % 2 ^ 32 + q < 2 ^ 32 ∧ 0 < published % 2 ^ 32
  else
    (q ≤ published % 2 ^ 32 ∧ (pos % 2 ^ 32 + q) % 2 ^ 32 ≤ published % 2 ^ 32) ∨
      q = 1 ∧ pos % 2 ^ 32 ≤ published % 2 ^ 32

instance : Decidable (Abreast q published pos) :=
  inferInstanceAs (Decidable (if published / 2 ^ 32 = pos / 2 ^ 32 then
      q = 1 ∨ pos % 2 ^ 32 + q < 2 ^ 32 ∧ 0 < published % 2 ^ 32
    else
      (q ≤ published % 2 ^ 32 ∧ (pos % 2 ^ 32 + q) % 2 ^ 32 ≤ published % 2 ^ 32) ∨
        q = 1 ∧ pos % 2 ^ 32 ≤ published % 2 ^ 32))

theorem copyGeneration_cases (hq : 0 < node.queueSize) (hq' : node.queueSize ≤ 255)
    (hn : node.generation < 2 ^ 32) : copyGeneration node p =
      if (p + node.queueSize) % 2 ^ 32 < node.generation then
        if node.queueSize ≤ node.generation then node.generation - node.queueSize
        else node.generation + 2 ^ 32 - node.queueSize
      else if node.generation = p ∧ 0 < p then p - 1 else p := by
  unfold copyGeneration
  dsimp only
  split_ifs <;> omega

theorem readAt_lt (hpos : 0 < feed.pubs.length) : feed.readAt < feed.pubs.length := by
  unfold Feed.readAt
  split_ifs <;> omega

theorem le_readAt (hq : 0 < feed.q) : feed.pubs.length ≤ feed.readAt + feed.q := by
  unfold Feed.readAt Feed.next
  split_ifs <;> omega

theorem after_le : feed.after ≤ feed.pubs.length := by
  unfold Feed.after
  split_ifs <;> omega

section Exact

theorem Feed.cases (hpos : 0 < feed.pubs.length) (hle : feed.pos ≤ feed.pubs.length) (hq : 0 < feed.q) :
    (feed.pos + feed.q < feed.pubs.length ∧ feed.readAt = feed.pubs.length - feed.q ∧
        feed.after = feed.pubs.length - feed.q + 1) ∨
      (feed.pos < feed.pubs.length ∧ feed.pubs.length ≤ feed.pos + feed.q ∧
        feed.readAt = feed.pos ∧ feed.after = feed.pos + 1) ∨
      (feed.pos = feed.pubs.length ∧ feed.readAt = feed.pubs.length - 1 ∧
        feed.after = feed.pubs.length) := by
  unfold Feed.readAt Feed.after Feed.next
  split_ifs <;> omega

variable (hq : node.queueSize = feed.q) (hn : node.generation = feed.pubs.length % 2 ^ 32)
  (hpos : 0 < feed.pubs.length) (hle : feed.pos ≤ feed.pubs.length)
include hq hn hpos hle

/-- **When a copy is right**, with a queue of several messages: it reads where it should and leaves the
subscriber where it should. -/
theorem copy_right_iff (hone : 1 < feed.q) (hmax : feed.q ≤ 255) :
    (copyGeneration node (feed.pos % 2 ^ 32) = feed.readAt % 2 ^ 32 ∧
      leftGeneration node (copyGeneration node (feed.pos % 2 ^ 32)) = feed.after % 2 ^ 32) ↔
    Abreast feed.q feed.pubs.length feed.pos := by
  rw [copyGeneration_cases (by omega) (by omega) (by omega)]
  have hcases := Feed.cases hpos hle (by omega)
  unfold leftGeneration Abreast
  rw [hq, hn]
  generalize feed.pubs.length = N at *
  generalize feed.pos = P at *
  generalize feed.q = q at *
  generalize feed.readAt = r at *
  generalize feed.after = e at *
  by_cases hepoch : N / 2 ^ 32 = P / 2 ^ 32
  · rw [if_pos hepoch]
    obtain ⟨hb, rfl, rfl⟩ | ⟨hlt, hb, rfl, rfl⟩ | ⟨rfl, rfl, rfl⟩ := hcases
    all_goals
      refine ⟨fun ⟨h1, h2⟩ => ?_, fun hok => ?_⟩
      · split_ifs at h1 h2 <;> omega
      · split_ifs <;> omega
  · rw [if_neg hepoch]
    obtain ⟨hb, rfl, rfl⟩ | ⟨hlt, hb, rfl, rfl⟩ | ⟨rfl, rfl, rfl⟩ := hcases
    all_goals
      refine ⟨fun ⟨h1, h2⟩ => ?_, fun hok => ?_⟩
      · split_ifs at h1 h2 <;> omega
      · split_ifs <;> omega

theorem copy_right_iff_one (hone : feed.q = 1) :
    leftGeneration node (copyGeneration node (feed.pos % 2 ^ 32)) = feed.after % 2 ^ 32 ↔
      Abreast feed.q feed.pubs.length feed.pos := by
  rw [copyGeneration_cases (by omega) (by omega) (by omega)]
  have hcases := Feed.cases hpos hle (by omega)
  unfold leftGeneration Abreast
  rw [hq, hn]
  rw [hone] at hcases ⊢
  generalize feed.pubs.length = N at *
  generalize feed.pos = P at *
  generalize feed.after = e at *
  by_cases hepoch : N / 2 ^ 32 = P / 2 ^ 32
  · rw [if_pos hepoch]
    refine ⟨fun _ => .inl rfl, fun _ => ?_⟩
    obtain ⟨hb, -, rfl⟩ | ⟨hlt, hb, -, rfl⟩ | ⟨rfl, -, rfl⟩ := hcases
    all_goals split_ifs <;> omega
  · rw [if_neg hepoch]
    obtain ⟨hb, -, rfl⟩ | ⟨hlt, hb, -, rfl⟩ | ⟨rfl, -, rfl⟩ := hcases
    all_goals
      refine ⟨fun h => ?_, fun hok => ?_⟩
      · split_ifs at h <;> omega
      · split_ifs <;> omega

end Exact

/-! ## Copying and checking -/

theorem feed_copy (hne : feed.pubs ≠ []) (now : Nat) : feedStep feed (.copy now) =
    ({ feed with pos := feed.after },
      .copied feed.oSize ((feed.pubs[feed.readAt]?).getD [])) := by
  simp only [feedStep, if_neg hne, Feed.after, Feed.readAt]
  split <;> rfl

theorem read_tracks (h : Tracks node feed) (now : Nat) {data : Memory UInt8}
    (hd : node.data = some data) : uorbDeviceNodeRead now node node.oSize = some ⟨node.oSize,
      data.read (node.oSize * (copyGeneration node (feed.pos % 2 ^ 32) % node.queueSize)) node.oSize,
      { node with
        priv := .live ⟨leftGeneration node (copyGeneration node (feed.pos % 2 ^ 32)), none⟩ }⟩ := by
  simp [uorbDeviceNodeRead, hd, h.reader, uorbDeviceNodeCopyLocked, SubscriberData.touch,
    leftGeneration]

theorem readAt_epoch (hq : 0 < feed.q) (hok : Abreast feed.q feed.pubs.length feed.pos) :
    feed.q = 1 ∨ feed.pubs.length / 2 ^ 32 * 2 ^ 32 ≤ feed.readAt := by
  have hmod := Nat.div_add_mod' feed.pubs.length (2 ^ 32)
  have hnext : feed.pubs.length - feed.q ≤ feed.next ∧ feed.pos ≤ feed.next :=
    ⟨Nat.le_max_right _ _, Nat.le_max_left _ _⟩
  unfold Abreast at hok
  by_cases hepoch : feed.pubs.length / 2 ^ 32 = feed.pos / 2 ^ 32
  · rw [if_pos hepoch] at hok
    refine hok.imp_right fun ⟨_, hsome⟩ => ?_
    have hpos : feed.pubs.length / 2 ^ 32 * 2 ^ 32 ≤ feed.pos := by
      rw [hepoch]
      exact Nat.div_mul_le_self _ _
    unfold Feed.readAt
    split_ifs
    · exact Nat.le_trans hpos hnext.2
    · omega
  · rw [if_neg hepoch] at hok
    rcases hok with ⟨hfull, -⟩ | ⟨hone, -⟩
    · right
      unfold Feed.readAt
      split_ifs <;> omega
    · exact .inl hone

theorem Tracks.copy_right (h : Tracks node feed) (hpos : 0 < feed.pubs.length)
    (hok : Abreast feed.q feed.pubs.length feed.pos) :
    copyGeneration node (feed.pos % 2 ^ 32) % node.queueSize
      = feed.readAt % 2 ^ 32 % node.queueSize ∧
    leftGeneration node (copyGeneration node (feed.pos % 2 ^ 32)) = feed.after % 2 ^ 32 := by
  rcases Nat.lt_or_ge 1 feed.q with hone | hone
  · obtain ⟨hread, hleft⟩ :=
      (copy_right_iff h.q_eq h.count hpos h.pos_le hone h.q_le).mpr hok
    exact ⟨by rw [hread], hleft⟩
  · have hq : feed.q = 1 := Nat.le_antisymm hone h.q_pos
    refine ⟨?_, (copy_right_iff_one h.q_eq h.count hpos h.pos_le hq).mpr hok⟩
    rw [h.q_eq, hq, Nat.mod_one, Nat.mod_one]

theorem copy_tracks (h : Tracks node feed) (now : Nat)
    (hok : feed.pubs = [] ∨ Abreast feed.q feed.pubs.length feed.pos) :
    Tracks (nodeStep node (.copy now)).1 (feedStep feed (.copy now)).1 ∧
      (nodeStep node (.copy now)).2 = (feedStep feed (.copy now)).2 := by
  cases hd : node.data with
  | none =>
    have hempty := h.empty_iff.mp hd
    simp only [nodeStep, feedStep, uorbDeviceNodeRead, hd, hempty, if_true, and_true]
    exact h
  | some data =>
    have hne : feed.pubs ≠ [] := by
      intro hempty
      rw [h.empty_iff.mpr hempty] at hd
      cases hd
    have hpos := length_pos_iff.mpr hne
    have habreast := hok.resolve_left hne
    obtain ⟨hread, hleft⟩ := h.copy_right hpos habreast
    have hlt := readAt_lt hpos
    have hheld : feed.pubs.length ≤ feed.readAt + node.queueSize := by
      rw [h.q_eq]
      exact le_readAt h.q_pos
    have hepoch : node.queueSize = 1 ∨ feed.pubs.length / 2 ^ 32 * 2 ^ 32 ≤ feed.readAt := by
      rw [h.q_eq]
      exact readAt_epoch h.q_pos habreast
    have hmsg := h.slots data hd feed.readAt hlt hheld hepoch
    simp only [nodeStep, read_tracks h now hd, feed_copy hne, hread, hleft, hmsg]
    refine ⟨⟨⟨h.oSize_eq, h.q_eq, h.q_pos, h.q_le, h.count, h.empty_iff, h.slots⟩, after_le, rfl⟩, ?_⟩
    rw [getElem?_eq_getElem hlt, h.oSize_eq]
    rfl

theorem check_tracks (h : Tracks node feed) (now : Nat)
    (hok : feed.pos = feed.pubs.length ∨ feed.pos % 2 ^ 32 ≠ feed.pubs.length % 2 ^ 32) :
    Tracks (nodeStep node (.check now)).1 (feedStep feed (.check now)).1 ∧
      (nodeStep node (.check now)).2 = (feedStep feed (.check now)).2 := by
  cases hd : node.data with
  | none =>
    have hempty := h.empty_iff.mp hd
    simp only [nodeStep, feedStep, uorbDeviceNodeAppearsUpdated, hd, hempty, length_nil,
      Nat.not_lt_zero, decide_false, and_true]
    exact h
  | some data =>
    have hle := h.pos_le
    have hiff : (feed.pos % 2 ^ 32 ≠ feed.pubs.length % 2 ^ 32) = (feed.pos < feed.pubs.length) := by
      refine propext ⟨fun hne => ?_, fun hlt => hok.resolve_left (Nat.ne_of_lt hlt)⟩
      exact Nat.lt_of_le_of_ne hle fun heq => hne (by rw [heq])
    simp only [nodeStep, feedStep, uorbDeviceNodeAppearsUpdated, hd, h.reader, h.count, hiff,
      and_true]
    exact h

/-! ## Runs -/

/-- A copy is made while the generations can be compared; a check is not made exactly `2 ^ 32` messages
behind, or a multiple of that. -/
def Op.InTime (feed : Feed) : Op → Prop
  | .publish _ _ => True
  | .copy _ => feed.pubs = [] ∨ Abreast feed.q feed.pubs.length feed.pos
  | .check _ => feed.pos = feed.pubs.length ∨ feed.pos % 2 ^ 32 ≠ feed.pubs.length % 2 ^ 32

theorem step_tracks (h : Tracks node feed) {op : Op} (hok : op.InTime feed) :
    Tracks (nodeStep node op).1 (feedStep feed op).1 ∧
      (nodeStep node op).2 = (feedStep feed op).2 := by
  cases op with
  | publish heap data => exact publish_tracks h heap data
  | copy now => exact copy_tracks h now hok
  | check now => exact check_tracks h now hok

theorem run_tracks (h : Tracks node feed) {ops : List Op}
    (hok : Guarded feedStep (fun feed op => op.InTime feed) feed ops) :
    Tracks (run nodeStep node ops).1 (run feedStep feed ops).1 ∧
      (run nodeStep node ops).2 = (run feedStep feed ops).2 := by
  have hsim := @Guarded.simulation _ _ _ _ feedStep (fun feed op => op.InTime feed) nodeStep
    (fun feed node => Tracks node feed) (fun feed node op hr hop => by
      obtain ⟨hr', hans⟩ := step_tracks hr hop
      exact ⟨hr', hans.symm⟩) ops feed node hok h
  exact ⟨hsim.1, hsim.2.symm⟩

/-- The copy does not reach the sum that passes `2 ^ 32`. -/
def Op.NoWrap (node : DeviceNode) : Op → Prop
  | .copy _ => ∀ sd, node.priv = .live sd →
      node.queueSize = 1 ∨ sd.generation + node.queueSize < 2 ^ 32
  | _ => True

def publications (ops : List Op) : Nat :=
  ops.countP fun
    | .publish _ _ => true
    | _ => false

theorem length_feedStep (feed : Feed) (op : Op) :
    (feedStep feed op).1.pubs.length ≤ feed.pubs.length + publications [op] := by
  cases op with
  | publish heap data =>
    simp only [feedStep]
    split
    · exact Nat.le_add_right _ _
    · show (feed.pubs ++ [_]).length ≤ _
      rw [length_append, length_singleton]
      exact Nat.le_refl _
  | copy now =>
    simp only [feedStep]
    split
    · exact Nat.le_add_right _ _
    · split <;> exact Nat.le_add_right _ _
  | check now => exact Nat.le_add_right _ _

theorem publications_cons (op : Op) (ops : List Op) :
    publications (op :: ops) = publications [op] + publications ops := by
  unfold publications
  rw [countP_cons, countP_cons, countP_nil]
  omega

theorem length_run_feedStep (ops : List Op) (feed : Feed) :
    (run feedStep feed ops).1.pubs.length ≤ feed.pubs.length + publications ops := by
  induction ops generalizing feed with
  | nil => exact Nat.le_refl _
  | cons op ops ih =>
    have hop := length_feedStep feed op
    have hops := ih (feedStep feed op).1
    rw [run_cons, publications_cons]
    exact Nat.le_trans hops (by omega)

/-- Before the generation wraps, a copy is in time if its sum does not wrap. -/
theorem Tracks.inTime (h : Tracks node feed) {op : Op} (hlt : feed.pubs.length < 2 ^ 32)
    (hsafe : op.NoWrap node) : op.InTime feed := by
  have hle := h.pos_le
  cases op with
  | publish heap data => trivial
  | copy now =>
    refine (eq_or_ne feed.pubs []).imp_right fun hne => ?_
    have hpos := length_pos_iff.mpr hne
    have hsum := hsafe _ h.reader
    rw [h.q_eq] at hsum
    unfold Abreast
    rw [if_pos (by omega)]
    exact hsum.imp_right fun hlt' => ⟨hlt', by omega⟩
  | check now =>
    unfold Op.InTime
    omega

theorem guarded_inTime : ∀ {ops : List Op} {node : DeviceNode} {feed : Feed}, Tracks node feed →
    feed.pubs.length + publications ops < 2 ^ 32 →
    Guarded nodeStep (fun node op => op.NoWrap node) node ops →
    Guarded feedStep (fun feed op => op.InTime feed) feed ops
  | [], _, _, _, _, _ => trivial
  | op :: ops, _, feed, h, hlt, hg => by
    have hlen := length_feedStep feed op
    rw [publications_cons] at hlt
    have hok := h.inTime (by omega) hg.1
    exact ⟨hok, guarded_inTime (step_tracks h hok).1 (by omega) hg.2⟩

/-! ## From the first publication on -/

/-- Publications, each with the memory `kmm_malloc` has at that time. -/
def publishAll (pre : List (Option (Memory UInt8) × Memory UInt8)) : List Op :=
  pre.map fun p => .publish p.1 p.2

def Feed.subscribe (feed : Feed) : Feed :=
  { feed with pos := feed.pubs.length - min feed.q feed.pubs.length }

def newFeed (oSize q : Nat) : Feed := { oSize, q, pubs := [], pos := 0 }

/-- A node of the topic; its queue size is set before the first publication. -/
def newNode (devname : List Char) (oSize q : Nat) : DeviceNode :=
  (uorbDeviceNodeUpdateQueueSize (uorbDeviceNodeInit devname oSize 1) q).2

/-- A new subscriber may read what the queue still holds, as far as the counter says that there was any. -/
def Feed.opened (feed : Feed) : Feed :=
  { feed with pos := feed.pubs.length - min feed.q (feed.pubs.length % 2 ^ 32) }

theorem Feed.opened_eq (h : feed.pubs.length < 2 ^ 32) : feed.opened = feed.subscribe := by
  unfold Feed.opened Feed.subscribe
  rw [Nat.mod_eq_of_lt h]

theorem publications_publishAll (pre : List (Option (Memory UInt8) × Memory UInt8)) :
    publications (publishAll pre) = pre.length := by
  induction pre with
  | nil => rfl
  | cons p pre ih =>
    rw [publishAll, map_cons, publications_cons, ← publishAll, ih, length_cons, Nat.add_comm]
    rfl

theorem newNode_holds (devname : List Char) (oSize : Nat) (hq : 0 < q) (hq' : q ≤ 255) :
    Holds (newNode devname oSize q) (newFeed oSize q) := by
  have hnode : newNode devname oSize q = uorbDeviceNodeInit devname oSize q := by
    unfold newNode uorbDeviceNodeUpdateQueueSize
    by_cases h1 : 1 = q
    · subst h1
      rfl
    · have hok : ¬((uorbDeviceNodeInit devname oSize 1).data.isSome = true ∨
          (uorbDeviceNodeInit devname oSize 1).queueSize > q ∨ q > 255) := by
        rintro (hsome | hgt | hgt)
        · cases hsome
        · exact absurd hgt (Nat.not_lt_of_le hq)
        · exact absurd hgt (Nat.not_lt_of_le hq')
      rw [if_neg (show ¬(uorbDeviceNodeInit devname oSize 1).queueSize = q from h1), if_neg hok]
      rfl
  rw [hnode]
  exact ⟨rfl, rfl, hq, hq', rfl, ⟨fun _ => rfl, fun _ => rfl⟩, nofun⟩

theorem publishAll_holds (pre : List (Option (Memory UInt8) × Memory UInt8)) (h : Holds node feed) :
    Holds (run nodeStep node (publishAll pre)).1 (run feedStep feed (publishAll pre)).1 := by
  induction pre generalizing node feed with
  | nil => exact h
  | cons p pre ih => exact ih (publish_holds h p.1 p.2).1

theorem open_tracks (h : Holds node feed) :
    ∃ node', uorbDeviceNodeOpen true { node with oflags := rdonly } = some (0, node') ∧
      Tracks node' feed.opened := by
  refine ⟨_, rfl, ⟨h.oSize_eq, h.q_eq, h.q_pos, h.q_le, h.count, h.empty_iff, h.slots⟩, ?_, ?_⟩
  · exact Nat.sub_le _ _
  · show Priv.live { generation := node.generation - (if node.queueSize < node.generation
      then node.queueSize else node.generation), updateInterval := none } = Priv.live
        { generation := (feed.pubs.length - min feed.q (feed.pubs.length % 2 ^ 32)) % 2 ^ 32,
          updateInterval := none }
    rw [h.count, h.q_eq]
    congr 2
    split <;> omega

/--
**A subscriber gets the published messages in order, losing only those that the queue no longer
holds.**

A node with a queue of `q` messages, opened by a subscriber after any publications `pre`, then
any interleaving of publications, copies and checks, with fewer than `2 ^ 32` publications in
all. If no copy is made with a generation whose sum with `q` passes `2 ^ 32`, every call answers
as the feed does.
-/
theorem run_eq_feed (devname : List Char) (oSize : Nat) {q : Nat} (hq : 0 < q) (hq' : q ≤ 255)
    (pre : List (Option (Memory UInt8) × Memory UInt8)) (ops : List Op)
    (hcount : pre.length + publications ops < 2 ^ 32) :
    ∃ node, uorbDeviceNodeOpen true
        { (run nodeStep (newNode devname oSize q) (publishAll pre)).1 with oflags := rdonly }
          = some (0, node) ∧
      (Guarded nodeStep (fun node op => op.NoWrap node) node ops →
        (run nodeStep node ops).2
          = (run feedStep (run feedStep (newFeed oSize q) (publishAll pre)).1.subscribe ops).2) := by
  have hlen := length_run_feedStep (publishAll pre) (newFeed oSize q)
  rw [publications_publishAll, show (newFeed oSize q).pubs.length = 0 from rfl] at hlen
  obtain ⟨node, hopen, htracks⟩ := open_tracks (publishAll_holds pre (newNode_holds devname oSize hq hq'))
  rw [Feed.opened_eq (by omega)] at htracks
  refine ⟨node, hopen, fun hsafe => (run_tracks htracks (guarded_inTime htracks ?_ hsafe)).2⟩
  show (run feedStep (newFeed oSize q) (publishAll pre)).1.pubs.length + _ < _
  omega

/-- The constant message `b`. -/
def msg (b : UInt8) : Memory UInt8 := fun _ => b

/-- Three messages through a queue of two, with a copy that has fallen behind and one repeated. -/
theorem run_eq_feed_fallenBehind :
    ∃ node, uorbDeviceNodeOpen true
        { (run nodeStep (newNode ['a'] 1 2) (publishAll [])).1 with oflags := rdonly }
          = some (0, node) ∧
      (run nodeStep node [.publish (some (msg 0)) (msg 1), .publish none (msg 2),
          .publish none (msg 3), .check 0, .copy 0, .copy 0, .check 0, .copy 0]).2
        = [.published 0, .published 0, .published 0, .checked true, .copied 1 [2], .copied 1 [3],
          .checked false, .copied 1 [3]] := by
  obtain ⟨node, hopen, hrun⟩ := run_eq_feed ['a'] 1 (show 0 < 2 by decide) (by decide) []
    [.publish (some (msg 0)) (msg 1), .publish none (msg 2), .publish none (msg 3), .check 0,
      .copy 0, .copy 0, .check 0, .copy 0] (by decide)
  cases hopen
  refine ⟨_, rfl, (hrun ?_).trans (by decide)⟩
  refine ⟨trivial, trivial, trivial, trivial, ?_, ?_, trivial, ?_, trivial⟩
  · rintro sd ⟨⟩
    exact .inr (by decide)
  · rintro sd ⟨⟩
    exact .inr (by decide)
  · rintro sd ⟨⟩
    exact .inr (by decide)

/-! ## At the wrap -/

theorem feed_replicate (ring data : Memory UInt8) : ∀ (k : Nat) (feed : Feed),
    (run feedStep feed (List.replicate k (.publish (some ring) data))).1
      = { feed with pubs := feed.pubs ++ List.replicate k (data.read 0 feed.oSize) }
  | 0, feed => by rw [replicate_zero, replicate_zero, append_nil]; rfl
  | k + 1, feed => by
    have hsome : ¬(feed.pubs = [] ∧ some ring = none) := fun h => absurd h.2 (Option.some_ne_none _)
    rw [replicate_succ, run_cons, replicate_succ]
    simp only [feedStep, if_neg hsome]
    rw [feed_replicate ring data k]
    simp only [append_assoc, singleton_append]

/-- `k` publications of one message and one of another. -/
def burst (k : Nat) : List Op :=
  List.replicate k (.publish (some (msg 0)) (msg 7)) ++ [.publish (some (msg 0)) (msg 9)]

theorem feed_burst (k : Nat) :
    (run feedStep (newFeed 1 2).subscribe (burst k)).1
      = { oSize := 1, q := 2, pubs := List.replicate k [7] ++ [[9]], pos := 0 } := by
  rw [burst, run_append, feed_replicate]
  simp only [run_cons, run_nil, feedStep]
  rw [if_neg (fun h => absurd h.2 (Option.some_ne_none _))]
  rfl

theorem publications_burst (k : Nat) : publications (burst k) = k + 1 := by
  unfold publications burst
  rw [countP_append, countP_replicate]
  rfl

theorem guarded_burst (node : DeviceNode) (k : Nat) :
    Guarded nodeStep (fun node op => op.NoWrap node) node (burst k) := by
  refine Guarded.of_forall_mem fun op hop => ?_
  rcases mem_append.mp hop with h | h
  · rw [eq_of_mem_replicate h]
    exact fun _ => trivial
  · rw [mem_singleton.mp h]
    exact fun _ => trivial

theorem copy_at_wrap (hk : k + 2 = 2 ^ 32)
    (h : Tracks node { oSize := 1, q := 2, pubs := List.replicate k [7] ++ [[9]], pos := k }) :
    (nodeStep node (.copy 0)).2 = .copied 1 [7] := by
  have hlen : (List.replicate k [(7 : UInt8)] ++ [[9]]).length = k + 1 := by
    rw [length_append, length_replicate, length_singleton]
  have hcount := h.count
  have hq : node.queueSize = 2 := h.q_eq
  rw [hlen, Nat.mod_eq_of_lt (by omega)] at hcount
  have hg : copyGeneration node (k % 2 ^ 32) = k - 1 := by
    rw [copyGeneration_cases (by omega) (by omega) (by omega), hcount, hq]
    split_ifs <;> omega
  cases hd : node.data with
  | none => exact absurd (h.empty_iff.mp hd) (append_ne_nil_of_right_ne_nil _ (cons_ne_nil _ _))
  | some data =>
    have hmsg := h.slots data hd (k - 1) (by rw [hlen]; omega) (by rw [hlen, hq]; omega)
      (.inr (by rw [hlen]; omega))
    rw [Nat.mod_eq_of_lt (show k - 1 < 2 ^ 32 by omega),
      getElem_append_left (by rw [length_replicate]; omega), getElem_replicate] at hmsg
    simp only [nodeStep, read_tracks h 0 hd, hg, hmsg]
    rw [h.oSize_eq]
    rfl

theorem run_near_wrap (hk : k + 2 = 2 ^ 32) (h : Tracks node (newFeed 1 2).opened) :
    (run nodeStep node (burst k ++ [.copy 0] ++ [.copy 0])).2
      ≠ (run feedStep (newFeed 1 2).subscribe (burst k ++ [.copy 0] ++ [.copy 0])).2 := by
  have hpubs := publications_burst k
  rw [show (newFeed 1 2).opened = _ from Feed.opened_eq (Nat.two_pow_pos 32)] at h
  -- up to the first copy both sides agree, by the general result
  obtain ⟨hb, -⟩ := run_tracks h (guarded_inTime h (by rw [hpubs]; show 0 + (k + 1) < 2 ^ 32; omega)
    (guarded_burst node k))
  rw [feed_burst] at hb
  have hlen : (List.replicate k [(7 : UInt8)] ++ [[9]]).length = k + 1 := by
    rw [length_append, length_replicate, length_singleton]
  have hne : List.replicate k [(7 : UInt8)] ++ [[9]] ≠ [] := by
    intro hnil
    rw [hnil] at hlen
    cases hlen
  have hsafe : (Op.copy 0).NoWrap (run nodeStep node (burst k)).1 := by
    rintro sd hsd
    rw [hb.reader] at hsd
    cases hsd
    rw [hb.q_eq]
    exact .inr (show 0 + 2 < 2 ^ 32 by decide)
  obtain ⟨hc, -⟩ := step_tracks hb (hb.inTime (by rw [hlen]; omega) hsafe)
  have hfirst : (feedStep { oSize := 1, q := 2, pubs := List.replicate k [7] ++ [[9]], pos := 0 }
      (.copy 0)).1 = { oSize := 1, q := 2, pubs := List.replicate k [7] ++ [[9]], pos := k } := by
    simp only [feedStep, if_neg hne, Feed.next, hlen]
    rw [if_pos (by omega), show max 0 (k + 1 - 2) + 1 = k by omega]
  have hsecond : (feedStep { oSize := 1, q := 2, pubs := List.replicate k [7] ++ [[9]], pos := k }
      (.copy 0)).2 = .copied 1 [9] := by
    simp only [feedStep, if_neg hne, Feed.next, hlen]
    rw [if_pos (by omega), show max k (k + 1 - 2) = k by omega,
      getElem?_append_right (Nat.le_of_eq length_replicate), length_replicate,
      Nat.sub_self]
    rfl
  rw [hfirst] at hc
  have hcode := copy_at_wrap hk hc
  rw [run_append, run_append nodeStep (burst k), run_append feedStep, run_append feedStep (burst k),
    feed_burst]
  intro heq
  have hlast := congrArg List.getLast? heq
  simp only [run_cons, run_nil, hfirst, hsecond, hcode, getLast?_append, getLast?_singleton,
    Option.some_or, Option.some.injEq, Answer.copied.injEq] at hlast
  exact absurd hlast.2 (by decide)

/-- A queue of two messages, all but one of `2 ^ 32` publications, and two copies. -/
theorem copy_near_wrap :
    ∃ node, uorbDeviceNodeOpen true
        { (run nodeStep (newNode ['a'] 1 2) (publishAll [])).1 with oflags := rdonly }
          = some (0, node) ∧
      publications (burst (2 ^ 32 - 2) ++ [.copy 0] ++ [.copy 0]) < 2 ^ 32 ∧
      (run nodeStep node (burst (2 ^ 32 - 2) ++ [.copy 0] ++ [.copy 0])).2
        ≠ (run feedStep (newFeed 1 2).subscribe (burst (2 ^ 32 - 2) ++ [.copy 0] ++ [.copy 0])).2 := by
  obtain ⟨node, hopen, htracks⟩ :=
    open_tracks (newNode_holds ['a'] 1 (show 0 < 2 by decide) (by decide))
  refine ⟨node, hopen, ?_, run_near_wrap (by decide) htracks⟩
  have hcount : ∀ k, publications (burst k ++ [.copy 0] ++ [.copy 0]) = k + 1 := by
    intro k
    have := publications_burst k
    unfold publications at this ⊢
    rw [countP_append, countP_append, this]
    rfl
  rw [hcount]
  decide

end Gpmx.Uorb
