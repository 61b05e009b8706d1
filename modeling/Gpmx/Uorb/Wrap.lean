import Gpmx.Uorb.Queue

/-!
# What a subscriber gets when the generations wrap

The node of `Gpmx.Uorb.Queue` with any number of publications. As long as every copy is made while the
generations can be compared, the law of the queue holds on both sides of the wrap (`run_eq_feed_wrap`).

The code goes wrong when the generation of the node has wrapped and that of the subscriber has not:
`*generation < current_generation` is false then, and the subscriber stays where it is
(`wrap_stops_reader`).
-/

namespace Gpmx.Uorb

open Infra

variable {node : DeviceNode} {feed : Feed} {q pos : Nat}

/--
**The queue on both sides of the wrap.** A node with a queue of `q` messages, opened by a subscriber after
any number of publications, then any run of publications, copies and checks. If every copy and check is
made in time, every call answers as the feed does.
-/
theorem run_eq_feed_wrap (devname : List Char) (oSize : Nat) (hq : 0 < q) (hq' : q ≤ 255)
    (pre : List (Option (Memory UInt8) × Memory UInt8)) (ops : List Op) :
    ∃ node, uorbDeviceNodeOpen true
        { (run nodeStep (newNode devname oSize q) (publishAll pre)).1 with oflags := rdonly }
          = some (0, node) ∧
      (Guarded feedStep (fun feed op => op.InTime feed)
          (run feedStep (newFeed oSize q) (publishAll pre)).1.opened ops →
        (run nodeStep node ops).2
          = (run feedStep (run feedStep (newFeed oSize q) (publishAll pre)).1.opened ops).2) := by
  obtain ⟨node, hopen, htracks⟩ := open_tracks (publishAll_holds pre (newNode_holds devname oSize hq hq'))
  exact ⟨node, hopen, fun hok => (run_tracks htracks hok).2⟩

/-- The same message `k` times. -/
def same (k : Nat) : List (Option (Memory UInt8) × Memory UInt8) :=
  List.replicate k (some (msg 0), msg 7)

theorem feed_same (oSize q k : Nat) : (run feedStep (newFeed oSize q) (publishAll (same k))).1
    = { oSize, q, pubs := List.replicate k ((msg 7).read 0 oSize), pos := 0 } := by
  have hops : publishAll (same k) = List.replicate k (.publish (some (msg 0)) (msg 7)) := by
    simp [publishAll, same]
  rw [hops, feed_replicate]
  rfl

/-- A reader of a queue of one message that has slept over the wrap: two publications, then a copy. -/
def sleeper : List Op :=
  [.copy 0, .publish none (msg 8), .publish none (msg 9), .copy 0, .check 0]

theorem feed_copy_one {pubs : List (List UInt8)} (hne : pubs ≠ []) :
    (feedStep ⟨1, 1, pubs, pos⟩ (.copy 0)).1 = ⟨1, 1, pubs, pubs.length⟩ := by
  have hafter : Feed.after ⟨1, 1, pubs, pos⟩ = pubs.length := by
    unfold Feed.after Feed.next
    dsimp only
    split_ifs <;> omega
  rw [@feed_copy ⟨1, 1, pubs, pos⟩ hne, hafter]

theorem feed_publish_one {pubs : List (List UInt8)} (hne : pubs ≠ []) (data : Memory UInt8) :
    (feedStep ⟨1, 1, pubs, pos⟩ (.publish none data)).1 = ⟨1, 1, pubs ++ [data.read 0 1], pos⟩ := by
  simp [feedStep, hne]

theorem sleeper_inTime {k : Nat} (hk : k + 1 = 2 ^ 32) :
    Guarded feedStep (fun feed op => op.InTime feed)
      (run feedStep (newFeed 1 1) (publishAll (same k))).1.opened sleeper := by
  have hstart : (run feedStep (newFeed 1 1) (publishAll (same k))).1.opened
      = ⟨1, 1, List.replicate k ((msg 7).read 0 1), k - 1⟩ := by
    rw [feed_same]
    simp only [Feed.opened, List.length_replicate]
    congr 1
    omega
  have hne : List.replicate k ((msg 7).read 0 1) ≠ [] := by
    simp
    omega
  have hepoch : k / 2 ^ 32 = (k - 1) / 2 ^ 32 := by omega
  have hslept : Abreast 1 (k + 1 + 1) k := by
    unfold Abreast
    split_ifs <;> omega
  rw [hstart, sleeper]
  refine ⟨.inr ?_, trivial, trivial, .inr ?_, .inl ?_, trivial⟩
  · show Abreast 1 (List.replicate k ((msg 7).read 0 1)).length (k - 1)
    rw [List.length_replicate, Abreast, if_pos hepoch]
    exact .inl rfl
  · rw [feed_copy_one hne, feed_publish_one hne, feed_publish_one (by simp)]
    simpa using hslept
  · rw [feed_copy_one hne, feed_publish_one hne, feed_publish_one (by simp), feed_copy_one (by simp)]

/-- The law holds for a reader that misses the wrap. -/
theorem run_eq_feed_wrap_slept :
    ∃ node, uorbDeviceNodeOpen true
        { (run nodeStep (newNode ['a'] 1 1) (publishAll (same (2 ^ 32 - 1)))).1 with oflags := rdonly }
          = some (0, node) ∧
      (run nodeStep node sleeper).2
        = (run feedStep (run feedStep (newFeed 1 1) (publishAll (same (2 ^ 32 - 1)))).1.opened
            sleeper).2 := by
  obtain ⟨node, hopen, hrun⟩ := run_eq_feed_wrap ['a'] 1 (show 0 < 1 by decide) (by decide)
    (same (2 ^ 32 - 1)) sleeper
  exact ⟨node, hopen, hrun (sleeper_inTime (by decide))⟩

/-! ## At the wrap -/

theorem copy_stuck (h : Tracks node feed) (hn : node.generation = 0) (hp : 0 < feed.pos % 2 ^ 32) :
    (nodeStep node (.copy 0)).1 = node := by
  cases hd : node.data with
  | none => simp [nodeStep, uorbDeviceNodeRead, hd]
  | some data =>
    have hsame : copyGeneration node (feed.pos % 2 ^ 32) = feed.pos % 2 ^ 32 := by
      have hq := h.q_eq
      have hq' := h.q_le
      have hq0 := h.q_pos
      rw [copyGeneration_cases (by omega) (by omega) (by omega), hn]
      split_ifs <;> omega
    have hleft : leftGeneration node (feed.pos % 2 ^ 32) = feed.pos % 2 ^ 32 := by
      simp [leftGeneration, hn]
    simp only [nodeStep, read_tracks h 0 hd, hsame, hleft]
    rw [← h.reader]

theorem copies_stuck (h : Tracks node feed) (hn : node.generation = 0) (hp : 0 < feed.pos % 2 ^ 32) :
    ∀ m, (run nodeStep node (List.replicate m (.copy 0))).1 = node
  | 0 => rfl
  | m + 1 => by
    rw [List.replicate_succ, run_cons, copy_stuck h hn hp]
    exact copies_stuck h hn hp m

theorem feed_copies (hne : feed.pubs ≠ []) : ∀ (m : Nat) {pos : Nat}, feed.pubs.length ≤ pos + feed.q →
    pos ≤ feed.pubs.length → (run feedStep { feed with pos } (List.replicate m (.copy 0))).1
      = { feed with pos := min feed.pubs.length (pos + m) }
  | 0, pos, _, hle => by
    rw [Nat.add_zero, Nat.min_eq_right hle]
    rfl
  | m + 1, pos, hheld, hle => by
    have hafter : Feed.after { feed with pos } = min feed.pubs.length (pos + 1) := by
      unfold Feed.after Feed.next
      dsimp only
      split_ifs <;> omega
    rw [List.replicate_succ, run_cons, @feed_copy { feed with pos } hne 0, hafter]
    rw [feed_copies hne m (by omega) (Nat.min_le_left _ _)]
    congr 1
    omega

theorem feed_copies_behind (hne : feed.pubs ≠ []) (hle : feed.pos ≤ feed.pubs.length) (m : Nat) :
    (run feedStep feed (List.replicate (m + 1) (.copy 0))).1
      = { feed with pos := min feed.pubs.length (feed.next + m + 1) } := by
  have hnext : feed.pubs.length - feed.q ≤ feed.next ∧ feed.next ≤ feed.pubs.length :=
    ⟨Nat.le_max_right _ _, Nat.max_le.mpr ⟨hle, Nat.sub_le _ _⟩⟩
  have hafter : feed.after = min feed.pubs.length (feed.next + 1) := by
    unfold Feed.after
    split_ifs <;> omega
  rw [List.replicate_succ, run_cons, feed_copy hne 0, hafter]
  rw [feed_copies hne m (by omega) (Nat.min_le_left _ _)]
  congr 1
  omega

def atWrap (q : Nat) : List Op :=
  .publish none (msg 8) :: List.replicate q (.copy 0) ++ [.check 0]

theorem getLast?_run {σ ι ο : Type} (step : σ → ι → σ × ο) (s : σ) (is : List ι) (i : ι) :
    (run step s (is ++ [i])).2.getLast? = some (step (run step s is).1 i).2 := by
  simp [run_append, run_cons]

/-- **No size of the queue gets a reader over the wrap**: the publication number `2 ^ 32`, and it is told for
ever that something is unread. -/
theorem wrap_stops_reader {k : Nat} (hk : k + 1 = 2 ^ 32) (devname : List Char) (hq : 0 < q)
    (hq' : q ≤ 255) : ∃ node, uorbDeviceNodeOpen true
        { (run nodeStep (newNode devname 1 q) (publishAll (same k))).1 with oflags := rdonly }
          = some (0, node) ∧
      (run nodeStep node (atWrap q)).2.getLast? = some (.checked true) ∧
      (run feedStep (run feedStep (newFeed 1 q) (publishAll (same k))).1.opened
          (atWrap q)).2.getLast? = some (.checked false) := by
  obtain ⟨node, hopen, htracks⟩ :=
    open_tracks (publishAll_holds (same k) (newNode_holds devname 1 hq hq'))
  obtain ⟨h₁, -⟩ := publish_tracks htracks none (msg 8)
  refine ⟨node, hopen, ?_⟩
  have hpubs : List.replicate k ((msg 7).read 0 1) ≠ [] := by
    simp
    omega
  have hfeed : (feedStep (run feedStep (newFeed 1 q) (publishAll (same k))).1.opened
      (.publish none (msg 8))).1
        = ⟨1, q, List.replicate k ((msg 7).read 0 1) ++ [(msg 8).read 0 1], k - q⟩ := by
    rw [feed_same]
    simp only [feedStep, Feed.opened, hpubs, false_and, if_false, List.length_replicate]
    congr 1
    omega
  rw [hfeed] at h₁
  have hlen : (List.replicate k ((msg 7).read 0 1) ++ [(msg 8).read 0 1]).length = 2 ^ 32 := by
    simp [hk]
  constructor
  · have hzero := h₁.count
    rw [hlen, Nat.mod_self] at hzero
    have hpos : 0 < (k - q) % 2 ^ 32 := by omega
    rw [atWrap, getLast?_run, run_cons, copies_stuck h₁ hzero hpos]
    cases hd : (nodeStep node (.publish none (msg 8))).1.data with
    | none => exact absurd (h₁.empty_iff.mp hd) (by simp)
    | some data =>
      generalize (nodeStep node (.publish none (msg 8))).1 = node₁ at *
      have hreader := h₁.reader
      simp only [nodeStep, uorbDeviceNodeAppearsUpdated, hd, hreader, hzero]
      rw [decide_eq_true (Nat.ne_of_gt hpos)]
  · rw [atWrap, getLast?_run, run_cons, hfeed]
    obtain ⟨m, rfl⟩ : ∃ m, q = m + 1 := ⟨q - 1, by omega⟩
    have hle : k - (m + 1) ≤ 2 ^ 32 := by omega
    rw [feed_copies_behind (by simp) (by rw [hlen]; exact hle), hlen]
    simp only [feedStep, Feed.next, hlen]
    simp
    omega

/-- A queue of one message and a subscriber that has read all but one of `2 ^ 32 - 1` publications. -/
theorem wrap_breaks_law : ¬∀ (devname : List Char) (oSize q : Nat), 0 < q → q ≤ 255 →
    ∀ (pre : List (Option (Memory UInt8) × Memory UInt8)) (ops : List Op), ∃ node,
      uorbDeviceNodeOpen true
          { (run nodeStep (newNode devname oSize q) (publishAll pre)).1 with oflags := rdonly }
        = some (0, node) ∧
      (run nodeStep node ops).2
        = (run feedStep (run feedStep (newFeed oSize q) (publishAll pre)).1.opened ops).2 := by
  intro h
  have hk : 2 ^ 32 - 1 + 1 = 2 ^ 32 := by decide
  obtain ⟨node, hopen, heq⟩ := h ['a'] 1 1 (by decide) (by decide) (same (2 ^ 32 - 1)) (atWrap 1)
  obtain ⟨node', hopen', hcode, hlaw⟩ :=
    wrap_stops_reader hk ['a'] (show 0 < 1 by decide) (by decide)
  obtain ⟨-, rfl⟩ := Prod.mk.inj (Option.some.inj (hopen.symm.trans hopen'))
  rw [heq, hlaw] at hcode
  cases hcode

end Gpmx.Uorb
