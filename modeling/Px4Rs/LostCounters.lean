import Px4Rs.Broker

/-! The two lost-message counters on one trace: the host's `SubCbInner`, which counts
differences of the topic's generation, and the C++ `RustSubscriptionCallback`, which counts
how often it was called. -/
namespace Px4Rs.LostCounters
open Px4Rs.Broker

inductive Op where
  | publish (data : List (BitVec 8))
  | update
  | lostTake
deriving DecidableEq

inductive Out where
  | published
  | updated (ok : Bool)
  | lost (n : BitVec 32)
deriving DecidableEq

/-! The host. -/

structure Host where
  topic : Topic
  cb : SubCb

def Host.init (size ctx : Nat) (before : List (List (BitVec 8))) : Host :=
  let topic := before.foldl (fun t data => (publish t data).1) (Topic.new size)
  ⟨topic, SubCb.new topic ctx⟩

def Host.step (s : Host) : Op → Host × Out
  | .publish data => ({ s with topic := (publish s.topic data).1 }, .published)
  | .update =>
    match s.cb.update s.topic with
    | some (_, cb) => ({ s with cb }, .updated true)
    | none => (s, .updated false)
  | .lostTake => ({ s with cb := s.cb.lostTake.2 }, .lost s.cb.lostTake.1)

/-! The C++ wrapper. -/

/-- The atomics of `RustSubscriptionCallback`. -/
structure RustSubscriptionCallback where
  publishCount : BitVec 32
  lastPubsAtUpdate : BitVec 32
  lostAccum : BitVec 32

namespace RustSubscriptionCallback

def new : RustSubscriptionCallback := ⟨0, 0, 0⟩

def call (c : RustSubscriptionCallback) : RustSubscriptionCallback :=
  { c with publishCount := c.publishCount + 1 }

def updateTrackLost (c : RustSubscriptionCallback) (ok : Bool) : RustSubscriptionCallback :=
  if ok then
    let delta := c.publishCount - c.lastPubsAtUpdate
    { c with
      lastPubsAtUpdate := c.publishCount
      lostAccum := if 1 < delta.toNat then c.lostAccum + (delta - 1) else c.lostAccum }
  else c

def lostTake (c : RustSubscriptionCallback) : BitVec 32 × RustSubscriptionCallback :=
  (c.lostAccum, { c with lostAccum := 0 })

end RustSubscriptionCallback

/-- The callback with uORB's own queue of depth one: whether a publication has not been
stepped over by an `update`. -/
structure Cpp where
  pending : Bool
  cb : RustSubscriptionCallback

def Cpp.init (before : List (List (BitVec 8))) : Cpp := ⟨!before.isEmpty, .new⟩

def Cpp.step (s : Cpp) : Op → Cpp × Out
  | .publish _ => (⟨true, s.cb.call⟩, .published)
  | .update => (⟨false, s.cb.updateTrackLost s.pending⟩, .updated s.pending)
  | .lostTake => ({ s with cb := s.cb.lostTake.2 }, .lost s.cb.lostTake.1)

def outputs {σ : Type*} (step : σ → Op → σ × Out) : σ → List Op → List Out
  | _, [] => []
  | s, op :: ops => (step s op).2 :: outputs step (step s op).1 ops

def Op.isPublish : Op → Bool
  | .publish _ => true
  | .update | .lostTake => false

def publishes (ops : List Op) : Nat := ops.countP Op.isPublish

/-! What either side has yet to step over and has counted. The host is ahead by the `k`
publications made before the subscriber and by `d` lost messages already counted; `b`
publications came since the last `update`, and `n` are still to come. -/

structure Tracks (k b d n : Nat) (h : Host) (c : Cpp) : Prop where
  behind : h.topic.seq = h.cb.lastSeen + b + k
  calls : (c.cb.publishCount - c.cb.lastPubsAtUpdate).toNat = b
  pending : c.pending = decide (0 < b + k)
  lost : h.cb.lost.toNat = c.cb.lostAccum.toNat + d
  room : h.cb.lost.toNat + b + k + n < 2 ^ 32

variable {k b d n : Nat} {h : Host} {c : Cpp}

theorem Tracks.publish (r : Tracks k b d (n + 1) h c) (data : List (BitVec 8)) :
    Tracks k (b + 1) d n (h.step (.publish data)).1 (c.step (.publish data)).1 := by
  have room := r.room
  refine ⟨?_, ?_, ?_, r.lost, ?_⟩
  · have := r.behind
    simp only [Host.step, Broker.publish, Topic.bump_seq, Topic.write_seq]
    omega
  · have := r.calls
    simp only [Cpp.step, RustSubscriptionCallback.call]
    bv_omega
  · have : 0 < b + 1 + k := by omega
    simp [Cpp.step, this]
  · simp only [Host.step]
    omega

theorem Tracks.lostTake (r : Tracks k b d n h c) :
    Tracks k b 0 n (h.step .lostTake).1 (c.step .lostTake).1 ∧
      ((h.step .lostTake).2 = (c.step .lostTake).2 ↔ d = 0) := by
  have lost := r.lost
  have room := r.room
  refine ⟨⟨r.behind, r.calls, r.pending, rfl, ?_⟩, ?_⟩
  · change 0 + b + k + n < 2 ^ 32
    omega
  · simp only [Host.step, Cpp.step, SubCb.lostTake, RustSubscriptionCallback.lostTake,
      Out.lost.injEq, ← BitVec.toNat_inj]
    omega

/-- The lost messages that the next `update` counts on the host only. -/
def surplus (k b : Nat) : Nat := (b + k - 1) - (b - 1)

/-- The C++ side counts the calls but one. -/
theorem Tracks.accum (r : Tracks k b d n h c) :
    (c.cb.updateTrackLost true).lostAccum.toNat = c.cb.lostAccum.toNat + (b - 1) := by
  have calls := r.calls
  have lost := r.lost
  have room := r.room
  simp only [RustSubscriptionCallback.updateTrackLost, if_true, calls]
  split
  · have one : (c.cb.publishCount - c.cb.lastPubsAtUpdate - 1).toNat = b - 1 := by
      rw [BitVec.toNat_sub_of_le, calls]
      · rfl
      · bv_omega
    rw [BitVec.toNat_add, one]
    omega
  · omega

theorem Tracks.update (r : Tracks k b d n h c) :
    Tracks 0 0 (d + surplus k b) n (h.step .update).1 (c.step .update).1 ∧
      (h.step .update).2 = (c.step .update).2 := by
  have behind := r.behind
  have lost := r.lost
  have room := r.room
  obtain nothing | new := Nat.eq_zero_or_pos (b + k)
  · have stepped : ¬ h.cb.lastSeen < h.topic.seq := by omega
    have host : h.step .update = (h, .updated false) := by
      simp [Host.step, SubCb.update, SubCb.copyRecord, stepped]
    have pending : c.pending = false := by simp [r.pending, nothing]
    have cpp : c.step .update = (⟨false, c.cb⟩, .updated false) := by
      simp [Cpp.step, pending, RustSubscriptionCallback.updateTrackLost]
    obtain ⟨rfl, rfl⟩ : b = 0 ∧ k = 0 := by omega
    rw [host, cpp]
    exact ⟨⟨behind, r.calls, rfl, lost, room⟩, rfl⟩
  · have unseen : h.cb.lastSeen < h.topic.seq := by omega
    have host : h.step .update = ({ h with cb := h.cb.stepTo h.topic.seq }, .updated true) := by
      simp [Host.step, SubCb.update, SubCb.copyRecord, unseen]
    have pending : c.pending = true := by simp [r.pending, new]
    have cpp : c.step .update = (⟨false, c.cb.updateTrackLost true⟩, .updated true) := by
      simp [Cpp.step, pending]
    have counted : (h.cb.stepTo h.topic.seq).lost.toNat = h.cb.lost.toNat + (b + k - 1) := by
      rw [SubCb.stepTo_lost (by omega)]
      congr 1
      omega
    rw [host, cpp]
    refine ⟨⟨rfl, ?_, by simp, ?_, ?_⟩, rfl⟩
    · simp [RustSubscriptionCallback.updateTrackLost]
    · rw [counted, r.accum]
      simp only [surplus]
      omega
    · rw [counted]
      omega

theorem publishes_cons (op : Op) (ops : List Op) :
    publishes (op :: ops) = publishes ops + op.isPublish.toNat := by
  cases op <;> simp [publishes, List.countP_cons, Op.isPublish]

/-- Once the host has stepped over the earlier publications, only what it has counted of them
can show, and a `lost_take` is what shows it. -/
theorem outputs_stepped {ops : List Op} (r : Tracks 0 b d (publishes ops) h c) :
    outputs Host.step h ops = outputs Cpp.step c ops ↔ d = 0 ∨ .lostTake ∉ ops := by
  induction ops generalizing b d h c with
  | nil => simp [outputs]
  | cons op ops ih =>
    rw [publishes_cons] at r
    simp only [outputs, List.cons.injEq]
    cases op with
    | publish data =>
      rw [ih (r.publish data)]
      simp [Host.step, Cpp.step]
    | update =>
      obtain ⟨next, same⟩ := r.update
      have level : surplus 0 b = 0 := by
        simp only [surplus]
        omega
      rw [ih next, level]
      simp [same]
    | lostTake =>
      obtain ⟨next, same⟩ := r.lostTake
      rw [ih next, same]
      simp

/-- The part of a trace up to its first `update`. -/
def beforeUpdate (ops : List Op) : List Op := ops.takeWhile (· ≠ .update)

/-- The part of a trace from its first `update` on. -/
def fromUpdate (ops : List Op) : List Op := ops.dropWhile (· ≠ .update)

/-- Before the first `update` nothing shows, and then only a surplus does. -/
theorem outputs_agree_iff {ops : List Op} (r : Tracks k b 0 (publishes ops) h c) :
    outputs Host.step h ops = outputs Cpp.step c ops ↔
      k = 0 ∨ (k = 1 ∧ b = 0 ∧ ∀ op ∈ beforeUpdate ops, op.isPublish = false) ∨
        .lostTake ∉ fromUpdate ops := by
  induction ops generalizing b h c with
  | nil => simp [outputs, fromUpdate]
  | cons op ops ih =>
    rw [publishes_cons] at r
    simp only [outputs, List.cons.injEq]
    cases op with
    | publish data =>
      rw [ih (r.publish data)]
      simp [Host.step, Cpp.step, beforeUpdate, fromUpdate, Op.isPublish]
    | update =>
      obtain ⟨next, same⟩ := r.update
      rw [outputs_stepped next]
      have level : surplus k b = 0 ↔ k = 0 ∨ k = 1 ∧ b = 0 := by
        simp only [surplus]
        omega
      simp [same, level, beforeUpdate, fromUpdate, or_assoc]
    | lostTake =>
      obtain ⟨next, same⟩ := r.lostTake
      rw [ih next, same]
      simp [beforeUpdate, fromUpdate, Op.isPublish]

theorem seq_publications (t : Topic) (before : List (List (BitVec 8))) :
    (before.foldl (fun t data => (publish t data).1) t).seq = t.seq + before.length := by
  induction before generalizing t with
  | nil => rfl
  | cons data before ih =>
    rw [List.foldl_cons, ih, List.length_cons]
    simp only [Broker.publish, Topic.bump_seq, Topic.write_seq]
    omega

/-- On every trace with fewer than 2 ^ 32 publications, `before.length` of them before the
subscriber, both sides return the same from every call if and only if there was none before,
or there was one and none came before the first `update`, or no `lost_take` follows the first
`update`. -/
theorem lost_counters_agree_iff (size ctx : Nat) {before : List (List (BitVec 8))} {ops : List Op}
    (few : before.length + publishes ops < 2 ^ 32) :
    outputs Host.step (Host.init size ctx before) ops = outputs Cpp.step (Cpp.init before) ops ↔
      before.length = 0 ∨
      (before.length = 1 ∧ ∀ op ∈ beforeUpdate ops, op.isPublish = false) ∨
      .lostTake ∉ fromUpdate ops := by
  have start : Tracks before.length 0 0 (publishes ops) (Host.init size ctx before)
      (Cpp.init before) := by
    refine ⟨?_, ?_, ?_, rfl, ?_⟩
    · simp [Host.init, seq_publications, Topic.new, SubCb.new]
    · simp [Cpp.init, RustSubscriptionCallback.new]
    · cases before <;> simp [Cpp.init]
    · simpa [Host.init, SubCb.new] using few
  simpa using outputs_agree_iff start

/-- Two publications before, one update after. -/
theorem lost_counters_agree_two :
    outputs Host.step (Host.init 1 7 [[1], [2]]) [.update, .publish [3], .update] =
      outputs Cpp.step (Cpp.init [[1], [2]]) [.update, .publish [3], .update] :=
  (lost_counters_agree_iff 1 7 (by decide)).mpr (.inr (.inr (by decide)))

/-- The host reports a message lost that was published before the subscriber existed. -/
theorem lost_counters_differ :
    outputs Host.step (Host.init 1 7 [[1], [2]]) [.update, .lostTake] =
        [.updated true, .lost 1] ∧
      outputs Cpp.step (Cpp.init [[1], [2]]) [.update, .lostTake] = [.updated true, .lost 0] :=
  ⟨rfl, rfl⟩

end Px4Rs.LostCounters
