import Px4Rs.LostCounters
import Px4Rs.Runs

/-! `RustSubscriptionCallback` while publications go on: each becomes visible to `update()`
and calls `call()` afterwards, and `updateTrackLost` takes its four steps among them. -/
namespace Px4Rs.OverCount
open Px4Rs.Runs
open Px4Rs.LostCounters (RustSubscriptionCallback)

inductive Pc where
  | idle
  | load
  | exchange (pubsNow : BitVec 32)
  | add (delta : BitVec 32)
deriving DecidableEq

/- `visible` publications since the registration can be seen, `called` of them have run
   `call()`, and `update()` has delivered those in `delivered`; `unseen` is whether it has a
   sample to deliver. `taken` sums what `lostTake` has returned. Two more numbers are history:
   `seen` is what `called` was at the last load, and `news` the loads that found it grown. -/
structure State where
  visible : Nat
  called : Nat
  unseen : Bool
  delivered : List Nat
  cb : RustSubscriptionCallback
  pc : Pc
  taken : Nat
  seen : Nat
  news : Nat

/-- Registered on a topic with or without an earlier sample to deliver. -/
def init (earlier : Bool) : State := ⟨0, 0, earlier, [], .new, .idle, 0, 0, 0⟩

inductive Act where
  | publish
  | call
  | update
  | load
  | exchange
  | add
  | lostTake
deriving DecidableEq

/-- The newest sample, unless it is from before the registration. -/
def State.newest (s : State) : List Nat := if s.visible = 0 then [] else [s.visible - 1]

def step (s : State) : Act → Option State
  | .publish => some { s with visible := s.visible + 1, unseen := true }
  | .call =>
    if s.called < s.visible then some { s with called := s.called + 1, cb := s.cb.call } else none
  | .update =>
    match s.pc with
    | .idle => some (
        if s.unseen then
          { s with unseen := false, delivered := s.delivered ++ s.newest, pc := .load }
        else s)
    | _ => none
  | .load =>
    match s.pc with
    | .load => some
        { s with
          pc := .exchange s.cb.publishCount
          seen := s.called
          news := if s.seen < s.called then s.news + 1 else s.news }
    | _ => none
  | .exchange =>
    match s.pc with
    | .exchange pubsNow =>
      let delta := pubsNow - s.cb.lastPubsAtUpdate
      some { s with
        cb := { s.cb with lastPubsAtUpdate := pubsNow }
        pc := if 1 < delta.toNat then .add delta else .idle }
    | _ => none
  | .add =>
    match s.pc with
    | .add delta =>
      some { s with cb := { s.cb with lostAccum := s.cb.lostAccum + (delta - 1) }, pc := .idle }
    | _ => none
  | .lostTake => some
      { s with taken := s.taken + s.cb.lostTake.1.toNat, cb := s.cb.lostTake.2 }

variable {s t : State} {a : Act} {as : List Act}

inductive Steps (s : State) : Act → State → Prop
  | publish : Steps s .publish { s with visible := s.visible + 1, unseen := true }
  | call (before : s.called < s.visible) :
    Steps s .call { s with called := s.called + 1, cb := s.cb.call }
  | deliver (pc : s.pc = .idle) (new : s.unseen = true) : Steps s .update
      { s with unseen := false, delivered := s.delivered ++ s.newest, pc := .load }
  | nothing (pc : s.pc = .idle) (old : s.unseen = false) : Steps s .update s
  | load (pc : s.pc = .load) : Steps s .load
      { s with
        pc := .exchange s.cb.publishCount
        seen := s.called
        news := if s.seen < s.called then s.news + 1 else s.news }
  | more {pubsNow : BitVec 32} (pc : s.pc = .exchange pubsNow)
    (delta : 1 < (pubsNow - s.cb.lastPubsAtUpdate).toNat) : Steps s .exchange
      { s with
        cb := { s.cb with lastPubsAtUpdate := pubsNow }
        pc := .add (pubsNow - s.cb.lastPubsAtUpdate) }
  | noMore {pubsNow : BitVec 32} (pc : s.pc = .exchange pubsNow)
    (delta : ¬ 1 < (pubsNow - s.cb.lastPubsAtUpdate).toNat) : Steps s .exchange
      { s with cb := { s.cb with lastPubsAtUpdate := pubsNow }, pc := .idle }
  | add {delta : BitVec 32} (pc : s.pc = .add delta) : Steps s .add
      { s with cb := { s.cb with lostAccum := s.cb.lostAccum + (delta - 1) }, pc := .idle }
  | lostTake : Steps s .lostTake
      { s with taken := s.taken + s.cb.lostTake.1.toNat, cb := s.cb.lostTake.2 }

theorem steps_of_step (next : step s a = some t) : Steps s a t := by
  cases a with
  | publish => cases next; exact .publish
  | lostTake => cases next; exact .lostTake
  | call =>
    simp only [step, Option.ite_none_right_eq_some, Option.some.injEq] at next
    obtain ⟨before, rfl⟩ := next
    exact .call before
  | update =>
    simp only [step] at next
    split at next
    · rename_i pc
      split at next <;> rename_i new <;> cases next
      · exact .deliver pc new
      · exact .nothing pc (by simpa using new)
    · cases next
  | load =>
    simp only [step] at next
    split at next <;> cases next
    exact .load ‹_›
  | exchange =>
    simp only [step] at next
    split at next
    · rename_i pc
      cases next
      split
      · exact .more pc ‹_›
      · exact .noMore pc ‹_›
    · cases next
  | add =>
    simp only [step] at next
    split at next <;> cases next
    exact .add ‹_›

theorem Steps.step (h : Steps s a t) : step s a = some t := by
  cases h with
  | publish | lostTake => rfl
  | call before => simp only [OverCount.step, before, if_true]
  | deliver pc new => simp only [OverCount.step, pc, new, if_true]
  | nothing pc old => simp only [OverCount.step, pc, old, Bool.false_eq_true, if_false]
  | load pc | add pc => simp only [OverCount.step, pc]
  | more pc delta | noMore pc delta => simp only [OverCount.step, pc, delta, if_true, if_false]

/-- With nothing in between, the steps are `updateTrackLost`. -/
theorem updateTrackLost_steps (s : State) (idle : s.pc = .idle) :
    ∃ as t, Run step Free s as t ∧ t.pc = .idle ∧ t.cb = s.cb.updateTrackLost s.unseen := by
  cases new : s.unseen with
  | false => exact ⟨[], s, .nil, idle, rfl⟩
  | true =>
    have updated := Run.nil.snoc (P := Free) trivial (Steps.step (.deliver idle new))
    have loaded := updated.snoc trivial (Steps.step (.load rfl))
    by_cases delta : 1 < (s.cb.publishCount - s.cb.lastPubsAtUpdate).toNat
    · have exchanged := loaded.snoc trivial (Steps.step (.more rfl delta))
      refine ⟨_, _, exchanged.snoc trivial (Steps.step (.add rfl)), rfl, ?_⟩
      simp only [RustSubscriptionCallback.updateTrackLost, if_true, delta]
    · refine ⟨_, _, loaded.snoc trivial (Steps.step (.noMore rfl delta)), rfl, ?_⟩
      simp only [RustSubscriptionCallback.updateTrackLost, if_true, delta, if_false]

/-- Reported by `lostTake`, or about to be. -/
def State.total (s : State) : Nat := s.taken + s.cb.lostAccum.toNat

/-- The publications that a newer one has followed and no `update()` delivered. -/
def State.superseded (s : State) : Nat :=
  (List.range (s.visible - 1)).countP fun i => decide (i ∉ s.delivered)

/-- The publications that `update()` has nothing more to do with. -/
def State.settled (s : State) : Nat := if s.unseen then s.visible - 1 else s.visible

def Bounded (s : State) : Prop := s.total ≤ s.superseded

/- At a load a `call()` has run since the load before, and if a publication has become visible
   since the update, the newest one's has not. A first load after a sample from before the
   registration may find anything. -/
def CallsInOrder (s : State) : Act → Prop
  | .load => s.delivered ≠ [] → s.seen < s.called ∧ (s.unseen = true → s.called < s.visible)
  | _ => True

instance (s : State) : ∀ a, Decidable (CallsInOrder s a)
  | .load => inferInstanceAs (Decidable (s.delivered ≠ [] → _ ∧ _))
  | .publish | .call | .update | .exchange | .add | .lostTake => .isTrue trivial

/-! The publications: each is delivered, superseded, or the newest one still to be seen. -/

structure Deliveries (s : State) : Prop where
  below : ∀ i ∈ s.delivered, i < s.visible
  newest : 0 < s.visible → (s.unseen = true ↔ s.visible - 1 ∉ s.delivered)
  settled : s.superseded + s.delivered.length = s.settled

theorem deliveries_init (earlier : Bool) : Deliveries (init earlier) := by
  constructor <;> simp [init, State.superseded, State.settled]

theorem Deliveries.empty (h : Deliveries s) (none : s.visible = 0) : s.delivered = [] := by
  rw [List.eq_nil_iff_forall_not_mem]
  intro i hi
  have := h.below i hi
  omega

theorem Deliveries.publish (h : Deliveries s) :
    Deliveries { s with visible := s.visible + 1, unseen := true } := by
  have empty := h.empty
  obtain ⟨below, newest, settled⟩ := h
  refine ⟨?_, ?_, ?_⟩
  · intro i hi
    exact Nat.lt_succ_of_lt (below i hi)
  · intro _
    have fresh : s.visible ∉ s.delivered := fun h => Nat.lt_irrefl _ (below _ h)
    simpa using fresh
  · obtain none | some := Nat.eq_zero_or_pos s.visible
    · simp [State.superseded, State.settled, none, empty none]
    · have newest := newest some
      have one : s.visible = s.visible - 1 + 1 := by omega
      have more : List.range s.visible = List.range (s.visible - 1) ++ [s.visible - 1] :=
        (congrArg List.range one).trans List.range_succ
      simp only [State.superseded, State.settled] at settled
      simp only [State.superseded, State.settled, Nat.add_sub_cancel, if_true, more,
        List.countP_append, List.countP_singleton]
      cases unseen : s.unseen with
      | true =>
        have skipped : s.visible - 1 ∉ s.delivered := newest.mp unseen
        simp only [unseen, if_true] at settled
        simp only [skipped, not_false_eq_true, decide_true, if_true]
        omega
      | false =>
        have delivered : s.visible - 1 ∈ s.delivered := by
          by_contra skipped
          simp [unseen, skipped] at newest
        simp only [unseen, Bool.false_eq_true, if_false] at settled
        simp only [delivered, not_true_eq_false, decide_false, Bool.false_eq_true, if_false]
        omega

theorem Deliveries.deliver (h : Deliveries s) (new : s.unseen = true) : Deliveries
    { s with unseen := false, delivered := s.delivered ++ s.newest, pc := .load } := by
  have empty := h.empty
  obtain ⟨below, newest, settled⟩ := h
  simp only [State.superseded, State.settled, new, if_true] at settled
  obtain none | some := Nat.eq_zero_or_pos s.visible
  · constructor <;> simp [State.newest, State.superseded, State.settled, none, empty none]
  · have ne : s.visible ≠ 0 := by omega
    simp only [State.newest, ne, if_false]
    refine ⟨?_, by simp, ?_⟩
    · intro i hi
      obtain hi | rfl : i ∈ s.delivered ∨ i = s.visible - 1 := by simpa using hi
      · exact below i hi
      · simp only
        omega
    · have same : (List.range (s.visible - 1)).countP
          (fun i => decide (i ∉ s.delivered ++ [s.visible - 1])) =
          (List.range (s.visible - 1)).countP (fun i => decide (i ∉ s.delivered)) := by
        refine List.countP_congr fun i hi => ?_
        have earlier := List.mem_range.mp hi
        have other : i ≠ s.visible - 1 := by omega
        simp [other]
      simp only [State.superseded, State.settled, same, List.length_append,
        List.length_singleton, Bool.false_eq_true, if_false]
      omega

theorem deliveries_step (h : Deliveries s) (next : Steps s a t) : Deliveries t := by
  cases next with
  | publish => exact h.publish
  | deliver _ new => exact h.deliver new
  | nothing => exact h
  | call | load | more | noMore | add | lostTake => exact ⟨h.below, h.newest, h.settled⟩

/-! The counters: what is reported, with one for each load that found the calls grown, is
what the loads have seen. -/

def Counted (s : State) : Pc → Prop
  | .idle | .load => s.cb.lastPubsAtUpdate.toNat = s.seen ∧ s.total + s.news = s.seen
  | .exchange pubsNow =>
    pubsNow.toNat = s.seen ∧ s.cb.lastPubsAtUpdate.toNat ≤ s.seen ∧
      s.total + s.news = s.cb.lastPubsAtUpdate.toNat +
        if s.cb.lastPubsAtUpdate.toNat < s.seen then 1 else 0
  | .add delta =>
    s.cb.lastPubsAtUpdate.toNat = s.seen ∧ 1 < delta.toNat ∧
      s.total + (delta.toNat - 1) + s.news = s.seen

structure Inv (s : State) : Prop where
  deliveries : Deliveries s
  calls : s.cb.publishCount.toNat = s.called
  called : s.called ≤ s.visible
  seen : s.seen ≤ s.called
  counted : Counted s s.pc

theorem inv_init (earlier : Bool) : Inv (init earlier) :=
  ⟨deliveries_init earlier, rfl, Nat.le_refl _, Nat.le_refl _, rfl, rfl⟩

theorem Inv.load (h : Inv s) (pc : s.pc = .load) : Counted
    { s with
      pc := .exchange s.cb.publishCount
      seen := s.called
      news := if s.seen < s.called then s.news + 1 else s.news }
    (.exchange s.cb.publishCount) := by
  have counted : Counted s .load := pc ▸ h.counted
  obtain ⟨last, sum⟩ := counted
  refine ⟨h.calls, last ▸ h.seen, ?_⟩
  simp only [State.total] at sum ⊢
  rw [last]
  split <;> omega

theorem Counted.delta {pubsNow : BitVec 32} (h : Counted s (.exchange pubsNow)) :
    (pubsNow - s.cb.lastPubsAtUpdate).toNat = s.seen - s.cb.lastPubsAtUpdate.toNat := by
  obtain ⟨now, last, _⟩ := h
  rw [BitVec.toNat_sub_of_le, now]
  rw [BitVec.le_def, now]
  exact last

theorem Inv.add {delta : BitVec 32} (h : Inv s) (few : s.visible < 2 ^ 32)
    (pc : s.pc = .add delta) :
    s.taken + (s.cb.lostAccum + (delta - 1)).toNat + s.news = s.seen := by
  have counted : Counted s (.add delta) := pc ▸ h.counted
  obtain ⟨_, more, sum⟩ := counted
  have called := h.called
  have seen := h.seen
  simp only [State.total] at sum
  have one : (delta - 1).toNat = delta.toNat - 1 := by
    rw [BitVec.toNat_sub_of_le]
    · rfl
    · bv_omega
  have small : s.cb.lostAccum.toNat + (delta.toNat - 1) < 2 ^ 32 := by
    calc s.cb.lostAccum.toNat + (delta.toNat - 1)
      _ ≤ s.visible := by omega
      _ < 2 ^ 32 := few
  rw [BitVec.toNat_add, one, Nat.mod_eq_of_lt small]
  omega

theorem Counted.congr {pc : Pc} (h : Counted s pc) (total : t.total = s.total)
    (news : t.news = s.news) (seen : t.seen = s.seen)
    (last : t.cb.lastPubsAtUpdate = s.cb.lastPubsAtUpdate) : Counted t pc := by
  cases pc <;> simpa only [Counted, total, news, seen, last] using h

theorem inv_step (h : Inv s) (few : s.visible < 2 ^ 32) (next : Steps s a t) : Inv t := by
  have deliveries := deliveries_step h.deliveries next
  have counted := h.counted
  cases next with
  | publish =>
    exact ⟨deliveries, h.calls, Nat.le_succ_of_le h.called, h.seen, counted.congr rfl rfl rfl rfl⟩
  | call before =>
    have calls := h.calls
    refine ⟨deliveries, ?_, before, Nat.le_succ_of_le h.seen, counted.congr rfl rfl rfl rfl⟩
    simp only [RustSubscriptionCallback.call]
    bv_omega
  | deliver pc _ =>
    rw [pc] at counted
    exact ⟨deliveries, h.calls, h.called, h.seen, counted⟩
  | nothing => exact h
  | load pc => exact ⟨deliveries, h.calls, h.called, Nat.le_refl _, h.load pc⟩
  | more pc delta =>
    rw [pc] at counted
    have grown := counted.delta
    obtain ⟨now, last, sum⟩ := counted
    refine ⟨deliveries, h.calls, h.called, h.seen, now, delta, ?_⟩
    simp only [State.total] at sum ⊢
    split at sum <;> omega
  | noMore pc delta =>
    rw [pc] at counted
    have grown := counted.delta
    obtain ⟨now, last, sum⟩ := counted
    refine ⟨deliveries, h.calls, h.called, h.seen, now, ?_⟩
    simp only [State.total] at sum ⊢
    split at sum <;> omega
  | add pc =>
    have sum := h.add few pc
    rw [pc] at counted
    exact ⟨deliveries, h.calls, h.called, h.seen, counted.1, sum⟩
  | lostTake =>
    exact ⟨deliveries, h.calls, h.called, h.seen, counted.congr rfl rfl rfl rfl⟩

theorem visible_step (next : Steps s a t) : s.visible ≤ t.visible := by
  cases next with
  | publish => exact Nat.le_succ _
  | _ => exact Nat.le_refl _

/-! Loads in order: what they have seen is settled, and each delivery has a load that found the
calls grown. -/

structure Balanced (s : State) : Prop where
  settled : s.seen + s.delivered.length ≤ s.settled + s.news
  loads : s.delivered.length ≤ s.news + if s.pc = .load then 1 else 0

theorem balanced_init (earlier : Bool) : Balanced (init earlier) := by
  constructor <;> simp [init]

theorem settled_deliver (new : s.unseen = true) :
    ({ s with unseen := false, delivered := s.delivered ++ s.newest, pc := .load } :
      State).settled = s.settled + s.newest.length := by
  simp only [State.settled, State.newest, new, if_true, Bool.false_eq_true, if_false]
  split <;> simp only [List.length_nil, List.length_singleton] <;> omega

theorem length_newest (s : State) : s.newest.length ≤ 1 := by
  unfold State.newest
  split <;> simp

theorem Balanced.load (h : Balanced s) (called : s.called ≤ s.visible) (pc : s.pc = .load)
    (order : CallsInOrder s .load) : Balanced
      { s with
        pc := .exchange s.cb.publishCount
        seen := s.called
        news := if s.seen < s.called then s.news + 1 else s.news } := by
  obtain ⟨settled, loads⟩ := h
  have most : s.called ≤ s.settled + 1 := by
    unfold State.settled
    split <;> omega
  simp only [pc, if_true] at loads
  obtain none | some := eq_or_ne s.delivered []
  · refine ⟨?_, by simp [none]⟩
    change s.called + s.delivered.length ≤ s.settled + _
    simp only [none, List.length_nil] at settled ⊢
    split <;> omega
  · obtain ⟨grown, pending⟩ := order some
    have older : s.called ≤ s.settled := by
      unfold State.settled
      split
      · have := pending ‹_›
        omega
      · exact called
    refine ⟨?_, by simpa [grown] using loads⟩
    change s.called + s.delivered.length ≤ s.settled + _
    simp only [grown, if_true]
    omega

theorem balanced_step (inv : Inv s) (h : Balanced s) (order : CallsInOrder s a)
    (next : Steps s a t) : Balanced t := by
  cases next with
  | load pc => exact h.load inv.called pc order
  | publish =>
    obtain ⟨settled, loads⟩ := h
    refine ⟨Nat.le_trans settled (Nat.add_le_add_right ?_ _), loads⟩
    simp only [State.settled, if_true]
    split <;> omega
  | call | nothing | lostTake => exact ⟨h.settled, h.loads⟩
  | deliver pc new =>
    obtain ⟨settled, loads⟩ := h
    have one := length_newest s
    simp only [pc, reduceCtorEq, if_false] at loads
    refine ⟨?_, ?_⟩
    · rw [settled_deliver new, List.length_append]
      simp only
      omega
    · simp only [List.length_append, if_true]
      omega
  | more pc | noMore pc | add pc =>
    obtain ⟨settled, loads⟩ := h
    simp only [pc, reduceCtorEq, if_false] at loads
    exact ⟨settled, by simpa using loads⟩

/-- What is reported is at most what the loads have seen, less the loads that found it grown. -/
theorem Inv.reported (h : Inv s) : s.total + s.news ≤ s.seen := by
  have counted := h.counted
  cases pc : s.pc with
  | idle | load =>
    rw [pc] at counted
    exact Nat.le_of_eq counted.2
  | exchange pubsNow =>
    rw [pc] at counted
    obtain ⟨_, last, sum⟩ := counted
    split at sum <;> omega
  | add delta =>
    rw [pc] at counted
    obtain ⟨_, _, sum⟩ := counted
    omega

theorem Balanced.bounded (h : Balanced s) (inv : Inv s) : Bounded s := by
  have settled := h.settled
  have split := inv.deliveries.settled
  have reported := inv.reported
  unfold Bounded
  omega

/-! From a load out of order the counter can go wrong. -/

/-- Nothing has happened to the publications or to what the loads have seen of them. -/
structure SameNews (s t : State) : Prop where
  visible : t.visible = s.visible
  unseen : t.unseen = s.unseen
  delivered : t.delivered = s.delivered
  seen : t.seen = s.seen
  news : t.news = s.news

theorem sameNews_refl (s : State) : SameNews s s := ⟨rfl, rfl, rfl, rfl, rfl⟩

theorem SameNews.settled (h : SameNews s t) : t.settled = s.settled := by
  rw [State.settled, State.settled, h.unseen, h.visible]

theorem exists_idle (notLoad : s.pc ≠ .load) :
    ∃ bs t, Run step Free s bs t ∧ t.pc = .idle ∧ SameNews s t := by
  cases pc : s.pc with
  | idle => exact ⟨[], s, .nil, pc, sameNews_refl s⟩
  | load => exact absurd pc notLoad
  | exchange pubsNow =>
    by_cases delta : 1 < (pubsNow - s.cb.lastPubsAtUpdate).toNat
    · have exchanged := Run.nil.snoc (P := Free) trivial (Steps.step (.more pc delta))
      have added := exchanged.snoc trivial (Steps.step (.add rfl))
      exact ⟨_, _, added, rfl, rfl, rfl, rfl, rfl, rfl⟩
    · have exchanged := Run.nil.snoc (P := Free) trivial (Steps.step (.noMore pc delta))
      exact ⟨_, _, exchanged, rfl, rfl, rfl, rfl, rfl, rfl⟩
  | add delta =>
    have added := Run.nil.snoc (P := Free) trivial (Steps.step (.add pc))
    exact ⟨_, _, added, rfl, rfl, rfl, rfl, rfl, rfl⟩

theorem exists_called (s : State) (behind : s.called ≤ s.visible) :
    ∃ bs t, Run step Free s bs t ∧ t.called = s.visible ∧ t.pc = s.pc ∧ SameNews s t := by
  induction more : s.visible - s.called generalizing s with
  | zero => exact ⟨[], s, .nil, by omega, rfl, sameNews_refl s⟩
  | succ n ih =>
    have next := Run.nil.snoc (P := Free) trivial (Steps.step (s := s) (.call (by omega)))
    obtain ⟨bs, t, run, called, pc, same⟩ := ih
      { s with called := s.called + 1, cb := s.cb.call } (by simp only; omega) (by simp only; omega)
    exact ⟨_, t, next.append run, called, pc, same.visible, same.unseen, same.delivered, same.seen,
      same.news⟩

theorem inv_run {P : State → Act → Prop} (run : Run step P s as t) (h : Inv s)
    (few : t.visible < 2 ^ 32) : Inv t :=
  run.invariant_below h (fun _ _ _ h few _ next => inv_step h few (steps_of_step next))
    (fun _ _ _ next few => Nat.lt_of_le_of_lt (visible_step (steps_of_step next)) few) few

theorem Inv.overcounts (h : Inv s) (idle : s.pc = .idle)
    (more : s.settled + s.news < s.seen + s.delivered.length) : ¬ Bounded s := by
  have counted := h.counted
  rw [idle] at counted
  have reported := counted.2
  have split := h.deliveries.settled
  unfold Bounded
  omega

/- Without an earlier sample every load comes after a delivery. -/
structure Looked (s : State) : Prop where
  loads : (s.news + if s.pc = .load then 1 else 0) ≤ s.delivered.length
  fresh : s.unseen = true → 0 < s.visible

theorem looked_step (h : Looked s) (next : Steps s a t) : Looked t := by
  obtain ⟨loads, fresh⟩ := h
  cases next with
  | publish => exact ⟨loads, fun _ => Nat.succ_pos _⟩
  | call | nothing | lostTake => exact ⟨loads, fresh⟩
  | deliver pc new =>
    have visible := fresh new
    have ne : s.visible ≠ 0 := by omega
    simp only [pc, reduceCtorEq, if_false] at loads
    refine ⟨?_, by simp⟩
    simpa [State.newest, ne] using loads
  | load pc =>
    simp only [pc, if_true] at loads
    refine ⟨?_, fresh⟩
    simp only [reduceCtorEq, if_false]
    split <;> omega
  | more pc | noMore pc | add pc =>
    simp only [pc, reduceCtorEq, if_false] at loads
    exact ⟨by simpa using loads, fresh⟩

theorem exists_round (idle : s.pc = .idle) (all : s.called = s.visible) : ∃ t,
    Run step Free s [.publish, .call, .update, .load] t ∧ t.pc ≠ .load ∧
      t.visible = s.visible + 1 ∧ t.seen = s.visible + 1 ∧ t.unseen = false ∧
      t.delivered.length = s.delivered.length + 1 ∧ t.news ≤ s.news + 1 := by
  obtain ⟨t, ht⟩ : ∃ t, exec step Free s [.publish, .call, .update, .load] = some t := by
    simp [exec, step, Free, idle, all]
  refine ⟨t, run_of_exec ht, ?_⟩
  simp only [exec, step, Free, idle, all, Nat.lt_succ_self, if_true, Option.bind_some,
    Option.some.injEq] at ht
  subst ht
  refine ⟨by simp, rfl, rfl, rfl, by simp [State.newest], ?_⟩
  simp only
  split <;> omega

/-- A load that found no new call: the next publication is counted once too often. -/
theorem exists_overcounted_of_late (h : Inv s) (behind : s.news < s.delivered.length)
    (notLoad : s.pc ≠ .load) (few : s.visible + 1 < 2 ^ 32) :
    ∃ bs u, Run step Free s bs u ∧ u.visible ≤ s.visible + 1 ∧ ¬ Bounded u := by
  obtain ⟨as, m, ended, idle, same⟩ := exists_idle notLoad
  have inv := inv_run ended h (by rw [same.visible]; omega)
  obtain ⟨bs, c, called, all, pc, same'⟩ := exists_called m inv.called
  obtain ⟨r, round, busy, visibleR, seenR, unseenR, deliveredR, newsR⟩ :=
    exists_round (pc.trans idle) (all.trans same'.visible.symm)
  obtain ⟨cs, u, rest, ends, sameU⟩ := exists_idle busy
  rw [same'.visible, same.visible] at visibleR seenR
  rw [same'.delivered, same.delivered] at deliveredR
  rw [same'.news, same.news] at newsR
  have visible : u.visible = s.visible + 1 := sameU.visible.trans visibleR
  have settled : u.settled = u.visible := by simp [State.settled, sameU.unseen, unseenR]
  have whole := ((ended.append called).append round).append rest
  have invU := inv_run whole h (by omega)
  refine ⟨_, u, whole, by omega, invU.overcounts ends ?_⟩
  rw [settled, visible, sameU.news, sameU.seen, sameU.delivered]
  omega

/-- A load that counts the publication to be delivered next. -/
theorem exists_overcounted_of_early (h : Inv s) (loads : s.news ≤ s.delivered.length)
    (unseen : s.unseen = true) (visible : 0 < s.visible) (all : s.seen = s.visible)
    (notLoad : s.pc ≠ .load) (few : s.visible < 2 ^ 32) :
    ∃ bs u, Run step Free s bs u ∧ u.visible ≤ s.visible + 1 ∧ ¬ Bounded u := by
  obtain ⟨bs, u, rest, ends, same⟩ := exists_idle notLoad
  have inv := inv_run rest h (by rwa [same.visible])
  refine ⟨bs, u, rest, by rw [same.visible]; omega, inv.overcounts ends ?_⟩
  have settled : s.settled = s.visible - 1 := if_pos unseen
  rw [same.settled, settled, same.news, same.seen, same.delivered]
  omega

/-- In a run of fewer than 2 ^ 32 publications whose loads are all in order no state reports
more than was superseded. Where no sample is older than the registration, any run can go on
after a load out of order to a state that does, with at most one more publication. -/
theorem lost_never_overcounted {earlier : Bool} (run : Run step Free (init earlier) as s)
    (few : s.visible < 2 ^ 32) :
    (Run step CallsInOrder (init earlier) as s → Bounded s) ∧
    (earlier = false → s.visible + 1 < 2 ^ 32 →
      ∀ a t, step s a = some t → ¬ CallsInOrder s a →
        ∃ bs u, Run step Free t bs u ∧ u.visible ≤ s.visible + 1 ∧ ¬ Bounded u) := by
  have inv := inv_run run (inv_init earlier) few
  refine ⟨fun ordered => ?_, ?_⟩
  · suffices Inv s ∧ Balanced s from this.2.bounded this.1
    refine ordered.invariant_below (I := fun s => Inv s ∧ Balanced s)
      (B := fun s => s.visible < 2 ^ 32) ⟨inv_init earlier, balanced_init earlier⟩ ?_ ?_ few
    · intro s a t ⟨inv, balanced⟩ few order next
      exact ⟨inv_step inv few (steps_of_step next),
        balanced_step inv balanced order (steps_of_step next)⟩
    · intro s a t next few
      exact Nat.lt_of_le_of_lt (visible_step (steps_of_step next)) few
  · rintro rfl few' a t next broken
    have looked : Looked s := run.invariant ⟨Nat.le_refl _, by simp [init]⟩
      fun _ _ _ h _ next => looked_step h (steps_of_step next)
    have invT := inv_step inv few (steps_of_step next)
    have lookedT := looked_step looked (steps_of_step next)
    cases steps_of_step next with
    | load pc =>
      simp only [CallsInOrder, Classical.not_imp] at broken
      obtain ⟨some, broken⟩ := broken
      have loads := looked.loads
      simp only [pc, if_true] at loads
      by_cases grown : s.seen < s.called
      · simp only [grown, true_and, Classical.not_imp] at broken
        obtain ⟨unseen, newest⟩ := broken
        have called := inv.called
        exact exists_overcounted_of_early invT (by simpa using lookedT.loads) unseen
          (looked.fresh unseen) (show s.called = s.visible by omega) (by simp) few
      · have missed : (if s.seen < s.called then s.news + 1 else s.news) < s.delivered.length := by
          rwa [if_neg grown]
        exact exists_overcounted_of_late invT missed (by simp) few'
    | publish | call | deliver | nothing | more | noMore | add | lostTake =>
      exact absurd trivial broken

/-- Two publications before an update: one is superseded, and one is reported. And a load before
the `call()` of the publication that was delivered, after which the next one is counted. -/
theorem lost_never_overcounted_two :
    (∃ s, Run step CallsInOrder (init false)
      [.publish, .call, .publish, .call, .update, .load, .exchange, .add, .lostTake] s ∧
      s.taken = 1 ∧ Bounded s) ∧
    ∃ s, Run step Free (init false) [.publish, .update, .load] s ∧
      ∃ bs u, Run step Free s bs u ∧ u.visible ≤ 2 ∧ ¬ Bounded u := by
  constructor
  · obtain ⟨s, run, test⟩ := exists_run step CallsInOrder (init false)
      [.publish, .call, .publish, .call, .update, .load, .exchange, .add, .lostTake]
      (fun s => s.visible = 2 ∧ s.taken = 1) rfl
    obtain ⟨visible, taken⟩ : s.visible = 2 ∧ s.taken = 1 := by simpa using test
    exact ⟨s, run, taken, (lost_never_overcounted run.free (by omega)).1 run⟩
  · obtain ⟨s, run, test⟩ := exists_run step Free (init false) [.publish, .update]
      (fun s => s.visible = 1 ∧ s.pc = .load ∧ ¬ CallsInOrder s .load) rfl
    obtain ⟨visible, pc, broken⟩ : s.visible = 1 ∧ s.pc = .load ∧ ¬ CallsInOrder s .load := by
      simpa using test
    have next := Steps.step (.load pc)
    obtain ⟨bs, u, rest, bound, wrong⟩ :=
      (lost_never_overcounted run (by omega)).2 rfl (by omega) _ _ next broken
    exact ⟨_, run.snoc trivial next, bs, u, rest, by omega, wrong⟩

/-- The second publication lands between the update and the load of the first: it is counted
lost, and delivered. -/
theorem lost_overcounted :
    ∃ s, Run step Free (init false)
      [.publish, .call, .update, .publish, .call, .load, .exchange, .add, .lostTake, .update] s ∧
      s.visible = 2 ∧ s.delivered = [0, 1] ∧ s.taken = 1 ∧ s.superseded = 0 ∧ ¬ Bounded s := by
  obtain ⟨s, run, test⟩ := exists_run step Free (init false)
    [.publish, .call, .update, .publish, .call, .load, .exchange, .add, .lostTake, .update]
    (fun s => s.visible = 2 ∧ s.delivered = [0, 1] ∧ s.taken = 1 ∧ s.superseded = 0) rfl
  obtain ⟨visible, delivered, taken, superseded⟩ :
    s.visible = 2 ∧ s.delivered = [0, 1] ∧ s.taken = 1 ∧ s.superseded = 0 := by simpa using test
  refine ⟨s, run, visible, delivered, taken, superseded, ?_⟩
  simp only [Bounded, State.total]
  omega

end Px4Rs.OverCount
