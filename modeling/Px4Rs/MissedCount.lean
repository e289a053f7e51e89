import Px4Rs.Broker
import Px4Rs.Runs

/-! The messages a `RawSubscription` has received, missed and is still to report missing,
against the messages its publisher published. -/
namespace Px4Rs.MissedCount
open Px4Rs.Broker Px4Rs.Runs

inductive Op where
  | publish (data : List (BitVec 8))
  | unadvertise
  | tryRecv (len : Nat)
  | missedCount

/- `publishes` and `received` count the successful calls of `publish` and `try_recv`,
   `advertises` the advertisements made on the way, and `missed` sums what
   `missed_count` has returned. -/
structure State where
  topic : Topic
  pub : RawPublication
  sub : RawSubscription
  publishes : Nat
  advertises : Nat
  received : Nat
  missed : Nat

def init (size : Nat) (others : List Nat) (ctx : Nat) (pubSize subSize : BitVec 16) : State :=
  let sub : RawSubscription := ⟨none, ctx, subSize⟩
  let registered := sub.ensureRegistered { Topic.new size with callbacks := others }
  { topic := registered.2
    pub := ⟨false, pubSize⟩
    sub := { sub with cb := some registered.1 }
    publishes := 0
    advertises := 0
    received := 0
    missed := 0 }

def State.recv (s : State) (len : Nat) : State :=
  let r := s.sub.tryRecv s.topic len
  { s with
    sub := r.1
    topic := r.2.1
    received := if r.2.2.isSome then s.received + 1 else s.received }

def step (s : State) : Op → Option State
  | .publish data =>
    match s.pub.publish s.topic data with
    | .ok (pub, topic, _) => some
        { s with
          pub, topic
          publishes := s.publishes + 1
          advertises := if s.pub.advertised then s.advertises else s.advertises + 1 }
    | .error _ => some s
  | .unadvertise => some { s with pub := s.pub.unadvertise }
  | .tryRecv len => some (s.recv len)
  | .missedCount => some
      { s with
        sub := s.sub.missedCount.2
        missed := s.missed + s.sub.missedCount.1.toNat }

def Succeeds (s : State) (len : Nat) : Prop := (s.sub.tryRecv s.topic len).2.2.isSome = true

/-- Reported missing, still to be reported, and received. -/
def State.counted (s : State) : Nat :=
  s.missed + s.sub.missedCount.1.toNat + s.received

/-- A successful `try_recv` leaves every published message counted once. -/
def CountsExactly (s : State) : Op → Prop
  | .tryRecv len => Succeeds s len → (s.recv len).counted = (s.recv len).publishes
  | _ => True

instance (s : State) (len : Nat) : Decidable (Succeeds s len) :=
  inferInstanceAs (Decidable (_ = true))

/-- No `try_recv` into a large enough buffer follows a `publish`. -/
def NothingToReceive (s : State) : Op → Prop
  | .tryRecv len => s.sub.oSize.toNat ≤ len → s.publishes = 0
  | _ => True

instance (s : State) : ∀ op, Decidable (NothingToReceive s op)
  | .tryRecv len => inferInstanceAs (Decidable (s.sub.oSize.toNat ≤ len → s.publishes = 0))
  | .publish _ | .unadvertise | .missedCount => .isTrue trivial

/- Every publication and every advertisement moves the seq by one, and while the 32-bit
   counter cannot overflow all of them up to `lastSeen` are counted. -/
structure Inv (cb : SubCb) (s : State) : Prop where
  registered : s.sub.cb = some cb
  seq : s.topic.seq = s.publishes + s.advertises
  first : s.publishes = 0 ↔ s.advertises = 0
  advertised : s.pub.advertised = true → s.publishes ≠ 0
  seen : cb.lastSeen ≤ s.topic.seq
  counted : s.topic.seq ≤ 2 ^ 32 → s.missed + cb.lost.toNat + s.received = cb.lastSeen
  fresh : s.received = 0 → cb.lastSeen = 0 ∧ cb.lost = 0 ∧ s.missed = 0

theorem inv_init (size : Nat) (others : List Nat) (ctx : Nat) (pubSize subSize : BitVec 16) :
    ∃ cb, Inv cb (init size others ctx pubSize subSize) :=
  ⟨_, rfl, rfl, Iff.rfl, by simp [init], Nat.le_refl _, fun _ => rfl, fun _ => ⟨rfl, rfl, rfl⟩⟩

variable {s t : State} {cb : SubCb}

theorem Inv.recv_cases (h : Inv cb s) (len : Nat) :
    (s.sub.oSize.toNat ≤ len ∧ cb.lastSeen < s.topic.seq) ∧ Succeeds s len ∧
        s.recv len = { s with
          sub := { s.sub with cb := some (cb.stepTo s.topic.seq) }
          received := s.received + 1 } ∨
      ¬ (s.sub.oSize.toNat ≤ len ∧ cb.lastSeen < s.topic.seq) ∧ ¬ Succeeds s len ∧
        s.recv len = s := by
  obtain ⟨topic, pub, ⟨c, ctx, oSize⟩, publishes, advertises, received, missed⟩ := s
  obtain rfl : c = some cb := h.registered
  simp only [Succeeds, State.recv, RawSubscription.tryRecv, RawSubscription.ensureRegistered,
    SubCb.update, SubCb.copyRecord]
  obtain short | enough := Nat.lt_or_ge len oSize.toNat
  · simp [short]
  · obtain new | old := Nat.lt_or_ge cb.lastSeen topic.seq
    · simp [new, enough, Nat.not_lt.mpr enough]
    · simp [Nat.not_lt.mpr old, Nat.not_lt.mpr enough]

theorem publish_cases (s : State) (data : List (BitVec 8)) :
    (∃ topic, s.pub.publish s.topic data = .ok ({ s.pub with advertised := true }, topic) ∧
      topic.1.seq = s.topic.seq + (if s.pub.advertised then 1 else 2)) ∨
    s.pub.publish s.topic data = .error .sizeMismatch := by
  obtain ⟨topic, ⟨advertised, oSize⟩, sub, publishes, advertises, received, missed⟩ := s
  simp only [RawPublication.publish]
  split
  · exact .inr rfl
  · left
    cases advertised
    · exact ⟨_, rfl, rfl⟩
    · exact ⟨_, rfl, rfl⟩

theorem inv_step {op : Op} (h : Inv cb s) (next : step s op = some t) : ∃ cb', Inv cb' t := by
  cases op with
  | publish data =>
    obtain ⟨topic, hp, hseq⟩ | hp := publish_cases s data
    · simp only [step, hp, Option.some.injEq] at next
      subst next
      obtain ⟨registered, seq, first, advertised, seen, counted, fresh⟩ := h
      refine ⟨cb, registered, ?_, ?_, ?_, ?_, ?_, fresh⟩
      all_goals simp only [hseq, seq]
      all_goals grind
    · simp only [step, hp, Option.some.injEq] at next
      exact ⟨cb, next ▸ h⟩
  | unadvertise =>
    cases next
    obtain ⟨registered, seq, first, advertised, seen, counted, fresh⟩ := h
    exact ⟨cb, registered, seq, first, by simp [RawPublication.unadvertise], seen, counted, fresh⟩
  | tryRecv len =>
    cases next
    obtain ⟨⟨_, new⟩, _, he⟩ | ⟨_, _, he⟩ := h.recv_cases len
    · obtain ⟨registered, seq, first, advertised, seen, counted, fresh⟩ := h
      rw [he]
      refine ⟨_, rfl, seq, first, advertised, Nat.le_refl _, fun bound => ?_, by simp⟩
      simp only at bound ⊢
      have sum := counted bound
      rw [SubCb.stepTo_lost (by omega)]
      simp only [SubCb.stepTo]
      omega
    · rw [he]
      exact ⟨cb, h⟩
  | missedCount =>
    cases next
    obtain ⟨registered, seq, first, advertised, seen, counted, fresh⟩ := h
    simp only [RawSubscription.missedCount, registered, SubCb.lostTake]
    refine ⟨_, rfl, seq, first, advertised, seen, fun bound => ?_, fun hr => ?_⟩
    · simpa using counted bound
    · obtain ⟨seen, lost, missed⟩ := fresh hr
      simp [seen, lost, missed]

theorem inv_run {P : State → Op → Prop} {s₀ : State} {ops : List Op} (init : ∃ cb, Inv cb s₀)
    (h : Run step P s₀ ops s) : ∃ cb, Inv cb s :=
  h.invariant (I := fun s => ∃ cb, Inv cb s) init fun _ _ _ ⟨_, hs⟩ _ => inv_step hs

/-- The first message received already finds the advertisement counted as one more. -/
theorem countsExactly_iff (h : Inv cb s) (none_yet : s.received = 0) (bound : s.publishes < 2 ^ 32)
    (op : Op) : CountsExactly s op ↔ NothingToReceive s op := by
  cases op with
  | tryRecv len =>
    obtain ⟨hlen, hlost, hmissed⟩ := h.fresh none_yet
    have hseq := h.seq
    have hfirst := h.first
    obtain ⟨⟨enough, new⟩, succeeds, he⟩ | ⟨old, fails, _⟩ := h.recv_cases len
    · have lost := SubCb.stepTo_lost_zero hlost s.topic.seq
      simp only [CountsExactly, NothingToReceive, succeeds, enough, forall_const, he, State.counted,
        RawSubscription.missedCount, SubCb.lostTake, lost, hmissed, none_yet]
      omega
    · simp only [CountsExactly, NothingToReceive, fails, false_imp_iff, true_iff]
      intro enough
      have : ¬ cb.lastSeen < s.topic.seq := fun new => old ⟨enough, new⟩
      omega
  | _ => exact Iff.rfl

theorem received_step {op : Op} (h : Inv cb s) (none_yet : s.received = 0)
    (g : NothingToReceive s op) (next : step s op = some t) : t.received = 0 := by
  cases op with
  | publish data =>
    simp only [step] at next
    split at next <;> cases next <;> exact none_yet
  | unadvertise | missedCount => cases next; exact none_yet
  | tryRecv len =>
    cases next
    obtain ⟨⟨enough, new⟩, _, _⟩ | ⟨_, _, he⟩ := h.recv_cases len
    · have := g enough
      have := h.first.mp this
      have := h.seq
      omega
    · rwa [he]

theorem publishes_step {op : Op} (next : step s op = some t) : s.publishes ≤ t.publishes := by
  cases op with
  | publish data =>
    simp only [step] at next
    split at next <;> cases next
    · exact Nat.le_succ _
    · exact Nat.le_refl _
  | _ => cases next; exact Nat.le_refl _

/-- A run counts every message exactly only when it never receives one: the advertisement
a `publish` makes first counts as a message of its own. What is counted after every
message received is the publications and the advertisements together. -/
theorem counts_exactly_iff (size : Nat) (others : List Nat) (ctx : Nat)
    (pubSize subSize : BitVec 16) (ops : List Op) (bound : s.publishes < 2 ^ 32) :
    (Run step CountsExactly (init size others ctx pubSize subSize) ops s ↔
      Run step NothingToReceive (init size others ctx pubSize subSize) ops s) ∧
    (Run step Free (init size others ctx pubSize subSize) ops s →
      s.publishes + s.advertises ≤ 2 ^ 32 → ∀ len, Succeeds s len →
        (s.recv len).counted = s.publishes + s.advertises ∧ s.advertises ≠ 0) := by
  have start := inv_init size others ctx pubSize subSize
  constructor
  · refine run_congr_below (I := fun s => (∃ cb, Inv cb s) ∧ s.received = 0)
      (B := fun s => s.publishes < 2 ^ 32) ⟨start, rfl⟩ ?_ ?_ ?_ bound
    · rintro s op t ⟨⟨cb, inv⟩, none_yet⟩ hb g next
      exact ⟨inv_step inv next,
        received_step inv none_yet ((countsExactly_iff inv none_yet hb op).mp g) next⟩
    · intro s op t next hb
      exact Nat.lt_of_le_of_lt (publishes_step next) hb
    · rintro s op t ⟨⟨cb, inv⟩, none_yet⟩ hb _
      exact countsExactly_iff inv none_yet hb op
  · intro run small len succeeds
    obtain ⟨cb, inv⟩ := inv_run start run
    obtain ⟨⟨_, new⟩, _, he⟩ | ⟨_, fails, _⟩ := inv.recv_cases len
    · have sum := inv.counted (inv.seq ▸ small)
      have seq := inv.seq
      have lost : (cb.stepTo s.topic.seq).lost.toNat =
          cb.lost.toNat + (s.topic.seq - cb.lastSeen - 1) :=
        SubCb.stepTo_lost (by omega)
      refine ⟨?_, fun none => ?_⟩
      · simp only [he, State.counted, RawSubscription.missedCount, SubCb.lostTake, lost]
        omega
      · have := inv.first.mpr none
        omega
    · exact absurd succeeds fails

theorem counts_exactly_iff_quiet :
    ∃ s, Run step CountsExactly (init 1 [] 3 1 1)
      [.tryRecv 1, .publish [5], .unadvertise, .publish [6], .missedCount] s := by
  obtain ⟨s, run, hs⟩ := exists_run step NothingToReceive
    (init 1 [] 3 1 1)
    [.tryRecv 1, .publish [5], .unadvertise, .publish [6], .missedCount]
    (fun s => s.publishes = 2) rfl
  have bound : s.publishes = 2 := by simpa using hs
  exact ⟨s, (counts_exactly_iff 1 [] 3 1 1 _ (by omega)).1.mpr run⟩

/-- One message published and received: one is counted as missed. -/
theorem first_message_counts_twice :
    ∃ s, Run step Free (init 1 [] 3 1 1) [.publish [5]] s ∧ Succeeds s 1 ∧
      (s.recv 1).publishes = 1 ∧ (s.recv 1).counted = 2 ∧ ¬ CountsExactly s (.tryRecv 1) := by
  refine ⟨_, Run.nil.snoc trivial rfl, by decide, rfl, by decide, fun h => ?_⟩
  exact absurd (h (by decide)) (by decide)

end Px4Rs.MissedCount
