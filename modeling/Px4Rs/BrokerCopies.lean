import Px4Rs.Broker
import Px4Rs.Metadata

/-! The copies that the host broker makes for any number of `RawPublication`s and
`RawSubscription`s, whose metadata may share a name and differ in size. -/
namespace Px4Rs.BrokerCopies
open Px4Rs.Runs Px4Rs.Broker Function
open Px4Rs.Metadata (OrbMetadata)

/-- A `copy_nonoverlapping`, with the bytes that its source and its destination have. -/
structure Copy where
  len : Nat
  src : Nat
  dst : Nat
deriving DecidableEq

/-- It reads and writes nothing past either end. -/
def Copy.InBounds (c : Copy) : Prop := c.len ≤ c.src ∧ c.len ≤ c.dst

/-- A `RawPublication`: its handle, when not null, is the topic of its name. -/
structure Publisher where
  metadata : OrbMetadata
  advertised : Bool

structure Subscriber where
  metadata : OrbMetadata
  cb : Option SubCb

/- `topics` is the broker's map, and `copies` all copies so far. -/
structure State where
  topics : String → Option Topic
  pubs : List Publisher
  subs : List Subscriber
  copies : List Copy

def init : State := ⟨fun _ => none, [], [], []⟩

inductive Op where
  | newPublication (metadata : OrbMetadata)
  | newSubscription (metadata : OrbMetadata)
  | advertiseMulti (i : Nat) (initial : List (BitVec 8)) (requested : Int)
  | publish (i : Nat) (data : List (BitVec 8))
  | tryRecv (j : Nat) (len : Nat)

namespace State

/-- `topic_for`, before it inserts the topic. -/
def topicFor (s : State) (m : OrbMetadata) : Topic :=
  (s.topics m.oName).getD (.new m.oSize.toNat)

/-- The topic of a name after some copies. -/
@[simps] def put (s : State) (name : String) (t : Topic) (copies : List Copy) : State :=
  { s with topics := update s.topics name (some t), copies := s.copies ++ copies }

/-- `mock::advertise` and `mock::advertise_multi`, which leaves the instance as it is. -/
def advertise (s : State) (m : OrbMetadata) (initial : List (BitVec 8)) : State :=
  let t := s.topicFor m
  s.put m.oName (Broker.advertise t initial).1 [⟨t.size, initial.length, t.data.length⟩]

def ffiPublish (s : State) (m : OrbMetadata) (data : List (BitVec 8)) : State :=
  match s.topics m.oName with
  | some t => s.put m.oName (Broker.publish t data).1 [⟨t.size, data.length, t.data.length⟩]
  | none => s

/-- `RawPublication::ensure_advertised`, and its copy in `advertise_multi`. -/
def ensureAdvertised (s : State) (i : Nat) (p : Publisher) (initial : List (BitVec 8)) : State :=
  if p.advertised then s
  else { s.advertise p.metadata initial with pubs := s.pubs.set i { p with advertised := true } }

def advertiseMulti (s : State) (i : Nat) (p : Publisher) (initial : List (BitVec 8))
    (requested : Int) : State × Except RawPubError Int :=
  if initial.length ≠ p.metadata.oSize.toNat then (s, .error .sizeMismatch)
  else (s.ensureAdvertised i p initial, .ok requested)

def publish (s : State) (i : Nat) (p : Publisher) (data : List (BitVec 8)) :
    State × Except RawPubError Unit :=
  if data.length ≠ p.metadata.oSize.toNat then (s, .error .sizeMismatch)
  else ((s.ensureAdvertised i p data).ffiPublish p.metadata data, .ok ())

/-- `sub_cb_new` and `sub_cb_register`, unless there is a callback. The `ctx` of a subscriber
is its own. -/
def ensureRegistered (s : State) (j : Nat) (u : Subscriber) : State × SubCb :=
  match u.cb with
  | some cb => (s, cb)
  | none =>
    let t := s.topicFor u.metadata
    let cb := SubCb.new t j
    ({ s.put u.metadata.oName { t with callbacks := t.callbacks ++ [j] } [] with
        subs := s.subs.set j { u with cb := some cb } }, cb)

/-- `sub_cb_update` into a buffer of `len` bytes. -/
def update (s : State) (j : Nat) (u : Subscriber) (cb : SubCb) (len : Nat) : State × Bool :=
  match s.topics u.metadata.oName with
  | none => (s, false)
  | some t =>
    match cb.update t with
    | none => (s, false)
    | some (_, cb') =>
      ({ s with
          subs := s.subs.set j { u with cb := some cb' }
          copies := s.copies ++ [⟨cb.size, t.data.length, len⟩] }, true)

/-- `RawSubscription::try_recv` into a buffer of `len` bytes. -/
def tryRecv (s : State) (j : Nat) (u : Subscriber) (len : Nat) : State × Option Nat :=
  let size := u.metadata.oSize.toNat
  if len < size then (s, none)
  else
    let (s, cb) := s.ensureRegistered j u
    let (s, updated) := s.update j u cb len
    (s, if updated then some size else none)

end State

def step (s : State) : Op → Option State
  | .newPublication m => some { s with pubs := s.pubs ++ [⟨m, false⟩] }
  | .newSubscription m => some { s with subs := s.subs ++ [⟨m, none⟩] }
  | .advertiseMulti i initial requested =>
    s.pubs[i]?.map fun p => (s.advertiseMulti i p initial requested).1
  | .publish i data => s.pubs[i]?.map fun p => (s.publish i p data).1
  | .tryRecv j len => s.subs[j]?.map fun u => (s.tryRecv j u len).1

def InBounds (s : State) : Prop := ∀ c ∈ s.copies, c.InBounds

/-- `n` bytes are enough for the topic, if the broker has it already. -/
def Covers (s : State) (m : OrbMetadata) (n : Nat) : Prop :=
  ∀ t, s.topics m.oName = some t → t.size ≤ n

/-- The topic has a sample that this subscriber has not seen. -/
def Unseen (u : Subscriber) (t : Topic) : Prop := u.cb.elim 0 SubCb.lastSeen < t.seq

/-- The bytes that a call passes, once past its own length check, are enough for the size
that the topic got from the first metadata of its name. -/
def LongEnough (s : State) : Op → Prop
  | .newPublication _ | .newSubscription _ => True
  | .advertiseMulti i initial _ => ∀ p, s.pubs[i]? = some p → p.advertised = false →
      initial.length = p.metadata.oSize.toNat → Covers s p.metadata initial.length
  | .publish i data => ∀ p, s.pubs[i]? = some p → data.length = p.metadata.oSize.toNat →
      Covers s p.metadata data.length
  | .tryRecv j len => ∀ u, s.subs[j]? = some u → u.metadata.oSize.toNat ≤ len →
      ∀ t, s.topics u.metadata.oName = some t → Unseen u t → t.size ≤ len

/- A topic keeps the size it was made with, its buffer has that size, and so do the copies to
   its subscribers. -/
structure Inv (s : State) : Prop where
  data : ∀ name t, s.topics name = some t → t.data.length = t.size
  handle : ∀ p ∈ s.pubs, p.advertised = true → ∃ t, s.topics p.metadata.oName = some t
  size : ∀ u ∈ s.subs, ∀ cb, u.cb = some cb →
    ∃ t, s.topics u.metadata.oName = some t ∧ cb.size = t.size

variable {s t u : State} {m : OrbMetadata} {p : Publisher} {v : Subscriber} {i j n : Nat}
  {bytes : List (BitVec 8)} {ok ok' : Prop}

theorem inv_init : Inv init := by constructor <;> simp [init]

theorem topicFor_some {topic : Topic} (h : s.topics m.oName = some topic) :
    s.topicFor m = topic := by
  simp [State.topicFor, h]

theorem Inv.topicFor (h : Inv s) (m : OrbMetadata) :
    (s.topicFor m).data.length = (s.topicFor m).size := by
  cases ht : s.topics m.oName with
  | none => simp [State.topicFor, ht, Topic.new]
  | some topic =>
    rw [topicFor_some ht]
    exact h.data _ topic ht

theorem covers_iff (h : m.oSize.toNat ≤ n) : Covers s m n ↔ (s.topicFor m).size ≤ n := by
  cases ht : s.topics m.oName with
  | none => simp [Covers, State.topicFor, ht, Topic.new, h]
  | some topic => simp [Covers, topicFor_some ht, ht]

/-- No call forgets a copy, or changes the size of a topic. -/
structure Grows (s t : State) : Prop where
  copies : ∃ cs, t.copies = s.copies ++ cs
  topics : ∀ name a, s.topics name = some a → ∃ b, t.topics name = some b ∧ b.size = a.size

theorem grows_refl (s : State) : Grows s s := ⟨⟨[], by simp⟩, fun _ a h => ⟨a, h, rfl⟩⟩

theorem Grows.trans (h : Grows s t) (h' : Grows t u) : Grows s u := by
  obtain ⟨cs, hcs⟩ := h.copies
  obtain ⟨ds, hds⟩ := h'.copies
  refine ⟨⟨cs ++ ds, by rw [hds, hcs, List.append_assoc]⟩, ?_⟩
  intro name a ha
  obtain ⟨b, hb, same⟩ := h.topics name a ha
  obtain ⟨c, hc, same'⟩ := h'.topics name b hb
  exact ⟨c, hc, same'.trans same⟩

theorem grows_put {topic : Topic} (size : topic.size = (s.topicFor m).size) (cs : List Copy) :
    Grows s (s.put m.oName topic cs) := by
  refine ⟨⟨cs, rfl⟩, ?_⟩
  intro name a ha
  by_cases same : name = m.oName
  · subst same
    exact ⟨topic, update_self .., by rw [size, topicFor_some ha]⟩
  · exact ⟨a, (update_of_ne same ..).trans ha, rfl⟩

theorem Inv.put {topic : Topic} {cs : List Copy} (h : Inv s)
    (size : topic.size = (s.topicFor m).size) (data : topic.data.length = topic.size) :
    Inv (s.put m.oName topic cs) := by
  have grows := grows_put size cs
  constructor
  · intro name t ht
    by_cases same : name = m.oName
    · obtain rfl : topic = t := by simpa [same] using ht
      exact data
    · exact h.data name t (by simpa [update_of_ne same] using ht)
  · intro p hp advertised
    obtain ⟨old, hold⟩ := h.handle p hp advertised
    obtain ⟨new, hnew, _⟩ := grows.topics _ old hold
    exact ⟨new, hnew⟩
  · intro v hv cb hcb
    obtain ⟨old, hold, hsize⟩ := h.size v hv cb hcb
    obtain ⟨new, hnew, same⟩ := grows.topics _ old hold
    exact ⟨new, hnew, hsize.trans same.symm⟩

theorem Inv.setPub (h : Inv s)
    (hp : p.advertised = true → ∃ t, s.topics p.metadata.oName = some t) :
    Inv { s with pubs := s.pubs.set i p } := by
  refine ⟨h.data, ?_, h.size⟩
  intro q hq
  obtain hq | rfl := List.mem_or_eq_of_mem_set hq
  · exact h.handle q hq
  · exact hp

theorem Inv.setSub (h : Inv s)
    (hv : ∀ cb, v.cb = some cb → ∃ t, s.topics v.metadata.oName = some t ∧ cb.size = t.size) :
    Inv { s with subs := s.subs.set j v } := by
  refine ⟨h.data, h.handle, ?_⟩
  intro w hw
  obtain hw | rfl := List.mem_or_eq_of_mem_set hw
  · exact h.size w hw
  · exact hv

theorem Inv.copied (h : Inv s) (cs : List Copy) : Inv { s with copies := cs } :=
  ⟨h.data, h.handle, h.size⟩

/-- The new copies are in bounds when `ok` is, and then the invariant is kept. -/
structure Effect (s t : State) (ok : Prop) : Prop where
  copies : ∃ cs, t.copies = s.copies ++ cs ∧ ((∀ c ∈ cs, c.InBounds) ↔ ok)
  inv : ok → Inv t

theorem Effect.inBounds_iff (h : Effect s t ok) : InBounds t ↔ InBounds s ∧ ok := by
  obtain ⟨cs, hcs, iff⟩ := h.copies
  simp only [InBounds, hcs, List.forall_mem_append, iff]

theorem Effect.congr (h : Effect s t ok) (iff : ok ↔ ok') : Effect s t ok' := by
  rwa [← iff]

theorem Inv.effect (h : Inv t) (same : t.copies = s.copies) : Effect s t True :=
  ⟨⟨[], by simp [same], by simp⟩, fun _ => h⟩

/-- Where the first effect has left its bounds, only the number of copies matters. -/
theorem Effect.seq (h : Effect s t ok) (more : Grows t u)
    (next : ok → Effect t u ok') : Effect s u (ok ∧ ok') := by
  obtain ⟨cs, hcs, iff⟩ := h.copies
  refine ⟨?_, fun ⟨first, second⟩ => (next first).inv second⟩
  by_cases first : ok
  · obtain ⟨ds, hds, iff'⟩ := (next first).copies
    refine ⟨cs ++ ds, by rw [hds, hcs, List.append_assoc], ?_⟩
    rw [List.forall_mem_append, iff, iff']
  · obtain ⟨ds, hds⟩ := more.copies
    refine ⟨cs ++ ds, by rw [hds, hcs, List.append_assoc], ?_⟩
    rw [List.forall_mem_append, iff]
    exact ⟨fun ⟨all, _⟩ => absurd all first, fun ⟨all, _⟩ => absurd all first⟩

theorem effect_advertise (h : Inv s) (m : OrbMetadata) (bytes : List (BitVec 8)) :
    Effect s (s.advertise m bytes) ((s.topicFor m).size ≤ bytes.length) := by
  have data := h.topicFor m
  constructor
  · exact ⟨_, rfl, by simp [Copy.InBounds, data]⟩
  · intro fits
    refine h.put ?_ ?_
    · simp [Broker.advertise]
    · simp only [Broker.advertise, Topic.bump_data, Topic.write_data, Topic.bump_size,
        Topic.write_size]
      rw [length_copy fits (Nat.le_of_eq data.symm), data]

theorem effect_ffiPublish {topic : Topic} (h : Inv s) (ht : s.topics m.oName = some topic)
    (bytes : List (BitVec 8)) : Effect s (s.ffiPublish m bytes) (topic.size ≤ bytes.length) := by
  have data := h.data _ topic ht
  simp only [State.ffiPublish, ht]
  constructor
  · exact ⟨_, rfl, by simp [Copy.InBounds, data]⟩
  · intro fits
    refine h.put ?_ ?_
    · simp [Broker.publish, topicFor_some ht]
    · simp only [Broker.publish, Topic.bump_data, Topic.write_data, Topic.bump_size,
        Topic.write_size]
      rw [length_copy fits (Nat.le_of_eq data.symm), data]

theorem topicFor_advertise (s : State) (m : OrbMetadata) (bytes : List (BitVec 8)) :
    ∃ topic, (s.advertise m bytes).topics m.oName = some topic ∧
      topic.size = (s.topicFor m).size := by
  exact ⟨_, update_self .., by simp [Broker.advertise]⟩

theorem effect_ensureAdvertised (h : Inv s) (i : Nat) (p : Publisher) (bytes : List (BitVec 8)) :
    Effect s (s.ensureAdvertised i p bytes)
      (p.advertised = false → (s.topicFor p.metadata).size ≤ bytes.length) := by
  unfold State.ensureAdvertised
  cases hp : p.advertised with
  | true => exact (h.effect rfl).congr (by simp)
  | false =>
    obtain ⟨copies, inv⟩ := effect_advertise h p.metadata bytes
    obtain ⟨topic, ht, _⟩ := topicFor_advertise s p.metadata bytes
    refine Effect.congr ⟨copies, fun fits => ?_⟩ (by simp)
    exact (inv fits).setPub fun _ => ⟨topic, ht⟩

theorem topics_ensureAdvertised (h : Inv s) (hp : p ∈ s.pubs) (bytes : List (BitVec 8)) :
    ∃ topic, (s.ensureAdvertised i p bytes).topics p.metadata.oName = some topic ∧
      topic.size = (s.topicFor p.metadata).size := by
  unfold State.ensureAdvertised
  cases advertised : p.advertised with
  | true =>
    obtain ⟨topic, ht⟩ := h.handle p hp advertised
    exact ⟨topic, ht, by rw [topicFor_some ht]⟩
  | false => exact topicFor_advertise s p.metadata bytes

theorem grows_advertise (s : State) (m : OrbMetadata) (bytes : List (BitVec 8)) :
    Grows s (s.advertise m bytes) :=
  grows_put (by simp [Broker.advertise]) _

theorem grows_ensureAdvertised (s : State) (i : Nat) (p : Publisher) (bytes : List (BitVec 8)) :
    Grows s (s.ensureAdvertised i p bytes) := by
  unfold State.ensureAdvertised
  split
  · exact grows_refl s
  · obtain ⟨copies, topics⟩ := grows_advertise s p.metadata bytes
    exact ⟨copies, topics⟩

theorem grows_ffiPublish (s : State) (m : OrbMetadata) (bytes : List (BitVec 8)) :
    Grows s (s.ffiPublish m bytes) := by
  cases ht : s.topics m.oName with
  | some topic =>
    simp only [State.ffiPublish, ht]
    exact grows_put (by simp [Broker.publish, topicFor_some ht]) _
  | none =>
    simp only [State.ffiPublish, ht]
    exact grows_refl s

theorem grows_ensureRegistered (s : State) (j : Nat) (v : Subscriber) :
    Grows s (s.ensureRegistered j v).1 := by
  unfold State.ensureRegistered
  split
  · exact grows_refl s
  · obtain ⟨copies, topics⟩ := @grows_put s v.metadata { s.topicFor v.metadata with
      callbacks := (s.topicFor v.metadata).callbacks ++ [j] } rfl []
    exact ⟨copies, topics⟩

theorem grows_update (s : State) (j : Nat) (v : Subscriber) (cb : SubCb) (len : Nat) :
    Grows s (s.update j v cb len).1 := by
  unfold State.update
  split
  · exact grows_refl s
  · split
    · exact grows_refl s
    · exact ⟨⟨_, rfl⟩, (grows_refl s).topics⟩

theorem grows_step {op : Op} (next : step s op = some t) : Grows s t := by
  cases op with
  | newPublication m | newSubscription m =>
    cases next
    exact ⟨⟨[], by simp⟩, (grows_refl s).topics⟩
  | advertiseMulti i bytes requested =>
    obtain ⟨p, _, rfl⟩ := Option.map_eq_some_iff.mp next
    unfold State.advertiseMulti
    split
    · exact grows_refl s
    · exact grows_ensureAdvertised s i p bytes
  | publish i bytes =>
    obtain ⟨p, _, rfl⟩ := Option.map_eq_some_iff.mp next
    unfold State.publish
    split
    · exact grows_refl s
    · exact (grows_ensureAdvertised s i p bytes).trans (grows_ffiPublish _ _ bytes)
  | tryRecv j len =>
    obtain ⟨v, _, rfl⟩ := Option.map_eq_some_iff.mp next
    unfold State.tryRecv
    obtain short | enough := Nat.lt_or_ge len v.metadata.oSize.toNat
    · simp only [short, if_true]
      exact grows_refl s
    · simp only [Nat.not_lt.mpr enough, if_false]
      exact (grows_ensureRegistered s j v).trans (grows_update _ j v _ len)

theorem topic_size_fixed {ops : List Op} {name : String} {a : Topic} (ha : s.topics name = some a)
    (run : Run step Free s ops t) : ∃ b, t.topics name = some b ∧ b.size = a.size := by
  have grows := run.invariant (grows_refl s) fun _ _ _ h _ next => h.trans (grows_step next)
  exact grows.topics name a ha

theorem effect_advertiseMulti (h : Inv s) (i : Nat) (p : Publisher) (bytes : List (BitVec 8))
    (requested : Int) :
    Effect s (s.advertiseMulti i p bytes requested).1
      (p.advertised = false → bytes.length = p.metadata.oSize.toNat →
        Covers s p.metadata bytes.length) := by
  unfold State.advertiseMulti
  split
  · rename_i mismatch
    exact (h.effect rfl).congr (by simp [mismatch])
  · rename_i fits
    have fits : bytes.length = p.metadata.oSize.toNat := by simpa using fits
    refine (effect_ensureAdvertised h i p bytes).congr ?_
    rw [covers_iff (Nat.le_of_eq fits.symm)]
    simp [fits]

theorem effect_publish (h : Inv s) (hp : p ∈ s.pubs) (i : Nat) (bytes : List (BitVec 8)) :
    Effect s (s.publish i p bytes).1
      (bytes.length = p.metadata.oSize.toNat → Covers s p.metadata bytes.length) := by
  unfold State.publish
  split
  · rename_i mismatch
    exact (h.effect rfl).congr (by simp [mismatch])
  · rename_i fits
    have fits : bytes.length = p.metadata.oSize.toNat := by simpa using fits
    have first := effect_ensureAdvertised h i p bytes
    obtain ⟨topic, ht, size⟩ := topics_ensureAdvertised (i := i) h hp bytes
    have both := first.seq (grows_ffiPublish _ p.metadata bytes) fun ok =>
      effect_ffiPublish (first.inv ok) ht bytes
    refine both.congr ?_
    rw [covers_iff (Nat.le_of_eq fits.symm), size]
    constructor
    · intro ⟨_, enough⟩ _
      exact enough
    · intro enough
      exact ⟨fun _ => enough fits, enough fits⟩

theorem ensureRegistered_spec (h : Inv s) (hv : v ∈ s.subs) (j : Nat) :
    Inv (s.ensureRegistered j v).1 ∧ (s.ensureRegistered j v).1.copies = s.copies ∧
      (s.ensureRegistered j v).2.lastSeen = v.cb.elim 0 SubCb.lastSeen ∧
      ∃ topic, (s.ensureRegistered j v).1.topics v.metadata.oName = some topic ∧
        (s.ensureRegistered j v).2.size = topic.size ∧
        topic.size = (s.topicFor v.metadata).size ∧ topic.seq = (s.topicFor v.metadata).seq := by
  unfold State.ensureRegistered
  cases hcb : v.cb with
  | some cb =>
    obtain ⟨topic, ht, size⟩ := h.size v hv cb hcb
    exact ⟨h, rfl, rfl, topic, ht, size, by rw [topicFor_some ht], by rw [topicFor_some ht]⟩
  | none =>
    have put : Inv (s.put v.metadata.oName { s.topicFor v.metadata with
        callbacks := (s.topicFor v.metadata).callbacks ++ [j] } []) :=
      h.put rfl (h.topicFor v.metadata)
    refine ⟨put.setSub ?_, by simp, rfl, _, update_self .., rfl, rfl, rfl⟩
    intro cb same
    obtain rfl : SubCb.new (s.topicFor v.metadata) j = cb := by simpa using same
    exact ⟨_, update_self .., rfl⟩

theorem effect_update {topic : Topic} {cb : SubCb} (h : Inv s)
    (ht : s.topics v.metadata.oName = some topic) (size : cb.size = topic.size) (j len : Nat) :
    Effect s (s.update j v cb len).1 (cb.lastSeen < topic.seq → topic.size ≤ len) := by
  have data := h.data _ topic ht
  unfold State.update SubCb.update SubCb.copyRecord
  simp only [ht]
  by_cases unseen : cb.lastSeen < topic.seq
  · simp only [unseen, if_true, true_implies]
    constructor
    · exact ⟨_, rfl, by simp [Copy.InBounds, data, size]⟩
    · intro _
      refine (h.copied (s.copies ++ [⟨cb.size, topic.data.length, len⟩])).setSub ?_
      intro cb' same
      obtain rfl : cb.stepTo topic.seq = cb' := by simpa using same
      exact ⟨topic, ht, size⟩
  · simp only [unseen, if_false, false_implies]
    exact h.effect rfl

theorem effect_tryRecv (h : Inv s) (hv : v ∈ s.subs) (j len : Nat) :
    Effect s (s.tryRecv j v len).1 (v.metadata.oSize.toNat ≤ len →
      ∀ topic, s.topics v.metadata.oName = some topic → Unseen v topic → topic.size ≤ len) := by
  unfold State.tryRecv
  obtain short | enough := Nat.lt_or_ge len v.metadata.oSize.toNat
  · simp only [short, if_true, Nat.not_le.mpr short, false_implies]
    exact h.effect rfl
  · simp only [Nat.not_lt.mpr enough, if_false, enough, true_implies]
    obtain ⟨inv, copies, lastSeen, topic, ht, cbSize, size, seq⟩ := ensureRegistered_spec h hv j
    obtain ⟨⟨cs, hcs, iff⟩, kept⟩ := effect_update inv ht cbSize j len
    rw [copies] at hcs
    refine Effect.congr ⟨⟨cs, hcs, iff⟩, kept⟩ ?_
    rw [lastSeen, seq, size]
    cases there : s.topics v.metadata.oName with
    | none => simp [State.topicFor, there, Topic.new]
    | some old => simp [topicFor_some there, Unseen]

theorem effect_step {op : Op} (h : Inv s) (next : step s op = some t) :
    Effect s t (LongEnough s op) := by
  cases op with
  | newPublication m =>
    cases next
    refine Inv.effect ⟨h.data, ?_, h.size⟩ rfl
    intro p hp advertised
    obtain hp | rfl : p ∈ s.pubs ∨ p = ⟨m, false⟩ := by simpa using hp
    · exact h.handle p hp advertised
    · simp at advertised
  | newSubscription m =>
    cases next
    refine Inv.effect ⟨h.data, h.handle, ?_⟩ rfl
    intro v hv cb hcb
    obtain hv | rfl : v ∈ s.subs ∨ v = ⟨m, none⟩ := by simpa using hv
    · exact h.size v hv cb hcb
    · simp at hcb
  | advertiseMulti i bytes requested =>
    obtain ⟨p, hp, rfl⟩ := Option.map_eq_some_iff.mp next
    exact (effect_advertiseMulti h i p bytes requested).congr (by simp [LongEnough, hp])
  | publish i bytes =>
    obtain ⟨p, hp, rfl⟩ := Option.map_eq_some_iff.mp next
    have mem := List.mem_of_getElem? hp
    exact (effect_publish h mem i bytes).congr (by simp [LongEnough, hp])
  | tryRecv j len =>
    obtain ⟨v, hv, rfl⟩ := Option.map_eq_some_iff.mp next
    have mem := List.mem_of_getElem? hv
    exact (effect_tryRecv h mem j len).congr (by simp [LongEnough, hv])

theorem InBounds.of_grows (h : InBounds t) (grows : Grows s t) : InBounds s := by
  obtain ⟨cs, hcs⟩ := grows.copies
  intro c hc
  exact h c (by simp [hcs, hc])

/-- In a run all copies stay in bounds if and only if every call passes enough bytes for the
topic's size, which the first metadata of its name has fixed. -/
theorem copies_in_bounds_iff {ops : List Op} (run : Run step Free init ops s) :
    InBounds s ↔ Run step LongEnough init ops s := by
  refine run.past_iff (I := fun s => InBounds s → Inv s) (fun _ => inv_init) ?_ ?_ ?_
  · intro s op t inv next bounds
    have before := bounds.of_grows (grows_step next)
    have effect := effect_step (inv before) next
    exact effect.inv (effect.inBounds_iff.mp bounds).2
  · simp [InBounds, init]
  · intro s op t inv next
    constructor
    · intro bounds
      have before := bounds.of_grows (grows_step next)
      exact (effect_step (inv before) next).inBounds_iff.mp bounds
    · intro ⟨before, enough⟩
      exact (effect_step (inv before) next).inBounds_iff.mpr ⟨before, enough⟩

instance (c : Copy) : Decidable c.InBounds := inferInstanceAs (Decidable (_ ∧ _))

instance (s : State) : Decidable (InBounds s) :=
  inferInstanceAs (Decidable (∀ c ∈ s.copies, c.InBounds))

/-- The metadata of two callers who agree on the name only. -/
def small : OrbMetadata := ⟨"status", 1, 1, 0, 0, 1⟩

def large : OrbMetadata := ⟨"status", 2, 2, 0, 0, 1⟩

/-- A topic of one byte, and a publisher of two. -/
theorem copies_in_bounds_iff_small :
    ∃ s, Run step LongEnough init [.newSubscription small, .newPublication large, .tryRecv 0 1,
      .publish 0 [5, 6], .tryRecv 0 1] s := by
  obtain ⟨s, run, bounds⟩ := exists_run step Free init
    [.newSubscription small, .newPublication large, .tryRecv 0 1, .publish 0 [5, 6], .tryRecv 0 1]
    (fun s => decide (InBounds s)) (by decide)
  exact ⟨s, (copies_in_bounds_iff run).mp (by simpa using bounds)⟩

/-- A topic of two bytes: the broker reads two of a slice of one, and writes two into a
buffer of one. -/
theorem copies_out_of_bounds :
    (∃ s, Run step Free init [.newPublication large, .newPublication small,
      .publish 0 [5, 6], .publish 1 [7]] s ∧ ⟨2, 1, 2⟩ ∈ s.copies ∧ ¬ InBounds s) ∧
    ∃ s, Run step Free init [.newPublication large, .newSubscription small,
      .publish 0 [5, 6], .tryRecv 0 1] s ∧ ⟨2, 2, 1⟩ ∈ s.copies ∧ ¬ InBounds s := by
  constructor
  · obtain ⟨s, run, test⟩ := exists_run step Free init [.newPublication large,
      .newPublication small, .publish 0 [5, 6], .publish 1 [7]]
      (fun s => decide (⟨2, 1, 2⟩ ∈ s.copies ∧ ¬ InBounds s)) (by decide)
    exact ⟨s, run, by simpa using test⟩
  · obtain ⟨s, run, test⟩ := exists_run step Free init [.newPublication large,
      .newSubscription small, .publish 0 [5, 6], .tryRecv 0 1]
      (fun s => decide (⟨2, 2, 1⟩ ∈ s.copies ∧ ¬ InBounds s)) (by decide)
    exact ⟨s, run, by simpa using test⟩

end Px4Rs.BrokerCopies
