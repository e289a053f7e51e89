import Px4Rs.AtomicWaker
import Px4Rs.Broker
import Px4Rs.TaskRule

/-! Tasks of one work queue that publish and subscribe through the host broker. One kind
publishes a batch of messages and yields, again and again; the other awaits `recv` a number of
times and publishes what its body makes of the messages so far. -/
namespace Px4Rs.PubSub
open Px4Rs.Broker Px4Rs.Executor Function
variable {π τ : Type*} [DecidableEq π] [DecidableEq τ]

abbrev Bytes := List (BitVec 8)

/-- The size of each topic's messages, and the topic of each `Publication`. -/
structure Topics (π τ : Type*) where
  size : τ → Nat
  topicOf : π → τ

variable {T : Topics π τ}

/-- A message and the `Publication` it goes through. -/
structure Sample (T : Topics π τ) where
  publication : π
  bytes : Bytes
  sized : bytes.length = T.size (T.topicOf publication)

def Sample.topic (m : Sample T) : τ := T.topicOf m.publication

/-- What has been published on a topic, out of all that has been published. -/
def sentOn (t : τ) (ms : List (Sample T)) : List Bytes :=
  (ms.filter (·.topic = t)).map Sample.bytes

/- The broker, the tasks' subscriptions with their wakers, and what the tasks still have to
   do: the batches of a publisher and the number of receives of a watcher. `got` and `sent`
   are history. -/
structure Data (T : Topics π τ) where
  topic : τ → Topic
  advertised : π → Bool
  cb : Nat → Option SubCb
  waker : Nat → AtomicWaker Nat
  batches : Nat → List (List (Sample T))
  left : Nat → Nat
  got : Nat → List Bytes
  sent : List (Sample T)

def start (batches : Nat → List (List (Sample T))) (n : Nat → Nat) : Data T where
  topic t := Topic.new (T.size t)
  advertised _ := false
  cb _ := none
  waker _ := AtomicWaker.new
  batches := batches
  left := n
  got _ := []
  sent := []

/-- The callbacks of these subscriptions, one after the other: the wakers invoked. -/
def wakeAll (w : Nat → AtomicWaker Nat) : List Nat → (Nat → AtomicWaker Nat) × List Nat
  | [] => (w, [])
  | c :: cs =>
    let r := (w c).wake
    let rest := wakeAll (update w c r.1) cs
    (rest.1, r.2.toList ++ rest.2)

/-- The broker's part of `Publication::publish`, and the callbacks it calls. -/
def publishTo (advertised : Bool) (t : Topic) (msg : Bytes) : Topic × List Nat :=
  let first := if advertised then (t, []) else advertise t msg
  let again := Broker.publish first.1 msg
  (again.1, first.2 ++ again.2)

namespace Data
variable (d : Data T) (i : Nat) (t : τ)

/-- `Publication::publish`, and the wakers invoked. -/
def publish (m : Sample T) : Data T × List Nat :=
  let r := publishTo (d.advertised m.publication) (d.topic m.topic) m.bytes
  let woken := wakeAll d.waker r.2
  ({ d with
      topic := update d.topic m.topic r.1
      advertised := update d.advertised m.publication true
      waker := woken.1
      sent := d.sent ++ [m] }, woken.2)

def publishAll (d : Data T) : List (Sample T) → Data T × List Nat
  | [] => (d, [])
  | m :: ms =>
    let r := d.publish m
    let rest := publishAll r.1 ms
    (rest.1, r.2 ++ rest.2)

def ensureRegistered : Data T :=
  if (d.cb i).isSome then d
  else
    { d with
      topic := update d.topic t { d.topic t with callbacks := (d.topic t).callbacks ++ [i] }
      cb := update d.cb i (some (SubCb.new (d.topic t) i)) }

def tryRecv : Data T × Option Bytes :=
  let d := d.ensureRegistered i t
  match (d.cb i).bind fun cb => cb.update (d.topic t) with
  | some (bytes, cb) => ({ d with cb := update d.cb i (some cb) }, some bytes)
  | none => (d, none)

/-- `Recv::poll`, and the wakers invoked. -/
def recvPoll : Data T × List Nat × Option Bytes :=
  match d.tryRecv i t with
  | (d, some m) => (d, [], some m)
  | (d, none) =>
    let r := (d.waker i).register i
    match { d with waker := update d.waker i r.1 }.tryRecv i t with
    | (d, some m) => (d, r.2.toList, some m)
    | (d, none) => (d, r.2.toList, none)

def drop : Data T :=
  { d with
    topic := if (d.cb i).isSome then
      update d.topic t { d.topic t with callbacks := (d.topic t).callbacks.filter (· ≠ i) }
      else d.topic
    cb := update d.cb i none
    waker := update d.waker i AtomicWaker.new }

def deliver (m : Bytes) (n : Nat) : Data T :=
  { d with got := update d.got i (d.got i ++ [m]), left := update d.left i n }

/-- `for _ in 0..n { let m = sub.recv().await; .. }` from one Pending to the next, and the end
of the task after it. -/
def watch (react : Nat → List Bytes → List (Sample T)) (d : Data T) (i : Nat) (t : τ) :
    Nat → Data T × List Nat
  | 0 => (d.drop i t, [])
  | n + 1 =>
    match d.recvPoll i t with
    | (d, woken, none) => (d, woken)
    | (d, woken, some m) =>
      let d := d.deliver i m n
      let out := d.publishAll (react i (d.got i))
      let rest := watch react out.1 i t n
      (rest.1, woken ++ out.2 ++ rest.2)

end Data

inductive Role (τ : Type*) where
  | publisher
  | watcher (t : τ)
deriving DecidableEq

def poll (role : Nat → Role τ) (react : Nat → List Bytes → List (Sample T)) (i : Nat)
    (d : Data T) : Polled (Data T) Nat :=
  match role i with
  | .publisher =>
    match d.batches i with
    | [] => ⟨d, [], true⟩
    | ms :: rest =>
      -- up to the `yield_now().await` behind the batch
      let r := { d with batches := update d.batches i rest }.publishAll ms
      ⟨r.1, r.2 ++ [i], false⟩
  | .watcher t =>
    let r := d.watch react i t (d.left i)
    ⟨r.1, r.2, r.1.left i = 0⟩

variable {role : Nat → Role τ} {react : Nat → List Bytes → List (Sample T)} {d d' m : Data T}
  {i j : Nat} {t : τ} {woken : List Nat}

omit [DecidableEq π] in
theorem sentOn_append (ms ms' : List (Sample T)) :
    sentOn t (ms ++ ms') = sentOn t ms ++ sentOn t ms' := by
  simp [sentOn]

omit [DecidableEq π] in
@[simp] theorem sentOn_nil : sentOn t ([] : List (Sample T)) = [] := rfl

omit [DecidableEq π] in
theorem sentOn_snoc_of_eq {ms : List (Sample T)} {x : Sample T} (h : x.topic = t) :
    sentOn t (ms ++ [x]) = sentOn t ms ++ [x.bytes] := by
  simp [sentOn, h]

omit [DecidableEq π] in
theorem sentOn_snoc_of_ne {ms : List (Sample T)} {x : Sample T} (h : x.topic ≠ t) :
    sentOn t (ms ++ [x]) = sentOn t ms := by
  simp [sentOn, h]

theorem wakeAll_spec {w : Nat → AtomicWaker Nat} (waiting : ∀ i, (w i).state = AtomicWaker.waiting)
    (cs : List Nat) : (∀ i, ((wakeAll w cs).1 i).state = AtomicWaker.waiting) ∧
      (∀ i, ((wakeAll w cs).1 i).waker = if i ∈ cs then none else (w i).waker) ∧
      ∀ j, j ∈ (wakeAll w cs).2 ↔ ∃ i ∈ cs, (w i).waker = some j := by
  induction cs generalizing w with
  | nil => exact ⟨waiting, by simp [wakeAll], by simp [wakeAll]⟩
  | cons c cs ih =>
    have taken := AtomicWaker.wake_of_waiting (waiting c)
    have still (i : Nat) : (update w c (w c).wake.1 i).state = AtomicWaker.waiting := by
      by_cases hi : i = c
      · subst hi
        simp [taken]
      · simp [update_of_ne hi, waiting i]
    obtain ⟨after, slots, invoked⟩ := ih still
    refine ⟨after, fun i => ?_, fun j => ?_⟩
    · simp only [wakeAll, slots, List.mem_cons]
      by_cases hi : i = c
      · simp [hi, taken]
      · simp [hi]
    · simp only [wakeAll, List.mem_append, invoked, List.mem_cons, Option.mem_toList]
      rw [taken]
      constructor
      · rintro (first | ⟨i, mem, later⟩)
        · exact ⟨c, .inl rfl, first⟩
        · by_cases hi : i = c
          · subst hi
            simp at later
          · exact ⟨i, .inr mem, by simpa [update_of_ne hi] using later⟩
      · rintro ⟨i, rfl | mem, slot⟩
        · exact .inl slot
        · by_cases hi : i = c
          · exact .inl (hi ▸ slot)
          · exact .inr ⟨i, mem, by simpa [update_of_ne hi] using slot⟩

theorem publishTo_spec {x : Topic} {msg : Bytes} (hx : x.data.length = x.size)
    (hm : msg.length = x.size) (advertised : Bool) :
    (publishTo advertised x msg).1.size = x.size ∧
      (publishTo advertised x msg).1.data = msg ∧
      (publishTo advertised x msg).1.callbacks = x.callbacks ∧
      x.seq < (publishTo advertised x msg).1.seq ∧
      ∀ c, c ∈ (publishTo advertised x msg).2 ↔ c ∈ x.callbacks := by
  cases advertised with
  | false =>
    have later : x.seq < x.seq + 1 + 1 := by omega
    refine ⟨?_, ?_, ?_, later, ?_⟩ <;>
      simp [publishTo, advertise, Broker.publish, copy, hx, ← hm, Topic.notify]
  | true => simp [publishTo, Broker.publish, copy, hx, ← hm, Topic.notify]

/-! What the broker and the subscriptions know of each other. -/

/-- The last `seq` that the task's subscription has seen. -/
def Data.lastSeen (d : Data T) (i : Nat) : Nat := ((d.cb i).map SubCb.lastSeen).getD 0

/-- The topic has moved on since. -/
def Data.behind (d : Data T) (i : Nat) (t : τ) : Prop := d.lastSeen i < (d.topic t).seq

/- A watcher's callback is in its topic's list from `ensure_registered` to the drop, its
   waker is in its own slot, and not while there is a message for it. -/
structure Wired (role : Nat → Role τ) (d : Data T) : Prop where
  size : ∀ t, (d.topic t).size = T.size t
  data : ∀ t, (d.topic t).data.length = T.size t
  waiting : ∀ i, (d.waker i).state = AtomicWaker.waiting
  listed : ∀ i t, i ∈ (d.topic t).callbacks ↔ role i = .watcher t ∧ d.cb i ≠ none
  copies : ∀ i t cb, role i = .watcher t → d.cb i = some cb → cb.size = T.size t
  seen : ∀ i t, role i = .watcher t → d.lastSeen i ≤ (d.topic t).seq
  slot : ∀ i j, (d.waker i).waker = some j → j = i ∧
    ∃ t, role i = .watcher t ∧ d.cb i ≠ none ∧ ¬ d.behind i t
  last : ∀ t, 0 < (d.topic t).seq → ∃ before, sentOn t d.sent = before ++ [(d.topic t).data]
  unsent : ∀ t, (d.topic t).seq = 0 → sentOn t d.sent = []

omit [DecidableEq π] in
theorem wired_start (batches : Nat → List (List (Sample T))) (n : Nat → Nat) :
    Wired role (start batches n) := by
  constructor <;> simp [start, Topic.new, AtomicWaker.new, Data.lastSeen]

theorem Wired.publish (h : Wired role d) (x : Sample T) :
    Wired role (d.publish x).1 ∧
      (∀ j, ((d.publish x).1.waker j).waker =
        if role j = .watcher x.topic ∧ d.cb j ≠ none then none else (d.waker j).waker) ∧
      (∀ j, j ∈ (d.publish x).2 ↔ (d.waker j).waker = some j ∧ role j = .watcher x.topic) ∧
      (d.topic x.topic).seq < ((d.publish x).1.topic x.topic).seq := by
  obtain ⟨size, data, callbacks, seq, called⟩ := publishTo_spec
    (show (d.topic x.topic).data.length = (d.topic x.topic).size by rw [h.size, h.data])
    (show x.bytes.length = (d.topic x.topic).size by rw [h.size]; exact x.sized)
    (d.advertised x.publication)
  obtain ⟨waiting, slots, invoked⟩ := wakeAll_spec h.waiting
    (publishTo (d.advertised x.publication) (d.topic x.topic) x.bytes).2
  have slot (j : Nat) : ((d.publish x).1.waker j).waker =
      if role j = .watcher x.topic ∧ d.cb j ≠ none then none else (d.waker j).waker := by
    simp only [Data.publish, slots, called, h.listed]
  have topic (t : τ) (ht : t ≠ x.topic) : (d.publish x).1.topic t = d.topic t :=
    update_of_ne ht _ _
  have here : (d.publish x).1.topic x.topic =
      (publishTo (d.advertised x.publication) (d.topic x.topic) x.bytes).1 := update_self ..
  rw [← here] at size data callbacks seq
  refine ⟨⟨fun t => ?_, fun t => ?_, waiting, fun j t => ?_, h.copies, fun j t hj => ?_,
    fun j k hk => ?_, fun t ht => ?_, fun t ht => ?_⟩, slot, fun j => ?_, seq⟩
  · by_cases ht : t = x.topic
    · rw [ht, size, h.size]
    · rw [topic t ht, h.size]
  · by_cases ht : t = x.topic
    · rw [ht, data]
      exact x.sized
    · rw [topic t ht, h.data]
  · by_cases ht : t = x.topic
    · rw [ht, callbacks]
      exact h.listed j _
    · rw [topic t ht]
      exact h.listed j t
  · have seen := h.seen j t hj
    by_cases ht : t = x.topic
    · subst ht
      exact Nat.le_trans seen (Nat.le_of_lt seq)
    · rw [topic t ht]
      exact seen
  · rw [slot] at hk
    split at hk
    · cases hk
    · rename_i elsewhere
      obtain ⟨rfl, t, hj, hcb, current⟩ := h.slot j k hk
      have ht : t ≠ x.topic := fun same => elsewhere ⟨same ▸ hj, hcb⟩
      refine ⟨rfl, t, hj, hcb, ?_⟩
      rw [Data.behind, topic t ht]
      exact current
  · by_cases hx : x.topic = t
    · subst hx
      exact ⟨_, by rw [data]; exact sentOn_snoc_of_eq rfl⟩
    · rw [topic t (Ne.symm hx)] at ht ⊢
      obtain ⟨before, all⟩ := h.last t ht
      exact ⟨before, (sentOn_snoc_of_ne hx).trans all⟩
  · by_cases hx : x.topic = t
    · subst hx
      omega
    · rw [topic t (Ne.symm hx)] at ht
      exact (sentOn_snoc_of_ne hx).trans (h.unsent t ht)
  · change j ∈ (wakeAll d.waker _).2 ↔ _
    rw [invoked]
    constructor
    · rintro ⟨k, mem, hk⟩
      rw [called, h.listed] at mem
      obtain ⟨rfl, _⟩ := h.slot k j hk
      exact ⟨hk, mem.1⟩
    · rintro ⟨hj, watches⟩
      obtain ⟨_, t, _, hcb, _⟩ := h.slot j j hj
      exact ⟨j, by rw [called, h.listed]; exact ⟨watches, hcb⟩, hj⟩

/- Some messages have been published, and the wakers of parked watchers invoked. -/
structure Published (role : Nat → Role τ) (d : Data T) (ms : List (Sample T))
    (r : Data T × List Nat) : Prop where
  wired : Wired role r.1
  cb : r.1.cb = d.cb
  left : r.1.left = d.left
  batches : r.1.batches = d.batches
  got : r.1.got = d.got
  sent : r.1.sent = d.sent ++ ms
  slot : ∀ j, (r.1.waker j).waker = if j ∈ r.2 then none else (d.waker j).waker
  woken : ∀ j ∈ r.2, (d.waker j).waker = some j ∧ ∃ x ∈ ms, role j = .watcher x.topic
  topic : ∀ t, (∀ x ∈ ms, x.topic ≠ t) → r.1.topic t = d.topic t

theorem Wired.publishAll (h : Wired role d) (ms : List (Sample T)) :
    Published role d ms (d.publishAll ms) := by
  induction ms generalizing d with
  | nil => exact ⟨h, rfl, rfl, rfl, rfl, by simp [Data.publishAll], by simp [Data.publishAll],
      by simp [Data.publishAll], fun _ _ => rfl⟩
  | cons x ms ih =>
    obtain ⟨wired, slot, woken, _⟩ := h.publish x
    have rest := ih wired
    refine ⟨rest.wired, rest.cb, rest.left, rest.batches, rest.got, ?_, fun j => ?_,
      fun j hj => ?_, fun t ht => ?_⟩
    · rw [Data.publishAll, rest.sent]
      exact List.append_assoc d.sent [x] ms
    · simp only [Data.publishAll, rest.slot, slot, List.mem_append]
      by_cases later : j ∈ ((d.publish x).1.publishAll ms).2
      · simp [later]
      by_cases now : j ∈ (d.publish x).2
      · obtain ⟨hj, watches⟩ := (woken j).mp now
        obtain ⟨_, _, _, hcb, _⟩ := h.slot j j hj
        simp [later, now, watches, hcb]
      · simp only [later, now, or_self, if_false]
        split
        · -- its slot was empty
          rename_i watches
          cases hs : (d.waker j).waker with
          | none => rfl
          | some k =>
            obtain ⟨rfl, _⟩ := h.slot j k hs
            exact absurd ((woken k).mpr ⟨hs, watches.1⟩) now
        · rfl
    · simp only [Data.publishAll, List.mem_append] at hj
      obtain now | later := hj
      · obtain ⟨hs, watches⟩ := (woken j).mp now
        exact ⟨hs, x, by simp, watches⟩
      · obtain ⟨hs, y, hy, watches⟩ := rest.woken j later
        rw [slot] at hs
        split at hs
        · cases hs
        · exact ⟨hs, y, by simp [hy], watches⟩
    · rw [Data.publishAll, rest.topic t fun y hy => ht y (by simp [hy])]
      exact update_of_ne (Ne.symm (ht x (by simp))) _ _

/-- What holds through every publish holds at the end of many. -/
theorem publishAll_induction {J : Data T → Prop} {ms : List (Sample T)} (h : Wired role d)
    (start : J d) (keep : ∀ d, ∀ x ∈ ms, Wired role d → J d → J (d.publish x).1) :
    J (d.publishAll ms).1 := by
  induction ms generalizing d with
  | nil => exact start
  | cons x ms ih =>
    exact ih (h.publish x).1 (keep d x (by simp) h start)
      fun d y hy => keep d y (by simp [hy])

end Px4Rs.PubSub
