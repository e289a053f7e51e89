import Px4Rs.ChannelPolls
import Px4Rs.Executor

/-! Two tasks joined by a channel: one sends a list of values with `send(v).await` and
ends, the other makes a number of `recv().await` and ends. Whatever the capacity and the
moments at which the two are spawned, the dispatcher comes to rest, and then all that can
be received has been. -/
namespace Px4Rs.Pipe
open Px4Rs.Runs Px4Rs.Executor Px4Rs.Channel Function
open Px4Rs.TaskCell (isSpawned isQueued spawned runQueued)
variable {w N : Nat} [NeZero N] {T : Type*}

inductive Side where
  | producer | consumer
deriving DecidableEq

/- What the two futures hold and share; `got` is what was received, slot by slot. -/
structure Data (w N : Nat) (T : Type*) where
  chan : Channel w N T Side
  toSend : List T
  toRecv : Nat
  got : List (Option T)

def poll : Side → Data w N T → Polled (Data w N T) Side
  | .producer, d =>
    let x := d.chan.sendLoop .producer d.toSend
    ⟨{ d with chan := x.1, toSend := x.2.2 }, x.2.1, x.2.2.isEmpty⟩
  | .consumer, d =>
    let x := d.chan.recvLoop .consumer d.toRecv
    ⟨{ d with chan := x.1, toRecv := x.2.2.1, got := d.got ++ x.2.2.2 }, x.2.1, x.2.2.1 = 0⟩

/-- Neither task is spawned yet: one will send `vs`, the other receive `n` times. -/
def start (vs : List T) (n : Nat) : State Side (Data w N T) :=
  Executor.init ⟨Channel.new, vs, n, []⟩

/-- Each of the two tasks is spawned once. -/
def Once {σ : Type*} (s : State Side σ) : Act Side → Prop
  | .spawn i => s.accepted i = 0
  | .run => True

instance {σ : Type*} (s : State Side σ) (a : Act Side) : Decidable (Once s a) :=
  match a with
  | .spawn i => inferInstanceAs (Decidable (s.accepted i = 0))
  | .run => inferInstanceAs (Decidable True)

/- `items` are in the channel. A task that is spawned and not queued is parked: the
   producer in front of a full channel, the consumer in front of an empty one, each with its
   waker where the other will find it. -/
structure Inv (vs : List T) (n : Nat) (items : List T) (s : State Side (Data w N T)) : Prop where
  carries : Carries s.data.chan s.data.got.length items
  all : s.data.got ++ items.map some ++ s.data.toSend.map some = vs.map some
  count : s.data.got.length + s.data.toRecv = n
  queued : Queued s
  once : ∀ i, s.accepted i ≤ 1
  fresh : ∀ i, s.accepted i = 0 → s.word i = 0#8
  polled : ∀ i ∈ s.polls, s.accepted i = 1
  recvWaker : ∀ i, s.data.chan.recvWaker.waker = some i → i = .consumer ∧ i ∈ s.polls
  sendWaker : ∀ i, s.data.chan.sendWaker.waker = some i → i = .producer ∧ i ∈ s.polls
  producer : isSpawned (s.word .producer) = true → isQueued (s.word .producer) = false →
    s.data.toSend ≠ [] ∧ items.length = N ∧ s.data.chan.sendWaker.waker = some .producer
  consumer : isSpawned (s.word .consumer) = true → isQueued (s.word .consumer) = false →
    s.data.toRecv ≠ 0 ∧ items = [] ∧ s.data.chan.recvWaker.waker = some .consumer
  sent : s.accepted .producer = 1 → isSpawned (s.word .producer) = false → s.data.toSend = []
  received : s.accepted .consumer = 1 → isSpawned (s.word .consumer) = false →
    s.data.toRecv = 0

variable {vs : List T} {n : Nat} {items : List T} {s t : State Side (Data w N T)}

theorem inv_start : Inv vs n [] (start vs n : State Side (Data w N T)) where
  carries := carries_new
  all := rfl
  count := Nat.zero_add n
  queued := fun i => by simp [start, Executor.init]
  once := fun _ => Nat.zero_le 1
  fresh := fun _ _ => rfl
  polled := by simp [start, Executor.init]
  recvWaker := by simp [start, Executor.init, Channel.new, AtomicWaker.new]
  sendWaker := by simp [start, Executor.init, Channel.new, AtomicWaker.new]
  producer := by simp [start, Executor.init]
  consumer := by simp [start, Executor.init]
  sent := by simp [start, Executor.init]
  received := by simp [start, Executor.init]

theorem spawn_of_fresh {i : Side} (h : Inv vs n items s) (once : s.accepted i = 0) :
    s.spawn i = { s with
      word := update s.word i (spawned ||| runQueued)
      fifo := s.fifo ++ [i]
      accepted := update s.accepted i 1 } := by
  rw [State.spawn, if_pos (h.fresh i once), once]

theorem Inv.spawn {i : Side} (h : Inv vs n items s) (once : s.accepted i = 0) :
    Inv vs n items (s.spawn i) := by
  have word := h.fresh i once
  rw [spawn_of_fresh h once]
  refine ⟨h.carries, h.all, h.count, fun j => ?_, fun j => ?_, fun j hj => ?_, fun j hj => ?_,
    h.recvWaker, h.sendWaker, fun hs hq => ?_, fun hs hq => ?_, fun ha hs => ?_, fun ha hs => ?_⟩
  · have hj := h.queued j
    by_cases hji : j = i
    · subst hji
      simpa [word] using hj
    · simpa [update_of_ne hji, Ne.symm hji] using hj
  · by_cases hji : j = i
    · simp [hji]
    · simpa [update_of_ne hji] using h.once j
  · by_cases hji : j = i
    · simp [hji] at hj
    · simp only [update_of_ne hji] at hj ⊢
      exact h.fresh j hj
  · by_cases hji : j = i
    · simp [hji]
    · simpa [update_of_ne hji] using h.polled j hj
  · by_cases hi : Side.producer = i
    · simp [hi] at hq
    · simp only [update_of_ne hi] at hs hq
      exact h.producer hs hq
  · by_cases hi : Side.consumer = i
    · simp [hi] at hq
    · simp only [update_of_ne hi] at hs hq
      exact h.consumer hs hq
  · by_cases hi : Side.producer = i
    · simp [hi] at hs
    · simp only [update_of_ne hi] at ha hs
      exact h.sent ha hs
  · by_cases hi : Side.consumer = i
    · simp [hi] at hs
    · simp only [update_of_ne hi] at ha hs
      exact h.received ha hs

theorem Inv.tasks {i : Side} {p : Polled (Data w N T) Side} (h : Inv vs n items s)
    (live : isSpawned (s.word i) = true) (ran : Ran s i p t)
    (woken : ∀ j ∈ p.woken, j ∈ s.polls) :
    (∀ j, t.accepted j ≤ 1) ∧ (∀ j, t.accepted j = 0 → t.word j = 0#8) ∧
      ∀ j ∈ t.polls, t.accepted j = 1 := by
  have given : s.accepted i = 1 := by
    have := h.once i
    by_contra ha
    rw [h.fresh i (by omega)] at live
    cases live
  rw [ran.accepted, ran.polls]
  refine ⟨h.once, fun j hj => ?_, fun j hj => ?_⟩
  · have hji : j ≠ i := by
      rintro rfl
      omega
    have hm : j ∉ p.woken := by
      intro hm
      have := h.polled j (woken j hm)
      omega
    rw [ran.others j hji hm, h.fresh j hj]
  · obtain hj | hj := List.mem_append.mp hj
    · exact h.polled j hj
    · rw [List.mem_singleton.mp hj, given]

theorem Inv.total (h : Inv vs n items s) :
    s.data.got.length + items.length + s.data.toSend.length = vs.length := by
  have := congrArg List.length h.all
  simpa [Nat.add_assoc] using this

theorem Inv.loop (h : Inv vs n items s) (hN : N < 2 ^ w) (fits : Fits w N vs.length) :
    ∃ sent, s.data.toSend = sent ++ (s.data.chan.sendLoop .producer s.data.toSend).2.2 ∧
      SendLoop .producer s.data.chan s.data.got.length items sent
        (s.data.chan.sendLoop .producer s.data.toSend) :=
  h.carries.sendLoop _ hN (h.total ▸ fits)

/-- A poll invokes at most the other task's waker, and none if it made no progress. -/
theorem woken_by_send {me : Side} {c : Channel w N T Side} {r : Nat} {sent : List T}
    {x : Channel w N T Side × List Side × List T} (loop : SendLoop me c r items sent x) (j : Side)
    (hj : j ∈ x.2.1) : sent ≠ [] ∧ c.recvWaker.waker = some j := by
  by_cases hs : sent = []
  · rw [(loop.idle hs).1] at hj
    cases hj
  · rw [(loop.woken hs).1] at hj
    exact ⟨hs, by simpa using hj⟩

theorem woken_by_recv {me : Side} {c : Channel w N T Side} {r : Nat} {taken left : List T}
    {x : Channel w N T Side × List Side × Nat × List (Option T)}
    (loop : RecvLoop me c r taken left x) (j : Side) (hj : j ∈ x.2.1) :
    taken ≠ [] ∧ c.sendWaker.waker = some j := by
  by_cases hs : taken = []
  · rw [(loop.idle hs).1] at hj
    cases hj
  · rw [(loop.woken hs).1] at hj
    exact ⟨hs, by simpa using hj⟩

theorem Inv.woken (h : Inv vs n items s) (hN : N < 2 ^ w) (fits : Fits w N vs.length)
    (i j : Side) (hj : j ∈ (poll i s.data).woken) : j ≠ i ∧ j ∈ s.polls := by
  cases i with
  | producer =>
    obtain ⟨sent, _, loop⟩ := h.loop hN fits
    obtain ⟨rfl, given⟩ := h.recvWaker j (woken_by_send loop j hj).2
    exact ⟨by simp, given⟩
  | consumer =>
    obtain ⟨taken, left, _, _, loop⟩ := h.carries.recvLoop .consumer hN
      (n := s.data.toRecv)
    obtain ⟨rfl, given⟩ := h.sendWaker j (woken_by_recv loop j hj).2
    exact ⟨by simp, given⟩

theorem Inv.run_producer (h : Inv vs n items s) (hN : N < 2 ^ w) (fits : Fits w N vs.length)
    (live : isSpawned (s.word .producer) = true) (ran : Ran s .producer (poll .producer s.data) t) :
    ∃ sent, Inv vs n (items ++ sent) t ∧ s.data.toSend.length = sent.length + t.data.toSend.length ∧
      t.data.toRecv = s.data.toRecv ∧ (poll .producer s.data).woken.length ≤ sent.length := by
  obtain ⟨sent, all, loop⟩ := h.loop hN fits
  obtain ⟨once, fresh, polled⟩ := h.tasks live ran fun j hj => (h.woken hN fits _ j hj).2
  have data : t.data = { s.data with
    chan := (s.data.chan.sendLoop .producer s.data.toSend).1
    toSend := (s.data.chan.sendLoop .producer s.data.toSend).2.2 } := ran.data
  refine ⟨sent, ⟨?_, ?_, ?_, ran.queued, once, fresh, polled, ?_, ?_, fun hs _ => ?_,
    fun hs hq => ?_, fun _ hs => ?_, fun ha hs => ?_⟩, ?_, ?_, ?_⟩
  · simpa [data] using loop.carries
  · rw [data, ← h.all]
    conv_rhs => rw [all]
    simp
  · rw [data, ← h.count]
  · rw [data, ran.polls]
    intro i hi
    by_cases hs : sent = []
    · obtain ⟨rfl, given⟩ := h.recvWaker i ((loop.idle hs).2 ▸ hi)
      exact ⟨rfl, by simp [given]⟩
    · simp [(loop.woken hs).2] at hi
  · rw [data, ran.polls]
    intro i hi
    by_cases hd : (s.data.chan.sendLoop .producer s.data.toSend).2.2 = []
    · obtain ⟨rfl, given⟩ := h.sendWaker i (loop.done hd ▸ hi)
      exact ⟨rfl, by simp [given]⟩
    · rw [(loop.parked hd).2] at hi
      cases hi
      simp
  · have hd : (s.data.chan.sendLoop .producer s.data.toSend).2.2 ≠ [] := by
      simpa [ran.live, poll] using hs
    obtain ⟨full, parked⟩ := loop.parked hd
    rw [data]
    exact ⟨hd, by simpa using full, parked⟩
  · -- the consumer is parked: it was before, and nothing was sent past it
    have woken := ran.woken .consumer (by simp)
    rw [ran.spawned .consumer (by simp)] at hs
    have asleep : isQueued (s.word .consumer) = false ∧
        Side.consumer ∉ (poll .producer s.data).woken := by
      simpa [hq] using woken
    obtain ⟨more, empty, parked⟩ := h.consumer hs asleep.1
    have none_sent : sent = [] := by
      by_contra hne
      apply asleep.2
      change Side.consumer ∈ (s.data.chan.sendLoop .producer s.data.toSend).2.1
      rw [(loop.woken hne).1, parked]
      simp
    rw [data]
    exact ⟨more, by rw [empty, none_sent]; rfl, by rw [(loop.idle none_sent).2, parked]⟩
  · rw [data]
    simpa [ran.live, poll] using hs
  · rw [data]
    rw [ran.accepted] at ha
    rw [ran.spawned .consumer (by simp)] at hs
    exact h.received ha hs
  · rw [data]
    conv_lhs => rw [all]
    exact List.length_append
  · rw [data]
  · change (s.data.chan.sendLoop .producer s.data.toSend).2.1.length ≤ sent.length
    by_cases hs : sent = []
    · simp [(loop.idle hs).1]
    · have := List.length_pos_iff.mpr hs
      rw [(loop.woken hs).1]
      cases s.data.chan.recvWaker.waker <;> simp
      omega

theorem Inv.run_consumer (h : Inv vs n items s) (hN : N < 2 ^ w) (fits : Fits w N vs.length)
    (live : isSpawned (s.word .consumer) = true) (ran : Ran s .consumer (poll .consumer s.data) t) :
    ∃ taken left, items = taken ++ left ∧ Inv vs n left t ∧ t.data.toSend = s.data.toSend ∧
      s.data.toRecv = taken.length + t.data.toRecv ∧
      (poll .consumer s.data).woken.length ≤ taken.length := by
  obtain ⟨taken, left, all, count, loop⟩ := h.carries.recvLoop .consumer hN
    (n := s.data.toRecv)
  obtain ⟨once, fresh, polled⟩ := h.tasks live ran fun j hj => (h.woken hN fits _ j hj).2
  have data : t.data = { s.data with
    chan := (s.data.chan.recvLoop .consumer s.data.toRecv).1
    toRecv := (s.data.chan.recvLoop .consumer s.data.toRecv).2.2.1
    got := s.data.got ++ taken.map some } := by
    rw [← loop.got]
    exact ran.data
  refine ⟨taken, left, all, ⟨?_, ?_, ?_, ran.queued, once, fresh, polled, ?_, ?_,
    fun hs hq => ?_, fun hs _ => ?_, fun ha hs => ?_, fun _ hs => ?_⟩, ?_, ?_, ?_⟩
  · simpa [data] using loop.carries
  · rw [data, ← h.all, all]
    simp
  · rw [data, ← h.count]
    simp only [List.length_append, List.length_map]
    omega
  · rw [data, ran.polls]
    intro i hi
    by_cases hd : (s.data.chan.recvLoop .consumer s.data.toRecv).2.2.1 = 0
    · obtain ⟨rfl, given⟩ := h.recvWaker i (loop.done hd ▸ hi)
      exact ⟨rfl, by simp [given]⟩
    · rw [(loop.parked hd).2] at hi
      cases hi
      simp
  · rw [data, ran.polls]
    intro i hi
    by_cases hs : taken = []
    · obtain ⟨rfl, given⟩ := h.sendWaker i ((loop.idle hs).2 ▸ hi)
      exact ⟨rfl, by simp [given]⟩
    · simp [(loop.woken hs).2] at hi
  · -- the producer is parked: it was before, and nothing was taken in front of it
    have woken := ran.woken .producer (by simp)
    rw [ran.spawned .producer (by simp)] at hs
    have asleep : isQueued (s.word .producer) = false ∧
        Side.producer ∉ (poll .consumer s.data).woken := by
      simpa [hq] using woken
    obtain ⟨more, full, parked⟩ := h.producer hs asleep.1
    have none_taken : taken = [] := by
      by_contra hne
      apply asleep.2
      change Side.producer ∈ (s.data.chan.recvLoop .consumer s.data.toRecv).2.1
      rw [(loop.woken hne).1, parked]
      simp
    rw [data]
    rw [all, none_taken] at full
    exact ⟨more, full, by rw [(loop.idle none_taken).2, parked]⟩
  · have hd : (s.data.chan.recvLoop .consumer s.data.toRecv).2.2.1 ≠ 0 := by
      simpa [ran.live, poll] using hs
    obtain ⟨empty, parked⟩ := loop.parked hd
    rw [data]
    exact ⟨hd, empty, parked⟩
  · rw [data]
    rw [ran.accepted] at ha
    rw [ran.spawned .producer (by simp)] at hs
    exact h.sent ha hs
  · rw [data]
    simpa [ran.live, poll] using hs
  · rw [data]
  · rw [data]
    exact count
  · change (s.data.chan.recvLoop .consumer s.data.toRecv).2.1.length ≤ taken.length
    by_cases hs : taken = []
    · simp [(loop.idle hs).1]
    · have := List.length_pos_iff.mpr hs
      rw [(loop.woken hs).1]
      cases s.data.chan.sendWaker.waker <;> simp
      omega

def budget (s : State Side (Data w N T)) : Nat :=
  2 * (s.data.toSend.length + s.data.toRecv) + s.fifo.length +
    ((1 - s.accepted .producer) + (1 - s.accepted .consumer))

theorem inv_step {a : Act Side} (h : Inv vs n items s) (hN : N < 2 ^ w)
    (fits : Fits w N vs.length) (once : Once s a) (next : step poll s a = some t) :
    ∃ items', Inv vs n items' t ∧ budget t + (if a = .run then 1 else 0) ≤ budget s := by
  cases a with
  | spawn i =>
    cases next
    refine ⟨items, h.spawn once, ?_⟩
    have word := h.fresh i once
    rw [spawn_of_fresh h once]
    cases i <;> simp [budget, Once] at once ⊢ <;> omega
  | run =>
    obtain ⟨i, live, _, ran⟩ := h.queued.run next
      fun i _ _ hi => (h.woken hN fits i i hi).1 rfl
    have length := ran.length
    cases i with
    | producer =>
      obtain ⟨sent, inv, count, same, woken⟩ := h.run_producer hN fits live ran
      refine ⟨_, inv, ?_⟩
      simp only [budget, same, ran.accepted, if_true]
      omega
    | consumer =>
      obtain ⟨taken, left, _, inv, same, count, woken⟩ := h.run_consumer hN fits live ran
      refine ⟨_, inv, ?_⟩
      simp only [budget, same, ran.accepted, if_true]
      omega

section Run
variable {as : List (Act Side)}

theorem inv_run (hN : N < 2 ^ w) (fits : Fits w N vs.length)
    (run : Run (step poll) Once (start vs n : State Side (Data w N T)) as s) :
    ∃ items, Inv vs n items s ∧ as.count .run + budget s ≤ 2 * (vs.length + n) + 2 := by
  induction run with
  | nil => exact ⟨[], inv_start, by simp [budget, start, Executor.init]⟩
  | @snoc as a s t run once next ih =>
    obtain ⟨items, inv, bound⟩ := ih
    obtain ⟨items', inv', less⟩ := inv_step inv hN fits once next
    refine ⟨items', inv', ?_⟩
    rw [List.count_append, List.count_singleton]
    cases a <;> simp at less ⊢ <;> omega

theorem given_run (hN : N < 2 ^ w) (fits : Fits w N vs.length)
    (run : Run (step poll) Once (start vs n : State Side (Data w N T)) as s) :
    Run (step poll) (Given poll) (start vs n) as s := by
  induction run with
  | nil => exact .nil
  | @snoc as a s t run once next ih =>
    refine ih.snoc ?_ next
    obtain ⟨items, inv, _⟩ := inv_run hN fits run
    cases a with
    | spawn => trivial
    | run => exact fun i _ j hj => .inr (inv.woken hN fits i j hj).2

theorem Inv.rest (h : Inv vs n items s) (p : s.accepted .producer = 1)
    (c : s.accepted .consumer = 1) (quiet : s.fifo = []) :
    s.data.got = (vs.take n).map some ∧ s.data.toSend = vs.drop (n + N) ∧
      (isSpawned (s.word .producer) = true ↔ n + N < vs.length) ∧
      (isSpawned (s.word .consumer) = true ↔ vs.length < n) := by
  have unqueued (i : Side) (hs : isSpawned (s.word i) = true) : isQueued (s.word i) = false := by
    have := h.queued i
    rw [quiet] at this
    simpa [hs] using this
  have total := h.total
  have count := h.count
  have bounded := h.carries.bounded
  have pos : 0 < N := Nat.pos_of_neZero N
  have lens : s.data.got.length = min n vs.length ∧
      s.data.toSend.length = vs.length - (n + N) ∧
      (isSpawned (s.word .producer) = true ↔ n + N < vs.length) ∧
      (isSpawned (s.word .consumer) = true ↔ vs.length < n) := by
    cases hp : isSpawned (s.word .producer) with
    | true =>
      obtain ⟨more, full, _⟩ := h.producer hp (unqueued _ hp)
      have := List.length_pos_iff.mpr more
      cases hc : isSpawned (s.word .consumer) with
      | true =>
        obtain ⟨_, empty, _⟩ := h.consumer hc (unqueued _ hc)
        rw [empty, List.length_nil] at full
        omega
      | false =>
        have := h.received c hc
        simp only [true_iff, Bool.false_eq_true, false_iff]
        omega
    | false =>
      have sent := h.sent p hp
      rw [sent, List.length_nil] at total
      simp only [sent, List.length_nil, Bool.false_eq_true, false_iff]
      cases hc : isSpawned (s.word .consumer) with
      | true =>
        obtain ⟨more, empty, _⟩ := h.consumer hc (unqueued _ hc)
        rw [empty, List.length_nil] at total
        simp only [true_iff]
        omega
      | false =>
        have := h.received c hc
        simp only [Bool.false_eq_true, false_iff]
        omega
  obtain ⟨got, left, sides⟩ := lens
  refine ⟨?_, ?_, sides⟩
  · have front : s.data.got <+: vs.map some := ⟨_, by rw [← h.all, List.append_assoc]⟩
    rw [List.prefix_iff_eq_take.mp front, got, List.map_take, List.take_eq_take_min]
    simp
  · apply List.map_injective_iff.mpr (Option.some_injective T)
    have back : s.data.toSend.map some <:+ vs.map some := ⟨_, h.all⟩
    rw [List.suffix_iff_eq_drop.mp back, List.map_drop]
    simp only [List.length_map, left]
    obtain short | long := Nat.le_total vs.length (n + N)
    · rw [List.drop_of_length_le (by simp; omega), List.drop_of_length_le (by simp; omega)]
    · rw [show vs.length - (vs.length - (n + N)) = n + N by omega]

/-- For every capacity, every list, every number of receives and all moments of the two
spawns: the dispatcher makes a bounded number of Runs, what is received is at every moment a
prefix of the list, and when the queue is empty as many values have been received as there
are and as the consumer asked for; the producer has ended unless the channel is full behind
them, the consumer unless it asked for more than there is. All of this happens on the
runtime, operation by operation. -/
theorem pipe_delivers (hN : N < 2 ^ w) (fits : Fits w N vs.length)
    (run : Run (step poll) Once (start vs n : State Side (Data w N T)) as s) :
    as.count .run ≤ 2 * (vs.length + n) + 2 ∧ s.data.got <+: vs.map some ∧
      (s.accepted .producer = 1 → s.accepted .consumer = 1 → s.fifo = [] →
        s.data.got = (vs.take n).map some ∧ s.data.toSend = vs.drop (n + N) ∧
        (isSpawned (s.word .producer) = true ↔ n + N < vs.length) ∧
        (isSpawned (s.word .consumer) = true ↔ vs.length < n)) ∧
      ∃ ls r, Run Runtime.step Free (Runtime.init : Runtime.State Side Unit) ls r ∧
        polls ls = s.polls ∧ r.fifo = s.fifo ∧ ∀ i, (r.cell i).word = s.word i := by
  obtain ⟨items, inv, bound⟩ := inv_run hN fits run
  refine ⟨by omega, ⟨_, by rw [← inv.all, List.append_assoc]⟩, inv.rest, ?_⟩
  obtain ⟨ls, r, fine, same, m⟩ := exists_runtime_run () _ (given_run hN fits run)
  exact ⟨ls, r, fine, same, m.fifo, fun i => (m.cell i).word⟩

end Run

/-- Two slots and three values: the producer parks in front of the full channel, the
consumer takes two of them and ends, and the producer can end too. -/
def backpressure : List (Act Side) :=
  [.spawn .producer, .run, .spawn .consumer, .run, .run]

theorem backpressure_delivers :
    ∃ s : State Side (Data 32 2 Nat), s.data.got = [some 1, some 2] ∧
      s.data.toSend = ([1, 2, 3] : List Nat).drop 4 ∧
      (isSpawned (s.word .producer) = true ↔ 4 < 3) ∧ s.fifo = [] := by
  obtain ⟨s, run, hs⟩ := exists_run (step poll) Once
    (start [1, 2, 3] 2 : State Side (Data 32 2 Nat)) backpressure
    (fun s => s.accepted .producer = 1 ∧ s.accepted .consumer = 1 ∧ s.fifo = []) rfl
  simp only [decide_eq_true_eq] at hs
  obtain ⟨p, c, quiet⟩ := hs
  obtain ⟨_, _, rest, _⟩ := pipe_delivers (by decide) (.inl (by decide)) run
  obtain ⟨got, left, producer, _⟩ := rest p c quiet
  exact ⟨s, got, left, producer, quiet⟩

end Px4Rs.Pipe
