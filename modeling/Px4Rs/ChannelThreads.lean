import Px4Rs.Channel
import Px4Rs.WakerCalls

/-! `Channel<T, N>` with its producer and its consumer on two threads. Every load and store
of a counter, every slot access and every operation of the two `AtomicWaker`s is a step;
`Send::poll` and `Recv::poll` make the same `try_send` and `try_recv` twice. -/
namespace Px4Rs.ChannelThreads
open Px4Rs.Runs Px4Rs.Ring Px4Rs.AtomicWaker Px4Rs.Channel Function
variable {w N : Nat} [NeZero N] {T ω : Type*}

/-- Who called `try_send` or `try_recv`: the program itself, or a poll for the first or
the second time, with the waker the poll was given. -/
inductive Caller (ω : Type*) where
  | direct
  | first (wk : ω)
  | second (wk : ω)

inductive Producer (w : Nat) (T ω : Type*) where
  | idle
  | loadHead (k : Caller ω) (v : T)
  | loadTail (k : Caller ω) (v : T) (head : BitVec w)
  | write (k : Caller ω) (v : T) (tail : BitVec w)
  | storeTail (k : Caller ω) (v : T) (tail : BitVec w)
  | wake (k : Caller ω) (p : Wake ω)
  | register (wk : ω) (v : T) (p : Register ω)

/-- The next operation of the consumer; `v` is what it read from the slot. -/
inductive Consumer (w : Nat) (T ω : Type*) where
  | idle
  | loadTail (k : Caller ω)
  | loadHead (k : Caller ω) (tail : BitVec w)
  | read (k : Caller ω) (head : BitVec w)
  | storeHead (k : Caller ω) (v : Option T) (head : BitVec w)
  | wake (k : Caller ω) (p : Wake ω)
  | register (wk : ω) (p : Register ω)

/- A `Send` future. `given` is the value it was built with; `enqueued` is history, the
   values its polls have put into the channel, as is `ready`, that a poll returned Ready. -/
structure SendFuture (T : Type*) where
  value : Option T
  given : T
  enqueued : List T
  ready : Bool

/- `sendParked` is the waker of the producer's last call when that was a poll that returned
   Pending, `sendInvoked` the wakers `send_waker` invoked since that poll began; the same
   for the consumer. `sent` and `received` are the values in the order of the counter
   stores. `full` says whether N values were live when the producer last loaded `head`,
   `empty` whether none was when the consumer last loaded `tail`; `errs` and `nones` keep
   these for every `try_send` that returned Err and every `try_recv` that returned None. -/
structure State (w N : Nat) (T ω : Type*) where
  chan : Channel w N T ω
  producer : Producer w T ω
  consumer : Consumer w T ω
  future : Option (SendFuture T)
  sendParked : Option ω
  recvParked : Option ω
  sendInvoked : List ω
  recvInvoked : List ω
  sent : List T
  received : List (Option T)
  full : Bool
  empty : Bool
  errs : List Bool
  nones : List Bool

def init : State w N T ω where
  chan := Channel.new
  producer := .idle
  consumer := .idle
  future := none
  sendParked := none
  recvParked := none
  sendInvoked := []
  recvInvoked := []
  sent := []
  received := []
  full := false
  empty := false
  errs := []
  nones := []

def State.live (s : State w N T ω) : Nat := s.sent.length - s.received.length

inductive Act (T ω : Type*) where
  | trySend (v : T)
  | send (v : T)
  | pollSend (wk : ω)
  | dropSend
  | loadHead
  | loadTail
  | write
  | storeTail
  | wakeRecv
  | registerSend
  | tryRecv
  | pollRecv (wk : ω)
  | loadTailRecv
  | loadHeadRecv
  | read
  | storeHead
  | wakeSend
  | registerRecv

/-- `try_send` has returned Err: return, register and try again, or return Pending with the
value back in the future. -/
def State.sendFull (s : State w N T ω) (v : T) : Caller ω → State w N T ω
  | .direct => { s with producer := .idle }
  | .first wk => { s with producer := .register wk v (.acquire wk) }
  | .second wk => { s with
      producer := .idle
      future := s.future.map fun f => { f with value := some v }
      sendParked := some wk }

def State.recvEmpty (s : State w N T ω) : Caller ω → State w N T ω
  | .direct => { s with consumer := .idle }
  | .first wk => { s with consumer := .register wk (.acquire wk) }
  | .second wk => { s with consumer := .idle, recvParked := some wk }

/-- The future of a poll has put `v` into the channel. -/
def SendFuture.enqueue (v : T) (f : SendFuture T) : Caller ω → SendFuture T
  | .direct => f
  | .first _ | .second _ => { f with enqueued := f.enqueued ++ [v] }

def SendFuture.resolve (f : SendFuture T) : Caller ω → SendFuture T
  | .direct => f
  | .first _ | .second _ => { f with ready := true }

section Frames
variable (s : State w N T ω) (v : T) (k : Caller ω)
omit [NeZero N]

@[simp] theorem State.sendFull_chan : (s.sendFull v k).chan = s.chan := by cases k <;> rfl
@[simp] theorem State.sendFull_consumer : (s.sendFull v k).consumer = s.consumer := by
  cases k <;> rfl
@[simp] theorem State.sendFull_sent : (s.sendFull v k).sent = s.sent := by cases k <;> rfl
@[simp] theorem State.sendFull_received : (s.sendFull v k).received = s.received := by
  cases k <;> rfl
@[simp] theorem State.sendFull_empty : (s.sendFull v k).empty = s.empty := by cases k <;> rfl
@[simp] theorem State.sendFull_nones : (s.sendFull v k).nones = s.nones := by cases k <;> rfl

@[simp] theorem State.recvEmpty_chan : (s.recvEmpty k).chan = s.chan := by cases k <;> rfl
@[simp] theorem State.recvEmpty_producer : (s.recvEmpty k).producer = s.producer := by
  cases k <;> rfl
@[simp] theorem State.recvEmpty_sent : (s.recvEmpty k).sent = s.sent := by cases k <;> rfl
@[simp] theorem State.recvEmpty_received : (s.recvEmpty k).received = s.received := by
  cases k <;> rfl
@[simp] theorem State.recvEmpty_full : (s.recvEmpty k).full = s.full := by cases k <;> rfl
@[simp] theorem State.recvEmpty_errs : (s.recvEmpty k).errs = s.errs := by cases k <;> rfl

end Frames

def step (s : State w N T ω) : Act T ω → Option (State w N T ω)
  | .trySend v =>
    match s.producer with
    | .idle => some { s with producer := .loadHead .direct v, sendParked := none }
    | _ => none
  | .send v =>
    match s.producer, s.future with
    | .idle, none => some { s with future := some ⟨some v, v, [], false⟩ }
    | _, _ => none
  -- `value.take()`; a future that has resolved is not polled again
  | .pollSend wk =>
    match s.producer, s.future with
    | .idle, some ⟨some v, given, enqueued, false⟩ =>
      some { s with
        producer := .loadHead (.first wk) v
        future := some ⟨none, given, enqueued, false⟩
        sendParked := none
        sendInvoked := [] }
    | _, _ => none
  | .dropSend =>
    match s.producer with
    | .idle => some { s with future := none }
    | _ => none
  | .loadHead =>
    match s.producer with
    | .loadHead k v =>
      some { s with producer := .loadTail k v s.chan.head, full := s.live = N }
    | _ => none
  | .loadTail =>
    match s.producer with
    | .loadTail k v head =>
      if N ≤ (s.chan.tail - head).toNat then
        some { s.sendFull v k with errs := s.errs ++ [s.full] }
      else some { s with producer := .write k v s.chan.tail }
    | _ => none
  | .write =>
    match s.producer with
    | .write k v tail =>
      some { s with
        producer := .storeTail k v tail
        chan := { s.chan with buf := update s.chan.buf (idx tail) (some v) } }
    | _ => none
  | .storeTail =>
    match s.producer with
    | .storeTail k v tail =>
      some { s with
        producer := .wake k .fetchOr
        chan := { s.chan with tail := tail + 1 }
        future := s.future.map fun f => f.enqueue v k
        sent := s.sent ++ [v] }
    | _ => none
  | .wakeRecv =>
    match s.producer with
    | .wake k p =>
      let x := p.step s.chan.recvWaker
      some { s with
        producer := x.pc.resume (.wake k) .idle
        chan := { s.chan with recvWaker := x.cell }
        recvInvoked := s.recvInvoked ++ x.invoked.toList
        future := x.pc.resume (fun _ => s.future) (s.future.map fun f => f.resolve k) }
    | _ => none
  | .registerSend =>
    match s.producer with
    | .register wk v p =>
      let x := p.step s.chan.sendWaker
      some { s with
        producer := x.pc.resume (.register wk v) (.loadHead (.second wk) v)
        chan := { s.chan with sendWaker := x.cell }
        sendInvoked := s.sendInvoked ++ x.invoked.toList }
    | _ => none
  | .tryRecv =>
    match s.consumer with
    | .idle => some { s with consumer := .loadTail .direct, recvParked := none }
    | _ => none
  | .pollRecv wk =>
    match s.consumer with
    | .idle => some { s with
        consumer := .loadTail (.first wk), recvParked := none, recvInvoked := [] }
    | _ => none
  | .loadTailRecv =>
    match s.consumer with
    | .loadTail k => some { s with consumer := .loadHead k s.chan.tail, empty := s.live = 0 }
    | _ => none
  | .loadHeadRecv =>
    match s.consumer with
    | .loadHead k tail =>
      if s.chan.head = tail then some { s.recvEmpty k with nones := s.nones ++ [s.empty] }
      else some { s with consumer := .read k s.chan.head }
    | _ => none
  | .read =>
    match s.consumer with
    | .read k head =>
      some { s with
        consumer := .storeHead k (s.chan.buf (idx head)) head
        chan := { s.chan with buf := update s.chan.buf (idx head) none } }
    | _ => none
  | .storeHead =>
    match s.consumer with
    | .storeHead k v head =>
      some { s with
        consumer := .wake k .fetchOr
        chan := { s.chan with head := head + 1 }
        received := s.received ++ [v] }
    | _ => none
  | .wakeSend =>
    match s.consumer with
    | .wake k p =>
      let x := p.step s.chan.sendWaker
      some { s with
        consumer := x.pc.resume (.wake k) .idle
        chan := { s.chan with sendWaker := x.cell }
        sendInvoked := s.sendInvoked ++ x.invoked.toList }
    | _ => none
  | .registerRecv =>
    match s.consumer with
    | .register wk p =>
      let x := p.step s.chan.recvWaker
      some { s with
        consumer := x.pc.resume (.register wk) (.loadTail (.second wk))
        chan := { s.chan with recvWaker := x.cell }
        recvInvoked := s.recvInvoked ++ x.invoked.toList }
    | _ => none

inductive Steps (s : State w N T ω) : Act T ω → State w N T ω → Prop
  | trySend {v} (hp : s.producer = .idle) :
    Steps s (.trySend v) { s with producer := .loadHead .direct v, sendParked := none }
  | send {v} (hp : s.producer = .idle) (fresh : s.future = none) :
    Steps s (.send v) { s with future := some ⟨some v, v, [], false⟩ }
  | pollSend {wk v given enqueued} (hp : s.producer = .idle)
      (future : s.future = some ⟨some v, given, enqueued, false⟩) :
    Steps s (.pollSend wk) { s with
      producer := .loadHead (.first wk) v
      future := some ⟨none, given, enqueued, false⟩
      sendParked := none
      sendInvoked := [] }
  | dropSend (hp : s.producer = .idle) : Steps s .dropSend { s with future := none }
  | loadHead {k v} (hp : s.producer = .loadHead k v) :
    Steps s .loadHead { s with producer := .loadTail k v s.chan.head, full := s.live = N }
  | sendFull {k v head} (hp : s.producer = .loadTail k v head)
      (full : N ≤ (s.chan.tail - head).toNat) :
    Steps s .loadTail { s.sendFull v k with errs := s.errs ++ [s.full] }
  | loadTail {k v head} (hp : s.producer = .loadTail k v head)
      (room : (s.chan.tail - head).toNat < N) :
    Steps s .loadTail { s with producer := .write k v s.chan.tail }
  | write {k v tail} (hp : s.producer = .write k v tail) :
    Steps s .write { s with
      producer := .storeTail k v tail
      chan := { s.chan with buf := update s.chan.buf (idx tail) (some v) } }
  | storeTail {k v tail} (hp : s.producer = .storeTail k v tail) :
    Steps s .storeTail { s with
      producer := .wake k .fetchOr
      chan := { s.chan with tail := tail + 1 }
      future := s.future.map fun f => f.enqueue v k
      sent := s.sent ++ [v] }
  | wakeRecv {k p} (hp : s.producer = .wake k p) :
    Steps s .wakeRecv { s with
      producer := (p.step s.chan.recvWaker).pc.resume (.wake k) .idle
      chan := { s.chan with recvWaker := (p.step s.chan.recvWaker).cell }
      recvInvoked := s.recvInvoked ++ (p.step s.chan.recvWaker).invoked.toList
      future := (p.step s.chan.recvWaker).pc.resume (fun _ => s.future)
        (s.future.map fun f => f.resolve k) }
  | registerSend {wk v p} (hp : s.producer = .register wk v p) :
    Steps s .registerSend { s with
      producer := (p.step s.chan.sendWaker).pc.resume (.register wk v) (.loadHead (.second wk) v)
      chan := { s.chan with sendWaker := (p.step s.chan.sendWaker).cell }
      sendInvoked := s.sendInvoked ++ (p.step s.chan.sendWaker).invoked.toList }
  | tryRecv (hc : s.consumer = .idle) :
    Steps s .tryRecv { s with consumer := .loadTail .direct, recvParked := none }
  | pollRecv {wk} (hc : s.consumer = .idle) :
    Steps s (.pollRecv wk) { s with
      consumer := .loadTail (.first wk), recvParked := none, recvInvoked := [] }
  | loadTailRecv {k} (hc : s.consumer = .loadTail k) :
    Steps s .loadTailRecv { s with consumer := .loadHead k s.chan.tail, empty := s.live = 0 }
  | recvEmpty {k tail} (hc : s.consumer = .loadHead k tail) (empty : s.chan.head = tail) :
    Steps s .loadHeadRecv { s.recvEmpty k with nones := s.nones ++ [s.empty] }
  | loadHeadRecv {k tail} (hc : s.consumer = .loadHead k tail) (there : s.chan.head ≠ tail) :
    Steps s .loadHeadRecv { s with consumer := .read k s.chan.head }
  | read {k head} (hc : s.consumer = .read k head) :
    Steps s .read { s with
      consumer := .storeHead k (s.chan.buf (idx head)) head
      chan := { s.chan with buf := update s.chan.buf (idx head) none } }
  | storeHead {k v head} (hc : s.consumer = .storeHead k v head) :
    Steps s .storeHead { s with
      consumer := .wake k .fetchOr
      chan := { s.chan with head := head + 1 }
      received := s.received ++ [v] }
  | wakeSend {k p} (hc : s.consumer = .wake k p) :
    Steps s .wakeSend { s with
      consumer := (p.step s.chan.sendWaker).pc.resume (.wake k) .idle
      chan := { s.chan with sendWaker := (p.step s.chan.sendWaker).cell }
      sendInvoked := s.sendInvoked ++ (p.step s.chan.sendWaker).invoked.toList }
  | registerRecv {wk p} (hc : s.consumer = .register wk p) :
    Steps s .registerRecv { s with
      consumer := (p.step s.chan.recvWaker).pc.resume (.register wk) (.loadTail (.second wk))
      chan := { s.chan with recvWaker := (p.step s.chan.recvWaker).cell }
      recvInvoked := s.recvInvoked ++ (p.step s.chan.recvWaker).invoked.toList }

theorem steps_of_step {s t : State w N T ω} {a : Act T ω} (next : step s a = some t) :
    Steps s a t := by
  cases a with
  | loadTail =>
    simp only [step] at next
    split at next
    · rename_i hp
      split at next <;> rename_i room <;> cases next
      · exact .sendFull hp room
      · exact .loadTail hp (Nat.lt_of_not_le room)
    · cases next
  | loadHeadRecv =>
    simp only [step] at next
    split at next
    · rename_i hc
      split at next <;> rename_i empty <;> cases next
      · exact .recvEmpty hc empty
      · exact .loadHeadRecv hc empty
    · cases next
  | send | pollSend =>
    simp only [step] at next
    split at next <;> cases next
    rename_i hp future
    constructor <;> assumption
  | trySend | dropSend | loadHead | write | storeTail | wakeRecv | registerSend | tryRecv
  | pollRecv | loadTailRecv | read | storeHead | wakeSend | registerRecv =>
    simp only [step] at next
    split at next <;> cases next
    constructor
    assumption

def drain : Nat → Channel w N T ω → Option (List (Option T) × Channel w N T ω)
  | 0, _ => none
  | fuel + 1, c =>
    match c.tryRecv with
    | none => some ([], c)
    | some (v, c, _) => (drain fuel c).map fun r => (v :: r.1, r.2)

variable {s t : State w N T ω} {a : Act T ω}

/-! The counters. Each side knows its own counter and an old value of the other's. -/

def Producer.Knows (N n r : Nat) (full : Bool) : Producer w T ω → Prop
  | .loadTail _ _ head =>
    ∃ r' ≤ r, head = BitVec.ofNat w r' ∧ n ≤ r' + N ∧ r' ≤ n ∧ (n = r' + N → full = true)
  | .write _ _ tail | .storeTail _ _ tail => tail = BitVec.ofNat w n ∧ n < r + N
  | _ => True

def Consumer.Knows (N n r : Nat) (empty : Bool) : Consumer w T ω → Prop
  | .loadHead _ tail =>
    ∃ n' ≤ n, tail = BitVec.ofNat w n' ∧ n' ≤ r + N ∧ r ≤ n' ∧ (n' = r → empty = true)
  | .read _ head | .storeHead _ _ head => head = BitVec.ofNat w r ∧ r < n
  | _ => True

omit [NeZero N] in
theorem Producer.Knows.mono {p : Producer w T ω} {n r r' : Nat} {full : Bool}
    (h : p.Knows N n r full) (hr : r ≤ r') : p.Knows N n r' full := by
  cases p with
  | loadTail _ _ _ =>
    obtain ⟨x, hx, rest⟩ := h
    exact ⟨x, by omega, rest⟩
  | write _ _ _ | storeTail _ _ _ => exact ⟨h.1, by have := h.2; omega⟩
  | idle | loadHead _ _ | wake _ _ | register _ _ _ => trivial

omit [NeZero N] in
theorem Consumer.Knows.mono {c : Consumer w T ω} {n n' r : Nat} {empty : Bool}
    (h : c.Knows N n r empty) (hn : n ≤ n') : c.Knows N n' r empty := by
  cases c with
  | loadHead _ _ =>
    obtain ⟨x, hx, rest⟩ := h
    exact ⟨x, by omega, rest⟩
  | read _ _ | storeHead _ _ _ => exact ⟨h.1, by have := h.2; omega⟩
  | idle | loadTail _ | wake _ _ | register _ _ => trivial

/- The counter words are the numbers of values sent and received, at most N apart, and
   every `try_send` that gave its value back had met N live values, every `try_recv` that
   returned nothing had met none. -/
structure Counts (s : State w N T ω) : Prop where
  head : s.chan.head = BitVec.ofNat w s.received.length
  tail : s.chan.tail = BitVec.ofNat w s.sent.length
  le : s.received.length ≤ s.sent.length
  bound : s.sent.length ≤ s.received.length + N
  producer : s.producer.Knows N s.sent.length s.received.length s.full
  consumer : s.consumer.Knows N s.sent.length s.received.length s.empty
  errs : ∀ b ∈ s.errs, b = true
  nones : ∀ b ∈ s.nones, b = true

omit [NeZero N] in
theorem counts_init : Counts (init : State w N T ω) := by
  constructor <;> simp [init, Channel.new, Producer.Knows, Consumer.Knows]

omit [NeZero N] in
theorem Counts.produce (h : Counts s) (head : t.chan.head = s.chan.head)
    (tail : t.chan.tail = s.chan.tail) (sent : t.sent = s.sent)
    (received : t.received = s.received) (consumer : t.consumer = s.consumer)
    (empty : t.empty = s.empty) (nones : t.nones = s.nones)
    (knows : t.producer.Knows N s.sent.length s.received.length t.full)
    (errs : ∀ b ∈ t.errs, b = true) : Counts t := by
  refine ⟨?_, ?_, ?_, ?_, ?_, ?_, errs, nones ▸ h.nones⟩
  · rw [head, received, h.head]
  · rw [tail, sent, h.tail]
  · rw [sent, received]
    exact h.le
  · rw [sent, received]
    exact h.bound
  · rw [sent, received]
    exact knows
  · rw [sent, received, consumer, empty]
    exact h.consumer

omit [NeZero N] in
theorem Counts.consume (h : Counts s) (head : t.chan.head = s.chan.head)
    (tail : t.chan.tail = s.chan.tail) (sent : t.sent = s.sent)
    (received : t.received = s.received) (producer : t.producer = s.producer)
    (full : t.full = s.full) (errs : t.errs = s.errs)
    (knows : t.consumer.Knows N s.sent.length s.received.length t.empty)
    (nones : ∀ b ∈ t.nones, b = true) : Counts t := by
  refine ⟨?_, ?_, ?_, ?_, ?_, ?_, errs ▸ h.errs, nones⟩
  · rw [head, received, h.head]
  · rw [tail, sent, h.tail]
  · rw [sent, received]
    exact h.le
  · rw [sent, received]
    exact h.bound
  · rw [sent, received, producer, full]
    exact h.producer
  · rw [sent, received]
    exact knows

omit [NeZero N] in
theorem Counts.live_le (h : Counts s) : s.live ≤ N := by
  have := h.bound
  simp only [State.live]
  omega

omit [NeZero N] in
/-- A counter of a side and an old value of the other's differ by the distance. -/
theorem sub_words (hN : N < 2 ^ w) {n r : Nat} (hle : r ≤ n) (hb : n ≤ r + N) :
    (BitVec.ofNat w n - BitVec.ofNat w r).toNat = n - r :=
  toNat_sub_ofNat hle (by omega)

omit [NeZero N] in
theorem eq_words (hN : N < 2 ^ w) {n r : Nat} (hle : r ≤ n) (hb : n ≤ r + N) :
    BitVec.ofNat w r = BitVec.ofNat w n ↔ n = r := by
  constructor
  · intro he
    have := sub_words hN hle hb
    rw [he] at this
    simp at this
    omega
  · rintro rfl
    rfl

theorem counts_loadTail (hN : N < 2 ^ w) (h : Counts s)
    (next : step s (.loadTail : Act T ω) = some t) : Counts t := by
  have live {k : Caller ω} {v : T} {head : BitVec w} (hp : s.producer = .loadTail k v head) :
      ∃ r ≤ s.received.length, (s.chan.tail - head).toNat = s.sent.length - r ∧
        r ≤ s.sent.length ∧ s.sent.length ≤ r + N ∧ (s.sent.length = r + N → s.full = true) := by
    have knows := h.producer
    rw [hp] at knows
    obtain ⟨r, hr, rfl, hb, hle, hfull⟩ := knows
    have gap := sub_words hN hle hb
    rw [← h.tail] at gap
    exact ⟨r, hr, gap, hle, hb, hfull⟩
  cases steps_of_step next with
  | @sendFull k v head hp full =>
    -- N values were live when `head` was loaded, and `tail` is the producer's own
    obtain ⟨r, hr, gap, hle, hb, hfull⟩ := live hp
    have full : s.full = true := hfull (by omega)
    refine h.produce (by simp) (by simp) (by simp) (by simp) (by simp) (by simp) (by simp) ?_ ?_
    · cases k <;> trivial
    · simpa [full] using h.errs
  | loadTail hp room =>
    obtain ⟨r, hr, gap, hle, hb, _⟩ := live hp
    exact h.produce rfl rfl rfl rfl rfl rfl rfl ⟨h.tail, by omega⟩ h.errs

theorem counts_loadHeadRecv (hN : N < 2 ^ w) (h : Counts s)
    (next : step s (.loadHeadRecv : Act T ω) = some t) : Counts t := by
  have live {k : Caller ω} {tail : BitVec w} (hc : s.consumer = .loadHead k tail) :
      ∃ n ≤ s.sent.length, (s.chan.head = tail ↔ n = s.received.length) ∧
        s.received.length ≤ n ∧ (n = s.received.length → s.empty = true) := by
    have knows := h.consumer
    rw [hc] at knows
    obtain ⟨n, hn, rfl, hb, hle, hempty⟩ := knows
    have same := eq_words hN hle hb
    rw [← h.head] at same
    exact ⟨n, hn, same, hle, hempty⟩
  cases steps_of_step next with
  | @recvEmpty k tail hc empty =>
    obtain ⟨n, _, same, _, hempty⟩ := live hc
    have empty : s.empty = true := hempty (same.mp empty)
    refine h.consume (by simp) (by simp) (by simp) (by simp) (by simp) (by simp) (by simp) ?_ ?_
    · cases k <;> trivial
    · simpa [empty] using h.nones
  | loadHeadRecv hc there =>
    obtain ⟨n, hn, same, hle, _⟩ := live hc
    have : n ≠ s.received.length := fun he => there (same.mpr he)
    exact h.consume rfl rfl rfl rfl rfl rfl rfl ⟨h.head, by omega⟩ h.nones

theorem counts_storeTail (h : Counts s) (next : step s (.storeTail : Act T ω) = some t) :
    Counts t := by
  cases steps_of_step next with
  | storeTail hp =>
    have knows := h.producer
    rw [hp] at knows
    obtain ⟨rfl, hlt⟩ := knows
    refine ⟨h.head, ?_, ?_, ?_, trivial, ?_, h.errs, h.nones⟩
    · simp [BitVec.ofNat_add]
    · have := h.le
      simp only [List.length_append, List.length_singleton]
      omega
    · simp only [List.length_append, List.length_singleton]
      omega
    · exact h.consumer.mono (by simp)

theorem counts_storeHead (h : Counts s) (next : step s (.storeHead : Act T ω) = some t) :
    Counts t := by
  cases steps_of_step next with
  | storeHead hc =>
    have knows := h.consumer
    rw [hc] at knows
    obtain ⟨rfl, hlt⟩ := knows
    refine ⟨?_, h.tail, ?_, ?_, ?_, trivial, h.errs, h.nones⟩
    · simp [BitVec.ofNat_add]
    · simp only [List.length_append, List.length_singleton]
      omega
    · have := h.bound
      simp only [List.length_append, List.length_singleton]
      omega
    · exact h.producer.mono (by simp)

theorem counts_step (hN : N < 2 ^ w) (h : Counts s) (next : step s a = some t) : Counts t := by
  cases steps_of_step next with
  | sendFull | loadTail => exact counts_loadTail hN h next
  | recvEmpty | loadHeadRecv => exact counts_loadHeadRecv hN h next
  | storeTail => exact counts_storeTail h next
  | storeHead => exact counts_storeHead h next
  | send | dropSend => exact h.produce rfl rfl rfl rfl rfl rfl rfl h.producer h.errs
  | trySend | pollSend => exact h.produce rfl rfl rfl rfl rfl rfl rfl trivial h.errs
  | write hp =>
    have knows := h.producer
    rw [hp] at knows
    exact h.produce rfl rfl rfl rfl rfl rfl rfl knows h.errs
  | loadHead =>
    refine h.produce rfl rfl rfl rfl rfl rfl rfl ?_ h.errs
    refine ⟨_, le_rfl, h.head, h.bound, h.le, fun he => ?_⟩
    apply decide_eq_true
    simp only [State.live]
    omega
  | @wakeRecv _ p =>
    refine h.produce rfl rfl rfl rfl rfl rfl rfl ?_ h.errs
    cases (p.step s.chan.recvWaker).pc <;> trivial
  | @registerSend _ _ p =>
    refine h.produce rfl rfl rfl rfl rfl rfl rfl ?_ h.errs
    cases (p.step s.chan.sendWaker).pc <;> trivial
  | tryRecv | pollRecv => exact h.consume rfl rfl rfl rfl rfl rfl rfl trivial h.nones
  | loadTailRecv =>
    refine h.consume rfl rfl rfl rfl rfl rfl rfl ?_ h.nones
    refine ⟨_, le_rfl, h.tail, h.bound, h.le, fun he => ?_⟩
    apply decide_eq_true
    simp only [State.live]
    omega
  | read hc =>
    have knows := h.consumer
    rw [hc] at knows
    exact h.consume rfl rfl rfl rfl rfl rfl rfl knows h.nones
  | @wakeSend _ p =>
    refine h.consume rfl rfl rfl rfl rfl rfl rfl ?_ h.nones
    cases (p.step s.chan.sendWaker).pc <;> trivial
  | @registerRecv _ p =>
    refine h.consume rfl rfl rfl rfl rfl rfl rfl ?_ h.nones
    cases (p.step s.chan.recvWaker).pc <;> trivial

/-! The slots. Between its two operations on the buffer and on its counter a side has
already put in, or taken out, one value that the counters do not show. -/

/-- The value that is in its slot before `tail` shows it. -/
def Producer.written : Producer w T ω → List T
  | .storeTail _ v _ => [v]
  | .idle | .loadHead _ _ | .loadTail _ _ _ | .write _ _ _ | .wake _ _ | .register _ _ _ => []

/-- The number of values that left their slot before `head` shows it. -/
def Consumer.taken : Consumer w T ω → Nat
  | .storeHead _ _ _ => 1
  | .idle | .loadTail _ | .loadHead _ _ | .read _ _ | .wake _ _ | .register _ _ => 0

section Resume
variable (k : Caller ω) (wk : ω) (v : T) (x : Wake ω) (y : Register ω)
omit [NeZero N]

theorem written_wake :
    (x.resume (.wake k) .idle : Producer w T ω).written = [] := by cases x <;> rfl

theorem written_register :
    (y.resume (.register wk v) (.loadHead (.second wk) v) : Producer w T ω).written = [] := by
  cases y <;> rfl

theorem taken_wake : (x.resume (.wake k) .idle : Consumer w T ω).taken = 0 := by
  cases x <;> rfl

theorem taken_register :
    (y.resume (.register wk) (.loadTail (.second wk)) : Consumer w T ω).taken = 0 := by
  cases y <;> rfl

end Resume

/-- Between its read and its store the consumer has one value out of its slot. -/
theorem taken_of_storeHead {c : Consumer w T ω} (h : c.taken = 0) (k : Caller ω) (v : Option T)
    (head : BitVec w) : c ≠ .storeHead k v head := by
  rintro rfl
  cases h

def State.first (s : State w N T ω) : Nat := s.received.length + s.consumer.taken

def State.items (s : State w N T ω) : List T := (s.sent ++ s.producer.written).drop s.first

/- The slots hold what was sent and not taken, and what was taken was sent, in order. -/
structure Slots (s : State w N T ω) : Prop where
  holds : Holds s.chan.buf (fun x => idx (BitVec.ofNat w x)) s.first s.items
  read : ∀ k v head, s.consumer = .storeHead k v head → v = s.sent[s.received.length]?
  received : s.received = (s.sent.take s.received.length).map some

theorem slots_init : Slots (init : State w N T ω) :=
  ⟨holds_empty _ _, by simp [init], rfl⟩

/-- The run has sent fewer than `2 ^ w` values, or the counters wrap onto the same slots. -/
def Fits (s : State w N T ω) : Prop := s.sent.length < 2 ^ w ∨ N ∣ 2 ^ w

theorem slots_apart (hN : N < 2 ^ w) {a c : Nat} (hac : a < c) (hlt : c - a < N)
    (fits : c < 2 ^ w ∨ N ∣ 2 ^ w) :
    (idx (BitVec.ofNat w a) : Fin N) ≠ idx (BitVec.ofNat w c) := by
  intro he
  rw [Fin.ext_iff, idx_ofNat, idx_ofNat, slotOf_eq_iff hac hlt hN] at he
  obtain ⟨hd, hm⟩ := he
  obtain hc | hdvd := fits
  · rw [Nat.mod_eq_of_lt hc] at hm
    omega
  · rw [Nat.mod_eq_zero_of_dvd hdvd] at hm
    omega

omit [NeZero N] in
theorem Counts.first_le (h : Counts s) : s.first ≤ s.sent.length := by
  have knows := h.consumer
  have := h.le
  simp only [State.first]
  cases hc : s.consumer with
  | storeHead _ _ _ =>
    rw [hc] at knows
    exact knows.2
  | idle | loadTail _ | loadHead _ _ | read _ _ | wake _ _ | register _ _ =>
    simpa [Consumer.taken] using this

theorem Slots.free (hN : N < 2 ^ w) (hc : Counts s) (h : Slots s) (fits : Fits s) {k : Caller ω}
    {v : T} {tail : BitVec w} (hp : s.producer = .write k v tail) :
    s.items = s.sent.drop s.first ∧ tail = BitVec.ofNat w (s.first + s.items.length) ∧
      s.chan.buf (idx tail) = none := by
  have knows := hc.producer
  rw [hp] at knows
  obtain ⟨rfl, room⟩ := knows
  have hle := hc.first_le
  have items : s.items = s.sent.drop s.first := by
    simp [State.items, hp, Producer.written]
  have last : s.first + s.items.length = s.sent.length := by
    rw [items, List.length_drop]
    omega
  refine ⟨items, by rw [last], ?_⟩
  rw [← last]
  refine h.holds.free_iff.mpr fun i hi => ?_
  have : s.received.length ≤ s.first := Nat.le_add_right _ _
  apply slots_apart hN (by omega) (by omega)
  rw [last]
  exact fits

theorem Slots.stored (hc : Counts s) (h : Slots s) {k : Caller ω} {head : BitVec w}
    (hp : s.consumer = .read k head) :
    ∃ x rest, s.items = x :: rest ∧ s.sent[s.received.length]? = some x ∧
      head = BitVec.ofNat w s.first ∧ s.chan.buf (idx head) = some x := by
  have knows := hc.consumer
  rw [hp] at knows
  obtain ⟨rfl, hlt⟩ := knows
  have first : s.first = s.received.length := by simp [State.first, hp, Consumer.taken]
  have items : s.items = s.sent[s.received.length] ::
      (s.sent.drop (s.received.length + 1) ++ s.producer.written) := by
    rw [State.items, first, List.drop_append_of_le_length (by omega),
      List.drop_eq_getElem_cons hlt, List.cons_append]
  refine ⟨_, _, items, by simp [hlt], by rw [first], ?_⟩
  have holds := h.holds
  rw [items, first] at holds
  exact holds.pop.1

theorem Slots.frame (h : Slots s) (buf : t.chan.buf = s.chan.buf) (sent : t.sent = s.sent)
    (received : t.received = s.received) (written : t.producer.written = s.producer.written)
    (taken : t.consumer.taken = s.consumer.taken)
    (read : ∀ k v head, t.consumer = .storeHead k v head → s.consumer = .storeHead k v head) :
    Slots t := by
  have first : t.first = s.first := by rw [State.first, State.first, received, taken]
  have items : t.items = s.items := by rw [State.items, State.items, sent, written, first]
  refine ⟨?_, fun k v head hk => ?_, ?_⟩
  · rw [buf, first, items]
    exact h.holds
  · rw [sent, received]
    exact h.read k v head (read k v head hk)
  · rw [received, sent]
    exact h.received

theorem slots_write (hN : N < 2 ^ w) (hc : Counts s) (h : Slots s) (fits : Fits s)
    (next : step s (.write : Act T ω) = some t) : Slots t := by
  cases steps_of_step next with
  | @write k v tail hp =>
    obtain ⟨items, rfl, free⟩ := h.free hN hc fits hp
    refine ⟨?_, h.read, h.received⟩
    have grown : (s.sent ++ [v]).drop s.first = s.items ++ [v] := by
      rw [items, List.drop_append_of_le_length hc.first_le]
    have pushed := h.holds.push free v
    rw [← grown] at pushed
    exact pushed

theorem slots_read (hc : Counts s) (h : Slots s)
    (next : step s (.read : Act T ω) = some t) : Slots t := by
  cases steps_of_step next with
  | read hp =>
    have first : s.first = s.received.length := by simp [State.first, hp, Consumer.taken]
    obtain ⟨x, rest, items, oldest, rfl, stored⟩ := h.stored hc hp
    have holds := h.holds
    rw [items] at holds
    have left : (s.sent ++ s.producer.written).drop (s.first + 1) = rest := by
      rw [← List.drop_drop, ← State.items, items]
      rfl
    refine ⟨?_, ?_, h.received⟩
    · have popped := holds.pop.2
      rw [← left] at popped
      rw [first] at popped ⊢
      exact popped
    · intro k v head hk
      cases hk
      exact stored.trans oldest.symm

theorem slots_storeTail (hc : Counts s) (h : Slots s)
    (next : step s (.storeTail : Act T ω) = some t) : Slots t := by
  cases steps_of_step next with
  | storeTail hp =>
    have hle := hc.le
    refine ⟨?_, fun k x head hk => ?_, ?_⟩
    · have holds := h.holds
      rw [State.items, hp] at holds
      simpa [State.items, State.first, Producer.written] using holds
    · have knows := hc.consumer
      rw [show s.consumer = _ from hk] at knows
      rw [List.getElem?_append_left knows.2]
      exact h.read k x head hk
    · rw [List.take_append_of_le_length hle]
      exact h.received

theorem slots_storeHead (hc : Counts s) (h : Slots s)
    (next : step s (.storeHead : Act T ω) = some t) : Slots t := by
  cases steps_of_step next with
  | @storeHead k v head hp =>
    have knows := hc.consumer
    rw [hp] at knows
    have hlt := knows.2
    refine ⟨?_, fun _ _ _ hk => (by cases hk), ?_⟩
    · have holds := h.holds
      rw [State.items, State.first, hp] at holds
      simpa [State.items, State.first, Consumer.taken] using holds
    · have hv := h.read k v head hp
      rw [List.getElem?_eq_getElem hlt] at hv
      rw [List.length_append, List.length_singleton, List.take_succ_eq_append_getElem hlt,
        List.map_append, ← h.received, hv]
      rfl

theorem slots_step (hN : N < 2 ^ w) (hc : Counts s) (h : Slots s) (fits : Fits s)
    (next : step s a = some t) : Slots t := by
  cases steps_of_step next with
  | write => exact slots_write hN hc h fits next
  | read => exact slots_read hc h next
  | storeTail => exact slots_storeTail hc h next
  | storeHead => exact slots_storeHead hc h next
  | trySend hp | loadHead hp | pollSend hp _ | loadTail hp _ =>
    refine h.frame rfl rfl rfl ?_ rfl (fun _ _ _ hk => hk)
    simp [hp, Producer.written]
  | wakeRecv hp =>
    exact h.frame rfl rfl rfl ((written_wake _ _).trans (by rw [hp]; rfl)) rfl
      (fun _ _ _ hk => hk)
  | registerSend hp =>
    exact h.frame rfl rfl rfl ((written_register _ _ _).trans (by rw [hp]; rfl)) rfl
      (fun _ _ _ hk => hk)
  | send | dropSend => exact h.frame rfl rfl rfl rfl rfl (fun _ _ _ hk => hk)
  | @sendFull k v head hp _ =>
    refine h.frame (by simp) (by simp) (by simp) ?_ (by simp) (by simp)
    cases k <;> simp [hp, State.sendFull, Producer.written]
  | tryRecv hc | pollRecv hc | loadTailRecv hc | loadHeadRecv hc _ =>
    exact h.frame rfl rfl rfl rfl (by rw [hc]; rfl) fun _ _ _ hk => (by cases hk)
  | wakeSend hc =>
    exact h.frame rfl rfl rfl rfl ((taken_wake _ _).trans (by rw [hc]; rfl))
      fun k v head hk => absurd hk (taken_of_storeHead (taken_wake _ _) k v head)
  | registerRecv hc =>
    exact h.frame rfl rfl rfl rfl ((taken_register _ _).trans (by rw [hc]; rfl))
      fun k v head hk => absurd hk (taken_of_storeHead (taken_register _ _) k v head)
  | @recvEmpty k tail hc _ =>
    refine h.frame (by simp) (by simp) (by simp) (by simp) ?_ ?_
    · cases k <;> simp [hc, State.recvEmpty, Consumer.taken]
    · cases k <;> simp [State.recvEmpty]

theorem unmoved_step (next : step s a = some t) (hs : a ≠ .storeTail) (hr : a ≠ .storeHead) :
    t.sent = s.sent ∧ t.received = s.received := by
  cases steps_of_step next with
  | storeTail => exact absurd rfl hs
  | storeHead => exact absurd rfl hr
  | sendFull | recvEmpty => simp
  | trySend | send | pollSend | dropSend | loadHead | loadTail | write | wakeRecv | registerSend
  | tryRecv | pollRecv | loadTailRecv | loadHeadRecv | read | wakeSend | registerRecv =>
    exact ⟨rfl, rfl⟩

theorem grows_step (next : step s a = some t) :
    s.sent.length ≤ t.sent.length ∧ s.received.length ≤ t.received.length := by
  by_cases stores : a = .storeTail ∨ a = .storeHead
  · obtain rfl | rfl := stores <;>
    · cases steps_of_step next
      simp
  · rw [not_or] at stores
    obtain ⟨sent, received⟩ := unmoved_step next stores.1 stores.2
    rw [sent, received]
    exact ⟨le_rfl, le_rfl⟩

theorem fits_of_step (next : step s a = some t) (h : Fits t) : Fits s :=
  h.imp_left (Nat.lt_of_le_of_lt (grows_step next).1)

theorem run_counts {as : List (Act T ω)} (hN : N < 2 ^ w) (run : Run step Free init as s) :
    Counts s :=
  run.invariant counts_init fun _ _ _ h _ next => counts_step hN h next

theorem run_slots {as : List (Act T ω)} (hN : N < 2 ^ w) (run : Run step Free init as s)
    (fits : Fits s) : Slots s := by
  induction run with
  | nil => exact slots_init
  | snoc run _ next ih =>
    have fits := fits_of_step next fits
    exact slots_step hN (run_counts hN run) (ih fits) fits next

/-! The queue that the channel is: a value enters it when `tail` is stored and leaves it
when `head` is. -/

def Counts.queue (h : Counts s) : Fifo T N :=
  ⟨s.sent.drop s.received.length, by
    have := h.bound
    rw [List.length_drop]
    omega⟩

theorem queue_storeTail (h : Counts s) (h' : Counts t)
    (next : step s (.storeTail : Act T ω) = some t) : ∃ v, h.queue.push v = .ok h'.queue := by
  cases steps_of_step next with
  | @storeTail k v tail hp =>
    have knows := h.producer
    rw [hp] at knows
    have hle := h.le
    have room : h.queue.items.length < N := by
      have := knows.2
      simp only [Counts.queue, List.length_drop]
      omega
    refine ⟨v, (Fifo.push_of_lt room v).trans ?_⟩
    simp [Counts.queue, List.drop_append_of_le_length hle]

theorem queue_storeHead (h : Counts s) (hs : Slots s) (h' : Counts t)
    (next : step s (.storeHead : Act T ω) = some t) :
    ∃ v, h.queue.pop = some (v, h'.queue) ∧ t.received = s.received ++ [some v] := by
  cases steps_of_step next with
  | @storeHead k v head hp =>
    have knows := h.consumer
    rw [hp] at knows
    have hlt := knows.2
    have hv := hs.read k v head hp
    rw [List.getElem?_eq_getElem hlt] at hv
    refine ⟨s.sent[s.received.length], ?_, by rw [hv]⟩
    have items : s.sent.drop s.received.length =
        s.sent[s.received.length] :: s.sent.drop (s.received.length + 1) :=
      List.drop_eq_getElem_cons hlt
    simp only [Fifo.pop, Counts.queue, items]
    simp

theorem queue_step (h : Counts s) (hs : Slots s) (h' : Counts t) (next : step s a = some t) :
    (∃ v, h.queue.push v = .ok h'.queue) ∨
    (∃ v, h.queue.pop = some (v, h'.queue) ∧ t.received = s.received ++ [some v]) ∨
    h'.queue = h.queue := by
  by_cases sends : a = .storeTail
  · subst sends
    exact .inl (queue_storeTail h h' next)
  by_cases receives : a = .storeHead
  · subst receives
    exact .inr (.inl (queue_storeHead h hs h' next))
  obtain ⟨sent, received⟩ := unmoved_step next sends receives
  exact .inr (.inr (by simp [Counts.queue, sent, received]))

/-! Dropping the channel. -/

theorem drain_items (hN : N < 2 ^ w) {items : List T} {c : Channel w N T ω} {r fuel : Nat}
    (head : c.head = BitVec.ofNat w r) (tail : c.tail = BitVec.ofNat w (r + items.length))
    (holds : Holds c.buf (fun x => idx (BitVec.ofNat w x)) r items)
    (bound : items.length ≤ N) (enough : items.length < fuel) :
    ∃ c', drain fuel c = some (items.map some, c') ∧ ∀ i, c'.buf i = none := by
  induction items generalizing c r fuel with
  | nil =>
    obtain ⟨fuel, rfl⟩ : ∃ n, fuel = n + 1 := ⟨fuel - 1, by simp at enough; omega⟩
    refine ⟨c, ?_, fun i => ?_⟩
    · simp [drain, tryRecv, head, tail]
    · by_contra held
      obtain ⟨v, hv⟩ := Option.ne_none_iff_exists'.mp held
      obtain ⟨j, hj, _⟩ := holds.only i v hv
      simp at hj
  | cons v items ih =>
    obtain ⟨fuel, rfl⟩ : ∃ n, fuel = n + 1 := ⟨fuel - 1, by simp at enough; omega⟩
    rw [List.length_cons] at tail bound enough
    have differ : c.head ≠ c.tail := by
      rw [head, tail]
      intro he
      have := (eq_words hN (by omega) (by omega)).mp he
      omega
    obtain ⟨stored, rest⟩ := holds.pop
    rw [← head] at stored rest
    obtain ⟨c', drained, clean⟩ := @ih { c with
        buf := update c.buf (idx c.head) none
        head := c.head + 1
        sendWaker := c.sendWaker.wake.1 } (r + 1) fuel
      (by simp [head, BitVec.ofNat_add]) (by rw [tail]; congr 1; omega) rest (by omega) (by omega)
    refine ⟨c', ?_, clean⟩
    rw [drain, tryRecv, if_neg differ, stored]
    change (drain fuel _).map _ = _
    rw [drained]
    rfl

theorem drain_idle (hN : N < 2 ^ w) (hc : Counts s) (hs : Slots s) (producer : s.producer = .idle)
    (consumer : s.consumer = .idle) {fuel : Nat} (enough : s.live < fuel) :
    ∃ c, drain fuel s.chan = some ((s.sent.drop s.received.length).map some, c) ∧
      ∀ i, c.buf i = none := by
  have first : s.first = s.received.length := by simp [State.first, consumer, Consumer.taken]
  have items : s.items = s.sent.drop s.received.length := by
    simp [State.items, first, producer, Producer.written]
  have holds := hs.holds
  rw [items, first] at holds
  have hle := hc.le
  have hb := hc.bound
  apply drain_items hN hc.head ?_ holds
  · rw [List.length_drop]
    omega
  · rw [List.length_drop]
    exact enough
  · rw [hc.tail, List.length_drop]
    congr 1
    omega

/-- The channel is a bounded queue in every interleaving of one producer and one consumer:
every step pushes a value, pops one or leaves the queue alone, at most N values are live, a
slot is written only while it holds nothing and read only while it holds the oldest value not
yet taken, what was received is a prefix of what was sent, a `try_send` gives its value back
only if N values were live when it loaded `head`, a `try_recv` returns nothing only if none
was when it loaded `tail`, and dropping the channel
drops exactly what was sent and not received. -/
theorem channel_linearizable (hN : N < 2 ^ w) {as : List (Act T ω)}
    (run : Run step Free init as s) (fits : Fits s) :
    (∀ a t, step s a = some t → ∃ q q' : Fifo T N, q.items = s.sent.drop s.received.length ∧
      q'.items = t.sent.drop t.received.length ∧
      ((∃ v, q.push v = .ok q') ∨
        (∃ v, q.pop = some (v, q') ∧ t.received = s.received ++ [some v]) ∨ q' = q)) ∧
    s.live ≤ N ∧
    (∀ k v tail, s.producer = .write k v tail → s.chan.buf (idx tail) = none) ∧
    (∀ k head, s.consumer = .read k head →
      ∃ v, s.chan.buf (idx head) = some v ∧ s.sent[s.received.length]? = some v) ∧
    s.received <+: s.sent.map some ∧
    (∀ full ∈ s.errs, full = true) ∧
    (∀ empty ∈ s.nones, empty = true) ∧
    (s.producer = .idle → s.consumer = .idle → ∀ fuel, s.live < fuel →
      ∃ c, drain fuel s.chan = some ((s.sent.drop s.received.length).map some, c) ∧
        ∀ i, c.buf i = none) := by
  have hc := run_counts hN run
  have hs := run_slots hN run fits
  refine ⟨fun a t next => ?_, hc.live_le, fun k v tail hp => ?_, fun k head hp => ?_, ?_,
    hc.errs, hc.nones, fun hp hq fuel enough => drain_idle hN hc hs hp hq enough⟩
  · have hc' := counts_step hN hc next
    exact ⟨hc.queue, hc'.queue, rfl, rfl, queue_step hc hs hc' next⟩
  · exact (hs.free hN hc fits hp).2.2
  · obtain ⟨x, rest, _, oldest, _, stored⟩ := hs.stored hc hp
    exact ⟨x, stored, oldest⟩
  · rw [hs.received]
    exact (List.take_prefix _ _).map some

/-- The consumer looks at `tail` before 7 is sent and at `head` after: it returns nothing,
and 7 stays for the drop. -/
def crossed : List (Act Nat Unit) :=
  [.trySend 7, .loadHead, .loadTail, .tryRecv, .loadTailRecv, .write, .storeTail, .loadHeadRecv,
   .wakeRecv, .wakeRecv, .wakeRecv]

theorem channel_linearizable_crossed : ∃ s : State 2 3 Nat Unit,
    Run step Free init crossed s ∧ s.nones = [true] ∧ s.live ≤ 3 ∧
      ∃ c, drain 2 s.chan = some ([some 7], c) := by
  have run : Run step Free (init : State 2 3 Nat Unit) crossed _ := run_of_exec rfl
  obtain ⟨_, live, _, _, _, _, _, drop⟩ := channel_linearizable (by decide) run (.inl (by decide))
  obtain ⟨c, drained, _⟩ := drop rfl rfl 2 (by decide)
  exact ⟨_, run, rfl, live, c, drained⟩

end Px4Rs.ChannelThreads
