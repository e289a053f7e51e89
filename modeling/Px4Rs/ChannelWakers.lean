import Px4Rs.ChannelThreads
import Px4Rs.Parking

/-! `Send::poll` and `Recv::poll` on one channel. Each side parks on an `AtomicWaker` of
its own that the other side wakes after it stored its counter; no wake that a parked side
needs is lost, and a `Send` future keeps its value until it has enqueued it. -/
namespace Px4Rs.ChannelThreads
open Px4Rs.Runs Px4Rs.Ring Px4Rs.AtomicWaker Px4Rs.Channel Function
variable {w N : Nat} {T ω : Type*}

/-! The calls each side has on the two wakers. -/

def Producer.registering : Producer w T ω → Call ω
  | .register _ _ p => .register p
  | .idle | .loadHead _ _ | .loadTail _ _ _ | .write _ _ _ | .storeTail _ _ _ | .wake _ _ => .idle

def Producer.waking : Producer w T ω → Call ω
  | .wake _ p => .wake p
  | .idle | .loadHead _ _ | .loadTail _ _ _ | .write _ _ _ | .storeTail _ _ _
  | .register _ _ _ => .idle

def Consumer.registering : Consumer w T ω → Call ω
  | .register _ p => .register p
  | .idle | .loadTail _ | .loadHead _ _ | .read _ _ | .storeHead _ _ _ | .wake _ _ => .idle

def Consumer.waking : Consumer w T ω → Call ω
  | .wake _ p => .wake p
  | .idle | .loadTail _ | .loadHead _ _ | .read _ _ | .storeHead _ _ _ | .register _ _ => .idle

def Caller.registered : Caller ω → Option ω
  | .direct | .first _ => none
  | .second wk => some wk

/-- The waker a registration will leave in the cell, from its `compare_exchange` on. -/
def registered (wk : ω) : Register ω → Option ω
  | .acquire _ => none
  | .write _ | .release | .drain | .swap _ | .invoke _ | .done => some wk

/-- The waker with which the producer waits for a free slot. -/
def State.sendWaits (s : State w N T ω) : Option ω :=
  match s.producer with
  | .idle => s.sendParked
  | .register wk _ p => registered wk p
  | .loadHead k _ | .loadTail k _ _ => k.registered
  | .write _ _ _ | .storeTail _ _ _ | .wake _ _ => none

/-- The waker with which the consumer waits for a value. -/
def State.recvWaits (s : State w N T ω) : Option ω :=
  match s.consumer with
  | .idle => s.recvParked
  | .register wk p => registered wk p
  | .loadTail k | .loadHead k _ => k.registered
  | .read _ _ | .storeHead _ _ _ | .wake _ _ => none

/-- A slot came free that the producer has not seen. -/
def State.sendNews (s : State w N T ω) : Prop :=
  match s.producer with
  | .idle => (s.chan.tail - s.chan.head).toNat < N
  | .loadTail _ _ head => head ≠ s.chan.head
  | .loadHead _ _ | .write _ _ _ | .storeTail _ _ _ | .wake _ _ | .register _ _ _ => False

/-- A value came that the consumer has not seen. -/
def State.recvNews (s : State w N T ω) : Prop :=
  match s.consumer with
  | .idle => s.chan.head ≠ s.chan.tail
  | .loadHead _ tail => tail ≠ s.chan.tail
  | .loadTail _ | .read _ _ | .storeHead _ _ _ | .wake _ _ | .register _ _ => False

/-- The producer parks on `send_waker`, and the consumer wakes it. -/
def State.sendView (s : State w N T ω) : View Unit ω where
  cell := s.chan.sendWaker
  task := s.producer.registering
  others _ := s.consumer.waking
  invoked := s.sendInvoked
  waits := s.sendWaits
  news := s.sendNews
  owing _ := ∃ k, s.consumer = .wake k .fetchOr

/-- The consumer parks on `recv_waker`, and the producer wakes it. -/
def State.recvView (s : State w N T ω) : View Unit ω where
  cell := s.chan.recvWaker
  task := s.consumer.registering
  others _ := s.producer.waking
  invoked := s.recvInvoked
  waits := s.recvWaits
  news := s.recvNews
  owing _ := ∃ k, s.producer = .wake k .fetchOr

variable {s t : State w N T ω} {a : Act T ω}

theorem registered_of_ne {wk : ω} {p : Register ω} (hp : ∀ x, p ≠ .acquire x) :
    registered wk p = some wk := by
  cases p with
  | acquire x => exact absurd rfl (hp x)
  | write _ | release | drain | swap _ | invoke _ | done => rfl

/-! Where a call on the other side's waker has gone on, this side's calls stay as they are. -/

theorem registering_wake (k : Caller ω) (x : Wake ω) :
    (x.resume (.wake k) .idle : Producer w T ω).registering = .idle := by cases x <;> rfl

theorem waking_register (wk : ω) (v : T) (x : Register ω) :
    (x.resume (.register wk v) (.loadHead (.second wk) v) : Producer w T ω).waking = .idle := by
  cases x <;> rfl

theorem registering_wakeSend (k : Caller ω) (x : Wake ω) :
    (x.resume (.wake k) .idle : Consumer w T ω).registering = .idle := by cases x <;> rfl

theorem waking_registerRecv (wk : ω) (x : Register ω) :
    (x.resume (.register wk) (.loadTail (.second wk)) : Consumer w T ω).waking = .idle := by
  cases x <;> rfl

theorem sendWaits_wake {k : Caller ω} {x : Wake ω}
    (producer : t.producer = x.resume (.wake k) .idle) (parked : t.sendParked = none) :
    t.sendWaits = none := by
  cases x <;> simp [State.sendWaits, producer, Wake.resume, parked]

theorem recvWaits_wake {k : Caller ω} {x : Wake ω}
    (consumer : t.consumer = x.resume (.wake k) .idle) (parked : t.recvParked = none) :
    t.recvWaits = none := by
  cases x <;> simp [State.recvWaits, consumer, Wake.resume, parked]

theorem wake_of_waking {producer : Producer w T ω} {p : Wake ω}
    (h : producer.waking = .wake p) : ∃ k p, producer = .wake k p := by
  cases producer with
  | wake k p => exact ⟨k, p, rfl⟩
  | idle | loadHead _ _ | loadTail _ _ _ | write _ _ _ | storeTail _ _ _ | register _ _ _ => cases h

theorem wakeSend_of_waking {consumer : Consumer w T ω} {p : Wake ω}
    (h : consumer.waking = .wake p) : ∃ k p, consumer = .wake k p := by
  cases consumer with
  | wake k p => exact ⟨k, p, rfl⟩
  | idle | loadTail _ | loadHead _ _ | read _ _ | storeHead _ _ _ | register _ _ => cases h

/-! The producer's calls on `send_waker`. -/

/- The producer registers the waker its poll was given, is not parked while it is busy, and
   the calls on `send_waker` are sound. -/
structure SendSide (s : State w N T ω) : Prop where
  given : ∀ wk v x, s.producer = .register wk v (.acquire x) → x = wk
  parked : s.producer ≠ .idle → s.sendParked = none
  sound : Sound s.sendView

theorem send_registered {wk : ω} {v : T} {p : Register ω} (hp : ∀ x, p ≠ .acquire x)
    (producer : t.producer = p.resume (.register wk v) (.loadHead (.second wk) v)) :
    (∀ wk v x, t.producer ≠ .register wk v (.acquire x)) ∧
      t.sendWaits = some wk ∧ ¬ t.sendNews := by
  cases p with
  | acquire x => exact absurd rfl (hp x)
  | write _ | release | drain | swap _ | invoke _ | done =>
    simp only [Register.resume] at producer
    simp [State.sendWaits, State.sendNews, producer, registered, Caller.registered]

theorem send_register {wk : ω} {v : T} {p : Register ω} (h : SendSide s)
    (hp : s.producer = .register wk v p)
    (cell : t.chan.sendWaker = (p.step s.chan.sendWaker).cell)
    (producer : t.producer = (p.step s.chan.sendWaker).pc.resume (.register wk v)
      (.loadHead (.second wk) v))
    (consumer : t.consumer = s.consumer) (parked : t.sendParked = s.sendParked)
    (invoked : t.sendInvoked = s.sendInvoked ++ (p.step s.chan.sendWaker).invoked.toList) :
    SendSide t := by
  obtain ⟨past, waits, news⟩ := send_registered (Register.step_ne_acquire _ p) producer
  refine ⟨fun wk v x hx => absurd hx (past wk v x),
    fun _ => parked.trans (h.parked (by simp [hp])), ?_⟩
  apply h.sound.task_register (p := p)
  · simp [State.sendView, hp, Producer.registering]
  · exact cell
  · rw [State.sendView, producer]
    exact Register.apply_resume Producer.registering _ _ _
  · simp [State.sendView, consumer]
  · exact invoked
  · exact waits
  · rintro x rfl
    exact h.given wk v x hp
  · intro past
    simp only [State.sendView, State.sendWaits, hp]
    exact registered_of_ne past
  · exact news

theorem send_producer (h : SendSide s) (hp : s.producer.registering = .idle)
    (hq : t.producer.registering = .idle ∨ ∃ wk v, t.producer = .register wk v (.acquire wk))
    (cell : t.chan.sendWaker = s.chan.sendWaker) (consumer : t.consumer = s.consumer)
    (parked : t.producer ≠ .idle → t.sendParked = none)
    (waits : t.sendWaits ≠ none → t.sendWaits = s.sendWaits ∧ t.sendInvoked = s.sendInvoked)
    (news : t.sendWaits ≠ none → t.sendNews → s.sendNews) : SendSide t := by
  refine ⟨fun wk v x hx => ?_, parked, ?_⟩
  · obtain hq | ⟨wk, v, hq⟩ := hq
    · rw [hx] at hq
      cases hq
    · rw [hx] at hq
      cases hq
      rfl
  apply h.sound.task_move (q := t.producer.registering) hp
  · obtain hq | ⟨wk, v, hq⟩ := hq
    · exact .inl hq
    · refine .inr ⟨wk, by rw [hq]; rfl, ?_⟩
      simp [State.sendView, State.sendWaits, hq, registered]
  · exact cell
  · rfl
  · simp [State.sendView, consumer]
  · exact waits
  · exact news
  · simp [State.sendView, consumer]

theorem send_consumer (h : SendSide s) (hc : s.consumer.waking = .idle)
    (hq : t.consumer.waking = .idle ∧ t.chan.head = s.chan.head ∨
      ∃ k, t.consumer = .wake k .fetchOr)
    (cell : t.chan.sendWaker = s.chan.sendWaker) (producer : t.producer = s.producer)
    (tail : t.chan.tail = s.chan.tail) (parked : t.sendParked = s.sendParked)
    (invoked : t.sendInvoked = s.sendInvoked) : SendSide t := by
  refine ⟨producer ▸ h.given, producer ▸ parked ▸ h.parked, ?_⟩
  apply h.sound.other_move (c := ()) (q := t.consumer.waking) hc
  · obtain hq | ⟨k, hq⟩ := hq
    · exact .inl hq.1
    · exact .inr (by rw [hq]; rfl)
  · exact cell
  · simp [State.sendView, producer]
  · funext c
    simp [State.sendView]
  · simp only [State.sendView, State.sendWaits, producer, parked]
  · exact invoked
  · obtain hq | hq := hq
    · simp only [State.sendView, State.sendNews, producer, tail, hq.2]
      exact .inl
    · exact fun _ => .inr hq
  · rintro _ _ ⟨k, hk⟩
    rw [hk] at hc
    cases hc

theorem send_wake {k : Caller ω} {p : Wake ω} (h : SendSide s) (hc : s.consumer = .wake k p)
    (cell : t.chan.sendWaker = (p.step s.chan.sendWaker).cell)
    (consumer : t.consumer = (p.step s.chan.sendWaker).pc.resume (.wake k) .idle)
    (head : t.chan.head = s.chan.head) (tail : t.chan.tail = s.chan.tail)
    (producer : t.producer = s.producer) (parked : t.sendParked = s.sendParked)
    (invoked : t.sendInvoked = s.sendInvoked ++ (p.step s.chan.sendWaker).invoked.toList) :
    SendSide t := by
  refine ⟨producer ▸ h.given, producer ▸ parked ▸ h.parked, ?_⟩
  apply h.sound.other_wake (c := ()) (p := p)
  · simp [State.sendView, hc, Consumer.waking]
  · exact cell
  · simp [State.sendView, producer]
  · funext c
    simp only [State.sendView, consumer, update_self]
    exact Wake.apply_resume Consumer.waking _ _ _
  · simp only [State.sendView, State.sendWaits, producer, parked]
  · exact invoked
  · simp only [State.sendView, State.sendNews, producer, head, tail, imp_self]
  · rintro d ⟨k', hk⟩
    rw [hc] at hk
    cases hk
    exact .inr ⟨rfl, rfl⟩

/-! The consumer's calls on `recv_waker`. -/

/-- The same for the consumer and `recv_waker`. -/
structure RecvSide (s : State w N T ω) : Prop where
  given : ∀ wk x, s.consumer = .register wk (.acquire x) → x = wk
  parked : s.consumer ≠ .idle → s.recvParked = none
  sound : Sound s.recvView

theorem recv_registered {wk : ω} {p : Register ω} (hp : ∀ x, p ≠ .acquire x)
    (consumer : t.consumer = p.resume (.register wk) (.loadTail (.second wk))) :
    (∀ wk x, t.consumer ≠ .register wk (.acquire x)) ∧
      t.recvWaits = some wk ∧ ¬ t.recvNews := by
  cases p with
  | acquire x => exact absurd rfl (hp x)
  | write _ | release | drain | swap _ | invoke _ | done =>
    simp only [Register.resume] at consumer
    simp [State.recvWaits, State.recvNews, consumer, registered, Caller.registered]

theorem recv_register {wk : ω} {p : Register ω} (h : RecvSide s)
    (hc : s.consumer = .register wk p)
    (cell : t.chan.recvWaker = (p.step s.chan.recvWaker).cell)
    (consumer : t.consumer = (p.step s.chan.recvWaker).pc.resume (.register wk)
      (.loadTail (.second wk)))
    (producer : t.producer = s.producer) (parked : t.recvParked = s.recvParked)
    (invoked : t.recvInvoked = s.recvInvoked ++ (p.step s.chan.recvWaker).invoked.toList) :
    RecvSide t := by
  obtain ⟨past, waits, news⟩ := recv_registered (Register.step_ne_acquire _ p) consumer
  refine ⟨fun wk x hx => absurd hx (past wk x),
    fun _ => parked.trans (h.parked (by simp [hc])), ?_⟩
  apply h.sound.task_register (p := p)
  · simp [State.recvView, hc, Consumer.registering]
  · exact cell
  · rw [State.recvView, consumer]
    exact Register.apply_resume Consumer.registering _ _ _
  · simp [State.recvView, producer]
  · exact invoked
  · exact waits
  · rintro x rfl
    exact h.given wk x hc
  · intro past
    simp only [State.recvView, State.recvWaits, hc]
    exact registered_of_ne past
  · exact news

theorem recv_consumer (h : RecvSide s) (hc : s.consumer.registering = .idle)
    (hq : t.consumer.registering = .idle ∨ ∃ wk, t.consumer = .register wk (.acquire wk))
    (cell : t.chan.recvWaker = s.chan.recvWaker) (producer : t.producer = s.producer)
    (parked : t.consumer ≠ .idle → t.recvParked = none)
    (waits : t.recvWaits ≠ none → t.recvWaits = s.recvWaits ∧ t.recvInvoked = s.recvInvoked)
    (news : t.recvWaits ≠ none → t.recvNews → s.recvNews) : RecvSide t := by
  refine ⟨fun wk x hx => ?_, parked, ?_⟩
  · obtain hq | ⟨wk, hq⟩ := hq
    · rw [hx] at hq
      cases hq
    · rw [hx] at hq
      cases hq
      rfl
  apply h.sound.task_move (q := t.consumer.registering) hc
  · obtain hq | ⟨wk, hq⟩ := hq
    · exact .inl hq
    · refine .inr ⟨wk, by rw [hq]; rfl, ?_⟩
      simp [State.recvView, State.recvWaits, hq, registered]
  · exact cell
  · rfl
  · simp [State.recvView, producer]
  · exact waits
  · exact news
  · simp [State.recvView, producer]

theorem recv_producer (h : RecvSide s) (hp : s.producer.waking = .idle)
    (hq : t.producer.waking = .idle ∧ t.chan.tail = s.chan.tail ∨
      ∃ k, t.producer = .wake k .fetchOr)
    (cell : t.chan.recvWaker = s.chan.recvWaker) (consumer : t.consumer = s.consumer)
    (head : t.chan.head = s.chan.head) (parked : t.recvParked = s.recvParked)
    (invoked : t.recvInvoked = s.recvInvoked) : RecvSide t := by
  refine ⟨consumer ▸ h.given, consumer ▸ parked ▸ h.parked, ?_⟩
  apply h.sound.other_move (c := ()) (q := t.producer.waking) hp
  · obtain hq | ⟨k, hq⟩ := hq
    · exact .inl hq.1
    · exact .inr (by rw [hq]; rfl)
  · exact cell
  · simp [State.recvView, consumer]
  · funext c
    simp [State.recvView]
  · simp only [State.recvView, State.recvWaits, consumer, parked]
  · exact invoked
  · obtain hq | hq := hq
    · simp only [State.recvView, State.recvNews, consumer, head, hq.2]
      exact .inl
    · exact fun _ => .inr hq
  · rintro _ _ ⟨k, hk⟩
    rw [hk] at hp
    cases hp

theorem recv_wake {k : Caller ω} {p : Wake ω} (h : RecvSide s) (hp : s.producer = .wake k p)
    (cell : t.chan.recvWaker = (p.step s.chan.recvWaker).cell)
    (producer : t.producer = (p.step s.chan.recvWaker).pc.resume (.wake k) .idle)
    (head : t.chan.head = s.chan.head) (tail : t.chan.tail = s.chan.tail)
    (consumer : t.consumer = s.consumer) (parked : t.recvParked = s.recvParked)
    (invoked : t.recvInvoked = s.recvInvoked ++ (p.step s.chan.recvWaker).invoked.toList) :
    RecvSide t := by
  refine ⟨consumer ▸ h.given, consumer ▸ parked ▸ h.parked, ?_⟩
  apply h.sound.other_wake (c := ()) (p := p)
  · simp [State.recvView, hp, Producer.waking]
  · exact cell
  · simp [State.recvView, consumer]
  · funext c
    simp only [State.recvView, producer, update_self]
    exact Wake.apply_resume Producer.waking _ _ _
  · simp only [State.recvView, State.recvWaits, consumer, parked]
  · exact invoked
  · simp only [State.recvView, State.recvNews, consumer, head, tail, imp_self]
  · rintro d ⟨k', hk⟩
    rw [hp] at hk
    cases hk
    exact .inr ⟨rfl, rfl⟩

theorem sendSide_init : SendSide (init : State w N T ω) := by
  refine ⟨by simp [init], by simp [init], ?_⟩
  exact .fresh rfl rfl (fun _ => rfl) rfl

theorem recvSide_init : RecvSide (init : State w N T ω) := by
  refine ⟨by simp [init], by simp [init], ?_⟩
  exact .fresh rfl rfl (fun _ => rfl) rfl

variable [NeZero N]

theorem sendSide_step (h : SendSide s) (next : step s a = some t) : SendSide t := by
  cases steps_of_step next with
  | trySend hp | pollSend hp _ =>
    exact send_producer h (by rw [hp]; rfl) (.inl rfl) rfl rfl (by simp)
      (by simp [State.sendWaits, Caller.registered])
      (by simp [State.sendWaits, Caller.registered])
  | send | dropSend => exact ⟨h.given, h.parked, h.sound⟩
  | loadHead hp =>
    exact send_producer h (by rw [hp]; rfl) (.inl rfl) rfl rfl
      (fun _ => h.parked (by simp [hp])) (by simp [State.sendWaits, hp])
      (by simp [State.sendNews])
  | @sendFull k v head hp full =>
    have parked : s.sendParked = none := h.parked (by simp [hp])
    cases k with
    | direct =>
      exact send_producer h (by rw [hp]; rfl) (.inl rfl) rfl rfl (fun _ => parked)
        (by simp [State.sendWaits, State.sendFull, parked])
        (by simp [State.sendWaits, State.sendFull, parked])
    | first wk =>
      exact send_producer h (by rw [hp]; rfl) (.inr ⟨wk, v, rfl⟩) rfl rfl (fun _ => parked)
        (by simp [State.sendWaits, State.sendFull, registered])
        (by simp [State.sendWaits, State.sendFull, registered])
    | second wk =>
      -- parked although a slot is free: the head had moved since it was loaded
      refine send_producer h (by rw [hp]; rfl) (.inl rfl) rfl rfl (by simp [State.sendFull])
        (by simp [State.sendWaits, State.sendFull, hp, Caller.registered]) fun _ news => ?_
      simp only [State.sendNews, hp]
      rintro rfl
      exact absurd full (Nat.not_le.mpr news)
  | loadTail hp _ | write hp | storeTail hp =>
    exact send_producer h (by rw [hp]; rfl) (.inl rfl) rfl rfl
      (fun _ => h.parked (by simp [hp])) (by simp [State.sendWaits]) (by simp [State.sendWaits])
  | wakeRecv hp =>
    have parked : s.sendParked = none := h.parked (by simp [hp])
    refine send_producer h (by rw [hp]; rfl) (.inl (registering_wake _ _)) rfl rfl
      (fun _ => parked) ?_ ?_ <;>
    · exact absurd (sendWaits_wake rfl parked)
  | registerSend hp => exact send_register h hp rfl rfl rfl rfl rfl
  | tryRecv hc | pollRecv hc | loadTailRecv hc | loadHeadRecv hc _ | read hc =>
    exact send_consumer h (by rw [hc]; rfl) (.inl ⟨rfl, rfl⟩) rfl rfl rfl rfl rfl
  | @recvEmpty k tail hc _ =>
    cases k <;> exact send_consumer h (by rw [hc]; rfl) (.inl ⟨rfl, rfl⟩) rfl rfl rfl rfl rfl
  | storeHead hc => exact send_consumer h (by rw [hc]; rfl) (.inr ⟨_, rfl⟩) rfl rfl rfl rfl rfl
  | wakeSend hc => exact send_wake h hc rfl rfl rfl rfl rfl rfl rfl
  | registerRecv hc =>
    exact send_consumer h (by rw [hc]; rfl) (.inl ⟨waking_registerRecv _ _, rfl⟩) rfl rfl rfl rfl
      rfl

theorem recvSide_step (h : RecvSide s) (next : step s a = some t) : RecvSide t := by
  cases steps_of_step next with
  | tryRecv hc | pollRecv hc =>
    exact recv_consumer h (by rw [hc]; rfl) (.inl rfl) rfl rfl (by simp)
      (by simp [State.recvWaits, Caller.registered]) (by simp [State.recvNews])
  | loadTailRecv hc =>
    exact recv_consumer h (by rw [hc]; rfl) (.inl rfl) rfl rfl
      (fun _ => h.parked (by simp [hc])) (by simp [State.recvWaits, hc])
      (by simp [State.recvNews])
  | @recvEmpty k tail hc empty =>
    have parked : s.recvParked = none := h.parked (by simp [hc])
    cases k with
    | direct =>
      exact recv_consumer h (by rw [hc]; rfl) (.inl rfl) rfl rfl (fun _ => parked)
        (by simp [State.recvWaits, State.recvEmpty, parked])
        (by simp [State.recvWaits, State.recvEmpty, parked])
    | first wk =>
      exact recv_consumer h (by rw [hc]; rfl) (.inr ⟨wk, rfl⟩) rfl rfl (fun _ => parked)
        (by simp [State.recvWaits, State.recvEmpty, registered])
        (by simp [State.recvWaits, State.recvEmpty, registered])
    | second wk =>
      -- parked although a value is there: the tail had moved since it was loaded
      refine recv_consumer h (by rw [hc]; rfl) (.inl rfl) rfl rfl (by simp [State.recvEmpty])
        (by simp [State.recvWaits, State.recvEmpty, hc, Caller.registered]) fun _ news => ?_
      simp only [State.recvNews, hc]
      exact empty ▸ news
  | loadHeadRecv hc _ | read hc | storeHead hc =>
    exact recv_consumer h (by rw [hc]; rfl) (.inl rfl) rfl rfl
      (fun _ => h.parked (by simp [hc])) (by simp [State.recvWaits]) (by simp [State.recvWaits])
  | wakeSend hc =>
    have parked : s.recvParked = none := h.parked (by simp [hc])
    refine recv_consumer h (by rw [hc]; rfl) (.inl (registering_wakeSend _ _)) rfl rfl
      (fun _ => parked) ?_ ?_ <;>
    · exact absurd (recvWaits_wake rfl parked)
  | registerRecv hc => exact recv_register h hc rfl rfl rfl rfl rfl
  | trySend hp | pollSend hp _ | loadHead hp | loadTail hp _ | write hp =>
    exact recv_producer h (by rw [hp]; rfl) (.inl ⟨rfl, rfl⟩) rfl rfl rfl rfl rfl
  | send | dropSend => exact ⟨h.given, h.parked, h.sound⟩
  | @sendFull k v head hp _ =>
    cases k <;> exact recv_producer h (by rw [hp]; rfl) (.inl ⟨rfl, rfl⟩) rfl rfl rfl rfl rfl
  | storeTail hp => exact recv_producer h (by rw [hp]; rfl) (.inr ⟨_, rfl⟩) rfl rfl rfl rfl rfl
  | wakeRecv hp => exact recv_wake h hp rfl rfl rfl rfl rfl rfl rfl
  | registerSend hp =>
    exact recv_producer h (by rw [hp]; rfl) (.inl ⟨waking_register _ _ _, rfl⟩) rfl rfl rfl rfl
      rfl

/-! The value of a `Send` future. -/

/-- It owns its value and has enqueued nothing. -/
def SendFuture.Pending (f : SendFuture T) : Prop :=
  f.ready = false ∧ f.value = some f.given ∧ f.enqueued = []

/-- It has enqueued its value once. -/
def SendFuture.Resolved (f : SendFuture T) : Prop :=
  f.ready = true ∧ f.enqueued = [f.given]

/-- No poll is in progress. -/
def Settled (future : Option (SendFuture T)) : Prop :=
  ∀ f, future = some f → f.Pending ∨ f.Resolved

/-- The poll in progress holds the value. -/
def Holding (future : Option (SendFuture T)) (v : T) : Prop :=
  ∃ f, future = some f ∧ f.ready = false ∧ v = f.given ∧ f.enqueued = []

/-- The poll in progress has enqueued it. -/
def Enqueued (future : Option (SendFuture T)) : Prop :=
  ∃ f, future = some f ∧ f.ready = false ∧ f.enqueued = [f.given]

def Caller.Holds (future : Option (SendFuture T)) (v : T) : Caller ω → Prop
  | .direct => Settled future
  | .first _ | .second _ => Holding future v

def Caller.Done (future : Option (SendFuture T)) : Caller ω → Prop
  | .direct => Settled future
  | .first _ | .second _ => Enqueued future

/-- Where the value of the future is while the producer is here. -/
def Producer.Keeps (future : Option (SendFuture T)) : Producer w T ω → Prop
  | .idle => Settled future
  | .loadHead k v | .loadTail k v _ | .write k v _ | .storeTail k v _ => k.Holds future v
  | .register _ v _ => Holding future v
  | .wake k _ => k.Done future

theorem enqueue_keeps {future : Option (SendFuture T)} {v : T} {k : Caller ω}
    (h : k.Holds future v) : k.Done (future.map fun f => f.enqueue v k) := by
  cases k with
  | direct =>
    change Settled (future.map id)
    rwa [Option.map_id]
  | first wk | second wk =>
    obtain ⟨f, rfl, ready, rfl, enqueued⟩ := h
    exact ⟨_, rfl, ready, by simp [SendFuture.enqueue, enqueued]⟩

theorem resolve_keeps {future : Option (SendFuture T)} {k : Caller ω} (h : k.Done future) :
    Settled (future.map fun f => f.resolve k) := by
  cases k with
  | direct =>
    change Settled (future.map id)
    rwa [Option.map_id]
  | first wk | second wk =>
    obtain ⟨f, rfl, _, enqueued⟩ := h
    rintro _ ⟨⟩
    exact .inr ⟨rfl, enqueued⟩

omit [NeZero N] in
/-- A `try_send` that gives the value back leaves it to the caller, the second one of a poll
to the future. -/
theorem sendFull_keeps {v : T} {k : Caller ω} (h : k.Holds s.future v) :
    (s.sendFull v k).producer.Keeps (s.sendFull v k).future := by
  cases k with
  | direct | first wk => exact h
  | second wk =>
    obtain ⟨f, future, ready, rfl, enqueued⟩ := h
    simp only [State.sendFull, future, Producer.Keeps]
    rintro _ ⟨⟩
    exact .inl ⟨ready, rfl, enqueued⟩

theorem keeps_step (keeps : s.producer.Keeps s.future) (next : step s a = some t) :
    t.producer.Keeps t.future := by
  cases steps_of_step next with
  | trySend hp | loadHead hp | loadTail hp _ | write hp =>
    rw [hp] at keeps
    exact keeps
  | send hp _ =>
    simp only [hp, Producer.Keeps]
    rintro _ ⟨⟩
    exact .inl ⟨rfl, rfl, rfl⟩
  | pollSend hp future =>
    rw [hp] at keeps
    obtain ⟨_, value, fresh⟩ | ⟨ready, _⟩ := keeps _ future
    · exact ⟨_, rfl, rfl, Option.some.inj value, fresh⟩
    · cases ready
  | dropSend hp => simp [hp, Producer.Keeps, Settled]
  | sendFull hp _ =>
    rw [hp] at keeps
    exact sendFull_keeps keeps
  | storeTail hp =>
    rw [hp] at keeps
    exact enqueue_keeps keeps
  | @wakeRecv k p hp =>
    rw [hp] at keeps
    cases (p.step s.chan.recvWaker).pc with
    | done => exact resolve_keeps keeps
    | fetchOr | takeSlot | fetchAnd _ | invoke _ => exact keeps
  | @registerSend wk v p hp =>
    rw [hp] at keeps
    cases (p.step s.chan.sendWaker).pc <;> exact keeps
  | @recvEmpty k => cases k <;> exact keeps
  | tryRecv | pollRecv | loadTailRecv | loadHeadRecv | read | storeHead | wakeSend
  | registerRecv => exact keeps

theorem Settled.resolved {future : Option (SendFuture T)} {f : SendFuture T}
    (h : Settled future) (hf : future = some f) (ready : f.ready = true) :
    f.enqueued = [f.given] := by
  obtain ⟨waiting, _⟩ | ⟨_, enqueued⟩ := h f hf
  · rw [ready] at waiting
    cases waiting
  · exact enqueued

omit [NeZero N] in
theorem Producer.Keeps.resolved {p : Producer w T ω} {future : Option (SendFuture T)}
    {f : SendFuture T} (h : p.Keeps future) (hf : future = some f) (ready : f.ready = true) :
    f.enqueued = [f.given] := by
  have held {v : T} (h : Holding future v) : f.enqueued = [f.given] := by
    obtain ⟨g, hg, waiting, _⟩ := h
    rw [hf] at hg
    cases hg
    rw [ready] at waiting
    cases waiting
  cases p with
  | idle => exact Settled.resolved h hf ready
  | register _ v _ => exact held h
  | loadHead k v | loadTail k v _ | write k v _ | storeTail k v _ =>
    cases k with
    | direct => exact Settled.resolved h hf ready
    | first _ | second _ => exact held h
  | wake k _ =>
    cases k with
    | direct => exact Settled.resolved h hf ready
    | first _ | second _ =>
      obtain ⟨g, hg, _, enqueued⟩ := h
      rw [hf] at hg
      cases hg
      exact enqueued

structure Inv (s : State w N T ω) : Prop where
  counts : Counts s
  send : SendSide s
  recv : RecvSide s
  keeps : s.producer.Keeps s.future

theorem inv_step (hN : N < 2 ^ w) (h : Inv s) (next : step s a = some t) : Inv t :=
  ⟨counts_step hN h.counts next, sendSide_step h.send next, recvSide_step h.recv next,
    keeps_step h.keeps next⟩

theorem run_inv {as : List (Act T ω)} (hN : N < 2 ^ w) (run : Run step Free init as s) : Inv s :=
  run.invariant ⟨counts_init, sendSide_init, recvSide_init, by simp [init, Producer.Keeps, Settled]⟩
    fun _ _ _ h _ next => inv_step hN h next

/-- Nobody is stuck. Where the last `Recv::poll` returned Pending and a value is live, its
waker was invoked since that poll began or the producer is past its tail store and in
`recv_waker.wake()`; where the last `Send::poll` returned Pending and a slot is free, its
waker was invoked or the consumer is in `send_waker.wake()`. A `Send` future that resolved
has enqueued its value once, and one that is between two polls and has not resolved owns it
and has enqueued nothing. -/
theorem channel_strands_nobody (hN : N < 2 ^ w) {as : List (Act T ω)}
    (run : Run step Free init as s) :
    (∀ wk, s.consumer = .idle → s.recvParked = some wk → 0 < s.live →
      wk ∈ s.recvInvoked ∨ ∃ k p, s.producer = .wake k p) ∧
    (∀ wk, s.producer = .idle → s.sendParked = some wk → s.live < N →
      wk ∈ s.sendInvoked ∨ ∃ k p, s.consumer = .wake k p) ∧
    (∀ f, s.future = some f → f.ready = true → f.enqueued = [f.given]) ∧
    (∀ f, s.future = some f → s.producer = .idle → f.ready = false →
      f.value = some f.given ∧ f.enqueued = []) := by
  have h := run_inv hN run
  have hle := h.counts.le
  have hb := h.counts.bound
  refine ⟨fun wk hc parked live => ?_, fun wk hp parked room => ?_, fun f hf ready => ?_,
    fun f hf hp ready => ?_⟩
  · have news : s.recvView.news := by
      simp only [State.recvView, State.recvNews, hc, h.counts.head, h.counts.tail]
      intro same
      have := (eq_words hN hle hb).mp same
      simp only [State.live] at live
      omega
    obtain done | ⟨_, owes | wakes⟩ := h.recv.sound.parked
      (by simp [State.recvView, hc, Consumer.registering])
      (by simpa [State.recvView, State.recvWaits, hc] using parked) news
    · exact .inl done
    · obtain ⟨k, hk⟩ := owes
      exact .inr ⟨k, _, hk⟩
    · obtain ⟨p, hp⟩ := wakes
      exact .inr (wake_of_waking hp)
  · have news : s.sendView.news := by
      simp only [State.sendView, State.sendNews, hp, h.counts.head, h.counts.tail,
        sub_words hN hle hb]
      exact room
    obtain done | ⟨_, owes | wakes⟩ := h.send.sound.parked
      (by simp [State.sendView, hp, Producer.registering])
      (by simpa [State.sendView, State.sendWaits, hp] using parked) news
    · exact .inl done
    · obtain ⟨k, hk⟩ := owes
      exact .inr ⟨k, _, hk⟩
    · obtain ⟨p, hc⟩ := wakes
      exact .inr (wakeSend_of_waking hc)
  · exact h.keeps.resolved hf ready
  · have keeps := h.keeps
    rw [hp] at keeps
    obtain ⟨_, owned⟩ | ⟨resolved, _⟩ := keeps f hf
    · exact owned
    · rw [ready] at resolved
      cases resolved

/-- Two sends on a channel with one slot: the second parks, and the consumer then takes the
first value. -/
def backpressure : List (Act Nat Nat) :=
  [.send 1, .pollSend 5, .loadHead, .loadTail, .write, .storeTail, .wakeRecv, .wakeRecv, .wakeRecv,
   .dropSend, .send 2, .pollSend 6, .loadHead, .loadTail, .registerSend, .registerSend,
   .registerSend, .loadHead, .loadTail, .pollRecv 7, .loadTailRecv, .loadHeadRecv, .read,
   .storeHead]

theorem channel_strands_nobody_full : ∃ s : State 2 1 Nat Nat,
    Run step Free init backpressure s ∧ s.sendParked = some 6 ∧ s.live < 1 ∧
      (6 ∈ s.sendInvoked ∨ ∃ k p, s.consumer = .wake k p) := by
  have run : Run step Free (init : State 2 1 Nat Nat) backpressure _ := run_of_exec rfl
  obtain ⟨_, sender, _⟩ := channel_strands_nobody (by decide) run
  exact ⟨_, run, rfl, by decide, sender 6 rfl rfl (by decide)⟩

end Px4Rs.ChannelThreads
