import Px4Rs.Broker
import Px4Rs.Parking
import Px4Rs.Runs

/-! One task polls `Subscription::recv` while any number of publishers run `advertise` and
`publish` on the host broker. A block under a lock is one step, except that `notify` keeps
the callbacks lock while it calls one callback after the other. -/
namespace Px4Rs.SubscriptionRecv
open Px4Rs.Runs Px4Rs.Broker Px4Rs.AtomicWaker Function
variable {κ ω : Type*} [DecidableEq κ]

/-- The `ctx` of this subscription; the topic's other subscribers have other ones. -/
def self : Nat := 0

/-- The next operation of a publisher. In `notify` it carries the callbacks still to call. -/
inductive Publisher (ω : Type*) where
  | idle
  | write (payload : List (BitVec 8))
  | bump
  | lock
  | dispatch (rest : List Nat)
  | wake (rest : List Nat) (p : Wake ω)

/-- The two `try_recv` of a poll, with the waker the poll was given. -/
inductive Attempt (ω : Type*) where
  | first (w : ω)
  | second (w : ω)

inductive Poll (ω : Type*) where
  | idle
  | ensureRegistered (k : Attempt ω)
  | subCbRegister (k : Attempt ω) (cb : SubCb)
  | setCb (k : Attempt ω) (cb : SubCb)
  | readSeq (k : Attempt ω)
  | copy (k : Attempt ω) (cur : Nat)
  | register (w : ω) (p : Register ω)

/- `lock` is the publisher that holds the callbacks lock. `parked` is the waker of the last
   poll when that poll returned Pending, and `invoked` the wakers invoked since it began. -/
structure State (κ ω : Type*) where
  topic : Topic
  lock : Option κ
  publisher : κ → Publisher ω
  cb : Option SubCb
  waker : AtomicWaker ω
  poll : Poll ω
  parked : Option ω
  invoked : List ω

def init (size : Nat) : State κ ω where
  topic := Topic.new size
  lock := none
  publisher := fun _ => .idle
  cb := none
  waker := AtomicWaker.new
  poll := .idle
  parked := none
  invoked := []

inductive Act (κ ω : Type*) where
  | advertise (c : κ) (initial : List (BitVec 8))
  | publish (c : κ) (payload : List (BitVec 8))
  | write (c : κ)
  | bump (c : κ)
  | lock (c : κ)
  | call (c : κ)
  | wake (c : κ)
  | subscribe (ctx : Nat)
  | unsubscribe (ctx : Nat)
  | poll (w : ω)
  | ensureRegistered
  | subCbRegister
  | setCb
  | readSeq
  | copy
  | register

@[simps] def State.goto (s : State κ ω) (c : κ) (q : Publisher ω) : State κ ω :=
  { s with publisher := update s.publisher c q }

/-- The shared effects of one operation of `register` or `wake`. -/
@[simps] def State.after {π : Type*} (s : State κ ω) (x : After ω π) : State κ ω :=
  { s with waker := x.cell, invoked := s.invoked ++ x.invoked.toList }

/-- What a poll does when a `try_recv` has found nothing. -/
def State.notUpdated (s : State κ ω) : Attempt ω → State κ ω
  | .first w => { s with poll := .register w (.acquire w) }
  | .second w => { s with poll := .idle, parked := some w }

/-- One block of `advertise`, `publish`, `notify` or `Recv::poll`. -/
def step (s : State κ ω) : Act κ ω → Option (State κ ω)
  | .advertise c payload | .publish c payload =>
    match s.publisher c with
    | .idle => some (s.goto c (.write payload))
    | _ => none
  | .write c =>
    match s.publisher c with
    | .write payload => some { s.goto c .bump with topic := s.topic.write payload }
    | _ => none
  | .bump c =>
    match s.publisher c with
    | .bump => some { s.goto c .lock with topic := s.topic.bump }
    | _ => none
  | .lock c =>
    match s.publisher c, s.lock with
    | .lock, none => some { s.goto c (.dispatch s.topic.notify) with lock := some c }
    | _, _ => none
  | .call c =>
    match s.publisher c with
    | .dispatch [] => some { s.goto c .idle with lock := none }
    | .dispatch (ctx :: rest) =>
      if ctx = self then some (s.goto c (.wake rest .fetchOr)) else some (s.goto c (.dispatch rest))
    | _ => none
  | .wake c =>
    match s.publisher c with
    | .wake rest p =>
      let x := p.step s.waker
      some { s.after x with
        publisher := update s.publisher c (x.pc.resume (.wake rest) (.dispatch rest)) }
    | _ => none
  -- the other subscribers of the topic come and go
  | .subscribe ctx =>
    if ctx ≠ self ∧ s.lock.isNone then
      some { s with topic := { s.topic with callbacks := s.topic.callbacks ++ [ctx] } }
    else none
  | .unsubscribe ctx =>
    if ctx ≠ self ∧ s.lock.isNone then
      some { s with topic := { s.topic with callbacks := s.topic.callbacks.filter (· ≠ ctx) } }
    else none
  | .poll w =>
    match s.poll with
    | .idle => some { s with poll := .ensureRegistered (.first w), parked := none, invoked := [] }
    | _ => none
  | .ensureRegistered =>
    match s.poll with
    | .ensureRegistered k =>
      match s.cb with
      | some _ => some { s with poll := .readSeq k }
      | none => some { s with poll := .subCbRegister k (SubCb.new s.topic self) }
    | _ => none
  | .subCbRegister =>
    match s.poll, s.lock with
    | .subCbRegister k cb, none =>
      some { s with
        poll := .setCb k cb
        topic := { s.topic with callbacks := s.topic.callbacks ++ [cb.ctx] } }
    | _, _ => none
  | .setCb =>
    match s.poll with
    | .setCb k cb => some { s with poll := .readSeq k, cb := some cb }
    | _ => none
  | .readSeq =>
    match s.poll with
    | .readSeq k => some { s with poll := .copy k s.topic.seq }
    | _ => none
  | .copy =>
    match s.poll, s.cb with
    | .copy k cur, some cb =>
      match cb.copyRecord s.topic cur with
      | some (_, cb) => some { s with cb := some cb, poll := .idle, parked := none }
      | none => some (s.notUpdated k)
    | _, _ => none
  | .register =>
    match s.poll with
    | .register w p =>
      let x := p.step s.waker
      some { s.after x with
        poll := x.pc.resume (.register w) (.ensureRegistered (.second w)) }
    | _ => none

/-! What the run shows of itself: the calls on the `AtomicWaker`, and who owes a wake. -/

def Publisher.call : Publisher ω → Call ω
  | .wake _ p => .wake p
  | _ => .idle

/-- The publisher has bumped `seq` and has this subscription's callback still to call. -/
def Publisher.owes : Publisher ω → Prop
  | .lock => True
  | .dispatch rest => self ∈ rest
  | .wake rest p => p = .fetchOr ∨ self ∈ rest
  | _ => False

/-- Between the bump and the end of `notify`. -/
def Publisher.notifying : Publisher ω → Bool
  | .lock | .dispatch _ | .wake _ _ => true
  | _ => false

def Poll.call : Poll ω → Call ω
  | .register _ p => .register p
  | _ => .idle

def Attempt.waits : Attempt ω → Option ω
  | .first _ => none
  | .second w => some w

/-- The waker of a poll that has registered it, until the next poll begins. -/
def State.waits (s : State κ ω) : Option ω :=
  match s.poll with
  | .idle => s.parked
  | .ensureRegistered k | .subCbRegister k _ | .setCb k _ | .readSeq k | .copy k _ => k.waits
  | .register _ (.acquire _) => none
  | .register w _ => some w

/-- The topic has moved on since the last look: the one a parked poll ended with, or the
one this poll is comparing. -/
def State.news (s : State κ ω) : Prop :=
  match s.poll with
  | .idle => ∃ cb, s.cb = some cb ∧ cb.lastSeen < s.topic.seq
  | .copy _ cur => cur < s.topic.seq
  | _ => False

def State.view (s : State κ ω) : View κ ω where
  cell := s.waker
  task := s.poll.call
  others c := (s.publisher c).call
  invoked := s.invoked
  waits := s.waits
  news := s.news
  owing c := (s.publisher c).owes

/-- Positions of a poll that has its callback in the list. -/
def Poll.registered : Poll ω → Bool
  | .idle | .ensureRegistered _ | .subCbRegister _ _ => false
  | _ => true

/- The poll registers the waker it was given, the calls on the cell are sound, and the
   callback is in the list before anything relies on it. -/
structure Inv (s : State κ ω) : Prop where
  given : ∀ w v, s.poll = .register w (.acquire v) → v = w
  fresh : ∀ k cb, s.poll = .subCbRegister k cb → cb.ctx = self
  listed : s.cb ≠ none ∨ s.poll.registered = true ∨ s.waits ≠ none →
    self ∈ s.topic.callbacks
  sound : Sound s.view

variable {s t : State κ ω} {a : Act κ ω} {w : ω}

omit [DecidableEq κ] in
theorem inv_init (size : Nat) : Inv (init size : State κ ω) := by
  refine ⟨by simp [init], by simp [init], by simp [init, Poll.registered, State.waits], ?_⟩
  exact .fresh rfl rfl (fun _ => rfl) rfl

omit [DecidableEq κ] in
theorem waits_eq (poll : t.poll = s.poll) (parked : t.parked = s.parked) :
    t.waits = s.waits := by
  simp only [State.waits, poll, parked]

omit [DecidableEq κ] in
theorem news_iff (poll : t.poll = s.poll) (cb : t.cb = s.cb)
    (seq : t.topic.seq = s.topic.seq) : t.news ↔ s.news := by
  simp only [State.news, poll, cb, seq]

/-- A publisher moves outside its wakes. It may move the topic on if it then owes a wake,
and it goes on owing as long as the callback is in the list. -/
theorem inv_publisher {c : κ} {q : Publisher ω} (h : Inv s) (hc : (s.publisher c).call = .idle)
    (hq : q.call = .idle ∨ q.call = .wake .fetchOr)
    (publisher : t.publisher = update s.publisher c q)
    (waker : t.waker = s.waker) (cb : t.cb = s.cb) (poll : t.poll = s.poll)
    (parked : t.parked = s.parked) (invoked : t.invoked = s.invoked)
    (callbacks : t.topic.callbacks = s.topic.callbacks)
    (seq : t.topic.seq = s.topic.seq ∨ q.owes)
    (owes : self ∈ s.topic.callbacks → (s.publisher c).owes → q.owes) : Inv t := by
  have waits := waits_eq poll parked
  refine ⟨poll ▸ h.given, poll ▸ h.fresh, ?_, ?_⟩
  · rw [cb, poll, waits, callbacks]
    exact h.listed
  apply h.sound.other_move (c := c) (q := q.call) hc hq waker
  · simp [State.view, poll]
  · rw [State.view, publisher]
    exact comp_update Publisher.call s.publisher c q
  · exact waits
  · exact invoked
  · intro news
    obtain seq | hq := seq
    · left
      exact (news_iff poll cb seq).mp news
    · right
      simpa [State.view, publisher] using hq
  · intro hw d hd
    have listed := h.listed (.inr (.inr (waits ▸ hw)))
    by_cases hdc : d = c
    · subst hdc
      simp only [State.view, publisher, update_self]
      exact owes listed hd
    · simp only [State.view, publisher, update_of_ne hdc]
      exact hd

theorem inv_wake {c : κ} {rest : List Nat} {p : Wake ω} (h : Inv s)
    (hp : s.publisher c = .wake rest p) (waker : t.waker = (p.step s.waker).cell)
    (publisher : t.publisher =
      update s.publisher c ((p.step s.waker).pc.resume (.wake rest) (.dispatch rest)))
    (invoked : t.invoked = s.invoked ++ (p.step s.waker).invoked.toList) (cb : t.cb = s.cb)
    (poll : t.poll = s.poll) (parked : t.parked = s.parked) (topic : t.topic = s.topic) :
    Inv t := by
  have waits := waits_eq poll parked
  refine ⟨poll ▸ h.given, poll ▸ h.fresh, ?_, ?_⟩
  · rw [cb, poll, waits, topic]
    exact h.listed
  apply h.sound.other_wake (c := c) (p := p)
  · simp [State.view, hp, Publisher.call]
  · exact waker
  · simp [State.view, poll]
  · have pc : Publisher.call ((p.step s.waker).pc.resume (.wake rest) (.dispatch rest)) =
        Call.ofWake (p.step s.waker).pc := Wake.apply_resume Publisher.call _ _ _
    change (fun d => (t.publisher d).call) = update _ c (Call.ofWake (p.step s.waker).pc)
    rw [publisher, ← pc]
    exact comp_update Publisher.call s.publisher c _
  · exact waits
  · exact invoked
  · exact (news_iff poll cb (by rw [topic])).mp
  · intro d hd
    by_cases hdc : d = c
    · subst hdc
      simp only [State.view, hp, Publisher.owes] at hd
      obtain rfl | hin := hd
      · exact .inr ⟨rfl, rfl⟩
      · left
        simp only [State.view, publisher, update_self]
        cases (p.step s.waker).pc <;> simp [Wake.resume, Publisher.owes, hin]
    · simp only [State.view, publisher, update_of_ne hdc]
      exact .inl hd

theorem inv_poll {q : Poll ω} (h : Inv s) (hp : s.poll.call = .idle) (poll : t.poll = q)
    (hq : q.call = .idle ∨ ∃ w, q = .register w (.acquire w)) (waker : t.waker = s.waker)
    (publisher : t.publisher = s.publisher)
    (fresh : ∀ k cb, q = .subCbRegister k cb → cb.ctx = self)
    (listed : t.cb ≠ none ∨ q.registered = true ∨ t.waits ≠ none →
      self ∈ t.topic.callbacks)
    (waits : t.waits ≠ none → t.waits = s.waits ∧ t.invoked = s.invoked)
    (news : t.waits ≠ none → t.news → s.news) : Inv t := by
  refine ⟨?_, poll ▸ fresh, poll ▸ listed, ?_⟩
  · intro w v hw
    rw [poll] at hw
    subst hw
    obtain hq | ⟨x, hx⟩ := hq
    · cases hq
    · cases hx
      rfl
  apply h.sound.task_move (q := q.call) hp
  · obtain hq | ⟨w, rfl⟩ := hq
    · exact .inl hq
    · exact .inr ⟨w, rfl, by simp [State.view, State.waits, poll]⟩
  · exact waker
  · simp [State.view, poll]
  · simp [State.view, publisher]
  · exact waits
  · exact news
  · simp [State.view, publisher]

omit [DecidableEq κ] in
theorem waits_resume {p : Register ω} (hp : ∀ v, p ≠ .acquire v)
    (poll : s.poll = p.resume (.register w) (.ensureRegistered (.second w))) :
    (∀ x v, s.poll ≠ .register x (.acquire v)) ∧ (∀ k cb, s.poll ≠ .subCbRegister k cb) ∧
      s.waits = some w ∧ ¬ s.news := by
  cases p with
  | acquire v => exact absurd rfl (hp v)
  | write _ | release | drain | swap _ | invoke _ | done =>
    simp only [Register.resume] at poll
    simp [State.waits, State.news, Attempt.waits, poll]

theorem inv_register {p : Register ω} (h : Inv s) (hp : s.poll = .register w p)
    (waker : t.waker = (p.step s.waker).cell) (publisher : t.publisher = s.publisher)
    (poll : t.poll = (p.step s.waker).pc.resume (.register w) (.ensureRegistered (.second w)))
    (invoked : t.invoked = s.invoked ++ (p.step s.waker).invoked.toList)
    (topic : t.topic = s.topic) : Inv t := by
  obtain ⟨past, fresh, waits, news⟩ := waits_resume (Register.step_ne_acquire s.waker p) poll
  refine ⟨fun x v hx => absurd hx (past x v), fun k cb hk => absurd hk (fresh k cb), ?_, ?_⟩
  · intro _
    rw [topic]
    exact h.listed (.inr (.inl (by rw [hp]; rfl)))
  apply h.sound.task_register (p := p)
  · simp [State.view, hp, Poll.call]
  · exact waker
  · rw [State.view, poll]
    exact Register.apply_resume Poll.call _ _ _
  · simp [State.view, publisher]
  · exact invoked
  · exact waits
  · rintro v rfl
    exact h.given w v hp
  · intro _
    simp only [State.view, State.waits, hp]
  · exact news

omit [DecidableEq κ] in
theorem inv_others {l : List Nat} (h : Inv s) (hl : self ∈ s.topic.callbacks → self ∈ l) :
    Inv { s with topic := { s.topic with callbacks := l } } :=
  ⟨h.given, h.fresh, fun hs => hl (h.listed hs), h.sound⟩

omit [DecidableEq κ] in
/-- A publisher in `notify` calls every callback that was listed when it took the lock. -/
theorem owes_dispatch (h : self ∈ s.topic.callbacks) :
    (Publisher.dispatch s.topic.notify : Publisher ω).owes := h

theorem inv_step (h : Inv s) (next : step s a = some t) : Inv t := by
  cases a with
  | advertise c m | publish c m | write c =>
    simp only [step] at next
    split at next <;> cases next
    rename_i hc
    exact inv_publisher h (by rw [hc]; rfl) (.inl rfl) rfl rfl rfl rfl rfl rfl rfl (.inl rfl)
      (by simp [hc, Publisher.owes])
  | bump c =>
    simp only [step] at next
    split at next <;> cases next
    rename_i hc
    exact inv_publisher h (by rw [hc]; rfl) (.inl rfl) rfl rfl rfl rfl rfl rfl rfl
      (.inr trivial) (by simp [hc, Publisher.owes])
  | lock c =>
    simp only [step] at next
    split at next <;> cases next
    rename_i hc _
    exact inv_publisher h (by rw [hc]; rfl) (.inl rfl) rfl rfl rfl rfl rfl rfl rfl (.inl rfl)
      (fun listed _ => owes_dispatch listed)
  | call c =>
    simp only [step] at next
    split at next
    · rename_i hc
      cases next
      exact inv_publisher h (by rw [hc]; rfl) (.inl rfl) rfl rfl rfl rfl rfl rfl rfl (.inl rfl)
        (by simp [hc, Publisher.owes])
    · rename_i ctx rest hc
      split at next
      · cases next
        exact inv_publisher h (by rw [hc]; rfl) (.inr rfl) rfl rfl rfl rfl rfl rfl rfl (.inl rfl)
          (fun _ _ => .inl rfl)
      · rename_i hctx
        cases next
        refine inv_publisher h (by rw [hc]; rfl) (.inl rfl) rfl rfl rfl rfl rfl rfl rfl (.inl rfl)
          fun _ ho => ?_
        rw [hc] at ho
        exact (List.mem_cons.mp ho).resolve_left (Ne.symm hctx)
    · cases next
  | wake c =>
    simp only [step] at next
    split at next <;> cases next
    rename_i hc
    exact inv_wake h hc rfl rfl rfl rfl rfl rfl rfl
  | subscribe ctx =>
    simp only [step, Option.ite_none_right_eq_some, Option.some.injEq] at next
    obtain ⟨_, rfl⟩ := next
    exact inv_others h fun hs => List.mem_append_left _ hs
  | unsubscribe ctx =>
    simp only [step, Option.ite_none_right_eq_some, Option.some.injEq] at next
    obtain ⟨⟨hne, _⟩, rfl⟩ := next
    exact inv_others h fun hs => List.mem_filter.mpr ⟨hs, by simpa using Ne.symm hne⟩
  | poll w =>
    simp only [step] at next
    split at next <;> cases next
    rename_i hp
    exact inv_poll h (by rw [hp]; rfl) rfl (.inl rfl) rfl rfl (by simp)
      (fun hs => h.listed (.inl (by simpa [Poll.registered, State.waits, Attempt.waits] using hs)))
      (by simp [State.waits, Attempt.waits]) (by simp [State.waits, Attempt.waits])
  | ensureRegistered =>
    simp only [step] at next
    split at next
    · rename_i k hp
      have waits : s.waits = k.waits := by simp only [State.waits, hp]
      split at next <;> cases next
      · rename_i cb hcb
        exact inv_poll h (by rw [hp]; rfl) rfl (.inl rfl) rfl rfl (by simp)
          (fun _ => h.listed (.inl (by simp [hcb]))) (fun _ => ⟨waits.symm, rfl⟩)
          (by simp [State.news])
      · rename_i hcb
        exact inv_poll h (by rw [hp]; rfl) rfl (.inl rfl) rfl rfl
          (by rintro _ _ ⟨⟩; rfl)
          (fun hs => h.listed (by simpa [hcb, Poll.registered, State.waits, hp] using hs))
          (fun _ => ⟨waits.symm, rfl⟩) (by simp [State.news])
    · cases next
  | subCbRegister =>
    simp only [step] at next
    split at next
    · rename_i k cb hp _
      cases next
      have waits : s.waits = k.waits := by simp only [State.waits, hp]
      exact inv_poll h (by rw [hp]; rfl) rfl (.inl rfl) rfl rfl (by simp)
        (fun _ => by simp [h.fresh k cb hp]) (fun _ => ⟨waits.symm, rfl⟩) (by simp [State.news])
    · cases next
  | setCb =>
    simp only [step] at next
    split at next
    · rename_i k cb hp
      cases next
      have waits : s.waits = k.waits := by simp only [State.waits, hp]
      exact inv_poll h (by rw [hp]; rfl) rfl (.inl rfl) rfl rfl (by simp)
        (fun _ => h.listed (.inr (.inl (by rw [hp]; rfl)))) (fun _ => ⟨waits.symm, rfl⟩)
        (by simp [State.news])
    · cases next
  | readSeq =>
    simp only [step] at next
    split at next
    · rename_i k hp
      cases next
      have waits : s.waits = k.waits := by simp only [State.waits, hp]
      exact inv_poll h (by rw [hp]; rfl) rfl (.inl rfl) rfl rfl (by simp)
        (fun _ => h.listed (.inr (.inl (by rw [hp]; rfl)))) (fun _ => ⟨waits.symm, rfl⟩)
        (by simp [State.news])
    · cases next
  | copy =>
    simp only [step] at next
    split at next
    · rename_i k cur cb hp hcb
      have listed := h.listed (.inl (by simp [hcb]))
      have waits : s.waits = k.waits := by simp only [State.waits, hp]
      split at next
      · cases next
        exact inv_poll h (by rw [hp]; rfl) rfl (.inl rfl) rfl rfl (by simp) (fun _ => listed)
          (by simp [State.waits]) (by simp [State.waits])
      · rename_i stale
        cases next
        cases k with
        | first w =>
          exact inv_poll h (by rw [hp]; rfl) rfl (.inr ⟨w, rfl⟩) rfl rfl
            (by simp [State.notUpdated]) (fun _ => listed) (by simp [State.waits, State.notUpdated])
            (by simp [State.waits, State.notUpdated])
        | second w =>
          refine inv_poll h (by rw [hp]; rfl) rfl (.inl rfl) rfl rfl
            (by simp [State.notUpdated]) (fun _ => listed) (fun _ => ⟨waits.symm, rfl⟩) ?_
          -- the topic moved on while this look was being made
          rintro _ ⟨cb', hcb', hlt⟩
          obtain rfl : cb = cb' := Option.some.inj (hcb.symm.trans hcb')
          simp only [SubCb.copyRecord, ite_eq_right_iff, reduceCtorEq, imp_false, not_lt] at stale
          simp only [State.notUpdated] at hlt
          simp only [State.news, hp]
          omega
    · cases next
  | register =>
    simp only [step] at next
    split at next <;> cases next
    rename_i hp
    exact inv_register h hp rfl rfl rfl rfl rfl

theorem inv_run {P : State κ ω → Act κ ω → Prop} {as : List (Act κ ω)} {size : Nat}
    (h : Run step P (init size) as s) : Inv s :=
  h.invariant (inv_init size) fun _ _ _ hs _ => inv_step hs

/-- A task whose last `Recv::poll` returned Pending while the topic has moved past what it
has seen had its waker invoked since that poll began, or some publisher has bumped `seq`
and has not finished its `notify`. -/
theorem recv_misses_no_publication (size : Nat) (as : List (Act κ ω)) (s : State κ ω)
    (run : Run step Free (init size) as s) (w : ω) (cb : SubCb) (idle : s.poll = .idle)
    (parked : s.parked = some w) (hcb : s.cb = some cb) (behind : cb.lastSeen < s.topic.seq) :
    w ∈ s.invoked ∨ ∃ c, (s.publisher c).notifying = true := by
  have waits : s.view.waits = some w := by simp [State.view, State.waits, idle, parked]
  have task : s.view.task = .idle := by simp [State.view, idle, Poll.call]
  have news : s.view.news := by
    simp only [State.view, State.news, idle]
    exact ⟨cb, hcb, behind⟩
  obtain done | ⟨c, hc⟩ := (inv_run run).sound.parked task waits news
  · exact .inl done
  · refine .inr ⟨c, ?_⟩
    simp only [State.view] at hc
    cases hq : s.publisher c <;>
      simp [hq, Publisher.owes, Publisher.call, Publisher.notifying] at hc ⊢

/-- The subscriber registers and parks; a publisher has bumped `seq` and is on its way. -/
theorem recv_parked_before_notify :
    ∃ s : State Unit Nat, Run step Free (init 1) [.poll 7, .ensureRegistered, .subCbRegister,
      .setCb, .readSeq, .copy, .register, .register, .register, .ensureRegistered, .readSeq,
      .copy, .advertise () [5], .write (), .bump ()] s ∧
      (7 ∈ s.invoked ∨ ∃ c, (s.publisher c).notifying = true) := by
  have run : Run step Free (init 1 : State Unit Nat) [.poll 7, .ensureRegistered,
    .subCbRegister, .setCb, .readSeq, .copy, .register, .register, .register,
    .ensureRegistered, .readSeq, .copy, .advertise () [5], .write (), .bump ()] _ :=
    run_of_exec rfl
  exact ⟨_, run, recv_misses_no_publication 1 _ _ run 7 _ rfl rfl rfl (by decide)⟩

end Px4Rs.SubscriptionRecv
