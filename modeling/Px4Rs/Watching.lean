import Px4Rs.Futures
import Px4Rs.SubscriptionRecv

/-! A task on the runtime that awaits one message of a topic after the other, while other
threads publish: every operation of its polls, of `notify` and of the dispatcher is a step. -/
namespace Px4Rs.SubscriptionRecv
open Px4Rs.Broker Px4Rs.AtomicWaker
variable {κ ω : Type*} [DecidableEq κ] {s t : State κ ω} {a : Act κ ω}

def State.invokes (s : State κ ω) : Act κ ω → Option ω
  | .wake c =>
    match s.publisher c with
    | .wake _ p => (p.step s.waker).invoked
    | _ => none
  | .register =>
    match s.poll with
    | .register _ p => (p.step s.waker).invoked
    | _ => none
  | _ => none

omit [DecidableEq κ] in
@[simp] theorem notUpdated_invoked (s : State κ ω) (k : Attempt ω) :
    (s.notUpdated k).invoked = s.invoked := by
  cases k <;> rfl

theorem invoked_step (notPoll : ∀ w, a ≠ .poll w) (next : step s a = some t) :
    t.invoked = s.invoked ++ (s.invokes a).toList := by
  cases a with
  | poll w => exact absurd rfl (notPoll w)
  | wake c | register =>
    simp only [step] at next
    split at next <;> cases next
    simp [State.invokes, *]
  | copy =>
    simp only [step] at next
    split at next
    · split at next <;> cases next <;> simp [State.invokes]
    · cases next
  | call c =>
    simp only [step] at next
    split at next
    · cases next
      simp [State.invokes]
    · split at next <;> cases next <;> simp [State.invokes]
    · cases next
  | subscribe | unsubscribe =>
    simp only [step] at next
    split at next <;> cases next
    simp [State.invokes]
  | ensureRegistered =>
    simp only [step] at next
    split at next
    · split at next <;> cases next <;> simp [State.invokes]
    · cases next
  | advertise | publish | write | bump | lock | subCbRegister | setCb | readSeq =>
    simp only [step] at next
    split at next <;> cases next
    simp [State.invokes]

theorem idle_step (idle : s.poll = .idle) (notPoll : ∀ w, a ≠ .poll w)
    (next : step s a = some t) : t.poll = .idle ∧ t.parked = s.parked ∧ a ≠ .copy := by
  cases a with
  | poll w => exact absurd rfl (notPoll w)
  | ensureRegistered | subCbRegister | setCb | readSeq | copy | register =>
    simp [step, idle] at next
  | call c =>
    simp only [step] at next
    split at next
    · cases next
      exact ⟨idle, rfl, by simp⟩
    · split at next <;> cases next <;> exact ⟨idle, rfl, by simp⟩
    · cases next
  | advertise | publish | write | bump | lock | wake | subscribe | unsubscribe =>
    simp only [step] at next
    split at next <;> cases next
    exact ⟨idle, rfl, by simp⟩

def Poll.looking : Poll ω → Bool
  | .readSeq _ | .copy _ _ => true
  | _ => false

/-- A poll that looks, and one that has parked, has stored its callback before. -/
def Found (s : State κ ω) : Prop := s.parked ≠ none ∨ s.poll.looking = true → s.cb ≠ none

omit [DecidableEq κ] in
theorem Found.move (h : Found s) (parked : t.parked = s.parked) (poll : t.poll.looking = false)
    (cb : t.cb = s.cb) : Found t := by
  rintro (hp | looks)
  · rw [cb]
    exact h (.inl (parked ▸ hp))
  · rw [poll] at looks
    cases looks

theorem found_step (h : Found s) (next : step s a = some t) : Found t := by
  cases a with
  | poll =>
    simp only [step] at next
    split at next <;> cases next
    simp [Found, Poll.looking]
  | ensureRegistered =>
    simp only [step] at next
    split at next
    · split at next <;> cases next
      · simp [Found, *]
      · exact h.move rfl rfl rfl
    · cases next
  | subCbRegister =>
    simp only [step] at next
    split at next <;> cases next
    exact h.move rfl rfl rfl
  | setCb =>
    simp only [step] at next
    split at next <;> cases next
    simp [Found]
  | readSeq =>
    simp only [step] at next
    split at next <;> cases next
    rename_i hp
    exact fun _ => h (.inr (by rw [hp]; rfl))
  | copy =>
    simp only [step] at next
    split at next
    · split at next <;> cases next
      · simp [Found]
      · rename_i k _ _ _ hcb _ _
        cases k <;> simp [Found, State.notUpdated, hcb]
    · cases next
  | register =>
    simp only [step] at next
    split at next <;> cases next
    rename_i w p hp
    refine h.move rfl ?_ rfl
    cases (p.step s.waker).pc <;> rfl
  | call c =>
    simp only [step] at next
    split at next
    · cases next
      exact h
    · split at next <;> cases next <;> exact h
    · cases next
  | advertise | publish | write | bump | lock | wake | subscribe | unsubscribe =>
    simp only [step] at next
    split at next <;> cases next
    exact h

omit [DecidableEq κ] in
/-- A parked task whose waker was not invoked has seen all that was published, up to publishers
that are still to call it. -/
theorem notifying_of_behind {w : ω} {cb : SubCb} (h : Inv s) (idle : s.poll = .idle)
    (parked : s.parked = some w) (fresh : w ∉ s.invoked) (hcb : s.cb = some cb)
    (behind : cb.lastSeen < s.topic.seq) : ∃ c, (s.publisher c).notifying = true := by
  have waits : s.view.waits = some w := by simp [State.view, State.waits, idle, parked]
  have task : s.view.task = .idle := by simp [State.view, idle, Poll.call]
  have news : s.view.news := by
    simp only [State.view, State.news, idle]
    exact ⟨cb, hcb, behind⟩
  obtain invoked | ⟨c, owing | ⟨p, wakes⟩⟩ := h.sound.parked task waits news
  · exact absurd invoked fresh
  · refine ⟨c, ?_⟩
    simp only [State.view] at owing
    cases hq : s.publisher c with
    | lock | dispatch | wake => rfl
    | idle | write | bump =>
      rw [hq] at owing
      exact owing.elim
  · refine ⟨c, ?_⟩
    simp only [State.view] at wakes
    cases hq : s.publisher c with
    | lock | dispatch | wake => rfl
    | idle | write | bump =>
      rw [hq] at wakes
      cases wakes

end Px4Rs.SubscriptionRecv

namespace Px4Rs.Watching
open Px4Rs.Runs Px4Rs.Futures Px4Rs.SubscriptionRecv
variable {κ τ : Type*} [DecidableEq κ] [DecidableEq τ]

/- The `async fn` of a task that receives some messages of a topic, and how many it has
   received. -/
structure Body (κ : Type*) where
  recv : SubscriptionRecv.State κ Unit
  got : Nat

inductive Op (κ : Type*) where
  | recv (a : SubscriptionRecv.Act κ Unit)
  | again

/- `n` is how many messages the task awaits. -/
variable (n : Nat)

def Body.ended (b : Body κ) : Option Bool :=
  match b.recv.poll with
  | .idle => if b.got = n then some true else b.recv.parked.map fun _ => false
  | _ => none

/-- The task calls the `poll` of the `Recv` it awaits. -/
def Body.ask (b : Body κ) : Option (Body κ) :=
  (SubscriptionRecv.step b.recv (.poll ())).map fun s => { b with recv := s }

def Body.enter (b : Body κ) : Option (Body κ) :=
  if b.ended n = some true then some b else b.ask

/-- After a message the task awaits the next one in the same poll. -/
def Body.again (b : Body κ) : Option (Body κ) :=
  if b.ended n = none ∧ 0 < b.got then b.ask else none

/-- An operation of a `Recv::poll` or of a publisher; a `copy` that ends the poll with Ready has
received a message. -/
def Body.move (b : Body κ) : SubscriptionRecv.Act κ Unit → Option (Body κ)
  | .poll _ => none
  | .copy => (SubscriptionRecv.step b.recv .copy).map fun s =>
    match s.poll, s.parked with
    | .idle, none => ⟨s, b.got + 1⟩
    | _, _ => ⟨s, b.got⟩
  | a => (SubscriptionRecv.step b.recv a).map fun s => ⟨s, b.got⟩

variable {n} {b b' : Body κ} {a : SubscriptionRecv.Act κ Unit}

theorem move_spec (h : b.move a = some b') : (∀ w, a ≠ .poll w) ∧
    SubscriptionRecv.step b.recv a = some b'.recv ∧ (a ≠ .copy → b'.got = b.got) := by
  cases a with
  | poll => cases h
  | copy =>
    simp only [Body.move, Option.map_eq_some_iff] at h
    obtain ⟨s, next, rfl⟩ := h
    refine ⟨by simp, ?_, fun other => absurd rfl other⟩
    split <;> exact next
  | advertise | publish | write | bump | lock | call | wake | subscribe | unsubscribe
  | ensureRegistered | subCbRegister | setCb | readSeq | register =>
    simp only [Body.move, Option.map_eq_some_iff] at h
    obtain ⟨s, next, rfl⟩ := h
    exact ⟨by simp, next, fun _ => rfl⟩

theorem ask_spec (h : b.ask = some b') : SubscriptionRecv.step b.recv (.poll ()) = some b'.recv ∧
    b.recv.poll = .idle ∧ b'.recv.invoked = [] := by
  simp only [Body.ask, Option.map_eq_some_iff] at h
  obtain ⟨s, next, rfl⟩ := h
  refine ⟨next, ?_⟩
  simp only [SubscriptionRecv.step] at next
  split at next <;> cases next
  exact ⟨‹_›, rfl⟩

omit [DecidableEq κ] in
theorem idle_of_ended (known : b.ended n ≠ none) : b.recv.poll = .idle := by
  by_contra busy
  cases hp : b.recv.poll <;> simp [Body.ended, hp] at known busy

omit [DecidableEq κ] in
theorem returned_of_ended (h : b.ended n = some true) : b.recv.poll = .idle ∧ b.got = n := by
  have idle := idle_of_ended (n := n) (b := b) (by simp [h])
  refine ⟨idle, ?_⟩
  by_contra more
  simp [Body.ended, idle, more] at h

omit [DecidableEq κ] in
theorem parked_of_ended (h : b.ended n = some false) :
    b.recv.poll = .idle ∧ b.recv.parked = some () := by
  have idle := idle_of_ended (n := n) (b := b) (by simp [h])
  refine ⟨idle, ?_⟩
  by_cases all : b.got = n
  · simp [Body.ended, idle, all] at h
  · obtain ⟨_, parked⟩ : ∃ w, b.recv.parked = some w := by
      simpa [Body.ended, idle, all] using h
    exact parked

theorem ended_move (known : b.ended n ≠ none) (moves : b.move a = some b') :
    b'.ended n = b.ended n := by
  obtain ⟨notPoll, next, got⟩ := move_spec moves
  have idle := idle_of_ended known
  obtain ⟨still, parked, other⟩ := idle_step idle notPoll next
  simp only [Body.ended, idle, still, parked, got other]

/-- What holds of the subscription in every state. -/
structure Good (b : Body κ) : Prop where
  inv : Inv b.recv
  found : Found b.recv

theorem Good.step (h : Good b) (next : SubscriptionRecv.step b.recv a = some b'.recv) :
    Good b' :=
  ⟨inv_step h.inv next, found_step h.found next⟩

/-- The task has returned, or nobody has invoked its waker since its last poll began. -/
def Promised (n : Nat) (b : Body κ) : Prop := b.ended n = some true ∨ b.recv.invoked = []

/-- The one task, its subscription and the publishers. -/
def machine (n : Nat) : Machine Unit (Body κ) (Op κ) where
  enter b _ := b.enter n
  step b
    | .recv a => b.move a
    | .again => b.again n
  invoked b
    | .recv a => b.recv.invokes a
    | .again => none
  ended b _ := b.ended n

theorem contract (n : Nat) : Contract (machine n : Machine Unit (Body κ) (Op κ))
    (fun _ _ => True) Good (fun b _ => Promised n b) where
  enters b b' _ good enters := by
    simp only [machine, Body.enter] at enters
    split at enters
    · rename_i returned
      cases enters
      exact ⟨good, .inl returned⟩
    · obtain ⟨next, _, fresh⟩ := ask_spec enters
      exact ⟨good.step next, .inr fresh⟩
  others _ _ _ _ _ other := absurd (Subsingleton.elim _ _) other
  final b b' _ enters returned := by
    simp only [machine, Body.enter] at enters returned
    rw [if_pos returned] at enters
    cases enters
    exact returned
  moves b b' x good _ moves := by
    cases x with
    | recv a => exact good.step (move_spec moves).2.1
    | again =>
      simp only [machine, Body.again, Option.ite_none_right_eq_some] at moves
      exact good.step (ask_spec moves.2).1
  keeps b b' x _ good _ moves promised := by
    cases x with
    | recv a =>
      obtain ⟨notPoll, next, _⟩ := move_spec moves
      obtain returned | fresh := promised
      · exact .inl (.inl ((ended_move (by simp [returned]) moves).trans returned))
      · have woken := invoked_step notPoll next
        cases invokes : b.recv.invokes a with
        | none => exact .inl (.inr (by simp [woken, fresh, invokes]))
        | some w => exact .inr invokes
    | again =>
      simp only [machine, Body.again, Option.ite_none_right_eq_some] at moves
      exact .inl (.inr (ask_spec moves.2).2.2)
  stays b b' x _ moves known := by
    cases x with
    | recv a => exact ended_move known moves
    | again =>
      simp only [machine, Body.again, Option.ite_none_right_eq_some] at moves
      exact absurd moves.1.1 known

variable {s : Futures.State Unit τ (Body κ)} {as : List (Futures.Act Unit τ (Op κ))}

/-- Whatever the publishers do, in whatever order the operations come, and whoever else wakes
the task: where nothing of the runtime is under way, a task that was spawned has received all
the messages it awaits and has returned, or it has received the last one, except for one whose
publisher is still inside `notify`. All of this happens on the runtime. -/
theorem watching_misses_nothing (size : Nat)
    (run : Run (Futures.step (machine n)) Free (start ⟨SubscriptionRecv.init size, 0⟩) as s)
    (stored : (s.rt.cell ()).handle ≠ none) (quiet : Quiet s.rt ()) :
    (if TaskCell.isSpawned (s.rt.cell ()).word then
      s.fut.recv.parked = some () ∧ ∃ cb, s.fut.recv.cb = some cb ∧
        (cb.lastSeen < s.fut.recv.topic.seq →
          ∃ c, (s.fut.recv.publisher c).notifying = true)
    else s.fut.got = n) ∧
    ∃ ls, Run Runtime.step Free (Runtime.init : Runtime.State Unit τ) ls s.rt := by
  have held := (contract n).held (d := ⟨SubscriptionRecv.init size, 0⟩)
    ⟨inv_init size, by simp [Found, SubscriptionRecv.init, Poll.looking]⟩
    (fun _ _ _ _ => trivial) run
  refine ⟨?_, exists_runtime_run run⟩
  obtain ⟨returned, ended⟩ | ⟨live, ended, promised⟩ := held.quiet quiet stored
  · rw [returned]
    exact (returned_of_ended ended).2
  · obtain ⟨idle, parked⟩ := parked_of_ended ended
    rw [if_pos live]
    obtain ⟨cb, hcb⟩ := Option.ne_none_iff_exists'.mp (held.fut.found (.inl (by simp [parked])))
    refine ⟨parked, cb, hcb, notifying_of_behind held.fut.inv idle parked ?_ hcb⟩
    obtain returned | fresh := promised
    · exact absurd (returned.symm.trans ended) (by simp)
    · simp [fresh]

def onceRuntime (as : List (TaskCell.Act Unit)) : List (Futures.Act Unit Unit (Op Unit)) :=
  as.map (.runtime ())

def onceRecv (as : List (SubscriptionRecv.Act Unit Unit)) :
    List (Futures.Act Unit Unit (Op Unit)) :=
  as.map fun a => .future (.recv a) ()

/-- A task that parks before the first message and returns with it. -/
def onceRun : List (Futures.Act Unit Unit (Op Unit)) :=
  onceRuntime ((Runtime.spawnOnce ()).map Prod.snd ++ [.pop, .fetchAnd]) ++ [.poll ()] ++
  onceRecv [.ensureRegistered, .subCbRegister, .setCb, .readSeq, .copy, .register, .register,
    .register, .ensureRegistered, .readSeq, .copy] ++ onceRuntime [.pending] ++
  onceRecv [.advertise () [5], .write (), .bump (), .lock (), .call (), .wake (), .wake (),
    .wake (), .wake (), .call ()] ++
  onceRuntime [.wakeLoad (), .wakeSchedule () 0 false, .pop, .fetchAnd] ++ [.poll ()] ++
  onceRecv [.ensureRegistered, .readSeq, .copy] ++ onceRuntime [.ready, .drop, .store]

theorem watching_misses_nothing_once : ∃ s : Futures.State Unit Unit (Body Unit),
    TaskCell.isSpawned (s.rt.cell ()).word = false ∧ s.fut.recv.topic.seq = 1 ∧
      s.fut.got = 1 := by
  obtain ⟨s, run, hs⟩ := exists_run (Futures.step (machine 1)) Free
    (start ⟨SubscriptionRecv.init 1, 0⟩) onceRun
    (fun s => s.fut.recv.topic.seq = 1 ∧ (s.rt.cell ()).handle ≠ none ∧
      (s.rt.cell ()).pc () = .idle ∧ s.rt.running = none ∧ s.rt.fifo = [] ∧
      TaskCell.isSpawned (s.rt.cell ()).word = false) rfl
  simp only [decide_eq_true_eq] at hs
  obtain ⟨seq, stored, idle, outside, empty, returned⟩ := hs
  obtain ⟨rest, _⟩ := watching_misses_nothing 1 run stored
    ⟨fun _ => idle, by simp [outside], by simp [empty]⟩
  exact ⟨s, returned, seq, by simpa [returned] using rest⟩

end Px4Rs.Watching
