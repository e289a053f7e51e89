import Px4Rs.Futures
import Px4Rs.SleepWakes

/-! Tasks that work, sleep and work again, on the runtime: every operation of their polls, of
the timer's callouts and of the dispatcher is a step. -/
namespace Px4Rs.Sleep
open Px4Rs.Runs Px4Rs.AtomicWaker
variable {ω : Type*} [DecidableEq ω] {s t : State ω} {a : Act ω} {w : ω} {before : List ω}

/-- What the last poll has returned, unless one is under way. -/
def State.result (s : State ω) : Option Bool :=
  if s.poll = .idle then s.polls.head?.map Polled.ready else none

/-- The waker that an operation invokes. -/
def State.invoked (s : State ω) : Act ω → Option ω
  | .registerArmed r | .registerFirst r => (r.step s.waker).invoked
  | .wake p => (p.step s.waker).invoked
  | .poll _ | .load _ | .recheck | .callAfter | .storeArmed | .fire _ | .storeFired | .tick => none

theorem woken_step (next : step s a = some t) : t.woken = (s.invoked a).toList ++ s.woken := by
  cases steps_of_step next <;> rfl

theorem result_eq_ready : s.result = some true ↔ Resolved s := by
  by_cases idle : s.poll = .idle <;> simp [State.result, Resolved, idle]

theorem result_step (notPoll : ∀ v, a ≠ .poll v) (known : s.result ≠ none)
    (next : step s a = some t) : t.result = s.result := by
  have idle : s.poll = .idle := by
    by_contra busy
    exact known (if_neg busy)
  cases steps_of_step next with
  | poll => exact absurd rfl (notPoll _)
  | loadFired hp | loadArmed hp | loadIdle hp | registerArmed hp | registerFirst hp | recheck hp
  | callAfter hp | storeArmed hp =>
    rw [idle] at hp
    cases hp
  | fire | storeFired | wake | tick => rfl

/- The waker `w` of the last poll has not been invoked since, unless the poll returned
   Ready. -/
def Awaited (w : ω) (s : State ω) : Prop :=
  Resolved s ∨ ∃ before later, Watch (some w) before s ∧ s.woken = later ++ before ∧ w ∉ later

theorem awaited_poll (h : Holds s) (next : step s (.poll w) = some t) : Awaited w t := by
  obtain ⟨_, _, watch⟩ := h.watch
  refine .inr ⟨s.woken, [], watch_poll watch next, ?_, by simp⟩
  rw [woken_step next]
  rfl

theorem awaited_step (h : Holds s) (awaited : Awaited w s) (notPoll : ∀ v, a ≠ .poll v)
    (next : step s a = some t) : Awaited w t ∨ s.invoked a = some w := by
  obtain resolved | ⟨before, later, watch, woken, waits⟩ := awaited
  · exact .inl (.inl (resolved_step resolved notPoll next))
  · obtain watch | ⟨_, resolved⟩ := watch_step h.inv watch notPoll next
    · by_cases invoked : s.invoked a = some w
      · exact .inr invoked
      · refine .inl (.inr ⟨before, (s.invoked a).toList ++ later, watch, ?_, ?_⟩)
        · rw [woken_step next, woken, List.append_assoc]
        · simpa [waits] using invoked
    · exact .inl (.inl resolved)

/-- A task that awaits a sleep is woken as long as the timer has anything to do. -/
theorem Awaited.pending (awaited : Awaited w s) (h : Holds s) (pending : s.result = some false) :
    s.hrt ≠ [] ∨ s.timer ≠ .idle := by
  by_contra still
  simp only [ne_eq, not_or, not_not] at still
  obtain ⟨empty, quiet⟩ := still
  have ended : s.poll = .idle := by
    by_contra busy
    simp [State.result, busy] at pending
  have polled : s.polls ≠ [] := by
    intro none
    simp [State.result, none] at pending
  have fired := h.fired polled quiet empty
  obtain resolved | ⟨before, later, watch, woken, waits⟩ := awaited
  · rw [result_eq_ready.mpr resolved] at pending
    cases pending
  · obtain ⟨later', woken', invoked⟩ := watch.invoked ended fired quiet
    exact waits (List.append_cancel_right (woken'.symm.trans woken) ▸ invoked)

end Px4Rs.Sleep

namespace Px4Rs.Sleepers
open Px4Rs.Runs Px4Rs.Futures Function
variable {ι τ : Type*} [DecidableEq ι] [DecidableEq τ]

/- The `async fn` of a task: the `Sleep` it awaits, and as history the times at which it has
   worked. -/
structure Body (ι : Type*) where
  sleep : Sleep.State ι
  beats : List Nat

def Body.new : Body ι := ⟨Sleep.new 0, []⟩

/- The next `Sleep` of a task, in the place of the one before. The clock and the timer's queue
   are as they were, and a callout that is still under way goes on with the new one. -/
def renew (s : Sleep.State ι) (micros : Nat) : Sleep.State ι :=
  { Sleep.new micros with now := s.now, hrt := s.hrt, timer := s.timer }

/- `delays k` is how long a task sleeps after it has worked for the `k`-th time, counted from
   zero, or `none` if it returns then. -/
variable (delays : ℕ → Option ℕ)

def Body.work (b : Body ι) (i : ι) : Body ι where
  sleep :=
    match delays b.beats.length with
    | none => renew b.sleep 0
    | some micros => { renew b.sleep micros with poll := .load i }
  beats := b.beats ++ [b.sleep.now]

def Body.delay (b : Body ι) : Option ℕ := delays (b.beats.length - 1)

def Body.ended (b : Body ι) : Option Bool :=
  if b.beats = [] then none
  else
    match b.delay delays with
    | none => some true
    | some _ => if b.sleep.result = some false then some false else none

def Body.enter (b : Body ι) (i : ι) : Option (Body ι) :=
  if b.beats = [] then some (b.work delays i)
  else
    match b.delay delays with
    -- a future that has returned Ready is not polled again
    | none => none
    | some _ => (Sleep.step b.sleep (.poll i)).map fun x => { b with sleep := x }

/-- The end of an `await`, with the `Drop` of the `Sleep`. -/
def Body.next (b : Body ι) (i : ι) : Option (Body ι) :=
  if b.sleep.result = some true ∧ (b.delay delays).isSome then
    some (Body.work delays { b with sleep := b.sleep.drop } i)
  else none

def Body.move (b : Body ι) : Sleep.Act ι → Option (Body ι)
  | .poll _ | .tick => none
  | a => (Sleep.step b.sleep a).map fun x => { b with sleep := x }

def Body.tick (b : Body ι) : Body ι :=
  { b with sleep := { b.sleep with now := b.sleep.now + 1 } }

inductive Op (ι : Type*) where
  | sleep (i : ι) (a : Sleep.Act ι)
  | next (i : ι)
  | tick

variable {delays} {b b' : Body ι} {i j : ι} {a : Sleep.Act ι}

theorem move_spec (h : b.move a = some b') :
    (∀ v, a ≠ .poll v) ∧ a ≠ .tick ∧ b'.beats = b.beats ∧
      Sleep.step b.sleep a = some b'.sleep := by
  cases a with
  | poll | tick => cases h
  | load | registerArmed | recheck | registerFirst | callAfter | storeArmed | fire | storeFired
  | wake =>
    simp only [Body.move, Option.map_eq_some_iff] at h
    obtain ⟨x, next, rfl⟩ := h
    exact ⟨by simp, by simp, rfl, next⟩

/- The sleep that is awaited, `x` the time at which it was created and `d` its delay. -/
structure Since (x d : Nat) (s : Sleep.State ι) : Prop where
  delay : s.delayUs = min d (2 ^ 64 - 1)
  clock : x ≤ s.now
  queued : ∀ e ∈ s.hrt, x + s.delayUs ≤ e
  due : s.timer ≠ .idle ∨ s.fired = true → x + s.delayUs ≤ s.now
  ready : ∀ p ∈ s.polls, p.ready = true → s.fired = true

theorem since_step {x d : Nat} {s t : Sleep.State ι} (inv : Sleep.Inv s) (h : Since x d s)
    (next : Sleep.step s a = some t) : Since x d t := by
  cases Sleep.steps_of_step next with
  | poll | loadArmed | loadIdle | registerArmed | registerFirst =>
    exact ⟨h.delay, h.clock, h.queued, h.due, h.ready⟩
  | loadFired hp hs => exact ⟨h.delay, h.clock, h.queued, h.due, fun _ _ _ => inv.fired.mpr hs⟩
  | recheck hp =>
    refine ⟨h.delay, h.clock, h.queued, h.due, fun p mem ready => ?_⟩
    obtain rfl | mem := List.mem_cons.mp mem
    · exact inv.fired.mpr (by simpa using ready)
    · exact h.ready p mem ready
  | callAfter hp =>
    refine ⟨h.delay, h.clock, fun e mem => ?_, h.due, h.ready⟩
    have := h.clock
    obtain rfl | mem := List.mem_cons.mp mem
    · simp only
      omega
    · exact h.queued e mem
  | storeArmed hp =>
    refine ⟨h.delay, h.clock, h.queued, h.due, fun p mem ready => ?_⟩
    obtain rfl | mem := List.mem_cons.mp mem
    · cases ready
    · exact h.ready p mem ready
  | fire ht mem due =>
    exact ⟨h.delay, h.clock, fun e he => h.queued e (List.mem_of_mem_erase he),
      fun _ => (h.queued _ mem).trans due, h.ready⟩
  | storeFired ht =>
    exact ⟨h.delay, h.clock, h.queued, fun _ => h.due (.inl (by simp [ht])), fun _ _ _ => rfl⟩
  | wake ht =>
    exact ⟨h.delay, h.clock, h.queued, fun _ => h.due (.inl (by simp [ht])), h.ready⟩
  | tick =>
    exact ⟨h.delay, h.clock.trans (Nat.le_succ _), h.queued,
      fun due => (h.due due).trans (Nat.le_succ _), h.ready⟩

/-- Between two pieces of work lies the sleep after the first. -/
def Apart (delays : ℕ → Option ℕ) (beats : List Nat) : Prop :=
  ∀ k x y, beats[k]? = some x → beats[k + 1]? = some y →
    ∃ d, delays k = some d ∧ x + min d (2 ^ 64 - 1) ≤ y

/- What holds of a body in every state. -/
structure Good (delays : ℕ → Option ℕ) (b : Body ι) : Prop where
  holds : Sleep.Holds b.sleep
  unborn : b.beats = [] → b.sleep.poll = .idle ∧ b.sleep.state = .idle
  apart : Apart delays b.beats
  since : ∀ x d, b.beats.getLast? = some x → b.delay delays = some d → Since x d b.sleep

/-- The task has returned, or its waker will be invoked. -/
def Promised (delays : ℕ → Option ℕ) (i : ι) (b : Body ι) : Prop :=
  b.delay delays = none ∨ Sleep.Awaited i b.sleep

omit [DecidableEq ι] in
theorem renew_eq {s : Sleep.State ι} (quiet : s.timer = .idle) (micros : Nat) :
    renew s micros = { Sleep.new micros with now := s.now, hrt := s.hrt } := by
  rw [renew, quiet]
  rfl

omit [DecidableEq ι] in
theorem holds_renew {s : Sleep.State ι} (empty : s.hrt = []) (quiet : s.timer = .idle)
    (micros : Nat) : Sleep.Holds (renew s micros) := by
  rw [renew_eq quiet]
  refine ⟨?_, ⟨by simp [Sleep.new], by simp [Sleep.new]⟩, none, [], ?_⟩
  · constructor <;>
      simp [Sleep.new, empty, Sleep.Poll.arming, Sleep.Poll.waiting, Sleep.FiredStays]
  · exact ⟨by simp [Sleep.new], by simp [Sleep.new, Sleep.Poll.offers], [], rfl,
      .fresh rfl rfl (fun _ => rfl) rfl⟩

theorem renew_poll (s : Sleep.State ι) (micros : Nat) (i : ι) :
    Sleep.step (renew s micros) (.poll i) = some { renew s micros with poll := .load i } := by
  simp [Sleep.step, renew, Sleep.new]

omit [DecidableEq ι] in
theorem poll_allowed (s : Sleep.State ι) (i : ι) : Sleep.ArmedFirst s (.poll i) := trivial

omit [DecidableEq ι] in
theorem good_new : Good delays (Body.new : Body ι) := by
  refine ⟨?_, fun _ => ⟨rfl, rfl⟩, by simp [Body.new, Apart], by simp [Body.new]⟩
  exact holds_renew (s := Sleep.new 0) rfl rfl 0

omit [DecidableEq ι] in
theorem Apart.work (h : Apart delays b.beats)
    (elapsed : ∀ x, b.beats.getLast? = some x →
      ∃ d, b.delay delays = some d ∧ x + min d (2 ^ 64 - 1) ≤ b.sleep.now) (i : ι) :
    Apart delays (b.work delays i).beats := by
  intro k x y hx hy
  simp only [Body.work] at hx hy
  have bound := (List.getElem?_eq_some_iff.mp hy).1
  simp only [List.length_append, List.length_singleton] at bound
  rw [List.getElem?_append_left (by omega)] at hx
  by_cases last : k + 1 = b.beats.length
  · rw [last, List.getElem?_concat_length] at hy
    cases hy
    have final : b.beats.getLast? = some x := by
      rw [List.getLast?_eq_getElem?, ← last, Nat.add_sub_cancel, hx]
    obtain ⟨d, hd, passed⟩ := elapsed x final
    refine ⟨d, ?_, passed⟩
    rwa [Body.delay, ← last, Nat.add_sub_cancel] at hd
  · rw [List.getElem?_append_left (by omega)] at hy
    exact h k x y hx hy

theorem good_work (h : Apart delays b.beats) (empty : b.sleep.hrt = [])
    (quiet : b.sleep.timer = .idle)
    (elapsed : ∀ x, b.beats.getLast? = some x →
      ∃ d, b.delay delays = some d ∧ x + min d (2 ^ 64 - 1) ≤ b.sleep.now) (i : ι) :
    Good delays (b.work delays i) ∧ Promised delays i (b.work delays i) := by
  have delay : (b.work delays i).delay delays = delays b.beats.length := by
    simp [Body.delay, Body.work]
  have apart := h.work elapsed i
  cases hd : delays b.beats.length with
  | none =>
    have sleep : (b.work delays i).sleep = renew b.sleep 0 := by simp [Body.work, hd]
    refine ⟨⟨sleep ▸ holds_renew empty quiet 0, by simp [Body.work], apart, ?_⟩,
      .inl (delay.trans hd)⟩
    simp [delay, hd]
  | some micros =>
    have sleep : (b.work delays i).sleep = { renew b.sleep micros with poll := .load i } := by
      simp [Body.work, hd]
    have next := renew_poll b.sleep micros i
    have before := holds_renew empty quiet micros
    refine ⟨⟨?_, by simp [Body.work], apart, ?_⟩, .inr ?_⟩
    · rw [sleep]
      exact Sleep.holds_step before (poll_allowed _ _) next
    · intro x d hx hd'
      rw [delay, hd] at hd'
      cases hd'
      simp only [Body.work, List.getLast?_concat, Option.some.injEq] at hx
      subst hx
      rw [sleep]
      constructor <;> simp [renew, Sleep.new, empty, quiet]
    · rw [sleep]
      exact Sleep.awaited_poll before next

theorem Good.enter (h : Good delays b) (enters : b.enter delays i = some b') :
    Good delays b' ∧ Promised delays i b' := by
  simp only [Body.enter] at enters
  split at enters
  · rename_i first
    cases enters
    have quiet := h.holds.inv.unarmed (h.unborn first).2 (by simp [(h.unborn first).1])
    exact good_work h.apart quiet.1 quiet.2 (by simp [first]) i
  · rename_i begun
    split at enters
    · cases enters
    · simp only [Option.map_eq_some_iff] at enters
      obtain ⟨x, next, rfl⟩ := enters
      refine ⟨⟨Sleep.holds_step h.holds (poll_allowed _ _) next, fun first => absurd first begun,
        h.apart, fun y d hy hd => ?_⟩, .inr (Sleep.awaited_poll h.holds next)⟩
      exact since_step h.holds.inv (h.since y d hy hd) next

theorem Good.move (h : Good delays b) (guard : Sleep.ArmedFirst b.sleep a)
    (moves : b.move a = some b') : Good delays b' := by
  obtain ⟨notPoll, notTick, beats, next⟩ := move_spec moves
  refine ⟨Sleep.holds_step h.holds guard next, fun first => ?_, by rw [beats]; exact h.apart,
    fun x d hx hd => ?_⟩
  · -- nothing is under way before the first poll
    obtain ⟨idle, state⟩ := h.unborn (beats ▸ first)
    obtain ⟨empty, quiet⟩ := h.holds.inv.unarmed state (by simp [idle])
    cases a with
    | poll v => exact absurd rfl (notPoll v)
    | tick => exact absurd rfl notTick
    | load | registerArmed | recheck | registerFirst | callAfter | storeArmed | fire | storeFired
    | wake => simp [Sleep.step, idle, quiet, empty] at next
  · rw [beats] at hx
    rw [Body.delay, beats] at hd
    exact since_step h.holds.inv (h.since x d hx hd) next

theorem Good.next (h : Good delays b) (quiet : b.sleep.timer = .idle)
    (next : b.next delays i = some b') : Good delays b' ∧ Promised delays i b' := by
  simp only [Body.next, Option.ite_none_right_eq_some, Option.some.injEq] at next
  obtain ⟨⟨ready, more⟩, rfl⟩ := next
  obtain ⟨idle, p, mem, hp⟩ := Sleep.result_eq_ready.mp ready
  obtain ⟨d, hd⟩ := Option.isSome_iff_exists.mp more
  have polled : b.sleep.polls ≠ [] := by
    intro none
    simp [none] at mem
  have armed : b.sleep.state ≠ .idle := h.holds.armed.left polled
  have empty : b.sleep.drop.hrt = [] := by simp [Sleep.State.drop, armed]
  have clock : b.sleep.drop.now = b.sleep.now := by simp [Sleep.State.drop, armed]
  have timer : b.sleep.drop.timer = .idle := by simp [Sleep.State.drop, armed, quiet]
  refine good_work (b := { b with sleep := b.sleep.drop }) h.apart empty timer (fun x hx => ?_) i
  have since := h.since x d hx hd
  refine ⟨d, hd, ?_⟩
  rw [clock, ← since.delay]
  exact since.due (.inr (since.ready p (List.mem_of_mem_head? mem) hp))

theorem Good.tick (h : Good delays b) : Good delays b.tick := by
  have next : Sleep.step b.sleep .tick = some b.tick.sleep := rfl
  have allowed : Sleep.ArmedFirst b.sleep .tick := trivial
  exact ⟨Sleep.holds_step h.holds allowed next, h.unborn, h.apart,
    fun x d hx hd => since_step h.holds.inv (h.since x d hx hd) next⟩

theorem Promised.move (h : Promised delays i b) (good : Good delays b)
    (moves : b.move a = some b') : Promised delays i b' ∨ b.sleep.invoked a = some i := by
  obtain ⟨notPoll, _, beats, next⟩ := move_spec moves
  have same : b'.delay delays = b.delay delays := by rw [Body.delay, beats, Body.delay]
  obtain elapsed | awaited := h
  · exact .inl (.inl (same.trans elapsed))
  · exact (Sleep.awaited_step good.holds awaited notPoll next).imp_left .inr

theorem Promised.tick (h : Promised delays i b) (good : Good delays b) :
    Promised delays i b.tick := by
  have next : Sleep.step b.sleep .tick = some b.tick.sleep := rfl
  refine h.imp_right fun awaited => ?_
  simpa [Sleep.State.invoked] using Sleep.awaited_step good.holds awaited (by simp) next

theorem ended_move (known : b.ended delays ≠ none) (moves : b.move a = some b') :
    b'.ended delays = b.ended delays := by
  obtain ⟨notPoll, _, beats, next⟩ := move_spec moves
  simp only [Body.ended, Body.delay, beats] at known ⊢
  split
  · rfl
  · rename_i begun
    rw [if_neg begun] at known
    split
    · rfl
    · rename_i hd
      simp only [hd, ne_eq, ite_eq_right_iff, reduceCtorEq, imp_false, not_not] at known
      rw [Sleep.result_step notPoll (by simp [known]) next]

theorem ended_next (known : b.ended delays ≠ none) : b.next delays i = none := by
  simp only [Body.next, ite_eq_right_iff, reduceCtorEq, imp_false, not_and]
  intro ready more
  obtain ⟨d, hd⟩ := Option.isSome_iff_exists.mp more
  simp [Body.ended, hd, ready] at known

theorem returned_of_ended (h : b.ended delays = some true) :
    b.beats ≠ [] ∧ b.delay delays = none := by
  unfold Body.ended at h
  split at h
  · cases h
  · cases hd : b.delay delays with
    | none => exact ⟨‹_›, rfl⟩
    | some d =>
      simp only [hd] at h
      split at h <;> cases h

theorem pending_of_ended (h : b.ended delays = some false) :
    b.beats ≠ [] ∧ (∃ d, b.delay delays = some d) ∧ b.sleep.result = some false := by
  unfold Body.ended at h
  split at h
  · cases h
  · cases hd : b.delay delays with
    | none =>
      rw [hd] at h
      cases h
    | some d =>
      simp only [hd] at h
      split at h
      · exact ⟨‹_›, ⟨d, rfl⟩, ‹_›⟩
      · cases h

theorem ended_enter (returned : b.ended delays = some true) : b.enter delays i = none := by
  obtain ⟨begun, elapsed⟩ := returned_of_ended returned
  simp [Body.enter, begun, elapsed]

/-! The tasks on the runtime. -/

/-- The tasks of a program, each with its delays, and the timer that wakes them. -/
def machine (delays : ι → ℕ → Option ℕ) : Machine ι (ι → Body ι) (Op ι) where
  enter d i := ((d i).enter (delays i) i).map (update d i)
  step d
    | .sleep i a => ((d i).move a).map (update d i)
    | .next i => ((d i).next (delays i) i).map (update d i)
    | .tick => some fun i => (d i).tick
  invoked d
    | .sleep i a => (d i).sleep.invoked a
    | .next _ | .tick => none
  ended d i := (d i).ended (delays i)

/-- No callout stores FIRED before its poll has stored ARMED. -/
def InTime (d : ι → Body ι) : Op ι → Prop
  | .sleep i a => Sleep.ArmedFirst (d i).sleep a
  | .next _ | .tick => True

/-- The `Drop` of a `Sleep` waits, in `hrt_cancel`, for a callout that is under way. -/
def CancelWaits (d : ι → Body ι) : Op ι → Prop
  | .next i => (d i).sleep.timer = .idle
  | .sleep _ _ | .tick => True

instance (d : ι → Body ι) : ∀ x, Decidable (InTime d x)
  | .sleep i a => inferInstanceAs (Decidable (Sleep.ArmedFirst (d i).sleep a))
  | .next _ | .tick => .isTrue trivial

instance (d : ι → Body ι) : ∀ x, Decidable (CancelWaits d x)
  | .next i => inferInstanceAs (Decidable ((d i).sleep.timer = .idle))
  | .sleep _ _ | .tick => .isTrue trivial

variable {delays : ι → ℕ → Option ℕ} {d e : ι → Body ι} {x : Op ι}

theorem contract (delays : ι → ℕ → Option ℕ) : Contract (machine delays)
    (fun d x => InTime d x ∧ CancelWaits d x) (fun d => ∀ i, Good (delays i) (d i))
    (fun d i => Promised (delays i) i (d i)) where
  enters d e i good enters := by
    simp only [machine, Option.map_eq_some_iff] at enters
    obtain ⟨b, enters, rfl⟩ := enters
    obtain ⟨kept, promised⟩ := (good i).enter enters
    exact ⟨(forall_update_iff d fun j b => Good (delays j) b).mpr ⟨kept, fun j _ => good j⟩,
      by simpa using promised⟩
  others d e i j enters other := by
    simp only [machine, Option.map_eq_some_iff] at enters
    obtain ⟨b, _, rfl⟩ := enters
    simp [machine, update_of_ne other]
  final d e i enters returned := by
    simp only [machine, Option.map_eq_some_iff] at enters
    obtain ⟨b, enters, rfl⟩ := enters
    rw [ended_enter returned] at enters
    cases enters
  moves d e x good guard moves := by
    cases x with
    | sleep j a =>
      simp only [machine, Option.map_eq_some_iff] at moves
      obtain ⟨b, moves, rfl⟩ := moves
      exact (forall_update_iff d fun j b => Good (delays j) b).mpr
        ⟨(good j).move guard.1 moves, fun k _ => good k⟩
    | next j =>
      simp only [machine, Option.map_eq_some_iff] at moves
      obtain ⟨b, next, rfl⟩ := moves
      exact (forall_update_iff d fun j b => Good (delays j) b).mpr
        ⟨((good j).next guard.2 next).1, fun k _ => good k⟩
    | tick =>
      cases moves
      exact fun j => (good j).tick
  keeps d e x i good guard moves promised := by
    cases x with
    | sleep j a =>
      simp only [machine, Option.map_eq_some_iff] at moves
      obtain ⟨b, moves, rfl⟩ := moves
      by_cases hi : i = j
      · subst hi
        simpa [machine] using promised.move (good i) moves
      · exact .inl (by simpa [update_of_ne hi] using promised)
    | next j =>
      simp only [machine, Option.map_eq_some_iff] at moves
      obtain ⟨b, next, rfl⟩ := moves
      by_cases hi : i = j
      · subst hi
        exact .inl (by simpa using ((good i).next guard.2 next).2)
      · exact .inl (by simpa [update_of_ne hi] using promised)
    | tick =>
      cases moves
      exact .inl (promised.tick (good i))
  stays d e x i moves known := by
    cases x with
    | sleep j a =>
      simp only [machine, Option.map_eq_some_iff] at moves
      obtain ⟨b, moves, rfl⟩ := moves
      by_cases hi : i = j
      · subst hi
        simpa [machine] using ended_move known moves
      · simp [machine, update_of_ne hi]
    | next j =>
      simp only [machine, Option.map_eq_some_iff] at moves
      obtain ⟨b, next, rfl⟩ := moves
      by_cases hi : i = j
      · subst hi
        rw [ended_next known] at next
        cases next
      · simp [machine, update_of_ne hi]
    | tick =>
      cases moves
      rfl

def spawns : TaskCell.Act τ → Bool
  | .spawn _ => true
  | _ => false

/-- A task is not spawned again once it has been polled and has returned. -/
def SpawnedOnce (s : Futures.State ι τ (ι → Body ι)) : Futures.Act ι τ (Op ι) → Prop
  | .runtime i a => spawns a = true → (s.rt.cell i).cloned = false ∨ (s.rt.cell i).word ≠ 0#8
  | .poll _ | .future _ _ => True

/-- The three conditions on a run. -/
def Guard (s : Futures.State ι τ (ι → Body ι)) (a : Futures.Act ι τ (Op ι)) : Prop :=
  SpawnedOnce s a ∧ ∀ x u, a = .future x u → InTime s.fut x ∧ CancelWaits s.fut x

instance (s : Futures.State ι τ (ι → Body ι)) : ∀ a, Decidable (SpawnedOnce s a)
  | .runtime i a => inferInstanceAs (Decidable
    (spawns a = true → (s.rt.cell i).cloned = false ∨ (s.rt.cell i).word ≠ 0#8))
  | .poll _ | .future _ _ => .isTrue trivial

instance (s : Futures.State ι τ (ι → Body ι)) : ∀ a, Decidable (Guard s a)
  | .runtime i a => decidable_of_iff (SpawnedOnce s (.runtime i a)) (by simp [Guard])
  | .poll i => .isTrue (by simp [Guard, SpawnedOnce])
  | .future x u => decidable_of_iff (InTime s.fut x ∧ CancelWaits s.fut x)
    (by simp [Guard, SpawnedOnce])

variable {as : List (Futures.Act ι τ (Op ι))} {s : Futures.State ι τ (ι → Body ι)}

/-- Whatever the tasks, their delays, the order of all operations, and whoever else wakes them,
where each task is spawned once, no callout stores FIRED before its poll has stored ARMED, and
`hrt_cancel` waits for a callout under way: between two pieces of work of a task lies the sleep
after the first at least, and no task is left asleep. Where nothing of the runtime is under way
at its cell, a task that was spawned has returned after its last piece of work, or it awaits a
sleep that the timer is still to end. All of this happens on the runtime, operation by
operation. -/
theorem sleeping_tasks_go_on
    (run : Run (Futures.step (machine delays)) Guard (start fun _ => Body.new) as s) :
    (∀ i k x y, (s.fut i).beats[k]? = some x → (s.fut i).beats[k + 1]? = some y →
      ∃ d, delays i k = some d ∧ x + min d (2 ^ 64 - 1) ≤ y) ∧
    (∀ i, (s.rt.cell i).handle ≠ none → Quiet s.rt i → (s.fut i).beats ≠ [] ∧
      if TaskCell.isSpawned (s.rt.cell i).word then
        (s.fut i).sleep.hrt ≠ [] ∨ (s.fut i).sleep.timer ≠ .idle
      else delays i ((s.fut i).beats.length - 1) = none) ∧
    ∃ ls, Run Runtime.step Free (Runtime.init : Runtime.State ι τ) ls s.rt := by
  have held := (contract delays).held (fun _ => good_new)
    (fun _ x u guard => guard.2 x u rfl) run
  refine ⟨fun i => (held.fut i).apart, fun i stored quiet => ?_, exists_runtime_run run⟩
  obtain ⟨returned, ended⟩ | ⟨live, ended, promised⟩ := held.quiet quiet stored
  · obtain ⟨begun, elapsed⟩ := returned_of_ended ended
    exact ⟨begun, by simpa [returned, Body.delay] using elapsed⟩
  · obtain ⟨begun, ⟨d, hd⟩, pending⟩ := pending_of_ended ended
    refine ⟨begun, ?_⟩
    rw [if_pos live]
    obtain elapsed | awaited := promised
    · rw [hd] at elapsed
      cases elapsed
    · exact awaited.pending (held.fut i).holds pending

def nap : Unit → ℕ → Option ℕ := fun _ k => if k = 0 then some 2 else none

def napRuntime (as : List (TaskCell.Act Unit)) : List (Futures.Act Unit Unit (Op Unit)) :=
  as.map (.runtime ())

def napSleep (as : List (Sleep.Act Unit)) : List (Futures.Act Unit Unit (Op Unit)) :=
  as.map fun a => .future (.sleep () a) ()

def napRun : List (Futures.Act Unit Unit (Op Unit)) :=
  napRuntime ((Runtime.spawnOnce ()).map Prod.snd ++ [.pop, .fetchAnd]) ++ [.poll ()] ++
  napSleep (Sleep.arm.tail ++ [.storeArmed]) ++ napRuntime [.pending] ++
  [.future .tick (), .future .tick ()] ++ napSleep (.fire 2 :: Sleep.callout.tail) ++
  napRuntime [.wakeLoad (), .wakeSchedule () 0 false, .pop, .fetchAnd] ++ [.poll ()] ++
  napSleep [.load ()] ++ [.future (.next ()) ()] ++ napRuntime [.ready, .drop, .store]

theorem sleeping_tasks_go_on_nap : ∃ s : Futures.State Unit Unit (Unit → Body Unit),
    (s.fut ()).beats = [0, 2] ∧ (∃ d, nap () 0 = some d ∧ 0 + min d (2 ^ 64 - 1) ≤ 2) ∧
      nap () ((s.fut ()).beats.length - 1) = none := by
  obtain ⟨s, run, hs⟩ := exists_run (Futures.step (machine nap)) Guard (start fun _ => Body.new)
    napRun (fun s => (s.fut ()).beats = [0, 2] ∧ (s.rt.cell ()).handle ≠ none ∧
      (s.rt.cell ()).pc () = .idle ∧ s.rt.running = none ∧ s.rt.fifo = [] ∧
      TaskCell.isSpawned (s.rt.cell ()).word = false) rfl
  simp only [decide_eq_true_eq] at hs
  obtain ⟨beats, stored, idle, outside, empty, returned⟩ := hs
  obtain ⟨apart, rest, _⟩ := sleeping_tasks_go_on run
  refine ⟨s, beats, apart () 0 0 2 (by simp [beats]) (by simp [beats]), ?_⟩
  obtain ⟨_, elapsed⟩ := rest () stored ⟨fun _ => idle, by simp [outside], by simp [empty]⟩
  simpa [returned] using elapsed

end Px4Rs.Sleepers
