import Px4Rs.AtomicWaker
import Px4Rs.Runs

/-! A `Sleep` future against its timer. The polling task and the HRT callback share the
state byte and the `AtomicWaker`; every load, store and queue operation is a step, and
the callback may run as soon as its entry is queued and due. -/
namespace Px4Rs.Sleep
open Px4Rs.Runs Px4Rs.AtomicWaker
variable {ω : Type*}

inductive Phase where
  | idle | armed | fired
deriving DecidableEq

inductive Poll (ω : Type*) where
  | idle
  | load (w : ω)
  | registerArmed (r : Register ω)
  | recheck
  | registerFirst (r : Register ω)
  | callAfter
  | storeArmed
deriving DecidableEq

inductive Timer (ω : Type*) where
  | idle
  | storeFired
  | wake (p : Wake ω)
deriving DecidableEq

/-- A finished poll: whether FIRED was stored before it began, whether it returned
Ready, and whether FIRED was stored by then. -/
structure Polled where
  late : Bool
  ready : Bool
  fired : Bool
deriving DecidableEq

/- `hrt` holds the deadlines of the queued entries and `now` the clock. `fired` (the
   callout has stored FIRED), `late` and `polls` are history. -/
structure State (ω : Type*) where
  delayUs : Nat
  state : Phase
  waker : AtomicWaker ω
  hrt : List Nat
  now : Nat
  poll : Poll ω
  timer : Timer ω
  woken : List ω
  fired : Bool
  late : Bool
  polls : List Polled

/-- `Sleep::new`: microseconds, saturating at `u64::MAX`. -/
def new (micros : Nat) : State ω where
  delayUs := min micros (2 ^ 64 - 1)
  state := .idle
  waker := AtomicWaker.new
  hrt := []
  now := 0
  poll := .idle
  timer := .idle
  woken := []
  fired := false
  late := false
  polls := []

/-- Steps of the two parties; `tick` lets time pass. -/
inductive Act (ω : Type*) where
  | poll (w : ω)
  | load (w : ω)
  | registerArmed (r : Register ω)
  | recheck
  | registerFirst (r : Register ω)
  | callAfter
  | storeArmed
  | fire (deadline : Nat)
  | storeFired
  | wake (p : Wake ω)
  | tick

/-- Leave `poll` with `Poll::Ready(())` or `Poll::Pending`. -/
@[simps] def State.finish (s : State ω) (ready : Bool) : State ω :=
  { s with poll := .idle, polls := ⟨s.late, ready, s.fired⟩ :: s.polls }

/-- The shared effects of one operation of `register` or `wake`. -/
@[simps] def State.after {π : Type*} (s : State ω) (x : After ω π) : State ω :=
  { s with waker := x.cell, woken := x.invoked.toList ++ s.woken }

variable [DecidableEq ω]

def step (s : State ω) : Act ω → Option (State ω)
  | .poll w =>
    if s.poll = .idle then some { s with poll := .load w, late := s.fired } else none
  | .load w =>
    if s.poll = .load w then
      match s.state with
      | .fired => some (s.finish true)
      | .armed => some { s with poll := .registerArmed (.acquire w) }
      | .idle => some { s with poll := .registerFirst (.acquire w) }
    else none
  | .registerArmed r =>
    if s.poll = .registerArmed r then
      let x := r.step s.waker
      some { s.after x with poll := if x.pc = .done then .recheck else .registerArmed x.pc }
    else none
  | .recheck =>
    if s.poll = .recheck then some (s.finish (s.state = .fired)) else none
  | .registerFirst r =>
    if s.poll = .registerFirst r then
      let x := r.step s.waker
      some { s.after x with poll := if x.pc = .done then .callAfter else .registerFirst x.pc }
    else none
  | .callAfter =>
    if s.poll = .callAfter then
      some { s with hrt := (s.now + s.delayUs) :: s.hrt, poll := .storeArmed }
    else none
  | .storeArmed =>
    if s.poll = .storeArmed then some ({ s with state := .armed }.finish false) else none
  | .fire deadline =>
    if s.timer = .idle ∧ deadline ∈ s.hrt ∧ deadline ≤ s.now then
      some { s with hrt := s.hrt.erase deadline, timer := .storeFired }
    else none
  | .storeFired =>
    if s.timer = .storeFired then
      some { s with state := .fired, fired := true, timer := .wake .fetchOr }
    else none
  | .wake p =>
    if s.timer = .wake p then
      let x := p.step s.waker
      some { s.after x with timer := if x.pc = .done then .idle else .wake x.pc }
    else none
  | .tick => some { s with now := s.now + 1 }

inductive Steps (s : State ω) : Act ω → State ω → Prop
  | poll {w} (hp : s.poll = .idle) : Steps s (.poll w) { s with poll := .load w, late := s.fired }
  | loadFired {w} (hp : s.poll = .load w) (hs : s.state = .fired) :
    Steps s (.load w) (s.finish true)
  | loadArmed {w} (hp : s.poll = .load w) (hs : s.state = .armed) :
    Steps s (.load w) { s with poll := .registerArmed (.acquire w) }
  | loadIdle {w} (hp : s.poll = .load w) (hs : s.state = .idle) :
    Steps s (.load w) { s with poll := .registerFirst (.acquire w) }
  | registerArmed {r} (hp : s.poll = .registerArmed r) :
    Steps s (.registerArmed r) { s.after (r.step s.waker) with
      poll := if (r.step s.waker).pc = .done then .recheck
        else .registerArmed (r.step s.waker).pc }
  | recheck (hp : s.poll = .recheck) : Steps s .recheck (s.finish (s.state = .fired))
  | registerFirst {r} (hp : s.poll = .registerFirst r) :
    Steps s (.registerFirst r) { s.after (r.step s.waker) with
      poll := if (r.step s.waker).pc = .done then .callAfter
        else .registerFirst (r.step s.waker).pc }
  | callAfter (hp : s.poll = .callAfter) :
    Steps s .callAfter { s with hrt := (s.now + s.delayUs) :: s.hrt, poll := .storeArmed }
  | storeArmed (hp : s.poll = .storeArmed) :
    Steps s .storeArmed ({ s with state := .armed }.finish false)
  | fire {d} (ht : s.timer = .idle) (hd : d ∈ s.hrt) (due : d ≤ s.now) :
    Steps s (.fire d) { s with hrt := s.hrt.erase d, timer := .storeFired }
  | storeFired (ht : s.timer = .storeFired) :
    Steps s .storeFired { s with state := .fired, fired := true, timer := .wake .fetchOr }
  | wake {p} (ht : s.timer = .wake p) :
    Steps s (.wake p) { s.after (p.step s.waker) with
      timer := if (p.step s.waker).pc = .done then .idle else .wake (p.step s.waker).pc }
  | tick : Steps s .tick { s with now := s.now + 1 }

theorem steps_of_step {s t : State ω} {a : Act ω} (next : step s a = some t) : Steps s a t := by
  cases a with
  | load w =>
    simp only [step, Option.ite_none_right_eq_some] at next
    obtain ⟨hp, next⟩ := next
    split at next <;> cases next
    · exact .loadFired hp ‹_›
    · exact .loadArmed hp ‹_›
    · exact .loadIdle hp ‹_›
  | fire d =>
    simp only [step, Option.ite_none_right_eq_some, Option.some.injEq] at next
    obtain ⟨⟨ht, hd, due⟩, rfl⟩ := next
    exact .fire ht hd due
  | tick =>
    cases next
    exact .tick
  | poll | registerArmed | recheck | registerFirst | callAfter | storeArmed | storeFired | wake =>
    simp only [step, Option.ite_none_right_eq_some, Option.some.injEq] at next
    obtain ⟨here, rfl⟩ := next
    constructor
    exact here

/-- Every poll that began after FIRED was stored returned Ready, and every poll that
returned Ready did so after FIRED was stored. -/
def FiredStays (s : State ω) : Prop :=
  ∀ p ∈ s.polls, (p.late = true → p.ready = true) ∧ (p.ready = true → p.fired = true)

/-- The callout's store of FIRED does not fall between `call_after` and the store of
ARMED that follows it. -/
def ArmedFirst (s : State ω) : Act ω → Prop
  | .storeFired => s.poll ≠ .storeArmed
  | _ => True

instance (s : State ω) : ∀ a, Decidable (ArmedFirst s a)
  | .storeFired => inferInstanceAs (Decidable (s.poll ≠ .storeArmed))
  | .poll _ | .load _ | .registerArmed _ | .recheck | .registerFirst _ | .callAfter | .storeArmed
  | .fire _ | .wake _ | .tick => .isTrue trivial

/-- The positions of a poll that found the state IDLE, up to `call_after`. -/
def Poll.arming : Poll ω → Bool
  | .registerFirst _ | .callAfter => true
  | _ => false

/-- The positions of a poll that found the state ARMED. -/
def Poll.waiting : Poll ω → Bool
  | .registerArmed _ | .recheck => true
  | _ => false

/- The one entry is queued by the one poll that finds IDLE, and until that poll stores
   ARMED the callout has not stored FIRED. -/
structure Inv (s : State ω) : Prop where
  fired : s.fired = true ↔ s.state = .fired
  entry : s.hrt = [] ∨ s.hrt.length = 1 ∧ s.timer = .idle
  unarmed : s.state = .idle → s.poll ≠ .storeArmed → s.hrt = [] ∧ s.timer = .idle
  arming : s.poll.arming = true ∨ s.poll = .storeArmed → s.state = .idle
  waiting : s.poll.waiting = true → s.state ≠ .idle
  late : s.late = true → s.fired = true
  early : s.poll.arming = true ∨ s.poll.waiting = true ∨ s.poll = .storeArmed → s.late = false
  polls : FiredStays s

omit [DecidableEq ω] in
theorem inv_new (micros : Nat) : Inv (new micros : State ω) := by
  constructor <;> simp [new, Poll.arming, Poll.waiting, FiredStays]

omit [DecidableEq ω] in
theorem Inv.move {s t : State ω} (h : Inv s) (fired : t.fired = s.fired)
    (state : t.state = s.state) (hrt : t.hrt = s.hrt) (timer : t.timer = s.timer)
    (late : t.late = s.late) (polls : t.polls = s.polls)
    (arming : t.poll.arming = s.poll.arming) (waiting : t.poll.waiting = s.poll.waiting)
    (hs : s.poll ≠ .storeArmed) (ht : t.poll ≠ .storeArmed) : Inv t where
  fired := by rw [fired, state]; exact h.fired
  entry := by rw [hrt, timer]; exact h.entry
  unarmed hi _ := by rw [hrt, timer]; exact h.unarmed (state ▸ hi) hs
  arming ha := by
    obtain ha | ha := ha
    · rw [state]; exact h.arming (.inl (arming ▸ ha))
    · exact absurd ha ht
  waiting hw := by rw [state]; exact h.waiting (waiting ▸ hw)
  late hl := by rw [fired]; exact h.late (late ▸ hl)
  early he := by
    rw [late]
    obtain he | he | he := he
    · exact h.early (.inl (arming ▸ he))
    · exact h.early (.inr (.inl (waiting ▸ he)))
    · exact absurd he ht
  polls := by rw [FiredStays, polls]; exact h.polls

omit [DecidableEq ω] in
theorem Inv.finish {s : State ω} (h : Inv s) {ready : Bool} (hs : s.poll ≠ .storeArmed)
    (late : s.late = true → ready = true) (fired : ready = true → s.fired = true) :
    Inv (s.finish ready) where
  fired := h.fired
  entry := h.entry
  unarmed hi _ := h.unarmed hi hs
  arming ha := by simp [Poll.arming] at ha
  waiting hw := by simp [Poll.waiting] at hw
  late := h.late
  early he := by simp [Poll.arming, Poll.waiting] at he
  polls := by
    intro p hp
    obtain rfl | hp := List.mem_cons.mp hp
    · exact ⟨late, fired⟩
    · exact h.polls p hp

omit [DecidableEq ω] in
theorem Inv.not_late {s : State ω} (h : Inv s) (hs : s.state ≠ .fired) : s.late = false := by
  cases hl : s.late with
  | false => rfl
  | true => exact absurd (h.fired.mp (h.late hl)) hs

omit [DecidableEq ω] in
theorem Inv.empty_of_timer {s : State ω} (h : Inv s) (ht : s.timer ≠ .idle) : s.hrt = [] := by
  obtain he | ⟨_, hi⟩ := h.entry
  · exact he
  · exact absurd hi ht

theorem inv_step {s t : State ω} {a : Act ω} (h : Inv s) (g : ArmedFirst s a)
    (next : step s a = some t) : Inv t := by
  cases steps_of_step next with
  | poll hp =>
    exact ⟨h.fired, h.entry, fun hi _ => h.unarmed hi (by simp [hp]), by simp [Poll.arming],
      by simp [Poll.waiting], id, by simp [Poll.arming, Poll.waiting], h.polls⟩
  | loadFired hp hs => exact h.finish (by simp [hp]) (fun _ => rfl) fun _ => h.fired.mpr hs
  | loadArmed hp hs =>
    exact ⟨h.fired, h.entry, fun hi _ => h.unarmed hi (by simp [hp]), by simp [Poll.arming],
      by simp [hs], h.late, fun _ => h.not_late (by simp [hs]), h.polls⟩
  | loadIdle hp hs =>
    exact ⟨h.fired, h.entry, fun hi _ => h.unarmed hi (by simp [hp]), fun _ => hs,
      by simp [Poll.waiting], h.late, fun _ => h.not_late (by simp [hs]), h.polls⟩
  | registerArmed hp | registerFirst hp =>
    refine h.move rfl rfl rfl rfl rfl rfl ?_ ?_ (by simp [hp]) ?_
    · rw [hp]; split <;> rfl
    · rw [hp]; split <;> rfl
    · split <;> simp
  | recheck hp =>
    have hl : s.late = false := h.early (.inr (.inl (by rw [hp]; rfl)))
    refine h.finish (by simp [hp]) (by simp [hl]) fun hr => h.fired.mpr ?_
    simpa using hr
  | callAfter hp =>
    have arming : s.poll.arming = true := by rw [hp]; rfl
    have idle := h.arming (.inl arming)
    obtain ⟨empty, timer⟩ := h.unarmed idle (by simp [hp])
    exact ⟨h.fired, .inr ⟨by simp [empty], timer⟩, by simp, fun _ => idle, by simp [Poll.waiting],
      h.late, fun _ => h.early (.inl arming), h.polls⟩
  | storeArmed hp =>
    have idle := h.arming (.inr hp)
    have unfired : s.fired = false := by
      have := h.fired
      simpa [idle] using this
    have unlate := h.not_late (by simp [idle])
    refine ⟨by simp [unfired], h.entry, by simp, by simp [Poll.arming], by simp, h.late,
      fun _ => unlate, ?_⟩
    intro p hp
    obtain rfl | hp := List.mem_cons.mp hp
    · simp [unlate]
    · exact h.polls p hp
  | @fire d ht hd _ =>
    have last : s.hrt.erase d = [] := by
      obtain he | ⟨he, _⟩ := h.entry
      · simp [he] at hd
      · obtain ⟨e, he⟩ := List.length_eq_one_iff.mp he
        rw [he, List.mem_singleton] at hd
        simp [he, hd]
    refine ⟨h.fired, .inl last, fun hi hs => ?_, h.arming, h.waiting, h.late, h.early, h.polls⟩
    simp [(h.unarmed hi hs).1] at hd
  | storeFired ht =>
    have empty := h.empty_of_timer (by simp [ht])
    refine ⟨by simp, .inl empty, by simp, fun ha => ?_, by simp, by simp, h.early, h.polls⟩
    -- the timer is busy, so no poll is arming
    have timer := (h.unarmed (h.arming ha) g).2
    simp [ht] at timer
  | wake ht =>
    have empty := h.empty_of_timer (by simp [ht])
    refine ⟨h.fired, .inl empty, fun hi hs => ?_, h.arming, h.waiting, h.late, h.early, h.polls⟩
    have timer := (h.unarmed hi hs).2
    simp [ht] at timer
  | tick => exact ⟨h.fired, h.entry, h.unarmed, h.arming, h.waiting, h.late, h.early, h.polls⟩

/-- FIRED was stored and is about to be, or has been, overwritten by ARMED, with no
callout left to store it again. -/
structure Lost (before s : State ω) : Prop where
  entry : s.hrt = []
  timer : s.timer ≠ .storeFired
  state : s.poll = .storeArmed ∨ s.state = .armed ∧ s.poll.arming = false
  polls : ∃ later, s.polls = later ++ before.polls ∧ ∀ p ∈ later, p.ready = false

omit [DecidableEq ω] in
theorem State.finish_pending {before s : State ω}
    (h : ∃ later, s.polls = later ++ before.polls ∧ ∀ p ∈ later, p.ready = false) :
    ∃ later, (s.finish false).polls = later ++ before.polls ∧ ∀ p ∈ later, p.ready = false := by
  obtain ⟨later, hl, hp⟩ := h
  exact ⟨⟨s.late, false, s.fired⟩ :: later, by simp [hl], by simpa using hp⟩

theorem lost_step {before s t : State ω} {a : Act ω} (h : Lost before s)
    (next : step s a = some t) : Lost before t := by
  obtain ⟨entry, timer, state, polls⟩ := h
  have past (hs : s.poll ≠ .storeArmed) : s.state = .armed ∧ s.poll.arming = false :=
    state.resolve_left hs
  cases steps_of_step next with
  | poll hp => exact ⟨entry, timer, .inr ⟨(past (by simp [hp])).1, rfl⟩, polls⟩
  | loadArmed hp hs => exact ⟨entry, timer, .inr ⟨hs, rfl⟩, polls⟩
  | loadFired hp hs | loadIdle hp hs =>
    -- the state is ARMED
    have armed := (past (by simp [hp])).1
    rw [hs] at armed
    cases armed
  | registerArmed hp =>
    refine ⟨entry, timer, .inr ⟨(past (by simp [hp])).1, ?_⟩, polls⟩
    split <;> rfl
  | recheck hp =>
    have armed := (past (by simp [hp])).1
    rw [armed]
    exact ⟨entry, timer, .inr ⟨armed, rfl⟩, State.finish_pending polls⟩
  | registerFirst hp | callAfter hp =>
    -- no poll found IDLE
    exact absurd (past (by simp [hp])).2 (by simp [hp, Poll.arming])
  | storeArmed => exact ⟨entry, timer, .inr ⟨rfl, rfl⟩, State.finish_pending polls⟩
  | fire _ hd _ => simp [entry] at hd
  | storeFired ht => exact absurd ht timer
  | wake =>
    refine ⟨entry, ?_, state, polls⟩
    split <;> simp
  | tick => exact ⟨entry, timer, state, polls⟩

/-- If the callout never stores FIRED inside the window between `call_after` and the store
of ARMED, a fired Sleep stays fired. If it does, no later poll ever returns Ready. -/
theorem fired_stays_fired {micros : Nat} {as : List (Act ω)} {s : State ω}
    (h : Run step ArmedFirst (new micros) as s) :
    FiredStays s ∧
    ∀ t bs u, ¬ ArmedFirst s .storeFired → step s .storeFired = some t → Run step Free t bs u →
      ∃ later, u.polls = later ++ s.polls ∧ ∀ p ∈ later, p.ready = false := by
  have inv := h.invariant (inv_new micros) fun _ _ _ => inv_step
  refine ⟨inv.polls, fun t bs u window next run => ?_⟩
  have lost : Lost s t := by
    simp only [ArmedFirst, ne_eq, not_not] at window
    cases steps_of_step next with
    | storeFired ht =>
      exact ⟨inv.empty_of_timer (by simp [ht]), by simp, .inl window, [], rfl, by simp⟩
  exact (run.invariant lost fun _ _ _ hl _ => lost_step hl).polls

/-- No poll that returned Ready did so before FIRED was stored. -/
def ReadyFired (s : State ω) : Prop :=
  (s.state = .fired → s.fired = true) ∧ ∀ p ∈ s.polls, p.ready = true → p.fired = true

omit [DecidableEq ω] in
theorem ReadyFired.finish {s : State ω} (h : ReadyFired s) {ready : Bool}
    (hr : ready = true → s.fired = true) : ReadyFired (s.finish ready) := by
  refine ⟨h.1, fun p hp => ?_⟩
  obtain rfl | hp := List.mem_cons.mp hp
  · exact hr
  · exact h.2 p hp

theorem readyFired_step {s t : State ω} {a : Act ω} (h : ReadyFired s)
    (next : step s a = some t) : ReadyFired t := by
  cases steps_of_step next with
  | loadFired _ hs => exact h.finish fun _ => h.1 hs
  | recheck => exact h.finish fun hr => h.1 (by simpa using hr)
  | storeArmed =>
    have armed : ReadyFired { s with state := .armed } := ⟨by simp, h.2⟩
    exact armed.finish (by simp)
  | storeFired => exact ⟨fun _ => rfl, h.2⟩
  | poll | loadArmed | loadIdle | registerArmed | registerFirst | callAfter | fire | wake | tick =>
    exact h

/-- No poll returns Ready before FIRED is stored, wherever the callout runs. -/
theorem ready_after_fired {micros : Nat} {as : List (Act ω)} {s : State ω}
    (h : Run step Free (new micros) as s) : ReadyFired s :=
  h.invariant ⟨by simp [new], by simp [new]⟩ fun _ _ _ hs _ => readyFired_step hs

def arm : List (Act Unit) :=
  [.poll (), .load (), .registerFirst (.acquire ()), .registerFirst (.write ()),
    .registerFirst .release, .callAfter]

def callout : List (Act Unit) :=
  [.fire 0, .storeFired, .wake .fetchOr, .wake .takeSlot, .wake (.fetchAnd (some ())),
    .wake (.invoke ())]

theorem fired_stays_fired_zero :
    ∃ s, Run step ArmedFirst (new 0)
        (arm ++ [.storeArmed] ++ callout ++ [.poll (), .load ()]) s ∧
      s.polls = [⟨true, true, true⟩, ⟨false, false, false⟩] ∧ FiredStays s := by
  obtain ⟨s, run, hs⟩ := exists_run step ArmedFirst (new 0)
    (arm ++ [.storeArmed] ++ callout ++ [.poll (), .load ()])
    (fun s => s.polls = [⟨true, true, true⟩, ⟨false, false, false⟩]) rfl
  exact ⟨s, run, by simpa using hs, (fired_stays_fired run).1⟩

/-- With no delay the callout can run to its end before the poll that armed it stores
ARMED; the next poll then finds ARMED and returns Pending. -/
theorem fired_is_overwritten :
    ∃ s, Run step Free (new 0)
        (arm ++ callout ++ [.storeArmed, .poll (), .load (), .registerArmed (.acquire ()),
          .registerArmed (.write ()), .registerArmed .release, .recheck]) s ∧
      s.polls = [⟨true, false, true⟩, ⟨false, false, true⟩] ∧ ¬ FiredStays s := by
  obtain ⟨s, run, hs⟩ := exists_run step Free (new 0)
    (arm ++ callout ++ [.storeArmed, .poll (), .load (), .registerArmed (.acquire ()),
      .registerArmed (.write ()), .registerArmed .release, .recheck])
    (fun s => s.polls = [⟨true, false, true⟩, ⟨false, false, true⟩]) rfl
  have polls : s.polls = [⟨true, false, true⟩, ⟨false, false, true⟩] := by simpa using hs
  exact ⟨s, run, polls, fun h => by simpa using (h ⟨true, false, true⟩ (by simp [polls])).1⟩

end Px4Rs.Sleep
