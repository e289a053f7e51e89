import Px4Rs.Sleep
import Px4Rs.Parking

/-! What a `Sleep` gives its task: it is never Ready before its delay is over, a poll that
was left Pending is woken once the callout is done, and `Drop` finds every entry. -/
namespace Px4Rs.Sleep
open Px4Rs.Runs Px4Rs.AtomicWaker
variable {ω : Type*} {micros : Nat} {s t : State ω} {w : Option ω} {before : List ω}

/-! The waker of the last poll. -/

def Poll.call : Poll ω → Call ω
  | .registerArmed p | .registerFirst p => .register p
  | _ => .idle

def Timer.call : Timer ω → Call ω
  | .wake p => .wake p
  | _ => .idle

/-- The waker that is still to be registered. -/
def Poll.offers : Poll ω → Option ω
  | .load v | .registerArmed (.acquire v) | .registerFirst (.acquire v) => some v
  | _ => none

/-- The waker that a poll that began with `w` has registered. -/
def State.waits (s : State ω) (w : Option ω) : Option ω :=
  match s.poll.offers with
  | some _ => none
  | none => w

/-- News are a FIRED stored after the poll has looked for the last time. -/
def State.view (s : State ω) (w : Option ω) (later : List ω) : View Unit ω where
  cell := s.waker
  task := s.poll.call
  others _ := s.timer.call
  invoked := later
  waits := s.waits w
  news := s.poll = .idle ∧ s.fired = true
  owing _ := s.timer = .wake .fetchOr

/- `w` is the waker of the last poll that began, unless that returned Ready, and `before`
   what had been invoked by then. -/
structure Watch (w : Option ω) (before : List ω) (s : State ω) : Prop where
  begun : s.poll ≠ .idle → w ≠ none
  offers : ∀ v, s.poll.offers = some v → w = some v
  sound : ∃ later, s.woken = later.reverse ++ before ∧ Sound (s.view w later)

theorem watch_new : Watch none [] (new micros : State ω) := by
  refine ⟨by simp [new], by simp [new, Poll.offers], [], rfl, ?_⟩
  exact .fresh rfl rfl (fun _ => rfl) rfl

theorem offers_of_call {q : Poll ω} {v : ω} (h : q.call = .register (.acquire v)) :
    q.offers = some v := by
  cases q with
  | registerArmed p | registerFirst p =>
    cases h
    rfl
  | idle | load | recheck | callAfter | storeArmed => cases h

theorem offers_of_past {q : Poll ω} {p : Register ω} (h : q.call = .register p)
    (past : ∀ v, p ≠ .acquire v) : q.offers = none := by
  cases q with
  | registerArmed r | registerFirst r =>
    cases h
    cases p with
    | acquire v => exact absurd rfl (past v)
    | write | release | drain | swap | invoke | done => rfl
  | idle | load | recheck | callAfter | storeArmed => cases h

/-- A step of the poll outside `register`, which leaves nothing unseen. -/
theorem Watch.poll_move {w' : Option ω} (h : Watch w before s) (outside : s.poll.call = .idle)
    (call : t.poll.call = .idle ∨ ∃ v, t.poll.call = .register (.acquire v))
    (begun : t.poll ≠ .idle → w' ≠ none) (offers : ∀ v, t.poll.offers = some v → w' = some v)
    (waits : t.waits w' ≠ none → t.waits w' = s.waits w)
    (seen : w' ≠ none → t.poll = .idle → t.fired = false) (waker : t.waker = s.waker)
    (timer : t.timer = s.timer) (woken : t.woken = s.woken) : Watch w' before t := by
  obtain ⟨later, hl, sound⟩ := h.sound
  have waits_of_offers {v : ω} (hv : t.poll.offers = some v) : t.waits w' = none := by
    simp only [State.waits, hv]
  refine ⟨begun, offers, later, woken.trans hl, ?_⟩
  apply sound.task_move (q := t.poll.call) outside
  · obtain idle | ⟨v, hv⟩ := call
    · exact .inl idle
    · exact .inr ⟨v, hv, waits_of_offers (offers_of_call hv)⟩
  · exact waker
  · rfl
  · simp only [State.view, timer]
  · exact fun hw => ⟨waits hw, rfl⟩
  · intro hw ⟨idle, fired⟩
    have unfired : t.fired = false := by
      refine seen (fun no => hw ?_) idle
      simp [State.view, State.waits, idle, Poll.offers, no]
    rw [unfired] at fired
    cases fired
  · simp only [State.view, timer]

theorem Watch.register {p : Register ω} (h : Watch w before s)
    (hp : s.poll.call = .register p) (call : t.poll.call = Call.ofRegister (p.step s.waker).pc)
    (offers : t.poll.offers = none) (busy : t.poll ≠ .idle)
    (waker : t.waker = (p.step s.waker).cell) (timer : t.timer = s.timer)
    (woken : t.woken = (p.step s.waker).invoked.toList ++ s.woken) : Watch w before t := by
  obtain ⟨later, hl, sound⟩ := h.sound
  obtain ⟨v, rfl⟩ : ∃ v, w = some v := by
    refine Option.ne_none_iff_exists'.mp (h.begun fun idle => ?_)
    rw [idle] at hp
    cases hp
  refine ⟨fun _ => by simp, by simp [offers], later ++ (p.step s.waker).invoked.toList, ?_, ?_⟩
  · rw [woken, hl]
    cases (p.step s.waker).invoked <;> simp
  apply sound.task_register (p := p) (w := v) hp
  · exact waker
  · exact call
  · simp only [State.view, timer]
  · rfl
  · simp [State.view, State.waits, offers]
  · rintro x rfl
    exact (Option.some.inj (h.offers x (offers_of_call hp))).symm
  · intro past
    simp [State.view, State.waits, offers_of_past hp past]
  · exact fun news => busy news.1

/-- A step of the callout before its `wake`: at most FIRED comes, with its `fetch_or`. -/
theorem Watch.timer_move (h : Watch w before s) (outside : s.timer.call = .idle)
    (call : t.timer = .storeFired ∧ t.fired = s.fired ∨ t.timer = .wake .fetchOr)
    (poll : t.poll = s.poll) (waker : t.waker = s.waker) (woken : t.woken = s.woken) :
    Watch w before t := by
  obtain ⟨later, hl, sound⟩ := h.sound
  refine ⟨poll ▸ h.begun, poll ▸ h.offers, later, woken.trans hl, ?_⟩
  apply sound.other_move (c := ()) (q := t.timer.call) outside
  · obtain ⟨call, _⟩ | call := call
    · exact .inl (by rw [call]; rfl)
    · exact .inr (by rw [call]; rfl)
  · exact waker
  · simp only [State.view, poll]
  · rfl
  · simp only [State.view, State.waits, poll]
  · rfl
  · obtain ⟨_, fired⟩ | call := call
    · simp only [State.view, poll, fired]
      exact .inl
    · exact fun _ => .inr call
  · intro _ _ owing
    rw [show s.timer = .wake .fetchOr from owing] at outside
    cases outside

theorem Watch.timer_wake {p : Wake ω} (h : Watch w before s) (hp : s.timer = .wake p)
    (call : t.timer.call = Call.ofWake (p.step s.waker).pc) (poll : t.poll = s.poll)
    (fired : t.fired = s.fired) (waker : t.waker = (p.step s.waker).cell)
    (woken : t.woken = (p.step s.waker).invoked.toList ++ s.woken) : Watch w before t := by
  obtain ⟨later, hl, sound⟩ := h.sound
  refine ⟨poll ▸ h.begun, poll ▸ h.offers, later ++ (p.step s.waker).invoked.toList, ?_, ?_⟩
  · rw [woken, hl]
    cases (p.step s.waker).invoked <;> simp
  apply sound.other_wake (c := ()) (p := p)
  · simp [State.view, hp, Timer.call]
  · exact waker
  · simp only [State.view, poll]
  · funext _
    simpa [State.view] using call
  · simp only [State.view, State.waits, poll]
  · rfl
  · simp only [State.view, poll, fired]
    exact id
  · intro _ owing
    refine .inr ⟨rfl, ?_⟩
    simpa [State.view, hp] using owing

/-- The last poll has returned Ready. -/
def Resolved (s : State ω) : Prop := s.poll = .idle ∧ ∃ p ∈ s.polls.head?, p.ready = true

variable [DecidableEq ω] {as bs : List (Act ω)} {a : Act ω}

/-- An operation of `register`, after the last of which the poll goes on with `q`. -/
theorem Watch.register_step {r : Register ω} {stay q : Poll ω} (h : Watch w before s)
    (hp : s.poll.call = .register r) (hs : stay.call = .register (r.step s.waker).pc)
    (hq : q = .recheck ∨ q = .callAfter)
    (poll : t.poll = if (r.step s.waker).pc = .done then q else stay)
    (waker : t.waker = (r.step s.waker).cell) (timer : t.timer = s.timer)
    (woken : t.woken = (r.step s.waker).invoked.toList ++ s.woken) : Watch w before t := by
  by_cases done : (r.step s.waker).pc = .done
  · rw [if_pos done] at poll
    refine h.register hp ?_ ?_ ?_ waker timer woken
    · rw [poll, done]
      obtain rfl | rfl := hq <;> rfl
    · rw [poll]
      obtain rfl | rfl := hq <;> rfl
    · rw [poll]
      obtain rfl | rfl := hq <;> simp
  · rw [if_neg done] at poll
    refine h.register hp ?_ ?_ ?_ waker timer woken
    · rw [poll, hs]
      cases hr : (r.step s.waker).pc with
      | done => exact absurd hr done
      | acquire | write | release | drain | swap | invoke => rfl
    · rw [poll]
      exact offers_of_past hs (Register.step_ne_acquire s.waker r)
    · intro idle
      rw [← poll, idle] at hs
      cases hs

theorem watch_step (inv : Inv s) (h : Watch w before s) (notPoll : ∀ v, a ≠ .poll v)
    (next : step s a = some t) : Watch w before t ∨ Watch none before t ∧ Resolved t := by
  cases steps_of_step next with
  | poll => exact absurd rfl (notPoll _)
  | loadFired hp hs =>
    refine .inr ⟨?_, rfl, _, rfl, rfl⟩
    exact h.poll_move (by rw [hp]; rfl) (.inl rfl) (by simp) (by simp [Poll.offers])
      (by simp [State.waits, Poll.offers]) (by simp) rfl rfl rfl
  | @loadArmed v hp hs | @loadIdle v hp hs =>
    refine .inl (h.poll_move (by rw [hp]; rfl) (.inr ⟨v, rfl⟩) (fun _ => h.begun (by simp [hp]))
      (fun x hx => h.offers x (by rw [hp]; exact hx)) ?_ (by simp) rfl rfl rfl)
    simp [State.waits, Poll.offers]
  | registerArmed hp =>
    exact .inl (h.register_step (by rw [hp]; rfl) rfl (.inl rfl) rfl rfl rfl rfl)
  | registerFirst hp =>
    exact .inl (h.register_step (by rw [hp]; rfl) rfl (.inr rfl) rfl rfl rfl rfl)
  | recheck hp =>
    by_cases hs : s.state = .fired
    · refine .inr ⟨?_, rfl, _, rfl, by simp [hs]⟩
      exact h.poll_move (by rw [hp]; rfl) (.inl rfl) (by simp) (by simp [Poll.offers])
        (by simp [State.waits, Poll.offers]) (by simp) rfl rfl rfl
    · have unfired : s.fired = false := by
        have := inv.fired
        simpa [hs] using this
      exact .inl (h.poll_move (by rw [hp]; rfl) (.inl rfl) (by simp) (by simp [Poll.offers])
        (by simp [State.waits, Poll.offers, hp]) (fun _ _ => unfired) rfl rfl rfl)
  | callAfter hp =>
    exact .inl (h.poll_move (by rw [hp]; rfl) (.inl rfl) (fun _ => h.begun (by simp [hp]))
      (by simp [Poll.offers]) (by simp [State.waits, Poll.offers, hp]) (by simp) rfl rfl rfl)
  | storeArmed hp =>
    have unfired : s.fired = false := by
      have idle := inv.arming (.inr hp)
      have := inv.fired
      simpa [idle] using this
    exact .inl (h.poll_move (by rw [hp]; rfl) (.inl rfl) (by simp) (by simp [Poll.offers])
      (by simp [State.waits, Poll.offers, hp]) (fun _ _ => unfired) rfl rfl rfl)
  | fire ht => exact .inl (h.timer_move (by rw [ht]; rfl) (.inl ⟨rfl, rfl⟩) rfl rfl rfl)
  | storeFired ht => exact .inl (h.timer_move (by rw [ht]; rfl) (.inr rfl) rfl rfl rfl)
  | @wake p ht =>
    refine .inl (h.timer_wake ht ?_ rfl rfl rfl rfl)
    cases hp : (p.step s.waker).pc <;> simp [Timer.call, Call.ofWake, Wake.resume]
  | tick => exact .inl ⟨h.begun, h.offers, h.sound⟩

theorem watch_poll {v : ω} (h : Watch w before s) (next : step s (.poll v) = some t) :
    Watch (some v) s.woken t := by
  obtain ⟨later, _, sound⟩ := h.sound
  cases steps_of_step next with
  | poll hp =>
    refine ⟨by simp, fun x hx => hx, [], rfl, ?_⟩
    apply sound.task_move (q := .idle)
    · simp [State.view, hp, Poll.call]
    · exact .inl rfl
    · rfl
    · rfl
    · rfl
    · simp [State.view, State.waits, Poll.offers]
    · simp [State.view]
    · rfl

/- Once `call_after` was called the entry is queued, or the callout runs, or FIRED was
   stored; and no poll ends before `call_after` was called. -/
structure Armed (s : State ω) : Prop where
  live : s.state ≠ .idle ∨ s.poll = .storeArmed →
    s.hrt ≠ [] ∨ s.timer = .storeFired ∨ s.fired = true
  left : s.polls ≠ [] → s.state ≠ .idle

theorem armed_step (inv : Inv s) (h : Armed s) (next : step s a = some t) : Armed t := by
  cases steps_of_step next with
  | poll hp | loadArmed hp | loadIdle hp =>
    exact ⟨fun hs => h.live (.inl (by simpa using hs)), h.left⟩
  | loadFired hp hs =>
    exact ⟨fun _ => h.live (.inl (by simp [hs])), fun _ => by simp [hs]⟩
  | registerArmed hp | registerFirst hp =>
    refine ⟨fun hs => h.live ?_, h.left⟩
    obtain hs | hs := hs
    · exact .inl hs
    · simp only at hs
      split at hs <;> cases hs
  | recheck hp =>
    have waiting := inv.waiting (by rw [hp]; rfl)
    exact ⟨fun _ => h.live (.inl waiting), fun _ => waiting⟩
  | callAfter hp => exact ⟨fun _ => .inl (by simp), h.left⟩
  | storeArmed hp => exact ⟨fun _ => h.live (.inr hp), fun _ => by simp⟩
  | fire ht => exact ⟨fun _ => .inr (.inl rfl), h.left⟩
  | storeFired ht => exact ⟨fun _ => .inr (.inr rfl), fun _ => by simp⟩
  | wake ht =>
    refine ⟨fun hs => ?_, h.left⟩
    obtain queued | running | fired := h.live hs
    · exact .inl queued
    · rw [ht] at running
      cases running
    · exact .inr (.inr fired)
  | tick => exact ⟨h.live, h.left⟩

structure Holds (s : State ω) : Prop where
  inv : Inv s
  armed : Armed s
  watch : ∃ w before, Watch w before s

theorem holds_step (h : Holds s) (guard : ArmedFirst s a) (next : step s a = some t) :
    Holds t := by
  refine ⟨inv_step h.inv guard next, armed_step h.inv h.armed next, ?_⟩
  obtain ⟨w, before, watch⟩ := h.watch
  cases a with
  | poll v => exact ⟨_, _, watch_poll watch next⟩
  | load | registerArmed | recheck | registerFirst | callAfter | storeArmed | fire | storeFired
  | wake | tick =>
    obtain watch | ⟨watch, _⟩ := watch_step h.inv watch (by simp) next
    · exact ⟨_, _, watch⟩
    · exact ⟨_, _, watch⟩

theorem holds_run (run : Run step ArmedFirst (new micros) as s) : Holds s :=
  run.invariant ⟨inv_new micros, ⟨by simp [new], by simp [new]⟩, _, _, watch_new⟩
    fun _ _ _ h guard next => holds_step h guard next

theorem ended_step (h : s.poll = .idle → s.polls ≠ []) (next : step s a = some t) :
    t.poll = .idle → t.polls ≠ [] := by
  cases steps_of_step next with
  | poll | loadArmed | loadIdle | callAfter => simp
  | loadFired | recheck | storeArmed => simp
  | registerArmed | registerFirst =>
    simp only
    split <;> simp
  | fire | storeFired | wake | tick => exact h

theorem resolved_step (h : Resolved s) (notPoll : ∀ v, a ≠ .poll v)
    (next : step s a = some t) : Resolved t := by
  obtain ⟨idle, ready⟩ := h
  cases steps_of_step next with
  | poll => exact absurd rfl (notPoll _)
  | loadFired hp | loadArmed hp | loadIdle hp | registerArmed hp | recheck hp | registerFirst hp
  | callAfter hp | storeArmed hp =>
    rw [idle] at hp
    cases hp
  | fire | storeFired | wake | tick => exact ⟨idle, ready⟩

theorem watch_run (h : Holds s) (watch : Watch w before s) (busy : s.poll ≠ .idle)
    (run : Run step ArmedFirst s bs t) (last : ∀ x, .poll x ∉ bs) :
    (Watch w before t ∨ Resolved t) ∧ (t.poll = .idle → t.polls ≠ []) := by
  induction run with
  | nil => exact ⟨.inl watch, fun idle => absurd idle busy⟩
  | @snoc bs b m t run guard next ih =>
    obtain ⟨phase, ended⟩ := ih fun x hx => last x (List.mem_append_left _ hx)
    have notPoll : ∀ x, b ≠ .poll x := by
      rintro x rfl
      exact last x (by simp)
    have inv : Holds m :=
      run.invariant h fun _ _ _ h guard next => holds_step h guard next
    refine ⟨?_, ended_step ended next⟩
    obtain watch | resolved := phase
    · exact (watch_step inv.inv watch notPoll next).imp_right And.right
    · exact .inr (resolved_step resolved notPoll next)

omit [DecidableEq ω] in
/-- Once the timer has nothing left to do, FIRED is stored. -/
theorem Holds.fired (h : Holds s) (polled : s.polls ≠ []) (quiet : s.timer = .idle)
    (empty : s.hrt = []) : s.fired = true := by
  obtain queued | running | fired := h.armed.live (.inl (h.armed.left polled))
  · exact absurd empty queued
  · rw [quiet] at running
    cases running
  · exact fired

omit [DecidableEq ω] in
theorem Watch.invoked {v : ω} (watch : Watch (some v) before s) (ended : s.poll = .idle)
    (fired : s.fired = true) (quiet : s.timer = .idle) :
    ∃ later, s.woken = later ++ before ∧ v ∈ later := by
  obtain ⟨later, woken, sound⟩ := watch.sound
  have waits : (s.view (some v) later).waits = some v := by
    simp [State.view, State.waits, ended, Poll.offers]
  have task : (s.view (some v) later).task = .idle := by simp [State.view, ended, Poll.call]
  obtain invoked | ⟨c, owing | ⟨p, wakes⟩⟩ := sound.parked task waits ⟨ended, fired⟩
  · exact ⟨later.reverse, woken, List.mem_reverse.mpr invoked⟩
  · simp [State.view, quiet] at owing
  · simp [State.view, quiet, Timer.call] at wakes

/-- A poll that was left Pending is woken: once the callout is done and nothing is queued,
FIRED is stored, and the last poll has returned Ready or the waker it was given was invoked
since. -/
theorem parked_sleep_is_woken {v : ω} (run : Run step ArmedFirst (new micros) as s)
    (polled : Run step ArmedFirst s (.poll v :: bs) t) (last : ∀ x, .poll x ∉ bs)
    (ended : t.poll = .idle) (quiet : t.timer = .idle) (empty : t.hrt = []) :
    t.fired = true ∧ ((∃ p ∈ t.polls.head?, p.ready = true) ∨
      ∃ later, t.woken = later ++ s.woken ∧ v ∈ later) := by
  have here := holds_run run
  have there := holds_run (run.append polled)
  obtain ⟨w, before, watch⟩ := here.watch
  obtain ⟨m, next, guard, rest⟩ := polled.cons_inv
  have busy : m.poll ≠ .idle := by
    cases steps_of_step next with
    | poll => simp
  obtain ⟨watch, left⟩ :=
    watch_run (holds_step here guard next) (watch_poll watch next) busy rest last
  have fired : t.fired = true := there.fired (left ended) quiet empty
  refine ⟨fired, ?_⟩
  obtain watch | ⟨_, ready⟩ := watch
  · exact .inr (watch.invoked ended fired quiet)
  · exact .inl ready

theorem parked_sleep_is_woken_zero : ∃ t : State Unit,
    t.polls = [⟨false, false, false⟩] ∧ t.fired = true ∧ ∃ later, t.woken = later ∧ () ∈ later := by
  obtain ⟨t, polled, ht⟩ := exists_run step ArmedFirst (new 0 : State Unit)
    (arm ++ [.storeArmed] ++ callout)
    (fun t => t.poll = .idle ∧ t.timer = .idle ∧ t.hrt = [] ∧ t.polls = [⟨false, false, false⟩]) rfl
  simp only [decide_eq_true_eq] at ht
  obtain ⟨ended, quiet, empty, polls⟩ := ht
  obtain ⟨fired, ready | ⟨later, woken, mem⟩⟩ :=
    parked_sleep_is_woken (.nil : Run step ArmedFirst (new 0) [] _) polled (by simp [callout])
      ended quiet empty
  · simp [polls] at ready
  · exact ⟨t, polls, fired, later, by simpa [new] using woken, mem⟩

/-! Its delay. -/

/-- The labels hold a `call_after` for the deadline `d`. -/
def Called (micros : Nat) (as : List (Act ω)) (d : Nat) : Prop :=
  ∃ bs cs, ∃ s : State ω, as = bs ++ .callAfter :: cs ∧ Run step Free (new micros) bs s ∧
    d = s.now + min micros (2 ^ 64 - 1)

theorem Called.snoc {d : Nat} (h : Called micros as d) : Called micros (as ++ [a]) d := by
  obtain ⟨bs, cs, s, rfl, run, hd⟩ := h
  exact ⟨bs, cs ++ [a], s, by simp, run, hd⟩

/- Every entry was queued by a `call_after`, and the callout runs only for one of them that
   is due. -/
structure Elapsed (micros : Nat) (as : List (Act ω)) (s : State ω) : Prop where
  delay : s.delayUs = min micros (2 ^ 64 - 1)
  entry : ∀ d ∈ s.hrt, Called micros as d
  due : s.timer ≠ .idle ∨ s.fired = true → ∃ d ≤ s.now, Called micros as d
  armed : s.poll = .storeArmed ∨ s.state ≠ .idle ↔ .callAfter ∈ as

theorem elapsed_new : Elapsed micros [] (new micros : State ω) := by
  constructor <;> simp [new]

theorem Elapsed.keep (h : Elapsed micros as s) (delay : t.delayUs = s.delayUs)
    (hrt : t.hrt = s.hrt) (now : s.now ≤ t.now)
    (due : t.timer ≠ .idle ∨ t.fired = true → s.timer ≠ .idle ∨ s.fired = true)
    (armed : t.poll = .storeArmed ∨ t.state ≠ .idle ↔ s.poll = .storeArmed ∨ s.state ≠ .idle)
    (ha : .callAfter ≠ a) : Elapsed micros (as ++ [a]) t := by
  refine ⟨delay.trans h.delay, fun d hd => (h.entry d (hrt ▸ hd)).snoc, fun ht => ?_, ?_⟩
  · obtain ⟨d, hd, called⟩ := h.due (due ht)
    exact ⟨d, le_trans hd now, called.snoc⟩
  · rw [armed, h.armed]
    simp [ha]

theorem elapsed_step (run : Run step Free (new micros) as s) (h : Elapsed micros as s)
    (next : step s a = some t) : Elapsed micros (as ++ [a]) t := by
  cases steps_of_step next with
  | poll hp | loadFired hp | loadArmed hp | loadIdle hp | recheck hp =>
    exact h.keep rfl rfl le_rfl id (by simp [hp]) (by simp)
  | registerArmed hp | registerFirst hp =>
    refine h.keep rfl rfl le_rfl id ?_ (by simp)
    simp only [hp]
    split <;> simp
  | callAfter hp =>
    have called : Called micros (as ++ [.callAfter]) (s.now + s.delayUs) :=
      ⟨as, [], s, rfl, run, by rw [h.delay]⟩
    refine ⟨h.delay, fun d hd => ?_, fun ht => ?_, by simp⟩
    · obtain rfl | hd := List.mem_cons.mp hd
      · exact called
      · exact (h.entry d hd).snoc
    · obtain ⟨d, hd, called⟩ := h.due ht
      exact ⟨d, hd, called.snoc⟩
  | storeArmed hp => exact h.keep rfl rfl le_rfl id (by simp [hp]) (by simp)
  | @fire d ht hd due =>
    refine ⟨h.delay, fun e he => (h.entry e (List.mem_of_mem_erase he)).snoc,
      fun _ => ⟨d, due, (h.entry d hd).snoc⟩, ?_⟩
    rw [List.mem_append, ← h.armed]
    simp
  | storeFired ht =>
    obtain ⟨d, hd, called⟩ := h.due (.inl (by simp [ht]))
    have armed : .callAfter ∈ as := by
      obtain ⟨bs, cs, _, rfl, _⟩ := called
      simp
    exact ⟨h.delay, fun e he => (h.entry e he).snoc, fun _ => ⟨d, hd, called.snoc⟩,
      by simp [armed]⟩
  | wake ht =>
    exact h.keep rfl rfl le_rfl (by simp [ht]) Iff.rfl (by simp)
  | tick => exact h.keep rfl rfl (Nat.le_succ _) id Iff.rfl (by simp)

theorem elapsed_run (run : Run step Free (new micros) as s) : Elapsed micros as s := by
  induction run with
  | nil => exact elapsed_new
  | snoc run _ next ih => exact elapsed_step run ih next

theorem fired_of_polled (run : Run step Free (new micros) as s) :
    ∀ p ∈ s.polls, p.fired = true → s.fired = true := by
  refine run.invariant (I := fun s : State ω => ∀ p ∈ s.polls, p.fired = true → s.fired = true)
    (by simp [new]) fun s a t h _ next => ?_
  cases steps_of_step next with
  | loadFired | recheck | storeArmed =>
    intro p hp
    obtain rfl | hp := List.mem_cons.mp hp
    · exact id
    · exact h p hp
  | storeFired => exact fun _ _ _ => rfl
  | poll | loadArmed | loadIdle | registerArmed | registerFirst | callAfter | fire | wake | tick =>
    exact h

/-- When a poll has returned Ready the clock has moved on by the delay, or more, since the
first poll called `call_after`, wherever the callout runs. -/
theorem sleep_waits_its_delay (run : Run step Free (new micros) as s) {p : Polled}
    (hp : p ∈ s.polls) (ready : p.ready = true) :
    ∃ bs cs, ∃ m : State ω, as = bs ++ .callAfter :: cs ∧ Run step Free (new micros) bs m ∧
      m.now + min micros (2 ^ 64 - 1) ≤ s.now := by
  have fired := fired_of_polled run p hp ((ready_after_fired run).2 p hp ready)
  obtain ⟨_, late, bs, cs, m, rfl, before, rfl⟩ := (elapsed_run run).due (.inr fired)
  exact ⟨bs, cs, m, rfl, before, late⟩

/-- A Sleep of three microseconds that is polled again when it is over. -/
def three : List (Act Unit) :=
  arm ++ [.storeArmed, .tick, .tick, .tick, .fire 3, .storeFired, .poll (), .load ()]

theorem sleep_waits_its_delay_three : ∃ s m : State Unit, s.now = 3 ∧ m.now + 3 ≤ s.now := by
  obtain ⟨s, run, hs⟩ := exists_run step Free (new 3) three
    (fun s => s.now = 3 ∧ s.polls.head? = some ⟨true, true, true⟩) rfl
  simp only [decide_eq_true_eq] at hs
  obtain ⟨_, _, m, _, _, late⟩ := sleep_waits_its_delay run (List.mem_of_mem_head? hs.2) rfl
  exact ⟨s, m, hs.1, late⟩

/-- `Drop` of a `Sleep` no poll is in progress on: `hrt_cancel` takes its entry out. -/
def State.drop (s : State ω) : State ω := if s.state = .idle then s else { s with hrt := [] }

/-- A `Drop` cancels exactly the entries that a `call_after` has initialised, and leaves
none of them in the queue. -/
theorem drop_cancels_what_was_armed (run : Run step Free (new micros) as s)
    (idle : s.poll = .idle) : (s.state ≠ .idle ↔ .callAfter ∈ as) ∧ s.drop.hrt = [] := by
  have h := elapsed_run run
  have armed : s.state ≠ .idle ↔ .callAfter ∈ as := by simpa [idle] using h.armed
  refine ⟨armed, ?_⟩
  unfold State.drop
  split
  · rename_i never
    rw [List.eq_nil_iff_forall_not_mem]
    intro d hd
    obtain ⟨bs, cs, _, rfl, _⟩ := h.entry d hd
    exact armed.mpr (by simp) never
  · rfl

theorem drop_cancels_the_armed : ∃ s : State Unit, s.hrt = [0] ∧ s.drop.hrt = [] := by
  obtain ⟨s, run, hs⟩ := exists_run step Free (new 0) (arm ++ [.storeArmed])
    (fun s => s.poll = .idle ∧ s.hrt = [0]) rfl
  simp only [decide_eq_true_eq] at hs
  exact ⟨s, hs.2, (drop_cancels_what_was_armed run hs.1).2⟩

end Px4Rs.Sleep
