import Px4Rs.Parking
import Px4Rs.Runs

/-! `Notify` under any number of `notify()` calls and one task that polls `Notified`
futures. The permit's loads and stores and every operation of the `AtomicWaker` inside
are steps. -/
namespace Px4Rs.Notify
open Px4Rs.Runs Px4Rs.AtomicWaker Function
variable {κ ω : Type*} [DecidableEq κ]

/-- The next operation of a caller inside `notify`. -/
inductive Notifier (ω : Type*) where
  | idle
  | store
  | wake (p : Wake ω)

inductive Poll (ω : Type*) where
  | idle
  | swap (w : ω)
  | register (w : ω) (p : Register ω)
  | swapAgain (w : ω)

/- `parked` is the waker of the last poll when that poll returned Pending. The rest is
   history: the wakers invoked since the last poll began, the `notify` calls begun, the
   permit stores since a permit was last consumed, and the futures resolved. -/
structure State (κ ω : Type*) where
  permit : Bool
  waker : AtomicWaker ω
  notifier : κ → Notifier ω
  poll : Poll ω
  parked : Option ω
  invoked : List ω
  begun : Nat
  stores : Nat
  resolved : Nat

def init : State κ ω where
  permit := false
  waker := AtomicWaker.new
  notifier := fun _ => .idle
  poll := .idle
  parked := none
  invoked := []
  begun := 0
  stores := 0
  resolved := 0

inductive Act (κ ω : Type*) where
  | notify (c : κ)
  | store (c : κ)
  | wake (c : κ)
  | poll (w : ω)
  | swap
  | register
  | swapAgain

/-- The shared effects of one operation of `register` or `wake`. -/
@[simps] def State.after {π : Type*} (s : State κ ω) (x : After ω π) : State κ ω :=
  { s with waker := x.cell, invoked := s.invoked ++ x.invoked.toList }

/-- `permit.swap(false)`: Ready if it was set, or else go on to `next`. -/
def State.consume (s : State κ ω) (next : State κ ω) : State κ ω :=
  if s.permit then
    { s with
      permit := false, poll := .idle, parked := none, stores := 0, resolved := s.resolved + 1 }
  else next

def step (s : State κ ω) : Act κ ω → Option (State κ ω)
  | .notify c =>
    match s.notifier c with
    | .idle => some { s with notifier := update s.notifier c .store, begun := s.begun + 1 }
    | _ => none
  | .store c =>
    match s.notifier c with
    | .store => some { s with
        permit := true
        notifier := update s.notifier c (.wake .fetchOr)
        stores := s.stores + 1 }
    | _ => none
  | .wake c =>
    match s.notifier c with
    | .wake p =>
      let x := p.step s.waker
      some { s.after x with notifier := update s.notifier c (x.pc.resume .wake .idle) }
    | _ => none
  | .poll w =>
    match s.poll with
    | .idle => some { s with poll := .swap w, parked := none, invoked := [] }
    | _ => none
  | .swap =>
    match s.poll with
    | .swap w => some (s.consume { s with poll := .register w (.acquire w) })
    | _ => none
  | .register =>
    match s.poll with
    | .register w p =>
      let x := p.step s.waker
      some { s.after x with poll := x.pc.resume (.register w) (.swapAgain w) }
    | _ => none
  -- re-check after registering
  | .swapAgain =>
    match s.poll with
    | .swapAgain w => some (s.consume { s with poll := .idle, parked := some w })
    | _ => none

inductive Steps (s : State κ ω) : Act κ ω → State κ ω → Prop
  | notify {c} (hc : s.notifier c = .idle) :
    Steps s (.notify c) { s with
      notifier := update s.notifier c .store, begun := s.begun + 1 }
  | store {c} (hc : s.notifier c = .store) :
    Steps s (.store c) { s with
      permit := true
      notifier := update s.notifier c (.wake .fetchOr)
      stores := s.stores + 1 }
  | wake {c p} (hc : s.notifier c = .wake p) :
    Steps s (.wake c) { s.after (p.step s.waker) with
      notifier := update s.notifier c ((p.step s.waker).pc.resume .wake .idle) }
  | poll {w} (hp : s.poll = .idle) :
    Steps s (.poll w) { s with poll := .swap w, parked := none, invoked := [] }
  | consume {a w} (hp : a = .swap ∧ s.poll = .swap w ∨ a = .swapAgain ∧ s.poll = .swapAgain w)
      (permit : s.permit = true) :
    Steps s a { s with
      permit := false, poll := .idle, parked := none, stores := 0, resolved := s.resolved + 1 }
  | swap {w} (hp : s.poll = .swap w) (permit : s.permit = false) :
    Steps s .swap { s with poll := .register w (.acquire w) }
  | register {w p} (hp : s.poll = .register w p) :
    Steps s .register { s.after (p.step s.waker) with
      poll := (p.step s.waker).pc.resume (.register w) (.swapAgain w) }
  | swapAgain {w} (hp : s.poll = .swapAgain w) (permit : s.permit = false) :
    Steps s .swapAgain { s with poll := .idle, parked := some w }

theorem steps_of_step {s t : State κ ω} {a : Act κ ω} (next : step s a = some t) :
    Steps s a t := by
  cases a with
  | swap =>
    simp only [step, State.consume] at next
    split at next
    · rename_i w hp
      split at next <;> rename_i permit <;> cases next
      · exact .consume (.inl ⟨rfl, hp⟩) permit
      · exact .swap hp (by simpa using permit)
    · cases next
  | swapAgain =>
    simp only [step, State.consume] at next
    split at next
    · rename_i w hp
      split at next <;> rename_i permit <;> cases next
      · exact .consume (.inr ⟨rfl, hp⟩) permit
      · exact .swapAgain hp (by simpa using permit)
    · cases next
  | notify | store | wake | poll | register =>
    simp only [step] at next
    split at next <;> cases next
    constructor
    assumption

/-! The calls on the `AtomicWaker`; the task is `none`. -/

def Notifier.call : Notifier ω → Call ω
  | .wake p => .wake p
  | _ => .idle

def Poll.call : Poll ω → Call ω
  | .register _ p => .register p
  | _ => .idle

/-- The waker of a poll that has registered it, until the next poll begins or it resolves. -/
def State.waits (s : State κ ω) : Option ω :=
  match s.poll with
  | .idle => s.parked
  | .swapAgain w => some w
  | .register _ (.acquire _) => none
  | .register w _ => some w
  | .swap _ => none

/-- News are a permit that came after the task had looked twice. -/
def State.view (s : State κ ω) : View κ ω where
  cell := s.waker
  task := s.poll.call
  others c := (s.notifier c).call
  invoked := s.invoked
  waits := s.waits
  news := s.poll = .idle ∧ s.permit = true
  owing c := s.notifier c = .wake .fetchOr

variable {s t : State κ ω} {a : Act κ ω} {w : ω}

/- The poll registers the waker it was given, and the calls on the cell are sound. -/
structure Inv (s : State κ ω) : Prop where
  given : ∀ w v, s.poll = .register w (.acquire v) → v = w
  sound : Sound s.view

omit [DecidableEq κ] in
theorem inv_init : Inv (init : State κ ω) := by
  refine ⟨by simp [init], ?_⟩
  exact .fresh rfl rfl (fun _ => rfl) rfl

omit [DecidableEq κ] in
theorem waits_register {p : Register ω} (poll : s.poll = .register w p)
    (hp : ∀ v, p ≠ .acquire v) : s.waits = some w := by
  simp only [State.waits, poll]

omit [DecidableEq κ] in
theorem waits_resume {p : Register ω} (hp : ∀ v, p ≠ .acquire v)
    (poll : s.poll = p.resume (.register w) (.swapAgain w)) :
    s.poll ≠ .idle ∧ (∀ x v, s.poll ≠ .register x (.acquire v)) ∧ s.waits = some w := by
  cases p with
  | acquire v => exact absurd rfl (hp v)
  | write _ | release | drain | swap _ | invoke _ | done =>
    simp only [Register.resume] at poll
    simp [State.waits, poll]

theorem inv_register {p : Register ω} (h : Inv s) (hp : s.poll = .register w p)
    (waker : t.waker = (p.step s.waker).cell) (notifier : t.notifier = s.notifier)
    (poll : t.poll = (p.step s.waker).pc.resume (.register w) (.swapAgain w))
    (invoked : t.invoked = s.invoked ++ (p.step s.waker).invoked.toList) : Inv t := by
  obtain ⟨busy, past, waits⟩ := waits_resume (Register.step_ne_acquire s.waker p) poll
  refine ⟨fun x v hx => absurd hx (past x v), ?_⟩
  apply h.sound.task_register (p := p)
  · simp [State.view, hp, Poll.call]
  · exact waker
  · rw [State.view, poll]
    exact Register.apply_resume Poll.call _ _ _
  · simp [State.view, notifier]
  · exact invoked
  · exact waits
  · rintro v rfl
    exact h.given w v hp
  · exact waits_register hp
  · exact fun news => busy news.1

theorem inv_wake {c : κ} {p : Wake ω} (h : Inv s) (hp : s.notifier c = .wake p)
    (waker : t.waker = (p.step s.waker).cell) (poll : t.poll = s.poll)
    (notifier : t.notifier = update s.notifier c ((p.step s.waker).pc.resume .wake .idle))
    (invoked : t.invoked = s.invoked ++ (p.step s.waker).invoked.toList)
    (parked : t.parked = s.parked) (permit : t.permit = s.permit) : Inv t := by
  refine ⟨poll ▸ h.given, ?_⟩
  apply h.sound.other_wake (c := c) (p := p)
  · simp [State.view, hp, Notifier.call]
  · exact waker
  · simp [State.view, poll]
  · have pc : Notifier.call ((p.step s.waker).pc.resume .wake .idle) =
        Call.ofWake (p.step s.waker).pc := Wake.apply_resume Notifier.call _ _ _
    change (fun d => (t.notifier d).call) = update _ c (Call.ofWake (p.step s.waker).pc)
    rw [notifier, ← pc]
    exact comp_update Notifier.call s.notifier c _
  · simp only [State.view, State.waits, poll, parked]
  · exact invoked
  · simp [State.view, poll, permit]
  · intro d hd
    by_cases hdc : d = c
    · subst hdc
      simp only [State.view, hp, Notifier.wake.injEq] at hd
      exact .inr ⟨rfl, hd⟩
    · simp only [State.view, notifier, update_of_ne hdc]
      exact .inl hd

theorem inv_notifier {c : κ} {q : Notifier ω} (h : Inv s) (hc : (s.notifier c).call = .idle)
    (hq : q.call = .idle ∨ q = .wake .fetchOr) (waker : t.waker = s.waker)
    (poll : t.poll = s.poll) (notifier : t.notifier = update s.notifier c q)
    (invoked : t.invoked = s.invoked) (parked : t.parked = s.parked)
    (permit : t.permit = s.permit ∨ q = .wake .fetchOr) : Inv t := by
  refine ⟨poll ▸ h.given, ?_⟩
  apply h.sound.other_move (c := c) (q := q.call) hc
  · obtain hq | rfl := hq
    · exact .inl hq
    · exact .inr rfl
  · exact waker
  · simp [State.view, poll]
  · rw [State.view, notifier]
    exact comp_update Notifier.call s.notifier c q
  · simp only [State.view, State.waits, poll, parked]
  · exact invoked
  · obtain permit | rfl := permit
    · simp only [State.view, poll, permit]
      exact .inl
    · simp only [State.view, notifier, update_self]
      exact fun _ => .inr trivial
  · intro _ d hd
    have hdc : d ≠ c := by
      rintro rfl
      rw [show s.notifier d = .wake .fetchOr from hd] at hc
      cases hc
    simp only [State.view, notifier, update_of_ne hdc]
    exact hd

theorem inv_poll {q : Poll ω} (h : Inv s) (hp : s.poll.call = .idle)
    (hq : q.call = .idle ∨ ∃ w, q = .register w (.acquire w)) (waker : t.waker = s.waker)
    (notifier : t.notifier = s.notifier) (poll : t.poll = q)
    (waits : t.waits ≠ none → t.waits = s.waits ∧ t.invoked = s.invoked)
    (owed : q = .idle → t.parked = none ∨ t.permit = false) : Inv t := by
  constructor
  · intro w v hw
    rw [poll] at hw
    subst hw
    obtain hq | ⟨x, hx⟩ := hq
    · cases hq
    · cases hx
      rfl
  apply h.sound.task_move (q := q.call) hp
  · obtain hq | ⟨w, rfl⟩ := hq
    · exact .inl hq
    · exact .inr ⟨w, rfl, by simp [State.view, State.waits, poll]⟩
  · exact waker
  · simp [State.view, poll]
  · simp [State.view, notifier]
  · exact waits
  · intro hw hn
    obtain ⟨idle, hpermit⟩ := hn
    obtain parked | permit := owed (poll ▸ idle)
    · simp [State.view, State.waits, idle, parked] at hw
    · rw [permit] at hpermit
      cases hpermit
  · simp [State.view, notifier]

theorem inv_step (h : Inv s) (next : step s a = some t) : Inv t := by
  cases steps_of_step next with
  | notify hc | store hc =>
    exact inv_notifier h (by rw [hc]; rfl) (by simp [Notifier.call]) rfl rfl rfl rfl rfl (by simp)
  | wake hc => exact inv_wake h hc rfl rfl rfl rfl rfl rfl
  | register hp => exact inv_register h hp rfl rfl rfl rfl
  | poll hp =>
    exact inv_poll h (by rw [hp]; rfl) (.inl rfl) rfl rfl rfl (by simp [State.waits]) (by simp)
  | consume hp _ =>
    have outside : s.poll.call = .idle := by
      obtain ⟨_, hp⟩ | ⟨_, hp⟩ := hp <;>
      · rw [hp]
        rfl
    exact inv_poll h outside (.inl rfl) rfl rfl rfl (by simp [State.waits]) (fun _ => .inl rfl)
  | @swap w hp _ =>
    exact inv_poll h (by rw [hp]; rfl) (.inr ⟨w, rfl⟩) rfl rfl rfl (by simp [State.waits])
      (by simp)
  | swapAgain hp permit =>
    exact inv_poll h (by rw [hp]; rfl) (.inl rfl) rfl rfl rfl (by simp [State.waits, hp])
      (fun _ => .inr permit)

/- The permit is there exactly when it was stored since it was last consumed, and every
   resolution and every such store has a `notify` call of its own. -/
structure Counted (s : State κ ω) : Prop where
  permit : s.permit = true ↔ 1 ≤ s.stores
  calls : ∃ l : List κ, l.Nodup ∧ (∀ c, c ∈ l ↔ s.notifier c = .store) ∧
    s.resolved + s.stores + l.length ≤ s.begun

def Act.isStore : Act κ ω → Bool
  | .store _ => true
  | _ => false

def Act.isSwap : Act κ ω → Bool
  | .swap | .swapAgain => true
  | _ => false

/-- Only a swap that finds the permit resolves a future, and it uses up every store. -/
theorem stores_step (next : step s a = some t) :
    (t.resolved = s.resolved ∧ t.stores = s.stores + (if a.isStore then 1 else 0) ∧
      (a.isSwap = true → s.permit = false)) ∨
    (t.resolved = s.resolved + 1 ∧ t.stores = 0 ∧ s.permit = true) := by
  cases steps_of_step next with
  | consume _ permit => exact .inr ⟨rfl, rfl, permit⟩
  | swap _ permit | swapAgain _ permit => exact .inl ⟨rfl, rfl, fun _ => permit⟩
  | notify | store | wake | poll | register => exact .inl (by simp [Act.isStore, Act.isSwap])

theorem permit_step (h : s.permit = true ↔ 1 ≤ s.stores) (next : step s a = some t) :
    t.permit = true ↔ 1 ≤ t.stores := by
  cases steps_of_step next with
  | store | consume => simp
  | notify | wake | poll | swap | register | swapAgain => exact h

theorem counted_step (h : Counted s) (next : step s a = some t) : Counted t := by
  refine ⟨permit_step h.permit next, ?_⟩
  obtain ⟨l, nodup, mem, count⟩ := h.calls
  have stays {c : κ} {q : Notifier ω} (hc : s.notifier c ≠ .store) (hq : q ≠ .store) (d : κ) :
      d ∈ l ↔ update s.notifier c q d = .store := by
    by_cases hdc : d = c
    · subst hdc
      simp [mem, hc, hq]
    · rw [update_of_ne hdc, mem]
  cases steps_of_step next with
  | @notify c hc =>
    refine ⟨c :: l, List.nodup_cons.mpr ⟨by simp [mem, hc], nodup⟩, fun d => ?_, by simp; omega⟩
    by_cases hdc : d = c
    · subst hdc
      simp
    · simp [hdc, mem]
  | @store c hc =>
    have hin : c ∈ l := (mem c).mpr hc
    have hlen := List.length_erase_of_mem hin
    have hpos := List.length_pos_of_mem hin
    refine ⟨l.erase c, nodup.erase c, fun d => ?_, by simp only; omega⟩
    rw [nodup.mem_erase_iff, mem]
    by_cases hdc : d = c
    · subst hdc
      simp
    · simp [hdc]
  | @wake c p hc =>
    refine ⟨l, nodup, stays (by simp [hc]) ?_, count⟩
    cases (p.step s.waker).pc <;> simp [Wake.resume]
  | consume _ permit =>
    have := h.permit.mp permit
    exact ⟨l, nodup, mem, by simp only; omega⟩
  | poll | register | swap | swapAgain => exact ⟨l, nodup, mem, count⟩

omit [DecidableEq κ] in
theorem counted_init : Counted (init : State κ ω) :=
  ⟨by simp [init], [], by simp [init]⟩

section Run
variable {P : State κ ω → Act κ ω → Prop} {as bs : List (Act κ ω)}

theorem counted_run (h : Run step P init as s) : Counted s :=
  h.invariant counted_init fun _ _ _ hs _ => counted_step hs

theorem inv_run (h : Run step P init as s) : Inv s :=
  h.invariant inv_init fun _ _ _ hs _ => inv_step hs

theorem stores_run (h : Run step P s bs t) : s.resolved ≤ t.resolved ∧
    (t.resolved = s.resolved → t.stores = s.stores + bs.countP Act.isStore) := by
  induction h with
  | nil => simp
  | snoc _ _ next ih =>
    obtain ⟨hle, hst⟩ := ih
    obtain ⟨hr, hs, _⟩ | ⟨hr, _, _⟩ := stores_step next
    · refine ⟨by omega, fun he => ?_⟩
      rw [hs, hst (by omega), List.countP_append, List.countP_singleton]
      omega
    · exact ⟨by omega, fun he => by omega⟩

end Run

/-- No more futures resolve than `notify` calls begin. Between two consumptions of the
permit `k` stores enable one resolution if `k ≥ 1` and none otherwise. A task whose last
poll returned Pending beside a permit has had its waker invoked since, or some `notify` is
past its store and has not finished its wake. -/
theorem notify_delivers_and_coalesces :
    (∀ (as : List (Act κ ω)) (s : State κ ω), Run step Free init as s → s.resolved ≤ s.begun) ∧
    (∀ (as bs : List (Act κ ω)) (s t u : State κ ω) (a : Act κ ω), Run step Free init as s →
      (as = [] ∨ ∃ cs b r, as = cs ++ [b] ∧ Run step Free init cs r ∧ step r b = some s ∧
        s.resolved = r.resolved + 1) →
      Run step Free s bs t → t.resolved = s.resolved → a.isSwap = true → step t a = some u →
      u.resolved = s.resolved + if 1 ≤ bs.countP Act.isStore then 1 else 0) ∧
    ∀ (as : List (Act κ ω)) (s : State κ ω) (w : ω), Run step Free init as s →
      s.poll = .idle → s.parked = some w → s.permit = true →
      w ∈ s.invoked ∨ ∃ c p, s.notifier c = .wake p := by
  refine ⟨fun as s run => ?_, fun as bs s t u a run fresh rest same hswap next => ?_,
    fun as s w run idle hw hpermit => ?_⟩
  · obtain ⟨l, _, _, count⟩ := (counted_run run).calls
    omega
  · have zero : s.stores = 0 := by
      obtain rfl | ⟨cs, b, r, rfl, _, hb, hr⟩ := fresh
      · rw [run.nil_inv]
        rfl
      · obtain ⟨he, _⟩ | ⟨_, hz, _⟩ := stores_step hb
        · omega
        · exact hz
    have permit := (counted_run (run.append rest)).permit
    rw [(stores_run rest).2 same, zero, Nat.zero_add] at permit
    rw [← same]
    obtain ⟨hr, _, hno⟩ | ⟨hr, _, hyes⟩ := stores_step next
    · have none : ¬ 1 ≤ bs.countP Act.isStore := by
        intro hk
        rw [hno hswap] at permit
        exact absurd (permit.mpr hk) Bool.false_ne_true
      rw [if_neg none, hr, Nat.add_zero]
    · rw [if_pos (permit.mp hyes), hr]
  · have waits : s.view.waits = some w := by simp [State.view, State.waits, idle, hw]
    have task : s.view.task = .idle := by simp [State.view, idle, Poll.call]
    obtain done | ⟨c, hc | ⟨p, hp⟩⟩ := (inv_run run).sound.parked task waits ⟨idle, hpermit⟩
    · exact .inl done
    · exact .inr ⟨c, .fetchOr, hc⟩
    · change (s.notifier c).call = .wake p at hp
      cases hn : s.notifier c with
      | wake q => exact .inr ⟨c, q, hn⟩
      | idle | store => simp [hn, Notifier.call] at hp

/-- A poll that parks, and a `notify` that has stored the permit and not yet woken. -/
theorem notify_after_park :
    ∃ s : State Unit Nat, Run step Free init
      [.poll 7, .swap, .register, .register, .register, .swapAgain, .notify (), .store ()] s ∧
      s.resolved ≤ s.begun ∧ (7 ∈ s.invoked ∨ ∃ c p, s.notifier c = .wake p) ∧
      ∃ t, Run step Free s [.poll 8] t ∧ ∃ u, step t .swap = some u ∧ u.resolved = 1 := by
  have park : Run step Free (init : State Unit Nat)
    [.poll 7, .swap, .register, .register, .register, .swapAgain, .notify (), .store ()] _ :=
    run_of_exec rfl
  have rest : Run step Free (init : State Unit Nat) ([.poll 7, .swap, .register, .register,
    .register, .swapAgain, .notify (), .store ()] ++ [.poll 8]) _ := run_of_exec rfl
  refine ⟨_, park, notify_delivers_and_coalesces.1 _ _ park,
    notify_delivers_and_coalesces.2.2 _ _ 7 park rfl rfl rfl, _, run_of_exec rfl, _, rfl, ?_⟩
  exact notify_delivers_and_coalesces.2.1 [] _ _ _ _ .swap .nil (.inl rfl) rest rfl rfl rfl

end Px4Rs.Notify
