import Px4Rs.Runs
import Px4Rs.WakerCalls

/-! Runs of an `AtomicWaker` under `register`, `wake` and `take`: a wake that follows a
registration gets the registered waker invoked, whoever ends up doing it. -/
namespace Px4Rs.WakerLive
open Px4Rs.Runs Px4Rs.AtomicWaker Function
variable {κ ω : Type*} [DecidableEq κ]

/- `invoked` is history: the wakers invoked so far, in order. -/
structure State (κ ω : Type*) where
  calls : Calls κ ω
  invoked : List ω

def init : State κ ω := ⟨⟨new, fun _ => .idle⟩, []⟩

inductive Act (κ ω : Type*) where
  | register (c : κ) (w : ω)
  | wake (c : κ)
  | take (c : κ)
  | step (c : κ)

def State.begin (s : State κ ω) (c : κ) (p : Call ω) : Option (State κ ω) :=
  if (s.calls.call c).isIdle then some { s with calls := s.calls.put c s.calls.cell p }
  else none

def step (s : State κ ω) : Act κ ω → Option (State κ ω)
  | .register c w => s.begin c (.register (.acquire w))
  | .wake c => s.begin c (.wake .fetchOr)
  | .take c => s.begin c (.take .fetchOr)
  | .step c =>
    if (s.calls.call c).isIdle then none
    else some ⟨s.calls.advance c, s.invoked ++ (s.calls.invokes c).toList⟩

/-- The task `r` is the only one to register, and nobody takes. -/
def OneTask (r : κ) (_ : State κ ω) : Act κ ω → Prop
  | .register c _ => c = r
  | .take _ => False
  | .wake _ | .step _ => True

instance (r : κ) (s : State κ ω) : ∀ a, Decidable (OneTask r s a)
  | .register c _ => inferInstanceAs (Decidable (c = r))
  | .take _ => .isFalse id
  | .wake _ | .step _ => .isTrue trivial

/-- The step is the first `compare_exchange` of a `register`. -/
def Acquires (s : State κ ω) : Act κ ω → Prop
  | .step c => ∃ w, s.calls.call c = .register (.acquire w)
  | _ => False

variable {s t : State κ ω} {r : κ} {w : ω}

/-- The calls that a party can begin. -/
def Act.call : Act κ ω → Option (κ × Call ω)
  | .register c w => some (c, .register (.acquire w))
  | .wake c => some (c, .wake .fetchOr)
  | .take c => some (c, .take .fetchOr)
  | .step _ => none

theorem step_cases {a : Act κ ω} (next : step s a = some t) :
    (∃ c p, a.call = some (c, p) ∧ s.calls.call c = .idle ∧ p.holds = false ∧
      t = { s with calls := s.calls.put c s.calls.cell p }) ∨
    ∃ c, a = .step c ∧ t = ⟨s.calls.advance c, s.invoked ++ (s.calls.invokes c).toList⟩ := by
  cases a with
  | register c w | wake c | take c =>
    simp only [step, State.begin, Option.ite_none_right_eq_some, Option.some.injEq] at next
    obtain ⟨hc, rfl⟩ := next
    exact .inl ⟨c, _, rfl, Call.eq_idle hc, rfl, rfl⟩
  | step c =>
    simp only [step, Option.ite_none_left_eq_some, Option.some.injEq] at next
    obtain ⟨_, rfl⟩ := next
    exact .inr ⟨c, rfl, rfl⟩

theorem exclusive_step {a : Act κ ω} (h : Exclusive s.calls) (next : step s a = some t) :
    Exclusive t.calls := by
  obtain ⟨c, p, _, hc, hp, rfl⟩ | ⟨c, _, rfl⟩ := step_cases next
  · exact exclusive_begin h hc hp
  · exact exclusive_advance h c

/-- What holds while one task registers and nobody takes. -/
structure Inv (r : κ) (s : State κ ω) : Prop where
  exclusive : Exclusive s.calls
  only : OnlyBy s.calls r
  noTake : NoTake s.calls

omit [DecidableEq κ] in
theorem inv_init : Inv r (init : State κ ω) := by
  refine ⟨exclusive_new, ?_, ?_⟩ <;> intro _ _ h <;> cases h

theorem inv_step {a : Act κ ω} (h : Inv r s) (g : OneTask r s a) (next : step s a = some t) :
    Inv r t := by
  refine ⟨exclusive_step h.exclusive next, ?_, ?_⟩
  · obtain ⟨c, p, ha, hc, _, rfl⟩ | ⟨c, _, rfl⟩ := step_cases next
    · intro d q hd
      by_cases hdc : d = c
      · subst hdc
        rw [Calls.put_call, update_self] at hd
        subst hd
        cases a <;> cases ha
        exact g
      · rw [Calls.put_call, update_of_ne hdc] at hd
        exact h.only d q hd
    · exact onlyBy_advance h.only c
  · obtain ⟨c, p, ha, hc, _, rfl⟩ | ⟨c, _, rfl⟩ := step_cases next
    · intro d q hd
      by_cases hdc : d = c
      · subst hdc
        rw [Calls.put_call, update_self] at hd
        subst hd
        cases a <;> cases ha
        exact g
      · rw [Calls.put_call, update_of_ne hdc] at hd
        exact h.noTake d q hd
    · exact noTake_advance h.noTake c

theorem log_step {a : Act κ ω} (next : step s a = some t) : s.invoked <+: t.invoked := by
  obtain ⟨c, p, _, _, _, rfl⟩ | ⟨c, _, rfl⟩ := step_cases next
  · exact List.prefix_rfl
  · exact List.prefix_append _ _

theorem log_run {P : State κ ω → Act κ ω → Prop} {as : List (Act κ ω)}
    (h : Run step P s as t) : s.invoked <+: t.invoked := by
  apply h.invariant (I := fun x => s.invoked <+: x.invoked) List.prefix_rfl
  intro x a y log _ next
  exact log.trans (log_step next)

/-- `w` was invoked after the log read `base`. -/
def Invoked (base : List ω) (w : ω) (s : State κ ω) : Prop :=
  ∃ ws, s.invoked = base ++ ws ∧ w ∈ ws

omit [DecidableEq κ] in
theorem Invoked.mono {base : List ω} (h : Invoked base w s) (log : s.invoked <+: t.invoked) :
    Invoked base w t := by
  obtain ⟨ws, hs, hw⟩ := h
  obtain ⟨more, ht⟩ := log
  exact ⟨ws ++ more, by rw [← ht, hs, List.append_assoc], List.mem_append_left _ hw⟩

theorem invoked_of_invokes {base : List ω} {c : κ} (log : base <+: s.invoked)
    (hi : s.calls.invokes c = some w) :
    Invoked base w ⟨s.calls.advance c, s.invoked ++ (s.calls.invokes c).toList⟩ := by
  obtain ⟨ws, hs⟩ := log
  exact ⟨ws ++ [w], by simp [hi, ← hs], by simp⟩

/-- Since the log read `base`, `w` was invoked or is still due. -/
structure Pending (base : List ω) (w : ω) (due : Calls κ ω → Prop) (s : State κ ω) : Prop where
  log : base <+: s.invoked
  due : Invoked base w s ∨ due s.calls

theorem bears_step {base : List ω} {a : Act κ ω} {c : κ} (h : Inv r s)
    (hp : Pending base w (fun x => (x.call c).bears x.cell w) s) (next : step s a = some t) :
    Pending base w (fun x => (x.call c).bears x.cell w) t := by
  obtain ⟨log, due⟩ := hp
  refine ⟨log.trans (log_step next), ?_⟩
  obtain done | hb := due
  · exact .inl (done.mono (log_step next))
  obtain ⟨u, p, _, hu, _, rfl⟩ | ⟨u, _, rfl⟩ := step_cases next
  · right
    have hcu : c ≠ u := by
      rintro rfl
      rw [hu] at hb
      exact hb
    rwa [Calls.put_call, update_of_ne hcu]
  · obtain hb | ⟨_, hi⟩ := bears_advance h.exclusive hb u
    · exact .inr hb
    · exact .inl (invoked_of_invokes log hi)

/-- Between two registrations a registered waker stays armed or finds a bearer. -/
theorem due_step {base : List ω} {a : Act κ ω} (h : Inv r s) (g : ¬ Acquires s a)
    (hp : Pending base w (fun x => Due x r w) s) (next : step s a = some t) :
    Pending base w (fun x => Due x r w) t := by
  obtain ⟨log, due⟩ := hp
  refine ⟨log.trans (log_step next), ?_⟩
  obtain done | due := due
  · exact .inl (done.mono (log_step next))
  obtain ⟨u, p, _, hu, _, rfl⟩ | ⟨u, rfl, rfl⟩ := step_cases next
  · exact .inr (due_begin hu due)
  · have acquire (v : ω) (hv : s.calls.call u = .register (.acquire v)) : False := g ⟨v, hv⟩
    obtain due | hi := due_advance h.exclusive acquire (h.noTake u _) due
    · exact .inr due
    · exact .inl (invoked_of_invokes log hi)

/-- A wake's `fetch_or` leaves no registered waker without a bearer. -/
theorem borne_of_fetchOr {base : List ω} {c : κ} (h : Inv r s)
    (hc : s.calls.call c = .wake .fetchOr)
    (hp : Pending base w (fun x => Due x r w) s)
    (next : step s (.step c) = some t) :
    Pending base w (fun x => Borne x w) t := by
  obtain ⟨log, due⟩ := hp
  refine ⟨log.trans (log_step next), ?_⟩
  obtain done | due := due
  · exact .inl (done.mono (log_step next))
  obtain ⟨_, _, ha, _⟩ | ⟨u, ha, rfl⟩ := step_cases next
  · cases ha
  cases ha
  obtain borne | hi := borne_of_due h.exclusive hc due
  · exact .inr borne
  · exact .inl (invoked_of_invokes log hi)

/-- The call that `d` is in at `s`, if any, returns along `as`. -/
def Returns (d : κ) (s : State κ ω) (as : List (Act κ ω)) : Prop :=
  ∃ bs cs m, as = bs ++ cs ∧ Run step Free s bs m ∧ m.calls.call d = .idle

theorem inv_run {as : List (Act κ ω)} (h : Run step (OneTask r) init as s) : Inv r s :=
  h.invariant inv_init fun _ _ _ => inv_step

theorem invoked_of_returns {base : List ω} {c : κ} {as : List (Act κ ω)} (h : Inv r s)
    (hp : Pending base w (fun x => (x.call c).bears x.cell w) s)
    (run : Run step (OneTask r) s as t) (ret : Returns c s as) : Invoked base w t := by
  obtain ⟨bs, cs, m, rfl, first, idle⟩ := ret
  obtain ⟨m', first', rest⟩ := run.split
  obtain rfl := first.det first'
  have at_m : Inv r m ∧ Pending base w (fun x => (x.call c).bears x.cell w) m := by
    apply first'.invariant ⟨h, hp⟩
    intro s a t ⟨inv, hp⟩ g next
    exact ⟨inv_step inv g next, bears_step inv hp next⟩
  obtain done | hb := at_m.2.due
  · exact done.mono (log_run rest)
  · rw [idle] at hb
    exact hb.elim

/-- A wake whose `fetch_or` comes after the first `compare_exchange` of `register(w)` and
before that of any later `register` gets `w` invoked after it, once the calls that were in
progress at the `fetch_or` have returned. Whoever calls what, a cell with no call in
progress is WAITING. -/
theorem atomicWaker_loses_no_wake :
    (∀ (r c : κ) (w : ω) (as₁ as₂ as₃ : List (Act κ ω)) (s₁ s₂ s₃ s₄ s₅ : State κ ω),
      Run step (OneTask r) init as₁ s₁ → s₁.calls.call r = .register (.acquire w) →
      step s₁ (.step r) = some s₂ →
      Run step (fun s a => OneTask r s a ∧ ¬ Acquires s a) s₂ as₂ s₃ →
      s₃.calls.call c = .wake .fetchOr → step s₃ (.step c) = some s₄ →
      Run step (OneTask r) s₄ as₃ s₅ → (∀ d, Returns d s₄ as₃) →
      Invoked s₂.invoked w s₅) ∧
    ∀ (as : List (Act κ ω)) (s : State κ ω), Run step Free init as s →
      (∀ c, s.calls.call c = .idle) → s.calls.cell.state = waiting := by
  constructor
  · intro r c w as₁ as₂ as₃ s₁ s₂ s₃ s₄ s₅ run₁ hr reg run₂ hc wake run₃ ret
    have inv₁ := inv_run run₁
    have inv₂ : Inv r s₂ := inv_step (a := .step r) inv₁ trivial reg
    have armed : Pending s₂.invoked w (fun x => Due x r w) s₂ := by
      obtain ⟨_, _, ha, _⟩ | ⟨u, ha, rfl⟩ := step_cases reg
      · cases ha
      cases ha
      exact ⟨List.prefix_rfl, .inr (acquire_advance inv₁.exclusive inv₁.only hr)⟩
    have at₃ : Inv r s₃ ∧ Pending s₂.invoked w (fun x => Due x r w) s₃ := by
      apply run₂.invariant ⟨inv₂, armed⟩
      intro s a t ⟨inv, hp⟩ g next
      exact ⟨inv_step inv g.1 next, due_step inv g.2 hp next⟩
    have inv₄ : Inv r s₄ := inv_step (a := .step c) at₃.1 trivial wake
    obtain ⟨log, done | ⟨d, hd⟩⟩ := borne_of_fetchOr at₃.1 hc at₃.2 wake
    · exact done.mono (log_run run₃)
    · exact invoked_of_returns inv₄ ⟨log, .inr hd⟩ run₃ (ret d)
  · intro as s run idle
    have inv : Exclusive s.calls := by
      apply run.invariant (I := fun s => Exclusive s.calls) exclusive_new
      intro s a t inv _ next
      exact exclusive_step inv next
    exact inv.waiting_of_idle idle

/-- Party `true` registers waker 7 while `false` wakes: the wake finds the slot busy, and
the registering party invokes the waker. -/
theorem wake_during_register :
    ∃ s : State Bool Nat, Run step (OneTask true) init
      ([.register true 7, .wake false, .step true, .step false] ++
        List.replicate 5 (.step true)) s ∧
      Invoked [] 7 s ∧ s.calls.cell.state = waiting := by
  have run : Run step (OneTask true) (init : State Bool Nat) ([.register true 7, .wake false,
    .step true, .step false] ++ List.replicate 5 (.step true)) _ := run_of_exec rfl
  refine ⟨_, run, ?_, ?_⟩
  · apply atomicWaker_loses_no_wake.1 true false 7 [.register true 7, .wake false] []
      (List.replicate 5 (.step true)) _ _ _ _ _ (run_of_exec rfl) rfl rfl .nil rfl rfl
      (run_of_exec rfl)
    rintro (_ | _)
    · exact ⟨[], _, _, rfl, .nil, rfl⟩
    · exact ⟨_, [], _, (List.append_nil _).symm, run_of_exec rfl, rfl⟩
  · apply atomicWaker_loses_no_wake.2 _ _ run.free
    rintro (_ | _) <;> rfl

end Px4Rs.WakerLive
