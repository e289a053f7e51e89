import Px4Rs.WakerCalls

/-! One task parks on an `AtomicWaker` while other parties post news and then wake it.
Whatever the news are, a task that has registered its waker and then looked in vain is
invoked, or somebody who posted is still on the way to it. -/
namespace Px4Rs.AtomicWaker
open Function
variable {κ ω : Type*}

namespace Call

def registers : Call ω → Bool
  | .idle | .register _ => true
  | _ => false

def wakes : Call ω → Bool
  | .idle | .wake _ => true
  | _ => false

end Call

/- What a program shows of itself. `waits` is the waker of a poll past its registration,
   `invoked` what was invoked since that poll began, `news` that something was posted after
   the task's last look, and `owing` the parties that posted and have yet to do the
   `fetch_or` of their wake. -/
structure View (κ ω : Type*) where
  cell : AtomicWaker ω
  task : Call ω
  others : κ → Call ω
  invoked : List ω
  waits : Option ω
  news : Prop
  owing : κ → Prop

/-- The calls on the cell; the task is `none`. -/
def View.calls (v : View κ ω) : Calls (Option κ) ω :=
  ⟨v.cell, fun c => c.elim v.task v.others⟩

/- The task registers and the others wake. A waker that is waited with is due, and where
   there are news for it somebody owes a wake or bears the waker. -/
structure Sound (v : View κ ω) : Prop where
  task : v.task.registers = true
  others : ∀ c, (v.others c).wakes = true
  exclusive : Exclusive v.calls
  calm : v.waits ≠ none → ∀ x, v.task ≠ .register (.acquire x)
  due : ∀ w, v.waits = some w → w ∈ v.invoked ∨ Due v.calls none w
  owed : ∀ w, v.waits = some w → v.news →
    w ∈ v.invoked ∨ (∃ c, v.owing c) ∨ Borne v.calls w

variable {v u : View κ ω} {w : ω}

theorem Sound.fresh (cell : v.cell = AtomicWaker.new) (task : v.task = .idle)
    (others : ∀ c, v.others c = .idle) (waits : v.waits = none) : Sound v := by
  have idle : v.calls = ⟨AtomicWaker.new, fun _ => .idle⟩ := by
    simp only [View.calls, Calls.mk.injEq]
    refine ⟨cell, ?_⟩
    funext c
    cases c with
    | none => exact task
    | some c => exact others c
  refine ⟨by rw [task]; rfl, fun c => by rw [others]; rfl, idle ▸ exclusive_new, ?_, ?_, ?_⟩ <;>
    simp [waits]

theorem Sound.onlyBy (h : Sound v) : OnlyBy v.calls none := by
  intro c p hc
  cases c with
  | none => rfl
  | some c =>
    have := h.others c
    rw [show v.others c = .register p from hc] at this
    cases this

theorem Sound.noTake (h : Sound v) : NoTake v.calls := by
  intro c p hc
  cases c with
  | none =>
    have := h.task
    rw [show v.task = .take p from hc] at this
    cases this
  | some c =>
    have := h.others c
    rw [show v.others c = .take p from hc] at this
    cases this

theorem Sound.calm_calls (h : Sound v) (hw : v.waits ≠ none) : Calm v.calls := by
  intro c x hc
  obtain rfl := h.onlyBy c _ hc
  exact h.calm hw x hc

variable [DecidableEq κ]

theorem calls_task (others : u.others = v.others) :
    u.calls = v.calls.put none u.cell u.task := by
  simp only [View.calls, Calls.put, Calls.mk.injEq, true_and]
  funext c
  cases c <;> simp [others]

theorem calls_other {c : κ} {q : Call ω} (task : u.task = v.task)
    (others : u.others = update v.others c q) : u.calls = v.calls.put (some c) u.cell q := by
  simp only [View.calls, Calls.put, Calls.mk.injEq, true_and]
  funext d
  cases d with
  | none => simp [task]
  | some d => by_cases hdc : d = c <;> simp [others, hdc]

theorem Sound.keep {i : Option ω} (h : Sound v) (m : Moves v.calls u.calls i)
    (invoked : u.invoked = v.invoked ++ i.toList) (hv : v.waits = some w) :
    w ∈ u.invoked ∨ Due u.calls none w := by
  rw [invoked]
  obtain done | due := h.due w hv
  · exact .inl (List.mem_append_left _ done)
  · obtain due | rfl := m.due h.exclusive (h.calm_calls (by simp [hv])) h.noTake due
    · exact .inr due
    · exact .inl (by simp)

/-- What is borne stays borne until it is invoked. -/
theorem Sound.keep_borne {i : Option ω} (h : Sound v) (m : Moves v.calls u.calls i)
    (invoked : u.invoked = v.invoked ++ i.toList) (hb : Borne v.calls w) :
    w ∈ u.invoked ∨ Borne u.calls w := by
  obtain hb | rfl := m.borne h.exclusive hb
  · exact .inr hb
  · exact .inl (by simp [invoked])

theorem Sound.task_move {q : Call ω} (h : Sound v) (idle : v.task = .idle)
    (hq : q = .idle ∨ ∃ x, q = .register (.acquire x) ∧ u.waits = none)
    (cell : u.cell = v.cell) (task : u.task = q) (others : u.others = v.others)
    (waits : u.waits ≠ none → u.waits = v.waits ∧ u.invoked = v.invoked)
    (news : u.waits ≠ none → u.news → v.news) (owing : u.owing = v.owing) : Sound u := by
  have m : Moves v.calls u.calls none := by
    refine .inr (.inl ⟨none, q, idle, ?_, ?_⟩)
    · obtain rfl | ⟨x, rfl, _⟩ := hq <;> rfl
    · rw [calls_task others, cell, task]
      rfl
  refine ⟨?_, others ▸ h.others, m.exclusive h.exclusive, ?_, ?_, ?_⟩
  · obtain rfl | ⟨x, rfl, _⟩ := hq <;> rw [task] <;> rfl
  · intro hw x hx
    obtain rfl | ⟨_, _, hn⟩ := hq
    · rw [task] at hx
      cases hx
    · exact hw hn
  · intro w hw
    obtain ⟨hwaits, invoked⟩ := waits (by simp [hw])
    exact h.keep m (by simp [invoked]) (hwaits ▸ hw)
  · intro w hw hn
    obtain ⟨hwaits, invoked⟩ := waits (by simp [hw])
    obtain done | ow | hb := h.owed w (hwaits ▸ hw) (news (by simp [hw]) hn)
    · exact .inl (invoked ▸ done)
    · exact .inr (.inl (owing ▸ ow))
    · exact (h.keep_borne m (by simp [invoked]) hb).imp_right .inr

/-- The `register` call of a task that waits with `w` advances; before its first
`compare_exchange` the task need not have waited yet. -/
theorem Sound.task_register {p : Register ω} (h : Sound v) (hp : v.task = .register p)
    (cell : u.cell = (p.step v.cell).cell)
    (task : u.task = Call.ofRegister (p.step v.cell).pc) (others : u.others = v.others)
    (invoked : u.invoked = v.invoked ++ (p.step v.cell).invoked.toList)
    (waits : u.waits = some w) (given : ∀ x, p = .acquire x → x = w)
    (past : (∀ x, p ≠ .acquire x) → v.waits = some w) (news : ¬ u.news) : Sound u := by
  have calls : u.calls = v.calls.advance none := by
    rw [calls_task others, cell, task, Calls.advance]
    simp [View.calls, hp, Call.step]
  have hi : v.calls.invokes none = (p.step v.cell).invoked := by
    simp [Calls.invokes, View.calls, hp, Call.step]
  have m : Moves v.calls u.calls (p.step v.cell).invoked := .inr (.inr ⟨none, calls, hi.symm⟩)
  refine ⟨?_, others ▸ h.others, m.exclusive h.exclusive, ?_, ?_, fun w _ hn => absurd hn news⟩
  · rw [task]
    cases (p.step v.cell).pc <;> rfl
  · intro _ x hx
    have := Register.step_ne_acquire v.cell p x
    rw [task] at hx
    cases hpc : (p.step v.cell).pc <;> simp_all [Call.ofRegister, Register.resume]
  · intro _ hw
    rw [waits] at hw
    cases hw
    by_cases acquire : ∃ x, p = .acquire x
    · obtain ⟨x, rfl⟩ := acquire
      obtain rfl := given x rfl
      rw [calls]
      exact .inr (acquire_advance h.exclusive h.onlyBy hp)
    · exact h.keep m invoked (past fun x hx => acquire ⟨x, hx⟩)

theorem Sound.other_move {c : κ} {q : Call ω} (h : Sound v) (idle : v.others c = .idle)
    (hq : q = .idle ∨ q = .wake .fetchOr) (cell : u.cell = v.cell) (task : u.task = v.task)
    (others : u.others = update v.others c q) (waits : u.waits = v.waits)
    (invoked : u.invoked = v.invoked) (news : u.news → v.news ∨ u.owing c)
    (owing : u.waits ≠ none → ∀ d, v.owing d → u.owing d) : Sound u := by
  have m : Moves v.calls u.calls none := by
    refine .inr (.inl ⟨some c, q, idle, ?_, ?_⟩)
    · obtain rfl | rfl := hq <;> rfl
    · rw [calls_other task others, cell]
      rfl
  refine ⟨task ▸ h.task, fun d => ?_, m.exclusive h.exclusive, ?_, ?_, ?_⟩
  · by_cases hdc : d = c
    · subst hdc
      rw [others, update_self]
      obtain rfl | rfl := hq <;> rfl
    · rw [others, update_of_ne hdc]
      exact h.others d
  · rw [task, waits]
    exact h.calm
  · intro w hw
    exact h.keep m (by simp [invoked]) (waits ▸ hw)
  · intro w hw hn
    obtain hn | ow := news hn
    · obtain done | ⟨d, hd⟩ | hb := h.owed w (waits ▸ hw) hn
      · exact .inl (invoked ▸ done)
      · exact .inr (.inl ⟨d, owing (by simp [hw]) d hd⟩)
      · exact (h.keep_borne m (by simp [invoked]) hb).imp_right .inr
    · exact .inr (.inl ⟨c, ow⟩)

theorem Sound.other_wake {c : κ} {p : Wake ω} (h : Sound v) (hp : v.others c = .wake p)
    (cell : u.cell = (p.step v.cell).cell) (task : u.task = v.task)
    (others : u.others = update v.others c (Call.ofWake (p.step v.cell).pc))
    (waits : u.waits = v.waits)
    (invoked : u.invoked = v.invoked ++ (p.step v.cell).invoked.toList)
    (news : u.news → v.news) (owing : ∀ d, v.owing d → u.owing d ∨ d = c ∧ p = .fetchOr) :
    Sound u := by
  have calls : u.calls = v.calls.advance (some c) := by
    rw [calls_other task others, cell, Calls.advance]
    simp [View.calls, hp, Call.step]
  have hi : v.calls.invokes (some c) = (p.step v.cell).invoked := by
    simp [Calls.invokes, View.calls, hp, Call.step]
  have m : Moves v.calls u.calls (p.step v.cell).invoked :=
    .inr (.inr ⟨some c, calls, hi.symm⟩)
  refine ⟨task ▸ h.task, fun d => ?_, m.exclusive h.exclusive, ?_, ?_, ?_⟩
  · by_cases hdc : d = c
    · subst hdc
      rw [others, update_self]
      cases (p.step v.cell).pc <;> rfl
    · rw [others, update_of_ne hdc]
      exact h.others d
  · rw [task, waits]
    exact h.calm
  · intro w hw
    exact h.keep m invoked (waits ▸ hw)
  · intro w hw hn
    have hv : v.waits = some w := waits ▸ hw
    obtain done | ⟨d, hd⟩ | hb := h.owed w hv (news hn)
    · exact .inl (invoked ▸ List.mem_append_left _ done)
    · obtain hd | ⟨rfl, rfl⟩ := owing d hd
      · exact .inr (.inl ⟨d, hd⟩)
      -- the wake that was owed passes its `fetch_or`: from there on somebody bears `w`
      obtain done | due := h.due w hv
      · exact .inl (invoked ▸ List.mem_append_left _ done)
      · obtain hb | hi' := borne_of_due (u := some d) h.exclusive hp due
        · exact .inr (.inr (calls ▸ hb))
        · exact .inl (by rw [invoked, ← hi, hi']; simp)
    · exact (h.keep_borne m invoked hb).imp_right .inr

omit [DecidableEq κ] in
/-- A parked task for which there are news was invoked, or a party is on the way to it. -/
theorem Sound.parked (h : Sound v) (task : v.task = .idle) (hw : v.waits = some w)
    (hn : v.news) : w ∈ v.invoked ∨ ∃ c, v.owing c ∨ ∃ p, v.others c = .wake p := by
  obtain done | ⟨c, hc⟩ | ⟨c, hc⟩ := h.owed w hw hn
  · exact .inl done
  · exact .inr ⟨c, .inl hc⟩
  · cases c with
    | none => simp [View.calls, task, Call.bears] at hc
    | some c =>
      have wakes := h.others c
      cases hp : v.others c with
      | wake p => exact .inr ⟨c, .inr ⟨p, hp⟩⟩
      | idle => simp [View.calls, hp, Call.bears] at hc
      | register p | take p =>
        rw [hp] at wakes
        cases wakes

end Px4Rs.AtomicWaker
