import Px4Rs.TaskCellWake
import Mathlib.Data.Finset.Card

/-! What the steps of a cell do to the queue its work item is in, and how often the item
can be there at once. -/
namespace Px4Rs.TaskCell
open Px4Rs.Runs Function
variable {τ : Type*} [DecidableEq τ] {s t : State τ} {a : Act τ}

theorem step_of_steps (h : Steps s a t) : step s a = some t := by
  cases h with
  | spawn ht free => simp [step, ht, free]
  | busy ht taken => simp [step, ht, taken]
  | wake ht cloned => simp [step, ht, cloned]
  | pop idle queued => simp [step, idle, queued]
  | loadNull ht null | wakeNull ht null => simp [step, ht, null]
  | loadHandle ht stored | wakeLoad ht stored => simp [step, ht, stored]
  | ready runs live => simp [step, runs, live]
  | readyUndefined runs dead =>
    cases hs : s.slot with
    | live f => exact absurd hs (dead f)
    | uninit | ready | dropped => simp [step, runs, hs]
  | write ht | refused ht | allocated ht | rollbackDrop ht | rollbackStore ht | storeHandle ht
  | spawnSchedule ht | wakeSchedule ht | fetchAnd ht | poll ht | pending ht | drop ht
  | store ht => simp [step, ht]

/-- Whether an operation is `wi_schedule_now`, with the queue's answer. -/
def Act.schedules : Act τ → Option Bool
  | .spawnSchedule _ _ coalesce | .wakeSchedule _ _ coalesce => some coalesce
  | _ => none

/-- How many operations of the WorkQueue thread the Run in progress still has. -/
def Runner.left : Runner → Nat
  | .idle => 0
  | .store => 1
  | .drop => 2
  | .polling => 3
  | .poll => 4
  | .fetchAnd => 5

@[simp] theorem Runner.left_idle : Runner.idle.left = 0 := rfl
@[simp] theorem Runner.left_fetchAnd : Runner.fetchAnd.left = 5 := rfl

omit [DecidableEq τ] in
theorem thread_of_schedules {b : Bool} (h : a.schedules = some b) : a.thread ≠ none := by
  cases a <;> simp [Act.schedules, Act.thread] at h ⊢

theorem schedule_step {b : Bool} (h : a.schedules = some b) (next : step s a = some t) :
    t.queued = if b ∧ 0 < s.queued then s.queued else s.queued + 1 := by
  cases steps_of_step next with
  | spawnSchedule | wakeSchedule => cases h; rfl
  | spawn | busy | write | loadNull | loadHandle | refused | allocated | rollbackDrop
  | rollbackStore | storeHandle | wake | wakeNull | wakeLoad | pop | fetchAnd | poll | pending
  | ready | readyUndefined | drop | store => cases h

/-- Only `wi_schedule_now` and the pop change how often the item is queued. -/
theorem queued_step (h : a.schedules = none) (pop : a ≠ .pop) (next : step s a = some t) :
    t.queued = s.queued := by
  cases steps_of_step next with
  | pop => exact absurd rfl pop
  | spawnSchedule | wakeSchedule => cases h
  | drop | rollbackDrop | spawn | busy | write | loadNull | loadHandle | refused | allocated
  | rollbackStore | storeHandle | wake | wakeNull | wakeLoad | fetchAnd | poll | pending
  | ready | readyUndefined | store => rfl

theorem pop_step (next : step s .pop = some t) :
    s.runner = .idle ∧ 0 < s.queued ∧ t.runner = .fetchAnd ∧ t.queued = s.queued - 1 := by
  cases steps_of_step next with
  | pop idle queued => exact ⟨idle, queued, rfl, rfl⟩

theorem left_step (own : a.thread = none) (pop : a ≠ .pop) (next : step s a = some t) :
    s.runner ≠ .idle ∧ t.runner.left < s.runner.left := by
  cases steps_of_step next with
  | pop => exact absurd rfl pop
  | fetchAnd hr =>
    refine ⟨by simp [hr], ?_⟩
    simp only [hr]
    split <;> decide
  | poll hr | pending hr | ready hr | readyUndefined hr | drop hr | store hr =>
    simp [hr, Runner.left]
  | spawn | busy | write | loadNull | loadHandle | refused | allocated | rollbackDrop
  | rollbackStore | storeHandle | spawnSchedule | wake | wakeNull | wakeLoad | wakeSchedule =>
    cases own

theorem eq_fetchAnd (hr : s.runner = .fetchAnd) (own : a.thread = none)
    (next : step s a = some t) : a = .fetchAnd := by
  cases steps_of_step next with
  | fetchAnd => rfl
  | pop hi | poll hi | pending hi | ready hi | readyUndefined hi | drop hi | store hi =>
    rw [hr] at hi
    cases hi
  | spawn | busy | write | loadNull | loadHandle | refused | allocated | rollbackDrop
  | rollbackStore | storeHandle | spawnSchedule | wake | wakeNull | wakeLoad | wakeSchedule =>
    cases own

theorem runner_of_thread (own : a.thread ≠ none) (next : step s a = some t) :
    t.runner = s.runner := by
  obtain ⟨u, hu⟩ := Option.ne_none_iff_exists'.mp own
  exact (thread_step next hu).2

/-! How often an item can be queued at once: every entry goes back to a future that was
accepted, or to a Run that found the task still spawned. -/

/-- A call in progress counts for the entry it may still make. -/
def Pc.entry (p : Pc) : Nat := if p = .idle then 0 else 1

def Runner.entry (r : Runner) : Nat := if r = .fetchAnd then 1 else 0

/-- A wake would find SPAWNED alone and schedule the item. -/
def wakeEntry (w : Word) : Nat := if isSpawned w ∧ ¬ isQueued w then 1 else 0

def Covered (s : State τ) : Prop :=
  ∃ l : Finset τ, (∀ t, t ∈ l ↔ s.pc t ≠ .idle) ∧
    s.queued + l.card + s.runner.entry + wakeEntry s.word ≤ s.accepted

theorem exists_card_update {pc : τ → Pc} {l : Finset τ} (mem : ∀ t, t ∈ l ↔ pc t ≠ .idle)
    (u : τ) (p : Pc) : ∃ l' : Finset τ, (∀ t, t ∈ l' ↔ update pc u p t ≠ .idle) ∧
      l'.card + (pc u).entry = l.card + p.entry := by
  have others (t : τ) (ht : t ≠ u) : t ∈ l ↔ update pc u p t ≠ .idle := by
    rw [update_of_ne ht, mem]
  by_cases hp : p = .idle
  · refine ⟨l.erase u, fun t => ?_, ?_⟩
    · by_cases ht : t = u
      · simp [ht, hp]
      · simp only [Finset.mem_erase, ht, ne_eq, not_false_eq_true, true_and]
        exact others t ht
    · by_cases hu : pc u = .idle
      · simp [Finset.erase_eq_of_notMem, mem, hu, hp]
      · have hin : u ∈ l := (mem u).mpr hu
        have := Finset.card_erase_add_one hin
        simpa [Pc.entry, hu, hp] using this
  · refine ⟨insert u l, fun t => ?_, ?_⟩
    · by_cases ht : t = u
      · simp [ht, hp]
      · simp only [Finset.mem_insert, ht, false_or]
        exact others t ht
    · by_cases hu : pc u = .idle
      · have hout : u ∉ l := by simp [mem, hu]
        simp [Finset.card_insert_of_notMem hout, Pc.entry, hu, hp]
      · have hin : u ∈ l := (mem u).mpr hu
        simp [Finset.insert_eq_of_mem hin, Pc.entry, hu, hp]

theorem Covered.move {u : τ} {p : Pc} (h : Covered s) (pc : t.pc = update s.pc u p)
    (le : t.queued + p.entry + t.runner.entry + wakeEntry t.word + s.accepted ≤
      s.queued + (s.pc u).entry + s.runner.entry + wakeEntry s.word + t.accepted) :
    Covered t := by
  obtain ⟨l, mem, bound⟩ := h
  obtain ⟨l', mem', card⟩ := exists_card_update mem u p
  exact ⟨l', pc ▸ mem', by omega⟩

omit [DecidableEq τ] in
theorem Covered.run (h : Covered s) (pc : t.pc = s.pc) (accepted : t.accepted = s.accepted)
    (le : t.queued + t.runner.entry + wakeEntry t.word ≤
      s.queued + s.runner.entry + wakeEntry s.word) : Covered t := by
  obtain ⟨l, mem, bound⟩ := h
  exact ⟨l, pc ▸ mem, by omega⟩

omit [DecidableEq τ] in
theorem schedule_le (s : State τ) (b : Bool) : (s.schedule b).queued ≤ s.queued + 1 := by
  simp only [State.schedule_queued]
  split <;> omega

theorem wakeEntry_le (w : Word) : wakeEntry w ≤ 1 := by
  unfold wakeEntry
  split <;> omega

@[simp] theorem wakeEntry_or_runQueued (w : Word) : wakeEntry (w ||| runQueued) = 0 := by
  simp [wakeEntry]

@[simp] theorem wakeEntry_zero : wakeEntry 0#8 = 0 := by simp [wakeEntry]

theorem covered_step (h : Covered s) (next : step s a = some t) : Covered t := by
  cases steps_of_step next with
  | spawn hu free =>
    refine h.move rfl ?_
    simp [hu, Pc.entry]
    omega
  | busy hu | write hu | loadNull hu | loadHandle hu | refused hu | allocated hu
  | rollbackDrop hu | storeHandle hu | wakeNull hu | wakeLoad hu =>
    refine h.move rfl ?_
    simp [hu, Pc.entry]
  | rollbackStore hu =>
    refine h.move rfl ?_
    simp [hu, Pc.entry]
    omega
  | @spawnSchedule _ _ b hu | @wakeSchedule _ _ b hu =>
    have := schedule_le s b
    simp only [State.schedule_queued] at this
    refine h.move rfl ?_
    simp [hu, Pc.entry]
    omega
  | wake hu =>
    refine h.move rfl ?_
    simp only [State.goto_queued, State.goto_runner, State.goto_accepted, hu, Pc.entry, wakeEntry]
    split <;> simp
    omega
  | pop hr queued =>
    refine h.run rfl rfl ?_
    simp [hr, Runner.entry]
    omega
  | fetchAnd hr =>
    have := wakeEntry_le (s.word &&& ~~~runQueued)
    refine h.run rfl rfl ?_
    simp only [hr, Runner.entry]
    split <;> simp <;> omega
  | poll hr | pending hr | ready hr | readyUndefined hr | drop hr | store hr =>
    refine h.run rfl rfl ?_
    simp [hr, Runner.entry]

omit [DecidableEq τ] in
theorem covered_init : Covered (init : State τ) :=
  ⟨∅, by simp [init], by simp [init, Runner.entry]⟩

/-- At any time an item is queued at most once for each future its cell accepted. -/
theorem queued_le_accepted {P : State τ → Act τ → Prop} {as : List (Act τ)}
    (h : Run step P init as s) : s.queued ≤ s.accepted := by
  obtain ⟨l, _, bound⟩ := h.invariant covered_init fun _ _ _ hs _ => covered_step hs
  omega

end Px4Rs.TaskCell
