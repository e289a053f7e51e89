import Px4Rs.Executions
import Px4Rs.TaskCellInv

/-! No wake of a spawned task is lost: while the word has both bits a further Run is
owed, and wherever threads and the WorkQueue keep going that Run happens. -/
namespace Px4Rs.TaskCell
open Px4Rs.Runs Function
variable {τ : Type*} [DecidableEq τ]

/-- A position whose thread has set the bits and has neither scheduled nor rolled back. -/
def Pc.scheduling : Pc → Bool
  | .idle => false
  | _ => true

/-- The item is queued, a popped Run has its `fetch_and` to come, or a thread that set
the bits has its `wi_schedule_now` to come. -/
def Owed (s : State τ) : Prop :=
  0 < s.queued ∨ s.runner = .fetchAnd ∨ ∃ t, (s.pc t).scheduling = true

def BothBits (s : State τ) : Prop := isSpawned s.word = true ∧ isQueued s.word = true

def OwedInv (s : State τ) : Prop := BothBits s → Owed s

/-- A thread that has not come to rest owes the Run itself. -/
theorem owed_of_pc {s t : State τ} {u : τ} {p : Pc} (pc : t.pc = update s.pc u p)
    (hp : p ≠ .idle) : Owed t := by
  refine .inr (.inr ⟨u, ?_⟩)
  rw [pc, update_self]
  cases p <;> first | rfl | exact absurd rfl hp

omit [DecidableEq τ] in
theorem schedule_queued_pos (s : State τ) (c : Bool) : 0 < (s.schedule c).queued := by
  simp only [State.schedule_queued]
  split <;> omega

theorem OwedInv.bystander {s t : State τ} (h : OwedInv s) {u : τ} {p : Pc}
    (hu : (s.pc u).scheduling = false) (pc : t.pc = update s.pc u p)
    (word : BothBits t → BothBits s) (queued : t.queued = s.queued)
    (runner : t.runner = s.runner) : OwedInv t := by
  intro hb
  obtain hq | hr | ⟨v, hv⟩ := h (word hb)
  · exact .inl (queued ▸ hq)
  · exact .inr (.inl (runner ▸ hr))
  · have hvu : v ≠ u := by
      rintro rfl
      rw [hu] at hv
      cases hv
    exact .inr (.inr ⟨v, by rwa [pc, update_of_ne hvu]⟩)

omit [DecidableEq τ] in
theorem OwedInv.run {s t : State τ} (h : OwedInv s) (hr : s.runner ≠ .fetchAnd)
    (pc : t.pc = s.pc) (word : t.word = s.word) (queued : t.queued = s.queued) :
    OwedInv t := by
  intro hb
  obtain hq | hf | hv := h (by rwa [BothBits, ← word])
  · exact .inl (queued ▸ hq)
  · exact absurd hf hr
  · exact .inr (.inr (pc ▸ hv))

theorem owedInv_step {s t : State τ} {a : Act τ} (hi : AllocInv s) (h : OwedInv s)
    (next : step s a = some t) : OwedInv t := by
  cases steps_of_step next with
  | spawn | write | storeHandle | rollbackDrop | loadNull | loadHandle | refused | allocated =>
    exact fun _ => owed_of_pc rfl (by simp)
  | busy hu => exact h.bystander (by rw [hu]; rfl) rfl id rfl rfl
  | rollbackStore | store | fetchAnd =>
    intro hb
    simp [BothBits] at hb
  | spawnSchedule | wakeSchedule => exact fun _ => .inl (schedule_queued_pos s _)
  | wake hu =>
    by_cases hw : isSpawned s.word = true ∧ ¬ isQueued s.word = true
    · rw [if_pos hw]
      exact fun _ => owed_of_pc rfl (by simp)
    · -- the bit was set before, or the cell is not spawned and is not now
      rw [if_neg hw]
      refine h.bystander (by rw [hu]; rfl) rfl ?_ rfl rfl
      rintro ⟨hs, _⟩
      rw [isSpawned_or_runQueued] at hs
      exact ⟨hs, by simpa [hs] using hw⟩
  | @wakeNull u hu null => exact absurd null (hi.handle_of_late (t := u) (by rw [hu]; rfl))
  | wakeLoad => exact fun _ => owed_of_pc rfl (by simp)
  | pop => exact fun _ => .inr (.inl rfl)
  | poll hr | pending hr | drop hr | ready hr | readyUndefined hr =>
    exact h.run (by simp [hr]) rfl rfl rfl

/-- What holds in every reachable state of the cell. -/
structure WakeInv (s : State τ) : Prop where
  alloc : AllocInv s
  owed : OwedInv s

omit [DecidableEq τ] in
theorem wakeInv_init : WakeInv (init : State τ) :=
  ⟨allocInv_init, by simp [OwedInv, BothBits, init]⟩

theorem wakeInv_step {s t : State τ} {a : Act τ} (h : WakeInv s) (next : step s a = some t) :
    WakeInv t :=
  ⟨allocInv_step h.alloc next, owedInv_step h.alloc h.owed next⟩

/-! How a step changes the word of a cell whose work item exists. -/

/-- Only a Run clears RUN_QUEUED, and only a completion or a rollback clears SPAWNED. -/
theorem word_step {s t : State τ} {a : Act τ} (next : step s a = some t) :
    t.word = s.word ∨ t.word = s.word ||| runQueued ∨ s.word = 0#8 ∨
      (a = .fetchAnd ∧ t.word = s.word &&& ~~~runQueued) ∨ a = .store ∨
      ∃ u, s.pc u = .rollbackStore := by
  cases steps_of_step next with
  | spawn _ free => exact .inr (.inr (.inl free))
  | busy | loadNull | loadHandle | refused | allocated | write | rollbackDrop | storeHandle
  | spawnSchedule | wakeNull | wakeLoad | wakeSchedule | pop | poll | pending | ready
  | readyUndefined | drop => exact .inl rfl
  | wake => exact .inr (.inl rfl)
  | @rollbackStore u hu => exact .inr (.inr (.inr (.inr (.inr ⟨u, hu⟩))))
  | fetchAnd => exact .inr (.inr (.inr (.inl ⟨rfl, rfl⟩)))
  | store => exact .inr (.inr (.inr (.inr (.inl rfl))))

theorem handle_step {s t : State τ} {a : Act τ} (hn : s.handle ≠ none)
    (next : step s a = some t) : t.handle ≠ none := by
  cases steps_of_step next with
  | storeHandle => simp
  | spawn | busy | write | loadNull | loadHandle | refused | allocated | rollbackDrop
  | rollbackStore | spawnSchedule | wake | wakeNull | wakeLoad | wakeSchedule | pop | fetchAnd
  | poll | pending | ready | readyUndefined | drop | store => exact hn

/-- The invariant together with a work item: nobody can roll back any more. -/
structure Bound (s : State τ) : Prop where
  inv : WakeInv s
  handle : s.handle ≠ none

theorem bound_step {s t : State τ} {a : Act τ} (h : Bound s) (next : step s a = some t) :
    Bound t :=
  ⟨wakeInv_step h.inv next, handle_step h.handle next⟩

omit [DecidableEq τ] in
theorem Bound.not_allocating {s : State τ} (h : Bound s) (t : τ) :
    (s.pc t).allocating = false := by
  by_contra ht
  exact h.handle (h.inv.alloc.alloc t (by simpa using ht))

theorem spawned_step {s t : State τ} {a : Act τ} (h : Bound s) (hs : isSpawned s.word = true)
    (ha : a ≠ .store) (next : step s a = some t) : isSpawned t.word = true := by
  obtain he | he | he | ⟨_, he⟩ | he | ⟨u, hu⟩ := word_step next
  · rwa [he]
  · simpa [he] using hs
  · simp [he] at hs
  · simpa [he] using hs
  · exact absurd he ha
  · have := h.not_allocating u
    simp [hu, Pc.allocating] at this

/-- The steps that end what a wake asked for: the `fetch_and` of a Run, and the store by
which the task resolves. -/
def Act.settles : Act τ → Prop
  | .fetchAnd | .store => True
  | _ => False

theorem bothBits_step {s t : State τ} {a : Act τ} (h : Bound s) (hb : BothBits s)
    (ha : ¬ a.settles) (next : step s a = some t) : BothBits t := by
  obtain ⟨hs, hq⟩ := hb
  have hns : a ≠ .store := by rintro rfl; exact ha trivial
  refine ⟨spawned_step h hs hns next, ?_⟩
  obtain he | he | he | ⟨he, _⟩ | he | ⟨u, hu⟩ := word_step next
  · rwa [he]
  · simp [he]
  · simp [he] at hs
  · exact absurd (he ▸ trivial) ha
  · exact absurd he hns
  · have := h.not_allocating u
    simp [hu, Pc.allocating] at this

/-- A wake of a spawned cell leaves both bits and a work item to run. -/
theorem wake_bothBits {s t : State τ} {u : τ} (h : WakeInv s) (hs : isSpawned s.word = true)
    (next : step s (.wake u) = some t) : Bound t ∧ BothBits t := by
  have inv := wakeInv_step h next
  cases steps_of_step next with
  | wake _ cloned =>
    refine ⟨⟨inv, fun hn => ?_⟩, by simp [BothBits, hs]⟩
    simp [(h.alloc.quiet hn).2.2] at cloned

/-! Fair executions: threads finish the calls they are in, and the WorkQueue pops what is
queued and finishes the Runs it begins. -/

/-- The thread that takes a step; `none` is the WorkQueue thread. -/
def Act.thread : Act τ → Option τ
  | .spawn t | .write t _ | .loadHandle t _ | .wiNew t _ _ | .rollbackDrop t _
  | .rollbackStore t | .storeHandle t _ | .spawnSchedule t _ _ | .wake t | .wakeLoad t
  | .wakeSchedule t _ _ => some t
  | .pop | .fetchAnd | .poll | .pending | .ready | .drop | .store => none

def State.working (s : State τ) : Prop := s.runner ≠ .idle ∨ 0 < s.queued

structure FairRun (e : Execution step (init : State τ)) : Prop where
  threads : ∀ t, e.Fair (fun s => s.pc t ≠ .idle) (fun a => a.thread = some t)
  workQueue : e.Fair State.working (fun a => a.thread = none)

/-- How far the WorkQueue thread is from its next `fetch_and`. -/
def Runner.rank : Runner → Nat
  | .fetchAnd | .store => 0
  | .idle | .drop => 1
  | .polling => 2
  | .poll => 3

/-- How far a thread that does not allocate is from its `wi_schedule_now`. -/
def Pc.rank : Pc → Nat
  | .write _ => 3
  | .loadHandle _ => 2
  | .wakeLoad => 2
  | _ => 1

/-- A Run waits in the queue or has been popped. -/
def Coming (s : State τ) : Prop := 0 < s.queued ∨ s.runner = .fetchAnd

theorem coming_own {s t : State τ} {a : Act τ} (h : Coming s) (next : step s a = some t)
    (own : a.thread = none) (ha : ¬ a.settles) : Coming t ∧ t.runner.rank < s.runner.rank := by
  cases steps_of_step next with
  | fetchAnd | store => exact absurd trivial ha
  | pop hr => exact ⟨.inr rfl, by simp [hr, Runner.rank]⟩
  | poll hr | pending hr | drop hr | ready hr | readyUndefined hr =>
    exact ⟨.inl (by simpa [Coming, hr] using h), by simp [hr, Runner.rank]⟩
  | spawn | busy | write | loadNull | loadHandle | refused | allocated | rollbackDrop
  | rollbackStore | storeHandle | spawnSchedule | wake | wakeNull | wakeLoad | wakeSchedule =>
    cases own

theorem thread_step {s t : State τ} {a : Act τ} {u : τ} (next : step s a = some t)
    (own : a.thread = some u) : s.queued ≤ t.queued ∧ t.runner = s.runner := by
  cases steps_of_step next with
  | pop | fetchAnd | poll | pending | ready | readyUndefined | drop | store => cases own
  | spawnSchedule | wakeSchedule =>
    refine ⟨?_, rfl⟩
    simp only [State.finish_queued, State.goto_queued, State.schedule_queued]
    split <;> omega
  | spawn | busy | write | loadNull | loadHandle | refused | allocated | rollbackDrop
  | rollbackStore | storeHandle | wake | wakeNull | wakeLoad => exact ⟨le_rfl, rfl⟩

theorem coming_other {s t : State τ} {a : Act τ} (h : Coming s) (next : step s a = some t)
    (own : ¬ a.thread = none) : Coming t ∧ t.runner.rank ≤ s.runner.rank := by
  obtain ⟨u, hu⟩ := Option.ne_none_iff_exists'.mp own
  obtain ⟨hq, hr⟩ := thread_step next hu
  refine ⟨?_, by rw [hr]⟩
  obtain h | h := h
  · exact .inl (by omega)
  · exact .inr (by rw [hr, h])

theorem pc_step {s t : State τ} {a : Act τ} {u : τ} (next : step s a = some t)
    (other : ¬ a.thread = some u) : t.pc u = s.pc u := by
  have hne {v : τ} (hv : a.thread = some v) : u ≠ v := by
    rintro rfl
    exact other hv
  cases steps_of_step next with
  | spawn | busy | write | loadNull | loadHandle | refused | allocated | rollbackDrop
  | rollbackStore | storeHandle | spawnSchedule | wake | wakeNull | wakeLoad | wakeSchedule =>
    exact update_of_ne (hne rfl) _ _
  | pop | fetchAnd | poll | pending | ready | readyUndefined | drop | store => rfl

/-- A thread of a bound cell is on its way to `wi_schedule_now`. -/
def Heading (u : τ) (s : State τ) : Prop := Bound s ∧ (s.pc u).scheduling = true

theorem heading_own {s t : State τ} {a : Act τ} {u : τ} (h : Heading u s)
    (next : step s a = some t) (own : a.thread = some u) :
    (Heading u t ∧ (t.pc u).rank < (s.pc u).rank) ∨ Coming t := by
  obtain ⟨hb, hp⟩ := h
  have hb' := bound_step hb next
  have hna := hb.not_allocating u
  cases steps_of_step next with
  | pop | fetchAnd | poll | pending | ready | readyUndefined | drop | store => cases own
  | spawn hu | busy hu | wake hu =>
    cases own
    simp [hu, Pc.scheduling] at hp
  | refused hu | allocated hu | rollbackDrop hu | rollbackStore hu | storeHandle hu =>
    cases own
    simp [hu, Pc.allocating] at hna
  | loadNull _ null | wakeNull _ null => exact absurd null hb.handle
  | write hu | loadHandle hu | wakeLoad hu =>
    cases own
    exact .inl ⟨⟨hb', by simp [Pc.scheduling]⟩, by simp [hu, Pc.rank]⟩
  | spawnSchedule | wakeSchedule => exact .inr (.inl (schedule_queued_pos s _))

theorem wakeInv_run {P : State τ → Act τ → Prop} {as : List (Act τ)} {s : State τ}
    (h : Run step P init as s) : WakeInv s :=
  h.invariant wakeInv_init fun _ _ _ hs _ => wakeInv_step hs

/-- After a wake of a spawned cell a Run stays owed until one does its `fetch_and` or the
task resolves. -/
theorem owed_after_wake {s t t' : State τ} {u : τ} {bs : List (Act τ)} (h : WakeInv s)
    (hs : isSpawned s.word = true) (next : step s (.wake u) = some t)
    (rest : Run step (fun _ a => ¬ a.settles) t bs t') : Owed t' := by
  obtain ⟨hb, hw⟩ := wake_bothBits h hs next
  have kept : Bound t' ∧ BothBits t' := by
    apply Run.invariant rest ⟨hb, hw⟩
    intro s a t ⟨hb, hw⟩ ha next
    exact ⟨bound_step hb next, bothBits_step hb hw ha next⟩
  exact kept.1.inv.owed kept.2

section Fair
variable {e : Execution step (init : State τ)}

theorem wakeInv_at (n : Nat) : WakeInv (e.state n) :=
  Execution.invariant wakeInv_init (fun _ _ _ => wakeInv_step) n

theorem FairRun.of_coming (fair : FairRun e) {n : Nat} (h : Coming (e.state n)) :
    e.Occurs Act.settles n := by
  have reach : e.Occurs Act.settles n ∨ ∃ m ≥ n, False := by
    refine Execution.leads_to fair.workQueue Act.settles Coming (fun _ => False)
      (fun s => s.runner.rank) ?_ ?_ ?_ h
    · rintro s (hq | hr)
      · exact .inr hq
      · exact .inl (by simp [hr])
    · intro s a t hs next own ha
      exact .inl (coming_own hs next own ha)
    · intro s a t hs next own _
      exact .inl (coming_other hs next own)
  exact reach.resolve_right (by simp)

theorem FairRun.of_heading (fair : FairRun e) {n : Nat} {u : τ} (h : Heading u (e.state n)) :
    e.Occurs Act.settles n := by
  have reach : e.Occurs Act.settles n ∨ ∃ m ≥ n, Coming (e.state m) := by
    refine Execution.leads_to (fair.threads u) Act.settles (Heading u) Coming
      (fun s => (s.pc u).rank) ?_ ?_ ?_ h
    · rintro s ⟨_, hp⟩ hidle
      simp [hidle, Pc.scheduling] at hp
    · intro s a t hs next own _
      exact heading_own hs next own
    · intro s a t hs next own _
      have hp := pc_step next own
      exact .inl ⟨⟨bound_step hs.1 next, by rw [hp, hs.2]⟩, by rw [hp]⟩
  obtain done | ⟨m, hm, hc⟩ := reach
  · exact done
  · exact (fair.of_coming hc).mono hm

/-- Wherever a Run is owed, one does its `fetch_and` or the task resolves. -/
theorem FairRun.of_owed (fair : FairRun e) {n : Nat} (hb : Bound (e.state n))
    (h : Owed (e.state n)) : e.Occurs Act.settles n := by
  obtain hq | hr | ⟨u, hu⟩ := h
  · exact fair.of_coming (.inl hq)
  · exact fair.of_coming (.inr hr)
  · exact fair.of_heading ⟨hb, hu⟩

/-- Where a wake finds the cell spawned, the next settling step is a `fetch_and`, or the
store of the completion comes first. -/
theorem FairRun.after_wake (fair : FairRun e) {n : Nat} {u : τ}
    (hs : isSpawned (e.state n).word = true) (hn : e.label n = some (.wake u)) :
    (∃ m > n, e.label m = some .fetchAnd) ∨
      ∃ m > n, e.label m = some .store ∧ ∀ k, n < k → k < m → e.label k ≠ some .fetchAnd := by
  have inv := wakeInv_at (e := e) n
  obtain ⟨hb, hw⟩ := wake_bothBits inv hs (Execution.next_of_label hn)
  obtain ⟨m, hm, ⟨a, ha, hset⟩, least⟩ := (fair.of_owed hb (hb.inv.owed hw)).first
  have hcase : a = .fetchAnd ∨ a = .store := by
    cases a <;> first | exact .inl rfl | exact .inr rfl | exact hset.elim
  obtain rfl | rfl := hcase
  · exact .inl ⟨m, hm, ha⟩
  · refine .inr ⟨m, hm, ha, fun k hk hlt hl => ?_⟩
    exact least k hk hlt _ hl trivial

/-- From the `fetch_and` of a poll on, the cell stays spawned until that task resolves. -/
theorem spawned_until {i n : Nat} (hin : i < n) (hi : e.label i = some .fetchAnd)
    (hs : isSpawned (e.state i).word = true) :
    isSpawned (e.state n).word = true ∨ ∃ m, i < m ∧ m < n ∧ e.label m = some .store := by
  have hr : (e.state i).runner = .fetchAnd := by
    have next := Execution.next_of_label hi
    simp only [step, Option.ite_none_right_eq_some] at next
    exact next.1
  have hb : Bound (e.state i) :=
    ⟨wakeInv_at i, (wakeInv_at i).alloc.handle_of_run (.inl (by simp [hr]))⟩
  have keep (s : State τ) (a : Act τ) (t : State τ) (h : Bound s ∧ isSpawned s.word = true)
      (ha : ¬ a = .store) (next : step s a = some t) : Bound t ∧ isSpawned t.word = true :=
    ⟨bound_step h.1 next, spawned_step h.1 h.2 ha next⟩
  obtain ⟨_, hw⟩ | ⟨m, hm, hmn, a, ha, rfl⟩ :=
    Execution.holds_until _ (· = Act.store) ⟨hb, hs⟩ keep n hin.le
  · exact .inl hw
  · have hne : i ≠ m := by
      rintro rfl
      rw [hi] at ha
      cases ha
    exact .inr ⟨m, by omega, hmn, ha⟩

end Fair

/-- A spawned word with RUN_QUEUED always has its Run owed; no step after a wake loses it;
and in a fair execution a wake that comes after the `fetch_and` of a poll is followed by
the `fetch_and` of a further Run, unless the task resolves first. -/
theorem no_lost_wake :
    (∀ (as : List (Act τ)) (s : State τ), Run step Free init as s → BothBits s → Owed s) ∧
    (∀ (as bs : List (Act τ)) (s t t' : State τ) (u : τ), Run step Free init as s →
      isSpawned s.word = true → step s (.wake u) = some t →
      Run step (fun _ a => ¬ a.settles) t bs t' → Owed t') ∧
    ∀ e : Execution step (init : State τ), FairRun e → ∀ (i n : Nat) (u : τ), i < n →
      e.label i = some .fetchAnd → isSpawned (e.state i).word = true →
      e.label n = some (.wake u) →
      (∃ m > n, e.label m = some .fetchAnd) ∨
        ∃ m > i, e.label m = some .store ∧ ∀ k, n < k → k < m → e.label k ≠ some .fetchAnd := by
  refine ⟨fun as s run hb => (wakeInv_run run).owed hb,
    fun as bs s t t' u run hs next rest => owed_after_wake (wakeInv_run run) hs next rest, ?_⟩
  intro e fair i n u hin hi hs hn
  obtain hw | ⟨m, him, hmn, hm⟩ := spawned_until hin hi hs
  · obtain hf | ⟨m, hm, hst, least⟩ := fair.after_wake hw hn
    · exact .inl hf
    · exact .inr ⟨m, lt_trans hin hm, hst, least⟩
  · exact .inr ⟨m, him, hm, fun k hk hlt => absurd hlt (by omega)⟩

/-- A poll that returns Pending, a wake, and the Run that completes the future. -/
def wokenOnce : List (Act Unit) :=
  [.spawn (), .write () 0, .loadHandle () 0, .wiNew () 0 (some 0), .storeHandle () 0,
    .spawnSchedule () 0 false, .pop, .fetchAnd, .poll, .pending, .wake (), .wakeLoad (),
    .wakeSchedule () 0 false, .pop, .fetchAnd, .poll, .ready, .drop, .store]

theorem woken_task_runs_again :
    (∃ s t : State Unit, step s (.wake ()) = some t ∧ BothBits t ∧ Owed t ∧
      ∃ t', step t (.wakeLoad ()) = some t' ∧ Owed t') ∧
    ∃ e : Execution step (init : State Unit), FairRun e ∧ e.label 10 = some (.wake ()) ∧
      ((∃ m > 10, e.label m = some .fetchAnd) ∨
        ∃ m > 7, e.label m = some .store ∧
          ∀ k, 10 < k → k < m → e.label k ≠ some .fetchAnd) := by
  constructor
  · obtain ⟨s, run, hs⟩ := exists_run step Free init (wokenOnce.take 10)
      (fun s => isSpawned s.word ∧ ¬ isQueued s.word ∧ s.pc () = .idle ∧ s.cloned ∧
        s.handle = some 0) rfl
    simp only [decide_eq_true_eq] at hs
    obtain ⟨hw, hq, hu, hc, hh⟩ := hs
    obtain ⟨t, next⟩ : ∃ t, step s (.wake ()) = some t := by simp [step, hu, hc]
    obtain ⟨t', next'⟩ : ∃ t', step t (.wakeLoad ()) = some t' := by
      simp only [step, hu, hc, and_self, if_true, Option.some.injEq] at next
      subst next
      simp [step, hw, hq, hh]
    have hb := (wake_bothBits (wakeInv_run run) hw next).2
    have rest : Run step (fun _ a => ¬ a.settles) t [.wakeLoad ()] t' :=
      Run.nil.snoc id next'
    exact ⟨s, t, next, hb, no_lost_wake.1 _ t (run.snoc trivial next) hb, t', next',
      no_lost_wake.2.1 _ _ s t t' () run hw next rest⟩
  · have fair : FairRun (Execution.ofLabels step (init : State Unit) wokenOnce rfl) :=
      ⟨fun _ => Execution.fair_ofLabels (fun h => h rfl),
        Execution.fair_ofLabels fun h => h.elim (fun h => h rfl) (Nat.lt_irrefl 0)⟩
    exact ⟨_, fair, rfl, no_lost_wake.2.2 _ fair 7 10 () (by decide) rfl rfl rfl⟩

end Px4Rs.TaskCell
