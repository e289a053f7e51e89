import Px4Rs.Runtime

/-! The tasks of the runtime together with their futures. The operations of a poll come
between the `poll` of its cell and the result, and a waker that is invoked begins a wake;
the threads, the dispatcher and whatever wakes the tasks interleave in any other way. -/
namespace Px4Rs.Futures
open Px4Rs.Runs Px4Rs.TaskCell
variable {ι τ σ ο : Type*} [DecidableEq ι] [DecidableEq τ]

/- `enter` calls a task's `poll` with that task's waker, `step` is any later operation of the
   futures and of what they wait for, and `invoked` the task whose waker it invokes. `ended`
   tells whether the last poll of a task returned Ready, or `none` while it goes on. -/
structure Machine (ι σ ο : Type*) where
  enter : σ → ι → Option σ
  step : σ → ο → Option σ
  invoked : σ → ο → Option ι
  ended : σ → ι → Option Bool

structure State (ι τ σ : Type*) where
  rt : Runtime.State ι τ
  fut : σ

def start (d : σ) : State ι τ σ := ⟨Runtime.init, d⟩

/- `runtime` is an operation of a cell on its own, also a wake by anybody who holds a Waker
   besides; an operation of the futures names the thread that makes it. -/
inductive Act (ι τ ο : Type*) where
  | runtime (i : ι) (a : TaskCell.Act τ)
  | poll (i : ι)
  | future (x : ο) (u : τ)

/-- A Run goes on with the result of its poll. -/
def Machine.Allows (m : Machine ι σ ο) (d : σ) (i : ι) : TaskCell.Act τ → Prop
  | .poll => False
  | .pending => m.ended d i = some false
  | .ready => m.ended d i = some true
  | .spawn _ | .write _ _ | .loadHandle _ _ | .wiNew _ _ _ | .rollbackDrop _ _ | .rollbackStore _
  | .storeHandle _ _ | .spawnSchedule _ _ _ | .wake _ | .wakeLoad _ | .wakeSchedule _ _ _ | .pop
  | .fetchAnd | .drop | .store => True

instance (m : Machine ι σ ο) (d : σ) (i : ι) (a : TaskCell.Act τ) : Decidable (m.Allows d i a) :=
  match a with
  | .poll => .isFalse id
  | .pending => inferInstanceAs (Decidable (m.ended d i = some false))
  | .ready => inferInstanceAs (Decidable (m.ended d i = some true))
  | .spawn _ | .write _ _ | .loadHandle _ _ | .wiNew _ _ _ | .rollbackDrop _ _ | .rollbackStore _
  | .storeHandle _ _ | .spawnSchedule _ _ _ | .wake _ | .wakeLoad _ | .wakeSchedule _ _ _ | .pop
  | .fetchAnd | .drop | .store => .isTrue trivial

def step (m : Machine ι σ ο) (s : State ι τ σ) : Act ι τ ο → Option (State ι τ σ)
  | .runtime i a =>
    if m.Allows s.fut i a then (Runtime.step s.rt (i, a)).map fun rt => ⟨rt, s.fut⟩ else none
  | .poll i =>
    (Runtime.step s.rt (i, .poll)).bind fun rt => (m.enter s.fut i).map fun fut => ⟨rt, fut⟩
  | .future x u =>
    (m.step s.fut x).bind fun fut =>
      match m.invoked s.fut x with
      | none => some ⟨s.rt, fut⟩
      | some i => (Runtime.step s.rt (i, .wake u)).map fun rt => ⟨rt, fut⟩

inductive Steps (m : Machine ι σ ο) (s : State ι τ σ) : Act ι τ ο → State ι τ σ → Prop
  | runtime {i a rt} (allows : m.Allows s.fut i a) (op : Runtime.step s.rt (i, a) = some rt) :
    Steps m s (.runtime i a) ⟨rt, s.fut⟩
  | poll {i rt fut} (op : Runtime.step s.rt (i, .poll) = some rt)
      (enters : m.enter s.fut i = some fut) : Steps m s (.poll i) ⟨rt, fut⟩
  | quiet {x u fut} (moves : m.step s.fut x = some fut) (nobody : m.invoked s.fut x = none) :
    Steps m s (.future x u) ⟨s.rt, fut⟩
  | wake {x u i rt fut} (moves : m.step s.fut x = some fut) (invokes : m.invoked s.fut x = some i)
      (op : Runtime.step s.rt (i, .wake u) = some rt) : Steps m s (.future x u) ⟨rt, fut⟩

variable {m : Machine ι σ ο} {s t : State ι τ σ} {a : Act ι τ ο} {d e : σ} {i j : ι}

theorem steps_of_step (next : step m s a = some t) : Steps m s a t := by
  cases a with
  | runtime i a =>
    simp only [step, Option.ite_none_right_eq_some, Option.map_eq_some_iff] at next
    obtain ⟨allows, rt, op, rfl⟩ := next
    exact .runtime allows op
  | poll i =>
    simp only [step, Option.bind_eq_some_iff, Option.map_eq_some_iff] at next
    obtain ⟨rt, op, fut, enters, rfl⟩ := next
    exact .poll op enters
  | future x u =>
    simp only [step, Option.bind_eq_some_iff] at next
    obtain ⟨fut, moves, next⟩ := next
    split at next
    · cases next
      exact .quiet moves ‹_›
    · simp only [Option.map_eq_some_iff] at next
      obtain ⟨rt, op, rfl⟩ := next
      exact .wake moves ‹_› op

theorem exists_runtime_run {P : State ι τ σ → Act ι τ ο → Prop} {as : List (Act ι τ ο)}
    (run : Run (step m) P (start d) as s) :
    ∃ ls, Run Runtime.step Free (Runtime.init : Runtime.State ι τ) ls s.rt := by
  induction run with
  | nil => exact ⟨[], .nil⟩
  | snoc _ _ next ih =>
    obtain ⟨ls, before⟩ := ih
    cases steps_of_step next with
    | runtime _ op | poll op | wake _ _ op => exact ⟨_, before.snoc trivial op⟩
    | quiet => exact ⟨ls, before⟩

/-! The rule: futures that promise to wake their tasks never leave one asleep. -/

/- What the futures owe the runtime. `I` is their own invariant, kept by the operations that
   `G` allows. A poll begins with a `promised`, which lasts until the waker is invoked, and
   nobody changes what a poll has returned. -/
structure Contract (m : Machine ι σ ο) (G : σ → ο → Prop) (I : σ → Prop)
    (promised : σ → ι → Prop) : Prop where
  enters : ∀ d e i, I d → m.enter d i = some e → I e ∧ promised e i
  others : ∀ d e i j, m.enter d i = some e → j ≠ i →
    (promised d j → promised e j) ∧ m.ended e j = m.ended d j
  final : ∀ d e i, m.enter d i = some e → m.ended d i = some true → m.ended e i = some true
  moves : ∀ d e x, I d → G d x → m.step d x = some e → I e
  keeps : ∀ d e x i, I d → G d x → m.step d x = some e → promised d i →
    promised e i ∨ m.invoked d x = some i
  stays : ∀ d e x i, m.step d x = some e → m.ended d i ≠ none → m.ended e i = m.ended d i

/- One cell and its future: while the task is spawned it is queued, or a Run has more to do
   than its poll, or the wake is promised. -/
structure Kept (c : TaskCell.State τ) (promised : Prop) (ended : Option Bool) : Prop where
  live : isSpawned c.word = true → isQueued c.word = true ∨ c.runner = .poll ∨
    c.runner = .drop ∨ c.runner = .store ∨ promised ∧ (c.runner = .polling ∨ ended = some false)
  ends : c.runner = .drop ∨ c.runner = .store → ended = some true
  ended : c.handle ≠ none → isSpawned c.word = true ∨ ended = some true

variable {c c' : TaskCell.State τ} {p q : Prop} {r r' : Option Bool} {b : TaskCell.Act τ}

omit [DecidableEq τ] in
theorem Kept.congr (h : Kept c p r) (word : c'.word = c.word) (runner : c'.runner = c.runner)
    (handle : c'.handle = c.handle) : Kept c' p r := by
  constructor
  · rw [word, runner]
    exact h.live
  · rw [runner]
    exact h.ends
  · rw [word, handle]
    exact h.ended

omit [DecidableEq τ] in
theorem Kept.mono (h : Kept c p r) (promised : p → q) (same : r ≠ none → r' = r) :
    Kept c q r' := by
  have keep {x : Bool} (hr : r = some x) : r' = some x := by
    rw [same (by simp [hr]), hr]
  exact ⟨fun live => (h.live live).imp_right <| Or.imp_right <| Or.imp_right <| Or.imp_right <|
    And.imp promised (Or.imp_right keep), fun runs => keep (h.ends runs),
    fun stored => (h.ended stored).imp_right keep⟩

theorem Kept.step (h : Kept c p r) (alloc : AllocInv c) (more : b ≠ .poll)
    (pending : b = .pending → r = some false) (ready : b = .ready → r = some true)
    (next : TaskCell.step c b = some c') : Kept c' p r := by
  cases TaskCell.steps_of_step next with
  | poll => exact absurd rfl more
  | busy | write | loadNull | loadHandle | refused | allocated | rollbackDrop | spawnSchedule
  | wakeNull | wakeLoad | wakeSchedule => exact h.congr rfl rfl rfl
  | spawn => exact ⟨fun _ => .inl (by simp), h.ends, fun _ => .inl (by simp)⟩
  | @rollbackStore u hu =>
    have null := alloc.alloc u (by rw [hu]; rfl)
    exact ⟨by simp, h.ends, fun stored => absurd null stored⟩
  | @storeHandle u _ hu =>
    have null := alloc.alloc u (by rw [hu]; rfl)
    refine ⟨h.live, h.ends, fun _ => .inl ?_⟩
    by_contra free
    have idle := alloc.free null (by simpa using free) u
    rw [hu] at idle
    cases idle
  | wake => exact ⟨fun _ => .inl (by simp), h.ends, by simpa using h.ended⟩
  | pop idle => exact ⟨by simpa [idle] using h.live, by simp, h.ended⟩
  | fetchAnd runs =>
    refine ⟨fun live => ?_, fun ends => ?_, by simpa using h.ended⟩
    · simp only [isSpawned_and_not_runQueued] at live
      simp [live]
    · simp only at ends
      split at ends <;> simp at ends
  | pending runs =>
    refine ⟨fun live => ?_, by simp, h.ended⟩
    have before := h.live live
    simp only [runs, reduceCtorEq, false_or, true_or, and_true] at before
    exact before.imp_right fun promised => .inr (.inr (.inr ⟨promised, .inr (pending rfl)⟩))
  | ready | readyUndefined =>
    exact ⟨fun _ => .inr (.inr (.inl rfl)), fun _ => ready rfl, h.ended⟩
  | drop runs =>
    exact ⟨fun _ => .inr (.inr (.inr (.inl rfl))), fun _ => h.ends (.inl runs), h.ended⟩
  | store runs => exact ⟨by simp, by simp, fun _ => .inr (h.ends (.inr runs))⟩

theorem Kept.poll (h : Kept c p r) (promised : q) (final : r = some true → r' = some true)
    (next : TaskCell.step c .poll = some c') : Kept c' q r' := by
  cases TaskCell.steps_of_step next with
  | poll =>
    exact ⟨fun _ => .inr (.inr (.inr (.inr ⟨promised, .inl rfl⟩))), by simp,
      fun stored => (h.ended stored).imp_right final⟩

theorem isQueued_of_wake {u : τ} (next : TaskCell.step c (.wake u) = some c') :
    isQueued c'.word = true := by
  cases TaskCell.steps_of_step next with
  | wake => simp

structure Held (m : Machine ι σ ο) (I : σ → Prop) (promised : σ → ι → Prop)
    (s : State ι τ σ) : Prop where
  rt : Runtime.Inv s.rt
  wakes : ∀ i, WakeInv (s.rt.cell i)
  fut : I s.fut
  kept : ∀ i, Kept (s.rt.cell i) (promised s.fut i) (m.ended s.fut i)

variable {G : σ → ο → Prop} {I : σ → Prop} {promised : σ → ι → Prop}

theorem wakes_step {x y : Runtime.State ι τ} (h : ∀ i, WakeInv (x.cell i))
    (op : Runtime.step x (j, b) = some y) (i : ι) : WakeInv (y.cell i) := by
  obtain ⟨next, frame⟩ := Runtime.cell_step op
  by_cases hi : i = j
  · subst hi
    exact wakeInv_step (h i) next
  · rw [frame i hi]
    exact h i

omit [DecidableEq τ] in
theorem held_start (inv : I d) : Held m I promised (start d : State ι τ σ) := by
  refine ⟨Runtime.inv_init, fun _ => wakeInv_init, inv, fun i => ?_⟩
  constructor <;> simp [start, Runtime.init, TaskCell.init]

theorem Held.step (h : Held m I promised s) (k : Contract m G I promised)
    (guard : ∀ x u, a = .future x u → G s.fut x) (next : step m s a = some t) :
    Held m I promised t := by
  cases steps_of_step next with
  | @runtime j b rt allows op =>
    refine ⟨Runtime.inv_step h.rt op, wakes_step h.wakes op, h.fut, fun i => ?_⟩
    obtain ⟨cell, frame⟩ := Runtime.cell_step op
    by_cases hi : i = j
    · subst hi
      refine (h.kept i).step (h.wakes i).alloc ?_ ?_ ?_ cell
      · rintro rfl
        exact allows
      · rintro rfl
        exact allows
      · rintro rfl
        exact allows
    · rw [frame i hi]
      exact h.kept i
  | @poll j rt fut op enters =>
    obtain ⟨inv, promise⟩ := k.enters _ _ j h.fut enters
    refine ⟨Runtime.inv_step h.rt op, wakes_step h.wakes op, inv, fun i => ?_⟩
    obtain ⟨cell, frame⟩ := Runtime.cell_step op
    by_cases hi : i = j
    · subst hi
      exact (h.kept i).poll promise (k.final _ _ i enters) cell
    · obtain ⟨kept, same⟩ := k.others _ _ j i enters hi
      rw [frame i hi]
      exact (h.kept i).mono kept fun _ => same
  | @quiet x u fut moves nobody =>
    have allowed := guard x u rfl
    refine ⟨h.rt, h.wakes, k.moves _ _ x h.fut allowed moves, fun i => ?_⟩
    refine (h.kept i).mono (fun promise => ?_) (k.stays _ _ x i moves)
    have := k.keeps _ _ x i h.fut allowed moves promise
    simpa [nobody] using this
  | @wake x u j rt fut moves invokes op =>
    have allowed := guard x u rfl
    refine ⟨Runtime.inv_step h.rt op, wakes_step h.wakes op, k.moves _ _ x h.fut allowed moves,
      fun i => ?_⟩
    obtain ⟨cell, frame⟩ := Runtime.cell_step op
    by_cases hi : i = j
    · -- the wake leaves RUN_QUEUED, whatever becomes of the promise
      subst hi
      have woken := (h.kept i).step (h.wakes i).alloc (by simp) (by simp) (by simp) cell
      have kept := woken.mono (q := True) (fun _ => trivial) (k.stays _ _ x i moves)
      exact ⟨fun _ => .inl (isQueued_of_wake cell), kept.ends, kept.ended⟩
    · rw [frame i hi]
      refine (h.kept i).mono (fun promise => ?_) (k.stays _ _ x i moves)
      have := k.keeps _ _ x i h.fut allowed moves promise
      simpa [invokes, Ne.symm hi] using this

theorem Contract.held {P : State ι τ σ → Act ι τ ο → Prop} {as : List (Act ι τ ο)}
    (k : Contract m G I promised) (inv : I d)
    (guard : ∀ s x u, P s (.future x u) → G s.fut x) (run : Run (Futures.step m) P (start d) as s) :
    Held m I promised s :=
  run.invariant (held_start inv) fun s _ _ h hp next =>
    h.step k (fun x u ha => guard s x u (ha ▸ hp)) next

/-- Nothing of the runtime is under way at the cell of a task. -/
structure Quiet (rt : Runtime.State ι τ) (i : ι) : Prop where
  calls : ∀ u, (rt.cell i).pc u = .idle
  outside : rt.running ≠ some i
  empty : i ∉ rt.fifo

omit [DecidableEq τ] in
/-- Where nothing of the runtime is under way a task that has its work item has ended, or it is
spawned, its last poll returned Pending and somebody is still to invoke its waker. -/
theorem Held.quiet (h : Held m I promised s) (quiet : Quiet s.rt i)
    (stored : (s.rt.cell i).handle ≠ none) :
    (isSpawned (s.rt.cell i).word = false ∧ m.ended s.fut i = some true) ∨
      isSpawned (s.rt.cell i).word = true ∧ m.ended s.fut i = some false ∧ promised s.fut i := by
  have kept := h.kept i
  have idle : (s.rt.cell i).runner = .idle := by
    by_contra runs
    exact quiet.outside ((h.rt.running i).mp runs)
  by_cases live : isSpawned (s.rt.cell i).word = true
  · have asleep : isQueued (s.rt.cell i).word ≠ true := by
      intro queued
      obtain entry | runs | ⟨u, busy⟩ := (h.wakes i).owed ⟨live, queued⟩
      · exact quiet.empty (h.rt.mem_iff.mpr entry)
      · rw [idle] at runs
        cases runs
      · rw [quiet.calls u] at busy
        cases busy
    have := kept.live live
    simp only [asleep, idle, reduceCtorEq, false_or] at this
    exact .inr ⟨live, this.symm⟩
  · exact .inl ⟨by simpa using live, (kept.ended stored).resolve_left live⟩

end Px4Rs.Futures
