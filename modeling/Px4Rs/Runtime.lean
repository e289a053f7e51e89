import Px4Rs.TaskCellEntries

/-! All the cells of a program under one WorkQueue thread. The thread receives the work
items in the order they were scheduled and finishes each Run before it receives the next,
while any number of threads spawn and wake. -/
namespace Px4Rs.Runtime
open Px4Rs.Runs Function
variable {ι τ : Type*} [DecidableEq ι] [DecidableEq τ]

/- `fifo` holds the work items sent to the dispatcher and not received yet, `running` the
   one whose `run` callback it is inside. -/
structure State (ι τ : Type*) where
  cell : ι → TaskCell.State τ
  fifo : List ι
  running : Option ι

def init : State ι τ := ⟨fun _ => TaskCell.init, [], none⟩

def step (s : State ι τ) : ι × TaskCell.Act τ → Option (State ι τ)
  | (i, a) =>
    (TaskCell.step (s.cell i) a).bind fun c =>
      let cell := update s.cell i c
      match a with
      | .spawnSchedule _ _ coalesce | .wakeSchedule _ _ coalesce =>
        some ⟨cell, if coalesce ∧ i ∈ s.fifo then s.fifo else s.fifo ++ [i], s.running⟩
      | .pop =>
        if s.running = none ∧ s.fifo.head? = some i then some ⟨cell, s.fifo.tail, some i⟩
        else none
      -- the callback returns once its Run has no operation left
      | .fetchAnd | .poll | .pending | .ready | .drop | .store =>
        some ⟨cell, s.fifo, if c.runner = .idle then none else s.running⟩
      | _ => some ⟨cell, s.fifo, s.running⟩

inductive Steps (s : State ι τ) (i : ι) : TaskCell.Act τ → State ι τ → Prop
  | schedule {a c} {b : Bool} (sched : a.schedules = some b)
      (op : TaskCell.step (s.cell i) a = some c) :
    Steps s i a
      ⟨update s.cell i c, if b ∧ i ∈ s.fifo then s.fifo else s.fifo ++ [i], s.running⟩
  | pop {c rest} (free : s.running = none) (first : s.fifo = i :: rest)
      (op : TaskCell.step (s.cell i) .pop = some c) :
    Steps s i .pop ⟨update s.cell i c, rest, some i⟩
  | run {a c} (own : a.thread = none) (more : a ≠ .pop)
      (op : TaskCell.step (s.cell i) a = some c) :
    Steps s i a ⟨update s.cell i c, s.fifo, if c.runner = .idle then none else s.running⟩
  | inside {a c} (thread : a.thread ≠ none) (quiet : a.schedules = none)
      (op : TaskCell.step (s.cell i) a = some c) :
    Steps s i a ⟨update s.cell i c, s.fifo, s.running⟩

variable {s t : State ι τ} {i j : ι} {a : TaskCell.Act τ}

theorem steps_of_step (next : step s (i, a) = some t) : Steps s i a t := by
  simp only [step, Option.bind_eq_some_iff] at next
  obtain ⟨c, op, next⟩ := next
  cases a with
  | spawnSchedule | wakeSchedule =>
    cases next
    exact .schedule rfl op
  | pop =>
    simp only [Option.ite_none_right_eq_some, Option.some.injEq, List.head?_eq_some_iff] at next
    obtain ⟨⟨free, rest, first⟩, rfl⟩ := next
    rw [first]
    exact .pop free first op
  | fetchAnd | poll | pending | ready | drop | store =>
    cases next
    exact .run rfl (by simp) op
  | spawn | write | loadHandle | wiNew | rollbackDrop | rollbackStore | storeHandle | wake
  | wakeLoad =>
    cases next
    exact .inside (by simp [TaskCell.Act.thread]) rfl op

theorem step_of_steps (h : Steps s i a t) : step s (i, a) = some t := by
  cases h with
  | schedule sched op =>
    cases a <;> simp only [TaskCell.Act.schedules, reduceCtorEq] at sched <;>
      simp_all [step]
  | pop free first op => simp [step, op, free, first]
  | run own more op => cases a <;> simp_all [step, TaskCell.Act.thread]
  | inside thread quiet op =>
    cases a <;> simp_all [step, TaskCell.Act.thread, TaskCell.Act.schedules]

theorem cell_step (next : step s (i, a) = some t) :
    TaskCell.step (s.cell i) a = some (t.cell i) ∧ ∀ j ≠ i, t.cell j = s.cell j := by
  cases steps_of_step next with
  | schedule _ op | pop _ _ op | run _ _ op | inside _ _ op =>
    exact ⟨by simpa using op, fun j hj => update_of_ne hj _ _⟩

/-- What a label says to the cell `i`. -/
def part (i : ι) (x : ι × TaskCell.Act τ) : Option (TaskCell.Act τ) :=
  if x.1 = i then some x.2 else none

omit [DecidableEq τ] in
@[simp] theorem part_self : part i (i, a) = some a := if_pos rfl

omit [DecidableEq τ] in
theorem part_eq_some {x : ι × TaskCell.Act τ} : part i x = some a ↔ x = (i, a) := by
  obtain ⟨j, b⟩ := x
  simp only [part, Option.ite_none_right_eq_some, Option.some.injEq, Prod.mk.injEq]

/-- Every cell of the program runs as it would alone. -/
theorem run_cell {P : State ι τ → ι × TaskCell.Act τ → Prop} {s₀ : State ι τ}
    {as : List (ι × TaskCell.Act τ)} (h : Run step P s₀ as s) (i : ι) :
    Run TaskCell.step Free (s₀.cell i) (as.filterMap (part i)) (s.cell i) := by
  induction h with
  | nil => exact .nil
  | @snoc as x s t _ _ next ih =>
    obtain ⟨j, a⟩ := x
    obtain ⟨op, frame⟩ := cell_step next
    rw [List.filterMap_append]
    by_cases hj : j = i
    · subst hj
      simpa using ih.snoc trivial op
    · simpa [part, hj, frame i (Ne.symm hj)] using ih

/- The queue of the dispatcher holds each item as often as its cell counts it, and the
   cell inside a Run is the one the dispatcher is inside. -/
structure Inv (s : State ι τ) : Prop where
  queued : ∀ i, (s.cell i).queued = s.fifo.count i
  running : ∀ i, (s.cell i).runner ≠ .idle ↔ s.running = some i

omit [DecidableEq τ] in
theorem inv_init : Inv (init : State ι τ) :=
  ⟨fun _ => rfl, fun _ => by simp [init, TaskCell.init]⟩

omit [DecidableEq τ] in
theorem Inv.mem_iff (h : Inv s) : i ∈ s.fifo ↔ 0 < (s.cell i).queued := by
  rw [h.queued, List.count_pos_iff]

omit [DecidableEq τ] in
theorem forall_update {p : ι → TaskCell.State τ → Prop} {c : TaskCell.State τ} (hi : p i c)
    (others : ∀ j ≠ i, p j (s.cell j)) (j : ι) : p j (update s.cell i c j) := by
  by_cases hj : j = i
  · subst hj
    rwa [update_self]
  · rw [update_of_ne hj]
    exact others j hj

theorem inv_step (h : Inv s) (next : step s (i, a) = some t) : Inv t := by
  cases steps_of_step next with
  | @schedule _ c b sched op =>
    have hq := TaskCell.schedule_step sched op
    have hr := TaskCell.runner_of_thread (TaskCell.thread_of_schedules sched) op
    constructor
    · apply forall_update (p := fun j c => c.queued = List.count j _)
      · simp only [hq, ← h.mem_iff]
        split <;> simp [h.queued]
      · intro j hj
        split <;> simp [h.queued, List.count_append, Ne.symm hj]
    · apply forall_update (p := fun j c => c.runner ≠ .idle ↔ s.running = some j)
      · rw [hr]
        exact h.running i
      · exact fun j _ => h.running j
  | @pop c rest free first op =>
    obtain ⟨_, _, hr, hq⟩ := TaskCell.pop_step op
    constructor
    · apply forall_update (p := fun j c => c.queued = List.count j rest)
      · rw [hq, h.queued, first]
        simp
      · intro j hj
        rw [h.queued, first]
        simp [Ne.symm hj]
    · apply forall_update (p := fun j c => c.runner ≠ .idle ↔ some i = some j)
      · simp [hr]
      · intro j hj
        rw [h.running, free]
        simp [Ne.symm hj]
  | @run _ c own more op =>
    have hin : s.running = some i := (h.running i).mp (TaskCell.left_step own more op).1
    have sched : a.schedules = none := by
      by_contra hs
      obtain ⟨b, hb⟩ := Option.ne_none_iff_exists'.mp hs
      exact TaskCell.thread_of_schedules hb own
    constructor
    · apply forall_update (p := fun j c => c.queued = List.count j s.fifo)
      · rw [TaskCell.queued_step sched more op, h.queued]
      · exact fun j _ => h.queued j
    · apply forall_update
        (p := fun j d => d.runner ≠ .idle ↔ (if c.runner = .idle then none else s.running) = some j)
      · split <;> simp [*]
      · intro j hj
        rw [h.running, hin]
        split <;> simp [Ne.symm hj]
  | @inside _ c thread quiet op =>
    have more : a ≠ .pop := by
      rintro rfl
      exact thread rfl
    constructor
    · apply forall_update (p := fun j c => c.queued = List.count j s.fifo)
      · rw [TaskCell.queued_step quiet more op, h.queued]
      · exact fun j _ => h.queued j
    · apply forall_update (p := fun j c => c.runner ≠ .idle ↔ s.running = some j)
      · rw [TaskCell.runner_of_thread thread op]
        exact h.running i
      · exact fun j _ => h.running j

theorem inv_run {P : State ι τ → ι × TaskCell.Act τ → Prop} {as : List (ι × TaskCell.Act τ)}
    (h : Run step P init as s) : Inv s :=
  h.invariant inv_init fun _ _ _ hs _ => inv_step hs

/-! A work item waits its turn: what is scheduled later is received later. -/

def received (as : List (ι × TaskCell.Act τ)) : List ι :=
  as.filterMap fun x => if x.2 = .pop then some x.1 else none

/-- The items that will be received before the first entry of `i`. -/
def ahead (i : ι) (l : List ι) : List ι := l.takeWhile (· ≠ i)

theorem ahead_append {l : List ι} (h : i ∈ l) (l' : List ι) :
    ahead i (l ++ l') = ahead i l := by
  induction l with
  | nil => cases h
  | cons j l ih =>
    by_cases hj : j = i
    · simp [ahead, hj]
    · have hl : i ∈ l := by simpa [Ne.symm hj] using h
      simpa [ahead, hj] using ih hl

theorem ahead_cons {l : List ι} (hj : j ≠ i) : ahead i (j :: l) = j :: ahead i l := by
  simp [ahead, hj]

/-- A step that is no pop leaves what is ahead of a queued item. -/
theorem ahead_step (next : step s (j, a) = some t) (hi : i ∈ s.fifo) (more : a ≠ .pop) :
    i ∈ t.fifo ∧ ahead i t.fifo = ahead i s.fifo := by
  cases steps_of_step next with
  | schedule =>
    simp only
    split
    · exact ⟨hi, rfl⟩
    · exact ⟨List.mem_append_left _ hi, ahead_append hi _⟩
  | pop => exact absurd rfl more
  | run | inside => exact ⟨hi, rfl⟩

theorem ahead_pop (next : step s (j, .pop) = some t) (hi : i ∈ s.fifo) (hj : j ≠ i) :
    i ∈ t.fifo ∧ ahead i s.fifo = j :: ahead i t.fifo := by
  cases steps_of_step next with
  | pop free first =>
    rw [first] at hi
    refine ⟨by simpa [Ne.symm hj] using hi, ?_⟩
    rw [first, ahead_cons hj]
  | schedule sched => cases sched
  | run _ more => exact absurd rfl more
  | inside thread => exact absurd rfl thread

/-- Until an item is received itself, what is received is what was ahead of it. -/
theorem received_run {P : State ι τ → ι × TaskCell.Act τ → Prop}
    {bs : List (ι × TaskCell.Act τ)} (h : Run step P s bs t) (hi : i ∈ s.fifo)
    (waits : (i, .pop) ∉ bs) : i ∈ t.fifo ∧ ahead i s.fifo = received bs ++ ahead i t.fifo := by
  induction h with
  | nil => exact ⟨hi, rfl⟩
  | @snoc bs x t u _ _ next ih =>
    obtain ⟨j, a⟩ := x
    simp only [List.mem_append, List.mem_singleton, not_or] at waits
    obtain ⟨queued, order⟩ := ih waits.1
    by_cases ha : a = .pop
    · subst ha
      have hj : j ≠ i := by
        rintro rfl
        exact waits.2 rfl
      obtain ⟨queued', first⟩ := ahead_pop next queued hj
      exact ⟨queued', by simp [order, first, received]⟩
    · obtain ⟨queued', same⟩ := ahead_step next queued ha
      exact ⟨queued', by simp [order, same, received, ha]⟩

/-- While a scheduled item waits to be received, the dispatcher receives just what was
ahead of it, in order, and so each item at most as often as its cell had accepted futures
by then: once for a task spawned once, however often it wakes itself. -/
theorem waiting_item_is_not_starved {as bs : List (ι × TaskCell.Act τ)}
    (run : Run step Free init as s) (rest : Run step Free s bs t) (hi : i ∈ s.fifo)
    (waits : (i, .pop) ∉ bs) :
    received bs <+: s.fifo.takeWhile (· ≠ i) ∧
      ∀ j, (received bs).count j ≤ (s.cell j).accepted := by
  obtain ⟨_, order⟩ := received_run rest hi waits
  have front : received bs <+: s.fifo.takeWhile (· ≠ i) := ⟨_, order.symm⟩
  refine ⟨front, fun j => ?_⟩
  have part : (received bs).Sublist s.fifo :=
    front.sublist.trans (List.takeWhile_sublist _)
  calc (received bs).count j ≤ s.fifo.count j := part.count_le j
    _ = (s.cell j).queued := ((inv_run run).queued j).symm
    _ ≤ (s.cell j).accepted := TaskCell.queued_le_accepted (run_cell run j)

/-- A first spawn that allocates, up to its `wi_schedule_now`. -/
def spawnOnce (i : ι) : List (ι × TaskCell.Act Unit) :=
  [(i, .spawn ()), (i, .write () 0), (i, .loadHandle () 0), (i, .wiNew () 0 (some 0)),
    (i, .storeHandle () 0), (i, .spawnSchedule () 0 false)]

def yieldOnce (i : ι) : List (ι × TaskCell.Act Unit) :=
  [(i, .pop), (i, .fetchAnd), (i, .poll), (i, .wake ()), (i, .wakeLoad ()),
    (i, .wakeSchedule () 0 false), (i, .pending)]

def finishOnce (i : ι) : List (ι × TaskCell.Act Unit) :=
  [(i, .pop), (i, .fetchAnd), (i, .poll), (i, .ready), (i, .drop), (i, .store)]

theorem yielding_task_goes_behind :
    ∃ s t : State Bool Unit, true ∈ s.fifo ∧ received (yieldOnce false) <+: [false] ∧
      (received (yieldOnce false)).count false ≤ (s.cell false).accepted ∧
      t.fifo = [true, false] := by
  obtain ⟨s, run, hs⟩ := exists_run step Free (init : State Bool Unit)
    (spawnOnce false ++ spawnOnce true) (fun s => s.fifo = [false, true]) rfl
  obtain ⟨t, run', ht⟩ := exists_run step Free (init : State Bool Unit)
    (spawnOnce false ++ spawnOnce true ++ yieldOnce false) (fun s => s.fifo = [true, false]) rfl
  simp only [decide_eq_true_eq] at hs ht
  obtain ⟨s', first, rest⟩ := run'.split
  obtain rfl := first.det run
  obtain ⟨front, bound⟩ := waiting_item_is_not_starved (i := true) run rest (by simp [hs])
    (by decide)
  refine ⟨s', t, by simp [hs], ?_, bound false, ht⟩
  rw [hs] at front
  exact front

/-! Fair executions: every call goes on, and the dispatcher keeps receiving and polling.
It is one thread for all cells, so its fairness says nothing of any one of them. -/

structure FairRun (e : Execution step (init : State ι τ)) : Prop where
  threads : ∀ i u, e.Fair (fun s => (s.cell i).pc u ≠ .idle)
    fun x => x.1 = i ∧ x.2.thread = some u
  dispatcher : e.Fair (fun s => s.running ≠ none ∨ s.fifo ≠ []) fun x => x.2.thread = none

def State.left (s : State ι τ) : Nat := s.running.elim 0 fun i => (s.cell i).runner.left

theorem left_of_thread (next : step s (j, a) = some t) (thread : a.thread ≠ none) :
    t.running = s.running ∧ t.left = s.left := by
  have same : t.running = s.running := by
    cases steps_of_step next with
    | schedule | inside => rfl
    | pop => exact absurd rfl thread
    | run own => exact absurd own thread
  obtain ⟨op, frame⟩ := cell_step next
  refine ⟨same, ?_⟩
  simp only [State.left, same]
  cases s.running with
  | none => rfl
  | some k =>
    by_cases hk : k = j
    · subst hk
      simp [TaskCell.runner_of_thread thread op]
    · simp [frame k hk]

theorem left_of_run (h : Inv s) (next : step s (j, a) = some t) (own : a.thread = none)
    (more : a ≠ .pop) : s.running = some j ∧ t.left < s.left := by
  cases steps_of_step next with
  | schedule sched => exact absurd own (TaskCell.thread_of_schedules sched)
  | pop => exact absurd rfl more
  | inside thread => exact absurd own thread
  | @run _ c _ _ op =>
    obtain ⟨inside, less⟩ := TaskCell.left_step own more op
    have hj : s.running = some j := (h.running j).mp inside
    refine ⟨hj, ?_⟩
    simp only [State.left, hj]
    split
    · simp only [Option.elim_none, Option.elim_some]
      omega
    · simpa using less

theorem left_of_pop (next : step s (j, .pop) = some t) :
    s.running = none ∧ t.running = some j ∧ t.left = 5 := by
  obtain ⟨op, _⟩ := cell_step next
  obtain ⟨_, _, runner, _⟩ := TaskCell.pop_step op
  cases steps_of_step next with
  | pop free first => exact ⟨free, rfl, congrArg TaskCell.Runner.left runner⟩
  | schedule sched => cases sched
  | run _ more => exact absurd rfl more
  | inside thread => exact absurd rfl thread

theorem runner_of_other {x : ι × TaskCell.Act τ} {r : TaskCell.Runner}
    (hs : (s.cell i).runner = r) (other : ¬ (x.1 = i ∧ x.2.thread = none))
    (next : step s x = some t) : (t.cell i).runner = r := by
  obtain ⟨op, frame⟩ := cell_step next
  by_cases hi : x.1 = i
  · subst hi
    have thread : x.2.thread ≠ none := fun h => other ⟨rfl, h⟩
    rw [TaskCell.runner_of_thread thread op, hs]
  · rw [frame i (Ne.symm hi), hs]

section Fair
variable {e : Execution step (init : State ι τ)} {n : Nat}

theorem inv_at (e : Execution step (init : State ι τ)) (n : Nat) : Inv (e.state n) :=
  Execution.invariant inv_init (fun _ _ _ => inv_step) n

/-- A scheduled item is received: the dispatcher's operations ahead of it only get fewer. -/
theorem FairRun.received (fair : FairRun e) (hi : i ∈ (e.state n).fifo) :
    e.Occurs (· = (i, .pop)) n := by
  have reach : e.Occurs (· = (i, .pop)) n ∨ ∃ m ≥ n, False := by
    refine Execution.leads_to fair.dispatcher (· = (i, .pop)) (fun s => Inv s ∧ i ∈ s.fifo)
      (fun _ => False) (fun s => 6 * (ahead i s.fifo).length + s.left) ?_ ?_ ?_
      ⟨inv_at e n, hi⟩
    · intro s ⟨_, hi⟩
      exact .inr (List.ne_nil_of_mem hi)
    · intro s x t ⟨inv, hi⟩ next own other
      obtain ⟨j, a⟩ := x
      have inv' := inv_step inv next
      by_cases ha : a = .pop
      · subst ha
        have hj : j ≠ i := by
          rintro rfl
          exact other rfl
        obtain ⟨hi', first⟩ := ahead_pop next hi hj
        obtain ⟨free, _, left⟩ := left_of_pop next
        refine .inl ⟨⟨inv', hi'⟩, ?_⟩
        simp only [first, left, List.length_cons]
        omega
      · obtain ⟨hi', same⟩ := ahead_step next hi ha
        obtain ⟨_, less⟩ := left_of_run inv next own ha
        refine .inl ⟨⟨inv', hi'⟩, ?_⟩
        simp only [same]
        omega
    · intro s x t ⟨inv, hi⟩ next thread _
      obtain ⟨j, a⟩ := x
      have more : a ≠ .pop := by
        rintro rfl
        exact thread rfl
      obtain ⟨hi', same⟩ := ahead_step next hi more
      obtain ⟨_, left⟩ := left_of_thread next thread
      exact .inl ⟨⟨inv_step inv next, hi'⟩, by rw [same, left]⟩
  exact reach.resolve_right (by simp)

/-- The cell the dispatcher is inside gets the dispatcher's next operation. -/
theorem FairRun.inside (fair : FairRun e) (hi : (e.state n).running = some i) :
    e.Occurs (fun x => x.1 = i ∧ x.2.thread = none) n := by
  have reach : e.Occurs (fun x => x.1 = i ∧ x.2.thread = none) n ∨ ∃ m ≥ n, False := by
    refine Execution.leads_to fair.dispatcher (fun x => x.1 = i ∧ x.2.thread = none)
      (fun s => Inv s ∧ s.running = some i) (fun _ => False) (fun _ => 0) ?_ ?_ ?_
      ⟨inv_at e n, hi⟩
    · intro s ⟨_, hi⟩
      exact .inl (by simp [hi])
    · intro s x t ⟨inv, hi⟩ next own other
      obtain ⟨j, a⟩ := x
      by_cases ha : a = .pop
      · subst ha
        rw [(left_of_pop next).1] at hi
        cases hi
      · obtain ⟨hj, _⟩ := left_of_run inv next own ha
        rw [hi] at hj
        cases hj
        exact absurd ⟨rfl, own⟩ other
    · intro s x t ⟨inv, hi⟩ next thread _
      obtain ⟨j, a⟩ := x
      exact .inl ⟨⟨inv_step inv next, by rw [(left_of_thread next thread).1, hi]⟩, le_rfl⟩
  exact reach.resolve_right (by simp)

/-- What one cell sees of an execution of the program. -/
def cellExecution (e : Execution step (init : State ι τ)) (i : ι) :
    Execution TaskCell.step (TaskCell.init : TaskCell.State τ) where
  state n := (e.state n).cell i
  label n := (e.label n).bind (part i)
  start := by rw [e.start]; rfl
  next n := by
    cases hx : e.label n with
    | none => simp [Execution.stays_of_label hx]
    | some x =>
      obtain ⟨j, a⟩ := x
      obtain ⟨op, frame⟩ := cell_step (Execution.next_of_label hx)
      by_cases hj : j = i
      · subst hj
        simpa using op
      · simp [part, hj, frame i (Ne.symm hj)]

theorem cellExecution_label {b : TaskCell.Act τ} :
    (cellExecution e i).label n = some b ↔ e.label n = some (i, b) := by
  simp [cellExecution, Option.bind_eq_some_iff, part_eq_some]

/-- One fair dispatcher for all is fair to every cell. -/
theorem FairRun.cell (fair : FairRun e) (i : ι) : TaskCell.FairRun (cellExecution e i) := by
  constructor
  · intro u n busy
    obtain ⟨m, hm, x, hx, rfl, thread⟩ := fair.threads i u n busy
    exact ⟨m, hm, x.2, cellExecution_label.mpr hx, thread⟩
  · intro n working
    have own : e.Occurs (fun x => x.1 = i ∧ x.2.thread = none) n := by
      have inv := inv_at e n
      obtain hr | hq := working n le_rfl
      · exact fair.inside ((inv.running i).mp hr)
      · obtain ⟨m, hm, x, hx, rfl⟩ := fair.received (inv.mem_iff.mpr hq)
        exact ⟨m, hm, _, hx, rfl, rfl⟩
    obtain ⟨m, hm, x, hx, rfl, thread⟩ := own
    exact ⟨m, hm, x.2, cellExecution_label.mpr hx, thread⟩

/-- With one dispatcher for all cells, every scheduled item is received and does the
`fetch_and` of its Run, and a wake that finds its task spawned is followed by the `fetch_and`
of a Run of that task, or by the store of its completion before it. -/
theorem every_wake_of_the_program_runs (fair : FairRun e) (i : ι) (n : Nat) :
    (i ∈ (e.state n).fifo → ∃ m ≥ n, e.label m = some (i, .pop) ∧
      ∃ k > m, e.label k = some (i, .fetchAnd)) ∧
    ∀ u, TaskCell.isSpawned ((e.state n).cell i).word = true → e.label n = some (i, .wake u) →
      (∃ m > n, e.label m = some (i, .fetchAnd)) ∨
        ∃ m > n, e.label m = some (i, .store) ∧
          ∀ k, n < k → k < m → e.label k ≠ some (i, .fetchAnd) := by
  constructor
  · intro hi
    obtain ⟨m, hm, _, hx, rfl⟩ := fair.received hi
    have next := Execution.next_of_label hx
    have runner := (TaskCell.pop_step (cell_step next).1).2.2.1
    have running : (e.state (m + 1)).running = some i := (left_of_pop next).2.1
    refine ⟨m, hm, hx, ?_⟩
    -- the first operation of the dispatcher in this cell is the `fetch_and`
    obtain ⟨k, hk, ⟨y, hy, rfl, own⟩, before⟩ := (fair.inside running).first
    have next := Execution.next_of_label hy
    obtain still | ⟨l, hl, hlt, z, hz, hgoal⟩ :=
      Execution.holds_until (fun s : State ι τ => (s.cell y.1).runner = .fetchAnd)
        (fun x => x.1 = y.1 ∧ x.2.thread = none) runner
        (fun _ _ _ hs other next => runner_of_other hs other next) k hk
    · have := TaskCell.eq_fetchAnd still own (cell_step next).1
      exact ⟨k, by omega, by rw [hy, ← this]⟩
    · exact absurd hgoal (before l hl hlt z hz)
  · intro u hs hn
    have label (m : Nat) (b : TaskCell.Act τ) := cellExecution_label (e := e) (i := i) (n := m)
      (b := b)
    simpa only [ne_eq, label] using (fair.cell i).after_wake (u := u) hs ((label n _).mpr hn)

end Fair

/-- A task that yields once beside another one, until both have completed. -/
def yieldAndFinish : List (Bool × TaskCell.Act Unit) :=
  spawnOnce false ++ spawnOnce true ++ yieldOnce false ++ finishOnce true ++ finishOnce false

theorem yielding_task_is_run_again :
    ∃ e : Execution step (init : State Bool Unit), FairRun e ∧
      (∃ m ≥ 12, e.label m = some (false, .pop) ∧ ∃ k > m, e.label k = some (false, .fetchAnd)) ∧
      ((∃ m > 15, e.label m = some (false, .fetchAnd)) ∨
        ∃ m > 15, e.label m = some (false, .store) ∧
          ∀ k, 15 < k → k < m → e.label k ≠ some (false, .fetchAnd)) := by
  have runs : (exec step Free (init : State Bool Unit) yieldAndFinish).isSome = true := by
    decide +kernel
  have rest (i : Bool) (u : Unit) :
      ((along step init yieldAndFinish yieldAndFinish.length).cell i).pc u = .idle := by
    revert i u
    decide +kernel
  have free : (along step init yieldAndFinish yieldAndFinish.length).running = none := by
    decide +kernel
  have done : (along step init yieldAndFinish yieldAndFinish.length).fifo = [] := by
    decide +kernel
  have queued : false ∈ (along step init yieldAndFinish 12).fifo := by decide +kernel
  have spawned : TaskCell.isSpawned ((along step init yieldAndFinish 15).cell false).word =
      true := by decide +kernel
  have fair : FairRun (Execution.ofLabels step (init : State Bool Unit) yieldAndFinish runs) :=
    ⟨fun i u => Execution.fair_ofLabels fun busy => busy (rest i u),
      Execution.fair_ofLabels fun busy => busy.elim (fun h => h free) fun h => h done⟩
  exact ⟨_, fair, (every_wake_of_the_program_runs fair false 12).1 queued,
    (every_wake_of_the_program_runs fair false 15).2 () spawned rfl⟩

end Px4Rs.Runtime
