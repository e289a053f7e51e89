import Px4Rs.Runtime

/-! The runtime seen from the futures: one Run after another, each a whole poll that may
wake tasks, and spawns between them. Every run of it is a run of the runtime, operation by
operation. -/
namespace Px4Rs.Executor
open Px4Rs.Runs Px4Rs.Runtime Px4Rs.TaskCell Function
variable {ι σ τ : Type*} [DecidableEq ι] [DecidableEq τ]

/-- What a poll leaves: the data the tasks share, the tasks whose wakers it invoked, in
order, and whether it returned Ready. -/
structure Polled (σ ι : Type*) where
  data : σ
  woken : List ι
  ready : Bool

/- `polls` is history: the tasks in the order of their polls. -/
structure State (ι σ : Type*) where
  data : σ
  word : ι → Word
  fifo : List ι
  accepted : ι → Nat
  polls : List ι

def init (d : σ) : State ι σ := ⟨d, fun _ => 0#8, [], fun _ => 0, []⟩

inductive Act (ι : Type*) where
  | spawn (i : ι)
  | run
deriving DecidableEq

def State.spawn (s : State ι σ) (i : ι) : State ι σ :=
  if s.word i = 0#8 then
    { s with
      word := update s.word i (spawned ||| runQueued)
      fifo := s.fifo ++ [i]
      accepted := update s.accepted i (s.accepted i + 1) }
  else s

def State.wake (s : State ι σ) (i : ι) : State ι σ :=
  { s with
    word := update s.word i (s.word i ||| runQueued)
    fifo := if isSpawned (s.word i) ∧ ¬ isQueued (s.word i) then s.fifo ++ [i] else s.fifo }

/-- The Run of a task that is still spawned: what the poll does, then what its result
does to the cell. -/
def State.poll (s : State ι σ) (i : ι) (p : Polled σ ι) : State ι σ :=
  let s := p.woken.foldl State.wake { s with data := p.data, polls := s.polls ++ [i] }
  if p.ready then { s with word := update s.word i 0#8 } else s

def step (poll : ι → σ → Polled σ ι) (s : State ι σ) : Act ι → Option (State ι σ)
  | .spawn i => some (s.spawn i)
  | .run =>
    match s.fifo with
    | [] => none
    | i :: rest =>
      let popped := { s with fifo := rest, word := update s.word i (s.word i &&& ~~~runQueued) }
      some (if isSpawned (s.word i) then popped.poll i (poll i s.data) else popped)

/-- A poll invokes wakers of tasks that have been polled: nobody else has a Waker. -/
def Given (poll : ι → σ → Polled σ ι) (s : State ι σ) : Act ι → Prop
  | .spawn _ => True
  | .run => ∀ i ∈ s.fifo.head?, ∀ j ∈ (poll i s.data).woken, j = i ∨ j ∈ s.polls

instance (poll : ι → σ → Polled σ ι) (s : State ι σ) (a : Act ι) : Decidable (Given poll s a) :=
  match a with
  | .spawn _ => inferInstanceAs (Decidable True)
  | .run => inferInstanceAs
    (Decidable (∀ i ∈ s.fifo.head?, ∀ j ∈ (poll i s.data).woken, j = i ∨ j ∈ s.polls))

/-! One cell between two calls, and what the calls do to it. -/

structure Calm (c : TaskCell.State τ) (w : Word) (n : Nat) (given : Prop) : Prop where
  word : c.word = w
  accepted : c.accepted = n
  idle : ∀ t, c.pc t = .idle
  cloned : given → c.cloned = true
  handle : isSpawned w = true → c.handle ≠ none
  slot : isSpawned w = true → c.slot = .live (n - 1)

def Within (a : TaskCell.Act τ) : Prop := a.thread ≠ none ∧ a.schedules = none

variable {c : TaskCell.State τ} {w : Word} {n : Nat} {g : Prop}

theorem single {a : TaskCell.Act τ} {d : TaskCell.State τ} (op : TaskCell.step c a = some d) :
    Run TaskCell.step Free c [a] d :=
  Run.nil.snoc trivial op

omit [DecidableEq τ] in
theorem Calm.more (h : Calm c w n g) {g' : Prop} (given : g' → g) : Calm c w n g' :=
  ⟨h.word, h.accepted, h.idle, fun hg => h.cloned (given hg), h.handle, h.slot⟩

theorem Calm.spawn (h : Calm c 0#8 n g) (t : τ) : ∃ as c' hd c'', (∀ a ∈ as, Within a) ∧
    Run TaskCell.step Free c as c' ∧ TaskCell.step c' (.spawnSchedule t hd false) = some c'' ∧
    Calm c'' (spawned ||| runQueued) (n + 1) g ∧ c''.runner = c.runner := by
  have taken := single (step_of_steps (.spawn (h.idle t) h.word))
  have written := taken.snoc trivial (step_of_steps (.write (t := t) (f := c.accepted) (by simp)))
  cases handle : c.handle with
  | none =>
    have loaded := written.snoc trivial
      (step_of_steps (.loadNull (t := t) (f := c.accepted) (by simp) handle))
    have allocated := loaded.snoc trivial
      (step_of_steps (.allocated (t := t) (f := c.accepted) (h := 0) (by simp)))
    have stored := allocated.snoc trivial (step_of_steps (.storeHandle (t := t) (h := 0) (by simp)))
    refine ⟨_, _, 0, _, ?_, stored,
      step_of_steps (.spawnSchedule (t := t) (by simp)), ?_, rfl⟩
    · simp [Within, Act.thread, Act.schedules]
    · refine ⟨rfl, by simp [h.accepted], ?_, h.cloned, by simp, by simp [h.accepted]⟩
      intro u
      by_cases hu : u = t
      · simp [hu]
      · simp [update_of_ne hu, h.idle]
  | some hd =>
    have loaded := written.snoc trivial
      (step_of_steps (.loadHandle (t := t) (f := c.accepted) (by simp) handle))
    refine ⟨_, _, hd, _, ?_, loaded,
      step_of_steps (.spawnSchedule (t := t) (by simp)), ?_, rfl⟩
    · simp [Within, Act.thread, Act.schedules]
    · refine ⟨rfl, by simp [h.accepted], ?_, h.cloned, by simp [handle], by simp [h.accepted]⟩
      intro u
      by_cases hu : u = t
      · simp [hu]
      · simp [update_of_ne hu, h.idle]

theorem Calm.wake (h : Calm c w n g) (given : g) (hw : isSpawned w ∧ ¬ isQueued w) (t : τ) :
    ∃ as c' hd c'', (∀ a ∈ as, Within a) ∧ Run TaskCell.step Free c as c' ∧
      TaskCell.step c' (.wakeSchedule t hd false) = some c'' ∧
      Calm c'' (w ||| runQueued) n g ∧ c''.runner = c.runner := by
  obtain ⟨hd, handle⟩ := Option.ne_none_iff_exists'.mp (h.handle hw.1)
  have woken := single (step_of_steps (.wake (h.idle t) (h.cloned given)))
  rw [if_pos (h.word ▸ hw)] at woken
  have loaded := woken.snoc trivial (step_of_steps (.wakeLoad (t := t) (by simp) handle))
  refine ⟨_, _, hd, _, ?_, loaded, step_of_steps (.wakeSchedule (t := t) (by simp)), ?_, rfl⟩
  · simp [Within, Act.thread, Act.schedules]
  · refine ⟨by simp [h.word], h.accepted, ?_, h.cloned, by simp [handle], fun _ => h.slot hw.1⟩
    intro u
    by_cases hu : u = t
    · simp [hu]
    · simp [update_of_ne hu, h.idle]

theorem Calm.wake_quiet (h : Calm c w n g) (given : g) (hw : ¬ (isSpawned w ∧ ¬ isQueued w))
    (t : τ) : ∃ c', TaskCell.step c (.wake t) = some c' ∧ Calm c' (w ||| runQueued) n g ∧
      c'.runner = c.runner := by
  refine ⟨_, step_of_steps (.wake (h.idle t) (h.cloned given)), ?_, rfl⟩
  rw [if_neg (h.word ▸ hw)]
  refine ⟨by simp [h.word], h.accepted, ?_, h.cloned, fun hs => h.handle (by simpa using hs),
    fun hs => h.slot (by simpa using hs)⟩
  intro u
  by_cases hu : u = t
  · simp [hu]
  · simp [update_of_ne hu, h.idle]

theorem Calm.ready (h : Calm c w n g) (hw : isSpawned w = true) (runs : c.runner = .polling) :
    ∃ c', Run TaskCell.step Free c [.ready, .drop, .store] c' ∧ Calm c' 0#8 n g ∧
      c'.runner = .idle := by
  have live := h.slot hw
  have ready := single (step_of_steps (.ready runs live))
  have dropped := ready.snoc trivial (step_of_steps (.drop rfl))
  refine ⟨_, dropped.snoc trivial (step_of_steps (.store rfl)), ?_, rfl⟩
  exact ⟨rfl, h.accepted, h.idle, h.cloned, by simp, by simp⟩

/-! The runtime between two operations of the executor. -/

/- `r` is the task whose poll is under way, if one is. -/
structure Matches (s : Runtime.State ι τ) (x : State ι σ) (r : Option ι) : Prop where
  inv : Runtime.Inv s
  cell : ∀ i, Calm (s.cell i) (x.word i) (x.accepted i) (i ∈ x.polls)
  fifo : s.fifo = x.fifo
  running : s.running = r
  runner : ∀ i, r = some i → (s.cell i).runner = .polling

variable {s t : Runtime.State ι τ} {x y : State ι σ} {i : ι} {r : Option ι}

def polls (as : List (ι × TaskCell.Act τ)) : List ι :=
  as.filterMap fun a => if a.2 = .poll then some a.1 else none

theorem run_within {as : List (TaskCell.Act τ)} (within : ∀ a ∈ as, Within a)
    (run : Run TaskCell.step Free (s.cell i) as c) :
    Run Runtime.step Free s (as.map (i, ·)) ⟨update s.cell i c, s.fifo, s.running⟩ := by
  generalize hc : s.cell i = c₀ at run
  induction run with
  | nil => simpa [← hc] using Run.nil
  | @snoc as a c d _ _ next ih =>
    have before := ih fun b hb => within b (List.mem_append_left _ hb)
    obtain ⟨thread, quiet⟩ := within a (by simp)
    rw [List.map_append]
    refine before.snoc trivial (Runtime.step_of_steps ?_)
    have := Runtime.Steps.inside (s := ⟨update s.cell i c, s.fifo, s.running⟩) (i := i)
      thread quiet (by simpa using next)
    simpa using this

theorem inv_of_run {as : List (ι × TaskCell.Act τ)} (inv : Runtime.Inv s)
    (run : Run Runtime.step Free s as t) : Runtime.Inv t :=
  run.invariant inv fun _ _ _ hs _ => Runtime.inv_step hs

omit [DecidableEq ι] [DecidableEq τ] in
theorem Matches.put [DecidableEq ι] (h : Matches s x r) {q : Option ι} (inv : Runtime.Inv t)
    (others : ∀ j ≠ i, t.cell j = s.cell j)
    (calm : Calm (t.cell i) (y.word i) (y.accepted i) (i ∈ y.polls))
    (word : ∀ j ≠ i, y.word j = x.word j) (accepted : ∀ j ≠ i, y.accepted j = x.accepted j)
    (polls : ∀ j ≠ i, j ∈ y.polls → j ∈ x.polls) (fifo : t.fifo = y.fifo)
    (running : t.running = q) (runner : ∀ j, q = some j → (t.cell j).runner = .polling) :
    Matches t y q := by
  refine ⟨inv, fun j => ?_, fifo, running, runner⟩
  by_cases hj : j = i
  · subst hj
    exact calm
  · rw [others j hj, word j hj, accepted j hj]
    exact (h.cell j).more (polls j hj)

omit [DecidableEq τ] in
theorem update_runner {p : Runner} (hc : c.runner = (s.cell i).runner)
    (h : ∀ j, r = some j → (s.cell j).runner = p) (j : ι) (hj : r = some j) :
    (update s.cell i c j).runner = p := by
  by_cases hji : j = i
  · subst hji
    rw [update_self, hc, h j hj]
  · rw [update_of_ne hji, h j hj]

omit [DecidableEq ι] in
theorem polls_map {as : List (TaskCell.Act τ)} (h : ∀ a ∈ as, a ≠ .poll) :
    polls (as.map (i, ·)) = [] := by
  simpa [polls] using h

omit [DecidableEq τ] in
theorem Within.ne_poll {a : TaskCell.Act τ} (h : Within a) : a ≠ .poll := by
  rintro rfl
  exact h.1 rfl

theorem Matches.run_schedule (h : Matches s x r) {as : List (TaskCell.Act τ)}
    {a : TaskCell.Act τ} {d : TaskCell.State τ} (within : ∀ b ∈ as, Within b)
    (run : Run TaskCell.step Free (s.cell i) as c) (sched : a.schedules = some false)
    (op : TaskCell.step c a = some d) (runner : d.runner = (s.cell i).runner)
    (calm : Calm d (y.word i) (y.accepted i) (i ∈ y.polls))
    (word : ∀ j ≠ i, y.word j = x.word j) (accepted : ∀ j ≠ i, y.accepted j = x.accepted j)
    (same : y.polls = x.polls) (fifo : y.fifo = x.fifo ++ [i]) :
    ∃ ls t, Run Runtime.step Free s ls t ∧ polls ls = [] ∧ Matches t y r := by
  have inside := run_within within run
  have scheduled := Runtime.Steps.schedule (s := ⟨update s.cell i c, s.fifo, s.running⟩) (i := i)
    sched (by simpa using op)
  have all := inside.snoc trivial (Runtime.step_of_steps scheduled)
  refine ⟨_, _, all, ?_, ?_⟩
  · have : a ≠ .poll := by
      rintro rfl
      cases sched
    rw [polls, List.filterMap_append, ← polls, polls_map fun b hb => (within b hb).ne_poll]
    simp [this]
  · refine h.put (i := i) (inv_of_run h.inv all) ?_ (by simpa using calm) word accepted
      (fun j _ hj => same ▸ hj) (by simp [fifo, h.fifo]) h.running ?_
    · exact fun j hj => by simp [update_of_ne hj]
    · intro j hj
      simp only [update_idem]
      exact update_runner runner h.runner j hj

theorem Matches.spawn (h : Matches s x r) (i : ι) (u : τ) :
    ∃ ls t, Run Runtime.step Free s ls t ∧ polls ls = [] ∧ Matches t (x.spawn i) r := by
  have calm := h.cell i
  by_cases free : x.word i = 0#8
  · rw [free] at calm
    obtain ⟨as, c', hd, c'', within, run, op, calm', runner⟩ := calm.spawn u
    apply h.run_schedule within run rfl op runner
    · simpa [State.spawn, free] using calm'
    · exact fun j hj => by simp [State.spawn, free, update_of_ne hj]
    · exact fun j hj => by simp [State.spawn, free, update_of_ne hj]
    · simp [State.spawn, free]
    · simp [State.spawn, free]
  · -- Busy: the word and everything it answers for stay
    have busy : TaskCell.step (s.cell i) (.spawn u) = some ((s.cell i).finish u (.error .busy)) :=
      step_of_steps (.busy (calm.idle u) (calm.word ▸ free))
    have within : ∀ a ∈ [TaskCell.Act.spawn u], Within a := by
      simp [Within, Act.thread, Act.schedules]
    have run := run_within within (single busy)
    refine ⟨_, _, run, polls_map (by simp), ?_⟩
    rw [State.spawn, if_neg free]
    refine h.put (i := i) (inv_of_run h.inv run) (fun j hj => update_of_ne hj _ _) ?_
      (fun _ _ => rfl) (fun _ _ => rfl) (fun _ _ => id) h.fifo h.running
      (update_runner rfl h.runner)
    simp only [update_self]
    refine ⟨calm.word, calm.accepted, fun v => ?_, calm.cloned, calm.handle, calm.slot⟩
    by_cases hv : v = u
    · simp [hv]
    · simp [update_of_ne hv, calm.idle]

theorem Matches.wake (h : Matches s x r) (given : i ∈ x.polls) (u : τ) :
    ∃ ls t, Run Runtime.step Free s ls t ∧ polls ls = [] ∧ Matches t (x.wake i) r := by
  by_cases alone : isSpawned (x.word i) ∧ ¬ isQueued (x.word i)
  · obtain ⟨as, c', hd, c'', within, run, op, calm', runner⟩ := (h.cell i).wake given alone u
    apply h.run_schedule within run rfl op runner
    · simpa [State.wake] using calm'
    · exact fun j hj => by simp [State.wake, update_of_ne hj]
    · exact fun _ _ => rfl
    · rfl
    · simp [State.wake, alone]
  · obtain ⟨c', op, calm', runner⟩ := (h.cell i).wake_quiet given alone u
    have within : ∀ a ∈ [TaskCell.Act.wake u], Within a := by
      simp [Within, Act.thread, Act.schedules]
    have run := run_within within (single op)
    refine ⟨_, _, run, polls_map (by simp), ?_⟩
    refine h.put (i := i) (inv_of_run h.inv run) (fun j hj => update_of_ne hj _ _) ?_ ?_
      (fun _ _ => rfl) (fun _ _ => id) ?_ h.running (update_runner runner h.runner)
    · simpa [State.wake] using calm'
    · exact fun j hj => by simp [State.wake, update_of_ne hj]
    · rw [State.wake, if_neg alone]
      exact h.fifo

omit [DecidableEq ι] in
theorem polls_append (as bs : List (ι × TaskCell.Act τ)) :
    polls (as ++ bs) = polls as ++ polls bs :=
  List.filterMap_append

@[simp] theorem wake_polls (x : State ι σ) (i : ι) : (x.wake i).polls = x.polls := rfl

theorem Matches.wakes (h : Matches s x r) {js : List ι} (given : ∀ j ∈ js, j ∈ x.polls) (u : τ) :
    ∃ ls t, Run Runtime.step Free s ls t ∧ polls ls = [] ∧
      Matches t (js.foldl State.wake x) r := by
  induction js generalizing s x with
  | nil => exact ⟨[], s, .nil, rfl, h⟩
  | cons j js ih =>
    obtain ⟨ls, t, run, quiet, woken⟩ := h.wake (given j (by simp)) u
    obtain ⟨ls', t', run', quiet', all⟩ := ih woken fun k hk => given k (by simp [hk])
    exact ⟨_, t', run.append run', by rw [polls_append, quiet, quiet', List.append_nil], all⟩

theorem run_own {as : List (TaskCell.Act τ)} (own : ∀ a ∈ as, a.thread = none ∧ a ≠ .pop)
    (busy : (s.cell i).runner ≠ .idle) (run : Run TaskCell.step Free (s.cell i) as c) :
    Run Runtime.step Free s (as.map (i, ·))
      ⟨update s.cell i c, s.fifo, if c.runner = .idle then none else s.running⟩ := by
  generalize hc : s.cell i = c₀ at run
  induction run with
  | nil =>
    subst hc
    rw [update_eq_self, if_neg busy]
    exact .nil
  | @snoc as a c d _ _ next ih =>
    have before := ih fun b hb => own b (List.mem_append_left _ hb)
    obtain ⟨thread, more⟩ := own a (by simp)
    have still := (left_step thread more next).1
    rw [if_neg still] at before
    rw [List.map_append]
    refine before.snoc trivial (Runtime.step_of_steps ?_)
    have := Runtime.Steps.run (s := ⟨update s.cell i c, s.fifo, s.running⟩) (i := i)
      thread more (by simpa using next)
    simpa using this

theorem Matches.pop (h : Matches s x none) {rest : List ι} (first : x.fifo = i :: rest) :
    ∃ t, Run Runtime.step Free s [(i, .pop)] t ∧ t.fifo = rest ∧ t.running = some i ∧
      (∀ j ≠ i, t.cell j = s.cell j) ∧ (t.cell i).runner = .fetchAnd ∧
      Calm (t.cell i) (x.word i) (x.accepted i) (i ∈ x.polls) := by
  have idle : (s.cell i).runner = .idle := by
    by_contra hr
    have := (h.inv.running i).mp hr
    rw [h.running] at this
    cases this
  have queued : 0 < (s.cell i).queued := by
    rw [← h.inv.mem_iff, h.fifo, first]
    exact List.mem_cons_self
  have op := step_of_steps (.pop idle queued)
  have next := Runtime.step_of_steps (.pop h.running (h.fifo.trans first) op)
  have calm := h.cell i
  refine ⟨_, Run.nil.snoc trivial next, rfl, rfl, fun j hj => update_of_ne hj _ _, ?_, ?_⟩
  · simp
  · simp only [update_self]
    exact ⟨calm.word, calm.accepted, calm.idle, calm.cloned, calm.handle, calm.slot⟩

theorem Matches.stale (h : Matches s x none) {rest : List ι} (first : x.fifo = i :: rest)
    (gone : ¬ isSpawned (x.word i)) : ∃ ls t, Run Runtime.step Free s ls t ∧ polls ls = [] ∧
      Matches t { x with
        fifo := rest, word := update x.word i (x.word i &&& ~~~runQueued) } none := by
  obtain ⟨m, popped, fifo, _, others, runner, calm⟩ := h.pop first
  have op := single (step_of_steps (.fetchAnd runner))
  have run := popped.append (run_own (by simp [Act.thread]) (by simp [runner]) op)
  refine ⟨_, _, run, by simp [polls], ?_⟩
  refine h.put (i := i) (inv_of_run h.inv run) ?_ ?_ ?_ (fun _ _ => rfl)
    (fun _ _ => id) fifo (by simp [calm.word, gone]) (by simp)
  · exact fun j hj => by simp [update_of_ne hj, others j hj]
  · simp only [update_self]
    exact ⟨by simp [calm.word], calm.accepted, calm.idle, calm.cloned,
      fun hs => calm.handle (by simpa using hs), fun hs => calm.slot (by simpa using hs)⟩
  · exact fun j hj => update_of_ne hj _ _

@[simps] def State.enter (x : State ι σ) (i : ι) (rest : List ι) (d : σ) : State ι σ where
  data := d
  word := update x.word i (x.word i &&& ~~~runQueued)
  fifo := rest
  accepted := x.accepted
  polls := x.polls ++ [i]

theorem Matches.enter (h : Matches s x none) {rest : List ι} (first : x.fifo = i :: rest)
    (live : isSpawned (x.word i) = true) (d : σ) :
    ∃ ls t, Run Runtime.step Free s ls t ∧ polls ls = [i] ∧
      Matches t (x.enter i rest d) (some i) := by
  obtain ⟨m, popped, fifo, running, others, runner, calm⟩ := h.pop first
  have cleared := single (step_of_steps (.fetchAnd runner))
  have op := cleared.snoc trivial (step_of_steps (.poll (by simp [calm.word, live])))
  have run := popped.append (run_own (by simp [Act.thread]) (by simp [runner]) op)
  refine ⟨_, _, run, by simp [polls], ?_⟩
  refine h.put (i := i) (inv_of_run h.inv run) ?_ ?_ ?_ (fun _ _ => rfl)
    ?_ fifo (by simp [running]) (by simp)
  · exact fun j hj => by simp [update_of_ne hj, others j hj]
  · simp only [update_self]
    exact ⟨by simp [calm.word], calm.accepted, calm.idle, fun _ => rfl,
      fun hs => calm.handle (by simpa using hs), fun hs => calm.slot (by simpa using hs)⟩
  · exact fun j hj => update_of_ne hj _ _
  · intro j hj hm
    simpa [hj] using hm

theorem Matches.leave (h : Matches s x (some i)) (live : isSpawned (x.word i) = true)
    (ready : Bool) : ∃ ls t, Run Runtime.step Free s ls t ∧ polls ls = [] ∧
      Matches t (if ready then { x with word := update x.word i 0#8 } else x) none := by
  have calm := h.cell i
  have runs := h.runner i rfl
  cases ready with
  | false =>
    have op := single (step_of_steps (.pending runs))
    have run := run_own (by simp [Act.thread]) (by simp [runs]) op
    refine ⟨_, _, run, polls_map (by simp), ?_⟩
    refine h.put (i := i) (inv_of_run h.inv run) (fun j hj => update_of_ne hj _ _) ?_
      (fun _ _ => rfl) (fun _ _ => rfl) (fun _ _ => id) h.fifo rfl (by simp)
    simp only [update_self]
    exact ⟨calm.word, calm.accepted, calm.idle, calm.cloned, calm.handle, calm.slot⟩
  | true =>
    obtain ⟨c, op, calm', idle⟩ := calm.ready live runs
    have run := run_own (by simp [Act.thread]) (by simp [runs]) op
    refine ⟨_, _, run, polls_map (by simp), ?_⟩
    refine h.put (i := i) (inv_of_run h.inv run) (fun j hj => update_of_ne hj _ _)
      (by simpa using calm') ?_ (fun _ _ => rfl) (fun _ _ => id) h.fifo (by simp [idle]) (by simp)
    exact fun j hj => by simp [update_of_ne hj]

theorem isSpawned_wakes (x : State ι σ) (js : List ι) (i : ι) :
    isSpawned ((js.foldl State.wake x).word i) = isSpawned (x.word i) := by
  induction js generalizing x with
  | nil => rfl
  | cons j js ih =>
    rw [List.foldl_cons, ih]
    by_cases hi : i = j
    · simp [State.wake, hi]
    · simp [State.wake, update_of_ne hi]

theorem wakes_polls (x : State ι σ) (js : List ι) :
    (js.foldl State.wake x).polls = x.polls := by
  induction js generalizing x with
  | nil => rfl
  | cons j js ih => rw [List.foldl_cons, ih, wake_polls]

theorem wakes_data (x : State ι σ) (js : List ι) :
    (js.foldl State.wake x).data = x.data := by
  induction js generalizing x with
  | nil => rfl
  | cons j js ih =>
    rw [List.foldl_cons, ih]
    rfl

variable {poll : ι → σ → Polled σ ι}

/-- One step of the executor is some operations of the runtime. -/
theorem Matches.step (h : Matches s x none) {a : Act ι} (given : Given poll x a)
    (next : step poll x a = some y) (u : τ) :
    ∃ ls t, Run Runtime.step Free s ls t ∧ y.polls = x.polls ++ polls ls ∧ Matches t y none := by
  cases a with
  | spawn i =>
    cases next
    obtain ⟨ls, t, run, quiet, after⟩ := h.spawn i u
    refine ⟨ls, t, run, ?_, after⟩
    rw [quiet, List.append_nil, State.spawn]
    split <;> rfl
  | run =>
    cases first : x.fifo with
    | nil => simp [Executor.step, first] at next
    | cons i rest =>
      simp only [Executor.step, first, Option.some.injEq] at next
      by_cases live : isSpawned (x.word i) = true
      · rw [if_pos live] at next
        obtain ⟨ls, m, run, polled, entered⟩ := h.enter first live (poll i x.data).data
        have handed : ∀ j ∈ (poll i x.data).woken, j ∈ x.polls ++ [i] := by
          intro j hj
          obtain rfl | hj := given i (by simp [first]) j hj
          · simp
          · simp [hj]
        obtain ⟨ls₁, m₁, run₁, quiet₁, woken⟩ := entered.wakes handed u
        obtain ⟨ls₂, t, run₂, quiet₂, left⟩ :=
          woken.leave (by rw [isSpawned_wakes]; simpa using live) (poll i x.data).ready
        subst next
        refine ⟨_, t, (run.append run₁).append run₂, ?_, left⟩
        rw [polls_append, polls_append, polled, quiet₁, quiet₂, State.poll]
        split <;> simp [wakes_polls]
      · rw [if_neg live] at next
        obtain ⟨ls, t, run, quiet, after⟩ := h.stale first live
        subst next
        exact ⟨ls, t, run, by simp [quiet], after⟩

theorem data_step (d : σ) (h : x.data = x.polls.foldl (fun d i => (poll i d).data) d)
    {a : Act ι} (next : step poll x a = some y) :
    y.data = y.polls.foldl (fun d i => (poll i d).data) d := by
  cases a with
  | spawn i =>
    cases next
    rw [State.spawn]
    split <;> exact h
  | run =>
    cases first : x.fifo with
    | nil => simp [Executor.step, first] at next
    | cons i rest =>
      simp only [Executor.step, first, Option.some.injEq] at next
      subst next
      split
      · rw [State.poll]
        split <;> simp [wakes_data, wakes_polls, h]
      · exact h

theorem exists_runtime_run (u : τ) (d : σ) {as : List (Act ι)}
    (run : Run (step poll) (Given poll) (init d) as x) :
    ∃ ls s, Run Runtime.step Free (Runtime.init : Runtime.State ι τ) ls s ∧
      polls ls = x.polls ∧ Matches s x none := by
  induction run with
  | nil =>
    refine ⟨[], _, .nil, rfl, Runtime.inv_init, fun i => ?_, rfl, rfl, by simp⟩
    constructor <;> simp [Runtime.init, TaskCell.init, init]
  | snoc _ given next ih =>
    obtain ⟨ls, s, fine, same, m⟩ := ih
    obtain ⟨ls', t, fine', more, m'⟩ := m.step given next u
    exact ⟨_, t, fine.append fine', by rw [polls_append, same, more], m'⟩

/-! A queue without leftovers, and what a Run does to it. -/

/-- A task is in the queue once while it has both bits, and otherwise not at all. -/
def Queued (s : State ι σ) : Prop :=
  ∀ i, s.fifo.count i = if isSpawned (s.word i) ∧ isQueued (s.word i) then 1 else 0

theorem Queued.wake (h : Queued x) (j : ι) : Queued (x.wake j) := by
  intro i
  have hi := h i
  by_cases hij : i = j
  · subst hij
    simp only [State.wake, update_self, isSpawned_or_runQueued, isQueued_or_runQueued]
    by_cases hs : isSpawned (x.word i) = true <;> by_cases hq : isQueued (x.word i) = true <;>
      simp_all
  · simp only [State.wake, update_of_ne hij]
    split
    · simpa [Ne.symm hij] using hi
    · exact hi

theorem Queued.wakes (h : Queued x) (js : List ι) : Queued (js.foldl State.wake x) := by
  induction js generalizing x with
  | nil => exact h
  | cons j js ih => exact ih (h.wake j)

theorem word_wakes {js : List ι} (hi : i ∉ js) (x : State ι σ) :
    (js.foldl State.wake x).word i = x.word i := by
  induction js generalizing x with
  | nil => rfl
  | cons j js ih =>
    simp only [List.mem_cons, not_or] at hi
    rw [List.foldl_cons, ih hi.2]
    exact update_of_ne hi.1 _ _

theorem isQueued_wakes (x : State ι σ) (js : List ι) (i : ι) :
    isQueued ((js.foldl State.wake x).word i) = true ↔ isQueued (x.word i) = true ∨ i ∈ js := by
  induction js generalizing x with
  | nil => simp
  | cons j js ih =>
    rw [List.foldl_cons, ih]
    by_cases hi : i = j
    · simp [State.wake, hi]
    · simp [State.wake, hi]

theorem length_wakes (x : State ι σ) (js : List ι) :
    (js.foldl State.wake x).fifo.length ≤ x.fifo.length + js.length := by
  induction js generalizing x with
  | nil => exact le_rfl
  | cons j js ih =>
    have one : (x.wake j).fifo.length ≤ x.fifo.length + 1 := by
      simp only [State.wake]
      split <;> simp
    have := ih (x.wake j)
    simp only [List.foldl_cons, List.length_cons]
    omega

theorem accepted_wakes (x : State ι σ) (js : List ι) :
    (js.foldl State.wake x).accepted = x.accepted := by
  induction js generalizing x with
  | nil => rfl
  | cons j js ih =>
    rw [List.foldl_cons, ih]
    rfl

theorem fifo_wakes (x : State ι σ) (js : List ι) :
    ∃ more ⊆ js, (js.foldl State.wake x).fifo = x.fifo ++ more := by
  induction js generalizing x with
  | nil => exact ⟨[], List.Subset.refl _, (List.append_nil _).symm⟩
  | cons j js ih =>
    obtain ⟨more, sub, appended⟩ := ih (x.wake j)
    have later := List.subset_cons_of_subset j sub
    rw [List.foldl_cons, appended]
    simp only [State.wake]
    split
    · exact ⟨j :: more, List.cons_subset.mpr ⟨List.mem_cons_self, later⟩, by simp⟩
    · exact ⟨more, later, rfl⟩

/- What a Run leaves that polled the task `i`, by what the poll returned. -/
structure Ran (x : State ι σ) (i : ι) (p : Polled σ ι) (y : State ι σ) : Prop where
  queued : Queued y
  data : y.data = p.data
  accepted : y.accepted = x.accepted
  polls : y.polls = x.polls ++ [i]
  live : isSpawned (y.word i) = !p.ready
  again : isQueued (y.word i) = true ↔ i ∈ p.woken
  spawned : ∀ j ≠ i, isSpawned (y.word j) = isSpawned (x.word j)
  woken : ∀ j ≠ i, isQueued (y.word j) = true ↔ isQueued (x.word j) = true ∨ j ∈ p.woken
  others : ∀ j ≠ i, j ∉ p.woken → y.word j = x.word j
  length : y.fifo.length + 1 ≤ x.fifo.length + p.woken.length
  fifo : ∃ rest, x.fifo = i :: rest ∧
    y.fifo = (p.woken.foldl State.wake (x.enter i rest p.data)).fifo

/-- Where the queue has no leftovers a Run polls its first task, and leaves none unless the
task wakes itself and ends. -/
theorem Queued.run (h : Queued x) (next : step poll x .run = some y)
    (once : ∀ i ∈ x.fifo.head?, (poll i x.data).ready = true → i ∉ (poll i x.data).woken) :
    ∃ i, isSpawned (x.word i) = true ∧ isQueued (x.word i) = true ∧
      Ran x i (poll i x.data) y := by
  cases first : x.fifo with
  | nil => simp [Executor.step, first] at next
  | cons i rest =>
    have both : isSpawned (x.word i) = true ∧ isQueued (x.word i) = true := by
      have := h i
      rw [first, List.count_cons_self] at this
      by_contra hb
      rw [if_neg hb] at this
      omega
    have self := once i (by simp [first])
    refine ⟨i, both.1, both.2, ?_⟩
    simp only [Executor.step, first, both.1, if_true, Option.some.injEq] at next
    subst next
    generalize poll i x.data = p at self
    have entered : Queued (x.enter i rest p.data) := by
      intro j
      have hj := h j
      rw [first] at hj
      by_cases hji : j = i
      · subst hji
        simpa [State.enter, both] using hj
      · simpa [State.enter, update_of_ne hji, Ne.symm hji] using hj
    have woken := entered.wakes p.woken
    have spawned (j : ι) : isSpawned ((p.woken.foldl State.wake (x.enter i rest p.data)).word j) =
        isSpawned (x.word j) := by
      rw [isSpawned_wakes, State.enter_word]
      by_cases hji : j = i
      · simp [hji]
      · rw [update_of_ne hji]
    have again : isQueued ((p.woken.foldl State.wake (x.enter i rest p.data)).word i) = true ↔
        i ∈ p.woken := by
      rw [isQueued_wakes, State.enter_word]
      simp
    have queued (j : ι) (hj : j ≠ i) :
        isQueued ((p.woken.foldl State.wake (x.enter i rest p.data)).word j) = true ↔
          isQueued (x.word j) = true ∨ j ∈ p.woken := by
      rw [isQueued_wakes, State.enter_word, update_of_ne hj]
    have same (j : ι) (hj : j ≠ i) (hm : j ∉ p.woken) :
        (p.woken.foldl State.wake (x.enter i rest p.data)).word j = x.word j := by
      rw [word_wakes hm, State.enter_word, update_of_ne hj]
    have length : (p.woken.foldl State.wake (x.enter i rest p.data)).fifo.length + 1 ≤
        x.fifo.length + p.woken.length := by
      have := length_wakes (x.enter i rest p.data) p.woken
      simp only [State.enter, first, List.length_cons] at this ⊢
      omega
    change Ran x i p (if p.ready then
      { p.woken.foldl State.wake (x.enter i rest p.data) with
        word := update (p.woken.foldl State.wake (x.enter i rest p.data)).word i 0#8 }
      else p.woken.foldl State.wake (x.enter i rest p.data))
    by_cases ready : p.ready = true
    · rw [if_pos ready]
      have gone := self ready
      refine ⟨fun j => ?_, wakes_data _ _, accepted_wakes _ _, wakes_polls _ _,
        by simp [ready], by simp [gone], fun j hj => ?_, fun j hj => ?_, fun j hj hm => ?_,
        length, rest, first, rfl⟩
      · have hj := woken j
        by_cases hji : j = i
        · subst hji
          rw [if_neg fun both => gone (again.mp both.2)] at hj
          simpa using hj
        · simpa [update_of_ne hji] using hj
      · simpa [update_of_ne hj] using spawned j
      · simpa [update_of_ne hj] using queued j hj
      · simpa [update_of_ne hj] using same j hj hm
    · rw [if_neg ready]
      exact ⟨woken, wakes_data _ _, accepted_wakes _ _, wakes_polls _ _,
        by simp [spawned, both, ready], again, fun j _ => spawned j, queued, same, length, rest,
        first, rfl⟩

/-- Every run of the executor is a run of the runtime: with the operations of every spawn,
wake and Run one by one, the same futures are polled in the same order, so that the tasks'
data is the same, and between two Runs the words, the queue and the futures agree. -/
theorem run_is_runtime_run (u : τ) (d : σ) {as : List (Act ι)}
    (run : Run (step poll) (Given poll) (init d) as x) :
    ∃ ls s, Run Runtime.step Free (Runtime.init : Runtime.State ι τ) ls s ∧
      polls ls = x.polls ∧ x.data = (polls ls).foldl (fun d i => (poll i d).data) d ∧
      s.fifo = x.fifo ∧ s.running = none ∧
      ∀ i, (s.cell i).word = x.word i ∧ (s.cell i).accepted = x.accepted i ∧
        (isSpawned (x.word i) = true → (s.cell i).slot = .live (x.accepted i - 1)) := by
  obtain ⟨ls, s, fine, same, m⟩ := exists_runtime_run u d run
  refine ⟨ls, s, fine, same, ?_, m.fifo, m.running, fun i => ?_⟩
  · rw [same]
    exact run.invariant (I := fun x => x.data = x.polls.foldl (fun d i => (poll i d).data) d)
      rfl fun _ _ _ h _ next => data_step d h next
  · exact ⟨(m.cell i).word, (m.cell i).accepted, (m.cell i).slot⟩

/-- Two tasks: `false` wakes itself and is polled twice, `true` wakes `false` in between. -/
def pingPoll : Bool → Nat → Polled Nat Bool
  | false, d => ⟨d + 1, if d = 0 then [false] else [], d ≠ 0⟩
  | true, d => ⟨d + 10, [false], true⟩

theorem two_tasks_on_the_runtime :
    ∃ ls s, Run Runtime.step Free (Runtime.init : Runtime.State Bool Unit) ls s ∧
      polls ls = [false, true, false] ∧ s.fifo = [] ∧
      12 = (polls ls).foldl (fun d i => (pingPoll i d).data) 0 := by
  obtain ⟨x, run, hx⟩ := exists_run (step pingPoll) (Given pingPoll) (init 0)
    [.spawn false, .spawn true, .run, .run, .run]
    (fun x => x.data = 12 ∧ x.polls = [false, true, false] ∧ x.fifo = []) rfl
  simp only [decide_eq_true_eq] at hx
  obtain ⟨data, polled, empty⟩ := hx
  obtain ⟨ls, s, fine, same, made, fifo, _⟩ := run_is_runtime_run () 0 run
  exact ⟨ls, s, fine, same.trans polled, fifo.trans empty, data.symm.trans made⟩

end Px4Rs.Executor
