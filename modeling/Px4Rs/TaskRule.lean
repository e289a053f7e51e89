import Px4Rs.Executor

/-! A rule for tasks that share data on the executor: what each poll keeps holds between all
Runs, for a task that sleeps as well as for one that has ended, and the queue runs empty. -/
namespace Px4Rs.Executor
open Px4Rs.Runs Px4Rs.TaskCell Function
variable {ι σ : Type*} [DecidableEq ι]

/- `I` is about the data and the tasks that have been polled. A task that sleeps relies on
   `Rest` until somebody wakes it; `Done` is what a task leaves behind when it ends. -/
structure Keeps (poll : ι → σ → Polled σ ι) (I : σ → List ι → Prop) (Rest Done : ι → σ → Prop) :
    Prop where
  data : ∀ d ps i, I d ps → I (poll i d).data (ps ++ [i])
  given : ∀ d ps i, I d ps → ∀ j ∈ (poll i d).woken, j = i ∨ j ∈ ps
  ends : ∀ d ps i, I d ps → (poll i d).ready = true →
    i ∉ (poll i d).woken ∧ Done i (poll i d).data
  sleeps : ∀ d ps i, I d ps → (poll i d).ready = false → i ∉ (poll i d).woken →
    Rest i (poll i d).data
  rest : ∀ d ps i j, I d ps → j ≠ i → j ∉ (poll i d).woken → Rest j d → Rest j (poll i d).data
  done : ∀ d ps i j, I d ps → j ≠ i → Done j d → Done j (poll i d).data

/-- What holds between two Runs. -/
structure Held (I : σ → List ι → Prop) (Rest Done : ι → σ → Prop) (s : State ι σ) : Prop where
  queued : Queued s
  data : I s.data s.polls
  rest : ∀ i, isSpawned (s.word i) = true → isQueued (s.word i) = false → Rest i s.data
  done : ∀ i, s.accepted i ≠ 0 → isSpawned (s.word i) = false → Done i s.data
  started : ∀ i, i ∈ s.polls ∨ isSpawned (s.word i) = true → s.accepted i ≠ 0

variable {poll : ι → σ → Polled σ ι} {I : σ → List ι → Prop} {Rest Done : ι → σ → Prop}
  {s t : State ι σ} {d : σ}

theorem held_init (start : I d []) : Held I Rest Done (init d) where
  queued := fun i => by simp [init]
  data := start
  rest := by simp [init]
  done := by simp [init]
  started := by simp [init]

/-- A task that has neither ended nor been put to sleep is queued. -/
theorem Held.mem_fifo {i : ι} (h : Held I Rest Done s) (accepted : s.accepted i ≠ 0)
    (running : ¬ Done i s.data) (awake : ¬ Rest i s.data) : i ∈ s.fifo := by
  have live : isSpawned (s.word i) = true := by
    by_contra ended
    exact running (h.done i accepted (by simpa using ended))
  have queued : isQueued (s.word i) = true := by
    by_contra asleep
    exact awake (h.rest i live (by simpa using asleep))
  have once := h.queued i
  rw [if_pos ⟨live, queued⟩] at once
  exact List.count_pos_iff.mp (by omega)

theorem Held.spawn (h : Held I Rest Done s) (i : ι) : Held I Rest Done (s.spawn i) := by
  unfold State.spawn
  split
  · rename_i free
    refine ⟨fun j => ?_, h.data, fun j hs hq => ?_, fun j ha hs => ?_, fun j hj => ?_⟩
    · have hj := h.queued j
      by_cases hji : j = i
      · subst hji
        simpa [free] using hj
      · simpa [update_of_ne hji, Ne.symm hji] using hj
    · by_cases hji : j = i
      · simp [hji] at hq
      · simp only [update_of_ne hji] at hs hq
        exact h.rest j hs hq
    · by_cases hji : j = i
      · simp [hji] at hs
      · simp only [update_of_ne hji] at ha hs
        exact h.done j ha hs
    · by_cases hji : j = i
      · simp [hji]
      · simp only [update_of_ne hji] at hj ⊢
        exact h.started j hj
  · exact h

theorem Held.run (h : Held I Rest Done s) (k : Keeps poll I Rest Done)
    (next : step poll s .run = some t) : ∃ i, Ran s i (poll i s.data) t ∧ Held I Rest Done t := by
  obtain ⟨i, live, _, ran⟩ := h.queued.run next fun i _ ready => (k.ends _ _ i h.data ready).1
  have started := h.started i (.inr live)
  refine ⟨i, ran, ran.queued, ?_, fun j hs hq => ?_, fun j ha hs => ?_, fun j hj => ?_⟩
  · rw [ran.data, ran.polls]
    exact k.data _ _ i h.data
  · rw [ran.data]
    by_cases hji : j = i
    · subst hji
      refine k.sleeps _ _ j h.data (by simpa [ran.live] using hs) fun woken => ?_
      rw [ran.again.mpr woken] at hq
      cases hq
    · have asleep : isQueued (s.word j) = false ∧ j ∉ (poll i s.data).woken := by
        have := ran.woken j hji
        simpa [hq] using this
      rw [ran.spawned j hji] at hs
      exact k.rest _ _ i j h.data hji asleep.2 (h.rest j hs asleep.1)
  · rw [ran.data]
    by_cases hji : j = i
    · subst hji
      exact (k.ends _ _ j h.data (by simpa [ran.live] using hs)).2
    · rw [ran.accepted] at ha
      rw [ran.spawned j hji] at hs
      exact k.done _ _ i j h.data hji (h.done j ha hs)
  · rw [ran.accepted]
    by_cases hji : j = i
    · exact hji ▸ started
    · refine h.started j ?_
      simpa [ran.polls, ran.spawned j hji, hji] using hj

theorem Held.step {a : Act ι} (h : Held I Rest Done s) (k : Keeps poll I Rest Done)
    (next : step poll s a = some t) : Held I Rest Done t := by
  cases a with
  | spawn i =>
    cases next
    exact h.spawn i
  | run =>
    obtain ⟨_, _, held⟩ := h.run k next
    exact held

theorem Keeps.held {as : List (Act ι)} (k : Keeps poll I Rest Done) (start : I d [])
    (run : Run (Executor.step poll) Free (init d) as s) : Held I Rest Done s :=
  run.invariant (held_init start) fun _ _ _ h _ next => h.step k next

theorem Keeps.given_run {as : List (Act ι)} (k : Keeps poll I Rest Done) (start : I d [])
    (run : Run (Executor.step poll) Free (init d) as s) :
    Run (Executor.step poll) (Given poll) (init d) as s := by
  refine run.imp (I := Held I Rest Done) (held_init start)
    (fun _ _ _ h _ next => h.step k next) fun s a _ h _ _ => ?_
  cases a with
  | spawn => trivial
  | run => exact fun i _ => k.given s.data s.polls i h.data

/-- If a poll that wakes anybody gets some work done then the dispatcher comes to rest. -/
theorem Held.settles (h : Held I Rest Done s) (k : Keeps poll I Rest Done) (work : σ → Nat)
    (less : ∀ d ps i, I d ps → work (poll i d).data ≤ work d ∧
      ((poll i d).woken ≠ [] → work (poll i d).data < work d)) :
    ∃ n t, Run (Executor.step poll) Free s (List.replicate n .run) t ∧ t.fifo = [] := by
  -- either the work gets less, or it does not grow and the queue gets shorter
  induction hw : work s.data using Nat.strongRecOn generalizing s with
  | ind w ihw =>
    subst hw
    induction hl : s.fifo.length using Nat.strongRecOn generalizing s with
    | ind l ihl =>
      subst hl
      cases first : s.fifo with
      | nil => exact ⟨0, s, .nil, first⟩
      | cons i rest =>
        obtain ⟨m, next⟩ : ∃ m, Executor.step poll s .run = some m := by
          simp [Executor.step, first]
        obtain ⟨i, ran, held⟩ := h.run k next
        obtain ⟨kept, progress⟩ := less s.data s.polls i h.data
        rw [← ran.data] at kept progress
        have more : ∃ n t, Run (Executor.step poll) Free m (List.replicate n .run) t ∧
            t.fifo = [] := by
          by_cases quiet : (poll i s.data).woken = [] ∧ work m.data = work s.data
          · have shorter := ran.length
            rw [quiet.1, List.length_nil] at shorter
            refine ihl _ (by omega) held (fun w hw u hu e => ?_) rfl
            exact ihw w (by omega) hu e
          · refine ihw _ ?_ held rfl
            by_cases hq : (poll i s.data).woken = []
            · have : work m.data ≠ work s.data := fun same => quiet ⟨hq, same⟩
              omega
            · exact progress hq
        obtain ⟨n, t, rests, empty⟩ := more
        refine ⟨n + 1, t, ?_, empty⟩
        rw [List.replicate_succ]
        exact Run.append (Run.nil.snoc trivial next) rests

end Px4Rs.Executor
