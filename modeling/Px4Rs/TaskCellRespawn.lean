import Px4Rs.TaskCellInv

/-! Respawning a cell whose future has resolved: the state word is back at zero as
long as no wake sets `RUN_QUEUED` on a cell that is not spawned. -/
namespace Px4Rs.TaskCell
open Px4Rs.Runs Function
variable {τ : Type*} [DecidableEq τ]

/-- A position inside `try_spawn`. -/
def Pc.spawning : Pc → Bool
  | .idle | .wakeLoad | .wakeSchedule _ => false
  | _ => true

/-- The last future is dropped, and no `try_spawn` or `poll_once` is in progress. -/
def Finished (s : State τ) : Prop :=
  s.runner = .idle ∧ (∀ t, (s.pc t).spawning = false) ∧ ∃ f, s.slot = .dropped f

/-- The word is zero, so the next `try_spawn` of any thread is accepted. -/
def Respawns (s : State τ) : Prop :=
  s.word = 0#8 ∧ ∀ t, s.pc t = .idle →
    ∃ s', step s (.spawn t) = some s' ∧ s'.pc t = .write s.accepted

/-- A wake's `fetch_or` finds SPAWNED set, or a Run that has not done its `fetch_and`. -/
def WakeLands (s : State τ) : Act τ → Prop
  | .wake _ => isSpawned s.word = true ∨ s.runner = .fetchAnd
  | _ => True

instance (s : State τ) : ∀ a, Decidable (WakeLands s a)
  | .wake _ => inferInstanceAs (Decidable (isSpawned s.word = true ∨ s.runner = .fetchAnd))
  | .spawn _ | .write _ _ | .loadHandle _ _ | .wiNew _ _ _ | .rollbackDrop _ _ | .rollbackStore _
  | .storeHandle _ _ | .spawnSchedule _ _ _ | .wakeLoad _ | .wakeSchedule _ _ _ | .pop
  | .fetchAnd | .poll | .pending | .ready | .drop | .store => .isTrue trivial

/-- The word of a cell whose wakes all land: only the two bits, and RUN_QUEUED without
SPAWNED only while the Run that clears it is on its way. -/
structure WordInv (s : State τ) : Prop where
  small : s.word < 4
  stale : isSpawned s.word = false → isQueued s.word = true → s.runner = .fetchAnd

theorem word_zero_small : (0#8 : Word) < 4 := by decide

theorem word_both_small : spawned ||| runQueued < 4 := by decide

theorem word_or_small {w : Word} (h : w < 4) : w ||| runQueued < 4 := by
  revert w; decide +kernel

theorem word_and_small {w : Word} (h : w < 4) : w &&& ~~~runQueued < 4 := by
  revert w; decide +kernel

theorem word_eq_zero {w : Word} (h : w < 4) (hs : isSpawned w = false)
    (hq : isQueued w = false) : w = 0#8 := by
  revert w; decide +kernel

omit [DecidableEq τ] in
theorem wordInv_init : WordInv (init : State τ) := by
  exact ⟨word_zero_small, by simp [init]⟩

theorem wordInv_step {s t : State τ} {a : Act τ} (h : WordInv s) (g : WakeLands s a)
    (next : step s a = some t) : WordInv t := by
  obtain ⟨small, stale⟩ := h
  cases steps_of_step next with
  | spawn => exact ⟨word_both_small, by simp⟩
  | busy | loadNull | loadHandle | wakeNull | wakeLoad | refused | allocated | write
  | rollbackDrop | storeHandle | spawnSchedule | wakeSchedule => exact ⟨small, stale⟩
  | wake =>
    refine ⟨word_or_small small, fun hs _ => ?_⟩
    -- the bit is set on a dead cell only where the coming `fetch_and` clears it
    rw [isSpawned_or_runQueued] at hs
    exact g.resolve_left (by simp [hs])
  | rollbackStore | store => exact ⟨word_zero_small, by simp⟩
  | pop => exact ⟨small, fun _ _ => rfl⟩
  | fetchAnd => exact ⟨word_and_small small, by simp⟩
  | poll hr | pending hr | drop hr | ready hr | readyUndefined hr =>
    exact ⟨small, fun hs hq => by simp [stale hs hq] at hr⟩

theorem wordInv_run {as : List (Act τ)} {s : State τ} (h : Run step WakeLands init as s) :
    WordInv s :=
  h.invariant wordInv_init fun _ _ _ => wordInv_step

omit [DecidableEq τ] in
theorem not_owner_of_finished {s : State τ} (h : Finished s) : ¬ Owner s := by
  obtain ⟨hr, hp, f, hf⟩ := h
  rintro (⟨t, ht⟩ | ⟨g, hg⟩ | hd | hs)
  · have := hp t
    cases hpt : s.pc t <;> simp_all [Pc.owns, Pc.spawning]
  · simp [hf] at hg
  · simp [hr] at hd
  · simp [hr] at hs

theorem respawns_of_word_zero {s : State τ} (h : s.word = 0#8) : Respawns s :=
  ⟨h, fun t ht => ⟨_, by simp only [step, ht, h, if_true]; rfl, by simp⟩⟩

/-- While every wake finds the cell spawned, or a Run about to clear its bit, a finished
cell takes the next `try_spawn`; a wake that finds neither makes it Busy. -/
theorem respawn_after_finish {as : List (Act τ)} {s : State τ}
    (h : Run step WakeLands init as s) :
    (Finished s → Respawns s) ∧
    ∀ t s', Finished s → ¬ WakeLands s (.wake t) → step s (.wake t) = some s' →
      Finished s' ∧ ¬ Respawns s' := by
  have inv := wordInv_run h
  constructor
  · intro hf
    have hs : isSpawned s.word = false := by
      by_contra hs
      exact not_owner_of_finished hf (owned_run h (by simpa using hs))
    have hq : isQueued s.word = false := by
      by_contra hq
      have := inv.stale hs (by simpa using hq)
      simp [hf.1] at this
    exact respawns_of_word_zero (word_eq_zero inv.small hs hq)
  · intro t s' hf hw next
    simp only [WakeLands, not_or, Bool.not_eq_true] at hw
    cases steps_of_step next
    obtain ⟨hr, hp, hd⟩ := hf
    refine ⟨⟨hr, fun u => ?_, hd⟩, fun hz => ?_⟩
    · by_cases hu : u = t
      · subst hu; simp [hw.1, Pc.spawning]
      · simpa [update_of_ne hu] using hp u
    · have hq := isQueued_or_runQueued s.word
      rw [show s.word ||| runQueued = 0#8 from hz.1] at hq
      cases hq

def lifetime : List (Act Unit) :=
  [.spawn (), .write () 0, .loadHandle () 0, .wiNew () 0 (some 0), .storeHandle () 0,
    .spawnSchedule () 0 false, .pop, .fetchAnd, .poll, .ready, .drop, .store]

/-- One that is woken by its last poll, and again while the entry that wake left behind is
being received. -/
def wokenTwice : List (Act Unit) :=
  lifetime.take 9 ++ [.wake (), .wakeLoad (), .wakeSchedule () 0 false, .ready, .drop, .store,
    .pop, .wake (), .fetchAnd]

theorem respawn_after_lifetime :
    ∃ s, Run step WakeLands init wokenTwice s ∧ Finished s ∧ Respawns s := by
  obtain ⟨s, run, hs⟩ := exists_run step WakeLands init
    wokenTwice (fun s => s.runner = .idle ∧ s.pc () = .idle ∧ s.slot = .dropped 0) rfl
  simp only [decide_eq_true_eq] at hs
  have fin : Finished s := ⟨hs.1, fun _ => by simp [hs.2.1, Pc.spawning], 0, hs.2.2⟩
  exact ⟨s, run, fin, (respawn_after_finish run).1 fin⟩

/-- A Waker that outlives its future sets `RUN_QUEUED` on the finished cell, and every
later `try_spawn` is refused as Busy. -/
theorem stale_wake_blocks_respawn :
    ∃ s, Run step Free init (lifetime ++ [.wake ()]) s ∧ Finished s ∧ ¬ Respawns s ∧
      ∃ s', step s (.spawn ()) = some s' ∧ s'.outcome () = some (.error .busy) := by
  refine ⟨_, run_of_exec rfl, ⟨rfl, fun _ => rfl, 0, rfl⟩, fun h => ?_, _, rfl, rfl⟩
  exact absurd h.1 (by decide)

end Px4Rs.TaskCell
