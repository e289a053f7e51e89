import Px4Rs.TaskCell

/-! Invariants of every run of a cell, whatever the schedule: who answers for the
SPAWNED bit, and how little can happen before the work item exists. -/
namespace Px4Rs.TaskCell
open Px4Rs.Runs Function
variable {τ : Type*} [DecidableEq τ]

/-- A position whose thread still answers for the SPAWNED bit: the future is not
written yet, or it is dropped and the rollback store is still to come. -/
def Pc.owns : Pc → Bool
  | .write _ | .rollbackStore => true
  | _ => false

/-- Somebody will clear SPAWNED: a thread inside `try_spawn`, a future still to be
polled, or the Run that is completing one. -/
def Owner (s : State τ) : Prop :=
  (∃ t, (s.pc t).owns = true) ∨ (∃ f, s.slot = .live f) ∨ s.runner = .drop ∨ s.runner = .store

def Owned (s : State τ) : Prop := isSpawned s.word = true → Owner s

theorem Owner.goto {s : State τ} (h : Owner s) {u : τ} (hu : (s.pc u).owns = false) (p : Pc) :
    Owner (s.goto u p) := by
  obtain ⟨t, ht⟩ | h := h
  · have hne : t ≠ u := by rintro rfl; simp [hu] at ht
    exact .inl ⟨t, by simpa [update_of_ne hne] using ht⟩
  · exact .inr h

theorem owned_step {s t : State τ} {a : Act τ} (h : Owned s) (next : step s a = some t) :
    Owned t := by
  intro hs
  cases steps_of_step next with
  | @spawn u => exact .inl ⟨u, by simp [Pc.owns]⟩
  | @write u f => exact .inr (.inl ⟨f, rfl⟩)
  | @rollbackDrop u => exact .inl ⟨u, by simp [Pc.owns]⟩
  | busy hu | loadNull hu | loadHandle hu | refused hu | allocated hu | storeHandle hu
  | spawnSchedule hu | wakeNull hu | wakeLoad hu | wakeSchedule hu =>
    exact (h hs).goto (by simp [hu, Pc.owns]) _
  | wake hu => exact (h (by simpa using hs)).goto (by simp [hu, Pc.owns]) _
  | rollbackStore | store => simp at hs
  | ready | readyUndefined => exact .inr (.inr (.inl rfl))
  | drop => exact .inr (.inr (.inr rfl))
  | pop hr | poll hr | pending hr => simpa [Owner, hr] using h hs
  | fetchAnd hr =>
    have hw : isSpawned s.word = true := by simpa using hs
    simpa [Owner, hr, hw] using h hw

theorem owned_run {P : State τ → Act τ → Prop} {as : List (Act τ)} {s : State τ}
    (h : Run step P init as s) : Owned s :=
  h.invariant (by simp [Owned, init]) fun _ _ _ hs _ => owned_step hs

/-- The positions a thread can have while there is no work item. -/
def Pc.early : Pc → Bool
  | .spawnSchedule _ | .wakeLoad | .wakeSchedule _ => false
  | _ => true

def Pc.allocating : Pc → Bool
  | .wiNew _ | .rollbackDrop _ | .rollbackStore | .storeHandle _ => true
  | _ => false

/- Until the handle is stored nothing is queued, no Run happens and no Waker exists,
   so at most one thread is inside `try_spawn` past its `compare_exchange`. -/
structure AllocInv (s : State τ) : Prop where
  quiet : s.handle = none → s.queued = 0 ∧ s.runner = .idle ∧ s.cloned = false
  early : s.handle = none → ∀ t, (s.pc t).early = true
  alloc : ∀ t, (s.pc t).allocating = true → s.handle = none
  sole : s.handle = none → ∀ t u, s.pc t ≠ .idle → s.pc u ≠ .idle → t = u
  free : s.handle = none → isSpawned s.word = false → ∀ t, s.pc t = .idle

omit [DecidableEq τ] in
theorem allocInv_init : AllocInv (init : State τ) := by
  constructor <;> simp [init, Pc.early, Pc.allocating]

/-- Once the handle is stored, all that is left to keep is that no thread allocates. -/
theorem AllocInv.late {s t : State τ} (h : AllocInv s) (hn : s.handle ≠ none) {u : τ} {p : Pc}
    (pc : t.pc = update s.pc u p) (handle : t.handle = s.handle) (hp : p.allocating = false) :
    AllocInv t := by
  rw [← handle] at hn
  refine ⟨fun he => absurd he hn, fun he => absurd he hn, fun v hv => ?_,
    fun he => absurd he hn, fun he => absurd he hn⟩
  by_cases hvu : v = u
  · rw [pc, hvu, update_self, hp] at hv
    cases hv
  · rw [pc, update_of_ne hvu] at hv
    rw [handle]
    exact h.alloc v hv

omit [DecidableEq τ] in
theorem AllocInv.others_idle {s : State τ} (h : AllocInv s) (hn : s.handle = none) {t u : τ}
    (hu : s.pc u ≠ .idle) (htu : t ≠ u) : s.pc t = .idle := by
  by_contra ht
  exact htu (h.sole hn t u ht hu)

theorem AllocInv.move {s t : State τ} (h : AllocInv s) {u : τ} {p : Pc} (hu : s.pc u ≠ .idle)
    (pc : t.pc = update s.pc u p) (handle : t.handle = s.handle)
    (quiet : s.handle = none → t.queued = 0 ∧ t.runner = .idle ∧ t.cloned = false)
    (early : s.handle = none → p.early = true)
    (alloc : p.allocating = true → s.handle = none)
    (free : isSpawned t.word = false → isSpawned s.word = false ∨ p = .idle) : AllocInv t := by
  have kept (v : τ) (hv : t.pc v ≠ .idle) : s.pc v ≠ .idle := by
    by_cases hvu : v = u
    · rwa [hvu]
    · rwa [pc, update_of_ne hvu] at hv
  constructor
  · intro hn
    exact quiet (handle ▸ hn)
  · intro hn v
    by_cases hvu : v = u
    · rw [pc, hvu, update_self]
      exact early (handle ▸ hn)
    · rw [pc, update_of_ne hvu]
      exact h.early (handle ▸ hn) v
  · intro v hv
    rw [handle]
    by_cases hvu : v = u
    · rw [pc, hvu, update_self] at hv
      exact alloc hv
    · rw [pc, update_of_ne hvu] at hv
      exact h.alloc v hv
  · intro hn v w hv hw
    exact h.sole (handle ▸ hn) v w (kept v hv) (kept w hw)
  · intro hn hw v
    obtain hs | hp := free hw
    · exact absurd (h.free (handle ▸ hn) hs u) hu
    · by_contra hv
      have hvu : v = u := h.sole (handle ▸ hn) v u (kept v hv) hu
      rw [pc, hvu, update_self] at hv
      exact hv hp

omit [DecidableEq τ] in
theorem AllocInv.handle_of_late {s : State τ} (h : AllocInv s) {t : τ}
    (ht : (s.pc t).early = false) : s.handle ≠ none := by
  intro hn
  rw [h.early hn t] at ht
  cases ht

omit [DecidableEq τ] in
theorem AllocInv.handle_of_run {s : State τ} (h : AllocInv s)
    (hr : s.runner ≠ .idle ∨ 0 < s.queued) : s.handle ≠ none := by
  intro hn
  obtain ⟨hq, hi, _⟩ := h.quiet hn
  obtain hr | hr := hr
  · exact hr hi
  · omega

omit [DecidableEq τ] in
theorem AllocInv.run {s t : State τ} (h : AllocInv s) (hr : s.runner ≠ .idle ∨ 0 < s.queued)
    (pc : t.pc = s.pc) (handle : t.handle = s.handle) : AllocInv t := by
  have hn := h.handle_of_run hr
  rw [← handle] at hn
  refine ⟨fun he => absurd he hn, fun he => absurd he hn, fun v hv => ?_,
    fun he => absurd he hn, fun he => absurd he hn⟩
  rw [handle]
  exact h.alloc v (pc ▸ hv)

theorem AllocInv.take {s : State τ} (h : AllocInv s) {u : τ} (hw : isSpawned s.word = false)
    {p : Pc} (early : p.early = true) (alloc : p.allocating = false) {w : Word}
    (spawned : isSpawned w = true) (n : Nat) :
    AllocInv { s.goto u p with word := w, accepted := n } := by
  have only (hn : s.handle = none) (v : τ) (hv : update s.pc u p v ≠ .idle) : v = u := by
    by_contra hne
    rw [update_of_ne hne] at hv
    exact hv (h.free hn hw v)
  constructor
  · exact h.quiet
  · intro hn v
    by_cases hvu : v = u
    · simpa [hvu] using early
    · simpa [update_of_ne hvu] using h.early hn v
  · intro v hv
    by_cases hvu : v = u
    · simp [hvu, alloc] at hv
    · exact h.alloc v (by simpa [update_of_ne hvu] using hv)
  · intro hn v x hv hx
    rw [only hn v hv, only hn x hx]
  · intro _ hs
    simp [spawned] at hs

theorem allocInv_step {s t : State τ} {a : Act τ} (h : AllocInv s)
    (next : step s a = some t) : AllocInv t := by
  cases steps_of_step next with
  | spawn hu free => exact h.take (by simp [free]) rfl rfl (by simp) _
  | @busy u hu =>
    have same : (s.finish u (.error .busy)).pc = s.pc := by
      change update s.pc u .idle = s.pc
      rw [← hu, update_eq_self]
    exact ⟨h.quiet, same ▸ h.early, same ▸ h.alloc, same ▸ h.sole, same ▸ h.free⟩
  | write hu =>
    exact h.move (by simp [hu]) rfl rfl h.quiet (fun _ => rfl) (by simp [Pc.allocating]) .inl
  | loadNull hu null =>
    exact h.move (by simp [hu]) rfl rfl h.quiet (fun _ => rfl) (fun _ => null) .inl
  | loadHandle hu stored => exact h.late (by simp [stored]) rfl rfl rfl
  | @refused u _ hu | @allocated u _ _ hu | @rollbackDrop u _ hu =>
    have hn := h.alloc u (by rw [hu]; rfl)
    exact h.move (by simp [hu]) rfl rfl h.quiet (fun _ => rfl) (fun _ => hn) .inl
  | rollbackStore hu =>
    exact h.move (by simp [hu]) rfl rfl h.quiet (fun _ => rfl)
      (by simp [Pc.allocating]) fun _ => .inr rfl
  | @storeHandle u _ hu =>
    have hn := h.alloc u (by rw [hu]; rfl)
    refine ⟨by simp, by simp, fun v hv => ?_, by simp, by simp⟩
    by_cases hvu : v = u
    · simp [hvu, Pc.allocating] at hv
    · simp [update_of_ne hvu, h.others_idle hn (by simp [hu]) hvu, Pc.allocating] at hv
  | spawnSchedule hu | wakeSchedule hu =>
    exact h.late (h.handle_of_late (by rw [hu]; rfl)) rfl rfl rfl
  | wake hu cloned =>
    have hn : s.handle ≠ none := by
      intro hn
      simp [(h.quiet hn).2.2] at cloned
    refine h.late hn rfl rfl ?_
    split <;> rfl
  | @wakeNull u hu | @wakeLoad u _ hu =>
    have hn := h.handle_of_late (t := u) (by rw [hu]; rfl)
    exact h.late hn rfl rfl rfl
  | pop idle queued => exact h.run (.inr queued) rfl rfl
  | fetchAnd hr | poll hr | pending hr | ready hr | readyUndefined hr | drop hr | store hr =>
    exact h.run (.inl (by simp [hr])) rfl rfl

theorem allocInv_run {P : State τ → Act τ → Prop} {as : List (Act τ)} {s : State τ}
    (h : Run step P init as s) : AllocInv s :=
  h.invariant allocInv_init fun _ _ _ hs _ => allocInv_step hs

end Px4Rs.TaskCell
