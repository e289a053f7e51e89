import Mathlib.Data.List.Basic
import Mathlib.Data.List.Induction

/-! Runs of a labelled step function. A label names the step and carries every
choice the environment made in it, so a step function is enough for a relation. -/
namespace Px4Rs.Runs
variable {σ α : Type*}

/-- The labels `as` lead from `s₀` to `s`, each taken in a state where `P` holds. -/
inductive Run (step : σ → α → Option σ) (P : σ → α → Prop) (s₀ : σ) : List α → σ → Prop
  | nil : Run step P s₀ [] s₀
  | snoc {as : List α} {a : α} {s t : σ} (run : Run step P s₀ as s) (guard : P s a)
      (next : step s a = some t) : Run step P s₀ (as ++ [a]) t

/-- The guard of unrestricted runs. -/
def Free : σ → α → Prop := fun _ _ => True

instance (s : σ) (a : α) : Decidable (Free s a) := inferInstanceAs (Decidable True)

variable {step : σ → α → Option σ} {P Q : σ → α → Prop} {s₀ s t : σ} {as bs : List α}

/-- What holds at the start and is kept by every guarded step holds at the end. -/
theorem Run.invariant {I : σ → Prop} (h : Run step P s₀ as s) (init : I s₀)
    (keep : ∀ s a t, I s → P s a → step s a = some t → I t) : I s := by
  induction h with
  | nil => exact init
  | snoc _ guard next ih => exact keep _ _ _ ih guard next

/-- The same for a run whose end satisfies a bound that no step can restore. -/
theorem Run.invariant_below {I B : σ → Prop} (h : Run step P s₀ as s) (init : I s₀)
    (keep : ∀ s a t, I s → B s → P s a → step s a = some t → I t)
    (below : ∀ s a t, step s a = some t → B t → B s) (hs : B s) : I s := by
  induction h with
  | nil => exact init
  | snoc _ guard next ih =>
    have bound := below _ _ _ next hs
    exact keep _ _ _ (ih bound) bound guard next

theorem Run.append (h : Run step P s₀ as s) (h' : Run step P s bs t) :
    Run step P s₀ (as ++ bs) t := by
  induction h' with
  | nil => simpa using h
  | snoc _ guard next ih =>
    rw [← List.append_assoc]
    exact ih.snoc guard next

theorem Run.nil_inv (h : Run step P s₀ [] t) : t = s₀ := by
  generalize he : ([] : List α) = cs at h
  cases h with
  | nil => rfl
  | snoc => simp at he

theorem Run.snoc_inv {a : α} (h : Run step P s₀ (as ++ [a]) t) :
    ∃ s, Run step P s₀ as s ∧ P s a ∧ step s a = some t := by
  generalize he : as ++ [a] = cs at h
  cases h with
  | nil => simp at he
  | snoc run guard next =>
    obtain ⟨rfl, rfl⟩ := List.append_singleton_inj.mp he
    exact ⟨_, run, guard, next⟩

/-- A run passes through a state after each part of its labels. -/
theorem Run.split (h : Run step P s₀ (as ++ bs) t) :
    ∃ s, Run step P s₀ as s ∧ Run step P s bs t := by
  induction bs using List.reverseRecOn generalizing t with
  | nil => exact ⟨t, by simpa using h, .nil⟩
  | append_singleton bs b ih =>
    rw [← List.append_assoc] at h
    obtain ⟨m, run, guard, next⟩ := h.snoc_inv
    obtain ⟨s, first, rest⟩ := ih run
    exact ⟨s, first, rest.snoc guard next⟩

theorem Run.cons_inv {a : α} (h : Run step P s₀ (a :: as) t) :
    ∃ s, step s₀ a = some s ∧ P s₀ a ∧ Run step P s as t := by
  have apart : Run step P s₀ ([a] ++ as) t := h
  obtain ⟨s, first, rest⟩ := apart.split
  have single : Run step P s₀ ([] ++ [a]) s := first
  obtain ⟨m, start, guard, next⟩ := single.snoc_inv
  cases start.nil_inv
  exact ⟨s, next, guard, rest⟩

/-- The labels determine where a run ends. -/
theorem Run.det (h : Run step P s₀ as s) (h' : Run step Q s₀ as t) : s = t := by
  induction h generalizing t with
  | nil => exact h'.nil_inv.symm
  | snoc _ _ next ih =>
    obtain ⟨m, run, _, next'⟩ := h'.snoc_inv
    rw [← ih run] at next'
    exact Option.some.inj (next.symm.trans next')

/-- Weaken the guard, with an invariant of the run at hand. -/
theorem Run.imp {I : σ → Prop} (h : Run step P s₀ as s) (init : I s₀)
    (keep : ∀ s a t, I s → P s a → step s a = some t → I t)
    (imp : ∀ s a t, I s → step s a = some t → P s a → Q s a) : Run step Q s₀ as s := by
  induction h with
  | nil => exact .nil
  | snoc run guard next ih =>
    exact ih.snoc (imp _ _ _ (run.invariant init keep) next guard) next

theorem Run.free (h : Run step P s₀ as s) : Run step Free s₀ as s :=
  h.imp (I := fun _ => True) trivial (fun _ _ _ _ _ _ => trivial) (fun _ _ _ _ _ _ => trivial)

/-- Two guards that agree wherever the first one's invariant holds allow the same runs. -/
theorem run_congr {I : σ → Prop} (init : I s₀)
    (keep : ∀ s a t, I s → P s a → step s a = some t → I t)
    (iff : ∀ s a t, I s → step s a = some t → (P s a ↔ Q s a)) :
    Run step P s₀ as s ↔ Run step Q s₀ as s := by
  constructor
  · intro h
    exact h.imp init keep fun s a t hi hn => (iff s a t hi hn).mp
  · intro h
    refine h.imp (I := I) init ?_ fun s a t hi hn => (iff s a t hi hn).mpr
    intro s a t hi hq hn
    exact keep s a t hi ((iff s a t hi hn).mpr hq) hn

/-- The same for runs whose end satisfies a bound that no step can restore. -/
theorem run_congr_below {I B : σ → Prop} (init : I s₀)
    (keep : ∀ s a t, I s → B s → P s a → step s a = some t → I t)
    (below : ∀ s a t, step s a = some t → B t → B s)
    (iff : ∀ s a t, I s → B s → step s a = some t → (P s a ↔ Q s a)) (hs : B s) :
    Run step P s₀ as s ↔ Run step Q s₀ as s := by
  constructor
  · intro h
    suffices Run step Q s₀ as s ∧ I s from this.1
    induction h with
    | nil => exact ⟨.nil, init⟩
    | snoc run guard next ih =>
      obtain ⟨run', inv⟩ := ih (below _ _ _ next hs)
      have bound := below _ _ _ next hs
      exact ⟨run'.snoc ((iff _ _ _ inv bound next).mp guard) next,
        keep _ _ _ inv bound guard next⟩
  · intro h
    suffices Run step P s₀ as s ∧ I s from this.1
    induction h with
    | nil => exact ⟨.nil, init⟩
    | snoc run guard next ih =>
      obtain ⟨run', inv⟩ := ih (below _ _ _ next hs)
      have bound := below _ _ _ next hs
      have guard := (iff _ _ _ inv bound next).mpr guard
      exact ⟨run'.snoc guard next, keep _ _ _ inv bound guard next⟩

/-- A property of the past, which a step below a bound keeps when its guard holds and never
restores, holds at the end of a run whose steps all meet the guard, and of no other. -/
theorem Run.past_iff_below {I R B : σ → Prop} (h : Run step Free s₀ as s) (init : I s₀)
    (keep : ∀ s a t, I s → step s a = some t → I t) (start : R s₀)
    (below : ∀ s a t, step s a = some t → B t → B s)
    (iff : ∀ s a t, I s → B s → step s a = some t → (R t ↔ R s ∧ P s a)) (hs : B s) :
    R s ↔ Run step P s₀ as s := by
  induction h with
  | nil => exact ⟨fun _ => .nil, fun _ => start⟩
  | @snoc as a s t run _ next ih =>
    have inv := run.invariant init fun s a t hi _ => keep s a t hi
    have bound := below s a t next hs
    rw [iff s a t inv bound next, ih bound]
    constructor
    · intro ⟨run', guard⟩
      exact run'.snoc guard next
    · intro run'
      obtain ⟨m, before, guard, _⟩ := run'.snoc_inv
      obtain rfl := before.det run
      exact ⟨before, guard⟩

/-- The same where no bound is needed. -/
theorem Run.past_iff {I R : σ → Prop} (h : Run step Free s₀ as s) (init : I s₀)
    (keep : ∀ s a t, I s → step s a = some t → I t) (start : R s₀)
    (iff : ∀ s a t, I s → step s a = some t → (R t ↔ R s ∧ P s a)) :
    R s ↔ Run step P s₀ as s :=
  h.past_iff_below (B := fun _ => True) init keep start (fun _ _ _ _ _ => trivial)
    (fun s a t hi _ => iff s a t hi) trivial

/-- Run the labels, checking the guard before each of them. -/
def exec (step : σ → α → Option σ) (P : σ → α → Prop) [∀ s a, Decidable (P s a)] :
    σ → List α → Option σ
  | s, [] => some s
  | s, a :: as => if P s a then (step s a).bind fun t => exec step P t as else none

theorem run_of_exec [∀ s a, Decidable (P s a)] (h : exec step P s₀ as = some s) :
    Run step P s₀ as s := by
  induction as generalizing s₀ with
  | nil =>
    simp only [exec, Option.some.injEq] at h
    exact h ▸ .nil
  | cons a as ih =>
    simp only [exec, Option.ite_none_right_eq_some, Option.bind_eq_some_iff] at h
    obtain ⟨guard, t, next, rest⟩ := h
    exact (Run.nil.snoc guard next).append (ih rest)

/-- A run found by evaluation, with a test of the state it ends in. -/
theorem exists_run (step : σ → α → Option σ) (P : σ → α → Prop) [∀ s a, Decidable (P s a)]
    (s₀ : σ) (as : List α) (p : σ → Bool)
    (h : (exec step P s₀ as).any p = true) : ∃ s, Run step P s₀ as s ∧ p s = true := by
  cases hs : exec step P s₀ as with
  | none => simp [hs] at h
  | some s => exact ⟨s, run_of_exec hs, by simpa [hs] using h⟩

end Px4Rs.Runs
