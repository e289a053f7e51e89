import Px4Rs.Runs
import Mathlib.Data.Nat.Find
import Mathlib.Data.Nat.Init
import Mathlib.Order.Lattice

/-! Infinite executions of a labelled step function, weak fairness of the parties that
take the steps, and the rule that makes a fair party reach what it is heading for. -/
namespace Px4Rs.Runs
variable {σ α : Type*}

/- A label `none` is a moment at which nothing happens, so that a finite run is the
   execution that stands still after it. -/
structure Execution (step : σ → α → Option σ) (s₀ : σ) where
  state : Nat → σ
  label : Nat → Option α
  start : state 0 = s₀
  next : ∀ n, (label n).elim (some (state n)) (step (state n)) = some (state (n + 1))

variable {step : σ → α → Option σ} {s₀ : σ}

namespace Execution

/-- A party that stays ready from some moment on takes a step after it. -/
def Fair (e : Execution step s₀) (ready : σ → Prop) (own : α → Prop) : Prop :=
  ∀ n, (∀ m ≥ n, ready (e.state m)) → ∃ m ≥ n, ∃ a, e.label m = some a ∧ own a

/-- A step in `goal` is taken at `n` or later. -/
def Occurs (e : Execution step s₀) (goal : α → Prop) (n : Nat) : Prop :=
  ∃ m ≥ n, ∃ a, e.label m = some a ∧ goal a

variable {e : Execution step s₀}

theorem next_of_label {n : Nat} {a : α} (h : e.label n = some a) :
    step (e.state n) a = some (e.state (n + 1)) := by
  simpa [h] using e.next n

theorem stays_of_label {n : Nat} (h : e.label n = none) : e.state (n + 1) = e.state n := by
  have := e.next n
  simp only [h, Option.elim_none, Option.some.injEq] at this
  exact this.symm

theorem Occurs.mono {goal : α → Prop} {n m : Nat} (h : e.Occurs goal m) (hnm : n ≤ m) :
    e.Occurs goal n := by
  obtain ⟨k, hk, ha⟩ := h
  exact ⟨k, le_trans hnm hk, ha⟩

theorem invariant {I : σ → Prop} (init : I s₀)
    (keep : ∀ s a t, I s → step s a = some t → I t) (n : Nat) : I (e.state n) := by
  induction n with
  | zero => rwa [e.start]
  | succ n ih =>
    cases ha : e.label n with
    | none => exact stays_of_label ha ▸ ih
    | some a => exact keep _ _ _ ih (next_of_label ha)

/-- What only the goal's own steps can end holds until one of them is taken. -/
theorem holds_until (I : σ → Prop) (goal : α → Prop) {n : Nat} (h : I (e.state n))
    (keep : ∀ s a t, I s → ¬ goal a → step s a = some t → I t) (m : Nat) (hm : n ≤ m) :
    I (e.state m) ∨ ∃ k, n ≤ k ∧ k < m ∧ ∃ a, e.label k = some a ∧ goal a := by
  induction m, hm using Nat.le_induction with
  | base => exact .inl h
  | succ m hm ih =>
    obtain ih | ⟨k, hk, hlt, ha⟩ := ih
    · cases ha : e.label m with
      | none => exact .inl (stays_of_label ha ▸ ih)
      | some a =>
        by_cases hg : goal a
        · exact .inr ⟨m, hm, Nat.lt_succ_self m, a, ha, hg⟩
        · exact .inl (keep _ _ _ ih hg (next_of_label ha))
    · exact .inr ⟨k, hk, Nat.lt_succ_of_lt hlt, ha⟩

/-- A fair party that is ready as long as `P` holds, and whose steps each lower a rank
that no other step raises, ends `P` in `Q` or takes part in reaching the goal. -/
theorem leads_to {ready : σ → Prop} {own : α → Prop} (fair : e.Fair ready own)
    (goal : α → Prop) (P Q : σ → Prop) (rank : σ → Nat) (enabled : ∀ s, P s → ready s)
    (mine : ∀ s a t, P s → step s a = some t → own a → ¬ goal a →
      (P t ∧ rank t < rank s) ∨ Q t)
    (other : ∀ s a t, P s → step s a = some t → ¬ own a → ¬ goal a →
      (P t ∧ rank t ≤ rank s) ∨ Q t)
    {n : Nat} (h : P (e.state n)) : e.Occurs goal n ∨ ∃ m ≥ n, Q (e.state m) := by
  generalize hr : rank (e.state n) = r
  induction r using Nat.strongRecOn generalizing n with
  | _ r ih =>
    by_contra hno
    obtain ⟨hgoal, hQ⟩ := not_or.mp hno
    simp only [Occurs, ge_iff_le, not_exists, not_and] at hgoal hQ
    -- the party is ready for ever, so it moves; its first move contradicts the induction
    have kept (m : Nat) (hm : n ≤ m) : P (e.state m) ∧ rank (e.state m) ≤ r := by
      induction m, hm using Nat.le_induction with
      | base => exact ⟨h, hr.le⟩
      | succ m hm ihm =>
        obtain ⟨hP, hle⟩ := ihm
        cases ha : e.label m with
        | none => exact stays_of_label ha ▸ ⟨hP, hle⟩
        | some a =>
          have hnext := next_of_label ha
          have hna := hgoal m hm a ha
          by_cases ho : own a
          · obtain ⟨hP', hlt⟩ := (mine _ _ _ hP hnext ho hna).resolve_right (hQ _ (by omega))
            exact ⟨hP', by omega⟩
          · obtain ⟨hP', hle'⟩ := (other _ _ _ hP hnext ho hna).resolve_right (hQ _ (by omega))
            exact ⟨hP', by omega⟩
    obtain ⟨m, hm, a, ha, ho⟩ := fair n fun m hm => enabled _ (kept m hm).1
    obtain ⟨hP, hle⟩ := kept m hm
    obtain ⟨hP', hlt⟩ := (mine _ _ _ hP (next_of_label ha) ho (hgoal m hm a ha)).resolve_right
      (hQ _ (by omega))
    obtain hocc | ⟨k, hk, hq⟩ := ih _ (by omega) hP' rfl
    · obtain ⟨k, hk, b, hb, hg⟩ := hocc
      exact hgoal k (by omega) b hb hg
    · exact hQ k (by omega) hq

/-- The first moment from `n` on at which a goal step is taken. -/
theorem Occurs.first {goal : α → Prop} {n : Nat} (h : e.Occurs goal n) :
    ∃ m ≥ n, (∃ a, e.label m = some a ∧ goal a) ∧
      ∀ k, n ≤ k → k < m → ∀ a, e.label k = some a → ¬ goal a := by
  classical
  refine ⟨Nat.find h, (Nat.find_spec h).1, (Nat.find_spec h).2, ?_⟩
  intro k hk hlt a ha hg
  exact Nat.find_min h hlt ⟨hk, a, ha, hg⟩

end Execution

/-- The states along a list of labels, and the last of them for ever. -/
def along (step : σ → α → Option σ) : σ → List α → Nat → σ
  | s, [], _ => s
  | s, _ :: _, 0 => s
  | s, a :: as, n + 1 => along step ((step s a).getD s) as n

theorem along_next {as : List α} {s : σ}
    (h : (exec step Free s as).isSome = true) (n : Nat) :
    (as[n]?).elim (some (along step s as n)) (step (along step s as n)) =
      some (along step s as (n + 1)) := by
  induction as generalizing s n with
  | nil => rfl
  | cons a as ih =>
    have ⟨u, hu⟩ := Option.isSome_iff_exists.mp h
    simp only [exec, Option.ite_none_right_eq_some, Option.bind_eq_some_iff] at hu
    obtain ⟨_, t, ht, rest⟩ := hu
    cases n with
    | zero => cases as <;> simp [along, ht]
    | succ n => simpa [along, ht] using ih (by simp [rest]) n

/-- A finite run as the execution that stands still after it. -/
def Execution.ofLabels (step : σ → α → Option σ) (s₀ : σ) (as : List α)
    (h : (exec step Free s₀ as).isSome = true) : Execution step s₀ where
  state := along step s₀ as
  label n := as[n]?
  start := by cases as <;> rfl
  next := along_next h

theorem along_end (step : σ → α → Option σ) (s : σ) (as : List α) (n : Nat) (h : as.length ≤ n) :
    along step s as n = along step s as as.length := by
  induction as generalizing s n with
  | nil => rfl
  | cons a as ih =>
    obtain ⟨n, rfl⟩ : ∃ m, n = m + 1 := ⟨n - 1, by simp at h; omega⟩
    exact ih _ n (by simpa using h)

/-- Nobody who is not ready at the end of a finite run is treated unfairly. -/
theorem Execution.fair_ofLabels {as : List α} {h : (exec step Free s₀ as).isSome = true}
    {ready : σ → Prop} {own : α → Prop} (quiet : ¬ ready (along step s₀ as as.length)) :
    (Execution.ofLabels step s₀ as h).Fair ready own := by
  intro n hn
  have := hn (max n as.length) (le_max_left _ _)
  exact absurd (along_end step s₀ as _ (le_max_right _ _) ▸ this) quiet

end Px4Rs.Runs
