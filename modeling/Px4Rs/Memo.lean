import Mathlib.Logic.Function.Basic

/-! Recursive computations with a table of the values found so far. A computation asks for
values by name and passes on the error of a name that has none; it may also never return.
The table is filled by every question, also on the way to an error, and shows in no answer. -/
namespace Px4Rs.Memo
open Function
variable {N V E A : Type}

inductive Prog (N V E A : Type) where
  | ret (a : Except E A)
  | halt
  | call (n : N) (next : V → Prog N V E A)

/-- `none` of a computation that does not return. -/
abbrev Answer (E A : Type) := Option (Except E A)

abbrev Table (N V : Type) := N → Option V

def Table.empty : Table N V := fun _ => none

/-- An answer, with the table it leaves. -/
abbrev Outcome (N V E A : Type) := Option (Except E A × Table N V)

/-- The computation with its questions answered by `ask`. -/
def eval (ask : N → Answer E V) : Prog N V E A → Answer E A
  | .ret a => some a
  | .halt => none
  | .call n next =>
    match ask n with
    | some (.ok v) => eval ask (next v)
    | some (.error e) => some (.error e)
    | none => none

/-- The same, with a table that the questions fill. -/
def exec (ask : Table N V → N → Outcome N V E V) : Prog N V E A → Table N V → Outcome N V E A
  | .ret a, t => some (a, t)
  | .halt, _ => none
  | .call n next, t =>
    match ask t n with
    | some (.ok v, t) => exec ask (next v) t
    | some (.error e, t) => some (.error e, t)
    | none => none

/-- What returns in the first computation returns in the second. -/
inductive Prog.Le : Prog N V E A → Prog N V E A → Prop
  | ret (a : Except E A) : Le (.ret a) (.ret a)
  | halt (q : Prog N V E A) : Le .halt q
  | call (n : N) {next next' : V → Prog N V E A} (le : ∀ v, Le (next v) (next' v)) :
      Le (.call n next) (.call n next')

theorem Prog.Le.refl (p : Prog N V E A) : p.Le p := by
  induction p with
  | ret a => exact .ret a
  | halt => exact .halt _
  | call n next ih => exact .call n ih

/-- The computation for each name, which may return more often the greater the depth. -/
structure Bodies (N V E : Type) where
  body : Nat → N → Prog N V E V
  mono : ∀ k n, (body k n).Le (body (k + 1) n)

variable (bodies : Bodies N V E)

/-- The value of a name, with questions to depth `k` and no table. -/
def value : Nat → N → Answer E V
  | 0, _ => none
  | k + 1, n => eval (value k) (bodies.body (k + 1) n)

variable [DecidableEq N]

def store (n : N) : Outcome N V E V → Outcome N V E V
  | some (.ok v, t) => some (.ok v, update t n (some v))
  | r => r

def memo : Nat → Table N V → N → Outcome N V E V
  | 0, _, _ => none
  | k + 1, t, n =>
    match t n with
    | some v => some (.ok v, t)
    | none => store n (exec (memo k) (bodies.body (k + 1) n) t)

/-- The value of a name computed anew, with a table for the names it asks for. -/
def fill (k : Nat) (t : Table N V) (n : N) : Outcome N V E V :=
  store n (exec (memo bodies k) (bodies.body (k + 1) n) t)

/-- What is in the table is the value of its name. -/
def Sound (t : Table N V) : Prop := ∀ n v, t n = some v → ∃ k, value bodies k n = some (.ok v)

variable {bodies} {p q : Prog N V E A} {n : N} {k j : Nat} {t t' : Table N V}

omit [DecidableEq N] in
theorem sound_empty : Sound bodies (.empty : Table N V) := by
  intro n v h
  cases h

/-! More depth changes no answer. -/

omit [DecidableEq N] in
theorem eval_mono {f g : N → Answer E V} {r : Except E A} (hfg : ∀ n r, f n = some r → g n = some r)
    (le : p.Le q) (h : eval f p = some r) : eval g q = some r := by
  induction le with
  | ret a => exact h
  | halt q => cases h
  | call n _ ih =>
    rw [eval] at h ⊢
    cases hn : f n with
    | none => simp [hn] at h
    | some s =>
      rw [hfg n s hn]
      cases s with
      | ok v => exact ih v (by simpa [hn] using h)
      | error e => simpa [hn] using h

omit [DecidableEq N] in
theorem value_succ {r : Except E V} (h : value bodies k n = some r) :
    value bodies (k + 1) n = some r := by
  induction k generalizing n r with
  | zero => cases h
  | succ k ih => exact eval_mono (fun n r => ih) (bodies.mono (k + 1) n) h

omit [DecidableEq N] in
theorem value_le {r : Except E V} (hkj : k ≤ j) (h : value bodies k n = some r) :
    value bodies j n = some r := by
  induction hkj with
  | refl => exact h
  | step _ ih => exact value_succ ih

omit [DecidableEq N] in
theorem value_unique {r s : Except E V} (hr : value bodies k n = some r)
    (hs : value bodies j n = some s) : r = s := by
  have hr := value_le (Nat.le_max_left k j) hr
  rw [value_le (Nat.le_max_right k j) hs] at hr
  exact (Option.some.inj hr).symm

omit [DecidableEq N] in
theorem body_le (hkj : k ≤ j) {f : N → Answer E V} {r : Except E V}
    (h : eval f (bodies.body k n) = some r) : eval f (bodies.body j n) = some r := by
  induction hkj with
  | refl => exact h
  | step _ ih => exact eval_mono (fun _ _ => id) (bodies.mono _ n) ih

/-! With the table. -/

/-- Whoever answers the questions leaves a sound table and answers with the values. -/
def Answers (bodies : Bodies N V E) (ask : Table N V → N → Outcome N V E V) : Prop :=
  ∀ t n r t', Sound bodies t → ask t n = some (r, t') →
    Sound bodies t' ∧ ∃ j, value bodies j n = some r

omit [DecidableEq N] in
theorem eval_of_exec {ask : Table N V → N → Outcome N V E V} (answers : Answers bodies ask)
    (sound : Sound bodies t) {r : Except E A} (h : exec ask p t = some (r, t')) :
    Sound bodies t' ∧ ∃ j, eval (value bodies j) p = some r := by
  induction p generalizing t with
  | ret a =>
    cases h
    exact ⟨sound, 0, rfl⟩
  | halt => cases h
  | call n next ih =>
    rw [exec] at h
    split at h
    · rename_i v t₁ hn
      obtain ⟨sound₁, i, hi⟩ := answers t n _ t₁ sound hn
      obtain ⟨sound', j, hj⟩ := ih v sound₁ h
      refine ⟨sound', max i j, ?_⟩
      simp only [eval, value_le (Nat.le_max_left i j) hi]
      exact eval_mono (fun _ _ => value_le (Nat.le_max_right i j)) (.refl _) hj
    · rename_i e t₁ hn
      cases h
      obtain ⟨sound₁, i, hi⟩ := answers t n _ t' sound hn
      exact ⟨sound₁, i, by simp [eval, hi]⟩
    · cases h

theorem store_spec {r : Except E V} {x : Outcome N V E V} (h : store n x = some (r, t')) :
    ∃ t₁, x = some (r, t₁) ∧ ∀ m v, t' m = some v → (m = n ∧ r = .ok v) ∨ t₁ m = some v := by
  match x with
  | some (.ok w, t₁) =>
    cases h
    refine ⟨t₁, rfl, fun m v hv => ?_⟩
    by_cases hm : m = n
    · subst hm
      rw [update_self] at hv
      exact .inl ⟨rfl, by rw [Option.some.inj hv]⟩
    · rw [update_of_ne hm] at hv
      exact .inr hv
  | some (.error e, t₁) =>
    cases h
    exact ⟨t', rfl, fun m v hv => .inr hv⟩

theorem answers_fill (answers : Answers bodies (memo bodies k)) :
    Answers bodies (fill bodies k) := by
  intro t n r t' sound h
  obtain ⟨t₁, ran, stored⟩ := store_spec h
  obtain ⟨sound₁, j, hj⟩ := eval_of_exec answers sound ran
  have found : value bodies (max j k + 1) n = some r :=
    eval_mono (fun _ _ => value_le (Nat.le_max_left j k)) (.refl _)
      (body_le (Nat.succ_le_succ (Nat.le_max_right j k)) hj)
  refine ⟨fun m v hv => ?_, _, found⟩
  obtain ⟨rfl, rfl⟩ | kept := stored m v hv
  · exact ⟨_, found⟩
  · exact sound₁ m v kept

theorem answers_memo : Answers bodies (memo bodies k) := by
  induction k with
  | zero =>
    intro t n r t' _ h
    cases h
  | succ k ih =>
    intro t n r t' sound h
    rw [memo] at h
    split at h
    · rename_i v hv
      cases h
      exact ⟨sound, sound n v hv⟩
    · exact answers_fill ih t n r t' sound h

/-! Whatever the table, an answer that exists is found. -/

omit [DecidableEq N] in
theorem exec_of_eval {ask : Table N V → N → Outcome N V E V} {f : N → Answer E V}
    (step : ∀ t n r, Sound bodies t → f n = some r →
      ∃ t', Sound bodies t' ∧ ask t n = some (r, t'))
    (sound : Sound bodies t) {r : Except E A} (h : eval f p = some r) :
    ∃ t', exec ask p t = some (r, t') := by
  induction p generalizing t with
  | ret a =>
    cases h
    exact ⟨t, rfl⟩
  | halt => cases h
  | call n next ih =>
    rw [eval] at h
    split at h
    · rename_i v hn
      obtain ⟨t₁, sound₁, asked⟩ := step t n _ sound hn
      rw [exec, asked]
      exact ih v sound₁ h
    · rename_i e hn
      cases h
      obtain ⟨t₁, _, asked⟩ := step t n _ sound hn
      exact ⟨t₁, by rw [exec, asked]⟩
    · cases h

theorem store_returns (n : N) {r : Except E V} {x : Outcome N V E V} (h : x = some (r, t)) :
    ∃ t', store n x = some (r, t') := by
  subst h
  cases r <;> exact ⟨_, rfl⟩

theorem memo_of_value {r : Except E V} (sound : Sound bodies t) (h : value bodies k n = some r) :
    ∃ t', memo bodies k t n = some (r, t') := by
  induction k generalizing t n r with
  | zero => cases h
  | succ k ih =>
    rw [memo]
    cases hv : t n with
    | some v =>
      obtain ⟨j, hj⟩ := sound n v hv
      exact ⟨t, by rw [value_unique h hj]⟩
    | none =>
      obtain ⟨t₁, ran⟩ := exec_of_eval (fun t n r sound h => by
        obtain ⟨t', asked⟩ := ih sound h
        exact ⟨t', (answers_memo t n r t' sound asked).1, asked⟩) sound h
      exact store_returns n ran

theorem fill_of_value {r : Except E V} (sound : Sound bodies t)
    (h : value bodies (k + 1) n = some r) : ∃ t', fill bodies k t n = some (r, t') := by
  obtain ⟨t₁, ran⟩ := exec_of_eval (fun t n r sound h => by
    obtain ⟨t', asked⟩ := memo_of_value sound h
    exact ⟨t', (answers_memo t n r t' sound asked).1, asked⟩) sound h
  exact store_returns n ran

/-- On a sound table a question is answered with the value of its name. -/
theorem memo_iff {r : Except E V} (sound : Sound bodies t) :
    (∃ k t', memo bodies k t n = some (r, t')) ↔ ∃ k, value bodies k n = some r := by
  constructor
  · rintro ⟨k, t', h⟩
    exact (answers_memo t n r t' sound h).2
  · rintro ⟨k, h⟩
    obtain ⟨t', h⟩ := memo_of_value sound h
    exact ⟨k, t', h⟩

theorem fill_iff {r : Except E V} (sound : Sound bodies t) :
    (∃ k t', fill bodies k t n = some (r, t')) ↔ ∃ k, value bodies k n = some r := by
  constructor
  · rintro ⟨k, t', h⟩
    exact (answers_fill answers_memo t n r t' sound h).2
  · rintro ⟨k, h⟩
    obtain ⟨t', h⟩ := fill_of_value sound (value_succ h)
    exact ⟨k, t', h⟩

end Px4Rs.Memo
