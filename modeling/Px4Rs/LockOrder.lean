import Px4Rs.Runs
import Mathlib.Logic.Function.Basic

/-! Threads that take and release locks. Where every thread takes its locks in the order of
a bounded rank, somebody can always go on; a thread that takes a lock it holds never returns. -/
namespace Px4Rs.LockOrder
open Px4Rs.Runs Function
variable {θ ℓ : Type*} [DecidableEq θ] [DecidableEq ℓ]

inductive Op (ℓ : Type*) where
  | lock (l : ℓ)
  | unlock (l : ℓ)
deriving DecidableEq

/- What each thread still has to do, and who is inside each lock. -/
structure State (θ ℓ : Type*) where
  prog : θ → List (Op ℓ)
  owner : ℓ → Option θ

def start (prog : θ → List (Op ℓ)) : State θ ℓ := ⟨prog, fun _ => none⟩

/-- The next operation of a thread; a `lock` waits until the lock is free. -/
def step (s : State θ ℓ) (t : θ) : Option (State θ ℓ) :=
  match s.prog t with
  | [] => none
  | .lock l :: rest =>
    if s.owner l = none then some ⟨update s.prog t rest, update s.owner l (some t)⟩ else none
  | .unlock l :: rest =>
    if s.owner l = some t then some ⟨update s.prog t rest, update s.owner l none⟩ else none

inductive Steps (s : State θ ℓ) (t : θ) : State θ ℓ → Prop
  | lock {l rest} (ops : s.prog t = .lock l :: rest) (free : s.owner l = none) :
    Steps s t ⟨update s.prog t rest, update s.owner l (some t)⟩
  | unlock {l rest} (ops : s.prog t = .unlock l :: rest) (mine : s.owner l = some t) :
    Steps s t ⟨update s.prog t rest, update s.owner l none⟩

variable {s s' : State θ ℓ} {t u : θ} {l : ℓ} {p q rest : List (Op ℓ)} {held : List ℓ}

theorem steps_of_step (next : step s t = some s') : Steps s t s' := by
  simp only [step] at next
  split at next
  · cases next
  · rename_i ops
    simp only [Option.ite_none_right_eq_some, Option.some.injEq] at next
    obtain ⟨free, rfl⟩ := next
    exact .lock ops free
  · rename_i ops
    simp only [Option.ite_none_right_eq_some, Option.some.injEq] at next
    obtain ⟨mine, rfl⟩ := next
    exact .unlock ops mine

/-! Programs that respect a rank. -/

/-- The locks held after a program, while each lock it takes ranks above those it holds. -/
def after (rank : ℓ → Nat) : List ℓ → List (Op ℓ) → Option (List ℓ)
  | held, [] => some held
  | held, .lock l :: rest =>
    if ∀ h ∈ held, rank h < rank l then after rank (l :: held) rest else none
  | held, .unlock l :: rest => if l ∈ held then after rank (held.erase l) rest else none

variable {rank : ℓ → Nat}

theorem after_append : after rank held (p ++ q) = (after rank held p).bind (after rank · q) := by
  induction p generalizing held with
  | nil => rfl
  | cons op p ih =>
    cases op <;> simp only [List.cons_append, after, ih] <;> split <;> rfl

/-- A block under a lock. -/
def within (l : ℓ) (body : List (Op ℓ)) : List (Op ℓ) := .lock l :: (body ++ [.unlock l])

/-- A program that takes only locks of rank `k` and above, and gives all of them back. -/
def Above (rank : ℓ → Nat) (k : Nat) (p : List (Op ℓ)) : Prop :=
  ∀ held : List ℓ, (∀ h ∈ held, rank h < k) → after rank held p = some held

theorem above_nil (k : Nat) : Above rank k ([] : List (Op ℓ)) := fun _ _ => rfl

theorem Above.append {k : Nat} (hp : Above rank k p) (hq : Above rank k q) :
    Above rank k (p ++ q) := by
  intro held low
  rw [after_append, hp held low]
  exact hq held low

theorem Above.mono {j k : Nat} (h : Above rank k p) (hjk : j ≤ k) : Above rank j p :=
  fun held low => h held fun l hl => Nat.lt_of_lt_of_le (low l hl) hjk

theorem Above.within {k : Nat} (hk : k ≤ rank l) (h : Above rank (rank l + 1) p) :
    Above rank k (within l p) := by
  intro held low
  have free : ∀ h ∈ held, rank h < rank l := fun h hh => Nat.lt_of_lt_of_le (low h hh) hk
  have body := h (l :: held) (by
    intro m hm
    obtain rfl | hm := List.mem_cons.mp hm
    · exact Nat.lt_succ_self _
    · exact Nat.lt_succ_of_lt (free m hm))
  rw [LockOrder.within, after, if_pos free, after_append, body]
  simp [after]

theorem above_flatten {k : Nat} {ps : List (List (Op ℓ))} (h : ∀ p ∈ ps, Above rank k p) :
    Above rank k ps.flatten := by
  induction ps with
  | nil => exact above_nil k
  | cons p ps ih =>
    rw [List.flatten_cons]
    exact (h p (by simp)).append (ih fun q hq => h q (by simp [hq]))

/-! Nobody waits in a circle. -/

/- Each thread's program goes on from the locks that are its own. -/
structure Ordered (rank : ℓ → Nat) (s : State θ ℓ) (held : θ → List ℓ) : Prop where
  rest : ∀ t, after rank (held t) (s.prog t) = some []
  nodup : ∀ t, (held t).Nodup
  owner : ∀ t l, l ∈ held t ↔ s.owner l = some t

omit [DecidableEq θ] in
theorem ordered_start {prog : θ → List (Op ℓ)} (h : ∀ t, Above rank 0 (prog t)) :
    Ordered rank (start prog) fun _ => [] :=
  ⟨fun t => h t [] (by simp), fun _ => List.nodup_nil, fun _ _ => by simp [start]⟩

theorem ordered_step {held : θ → List ℓ} (h : Ordered rank s held) (next : step s t = some s') :
    ∃ held', Ordered rank s' held' := by
  cases steps_of_step next with
  | @lock l rest ops free =>
    have now := h.rest t
    rw [ops, after] at now
    have new : l ∉ held t := by
      rw [h.owner, free]
      simp
    refine ⟨update held t (l :: held t), fun u => ?_, fun u => ?_, fun u m => ?_⟩
    · by_cases hu : u = t
      · subst hu
        simp only [update_self]
        split at now
        · exact now
        · cases now
      · simp only [update_of_ne hu]
        exact h.rest u
    · by_cases hu : u = t
      · subst hu
        simpa using ⟨new, h.nodup u⟩
      · simp only [update_of_ne hu]
        exact h.nodup u
    · have hm := h.owner u m
      by_cases hu : u = t <;> by_cases hml : m = l
      · simp [hu, hml]
      · subst hu
        simpa [hml] using hm
      · subst hml
        simp [update_of_ne hu, hm, free, Ne.symm hu]
      · simpa [update_of_ne hu, update_of_ne hml] using hm
  | @unlock l rest ops mine =>
    have now := h.rest t
    rw [ops, after, if_pos ((h.owner t l).mpr mine)] at now
    refine ⟨update held t ((held t).erase l), fun u => ?_, fun u => ?_, fun u m => ?_⟩
    · by_cases hu : u = t
      · subst hu
        simpa using now
      · simp only [update_of_ne hu]
        exact h.rest u
    · by_cases hu : u = t
      · subst hu
        simpa using (h.nodup u).erase l
      · simp only [update_of_ne hu]
        exact h.nodup u
    · have hm := h.owner u m
      by_cases hu : u = t <;> by_cases hml : m = l
      · subst hu
        subst hml
        simp [(h.nodup u).mem_erase_iff]
      · subst hu
        simpa [(h.nodup u).mem_erase_iff, hml] using hm
      · subst hml
        simp [update_of_ne hu, hm, mine, Ne.symm hu]
      · simpa [update_of_ne hu, update_of_ne hml] using hm

/-- A thread with something left to do can do it, or waits for a lock whose owner has
something left to do at a higher rank. -/
theorem Ordered.enabled_or_waits {held : θ → List ℓ} (h : Ordered rank s held)
    (busy : s.prog t ≠ []) : (step s t).isSome = true ∨
      ∃ l rest u, s.prog t = .lock l :: rest ∧ s.owner l = some u ∧ s.prog u ≠ [] ∧
        ∀ m rest', s.prog u = .lock m :: rest' → rank l < rank m := by
  cases ops : s.prog t with
  | nil => exact absurd ops busy
  | cons op rest =>
    have now := h.rest t
    rw [ops] at now
    cases op with
    | unlock l =>
      rw [after, Option.ite_none_right_eq_some] at now
      have mine := (h.owner t l).mp now.1
      exact .inl (by simp [step, ops, mine])
    | lock l =>
      cases hl : s.owner l with
      | none => exact .inl (by simp [step, ops, hl])
      | some u =>
        have inside := (h.owner u l).mpr hl
        have later := h.rest u
        refine .inr ⟨l, rest, u, rfl, hl, ?_, ?_⟩
        · intro done
          rw [done, after, Option.some.injEq] at later
          rw [later] at inside
          cases inside
        · intro m rest' more
          rw [more, after, Option.ite_none_right_eq_some] at later
          exact later.1 l inside

theorem Ordered.somebody {held : θ → List ℓ} (h : Ordered rank s held) {top : Nat}
    (bounded : ∀ l, rank l < top) (busy : s.prog t ≠ []) : ∃ u, (step s u).isSome = true := by
  -- the chain of waits climbs the ranks
  have climb (n : Nat) (t : θ) (l : ℓ) (rest : List (Op ℓ)) (ops : s.prog t = .lock l :: rest)
      (hn : top - rank l = n) : ∃ u, (step s u).isSome = true := by
    induction n using Nat.strongRecOn generalizing t l rest with
    | _ n ih =>
      obtain able | ⟨m, _, u, same, _, busy, higher⟩ := h.enabled_or_waits (t := t) (by simp [ops])
      · exact ⟨t, able⟩
      · rw [ops, List.cons.injEq, Op.lock.injEq] at same
        obtain ⟨rfl, _⟩ := same
        obtain able | ⟨k, rest', _, ops', _⟩ := h.enabled_or_waits busy
        · exact ⟨u, able⟩
        · have up := higher k rest' ops'
          have := bounded k
          exact ih (top - rank k) (by omega) u k rest' ops' rfl
  obtain able | ⟨l, rest, _, ops, _⟩ := h.enabled_or_waits busy
  · exact ⟨t, able⟩
  · exact climb _ t l rest ops rfl

section Run
variable {prog : θ → List (Op ℓ)} {as : List θ} {P : State θ ℓ → θ → Prop}

theorem ordered_run (ordered : ∀ t, Above rank 0 (prog t))
    (run : Run step P (start prog) as s) : ∃ held, Ordered rank s held :=
  run.invariant (I := fun s => ∃ held, Ordered rank s held) ⟨_, ordered_start ordered⟩
    fun _ _ _ ⟨_, h⟩ _ next => ordered_step h next

theorem count_run (run : Run step P (start prog) as s) (t : θ) :
    as.count t + (s.prog t).length = (prog t).length := by
  induction run with
  | nil => simp [start]
  | @snoc as u s s' _ _ next ih =>
    rw [List.count_append, List.count_singleton]
    cases steps_of_step next with
    | lock ops | unlock ops =>
      by_cases hu : t = u
      · subst hu
        simp only [ops, List.length_cons] at ih
        simp only [update_self, BEq.rfl, if_true]
        omega
      · simpa [update_of_ne hu, Ne.symm hu] using ih

/-- Threads that respect the rank finish: nobody makes more steps than its program has, and
as long as one of them has a step left somebody can make one. -/
theorem finishes (ordered : ∀ t, Above rank 0 (prog t)) {top : Nat}
    (bounded : ∀ l, rank l < top) (run : Run step Free (start prog) as s) :
    (∀ t, as.count t ≤ (prog t).length) ∧
      ((∃ t, s.prog t ≠ []) → ∃ u s', step s u = some s') := by
  refine ⟨fun t => ?_, fun ⟨t, busy⟩ => ?_⟩
  · have := count_run run t
    omega
  · obtain ⟨held, h⟩ := ordered_run ordered run
    obtain ⟨u, able⟩ := h.somebody bounded busy
    exact ⟨u, Option.isSome_iff_exists.mp able⟩

/-! A lock taken twice. -/

/-- The thread is on its way to the second `lock`, or waits there for itself. -/
def Relocks (l : ℓ) (q r : List (Op ℓ)) (t : θ) (s : State θ ℓ) : Prop :=
  (∃ p, s.prog t = p ++ .lock l :: (q ++ .lock l :: r)) ∨
    s.owner l = some t ∧ ∃ p, p <:+ q ∧ s.prog t = p ++ .lock l :: r

theorem relocks_step {r : List (Op ℓ)} (quiet : Op.unlock l ∉ q) (h : Relocks l q r t s)
    (next : step s u = some s') : Relocks l q r t s' := by
  by_cases hu : t = u
  · subst hu
    obtain ⟨p, ops⟩ | ⟨mine, p, sub, ops⟩ := h
    · cases p with
      | nil =>
        cases steps_of_step next with
        | @lock m rest ops' =>
          rw [ops', List.nil_append, List.cons.injEq, Op.lock.injEq] at ops
          obtain ⟨rfl, rfl⟩ := ops
          exact .inr ⟨by simp, q, List.suffix_rfl, by simp⟩
        | unlock ops' => simp [ops'] at ops
      | cons op p =>
        refine .inl ⟨p, ?_⟩
        cases steps_of_step next with
        | lock ops' | unlock ops' =>
          rw [ops', List.cons_append, List.cons.injEq] at ops
          simpa using ops.2
    · cases p with
      | nil =>
        cases steps_of_step next with
        | @lock m rest ops' free =>
          rw [ops', List.nil_append, List.cons.injEq, Op.lock.injEq] at ops
          obtain ⟨rfl, -⟩ := ops
          rw [mine] at free
          cases free
        | unlock ops' => simp [ops'] at ops
      | cons op p =>
        have sub' : p <:+ q := (List.suffix_cons op p).trans sub
        cases steps_of_step next with
        | @lock m rest ops' free =>
          rw [ops', List.cons_append, List.cons.injEq] at ops
          have : l ≠ m := by
            rintro rfl
            rw [mine] at free
            cases free
          exact .inr ⟨by simpa [update_of_ne this] using mine, p, sub', by simpa using ops.2⟩
        | @unlock m rest ops' =>
          rw [ops', List.cons_append, List.cons.injEq] at ops
          have : l ≠ m := by
            rintro rfl
            exact quiet (sub.mem (by simp [← ops.1]))
          exact .inr ⟨by simpa [update_of_ne this] using mine, p, sub', by simpa using ops.2⟩
  · obtain ⟨p, ops⟩ | ⟨mine, p, sub, ops⟩ := h
    · refine .inl ⟨p, ?_⟩
      cases steps_of_step next with
      | lock | unlock => simpa [update_of_ne hu] using ops
    · have own (m : ℓ) (other : s.owner m ≠ some t) : l ≠ m := by
        rintro rfl
        exact other mine
      cases steps_of_step next with
      | @lock m rest _ free =>
        have := own m (by simp [free])
        exact .inr ⟨by simpa [update_of_ne this] using mine, p, sub,
          by simpa [update_of_ne hu] using ops⟩
      | @unlock m rest _ theirs =>
        have := own m (by simp [theirs, Ne.symm hu])
        exact .inr ⟨by simpa [update_of_ne this] using mine, p, sub,
          by simpa [update_of_ne hu] using ops⟩

theorem relocks_of_run {r : List (Op ℓ)} (quiet : Op.unlock l ∉ q)
    (twice : prog t = p ++ .lock l :: (q ++ .lock l :: r))
    (run : Run step P (start prog) as s) : Relocks l q r t s :=
  run.invariant (I := Relocks l q r t) (.inl ⟨p, twice⟩)
    fun _ _ _ h _ next => relocks_step quiet h next

theorem relocks_run {r : List (Op ℓ)} (quiet : Op.unlock l ∉ q)
    (twice : prog t = p ++ .lock l :: (q ++ .lock l :: r))
    (run : Run step P (start prog) as s) : .lock l :: r <:+ s.prog t := by
  obtain ⟨p, ops⟩ | ⟨_, p, _, ops⟩ := relocks_of_run quiet twice run
  · exact ⟨p ++ .lock l :: q, by simp [ops]⟩
  · exact ⟨p, ops.symm⟩

/-- When it comes to the second time the lock is its own. -/
theorem owner_of_relocks {r : List (Op ℓ)} (quiet : Op.unlock l ∉ q)
    (twice : prog t = p ++ .lock l :: (q ++ .lock l :: r))
    (run : Run step P (start prog) as s) (again : s.prog t = .lock l :: r) :
    s.owner l = some t := by
  obtain ⟨p, ops⟩ | ⟨mine, _⟩ := relocks_of_run quiet twice run
  · have length := congrArg List.length (ops.symm.trans again)
    simp only [List.length_append, List.length_cons] at length
    omega
  · exact mine

end Run

omit [DecidableEq θ] [DecidableEq ℓ] in
/-- An operation other than `l` at the head leaves every later `lock l` to be done. -/
theorem suffix_of_cons {op : Op ℓ} {r : List (Op ℓ)} (other : op ≠ .lock l)
    (h : .lock l :: r <:+ op :: rest) : .lock l :: r <:+ rest := by
  obtain same | h := List.suffix_cons_iff.mp h
  · exact absurd (List.cons.inj same).1.symm other
  · exact h

theorem waits_for_itself {P : State θ ℓ → θ → Prop} {bs : List θ} {r : List (Op ℓ)}
    (mine : s.owner l = some t) (again : s.prog t = .lock l :: r) (run : Run step P s bs s') :
    s'.owner l = some t ∧ s'.prog t = .lock l :: r ∧
      ∀ u r', .lock l :: r' <:+ s.prog u → .lock l :: r' <:+ s'.prog u := by
  refine run.invariant (I := fun s' => s'.owner l = some t ∧ s'.prog t = .lock l :: r ∧
      ∀ u r', .lock l :: r' <:+ s.prog u → .lock l :: r' <:+ s'.prog u)
    ⟨mine, again, fun _ _ => id⟩ fun m v m' ⟨mine, again, later⟩ _ next => ?_
  cases steps_of_step next with
  | @lock k rest ops free =>
    have hk : l ≠ k := by
      rintro rfl
      rw [mine] at free
      cases free
    have hv : t ≠ v := by
      rintro rfl
      rw [ops] at again
      cases again
      exact hk rfl
    refine ⟨by simpa [update_of_ne hk] using mine, by simpa [update_of_ne hv] using again,
      fun u r' more => ?_⟩
    have more := later u r' more
    by_cases hu : u = v
    · subst hu
      rw [ops] at more
      simpa using suffix_of_cons (by simp [Ne.symm hk]) more
    · simpa [update_of_ne hu] using more
  | @unlock k rest ops theirs =>
    have hv : t ≠ v := by
      rintro rfl
      rw [ops] at again
      cases again
    have hk : l ≠ k := by
      rintro rfl
      rw [mine] at theirs
      exact hv (Option.some.inj theirs)
    refine ⟨by simpa [update_of_ne hk] using mine, by simpa [update_of_ne hv] using again,
      fun u r' more => ?_⟩
    have more := later u r' more
    by_cases hu : u = v
    · subst hu
      rw [ops] at more
      simpa using suffix_of_cons (by simp) more
    · simpa [update_of_ne hu] using more

/-! Programs made of blocks give back only what they have taken. -/

def Bracketed (p : List (Op ℓ)) : Prop :=
  ∀ l q r, p = q ++ r → .unlock l ∈ q → .lock l ∈ q

omit [DecidableEq ℓ] in
theorem bracketed_nil : Bracketed ([] : List (Op ℓ)) := by
  intro l q r parts mem
  obtain ⟨rfl, -⟩ := List.append_eq_nil_iff.mp parts.symm
  exact absurd mem List.not_mem_nil

omit [DecidableEq ℓ] in
theorem Bracketed.append (hp : Bracketed p) (hq : Bracketed q) : Bracketed (p ++ q) := by
  intro l a b whole mem
  obtain ⟨a', rfl, parts⟩ | ⟨b', parts, -⟩ := List.append_eq_append_iff.mp whole
  · obtain mem | mem := List.mem_append.mp mem
    · exact List.mem_append_left _ (hp l p [] (by simp) mem)
    · exact List.mem_append_right _ (hq l a' b parts mem)
  · exact hp l a b' parts mem

omit [DecidableEq ℓ] in
theorem Bracketed.within (h : Bracketed p) : Bracketed (within l p) := by
  intro k a b whole mem
  cases a with
  | nil => cases mem
  | cons op a =>
    obtain ⟨rfl, body⟩ := List.cons.inj whole
    have mem : .unlock k ∈ a := by simpa using mem
    obtain ⟨a', rfl, rest⟩ | ⟨b', parts, -⟩ := List.append_eq_append_iff.mp body
    · obtain mem | mem := List.mem_append.mp mem
      · exact List.mem_cons_of_mem _ (List.mem_append_left _ (h k p [] (by simp) mem))
      · -- what comes behind the block's body is the end of the block
        have here : .unlock k ∈ [Op.unlock l] := rest ▸ List.mem_append_left b mem
        have same : k = l := by simpa using here
        exact same ▸ List.mem_cons_self
    · exact List.mem_cons_of_mem _ (h k a b' parts mem)

omit [DecidableEq ℓ] in
theorem bracketed_flatten {ps : List (List (Op ℓ))} (h : ∀ p ∈ ps, Bracketed p) :
    Bracketed ps.flatten := by
  induction ps with
  | nil => exact bracketed_nil
  | cons p ps ih =>
    rw [List.flatten_cons]
    exact (h p (by simp)).append (ih fun q hq => h q (by simp [hq]))

omit [DecidableEq ℓ] in
/-- Up to the first `lock l` nothing gives `l` back. -/
theorem Bracketed.exists_first (h : Bracketed p) (mem : .lock l ∈ p) :
    ∃ q r, p = q ++ .lock l :: r ∧ .unlock l ∉ q := by
  obtain ⟨q, r, rfl, first⟩ := List.eq_append_cons_of_mem mem
  exact ⟨q, r, rfl, fun given => first (h l q _ rfl given)⟩

end Px4Rs.LockOrder
