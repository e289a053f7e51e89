import Mathlib.Logic.Function.Basic
import Px4Rs.Runs

/-! The host's timer queue: `call_after` and `cancel` from any number of threads beside the
one worker thread that pops entries when they are due, reads their `cancelled` flag and
invokes their callout. -/
namespace Px4Rs.MockHrt
open Px4Rs.Runs Function
variable {α β γ : Type*}

/- A timer in the queue, with the addresses of its entry and its context. `arm` is history,
   its number in the order of the pushes. -/
structure Pending (α β γ : Type*) where
  deadline : Nat
  entry : α
  ctx : γ
  callout : β
  arm : Nat
deriving DecidableEq

structure Request (β γ : Type*) where
  delay : Nat
  callout : β
  ctx : γ

/- The next operation of the call in progress on an entry. The first five are those of
   `call_after`, the last four those of `cancel`, where `before` is history: the number of
   pushes made when it began. -/
inductive Caller (β γ : Type*) where
  | idle
  | clear (r : Request β γ)
  | clock (r : Request β γ)
  | lockPush (r : Request β γ) (deadline : Nat)
  | push (r : Request β γ) (deadline : Nat)
  | unlockPush
  | set (before : Nat)
  | lockEvict (before : Nat)
  | evict (before : Nat)
  | unlockEvict (before : Nat)

/-- The next operation of `run_worker`. -/
inductive Worker (α β γ : Type*) where
  | lock
  | peek
  | unlock (p : Pending α β γ)
  | read (p : Pending α β γ)
  | invoke (p : Pending α β γ)

/-- The timer that the worker has popped and not finished with. -/
def Worker.held : Worker α β γ → Option (Pending α β γ)
  | .lock | .peek => none
  | .unlock p | .read p | .invoke p => some p

/- `cancelled` is the flag in the memory of each entry, `locked` the queue's mutex and
   `armed` the entries that no `cancel` has returned for since their `call_after`. The rest
   is history: the pushes, the callouts invoked, for each entry the pushes that a `cancel`
   of it that has returned came after, and the timers whose entry was read or whose callout
   was invoked after such a return. -/
structure State (α β γ : Type*) where
  now : Nat
  cancelled : α → Bool
  queue : List (Pending α β γ)
  locked : Bool
  caller : α → Caller β γ
  worker : Worker α β γ
  armed : α → Bool
  arms : Nat
  invoked : List (Pending α β γ)
  dead : α → Nat
  stale : List (Pending α β γ)

def init : State α β γ where
  now := 0
  cancelled := fun _ => false
  queue := []
  locked := false
  caller := fun _ => .idle
  worker := .lock
  armed := fun _ => false
  arms := 0
  invoked := []
  dead := fun _ => 0
  stale := []

/-- A `cancel` of its entry that began after it was armed has returned. -/
def State.Dead (s : State α β γ) (p : Pending α β γ) : Prop := p.arm < s.dead p.entry

instance (s : State α β γ) (p : Pending α β γ) : Decidable (s.Dead p) :=
  inferInstanceAs (Decidable (_ < _))

def State.touch (s : State α β γ) (p : Pending α β γ) : List (Pending α β γ) :=
  if s.Dead p then s.stale ++ [p] else s.stale

inductive Act (α β γ : Type*) where
  | tick (d : Nat)
  | callAfter (e : α) (r : Request β γ)
  | cancel (e : α)
  | advance (e : α)
  | lock
  | wait
  | pop (i : Nat)
  | unlock
  | read
  | invoke

variable [DecidableEq α]

/-- The next operation of the call on entry `e`. -/
def State.advance (s : State α β γ) (e : α) : Option (State α β γ) :=
  match s.caller e with
  | .idle => none
  | .clear r => some { s with
      cancelled := update s.cancelled e false, caller := update s.caller e (.clock r) }
  | .clock r => some { s with caller := update s.caller e (.lockPush r (s.now + r.delay)) }
  | .lockPush r deadline =>
    if s.locked then none
    else some { s with locked := true, caller := update s.caller e (.push r deadline) }
  | .push r deadline => some { s with
      queue := ⟨deadline, e, r.ctx, r.callout, s.arms⟩ :: s.queue
      caller := update s.caller e .unlockPush
      arms := s.arms + 1 }
  | .unlockPush => some { s with locked := false, caller := update s.caller e .idle }
  | .set before => some { s with
      cancelled := update s.cancelled e true, caller := update s.caller e (.lockEvict before) }
  | .lockEvict before =>
    if s.locked then none
    else some { s with locked := true, caller := update s.caller e (.evict before) }
  | .evict before => some { s with
      queue := s.queue.filter fun p => p.entry ≠ e
      caller := update s.caller e (.unlockEvict before) }
  | .unlockEvict before => some { s with
      locked := false
      caller := update s.caller e .idle
      armed := update s.armed e false
      dead := update s.dead e (max (s.dead e) before) }

def step (s : State α β γ) : Act α β γ → Option (State α β γ)
  | .tick d => some { s with now := s.now + d }
  -- an entry has one user at a time, and is armed again only after a `cancel` returned
  | .callAfter e r =>
    match s.caller e, s.armed e with
    | .idle, false => some { s with
        caller := update s.caller e (.clear r), armed := update s.armed e true }
    | _, _ => none
  | .cancel e =>
    match s.caller e with
    | .idle => some { s with caller := update s.caller e (.set s.arms) }
    | _ => none
  | .advance e => s.advance e
  | .lock =>
    match s.worker with
    | .lock => if s.locked then none else some { s with worker := .peek, locked := true }
    | _ => none
  -- nothing is due: wait on the condvar, which gives up the lock, and lock again
  | .wait =>
    match s.worker with
    | .peek =>
      if ∀ p ∈ s.queue, s.now < p.deadline then some { s with worker := .lock, locked := false }
      else none
    | _ => none
  -- the heap gives out one of the earliest deadlines
  | .pop i =>
    match s.worker, s.queue[i]? with
    | .peek, some p =>
      if p.deadline ≤ s.now ∧ ∀ q ∈ s.queue, p.deadline ≤ q.deadline then
        some { s with worker := .unlock p, queue := s.queue.eraseIdx i }
      else none
    | _, _ => none
  | .unlock =>
    match s.worker with
    | .unlock p => some { s with worker := .read p, locked := false }
    | _ => none
  | .read =>
    match s.worker with
    | .read p => some { s with
        worker := if s.cancelled p.entry then .lock else .invoke p
        stale := s.touch p }
    | _ => none
  | .invoke =>
    match s.worker with
    | .invoke p => some { s with
        worker := .lock
        invoked := s.invoked ++ [p]
        stale := s.touch p }
    | _ => none

inductive Steps (s : State α β γ) : Act α β γ → State α β γ → Prop
  | tick {d} : Steps s (.tick d) { s with now := s.now + d }
  | callAfter {e r} (hc : s.caller e = .idle) (free : s.armed e = false) :
    Steps s (.callAfter e r) { s with
      caller := update s.caller e (.clear r), armed := update s.armed e true }
  | cancel {e} (hc : s.caller e = .idle) :
    Steps s (.cancel e) { s with caller := update s.caller e (.set s.arms) }
  | clear {e r} (hc : s.caller e = .clear r) :
    Steps s (.advance e) { s with
      cancelled := update s.cancelled e false, caller := update s.caller e (.clock r) }
  | clock {e r} (hc : s.caller e = .clock r) :
    Steps s (.advance e) { s with caller := update s.caller e (.lockPush r (s.now + r.delay)) }
  | lockPush {e r deadline} (hc : s.caller e = .lockPush r deadline) (free : s.locked = false) :
    Steps s (.advance e) { s with
      locked := true, caller := update s.caller e (.push r deadline) }
  | push {e r deadline} (hc : s.caller e = .push r deadline) :
    Steps s (.advance e) { s with
      queue := ⟨deadline, e, r.ctx, r.callout, s.arms⟩ :: s.queue
      caller := update s.caller e .unlockPush
      arms := s.arms + 1 }
  | unlockPush {e} (hc : s.caller e = .unlockPush) :
    Steps s (.advance e) { s with locked := false, caller := update s.caller e .idle }
  | set {e before} (hc : s.caller e = .set before) :
    Steps s (.advance e) { s with
      cancelled := update s.cancelled e true, caller := update s.caller e (.lockEvict before) }
  | lockEvict {e before} (hc : s.caller e = .lockEvict before) (free : s.locked = false) :
    Steps s (.advance e) { s with locked := true, caller := update s.caller e (.evict before) }
  | evict {e before} (hc : s.caller e = .evict before) :
    Steps s (.advance e) { s with
      queue := s.queue.filter fun p => p.entry ≠ e
      caller := update s.caller e (.unlockEvict before) }
  | unlockEvict {e before} (hc : s.caller e = .unlockEvict before) :
    Steps s (.advance e) { s with
      locked := false
      caller := update s.caller e .idle
      armed := update s.armed e false
      dead := update s.dead e (max (s.dead e) before) }
  | lock (hw : s.worker = .lock) (free : s.locked = false) :
    Steps s .lock { s with worker := .peek, locked := true }
  | wait (hw : s.worker = .peek) (early : ∀ p ∈ s.queue, s.now < p.deadline) :
    Steps s .wait { s with worker := .lock, locked := false }
  | pop {i p} (hw : s.worker = .peek) (hi : s.queue[i]? = some p) (due : p.deadline ≤ s.now)
      (first : ∀ q ∈ s.queue, p.deadline ≤ q.deadline) :
    Steps s (.pop i) { s with worker := .unlock p, queue := s.queue.eraseIdx i }
  | unlock {p} (hw : s.worker = .unlock p) :
    Steps s .unlock { s with worker := .read p, locked := false }
  | read {p} (hw : s.worker = .read p) :
    Steps s .read { s with
      worker := if s.cancelled p.entry then .lock else .invoke p
      stale := s.touch p }
  | invoke {p} (hw : s.worker = .invoke p) :
    Steps s .invoke { s with
      worker := .lock
      invoked := s.invoked ++ [p]
      stale := s.touch p }

theorem steps_of_step {s t : State α β γ} {a : Act α β γ} (next : step s a = some t) :
    Steps s a t := by
  cases a with
  | tick d =>
    cases next
    exact .tick
  | callAfter e r =>
    simp only [step] at next
    split at next <;> cases next
    exact .callAfter ‹_› ‹_›
  | advance e =>
    simp only [step, State.advance] at next
    cases hc : s.caller e with
    | idle =>
      rw [hc] at next
      cases next
    | lockPush r deadline =>
      simp only [hc] at next
      split at next <;> rename_i free <;> cases next
      exact .lockPush hc (by simpa using free)
    | lockEvict before =>
      simp only [hc] at next
      split at next <;> rename_i free <;> cases next
      exact .lockEvict hc (by simpa using free)
    | clear | clock | push | unlockPush | set | evict | unlockEvict =>
      simp only [hc] at next
      cases next
      constructor
      exact hc
  | lock =>
    simp only [step] at next
    split at next
    · rename_i hw
      split at next <;> rename_i free <;> cases next
      exact .lock hw (by simpa using free)
    · cases next
  | wait =>
    simp only [step] at next
    split at next
    · rename_i hw
      split at next <;> rename_i early <;> cases next
      exact .wait hw early
    · cases next
  | pop i =>
    simp only [step] at next
    split at next
    · rename_i p hw hi
      split at next <;> rename_i due <;> cases next
      exact .pop hw hi due.1 due.2
    · cases next
  | cancel | unlock | read | invoke =>
    simp only [step] at next
    split at next <;> cases next
    constructor
    assumption

/-- No `cancel` returns while the worker holds a timer of its entry that was armed before
the `cancel` began. -/
def Settled (s : State α β γ) : Act α β γ → Prop
  | .advance e => ∀ before p, s.caller e = .unlockEvict before → s.worker.held = some p →
      p.entry = e → before ≤ p.arm
  | .tick _ | .callAfter _ _ | .cancel _ | .lock | .wait | .pop _ | .unlock | .read | .invoke =>
    True

variable {s t : State α β γ} {a : Act α β γ} {p : Pending α β γ}

/-- When the `cancel` in progress began. -/
def Caller.before : Caller β γ → Option Nat
  | .set before | .lockEvict before | .evict before | .unlockEvict before => some before
  | .idle | .clear _ | .clock _ | .lockPush _ _ | .push _ _ | .unlockPush => none

/- No timer that a `cancel` was the end of is in the queue or with the worker, and a
   `cancel` that has evicted its entry left none of its timers in the queue. -/
structure Inv (s : State α β γ) : Prop where
  queue : ∀ p ∈ s.queue, ¬ s.Dead p
  held : ∀ p, s.worker.held = some p → ¬ s.Dead p
  evicted : ∀ e before, s.caller e = .unlockEvict before →
    ∀ p ∈ s.queue, p.entry = e → before ≤ p.arm
  began : ∀ e before, (s.caller e).before = some before → before ≤ s.arms
  returned : ∀ e, s.dead e ≤ s.arms
  stale : s.stale = []

omit [DecidableEq α] in
theorem inv_init : Inv (init : State α β γ) := by
  constructor <;> simp [init, Worker.held, Caller.before]

omit [DecidableEq α] in
theorem dead_congr (dead : t.dead = s.dead) : t.Dead p ↔ s.Dead p := by
  simp only [State.Dead, dead]

omit [DecidableEq α] in
theorem Inv.work (h : Inv s) (caller : t.caller = s.caller) (queue : ∀ p ∈ t.queue, p ∈ s.queue)
    (held : ∀ p, t.worker.held = some p → s.worker.held = some p ∨ p ∈ s.queue)
    (dead : t.dead = s.dead) (arms : t.arms = s.arms) (stale : t.stale = s.stale) : Inv t := by
  refine ⟨fun p hp => ?_, fun p hp => ?_, fun e before hc p hp => ?_, fun e before hc => ?_,
    fun e => ?_, stale.trans h.stale⟩
  · rw [dead_congr dead]
    exact h.queue p (queue p hp)
  · rw [dead_congr dead]
    exact (held p hp).elim (h.held p) (h.queue p)
  · exact h.evicted e before (caller ▸ hc) p (queue p hp)
  · rw [arms]
    exact h.began e before (caller ▸ hc)
  · rw [dead, arms]
    exact h.returned e

theorem Inv.call {e : α} {q : Caller β γ} (h : Inv s) (caller : t.caller = update s.caller e q)
    (began : ∀ before, q.before = some before → before ≤ s.arms)
    (evicted : ∀ before, q = .unlockEvict before → ∀ p ∈ t.queue, p.entry ≠ e)
    (queue : ∀ p ∈ t.queue, p ∈ s.queue) (worker : t.worker = s.worker)
    (dead : t.dead = s.dead) (arms : t.arms = s.arms) (stale : t.stale = s.stale) : Inv t := by
  refine ⟨fun p hp => ?_, fun p hp => ?_, ?_, ?_, fun e => ?_, stale.trans h.stale⟩
  · rw [dead_congr dead]
    exact h.queue p (queue p hp)
  · rw [dead_congr dead]
    exact h.held p (worker ▸ hp)
  · intro d before hc p hp he
    by_cases hd : d = e
    · subst hd
      rw [caller, update_self] at hc
      exact absurd he (evicted before hc p hp)
    · rw [caller, update_of_ne hd] at hc
      exact h.evicted d before hc p (queue p hp) he
  · intro d before hc
    rw [arms]
    by_cases hd : d = e
    · subst hd
      rw [caller, update_self] at hc
      exact began before hc
    · rw [caller, update_of_ne hd] at hc
      exact h.began d before hc
  · rw [dead, arms]
    exact h.returned e

theorem cancel_kept {d e : α} {q : Caller β γ} {before : Nat}
    (caller : t.caller = update s.caller e q) (hq : q.before = none)
    (hd : (t.caller d).before = some before) : d ≠ e ∧ t.caller d = s.caller d := by
  have hde : d ≠ e := by
    rintro rfl
    rw [caller, update_self, hq] at hd
    cases hd
  exact ⟨hde, by rw [caller, update_of_ne hde]⟩

theorem inv_push {e : α} (h : Inv s) (entry : p.entry = e) (arm : p.arm = s.arms)
    (queue : t.queue = p :: s.queue) (caller : t.caller = update s.caller e .unlockPush)
    (worker : t.worker = s.worker) (dead : t.dead = s.dead) (arms : t.arms = s.arms + 1)
    (stale : t.stale = s.stale) : Inv t := by
  refine ⟨fun q hq => ?_, fun q hq => ?_, fun d before hd q hq he => ?_, fun d before hd => ?_,
    fun d => ?_, stale.trans h.stale⟩
  · rw [dead_congr dead]
    rw [queue] at hq
    obtain rfl | hq := List.mem_cons.mp hq
    · exact Nat.not_lt.mpr (arm ▸ h.returned _)
    · exact h.queue q hq
  · rw [dead_congr dead]
    exact h.held q (worker ▸ hq)
  · obtain ⟨hde, same⟩ := cancel_kept caller rfl (by rw [hd]; rfl)
    rw [queue] at hq
    obtain rfl | hq := List.mem_cons.mp hq
    · exact absurd (he.symm.trans entry) hde
    · exact h.evicted d before (same ▸ hd) q hq he
  · obtain ⟨_, same⟩ := cancel_kept caller rfl hd
    rw [arms]
    exact Nat.le_succ_of_le (h.began d before (same ▸ hd))
  · rw [dead, arms]
    exact Nat.le_succ_of_le (h.returned d)

omit [DecidableEq α] in
theorem dead_return [DecidableEq α] {e : α} {before : Nat}
    (dead : t.dead = update s.dead e (max (s.dead e) before)) :
    t.Dead p ↔ s.Dead p ∨ p.entry = e ∧ p.arm < before := by
  simp only [State.Dead, dead]
  by_cases he : p.entry = e
  · rw [he, update_self]
    simp only [true_and]
    omega
  · rw [update_of_ne he]
    simp [he]

theorem inv_return {e : α} {before : Nat} (h : Inv s) (hc : s.caller e = .unlockEvict before)
    (settled : ∀ p, s.worker.held = some p → p.entry = e → before ≤ p.arm)
    (queue : t.queue = s.queue) (caller : t.caller = update s.caller e .idle)
    (worker : t.worker = s.worker) (dead : t.dead = update s.dead e (max (s.dead e) before))
    (arms : t.arms = s.arms) (stale : t.stale = s.stale) : Inv t := by
  have alive (p : Pending α β γ) (hp : ¬ s.Dead p) (young : p.entry = e → before ≤ p.arm) :
      ¬ t.Dead p := by
    rw [dead_return dead]
    rintro (old | ⟨he, old⟩)
    · exact hp old
    · exact Nat.not_lt.mpr (young he) old
  refine ⟨fun p hp => ?_, fun p hp => ?_, fun d before' hd => ?_, fun d before' hd => ?_,
    fun d => ?_, stale.trans h.stale⟩
  · rw [queue] at hp
    exact alive p (h.queue p hp) (h.evicted e before hc p hp)
  · rw [worker] at hp
    exact alive p (h.held p hp) (settled p hp)
  · obtain ⟨_, same⟩ := cancel_kept caller rfl (by rw [hd]; rfl)
    rw [queue]
    exact h.evicted d before' (same ▸ hd)
  · obtain ⟨_, same⟩ := cancel_kept caller rfl hd
    rw [arms]
    exact h.began d before' (same ▸ hd)
  · rw [dead, arms]
    by_cases hde : d = e
    · rw [hde, update_self]
      exact Nat.max_le.mpr ⟨h.returned e, h.began e before (by rw [hc]; rfl)⟩
    · rw [update_of_ne hde]
      exact h.returned d

omit [DecidableEq α] in
theorem touch_alive (h : ¬ s.Dead p) : s.touch p = s.stale := if_neg h

theorem inv_step (h : Inv s) (settled : Settled s a) (next : step s a = some t) : Inv t := by
  cases steps_of_step next with
  | tick => exact h.work rfl (fun _ hp => hp) (fun _ hp => .inl hp) rfl rfl rfl
  | callAfter | cancel | clear | clock | lockPush | unlockPush =>
    exact h.call rfl (by simp [Caller.before]) (by simp) (fun _ hp => hp) rfl rfl rfl rfl
  | push => exact inv_push h rfl rfl rfl rfl rfl rfl rfl rfl
  | @set e before hc | @lockEvict e before hc =>
    have began := h.began e before (by rw [hc]; rfl)
    exact h.call rfl (by simpa [Caller.before] using began) (by simp) (fun _ hp => hp) rfl rfl rfl
      rfl
  | @evict e before hc =>
    have began := h.began e before (by rw [hc]; rfl)
    exact h.call rfl (by simpa [Caller.before] using began) (by simp) (by simp +contextual) rfl rfl
      rfl rfl
  | @unlockEvict e before hc =>
    exact inv_return h hc (fun p => settled before p hc) rfl rfl rfl rfl rfl rfl
  | lock | wait => exact h.work rfl (fun _ hp => hp) (by simp [Worker.held]) rfl rfl rfl
  | pop _ hi =>
    refine h.work rfl (fun _ hp => List.mem_of_mem_eraseIdx hp) ?_ rfl rfl rfl
    rintro _ ⟨⟩
    exact .inr (List.mem_of_getElem? hi)
  | unlock hw =>
    refine h.work rfl (fun _ hp => hp) ?_ rfl rfl rfl
    rintro _ ⟨⟩
    exact .inl (by rw [hw]; rfl)
  | @read p hw =>
    have held : s.worker.held = some p := by rw [hw]; rfl
    refine h.work rfl (fun _ hp => hp) (fun q hq => ?_) rfl rfl (touch_alive (h.held p held))
    split at hq
    · cases hq
    · cases hq
      exact .inl held
  | @invoke p hw =>
    have held : s.worker.held = some p := by rw [hw]; rfl
    exact h.work rfl (fun _ hp => hp) (by simp [Worker.held]) rfl rfl (touch_alive (h.held p held))

/-! Why nothing weaker will do: a timer that dies with the worker is touched. -/

theorem late_step (held : s.worker.held = some p) (dead : s.Dead p) (next : step s a = some t) :
    t.stale ≠ [] ∨ t.worker.held = some p ∧ t.Dead p := by
  cases steps_of_step next with
  | tick | callAfter | cancel | clear | clock | lockPush | push | unlockPush | set | lockEvict
  | evict => exact .inr ⟨held, dead⟩
  | unlockEvict => exact .inr ⟨held, (dead_return rfl).mpr (.inl dead)⟩
  | lock hw | wait hw | pop hw =>
    rw [hw] at held
    cases held
  | unlock hw =>
    rw [hw] at held
    exact .inr ⟨held, dead⟩
  | read hw | invoke hw =>
    rw [hw] at held
    cases held
    exact .inl (by simp [State.touch, dead])

theorem stale_step (h : s.stale ≠ []) (next : step s a = some t) : t.stale ≠ [] := by
  cases steps_of_step next with
  | read | invoke =>
    simp only [State.touch]
    split <;> simp [h]
  | tick | callAfter | cancel | clear | clock | lockPush | push | unlockPush | set | lockEvict
  | evict | unlockEvict | lock | wait | pop | unlock => exact h

/-- Where a `cancel` returns too early, the worker is left with a dead timer. -/
theorem late_of_unsettled (h : ¬ Settled s a) (next : step s a = some t) :
    ∃ p, t.worker.held = some p ∧ t.Dead p := by
  cases a with
  | advance e =>
    simp only [Settled, not_forall, Nat.not_le] at h
    obtain ⟨before, p, hc, held, he, old⟩ := h
    simp only [step, State.advance, hc] at next
    cases next
    exact ⟨p, held, (dead_return rfl).mpr (.inr ⟨he, old⟩)⟩
  | tick | callAfter | cancel | lock | wait | pop | unlock | read | invoke =>
    exact absurd trivial h

/-- A run is settled so far, or the worker has touched a dead timer or is about to. -/
theorem run_phases {as : List (Act α β γ)} (run : Run step Free init as s) :
    Run step Settled init as s ∧ Inv s ∨ s.stale ≠ [] ∨
      ∃ p, s.worker.held = some p ∧ s.Dead p := by
  induction run with
  | nil => exact .inl ⟨.nil, inv_init⟩
  | @snoc as a s t _ _ next ih =>
    obtain ⟨run, inv⟩ | touched | ⟨p, held, dead⟩ := ih
    · by_cases settled : Settled s a
      · exact .inl ⟨run.snoc settled next, inv_step inv settled next⟩
      · exact .inr (.inr (late_of_unsettled settled next))
    · exact .inr (.inl (stale_step touched next))
    · obtain touched | late := late_step held dead next
      · exact .inr (.inl touched)
      · exact .inr (.inr ⟨p, late⟩)

/-- In every run in which no `cancel` returns while the worker holds a timer of its entry
that was armed before, the worker never reads the entry or invokes the callout of a timer
after a `cancel` of it returned; and a run that ends with the worker between two timers and
without such an access is such a run. -/
theorem cancel_final {as : List (Act α β γ)} (run : Run step Free init as s) :
    (Run step Settled init as s → s.stale = []) ∧
    (s.worker.held = none → s.stale = [] → Run step Settled init as s) := by
  constructor
  · intro settled
    exact (settled.invariant inv_init fun _ _ _ h g next => inv_step h g next).stale
  · intro idle clean
    obtain ⟨settled, _⟩ | touched | ⟨p, held, _⟩ := run_phases run
    · exact settled
    · exact absurd clean touched
    · rw [idle] at held
      cases held

def timely : List (Act Nat Unit Nat) :=
  [.callAfter 0 ⟨5, (), 1⟩, .advance 0, .advance 0, .advance 0, .advance 0, .advance 0,
   .cancel 0, .advance 0, .advance 0, .advance 0, .advance 0, .tick 5, .lock, .wait]

theorem cancel_final_timely : ∃ s : State Nat Unit Nat,
    Run step Settled init timely s ∧ s.stale = [] := by
  have run : Run step Free (init : State Nat Unit Nat) timely _ := run_of_exec rfl
  obtain ⟨clean, settled⟩ := cancel_final run
  have settled := settled rfl rfl
  exact ⟨_, settled, clean settled⟩

/-- The worker pops the timer, the whole `cancel` runs, and a new user of the address arms it
with context 2 before the worker reads the flag. -/
def reused : List (Act Nat Unit Nat) :=
  [.callAfter 0 ⟨5, (), 1⟩, .advance 0, .advance 0, .advance 0, .advance 0, .advance 0,
   .tick 5, .lock, .pop 0, .unlock, .cancel 0, .advance 0, .advance 0, .advance 0, .advance 0,
   .callAfter 0 ⟨5, (), 2⟩, .advance 0, .read, .invoke]

/-- The cancelled callout is invoked on its old context. -/
theorem cancelled_callout_invoked : ∃ s : State Nat Unit Nat,
    Run step Free init reused s ∧ s.caller 0 = .clock ⟨5, (), 2⟩ ∧
      s.invoked = [⟨5, 0, 1, (), 0⟩] ∧ s.stale = [⟨5, 0, 1, (), 0⟩, ⟨5, 0, 1, (), 0⟩] :=
  ⟨_, run_of_exec rfl, rfl, rfl, rfl⟩

end Px4Rs.MockHrt
