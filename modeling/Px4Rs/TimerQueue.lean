import Mathlib.Algebra.Order.Group.Multiset
import Mathlib.Tactic.Abel
import Px4Rs.MaxHeap
import Px4Rs.MockHrt

/-! The host's timer queue as the heap it is. The steps are the sections of `call_after`, of
`cancel` and of the worker's pop that hold the queue's lock. -/
namespace Px4Rs.TimerQueue
open Px4Rs.Runs Px4Rs.MaxHeap
open Px4Rs.MockHrt (Pending)
universe u v x
variable {α : Type u} {β : Type v} {γ : Type x}

/-- `Ord for Pending`, inverted: the greatest is the earliest. -/
def cmp (p q : Pending α β γ) : Ordering := compare q.deadline p.deadline

instance : Std.TransCmp (cmp : Pending α β γ → Pending α β γ → Ordering) where
  eq_swap := Std.OrientedOrd.eq_swap
  isLE_trans := fun hab hbc => Std.TransOrd.isLE_trans hbc hab

theorem isLE_cmp {p q : Pending α β γ} : (cmp p q).isLE = true ↔ q.deadline ≤ p.deadline :=
  Nat.isLE_compare

/- The queue is any heap for this order. `armed`, `popped` and `evicted` are history; an
   entry's `arm` is its number among the `armed`. -/
structure State (api : Api (Pending α β γ) cmp) where
  now : Nat
  queue : api.Heap
  armed : List (Pending α β γ)
  popped : List (Pending α β γ)
  evicted : List (Pending α β γ)

variable {api : Api (Pending α β γ) cmp}

def init : State api where
  now := 0
  queue := api.new
  armed := []
  popped := []
  evicted := []

def State.pending (s : State api) : Multiset (Pending α β γ) := api.items s.queue

inductive Act (α : Type u) (β : Type v) (γ : Type x) where
  | tick (d : Nat)
  | callAfter (e : α) (deadline : Nat) (callout : β) (ctx : γ)
  | cancel (e : α)
  | pop

def step [DecidableEq α] (s : State api) : Act α β γ → Option (State api)
  | .tick d => some { s with now := s.now + d }
  | .callAfter e deadline callout ctx =>
    let p : Pending α β γ := ⟨deadline, e, ctx, callout, s.armed.length⟩
    some { s with queue := api.push s.queue p, armed := s.armed ++ [p] }
  | .cancel e =>
    let all := api.drain s.queue
    some { s with
      queue := api.ofVec (all.filter fun p => p.entry ≠ e)
      evicted := s.evicted ++ all.filter fun p => p.entry = e }
  -- the worker waits while nothing is there or due; its `unwrap` fails on an empty heap
  | .pop =>
    match api.peek s.queue with
    | none => none
    | some top =>
      if top.deadline ≤ s.now then
        (api.pop s.queue).map fun (p, rest) => { s with queue := rest, popped := s.popped ++ [p] }
      else none

variable [DecidableEq α] {s t : State api} {a : Act α β γ} {e : α}

/-! What the sections do to the timers in the queue. -/

omit [DecidableEq α] in
@[simp] theorem pending_push (p : Pending α β γ) (armed : List (Pending α β γ)) :
    { s with queue := api.push s.queue p, armed }.pending = p ::ₘ s.pending :=
  api.items_push ..

theorem cancel_spec (next : step s (.cancel e) = some t) :
    t.pending = s.pending.filter (fun p => p.entry ≠ e) ∧
      (t.evicted : Multiset (Pending α β γ)) = s.evicted + s.pending.filter (fun p => p.entry = e) ∧
      t.popped = s.popped ∧ t.armed = s.armed := by
  cases next
  refine ⟨api.items_retain _ _, ?_, rfl, rfl⟩
  rw [← Multiset.coe_add, ← Multiset.filter_coe, api.items_drain]
  rfl

theorem pop_spec (next : step s .pop = some t) :
    ∃ p, t.popped = s.popped ++ [p] ∧ s.pending = p ::ₘ t.pending ∧ p.deadline ≤ s.now ∧
      (∀ q ∈ s.pending, p.deadline ≤ q.deadline) ∧ t.now = s.now ∧ t.armed = s.armed ∧
      t.evicted = s.evicted := by
  simp only [step] at next
  split at next
  · cases next
  · rename_i top peek
    split at next
    · rename_i due
      obtain ⟨⟨p, rest⟩, pop, rfl⟩ := Option.map_eq_some_iff.mp next
      obtain ⟨⟨_, first⟩, items⟩ := api.pop_some _ _ _ pop
      have earliest := isLE_cmp.mp (first top (api.peek_some _ _ peek).1)
      exact ⟨p, rfl, items, earliest.trans due, fun q hq => isLE_cmp.mp (first q hq), rfl, rfl,
        rfl⟩
    · cases next

/-- Whenever a timer is due the worker pops one. -/
theorem pop_of_due {q : Pending α β γ} (hq : q ∈ s.pending) (due : q.deadline ≤ s.now) :
    ∃ t, step s .pop = some t := by
  simp only [step]
  cases peek : api.peek s.queue with
  | none =>
    rw [State.pending, api.peek_none _ peek] at hq
    exact absurd hq (Multiset.notMem_zero q)
  | some top =>
    obtain ⟨p, rest, pop⟩ := api.pop_of_peek peek
    have first := isLE_cmp.mp ((api.peek_some _ _ peek).2 q hq)
    simp [first.trans due, pop]

/-! Whole runs. -/

/-- Every timer armed is in one place, and they are numbered. -/
structure Inv (s : State api) : Prop where
  kept : (s.armed : Multiset (Pending α β γ)) = s.pending + s.popped + s.evicted
  numbered : s.armed.map (·.arm) = List.range s.armed.length

omit [DecidableEq α] in
theorem inv_init : Inv (init : State api) :=
  ⟨by simp [init, State.pending], rfl⟩

theorem inv_step (inv : Inv s) (next : step s a = some t) : Inv t := by
  obtain ⟨kept, numbered⟩ := inv
  cases a with
  | tick d =>
    cases next
    exact ⟨kept, numbered⟩
  | callAfter e deadline callout ctx =>
    cases next
    refine ⟨?_, by simp [numbered, List.range_succ]⟩
    rw [pending_push, Multiset.cons_add, Multiset.cons_add, ← kept, ← Multiset.coe_add,
      Multiset.coe_singleton, add_comm, Multiset.singleton_add]
  | cancel e =>
    obtain ⟨pending, evicted, popped, armed⟩ := cancel_spec next
    refine ⟨?_, armed ▸ numbered⟩
    have parts : s.pending = s.pending.filter (fun p => p.entry = e) +
        s.pending.filter (fun p => p.entry ≠ e) := (Multiset.filter_add_not ..).symm
    calc (t.armed : Multiset (Pending α β γ)) = s.pending + s.popped + s.evicted := by
          rw [armed, kept]
      _ = t.pending + t.popped + t.evicted := by
          rw [pending, evicted, popped]
          nth_rewrite 1 [parts]
          abel
  | pop =>
    obtain ⟨p, popped, pending, _, _, _, armed, evicted⟩ := pop_spec next
    refine ⟨?_, armed ▸ numbered⟩
    rw [popped, armed, evicted, kept, pending, ← Multiset.coe_add, Multiset.coe_singleton,
      ← Multiset.singleton_add]
    abel

theorem inv_run {as : List (Act α β γ)} (run : Run step Free (init : State api) as s) : Inv s :=
  run.invariant inv_init fun _ _ _ inv _ => inv_step inv

omit [DecidableEq α] in
theorem Inv.popped_le (inv : Inv s) : (s.popped : Multiset (Pending α β γ)) ≤ s.armed := by
  rw [inv.kept, add_assoc, add_left_comm]
  exact Multiset.le_add_right ..

omit [DecidableEq α] in
theorem Inv.popped_once (inv : Inv s) : (s.popped.map (·.arm)).Nodup := by
  have le := Multiset.map_le_map (f := fun p => p.arm) inv.popped_le
  rw [Multiset.map_coe, Multiset.map_coe, inv.numbered] at le
  exact Multiset.coe_nodup.mp (Multiset.nodup_of_le le (Multiset.coe_nodup.mpr List.nodup_range))

/-- In every run no timer is lost and none is popped twice; a timer is popped only when it is
due and no pending one is due earlier, and some timer is popped as soon as one is due; and
`cancel` takes all timers of its entry out of the queue and no others. -/
theorem fires_in_order {as : List (Act α β γ)} (run : Run step Free (init : State api) as s) :
    (s.armed : Multiset (Pending α β γ)) = s.pending + s.popped + s.evicted ∧
    (s.armed.map (·.arm)).Nodup ∧ (s.popped.map (·.arm)).Nodup ∧
    (∀ t, step s .pop = some t → ∃ p, t.popped = s.popped ++ [p] ∧
      s.pending = p ::ₘ t.pending ∧ p.deadline ≤ s.now ∧ ∀ q ∈ s.pending, p.deadline ≤ q.deadline) ∧
    (∀ q ∈ s.pending, q.deadline ≤ s.now → ∃ t, step s .pop = some t) ∧
    ∀ e t, step s (.cancel e) = some t → (∀ p ∈ t.pending, p.entry ≠ e) ∧
      t.pending.filter (fun p => p.entry ≠ e) = s.pending.filter (fun p => p.entry ≠ e) ∧
      t.popped = s.popped := by
  have inv := inv_run run
  refine ⟨inv.kept, inv.numbered ▸ List.nodup_range, inv.popped_once, fun t next => ?_,
    fun q hq due => pop_of_due hq due, fun e t next => ?_⟩
  · obtain ⟨p, popped, pending, due, first, _⟩ := pop_spec next
    exact ⟨p, popped, pending, due, first⟩
  · obtain ⟨pending, _, popped, _⟩ := cancel_spec next
    refine ⟨fun p hp => ?_, ?_, popped⟩
    · rw [pending, Multiset.mem_filter] at hp
      exact hp.2
    · rw [pending, Multiset.filter_filter]
      simp

def repeated : List (Act Nat Unit Unit) :=
  [.callAfter 1 5 () (), .callAfter 2 5 () (), .callAfter 1 3 () (), .tick 4, .pop, .cancel 1,
    .tick 4, .pop]

theorem fires_in_order_repeated : ∃ s : State (MaxHeap.list (cmp (α := Nat))),
    Run step Free init repeated s ∧ s.popped.map (·.arm) = [2, 1] ∧
      (s.popped.map (·.arm)).Nodup ∧ s.evicted.map (·.arm) = [0] := by
  have run : Run step Free (init : State (MaxHeap.list cmp)) repeated _ := run_of_exec rfl
  exact ⟨_, run, rfl, (fires_in_order run).2.2.1, rfl⟩

/-! The queue of the model in which the threads and the worker take these sections step by
step is this heap. -/

def Matches (s : State api) (m : MockHrt.State α β γ) : Prop :=
  m.now = s.now ∧ s.pending = m.queue ∧ m.arms = s.armed.length

variable {m : MockHrt.State α β γ}

theorem matches_push {r : MockHrt.Request β γ} {deadline : Nat} (same : Matches s m)
    (caller : m.caller e = .push r deadline)
    (next : step s (.callAfter e deadline r.callout r.ctx) = some t) :
    ∃ m', MockHrt.step m (.advance e) = some m' ∧ Matches t m' := by
  obtain ⟨now, queue, arms⟩ := same
  cases next
  have moved : MockHrt.step m (.advance e) = some { m with
      queue := ⟨deadline, e, r.ctx, r.callout, m.arms⟩ :: m.queue
      caller := Function.update m.caller e .unlockPush
      arms := m.arms + 1 } := by
    simp [MockHrt.step, MockHrt.State.advance, caller]
  refine ⟨_, moved, now, ?_, by simp [arms]⟩
  rw [pending_push, queue, ← arms]
  rfl

theorem matches_evict {before : Nat} (same : Matches s m) (caller : m.caller e = .evict before)
    (next : step s (.cancel e) = some t) :
    ∃ m', MockHrt.step m (.advance e) = some m' ∧ Matches t m' := by
  obtain ⟨now, queue, arms⟩ := same
  obtain ⟨pending, _, _, _⟩ := cancel_spec next
  cases next
  have moved : MockHrt.step m (.advance e) = some { m with
      queue := m.queue.filter fun p => p.entry ≠ e
      caller := Function.update m.caller e (.unlockEvict before) } := by
    simp [MockHrt.step, MockHrt.State.advance, caller]
  refine ⟨_, moved, now, ?_, arms⟩
  rw [pending, queue]
  rfl

theorem matches_pop (same : Matches s m) (worker : m.worker = .peek)
    (next : step s .pop = some t) :
    ∃ i m', MockHrt.step m (.pop i) = some m' ∧ Matches t m' := by
  obtain ⟨now, queue, arms⟩ := same
  obtain ⟨p, _, pending, due, first, same_now, armed, _⟩ := pop_spec next
  rw [queue] at pending first
  obtain ⟨i, hi, rfl⟩ := List.mem_iff_getElem.mp
    (Multiset.mem_coe.mp (pending ▸ Multiset.mem_cons_self p _))
  have moved : MockHrt.step m (.pop i) = some { m with
      worker := .unlock m.queue[i], queue := m.queue.eraseIdx i } := by
    simpa [MockHrt.step, worker, hi, now] using ⟨due, fun q hq => first q hq⟩
  have rest : t.pending = m.queue.eraseIdx i := by
    have perm := Multiset.coe_eq_coe.mpr (List.getElem_cons_eraseIdx_perm hi)
    rw [pending, ← Multiset.cons_coe] at perm
    exact ((Multiset.cons_inj_right _).mp perm).symm
  exact ⟨i, _, moved, now.trans same_now.symm, rest, by rw [armed]; exact arms⟩

end Px4Rs.TimerQueue
