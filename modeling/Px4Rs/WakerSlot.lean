import Mathlib.Data.List.Range
import Px4Rs.WakerLive

/-! The slot of an `AtomicWaker` under any number of threads, several of them registering at
once: one thread at a time has the right to access it, and no waker is lost from it or leaves
it twice. -/
namespace Px4Rs.WakerSlot
open Px4Rs.Runs Px4Rs.AtomicWaker Px4Rs.WakerLive Function
variable {κ ω : Type*} [DecidableEq κ]

/-- What an operation does to the slot: it stores a waker, or takes what is there. -/
inductive Access (ω : Type*) where
  | store (w : ω)
  | take

def access : Call ω → Option (Access ω)
  | .register (.write w) => some (.store w)
  | .register .drain | .wake .takeSlot | .take .takeSlot => some .take
  | _ => none

/-- The `debug_assert` behind the next operation of the call, if there is one: the last arm of
`register`'s first match, and the failure of its second `compare_exchange`. -/
def Asserted (x : BitVec 64) : Call ω → Prop
  | .register (.acquire _) => x ≠ waiting → x ≠ waking →
      x = registering ∨ x = registering ||| waking
  | .register .release => x ≠ registering → x = registering ||| waking
  | _ => True

/- The calls with the history of the slot: the wakers stored in it, the number of the one that
   is there, and the numbers of those that have left it, replaced or taken. -/
structure History (κ ω : Type*) where
  state : WakerLive.State κ ω
  stores : List ω
  slot : Option Nat
  left : List Nat

def start : History κ ω := ⟨WakerLive.init, [], none, []⟩

/-- The history after an operation that led to `t`. -/
def record (s : History κ ω) (t : WakerLive.State κ ω) : Option (Access ω) → History κ ω
  | none => { s with state := t }
  | some (.store w) =>
    { state := t
      stores := s.stores ++ [w]
      slot := some s.stores.length
      left := s.left ++ s.slot.toList }
  | some .take => { s with state := t, slot := none, left := s.left ++ s.slot.toList }

def accessOf (s : WakerLive.State κ ω) : Act κ ω → Option (Access ω)
  | .step c => access (s.calls.call c)
  | .register _ _ | .wake _ | .take _ => none

def step (s : History κ ω) (a : Act κ ω) : Option (History κ ω) :=
  (WakerLive.step s.state a).map fun t => record s t (accessOf s.state a)

variable {s t : History κ ω} {a : Act κ ω} {w : ω} {p : Call ω}

/-! The slot's contents. -/

omit [DecidableEq κ] in
theorem step_waker (p : Call ω) (cell : AtomicWaker ω) :
    (p.step cell).cell.waker =
      match access p with
      | none => cell.waker
      | some (.store w) => some w
      | some .take => none := by
  cases p with
  | idle => rfl
  | register p =>
    cases p with
    | acquire w =>
      simp only [Call.step, Register.step, access]
      split
      · rfl
      split <;> rfl
    | release =>
      simp only [Call.step, Register.step, access]
      split <;> rfl
    | write | drain | swap | invoke | done => rfl
  | wake p | take p => cases p <;> rfl

/- Every waker that was stored is in the slot or has left it, once, and the slot has the waker
   of the store whose number it has. -/
structure Inv (s : History κ ω) : Prop where
  exclusive : Exclusive s.state.calls
  kept : (s.left ++ s.slot.toList).Perm (List.range s.stores.length)
  waker : s.state.calls.cell.waker = s.slot.bind fun n => s.stores[n]?

omit [DecidableEq κ] in
theorem inv_start : Inv (start : History κ ω) := ⟨exclusive_new, .nil, rfl⟩

theorem inv_step (h : Inv s) (next : step s a = some t) : Inv t := by
  obtain ⟨r, moved, rfl⟩ := Option.map_eq_some_iff.mp next
  have exclusive := exclusive_step h.exclusive moved
  obtain ⟨c, p, ha, _, _, rfl⟩ | ⟨c, rfl, rfl⟩ := step_cases moved
  · have none : accessOf s.state a = none := by cases a <;> first | rfl | cases ha
    rw [none] at *
    exact ⟨exclusive, h.kept, h.waker⟩
  have waker := step_waker (s.state.calls.call c) s.state.calls.cell
  simp only [accessOf]
  cases hp : access (s.state.calls.call c) with
  | none =>
    rw [hp] at waker
    exact ⟨exclusive, h.kept, waker.trans h.waker⟩
  | some x =>
    cases x with
    | store w =>
      rw [hp] at waker
      refine ⟨exclusive, ?_, waker.trans (by simp [record])⟩
      simp only [record, Option.toList_some, List.length_append, List.length_singleton,
        List.range_succ]
      exact h.kept.append_right _
    | take =>
      rw [hp] at waker
      refine ⟨exclusive, ?_, waker⟩
      simpa [record] using h.kept

/-- The history restricts no run. -/
theorem exists_history {as : List (Act κ ω)} {r : WakerLive.State κ ω} :
    Run WakerLive.step Free WakerLive.init as r ↔
      ∃ s, Run step Free start as s ∧ s.state = r := by
  constructor
  · intro run
    induction run with
    | nil => exact ⟨start, .nil, rfl⟩
    | @snoc as a r r' _ _ next ih =>
      obtain ⟨s, run, rfl⟩ := ih
      refine ⟨record s r' (accessOf s.state a), run.snoc trivial (by rw [step, next]; rfl), ?_⟩
      cases h : accessOf s.state a with
      | none => rfl
      | some x => cases x <;> rfl
  · rintro ⟨s, run, rfl⟩
    induction run with
    | nil => exact .nil
    | @snoc as a s t _ _ next ih =>
      obtain ⟨r, moved, rfl⟩ := Option.map_eq_some_iff.mp next
      refine ih.snoc trivial (moved.trans (congrArg some ?_))
      cases h : accessOf s.state a with
      | none => rfl
      | some x => cases x <;> rfl

/-! The state word. -/

omit [DecidableEq κ] in
theorem words_of_holds (hp : p.holds = true) {x : BitVec 64} (h : p.allows x) :
    x = registering ∨ x = waking ∨ x = registering ||| waking := by
  unfold Call.holds at hp
  split at hp
  case h_9 => cases hp
  all_goals simp only [Call.allows] at h
  all_goals tauto

omit [DecidableEq κ] in
theorem words {c : Calls κ ω} (h : Exclusive c) : c.cell.state = waiting ∨
    c.cell.state = registering ∨ c.cell.state = waking ∨ c.cell.state = registering ||| waking := by
  obtain idle | ⟨u, hu⟩ := h.free
  · exact .inl idle
  · exact .inr (words_of_holds hu (h.word u hu))

omit [DecidableEq κ] in
theorem asserted {c : Calls κ ω} (h : Exclusive c) (u : κ) : Asserted c.cell.state (c.call u) := by
  have all := words h
  have word := h.word u
  unfold Asserted
  split
  · intro busy registers
    tauto
  · rename_i hu
    rw [hu] at word
    exact (word rfl).resolve_left
  · trivial

/-- In every reachable state at most one thread holds the slot, only a thread that holds it is
about to access it, the word is one of 0 to 3, no `debug_assert` is about to fail, and each
waker that was stored has left the slot once or is the one that is still there. -/
theorem slot_exclusive {as : List (Act κ ω)} (run : Run step Free start as s) :
    (∀ c d, (s.state.calls.call c).holds = true → (s.state.calls.call d).holds = true → c = d) ∧
    (∀ c x, access (s.state.calls.call c) = some x → (s.state.calls.call c).holds = true) ∧
    s.state.calls.cell.state.toNat ≤ 3 ∧
    (∀ c, Asserted s.state.calls.cell.state (s.state.calls.call c)) ∧
    (s.left ++ s.slot.toList).Perm (List.range s.stores.length) ∧
    s.state.calls.cell.waker = s.slot.bind fun n => s.stores[n]? := by
  have h : Inv s := run.invariant inv_start fun _ _ _ hs _ => inv_step hs
  refine ⟨h.exclusive.sole, ?_, ?_, asserted h.exclusive, h.kept, h.waker⟩
  · intro c x hx
    unfold access at hx
    unfold Call.holds
    split at hx <;> simp_all
  · obtain hw | hw | hw | hw := words h.exclusive <;> rw [hw] <;> decide

/-- Thread `false` registers and then wakes while `true` has the slot: `true` takes out again
what it has stored. -/
theorem slot_exclusive_raced : ∃ s : History Bool Nat, s.stores = [7] ∧ s.left = [0] ∧
    (s.left ++ s.slot.toList).Perm (List.range s.stores.length) ∧
    s.state.calls.cell.waker = s.slot.bind fun n => s.stores[n]? := by
  obtain ⟨s, run, test⟩ := exists_run step Free (start : History Bool Nat)
    [.register true 7, .step true, .step true, .register false 8, .step false, .wake false,
      .step false, .step true, .step true, .step true, .step true]
    (fun s => s.stores = [7] ∧ s.left = [0]) rfl
  obtain ⟨stores, left⟩ : s.stores = [7] ∧ s.left = [0] := by simpa using test
  exact ⟨s, stores, left, (slot_exclusive run).2.2.2.2⟩

end Px4Rs.WakerSlot
