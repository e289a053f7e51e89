import Px4Rs.Runs
import Mathlib.Logic.Function.Basic
import Mathlib.Data.BitVec

/-! One `WorkItemCell` under `try_spawn`, `poll_once` and the waker vtable. Every
atomic operation, slot access and queue operation is a step of its own, and the
calls of any number of threads interleave with the Runs of the work item. -/
namespace Px4Rs.TaskCell
open Px4Rs.Runs Function
variable {τ : Type*} [DecidableEq τ]

/-! The state word. -/

abbrev Word := BitVec 8

def spawned : Word := 0b0000_0001#8
def runQueued : Word := 0b0000_0010#8

def isSpawned (w : Word) : Bool := w &&& spawned != 0
def isQueued (w : Word) : Bool := w &&& runQueued != 0

@[simp] theorem isSpawned_or_runQueued (w : Word) :
    isSpawned (w ||| runQueued) = isSpawned w := by
  revert w; decide +kernel

@[simp] theorem isSpawned_and_not_runQueued (w : Word) :
    isSpawned (w &&& ~~~runQueued) = isSpawned w := by
  revert w; decide +kernel

@[simp] theorem isQueued_or_runQueued (w : Word) : isQueued (w ||| runQueued) = true := by
  revert w; decide +kernel

@[simp] theorem isQueued_and_not_runQueued (w : Word) :
    isQueued (w &&& ~~~runQueued) = false := by
  revert w; decide +kernel

@[simp] theorem isSpawned_spawned : isSpawned spawned = true := rfl
@[simp] theorem isSpawned_zero : isSpawned 0#8 = false := rfl
@[simp] theorem isQueued_zero : isQueued 0#8 = false := rfl

/-! Shared memory, local positions and the work queue. -/

/-- What the `MaybeUninit` slot holds; futures are numbered as they are accepted. -/
inductive Slot where
  | uninit
  | live (f : Nat)
  | ready (f : Nat)
  | dropped (f : Nat)
deriving DecidableEq

inductive SpawnError where
  | busy | allocFailed
deriving DecidableEq

/-- The next operation of a thread that is inside `try_spawn` or `waker_wake_by_ref`. -/
inductive Pc where
  | idle
  | write (f : Nat)
  | loadHandle (f : Nat)
  | wiNew (f : Nat)
  | rollbackDrop (f : Nat)
  | rollbackStore
  | storeHandle (h : Nat)
  | spawnSchedule (h : Nat)
  | wakeLoad
  | wakeSchedule (h : Nat)
deriving DecidableEq

/-- The next operation of the WorkQueue thread inside `poll_once`. -/
inductive Runner where
  | idle | fetchAnd | poll | polling | drop | store
deriving DecidableEq

/- `handle` is the atomic pointer (`none` is null) and `queued` counts the entries of
   this work item in its WorkQueue. `cloned`, `accepted`, `drops` and `allocs` are
   history: whether a Waker was ever made, the futures accepted so far, how often each
   was dropped, and the successful `wi_new` calls. -/
structure State (τ : Type*) where
  word : Word
  handle : Option Nat
  slot : Slot
  queued : Nat
  runner : Runner
  pc : τ → Pc
  outcome : τ → Option (Except SpawnError Unit)
  cloned : Bool
  accepted : Nat
  drops : Nat → Nat
  allocs : Nat

def init : State τ where
  word := 0#8
  handle := none
  slot := .uninit
  queued := 0
  runner := .idle
  pc := fun _ => .idle
  outcome := fun _ => none
  cloned := false
  accepted := 0
  drops := fun _ => 0
  allocs := 0

/- Labels carry the thread with the values it holds, the result of `wi_new`, whether
   the queue coalesces a schedule, and what the future's `poll` returned. -/
inductive Act (τ : Type*) where
  | spawn (t : τ)
  | write (t : τ) (f : Nat)
  | loadHandle (t : τ) (f : Nat)
  | wiNew (t : τ) (f : Nat) (r : Option Nat)
  | rollbackDrop (t : τ) (f : Nat)
  | rollbackStore (t : τ)
  | storeHandle (t : τ) (h : Nat)
  | spawnSchedule (t : τ) (h : Nat) (coalesce : Bool)
  | wake (t : τ)
  | wakeLoad (t : τ)
  | wakeSchedule (t : τ) (h : Nat) (coalesce : Bool)
  | pop
  | fetchAnd
  | poll
  | pending
  | ready
  | drop
  | store
deriving DecidableEq

/-- The future the slot's bytes belong to, dead or alive. -/
def Slot.future : Slot → Option Nat
  | .uninit => none
  | .live f | .ready f | .dropped f => some f

def Slot.bury (x : Slot) : Slot := x.future.elim x .dropped

/-- `assume_init_drop` on the slot. -/
@[simps] def State.dropSlot (s : State τ) : State τ :=
  { s with
    slot := s.slot.bury
    drops := s.slot.future.elim s.drops fun f => update s.drops f (s.drops f + 1) }

@[simps] def State.goto (s : State τ) (t : τ) (p : Pc) : State τ :=
  { s with pc := update s.pc t p }

@[simps] def State.finish (s : State τ) (t : τ) (r : Except SpawnError Unit) : State τ :=
  { s with pc := update s.pc t .idle, outcome := update s.outcome t (some r) }

/-- `wi_schedule_now`: an item that is already queued may be coalesced. -/
@[simps] def State.schedule (s : State τ) (coalesce : Bool) : State τ :=
  { s with queued := if coalesce ∧ 0 < s.queued then s.queued else s.queued + 1 }

def step (s : State τ) : Act τ → Option (State τ)
  | .spawn t =>
    if s.pc t = .idle then
      if s.word = 0#8 then
        some { s.goto t (.write s.accepted) with
          word := spawned ||| runQueued, accepted := s.accepted + 1 }
      else some (s.finish t (.error .busy))
    else none
  | .write t f =>
    if s.pc t = .write f then some { s.goto t (.loadHandle f) with slot := .live f } else none
  | .loadHandle t f =>
    if s.pc t = .loadHandle f then
      match s.handle with
      | none => some (s.goto t (.wiNew f))
      | some h => some (s.goto t (.spawnSchedule h))
    else none
  | .wiNew t f r =>
    if s.pc t = .wiNew f then
      match r with
      | none => some (s.goto t (.rollbackDrop f))
      | some h => some { s.goto t (.storeHandle h) with allocs := s.allocs + 1 }
    else none
  | .rollbackDrop t f =>
    if s.pc t = .rollbackDrop f then some (s.dropSlot.goto t .rollbackStore) else none
  | .rollbackStore t =>
    if s.pc t = .rollbackStore then
      some { s.finish t (.error .allocFailed) with word := 0#8 }
    else none
  | .storeHandle t h =>
    if s.pc t = .storeHandle h then
      some { s.goto t (.spawnSchedule h) with handle := some h }
    else none
  | .spawnSchedule t h coalesce =>
    if s.pc t = .spawnSchedule h then some ((s.schedule coalesce).finish t (.ok ())) else none
  -- a Waker exists once some poll has run: only `poll_once` makes one
  | .wake t =>
    if s.pc t = .idle ∧ s.cloned then
      some { s.goto t (if isSpawned s.word ∧ ¬ isQueued s.word then .wakeLoad else .idle) with
        word := s.word ||| runQueued }
    else none
  | .wakeLoad t =>
    if s.pc t = .wakeLoad then
      match s.handle with
      | none => some (s.goto t .idle)
      | some h => some (s.goto t (.wakeSchedule h))
    else none
  | .wakeSchedule t h coalesce =>
    if s.pc t = .wakeSchedule h then some ((s.schedule coalesce).goto t .idle) else none
  | .pop =>
    if s.runner = .idle ∧ 0 < s.queued then
      some { s with runner := .fetchAnd, queued := s.queued - 1 }
    else none
  | .fetchAnd =>
    if s.runner = .fetchAnd then
      some { s with
        word := s.word &&& ~~~runQueued
        runner := if isSpawned s.word then .poll else .idle }
    else none
  | .poll => if s.runner = .poll then some { s with runner := .polling, cloned := true } else none
  | .pending => if s.runner = .polling then some { s with runner := .idle } else none
  | .ready =>
    if s.runner = .polling then
      match s.slot with
      | .live f => some { s with runner := .drop, slot := .ready f }
      -- the slot held no live future: the poll was undefined behaviour
      | _ => some { s with runner := .drop }
    else none
  | .drop => if s.runner = .drop then some { s.dropSlot with runner := .store } else none
  | .store => if s.runner = .store then some { s with word := 0#8, runner := .idle } else none

inductive Steps (s : State τ) : Act τ → State τ → Prop
  | spawn {t} (ht : s.pc t = .idle) (free : s.word = 0#8) :
    Steps s (.spawn t) { s.goto t (.write s.accepted) with
      word := spawned ||| runQueued, accepted := s.accepted + 1 }
  | busy {t} (ht : s.pc t = .idle) (taken : s.word ≠ 0#8) :
    Steps s (.spawn t) (s.finish t (.error .busy))
  | write {t f} (ht : s.pc t = .write f) :
    Steps s (.write t f) { s.goto t (.loadHandle f) with slot := .live f }
  | loadNull {t f} (ht : s.pc t = .loadHandle f) (null : s.handle = none) :
    Steps s (.loadHandle t f) (s.goto t (.wiNew f))
  | loadHandle {t f h} (ht : s.pc t = .loadHandle f) (stored : s.handle = some h) :
    Steps s (.loadHandle t f) (s.goto t (.spawnSchedule h))
  | refused {t f} (ht : s.pc t = .wiNew f) :
    Steps s (.wiNew t f none) (s.goto t (.rollbackDrop f))
  | allocated {t f h} (ht : s.pc t = .wiNew f) :
    Steps s (.wiNew t f (some h)) { s.goto t (.storeHandle h) with allocs := s.allocs + 1 }
  | rollbackDrop {t f} (ht : s.pc t = .rollbackDrop f) :
    Steps s (.rollbackDrop t f) (s.dropSlot.goto t .rollbackStore)
  | rollbackStore {t} (ht : s.pc t = .rollbackStore) :
    Steps s (.rollbackStore t) { s.finish t (.error .allocFailed) with word := 0#8 }
  | storeHandle {t h} (ht : s.pc t = .storeHandle h) :
    Steps s (.storeHandle t h) { s.goto t (.spawnSchedule h) with handle := some h }
  | spawnSchedule {t h c} (ht : s.pc t = .spawnSchedule h) :
    Steps s (.spawnSchedule t h c) ((s.schedule c).finish t (.ok ()))
  | wake {t} (ht : s.pc t = .idle) (cloned : s.cloned = true) :
    Steps s (.wake t)
      { s.goto t (if isSpawned s.word ∧ ¬ isQueued s.word then .wakeLoad else .idle) with
        word := s.word ||| runQueued }
  | wakeNull {t} (ht : s.pc t = .wakeLoad) (null : s.handle = none) :
    Steps s (.wakeLoad t) (s.goto t .idle)
  | wakeLoad {t h} (ht : s.pc t = .wakeLoad) (stored : s.handle = some h) :
    Steps s (.wakeLoad t) (s.goto t (.wakeSchedule h))
  | wakeSchedule {t h c} (ht : s.pc t = .wakeSchedule h) :
    Steps s (.wakeSchedule t h c) ((s.schedule c).goto t .idle)
  | pop (idle : s.runner = .idle) (queued : 0 < s.queued) :
    Steps s .pop { s with runner := .fetchAnd, queued := s.queued - 1 }
  | fetchAnd (runs : s.runner = .fetchAnd) :
    Steps s .fetchAnd { s with
      word := s.word &&& ~~~runQueued
      runner := if isSpawned s.word then .poll else .idle }
  | poll (runs : s.runner = .poll) :
    Steps s .poll { s with runner := .polling, cloned := true }
  | pending (runs : s.runner = .polling) : Steps s .pending { s with runner := .idle }
  | ready {f} (runs : s.runner = .polling) (live : s.slot = .live f) :
    Steps s .ready { s with runner := .drop, slot := .ready f }
  | readyUndefined (runs : s.runner = .polling) (dead : ∀ f, s.slot ≠ .live f) :
    Steps s .ready { s with runner := .drop }
  | drop (runs : s.runner = .drop) : Steps s .drop { s.dropSlot with runner := .store }
  | store (runs : s.runner = .store) : Steps s .store { s with word := 0#8, runner := .idle }

theorem steps_of_step {s t : State τ} {a : Act τ} (next : step s a = some t) : Steps s a t := by
  cases a with
  | spawn u =>
    simp only [step, Option.ite_none_right_eq_some] at next
    obtain ⟨hu, next⟩ := next
    split at next <;> rename_i word <;> cases next
    · exact .spawn hu word
    · exact .busy hu word
  | loadHandle u f =>
    simp only [step, Option.ite_none_right_eq_some] at next
    obtain ⟨hu, next⟩ := next
    split at next <;> rename_i handle <;> cases next
    · exact .loadNull hu handle
    · exact .loadHandle hu handle
  | wiNew u f r =>
    simp only [step, Option.ite_none_right_eq_some] at next
    obtain ⟨hu, next⟩ := next
    cases r <;> cases next
    · exact .refused hu
    · exact .allocated hu
  | wakeLoad u =>
    simp only [step, Option.ite_none_right_eq_some] at next
    obtain ⟨hu, next⟩ := next
    split at next <;> rename_i handle <;> cases next
    · exact .wakeNull hu handle
    · exact .wakeLoad hu handle
  | ready =>
    simp only [step, Option.ite_none_right_eq_some] at next
    obtain ⟨runs, next⟩ := next
    split at next <;> rename_i slot <;> cases next
    · exact .ready runs slot
    · exact .readyUndefined runs slot
  | wake u =>
    simp only [step, Option.ite_none_right_eq_some, Option.some.injEq] at next
    obtain ⟨⟨hu, cloned⟩, rfl⟩ := next
    exact .wake hu cloned
  | pop =>
    simp only [step, Option.ite_none_right_eq_some, Option.some.injEq] at next
    obtain ⟨⟨idle, queued⟩, rfl⟩ := next
    exact .pop idle queued
  | write | rollbackDrop | rollbackStore | storeHandle | spawnSchedule | wakeSchedule
  | fetchAnd | poll | pending | drop | store =>
    simp only [step, Option.ite_none_right_eq_some, Option.some.injEq] at next
    obtain ⟨at_op, rfl⟩ := next
    constructor
    exact at_op

end Px4Rs.TaskCell
