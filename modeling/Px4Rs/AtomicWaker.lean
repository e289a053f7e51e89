import Mathlib.Data.BitVec
import Mathlib.Logic.Function.Iterate

/-! `AtomicWaker`: one waker slot guarded by a state word. `register` and `wake` are
cut at their atomic operations and slot accesses; each piece is a function of the
shared state and of the position of the call, so that users can interleave them. -/
namespace Px4Rs
variable {ω : Type*}

structure AtomicWaker (ω : Type*) where
  state : BitVec 64
  waker : Option ω

namespace AtomicWaker

def waiting : BitVec 64 := 0
def registering : BitVec 64 := 0b01
def waking : BitVec 64 := 0b10

def new : AtomicWaker ω := ⟨waiting, none⟩

/-- What one operation leaves: the shared state, the position, and the waker invoked. -/
structure After (ω π : Type*) where
  cell : AtomicWaker ω
  pc : π
  invoked : Option ω

/-- Position of a `register` call; `acquire` is its first `compare_exchange`. -/
inductive Register (ω : Type*) where
  | acquire (w : ω)
  | write (w : ω)
  | release
  | drain
  | swap (taken : Option ω)
  | invoke (w : ω)
  | done
deriving DecidableEq

def Register.step (a : AtomicWaker ω) : Register ω → After ω (Register ω)
  | .acquire w =>
    if a.state = waiting then ⟨{ a with state := registering }, .write w, none⟩
    -- a wake is in flight: trigger this one at once
    else if a.state = waking then ⟨a, .invoke w, none⟩
    else ⟨a, .done, none⟩
  | .write w => ⟨{ a with waker := some w }, .release, none⟩
  | .release =>
    if a.state = registering then ⟨{ a with state := waiting }, .done, none⟩
    else ⟨a, .drain, none⟩
  | .drain => ⟨{ a with waker := none }, .swap a.waker, none⟩
  | .swap taken => ⟨{ a with state := waiting }, taken.elim .done .invoke, none⟩
  | .invoke w => ⟨a, .done, some w⟩
  | .done => ⟨a, .done, none⟩

/-- Position of a `wake` call: `take`, then the waker it returned. -/
inductive Wake (ω : Type*) where
  | fetchOr
  | takeSlot
  | fetchAnd (taken : Option ω)
  | invoke (w : ω)
  | done
deriving DecidableEq

def Wake.step (a : AtomicWaker ω) : Wake ω → After ω (Wake ω)
  | .fetchOr =>
    ⟨{ a with state := a.state ||| waking }, if a.state = waiting then .takeSlot else .done, none⟩
  | .takeSlot => ⟨{ a with waker := none }, .fetchAnd a.waker, none⟩
  | .fetchAnd taken =>
    ⟨{ a with state := a.state &&& ~~~waking }, taken.elim .done .invoke, none⟩
  | .invoke w => ⟨a, .done, some w⟩
  | .done => ⟨a, .done, none⟩

/-- A whole `wake` call with nobody else running; its last operation is the fourth. -/
def wake (a : AtomicWaker ω) : AtomicWaker ω × Option ω :=
  let x := (fun x : After ω (Wake ω) => x.pc.step x.cell)^[4] ⟨a, .fetchOr, none⟩
  (x.cell, x.invoked)

/-- The rest of a `register` call with nobody else running, `n` operations of it. -/
def Register.finish : Nat → AtomicWaker ω → Register ω → AtomicWaker ω × Option ω
  | 0, a, _ => (a, none)
  | n + 1, a, p =>
    let x := p.step a
    let rest := finish n x.cell x.pc
    (rest.1, x.invoked.or rest.2)

/-- A whole `register` call with nobody else running; it has at most six operations. -/
def register (a : AtomicWaker ω) (w : ω) : AtomicWaker ω × Option ω :=
  Register.finish 6 a (.acquire w)

theorem register_of_waiting {a : AtomicWaker ω} (h : a.state = waiting) (w : ω) :
    a.register w = (⟨waiting, some w⟩, none) := by
  simp [register, Register.finish, Register.step, h]

theorem wake_of_waiting {a : AtomicWaker ω} (h : a.state = waiting) :
    a.wake = (⟨waiting, none⟩, a.waker) := by
  obtain ⟨state, waker⟩ := a
  subst h
  cases waker <;> simp [wake, Wake.step, waiting, waking]

end AtomicWaker
end Px4Rs
