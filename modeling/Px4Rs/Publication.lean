import Mathlib.Logic.Function.Basic
import Px4Rs.Runs

/-! One shared `Publication` or `RawPublication` under any number of threads. Every
atomic operation on the handle and every FFI call is a step. `ffi::advertise` and
`ffi::advertise_multi` return a handle never returned before. -/
namespace Px4Rs.Publication
open Px4Rs.Runs Function
variable {τ M : Type*} [DecidableEq τ] [DecidableEq M]

/-- `PubError` and `RawPubError`; only the raw wrapper has the second. -/
inductive PubError where
  | failed | sizeMismatch
deriving DecidableEq

/-- What a call returns; `advertise_multi` returns an instance. -/
inductive Outcome where
  | published (r : Except PubError Unit)
  | advertised
  | advertisedMulti (r : Except PubError Int)
  | unadvertised

/-- Who called `ensure_advertised`. -/
inductive Caller where
  | publish | advertise
deriving DecidableEq

inductive Pc (M : Type*) where
  | idle
  | ensureLoad (c : Caller) (m : M)
  | ensureAdvertise (c : Caller) (m : M)
  | ensureCas (c : Caller) (m : M) (h : Nat)
  | ensureDrop (c : Caller) (m : M) (h : Nat)
  | reload (m : M)
  | ffiPublish (m : M) (h : Option Nat)
  | multiLoad (m : M) (requested : Int)
  | multiAdvertise (m : M) (requested : Int)
  | multiCas (assigned : Int) (h : Nat)
  | multiDrop (assigned : Int) (h : Nat)
  | swap
  | ffiUnadvertise (h : Nat)
deriving DecidableEq

/- `handle` is the atomic pointer (`none` is null), `issued` the handles the FFI has
   returned, each with the instance it was assigned, and `unadvertised` those passed to
   `ffi::unadvertise`. -/
structure State (τ M : Type*) where
  handle : Option Nat
  pc : τ → Pc M
  outcome : τ → Option Outcome
  issued : List Nat
  assigned : Nat → Int
  unadvertised : List Nat

def init : State τ M where
  handle := none
  pc := fun _ => .idle
  outcome := fun _ => none
  issued := []
  assigned := fun _ => 0
  unadvertised := []

/- Labels carry the thread with the values it holds, the handle and instance a call of
   the FFI returned, and the status of `ffi::publish`. -/
inductive Act (τ M : Type*) where
  | publish (t : τ) (m : M)
  | advertise (t : τ) (m : M)
  | advertiseMulti (t : τ) (m : M) (requested : Int)
  | unadvertise (t : τ)
  | ensureLoad (t : τ) (c : Caller) (m : M)
  | ensureAdvertise (t : τ) (c : Caller) (m : M) (h : Nat) (assigned : Int)
  | ensureCas (t : τ) (c : Caller) (m : M) (h : Nat)
  | ensureDrop (t : τ) (c : Caller) (m : M) (h : Nat)
  | reload (t : τ) (m : M)
  | ffiPublish (t : τ) (m : M) (h : Option Nat) (rc : Int)
  | multiLoad (t : τ) (m : M) (requested : Int)
  | multiAdvertise (t : τ) (m : M) (requested : Int) (h : Nat) (assigned : Int)
  | multiCas (t : τ) (i : Int) (h : Nat)
  | multiDrop (t : τ) (i : Int) (h : Nat)
  | swap (t : τ)
  | ffiUnadvertise (t : τ) (h : Nat)

@[simps] def State.goto (s : State τ M) (t : τ) (p : Pc M) : State τ M :=
  { s with pc := update s.pc t p }

@[simps] def State.ret (s : State τ M) (t : τ) (r : Outcome) : State τ M :=
  { s with pc := update s.pc t .idle, outcome := update s.outcome t (some r) }

/-- The FFI returned a new advertisement. -/
@[simps] def State.issue (s : State τ M) (h : Nat) (i : Int) : State τ M :=
  { s with issued := h :: s.issued, assigned := update s.assigned h i }

@[simps] def State.release (s : State τ M) (h : Nat) : State τ M :=
  { s with unadvertised := h :: s.unadvertised }

/-- The end of `ensure_advertised`: `publish` goes on, `advertise` returns. -/
def State.ensured (s : State τ M) (t : τ) (m : M) : Caller → State τ M
  | .publish => s.goto t (.reload m)
  | .advertise => s.ret t .advertised

section Ensured
variable (s : State τ M) (t : τ) (m : M) (c : Caller)
omit [DecidableEq M]

def Caller.next (m : M) : Caller → Pc M
  | .publish => .reload m
  | .advertise => .idle

@[simp] theorem State.ensured_pc : (s.ensured t m c).pc = update s.pc t (c.next m) := by
  cases c <;> rfl

@[simp] theorem State.ensured_handle : (s.ensured t m c).handle = s.handle := by
  cases c <;> rfl

@[simp] theorem State.ensured_issued : (s.ensured t m c).issued = s.issued := by
  cases c <;> rfl

@[simp] theorem State.ensured_unadvertised :
    (s.ensured t m c).unadvertised = s.unadvertised := by
  cases c <;> rfl

end Ensured

/-- One operation of a wrapper whose length check is `fits`: the byte length against
`o_size` in `RawPublication`, none at all in `Publication`. -/
def step (fits : M → Bool) (s : State τ M) : Act τ M → Option (State τ M)
  | .publish t m =>
    if s.pc t = .idle then
      if fits m then some (s.goto t (.ensureLoad .publish m))
      else some (s.ret t (.published (.error .sizeMismatch)))
    else none
  | .advertise t m =>
    if s.pc t = .idle then some (s.goto t (.ensureLoad .advertise m)) else none
  | .advertiseMulti t m requested =>
    if s.pc t = .idle then
      if fits m then some (s.goto t (.multiLoad m requested))
      else some (s.ret t (.advertisedMulti (.error .sizeMismatch)))
    else none
  | .unadvertise t => if s.pc t = .idle then some (s.goto t .swap) else none
  | .ensureLoad t c m =>
    if s.pc t = .ensureLoad c m then
      match s.handle with
      | none => some (s.goto t (.ensureAdvertise c m))
      | some _ => some (s.ensured t m c)
    else none
  | .ensureAdvertise t c m h assigned =>
    if s.pc t = .ensureAdvertise c m ∧ h ∉ s.issued then
      some ((s.issue h assigned).goto t (.ensureCas c m h))
    else none
  | .ensureCas t c m h =>
    if s.pc t = .ensureCas c m h then
      match s.handle with
      | none => some ({ s with handle := some h }.ensured t m c)
      -- someone else was first: this call's own advertisement goes
      | some _ => some (s.goto t (.ensureDrop c m h))
    else none
  | .ensureDrop t c m h =>
    if s.pc t = .ensureDrop c m h then some ((s.release h).ensured t m c) else none
  | .reload t m =>
    if s.pc t = .reload m then some (s.goto t (.ffiPublish m s.handle)) else none
  | .ffiPublish t m h rc =>
    if s.pc t = .ffiPublish m h then
      some (s.ret t (.published (if rc = 0 then .ok () else .error .failed)))
    else none
  | .multiLoad t m requested =>
    if s.pc t = .multiLoad m requested then
      match s.handle with
      | none => some (s.goto t (.multiAdvertise m requested))
      | some _ => some (s.ret t (.advertisedMulti (.ok requested)))
    else none
  | .multiAdvertise t m requested h assigned =>
    if s.pc t = .multiAdvertise m requested ∧ h ∉ s.issued then
      some ((s.issue h assigned).goto t (.multiCas assigned h))
    else none
  | .multiCas t i h =>
    if s.pc t = .multiCas i h then
      match s.handle with
      | none => some ({ s with handle := some h }.ret t (.advertisedMulti (.ok i)))
      | some _ => some (s.goto t (.multiDrop i h))
    else none
  | .multiDrop t i h =>
    if s.pc t = .multiDrop i h then some ((s.release h).ret t (.advertisedMulti (.ok i))) else none
  | .swap t =>
    if s.pc t = .swap then
      match s.handle with
      | none => some (s.ret t .unadvertised)
      | some h => some ({ s with handle := none }.goto t (.ffiUnadvertise h))
    else none
  | .ffiUnadvertise t h =>
    if s.pc t = .ffiUnadvertise h then some ((s.release h).ret t .unadvertised) else none

inductive Steps (fits : M → Bool) (s : State τ M) : Act τ M → State τ M → Prop
  | publish {t m} (hu : s.pc t = .idle) (fit : fits m = true) :
    Steps fits s (.publish t m) (s.goto t (.ensureLoad .publish m))
  | publishMismatch {t m} (hu : s.pc t = .idle) (misfit : fits m = false) :
    Steps fits s (.publish t m) (s.ret t (.published (.error .sizeMismatch)))
  | advertise {t m} (hu : s.pc t = .idle) :
    Steps fits s (.advertise t m) (s.goto t (.ensureLoad .advertise m))
  | advertiseMulti {t m i} (hu : s.pc t = .idle) (fit : fits m = true) :
    Steps fits s (.advertiseMulti t m i) (s.goto t (.multiLoad m i))
  | advertiseMultiMismatch {t m i} (hu : s.pc t = .idle) (misfit : fits m = false) :
    Steps fits s (.advertiseMulti t m i) (s.ret t (.advertisedMulti (.error .sizeMismatch)))
  | unadvertise {t} (hu : s.pc t = .idle) : Steps fits s (.unadvertise t) (s.goto t .swap)
  | ensureLoad {t c m} (hu : s.pc t = .ensureLoad c m) (null : s.handle = none) :
    Steps fits s (.ensureLoad t c m) (s.goto t (.ensureAdvertise c m))
  | ensureFound {t c m h} (hu : s.pc t = .ensureLoad c m) (stored : s.handle = some h) :
    Steps fits s (.ensureLoad t c m) (s.ensured t m c)
  | ensureAdvertise {t c m h i} (hu : s.pc t = .ensureAdvertise c m) (fresh : h ∉ s.issued) :
    Steps fits s (.ensureAdvertise t c m h i) ((s.issue h i).goto t (.ensureCas c m h))
  | ensureStore {t c m h} (hu : s.pc t = .ensureCas c m h) (null : s.handle = none) :
    Steps fits s (.ensureCas t c m h) ({ s with handle := some h }.ensured t m c)
  | ensureLose {t c m h first} (hu : s.pc t = .ensureCas c m h) (stored : s.handle = some first) :
    Steps fits s (.ensureCas t c m h) (s.goto t (.ensureDrop c m h))
  | ensureDrop {t c m h} (hu : s.pc t = .ensureDrop c m h) :
    Steps fits s (.ensureDrop t c m h) ((s.release h).ensured t m c)
  | reload {t m} (hu : s.pc t = .reload m) :
    Steps fits s (.reload t m) (s.goto t (.ffiPublish m s.handle))
  | ffiPublish {t m h rc} (hu : s.pc t = .ffiPublish m h) :
    Steps fits s (.ffiPublish t m h rc)
      (s.ret t (.published (if rc = 0 then .ok () else .error .failed)))
  | multiLoad {t m i} (hu : s.pc t = .multiLoad m i) (null : s.handle = none) :
    Steps fits s (.multiLoad t m i) (s.goto t (.multiAdvertise m i))
  | multiFound {t m i h} (hu : s.pc t = .multiLoad m i) (stored : s.handle = some h) :
    Steps fits s (.multiLoad t m i) (s.ret t (.advertisedMulti (.ok i)))
  | multiAdvertise {t m i h assigned} (hu : s.pc t = .multiAdvertise m i) (fresh : h ∉ s.issued) :
    Steps fits s (.multiAdvertise t m i h assigned)
      ((s.issue h assigned).goto t (.multiCas assigned h))
  | multiStore {t i h} (hu : s.pc t = .multiCas i h) (null : s.handle = none) :
    Steps fits s (.multiCas t i h) ({ s with handle := some h }.ret t (.advertisedMulti (.ok i)))
  | multiLose {t i h first} (hu : s.pc t = .multiCas i h) (stored : s.handle = some first) :
    Steps fits s (.multiCas t i h) (s.goto t (.multiDrop i h))
  | multiDrop {t i h} (hu : s.pc t = .multiDrop i h) :
    Steps fits s (.multiDrop t i h) ((s.release h).ret t (.advertisedMulti (.ok i)))
  | swapNull {t} (hu : s.pc t = .swap) (null : s.handle = none) :
    Steps fits s (.swap t) (s.ret t .unadvertised)
  | swap {t h} (hu : s.pc t = .swap) (stored : s.handle = some h) :
    Steps fits s (.swap t) ({ s with handle := none }.goto t (.ffiUnadvertise h))
  | ffiUnadvertise {t h} (hu : s.pc t = .ffiUnadvertise h) :
    Steps fits s (.ffiUnadvertise t h) ((s.release h).ret t .unadvertised)

theorem steps_of_step {fits : M → Bool} {s t : State τ M} {a : Act τ M}
    (next : step fits s a = some t) : Steps fits s a t := by
  cases a with
  | publish u m =>
    simp only [step, Option.ite_none_right_eq_some] at next
    obtain ⟨hu, next⟩ := next
    split at next <;> rename_i fit <;> cases next
    · exact .publish hu fit
    · exact .publishMismatch hu (by simpa using fit)
  | advertiseMulti u m i =>
    simp only [step, Option.ite_none_right_eq_some] at next
    obtain ⟨hu, next⟩ := next
    split at next <;> rename_i fit <;> cases next
    · exact .advertiseMulti hu fit
    · exact .advertiseMultiMismatch hu (by simpa using fit)
  | ensureLoad u c m =>
    simp only [step, Option.ite_none_right_eq_some] at next
    obtain ⟨hu, next⟩ := next
    split at next <;> rename_i stored <;> cases next
    · exact .ensureLoad hu stored
    · exact .ensureFound hu stored
  | ensureCas u c m h =>
    simp only [step, Option.ite_none_right_eq_some] at next
    obtain ⟨hu, next⟩ := next
    split at next <;> rename_i stored <;> cases next
    · exact .ensureStore hu stored
    · exact .ensureLose hu stored
  | multiLoad u m i =>
    simp only [step, Option.ite_none_right_eq_some] at next
    obtain ⟨hu, next⟩ := next
    split at next <;> rename_i stored <;> cases next
    · exact .multiLoad hu stored
    · exact .multiFound hu stored
  | multiCas u i h =>
    simp only [step, Option.ite_none_right_eq_some] at next
    obtain ⟨hu, next⟩ := next
    split at next <;> rename_i stored <;> cases next
    · exact .multiStore hu stored
    · exact .multiLose hu stored
  | swap u =>
    simp only [step, Option.ite_none_right_eq_some] at next
    obtain ⟨hu, next⟩ := next
    split at next <;> rename_i stored <;> cases next
    · exact .swapNull hu stored
    · exact .swap hu stored
  | ensureAdvertise | multiAdvertise =>
    simp only [step, Option.ite_none_right_eq_some, Option.some.injEq] at next
    obtain ⟨⟨hu, fresh⟩, rfl⟩ := next
    constructor <;> assumption
  | advertise | unadvertise | ensureDrop | reload | ffiPublish | multiDrop | ffiUnadvertise =>
    simp only [step, Option.ite_none_right_eq_some, Option.some.injEq] at next
    obtain ⟨hu, rfl⟩ := next
    constructor
    exact hu

/-- `Publication<T>`: the type fixes the size of the message. -/
def typed : M → Bool := fun _ => true

/-- `RawPublication`: the slice must have `o_size` bytes. -/
def raw (oSize : BitVec 16) (data : List (BitVec 8)) : Bool := data.length == oSize.toNat

/-- The handle a thread alone answers for: just obtained, or about to be unadvertised. -/
def Pc.held : Pc M → Option Nat
  | .ensureCas _ _ h | .ensureDrop _ _ h | .multiCas _ h | .multiDrop _ h
  | .ffiUnadvertise h => some h
  | _ => none

omit [DecidableEq M] in
@[simp] theorem Caller.next_held (m : M) (c : Caller) : (c.next m).held = none := by
  cases c <;> rfl

/- A handle is held by one thread, or stored, or unadvertised, and never two of these. -/
structure Custody (s : State τ M) : Prop where
  stored : ∀ h, s.handle = some h → h ∈ s.issued ∧ h ∉ s.unadvertised
  held : ∀ t h, (s.pc t).held = some h →
    h ∈ s.issued ∧ h ∉ s.unadvertised ∧ s.handle ≠ some h
  apart : ∀ t u h, (s.pc t).held = some h → (s.pc u).held = some h → t = u
  released : ∀ h ∈ s.unadvertised, h ∈ s.issued

variable {fits : M → Bool}

omit [DecidableEq τ] [DecidableEq M] in
theorem custody_init : Custody (init : State τ M) := by
  constructor <;> simp [init, Pc.held]

section Moves
variable {s t : State τ M} {u : τ} {p : Pc M} {a : Nat}
omit [DecidableEq M]

theorem held_update (pc : t.pc = update s.pc u p) {v : τ} {x : Nat}
    (hv : (t.pc v).held = some x) : v = u ∧ p.held = some x ∨ v ≠ u ∧ (s.pc v).held = some x := by
  by_cases hvu : v = u
  · rw [pc, hvu, update_self] at hv
    exact .inl ⟨hvu, hv⟩
  · rw [pc, update_of_ne hvu] at hv
    exact .inr ⟨hvu, hv⟩

theorem Custody.move (h : Custody s) (pc : t.pc = update s.pc u p) (handle : t.handle = s.handle)
    (issued : t.issued = s.issued) (unadvertised : t.unadvertised = s.unadvertised)
    (hp : ∀ x, p.held = some x → (s.pc u).held = some x) : Custody t := by
  have kept (v : τ) (x : Nat) (hv : (t.pc v).held = some x) : (s.pc v).held = some x := by
    obtain ⟨rfl, hx⟩ | ⟨_, hx⟩ := held_update pc hv
    · exact hp x hx
    · exact hx
  constructor
  · rw [handle, issued, unadvertised]
    exact h.stored
  · intro v x hv
    rw [handle, issued, unadvertised]
    exact h.held v x (kept v x hv)
  · intro v w x hv hw
    exact h.apart v w x (kept v x hv) (kept w x hw)
  · rw [issued, unadvertised]
    exact h.released

theorem held_gain (pc : t.pc = update s.pc u p) (hp : p.held = some a)
    (unheld : ∀ v, (s.pc v).held = some a → False) {v : τ} {x : Nat}
    (hv : (t.pc v).held = some x) : v = u ∧ x = a ∨ (s.pc v).held = some x ∧ x ≠ a := by
  obtain ⟨hvu, hx⟩ | ⟨_, hx⟩ := held_update pc hv
  · exact .inl ⟨hvu, by simpa [hp] using hx.symm⟩
  · refine .inr ⟨hx, ?_⟩
    rintro rfl
    exact unheld v hx

theorem Custody.apart_gain (h : Custody s) (pc : t.pc = update s.pc u p) (hp : p.held = some a)
    (unheld : ∀ v, (s.pc v).held = some a → False) {v w : τ} {x : Nat}
    (hv : (t.pc v).held = some x) (hw : (t.pc w).held = some x) : v = w := by
  obtain ⟨rfl, hx⟩ | ⟨hv, hx⟩ := held_gain pc hp unheld hv
  · obtain ⟨rfl, _⟩ | ⟨_, hne⟩ := held_gain pc hp unheld hw
    · rfl
    · exact absurd hx hne
  · obtain ⟨_, he⟩ | ⟨hw, _⟩ := held_gain pc hp unheld hw
    · exact absurd he hx
    · exact h.apart v w x hv hw

theorem Custody.issue (h : Custody s) (pc : t.pc = update s.pc u p) (handle : t.handle = s.handle)
    (issued : t.issued = a :: s.issued) (unadvertised : t.unadvertised = s.unadvertised)
    (fresh : a ∉ s.issued) (hp : p.held = some a) : Custody t := by
  have unheld (v : τ) (hv : (s.pc v).held = some a) : False := fresh (h.held v a hv).1
  constructor
  · intro x hx
    rw [handle] at hx
    rw [issued, unadvertised]
    exact ⟨List.mem_cons_of_mem a (h.stored x hx).1, (h.stored x hx).2⟩
  · intro v x hv
    rw [handle, issued, unadvertised]
    obtain ⟨_, rfl⟩ | ⟨hx, _⟩ := held_gain pc hp unheld hv
    · exact ⟨List.mem_cons_self, fun hr => fresh (h.released x hr),
        fun hs => fresh (h.stored x hs).1⟩
    · obtain ⟨hi, hr⟩ := h.held v x hx
      exact ⟨List.mem_cons_of_mem a hi, hr⟩
  · intro v w x hv hw
    exact h.apart_gain pc hp unheld hv hw
  · intro x hx
    rw [unadvertised] at hx
    rw [issued]
    exact List.mem_cons_of_mem a (h.released x hx)

theorem Custody.given_up (h : Custody s) (pc : t.pc = update s.pc u p)
    (hu : (s.pc u).held = some a) (hp : p.held = none) {v : τ} {x : Nat}
    (hv : (t.pc v).held = some x) : (s.pc v).held = some x ∧ x ≠ a := by
  obtain ⟨_, hx⟩ | ⟨hvu, hx⟩ := held_update pc hv
  · rw [hp] at hx
    cases hx
  · refine ⟨hx, ?_⟩
    rintro rfl
    exact hvu (h.apart v u x hx hu)

theorem Custody.store (h : Custody s) (pc : t.pc = update s.pc u p) (handle : t.handle = some a)
    (issued : t.issued = s.issued) (unadvertised : t.unadvertised = s.unadvertised)
    (hu : (s.pc u).held = some a) (hp : p.held = none) : Custody t := by
  constructor
  · intro x hx
    obtain rfl : a = x := by simpa [handle] using hx
    rw [issued, unadvertised]
    exact ⟨(h.held u a hu).1, (h.held u a hu).2.1⟩
  · intro v x hv
    obtain ⟨hx, hne⟩ := h.given_up pc hu hp hv
    obtain ⟨hi, hr, _⟩ := h.held v x hx
    rw [handle, issued, unadvertised]
    exact ⟨hi, hr, by simpa using hne.symm⟩
  · intro v w x hv hw
    exact h.apart v w x (h.given_up pc hu hp hv).1 (h.given_up pc hu hp hw).1
  · rw [issued, unadvertised]
    exact h.released

theorem Custody.release (h : Custody s) (pc : t.pc = update s.pc u p)
    (handle : t.handle = s.handle) (issued : t.issued = s.issued)
    (unadvertised : t.unadvertised = a :: s.unadvertised) (hu : (s.pc u).held = some a)
    (hp : p.held = none) : Custody t := by
  obtain ⟨ha, _, unstored⟩ := h.held u a hu
  constructor
  · intro x hx
    rw [handle] at hx
    have hne : x ≠ a := by
      rintro rfl
      exact unstored hx
    rw [issued, unadvertised]
    exact ⟨(h.stored x hx).1, by simp [hne, (h.stored x hx).2]⟩
  · intro v x hv
    obtain ⟨hx, hne⟩ := h.given_up pc hu hp hv
    obtain ⟨hi, hr, hs⟩ := h.held v x hx
    rw [handle, issued, unadvertised]
    exact ⟨hi, by simp [hne, hr], hs⟩
  · intro v w x hv hw
    exact h.apart v w x (h.given_up pc hu hp hv).1 (h.given_up pc hu hp hw).1
  · intro x hx
    rw [issued]
    rw [unadvertised] at hx
    obtain rfl | hx := List.mem_cons.mp hx
    · exact ha
    · exact h.released x hx

theorem Custody.take (h : Custody s) (pc : t.pc = update s.pc u p) (handle : t.handle = none)
    (issued : t.issued = s.issued) (unadvertised : t.unadvertised = s.unadvertised)
    (hs : s.handle = some a) (hp : p.held = some a) : Custody t := by
  have unheld (v : τ) (hv : (s.pc v).held = some a) : False := (h.held v a hv).2.2 hs
  constructor
  · intro x hx
    rw [handle] at hx
    cases hx
  · intro v x hv
    rw [handle, issued, unadvertised]
    obtain ⟨_, rfl⟩ | ⟨hx, _⟩ := held_gain pc hp unheld hv
    · exact ⟨(h.stored x hs).1, (h.stored x hs).2, by simp⟩
    · exact ⟨(h.held v x hx).1, (h.held v x hx).2.1, by simp⟩
  · intro v w x hv hw
    exact h.apart_gain pc hp unheld hv hw
  · rw [issued, unadvertised]
    exact h.released

end Moves

theorem custody_step {s t : State τ M} {a : Act τ M} (h : Custody s)
    (next : step fits s a = some t) : Custody t := by
  cases steps_of_step next with
  | publish | publishMismatch | advertise | advertiseMulti | advertiseMultiMismatch | unadvertise
  | ensureLoad | reload | ffiPublish | multiLoad | multiFound | swapNull =>
    exact h.move rfl rfl rfl rfl (by simp [Pc.held])
  | @ensureFound u c m =>
    exact h.move (State.ensured_pc s u m c) (by simp) (by simp) (by simp) (by simp)
  | ensureAdvertise _ fresh | multiAdvertise _ fresh => exact h.issue rfl rfl rfl rfl fresh rfl
  | @ensureStore u c m a hu =>
    exact h.store (a := a) (State.ensured_pc _ u m c) (by simp) (by simp) (by simp)
      (by rw [hu]; rfl) (by simp)
  | multiStore hu => exact h.store rfl rfl rfl rfl (by rw [hu]; rfl) rfl
  | ensureLose hu | multiLose hu =>
    exact h.move rfl rfl rfl rfl fun x hx => by rw [hu]; exact hx
  | @ensureDrop u c m a hu =>
    exact h.release (State.ensured_pc _ u m c) (by simp) (by simp) (by simp; rfl)
      (by rw [hu]; rfl) (by simp)
  | multiDrop hu | ffiUnadvertise hu => exact h.release rfl rfl rfl rfl (by rw [hu]; rfl) rfl
  | swap _ stored => exact h.take rfl rfl rfl rfl stored rfl

end Px4Rs.Publication
