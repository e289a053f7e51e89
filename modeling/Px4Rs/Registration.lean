import Px4Rs.Metadata

/-! The registration of one `Subscription` or `RawSubscription` where each call of the FFI may
fail, with every call that the wrapper makes. -/
namespace Px4Rs.Registration
open Px4Rs.Runs Px4Rs.Metadata
variable {η ω M : Type*}

/- A call of the FFI: its arguments, where `none` is the null handle, and what it returned.
   `sub_cb_update` returns a sample where the source has it write one and return true. -/
inductive FfiCall (η M : Type*) where
  | subCbNew (metadata : OrbMetadata) (intervalUs : BitVec 32) (inst : BitVec 8) (cb : Option η)
  | subCbRegister (cb : Option η) (ok : Bool)
  | subCbUpdate (cb : Option η) (sample : Option M)
deriving DecidableEq

/-- What the FFI returns from the functions that one `ensure_registered` or `try_recv` calls. -/
structure Outcome (η M : Type*) where
  subCbNew : Option η
  subCbRegister : Bool
  subCbUpdate : Option M

/-- The fields of both types; `metadata` is `T::metadata()` in the typed one. -/
structure Subscription (η ω : Type*) where
  cb : Option η
  waker : Option ω
  metadata : OrbMetadata
  intervalUs : BitVec 32
  inst : BitVec 8

/-- `AtomicWaker::register`, with no wake at the same time. -/
def Subscription.register (s : Subscription η ω) (w : ω) : Subscription η ω :=
  { s with waker := some w }

namespace Subscription

def newWith (metadata : OrbMetadata) (intervalUs : BitVec 32) (inst : BitVec 8) :
    Subscription η ω :=
  ⟨none, none, metadata, intervalUs, inst⟩

def ensureRegistered (s : Subscription η ω) (o : Outcome η M) :
    Subscription η ω × List (FfiCall η M) :=
  match s.cb with
  | some _ => (s, [])
  | none =>
    ({ s with cb := o.subCbNew },
      [.subCbNew s.metadata s.intervalUs s.inst o.subCbNew,
        .subCbRegister o.subCbNew o.subCbRegister])

def tryRecv (s : Subscription η ω) (o : Outcome η M) :
    Subscription η ω × List (FfiCall η M) × Option M :=
  let (s, calls) := s.ensureRegistered o
  match s.cb with
  | none => (s, calls, none)
  | some cb => (s, calls ++ [.subCbUpdate (some cb) o.subCbUpdate], o.subCbUpdate)

/-- `Recv::poll`, where `none` is Pending. -/
def poll (s : Subscription η ω) (w : ω) (first second : Outcome η M) :
    Subscription η ω × List (FfiCall η M) × Option M :=
  let (s, calls, sample) := s.tryRecv first
  match sample with
  | some m => (s, calls, some m)
  | none =>
    let (s, again, sample) := (s.register w).tryRecv second
    (s, calls ++ again, sample)

def registerWaker (s : Subscription η ω) (w : ω) (o : Outcome η M) :
    Subscription η ω × List (FfiCall η M) :=
  let (s, calls) := s.ensureRegistered o
  (s.register w, calls)

end Subscription

namespace RawSubscription

def ensureRegistered (s : Subscription η ω) (o : Outcome η M) :
    Subscription η ω × List (FfiCall η M) :=
  Subscription.ensureRegistered s o

def tryRecv (s : Subscription η ω) (len : Nat) (o : Outcome η M) :
    Subscription η ω × List (FfiCall η M) × Option (M × Nat) :=
  let size := s.metadata.oSize.toNat
  if len < size then (s, [], none)
  else
    let (s, calls) := ensureRegistered s o
    match s.cb with
    | none => (s, calls, none)
    | some cb =>
      (s, calls ++ [.subCbUpdate (some cb) o.subCbUpdate], o.subCbUpdate.map (·, size))

def registerWaker (s : Subscription η ω) (w : ω) (o : Outcome η M) :
    Subscription η ω × List (FfiCall η M) :=
  Subscription.registerWaker s w o

end RawSubscription

inductive Op (η ω M : Type*) where
  | tryRecv (o : Outcome η M)
  | poll (w : ω) (first second : Outcome η M)
  | registerWaker (w : ω) (o : Outcome η M)
  | rawTryRecv (len : Nat) (o : Outcome η M)
  | rawRegisterWaker (w : ω) (o : Outcome η M)
  | wake

inductive Wrapper where
  | subscription | rawSubscription
deriving DecidableEq

/-- The subscription, and the calls of the FFI so far. -/
structure State (η ω M : Type*) where
  sub : Subscription η ω
  calls : List (FfiCall η M)

def init (metadata : OrbMetadata) (intervalUs : BitVec 32) (inst : BitVec 8) : State η ω M :=
  ⟨.newWith metadata intervalUs inst, []⟩

def State.after (s : State η ω M) (sub : Subscription η ω) (calls : List (FfiCall η M)) :
    State η ω M :=
  ⟨sub, s.calls ++ calls⟩

/-- One call on the wrapper, or a wake from the FFI, which empties the waker's slot. -/
def step (k : Wrapper) (s : State η ω M) : Op η ω M → Option (State η ω M)
  | .tryRecv o =>
    if k = .subscription then
      let (sub, calls, _) := s.sub.tryRecv o
      some (s.after sub calls)
    else none
  | .poll w first second =>
    if k = .subscription then
      let (sub, calls, _) := s.sub.poll w first second
      some (s.after sub calls)
    else none
  | .registerWaker w o =>
    if k = .subscription then
      let (sub, calls) := s.sub.registerWaker w o
      some (s.after sub calls)
    else none
  | .rawTryRecv len o =>
    if k = .rawSubscription then
      let (sub, calls, _) := RawSubscription.tryRecv s.sub len o
      some (s.after sub calls)
    else none
  | .rawRegisterWaker w o =>
    if k = .rawSubscription then
      let (sub, calls) := RawSubscription.registerWaker s.sub w o
      some (s.after sub calls)
    else none
  | .wake => some { s with sub := { s.sub with waker := none } }

/-- The handle that a call was passed. -/
def FfiCall.handle : FfiCall η M → Option (Option η)
  | .subCbNew .. => none
  | .subCbRegister cb _ | .subCbUpdate cb _ => some cb

def FfiCall.registers [DecidableEq η] (cb : η) : FfiCall η M → Option Bool
  | .subCbRegister h ok => if h = some cb then some ok else none
  | .subCbNew .. | .subCbUpdate .. => none

/-- No call was passed null, and the last registration of the stored callback succeeded. -/
structure Registered [DecidableEq η] (s : State η ω M) : Prop where
  handles : ∀ c ∈ s.calls, c.handle ≠ some none
  woken : ∀ cb, s.sub.cb = some cb → (s.calls.filterMap (·.registers cb)).getLast? = some true

/-- The FFI makes a callback and registers it. -/
def Outcome.Registers (o : Outcome η M) : Prop :=
  o.subCbNew.isSome = true ∧ o.subCbRegister = true

/-- The first `ensure_registered` of a call, unless there is a callback already. -/
def FfiRegisters (s : State η ω M) : Op η ω M → Prop
  | .tryRecv o | .poll _ o _ | .registerWaker _ o | .rawRegisterWaker _ o =>
    s.sub.cb = none → o.Registers
  | .rawTryRecv len o =>
    s.sub.metadata.oSize.toNat ≤ len → s.sub.cb = none → o.Registers
  | .wake => True

/-! What one call of a wrapper does. -/

def Updates (cb : η) (calls : List (FfiCall η M)) : Prop :=
  ∀ c ∈ calls, ∃ sample, c = .subCbUpdate (some cb) sample

/-- With a callback stored, `s` keeps it and only updates it. Without one, it makes and
registers one, and stores it whatever the registration returned. -/
structure Attempts (s : Subscription η ω) (o : Outcome η M) (t : Subscription η ω)
    (calls : List (FfiCall η M)) : Prop where
  stored : ∀ cb, s.cb = some cb → t.cb = some cb ∧ Updates cb calls
  null : s.cb = none → ∃ rest,
    calls = .subCbNew s.metadata s.intervalUs s.inst o.subCbNew ::
      .subCbRegister o.subCbNew o.subCbRegister :: rest ∧
    ∀ cb, o.subCbNew = some cb → t.cb = some cb ∧ Updates cb rest

variable {s t : Subscription η ω} {o o' : Outcome η M} {calls again : List (FfiCall η M)}

theorem updates_nil (cb : η) : Updates cb ([] : List (FfiCall η M)) := by simp [Updates]

theorem Updates.append {cb : η} (h : Updates cb calls) (h' : Updates cb again) :
    Updates cb (calls ++ again) := by
  intro c hc
  obtain hc | hc := List.mem_append.mp hc
  · exact h c hc
  · exact h' c hc

theorem attempts_ensureRegistered (s : Subscription η ω) (o : Outcome η M) :
    Attempts s o (s.ensureRegistered o).1 (s.ensureRegistered o).2 := by
  unfold Subscription.ensureRegistered
  cases hs : s.cb with
  | none =>
    refine ⟨by simp [hs], fun _ => ⟨[], rfl, ?_⟩⟩
    intro cb made
    exact ⟨made, updates_nil cb⟩
  | some h =>
    refine ⟨?_, by simp [hs]⟩
    intro cb stored
    exact ⟨stored, updates_nil cb⟩

theorem Attempts.then_updates {u : Subscription η ω} (h : Attempts s o t calls)
    (next : ∀ cb, t.cb = some cb → u.cb = some cb ∧ Updates cb again) :
    Attempts s o u (calls ++ again) := by
  constructor
  · intro cb stored
    obtain ⟨kept, updates⟩ := h.stored cb stored
    exact ⟨(next cb kept).1, updates.append (next cb kept).2⟩
  · intro null
    obtain ⟨rest, rfl, made⟩ := h.null null
    refine ⟨rest ++ again, rfl, ?_⟩
    intro cb hcb
    obtain ⟨kept, updates⟩ := made cb hcb
    exact ⟨(next cb kept).1, updates.append (next cb kept).2⟩

theorem attempts_tryRecv (s : Subscription η ω) (o : Outcome η M) :
    Attempts s o (s.tryRecv o).1 (s.tryRecv o).2.1 := by
  have first := attempts_ensureRegistered s o
  unfold Subscription.tryRecv
  cases stored : (s.ensureRegistered o).1.cb with
  | none =>
    simp only [stored]
    exact first
  | some cb =>
    simp only [stored]
    refine first.then_updates ?_
    intro cb' same
    obtain rfl : cb = cb' := by simpa [stored] using same
    exact ⟨same, by simp [Updates]⟩

theorem attempts_poll (s : Subscription η ω) (w : ω) (o o' : Outcome η M) :
    Attempts s o (s.poll w o o').1 (s.poll w o o').2.1 := by
  have first := attempts_tryRecv s o
  unfold Subscription.poll
  cases found : (s.tryRecv o).2.2 with
  | some m =>
    simp only [found]
    exact first
  | none =>
    simp only [found]
    exact first.then_updates (attempts_tryRecv ((s.tryRecv o).1.register w) o').stored

theorem attempts_registerWaker (s : Subscription η ω) (w : ω) (o : Outcome η M) :
    Attempts s o (s.registerWaker w o).1 (s.registerWaker w o).2 := by
  obtain ⟨stored, null⟩ := attempts_ensureRegistered s o
  exact ⟨stored, null⟩

theorem attempts_rawTryRecv {len : Nat} (h : s.metadata.oSize.toNat ≤ len) (o : Outcome η M) :
    Attempts s o (RawSubscription.tryRecv s len o).1 (RawSubscription.tryRecv s len o).2.1 := by
  have same := attempts_tryRecv s o
  unfold Subscription.tryRecv at same
  unfold RawSubscription.tryRecv RawSubscription.ensureRegistered
  rw [if_neg (Nat.not_lt.mpr h)]
  cases stored : (s.ensureRegistered o).1.cb with
  | none =>
    simp only [stored] at same ⊢
    exact same
  | some cb =>
    simp only [stored] at same ⊢
    exact same

section Registered
variable [DecidableEq η] {x y : State η ω M} {op : Op η ω M} {k : Wrapper}

omit [DecidableEq η] in
theorem Updates.handles {cb : η} (h : Updates cb calls) : ∀ c ∈ calls, c.handle ≠ some none := by
  intro c hc
  obtain ⟨sample, rfl⟩ := h c hc
  simp [FfiCall.handle]

theorem Updates.registers {cb : η} (h : Updates cb calls) (cb' : η) :
    calls.filterMap (·.registers cb') = [] := by
  rw [List.filterMap_eq_nil_iff]
  intro c hc
  obtain ⟨sample, rfl⟩ := h c hc
  rfl

theorem Attempts.keeps_registered (h : Attempts x.sub o y.sub calls)
    (hy : y.calls = x.calls ++ calls) :
    Registered y ↔ Registered x ∧ (x.sub.cb = none → o.Registers) := by
  cases hx : x.sub.cb with
  | some cb =>
    obtain ⟨kept, updates⟩ := h.stored cb hx
    have same (cb' : η) : y.calls.filterMap (·.registers cb') =
        x.calls.filterMap (·.registers cb') := by
      rw [hy, List.filterMap_append, updates.registers, List.append_nil]
    constructor
    · intro ⟨handles, woken⟩
      refine ⟨⟨?_, ?_⟩, by simp⟩
      · intro c hc
        exact handles c (by simp [hy, hc])
      · intro cb' hcb'
        rw [← same]
        exact woken cb' (by rw [kept, ← hx, hcb'])
    · intro ⟨⟨handles, woken⟩, _⟩
      refine ⟨?_, ?_⟩
      · intro c hc
        rw [hy, List.mem_append] at hc
        exact hc.elim (handles c) (updates.handles c)
      · intro cb' hcb'
        rw [same]
        exact woken cb' (by rw [hx, ← kept, hcb'])
  | none =>
    obtain ⟨rest, rfl, made⟩ := h.null hx
    constructor
    · intro ⟨handles, woken⟩
      have called := handles (.subCbRegister o.subCbNew o.subCbRegister) (by simp [hy])
      obtain ⟨cb, hcb⟩ : ∃ cb, o.subCbNew = some cb := by
        cases hn : o.subCbNew with
        | none => simp [FfiCall.handle, hn] at called
        | some cb => exact ⟨cb, rfl⟩
      obtain ⟨kept, updates⟩ := made cb hcb
      have last := woken cb kept
      rw [hy, hcb, List.filterMap_append, List.filterMap_cons, List.filterMap_cons,
        updates.registers] at last
      refine ⟨⟨fun c hc => handles c (by simp [hy, hc]), by simp [hx]⟩, fun _ => ?_⟩
      exact ⟨by simp [hcb], by simpa [FfiCall.registers] using last⟩
    · intro ⟨⟨handles, _⟩, registers⟩
      obtain ⟨made', registered⟩ := registers rfl
      obtain ⟨cb, hcb⟩ := Option.isSome_iff_exists.mp made'
      obtain ⟨kept, updates⟩ := made cb hcb
      refine ⟨?_, ?_⟩
      · intro c hc
        simp only [hy, hcb, List.mem_append, List.mem_cons] at hc
        obtain hc | rfl | rfl | hc := hc
        · exact handles c hc
        · simp [FfiCall.handle]
        · simp [FfiCall.handle]
        · exact updates.handles c hc
      · intro cb' hcb'
        obtain rfl : cb = cb' := by simpa [kept] using hcb'
        rw [hy, hcb, List.filterMap_append, List.filterMap_cons, List.filterMap_cons,
          updates.registers]
        simp [FfiCall.registers, registered]

omit [DecidableEq η] in
/-- A call of the wrapper is one attempt, unless it makes no call of the FFI at all. -/
theorem step_cases (next : step k x op = some y) :
    (∃ o calls, Attempts x.sub o y.sub calls ∧ y.calls = x.calls ++ calls ∧
      (FfiRegisters x op ↔ (x.sub.cb = none → o.Registers))) ∨
    y.sub.cb = x.sub.cb ∧ y.calls = x.calls ∧ FfiRegisters x op := by
  cases op with
  | tryRecv o =>
    simp only [step, Option.ite_none_right_eq_some, Option.some.injEq] at next
    obtain ⟨_, rfl⟩ := next
    exact .inl ⟨o, _, attempts_tryRecv x.sub o, rfl, Iff.rfl⟩
  | poll w o o' =>
    simp only [step, Option.ite_none_right_eq_some, Option.some.injEq] at next
    obtain ⟨_, rfl⟩ := next
    exact .inl ⟨o, _, attempts_poll x.sub w o o', rfl, Iff.rfl⟩
  | registerWaker w o | rawRegisterWaker w o =>
    simp only [step, Option.ite_none_right_eq_some, Option.some.injEq] at next
    obtain ⟨_, rfl⟩ := next
    exact .inl ⟨o, _, attempts_registerWaker x.sub w o, rfl, Iff.rfl⟩
  | rawTryRecv len o =>
    simp only [step, Option.ite_none_right_eq_some, Option.some.injEq] at next
    obtain ⟨_, rfl⟩ := next
    obtain short | enough := Nat.lt_or_ge len x.sub.metadata.oSize.toNat
    · right
      simp [FfiRegisters, RawSubscription.tryRecv, short, State.after, Nat.not_le.mpr short]
    · exact .inl ⟨o, _, attempts_rawTryRecv enough o, rfl, by simp [FfiRegisters, enough]⟩
  | wake =>
    cases next
    exact .inr ⟨rfl, rfl, trivial⟩

theorem registered_step (next : step k x op = some y) :
    Registered y ↔ Registered x ∧ FfiRegisters x op := by
  obtain ⟨o, calls, attempts, hy, iff⟩ | ⟨same, hy, met⟩ := step_cases next
  · rw [iff]
    exact attempts.keeps_registered hy
  · constructor
    · intro ⟨handles, woken⟩
      rw [hy] at handles woken
      exact ⟨⟨handles, by rwa [← same]⟩, met⟩
    · intro ⟨⟨handles, woken⟩, _⟩
      rw [← hy] at handles woken
      exact ⟨handles, by rwa [same]⟩

/-- In a run the FFI gets no null handle, and the stored callback is registered, if and only
if every callback that a call needed was made and registered. -/
theorem registered_iff (metadata : OrbMetadata) (intervalUs : BitVec 32) (inst : BitVec 8)
    {ops : List (Op η ω M)} (run : Run (step k) Free (init metadata intervalUs inst) ops x) :
    Registered x ↔ Run (step k) FfiRegisters (init metadata intervalUs inst) ops x := by
  have start : Registered (init metadata intervalUs inst : State η ω M) := by
    constructor <;> simp [init, Subscription.newWith]
  exact run.past_iff (I := fun _ => True) trivial (fun _ _ _ _ _ => trivial) start
    fun _ _ _ _ => registered_step

end Registered

instance (o : Outcome η M) : Decidable o.Registers := inferInstanceAs (Decidable (_ ∧ _))

instance (s : Subscription η ω) : Decidable (s.cb = none) :=
  decidable_of_iff (s.cb.isNone = true) Option.isNone_iff_eq_none

instance (s : State η ω M) : ∀ op, Decidable (FfiRegisters s op)
  | .tryRecv o | .poll _ o _ | .registerWaker _ o | .rawRegisterWaker _ o =>
    inferInstanceAs (Decidable (s.sub.cb = none → o.Registers))
  | .rawTryRecv len o => inferInstanceAs (Decidable
      (s.sub.metadata.oSize.toNat ≤ len → s.sub.cb = none → o.Registers))
  | .wake => .isTrue trivial

def fourBytes : OrbMetadata := ⟨"four", 4, 4, 0, 0, 1⟩

/-- The sample is there at the second look of the poll. -/
theorem registered_iff_poll :
    ∃ s : State Nat Nat Nat, Registered s ∧ Run (step .subscription) FfiRegisters
      (init fourBytes 0 0) [.poll 1 ⟨some 7, true, none⟩ ⟨none, false, some 5⟩] s := by
  obtain ⟨s, run, _⟩ := exists_run (step .subscription) FfiRegisters
    (init fourBytes 0 0 : State Nat Nat Nat)
    [.poll 1 ⟨some 7, true, none⟩ ⟨none, false, some 5⟩] (fun _ => true) rfl
  exact ⟨s, (registered_iff fourBytes 0 0 run.free).mpr run, run⟩

/-- Once a callback is stored, whether registered or not, nothing registers it again. -/
theorem never_registers_again {k : Wrapper} {x y : State η ω M} {ops : List (Op η ω M)} {cb : η}
    (stored : x.sub.cb = some cb) (run : Run (step k) Free x ops y) :
    y.sub.cb = some cb ∧ ∃ calls, y.calls = x.calls ++ calls ∧ Updates cb calls := by
  induction run with
  | nil => exact ⟨stored, [], by simp, updates_nil cb⟩
  | snoc _ _ next ih =>
    obtain ⟨kept, calls, hy, updates⟩ := ih
    obtain ⟨o, again, attempts, hz, _⟩ | ⟨same, hz, _⟩ := step_cases next
    · obtain ⟨still, more⟩ := attempts.stored cb kept
      exact ⟨still, calls ++ again, by rw [hz, hy, List.append_assoc], updates.append more⟩
    · exact ⟨same.trans kept, calls, hz.trans hy, updates⟩

/-- The registration of the first `register_waker` fails, and the poll after it does not
try again; where the FFI makes no callback, it is passed null. -/
theorem registration_fails :
    (∃ s : State Nat Nat Nat, Run (step .subscription) Free (init fourBytes 0 0)
      [.registerWaker 1 ⟨some 7, false, none⟩,
        .poll 2 ⟨some 8, true, none⟩ ⟨some 8, true, none⟩] s ∧
      s.sub.cb = some 7 ∧ s.sub.waker = some 2 ∧
      s.calls.filterMap (·.registers 7) = [false] ∧ ¬ Registered s) ∧
    ∃ s : State Nat Nat Nat, Run (step .rawSubscription) Free (init fourBytes 0 0)
      [.rawTryRecv 4 ⟨none, false, none⟩] s ∧
      .subCbRegister none false ∈ s.calls ∧ ¬ Registered s := by
  constructor
  · refine ⟨_, (Run.nil.snoc trivial rfl).snoc trivial rfl, rfl, rfl, rfl, ?_⟩
    intro h
    exact absurd (h.woken 7 rfl) (by decide)
  · refine ⟨_, Run.nil.snoc trivial rfl, by decide, ?_⟩
    intro h
    exact absurd rfl (h.handles (.subCbRegister none false) (by decide))

end Px4Rs.Registration
