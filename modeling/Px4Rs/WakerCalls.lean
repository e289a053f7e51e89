import Px4Rs.AtomicWaker
import Mathlib.Logic.Function.Basic

/-! Calls on one `AtomicWaker` by any number of parties, each at an operation of its own.
The party that moved the state word away from WAITING has the slot to itself, and a waker
that was registered is either still armed or carried by a call that will invoke it. -/
namespace Px4Rs.AtomicWaker
open Function
variable {κ ω : Type*}

/- What a party is doing with the cell. `take` runs the operations of `wake` and hands the
   waker to its caller where `wake` invokes it. -/
inductive Call (ω : Type*) where
  | idle
  | register (p : Register ω)
  | wake (p : Wake ω)
  | take (p : Wake ω)

def Register.resume {π : Type*} (p : Register ω) (stay : Register ω → π) (next : π) : π :=
  match p with
  | .done => next
  | p => stay p

def Wake.resume {π : Type*} (p : Wake ω) (stay : Wake ω → π) (next : π) : π :=
  match p with
  | .done => next
  | p => stay p

theorem Register.apply_resume {π ρ : Type*} (f : π → ρ) (p : Register ω)
    (stay : Register ω → π) (next : π) :
    f (p.resume stay next) = p.resume (fun p => f (stay p)) (f next) := by
  cases p <;> rfl

theorem Wake.apply_resume {π ρ : Type*} (f : π → ρ) (p : Wake ω) (stay : Wake ω → π)
    (next : π) : f (p.resume stay next) = p.resume (fun p => f (stay p)) (f next) := by
  cases p <;> rfl

theorem Register.step_ne_acquire (a : AtomicWaker ω) (p : Register ω) (v : ω) :
    (p.step a).pc ≠ .acquire v := by
  cases p with
  | acquire w =>
    simp only [step]
    split
    · simp
    split <;> simp
  | release =>
    simp only [step]
    split <;> simp
  | swap taken => cases taken <;> simp [step]
  | write _ | drain | invoke _ | done => simp [step]

namespace Call

def ofRegister (p : Register ω) : Call ω := p.resume .register .idle

def ofWake (p : Wake ω) : Call ω := p.resume .wake .idle

def ofTake (p : Wake ω) : Call ω := p.resume .take .idle

def step (a : AtomicWaker ω) : Call ω → After ω (Call ω)
  | .idle => ⟨a, .idle, none⟩
  | .register p => let x := p.step a; ⟨x.cell, ofRegister x.pc, x.invoked⟩
  | .wake p => let x := p.step a; ⟨x.cell, ofWake x.pc, x.invoked⟩
  | .take p => let x := p.step a; ⟨x.cell, ofTake x.pc, none⟩

def isIdle : Call ω → Bool
  | .idle => true
  | _ => false

theorem eq_idle {p : Call ω} (h : p.isIdle = true) : p = .idle := by
  cases p <;> first | rfl | cases h

/-- Between acquiring the slot and releasing it. -/
def holds : Call ω → Bool
  | .register (.write _) | .register .release | .register .drain | .register (.swap _)
  | .wake .takeSlot | .wake (.fetchAnd _) | .take .takeSlot | .take (.fetchAnd _) => true
  | _ => false

/-- The state words that a call at this position can find while it holds the slot. -/
def allows (x : BitVec 64) : Call ω → Prop
  | .register (.write _) | .register .release => x = registering ∨ x = registering ||| waking
  | .register .drain | .register (.swap _) => x = registering ||| waking
  | .wake .takeSlot | .wake (.fetchAnd _) | .take .takeSlot | .take (.fetchAnd _) => x = waking
  | _ => True

/-- The call is going to invoke `w`. -/
def bears (a : AtomicWaker ω) (w : ω) : Call ω → Prop
  | .register (.write v) => v = w ∧ a.state = registering ||| waking
  | .register .release => a.waker = some w ∧ a.state = registering ||| waking
  | .register .drain | .wake .takeSlot => a.waker = some w
  | .register (.swap taken) | .wake (.fetchAnd taken) => taken = some w
  | .register (.invoke v) | .wake (.invoke v) => v = w
  | _ => False

end Call

structure Calls (κ ω : Type*) where
  cell : AtomicWaker ω
  call : κ → Call ω

/- Who holds the slot is alone, and the word tells what it is doing. -/
structure Exclusive (s : Calls κ ω) : Prop where
  word : ∀ c, (s.call c).holds = true → (s.call c).allows s.cell.state
  sole : ∀ c d, (s.call c).holds = true → (s.call d).holds = true → c = d
  free : s.cell.state = waiting ∨ ∃ c, (s.call c).holds = true

theorem exclusive_new : Exclusive (⟨new, fun _ => .idle⟩ : Calls κ ω) := by
  constructor <;> simp [Call.holds, new]

theorem Exclusive.waiting_of_idle {s : Calls κ ω} (h : Exclusive s)
    (idle : ∀ c, s.call c = .idle) : s.cell.state = waiting := by
  obtain hw | ⟨c, hc⟩ := h.free
  · exact hw
  · simp [idle c, Call.holds] at hc

theorem registering_ne_waiting : registering ≠ waiting := by decide
theorem waking_ne_waiting : waking ≠ waiting := by decide
theorem both_ne_waiting : registering ||| waking ≠ waiting := by decide
theorem both_ne_registering : registering ||| waking ≠ registering := by decide

/-- The words of a holder are not WAITING, and a wake's `fetch_or` leaves them its words. -/
theorem Call.allows_or {p : Call ω} (hp : p.holds = true) {x : BitVec 64} (h : p.allows x) :
    x ≠ waiting ∧ p.allows (x ||| waking) := by
  have same : registering ||| waking ||| waking = registering ||| waking := by decide
  unfold Call.holds at hp
  split at hp
  case h_9 => cases hp
  all_goals simp only [Call.allows] at h ⊢
  case h_1 | h_2 =>
    obtain rfl | rfl := h
    · exact ⟨registering_ne_waiting, .inr rfl⟩
    · exact ⟨both_ne_waiting, .inr same⟩
  case h_3 | h_4 =>
    subst h
    exact ⟨both_ne_waiting, same⟩
  all_goals
    subst h
    exact ⟨waking_ne_waiting, by decide⟩

theorem Exclusive.not_waiting {s : Calls κ ω} (h : Exclusive s) {c : κ}
    (hc : (s.call c).holds = true) : s.cell.state ≠ waiting :=
  (Call.allows_or hc (h.word c hc)).1

theorem Exclusive.holds_false {s : Calls κ ω} (h : Exclusive s)
    (hw : s.cell.state = waiting) (c : κ) : (s.call c).holds = false := by
  by_contra hc
  exact h.not_waiting (by simpa using hc) hw

variable [DecidableEq κ]

namespace Calls

@[simps] def put (s : Calls κ ω) (u : κ) (a : AtomicWaker ω) (p : Call ω) : Calls κ ω :=
  ⟨a, update s.call u p⟩

def advance (s : Calls κ ω) (u : κ) : Calls κ ω :=
  s.put u ((s.call u).step s.cell).cell ((s.call u).step s.cell).pc

def invokes (s : Calls κ ω) (u : κ) : Option ω := ((s.call u).step s.cell).invoked

end Calls

theorem Exclusive.outside {s : Calls κ ω} (h : Exclusive s) {u : κ} {a : AtomicWaker ω}
    {p : Call ω} (hu : (s.call u).holds = false) (hp : p.holds = false)
    (state : a.state = s.cell.state ∨
      s.cell.state ≠ waiting ∧ a.state = s.cell.state ||| waking) : Exclusive (s.put u a p) := by
  have kept (c : κ) (hc : (update s.call u p c).holds = true) :
      update s.call u p c = s.call c ∧ (s.call c).holds = true := by
    by_cases hcu : c = u
    · rw [hcu, update_self, hp] at hc
      cases hc
    · rw [update_of_ne hcu] at hc ⊢
      exact ⟨rfl, hc⟩
  constructor
  · intro c hc
    obtain ⟨he, hc⟩ := kept c hc
    rw [Calls.put_call, he]
    obtain hs | ⟨_, hs⟩ := state
    · rw [Calls.put_cell, hs]
      exact h.word c hc
    · rw [Calls.put_cell, hs]
      exact (Call.allows_or hc (h.word c hc)).2
  · intro c d hc hd
    exact h.sole c d (kept c hc).2 (kept d hd).2
  · obtain hw | ⟨c, hc⟩ := h.free
    · obtain hs | ⟨hn, _⟩ := state
      · exact .inl (hs.trans hw)
      · exact absurd hw hn
    · have hcu : c ≠ u := by
        rintro rfl
        rw [hu] at hc
        cases hc
      exact .inr ⟨c, by rwa [Calls.put_call, update_of_ne hcu]⟩

/-- The slot is acquired by a party that found WAITING, or kept by its holder. -/
theorem Exclusive.inside {s : Calls κ ω} (h : Exclusive s) {u : κ} {a : AtomicWaker ω}
    {p : Call ω} (hu : s.cell.state = waiting ∨ (s.call u).holds = true)
    (hp : p.holds = true) (allows : p.allows a.state) : Exclusive (s.put u a p) := by
  have only (c : κ) (hc : (update s.call u p c).holds = true) : c = u := by
    by_contra hcu
    rw [update_of_ne hcu] at hc
    obtain hw | hu := hu
    · exact h.not_waiting hc hw
    · exact hcu (h.sole c u hc hu)
  constructor
  · intro c hc
    rw [only c hc, Calls.put_call, update_self]
    exact allows
  · intro c d hc hd
    rw [only c hc, only d hd]
  · exact .inr ⟨u, by rwa [Calls.put_call, update_self]⟩

theorem Exclusive.release {s : Calls κ ω} (h : Exclusive s) {u : κ} {a : AtomicWaker ω}
    {p : Call ω} (hu : (s.call u).holds = true) (hp : p.holds = false)
    (state : a.state = waiting) : Exclusive (s.put u a p) := by
  have none (c : κ) : (update s.call u p c).holds = false := by
    by_cases hcu : c = u
    · rw [hcu, update_self, hp]
    · rw [update_of_ne hcu]
      by_contra hc
      exact hcu (h.sole c u (by simpa using hc) hu)
  constructor
  · intro c hc
    simp [none c] at hc
  · intro c _ hc
    simp [none c] at hc
  · exact .inl state

theorem exclusive_advance {s : Calls κ ω} (h : Exclusive s) (u : κ) :
    Exclusive (s.advance u) := by
  have word := h.word u
  unfold Calls.advance
  cases hc : s.call u with
  | idle => exact h.outside (by rw [hc]; rfl) rfl (.inl rfl)
  | register p =>
    rw [hc] at word
    cases p with
    | acquire w =>
      simp only [Call.step, Register.step]
      split
      · exact h.inside (.inl ‹_›) rfl (.inl rfl)
      split <;> exact h.outside (by rw [hc]; rfl) rfl (.inl rfl)
    | write w => exact h.inside (.inr (by rw [hc]; rfl)) rfl (word rfl)
    | release =>
      simp only [Call.step, Register.step]
      split
      · exact h.release (by rw [hc]; rfl) rfl rfl
      · exact h.inside (.inr (by rw [hc]; rfl)) rfl ((word rfl).resolve_left ‹_›)
    | drain => exact h.inside (.inr (by rw [hc]; rfl)) rfl (word rfl)
    | swap taken => cases taken <;> exact h.release (by rw [hc]; rfl) rfl rfl
    | invoke w | done => exact h.outside (by rw [hc]; rfl) rfl (.inl rfl)
  | wake p | take p =>
    rw [hc] at word
    cases p with
    | fetchOr =>
      simp only [Call.step, Wake.step]
      split
      · exact h.inside (.inl ‹_›) rfl (by simp only [Call.allows]; rw [‹s.cell.state = _›]; rfl)
      · exact h.outside (by rw [hc]; rfl) rfl (.inr ⟨‹_›, rfl⟩)
    | takeSlot => exact h.inside (.inr (by rw [hc]; rfl)) rfl (word rfl)
    | fetchAnd taken =>
      have hw : s.cell.state = waking := word rfl
      have given : s.cell.state &&& ~~~waking = waiting := by
        rw [hw]
        decide
      cases taken <;> exact h.release (by rw [hc]; rfl) rfl given
    | invoke w | done => exact h.outside (by rw [hc]; rfl) rfl (.inl rfl)

theorem exclusive_begin {s : Calls κ ω} (h : Exclusive s) {u : κ} (hu : s.call u = .idle)
    {p : Call ω} (hp : p.holds = false) : Exclusive (s.put u s.cell p) :=
  h.outside (by rw [hu]; rfl) hp (.inl rfl)

/-! What has become of a registered waker. -/

/-- Some call is going to invoke `w`. -/
def Borne (s : Calls κ ω) (w : ω) : Prop := ∃ c, (s.call c).bears s.cell w

/-- `w` is registered, or being registered by `r`, and no wake has come since. -/
def Armed (s : Calls κ ω) (r : κ) (w : ω) : Prop :=
  (s.cell.state = waiting ∧ s.cell.waker = some w) ∨
  (s.cell.state = registering ∧ (s.call r = .register (.write w) ∨
    s.call r = .register .release ∧ s.cell.waker = some w))

/-- `w` is registered by `r`, and it will be invoked or is there for the next wake. -/
def Due (s : Calls κ ω) (r : κ) (w : ω) : Prop := Armed s r w ∨ Borne s w

/-- Who does not hold a busy cell leaves the slot alone and can only add WAKING. -/
theorem Call.step_outside {p : Call ω} (hp : p.holds = false) {a : AtomicWaker ω}
    (hn : a.state ≠ waiting) : (p.step a).cell.waker = a.waker ∧
      ((p.step a).cell.state = a.state ∨ (p.step a).cell.state = a.state ||| waking) := by
  cases p with
  | idle => exact ⟨rfl, .inl rfl⟩
  | register p =>
    cases p with
    | acquire w =>
      simp only [step, Register.step, if_neg hn]
      split <;> exact ⟨rfl, .inl rfl⟩
    | write _ | release | drain | swap _ => cases hp
    | invoke _ | done => exact ⟨rfl, .inl rfl⟩
  | wake p | take p =>
    cases p with
    | fetchOr => exact ⟨rfl, .inr rfl⟩
    | takeSlot | fetchAnd _ => cases hp
    | invoke _ | done => exact ⟨rfl, .inl rfl⟩

theorem Call.bears_mono {p : Call ω} {a b : AtomicWaker ω} {w : ω} (hb : p.bears a w)
    (waker : b.waker = a.waker)
    (state : b.state = a.state ∨ b.state = a.state ||| waking) : p.bears b w := by
  have both (h : a.state = registering ||| waking) : b.state = registering ||| waking := by
    obtain hs | hs := state <;> rw [hs, h]
    decide
  unfold bears at hb ⊢
  split at hb
  case h_1 => exact ⟨hb.1, both hb.2⟩
  case h_2 => exact ⟨waker ▸ hb.1, both hb.2⟩
  case h_3 | h_4 => exact waker ▸ hb
  all_goals exact hb

theorem Call.bears_local {p : Call ω} (hp : p.holds = false) {a : AtomicWaker ω} {w : ω}
    (hb : p.bears a w) (b : AtomicWaker ω) : p.bears b w := by
  unfold bears at hb ⊢
  split at hb <;> first | exact hb | cases hp

theorem bears_outside {s : Calls κ ω} (h : Exclusive s) {c u : κ} {w : ω} (hcu : c ≠ u)
    (hb : (s.call c).bears s.cell w) : ((s.advance u).call c).bears (s.advance u).cell w := by
  rw [Calls.advance, Calls.put_call, update_of_ne hcu, Calls.put_cell]
  cases hc : (s.call c).holds with
  | false => exact Call.bears_local hc hb _
  | true =>
    have hu : (s.call u).holds = false := by
      by_contra hu
      exact hcu (h.sole c u hc (by simpa using hu))
    obtain ⟨waker, state⟩ := Call.step_outside hu (h.not_waiting hc)
    exact Call.bears_mono hb waker state

/-- A bearer moves towards invoking what it bears. -/
theorem Call.bears_step {p : Call ω} {a : AtomicWaker ω} {w : ω} (hb : p.bears a w) :
    (p.step a).pc.bears (p.step a).cell w ∨ (p.step a).invoked = some w := by
  unfold bears at hb
  split at hb
  case h_1 =>
    obtain ⟨rfl, hs⟩ := hb
    exact .inl ⟨rfl, hs⟩
  case h_2 =>
    have hn : a.state ≠ registering := hb.2 ▸ both_ne_registering
    simp only [step, Register.step, if_neg hn]
    exact .inl hb.1
  case h_3 | h_4 => exact .inl hb
  case h_5 | h_6 =>
    subst hb
    exact .inl rfl
  case h_7 | h_8 =>
    subst hb
    exact .inr rfl
  case h_9 => exact hb.elim

theorem bears_advance {s : Calls κ ω} (h : Exclusive s) {c : κ} {w : ω}
    (hb : (s.call c).bears s.cell w) (u : κ) :
    ((s.advance u).call c).bears (s.advance u).cell w ∨ u = c ∧ s.invokes u = some w := by
  by_cases hcu : c = u
  · subst hcu
    obtain hb | hi := Call.bears_step hb
    · exact .inl (by rwa [Calls.advance, Calls.put_call, update_self])
    · exact .inr ⟨rfl, hi⟩
  · exact .inl (bears_outside h hcu hb)

theorem borne_advance {s : Calls κ ω} (h : Exclusive s) {w : ω} (hb : Borne s w) (u : κ) :
    Borne (s.advance u) w ∨ s.invokes u = some w := by
  obtain ⟨c, hc⟩ := hb
  obtain hc | ⟨_, hi⟩ := bears_advance h hc u
  · exact .inl ⟨c, hc⟩
  · exact .inr hi

theorem armed_waiting {s : Calls κ ω} (h : Exclusive s) {r u : κ} {w : ω}
    (hs : s.cell.state = waiting) (hw : s.cell.waker = some w)
    (acquire : ∀ v, s.call u ≠ .register (.acquire v)) (take : s.call u ≠ .take .fetchOr) :
    (Armed (s.advance u) r w ∧ s.call u ≠ .wake .fetchOr) ∨ Borne (s.advance u) w := by
  have free := h.holds_false hs u
  cases hc : s.call u with
  | idle => exact .inl ⟨.inl (by simp [Calls.advance, hc, Call.step, hs, hw]), by simp⟩
  | register p =>
    rw [hc] at free
    cases p with
    | acquire v => exact absurd hc (acquire v)
    | write _ | release | drain | swap _ => cases free
    | invoke _ | done =>
      exact .inl ⟨.inl (by simp [Calls.advance, hc, Call.step, Register.step, hs, hw]), by simp⟩
  | take p =>
    rw [hc] at free
    cases p with
    | fetchOr => exact absurd hc take
    | takeSlot | fetchAnd _ => cases free
    | invoke _ | done =>
      exact .inl ⟨.inl (by simp [Calls.advance, hc, Call.step, Wake.step, hs, hw]), by simp⟩
  | wake p =>
    rw [hc] at free
    cases p with
    | fetchOr =>
      refine .inr ⟨u, ?_⟩
      simp [Calls.advance, hc, Call.step, Wake.step, hs, Call.ofWake, Wake.resume, Call.bears,
        hw]
    | takeSlot | fetchAnd _ => cases free
    | invoke _ | done =>
      exact .inl ⟨.inl (by simp [Calls.advance, hc, Call.step, Wake.step, hs, hw]), by simp⟩

theorem armed_registering {s : Calls κ ω} (h : Exclusive s) {r u : κ} {w : ω}
    (hs : s.cell.state = registering) (hr : s.call r = .register (.write w) ∨
      s.call r = .register .release ∧ s.cell.waker = some w) :
    (Armed (s.advance u) r w ∧ s.call u ≠ .wake .fetchOr) ∨ Borne (s.advance u) w := by
  have holds : (s.call r).holds = true := by
    obtain hr | ⟨hr, _⟩ := hr <;> rw [hr] <;> rfl
  by_cases hur : u = r
  · subst hur
    left
    obtain hr | ⟨hr, hw⟩ := hr
    · exact ⟨.inr (by simp [Calls.advance, hr, Call.step, Register.step, hs, Call.ofRegister,
        Register.resume]), by simp [hr]⟩
    · exact ⟨.inl (by simp [Calls.advance, hr, Call.step, Register.step, hs, hw]), by simp [hr]⟩
  have outside : (s.call u).holds = false := by
    by_contra hu
    exact hur (h.sole u r (by simpa using hu) holds)
  obtain ⟨waker, state⟩ := Call.step_outside outside (h.not_waiting holds)
  have call : (s.advance u).call r = s.call r := by
    rw [Calls.advance, Calls.put_call, update_of_ne (Ne.symm hur)]
  obtain state | state := state
  · by_cases hu : s.call u = .wake .fetchOr
    · -- the word cannot have stayed
      rw [hu] at state
      simp [Call.step, Wake.step, hs, registering, waking] at state
    · refine .inl ⟨.inr ⟨state.trans hs, ?_⟩, hu⟩
      rw [call]
      obtain hr | ⟨hr, hw⟩ := hr
      · exact .inl hr
      · exact .inr ⟨hr, waker.trans hw⟩
  · refine .inr ⟨r, ?_⟩
    have both : (s.advance u).cell.state = registering ||| waking := by
      rw [← hs]
      exact state
    rw [call]
    obtain hr | ⟨hr, hw⟩ := hr
    · rw [hr]
      exact ⟨rfl, both⟩
    · rw [hr]
      exact ⟨waker.trans hw, both⟩

/-- An armed waker stays armed until a wake's `fetch_or` hands it to a bearer. -/
theorem armed_advance {s : Calls κ ω} (h : Exclusive s) {r u : κ} {w : ω} (ha : Armed s r w)
    (acquire : ∀ v, s.call u ≠ .register (.acquire v)) (take : s.call u ≠ .take .fetchOr) :
    (Armed (s.advance u) r w ∧ s.call u ≠ .wake .fetchOr) ∨ Borne (s.advance u) w := by
  obtain ⟨hs, hw⟩ | ⟨hs, hr⟩ := ha
  · exact armed_waiting h hs hw acquire take
  · exact armed_registering h hs hr

theorem due_advance {s : Calls κ ω} (h : Exclusive s) {r u : κ} {w : ω}
    (acquire : ∀ v, s.call u ≠ .register (.acquire v)) (take : s.call u ≠ .take .fetchOr)
    (hd : Due s r w) : Due (s.advance u) r w ∨ s.invokes u = some w := by
  obtain armed | borne := hd
  · obtain ⟨armed, _⟩ | borne := armed_advance h armed acquire take
    · exact .inl (.inl armed)
    · exact .inl (.inr borne)
  · exact (borne_advance h borne u).imp_left .inr

/-- A wake's `fetch_or` leaves no waker that is due without a bearer. -/
theorem borne_of_due {s : Calls κ ω} (h : Exclusive s) {r u : κ} {w : ω}
    (hu : s.call u = .wake .fetchOr) (hd : Due s r w) :
    Borne (s.advance u) w ∨ s.invokes u = some w := by
  obtain armed | borne := hd
  · obtain ⟨_, hne⟩ | borne := armed_advance (u := u) h armed (by simp [hu]) (by simp [hu])
    · exact absurd hu hne
    · exact .inl borne
  · exact borne_advance h borne u

/-- Only `r` registers. -/
def OnlyBy (s : Calls κ ω) (r : κ) : Prop := ∀ c p, s.call c = .register p → c = r

/-- The first `compare_exchange` of the only registering party arms its waker, or finds a
wake in flight and is left to invoke the waker itself. -/
theorem acquire_advance {s : Calls κ ω} (h : Exclusive s) {r : κ} (only : OnlyBy s r) {w : ω}
    (hr : s.call r = .register (.acquire w)) : Due (s.advance r) r w := by
  obtain hs | ⟨c, hc⟩ := h.free
  · refine .inl (.inr ⟨?_, .inl ?_⟩) <;>
      simp [Calls.advance, hr, Call.step, Register.step, hs, Call.ofRegister, Register.resume]
  · have hs : s.cell.state = waking := by
      have word := h.word c hc
      cases hp : s.call c with
      | idle => simp [hp, Call.holds] at hc
      | register p =>
        rw [only c p hp, hr] at hc
        cases hc
      | wake p | take p =>
        rw [hp] at hc word
        cases p with
        | takeSlot | fetchAnd _ => exact word
        | fetchOr | invoke _ | done => cases hc
    refine .inr ⟨r, ?_⟩
    simp [Calls.advance, hr, Call.step, Register.step, hs, waking_ne_waiting, Call.ofRegister,
      Register.resume, Call.bears]

theorem borne_begin {s : Calls κ ω} {u : κ} (hu : s.call u = .idle) {p : Call ω} {w : ω}
    (hb : Borne s w) : Borne (s.put u s.cell p) w := by
  obtain ⟨c, hc⟩ := hb
  have hcu : c ≠ u := by
    rintro rfl
    rw [hu] at hc
    exact hc
  exact ⟨c, by rwa [Calls.put_call, update_of_ne hcu]⟩

theorem armed_begin {s : Calls κ ω} {u r : κ} (hu : s.call u = .idle) {p : Call ω} {w : ω}
    (ha : Armed s r w) : Armed (s.put u s.cell p) r w := by
  obtain ha | ⟨hs, hr⟩ := ha
  · exact .inl ha
  · have hru : r ≠ u := by
      rintro rfl
      simp [hu] at hr
    exact .inr ⟨hs, by rwa [Calls.put_call, update_of_ne hru]⟩

theorem due_begin {s : Calls κ ω} {u r : κ} (hu : s.call u = .idle) {p : Call ω} {w : ω}
    (hd : Due s r w) : Due (s.put u s.cell p) r w :=
  hd.imp (armed_begin hu) (borne_begin hu)

/-- Nobody takes the waker away without invoking it. -/
def NoTake (s : Calls κ ω) : Prop := ∀ c p, s.call c ≠ .take p

theorem Call.take_of_step {a : AtomicWaker ω} {p : Call ω} {q : Wake ω}
    (h : (p.step a).pc = .take q) : ∃ q', p = .take q' := by
  cases p with
  | take q' => exact ⟨q', rfl⟩
  | idle => cases h
  | register p =>
    simp only [step] at h
    generalize (Register.step a p).pc = x at h
    cases x <;> cases h
  | wake p =>
    simp only [step] at h
    generalize (Wake.step a p).pc = x at h
    cases x <;> cases h

theorem Call.register_of_step {a : AtomicWaker ω} {p : Call ω} {q : Register ω}
    (h : (p.step a).pc = .register q) : ∃ q', p = .register q' := by
  cases p with
  | register q' => exact ⟨q', rfl⟩
  | idle => cases h
  | wake p | take p =>
    simp only [step] at h
    generalize (Wake.step a p).pc = x at h
    cases x <;> cases h

theorem noTake_advance {s : Calls κ ω} (h : NoTake s) (u : κ) : NoTake (s.advance u) := by
  refine (forall_update_iff s.call fun _ p => ∀ q, p ≠ .take q).mpr ⟨?_, fun c _ => h c⟩
  intro q hq
  obtain ⟨q', hu⟩ := Call.take_of_step hq
  exact h u q' hu

theorem onlyBy_advance {s : Calls κ ω} {r : κ} (h : OnlyBy s r) (u : κ) :
    OnlyBy (s.advance u) r := by
  refine (forall_update_iff s.call fun c p => ∀ q, p = .register q → c = r).mpr
    ⟨?_, fun c _ => h c⟩
  intro q hq
  obtain ⟨q', hu⟩ := Call.register_of_step hq
  exact h u q' hu

/-! The same for programs that make such calls: what one of their steps does to the cell. -/

/-- No `register` is about to make its first `compare_exchange`. -/
def Calm (s : Calls κ ω) : Prop := ∀ u v, s.call u ≠ .register (.acquire v)

/-- Nothing happens to the cell, an idle party begins a call, or a call advances. -/
def Moves (s t : Calls κ ω) (invoked : Option ω) : Prop :=
  t = s ∨ (∃ u p, s.call u = .idle ∧ p.holds = false ∧ t = s.put u s.cell p) ∨
    ∃ u, t = s.advance u ∧ invoked = s.invokes u

variable {s t : Calls κ ω} {r : κ} {w : ω} {i : Option ω}

theorem Moves.exclusive (m : Moves s t i) (h : Exclusive s) : Exclusive t := by
  obtain rfl | ⟨u, p, hu, hp, rfl⟩ | ⟨u, rfl, _⟩ := m
  · exact h
  · exact exclusive_begin h hu hp
  · exact exclusive_advance h u

theorem Moves.borne (m : Moves s t i) (h : Exclusive s) (hb : Borne s w) :
    Borne t w ∨ i = some w := by
  obtain rfl | ⟨u, p, hu, _, rfl⟩ | ⟨u, rfl, rfl⟩ := m
  · exact .inl hb
  · exact .inl (borne_begin hu hb)
  · exact borne_advance h hb u

theorem Moves.due (m : Moves s t i) (h : Exclusive s) (calm : Calm s) (take : NoTake s)
    (hd : Due s r w) : Due t r w ∨ i = some w := by
  obtain rfl | ⟨u, p, hu, _, rfl⟩ | ⟨u, rfl, rfl⟩ := m
  · exact .inl hd
  · exact .inl (due_begin hu hd)
  · exact due_advance h (calm u) (take u _) hd

end Px4Rs.AtomicWaker
