import Px4Rs.Advertisements

/-! The model of a shared publication in which each handle is a new one, and the model that
follows the advertisements: every run of the first is one of the second, in which the FFI
answers with those handles and the publication is not dropped. -/
namespace Px4Rs.FreshHandles
open Px4Rs.Runs Function
open Px4Rs.Publication (Caller Outcome)
open Px4Rs.Advertisements (Advert Call)
variable {τ M : Type*}

/-- The call that is in `ensure_advertised`. -/
def call (m : M) : Caller → Call M
  | .publish => .publish m
  | .advertise => .advertise m

/-- The same operation is next, on the same handle. -/
inductive Position : Publication.Pc M → Advertisements.Pc Nat M → Prop
  | idle : Position .idle .idle
  | ensureLoad (c : Caller) (m : M) : Position (.ensureLoad c m) (.load (call m c))
  | ensureAdvertise (c : Caller) (m : M) :
    Position (.ensureAdvertise c m) (.ffiAdvertise (call m c))
  | ensureCas (c : Caller) (m : M) (a : Advert Nat) (i : Int) :
    Position (.ensureCas c m a.addr) (.cas (call m c) (some a) i)
  | ensureDrop (c : Caller) (m : M) (a : Advert Nat) (i : Int) :
    Position (.ensureDrop c m a.addr) (.giveBack (call m c) (some a) i)
  | reload (m : M) : Position (.reload m) (.reload m)
  | ffiPublish (m : M) (h : Option (Advert Nat)) :
    Position (.ffiPublish m (h.map Advert.addr)) (.ffiPublish m h)
  | multiLoad (m : M) (r : Int) : Position (.multiLoad m r) (.load (.advertiseMulti m r))
  | multiAdvertise (m : M) (r : Int) :
    Position (.multiAdvertise m r) (.ffiAdvertise (.advertiseMulti m r))
  | multiCas (m : M) (r i : Int) (a : Advert Nat) :
    Position (.multiCas i a.addr) (.cas (.advertiseMulti m r) (some a) i)
  | multiDrop (m : M) (r i : Int) (a : Advert Nat) :
    Position (.multiDrop i a.addr) (.giveBack (.advertiseMulti m r) (some a) i)
  | swap : Position .swap .swap
  | ffiUnadvertise (a : Advert Nat) : Position (.ffiUnadvertise a.addr) (.ffiUnadvertise a)

structure Related (s : Publication.State τ M) (m : Advertisements.State τ Nat M) : Prop where
  handle : s.handle = m.handle.map Advert.addr
  pc : ∀ u, Position (s.pc u) (m.pc u)
  outcome : s.outcome = m.outcome
  alive : m.drop = .alive
  issued : s.issued = m.issued.map Advert.addr
  unadvertised : s.unadvertised.reverse.map some = m.unadvertised.map (Option.map Advert.addr)

theorem related_init : Related (Publication.init : Publication.State τ M) Advertisements.init :=
  ⟨rfl, fun _ => .idle, rfl, rfl, rfl, rfl⟩

variable {s t : Publication.State τ M} {m : Advertisements.State τ Nat M} {fits : M → Bool}
  {u : τ} {x : M} {p : Publication.Pc M} {p' : Advertisements.Pc Nat M}

namespace Related

theorem position (h : Related s m) (hu : s.pc u = p) : ∃ p', m.pc u = p' ∧ Position p p' :=
  ⟨_, rfl, hu ▸ h.pc u⟩

theorem absent (h : Related s m) (null : s.handle = none) : m.handle = none := by
  rw [h.handle] at null
  exact Option.map_eq_none_iff.mp null

theorem stored {first : Nat} (h : Related s m) (stored : s.handle = some first) :
    ∃ a, m.handle = some a ∧ a.addr = first := by
  rw [h.handle] at stored
  exact Option.map_eq_some_iff.mp stored

theorem store (h : Related s m) (a : Advert Nat) :
    Related { s with handle := some a.addr } { m with handle := some a } :=
  ⟨rfl, h.pc, h.outcome, h.alive, h.issued, h.unadvertised⟩

theorem take (h : Related s m) : Related { s with handle := none } { m with handle := none } :=
  ⟨rfl, h.pc, h.outcome, h.alive, h.issued, h.unadvertised⟩

theorem release (h : Related s m) (a : Advert Nat) :
    Related (s.release a.addr) { m with unadvertised := m.unadvertised ++ [some a] } := by
  refine ⟨h.handle, h.pc, h.outcome, h.alive, h.issued, ?_⟩
  simp [h.unadvertised]

variable [DecidableEq τ]

theorem goto (h : Related s m) (pos : Position p p') : Related (s.goto u p) (m.goto u p') := by
  refine ⟨h.handle, fun v => ?_, h.outcome, h.alive, h.issued, h.unadvertised⟩
  by_cases hv : v = u
  · subst hv
    simpa using pos
  · simpa [update_of_ne hv] using h.pc v

theorem ret (h : Related s m) (r : Outcome) : Related (s.ret u r) (m.ret u r) := by
  refine ⟨h.handle, fun v => ?_, ?_, h.alive, h.issued, h.unadvertised⟩
  · by_cases hv : v = u
    · subst hv
      simpa using Position.idle
    · simpa [update_of_ne hv] using h.pc v
  · exact congrArg (fun o => update o u (some r)) h.outcome

theorem ensured (h : Related s m) (x : M) (c : Caller) (i : Int) :
    Related (s.ensured u x c) (m.advertised u i (call x c)) := by
  cases c with
  | publish => exact h.goto (.reload x)
  | advertise => exact h.ret .advertised

theorem issue (h : Related s m) (first : Nat) (i : Int)
    (pos : Position p p') : Related ((s.issue first i).goto u p)
      { m.goto u p' with issued := ⟨first, m.issued.length⟩ :: m.issued } := by
  obtain ⟨handle, pc, outcome, alive, _, unadvertised⟩ := h.goto (u := u) pos
  exact ⟨handle, pc, outcome, alive, by simp [h.issued], unadvertised⟩

end Related

/-- A step of the first model is one of the second. -/
theorem related_step [DecidableEq τ] [DecidableEq M] {a : Publication.Act τ M} (h : Related s m)
    (next : Publication.Steps fits s a t) :
    ∃ b m', Advertisements.Steps fits m b m' ∧ Related t m' := by
  have alive := h.alive
  cases next with
  | @publish u x hu fit =>
    obtain ⟨_, here, ⟨⟩⟩ := h.position hu
    exact ⟨_, _, .publish here alive fit, h.goto (.ensureLoad .publish x)⟩
  | publishMismatch hu misfit =>
    obtain ⟨_, here, ⟨⟩⟩ := h.position hu
    exact ⟨_, _, .publishMismatch here alive misfit, h.ret _⟩
  | @advertise u x hu =>
    obtain ⟨_, here, ⟨⟩⟩ := h.position hu
    exact ⟨_, _, .advertise here alive, h.goto (.ensureLoad .advertise x)⟩
  | advertiseMulti hu fit =>
    obtain ⟨_, here, ⟨⟩⟩ := h.position hu
    exact ⟨_, _, .advertiseMulti here alive fit, h.goto (.multiLoad _ _)⟩
  | @advertiseMultiMismatch u x r hu misfit =>
    obtain ⟨_, here, ⟨⟩⟩ := h.position hu
    exact ⟨.advertiseMulti u x r, _, .advertiseMultiMismatch here alive misfit, h.ret _⟩
  | unadvertise hu =>
    obtain ⟨_, here, ⟨⟩⟩ := h.position hu
    exact ⟨_, _, .unadvertise here alive, h.goto .swap⟩
  | ensureLoad hu null =>
    obtain ⟨_, here, ⟨⟩⟩ := h.position hu
    exact ⟨_, _, .absent here (h.absent null), h.goto (.ensureAdvertise _ _)⟩
  | ensureFound hu stored =>
    obtain ⟨_, here, ⟨⟩⟩ := h.position hu
    obtain ⟨_, found, _⟩ := h.stored stored
    exact ⟨_, _, .found here found, h.ensured _ _ _⟩
  | @ensureAdvertise u c x first i hu _ =>
    obtain ⟨_, here, ⟨⟩⟩ := h.position hu
    exact ⟨.ffiAdvertise u (some first) i, _, .issue here,
      h.issue first i (.ensureCas c x ⟨first, _⟩ i)⟩
  | ensureStore hu null =>
    obtain ⟨_, here, ⟨⟩⟩ := h.position hu
    exact ⟨_, _, .store here (h.absent null), (h.store _).ensured _ _ _⟩
  | ensureLose hu stored =>
    obtain ⟨_, here, ⟨⟩⟩ := h.position hu
    obtain ⟨_, found, _⟩ := h.stored stored
    exact ⟨_, _, .lose here found, h.goto (.ensureDrop _ _ _ _)⟩
  | ensureDrop hu =>
    obtain ⟨_, here, ⟨⟩⟩ := h.position hu
    exact ⟨_, _, .giveBack here, (h.release _).ensured _ _ _⟩
  | @reload u x hu =>
    obtain ⟨_, here, ⟨⟩⟩ := h.position hu
    have pos : Position (.ffiPublish x s.handle) (.ffiPublish x m.handle) := by
      rw [h.handle]
      exact .ffiPublish x m.handle
    exact ⟨_, _, .reload here, h.goto pos⟩
  | ffiPublish hu =>
    obtain ⟨_, here, ⟨⟩⟩ := h.position hu
    exact ⟨_, _, .ffiPublish here, h.ret _⟩
  | multiLoad hu null =>
    obtain ⟨_, here, ⟨⟩⟩ := h.position hu
    exact ⟨_, _, .absent here (h.absent null), h.goto (.multiAdvertise _ _)⟩
  | multiFound hu stored =>
    obtain ⟨_, here, ⟨⟩⟩ := h.position hu
    obtain ⟨_, found, _⟩ := h.stored stored
    exact ⟨_, _, .found here found, h.ret _⟩
  | @multiAdvertise u x r first i hu _ =>
    obtain ⟨_, here, ⟨⟩⟩ := h.position hu
    exact ⟨.ffiAdvertise u (some first) i, _, .issue here,
      h.issue first i (.multiCas x r i ⟨first, _⟩)⟩
  | multiStore hu null =>
    obtain ⟨_, here, ⟨⟩⟩ := h.position hu
    exact ⟨_, _, .store here (h.absent null), (h.store _).ret _⟩
  | multiLose hu stored =>
    obtain ⟨_, here, ⟨⟩⟩ := h.position hu
    obtain ⟨_, found, _⟩ := h.stored stored
    exact ⟨_, _, .lose here found, h.goto (.multiDrop _ _ _ _)⟩
  | multiDrop hu =>
    obtain ⟨_, here, ⟨⟩⟩ := h.position hu
    exact ⟨_, _, .giveBack here, (h.release _).ret _⟩
  | swapNull hu null =>
    obtain ⟨_, here, ⟨⟩⟩ := h.position hu
    exact ⟨_, _, .swapNull here (h.absent null), h.ret _⟩
  | swap hu stored =>
    obtain ⟨_, here, ⟨⟩⟩ := h.position hu
    obtain ⟨_, found, rfl⟩ := h.stored stored
    exact ⟨_, _, .swap here found, h.take.goto (.ffiUnadvertise _)⟩
  | ffiUnadvertise hu =>
    obtain ⟨_, here, ⟨⟩⟩ := h.position hu
    exact ⟨_, _, .ffiUnadvertise here, (h.release _).ret _⟩

/-- The second model has the run with the same handle stored, the same handles issued and
unadvertised in the same order, and the same results of every call. -/
theorem exists_advertisements_run [DecidableEq τ] [DecidableEq M]
    {P : Publication.State τ M → Publication.Act τ M → Prop} {as : List (Publication.Act τ M)}
    (run : Run (Publication.step fits) P Publication.init as s) :
    ∃ bs m, Run (Advertisements.step fits) Advertisements.Owned Advertisements.init bs m ∧
      Related s m := by
  induction run with
  | nil => exact ⟨[], _, .nil, related_init⟩
  | snoc _ _ next ih =>
    obtain ⟨bs, m, run, related⟩ := ih
    obtain ⟨b, m', step, related'⟩ := related_step related (Publication.steps_of_step next)
    have owned : Advertisements.Owned m b := by
      cases step with
      | drop => cases related'.alive
      | _ => trivial
    exact ⟨_, m', run.snoc owned step.step, related'⟩

end Px4Rs.FreshHandles
