import Mathlib.Data.Fintype.Basic
import Px4Rs.Publication

/-! Which handles `publish` passes to the FFI when other threads may swap the handle out
between its three steps. -/
namespace Px4Rs.Publication
open Px4Rs.Runs Function
variable {τ M : Type*} [DecidableEq τ] [DecidableEq M] {fits : M → Bool}

/-- A non-null handle of an advertisement not yet passed to `ffi::unadvertise`. -/
def Live (s : State τ M) : Option Nat → Prop
  | none => False
  | some h => h ∈ s.issued ∧ h ∉ s.unadvertised

/-- If the next step is a call of `ffi::publish`, its handle is live. -/
def PublishesLive (s : State τ M) : Act τ M → Prop
  | .ffiPublish _ _ h _ => Live s h
  | _ => True

/-- No `publish` reloads the handle while it is null, and no `unadvertise` passes a handle
to the FFI while a `publish` holds it between its reload and its own call. -/
def Undisturbed (s : State τ M) : Act τ M → Prop
  | .reload _ _ => s.handle ≠ none
  | .ffiUnadvertise _ h => ∀ t m, s.pc t ≠ .ffiPublish m (some h)
  | _ => True

instance [Fintype τ] [Fintype M] (s : State τ M) : ∀ a, Decidable (Undisturbed s a)
  | .reload _ _ => inferInstanceAs (Decidable (s.handle ≠ none))
  | .ffiUnadvertise _ h => inferInstanceAs (Decidable (∀ t m, s.pc t ≠ .ffiPublish m (some h)))
  | .publish _ _ | .advertise _ _ | .advertiseMulti _ _ _ | .unadvertise _ | .ensureLoad _ _ _
  | .ensureAdvertise _ _ _ _ _ | .ensureCas _ _ _ _ | .ensureDrop _ _ _ _ | .ffiPublish _ _ _ _
  | .multiLoad _ _ _ | .multiAdvertise _ _ _ _ _ | .multiCas _ _ _ | .multiDrop _ _ _
  | .swap _ => .isTrue trivial

def Pc.obtained : Pc M → Option Nat
  | .ensureCas _ _ h | .ensureDrop _ _ h | .multiCas _ h | .multiDrop _ h => some h
  | _ => none

omit [DecidableEq M] in
theorem Pc.held_of_obtained {p : Pc M} {h : Nat} (hp : p.obtained = some h) :
    p.held = some h := by
  cases p <;> simp_all [Pc.obtained, Pc.held]

omit [DecidableEq M] in
@[simp] theorem Caller.next_obtained (m : M) (c : Caller) :
    (c.next m).obtained = none := by
  cases c <;> rfl

omit [DecidableEq M] in
theorem Caller.next_ne_ffiPublish (m m' : M) (c : Caller) (h : Option Nat) :
    c.next m ≠ .ffiPublish m' h := by
  cases c <;> simp [Caller.next]

/- What `publish` holds for the FFI has been stored, so no thread that lost a race to
   store it will drop it, and it is live. -/
structure Carried (s : State τ M) : Prop where
  custody : Custody s
  carried : ∀ t m h, s.pc t = .ffiPublish m h → Live s h
  stored : ∀ t m h, s.pc t = .ffiPublish m (some h) → ∀ u, (s.pc u).obtained ≠ some h

omit [DecidableEq τ] [DecidableEq M] in
theorem carried_init : Carried (init : State τ M) :=
  ⟨custody_init, by simp [init], by simp [init]⟩

omit [DecidableEq M] in
/-- A thread moves to a position other than the call, and what is held for a call stays
live. -/
theorem Carried.move {s t : State τ M} (h : Carried s) (custody : Custody t) {u : τ} {p : Pc M}
    (pc : t.pc = update s.pc u p) (hp : ∀ m x, p ≠ .ffiPublish m x)
    (live : ∀ v m x, s.pc v = .ffiPublish m x → Live s x → Live t x)
    (obtained : ∀ x, p.obtained = some x → (s.pc u).obtained = some x ∨ x ∉ s.issued) :
    Carried t := by
  have kept {v : τ} {m : M} {x : Option Nat} (hv : t.pc v = .ffiPublish m x) :
      s.pc v = .ffiPublish m x := by
    by_cases hvu : v = u
    · rw [pc, hvu, update_self] at hv
      exact absurd hv (hp m x)
    · rwa [pc, update_of_ne hvu] at hv
  refine ⟨custody, fun v m x hv => live v m x (kept hv) (h.carried v m x (kept hv)), ?_⟩
  intro v m x hv w hw
  by_cases hwu : w = u
  · rw [pc, hwu, update_self] at hw
    obtain hw | fresh := obtained x hw
    · exact h.stored v m x (kept hv) u hw
    · exact fresh (h.carried v m (some x) (kept hv)).1
  · rw [pc, update_of_ne hwu] at hw
    exact h.stored v m x (kept hv) w hw

omit [DecidableEq τ] [DecidableEq M] in
theorem Live.mono {s t : State τ M} {x : Option Nat} (h : Live s x)
    (issued : ∀ a ∈ s.issued, a ∈ t.issued)
    (unadvertised : ∀ a, x = some a → a ∈ t.unadvertised → a ∈ s.unadvertised) : Live t x := by
  cases x with
  | none => exact h
  | some a => exact ⟨issued a h.1, fun ha => h.2 (unadvertised a rfl ha)⟩

omit [DecidableEq M] in
theorem Carried.release {s t : State τ M} (h : Carried s) (custody : Custody t) {u : τ}
    {p : Pc M} {a : Nat} (pc : t.pc = update s.pc u p) (hp : ∀ m x, p ≠ .ffiPublish m x)
    (empty : p.obtained = none) (issued : t.issued = s.issued)
    (unadvertised : t.unadvertised = a :: s.unadvertised)
    (free : ∀ v m, s.pc v ≠ .ffiPublish m (some a)) : Carried t := by
  refine h.move custody pc hp (fun v m x hv live => live.mono ?_ ?_) fun x hx => ?_
  · rw [issued]
    exact fun _ => id
  · rintro b rfl hb
    rw [unadvertised] at hb
    obtain rfl | hb := List.mem_cons.mp hb
    · exact absurd hv (free v m)
    · exact hb
  · rw [empty] at hx
    cases hx

theorem carried_step {s t : State τ M} {a : Act τ M} (h : Carried s) (g : Undisturbed s a)
    (next : step fits s a = some t) : Carried t := by
  have custody := custody_step h.custody next
  cases steps_of_step next with
  | publish | publishMismatch | advertise | advertiseMulti | advertiseMultiMismatch | unadvertise
  | ensureLoad | ffiPublish | multiLoad | multiFound | multiStore | swapNull | swap =>
    exact h.move custody rfl (by simp) (fun _ _ _ _ => id) (by simp [Pc.obtained])
  | @ensureFound u c m | @ensureStore u c m =>
    exact h.move custody (State.ensured_pc _ u m c) (Caller.next_ne_ffiPublish m · c ·)
      (fun _ _ _ _ live => live.mono (by simp) (by simp)) (by simp)
  | @ensureAdvertise _ _ _ a _ _ fresh | @multiAdvertise _ _ _ a _ _ fresh =>
    refine h.move custody rfl (by simp) (fun _ _ _ _ live => live.mono ?_ fun _ _ => id) ?_
    · exact fun b hb => List.mem_cons_of_mem a hb
    · rintro x hx
      obtain rfl : a = x := by simpa [Pc.obtained] using hx
      exact .inr fresh
  | ensureLose hu | multiLose hu =>
    exact h.move custody rfl (by simp) (fun _ _ _ _ => id)
      fun x hx => .inl (by rw [hu]; exact hx)
  | @ensureDrop u c m a hu =>
    exact h.release (a := a) custody (State.ensured_pc _ u m c) (Caller.next_ne_ffiPublish m · c ·)
      (by simp) (by simp) (by simp)
      fun v n hv => h.stored v n a hv u (by rw [hu]; rfl)
  | @multiDrop u _ a hu =>
    exact h.release custody rfl (by simp) rfl rfl rfl
      fun v n hv => h.stored v n a hv u (by rw [hu]; rfl)
  | ffiUnadvertise => exact h.release custody rfl (by simp) rfl rfl rfl g
  | @reload u m =>
    -- the stored handle is live, and no thread that lost a race holds it
    refine ⟨custody, fun v n x hv => ?_, fun v n x hv w hw => ?_⟩
    · by_cases hvu : v = u
      · obtain ⟨rfl, rfl⟩ : m = n ∧ s.handle = x := by simpa [hvu] using hv
        cases hs : s.handle with
        | none => exact absurd hs g
        | some y => exact h.custody.stored y hs
      · exact h.carried v n x (by simpa [update_of_ne hvu] using hv)
    · by_cases hwu : w = u
      · simp [hwu, Pc.obtained] at hw
      · have hw : (s.pc w).obtained = some x := by simpa [update_of_ne hwu] using hw
        by_cases hvu : v = u
        · obtain ⟨_, hs⟩ : m = n ∧ s.handle = some x := by simpa [hvu] using hv
          exact (h.custody.held w x (Pc.held_of_obtained hw)).2.2 hs
        · exact h.stored v n x (by simpa [update_of_ne hvu] using hv) w hw

/-- What a publish holds for the FFI. -/
def Doomed (u : τ) (m : M) (h : Option Nat) (s : State τ M) : Prop :=
  s.pc u = .ffiPublish m h ∧ ∀ x, h = some x → x ∈ s.unadvertised

omit [DecidableEq M] in
theorem Doomed.move {s t : State τ M} {u v : τ} {m : M} {x : Option Nat} {p : Pc M}
    (h : Doomed u m x s) (pc : t.pc = update s.pc v p) (hv : s.pc v ≠ .ffiPublish m x)
    (unadvertised : ∀ a ∈ s.unadvertised, a ∈ t.unadvertised) : Doomed u m x t := by
  have hne : u ≠ v := by
    rintro rfl
    exact hv h.1
  refine ⟨?_, fun a ha => unadvertised a (h.2 a ha)⟩
  rw [pc, update_of_ne hne]
  exact h.1

theorem doomed_step {s t : State τ M} {a : Act τ M} {u : τ} {m : M} {x : Option Nat}
    (h : Doomed u m x s) (wait : ∀ rc, a ≠ .ffiPublish u m x rc)
    (next : step fits s a = some t) : Doomed u m x t := by
  cases steps_of_step next with
  | publish hv | publishMismatch hv | advertise hv | advertiseMulti hv | advertiseMultiMismatch hv
  | unadvertise hv | ensureLoad hv | ensureAdvertise hv | ensureLose hv | reload hv | multiLoad hv
  | multiFound hv | multiAdvertise hv | multiStore hv | multiLose hv | swapNull hv | swap hv =>
    exact h.move rfl (by simp [hv]) fun _ => id
  | @ensureFound v c n _ hv | @ensureStore v c n _ hv =>
    exact h.move (State.ensured_pc _ v n c) (by simp [hv]) (by simp)
  | @ensureDrop v c n _ hv =>
    exact h.move (State.ensured_pc _ v n c) (by simp [hv]) (by simp +contextual)
  | @multiDrop _ _ a hv | @ffiUnadvertise _ a hv =>
    exact h.move rfl (by simp [hv]) fun _ => List.mem_cons_of_mem a
  | @ffiPublish v n y rc hv =>
    have hne : u ≠ v := by
      rintro rfl
      rw [h.1] at hv
      cases hv
      exact wait rc rfl
    exact ⟨by simpa [update_of_ne hne] using h.1, h.2⟩

omit [DecidableEq τ] [DecidableEq M] in
theorem Doomed.not_live {s : State τ M} {u : τ} {m : M} {x : Option Nat}
    (h : Doomed u m x s) : ¬ Live s x := by
  cases x with
  | none => exact id
  | some x => exact fun hl => hl.2 (h.2 x rfl)

/-- The publish a breach concerns: it holds null, or the handle just unadvertised. -/
theorem doomed_of_breach {s t : State τ M} {a : Act τ M} (breach : ¬ Undisturbed s a)
    (next : step fits s a = some t) : ∃ u m x, Doomed u m x t := by
  cases steps_of_step next with
  | @reload u m =>
    simp only [Undisturbed, not_not] at breach
    exact ⟨u, m, none, by simp [Doomed, breach]⟩
  | @ffiUnadvertise v h hv =>
    simp only [Undisturbed, not_forall, not_not] at breach
    obtain ⟨u, m, hu⟩ := breach
    have hne : u ≠ v := by rintro rfl; simp [hu] at hv
    exact ⟨u, m, some h, by simp [Doomed, update_of_ne hne, hu]⟩
  | _ => exact absurd trivial breach

/-- While no publish reloads a null handle and no handle is unadvertised under a publish
that has reloaded it, every handle passed to `ffi::publish` is live. A step that breaks
this leaves a publish whose call, whenever it comes, passes null or a dead handle. -/
theorem publish_handles_live {as : List (Act τ M)} {s : State τ M}
    (h : Run (step fits) Undisturbed init as s) :
    Run (step fits) PublishesLive init as s ∧
    ∀ a t, ¬ Undisturbed s a → step fits s a = some t → ∃ u m x,
      ∀ bs r, Run (step fits) (fun _ b => ∀ rc, b ≠ .ffiPublish u m x rc) t bs r →
        ∀ rc, (step fits r (.ffiPublish u m x rc)).isSome = true ∧
          ¬ PublishesLive r (.ffiPublish u m x rc) := by
  constructor
  · apply h.imp carried_init fun _ _ _ => carried_step
    intro s a t hs next _
    cases steps_of_step next with
    | @ffiPublish u m x rc hu => exact hs.carried u m x hu
    | _ => trivial
  · intro a t breach next
    obtain ⟨u, m, x, doomed⟩ := doomed_of_breach breach next
    refine ⟨u, m, x, fun bs r run rc => ?_⟩
    have doomed := run.invariant doomed fun _ _ _ => doomed_step
    exact ⟨by simp [step, doomed.1], doomed.not_live⟩

/-- One thread publishes, advertising first; the other then unadvertises. -/
def publishThenUnadvertise : List (Act Bool Unit) :=
  [.publish true (), .ensureLoad true .publish (), .ensureAdvertise true .publish () 7 0,
    .ensureCas true .publish () 7, .reload true (), .ffiPublish true () (some 7) 0,
    .unadvertise false, .swap false, .ffiUnadvertise false 7]

theorem publish_handles_live_alternating :
    ∃ s, Run (step typed) Undisturbed init publishThenUnadvertise s ∧
      Run (step typed) PublishesLive init publishThenUnadvertise s := by
  obtain ⟨s, run, _⟩ := exists_run (step typed) Undisturbed init
    publishThenUnadvertise (fun _ => true) rfl
  exact ⟨s, run, (publish_handles_live run).1⟩

/-- One thread is inside `publish`, past `ensure_advertised`, when the other unadvertises:
before the reload the FFI is passed null, after it a handle already unadvertised. -/
theorem publish_passes_dead_handle :
    (∃ s, Run (step typed) Free init
        [.advertise false (), .ensureLoad false .advertise (),
          .ensureAdvertise false .advertise () 7 0, .ensureCas false .advertise () 7,
          .publish true (), .ensureLoad true .publish (), .unadvertise false, .swap false,
          .reload true ()] s ∧
      (step typed s (.ffiPublish true () none 0)).isSome = true ∧
      ¬ PublishesLive s (.ffiPublish true () none 0)) ∧
    ∃ s, Run (step typed) Free init
        [.advertise false (), .ensureLoad false .advertise (),
          .ensureAdvertise false .advertise () 7 0, .ensureCas false .advertise () 7,
          .publish true (), .ensureLoad true .publish (), .reload true (), .unadvertise false,
          .swap false, .ffiUnadvertise false 7] s ∧
      (step typed s (.ffiPublish true () (some 7) 0)).isSome = true ∧
      ¬ PublishesLive s (.ffiPublish true () (some 7) 0) := by
  constructor
  · obtain ⟨s, run, hs⟩ := exists_run (step typed) Free init
      [.advertise false (), .ensureLoad false .advertise (),
        .ensureAdvertise false .advertise () 7 0, .ensureCas false .advertise () 7,
        .publish true (), .ensureLoad true .publish (), .unadvertise false, .swap false,
        .reload true ()]
      (fun s => (step typed s (.ffiPublish true () none 0)).isSome) rfl
    exact ⟨s, run, hs, id⟩
  · obtain ⟨s, run, hs⟩ := exists_run (step typed) Free init
      [.advertise false (), .ensureLoad false .advertise (),
        .ensureAdvertise false .advertise () 7 0, .ensureCas false .advertise () 7,
        .publish true (), .ensureLoad true .publish (), .reload true (), .unadvertise false,
        .swap false, .ffiUnadvertise false 7]
      (fun s => (step typed s (.ffiPublish true () (some 7) 0)).isSome ∧ 7 ∈ s.unadvertised) rfl
    simp only [Bool.decide_and, Bool.decide_eq_true, Bool.and_eq_true, decide_eq_true_eq] at hs
    exact ⟨s, run, hs.1, fun hl => hl.2 hs.2⟩

end Px4Rs.Publication
