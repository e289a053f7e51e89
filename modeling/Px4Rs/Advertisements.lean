import Mathlib.Data.Fintype.Basic
import Mathlib.Data.List.Nodup
import Mathlib.Data.List.Perm.Basic
import Px4Rs.Ledger
import Px4Rs.Publication

/-! Who has each advertisement of one shared `Publication` or `RawPublication`, from its
first call to its drop. The FFI may return null, and may return one address for several
advertisements, as the host broker does; the code looks at a handle only to see whether it
is null. -/
namespace Px4Rs.Advertisements
open Px4Rs.Runs Px4Rs.Ledger Function
open Px4Rs.Publication (PubError Outcome)
variable {τ α M : Type*}

/- A non-null handle. `no` is history: it tells the advertisements of one address apart,
   as the number of those that the FFI had returned before. -/
structure Advert (α : Type*) where
  addr : α
  no : Nat
deriving DecidableEq

inductive Call (M : Type*) where
  | publish (m : M)
  | advertise (m : M)
  | advertiseMulti (m : M) (requested : Int)
deriving DecidableEq

/-- The next operation of a thread, with the handle it holds (`none` is null). -/
inductive Pc (α M : Type*) where
  | idle
  | load (k : Call M)
  | ffiAdvertise (k : Call M)
  | cas (k : Call M) (h : Option (Advert α)) (inst : Int)
  | giveBack (k : Call M) (h : Option (Advert α)) (inst : Int)
  | reload (m : M)
  | ffiPublish (m : M) (h : Option (Advert α))
  | swap
  | ffiUnadvertise (a : Advert α)
deriving DecidableEq

inductive Drop (α : Type*) where
  | alive
  | swap
  | ffiUnadvertise (a : Advert α)
  | dropped

/- `handle` is the atomic pointer, `issued` the non-null handles the FFI has returned and
   `unadvertised` the handles passed to `ffi::unadvertise`, in order. -/
structure State (τ α M : Type*) where
  handle : Option (Advert α)
  pc : τ → Pc α M
  outcome : τ → Option Outcome
  drop : Drop α
  issued : List (Advert α)
  unadvertised : List (Option (Advert α))

def init : State τ α M where
  handle := none
  pc := fun _ => .idle
  outcome := fun _ => none
  drop := .alive
  issued := []
  unadvertised := []

/-- The instance a call returns when it finds the publication advertised. -/
def Call.requested : Call M → Int
  | .publish _ | .advertise _ => 0
  | .advertiseMulti _ requested => requested

/- `r` is what `ffi::advertise` or `ffi::advertise_multi` returned, with the instance, and
   `rc` the status of `ffi::publish`. -/
inductive Act (τ α M : Type*) where
  | publish (t : τ) (m : M)
  | advertise (t : τ) (m : M)
  | advertiseMulti (t : τ) (m : M) (requested : Int)
  | unadvertise (t : τ)
  | load (t : τ)
  | ffiAdvertise (t : τ) (r : Option α) (assigned : Int)
  | cas (t : τ)
  | giveBack (t : τ)
  | reload (t : τ)
  | ffiPublish (t : τ) (rc : Int)
  | swap (t : τ)
  | ffiUnadvertise (t : τ)
  | drop
  | dropSwap
  | dropUnadvertise

section Step
variable [DecidableEq τ]

@[simps] def State.goto (s : State τ α M) (t : τ) (p : Pc α M) : State τ α M :=
  { s with pc := update s.pc t p }

@[simps] def State.ret (s : State τ α M) (t : τ) (r : Outcome) : State τ α M :=
  { s with pc := update s.pc t .idle, outcome := update s.outcome t (some r) }

/-- The publication is advertised: `publish` goes on, the others return. -/
def State.advertised (s : State τ α M) (t : τ) (inst : Int) : Call M → State τ α M
  | .publish m => s.goto t (.reload m)
  | .advertise _ => s.ret t .advertised
  | .advertiseMulti _ _ => s.ret t (.advertisedMulti (.ok inst))

/-- One operation of a thread or of the drop; `fits` is the length check of the wrapper. -/
def step (fits : M → Bool) (s : State τ α M) : Act τ α M → Option (State τ α M)
  | .publish t m =>
    match s.pc t, s.drop with
    | .idle, .alive => some (
        if fits m then s.goto t (.load (.publish m))
        else s.ret t (.published (.error .sizeMismatch)))
    | _, _ => none
  | .advertise t m =>
    match s.pc t, s.drop with
    | .idle, .alive => some (s.goto t (.load (.advertise m)))
    | _, _ => none
  | .advertiseMulti t m requested =>
    match s.pc t, s.drop with
    | .idle, .alive => some (
        if fits m then s.goto t (.load (.advertiseMulti m requested))
        else s.ret t (.advertisedMulti (.error .sizeMismatch)))
    | _, _ => none
  | .unadvertise t =>
    match s.pc t, s.drop with
    | .idle, .alive => some (s.goto t .swap)
    | _, _ => none
  | .load t =>
    match s.pc t with
    | .load k => some (
        match s.handle with
        | none => s.goto t (.ffiAdvertise k)
        | some _ => s.advertised t k.requested k)
    | _ => none
  | .ffiAdvertise t r assigned =>
    match s.pc t with
    | .ffiAdvertise k => some (
        match r with
        | none => s.goto t (.cas k none assigned)
        | some addr =>
          let a : Advert α := ⟨addr, s.issued.length⟩
          { s.goto t (.cas k (some a) assigned) with issued := a :: s.issued })
    | _ => none
  | .cas t =>
    match s.pc t with
    | .cas k h assigned => some (
        match s.handle with
        | none => { s with handle := h }.advertised t assigned k
        -- someone else was first: this call's own advertisement goes
        | some _ => s.goto t (.giveBack k h assigned))
    | _ => none
  | .giveBack t =>
    match s.pc t with
    | .giveBack k h assigned =>
      some ({ s with unadvertised := s.unadvertised ++ [h] }.advertised t assigned k)
    | _ => none
  | .reload t =>
    match s.pc t with
    | .reload m => some (s.goto t (.ffiPublish m s.handle))
    | _ => none
  | .ffiPublish t rc =>
    match s.pc t with
    | .ffiPublish _ _ =>
      some (s.ret t (.published (if rc = 0 then .ok () else .error .failed)))
    | _ => none
  | .swap t =>
    match s.pc t with
    | .swap => some (
        match s.handle with
        | none => s.ret t .unadvertised
        | some a => { s with handle := none }.goto t (.ffiUnadvertise a))
    | _ => none
  | .ffiUnadvertise t =>
    match s.pc t with
    | .ffiUnadvertise a =>
      some ({ s with unadvertised := s.unadvertised ++ [some a] }.ret t .unadvertised)
    | _ => none
  | .drop =>
    match s.drop with
    | .alive => some { s with drop := .swap }
    | _ => none
  | .dropSwap =>
    match s.drop with
    | .swap => some (
        match s.handle with
        | none => { s with drop := .dropped }
        | some a => { s with handle := none, drop := .ffiUnadvertise a })
    | _ => none
  | .dropUnadvertise =>
    match s.drop with
    | .ffiUnadvertise a =>
      some { s with unadvertised := s.unadvertised ++ [some a], drop := .dropped }
    | _ => none

def Call.next : Call M → Pc α M
  | .publish m => .reload m
  | .advertise _ | .advertiseMulti _ _ => .idle

section Advertised
variable (s : State τ α M) (t : τ) (i : Int) (k : Call M)

@[simp] theorem State.advertised_pc : (s.advertised t i k).pc = update s.pc t k.next := by
  cases k <;> rfl

@[simp] theorem State.advertised_handle : (s.advertised t i k).handle = s.handle := by
  cases k <;> rfl

@[simp] theorem State.advertised_drop : (s.advertised t i k).drop = s.drop := by cases k <;> rfl

@[simp] theorem State.advertised_issued : (s.advertised t i k).issued = s.issued := by
  cases k <;> rfl

@[simp] theorem State.advertised_unadvertised :
    (s.advertised t i k).unadvertised = s.unadvertised := by
  cases k <;> rfl

end Advertised

inductive Steps (fits : M → Bool) (s : State τ α M) : Act τ α M → State τ α M → Prop
  | publish {t m} (hu : s.pc t = .idle) (alive : s.drop = .alive) (fit : fits m = true) :
    Steps fits s (.publish t m) (s.goto t (.load (.publish m)))
  | publishMismatch {t m} (hu : s.pc t = .idle) (alive : s.drop = .alive)
    (misfit : fits m = false) :
    Steps fits s (.publish t m) (s.ret t (.published (.error .sizeMismatch)))
  | advertise {t m} (hu : s.pc t = .idle) (alive : s.drop = .alive) :
    Steps fits s (.advertise t m) (s.goto t (.load (.advertise m)))
  | advertiseMulti {t m i} (hu : s.pc t = .idle) (alive : s.drop = .alive) (fit : fits m = true) :
    Steps fits s (.advertiseMulti t m i) (s.goto t (.load (.advertiseMulti m i)))
  | advertiseMultiMismatch {t m i} (hu : s.pc t = .idle) (alive : s.drop = .alive)
    (misfit : fits m = false) :
    Steps fits s (.advertiseMulti t m i) (s.ret t (.advertisedMulti (.error .sizeMismatch)))
  | unadvertise {t} (hu : s.pc t = .idle) (alive : s.drop = .alive) :
    Steps fits s (.unadvertise t) (s.goto t .swap)
  | absent {t k} (hu : s.pc t = .load k) (null : s.handle = none) :
    Steps fits s (.load t) (s.goto t (.ffiAdvertise k))
  | found {t k a} (hu : s.pc t = .load k) (stored : s.handle = some a) :
    Steps fits s (.load t) (s.advertised t k.requested k)
  | refuse {t k i} (hu : s.pc t = .ffiAdvertise k) :
    Steps fits s (.ffiAdvertise t none i) (s.goto t (.cas k none i))
  | issue {t k addr i} (hu : s.pc t = .ffiAdvertise k) :
    Steps fits s (.ffiAdvertise t (some addr) i)
      { s.goto t (.cas k (some ⟨addr, s.issued.length⟩) i) with
        issued := ⟨addr, s.issued.length⟩ :: s.issued }
  | store {t k h i} (hu : s.pc t = .cas k h i) (null : s.handle = none) :
    Steps fits s (.cas t) ({ s with handle := h }.advertised t i k)
  | lose {t k h i a} (hu : s.pc t = .cas k h i) (stored : s.handle = some a) :
    Steps fits s (.cas t) (s.goto t (.giveBack k h i))
  | giveBack {t k h i} (hu : s.pc t = .giveBack k h i) :
    Steps fits s (.giveBack t)
      ({ s with unadvertised := s.unadvertised ++ [h] }.advertised t i k)
  | reload {t m} (hu : s.pc t = .reload m) :
    Steps fits s (.reload t) (s.goto t (.ffiPublish m s.handle))
  | ffiPublish {t m h rc} (hu : s.pc t = .ffiPublish m h) :
    Steps fits s (.ffiPublish t rc)
      (s.ret t (.published (if rc = 0 then .ok () else .error .failed)))
  | swapNull {t} (hu : s.pc t = .swap) (null : s.handle = none) :
    Steps fits s (.swap t) (s.ret t .unadvertised)
  | swap {t a} (hu : s.pc t = .swap) (stored : s.handle = some a) :
    Steps fits s (.swap t) ({ s with handle := none }.goto t (.ffiUnadvertise a))
  | ffiUnadvertise {t a} (hu : s.pc t = .ffiUnadvertise a) :
    Steps fits s (.ffiUnadvertise t)
      ({ s with unadvertised := s.unadvertised ++ [some a] }.ret t .unadvertised)
  | drop (alive : s.drop = .alive) : Steps fits s .drop { s with drop := .swap }
  | dropSwapNull (swap : s.drop = .swap) (null : s.handle = none) :
    Steps fits s .dropSwap { s with drop := .dropped }
  | dropSwap {a} (swap : s.drop = .swap) (stored : s.handle = some a) :
    Steps fits s .dropSwap { s with handle := none, drop := .ffiUnadvertise a }
  | dropUnadvertise {a} (leaving : s.drop = .ffiUnadvertise a) :
    Steps fits s .dropUnadvertise
      { s with unadvertised := s.unadvertised ++ [some a], drop := .dropped }

theorem steps_of_step {fits : M → Bool} {s t : State τ α M} {x : Act τ α M}
    (next : step fits s x = some t) : Steps fits s x t := by
  cases x with
  | publish u m =>
    simp only [step] at next
    split at next
    · rename_i hu alive
      split at next <;> rename_i fit <;> cases next
      · exact .publish hu alive fit
      · exact .publishMismatch hu alive (by simpa using fit)
    · cases next
  | advertise u m =>
    simp only [step] at next
    split at next <;> cases next
    exact .advertise ‹_› ‹_›
  | advertiseMulti u m i =>
    simp only [step] at next
    split at next
    · rename_i hu alive
      split at next <;> rename_i fit <;> cases next
      · exact .advertiseMulti hu alive fit
      · exact .advertiseMultiMismatch hu alive (by simpa using fit)
    · cases next
  | unadvertise u =>
    simp only [step] at next
    split at next <;> cases next
    exact .unadvertise ‹_› ‹_›
  | load u =>
    simp only [step] at next
    split at next
    · rename_i k hu
      split at next <;> rename_i stored <;> cases next
      · exact .absent hu stored
      · exact .found hu stored
    · cases next
  | ffiAdvertise u r i =>
    simp only [step] at next
    split at next
    · rename_i k hu
      cases r <;> cases next
      · exact .refuse hu
      · exact .issue hu
    · cases next
  | cas u =>
    simp only [step] at next
    split at next
    · rename_i k r i hu
      split at next <;> rename_i stored <;> cases next
      · exact .store hu stored
      · exact .lose hu stored
    · cases next
  | giveBack u =>
    simp only [step] at next
    split at next <;> cases next
    exact .giveBack ‹_›
  | reload u =>
    simp only [step] at next
    split at next <;> cases next
    exact .reload ‹_›
  | ffiPublish u rc =>
    simp only [step] at next
    split at next <;> cases next
    exact .ffiPublish ‹_›
  | swap u =>
    simp only [step] at next
    split at next
    · rename_i hu
      split at next <;> rename_i stored <;> cases next
      · exact .swapNull hu stored
      · exact .swap hu stored
    · cases next
  | ffiUnadvertise u =>
    simp only [step] at next
    split at next <;> cases next
    exact .ffiUnadvertise ‹_›
  | drop =>
    simp only [step] at next
    split at next <;> cases next
    exact .drop ‹_›
  | dropSwap =>
    simp only [step] at next
    split at next
    · rename_i swap
      split at next <;> rename_i stored <;> cases next
      · exact .dropSwapNull swap stored
      · exact .dropSwap swap stored
    · cases next
  | dropUnadvertise =>
    simp only [step] at next
    split at next <;> cases next
    exact .dropUnadvertise ‹_›

theorem Steps.step {fits : M → Bool} {s t : State τ α M} {x : Act τ α M}
    (h : Steps fits s x t) : step fits s x = some t := by
  cases h with
  | publish hu alive fits | advertiseMulti hu alive fits =>
    simp only [Advertisements.step, hu, alive, fits, if_true]
  | publishMismatch hu alive fits | advertiseMultiMismatch hu alive fits =>
    simp only [Advertisements.step, hu, alive, fits, Bool.false_eq_true, if_false]
  | advertise hu alive | unadvertise hu alive => simp only [Advertisements.step, hu, alive]
  | absent hu handle | found hu handle | store hu handle | lose hu handle | swapNull hu handle
  | swap hu handle | dropSwapNull hu handle | dropSwap hu handle =>
    simp only [Advertisements.step, hu, handle]
  | refuse h | issue h | giveBack h | reload h | ffiPublish h | ffiUnadvertise h | drop h
  | dropUnadvertise h => simp only [Advertisements.step, h]

end Step

/-- The drop takes the publication by `&mut`: no call is in progress. -/
def Owned (s : State τ α M) : Act τ α M → Prop
  | .drop => ∀ t, s.pc t = .idle
  | _ => True

instance [Fintype τ] [DecidableEq α] [DecidableEq M] (s : State τ α M) :
    ∀ a, Decidable (Owned s a)
  | .drop => inferInstanceAs (Decidable (∀ t, s.pc t = .idle))
  | .publish _ _ | .advertise _ _ | .advertiseMulti _ _ _ | .unadvertise _ | .load _
  | .ffiAdvertise _ _ _ | .cas _ | .giveBack _ | .reload _ | .ffiPublish _ _ | .swap _
  | .ffiUnadvertise _ | .dropSwap | .dropUnadvertise => .isTrue trivial

/-! Where an advertisement can be. -/

inductive Place (τ : Type*) where
  | obtained (t : τ)
  | stored
  | leaving (t : τ)
  | dropping
  | passed (i : Nat)

/-- The handle the FFI has just given this call. -/
def Pc.obtained : Pc α M → Option (Advert α)
  | .cas _ h _ => h
  | .idle | .load _ | .ffiAdvertise _ | .giveBack _ _ _ | .reload _ | .ffiPublish _ _ | .swap
  | .ffiUnadvertise _ => none

/-- The handle this call is about to unadvertise. -/
def Pc.leaving : Pc α M → Option (Advert α)
  | .giveBack _ h _ => h
  | .ffiUnadvertise a => some a
  | .idle | .load _ | .ffiAdvertise _ | .cas _ _ _ | .reload _ | .ffiPublish _ _ | .swap => none

def Drop.leaving : Drop α → Option (Advert α)
  | .ffiUnadvertise a => some a
  | .alive | .swap | .dropped => none

/-- What a place holds; `passed i` is the `i`-th call of `ffi::unadvertise`. -/
def State.place (s : State τ α M) : Place τ → Option (Advert α)
  | .obtained t => (s.pc t).obtained
  | .stored => s.handle
  | .leaving t => (s.pc t).leaving
  | .dropping => s.drop.leaving
  | .passed i => s.unadvertised[i]?.join

@[simp] theorem Call.next_obtained (k : Call M) : (k.next : Pc α M).obtained = none := by
  cases k <;> rfl

@[simp] theorem Call.next_leaving (k : Call M) : (k.next : Pc α M).leaving = none := by
  cases k <;> rfl

variable [DecidableEq τ] {fits : M → Bool} {s t : State τ α M} {u : τ} {p q : Pc α M}
  {a : Advert α} {x : Act τ α M}

omit [DecidableEq τ] in
theorem passed_append {l : List (Option (Advert α))} {h : Option (Advert α)} {i : Nat}
    (hi : i ≠ l.length) : (l ++ [h])[i]? = l[i]? := by
  obtain hi | hi := Nat.lt_or_gt_of_ne hi
  · exact List.getElem?_append_left hi
  · rw [List.getElem?_eq_none, List.getElem?_eq_none]
    · omega
    · simp only [List.length_append, List.length_singleton]
      omega

/-- Where a thread's move changes nothing: the other threads' places, and the shared ones
that it does not touch. -/
theorem place_frame (pc : t.pc = update s.pc u p) (drop : t.drop = s.drop) {r : Place τ}
    (hr : r ≠ .obtained u) (hr' : r ≠ .leaving u) (stored : r = .stored → t.handle = s.handle)
    (passed : ∀ i, r = .passed i → t.unadvertised[i]? = s.unadvertised[i]?) :
    t.place r = s.place r := by
  cases r with
  | obtained v =>
    have hv : v ≠ u := by
      rintro rfl
      exact hr rfl
    simp only [State.place, pc, update_of_ne hv]
  | leaving v =>
    have hv : v ≠ u := by
      rintro rfl
      exact hr' rfl
    simp only [State.place, pc, update_of_ne hv]
  | stored => exact stored rfl
  | dropping => simp only [State.place, drop]
  | passed i => simp only [State.place, passed i rfl]

theorem stay_thread (h : Conserved s.place s.issued) (pc : t.pc = update s.pc u p)
    (drop : t.drop = s.drop) (handle : t.handle = s.handle) (issued : t.issued = s.issued)
    (passed : ∀ i : Nat, t.unadvertised[i]?.join = s.unadvertised[i]?.join)
    (hu : s.pc u = q) (before : q.obtained = none ∧ q.leaving = none)
    (after : p.obtained = none ∧ p.leaving = none) : Conserved t.place t.issued := by
  subst hu
  rw [issued]
  refine h.stay fun r => ?_
  cases r with
  | obtained v =>
    by_cases hv : v = u
    · subst hv
      simp only [State.place, pc, update_self, before, after]
    · simp only [State.place, pc, update_of_ne hv]
  | leaving v =>
    by_cases hv : v = u
    · subst hv
      simp only [State.place, pc, update_self, before, after]
    · simp only [State.place, pc, update_of_ne hv]
  | stored => exact handle
  | dropping => simp only [State.place, drop]
  | passed i => exact passed i

theorem issue_thread (h : Conserved s.place s.issued) (pc : t.pc = update s.pc u p)
    (drop : t.drop = s.drop) (handle : t.handle = s.handle) (issued : t.issued = a :: s.issued)
    (unadvertised : t.unadvertised = s.unadvertised) (fresh : a ∉ s.issued)
    (hu : s.pc u = q) (before : q.obtained = none ∧ q.leaving = none)
    (after : p.obtained = some a ∧ p.leaving = none) : Conserved t.place t.issued := by
  subst hu
  rw [issued]
  refine h.issue fresh (q := .obtained u) before.1 ?_ fun r hr => ?_
  · simp only [State.place, pc, update_self, after]
  · by_cases hr' : r = .leaving u
    · simp only [hr', State.place, pc, update_self, after, before]
    · exact place_frame pc drop hr hr' (fun _ => handle) fun i _ => by rw [unadvertised]

theorem store_thread (h : Conserved s.place s.issued) (pc : t.pc = update s.pc u p)
    (drop : t.drop = s.drop) (null : s.handle = none) (handle : t.handle = some a)
    (issued : t.issued = s.issued) (unadvertised : t.unadvertised = s.unadvertised)
    (hu : s.pc u = q) (before : q.obtained = some a ∧ q.leaving = none)
    (after : p.obtained = none ∧ p.leaving = none) : Conserved t.place t.issued := by
  subst hu
  rw [issued]
  refine h.move (p := .obtained u) (q := .stored) before.1 null ?_ handle fun r hr hs => ?_
  · simp only [State.place, pc, update_self, after]
  · by_cases hr' : r = .leaving u
    · simp only [hr', State.place, pc, update_self, after, before]
    · exact place_frame pc drop hr hr' (fun he => absurd he hs) fun i _ => by rw [unadvertised]

theorem lose_thread (h : Conserved s.place s.issued) (pc : t.pc = update s.pc u p)
    (drop : t.drop = s.drop) (handle : t.handle = s.handle) (issued : t.issued = s.issued)
    (unadvertised : t.unadvertised = s.unadvertised)
    (hu : s.pc u = q) (before : q.obtained = some a ∧ q.leaving = none)
    (after : p.obtained = none ∧ p.leaving = some a) : Conserved t.place t.issued := by
  subst hu
  rw [issued]
  refine h.move (p := .obtained u) (q := .leaving u) before.1 before.2 ?_ ?_ fun r hr hr' => ?_
  · simp only [State.place, pc, update_self, after]
  · simp only [State.place, pc, update_self, after]
  · exact place_frame pc drop hr hr' (fun _ => handle) fun i _ => by rw [unadvertised]

theorem take_thread (h : Conserved s.place s.issued) (pc : t.pc = update s.pc u p)
    (drop : t.drop = s.drop) (stored : s.handle = some a) (handle : t.handle = none)
    (issued : t.issued = s.issued) (unadvertised : t.unadvertised = s.unadvertised)
    (hu : s.pc u = q) (before : q.obtained = none ∧ q.leaving = none)
    (after : p.obtained = none ∧ p.leaving = some a) : Conserved t.place t.issued := by
  subst hu
  rw [issued]
  refine h.move (p := .stored) (q := .leaving u) stored before.2 handle ?_ fun r hr hr' => ?_
  · simp only [State.place, pc, update_self, after]
  · by_cases ho : r = .obtained u
    · simp only [ho, State.place, pc, update_self, after, before]
    · exact place_frame pc drop ho hr' (fun he => absurd he hr) fun i _ => by rw [unadvertised]

theorem pass_thread (h : Conserved s.place s.issued) (pc : t.pc = update s.pc u p)
    (drop : t.drop = s.drop) (handle : t.handle = s.handle) (issued : t.issued = s.issued)
    (unadvertised : t.unadvertised = s.unadvertised ++ [some a])
    (hu : s.pc u = q) (before : q.obtained = none ∧ q.leaving = some a)
    (after : p.obtained = none ∧ p.leaving = none) : Conserved t.place t.issued := by
  subst hu
  rw [issued]
  refine h.move (p := .leaving u) (q := .passed s.unadvertised.length) before.2 ?_ ?_ ?_
    fun r hr hr' => ?_
  · simp [State.place]
  · simp only [State.place, pc, update_self, after]
  · simp [State.place, unadvertised]
  · by_cases ho : r = .obtained u
    · simp only [ho, State.place, pc, update_self, after, before]
    · refine place_frame pc drop ho hr (fun _ => handle) fun i hi => ?_
      rw [unadvertised]
      exact passed_append fun he => hr' (he ▸ hi)

/- Every advertisement is in one place, a new one is new, and once the drop has begun no
   thread is in a call, and once it has swapped the pointer is null. -/
structure Inv (s : State τ α M) : Prop where
  conserved : Conserved s.place s.issued
  fresh : ∀ a ∈ s.issued, a.no < s.issued.length
  nodup : s.issued.Nodup
  alone : s.drop ≠ .alive → ∀ t, s.pc t = .idle
  swapped : s.drop ≠ .alive → s.drop ≠ .swap → s.handle = none

omit [DecidableEq τ] in
theorem inv_init : Inv (init : State τ α M) := by
  refine ⟨conserved_nil fun r => ?_, by simp [init], .nil, by simp [init], by simp [init]⟩
  cases r <;> rfl

theorem passed_null {l : List (Option (Advert α))} (i : Nat) :
    (l ++ [none])[i]?.join = l[i]?.join := by
  by_cases hi : i = l.length
  · subst hi
    simp
  · rw [passed_append hi]

theorem conserved_step (h : Conserved s.place s.issued)
    (fresh : ∀ a ∈ s.issued, a.no < s.issued.length) (next : Steps fits s x t) :
    Conserved t.place t.issued := by
  cases next with
  | publish hu | publishMismatch hu | advertise hu | advertiseMulti hu
  | advertiseMultiMismatch hu | unadvertise hu | absent hu | refuse hu | reload hu
  | ffiPublish hu | swapNull hu =>
    exact stay_thread h rfl rfl rfl rfl (fun _ => rfl) hu ⟨rfl, rfl⟩ ⟨rfl, rfl⟩
  | @found _ k _ hu =>
    exact stay_thread h (State.advertised_pc s _ _ k) (by simp) (by simp) (by simp)
      (by simp) hu ⟨rfl, rfl⟩ ⟨k.next_obtained, k.next_leaving⟩
  | issue hu =>
    exact issue_thread h rfl rfl rfl rfl rfl (fun old => absurd (fresh _ old) (by simp))
      hu ⟨rfl, rfl⟩ ⟨rfl, rfl⟩
  | @store _ k r _ hu null =>
    cases r with
    | none =>
      exact stay_thread h (State.advertised_pc _ _ _ k) (by simp) (by simp [null]) (by simp)
        (by simp) hu ⟨rfl, rfl⟩ ⟨k.next_obtained, k.next_leaving⟩
    | some a =>
      exact store_thread h (State.advertised_pc _ _ _ k) (by simp) null (by simp)
        (by simp) (by simp) hu ⟨rfl, rfl⟩ ⟨k.next_obtained, k.next_leaving⟩
  | @lose _ _ r _ _ hu =>
    cases r with
    | none => exact stay_thread h rfl rfl rfl rfl (fun _ => rfl) hu ⟨rfl, rfl⟩ ⟨rfl, rfl⟩
    | some a => exact lose_thread h rfl rfl rfl rfl rfl hu ⟨rfl, rfl⟩ ⟨rfl, rfl⟩
  | @giveBack _ k r _ hu =>
    cases r with
    | none =>
      exact stay_thread h (State.advertised_pc _ _ _ k) (by simp) (by simp) (by simp)
        (by simp [passed_null]) hu ⟨rfl, rfl⟩ ⟨k.next_obtained, k.next_leaving⟩
    | some a =>
      exact pass_thread h (State.advertised_pc _ _ _ k) (by simp) (by simp) (by simp)
        (by simp) hu ⟨rfl, rfl⟩ ⟨k.next_obtained, k.next_leaving⟩
  | swap hu stored =>
    exact take_thread h rfl rfl stored rfl rfl rfl hu ⟨rfl, rfl⟩ ⟨rfl, rfl⟩
  | ffiUnadvertise hu => exact pass_thread h rfl rfl rfl rfl rfl hu ⟨rfl, rfl⟩ ⟨rfl, rfl⟩
  | drop before | dropSwapNull before =>
    refine h.stay fun r => ?_
    cases r with
    | dropping => simp only [State.place, before, Drop.leaving]
    | obtained | stored | leaving | passed => rfl
  | dropSwap swap stored =>
    refine h.move (p := .stored) (q := .dropping) stored ?_ rfl rfl fun r hr hr' => ?_
    · simp only [State.place, swap, Drop.leaving]
    · cases r with
      | dropping => exact absurd rfl hr'
      | stored => exact absurd rfl hr
      | obtained | leaving | passed => rfl
  | @dropUnadvertise a leaving =>
    refine h.move (a := a) (p := .dropping) (q := .passed s.unadvertised.length) ?_ ?_ rfl ?_
      fun r hr hr' => ?_
    · simp only [State.place, leaving, Drop.leaving]
    · simp [State.place]
    · simp [State.place]
    · cases r with
      | dropping => exact absurd rfl hr
      | passed i =>
        simp only [State.place]
        rw [passed_append fun he => hr' (he ▸ rfl)]
      | obtained | leaving | stored => rfl

theorem issued_step (next : Steps fits s x t) :
    t.issued = s.issued ∨ ∃ a, t.issued = a :: s.issued ∧ a.no = s.issued.length := by
  cases next with
  | issue => exact .inr ⟨_, rfl, rfl⟩
  | _ => exact .inl (by simp)

def Act.isDrop : Act τ α M → Bool
  | .drop | .dropSwap | .dropUnadvertise => true
  | .publish _ _ | .advertise _ _ | .advertiseMulti _ _ _ | .unadvertise _ | .load _
  | .ffiAdvertise _ _ _ | .cas _ | .giveBack _ | .reload _ | .ffiPublish _ _ | .swap _
  | .ffiUnadvertise _ => false

theorem alive_step (alone : s.drop ≠ .alive → ∀ t, s.pc t = .idle) (hx : x.isDrop = false)
    (next : Steps fits s x t) : t.drop = .alive := by
  have alive {u : τ} {q : Pc α M} (hu : s.pc u = q) (moving : q ≠ .idle) : s.drop = .alive := by
    by_contra dropped
    exact moving (hu ▸ alone dropped u)
  cases next with
  | drop | dropSwapNull | dropSwap | dropUnadvertise => cases hx
  | publish _ before | publishMismatch _ before | advertise _ before | advertiseMulti _ before
  | advertiseMultiMismatch _ before | unadvertise _ before => exact before
  | absent hu | found hu | refuse hu | issue hu | store hu | lose hu | giveBack hu | reload hu
  | ffiPublish hu | swapNull hu | swap hu | ffiUnadvertise hu =>
    simpa using alive hu (by simp)

theorem inv_step (h : Inv s) (owned : Owned s x) (next : Steps fits s x t) : Inv t := by
  have conserved := conserved_step h.conserved h.fresh next
  have fresh : ∀ a ∈ t.issued, a.no < t.issued.length := by
    obtain issued | ⟨b, issued, no⟩ := issued_step next
    · rw [issued]
      exact h.fresh
    · rw [issued]
      intro a ha
      rw [List.length_cons]
      obtain rfl | ha := List.mem_cons.mp ha
      · omega
      · exact Nat.lt_succ_of_lt (h.fresh a ha)
  have nodup : t.issued.Nodup := by
    obtain issued | ⟨b, issued, no⟩ := issued_step next
    · rw [issued]
      exact h.nodup
    · rw [issued]
      refine List.nodup_cons.mpr ⟨fun old => ?_, h.nodup⟩
      have := h.fresh b old
      omega
  cases hx : x.isDrop with
  | false =>
    have alive := alive_step h.alone hx next
    exact ⟨conserved, fresh, nodup, absurd alive, absurd alive⟩
  | true =>
    cases next with
    | drop => exact ⟨conserved, fresh, nodup, fun _ => owned, fun _ swap => absurd rfl swap⟩
    | dropSwapNull swap null =>
      have alone := h.alone (by simp [swap])
      exact ⟨conserved, fresh, nodup, fun _ => alone, fun _ _ => null⟩
    | dropSwap swap =>
      have alone := h.alone (by simp [swap])
      exact ⟨conserved, fresh, nodup, fun _ => alone, fun _ _ => rfl⟩
    | dropUnadvertise leaving =>
      exact ⟨conserved, fresh, nodup, fun _ => h.alone (by simp [leaving]),
        fun _ _ => h.swapped (by simp [leaving]) (by simp [leaving])⟩
    | publish | publishMismatch | advertise | advertiseMulti | advertiseMultiMismatch
    | unadvertise | absent | found | refuse | issue | store | lose | giveBack | reload
    | ffiPublish | swapNull | swap | ffiUnadvertise => cases hx

omit [DecidableEq τ] in
theorem passed_of_dropped (h : Inv s) (dropped : s.drop = .dropped) {r : Place τ}
    (hr : s.place r = some a) : ∃ i, r = .passed i := by
  have idle := h.alone (by simp [dropped])
  have null := h.swapped (by simp [dropped]) (by simp [dropped])
  cases r with
  | passed i => exact ⟨i, rfl⟩
  | obtained t => simp [State.place, idle, Pc.obtained] at hr
  | leaving t => simp [State.place, idle, Pc.leaving] at hr
  | stored => simp [State.place, null] at hr
  | dropping => simp [State.place, dropped, Drop.leaving] at hr

omit [DecidableEq τ] in
theorem passed_nodup (h : Conserved s.place s.issued) : (s.unadvertised.filterMap id).Nodup := by
  rw [List.Nodup, List.pairwise_filterMap, List.pairwise_iff_getElem]
  intro i j hi hj hij a ha b hb
  rintro rfl
  have first : s.place (.passed i) = some a := by
    simp only [State.place, List.getElem?_eq_getElem hi]
    exact ha
  have second : s.place (.passed j) = some a := by
    simp only [State.place, List.getElem?_eq_getElem hj]
    exact hb
  have same := (h.somewhere a (h.known _ a first)).unique first second
  cases same
  omega

/-- Every non-null handle the FFI returned is at every moment in exactly one place: with the
call that has just obtained it, in the publication, with a call or the drop that is about to
unadvertise it, or in one call of `ffi::unadvertise`. After the drop each is in the last, so
the addresses passed to `ffi::unadvertise` are those the FFI returned, as often. -/
theorem advertisements_conserved {as : List (Act τ α M)}
    (run : Run (step fits) Owned init as s) :
    (∀ a ∈ s.issued, ∃! p, s.place p = some a) ∧
    (s.drop = .dropped →
      (∀ a ∈ s.issued, ∃! i : Nat, s.unadvertised[i]? = some (some a)) ∧
      ((s.unadvertised.filterMap id).map Advert.addr).Perm (s.issued.map Advert.addr)) := by
  have h : Inv s := run.invariant inv_init fun _ _ _ h owned next =>
    inv_step h owned (steps_of_step next)
  have at_passed (i : Nat) (a : Advert α) :
      s.place (.passed i) = some a ↔ s.unadvertised[i]? = some (some a) := by
    simp [State.place, Option.join_eq_some_iff]
  refine ⟨h.conserved.somewhere, fun dropped => ⟨fun a ha => ?_, ?_⟩⟩
  · obtain ⟨p, hp, unique⟩ := h.conserved.somewhere a ha
    obtain ⟨i, rfl⟩ := passed_of_dropped h dropped hp
    refine ⟨i, (at_passed i a).mp hp, fun j hj => ?_⟩
    cases unique (.passed j) ((at_passed j a).mpr hj)
    rfl
  · apply List.Perm.map
    rw [List.perm_ext_iff_of_nodup (passed_nodup h.conserved) h.nodup]
    intro a
    simp only [List.mem_filterMap, id_eq, exists_eq_right]
    constructor
    · intro ha
      obtain ⟨i, hi⟩ := List.getElem?_of_mem ha
      exact h.conserved.known (.passed i) a ((at_passed i a).mpr hi)
    · intro ha
      obtain ⟨p, hp, _⟩ := h.conserved.somewhere a ha
      obtain ⟨i, rfl⟩ := passed_of_dropped h dropped hp
      exact List.mem_of_getElem? ((at_passed i a).mp hp)

/-- Two threads race to advertise, the FFI gives both the same address, and the publication
is dropped. -/
def raced : List (Act Bool Nat Unit) :=
  [.publish false (), .advertise true (), .load false, .load true, .ffiAdvertise true (some 7) 0,
   .ffiAdvertise false (some 7) 0, .cas true, .cas false, .giveBack false, .reload false,
   .ffiPublish false 0, .drop, .dropSwap, .dropUnadvertise]

theorem advertisements_conserved_raced : ∃ s : State Bool Nat Unit,
    Run (step Publication.typed) Owned init raced s ∧ s.issued.map Advert.addr = [7, 7] ∧
      ((s.unadvertised.filterMap id).map Advert.addr).Perm [7, 7] := by
  have run : Run (step Publication.typed) Owned (init : State Bool Nat Unit) raced _ :=
    run_of_exec rfl
  obtain ⟨_, dropped⟩ := advertisements_conserved run
  exact ⟨_, run, rfl, (dropped rfl).2⟩

end Px4Rs.Advertisements
