import Mathlib.Data.BitVec
import Mathlib.Logic.Function.Basic
import Px4Rs.Runs

/-! The metadata a generated topic hands out: the entry of the firmware's own table when
there is one, the entry made from the .msg file otherwise; and what the FFI does with its
size to the buffers of `try_recv` and `publish`. -/
namespace Px4Rs.Metadata
open Px4Rs.Runs Function
variable {τ : Type*} [DecidableEq τ]

structure OrbMetadata where
  oName : String
  oSize : BitVec 16
  oSizeNoPadding : BitVec 16
  messageHash : BitVec 32
  oId : BitVec 16
  oQueue : BitVec 8
deriving DecidableEq

/- What `emit_topic` is given. The emitted struct has `size` bytes: the macro asserts it. -/
structure Topic where
  name : String
  size : Nat
  messageHash : BitVec 32
  queue : BitVec 8

/-- The emitted static, with `size as u16`. -/
def Topic.synthesized (t : Topic) : OrbMetadata where
  oName := t.name
  oSize := BitVec.ofNat 16 t.size
  oSizeNoPadding := BitVec.ofNat 16 t.size
  messageHash := t.messageHash
  oId := -1
  oQueue := t.queue

/-- `px4_rs_find_orb_meta` over the firmware's table. The stub of a build without the
firmware has no table and always returns null. -/
def findOrbMeta (table : List (Option OrbMetadata)) (name : String) : Option OrbMetadata :=
  table.findSome? fun m => m.filter (·.oName = name)

/-- The next operation of a call of `metadata()`. -/
inductive Pc where
  | idle | load | find
  | store (m : OrbMetadata)
deriving DecidableEq

/-- The cache every call shares, and the metadata the calls have returned. -/
structure State (τ : Type*) where
  resolved : Option OrbMetadata
  pc : τ → Pc
  returned : List OrbMetadata

def init : State τ := ⟨none, fun _ => .idle, []⟩

inductive Act (τ : Type*) where
  | metadata (u : τ)
  | load (u : τ)
  | find (u : τ)
  | store (u : τ) (m : OrbMetadata)

@[simps] def State.goto (s : State τ) (u : τ) (p : Pc) : State τ :=
  { s with pc := update s.pc u p }

@[simps] def State.ret (s : State τ) (u : τ) (m : OrbMetadata) : State τ :=
  { s with pc := update s.pc u .idle, returned := m :: s.returned }

def step (t : Topic) (table : List (Option OrbMetadata)) (s : State τ) : Act τ → Option (State τ)
  | .metadata u => if s.pc u = .idle then some (s.goto u .load) else none
  | .load u =>
    if s.pc u = .load then
      match s.resolved with
      | some m => some (s.ret u m)
      | none => some (s.goto u .find)
    else none
  | .find u =>
    if s.pc u = .find then
      match findOrbMeta table t.name with
      | some m => some (s.goto u (.store m))
      | none => some (s.ret u t.synthesized)
    else none
  | .store u m =>
    if s.pc u = .store m then some { s.ret u m with resolved := some m } else none

/-! The buffers. A byte of a `MaybeUninit` buffer is `none` until it is written. -/

def Topic.uninit (t : Topic) : List (Option (BitVec 8)) := List.replicate t.size none

/-- `sub_cb_update` copies the sample, of `o_size` bytes, over the buffer; past its end is
undefined. -/
def ffiUpdate (sample : List (BitVec 8)) (buf : List (Option (BitVec 8))) :
    Option (List (Option (BitVec 8))) :=
  if sample.length ≤ buf.length then some (sample.map some ++ buf.drop sample.length) else none

/-- `orb_publish` reads `o_size` bytes of the message; past its end is undefined. -/
def ffiPublish (m : OrbMetadata) (msg : List (BitVec 8)) : Option (List (BitVec 8)) :=
  if m.oSize.toNat ≤ msg.length then some (msg.take m.oSize.toNat) else none

/-- Metadata the buffers of a topic can be used with: `try_recv` writes all of its buffer
and nothing else, and `publish` reads the message and nothing else. -/
structure Fits (t : Topic) (m : OrbMetadata) : Prop where
  size : m.oSize.toNat = t.size
  recv : ∀ sample, sample.length = m.oSize.toNat →
    ∃ buf, ffiUpdate sample t.uninit = some buf ∧ ∀ b ∈ buf, b.isSome = true
  publish : ∀ msg, msg.length = t.size → (ffiPublish m msg).isSome = true

variable {t : Topic} {table : List (Option OrbMetadata)} {m : OrbMetadata} {s s' : State τ}

theorem fits_iff : Fits t m ↔ m.oSize.toNat = t.size := by
  refine ⟨Fits.size, fun size => ⟨size, fun sample hs => ?_, fun msg hm => ?_⟩⟩
  · have hl : t.uninit.length = sample.length := by simp [Topic.uninit, hs, size]
    refine ⟨sample.map some, ?_, by simp⟩
    rw [ffiUpdate, if_pos (by omega), ← hl, List.drop_length, List.append_nil]
  · simp [ffiPublish, size, hm]

theorem fits_synthesized (h : t.size < 2 ^ 16) : Fits t t.synthesized := by
  rw [fits_iff, Topic.synthesized, BitVec.toNat_ofNat, Nat.mod_eq_of_lt h]

/- Everything that reaches the cache or a caller came from the table, or the table has no
   entry and it is the synthesized one. -/
structure Inv (t : Topic) (table : List (Option OrbMetadata)) (s : State τ) : Prop where
  resolved : ∀ m, s.resolved = some m → findOrbMeta table t.name = some m
  store : ∀ u m, s.pc u = .store m → findOrbMeta table t.name = some m
  returned : ∀ m ∈ s.returned,
    findOrbMeta table t.name = some m ∨ findOrbMeta table t.name = none ∧ m = t.synthesized

theorem Inv.goto (h : Inv t table s) (u : τ) {p : Pc} (hp : ∀ m, p ≠ .store m) :
    Inv t table (s.goto u p) := by
  refine ⟨h.resolved, fun v m hv => ?_, h.returned⟩
  by_cases hvu : v = u
  · exact absurd (by simpa [hvu] using hv) (hp m)
  · exact h.store v m (by simpa [update_of_ne hvu] using hv)

theorem Inv.ret (h : Inv t table s) (u : τ) (hm : findOrbMeta table t.name = some m ∨
    findOrbMeta table t.name = none ∧ m = t.synthesized) : Inv t table (s.ret u m) := by
  refine ⟨h.resolved, fun v n hv => ?_, fun n hn => ?_⟩
  · by_cases hvu : v = u
    · simp [hvu] at hv
    · exact h.store v n (by simpa [update_of_ne hvu] using hv)
  · obtain rfl | hn := List.mem_cons.mp hn
    · exact hm
    · exact h.returned n hn

theorem inv_step {a : Act τ} (h : Inv t table s) (next : step t table s a = some s') :
    Inv t table s' := by
  cases a with
  | metadata u =>
    simp only [step, Option.ite_none_right_eq_some, Option.some.injEq] at next
    obtain ⟨_, rfl⟩ := next
    exact h.goto u (by simp)
  | load u =>
    simp only [step, Option.ite_none_right_eq_some] at next
    obtain ⟨_, next⟩ := next
    split at next <;> rename_i hs <;> cases next
    · exact h.ret u (.inl (h.resolved _ hs))
    · exact h.goto u (by simp)
  | find u =>
    simp only [step, Option.ite_none_right_eq_some] at next
    obtain ⟨_, next⟩ := next
    split at next <;> rename_i hs <;> cases next
    · refine ⟨h.resolved, fun v n hv => ?_, h.returned⟩
      by_cases hvu : v = u
      · rw [hs]
        simpa [hvu] using hv
      · exact h.store v n (by simpa [update_of_ne hvu] using hv)
    · exact h.ret u (.inr ⟨hs, rfl⟩)
  | store u m =>
    simp only [step, Option.ite_none_right_eq_some, Option.some.injEq] at next
    obtain ⟨hu, rfl⟩ := next
    have found := h.store u m hu
    have ret := h.ret u (.inl found)
    exact ⟨fun n hn => by rwa [← Option.some.inj hn], ret.store, ret.returned⟩

theorem inv_run {P : State τ → Act τ → Prop} {as : List (Act τ)}
    (h : Run (step t table) P init as s) : Inv t table s :=
  h.invariant (by constructor <;> simp [init]) fun _ _ _ hs _ => inv_step hs

theorem run_metadata (u : τ) (h : findOrbMeta table t.name = some m) :
    ∃ as, ∃ s : State τ, Run (step t table) Free init as s ∧ m ∈ s.returned := by
  obtain ⟨s, run, hs⟩ := exists_run (step t table) Free (init : State τ)
    [.metadata u, .load u, .find u, .store u m] (fun s => m ∈ s.returned)
    (by simp [exec, step, init, h, Free])
  exact ⟨_, s, run, by simpa using hs⟩

/-- All that `metadata()` ever returns fits the message exactly when the firmware has no
entry of the topic's name, or one of the message's size. -/
theorem metadata_fits_iff [Inhabited τ] (h : t.size < 2 ^ 16) :
    (∀ as, ∀ s : State τ, Run (step t table) Free init as s → ∀ m ∈ s.returned, Fits t m) ↔
      ∀ m, findOrbMeta table t.name = some m → m.oSize.toNat = t.size := by
  constructor
  · intro all m hm
    obtain ⟨as, s, run, returned⟩ := run_metadata (default : τ) hm
    exact (all as s run m returned).size
  · intro agree as s run m hm
    obtain hf | ⟨_, rfl⟩ := (inv_run run).returned m hm
    · exact fits_iff.mpr (agree m hf)
    · exact fits_synthesized h

/-- An entry of another size breaks a buffer: a larger one overruns both, a smaller one
leaves bytes of the received message unwritten. -/
theorem overrun_or_unwritten (hne : m.oSize.toNat ≠ t.size) :
    t.size < m.oSize.toNat ∧
        (∀ sample, sample.length = m.oSize.toNat → ffiUpdate sample t.uninit = none) ∧
        (∀ msg, msg.length = t.size → ffiPublish m msg = none) ∨
      m.oSize.toNat < t.size ∧
        ∀ sample, sample.length = m.oSize.toNat →
          ∃ buf, ffiUpdate sample t.uninit = some buf ∧ ∃ b ∈ buf, b.isSome = false := by
  obtain small | large := Nat.lt_or_gt_of_ne hne
  · refine .inr ⟨small, fun sample hs => ⟨_, if_pos (by simp [Topic.uninit]; omega), none, ?_, rfl⟩⟩
    simp [Topic.uninit, hs]
    omega
  · refine .inl ⟨large, fun sample hs => if_neg ?_, fun msg hm => if_neg (by omega)⟩
    simp [Topic.uninit]
    omega

/-- A topic of a message of 48 bytes, and an entry for the same name. -/
def sensorGyro : Topic := ⟨"sensor_gyro", 48, 0, 8⟩

def entry (oSize : BitVec 16) : OrbMetadata := ⟨"sensor_gyro", oSize, oSize, 0, 12, 8⟩

theorem metadata_fits_iff_sensorGyro :
    ∃ s : State Unit, Run (step sensorGyro [none, some (entry 48)]) Free init
        [.metadata (), .load (), .find (), .store () (entry 48)] s ∧
      entry 48 ∈ s.returned ∧ Fits sensorGyro (entry 48) := by
  obtain ⟨s, run, hs⟩ := exists_run (step sensorGyro [none, some (entry 48)])
    Free (init : State Unit)
    [.metadata (), .load (), .find (), .store () (entry 48)]
    (fun s => entry 48 ∈ s.returned) (by decide)
  have returned : entry 48 ∈ s.returned := by simpa using hs
  have agree (m : OrbMetadata)
      (hm : findOrbMeta [none, some (entry 48)] sensorGyro.name = some m) :
      m.oSize.toNat = sensorGyro.size := by
    cases hm
    rfl
  exact ⟨s, run, returned, (metadata_fits_iff (by decide)).mpr agree _ s run _ returned⟩

/-- Firmware whose message has grown by 8 bytes: `try_recv` and `publish` both overrun. -/
theorem firmware_entry_overruns :
    ∃ s : State Unit, Run (step sensorGyro [none, some (entry 56)]) Free init
        [.metadata (), .load (), .find (), .store () (entry 56)] s ∧
      entry 56 ∈ s.returned ∧ ¬ Fits sensorGyro (entry 56) ∧
      ffiUpdate (List.replicate 56 0) sensorGyro.uninit = none ∧
      ffiPublish (entry 56) (List.replicate 48 0) = none := by
  obtain ⟨s, run, hs⟩ := exists_run (step sensorGyro [none, some (entry 56)])
    Free (init : State Unit)
    [.metadata (), .load (), .find (), .store () (entry 56)]
    (fun s => entry 56 ∈ s.returned) (by decide)
  exact ⟨s, run, by simpa using hs, fun fits => absurd fits.size (by decide), by decide, by decide⟩

end Px4Rs.Metadata
