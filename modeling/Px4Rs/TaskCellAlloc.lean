import Px4Rs.TaskCellRespawn

/-! The work item of a cell: `wi_new` succeeds at most once, and a `try_spawn` for which
it fails takes back all that it did, however the other threads move meanwhile. -/
namespace Px4Rs.TaskCell
open Px4Rs.Runs Function
variable {τ : Type*} [DecidableEq τ] {s t : State τ} {u : τ} {a : Act τ} {f g h : Nat}

/-! One allocation. -/

/- The handle is what `wi_new` returned, on its way to the cell or stored there, and
   `wi_schedule_now` is given the stored one. -/
structure HandleInv (s : State τ) : Prop where
  stored : s.handle ≠ none → s.allocs = 1
  storing : ∀ u h, s.pc u = .storeHandle h → s.allocs = 1
  unstored : s.handle = none → (∀ u h, s.pc u ≠ .storeHandle h) → s.allocs = 0
  given : ∀ u h, s.pc u = .spawnSchedule h ∨ s.pc u = .wakeSchedule h → s.handle = some h

omit [DecidableEq τ] in
theorem handleInv_init : HandleInv (init : State τ) := by
  constructor <;> simp [init]

theorem HandleInv.move {p : Pc} (inv : HandleInv s) (pc : t.pc = update s.pc u p)
    (handle : t.handle = s.handle) (allocs : t.allocs = s.allocs)
    (before : ∀ h, s.pc u ≠ .storeHandle h) (behind : ∀ h, p ≠ .storeHandle h)
    (given : ∀ h, p = .spawnSchedule h ∨ p = .wakeSchedule h → s.handle = some h) :
    HandleInv t := by
  have at_store (v : τ) (h : Nat) : t.pc v = .storeHandle h ↔ s.pc v = .storeHandle h := by
    by_cases hvu : v = u
    · subst hvu
      simp [pc, before, behind]
    · rw [pc, update_of_ne hvu]
  constructor
  · rw [handle, allocs]
    exact inv.stored
  · intro v h hv
    rw [allocs]
    exact inv.storing v h ((at_store v h).mp hv)
  · intro hn none
    rw [allocs]
    exact inv.unstored (handle ▸ hn) fun v h hv => none v h ((at_store v h).mpr hv)
  · intro v h hv
    rw [handle]
    by_cases hvu : v = u
    · rw [pc, hvu, update_self] at hv
      exact given h hv
    · rw [pc, update_of_ne hvu] at hv
      exact inv.given v h hv

omit [DecidableEq τ] in
theorem HandleInv.run (inv : HandleInv s) (pc : t.pc = s.pc) (handle : t.handle = s.handle)
    (allocs : t.allocs = s.allocs) : HandleInv t := by
  constructor
  · rw [handle, allocs]
    exact inv.stored
  · rw [pc, allocs]
    exact inv.storing
  · rw [pc, handle, allocs]
    exact inv.unstored
  · rw [pc, handle]
    exact inv.given

theorem handleInv_step (inv : HandleInv s) (alloc : AllocInv s) (next : step s a = some t) :
    HandleInv t := by
  cases steps_of_step next with
  | spawn ht | busy ht | write ht | rollbackDrop ht | rollbackStore ht | spawnSchedule ht
  | wakeSchedule ht | loadNull ht | refused ht | wakeNull ht =>
    exact inv.move rfl rfl rfl (by simp [ht]) (by simp) (by simp)
  | loadHandle ht stored =>
    exact inv.move rfl rfl rfl (by simp [ht]) (by simp) (by simpa using stored)
  | wakeLoad ht stored =>
    exact inv.move rfl rfl rfl (by simp [ht]) (by simp) (by simpa using stored)
  | wake ht cloned =>
    exact inv.move rfl rfl rfl (by simp [ht]) (by split <;> simp) (by split <;> simp)
  | @allocated u f h ht =>
    -- this thread is alone, so nobody has allocated before
    have null := alloc.alloc u (by rw [ht]; rfl)
    have alone (v : τ) (hvu : v ≠ u) := alloc.others_idle null (by simp [ht]) hvu
    have zero : s.allocs = 0 := by
      refine inv.unstored null fun v k hv => ?_
      by_cases hvu : v = u
      · simp [hvu, ht] at hv
      · simp [alone v hvu] at hv
    refine ⟨fun hn => absurd null hn, fun _ _ _ => by simp [zero], fun _ none => ?_, ?_⟩
    · exact absurd (update_self u _ s.pc) (none u h)
    · intro v k hv
      by_cases hvu : v = u
      · simp [hvu] at hv
      · simp [update_of_ne hvu, alone v hvu] at hv
  | @storeHandle u h ht =>
    have null := alloc.alloc u (by rw [ht]; rfl)
    have one := inv.storing u h ht
    refine ⟨fun _ => one, fun _ _ _ => one, by simp, fun v k hv => ?_⟩
    by_cases hvu : v = u
    · simpa [hvu] using hv
    · simp [update_of_ne hvu, alloc.others_idle null (by simp [ht]) hvu] at hv
  | pop | fetchAnd | poll | pending | ready | readyUndefined | drop | store =>
    exact inv.run rfl rfl rfl

theorem handleInv_run {P : State τ → Act τ → Prop} {as : List (Act τ)}
    (h : Run step P init as s) : HandleInv s := by
  suffices HandleInv s ∧ AllocInv s from this.1
  refine h.invariant (I := fun s => HandleInv s ∧ AllocInv s) ⟨handleInv_init, allocInv_init⟩ ?_
  intro s a t ⟨inv, alloc⟩ _ next
  exact ⟨handleInv_step inv alloc next, allocInv_step alloc next⟩

omit [DecidableEq τ] in
theorem HandleInv.allocs_le_one (inv : HandleInv s) : s.allocs ≤ 1 := by
  by_cases hn : s.handle = none
  · by_cases storing : ∃ u h, s.pc u = .storeHandle h
    · obtain ⟨u, h, hu⟩ := storing
      exact (inv.storing u h hu).le
    · simp only [not_exists] at storing
      simp [inv.unstored hn storing]
  · exact (inv.stored hn).le

theorem handle_kept (alloc : AllocInv s) (next : step s a = some t) (stored : s.handle = some h) :
    t.handle = some h := by
  cases steps_of_step next with
  | @storeHandle u k ht =>
    rw [alloc.alloc u (by rw [ht]; rfl)] at stored
    cases stored
  | _ => exact stored

theorem handle_run {bs : List (Act τ)} (alloc : AllocInv s) (run : Run step Free s bs t)
    (stored : s.handle = some h) : t.handle = some h := by
  suffices AllocInv t ∧ t.handle = some h from this.2
  refine run.invariant (I := fun t => AllocInv t ∧ t.handle = some h) ⟨alloc, stored⟩ ?_
  intro s a t ⟨alloc, stored⟩ _ next
  exact ⟨allocInv_step alloc next, handle_kept alloc next stored⟩

/-! The futures a cell has seen. -/

/-- A future that is not accepted yet is nowhere. -/
structure FreshInv (s : State τ) : Prop where
  drops : ∀ f, s.accepted ≤ f → s.drops f = 0
  slot : ∀ f, s.slot.future = some f → f < s.accepted
  pc : ∀ u f, s.pc u = .write f → f < s.accepted

omit [DecidableEq τ] in
theorem freshInv_init : FreshInv (init : State τ) := by
  constructor <;> simp [init, Slot.future]

@[simp] theorem Slot.future_bury (x : Slot) : x.bury.future = x.future := by
  cases x <;> rfl

omit [DecidableEq τ] in
theorem dropSlot_drops (hf : s.slot.future ≠ some f) : s.dropSlot.drops f = s.drops f := by
  cases he : s.slot.future with
  | none => simp [he]
  | some g =>
    have hne : f ≠ g := by
      rintro rfl
      exact hf he
    simp [he, update_of_ne hne]

omit [DecidableEq τ] in
theorem FreshInv.dropSlot (inv : FreshInv s) : FreshInv s.dropSlot := by
  refine ⟨fun f hf => ?_, fun f hf => inv.slot f (by simpa using hf), inv.pc⟩
  rw [dropSlot_drops fun he => absurd (inv.slot f he) (Nat.not_lt.mpr hf)]
  exact inv.drops f hf

theorem FreshInv.move {p : Pc} (inv : FreshInv s) (pc : t.pc = update s.pc u p)
    (unwritten : ∀ f, p ≠ .write f) (accepted : t.accepted = s.accepted)
    (drops : t.drops = s.drops) (slot : t.slot = s.slot) : FreshInv t := by
  refine ⟨?_, ?_, fun v f hv => ?_⟩
  · rw [accepted, drops]
    exact inv.drops
  · rw [accepted, slot]
    exact inv.slot
  · rw [accepted]
    by_cases hvu : v = u
    · rw [pc, hvu, update_self] at hv
      exact absurd hv (unwritten f)
    · rw [pc, update_of_ne hvu] at hv
      exact inv.pc v f hv

theorem freshInv_step (inv : FreshInv s) (next : step s a = some t) : FreshInv t := by
  cases steps_of_step next with
  | @spawn u ht free =>
    refine ⟨fun f hf => inv.drops f (Nat.le_of_succ_le hf),
      fun f hf => Nat.lt_succ_of_lt (inv.slot f hf), fun v f hv => ?_⟩
    by_cases hvu : v = u
    · obtain rfl : s.accepted = f := by simpa [hvu] using hv
      exact Nat.lt_succ_self _
    · exact Nat.lt_succ_of_lt (inv.pc v f (by simpa [update_of_ne hvu] using hv))
  | @write u f ht =>
    refine ⟨inv.drops, fun g hg => ?_, fun v g hv => ?_⟩
    · obtain rfl : f = g := by simpa [Slot.future] using hg
      exact inv.pc u f ht
    · by_cases hvu : v = u
      · simp [hvu] at hv
      · exact inv.pc v g (by simpa [update_of_ne hvu] using hv)
  | busy | loadNull | loadHandle | refused | allocated | rollbackStore | storeHandle
  | spawnSchedule | wakeNull | wakeLoad | wakeSchedule =>
    exact inv.move rfl (by simp) rfl rfl rfl
  | wake => exact inv.move rfl (by split <;> simp) rfl rfl rfl
  | rollbackDrop => exact inv.dropSlot.move rfl (by simp) rfl rfl rfl
  | drop => exact ⟨inv.dropSlot.drops, inv.dropSlot.slot, inv.pc⟩
  | ready runs live => exact ⟨inv.drops, fun g hg => inv.slot g (by rw [live]; exact hg), inv.pc⟩
  | pop | fetchAnd | poll | pending | readyUndefined | store => exact ⟨inv.drops, inv.slot, inv.pc⟩

theorem freshInv_run {P : State τ → Act τ → Prop} {as : List (Act τ)}
    (h : Run step P init as s) : FreshInv s :=
  h.invariant freshInv_init fun _ _ _ inv _ => freshInv_step inv

/-! A call of `try_spawn` for which `wi_new` fails. -/

/-- Where a call that has accepted the future `f` can be while no handle is stored. -/
def Calls (s : State τ) (u : τ) (f : Nat) : Prop :=
  (s.pc u = .write f ∧ s.drops f = 0) ∨
  ((s.pc u = .loadHandle f ∨ s.pc u = .wiNew f ∨ s.pc u = .rollbackDrop f ∨
    ∃ h, s.pc u = .storeHandle h) ∧ s.slot = .live f ∧ s.drops f = 0) ∨
  (s.pc u = .rollbackStore ∧ s.drops f = 1)

/-- The thread is in no other call, unless a handle is stored. -/
def CallInv (s : State τ) (u : τ) (f : Nat) : Prop :=
  s.handle = none → (s.pc u).spawning = true → Calls s u f

theorem finish_pc_of_idle (hu : s.pc u = .idle) (r : Except SpawnError Unit) :
    (s.finish u r).pc = s.pc := by
  change update s.pc u .idle = s.pc
  rw [← hu, update_eq_self]

/-- While there is no handle, the thread that moves inside the cell is the one inside it. -/
theorem AllocInv.mover {v : τ} {p : Pc} (alloc : AllocInv s) (null : s.handle = none)
    (hv : s.pc v ≠ .idle) (hu : (update s.pc v p u).spawning = true) : u = v := by
  by_contra hne
  rw [update_of_ne hne] at hu
  refine hne (alloc.sole null u v (fun idle => ?_) hv)
  rw [idle] at hu
  cases hu

theorem callInv_step (inv : CallInv s u f) (alloc : AllocInv s) (other : a ≠ .spawn u)
    (next : step s a = some t) : CallInv t u f := by
  intro null hu
  cases steps_of_step next with
  | @spawn v ht free =>
    have hne : u ≠ v := by
      rintro rfl
      exact other rfl
    have idle := alloc.free null (by simp [free]) u
    simp [update_of_ne hne, idle, Pc.spawning] at hu
  | @busy v ht taken =>
    have same := finish_pc_of_idle ht (.error .busy)
    rw [same] at hu
    rw [Calls, same]
    exact inv null hu
  | @write v g ht =>
    obtain rfl := alloc.mover null (by simp [ht]) hu
    obtain ⟨here, zero⟩ | ⟨h, -⟩ | ⟨h, -⟩ := inv null (by simp [ht, Pc.spawning])
    · obtain rfl : g = f := by simpa [ht] using here
      exact .inr (.inl ⟨.inl (update_self ..), rfl, zero⟩)
    · simp [ht] at h
    · simp [ht] at h
  | @loadNull v g ht =>
    obtain rfl := alloc.mover null (by simp [ht]) hu
    obtain ⟨h, -⟩ | ⟨h, live, zero⟩ | ⟨h, -⟩ := inv null (by simp [ht, Pc.spawning])
    · simp [ht] at h
    · obtain rfl : g = f := by simpa [ht] using h
      exact .inr (.inl ⟨.inr (.inl (update_self ..)), live, zero⟩)
    · simp [ht] at h
  | loadHandle ht stored =>
    have null' : s.handle = none := null
    simp [null'] at stored
  | @refused v g ht =>
    obtain rfl := alloc.mover null (by simp [ht]) hu
    obtain ⟨h, -⟩ | ⟨h, live, zero⟩ | ⟨h, -⟩ := inv null (by simp [ht, Pc.spawning])
    · simp [ht] at h
    · obtain rfl : g = f := by simpa [ht] using h
      exact .inr (.inl ⟨.inr (.inr (.inl (update_self ..))), live, zero⟩)
    · simp [ht] at h
  | @allocated v g k ht =>
    obtain rfl := alloc.mover null (by simp [ht]) hu
    obtain ⟨h, -⟩ | ⟨h, live, zero⟩ | ⟨h, -⟩ := inv null (by simp [ht, Pc.spawning])
    · simp [ht] at h
    · exact .inr (.inl ⟨.inr (.inr (.inr ⟨k, update_self ..⟩)), live, zero⟩)
    · simp [ht] at h
  | @rollbackDrop v g ht =>
    obtain rfl := alloc.mover null (by simp [ht]) hu
    obtain ⟨h, -⟩ | ⟨h, live, zero⟩ | ⟨h, -⟩ := inv null (by simp [ht, Pc.spawning])
    · simp [ht] at h
    · exact .inr (.inr ⟨update_self .., by simp [live, Slot.future, zero]⟩)
    · simp [ht] at h
  | @rollbackStore v ht =>
    obtain rfl := alloc.mover null (by simp [ht]) hu
    simp [Pc.spawning] at hu
  | storeHandle ht => simp at null
  | spawnSchedule ht | wakeNull ht | wakeLoad ht | wakeSchedule ht =>
    exact absurd null (alloc.handle_of_late (by rw [ht]; rfl))
  | wake ht cloned =>
    simp [(alloc.quiet null).2.2] at cloned
  | pop idle queued => exact absurd null (alloc.handle_of_run (.inr queued))
  | fetchAnd runs | poll runs | pending runs | ready runs | readyUndefined runs | drop runs
  | store runs =>
    exact absurd null (alloc.handle_of_run (.inl (by simp [runs])))

/-- A dropped future that is never touched again: it is gone from the slot before any
handle is stored. -/
structure Buried (s : State τ) (f : Nat) : Prop where
  drops : s.drops f = 1
  accepted : f < s.accepted
  unwritten : ∀ u, s.pc u ≠ .write f
  slot : s.slot.future = some f → s.handle = none ∧ ∀ u, s.pc u = .idle ∨ ∃ g, s.pc u = .write g

omit [DecidableEq τ] in
theorem Buried.gone (inv : Buried s f) (alloc : AllocInv s)
    (inside : s.runner ≠ .idle ∨ 0 < s.queued ∨ ∃ u, s.pc u ≠ .idle ∧ ∀ g, s.pc u ≠ .write g) :
    s.slot.future ≠ some f := by
  intro hf
  obtain ⟨null, out⟩ := inv.slot hf
  obtain runs | queued | ⟨u, busy, behind⟩ := inside
  · exact alloc.handle_of_run (.inl runs) null
  · exact alloc.handle_of_run (.inr queued) null
  · obtain idle | ⟨g, hu⟩ := out u
    · exact busy idle
    · exact behind g hu

theorem Buried.move (inv : Buried s f) {p : Pc} (pc : t.pc = update s.pc u p)
    (unwritten : p ≠ .write f) (accepted : t.accepted = s.accepted) (drops : t.drops f = s.drops f)
    (gone : t.slot.future ≠ some f) : Buried t f := by
  refine ⟨drops.trans inv.drops, accepted ▸ inv.accepted, fun v hv => ?_, fun h => absurd h gone⟩
  by_cases hvu : v = u
  · rw [pc, hvu, update_self] at hv
    exact unwritten hv
  · rw [pc, update_of_ne hvu] at hv
    exact inv.unwritten v hv

omit [DecidableEq τ] in
theorem Buried.run (inv : Buried s f) (pc : t.pc = s.pc) (accepted : t.accepted = s.accepted)
    (drops : t.drops f = s.drops f) (gone : t.slot.future ≠ some f) : Buried t f :=
  ⟨drops.trans inv.drops, accepted ▸ inv.accepted, pc ▸ inv.unwritten, fun h => absurd h gone⟩

theorem buried_step (inv : Buried s f) (alloc : AllocInv s) (next : step s a = some t) :
    Buried t f := by
  cases steps_of_step next with
  | @spawn u ht free =>
    refine ⟨inv.drops, Nat.lt_succ_of_lt inv.accepted, fun v hv => ?_, fun hf => ?_⟩
    · by_cases hvu : v = u
      · have same : s.accepted = f := by simpa [hvu] using hv
        exact absurd same (Nat.ne_of_gt inv.accepted)
      · exact inv.unwritten v (by simpa [update_of_ne hvu] using hv)
    · obtain ⟨null, out⟩ := inv.slot hf
      refine ⟨null, fun v => ?_⟩
      by_cases hvu : v = u
      · exact .inr ⟨s.accepted, by simp [hvu]⟩
      · simpa [update_of_ne hvu] using out v
  | @busy u ht taken =>
    have same := finish_pc_of_idle ht (.error .busy)
    exact ⟨inv.drops, inv.accepted, same ▸ inv.unwritten, same ▸ inv.slot⟩
  | @write u g ht =>
    have hne : g ≠ f := by
      rintro rfl
      exact inv.unwritten u ht
    exact inv.move rfl (by simp) rfl rfl (by simpa [Slot.future] using hne)
  | @rollbackDrop u g ht =>
    have gone := inv.gone alloc (.inr (.inr ⟨u, by simp [ht]⟩))
    exact inv.move rfl (by simp) rfl (dropSlot_drops gone) (by simpa using gone)
  | @loadNull u g ht | @loadHandle u g h ht | @refused u g ht | @allocated u g h ht
  | @rollbackStore u ht | @storeHandle u h ht | @spawnSchedule u h c ht | @wakeNull u ht
  | @wakeLoad u h ht | @wakeSchedule u h c ht =>
    exact inv.move rfl (by simp) rfl rfl (inv.gone alloc (.inr (.inr ⟨u, by simp [ht]⟩)))
  | @wake u ht cloned =>
    refine inv.move rfl (by split <;> simp) rfl rfl fun hf => ?_
    simp [(alloc.quiet (inv.slot hf).1).2.2] at cloned
  | pop idle queued => exact inv.run rfl rfl rfl (inv.gone alloc (.inr (.inl queued)))
  | drop runs =>
    have gone := inv.gone alloc (.inl (by simp [runs]))
    exact inv.run rfl rfl (dropSlot_drops gone) (by simpa using gone)
  | ready runs live =>
    have gone := inv.gone alloc (.inl (by simp [runs]))
    exact inv.run rfl rfl rfl (by simpa [live, Slot.future] using gone)
  | fetchAnd runs | poll runs | pending runs | readyUndefined runs | store runs =>
    exact inv.run rfl rfl rfl (inv.gone alloc (.inl (by simp [runs])))

theorem drops_of_buried {cs : List (Act τ)} (inv : Buried s f) (alloc : AllocInv s)
    (run : Run step Free s cs t) : t.drops f = 1 := by
  suffices AllocInv t ∧ Buried t f from this.2.drops
  refine run.invariant (I := fun t => AllocInv t ∧ Buried t f) ⟨alloc, inv⟩ ?_
  intro s a t ⟨alloc, inv⟩ _ next
  exact ⟨allocInv_step alloc next, buried_step inv alloc next⟩

/-- No call, no Run, no queue entry and no work item. -/
structure Vacant (s : State τ) : Prop where
  word : s.word = 0#8
  handle : s.handle = none
  queued : s.queued = 0
  runner : s.runner = .idle
  pc : ∀ u, s.pc u = .idle

/-- One call of `try_spawn` with nobody in between. -/
def spawnCall (u : τ) (f h : Nat) (coalesce : Bool) : List (Act τ) :=
  [.spawn u, .write u f, .loadHandle u f, .wiNew u f (some h), .storeHandle u h,
    .spawnSchedule u h coalesce]

theorem Vacant.spawns (vacant : Vacant s) (u : τ) (h : Nat) (coalesce : Bool) :
    ∃ t, Run step Free s (spawnCall u s.accepted h coalesce) t ∧ t.outcome u = some (.ok ()) ∧
      t.handle = some h ∧ t.queued = 1 := by
  obtain ⟨word, handle, queued, _, pc⟩ := vacant
  refine ⟨_, run_of_exec (by simp [spawnCall, exec, step, Free, pc, word, handle]; rfl), ?_⟩
  simp [queued]

theorem callInv_run {bs : List (Act τ)} (inv : CallInv s u f) (alloc : AllocInv s)
    (run : Run step (fun _ a => a ≠ .spawn u) s bs t) : CallInv t u f ∧ AllocInv t := by
  refine run.invariant (I := fun t => CallInv t u f ∧ AllocInv t) ⟨inv, alloc⟩ ?_
  intro s a t ⟨inv, alloc⟩ other next
  exact ⟨callInv_step inv alloc other next, allocInv_step alloc next⟩

theorem callInv_spawn (fresh : FreshInv s) (next : step s (.spawn u) = some t) :
    CallInv t u s.accepted := by
  intro _ hu
  cases steps_of_step next with
  | spawn ht free => exact .inl ⟨update_self .., fresh.drops _ (Nat.le_refl _)⟩
  | busy ht taken => simp [Pc.spawning] at hu

theorem callInv_busy (taken : s.word ≠ 0#8) (next : step s (.spawn u) = some t) (f : Nat) :
    CallInv t u f := by
  intro _ hu
  cases steps_of_step next with
  | spawn ht free => exact absurd free taken
  | busy ht => simp [Pc.spawning] at hu

omit [DecidableEq τ] in
theorem CallInv.rolledBack (inv : CallInv s u f) (null : s.handle = none)
    (hu : s.pc u = .rollbackStore) : s.drops f = 1 := by
  obtain ⟨h, -⟩ | ⟨h, -⟩ | ⟨-, once⟩ := inv null (by simp [hu, Pc.spawning])
  · simp [hu] at h
  · simp [hu] at h
  · exact once

theorem rollbackStore_spec (alloc : AllocInv s) (next : step s (.rollbackStore u) = some t) :
    s.handle = none ∧ s.pc u = .rollbackStore ∧ Vacant t ∧
      t.outcome u = some (.error .allocFailed) ∧ t.drops = s.drops ∧ t.accepted = s.accepted := by
  cases steps_of_step next with
  | rollbackStore ht =>
    have null := alloc.alloc u (by rw [ht]; rfl)
    obtain ⟨queued, runner, _⟩ := alloc.quiet null
    refine ⟨null, ht, ⟨rfl, null, queued, runner, fun v => ?_⟩, update_self .., rfl, rfl⟩
    by_cases hvu : v = u
    · simp [hvu]
    · simpa [update_of_ne hvu] using alloc.others_idle null (by simp [ht]) hvu

omit [DecidableEq τ] in
theorem Vacant.buried (vacant : Vacant s) (once : s.drops f = 1) (accepted : f < s.accepted) :
    Buried s f :=
  ⟨once, accepted, fun u => by simp [vacant.pc u],
    fun _ => ⟨vacant.handle, fun u => .inl (vacant.pc u)⟩⟩

omit [DecidableEq τ] in
theorem AllocInv.vacant (alloc : AllocInv s) (null : s.handle = none) (word : s.word = 0#8) :
    Vacant s := by
  obtain ⟨queued, runner, _⟩ := alloc.quiet null
  exact ⟨word, null, queued, runner, alloc.free null (by simp [word])⟩

/-- `wi_new` succeeds at most once, the handle it returned stays, and `wi_schedule_now` gets
no other. A `try_spawn` that ends with AllocFailed has found the cell vacant and leaves it
vacant, with its future dropped once and for all, so that the next call can succeed. -/
theorem alloc_failure_rolls_back {as : List (Act τ)} (run : Run step Free init as s) :
    s.allocs ≤ 1 ∧
    (∀ u h, s.pc u = .spawnSchedule h ∨ s.pc u = .wakeSchedule h → s.handle = some h) ∧
    (∀ h bs t, s.handle = some h → Run step Free s bs t → t.handle = some h) ∧
    ∀ u s₁ bs s₂ s₃, step s (.spawn u) = some s₁ →
      Run step (fun _ a => a ≠ .spawn u) s₁ bs s₂ → step s₂ (.rollbackStore u) = some s₃ →
      Vacant s ∧ Vacant s₃ ∧ s₃.outcome u = some (.error .allocFailed) ∧
      (∀ cs s₄, Run step Free s₃ cs s₄ → s₄.drops s.accepted = 1) ∧
      ∀ v h coalesce, ∃ s₄, Run step Free s₃ (spawnCall v s₃.accepted h coalesce) s₄ ∧
        s₄.outcome v = some (.ok ()) ∧ s₄.handle = some h ∧ s₄.queued = 1 := by
  have inv := handleInv_run run
  have alloc := allocInv_run run
  refine ⟨inv.allocs_le_one, inv.given, fun h bs t stored run' => handle_run alloc run' stored, ?_⟩
  intro u s₁ bs s₂ s₃ call during last
  have run₁ := run.snoc trivial call
  have alloc₁ := allocInv_run run₁
  have run₂ := run₁.append during.free
  have fresh₂ := freshInv_run run₂
  obtain ⟨null, hu, vacant, outcome, drops, accepted⟩ :=
    rollbackStore_spec (allocInv_run run₂) last
  have free : s.word = 0#8 := by
    by_contra taken
    have inv₂ := (callInv_run (callInv_busy taken call s₂.accepted) alloc₁ during).1
    have once := inv₂.rolledBack null hu
    simp [fresh₂.drops _ (Nat.le_refl _)] at once
  have before : s.handle = none := by
    cases stored : s.handle with
    | none => rfl
    | some h =>
      have kept := handle_run alloc ((Run.nil.snoc trivial call).append during.free) stored
      rw [null] at kept
      cases kept
  have inv₂ := (callInv_run (callInv_spawn (freshInv_run run) call) alloc₁ during).1
  have once := inv₂.rolledBack null hu
  have old : s.accepted < s₃.accepted := by
    by_contra new
    rw [accepted, Nat.not_lt] at new
    simp [fresh₂.drops _ new] at once
  have buried := vacant.buried (drops ▸ once) old
  have alloc₃ := allocInv_run (run₂.snoc trivial last)
  exact ⟨alloc.vacant before free, vacant, outcome,
    fun cs s₄ later => drops_of_buried buried alloc₃ later, vacant.spawns⟩

/-- A first call whose `wi_new` fails while a second one is refused as Busy. -/
theorem alloc_failure_rolls_back_busy :
    ∃ s₃ : State Bool, Vacant s₃ ∧ s₃.outcome false = some (.error .allocFailed) ∧
      s₃.outcome true = some (.error .busy) ∧ s₃.drops 0 = 1 := by
  obtain ⟨_, _, _, fails⟩ := alloc_failure_rolls_back (τ := Bool) .nil
  have during : Run step (fun _ a => a ≠ Act.spawn false)
      { init.goto false (.write 0) with word := spawned ||| runQueued, accepted := 1 }
      [.write false 0, .spawn true, .loadHandle false 0, .wiNew false 0 none,
        .rollbackDrop false 0] _ := run_of_exec rfl
  obtain ⟨_, vacant, failed, drops, _⟩ := fails false _ _ _ _ rfl during rfl
  exact ⟨_, vacant, failed, rfl, drops [] _ .nil⟩

end Px4Rs.TaskCell
