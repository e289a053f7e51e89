import Px4Rs.TaskCellInv

/-! The future slot over any number of spawns: a Run touches only a live future
exactly when none of its polls starts inside the window in which a `try_spawn` has
taken the cell and not yet written the slot. -/
namespace Px4Rs.TaskCell
open Px4Rs.Runs Function
variable {τ : Type*} [DecidableEq τ]

def Slot.occupied : Slot → Bool
  | .live _ | .ready _ => true
  | _ => false

@[simp] theorem Slot.occupied_bury (x : Slot) : x.bury.occupied = false := by
  cases x <;> rfl

def Runner.touching : Runner → Bool
  | .polling | .drop | .store => true
  | _ => false

/-- `poll_once` finds a live future as long as its poll lasts, and drops the one that
this poll resolved. -/
def SlotSafe (s : State τ) : Act τ → Prop
  | .poll | .pending | .ready => ∃ f, s.slot = .live f
  | .drop => ∃ f, s.slot = .ready f
  | _ => True

def Pc.writing : Pc → Bool
  | .write _ => true
  | _ => false

/-- No Run starts its poll while a `try_spawn` is between its `compare_exchange` and its
write of the slot. -/
def SpawnWritten (s : State τ) : Act τ → Prop
  | .poll => ∀ t, (s.pc t).writing = false
  | _ => True

instance [Fintype τ] (s : State τ) : ∀ a, Decidable (SpawnWritten s a)
  | .poll => inferInstanceAs (Decidable (∀ t, (s.pc t).writing = false))
  | .spawn _ | .write _ _ | .loadHandle _ _ | .wiNew _ _ _ | .rollbackDrop _ _ | .rollbackStore _
  | .storeHandle _ _ | .spawnSchedule _ _ _ | .wake _ | .wakeLoad _ | .wakeSchedule _ _ _ | .pop
  | .fetchAnd | .pending | .ready | .drop | .store => .isTrue trivial

/-- An accepted future that is not dropped yet: about to be written, in the slot, or
resolved there. -/
def Held (s : State τ) (f : Nat) : Prop :=
  (∃ t, s.pc t = .write f) ∨ s.slot = .live f ∨ s.slot = .ready f

/- While a thread is about to write, or the word is free, nothing is in the slot; a Run
   that is inside the slot holds SPAWNED, so nobody can be about to write then. -/
structure SlotInv (s : State τ) : Prop where
  writer : ∀ t f, s.pc t = .write f →
    isSpawned s.word = true ∧ s.slot.occupied = false ∧ s.runner.touching = false
  one : ∀ t u f g, s.pc t = .write f → s.pc u = .write g → t = u
  filled : ∀ t f, s.pc t = .wiNew f ∨ s.pc t = .rollbackDrop f ∨ s.pc t = .loadHandle f →
    s.handle = none → s.slot = .live f ∧ isSpawned s.word = true
  rolled : ∀ t, s.pc t = .rollbackStore → s.slot.occupied = false
  free : isSpawned s.word = false → s.slot.occupied = false
  run : s.runner = .poll → isSpawned s.word = true
  polling : s.runner = .polling → isSpawned s.word = true ∧ ∃ f, s.slot = .live f
  drop : s.runner = .drop → isSpawned s.word = true ∧ ∃ f, s.slot = .ready f
  store : s.runner = .store → isSpawned s.word = true ∧ s.slot.occupied = false

omit [DecidableEq τ] in
/-- A Run that is inside the slot has SPAWNED set, and then nobody writes. -/
theorem SlotInv.spawned_of_touching {s : State τ} (h : SlotInv s)
    (hr : s.runner.touching = true) : isSpawned s.word = true := by
  cases hs : s.runner with
  | polling => exact (h.polling hs).1
  | drop => exact (h.drop hs).1
  | store => exact (h.store hs).1
  | idle | fetchAnd | poll => simp [hs, Runner.touching] at hr

omit [DecidableEq τ] in
theorem SlotInv.no_writer {s : State τ} (h : SlotInv s) (hr : s.runner.touching = true) (t : τ)
    (f : Nat) : s.pc t ≠ .write f := by
  intro ht
  rw [(h.writer t f ht).2.2] at hr
  cases hr

omit [DecidableEq τ] in
theorem SlotInv.unwritten {s : State τ} (h : SlotInv s) (full : s.slot.occupied = true) (t : τ)
    (f : Nat) : s.pc t ≠ .write f := by
  intro ht
  rw [(h.writer t f ht).2.1] at full
  cases full

theorem SlotInv.move {s t : State τ} (h : SlotInv s) {u : τ} {p : Pc}
    (pc : t.pc = update s.pc u p) (handle : t.handle = none → s.handle = none)
    (spawned : isSpawned t.word = isSpawned s.word) (slot : t.slot = s.slot)
    (runner : t.runner = s.runner) (unwritten : ∀ f, p ≠ .write f)
    (filled : ∀ f, p = .wiNew f ∨ p = .rollbackDrop f ∨ p = .loadHandle f → s.handle = none →
      s.slot = .live f ∧ isSpawned s.word = true)
    (rolled : p ≠ .rollbackStore) : SlotInv t := by
  have other {v : τ} {q : Pc} (hv : t.pc v = q) (hq : q ≠ p) : s.pc v = q := by
    by_cases hvu : v = u
    · rw [pc, hvu, update_self] at hv
      exact absurd hv.symm hq
    · rwa [pc, update_of_ne hvu] at hv
  rw [← spawned, ← slot] at filled
  constructor
  · intro v f hv
    rw [spawned, slot, runner]
    exact h.writer v f (other hv (unwritten f).symm)
  · intro v w f g hv hw
    exact h.one v w f g (other hv (unwritten f).symm) (other hw (unwritten g).symm)
  · intro v f hv hn
    by_cases hvu : v = u
    · rw [pc, hvu, update_self] at hv
      exact filled f hv (handle hn)
    · rw [pc, update_of_ne hvu] at hv
      rw [spawned, slot]
      exact h.filled v f hv (handle hn)
  · intro v hv
    rw [slot]
    exact h.rolled v (other hv rolled.symm)
  · rw [spawned, slot]
    exact h.free
  · rw [spawned, runner]
    exact h.run
  · rw [spawned, slot, runner]
    exact h.polling
  · rw [spawned, slot, runner]
    exact h.drop
  · rw [spawned, slot, runner]
    exact h.store

theorem SlotInv.take {s : State τ} (h : SlotInv s) {u : τ} (hw : isSpawned s.word = false)
    {w : Word} (spawned : isSpawned w = true) (f n : Nat) :
    SlotInv { s.goto u (.write f) with word := w, accepted := n } := by
  have untouched : s.runner.touching = false := by
    by_contra hr
    rw [h.spawned_of_touching (by simpa using hr)] at hw
    cases hw
  have still {p : Prop} (hs : isSpawned s.word = true ∧ p) : isSpawned w = true ∧ p :=
    ⟨spawned, hs.2⟩
  have only (v : τ) (g : Nat) (hv : update s.pc u (.write f) v = .write g) : v = u := by
    by_contra hvu
    rw [update_of_ne hvu] at hv
    rw [(h.writer v g hv).1] at hw
    cases hw
  constructor
  · intro v g hv
    exact ⟨spawned, h.free hw, untouched⟩
  · intro v x g k hv hx
    rw [only v g hv, only x k hx]
  · intro v g hv hn
    by_cases hvu : v = u
    · simp [hvu] at hv
    · exact still (h.filled v g (by simpa [update_of_ne hvu] using hv) hn).symm |>.symm
  · intro v hv
    exact h.free hw
  · intro _
    exact h.free hw
  · intro _
    exact spawned
  · intro hr
    exact still (h.polling hr)
  · intro hr
    exact still (h.drop hr)
  · intro hr
    exact still (h.store hr)

theorem SlotInv.write {s : State τ} (h : SlotInv s) (ha : AllocInv s) {u : τ} {f : Nat}
    (hu : s.pc u = .write f) : SlotInv { s.goto u (.loadHandle f) with slot := .live f } := by
  obtain ⟨spawned, empty, untouched⟩ := h.writer u f hu
  have written (v : τ) (g : Nat) : update s.pc u (.loadHandle f) v ≠ .write g := by
    intro hv
    by_cases hvu : v = u
    · simp [hvu] at hv
    · exact hvu (h.one v u g f (by simpa [update_of_ne hvu] using hv) hu)
  have outside {r : Runner} (hr : s.runner = r) : r.touching = false := hr ▸ untouched
  constructor
  · intro v g hv
    exact absurd hv (written v g)
  · intro v w g k hv
    exact absurd hv (written v g)
  · intro v g hv hn
    by_cases hvu : v = u
    · obtain rfl : f = g := by simpa [hvu] using hv
      exact ⟨rfl, spawned⟩
    · have live := (h.filled v g (by simpa [update_of_ne hvu] using hv) hn).1
      simp [live, Slot.occupied] at empty
  · intro v hv
    by_cases hvu : v = u
    · simp [hvu] at hv
    · have hv : s.pc v = .rollbackStore := by simpa [update_of_ne hvu] using hv
      have idle := ha.others_idle (ha.alloc v (by rw [hv]; rfl)) (by simp [hu]) hvu
      rw [idle] at hv
      cases hv
  · intro hs
    exact absurd hs (by simp [spawned])
  · intro _
    exact spawned
  · intro hr
    cases outside hr
  · intro hr
    cases outside hr
  · intro hr
    cases outside hr

omit [DecidableEq τ] in
theorem slotInv_of_empty {s : State τ} (pc : ∀ t, s.pc t = .idle ∨ s.pc t = .rollbackStore)
    (slot : s.slot.occupied = false) (idle : s.runner = .idle) : SlotInv s where
  writer t f ht := by simpa [ht] using pc t
  one t u f g ht := by simpa [ht] using pc t
  filled t f ht := by obtain hp | hp := pc t <;> simp [hp] at ht
  rolled _ _ := slot
  free _ := slot
  run hr := absurd (idle.symm.trans hr) (by simp)
  polling hr := absurd (idle.symm.trans hr) (by simp)
  drop hr := absurd (idle.symm.trans hr) (by simp)
  store hr := absurd (idle.symm.trans hr) (by simp)

omit [DecidableEq τ] in
theorem SlotInv.step_run {s t : State τ} (h : SlotInv s) (ha : AllocInv s)
    (hr : s.runner ≠ .idle ∨ 0 < s.queued) (pc : t.pc = s.pc) (handle : t.handle = s.handle)
    (writer : ∀ v f, s.pc v = .write f →
      isSpawned t.word = true ∧ t.slot.occupied = false ∧ t.runner.touching = false)
    (free : isSpawned t.word = false → t.slot.occupied = false)
    (run : t.runner = .poll → isSpawned t.word = true)
    (polling : t.runner = .polling → isSpawned t.word = true ∧ ∃ f, t.slot = .live f)
    (drop : t.runner = .drop → isSpawned t.word = true ∧ ∃ f, t.slot = .ready f)
    (store : t.runner = .store → isSpawned t.word = true ∧ t.slot.occupied = false) :
    SlotInv t where
  writer := pc ▸ writer
  one := pc ▸ h.one
  filled _ _ _ hn := absurd (handle ▸ hn) (ha.handle_of_run hr)
  rolled v hv := by
    rw [pc] at hv
    exact absurd (ha.alloc v (by rw [hv]; rfl)) (ha.handle_of_run hr)
  free := free
  run := run
  polling := polling
  drop := drop
  store := store

theorem slotInv_step {s t : State τ} {a : Act τ} (h : SlotInv s) (ha : AllocInv s)
    (g : SlotSafe s a) (next : step s a = some t) : SlotInv t := by
  cases steps_of_step next with
  | spawn hu free => exact h.take (by simp [free]) (by simp) _ _
  | write hu => exact h.write ha hu
  | @loadNull u f hu =>
    refine h.move rfl id rfl rfl rfl (by simp) (fun g hg => ?_) (by simp)
    obtain rfl : f = g := by simpa using hg
    exact h.filled u f (.inr (.inr hu))
  | @refused u f hu =>
    refine h.move rfl id rfl rfl rfl (by simp) (fun g hg => ?_) (by simp)
    obtain rfl : f = g := by simpa using hg
    exact h.filled u f (.inl hu)
  | busy | loadHandle | allocated | spawnSchedule | wakeNull | wakeLoad | wakeSchedule =>
    exact h.move rfl id rfl rfl rfl (by simp) (by simp) (by simp)
  | storeHandle => exact h.move rfl (by simp) rfl rfl rfl (by simp) (by simp) (by simp)
  | wake => refine h.move rfl id (by simp) rfl rfl ?_ ?_ ?_ <;> split <;> simp
  | @rollbackDrop u f hu =>
    have hn := ha.alloc u (by rw [hu]; rfl)
    refine slotInv_of_empty (fun v => ?_) s.slot.occupied_bury (ha.quiet hn).2.1
    by_cases hvu : v = u
    · exact .inr (by simp [hvu])
    · exact .inl (by simpa [update_of_ne hvu] using ha.others_idle hn (by simp [hu]) hvu)
  | @rollbackStore u hu =>
    have hn := ha.alloc u (by rw [hu]; rfl)
    refine slotInv_of_empty (fun v => .inl ?_) (h.rolled u hu) (ha.quiet hn).2.1
    by_cases hvu : v = u
    · simp [hvu]
    · simpa [update_of_ne hvu] using ha.others_idle hn (by simp [hu]) hvu
  | pop idle queued =>
    refine h.step_run ha (.inr queued) rfl rfl (fun v f hv => ?_) h.free (by simp) (by simp)
      (by simp) (by simp)
    obtain ⟨spawned, empty, _⟩ := h.writer v f hv
    exact ⟨spawned, empty, rfl⟩
  | fetchAnd hr =>
    refine h.step_run ha (.inl (by simp [hr])) rfl rfl (fun v f hv => ?_) (by simpa using h.free)
      (fun hp => ?_) (fun hp => ?_) (fun hp => ?_) (fun hp => ?_)
    · obtain ⟨spawned, empty, _⟩ := h.writer v f hv
      exact ⟨by simpa using spawned, empty, by simp [spawned, Runner.touching]⟩
    · cases hs : isSpawned s.word with
      | true => simpa using hs
      | false => simp [hs] at hp
    all_goals cases hs : isSpawned s.word <;> simp [hs] at hp
  | poll hr =>
    obtain ⟨f, hf⟩ := g
    refine h.step_run ha (.inl (by simp [hr])) rfl rfl (fun v g hv => ?_) h.free (by simp)
      (fun _ => ⟨h.run hr, f, hf⟩) (by simp) (by simp)
    simpa [hf, Slot.occupied] using (h.writer v g hv).2.1
  | pending hr =>
    refine h.step_run ha (.inl (by simp [hr])) rfl rfl (fun v f hv => ?_) h.free (by simp) (by simp)
      (by simp) (by simp)
    exact absurd hv (h.no_writer (by rw [hr]; rfl) v f)
  | @ready f hr live =>
    have spawned := (h.polling hr).1
    refine h.step_run ha (.inl (by simp [hr])) rfl rfl (fun v f hv => ?_)
      (fun hs => absurd hs (by simp [spawned])) (by simp) (by simp) (fun _ => ⟨spawned, f, rfl⟩)
      (by simp)
    exact absurd hv (h.no_writer (by rw [hr]; rfl) v f)
  | readyUndefined hr dead =>
    obtain ⟨f, live⟩ := g
    exact absurd live (dead f)
  | drop hr =>
    have empty := s.slot.occupied_bury
    refine h.step_run ha (.inl (by simp [hr])) rfl rfl (fun v f hv => ?_) (fun _ => empty) (by simp)
      (by simp) (by simp) (fun _ => ⟨(h.drop hr).1, empty⟩)
    exact absurd hv (h.no_writer (by rw [hr]; rfl) v f)
  | store hr =>
    refine h.step_run ha (.inl (by simp [hr])) rfl rfl (fun v f hv => ?_)
      (fun _ => (h.store hr).2) (by simp) (by simp) (by simp) (by simp)
    exact absurd hv (h.no_writer (by rw [hr]; rfl) v f)

/-- Every accepted future is dropped once and out of reach, or not dropped and held. -/
def Ledger (s : State τ) : Prop :=
  ∀ f, (f < s.accepted → s.drops f = 1 ∧ ¬ Held s f ∨ s.drops f = 0 ∧ Held s f) ∧
    (s.accepted ≤ f → s.drops f = 0 ∧ ¬ Held s f)

omit [DecidableEq τ] in
theorem Ledger.congr {s t : State τ} (h : Ledger s) (held : ∀ f, Held t f ↔ Held s f)
    (drops : t.drops = s.drops) (accepted : t.accepted = s.accepted) : Ledger t := by
  intro f
  rw [held, drops, accepted]
  exact h f

theorem held_goto {s : State τ} {u : τ} {p : Pc} (hu : ∀ f, s.pc u ≠ .write f)
    (hp : ∀ f, p ≠ .write f) (f : Nat) : Held (s.goto u p) f ↔ Held s f := by
  refine or_congr ⟨?_, ?_⟩ Iff.rfl
  · rintro ⟨t, ht⟩
    by_cases h : t = u
    · subst h; exact absurd (by simpa using ht) (hp f)
    · exact ⟨t, by simpa [update_of_ne h] using ht⟩
  · rintro ⟨t, ht⟩
    have h : t ≠ u := by rintro rfl; exact hu f ht
    exact ⟨t, by simpa [update_of_ne h] using ht⟩

omit [DecidableEq τ] in
theorem held_of_no_writer {s : State τ} (h : ∀ t f, s.pc t ≠ .write f) (f : Nat) :
    Held s f ↔ s.slot = .live f ∨ s.slot = .ready f := by
  simp [Held, h]

omit [DecidableEq τ] in
theorem Ledger.drop {s t : State τ} {f : Nat} (h : Ledger s) (hf : Held s f)
    (held : ∀ g, Held t g ↔ Held s g ∧ g ≠ f)
    (drops : t.drops = update s.drops f (s.drops f + 1)) (accepted : t.accepted = s.accepted) :
    Ledger t := by
  intro g
  have hg := h g
  rw [held, drops, accepted]
  by_cases hgf : g = f
  · subst hgf
    rw [update_self]
    refine ⟨fun hlt => .inl ⟨?_, fun hh => hh.2 rfl⟩, fun hle => absurd hf (hg.2 hle).2⟩
    obtain ⟨_, hn⟩ | ⟨zero, _⟩ := hg.1 hlt
    · exact absurd hf hn
    · rw [zero]
  · rw [update_of_ne hgf]
    simpa [hgf] using hg

theorem ledger_step {s t : State τ} {a : Act τ} (h : Ledger s) (hi : SlotInv s)
    (ha : AllocInv s) (g : SlotSafe s a) (next : step s a = some t) : Ledger t := by
  cases steps_of_step next with
  | @spawn u hu =>
    have held (f : Nat) : Held { s.goto u (.write s.accepted) with
        word := spawned ||| runQueued, accepted := s.accepted + 1 } f ↔
          Held s f ∨ f = s.accepted := by
      constructor
      · rintro (⟨v, hv⟩ | hv)
        · by_cases e : v = u
          · subst e; simp at hv; exact .inr hv.symm
          · exact .inl (.inl ⟨v, by simpa [update_of_ne e] using hv⟩)
        · exact .inl (.inr hv)
      · rintro ((⟨v, hv⟩ | hv) | rfl)
        · have e : v ≠ u := by rintro rfl; simp [hu] at hv
          exact .inl ⟨v, by simpa [update_of_ne e] using hv⟩
        · exact .inr hv
        · exact .inl ⟨u, by simp⟩
    intro f
    rw [held]
    obtain ⟨taken, free⟩ := h f
    refine ⟨fun hlt => ?_, fun hle => ?_⟩
    · obtain hlt | rfl := Nat.lt_succ_iff_lt_or_eq.mp hlt
      · simpa [hlt.ne] using taken hlt
      · exact .inr ⟨(free (Nat.le_refl _)).1, .inr rfl⟩
    · have hle : s.accepted + 1 ≤ f := hle
      have hne : f ≠ s.accepted := by omega
      simpa [hne] using free (by omega)
  | busy hu | loadNull hu | loadHandle hu | refused hu | allocated hu | rollbackStore hu
  | storeHandle hu | spawnSchedule hu | wakeNull hu | wakeLoad hu | wakeSchedule hu =>
    exact h.congr (held_goto (by simp [hu]) (by simp)) rfl rfl
  | wake hu => exact h.congr (held_goto (by simp [hu]) (by split <;> simp)) rfl rfl
  | pop | fetchAnd | poll | pending | store => exact h.congr (fun _ => Iff.rfl) rfl rfl
  | @write u f hu =>
    have only : ∀ v g, s.pc v = .write g → g = f := by
      intro v g hv
      cases hi.one v u g f hv hu
      rw [hu] at hv
      exact (Pc.write.inj hv).symm
    have empty := (hi.writer u f hu).2.1
    refine h.congr (fun g => ?_) rfl rfl
    constructor
    · rintro (⟨v, hv⟩ | hl | hl)
      · by_cases e : v = u
        · simp [e] at hv
        · exact .inl ⟨v, by simpa [update_of_ne e] using hv⟩
      · simp only [Slot.live.injEq] at hl
        exact .inl ⟨u, hl ▸ hu⟩
      · simp at hl
    · rintro (⟨v, hv⟩ | hl | hl)
      · exact .inr (.inl (by simp [only v g hv]))
      · simp [hl, Slot.occupied] at empty
      · simp [hl, Slot.occupied] at empty
  | @rollbackDrop u f hu =>
    have hl := (hi.filled u f (by simp [hu]) (ha.alloc u (by simp [hu, Pc.allocating]))).1
    have none := hi.unwritten (by rw [hl]; rfl)
    refine h.drop (f := f) (.inr (.inl hl)) (fun g => ?_)
      (by simp [State.goto, State.dropSlot, hl, Slot.future]) rfl
    rw [held_of_no_writer none, held_of_no_writer]
    · simp [hl, Slot.bury, Slot.future, eq_comm]
    · intro v g
      by_cases e : v = u
      · simp [e]
      · simpa [update_of_ne e] using none v g
  | ready hr live => exact h.congr (fun g => by simp [Held, live]) rfl rfl
  | readyUndefined hr dead =>
    obtain ⟨f, live⟩ := (hi.polling hr).2
    exact absurd live (dead f)
  | drop hr =>
    obtain ⟨f, hl⟩ := (hi.drop hr).2
    have none := hi.unwritten (by rw [hl]; rfl)
    refine h.drop (f := f) (.inr (.inr hl)) (fun g => ?_)
      (by simp [State.dropSlot, hl, Slot.future]) rfl
    rw [held_of_no_writer none, held_of_no_writer]
    · simp [hl, Slot.bury, Slot.future, eq_comm]
    · exact none

/-- Everything known of a state reached by safe slot accesses. -/
structure CellInv (s : State τ) : Prop where
  slot : SlotInv s
  alloc : AllocInv s
  owned : Owned s
  ledger : Ledger s

omit [DecidableEq τ] in
theorem cellInv_init : CellInv (init : State τ) := by
  refine ⟨?_, allocInv_init, by simp [Owned, init], ?_⟩
  · constructor <;> simp [init, Slot.occupied]
  · simp [Ledger, Held, init]

theorem cellInv_step {s t : State τ} {a : Act τ} (h : CellInv s) (g : SlotSafe s a)
    (next : step s a = some t) : CellInv t :=
  ⟨slotInv_step h.slot h.alloc g next, allocInv_step h.alloc next, owned_step h.owned next,
    ledger_step h.ledger h.slot h.alloc g next⟩

omit [DecidableEq τ] in
/-- The poll of a Run finds a live future unless some thread has yet to write it. -/
theorem CellInv.live_of_poll {s : State τ} (h : CellInv s) (hr : s.runner = .poll)
    (hw : ∀ t, (s.pc t).writing = false) : ∃ f, s.slot = .live f := by
  obtain ⟨t, ht⟩ | hl | hd | hs := h.owned (h.slot.run hr)
  · cases hp : s.pc t <;> simp [hp, Pc.owns] at ht
    · simpa [hp, Pc.writing] using hw t
    · have hn := h.alloc.alloc t (by simp [hp, Pc.allocating])
      simp [(h.alloc.quiet hn).2.1] at hr
  · exact hl
  · simp [hr] at hd
  · simp [hr] at hs

theorem slotSafe_iff {s t : State τ} {a : Act τ} (h : CellInv s) (next : step s a = some t) :
    SlotSafe s a ↔ SpawnWritten s a := by
  cases steps_of_step next with
  | poll hr =>
    constructor
    · rintro ⟨f, hf⟩ u
      cases hu : s.pc u with
      | write g => exact absurd hu (h.slot.unwritten (by rw [hf]; rfl) u g)
      | _ => rfl
    · exact h.live_of_poll hr
  | pending hr | ready hr | readyUndefined hr =>
    exact ⟨fun _ => trivial, fun _ => (h.slot.polling hr).2⟩
  | drop hr => exact ⟨fun _ => trivial, fun _ => (h.slot.drop hr).2⟩
  | _ => exact Iff.rfl

/-- A run accesses the future slot safely exactly when every poll in it starts with no
`try_spawn` between taking the cell and writing the slot; and then each accepted future
is dropped once and gone, or not dropped and still held. -/
theorem future_slot_safe {as : List (Act τ)} {s : State τ} :
    (Run step SlotSafe init as s ↔ Run step SpawnWritten init as s) ∧
    (Run step SpawnWritten init as s → Ledger s) := by
  have safe : Run step SlotSafe init as s ↔ Run step SpawnWritten init as s :=
    run_congr cellInv_init (fun _ _ _ => cellInv_step) fun _ _ _ => slotSafe_iff
  refine ⟨safe, fun h => ?_⟩
  exact ((safe.mpr h).invariant cellInv_init fun _ _ _ => cellInv_step).ledger

/-- One future, spawned on a fresh cell and completed by the first Run. -/
def oneFuture : List (Act Bool) :=
  [.spawn true, .write true 0, .loadHandle true 0, .wiNew true 0 (some 0), .storeHandle true 0,
    .spawnSchedule true 0 false, .pop, .fetchAnd, .poll, .ready, .drop, .store]

/-- A second one, spawned by another thread and polled once so far. -/
def respawned : List (Act Bool) :=
  oneFuture ++ [.spawn false, .write false 1, .loadHandle false 1, .spawnSchedule false 0 false,
    .pop, .fetchAnd, .poll, .pending]

theorem future_slot_safe_respawned :
    ∃ s, Run step SlotSafe init respawned s ∧ Ledger s ∧ s.drops 0 = 1 ∧ s.slot = .live 1 := by
  obtain ⟨s, run, hs⟩ := exists_run step SpawnWritten init
    respawned (fun s => s.drops 0 = 1 ∧ s.slot = .live 1) rfl
  obtain ⟨drops, slot⟩ : s.drops 0 = 1 ∧ s.slot = .live 1 := by simpa using hs
  exact ⟨s, future_slot_safe.1.mpr run, future_slot_safe.2 run, drops, slot⟩

/-- A wake during the last poll of a future leaves a schedule behind; the Run it causes
lands in the next `try_spawn`, before that one has written its future. -/
def staleRun : List (Act Bool) :=
  [.spawn true, .write true 0, .loadHandle true 0, .wiNew true 0 (some 0), .storeHandle true 0,
    .spawnSchedule true 0 false, .pop, .fetchAnd, .poll, .wake false, .wakeLoad false,
    .wakeSchedule false 0 false, .ready, .drop, .store, .spawn true, .pop, .fetchAnd]

theorem stale_run_polls_dropped_future :
    ∃ s, Run step Free init staleRun s ∧ (step s .poll).isSome ∧ ¬ SlotSafe s .poll ∧
      s.slot = .dropped 0 ∧ s.pc true = .write 1 := by
  obtain ⟨s, run, hs⟩ := exists_run step Free init staleRun
    (fun s => (step s .poll).isSome ∧ s.slot = .dropped 0 ∧ s.pc true = .write 1) rfl
  simp only [Bool.decide_and, Bool.and_eq_true, decide_eq_true_eq] at hs
  exact ⟨s, run, hs.1, fun ⟨f, hf⟩ => by simp [hs.2.1] at hf, hs.2⟩

end Px4Rs.TaskCell
