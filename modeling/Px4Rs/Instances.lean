import Px4Rs.Advertisements

/-! The instance that `advertise_multi` returns, against the instance that PX4 assigned to the
advertisement the publication has stored. -/
namespace Px4Rs.Instances
open Px4Rs.Runs Px4Rs.Advertisements Function
variable {τ α M : Type*} [DecidableEq τ]

/-- A return of `advertise_multi`: its value, the instance of the advertisement stored at that
moment, and whether no `unadvertise` overlapped the call. -/
structure Return where
  value : Int
  stored : Option Int
  alone : Bool
deriving DecidableEq

/- The publication with the history of its run: the instances of the advertisements by their
   number, the threads inside `unadvertise`, whether any was since a thread's last call of
   `advertise_multi`, and what those calls have returned. -/
structure History (τ α M : Type*) where
  pub : State τ α M
  assigned : List Int
  unadvertising : List τ
  alone : τ → Bool
  returned : List Return

def start : History τ α M := ⟨init, [], [], fun _ => false, []⟩

def History.stored (s : History τ α M) : Option Int :=
  s.pub.handle.bind fun a => s.assigned[a.no]?

section Record
variable (s : History τ α M) (pub : State τ α M)

def recordAssigned : Act τ α M → List Int
  | .ffiAdvertise _ (some _) assigned => s.assigned ++ [assigned]
  | _ => s.assigned

def recordUnadvertising : Act τ α M → List τ
  | .unadvertise t => t :: s.unadvertising
  | .swap t | .ffiUnadvertise t =>
    match pub.pc t with
    | .idle => s.unadvertising.filter (· ≠ t)
    | _ => s.unadvertising
  | _ => s.unadvertising

def recordAlone : Act τ α M → τ → Bool
  | .advertiseMulti t _ _ => update s.alone t s.unadvertising.isEmpty
  | .unadvertise _ => fun _ => false
  | _ => s.alone

def ended : Act τ α M → Option (τ × Int)
  | .load t | .cas t | .giveBack t =>
    match pub.pc t, pub.outcome t with
    | .idle, some (.advertisedMulti (.ok value)) => some (t, value)
    | _, _ => none
  | _ => none

def record (x : Act τ α M) : History τ α M :=
  let s' : History τ α M :=
    { pub
      assigned := recordAssigned s x
      unadvertising := recordUnadvertising s pub x
      alone := recordAlone s x
      returned := s.returned }
  match ended pub x with
  | some (t, value) => { s' with returned := s.returned ++ [⟨value, s'.stored, s'.alone t⟩] }
  | none => s'

end Record

/-- An operation of any call; the publication is not dropped. -/
def step (fits : M → Bool) (s : History τ α M) (x : Act τ α M) : Option (History τ α M) :=
  match x with
  | .drop | .dropSwap | .dropUnadvertise => none
  | x => (Advertisements.step fits s.pub x).map fun pub => record s pub x

/-- Every call that no `unadvertise` overlapped returned the stored instance. -/
def Reports (s : History τ α M) : Prop :=
  ∀ r ∈ s.returned, r.alone = true → r.stored = some r.value

/-- A call of `advertise_multi` is about to return: it asked for the instance of the
advertisement it finds, or got an advertisement to store, or got the instance of the
advertisement that somebody else has stored. -/
def AgreesAt (s : History τ α M) (t : τ) : Pc α M → Prop
  | .load (.advertiseMulti _ requested) =>
    s.alone t = true → s.pub.handle.isSome = true → s.stored = some requested
  | .cas (.advertiseMulti _ _) h _ =>
    s.alone t = true → s.pub.handle.isNone = true → h.isSome = true
  | .giveBack (.advertiseMulti _ _) _ assigned =>
    s.alone t = true → s.pub.handle.isSome = true → s.stored = some assigned
  | _ => True

/-- The operation, if it ends a call of `advertise_multi`, ends it so. -/
def Agrees (s : History τ α M) : Act τ α M → Prop
  | .load t | .cas t | .giveBack t => AgreesAt s t (s.pub.pc t)
  | _ => True

section Record
variable (s : History τ α M) (pub : State τ α M) (x : Act τ α M)

@[simp] theorem record_pub : (record s pub x).pub = pub := by
  unfold record
  split <;> rfl

@[simp] theorem record_assigned : (record s pub x).assigned = recordAssigned s x := by
  unfold record
  split <;> rfl

@[simp] theorem record_unadvertising :
    (record s pub x).unadvertising = recordUnadvertising s pub x := by
  unfold record
  split <;> rfl

@[simp] theorem record_alone : (record s pub x).alone = recordAlone s x := by
  unfold record
  split <;> rfl

end Record

variable {fits : M → Bool} {s t : History τ α M} {u : τ} {p : Pc α M} {x : Act τ α M}

/-- What a thread's position says of the history. -/
def Knows (s : History τ α M) (u : τ) : Pc α M → Prop
  | .cas _ h assigned => ∀ a, h = some a → s.assigned[a.no]? = some assigned
  | .giveBack _ _ _ => s.alone u = true → s.pub.handle ≠ none
  | .swap | .ffiUnadvertise _ => u ∈ s.unadvertising
  | _ => True

/- Every advertisement has an instance, and while a call is alone the pointer is not taken
   away, so that a call that lost the race still finds the winner's advertisement. -/
structure Inv (s : History τ α M) : Prop where
  numbered : s.assigned.length = s.pub.issued.length
  stored : ∀ a, s.pub.handle = some a → ∃ i, s.assigned[a.no]? = some i
  quiet : ∀ v, s.alone v = true → s.unadvertising = []
  knows : ∀ v, Knows s v (s.pub.pc v)

omit [DecidableEq τ] in
theorem inv_start : Inv (start : History τ α M) := by
  refine ⟨rfl, ?_, ?_, fun _ => trivial⟩ <;> simp [start, init]

theorem Inv.move {pub : State τ α M} (h : Inv s) (pc : pub.pc = update s.pub.pc u p)
    (numbered : (recordAssigned s x).length = pub.issued.length)
    (kept : ∀ (no : Nat) i, s.assigned[no]? = some i → (recordAssigned s x)[no]? = some i)
    (stored : ∀ a, pub.handle = some a → ∃ i, (recordAssigned s x)[a.no]? = some i)
    (quiet : ∀ v, recordAlone s x v = true →
      recordUnadvertising s pub x = [] ∧ (v ≠ u → s.alone v = true))
    (inside : ∀ v, v ≠ u → v ∈ s.unadvertising → v ∈ recordUnadvertising s pub x)
    (handle : ∀ v, v ≠ u → s.alone v = true → s.pub.handle ≠ none → pub.handle ≠ none)
    (knows : Knows (record s pub x) u p) : Inv (record s pub x) := by
  refine ⟨by simpa using numbered, by simpa using stored, ?_, fun v => ?_⟩
  · intro v hv
    rw [record_alone] at hv
    rw [record_unadvertising]
    exact (quiet v hv).1
  by_cases hvu : v = u
  · subst hvu
    rw [record_pub, pc, update_self]
    exact knows
  · have before := h.knows v
    rw [record_pub, pc, update_of_ne hvu]
    cases hv : s.pub.pc v with
    | cas k a i =>
      rw [hv] at before
      intro a ha
      rw [record_assigned]
      exact kept _ _ (before a ha)
    | giveBack k a i =>
      rw [hv] at before
      intro alone
      rw [record_alone] at alone
      have alone := (quiet v alone).2 hvu
      rw [record_pub]
      exact handle v hvu alone (before alone)
    | swap | ffiUnadvertise a =>
      rw [hv] at before
      simp only [Knows, record_unadvertising]
      exact inside v hvu before
    | _ => trivial

theorem Inv.stay {pub : State τ α M} (h : Inv s) (pc : pub.pc = update s.pub.pc u p)
    (issued : pub.issued = s.pub.issued) (handle : pub.handle = s.pub.handle)
    (assigned : recordAssigned s x = s.assigned)
    (inside : recordUnadvertising s pub x = s.unadvertising) (alone : recordAlone s x = s.alone)
    (knows : Knows (record s pub x) u p) : Inv (record s pub x) := by
  refine h.move pc ?_ ?_ ?_ ?_ ?_ ?_ knows
  · rw [assigned, issued, h.numbered]
  · intro no i hi
    rwa [assigned]
  · rw [handle, assigned]
    exact h.stored
  · intro v hv
    rw [alone] at hv
    rw [inside]
    exact ⟨h.quiet v hv, fun _ => hv⟩
  · intro v _ hv
    rwa [inside]
  · intro v _ _ hs
    rwa [handle]

omit [DecidableEq τ] in
theorem knows_next (s : History τ α M) (u : τ) (k : Call M) : Knows s u (k.next : Pc α M) := by
  cases k <;> trivial

/-- The publication makes the step, which is none of the drop's. -/
theorem steps_of_step (next : step fits s x = some t) :
    ∃ pub, t = record s pub x ∧ Steps fits s.pub x pub ∧
      x ≠ .drop ∧ x ≠ .dropSwap ∧ x ≠ .dropUnadvertise := by
  cases x with
  | drop | dropSwap | dropUnadvertise => cases next
  | _ =>
    obtain ⟨pub, hpub, rfl⟩ := Option.map_eq_some_iff.mp next
    exact ⟨pub, rfl, Advertisements.steps_of_step hpub, by simp⟩

theorem Inv.leave {pub : State τ α M} (h : Inv s) (pc : pub.pc = update s.pub.pc u .idle)
    (issued : pub.issued = s.pub.issued) (handle : pub.handle = s.pub.handle)
    (assigned : recordAssigned s x = s.assigned)
    (left : recordUnadvertising s pub x = s.unadvertising.filter (· ≠ u))
    (alone : recordAlone s x = s.alone) : Inv (record s pub x) := by
  refine h.move pc ?_ ?_ ?_ ?_ ?_ ?_ trivial
  · rw [assigned, issued, h.numbered]
  · intro no i hi
    rwa [assigned]
  · rw [handle, assigned]
    exact h.stored
  · intro v hv
    rw [alone] at hv
    exact ⟨by simp [left, h.quiet v hv], fun _ => hv⟩
  · intro v hvu hv
    simp [left, hv, hvu]
  · intro v _ _ hs
    rwa [handle]

theorem inv_unadvertise (h : Inv s) : Inv (record s (s.pub.goto u .swap) (.unadvertise u)) := by
  refine h.move rfl h.numbered (fun _ _ hi => hi) h.stored ?_ ?_ (fun _ _ _ hs => hs) ?_
  · intro v hv
    simp [recordAlone] at hv
  · intro v _ hv
    exact List.mem_cons_of_mem u hv
  · simp [Knows, recordUnadvertising]

theorem quiet_update (h : Inv s) {v w : τ}
    (hw : update s.alone v s.unadvertising.isEmpty w = true) :
    s.unadvertising = [] ∧ (w ≠ v → s.alone w = true) := by
  by_cases hwv : w = v
  · subst hwv
    exact ⟨by simpa using hw, fun ne => absurd rfl ne⟩
  · rw [update_of_ne hwv] at hw
    exact ⟨h.quiet w hw, fun _ => hw⟩

theorem inv_step (h : Inv s) (next : step fits s x = some t) : Inv t := by
  obtain ⟨pub, rfl, moves, hdrop, hdropSwap, hdropUnadvertise⟩ := steps_of_step next
  cases moves with
  | drop => exact absurd rfl hdrop
  | dropSwapNull | dropSwap => exact absurd rfl hdropSwap
  | dropUnadvertise => exact absurd rfl hdropUnadvertise
  | publish | publishMismatch | advertise | absent | reload | ffiPublish =>
    exact h.stay rfl rfl rfl rfl rfl rfl trivial
  | advertiseMulti | advertiseMultiMismatch =>
    exact h.move rfl h.numbered (fun _ _ hi => hi) h.stored (fun _ => quiet_update h)
      (fun _ _ hv => hv) (fun _ _ _ hs => hs) trivial
  | unadvertise => exact inv_unadvertise h
  | @found v k a =>
    exact h.stay (State.advertised_pc s.pub v _ k) (by simp) (by simp) rfl rfl rfl
      (knows_next _ v k)
  | refuse => exact h.stay rfl rfl rfl rfl rfl rfl (by simp [Knows])
  | @issue v k addr assigned =>
    have kept (no : Nat) (i : Int) (hi : s.assigned[no]? = some i) :
        (s.assigned ++ [assigned])[no]? = some i := by
      rw [List.getElem?_append_left (List.getElem?_eq_some_iff.mp hi).1, hi]
    refine h.move rfl ?_ kept ?_ ?_ (fun _ _ hv => hv) (fun _ _ _ hs => hs) ?_
    · simp [recordAssigned, h.numbered]
    · intro a ha
      obtain ⟨i, hi⟩ := h.stored a ha
      exact ⟨i, kept _ i hi⟩
    · intro w hw
      exact ⟨h.quiet w hw, fun _ => hw⟩
    · simp [Knows, recordAssigned, ← h.numbered]
  | @store v k r assigned hv null =>
    have own : Knows s v (.cas k r assigned) := hv ▸ h.knows v
    refine h.move (State.advertised_pc _ v _ k) ?_ (fun _ _ hi => hi) ?_ ?_ (fun _ _ hv => hv)
      (fun _ _ _ hs => absurd null hs) (knows_next _ v k)
    · simpa [recordAssigned] using h.numbered
    · intro a ha
      exact ⟨assigned, own a (by simpa using ha)⟩
    · intro w hw
      exact ⟨h.quiet w hw, fun _ => hw⟩
  | lose hv stored => exact h.stay rfl rfl rfl rfl rfl rfl (by simp [Knows, stored])
  | @giveBack v k r assigned =>
    exact h.stay (State.advertised_pc _ v _ k) (by simp) (by simp) rfl rfl rfl (knows_next _ v k)
  | swapNull => exact h.leave rfl rfl rfl rfl (by simp [recordUnadvertising]) rfl
  | @swap v a hv =>
    have inside : v ∈ s.unadvertising := by simpa [Knows, hv] using h.knows v
    have crowded (w : τ) (hw : s.alone w = true) : False := by
      simp [h.quiet w hw] at inside
    refine h.move rfl h.numbered (fun _ _ hi => hi) (by simp) ?_ ?_ ?_ ?_
    · intro w hw
      exact (crowded w hw).elim
    · intro w _ hw
      simpa [recordUnadvertising] using hw
    · intro w _ hw
      exact (crowded w hw).elim
    · simpa [Knows, recordUnadvertising] using inside
  | ffiUnadvertise => exact h.leave rfl rfl rfl rfl (by simp [recordUnadvertising]) rfl

/-- The history observes the publication, and nothing more: every run without a drop has one. -/
theorem exists_history {as : List (Act τ α M)} {pub : State τ α M} :
    Run (Advertisements.step fits) (fun _ x => x ≠ .drop ∧ x ≠ .dropSwap ∧ x ≠ .dropUnadvertise)
      init as pub ↔ ∃ s, Run (step fits) Free start as s ∧ s.pub = pub := by
  constructor
  · intro run
    induction run with
    | nil => exact ⟨start, .nil, rfl⟩
    | @snoc as x p q _ kept next ih =>
      obtain ⟨s, run, rfl⟩ := ih
      refine ⟨record s q x, run.snoc trivial ?_, record_pub s q x⟩
      cases x <;> simp_all [step]
  · rintro ⟨s, run, rfl⟩
    induction run with
    | nil => exact .nil
    | @snoc as x s t _ _ next ih =>
      cases x with
      | drop | dropSwap | dropUnadvertise => cases next
      | _ =>
        obtain ⟨pub, hpub, rfl⟩ := Option.map_eq_some_iff.mp next
        rw [record_pub]
        exact ih.snoc (by simp) hpub

/-! What a return adds to the reports. -/

theorem reports_none {pub : State τ α M} (h : ended pub x = none) :
    Reports (record s pub x) ↔ Reports s := by
  simp [Reports, record, h]

theorem reports_some {pub : State τ α M} {value : Int} (h : ended pub x = some (u, value)) :
    Reports (record s pub x) ↔ Reports s ∧ (recordAlone s x u = true →
      (pub.handle.bind fun a => (recordAssigned s x)[a.no]?) = some value) := by
  simp only [Reports, record, h, List.forall_mem_append, List.forall_mem_singleton]
  rfl

theorem ended_advertised (pub : State τ α M) (v : τ) (i : Int) (k : Call M) (x : Act τ α M)
    (hx : x = .load v ∨ x = .cas v ∨ x = .giveBack v) :
    ended (pub.advertised v i k) x =
      match k with
      | .advertiseMulti _ _ => some (v, i)
      | .publish _ | .advertise _ => none := by
  obtain rfl | rfl | rfl := hx <;> cases k <;> simp [ended, State.advertised]

/-- A return with the instance `i` of a call that has found or made the publication
advertised adds to the reports that `i` is the stored instance. -/
theorem reports_advertised (pub : State τ α M) (i : Int) {k : Call M}
    (hx : x = .load u ∨ x = .cas u ∨ x = .giveBack u) :
    Reports (record s (pub.advertised u i k) x) ↔ Reports s ∧
      match k with
      | .advertiseMulti _ _ => s.alone u = true →
        (pub.handle.bind fun a => s.assigned[a.no]?) = some i
      | .publish _ | .advertise _ => True := by
  have ends := ended_advertised pub u i k x hx
  cases k with
  | publish | advertise =>
    rw [reports_none ends]
    simp
  | advertiseMulti =>
    rw [reports_some ends]
    obtain rfl | rfl | rfl := hx <;> simp [recordAlone, recordAssigned]

theorem reports_step (h : Inv s) (next : step fits s x = some t) :
    Reports t ↔ Reports s ∧ Agrees s x := by
  obtain ⟨pub, rfl, moves, _⟩ := steps_of_step next
  cases moves with
  | @absent v k hv null =>
    rw [reports_none (by simp [ended])]
    cases k <;> simp [Agrees, AgreesAt, hv, null]
  | @found v k a hv stored =>
    rw [reports_advertised s.pub k.requested (.inl rfl)]
    cases k <;> simp [Agrees, AgreesAt, History.stored, hv, stored, Call.requested]
  | @store v k r assigned hv null =>
    have own : Knows s v (.cas k r assigned) := hv ▸ h.knows v
    rw [reports_advertised _ assigned (.inr (.inl rfl))]
    cases k with
    | publish | advertise => simp [Agrees, AgreesAt, hv]
    | advertiseMulti =>
      cases r with
      | none => simp [Agrees, AgreesAt, hv, null]
      | some a =>
        have given := own a rfl
        simp [Agrees, AgreesAt, hv, given]
  | @lose v k r assigned a hv stored =>
    rw [reports_none (by simp [ended])]
    cases k <;> simp [Agrees, AgreesAt, hv, stored]
  | @giveBack v k r assigned hv =>
    have winner : Knows s v (.giveBack k r assigned) := hv ▸ h.knows v
    rw [reports_advertised _ assigned (.inr (.inr rfl))]
    cases k with
    | publish | advertise => simp [Agrees, AgreesAt, hv]
    | advertiseMulti =>
      cases stored : s.pub.handle with
      | none =>
        have crowded : s.alone v ≠ true := fun alone => winner alone stored
        simp [Agrees, AgreesAt, hv, crowded]
      | some a => simp [Agrees, AgreesAt, History.stored, hv, stored]
  | _ =>
    rw [reports_none rfl]
    simp [Agrees]

/-- In a run every `advertise_multi` that no `unadvertise` overlapped returns the instance of
the stored advertisement if and only if each of them asked for that of the advertisement it
found, got an advertisement to store, or got the instance of the one stored before its own. -/
theorem instances_iff {as : List (Act τ α M)} (run : Run (step fits) Free start as s) :
    Reports s ↔ Run (step fits) Agrees start as s :=
  run.past_iff inv_start (fun _ _ _ => inv_step) (by simp [Reports, start])
    fun _ _ _ => reports_step

instance (s : History τ α M) (t : τ) : ∀ p : Pc α M, Decidable (AgreesAt s t p)
  | .load (.advertiseMulti _ requested) => inferInstanceAs (Decidable
      (s.alone t = true → s.pub.handle.isSome = true → s.stored = some requested))
  | .cas (.advertiseMulti _ _) h _ => inferInstanceAs (Decidable
      (s.alone t = true → s.pub.handle.isNone = true → h.isSome = true))
  | .giveBack (.advertiseMulti _ _) _ assigned => inferInstanceAs (Decidable
      (s.alone t = true → s.pub.handle.isSome = true → s.stored = some assigned))
  | .load (.publish _) | .load (.advertise _) | .cas (.publish _) _ _ | .cas (.advertise _) _ _
  | .giveBack (.publish _) _ _ | .giveBack (.advertise _) _ _ | .idle | .ffiAdvertise _
  | .reload _ | .ffiPublish _ _ | .swap | .ffiUnadvertise _ => .isTrue trivial

instance (s : History τ α M) : ∀ x, Decidable (Agrees s x)
  | .load t | .cas t | .giveBack t => inferInstanceAs (Decidable (AgreesAt s t (s.pub.pc t)))
  | .publish _ _ | .advertise _ _ | .advertiseMulti _ _ _ | .unadvertise _ | .ffiAdvertise _ _ _
  | .reload _ | .ffiPublish _ _ | .swap _ | .ffiUnadvertise _ | .drop | .dropSwap
  | .dropUnadvertise => .isTrue trivial

/-- The second call asks for the instance that the first was assigned. -/
theorem instances_iff_same : ∃ s : History Bool Nat Unit, Reports s ∧
    s.returned = [⟨1, some 1, true⟩, ⟨1, some 1, true⟩] := by
  obtain ⟨s, run, test⟩ := exists_run (step Publication.typed) Agrees
    (start : History Bool Nat Unit)
    [.advertiseMulti true () 0, .load true, .ffiAdvertise true (some 7) 1, .cas true,
      .advertiseMulti false () 1, .load false]
    (fun s => s.returned = [⟨1, some 1, true⟩, ⟨1, some 1, true⟩]) rfl
  exact ⟨s, (instances_iff run.free).mpr run, by simpa using test⟩

/-- One thread asks for instance 0 twice and is assigned 1; and of two threads that both find
no advertisement, the one that loses returns the instance of its own. -/
theorem instances_differ :
    (∃ s : History Bool Nat Unit, Run (step Publication.typed) Free start
      [.advertiseMulti true () 0, .load true, .ffiAdvertise true (some 7) 1, .cas true,
        .advertiseMulti true () 0, .load true] s ∧
      s.returned = [⟨1, some 1, true⟩, ⟨0, some 1, true⟩] ∧ ¬ Reports s) ∧
    ∃ s : History Bool Nat Unit, Run (step Publication.typed) Free start
      [.advertiseMulti true () 0, .advertiseMulti false () 0, .load true, .load false,
        .ffiAdvertise true (some 7) 0, .ffiAdvertise false (some 8) 1, .cas true, .cas false,
        .giveBack false] s ∧
      s.returned = [⟨0, some 0, true⟩, ⟨1, some 0, true⟩] ∧ ¬ Reports s := by
  constructor
  · obtain ⟨s, run, test⟩ := exists_run (step Publication.typed) Free
      (start : History Bool Nat Unit)
      [.advertiseMulti true () 0, .load true, .ffiAdvertise true (some 7) 1, .cas true,
        .advertiseMulti true () 0, .load true]
      (fun s => s.returned = [⟨1, some 1, true⟩, ⟨0, some 1, true⟩]) rfl
    have returned : s.returned = [⟨1, some 1, true⟩, ⟨0, some 1, true⟩] := by simpa using test
    refine ⟨s, run, returned, fun reports => ?_⟩
    simpa using reports ⟨0, some 1, true⟩ (by simp [returned]) rfl
  · obtain ⟨s, run, test⟩ := exists_run (step Publication.typed) Free
      (start : History Bool Nat Unit)
      [.advertiseMulti true () 0, .advertiseMulti false () 0, .load true, .load false,
        .ffiAdvertise true (some 7) 0, .ffiAdvertise false (some 8) 1, .cas true, .cas false,
        .giveBack false]
      (fun s => s.returned = [⟨0, some 0, true⟩, ⟨1, some 0, true⟩]) rfl
    have returned : s.returned = [⟨0, some 0, true⟩, ⟨1, some 0, true⟩] := by simpa using test
    refine ⟨s, run, returned, fun reports => ?_⟩
    simpa using reports ⟨1, some 0, true⟩ (by simp [returned]) rfl

end Px4Rs.Instances
