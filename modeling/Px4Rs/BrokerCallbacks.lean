import Mathlib.Logic.Function.Basic
import Mathlib.Data.List.Nodup
import Px4Rs.Mutex
import Px4Rs.Runs

/-! The callback lists of the host broker under any number of publishers and subscribers:
`notify` calls every callback of a topic while it holds the list's lock, and registration,
unregistration and deletion take that lock inside the lock of the subscriber's flag. -/
namespace Px4Rs.BrokerCallbacks
open Px4Rs.Runs Px4Rs.Mutex Function
variable {κ ι σ γ : Type*}

/- `SubCbInner` with the strong count of its `Arc`; `flag` is `registered` and `flagLocked`
   its mutex. A count of 0 means freed, or never allocated. -/
structure SubCbInner (ι γ : Type*) where
  topic : ι
  ctx : γ
  flag : Bool
  flagLocked : Bool
  strong : Nat

/-- `sub_cb_register`, `sub_cb_unregister`, or the latter inside `sub_cb_delete`. -/
inductive Call where
  | register
  | unregister
  | delete
deriving DecidableEq

/-- What the call leaves in the flag. -/
def Call.target : Call → Bool
  | .register => true
  | .unregister | .delete => false

/-- The operations under the flag's lock; `edit` is the one under the list's lock too. -/
inductive Section where
  | lockFlag
  | test
  | lockList
  | edit
  | unlockList
  | setFlag
  | unlockFlag

/- The next operation of the owner of a handle. `track` is the `live_cbs` push at the end
   of `sub_cb_new`; `untrack` and `drop` end a `sub_cb_delete`. -/
inductive Owner where
  | absent
  | track
  | idle
  | call (k : Call) (p : Section)
  | untrack
  | drop

/-- The next operation of a publisher inside `notify`, with the index it iterates at. -/
inductive Notifier (ι σ : Type*) where
  | idle
  | lock (τ : ι)
  | next (τ : ι) (i : Nat)
  | call (τ : ι) (i : Nat) (h : σ)
  | unlock (τ : ι)

/- A handle is the address of its `SubCbInner`; `lock` is the owner of each list's mutex.
   `called` is history, the `ctx` of every callback invoked, as are the number of times each
   address was allocated and freed. -/
structure State (κ ι σ γ : Type*) where
  cb : σ → SubCbInner ι γ
  owner : σ → Owner
  notifier : κ → Notifier ι σ
  callbacks : ι → List σ
  lock : ι → Option (κ ⊕ σ)
  liveCbs : List σ
  called : List γ
  made : σ → Nat
  freed : σ → Nat

/-- No subscriber yet; the memory of the handles holds anything, with no count. -/
def init (memory : σ → SubCbInner ι γ) : State κ ι σ γ where
  cb h := { memory h with strong := 0 }
  owner _ := .absent
  notifier _ := .idle
  callbacks _ := []
  lock _ := none
  liveCbs := []
  called := []
  made _ := 0
  freed _ := 0

inductive Act (κ ι σ γ : Type*) where
  | new (h : σ) (τ : ι) (ctx : γ)
  | begin (h : σ) (k : Call)
  | advance (h : σ)
  | notify (c : κ) (τ : ι)
  | dispatch (c : κ)

variable [DecidableEq κ] [DecidableEq ι] [DecidableEq σ]

@[simps] def State.goto (s : State κ ι σ γ) (h : σ) (q : Owner) : State κ ι σ γ :=
  { s with owner := update s.owner h q }

@[simps] def State.put (s : State κ ι σ γ) (h : σ) (x : SubCbInner ι γ) : State κ ι σ γ :=
  { s with cb := update s.cb h x }

/-- Drop `n` of the `Arc`s of `h`; the last one frees it. -/
@[simps] def State.release (s : State κ ι σ γ) (h : σ) (n : Nat) : State κ ι σ γ :=
  { s with
    cb := update s.cb h { s.cb h with strong := (s.cb h).strong - n }
    freed := update s.freed h
      (if 0 < n ∧ (s.cb h).strong ≤ n then s.freed h + 1 else s.freed h) }

/-- What `register` and `unregister` do to the list: push a clone, or `retain` the others. -/
def State.edit (s : State κ ι σ γ) (h : σ) (τ : ι) : Call → State κ ι σ γ
  | .register => { s.put h { s.cb h with strong := (s.cb h).strong + 1 } with
      callbacks := update s.callbacks τ (s.callbacks τ ++ [h]) }
  | .unregister | .delete => { s.release h ((s.callbacks τ).count h) with
      callbacks := update s.callbacks τ ((s.callbacks τ).filter fun g => g ≠ h) }

def State.advance (s : State κ ι σ γ) (h : σ) : Option (State κ ι σ γ) :=
  let x := s.cb h
  match s.owner h with
  | .absent | .idle => none
  | .track => some { s.goto h .idle with liveCbs := s.liveCbs ++ [h] }
  | .call k .lockFlag =>
    if x.flagLocked then none
    else some ((s.put h { x with flagLocked := true }).goto h (.call k .test))
  | .call k .test =>
    some (s.goto h (.call k (if x.flag = k.target then .unlockFlag else .lockList)))
  | .call k .lockList =>
    match s.lock x.topic with
    | none => some { s.goto h (.call k .edit) with lock := update s.lock x.topic (some (.inr h)) }
    | some _ => none
  | .call k .edit => some ((s.edit h x.topic k).goto h (.call k .unlockList))
  | .call k .unlockList =>
    some { s.goto h (.call k .setFlag) with lock := update s.lock x.topic none }
  | .call k .setFlag => some ((s.put h { x with flag := k.target }).goto h (.call k .unlockFlag))
  | .call k .unlockFlag =>
    some ((s.put h { x with flagLocked := false }).goto h (if k = .delete then .untrack else .idle))
  | .untrack => some { s.goto h .drop with liveCbs := s.liveCbs.filter fun g => g ≠ h }
  | .drop => some ((s.release h 1).goto h .absent)

def step (s : State κ ι σ γ) : Act κ ι σ γ → Option (State κ ι σ γ)
  -- the allocator gives out memory that is not in use
  | .new h τ ctx =>
    match s.owner h with
    | .absent =>
      if (s.cb h).strong = 0 then
        some { (s.put h ⟨τ, ctx, false, false, 1⟩).goto h .track with
          made := update s.made h (s.made h + 1) }
      else none
    | _ => none
  | .begin h k =>
    match s.owner h with
    | .idle => some (s.goto h (.call k .lockFlag))
    | _ => none
  | .advance h => s.advance h
  | .notify c τ =>
    match s.notifier c with
    | .idle => some { s with notifier := update s.notifier c (.lock τ) }
    | _ => none
  | .dispatch c =>
    match s.notifier c with
    | .idle => none
    | .lock τ =>
      match s.lock τ with
      | none => some { s with
          notifier := update s.notifier c (.next τ 0)
          lock := update s.lock τ (some (.inl c)) }
      | some _ => none
    | .next τ i =>
      match (s.callbacks τ)[i]? with
      | some h => some { s with notifier := update s.notifier c (.call τ i h) }
      | none => some { s with notifier := update s.notifier c (.unlock τ) }
    -- `cb.ctx`, in the memory of `h` as it is now
    | .call τ i h => some { s with
        notifier := update s.notifier c (.next τ (i + 1))
        called := s.called ++ [(s.cb h).ctx] }
    | .unlock τ => some { s with
        notifier := update s.notifier c .idle
        lock := update s.lock τ none }

/-! A subscriber is registered from the push of its clone to the `retain` that removes it;
only the call that holds the flag's lock can see the flag lag behind. -/

def Owner.live : Owner → Bool
  | .absent => false
  | .track | .idle | .call _ _ | .untrack | .drop => true

def Owner.registered (flag : Bool) : Owner → Bool
  | .absent => false
  | .call k .unlockList | .call k .setFlag => k.target
  | .call _ .lockFlag | .call _ .test | .call _ .lockList | .call _ .edit | .call _ .unlockFlag
  | .track | .idle | .untrack | .drop => flag

/-- What the position says about the flag. -/
def Owner.Knows (flag : Bool) : Owner → Prop
  | .absent | .idle | .call _ .lockFlag | .call _ .test => True
  | .call k .lockList | .call k .edit | .call k .unlockList | .call k .setFlag => flag ≠ k.target
  | .call k .unlockFlag => flag = k.target
  | .track | .untrack | .drop => flag = false

def Owner.holds (τ : ι) : Owner → Option ι
  | .call _ .edit | .call _ .unlockList => some τ
  | .call _ .lockFlag | .call _ .test | .call _ .lockList | .call _ .setFlag | .call _ .unlockFlag
  | .absent | .track | .idle | .untrack | .drop => none

def Notifier.holds : Notifier ι σ → Option ι
  | .idle | .lock _ => none
  | .next τ _ | .call τ _ _ | .unlock τ => some τ

def State.registered (s : State κ ι σ γ) (h : σ) : Bool := (s.owner h).registered (s.cb h).flag

def State.live (s : State κ ι σ γ) (h : σ) : Bool := (s.owner h).live

def State.holding (s : State κ ι σ γ) : κ ⊕ σ → Option ι :=
  Sum.elim (fun c => (s.notifier c).holds) fun h => (s.owner h).holds (s.cb h).topic

omit [DecidableEq κ] [DecidableEq ι] [DecidableEq σ] in
theorem live_of_registered {s : State κ ι σ γ} {h : σ} (hr : s.registered h = true) :
    s.live h = true := by
  simp only [State.registered, State.live] at hr ⊢
  cases hp : s.owner h with
  | absent =>
    rw [hp] at hr
    cases hr
  | track | idle | call _ _ | untrack | drop => rfl

/- Each list holds the registered subscribers of its topic, each once; the strong counts
   and the allocations add up; the lists' locks exclude each other, and a publisher calls
   what is in the list it has locked. -/
structure Inv (s : State κ ι σ γ) : Prop where
  listed : ∀ τ h, h ∈ s.callbacks τ ↔ (s.cb h).topic = τ ∧ s.registered h = true
  nodup : ∀ τ, (s.callbacks τ).Nodup
  strong : ∀ h, (s.cb h).strong = (s.live h).toNat + (s.registered h).toNat
  made : ∀ h, s.made h = s.freed h + (s.live h).toNat
  knows : ∀ h, (s.owner h).Knows (s.cb h).flag
  locks : Exclusive s.holding s.lock
  calling : ∀ c τ i h, s.notifier c = .call τ i h → h ∈ s.callbacks τ

variable {s t : State κ ι σ γ} {a : Act κ ι σ γ} {h : σ} {q : Owner} {x : SubCbInner ι γ}

omit [DecidableEq κ] [DecidableEq ι] [DecidableEq σ] in
theorem holding_inl {c : κ} {n : Notifier ι σ} (hc : s.notifier c = n) :
    s.holding (.inl c) = n.holds := hc ▸ rfl

omit [DecidableEq κ] [DecidableEq ι] [DecidableEq σ] in
theorem holding_inr {p : Owner} (hp : s.owner h = p) :
    s.holding (.inr h) = p.holds (s.cb h).topic := hp ▸ rfl

omit [DecidableEq κ] [DecidableEq ι] [DecidableEq σ] in
theorem inv_init (memory : σ → SubCbInner ι γ) : Inv (init memory : State κ ι σ γ) := by
  have free : (init memory : State κ ι σ γ).holding = fun _ => none := by
    funext z
    cases z <;> rfl
  refine ⟨?_, ?_, ?_, ?_, ?_, free ▸ exclusive_free _, ?_⟩ <;>
    simp [init, State.registered, State.live, Owner.registered, Owner.live, Owner.Knows]

omit [DecidableEq ι] in
theorem holding_owner (cb : t.cb = update s.cb h x) (owner : t.owner = update s.owner h q)
    (notifier : t.notifier = s.notifier) :
    t.holding = update s.holding (.inr h) (q.holds x.topic) := by
  funext z
  cases z with
  | inl c => simp [State.holding, notifier]
  | inr g =>
    by_cases hg : g = h
    · subst hg
      simp [State.holding, cb, owner]
    · simp [State.holding, cb, owner, hg]

omit [DecidableEq ι] in
theorem Inv.owned (inv : Inv s) (cb : t.cb = update s.cb h x) (owner : t.owner = update s.owner h q)
    (notifier : t.notifier = s.notifier) (callbacks : t.callbacks = s.callbacks)
    (registered : q.registered x.flag = s.registered h)
    (topic : x.topic = (s.cb h).topic ∨ s.registered h = false)
    (strong : x.strong = q.live.toNat + (s.registered h).toNat)
    (made : ∀ g, t.made g = t.freed g + (t.live g).toNat) (knows : q.Knows x.flag)
    (locks : Exclusive (update s.holding (.inr h) (q.holds x.topic)) t.lock) : Inv t := by
  have same : t.registered = s.registered := by
    funext g
    by_cases hg : g = h
    · subst hg
      simp [State.registered, cb, owner, registered]
    · simp [State.registered, cb, owner, hg]
  refine ⟨fun τ g => ?_, fun τ => ?_, fun g => ?_, made, fun g => ?_, ?_, fun c τ i g hc => ?_⟩
  · rw [callbacks, inv.listed, same]
    by_cases hg : g = h
    · subst hg
      obtain topic | unlisted := topic
      · simp [cb, topic]
      · simp [unlisted]
    · simp [cb, hg]
  · rw [callbacks]
    exact inv.nodup τ
  · by_cases hg : g = h
    · subst hg
      simp [State.live, cb, owner, same, strong]
    · simp [State.live, cb, owner, same, hg, inv.strong g]
  · by_cases hg : g = h
    · subst hg
      simp [cb, owner, knows]
    · simp [cb, owner, hg, inv.knows g]
  · rw [holding_owner cb owner notifier]
    exact locks
  · rw [callbacks]
    exact inv.calling c τ i g (notifier ▸ hc)

omit [DecidableEq ι] in
theorem Inv.moved {p : Owner} (inv : Inv s) (hp : s.owner h = p) (cb : t.cb = update s.cb h x)
    (owner : t.owner = update s.owner h q)
    (rest : t.notifier = s.notifier ∧ t.callbacks = s.callbacks ∧ t.made = s.made ∧
      t.freed = s.freed)
    (inner : x.topic = (s.cb h).topic ∧ x.strong = (s.cb h).strong) (live : q.live = p.live)
    (registered : q.registered x.flag = p.registered (s.cb h).flag) (knows : q.Knows x.flag)
    (locks : Exclusive (update s.holding (.inr h) (q.holds x.topic)) t.lock) : Inv t := by
  subst hp
  obtain ⟨notifier, callbacks, made, freed⟩ := rest
  refine inv.owned cb owner notifier callbacks registered (.inl inner.1) ?_ (fun g => ?_) knows
    locks
  · rw [inner.2, live]
    exact inv.strong h
  · have same : t.live g = s.live g := by
      by_cases hg : g = h
      · subst hg
        simp [State.live, owner, live]
      · simp [State.live, owner, hg]
    rw [made, freed, same]
    exact inv.made g

omit [DecidableEq κ] [DecidableEq ι] in
theorem cb_same (h : σ) : s.cb = update s.cb h (s.cb h) := (update_eq_self h s.cb).symm

theorem Inv.edited {k : Call} {list : List σ} (inv : Inv s) (hp : s.owner h = .call k .edit)
    (cb : t.cb = update s.cb h x) (owner : t.owner = update s.owner h (.call k .unlockList))
    (callbacks : t.callbacks = update s.callbacks (s.cb h).topic list)
    (rest : t.notifier = s.notifier ∧ t.lock = s.lock ∧ t.made = s.made ∧ t.freed = s.freed)
    (inner : x.topic = (s.cb h).topic ∧ x.flag = (s.cb h).flag)
    (strong : x.strong = 1 + k.target.toNat) (nodup : list.Nodup)
    (mem : ∀ g, g ∈ list ↔ g = h ∧ k.target = true ∨ g ≠ h ∧ g ∈ s.callbacks (s.cb h).topic) :
    Inv t := by
  obtain ⟨notifier, lock, made, freed⟩ := rest
  have mine : t.registered h = k.target := by
    simp [State.registered, owner, Owner.registered]
  have other {g : σ} (hg : g ≠ h) : t.registered g = s.registered g := by
    simp [State.registered, cb, owner, hg]
  have alive (g : σ) : t.live g = s.live g := by
    by_cases hg : g = h
    · subst hg
      simp [State.live, owner, hp, Owner.live]
    · simp [State.live, owner, hg]
  have inside : s.holding (.inr h) = some (s.cb h).topic := holding_inr hp
  have knows := inv.knows h
  rw [hp] at knows
  refine ⟨fun τ g => ?_, fun τ => ?_, fun g => ?_, fun g => ?_, fun g => ?_, ?_,
    fun c τ i g hc => ?_⟩
  · by_cases hτ : τ = (s.cb h).topic
    · subst hτ
      rw [callbacks, update_self, mem]
      by_cases hg : g = h
      · subst hg
        simp [cb, inner, mine]
      · simp [cb, hg, other hg, inv.listed]
    · rw [callbacks, update_of_ne hτ, inv.listed]
      by_cases hg : g = h
      · subst hg
        simp [cb, inner, Ne.symm hτ]
      · simp [cb, hg, other hg]
  · rw [callbacks]
    by_cases hτ : τ = (s.cb h).topic
    · rw [hτ, update_self]
      exact nodup
    · rw [update_of_ne hτ]
      exact inv.nodup τ
  · by_cases hg : g = h
    · have lives : t.live h = true := by
        rw [alive, State.live, hp]
        rfl
      simp [cb, hg, mine, lives, strong]
    · simp [cb, hg, other hg, alive, inv.strong g]
  · rw [made, freed, alive]
    exact inv.made g
  · by_cases hg : g = h
    · subst hg
      rw [cb, owner, update_self, update_self, inner.2]
      exact knows
    · simp [cb, owner, hg, inv.knows g]
  · rw [holding_owner cb owner notifier, lock, inner.1]
    exact inv.locks.stay inside.symm
  · -- a publisher that calls from this list would be in its lock as well
    rw [notifier] at hc
    have hτ : τ ≠ (s.cb h).topic := by
      rintro rfl
      cases inv.locks.alone (holding_inl hc) inside
    rw [callbacks, update_of_ne hτ]
    exact inv.calling c τ i g hc

theorem inv_edit {k : Call} (inv : Inv s) (hp : s.owner h = .call k .edit) :
    Inv ((s.edit h (s.cb h).topic k).goto h (.call k .unlockList)) := by
  have knows := inv.knows h
  have strong := inv.strong h
  rw [State.live, State.registered, hp] at strong
  rw [hp] at knows
  cases k with
  | register =>
    have flag : (s.cb h).flag = false := by simpa [Owner.Knows, Call.target] using knows
    have fresh : h ∉ s.callbacks (s.cb h).topic := by
      simp [inv.listed, State.registered, hp, Owner.registered, flag]
    refine inv.edited hp rfl rfl rfl ⟨rfl, rfl, rfl, rfl⟩ ⟨rfl, rfl⟩ ?_ ?_ ?_
    · simp [strong, Owner.live, Owner.registered, flag, Call.target]
    · simpa using (inv.nodup _).concat fresh
    · intro g
      by_cases hg : g = h
      · simp [hg, Call.target]
      · simp [hg]
  | unregister | delete =>
    have flag : (s.cb h).flag = true := by simpa [Owner.Knows, Call.target] using knows
    have listed : h ∈ s.callbacks (s.cb h).topic := by
      simp [inv.listed, State.registered, hp, Owner.registered, flag]
    have once := List.count_eq_one_of_mem (inv.nodup _) listed
    refine inv.edited hp rfl rfl rfl ⟨rfl, rfl, rfl, ?_⟩ ⟨rfl, rfl⟩ ?_ ?_ ?_
    · funext g
      by_cases hg : g = h
      · simp [State.edit, hg, once, strong, Owner.live, Owner.registered, flag]
      · simp [State.edit, hg]
    · simp [once, strong, Owner.live, Owner.registered, flag, Call.target]
    · exact (inv.nodup _).filter _
    · simp [Call.target, and_comm]

omit [DecidableEq ι] in
theorem inv_begin {k : Call} (inv : Inv s) (hp : s.owner h = .idle) :
    Inv (s.goto h (.call k .lockFlag)) :=
  inv.moved hp (cb_same h) rfl ⟨rfl, rfl, rfl, rfl⟩ ⟨rfl, rfl⟩ rfl rfl trivial
    (inv.locks.stay (holding_inr hp).symm)

omit [DecidableEq ι] in
theorem inv_drop (inv : Inv s) (hp : s.owner h = .drop) :
    Inv ((s.release h 1).goto h .absent) := by
  have flag : (s.cb h).flag = false := by
    have knows := inv.knows h
    rwa [hp] at knows
  have unlisted : s.registered h = false := by
    rw [State.registered, hp]
    exact flag
  have strong : (s.cb h).strong = 1 := by simp [inv.strong h, unlisted, State.live, hp, Owner.live]
  refine inv.owned rfl rfl rfl rfl ?_ (.inl rfl) ?_ (fun g => ?_) trivial
    (inv.locks.stay (holding_inr hp).symm)
  · rw [unlisted]
    rfl
  · simp [strong, unlisted, Owner.live]
  · by_cases hg : g = h
    · subst hg
      simp [State.live, strong, inv.made g, hp, Owner.live]
    · simp [State.live, hg, inv.made g]

theorem inv_advance (inv : Inv s) (next : s.advance h = some t) : Inv t := by
  have knows := inv.knows h
  simp only [State.advance] at next
  split at next
  · cases next
  · cases next
  · rename_i hp
    cases next
    exact inv.moved hp (cb_same h) rfl ⟨rfl, rfl, rfl, rfl⟩ ⟨rfl, rfl⟩ rfl rfl trivial
      (inv.locks.stay (holding_inr hp).symm)
  · rename_i k hp
    split at next <;> cases next
    exact inv.moved hp rfl rfl ⟨rfl, rfl, rfl, rfl⟩ ⟨rfl, rfl⟩ rfl rfl trivial
      (inv.locks.stay (holding_inr hp).symm)
  · rename_i k hp
    cases next
    by_cases flag : (s.cb h).flag = k.target
    · rw [if_pos flag]
      exact inv.moved hp (cb_same h) rfl ⟨rfl, rfl, rfl, rfl⟩ ⟨rfl, rfl⟩ rfl rfl flag
        (inv.locks.stay (holding_inr hp).symm)
    · rw [if_neg flag]
      exact inv.moved hp (cb_same h) rfl ⟨rfl, rfl, rfl, rfl⟩ ⟨rfl, rfl⟩ rfl rfl flag
        (inv.locks.stay (holding_inr hp).symm)
  · rename_i k hp
    rw [hp] at knows
    split at next <;> cases next
    rename_i free
    exact inv.moved hp (cb_same h) rfl ⟨rfl, rfl, rfl, rfl⟩ ⟨rfl, rfl⟩ rfl rfl knows
      (inv.locks.acquire free)
  · rename_i k hp
    cases next
    exact inv_edit inv hp
  · rename_i k hp
    rw [hp] at knows
    cases next
    exact inv.moved hp (cb_same h) rfl ⟨rfl, rfl, rfl, rfl⟩ ⟨rfl, rfl⟩ rfl rfl knows
      (inv.locks.release (holding_inr hp))
  · rename_i k hp
    cases next
    exact inv.moved hp rfl rfl ⟨rfl, rfl, rfl, rfl⟩ ⟨rfl, rfl⟩ rfl rfl rfl
      (inv.locks.stay (holding_inr hp).symm)
  · rename_i k hp
    rw [hp] at knows
    cases next
    cases k with
    | register | unregister =>
      exact inv.moved hp rfl rfl ⟨rfl, rfl, rfl, rfl⟩ ⟨rfl, rfl⟩ rfl rfl trivial
        (inv.locks.stay (holding_inr hp).symm)
    | delete =>
      exact inv.moved hp rfl rfl ⟨rfl, rfl, rfl, rfl⟩ ⟨rfl, rfl⟩ rfl rfl knows
        (inv.locks.stay (holding_inr hp).symm)
  · rename_i hp
    rw [hp] at knows
    cases next
    exact inv.moved hp (cb_same h) rfl ⟨rfl, rfl, rfl, rfl⟩ ⟨rfl, rfl⟩ rfl rfl knows
      (inv.locks.stay (holding_inr hp).symm)
  · rename_i hp
    cases next
    exact inv_drop inv hp

omit [DecidableEq ι] in
theorem Inv.dispatched {c : κ} {n : Notifier ι σ} (inv : Inv s)
    (notifier : t.notifier = update s.notifier c n)
    (rest : t.cb = s.cb ∧ t.owner = s.owner ∧ t.callbacks = s.callbacks ∧ t.made = s.made ∧
      t.freed = s.freed)
    (locks : Exclusive (update s.holding (.inl c) n.holds) t.lock)
    (calling : ∀ τ i h, n = .call τ i h → h ∈ s.callbacks τ) : Inv t := by
  obtain ⟨cb, owner, callbacks, made, freed⟩ := rest
  have registered : t.registered = s.registered := by
    funext g
    rw [State.registered, State.registered, cb, owner]
  have live : t.live = s.live := by
    funext g
    rw [State.live, State.live, owner]
  have holding : t.holding = update s.holding (.inl c) n.holds := by
    funext z
    cases z with
    | inl d =>
      by_cases hd : d = c
      · subst hd
        simp [State.holding, notifier]
      · simp [State.holding, notifier, hd]
    | inr g => simp [State.holding, cb, owner]
  refine ⟨?_, callbacks ▸ inv.nodup, ?_, ?_, ?_, holding ▸ locks, fun d τ i h hd => ?_⟩
  · rw [callbacks, cb, registered]
    exact inv.listed
  · rw [cb, live, registered]
    exact inv.strong
  · rw [made, freed, live]
    exact inv.made
  · rw [owner, cb]
    exact inv.knows
  · rw [callbacks]
    rw [notifier] at hd
    by_cases hdc : d = c
    · subst hdc
      rw [update_self] at hd
      exact calling τ i h hd
    · rw [update_of_ne hdc] at hd
      exact inv.calling d τ i h hd

theorem inv_dispatch {c : κ} (inv : Inv s) (next : step s (.dispatch c : Act κ ι σ γ) = some t) :
    Inv t := by
  simp only [step] at next
  split at next
  · cases next
  · split at next <;> cases next
    rename_i free
    exact inv.dispatched rfl ⟨rfl, rfl, rfl, rfl, rfl⟩ (inv.locks.acquire free) (by simp)
  · rename_i τ i hc
    split at next <;> cases next
    · rename_i g hg
      refine inv.dispatched rfl ⟨rfl, rfl, rfl, rfl, rfl⟩
        (inv.locks.stay (holding_inl hc).symm) ?_
      rintro _ _ _ ⟨⟩
      exact List.mem_of_getElem? hg
    · exact inv.dispatched rfl ⟨rfl, rfl, rfl, rfl, rfl⟩
        (inv.locks.stay (holding_inl hc).symm) (by simp)
  · rename_i τ i g hc
    cases next
    exact inv.dispatched rfl ⟨rfl, rfl, rfl, rfl, rfl⟩
      (inv.locks.stay (holding_inl hc).symm) (by simp)
  · rename_i τ hc
    cases next
    exact inv.dispatched rfl ⟨rfl, rfl, rfl, rfl, rfl⟩
      (inv.locks.release (holding_inl hc)) (by simp)

theorem inv_step (inv : Inv s) (next : step s a = some t) : Inv t := by
  cases a with
  | new h τ ctx =>
    simp only [step] at next
    split at next
    · rename_i hp
      split at next <;> cases next
      have unlisted : s.registered h = false := by
        rw [State.registered, hp]
        rfl
      refine inv.owned rfl rfl rfl rfl ?_ (.inr unlisted) ?_ (fun g => ?_) rfl
        (inv.locks.stay (holding_inr hp).symm)
      · rw [unlisted]
        rfl
      · simp [unlisted, Owner.live]
      · by_cases hg : g = h
        · subst hg
          simp [State.live, inv.made g, hp, Owner.live]
        · simp [State.live, hg, inv.made g]
    · cases next
  | begin h k =>
    simp only [step] at next
    split at next <;> cases next
    rename_i hp
    exact inv_begin inv hp
  | advance h => exact inv_advance inv next
  | notify c τ =>
    simp only [step] at next
    split at next <;> cases next
    rename_i hc
    exact inv.dispatched rfl ⟨rfl, rfl, rfl, rfl, rfl⟩
      (inv.locks.stay (holding_inl hc).symm) (by simp)
  | dispatch c => exact inv_dispatch inv next

/-- Every callback invocation is for a subscriber that is registered on that topic and whose
`sub_cb_delete` has not returned; each list holds exactly the registered live subscribers of
its topic, each once; a strong count is one for the live handle and one for a listed clone;
and every subscriber made is freed once, when its handle dies. -/
theorem no_callback_after_delete {memory : σ → SubCbInner ι γ} {as : List (Act κ ι σ γ)}
    (run : Run step Free (init memory) as s) :
    (∀ c τ i h, s.notifier c = .call τ i h →
      s.live h = true ∧ s.registered h = true ∧ (s.cb h).topic = τ) ∧
    (∀ τ, (s.callbacks τ).Nodup ∧ ∀ h, h ∈ s.callbacks τ ↔
      s.live h = true ∧ (s.cb h).topic = τ ∧ s.registered h = true) ∧
    (∀ h, (s.cb h).strong =
      (s.live h).toNat + if h ∈ s.callbacks (s.cb h).topic then 1 else 0) ∧
    (∀ h, s.made h = s.freed h + (s.live h).toNat) := by
  have inv : Inv s := run.invariant (inv_init memory) fun _ _ _ h _ next => inv_step h next
  have lives {h : σ} (hr : s.registered h = true) : s.live h = true := live_of_registered hr
  refine ⟨fun c τ i h hc => ?_, fun τ => ⟨inv.nodup τ, fun h => ?_⟩, fun h => ?_, inv.made⟩
  · obtain ⟨topic, registered⟩ := (inv.listed τ h).mp (inv.calling c τ i h hc)
    exact ⟨lives registered, registered, topic⟩
  · rw [inv.listed]
    constructor
    · intro ⟨topic, registered⟩
      exact ⟨lives registered, topic, registered⟩
    · exact And.right
  · rw [inv.strong h]
    cases hr : s.registered h <;> simp [inv.listed, hr]

/-- A publisher is in the callback of a subscriber whose deletion has begun and waits for the
list. -/
def deleting : List (Act Unit Unit Nat Nat) :=
  [.new 7 () 40, .advance 7, .begin 7 .register, .advance 7, .advance 7, .advance 7, .advance 7,
   .advance 7, .advance 7, .advance 7, .notify () (), .dispatch (), .dispatch (),
   .begin 7 .delete, .advance 7, .advance 7]

theorem no_callback_after_delete_waiting : ∃ s : State Unit Unit Nat Nat,
    Run step Free (init fun _ => ⟨(), 0, false, false, 0⟩) deleting s ∧
      step s (.advance 7) = none ∧ s.live 7 = true ∧ s.registered 7 = true := by
  have run : Run step Free (init fun _ => ⟨(), 0, false, false, 0⟩ : State Unit Unit Nat Nat)
    deleting _ := run_of_exec rfl
  obtain ⟨live, registered, _⟩ := (no_callback_after_delete run).1 () () 0 7 rfl
  exact ⟨_, run, rfl, live, registered⟩

end Px4Rs.BrokerCallbacks
