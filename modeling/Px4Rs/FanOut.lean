import Px4Rs.BrokerCallbacks

/-! What one `notify` does among all others: it calls every subscriber of its topic once. -/
namespace Px4Rs.FanOut
open Px4Rs.Runs Px4Rs.BrokerCallbacks Function
variable {κ ι σ γ : Type*} [DecidableEq κ] [DecidableEq ι] [DecidableEq σ]

/-- The list that a publisher has locked last, and the `ctx`s it has called since. -/
structure History (σ γ : Type*) where
  listed : List σ
  called : List γ

structure Logged (κ ι σ γ : Type*) where
  state : State κ ι σ γ
  history : κ → History σ γ

def start (memory : σ → SubCbInner ι γ) : Logged κ ι σ γ := ⟨init memory, fun _ => ⟨[], []⟩⟩

/-- What a step adds to the histories. -/
def Logged.note (x : Logged κ ι σ γ) : Act κ ι σ γ → κ → History σ γ
  | .dispatch c =>
    match x.state.notifier c with
    | .lock τ => update x.history c ⟨x.state.callbacks τ, []⟩
    | .call _ _ h => update x.history c
        { x.history c with called := (x.history c).called ++ [(x.state.cb h).ctx] }
    | .idle | .next _ _ | .unlock _ => x.history
  | .new _ _ _ | .begin _ _ | .advance _ | .notify _ _ => x.history

def step (x : Logged κ ι σ γ) (a : Act κ ι σ γ) : Option (Logged κ ι σ γ) :=
  (BrokerCallbacks.step x.state a).map fun t => ⟨t, x.note a⟩

variable {s t : State κ ι σ γ} {a : Act κ ι σ γ} {c : κ} {τ : ι} {h : σ}

omit [DecidableEq κ] in
theorem advance_frame (next : s.advance h = some t) :
    t.notifier = s.notifier ∧ (∀ g, (t.cb g).ctx = (s.cb g).ctx) ∧
      ∀ τ, (s.owner h).holds (s.cb h).topic ≠ some τ → t.callbacks τ = s.callbacks τ := by
  have put {x : SubCbInner ι γ} (ctx : x.ctx = (s.cb h).ctx) (g : σ) :
      (update s.cb h x g).ctx = (s.cb g).ctx := by
    by_cases hg : g = h
    · rw [hg, update_self, ctx]
    · rw [update_of_ne hg]
  simp only [State.advance] at next
  split at next
  · cases next
  · cases next
  · cases next
    exact ⟨rfl, fun _ => rfl, fun _ _ => rfl⟩
  · split at next <;> cases next
    exact ⟨rfl, put rfl, fun _ _ => rfl⟩
  · cases next
    exact ⟨rfl, fun _ => rfl, fun _ _ => rfl⟩
  · split at next <;> cases next
    exact ⟨rfl, fun _ => rfl, fun _ _ => rfl⟩
  · rename_i k hp
    cases next
    have other {l : List σ} {τ : ι} (hτ : (s.owner h).holds (s.cb h).topic ≠ some τ) :
        update s.callbacks (s.cb h).topic l τ = s.callbacks τ := by
      refine update_of_ne (fun same => hτ ?_) _ _
      rw [hp, same]
      rfl
    cases k with
    | register => exact ⟨rfl, put rfl, fun _ hτ => other hτ⟩
    | unregister | delete => exact ⟨rfl, put rfl, fun _ hτ => other hτ⟩
  · cases next
    exact ⟨rfl, fun _ => rfl, fun _ _ => rfl⟩
  · cases next
    exact ⟨rfl, put rfl, fun _ _ => rfl⟩
  · cases next
    exact ⟨rfl, put rfl, fun _ _ => rfl⟩
  · cases next
    exact ⟨rfl, fun _ => rfl, fun _ _ => rfl⟩
  · cases next
    exact ⟨rfl, put rfl, fun _ _ => rfl⟩

theorem notifier_frame (next : BrokerCallbacks.step s a = some t) (other : a ≠ .dispatch c) :
    t.notifier c = s.notifier c ∨ s.notifier c = .idle ∧ ∃ τ, t.notifier c = .lock τ := by
  cases a with
  | new g τ ctx =>
    simp only [BrokerCallbacks.step] at next
    split at next
    · split at next <;> cases next
      exact .inl rfl
    · cases next
  | begin g k =>
    simp only [BrokerCallbacks.step] at next
    split at next <;> cases next
    exact .inl rfl
  | advance g => exact .inl (by rw [(advance_frame next).1])
  | notify d τ =>
    simp only [BrokerCallbacks.step] at next
    split at next <;> cases next
    rename_i idle
    by_cases hd : c = d
    · subst hd
      exact .inr ⟨idle, τ, update_self ..⟩
    · exact .inl (update_of_ne hd _ _)
  | dispatch d =>
    have hd : c ≠ d := fun same => other (by rw [same])
    refine .inl ?_
    simp only [BrokerCallbacks.step] at next
    split at next
    · cases next
    · split at next <;> cases next
      exact update_of_ne hd _ _
    · split at next <;> cases next <;> exact update_of_ne hd _ _
    · cases next
      exact update_of_ne hd _ _
    · cases next
      exact update_of_ne hd _ _

/-- While a publisher is inside a list's lock nobody changes that list or the `ctx`s of what
is in it. -/
theorem list_frame (inv : Inv s) (holds : (s.notifier c).holds = some τ)
    (next : BrokerCallbacks.step s a = some t) :
    t.callbacks τ = s.callbacks τ ∧ ∀ h ∈ s.callbacks τ, (t.cb h).ctx = (s.cb h).ctx := by
  have inside : s.holding (.inl c) = some τ := holds
  cases a with
  | new g τ' ctx =>
    simp only [BrokerCallbacks.step] at next
    split at next
    · rename_i absent
      split at next <;> cases next
      refine ⟨rfl, fun h hh => ?_⟩
      have hg : h ≠ g := by
        rintro rfl
        have registered := ((inv.listed τ h).mp hh).2
        rw [State.registered, absent] at registered
        cases registered
      simp [hg]
    · cases next
  | begin g k =>
    simp only [BrokerCallbacks.step] at next
    split at next <;> cases next
    exact ⟨rfl, fun _ _ => rfl⟩
  | advance g =>
    obtain ⟨_, ctx, lists⟩ := advance_frame next
    refine ⟨lists τ fun held => ?_, fun h _ => ctx h⟩
    have owner : s.holding (.inr g) = some τ := held
    cases inv.locks.alone inside owner
  | notify d τ' =>
    simp only [BrokerCallbacks.step] at next
    split at next <;> cases next
    exact ⟨rfl, fun _ _ => rfl⟩
  | dispatch d =>
    simp only [BrokerCallbacks.step] at next
    split at next
    · cases next
    · split at next <;> cases next
      exact ⟨rfl, fun _ _ => rfl⟩
    · split at next <;> cases next <;> exact ⟨rfl, fun _ _ => rfl⟩
    · cases next
      exact ⟨rfl, fun _ _ => rfl⟩
    · cases next
      exact ⟨rfl, fun _ _ => rfl⟩

def ctxs (s : State κ ι σ γ) (l : List σ) : List γ := l.map fun h => (s.cb h).ctx

/- Inside the lock the list is still the one that was locked, and the part of it before the
   position has been called. -/
def Told (s : State κ ι σ γ) (x : History σ γ) : Notifier ι σ → Prop
  | .idle | .lock _ => True
  | .next τ i => x.listed = s.callbacks τ ∧ x.called = ctxs s (x.listed.take i)
  | .call τ i h =>
    x.listed = s.callbacks τ ∧ x.called = ctxs s (x.listed.take i) ∧ x.listed[i]? = some h
  | .unlock τ => x.listed = s.callbacks τ ∧ x.called = ctxs s x.listed

omit [DecidableEq κ] [DecidableEq ι] [DecidableEq σ] in
theorem ctxs_congr {l m : List σ} (same : ∀ h ∈ l, (t.cb h).ctx = (s.cb h).ctx) (sub : m ⊆ l) :
    ctxs t m = ctxs s m :=
  List.map_congr_left fun h hh => same h (sub hh)

theorem Told.frame {x : History σ γ} (told : Told s x (s.notifier c)) (inv : Inv s)
    (next : BrokerCallbacks.step s a = some t) (other : a ≠ .dispatch c) :
    Told t x (t.notifier c) := by
  obtain same | ⟨_, τ, began⟩ := notifier_frame next other
  · rw [same]
    cases hc : s.notifier c with
    | idle | lock τ => trivial
    | next τ i =>
      rw [hc] at told
      obtain ⟨list, ctx⟩ := list_frame inv (show (s.notifier c).holds = some τ by rw [hc]; rfl) next
      obtain ⟨listed, called⟩ := told
      rw [← listed] at ctx
      exact ⟨listed.trans list.symm, called.trans (ctxs_congr ctx (List.take_subset i _)).symm⟩
    | call τ i g =>
      rw [hc] at told
      obtain ⟨list, ctx⟩ := list_frame inv (show (s.notifier c).holds = some τ by rw [hc]; rfl) next
      obtain ⟨listed, called, here⟩ := told
      rw [← listed] at ctx
      exact ⟨listed.trans list.symm, called.trans (ctxs_congr ctx (List.take_subset i _)).symm,
        here⟩
    | unlock τ =>
      rw [hc] at told
      obtain ⟨list, ctx⟩ := list_frame inv (show (s.notifier c).holds = some τ by rw [hc]; rfl) next
      obtain ⟨listed, called⟩ := told
      rw [← listed] at ctx
      exact ⟨listed.trans list.symm, called.trans (ctxs_congr ctx (List.Subset.refl _)).symm⟩
  · rw [began]
    trivial

variable {x y : Logged κ ι σ γ}

omit [DecidableEq ι] [DecidableEq σ] in
theorem note_other (other : a ≠ .dispatch c) : x.note a c = x.history c := by
  cases a with
  | new | begin | advance | notify => rfl
  | dispatch d =>
    have hd : c ≠ d := fun same => other (by rw [same])
    simp only [Logged.note]
    cases x.state.notifier d with
    | lock | call => exact update_of_ne hd _ _
    | idle | next | unlock => rfl

theorem told_dispatch (told : Told x.state (x.history c) (x.state.notifier c))
    (next : BrokerCallbacks.step x.state (.dispatch c) = some t) :
    Told t (x.note (.dispatch c) c) (t.notifier c) := by
  simp only [BrokerCallbacks.step] at next
  cases hc : x.state.notifier c with
  | idle => simp [hc] at next
  | lock τ =>
    simp only [hc] at next
    split at next <;> cases next
    simp [Logged.note, hc, Told, ctxs]
  | next τ i =>
    rw [hc] at told
    obtain ⟨listed, called⟩ := told
    simp only [hc] at next
    split at next <;> cases next
    · rename_i h here
      simpa [Logged.note, hc, Told, listed, called] using ⟨rfl, here⟩
    · rename_i past
      have all : (x.history c).listed.take i = (x.history c).listed :=
        List.take_of_length_le (List.getElem?_eq_none_iff.mp (listed ▸ past))
      rw [all] at called
      simp only [Logged.note, hc, update_self, Told]
      exact ⟨listed, called⟩
  | call τ i h =>
    rw [hc] at told
    obtain ⟨listed, called, here⟩ := told
    simp only [hc] at next
    cases next
    have one : ctxs x.state ((x.history c).listed.take (i + 1)) =
        ctxs x.state ((x.history c).listed.take i) ++ [(x.state.cb h).ctx] := by
      rw [List.take_add_one, here]
      exact List.map_append
    simp only [Logged.note, hc, update_self, Told]
    exact ⟨listed, (congrArg (· ++ [(x.state.cb h).ctx]) called).trans one.symm⟩
  | unlock τ =>
    simp only [hc] at next
    cases next
    simp [Told]

/-- What holds in every state of a run. -/
structure Holds (x : Logged κ ι σ γ) : Prop where
  inv : Inv x.state
  told : ∀ c, Told x.state (x.history c) (x.state.notifier c)

theorem holds_step (h : Holds x) (next : step x a = some y) : Holds y := by
  obtain ⟨t, moved, rfl⟩ := Option.map_eq_some_iff.mp next
  refine ⟨inv_step h.inv moved, fun c => ?_⟩
  by_cases own : a = .dispatch c
  · subst own
    exact told_dispatch (h.told c) moved
  · simp only [note_other own]
    exact (h.told c).frame h.inv moved own

theorem holds_run {memory : σ → SubCbInner ι γ} {as : List (Act κ ι σ γ)}
    (run : Run step Free (start memory) as x) : Holds x :=
  run.invariant ⟨inv_init memory, fun _ => trivial⟩ fun _ _ _ h _ next => holds_step h next

/-- What is left of a `notify` is this many operations, none of which waits. -/
def left (s : State κ ι σ γ) : Notifier ι σ → Nat
  | .idle | .lock _ => 0
  | .next τ i => 2 * ((s.callbacks τ).length - i) + 2
  | .call τ i _ => 2 * ((s.callbacks τ).length - i) + 1
  | .unlock _ => 1

theorem dispatch_inside (h : Holds x) (inside : (x.state.notifier c).holds = some τ) :
    ∃ y, step x (.dispatch c) = some y ∧
      left y.state (y.state.notifier c) + 1 = left x.state (x.state.notifier c) ∧
      (y.state.notifier c = .idle ∨ (y.state.notifier c).holds = some τ) := by
  have told := h.told c
  cases hc : x.state.notifier c with
  | idle | lock =>
    rw [hc] at inside
    cases inside
  | next τ' i =>
    rw [hc] at inside
    cases inside
    cases here : (x.state.callbacks τ)[i]? with
    | some g =>
      have moved : BrokerCallbacks.step x.state (.dispatch c) = some { x.state with
          notifier := update x.state.notifier c (.call τ i g) } := by
        simp only [BrokerCallbacks.step, hc, here]
      refine ⟨_, congrArg (Option.map _) moved, ?_, ?_⟩ <;> simp [left, Notifier.holds]
    | none =>
      have moved : BrokerCallbacks.step x.state (.dispatch c) = some { x.state with
          notifier := update x.state.notifier c (.unlock τ) } := by
        simp only [BrokerCallbacks.step, hc, here]
      have past := List.getElem?_eq_none_iff.mp here
      refine ⟨_, congrArg (Option.map _) moved, ?_, ?_⟩
      · simp [left, Nat.sub_eq_zero_of_le past]
      · simp [Notifier.holds]
  | call τ' i g =>
    rw [hc] at inside told
    cases inside
    obtain ⟨listed, _, here⟩ := told
    rw [listed] at here
    have before := (List.getElem?_eq_some_iff.mp here).1
    have moved : BrokerCallbacks.step x.state (.dispatch c) = some { x.state with
        notifier := update x.state.notifier c (.next τ (i + 1))
        called := x.state.called ++ [(x.state.cb g).ctx] } := by
      simp only [BrokerCallbacks.step, hc]
    refine ⟨_, congrArg (Option.map _) moved, ?_, ?_⟩
    · simp only [left, update_self]
      omega
    · simp [Notifier.holds]
  | unlock τ' =>
    rw [hc] at inside
    cases inside
    have moved : BrokerCallbacks.step x.state (.dispatch c) = some { x.state with
        notifier := update x.state.notifier c .idle
        lock := update x.state.lock τ none } := by
      simp only [BrokerCallbacks.step, hc]
    refine ⟨_, congrArg (Option.map _) moved, ?_, ?_⟩ <;> simp [left]

theorem run_inside {n : Nat} (h : Holds x) (inside : (x.state.notifier c).holds = some τ)
    (hn : left x.state (x.state.notifier c) = n) :
    ∃ y, Run step Free x (List.replicate n (.dispatch c)) y ∧ y.state.notifier c = .idle := by
  induction n generalizing x with
  | zero =>
    cases hc : x.state.notifier c <;> simp [hc, left, Notifier.holds] at hn inside
  | succ n ih =>
    obtain ⟨y, next, less, idle | still⟩ := dispatch_inside h inside
    · rw [idle, hn] at less
      obtain rfl : n = 0 := by simpa [left] using less.symm
      exact ⟨y, .snoc .nil trivial next, idle⟩
    · obtain ⟨z, run, idle⟩ := ih (holds_step h next) still (by omega)
      refine ⟨z, ?_, idle⟩
      rw [List.replicate_succ]
      exact Run.append (.snoc .nil trivial next) run

/-- When a `notify` is about to unlock it has called the subscribers that are registered on
its topic, each once and in the order of the topic's list, to which registering appends; the
list is still the one that it locked. Once it has the lock it waits for nobody. -/
theorem notify_calls_each_once {memory : σ → SubCbInner ι γ} {as : List (Act κ ι σ γ)}
    (run : Run step Free (start memory) as x) :
    (x.state.notifier c = .unlock τ →
      (x.history c).listed = x.state.callbacks τ ∧
      (x.history c).called = ctxs x.state (x.history c).listed ∧
      (x.history c).listed.Nodup ∧
      ∀ h, h ∈ (x.history c).listed ↔
        (x.state.cb h).topic = τ ∧ x.state.registered h = true) ∧
    ((x.state.notifier c).holds = some τ → ∃ y : Logged κ ι σ γ,
      Run step Free x (List.replicate (left x.state (x.state.notifier c)) (.dispatch c)) y ∧
        y.state.notifier c = .idle) := by
  have holds := holds_run run
  refine ⟨fun done => ?_, fun inside => ?_⟩
  · have told := holds.told c
    rw [done] at told
    obtain ⟨listed, called⟩ := told
    refine ⟨listed, called, ?_, fun h => ?_⟩
    · rw [listed]
      exact holds.inv.nodup τ
    · rw [listed]
      exact holds.inv.listed τ h
  · exact run_inside holds inside rfl

def subscribe (h ctx : Nat) : List (Act Unit Unit Nat Nat) :=
  .new h () ctx :: .advance h :: .begin h .register :: List.replicate 7 (.advance h)

/-- Two of them, and a `notify` up to its unlock. -/
def two : List (Act Unit Unit Nat Nat) :=
  subscribe 7 40 ++ subscribe 8 50 ++ .notify () () :: List.replicate 6 (.dispatch ())

theorem notify_calls_both : ∃ x y : Logged Unit Unit Nat Nat,
    (x.history ()).called = [40, 50] ∧ (x.history ()).listed.Nodup ∧
      Run step Free x [.dispatch ()] y ∧ y.state.notifier () = .idle := by
  have run : Run step Free (start fun _ => ⟨(), 0, false, false, 0⟩ : Logged Unit Unit Nat Nat)
    two _ := run_of_exec rfl
  obtain ⟨done, inside⟩ := notify_calls_each_once (c := ()) (τ := ()) run
  obtain ⟨_, called, nodup, _⟩ := done rfl
  obtain ⟨y, rest, idle⟩ := inside rfl
  exact ⟨_, y, called, nodup, rest, idle⟩

end Px4Rs.FanOut
