import Px4Rs.CatchUp

/-! One publisher that yields after every message. The queue then runs every watcher before the
publisher's next message, so that none is missed. -/
namespace Px4Rs.PubSub
open Px4Rs.Runs Px4Rs.Broker Px4Rs.Executor Function
variable {π τ : Type*} [DecidableEq π] [DecidableEq τ] {T : Topics π τ}
  {role : Nat → Role τ} {react : Nat → List Bytes → List (Sample T)} {d d' : Data T}
  {i k p : Nat} {t : τ} {w : List Nat} {P Q W : List Bytes → List Bytes → Prop}

def Ahead (i p : Nat) (l : List Nat) : Prop := ∃ a b, l = a ++ b ∧ i ∈ a ∧ p ∉ a

theorem Ahead.append {l : List Nat} (h : Ahead i p l) (more : List Nat) :
    Ahead i p (l ++ more) := by
  obtain ⟨a, b, rfl, hi, hp⟩ := h
  exact ⟨a, b ++ more, List.append_assoc .., hi, hp⟩

theorem Ahead.tail {l : List Nat} (h : Ahead i p (k :: l)) (hk : i ≠ k) : Ahead i p l := by
  obtain ⟨a, b, split, hi, hp⟩ := h
  cases a with
  | nil => cases hi
  | cons x a =>
    obtain ⟨rfl, rfl⟩ := List.cons_eq_cons.mp split
    exact ⟨a, b, rfl, (List.mem_cons.mp hi).resolve_left hk, fun h => hp (by simp [h])⟩

theorem not_ahead_head {l : List Nat} : ¬ Ahead i p (p :: l) := by
  rintro ⟨a, b, split, hi, hp⟩
  cases a with
  | nil => cases hi
  | cons x a =>
    obtain ⟨rfl, _⟩ := List.cons_eq_cons.mp split
    simp at hp

/- Only `p` publishes on the topic, at most one message a batch. -/
structure Alone (role : Nat → Role τ) (react : Nat → List Bytes → List (Sample T)) (p : Nat)
    (t : τ) (batches : Nat → List (List (Sample T))) : Prop where
  publishes : role p = .publisher
  reacts : ∀ i got, ∀ x ∈ react i got, x.topic ≠ t
  others : ∀ i ≠ p, ∀ ms ∈ batches i, ∀ x ∈ ms, x.topic ≠ t
  single : ∀ ms ∈ batches p, (sentOn t ms).length ≤ 1

/- What is left of it, with `all` that is to be published on the topic. -/
structure Script (role : Nat → Role τ) (react : Nat → List Bytes → List (Sample T)) (p : Nat)
    (t : τ) (all : List Bytes) (d : Data T) : Prop where
  alone : Alone role react p t d.batches
  rest : sentOn t d.sent ++ sentOn t (d.batches p).flatten = all
  new : ∀ i, d.left i ≠ 0 → d.cb i = none → d.got i = []

omit [DecidableEq π] in
theorem sentOn_eq_nil {ms : List (Sample T)} (h : ∀ x ∈ ms, x.topic ≠ t) : sentOn t ms = [] := by
  simpa [sentOn] using h

omit [DecidableEq π] in
theorem Alone.mono {batches batches' : Nat → List (List (Sample T))}
    (h : Alone role react p t batches) (sub : ∀ i, batches' i ⊆ batches i) :
    Alone role react p t batches' :=
  ⟨h.publishes, h.reacts, fun i hi ms hms => h.others i hi ms (sub i hms),
    fun ms hms => h.single ms (sub p hms)⟩

omit [DecidableEq π] [DecidableEq τ] in
theorem nextBatch_subset {ms : List (Sample T)} {rest : List (List (Sample T))}
    (next : d.batches k = ms :: rest) (i : Nat) : (d.nextBatch k rest).batches i ⊆ d.batches i := by
  by_cases hi : i = k
  · subst hi
    simp [Data.nextBatch, next]
  · simp [Data.nextBatch, update_of_ne hi]

omit [DecidableEq π] in
theorem Script.congr {all : List Bytes} (h : Script role react p t all d)
    (batches : d'.batches = d.batches) (sent : sentOn t d'.sent = sentOn t d.sent)
    (new : ∀ i, d'.left i ≠ 0 → d'.cb i = none →
      d.left i ≠ 0 ∧ d.cb i = none ∧ d'.got i = d.got i) : Script role react p t all d' := by
  refine ⟨batches ▸ h.alone, ?_, fun i more none => ?_⟩
  · rw [sent, batches]
    exact h.rest
  · obtain ⟨before, unregistered, got⟩ := new i more none
    rw [got]
    exact h.new i before unregistered

theorem Script.move {all : List Bytes} (h : Script role react p t all d) (wired : Wired role d)
    (move : Move role react k d w d') : Script role react p t all d' := by
  cases move with
  | subscribe _ new =>
    refine h.congr (by simp [Data.ensureRegistered, new]) (by simp [Data.ensureRegistered, new])
      fun i more none => ?_
    have hi : i ≠ k := by
      rintro rfl
      simp [Data.ensureRegistered, new] at none
    simpa [Data.ensureRegistered, new, update_of_ne hi] using And.intro more none
  | @take u cb n watches registered _ _ r out =>
    have published := ((wired.update watches registered).deliver k (d.topic u).data n).publishAll
      (react k (d.got k ++ [(d.topic u).data]))
    rw [← out] at published
    have quiet : sentOn t (react k (d.got k ++ [(d.topic u).data])) = [] :=
      sentOn_eq_nil (h.alone.reacts k _)
    refine h.congr published.batches ?_ fun i more none => ?_
    · rw [published.sent, sentOn_append, quiet, List.append_nil]
      rfl
    · rw [published.left] at more
      rw [published.cb] at none
      rw [published.got]
      have hi : i ≠ k := by
        rintro rfl
        simp [Data.deliver, Data.update] at none
      simp only [Data.deliver, Data.update, update_of_ne hi] at more none ⊢
      exact ⟨more, none, trivial⟩
  | park => exact ⟨h.alone, h.rest, h.new⟩
  | finish _ done =>
    refine h.congr rfl rfl fun i more none => ?_
    have hi : i ≠ k := by
      rintro rfl
      exact more done
    exact ⟨more, by simpa [Data.drop, update_of_ne hi] using none, rfl⟩
  | @batch ms rest _ next r out =>
    have published := (wired.nextBatch k rest).publishAll ms
    rw [← out] at published
    refine ⟨?_, ?_, fun i more none => ?_⟩
    · rw [published.batches]
      exact h.alone.mono (nextBatch_subset next)
    · rw [published.sent, published.batches, sentOn_append, ← h.rest]
      by_cases hk : p = k
      · subst hk
        simp [Data.nextBatch, next, sentOn_append]
      · have quiet : sentOn t ms = [] :=
          sentOn_eq_nil (h.alone.others k (Ne.symm hk) ms (by simp [next]))
        simp [quiet, Data.nextBatch, update_of_ne hk]
    · rw [published.left] at more
      rw [published.cb] at none
      rw [published.got]
      exact h.new i more none

theorem Script.seq {all : List Bytes} (h : Script role react p t all d) (wired : Wired role d)
    (hk : k ≠ p) (move : Move role react k d w d') :
    (d'.topic t).seq = (d.topic t).seq := by
  cases move with
  | subscribe _ new => rw [topic_ensureRegistered new]
  | take watches registered _ _ out =>
    rw [out, (((wired.update watches registered).deliver _ _ _).publishAll _).topic t
      (h.alone.reacts k _)]
    rfl
  | park => rfl
  | finish =>
    obtain ⟨cs, same, _⟩ := topic_drop (d := d) t
    rw [same]
  | batch _ next out =>
    rw [out, ((wired.nextBatch _ _).publishAll _).topic t
      (h.alone.others k hk _ (by rw [next]; exact List.mem_cons_self))]
    rfl

theorem Tracks.batch {N : Nat} {ms : List (Sample T)} (tracks : Tracks P Q W N d i t)
    (chain : Chain P Q W) (h : Wired role d) (watches : role i = .watcher t)
    (single : (sentOn t ms).length ≤ 1)
    (skip : d.behind i t → ∀ b m, P (d.got i) b → P (d.got i) (b ++ [m])) :
    Tracks P Q W N (d.publishAll ms).1 i t := by
  induction ms generalizing d with
  | nil => exact tracks
  | cons x ms ih =>
    have wired := (h.publish x).1
    have split : sentOn t (x :: ms) = sentOn t [x] ++ sentOn t ms := sentOn_append [x] ms
    by_cases hx : x.topic = t
    · have one : sentOn t [x] = [x.bytes] := by simp [sentOn, hx]
      have last : ∀ y ∈ ms, y.topic ≠ t := by
        have none : sentOn t ms = [] := by
          rw [split, one, List.length_append, List.length_singleton] at single
          exact List.eq_nil_of_length_eq_zero (by omega)
        simpa [sentOn] using none
      have now := tracks.publish chain h watches hx skip
      have rest : Tracks P Q W N ((d.publish x).1.publishAll ms).1 i t :=
        publishAll_induction (J := fun d => Tracks P Q W N d i t) wired now
          fun d y hy _ tracks => tracks.publish_other (last y hy)
      exact rest
    · have topic : (d.publish x).1.topic t = d.topic t := update_of_ne (Ne.symm hx) _ _
      refine ih (tracks.publish_other hx) wired ?_ fun behind => skip ?_
      · rw [split, List.length_append] at single
        omega
      · rwa [Data.behind, topic] at behind

theorem Tracks.batch_ended {N : Nat} {ms : List (Sample T)} (tracks : Tracks P Q W N d i t)
    (chain : Chain P Q W) (h : Wired role d) (ended : d.left i = 0) :
    Tracks P Q W N (d.publishAll ms).1 i t := by
  have published := h.publishAll ms
  have grow (l : List Bytes) (whole : W (d.got i) (sentOn t d.sent)) :
      W (d.got i) (sentOn t d.sent ++ l) := by
    induction l using List.reverseRecOn with
    | nil => simpa using whole
    | append_singleton l m ih =>
      rw [← List.append_assoc]
      exact chain.grow _ _ m ih
  refine ⟨fun more => ?_, ?_, ?_⟩
  · rw [published.left] at more
    exact absurd ended more
  · rw [published.got, published.sent, sentOn_append]
    exact grow _ tracks.whole
  · rw [published.got, published.left]
    exact tracks.count

section Run
variable {all : List Bytes} {n : Nat → Nat} {S : Nat → Prop} {s s' : Executor.State Nat (Data T)}

variable (role react p t P Q W all n S) in
/- A watcher of `S` for which there is a message runs before the publisher; one that has not
   been polled may join late, or it runs before the publisher as well. -/
structure Hand (s : Executor.State Nat (Data T)) : Prop where
  held : Held (Kept role (Script role react p t all)) (Waiting role) (Ended role) s
  tracks : ∀ i, S i → Tracks P Q W (n i) s.data i t
  behind : ∀ i, S i → s.data.left i ≠ 0 → s.data.cb i ≠ none → s.data.behind i t →
    Ahead i p s.fifo
  new : ∀ i, S i → s.data.left i ≠ 0 → s.data.cb i = none →
    (∀ b m, P [] b → P [] (b ++ [m])) ∨ (s.accepted p ≠ 0 → Ahead i p s.fifo)

theorem script_keeps : Keeps (poll role react) (Kept role (Script role react p t all))
    (Waiting role) (Ended role) :=
  poll_keeps fun _ _ _ _ wired h move => h.move wired move

omit [DecidableEq π] in
/-- Between two Runs a registered watcher that awaits a message is up to date. -/
theorem not_behind {J : Data T → Prop} {ps : List Nat} (h : Kept role J d ps)
    (watches : role i = .watcher t) (waits : Waiting role i d) :
    d.cb i ≠ none ∧ ¬ d.behind i t := by
  obtain ⟨_, _, slot, _⟩ := waits
  obtain ⟨_, u, watching, registered, current⟩ := h.wired.slot i i slot
  rw [watches] at watching
  cases watching
  exact ⟨registered, current⟩

omit [DecidableEq π] in
theorem Hand.spawn (h : Hand role react p t P Q W all n S s)
    (watch : ∀ i, S i → role i = .watcher t)
    (guard : k = p → ∀ i, S i → (∀ b m, P [] b → P [] (b ++ [m])) ∨ s.accepted i ≠ 0) :
    Hand role react p t P Q W all n S (s.spawn k) := by
  have held := h.held.spawn k
  unfold State.spawn at held ⊢
  split
  · rename_i free
    rw [if_pos free] at held
    refine ⟨held, h.tracks, fun i hi more registered behind => ?_, fun i hi more new => ?_⟩
    · exact (h.behind i hi more registered behind).append [k]
    · by_cases hk : p = k
      · obtain late | accepted := guard hk.symm i hi
        · exact .inl late
        · -- the watcher is in the queue, and the publisher is not
          have queued : i ∈ s.fifo := by
            refine h.held.mem_fifo accepted (fun ended => more ?_) fun waits => ?_
            · simpa [Ended, watch i hi] using ended
            · exact (not_behind h.held.data (watch i hi) waits).1 new
          have absent : p ∉ s.fifo := by
            have none := h.held.queued p
            rw [hk, free] at none
            exact List.count_eq_zero.mp (hk ▸ none)
          exact .inr fun _ => ⟨s.fifo, [k], rfl, queued, absent⟩
      · obtain late | ahead := h.new i hi more new
        · exact .inl late
        · refine .inr fun accepted => (ahead ?_).append [k]
          simpa [update_of_ne hk] using accepted
  · exact h

theorem Hand.run_other (h : Hand role react p t P Q W all n S s) (chain : Chain P Q W)
    (watch : ∀ i, S i → role i = .watcher t) (hk : k ≠ p)
    (ran : Ran s k (poll role react k s.data) s')
    (held : Held (Kept role (Script role react p t all)) (Waiting role) (Ended role) s') :
    Hand role react p t P Q W all n S s' := by
  have wired := h.held.data.wired
  have script := h.held.data.more
  obtain ⟨w, moves, outcome, _⟩ := poll_moves react wired k
  have frame := moves.frame wired
  have seq : ((poll role react k s.data).data.topic t).seq = (s.data.topic t).seq := by
    have both := moves.invariant (J := fun d => Script role react p t all d ∧
      (d.topic t).seq = (s.data.topic t).seq) wired ⟨script, rfl⟩
      fun d w d' hd both move => ⟨both.1.move hd move, (both.1.seq hd hk move).trans both.2⟩
    exact both.2
  obtain ⟨rest, first, fifo⟩ := ran.fifo
  obtain ⟨more, _, appended⟩ := fifo_wakes (s.enter k rest (poll role react k s.data).data)
    (poll role react k s.data).woken
  have queue : s'.fifo = rest ++ more := fifo.trans appended
  have after {i : Nat} (hi : i ≠ k) (ahead : Ahead i p s.fifo) : Ahead i p s'.fifo := by
    rw [queue]
    rw [first] at ahead
    exact (ahead.tail hi).append more
  -- the task itself is parked or has ended
  have own (hS : S k) (left : s'.data.left k ≠ 0) :
      s'.data.cb k ≠ none ∧ ¬ s'.data.behind k t := by
    have watches := watch k hS
    refine not_behind held.data watches ?_
    rw [ran.data] at left ⊢
    generalize poll role react k s.data = x at outcome left
    cases outcome with
    | ended publishes | yielded publishes =>
      rw [watches] at publishes
      cases publishes
    | finished _ done => exact absurd done left
    | parked watching more slot => exact ⟨_, watching, slot, more⟩
  refine ⟨held, fun i hi => ?_, fun i hi left registered behind => ?_, fun i hi left new => ?_⟩
  · rw [ran.data]
    have both := moves.invariant (J := fun d => Script role react p t all d ∧
      Tracks P Q W (n i) d i t) wired ⟨script, h.tracks i hi⟩
      fun d w d' hd both move => ⟨both.1.move hd move,
        move.tracks hd chain (watch i hi) both.2 (fun x => x.topic ≠ t) (both.1.alone.reacts k)
          (fun ms rest next => both.1.alone.others k hk ms (by simp [next]))
          fun d x hx _ tracks => tracks.publish_other hx⟩
    exact both.2
  · by_cases hik : i = k
    · subst hik
      exact absurd behind (own hi left).2
    · rw [ran.data] at left registered behind
      rw [frame.left i hik] at left
      rw [frame.cb i hik] at registered
      rw [Data.behind, Data.lastSeen, frame.cb i hik, seq] at behind
      exact after hik (h.behind i hi left registered behind)
  · by_cases hik : i = k
    · subst hik
      exact absurd new (own hi left).1
    · rw [ran.data] at left new
      rw [frame.left i hik] at left
      rw [frame.cb i hik] at new
      obtain late | ahead := h.new i hi left new
      · exact .inl late
      · exact .inr fun accepted => after hik (ahead (ran.accepted ▸ accepted))

/-- A Run of the publisher: every watcher has had its turn since the last one, and has another
before the next. -/
theorem Hand.run_publisher (h : Hand role react p t P Q W all n S s) (chain : Chain P Q W)
    (watch : ∀ i, S i → role i = .watcher t) (ran : Ran s p (poll role react p s.data) s')
    (held : Held (Kept role (Script role react p t all)) (Waiting role) (Ended role) s') :
    Hand role react p t P Q W all n S s' := by
  have wired := h.held.data.wired
  have script := h.held.data.more
  have publishes := script.alone.publishes
  obtain ⟨rest, first, fifo⟩ := ran.fifo
  have none_ahead (i : Nat) : ¬ Ahead i p s.fifo := by
    rw [first]
    exact not_ahead_head
  have accepted : s.accepted p ≠ 0 :=
    ran.accepted ▸ held.started p (.inl (by simp [ran.polls]))
  have up_to_date (i : Nat) (hi : S i) (left : s.data.left i ≠ 0) (late : s.data.behind i t) :
      s.data.cb i = none ∧ ∀ b m, P [] b → P [] (b ++ [m]) := by
    have new : s.data.cb i = none := by
      by_contra registered
      exact none_ahead i (h.behind i hi left registered late)
    exact ⟨new, (h.new i hi left new).resolve_right fun ahead => none_ahead i (ahead accepted)⟩
  cases batches : s.data.batches p with
  | nil =>
    have data : s'.data = s.data := by rw [ran.data, poll_done publishes batches]
    refine ⟨held, ?_, fun i hi left registered late => ?_, fun i hi left new => ?_⟩
    · rw [data]
      exact h.tracks
    · rw [data] at left registered late
      exact absurd (up_to_date i hi left late).1 registered
    · rw [data] at left new
      exact .inl ((h.new i hi left new).resolve_right fun ahead => none_ahead i (ahead accepted))
  | cons ms more =>
    have next := wired.nextBatch p more
    have published := next.publishAll ms
    have polled : poll role react p s.data = _ := poll_batch publishes batches
    have data : s'.data = ((s.data.nextBatch p more).publishAll ms).1 := by
      rw [ran.data, polled]
    have left' : s'.data.left = s.data.left := by
      rw [data, published.left]
      rfl
    have cb' : s'.data.cb = s.data.cb := by
      rw [data, published.cb]
      rfl
    refine ⟨held, fun i hi => ?_, fun i hi left registered late => ?_, fun i hi left new => ?_⟩
    · rw [data]
      have tracks : Tracks P Q W (n i) (s.data.nextBatch p more) i t :=
        (h.tracks i hi).congr (fun _ => rfl) rfl rfl rfl rfl
      by_cases left : s.data.left i = 0
      · refine tracks.batch_ended chain next ?_
        exact left
      · refine tracks.batch chain next (watch i hi) (script.alone.single ms ?_) fun late b m => ?_
        · rw [batches]
          exact List.mem_cons_self
        · obtain ⟨new, joins⟩ := up_to_date i hi left late
          rw [show (s.data.nextBatch p more).got i = [] from script.new i left new]
          exact joins b m
    · -- woken by this batch, or queued already: in both cases before the publisher itself
      have watches := watch i hi
      have queued : i ∈ s'.fifo := by
        refine held.mem_fifo (held.started i (.inl (held.data.polled i registered)))
          (fun ended => left ?_) fun waits => (not_behind held.data watches waits).2 late
        simpa [Ended, watches] using ended
      have hip : i ≠ p := by
        rintro rfl
        rw [watches] at publishes
        cases publishes
      obtain ⟨woken, sub, appended⟩ := fifo_wakes
        (s.enter p rest (poll role react p s.data).data)
        ((s.data.nextBatch p more).publishAll ms).2
      have absent : p ∉ rest ++ woken := by
        have once := h.held.queued p
        rw [first, List.count_cons_self] at once
        have not_rest : p ∉ rest := by
          refine List.count_eq_zero.mp ?_
          split at once <;> omega
        have not_woken : p ∉ woken := fun mem => by
          obtain ⟨_, x, _, watching⟩ := published.woken p (sub mem)
          rw [publishes] at watching
          cases watching
        simp [not_rest, not_woken]
      rw [polled, List.foldl_append] at fifo
      rw [polled] at appended
      simp only [List.foldl_cons, List.foldl_nil, State.wake, appended] at fifo
      rw [fifo] at queued ⊢
      split
      · refine ⟨rest ++ woken, [p], rfl, ?_, absent⟩
        rename_i asleep
        rw [if_pos asleep] at queued
        simpa [hip] using queued
      · refine ⟨rest ++ woken, [], (List.append_nil _).symm, ?_, absent⟩
        rename_i awake
        rw [if_neg awake] at queued
        exact queued
    · rw [left'] at left
      rw [cb'] at new
      exact .inl ((h.new i hi left new).resolve_right fun ahead => none_ahead i (ahead accepted))

variable {batches : Nat → List (List (Sample T))} {early : List Nat} {as : List (Act Nat)}

/-- These tasks are spawned before the publisher is. -/
def First {σ : Type*} (p : Nat) (early : List Nat) (s : Executor.State Nat σ) : Act Nat → Prop
  | .spawn k => k = p → ∀ i ∈ early, s.accepted i ≠ 0
  | .run => True

instance {σ : Type*} (p : Nat) (early : List Nat) (s : Executor.State Nat σ) (a : Act Nat) :
    Decidable (First p early s a) :=
  match a with
  | .spawn k => inferInstanceAs (Decidable (k = p → ∀ i ∈ early, s.accepted i ≠ 0))
  | .run => inferInstanceAs (Decidable True)

omit [DecidableEq π] in
theorem hand_start (alone : Alone role react p t batches) (none : Q [] []) (whole : W [] []) :
    Hand role react p t P Q W (sentOn t (batches p).flatten) n S (init (start batches n)) where
  held := held_init ⟨wired_start batches n, by simp [start], ⟨alone, rfl, fun _ _ _ => rfl⟩⟩
  tracks i _ := by
    refine ⟨fun _ => ⟨fun behind => ?_, fun _ => none⟩, whole, Nat.zero_add _⟩
    simp [Data.behind, Data.lastSeen, start, init, Topic.new] at behind
  behind i _ _ registered := absurd rfl registered
  new i _ _ _ := .inr fun accepted => absurd rfl accepted

theorem hand_run (alone : Alone role react p t batches) (chain : Chain P Q W) (none : Q [] [])
    (watch : ∀ i, S i → role i = .watcher t)
    (join : (∀ b m, P [] b → P [] (b ++ [m])) ∨ ∀ i, S i → i ∈ early)
    (run : Run (step (poll role react)) (First p early) (init (start batches n)) as s) :
    Hand role react p t P Q W (sentOn t (batches p).flatten) n S s := by
  refine run.invariant (hand_start alone none (chain.weak _ _ none)) fun s a s' h guard next => ?_
  cases a with
  | spawn k =>
    cases next
    refine h.spawn watch fun hk i hi => ?_
    obtain late | member := join
    · exact .inl late
    · exact .inr (guard hk i (member i hi))
  | run =>
    obtain ⟨k, ran, held⟩ := h.held.run script_keeps next
    by_cases hk : k = p
    · subst hk
      exact h.run_publisher chain watch ran held
    · exact h.run_other chain watch hk ran held

theorem chain_suffix : Chain (fun a b : List Bytes => a <:+ b) (fun a b => a <:+ b)
    (fun a b => a <:+: b) where
  take _ _ m h := by
    obtain ⟨front, rfl⟩ := h
    exact ⟨front, (List.append_assoc ..).symm⟩
  fall _ _ h := h
  weak _ _ h := h.isInfix
  grow _ _ m h := h.trans (List.prefix_append _ [m]).isInfix

theorem chain_eq : Chain (fun a b : List Bytes => a = b) (fun a b => a = b)
    (fun a b => a <+: b) where
  take _ _ _ h := h ▸ rfl
  fall _ _ h := h
  weak _ _ h := h ▸ List.prefix_refl _
  grow _ _ m h := h.trans (List.prefix_append _ [m])

/-- Where one publisher has the topic and yields after every message on it, `yield_now`
reliably hands control to the watchers: from its first message to its last a watcher misses
none, at every moment of every run. A watcher that is spawned before the publisher misses none
at all, and when the queue is empty it has as many of the publisher's messages as it asked
for and as there are. -/
theorem yield_hands_over (alone : Alone role react p t batches)
    (watch : ∀ i ∈ early, role i = .watcher t)
    (run : Run (step (poll role react)) (First p early) (init (start batches n)) as s) :
    (∀ i, role i = .watcher t → s.data.got i <:+: sentOn t s.data.sent) ∧
    ∀ i ∈ early, s.data.got i <+: sentOn t s.data.sent ∧
      (s.accepted i ≠ 0 → s.accepted p ≠ 0 → s.fifo = [] →
        s.data.got i = (sentOn t (batches p).flatten).take (n i)) := by
  have any := hand_run (S := fun i => role i = .watcher t) alone chain_suffix
    (List.suffix_refl _) (fun _ hi => hi) (.inl fun b m _ => List.nil_suffix) run
  have first := hand_run (S := fun i => i ∈ early) alone chain_eq rfl watch (.inr fun _ h => h) run
  refine ⟨fun i hi => (any.tracks i hi).whole, fun i hi => ⟨(first.tracks i hi).whole, ?_⟩⟩
  intro accepted started quiet
  have watches := watch i hi
  have tracks := first.tracks i hi
  have script := first.held.data.more
  have count := tracks.count
  have done : s.data.batches p = [] := by
    obtain ended | ⟨_, watching, _⟩ := rest_or_ended first.held started quiet
    · simpa only [Ended, alone.publishes] using ended
    · rw [alone.publishes] at watching
      cases watching
  have sent : sentOn t s.data.sent = sentOn t (batches p).flatten := by
    simpa [done] using script.rest
  obtain ended | waits := rest_or_ended first.held accepted quiet
  · simp only [Ended, watches] at ended
    have part := tracks.whole
    rw [sent] at part
    rw [List.prefix_iff_eq_take.mp part]
    congr 1
    omega
  · obtain ⟨_, current⟩ := not_behind first.held.data watches waits
    obtain ⟨_, _, _, more⟩ := waits
    rw [(tracks.follows more).current current] at count ⊢
    rw [sent] at count ⊢
    rw [List.take_of_length_le (by omega)]

/-- One topic, one publisher of three messages, and two watchers. -/
def gyro : Topics Unit Unit := ⟨fun _ => 1, id⟩

def gyroRole (i : Nat) : Role Unit := if i = 0 then .publisher else .watcher ()

def gyroScript (i : Nat) : List (List (Sample gyro)) :=
  if i = 0 then [[⟨(), [1], rfl⟩], [⟨(), [2], rfl⟩], [⟨(), [3], rfl⟩]] else []

/-- The second watcher comes after the first message. -/
def gyroRun : List (Act Nat) :=
  [.spawn 1, .spawn 0, .run, .run, .spawn 2] ++ List.replicate 8 .run

theorem gyro_round_trip : ∃ s : Executor.State Nat (Data gyro),
    s.data.got 1 = [[1], [2], [3]] ∧ s.data.got 2 = [[2], [3]] ∧
      s.data.got 2 <:+: sentOn () s.data.sent ∧ s.fifo = [] := by
  obtain ⟨s, run, hs⟩ := exists_run (step (poll gyroRole fun _ _ => [])) (First 0 [1])
    (init (start gyroScript fun i => if i = 1 then 3 else 5)) gyroRun
    (fun s => s.data.got 2 = [[2], [3]] ∧ s.accepted 1 ≠ 0 ∧ s.accepted 0 ≠ 0 ∧ s.fifo = []) rfl
  simp only [decide_eq_true_eq] at hs
  obtain ⟨second, accepted, started, quiet⟩ := hs
  have alone : Alone gyroRole (fun _ _ => []) 0 () gyroScript :=
    ⟨rfl, by simp, fun i hi => by simp [gyroScript, hi], by decide⟩
  have watch : ∀ i ∈ [1], gyroRole i = .watcher () := by decide
  obtain ⟨parts, whole⟩ := yield_hands_over alone watch run
  exact ⟨s, (whole 1 (by simp)).2 accepted started quiet, second, parts 2 rfl, quiet⟩

end Run

end Px4Rs.PubSub
