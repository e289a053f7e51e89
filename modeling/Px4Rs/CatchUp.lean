import Mathlib.Algebra.Order.BigOperators.Group.Finset
import Px4Rs.PubSubMoves

/-! What a watcher has received of its topic. It may be late for some messages, but it is not
left behind: once the queue is empty it has the last one. -/
namespace Px4Rs.PubSub
open Px4Rs.Runs Px4Rs.Broker Px4Rs.Executor Function
variable {π τ : Type*} [DecidableEq π] [DecidableEq τ] {T : Topics π τ}
  {role : Nat → Role τ} {react : Nat → List Bytes → List (Sample T)} {d d' : Data T}
  {i k N : Nat} {t : τ} {w : List Nat} {P Q W : List Bytes → List Bytes → Prop}

/- How the messages received relate to those published: `P` to those before the last while
   that one is still to be received, and `Q` to all of them when it is not. -/
structure Follows (P Q : List Bytes → List Bytes → Prop) (d : Data T) (i : Nat) (t : τ) :
    Prop where
  behind : d.behind i t → ∃ before m, sentOn t d.sent = before ++ [m] ∧ P (d.got i) before
  current : ¬ d.behind i t → Q (d.got i) (sentOn t d.sent)

/- The same for as long as the task runs, and `W` for ever; `N` is what it asks for. -/
structure Tracks (P Q W : List Bytes → List Bytes → Prop) (N : Nat) (d : Data T) (i : Nat)
    (t : τ) : Prop where
  follows : d.left i ≠ 0 → Follows P Q d i t
  whole : W (d.got i) (sentOn t d.sent)
  count : (d.got i).length + d.left i = N

/-- What a receive and a publish ask of the three. -/
structure Chain (P Q W : List Bytes → List Bytes → Prop) : Prop where
  take : ∀ a b m, P a b → Q (a ++ [m]) (b ++ [m])
  fall : ∀ a b, Q a b → P a b
  weak : ∀ a b, Q a b → W a b
  grow : ∀ a b m, W a b → W a (b ++ [m])

omit [DecidableEq π] in
theorem Tracks.congr (tracks : Tracks P Q W N d i t)
    (seen : d'.left i ≠ 0 → d'.lastSeen i = d.lastSeen i) (seq : (d'.topic t).seq = (d.topic t).seq)
    (left : d'.left i = d.left i) (got : d'.got i = d.got i) (sent : d'.sent = d.sent) :
    Tracks P Q W N d' i t := by
  refine ⟨fun live => ?_, ?_, ?_⟩
  · have follows := tracks.follows (left ▸ live)
    refine ⟨fun behind => ?_, fun current => ?_⟩
    · rw [Data.behind, seen live, seq] at behind
      rw [sent, got]
      exact follows.behind behind
    · rw [Data.behind, seen live, seq] at current
      rw [sent, got]
      exact follows.current current
  · rw [got, sent]
    exact tracks.whole
  · rw [got, left]
    exact tracks.count

theorem Tracks.publish_other (tracks : Tracks P Q W N d i t) {x : Sample T} (hx : x.topic ≠ t) :
    Tracks P Q W N (d.publish x).1 i t := by
  have topic : (d.publish x).1.topic t = d.topic t := update_of_ne (Ne.symm hx) _ _
  have sent : sentOn t (d.publish x).1.sent = sentOn t d.sent := sentOn_snoc_of_ne hx
  refine ⟨fun live => ?_, ?_, tracks.count⟩
  · have follows := tracks.follows live
    refine ⟨fun behind => ?_, fun current => ?_⟩
    · rw [Data.behind, topic] at behind
      rw [sent]
      exact follows.behind behind
    · rw [Data.behind, topic] at current
      rw [sent]
      exact follows.current current
  · rw [sent]
    exact tracks.whole

theorem Tracks.publish (tracks : Tracks P Q W N d i t) (chain : Chain P Q W) (h : Wired role d)
    (watches : role i = .watcher t) {x : Sample T} (hx : x.topic = t)
    (skip : d.behind i t → ∀ b m, P (d.got i) b → P (d.got i) (b ++ [m])) :
    Tracks P Q W N (d.publish x).1 i t := by
  subst hx
  obtain ⟨_, _, _, later⟩ := h.publish x
  have sent : sentOn x.topic (d.publish x).1.sent = sentOn x.topic d.sent ++ [x.bytes] :=
    sentOn_snoc_of_eq rfl
  have seen := h.seen i _ watches
  refine ⟨fun live => ⟨fun _ => ?_, fun current => absurd ?_ current⟩, ?_, tracks.count⟩
  · have follows := tracks.follows live
    refine ⟨_, _, sent, ?_⟩
    by_cases behind : d.behind i x.topic
    · obtain ⟨b, m, all, before⟩ := follows.behind behind
      rw [all]
      exact skip behind b m before
    · exact chain.fall _ _ (follows.current behind)
  · exact Nat.lt_of_le_of_lt seen later
  · rw [sent]
    exact chain.grow _ _ _ tracks.whole

omit [DecidableEq π] in
/-- The receive itself: the message is the last one published. -/
theorem Tracks.take {cb : SubCb} {n : Nat} (tracks : Tracks P Q W N d i t) (chain : Chain P Q W)
    (h : Wired role d) (registered : d.cb i = some cb) (behind : cb.lastSeen < (d.topic t).seq)
    (more : d.left i = n + 1) :
    Tracks P Q W N ((d.update i t cb).deliver i (d.topic t).data n) i t := by
  have follows := tracks.follows (by omega)
  obtain ⟨b, m, all, before⟩ := follows.behind (by rwa [Data.behind, lastSeen_of_cb registered])
  obtain ⟨b', all'⟩ := h.last t (Nat.zero_lt_of_lt behind)
  rw [all] at all'
  obtain ⟨rfl, rfl⟩ := List.append_singleton_inj.mp all'
  have got : ((d.update i t cb).deliver i (d.topic t).data n).got i =
      d.got i ++ [(d.topic t).data] := by
    simp [Data.deliver, Data.update]
  have now : Q (((d.update i t cb).deliver i (d.topic t).data n).got i)
      (sentOn t ((d.update i t cb).deliver i (d.topic t).data n).sent) := by
    rw [got]
    change Q _ (sentOn t d.sent)
    rw [all]
    exact chain.take _ _ _ before
  refine ⟨fun _ => ⟨fun late => ?_, fun _ => now⟩, chain.weak _ _ now, ?_⟩
  · have caught : (d.update i t cb).lastSeen i = (d.topic t).seq := by
      rw [lastSeen_update, if_pos rfl]
    change (d.update i t cb).lastSeen i < (d.topic t).seq at late
    omega
  · have count := tracks.count
    rw [got, List.length_append, List.length_singleton]
    simp only [Data.deliver, update_self]
    omega

theorem Move.tracks (move : Move role react k d w d') (h : Wired role d) (chain : Chain P Q W)
    (watches : role i = .watcher t) (tracks : Tracks P Q W N d i t) (ok : Sample T → Prop)
    (reacts : ∀ l, ∀ x ∈ react k l, ok x)
    (batch : ∀ ms rest, d.batches k = ms :: rest → ∀ x ∈ ms, ok x)
    (publish : ∀ (d : Data T) x, ok x → Wired role d → Tracks P Q W N d i t →
      Tracks P Q W N (d.publish x).1 i t) : Tracks P Q W N d' i t := by
  cases move with
  | @subscribe u _ new more =>
    have topic := topic_ensureRegistered (t := u) new t
    refine tracks.congr (fun _ => lastSeen_ensureRegistered new) (by rw [topic]) ?_ ?_ ?_
    all_goals simp [Data.ensureRegistered, new]
  | @take u cb n watching registered behind more r out =>
    have wired := (h.update watching registered).deliver k (d.topic u).data n
    rw [out]
    refine publishAll_induction wired ?_ fun d x hx hd hs => publish d x (reacts _ x hx) hd hs
    by_cases hi : i = k
    · subst hi
      rw [watching] at watches
      cases watches
      exact tracks.take chain h registered behind more
    · exact tracks.congr (fun _ => lastSeen_update.trans (if_neg hi)) rfl (update_of_ne hi _ _)
        (update_of_ne hi _ _) rfl
  | park => exact tracks.congr (fun _ => rfl) rfl rfl rfl rfl
  | @finish u _ done =>
    obtain ⟨cs, same, _⟩ := topic_drop (d := d) (i := k) (t := u) t
    refine tracks.congr (fun live => ?_) (by rw [same]) rfl rfl rfl
    have hi : i ≠ k := by
      rintro rfl
      exact live done
    simp [Data.lastSeen, Data.drop, update_of_ne hi]
  | @batch ms rest _ next r out =>
    rw [out]
    refine publishAll_induction (h.nextBatch k rest) ?_ fun d x hx hd hs =>
      publish d x (batch ms rest next x hx) hd hs
    exact tracks.congr (fun _ => rfl) rfl rfl rfl rfl

/-! The tasks on the executor. -/

variable (role) in
/-- The task awaits a message, with its waker where the broker's callback finds it. -/
def Waiting (i : Nat) (d : Data T) : Prop :=
  ∃ t, role i = .watcher t ∧ (d.waker i).waker = some i ∧ d.left i ≠ 0

variable (role) in
def Ended (i : Nat) (d : Data T) : Prop :=
  match role i with
  | .publisher => d.batches i = []
  | .watcher _ => d.left i = 0

omit [DecidableEq π] [DecidableEq τ] in
theorem Ended.congr (h : Ended role i d) (left : d'.left i = d.left i)
    (batches : d'.batches i = d.batches i) : Ended role i d' := by
  unfold Ended at h ⊢
  rwa [left, batches]

variable (role) in
/-- What holds between two Runs, with `J` kept by every move. -/
structure Kept (J : Data T → Prop) (d : Data T) (ps : List Nat) : Prop where
  wired : Wired role d
  polled : ∀ i, d.cb i ≠ none → i ∈ ps
  more : J d

theorem poll_keeps {J : Data T → Prop}
    (keep : ∀ k d w d', Wired role d → J d → Move role react k d w d' → J d') :
    Keeps (poll role react) (Kept role J) (Waiting role) (Ended role) where
  data d ps i h := by
    obtain ⟨w, moves, _⟩ := poll_moves react h.wired i
    refine ⟨moves.wired h.wired, fun j hj => ?_, moves.invariant h.wired h.more (keep i)⟩
    by_cases hji : j = i
    · simp [hji]
    · rw [(moves.frame h.wired).cb j hji] at hj
      exact List.mem_append_left _ (h.polled j hj)
  given d ps i h j hj := by
    obtain ⟨w, moves, outcome, _⟩ := poll_moves react h.wired i
    have woken (hw : j ∈ w) : j = i ∨ j ∈ ps := by
      obtain ⟨_, slot⟩ := (moves.frame h.wired).woken j hw
      obtain ⟨_, _, _, registered, _⟩ := h.wired.slot j j slot
      exact .inr (h.polled j registered)
    generalize poll role react i d = p at outcome hj
    cases outcome with
    | ended | finished | parked => exact woken hj
    | yielded =>
      obtain hw | hw := List.mem_append.mp hj
      · exact woken hw
      · exact .inl (List.mem_singleton.mp hw)
  ends d ps i h ready := by
    obtain ⟨w, moves, outcome, _⟩ := poll_moves react h.wired i
    have frame := moves.frame h.wired
    generalize poll role react i d = p at outcome ready frame
    cases outcome with
    | ended publishes done =>
      exact ⟨fun hi => (frame.woken i hi).1 rfl, by simpa [Ended, publishes] using done⟩
    | finished watches done =>
      exact ⟨fun hi => (frame.woken i hi).1 rfl, by simpa [Ended, watches] using done⟩
    | yielded | parked => cases ready
  sleeps d ps i h pending quiet := by
    obtain ⟨w, moves, outcome, _⟩ := poll_moves react h.wired i
    generalize poll role react i d = p at outcome pending quiet
    cases outcome with
    | ended | finished => cases pending
    | yielded => simp at quiet
    | parked watches more slot => exact ⟨_, watches, slot, more⟩
  rest d ps i j h hji quiet waits := by
    obtain ⟨w, moves, outcome, _⟩ := poll_moves react h.wired i
    have frame := moves.frame h.wired
    have unwoken : j ∉ w := by
      generalize poll role react i d = p at outcome quiet
      cases outcome with
      | ended | finished | parked => exact quiet
      | yielded => exact fun hw => quiet (List.mem_append_left _ hw)
    obtain ⟨t, watches, slot, more⟩ := waits
    refine ⟨t, watches, ?_, ?_⟩
    · rw [frame.slot j hji, if_neg unwoken, slot]
    · rwa [frame.left j hji]
  done d ps i j h hji ended := by
    obtain ⟨w, moves, _⟩ := poll_moves react h.wired i
    have frame := moves.frame h.wired
    exact ended.congr (frame.left j hji) (frame.batches j hji)

theorem Move.idle {tasks : Finset Nat} (move : Move role react k d w d') (h : Wired role d)
    (idle : ∀ i ∉ tasks, d.work i = 0) : ∀ i ∉ tasks, d'.work i = 0 := by
  intro i hi
  have frame := move.frame h
  have before := idle i hi
  by_cases hik : i = k
  · subst hik
    have := frame.work.1
    omega
  · rwa [Data.work, frame.left i hik, frame.batches i hik]

/-- What the tasks still have to do gets less with every poll that wakes somebody. -/
theorem work_poll {tasks : Finset Nat} (h : Wired role d) (idle : ∀ i ∉ tasks, d.work i = 0)
    (i : Nat) : ∑ j ∈ tasks, (poll role react i d).data.work j ≤ ∑ j ∈ tasks, d.work j ∧
      ((poll role react i d).woken ≠ [] →
        ∑ j ∈ tasks, (poll role react i d).data.work j < ∑ j ∈ tasks, d.work j) := by
  obtain ⟨w, moves, _, less⟩ := poll_moves react h i
  have frame := moves.frame h
  have each (j : Nat) (_ : j ∈ tasks) : (poll role react i d).data.work j ≤ d.work j := by
    by_cases hj : j = i
    · exact hj ▸ frame.work.1
    · rw [Data.work, frame.left j hj, frame.batches j hj]
      exact le_rfl
  refine ⟨Finset.sum_le_sum each, fun some_woken => ?_⟩
  have own := less some_woken
  have hi : i ∈ tasks := by
    by_contra hi
    have := idle i hi
    omega
  exact Finset.sum_lt_sum each ⟨i, hi, own⟩

theorem chain_sublist : Chain List.Sublist
    (fun a b : List Bytes => a.Sublist b ∧ a.getLast? = b.getLast?) List.Sublist where
  take a b m h := ⟨h.append_right [m], by simp⟩
  fall _ _ h := h.1
  weak _ _ h := h.1
  grow _ _ m h := h.trans (List.sublist_append_left _ [m])

section Run
variable {tasks : Finset Nat} {batches : Nat → List (List (Sample T))} {n : Nat → Nat}
  {as : List (Act Nat)} {s : Executor.State Nat (Data T)}

variable (role tasks n) in
/-- What every move keeps for every watcher. -/
def Caught (d : Data T) : Prop :=
  (∀ i t, role i = .watcher t → Tracks List.Sublist
    (fun a b => a.Sublist b ∧ a.getLast? = b.getLast?) List.Sublist (n i) d i t) ∧
  ∀ i ∉ tasks, d.work i = 0

theorem caught_move (h : Wired role d) (caught : Caught role tasks n d)
    (move : Move role react k d w d') : Caught role tasks n d' := by
  refine ⟨fun i t watches => ?_, move.idle h caught.2⟩
  refine move.tracks h chain_sublist watches (caught.1 i t watches) (fun _ => True)
    (fun _ _ _ => trivial) (fun _ _ _ _ _ => trivial) fun d x _ hd tracks => ?_
  by_cases hx : x.topic = t
  · exact tracks.publish chain_sublist hd watches hx
      fun _ b m before => before.trans (List.sublist_append_left b [m])
  · exact tracks.publish_other hx

omit [DecidableEq π] in
theorem caught_start (finite : ∀ i ∉ tasks, batches i = [] ∧ n i = 0) :
    Caught role tasks n (start batches n) := by
  refine ⟨fun i t _ => ⟨fun _ => ⟨fun behind => ?_, fun _ => ?_⟩, ?_, ?_⟩, fun i hi => ?_⟩
  · simp [Data.behind, Data.lastSeen, start, Topic.new] at behind
  · simp [start]
  · simp [start]
  · simp [start]
  · obtain ⟨none_left, zero⟩ := finite i hi
    simp [Data.work, start, none_left, zero]

theorem held_caught (finite : ∀ i ∉ tasks, batches i = [] ∧ n i = 0)
    (run : Run (step (poll role react)) Free (init (start batches n)) as s) :
    Held (Kept role (Caught role tasks n)) (Waiting role) (Ended role) s := by
  refine (poll_keeps fun _ _ _ _ => caught_move).held ?_ run
  exact ⟨wired_start batches n, by simp [start], caught_start finite⟩

omit [DecidableEq π] in
/-- When the queue is empty a task that was spawned has ended or awaits a message. -/
theorem rest_or_ended {J : Data T → Prop} {i : Nat}
    (held : Held (Kept role J) (Waiting role) (Ended role) s) (accepted : s.accepted i ≠ 0)
    (quiet : s.fifo = []) : Ended role i s.data ∨ Waiting role i s.data := by
  by_contra neither
  rw [not_or] at neither
  have queued := held.mem_fifo accepted neither.1 neither.2
  rw [quiet] at queued
  cases queued

/-- Whatever the tasks do with their messages, and whenever they are spawned: what a watcher
has received is at every moment a part of what was published on its topic, in order; the
dispatcher comes to rest; and then every publisher is through its batches, and every watcher
has received as many messages as it asked for or awaits the next one with the last one
published received. All of this happens on the runtime, operation by operation. -/
theorem watchers_catch_up (finite : ∀ i ∉ tasks, batches i = [] ∧ n i = 0)
    (run : Run (step (poll role react)) Free (init (start batches n)) as s) :
    (∀ i t, role i = .watcher t → (s.data.got i).Sublist (sentOn t s.data.sent) ∧
      (s.accepted i ≠ 0 → s.fifo = [] → (s.data.got i).length = n i ∨
        (s.data.got i).length < n i ∧
          (s.data.got i).getLast? = (sentOn t s.data.sent).getLast?)) ∧
    (∀ i, role i = .publisher → s.accepted i ≠ 0 → s.fifo = [] → s.data.batches i = []) ∧
    (∃ k r, Run (step (poll role react)) Free s (List.replicate k .run) r ∧ r.fifo = []) ∧
    ∃ ls r, Run Runtime.step Free (Runtime.init : Runtime.State Nat Unit) ls r ∧
      polls ls = s.polls ∧ r.fifo = s.fifo ∧ ∀ i, (r.cell i).word = s.word i := by
  have keeps : Keeps (poll role react) (Kept role (Caught role tasks n)) (Waiting role)
      (Ended role) := poll_keeps fun _ _ _ _ => caught_move
  have held := held_caught finite run
  refine ⟨fun i t watches => ?_, fun i publishes accepted quiet => ?_, ?_, ?_⟩
  · have tracks := held.data.more.1 i t watches
    refine ⟨tracks.whole, fun accepted quiet => ?_⟩
    have count := tracks.count
    obtain ended | ⟨u, watching, slot, more⟩ := rest_or_ended held accepted quiet
    · simp only [Ended, watches] at ended
      exact .inl (by omega)
    · rw [watches] at watching
      cases watching
      obtain ⟨_, u, watching, _, current⟩ := held.data.wired.slot i i slot
      rw [watches] at watching
      cases watching
      exact .inr ⟨by omega, ((tracks.follows more).current current).2⟩
  · obtain ended | ⟨u, watching, _⟩ := rest_or_ended held accepted quiet
    · simpa only [Ended, publishes] using ended
    · rw [publishes] at watching
      cases watching
  · exact held.settles keeps (fun d => ∑ j ∈ tasks, d.work j) fun d ps i h =>
      work_poll h.wired h.more.2 i
  · have start : Kept role (Caught role tasks n) (start batches n) [] :=
      ⟨wired_start batches n, by simp [PubSub.start], caught_start finite⟩
    obtain ⟨ls, r, fine, same, matched⟩ := exists_runtime_run () _ (keeps.given_run start run)
    exact ⟨ls, r, fine, same, matched.fifo, fun i => (matched.cell i).word⟩

def sensors : Topics Bool Bool := ⟨fun _ => 1, id⟩

def reading (t : Bool) (x : BitVec 8) : Sample sensors := ⟨t, [x], rfl⟩

/-- A publisher of the sensor's topic, a watcher that publishes an alert for every message it
has received, and a watcher of the alerts. -/
def sensorRole (i : Nat) : Role Bool :=
  if i = 1 then .watcher false else if i = 2 then .watcher true else .publisher

def alert (i : Nat) (got : List Bytes) : List (Sample sensors) :=
  if i = 1 then [reading true got.length] else []

def readings (i : Nat) : List (List (Sample sensors)) :=
  if i = 0 then [[reading false 7, reading false 8], [reading false 9]] else []

def receives (i : Nat) : Nat := if i = 1 then 2 else if i = 2 then 5 else 0

theorem alerts_catch_up : ∃ s : Executor.State Nat (Data sensors),
    s.data.got 1 = [[8], [9]] ∧ (s.data.got 1).Sublist (sentOn false s.data.sent) ∧
      (s.data.got 2).length = 2 ∧ (s.data.got 2).getLast? = (sentOn true s.data.sent).getLast? := by
  obtain ⟨s, run, hs⟩ := exists_run (step (poll sensorRole alert)) Free
    (init (start readings receives)) ([.spawn 1, .spawn 2, .spawn 0] ++ List.replicate 9 .run)
    (fun s => s.data.got 1 = [[8], [9]] ∧ (s.data.got 2).length = 2 ∧ s.accepted 2 ≠ 0 ∧
      s.fifo = []) rfl
  simp only [decide_eq_true_eq] at hs
  obtain ⟨got, two, accepted, quiet⟩ := hs
  have finite (i : Nat) (hi : i ∉ ({0, 1, 2} : Finset Nat)) :
      readings i = [] ∧ receives i = 0 := by
    simp only [Finset.mem_insert, Finset.mem_singleton, not_or] at hi
    simp [readings, receives, hi]
  obtain ⟨parts, _⟩ := watchers_catch_up finite run
  obtain ⟨part, _⟩ := parts 1 false rfl
  obtain all | ⟨_, last⟩ := (parts 2 true rfl).2 accepted quiet
  · rw [two] at all
    cases all
  · exact ⟨s, got, part, two, last⟩

end Run

end Px4Rs.PubSub
