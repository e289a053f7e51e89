import Px4Rs.PubSub

/-! A poll of such a task is a number of moves, each of which keeps the broker and the
subscriptions in step and touches no other task but by waking it. -/
namespace Px4Rs.PubSub
open Px4Rs.Broker Px4Rs.Executor Function
variable {π τ : Type*} [DecidableEq π] [DecidableEq τ] {T : Topics π τ}
  {role : Nat → Role τ} {react : Nat → List Bytes → List (Sample T)} {d d' m : Data T}
  {i j : Nat} {t : τ} {w : List Nat}

def Data.update (d : Data T) (i : Nat) (t : τ) (cb : SubCb) : Data T :=
  { d with cb := Function.update d.cb i (some (cb.stepTo (d.topic t).seq)) }

def Data.park (d : Data T) (i : Nat) : Data T :=
  { d with waker := Function.update d.waker i ⟨AtomicWaker.waiting, some i⟩ }

def Data.nextBatch (d : Data T) (i : Nat) (rest : List (List (Sample T))) : Data T :=
  { d with batches := Function.update d.batches i rest }

variable (role react i) in
inductive Move : Data T → List Nat → Data T → Prop
  | subscribe {d : Data T} {t : τ} (watches : role i = .watcher t) (new : d.cb i = none)
    (more : d.left i ≠ 0) : Move d [] (d.ensureRegistered i t)
  | take {d : Data T} {t : τ} {cb : SubCb} {n : Nat} (watches : role i = .watcher t)
    (registered : d.cb i = some cb) (behind : cb.lastSeen < (d.topic t).seq)
    (more : d.left i = n + 1) {r : Data T × List Nat}
    (out : r = ((d.update i t cb).deliver i (d.topic t).data n).publishAll
      (react i (d.got i ++ [(d.topic t).data]))) : Move d r.2 r.1
  | park {d : Data T} {t : τ} {cb : SubCb} (watches : role i = .watcher t)
    (registered : d.cb i = some cb) (current : ¬ cb.lastSeen < (d.topic t).seq)
    (more : d.left i ≠ 0) : Move d [] (d.park i)
  | finish {d : Data T} {t : τ} (watches : role i = .watcher t) (done : d.left i = 0) :
    Move d [] (d.drop i t)
  | batch {d : Data T} {ms : List (Sample T)} {rest : List (List (Sample T))}
    (publishes : role i = .publisher) (next : d.batches i = ms :: rest) {r : Data T × List Nat}
    (out : r = (d.nextBatch i rest).publishAll ms) : Move d r.2 r.1

variable (role react i) in
/-- One move after another, and the wakers invoked. -/
inductive Moves : Data T → List Nat → Data T → Prop
  | nil {d : Data T} : Moves d [] d
  | cons {d m d' : Data T} {w w' : List Nat} (head : Move role react i d w m)
    (tail : Moves m w' d') : Moves d (w ++ w') d'

omit [DecidableEq π] in
theorem lastSeen_ensureRegistered (new : d.cb i = none) :
    (d.ensureRegistered i t).lastSeen j = d.lastSeen j := by
  simp only [Data.ensureRegistered, new, Option.isSome_none, Bool.false_eq_true, if_false,
    Data.lastSeen]
  by_cases hj : j = i
  · subst hj
    simp [new, SubCb.new]
  · rw [update_of_ne hj]

omit [DecidableEq π] in
theorem topic_ensureRegistered (new : d.cb i = none) (u : τ) :
    (d.ensureRegistered i t).topic u = { d.topic u with
      callbacks := (d.topic u).callbacks ++ if u = t then [i] else [] } := by
  simp only [Data.ensureRegistered, new, Option.isSome_none, Bool.false_eq_true, if_false]
  by_cases hu : u = t
  · subst hu
    simp
  · simp [hu]

omit [DecidableEq π] in
theorem Wired.ensureRegistered (h : Wired role d) (watches : role i = .watcher t)
    (new : d.cb i = none) : Wired role (d.ensureRegistered i t) := by
  have topic (u : τ) := topic_ensureRegistered (t := t) new u
  have cb : (d.ensureRegistered i t).cb = update d.cb i (some (SubCb.new (d.topic t) i)) := by
    simp [Data.ensureRegistered, new]
  have waker : (d.ensureRegistered i t).waker = d.waker := by
    simp [Data.ensureRegistered, new]
  have sent : (d.ensureRegistered i t).sent = d.sent := by
    simp [Data.ensureRegistered, new]
  have seq (u : τ) : ((d.ensureRegistered i t).topic u).seq = (d.topic u).seq := by rw [topic]
  refine ⟨fun u => ?_, fun u => ?_, ?_, fun j u => ?_, fun j u c hj hc => ?_, fun j u hj => ?_,
    fun j k hk => ?_, fun u hu => ?_, fun u hu => ?_⟩
  · rw [topic]
    exact h.size u
  · rw [topic]
    exact h.data u
  · rw [waker]
    exact h.waiting
  · have listed := h.listed j u
    rw [topic, cb]
    by_cases hj : j = i
    · subst hj
      simp [watches, new] at listed ⊢
      by_cases hu : u = t
      · simp [hu]
      · simp [hu, Ne.symm hu, listed]
    · by_cases hu : u = t
      · simpa [update_of_ne hj, hu, hj] using hu ▸ listed
      · simpa [update_of_ne hj, hu] using listed
  · rw [cb] at hc
    by_cases hji : j = i
    · subst hji
      rw [update_self] at hc
      cases hc
      rw [hj] at watches
      cases watches
      exact h.size _
    · rw [update_of_ne hji] at hc
      exact h.copies j u c hj hc
  · rw [lastSeen_ensureRegistered new, seq]
    exact h.seen j u hj
  · rw [waker] at hk
    obtain ⟨rfl, u, hj, hcb, current⟩ := h.slot j k hk
    have hki : k ≠ i := by
      rintro rfl
      exact hcb new
    refine ⟨rfl, u, hj, by rwa [cb, update_of_ne hki], ?_⟩
    rw [Data.behind, lastSeen_ensureRegistered new, seq]
    exact current
  · rw [seq] at hu
    rw [sent, topic]
    exact h.last u hu
  · rw [seq] at hu
    rw [sent]
    exact h.unsent u hu

omit [DecidableEq π] [DecidableEq τ] in
theorem lastSeen_of_cb {cb : SubCb} (registered : d.cb i = some cb) :
    d.lastSeen i = cb.lastSeen := by
  simp [Data.lastSeen, registered]

omit [DecidableEq π] [DecidableEq τ] in
theorem lastSeen_update {cb : SubCb} : (d.update i t cb).lastSeen j =
    if j = i then (d.topic t).seq else d.lastSeen j := by
  by_cases hj : j = i
  · subst hj
    simp [Data.lastSeen, Data.update, SubCb.stepTo]
  · simp [Data.lastSeen, Data.update, hj]

omit [DecidableEq π] in
theorem Wired.update {cb : SubCb} (h : Wired role d) (watches : role i = .watcher t)
    (registered : d.cb i = some cb) : Wired role (d.update i t cb) := by
  have same (j : Nat) (hj : j ≠ i) : (d.update i t cb).cb j = d.cb j := update_of_ne hj _ _
  have own : (d.update i t cb).cb i = some (cb.stepTo (d.topic t).seq) := update_self ..
  refine ⟨h.size, h.data, h.waiting, fun j u => ?_, fun j u c hj hc => ?_, fun j u hj => ?_,
    fun j k hk => ?_, h.last, h.unsent⟩
  · rw [show (d.update i t cb).topic = d.topic from rfl, h.listed]
    by_cases hji : j = i
    · subst hji
      simp [own, registered]
    · rw [same j hji]
  · by_cases hji : j = i
    · subst hji
      rw [own] at hc
      cases hc
      exact h.copies j u cb hj registered
    · rw [same j hji] at hc
      exact h.copies j u c hj hc
  · rw [lastSeen_update]
    split
    · rename_i hji
      rw [hji, watches] at hj
      cases hj
      exact le_rfl
    · exact h.seen j u hj
  · obtain ⟨rfl, u, hj, hcb, current⟩ := h.slot j k hk
    refine ⟨rfl, u, hj, ?_, ?_⟩
    · by_cases hki : k = i
      · simp [hki, own]
      · rwa [same k hki]
    · rw [Data.behind, lastSeen_update]
      split
      · rename_i hki
        rw [hki, watches] at hj
        cases hj
        exact Nat.lt_irrefl _
      · exact current

omit [DecidableEq π] in
theorem Wired.park (h : Wired role d) (watches : role i = .watcher t) (registered : d.cb i ≠ none)
    (current : ¬ d.behind i t) : Wired role (d.park i) := by
  refine ⟨h.size, h.data, fun j => ?_, h.listed, h.copies, h.seen, fun j k hk => ?_, h.last,
    h.unsent⟩
  · by_cases hj : j = i
    · simp [Data.park, hj]
    · simpa [Data.park, update_of_ne hj] using h.waiting j
  · by_cases hj : j = i
    · subst hj
      simp only [Data.park, update_self, Option.some.injEq] at hk
      exact ⟨hk.symm, t, watches, registered, current⟩
    · simp only [Data.park, update_of_ne hj] at hk
      exact h.slot j k hk

omit [DecidableEq π] in
theorem topic_drop (u : τ) : ∃ cs, (d.drop i t).topic u = { d.topic u with callbacks := cs } ∧
    (∀ j, j ∈ cs ↔ j ∈ (d.topic u).callbacks ∧ ((d.cb i).isSome ∧ u = t → j ≠ i)) := by
  simp only [Data.drop]
  by_cases hr : (d.cb i).isSome
  · by_cases hu : u = t
    · subst hu
      exact ⟨(d.topic u).callbacks.filter (· ≠ i), by simp only [hr, if_true, update_self],
        by simp [hr]⟩
    · exact ⟨(d.topic u).callbacks, by simp only [hr, if_true, update_of_ne hu], by simp [hu]⟩
  · exact ⟨(d.topic u).callbacks, by simp [hr], by simp [hr]⟩

omit [DecidableEq π] in
theorem Wired.drop (h : Wired role d) (watches : role i = .watcher t) :
    Wired role (d.drop i t) := by
  have seq (u : τ) : ((d.drop i t).topic u).seq = (d.topic u).seq := by
    obtain ⟨cs, same, _⟩ := topic_drop (d := d) (i := i) (t := t) u
    rw [same]
  have same (j : Nat) (hj : j ≠ i) : (d.drop i t).cb j = d.cb j := update_of_ne hj _ _
  have gone : (d.drop i t).cb i = none := update_self ..
  have lastSeen (j : Nat) (hj : j ≠ i) : (d.drop i t).lastSeen j = d.lastSeen j := by
    rw [Data.lastSeen, same j hj, Data.lastSeen]
  refine ⟨fun u => ?_, fun u => ?_, fun j => ?_, fun j u => ?_, fun j u c hj hc => ?_,
    fun j u hj => ?_, fun j k hk => ?_, fun u hu => ?_, fun u hu => ?_⟩
  · obtain ⟨cs, same, _⟩ := topic_drop (d := d) (i := i) (t := t) u
    rw [same]
    exact h.size u
  · obtain ⟨cs, same, _⟩ := topic_drop (d := d) (i := i) (t := t) u
    rw [same]
    exact h.data u
  · by_cases hj : j = i
    · simp [Data.drop, hj, AtomicWaker.new]
    · simpa [Data.drop, update_of_ne hj] using h.waiting j
  · obtain ⟨cs, filtered, mem⟩ := topic_drop (d := d) (i := i) (t := t) u
    rw [filtered, mem, h.listed]
    by_cases hj : j = i
    · subst hj
      rw [gone, watches]
      cases d.cb j <;> simp
      rintro rfl
      simp
    · simp [same j hj, hj]
  · by_cases hji : j = i
    · rw [hji, gone] at hc
      cases hc
    · rw [same j hji] at hc
      exact h.copies j u c hj hc
  · rw [seq]
    by_cases hji : j = i
    · subst hji
      simp [Data.lastSeen, gone]
    · rw [lastSeen j hji]
      exact h.seen j u hj
  · by_cases hji : j = i
    · simp [Data.drop, hji, AtomicWaker.new] at hk
    · simp only [Data.drop, update_of_ne hji] at hk
      obtain ⟨rfl, u, hj, hcb, current⟩ := h.slot j k hk
      refine ⟨rfl, u, hj, by rwa [same k hji], ?_⟩
      rw [Data.behind, lastSeen k hji, seq]
      exact current
  · obtain ⟨cs, filtered, _⟩ := topic_drop (d := d) (i := i) (t := t) u
    rw [seq] at hu
    rw [filtered]
    exact h.last u hu
  · rw [seq] at hu
    exact h.unsent u hu

omit [DecidableEq π] in
theorem Wired.deliver (h : Wired role d) (i : Nat) (x : Bytes) (n : Nat) :
    Wired role (d.deliver i x n) :=
  ⟨h.size, h.data, h.waiting, h.listed, h.copies, h.seen, h.slot, h.last, h.unsent⟩

omit [DecidableEq π] in
theorem Wired.nextBatch (h : Wired role d) (i : Nat) (rest : List (List (Sample T))) :
    Wired role (d.nextBatch i rest) :=
  ⟨h.size, h.data, h.waiting, h.listed, h.copies, h.seen, h.slot, h.last, h.unsent⟩

theorem Move.wired (h : Wired role d) (move : Move role react i d w d') : Wired role d' := by
  cases move with
  | subscribe watches new => exact h.ensureRegistered watches new
  | take watches registered _ _ out =>
    rw [out]
    exact (((h.update watches registered).deliver _ _ _).publishAll _).wired
  | park watches registered current =>
    exact h.park watches (by simp [registered])
      (by rwa [Data.behind, lastSeen_of_cb registered])
  | finish watches => exact h.drop watches
  | batch _ _ out =>
    rw [out]
    exact ((h.nextBatch _ _).publishAll _).wired

/-- What a task still has to do. -/
def Data.work (d : Data T) (i : Nat) : Nat := d.left i + (d.batches i).length

/- What a poll of the task `i` does to the others when it has invoked the wakers `w`. -/
structure Frame (i : Nat) (d : Data T) (w : List Nat) (d' : Data T) : Prop where
  left : ∀ j ≠ i, d'.left j = d.left j
  batches : ∀ j ≠ i, d'.batches j = d.batches j
  got : ∀ j ≠ i, d'.got j = d.got j
  cb : ∀ j ≠ i, d'.cb j = d.cb j
  slot : ∀ j ≠ i, (d'.waker j).waker = if j ∈ w then none else (d.waker j).waker
  woken : ∀ j ∈ w, j ≠ i ∧ (d.waker j).waker = some j
  work : d'.work i ≤ d.work i ∧ (w ≠ [] → d'.work i < d.work i)

omit [DecidableEq π] [DecidableEq τ] in
theorem Frame.refl : Frame i d [] d where
  left := fun _ _ => rfl
  batches := fun _ _ => rfl
  got := fun _ _ => rfl
  cb := fun _ _ => rfl
  slot := by simp
  woken := by simp
  work := by simp

omit [DecidableEq π] [DecidableEq τ] in
theorem Frame.trans {w' : List Nat} (h : Frame i d w m) (h' : Frame i m w' d') :
    Frame i d (w ++ w') d' := by
  refine ⟨fun j hj => ?_, fun j hj => ?_, fun j hj => ?_, fun j hj => ?_, fun j hj => ?_,
    fun j hj => ?_, ?_, fun some_woken => ?_⟩
  · rw [h'.left j hj, h.left j hj]
  · rw [h'.batches j hj, h.batches j hj]
  · rw [h'.got j hj, h.got j hj]
  · rw [h'.cb j hj, h.cb j hj]
  · rw [h'.slot j hj, h.slot j hj]
    by_cases later : j ∈ w' <;> simp [later]
  · obtain now | later := List.mem_append.mp hj
    · exact h.woken j now
    · obtain ⟨hji, hs⟩ := h'.woken j later
      rw [h.slot j hji] at hs
      split at hs
      · cases hs
      · exact ⟨hji, hs⟩
  · exact Nat.le_trans h'.work.1 h.work.1
  · by_cases hw : w = []
    · exact Nat.lt_of_lt_of_le (h'.work.2 (by simpa [hw] using some_woken)) h.work.1
    · exact Nat.lt_of_le_of_lt h'.work.1 (h.work.2 hw)

omit [DecidableEq π] in
/-- A waker in its slot belongs to a watcher for which there is no message. -/
theorem Wired.empty_slot (h : Wired role d)
    (no : ∀ t, role i = .watcher t → d.cb i ≠ none → d.behind i t) :
    (d.waker i).waker = none := by
  cases hs : (d.waker i).waker with
  | none => rfl
  | some k =>
    obtain ⟨_, t, watches, registered, current⟩ := h.slot i k hs
    exact absurd (no t watches registered) current

theorem work_batch {ms : List (Sample T)} {rest : List (List (Sample T))} (h : Wired role d)
    (next : d.batches i = ms :: rest) :
    ((d.nextBatch i rest).publishAll ms).1.work i < d.work i := by
  have published := h.nextBatch i rest |>.publishAll ms
  rw [Data.work, published.left, published.batches]
  simp [Data.work, Data.nextBatch, next]

theorem Move.frame (h : Wired role d) (move : Move role react i d w d') : Frame i d w d' := by
  cases move with
  | subscribe _ new =>
    constructor <;> simp +contextual [Data.ensureRegistered, new, Data.work, update_of_ne]
  | @take t cb n watches registered behind more r out =>
    have updated := (h.update watches registered).deliver i (d.topic t).data n
    have published := updated.publishAll (react i (d.got i ++ [(d.topic t).data]))
    rw [← out] at published
    have empty : (d.waker i).waker = none := h.empty_slot fun u hu _ => by
      rw [watches] at hu
      cases hu
      rwa [Data.behind, lastSeen_of_cb registered]
    have less : r.1.work i < d.work i := by
      rw [Data.work, published.left, published.batches]
      simp [Data.work, Data.deliver, Data.update, more]
    refine ⟨fun j hj => ?_, fun j hj => ?_, fun j hj => ?_, fun j hj => ?_, fun j hj => ?_,
      fun j hj => ?_, Nat.le_of_lt less, fun _ => less⟩
    · rw [published.left]
      exact update_of_ne hj _ _
    · rw [published.batches]
      rfl
    · rw [published.got]
      exact update_of_ne hj _ _
    · rw [published.cb]
      exact update_of_ne hj _ _
    · exact published.slot j
    · obtain ⟨hs, _⟩ := published.woken j hj
      refine ⟨?_, hs⟩
      rintro rfl
      rw [show ((d.update j t cb).deliver j (d.topic t).data n).waker = d.waker from rfl,
        empty] at hs
      cases hs
  | park =>
    constructor <;> simp +contextual [Data.park, Data.work, update_of_ne]
  | finish =>
    constructor <;> simp +contextual [Data.drop, Data.work, update_of_ne]
  | @batch ms rest publishes next r out =>
    have published := (h.nextBatch i rest).publishAll ms
    have less := work_batch h next
    rw [← out] at published less
    refine ⟨fun j _ => ?_, fun j hj => ?_, fun j _ => ?_, fun j _ => ?_, fun j _ => ?_,
      fun j hj => ?_, Nat.le_of_lt less, fun _ => less⟩
    · rw [published.left]
      rfl
    · rw [published.batches]
      exact update_of_ne hj _ _
    · rw [published.got]
      rfl
    · rw [published.cb]
      rfl
    · exact published.slot j
    · obtain ⟨hs, x, _, watches⟩ := published.woken j hj
      refine ⟨?_, hs⟩
      rintro rfl
      rw [publishes] at watches
      cases watches

theorem Moves.wired (h : Wired role d) (moves : Moves role react i d w d') : Wired role d' := by
  induction moves with
  | nil => exact h
  | cons head _ ih => exact ih (head.wired h)

theorem Moves.frame (h : Wired role d) (moves : Moves role react i d w d') :
    Frame i d w d' := by
  induction moves with
  | nil => exact .refl
  | cons head _ ih => exact (head.frame h).trans (ih (head.wired h))

/-- What every move keeps, a poll keeps. -/
theorem Moves.invariant {J : Data T → Prop} (h : Wired role d) (start : J d)
    (keep : ∀ d w d', Wired role d → J d → Move role react i d w d' → J d')
    (moves : Moves role react i d w d') : J d' := by
  induction moves with
  | nil => exact start
  | cons head _ ih => exact ih (head.wired h) (keep _ _ _ h start head)

/-! A poll, move by move. -/

omit [DecidableEq π] in
theorem tryRecv_new (new : d.cb i = none) :
    d.tryRecv i t = (d.ensureRegistered i t).tryRecv i t := by
  have again : (d.ensureRegistered i t).ensureRegistered i t = d.ensureRegistered i t := by
    simp [Data.ensureRegistered, new]
  rw [Data.tryRecv, Data.tryRecv, again]

omit [DecidableEq π] in
theorem tryRecv_registered {cb : SubCb} (h : Wired role d) (watches : role i = .watcher t)
    (registered : d.cb i = some cb) : d.tryRecv i t =
      if cb.lastSeen < (d.topic t).seq then (d.update i t cb, some (d.topic t).data)
      else (d, none) := by
  have same : d.ensureRegistered i t = d := by simp [Data.ensureRegistered, registered]
  have whole : (d.topic t).data.take cb.size = (d.topic t).data := by
    rw [h.copies i t cb watches registered, ← h.data t, List.take_length]
  simp only [Data.tryRecv, same, registered, Option.bind_some, SubCb.update, SubCb.copyRecord,
    whole]
  by_cases behind : cb.lastSeen < (d.topic t).seq
  · simp only [if_pos behind]
    rfl
  · simp only [if_neg behind]

omit [DecidableEq π] in
theorem recvPoll_registered {cb : SubCb} (h : Wired role d) (watches : role i = .watcher t)
    (registered : d.cb i = some cb) : d.recvPoll i t =
      if cb.lastSeen < (d.topic t).seq then (d.update i t cb, [], some (d.topic t).data)
      else (d.park i, [], none) := by
  rw [Data.recvPoll, tryRecv_registered h watches registered]
  by_cases current : cb.lastSeen < (d.topic t).seq
  · simp only [if_pos current]
  · simp only [if_neg current]
    have parked := h.park watches (by simp [registered])
      (by rwa [Data.behind, lastSeen_of_cb registered])
    have again : (d.park i).tryRecv i t = (d.park i, none) :=
      (tryRecv_registered parked watches registered).trans (if_neg current)
    simp only [AtomicWaker.register_of_waiting (h.waiting i)]
    rw [show { d with waker := update d.waker i ⟨AtomicWaker.waiting, some i⟩ } = d.park i from rfl,
      again]
    rfl

theorem watch_moves {n : Nat} (h : Wired role d) (watches : role i = .watcher t)
    (more : d.left i = n) :
    Moves role react i d (d.watch react i t n).2 (d.watch react i t n).1 ∧
      ((d.watch react i t n).1.left i ≠ 0 →
        ((d.watch react i t n).1.waker i).waker = some i) := by
  induction n generalizing d with
  | zero => exact ⟨.cons (.finish watches more) .nil, fun some_left => absurd more some_left⟩
  | succ n ih =>
    have go {d : Data T} {cb : SubCb} (h : Wired role d) (more : d.left i = n + 1)
        (registered : d.cb i = some cb) :
        Moves role react i d (d.watch react i t (n + 1)).2 (d.watch react i t (n + 1)).1 ∧
          ((d.watch react i t (n + 1)).1.left i ≠ 0 →
            ((d.watch react i t (n + 1)).1.waker i).waker = some i) := by
      simp only [Data.watch, recvPoll_registered h watches registered]
      by_cases behind : cb.lastSeen < (d.topic t).seq
      · have take : Move role react i d _ _ := .take watches registered behind more rfl
        have wired := take.wired h
        have left : ((((d.update i t cb).deliver i (d.topic t).data n).publishAll
            (react i (d.got i ++ [(d.topic t).data]))).1.left i) = n := by
          have delivered := (h.update watches registered).deliver i (d.topic t).data n
          rw [(delivered.publishAll _).left]
          simp [Data.deliver]
        have got : ((d.update i t cb).deliver i (d.topic t).data n).got i =
            d.got i ++ [(d.topic t).data] := by
          simp [Data.deliver, Data.update]
        rw [if_pos behind]
        simp only [got, List.nil_append]
        obtain ⟨rest, parks⟩ := ih wired left
        exact ⟨.cons take rest, parks⟩
      · rw [if_neg behind]
        refine ⟨.cons (.park watches registered behind (by omega)) .nil, fun _ => ?_⟩
        simp [Data.park]
    cases hcb : d.cb i with
    | some cb => exact go h more hcb
    | none =>
      have registered : (d.ensureRegistered i t).cb i = some (SubCb.new (d.topic t) i) := by
        simp [Data.ensureRegistered, hcb]
      have left : (d.ensureRegistered i t).left = d.left := by
        simp [Data.ensureRegistered, hcb]
      have same : d.watch react i t (n + 1) =
          (d.ensureRegistered i t).watch react i t (n + 1) := by
        simp only [Data.watch, Data.recvPoll, tryRecv_new hcb]
      have subscribe : Move role react i d [] _ := .subscribe watches hcb (by omega)
      obtain ⟨rest, parks⟩ := go (subscribe.wired h) (by rw [left, more]) registered
      rw [same]
      exact ⟨.cons subscribe rest, parks⟩

variable (role i) in
/-- How a poll ends that has invoked the wakers `w` before. -/
inductive Outcome (w : List Nat) : Polled (Data T) Nat → Prop
  | ended {d : Data T} (publishes : role i = .publisher) (done : d.batches i = []) :
    Outcome w ⟨d, w, true⟩
  | yielded {d : Data T} (publishes : role i = .publisher) : Outcome w ⟨d, w ++ [i], false⟩
  | finished {d : Data T} {t : τ} (watches : role i = .watcher t) (done : d.left i = 0) :
    Outcome w ⟨d, w, true⟩
  | parked {d : Data T} {t : τ} (watches : role i = .watcher t) (more : d.left i ≠ 0)
    (slot : (d.waker i).waker = some i) : Outcome w ⟨d, w, false⟩

theorem poll_batch {ms : List (Sample T)} {rest : List (List (Sample T))}
    (publishes : role i = .publisher) (next : d.batches i = ms :: rest) :
    poll role react i d = ⟨((d.nextBatch i rest).publishAll ms).1,
      ((d.nextBatch i rest).publishAll ms).2 ++ [i], false⟩ := by
  simp [poll, publishes, next, Data.nextBatch]

theorem poll_done (publishes : role i = .publisher) (done : d.batches i = []) :
    poll role react i d = ⟨d, [], true⟩ := by
  simp [poll, publishes, done]

theorem poll_moves (react : Nat → List Bytes → List (Sample T)) (h : Wired role d) (i : Nat) :
    ∃ w, Moves role react i d w (poll role react i d).data ∧
      Outcome role i w (poll role react i d) ∧
      ((poll role react i d).woken ≠ [] → (poll role react i d).data.work i < d.work i) := by
  cases hi : role i with
  | publisher =>
    cases hb : d.batches i with
    | nil =>
      rw [poll_done hi hb]
      exact ⟨[], .nil, .ended hi hb, by simp⟩
    | cons ms rest =>
      have batch : Move role react i d _ _ := .batch hi hb rfl
      rw [poll_batch hi hb]
      exact ⟨_, by simpa using Moves.cons batch .nil, .yielded hi, fun _ => work_batch h hb⟩
  | watcher t =>
    have watched : Moves role react i d _ _ ∧ _ := watch_moves h hi rfl
    obtain ⟨moves, parks⟩ := watched
    have polled : poll role react i d = ⟨(d.watch react i t (d.left i)).1,
        (d.watch react i t (d.left i)).2, (d.watch react i t (d.left i)).1.left i = 0⟩ := by
      simp [poll, hi]
    rw [polled]
    refine ⟨_, moves, ?_, (moves.frame h).work.2⟩
    by_cases done : (d.watch react i t (d.left i)).1.left i = 0
    · simp only [done, decide_true]
      exact .finished hi done
    · simp only [done, decide_false]
      exact .parked hi done (parks done)

end Px4Rs.PubSub
