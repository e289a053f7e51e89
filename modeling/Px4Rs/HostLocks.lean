import Px4Rs.LockOrder

/-! The locks the host functions take: the broker's, the timer worker's and the
dispatcher's. Wakers run under the lock of a topic's callbacks, and what they may call
there decides whether the program can deadlock. -/
namespace Px4Rs.HostLocks
open Px4Rs.LockOrder Px4Rs.Runs
variable {κ χ θ : Type*} [DecidableEq κ] [DecidableEq χ] [DecidableEq θ]

/-- `broker()` and `live_cbs()`, the fields of a `TopicState` and of a `SubCbInner`,
`scheduler()` and the queue of the timer worker. -/
inductive Lock (κ χ : Type*) where
  | broker
  | liveCbs
  | seq (t : κ)
  | data (t : κ)
  | callbacks (t : κ)
  | lastSeen (c : χ)
  | registered (c : χ)
  | scheduler
  | queue
deriving DecidableEq

/- A call of a host function, with the branches it takes and the calls its wakers make: for
   a task's waker at most `wi_schedule_now`. `expire` is a pass of the timer worker, which
   waits some times before a deadline has come. -/
inductive Call (κ χ : Type*) where
  | advertise (t : κ) (wakes : List (Call κ χ))
  | publish (t : κ) (wakes : List (Call κ χ))
  | subCbNew
  | subCbRegister (c : χ) (fresh : Bool)
  | subCbUpdate (c : χ) (news : Bool)
  | subCbUnregister (c : χ) (registered : Bool)
  | subCbDelete (c : χ) (registered : Bool)
  | wiNew
  | wiScheduleNow
  | callAfter
  | cancel
  | expire (waits : Nat) (wakes : List (Call κ χ))
  | resetBroker

/-- The block of `sub_cb_register` and `sub_cb_unregister`; the list of callbacks is touched
when the flag says so. -/
def flagged (topic : χ → κ) (c : χ) (touches : Bool) : List (Op (Lock κ χ)) :=
  within (.registered c) (if touches then within (.callbacks (topic c)) [] else [])

def record (t : κ) : List (Op (Lock κ χ)) := within (.data t) [] ++ within (.seq t) []

mutual

/-- The locks a call takes and gives back, in order. -/
def Call.ops (topic : χ → κ) : Call κ χ → List (Op (Lock κ χ))
  | .advertise t wakes =>
    within .broker [] ++ record t ++ within (.callbacks t) (opsAll topic wakes)
  | .publish t wakes => record t ++ within (.callbacks t) (opsAll topic wakes)
  | .subCbNew => within .broker [] ++ within .liveCbs []
  | .subCbRegister c fresh => flagged topic c fresh
  | .subCbUpdate c news =>
    within (.seq (topic c)) [] ++
      within (.lastSeen c) (if news then within (.data (topic c)) [] else [])
  | .subCbUnregister c registered => flagged topic c registered
  | .subCbDelete c registered => flagged topic c registered ++ within .liveCbs []
  | .wiNew => within .scheduler []
  | .wiScheduleNow => within .scheduler []
  | .callAfter => within .queue []
  | .cancel => within .queue []
  | .expire waits wakes => (List.replicate (waits + 1) (within .queue [])).flatten ++
    opsAll topic wakes
  | .resetBroker => within .broker []

def opsAll (topic : χ → κ) : List (Call κ χ) → List (Op (Lock κ χ))
  | [] => []
  | c :: cs => c.ops topic ++ opsAll topic cs

end

mutual

/-- The call touches the callbacks of topics from level `k` on, and its wakers those of
higher levels than the topic under whose lock they run. -/
def Call.From (topic : χ → κ) (level : κ → Nat) (k : Nat) : Call κ χ → Prop
  | .advertise t wakes | .publish t wakes =>
    k ≤ level t ∧ AllFrom topic level (level t + 1) wakes
  | .subCbRegister c _ | .subCbUnregister c _ | .subCbDelete c _ => k ≤ level (topic c)
  | .expire _ wakes => AllFrom topic level k wakes
  | _ => True

def AllFrom (topic : χ → κ) (level : κ → Nat) (k : Nat) : List (Call κ χ) → Prop
  | [] => True
  | c :: cs => c.From topic level k ∧ AllFrom topic level k cs

end

/-- The order of the locks, for topics of levels below `top`. -/
def rank (topic : χ → κ) (level : κ → Nat) (top : Nat) : Lock κ χ → Nat
  | .registered c => 2 * level (topic c)
  | .callbacks t => 2 * level t + 1
  | .lastSeen _ => 2 * top
  | .broker | .liveCbs | .seq _ | .data _ | .scheduler | .queue => 2 * top + 1

section Order
variable {topic : χ → κ} {level : κ → Nat} {top : Nat}

theorem above_leaf {k : Nat} {l : Lock κ χ} (hl : rank topic level top l = 2 * top + 1)
    (hk : k ≤ 2 * top + 1) : Above (rank topic level top) k (within l []) :=
  (above_nil _).within (hl ▸ hk)

theorem above_record {k : Nat} (t : κ) (hk : k ≤ 2 * top + 1) :
    Above (rank topic level top) k (record t : List (Op (Lock κ χ))) :=
  (above_leaf rfl hk).append (above_leaf rfl hk)

theorem above_flagged {k : Nat} (c : χ) (touches : Bool) (hk : k ≤ level (topic c)) :
    Above (rank topic level top) (2 * k) (flagged topic c touches) := by
  refine Above.within (Nat.mul_le_mul_left 2 hk) ?_
  cases touches with
  | false => exact above_nil _
  | true => exact (above_nil _).within (Nat.le_refl _)

mutual

theorem Call.above {k : Nat} (levels : ∀ t, level t < top) (hk : k ≤ top) (c : Call κ χ)
    (h : c.From topic level k) : Above (rank topic level top) (2 * k) (c.ops topic) := by
  have leaf : 2 * k ≤ 2 * top + 1 := by omega
  cases c with
  | advertise t wakes =>
    have inside := opsAll_above levels (levels t) wakes h.2
    have first : Above (rank topic level top) (2 * k) (within (Lock.broker : Lock κ χ) []) :=
      above_leaf rfl leaf
    refine (first.append (above_record t leaf)).append (inside.within ?_)
    exact Nat.le_succ_of_le (Nat.mul_le_mul_left 2 h.1)
  | publish t wakes =>
    have inside := opsAll_above levels (levels t) wakes h.2
    refine (above_record t leaf).append (inside.within ?_)
    exact Nat.le_succ_of_le (Nat.mul_le_mul_left 2 h.1)
  | subCbNew => exact (above_leaf rfl leaf).append (above_leaf rfl leaf)
  | subCbRegister c fresh => exact above_flagged c fresh h
  | subCbUnregister c registered => exact above_flagged c registered h
  | subCbDelete c registered =>
    exact (above_flagged c registered h).append (above_leaf rfl leaf)
  | subCbUpdate c news =>
    refine (above_leaf rfl leaf).append (Above.within (by simp only [rank]; omega) ?_)
    cases news with
    | false => exact above_nil _
    | true => exact above_leaf rfl (Nat.le_refl _)
  | wiNew | wiScheduleNow | callAfter | cancel | resetBroker => exact above_leaf rfl leaf
  | expire waits wakes =>
    refine (above_flatten fun p hp => ?_).append (opsAll_above levels hk wakes h)
    rw [List.eq_of_mem_replicate hp]
    exact above_leaf rfl leaf

theorem opsAll_above {k : Nat} (levels : ∀ t, level t < top) (hk : k ≤ top) (cs : List (Call κ χ))
    (h : AllFrom topic level k cs) : Above (rank topic level top) (2 * k) (opsAll topic cs) := by
  cases cs with
  | nil => exact above_nil _
  | cons c cs => exact (c.above levels hk h.1).append (opsAll_above levels hk cs h.2)

end

omit [DecidableEq κ] [DecidableEq χ] in
theorem rank_lt (levels : ∀ t, level t < top) (l : Lock κ χ) :
    rank topic level top l < 2 * top + 2 := by
  cases l with
  | callbacks t =>
    have := levels t
    simp only [rank]
    omega
  | registered c =>
    have := levels (topic c)
    simp only [rank]
    omega
  | lastSeen | broker | liveCbs | seq | data | scheduler | queue => simp only [rank]; omega

/-- Any number of threads, each making any calls, never deadlock as long as the topics can
be put in levels such that the wakers of a topic touch the callbacks of higher ones only: a
thread with something left to do never stops everybody, and nobody goes round in circles.
Wakers that only schedule their task touch none. -/
theorem host_calls_never_deadlock (levels : ∀ t, level t < top) {calls : θ → List (Call κ χ)}
    (descend : ∀ u, AllFrom topic level 0 (calls u)) {as : List θ} {s : State θ (Lock κ χ)}
    (run : Run step Free (start fun u => opsAll topic (calls u)) as s) :
    (∀ u, as.count u ≤ (opsAll topic (calls u)).length) ∧
      ((∃ u, s.prog u ≠ []) → ∃ u s', step s u = some s') :=
  finishes (fun u => opsAll_above levels (Nat.zero_le top) (calls u) (descend u))
    (rank_lt levels) run

end Order

/-- A publisher whose subscriber publishes on a second topic when woken, and a subscriber of
that topic that comes and goes. -/
def relayCalls : Bool → List (Call Bool Unit)
  | false => [.publish false [.wiScheduleNow, .publish true [.wiScheduleNow]]]
  | true => [.subCbNew, .subCbRegister () true, .subCbUpdate () true, .subCbDelete () true]

theorem relay_never_deadlocks :
    ∃ s : State Bool (Lock Bool Unit),
      Run step Free (start fun u => opsAll (fun _ => true) (relayCalls u))
        [false, false, true, true, true, true, true] s ∧ ∃ u s', step s u = some s' := by
  have levels : ∀ t : Bool, (if t then 1 else 0) < 2 := by decide
  have descend (u : Bool) :
      AllFrom (fun _ => true) (fun t : Bool => if t then 1 else 0) 0 (relayCalls u) := by
    cases u <;> simp [relayCalls, AllFrom, Call.From]
  obtain ⟨s, run, hs⟩ := exists_run step Free
    (start fun u => opsAll (fun _ => true) (relayCalls u) : State Bool (Lock Bool Unit))
    [false, false, true, true, true, true, true] (fun s => s.prog false ≠ [])
    (by decide +kernel)
  exact ⟨s, run, (host_calls_never_deadlock levels descend run).2 ⟨false, by simpa using hs⟩⟩

/-! Publish on wake, on the topic that wakes. -/

/-- Under the lock of the callbacks of `t` the call makes the calls `wakes`, itself or by what
its wakers do. -/
inductive Call.Notifies (t : κ) (wakes : List (Call κ χ)) : Call κ χ → Prop
  | advertise : Notifies t wakes (.advertise t wakes)
  | publish : Notifies t wakes (.publish t wakes)
  | inAdvertise {x ws c} (mem : c ∈ ws) (h : Notifies t wakes c) :
    Notifies t wakes (.advertise x ws)
  | inPublish {x ws c} (mem : c ∈ ws) (h : Notifies t wakes c) : Notifies t wakes (.publish x ws)
  | inExpire {n ws c} (mem : c ∈ ws) (h : Notifies t wakes c) : Notifies t wakes (.expire n ws)

section Reentry
variable {topic : χ → κ} {t : κ} {c : Call κ χ} {cs wakes : List (Call κ χ)}

omit [DecidableEq κ] [DecidableEq χ] in
mutual

theorem Call.bracketed (topic : χ → κ) (c : Call κ χ) : Bracketed (c.ops topic) := by
  have leaf (l : Lock κ χ) : Bracketed (within l []) := bracketed_nil.within
  have flag (c : χ) (touches : Bool) : Bracketed (flagged topic c touches) := by
    refine Bracketed.within ?_
    cases touches with
    | false => exact bracketed_nil
    | true => exact leaf _
  cases c with
  | advertise t wakes =>
    exact ((leaf _).append ((leaf _).append (leaf _))).append (opsAll_bracketed topic wakes).within
  | publish t wakes => exact ((leaf _).append (leaf _)).append (opsAll_bracketed topic wakes).within
  | subCbNew => exact (leaf _).append (leaf _)
  | subCbRegister c fresh => exact flag c fresh
  | subCbUnregister c registered => exact flag c registered
  | subCbDelete c registered => exact (flag c registered).append (leaf _)
  | subCbUpdate c news =>
    refine (leaf _).append (Bracketed.within ?_)
    cases news with
    | false => exact bracketed_nil
    | true => exact leaf _
  | wiNew | wiScheduleNow | callAfter | cancel | resetBroker => exact leaf _
  | expire waits wakes =>
    refine (bracketed_flatten fun p hp => ?_).append (opsAll_bracketed topic wakes)
    rw [List.eq_of_mem_replicate hp]
    exact leaf _

theorem opsAll_bracketed (topic : χ → κ) (cs : List (Call κ χ)) :
    Bracketed (opsAll topic cs) := by
  cases cs with
  | nil => exact bracketed_nil
  | cons c cs => exact (c.bracketed topic).append (opsAll_bracketed topic cs)

end

omit [DecidableEq κ] [DecidableEq χ] in
theorem opsAll_contains (mem : c ∈ cs) : c.ops topic <:+: opsAll topic cs := by
  induction cs with
  | nil => cases mem
  | cons d cs ih =>
    obtain rfl | mem := List.mem_cons.mp mem
    · exact (List.prefix_append _ _).isInfix
    · exact (ih mem).trans (List.suffix_append _ _).isInfix

omit [DecidableEq κ] [DecidableEq χ] in
theorem block_contains (l : Lock κ χ) (body : List (Op (Lock κ χ))) : body <:+: within l body :=
  ⟨[.lock l], [.unlock l], rfl⟩

omit [DecidableEq κ] [DecidableEq χ] in
theorem Call.Notifies.block (topic : χ → κ) (h : c.Notifies t wakes) :
    within (.callbacks t) (opsAll topic wakes) <:+: c.ops topic := by
  induction h with
  | advertise | publish => exact (List.suffix_append _ _).isInfix
  | inAdvertise mem _ ih | inPublish mem _ ih =>
    exact (ih.trans (opsAll_contains mem)).trans
      ((block_contains _ _).trans (List.suffix_append _ _).isInfix)
  | inExpire mem _ ih =>
    exact (ih.trans (opsAll_contains mem)).trans (List.suffix_append _ _).isInfix

omit [DecidableEq κ] [DecidableEq χ] in
theorem Call.Notifies.lock_mem (topic : χ → κ) (h : c.Notifies t wakes) (mem : c ∈ cs) :
    .lock (.callbacks t) ∈ opsAll topic cs :=
  ((h.block topic).trans (opsAll_contains mem)).subset List.mem_cons_self

/-- Where a topic is notified and a waker, at whatever depth, takes the lock of the callbacks of
that topic again, the program takes it twice, the second time inside the first, and never gets
past the second. Once it waits there it waits for itself, and with it every thread at every place
where it is still to take that lock. -/
theorem notify_within_notify_deadlocks {calls : θ → List (Call κ χ)} {u : θ} (mem : c ∈ calls u)
    (notifies : c.Notifies t wakes) (again : .lock (.callbacks t) ∈ opsAll topic wakes) :
    ∃ p q r, opsAll topic (calls u) =
        p ++ .lock (.callbacks t) :: (q ++ .lock (.callbacks t) :: r) ∧
      q ++ [.lock (.callbacks t)] <+: opsAll topic wakes ∧ .unlock (.callbacks t) ∉ q ∧
      ∀ as s, Run step Free (start fun v => opsAll topic (calls v)) as s →
        .lock (.callbacks t) :: r <:+ s.prog u ∧
        (s.prog u = .lock (.callbacks t) :: r → s.owner (.callbacks t) = some u ∧
          ∀ bs s', Run step Free s bs s' →
            s'.owner (.callbacks t) = some u ∧ s'.prog u = s.prog u ∧
            ∀ v r', .lock (.callbacks t) :: r' <:+ s.prog v →
              .lock (.callbacks t) :: r' <:+ s'.prog v) := by
  obtain ⟨q, inner, body, quiet⟩ := (opsAll_bracketed topic wakes).exists_first again
  obtain ⟨p, rest, parts⟩ := (notifies.block topic).trans (opsAll_contains mem)
  have twice : opsAll topic (calls u) = p ++ .lock (.callbacks t) ::
      (q ++ .lock (.callbacks t) :: (inner ++ .unlock (.callbacks t) :: rest)) := by
    simp [← parts, within, body]
  refine ⟨p, q, _, twice, ⟨inner, by simp [body]⟩, quiet, fun as s run => ?_⟩
  refine ⟨relocks_run (t := u) quiet twice run, fun waits => ?_⟩
  have mine := owner_of_relocks (t := u) quiet twice run waits
  refine ⟨mine, fun bs s' run' => ?_⟩
  rw [waits]
  exact waits_for_itself mine waits run'

end Reentry

/-- A waker that wakes a second topic whose waker publishes on the first, beside a thread that
subscribes to the first. -/
def reentrantCalls : Bool → List (Call Bool Unit)
  | false => [.advertise false [.wiScheduleNow, .publish true [.publish false []]]]
  | true => [.subCbNew, .subCbRegister () true]

theorem subscriber_waits_for_ever :
    ∃ s : State Bool (Lock Bool Unit),
      Run step Free (start fun u => opsAll (fun _ => false) (reentrantCalls u))
        (List.replicate 18 false) s ∧ s.prog false ≠ [] ∧
      ∀ bs s', Run step Free s bs s' →
        s'.prog false = s.prog false ∧ .lock (.callbacks false) ∈ s'.prog true := by
  have again : .lock (.callbacks false) ∈ opsAll (fun _ : Unit => false)
      [.wiScheduleNow, .publish true [.publish false []]] :=
    (Call.Notifies.inPublish (List.mem_singleton_self _) .publish).lock_mem _
      (List.mem_cons_of_mem _ (List.mem_singleton_self _))
  have first : Call.advertise false [.wiScheduleNow, .publish true [.publish false []]] ∈
      reentrantCalls false := List.mem_singleton_self _
  obtain ⟨p, q, r, _, _, _, stuck⟩ := notify_within_notify_deadlocks first .advertise again
  obtain ⟨s, run, hs⟩ := exists_run step Free
    (start fun u => opsAll (fun _ => false) (reentrantCalls u) : State Bool (Lock Bool Unit))
    (List.replicate 18 false) (fun s => s.prog false =
        [.lock (.callbacks false), .unlock (.callbacks false), .unlock (.callbacks true),
          .unlock (.callbacks false)] ∧
      .lock (.callbacks false) ∈ s.prog true) (by decide +kernel)
  simp only [decide_eq_true_eq] at hs
  obtain ⟨waits, later⟩ := hs
  obtain ⟨left, dead⟩ := stuck _ s run
  have here : s.prog false = .lock (.callbacks false) :: r := by
    rw [waits] at left
    simp only [List.suffix_cons_iff, List.cons.injEq, reduceCtorEq, false_and, or_false,
      List.suffix_nil, List.cons_ne_nil] at left
    rw [waits, left.2]
  obtain ⟨_, for_ever⟩ := dead here
  refine ⟨s, run, by simp [waits], fun bs s' run' => ?_⟩
  obtain ⟨_, same, others⟩ := for_ever bs s' run'
  obtain ⟨before, r', parts⟩ := List.append_of_mem later
  exact ⟨same, (others true r' ⟨before, parts.symm⟩).mem List.mem_cons_self⟩

end Px4Rs.HostLocks
