import Px4Rs.Broker
import Px4Rs.Runs

/-! Any number of publishers and subscribers of one topic of the host broker: an update
delivers what was published before it began, or something newer, and every publication is
delivered to each subscriber or counted as lost. -/
namespace Px4Rs.BrokerReads
open Px4Rs.Broker Px4Rs.Runs Function
variable {κ ρ : Type*} [DecidableEq κ] [DecidableEq ρ]

/- One subscriber. `cur` is the seq its update in progress has read. The rest is history:
   the number of the write copied last, its bytes, how many updates delivered, and what
   `sub_cb_lost_take` has returned so far. -/
structure Reader where
  cb : SubCb
  cur : Option Nat
  delivered : Nat
  bytes : List (BitVec 8)
  deliveries : Nat
  taken : Nat

/- `publisher` is the write a publisher has still to bump the seq for. The payloads
   `written` are counted from 1; `published` is the newest whose bump is done, and `mark g`
   what it was when the seq became `g`. -/
structure State (κ ρ : Type*) where
  topic : Topic
  publisher : κ → Option Nat
  sub : ρ → Reader
  written : List (List (BitVec 8))
  published : Nat
  mark : Nat → Nat

def Reader.init (t : Topic) (ctx : Nat) : Reader := ⟨SubCb.new t ctx, none, 0, [], 0, 0⟩

def init (size : Nat) (ctx : ρ → Nat) : State κ ρ where
  topic := Topic.new size
  publisher := fun _ => none
  sub := fun r => Reader.init (Topic.new size) (ctx r)
  written := []
  published := 0
  mark := fun _ => 0

/- `write` and `bump` are the blocks of an `advertise` or a `publish`, `readSeq` and `copy`
   those of `sub_cb_update`. What `notify` does is nothing to them. -/
inductive Act (κ ρ : Type*) where
  | write (c : κ) (payload : List (BitVec 8))
  | bump (c : κ)
  | readSeq (r : ρ)
  | copy (r : ρ)
  | lostTake (r : ρ)

@[simps] def State.write (s : State κ ρ) (c : κ) (payload : List (BitVec 8)) : State κ ρ :=
  { s with
    topic := s.topic.write payload
    publisher := update s.publisher c (some (s.written.length + 1))
    written := s.written ++ [payload] }

@[simps] def State.bump (s : State κ ρ) (c : κ) (k : Nat) : State κ ρ :=
  { s with
    topic := s.topic.bump
    publisher := update s.publisher c none
    published := max s.published k
    mark := update s.mark (s.topic.seq + 1) (max s.published k) }

@[simps] def State.setSub (s : State κ ρ) (r : ρ) (x : Reader) : State κ ρ :=
  { s with sub := update s.sub r x }

/-- The second block of `sub_cb_update`. -/
def Reader.copy (x : Reader) (t : Topic) (newest cur : Nat) : Reader :=
  match x.cb.copyRecord t cur with
  | some (bytes, cb) =>
    { x with cb, cur := none, delivered := newest, bytes, deliveries := x.deliveries + 1 }
  | none => { x with cur := none }

def Reader.lostTake (x : Reader) : Reader :=
  { x with cb := x.cb.lostTake.2, taken := x.taken + x.cb.lostTake.1.toNat }

def step (s : State κ ρ) : Act κ ρ → Option (State κ ρ)
  | .write c payload =>
    if s.publisher c = none ∧ payload.length = s.topic.size then some (s.write c payload)
    else none
  | .bump c => (s.publisher c).map (s.bump c)
  | .readSeq r =>
    if (s.sub r).cur = none then some (s.setSub r { s.sub r with cur := some s.topic.seq })
    else none
  | .copy r =>
    (s.sub r).cur.map fun cur => s.setSub r ((s.sub r).copy s.topic s.written.length cur)
  | .lostTake r => if (s.sub r).cur = none then some (s.setSub r (s.sub r).lostTake) else none

inductive Steps (s : State κ ρ) : Act κ ρ → State κ ρ → Prop
  | write {c payload} (idle : s.publisher c = none) (size : payload.length = s.topic.size) :
    Steps s (.write c payload) (s.write c payload)
  | bump {c k} (busy : s.publisher c = some k) : Steps s (.bump c) (s.bump c k)
  | readSeq {r} (idle : (s.sub r).cur = none) :
    Steps s (.readSeq r) (s.setSub r { s.sub r with cur := some s.topic.seq })
  | copy {r cur} (read : (s.sub r).cur = some cur) :
    Steps s (.copy r) (s.setSub r ((s.sub r).copy s.topic s.written.length cur))
  | lostTake {r} (idle : (s.sub r).cur = none) :
    Steps s (.lostTake r) (s.setSub r (s.sub r).lostTake)

variable {s t : State κ ρ} {a : Act κ ρ} {r : ρ}

theorem steps_of_step (next : step s a = some t) : Steps s a t := by
  cases a with
  | write c payload =>
    simp only [step, Option.ite_none_right_eq_some, Option.some.injEq] at next
    obtain ⟨⟨idle, size⟩, rfl⟩ := next
    exact .write idle size
  | bump c =>
    obtain ⟨k, busy, rfl⟩ := Option.map_eq_some_iff.mp next
    exact .bump busy
  | readSeq r =>
    simp only [step, Option.ite_none_right_eq_some, Option.some.injEq] at next
    obtain ⟨idle, rfl⟩ := next
    exact .readSeq idle
  | copy r =>
    obtain ⟨cur, read, rfl⟩ := Option.map_eq_some_iff.mp next
    exact .copy read
  | lostTake r =>
    simp only [step, Option.ite_none_right_eq_some, Option.some.injEq] at next
    obtain ⟨idle, rfl⟩ := next
    exact .lostTake idle

/- The topic and its publishers: the last payload is in the buffer, and is published or
   about to be. -/
structure TopicInv (s : State κ ρ) : Prop where
  data : s.topic.data.length = s.topic.size
  last : ∀ p, s.written.getLast? = some p → s.topic.data = p
  begun : 0 < s.topic.seq → 0 < s.written.length
  pending : ∀ c k, s.publisher c = some k → 0 < k ∧ k ≤ s.written.length
  newest : s.written.length ≤ s.published ∨ ∃ c, s.publisher c = some s.written.length
  bound : s.published ≤ s.written.length
  marked : s.mark s.topic.seq = s.published
  mono : ∀ g h, g ≤ h → h ≤ s.topic.seq → s.mark g ≤ s.mark h

/- One subscriber: what it copied is at least as new as what was published when the seq it
   has seen last came about. -/
structure ReaderInv (s : State κ ρ) (x : Reader) : Prop where
  size : x.cb.size = s.topic.size
  cur : ∀ cur, x.cur = some cur → cur ≤ s.topic.seq
  seen : x.cb.lastSeen ≤ s.topic.seq
  fresh : s.mark x.cb.lastSeen ≤ x.delivered
  bound : x.delivered ≤ s.written.length
  bytes : 0 < x.delivered → s.written[x.delivered - 1]? = some x.bytes
  counted : s.topic.seq < 2 ^ 32 → x.deliveries + x.taken + x.cb.lost.toNat = x.cb.lastSeen

structure Inv (s : State κ ρ) : Prop where
  topic : TopicInv s
  sub : ∀ r, ReaderInv s (s.sub r)

omit [DecidableEq κ] [DecidableEq ρ] in
theorem inv_init (size : Nat) (ctx : ρ → Nat) : Inv (init size ctx : State κ ρ) := by
  constructor
  · constructor <;> simp [init, Topic.new]
  · intro r
    constructor <;> simp [init, Reader.init, SubCb.new, Topic.new]

omit [DecidableEq ρ] in
theorem TopicInv.write {c : κ} {payload : List (BitVec 8)} (h : TopicInv s)
    (size : payload.length = s.topic.size) : TopicInv (s.write c payload) := by
  have whole : copy s.topic.size payload s.topic.data = payload := by
    simp [copy, ← size, size.trans h.data.symm]
  refine ⟨?_, fun p hp => ?_, fun _ => by simp, fun d k hk => ?_, .inr ⟨c, by simp⟩, ?_,
    h.marked, h.mono⟩
  · simpa [whole] using size
  · simp only [State.write_written, List.getLast?_append, List.getLast?_singleton,
      Option.some_or, Option.some.injEq] at hp
    simpa [whole] using hp
  · simp only [State.write_written, List.length_append, List.length_singleton]
    by_cases hd : d = c
    · subst hd
      simp only [State.write_publisher, update_self, Option.some.injEq] at hk
      omega
    · simp only [State.write_publisher, update_of_ne hd] at hk
      have := h.pending d k hk
      omega
  · have := h.bound
    simp only [State.write_published, State.write_written, List.length_append,
      List.length_singleton]
    omega

omit [DecidableEq ρ] in
theorem TopicInv.bump {c : κ} {k : Nat} (h : TopicInv s) (busy : s.publisher c = some k) :
    TopicInv (s.bump c k) := by
  have hk := h.pending c k busy
  refine ⟨h.data, h.last, fun _ => Nat.lt_of_lt_of_le hk.1 hk.2, fun d j hj => ?_, ?_,
    max_le h.bound hk.2, by simp, ?_⟩
  · by_cases hd : d = c
    · subst hd
      simp at hj
    · simp only [State.bump_publisher, update_of_ne hd] at hj
      exact h.pending d j hj
  · obtain done | ⟨d, hd⟩ := h.newest
    · exact .inl (le_trans done (le_max_left _ _))
    · by_cases hdc : d = c
      · subst hdc
        rw [busy, Option.some.injEq] at hd
        exact .inl (hd ▸ le_max_right _ _)
      · exact .inr ⟨d, by simpa [update_of_ne hdc] using hd⟩
  · intro g g' hg hg'
    have old (x : Nat) (hx : x ≤ s.topic.seq) : (s.bump c k).mark x = s.mark x :=
      update_of_ne (by omega) _ _
    have top : (s.bump c k).mark (s.topic.seq + 1) = max s.published k := update_self ..
    simp only [State.bump_topic, Topic.bump_seq] at hg'
    obtain rfl | hlt : g' = s.topic.seq + 1 ∨ g' ≤ s.topic.seq := by omega
    · obtain rfl | hlt : g = s.topic.seq + 1 ∨ g ≤ s.topic.seq := by omega
      · exact le_rfl
      · rw [old g hlt, top]
        calc s.mark g ≤ s.mark s.topic.seq := h.mono g _ hlt le_rfl
          _ = s.published := h.marked
          _ ≤ max s.published k := le_max_left _ _
    · rw [old g (by omega), old g' hlt]
      exact h.mono g g' hg hlt

theorem Reader.copy_cases (x : Reader) (t : Topic) (newest cur : Nat) :
    (x.cb.lastSeen < cur ∧ x.copy t newest cur = { x with
      cb := x.cb.stepTo cur, cur := none, delivered := newest, bytes := t.data.take x.cb.size,
      deliveries := x.deliveries + 1 }) ∨
    (cur ≤ x.cb.lastSeen ∧ x.copy t newest cur = { x with cur := none }) := by
  simp only [Reader.copy, SubCb.copyRecord]
  by_cases new : x.cb.lastSeen < cur
  · exact .inl ⟨new, by rw [if_pos new]⟩
  · exact .inr ⟨by omega, by rw [if_neg new]⟩

omit [DecidableEq κ] [DecidableEq ρ] in
theorem TopicInv.getElem?_newest (h : TopicInv s) (pos : 0 < s.written.length) :
    s.written[s.written.length - 1]? = some s.topic.data := by
  rw [← List.getLast?_eq_getElem?]
  cases hp : s.written.getLast? with
  | none => simp [List.getLast?_eq_none_iff.mp hp] at pos
  | some p => rw [h.last p hp]

omit [DecidableEq κ] [DecidableEq ρ] in
theorem ReaderInv.copy {x : Reader} {cur : Nat} (h : TopicInv s) (hx : ReaderInv s x)
    (read : x.cur = some cur) : ReaderInv s (x.copy s.topic s.written.length cur) := by
  have hc := hx.cur cur read
  obtain ⟨new, he⟩ | ⟨old, he⟩ := x.copy_cases s.topic s.written.length cur
  · have whole : s.topic.data.take x.cb.size = s.topic.data := by
      rw [hx.size, ← h.data, List.take_length]
    have fresh : s.mark cur ≤ s.written.length := calc
      s.mark cur ≤ s.mark s.topic.seq := h.mono _ _ hc le_rfl
      _ = s.published := h.marked
      _ ≤ s.written.length := h.bound
    have counted (small : s.topic.seq < 2 ^ 32) :
        x.deliveries + 1 + x.taken + (x.cb.stepTo cur).lost.toNat = cur := by
      have before := hx.counted small
      rw [SubCb.stepTo_lost (by omega)]
      omega
    rw [he, whole]
    exact ⟨hx.size, by simp, hc, fresh, le_rfl, h.getElem?_newest, counted⟩
  · rw [he]
    exact ⟨hx.size, by simp, hx.seen, hx.fresh, hx.bound, hx.bytes, hx.counted⟩

omit [DecidableEq ρ] in
theorem ReaderInv.write {x : Reader} {c : κ} {payload : List (BitVec 8)} (hx : ReaderInv s x) :
    ReaderInv (s.write c payload) x := by
  have bound := hx.bound
  refine ⟨hx.size, hx.cur, hx.seen, hx.fresh, ?_, fun pos => ?_, hx.counted⟩
  · simp only [State.write_written, List.length_append]
    omega
  · rw [State.write_written, List.getElem?_append_left (by omega)]
    exact hx.bytes pos

omit [DecidableEq ρ] in
theorem ReaderInv.bump {x : Reader} {c : κ} {k : Nat} (hx : ReaderInv s x) :
    ReaderInv (s.bump c k) x := by
  have seen := hx.seen
  refine ⟨hx.size, fun cur read => ?_, Nat.le_succ_of_le seen, ?_, hx.bound, hx.bytes,
    fun small => hx.counted ?_⟩
  · exact Nat.le_succ_of_le (hx.cur cur read)
  · rw [State.bump_mark, update_of_ne (by omega)]
    exact hx.fresh
  · simp only [State.bump_topic, Topic.bump_seq] at small
    omega

omit [DecidableEq κ] [DecidableEq ρ] in
theorem ReaderInv.readSeq {x : Reader} (hx : ReaderInv s x) :
    ReaderInv s { x with cur := some s.topic.seq } :=
  ⟨hx.size, fun _ read => (Option.some.inj read).ge, hx.seen, hx.fresh, hx.bound, hx.bytes,
    hx.counted⟩

omit [DecidableEq κ] [DecidableEq ρ] in
theorem ReaderInv.lostTake {x : Reader} (hx : ReaderInv s x) : ReaderInv s x.lostTake := by
  refine ⟨hx.size, hx.cur, hx.seen, hx.fresh, hx.bound, hx.bytes, fun small => ?_⟩
  have counted := hx.counted small
  simpa [Reader.lostTake, SubCb.lostTake, Nat.add_assoc] using counted

omit [DecidableEq κ] in
theorem Inv.setSub {x : Reader} (h : Inv s) (hx : ReaderInv s x) : Inv (s.setSub r x) := by
  refine ⟨⟨h.topic.data, h.topic.last, h.topic.begun, h.topic.pending, h.topic.newest,
    h.topic.bound, h.topic.marked, h.topic.mono⟩, fun q => ?_⟩
  have hq : ReaderInv s ((s.setSub r x).sub q) := by
    by_cases hqr : q = r
    · rw [hqr, State.setSub_sub, update_self]
      exact hx
    · rw [State.setSub_sub, update_of_ne hqr]
      exact h.sub q
  exact ⟨hq.size, hq.cur, hq.seen, hq.fresh, hq.bound, hq.bytes, hq.counted⟩

theorem inv_step (h : Inv s) (next : step s a = some t) : Inv t := by
  cases steps_of_step next with
  | write idle size => exact ⟨h.topic.write size, fun r => (h.sub r).write⟩
  | bump busy => exact ⟨h.topic.bump busy, fun r => (h.sub r).bump⟩
  | readSeq idle => exact h.setSub (h.sub _).readSeq
  | copy read => exact h.setSub ((h.sub _).copy h.topic read)
  | lostTake idle => exact h.setSub (h.sub _).lostTake

variable {size : Nat} {ctx : ρ → Nat} {as bs : List (Act κ ρ)}

theorem inv_run (run : Run step Free (init size ctx) as s) : Inv s :=
  run.invariant (inv_init size ctx) fun _ _ _ h _ next => inv_step h next

/- What an update that began at the seq `g`, when `p` was published, owes: it is still in
   progress, or it left nothing older than `p` and has stepped over all of `g`. -/
def Paid (g p : Nat) (x : Reader) : Prop :=
  (∃ cur, x.cur = some cur ∧ g ≤ cur) ∨ p ≤ x.delivered ∧ g ≤ x.cb.lastSeen

structure Owes (g p : Nat) (r : ρ) (s : State κ ρ) : Prop where
  since : g ≤ s.topic.seq
  mark : s.mark g = p
  paid : Paid g p (s.sub r)

omit [DecidableEq κ] [DecidableEq ρ] in
theorem Paid.copy {g p cur : Nat} {x : Reader} (h : TopicInv s) (hx : ReaderInv s x)
    (mark : s.mark g = p) (read : x.cur = some cur) (paid : Paid g p x) :
    Paid g p (x.copy s.topic s.written.length cur) := by
  have hc := hx.cur cur read
  obtain ⟨new, he⟩ | ⟨old, he⟩ := x.copy_cases s.topic s.written.length cur
  · rw [he]
    refine .inr ?_
    obtain ⟨c, hcur, hg⟩ | ⟨done, seen⟩ := paid
    · obtain rfl : cur = c := Option.some.inj (read.symm.trans hcur)
      have newest : p ≤ s.written.length := calc
        p = s.mark g := mark.symm
        _ ≤ s.mark s.topic.seq := h.mono g _ (le_trans hg hc) le_rfl
        _ = s.published := h.marked
        _ ≤ s.written.length := h.bound
      exact ⟨newest, hg⟩
    · exact ⟨le_trans done hx.bound, le_trans seen new.le⟩
  · rw [he]
    refine .inr ?_
    obtain ⟨c, hcur, hg⟩ | paid := paid
    · obtain rfl : cur = c := Option.some.inj (read.symm.trans hcur)
      have seen : g ≤ x.cb.lastSeen := le_trans hg old
      have before : p ≤ x.delivered := calc
        p = s.mark g := mark.symm
        _ ≤ s.mark x.cb.lastSeen := h.mono g _ seen hx.seen
        _ ≤ x.delivered := hx.fresh
      exact ⟨before, seen⟩
    · exact paid

omit [DecidableEq κ] in
theorem Owes.setSub {g p : Nat} {q : ρ} {x : Reader} (h : Owes g p r s)
    (paid : q = r → Paid g p x) : Owes g p r (s.setSub q x) := by
  refine ⟨h.since, h.mark, ?_⟩
  by_cases hq : r = q
  · rw [hq, State.setSub_sub, update_self]
    exact paid hq.symm
  · rw [State.setSub_sub, update_of_ne hq]
    exact h.paid

theorem owes_step {g p : Nat} (inv : Inv s) (h : Owes g p r s) (next : step s a = some t) :
    Owes g p r t := by
  cases steps_of_step next with
  | write idle size => exact ⟨h.since, h.mark, h.paid⟩
  | bump busy =>
    have since := h.since
    refine ⟨Nat.le_succ_of_le since, ?_, h.paid⟩
    rw [State.bump_mark, update_of_ne (by omega)]
    exact h.mark
  | readSeq idle => exact h.setSub fun _ => .inl ⟨_, rfl, h.since⟩
  | copy read =>
    refine h.setSub fun hq => ?_
    subst hq
    exact h.paid.copy inv.topic (inv.sub _) h.mark read
  | lostTake idle =>
    refine h.setSub fun hq => ?_
    subst hq
    exact h.paid

/-- An update of `r`, from the block that reads the seq in `s` to its end in `t`. -/
structure Update (r : ρ) (s : State κ ρ) (bs : List (Act κ ρ)) (t : State κ ρ) : Prop where
  run : Run step Free s (.readSeq r :: bs) t
  ended : (t.sub r).cur = none

theorem owes_run {g p : Nat} (inv : Inv s) (h : Owes g p r s) (run : Run step Free s bs t) :
    Owes g p r t :=
  (run.invariant (I := fun s => Inv s ∧ Owes g p r s) ⟨inv, h⟩
    fun _ _ _ ih _ next => ⟨inv_step ih.1 next, owes_step ih.1 ih.2 next⟩).2

theorem Update.owes (inv : Inv s) (update : Update r s bs t) :
    Owes s.topic.seq s.published r t := by
  obtain ⟨m, next, -, rest⟩ := update.run.cons_inv
  have owes : Owes s.topic.seq s.published r m := by
    cases steps_of_step next with
    | readSeq idle => exact ⟨le_rfl, inv.topic.marked, .inl ⟨_, by simp, le_rfl⟩⟩
  exact owes_run (inv_step inv next) owes rest

/-- An update leaves in the subscriber's buffer a payload published no earlier than what
was published when it began, whatever the others do meanwhile. -/
theorem update_is_fresh (run : Run step Free (init size ctx) as s)
    (update : Update r s bs t) :
    s.published ≤ (t.sub r).delivered ∧
      ((∀ c, s.publisher c = none) → s.written.length ≤ (t.sub r).delivered) ∧
      (0 < (t.sub r).delivered →
        t.written[(t.sub r).delivered - 1]? = some (t.sub r).bytes) := by
  have inv := inv_run run
  have owes := update.owes inv
  have paid : s.published ≤ (t.sub r).delivered := by
    obtain ⟨cur, busy, -⟩ | ⟨paid, -⟩ := owes.paid
    · rw [update.ended] at busy
      cases busy
    · exact paid
  refine ⟨paid, fun quiet => ?_, ?_⟩
  · obtain done | ⟨c, busy⟩ := inv.topic.newest
    · exact le_trans done paid
    · rw [quiet c] at busy
      cases busy
  · exact (inv_run (run.append update.run)).sub r |>.bytes

/-- Two publishers have written one byte each when the second of them bumps the seq. -/
def begun : State Bool Unit :=
  ((init 1 fun _ => 0).write false [1]).write true [2] |>.bump true 2

theorem run_begun :
    Run step Free (init 1 fun _ => 0) [.write false [1], .write true [2], .bump true] begun :=
  run_of_exec rfl

/-- The first bumps it too before the update copies. -/
def ended : State Bool Unit :=
  ((begun.setSub () { begun.sub () with cur := some 1 }).bump false 1).setSub ()
    ⟨⟨1, 0, 1, 0⟩, none, 2, [2], 1, 0⟩

theorem update_ended : Update () begun [.bump false, .copy ()] ended :=
  ⟨run_of_exec rfl, rfl⟩

theorem late_update_is_fresh : 2 ≤ (ended.sub ()).delivered ∧ ended.written[1]? = some [2] :=
  have fresh := update_is_fresh run_begun update_ended
  ⟨fresh.1, fresh.2.2 (by decide)⟩

/-- A subscriber's deliveries and lost messages together are never more than the
publications, and when an update ends no fewer than there were when it began. -/
theorem delivered_or_lost_once (run : Run step Free (init size ctx) as s)
    (update : Update r s bs t) (small : t.topic.seq < 2 ^ 32) :
    s.topic.seq ≤ (t.sub r).deliveries + (t.sub r).taken + (t.sub r).cb.lost.toNat ∧
      (t.sub r).deliveries + (t.sub r).taken + (t.sub r).cb.lost.toNat ≤ t.topic.seq := by
  have inv := (inv_run (run.append update.run)).sub r
  have owes := update.owes (inv_run run)
  rw [inv.counted small]
  refine ⟨?_, inv.seen⟩
  obtain ⟨cur, busy, -⟩ | ⟨-, seen⟩ := owes.paid
  · rw [update.ended] at busy
    cases busy
  · exact seen

theorem late_update_counts_once :
    1 ≤ (ended.sub ()).deliveries + (ended.sub ()).taken + (ended.sub ()).cb.lost.toNat :=
  (delivered_or_lost_once run_begun update_ended (by decide)).1

end Px4Rs.BrokerReads
