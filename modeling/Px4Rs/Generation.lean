import Px4Rs.Broker
import Px4Rs.Runs

/-! One publisher and one subscriber of a topic. The data and the seq are behind two locks,
so the blocks of a publication and of `sub_cb_update` interleave. -/
namespace Px4Rs.Generation
open Px4Rs.Broker Px4Rs.Runs

inductive Writer where
  | idle | bump | notify
deriving DecidableEq

/-- The next block of the `sub_cb_update` in progress, with the seq it read. -/
inductive Reader where
  | idle
  | copy (cur : Nat)
deriving DecidableEq

/-- A successful update: the generation recorded, the bytes copied, and the publication
that wrote them. -/
structure Delivery where
  generation : Nat
  origin : Nat
  bytes : List (BitVec 8)
deriving DecidableEq

/- `written` holds the payloads in the order they were written: publication `k`, counted
   from 1, wrote `written[k - 1]`, and its bump produces generation `k`. -/
structure State where
  topic : Topic
  cb : SubCb
  writer : Writer
  reader : Reader
  written : List (List (BitVec 8))
  deliveries : List Delivery
  woken : List Nat

def init (size : Nat) (callbacks : List Nat) (ctx : Nat) : State where
  topic := { Topic.new size with callbacks }
  cb := SubCb.new (Topic.new size) ctx
  writer := .idle
  reader := .idle
  written := []
  deliveries := []
  woken := []

/-- `write` begins an `advertise` or a `publish`, and `readSeq` a `sub_cb_update`. -/
inductive Act where
  | write (payload : List (BitVec 8))
  | bump
  | notify
  | readSeq
  | copy (cur : Nat)

def step (s : State) : Act → Option State
  | .write payload =>
    if s.writer = .idle ∧ payload.length = s.topic.size then
      some { s with
        topic := s.topic.write payload, writer := .bump, written := s.written ++ [payload] }
    else none
  | .bump =>
    if s.writer = .bump then some { s with topic := s.topic.bump, writer := .notify } else none
  | .notify =>
    if s.writer = .notify then
      some { s with writer := .idle, woken := s.woken ++ s.topic.notify }
    else none
  | .readSeq =>
    if s.reader = .idle then some { s with reader := .copy s.topic.seq } else none
  | .copy cur =>
    if s.reader = .copy cur then
      match s.cb.copyRecord s.topic cur with
      | some (bytes, cb) => some
          { s with
            cb, reader := .idle
            deliveries := ⟨cur, s.written.length, bytes⟩ :: s.deliveries }
      | none => some { s with reader := .idle }
    else none

/-- Every update copied what the publication of its generation wrote, and none of them
the same publication as another. -/
structure Exact (s : State) : Prop where
  agree : ∀ d ∈ s.deliveries, d.origin = d.generation
  once : (s.deliveries.map Delivery.origin).Nodup

/-- An update that will deliver copies while the seq is still the one it read and no
publication has written its data without having bumped the seq. -/
def SeqUnmoved (s : State) : Act → Prop
  | .copy cur => s.cb.lastSeen < cur → s.topic.seq = cur ∧ s.writer ≠ .bump
  | _ => True

instance (s : State) : ∀ a, Decidable (SeqUnmoved s a)
  | .copy cur =>
    inferInstanceAs (Decidable (s.cb.lastSeen < cur → s.topic.seq = cur ∧ s.writer ≠ .bump))
  | .write _ | .bump | .notify | .readSeq => .isTrue trivial

/-- The seq counts the publications but the one that has still to bump it. -/
structure Inv (s : State) : Prop where
  seq : s.written.length = s.topic.seq + if s.writer = .bump then 1 else 0
  cur : ∀ cur, s.reader = .copy cur → cur ≤ s.topic.seq
  size : s.cb.size = s.topic.size
  data : s.topic.data.length = s.topic.size
  last : ∀ p, s.written.getLast? = some p → s.topic.data = p
  seen : ∀ d ∈ s.deliveries, d.generation ≤ s.cb.lastSeen
  apart : (s.deliveries.map Delivery.generation).Nodup
  bytes : ∀ d ∈ s.deliveries, 0 < d.generation ∧ s.written[d.origin - 1]? = some d.bytes

theorem inv_init (size : Nat) (callbacks : List Nat) (ctx : Nat) :
    Inv (init size callbacks ctx) := by
  constructor <;> simp [init, Topic.new, SubCb.new]

theorem copy_of_length {n : Nat} {src dst : List (BitVec 8)} (hs : src.length = n)
    (hd : dst.length = n) : copy n src dst = src := by
  simp [copy, ← hs, hd ▸ hs]

variable {s t : State}

theorem Inv.copy_cases {cur : Nat} (h : Inv s) (next : step s (.copy cur) = some t) :
    s.reader = .copy cur ∧
      (s.cb.lastSeen < cur ∧ t = { s with
          cb := s.cb.stepTo cur
          reader := .idle
          deliveries := ⟨cur, s.written.length, s.topic.data⟩ :: s.deliveries } ∨
        ¬ s.cb.lastSeen < cur ∧ t = { s with reader := .idle }) := by
  simp only [step, SubCb.copyRecord, Option.ite_none_right_eq_some] at next
  obtain ⟨hr, next⟩ := next
  refine ⟨hr, ?_⟩
  have all : s.topic.data.take s.cb.size = s.topic.data := by simp [h.size, ← h.data]
  split at next
  · rename_i he
    split at he
    · rename_i new
      cases he
      rw [all] at next
      cases next
      exact .inl ⟨new, rfl⟩
    · cases he
  · rename_i he
    split at he
    · cases he
    · rename_i old
      cases next
      exact .inr ⟨old, rfl⟩

theorem inv_step {a : Act} (h : Inv s) (next : step s a = some t) : Inv t := by
  cases a with
  | write payload =>
    simp only [step, Option.ite_none_right_eq_some, Option.some.injEq] at next
    obtain ⟨⟨hw, hp⟩, rfl⟩ := next
    obtain ⟨seq, cur, size, data, last, seen, apart, bytes⟩ := h
    have hdata : copy s.topic.size payload s.topic.data = payload := copy_of_length hp data
    refine ⟨by simp [seq, hw], cur, size, ?_, ?_, seen, apart, fun d hd => ⟨(bytes d hd).1, ?_⟩⟩
    · simp [hdata, hp]
    · simp [hdata]
    · have stored := (bytes d hd).2
      rw [List.getElem?_append_left (List.getElem?_eq_some_iff.mp stored).1]
      exact stored
  | bump =>
    simp only [step, Option.ite_none_right_eq_some, Option.some.injEq] at next
    obtain ⟨hw, rfl⟩ := next
    obtain ⟨seq, cur, size, data, last, seen, apart, bytes⟩ := h
    exact ⟨by simp [seq, hw], fun c hc => Nat.le_succ_of_le (cur c hc), size, data, last, seen,
      apart, bytes⟩
  | notify =>
    simp only [step, Option.ite_none_right_eq_some, Option.some.injEq] at next
    obtain ⟨hw, rfl⟩ := next
    obtain ⟨seq, cur, size, data, last, seen, apart, bytes⟩ := h
    exact ⟨by simp [seq, hw], cur, size, data, last, seen, apart, bytes⟩
  | readSeq =>
    simp only [step, Option.ite_none_right_eq_some, Option.some.injEq] at next
    obtain ⟨hr, rfl⟩ := next
    obtain ⟨seq, cur, size, data, last, seen, apart, bytes⟩ := h
    exact ⟨seq, by simp, size, data, last, seen, apart, bytes⟩
  | copy c =>
    obtain ⟨hr, ⟨new, rfl⟩ | ⟨_, rfl⟩⟩ := h.copy_cases next
    · obtain ⟨seq, cur, size, data, last, seen, apart, bytes⟩ := h
      have hcur := cur c hr
      refine ⟨seq, by simp, size, data, last, ?_, ?_, ?_⟩
      · simp only [List.mem_cons, forall_eq_or_imp, SubCb.stepTo]
        exact ⟨Nat.le_refl _, fun d hd => Nat.le_of_lt (Nat.lt_of_le_of_lt (seen d hd) new)⟩
      · simp only [List.map_cons, List.nodup_cons, List.mem_map, not_exists, not_and]
        refine ⟨fun d hd he => ?_, apart⟩
        have := seen d hd
        omega
      · simp only [List.mem_cons, forall_eq_or_imp]
        refine ⟨⟨by omega, ?_⟩, bytes⟩
        have hne : s.written ≠ [] := by
          rintro he
          simp [he] at seq
          omega
        rw [← List.getLast?_eq_getElem?, List.getLast?_eq_some_getLast hne,
          last _ (List.getLast?_eq_some_getLast hne)]
    · obtain ⟨seq, cur, size, data, last, seen, apart, bytes⟩ := h
      exact ⟨seq, by simp, size, data, last, seen, apart, bytes⟩

theorem inv_run {P : State → Act → Prop} {size ctx : Nat} {callbacks : List Nat}
    {as : List Act} (h : Run step P (init size callbacks ctx) as s) : Inv s :=
  h.invariant (inv_init size callbacks ctx) fun _ _ _ hs _ => inv_step hs

/-- Generations are never repeated, so agreement is all there is to check. -/
theorem Inv.exact (h : Inv s) (agree : ∀ d ∈ s.deliveries, d.origin = d.generation) :
    Exact s := by
  refine ⟨agree, ?_⟩
  rw [List.map_congr_left agree]
  exact h.apart

/-- A step under the condition adds only exact deliveries, and one outside it adds a
delivery that is not. -/
theorem Inv.exact_step {a : Act} (h : Inv s) (next : step s a = some t) :
    Exact t ↔ Exact s ∧ SeqUnmoved s a := by
  have ht := inv_step h next
  have kept (he : t.deliveries = s.deliveries) (g : SeqUnmoved s a) :
      Exact t ↔ Exact s ∧ SeqUnmoved s a := by
    constructor
    · exact fun x => ⟨⟨he ▸ x.agree, he ▸ x.once⟩, g⟩
    · exact fun ⟨x, _⟩ => ⟨he ▸ x.agree, he ▸ x.once⟩
  cases a with
  | copy cur =>
    obtain ⟨hr, ⟨new, rfl⟩ | ⟨old, rfl⟩⟩ := h.copy_cases next
    · have seq := h.seq
      have hcur := h.cur cur hr
      constructor
      · rintro ⟨agree, once⟩
        simp only [List.mem_cons, forall_eq_or_imp] at agree
        refine ⟨h.exact agree.2, fun _ => ?_⟩
        have := agree.1
        split at seq
        · omega
        · exact ⟨by omega, ‹_›⟩
      · rintro ⟨x, g⟩
        obtain ⟨hs, hw⟩ := g new
        apply ht.exact
        simp only [List.mem_cons, forall_eq_or_imp]
        exact ⟨by simpa [hw, hs] using seq, x.agree⟩
    · exact kept rfl fun new => absurd new old
  | _ =>
    refine kept ?_ trivial
    simp only [step, Option.ite_none_right_eq_some, Option.some.injEq] at next
    obtain ⟨_, rfl⟩ := next
    rfl

/-- The runs whose deliveries all agree with their generation, none repeated, are those
in which every update that delivers copies while the seq is the one it read and no
publication is between its two blocks. What is delivered is always the whole payload of
some publication. -/
theorem exact_iff {size ctx : Nat} {callbacks : List Nat} {as : List Act} :
    (Run step SeqUnmoved (init size callbacks ctx) as s ↔
      Run step Free (init size callbacks ctx) as s ∧ Exact s) ∧
    (Run step Free (init size callbacks ctx) as s →
      ∀ d ∈ s.deliveries, s.written[d.origin - 1]? = some d.bytes) := by
  refine ⟨⟨fun h => ⟨h.free, ?_⟩, ?_⟩, fun h d hd => ((inv_run h).bytes d hd).2⟩
  · have both : Inv s ∧ Exact s := by
      refine h.invariant (I := fun s => Inv s ∧ Exact s) ⟨inv_init _ _ _, ?_⟩ ?_
      · exact ⟨by simp [init], by simp [init]⟩
      · rintro s a t ⟨inv, x⟩ g next
        exact ⟨inv_step inv next, (inv.exact_step next).mpr ⟨x, g⟩⟩
    exact both.2
  · rintro ⟨h, x⟩
    induction h with
    | nil => exact .nil
    | snoc run _ next ih =>
      obtain ⟨x, g⟩ := ((inv_run run).exact_step next).mp x
      exact (ih x).snoc g next

/-- One publication delivered, and a second one missed by an update before its bump. -/
theorem exact_iff_in_turn :
    ∃ s, Run step SeqUnmoved (init 1 [] 7)
        [.write [1], .bump, .notify, .readSeq, .copy 1, .write [2], .readSeq, .copy 1] s ∧
      Exact s := by
  obtain ⟨s, run, _⟩ := exists_run step SeqUnmoved (init 1 [] 7)
    [.write [1], .bump, .notify, .readSeq, .copy 1, .write [2], .readSeq, .copy 1]
    (fun _ => true) rfl
  exact ⟨s, run, (exact_iff.1.mp run).2⟩

/-- An update between the data write and the bump of the second publication delivers its
payload as generation 1, and the next update delivers it again as generation 2. -/
theorem second_payload_delivered_twice :
    ∃ s, Run step Free (init 1 [] 7)
        [.write [1], .bump, .notify, .write [2], .readSeq, .copy 1, .bump, .notify, .readSeq,
          .copy 2] s ∧
      s.deliveries = [⟨2, 2, [2]⟩, ⟨1, 2, [2]⟩] ∧ ¬ Exact s := by
  obtain ⟨s, run, hs⟩ := exists_run step Free (init 1 [] 7)
    [.write [1], .bump, .notify, .write [2], .readSeq, .copy 1, .bump, .notify, .readSeq,
      .copy 2]
    (fun s => s.deliveries = [⟨2, 2, [2]⟩, ⟨1, 2, [2]⟩]) rfl
  have twice : s.deliveries = [⟨2, 2, [2]⟩, ⟨1, 2, [2]⟩] := by simpa using hs
  exact ⟨s, run, twice, fun x => by simpa [twice] using x.once⟩

end Px4Rs.Generation
