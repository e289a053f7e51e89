import Px4Rs.AtomicWaker
import Px4Rs.Ring
import Px4Rs.Runs

/-! `Channel<T, N>` used by one caller at a time, against a FIFO queue of capacity N.
The counters are words of the width of `usize` and wrap. -/
namespace Px4Rs
open Function Px4Rs.Ring Px4Rs.Runs

/- `w` is the width of `usize`. A slot is `none` while it holds no value: before its
   first write, and after a read has moved its value out. -/
structure Channel (w N : Nat) (T ω : Type*) where
  buf : Fin N → Option T
  head : BitVec w
  tail : BitVec w
  recvWaker : AtomicWaker ω
  sendWaker : AtomicWaker ω

namespace Channel
variable {w N : Nat} [NeZero N] {T ω : Type*}

def new : Channel w N T ω := ⟨fun _ => none, 0, 0, .new, .new⟩

/-- `len`: the wrapping difference of the counters. -/
def len (c : Channel w N T ω) : BitVec w := c.tail - c.head

/-- The slot of a counter, `counter % N`. -/
def idx (x : BitVec w) : Fin N := Fin.ofNat N x.toNat

/-- `try_send`: the value back, or the channel after the write and the waker invoked. -/
def trySend (c : Channel w N T ω) (v : T) : Except T (Channel w N T ω × Option ω) :=
  if N ≤ (c.tail - c.head).toNat then .error v
  else
    let woken := c.recvWaker.wake
    .ok ({ c with
      buf := update c.buf (idx c.tail) (some v)
      tail := c.tail + 1
      recvWaker := woken.1 }, woken.2)

/-- `try_recv`: what the slot held, the channel after it was moved out and the waker
invoked. -/
def tryRecv (c : Channel w N T ω) : Option (Option T × Channel w N T ω × Option ω) :=
  if c.head = c.tail then none
  else
    let woken := c.sendWaker.wake
    some (c.buf (idx c.head), { c with
      buf := update c.buf (idx c.head) none
      head := c.head + 1
      sendWaker := woken.1 }, woken.2)

inductive Op (T : Type*) where
  | trySend (v : T)
  | tryRecv

structure State (w N : Nat) (T ω : Type*) where
  chan : Channel w N T ω
  queue : Fifo T N
  received : Nat

def State.new : State w N T ω := ⟨Channel.new, Fifo.empty, 0⟩

def step (s : State w N T ω) : Op T → Option (State w N T ω)
  | .trySend v => some
      { s with
        chan := match s.chan.trySend v with
          | .ok r => r.1
          | .error _ => s.chan
        queue := match s.queue.push v with
          | .ok q => q
          | .error _ => s.queue }
  | .tryRecv => some
      { chan := match s.chan.tryRecv with
          | some r => r.2.1
          | none => s.chan
        queue := match s.queue.pop with
          | some r => r.2
          | none => s.queue
        received := match s.queue.pop with
          | some _ => s.received + 1
          | none => s.received }

/-- The next call returns what the queue returns, and a send writes a slot that holds
no value. -/
def Agrees (s : State w N T ω) : Op T → Prop
  | .trySend v =>
    (s.chan.trySend v).isOk = (s.queue.push v).isOk ∧
      ((s.chan.trySend v).isOk = true → s.chan.buf (idx s.chan.tail) = none)
  | .tryRecv => s.chan.tryRecv.map Prod.fst = s.queue.pop.map fun r => some r.1

/-- A send accepted less than `2 ^ w % N` after the tail word wrapped finds fewer than
`2 ^ w % N` values live. -/
def WrapClear (s : State w N T ω) : Op T → Prop
  | .trySend _ => s.chan.len.toNat < N → s.chan.tail.toNat < 2 ^ w % N →
      s.chan.len.toNat < 2 ^ w % N
  | .tryRecv => True

/- The counters are the numbers of values received and sent, and the slots between them
   hold the queue. -/
structure Inv (s : State w N T ω) : Prop where
  head : s.chan.head = BitVec.ofNat w s.received
  tail : s.chan.tail = BitVec.ofNat w (s.received + s.queue.items.length)
  holds : Holds s.chan.buf (fun x => idx (BitVec.ofNat w x)) s.received s.queue.items

theorem inv_new : Inv (State.new : State w N T ω) :=
  ⟨rfl, rfl, holds_empty _ _⟩

theorem idx_ofNat (x : Nat) : (idx (BitVec.ofNat w x) : Fin N).val = slotOf w N x := by
  simp [idx, slotOf]

variable {s t : State w N T ω}

theorem Inv.len (h : Inv s) (hN : N < 2 ^ w) : s.chan.len.toNat = s.queue.items.length := by
  have := s.queue.bounded
  rw [Channel.len, h.head, h.tail, toNat_sub_ofNat (by omega) (by omega), Nat.add_sub_cancel_left]

/-- An accepted send finds its slot free exactly when the wrap did not bring it onto the
slot of a live value. -/
theorem Inv.free_iff (h : Inv s) (hN : N < 2 ^ w) (room : s.queue.items.length < N) :
    s.chan.buf (idx s.chan.tail) = none ↔
      (s.chan.tail.toNat < 2 ^ w % N → s.queue.items.length < 2 ^ w % N) := by
  have same (i : Nat) (hi : i < s.queue.items.length) :
      (idx (BitVec.ofNat w (s.received + i)) : Fin N) =
          idx (BitVec.ofNat w (s.received + s.queue.items.length)) ↔
        s.queue.items.length - i = 2 ^ w % N ∧ s.chan.tail.toNat < 2 ^ w % N := by
    rw [Fin.ext_iff, idx_ofNat, idx_ofNat, slotOf_eq_iff (by omega) (by omega) hN, h.tail,
      BitVec.toNat_ofNat, Nat.add_sub_add_left]
  have clear : s.chan.buf (idx s.chan.tail) = none ↔ ∀ i < s.queue.items.length,
      (idx (BitVec.ofNat w (s.received + i)) : Fin N) ≠
        idx (BitVec.ofNat w (s.received + s.queue.items.length)) := by
    rw [h.tail]
    exact h.holds.free_iff
  rw [clear]
  constructor
  · intro hf hw
    by_contra hn
    have hi : s.queue.items.length - 2 ^ w % N < s.queue.items.length := by omega
    exact hf _ hi ((same _ hi).mpr ⟨by omega, hw⟩)
  · intro hw i hi he
    obtain ⟨hd, hlt⟩ := (same i hi).mp he
    have := hw hlt
    omega

theorem Inv.empty_iff (h : Inv s) (hN : N < 2 ^ w) :
    s.chan.head = s.chan.tail ↔ s.queue.items = [] := by
  have hl := h.len hN
  rw [← List.length_eq_zero_iff, ← hl, Channel.len]
  constructor
  · intro he
    simp [he]
  · intro hz
    have : s.chan.tail - s.chan.head = 0#w := BitVec.eq_of_toNat_eq (by simpa using hz)
    rw [BitVec.sub_eq_iff_eq_add.mp this, BitVec.zero_add]

omit [NeZero N] in
theorem Inv.fits [NeZero N] (h : Inv s) (hN : N < 2 ^ w) :
    s.chan.len.toNat < N ↔ s.queue.items.length < N := by
  rw [h.len hN]

theorem trySend_of_lt {c : Channel w N T ω} (h : c.len.toNat < N) (v : T) :
    c.trySend v = .ok ({ c with
      buf := update c.buf (idx c.tail) (some v)
      tail := c.tail + 1
      recvWaker := c.recvWaker.wake.1 }, c.recvWaker.wake.2) := by
  simp only [trySend, Channel.len] at h ⊢
  rw [if_neg (by omega)]

theorem trySend_of_le {c : Channel w N T ω} (h : N ≤ c.len.toNat) (v : T) :
    c.trySend v = .error v :=
  if_pos h

theorem agrees_iff (h : Inv s) (hN : N < 2 ^ w) (op : Op T) : Agrees s op ↔ WrapClear s op := by
  have hl := h.len hN
  cases op with
  | trySend v =>
    obtain room | full := Nat.lt_or_ge s.queue.items.length N
    · simp only [Agrees, WrapClear, trySend_of_lt (hl ▸ room), Fifo.push_of_lt room, Except.isOk,
        Except.toBool, true_and, forall_const, h.free_iff hN room, hl, room]
    · simp [Agrees, WrapClear, trySend_of_le (hl ▸ full), Fifo.push_of_le full, Except.isOk,
        Except.toBool, hl, Nat.not_lt.mpr full]
  | tryRecv =>
    simp only [Agrees, WrapClear, iff_true, tryRecv, h.empty_iff hN]
    obtain ⟨chan, ⟨items, bounded⟩, received⟩ := s
    cases items with
    | nil => simp [Fifo.pop]
    | cons v items =>
      have stored := h.holds.pop.1
      rw [← h.head] at stored
      simpa [Fifo.pop] using stored

theorem inv_step {op : Op T} (hN : N < 2 ^ w) (h : Inv s) (g : Agrees s op)
    (next : step s op = some t) : Inv t := by
  have hl := h.len hN
  cases op with
  | trySend v =>
    cases next
    obtain room | full := Nat.lt_or_ge s.queue.items.length N
    · have free : s.chan.buf (idx s.chan.tail) = none :=
        g.2 (by simp [trySend_of_lt (hl ▸ room), Except.isOk, Except.toBool])
      rw [trySend_of_lt (hl ▸ room), Fifo.push_of_lt room]
      refine ⟨h.head, ?_, ?_⟩
      · simp [h.tail, BitVec.ofNat_add, BitVec.add_assoc]
      · rw [h.tail] at free ⊢
        exact h.holds.push free v
    · rw [trySend_of_le (hl ▸ full), Fifo.push_of_le full]
      exact h
  | tryRecv =>
    cases next
    have empty := h.empty_iff hN
    obtain ⟨chan, ⟨items, bounded⟩, received⟩ := s
    cases items with
    | nil =>
      rw [tryRecv, if_pos (empty.mpr rfl)]
      exact h
    | cons v items =>
      rw [tryRecv, if_neg (by simp [empty])]
      have head : chan.head = BitVec.ofNat w received := h.head
      have tail : chan.tail = BitVec.ofNat w (received + (items.length + 1)) := h.tail
      refine ⟨?_, ?_, ?_⟩
      · simp [head, Fifo.pop, BitVec.ofNat_add]
      · simp [tail, Fifo.pop, Nat.add_comm, Nat.add_left_comm]
      · have rest := h.holds.pop.2
        rw [← h.head] at rest
        exact rest

/-- The channel follows the queue through the next run of calls exactly when no send of
it meets a value left behind by the wrap. -/
theorem run_agrees_iff (hN : N < 2 ^ w) {ops : List (Op T)} :
    Run step Agrees (State.new : State w N T ω) ops s ↔ Run step WrapClear State.new ops s :=
  run_congr inv_new (fun _ _ _ => inv_step hN) fun _ op _ h _ => agrees_iff h hN op

def pairs (v : T) : Nat → List (Op T)
  | 0 => []
  | k + 1 => pairs v k ++ [.trySend v] ++ [.tryRecv]

def fillAfter (v : T) (k : Nat) : Nat → List (Op T)
  | 0 => pairs v k
  | m + 1 => fillAfter v k m ++ [.trySend v]

theorem queue_pairs {P : State w N T ω → Op T → Prop} {v : T} {k : Nat}
    (h : Run step P State.new (pairs v k) s) : s.queue.items = [] ∧ s.received = k := by
  induction k generalizing s with
  | zero =>
    rw [h.nil_inv]
    exact ⟨rfl, rfl⟩
  | succ k ih =>
    obtain ⟨u, h, _, next⟩ := h.snoc_inv
    obtain ⟨r, h, _, prev⟩ := h.snoc_inv
    obtain ⟨he, hk⟩ := ih h
    cases prev
    cases next
    have room : r.queue.items.length < N := by simp [he, Nat.pos_of_neZero]
    simp [Fifo.push_of_lt room, Fifo.pop, he, hk]

theorem queue_fillAfter {P : State w N T ω → Op T → Prop} {v : T} {k m : Nat} (hm : m ≤ N)
    (h : Run step P State.new (fillAfter v k m) s) :
    s.queue.items.length = m ∧ s.received = k := by
  induction m generalizing s with
  | zero => simpa using queue_pairs h
  | succ m ih =>
    obtain ⟨r, h, _, next⟩ := h.snoc_inv
    obtain ⟨hl, hk⟩ := ih (by omega) h
    cases next
    have room : r.queue.items.length < N := by omega
    simp [Fifo.push_of_lt room, hl, hk]

theorem run_pairs (hN : N < 2 ^ w) (v : T) (k : Nat) :
    ∃ s : State w N T ω, Run step Agrees State.new (pairs v k) s := by
  induction k with
  | zero => exact ⟨_, .nil⟩
  | succ k ih =>
    obtain ⟨s, h⟩ := ih
    have inv := h.invariant inv_new fun _ _ _ => inv_step hN
    have empty : s.chan.len.toNat = 0 := by simp [inv.len hN, (queue_pairs h).1]
    have sent : Agrees s (.trySend v) :=
      (agrees_iff inv hN _).mpr fun _ hw => by omega
    have h := h.snoc sent rfl
    have inv := h.invariant inv_new fun _ _ _ => inv_step hN
    exact ⟨_, h.snoc ((agrees_iff inv hN _).mpr trivial) rfl⟩

/-- When `N` does not divide the range of the counters, the first send after the wrap
that finds `2 ^ w % N` values live writes the slot of the oldest one. -/
theorem not_agrees_fillAfter (hN : N < 2 ^ w) (hr : 2 ^ w % N ≠ 0) (v : T) :
    ¬ ∃ s : State w N T ω,
      Run step Agrees State.new (fillAfter v (2 ^ w - 2 ^ w % N) (2 ^ w % N + 1)) s := by
  rintro ⟨t, h⟩
  obtain ⟨s, h, agrees, _⟩ := h.snoc_inv
  have inv := h.invariant inv_new fun _ _ _ => inv_step hN
  have hlt := Nat.mod_lt (2 ^ w) (Nat.pos_of_neZero N)
  obtain ⟨hl, hk⟩ := queue_fillAfter (by omega) h
  have tail : s.chan.tail.toNat = 0 := by
    rw [inv.tail, hl, hk, BitVec.toNat_ofNat, Nat.sub_add_cancel (Nat.mod_le _ _), Nat.mod_self]
  have clear := (agrees_iff inv hN _).mp agrees
  simp only [WrapClear, inv.len hN, hl, tail] at clear
  omega

/-- Exactly which runs keep the channel a queue: those in which no send meets a value left
behind by the wrap; and all runs do exactly when `N` divides the range of the counters. -/
theorem fifo_across_wrap (hN : N < 2 ^ w) :
    (∀ (ops : List (Op T)) (s : State w N T ω),
      Run step Agrees State.new ops s ↔ Run step WrapClear State.new ops s) ∧
    (Nonempty T →
      ((∀ ops, ∃ s : State w N T ω, Run step Agrees State.new ops s) ↔ N ∣ 2 ^ w)) := by
  refine ⟨fun ops s => run_agrees_iff hN, fun ⟨v⟩ => ⟨fun all => ?_, fun dvd ops => ?_⟩⟩
  · by_contra hd
    exact not_agrees_fillAfter hN (fun hr => hd (Nat.dvd_of_mod_eq_zero hr)) v (all _)
  · have clear (s : State w N T ω) (op : Op T) : WrapClear s op := by
      cases op <;> simp [WrapClear, Nat.mod_eq_zero_of_dvd dvd]
    have total : ∃ s, Run step WrapClear (State.new : State w N T ω) ops s := by
      induction ops using List.reverseRecOn with
      | nil => exact ⟨_, .nil⟩
      | append_singleton ops op ih =>
        obtain ⟨s, h⟩ := ih
        cases op <;> exact ⟨_, h.snoc (clear _ _) rfl⟩
    obtain ⟨s, h⟩ := total
    exact ⟨s, (run_agrees_iff hN).mpr h⟩

theorem fifo_across_wrap_sixteen :
    ∃ s : State 32 16 Nat Unit, Run step Agrees State.new (fillAfter 7 (2 ^ 32 - 3) 9) s :=
  ((fifo_across_wrap (by decide)).2 ⟨0⟩).mpr (by decide) _

/-- Capacity 3 on a 32-bit target: after 2 ^ 32 - 1 values sent and received, 1 and 2 are
sent and accepted, and the next receive returns 2. -/
theorem wrap_overwrites :
    ∃ s : State 32 3 Nat Unit,
      Run step Free State.new (pairs 0 (2 ^ 32 - 1) ++ [.trySend 1] ++ [.trySend 2]) s ∧
      s.queue.items = [1, 2] ∧ s.chan.tryRecv.map Prod.fst = some (some 2) ∧
      ¬ ∃ s : State 32 3 Nat Unit, Run step Agrees State.new (fillAfter 0 (2 ^ 32 - 1) 2) s := by
  obtain ⟨r, run⟩ := run_pairs (w := 32) (N := 3) (ω := Unit) (by decide) 0 (2 ^ 32 - 1)
  have inv := run.invariant inv_new fun _ _ _ => inv_step (by decide)
  obtain ⟨empty, received⟩ := queue_pairs run
  have head : r.chan.head = 0xffffffff#32 := by rw [inv.head, received]; rfl
  have tail : r.chan.tail = 0xffffffff#32 := by rw [inv.tail, received, empty]; rfl
  refine ⟨_, (run.free.snoc trivial rfl).snoc trivial rfl, ?_, ?_,
    not_agrees_fillAfter (by decide) (by decide) 0⟩
  · simp [Fifo.push, empty]
  · simp [trySend, tryRecv, head, tail, idx]

end Channel
end Px4Rs
