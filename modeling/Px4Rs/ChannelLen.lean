import Px4Rs.ChannelThreads

/-! `Channel::len`, `is_empty` and `is_full` called by any number of threads while one
producer and one consumer use the channel. Each of them loads `tail` and then `head`. -/
namespace Px4Rs.ChannelLen
open Px4Rs.Runs Px4Rs.Ring Px4Rs.Channel Function
variable {w N : Nat} [NeZero N] {T ω κ : Type*} [DecidableEq κ]

inductive Query where
  | len | isEmpty | isFull
deriving DecidableEq

/- The next operation of a thread that looks at the channel. `seen` is history, the numbers
   of values that were live at the moments since its call began, and so are `sent` and
   `received`, the numbers of values that had been sent and received when it loaded `tail`. -/
inductive Watch (w : Nat) where
  | idle
  | loadTail (q : Query) (seen : List Nat)
  | loadHead (q : Query) (tail : BitVec w) (sent received : Nat) (seen : List Nat)

structure Call (w : Nat) where
  query : Query
  value : BitVec w
  seen : List Nat
deriving DecidableEq

structure State (w N : Nat) (T ω κ : Type*) where
  chan : ChannelThreads.State w N T ω
  watch : κ → Watch w
  calls : List (Call w)

def init : State w N T ω κ where
  chan := ChannelThreads.init
  watch := fun _ => .idle
  calls := []

inductive Act (T ω κ : Type*) where
  | chan (a : ChannelThreads.Act T ω)
  | call (o : κ) (q : Query)
  | loadTail (o : κ)
  | loadHead (o : κ)

/-- A moment at which `live` values are in the channel. -/
def Watch.see (live : Nat) : Watch w → Watch w
  | .idle => .idle
  | .loadTail q seen => .loadTail q (seen ++ [live])
  | .loadHead q tail sent received seen => .loadHead q tail sent received (seen ++ [live])

def step (s : State w N T ω κ) : Act T ω κ → Option (State w N T ω κ)
  | .chan a =>
    (ChannelThreads.step s.chan a).map fun c =>
      { s with chan := c, watch := fun o => (s.watch o).see c.live }
  | .call o q =>
    match s.watch o with
    | .idle => some { s with watch := update s.watch o (.loadTail q [s.chan.live]) }
    | _ => none
  | .loadTail o =>
    match s.watch o with
    | .loadTail q seen =>
      some { s with
        watch := update s.watch o
          (.loadHead q s.chan.chan.tail s.chan.sent.length s.chan.received.length seen) }
    | _ => none
  | .loadHead o =>
    match s.watch o with
    | .loadHead q tail _ _ seen =>
      some { s with
        watch := update s.watch o .idle
        calls := s.calls ++ [⟨q, tail - s.chan.chan.head, seen⟩] }
    | _ => none

/-- `len` is in range, `is_empty` (`len() == 0`) is true only of a channel that was empty at
some moment of the call, and `is_full` (`len() >= N`) only of one that was full. -/
def Call.Right (N : Nat) (c : Call w) : Prop :=
  match c.query with
  | .len => c.value.toNat ≤ N
  | .isEmpty => c.value = 0#w → 0 ∈ c.seen
  | .isFull => N ≤ c.value.toNat → N ∈ c.seen

instance (N : Nat) (c : Call w) : Decidable (c.Right N) := by
  unfold Call.Right
  cases c.query <;> exact inferInstance

def AllRight (s : State w N T ω κ) : Prop := ∀ c ∈ s.calls, c.Right N

/-- Between the two loads of a call nothing was sent, or nothing was received. -/
def LoadsTogether (s : State w N T ω κ) : Act T ω κ → Prop
  | .loadHead o =>
    match s.watch o with
    | .loadHead _ _ sent received _ =>
      s.chan.sent.length = sent ∨ s.chan.received.length = received
    | _ => True
  | _ => True

variable {s t : State w N T ω κ} {a : Act T ω κ}

/-! What a thread knows between its two loads. -/

def Watch.Knows (N n r : Nat) : Watch w → Prop
  | .loadHead _ tail sent received seen =>
    sent ≤ n ∧ tail = BitVec.ofNat w sent ∧ received ≤ r ∧ received ≤ sent ∧
      sent ≤ received + N ∧ sent - received ∈ seen
  | _ => True

def Watch.Sees (live : Nat) : Watch w → Prop
  | .idle => True
  | .loadTail _ seen | .loadHead _ _ _ _ seen => live ∈ seen

omit [NeZero N] in
theorem Watch.Knows.see {x : Watch w} {n n' r r' : Nat} (h : x.Knows N n r) (hn : n ≤ n')
    (hr : r ≤ r') (live : Nat) : (x.see live).Knows N n' r' := by
  cases x with
  | loadHead q tail sent received seen =>
    obtain ⟨older, loaded, older', le, bound, mem⟩ := h
    exact ⟨by omega, loaded, by omega, le, bound, by simp [mem]⟩
  | idle | loadTail _ _ => trivial

theorem Watch.sees_see (x : Watch w) (live : Nat) : (x.see live).Sees live := by
  cases x <;> simp [Watch.see, Watch.Sees]

structure Inv (s : State w N T ω κ) : Prop where
  counts : ChannelThreads.Counts s.chan
  knows : ∀ o, (s.watch o).Knows N s.chan.sent.length s.chan.received.length
  sees : ∀ o, (s.watch o).Sees s.chan.live

omit [NeZero N] [DecidableEq κ] in
theorem inv_init : Inv (init : State w N T ω κ) :=
  ⟨ChannelThreads.counts_init, fun _ => trivial, fun _ => trivial⟩

omit [NeZero N] in
theorem Inv.look (inv : Inv s) (o : κ) {x : Watch w} (calls : List (Call w))
    (knows : x.Knows N s.chan.sent.length s.chan.received.length) (sees : x.Sees s.chan.live) :
    Inv { s with watch := update s.watch o x, calls } := by
  refine ⟨inv.counts, fun p => ?_, fun p => ?_⟩ <;> by_cases hp : p = o
  · simpa [hp] using knows
  · simpa [update_of_ne hp] using inv.knows p
  · simpa [hp] using sees
  · simpa [update_of_ne hp] using inv.sees p

theorem inv_step (hN : N < 2 ^ w) (inv : Inv s) (next : step s a = some t) : Inv t := by
  cases a with
  | chan a =>
    obtain ⟨c, moved, rfl⟩ := Option.map_eq_some_iff.mp next
    obtain ⟨sent, received⟩ := ChannelThreads.grows_step moved
    exact ⟨ChannelThreads.counts_step hN inv.counts moved,
      fun o => (inv.knows o).see sent received _, fun o => (s.watch o).sees_see _⟩
  | call o q =>
    simp only [step] at next
    split at next <;> cases next
    exact inv.look o s.calls trivial (List.mem_singleton_self _)
  | loadTail o =>
    simp only [step] at next
    split at next <;> cases next
    rename_i q seen at_load
    have here := inv.sees o
    rw [at_load] at here
    refine inv.look o s.calls ?_ here
    exact ⟨le_rfl, inv.counts.tail, le_rfl, inv.counts.le, inv.counts.bound, here⟩
  | loadHead o =>
    simp only [step] at next
    split at next <;> cases next
    exact inv.look o _ trivial trivial

theorem inv_run (hN : N < 2 ^ w) {as : List (Act T ω κ)} (run : Run step Free init as s) :
    Inv s :=
  run.invariant inv_init fun _ _ _ inv _ next => inv_step hN inv next

/-! The answers. -/

omit [NeZero N] in
theorem right_of_live (q : Query) {value : BitVec w} {live : Nat} {seen : List Nat}
    (same : value.toNat = live) (bound : live ≤ N) (mem : live ∈ seen) :
    Call.Right N ⟨q, value, seen⟩ := by
  cases q with
  | len =>
    simp only [Call.Right]
    omega
  | isEmpty =>
    intro (zero : value = 0#w)
    have none : live = 0 := by rw [← same, zero, BitVec.toNat_zero]
    exact none ▸ mem
  | isFull =>
    intro (enough : N ≤ value.toNat)
    have full : live = N := by omega
    exact full ▸ mem

theorem right_step (inv : Inv s) (few : s.chan.sent.length < 2 ^ w) (right : AllRight s)
    (together : LoadsTogether s a) (next : step s a = some t) : AllRight t := by
  cases a with
  | chan a =>
    obtain ⟨c, moved, rfl⟩ := Option.map_eq_some_iff.mp next
    exact right
  | call o q | loadTail o =>
    simp only [step] at next
    split at next <;> cases next
    exact right
  | loadHead o =>
    simp only [step] at next
    split at next <;> cases next
    rename_i q tail sent received seen at_load
    have knows := inv.knows o
    have sees := inv.sees o
    simp only [LoadsTogether, at_load] at together
    rw [at_load] at knows sees
    obtain ⟨older, rfl, older', le, bound, mem⟩ := knows
    have le' := inv.counts.le
    have bound' := inv.counts.bound
    intro c hc
    obtain hc | rfl : c ∈ s.calls ∨ c = _ := by simpa using hc
    · exact right c hc
    rw [inv.counts.head]
    obtain unsent | unreceived := together
    · -- the difference is what is live now
      refine right_of_live q (toNat_sub_ofNat (by omega) (by omega)) ?_ (unsent ▸ sees)
      omega
    · -- it is what was live at the load of `tail`
      rw [unreceived]
      exact right_of_live q (toNat_sub_ofNat le (by omega)) (by omega) mem

/-- With fewer than 2 ^ w sends every answer is right where no call has both a send and a
receive between its two loads. -/
theorem answers_right (hN : N < 2 ^ w) {as : List (Act T ω κ)}
    (run : Run step LoadsTogether init as s) (few : s.chan.sent.length < 2 ^ w) : AllRight s := by
  suffices Inv s ∧ AllRight s from this.2
  refine run.invariant_below (I := fun s => Inv s ∧ AllRight s)
    (B := fun s => s.chan.sent.length < 2 ^ w) ⟨inv_init, by simp [AllRight, init]⟩ ?_ ?_ few
  · intro s a t ⟨inv, right⟩ few together next
    exact ⟨inv_step hN inv next, right_step inv few right together next⟩
  · intro s a t next few
    cases a with
    | chan a =>
      obtain ⟨c, moved, rfl⟩ := Option.map_eq_some_iff.mp next
      exact Nat.lt_of_le_of_lt (ChannelThreads.grows_step moved).1 few
    | call o q | loadTail o | loadHead o =>
      simp only [step] at next
      split at next <;> cases next
      exact few

instance (s : State w N T ω κ) : ∀ a, Decidable (LoadsTogether s a)
  | .loadHead o =>
    match h : s.watch o with
    | .loadHead q tail sent received seen =>
      decidable_of_iff (s.chan.sent.length = sent ∨ s.chan.received.length = received)
        (by simp [LoadsTogether, h])
    | .idle | .loadTail _ _ => .isTrue (by simp [LoadsTogether, h])
  | .chan _ | .call _ _ | .loadTail _ => .isTrue trivial

/-- `len` while two values are in the channel, one of them received after the load of `tail`,
and `is_full` after it. -/
def meetsTwo : List (Act Nat Unit Query) :=
  (sends ++ sends).map .chan ++ [.call .len .len, .loadTail .len] ++ receives.map .chan ++
    [.loadHead .len, .call .isFull .isFull, .loadTail .isFull, .loadHead .isFull]
where
  sends : List (ChannelThreads.Act Nat Unit) :=
    [.trySend 7, .loadHead, .loadTail, .write, .storeTail, .wakeRecv, .wakeRecv, .wakeRecv]
  receives : List (ChannelThreads.Act Nat Unit) :=
    [.tryRecv, .loadTailRecv, .loadHeadRecv, .read, .storeHead]

theorem answers_right_two : ∃ s : State 32 2 Nat Unit Query,
    s.calls = [⟨.len, 1, [2, 2, 2, 2, 2, 1]⟩, ⟨.isFull, 1, [1]⟩] ∧ AllRight s := by
  obtain ⟨s, run, test⟩ := exists_run step LoadsTogether (init : State 32 2 Nat Unit Query)
    meetsTwo (fun s => s.chan.sent.length = 2 ∧
      s.calls = [⟨.len, 1, [2, 2, 2, 2, 2, 1]⟩, ⟨.isFull, 1, [1]⟩]) rfl
  obtain ⟨sent, calls⟩ : s.chan.sent.length = 2 ∧
      s.calls = [⟨.len, 1, [2, 2, 2, 2, 2, 1]⟩, ⟨.isFull, 1, [1]⟩] := by
    simpa using test
  exact ⟨s, calls, answers_right (by decide) run (by omega)⟩

/- `len` and `is_full` look at `tail` before 7 is sent and at `head` after it is received;
   `is_empty` looks at `tail` while only 8 is there and at `head` while only 9 is. -/
def overtaken : List (Act Nat Unit Query) :=
  [.call .len .len, .call .isFull .isFull, .loadTail .len, .loadTail .isFull] ++
  (send 7 ++ receive).map .chan ++ [.loadHead .len, .loadHead .isFull] ++
  (send 8).map .chan ++ [.call .isEmpty .isEmpty, .loadTail .isEmpty] ++
  (send 9 ++ receive).map .chan ++ [.loadHead .isEmpty]
where
  send (v : Nat) : List (ChannelThreads.Act Nat Unit) :=
    [.trySend v, .loadHead, .loadTail, .write, .storeTail, .wakeRecv, .wakeRecv, .wakeRecv]
  receive : List (ChannelThreads.Act Nat Unit) :=
    [.tryRecv, .loadTailRecv, .loadHeadRecv, .read, .storeHead, .wakeSend, .wakeSend, .wakeSend]

/-- A channel for two that never held two is full and has 2 ^ 32 - 1 values, and one that
was never without a value is empty. -/
theorem len_wraps : ∃ s : State 32 2 Nat Unit Query, Run step Free init overtaken s ∧
    s.chan.sent.length = 3 ∧
    s.calls.map (fun c => (c.query, c.value.toNat)) =
      [(.len, 2 ^ 32 - 1), (.isFull, 2 ^ 32 - 1), (.isEmpty, 0)] ∧
    ∀ c ∈ s.calls, ¬ c.Right 2 := by
  obtain ⟨s, run, test⟩ := exists_run step Free (init : State 32 2 Nat Unit Query) overtaken
    (fun s => s.chan.sent.length = 3 ∧ s.calls.map (fun c => (c.query, c.value.toNat)) =
      [(.len, 2 ^ 32 - 1), (.isFull, 2 ^ 32 - 1), (.isEmpty, 0)] ∧
      ∀ c ∈ s.calls, ¬ c.Right 2) rfl
  exact ⟨s, run, by simpa using test⟩

end Px4Rs.ChannelLen
