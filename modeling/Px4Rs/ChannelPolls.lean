import Px4Rs.Channel

/-! The futures of a channel and the loops that await them, one poll at a time: how far a
poll gets, whom it wakes, and where it leaves its own waker. -/
namespace Px4Rs.Channel
open Function Px4Rs.Ring
variable {w N : Nat} [NeZero N] {T ω : Type*}

/-- `Send::poll`: the channel, the wakers invoked, and the value while it is Pending. -/
def sendPoll (c : Channel w N T ω) (me : ω) (v : T) : Channel w N T ω × List ω × Option T :=
  match c.trySend v with
  | .ok (c, woken) => (c, woken.toList, none)
  | .error v =>
    -- park before the second try
    let r := c.sendWaker.register me
    let c := { c with sendWaker := r.1 }
    match c.trySend v with
    | .ok (c, woken) => (c, r.2.toList ++ woken.toList, none)
    | .error v => (c, r.2.toList, some v)

/-- `Recv::poll`: the channel, the wakers invoked, and what the slot held once it is Ready. -/
def recvPoll (c : Channel w N T ω) (me : ω) :
    Channel w N T ω × List ω × Option (Option T) :=
  match c.tryRecv with
  | some (v, c, woken) => (c, woken.toList, some v)
  | none =>
    let r := c.recvWaker.register me
    let c := { c with recvWaker := r.1 }
    match c.tryRecv with
    | some (v, c, woken) => (c, r.2.toList ++ woken.toList, some v)
    | none => (c, r.2.toList, none)

/-- `for v in vs { ch.send(v).await }` from one Pending to the next: the channel, the wakers
invoked, and the values from the one still being sent on. -/
def sendLoop (me : ω) (c : Channel w N T ω) : List T → Channel w N T ω × List ω × List T
  | [] => (c, [], [])
  | v :: vs =>
    match c.sendPoll me v with
    | (c, woken, none) =>
      let rest := sendLoop me c vs
      (rest.1, woken ++ rest.2.1, rest.2.2)
    | (c, woken, some v) => (c, woken, v :: vs)

/-- `n` times `ch.recv().await` from one Pending to the next: the channel, the wakers
invoked, the receives still to make, and what was received. -/
def recvLoop (me : ω) (c : Channel w N T ω) :
    Nat → Channel w N T ω × List ω × Nat × List (Option T)
  | 0 => (c, [], 0, [])
  | n + 1 =>
    match c.recvPoll me with
    | (c, woken, some v) =>
      let rest := recvLoop me c n
      (rest.1, woken ++ rest.2.1, rest.2.2.1, v :: rest.2.2.2)
    | (c, woken, none) => (c, woken, n + 1, [])

/- The channel holds `items` after `r` receives, and nobody is inside its wakers. -/
structure Carries (c : Channel w N T ω) (r : Nat) (items : List T) : Prop where
  inv : ∃ s : State w N T ω, s.chan = c ∧ s.queue.items = items ∧ s.received = r ∧ Inv s
  recvState : c.recvWaker.state = AtomicWaker.waiting
  sendState : c.sendWaker.state = AtomicWaker.waiting

theorem carries_new : Carries (new : Channel w N T ω) 0 [] :=
  ⟨⟨State.new, rfl, rfl, rfl, inv_new⟩, rfl, rfl⟩

variable {c : Channel w N T ω} {r : Nat} {items : List T}

theorem Carries.bounded (h : Carries c r items) : items.length ≤ N := by
  obtain ⟨s, -, rfl, -, -⟩ := h.inv
  exact s.queue.bounded

theorem Carries.park (h : Carries c r items) {a b : AtomicWaker ω}
    (ha : a.state = AtomicWaker.waiting) (hb : b.state = AtomicWaker.waiting) :
    Carries { c with recvWaker := a, sendWaker := b } r items := by
  obtain ⟨s, rfl, hi, hr, inv⟩ := h.inv
  exact ⟨⟨{ s with chan := { s.chan with recvWaker := a, sendWaker := b } }, rfl, hi, hr,
    inv.head, inv.tail, inv.holds⟩, ha, hb⟩

/-- No send of these many values meets one that the wrap left behind. -/
def Fits (w N total : Nat) : Prop := total < 2 ^ w ∨ N ∣ 2 ^ w

theorem Carries.trySend (h : Carries c r items) (hN : N < 2 ^ w) (room : items.length < N)
    (fits : Fits w N (r + items.length)) (v : T) : ∃ c', c.trySend v = .ok (c', c.recvWaker.waker) ∧
      Carries c' r (items ++ [v]) ∧ c'.recvWaker.waker = none ∧ c'.sendWaker = c.sendWaker := by
  obtain ⟨s, rfl, rfl, rfl, inv⟩ := h.inv
  have clear : WrapClear s (.trySend v) := by
    intro _ low
    rw [inv.len hN]
    rw [inv.tail, BitVec.toNat_ofNat] at low
    obtain small | dvd := fits
    · rw [Nat.mod_eq_of_lt small] at low
      omega
    · rw [Nat.mod_eq_zero_of_dvd dvd] at low
      omega
  have agrees := (agrees_iff inv hN _).mpr clear
  have next := inv_step hN inv agrees rfl
  have sent := trySend_of_lt (c := s.chan) (by rw [inv.len hN]; exact room) v
  have woken := AtomicWaker.wake_of_waiting h.recvState
  rw [woken] at sent
  refine ⟨_, sent, ⟨⟨_, ?_, ?_, ?_, next⟩, rfl, h.sendState⟩, rfl, rfl⟩
  · simp [sent]
  · simp [Fifo.push_of_lt room]
  · rfl

theorem Carries.trySend_full (h : Carries c r items) (hN : N < 2 ^ w) (full : items.length = N)
    (v : T) : c.trySend v = .error v := by
  obtain ⟨s, rfl, rfl, -, inv⟩ := h.inv
  exact trySend_of_le (by rw [inv.len hN, full]) v

theorem Carries.tryRecv {v : T} (h : Carries c r (v :: items)) (hN : N < 2 ^ w) :
    ∃ c', c.tryRecv = some (some v, c', c.sendWaker.waker) ∧ Carries c' (r + 1) items ∧
      c'.sendWaker.waker = none ∧ c'.recvWaker = c.recvWaker := by
  obtain ⟨s, rfl, hi, rfl, inv⟩ := h.inv
  have agrees := (agrees_iff inv hN (.tryRecv : Op T)).mpr trivial
  have next := inv_step hN inv agrees rfl
  have some_item : s.chan.head ≠ s.chan.tail := by simp [inv.empty_iff hN, hi]
  have woken := AtomicWaker.wake_of_waiting h.sendState
  have read : s.chan.buf (idx s.chan.head) = some v := by
    have := (hi ▸ inv.holds).pop.1
    rwa [inv.head]
  have got : s.chan.tryRecv = some (some v, { s.chan with
      buf := update s.chan.buf (idx s.chan.head) none
      head := s.chan.head + 1
      sendWaker := ⟨AtomicWaker.waiting, none⟩ }, s.chan.sendWaker.waker) := by
    rw [Channel.tryRecv, if_neg some_item, woken, read]
  have pop : s.queue.pop.map (fun q => q.2.items) = some items := by
    obtain ⟨chan, ⟨_, bounded⟩, received⟩ := s
    cases hi
    rfl
  obtain ⟨q, hq, rfl⟩ := Option.map_eq_some_iff.mp pop
  refine ⟨_, got, ⟨⟨_, ?_, ?_, ?_, next⟩, h.recvState, rfl⟩, rfl, rfl⟩
  · simp [got]
  · simp [hq]
  · simp [hq]

theorem Carries.tryRecv_empty (h : Carries c r []) (hN : N < 2 ^ w) : c.tryRecv = none := by
  obtain ⟨s, rfl, hi, -, inv⟩ := h.inv
  exact if_pos ((inv.empty_iff hN).mpr hi)

theorem Carries.sendPoll (h : Carries c r items) (me : ω) (hN : N < 2 ^ w) (room : items.length < N)
    (fits : Fits w N (r + items.length)) (v : T) :
    ∃ c', c.sendPoll me v = (c', c.recvWaker.waker.toList, none) ∧ Carries c' r (items ++ [v]) ∧
      c'.recvWaker.waker = none ∧ c'.sendWaker = c.sendWaker := by
  obtain ⟨c', sent, rest⟩ := h.trySend hN room fits v
  exact ⟨c', by simp [Channel.sendPoll, sent], rest⟩

theorem Carries.sendPoll_full (h : Carries c r items) (me : ω) (hN : N < 2 ^ w)
    (full : items.length = N) (v : T) :
    ∃ c', c.sendPoll me v = (c', [], some v) ∧ Carries c' r items ∧
      c'.recvWaker = c.recvWaker ∧ c'.sendWaker.waker = some me := by
  have parked := h.park h.recvState (b := ⟨AtomicWaker.waiting, some me⟩) rfl
  refine ⟨_, ?_, parked, rfl, rfl⟩
  have again := parked.trySend_full hN full v
  simp [Channel.sendPoll, h.trySend_full hN full v,
    AtomicWaker.register_of_waiting h.sendState me, again]

theorem Carries.recvPoll {v : T} (h : Carries c r (v :: items)) (me : ω) (hN : N < 2 ^ w) :
    ∃ c', c.recvPoll me = (c', c.sendWaker.waker.toList, some (some v)) ∧
      Carries c' (r + 1) items ∧ c'.sendWaker.waker = none ∧ c'.recvWaker = c.recvWaker := by
  obtain ⟨c', got, rest⟩ := h.tryRecv hN
  exact ⟨c', by simp [Channel.recvPoll, got], rest⟩

theorem Carries.recvPoll_empty (h : Carries c r []) (me : ω) (hN : N < 2 ^ w) :
    ∃ c', c.recvPoll me = (c', [], none) ∧ Carries c' r [] ∧ c'.sendWaker = c.sendWaker ∧
      c'.recvWaker.waker = some me := by
  have parked := h.park (a := ⟨AtomicWaker.waiting, some me⟩) rfl h.sendState
  refine ⟨_, ?_, parked, rfl, rfl⟩
  have again := parked.tryRecv_empty hN
  simp [Channel.recvPoll, h.tryRecv_empty hN,
    AtomicWaker.register_of_waiting h.recvState me, again]

/- What a loop over sends that began at `c` left: `sent` went through, and it stopped for
   want of room if anything is left. -/
structure SendLoop (me : ω) (c : Channel w N T ω) (r : Nat) (items sent : List T)
    (x : Channel w N T ω × List ω × List T) : Prop where
  carries : Carries x.1 r (items ++ sent)
  idle : sent = [] → x.2.1 = [] ∧ x.1.recvWaker = c.recvWaker
  woken : sent ≠ [] → x.2.1 = c.recvWaker.waker.toList ∧ x.1.recvWaker.waker = none
  done : x.2.2 = [] → x.1.sendWaker = c.sendWaker
  parked : x.2.2 ≠ [] → items.length + sent.length = N ∧ x.1.sendWaker.waker = some me

theorem Carries.sendLoop (h : Carries c r items) (me : ω) (hN : N < 2 ^ w) {todo : List T}
    (fits : Fits w N (r + items.length + todo.length)) :
    ∃ sent, todo = sent ++ (c.sendLoop me todo).2.2 ∧
      SendLoop me c r items sent (c.sendLoop me todo) := by
  induction todo generalizing c items with
  | nil => exact ⟨[], rfl, by simpa [Channel.sendLoop] using h, by simp [Channel.sendLoop], by simp,
      fun _ => rfl, by simp [Channel.sendLoop]⟩
  | cons v todo ih =>
    obtain room | full := Nat.lt_or_eq_of_le h.bounded
    · have now : Fits w N (r + items.length) :=
        fits.imp_left fun small => lt_of_le_of_lt (Nat.le_add_right _ _) small
      obtain ⟨c', sent, carries, recvWaker, sendWaker⟩ := h.sendPoll me hN room now v
      obtain ⟨more, all, loop⟩ := ih carries (by
        rw [List.length_append, List.length_singleton]
        rw [List.length_cons] at fits
        rwa [show r + (items.length + 1) + todo.length = r + items.length + (todo.length + 1)
          by omega])
      have whole : c.sendLoop me (v :: todo) = ((c'.sendLoop me todo).1,
          c.recvWaker.waker.toList ++ (c'.sendLoop me todo).2.1, (c'.sendLoop me todo).2.2) := by
        simp only [Channel.sendLoop, sent]
      rw [whole]
      have quiet : (c'.sendLoop me todo).2.1 = [] ∧
          (c'.sendLoop me todo).1.recvWaker.waker = none := by
        by_cases hm : more = []
        · obtain ⟨hq, same⟩ := loop.idle hm
          exact ⟨hq, by rw [same, recvWaker]⟩
        · obtain ⟨hq, none⟩ := loop.woken hm
          exact ⟨by simpa [recvWaker] using hq, none⟩
      refine ⟨v :: more, by simp [← all], ?_, by simp, fun _ => ?_, fun hd => ?_, fun hd => ?_⟩
      · simpa using loop.carries
      · exact ⟨by simp [quiet.1], quiet.2⟩
      · rw [loop.done hd, sendWaker]
      · obtain ⟨count, parked⟩ := loop.parked hd
        refine ⟨?_, parked⟩
        simp only [List.length_append, List.length_cons, List.length_nil] at count ⊢
        omega
    · obtain ⟨c', sent, carries, recvWaker, sendWaker⟩ := h.sendPoll_full me hN full v
      have whole : c.sendLoop me (v :: todo) = (c', [], v :: todo) := by
        simp only [Channel.sendLoop, sent]
      rw [whole]
      exact ⟨[], rfl, by simpa using carries, fun _ => ⟨rfl, recvWaker⟩, by simp, by simp,
        fun _ => ⟨by simpa using full, sendWaker⟩⟩

/- What a loop of receives that began at `c` left: `taken` was received, and it stopped for
   want of a value if any receive is left. -/
structure RecvLoop (me : ω) (c : Channel w N T ω) (r : Nat) (taken left : List T)
    (x : Channel w N T ω × List ω × Nat × List (Option T)) : Prop where
  carries : Carries x.1 (r + taken.length) left
  got : x.2.2.2 = taken.map some
  idle : taken = [] → x.2.1 = [] ∧ x.1.sendWaker = c.sendWaker
  woken : taken ≠ [] → x.2.1 = c.sendWaker.waker.toList ∧ x.1.sendWaker.waker = none
  done : x.2.2.1 = 0 → x.1.recvWaker = c.recvWaker
  parked : x.2.2.1 ≠ 0 → left = [] ∧ x.1.recvWaker.waker = some me

theorem Carries.recvLoop (h : Carries c r items) (me : ω) (hN : N < 2 ^ w) {n : Nat} :
    ∃ taken left, items = taken ++ left ∧ n = taken.length + (c.recvLoop me n).2.2.1 ∧
      RecvLoop me c r taken left (c.recvLoop me n) := by
  induction n generalizing c r items with
  | zero => exact ⟨[], items, rfl, rfl, by simpa [Channel.recvLoop] using h, rfl,
      by simp [Channel.recvLoop],
      by simp, fun _ => rfl, by simp [Channel.recvLoop]⟩
  | succ n ih =>
    cases items with
    | nil =>
      obtain ⟨c', got, carries, sendWaker, recvWaker⟩ := h.recvPoll_empty me hN
      have whole : c.recvLoop me (n + 1) = (c', [], n + 1, []) := by
        simp only [Channel.recvLoop, got]
      rw [whole]
      exact ⟨[], [], rfl, by simp, by simpa using carries, rfl, fun _ => ⟨rfl, sendWaker⟩,
        by simp, by simp, fun _ => ⟨rfl, recvWaker⟩⟩
    | cons v items =>
      obtain ⟨c', got, carries, sendWaker, recvWaker⟩ := h.recvPoll me hN
      obtain ⟨more, left, all, count, loop⟩ := ih carries
      have whole : c.recvLoop me (n + 1) = ((c'.recvLoop me n).1,
          c.sendWaker.waker.toList ++ (c'.recvLoop me n).2.1, (c'.recvLoop me n).2.2.1,
          some v :: (c'.recvLoop me n).2.2.2) := by
        simp only [Channel.recvLoop, got]
      rw [whole]
      have quiet : (c'.recvLoop me n).2.1 = [] ∧
          (c'.recvLoop me n).1.sendWaker.waker = none := by
        by_cases hm : more = []
        · obtain ⟨hq, same⟩ := loop.idle hm
          exact ⟨hq, by rw [same, sendWaker]⟩
        · obtain ⟨hq, none⟩ := loop.woken hm
          exact ⟨by simpa [sendWaker] using hq, none⟩
      refine ⟨v :: more, left, by simp [all], by simp only [List.length_cons]; omega, ?_, ?_,
        by simp, fun _ => ?_, fun hd => ?_, loop.parked⟩
      · have := loop.carries
        rwa [Nat.add_assoc, Nat.add_comm 1] at this
      · simp [loop.got]
      · exact ⟨by simp [quiet.1], quiet.2⟩
      · rw [loop.done hd, recvWaker]

end Px4Rs.Channel
