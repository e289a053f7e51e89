import Mathlib.Data.BitVec

/-! One topic of the host broker, with the blocks its functions run under a lock, and the
calls of `RawPublication` and `RawSubscription` with nobody else running. -/
namespace Px4Rs.Broker

/-- `TopicState`; a callback is known by its `ctx`. -/
structure Topic where
  size : Nat
  seq : Nat
  data : List (BitVec 8)
  callbacks : List Nat
deriving DecidableEq

def Topic.new (size : Nat) : Topic := ⟨size, 0, List.replicate size 0, []⟩

/-- `copy_nonoverlapping` of `n` bytes over the start of `dst`. -/
def copy (n : Nat) (src dst : List (BitVec 8)) : List (BitVec 8) := src.take n ++ dst.drop n

theorem length_copy {n : Nat} {src dst : List (BitVec 8)} (hs : n ≤ src.length)
    (hd : n ≤ dst.length) : (copy n src dst).length = dst.length := by
  simp only [copy, List.length_append, List.length_take, List.length_drop]
  omega

/-- The block of `advertise` and `publish` under the data lock. -/
@[simps] def Topic.write (t : Topic) (payload : List (BitVec 8)) : Topic :=
  { t with data := copy t.size payload t.data }

/-- The block under the seq lock. -/
@[simps] def Topic.bump (t : Topic) : Topic := { t with seq := t.seq + 1 }

def Topic.notify (t : Topic) : List Nat := t.callbacks

/-- `mock::advertise`, without the handle: the topic, and the callbacks called. -/
def advertise (t : Topic) (initial : List (BitVec 8)) : Topic × List Nat :=
  let t := (t.write initial).bump
  (t, t.notify)

/-- `mock::publish`; it always returns 0. -/
def publish (t : Topic) (payload : List (BitVec 8)) : Topic × List Nat :=
  let t := (t.write payload).bump
  (t, t.notify)

/-- `SubCbInner`, less its topic. -/
structure SubCb where
  lastSeen : Nat
  ctx : Nat
  size : Nat
  lost : BitVec 32
deriving DecidableEq

def SubCb.new (t : Topic) (ctx : Nat) : SubCb := ⟨0, ctx, t.size, 0⟩

/-- `u32::try_from(n).unwrap_or(u32::MAX)`. -/
def saturateU32 (n : Nat) : BitVec 32 := if n < 2 ^ 32 then BitVec.ofNat 32 n else -1

theorem saturateU32_toNat (n : Nat) : (saturateU32 n).toNat = min n (2 ^ 32 - 1) := by
  unfold saturateU32
  split
  · rw [BitVec.toNat_ofNat]
    omega
  · simp only [BitVec.reduceNeg, BitVec.toNat_ofNat]
    omega

/-- Step over the messages up to `cur`: all but the one delivered are lost. -/
def SubCb.stepTo (cb : SubCb) (cur : Nat) : SubCb :=
  let skipped := cur - cb.lastSeen - 1
  { cb with
    lost := if 0 < skipped then cb.lost + saturateU32 skipped else cb.lost
    lastSeen := cur }

theorem SubCb.stepTo_lost {cb : SubCb} {cur : Nat}
    (h : cb.lost.toNat + (cur - cb.lastSeen - 1) < 2 ^ 32) :
    (cb.stepTo cur).lost.toNat = cb.lost.toNat + (cur - cb.lastSeen - 1) := by
  simp only [SubCb.stepTo]
  split
  · rw [BitVec.toNat_add, saturateU32_toNat]
    omega
  · omega

theorem SubCb.stepTo_lost_zero {cb : SubCb} (h : cb.lost = 0) (cur : Nat) :
    (cb.stepTo cur).lost.toNat = min (cur - cb.lastSeen - 1) (2 ^ 32 - 1) := by
  simp only [SubCb.stepTo, h]
  split
  · simp [saturateU32_toNat]
  · simp only [BitVec.ofNat_eq_ofNat, BitVec.toNat_ofNat]
    omega

/-- The second block of `sub_cb_update`, for the seq its first block read: the bytes
copied and the callback after it, or nothing new. -/
def SubCb.copyRecord (cb : SubCb) (t : Topic) (cur : Nat) : Option (List (BitVec 8) × SubCb) :=
  if cb.lastSeen < cur then some (t.data.take cb.size, cb.stepTo cur) else none

def SubCb.update (cb : SubCb) (t : Topic) : Option (List (BitVec 8) × SubCb) :=
  cb.copyRecord t t.seq

def SubCb.lostTake (cb : SubCb) : BitVec 32 × SubCb := (cb.lost, { cb with lost := 0 })

/-- `RawPublication`: the handle, when not null, can only be this topic's. -/
structure RawPublication where
  advertised : Bool
  oSize : BitVec 16

structure RawSubscription where
  cb : Option SubCb
  ctx : Nat
  oSize : BitVec 16

inductive RawPubError where
  | failed | sizeMismatch
deriving DecidableEq

def RawPublication.ensureAdvertised (p : RawPublication) (t : Topic) (initial : List (BitVec 8)) :
    RawPublication × Topic × List Nat :=
  if p.advertised then (p, t, [])
  else
    let r := advertise t initial
    ({ p with advertised := true }, r)

def RawPublication.publish (p : RawPublication) (t : Topic) (data : List (BitVec 8)) :
    Except RawPubError (RawPublication × Topic × List Nat) :=
  if data.length ≠ p.oSize.toNat then .error .sizeMismatch
  else
    let (p, t, woken) := p.ensureAdvertised t data
    let (t, again) := Broker.publish t data
    .ok (p, t, woken ++ again)

def RawPublication.unadvertise (p : RawPublication) : RawPublication :=
  { p with advertised := false }

/-- `RawSubscription::ensure_registered`; `sub_cb_new` and `sub_cb_register` always succeed
on the host. -/
def RawSubscription.ensureRegistered (s : RawSubscription) (t : Topic) : SubCb × Topic :=
  match s.cb with
  | some cb => (cb, t)
  | none => (SubCb.new t s.ctx, { t with callbacks := t.callbacks ++ [s.ctx] })

/-- `RawSubscription::try_recv` into a buffer of `len` bytes: the bytes written and the
size returned, if any. -/
def RawSubscription.tryRecv (s : RawSubscription) (t : Topic) (len : Nat) :
    RawSubscription × Topic × Option (List (BitVec 8) × Nat) :=
  if len < s.oSize.toNat then (s, t, none)
  else
    let (cb, t) := s.ensureRegistered t
    match cb.update t with
    | some (bytes, cb) => ({ s with cb := some cb }, t, some (bytes, s.oSize.toNat))
    | none => ({ s with cb := some cb }, t, none)

def RawSubscription.missedCount (s : RawSubscription) : BitVec 32 × RawSubscription :=
  match s.cb with
  | none => (0, s)
  | some cb => (cb.lostTake.1, { s with cb := some cb.lostTake.2 })

end Px4Rs.Broker
