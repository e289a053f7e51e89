import Mathlib.Data.BitVec
import Mathlib.Logic.Function.Basic

/-! Bounded FIFO queues, the ring of slots that stores one, and free-running counter
words over a ring whose size need not divide the range of the word. -/
namespace Px4Rs.Ring
open Function
variable {α ι : Type*}

/-- A queue of at most `n` values, oldest first. -/
structure Fifo (α : Type*) (n : Nat) where
  items : List α
  bounded : items.length ≤ n

namespace Fifo
variable {n : Nat}

def empty : Fifo α n := ⟨[], Nat.zero_le n⟩

theorem length_snoc_le {items : List α} (h : items.length < n) (v : α) :
    (items ++ [v]).length ≤ n := by
  rw [List.length_append]
  exact h

def push (q : Fifo α n) (v : α) : Except α (Fifo α n) :=
  if h : q.items.length < n then .ok ⟨q.items ++ [v], length_snoc_le h v⟩ else .error v

theorem push_of_lt {q : Fifo α n} (h : q.items.length < n) (v : α) :
    q.push v = .ok ⟨q.items ++ [v], length_snoc_le h v⟩ := by
  simp [push, h]

theorem push_of_le {q : Fifo α n} (h : n ≤ q.items.length) (v : α) : q.push v = .error v := by
  simp [push, Nat.not_lt.mpr h]

def pop (q : Fifo α n) : Option (α × Fifo α n) :=
  match q with
  | ⟨[], _⟩ => none
  | ⟨v :: vs, h⟩ => some (v, ⟨vs, by simp at h; omega⟩)

end Fifo

/-- The slots `slot h, slot (h+1), ..` hold exactly the items, each in a slot of its own. -/
structure Holds (buf : ι → Option α) (slot : Nat → ι) (h : Nat) (items : List α) : Prop where
  stored : ∀ i v, items[i]? = some v → buf (slot (h + i)) = some v
  only : ∀ j v, buf j = some v → ∃ i < items.length, j = slot (h + i)
  apart : ∀ i j, i < j → j < items.length → slot (h + i) ≠ slot (h + j)

theorem holds_empty (slot : Nat → ι) (h : Nat) :
    Holds (fun _ => (none : Option α)) slot h [] := by
  constructor <;> simp

variable {buf : ι → Option α} {slot : Nat → ι} {h : Nat} {items : List α}

/-- The slot after the last item is free exactly when it is none of theirs. -/
theorem Holds.free_iff (hb : Holds buf slot h items) :
    buf (slot (h + items.length)) = none ↔
      ∀ i < items.length, slot (h + i) ≠ slot (h + items.length) := by
  constructor
  · intro hn i hi he
    have := hb.stored i items[i] (by simp [hi])
    rw [he, hn] at this
    cases this
  · intro hf
    by_contra hn
    obtain ⟨v, hv⟩ := Option.ne_none_iff_exists'.mp hn
    obtain ⟨i, hi, he⟩ := hb.only _ v hv
    exact hf i hi he.symm

variable [DecidableEq ι]

theorem Holds.push (hb : Holds buf slot h items)
    (free : buf (slot (h + items.length)) = none) (v : α) :
    Holds (update buf (slot (h + items.length)) (some v)) slot h (items ++ [v]) := by
  have fresh := hb.free_iff.mp free
  constructor
  · intro i x hx
    obtain hi | hi := Nat.lt_or_ge i items.length
    · rw [List.getElem?_append_left hi] at hx
      rw [update_of_ne (fresh i hi)]
      exact hb.stored i x hx
    · have : i = items.length := by
        have := (List.getElem?_eq_some_iff.mp hx).1
        simp at this
        omega
      subst this
      simpa using hx
  · intro j x hx
    by_cases hj : j = slot (h + items.length)
    · exact ⟨items.length, by simp, hj⟩
    · rw [update_of_ne hj] at hx
      obtain ⟨i, hi, he⟩ := hb.only j x hx
      exact ⟨i, by simp; omega, he⟩
  · intro i j hij hj
    simp only [List.length_append, List.length_singleton] at hj
    obtain hj | rfl : j < items.length ∨ j = items.length := by omega
    · exact hb.apart i j hij hj
    · exact fresh i hij

theorem Holds.pop {v : α} (hb : Holds buf slot h (v :: items)) :
    buf (slot h) = some v ∧ Holds (update buf (slot h) none) slot (h + 1) items := by
  refine ⟨hb.stored 0 v rfl, ?_, ?_, ?_⟩
  · intro i x hx
    have hi := (List.getElem?_eq_some_iff.mp hx).1
    have hne : slot h ≠ slot (h + (i + 1)) :=
      hb.apart 0 (i + 1) (by omega) (by simpa using hi)
    rw [Nat.add_assoc, Nat.add_comm 1 i, update_of_ne hne.symm]
    exact hb.stored (i + 1) x hx
  · intro j x hx
    have hj : j ≠ slot h := by rintro rfl; simp at hx
    rw [update_of_ne hj] at hx
    obtain ⟨i, hi, he⟩ := hb.only j x hx
    cases i with
    | zero => exact absurd he hj
    | succ i => exact ⟨i, by simpa using hi, by rw [he]; congr 1; omega⟩
  · intro i j hij hj
    have := hb.apart (i + 1) (j + 1) (by omega) (by simpa using hj)
    rwa [show h + 1 + i = h + (i + 1) by omega, show h + 1 + j = h + (j + 1) by omega]

/-! Counter words of `w` bits that index a ring of `n` slots. -/

/-- The slot of the `x`-th value: the counter word modulo `n`. -/
def slotOf (w n x : Nat) : Nat := x % 2 ^ w % n

/-- Two values less than `n` apart share a slot exactly when the word wrapped between
them and they are `2 ^ w % n` apart. -/
theorem slotOf_eq_iff {w n a c : Nat} (hac : a < c) (hn : c - a < n) (hw : n < 2 ^ w) :
    slotOf w n a = slotOf w n c ↔ c - a = 2 ^ w % n ∧ c % 2 ^ w < 2 ^ w % n := by
  unfold slotOf
  generalize 2 ^ w = m at *
  obtain ⟨d, rfl⟩ : ∃ d, c = a + d := ⟨c - a, by omega⟩
  rw [Nat.add_sub_cancel_left] at *
  have ha : a % m < m := Nat.mod_lt _ (by omega)
  rw [Nat.add_mod a d m, Nat.mod_eq_of_lt (by omega : d < m)]
  generalize a % m = x at *
  obtain hlt | hge := Nat.lt_or_ge (x + d) m
  · -- no wrap between the two: they are less than a revolution apart
    rw [Nat.mod_eq_of_lt hlt]
    constructor
    · intro he
      have hd : n ∣ x + d - x := Nat.dvd_of_mod_eq_zero (Nat.sub_mod_eq_zero_of_mod_eq he.symm)
      have := Nat.le_of_dvd (by omega) hd
      omega
    · rintro ⟨rfl, hr⟩
      omega
  · obtain ⟨y, rfl⟩ : ∃ y, x = m - d + y := ⟨x - (m - d), by omega⟩
    have hy : m - d + y + d = m + y := by omega
    rw [hy, Nat.add_mod_left, Nat.mod_eq_of_lt (by omega : y < m),
      Nat.mod_eq_of_lt (by omega : y < n)]
    constructor
    · intro he
      have hd : n ∣ m - d := by
        have := Nat.sub_mod_eq_zero_of_mod_eq (he.trans (Nat.mod_eq_of_lt (by omega)).symm)
        rw [Nat.add_sub_cancel] at this
        exact Nat.dvd_of_mod_eq_zero this
      have hr : m % n = d := by
        obtain ⟨k, hk⟩ := hd
        rw [show m = d + n * k by omega, Nat.add_mul_mod_self_left, Nat.mod_eq_of_lt hn]
      omega
    · rintro ⟨hd, hr⟩
      have : n ∣ m - d := by
        rw [hd]
        exact Nat.dvd_sub_mod m
      obtain ⟨k, hk⟩ := this
      rw [hk, Nat.mul_add_mod, Nat.mod_eq_of_lt (by omega)]

theorem toNat_sub_ofNat {w h t : Nat} (hle : h ≤ t) (hlt : t - h < 2 ^ w) :
    (BitVec.ofNat w t - BitVec.ofNat w h).toNat = t - h := by
  obtain ⟨d, rfl⟩ : ∃ d, t = h + d := ⟨t - h, by omega⟩
  rw [Nat.add_sub_cancel_left] at *
  have : BitVec.ofNat w (h + d) - BitVec.ofNat w h = BitVec.ofNat w d := by
    rw [BitVec.ofNat_add, BitVec.add_comm, BitVec.add_sub_cancel]
  rw [this, BitVec.toNat_ofNat, Nat.mod_eq_of_lt hlt]

end Px4Rs.Ring
