import Mathlib.Data.Nat.Basic

/-! The C rule for the layout of a struct: each field at the next multiple of its
alignment, the size rounded up to the alignment of the struct. -/
namespace Px4Rs.ReprC

structure Repr where
  size : Nat
  align : Nat
deriving DecidableEq

def roundUp (pos align : Nat) : Nat := (pos + align - 1) / align * align

def array (t : Repr) (n : Nat) : Repr := ⟨n * t.size, t.align⟩

/-- The offsets of the fields placed from `pos` on. -/
def offsetsFrom : Nat → List Repr → List Nat
  | _, [] => []
  | pos, t :: ts => roundUp pos t.align :: offsetsFrom (roundUp pos t.align + t.size) ts

def endFrom : Nat → List Repr → Nat
  | pos, [] => pos
  | pos, t :: ts => endFrom (roundUp pos t.align + t.size) ts

def offsets (ts : List Repr) : List Nat := offsetsFrom 0 ts

def maxAlign : List Repr → Nat
  | [] => 1
  | t :: ts => max t.align (maxAlign ts)

def record (ts : List Repr) : Repr := ⟨roundUp (endFrom 0 ts) (maxAlign ts), maxAlign ts⟩

def sizes : List Repr → Nat
  | [] => 0
  | t :: ts => t.size + sizes ts

/-- Fields laid one after the other from `pos` on are all aligned. -/
def Packed : Nat → List Repr → Prop
  | _, [] => True
  | pos, t :: ts => 0 < t.align ∧ t.align ∣ pos ∧ Packed (pos + t.size) ts

theorem roundUp_of_dvd {pos align : Nat} (ha : 0 < align) (h : align ∣ pos) :
    roundUp pos align = pos := by
  obtain ⟨k, rfl⟩ := h
  rw [roundUp, Nat.add_sub_assoc ha, Nat.mul_add_div ha, Nat.div_eq_of_lt (by omega),
    Nat.add_zero, Nat.mul_comm]

variable {ts us : List Repr} {pos : Nat}

theorem sizes_append : sizes (ts ++ us) = sizes ts + sizes us := by
  induction ts with
  | nil => simp [sizes]
  | cons t ts ih => simp [sizes, ih, Nat.add_assoc]

theorem packed_append : Packed pos (ts ++ us) ↔ Packed pos ts ∧ Packed (pos + sizes ts) us := by
  induction ts generalizing pos with
  | nil => simp [Packed, sizes]
  | cons t ts ih => simp [Packed, ih, sizes, and_assoc, Nat.add_assoc]

theorem Packed.endFrom (h : Packed pos ts) : endFrom pos ts = pos + sizes ts := by
  induction ts generalizing pos with
  | nil => rfl
  | cons t ts ih =>
    obtain ⟨ha, hd, hts⟩ := h
    rw [ReprC.endFrom, roundUp_of_dvd ha hd, ih hts]
    simp [sizes, Nat.add_assoc]

/-- Aligned fields get no padding between them: each starts where those before it end. -/
theorem Packed.offsetsFrom (h : Packed pos ts) (i : Nat) (hi : i < ts.length) :
    (offsetsFrom pos ts)[i]? = some (pos + sizes (ts.take i)) := by
  induction ts generalizing pos i with
  | nil => simp at hi
  | cons t ts ih =>
    obtain ⟨ha, hd, hts⟩ := h
    rw [ReprC.offsetsFrom, roundUp_of_dvd ha hd]
    cases i with
    | zero => simp [sizes]
    | succ i =>
      rw [List.getElem?_cons_succ, ih hts i (by simpa using hi)]
      simp [sizes, Nat.add_assoc]

theorem Packed.dvd (h : Packed pos ts) (i : Nat) (t : Repr) (ht : ts[i]? = some t) :
    t.align ∣ pos + sizes (ts.take i) := by
  induction ts generalizing pos i with
  | nil => simp at ht
  | cons u ts ih =>
    obtain ⟨_, hd, hts⟩ := h
    cases i with
    | zero =>
      obtain rfl : u = t := by simpa using ht
      simpa [sizes] using hd
    | succ i =>
      have := ih hts i (by simpa using ht)
      simpa [sizes, Nat.add_assoc] using this

theorem maxAlign_pos (ts : List Repr) : 0 < maxAlign ts := by
  induction ts with
  | nil => exact Nat.one_pos
  | cons t ts ih => exact Nat.lt_of_lt_of_le ih (Nat.le_max_right _ _)

theorem maxAlign_dvd {a : Nat} (h : ∀ t ∈ ts, t.align ∣ a) : maxAlign ts ∣ a := by
  induction ts with
  | nil => exact Nat.one_dvd a
  | cons t ts ih =>
    have ht := h t (by simp)
    have hts := ih fun u hu => h u (by simp [hu])
    rw [maxAlign]
    obtain he | he := Nat.le_total t.align (maxAlign ts)
    · rwa [Nat.max_eq_right he]
    · rwa [Nat.max_eq_left he]

theorem Packed.record (h : Packed 0 ts) (hd : maxAlign ts ∣ sizes ts) :
    (record ts).size = sizes ts := by
  rw [ReprC.record, h.endFrom, Nat.zero_add, roundUp_of_dvd (maxAlign_pos ts) hd]

end Px4Rs.ReprC
