import Mathlib.Data.List.Basic
import Mathlib.Data.List.Forall2
import Mathlib.Logic.Function.Basic

/-! A table that items write to in order, each at most one value at its key. A key holds what
its last writer has written. -/
namespace Px4Rs.Writes
open Function
variable {ι κ β : Type*} [DecidableEq κ]

def write (key : ι → κ) (value : ι → Option β) (m : κ → Option β) (x : ι) : κ → Option β :=
  match value x with
  | some v => update m (key x) (some v)
  | none => m

/-- The item writes at `k`. -/
def At (key : ι → κ) (value : ι → Option β) (k : κ) (x : ι) : Prop :=
  key x = k ∧ (value x).isSome

instance (key : ι → κ) (value : ι → Option β) (k : κ) (x : ι) : Decidable (At key value k x) :=
  inferInstanceAs (Decidable (_ ∧ _))

def last (key : ι → κ) (value : ι → Option β) (xs : List ι) (k : κ) : Option ι :=
  (xs.filter fun x => At key value k x).getLast?

variable {key : ι → κ} {value : ι → Option β} {xs ys : List ι} {x : ι} {k : κ}

theorem last_append :
    last key value (xs ++ ys) k = (last key value ys k).or (last key value xs k) := by
  rw [last, last, last, List.filter_append, List.getLast?_append]

theorem last_eq_some (h : last key value xs k = some x) : x ∈ xs ∧ At key value k x := by
  have found := List.mem_filter.mp (List.mem_of_getLast? h)
  exact ⟨found.1, by simpa using found.2⟩

theorem last_eq_none : last key value xs k = none ↔ ∀ x ∈ xs, ¬ At key value k x := by
  rw [last, List.getLast?_eq_none_iff, List.filter_eq_nil_iff]
  simp

/-- The only writer at a key is the last one. -/
theorem last_eq_of_only (hx : x ∈ xs) (writes : At key value k x)
    (only : ∀ y ∈ xs, At key value k y → y = x) : last key value xs k = some x := by
  cases h : last key value xs k with
  | none => exact absurd writes (last_eq_none.mp h x hx)
  | some y =>
    obtain ⟨hy, here⟩ := last_eq_some h
    rw [only y hy here]

theorem write_at (h : At key value k x) (m : κ → Option β) : write key value m x k = value x := by
  obtain ⟨rfl, some⟩ := h
  obtain ⟨v, hv⟩ := Option.isSome_iff_exists.mp some
  simp [write, hv]

theorem write_off (h : ¬ At key value k x) (m : κ → Option β) : write key value m x k = m k := by
  cases hv : value x with
  | none => simp [write, hv]
  | some v =>
    have ne : k ≠ key x := fun e => h ⟨e.symm, by simp [hv]⟩
    simp [write, hv, ne]

theorem foldl_write (m : κ → Option β) :
    xs.foldl (write key value) m k = (last key value xs k).elim (m k) value := by
  induction xs generalizing m with
  | nil => rfl
  | cons x xs ih =>
    have split : last key value ([x] ++ xs) k = (last key value xs k).or (last key value [x] k) :=
      last_append
    rw [List.foldl_cons, ih, ← List.singleton_append, split]
    cases last key value xs k with
    | some y => rfl
    | none =>
      by_cases h : At key value k x
      · simp [last, h, write_at]
      · simp [last, h, write_off]

/-! Items in several lists, each of which may come in any order. -/

/-- Some order of the lists makes the item the last writer at `k`: no later list writes there. -/
inductive Final (key : ι → κ) (value : ι → Option β) (k : κ) : List (List ι) → ι → Prop
  | here {xs : List ι} {xss : List (List ι)} {x : ι} (mem : x ∈ xs) (writes : At key value k x)
    (none : ∀ y ∈ xss.flatten, ¬ At key value k y) : Final key value k (xs :: xss) x
  | later {xs : List ι} {xss : List (List ι)} {x : ι} (rest : Final key value k xss x) :
    Final key value k (xs :: xss) x

variable {xss yss : List (List ι)}

theorem flatten_perm (h : List.Forall₂ List.Perm xss yss) : xss.flatten.Perm yss.flatten := by
  induction h with
  | nil => exact .nil
  | cons head _ ih => exact head.append ih

omit [DecidableEq κ] in
theorem Final.perm (h : List.Forall₂ List.Perm xss yss) (hx : Final key value k xss x) :
    Final key value k yss x := by
  induction hx generalizing yss with
  | here mem writes none =>
    cases h with
    | cons head tail =>
      exact .here (head.mem_iff.mp mem) writes
        fun y hy => none y ((flatten_perm tail).mem_iff.mpr hy)
  | later _ ih =>
    cases h with
    | cons _ tail => exact .later (ih tail)

omit [DecidableEq κ] in
theorem Final.mem (h : Final key value k xss x) : x ∈ xss.flatten ∧ At key value k x := by
  induction h with
  | here mem writes _ =>
    rw [List.flatten_cons]
    exact ⟨List.mem_append_left _ mem, writes⟩
  | later _ ih =>
    rw [List.flatten_cons]
    exact ⟨List.mem_append_right _ ih.1, ih.2⟩

omit [DecidableEq κ] in
/-- Where the items of one list have different keys, only one can come last. -/
theorem Final.unique {y : ι} (apart : ∀ xs ∈ xss, ∀ x ∈ xs, ∀ y ∈ xs, key x = key y → x = y)
    (hx : Final key value k xss x) (hy : Final key value k xss y) : x = y := by
  induction hx with
  | here mem writes none =>
    cases hy with
    | here mem' writes' =>
      exact apart _ List.mem_cons_self _ mem _ mem' (writes.1.trans writes'.1.symm)
    | later rest => exact absurd rest.mem.2 (none _ rest.mem.1)
  | later rest ih =>
    cases hy with
    | here _ _ none => exact absurd rest.mem.2 (none _ rest.mem.1)
    | later rest' => exact ih (fun xs hxs => apart xs (List.mem_cons_of_mem _ hxs)) rest'

theorem final_of_last (h : last key value xss.flatten k = some x) :
    Final key value k xss x := by
  induction xss with
  | nil => cases h
  | cons xs xss ih =>
    rw [List.flatten_cons, last_append] at h
    cases hl : last key value xss.flatten k with
    | some y =>
      rw [hl, Option.some_or] at h
      cases h
      exact .later (ih hl)
    | none =>
      rw [hl, Option.none_or] at h
      obtain ⟨mem, writes⟩ := last_eq_some h
      exact .here mem writes (last_eq_none.mp hl)

theorem exists_last_of_final (h : Final key value k xss x) :
    ∃ yss, List.Forall₂ List.Perm xss yss ∧ last key value yss.flatten k = some x := by
  induction h with
  | @here xs xss x mem writes none =>
    obtain ⟨l₁, l₂, rfl⟩ := List.append_of_mem mem
    refine ⟨(l₁ ++ l₂ ++ [x]) :: xss, .cons ?_ (List.forall₂_same.mpr fun _ _ => .refl _), ?_⟩
    · exact List.perm_middle.trans (List.perm_append_singleton x (l₁ ++ l₂)).symm
    · have only : last key value [x] k = some x := by simp [last, writes]
      rw [List.flatten_cons, last_append, last_eq_none.mpr none, Option.none_or, last_append, only,
        Option.some_or]
  | @later xs xss x _ ih =>
    obtain ⟨yss, perm, hl⟩ := ih
    exact ⟨xs :: yss, .cons (.refl _) perm, by rw [List.flatten_cons, last_append, hl]; rfl⟩

/-- The orders of the lists do not matter exactly when the items that can come last at a key
write the same there. -/
theorem foldl_perm_iff (m : κ → Option β) :
    (∀ yss, List.Forall₂ List.Perm xss yss →
      yss.flatten.foldl (write key value) m = xss.flatten.foldl (write key value) m) ↔
      ∀ k x y, Final key value k xss x → Final key value k xss y → value x = value y := by
  constructor
  · intro same k
    have table {x : ι} (hx : Final key value k xss x) :
        value x = xss.flatten.foldl (write key value) m k := by
      obtain ⟨yss, perm, hl⟩ := exists_last_of_final hx
      rw [← same yss perm, foldl_write, hl]
      rfl
    exact fun x y hx hy => (table hx).trans (table hy).symm
  · intro same yss perm
    funext k
    rw [foldl_write, foldl_write]
    have back : List.Forall₂ List.Perm yss xss :=
      List.Forall₂.flip (perm.imp fun _ _ h => h.symm)
    cases hx : last key value xss.flatten k with
    | none =>
      have unwritten : last key value yss.flatten k = none :=
        last_eq_none.mpr fun y hy => last_eq_none.mp hx y ((flatten_perm perm).mem_iff.mpr hy)
      rw [unwritten]
    | some x =>
      obtain ⟨mem, writes⟩ := last_eq_some hx
      cases hy : last key value yss.flatten k with
      | none => exact absurd writes (last_eq_none.mp hy x ((flatten_perm perm).mem_iff.mp mem))
      | some y => exact same k y x ((final_of_last hy).perm back) (final_of_last hx)

end Px4Rs.Writes
