import Mathlib.Data.Multiset.Filter

/-! Max-heaps for a comparison, as far as their documentation describes them: `peek` and
`pop` give one of the greatest items, and nothing is said about which, nor about the order
in which the items are drained. -/
namespace Px4Rs.MaxHeap
universe u
variable {α : Type u} {cmp : α → α → Ordering}

def Greatest (cmp : α → α → Ordering) (a : α) (items : Multiset α) : Prop :=
  a ∈ items ∧ ∀ b ∈ items, (cmp b a).isLE = true

/-- What a heap's operations do to its items. -/
structure Api (α : Type u) (cmp : α → α → Ordering) where
  Heap : Type u
  items : Heap → Multiset α
  new : Heap
  push : Heap → α → Heap
  peek : Heap → Option α
  pop : Heap → Option (α × Heap)
  drain : Heap → List α
  ofVec : List α → Heap
  items_new : items new = 0
  items_push : ∀ h a, items (push h a) = a ::ₘ items h
  peek_none : ∀ h, peek h = none → items h = 0
  peek_some : ∀ h a, peek h = some a → Greatest cmp a (items h)
  pop_none : ∀ h, pop h = none → items h = 0
  pop_some : ∀ h a h', pop h = some (a, h') →
    Greatest cmp a (items h) ∧ items h = a ::ₘ items h'
  items_drain : ∀ h, (drain h : Multiset α) = items h
  items_ofVec : ∀ l, items (ofVec l) = l

namespace Api
variable (api : Api α cmp) {h h' : api.Heap} {a : α}

attribute [simp] items_new items_push items_drain items_ofVec

theorem pop_of_peek {top : α} (peek : api.peek h = some top) :
    ∃ a h', api.pop h = some (a, h') := by
  cases pop : api.pop h with
  | none =>
    have top := (api.peek_some h top peek).1
    rw [api.pop_none h pop] at top
    exact absurd top (Multiset.notMem_zero _)
  | some r => exact ⟨r.1, r.2, rfl⟩

theorem items_retain (p : α → Prop) [DecidablePred p] (h : api.Heap) :
    api.items (api.ofVec ((api.drain h).filter p)) = (api.items h).filter p := by
  rw [api.items_ofVec, ← Multiset.filter_coe, api.items_drain]

end Api

/-! The unordered list is such a heap. -/

/-- One of the greatest items, and the others. -/
def takeGreatest (cmp : α → α → Ordering) : List α → Option (α × List α)
  | [] => none
  | a :: l =>
    match takeGreatest cmp l with
    | none => some (a, [])
    | some (b, rest) => if (cmp b a).isLE then some (a, b :: rest) else some (b, a :: rest)

theorem takeGreatest_none {l : List α} (h : takeGreatest cmp l = none) : l = [] := by
  cases l with
  | nil => rfl
  | cons a l =>
    simp only [takeGreatest] at h
    split at h
    · cases h
    · split at h <;> cases h

theorem takeGreatest_perm {l rest : List α} {a : α} (h : takeGreatest cmp l = some (a, rest)) :
    l.Perm (a :: rest) := by
  induction l generalizing a rest with
  | nil => cases h
  | cons b l ih =>
    simp only [takeGreatest] at h
    split at h
    · rename_i none
      cases h
      rw [takeGreatest_none none]
    · rename_i c others taken
      have perm := (ih taken).cons b
      split at h <;> cases h
      · exact perm
      · exact perm.trans (.swap ..)

theorem takeGreatest_le [Std.TransCmp cmp] {l rest : List α} {a : α}
    (h : takeGreatest cmp l = some (a, rest)) : ∀ b ∈ l, (cmp b a).isLE = true := by
  induction l generalizing a rest with
  | nil => simp
  | cons c l ih =>
    simp only [takeGreatest] at h
    intro b hb
    split at h
    · rename_i none
      cases h
      rw [takeGreatest_none none, List.mem_singleton] at hb
      exact hb ▸ Std.ReflCmp.isLE_rfl
    · rename_i d others taken
      have le := ih taken
      split at h <;> rename_i order <;> cases h
      · obtain rfl | hb := List.mem_cons.mp hb
        · exact Std.ReflCmp.isLE_rfl
        · exact Std.TransCmp.isLE_trans (le b hb) order
      · obtain rfl | hb := List.mem_cons.mp hb
        · have lt := Std.OrientedCmp.lt_of_not_isLE order
          exact Ordering.isLE_of_eq_lt lt
        · exact le b hb

def list (cmp : α → α → Ordering) [Std.TransCmp cmp] : Api α cmp where
  Heap := List α
  items := fun l => l
  new := []
  push := fun l a => a :: l
  peek := fun l => (takeGreatest cmp l).map Prod.fst
  pop := takeGreatest cmp
  drain := id
  ofVec := id
  items_new := rfl
  items_push := fun _ _ => rfl
  peek_none := fun l h => by
    rw [takeGreatest_none (Option.map_eq_none_iff.mp h)]
    rfl
  peek_some := fun l a h => by
    obtain ⟨⟨b, rest⟩, taken, rfl⟩ := Option.map_eq_some_iff.mp h
    exact ⟨(takeGreatest_perm taken).mem_iff.mpr List.mem_cons_self, takeGreatest_le taken⟩
  pop_none := fun l h => by
    rw [takeGreatest_none h]
    rfl
  pop_some := fun l a rest h =>
    ⟨⟨(takeGreatest_perm h).mem_iff.mpr List.mem_cons_self, takeGreatest_le h⟩,
      Multiset.coe_eq_coe.mpr (takeGreatest_perm h)⟩
  items_drain := fun _ => rfl
  items_ofVec := fun _ => rfl

end Px4Rs.MaxHeap
