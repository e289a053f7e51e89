import Mathlib.Data.Option.Basic
import Mathlib.Logic.Function.Basic

/-! Locks and the parties that hold them: a party is inside at most one lock, and a lock
knows the party that is inside it. -/
namespace Px4Rs.Mutex
open Function
variable {π ι : Type*} {holding : π → Option ι} {lock : ι → Option π} {x y : π} {l : ι}

/-- `holding` is the lock that each party is in, `lock` the owner of each lock. -/
def Exclusive (holding : π → Option ι) (lock : ι → Option π) : Prop :=
  ∀ x l, holding x = some l → lock l = some x

theorem exclusive_free (lock : ι → Option π) : Exclusive (fun _ => none) lock := by
  intro x l hx
  cases hx

theorem Exclusive.alone (h : Exclusive holding lock) (hx : holding x = some l)
    (hy : holding y = some l) : x = y :=
  Option.some.inj ((h x l hx).symm.trans (h y l hy))

variable [DecidableEq π]

theorem Exclusive.stay {v : Option ι} (h : Exclusive holding lock) (hv : v = holding x) :
    Exclusive (update holding x v) lock := by
  rw [hv, update_eq_self]
  exact h

variable [DecidableEq ι]

theorem Exclusive.acquire (h : Exclusive holding lock) (free : lock l = none) :
    Exclusive (update holding x (some l)) (update lock l (some x)) := by
  intro y m hy
  by_cases hyx : y = x
  · subst hyx
    rw [update_self] at hy
    cases hy
    exact update_self ..
  · rw [update_of_ne hyx] at hy
    have owned := h y m hy
    have : m ≠ l := by
      rintro rfl
      rw [free] at owned
      cases owned
    rwa [update_of_ne this]

theorem Exclusive.release (h : Exclusive holding lock) (hx : holding x = some l) :
    Exclusive (update holding x none) (update lock l none) := by
  intro y m hy
  by_cases hyx : y = x
  · subst hyx
    rw [update_self] at hy
    cases hy
  · rw [update_of_ne hyx] at hy
    have : m ≠ l := by
      rintro rfl
      exact hyx (h.alone hy hx)
    rw [update_of_ne this]
    exact h y m hy

end Px4Rs.Mutex
