import Mathlib.Logic.ExistsUnique
import Mathlib.Data.List.Basic

/-! Things that are handed from place to place, each place holding one thing or none. A
thing that was issued is in exactly one place, however it is moved. -/
namespace Px4Rs.Ledger
variable {α π : Type*} {place place' : π → Option α} {issued : List α} {a : α} {p q : π}

/-- Every issued thing is in exactly one place, and nothing else is anywhere. -/
structure Conserved (place : π → Option α) (issued : List α) : Prop where
  somewhere : ∀ a ∈ issued, ∃! p, place p = some a
  known : ∀ p a, place p = some a → a ∈ issued

theorem conserved_nil (empty : ∀ p, place p = none) : Conserved place [] :=
  ⟨by simp, fun p a hp => by simp [empty p] at hp⟩

theorem Conserved.stay (h : Conserved place issued) (same : ∀ r, place' r = place r) :
    Conserved place' issued := by
  obtain rfl : place' = place := funext same
  exact h

theorem Conserved.move (h : Conserved place issued) (hp : place p = some a) (hq : place q = none)
    (gone : place' p = none) (arrived : place' q = some a)
    (same : ∀ r, r ≠ p → r ≠ q → place' r = place r) : Conserved place' issued := by
  have only (r : π) (hr : place r = some a) : r = p := (h.somewhere a (h.known p a hp)).unique hr hp
  have before (r : π) (b : α) (hr : place' r = some b) :
      r = q ∧ b = a ∨ b ≠ a ∧ place r = some b := by
    by_cases hrq : r = q
    · subst hrq
      exact .inl ⟨rfl, Option.some.inj (hr.symm.trans arrived)⟩
    · have hrp : r ≠ p := by
        rintro rfl
        rw [gone] at hr
        cases hr
      rw [same r hrp hrq] at hr
      refine .inr ⟨?_, hr⟩
      rintro rfl
      exact hrp (only r hr)
  refine ⟨fun b hb => ?_, fun r b hr => ?_⟩
  · by_cases hba : b = a
    · subst hba
      refine ⟨q, arrived, fun r hr => ?_⟩
      obtain ⟨hrq, _⟩ | ⟨hne, _⟩ := before r b hr
      · exact hrq
      · exact absurd rfl hne
    · obtain ⟨r, hr, unique⟩ := h.somewhere b hb
      have hrp : r ≠ p := by
        rintro rfl
        exact hba (Option.some.inj (hr.symm.trans hp))
      have hrq : r ≠ q := by
        rintro rfl
        simp [hq] at hr
      refine ⟨r, (same r hrp hrq).trans hr, fun z hz => ?_⟩
      obtain ⟨_, he⟩ | ⟨_, hz⟩ := before z b hz
      · exact absurd he hba
      · exact unique z hz
  · obtain ⟨_, rfl⟩ | ⟨_, hr⟩ := before r b hr
    · exact h.known p b hp
    · exact h.known r b hr

theorem Conserved.issue (h : Conserved place issued) (fresh : a ∉ issued) (hq : place q = none)
    (arrived : place' q = some a) (same : ∀ r, r ≠ q → place' r = place r) :
    Conserved place' (a :: issued) := by
  have before (r : π) (b : α) (hr : place' r = some b) : r = q ∧ b = a ∨ place r = some b := by
    by_cases hrq : r = q
    · subst hrq
      exact .inl ⟨rfl, Option.some.inj (hr.symm.trans arrived)⟩
    · exact .inr ((same r hrq).symm.trans hr)
  refine ⟨fun b hb => ?_, fun r b hr => ?_⟩
  · by_cases hba : b = a
    · subst hba
      refine ⟨q, arrived, fun r hr => ?_⟩
      obtain ⟨hrq, _⟩ | hr := before r b hr
      · exact hrq
      · exact absurd (h.known r b hr) fresh
    · obtain ⟨r, hr, unique⟩ := h.somewhere b (List.mem_of_ne_of_mem hba hb)
      have hrq : r ≠ q := by
        rintro rfl
        simp [hq] at hr
      refine ⟨r, (same r hrq).trans hr, fun z hz => ?_⟩
      obtain ⟨_, he⟩ | hz := before z b hz
      · exact absurd he hba
      · exact unique z hz
  · obtain ⟨_, rfl⟩ | hr := before r b hr
    · exact List.mem_cons_self
    · exact List.mem_cons_of_mem a (h.known r b hr)

end Px4Rs.Ledger
