import Mathlib.Data.List.Basic

/-! Texts over any alphabet with blanks: words with blanks around and between them, texts
without blanks at their ends, and what a first separator cuts off. -/
namespace Px4Rs.Words
variable {α : Type*} {blank : α → Bool} {b e t u w : List α} {ws : List (List α)} {c : α}

def Blank (blank : α → Bool) (t : List α) : Prop := ∀ c ∈ t, blank c = true

structure Word (blank : α → Bool) (w : List α) : Prop where
  ne_nil : w ≠ []
  solid : ∀ c ∈ w, blank c = false

/-- The words `ws`, blanks around them and at least one between any two. -/
inductive Spaced (blank : α → Bool) : List (List α) → List α → Prop
  | nil {t : List α} : Blank blank t → Spaced blank [] t
  | cons {b w t : List α} {ws : List (List α)} : Blank blank b → Word blank w →
      (∀ c ∈ t.head?, blank c = true) → Spaced blank ws t → Spaced blank (w :: ws) (b ++ w ++ t)

/-- No blank at either end. -/
structure Trimmed (blank : α → Bool) (t : List α) : Prop where
  head : ∀ c ∈ t.head?, blank c = false
  last : ∀ c ∈ t.getLast?, blank c = false

theorem blank_nil : Blank blank [] := by simp [Blank]

theorem blank_append : Blank blank (t ++ u) ↔ Blank blank t ∧ Blank blank u := by
  simp [Blank, or_imp, forall_and]

theorem blank_reverse : Blank blank t.reverse ↔ Blank blank t := by simp [Blank]

theorem Blank.head (h : Blank blank t) : ∀ c ∈ t.head?, blank c = true :=
  fun c hc => h c (List.mem_of_mem_head? hc)

theorem Blank.not_mem (h : Blank blank t) (hc : blank c = false) : c ∉ t := by
  intro hm
  rw [h c hm] at hc
  cases hc

theorem Spaced.append_left (hb : Blank blank b) (h : Spaced blank ws t) :
    Spaced blank ws (b ++ t) := by
  cases h with
  | nil ht => exact .nil (blank_append.mpr ⟨hb, ht⟩)
  | cons hb' hw sep rest =>
    rw [← List.append_assoc, ← List.append_assoc]
    exact .cons (blank_append.mpr ⟨hb, hb'⟩) hw sep rest

theorem Spaced.append_right (h : Spaced blank ws t) (he : Blank blank e) :
    Spaced blank ws (t ++ e) := by
  induction h with
  | nil ht => exact .nil (blank_append.mpr ⟨ht, he⟩)
  | @cons b w t ws hb hw sep rest ih =>
    rw [List.append_assoc]
    refine .cons hb hw ?_ ih
    cases t with
    | nil => exact he.head
    | cons c t => exact sep

theorem Spaced.word (h : Spaced blank ws t) : ∀ w ∈ ws, Word blank w := by
  induction h with
  | nil _ => simp
  | cons _ hw _ _ ih => simpa using ⟨hw, ih⟩

theorem Spaced.not_mem (h : Spaced blank ws t) (hc : blank c = false) (out : ∀ w ∈ ws, c ∉ w) :
    c ∉ t := by
  induction h with
  | nil ht => exact ht.not_mem hc
  | cons hb _ _ _ ih =>
    simp only [List.mem_append, not_or]
    exact ⟨⟨hb.not_mem hc, out _ (by simp)⟩, ih fun w hw => out w (by simp [hw])⟩

theorem Spaced.not_blank (h : Spaced blank (w :: ws) t) : ¬ Blank blank t := by
  intro ht
  cases h with
  | cons _ hw _ _ =>
    obtain ⟨c, hc⟩ := List.exists_mem_of_ne_nil _ hw.ne_nil
    have solid := hw.solid c hc
    rw [ht c (by simp [hc])] at solid
    cases solid

theorem exists_spaced_after (blank : α → Bool) (t : List α) :
    ∃ w r ws, t = w ++ r ∧ (∀ c ∈ w, blank c = false) ∧ (∀ c ∈ r.head?, blank c = true) ∧
      Spaced blank ws r := by
  induction t with
  | nil => exact ⟨[], [], [], rfl, by simp, by simp, .nil blank_nil⟩
  | cons c t ih =>
    obtain ⟨w, r, ws, rfl, hw, sep, spaced⟩ := ih
    cases hc : blank c with
    | false => exact ⟨c :: w, r, ws, rfl, by simpa using ⟨hc, hw⟩, sep, spaced⟩
    | true =>
      have one : Blank blank [c] := by simpa [Blank] using hc
      cases w with
      | nil => exact ⟨[], c :: r, ws, rfl, by simp, by simpa using hc, spaced.append_left one⟩
      | cons d w =>
        refine ⟨[], c :: (d :: w ++ r), (d :: w) :: ws, rfl, by simp, by simpa using hc, ?_⟩
        exact .cons one ⟨by simp, hw⟩ sep spaced

theorem exists_spaced (blank : α → Bool) (t : List α) : ∃ ws, Spaced blank ws t := by
  obtain ⟨w, r, ws, rfl, hw, sep, spaced⟩ := exists_spaced_after blank t
  cases w with
  | nil => exact ⟨ws, spaced⟩
  | cons c w => exact ⟨(c :: w) :: ws, .cons blank_nil ⟨by simp, hw⟩ sep spaced⟩

theorem exists_front (blank : α → Bool) (t : List α) :
    ∃ b u, t = b ++ u ∧ Blank blank b ∧ ∀ c ∈ u.head?, blank c = false := by
  induction t with
  | nil => exact ⟨[], [], rfl, blank_nil, by simp⟩
  | cons c t ih =>
    cases hc : blank c with
    | false => exact ⟨[], c :: t, rfl, blank_nil, by simpa using hc⟩
    | true =>
      obtain ⟨b, u, rfl, hb, hu⟩ := ih
      exact ⟨c :: b, u, rfl, by simpa [Blank] using ⟨hc, hb⟩, hu⟩

theorem exists_back (blank : α → Bool) (t : List α) :
    ∃ u e, t = u ++ e ∧ Blank blank e ∧ ∀ c ∈ u.getLast?, blank c = false := by
  obtain ⟨e, u, h, he, hu⟩ := exists_front blank t.reverse
  refine ⟨u.reverse, e.reverse, ?_, blank_reverse.mpr he, by simpa using hu⟩
  rw [← List.reverse_append, ← h, List.reverse_reverse]

theorem exists_after {p : List α} (hp : Trimmed blank p) (ne : p ≠ []) (u : List α) :
    ∃ u' e, u = u' ++ e ∧ Blank blank e ∧ Trimmed blank (p ++ u') := by
  obtain ⟨u', e, hu, he, last⟩ := exists_back blank u
  refine ⟨u', e, hu, he, ?_, ?_⟩
  · rw [List.head?_append_of_ne_nil _ ne]
    exact hp.head
  · by_cases hu' : u' = []
    · rw [hu', List.append_nil]
      exact hp.last
    · rw [List.getLast?_append_of_ne_nil _ hu']
      exact last

theorem exists_around (u v : List α) (hc : blank c = false) :
    ∃ b u' v' e, u = b ++ u' ∧ v = v' ++ e ∧ Blank blank b ∧ Blank blank e ∧
      Trimmed blank (u' ++ c :: v') := by
  obtain ⟨b, u', hu, hb, head⟩ := exists_front blank u
  obtain ⟨v', e, hv, he, last⟩ := exists_back blank v
  refine ⟨b, u', v', e, hu, hv, hb, he, ?_, ?_⟩
  · cases u' with
    | nil => simpa using hc
    | cons d l => simpa using head
  · obtain rfl | ⟨l, d, rfl⟩ := List.eq_nil_or_concat v'
    · simpa using hc
    · simpa [List.getLast?_cons] using last

theorem exists_trimmed (blank : α → Bool) (t : List α) :
    ∃ b u e, t = b ++ u ++ e ∧ Blank blank b ∧ Trimmed blank u ∧ Blank blank e := by
  obtain ⟨b, u, rfl, hb, head⟩ := exists_front blank t
  obtain ⟨v, e, rfl, he, last⟩ := exists_back blank u
  refine ⟨b, v, e, (List.append_assoc ..).symm, hb, ⟨fun c hc => head c ?_, last⟩, he⟩
  cases v with
  | nil => cases hc
  | cons d l => exact hc

end Px4Rs.Words
