import Px4Rs.Parser
import Px4Rs.Words

/-! What the parser's string functions find in a text, in terms of how the text is put
together from blanks, words and separators. -/
namespace Px4Rs.Strings
open Px4Rs.Message Px4Rs.Parser Px4Rs.Words
variable {b e t u v w : Text} {ws : List Text} {c : Char}

abbrev Blank (t : Text) : Prop := Words.Blank isWhitespace t
abbrev Word (w : Text) : Prop := Words.Word isWhitespace w
abbrev Spaced (ws : List Text) (t : Text) : Prop := Words.Spaced isWhitespace ws t
abbrev Trimmed (t : Text) : Prop := Words.Trimmed isWhitespace t

/-! `trim`. -/

theorem dropWhile_blank (hb : Blank b) (head : ∀ c ∈ u.head?, isWhitespace c = false) :
    (b ++ u).dropWhile isWhitespace = u := by
  rw [List.dropWhile_append_of_pos hb]
  cases u with
  | nil => rfl
  | cons c u => exact List.dropWhile_cons_of_neg (by simp [head c (by simp)])

theorem trim_eq (hb : Blank b) (hu : Trimmed u) (he : Blank e) : trim (b ++ u ++ e) = u := by
  cases u with
  | nil =>
    have all : Blank (b ++ e) := blank_append.mpr ⟨hb, he⟩
    have none : (b ++ e).dropWhile isWhitespace = [] := by
      rw [← List.append_nil (b ++ e)]
      exact dropWhile_blank all (by simp)
    simp [trim, none]
  | cons c u =>
    have front : (b ++ (c :: u) ++ e).dropWhile isWhitespace = (c :: u) ++ e := by
      rw [List.append_assoc]
      exact dropWhile_blank hb (by simpa using hu.head)
    have back : (e.reverse ++ (c :: u).reverse).dropWhile isWhitespace = (c :: u).reverse := by
      refine dropWhile_blank (blank_reverse.mpr he) ?_
      rw [List.head?_reverse]
      exact hu.last
    simp only [trim, front, List.reverse_append]
    rw [back, List.reverse_reverse]

theorem exists_trim (t : Text) : ∃ b e, t = b ++ trim t ++ e ∧ Blank b ∧ Blank e := by
  obtain ⟨b, u, e, ht, hb, hu, he⟩ := exists_trimmed isWhitespace t
  refine ⟨b, e, ?_, hb, he⟩
  rw [ht, trim_eq hb hu he]

theorem trimmed_trim (t : Text) : Trimmed (trim t) := by
  obtain ⟨b, u, e, ht, hb, hu, he⟩ := exists_trimmed isWhitespace t
  rw [ht, trim_eq hb hu he]
  exact hu

theorem trim_blank_append (hb : Blank b) (t : Text) : trim (b ++ t) = trim t := by
  obtain ⟨b', e, ht, hb', he⟩ := exists_trim t
  have h := trim_eq (blank_append.mpr ⟨hb, hb'⟩) (trimmed_trim t) he
  rw [List.append_assoc, List.append_assoc, ← List.append_assoc b', ← ht] at h
  exact h

theorem trim_append_blank (t : Text) (he : Blank e) : trim (t ++ e) = trim t := by
  obtain ⟨b, e', ht, hb, he'⟩ := exists_trim t
  have h := trim_eq hb (trimmed_trim t) (blank_append.mpr ⟨he', he⟩)
  rw [← List.append_assoc, ← ht] at h
  exact h

theorem trim_eq_nil : trim t = [] ↔ Blank t := by
  constructor
  · intro h
    obtain ⟨b, e, ht, hb, he⟩ := exists_trim t
    rw [ht, h, List.append_nil]
    exact blank_append.mpr ⟨hb, he⟩
  · intro h
    have nil : trim [] = [] := rfl
    rw [← nil, ← trim_append_blank [] h, List.nil_append]

theorem exists_trim_around (u v : Text) (hc : isWhitespace c = false) :
    ∃ b u' v' e, u = b ++ u' ∧ v = v' ++ e ∧ Blank b ∧ Blank e ∧
      trim (u ++ c :: v) = u' ++ c :: v' := by
  obtain ⟨b, u', v', e, hu, hv, hb, he, trimmed⟩ := exists_around u v hc
  refine ⟨b, u', v', e, hu, hv, hb, he, ?_⟩
  have h := trim_eq hb trimmed he
  rw [hu, hv]
  simpa using h

theorem exists_trim_after {p : Text} (hp : Trimmed p) (ne : p ≠ []) (hb : Blank b) (u : Text) :
    ∃ u' e, u = u' ++ e ∧ Blank e ∧ trim (b ++ (p ++ u)) = p ++ u' := by
  obtain ⟨u', e, rfl, he, trimmed⟩ := exists_after hp ne u
  refine ⟨u', e, rfl, he, ?_⟩
  have h := trim_eq hb trimmed he
  simpa using h

/-! `split_whitespace`. -/

theorem splitWhitespaceFrom_word (word : Text) (hw : ∀ c ∈ w, isWhitespace c = false) (t : Text) :
    splitWhitespaceFrom word (w ++ t) = splitWhitespaceFrom (w.reverse ++ word) t := by
  induction w generalizing word with
  | nil => rfl
  | cons c w ih =>
    have hc : isWhitespace c = false := hw c (by simp)
    have step : splitWhitespaceFrom word (c :: (w ++ t)) =
        splitWhitespaceFrom (c :: word) (w ++ t) := by
      simp [splitWhitespaceFrom, hc]
    rw [List.cons_append, step, ih _ fun d hd => hw d (by simp [hd])]
    simp

theorem splitWhitespaceFrom_blank (hb : Blank b) (t : Text) :
    splitWhitespaceFrom [] (b ++ t) = splitWhitespaceFrom [] t := by
  induction b with
  | nil => rfl
  | cons c b ih =>
    have hc : isWhitespace c = true := hb c (by simp)
    have step : splitWhitespaceFrom [] (c :: (b ++ t)) = splitWhitespaceFrom [] (b ++ t) := by
      simp [splitWhitespaceFrom, hc]
    rw [List.cons_append, step, ih fun d hd => hb d (by simp [hd])]

theorem splitWhitespaceFrom_end {word : Text} (hw : word ≠ [])
    (sep : ∀ c ∈ t.head?, isWhitespace c = true) :
    splitWhitespaceFrom word t = word.reverse :: splitWhitespaceFrom [] t := by
  cases t with
  | nil => simp [splitWhitespaceFrom, hw]
  | cons c t =>
    have hc : isWhitespace c = true := sep c (by simp)
    simp [splitWhitespaceFrom, hc, hw]

theorem splitWhitespace_eq (h : Spaced ws t) : splitWhitespace t = ws := by
  unfold splitWhitespace
  induction h with
  | nil ht =>
    have h := splitWhitespaceFrom_blank ht []
    rw [List.append_nil] at h
    exact h.trans rfl
  | @cons b w t ws hb hw sep _ ih =>
    have ne : w.reverse ≠ [] := by simpa using hw.ne_nil
    rw [List.append_assoc, splitWhitespaceFrom_blank hb, splitWhitespaceFrom_word [] hw.solid,
      List.append_nil, splitWhitespaceFrom_end ne sep, List.reverse_reverse, ih]

theorem spaced_splitWhitespace (t : Text) : Spaced (splitWhitespace t) t := by
  obtain ⟨ws, h⟩ := exists_spaced isWhitespace t
  rwa [splitWhitespace_eq h]

theorem splitWhitespace_trim (t : Text) : splitWhitespace (trim t) = splitWhitespace t := by
  obtain ⟨b, e, ht, hb, he⟩ := exists_trim t
  have h := ((spaced_splitWhitespace (trim t)).append_left hb).append_right he
  rw [← ht] at h
  exact (splitWhitespace_eq h).symm

theorem splitWhitespace_append_blank (t : Text) (he : Blank e) :
    splitWhitespace (t ++ e) = splitWhitespace t :=
  splitWhitespace_eq ((spaced_splitWhitespace t).append_right he)

theorem splitWhitespace_eq_nil : splitWhitespace t = [] ↔ Blank t := by
  constructor
  · intro h
    have spaced := spaced_splitWhitespace t
    rw [h] at spaced
    cases spaced with
    | nil ht => exact ht
  · intro h
    exact splitWhitespace_eq (.nil h)

/-! `find` of a character. -/

theorem splitOnce_append (h : c ∉ u) (v : Text) : splitOnce c (u ++ c :: v) = some (u, v) := by
  induction u with
  | nil => simp [splitOnce]
  | cons d u ih =>
    simp only [List.mem_cons, not_or] at h
    simp [splitOnce, Ne.symm h.1, ih h.2]

theorem splitOnce_of_not_mem (h : c ∉ t) : splitOnce c t = none := by
  induction t with
  | nil => rfl
  | cons d t ih =>
    simp only [List.mem_cons, not_or] at h
    simp [splitOnce, Ne.symm h.1, ih h.2]

theorem splitOnce_eq_some : splitOnce c t = some (u, v) ↔ t = u ++ c :: v ∧ c ∉ u := by
  constructor
  · intro h
    have hc : c ∈ t := by
      by_contra hc
      rw [splitOnce_of_not_mem hc] at h
      cases h
    obtain ⟨u', v', rfl, hu⟩ := List.eq_append_cons_of_mem hc
    rw [splitOnce_append hu] at h
    cases h
    exact ⟨rfl, hu⟩
  · rintro ⟨rfl, hu⟩
    exact splitOnce_append hu v

/-! `strip_prefix`. -/

theorem stripPrefix_append (p t : Text) : stripPrefix p (p ++ t) = some t := by
  induction p with
  | nil => cases t <;> rfl
  | cons c p ih => simpa [stripPrefix] using ih

theorem stripPrefix_eq_some {p : Text} : stripPrefix p t = some u ↔ t = p ++ u := by
  constructor
  · intro h
    induction p generalizing t with
    | nil => simpa [stripPrefix] using h
    | cons c p ih =>
      cases t with
      | nil => cases h
      | cons d t =>
        by_cases hd : c = d
        · subst hd
          simp only [stripPrefix, if_pos] at h
          rw [ih h, List.cons_append]
        · simp [stripPrefix, hd] at h
  · rintro rfl
    exact stripPrefix_append p u

theorem stripPrefix_eq_none {p : Text} : stripPrefix p t = none ↔ ¬ p <+: t := by
  constructor
  · rintro h ⟨u, rfl⟩
    rw [stripPrefix_append] at h
    cases h
  · intro h
    cases hs : stripPrefix p t with
    | none => rfl
    | some u => exact absurd ⟨u, (stripPrefix_eq_some.mp hs).symm⟩ h

/-! `lines`. -/

/-- A text made of lines, each ended by LF or CRLF, the last one perhaps not ended. -/
inductive Ends : List Text → Text → Prop
  | nil : Ends [] []
  | last {l : Text} : l ≠ [] → '\n' ∉ l → Ends [l] l
  | lf {l t : Text} {ls : List Text} : '\n' ∉ l → Ends ls t → Ends (l :: ls) (l ++ '\n' :: t)
  | crlf {l t : Text} {ls : List Text} : '\n' ∉ l → Ends ls t →
      Ends (l :: ls) (l ++ '\r' :: '\n' :: t)

theorem linesFrom_append (h : '\n' ∉ u) (line t : Text) :
    linesFrom line (u ++ t) = linesFrom (u.reverse ++ line) t := by
  induction u generalizing line with
  | nil => rfl
  | cons c u ih =>
    simp only [List.mem_cons, not_or] at h
    simp [linesFrom, Ne.symm h.1, ih h.2]

/-- Up to the blanks at their ends these are the lines that are found; a CR before an LF
belongs to no line. -/
theorem lines_map_trim {ls : List Text} (h : Ends ls t) : (lines t).map trim = ls.map trim := by
  unfold lines
  induction h with
  | nil => rfl
  | @last l ne hl =>
    have found := linesFrom_append hl [] []
    rw [List.append_nil, List.append_nil] at found
    simp [found, linesFrom, ne]
  | @lf l t ls hl _ ih =>
    rw [linesFrom_append hl, List.append_nil]
    obtain rfl | ⟨l, c, rfl⟩ := List.eq_nil_or_concat l
    · simpa [linesFrom] using ih
    · by_cases hc : c = '\r'
      · subst hc
        have cr : trim (l ++ ['\r']) = trim l := trim_append_blank l (by simp [Words.Blank]; decide)
        simp [linesFrom, ih, cr]
      · simp [linesFrom, hc, ih]
  | @crlf l t ls hl _ ih =>
    rw [linesFrom_append hl, List.append_nil]
    simp [linesFrom, ih]

end Px4Rs.Strings
