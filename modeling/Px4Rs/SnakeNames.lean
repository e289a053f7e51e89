import Mathlib
import Px4Rs.Topics

/-! Message names made of capitalized words, and the names of topics and files they give. A
word that ends in a digit is not told from the one behind it. -/
namespace Px4Rs.SnakeNames
open Px4Rs.Message Px4Rs.Parser Px4Rs.Items Px4Rs.Topics
variable {w v : Text} {ws vs : List Text} {c : Char} {p : Option Char}

/-- A capital letter, a small one, then small letters and digits. -/
def CamelWord (w : Text) : Prop :=
  ∃ c d cs, w = c :: d :: cs ∧ c.isUpper ∧ d.isLower ∧ ∀ e ∈ cs, e.isLower ∨ e.isDigit

def lower (w : Text) : Text := w.map Char.toLower

/-- The last character is a letter. -/
def EndsInLetter (w : Text) : Prop := ∀ c ∈ w.getLast?, c.isLower = true

/-- An underscore between two words where the first ends in a letter. -/
def joined : List Text → Text
  | [] => []
  | [w] => lower w
  | w :: v :: ws =>
    lower w ++ (if w.getLast?.any Char.isLower then ['_'] else []) ++ joined (v :: ws)

/-- `xtask gen-msgs` writes the message of a stem to this file. -/
def outFile (stem : Text) : Text := camelToSnake stem ++ ".rs".toList

/-! One word. -/

theorem toLower_of_tail (h : c.isLower ∨ c.isDigit) : c.isUpper = false ∧ c.toLower = c := by
  have upper : ¬ c.isUpper := by
    obtain h | h := h
    · exact Char.not_isUpper_of_isLower h
    · simp only [Char.isDigit, Char.isUpper, Bool.and_eq_true, decide_eq_true_eq,
        UInt32.le_iff_toNat_le, Bool.decide_and] at h ⊢
      simp at h ⊢
      omega
  exact ⟨by simpa using upper, Char.toLower_eq_of_not_isUpper upper⟩

theorem camelToSnakeFrom_tail {cs : Text} (h : ∀ e ∈ cs, e.isLower ∨ e.isDigit)
    (p : Option Char) (t : Text) :
    camelToSnakeFrom p (cs ++ t) = cs ++ camelToSnakeFrom (cs.getLast?.or p) t := by
  induction cs generalizing p with
  | nil => rfl
  | cons c cs ih =>
    have small := toLower_of_tail (h c List.mem_cons_self)
    have rest := ih (fun e he => h e (List.mem_cons_of_mem c he)) (some c)
    have last : (c :: cs).getLast?.or p = cs.getLast?.or (some c) := by
      cases hl : cs.getLast? <;> simp [List.getLast?_cons, hl]
    rw [List.cons_append, camelToSnakeFrom, if_neg (by simp [small.1]), rest, last,
      List.cons_append]

/-- A word: an underscore in front if a small letter precedes it. -/
theorem camelToSnakeFrom_word (hw : CamelWord w) (hp : ∀ c ∈ p, c.isUpper = false) (t : Text) :
    camelToSnakeFrom p (w ++ t) =
      (if p.any Char.isLower then ['_'] else []) ++ lower w ++ camelToSnakeFrom w.getLast? t := by
  obtain ⟨c, d, cs, rfl, hc, hd, hcs⟩ := hw
  have tail : ∀ e ∈ d :: cs, e.isLower ∨ e.isDigit := by
    intro e he
    obtain rfl | he := List.mem_cons.mp he
    · exact .inl hd
    · exact hcs e he
  have before : (p.any fun q => q.isLower || (q.isUpper && (d :: cs ++ t).head?.any Char.isLower))
      = p.any Char.isLower := by
    cases p with
    | none => rfl
    | some q => simp [hp q rfl]
  have kept : lower (c :: d :: cs) = c.toLower :: d :: cs := by
    have same : (d :: cs).map Char.toLower = d :: cs :=
      (List.map_congr_left fun e he => (toLower_of_tail (tail e he)).2).trans (List.map_id _)
    rw [lower, List.map_cons, same]
  have rest := camelToSnakeFrom_tail tail (some c) t
  have last : (d :: cs).getLast?.or (some c) = (c :: d :: cs).getLast? := by
    simp [List.getLast?_cons]
  rw [List.cons_append, camelToSnakeFrom, if_pos hc]
  simp only [before, rest, last, kept]
  simp

theorem CamelWord.tail (hw : CamelWord w) :
    ∃ c cs, w = c :: cs ∧ c.isUpper ∧ cs ≠ [] ∧ ∀ e ∈ cs, e.isLower ∨ e.isDigit := by
  obtain ⟨c, d, cs, rfl, hc, hd, hcs⟩ := hw
  refine ⟨c, d :: cs, rfl, hc, by simp, fun e he => ?_⟩
  obtain rfl | he := List.mem_cons.mp he
  · exact .inl hd
  · exact hcs e he

theorem CamelWord.last (hw : CamelWord w) : ∀ c ∈ w.getLast?, c.isUpper = false := by
  obtain ⟨c, cs, rfl, _, ne, hcs⟩ := hw.tail
  intro e he
  rw [List.getLast?_cons_of_ne_nil ne] at he
  exact (toLower_of_tail (hcs e (List.mem_of_getLast? he))).1

/-! The words. -/

theorem camelToSnakeFrom_words (h : ∀ w ∈ ws, CamelWord w) (ne : ws ≠ [])
    (hp : ∀ c ∈ p, c.isUpper = false) :
    camelToSnakeFrom p ws.flatten = (if p.any Char.isLower then ['_'] else []) ++ joined ws := by
  induction ws generalizing p with
  | nil => exact absurd rfl ne
  | cons w ws ih =>
    have hw := h w List.mem_cons_self
    have word := camelToSnakeFrom_word hw hp ws.flatten
    rw [List.flatten_cons, word]
    cases ws with
    | nil => simp [joined, camelToSnakeFrom]
    | cons v ws =>
      have rest := ih (fun u hu => h u (List.mem_cons_of_mem w hu)) (by simp) hw.last
      rw [rest, joined]
      simp only [List.append_assoc]

theorem joined_eq_intercalate (h : ∀ w ∈ ws, CamelWord w)
    (letters : ∀ w ∈ ws.dropLast, EndsInLetter w) :
    joined ws = List.intercalate ['_'] (ws.map lower) := by
  induction ws with
  | nil => rfl
  | cons w ws ih =>
    cases ws with
    | nil => simp [joined]
    | cons v ws =>
      have ends : w.getLast?.any Char.isLower = true := by
        obtain ⟨c, cs, rfl, _⟩ := (h w List.mem_cons_self).tail
        have last := letters (c :: cs) (by simp)
        rw [EndsInLetter, List.getLast?_cons] at last
        rw [List.getLast?_cons]
        exact last _ rfl
      have rest := ih (fun u hu => h u (List.mem_cons_of_mem w hu))
        fun u hu => letters u (by simp at hu ⊢; exact .inr hu)
      rw [joined, rest, if_pos ends, List.map_cons, List.map_cons, List.map_cons,
        List.intercalate_cons_cons, List.append_assoc]

/-! The words can be told from the name. -/

theorem lower_injective (hw : CamelWord w) (hv : CamelWord v) (h : lower w = lower v) :
    w = v := by
  obtain ⟨c, cs, rfl, hc, _, hcs⟩ := hw.tail
  obtain ⟨d, ds, rfl, hd, _, hds⟩ := hv.tail
  have same {es : Text} (hes : ∀ e ∈ es, e.isLower ∨ e.isDigit) : es.map Char.toLower = es :=
    (List.map_congr_left fun e he => (toLower_of_tail (hes e he)).2).trans (List.map_id _)
  have raise {e : Char} (he : e.isUpper) : e.toLower.toUpper = e := by
    rw [Char.toUpper_toLower_eq_toUpper,
      Char.toUpper_eq_of_not_isLower (Char.not_isLower_of_isUpper he)]
  simp only [lower, List.map_cons, same hcs, same hds, List.cons.injEq] at h
  rw [← raise hc, h.1, raise hd, h.2]

theorem underscore_not_mem (hw : CamelWord w) : '_' ∉ lower w := by
  obtain ⟨c, cs, rfl, hc, _, hcs⟩ := hw.tail
  intro hm
  obtain ⟨e, he, h⟩ := List.mem_map.mp hm
  have alpha : e.toLower.isLower ∨ e.toLower.isDigit := by
    obtain rfl | he := List.mem_cons.mp he
    · exact .inl (by simp [Char.isAlpha, hc])
    · rw [(toLower_of_tail (hcs e he)).2]
      exact hcs e he
  rw [h] at alpha
  revert alpha
  decide

theorem words_unique (hw : ∀ w ∈ ws, CamelWord w) (hv : ∀ v ∈ vs, CamelWord v) (ws_ne : ws ≠ [])
    (vs_ne : vs ≠ [])
    (h : List.intercalate ['_'] (ws.map lower) = List.intercalate ['_'] (vs.map lower)) :
    ws = vs := by
  have split {us : List Text} (hu : ∀ u ∈ us, CamelWord u) (ne : us ≠ []) :
      (List.intercalate ['_'] (us.map lower)).splitOn '_' = us.map lower := by
    refine List.splitOn_intercalate '_' (fun l hl => ?_) (by simpa using ne)
    obtain ⟨u, hu', rfl⟩ := List.mem_map.mp hl
    exact underscore_not_mem (hu u hu')
  have maps := split hw ws_ne
  rw [h, split hv vs_ne] at maps
  clear h split ws_ne vs_ne
  induction ws generalizing vs with
  | nil => simpa using maps
  | cons w ws ih =>
    cases vs with
    | nil => simp at maps
    | cons v vs =>
      simp only [List.map_cons, List.cons.injEq] at maps
      rw [lower_injective (hw w List.mem_cons_self) (hv v List.mem_cons_self) maps.1.symm,
        ih (fun u hu => hw u (List.mem_cons_of_mem w hu))
          (fun u hu => hv u (List.mem_cons_of_mem v hu)) maps.2]

/-- The words in lower case, with an underscore behind each but the last that ends in a letter.
Where they all do, other words have other topics and another file. -/
theorem camelToSnake_words (ne : ws ≠ []) (h : ∀ w ∈ ws, CamelWord w) :
    camelToSnake ws.flatten = joined ws ∧
      ((∀ w ∈ ws.dropLast, EndsInLetter w) →
        camelToSnake ws.flatten = List.intercalate ['_'] (ws.map lower) ∧
        ∀ vs, vs ≠ [] → (∀ v ∈ vs, CamelWord v) → (∀ v ∈ vs.dropLast, EndsInLetter v) →
          ws.flatten ≠ vs.flatten →
            outFile ws.flatten ≠ outFile vs.flatten ∧
            ∀ text text' d d', parseStr ws.flatten text = .ok d →
              parseStr vs.flatten text' = .ok d' → directives text = [] → directives text' = [] →
              ∀ t ∈ d.topics, t ∉ d'.topics) := by
  have spelled {us : List Text} (ne : us ≠ []) (hu : ∀ u ∈ us, CamelWord u) :
      camelToSnake us.flatten = joined us :=
    camelToSnakeFrom_words hu ne (by rintro _ ⟨⟩)
  refine ⟨spelled ne h, fun letters => ⟨?_, fun vs vs_ne hv v_letters differ => ?_⟩⟩
  · rw [spelled ne h, joined_eq_intercalate h letters]
  · have names : camelToSnake ws.flatten ≠ camelToSnake vs.flatten := by
      intro same
      rw [spelled ne h, spelled vs_ne hv, joined_eq_intercalate h letters,
        joined_eq_intercalate hv v_letters] at same
      exact differ (congrArg List.flatten (words_unique h hv ne vs_ne same))
    refine ⟨fun same => names (List.append_cancel_right same), ?_⟩
    intro text text' d d' hd hd' none none' t ht ht'
    rw [topics_of_parseStr hd, none] at ht
    rw [topics_of_parseStr hd', none'] at ht'
    simp only [List.getLast?_nil, Option.getD_none, List.mem_singleton] at ht ht'
    exact names (ht.symm.trans ht')

theorem camelWord_vtx2 : CamelWord "Vtx2".toList := ⟨'V', 't', ['x', '2'], rfl, rfl, rfl, by simp⟩

theorem camelWord_status : CamelWord "Status".toList :=
  ⟨'S', 't', "atus".toList, rfl, rfl, rfl, by simp⟩

theorem camelToSnake_words_status :
    let ws := ["Status".toList, "Vtx2".toList]
    camelToSnake ws.flatten = joined ws ∧
      ((∀ w ∈ ws.dropLast, EndsInLetter w) →
        camelToSnake ws.flatten = List.intercalate ['_'] (ws.map lower) ∧
        ∀ vs, vs ≠ [] → (∀ v ∈ vs, CamelWord v) → (∀ v ∈ vs.dropLast, EndsInLetter v) →
          ws.flatten ≠ vs.flatten →
            outFile ws.flatten ≠ outFile vs.flatten ∧
            ∀ text text' d d', parseStr ws.flatten text = .ok d →
              parseStr vs.flatten text' = .ok d' → directives text = [] → directives text' = [] →
              ∀ t ∈ d.topics, t ∉ d'.topics) := by
  refine camelToSnake_words (by simp) fun w hw => ?_
  obtain rfl | rfl : w = "Status".toList ∨ w = "Vtx2".toList := by simpa using hw
  · exact camelWord_status
  · exact camelWord_vtx2

/-- `Vtx2Status` gives `vtx2status`, as `Vtx2status` does. -/
theorem digit_not_split : ¬ ∀ ws : List Text, ws ≠ [] → (∀ w ∈ ws, CamelWord w) →
    camelToSnake ws.flatten = List.intercalate ['_'] (ws.map lower) := by
  intro claim
  have split := claim ["Vtx2".toList, "Status".toList] (by simp) fun w hw => by
    obtain rfl | rfl : w = "Vtx2".toList ∨ w = "Status".toList := by simpa using hw
    · exact camelWord_vtx2
    · exact camelWord_status
  revert split
  decide

end Px4Rs.SnakeNames
