import Px4Rs.Items

/-! The parser reads a text line by line: what a line declares or fails with does not depend
on the lines around it, and the first line that fails ends the parse. -/
namespace Px4Rs.LineLocal
open Px4Rs.Message Px4Rs.Parser Px4Rs.Items
variable {name text l t₁ t₂ : Text} {p q : Parsed} {e : ParseError} {d d₁ d₂ : MsgDef} {n k : Nat}
  {ls as bs : List Text} {msg : String}

/-! Cutting the text behind a newline. -/

theorem linesFrom_newline (line t u : Text) :
    linesFrom line (t ++ '\n' :: u) = linesFrom line (t ++ ['\n']) ++ linesFrom [] u := by
  induction t generalizing line with
  | nil =>
    simp only [List.nil_append, linesFrom, if_true, List.cons_append]
  | cons c t ih =>
    simp only [List.cons_append, linesFrom]
    split
    · rw [ih, List.cons_append]
    · exact ih (c :: line)

theorem lines_append (h : t₁.getLast? = some '\n') : lines (t₁ ++ t₂) = lines t₁ ++ lines t₂ := by
  obtain ⟨t, rfl⟩ := List.getLast?_eq_some_iff.mp h
  rw [List.append_assoc]
  exact linesFrom_newline [] t t₂

/-! The number of a line is only in its error. -/

/-- The same error on line `n`. -/
def atLine (n : Nat) : ParseError → ParseError
  | .syntaxError _ msg => .syntaxError n msg
  | e => e

theorem parseConstant_renumber (n k : Nat) (lhs rhs : Text) :
    parseConstant n lhs rhs = (parseConstant k lhs rhs).mapError (atLine n) := by
  unfold parseConstant
  split
  on_goal 3 => split
  all_goals rfl

theorem parseField_renumber (n k : Nat) (code : Text) :
    parseField n code = (parseField k code).mapError (atLine n) := by
  unfold parseField
  split
  on_goal 3 => split
  all_goals rfl

theorem map_mapError {α β : Type} (f : α → β) (g : ParseError → ParseError)
    (x : Except ParseError α) : (x.mapError g).map f = (x.map f).mapError g := by
  cases x <;> rfl

theorem lineItem_renumber (n k : Nat) (l : Text) :
    lineItem n l = (lineItem k l).mapError (atLine n) := by
  unfold lineItem
  cases stripPrefix ['#'] (trim l) with
  | some rest =>
    simp only [hashItem]
    split
    · split <;> rfl
    · rfl
  | none =>
    simp only [codeItem]
    split
    · rfl
    · split
      · rw [parseConstant_renumber n k, map_mapError]
      · rw [parseField_renumber n k, map_mapError]

theorem lineItem_error_at (h : lineItem n l = .error (.syntaxError n msg)) (k : Nat) :
    lineItem k l = .error (.syntaxError k msg) := by
  rw [lineItem_renumber k n, h]
  rfl

/-! The first line that fails. -/

theorem parseLines_cons (n : Nat) (p : Parsed) (l : Text) (ls : List Text) :
    parseLines n p (l :: ls) =
      ((lineItem n l).map (declare p)).bind fun p => parseLines (n + 1) p ls := by
  rw [← parseLine_eq]
  rfl

/-- The first of the lines from number `n` on that cannot be read fails with `e`. -/
def FirstBad (n : Nat) (ls : List Text) (e : ParseError) : Prop :=
  ∃ before l after, ls = before ++ l :: after ∧ (∀ x ∈ before, ∃ i, Reads x i) ∧
    lineItem (n + before.length) l = .error e

theorem firstBad_cons (hl : ∃ i, Reads l i) : FirstBad n (l :: ls) e ↔ FirstBad (n + 1) ls e := by
  obtain ⟨i, read⟩ := hl
  constructor
  · rintro ⟨before, x, after, cut, reads, bad⟩
    cases before with
    | nil =>
      obtain ⟨rfl, rfl⟩ := List.cons.inj cut
      rw [read] at bad
      cases bad
    | cons y before =>
      obtain ⟨rfl, rfl⟩ := List.cons.inj cut
      refine ⟨before, x, after, rfl, fun z hz => reads z (List.mem_cons_of_mem l hz), ?_⟩
      rwa [List.length_cons, ← Nat.add_assoc, Nat.add_right_comm] at bad
  · rintro ⟨before, x, after, rfl, reads, bad⟩
    refine ⟨l :: before, x, after, rfl, ?_, ?_⟩
    · simpa using ⟨⟨i, read⟩, reads⟩
    · rwa [List.length_cons, ← Nat.add_assoc, Nat.add_right_comm]

theorem parseLines_error_iff : parseLines n p ls = .error e ↔ FirstBad n ls e := by
  induction ls generalizing n p with
  | nil =>
    constructor
    · rintro ⟨⟩
    · rintro ⟨before, l, after, cut, _⟩
      simp at cut
  | cons l ls ih =>
    rw [parseLines_cons]
    cases hl : lineItem n l with
    | ok i =>
      rw [firstBad_cons ⟨i, lineItem_ok hl⟩]
      exact ih
    | error e' =>
      have ends : (((Except.error e' : Except ParseError (Option Item)).map (declare p)).bind
          fun p => parseLines (n + 1) p ls) = .error e' := rfl
      rw [ends]
      constructor
      · intro h
        cases h
        exact ⟨[], l, ls, rfl, by simp, hl⟩
      · rintro ⟨before, x, after, cut, reads, bad⟩
        cases before with
        | nil =>
          obtain ⟨rfl, rfl⟩ := List.cons.inj cut
          rw [← Except.error.inj (hl.symm.trans bad)]
        | cons y before =>
          -- the line that fails is before every other
          obtain ⟨rfl, rfl⟩ := List.cons.inj cut
          obtain ⟨i, read⟩ := reads l (by simp)
          rw [read] at hl
          cases hl

theorem parseStr_error_iff : parseStr name text = .error e ↔ FirstBad 1 (lines text) e := by
  rw [parseStr_eq, ← parseLines_error_iff (p := ⟨[], [], none⟩)]
  cases parseLines 1 ⟨[], [], none⟩ (lines text) <;> simp [Except.map]

theorem FirstBad.append (h : FirstBad n as e) : FirstBad n (as ++ bs) e := by
  obtain ⟨before, l, after, rfl, reads, bad⟩ := h
  exact ⟨before, l, after ++ bs, by simp, reads, bad⟩

theorem FirstBad.later (h : FirstBad n bs (.syntaxError k msg))
    (reads : ∀ x ∈ as, ∃ i, Reads x i) :
    FirstBad n (as ++ bs) (.syntaxError (k + as.length) msg) := by
  obtain ⟨before, l, after, rfl, rest, bad⟩ := h
  obtain ⟨msg', same⟩ := lineItem_error bad
  obtain ⟨rfl, rfl⟩ := ParseError.syntaxError.inj same
  refine ⟨as ++ before, l, after, by simp, ?_, ?_⟩
  · intro x hx
    exact (List.mem_append.mp hx).elim (reads x) (rest x)
  · have moved := lineItem_error_at bad (n + (as ++ before).length)
    rw [moved, List.length_append]
    congr 2
    omega

theorem exists_reads {ls : List Text} :
    (∃ is, List.Forall₂ Reads ls is) ↔ ∀ x ∈ ls, ∃ i, Reads x i := by
  induction ls with
  | nil => exact ⟨fun _ => by simp, fun _ => ⟨[], .nil⟩⟩
  | cons l ls ih =>
    rw [List.forall_mem_cons, ← ih]
    constructor
    · rintro ⟨_, _ | ⟨read, reads⟩⟩
      exact ⟨⟨_, read⟩, _, reads⟩
    · rintro ⟨⟨i, read⟩, is, reads⟩
      exact ⟨i :: is, .cons read reads⟩

theorem accepts_iff : (∃ d, parseStr name text = .ok d) ↔ ∀ x ∈ lines text, ∃ i, Reads x i := by
  rw [← exists_reads]
  simp only [parseStr_ok]
  constructor
  · rintro ⟨_, is, reads, _⟩
    exact ⟨is, reads⟩
  · rintro ⟨is, reads⟩
    exact ⟨_, is, reads, rfl⟩

/-! The same of the loop's body. -/

theorem readable_iff : (∃ i, Reads l i) ↔ ∀ n p, ∃ q, parseLine n l p = .ok q := by
  constructor
  · rintro ⟨i, read⟩ n p
    exact ⟨declare p i, by rw [parseLine_eq, read]; rfl⟩
  · intro h
    obtain ⟨q, hq⟩ := h 0 ⟨[], [], none⟩
    rw [parseLine_eq] at hq
    cases hl : lineItem 0 l with
    | error e => simp [hl, Except.map] at hq
    | ok i => exact ⟨i, lineItem_ok hl⟩

theorem fails_iff : lineItem n l = .error e ↔ ∀ p, parseLine n l p = .error e := by
  constructor
  · intro h p
    rw [parseLine_eq, h]
    rfl
  · intro h
    have hp := h ⟨[], [], none⟩
    rw [parseLine_eq] at hp
    cases hl : lineItem n l with
    | ok i => simp [hl, Except.map] at hp
    | error e' =>
      rw [hl] at hp
      cases hp
      rfl

/-! Two texts, the first of them ended by a newline. -/

theorem accepts_append (h : t₁.getLast? = some '\n') :
    (∃ d, parseStr name (t₁ ++ t₂) = .ok d) ↔
      (∃ d, parseStr name t₁ = .ok d) ∧ ∃ d, parseStr name t₂ = .ok d := by
  rw [accepts_iff, accepts_iff, accepts_iff, lines_append h, List.forall_mem_append]

theorem declarations_append (h : t₁.getLast? = some '\n') (h₁ : parseStr name t₁ = .ok d₁)
    (h₂ : parseStr name t₂ = .ok d₂) (hd : parseStr name (t₁ ++ t₂) = .ok d) :
    d.fields = d₁.fields ++ d₂.fields ∧ d.constants = d₁.constants ++ d₂.constants := by
  obtain ⟨is₁, first, rfl⟩ := parseStr_ok.mp h₁
  obtain ⟨is₂, second, rfl⟩ := parseStr_ok.mp h₂
  have reads : List.Forall₂ Reads (lines (t₁ ++ t₂)) (is₁ ++ is₂) := by
    rw [lines_append h]
    exact List.rel_append first second
  rw [parseStr_ok.mpr ⟨_, reads, rfl⟩] at hd
  rw [← Except.ok.inj hd, List.reduceOption_append]
  exact ⟨List.filterMap_append, List.filterMap_append⟩

/-- The parser accepts a text behind a newline when it accepts both parts, and declares what
they declare. An error of the first part is that of the whole, one of the second is it with
its line moved behind the first, and in any text it is that of the first line that cannot be
read. -/
theorem parseStr_line_local (name : Text) :
    (∀ t₁ t₂ : Text, t₁.getLast? = some '\n' →
      ((∃ d, parseStr name (t₁ ++ t₂) = .ok d) ↔
        (∃ d, parseStr name t₁ = .ok d) ∧ ∃ d, parseStr name t₂ = .ok d) ∧
      (∀ d₁ d₂ d, parseStr name t₁ = .ok d₁ → parseStr name t₂ = .ok d₂ →
        parseStr name (t₁ ++ t₂) = .ok d →
        d.fields = d₁.fields ++ d₂.fields ∧ d.constants = d₁.constants ++ d₂.constants) ∧
      (∀ e, parseStr name t₁ = .error e → parseStr name (t₁ ++ t₂) = .error e) ∧
      ∀ d₁ k msg, parseStr name t₁ = .ok d₁ → parseStr name t₂ = .error (.syntaxError k msg) →
        parseStr name (t₁ ++ t₂) = .error (.syntaxError (k + (lines t₁).length) msg)) ∧
    ∀ (text : Text) (e : ParseError), parseStr name text = .error e ↔
      ∃ before l after, lines text = before ++ l :: after ∧
        (∀ x ∈ before, ∀ n p, ∃ q, parseLine n x p = .ok q) ∧
        ∀ p, parseLine (before.length + 1) l p = .error e := by
  refine ⟨fun t₁ t₂ h => ⟨accepts_append h, ?_, ?_, ?_⟩, fun text e => ?_⟩
  · intro d₁ d₂ d h₁ h₂ hd
    exact declarations_append h h₁ h₂ hd
  · intro e he
    rw [parseStr_error_iff, lines_append h]
    exact (parseStr_error_iff.mp he).append
  · intro d₁ k msg h₁ he
    rw [parseStr_error_iff, lines_append h]
    exact (parseStr_error_iff.mp he).later (accepts_iff.mp ⟨d₁, h₁⟩)
  · rw [parseStr_error_iff]
    constructor
    · rintro ⟨before, l, after, cut, reads, bad⟩
      rw [Nat.add_comm] at bad
      exact ⟨before, l, after, cut, fun x hx => readable_iff.mp (reads x hx), fails_iff.mp bad⟩
    · rintro ⟨before, l, after, cut, reads, bad⟩
      rw [Nat.add_comm] at bad
      exact ⟨before, l, after, cut, fun x hx => readable_iff.mpr (reads x hx), fails_iff.mpr bad⟩

/-- The first line of the second text is the third of both. -/
theorem parseStr_line_local_third :
    parseStr "Cat".toList ("uint8 a\n\n".toList ++ "uint8\n?".toList) =
      .error (.syntaxError 3 "missing field name") := by
  obtain ⟨d₁, h₁⟩ : ∃ d, parseStr "Cat".toList "uint8 a\n\n".toList = .ok d := ⟨_, rfl⟩
  exact ((parseStr_line_local "Cat".toList).1 _ _ (by decide)).2.2.2 d₁ 1 _ h₁ (by decide)

end Px4Rs.LineLocal
