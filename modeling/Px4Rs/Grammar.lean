import Mathlib
import Px4Rs.Rendering
import Px4Rs.Topics

/-! The documented grammar of a line, what the parser leaves unchecked of it, and the names
that reach the emitter. -/
namespace Px4Rs.Grammar
open Px4Rs.Message Px4Rs.Parser Px4Rs.Words Px4Rs.Strings Px4Rs.Items Px4Rs.Rendering
open Px4Rs.Layout Px4Rs.Emit Px4Rs.EmitItems Px4Rs.Topics
variable {T : Tokens} {b c e t u l tail tok ds name text : Text} {i : Option Item} {d : MsgDef}

/-! The grammar. -/

/-- `[A-Za-z_][A-Za-z0-9_]*` -/
def Identifier : Text → Prop
  | [] => False
  | c :: cs => (c.isAlpha ∨ c = '_') ∧ ∀ d ∈ cs, d.isAlphanum ∨ d = '_'

def isIdentifier : Text → Bool
  | [] => false
  | c :: cs => (c.isAlpha || c = '_') && cs.all fun d => d.isAlphanum || d = '_'

theorem isIdentifier_iff : isIdentifier name = true ↔ Identifier name := by
  cases name <;> simp [isIdentifier, Identifier]

instance : DecidablePred Identifier := fun _ => decidable_of_iff _ isIdentifier_iff

/-- The items of the grammar in the parser's module documentation. -/
def Documented : Item → Prop
  | .field f => Identifier f.name
  | .constant c => Identifier c.name ∧ Trimmed c.value ∧ '#' ∉ c.value ∧ c.value ≠ []
  | .topics names => names ≠ [] ∧ ∀ name ∈ names, Identifier name

def Grammatical (l : Text) : Prop := ∃ i, Renders i l ∧ ∀ j ∈ i, Documented j

/-! What is checked nowhere. -/

/-- `self` and the like are no raw identifiers. -/
def pathKeywords : List Text := ["_", "self", "Self", "super", "crate"].map String.toList

/-- A `TOPICS` line: the keyword stands alone, the names are identifiers. -/
def HashVetted (rest : Text) : Prop :=
  ∀ list ∈ stripPrefix "TOPICS".toList (trim rest),
    (∀ c ∈ list.head?, isWhitespace c = true) ∧ ∀ name ∈ splitWhitespace list, Identifier name

/-- A constant: its name is an identifier, its value is not empty. A field: its type has no
`+`, its name is an identifier and not one of the keywords that cannot be raw. -/
def CodeVetted (code : Text) : Prop :=
  match splitOnce '=' code with
  | some (lhs, rhs) =>
    (∀ name ∈ (splitWhitespace lhs)[1]?, Identifier name) ∧ trim rhs ≠ []
  | none =>
    (∀ ty ∈ (splitWhitespace code)[0]?, '+' ∉ ty) ∧
      ∀ name ∈ (splitWhitespace code)[1]?,
        Identifier name ∧ ¬ (isRustKeyword name ∧ name ∈ pathKeywords)

def Vetted (l : Text) : Prop :=
  match stripPrefix ['#'] (trim l) with
  | some rest => HashVetted rest
  | none => CodeVetted (codeOf (trim l))

/-! The names of the emitter. -/

/-- What the libraries promise of identifiers and types made of them. -/
structure Lawful (T : Tokens) : Prop where
  new : ∀ name, Identifier name → T.new name = true
  newRaw : ∀ name, Identifier name → (T.newRaw name = true ↔ name ∉ pathKeywords)
  lexes : ∀ ty : FieldType, (∀ name ∈ ty.reference, Identifier name) →
    T.lexes (typeText (rustTypeFor ty)) = true

def topicIdents (T : Tokens) (name : Text) : List Text :=
  let item := topicItem T defaultPaths [] name 0 0 []
  [item.topicIdent, item.metaIdent, item.cnameIdent, item.resolvedIdent]

/-- The names of an item are identifiers, and the emitter makes tokens of them. -/
def Builds (T : Tokens) : Item → Prop
  | .field f => Identifier f.name ∧ (∀ m ∈ f.ty.reference, Identifier m) ∧
      emitsField T (.real f) = true
  | .constant c => Identifier c.name ∧ T.new c.name = true
  | .topics names => ∀ name ∈ names, Identifier name ∧ ∀ t ∈ topicIdents T name, T.new t = true

/-! Identifiers. -/

theorem Identifier.chars (h : Identifier name) : ∀ d ∈ name, d.isAlphanum ∨ d = '_' := by
  cases name with
  | nil => exact h.elim
  | cons c cs =>
    obtain ⟨hc, hcs⟩ := h
    intro d hd
    obtain rfl | hd := List.mem_cons.mp hd
    · obtain hc | hc := hc
      · exact .inl (by simp [Char.isAlphanum, hc])
      · exact .inr hc
    · exact hcs d hd

theorem Identifier.not_mem {d : Char} (h : Identifier name)
    (hd : d.isAlphanum = false ∧ d ≠ '_') : d ∉ name := by
  intro hm
  have h := h.chars d hm
  simp [hd] at h

theorem identifier_of_camelCase (h : CamelCase name) : Identifier name := by
  obtain ⟨c, cs, rfl, hc, hcs⟩ := h
  exact ⟨.inl (by simp [Char.isAlpha, hc]), hcs⟩

theorem Identifier.append (h : Identifier name) (ht : ∀ d ∈ t, d.isAlphanum ∨ d = '_') :
    Identifier (name ++ t) := by
  cases name with
  | nil => exact h.elim
  | cons c cs =>
    refine ⟨h.1, fun d hd => ?_⟩
    obtain hd | hd := List.mem_append.mp hd
    · exact h.2 d hd
    · exact ht d hd

theorem toNat_of_alphanum {d : Char} (h : d.isAlphanum) : d.toNat < 128 := by
  simp only [Char.isAlphanum, Char.isAlpha, Char.isUpper, Char.isLower, Char.isDigit,
    Bool.or_eq_true, Bool.and_eq_true, decide_eq_true_eq, ge_iff_le, UInt32.le_iff_toNat_le,
    Char.toNat_val, Char.reduceToNat] at h
  omega

theorem toUpper_alphanum {d : Char} (h : d.isAlphanum) : d.toUpper.isAlphanum := by
  cases ha : d.isAlpha with
  | true => simp [Char.isAlphanum, ha]
  | false =>
    have lower : ¬ d.isLower := by
      intro hl
      simp [Char.isAlpha, hl] at ha
    rwa [Char.toUpper_eq_of_not_isLower lower]

theorem toUppercase_identifier (h : Identifier name) :
    Uppercase.toUppercase name = name.map Char.toUpper := by
  refine Uppercase.toUppercase_of_ascii fun c hc => ?_
  obtain hc | rfl := h.chars c hc
  · exact toNat_of_alphanum hc
  · decide

theorem new_topicIdents (lawful : Lawful T) (h : Identifier name) :
    ∀ t ∈ topicIdents T name, T.new t = true := by
  have upper : ∀ d ∈ name.map Char.toUpper, d.isAlphanum ∨ d = '_' := by
    intro d hd
    obtain ⟨c, hc, rfl⟩ := List.mem_map.mp hd
    obtain hc | rfl := h.chars c hc
    · exact .inl (toUpper_alphanum hc)
    · exact .inr (by decide)
  intro t ht
  simp only [topicIdents, topicItem, toUppercase_identifier h, List.mem_cons, List.not_mem_nil,
    or_false] at ht
  refine lawful.new t ?_
  have metaPrefix : Identifier "__ORB_META_".toList := by decide
  have namePrefix : Identifier "__ORB_NAME_".toList := by decide
  have resolved : ∀ d ∈ "_RESOLVED".toList, d.isAlphanum ∨ d = '_' := by simp
  obtain rfl | rfl | rfl | rfl := ht
  · exact h
  · exact metaPrefix.append upper
  · exact namePrefix.append upper
  · exact (metaPrefix.append upper).append resolved

theorem emitsField_iff (lawful : Lawful T) {f : Field} (hf : Identifier f.name)
    (hty : ∀ m ∈ f.ty.reference, Identifier m) :
    emitsField T (.real f) = true ↔ ¬ (isRustKeyword f.name ∧ f.name ∈ pathKeywords) := by
  have built : T.builds (sanitizeIdent f.name) = true ↔
      ¬ (isRustKeyword f.name ∧ f.name ∈ pathKeywords) := by
    unfold sanitizeIdent
    cases hk : isRustKeyword f.name with
    | false => simp [Tokens.builds, lawful.new f.name hf]
    | true => simp [Tokens.builds, lawful.newRaw f.name hf]
  simp only [emitsField, emitField, lawful.lexes f.ty hty, Bool.and_true]
  exact built

/-! Field types. -/

theorem decimal_of_parseUnsigned {w n : Nat} (h : parseUnsigned w ds = some n) (hp : '+' ∉ ds) :
    Decimal n ds := by
  have digits : ds ≠ [] ∧ ∀ d ∈ ds, d.isDigit := by
    unfold parseUnsigned at h
    split at h
    · exact absurd List.mem_cons_self hp
    · by_contra none
      rw [if_neg (by simpa using none)] at h
      cases h
  rw [parseUnsigned_digits w digits.1 digits.2] at h
  split_ifs at h
  exact ⟨digits.1, digits.2, Option.some.inj h⟩

/-- The tokens that are read as types: the documented ones, with what is read as a length
between the brackets. -/
theorem parseFieldType_some {ty : FieldType} (h : parseFieldType tok = some ty) :
    (∃ s, tok = s.px4Name.toList ∧ ty = .scalar s) ∨ (CamelCase tok ∧ ty = .nested tok) ∨
      ∃ base ds n, tok = base ++ '[' :: (ds ++ [']']) ∧ parseUnsigned usizeBits ds = some n ∧
        ((∃ s, base = s.px4Name.toList ∧ ty = .scalarArray s n) ∨
          CamelCase base ∧ ty = .nestedArray base n) := by
  unfold parseFieldType at h
  cases hs : splitOnce '[' tok with
  | none =>
    simp only [hs] at h
    cases hp : Scalar.parse tok with
    | some s =>
      simp only [hp] at h
      exact .inl ⟨s, (Scalar.px4Name_of_parse hp).symm, (Option.some.inj h).symm⟩
    | none =>
      simp only [hp] at h
      split_ifs at h with hc
      exact .inr (.inl ⟨isCamelCase_iff.mp hc, (Option.some.inj h).symm⟩)
  | some cut =>
    obtain ⟨base, rest⟩ := cut
    obtain ⟨rfl, _⟩ := splitOnce_eq_some.mp hs
    simp only [hs] at h
    by_cases hlast : rest.getLast? = some ']'
    swap
    · rw [if_neg hlast] at h
      cases h
    rw [if_pos hlast] at h
    obtain ⟨n, hn, found⟩ := Option.bind_eq_some_iff.mp h
    obtain ⟨ds, rfl⟩ := List.getLast?_eq_some_iff.mp hlast
    rw [List.dropLast_concat] at hn
    refine .inr (.inr ⟨base, ds, n, rfl, hn, ?_⟩)
    cases hp : Scalar.parse base with
    | some s =>
      simp only [hp] at found
      exact .inl ⟨s, (Scalar.px4Name_of_parse hp).symm, (Option.some.inj found).symm⟩
    | none =>
      simp only [hp] at found
      split_ifs at found with hc
      exact .inr ⟨isCamelCase_iff.mp hc, (Option.some.inj found).symm⟩

theorem spells_of_parse {ty : FieldType} (h : parseFieldType tok = some ty) (hp : '+' ∉ tok) :
    Spells ty tok := by
  obtain ⟨s, rfl, rfl⟩ | ⟨name, rfl⟩ | ⟨base, ds, n, rfl, hn, h⟩ := parseFieldType_some h
  · exact .scalar s
  · exact .nested name
  · have length := decimal_of_parseUnsigned hn fun hm => hp (by simp [hm])
    obtain ⟨s, rfl, rfl⟩ | ⟨name, rfl⟩ := h
    · exact .scalarArray s length
    · exact .nestedArray name length

theorem identifier_of_reference {ty : FieldType} (h : parseFieldType tok = some ty) :
    ∀ m ∈ ty.reference, Identifier m := by
  obtain ⟨s, _, rfl⟩ | ⟨name, rfl⟩ | ⟨base, ds, n, _, _, h⟩ := parseFieldType_some h
  · rintro _ ⟨⟩
  · rintro _ ⟨⟩
    exact identifier_of_camelCase name
  · obtain ⟨s, _, rfl⟩ | ⟨name, rfl⟩ := h
    · rintro _ ⟨⟩
    · rintro _ ⟨⟩
      exact identifier_of_camelCase name

/-! The lines. -/

/-- A line is blank, begins with a `#`, or has code. -/
theorem cut_cases (l : Text) : Blank l ∨ (∃ b t, l = b ++ '#' :: t ∧ Blank b) ∨
    ∃ c tail, l = c ++ tail ∧ '#' ∉ c ∧ ¬ Blank c ∧ Tail tail := by
  by_cases hm : '#' ∈ l
  · obtain ⟨c, t, rfl, hc⟩ := List.eq_append_cons_of_mem hm
    by_cases hb : Blank c
    · exact .inr (.inl ⟨c, t, rfl, hb⟩)
    · exact .inr (.inr ⟨c, '#' :: t, rfl, hc, hb, .inr ⟨t, rfl⟩⟩)
  · by_cases hb : Blank l
    · exact .inl hb
    · exact .inr (.inr ⟨l, [], by simp, hm, hb, .inl rfl⟩)

theorem vetted_blank (h : Blank l) : Vetted l := by
  unfold Vetted
  rw [trim_eq_nil.mpr h]
  simp [stripPrefix, codeOf, splitOnce, CodeVetted, splitWhitespace, splitWhitespaceFrom]

theorem vetted_hash (hb : Blank b) (t : Text) : Vetted (b ++ '#' :: t) ↔ HashVetted t := by
  obtain ⟨t', h, same⟩ := strip_hash hb t
  unfold Vetted
  rw [h]
  simp only [HashVetted, same]

theorem vetted_code (hc : '#' ∉ c) (ne : ¬ Blank c) (ht : Tail tail) :
    Vetted (c ++ tail) ↔ CodeVetted (trim c) := by
  obtain ⟨none, code⟩ := strip_code hc ne ht
  unfold Vetted
  rw [none, code]

theorem codeVetted_constant {lhs : Text} (heq : '=' ∉ lhs) (rhs : Text) :
    CodeVetted (trim (lhs ++ '=' :: rhs)) ↔
      (∀ name ∈ (splitWhitespace lhs)[1]?, Identifier name) ∧ trim rhs ≠ [] := by
  obtain ⟨lhs', rhs', cut, hl, hr⟩ := split_constant heq rhs
  have words : splitWhitespace lhs' = splitWhitespace lhs := by
    rw [← splitWhitespace_trim lhs', hl, splitWhitespace_trim]
  unfold CodeVetted
  rw [cut]
  simp only [words, hr]

theorem codeVetted_field (heq : '=' ∉ c) : CodeVetted (trim c) ↔
    (∀ ty ∈ (splitWhitespace c)[0]?, '+' ∉ ty) ∧ ∀ name ∈ (splitWhitespace c)[1]?,
      Identifier name ∧ ¬ (isRustKeyword name ∧ name ∈ pathKeywords) := by
  unfold CodeVetted
  rw [splitOnce_of_not_mem (not_mem_trim heq)]
  simp only [splitWhitespace_trim]

theorem hashVetted_comment (h : ¬ BeginsTopics t) : HashVetted t := by
  unfold HashVetted
  rw [stripPrefix_topics_none h]
  rintro _ ⟨⟩

theorem hashVetted_topics (hb : Blank b) {list : Text} (ne : splitWhitespace list ≠ []) :
    HashVetted (b ++ ("TOPICS".toList ++ list)) ↔
      (∀ c ∈ list.head?, isWhitespace c = true) ∧
        ∀ name ∈ splitWhitespace list, Identifier name := by
  obtain ⟨list', e, rfl, he, hs⟩ := stripPrefix_topics hb list
  have words := splitWhitespace_append_blank list' he
  have head : (list' ++ e).head? = list'.head? := by
    cases list' with
    | nil => exact absurd (splitWhitespace_eq_nil.mpr he) ne
    | cons c cs => rfl
  unfold HashVetted
  rw [hs, words, head]
  simp

theorem field_of_reads (h : Reads (c ++ tail) i) (hc : '#' ∉ c) (ne : ¬ Blank c)
    (heq : '=' ∉ c) (ht : Tail tail) :
    ∃ tok name ty, splitWhitespace c = [tok, name] ∧ parseFieldType tok = some ty ∧
      i = some (.field ⟨name, ty⟩) := by
  have read := h 0
  rw [lineItem_code hc ne ht, codeItem_field ne heq] at read
  cases hf : parseField 0 (trim c) with
  | error e => simp [hf, Except.map] at read
  | ok f =>
    obtain ⟨tok, name, ty, words, parsed, rfl⟩ := parseField_ok hf
    rw [splitWhitespace_trim] at words
    rw [hf] at read
    cases read
    exact ⟨tok, name, ty, words, parsed, rfl⟩

theorem constant_of_reads {lhs rhs : Text} (h : Reads (lhs ++ '=' :: rhs ++ tail) i)
    (hc : '#' ∉ lhs ++ '=' :: rhs) (heq : '=' ∉ lhs) (ht : Tail tail) :
    ∃ tok name ty, splitWhitespace lhs = [tok, name] ∧ Scalar.parse tok = some ty ∧
      i = some (.constant ⟨ty, name, trim rhs⟩) := by
  have solid : ¬ Blank (lhs ++ '=' :: rhs) := by
    intro hb
    have hb := hb '=' (by simp)
    simp [isWhitespace_eq] at hb
  have read := h 0
  rw [lineItem_code hc solid ht, codeItem_constant heq] at read
  cases hk : parseConstant 0 lhs rhs with
  | error e => simp [hk, Except.map] at read
  | ok c =>
    obtain ⟨tok, name, ty, words, parsed, rfl⟩ := parseConstant_ok hk
    rw [splitWhitespace_trim] at words
    rw [hk] at read
    cases read
    exact ⟨tok, name, ty, words, parsed, rfl⟩

/-- An accepted line is vetted if it is of the grammar and tokens can be made of its names. -/
theorem vetted_of_grammatical (lawful : Lawful T) (h : Reads l i) (hg : Grammatical l)
    (builds : ∀ j ∈ i, Builds T j) : Vetted l := by
  obtain ⟨i', hr, doc⟩ := hg
  cases hr with
  | blank ht => exact vetted_blank ht
  | comment hb ht => exact (vetted_hash hb _).mpr (hashVetted_comment ht)
  | @topics names b b' list hb hb' hn hl =>
    obtain ⟨ne, ids⟩ := doc _ rfl
    have words := splitWhitespace_eq hn
    exact (vetted_hash hb _).mpr ((hashVetted_topics hb' (words ▸ ne)).mpr ⟨hl, words ▸ ids⟩)
  | @field f ty code tail hty hcode htail =>
    have id : Identifier f.name := doc _ rfl
    obtain ⟨hash, eq⟩ := declared_plain hcode hty (id.not_mem (by decide)) (id.not_mem (by decide))
    have words := splitWhitespace_eq hcode
    obtain ⟨tok, name, ty', words', _, rfl⟩ := field_of_reads h hash hcode.not_blank eq htail
    rw [words] at words'
    obtain ⟨rfl, rfl⟩ : ty = tok ∧ f.name = name := by simpa using words'
    obtain ⟨_, refs, emits⟩ := builds _ rfl
    rw [vetted_code hash hcode.not_blank htail, codeVetted_field eq, words]
    refine ⟨by rintro _ ⟨⟩; exact hty.not_mem (by decide), ?_⟩
    rintro _ ⟨⟩
    exact ⟨id, (emitsField_iff (f := ⟨f.name, ty'⟩) lawful id refs).mp emits⟩
  | @constant k lhs b e tail hlhs hb he htail =>
    obtain ⟨id, trimmed, no_hash, ne⟩ := doc _ rfl
    obtain ⟨hash, eq⟩ :=
      declared_plain hlhs (.scalar k.ty) (id.not_mem (by decide)) (id.not_mem (by decide))
    obtain ⟨free, solid⟩ := constant_code hash hb no_hash he
    rw [vetted_code free solid htail, codeVetted_constant eq, splitWhitespace_eq hlhs,
      trim_eq hb trimmed he]
    refine ⟨?_, ne⟩
    rintro _ ⟨⟩
    exact id

theorem grammatical_of_vetted (lawful : Lawful T) (h : Reads l i) (hv : Vetted l) :
    Grammatical l ∧ ∀ j ∈ i, Builds T j := by
  obtain hl | ⟨b, t, rfl, hb⟩ | ⟨c, tail, rfl, hc, ne, ht⟩ := cut_cases l
  · have read := h 0
    rw [lineItem_blank hl] at read
    cases read
    exact ⟨⟨none, .blank hl, by rintro _ ⟨⟩⟩, by rintro _ ⟨⟩⟩
  · have read := h 0
    rw [lineItem_hash hb, hashItem] at read
    rw [vetted_hash hb] at hv
    by_cases ht : BeginsTopics t
    · obtain ⟨b', list, hb', rfl⟩ := ht
      obtain ⟨list', e, rfl, he, hs⟩ := stripPrefix_topics hb' list
      have words := splitWhitespace_append_blank list' he
      rw [hs] at read
      simp only [← words] at read
      split_ifs at read with names
      cases read
      obtain ⟨sep, ids⟩ := (hashVetted_topics hb' names).mp hv
      refine ⟨⟨_, .topics hb hb' (spaced_splitWhitespace _) sep, ?_⟩, ?_⟩
      · rintro _ ⟨⟩
        exact ⟨names, ids⟩
      · rintro _ ⟨⟩ name hn
        exact ⟨ids name hn, new_topicIdents lawful (ids name hn)⟩
    · rw [stripPrefix_topics_none ht] at read
      cases read
      exact ⟨⟨none, .comment hb ht, by rintro _ ⟨⟩⟩, by rintro _ ⟨⟩⟩
  · rw [vetted_code hc ne ht] at hv
    by_cases heq : '=' ∈ c
    · obtain ⟨lhs, rhs, rfl, first⟩ := List.eq_append_cons_of_mem heq
      obtain ⟨tok, name, ty, words, parsed, rfl⟩ := constant_of_reads h hc first ht
      rw [codeVetted_constant first, words] at hv
      obtain ⟨id, value⟩ := hv
      have id : Identifier name := id _ rfl
      have spaced := spaced_splitWhitespace lhs
      rw [words, ← Scalar.px4Name_of_parse parsed] at spaced
      obtain ⟨b, e, cut, hb, he⟩ := exists_trim rhs
      have line := Renders.constant (c := ⟨ty, name, trim rhs⟩) spaced hb he ht
      rw [← cut] at line
      have no_hash : '#' ∉ trim rhs := not_mem_trim fun hm => hc (by simp [hm])
      refine ⟨⟨_, line, ?_⟩, ?_⟩
      · rintro _ ⟨⟩
        exact ⟨id, trimmed_trim rhs, no_hash, value⟩
      · rintro _ ⟨⟩
        exact ⟨id, lawful.new name id⟩
    · obtain ⟨tok, name, ty, words, parsed, rfl⟩ := field_of_reads h hc ne heq ht
      rw [codeVetted_field heq, words] at hv
      obtain ⟨sign, id⟩ := hv
      obtain ⟨id, keyword⟩ := id name rfl
      have spaced := spaced_splitWhitespace c
      rw [words] at spaced
      have refs := identifier_of_reference parsed
      have line := Renders.field (f := ⟨name, ty⟩) (spells_of_parse parsed (sign tok rfl)) spaced ht
      refine ⟨⟨_, line, ?_⟩, ?_⟩
      · rintro _ ⟨⟩
        exact id
      · rintro _ ⟨⟩
        exact ⟨id, refs, (emitsField_iff (f := ⟨name, ty⟩) lawful id refs).mpr keyword⟩

/-! The file. -/

/-- The names in the message and in its directives are identifiers, and the emitter makes tokens
of them. -/
def NamesBuild (T : Tokens) (text : Text) (d : MsgDef) : Prop :=
  (∀ f ∈ d.fields, Builds T (.field f)) ∧ (∀ c ∈ d.constants, Builds T (.constant c)) ∧
    ∀ names ∈ directives text, Builds T (.topics names)

theorem namesBuild_iff {items : List Item} :
    ((∀ f ∈ fieldsOf items, Builds T (.field f)) ∧
      (∀ c ∈ constantsOf items, Builds T (.constant c)) ∧
      ∀ names ∈ topicsOf items, Builds T (.topics names)) ↔ ∀ j ∈ items, Builds T j := by
  constructor
  · rintro ⟨fields, constants, topics⟩ j hj
    cases j with
    | field f => exact fields f (List.mem_filterMap.mpr ⟨_, hj, rfl⟩)
    | constant c => exact constants c (List.mem_filterMap.mpr ⟨_, hj, rfl⟩)
    | topics names => exact topics names (List.mem_filterMap.mpr ⟨_, hj, rfl⟩)
  · intro h
    refine ⟨fun f hf => ?_, fun c hc => ?_, fun names hn => ?_⟩
    · obtain ⟨j, hj, h'⟩ := List.mem_filterMap.mp hf
      cases j <;> cases h'
      exact h _ hj
    · obtain ⟨j, hj, h'⟩ := List.mem_filterMap.mp hc
      cases j <;> cases h'
      exact h _ hj
    · obtain ⟨j, hj, h'⟩ := List.mem_filterMap.mp hn
      cases j <;> cases h'
      exact h _ hj

theorem lines_vetted_iff (lawful : Lawful T) {ls : List Text} {is : List (Option Item)}
    (h : List.Forall₂ Reads ls is) :
    ((∀ l ∈ ls, Grammatical l) ∧ ∀ j ∈ is.reduceOption, Builds T j) ↔ ∀ l ∈ ls, Vetted l := by
  induction h with
  | nil => simp
  | @cons l i ls is hl _ ih =>
    have line : (Grammatical l ∧ ∀ j ∈ i, Builds T j) ↔ Vetted l :=
      ⟨fun h => vetted_of_grammatical lawful hl h.1 h.2, grammatical_of_vetted lawful hl⟩
    have split : (∀ j ∈ (i :: is).reduceOption, Builds T j) ↔
        (∀ j ∈ i, Builds T j) ∧ ∀ j ∈ is.reduceOption, Builds T j := by
      cases i <;> simp [List.reduceOption_cons_of_some, List.reduceOption_cons_of_none]
    rw [split, List.forall_mem_cons, List.forall_mem_cons, ← line, ← ih]
    tauto

/-- An accepted file is of the grammar, and its names make tokens, if what the parser leaves
unchecked holds of every line. A file that is not accepted ends in a syntax error. -/
theorem grammar_iff (lawful : Lawful T) (name text : Text) :
    (∀ e, parseStr name text = .error e → ∃ n msg, e = .syntaxError n msg) ∧
      ∀ d, parseStr name text = .ok d →
        ((∀ l ∈ lines text, Grammatical l) ∧ NamesBuild T text d ↔ ∀ l ∈ lines text, Vetted l) := by
  constructor
  · intro e h
    obtain ⟨n, msg, _, _, rfl⟩ := parseStr_error h
    exact ⟨n, msg, rfl⟩
  · intro d h
    obtain ⟨is, reads, rfl⟩ := parseStr_ok.mp h
    rw [← lines_vetted_iff lawful reads, ← namesBuild_iff, ← directives_of_reads reads]
    exact Iff.rfl

/-! The libraries on ASCII texts. -/

def asciiTokens : Tokens where
  new := isIdentifier
  newRaw name := isIdentifier name && ! pathKeywords.contains name
  lexes _ := true

theorem lawful_ascii : Lawful asciiTokens where
  new _ h := isIdentifier_iff.mpr h
  newRaw name h := by simp [asciiTokens, isIdentifier_iff.mpr h]
  lexes _ _ := rfl

theorem grammar_iff_ascii :
    (∀ e, parseStr "Gyro".toList "uint8 self\n".toList = .error e →
      ∃ n msg, e = .syntaxError n msg) ∧
      ∀ d, parseStr "Gyro".toList "uint8 self\n".toList = .ok d →
        ((∀ l ∈ lines "uint8 self\n".toList, Grammatical l) ∧
            NamesBuild asciiTokens "uint8 self\n".toList d ↔
          ∀ l ∈ lines "uint8 self\n".toList, Vetted l) :=
  grammar_iff lawful_ascii _ _

/-- A name that is none is accepted. -/
theorem name_unchecked : ¬ ∀ (T : Tokens) (name text : Text) (d : MsgDef), Lawful T →
    parseStr name text = .ok d → (∀ l ∈ lines text, Grammatical l) ∧ NamesBuild T text d := by
  intro claim
  have h : parseStr "Cat".toList "uint8 9lives\n".toList = .ok _ := rfl
  obtain ⟨_, fields, _⟩ := claim asciiTokens _ _ _ lawful_ascii h
  have id : Identifier "9lives".toList := (fields _ List.mem_cons_self).1
  revert id
  decide

end Px4Rs.Grammar
