import Px4Rs.Items
import Px4Rs.Layout

/-! The spellings of a declaration, with blanks and comments, and that the parser reads each
of them back. -/
namespace Px4Rs.Rendering
open Px4Rs.Message Px4Rs.Parser Px4Rs.Words Px4Rs.Strings Px4Rs.Items Px4Rs.Layout
variable {b c e t u l tail tok ds name text : Text} {i : Option Item} {ls : List Text}

/-! Spellings. -/

/-- `[A-Z][A-Za-z0-9_]*` -/
def CamelCase (name : Text) : Prop :=
  ∃ c cs, name = c :: cs ∧ c.isUpper ∧ ∀ d ∈ cs, d.isAlphanum ∨ d = '_'

/-- The decimal digits of `n`, perhaps after zeros. -/
def Decimal (n : Nat) (ds : Text) : Prop :=
  ds ≠ [] ∧ (∀ d ∈ ds, d.isDigit) ∧ Nat.ofDigitChars 10 ds 0 = n

inductive Spells : FieldType → Text → Prop
  | scalar (s : Scalar) : Spells (.scalar s) s.px4Name.toList
  | scalarArray (s : Scalar) {n : Nat} {ds : Text} : Decimal n ds →
      Spells (.scalarArray s n) (s.px4Name.toList ++ '[' :: (ds ++ [']']))
  | nested {name : Text} : CamelCase name → Spells (.nested name) name
  | nestedArray {name ds : Text} {n : Nat} : CamelCase name → Decimal n ds →
      Spells (.nestedArray name n) (name ++ '[' :: (ds ++ [']']))

/-- The text after a `#` begins with the keyword. -/
def BeginsTopics (t : Text) : Prop := ∃ b u, Blank b ∧ t = b ++ ("TOPICS".toList ++ u)

/-- A trailing comment, or none. -/
def Tail (t : Text) : Prop := t = [] ∨ ∃ u, t = '#' :: u

/-- The lines that declare an item, or nothing. -/
inductive Renders : Option Item → Text → Prop
  | blank {t : Text} : Blank t → Renders none t
  | comment {b t : Text} : Blank b → ¬ BeginsTopics t → Renders none (b ++ '#' :: t)
  | field {f : Field} {ty code tail : Text} : Spells f.ty ty → Spaced [ty, f.name] code →
      Tail tail → Renders (some (.field f)) (code ++ tail)
  | constant {c : Constant} {lhs b e tail : Text} :
      Spaced [c.ty.px4Name.toList, c.name] lhs → Blank b → Blank e → Tail tail →
      Renders (some (.constant c)) (lhs ++ '=' :: (b ++ c.value ++ e) ++ tail)
  | topics {names : List Text} {b b' list : Text} : Blank b → Blank b' → Spaced names list →
      (∀ c ∈ list.head?, isWhitespace c = true) →
      Renders (some (.topics names)) (b ++ '#' :: (b' ++ ("TOPICS".toList ++ list)))

def Document (items : List Item) (text : Text) : Prop :=
  ∃ entries ls, entries.reduceOption = items ∧ List.Forall₂ Renders entries ls ∧ Ends ls text

/-! What an item must be like to be read back. -/

structure Plain (w : Text) : Prop where
  word : Word w
  no_hash : '#' ∉ w
  no_eq : '=' ∉ w

def LengthFits : FieldType → Prop
  | .scalarArray _ n | .nestedArray _ n => n < 2 ^ usizeBits
  | .scalar _ | .nested _ => True

def WellFormed : Item → Prop
  | .field f => Plain f.name ∧ LengthFits f.ty
  | .constant c => Plain c.name ∧ Trimmed c.value ∧ '#' ∉ c.value
  | .topics names => names ≠ [] ∧ ∀ name ∈ names, Plain name

/-! How a line is read, by what it is made of. -/

theorem lineItem_trim (h : trim l = trim t) (n : Nat) : lineItem n l = lineItem n t := by
  unfold lineItem
  rw [h]

theorem lineItem_blank (h : Blank l) (n : Nat) : lineItem n l = .ok none := by
  unfold lineItem
  rw [trim_eq_nil.mpr h]
  rfl

theorem isWhitespace_hash : isWhitespace '#' = false := by decide
theorem isWhitespace_eq : isWhitespace '=' = false := by decide

theorem hashItem_trim (h : trim l = trim t) (n : Nat) : hashItem n l = hashItem n t := by
  unfold hashItem
  rw [h]

theorem strip_hash (hb : Blank b) (t : Text) :
    ∃ t', stripPrefix ['#'] (trim (b ++ '#' :: t)) = some t' ∧ trim t' = trim t := by
  have trimmed : Trimmed ['#'] := ⟨by simp [isWhitespace_hash], by simp [isWhitespace_hash]⟩
  obtain ⟨t', e, rfl, he, h⟩ := exists_trim_after trimmed (by simp) hb t
  have h : trim (b ++ '#' :: (t' ++ e)) = ['#'] ++ t' := h
  exact ⟨t', by rw [h, stripPrefix_append], (trim_append_blank t' he).symm⟩

theorem lineItem_hash (hb : Blank b) (t : Text) (n : Nat) :
    lineItem n (b ++ '#' :: t) = hashItem n t := by
  obtain ⟨t', h, same⟩ := strip_hash hb t
  unfold lineItem
  rw [h]
  exact hashItem_trim same n

theorem not_mem_trim {d : Char} (h : d ∉ c) : d ∉ trim c := by
  intro hm
  obtain ⟨b, e, hc, _, _⟩ := exists_trim c
  rw [hc] at h
  exact h (by simp [hm])

theorem strip_code (hc : '#' ∉ c) (ne : ¬ Blank c) (ht : Tail tail) :
    stripPrefix ['#'] (trim (c ++ tail)) = none ∧ codeOf (trim (c ++ tail)) = trim c := by
  have found {u v : Text} (hu : '#' ∉ u) (hne : u ≠ []) : stripPrefix ['#'] (u ++ v) = none := by
    rw [stripPrefix_eq_none]
    rintro ⟨w, hw⟩
    cases u with
    | nil => exact hne rfl
    | cons d u =>
      simp only [List.cons_append, List.nil_append, List.cons.injEq] at hw
      rw [hw.1] at hu
      exact hu List.mem_cons_self
  have cut : trim c ≠ [] := fun h => ne (trim_eq_nil.mp h)
  have free : '#' ∉ trim c := not_mem_trim hc
  obtain rfl | ⟨u, rfl⟩ := ht
  · have none := found (v := []) free cut
    rw [List.append_nil] at none ⊢
    exact ⟨none, by simp only [codeOf, splitOnce_of_not_mem free]⟩
  · obtain ⟨b, c', u', e, rfl, rfl, hb, he, h⟩ := exists_trim_around c u isWhitespace_hash
    have same : trim (b ++ c') = trim c' := trim_blank_append hb c'
    have hc' : '#' ∉ c' := fun hm => hc (by simp [hm])
    have cut' : c' ≠ [] := by
      rintro rfl
      exact cut (by rw [same]; rfl)
    rw [h, same]
    exact ⟨found hc' cut', by simp only [codeOf, splitOnce_append hc']⟩

theorem lineItem_code (hc : '#' ∉ c) (ne : ¬ Blank c) (ht : Tail tail) (n : Nat) :
    lineItem n (c ++ tail) = codeItem n (trim c) := by
  obtain ⟨none, code⟩ := strip_code hc ne ht
  unfold lineItem
  rw [none, code]

theorem codeItem_field (ne : ¬ Blank c) (heq : '=' ∉ c) (n : Nat) :
    codeItem n (trim c) = (parseField n (trim c)).map fun f => some (.field f) := by
  have cut : trim c ≠ [] := fun h => ne (trim_eq_nil.mp h)
  unfold codeItem
  rw [if_neg cut]
  simp only [splitOnce_of_not_mem (not_mem_trim heq)]

theorem split_constant {lhs : Text} (heq : '=' ∉ lhs) (rhs : Text) :
    ∃ lhs' rhs', splitOnce '=' (trim (lhs ++ '=' :: rhs)) = some (lhs', rhs') ∧
      trim lhs' = trim lhs ∧ trim rhs' = trim rhs := by
  obtain ⟨b, lhs', rhs', e, rfl, rfl, hb, he, h⟩ := exists_trim_around lhs rhs isWhitespace_eq
  have heq' : '=' ∉ lhs' := fun hm => heq (by simp [hm])
  exact ⟨lhs', rhs', by rw [h, splitOnce_append heq'], (trim_blank_append hb lhs').symm,
    (trim_append_blank rhs' he).symm⟩

theorem codeItem_constant {lhs : Text} (heq : '=' ∉ lhs) (rhs : Text) (n : Nat) :
    codeItem n (trim (lhs ++ '=' :: rhs)) =
      (parseConstant n lhs rhs).map fun c => some (.constant c) := by
  obtain ⟨lhs', rhs', cut, hl, hr⟩ := split_constant heq rhs
  have ne : trim (lhs ++ '=' :: rhs) ≠ [] := by
    intro h
    rw [h] at cut
    cases cut
  unfold codeItem
  rw [if_neg ne, cut]
  simp only [parseConstant, hl, hr]

/-! The tokens. -/

theorem parse_camelCase (h : CamelCase name) : Scalar.parse name = none := by
  cases hs : Scalar.parse name with
  | none => rfl
  | some s =>
    obtain ⟨c, cs, rfl, hc, _⟩ := h
    have spelled := Scalar.px4Name_of_parse hs
    cases s <;> simp [Scalar.px4Name] at spelled <;> simp [← spelled.1] at hc

theorem alphanum_of_upper {d : Char} (h : d.isUpper) : d.isAlphanum := by
  have alpha : d.isAlpha = true := (Bool.or_eq_true _ _).mpr (.inl h)
  exact (Bool.or_eq_true _ _).mpr (.inl alpha)

theorem isCamelCase_iff : isCamelCase name = true ↔ CamelCase name := by
  cases name with
  | nil => simp [isCamelCase, CamelCase]
  | cons c cs =>
    simp only [isCamelCase, CamelCase, List.all_cons, Bool.and_eq_true, List.all_eq_true,
      Bool.or_eq_true, decide_eq_true_eq]
    constructor
    · rintro ⟨hc, _, hcs⟩
      exact ⟨c, cs, rfl, hc, hcs⟩
    · rintro ⟨_, _, ⟨⟩, hc, hcs⟩
      exact ⟨hc, .inl (alphanum_of_upper hc), hcs⟩

theorem CamelCase.bracket_not_mem (h : CamelCase name) : '[' ∉ name := by
  obtain ⟨c, cs, rfl, hc, hcs⟩ := h
  intro hm
  obtain rfl | hm := List.mem_cons.mp hm
  · cases hc
  · have h := hcs _ hm
    simp at h

theorem px4Name_bracket_not_mem (s : Scalar) : '[' ∉ s.px4Name.toList := by
  cases s <;> decide

theorem parseUnsigned_digits (w : Nat) (ne : ds ≠ []) (digits : ∀ d ∈ ds, d.isDigit) :
    parseUnsigned w ds =
      if Nat.ofDigitChars 10 ds 0 < 2 ^ w then some (Nat.ofDigitChars 10 ds 0) else none := by
  have all : ds.all Char.isDigit = true := by simpa using digits
  cases ds with
  | nil => exact absurd rfl ne
  | cons d ds =>
    have no_sign : d ≠ '+' := by
      rintro rfl
      have h := digits '+' List.mem_cons_self
      simp at h
    unfold parseUnsigned
    split
    · rename_i h
      cases h
      exact absurd rfl no_sign
    · rw [if_pos ⟨ne, all⟩, Nat.ofDigitChars_eq_foldl]

theorem parseFieldType_spells {ty : FieldType} (h : Spells ty tok) (fits : LengthFits ty) :
    parseFieldType tok = some ty := by
  have array {base ds : Text} {n : Nat} (hbase : '[' ∉ base) (hn : Decimal n ds)
      (fits : n < 2 ^ usizeBits) :
      (∀ s, Scalar.parse base = some s →
        parseFieldType (base ++ '[' :: (ds ++ [']'])) = some (.scalarArray s n)) ∧
      (Scalar.parse base = none → isCamelCase base →
        parseFieldType (base ++ '[' :: (ds ++ [']'])) = some (.nestedArray base n)) := by
    obtain ⟨ne, digits, rfl⟩ := hn
    have length := parseUnsigned_digits usizeBits ne digits
    rw [if_pos fits] at length
    constructor
    · intro s parsed
      simp [parseFieldType, splitOnce_append hbase, length, parsed]
    · intro parsed camel
      simp [parseFieldType, splitOnce_append hbase, length, parsed, camel]
  cases h with
  | scalar s =>
    simp [parseFieldType, splitOnce_of_not_mem (px4Name_bracket_not_mem s), Scalar.parse_px4Name]
  | scalarArray s hn =>
    exact (array (px4Name_bracket_not_mem s) hn fits).1 s (Scalar.parse_px4Name s)
  | nested hname =>
    simp [parseFieldType, splitOnce_of_not_mem hname.bracket_not_mem, parse_camelCase hname,
      isCamelCase_iff.mpr hname]
  | nestedArray hname hn =>
    have camel := isCamelCase_iff.mpr hname
    exact (array hname.bracket_not_mem hn fits).2 (parse_camelCase hname) camel

theorem CamelCase.chars (h : CamelCase name) : ∀ d ∈ name, d.isAlphanum ∨ d = '_' := by
  obtain ⟨c, cs, rfl, hc, hcs⟩ := h
  intro d hd
  obtain rfl | hd := List.mem_cons.mp hd
  · exact .inl (alphanum_of_upper hc)
  · exact hcs d hd

theorem Spells.chars {ty : FieldType} (h : Spells ty tok) :
    ∀ d ∈ tok, d.isAlphanum ∨ d = '_' ∨ d = '[' ∨ d = ']' := by
  have scalar (s : Scalar) : ∀ d ∈ s.px4Name.toList, d.isAlphanum := by
    cases s <;> simp [Scalar.px4Name]
  have array {base ds : Text} {n : Nat} (hbase : ∀ d ∈ base, d.isAlphanum ∨ d = '_')
      (hn : Decimal n ds) :
      ∀ d ∈ base ++ '[' :: (ds ++ [']']), d.isAlphanum ∨ d = '_' ∨ d = '[' ∨ d = ']' := by
    intro d hd
    simp only [List.mem_append, List.mem_cons, List.not_mem_nil, or_false] at hd
    obtain hd | rfl | hd | rfl := hd
    · obtain h | h := hbase d hd
      · exact .inl h
      · exact .inr (.inl h)
    · simp
    · exact .inl (by simp [Char.isAlphanum, hn.2.1 d hd])
    · simp
  cases h with
  | scalar s => exact fun d hd => .inl (scalar s d hd)
  | scalarArray s hn => exact array (fun d hd => .inl (scalar s d hd)) hn
  | nested hname =>
    intro d hd
    obtain h | h := hname.chars d hd
    · exact .inl h
    · exact .inr (.inl h)
  | nestedArray hname hn => exact array hname.chars hn

theorem Spells.not_mem {ty : FieldType} {d : Char} (h : Spells ty tok)
    (hd : d.isAlphanum = false ∧ d ≠ '_' ∧ d ≠ '[' ∧ d ≠ ']') : d ∉ tok := by
  intro hm
  have h := h.chars d hm
  simp [hd] at h

/-! The lines. -/

theorem stripPrefix_topics_none (h : ¬ BeginsTopics t) :
    stripPrefix "TOPICS".toList (trim t) = none := by
  rw [stripPrefix_eq_none]
  rintro ⟨u, hu⟩
  obtain ⟨b, e, ht, hb, _⟩ := exists_trim t
  refine h ⟨b, u ++ e, hb, ?_⟩
  rw [ht, ← hu]
  simp only [List.append_assoc]

theorem stripPrefix_topics (hb : Blank b) (u : Text) :
    ∃ u' e, u = u' ++ e ∧ Blank e ∧
      stripPrefix "TOPICS".toList (trim (b ++ ("TOPICS".toList ++ u))) = some u' := by
  have trimmed : Trimmed "TOPICS".toList := by constructor <;> rintro _ ⟨⟩ <;> decide
  obtain ⟨u', e, hu, he, h⟩ := exists_trim_after trimmed (by decide) hb u
  exact ⟨u', e, hu, he, by rw [h, stripPrefix_append]⟩

theorem pair_not_mem {v w : Text} {d : Char} (h : Spaced [v, w] t) (hd : isWhitespace d = false)
    (hv : d ∉ v) (hw : d ∉ w) : d ∉ t :=
  h.not_mem hd (by simp [hv, hw])

theorem declared_plain {ty : FieldType} {v w : Text} (h : Spaced [v, w] t) (hty : Spells ty v)
    (hash : '#' ∉ w) (eq : '=' ∉ w) : '#' ∉ t ∧ '=' ∉ t :=
  ⟨pair_not_mem h isWhitespace_hash (hty.not_mem (by decide)) hash,
    pair_not_mem h isWhitespace_eq (hty.not_mem (by decide)) eq⟩

theorem constant_code {lhs value : Text} (hl : '#' ∉ lhs) (hb : Blank b) (hv : '#' ∉ value)
    (he : Blank e) :
    '#' ∉ lhs ++ '=' :: (b ++ value ++ e) ∧ ¬ Blank (lhs ++ '=' :: (b ++ value ++ e)) := by
  constructor
  · simp [hl, hb.not_mem isWhitespace_hash, hv, he.not_mem isWhitespace_hash]
  · intro h
    have h := h '=' (by simp)
    simp [isWhitespace_eq] at h

theorem reads_of_renders (h : Renders i l) (wf : ∀ j ∈ i, WellFormed j) : Reads l i := by
  intro n
  cases h with
  | blank h => exact lineItem_blank h n
  | comment hb ht =>
    rw [lineItem_hash hb, hashItem, stripPrefix_topics_none ht]
  | @topics names b b' list hb hb' hn hl =>
    obtain ⟨ne, _⟩ := wf _ rfl
    obtain ⟨list', e, rfl, he, hs⟩ := stripPrefix_topics hb' list
    have words := splitWhitespace_append_blank list' he
    rw [splitWhitespace_eq hn] at words
    rw [lineItem_hash hb, hashItem, hs]
    simp [← words, ne]
  | @field f ty code tail hty hcode htail =>
    obtain ⟨name, fits⟩ := wf _ rfl
    obtain ⟨hash, eq⟩ := declared_plain hcode hty name.no_hash name.no_eq
    rw [lineItem_code hash hcode.not_blank htail, codeItem_field hcode.not_blank eq]
    simp [parseField, splitWhitespace_trim, splitWhitespace_eq hcode,
      parseFieldType_spells hty fits, Except.map]
  | @constant k lhs b e tail hlhs hb he htail =>
    obtain ⟨name, value, no_hash⟩ := wf _ rfl
    obtain ⟨hash, eq⟩ := declared_plain hlhs (.scalar k.ty) name.no_hash name.no_eq
    obtain ⟨free, solid⟩ := constant_code hash hb no_hash he
    rw [lineItem_code free solid htail, codeItem_constant eq, parseConstant,
      splitWhitespace_trim, splitWhitespace_eq hlhs, trim_eq hb value he]
    simp [Scalar.parse_px4Name, Except.map]

/-! The file. -/

theorem reads_lines {entries : List (Option Item)} (hr : List.Forall₂ Renders entries ls)
    (wf : ∀ i ∈ entries.reduceOption, WellFormed i) (ends : Ends ls text) :
    List.Forall₂ Reads (lines text) entries := by
  have found := lines_map_trim ends
  revert found
  generalize lines text = found
  clear ends
  intro same
  induction hr generalizing found with
  | nil =>
    rw [List.map_nil, List.map_eq_nil_iff] at same
    exact same ▸ .nil
  | @cons i l entries ls h _ ih =>
    cases found with
    | nil => simp at same
    | cons l' found =>
      simp only [List.map_cons, List.cons.injEq] at same
      refine .cons (fun n => ?_) (ih (fun j hj => wf j ?_) found same.2)
      · rw [lineItem_trim same.1 n]
        refine reads_of_renders h (fun j hj => wf j ?_) n
        obtain rfl := Option.mem_def.mp hj
        simp [List.reduceOption_cons_of_some]
      · cases i with
        | none => simpa [List.reduceOption_cons_of_none] using hj
        | some k => simp [List.reduceOption_cons_of_some, hj]

/-! The plainest spelling. -/

def render : Item → Text
  | .field f => fieldToken f.ty ++ ' ' :: f.name
  | .constant c => (c.ty.px4Name.toList ++ ' ' :: c.name) ++ '=' :: c.value
  | .topics names => "#TOPICS".toList ++ names.flatMap (' ' :: ·)

def renderFile (items : List Item) : Text := items.flatMap fun i => render i ++ ['\n']

def Writable : Item → Prop
  | .field f => ∀ name ∈ f.ty.reference, CamelCase name
  | .constant c => '\n' ∉ c.value
  | .topics _ => True

theorem decimal_toDigits (n : Nat) : Decimal n (Nat.toDigits 10 n) :=
  ⟨Nat.toDigits_ne_nil, fun _ hd => Nat.isDigit_of_mem_toDigits (by decide) (by decide) hd,
    Nat.ofDigitChars_ten_toDigits⟩

theorem spells_fieldToken {ty : FieldType} (h : ∀ name ∈ ty.reference, CamelCase name) :
    Spells ty (fieldToken ty) := by
  cases ty with
  | scalar s => exact .scalar s
  | scalarArray s n =>
    have spelled := Spells.scalarArray s (decimal_toDigits n)
    simpa [fieldToken] using spelled
  | nested name => exact .nested (h name rfl)
  | nestedArray name n =>
    have spelled := Spells.nestedArray (h name rfl) (decimal_toDigits n)
    simpa [fieldToken] using spelled

theorem alphanum_range {d : Char} (h : d.isAlphanum) : 48 ≤ d.toNat ∧ d.toNat ≤ 122 := by
  have h : (decide (d.val ≥ 65 ∧ d.val ≤ 90) || d.val ≥ 97 && d.val ≤ 122 ||
      d.val ≥ 48 && d.val ≤ 57) = true := h
  simp only [Bool.or_eq_true, Bool.and_eq_true, decide_eq_true_eq, UInt32.le_iff_toNat_le,
    ge_iff_le, UInt32.reduceToNat] at h
  simp only [Char.toNat]
  omega

theorem isWhitespace_of_alphanum {d : Char} (h : d.isAlphanum) : isWhitespace d = false := by
  have range := alphanum_range h
  simp only [isWhitespace, Bool.or_eq_false_iff, decide_eq_false_iff_not]
  omega

theorem Spells.ne_nil {ty : FieldType} (h : Spells ty tok) : tok ≠ [] := by
  cases h with
  | scalar s => cases s <;> decide
  | scalarArray s hn => simp
  | nested hname =>
    obtain ⟨c, cs, rfl, _⟩ := hname
    simp
  | nestedArray hname hn => simp

theorem Spells.word {ty : FieldType} (h : Spells ty tok) : Word tok := by
  refine ⟨h.ne_nil, fun d hd => ?_⟩
  · obtain h | rfl | rfl | rfl := h.chars d hd
    · exact isWhitespace_of_alphanum h
    all_goals decide

theorem spaced_words {ws : List Text} (h : ∀ w ∈ ws, Word w) :
    Spaced ws (ws.flatMap (' ' :: ·)) := by
  induction ws with
  | nil => exact .nil blank_nil
  | cons w ws ih =>
    have rest := ih fun v hv => h v (by simp [hv])
    have sep : ∀ c ∈ (ws.flatMap (' ' :: ·)).head?, isWhitespace c = true := by
      cases ws <;> simp; decide
    have one : Blank [' '] := by simp [Words.Blank]; decide
    simpa using Words.Spaced.cons one (h w (by simp)) sep rest

theorem spaced_pair {v w : Text} (hv : Word v) (hw : Word w) : Spaced [v, w] (v ++ ' ' :: w) := by
  have last : Spaced [w] ([w].flatMap (' ' :: ·)) := spaced_words (by simpa using hw)
  have sep : ∀ c ∈ ([w].flatMap (' ' :: ·)).head?, isWhitespace c = true := by simp; decide
  simpa using Words.Spaced.cons blank_nil hv sep last

theorem renders_render {i : Item} (wf : WellFormed i) (writable : Writable i) :
    Renders (some i) (render i) := by
  cases i with
  | field f =>
    obtain ⟨name, _⟩ := wf
    have token : Spells f.ty (fieldToken f.ty) := spells_fieldToken writable
    have line := Renders.field (f := f) token (spaced_pair token.word name.word) (.inl rfl)
    rw [List.append_nil] at line
    exact line
  | constant c =>
    obtain ⟨name, _⟩ := wf
    have pair := spaced_pair (Spells.scalar c.ty).word name.word
    have line := Renders.constant pair blank_nil blank_nil (.inl rfl)
    rw [List.nil_append, List.append_nil, List.append_nil] at line
    exact line
  | topics names =>
    obtain ⟨_, plain⟩ := wf
    have list := spaced_words fun w hw => (plain w hw).word
    have sep : ∀ c ∈ (names.flatMap (' ' :: ·)).head?, isWhitespace c = true := by
      cases names <;> simp; decide
    exact .topics blank_nil blank_nil list sep

theorem lf_not_mem {w : Text} (h : Word w) : '\n' ∉ w := by
  intro hm
  have solid := h.solid '\n' hm
  revert solid
  decide

theorem render_one_line {i : Item} (wf : WellFormed i) (writable : Writable i) :
    '\n' ∉ render i := by
  cases i with
  | field f =>
    obtain ⟨name, _⟩ := wf
    have token : Spells f.ty (fieldToken f.ty) := spells_fieldToken writable
    have line : '\n' ∉ fieldToken f.ty ++ ' ' :: f.name := by
      simp [lf_not_mem token.word, lf_not_mem name.word]
    exact line
  | constant c =>
    obtain ⟨name, _⟩ := wf
    have value : '\n' ∉ c.value := writable
    have line : '\n' ∉ (c.ty.px4Name.toList ++ ' ' :: c.name) ++ '=' :: c.value := by
      simp [lf_not_mem (Spells.scalar c.ty).word, lf_not_mem name.word, value]
    exact line
  | topics names =>
    obtain ⟨_, plain⟩ := wf
    have keyword : '\n' ∉ "#TOPICS".toList := by decide
    intro hm
    obtain hm | hm := List.mem_append.mp hm
    · exact keyword hm
    · obtain ⟨w, hw, hm⟩ := List.mem_flatMap.mp hm
      obtain h | hm := List.mem_cons.mp hm
      · cases h
      · exact lf_not_mem (plain w hw).word hm

theorem document_renderFile {items : List Item} (wf : ∀ i ∈ items, WellFormed i)
    (writable : ∀ i ∈ items, Writable i) : Document items (renderFile items) := by
  refine ⟨items.map some, items.map render, by simp [List.reduceOption], ?_, ?_⟩
  · rw [List.forall₂_map_left_iff, List.forall₂_map_right_iff, List.forall₂_same]
    exact fun i hi => renders_render (wf i hi) (writable i hi)
  · induction items with
    | nil => exact .nil
    | cons i items ih =>
      have line := render_one_line (wf i (by simp)) (writable i (by simp))
      have rest := ih (fun j hj => wf j (by simp [hj])) fun j hj => writable j (by simp [hj])
      simpa [renderFile] using Ends.lf line rest

/-- Whatever way the items are spelled, they are what is parsed. -/
theorem parseStr_document {items : List Item} (name : Text) (h : Document items text)
    (wf : ∀ i ∈ items, WellFormed i) (once : (topicsOf items).length ≤ 1) :
    ∃ d, parseStr name text = .ok d ∧ d.name = name ∧ d.fields = fieldsOf items ∧
      d.constants = constantsOf items ∧
      (∀ names ∈ topicsOf items, d.topics = names) ∧
      (topicsOf items = [] → d.topics = [camelToSnake name]) := by
  obtain ⟨entries, ls, rfl, rendered, ends⟩ := h
  have reads := reads_lines rendered wf ends
  refine ⟨msgDef name entries.reduceOption, parseStr_ok.mpr ⟨entries, reads, rfl⟩, rfl, rfl, rfl,
    ?_, ?_⟩
  · intro names hn
    obtain ⟨only, hl⟩ := List.length_eq_one_iff.mp (le_antisymm once (List.length_pos_of_mem hn))
    rw [hl, List.mem_singleton] at hn
    rw [msgDef_topics, hl, hn]
    rfl
  · intro none
    rw [msgDef_topics, none]
    rfl

theorem parseStr_document_gyro :
    let items : List Item := [.constant ⟨.u8, "N".toList, "a=1".toList⟩,
      .field ⟨"xyz".toList, .nestedArray "Axis".toList 3⟩, .topics ["gyro".toList]]
    ∃ d, parseStr "Gyro".toList (renderFile items) = .ok d ∧ d.name = "Gyro".toList ∧
      d.fields = fieldsOf items ∧ d.constants = constantsOf items ∧
      (∀ names ∈ topicsOf items, d.topics = names) ∧
      (topicsOf items = [] → d.topics = [camelToSnake "Gyro".toList]) := by
  have wf : ∀ i ∈ ([.constant ⟨.u8, "N".toList, "a=1".toList⟩,
      .field ⟨"xyz".toList, .nestedArray "Axis".toList 3⟩, .topics ["gyro".toList]] : List Item),
      WellFormed i ∧ Writable i := by
    simp only [List.mem_cons, List.not_mem_nil, or_false, forall_eq_or_imp, forall_eq, WellFormed,
      Writable, LengthFits]
    have plain {w : Text} (ne : w ≠ []) (solid : w.all (! isWhitespace ·) = true)
        (hash : '#' ∉ w) (eq : '=' ∉ w) : Plain w := ⟨⟨ne, by simpa using solid⟩, hash, eq⟩
    have value : Trimmed "a=1".toList := by constructor <;> rintro _ ⟨⟩ <;> decide
    have axis : CamelCase "Axis".toList := ⟨'A', "xis".toList, rfl, by decide, by simp⟩
    have n : Plain "N".toList := plain (by decide) (by decide) (by decide) (by decide)
    have xyz : Plain "xyz".toList := plain (by decide) (by decide) (by decide) (by decide)
    have gyro : Plain "gyro".toList := plain (by decide) (by decide) (by decide) (by decide)
    refine ⟨⟨⟨n, value, by decide⟩, by decide⟩, ⟨⟨xyz, by decide⟩, ?_⟩, ⟨by simp, gyro⟩, trivial⟩
    rintro _ ⟨⟩
    exact axis
  exact parseStr_document _ (document_renderFile (fun i hi => (wf i hi).1) fun i hi => (wf i hi).2)
    (fun i hi => (wf i hi).1) (by decide)

end Px4Rs.Rendering
