import Mathlib.Data.List.Forall2
import Mathlib.Data.List.ReduceOption
import Px4Rs.Strings

/-! A .msg file as the list of what its lines declare. What a line declares depends on that
line alone; the parser collects the declarations. -/
namespace Px4Rs.Items
open Px4Rs.Message Px4Rs.Parser Px4Rs.Strings
variable {name text l : Text} {p q : Parsed} {i : Option Item} {d : MsgDef}

inductive Item where
  | field (f : Field)
  | constant (c : Constant)
  | topics (names : List Text)
deriving DecidableEq

def Item.field? : Item → Option Field
  | field f => some f
  | constant _ | topics _ => none

def Item.constant? : Item → Option Constant
  | constant c => some c
  | field _ | topics _ => none

def Item.topics? : Item → Option (List Text)
  | topics names => some names
  | field _ | constant _ => none

def fieldsOf (items : List Item) : List Field := items.filterMap Item.field?
def constantsOf (items : List Item) : List Constant := items.filterMap Item.constant?
def topicsOf (items : List Item) : List (List Text) := items.filterMap Item.topics?

theorem fieldsOf_cons (i : Item) (items : List Item) :
    fieldsOf (i :: items) = i.field?.toList ++ fieldsOf items := by
  cases i <;> rfl

theorem constantsOf_cons (i : Item) (items : List Item) :
    constantsOf (i :: items) = i.constant?.toList ++ constantsOf items := by
  cases i <;> rfl

theorem topicsOf_cons (i : Item) (items : List Item) :
    topicsOf (i :: items) = i.topics?.toList ++ topicsOf items := by
  cases i <;> rfl

def declare (p : Parsed) : Option Item → Parsed
  | none => p
  | some (.field f) => { p with fields := p.fields ++ [f] }
  | some (.constant c) => { p with constants := p.constants ++ [c] }
  | some (.topics names) => { p with topics := some names }

/-- What a line with nothing but blanks before its `#` declares. -/
def hashItem (lineno : Nat) (rest : Text) : Except ParseError (Option Item) :=
  match stripPrefix "TOPICS".toList (trim rest) with
  | some list =>
    if splitWhitespace list = [] then
      .error (.syntaxError lineno "`# TOPICS` directive with no names")
    else .ok (some (.topics (splitWhitespace list)))
  | none => .ok none

/-- What is left of a line without its trailing comment. -/
def codeOf (trimmed : Text) : Text :=
  match splitOnce '#' trimmed with
  | some (before, _) => trim before
  | none => trimmed

def codeItem (lineno : Nat) (code : Text) : Except ParseError (Option Item) :=
  if code = [] then .ok none
  else
    match splitOnce '=' code with
    | some (lhs, rhs) => (parseConstant lineno lhs rhs).map fun c => some (.constant c)
    | none => (parseField lineno code).map fun f => some (.field f)

def lineItem (lineno : Nat) (rawLine : Text) : Except ParseError (Option Item) :=
  match stripPrefix ['#'] (trim rawLine) with
  | some rest => hashItem lineno rest
  | none => codeItem lineno (codeOf (trim rawLine))

theorem parseLine_hash {lineno : Nat} {rest : Text} (p : Parsed)
    (h : stripPrefix ['#'] (trim l) = some rest) :
    parseLine lineno l p = (hashItem lineno rest).map (declare p) := by
  simp only [parseLine, h, hashItem]
  cases hl : stripPrefix "TOPICS".toList (trim rest) with
  | none => rfl
  | some list =>
    by_cases hn : splitWhitespace list = []
    · simp only [hn, if_true]
      rfl
    · simp only [hn, if_false]
      rfl

theorem parseLine_code {lineno : Nat} (p : Parsed) (h : stripPrefix ['#'] (trim l) = none) :
    parseLine lineno l p = (codeItem lineno (codeOf (trim l))).map (declare p) := by
  have body : parseLine lineno l p =
      if codeOf (trim l) = [] then .ok p
      else match splitOnce '=' (codeOf (trim l)) with
        | some (lhs, rhs) =>
          (parseConstant lineno lhs rhs).bind fun c =>
            .ok { p with constants := p.constants ++ [c] }
        | none =>
          (parseField lineno (codeOf (trim l))).bind fun f =>
            .ok { p with fields := p.fields ++ [f] } := by
    simp only [parseLine, h]
    rfl
  rw [body, codeItem]
  split_ifs with hc
  · rfl
  · cases splitOnce '=' (codeOf (trim l)) with
    | none => cases parseField lineno (codeOf (trim l)) <;> rfl
    | some cut => cases hc : parseConstant lineno cut.1 cut.2 <;> simp only [hc] <;> rfl

theorem parseLine_eq (lineno : Nat) (l : Text) (p : Parsed) :
    parseLine lineno l p = (lineItem lineno l).map (declare p) := by
  unfold lineItem
  cases h : stripPrefix ['#'] (trim l) with
  | some rest => exact parseLine_hash p h
  | none => exact parseLine_code p h

/-! The number of the line is in its error only. -/

theorem parseConstant_ok {n : Nat} {lhs rhs : Text} {c : Constant}
    (h : parseConstant n lhs rhs = .ok c) :
    ∃ tyTok nameTok ty, splitWhitespace (trim lhs) = [tyTok, nameTok] ∧
      Scalar.parse tyTok = some ty ∧ c = ⟨ty, nameTok, trim rhs⟩ := by
  unfold parseConstant at h
  split at h
  · cases h
  · cases h
  · rename_i tyTok nameTok words
    split at h
    · rename_i ty parsed
      exact ⟨tyTok, nameTok, ty, words, parsed, (Except.ok.inj h).symm⟩
    · cases h
  · cases h

theorem parseField_ok {n : Nat} {code : Text} {f : Field} (h : parseField n code = .ok f) :
    ∃ tyTok nameTok ty, splitWhitespace code = [tyTok, nameTok] ∧
      parseFieldType tyTok = some ty ∧ f = ⟨nameTok, ty⟩ := by
  unfold parseField at h
  split at h
  · cases h
  · cases h
  · rename_i tyTok nameTok words
    split at h
    · rename_i ty parsed
      exact ⟨tyTok, nameTok, ty, words, parsed, (Except.ok.inj h).symm⟩
    · cases h
  · cases h

theorem parseConstant_error {n : Nat} {lhs rhs : Text} {e : ParseError}
    (h : parseConstant n lhs rhs = .error e) : ∃ msg, e = .syntaxError n msg := by
  unfold parseConstant at h
  split at h
  on_goal 3 => split at h
  all_goals first
    | exact ⟨_, (Except.error.inj h).symm⟩
    | cases h

theorem parseField_error {n : Nat} {code : Text} {e : ParseError}
    (h : parseField n code = .error e) : ∃ msg, e = .syntaxError n msg := by
  unfold parseField at h
  split at h
  on_goal 3 => split at h
  all_goals first
    | exact ⟨_, (Except.error.inj h).symm⟩
    | cases h

theorem hashItem_ok {n m : Nat} {rest : Text} (h : hashItem n rest = .ok i) :
    hashItem m rest = .ok i := by
  unfold hashItem at h ⊢
  split at h
  · split_ifs at h ⊢
    exact h
  · exact h

theorem codeItem_ok {n m : Nat} {code : Text} (h : codeItem n code = .ok i) :
    codeItem m code = .ok i := by
  unfold codeItem at h ⊢
  split_ifs at h ⊢ with hc
  · exact h
  · cases he : splitOnce '=' code with
    | none =>
      simp only [he] at h ⊢
      cases hf : parseField n code with
      | error e => simp [hf, Except.map] at h
      | ok f =>
        obtain ⟨tyTok, nameTok, ty, words, parsed, rfl⟩ := parseField_ok hf
        rw [hf] at h
        simpa [parseField, words, parsed] using h
    | some cut =>
      simp only [he] at h ⊢
      cases hk : parseConstant n cut.1 cut.2 with
      | error e => simp [hk, Except.map] at h
      | ok c =>
        obtain ⟨tyTok, nameTok, ty, words, parsed, rfl⟩ := parseConstant_ok hk
        rw [hk] at h
        simpa [parseConstant, words, parsed] using h

/-- A line that is read, whatever its number is. -/
def Reads (l : Text) (i : Option Item) : Prop := ∀ n, lineItem n l = .ok i

theorem lineItem_ok {n : Nat} (h : lineItem n l = .ok i) : Reads l i := by
  intro m
  unfold lineItem at h ⊢
  cases hs : stripPrefix ['#'] (trim l) with
  | some rest =>
    simp only [hs] at h ⊢
    exact hashItem_ok h
  | none =>
    simp only [hs] at h ⊢
    exact codeItem_ok h

theorem lineItem_error {n : Nat} {e : ParseError} (h : lineItem n l = .error e) :
    ∃ msg, e = .syntaxError n msg := by
  unfold lineItem at h
  cases hs : stripPrefix ['#'] (trim l) with
  | some rest =>
    simp only [hs, hashItem] at h
    split at h
    · split_ifs at h
      exact ⟨_, (Except.error.inj h).symm⟩
    · cases h
  | none =>
    simp only [hs, codeItem] at h
    split_ifs at h
    split at h
    · rename_i lhs rhs _
      cases hk : parseConstant n lhs rhs with
      | ok c => simp [hk, Except.map] at h
      | error e' =>
        rw [hk] at h
        cases h
        exact parseConstant_error hk
    · cases hf : parseField n (codeOf (trim l)) with
      | ok f => simp [hf, Except.map] at h
      | error e' =>
        rw [hf] at h
        cases h
        exact parseField_error hf

theorem parseLines_ok {n : Nat} {ls : List Text} :
    parseLines n p ls = .ok q ↔ ∃ is, List.Forall₂ Reads ls is ∧ q = is.foldl declare p := by
  induction ls generalizing n p with
  | nil =>
    constructor
    · intro h
      exact ⟨[], .nil, (Except.ok.inj h).symm⟩
    · rintro ⟨_, _ | _, rfl⟩
      rfl
  | cons l ls ih =>
    have step : parseLines n p (l :: ls) =
        ((lineItem n l).map (declare p)).bind fun p => parseLines (n + 1) p ls := by
      rw [← parseLine_eq]
      rfl
    rw [step]
    constructor
    · intro h
      cases hl : lineItem n l with
      | error e => simp [hl, Except.map, Except.bind] at h
      | ok i =>
        simp only [hl, Except.map, Except.bind] at h
        obtain ⟨is, reads, rfl⟩ := ih.mp h
        exact ⟨i :: is, .cons (lineItem_ok hl) reads, rfl⟩
    · rintro ⟨_, _ | ⟨read, reads⟩, rfl⟩
      rw [read n]
      exact ih.mpr ⟨_, reads, rfl⟩

theorem parseLines_error {n : Nat} {ls : List Text} {e : ParseError}
    (h : parseLines n p ls = .error e) : ∃ k msg, k < ls.length ∧ e = .syntaxError (n + k) msg := by
  induction ls generalizing n p with
  | nil => cases h
  | cons l ls ih =>
    have step : parseLines n p (l :: ls) =
        ((lineItem n l).map (declare p)).bind fun p => parseLines (n + 1) p ls := by
      rw [← parseLine_eq]
      rfl
    rw [step] at h
    cases hl : lineItem n l with
    | error e' =>
      simp only [hl, Except.map, Except.bind] at h
      cases h
      obtain ⟨msg, rfl⟩ := lineItem_error hl
      exact ⟨0, msg, by simp, rfl⟩
    | ok i =>
      simp only [hl, Except.map, Except.bind] at h
      obtain ⟨k, msg, hk, rfl⟩ := ih h
      exact ⟨k + 1, msg, by simpa using hk, by rw [Nat.add_assoc, Nat.add_comm 1]⟩

/-! The parsed message. -/

theorem foldl_declare (is : List (Option Item)) (p : Parsed) :
    is.foldl declare p =
      { fields := p.fields ++ fieldsOf is.reduceOption
        constants := p.constants ++ constantsOf is.reduceOption
        topics := (topicsOf is.reduceOption).getLast?.or p.topics } := by
  induction is generalizing p with
  | nil => simp [fieldsOf, constantsOf, topicsOf, List.reduceOption]
  | cons i is ih =>
    rw [List.foldl_cons, ih]
    cases i with
    | none => rfl
    | some i =>
      rw [List.reduceOption_cons_of_some]
      generalize is.reduceOption = items
      rw [fieldsOf_cons, constantsOf_cons, topicsOf_cons]
      cases i with
      | field f => simp [declare, Item.field?, Item.constant?, Item.topics?]
      | constant c => simp [declare, Item.field?, Item.constant?, Item.topics?]
      | topics names =>
        have last : (names :: topicsOf items).getLast?.or p.topics =
            (topicsOf items).getLast?.or (some names) := by
          cases h : (topicsOf items).getLast? <;> simp [List.getLast?_cons, h]
        simp [declare, Item.field?, Item.constant?, Item.topics?, last]

/-- The message of a list of declarations: all its fields and constants, and the topics of
its last directive. -/
def msgDef (name : Text) (items : List Item) : MsgDef where
  name := name
  snakeName := camelToSnake name
  fields := fieldsOf items
  constants := constantsOf items
  topics := (topicsOf items).getLast?.getD [camelToSnake name]
  messageVersion :=
    ((constantsOf items).find? fun c => c.name = "MESSAGE_VERSION".toList).bind fun c =>
      parseUnsigned 32 (trim c.value)

theorem msgDef_topics (name : Text) (items : List Item) :
    (msgDef name items).topics = (topicsOf items).getLast?.getD [camelToSnake name] := rfl

/-- The message of what the lines have declared. -/
def ofParsed (name : Text) (p : Parsed) : MsgDef where
  name := name
  snakeName := camelToSnake name
  fields := p.fields
  constants := p.constants
  topics := p.topics.getD [camelToSnake name]
  messageVersion :=
    (p.constants.find? fun c => c.name = "MESSAGE_VERSION".toList).bind fun c =>
      parseUnsigned 32 (trim c.value)

theorem parseStr_eq (name text : Text) :
    parseStr name text = (parseLines 1 ⟨[], [], none⟩ (lines text)).map (ofParsed name) := rfl

theorem parseStr_ok : parseStr name text = .ok d ↔
    ∃ is, List.Forall₂ Reads (lines text) is ∧ d = msgDef name is.reduceOption := by
  have collected (is : List (Option Item)) :
      ofParsed name (is.foldl declare ⟨[], [], none⟩) = msgDef name is.reduceOption := by
    rw [foldl_declare]
    simp only [List.nil_append, Option.or_none]
    rfl
  rw [parseStr_eq]
  cases hp : parseLines 1 ⟨[], [], none⟩ (lines text) with
  | error e =>
    constructor
    · intro h
      cases h
    · rintro ⟨is, reads, rfl⟩
      rw [parseLines_ok.mpr ⟨is, reads, rfl⟩] at hp
      cases hp
  | ok p =>
    constructor
    · intro h
      obtain ⟨is, reads, rfl⟩ := parseLines_ok.mp hp
      exact ⟨is, reads, (Except.ok.inj h).symm.trans (collected is)⟩
    · rintro ⟨is, reads, rfl⟩
      rw [parseLines_ok.mpr ⟨is, reads, rfl⟩] at hp
      cases hp
      exact congrArg Except.ok (collected is)

theorem Reads.field {f : Field} (h : Reads l (some (.field f))) :
    ∃ tok, parseFieldType tok = some f.ty := by
  have read := h 0
  unfold lineItem at read
  split at read
  · rename_i rest _
    simp only [hashItem] at read
    split at read
    · split at read <;> cases read
    · cases read
  · unfold codeItem at read
    split at read
    · cases read
    · split at read
      · rename_i lhs rhs _
        cases hc : parseConstant 0 lhs rhs <;> simp [hc, Except.map] at read
      · cases hf : parseField 0 (codeOf (trim l)) with
        | error e => simp [hf, Except.map] at read
        | ok g =>
          obtain ⟨tok, _, _, _, parsed, rfl⟩ := parseField_ok hf
          rw [hf] at read
          cases read
          exact ⟨tok, parsed⟩

theorem exists_line {ls : List Text} {is : List (Option Item)} (reads : List.Forall₂ Reads ls is)
    (hi : i ∈ is) : ∃ l ∈ ls, Reads l i := by
  induction reads with
  | nil => cases hi
  | cons read _ ih =>
    obtain rfl | hi := List.mem_cons.mp hi
    · exact ⟨_, List.mem_cons_self, read⟩
    · obtain ⟨l, hl, read⟩ := ih hi
      exact ⟨l, List.mem_cons_of_mem _ hl, read⟩

theorem field_parsed {f : Field} (h : parseStr name text = .ok d) (hf : f ∈ d.fields) :
    ∃ tok, parseFieldType tok = some f.ty := by
  obtain ⟨is, reads, rfl⟩ := parseStr_ok.mp h
  obtain ⟨i, hi, declares⟩ := List.mem_filterMap.mp hf
  cases i with
  | field g =>
    cases declares
    obtain ⟨l, _, read⟩ := exists_line reads (List.reduceOption_mem_iff.mp hi)
    exact read.field
  | constant | topics => cases declares

theorem parseStr_error {e : ParseError} (h : parseStr name text = .error e) :
    ∃ n msg, 0 < n ∧ n ≤ (lines text).length ∧ e = .syntaxError n msg := by
  rw [parseStr_eq] at h
  cases hp : parseLines 1 ⟨[], [], none⟩ (lines text) with
  | ok p =>
    rw [hp] at h
    cases h
  | error e' =>
    obtain ⟨k, msg, hk, rfl⟩ := parseLines_error hp
    rw [hp] at h
    cases h
    exact ⟨1 + k, msg, by omega, by omega, rfl⟩

end Px4Rs.Items
