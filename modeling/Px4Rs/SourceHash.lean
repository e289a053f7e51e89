import Px4Rs.Grammar
import Px4Rs.LayoutUsize
import Px4Rs.Resolve
import Px4Rs.Splice

/-! The message hash as a function of the source texts. Of each file it sees the field lines,
in the order they stand, and nothing else. -/
namespace Px4Rs.SourceHash
open Px4Rs.Message Px4Rs.Parser Px4Rs.Layout Px4Rs.Strings Px4Rs.Items Px4Rs.Rendering
open Px4Rs.Grammar Px4Rs.Splice Px4Rs.Walk
open Px4Rs.Resolve (children)

/-! What the texts say. -/

/-- A line without its comment. -/
def code (l : Text) : Text := l.takeWhile (· ≠ '#')

def fieldLine (l : Text) : Option (Text × Text) :=
  if '=' ∈ code l then none
  else
    match splitWhitespace (code l) with
    | [tok, name] => some (tok, name)
    | _ => none

def fieldLines (text : Text) : List (Text × Text) := (lines text).filterMap fieldLine

def nestedType (tok : Text) : Option Text :=
  let base := tok.takeWhile (· ≠ '[')
  if (Scalar.parse base).isSome then none else some base

/-- `<type token> <name>\n`, with the message whose fields follow. -/
def lineEntry (line : Text × Text) : Entry Text Char where
  text := line.1 ++ ' ' :: line.2 ++ ['\n']
  target := nestedType line.1

def sourceEntries (text : Text) : List (Entry Text Char) := (fieldLines text).map lineEntry

/-- The field lines of the file that a name is found at. -/
def sources (search : List Dir) (name : Text) : Option (List (Entry Text Char)) :=
  match find search name with
  | .ok (.text t) => some (sourceEntries t)
  | _ => none

/-- What stands between the brackets of an array type. -/
def lengthDigits (tok : Text) : Text := ((tok.dropWhile (· ≠ '[')).drop 1).dropLast

/-- Every array length is the decimal of a number, with no sign and no zero before it. -/
def Canonical (text : Text) : Prop :=
  ∀ line ∈ fieldLines text, '[' ∈ line.1 → ∃ n, lengthDigits line.1 = Nat.toDigits 10 n

/-- A line that declares no field: blank, a comment, a directive or a constant. -/
def Silent (l : Text) : Prop := Blank (code l) ∨ '=' ∈ code l

/-- Lines without a field come and go, and the others change in blanks and comments. -/
inductive Edited : List Text → List Text → Prop
  | nil : Edited [] []
  | insert {l : Text} {ls ls' : List Text} (silent : Silent l) (rest : Edited ls ls') :
      Edited ls (l :: ls')
  | remove {l : Text} {ls ls' : List Text} (silent : Silent l) (rest : Edited ls ls') :
      Edited (l :: ls) ls'
  | restyle {l l' : Text} {ls ls' : List Text}
      (words : splitWhitespace (code l) = splitWhitespace (code l'))
      (field : '=' ∉ code l) (field' : '=' ∉ code l') (rest : Edited ls ls') :
      Edited (l :: ls) (l' :: ls')

/-- The files of one search path are those of another, edited. -/
def EditedFile (search search' : List Dir) (m : Text) : Prop :=
  ∃ t t' d', find search m = .ok (.text t) ∧ find search' m = .ok (.text t') ∧
    parseStr m t' = .ok d' ∧ Edited (lines t) (lines t')

/-- `message_hash_fields` writes `s`, at every depth that is enough. -/
def Flattens (search : List Dir) (d : MsgDef) (s : Text) : Prop :=
  (∃ k, messageHashFields search k d [] = some (.ok s)) ∧
    ∀ k r, messageHashFields search k d [] = some r → r = .ok s

/-- `message_hash` returns `h`, at every depth that is enough. -/
def Hashes (search : List Dir) (d : MsgDef) (h : BitVec 32) : Prop :=
  (∃ k, messageHash search k d = some (.ok h)) ∧
    ∀ k r, messageHash search k d = some r → r = .ok h

variable {search search' : List Dir} {name text l tok : Text} {d : MsgDef} {fs : List Field}
  {s : Text} {i : Option Item}

/-! The parser reads the field lines. -/

theorem code_append {c tail : Text} (hc : '#' ∉ c) (ht : Tail tail) : code (c ++ tail) = c := by
  have all : ∀ x ∈ c, decide (x ≠ '#') = true := by
    intro x hx
    simpa using fun h : x = '#' => hc (h ▸ hx)
  unfold code
  rw [List.takeWhile_append_of_pos all]
  obtain rfl | ⟨u, rfl⟩ := ht
  · simp
  · simp

theorem fieldLine_blank (h : Blank (code l)) : fieldLine l = none := by
  unfold fieldLine
  rw [splitWhitespace_eq_nil.mpr h]
  split <;> rfl

theorem fieldLine_silent (h : Silent l) : fieldLine l = none := by
  obtain h | h := h
  · exact fieldLine_blank h
  · simp [fieldLine, h]

theorem fieldLine_of_reads (h : Reads l i) :
    match i.bind Item.field? with
    | some f => ∃ tok, fieldLine l = some (tok, f.name) ∧ parseFieldType tok = some f.ty
    | none => fieldLine l = none := by
  obtain hl | ⟨b, t, rfl, hb⟩ | ⟨c, tail, rfl, hc, ne, ht⟩ := cut_cases l
  · have read := h 0
    rw [lineItem_blank hl] at read
    cases read
    exact fieldLine_blank fun x hx => hl x ((List.takeWhile_prefix _).subset hx)
  · have read := h 0
    rw [lineItem_hash hb, hashItem] at read
    have silent : fieldLine (b ++ '#' :: t) = none := by
      have hash : '#' ∉ b := fun hm => by simpa [isWhitespace_hash] using hb _ hm
      exact fieldLine_blank (by rwa [code_append hash (.inr ⟨t, rfl⟩)])
    split at read
    · split at read
      · cases read
      · cases read
        exact silent
    · cases read
      exact silent
  · by_cases heq : '=' ∈ c
    · have silent : fieldLine (c ++ tail) = none :=
        fieldLine_silent (.inr (by rwa [code_append hc ht]))
      obtain ⟨lhs, rhs, rfl, first⟩ := List.eq_append_cons_of_mem heq
      obtain ⟨tok, name, ty, _, _, rfl⟩ := constant_of_reads h hc first ht
      exact silent
    · obtain ⟨tok, name, ty, words, parsed, rfl⟩ := field_of_reads h hc ne heq ht
      exact ⟨tok, by simp [fieldLine, code_append hc ht, heq, words], parsed⟩

/-! The tokens. -/

theorem parseUnsigned_toDigits {w n m : Nat} (h : parseUnsigned w (Nat.toDigits 10 n) = some m) :
    n = m := by
  obtain ⟨ne, digits, value⟩ := decimal_toDigits n
  rw [parseUnsigned_digits w ne digits, value] at h
  split at h
  · exact Option.some.inj h
  · cases h

theorem cut_at_bracket {base : Text} (h : '[' ∉ base) (rest : Text) :
    (base ++ '[' :: rest).takeWhile (· ≠ '[') = base ∧
      (base ++ '[' :: rest).dropWhile (· ≠ '[') = '[' :: rest := by
  have all : ∀ x ∈ base, decide (x ≠ '[') = true := by
    intro x hx
    simpa using fun e : x = '[' => h (e ▸ hx)
  rw [List.takeWhile_append_of_pos all, List.dropWhile_append_of_pos all]
  simp

theorem takeWhile_of_bracket_not_mem (h : '[' ∉ tok) : tok.takeWhile (· ≠ '[') = tok := by
  refine List.takeWhile_eq_self_iff.mpr fun x hx => ?_
  simpa using fun e : x = '[' => h (e ▸ hx)

theorem nestedType_array {base : Text} (h : '[' ∉ base) (rest : Text) :
    nestedType (base ++ '[' :: rest) =
      if (Scalar.parse base).isSome then none else some base := by
  rw [nestedType, (cut_at_bracket h rest).1]

theorem nestedType_plain (h : '[' ∉ tok) :
    nestedType tok = if (Scalar.parse tok).isSome then none else some tok := by
  rw [nestedType, takeWhile_of_bracket_not_mem h]

/-- A type is written back as it was read, if its length was in canonical decimal. -/
theorem token_of_parse {ty : FieldType} (h : parseFieldType tok = some ty)
    (canonical : '[' ∈ tok → ∃ n, lengthDigits tok = Nat.toDigits 10 n) :
    fieldToken ty = tok ∧ ty.reference = nestedType tok := by
  obtain ⟨s, rfl, rfl⟩ | ⟨camel, rfl⟩ | ⟨base, ds, n, rfl, length, h⟩ := parseFieldType_some h
  · rw [nestedType_plain (px4Name_bracket_not_mem s), Scalar.parse_px4Name]
    exact ⟨rfl, rfl⟩
  · rw [nestedType_plain camel.bracket_not_mem, parse_camelCase camel]
    exact ⟨rfl, rfl⟩
  · have free : '[' ∉ base := by
      obtain ⟨s, rfl, _⟩ | ⟨camel, _⟩ := h
      · exact px4Name_bracket_not_mem s
      · exact camel.bracket_not_mem
    have digits : lengthDigits (base ++ '[' :: (ds ++ [']'])) = ds := by
      rw [lengthDigits, (cut_at_bracket free _).2]
      simp
    obtain ⟨m, written⟩ := canonical (by simp)
    rw [digits] at written
    subst written
    obtain rfl := parseUnsigned_toDigits length
    rw [nestedType_array free]
    obtain ⟨s, rfl, rfl⟩ | ⟨camel, rfl⟩ := h
    · rw [Scalar.parse_px4Name]
      exact ⟨by simp [fieldToken], rfl⟩
    · rw [parse_camelCase camel]
      exact ⟨by simp [fieldToken], rfl⟩

/-! The parsed fields are the field lines. -/

def fieldEntry (f : Field) : Entry Text Char where
  text := fieldToken f.ty ++ ' ' :: f.name ++ ['\n']
  target := f.ty.reference

theorem targets_fieldEntry (fs : List Field) : targets (fs.map fieldEntry) = references fs := by
  rw [targets, List.filterMap_map]
  rfl

theorem entries_of_reads {ls : List Text} {is : List (Option Item)}
    (reads : List.Forall₂ Reads ls is)
    (canonical : ∀ line ∈ ls.filterMap fieldLine, '[' ∈ line.1 →
      ∃ n, lengthDigits line.1 = Nat.toDigits 10 n) :
    (fieldsOf is.reduceOption).map fieldEntry = (ls.filterMap fieldLine).map lineEntry := by
  induction reads with
  | nil => rfl
  | @cons l i ls is read _ ih =>
    have line := fieldLine_of_reads read
    have fields : fieldsOf (i :: is).reduceOption =
        (i.bind Item.field?).toList ++ fieldsOf is.reduceOption := by
      cases i with
      | none => rfl
      | some i => rw [List.reduceOption_cons_of_some, fieldsOf_cons, Option.bind_some]
    rw [fields]
    cases hf : i.bind Item.field? with
    | none =>
      simp only [hf] at line
      rw [List.filterMap_cons_none line] at canonical ⊢
      exact ih canonical
    | some f =>
      simp only [hf] at line
      obtain ⟨tok, line, parsed⟩ := line
      rw [List.filterMap_cons_some line] at canonical ⊢
      obtain ⟨token, reference⟩ := token_of_parse parsed (canonical _ List.mem_cons_self)
      have entry : fieldEntry f = lineEntry (tok, f.name) := by
        rw [fieldEntry, lineEntry, token, reference]
      rw [Option.toList_some, List.singleton_append, List.map_cons, List.map_cons, entry,
        ih fun line hl => canonical line (List.mem_cons_of_mem _ hl)]

theorem entries_of_parse (parsed : parseStr name text = .ok d) (canonical : Canonical text) :
    d.fields.map fieldEntry = sourceEntries text := by
  obtain ⟨is, reads, rfl⟩ := parseStr_ok.mp parsed
  exact entries_of_reads reads canonical

/-- The fields of the message that a name is resolved to. -/
def parsedFields (search : List Dir) (name : Text) : Option (List (Entry Text Char)) :=
  match load search name with
  | .ok d => some (d.fields.map fieldEntry)
  | .error _ => none

theorem included_parsedFields : included (parsedFields search) = children search := by
  funext name
  unfold included parsedFields children
  cases load search name with
  | error e => rfl
  | ok d => exact congrArg some (targets_fieldEntry d.fields)

/-! The hash is of the text that the fields splice to. -/

theorem hashFields_of_splices {es : List (Entry Text Char)}
    (h : Splices (parsedFields search) es s) :
    ∀ fs, fs.map fieldEntry = es → ∃ k, ∀ j, k ≤ j → ∀ out,
      hashFields search (messageHashFields search j) fs out = some (.ok (out ++ s)) := by
  induction h with
  | nil =>
    rintro fs hfs
    obtain rfl := List.map_eq_nil_iff.mp hfs
    exact ⟨0, fun j _ out => by rw [hashFields, List.append_nil]⟩
  | plain target _ ih =>
    rintro fs hfs
    obtain ⟨f, fs, rfl, rfl, rest⟩ := List.map_eq_cons_iff.mp hfs
    obtain ⟨k, hk⟩ := ih fs rest
    have none : f.ty.reference = none := target
    refine ⟨k, fun j hj out => ?_⟩
    simp only [hashFields, none, hk j hj, fieldEntry, List.append_assoc]
  | @including e es inner n t s target found _ _ part ih =>
    rintro fs hfs
    obtain ⟨f, fs, rfl, rfl, rest⟩ := List.map_eq_cons_iff.mp hfs
    have some : f.ty.reference = some n := target
    unfold parsedFields at found
    split at found
    · rename_i nested loaded
      cases found
      obtain ⟨k₁, h₁⟩ := part nested.fields rfl
      obtain ⟨k₂, h₂⟩ := ih fs rest
      refine ⟨max (k₁ + 1) k₂, fun j hj out => ?_⟩
      obtain ⟨j, rfl⟩ : ∃ i, j = i + 1 := ⟨j - 1, by omega⟩
      have inside (out : Text) : messageHashFields search (j + 1) nested out = _ :=
        h₁ j (by omega) out
      simp only [hashFields, some, loaded, inside, h₂ (j + 1) (by omega), fieldEntry,
        List.append_assoc]
    · cases found

theorem flattens_of_splices (h : Splices (parsedFields search) (d.fields.map fieldEntry) s) :
    Flattens search d s := by
  obtain ⟨k, hk⟩ := hashFields_of_splices h d.fields rfl
  have found (j : Nat) (hj : k + 1 ≤ j) : messageHashFields search j d [] = some (.ok s) := by
    obtain ⟨j, rfl⟩ : ∃ i, j = i + 1 := ⟨j - 1, by omega⟩
    rw [messageHashFields, hk j (by omega), List.nil_append]
  refine ⟨⟨k + 1, found _ (Nat.le_refl _)⟩, fun j r hr => ?_⟩
  have same := Uncached.messageHashFields_le (Nat.le_max_left j (k + 1)) hr
  rw [found _ (Nat.le_max_right j (k + 1))] at same
  exact (Option.some.inj same).symm

theorem Flattens.hashes (h : Flattens search d s) : Hashes search d (fnv1a32 s) := by
  obtain ⟨⟨k, written⟩, only⟩ := h
  refine ⟨⟨k, by rw [messageHash, written]; rfl⟩, fun j r hr => ?_⟩
  obtain ⟨out, writes, rfl⟩ := Option.map_eq_some_iff.mp hr
  rw [only j out writes]
  rfl

theorem text_of_load {m : Text} (h : load search m = .ok d) :
    ∃ t, find search m = .ok (.text t) ∧ parseStr m t = .ok d := by
  unfold load at h
  split at h
  · rename_i file found
    cases file with
    | text t => exact ⟨t, found, h⟩
    | unreadable e => cases h
  · cases h

/-- Where a file is in canonical decimal, what is parsed is what its text says. -/
theorem sources_of_canonical {m : Text} (h : load search m = .ok d)
    (canonical : ∀ t, find search m = .ok (.text t) → Canonical t) :
    sources search m = parsedFields search m := by
  obtain ⟨t, found, parsed⟩ := text_of_load h
  rw [sources, found, parsedFields, h]
  exact congrArg some (entries_of_parse parsed (canonical t found)).symm

/-! Edited files have the same field lines. -/

theorem fieldLines_edited {ls ls' : List Text} (h : Edited ls ls') :
    ls.filterMap fieldLine = ls'.filterMap fieldLine := by
  induction h with
  | nil => rfl
  | insert silent _ ih => rw [ih, List.filterMap_cons_none (fieldLine_silent silent)]
  | remove silent _ ih => rw [← ih, List.filterMap_cons_none (fieldLine_silent silent)]
  | @restyle l l' ls ls' words field field' _ ih =>
    have same : fieldLine l = fieldLine l' := by
      rw [fieldLine, fieldLine, if_neg field, if_neg field', words]
    rw [List.filterMap_cons, List.filterMap_cons, same, ih]

theorem resolves_below {es : List (Entry Text Char)} {m : Text}
    (h : Below (parsedFields search) es m)
    (resolves : ∀ n ∈ targets es, Resolves (children search) n) : Resolves (children search) m := by
  induction h with
  | here mem => exact resolves _ mem
  | deeper mem found _ ih =>
    refine ih fun n hn => ?_
    obtain ⟨children, all⟩ := resolves _ mem
    rw [← included_parsedFields, included, found] at children
    cases children
    exact all n hn

theorem load_of_resolves {m : Text} (h : Resolves (children search) m) :
    ∃ d, load search m = .ok d := by
  obtain ⟨found, _⟩ := h
  unfold children at found
  split at found
  · rename_i d loaded
    exact ⟨d, loaded⟩
  · cases found

theorem parsedFields_edited {m : Text} (h : load search m = .ok d)
    (canonical : ∀ t, find search m = .ok (.text t) → Canonical t)
    (edited : EditedFile search search' m) : parsedFields search' m = parsedFields search m := by
  obtain ⟨t, t', d', found, found', parsed, edits⟩ := edited
  have same : fieldLines t = fieldLines t' := fieldLines_edited edits
  have load' : load search' m = .ok d' := by
    rw [load, found']
    exact parsed
  have canonical' : Canonical t' := by
    unfold Canonical
    rw [← same]
    exact canonical t found
  rw [← sources_of_canonical h canonical, sources, found, parsedFields, load']
  have entries : d'.fields.map fieldEntry = sourceEntries t := by
    rw [entries_of_parse parsed canonical', sourceEntries, ← same]
    rfl
  exact congrArg some entries

theorem messageHash_layout {o : LayoutUsize.Overflow} {k : Nat} {c c' : Cache} {l : LaidOutMsg}
    (h : LayoutUsize.layout search o k d c = some (.ok l, c')) :
    messageHash search (k + 1) d = some (.ok l.messageHash) := by
  obtain ⟨_, _, _, hash, _⟩ := LayoutUsize.layoutWith_ok o h
  exact hash

/-- The messages that `d` nests, directly or not. -/
def Nests (search : List Dir) (d : MsgDef) (m : Text) : Prop :=
  Below (parsedFields search) (d.fields.map fieldEntry) m

/-- The hash is that of the field lines of the source, with those of a nested message after
its field. It is the one in the layout, and of every edit that leaves the field lines. -/
theorem hash_of_source (parsed : parseStr name text = .ok d)
    (resolves : ∀ m ∈ references d.fields, Resolves (children search) m)
    (canonical : Canonical text)
    (below : ∀ m, Nests search d m → ∀ t, find search m = .ok (.text t) → Canonical t) :
    ∃ s, Splices (sources search) (sourceEntries text) s ∧
      (∀ s', Splices (sources search) (sourceEntries text) s' → s' = s) ∧
      Flattens search d s ∧ Hashes search d (fnv1a32 s) ∧
      (∀ o k c l c', LayoutUsize.layout search o k d c = some (.ok l, c') →
        l.messageHash = fnv1a32 s) ∧
      ∀ search' name' text' d', parseStr name' text' = .ok d' → Edited (lines text) (lines text') →
        (∀ m, Nests search d m → EditedFile search search' m) →
        Flattens search' d' s ∧ Hashes search' d' (fnv1a32 s) := by
  have resolves : ∀ m ∈ targets (d.fields.map fieldEntry), Resolves (children search) m := by
    rwa [targets_fieldEntry]
  obtain ⟨s, splices⟩ : ∃ s, Splices (parsedFields search) (d.fields.map fieldEntry) s :=
    exists_splices (by rwa [included_parsedFields])
  have source : Splices (sources search) (sourceEntries text) s := by
    rw [← entries_of_parse parsed canonical]
    refine splices.congr fun m hm => ?_
    obtain ⟨d', loaded⟩ := load_of_resolves (resolves_below hm resolves)
    exact sources_of_canonical loaded (below m hm)
  have flattens := flattens_of_splices splices
  refine ⟨s, source, fun s' h => h.unique source, flattens, flattens.hashes,
    fun o k c l c' h => ?_, ?_⟩
  · exact Except.ok.inj (flattens.hashes.2 _ _ (messageHash_layout h))
  · intro search' name' text' d' parsed' edits files
    have same : fieldLines text = fieldLines text' := fieldLines_edited edits
    have canonical' : Canonical text' := by
      unfold Canonical
      rwa [← same]
    have entries : d'.fields.map fieldEntry = d.fields.map fieldEntry := by
      rw [entries_of_parse parsed' canonical', entries_of_parse parsed canonical, sourceEntries,
        ← same]
      rfl
    have spliced : Splices (parsedFields search') (d'.fields.map fieldEntry) s := by
      rw [entries]
      refine splices.congr fun m hm => ?_
      obtain ⟨d', loaded⟩ := load_of_resolves (resolves_below hm resolves)
      exact parsedFields_edited loaded (below m hm) (files m hm)
    exact ⟨flattens_of_splices spliced, (flattens_of_splices spliced).hashes⟩

/-- `Branch` has two `Leaf`s and a count, a `Leaf` has four bytes. -/
def branch : Text := "# two leaves\nuint8 KIND = 1\nLeaf[2] leaves\n\nuint16 count".toList
def grove : List Dir := [[("Leaf".toList, .text "uint8[4] x".toList)]]

def branchMsg : MsgDef :=
  ⟨"Branch".toList, "branch".toList,
    [⟨"leaves".toList, .nestedArray "Leaf".toList 2⟩, ⟨"count".toList, .scalar .u16⟩],
    [⟨.u8, "KIND".toList, "1".toList⟩], ["branch".toList], none⟩

def bare : Text := "Leaf[2]  leaves # a pair\nuint16 count".toList

theorem nests_branch {m : Text} (h : Nests grove branchMsg m) : m = "Leaf".toList := by
  cases h with
  | here mem => exact List.mem_singleton.mp mem
  | deeper mem found below =>
    obtain rfl := List.mem_singleton.mp mem
    have leaf : parsedFields grove "Leaf".toList =
      some [lineEntry ("uint8[4]".toList, "x".toList)] := rfl
    cases leaf.symm.trans found
    cases below with
    | here mem => cases mem
    | deeper mem => cases mem

theorem hash_of_source_branch : parseStr "Branch".toList branch = .ok branchMsg ∧
    Flattens grove branchMsg "Leaf[2] leaves\nuint8[4] x\nuint16 count\n".toList ∧
    Hashes grove branchMsg (fnv1a32 "Leaf[2] leaves\nuint8[4] x\nuint16 count\n".toList) ∧
    ∃ d, parseStr "Branch".toList bare = .ok d ∧
      Hashes grove d (fnv1a32 "Leaf[2] leaves\nuint8[4] x\nuint16 count\n".toList) := by
  have parsed : parseStr "Branch".toList branch = .ok branchMsg := by decide
  have resolves : ∀ m ∈ references branchMsg.fields, Resolves (children grove) m := by
    intro m hm
    obtain rfl := List.mem_singleton.mp hm
    exact .intro (show children grove _ = some [] from rfl) (by simp)
  have canonical : Canonical branch := by
    have read : fieldLines branch =
        [("Leaf[2]".toList, "leaves".toList), ("uint16".toList, "count".toList)] := rfl
    rw [Canonical, read, List.forall_mem_cons, List.forall_mem_singleton]
    exact ⟨fun _ => ⟨2, rfl⟩, fun h => absurd h (by decide)⟩
  have below (m : Text) (hm : Nests grove branchMsg m) (t : Text)
      (found : find grove m = .ok (.text t)) : Canonical t := by
    obtain rfl := nests_branch hm
    cases found
    have read : fieldLines "uint8[4] x".toList = [("uint8[4]".toList, "x".toList)] := rfl
    rw [Canonical, read, List.forall_mem_singleton]
    exact fun _ => ⟨4, rfl⟩
  obtain ⟨s, _, unique, flattens, hashes, _, edited⟩ :=
    hash_of_source parsed resolves canonical below
  have leaf : Splices (sources grove) [lineEntry ("uint8[4]".toList, "x".toList)] _ :=
    .plain rfl .nil
  have spliced : Splices (sources grove) [lineEntry ("Leaf[2]".toList, "leaves".toList),
      lineEntry ("uint16".toList, "count".toList)] _ :=
    .including rfl rfl leaf (.plain rfl .nil)
  obtain rfl : "Leaf[2] leaves\nuint8[4] x\nuint16 count\n".toList = s := unique _ spliced
  refine ⟨parsed, flattens, hashes, _, rfl,
    (edited grove "Branch".toList bare _ rfl ?_ fun m hm => ?_).2⟩
  · have comment : Silent "# two leaves".toList := .inl (splitWhitespace_eq_nil.mp rfl)
    have constant : Silent "uint8 KIND = 1".toList := .inr (by decide)
    have blank : Silent "".toList := .inl (splitWhitespace_eq_nil.mp rfl)
    exact .remove comment (.remove constant (.restyle (by decide) (by decide) (by decide)
      (.remove blank (.restyle (by decide) (by decide) (by decide) .nil))))
  · obtain rfl := nests_branch hm
    exact ⟨_, _, _, rfl, rfl, rfl, .restyle rfl (by decide) (by decide) .nil⟩

end Px4Rs.SourceHash
