import Mathlib.Data.List.Sort
import Mathlib.Logic.Function.Basic
import Px4Rs.Parser

/-! The layout of messages: fields by descending size, padding before nested messages and
at the end, nested messages resolved through the search path and a cache. The nesting
depth is an argument: a result of `none` means that it is used up. -/
namespace Px4Rs.Layout
open Px4Rs.Message Px4Rs.Parser Function

def alignTo : Nat := 8

/-- `fnv1a_32`, over the UTF-8 bytes. -/
def fnv1a32 (data : Text) : BitVec 32 :=
  (data.flatMap String.utf8EncodeChar).foldl
    (fun hash b => (hash ^^^ BitVec.ofNat 32 b.toNat) * 0x01000193#32) 0x811c9dc5#32

-- the known vectors of FNV-1a
example : fnv1a32 "".toList = 0x811c9dc5#32 := by decide
example : fnv1a32 "a".toList = 0xe40c292c#32 := by decide
example : fnv1a32 "foobar".toList = 0xbf9cf968#32 := by decide

inductive LaidOutField where
  | real (f : Field)
  | padding (index size : Nat)
deriving DecidableEq

structure LaidOutMsg where
  name : Text
  snakeName : Text
  fields : List LaidOutField
  constants : List Constant
  topics : List Text
  size : Nat
  messageHash : BitVec 32
deriving DecidableEq

/-! The search path. -/

/-- A .msg file, or the error that reading it gives. -/
inductive File where
  | text (t : Text)
  | unreadable (e : String)

/-- A search directory: its .msg files under their stems, as `find` looks a name up by
appending `.msg` and `parse_file` takes it off again. -/
abbrev Dir := List (Text × File)

variable (search : List Dir)

/-- `Resolver::find`: the first directory that has the file. -/
def find (name : Text) : Except ParseError File :=
  match search.findSome? fun dir => dir.lookup name with
  | some file => .ok file
  | none => .error (.unresolvedNested name)

def parseFile (name : Text) : File → Except ParseError MsgDef
  | .text t => parseStr name t
  | .unreadable e => .error (.io e)

/-- `find`, then `parse_file`. -/
def load (name : Text) : Except ParseError MsgDef :=
  match find search name with
  | .ok file => parseFile name file
  | .error e => .error e

/-! Sizes and padding. Sizes are not bounded by the width of `usize` here. -/

def fieldSortSize : FieldType → Nat
  | .scalar s | .scalarArray s _ => s.size
  | .nested _ | .nestedArray _ _ => 0

def alignGap (pos align : Nat) : Nat := if pos % align = 0 then 0 else align - pos % align

def sortFields (fields : List Field) : List Field :=
  fields.insertionSort fun a b => fieldSortSize b.ty ≤ fieldSortSize a.ty

structure Placing where
  out : List LaidOutField
  sizeAccum : Nat
  paddingIdx : Nat

def Placing.start : Placing := ⟨[], 0, 0⟩

/-- Padding up to the next multiple of `alignTo`, if any is needed. -/
def Placing.pad (p : Placing) : Placing :=
  let gap := alignGap p.sizeAccum alignTo
  if 0 < gap then
    { out := p.out ++ [.padding p.paddingIdx gap]
      sizeAccum := p.sizeAccum + gap
      paddingIdx := p.paddingIdx + 1 }
  else p

def Placing.place (p : Placing) (f : Field) (size : Nat) : Placing :=
  let p := match f.ty with
    | .nested _ | .nestedArray _ _ => p.pad
    | .scalar _ | .scalarArray _ _ => p
  { p with out := p.out ++ [.real f], sizeAccum := p.sizeAccum + size }

/-! The message hash. -/

def fieldToken : FieldType → Text
  | .scalar s => s.px4Name.toList
  | .scalarArray s n => s.px4Name.toList ++ '[' :: Nat.toDigits 10 n ++ [']']
  | .nested name => name
  | .nestedArray name n => name ++ '[' :: Nat.toDigits 10 n ++ [']']

/-- The loop of `message_hash_fields`, with its recursive call. -/
def hashFields (recurse : MsgDef → Text → Option (Except ParseError Text)) :
    List Field → Text → Option (Except ParseError Text)
  | [], out => some (.ok out)
  | f :: fs, out =>
    let out := out ++ fieldToken f.ty ++ ' ' :: f.name ++ ['\n']
    match f.ty.reference with
    | none => hashFields recurse fs out
    | some name =>
      match load search name with
      | .error e => some (.error e)
      | .ok nested =>
        match recurse nested out with
        | some (.ok out) => hashFields recurse fs out
        | r => r

def messageHashFields : Nat → MsgDef → Text → Option (Except ParseError Text)
  | 0, _, _ => none
  | k + 1, d, out => hashFields search (messageHashFields k) d.fields out

def messageHash (k : Nat) (d : MsgDef) : Option (Except ParseError (BitVec 32)) :=
  (messageHashFields search k d []).map fun r => r.map fnv1a32

/-! The resolver. Its cache is also kept when a call returns an error. -/

abbrev Cache := Text → Option LaidOutMsg

/-- `Resolver::new`: nothing is cached. -/
def Cache.new : Cache := fun _ => none

/-- What a call returns, with the cache it leaves; `none` when the depth is used up. -/
abbrev Outcome (α : Type) := Option (Except ParseError α × Cache)

/-- `?` on a call's result. -/
def Outcome.andThen {α β : Type} (x : Outcome α) (f : α → Cache → Outcome β) : Outcome β :=
  match x with
  | some (.ok a, c) => f a c
  | some (.error e, c) => some (.error e, c)
  | none => none

def fieldTotalSize (byName : Cache → Text → Outcome LaidOutMsg) (c : Cache) :
    FieldType → Outcome Nat
  | .scalar s => some (.ok s.size, c)
  | .scalarArray s n => some (.ok (s.size * n), c)
  | .nested name => (byName c name).andThen fun l c => some (.ok l.size, c)
  | .nestedArray name n => (byName c name).andThen fun l c => some (.ok (l.size * n), c)

def placeFields (byName : Cache → Text → Outcome LaidOutMsg) :
    List Field → Placing → Cache → Outcome Placing
  | [], p, c => some (.ok p, c)
  | f :: fs, p, c =>
    (fieldTotalSize byName c f.ty).andThen fun size c => placeFields byName fs (p.place f size) c

def laidOut (d : MsgDef) (p : Placing) (hash : BitVec 32) : LaidOutMsg where
  name := d.name
  snakeName := d.snakeName
  fields := p.pad.out
  constants := d.constants
  topics := d.topics
  size := p.pad.sizeAccum
  messageHash := hash

/-- The body of `layout`, with its calls of `layout_by_name` and `message_hash`. -/
def layoutWith (byName : Cache → Text → Outcome LaidOutMsg)
    (hash : Option (Except ParseError (BitVec 32))) (d : MsgDef) (c : Cache) :
    Outcome LaidOutMsg :=
  (placeFields byName (sortFields d.fields) .start c).andThen fun p c =>
    match hash with
    | none => none
    | some (.error e) => some (.error e, c)
    | some (.ok h) => some (.ok (laidOut d p h), update c d.name (some (laidOut d p h)))

def layoutByName : Nat → Cache → Text → Outcome LaidOutMsg
  | 0, _, _ => none
  | k + 1, c, name =>
    match c name with
    | some cached => some (.ok cached, c)
    | none =>
      match load search name with
      | .error e => some (.error e, c)
      | .ok d => layoutWith (layoutByName k) (messageHash search (k + 1) d) d c

def layout (k : Nat) (d : MsgDef) (c : Cache) : Outcome LaidOutMsg :=
  layoutWith (layoutByName search k) (messageHash search (k + 1) d) d c

theorem load_name {name : Text} {d : MsgDef} (h : load search name = .ok d) : d.name = name := by
  unfold load at h
  split at h
  · rename_i file _
    cases file with
    | text t => exact parseStr_name h
    | unreadable e => cases h
  · cases h

def totalSize (sizeOf : Text → Nat) : FieldType → Nat
  | .scalar s => s.size
  | .scalarArray s n => s.size * n
  | .nested name => sizeOf name
  | .nestedArray name n => sizeOf name * n

theorem fieldTotalSize_eq (byName : Cache → Text → Outcome LaidOutMsg) (c : Cache)
    (ty : FieldType) :
    fieldTotalSize byName c ty =
      match ty.reference with
      | none => some (.ok (totalSize (fun _ => 0) ty), c)
      | some name => (byName c name).andThen fun l c =>
          some (.ok (totalSize (fun _ => l.size) ty), c) := by
  cases ty <;> rfl

/-- The sort keeps the order of fields it does not tell apart. -/
theorem filter_sortFields {p : Field → Bool} (fields : List Field)
    (same : ∀ a b, p a → p b → fieldSortSize b.ty ≤ fieldSortSize a.ty) :
    (sortFields fields).filter p = fields.filter p := by
  have sorted : (fields.filter p).Pairwise
      fun a b => fieldSortSize b.ty ≤ fieldSortSize a.ty := by
    apply List.pairwise_of_forall_mem_list
    intro a ha b hb
    exact same a b (List.of_mem_filter ha) (List.of_mem_filter hb)
  have sub := (List.sublist_insertionSort sorted List.filter_sublist).filter p
  simp only [List.filter_filter, Bool.and_self] at sub
  refine (sub.eq_of_length ?_).symm
  exact ((List.perm_insertionSort _ fields).filter p).length_eq.symm

theorem fieldSortSize_nested {ty : FieldType} (h : ty.reference.isSome) :
    fieldSortSize ty = 0 := by
  cases ty <;> simp_all [FieldType.reference, fieldSortSize]

/-- The sort moves nested messages to the end and keeps their order. -/
theorem references_sortFields (fields : List Field) :
    references (sortFields fields) = references fields := by
  let nested := fun f : Field => f.ty.reference.isSome
  have kept : (sortFields fields).filter nested = fields.filter nested := by
    refine filter_sortFields fields fun a b _ hb => ?_
    rw [fieldSortSize_nested hb]
    exact Nat.zero_le _
  have only (l : List Field) : references l = references (l.filter nested) := by
    unfold references
    rw [List.filterMap_filter]
    apply List.filterMap_congr
    intro f _
    cases h : f.ty.reference <;> simp [nested, h]
  rw [only, kept, ← only]

end Px4Rs.Layout
