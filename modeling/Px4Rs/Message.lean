import Mathlib.Data.BitVec

/-! The data of a parsed .msg file. A text is its list of characters. -/
namespace Px4Rs.Message

abbrev Text := List Char

inductive Scalar where
  | bool | char | i8 | i16 | i32 | i64 | u8 | u16 | u32 | u64 | f32 | f64
deriving DecidableEq

namespace Scalar

/-- Byte size as PX4's C++ codegen sees it. -/
def size : Scalar → Nat
  | bool | char | i8 | u8 => 1
  | i16 | u16 => 2
  | i32 | u32 | f32 => 4
  | i64 | u64 | f64 => 8

/-- `px4_name`: the type token of a .msg file. -/
def px4Name : Scalar → String
  | bool => "bool"
  | char => "char"
  | i8 => "int8"
  | i16 => "int16"
  | i32 => "int32"
  | i64 => "int64"
  | u8 => "uint8"
  | u16 => "uint16"
  | u32 => "uint32"
  | u64 => "uint64"
  | f32 => "float32"
  | f64 => "float64"

def all : List Scalar := [bool, char, i8, i16, i32, i64, u8, u16, u32, u64, f32, f64]

def parse (token : Text) : Option Scalar := all.find? fun s => s.px4Name.toList = token

theorem size_pos (s : Scalar) : 0 < s.size := by cases s <;> decide

theorem parse_px4Name (s : Scalar) : parse s.px4Name.toList = some s := by cases s <;> decide

theorem px4Name_of_parse {token : Text} {s : Scalar} (h : parse token = some s) :
    s.px4Name.toList = token := by
  simpa using List.find?_some h

theorem size_dvd {s t : Scalar} (h : t.size ≤ s.size) : t.size ∣ s.size := by
  revert h
  cases s <;> cases t <;> decide

end Scalar

inductive FieldType where
  | scalar (s : Scalar)
  | scalarArray (s : Scalar) (n : Nat)
  | nested (name : Text)
  | nestedArray (name : Text) (n : Nat)
deriving DecidableEq

structure Field where
  name : Text
  ty : FieldType
deriving DecidableEq

/-- The value is kept as written. -/
structure Constant where
  ty : Scalar
  name : Text
  value : Text
deriving DecidableEq

structure MsgDef where
  name : Text
  snakeName : Text
  fields : List Field
  constants : List Constant
  topics : List Text
  messageVersion : Option Nat
deriving DecidableEq

/-- The .msg file a field's type refers to. -/
def FieldType.reference : FieldType → Option Text
  | nested name | nestedArray name _ => some name
  | scalar _ | scalarArray _ _ => none

def references (fields : List Field) : List Text := fields.filterMap (·.ty.reference)

theorem mem_references {fields : List Field} {name : Text} :
    name ∈ references fields ↔ ∃ f ∈ fields, f.ty.reference = some name :=
  List.mem_filterMap

theorem references_cons_none {f : Field} (h : f.ty.reference = none) (fs : List Field) :
    references (f :: fs) = references fs :=
  List.filterMap_cons_none h

theorem references_cons_some {f : Field} {name : Text} (h : f.ty.reference = some name)
    (fs : List Field) : references (f :: fs) = name :: references fs :=
  List.filterMap_cons_some h

inductive ParseError where
  | io (e : String)
  | syntaxError (line : Nat) (msg : String)
  | unresolvedNested (name : Text)
deriving DecidableEq

/- The rest of `camel_to_snake` after the character `prev`. An underscore goes before each
   upper-case letter that follows a lower-case one, or that follows an upper-case one and
   comes before a lower-case one. -/
def camelToSnakeFrom : Option Char → Text → Text
  | _, [] => []
  | prev, c :: cs =>
    if c.isUpper then
      let next := cs.head?
      let underscore := prev.any fun p =>
        p.isLower || (p.isUpper && next.any Char.isLower)
      (if underscore then ['_'] else []) ++ c.toLower :: camelToSnakeFrom (some c) cs
    else c :: camelToSnakeFrom (some c) cs

def camelToSnake (s : Text) : Text := camelToSnakeFrom none s

end Px4Rs.Message
