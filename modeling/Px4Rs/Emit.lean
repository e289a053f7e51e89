import Px4Rs.Layout
import Px4Rs.ReprC

/-! The struct that is emitted for a message, and its size and alignment on a target. The
constants and topics that are emitted beside it do not change its layout. -/
namespace Px4Rs.Emit
open Px4Rs.Message Px4Rs.Layout Px4Rs.ReprC

inductive Prim where
  | bool | i8 | i16 | i32 | i64 | u8 | u16 | u32 | u64 | f32 | f64
deriving DecidableEq

def Prim.size : Prim → Nat
  | bool | i8 | u8 => 1
  | i16 | u16 => 2
  | i32 | u32 | f32 => 4
  | i64 | u64 | f64 => 8

/-- PX4's `char` is an unsigned byte. -/
def rustType : Scalar → Prim
  | .bool => .bool
  | .char => .u8
  | .i8 => .i8
  | .i16 => .i16
  | .i32 => .i32
  | .i64 => .i64
  | .u8 => .u8
  | .u16 => .u16
  | .u32 => .u32
  | .u64 => .u64
  | .f32 => .f32
  | .f64 => .f64

inductive RustType where
  | prim (p : Prim)
  | path (name : Text)
  | array (elem : RustType) (n : Nat)
deriving DecidableEq

def rustTypeFor : FieldType → RustType
  | .scalar s => .prim (rustType s)
  | .scalarArray s n => .array (.prim (rustType s)) n
  | .nested name => .path name
  | .nestedArray name n => .array (.path name) n

/-- An identifier, `r#` before it if it is raw. -/
inductive Ident where
  | plain (name : Text)
  | raw (name : Text)
deriving DecidableEq

def rustKeywords : List String :=
  ["as", "break", "const", "continue", "crate", "else", "enum", "extern", "false", "fn", "for",
    "if", "impl", "in", "let", "loop", "match", "mod", "move", "mut", "pub", "ref", "return",
    "self", "static", "struct", "super", "trait", "true", "type", "unsafe", "use", "where",
    "while", "async", "await", "dyn"]

def isRustKeyword (s : Text) : Bool := rustKeywords.any fun w => w.toList = s

def sanitizeIdent (name : Text) : Ident := if isRustKeyword name then .raw name else .plain name

structure EmittedField where
  name : Ident
  ty : RustType
deriving DecidableEq

/-- The `#[repr(C)]` struct, and the size that is asserted of it. -/
structure EmittedStruct where
  name : Text
  fields : List EmittedField
  assertedSize : Nat
deriving DecidableEq

def emitField : LaidOutField → EmittedField
  | .real f => ⟨sanitizeIdent f.name, rustTypeFor f.ty⟩
  | .padding index size =>
    ⟨.plain ("_padding".toList ++ Nat.toDigits 10 index), .array (.prim .u8) size⟩

def emitStruct (laid : LaidOutMsg) : EmittedStruct where
  name := laid.name
  fields := laid.fields.map emitField
  assertedSize := laid.size

/-! Sizes and alignments. -/

/-- A target chooses the alignment of each primitive, of which its size is a multiple. -/
structure Target where
  align : Prim → Nat
  align_pos : ∀ p, 0 < align p
  align_dvd : ∀ p, align p ∣ p.size

/-- Each primitive aligned to its size. -/
def natural : Target where
  align := Prim.size
  align_pos p := by cases p <;> decide
  align_dvd p := Nat.dvd_refl _

variable (T : Target) (ρ : Text → Repr)

/-- A type, given those of the structs it names. -/
def RustType.repr : RustType → Repr
  | prim p => ⟨p.size, T.align p⟩
  | path name => ρ name
  | array elem n => ReprC.array elem.repr n

def EmittedStruct.entries (s : EmittedStruct) : List Repr := s.fields.map fun f => f.ty.repr T ρ

def EmittedStruct.repr (s : EmittedStruct) : Repr := record (s.entries T ρ)

/-- Each type name is that of the struct emitted for its file, as a new resolver lays it out. -/
def Compiled (search : List Dir) : Prop :=
  ∀ name k l c, layoutByName search k Cache.new name = some (.ok l, c) →
    ρ name = (emitStruct l).repr T ρ

end Px4Rs.Emit
