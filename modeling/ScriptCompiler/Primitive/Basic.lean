import ScriptCompiler.Number.Integer

/-!
# Primitive types

Every value has one of these types. The two generic types belong to literals
that have not met a concrete type yet: `5` is a `number` until it is stored in a
`u8`. Bounds of unsigned 128-bit values are cut at the largest literal.
-/

set_option autoImplicit false

namespace ScriptCompiler

inductive Primitive where
  | void
  | i8 | i16 | i32 | i64 | i128
  | u8 | u16 | u32 | u64 | u128
  | f32 | f64
  | bool | char | str | ptr
  /-- An integer literal without context. -/
  | number
  /-- A floating literal without context. -/
  | floating
  deriving DecidableEq, Repr

/-- Types in a row, as those of parameters or of the values on a stack. -/
abbrev Types := List Primitive

namespace Primitive

/-- The coarse classes that the rules of assignment tell apart. -/
inductive Kind where
  | integerNumeric | floatingNumeric | boolean | character | pointer
  deriving DecidableEq, Repr

def Kind.name : Kind → String
  | integerNumeric => "IntegerNumeric"
  | floatingNumeric => "FloatingNumeric"
  | boolean => "Boolean"
  | character => "Character"
  | pointer => "Pointer"

/-- Every type, the generic ones last. -/
def all : Types :=
  [void, i8, i16, i32, i64, i128, u8, u16, u32, u64, u128, f32, f64, bool, char, str, ptr,
    number, floating]

/-- The short name used in stack code and in references. -/
def tag : Primitive → String
  | void => "void"
  | i8 => "i8" | i16 => "i16" | i32 => "i32" | i64 => "i64" | i128 => "i128"
  | u8 => "u8" | u16 => "u16" | u32 => "u32" | u64 => "u64" | u128 => "u128"
  | f32 => "f32" | f64 => "f64"
  | bool => "bool" | char => "char" | str => "str" | ptr => "ptr"
  | number => "number" | floating => "floating"

def ofTag? (tag : String) : Option Primitive :=
  all.find? fun t => t.tag == tag

def unknownTagMessage (tag : String) : String :=
  "unknown primitive type tag '" ++ tag ++ "'"

/-- The storage size in bytes on a machine with 32-bit pointers. -/
def size : Primitive → Nat
  | bool | i8 | u8 => 1
  | i16 | u16 => 2
  | i32 | u32 | f32 | char | str | ptr => 4
  | i64 | u64 | f64 => 8
  | i128 | u128 => 16
  | void | number | floating => 0

def kind : Primitive → Kind
  | i8 | i16 | i32 | i64 | i128 | u8 | u16 | u32 | u64 | u128 | number => .integerNumeric
  | f32 | f64 | floating => .floatingNumeric
  | bool => .boolean
  | char => .character
  | void | str | ptr => .pointer

/-- The least value of a concrete integer type, and zero for any other type. -/
def minValue : Primitive → Int
  | i8 => Integer.least 8
  | i16 => Integer.least 16
  | i32 => Integer.least 32
  | i64 => Integer.least 64
  | i128 => Integer.least 128
  | _ => 0

/-- The greatest value of a concrete integer type, and zero for any other type. -/
def maxValue : Primitive → Int
  | i8 => Integer.greatest 8
  | i16 => Integer.greatest 16
  | i32 => Integer.greatest 32
  | i64 => Integer.greatest 64
  | i128 | u128 => Integer.greatest 128
  | u8 => 2 ^ 8 - 1
  | u16 => 2 ^ 16 - 1
  | u32 => 2 ^ 32 - 1
  | u64 => 2 ^ 64 - 1
  | _ => 0

/-- Whether the type belongs to a literal without context. -/
def isGeneric : Primitive → Bool
  | number | floating => true
  | _ => false

def isInteger (t : Primitive) : Bool := t.kind == .integerNumeric

def isFloating (t : Primitive) : Bool := t.kind == .floatingNumeric

def isNumeric (t : Primitive) : Bool := t.isInteger || t.isFloating

def isConcreteInteger (t : Primitive) : Bool := t.isInteger && !t.isGeneric

def isSigned : Primitive → Bool
  | i8 | i16 | i32 | i64 | i128 => true
  | t => t.isFloating

/-- Whether the bounds of one type lie between those of the other. -/
def rangeWithin (t other : Primitive) : Bool :=
  other.minValue ≤ t.minValue && t.maxValue ≤ other.maxValue

/-- The nearest value between the bounds of the type. -/
def clamp (t : Primitive) (n : Int) : Int :=
  if n < t.minValue then t.minValue else if t.maxValue < n then t.maxValue else n

/-- Whether a value of one type may stand where the other is expected, without a cast. -/
def assignableTo (t target : Primitive) : Bool :=
  t == target ||
    match t.kind, target.kind with
    | .integerNumeric, .integerNumeric => t.rangeWithin target
    | .integerNumeric, .floatingNumeric => true
    | .floatingNumeric, .floatingNumeric => t.isGeneric || target.isGeneric || t.size ≤ target.size
    | _, _ => false

/-- The order among numeric types: floats above integers, then by size, then unsigned above
signed. -/
def rank (t : Primitive) : Nat × Nat × Nat :=
  (if t.isFloating then 1 else 0, t.size, if t.isSigned then 0 else 1)

/-- The comparison of two ranks, component by component. -/
def compareRank (t other : Primitive) : Ordering :=
  (compare t.rank.1 other.rank.1).then
    ((compare t.rank.2.1 other.rank.2.1).then (compare t.rank.2.2 other.rank.2.2))

/-- The concrete type that a generic one becomes when nothing else decides. -/
def concrete : Primitive → Primitive
  | number => i32
  | floating => f64
  | t => t

end Primitive

end ScriptCompiler
