import ScriptCompiler.Number.Decimal
import ScriptCompiler.Primitive.Basic
import ScriptCompiler.Wat.Page

/-!
# Function bodies

The instructions of the stack machine for modules, and bodies as trees: a line is
an instruction or a conditional with its parts.
-/

set_option autoImplicit false

namespace ScriptCompiler.Wat

/-- The types of values on the stack. -/
inductive ValueType where
  | i32 | i64 | f32 | f64
  deriving DecidableEq, Repr

namespace ValueType

def name : ValueType → String
  | i32 => "i32"
  | i64 => "i64"
  | f32 => "f32"
  | f64 => "f64"

/-- The type that represents a primitive type; there is none for 128-bit integers and for types
without values. -/
def ofPrimitive? : Primitive → Option ValueType
  | .i8 | .i16 | .i32 | .u8 | .u16 | .u32 | .bool | .char => some i32
  | .i64 | .u64 | .str | .ptr => some i64
  | .f32 => some f32
  | .f64 => some f64
  | .i128 | .u128 | .void | .number | .floating => none

end ValueType

/-- How an integer operation reads its operands. -/
inductive Sign where
  | signed | unsigned
  deriving DecidableEq, Repr

namespace Sign

/-- The sign with which values of a type are read. -/
def ofPrimitive (t : Primitive) : Sign := if t.isSigned then signed else unsigned

def letter : Sign → String
  | signed => "s"
  | unsigned => "u"

end Sign

/-- An order between two values. -/
inductive Order where
  | gt | lt | ge | le
  deriving DecidableEq, Repr

def Order.name : Order → String
  | gt => "gt"
  | lt => "lt"
  | ge => "ge"
  | le => "le"

/-- An operation within one value type. -/
inductive NumericOp where
  | add | sub | mul
  /-- The division of floats. -/
  | div
  | divInt (sign : Sign)
  | rem (sign : Sign)
  | and
  | trunc
  | eq | ne | eqz
  /-- The order of floats. -/
  | order (order : Order)
  | orderInt (order : Order) (sign : Sign)
  | extend8 | extend16
  deriving DecidableEq, Repr

def NumericOp.name : NumericOp → String
  | add => "add"
  | sub => "sub"
  | mul => "mul"
  | div => "div"
  | divInt sign => "div_" ++ sign.letter
  | rem sign => "rem_" ++ sign.letter
  | and => "and"
  | trunc => "trunc"
  | eq => "eq"
  | ne => "ne"
  | eqz => "eqz"
  | order o => o.name
  | orderInt o sign => o.name ++ "_" ++ sign.letter
  | extend8 => "extend8_s"
  | extend16 => "extend16_s"

inductive Op where
  | nop
  | unreachable
  | ret
  | drop
  | call (function : String)
  | localGet (index : Nat)
  | localSet (index : Nat)
  | const (type : ValueType) (value : Int)
  | constReal (type : ValueType) (value : Double)
  | numeric (type : ValueType) (op : NumericOp)
  /-- A 32-bit integer made wider. -/
  | extend (sign : Sign)
  /-- A 64-bit integer cut to its low half. -/
  | wrap
  /-- An integer turned into a float. -/
  | convert (target source : ValueType) (sign : Sign)
  /-- A float turned into an integer. -/
  | truncate (target source : ValueType) (sign : Sign)
  | promote
  | demote
  deriving DecidableEq, Repr

def Op.text : Op → String
  | nop => "nop"
  | unreachable => "unreachable"
  | ret => "return"
  | drop => "drop"
  | call function => "call $" ++ function
  | localGet index => "local.get " ++ toString index
  | localSet index => "local.set " ++ toString index
  | const type value => type.name ++ ".const " ++ toString value
  | constReal type value => type.name ++ ".const " ++ value.text .plain
  | numeric type op => type.name ++ "." ++ op.name
  | extend sign => "i64.extend_i32_" ++ sign.letter
  | wrap => "i32.wrap_i64"
  | convert target source sign => target.name ++ ".convert_" ++ source.name ++ "_" ++ sign.letter
  | truncate target source sign => target.name ++ ".trunc_" ++ source.name ++ "_" ++ sign.letter
  | promote => "f64.promote_f32"
  | demote => "f32.demote_f64"

/-- A line of a body, or a conditional with its parts. -/
inductive Line (α : Type) where
  | op (a : α)
  | ifThen (body : List (Line α))
  | ifElse (body alternative : List (Line α))
  deriving Repr

/-- The body of a function. -/
abbrev Body := List (Line Op)

def Line.isOp {α : Type} [DecidableEq α] (a : α) : Line α → Bool
  | .op b => a == b
  | _ => false

mutual

def Line.render {α : Type} (text : α → String) : Line α → Page → Page
  | .op a, page => page.line (text a)
  | .ifThen body, page => (Line.renderAll text body (page.line "if").indent).dedent.line "end"
  | .ifElse body alternative, page =>
    let page := (Line.renderAll text body (page.line "if").indent).dedent
    (Line.renderAll text alternative (page.line "else").indent).dedent.line "end"

def Line.renderAll {α : Type} (text : α → String) : List (Line α) → Page → Page
  | [], page => page
  | line :: rest, page => Line.renderAll text rest (line.render text page)

end

end ScriptCompiler.Wat
