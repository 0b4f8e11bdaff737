import ScriptCompiler.DottedName
import ScriptCompiler.Number.Double
import ScriptCompiler.Script

/-!
# Trees

The trees that stand for scripts. A script is a list of items: namespaces with
their members, methods outside any namespace, and loose statements. A name in an
expression carries the slot that it was found to mean, and a call the method that
it was bound to; both are absent until resolution.
-/

set_option autoImplicit false

namespace ScriptCompiler

abbrev MethodId := Nat

inductive Literal where
  | integer (value : Int)
  | real (value : Double)
  | text (value : String)
  | boolean (value : Bool)
  | null
  deriving DecidableEq, Repr

/-- The type of a literal before any context narrows it. -/
def Literal.type : Literal → Primitive
  | integer _ => .number
  | real _ => .floating
  | text _ => .str
  | boolean _ => .bool
  | null => .ptr

/-- The storage that a name means: parameter `i` has index `-(i + 1)`, and locals count up from
zero in the order of their declarations. -/
structure Slot where
  type : Primitive
  index : Int
  deriving DecidableEq, Repr

namespace Slot

def parameter (position : Nat) (type : Primitive) : Slot := ⟨type, -((position : Int) + 1)⟩

def isParameter (s : Slot) : Bool := s.index < 0

def position? (s : Slot) : Option Nat :=
  if s.isParameter then some (-s.index - 1).toNat else none

end Slot

/-- The operators between two operands. -/
inductive BinaryOp where
  | add | sub | mul | div | rem | equal | notEqual
  deriving DecidableEq, Repr

namespace BinaryOp

def isComparison : BinaryOp → Bool
  | equal | notEqual => true
  | _ => false

def isArithmetic (op : BinaryOp) : Bool := !op.isComparison

def symbol : BinaryOp → String
  | add => "+"
  | sub => "-"
  | mul => "*"
  | div => "/"
  | rem => "%"
  | equal => "=="
  | notEqual => "!="

def ofSymbol? (s : String) : Option BinaryOp :=
  [add, sub, mul, div, rem, equal, notEqual].find? fun op => op.symbol == s

end BinaryOp

/-- A name where it is used, with the slot that it was found to mean. -/
structure NameUse where
  symbol : DottedName
  slot : Option Slot
  span : Span
  deriving DecidableEq, Repr

inductive Expr where
  | literal (value : Literal) (span : Span)
  | name (use : NameUse)
  | binary (op : BinaryOp) (left right : Expr) (span : Span)
  | assign (target : NameUse) (value : Expr) (span : Span)
  | call (target : DottedName) (arguments : List Expr) (method : Option MethodId) (span : Span)
  | cast (operand : Expr) (type : Primitive) (span : Span)
  deriving Repr

namespace Expr

def span : Expr → Span
  | literal _ s | binary _ _ _ s | assign _ _ s | call _ _ _ s | cast _ _ s => s
  | name use => use.span

def integer? : Expr → Option Int
  | literal (.integer n) _ => some n
  | _ => none

def castTo (e : Expr) (type : Primitive) : Expr := cast e type e.span

/-- The value that a declaration without initialiser starts with; a type that holds no value has
none. -/
def default? : Primitive → Option Expr
  | .void | .number | .floating => none
  | .f32 | .f64 => some (literal (.real .zero) .unknown)
  | .bool => some (literal (.boolean false) .unknown)
  | .str => some (literal (.text "") .unknown)
  | .ptr => some (literal .null .unknown)
  | .char => some ((literal (.integer 0) .unknown).castTo .char)
  | _ => some (literal (.integer 0) .unknown)

end Expr

mutual

inductive Stmt where
  | expression (e : Expr)
  | declare (name : String) (type : Primitive) (initial : Option Expr) (span : Span)
  | ret (value : Option Expr) (span : Span)
  | branch (condition : Expr) (body : Stmt) (alternatives : Alternatives) (span : Span)
  | block (body : List Stmt) (span : Span)
  /-- Target assembly, carried along and never lowered. -/
  | assembly (text : String) (span : Span)

/-- What follows the first body of a branch: alternatives with a condition, and one without. -/
inductive Alternatives where
  | none
  | more (condition : Option Expr) (body : Stmt) (next : Alternatives) (span : Span)

end

def Stmt.span : Stmt → Span
  | .expression e => e.span
  | .declare _ _ _ s | .ret _ s | .branch _ _ _ s | .block _ s | .assembly _ s => s

structure ParameterDecl where
  name : String
  type : Primitive
  span : Span
  deriving DecidableEq, Repr

structure MethodDecl where
  returnType : Primitive
  name : DottedName
  parameters : List ParameterDecl
  body : List Stmt
  span : Span

inductive Member where
  | method (decl : MethodDecl)
  | field (name : String) (type : Primitive) (span : Span)

/-- An item of a script: a namespace with its members, a method, or a loose statement. -/
inductive Item where
  | group (name : DottedName) (members : List Member) (span : Span)
  | method (decl : MethodDecl)
  | statement (s : Stmt)

/-- The items of one script. -/
structure SourceFile where
  script : ScriptId
  items : List Item

end ScriptCompiler
