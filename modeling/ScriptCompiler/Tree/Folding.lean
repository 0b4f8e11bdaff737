import ScriptCompiler.Tree.Basic

/-!
# Constant folding

An arithmetic operator between two numeric literals is replaced by its result,
operands first. Integer arithmetic is exact: a result that does not fit in 128
bits, and a division by zero, leave the expression as it stands. A float operand
makes the operation a float operation. Comparisons are never folded.

The float operations are a parameter, so that folding can be compared with any
evaluation that uses the same ones.
-/

set_option autoImplicit false

namespace ScriptCompiler

/-- The operations on floats that folding needs. -/
structure RealArithmetic where
  ofInt : Int → Double
  isZero : Double → Bool
  add : Double → Double → Double
  sub : Double → Double → Double
  mul : Double → Double → Double
  div : Double → Double → Double
  rem : Double → Double → Double

/-- Double-precision arithmetic with rounding to nearest. -/
def RealArithmetic.double : RealArithmetic where
  ofInt := .ofInt
  isZero := Double.isZero
  add := .add
  sub := .sub
  mul := .mul
  div := .div
  rem := .rem

namespace BinaryOp

/-- The exact result of an arithmetic operator on integers, if it fits in 128 bits. -/
def foldIntegers? : BinaryOp → Int → Int → Option Int
  | add, a, b => Integer.within? 128 (a + b)
  | sub, a, b => Integer.within? 128 (a - b)
  | mul, a, b => Integer.within? 128 (a * b)
  | div, a, b => Integer.quotient? 128 a b
  | rem, a, b => Integer.remainder? 128 a b
  | equal, _, _ | notEqual, _, _ => none

/-- The result of an arithmetic operator on floats, unless it divides by zero. -/
def foldReals? (r : RealArithmetic) : BinaryOp → Double → Double → Option Double
  | add, a, b => some (r.add a b)
  | sub, a, b => some (r.sub a b)
  | mul, a, b => some (r.mul a b)
  | div, a, b => if r.isZero b then none else some (r.div a b)
  | rem, a, b => if r.isZero b then none else some (r.rem a b)
  | equal, _, _ | notEqual, _, _ => none

end BinaryOp

def Literal.real? (r : RealArithmetic) : Literal → Option Double
  | integer n => some (r.ofInt n)
  | real x => some x
  | _ => none

/-- The literal that an operator between two literals reduces to. -/
def BinaryOp.foldLiterals? (r : RealArithmetic) (op : BinaryOp) : Literal → Literal → Option Literal
  | .integer a, .integer b => (op.foldIntegers? a b).map .integer
  | a, b =>
    match a.real? r, b.real? r with
    | some x, some y => (op.foldReals? r x y).map .real
    | _, _ => none

def Expr.literal? : Expr → Option Literal
  | .literal value _ => some value
  | _ => none

/-- An operator between two folded operands, replaced by its result where it has one. -/
def Expr.foldBinary (r : RealArithmetic) (op : BinaryOp) (left right : Expr) (span : Span) : Expr :=
  match left.literal?, right.literal? with
  | some a, some b =>
    match op.foldLiterals? r a b with
    | some value => .literal value span
    | none => .binary op left right span
  | _, _ => .binary op left right span

mutual

/-- The expression with every constant operation replaced by its result. -/
def Expr.fold (r : RealArithmetic) : Expr → Expr
  | .literal value span => .literal value span
  | .name use => .name use
  | .binary op left right span => Expr.foldBinary r op (left.fold r) (right.fold r) span
  | .assign target value span => .assign target (value.fold r) span
  | .call target arguments method span => .call target (Expr.foldAll r arguments) method span
  | .cast operand type span => .cast (operand.fold r) type span

def Expr.foldAll (r : RealArithmetic) : List Expr → List Expr
  | [] => []
  | e :: rest => e.fold r :: Expr.foldAll r rest

end

mutual

def Stmt.fold (r : RealArithmetic) : Stmt → Stmt
  | .expression e => .expression (e.fold r)
  | .declare name type initial span => .declare name type (initial.map (Expr.fold r)) span
  | .ret value span => .ret (value.map (Expr.fold r)) span
  | .branch condition body alternatives span =>
    .branch (condition.fold r) (body.fold r) (alternatives.fold r) span
  | .block body span => .block (Stmt.foldAll r body) span
  | .assembly text span => .assembly text span

def Alternatives.fold (r : RealArithmetic) : Alternatives → Alternatives
  | .none => .none
  | .more condition body next span =>
    .more (condition.map (Expr.fold r)) (body.fold r) (next.fold r) span

def Stmt.foldAll (r : RealArithmetic) : List Stmt → List Stmt
  | [] => []
  | s :: rest => s.fold r :: Stmt.foldAll r rest

end

end ScriptCompiler
