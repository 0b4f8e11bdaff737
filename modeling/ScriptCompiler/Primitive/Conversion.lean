import ScriptCompiler.Primitive.Basic

/-!
# Implicit conversions

A conversion exists exactly where assignment is allowed. Its cost orders the
overloads of a call: identity is free, fitting a literal is cheaper than widening,
and widening is cheaper than turning an integer into a float.
-/

set_option autoImplicit false

namespace ScriptCompiler

/-- What an implicit conversion does. -/
inductive Conversion where
  | identity
  | literalFit
  | widening
  | integerToFloat
  deriving DecidableEq, Repr

namespace Conversion

def name : Conversion → String
  | identity => "Identity"
  | literalFit => "LiteralFit"
  | widening => "Widening"
  | integerToFloat => "IntegerToFloat"

/-- The price of a conversion; lower is better. -/
def cost : Conversion → Nat
  | identity => 0
  | literalFit => 1
  | widening => 2
  | integerToFloat => 3

def isExact (c : Conversion) : Bool := c == identity

/-- The implicit conversion between two types. -/
def between? (source target : Primitive) : Option Conversion :=
  if source = target then some identity
  else if !source.assignableTo target then none
  else if source.isGeneric && source.kind == target.kind then some literalFit
  else if source.isInteger && target.isFloating then some integerToFloat
  else some widening

end Conversion

namespace Primitive

/-- The type of an operation between a generic and a concrete numeric type. -/
def joinGeneric (generic concrete : Primitive) : Primitive :=
  if generic.isFloating && concrete.isInteger then f64 else concrete

/-- The type to which both operands of a binary operator are brought; there is none for two
different types that are not both numeric. -/
def common? (left right : Primitive) : Option Primitive :=
  if left = right then some left
  else if !left.isNumeric || !right.isNumeric then none
  else match left.isGeneric, right.isGeneric with
    | true, true => some floating
    | true, false => some (joinGeneric left right)
    | false, true => some (joinGeneric right left)
    | false, false =>
      if left.assignableTo right then some right
      else if right.assignableTo left then some left
      else if left.compareRank right = .lt then some right
      else some left

end Primitive

end ScriptCompiler
