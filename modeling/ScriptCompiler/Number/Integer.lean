import ScriptCompiler.Number.Instances

/-!
# Integers of bounded width

Integer literals have 128 bits and a sign. This module holds the bounds, the
arithmetic that answers only when the result fits, the wrap into a narrower
signed width, and the reading of decimal text.
-/

set_option autoImplicit false

namespace ScriptCompiler.Integer

/-- The least signed number of `bits` bits. -/
def least (bits : Nat) : Int := -(2 ^ (bits - 1))

/-- The greatest signed number of `bits` bits. -/
def greatest (bits : Nat) : Int := 2 ^ (bits - 1) - 1

/-- Whether a number has a signed representation of `bits` bits. -/
def fits (bits : Nat) (n : Int) : Bool :=
  least bits ≤ n && n ≤ greatest bits

/-- The number itself, if it has a signed representation of `bits` bits. -/
def within? (bits : Nat) (n : Int) : Option Int :=
  if fits bits n then some n else none

/-- The quotient rounded toward zero, if the divisor is not zero and the result fits. -/
def quotient? (bits : Nat) (a b : Int) : Option Int :=
  if b = 0 then none else within? bits (a.tdiv b)

/-- The remainder with the sign of the dividend, if the divisor is not zero and the quotient
fits. -/
def remainder? (bits : Nat) (a b : Int) : Option Int :=
  if b = 0 then none else (within? bits (a.tdiv b)).map fun _ => a.tmod b

/-- The number congruent to `n` modulo `2 ^ bits` that has a signed representation. -/
def wrapSigned (bits : Nat) (n : Int) : Int :=
  n.bmod (2 ^ bits)

def isDigit (c : Char) : Bool :=
  '0' ≤ c && c ≤ '9'

/-- The value of a digit string, most significant digit first. -/
def ofDigits (cs : List Char) : Nat :=
  cs.foldl (fun n c => 10 * n + (c.toNat - '0'.toNat)) 0

/-- The value of a text that consists of one or more digits. -/
def readDigits? (cs : List Char) : Option Nat :=
  if cs ≠ [] ∧ cs.all isDigit then some (ofDigits cs) else none

/-- The value of a decimal number with at most one sign in front. -/
def readSigned? : List Char → Option Int
  | '-' :: cs => (readDigits? cs).map fun n => -(n : Int)
  | '+' :: cs => (readDigits? cs).map fun n => (n : Int)
  | cs => (readDigits? cs).map fun n => (n : Int)

/-- The value of a decimal number that has a signed representation of `bits` bits. -/
def read? (bits : Nat) (s : String) : Option Int :=
  (readSigned? s.toList).bind (within? bits)

end ScriptCompiler.Integer
