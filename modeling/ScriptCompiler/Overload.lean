import ScriptCompiler.Primitive.Conversion
import ScriptCompiler.Program.Basic

/-!
# Overload choice

Of the candidates with the right number of parameters, each is priced by the
conversions of its arguments. An exact match is sought first, then the cheapest
one reachable by implicit conversions; the earlier candidate wins a tie.
-/

set_option autoImplicit false

namespace ScriptCompiler

/-- A candidate that accepts the arguments, with the conversion of each. -/
structure Overload where
  method : MethodId
  conversions : List Conversion
  deriving DecidableEq, Repr

namespace Overload

def cost (o : Overload) : Nat := (o.conversions.map Conversion.cost).sum

/-- The conversions of arguments to parameters, if each is accepted. -/
def conversions? (accept : Conversion → Bool) : Types → Types → Option (List Conversion)
  | [], [] => some []
  | parameter :: parameters, argument :: arguments => do
    let c ← Conversion.between? argument parameter
    if accept c then
      let rest ← conversions? accept parameters arguments
      some (c :: rest)
    else none
  | _, _ => none

/-- A candidate with its conversions, if it accepts the arguments. -/
def score? (accept : Conversion → Bool) (p : Program) (arguments : Types)
    (candidate : MethodId) : Option Overload := do
  let m ← p.methodAt? candidate
  let conversions ← conversions? accept m.parameterTypes arguments
  some ⟨candidate, conversions⟩

/-- The cheaper of two, the first one on a tie. -/
def better (best : Option Overload) (next : Overload) : Option Overload :=
  match best with
  | none => some next
  | some b => if next.cost < b.cost then some next else some b

/-- The cheapest candidate among those that accept the arguments. -/
def best? (accept : Conversion → Bool) (p : Program) (candidates : List MethodId)
    (arguments : Types) : Option Overload :=
  (candidates.filterMap (score? accept p arguments)).foldl better none

/-- The first candidate whose parameter types equal the argument types. -/
def exactMatch? (p : Program) (candidates : List MethodId) (arguments : Types) : Option Overload :=
  best? Conversion.isExact p candidates arguments

/-- The cheapest candidate reachable by implicit conversions. -/
def coercible? (p : Program) (candidates : List MethodId) (arguments : Types) : Option Overload :=
  best? (fun _ => true) p candidates arguments

/-- An exact candidate, or else the cheapest one. -/
def resolve? (p : Program) (candidates : List MethodId) (arguments : Types) : Option Overload :=
  exactMatch? p candidates arguments <|> coercible? p candidates arguments

end Overload

end ScriptCompiler
