/-!
# Ranges of code points

Sets of characters as closed ranges of code points, in ascending order.
-/

set_option autoImplicit false

namespace ScriptCompiler.Text

/-- The ranges of a set from `start` on, by the lengths of the runs outside and inside it in turn. -/
def ranges : Nat → List Nat → List (Nat × Nat)
  | start, outside :: inside :: rest =>
    (start + outside, start + outside + inside - 1) :: ranges (start + outside + inside) rest
  | _, _ => []

def inRanges (ranges : List (Nat × Nat)) (c : Char) : Bool :=
  ranges.any fun r => r.1 ≤ c.toNat && c.toNat ≤ r.2

end ScriptCompiler.Text
