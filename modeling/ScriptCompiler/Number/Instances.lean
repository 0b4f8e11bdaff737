/-!
# Powers and sums

A definition means the same whatever a module imports beside it: powers and empty
sums are those of the core library, before the instances that a library of algebraic
structures brings along for the same operations.
-/

set_option autoImplicit false

namespace ScriptCompiler

/-- Powers by repeated multiplication, as `2 ^ n` for naturals and integers. -/
@[default_instance 20000]
instance (priority := 1100) corePow {α : Type} [NatPow α] : Pow α Nat := instPowNat

/-- The sum of no naturals. -/
instance (priority := 1100) coreZeroNat : Zero Nat := Zero.ofOfNat0

/-- The sum of no integers. -/
instance (priority := 1100) coreZeroInt : Zero Int := Zero.ofOfNat0

end ScriptCompiler
