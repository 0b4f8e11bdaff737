import ScriptCompiler.Evaluation.Declared

/-!
# Declared methods

A method is declared only if each of its parameters has a type with values of its
own, and it is declared without locals.
-/

set_option autoImplicit false

namespace ScriptCompiler

/-- Whether values of the type exist and have a representation: it is neither `void` nor the type of
a literal without context. -/
def Primitive.isConcreteValue (t : Primitive) : Bool := t != .void && !t.isGeneric

variable {t : Primitive}

theorem Primitive.ne_void_of_isConcreteValue (h : t.isConcreteValue = true) : t ≠ .void := by
  rintro rfl
  cases h

theorem Expr.isConcreteValue_of_default? {e : Expr} (h : Expr.default? t = some e) :
    t.isConcreteValue = true := by
  revert h
  cases t <;> simp [Expr.default?, Primitive.isConcreteValue, Primitive.isGeneric]

/-- What declaration gives a method: parameters that have values, and no locals yet. -/
structure Method.Declared (m : Method) : Prop where
  parameters : ∀ t ∈ m.parameterTypes, t.isConcreteValue = true
  locals : m.locals = []

/-- Whether all methods of a program are as declaration gives them. -/
def Program.Declared (p : Program) : Prop := ∀ m ∈ p.methods, m.Declared

namespace Evaluation

theorem isConcreteValue_of_parameterFault? {parameters : List ParameterDecl}
    (h : parameterFault? parameters = none) : ∀ q ∈ parameters, q.type.isConcreteValue = true := by
  intro q hq
  unfold parameterFault? at h
  split at h
  · cases h
  · rename_i hfind
    have hq' := List.find?_eq_none.1 hfind q hq
    simpa [Primitive.isConcreteValue] using hq'

end Evaluation

end ScriptCompiler
