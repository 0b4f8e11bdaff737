import ScriptCompiler.Tree.Basic

/-!
# Local scopes

Which slot a name means while a body is resolved. One table holds the visible
binding of each name with the depth at which it was made; a binding that hides an
outer one puts the outer one on a trail, and closing a scope drops the bindings of
its depth and takes back what they hid. Parameters and the outermost locals share
depth zero.
-/

set_option autoImplicit false

namespace ScriptCompiler

/-- A slot with the depth at which its name was bound. -/
structure Scope.Binding where
  slot : Slot
  depth : Nat
  deriving DecidableEq, Repr

/-- A hidden binding, with the depth of the one that hides it. -/
structure Scope.Hidden where
  depth : Nat
  name : String
  binding : Scope.Binding
  deriving DecidableEq, Repr

/-- The names that are visible at a point of a body. -/
structure Scope where
  bindings : List (String × Scope.Binding) := []
  depth : Nat := 0
  /-- What is hidden, the latest first. -/
  trail : List Scope.Hidden := []
  deriving DecidableEq, Repr

namespace Scope

def find? (bindings : List (String × Binding)) (name : String) : Option Binding :=
  (bindings.find? fun v => v.1 == name).map (·.2)

def bind (bindings : List (String × Binding)) (name : String) (b : Binding) :
    List (String × Binding) :=
  (name, b) :: bindings.filter fun v => v.1 != name

/-- The scope of a body with the given parameters; a later one hides an earlier one of its name. -/
def ofParameters (parameters : List (String × Primitive)) : Scope :=
  { bindings := parameters.zipIdx.foldl
      (fun vars p => bind vars p.1.1 ⟨.parameter p.2 p.1.2, 0⟩) [] }

def push (s : Scope) : Scope := { s with depth := s.depth + 1 }

/-- The table after taking back what was hidden at `depth` or deeper. -/
def restore (depth : Nat) :
    List Hidden → List (String × Binding) → List Hidden × List (String × Binding)
  | [], bindings => ([], bindings)
  | h :: rest, bindings =>
    if h.depth < depth then (h :: rest, bindings)
    else restore depth rest (bind bindings h.name h.binding)

def pop (s : Scope) : Scope :=
  let kept := s.bindings.filter fun v => v.2.depth < s.depth
  let (trail, bindings) := restore s.depth s.trail kept
  { bindings := bindings, depth := s.depth - 1, trail := trail }

/-- Binds a name from here to the end of the current scope; a name bound in the same scope is
refused. -/
def declare (s : Scope) (name : String) (slot : Slot) (span : Span) :
    Evaluating Scope :=
  let bindings := bind s.bindings name ⟨slot, s.depth⟩
  match find? s.bindings name with
  | none => .ok { s with bindings }
  | some previous =>
    if previous.depth = s.depth then .error (.duplicateLocal name span)
    else .ok { s with bindings, trail := ⟨s.depth, name, previous⟩ :: s.trail }

def lookup? (s : Scope) (name : String) : Option Slot :=
  (find? s.bindings name).map (·.slot)

end Scope

end ScriptCompiler
