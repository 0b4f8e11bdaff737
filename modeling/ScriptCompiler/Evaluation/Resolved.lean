import ScriptCompiler.Evaluation.Declared
import ScriptCompiler.Overload
import ScriptCompiler.Scope
import ScriptCompiler.Typing

/-!
# Resolved statements

Every name is bound to a slot and every call to an overload, and a declaration
becomes an assignment to a fresh slot. A statement that cannot be resolved is
reported and left out of the block that holds it.
-/

set_option autoImplicit false

namespace ScriptCompiler

/-- Where an expression stands: the program and the namespace around it. -/
structure Site where
  program : Program
  owner : NamespaceId

/-- The name with the slot that it means in a scope; only simple names mean slots. -/
def NameUse.resolve (scope : Scope) (u : NameUse) : Evaluating NameUse :=
  let found := match u.symbol.segments with
    | [name] => scope.lookup? name
    | _ => none
  match found with
  | some slot => .ok { u with slot := some slot }
  | none => .error (.localVariableNotFound u.symbol.text u.span)

def Expr.typesIn (p : Program) : List Expr → Evaluating Types
  | [] => .ok []
  | e :: rest => do
    let t ← e.typeIn p
    let ts ← Expr.typesIn p rest
    return t :: ts

/-- The method that a call with these argument types means. -/
def Site.choose (site : Site) (target : DottedName) (types : Types) (span : Span) :
    Evaluating MethodId :=
  match site.program.findOverloads target site.owner with
  | [] => .error (.methodNotFound target.text span)
  | candidates =>
    match Overload.resolve? site.program candidates types with
    | some chosen => .ok chosen.method
    | none => .error (.methodOverloadNotFound target.text
        (", ".intercalate (types.map Primitive.tag)) span)

mutual

/-- The expression with its names and calls bound. -/
def Expr.resolve (site : Site) (scope : Scope) : Expr → Evaluating Expr
  | .literal value span => .ok (.literal value span)
  | .name use => do
    let use ← use.resolve scope
    return .name use
  | .binary op left right span => do
    let left ← left.resolve site scope
    let right ← right.resolve site scope
    return .binary op left right span
  | .assign target value span => do
    let value ← value.resolve site scope
    let target ← target.resolve scope
    return .assign target value span
  | .call target arguments _ span => do
    let arguments ← Expr.resolveAll site scope arguments
    let types ← Expr.typesIn site.program arguments
    let method ← site.choose target types span
    return .call target arguments (some method) span
  | .cast operand type span => do
    let operand ← operand.resolve site scope
    return .cast operand type span

def Expr.resolveAll (site : Site) (scope : Scope) : List Expr → Evaluating (List Expr)
  | [] => .ok []
  | e :: rest => do
    let e ← e.resolve site scope
    let rest ← Expr.resolveAll site scope rest
    return e :: rest

end

def Expr.resolveOption (site : Site) (scope : Scope) :
    Option Expr → Evaluating (Option Expr)
  | none => .ok none
  | some e => do
    let e ← e.resolve site scope
    return some e

/-- What resolving a body keeps: the visible names, the slots given out and the errors so far. -/
structure Resolving where
  scope : Scope
  locals : Types
  errors : List EvaluationError := []

namespace Resolving

def push (r : Resolving) : Resolving := { r with scope := r.scope.push }

def pop (r : Resolving) : Resolving := { r with scope := r.scope.pop }

def fail (r : Resolving) (e : EvaluationError) : Resolving := { r with errors := r.errors ++ [e] }

/-- Resolves a declaration: the initialiser does not see the new name, and the slot is given out
whether or not the initialiser can be resolved. -/
def declare (site : Site) (r : Resolving) (name : String) (type : Primitive)
    (initial : Option Expr) (span : Span) : Evaluating Stmt × Resolving :=
  match Expr.default? type with
  | none => (.error (.invalidDeclarationType name type span), r)
  | some default =>
    let value := match initial with
      | some e => e.resolve site r.scope
      | none => .ok default
    let slot : Slot := ⟨type, r.locals.length⟩
    let r := { r with locals := r.locals ++ [type] }
    match r.scope.declare name slot span with
    | .error e => (.error e, r)
    | .ok scope =>
      (value.map fun v => .expression (.assign ⟨⟨[name]⟩, some slot, span⟩ v span),
        { r with scope })

end Resolving

mutual

def Stmt.resolve (site : Site) : Stmt → Resolving → Evaluating Stmt × Resolving
  | .expression e, r => ((e.resolve site r.scope).map .expression, r)
  | .declare name type initial span, r => r.declare site name type initial span
  | .ret value span, r => ((Expr.resolveOption site r.scope value).map fun v => .ret v span, r)
  | .branch condition body alternatives span, r =>
    match condition.resolve site r.scope with
    | .error e => (.error e, r)
    | .ok condition =>
      match body.resolve site r.push with
      | (.error e, r) => (.error e, r.pop)
      | (.ok body, r) =>
        match alternatives.resolve site r.pop with
        | (.error e, r) => (.error e, r)
        | (.ok alternatives, r) => (.ok (.branch condition body alternatives span), r)
  | .block body span, r =>
    let (body, r) := Stmt.resolveAll site body r.push
    (.ok (.block body span), r.pop)
  | .assembly text span, r => (.ok (.assembly text span), r)

/-- Alternatives resolved; each body has a scope of its own. -/
def Alternatives.resolve (site : Site) :
    Alternatives → Resolving → Evaluating Alternatives × Resolving
  | .none, r => (.ok .none, r)
  | .more condition body next span, r =>
    match Expr.resolveOption site r.scope condition with
    | .error e => (.error e, r)
    | .ok condition =>
      match body.resolve site r.push with
      | (.error e, r) => (.error e, r.pop)
      | (.ok body, r) =>
        match next.resolve site r.pop with
        | (.error e, r) => (.error e, r)
        | (.ok next, r) => (.ok (.more condition body next span), r)

/-- The statements of a block resolved; one that fails is reported and left out. -/
def Stmt.resolveAll (site : Site) : List Stmt → Resolving → List Stmt × Resolving
  | [], r => ([], r)
  | s :: rest, r =>
    match s.resolve site r with
    | (.error e, r) => Stmt.resolveAll site rest (r.fail e)
    | (.ok s, r) =>
      let (rest, r) := Stmt.resolveAll site rest r
      (s :: rest, r)

end

def Method.resolve (p : Program) (m : Method) : Method × List EvaluationError :=
  let scope := Scope.ofParameters (m.parameters.map fun q => (q.name, q.type))
  let (statements, r) := Stmt.resolveAll ⟨p, m.owner⟩ m.statements { scope, locals := m.locals }
  ({ m with statements, locals := r.locals }, r.errors)

/-- Resolves every method that is not external, reporting errors on the script of each. -/
def Evaluation.resolve (s : Evaluation) : Evaluation :=
  let results := s.program.methods.map fun m =>
    if m.external then (m, []) else m.resolve s.program
  { program := { s.program with methods := results.map (·.1) }
    scripts := results.foldl (fun t r => t.addErrors r.1.script r.2) s.scripts }

end ScriptCompiler
