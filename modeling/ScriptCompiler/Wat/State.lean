import ScriptCompiler.Program.Basic
import ScriptCompiler.Wat.Body
import ScriptCompiler.Wat.Memory

/-!
# Functions under way

What compiling a function keeps: the types of the pushed values, the lines so far
with the conditionals that are open, the scratch locals, and the memory image.
-/

set_option autoImplicit false

namespace ScriptCompiler.Wat

def backend : String := "wasm"

/-- A conditional that is open: its first part, and its second part once that has begun. -/
structure OpenBranch where
  body : Body := []
  alternative : Option Body := none
  deriving Repr

namespace OpenBranch

def add (b : OpenBranch) (line : Line Op) : OpenBranch :=
  match b.alternative with
  | some lines => { b with alternative := some (lines ++ [line]) }
  | none => { b with body := b.body ++ [line] }

def close (b : OpenBranch) : Line Op :=
  match b.alternative with
  | some lines => .ifElse b.body lines
  | none => .ifThen b.body

end OpenBranch

/-- What compiling a function keeps. -/
structure State where
  /-- The types of the pushed values, the latest first. -/
  types : Types := []
  body : Body := []
  /-- The open conditionals, the innermost first. -/
  branches : List OpenBranch := []
  /-- The types with a pair of scratch locals, and the number of the first of the pair. -/
  scratch : List (ValueType × Nat) := []
  memory : Memory
  deriving Repr

/-- The function being compiled and the program around it. -/
structure Context where
  program : Program
  method : Method
  /-- The reference of the method, for messages. -/
  name : String
  /-- The imported function that loads a string constant, if there is one. -/
  loadString : Option String

def valueType (method : String) (type : Primitive) : Compiling ValueType :=
  match ValueType.ofPrimitive? type with
  | some t => .ok t
  | none => .error (.unsupportedType backend type method)

def valueTypes (method : String) : Types → Compiling (List ValueType)
  | [] => .ok []
  | t :: rest => do
    let v ← valueType method t
    let vs ← valueTypes method rest
    return v :: vs

/-- The value type of a result; `void` has none. -/
def resultType (method : String) (type : Primitive) : Compiling (Option ValueType) :=
  if type = .void then .ok none
  else do
    let v ← valueType method type
    return some v

namespace State

/-- Adds a line to the innermost part that is open. -/
def add (s : State) (line : Line Op) : State :=
  match s.branches with
  | b :: rest => { s with branches := b.add line :: rest }
  | [] => { s with body := s.body ++ [line] }

def emit (s : State) (op : Op) : State := s.add (.op op)

def emitAll (s : State) (ops : List Op) : State := ops.foldl emit s

def push (s : State) (type : Primitive) : State := { s with types := type :: s.types }

def pop (c : Context) (i : Instruction) (s : State) : Compiling (Primitive × State) :=
  match s.types with
  | t :: rest => .ok (t, { s with types := rest })
  | [] => .error (.stackUnderflow c.name i.text)

def popMany (c : Context) (i : Instruction) : Nat → State → Compiling State
  | 0, s => .ok s
  | count + 1, s => do
    let (_, s) ← s.pop c i
    popMany c i count s

/-- A pair of scratch locals of a type, made on first use; the answer is the number of the first
one. -/
def scratchPair (c : Context) (s : State) (type : ValueType) : State × Nat :=
  match s.scratch.find? fun e => e.1 == type with
  | some e => (s, e.2)
  | none =>
    let first := c.method.parameters.length + c.method.locals.length + 2 * s.scratch.length
    ({ s with scratch := s.scratch ++ [(type, first)] }, first)

end State

end ScriptCompiler.Wat
