import ScriptCompiler.Wat.Compile

/-!
# Modules

The whole text of a module: imports of the external methods, the memory, the
functions, and the data segment.
-/

set_option autoImplicit false

namespace ScriptCompiler.Wat

/-- What can be chosen about a module. -/
structure Options where
  /-- The initial size of memory in pages. -/
  memoryPages : Nat := 1
  exportMemory : Bool := true
  deriving DecidableEq, Repr

def resultText : Option ValueType → String
  | some t => " (result " ++ t.name ++ ")"
  | none => ""

def Function.header (f : Function) : String :=
  "(func $" ++ f.name ++ " (export " ++ quote f.name ++ ")"
    ++ String.join (f.parameters.map fun q => " (param $" ++ q.1 ++ " " ++ q.2.name ++ ")")
    ++ resultText f.result

def Function.render (f : Function) (page : Page) : Page :=
  let page := (page.line f.header).indent
  let page := if f.locals.isEmpty then page
    else page.line ("(local " ++ " ".intercalate (f.locals.map ValueType.name) ++ ")")
  (Line.renderAll Op.text f.body page).dedent.line ")"

def importText (p : Program) (m : Method) : Compiling String := do
  let reference := p.referenceOf m
  let parameters ← valueTypes reference.text m.parameterTypes
  let result ← resultType reference.text m.returnType
  return "(import " ++ quote reference.importPath.1 ++ " " ++ quote reference.importPath.2
    ++ " (func $" ++ reference.flatName
    ++ String.join (parameters.map fun t => " (param " ++ t.name ++ ")")
    ++ resultText result ++ "))"

def renderImports (p : Program) : List Method → Page → Compiling Page
  | [], page => .ok page
  | m :: rest, page => do
    let text ← importText p m
    renderImports p rest (page.line text)

def loadStringReference : Reference := ⟨["Std", "Memory"], ["LoadString"], [.str]⟩

/-- The function that loads a string constant, if it is imported. -/
def loadString? (p : Program) : Option String := do
  let id ← p.findMethod? loadStringReference
  let m ← p.methodAt? id
  if m.external then some (p.referenceOf m).flatName else none

def renderFunctions (p : Program) (loadString : Option String) :
    List Method → Memory → Page → Compiling (Memory × Page)
  | [], memory, page => .ok (memory, page)
  | m :: rest, memory, page => do
    let (function, memory) ← compileFunction p loadString m memory
    renderFunctions p loadString rest memory (function.render page)

def emit (o : Options) (p : Program) : Compiling String := do
  let page := (({} : Page).line "(module").indent
  let page ← renderImports p (p.methods.filter (·.external)) page
  let page := page.line ("(memory $mem " ++ toString o.memoryPages ++ ")")
  let page := if o.exportMemory then page.line "(export \"memory\" (memory $mem))" else page
  let (memory, page) ←
    renderFunctions p (loadString? p) (p.methods.filter fun m => !m.external) {} page
  return ((page.line memory.text).dedent.line ")").text

end ScriptCompiler.Wat
