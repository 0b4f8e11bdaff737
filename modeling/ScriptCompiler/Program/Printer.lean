import ScriptCompiler.Program.Basic
import ScriptCompiler.Tree.Printer

/-!
# Printed programs

The namespaces of a program with their fields and methods. A method that is
compiled shows its stack code, any other its statements.
-/

set_option autoImplicit false

namespace ScriptCompiler

def NamespaceId.text (id : NamespaceId) : String := "ns#" ++ toString id

def MethodId.text (id : MethodId) : String := "fn#" ++ toString id

def Method.bodyLines (m : Method) : List String :=
  if m.compiled then m.code.map Instruction.text else m.statements.map Stmt.print

def Method.print (m : Method) : String :=
  "  " ++ m.signature ++ (if m.external then " extern" else "")
    ++ " [locals " ++ toString m.localsSize ++ "B, params " ++ toString m.parametersSize ++ "B]\n"
    ++ String.join (m.bodyLines.map fun line => "    " ++ line ++ "\n")

def Program.printNamespace (p : Program) (ns : Namespace) : String :=
  "namespace " ++ ns.name.text ++ " (script " ++ toString ns.script ++ ")\n"
    ++ String.join (ns.fields.map fun f => "  field " ++ f.type.tag ++ " " ++ f.name ++ "\n")
    ++ String.join ((ns.methods.filterMap p.methodAt?).map Method.print)

def Program.print (p : Program) : String :=
  String.join (p.namespaces.map p.printNamespace)

end ScriptCompiler
