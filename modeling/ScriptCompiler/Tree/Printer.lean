import ScriptCompiler.Number.Decimal
import ScriptCompiler.Text.Quoted
import ScriptCompiler.Tree.Basic

/-!
# Printed trees

One line of text for a tree. A resolved name shows its slot after `@`, operators
are fully bracketed, and inline assembly is not shown.
-/

set_option autoImplicit false

namespace ScriptCompiler

def Literal.print : Literal → String
  | integer n => toString n
  | real x => x.text .distinct
  | text s => Text.quoted s
  | boolean b => if b then "true" else "false"
  | null => "null"

def NameUse.print (u : NameUse) : String :=
  match u.slot with
  | some slot => u.symbol.text ++ "@" ++ toString slot.index
  | none => u.symbol.text

mutual

def Expr.print : Expr → String
  | .literal value _ => value.print
  | .name use => use.print
  | .binary op left right _ => "(" ++ left.print ++ " " ++ op.symbol ++ " " ++ right.print ++ ")"
  | .assign target value _ => target.print ++ " = " ++ value.print
  | .call target arguments _ _ =>
    target.text ++ "(" ++ String.intercalate ", " (Expr.printAll arguments) ++ ")"
  | .cast operand type _ => "(" ++ type.tag ++ ")" ++ operand.print

def Expr.printAll : List Expr → List String
  | [] => []
  | e :: rest => e.print :: Expr.printAll rest

end

mutual

def Stmt.print : Stmt → String
  | .expression e => e.print ++ ";"
  | .declare name type (some initial) _ => type.tag ++ " " ++ name ++ " = " ++ initial.print ++ ";"
  | .declare name type none _ => type.tag ++ " " ++ name ++ ";"
  | .ret (some value) _ => "return " ++ value.print ++ ";"
  | .ret none _ => "return;"
  | .branch condition body alternatives _ =>
    "if " ++ condition.print ++ " " ++ body.print ++ alternatives.print
  | .block body _ => "\x7b " ++ Stmt.printAll body ++ "\x7d"
  | .assembly _ _ => "asm \x7b ... \x7d"

def Alternatives.print : Alternatives → String
  | .none => ""
  | .more (some condition) body next _ =>
    " elif " ++ condition.print ++ " " ++ body.print ++ next.print
  | .more none body next _ => " else " ++ body.print ++ next.print

def Stmt.printAll : List Stmt → String
  | [] => ""
  | s :: rest => s.print ++ " " ++ Stmt.printAll rest

end

end ScriptCompiler
