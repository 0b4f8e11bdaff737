/-!
# Pieces of a text

Cutting a text at a character and filling it up to a width. Joining is
`String.intercalate`; cutting at a character and joining with it are inverse to
each other.
-/

set_option autoImplicit false

namespace ScriptCompiler.Text

/-- The pieces of a text between the occurrences of a character, empty ones included. -/
def split (c : Char) (s : String) : List String :=
  (s.toList.splitOn c).map String.ofList

/-- What stands before and after the first character that satisfies `p`. -/
def cutWhere? (p : Char → Bool) (s : String) : Option (String × String) :=
  match s.toList.dropWhile fun c => !p c with
  | [] => none
  | _ :: rest => some (String.ofList (s.toList.takeWhile fun c => !p c), String.ofList rest)

/-- What stands before and after the first occurrence of a character. -/
def cutAt? (c : Char) (s : String) : Option (String × String) :=
  cutWhere? (· == c) s

/-- The text filled with blanks on the right up to `width` characters. -/
def padRight (width : Nat) (s : String) : String :=
  s ++ String.ofList (List.replicate (width - s.length) ' ')

/-- What follows a leading part, if the text starts with it. -/
def dropLeading? (lead s : String) : Option String :=
  if lead.toList.isPrefixOf s.toList then some (String.ofList (s.toList.drop lead.length))
  else none

def startsWith (lead s : String) : Bool :=
  lead.toList.isPrefixOf s.toList

/-- What precedes a final character, if the text ends with it. -/
def dropLast? (c : Char) (s : String) : Option String :=
  if s.toList.getLast? = some c then some (String.ofList s.toList.dropLast) else none

end ScriptCompiler.Text
