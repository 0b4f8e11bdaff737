import ScriptCompiler.Code.Instruction
import ScriptCompiler.Signature.Hash
import ScriptCompiler.Tree.Basic

/-!
# The program model

A program owns its namespaces and methods in two lists; items point at each other
by position. A method starts with its signature and folded statements, gets slots
for its locals when they are resolved, and ends with its stack code.

An index from signature hashes to methods finds duplicates: a hit is confirmed
against the method itself, so the answer does not depend on the hash.
-/

set_option autoImplicit false

namespace ScriptCompiler

abbrev NamespaceId := Nat

inductive NamespaceName where
  | explicit (path : DottedName)
  /-- The namespace of the methods that a script declares outside any namespace. -/
  | implicit (tag : Nat)
  deriving DecidableEq, Repr

namespace NamespaceName

def segments : NamespaceName → List String
  | explicit path => path.segments
  | implicit tag => ["__implicit" ++ toString tag]

def text (n : NamespaceName) : String := ".".intercalate n.segments

end NamespaceName

/-- A declared field; it has no storage. -/
structure Field where
  name : String
  type : Primitive
  deriving DecidableEq, Repr

structure Namespace where
  id : NamespaceId
  name : NamespaceName
  script : ScriptId
  methods : List MethodId := []
  fields : List Field := []
  deriving DecidableEq, Repr

structure Parameter where
  name : String
  type : Primitive
  deriving DecidableEq, Repr

/-- A method with all that is known about it. -/
structure Method where
  id : MethodId
  owner : NamespaceId
  script : ScriptId
  name : DottedName
  returnType : Primitive
  parameters : List Parameter
  /-- Implemented outside the build. -/
  external : Bool
  span : Span
  statements : List Stmt := []
  /-- The types of the locals, by slot. -/
  locals : Types := []
  code : Code := []
  compiled : Bool := false

namespace Method

def parameterTypes (m : Method) : Types := m.parameters.map (·.type)

def localsSize (m : Method) : Nat := (m.locals.map Primitive.size).sum

def parametersSize (m : Method) : Nat := (m.parameterTypes.map Primitive.size).sum

/-- The type at an index of stack code: parameters below zero, locals from zero on. -/
def localType? (m : Method) (index : Int) : Option Primitive :=
  if index < 0 then m.parameterTypes[(-index - 1).toNat]? else m.locals[index.toNat]?

/-- Looks up the type at an index of stack code. -/
def localType (m : Method) (index : Int) : Compiling (Option Primitive) := do
  checkIndex index
  return m.localType? index

def signature (m : Method) : String :=
  m.name.text ++ "(" ++ ", ".intercalate (m.parameterTypes.map Primitive.tag) ++ ") -> "
    ++ m.returnType.tag

end Method

/-- All namespaces and methods of a build. -/
structure Program where
  namespaces : List Namespace := []
  methods : List Method := []
  /-- The scripts with a namespace, in the order of their first one. -/
  scripts : List ScriptId := []
  nextImplicit : Nat := 0
  /-- Declared methods by the hash of their signature. -/
  index : List (UInt64 × MethodId) := []

namespace Program

def empty : Program := {}

def namespaceAt? (p : Program) (id : NamespaceId) : Option Namespace := p.namespaces[id]?

def methodAt? (p : Program) (id : MethodId) : Option Method := p.methods[id]?

def updateMethod (p : Program) (id : MethodId) (f : Method → Method) : Program :=
  { p with methods := p.methods.modify id f }

def pathOf (p : Program) (id : NamespaceId) : List String :=
  ((p.namespaceAt? id).map fun ns => ns.name.segments).getD []

def pathHash (d : SignatureHash.Digest) (p : Program) (id : NamespaceId) : UInt64 :=
  SignatureHash.ofPath d (p.pathOf id)

def pushNamespace (p : Program) (name : NamespaceName) (script : ScriptId) :
    Program × NamespaceId :=
  let id := p.namespaces.length
  ({ p with
      namespaces := p.namespaces ++ [{ id := id, name := name, script := script }]
      scripts := if p.scripts.contains script then p.scripts else p.scripts ++ [script] }, id)

/-- The namespace with this path in this script, added if there is none. -/
def addNamespace (p : Program) (path : DottedName) (script : ScriptId) : Program × NamespaceId :=
  match p.namespaces.find? fun ns => ns.script == script && ns.name == .explicit path with
  | some ns => (p, ns.id)
  | none => p.pushNamespace (.explicit path) script

/-- Whether a namespace is the one of a script's methods outside any namespace. -/
def isImplicitOf (script : ScriptId) (ns : Namespace) : Bool :=
  ns.script == script &&
    match ns.name with
    | .implicit _ => true
    | .explicit _ => false

/-- The namespace of a script's methods outside any namespace, added if there is none. -/
def implicitNamespace (p : Program) (script : ScriptId) : Program × NamespaceId :=
  match p.namespaces.find? (isImplicitOf script) with
  | some ns => (p, ns.id)
  | none =>
    { p with nextImplicit := p.nextImplicit + 1 }.pushNamespace (.implicit p.nextImplicit) script

def addField (p : Program) (owner : NamespaceId) (field : Field) : Program :=
  { p with
    namespaces := p.namespaces.modify owner fun ns => { ns with fields := ns.fields ++ [field] } }

/-- Whether a method has this namespace path, name and parameter types. -/
def hasSignature (p : Program) (path : List String) (name : DottedName)
    (parameters : Types) (m : Method) : Bool :=
  m.name == name && m.parameterTypes == parameters && p.pathOf m.owner == path

/-- Whether the index leads from a hash to a method with this signature. -/
def isDeclared (p : Program) (hash : UInt64) (path : List String) (name : DottedName)
    (parameters : Types) : Bool :=
  p.index.any fun entry =>
    entry.1 == hash && (p.methodAt? entry.2).any (p.hasSignature path name parameters)

/-- What a method declares about itself. -/
structure Declaration where
  name : DottedName
  returnType : Primitive
  parameters : List Parameter
  external : Bool
  span : Span

/-- Registers a method in a namespace, unless its namespace path, name and parameter types are
taken already; `d` is the digest behind the index. -/
def addMethodWith (d : SignatureHash.Digest) (p : Program) (owner : NamespaceId)
    (decl : Declaration) : Option (Program × MethodId) :=
  let types := decl.parameters.map (·.type)
  let hash := SignatureHash.ofMethod d (p.pathHash d owner) decl.name.segments types
  if p.isDeclared hash (p.pathOf owner) decl.name types then none
  else
    let id := p.methods.length
    let script := ((p.namespaceAt? owner).map (·.script)).getD 0
    some ({ p with
      namespaces := p.namespaces.modify owner fun ns => { ns with methods := ns.methods ++ [id] }
      methods := p.methods ++ [{
        id, owner, script
        name := decl.name
        returnType := decl.returnType
        parameters := decl.parameters
        external := decl.external
        span := decl.span }]
      index := p.index ++ [(hash, id)] }, id)

/-- Registers a method in a namespace, unless its signature is taken already. -/
def addMethod (p : Program) (owner : NamespaceId) (decl : Declaration) :
    Option (Program × MethodId) :=
  p.addMethodWith SignatureHash.digest owner decl

/-! ## Look-up -/

/-- The first namespace with exactly this path. -/
def findNamespace? (p : Program) (path : DottedName) : Option NamespaceId :=
  (p.namespaces.find? fun ns => ns.name == .explicit path).map (·.id)

/-- The methods of a namespace with this name, in the order of their declarations. -/
def methodsNamed (p : Program) (owner : NamespaceId) (name : DottedName) : List MethodId :=
  ((p.namespaceAt? owner).map (·.methods)).getD [] |>.filter fun id =>
    (p.methodAt? id).any fun m => m.name == name

def qualifiedIn (p : Program) (name : DottedName) (ns : Namespace) : List MethodId :=
  match ns.name with
  | .implicit _ => []
  | .explicit path =>
    match name.after? path with
    | some rest => p.methodsNamed ns.id rest
    | none => []

/-- The overloads that a call may mean. A simple name is looked up in the enclosing namespace
first; otherwise the first namespace whose path leads the name and that has methods of the
remaining name decides. -/
def findOverloads (p : Program) (name : DottedName) (enclosing : NamespaceId) : List MethodId :=
  let near := if name.isSimple then p.methodsNamed enclosing name else []
  if near ≠ [] then near
  else
    (p.namespaces.findSome? fun ns =>
      match p.qualifiedIn name ns with
      | [] => none
      | found => some found).getD []

def referenceOf (p : Program) (m : Method) : Reference :=
  ⟨p.pathOf m.owner, m.name.segments, m.parameterTypes⟩

/-- Whether the method at a position has this name and these parameter types. -/
def answersTo (p : Program) (r : Reference) (id : MethodId) : Bool :=
  (p.methodAt? id).any fun m => m.name.segments == r.method && m.parameterTypes == r.parameters

/-- The method with exactly this reference. -/
def findMethod? (p : Program) (r : Reference) : Option MethodId :=
  ((p.namespaces.filter fun ns => ns.name.segments == r.path).flatMap (·.methods)).find?
    (p.answersTo r)

end Program

end ScriptCompiler
