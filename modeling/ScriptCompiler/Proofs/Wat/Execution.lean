import ScriptCompiler.Proofs.Results
import ScriptCompiler.Wat.Compile

/-!
# Running functions of a module

A function works on a stack of values and on its locals; a value is its type and its bits. The
operations on integers are those of the instruction set. A conditional takes a truth value, and each
of its parts starts with an empty stack and has to leave it empty. A `return` ends the function.

What the rules of validation exclude is stuck: an operand of another type, a local that does not
exist or has another type, a constant that no literal can write, and an end of a body with other
values on the stack than the result of the function. No meaning is given to operations on floats.
-/

set_option autoImplicit false

namespace ScriptCompiler.Wat

open List

variable {W : Type}

/-- The number of bits of the values of a type. -/
def ValueType.width : ValueType → Nat
  | i32 | f32 => 32
  | i64 | f64 => 64

/-- Whether the values of a type are integers. -/
def ValueType.isInteger : ValueType → Bool
  | i32 | i64 => true
  | f32 | f64 => false

/-- A value. -/
structure Value where
  type : ValueType
  bits : BitVec type.width
  deriving DecidableEq

namespace Value

/-- The value of a type with the low bits of a number. -/
def ofInt (t : ValueType) (n : Int) : Value := ⟨t, BitVec.ofInt t.width n⟩

/-- A truth value. -/
def truth (b : Bool) : Value := ofInt .i32 (if b then 1 else 0)

/-- The bits of a value that has a given type. -/
def as? (t : ValueType) (v : Value) : Option (BitVec t.width) :=
  if h : v.type = t then some (h ▸ v.bits) else none

@[simp] theorem as?_self (t : ValueType) (x : BitVec t.width) : as? t ⟨t, x⟩ = some x :=
  dif_pos rfl

end Value

/-! ## Operations on integers -/

section

variable {w : Nat}

/-- The quotient, if there is one. -/
def Sign.quotient? : Sign → BitVec w → BitVec w → Option (BitVec w)
  | signed, x, y => if y = 0 ∨ (x = BitVec.intMin w ∧ y = -1) then none else some (x.sdiv y)
  | unsigned, x, y => if y = 0 then none else some (x / y)

/-- The remainder, if there is one. -/
def Sign.remainder? : Sign → BitVec w → BitVec w → Option (BitVec w)
  | signed, x, y => if y = 0 then none else some (x.srem y)
  | unsigned, x, y => if y = 0 then none else some (x % y)

/-- Whether a value lies below another one. -/
def Sign.below : Sign → BitVec w → BitVec w → Bool
  | signed, x, y => x.slt y
  | unsigned, x, y => x.ult y

/-- Whether two values stand in an order. -/
def Order.holds (sign : Sign) (x y : BitVec w) : Order → Bool
  | lt => sign.below x y
  | gt => sign.below y x
  | ge => !sign.below x y
  | le => !sign.below y x

end

/-- The number of operands of an operation. -/
def NumericOp.arity : NumericOp → Nat
  | trunc | eqz | extend8 | extend16 => 1
  | _ => 2

/-- What an operation makes of integers, the first pushed one first: a value, or nothing where it
traps. Other operands have no meaning. -/
def NumericOp.eval (t : ValueType) : NumericOp → List (BitVec t.width) → Option (Option Value)
  | add, [x, y] => some (some ⟨t, x + y⟩)
  | sub, [x, y] => some (some ⟨t, x - y⟩)
  | mul, [x, y] => some (some ⟨t, x * y⟩)
  | divInt sign, [x, y] => some ((sign.quotient? x y).map (Value.mk t))
  | rem sign, [x, y] => some ((sign.remainder? x y).map (Value.mk t))
  | and, [x, y] => some (some ⟨t, x &&& y⟩)
  | eq, [x, y] => some (some (.truth (x == y)))
  | ne, [x, y] => some (some (.truth (x != y)))
  | eqz, [x] => some (some (.truth (x == 0)))
  | orderInt o sign, [x, y] => some (some (.truth (o.holds sign x y)))
  | extend8, [x] => some (some ⟨t, (x.setWidth 8).signExtend t.width⟩)
  | extend16, [x] => some (some ⟨t, (x.setWidth 16).signExtend t.width⟩)
  | _, _ => none

/-! ## Instructions -/

/-- What a running function works on: the stack, the latest value first, the locals, the world, and
the calls made so far. -/
structure Config (W : Type) where
  stack : List Value
  locals : List Value
  world : W
  calls : List (String × List Value) := []

/-- Why a function does not run on to the end of its body. -/
inductive End (W : Type) where
  | returned (value : Option Value) (config : Config W)
  | trapped (config : Config W)
  | stuck

/-- A function that can be called. -/
structure Host (W : Type) where
  parameters : List ValueType
  result : Option ValueType
  body : List Value → W → Option Value × W

namespace Config

/-- Pushes a value. -/
def push (c : Config W) (v : Value) : Config W := { c with stack := v :: c.stack }

/-- Takes the value on top, if it has a given type. -/
def pop (c : Config W) (t : ValueType) : Except (End W) (BitVec t.width × Config W) :=
  match c.stack with
  | v :: rest =>
    match v.as? t with
    | some x => .ok (x, { c with stack := rest })
    | none => .error .stuck
  | [] => .error .stuck

/-- An operation on the values on top. -/
def numeric (c : Config W) (t : ValueType) (op : NumericOp) : Except (End W) (Config W) :=
  if t.isInteger then
    match ((c.stack.take op.arity).reverse.mapM (Value.as? t)).bind (op.eval t) with
    | some (some v) => .ok { c with stack := v :: c.stack.drop op.arity }
    | some none => .error (.trapped c)
    | none => .error .stuck
  else .error .stuck

/-- A call; the last argument is on top. -/
def call (c : Config W) (function : String) (host : Host W) : Except (End W) (Config W) :=
  let count := host.parameters.length
  let arguments := (c.stack.take count).reverse
  if arguments.map Value.type = host.parameters then
    let (value, world) := host.body arguments c.world
    if value.map Value.type = host.result then
      .ok { c with
        stack := value.toList ++ c.stack.drop count
        world
        calls := c.calls ++ [(function, arguments)] }
    else .error .stuck
  else .error .stuck

/-- How a function with a result returns; the result is on top. -/
def ret (c : Config W) : Option ValueType → End W
  | none => .returned none c
  | some t =>
    match c.stack with
    | v :: _ => if v.type = t then .returned (some v) c else .stuck
    | [] => .stuck

/-- How a function with a result ends behind its last line: the result is all that is left. -/
def leave (c : Config W) (result : Option ValueType) : Except (End W) (Config W) :=
  if c.stack.map Value.type = result.toList then .ok c else .error .stuck

/-- Runs a part of a conditional on a stack of its own. -/
def block (c : Config W) (part : Config W → Except (End W) (Config W)) :
    Except (End W) (Config W) := do
  let d ← part { c with stack := [] }
  match d.stack with
  | [] => .ok { d with stack := c.stack }
  | _ :: _ => .error .stuck

end Config

/-- Whether a literal can write a number as a constant of a type: with or without a sign, the low bits
are read back as the number. -/
def ValueType.accepts (t : ValueType) (n : Int) : Bool :=
  t.isInteger && (n == (BitVec.ofInt t.width n).toInt || n == (BitVec.ofInt t.width n).toNat)

/-- One instruction of a function with a result, among functions that can be called. -/
def Op.exec (H : String → Option (Host W)) (result : Option ValueType) :
    Op → Config W → Except (End W) (Config W)
  | nop, c => .ok c
  | unreachable, c => .error (.trapped c)
  | ret, c => .error (c.ret result)
  | drop, c =>
    match c.stack with
    | _ :: rest => .ok { c with stack := rest }
    | [] => .error .stuck
  | call function, c =>
    match H function with
    | some host => c.call function host
    | none => .error .stuck
  | localGet index, c =>
    match c.locals[index]? with
    | some v => .ok (c.push v)
    | none => .error .stuck
  | localSet index, c =>
    match c.stack with
    | v :: rest =>
      if c.locals[index]?.map Value.type = some v.type then
        .ok { c with stack := rest, locals := c.locals.set index v }
      else .error .stuck
    | [] => .error .stuck
  | const t n, c => if t.accepts n then .ok (c.push (.ofInt t n)) else .error .stuck
  | numeric t op, c => c.numeric t op
  | extend sign, c => do
    let (x, c) ← c.pop .i32
    return c.push ⟨.i64, match sign with
      | .signed => x.signExtend 64
      | .unsigned => x.setWidth 64⟩
  | wrap, c => do
    let (x, c) ← c.pop .i64
    return c.push ⟨.i32, x.setWidth 32⟩
  | _, _ => .error .stuck

/-! ## Bodies -/

mutual

/-- One line of a body. -/
def Line.exec (H : String → Option (Host W)) (result : Option ValueType) :
    Line Op → Config W → Except (End W) (Config W)
  | .op a, c => a.exec H result c
  | .ifThen body, c => do
    let (x, c) ← c.pop .i32
    if x = 0 then .ok c else c.block (Line.execAll H result body)
  | .ifElse body alt, c => do
    let (x, c) ← c.pop .i32
    if x = 0 then c.block (Line.execAll H result alt)
    else c.block (Line.execAll H result body)

/-- Lines one after the other. -/
def Line.execAll (H : String → Option (Host W)) (result : Option ValueType) :
    Body → Config W → Except (End W) (Config W)
  | [], c => .ok c
  | line :: rest, c => do
    let c ← line.exec H result c
    Line.execAll H result rest c

end

/-- A function with arguments; its other locals start with zero. -/
def Function.run (H : String → Option (Host W)) (f : Function) (arguments : List Value)
    (world : W) : Except (End W) (Config W) := do
  if arguments.map Value.type = f.parameters.map (·.2) then
    let c ← Line.execAll H f.result f.body
      { stack := [], locals := arguments ++ f.locals.map (Value.ofInt · 0), world }
    c.leave f.result
  else .error .stuck

section

variable {H : String → Option (Host W)} {result : Option ValueType} {c : Config W} (line : Line Op)

theorem Op.exec_localSet {index : Nat} {v : Value} {rest : List Value}
    (hstack : c.stack = v :: rest) (htype : c.locals[index]?.map Value.type = some v.type) :
    Op.exec H result (.localSet index) c =
      .ok { c with stack := rest, locals := c.locals.set index v } := by
  simp only [Op.exec, hstack]
  rw [if_pos htype]

theorem Op.exec_localGet {index : Nat} {v : Value} (h : c.locals[index]? = some v) :
    Op.exec H result (.localGet index) c = .ok (c.push v) := by
  simp only [Op.exec, h]

theorem Op.exec_call {function : String} {host : Host W} {arguments below : List Value}
    {value : Option Value} {world : W} (hhost : H function = some host)
    (hstack : c.stack = arguments.reverse ++ below)
    (htypes : arguments.map Value.type = host.parameters)
    (hbody : host.body arguments c.world = (value, world))
    (hvalue : value.map Value.type = host.result) : Op.exec H result (.call function) c =
      .ok { c with
        stack := value.toList ++ below
        world
        calls := c.calls ++ [(function, arguments)] } := by
  have hlen : host.parameters.length = arguments.reverse.length := by
    rw [← htypes, length_map, length_reverse]
  simp only [Op.exec, hhost, Config.call, hlen, hstack, take_left, drop_left,
    reverse_reverse, htypes, if_true, hbody, hvalue]

theorem Line.execAll_cons (rest : Body) (c : Config W) :
    execAll H result (line :: rest) c = line.exec H result c >>= execAll H result rest := rfl

theorem Line.execAll_append (a b : Body) (c : Config W) :
    execAll H result (a ++ b) c = execAll H result a c >>= execAll H result b := by
  induction a generalizing c with
  | nil => rfl
  | cons line _ ih =>
    rw [cons_append, execAll_cons, execAll_cons]
    cases line.exec H result c with
    | error => rfl
    | ok d => exact ih d

@[simp] theorem Line.execAll_singleton (c : Config W) :
    execAll H result [line] c = line.exec H result c := by
  rw [execAll_cons]
  cases line.exec H result c <;> rfl

theorem Line.execAll_ne_ok_of_ret {lines : Body} {d : Config W} :
    execAll H result (lines ++ [Line.op .ret]) c ≠ .ok d := by
  rw [execAll_append]
  cases execAll H result lines c with
  | error => simp
  | ok =>
    rw [ok_bind, execAll_singleton, Line.exec, Op.exec]
    simp

end

end ScriptCompiler.Wat
