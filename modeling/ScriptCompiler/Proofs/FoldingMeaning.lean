import ScriptCompiler.Proofs.FoldedTrees
import ScriptCompiler.Proofs.TreeMeaning

/-!
# Folding keeps the meaning of trees

An evaluator for trees as they are written, with exact numbers: integers have no bounds, and a
division by zero has no value. All else is left to an interpretation (`Exact`): what names, calls,
casts and declarations do to a world, what comparisons yield, when a condition holds. Whatever these
are, a folded tree does what the tree does: folding replaces an operation only by the value that it
has, and an operation that it declines is evaluated as it stands.
-/

set_option autoImplicit false

namespace ScriptCompiler

open Option

/-- A number without bounds, a float, or another value. -/
inductive ExactValue (V : Type) where
  | integer (n : Int)
  | real (x : Double)
  | other (v : V)
  deriving DecidableEq, Repr

/-- An interpretation of all that is not arithmetic, over other values `V`, a world `W` and faults
`E`. -/
structure Exact (V E W : Type) where
  text : String → V
  boolean : Bool → V
  null : V
  name : NameUse → W → Except E (ExactValue V × W)
  assign : NameUse → ExactValue V → W → Except E (ExactValue V × W)
  call : DottedName → Option MethodId → List (ExactValue V) → W → Except E (ExactValue V × W)
  cast : Primitive → ExactValue V → W → Except E (ExactValue V × W)
  /-- A comparison, or an operator with an operand that is no number. -/
  operate : BinaryOp → ExactValue V → ExactValue V → W → Except E (ExactValue V × W)
  /-- What a division by zero ends in. -/
  undefined : W → E
  declare : String → Primitive → Option (ExactValue V) → W → Except E W
  isTrue : ExactValue V → W → Except E (Bool × W)
  /-- What happens where a block or a part of a branch begins and where it ends. -/
  enter : W → W
  leave : W → W
  assembly : String → W → Except E W

/-! ## Exact arithmetic -/

namespace BinaryOp

/-- The result of an arithmetic operator on integers, unless it divides by zero. -/
def onIntegers? : BinaryOp → Int → Int → Option Int
  | add, a, b => some (a + b)
  | sub, a, b => some (a - b)
  | mul, a, b => some (a * b)
  | div, a, b => if b = 0 then none else some (a.tdiv b)
  | rem, a, b => if b = 0 then none else some (a.tmod b)
  | equal, _, _ | notEqual, _, _ => none

/-- The result of an arithmetic operator on floats, unless it divides by zero. -/
def onReals? (r : RealArithmetic) : BinaryOp → Double → Double → Option Double
  | add, a, b => some (r.add a b)
  | sub, a, b => some (r.sub a b)
  | mul, a, b => some (r.mul a b)
  | div, a, b => if r.isZero b then none else some (r.div a b)
  | rem, a, b => if r.isZero b then none else some (r.rem a b)
  | equal, _, _ | notEqual, _, _ => none

end BinaryOp

variable {V E W : Type}

/-- A number as a float. -/
def ExactValue.real? (r : RealArithmetic) : ExactValue V → Option Double
  | integer n => some (r.ofInt n)
  | real x => some x
  | other _ => none

namespace Exact

/-- The value of a literal. -/
def literal (M : Exact V E W) : Literal → ExactValue V
  | .integer n => .integer n
  | .real x => .real x
  | .text s => .other (M.text s)
  | .boolean b => .other (M.boolean b)
  | .null => .other M.null

/-- A value that may be undefined. -/
def orUndefined (M : Exact V E W) (w : W) : Option (ExactValue V) → Except E (ExactValue V × W)
  | some v => .ok (v, w)
  | none => .error (M.undefined w)

/-- An operator between a left and a right value. Arithmetic on integers is exact, and a float makes
it one on floats. -/
def binary (M : Exact V E W) (r : RealArithmetic) (op : BinaryOp) (x y : ExactValue V) (w : W) :
    Except E (ExactValue V × W) :=
  if op.isComparison then M.operate op x y w
  else
    match x, y with
    | .integer a, .integer b => M.orUndefined w ((op.onIntegers? a b).map .integer)
    | x, y =>
      match x.real? r, y.real? r with
      | some a, some b => M.orUndefined w ((op.onReals? r a b).map .real)
      | _, _ => M.operate op x y w

/-- Runs a part with names of its own. -/
def within {α : Type} (M : Exact V E W) (part : W → Except E (α × W)) (w : W) :
    Except E (α × W) := do
  let (a, w) ← part (M.enter w)
  return (a, M.leave w)

end Exact

/-! ## Trees -/

mutual

/-- The value of an expression, and the world afterwards. The right operand of an operator is
evaluated before the left one. -/
def Expr.exact (M : Exact V E W) (r : RealArithmetic) : Expr → W → Except E (ExactValue V × W)
  | .literal value _, w => .ok (M.literal value, w)
  | .name use, w => M.name use w
  | .binary op left right _, w => do
    let (y, w) ← right.exact M r w
    let (x, w) ← left.exact M r w
    M.binary r op x y w
  | .assign target value _, w => do
    let (v, w) ← value.exact M r w
    M.assign target v w
  | .call target arguments method _, w => do
    let (vs, w) ← Expr.exactAll M r arguments w
    M.call target method vs w
  | .cast operand type _, w => do
    let (v, w) ← operand.exact M r w
    M.cast type v w

/-- The values of expressions from left to right. -/
def Expr.exactAll (M : Exact V E W) (r : RealArithmetic) :
    List Expr → W → Except E (List (ExactValue V) × W)
  | [], w => .ok ([], w)
  | e :: rest, w => do
    let (v, w) ← e.exact M r w
    let (vs, w) ← Expr.exactAll M r rest w
    return (v :: vs, w)

end

/-- The value of an expression that may be absent. -/
def Expr.exactOption (M : Exact V E W) (r : RealArithmetic) :
    Option Expr → W → Except E (Option (ExactValue V) × W)
  | none, w => .ok (none, w)
  | some e, w => do
    let (v, w) ← e.exact M r w
    return (some v, w)

mutual

/-- Runs a statement. -/
def Stmt.exact (M : Exact V E W) (r : RealArithmetic) :
    Stmt → W → Except E (Ending (ExactValue V) × W)
  | .expression e, w => do
    let (_, w) ← e.exact M r w
    return (.fell, w)
  | .declare name type initial _, w => do
    let (v, w) ← Expr.exactOption M r initial w
    let w ← M.declare name type v w
    return (.fell, w)
  | .ret value _, w => do
    let (v, w) ← Expr.exactOption M r value w
    return (.returned v, w)
  | .branch cond body alts _, w => do
    let (v, w) ← cond.exact M r w
    let (holds, w) ← M.isTrue v w
    if holds then M.within (body.exact M r) w else alts.exact M r w
  | .block body _, w => M.within (Stmt.exactAll M r body) w
  | .assembly text _, w => do
    let w ← M.assembly text w
    return (.fell, w)

/-- Runs the first alternative whose condition holds; one without a condition always does. -/
def Alternatives.exact (M : Exact V E W) (r : RealArithmetic) :
    Alternatives → W → Except E (Ending (ExactValue V) × W)
  | .none, w => .ok (.fell, w)
  | .more (some cond) body next _, w => do
    let (v, w) ← cond.exact M r w
    let (holds, w) ← M.isTrue v w
    if holds then M.within (body.exact M r) w else next.exact M r w
  | .more none body _ _, w => M.within (body.exact M r) w

/-- Runs statements up to the first return. -/
def Stmt.exactAll (M : Exact V E W) (r : RealArithmetic) :
    List Stmt → W → Except E (Ending (ExactValue V) × W)
  | [], w => .ok (.fell, w)
  | s :: rest, w => do
    let (ending, w) ← s.exact M r w
    match ending with
    | .fell => Stmt.exactAll M r rest w
    | .returned v => return (.returned v, w)

end

/-! ## Operations that are folded -/

section

variable {M : Exact V E W} {r : RealArithmetic} {op : BinaryOp}

theorem onIntegers?_of_foldIntegers? {a b n : Int} (h : op.foldIntegers? a b = some n) :
    op.onIntegers? a b = some n := by
  have hwithin : ∀ {k : Int}, Integer.within? 128 k = some n → k = n := by
    intro k hk
    exact some.inj (ite_none_right_eq_some.1 hk).2
  cases op with
  | add | sub | mul => exact congrArg some (hwithin h)
  | div =>
    obtain ⟨hb, h⟩ := ite_none_left_eq_some.1 h
    rw [BinaryOp.onIntegers?, if_neg hb, hwithin h]
  | rem =>
    obtain ⟨hb, h⟩ := ite_none_left_eq_some.1 h
    obtain ⟨-, -, rfl⟩ := map_eq_some_iff.1 h
    exact if_neg hb
  | equal | notEqual => cases h

theorem onReals?_of_foldReals? {a b x : Double} (h : op.foldReals? r a b = some x) :
    op.onReals? r a b = some x := by
  cases op <;> exact h

theorem real?_literal (a : Literal) : (M.literal a).real? r = a.real? r := by cases a <;> rfl

/-- What an operation between literals is folded to is its value. -/
theorem binary_of_foldLiterals? {a b value : Literal} (h : op.foldLiterals? r a b = some value)
    (w : W) : M.binary r op (M.literal a) (M.literal b) w = .ok (M.literal value, w) := by
  have hop := isComparison_of_foldLiterals? h
  rcases foldLiterals?_cases h with
    ⟨m, n, k, rfl, rfl, hk, rfl⟩ | ⟨hboth, x, y, z, hx, hy, hz, rfl⟩
  · have hexact := onIntegers?_of_foldIntegers? hk
    simp only [Exact.binary, hop, Exact.literal, hexact, map_some]
    rfl
  · have hexact := onReals?_of_foldReals? hz
    unfold Exact.binary
    rw [hop, if_neg Bool.false_ne_true]
    split
    · rename_i n k hn hk
      -- only an integer literal has an integer for its value
      cases a <;> cases hn
      cases b <;> cases hk
      exact absurd ⟨_, _, rfl, rfl⟩ hboth
    · rw [real?_literal, real?_literal, hx, hy]
      simp only [hexact, map_some]
      rfl

end

/-! ## Folded trees -/

variable (M : Exact V E W) (r : RealArithmetic)

/-- A folded expression does what the expression does. -/
theorem Expr.exact_fold (e : Expr) : (e.fold r).exact M r = e.exact M r := by
  refine fold_induction (P := fun e f => f.exact M r = e.exact M r) r ?_ ?_ ?_ ?_ ?_ ?_ ?_ e
  · exact fun _ _ => rfl
  · exact fun _ => rfl
  · intro op left right span a _ b _ value hl hr hvalue
    funext w
    rw [Expr.exact, Expr.exact, ← hr, ← hl, Expr.exact, ok_bind]
    dsimp only
    rw [Expr.exact, ok_bind, binary_of_foldLiterals? hvalue]
  · intro op left _ right _ span hl hr _
    funext w
    rw [Expr.exact, Expr.exact, hl, hr]
  · intro target value _ span hv
    funext w
    rw [Expr.exact, Expr.exact, hv]
  · intro target arguments _ span hargs
    have hall : Expr.exactAll M r (arguments.map (Expr.fold r)) = Expr.exactAll M r arguments := by
      induction arguments with
      | nil => rfl
      | cons a _ ih =>
        funext w
        rw [List.map_cons, Expr.exactAll, hargs a List.mem_cons_self,
          ih fun b hb => hargs b (List.mem_cons_of_mem _ hb), Expr.exactAll]
    funext w
    rw [Expr.exact, hall, Expr.exact]
  · intro _ _ _ span ho
    funext w
    rw [Expr.exact, Expr.exact, ho]

theorem Expr.exactOption_fold (e : Option Expr) :
    Expr.exactOption M r (e.map (Expr.fold r)) = Expr.exactOption M r e := by
  cases e with
  | none => rfl
  | some =>
    funext w
    rw [map_some, Expr.exactOption, exact_fold, Expr.exactOption]

mutual

theorem Stmt.exact_fold : ∀ s : Stmt, (s.fold r).exact M r = s.exact M r
  | .expression e => by
    funext w
    rw [Stmt.fold, Stmt.exact, Expr.exact_fold, Stmt.exact]
  | .declare name type initial span => by
    funext w
    rw [Stmt.fold, Stmt.exact, Expr.exactOption_fold, Stmt.exact]
  | .ret value span => by
    funext w
    rw [Stmt.fold, Stmt.exact, Expr.exactOption_fold, Stmt.exact]
  | .branch cond body alts span => by
    funext w
    rw [Stmt.fold, Stmt.exact, Expr.exact_fold, Stmt.exact_fold body,
      Alternatives.exact_fold alts, Stmt.exact]
  | .block body span => by
    funext w
    rw [Stmt.fold, Stmt.exact, Stmt.exactAll_fold body, Stmt.exact]
  | .assembly text span => rfl

theorem Alternatives.exact_fold : ∀ a : Alternatives, (a.fold r).exact M r = a.exact M r
  | .none => rfl
  | .more none body next span => by
    funext w
    rw [Alternatives.fold, map_none, Alternatives.exact, Stmt.exact_fold body, Alternatives.exact]
  | .more (some cond) body next span => by
    funext w
    rw [Alternatives.fold, map_some, Alternatives.exact, Expr.exact_fold,
      Stmt.exact_fold body, Alternatives.exact_fold next, Alternatives.exact]

theorem Stmt.exactAll_fold :
    ∀ body : List Stmt, Stmt.exactAll M r (Stmt.foldAll r body) = Stmt.exactAll M r body
  | [] => rfl
  | s :: rest => by
    funext w
    rw [Stmt.foldAll, Stmt.exactAll, Stmt.exact_fold s, Stmt.exactAll_fold rest, Stmt.exactAll]

end

/-- Folding keeps the meaning of expressions and statements: under exact arithmetic the folded tree
gives the same value or ending, in the same world, or the same fault, whatever names, calls, casts and
assignments do and whatever the operations on floats are. -/
theorem fold_keeps_meaning : (∀ (e : Expr) (w : W), (e.fold r).exact M r w = e.exact M r w) ∧
      ∀ (s : Stmt) (w : W), (s.fold r).exact M r w = s.exact M r w := by
  refine ⟨?_, ?_⟩
  · intro e w
    rw [Expr.exact_fold]
  · intro s w
    rw [Stmt.exact_fold]

end ScriptCompiler
