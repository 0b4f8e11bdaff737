import ScriptCompiler.Evaluation.Lowered
import ScriptCompiler.Proofs.Results

/-!
# The code of a tree

Lowering appends to a buffer, where a statement that fails has left a part of its code before it is
cut off. Here every tree has a code of its own, or the error that it fails with. Both come to the
same (`Method.lower_eq`): a statement appends its code to whatever is in the buffer, and one that
fails leaves the buffer as it was.
-/

set_option autoImplicit false

namespace ScriptCompiler

open List

/-- The conversion of a pushed value to a type, if it has another one. -/
def convertTo (target pushed : Primitive) : Code :=
  if pushed = target then [] else [.convert target]

mutual

/-- The code of an expression and the type of the value that it pushes, `void` if it pushes
none; `expected` types the literals that have no type of their own. -/
def Expr.lower (p : Program) (expected : Option Primitive) :
    Expr → Evaluating (Code × Primitive)
  | .literal value _ =>
    let (type, text) := value.constant expected
    .ok ([.loadConst type text], type)
  | .name use => do
    let slot ← use.found
    return ([.getLocal slot.index], slot.type)
  | .binary op left right span => do
    let l ← left.typeIn p
    let r ← right.typeIn p
    let common ← l.common r span
    let type := common.settle expected
    let (rightCode, pushedRight) ← right.lower p (some type)
    let (leftCode, pushedLeft) ← left.lower p (some type)
    return (rightCode ++ convertTo type pushedRight ++ (leftCode ++ convertTo type pushedLeft)
      ++ [.binary op.opcode type], if op.isComparison then .bool else type)
  | .assign target value _ => do
    let slot ← target.found
    let (code, pushed) ← value.lower p (some slot.type)
    return (code ++ convertTo slot.type pushed ++ [.setLocal slot.index], .void)
  | .call target args method span => do
    let callee ← p.callee target method span
    let code ← Expr.lowerArguments p args callee.parameterTypes
    return (code ++ [.call callee.returnType (p.referenceOf callee)], callee.returnType)
  | .cast operand type _ => do
    let (code, pushed) ← operand.lower p (some type)
    return (code ++ convertTo type pushed, type)

/-- The code of arguments, each converted to the type of its parameter. -/
def Expr.lowerArguments (p : Program) : List Expr → Types → Evaluating Code
  | argument :: args, type :: types => do
    let (code, pushed) ← argument.lower p (some type)
    let rest ← Expr.lowerArguments p args types
    return code ++ convertTo type pushed ++ rest
  | _, _ => .ok []

end

def Expr.lowerTo (p : Program) (target : Primitive) (e : Expr) : Evaluating Code := do
  let (code, pushed) ← e.lower p (some target)
  return code ++ convertTo target pushed

/-- The code of a truth value and of the branch that it decides. -/
def Expr.lowerTruth (p : Program) (cond : Expr) : Evaluating Code := do
  let code ← cond.lowerTo p .bool
  return code ++ [.branch .true none]

/-- The code of a condition and of the branch that uses it. An integer compared with a literal is
compared by the branch itself. -/
def Expr.lowerCondition (p : Program) (cond : Expr) : Evaluating Code :=
  match cond.comparison? with
  | none => cond.lowerTruth p
  | some (kind, left, n) => do
    let type ← left.typeIn p
    if type.isConcreteInteger then
      let (code, _) ← left.lower p none
      return code ++ [.branch kind (some n)]
    else cond.lowerTruth p

mutual

/-- The code of a statement of a method that returns `returnType`. -/
def Stmt.lower (p : Program) (returnType : Primitive) : Stmt → Evaluating Code
  | .expression e => do
    let (code, pushed) ← e.lower p none
    return if pushed = .void then code else code ++ [.pop]
  | .declare name _ _ span =>
    .error (.instructionNotImplemented ("unresolved declaration of '" ++ name ++ "'") span)
  | .ret none _ => .ok [.ret]
  | .ret (some value) _ => do
    let code ← value.lowerTo p returnType
    return code ++ [.ret]
  | .branch cond body alts _ => do
    let test ← cond.lowerCondition p
    let code ← body.lower p returnType
    let rest ← alts.lower p returnType
    return test ++ code ++ rest ++ [.endBranch]
  | .block body _ => Stmt.lowerAll p returnType body
  | .assembly _ _ => .ok []

/-- The code of alternatives; what follows one without a condition is never reached. -/
def Alternatives.lower (p : Program) (returnType : Primitive) :
    Alternatives → Evaluating Code
  | .none => .ok []
  | .more (some cond) body next _ => do
    let test ← cond.lowerCondition p
    let code ← body.lower p returnType
    let rest ← next.lower p returnType
    return .otherwise :: test ++ code ++ rest ++ [.endBranch]
  | .more none body _ _ => do
    let code ← body.lower p returnType
    return .otherwise :: code

def Stmt.lowerAll (p : Program) (returnType : Primitive) : List Stmt → Evaluating Code
  | [] => .ok []
  | s :: rest => do
    let code ← s.lower p returnType
    let more ← Stmt.lowerAll p returnType rest
    return code ++ more

end

/-! ## Trees in a buffer -/

section

variable {α β : Type} {x : Emitter α} {f : α → Emitter β} {s s' : Code}

theorem Emitter.run_bind_ok {a : α} (h : x.run s = .ok a s') : (x >>= f).run s = (f a).run s' := by
  change EStateM.bind x f s = f a s'
  rw [EStateM.bind, show x s = .ok a s' from h]

theorem Emitter.run_bind_error {e : EvaluationError} (h : x.run s = .error e s') :
    (x >>= f).run s = .error e s' := by
  change EStateM.bind x f s = .error e s'
  rw [EStateM.bind, show x s = .error e s' from h]

end

/-- Whether behind the code `before` an emitter comes to a result: it fails with the same error, or
leaves the code of the result in place of `before` and returns its value. What is in the buffer
further ahead does not matter and stays. -/
def Emitter.Writes {α ρ : Type} (view : ρ → Code × α) (before : Code) (x : Emitter α) :
    Evaluating ρ → Prop
  | .ok c => ∀ buffer, x.run (buffer ++ before) = .ok (view c).2 (buffer ++ (view c).1)
  | .error e => ∀ buffer, ∃ part, x.run (buffer ++ before) = .error e (buffer ++ part)

namespace Emitter.Writes

variable {α β ρ τ : Type} {view : ρ → Code × α} {view' : τ → Code × β} {before : Code}
  {x : Emitter α} {f : α → Emitter β} {r : Evaluating ρ}

theorem pure {b : β} {c : τ} (h : view' c = (before, b)) :
    Writes view' before (Pure.pure b) (.ok c) := by
  intro _
  rw [h]
  rfl

/-- An emitter does what another one does that starts with more code. -/
theorem of_run {x y : Emitter β} {before' : Code} {d : Evaluating τ}
    (hy : Writes view' before' y d)
    (h : ∀ buffer, x.run (buffer ++ before) = y.run (buffer ++ before')) :
    Writes view' before x d := by
  cases d with
  | error =>
    intro buffer
    rw [h]
    exact hy buffer
  | ok =>
    intro buffer
    rw [h]
    exact hy buffer

/-- One emitter after another, where the first goes behind what is there. -/
theorem bind {R : ρ → Evaluating τ} (hx : Writes view [] x r)
    (hf : ∀ c, Writes view' (before ++ (view c).1) (f (view c).2) (R c)) :
    Writes view' before (x >>= f) (r >>= R) := by
  cases r with
  | error =>
    intro buffer
    obtain ⟨part, hpart⟩ := hx (buffer ++ before)
    rw [append_nil] at hpart
    exact ⟨before ++ part, by rw [run_bind_error hpart, append_assoc]⟩
  | ok c =>
    have hfirst : ∀ buffer, (x >>= f).run (buffer ++ before) =
        (f (view c).2).run (buffer ++ (before ++ (view c).1)) := by
      intro buffer
      have hc := hx (buffer ++ before)
      rw [append_nil] at hc
      rw [run_bind_ok hc, append_assoc]
    exact (hf c).of_run hfirst

/-- What is read of the program leaves the buffer alone. -/
theorem lift {γ : Type} {y : Evaluating γ} {g : γ → Emitter β}
    {R : γ → Evaluating τ} (hg : ∀ a, Writes view' before (g a) (R a)) :
    Writes view' before (ofExcept y >>= g) (y >>= R) := by
  cases y with
  | error => exact fun _ => ⟨before, rfl⟩
  | ok a => exact hg a

theorem add {i : Instruction} {g : Unit → Emitter β} {d : Evaluating τ}
    (hg : Writes view' (before ++ [i]) (g ()) d) : Writes view' before (Emitter.add i >>= g) d := by
  refine hg.of_run fun _ => ?_
  rw [← append_assoc]
  rfl

/-- An emitter at the end returns what it comes to. -/
theorem last {x : Emitter β} {d : Evaluating τ}
    (h : Writes view' before (x >>= Pure.pure) d) : Writes view' before x d := by
  rwa [bind_pure] at h

/-- A value is pushed and then converted. -/
theorem convert {push : Emitter Primitive} {target : Primitive} {g : Unit → Emitter β}
    {y : Evaluating (Code × Primitive)} {R : Code × Primitive → Evaluating τ}
    (hpush : Writes id [] push y)
    (hg : ∀ c, Writes view' (before ++ (c.1 ++ convertTo target c.2)) (g ()) (R c)) :
    Writes view' before (Emitter.convert target push >>= g) (y >>= R) := by
  unfold Emitter.convert
  rw [bind_assoc]
  refine bind hpush fun c => ?_
  have hrest := hg c
  dsimp only [id]
  by_cases hc : c.2 = target
  · rw [convertTo, if_pos hc, append_nil] at hrest
    rw [if_pos hc, pure_bind]
    exact hrest
  · rw [convertTo, if_neg hc, ← append_assoc] at hrest
    rw [if_neg hc]
    exact add hrest

end Emitter.Writes

variable {p : Program}

mutual

/-- An expression appends its code and returns the type that it pushes. -/
theorem Expr.writes_emit (e : Expr) (expected : Option Primitive) :
    Emitter.Writes id [] (e.emit p expected) (e.lower p expected) := by
  cases e with
  | literal => exact .add (.pure rfl)
  | name => exact .lift fun _ => .add (.pure rfl)
  | binary _ left right =>
    refine .lift fun _ => .lift fun _ => .lift fun _ => ?_
    refine .convert (writes_emit right _) fun ⟨_, _⟩ => .convert (writes_emit left _) fun ⟨_, _⟩ => ?_
    exact .add (.pure rfl)
  | assign _ value =>
    exact .lift fun _ => .convert (writes_emit value _) fun ⟨_, _⟩ => .add (.pure rfl)
  | call _ args =>
    exact .lift fun _ => .bind (writes_emitArguments args _) fun _ => .add (.pure rfl)
  | cast operand => exact .convert (writes_emit operand _) fun ⟨_, _⟩ => .pure rfl

theorem Expr.writes_emitArguments (args : List Expr) (types : Types) :
    Emitter.Writes (·, ()) [] (emitArguments p args types)
      (lowerArguments p args types) := by
  match args, types with
  | argument :: args, type :: types =>
    refine .convert (writes_emit argument _) fun ⟨_, _⟩ => ?_
    exact .last (.bind (writes_emitArguments args types) fun _ => .pure rfl)
  | [], _ => exact .pure rfl
  | _ :: _, [] => exact .pure rfl

end

theorem Expr.writes_emitTo (e : Expr) (target : Primitive) :
    Emitter.Writes (·, ()) [] (Emitter.convert target (e.emit p (some target)))
      (e.lowerTo p target) :=
  .last (.convert (e.writes_emit _) fun ⟨_, _⟩ => .pure rfl)

/-- So does a condition with its branch. -/
theorem Expr.writes_emitCondition (e : Expr) :
    Emitter.Writes (·, ()) [] (e.emitCondition p) (e.lowerCondition p) := by
  have htruth : Emitter.Writes (·, ()) [] (e.emitTruth p) (e.lowerTruth p) :=
    .bind (e.writes_emitTo .bool) fun _ => .last (.add (.pure rfl))
  unfold emitCondition lowerCondition
  cases e.comparison? with
  | none => exact htruth
  | some c =>
    refine .lift fun type => ?_
    by_cases htype : type.isConcreteInteger = true
    · rw [if_pos htype, if_pos htype]
      exact .bind (writes_emit c.2.1 none) fun ⟨_, _⟩ => .last (.add (.pure rfl))
    · rw [if_neg htype, if_neg htype]
      exact htruth

mutual

/-- A statement appends its code. -/
theorem Stmt.writes_emit (s : Stmt) (returnType : Primitive) :
    Emitter.Writes (·, ()) [] (s.emit p returnType) (s.lower p returnType) := by
  cases s with
  | expression e =>
    refine .bind (e.writes_emit none) fun ⟨_, pushed⟩ => ?_
    by_cases hvoid : pushed = .void
    · simp only [id, hvoid, if_true]
      exact .pure rfl
    · simp only [id, hvoid, if_false]
      exact .last (.add (.pure rfl))
  | declare => exact fun _ => ⟨[], rfl⟩
  | ret value =>
    cases value with
    | none => exact .last (.add (.pure rfl))
    | some value => exact .bind (value.writes_emitTo _) fun _ => .last (.add (.pure rfl))
  | branch cond body alts =>
    refine .bind cond.writes_emitCondition fun _ => .bind (body.writes_emit _) fun _ => ?_
    exact .bind (alts.writes_emit _) fun _ => .last (.add (.pure rfl))
  | block body => exact Stmt.writes_emitAll body returnType
  | assembly => exact .pure rfl

theorem Alternatives.writes_emit (a : Alternatives) (returnType : Primitive) :
    Emitter.Writes (·, ()) [] (a.emit p returnType) (a.lower p returnType) := by
  cases a with
  | none => exact .pure rfl
  | more cond body next =>
    cases cond with
    | some cond =>
      refine .add (.bind cond.writes_emitCondition fun _ => ?_)
      refine .bind (body.writes_emit _) fun _ => .bind (next.writes_emit _) fun _ => ?_
      exact .last (.add (.pure rfl))
    | none => exact .add (.last (.bind (body.writes_emit _) fun _ => .pure rfl))

theorem Stmt.writes_emitAll (body : List Stmt) (returnType : Primitive) :
    Emitter.Writes (·, ()) [] (Stmt.emitAll p returnType body)
      (Stmt.lowerAll p returnType body) := by
  cases body with
  | nil => exact .pure rfl
  | cons s rest =>
    refine .bind (s.writes_emit _) fun _ => ?_
    exact .last (.bind (Stmt.writes_emitAll rest _) fun _ => .pure rfl)

end

/-! ## Methods -/

section

variable {returnType : Primitive} {r : Code × List EvaluationError} {s : Stmt}

/-- A statement adds its code. -/
theorem Stmt.lowerNext_ok {code : Code} (h : s.lower p returnType = .ok code) :
    s.lowerNext p returnType r = (r.1 ++ code, r.2) := by
  have hrun := s.writes_emit (p := p) returnType
  rw [h] at hrun
  have hrun := hrun r.1
  rw [append_nil] at hrun
  rw [lowerNext, hrun]

/-- Of a statement that fails nothing is left but its error. -/
theorem Stmt.lowerNext_error {e : EvaluationError} (h : s.lower p returnType = .error e) :
    s.lowerNext p returnType r = (r.1, r.2 ++ [e]) := by
  have hrun := s.writes_emit (p := p) returnType
  rw [h] at hrun
  obtain ⟨_, hrun⟩ := hrun r.1
  rw [append_nil] at hrun
  rw [lowerNext, hrun]
  simp

end

/-- The codes of the statements of a method that can be lowered, in their order. -/
def Method.pieces (p : Program) (m : Method) : List Code :=
  m.statements.filterMap fun s => (s.lower p m.returnType).toOption

/-- The errors of the statements that cannot be lowered, in their order. -/
def Method.refusals (p : Program) (m : Method) : List EvaluationError :=
  m.statements.filterMap fun s =>
    match s.lower p m.returnType with
    | .ok _ => none
    | .error e => some e

/-- A lowered method has the code of the statements that can be lowered. A statement that cannot
leaves nothing behind, at whatever depth it fails. -/
theorem Method.lower_eq (p : Program) (m : Method) : m.lower p =
    ({ m with statements := [], code := (m.pieces p).flatten, compiled := true }, m.refusals p) := by
  have hfold : ∀ r, m.statements.foldl (Stmt.lowerNext p m.returnType) r =
      (r.1 ++ (m.pieces p).flatten, r.2 ++ m.refusals p) := by
    unfold Method.pieces Method.refusals
    induction m.statements with
    | nil => simp
    | cons s _ ih =>
      intro r
      cases hs : s.lower p m.returnType with
      | ok => simp [ih, hs, Stmt.lowerNext_ok hs, Except.toOption]
      | error => simp [ih, hs, Stmt.lowerNext_error hs, Except.toOption]
  rw [Method.lower, hfold]
  simp

end ScriptCompiler
