import ScriptCompiler.Tree.Basic

/-!
# Induction over trees

The induction over expressions gives its hypothesis for every argument of a call. What is asked of
the expressions of a statement is a `Demands`: one condition on expressions that stand for their
effect, one on the conditions of branches and one on the values of returns.
-/

set_option autoImplicit false

namespace ScriptCompiler

/-- What holds of every expression whose parts have it holds of every expression. -/
@[induction_eliminator]
theorem Expr.induction {P : Expr → Prop} (literal : ∀ value span, P (.literal value span))
    (name : ∀ use, P (.name use))
    (binary : ∀ op left right span, P left → P right → P (.binary op left right span))
    (assign : ∀ target value span, P value → P (.assign target value span))
    (call : ∀ target args method span, (∀ a ∈ args, P a) →
      P (.call target args method span))
    (cast : ∀ operand type span, P operand → P (.cast operand type span)) (e : Expr) : P e := by
  refine @Expr.rec P (fun es => ∀ a ∈ es, P a) literal name binary assign call cast ?_ ?_ e
  · intro a ha
    cases ha
  · intro _ _ hhead htail a ha
    rcases List.mem_cons.1 ha with rfl | hmem
    · exact hhead
    · exact htail a hmem

/-- What is asked of the expressions of statements. -/
structure Demands where
  /-- Asked of an expression that is a statement. -/
  effect : Expr → Prop
  /-- Asked of the condition of a branch. -/
  condition : Expr → Prop
  /-- Asked of what a return carries. -/
  result : Option Expr → Prop

namespace Demands

/-- The same demand on every expression. -/
def all (P : Expr → Prop) : Demands where
  effect := P
  condition := P
  result v := ∀ e ∈ v, P e

/-- Both demands at once. -/
def both (d d' : Demands) : Demands where
  effect e := d.effect e ∧ d'.effect e
  condition e := d.condition e ∧ d'.condition e
  result v := d.result v ∧ d'.result v

/-- Whether all that meets the first demands meets the second ones. -/
structure Implies (d d' : Demands) : Prop where
  effect : ∀ e, d.effect e → d'.effect e
  condition : ∀ e, d.condition e → d'.condition e
  result : ∀ v, d.result v → d'.result v

theorem implies_all {P Q : Expr → Prop} (h : ∀ e, P e → Q e) : (all P).Implies (all Q) :=
  ⟨h, h, fun _ hv e he => h e (hv e he)⟩

theorem implies_all_of_forall {d : Demands} {Q : Expr → Prop} (h : ∀ e, Q e) : d.Implies (all Q) :=
  ⟨fun e _ => h e, fun e _ => h e, fun _ _ e _ => h e⟩

end Demands

mutual

/-- Whether every expression in a statement meets the demands. -/
def Stmt.Meets (d : Demands) : Stmt → Prop
  | .expression e => d.effect e
  | .declare .. => False
  | .ret value _ => d.result value
  | .branch condition body alts _ =>
    d.condition condition ∧ body.Meets d ∧ alts.Meets d
  | .block body _ => Stmt.AllMeet d body
  | .assembly .. => True

/-- Whether every expression in alternatives meets the demands. Nothing is asked of what follows
one without a condition: it is never reached. -/
def Alternatives.Meets (d : Demands) : Alternatives → Prop
  | .none => True
  | .more (some condition) body next _ => d.condition condition ∧ body.Meets d ∧ next.Meets d
  | .more none body _ _ => body.Meets d

/-- Whether every expression in a list of statements meets the demands. -/
def Stmt.AllMeet (d : Demands) : List Stmt → Prop
  | [] => True
  | s :: rest => s.Meets d ∧ Stmt.AllMeet d rest

end

theorem Stmt.allMeet_iff (d : Demands) (body : List Stmt) :
    Stmt.AllMeet d body ↔ ∀ s ∈ body, s.Meets d := by
  induction body with
  | nil => simp [Stmt.AllMeet]
  | cons _ _ ih => simp [Stmt.AllMeet, ih]

/-! ## Parts that are never reached -/

mutual

/-- Whether every expression in a statement meets the demands, also one that is never reached. -/
def Stmt.Throughout (d : Demands) : Stmt → Prop
  | .expression e => d.effect e
  | .declare .. => False
  | .ret value _ => d.result value
  | .branch condition body alts _ =>
    d.condition condition ∧ body.Throughout d ∧ alts.Throughout d
  | .block body _ => Stmt.AllThroughout d body
  | .assembly .. => True

/-- Whether every expression in alternatives meets the demands, whatever stands before it. -/
def Alternatives.Throughout (d : Demands) : Alternatives → Prop
  | .none => True
  | .more condition body next _ =>
    (∀ c ∈ condition, d.condition c) ∧ body.Throughout d ∧ next.Throughout d

/-- Whether every expression in a list of statements meets the demands. -/
def Stmt.AllThroughout (d : Demands) : List Stmt → Prop
  | [] => True
  | s :: rest => s.Throughout d ∧ Stmt.AllThroughout d rest

end

end ScriptCompiler
