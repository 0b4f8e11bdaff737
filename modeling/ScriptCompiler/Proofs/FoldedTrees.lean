import ScriptCompiler.Proofs.Parts
import ScriptCompiler.Proofs.Results

/-!
# Folded trees

An operation whose folded operands are literals is replaced by its result where it has one, and kept
otherwise; nothing else is changed. This is said once, as an induction over the expression together
with what it is folded to (`Expr.fold_induction`). Statements are folded part by part
(`Stmt.parts_fold`), so they have the properties of their expressions.
-/

set_option autoImplicit false

namespace ScriptCompiler

open List Option

variable {r : RealArithmetic}

/-- Whether an expression is an operation between two literals that has a result. -/
def Expr.isReducible (r : RealArithmetic) : Expr → Bool
  | .binary op (.literal a _) (.literal b _) _ => (op.foldLiterals? r a b).isSome
  | _ => false

/-- Whether the second expression is the first one with operations between literals replaced by
their results. -/
inductive Expr.Folds (r : RealArithmetic) : Expr → Expr → Prop
  | literal (value : Literal) (span : Span) : Folds r (.literal value span) (.literal value span)
  | name (use : NameUse) : Folds r (.name use) (.name use)
  /-- The result stands where the operation stood. -/
  | reduced {op : BinaryOp} {left right : Expr} {a b value : Literal} {span sa sb : Span} :
      Folds r left (.literal a sa) → Folds r right (.literal b sb) →
      op.foldLiterals? r a b = some value →
      Folds r (.binary op left right span) (.literal value span)
  | kept {op : BinaryOp} {left left' right right' : Expr} {span : Span} :
      Folds r left left' → Folds r right right' →
      Folds r (.binary op left right span) (.binary op left' right' span)
  | assign {target : NameUse} {value value' : Expr} {span : Span} :
      Folds r value value' → Folds r (.assign target value span) (.assign target value' span)
  | call {target : DottedName} {args args' : List Expr} {method : Option MethodId}
      {span : Span} : List.Forall₂ (Folds r) args args' →
      Folds r (.call target args method span) (.call target args' method span)
  | cast {operand operand' : Expr} {type : Primitive} {span : Span} :
      Folds r operand operand' → Folds r (.cast operand type span) (.cast operand' type span)

/-! ## What is folded -/

theorem Expr.foldAll_eq_map (r : RealArithmetic) (es : List Expr) :
    Expr.foldAll r es = es.map (Expr.fold r) := by
  induction es with
  | nil => rfl
  | cons _ _ ih => rw [Expr.foldAll, ih, map_cons]

theorem Expr.exists_of_literal? {e : Expr} {value : Literal} (h : e.literal? = some value) :
    ∃ span, e = .literal value span := by
  cases e with
  | literal _ span => exact ⟨span, congrArg (Expr.literal · span) (some.inj h)⟩
  | _ => cases h

/-- An operation between folded operands has a result, or it cannot be reduced and is kept. -/
theorem Expr.foldBinary_cases (op : BinaryOp) (left right : Expr) (span : Span) :
    (∃ a sa b sb value, left = .literal a sa ∧ right = .literal b sb ∧
      op.foldLiterals? r a b = some value ∧
      Expr.foldBinary r op left right span = .literal value span) ∨
    (Expr.binary op left right span).isReducible r = false ∧
      Expr.foldBinary r op left right span = .binary op left right span := by
  unfold Expr.foldBinary
  cases hl : left.literal? with
  | none =>
    refine .inr ⟨?_, rfl⟩
    cases left <;> first | rfl | cases hl
  | some a =>
    obtain ⟨sa, rfl⟩ := exists_of_literal? hl
    cases hr : right.literal? with
    | none =>
      refine .inr ⟨?_, rfl⟩
      cases right <;> first | rfl | cases hr
    | some b =>
      obtain ⟨sb, rfl⟩ := exists_of_literal? hr
      dsimp only
      cases hfold : op.foldLiterals? r a b with
      | none => exact .inr ⟨congrArg Option.isSome hfold, rfl⟩
      | some value => exact .inl ⟨a, sa, b, sb, value, rfl, rfl, hfold, rfl⟩

/-- What holds of expressions and what they are folded to, if it holds of every operation that is
reduced, of every one that is kept, and of the other expressions, given that it holds of the parts. -/
theorem Expr.fold_induction {P : Expr → Expr → Prop} (r : RealArithmetic)
    (literal : ∀ value span, P (.literal value span) (.literal value span))
    (name : ∀ use, P (.name use) (.name use))
    (reduced : ∀ op left right span a sa b sb value, P left (.literal a sa) →
      P right (.literal b sb) → op.foldLiterals? r a b = some value →
      P (.binary op left right span) (.literal value span))
    (kept : ∀ op left left' right right' span, P left left' → P right right' →
      (Expr.binary op left' right' span).isReducible r = false →
      P (.binary op left right span) (.binary op left' right' span))
    (assign : ∀ target value value' span, P value value' →
      P (.assign target value span) (.assign target value' span))
    (call : ∀ target args method span, (∀ a ∈ args, P a (a.fold r)) →
      P (.call target args method span) (.call target (args.map (Expr.fold r)) method span))
    (cast : ∀ operand operand' type span, P operand operand' →
      P (.cast operand type span) (.cast operand' type span)) (e : Expr) : P e (e.fold r) := by
  induction e with
  | literal value span => exact literal value span
  | name use => exact name use
  | binary op left right span hl hr =>
    rw [Expr.fold]
    rcases foldBinary_cases op (left.fold r) (right.fold r) span with
      ⟨a, sa, b, sb, value, ha, hb, hvalue, hfold⟩ | ⟨hkept, hfold⟩
    · rw [ha] at hl
      rw [hb] at hr
      rw [hfold]
      exact reduced op left right span a sa b sb value hl hr hvalue
    · rw [hfold]
      exact kept op left _ right _ span hl hr hkept
  | assign target value span hv => exact assign target value _ span hv
  | call target args method span hargs =>
    rw [Expr.fold, foldAll_eq_map]
    exact call target args method span hargs
  | cast operand type span ho => exact cast operand _ type span ho

/-- Folding changes nothing but operations that are reduced. -/
theorem Expr.folds_fold (r : RealArithmetic) (e : Expr) : e.Folds r (e.fold r) := by
  refine fold_induction r .literal .name ?_ ?_ ?_ ?_ ?_ e
  · intro op left right span _ _ _ _ value hl hr hvalue
    exact .reduced hl hr hvalue
  · intro op left _ right _ span hl hr _
    exact .kept hl hr
  · intro target value _ span hv
    exact .assign hv
  · intro target _ _ span hargs
    exact .call (forall₂_map_right_iff.2 (forall₂_same.2 hargs))
  · intro _ _ _ span ho
    exact .cast ho

/-! ## Nothing is left to reduce -/

mutual

/-- An expression and all expressions in it. -/
def Expr.nested : Expr → List Expr
  | .literal value span => [.literal value span]
  | .name use => [.name use]
  | .binary op left right span => .binary op left right span :: (left.nested ++ right.nested)
  | .assign target value span => .assign target value span :: value.nested
  | .call target args method span =>
    .call target args method span :: Expr.nestedAll args
  | .cast operand type span => .cast operand type span :: operand.nested

/-- Expressions and all expressions in them. -/
def Expr.nestedAll : List Expr → List Expr
  | [] => []
  | e :: rest => e.nested ++ Expr.nestedAll rest

end

theorem Expr.nestedAll_eq_flatMap (es : List Expr) : Expr.nestedAll es = es.flatMap Expr.nested := by
  induction es with
  | nil => rfl
  | cons _ _ ih => rw [Expr.nestedAll, ih, flatMap_cons]

theorem Expr.isReducible_of_mem_nested (r : RealArithmetic) (e : Expr) :
    ∀ n ∈ (e.fold r).nested, n.isReducible r = false := by
  refine fold_induction (P := fun _ f => ∀ n ∈ f.nested, n.isReducible r = false) r
    ?_ ?_ ?_ ?_ ?_ ?_ ?_ e
  · intro value span
    exact forall_mem_singleton.2 rfl
  · intro _
    exact forall_mem_singleton.2 rfl
  · intro op left right span a _ _ _ value _ _ _
    exact forall_mem_singleton.2 rfl
  · intro op left _ right _ span hl hr hkept
    exact forall_mem_cons.2 ⟨hkept, forall_mem_append.2 ⟨hl, hr⟩⟩
  · intro target value _ span hv
    exact forall_mem_cons.2 ⟨rfl, hv⟩
  · intro target _ _ span hargs
    refine forall_mem_cons.2 ⟨rfl, ?_⟩
    rw [nestedAll_eq_flatMap]
    intro n hn
    obtain ⟨f, hf, hn⟩ := mem_flatMap.1 hn
    obtain ⟨a, ha, rfl⟩ := List.mem_map.1 hf
    exact hargs a ha n hn
  · intro _ _ _ span ho
    exact forall_mem_cons.2 ⟨rfl, ho⟩

/-- Operands that folding leaves alone, in an operation that cannot be reduced. -/
theorem Expr.foldBinary_of_isReducible {op : BinaryOp} {left right : Expr} {span : Span}
    (h : (Expr.binary op left right span).isReducible r = false) :
    Expr.foldBinary r op left right span = .binary op left right span := by
  rcases foldBinary_cases op left right span with ⟨_, _, _, _, _, rfl, rfl, hvalue, -⟩ | h'
  · rw [Expr.isReducible, hvalue] at h
    cases h
  · exact h'.2

theorem Expr.fold_fold (r : RealArithmetic) (e : Expr) : (e.fold r).fold r = e.fold r := by
  refine fold_induction (P := fun _ f => f.fold r = f) r ?_ ?_ ?_ ?_ ?_ ?_ ?_ e
  · exact fun _ _ => rfl
  · exact fun _ => rfl
  · exact fun _ _ _ _ _ _ _ _ _ _ _ _ => rfl
  · intro _ _ _ _ _ span hl hr hkept
    rw [Expr.fold, hl, hr, foldBinary_of_isReducible hkept]
  · intro target _ _ span hv
    rw [Expr.fold, hv]
  · intro target _ method span hargs
    rw [Expr.fold, foldAll_eq_map, List.map_map]
    exact congrArg (Expr.call target · method span) (map_congr_left hargs)
  · intro _ _ _ span ho
    rw [Expr.fold, ho]

/-! ## Results -/

section

variable {op : BinaryOp} {a b value : Literal} (h : op.foldLiterals? r a b = some value)
include h

/-- Two integers are folded as integers, all other numbers as floats. -/
theorem foldLiterals?_cases :
    (∃ m n k, a = .integer m ∧ b = .integer n ∧ op.foldIntegers? m n = some k ∧
      value = .integer k) ∨
    (¬∃ m n, a = .integer m ∧ b = .integer n) ∧ ∃ x y z, a.real? r = some x ∧ b.real? r = some y ∧
      op.foldReals? r x y = some z ∧ value = .real z := by
  unfold BinaryOp.foldLiterals? at h
  split at h
  · obtain ⟨k, hk, rfl⟩ := map_eq_some_iff.1 h
    exact .inl ⟨_, _, k, rfl, rfl, hk, rfl⟩
  · rename_i hboth
    refine .inr ⟨?_, ?_⟩
    · rintro ⟨m, n, ha, hb⟩
      exact hboth m n ha hb
    · split at h
      · rename_i x y hx hy
        obtain ⟨z, hz, rfl⟩ := map_eq_some_iff.1 h
        exact ⟨x, y, z, hx, hy, hz, rfl⟩
      · cases h

theorem isComparison_of_foldLiterals? : op.isComparison = false := by
  cases op with
  | add | sub | mul | div | rem => rfl
  | equal | notEqual => cases a <;> cases b <;> cases h

theorem type_of_foldLiterals? (span : Span) :
    (a.type.common b.type span >>= fun common => op.resultType common span) = .ok value.type := by
  have hres : ∀ t : Primitive, t.isNumeric = true → op.resultType t span = .ok t := by
    intro t ht
    rw [BinaryOp.resultType, isComparison_of_foldLiterals? h, if_neg Bool.false_ne_true, if_pos ht]
  rcases foldLiterals?_cases h with ⟨_, _, _, rfl, rfl, -, rfl⟩ | ⟨hboth, _, _, _, hx, hy, -, rfl⟩
  · exact hres .number rfl
  · -- a float makes the type that of floats, whichever operand it is
    cases a <;> cases hx <;> cases b <;> cases hy
    · exact absurd ⟨_, _, rfl, rfl⟩ hboth
    all_goals exact hres .floating rfl

end

/-! ## Types -/

theorem Expr.typeIn_fold (r : RealArithmetic) (p : Program) (e : Expr) :
    (e.fold r).typeIn p = e.typeIn p := by
  refine fold_induction (P := fun e f => f.typeIn p = e.typeIn p) r ?_ ?_ ?_ ?_ ?_ ?_ ?_ e
  · exact fun _ _ => rfl
  · exact fun _ => rfl
  · intro op left right span _ _ _ _ _ hl hr hvalue
    rw [Expr.typeIn, Expr.typeIn, ← hl, ← hr, Expr.typeIn, Expr.typeIn, ok_bind, ok_bind,
      type_of_foldLiterals? hvalue]
  · intro op left _ right _ span hl hr _
    rw [Expr.typeIn, Expr.typeIn, hl, hr]
  · exact fun _ _ _ _ _ => rfl
  · exact fun _ _ _ _ _ => rfl
  · exact fun _ _ _ _ _ => rfl

/-! ## Statements -/

/-- A part with its expressions replaced. -/
def Part.map (f : Expr → Expr) : Part → Part
  | .effect e => .effect (f e)
  | .declaration name type initial span => .declaration name type (initial.map f) span
  | .result value span => .result (value.map f) span
  | .condition e span => .condition (f e) span
  | .alternative c span => .alternative (c.map f) span
  | .mark m => .mark m

theorem Part.expressions_map (f : Expr → Expr) (x : Part) :
    (x.map f).expressions = x.expressions.map f := by
  cases x with
  | declaration _ _ e _ | result e _ | alternative e _ => cases e <;> rfl
  | _ => rfl

theorem Part.map_map (f g : Expr → Expr) (x : Part) : (x.map f).map g = x.map (g ∘ f) := by
  cases x with
  | declaration _ _ e _ | result e _ | alternative e _ => cases e <;> rfl
  | _ => rfl

mutual

theorem Stmt.parts_fold (r : RealArithmetic) :
    ∀ s : Stmt, (s.fold r).parts = s.parts.map fun x => (x.1, x.2.map (Expr.fold r))
  | .expression _ | .declare .. | .ret .. | .assembly .. => rfl
  | .branch _ body alts _ => by
    simp [Stmt.fold, Stmt.parts, Part.map, Stmt.parts_fold r body,
      Alternatives.parts_fold r alts]
  | .block body _ => by simp [Stmt.fold, Stmt.parts, Part.map, Stmt.allParts_fold r body]

theorem Alternatives.parts_fold (r : RealArithmetic) :
    ∀ a : Alternatives, (a.fold r).parts = a.parts.map fun x => (x.1, x.2.map (Expr.fold r))
  | .none => rfl
  | .more _ body next _ => by
    simp [Alternatives.fold, Alternatives.parts, Part.map, Stmt.parts_fold r body,
      Alternatives.parts_fold r next]

theorem Stmt.allParts_fold (r : RealArithmetic) : ∀ body : List Stmt,
    Stmt.allParts (Stmt.foldAll r body) =
      (Stmt.allParts body).map fun x => (x.1, x.2.map (Expr.fold r))
  | [] => rfl
  | s :: rest => by
    simp [Stmt.foldAll, Stmt.allParts, Stmt.parts_fold r s, Stmt.allParts_fold r rest]

end

/-- All expressions in a statement, at every depth. -/
def Stmt.expressions (s : Stmt) : List Expr :=
  s.parts.flatMap fun x => x.2.expressions.flatMap Expr.nested

theorem Stmt.fold_fold (r : RealArithmetic) (s : Stmt) : (s.fold r).fold r = s.fold r := by
  have htwice : Expr.fold r ∘ Expr.fold r = Expr.fold r := funext (Expr.fold_fold r)
  have hparts : ((s.fold r).fold r).parts = (s.fold r).parts := by
    simp only [parts_fold, List.map_map, Function.comp_def, Part.map_map]
    rw [← Function.comp_def, htwice]
  exact (parts_inj _ _ [] [] (by rw [hparts])).1

/-- Folding is complete: in a folded statement no operation between literals, at any depth, has a
result. Folding it again changes nothing, it has the parts of the statement with their expressions
folded, and in a folded expression only operations are replaced, by their results. The type of every
expression stays, or the fault that it has none. -/
theorem folding_complete (r : RealArithmetic) :
    (∀ s : Stmt, (s.fold r).expressions.any (Expr.isReducible r) = false ∧
      (s.fold r).fold r = s.fold r ∧
      (s.fold r).parts = s.parts.map fun x => (x.1, x.2.map (Expr.fold r))) ∧
    (∀ e : Expr, e.Folds r (e.fold r)) ∧
    ∀ (p : Program) (e : Expr), (e.fold r).typeIn p = e.typeIn p := by
  refine ⟨fun s => ⟨?_, s.fold_fold r, s.parts_fold r⟩, Expr.folds_fold r, Expr.typeIn_fold r⟩
  rw [List.any_eq_false, Stmt.expressions, Stmt.parts_fold]
  intro n hn
  obtain ⟨_, hy, hn⟩ := List.mem_flatMap.1 hn
  obtain ⟨x, -, rfl⟩ := List.mem_map.1 hy
  rw [Part.expressions_map] at hn
  obtain ⟨_, hf, hn⟩ := List.mem_flatMap.1 hn
  obtain ⟨e, -, rfl⟩ := List.mem_map.1 hf
  exact Bool.eq_false_iff.1 (Expr.isReducible_of_mem_nested r e n hn)

end ScriptCompiler
