import ScriptCompiler.Proofs.Lowering
import ScriptCompiler.Proofs.Machine

/-!
# Nested conditionals

Code is scanned with one mark for each conditional that is open: whether its `otherwise` has been
passed. An `otherwise` needs an open conditional without the mark and an `endBranch` an open one.
Code is nested if the scan succeeds and leaves no conditional open. The code of a statement leaves
the marks as it found them; alternatives set the mark of the conditional around them. A machine that
skips counts as the scan does, so nested code is passed over whatever it holds.
-/

set_option autoImplicit false

namespace ScriptCompiler

open List Option

/-- The marks of the open conditionals after an instruction, if it may stand there. -/
def Opcode.nest : Opcode → List Bool → Option (List Bool)
  | .branch, marks => some (false :: marks)
  | .otherwise, false :: marks => some (true :: marks)
  | .otherwise, _ => none
  | .endBranch, _ :: marks => some marks
  | .endBranch, [] => none
  | _, marks => some marks

/-- The marks of the open conditionals after code. -/
def nest (code : Code) (marks : List Bool) : Option (List Bool) :=
  code.foldlM (fun marks i => i.opcode.nest marks) marks

/-- Whether every `otherwise` and `endBranch` of the code belongs to an open conditional, none has
two `otherwise`, and none is left open. -/
def Nested (code : Code) : Prop := nest code [] = some []

instance (code : Code) : Decidable (Nested code) :=
  inferInstanceAs (Decidable (_ = _))

section

variable {a b code : Code} {marks : List Bool}

theorem nest_append (a b : Code) (marks : List Bool) :
    nest (a ++ b) marks = (nest a marks).bind (nest b) :=
  foldlM_append

theorem nest_append_of {marks' : List Bool} (ha : nest a marks = some marks') :
    nest (a ++ b) marks = nest b marks' := by
  rw [nest_append, ha, bind_some]

variable (i : Instruction)

theorem nest_cons (rest : Code) (marks : List Bool) :
    nest (i :: rest) marks = (i.opcode.nest marks).bind (nest rest) :=
  foldlM_cons

theorem nest_singleton (marks : List Bool) : nest [i] marks = i.opcode.nest marks := by simp [nest]

/-- Instructions that open, divide or close nothing keep the marks. -/
theorem Instruction.nest_of_isMark {i : Instruction} {c : Command} (hc : i.command? = some c)
    (hmark : c.isMark = false) (marks : List Bool) : i.opcode.nest marks = some marks := by
  rw [i.opcode_of_command? hc]
  cases c with
  | operate op => cases op <;> rfl
  | branch | otherwise | endBranch => cases hmark
  | _ => rfl

theorem nest_of_isStraight (h : ∀ i ∈ code, i.isStraight = true) (marks : List Bool) :
    nest code marks = some marks := by
  induction code with
  | nil => rfl
  | cons i _ ih =>
    obtain ⟨hi, hrest⟩ := forall_mem_cons.1 h
    obtain ⟨c, hc, hcontrol⟩ := (Option.any_eq_true _ _).1 hi
    have hmark : c.isMark = false := by cases c <;> first | rfl | cases hcontrol
    rw [nest_cons, i.nest_of_isMark hc hmark, bind_some, ih hrest]

/-- A conditional keeps the marks if its first part does and the rest of it is nothing, or an
`otherwise` with a part that does. -/
theorem nest_conditional {test body rest : Code}
    (htest : ∀ marks, nest test marks = some (false :: marks))
    (hbody : ∀ marks, nest body marks = some marks)
    (hrest : rest = [] ∨ ∃ tail, rest = .otherwise :: tail ∧ ∀ marks, nest tail marks = some marks)
    (marks : List Bool) :
    nest (test ++ body ++ rest ++ [Instruction.endBranch]) marks = some marks := by
  rw [append_assoc, append_assoc, nest_append_of (htest marks), nest_append_of (hbody _)]
  rcases hrest with rfl | ⟨tail, rfl, htail⟩
  · rfl
  · have hotherwise : nest [.otherwise] (false :: marks) = some (true :: marks) := rfl
    rw [← singleton_append, append_assoc, nest_append_of hotherwise,
      nest_append_of (htail _)]
    rfl

end

/-! ## Skipped code -/

section

variable {V W : Type} {M : Meaning V W} {p : Program} {m : Method} {c : Control V}
  {code : Code} {marks marks' : List Bool}

theorem Control.isSkipping_iterate (hc : c.isSkipping = true) (n : Nat) :
    (Control.nested^[n] c).isSkipping = true := by
  induction n with
  | zero => exact hc
  | succ _ ih =>
    rw [Function.iterate_succ_apply']
    exact isSkipping_nested ih

/-- A skipping machine counts as many conditionals as there are marks. -/
theorem Opcode.skim_iterate {op : Opcode} (h : op.nest marks = some marks') (c : Control V) :
    op.skim (Control.nested^[marks.length] c) = Control.nested^[marks'.length] c := by
  cases op with
  | branch =>
    cases h
    rw [Control.skim_branch, length_cons, Function.iterate_succ_apply']
  | otherwise =>
    cases marks with
    | nil => cases h
    | cons divided =>
      cases divided with
      | true => cases h
      | false =>
        cases h
        simp only [length_cons, Function.iterate_succ_apply', Control.skim_otherwise_nested]
  | endBranch =>
    cases marks with
    | nil => cases h
    | cons =>
      cases h
      simp only [length_cons, Function.iterate_succ_apply', Control.skim_endBranch_nested]
  | _ =>
    cases h
    cases Control.nested^[marks.length] c <;> rfl

theorem Machine.run_of_nest (hc : c.isSkipping = true) (h : nest code marks = some marks')
    (σ : List (Primitive × V)) (s : Store V W) :
    Machine.run M p m code ⟨σ, s, Control.nested^[marks.length] c⟩ =
      .ok ⟨σ, s, Control.nested^[marks'.length] c⟩ := by
  induction code generalizing marks with
  | nil =>
    cases h
    rfl
  | cons _ _ ih =>
    rw [nest_cons] at h
    obtain ⟨_, hnext, h⟩ := bind_eq_some_iff.1 h
    rw [run_cons, step_skipping (Control.isSkipping_iterate hc _)
      (Opcode.skim_iterate hnext c), ok_bind]
    exact ih h

theorem Nested.skips (h : Nested code) (hc : c.isSkipping = true) : Machine.Skips M p m code c :=
  Machine.run_of_nest hc h

end

/-! ## Lowered code -/

section

variable {p : Program} {returnType : Primitive} {code : Code}

theorem Expr.nest_lowerCondition {e : Expr} (h : e.lowerCondition p = .ok code)
    (marks : List Bool) : nest code marks = some (false :: marks) := by
  have key : ∀ c kind number, (∀ i ∈ c, i.isStraight = true) →
      nest (c ++ [.branch kind number]) marks = some (false :: marks) := by
    intro c kind number hc
    rw [nest_append_of (nest_of_isStraight hc marks), nest_singleton]
    rfl
  rcases lowerCondition_ok h with ⟨c, hc, rfl⟩ | ⟨kind, _, _, _, c, _, -, -, -, hc, rfl⟩
  · exact key c _ _ (isStraight_of_lowerTo hc)
  · exact key c _ _ (isStraight_of_lower _ _ _ hc)

mutual

/-- The code of a statement leaves all marks as they were. -/
theorem Stmt.nest_lower : ∀ (s : Stmt) {code : Code},
    s.lower p returnType = .ok code → ∀ marks, nest code marks = some marks
  | .expression e, code, h, marks => by
    obtain ⟨c, _, hc, rfl⟩ := Stmt.lower_expression_ok h
    have hstraight := nest_of_isStraight (Expr.isStraight_of_lower _ _ _ hc) marks
    split
    · exact hstraight
    · rw [nest_append_of hstraight]
      rfl
  | .declare .., _, h, _ => by cases h
  | .ret none _, code, h, marks => by
    cases h
    rfl
  | .ret (some value) _, code, h, marks => by
    obtain ⟨c, hc, rfl⟩ := Stmt.lower_ret_ok h
    rw [nest_append_of (nest_of_isStraight (Expr.isStraight_of_lowerTo hc) marks)]
    rfl
  | .branch cond body alts _, code, h, marks => by
    obtain ⟨_, _, _, htest, hfirst, hrest, rfl⟩ := Stmt.lower_branch_ok h
    exact nest_conditional (Expr.nest_lowerCondition htest) (Stmt.nest_lower body hfirst)
      (Alternatives.nest_lower alts hrest) marks
  | .block body _, code, h, marks => by
    simp only [Stmt.lower] at h
    exact Stmt.nest_lowerAll body h marks
  | .assembly .., code, h, marks => by
    cases h
    rfl

/-- The code of alternatives is nothing, or an `otherwise` with code that keeps the marks. -/
theorem Alternatives.nest_lower : ∀ (a : Alternatives) {code : Code},
    a.lower p returnType = .ok code →
      code = [] ∨ ∃ tail, code = .otherwise :: tail ∧ ∀ marks, nest tail marks = some marks
  | .none, code, h => by
    cases h
    exact .inl rfl
  | .more none body next _, code, h => by
    obtain ⟨first, hfirst, rfl⟩ := Alternatives.lower_none_ok h
    exact .inr ⟨first, rfl, Stmt.nest_lower body hfirst⟩
  | .more (some cond) body next _, code, h => by
    obtain ⟨_, first, _, htest, hfirst, hrest, rfl⟩ := Alternatives.lower_some_ok h
    -- the conditional of the next condition stands inside the part behind `otherwise`
    exact .inr ⟨_, rfl, nest_conditional (Expr.nest_lowerCondition htest)
      (Stmt.nest_lower body hfirst) (Alternatives.nest_lower next hrest)⟩

theorem Stmt.nest_lowerAll : ∀ (body : List Stmt) {code : Code},
    Stmt.lowerAll p returnType body = .ok code → ∀ marks, nest code marks = some marks
  | [], code, h, marks => by
    cases h
    rfl
  | s :: rest, code, h, marks => by
    obtain ⟨_, _, hfirst, hmore, rfl⟩ := Stmt.lowerAll_cons_ok h
    rw [nest_append_of (Stmt.nest_lower s hfirst marks)]
    exact Stmt.nest_lowerAll rest hmore marks

end

/-- Code put together from pieces that keep the marks is nested. -/
theorem nested_flatten {pieces : List Code}
    (h : ∀ piece ∈ pieces, ∀ marks, nest piece marks = some marks) : Nested pieces.flatten := by
  unfold Nested
  induction pieces with
  | nil => rfl
  | cons piece _ ih =>
    rw [flatten_cons, nest_append_of (h piece mem_cons_self [])]
    exact ih fun other hother => h other (mem_cons_of_mem _ hother)

end

/-! ## Methods and programs -/

theorem Method.nested_pieces (p : Program) (m : Method) : Nested (m.pieces p).flatten := by
  apply nested_flatten
  intro piece hpiece
  obtain ⟨s, -, hs⟩ := mem_filterMap.1 hpiece
  have hlower : s.lower p m.returnType = .ok piece := by
    cases hres : s.lower p m.returnType with
    | error => simp [hres, Except.toOption] at hs
    | ok => simpa [hres, Except.toOption] using hs
  exact Stmt.nest_lower s hlower

/-- The code of a body after evaluation, of a program with or without errors, is nested and put
together from the statements that reach lowering and can be lowered. -/
theorem evaluate_code_nested (scripts : ScriptTable) (files : List SourceFile) {id : MethodId}
    {m : Method} (h : (evaluate scripts files).program.methodAt? id = some m)
    (hext : m.external = false) :
    Nested m.code ∧ ∃ source, (checked scripts files).program.methodAt? id = some source ∧
      m.code = (source.pieces (checked scripts files).program).flatten := by
  rw [evaluate_eq_lower, Evaluation.methodAt?_lower] at h
  obtain ⟨source, hsource, -, rfl⟩ := Method.exists_of_map_bodies h hext
  have hcode := congrArg (·.1.code) (source.lower_eq (checked scripts files).program)
  refine ⟨?_, source, hsource, hcode⟩
  rw [hcode]
  exact Method.nested_pieces _ source

/-- The chain of alternatives in the second method of the small program is nested: two conditionals,
one inside the other. -/
theorem sample_code_nested :
    ∃ m, (evaluate Sample.scripts Sample.files).program.methodAt? 1 = some m ∧
      m.external = false ∧ (m.code.map (·.opcode)).count .branch = 2 ∧ Nested m.code := by
  have hmethod : ((evaluate Sample.scripts Sample.files).program.methodAt? 1).map
      (fun m => (m.external, (m.code.map (·.opcode)).count .branch)) = some (false, 2) := by
    decide +kernel
  obtain ⟨m, hm, hshape⟩ := Option.map_eq_some_iff.1 hmethod
  have hext : m.external = false := congrArg Prod.fst hshape
  have hnested := (evaluate_code_nested Sample.scripts Sample.files hm hext).1
  exact ⟨m, hm, hext, congrArg Prod.snd hshape, hnested⟩

end ScriptCompiler
