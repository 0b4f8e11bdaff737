import ScriptCompiler.Proofs.QueueOrder

/-!
# Statements that a pass leaves out

The *shape* of a statement is the statement without its expressions: what is nested in what, in
which order, with the positions, the assigned names and the texts of assembly. Resolution and
checking keep the shape of a body exactly if they find no error in it. A shape can be read back from
its parts (`Stmt.allParts_inj`), so it is enough to compare those.
-/

set_option autoImplicit false

namespace ScriptCompiler

open List

/-- What stands for an expression in a shape. -/
def Expr.blank : Expr := .literal .null .unknown

/-- The shape of an expression that is a statement. -/
def Expr.shape : Expr → Expr
  | .assign target _ span => .assign { target with slot := none } .blank span
  | e => .literal .null e.span

/-- The shape of a part. -/
def Part.shape : Part → Part
  | .effect e => .effect e.shape
  | .declaration name _ _ span => .effect (.assign ⟨⟨[name]⟩, none, span⟩ .blank span)
  | .result value span => .result (value.map fun _ => .blank) span
  | .condition _ span => .condition .blank span
  | .alternative c span => .alternative (c.map fun _ => .blank) span
  | .mark m => .mark m

mutual

/-- The shape of a statement. -/
def Stmt.shape : Stmt → Stmt
  | .expression e => .expression e.shape
  | .declare name _ _ span => .expression (.assign ⟨⟨[name]⟩, none, span⟩ .blank span)
  | .ret value span => .ret (value.map fun _ => .blank) span
  | .branch _ body alts span => .branch .blank body.shape alts.shape span
  | .block body span => .block (Stmt.allShape body) span
  | .assembly text span => .assembly text span

/-- The shape of alternatives. -/
def Alternatives.shape : Alternatives → Alternatives
  | .none => .none
  | .more condition body next span =>
    .more (condition.map fun _ => .blank) body.shape next.shape span

/-- The shapes of statements. -/
def Stmt.allShape : List Stmt → List Stmt
  | [] => []
  | s :: rest => s.shape :: Stmt.allShape rest

end

/-! ## Shapes and parts -/

mutual

theorem Stmt.parts_shape : ∀ s : Stmt, s.shape.parts = s.parts.map fun x => (x.1, x.2.shape)
  | .expression _ | .declare .. | .ret .. | .assembly .. => by
    simp [Stmt.shape, Stmt.parts, Part.shape]
  | .branch _ body alts _ => by
    simp [Stmt.shape, Stmt.parts, Part.shape, Stmt.parts_shape body,
      Alternatives.parts_shape alts]
  | .block body _ => by simp [Stmt.shape, Stmt.parts, Part.shape, Stmt.allParts_shape body]

theorem Alternatives.parts_shape :
    ∀ a : Alternatives, a.shape.parts = a.parts.map fun x => (x.1, x.2.shape)
  | .none => rfl
  | .more _ body next _ => by
    simp [Alternatives.shape, Alternatives.parts, Part.shape, Stmt.parts_shape body,
      Alternatives.parts_shape next]

theorem Stmt.allParts_shape : ∀ body : List Stmt,
    Stmt.allParts (Stmt.allShape body) = (Stmt.allParts body).map fun x => (x.1, x.2.shape)
  | [] => rfl
  | s :: rest => by
    simp [Stmt.allShape, Stmt.allParts, Stmt.parts_shape s, Stmt.allParts_shape rest]

end

variable {body' body : List Stmt}

/-- Statements have the same shape exactly if their parts have. -/
theorem Stmt.allShape_eq_iff : Stmt.allShape body = Stmt.allShape body' ↔
      (Stmt.allParts body).map (·.2.shape) = (Stmt.allParts body').map (·.2.shape) := by
  have hparts : ∀ body : List Stmt,
      (Stmt.allParts (Stmt.allShape body)).map (·.2) = (Stmt.allParts body).map (·.2.shape) := by
    intro body
    rw [allParts_shape, List.map_map]
    rfl
  rw [← hparts, ← hparts]
  refine ⟨fun h => by rw [h], fun h => (allParts_inj _ _ [] [] ?_).1⟩
  rw [h]

/-- A pass that keeps the shape of the parts that it keeps leaves the shape of the whole as it is
exactly if it has no error. -/
theorem Rewrites.errors_eq_nil_iff {w : Part → Part → Prop} {errors : List EvaluationError}
    (h : Rewrites w errors (Stmt.allParts body) (Stmt.allParts body'))
    (hw : ∀ x y, w x y → y.shape = x.shape) :
    errors = [] ↔ Stmt.allShape body' = Stmt.allShape body := by
  obtain ⟨_, hkept, hrel, hall⟩ := h
  rw [Stmt.allShape_eq_iff, hall]
  constructor
  · intro hlen
    rw [hkept.eq_of_length hlen] at hrel
    have hsame : List.Forall₂ (· = ·) ((Stmt.allParts body').map (·.2.shape))
        ((Stmt.allParts body).map (·.2.shape)) := by
      rw [forall₂_map_left_iff, forall₂_map_right_iff]
      exact hrel.flip.imp fun y x hxy => hw x.2 y.2 hxy.2
    rwa [forall₂_eq_eq_eq] at hsame
  · intro hsame
    have hlen := congrArg List.length hsame
    rw [length_map, length_map] at hlen
    rw [hrel.length_eq, hlen]

/-! ## The passes -/

theorem Expr.shape_lexical {site : Site} {names : NameStack} (e : Expr) :
    ∀ e', e.lexical site names = .ok e' → e'.shape = e.shape := by
  refine lexical_induction (P := fun e e' => e'.shape = e.shape) (fun _ _ => rfl) ?_
    (fun _ _ _ _ _ _ _ _ => rfl) ?_ (fun _ _ _ _ _ _ _ _ _ _ => rfl) (fun _ _ _ _ _ => rfl) e
  · intro _ _ huse
    obtain ⟨_, slot, -, rfl⟩ := NameUse.lexical_ok huse
    rfl
  · intro _ _ _ _ _ htarget _
    obtain ⟨_, slot, -, rfl⟩ := NameUse.lexical_ok htarget
    rfl

theorem Part.Resolved.shape_eq {site : Site} {slots : Int → Option Primitive} {x y : Part}
    (h : Part.Resolved site slots x y) : y.shape = x.shape := by
  have hoption : ∀ {names : NameStack} {v v' : Option Expr},
      Expr.lexicalOption site names v = .ok v' →
      (v'.map fun _ => Expr.blank) = v.map fun _ => Expr.blank := by
    intro names v v' h
    cases v with
    | none =>
      cases h
      rfl
    | some =>
      obtain ⟨_, -, rfl⟩ := Except.map_eq_ok_iff.1 h
      rfl
  cases h with
  | effect _ h => exact congrArg Part.effect (Expr.shape_lexical _ _ h)
  | declaration => rfl
  | result _ h => exact congrArg (Part.result · _) (hoption h)
  | condition => rfl
  | alternative _ h => exact congrArg (Part.alternative · _) (hoption h)
  | mark => rfl

theorem Expr.shape_check {p : Program} {e e' : Expr} (h : (e.check p).outcome = .ok e') :
    e'.shape = e.shape := by
  refine check_induction (P := fun e e' => e'.shape = e.shape) ?_ ?_ ?_ ?_ ?_ ?_ e e' h
  all_goals
    intros
    rfl

theorem Part.Checked.shape_eq {p : Program} {m : Method} {x y : Part}
    (h : Part.Checked p m x y) : y.shape = x.shape := by
  cases h with
  | effect h => exact congrArg Part.effect (Expr.shape_check h)
  | result h =>
    rcases Method.checkReturn_ok h with ⟨rfl, rfl, -⟩ | ⟨_, _, _, rfl, rfl, -⟩
    · rfl
    · rfl
  | condition | alternative | otherwise | mark => rfl

namespace Evaluation

/-- Whether a sweep accounts for the statements that it leaves out: it finds no error in a method
exactly if it keeps the shape of the body, the method belongs to a script of the table, and each
script gets the errors that are found in its own methods, and no others. -/
structure Accounts (find : Program → Method → Findings) (s s' : Evaluation) : Prop where
  shapes : ∀ id m, s.program.methodAt? id = some m → m.external = false →
    ∃ m', s'.program.methodAt? id = some m' ∧
      ((find s.program m).errors = [] ↔ Stmt.allShape m'.statements = Stmt.allShape m.statements)
  owners : ∀ m ∈ s.program.methods, ∃ script, s.scripts.get? m.script = some script
  reports : ∀ k, (s'.scripts.get? k).map (·.errors) = (s.scripts.get? k).map fun script =>
    script.errors ++ ((s.program.methods.filter (·.script = k)).flatMap fun m =>
      (find s.program m).errors).map .evaluation

/-- A sweep accounts for what it leaves out if the work on each method does. -/
theorem Sweep.accounts {work : Program → Method → Method} {find : Program → Method → Findings}
    {s s' : Evaluation} (h : Sweep work find s s')
    (howners : ∀ m ∈ s.program.methods, ∃ script, s.scripts.get? m.script = some script)
    (hscript : ∀ m, (find s.program m).script = m.script)
    (hshapes : ∀ m : Method, m.external = false → ((find s.program m).errors = [] ↔
      Stmt.allShape (work s.program m).statements = Stmt.allShape m.statements)) :
    Accounts find s s' where
  shapes id m hid hext := by
    refine ⟨work s.program m, ?_, hshapes m hext⟩
    rw [h.methodAt?, hid, Option.map_some, hext]
    rfl
  owners := howners
  reports k := by
    rw [h.scripts, ScriptTable.get?_foldl_record, Option.map_map, List.filter_map, flatMap_map]
    simp only [Function.comp_def, hscript]
    rfl

end Evaluation

/-- No statement is lost without an error. If the files name scripts of the table, resolution and
checking account for all that they leave out of the bodies of the methods. -/
theorem passes_account (scripts : ScriptTable) (files : List SourceFile)
    (hreg : ∀ f ∈ files, f.script < scripts.scripts.length) :
    Evaluation.Accounts Method.resolveFindings (({ scripts } : Evaluation).declare files)
        (resolved scripts files) ∧
      Evaluation.Accounts Method.checkFindings (resolved scripts files) (checked scripts files) := by
  obtain ⟨-, hmethod, hmethod'⟩ := script_lt_of_declared hreg
  have hdeclared : ∀ k < scripts.scripts.length, ∃ script,
      (({ scripts } : Evaluation).declare files).scripts.get? k = some script := by
    intro k hk
    rw [(Evaluation.declare_tracks scripts files).scripts, ScriptTable.get?_foldl_record,
      ScriptTable.get?, List.getElem?_eq_getElem hk]
    exact ⟨_, rfl⟩
  have hresolved : ∀ k < scripts.scripts.length, ∃ script,
      (resolved scripts files).scripts.get? k = some script := by
    intro k hk
    obtain ⟨script, hscript⟩ := hdeclared k hk
    rw [resolved, (Evaluation.sweep_resolve _).scripts, ScriptTable.get?_foldl_record, hscript]
    exact ⟨_, rfl⟩
  constructor
  · refine (Evaluation.sweep_resolve _).accounts (fun m hm => hdeclared _ (hmethod m hm))
      (fun _ => rfl) fun m hext => ?_
    rw [Method.resolveFindings, hext]
    exact (m.resolve_rewrites _).1.errors_eq_nil_iff fun _ _ h => h.shape_eq
  · refine (Evaluation.sweep_check _).accounts (fun m hm => hresolved _ (hmethod' m hm))
      (fun _ => rfl) fun m hext => ?_
    rw [Method.checkFindings, hext]
    exact (m.check_rewrites _).errors_eq_nil_iff fun _ _ h => h.shape_eq

/-- A body that calls a method nobody declares does not keep its shape. -/
theorem passes_account_faulty : ∃ m m', (({ scripts := Sample.scripts } : Evaluation).declare
        Sample.faultyFiles).program.methodAt? 0 = some m ∧
      (resolved Sample.scripts Sample.faultyFiles).program.methodAt? 0 = some m' ∧
      Stmt.allShape m'.statements ≠ Stmt.allShape m.statements := by
  have hfound : ((({ scripts := Sample.scripts } : Evaluation).declare
      Sample.faultyFiles).program.methodAt? 0).map (fun m => (m.external,
        (m.resolveFindings (({ scripts := Sample.scripts } : Evaluation).declare
          Sample.faultyFiles).program).errors.length)) = some (false, 1) := by decide +kernel
  obtain ⟨m, hm, hfields⟩ := Option.map_eq_some_iff.1 hfound
  obtain ⟨hext, hlen⟩ := Prod.mk.inj hfields
  obtain ⟨m', hm', hiff⟩ :=
    (passes_account Sample.scripts Sample.faultyFiles (by decide)).1.shapes 0 m hm hext
  refine ⟨m, m', hm, hm', fun hsame => ?_⟩
  rw [hiff.2 hsame] at hlen
  cases hlen

end ScriptCompiler
