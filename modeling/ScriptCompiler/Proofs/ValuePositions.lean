import ScriptCompiler.Proofs.Checking

/-!
# Value positions

An operand, an argument, an assigned or returned value, the operand of a cast and a condition stand
for their value. `Expr.pushes` tells whether an expression leaves one, and `Expr.complete` whether
every value position inside it holds an expression that does. A program is value-clean if
assignments are whole statements, calls in value position return a value of a concrete type, and
casts go to such types. Checking turns clean trees into complete ones.
-/

set_option autoImplicit false

namespace ScriptCompiler

/-! ## Clean trees -/

mutual

/-- Whether an expression in value position is clean: no assignment in it, calls return and casts go
to concrete types other than `void`. -/
def Expr.isClean (p : Program) : Expr → Bool
  | .literal .. => true
  | .name _ => true
  | .binary _ left right _ => left.isClean p && right.isClean p
  | .assign .. => false
  | .call _ args method _ =>
    (method.bind p.methodAt?).any (fun m => m.returnType.isConcreteValue)
      && Expr.areClean p args
  | .cast operand type _ => operand.isClean p && type.isConcreteValue

/-- Whether expressions in value position are clean. -/
def Expr.areClean (p : Program) : List Expr → Bool
  | [] => true
  | e :: rest => e.isClean p && Expr.areClean p rest

end

/-- Whether an expression that is a whole statement is clean: an assignment or a call may stand
here whatever it yields. -/
def Expr.isCleanEffect (p : Program) : Expr → Bool
  | .assign _ value _ => value.isClean p
  | .call _ args _ _ => Expr.areClean p args
  | e => e.isClean p

/-- Clean expressions in all places of a statement. -/
def Demands.clean (p : Program) : Demands where
  effect e := e.isCleanEffect p = true
  condition e := e.isClean p = true
  result v := ∀ e ∈ v, e.isClean p = true

/-- Whether all bodies of a resolved program are clean. -/
def Program.ValueClean (p : Program) : Prop :=
  ∀ m ∈ p.methods, m.external = false → Stmt.AllMeet (.clean p) m.statements

instance (p : Program) : Decidable p.ValueClean :=
  inferInstanceAs (Decidable (∀ m ∈ p.methods, m.external = false → Stmt.AllMeet (.mk _ _ _) _))

/-! ## Complete trees -/

/-- Whether the expression leaves a value. -/
def Expr.pushes (p : Program) : Expr → Bool
  | .literal .. => true
  | .name _ => true
  | .binary .. => true
  | .assign .. => false
  | .call _ _ method _ => (method.bind p.methodAt?).any fun m => m.returnType != .void
  | .cast operand type _ => type != .void || operand.pushes p

mutual

/-- Whether every value position inside the expression holds one that leaves a value. -/
def Expr.complete (p : Program) : Expr → Bool
  | .literal .. => true
  | .name _ => true
  | .binary _ left right _ =>
    (left.complete p && left.pushes p) && (right.complete p && right.pushes p)
  | .assign _ value _ => value.complete p && value.pushes p
  | .call _ args _ _ => Expr.allComplete p args
  | .cast operand type _ => operand.complete p && (type == .void || operand.pushes p)

/-- Whether expressions leave values and are complete. -/
def Expr.allComplete (p : Program) : List Expr → Bool
  | [] => true
  | e :: rest => (e.complete p && e.pushes p) && Expr.allComplete p rest

end

mutual

/-- Whether nothing in the expression is cast to `void`. -/
def Expr.voidFree : Expr → Bool
  | .literal .. => true
  | .name _ => true
  | .binary _ left right _ => left.voidFree && right.voidFree
  | .assign _ value _ => value.voidFree
  | .call _ args _ _ => Expr.allVoidFree args
  | .cast operand type _ => operand.voidFree && type != .void

/-- Whether nothing in the expressions is cast to `void`. -/
def Expr.allVoidFree : List Expr → Bool
  | [] => true
  | e :: rest => e.voidFree && Expr.allVoidFree rest

end

/-- Whether a value stays behind when the expression is a statement: what is cast to `void` is not
dropped. -/
def Expr.leaks (p : Program) : Expr → Bool
  | .cast operand type _ => type == .void && operand.pushes p
  | _ => false

theorem Expr.leaks_of_voidFree (p : Program) {e : Expr} (h : e.voidFree = true) :
    e.leaks p = false := by
  cases e with
  | cast =>
    simp only [Expr.voidFree, Bool.and_eq_true, bne_iff_ne] at h
    simp [Expr.leaks, h.2]
  | _ => rfl

variable {es : List Expr} {p : Program}

theorem Expr.areClean_iff : Expr.areClean p es = true ↔ ∀ e ∈ es, e.isClean p = true := by
  induction es with
  | nil => simp [Expr.areClean]
  | cons _ _ ih => simp [Expr.areClean, ih]

theorem Expr.allComplete_iff :
    Expr.allComplete p es = true ↔ ∀ e ∈ es, e.complete p = true ∧ e.pushes p = true := by
  induction es with
  | nil => simp [Expr.allComplete]
  | cons _ _ ih => simp [Expr.allComplete, ih]

theorem Expr.allVoidFree_iff : Expr.allVoidFree es = true ↔ ∀ e ∈ es, e.voidFree = true := by
  induction es with
  | nil => simp [Expr.allVoidFree]
  | cons _ _ ih => simp [Expr.allVoidFree, ih]

/-! ## The outline decides -/

theorem Expr.pushes_outline (p : Program) (e : Expr) : e.pushes p.outline = e.pushes p := by
  induction e with
  | literal => rfl
  | name => rfl
  | binary => rfl
  | assign => rfl
  | call _ _ method =>
    simp only [Expr.pushes, Program.bind_methodAt?_outline]
    cases method.bind p.methodAt? <;> rfl
  | cast _ _ _ ho => simp only [Expr.pushes, ho]

theorem Expr.complete_outline (p : Program) (e : Expr) : e.complete p.outline = e.complete p := by
  induction e with
  | literal => rfl
  | name => rfl
  | binary _ _ _ _ hl hr => simp only [Expr.complete, pushes_outline, hl, hr]
  | assign _ _ _ hv => simp only [Expr.complete, pushes_outline, hv]
  | call _ _ _ _ hargs =>
    simp only [Expr.complete]
    rw [Bool.eq_iff_iff, allComplete_iff, allComplete_iff]
    exact forall₂_congr fun a ha => by rw [hargs a ha, pushes_outline]
  | cast _ _ _ ho => simp only [Expr.complete, pushes_outline, ho]

/-! ## Whole trees

A complete tree with no cast to `void` is whole. In value position it also leaves a value. -/

/-- A complete tree with no cast to `void`. -/
structure Expr.Whole (p : Program) (e : Expr) : Prop where
  complete : e.complete p = true
  voidFree : e.voidFree = true

/-- A whole tree that leaves a value. -/
structure Expr.Valued (p : Program) (e : Expr) : Prop extends Expr.Whole p e where
  pushes : e.pushes p = true

section

variable {p q : Program} {e : Expr} {span : Span}

theorem Expr.Whole.congr (h : e.Whole p) (hp : p.outline = q.outline) : e.Whole q where
  complete := by
    rw [← complete_outline, ← hp, complete_outline]
    exact h.complete
  voidFree := h.voidFree

theorem Expr.Valued.congr (h : e.Valued p) (hp : p.outline = q.outline) : e.Valued q where
  toWhole := h.toWhole.congr hp
  pushes := by
    rw [← pushes_outline, ← hp, pushes_outline]
    exact h.pushes

theorem Expr.valued_literal (value : Literal) (span : Span) : (Expr.literal value span).Valued p :=
  ⟨⟨rfl, rfl⟩, rfl⟩

theorem Expr.valued_name (use : NameUse) : (Expr.name use).Valued p := ⟨⟨rfl, rfl⟩, rfl⟩

theorem Expr.whole_binary_iff {op : BinaryOp} {left right : Expr} :
    (Expr.binary op left right span).Whole p ↔ left.Valued p ∧ right.Valued p := by
  constructor
  · rintro ⟨hc, hv⟩
    simp only [Expr.complete, Expr.voidFree, Bool.and_eq_true] at hc hv
    exact ⟨⟨⟨hc.1.1, hv.1⟩, hc.1.2⟩, ⟨⟨hc.2.1, hv.2⟩, hc.2.2⟩⟩
  · rintro ⟨hl, hr⟩
    exact ⟨by simp [Expr.complete, hl.complete, hl.pushes, hr.complete, hr.pushes],
      by simp [Expr.voidFree, hl.voidFree, hr.voidFree]⟩

theorem Expr.whole_assign_iff {target : NameUse} {value : Expr} :
    (Expr.assign target value span).Whole p ↔ value.Valued p := by
  constructor
  · rintro ⟨hc, hv⟩
    simp only [Expr.complete, Expr.voidFree, Bool.and_eq_true] at hc hv
    exact ⟨⟨hc.1, hv⟩, hc.2⟩
  · intro h
    exact ⟨by simp [Expr.complete, h.complete, h.pushes], h.voidFree⟩

theorem Expr.whole_call_iff {target : DottedName} {args : List Expr} {method : Option MethodId}
    : (Expr.call target args method span).Whole p ↔ ∀ a ∈ args, a.Valued p := by
  constructor
  · rintro ⟨hc, hv⟩ a ha
    simp only [Expr.complete, Expr.voidFree, allComplete_iff, allVoidFree_iff] at hc hv
    exact ⟨⟨(hc a ha).1, hv a ha⟩, (hc a ha).2⟩
  · intro h
    refine ⟨allComplete_iff.2 ?_, allVoidFree_iff.2 ?_⟩
    · intro a ha
      exact ⟨(h a ha).complete, (h a ha).pushes⟩
    · intro a ha
      exact (h a ha).voidFree

variable {type : Primitive} {operand : Expr}

theorem Expr.whole_cast_iff :
    (Expr.cast operand type span).Whole p ↔ operand.Valued p ∧ type ≠ .void := by
  constructor
  · rintro ⟨hc, hv⟩
    simp only [Expr.complete, Expr.voidFree, Bool.and_eq_true, Bool.or_eq_true, beq_iff_eq,
      bne_iff_ne] at hc hv
    exact ⟨⟨⟨hc.1, hv.1⟩, hc.2.resolve_left hv.2⟩, hv.2⟩
  · rintro ⟨ho, ht⟩
    exact ⟨by simp [Expr.complete, ho.complete, ho.pushes],
      by simp [Expr.voidFree, ho.voidFree, ht]⟩

theorem Expr.Whole.valued_cast (h : (Expr.cast operand type span).Whole p) :
    (Expr.cast operand type span).Valued p :=
  ⟨h, by simp [Expr.pushes, (whole_cast_iff.1 h).2]⟩

theorem Expr.valued_of_isClean (h : e.isClean p = true) : e.Valued p := by
  induction e with
  | literal value span => exact valued_literal value span
  | name use => exact valued_name use
  | binary _ _ _ _ hl hr =>
    simp only [Expr.isClean, Bool.and_eq_true] at h
    exact ⟨whole_binary_iff.2 ⟨hl h.1, hr h.2⟩, rfl⟩
  | assign => cases h
  | call _ _ method _ hargs =>
    simp only [Expr.isClean, Bool.and_eq_true, areClean_iff] at h
    refine ⟨whole_call_iff.2 fun a ha => hargs a ha (h.2 a ha), ?_⟩
    simp only [Expr.pushes]
    cases hc : method.bind p.methodAt? with
    | none =>
      rw [hc] at h
      cases h.1
    | some =>
      rw [hc] at h
      simp only [Option.any_some, Primitive.isConcreteValue, Bool.and_eq_true] at h
      exact h.1.1
  | cast _ _ _ ho =>
    simp only [Expr.isClean, Primitive.isConcreteValue, Bool.and_eq_true, bne_iff_ne] at h
    exact (whole_cast_iff.2 ⟨ho h.1, h.2.1⟩).valued_cast

/-- A clean expression that is a whole statement is whole. -/
theorem Expr.whole_of_isCleanEffect (h : e.isCleanEffect p = true) : e.Whole p := by
  cases e with
  | literal value span => exact (valued_literal value span).toWhole
  | name use => exact (valued_name use).toWhole
  | binary => exact (valued_of_isClean h).toWhole
  | assign => exact whole_assign_iff.2 (valued_of_isClean h)
  | call =>
    exact whole_call_iff.2 fun a ha => valued_of_isClean (areClean_iff.1 h a ha)
  | cast => exact (valued_of_isClean h).toWhole

end

/-! ## Checking -/

section

variable {p : Program} {slots : Int → Option Primitive} {target : Primitive}

theorem Primitive.ne_void_of_assignableTo {t : Primitive} (hne : t ≠ target)
    (h : t.assignableTo target = true) : target ≠ .void := by
  rintro rfl
  revert h hne
  cases t <;> decide

theorem Expr.Valued.coerce {value value' : Expr} (hv : value.Valued p)
    (h : (value.coerce p target).outcome = .ok value') : value'.Valued p := by
  rcases coerce_cases h with ⟨rfl, -⟩ | ⟨_, span, -, -, rfl⟩ | ⟨rfl, _, -, hne, hassign⟩
  · exact hv
  · exact valued_literal _ span
  · exact (whole_cast_iff.2 ⟨hv, Primitive.ne_void_of_assignableTo hne hassign⟩).valued_cast

theorem Expr.Valued.fitOperand {operand operand' : Expr} {common : Primitive}
    (ho : operand.Valued p) (h : (operand.fitOperand common).outcome = .ok operand') :
    operand'.Valued p := by
  rcases fitOperand_cases h with ⟨rfl, -⟩ | ⟨_, span, -, -, rfl⟩
  · exact ho
  · exact valued_literal _ span

/-- Checking keeps a tree whole, and does not change whether it leaves a value. -/
theorem Expr.whole_check (e : Expr) : ∀ e', (e.check p).outcome = .ok e' → e.Whole p →
    e'.Whole p ∧ e'.pushes p = e.pushes p := by
  -- a part that has to leave a value still does so
  have hkeep : ∀ {e e' : Expr}, (e.Whole p → e'.Whole p ∧ e'.pushes p = e.pushes p) →
      e.Valued p → e'.Valued p := fun h hv =>
    ⟨(h hv.toWhole).1, (h hv.toWhole).2.trans hv.pushes⟩
  refine check_induction (P := fun e e' => e.Whole p → e'.Whole p ∧ e'.pushes p = e.pushes p)
    (fun _ _ hw => ⟨hw, rfl⟩) (fun _ hw => ⟨hw, rfl⟩) ?_ ?_ ?_ ?_ e
  · intro _ _ _ span _ _ _ _ _ _ _ hl hr _ _ _ hl₂ hr₂ _ hw
    obtain ⟨hwl, hwr⟩ := whole_binary_iff.1 hw
    exact ⟨whole_binary_iff.2 ⟨(hkeep hl hwl).fitOperand hl₂, (hkeep hr hwr).fitOperand hr₂⟩, rfl⟩
  · intro target value span type _ _ hv _ hv₂ hw
    exact ⟨whole_assign_iff.2 ((hkeep hv (whole_assign_iff.1 hw)).coerce hv₂), rfl⟩
  · intro target _ _ span _ _ hargs _ ha hw
    have hwa := whole_call_iff.1 hw
    obtain ⟨-, -, hall⟩ := forall_of_checkArguments (Q := fun a _ => a.Valued p)
      (fun a hmem _ a₁ _ h₁ h₂ => (hkeep (hargs a hmem a₁ h₁) (hwa a hmem)).coerce h₂) ha
    exact ⟨whole_call_iff.2 fun a ha => (hall a ha).elim fun _ h => h, rfl⟩
  · intro _ type span _ ho hw
    obtain ⟨hwo, ht⟩ := whole_cast_iff.1 hw
    refine ⟨whole_cast_iff.2 ⟨hkeep ho hwo, ht⟩, ?_⟩
    simp only [Expr.pushes, (ho hwo.toWhole).2]

theorem Expr.Valued.check {e e' : Expr} (hv : e.Valued p) (h : (e.check p).outcome = .ok e') :
    e'.Valued p := by
  obtain ⟨hw, hp⟩ := e.whole_check e' h hv.toWhole
  exact ⟨hw, hp.trans hv.pushes⟩

end

/-- Whole trees in all places of a statement, values where one is needed. -/
def Demands.whole (p : Program) : Demands where
  effect e := e.Whole p
  condition e := e.Valued p
  result v := ∀ e ∈ v, e.Valued p

theorem Demands.clean_implies_whole (p : Program) : (Demands.clean p).Implies (.whole p) where
  effect _ h := Expr.whole_of_isCleanEffect h
  condition _ h := Expr.valued_of_isClean h
  result _ h e he := Expr.valued_of_isClean (h e he)

theorem Demands.whole_congr {q : Program} (hp : p.outline = q.outline) :
    (Demands.whole p).Implies (.whole q) where
  effect _ h := h.congr hp
  condition _ h := h.congr hp
  result _ h e he := (h e he).congr hp

theorem Demands.checks_whole (p : Program) (m : Method) : (Demands.whole p).Checks p m (.whole p) where
  effect e e' he hok := (e.whole_check e' hok he).1
  condition e e' he hok := he.check (Expr.checkCondition_ok hok).1
  result v v' span hv hok := by
    rcases Method.checkReturn_ok hok with ⟨-, rfl, -⟩ | ⟨e, _, _, rfl, rfl, -, h₁, h₂⟩
    · intro e he
      cases he
    · intro e' he'
      cases he'
      exact ((hv e rfl).check h₁).coerce h₂

/-- The checked bodies of a value-clean program are whole. -/
theorem Evaluation.check_whole {s : Evaluation} {id : MethodId} {m : Method}
    (hclean : s.resolve.program.ValueClean) (h : s.resolve.check.program.methodAt? id = some m)
    (hext : m.external = false) : Stmt.AllMeet (.whole s.resolve.check.program) m.statements := by
  obtain ⟨m₁, h₁, he₁, rfl⟩ := exists_check_eq h hext
  have hmem : m₁ ∈ s.resolve.program.methods := List.mem_of_getElem? h₁
  have hwhole := Stmt.AllMeet.mono (Demands.clean_implies_whole _) _ (hclean m₁ hmem he₁)
  exact Stmt.AllMeet.mono (Demands.whole_congr s.resolve.outline_check.symm) _
    (Method.check_meets (Demands.checks_whole s.resolve.program m₁) hwhole)

end ScriptCompiler
