import ScriptCompiler.Proofs.Lowering

/-!
# What code takes over from its tree

The literals and the calls of a tree, in the order in which lowering comes to them. A `Reading` says
what is noted of each; a literal is read with the slot that it flows into, and with whether checking
has brought it between the bounds of this slot. What is noted of the instructions of the code is
what is gathered from the tree (`Stmt.gather_lower`).
-/

set_option autoImplicit false

namespace ScriptCompiler

open List Option

/-- What is noted of literals and calls. -/
structure Reading (α : Type) where
  literal : Option Primitive → Bool → Literal → List α
  call : Option MethodId → List α

/-- The type of an operation between two expressions, `void` if there is none. -/
def Expr.operandType (p : Program) (left right : Expr) : Primitive :=
  match left.typeIn p, right.typeIn p with
  | .ok l, .ok r => (l.common? r).getD .void
  | _, _ => .void

/-- The type of the slot that an assignment goes to, `void` if there is none. -/
def NameUse.slotType (u : NameUse) : Primitive := (u.slot.map (·.type)).getD .void

/-- The types of the parameters that arguments flow into. -/
def Program.slotsOf (p : Program) (method : Option MethodId) : Types :=
  ((method.bind p.methodAt?).map Method.parameterTypes).getD []

section

variable {α : Type}

mutual

/-- What is gathered from an expression that flows into `slot`. A literal that is the whole
expression is guarded as `guarded` says; one inside is guarded where it flows into an integer slot or
stands beside an integer. -/
def Expr.gather (p : Program) (r : Reading α) (slot : Option Primitive) (guarded : Bool) :
    Expr → List α
  | .literal value _ => r.literal slot guarded value
  | .name _ => []
  | .binary _ left right _ =>
    let common := Expr.operandType p left right
    right.gather p r (some (common.settle slot)) common.isConcreteInteger ++
      left.gather p r (some (common.settle slot)) common.isConcreteInteger
  | .assign target value _ =>
    value.gather p r (some target.slotType) target.slotType.isConcreteInteger
  | .call _ args method _ =>
    Expr.gatherArguments p r args (p.slotsOf method) ++ r.call method
  | .cast operand type _ => operand.gather p r (some type) false

/-- What is gathered from arguments that flow into parameters of these types. -/
def Expr.gatherArguments (p : Program) (r : Reading α) : List Expr → Types → List α
  | a :: rest, t :: types =>
    a.gather p r (some t) t.isConcreteInteger ++ Expr.gatherArguments p r rest types
  | _, _ => []

end

/-- What is gathered from a condition; a literal that the branch compares with is not loaded. -/
def Expr.gatherCondition (p : Program) (r : Reading α) (e : Expr) : List α :=
  match e.comparison? with
  | none => e.gather p r (some .bool) false
  | some (_, left, _) =>
    if (left.typeIn p).toOption.any Primitive.isConcreteInteger then left.gather p r none false
    else e.gather p r (some .bool) false

mutual

/-- What is gathered from a statement of a method that returns `returnType`. -/
def Stmt.gather (p : Program) (r : Reading α) (returnType : Primitive) : Stmt → List α
  | .expression e => e.gather p r none false
  | .declare .. => []
  | .ret none _ => []
  | .ret (some value) _ => value.gather p r (some returnType) returnType.isConcreteInteger
  | .branch condition body alts _ =>
    condition.gatherCondition p r ++ body.gather p r returnType ++
      alts.gather p r returnType
  | .block body _ => Stmt.gatherAll p r returnType body
  | .assembly .. => []

/-- What is gathered from alternatives. -/
def Alternatives.gather (p : Program) (r : Reading α) (returnType : Primitive) :
    Alternatives → List α
  | .none => []
  | .more (some condition) body next _ =>
    condition.gatherCondition p r ++ body.gather p r returnType ++ next.gather p r returnType
  | .more none body _ _ => body.gather p r returnType

/-- What is gathered from statements. -/
def Stmt.gatherAll (p : Program) (r : Reading α) (returnType : Primitive) : List Stmt → List α
  | [] => []
  | s :: rest => s.gather p r returnType ++ Stmt.gatherAll p r returnType rest

end

/-- What is gathered from a method. -/
def Method.gather (p : Program) (r : Reading α) (m : Method) : List α :=
  Stmt.gatherAll p r m.returnType m.statements

end

/-! ## Gathering from parts -/

section

variable {α : Type} (p : Program) (r : Reading α) (returnType : Primitive)

/-- What is gathered from a part. -/
def Part.gather : Part → List α
  | .effect e => e.gather p r none false
  | .condition e _ => e.gatherCondition p r
  | .alternative c _ => c.elim [] (Expr.gatherCondition p r)
  | .result v _ => v.elim [] (Expr.gather p r (some returnType) returnType.isConcreteInteger)
  | .declaration .. | .mark _ => []

/-- What is gathered from the parts that can be reached. -/
def gatherParts (parts : List (Bool × Part)) : List α :=
  parts.flatMap fun x => if x.1 then x.2.gather p r returnType else []

mutual

theorem Stmt.gather_eq : ∀ s : Stmt, s.gather p r returnType = gatherParts p r returnType s.parts
  | .expression _ | .declare .. | .ret none _ | .ret (some _) _ | .assembly .. => by
    simp [Stmt.gather, Stmt.parts, gatherParts, Part.gather]
  | .branch condition body alts _ => by
    simp [Stmt.gather, Stmt.parts, gatherParts, Part.gather, Stmt.gather_eq body,
      Alternatives.gather_eq alts]
  | .block body _ => by
    simp [Stmt.gather, Stmt.parts, gatherParts, Part.gather, Stmt.gatherAll_eq body]

theorem Alternatives.gather_eq :
    ∀ a : Alternatives, a.gather p r returnType = gatherParts p r returnType a.parts
  | .none => rfl
  | .more none body next _ => by
    simp [Alternatives.gather, Alternatives.parts, gatherParts, Part.gather,
      Stmt.gather_eq body]
  | .more (some condition) body next _ => by
    simp [Alternatives.gather, Alternatives.parts, gatherParts, Part.gather,
      Stmt.gather_eq body, Alternatives.gather_eq next]

theorem Stmt.gatherAll_eq : ∀ body : List Stmt,
      Stmt.gatherAll p r returnType body = gatherParts p r returnType (Stmt.allParts body)
  | [] => rfl
  | s :: rest => by
    simp [Stmt.gatherAll, Stmt.allParts, gatherParts, Stmt.gather_eq s,
      Stmt.gatherAll_eq rest]

end

end

/-! ## Gathering depends on the outline of the program -/

section

variable {α : Type} {r : Reading α} {p q : Program}

theorem Expr.gatherArguments_eq (args : List Expr) (types : Types) :
    Expr.gatherArguments p r args types = (args.zip types).flatMap fun x =>
      x.1.gather p r (some x.2) x.2.isConcreteInteger := by
  induction args generalizing types with
  | nil => rfl
  | cons _ _ ih =>
    cases types with
    | nil => rfl
    | cons => simp only [Expr.gatherArguments, ih, zip_cons_cons, flatMap_cons]

section

variable (hp : p.outline = q.outline)
include hp

theorem Program.slotsOf_congr (method : Option MethodId) : p.slotsOf method = q.slotsOf method := by
  have key : ∀ s : Program, s.outline.slotsOf method = s.slotsOf method := by
    intro s
    simp only [Program.slotsOf, bind_methodAt?_outline, Option.map_map]
    rfl
  rw [← key p, hp, key q]

theorem Expr.gather_congr (e : Expr) :
    ∀ slot guarded, e.gather p r slot guarded = e.gather q r slot guarded := by
  induction e with
  | literal => simp [Expr.gather]
  | name => simp [Expr.gather]
  | binary _ left right _ hl hr =>
    intro slot guarded
    have htype : Expr.operandType p left right = Expr.operandType q left right := by
      simp only [Expr.operandType, typeIn_congr hp]
    simp only [Expr.gather, htype, hl, hr]
  | assign _ _ _ hv => simp only [Expr.gather, hv, implies_true]
  | call _ _ _ _ hargs =>
    intro slot guarded
    simp only [Expr.gather, Program.slotsOf_congr hp, gatherArguments_eq]
    congr 1
    exact flatMap_congr fun x hx => hargs x.1 (of_mem_zip hx).1 _ _
  | cast _ _ _ ho => simp only [Expr.gather, ho, implies_true]

theorem Expr.gatherCondition_congr (e : Expr) : e.gatherCondition p r = e.gatherCondition q r := by
  simp only [Expr.gatherCondition, gather_congr hp, typeIn_congr hp]

theorem Stmt.gatherAll_congr (returnType : Primitive) (body : List Stmt) :
    Stmt.gatherAll p r returnType body = Stmt.gatherAll q r returnType body := by
  have hpart : Part.gather p r returnType = Part.gather q r returnType := by
    funext x
    cases x with
    | alternative c => cases c <;> simp [Part.gather, Expr.gatherCondition_congr hp]
    | result v => cases v <;> simp [Part.gather, Expr.gather_congr hp]
    | _ => simp [Part.gather, Expr.gather_congr hp, Expr.gatherCondition_congr hp]
  rw [gatherAll_eq, gatherAll_eq, gatherParts, hpart]
  rfl

end

end

/-! ## Lowering -/

/-- Whether noting instructions by `f` agrees with a reading of the tree, up to `g`. -/
structure Reading.Matches {α β : Type} (r : Reading α) (p : Program) (f : Instruction → Option β)
    (g : α → β) : Prop where
  literal : ∀ slot guarded (value : Literal),
    (f (.loadConst (value.constant slot).1 (value.constant slot).2)).toList =
      (r.literal slot guarded value).map g
  call : ∀ method callee, method.bind p.methodAt? = some callee →
    (f (.call callee.returnType (p.referenceOf callee))).toList = (r.call method).map g
  other : ∀ i : Instruction, i.opcode ≠ .loadConst → i.opcode ≠ .call → f i = none

section

variable {α β : Type} {r : Reading α} {p : Program} {f : Instruction → Option β} {g : α → β}
  {code : Code}

theorem filterMap_singleton (i : Instruction) : [i].filterMap f = (f i).toList := by
  cases hi : f i with
  | none => simp [hi]
  | some => simp [hi]

/-- Nothing is noted of an instruction that neither loads a constant nor calls. -/
theorem Reading.Matches.silent (h : r.Matches p f g) {i : Instruction} (hload : i.opcode ≠ .loadConst)
    (hcall : i.opcode ≠ .call) : [i].filterMap f = [] := by
  rw [filterMap_singleton, h.other i hload hcall]
  rfl

variable {e : Expr} {returnType target : Primitive}

section

variable (h : r.Matches p f g)
include h

theorem Reading.Matches.lowerTo {found : List β}
    (he : ∀ c t, e.lower p (some target) = .ok (c, t) → c.filterMap f = found)
    (hok : e.lowerTo p target = .ok code) : code.filterMap f = found := by
  obtain ⟨c, t, hc, rfl⟩ := Expr.lowerTo_ok hok
  have hconvert : (convertTo target t).filterMap f = [] := by
    unfold convertTo
    split
    · rfl
    · exact h.silent Opcode.noConfusion Opcode.noConfusion
  rw [filterMap_append, hconvert, append_nil]
  exact he c t hc

theorem Reading.Matches.lowerArguments {args : List Expr}
    (hargs : ∀ a ∈ args, ∀ slot guarded code pushed, a.lower p slot = .ok (code, pushed) →
      code.filterMap f = (a.gather p r slot guarded).map g)
    {types : Types} (hok : Expr.lowerArguments p args types = .ok code) :
    code.filterMap f = (Expr.gatherArguments p r args types).map g := by
  induction args generalizing types code with
  | nil =>
    cases hok
    simp [Expr.gatherArguments]
  | cons a _ ih =>
    cases types with
    | nil =>
      cases hok
      simp [Expr.gatherArguments]
    | cons t =>
      obtain ⟨_, _, hfirst, hmore, rfl⟩ := Expr.lowerArguments_cons_ok hok
      have hhead := h.lowerTo (hargs a (by simp) _ t.isConcreteInteger) hfirst
      have htail := ih (fun b hb => hargs b (mem_cons_of_mem _ hb)) hmore
      simp only [filterMap_append, hhead, htail, Expr.gatherArguments, map_append]

/-- What is noted of the code of an expression is what is gathered from the expression. -/
theorem Expr.gather_lower (e : Expr) : ∀ slot guarded code pushed,
    e.lower p slot = .ok (code, pushed) → code.filterMap f = (e.gather p r slot guarded).map g := by
  induction e with
  | literal value =>
    intro slot guarded code pushed hok
    cases hok
    rw [filterMap_singleton]
    exact h.literal slot guarded value
  | name =>
    intro slot guarded code pushed hok
    simp only [Expr.lower] at hok
    obtain ⟨s, -, hok⟩ := of_bind hok
    cases hok
    rw [h.silent Opcode.noConfusion Opcode.noConfusion]
    rfl
  | binary op left right _ hl hr =>
    intro slot guarded code pushed hok
    obtain ⟨_, _, common, _, _, hlt, hrt, hcommon, hright, hleft, rfl, -⟩ :=
      lower_binary_ok hok
    have htype : Expr.operandType p left right = common := by
      simp only [Expr.operandType, hlt, hrt, hcommon, getD_some]
    have h₁ := h.lowerTo (hr _ common.isConcreteInteger) hright
    have h₂ := h.lowerTo (hl _ common.isConcreteInteger) hleft
    have h₃ : [Instruction.binary op.opcode (common.settle slot)].filterMap f = [] := by
      apply h.silent
      · cases op <;> exact Opcode.noConfusion
      · cases op <;> exact Opcode.noConfusion
    simp only [filterMap_append, h₁, h₂, h₃, append_nil, Expr.gather, htype, map_append]
  | assign target _ _ hv =>
    intro slot guarded code pushed hok
    obtain ⟨s, _, hs, hvalue, rfl, -⟩ := lower_assign_ok hok
    have htype : target.slotType = s.type := by
      simp only [NameUse.slotType, hs, map_some, getD_some]
    have h₁ := h.lowerTo (hv _ s.type.isConcreteInteger) hvalue
    have h₂ : [Instruction.setLocal s.index].filterMap f = [] :=
      h.silent Opcode.noConfusion Opcode.noConfusion
    simp only [filterMap_append, h₁, h₂, append_nil, Expr.gather, htype]
  | call _ _ method _ hargs =>
    intro slot guarded code pushed hok
    obtain ⟨callee, _, hcallee, harguments, rfl, -⟩ := lower_call_ok hok
    have htypes : p.slotsOf method = callee.parameterTypes := by
      simp only [Program.slotsOf, hcallee, map_some, getD_some]
    have h₁ := h.lowerArguments hargs harguments
    have h₂ := h.call method callee hcallee
    simp only [filterMap_append, h₁, filterMap_singleton, h₂, Expr.gather, htypes, map_append]
  | cast _ _ _ ho =>
    intro slot guarded code pushed hok
    obtain ⟨hoperand, -⟩ := lower_cast_ok hok
    exact h.lowerTo (ho _ false) hoperand

theorem Expr.gather_lowerTo (guarded : Bool) (hok : e.lowerTo p target = .ok code) :
    code.filterMap f = (e.gather p r (some target) guarded).map g :=
  h.lowerTo (gather_lower h e _ guarded) hok

theorem Expr.gather_lowerTruth (hok : e.lowerTruth p = .ok code) :
    code.filterMap f = (e.gather p r (some .bool) false).map g := by
  obtain ⟨_, htest, rfl⟩ := lowerTruth_ok hok
  rw [filterMap_append, h.silent Opcode.noConfusion Opcode.noConfusion, append_nil]
  exact gather_lowerTo h false htest

theorem Expr.gather_lowerCondition (hok : e.lowerCondition p = .ok code) :
    code.filterMap f = (e.gatherCondition p r).map g := by
  unfold Expr.lowerCondition at hok
  unfold Expr.gatherCondition
  cases hcmp : e.comparison? with
  | none =>
    rw [hcmp] at hok
    exact gather_lowerTruth h hok
  | some comparison =>
    obtain ⟨kind, left, n⟩ := comparison
    rw [hcmp] at hok
    obtain ⟨t, ht, hok⟩ := of_bind hok
    simp only [ht, Except.toOption, any_some]
    split at hok
    · rename_i hinteger
      obtain ⟨⟨c, pushed⟩, hc, hok⟩ := of_bind hok
      cases hok
      rw [if_pos hinteger, filterMap_append,
        h.silent Opcode.noConfusion Opcode.noConfusion, append_nil]
      exact gather_lower h left none false c pushed hc
    · rename_i hinteger
      rw [if_neg hinteger]
      exact gather_lowerTruth h hok

/-- What is noted of code is gathered from its part. -/
theorem Part.gather_lower {x : Part} (hok : x.lower p returnType = .ok code) :
    code.filterMap f = (x.gather p r returnType).map g := by
  cases x with
  | effect e =>
    rw [Part.lower] at hok
    obtain ⟨c, pushed, hc, rfl⟩ := Stmt.lower_expression_ok hok
    have he := Expr.gather_lower h e none false c pushed hc
    split
    · exact he
    · rw [filterMap_append, he, h.silent Opcode.noConfusion Opcode.noConfusion,
        append_nil]
      rfl
  | declaration => cases hok
  | result value =>
    cases value with
    | none =>
      cases hok
      exact h.silent Opcode.noConfusion Opcode.noConfusion
    | some =>
      rw [Part.lower] at hok
      obtain ⟨c, hc, rfl⟩ := Stmt.lower_ret_ok hok
      have hvalue := Expr.gather_lowerTo h returnType.isConcreteInteger hc
      rw [filterMap_append, hvalue, h.silent Opcode.noConfusion Opcode.noConfusion, append_nil]
      rfl
  | condition => exact Expr.gather_lowerCondition h hok
  | alternative condition =>
    have hother := h.other .otherwise Opcode.noConfusion Opcode.noConfusion
    cases condition with
    | none =>
      cases hok
      exact filterMap_cons_none hother
    | some =>
      obtain ⟨_, htest, hok⟩ := of_bind hok
      cases hok
      rw [filterMap_cons_none hother]
      exact Expr.gather_lowerCondition h htest
  | mark k =>
    cases k with
    | ending =>
      cases hok
      exact h.silent Opcode.noConfusion Opcode.noConfusion
    | assembly | opening | closing =>
      cases hok
      rfl

theorem Stmt.gather_lowerAll (body : List Stmt) (code : Code)
    (hok : Stmt.lowerAll p returnType body = .ok code) :
    code.filterMap f = (Stmt.gatherAll p r returnType body).map g := by
  rw [lowerAll_eq_parts] at hok
  rw [gatherAll_eq]
  refine lowerParts_induction
    (P := fun xs code => code.filterMap f = (gatherParts p r returnType xs).map g)
    rfl ?_ (fun _ _ _ ih => ih) code hok
  intro _ _ code _ hcode ih
  rw [filterMap_append, Part.gather_lower h hcode, ih, ← map_append]
  rfl

end

end

end ScriptCompiler
