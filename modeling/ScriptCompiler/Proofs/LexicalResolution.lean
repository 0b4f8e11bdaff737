import ScriptCompiler.Proofs.Resolution

/-!
# Resolution is lexical

On every method the pass gives the same statements, slots and errors as the lexical
resolver (`Method.resolution_is_lexical`). What names and calls were bound to before
plays no part in it.
-/

set_option autoImplicit false

namespace ScriptCompiler

/-! ## What was bound before -/

/-- A name that no slot was found for. -/
def NameUse.bare (u : NameUse) : NameUse := { u with slot := none }

mutual

/-- An expression without the slots and methods that were found for its names and calls. -/
def Expr.bare : Expr → Expr
  | .literal value span => .literal value span
  | .name use => .name use.bare
  | .binary op left right span => .binary op left.bare right.bare span
  | .assign target value span => .assign target.bare value.bare span
  | .call target args _ span => .call target (Expr.bareAll args) none span
  | .cast operand type span => .cast operand.bare type span

/-- Expressions without what was found for them. -/
def Expr.bareAll : List Expr → List Expr
  | [] => []
  | e :: rest => e.bare :: Expr.bareAll rest

end

mutual

/-- A statement without the slots and methods that were found for its names and calls. -/
def Stmt.bare : Stmt → Stmt
  | .expression e => .expression e.bare
  | .declare name type initial span => .declare name type (initial.map Expr.bare) span
  | .ret value span => .ret (value.map Expr.bare) span
  | .branch cond body alts span =>
    .branch cond.bare body.bare alts.bare span
  | .block body span => .block (Stmt.bareAll body) span
  | .assembly text span => .assembly text span

/-- Alternatives without what was found for them. -/
def Alternatives.bare : Alternatives → Alternatives
  | .none => .none
  | .more cond body next span => .more (cond.map Expr.bare) body.bare next.bare span

/-- Statements without what was found for them. -/
def Stmt.bareAll : List Stmt → List Stmt
  | [] => []
  | s :: rest => s.bare :: Stmt.bareAll rest

end

section

variable (site : Site) (names : NameStack)

theorem Expr.lexicalAll_bareAll {es : List Expr}
    (h : ∀ e ∈ es, e.bare.lexical site names = e.lexical site names) :
    Expr.lexicalAll site names (Expr.bareAll es) = Expr.lexicalAll site names es := by
  induction es with
  | nil => rfl
  | cons _ _ ih =>
    obtain ⟨he, hrest⟩ := List.forall_mem_cons.1 h
    rw [Expr.bareAll, Expr.lexicalAll, Expr.lexicalAll, he, ih hrest]

theorem Expr.lexical_bare (e : Expr) : e.bare.lexical site names = e.lexical site names := by
  induction e with
  | literal => rfl
  | name => rfl
  | binary _ _ _ _ hl hr => rw [Expr.bare, Expr.lexical, Expr.lexical, hl, hr]
  | assign _ _ _ hv =>
    rw [Expr.bare, Expr.lexical, Expr.lexical, hv]
    rfl
  | call _ _ _ _ hargs =>
    rw [Expr.bare, Expr.lexical, Expr.lexical, lexicalAll_bareAll site names hargs]
  | cast _ _ _ ho => rw [Expr.bare, Expr.lexical, Expr.lexical, ho]

theorem Expr.lexicalOption_bare (value : Option Expr) :
    Expr.lexicalOption site names (value.map Expr.bare) = Expr.lexicalOption site names value := by
  cases value with
  | none => rfl
  | some => rw [Option.map_some, Expr.lexicalOption, Expr.lexicalOption, lexical_bare]

end

theorem Stmt.namesBehind_bare (names : NameStack) (count : Nat) (s : Stmt) :
    s.bare.namesBehind names count = s.namesBehind names count := by
  cases s <;> rfl

variable (site : Site)

mutual

theorem Stmt.lexical_bare : ∀ (s : Stmt) (names : NameStack) (count : Nat),
      s.bare.lexical site names count = s.lexical site names count
  | .expression e, names, count => by rw [Stmt.bare, Stmt.lexical, Stmt.lexical, Expr.lexical_bare]
  | .declare name type initial span, names, count => by
    have hinitial : (initial.map Expr.bare).map (Expr.lexical site names) =
        initial.map (Expr.lexical site names) := by
      rw [Option.map_map]
      congr 1
      exact funext (Expr.lexical_bare site names)
    rw [Stmt.bare, Stmt.lexical, Stmt.lexical, NameStack.declaration, NameStack.declaration,
      hinitial]
  | .ret value span, names, count => by
    rw [Stmt.bare, Stmt.lexical, Stmt.lexical, Expr.lexicalOption_bare]
  | .branch cond body alts span, names, count => by
    rw [Stmt.bare, Stmt.lexical, Stmt.lexical, Expr.lexical_bare,
      Stmt.lexical_bare body names.push count,
      funext (Alternatives.lexical_bare alts names)]
  | .block body span, names, count => by
    rw [Stmt.bare, Stmt.lexical, Stmt.lexical, Stmt.lexicalAll_bareAll body names.push count]
  | .assembly .., _, _ => rfl

theorem Alternatives.lexical_bare : ∀ (a : Alternatives) (names : NameStack) (count : Nat),
      a.bare.lexical site names count = a.lexical site names count
  | .none, _, _ => rfl
  | .more cond body next span, names, count => by
    rw [Alternatives.bare, Alternatives.lexical, Alternatives.lexical, Expr.lexicalOption_bare,
      Stmt.lexical_bare body names.push count,
      funext (Alternatives.lexical_bare next names)]

theorem Stmt.lexicalAll_bareAll : ∀ (body : List Stmt) (names : NameStack) (count : Nat),
      Stmt.lexicalAll site names count (Stmt.bareAll body) = Stmt.lexicalAll site names count body
  | [], _, _ => rfl
  | s :: rest, names, count => by
    rw [Stmt.bareAll, Stmt.lexicalAll, Stmt.lexicalAll, Stmt.lexical_bare s names count,
      Stmt.namesBehind_bare, Stmt.lexicalAll_bareAll rest]

end

/-! ## Methods -/

namespace Method

/-- Resolution is lexical: on every method it gives the statements, slots and errors that the
method comes to when the visible names are handed down the tree. The declarations reached get the
next slots in order, which are the first ones if the method is new; what names and calls were bound
to before has no influence; and every slot in the result, at every depth, is one of the method's
with the slot's type. -/
theorem resolution_is_lexical (p : Program) (m : Method) : m.resolve p =
        ({ m with
            statements := (m.lexical p).result
            locals := m.locals ++ (m.lexical p).given.map Slot.type },
          (m.lexical p).errors) ∧
      Consecutive m.locals.length (m.lexical p).given ∧
      ({ m with statements := Stmt.bareAll m.statements } : Method).resolve p = m.resolve p ∧
      Stmt.AllThroughout (.formed p (m.resolve p).1.localType? fun _ => True)
        (m.resolve p).1.statements := by
  have hbare : ({ m with statements := Stmt.bareAll m.statements } : Method).lexical p =
      m.lexical p := Stmt.lexicalAll_bareAll _ m.statements _ _
  refine ⟨resolve_eq_lexical p m, (Stmt.fresh_lexicalAll _ _ _ _).consecutive, ?_, resolve_bound p m⟩
  rw [resolve_eq_lexical, resolve_eq_lexical, hbare]

end Method

end ScriptCompiler
