import ScriptCompiler.Proofs.LoweredCode
import ScriptCompiler.Proofs.Signatures

/-!
# Renaming methods

Methods are known by their positions, which depend on everything declared before them. Resolution
and checking use a position only to get at the types behind it. So if a renaming of positions keeps
the types, and calls find the renamed candidates, both passes give the renamed statements, the same
slots, errors and warnings. Lowering also writes down the reference behind a position, and gives the
same code if the references are the same.
-/

set_option autoImplicit false

namespace ScriptCompiler

open List Option

-- The uses in a mutual block of theorems are not seen by the linter.
set_option linter.unusedSectionVars false

/-! ## Renamed trees -/

mutual

/-- The expression with the methods of its calls renamed. -/
def Expr.rename (σ : MethodId → MethodId) : Expr → Expr
  | .literal value span => .literal value span
  | .name use => .name use
  | .binary op left right span => .binary op (left.rename σ) (right.rename σ) span
  | .assign target value span => .assign target (value.rename σ) span
  | .call target arguments method span =>
    .call target (Expr.renameAll σ arguments) (method.map σ) span
  | .cast operand type span => .cast (operand.rename σ) type span

/-- Expressions renamed one by one. -/
def Expr.renameAll (σ : MethodId → MethodId) : List Expr → List Expr
  | [] => []
  | e :: rest => e.rename σ :: Expr.renameAll σ rest

end

mutual

/-- The statement with the methods of its calls renamed. -/
def Stmt.rename (σ : MethodId → MethodId) : Stmt → Stmt
  | .expression e => .expression (e.rename σ)
  | .declare name type initial span => .declare name type (initial.map (Expr.rename σ)) span
  | .ret value span => .ret (value.map (Expr.rename σ)) span
  | .branch cond body alts span =>
    .branch (cond.rename σ) (body.rename σ) (alts.rename σ) span
  | .block body span => .block (Stmt.renameAll σ body) span
  | .assembly text span => .assembly text span

/-- Alternatives with the methods of their calls renamed. -/
def Alternatives.rename (σ : MethodId → MethodId) : Alternatives → Alternatives
  | .none => .none
  | .more cond body next span =>
    .more (cond.map (Expr.rename σ)) (body.rename σ) (next.rename σ) span

/-- Statements renamed one by one. -/
def Stmt.renameAll (σ : MethodId → MethodId) : List Stmt → List Stmt
  | [] => []
  | s :: rest => s.rename σ :: Stmt.renameAll σ rest

end

/-! ## Called names -/

mutual

/-- The names that an expression calls. -/
def Expr.called : Expr → List DottedName
  | .literal .. | .name _ => []
  | .binary _ left right _ => left.called ++ right.called
  | .assign _ value _ => value.called
  | .call target arguments _ _ => Expr.calledAll arguments ++ [target]
  | .cast operand _ _ => operand.called

/-- The names that expressions call. -/
def Expr.calledAll : List Expr → List DottedName
  | [] => []
  | e :: rest => e.called ++ Expr.calledAll rest

end

/-- The names that an optional expression calls. -/
def Expr.calledOption : Option Expr → List DottedName
  | none => []
  | some e => e.called

mutual

/-- The names that a statement calls. -/
def Stmt.called : Stmt → List DottedName
  | .expression e => e.called
  | .declare _ _ initial _ => Expr.calledOption initial
  | .ret value _ => Expr.calledOption value
  | .branch cond body alts _ => cond.called ++ body.called ++ alts.called
  | .block body _ => Stmt.calledAll body
  | .assembly .. => []

/-- The names that alternatives call. -/
def Alternatives.called : Alternatives → List DottedName
  | .none => []
  | .more cond body next _ => Expr.calledOption cond ++ body.called ++ next.called

/-- The names that statements call. -/
def Stmt.calledAll : List Stmt → List DottedName
  | [] => []
  | s :: rest => s.called ++ Stmt.calledAll rest

end

/-! ## Types -/

/-- What other methods see of a method: its parameter types and its return type. -/
def Method.interface (m : Method) : Types × Primitive := (m.parameterTypes, m.returnType)

/-- Whether the renamed positions of the first program hold methods of the second one with the same
interfaces. -/
def Program.Renames (σ : MethodId → MethodId) (p q : Program) : Prop :=
  ∀ id, (q.methodAt? (σ id)).map Method.interface = (p.methodAt? id).map Method.interface

section

variable {σ : MethodId → MethodId} {p q : Program}

theorem Program.Renames.congr {p' q' : Program} (h : p.Renames σ q) (hp : p'.outline = p.outline)
    (hq : q'.outline = q.outline) : p'.Renames σ q' := by
  have hsame : ∀ {p p' : Program}, p'.outline = p.outline → ∀ id,
      (p'.methodAt? id).map Method.interface = (p.methodAt? id).map Method.interface := by
    intro p p' ho id
    have hid := congrArg (fun p : Program => (p.methodAt? id).map Method.interface) ho
    simp only [methodAt?_outline, Option.map_map] at hid
    exact hid
  intro id
  rw [hsame hq, hsame hp, h id]

/-- A renamed call has a callee with the interface of the callee before, or none as before. -/
theorem Program.Renames.callee (h : p.Renames σ q) (target : DottedName) (method : Option MethodId)
    (span : Span) :
    (∃ e, p.callee target method span = .error e ∧ q.callee target (method.map σ) span = .error e) ∨
      ∃ m m', p.callee target method span = .ok m ∧ q.callee target (method.map σ) span = .ok m' ∧
        m'.parameterTypes = m.parameterTypes ∧ m'.returnType = m.returnType := by
  have hbind : ((method.map σ).bind q.methodAt?).map Method.interface =
      (method.bind p.methodAt?).map Method.interface := by
    cases method with
    | none => rfl
    | some id => exact h id
  unfold Program.callee
  cases hp : method.bind p.methodAt? with
  | none =>
    rw [hp, map_none, map_eq_none_iff] at hbind
    rw [hbind]
    exact .inl ⟨_, rfl, rfl⟩
  | some m =>
    rw [hp, map_some] at hbind
    obtain ⟨m', hm', hsame⟩ := map_eq_some_iff.1 hbind
    rw [hm']
    exact .inr ⟨m, m', rfl, rfl, congrArg Prod.fst hsame, congrArg Prod.snd hsame⟩

theorem Expr.typeIn_rename (h : p.Renames σ q) (e : Expr) : (e.rename σ).typeIn q = e.typeIn p := by
  induction e with
  | literal => rfl
  | name => rfl
  | binary _ _ _ _ hl hr => simp only [Expr.rename, Expr.typeIn, hl, hr]
  | assign => rfl
  | call target _ method span =>
    simp only [Expr.rename, Expr.typeIn]
    rcases h.callee target method span with ⟨e, hp, hq⟩ | ⟨_, _, hp, hq, -, htype⟩
    · rw [hp, hq]
    · rw [hp, hq, ok_bind, ok_bind, htype]
  | cast => rfl

theorem Expr.typesIn_rename (h : p.Renames σ q) (es : List Expr) :
    Expr.typesIn q (Expr.renameAll σ es) = Expr.typesIn p es := by
  induction es with
  | nil => rfl
  | cons _ _ ih => simp only [Expr.renameAll, Expr.typesIn, typeIn_rename h, ih]

/-! ## Overloads -/

/-- The candidate with its method renamed. -/
def Overload.rename (σ : MethodId → MethodId) (o : Overload) : Overload :=
  { o with method := σ o.method }

namespace Overload

theorem score?_rename (h : p.Renames σ q) (accept : Conversion → Bool)
    (arguments : Types) (id : MethodId) :
    score? accept q arguments (σ id) = (score? accept p arguments id).map (Overload.rename σ) := by
  have hid := h id
  unfold score?
  cases hp : p.methodAt? id with
  | none =>
    rw [hp, map_none, map_eq_none_iff] at hid
    rw [hid]
    rfl
  | some m =>
    rw [hp, map_some] at hid
    obtain ⟨m', hm', hsame⟩ := map_eq_some_iff.1 hid
    have htypes : m'.parameterTypes = m.parameterTypes := congrArg Prod.fst hsame
    rw [hm']
    simp only [bind_eq_bind, bind_some, htypes]
    cases conversions? accept m.parameterTypes arguments <;> rfl

/-- The choice between priced candidates does not depend on their positions. -/
theorem foldl_better_rename (found : List Overload) (best : Option Overload) :
    (found.map (Overload.rename σ)).foldl better (best.map (Overload.rename σ)) =
      (found.foldl better best).map (Overload.rename σ) := by
  induction found generalizing best with
  | nil => rfl
  | cons o _ ih =>
    have hstep : better (best.map (Overload.rename σ)) (o.rename σ) =
        (better best o).map (Overload.rename σ) := by
      cases best with
      | none => rfl
      | some =>
        have hcost : ∀ o : Overload, (o.rename σ).cost = o.cost := fun _ => rfl
        simp only [better, map_some, hcost]
        split <;> rfl
    rw [map_cons, foldl_cons, foldl_cons, hstep, ih]

theorem best?_rename (h : p.Renames σ q) (accept : Conversion → Bool) (candidates : List MethodId)
    (arguments : Types) : best? accept q (candidates.map σ) arguments =
      (best? accept p candidates arguments).map (Overload.rename σ) := by
  have hscores : (candidates.map σ).filterMap (score? accept q arguments) =
      (candidates.filterMap (score? accept p arguments)).map (Overload.rename σ) := by
    rw [filterMap_map, map_filterMap]
    congr 1
    funext id
    exact score?_rename h accept arguments id
  unfold best?
  rw [hscores]
  exact foldl_better_rename _ none

theorem resolve?_rename (h : p.Renames σ q) (candidates : List MethodId)
    (arguments : Types) : resolve? q (candidates.map σ) arguments =
      (resolve? p candidates arguments).map (Overload.rename σ) := by
  unfold resolve? exactMatch? coercible?
  rw [best?_rename h, best?_rename h]
  cases best? Conversion.isExact p candidates arguments <;> rfl

end Overload

/-- The methods that a call of a name finds away from its own namespace. -/
def Program.answer? (p : Program) (name : DottedName) (ns : Namespace) : Option (List MethodId) :=
  if p.qualifiedIn name ns = [] then none else some (p.qualifiedIn name ns)

/-- A call looks in its own namespace, and then for the first one that answers. -/
theorem Program.findOverloads_eq (p : Program) (name : DottedName) (enclosing : NamespaceId) :
    p.findOverloads name enclosing =
      if (if name.isSimple then p.methodsNamed enclosing name else []) ≠ [] then
        (if name.isSimple then p.methodsNamed enclosing name else [])
      else (p.namespaces.findSome? (p.answer? name)).getD [] := by
  unfold Program.findOverloads
  dsimp only
  congr 3
  funext ns
  unfold Program.answer?
  cases p.qualifiedIn name ns <;> rfl

/-- Whether calls of a name find the renamed candidates at the second site. -/
def Site.Finds (σ : MethodId → MethodId) (site site' : Site) (name : DottedName) : Prop :=
  site'.program.findOverloads name site'.owner =
    (site.program.findOverloads name site.owner).map σ

/-- A call that finds the renamed candidates is bound to the renamed method, or fails as before. -/
theorem Site.Finds.choose {site site' : Site} (h : site.program.Renames σ site'.program)
    {name : DottedName} (hname : site.Finds σ site' name) (types : Types) (span : Span) :
    site'.choose name types span = (site.choose name types span).map σ := by
  unfold Site.choose
  rw [hname]
  cases hfound : site.program.findOverloads name site.owner with
  | nil => rfl
  | cons candidate rest =>
    rw [map_cons]
    dsimp only
    rw [← map_cons, Overload.resolve?_rename h]
    cases Overload.resolve? site.program (candidate :: rest) types <;> rfl

/-! ## Resolution -/

section

variable {site site' : Site} (h : site.program.Renames σ site'.program)

theorem Expr.resolveAll_rename {scope : Scope} {es : List Expr}
    (h : ∀ e ∈ es, e.resolve site' scope = (e.resolve site scope).map (Expr.rename σ)) :
    Expr.resolveAll site' scope es = (Expr.resolveAll site scope es).map (Expr.renameAll σ) := by
  induction es with
  | nil => rfl
  | cons e _ ih =>
    have hrest := ih fun a ha => h a (mem_cons_of_mem _ ha)
    simp only [Expr.resolveAll, h e (by simp), hrest, Except.bind_map, Except.map_bind]
    rfl

theorem Expr.mem_calledAll {n : DottedName} {e : Expr} {es : List Expr} (he : e ∈ es)
    (hn : n ∈ e.called) : n ∈ Expr.calledAll es := by
  induction es with
  | nil => cases he
  | cons _ _ ih =>
    rw [Expr.calledAll, mem_append]
    rcases mem_cons.1 he with rfl | he
    · exact .inl hn
    · exact .inr (ih he)

theorem Expr.rename_default? {type : Primitive} {e : Expr} (h : Expr.default? type = some e) :
    e.rename σ = e := by
  cases type <;> simp only [Expr.default?, Option.some.injEq, reduceCtorEq] at h <;> subst h <;> rfl

include h

/-- Resolving an expression at the second site gives the renamed expression. -/
theorem Expr.resolve_rename (scope : Scope) (e : Expr) : (∀ n ∈ e.called, site.Finds σ site' n) →
      e.resolve site' scope = (e.resolve site scope).map (Expr.rename σ) := by
  induction e with
  | literal => exact fun _ => rfl
  | name =>
    intro _
    simp only [Expr.resolve, Except.map_bind]
    rfl
  | binary _ _ _ _ hl hr =>
    intro hcalled
    simp only [Expr.called, forall_mem_append] at hcalled
    simp only [Expr.resolve, hl hcalled.1, hr hcalled.2, Except.bind_map, Except.map_bind]
    rfl
  | assign _ _ _ hv =>
    intro hcalled
    simp only [Expr.resolve, hv hcalled, Except.bind_map, Except.map_bind]
    rfl
  | call _ _ _ _ hargs =>
    intro hcalled
    simp only [Expr.called, forall_mem_append, forall_mem_singleton] at hcalled
    have hall := resolveAll_rename fun a ha =>
      hargs a ha fun n hn => hcalled.1 n (mem_calledAll ha hn)
    simp only [Expr.resolve, hall, Except.bind_map, Except.map_bind, typesIn_rename h,
      hcalled.2.choose h]
    rfl
  | cast _ _ _ ho =>
    intro hcalled
    simp only [Expr.resolve, ho hcalled, Except.bind_map, Except.map_bind]
    rfl

theorem Expr.resolveOption_rename (scope : Scope) (e : Option Expr)
    (hcalled : ∀ n ∈ Expr.calledOption e, site.Finds σ site' n) : Expr.resolveOption site' scope e =
      (Expr.resolveOption site scope e).map (Option.map (Expr.rename σ)) := by
  cases e with
  | none => rfl
  | some e =>
    simp only [Expr.resolveOption, resolve_rename h scope e hcalled, Except.bind_map,
      Except.map_bind]
    rfl

theorem Resolving.declare_rename (r : Resolving) (name : String) (type : Primitive)
    (initial : Option Expr) (span : Span)
    (hcalled : ∀ n ∈ Expr.calledOption initial, site.Finds σ site' n) :
    r.declare site' name type initial span =
      ((r.declare site name type initial span).1.map (Stmt.rename σ),
        (r.declare site name type initial span).2) := by
  unfold Resolving.declare
  cases hdefault : Expr.default? type with
  | none => rfl
  | some default =>
    dsimp only
    cases r.scope.declare name ⟨type, r.locals.length⟩ span with
    | error => rfl
    | ok scope =>
      cases initial with
      | none =>
        have hsame : default.rename σ = default := Expr.rename_default? hdefault
        simp only [Except.map, Stmt.rename, Expr.rename, hsame]
      | some e =>
        simp only [Expr.resolve_rename h r.scope e hcalled]
        cases e.resolve site r.scope <;> rfl

mutual

/-- So does resolution, if calls find the renamed candidates. -/
theorem Stmt.resolve_rename : ∀ (s : Stmt) (r : Resolving), (∀ n ∈ s.called, site.Finds σ site' n) →
      s.resolve site' r = ((s.resolve site r).1.map (Stmt.rename σ), (s.resolve site r).2)
  | .expression e, r, hcalled => by
    simp only [Stmt.resolve, Expr.resolve_rename h r.scope e hcalled]
    cases e.resolve site r.scope <;> rfl
  | .declare name type initial span, r, hcalled => by
    simp only [Stmt.resolve]
    exact Resolving.declare_rename h r name type initial span hcalled
  | .ret value span, r, hcalled => by
    simp only [Stmt.resolve, Expr.resolveOption_rename h r.scope value hcalled]
    cases Expr.resolveOption site r.scope value <;> rfl
  | .branch cond body alts span, r, hcalled => by
    simp only [Stmt.called, forall_mem_append] at hcalled
    obtain ⟨⟨hcond, hbody⟩, halts⟩ := hcalled
    simp only [Stmt.resolve, Expr.resolve_rename h r.scope cond hcond]
    cases cond.resolve site r.scope with
    | error => rfl
    | ok =>
      simp only [Except.map, Stmt.resolve_rename body r.push hbody]
      obtain ⟨x, r⟩ := body.resolve site r.push
      cases x with
      | error => rfl
      | ok =>
        simp only [Except.map, Alternatives.resolve_rename alts r.pop halts]
        obtain ⟨x, r⟩ := alts.resolve site r.pop
        cases x <;> rfl
  | .block body span, r, hcalled => by
    simp only [Stmt.resolve, Stmt.resolveAll_rename body r.push hcalled]
    rfl
  | .assembly .., _, _ => rfl

theorem Alternatives.resolve_rename :
    ∀ (a : Alternatives) (r : Resolving), (∀ n ∈ a.called, site.Finds σ site' n) →
      a.resolve site' r = ((a.resolve site r).1.map (Alternatives.rename σ), (a.resolve site r).2)
  | .none, _, _ => rfl
  | .more cond body next span, r, hcalled => by
    simp only [Alternatives.called, forall_mem_append] at hcalled
    obtain ⟨⟨hcond, hbody⟩, hnext⟩ := hcalled
    simp only [Alternatives.resolve, Expr.resolveOption_rename h r.scope cond hcond]
    cases Expr.resolveOption site r.scope cond with
    | error => rfl
    | ok =>
      simp only [Except.map, Stmt.resolve_rename body r.push hbody]
      obtain ⟨x, r⟩ := body.resolve site r.push
      cases x with
      | error => rfl
      | ok =>
        simp only [Except.map, Alternatives.resolve_rename next r.pop hnext]
        obtain ⟨x, r⟩ := next.resolve site r.pop
        cases x <;> rfl

theorem Stmt.resolveAll_rename :
    ∀ (body : List Stmt) (r : Resolving), (∀ n ∈ Stmt.calledAll body, site.Finds σ site' n) →
      Stmt.resolveAll site' body r =
        (Stmt.renameAll σ (Stmt.resolveAll site body r).1, (Stmt.resolveAll site body r).2)
  | [], _, _ => rfl
  | s :: rest, r, hcalled => by
    simp only [Stmt.calledAll, forall_mem_append] at hcalled
    simp only [Stmt.resolveAll, Stmt.resolve_rename s r hcalled.1]
    obtain ⟨x, r⟩ := s.resolve site r
    cases x with
    | error e => exact Stmt.resolveAll_rename rest (r.fail e) hcalled.2
    | ok =>
      simp only [Except.map, Stmt.resolveAll_rename rest r hcalled.2]
      rfl

end

end

/-! ## Checking -/

theorem Expr.integer?_rename (e : Expr) : (e.rename σ).integer? = e.integer? := by cases e <;> rfl

theorem Expr.span_rename (e : Expr) : (e.rename σ).span = e.span := by cases e <;> rfl

theorem Expr.clampLiteral_rename (n : Int) (target : Primitive) (e : Expr) :
    (e.rename σ).clampLiteral n target = (e.clampLiteral n target).map (Expr.rename σ) := by
  unfold Expr.clampLiteral
  rw [span_rename]
  dsimp only
  split <;> rfl

theorem Expr.fitOperand_rename (common : Primitive) (e : Expr) :
    (e.rename σ).fitOperand common = (e.fitOperand common).map (Expr.rename σ) := by
  unfold Expr.fitOperand
  rw [integer?_rename]
  split
  · exact clampLiteral_rename ..
  · rfl

section

variable {m m' : Method} (h : p.Renames σ q) (hname : m'.name = m.name)
  (htype : m'.returnType = m.returnType)

include h

theorem Expr.coerce_rename (e : Expr) (target : Primitive) :
    (e.rename σ).coerce q target = (e.coerce p target).map (Expr.rename σ) := by
  unfold Expr.coerce
  rw [integer?_rename, typeIn_rename h, span_rename]
  split
  · exact clampLiteral_rename ..
  · rw [Checked.map_bind]
    congr 1
    funext type
    split
    · rfl
    · split
      · rfl
      · split
        · rfl
        · simp only [Expr.castTo, span_rename]
          rfl

theorem Expr.checkArguments_rename {arguments : List Expr}
    (harguments : ∀ a ∈ arguments, (a.rename σ).check q = (a.check p).map (Expr.rename σ)) :
    ∀ types, Expr.checkArguments q (Expr.renameAll σ arguments) types =
      (Expr.checkArguments p arguments types).map (Expr.renameAll σ) := by
  induction arguments with
  | nil => exact fun types => by cases types <;> rfl
  | cons a _ ih =>
    intro types
    cases types with
    | nil => rfl
    | cons _ types =>
      have hrest := ih (fun b hb => harguments b (mem_cons_of_mem _ hb)) types
      simp only [Expr.renameAll, Expr.checkArguments, harguments a (by simp), hrest,
        coerce_rename h, Checked.bind_map, Checked.map_bind]
      rfl

/-- Checking commutes with renaming. -/
theorem Expr.check_rename (e : Expr) : (e.rename σ).check q = (e.check p).map (Expr.rename σ) := by
  induction e with
  | literal => rfl
  | name => rfl
  | binary op _ _ span hl hr =>
    have htype : ∀ l r : Expr, (Expr.binary op (l.rename σ) (r.rename σ) span).typeIn q =
        (Expr.binary op l r span).typeIn p := fun l r => typeIn_rename h (.binary op l r span)
    simp only [Expr.rename, Expr.check, hl, hr, typeIn_rename h, fitOperand_rename, htype,
      Checked.bind_map, Checked.map_bind]
    rfl
  | assign _ _ _ hv =>
    simp only [Expr.rename, Expr.check, hv, coerce_rename h, Checked.bind_map, Checked.map_bind]
    rfl
  | call target _ method span hargs =>
    simp only [Expr.rename, Expr.check]
    rcases h.callee target method span with ⟨e, hp, hq⟩ | ⟨m, _, hp, hq, htypes, -⟩
    · rw [hp, hq]
      rfl
    · have harguments := checkArguments_rename h hargs m.parameterTypes
      simp only [hp, hq, Checked.lift_ok_bind, htypes, harguments, Checked.bind_map,
        Checked.map_bind]
      rfl
  | cast _ _ _ ho =>
    simp only [Expr.rename, Expr.check, ho, Checked.bind_map, Checked.map_bind]
    rfl

theorem Expr.checkCondition_rename (e : Expr) :
    (e.rename σ).checkCondition q = (e.checkCondition p).map (Expr.rename σ) := by
  simp only [Expr.checkCondition, check_rename h, Checked.bind_map, Checked.map_bind,
    typeIn_rename h, span_rename]
  congr 1
  funext cond
  congr 1
  funext type
  split <;> rfl

theorem Expr.checkConditionOption_rename (e : Option Expr) :
    Expr.checkConditionOption q (e.map (Expr.rename σ)) =
      (Expr.checkConditionOption p e).map (Option.map (Expr.rename σ)) := by
  cases e with
  | none => rfl
  | some =>
    simp only [map_some, Expr.checkConditionOption, checkCondition_rename h,
      Checked.bind_map, Checked.map_bind]
    rfl

include hname htype

theorem Method.checkReturn_rename (value : Option Expr) (span : Span) :
    m'.checkReturn q (value.map (Expr.rename σ)) span =
      (m.checkReturn p value span).map (Option.map (Expr.rename σ)) := by
  unfold Method.checkReturn
  rw [hname, htype]
  cases value with
  | none =>
    dsimp only [map_none]
    split <;> rfl
  | some =>
    dsimp only [map_some]
    split
    · rw [Expr.typeIn_rename h, Checked.map_bind]
      rfl
    · simp only [Expr.check_rename h, Expr.coerce_rename h, Checked.bind_map, Checked.map_bind]
      rfl

mutual

theorem Stmt.check_rename : ∀ s : Stmt, (s.rename σ).check q m' = (s.check p m).map (Stmt.rename σ)
  | .expression e => by
    simp only [Stmt.rename, Stmt.check, Expr.check_rename h, Checked.bind_map, Checked.map_bind]
    rfl
  | .declare .. => rfl
  | .ret value span => by
    simp only [Stmt.rename, Stmt.check, Method.checkReturn_rename h hname htype, Checked.bind_map,
      Checked.map_bind]
    rfl
  | .branch cond body alts span => by
    simp only [Stmt.rename, Stmt.check, Expr.checkCondition_rename h,
      Stmt.check_rename body, Alternatives.check_rename alts, Checked.bind_map,
      Checked.map_bind]
    rfl
  | .block body span => by
    simp only [Stmt.rename, Stmt.check, Stmt.checkAll_rename body, Checked.bind_map,
      Checked.map_bind]
    rfl
  | .assembly .. => rfl

theorem Alternatives.check_rename :
    ∀ a : Alternatives, (a.rename σ).check q m' = (a.check p m).map (Alternatives.rename σ)
  | .none => rfl
  | .more cond body next span => by
    simp only [Alternatives.rename, Alternatives.check, Expr.checkConditionOption_rename h,
      Stmt.check_rename body, Alternatives.check_rename next, Checked.bind_map, Checked.map_bind]
    rfl

theorem Stmt.checkAll_rename : ∀ body : List Stmt,
      Stmt.checkAll q m' (Stmt.renameAll σ body) = (Stmt.checkAll p m body).map (Stmt.renameAll σ)
  | [] => rfl
  | s :: rest => by
    simp only [Stmt.renameAll, Stmt.checkAll, Stmt.check_rename s, Stmt.checkAll_rename rest,
      Checked.recover_map, Checked.bind_map, Checked.map_bind, Checked.map_pure]
    congr 1
    funext s
    congr 1
    funext rest
    cases s <;> rfl

end

end

/-! ## Lowering -/

/-- Whether the renamed positions hold methods of the same references. -/
def Program.Refers (σ : MethodId → MethodId) (p q : Program) : Prop :=
  ∀ id, (q.methodAt? (σ id)).map q.referenceOf = (p.methodAt? id).map p.referenceOf

variable {m' m : Method}

theorem Program.Refers.callee (h : p.Refers σ q) {target : DottedName} {method : Option MethodId}
    {span : Span} (hp : p.callee target method span = .ok m)
    (hq : q.callee target (method.map σ) span = .ok m') : q.referenceOf m' = p.referenceOf m := by
  cases method with
  | none => cases hp
  | some id =>
    have hid := h id
    simp only [Program.callee, map_some, bind_some] at hp hq
    cases hm : p.methodAt? id with
    | none =>
      rw [hm] at hp
      cases hp
    | some =>
      cases hm' : q.methodAt? (σ id) with
      | none =>
        rw [hm'] at hq
        cases hq
      | some =>
        rw [hm] at hp hid
        rw [hm'] at hq hid
        cases hp
        cases hq
        exact some.inj hid

section

theorem Expr.lowerArguments_rename {arguments : List Expr}
    (h : ∀ a ∈ arguments, ∀ expected, (a.rename σ).lower q expected = a.lower p expected) :
    ∀ types, Expr.lowerArguments q (Expr.renameAll σ arguments) types =
      Expr.lowerArguments p arguments types := by
  induction arguments with
  | nil => exact fun types => by cases types <;> rfl
  | cons a _ ih =>
    intro types
    cases types with
    | nil => rfl
    | cons _ types =>
      have hrest := ih (fun b hb => h b (mem_cons_of_mem _ hb)) types
      simp only [Expr.renameAll, Expr.lowerArguments, h a (by simp), hrest]

theorem Expr.comparison?_rename (e : Expr) :
    (e.rename σ).comparison? = e.comparison?.map fun c => (c.1, c.2.1.rename σ, c.2.2) := by
  cases e with
  | binary op _ right =>
    cases right with
    | literal value => cases value <;> cases op <;> rfl
    | _ => cases op <;> rfl
  | _ => rfl

variable (h : p.Renames σ q) (href : p.Refers σ q) (returnType : Primitive)

include h href

theorem Expr.lower_rename (e : Expr) :
    ∀ expected, (e.rename σ).lower q expected = e.lower p expected := by
  induction e with
  | literal => exact fun _ => rfl
  | name => exact fun _ => rfl
  | binary _ _ _ _ hl hr =>
    intro expected
    simp only [Expr.rename, Expr.lower, typeIn_rename h, hl, hr]
  | assign _ _ _ hv =>
    intro expected
    simp only [Expr.rename, Expr.lower, hv]
  | call target _ method span hargs =>
    intro expected
    simp only [Expr.rename, Expr.lower]
    rcases h.callee target method span with ⟨e, hp, hq⟩ | ⟨_, _, hp, hq, htypes, htype⟩
    · rw [hp, hq]
      rfl
    · simp only [hp, hq, ok_bind, htypes, htype, href.callee hp hq,
        lowerArguments_rename hargs]
  | cast _ _ _ ho =>
    intro expected
    simp only [Expr.rename, Expr.lower, ho]

theorem Expr.lowerTo_rename (target : Primitive) (e : Expr) :
    (e.rename σ).lowerTo q target = e.lowerTo p target := by
  simp only [Expr.lowerTo, lower_rename h href]

theorem Expr.lowerCondition_rename (e : Expr) :
    (e.rename σ).lowerCondition q = e.lowerCondition p := by
  unfold Expr.lowerCondition
  rw [comparison?_rename]
  cases e.comparison? with
  | none => simp only [map_none, Expr.lowerTruth, lowerTo_rename h href]
  | some =>
    simp only [map_some, typeIn_rename h, lower_rename h href, Expr.lowerTruth,
      lowerTo_rename h href]

mutual

theorem Stmt.lower_rename : ∀ s : Stmt, (s.rename σ).lower q returnType = s.lower p returnType
  | .expression e => by simp only [Stmt.rename, Stmt.lower, Expr.lower_rename h href]
  | .declare .. => rfl
  | .ret none span => rfl
  | .ret (some value) span => by
    simp only [Stmt.rename, map_some, Stmt.lower, Expr.lowerTo_rename h href]
  | .branch cond body alts span => by
    simp only [Stmt.rename, Stmt.lower, Expr.lowerCondition_rename h href,
      Stmt.lower_rename body, Alternatives.lower_rename alts]
  | .block body span => by
    simp only [Stmt.rename, Stmt.lower, Stmt.lowerAll_rename body]
  | .assembly .. => rfl

theorem Alternatives.lower_rename :
    ∀ a : Alternatives, (a.rename σ).lower q returnType = a.lower p returnType
  | .none => rfl
  | .more none body next span => by
    simp only [Alternatives.rename, map_none, Alternatives.lower, Stmt.lower_rename body]
  | .more (some cond) body next span => by
    simp only [Alternatives.rename, map_some, Alternatives.lower,
      Expr.lowerCondition_rename h href, Stmt.lower_rename body, Alternatives.lower_rename next]

theorem Stmt.lowerAll_rename : ∀ body : List Stmt,
      Stmt.lowerAll q returnType (Stmt.renameAll σ body) = Stmt.lowerAll p returnType body
  | [] => rfl
  | s :: rest => by
    simp only [Stmt.renameAll, Stmt.lowerAll, Stmt.lower_rename s, Stmt.lowerAll_rename rest]

end

end

/-! ## Methods -/

/-- Whether two methods are alike but for their positions, their statements and their code. -/
structure Method.Twins (m m' : Method) : Prop where
  script : m'.script = m.script
  name : m'.name = m.name
  returnType : m'.returnType = m.returnType
  parameters : m'.parameters = m.parameters
  external : m'.external = m.external
  locals : m'.locals = m.locals

/-- Resolution does the same with equal statements of twins, up to the renaming. -/
theorem Method.Twins.resolve (htwins : m.Twins m') (h : p.Renames σ q)
    (hstmts : m'.statements = m.statements)
    (hcalled : ∀ n ∈ Stmt.calledAll m.statements, Site.Finds σ ⟨p, m.owner⟩ ⟨q, m'.owner⟩ n) :
    (m.resolve p).1.Twins (m'.resolve q).1 ∧
      (m'.resolve q).1.statements = Stmt.renameAll σ (m.resolve p).1.statements ∧
      (m'.resolve q).2 = (m.resolve p).2 := by
  have hall := @Stmt.resolveAll_rename σ ⟨p, m.owner⟩ ⟨q, m'.owner⟩ h
    m.statements { scope := .ofParameters (m.parameters.map fun q => (q.name, q.type)),
                   locals := m.locals } hcalled
  unfold Method.resolve
  rw [hstmts, htwins.parameters, htwins.locals]
  simp only [hall]
  exact ⟨⟨htwins.script, htwins.name, htwins.returnType, rfl, htwins.external, rfl⟩, trivial,
    trivial⟩

theorem Method.Twins.check (htwins : m.Twins m') (h : p.Renames σ q)
    (hstmts : m'.statements = Stmt.renameAll σ m.statements) : (m.check p).1.Twins (m'.check q).1 ∧
      (m'.check q).1.statements = Stmt.renameAll σ (m.check p).1.statements ∧
      (m'.check q).2 = (m.check p).2 := by
  have hall := Stmt.checkAll_rename h htwins.name htwins.returnType m.statements
  unfold Method.check
  rw [hstmts, hall]
  refine ⟨⟨htwins.script, htwins.name, htwins.returnType, htwins.parameters, htwins.external,
    htwins.locals⟩, ?_, rfl⟩
  dsimp only [Checked.map]
  cases (Stmt.checkAll p m m.statements).outcome <;> rfl

/-- Lowering gives twins the same code and errors. -/
theorem Method.Twins.lower (htwins : m.Twins m') (h : p.Renames σ q) (href : p.Refers σ q)
    (hstmts : m'.statements = Stmt.renameAll σ m.statements) :
    (m.lower p).1.Twins (m'.lower q).1 ∧ (m'.lower q).1.code = (m.lower p).1.code ∧
      (m'.lower q).2 = (m.lower p).2 := by
  have hresults : ∀ r, m'.statements.foldl (Stmt.lowerNext q m'.returnType) r =
      m.statements.foldl (Stmt.lowerNext p m.returnType) r := by
    rw [hstmts, htwins.returnType]
    induction m.statements with
    | nil => exact fun _ => rfl
    | cons s _ ih =>
      intro r
      rw [Stmt.renameAll, foldl_cons, foldl_cons, ih]
      have hlower := Stmt.lower_rename h href m.returnType s
      cases hs : s.lower p m.returnType with
      | ok => rw [Stmt.lowerNext_ok hs, Stmt.lowerNext_ok (hlower.trans hs)]
      | error => rw [Stmt.lowerNext_error hs, Stmt.lowerNext_error (hlower.trans hs)]
  unfold Method.lower
  rw [hresults]
  exact ⟨⟨htwins.script, htwins.name, htwins.returnType, htwins.parameters, htwins.external,
    htwins.locals⟩, rfl, rfl⟩

end

/-! ## The renaming that keeps all positions -/

theorem Expr.renameAll_eq_map (σ : MethodId → MethodId) (es : List Expr) :
    Expr.renameAll σ es = es.map (Expr.rename σ) := by
  induction es with
  | nil => rfl
  | cons _ _ ih => rw [Expr.renameAll, map_cons, ih]

@[simp] theorem Expr.rename_id (e : Expr) : e.rename id = e := by
  induction e with
  | literal => rfl
  | name => rfl
  | binary _ _ _ _ hl hr => rw [Expr.rename, hl, hr]
  | assign _ _ _ hv => rw [Expr.rename, hv]
  | call _ arguments _ _ hargs =>
    have hsame : Expr.renameAll id arguments = arguments := by
      rw [renameAll_eq_map, map_congr_left hargs, List.map_id']
    rw [Expr.rename, hsame, Option.map_id_fun, id_eq]
  | cast _ _ _ ho => rw [Expr.rename, ho]

theorem Expr.map_rename_id (e : Option Expr) : e.map (Expr.rename id) = e := by
  cases e with
  | none => rfl
  | some e => rw [map_some, rename_id]

mutual

theorem Stmt.rename_id : ∀ s : Stmt, s.rename id = s
  | .expression e => by rw [Stmt.rename, Expr.rename_id]
  | .declare name type initial span => by rw [Stmt.rename, Expr.map_rename_id]
  | .ret value span => by rw [Stmt.rename, Expr.map_rename_id]
  | .branch cond body alts span => by
    rw [Stmt.rename, Expr.rename_id, Stmt.rename_id body, Alternatives.rename_id alts]
  | .block body span => by rw [Stmt.rename, Stmt.renameAll_id body]
  | .assembly .. => rfl

theorem Alternatives.rename_id : ∀ a : Alternatives, a.rename id = a
  | .none => rfl
  | .more cond body next span => by
    rw [Alternatives.rename, Expr.map_rename_id, Stmt.rename_id body, Alternatives.rename_id next]

theorem Stmt.renameAll_id : ∀ body : List Stmt, Stmt.renameAll id body = body
  | [] => rfl
  | s :: rest => by rw [Stmt.renameAll, Stmt.rename_id s, Stmt.renameAll_id rest]

end

end ScriptCompiler
