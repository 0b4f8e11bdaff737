import ScriptCompiler.Proofs.Declaration
import ScriptCompiler.Proofs.LexicalScopes
import ScriptCompiler.Proofs.Signatures

/-!
# A lexical resolver

A second resolver hands the visible names down the tree as a value that nothing changes: a block
gets the names around it with an empty map on top, what it binds goes no further, and a declaration
adds its name for the statements behind it. A count of the declarations is all that goes from one
statement to the next.

The pass keeps one scope that it changes. It gives the same statements, slots and errors
(`Method.resolve_eq_lexical`), since the scope reflects the maps that were handed down
(`Scope.Reflects`), before and behind each statement.
-/

set_option autoImplicit false

namespace ScriptCompiler

open List Option

/-! ## Names handed down the tree -/

/-- A name with the slot that it means among the visible names. -/
def NameUse.lexical (names : NameStack) (u : NameUse) : Evaluating NameUse :=
  match u.symbol.segments with
  | [name] =>
    match names.lookup? name with
    | some slot => .ok ⟨u.symbol, some slot, u.span⟩
    | none => .error (.localVariableNotFound u.symbol.text u.span)
  | _ => .error (.localVariableNotFound u.symbol.text u.span)

mutual

/-- An expression with its names and calls bound. -/
def Expr.lexical (site : Site) (names : NameStack) : Expr → Evaluating Expr
  | .literal value span => .ok (.literal value span)
  | .name use => (use.lexical names).map .name
  | .binary op left right span => do
    let left ← left.lexical site names
    let right ← right.lexical site names
    return .binary op left right span
  | .assign target value span => do
    let value ← value.lexical site names
    let target ← target.lexical names
    return .assign target value span
  | .call target args _ span => do
    let args ← Expr.lexicalAll site names args
    let types ← Expr.typesIn site.program args
    let method ← site.choose target types span
    return .call target args (some method) span
  | .cast operand type span => do
    let operand ← operand.lexical site names
    return .cast operand type span

/-- Expressions one by one. -/
def Expr.lexicalAll (site : Site) (names : NameStack) :
    List Expr → Evaluating (List Expr)
  | [] => .ok []
  | e :: rest => do
    let e ← e.lexical site names
    let rest ← Expr.lexicalAll site names rest
    return e :: rest

end

/-- An optional expression. -/
def Expr.lexicalOption (site : Site) (names : NameStack) :
    Option Expr → Evaluating (Option Expr)
  | none => .ok none
  | some e => (e.lexical site names).map some

/-- What resolving a part comes to: its result, the slots given out in it, and the errors of the
statements left out of it. -/
structure Resolution (α : Type) where
  result : α
  given : List Slot := []
  errors : List EvaluationError := []

/-- One part behind `count` declarations and then another one, which is not reached if the first
one fails. -/
def Resolution.andThen {α β γ : Type} (first : Resolution (Evaluating α)) (count : Nat)
    (next : Nat → Resolution (Evaluating β)) (build : α → β → γ) :
    Resolution (Evaluating γ) :=
  match first.result with
  | .error e => { result := .error e, given := first.given, errors := first.errors }
  | .ok a =>
    let others := next (count + first.given.length)
    { result := others.result.map (build a)
      given := first.given ++ others.given
      errors := first.errors ++ others.errors }

/-- A declaration behind `count` others: it takes the next slot, also if its name is refused or its
initial value cannot be resolved. -/
def NameStack.declaration (names : NameStack) (site : Site) (count : Nat) (name : String)
    (type : Primitive) (initial : Option Expr) (span : Span) :
    Resolution (Evaluating Stmt) :=
  match Expr.default? type with
  | none => { result := .error (.invalidDeclarationType name type span) }
  | some default =>
    let slot : Slot := ⟨type, count⟩
    { result := do
        if (names.top name).isSome then throw (.duplicateLocal name span)
        let value ← (initial.map (Expr.lexical site names)).getD (.ok default)
        return .expression (.assign ⟨⟨[name]⟩, some slot, span⟩ value span)
      given := [slot] }

/-- The names with one more on top; a name that is bound there keeps its slot. -/
def NameStack.bind (names : NameStack) (name : String) (slot : Slot) : NameStack :=
  if (names.top name).isSome then names else { names with top := names.top.insert name slot }

/-- The names behind a statement: only a declaration adds one, whatever its initial value. -/
def Stmt.namesBehind (names : NameStack) (count : Nat) : Stmt → NameStack
  | .declare name type _ _ =>
    match Expr.default? type with
    | none => names
    | some _ => names.bind name ⟨type, count⟩
  | _ => names

mutual

/-- A statement behind `count` declarations. -/
def Stmt.lexical (site : Site) (names : NameStack) (count : Nat) :
    Stmt → Resolution (Evaluating Stmt)
  | .expression e => { result := (e.lexical site names).map .expression }
  | .declare name type initial span => names.declaration site count name type initial span
  | .ret value span =>
    { result := (Expr.lexicalOption site names value).map fun value => .ret value span }
  | .branch cond body alts span =>
    match cond.lexical site names with
    | .error e => { result := .error e }
    | .ok cond =>
      (body.lexical site names.push count).andThen count
        (fun count => alts.lexical site names count)
        fun body alts => .branch cond body alts span
  | .block body span =>
    let inner := Stmt.lexicalAll site names.push count body
    { result := .ok (.block inner.result span), given := inner.given, errors := inner.errors }
  | .assembly text span => { result := .ok (.assembly text span) }

/-- Alternatives behind `count` declarations; the names around them are the same for all. -/
def Alternatives.lexical (site : Site) (names : NameStack) (count : Nat) :
    Alternatives → Resolution (Evaluating Alternatives)
  | .none => { result := .ok .none }
  | .more cond body next span =>
    match Expr.lexicalOption site names cond with
    | .error e => { result := .error e }
    | .ok cond =>
      (body.lexical site names.push count).andThen count
        (fun count => next.lexical site names count)
        fun body next => .more cond body next span

/-- The statements of a block, each with the names that stand before it; one that fails is left
out. -/
def Stmt.lexicalAll (site : Site) (names : NameStack) (count : Nat) :
    List Stmt → Resolution (List Stmt)
  | [] => { result := [] }
  | s :: rest =>
    let first := s.lexical site names count
    let others := Stmt.lexicalAll site (s.namesBehind names count) (count + first.given.length) rest
    match first.result with
    | .error e =>
      { result := others.result
        given := first.given ++ others.given
        errors := first.errors ++ e :: others.errors }
    | .ok s =>
      { result := s :: others.result
        given := first.given ++ others.given
        errors := first.errors ++ others.errors }

end

/-- The body of a method, in which the parameters are visible. -/
def Method.lexical (p : Program) (m : Method) : Resolution (List Stmt) :=
  Stmt.lexicalAll ⟨p, m.owner⟩ (.ofParameters (m.parameters.map fun q => (q.name, q.type)))
    m.locals.length m.statements

/-! ## Expressions -/

section

variable {site : Site} {scope : Scope} {names : NameStack}

/-- A name means the same in a scope and in the maps that it reflects. -/
theorem NameUse.resolve_eq_lexical (h : scope.Reflects (names.top :: names.below)) (u : NameUse) :
    u.resolve scope = u.lexical names := by
  have hlookup : ∀ name, scope.lookup? name = names.lookup? name := h.lookup?_eq
  unfold NameUse.resolve NameUse.lexical
  rcases u.symbol.segments with _ | ⟨name, _ | ⟨_, _⟩⟩
  · rfl
  · cases hfound : names.lookup? name with
    | none => simp only [hlookup, hfound]
    | some => simp only [hlookup, hfound]
  · rfl

theorem Expr.resolveAll_eq_lexicalAll {es : List Expr}
    (h : ∀ e ∈ es, e.resolve site scope = e.lexical site names) :
    Expr.resolveAll site scope es = Expr.lexicalAll site names es := by
  induction es with
  | nil => rfl
  | cons _ _ ih =>
    obtain ⟨he, hrest⟩ := forall_mem_cons.1 h
    rw [Expr.resolveAll, Expr.lexicalAll, he, ih hrest]

theorem Expr.resolve_eq_lexical (h : scope.Reflects (names.top :: names.below)) (e : Expr) :
    e.resolve site scope = e.lexical site names := by
  induction e with
  | literal => rfl
  | name use =>
    rw [Expr.resolve, Expr.lexical, NameUse.resolve_eq_lexical h]
    cases use.lexical names <;> rfl
  | binary _ _ _ _ hl hr => rw [Expr.resolve, Expr.lexical, hl, hr]
  | assign _ _ _ hv => rw [Expr.resolve, Expr.lexical, hv, NameUse.resolve_eq_lexical h]
  | call _ _ _ _ hargs =>
    rw [Expr.resolve, Expr.lexical, resolveAll_eq_lexicalAll hargs]
  | cast _ _ _ ho => rw [Expr.resolve, Expr.lexical, ho]

theorem Expr.resolveOption_eq_lexicalOption (h : scope.Reflects (names.top :: names.below))
    (value : Option Expr) :
    Expr.resolveOption site scope value = Expr.lexicalOption site names value := by
  cases value with
  | none => rfl
  | some e =>
    rw [Expr.resolveOption, Expr.lexicalOption, resolve_eq_lexical h]
    cases e.lexical site names <;> rfl

end

/-! ## Statements -/

/-- What a body keeps after a part of it: the slots and the errors of the part are added. -/
structure Resolving.Gains (r : Resolving) {α : Type} (part : Resolution α) (r' : Resolving) :
    Prop where
  locals : r'.locals = r.locals ++ part.given.map Slot.type
  errors : r'.errors = r.errors ++ part.errors

/-- Whether resolving a part comes to what the names around it say, with a scope behind it that
reflects `names`. -/
structure Resolving.ComesTo (r : Resolving) {α : Type} (x : α × Resolving) (part : Resolution α)
    (names : NameStack) : Prop where
  result : x.1 = part.result
  gains : r.Gains part x.2
  reflects : x.2.scope.Reflects (names.top :: names.below)

namespace Resolving

variable {α β : Type} {r r₁ r₂ : Resolving} {part : Resolution α} {others : Resolution β}

theorem Gains.length (h : r.Gains part r₁) :
    r₁.locals.length = r.locals.length + part.given.length := by
  rw [h.locals, length_append, length_map]

theorem Gains.nothing (result : α) : r.Gains ⟨result, [], []⟩ r := ⟨by simp, by simp⟩

theorem Gains.fail (h : r.Gains part r₁) (e : EvaluationError) :
    r.Gains ⟨(), part.given, part.errors ++ [e]⟩ (r₁.fail e) where
  locals := h.locals
  errors := by
    show r₁.errors ++ [e] = _
    rw [h.errors, append_assoc]

theorem Gains.trans {γ : Type} (h : r.Gains part r₁) (h' : r₁.Gains others r₂) (result : γ) :
    r.Gains ⟨result, part.given ++ others.given, part.errors ++ others.errors⟩ r₂ where
  locals := by rw [h'.locals, h.locals, map_append, append_assoc]
  errors := by rw [h'.errors, h.errors, append_assoc]

/-- A condition resolved, then a body in a scope of its own, and then what follows. -/
def nested {α β γ : Type} (r : Resolving) (cond : Evaluating α)
    (body : Evaluating Stmt × Resolving)
    (rest : Resolving → Evaluating β × Resolving) (build : α → Stmt → β → γ) :
    Evaluating γ × Resolving :=
  match cond, body with
  | .error e, _ => (.error e, r)
  | .ok _, (.error e, r) => (.error e, r.pop)
  | .ok cond, (.ok body, r) => ((rest r.pop).1.map (build cond body), (rest r.pop).2)

end Resolving

section

variable (site : Site) (body : Stmt) (span : Span) (r : Resolving)

theorem Stmt.resolve_branch (cond : Expr) (alts : Alternatives) :
    (Stmt.branch cond body alts span).resolve site r =
      r.nested (cond.resolve site r.scope) (body.resolve site r.push)
        (alts.resolve site) fun c s a => .branch c s a span := by
  rw [Stmt.resolve]
  cases cond.resolve site r.scope with
  | error => rfl
  | ok =>
    rcases body.resolve site r.push with ⟨e | s, r₁⟩
    · rfl
    · dsimp only [Resolving.nested]
      rcases alts.resolve site r₁.pop with ⟨e | a, _⟩ <;> rfl

theorem Alternatives.resolve_more (cond : Option Expr) (next : Alternatives) :
    (Alternatives.more cond body next span).resolve site r =
      r.nested (Expr.resolveOption site r.scope cond) (body.resolve site r.push)
        (next.resolve site) fun c s a => .more c s a span := by
  rw [Alternatives.resolve]
  cases Expr.resolveOption site r.scope cond with
  | error => rfl
  | ok =>
    rcases body.resolve site r.push with ⟨e | s, r₁⟩
    · rfl
    · dsimp only [Resolving.nested]
      rcases next.resolve site r₁.pop with ⟨e | a, _⟩ <;> rfl

end

/-- A statement leaves the names around its block as they are. -/
theorem Stmt.below_namesBehind (names : NameStack) (count : Nat) (s : Stmt) :
    (s.namesBehind names count).below = names.below := by
  cases s with
  | declare _ type =>
    rw [Stmt.namesBehind]
    cases Expr.default? type with
    | none => rfl
    | some =>
      dsimp only [NameStack.bind]
      split <;> rfl
  | expression => rfl
  | ret => rfl
  | branch => rfl
  | block => rfl
  | assembly => rfl

/-- A scope that was opened for a body and reflects what the body binds gives the names around the
body back when it is closed. -/
theorem Scope.Reflects.pop_of_below {s : Scope} {names inner : NameStack}
    (h : s.Reflects (inner.top :: inner.below)) (hbelow : inner.below = names.push.below) :
    s.pop.Reflects (names.top :: names.below) := by
  rw [hbelow] at h
  exact h.pop (cons_ne_nil _ _)

/-- A declaration does the same to a scope and to the maps that it reflects. -/
theorem Resolving.declare_eq_lexical {site : Site} {r : Resolving} {names : NameStack}
    (h : r.scope.Reflects (names.top :: names.below)) (name : String) (type : Primitive)
    (initial : Option Expr) (span : Span) : r.ComesTo (r.declare site name type initial span)
      (names.declaration site r.locals.length name type initial span)
      ((Stmt.declare name type initial span).namesBehind names r.locals.length) := by
  rw [Resolving.declare, NameStack.declaration, Stmt.namesBehind]
  cases Expr.default? type with
  | none => exact ⟨rfl, .nothing _, h⟩
  | some =>
    dsimp only [NameStack.bind]
    cases hname : names.top name with
    | some =>
      have hsome : (names.top name).isSome = true := by rw [hname]; rfl
      rw [h.declare_error hsome]
      exact ⟨rfl, ⟨rfl, by simp⟩, h⟩
    | none =>
      obtain ⟨scope, hscope, hreflects⟩ := h.declare_ok hname ⟨type, r.locals.length⟩ span
      rw [hscope]
      refine ⟨?_, ⟨rfl, by simp⟩, hreflects⟩
      cases initial with
      | none => rfl
      | some e =>
        dsimp only [map_some, getD_some]
        rw [Expr.resolve_eq_lexical h]
        cases e.lexical site names <;> rfl

/-- A body and what follows it come to what one says after the other. -/
theorem Resolving.nested_eq_lexical {α β γ : Type} {r : Resolving} {names : NameStack} {c : α}
    {body : Evaluating Stmt × Resolving}
    {rest : Resolving → Evaluating β × Resolving} {build : α → Stmt → β → γ}
    {first : Resolution (Evaluating Stmt)}
    {next : Nat → Resolution (Evaluating β)}
    (hbody : r.ComesTo (body.1, body.2.pop) first names)
    (hrest : ∀ r : Resolving, r.scope.Reflects (names.top :: names.below) →
      r.ComesTo (rest r) (next r.locals.length) names) :
    r.ComesTo (r.nested (.ok c) body rest build) (first.andThen r.locals.length next (build c))
      names := by
  obtain ⟨hres, hgains, hpop⟩ := hbody
  unfold Resolution.andThen
  rw [← hres]
  obtain ⟨result, r₁⟩ := body
  cases result with
  | error => exact ⟨rfl, ⟨hgains.locals, hgains.errors⟩, hpop⟩
  | ok s =>
    obtain ⟨hothers, hmore, hlast⟩ := hrest r₁.pop hpop
    rw [hgains.length] at hothers hmore
    exact ⟨congrArg (Except.map (build c s)) hothers, hgains.trans hmore _, hlast⟩

/-- A body with names of its own comes to the same outside. -/
theorem Resolving.ComesTo.body {site : Site} {body : Stmt} {r : Resolving} {names : NameStack}
    (h : r.push.ComesTo (body.resolve site r.push) (body.lexical site names.push r.locals.length)
      (body.namesBehind names.push r.locals.length)) :
    r.ComesTo ((body.resolve site r.push).1, (body.resolve site r.push).2.pop)
      (body.lexical site names.push r.locals.length) names := by
  obtain ⟨hbody, hgains, hinner⟩ := h
  refine ⟨hbody, ⟨hgains.locals, hgains.errors⟩, ?_⟩
  exact hinner.pop_of_below (body.below_namesBehind names.push r.locals.length)

variable (site : Site)

mutual

/-- Resolving a statement comes to what the names around it say, and the scope behind it reflects
the names behind it. -/
theorem Stmt.resolve_eq_lexical :
    ∀ (s : Stmt) (r : Resolving) (names : NameStack), r.scope.Reflects (names.top :: names.below) →
      r.ComesTo (s.resolve site r) (s.lexical site names r.locals.length)
        (s.namesBehind names r.locals.length)
  | .expression e, r, names, h => by
    rw [Stmt.resolve, Stmt.lexical, Expr.resolve_eq_lexical h]
    exact ⟨rfl, .nothing _, h⟩
  | .declare name type initial span, r, names, h => by
    rw [Stmt.resolve, Stmt.lexical]
    exact Resolving.declare_eq_lexical h name type initial span
  | .ret value span, r, names, h => by
    rw [Stmt.resolve, Stmt.lexical, Expr.resolveOption_eq_lexicalOption h]
    exact ⟨rfl, .nothing _, h⟩
  | .branch cond body alts span, r, names, h => by
    rw [Stmt.resolve_branch, Stmt.lexical, Expr.resolve_eq_lexical h]
    cases cond.lexical site names with
    | error => exact ⟨rfl, .nothing _, h⟩
    | ok =>
      exact Resolving.nested_eq_lexical (Stmt.resolve_eq_lexical body r.push names.push h.push).body
        fun r => Alternatives.resolve_eq_lexical alts r names
  | .block body span, r, names, h => by
    obtain ⟨_, hbelow, hbody, hgains, hinner⟩ :=
      Stmt.resolveAll_eq_lexicalAll body r.push names.push h.push
    rw [Stmt.resolve, Stmt.lexical]
    refine ⟨?_, ⟨hgains.locals, hgains.errors⟩, hinner.pop_of_below hbelow⟩
    dsimp only
    rw [hbody]
    rfl
  | .assembly text span, r, names, h => ⟨rfl, .nothing _, h⟩

theorem Alternatives.resolve_eq_lexical : ∀ (a : Alternatives) (r : Resolving) (names : NameStack),
      r.scope.Reflects (names.top :: names.below) →
      r.ComesTo (a.resolve site r) (a.lexical site names r.locals.length) names
  | .none, r, names, h => ⟨rfl, .nothing _, h⟩
  | .more cond body next span, r, names, h => by
    rw [Alternatives.resolve_more, Alternatives.lexical, Expr.resolveOption_eq_lexicalOption h]
    cases Expr.lexicalOption site names cond with
    | error => exact ⟨rfl, .nothing _, h⟩
    | ok =>
      exact Resolving.nested_eq_lexical (Stmt.resolve_eq_lexical body r.push names.push h.push).body
        fun r => Alternatives.resolve_eq_lexical next r names

/-- Both resolvers agree on a body, and the scope reflects the names. -/
theorem Stmt.resolveAll_eq_lexicalAll : ∀ (body : List Stmt) (r : Resolving) (names : NameStack),
      r.scope.Reflects (names.top :: names.below) →
      ∃ inner : NameStack, inner.below = names.below ∧ r.ComesTo (Stmt.resolveAll site body r)
        (Stmt.lexicalAll site names r.locals.length body) inner
  | [], r, names, h => ⟨names, rfl, rfl, .nothing _, h⟩
  | s :: rest, r, names, h => by
    obtain ⟨hs, hgains, hbehind⟩ := Stmt.resolve_eq_lexical s r names h
    have hbelow := s.below_namesBehind names r.locals.length
    rw [Stmt.resolveAll, Stmt.lexicalAll]
    cases hres : s.resolve site r with
    | mk result r₁ =>
      rw [hres] at hs hgains hbehind
      dsimp only
      rw [← hs]
      cases result with
      | error e =>
        obtain ⟨inner, hinner, hrest, hmore, hlast⟩ :=
          Stmt.resolveAll_eq_lexicalAll rest (r₁.fail e) _ hbehind
        rw [(hgains.fail e).length] at hrest hmore
        have hall := (hgains.fail e).trans hmore ()
        refine ⟨inner, hinner.trans hbelow, hrest, ⟨hall.locals, ?_⟩, hlast⟩
        rw [hall.errors]
        simp only [append_assoc, singleton_append]
      | ok =>
        obtain ⟨inner, hinner, hrest, hmore, hlast⟩ :=
          Stmt.resolveAll_eq_lexicalAll rest r₁ _ hbehind
        rw [hgains.length] at hrest hmore
        refine ⟨inner, hinner.trans hbelow, ?_, hgains.trans hmore _, hlast⟩
        rw [← hrest]

end

/-! ## Slots in order -/

/-- Whether slots are numbered one after the other, from `first` on. -/
def Consecutive (first : Nat) (slots : List Slot) : Prop :=
  ∀ (n : Nat) (slot : Slot), slots[n]? = some slot → slot.index = (first + n : Nat)

/-- What resolution keeps to when it gives out slots: they are numbered one after the other, and they
have values. -/
structure Fresh (first : Nat) (slots : List Slot) : Prop where
  consecutive : Consecutive first slots
  concrete : ∀ slot ∈ slots, slot.type.isConcreteValue = true

theorem Fresh.nil (first : Nat) : Fresh first [] := ⟨nofun, nofun⟩

theorem Fresh.append {first : Nat} {slots more : List Slot} (h : Fresh first slots)
    (h' : Fresh (first + slots.length) more) : Fresh first (slots ++ more) := by
  refine ⟨?_, forall_mem_append.2 ⟨h.concrete, h'.concrete⟩⟩
  intro n slot hslot
  rcases Nat.lt_or_ge n slots.length with hn | hn
  · rw [getElem?_append_left hn] at hslot
    exact h.consecutive n slot hslot
  · rw [getElem?_append_right hn] at hslot
    rw [h'.consecutive _ slot hslot]
    omega

theorem Fresh.andThen {α β γ : Type} {first : Resolution (Evaluating α)}
    {count : Nat} {next : Nat → Resolution (Evaluating β)} (build : α → β → γ)
    (h : Fresh count first.given) (hnext : ∀ n, Fresh n (next n).given) :
    Fresh count (first.andThen count next build).given := by
  unfold Resolution.andThen
  cases first.result with
  | error => exact h
  | ok => exact h.append (hnext _)

mutual

/-- The slots given out in a statement are numbered from the count of those before it. -/
theorem Stmt.fresh_lexical : ∀ (s : Stmt) (names : NameStack) (count : Nat),
      Fresh count (s.lexical site names count).given
  | .expression _, _, count => .nil count
  | .declare name type initial span, names, count => by
    rw [Stmt.lexical, NameStack.declaration]
    cases hdefault : Expr.default? type with
    | none => exact .nil count
    | some =>
      refine ⟨?_, forall_mem_singleton.2 (Expr.isConcreteValue_of_default? hdefault)⟩
      intro n slot h
      obtain ⟨rfl, rfl⟩ : n = 0 ∧ (⟨type, count⟩ : Slot) = slot := by
        cases n with
        | zero => exact ⟨rfl, some.inj h⟩
        | succ => cases h
      rfl
  | .ret _ _, _, count => .nil count
  | .branch cond body alts span, names, count => by
    rw [Stmt.lexical]
    cases cond.lexical site names with
    | error => exact .nil count
    | ok =>
      exact (Stmt.fresh_lexical body names.push count).andThen _
        (Alternatives.fresh_lexical alts names)
  | .block body span, names, count => Stmt.fresh_lexicalAll body names.push count
  | .assembly .., _, count => .nil count

theorem Alternatives.fresh_lexical : ∀ (a : Alternatives) (names : NameStack) (count : Nat),
      Fresh count (a.lexical site names count).given
  | .none, _, count => .nil count
  | .more cond body next span, names, count => by
    rw [Alternatives.lexical]
    cases Expr.lexicalOption site names cond with
    | error => exact .nil count
    | ok =>
      exact (Stmt.fresh_lexical body names.push count).andThen _
        (Alternatives.fresh_lexical next names)

theorem Stmt.fresh_lexicalAll : ∀ (body : List Stmt) (names : NameStack) (count : Nat),
      Fresh count (Stmt.lexicalAll site names count body).given
  | [], _, count => .nil count
  | s :: rest, names, count => by
    have hall := (Stmt.fresh_lexical s names count).append
      (Stmt.fresh_lexicalAll rest (s.namesBehind names count) _)
    rw [Stmt.lexicalAll]
    cases hs : (s.lexical site names count).result with
    | error => exact hall
    | ok => exact hall

end

/-! ## Methods -/

theorem Method.resolve_eq_lexical (p : Program) (m : Method) : m.resolve p =
      ({ m with
          statements := (m.lexical p).result
          locals := m.locals ++ (m.lexical p).given.map Slot.type },
        (m.lexical p).errors) := by
  obtain ⟨-, -, hbody, hgains, -⟩ := Stmt.resolveAll_eq_lexicalAll ⟨p, m.owner⟩ m.statements
    { scope := .ofParameters (m.parameters.map fun q => (q.name, q.type)), locals := m.locals }
    (.ofParameters (m.parameters.map fun q => (q.name, q.type))) (Scope.reflects_ofParameters _)
  unfold Method.resolve Method.lexical
  dsimp only
  rw [hbody, hgains.locals, hgains.errors]
  rfl

end ScriptCompiler
