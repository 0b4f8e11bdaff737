import ScriptCompiler.Proofs.Lexical
import ScriptCompiler.Proofs.OverloadChoice
import ScriptCompiler.Proofs.Parts

/-!
# Resolved trees

After resolution every name means a slot of its method, with the slot's type, and every call is
bound to a method that takes as many arguments as the call has (`Expr.Formed`). The invariant is
that visible names are only bound to slots of the method (`NameStack.Given`), stated about the names
that the lexical resolver hands down the tree.
-/

set_option autoImplicit false

namespace ScriptCompiler

open List Option

/-- The types of slots by their index: parameters below zero, locals from zero on. -/
def slotType (params locals : Types) (index : Int) : Option Primitive :=
  if index < 0 then params[(-index - 1).toNat]? else locals[index.toNat]?

/-- Whether a slot is given out with its type. -/
def Slot.Given (slots : Int → Option Primitive) (slot : Slot) : Prop :=
  slots slot.index = some slot.type

/-- A well-formed expression: names mean slots that are given out, calls are bound to methods with
as many parameters as there are arguments, and operations have what is asked of them. -/
inductive Expr.Formed (p : Program) (slots : Int → Option Primitive) (asks : Expr → Prop) :
    Expr → Prop where
  | literal {value span} : Formed p slots asks (.literal value span)
  | name {use slot} : use.slot = some slot → slot.Given slots → Formed p slots asks (.name use)
  | binary {op left right span} : asks (.binary op left right span) →
      Formed p slots asks left → Formed p slots asks right →
      Formed p slots asks (.binary op left right span)
  | assign {target slot value span} : target.slot = some slot → slot.Given slots →
      Formed p slots asks value → Formed p slots asks (.assign target value span)
  | call {target args method span callee} : method.bind p.methodAt? = some callee →
      args.length = callee.parameterTypes.length →
      (∀ a ∈ args, Formed p slots asks a) →
      Formed p slots asks (.call target args method span)
  | cast {operand type span} : Formed p slots asks operand →
      Formed p slots asks (.cast operand type span)

namespace Expr.Formed

variable {p q : Program} {slots slots' : Int → Option Primitive} {asks asks' : Expr → Prop}
  {e : Expr}

/-- More slots and weaker demands keep an expression well formed. -/
theorem mono (h : e.Formed p slots asks)
    (hslots : ∀ index t, slots index = some t → slots' index = some t)
    (hasks : ∀ e, asks e → asks' e) : e.Formed p slots' asks' := by
  induction h with
  | literal => exact .literal
  | name hu hg => exact .name hu (hslots _ _ hg)
  | binary ha _ _ hl hr => exact .binary (hasks _ ha) hl hr
  | assign hu hg _ hv => exact .assign hu (hslots _ _ hg) hv
  | call hc hlen _ hargs => exact .call hc hlen hargs
  | cast _ ho => exact .cast ho

theorem congr (h : e.Formed p slots asks) (hp : p.outline = q.outline) : e.Formed q slots asks := by
  induction h with
  | literal => exact .literal
  | name hu hg => exact .name hu hg
  | binary ha _ _ hl hr => exact .binary ha hl hr
  | assign hu hg _ hv => exact .assign hu hg hv
  | call hc hlen _ hargs =>
    obtain ⟨_, hc', ho⟩ := Program.exists_callee_of_outline_eq hp hc
    have htypes := congrArg Method.parameterTypes ho
    simp only [Method.outline_parameterTypes] at htypes
    exact .call hc' (by rw [htypes]; exact hlen) hargs
  | cast _ ho => exact .cast ho

end Expr.Formed

/-- What resolution gives the expressions of a statement. -/
def Demands.formed (p : Program) (slots : Int → Option Primitive) (asks : Expr → Prop) :
    Demands where
  effect e := e.Formed p slots asks
  condition e := e.Formed p slots asks
  result v := ∀ e ∈ v, e.Formed p slots asks

variable {slots : Int → Option Primitive} {p : Program} {site : Site} {names : NameStack}

theorem Demands.formed_congr {q : Program} (hp : p.outline = q.outline)
    (slots : Int → Option Primitive) (asks : Expr → Prop) :
    (Demands.formed p slots asks).Implies (Demands.formed q slots asks) where
  effect _ h := h.congr hp
  condition _ h := h.congr hp
  result _ h e he := (h e he).congr hp

variable {count : Nat} {types : Types} {type : Primitive} {es : List Expr}

/-- A call is bound to a method that accepts its arguments. -/
theorem Site.viable_of_choose {target : DottedName} {span : Span} {method : MethodId}
    (h : site.choose target types span = .ok method) :
    ∃ o : Overload, o.method = method ∧ o.Viable site.program types := by
  unfold Site.choose at h
  split at h
  · cases h
  · split at h
    · rename_i o ho
      cases h
      rw [Overload.resolve?_eq_coercible?] at ho
      exact ⟨o, rfl, (Overload.best?_eq_some_iff.1 ho).1.1⟩
    · cases h

/-! ## Names -/

/-- Whether all slots that names are bound to are given out. -/
def NameStack.Given (slots : Int → Option Primitive) (names : NameStack) : Prop :=
  ∀ m ∈ names.top :: names.below, ∀ name slot, m name = some slot → slot.Given slots

namespace NameStack

variable {names : NameStack}

theorem Given.of_lookup? (h : names.Given slots) {name : String} {slot : Slot}
    (hfound : names.lookup? name = some slot) : slot.Given slots := by
  obtain ⟨m, hm, hslot⟩ := exists_of_findSome?_eq_some hfound
  exact h m hm name slot hslot

theorem Given.push (h : names.Given slots) : names.push.Given slots :=
  forall_mem_cons.2 ⟨nofun, h⟩

theorem Given.bind (h : names.Given slots) (name : String) {slot : Slot}
    (hslot : slot.Given slots) : (names.bind name slot).Given slots := by
  unfold NameStack.bind
  split
  · exact h
  · obtain ⟨htop, hbelow⟩ := forall_mem_cons.1 h
    refine forall_mem_cons.2 ⟨?_, hbelow⟩
    intro other found hfound
    dsimp only [NameMap.insert] at hfound
    split at hfound
    · cases hfound
      exact hslot
    · exact htop other found hfound

theorem given_ofParameters (params : List (String × Primitive)) (locals : Types) :
    (ofParameters params).Given (slotType (params.map Prod.snd) locals) := by
  refine forall_mem_singleton.2 fun _ _ h => ?_
  obtain ⟨⟨q, position⟩, hq, rfl⟩ := map_eq_some_iff.1 h
  have hfound : params[position]? = some q :=
    mem_zipIdx_iff_getElem?.1 (mem_reverse.1 (mem_of_find?_eq_some hq))
  have hneg : -((position : Int) + 1) < 0 := by omega
  have hpos : (- -((position : Int) + 1) - 1).toNat = position := by omega
  simp only [Slot.Given, Slot.parameter, slotType, if_pos hneg, hpos, getElem?_map, hfound,
    map_some]

end NameStack

/-- Slots numbered from the count of the locals on are given out once they are added to them. -/
theorem Consecutive.given {locals : Types} {added : List Slot}
    (h : Consecutive locals.length added) (params : Types) :
    ∀ slot ∈ added, slot.Given (slotType params (locals ++ added.map Slot.type)) := by
  intro slot hslot
  obtain ⟨n, hn⟩ := mem_iff_getElem?.1 hslot
  have hindex := h n slot hn
  have hpos : ¬ slot.index < 0 := by omega
  have hnat : slot.index.toNat = locals.length + n := by omega
  rw [Slot.Given, slotType, if_neg hpos, hnat, getElem?_append_right (Nat.le_add_right ..),
    Nat.add_sub_cancel_left, getElem?_map, hn, map_some]

/-! ## Expressions -/

/-- What a resolved expression is: well formed, with nothing asked of its operations yet. -/
abbrev Expr.Bound (p : Program) (slots : Int → Option Primitive) : Expr → Prop :=
  Expr.Formed p slots fun _ => True

theorem NameUse.lexical_ok {u u' : NameUse} (h : u.lexical names = .ok u') :
    ∃ name slot, names.lookup? name = some slot ∧ u' = { u with slot := some slot } := by
  unfold NameUse.lexical at h
  split at h
  · split at h
    · rename_i hfound
      cases h
      exact ⟨_, _, hfound, rfl⟩
    · cases h
  · cases h

theorem Expr.length_of_typesIn (h : Expr.typesIn p es = .ok types) : types.length = es.length := by
  induction es generalizing types with
  | nil =>
    cases h
    rfl
  | cons _ _ ih =>
    obtain ⟨_, _, -, hts, h⟩ := of_bind₂ h
    cases h
    simp only [length_cons, ih hts]

theorem Expr.exists_of_lexicalAll {es' : List Expr} (h : Expr.lexicalAll site names es = .ok es') :
    ∀ e' ∈ es', ∃ e ∈ es, e.lexical site names = .ok e' := by
  induction es generalizing es' with
  | nil =>
    cases h
    simp
  | cons e _ ih =>
    obtain ⟨e', _, he', hrest', h⟩ := of_bind₂ h
    cases h
    refine forall_mem_cons.2 ⟨⟨e, by simp, he'⟩, fun a' ha' => ?_⟩
    obtain ⟨a, ha, hres⟩ := ih hrest' a' ha'
    exact ⟨a, mem_cons_of_mem _ ha, hres⟩

/-- What each construct has once its parts have it, every resolved expression has. -/
theorem Expr.lexical_induction {P : Expr → Expr → Prop}
    (literal : ∀ value span, P (.literal value span) (.literal value span))
    (name : ∀ use use', use.lexical names = .ok use' → P (.name use) (.name use'))
    (binary : ∀ op left right span left' right', P left left' → P right right' →
      P (.binary op left right span) (.binary op left' right' span))
    (assign : ∀ target value span target' value', target.lexical names = .ok target' →
      P value value' → P (.assign target value span) (.assign target' value' span))
    (call : ∀ target args method span args' types (o : Overload),
      (∀ a' ∈ args', ∃ a ∈ args, P a a') →
      Expr.typesIn site.program args' = .ok types → o.Viable site.program types →
      P (.call target args method span) (.call target args' (some o.method) span))
    (cast : ∀ operand type span operand', P operand operand' →
      P (.cast operand type span) (.cast operand' type span)) (e : Expr) :
    ∀ e', e.lexical site names = .ok e' → P e e' := by
  induction e with
  | literal value span =>
    intro e' h
    cases h
    exact literal value span
  | name use =>
    intro e' h
    obtain ⟨use', huse, rfl⟩ := Except.map_eq_ok_iff.1 h
    exact name use use' huse
  | binary _ _ _ _ hl hr =>
    intro e' h
    obtain ⟨left', right', hleft, hright, h⟩ := of_bind₂ h
    cases h
    exact binary _ _ _ _ _ _ (hl left' hleft) (hr right' hright)
  | assign _ _ _ hv =>
    intro e' h
    obtain ⟨value', target', hvalue, htarget, h⟩ := of_bind₂ h
    cases h
    exact assign _ _ _ _ _ htarget (hv value' hvalue)
  | call _ _ _ _ hargs =>
    intro e' h
    obtain ⟨args', types, harguments, htypes, h⟩ := of_bind₂ h
    obtain ⟨_, hchosen, h⟩ := of_bind h
    cases h
    obtain ⟨o, rfl, hviable⟩ := Site.viable_of_choose hchosen
    refine call _ _ _ _ _ _ o (fun a' ha' => ?_) htypes hviable
    obtain ⟨a, ha, hres⟩ := exists_of_lexicalAll harguments a' ha'
    exact ⟨a, ha, hargs a ha a' hres⟩
  | cast _ _ _ ho =>
    intro e' h
    obtain ⟨operand', hoperand, h⟩ := of_bind h
    cases h
    exact cast _ _ _ _ (ho operand' hoperand)

theorem Expr.bound_of_lexical (hnames : names.Given slots) (e : Expr) :
    ∀ e', e.lexical site names = .ok e' → e'.Bound site.program slots := by
  refine lexical_induction (P := fun _ e' => e'.Bound site.program slots)
    (fun _ _ => .literal) ?_ (fun _ _ _ _ _ _ hl hr => .binary trivial hl hr) ?_ ?_
    (fun _ _ _ _ ho => .cast ho) e
  · intro _ _ huse
    obtain ⟨name, slot, hfound, rfl⟩ := NameUse.lexical_ok huse
    exact .name rfl (hnames.of_lookup? hfound)
  · intro target value span _ _ htarget hv
    obtain ⟨name, slot, hfound, rfl⟩ := NameUse.lexical_ok htarget
    exact .assign rfl (hnames.of_lookup? hfound) hv
  · rintro target args method span args' types o hargs htypes ⟨callee, hcallee, hlen, -⟩
    refine .call hcallee ?_ fun a' ha' => ?_
    · rw [← hlen, length_of_typesIn htypes]
    · obtain ⟨_, _, ha⟩ := hargs a' ha'
      exact ha

/-- The value that a declaration without initialiser starts with is a literal, perhaps cast. -/
theorem Expr.eq_of_default? {e : Expr} (h : Expr.default? type = some e) :
    ∃ value span, e = .literal value span ∨ e = (Expr.literal value span).castTo type := by
  cases type <;> simp only [Expr.default?, Option.some.injEq, reduceCtorEq] at h <;> subst h <;>
    first
      | exact ⟨_, _, .inl rfl⟩
      | exact ⟨_, _, .inr rfl⟩

/-! ## Statements -/

/-- What resolution makes of a part of a statement, with names that mean slots given out; a
declaration becomes an assignment to a slot of its own. -/
inductive Part.Resolved (site : Site) (slots : Int → Option Primitive) : Part → Part → Prop
  | effect {names : NameStack} {e e' : Expr} : names.Given slots → e.lexical site names = .ok e' →
      Resolved site slots (.effect e) (.effect e')
  | declaration {names : NameStack} {name : String} {type : Primitive} {initial : Option Expr}
      {span : Span} {default value : Expr} {index : Int} : names.Given slots →
      Expr.default? type = some default → (⟨type, index⟩ : Slot).Given slots →
      (initial.map (Expr.lexical site names)).getD (.ok default) = .ok value →
      Resolved site slots (.declaration name type initial span)
        (.effect (.assign ⟨⟨[name]⟩, some ⟨type, index⟩, span⟩ value span))
  | result {names : NameStack} {v v' : Option Expr} {span : Span} : names.Given slots →
      Expr.lexicalOption site names v = .ok v' →
      Resolved site slots (.result v span) (.result v' span)
  | condition {names : NameStack} {e e' : Expr} {span : Span} : names.Given slots →
      e.lexical site names = .ok e' → Resolved site slots (.condition e span) (.condition e' span)
  | alternative {names : NameStack} {c c' : Option Expr} {span : Span} : names.Given slots →
      Expr.lexicalOption site names c = .ok c' →
      Resolved site slots (.alternative c span) (.alternative c' span)
  | mark {k : Mark} : Resolved site slots (.mark k) (.mark k)

/-- What the resolved expressions, the default values and the assignments of values to slots have,
every expression of a resolved part has. -/
theorem Part.Resolved.holds {P : Expr → Prop} {x y : Part} (h : Part.Resolved site slots x y)
    (hresolved : ∀ e ∈ x.expressions, ∀ names e', names.Given slots →
      e.lexical site names = .ok e' → P e') (hdefault : ∀ type e, Expr.default? type = some e → P e)
    (hassign : ∀ target slot value span, target.slot = some slot → slot.Given slots → P value →
      P (.assign target value span)) : (Demands.all P).Holds y := by
  have hoption : ∀ {names : NameStack} {v v' : Option Expr}, (∀ e ∈ v, e ∈ x.expressions) →
      names.Given slots → Expr.lexicalOption site names v = .ok v' → ∀ e ∈ v', P e := by
    intro names v v' hv hnames h
    cases v with
    | none =>
      cases h
      simp
    | some e =>
      obtain ⟨e', he', rfl⟩ := Except.map_eq_ok_iff.1 h
      rintro _ ⟨⟩
      exact hresolved e (hv e rfl) names e' hnames he'
  cases h with
  | effect hnames h => exact hresolved _ mem_cons_self _ _ hnames h
  | @declaration names _ _ initial _ default value _ hnames hnone hslot h =>
    refine hassign _ _ _ _ rfl hslot ?_
    cases initial with
    | some e => exact hresolved e mem_cons_self names value hnames h
    | none =>
      obtain rfl : default = value := Except.ok.inj h
      exact hdefault _ _ hnone
  | result hnames h => exact hoption (fun _ => mem_toList.2) hnames h
  | condition hnames h => exact hresolved _ mem_cons_self _ _ hnames h
  | alternative hnames h => exact hoption (fun _ => mem_toList.2) hnames h
  | mark => trivial

theorem Part.Resolved.bound {x y : Part} (h : Part.Resolved site slots x y) :
    (Demands.formed site.program slots fun _ => True).Holds y := by
  refine h.holds (fun e _ _ e' hnames => Expr.bound_of_lexical hnames e e') (fun type e hdefault => ?_)
    fun _ _ _ _ hslot hgiven hv => .assign hslot hgiven hv
  obtain ⟨_, _, rfl | rfl⟩ := Expr.eq_of_default? hdefault
  · exact .literal
  · exact .cast .literal

theorem Stmt.parts_ne_nil (s : Stmt) : s.parts ≠ [] := by cases s <;> simp [Stmt.parts]

theorem Expr.isSome_lexicalOption {c c' : Option Expr}
    (h : Expr.lexicalOption site names c = .ok c') : c'.isSome = c.isSome := by
  cases c with
  | none =>
    cases h
    rfl
  | some =>
    obtain ⟨_, -, rfl⟩ := Except.map_eq_ok_iff.1 h
    rfl

theorem Resolution.andThen_ok {α β γ : Type} {first : Resolution (Evaluating α)}
    {next : Nat → Resolution (Evaluating β)} {build : α → β → γ} {c : γ}
    (h : (first.andThen count next build).result = .ok c) :
    ∃ a b, first.result = .ok a ∧ (next (count + first.given.length)).result = .ok b ∧
      c = build a b ∧ first.andThen count next build =
        ⟨.ok c, first.given ++ (next (count + first.given.length)).given,
          first.errors ++ (next (count + first.given.length)).errors⟩ := by
  unfold Resolution.andThen at h ⊢
  cases hfirst : first.result with
  | error =>
    rw [hfirst] at h
    cases h
  | ok a =>
    rw [hfirst] at h
    obtain ⟨b, hb, rfl⟩ := Except.map_eq_ok_iff.1 h
    refine ⟨a, b, rfl, hb, rfl, ?_⟩
    dsimp only
    rw [hb]
    rfl

theorem NameStack.declaration_ok {name : String} {initial : Option Expr} {span : Span} {s : Stmt}
    (h : (names.declaration site count name type initial span).result = .ok s) :
    ∃ default value, Expr.default? type = some default ∧
      (initial.map (Expr.lexical site names)).getD (.ok default) = .ok value ∧
      s = .expression (.assign ⟨⟨[name]⟩, some ⟨type, count⟩, span⟩ value span) ∧
      (names.declaration site count name type initial span).given = [⟨type, count⟩] ∧
      (names.declaration site count name type initial span).errors = [] := by
  unfold NameStack.declaration at h ⊢
  cases hdefault : Expr.default? type with
  | none =>
    rw [hdefault] at h
    cases h
  | some default =>
    rw [hdefault] at h
    dsimp only at h
    split at h
    · cases h
    · obtain ⟨value, hvalue, h⟩ := of_bind h
      cases h
      exact ⟨default, value, rfl, hvalue, rfl, rfl, rfl⟩

theorem NameStack.Given.namesBehind (hnames : names.Given slots) {s : Stmt}
    (hgiven : ∀ slot ∈ (s.lexical site names count).given, slot.Given slots) :
    (s.namesBehind names count).Given slots := by
  cases s with
  | declare name type =>
    rw [Stmt.lexical, NameStack.declaration] at hgiven
    rw [Stmt.namesBehind]
    cases hdefault : Expr.default? type with
    | none => exact hnames
    | some =>
      rw [hdefault] at hgiven
      exact hnames.bind name (hgiven _ mem_cons_self)
  | expression => exact hnames
  | ret => exact hnames
  | branch => exact hnames
  | block => exact hnames
  | assembly => exact hnames

section

variable (site) (slots)

mutual

/-- Resolving a statement resolves its parts, if the slots that are given out to it are those of the
method. -/
theorem Stmt.lexical_rewrites : ∀ (s : Stmt) (names : NameStack) (count : Nat), names.Given slots →
    (∀ slot ∈ (s.lexical site names count).given, slot.Given slots) →
    ∀ s', (s.lexical site names count).result = .ok s' →
      Rewrites (Part.Resolved site slots) (s.lexical site names count).errors s.parts s'.parts
  | .expression e, names, count, hnames, _, s', hs' => by
    obtain ⟨_, he', rfl⟩ := Except.map_eq_ok_iff.1 hs'
    exact .one (.effect hnames he')
  | .declare name type initial span, names, count, hnames, hgiven, s', hs' => by
    rw [Stmt.lexical] at hgiven hs' ⊢
    obtain ⟨_, value, hdefault, hvalue, rfl, hslot, herrors⟩ := NameStack.declaration_ok hs'
    rw [hslot] at hgiven
    rw [herrors]
    exact .one (.declaration hnames hdefault (hgiven _ mem_cons_self) hvalue)
  | .ret value span, names, count, hnames, _, s', hs' => by
    obtain ⟨_, hvalue', rfl⟩ := Except.map_eq_ok_iff.1 hs'
    exact .one (.result hnames hvalue')
  | .branch condition body alts span, names, count, hnames, hgiven, s', hs' => by
    rw [Stmt.lexical] at hgiven hs' ⊢
    cases hc : condition.lexical site names with
    | error =>
      rw [hc] at hs'
      cases hs'
    | ok =>
      rw [hc] at hgiven hs'
      dsimp only at hgiven hs' ⊢
      obtain ⟨body', alts', hb, ha, rfl, heq⟩ := Resolution.andThen_ok hs'
      rw [heq] at hgiven ⊢
      obtain ⟨hfirst, hnext⟩ := forall_mem_append.1 hgiven
      have hbody := Stmt.lexical_rewrites body names.push count hnames.push hfirst body' hb
      have hrest := Alternatives.lexical_rewrites alts names _ hnames hnext alts' ha
      exact (Rewrites.one (.condition hnames hc)).append (hbody.append (hrest.behind .mark))
  | .block body span, names, count, hnames, hgiven, s', hs' => by
    cases hs'
    have hbody := Stmt.lexicalAll_rewrites body names.push count hnames.push hgiven
    exact (Rewrites.one .mark).append (hbody.behind .mark)
  | .assembly text span, names, count, _, _, s', hs' => by
    cases hs'
    exact .one .mark

theorem Alternatives.lexical_rewrites : ∀ (a : Alternatives) (names : NameStack) (count : Nat),
    names.Given slots → (∀ slot ∈ (a.lexical site names count).given, slot.Given slots) →
    ∀ a', (a.lexical site names count).result = .ok a' →
      Rewrites (Part.Resolved site slots) (a.lexical site names count).errors a.parts a'.parts
  | .none, names, count, _, _, a', ha' => by
    cases ha'
    exact .nil
  | .more condition body next span, names, count, hnames, hgiven, a', ha' => by
    rw [Alternatives.lexical] at hgiven ha' ⊢
    cases hc : Expr.lexicalOption site names condition with
    | error =>
      rw [hc] at ha'
      cases ha'
    | ok =>
      rw [hc] at hgiven ha'
      dsimp only at hgiven ha' ⊢
      obtain ⟨body', next', hb, hn, rfl, heq⟩ := Resolution.andThen_ok ha'
      rw [heq] at hgiven ⊢
      obtain ⟨hfirst, hothers⟩ := forall_mem_append.1 hgiven
      have hbody := Stmt.lexical_rewrites body names.push count hnames.push hfirst body' hb
      have hnext := Alternatives.lexical_rewrites next names _ hnames hothers next' hn
      rw [Alternatives.parts, Alternatives.parts, Expr.isSome_lexicalOption hc]
      exact (Rewrites.one (.alternative hnames hc)).append
        (hbody.append ((hnext.map_reached condition.isSome).behind .mark))

theorem Stmt.lexicalAll_rewrites : ∀ (body : List Stmt) (names : NameStack) (count : Nat),
    names.Given slots → (∀ slot ∈ (Stmt.lexicalAll site names count body).given, slot.Given slots) →
      Rewrites (Part.Resolved site slots) (Stmt.lexicalAll site names count body).errors
        (Stmt.allParts body) (Stmt.allParts (Stmt.lexicalAll site names count body).result)
  | [], names, count, _, _ => .nil
  | s :: rest, names, count, hnames, hgiven => by
    rw [Stmt.lexicalAll] at hgiven ⊢
    rcases hs : (s.lexical site names count).result with _ | s'
    all_goals
      rw [hs] at hgiven
      obtain ⟨hfirst, hmore⟩ := forall_mem_append.1 hgiven
      have hrest := Stmt.lexicalAll_rewrites rest _ _ (hnames.namesBehind hfirst) hmore
    · dsimp only
      rw [append_cons]
      exact (Rewrites.lost s.parts_ne_nil (by simp)).append hrest
    · exact (Stmt.lexical_rewrites s names count hnames hfirst s' hs).append hrest

end

end

/-- Resolving a method resolves the parts of its statements, and the slots that it gets have
values. -/
theorem Method.resolve_rewrites (p : Program) (m : Method) :
    Rewrites (Part.Resolved ⟨p, m.owner⟩ (m.resolve p).1.localType?) (m.resolve p).2
        (Stmt.allParts m.statements) (Stmt.allParts (m.resolve p).1.statements) ∧
      ∀ t ∈ (m.resolve p).1.locals, t ∈ m.locals ∨ t.isConcreteValue = true := by
  have hfresh : Fresh m.locals.length (m.lexical p).given := Stmt.fresh_lexicalAll _ _ _ _
  have hnames := NameStack.given_ofParameters (m.parameters.map fun q => (q.name, q.type))
    (m.locals ++ (m.lexical p).given.map Slot.type)
  simp only [List.map_map, Function.comp_def] at hnames
  rw [resolve_eq_lexical]
  refine ⟨Stmt.lexicalAll_rewrites _ _ m.statements _ _ hnames
    (hfresh.consecutive.given m.parameterTypes), ?_⟩
  intro t ht
  rcases mem_append.1 ht with hold | hnew
  · exact .inl hold
  · obtain ⟨slot, hslot, rfl⟩ := List.mem_map.1 hnew
    exact .inr (hfresh.concrete slot hslot)

theorem Method.resolve_bound (p : Program) (m : Method) :
    Stmt.AllThroughout (.formed p (m.resolve p).1.localType? fun _ => True)
      (m.resolve p).1.statements := by
  refine (Stmt.allThroughout_iff _ _).2 fun _ hy => ?_
  obtain ⟨_, -, -, hxy⟩ := (m.resolve_rewrites p).1.exists_of_mem hy
  exact hxy.bound

theorem Method.Declared.resolve_localType? {m : Method} (h : m.Declared) {index : Int}
    {t : Primitive} (ht : (m.resolve p).1.localType? index = some t) :
    t.isConcreteValue = true := by
  unfold Method.localType? at ht
  split at ht
  · exact h.parameters t (mem_of_getElem? ht)
  · rcases (m.resolve_rewrites p).2 t (mem_of_getElem? ht) with hold | hnew
    · rw [h.locals] at hold
      cases hold
    · exact hnew

end ScriptCompiler
