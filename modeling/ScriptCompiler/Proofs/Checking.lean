import ScriptCompiler.Proofs.Resolution

/-!
# Checked trees

Checking keeps an expression well formed and makes every operation in it typed (`Expr.Sound`). A
literal may be brought between bounds, and a value may be cast to the type of the slot it flows
into: `Expr.coerce_cases` and `Expr.fitOperand_cases` say this once. `Stmt.check_meets` carries a
property of expressions through the checking of statements.
-/

set_option autoImplicit false

namespace ScriptCompiler

open List Checked

/-- A checked expression: well formed, and every operation in it has a type. -/
abbrev Expr.Sound (p : Program) (slots : Int → Option Primitive) : Expr → Prop :=
  Expr.Formed p slots fun e => ∃ t, e.typeIn p = .ok t

variable {e : Expr} {p : Program} {m : Method} {slots : Int → Option Primitive} {d' d : Demands}
  {args' : List Expr} {types : Types} {target : Primitive} {value' : Expr}

theorem Expr.Sound.exists_type (h : e.Sound p slots) : ∃ t, e.typeIn p = .ok t := by
  cases h with
  | literal => exact ⟨_, rfl⟩
  | @name use slot hu hg => exact ⟨slot.type, by simp only [Expr.typeIn, NameUse.type, hu]⟩
  | binary ha => exact ha
  | @assign target slot value span hu hg hv =>
    exact ⟨slot.type, by simp only [Expr.typeIn, NameUse.type, hu]⟩
  | @call target args method span callee hc hlen hargs =>
    exact ⟨callee.returnType, by simp [Expr.typeIn, Program.callee, hc]⟩
  | cast => exact ⟨_, rfl⟩

theorem Expr.Sound.congr {q : Program} (h : e.Sound p slots) (hp : p.outline = q.outline) :
    e.Sound q slots := by
  refine (Expr.Formed.congr h hp).mono (fun _ _ hs => hs) ?_
  rintro e ⟨t, ht⟩
  exact ⟨t, by rw [← typeIn_congr hp]; exact ht⟩

/-! ## What checking changes -/

theorem Expr.eq_literal_of_integer? {n : Int} (h : e.integer? = some n) :
    ∃ span, e = .literal (.integer n) span := by
  cases e with
  | literal value span =>
    cases value with
    | integer =>
      simp only [Expr.integer?, Option.some.injEq] at h
      exact ⟨span, by rw [h]⟩
    | real => cases h
    | text => cases h
    | boolean => cases h
    | null => cases h
  | name => cases h
  | binary => cases h
  | assign => cases h
  | call => cases h
  | cast => cases h

theorem Expr.clampLiteral_ok {n : Int} {value : Expr} (hn : value.integer? = some n)
    (h : (value.clampLiteral n target).outcome = .ok value') :
    ∃ span, value = .literal (.integer n) span ∧
      value' = .literal (.integer (target.clamp n)) span := by
  obtain ⟨span, rfl⟩ := eq_literal_of_integer? hn
  refine ⟨span, rfl, ?_⟩
  unfold Expr.clampLiteral at h
  dsimp only at h
  split at h
  · rename_i hsame
    cases h
    rw [hsame]
  · cases h
    rfl

/-- What a value becomes when it flows into a slot: itself if the slot takes it as it is, a literal
between the bounds of the slot in place of a literal, or a cast of a value whose type is another one
that the slot accepts. -/
theorem Expr.coerce_cases {value : Expr} (h : (value.coerce p target).outcome = .ok value') :
    (value' = value ∧ (∃ type, value.typeIn p = .ok type ∧
        (type = target ∨ type.isGeneric = true ∧ type.assignableTo target = true)) ∧
        ∀ n, value.integer? = some n → target.isConcreteInteger = true → False) ∨
      (∃ n span, value = .literal (.integer n) span ∧ target.isConcreteInteger = true ∧
        value' = .literal (.integer (target.clamp n)) span) ∨
      (value' = value.castTo target ∧ ∃ type, value.typeIn p = .ok type ∧ type ≠ target ∧
        type.assignableTo target = true) := by
  unfold Expr.coerce at h
  split at h
  · rename_i n hn ht
    obtain ⟨span, hvalue, hvalue'⟩ := clampLiteral_ok hn h
    exact .inr (.inl ⟨n, span, hvalue, ht, hvalue'⟩)
  · rename_i hother
    rw [outcome_bind, outcome_lift] at h
    obtain ⟨type, htype, h⟩ := of_bind h
    split at h
    · rename_i hsame
      cases h
      exact .inl ⟨rfl, ⟨type, htype, .inl hsame⟩, hother⟩
    · rename_i hne
      split at h
      · cases h
      · rename_i hassign
        have hassign : type.assignableTo target = true := by simpa using hassign
        split at h
        · rename_i hgeneric
          cases h
          exact .inl ⟨rfl, ⟨type, htype, .inr ⟨hgeneric, hassign⟩⟩, hother⟩
        · cases h
          exact .inr (.inr ⟨rfl, type, htype, hne, hassign⟩)

/-- What an operand becomes: itself, or a literal between the bounds of the common type in place of
a literal. -/
theorem Expr.fitOperand_cases {common : Primitive} {operand operand' : Expr}
    (h : (operand.fitOperand common).outcome = .ok operand') : (operand' = operand ∧
        ∀ n, operand.integer? = some n → common.isConcreteInteger = true → False) ∨
      ∃ n span, operand = .literal (.integer n) span ∧ common.isConcreteInteger = true ∧
        operand' = .literal (.integer (common.clamp n)) span := by
  unfold Expr.fitOperand at h
  split at h
  · rename_i n hn ht
    obtain ⟨span, hvalue, hvalue'⟩ := clampLiteral_ok hn h
    exact .inr ⟨n, span, hvalue, ht, hvalue'⟩
  · rename_i hother
    cases h
    exact .inl ⟨rfl, hother⟩

/-! ## The checking of an expression, read backwards -/

theorem Expr.checkArguments_cons_ok {a : Expr} {rest : List Expr} {type : Primitive}
    (h : (Expr.checkArguments p (a :: rest) (type :: types)).outcome = .ok args') :
    ∃ a₁ a₂ rest', (a.check p).outcome = .ok a₁ ∧ (a₁.coerce p type).outcome = .ok a₂ ∧
      (Expr.checkArguments p rest types).outcome = .ok rest' ∧ args' = a₂ :: rest' := by
  simp only [Expr.checkArguments, outcome_bind, outcome_pure] at h
  obtain ⟨a₁, a₂, ha₁, ha₂, h⟩ := of_bind₂ h
  obtain ⟨rest', hrest', h⟩ := of_bind h
  cases h
  exact ⟨a₁, a₂, rest', ha₁, ha₂, hrest', rfl⟩

/-- Checking arguments gives one for each that has a parameter, as the check and the coercion of each
say. -/
theorem Expr.forall_of_checkArguments {Q : Expr → Primitive → Prop} {args : List Expr}
    (hargs : ∀ a ∈ args, ∀ type a₁ a₂, (a.check p).outcome = .ok a₁ →
      (a₁.coerce p type).outcome = .ok a₂ → Q a₂ type)
    (h : (Expr.checkArguments p args types).outcome = .ok args') :
    args'.length = min args.length types.length ∧
      (∀ x ∈ args'.zip types, Q x.1 x.2) ∧ ∀ a ∈ args', ∃ type, Q a type := by
  induction args generalizing types args' with
  | nil =>
    cases h
    simp
  | cons a _ ih =>
    cases types with
    | nil =>
      cases h
      simp
    | cons type =>
      obtain ⟨a₁, a₂, _, ha₁, ha₂, hrest', rfl⟩ := checkArguments_cons_ok h
      obtain ⟨hlen, hzip, hall⟩ := ih (fun b hb => hargs b (mem_cons_of_mem _ hb)) hrest'
      have ha := hargs a mem_cons_self type a₁ a₂ ha₁ ha₂
      refine ⟨?_, forall_mem_cons.2 ⟨ha, hzip⟩, forall_mem_cons.2 ⟨⟨type, ha⟩, hall⟩⟩
      simp only [length_cons, hlen, Nat.succ_min_succ]

/-- What each construct has once its parts have it, every checked expression has. -/
theorem Expr.check_induction {P : Expr → Expr → Prop}
    (literal : ∀ value span, P (.literal value span) (.literal value span))
    (name : ∀ use, P (.name use) (.name use))
    (binary : ∀ op left right span left₁ right₁ left₂ right₂ l r common, P left left₁ →
      P right right₁ → left₁.typeIn p = .ok l → right₁.typeIn p = .ok r →
      l.common r span = .ok common → (left₁.fitOperand common).outcome = .ok left₂ →
      (right₁.fitOperand common).outcome = .ok right₂ →
      (∃ t, (Expr.binary op left₂ right₂ span).typeIn p = .ok t) →
      P (.binary op left right span) (.binary op left₂ right₂ span))
    (assign : ∀ target value span type value₁ value₂, P value value₁ → target.type = .ok type →
      (value₁.coerce p type).outcome = .ok value₂ →
      P (.assign target value span) (.assign target value₂ span))
    (call : ∀ target args method span callee args',
      (∀ a ∈ args, ∀ a', (a.check p).outcome = .ok a' → P a a') →
      method.bind p.methodAt? = some callee →
      (Expr.checkArguments p args callee.parameterTypes).outcome = .ok args' →
      P (.call target args method span) (.call target args' method span))
    (cast : ∀ operand type span operand', P operand operand' →
      P (.cast operand type span) (.cast operand' type span)) (e : Expr) :
    ∀ e', (e.check p).outcome = .ok e' → P e e' := by
  induction e with
  | literal value span =>
    intro e' h
    cases h
    exact literal value span
  | name use =>
    intro e' h
    cases h
    exact name use
  | binary _ _ _ _ hl hr =>
    intro e' h
    simp only [Expr.check, outcome_bind, outcome_lift, outcome_pure] at h
    obtain ⟨left₁, right₁, hl₁, hr₁, h⟩ := of_bind₂ h
    obtain ⟨l, r, htl, htr, h⟩ := of_bind₂ h
    obtain ⟨common, left₂, hc, hl₂, h⟩ := of_bind₂ h
    obtain ⟨right₂, t, hr₂, ht, h⟩ := of_bind₂ h
    cases h
    exact binary _ _ _ _ left₁ right₁ _ _ l r common (hl left₁ hl₁) (hr right₁ hr₁) htl htr hc hl₂
      hr₂ ⟨t, ht⟩
  | assign _ _ _ hv =>
    intro e' h
    simp only [Expr.check, outcome_bind, outcome_lift, outcome_pure] at h
    obtain ⟨type, value₁, htype, hv₁, h⟩ := of_bind₂ h
    obtain ⟨value₂, hv₂, h⟩ := of_bind h
    cases h
    exact assign _ _ _ type value₁ _ (hv value₁ hv₁) htype hv₂
  | call target args method span hargs =>
    intro e' h
    simp only [Expr.check, outcome_bind, outcome_lift, outcome_pure] at h
    obtain ⟨callee, args', hc, ha, h⟩ := of_bind₂ h
    cases h
    unfold Program.callee at hc
    split at hc
    · rename_i m hm
      cases hc
      exact call _ _ _ _ callee _ hargs hm ha
    · cases hc
  | cast _ _ _ ho =>
    intro e' h
    simp only [Expr.check, outcome_bind, outcome_pure] at h
    obtain ⟨operand', ho', h⟩ := of_bind h
    cases h
    exact cast _ _ _ _ (ho operand' ho')

/-! ## Sound expressions -/

section

variable {p : Program} {slots : Int → Option Primitive}

theorem Expr.Sound.coerce {value : Expr} (hv : value.Sound p slots)
    (h : (value.coerce p target).outcome = .ok value') : value'.Sound p slots := by
  rcases coerce_cases h with ⟨rfl, -⟩ | ⟨_, _, -, -, rfl⟩ | ⟨rfl, -⟩
  · exact hv
  · exact .literal
  · exact .cast hv

theorem Expr.Sound.fitOperand {operand operand' : Expr} {common : Primitive}
    (ho : operand.Sound p slots) (h : (operand.fitOperand common).outcome = .ok operand') :
    operand'.Sound p slots := by
  rcases fitOperand_cases h with ⟨rfl, -⟩ | ⟨_, _, -, -, rfl⟩
  · exact ho
  · exact .literal

/-- Checked expressions are sound. -/
theorem Expr.Bound.check (hb : e.Bound p slots) :
    ∀ e', (e.check p).outcome = .ok e' → e'.Sound p slots := by
  intro e' h
  refine check_induction (P := fun e e' => e.Bound p slots → e'.Sound p slots)
    (fun _ _ _ => .literal) ?_ ?_ ?_ ?_ ?_ e e' h hb
  · intro _ hb
    cases hb with
    | name hu hg => exact .name hu hg
  · intro _ _ _ span _ _ _ _ _ _ _ hl hr _ _ _ hl₂ hr₂ htyped hb
    cases hb with
    | binary _ hleft hright =>
      exact .binary htyped ((hl hleft).fitOperand hl₂) ((hr hright).fitOperand hr₂)
  · intro target _ span type _ _ hv _ hv₂ hb
    cases hb with
    | assign hu hg hvalue => exact .assign hu hg ((hv hvalue).coerce hv₂)
  · intro target _ _ span _ _ hargs hc ha hb
    cases hb with
    | call hc' hlen hbound =>
      rw [hc] at hc'
      cases hc'
      obtain ⟨hlen', -, hall⟩ := forall_of_checkArguments (Q := fun a _ => a.Sound p slots)
        (fun a hmem _ a₁ _ h₁ h₂ => (hargs a hmem a₁ h₁ (hbound a hmem)).coerce h₂) ha
      rw [hlen, Nat.min_self] at hlen'
      exact .call hc hlen' fun a ha => (hall a ha).elim fun _ h => h
  · intro _ type span _ ho hb
    cases hb with
    | cast hoperand => exact .cast (ho hoperand)

end

/-! ## Conditions and returns -/

theorem Expr.checkCondition_ok {e' : Expr} (h : (e.checkCondition p).outcome = .ok e') :
    (e.check p).outcome = .ok e' ∧ e'.typeIn p = .ok .bool := by
  simp only [Expr.checkCondition, outcome_bind, outcome_lift] at h
  obtain ⟨e₁, type, he₁, htype, h⟩ := of_bind₂ h
  split at h
  · rename_i hbool
    cases h
    exact ⟨he₁, by rw [htype, hbool]⟩
  · cases h

/-- A return that passes its check carries a value exactly if the method returns one, and that
value is what check and coercion make of it. -/
theorem Method.checkReturn_ok {value value' : Option Expr} {span : Span}
    (h : (m.checkReturn p value span).outcome = .ok value') :
    (value = none ∧ value' = none ∧ m.returnType = .void) ∨
      ∃ e e₁ e₂, value = some e ∧ value' = some e₂ ∧ m.returnType ≠ .void ∧
        (e.check p).outcome = .ok e₁ ∧ (e₁.coerce p m.returnType).outcome = .ok e₂ := by
  unfold Method.checkReturn at h
  split at h
  · split at h
    · rename_i hvoid
      cases h
      exact .inl ⟨rfl, rfl, hvoid⟩
    · cases h
  · rename_i e
    split at h
    · rw [outcome_bind] at h
      obtain ⟨found, -, h⟩ := of_bind h
      cases h
    · rename_i hvoid
      simp only [outcome_bind, outcome_pure] at h
      obtain ⟨e₁, e₂, he₁, he₂, h⟩ := of_bind₂ h
      cases h
      exact .inr ⟨e, e₁, e₂, rfl, rfl, hvoid, he₁, he₂⟩

/-! ## Errors -/

namespace Expr

theorem clampLiteral_quiet (n : Int) (t : Primitive) (e : Expr) : (e.clampLiteral n t).Quiet := by
  unfold Expr.clampLiteral
  dsimp only
  split <;> rfl

theorem coerce_quiet (e : Expr) (t : Primitive) : (e.coerce p t).Quiet := by
  unfold Expr.coerce
  split
  · exact clampLiteral_quiet ..
  · refine (Checked.Quiet.lift _).bind fun _ => ?_
    repeat' split
    all_goals rfl

theorem fitOperand_quiet (common : Primitive) (e : Expr) : (e.fitOperand common).Quiet := by
  unfold Expr.fitOperand
  split
  · exact clampLiteral_quiet ..
  · rfl

theorem checkArguments_quiet {args : List Expr} (h : ∀ a ∈ args, (a.check p).Quiet)
    (types : Types) : (Expr.checkArguments p args types).Quiet := by
  induction args generalizing types with
  | nil => rfl
  | cons a _ ih =>
    cases types with
    | nil => rfl
    | cons t types =>
      obtain ⟨ha, hrest⟩ := forall_mem_cons.1 h
      exact ha.bind fun a => (coerce_quiet a t).bind fun _ =>
        (ih hrest types).bind fun _ => .lift (.ok _)

theorem check_quiet (e : Expr) : (e.check p).Quiet := by
  induction e with
  | literal => rfl
  | name => rfl
  | binary _ left right _ hl hr =>
    refine hl.bind fun left => hr.bind fun right => (Checked.Quiet.lift _).bind fun l => ?_
    refine (Checked.Quiet.lift _).bind fun _ => (Checked.Quiet.lift _).bind fun common => ?_
    refine (fitOperand_quiet common left).bind fun _ => (fitOperand_quiet common right).bind fun _ => ?_
    exact (Checked.Quiet.lift _).bind fun _ => .lift (.ok _)
  | assign _ _ _ hv =>
    exact (Checked.Quiet.lift _).bind fun t => hv.bind fun v =>
      (coerce_quiet v t).bind fun _ => .lift (.ok _)
  | call _ _ _ _ hargs =>
    exact (Checked.Quiet.lift _).bind fun _ =>
      (checkArguments_quiet hargs _).bind fun _ => .lift (.ok _)
  | cast _ _ _ ho => exact ho.bind fun _ => .lift (.ok _)

theorem checkCondition_quiet (e : Expr) : (e.checkCondition p).Quiet := by
  refine e.check_quiet.bind fun e => (Checked.Quiet.lift _).bind fun type => ?_
  split <;> rfl

end Expr

theorem Method.checkReturn_quiet (v : Option Expr) (span : Span) : (m.checkReturn p v span).Quiet := by
  cases v with
  | none =>
    unfold Method.checkReturn
    dsimp only
    split <;> rfl
  | some e =>
    unfold Method.checkReturn
    dsimp only
    split
    · exact (Checked.Quiet.lift _).bind fun _ => .lift _
    · exact e.check_quiet.bind fun e => (e.coerce_quiet _).bind fun _ => .lift (.ok _)

/-! ## Statements -/

/-- Whether the checking of expressions leads from one kind of demands to another. -/
structure Demands.Checks (p : Program) (m : Method) (d d' : Demands) : Prop where
  effect : ∀ e e', d.effect e → (e.check p).outcome = .ok e' → d'.effect e'
  condition : ∀ e e', d.condition e → (e.checkCondition p).outcome = .ok e' → d'.condition e'
  result : ∀ v v' span, d.result v → (m.checkReturn p v span).outcome = .ok v' → d'.result v'

/-- What checking leads to from anything, it leads to from what meets demands. -/
theorem Demands.Checks.of_trivial
    (h : (⟨fun _ => True, fun _ => True, fun _ => True⟩ : Demands).Checks p m d') (d : Demands) :
    d.Checks p m d' :=
  ⟨fun e e' _ => h.effect e e' trivial, fun e e' _ => h.condition e e' trivial,
    fun v v' span _ => h.result v v' span trivial⟩

/-- What checking makes of a part of a statement. -/
inductive Part.Checked (p : Program) (m : Method) : Part → Part → Prop
  | effect {e e' : Expr} : (e.check p).outcome = .ok e' → Checked p m (.effect e) (.effect e')
  | result {v v' : Option Expr} {span : Span} : (m.checkReturn p v span).outcome = .ok v' →
      Checked p m (.result v span) (.result v' span)
  | condition {e e' : Expr} {span : Span} : (e.checkCondition p).outcome = .ok e' →
      Checked p m (.condition e span) (.condition e' span)
  | alternative {e e' : Expr} {span : Span} : (e.checkCondition p).outcome = .ok e' →
      Checked p m (.alternative (some e) span) (.alternative (some e') span)
  | otherwise {span : Span} : Checked p m (.alternative none span) (.alternative none span)
  | mark {k : Mark} : Checked p m (.mark k) (.mark k)

/-- The checking of a part leads where the checking of its expressions leads. -/
theorem Part.Checked.holds (h : d.Checks p m d') {x y : Part} (hxy : Part.Checked p m x y)
    (hx : d.Holds x) : d'.Holds y := by
  cases hxy with
  | effect hok => exact h.effect _ _ hx hok
  | result hok => exact h.result _ _ _ hx hok
  | condition hok => exact h.condition _ _ hx hok
  | @alternative e e' _ hok =>
    rintro _ ⟨⟩
    exact h.condition e e' (hx e rfl) hok
  | otherwise => exact fun e he => by cases he
  | mark => trivial

mutual

/-- Checking rewrites a statement part by part. -/
theorem Stmt.check_rewrites : ∀ s s' : Stmt, (s.check p m).outcome = .ok s' →
      Rewrites (Part.Checked p m) (s.check p m).errors s.parts s'.parts
  | .expression e, s', h => by
    obtain ⟨_, he', h, herrors⟩ := Checked.bind_ok h
    cases h
    rw [Stmt.check, herrors, e.check_quiet]
    exact .one (.effect he')
  | .declare .., _, h => by cases h
  | .ret value span, s', h => by
    obtain ⟨_, hvalue', h, herrors⟩ := Checked.bind_ok h
    cases h
    rw [Stmt.check, herrors, Method.checkReturn_quiet]
    exact .one (.result hvalue')
  | .branch condition body alts span, s', h => by
    obtain ⟨_, hc, h, herrors⟩ := Checked.bind_ok h
    obtain ⟨body', hb, h, herrors₁⟩ := Checked.bind_ok h
    obtain ⟨alts', ha, h, herrors₂⟩ := Checked.bind_ok h
    cases h
    rw [Stmt.check, herrors, herrors₁, herrors₂, condition.checkCondition_quiet]
    have hbody := Stmt.check_rewrites body body' hb
    have hrest := Alternatives.check_rewrites alts alts' ha
    exact (Rewrites.one (.condition hc)).append (hbody.append (hrest.append (.one .mark)))
  | .block body span, s', h => by
    obtain ⟨body', hb, h, herrors⟩ := Checked.bind_ok h
    cases h
    rw [Stmt.check, herrors]
    exact (Rewrites.one .mark).append ((Stmt.checkAll_rewrites body body' hb).append (.one .mark))
  | .assembly .., s', h => by
    cases h
    exact .one .mark

theorem Alternatives.check_rewrites : ∀ a a' : Alternatives, (a.check p m).outcome = .ok a' →
      Rewrites (Part.Checked p m) (a.check p m).errors a.parts a'.parts
  | .none, a', h => by
    cases h
    exact .nil
  | .more condition body next span, a', h => by
    obtain ⟨_, hc, h, herrors⟩ := Checked.bind_ok h
    obtain ⟨body', hb, h, herrors₁⟩ := Checked.bind_ok h
    obtain ⟨next', hn, h, herrors₂⟩ := Checked.bind_ok h
    cases h
    rw [Alternatives.check, herrors, herrors₁, herrors₂]
    have hbody := Stmt.check_rewrites body body' hb
    have hnext := Alternatives.check_rewrites next next' hn
    cases condition with
    | none =>
      cases hc
      exact (Rewrites.one .otherwise).append (hbody.append
        ((hnext.map_reached false).append (.one .mark)))
    | some e =>
      obtain ⟨_, he', h, hquiet⟩ := Checked.bind_ok hc
      cases h
      rw [Expr.checkConditionOption, hquiet, e.checkCondition_quiet]
      exact (Rewrites.one (.alternative he')).append (hbody.append
        ((hnext.map_reached true).append (.one .mark)))

theorem Stmt.checkAll_rewrites : ∀ body body' : List Stmt,
    (Stmt.checkAll p m body).outcome = .ok body' →
      Rewrites (Part.Checked p m) (Stmt.checkAll p m body).errors (Stmt.allParts body)
        (Stmt.allParts body')
  | [], body', h => by
    cases h
    exact .nil
  | s :: rest, body', h => by
    obtain ⟨_, hs, h, herrors⟩ := Checked.bind_ok h
    obtain ⟨rest', hrest, h, herrors₁⟩ := Checked.bind_ok h
    cases h
    rw [Stmt.checkAll, herrors, herrors₁, Checked.errors_pure, append_nil]
    have hothers := Stmt.checkAll_rewrites rest rest' hrest
    unfold Checked.recover at hs ⊢
    cases hres : (s.check p m).outcome with
    | error =>
      rw [hres] at hs
      cases hs
      exact (Rewrites.lost s.parts_ne_nil (by simp)).append hothers
    | ok s' =>
      rw [hres] at hs
      cases hs
      exact (Stmt.check_rewrites s s' hres).append hothers

end

/-- What the checking of any expression leads to holds of all that is left of statements. -/
theorem Stmt.checkAll_throughout
    (h : (⟨fun _ => True, fun _ => True, fun _ => True⟩ : Demands).Checks p m d)
    {body body' : List Stmt} (hok : (Stmt.checkAll p m body).outcome = .ok body') :
    Stmt.AllThroughout d body' := by
  refine (allThroughout_iff _ _).2 fun y hy => ?_
  obtain ⟨⟨_, _⟩, -, -, hxy⟩ := (checkAll_rewrites body body' hok).exists_of_mem hy
  obtain ⟨_, y⟩ := y
  refine Part.Checked.holds h hxy ?_
  -- a declaration is never left
  cases hxy <;> simp [Demands.Holds]

theorem Stmt.exists_checkAll (body : List Stmt) :
    ∃ body', (Stmt.checkAll p m body).outcome = .ok body' := by
  induction body with
  | nil => exact ⟨[], rfl⟩
  | cons s _ ih =>
    obtain ⟨rest', hrest⟩ := ih
    refine ⟨(s.check p m).outcome.toOption.toList ++ rest', ?_⟩
    rw [Stmt.checkAll, outcome_bind, outcome_recover, ok_bind, outcome_bind, hrest]
    rfl

theorem Method.check_rewrites (p : Program) (m : Method) :
    Rewrites (Part.Checked p m) (m.check p).2.1 (Stmt.allParts m.statements)
      (Stmt.allParts (m.check p).1.statements) := by
  obtain ⟨body, hbody⟩ := Stmt.exists_checkAll (p := p) (m := m) m.statements
  have hrewrites := Stmt.checkAll_rewrites m.statements body hbody
  unfold Method.check
  dsimp only
  rw [hbody]
  exact hrewrites

theorem Method.check_meets (h : d.Checks p m d') (hm : Stmt.AllMeet d m.statements) :
    Stmt.AllMeet d' (m.check p).1.statements := by
  rw [Stmt.allMeet_iff_parts] at hm ⊢
  intro _ hy hreached
  obtain ⟨x, hx, hflag, hxy⟩ := (m.check_rewrites p).exists_of_mem hy
  exact hxy.holds h (hm x hx (hflag.trans hreached))

/-- What checking gives the expressions of a method's statements: they are sound, and a return
carries a value exactly if the method returns one. -/
def Demands.sound (p : Program) (m : Method) : Demands where
  effect e := e.Sound p m.localType?
  condition e := e.Sound p m.localType?
  result v := (v = none ∧ m.returnType = .void) ∨
    ∃ e, v = some e ∧ m.returnType ≠ .void ∧ e.Sound p m.localType?

theorem Demands.sound_congr {q : Program} {n : Method} (hp : p.outline = q.outline)
    (hslots : m.localType? = n.localType?) (hret : m.returnType = n.returnType) :
    (Demands.sound p m).Implies (Demands.sound q n) where
  effect e h := by
    have hq := Expr.Sound.congr h hp
    rwa [hslots] at hq
  condition e h := by
    have hq := Expr.Sound.congr h hp
    rwa [hslots] at hq
  result v h := by
    rcases h with ⟨hv, hvoid⟩ | ⟨e, hv, hvoid, he⟩
    · exact .inl ⟨hv, hret ▸ hvoid⟩
    · have hq := Expr.Sound.congr he hp
      rw [hslots] at hq
      exact .inr ⟨e, hv, hret ▸ hvoid, hq⟩

theorem Demands.checks_sound (p : Program) (m : Method) :
    (Demands.formed p m.localType? fun _ => True).Checks p m (Demands.sound p m) where
  effect e e' he hok := Expr.Bound.check he e' hok
  condition e e' he hok := Expr.Bound.check he e' (Expr.checkCondition_ok hok).1
  result v v' span hv hok := by
    rcases Method.checkReturn_ok hok with ⟨-, rfl, hvoid⟩ | ⟨e, e₁, e₂, rfl, rfl, hvoid, h₁, h₂⟩
    · exact .inl ⟨rfl, hvoid⟩
    · exact .inr ⟨e₂, rfl, hvoid, (Expr.Bound.check (hv e rfl) e₁ h₁).coerce h₂⟩

/-! ## Evaluations -/

namespace Evaluation

variable {s : Evaluation} {id : MethodId} {m : Method}

theorem exists_resolve_eq (h : s.resolve.program.methodAt? id = some m)
    (hext : m.external = false) :
    ∃ m₀, s.program.methodAt? id = some m₀ ∧ m = (m₀.resolve s.program).1 := by
  rw [methodAt?_resolve] at h
  obtain ⟨m₀, h₀, -, hm⟩ := Method.exists_of_map_bodies h hext
  exact ⟨m₀, h₀, hm⟩

theorem exists_check_eq (h : s.check.program.methodAt? id = some m) (hext : m.external = false) :
    ∃ m₁, s.program.methodAt? id = some m₁ ∧ m₁.external = false ∧ m = (m₁.check s.program).1 := by
  rw [methodAt?_check] at h
  exact Method.exists_of_map_bodies h hext

theorem resolve_bound (h : s.resolve.program.methodAt? id = some m) (hext : m.external = false) :
    Stmt.AllMeet (.formed s.resolve.program m.localType? fun _ => True) m.statements := by
  obtain ⟨m₀, -, rfl⟩ := exists_resolve_eq h hext
  exact Stmt.AllMeet.mono (Demands.formed_congr s.outline_resolve.symm _ _) _
    (Stmt.AllThroughout.meets _ (Method.resolve_bound s.program m₀))

theorem check_sound (h : s.resolve.check.program.methodAt? id = some m)
    (hext : m.external = false) : Stmt.AllMeet (.sound s.resolve.check.program m) m.statements := by
  obtain ⟨m₁, h₁, he₁, rfl⟩ := exists_check_eq h hext
  have hbound := resolve_bound h₁ he₁
  have hsound := Method.check_meets (Demands.checks_sound s.resolve.program m₁) hbound
  refine Stmt.AllMeet.mono ?_ _ hsound
  exact Demands.sound_congr s.resolve.outline_check.symm rfl rfl

theorem check_localType? (hs : s.program.Declared)
    (h : s.resolve.check.program.methodAt? id = some m) (hext : m.external = false) {index : Int}
    {t : Primitive} (ht : m.localType? index = some t) : t.isConcreteValue = true := by
  obtain ⟨_, h₁, he₁, rfl⟩ := exists_check_eq h hext
  obtain ⟨m₀, h₀, rfl⟩ := exists_resolve_eq h₁ he₁
  exact (hs m₀ (mem_of_getElem? h₀)).resolve_localType? ht

end Evaluation

end ScriptCompiler
