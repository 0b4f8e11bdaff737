import ScriptCompiler.Proofs.Checking

/-!
# Values that fit their slots

A value *fits* a slot if its type is the slot's, or a generic type that the slot accepts, and if an
integer literal lies between the bounds of the slot. A body is *settled* if every value in it fits
the slot it flows into, literal operands lie between the bounds of the common type, conditions are
truth values and returns agree with the method. The settled programs are exactly those that checking
does not change and has nothing to say about.
-/

set_option autoImplicit false

namespace ScriptCompiler

open List Checked

variable {p : Program}

/-- Whether a number lies between the bounds of a type. -/
def Primitive.Covers (t : Primitive) (n : Int) : Prop := t.minValue ≤ n ∧ n ≤ t.maxValue

instance (t : Primitive) (n : Int) : Decidable (t.Covers n) :=
  inferInstanceAs (Decidable (_ ∧ _))

theorem Primitive.covers_clamp {t : Primitive} (h : t.isConcreteInteger = true) (n : Int) :
    t.Covers (t.clamp n) := by
  have hbounds : t.minValue ≤ t.maxValue := by
    revert h
    cases t <;> decide
  unfold Covers clamp
  split
  · omega
  · split <;> omega

/-- Whether an expression, if it is an integer literal, lies between the bounds of an integer
type. -/
def Expr.WithinBounds (t : Primitive) (e : Expr) : Prop :=
  ∀ n, e.integer? = some n → t.isConcreteInteger = true → t.Covers n

/-- Whether a value needs no conversion to flow into a slot. -/
structure Expr.Fits (p : Program) (slot : Primitive) (value : Expr) : Prop where
  type : ∃ t, value.typeIn p = .ok t ∧
    (t = slot ∨ t.isGeneric = true ∧ t.assignableTo slot = true)
  bounds : value.WithinBounds slot

/-- An expression with every value in it fit for its slot. -/
inductive Expr.Settled (p : Program) : Expr → Prop
  | literal {value : Literal} {span : Span} : Settled p (.literal value span)
  | name {use : NameUse} : Settled p (.name use)
  | binary {op : BinaryOp} {left right : Expr} {span : Span} {l r common : Primitive}
      (hl : left.typeIn p = .ok l) (hr : right.typeIn p = .ok r)
      (hcommon : l.common? r = some common) (hop : ∃ t, op.resultType common span = .ok t)
      (hboundsLeft : left.WithinBounds common) (hboundsRight : right.WithinBounds common)
      (hleft : Settled p left) (hright : Settled p right) :
      Settled p (.binary op left right span)
  | assign {target : NameUse} {slot : Slot} {value : Expr} {span : Span}
      (hslot : target.slot = some slot) (hfits : value.Fits p slot.type)
      (hvalue : Settled p value) : Settled p (.assign target value span)
  | call {target : DottedName} {arguments : List Expr} {method : Option MethodId} {span : Span}
      {callee : Method} (hcallee : method.bind p.methodAt? = some callee)
      (hlen : arguments.length ≤ callee.parameterTypes.length)
      (hfits : ∀ x ∈ arguments.zip callee.parameterTypes, x.1.Fits p x.2)
      (harguments : ∀ a ∈ arguments, Settled p a) : Settled p (.call target arguments method span)
  | cast {operand : Expr} {type : Primitive} {span : Span} (hoperand : Settled p operand) :
      Settled p (.cast operand type span)

/-- What is asked of the statements of a settled method. -/
def Demands.settled (p : Program) (m : Method) : Demands where
  effect e := e.Settled p
  condition e := e.Settled p ∧ e.typeIn p = .ok .bool
  result v := (v.isSome = true ↔ m.returnType ≠ .void) ∧
    ∀ e ∈ v, e.Settled p ∧ e.Fits p m.returnType

/-- A program whose bodies are settled at every depth. -/
def Program.Settled (p : Program) : Prop :=
  ∀ m ∈ p.methods, m.external = false → Stmt.AllThroughout (.settled p m) m.statements

/-! ## Coerced values -/

variable {n : Int} {t common : Primitive} {e e' : Expr}

theorem Primitive.clamp_eq_self (h : t.Covers n) : t.clamp n = n := by
  obtain ⟨_, _⟩ := h
  unfold clamp
  rw [if_neg (by omega), if_neg (by omega)]

theorem Primitive.number_assignableTo (h : t.isConcreteInteger = true) :
    Primitive.number.assignableTo t = true := by
  revert h
  cases t <;> decide

theorem Expr.withinBounds_clamp (ht : t.isConcreteInteger = true) (n : Int) (span : Span) :
    (Expr.literal (.integer (t.clamp n)) span).WithinBounds t := by
  rintro k ⟨⟩ _
  exact Primitive.covers_clamp ht n

theorem Expr.clampLiteral_eq_pure (e : Expr) (h : t.Covers n) : e.clampLiteral n t = pure e := by
  unfold Expr.clampLiteral
  dsimp only
  rw [if_pos (Primitive.clamp_eq_self h)]

variable {slot : Primitive}

theorem Expr.fits_of_coerce (h : (e.coerce p slot).outcome = .ok e') : e'.Fits p slot := by
  rcases coerce_cases h with ⟨rfl, htype, hother⟩ | ⟨n, span, -, ht, rfl⟩ | ⟨rfl, -⟩
  · exact ⟨htype, fun n hn ht => (hother n hn ht).elim⟩
  · exact ⟨⟨.number, rfl, .inr ⟨rfl, Primitive.number_assignableTo ht⟩⟩,
      withinBounds_clamp ht n span⟩
  · exact ⟨⟨slot, rfl, .inl rfl⟩, fun _ hn _ => by cases hn⟩

theorem Expr.Fits.coerce_eq (h : e.Fits p slot) : e.coerce p slot = pure e := by
  obtain ⟨⟨type, htype, hslot⟩, hbounds⟩ := h
  unfold Expr.coerce
  split
  · rename_i n hn ht
    exact e.clampLiteral_eq_pure (hbounds n hn ht)
  · rw [htype, lift_ok_bind]
    rcases hslot with rfl | ⟨hgeneric, hassign⟩
    · rw [if_pos rfl]
    · by_cases hsame : type = slot
      · rw [if_pos hsame]
      · rw [if_neg hsame, hassign, if_neg (by simp), if_pos hgeneric]

theorem Expr.withinBounds_fitOperand (h : (e.fitOperand common).outcome = .ok e') :
    e'.WithinBounds common := by
  rcases fitOperand_cases h with ⟨rfl, hother⟩ | ⟨n, span, -, ht, rfl⟩
  · exact fun n hn ht => (hother n hn ht).elim
  · exact withinBounds_clamp ht n span

theorem Expr.typeIn_fitOperand (h : (e.fitOperand common).outcome = .ok e') :
    e'.typeIn p = e.typeIn p := by
  rcases fitOperand_cases h with ⟨rfl, -⟩ | ⟨_, _, rfl, -, rfl⟩
  · rfl
  · rfl

theorem Expr.WithinBounds.fitOperand_eq (h : e.WithinBounds common) :
    e.fitOperand common = pure e := by
  unfold Expr.fitOperand
  split
  · rename_i n hn ht
    exact e.clampLiteral_eq_pure (h n hn ht)
  · rfl

/-! ## Settled expressions -/

theorem Primitive.common_eq_ok_iff {l r : Primitive} {span : Span} :
    l.common r span = .ok common ↔ l.common? r = some common := by
  unfold Primitive.common
  cases l.common? r <;> simp

theorem NameUse.type_eq_ok_iff {use : NameUse} :
    use.type = .ok t ↔ ∃ slot, use.slot = some slot ∧ slot.type = t := by
  unfold NameUse.type
  cases use.slot <;> simp

namespace Expr

theorem Settled.coerce (he : e.Settled p) (h : (e.coerce p slot).outcome = .ok e') :
    e'.Settled p := by
  rcases coerce_cases h with ⟨rfl, -⟩ | ⟨_, _, -, -, rfl⟩ | ⟨rfl, -⟩
  · exact he
  · exact .literal
  · exact .cast he

theorem Settled.fitOperand (he : e.Settled p) (h : (e.fitOperand common).outcome = .ok e') :
    e'.Settled p := by
  rcases fitOperand_cases h with ⟨rfl, -⟩ | ⟨_, _, -, -, rfl⟩
  · exact he
  · exact .literal

/-- What checking returns is settled. -/
theorem settled_of_check (e : Expr) : ∀ e', (e.check p).outcome = .ok e' → e'.Settled p := by
  refine check_induction (P := fun _ e' => e'.Settled p) (fun _ _ => .literal) (fun _ => .name)
    ?_ ?_ ?_ (fun _ _ _ _ ho => .cast ho) e
  · rintro op left right span left₁ right₁ left₂ right₂ l r common hl hr htl htr hc hl₂ hr₂ ⟨t, ht⟩
    have htl₂ : left₂.typeIn p = .ok l := by rw [typeIn_fitOperand hl₂, htl]
    have htr₂ : right₂.typeIn p = .ok r := by rw [typeIn_fitOperand hr₂, htr]
    have hop : op.resultType common span = .ok t := by
      rw [Expr.typeIn, htl₂, htr₂, ok_bind, ok_bind, hc, ok_bind] at ht
      exact ht
    exact .binary htl₂ htr₂ (Primitive.common_eq_ok_iff.1 hc) ⟨t, hop⟩
      (withinBounds_fitOperand hl₂) (withinBounds_fitOperand hr₂) (hl.fitOperand hl₂)
      (hr.fitOperand hr₂)
  · intro target _ span _ _ _ hv htype hv₂
    obtain ⟨_, hslot, rfl⟩ := NameUse.type_eq_ok_iff.1 htype
    exact .assign hslot (fits_of_coerce hv₂) (hv.coerce hv₂)
  · intro target _ _ span _ _ hargs hc ha
    obtain ⟨hlen, hfits, hall⟩ := forall_of_checkArguments
      (Q := fun a t => a.Fits p t ∧ a.Settled p)
      (fun a hmem _ a₁ _ h₁ h₂ => ⟨fits_of_coerce h₂, (hargs a hmem a₁ h₁).coerce h₂⟩) ha
    exact .call hc (hlen ▸ Nat.min_le_right ..) (fun x hx => (hfits x hx).1)
      fun a ha => (hall a ha).elim fun _ h => h.2

theorem typeIn_check (e : Expr) :
    ∀ e', (e.check p).outcome = .ok e' → e'.typeIn p = e.typeIn p := by
  refine check_induction (P := fun e e' => e'.typeIn p = e.typeIn p) (fun _ _ => rfl)
    (fun _ => rfl) ?_ (fun _ _ _ _ _ _ _ _ _ => rfl) (fun _ _ _ _ _ _ _ _ _ => rfl)
    (fun _ _ _ _ _ => rfl) e
  intro _ _ _ _ _ _ _ _ _ _ _ hl hr _ _ _ hl₂ hr₂ _
  rw [Expr.typeIn, Expr.typeIn, typeIn_fitOperand hl₂, typeIn_fitOperand hr₂, hl, hr]

theorem checkArguments_eq_pure {arguments : List Expr} :
    ∀ {types : Types}, arguments.length ≤ types.length →
      (∀ x ∈ arguments.zip types, x.1.Fits p x.2) → (∀ a ∈ arguments, a.check p = pure a) →
      Expr.checkArguments p arguments types = pure arguments := by
  induction arguments with
  | nil =>
    intro types _ _ _
    rfl
  | cons _ _ ih =>
    intro types hlen hfits hcheck
    cases types with
    | nil => cases hlen
    | cons =>
      rw [zip_cons_cons] at hfits
      obtain ⟨ha, hrest⟩ := forall_mem_cons.1 hfits
      obtain ⟨hca, hcrest⟩ := forall_mem_cons.1 hcheck
      rw [Expr.checkArguments, hca, pure_bind, ha.coerce_eq, pure_bind,
        ih (Nat.le_of_succ_le_succ hlen) hrest hcrest, pure_bind]

/-- Checking leaves a settled expression as it is. -/
theorem Settled.check_eq (h : e.Settled p) : e.check p = pure e := by
  induction h with
  | literal => rfl
  | name => rfl
  | @binary op left right span l r common htl htr hc hop hbl hbr _ _ hl hr =>
    obtain ⟨t, ht⟩ := hop
    have hcommon : l.common r span = .ok common := Primitive.common_eq_ok_iff.2 hc
    have htyped : (Expr.binary op left right span).typeIn p = .ok t := by
      rw [Expr.typeIn, htl, htr, ok_bind, ok_bind, hcommon, ok_bind, ht]
    simp only [Expr.check, hl, hr, htl, htr, hcommon, hbl.fitOperand_eq, hbr.fitOperand_eq, htyped,
      pure_bind, lift_ok_bind]
  | assign hslot hfits _ hv =>
    have htype := NameUse.type_eq_ok_iff.2 ⟨_, hslot, rfl⟩
    simp only [Expr.check, htype, hv, hfits.coerce_eq, pure_bind, lift_ok_bind]
  | @call target arguments method span callee hc hlen hfits _ hargs =>
    have hcallee : p.callee target method span = .ok callee := by
      unfold Program.callee
      rw [hc]
    simp only [Expr.check, hcallee, checkArguments_eq_pure hlen hfits hargs, pure_bind,
      lift_ok_bind]
  | cast _ ho => simp only [Expr.check, ho, pure_bind]

end Expr

/-! ## Settled statements -/

section

variable {m : Method}

theorem Demands.checks_settled (p : Program) (m : Method) :
    (⟨fun _ => True, fun _ => True, fun _ => True⟩ : Demands).Checks p m (.settled p m) where
  effect e e' _ h := e.settled_of_check e' h
  condition e e' _ h := by
    obtain ⟨hcheck, hbool⟩ := Expr.checkCondition_ok h
    exact ⟨e.settled_of_check e' hcheck, hbool⟩
  result v v' span _ h := by
    rcases Method.checkReturn_ok h with ⟨-, rfl, hvoid⟩ | ⟨e, e₁, _, -, rfl, hvoid, h₁, h₂⟩
    · exact ⟨by simp [hvoid], by simp⟩
    · refine ⟨by simp [hvoid], ?_⟩
      rintro _ ⟨⟩
      exact ⟨(e.settled_of_check e₁ h₁).coerce h₂, Expr.fits_of_coerce h₂⟩

/-- A settled truth value passes as a condition as it is. -/
theorem Demands.checkCondition_eq (h : (Demands.settled p m).condition e) :
    e.checkCondition p = pure e := by
  obtain ⟨hsettled, hbool⟩ := h
  simp only [Expr.checkCondition, hsettled.check_eq, hbool, pure_bind, lift_ok_bind, if_true]

theorem Demands.checkReturn_eq {v : Option Expr} {span : Span}
    (h : (Demands.settled p m).result v) : m.checkReturn p v span = pure v := by
  obtain ⟨hreturns, hfits⟩ := h
  cases v with
  | none =>
    have hvoid : m.returnType = .void := by simpa using hreturns
    unfold Method.checkReturn
    exact if_pos hvoid
  | some e =>
    have hvoid : m.returnType ≠ .void := by simpa using hreturns
    obtain ⟨hsettled, hfit⟩ := hfits e rfl
    simp only [Method.checkReturn, hvoid, if_false, hsettled.check_eq, hfit.coerce_eq, pure_bind]

mutual

theorem Stmt.Throughout.check_eq : ∀ s : Stmt, s.Throughout (.settled p m) → s.check p m = pure s
  | .expression e, hs => by
    have he : e.Settled p := hs
    simp only [Stmt.check, he.check_eq, Checked.pure_bind]
  | .declare .., hs => hs.elim
  | .ret value span, hs => by simp only [Stmt.check, Demands.checkReturn_eq hs, Checked.pure_bind]
  | .branch condition body alts span, ⟨hc, hb, ha⟩ => by
    simp only [Stmt.check, Demands.checkCondition_eq hc, Stmt.Throughout.check_eq body hb,
      Alternatives.Throughout.check_eq alts ha, Checked.pure_bind]
  | .block body span, hs => by
    simp only [Stmt.check, Stmt.AllThroughout.checkAll_eq body hs, Checked.pure_bind]
  | .assembly .., _ => rfl

theorem Alternatives.Throughout.check_eq :
    ∀ a : Alternatives, a.Throughout (.settled p m) → a.check p m = pure a
  | .none, _ => rfl
  | .more none body next span, ⟨_, hb, hn⟩ => by
    simp only [Alternatives.check, Expr.checkConditionOption, Stmt.Throughout.check_eq body hb,
      Alternatives.Throughout.check_eq next hn, Checked.pure_bind]
  | .more (some condition) body next span, ⟨hc, hb, hn⟩ => by
    simp only [Alternatives.check, Expr.checkConditionOption,
      Demands.checkCondition_eq (hc condition rfl), Stmt.Throughout.check_eq body hb,
      Alternatives.Throughout.check_eq next hn, Checked.pure_bind]

theorem Stmt.AllThroughout.checkAll_eq :
    ∀ body : List Stmt, Stmt.AllThroughout (.settled p m) body → Stmt.checkAll p m body = pure body
  | [], _ => rfl
  | s :: rest, ⟨hs, hrest⟩ => by
    simp only [Stmt.checkAll, Stmt.Throughout.check_eq s hs, Checked.recover_pure,
      Stmt.AllThroughout.checkAll_eq rest hrest, Checked.pure_bind, Option.toList_some,
      singleton_append]

end

/-- The statements that checking keeps of a method are settled. -/
theorem Method.settled_check (p : Program) (m : Method) :
    Stmt.AllThroughout (.settled p m) (m.check p).1.statements := by
  unfold Method.check
  dsimp only
  split
  · rename_i statements hok
    exact Stmt.checkAll_throughout (Demands.checks_settled p m) hok
  · trivial

/-- Checking has nothing to change and nothing to say about settled statements. -/
theorem Method.check_eq (h : Stmt.AllThroughout (.settled p m) m.statements) :
    m.check p = (m, [], []) := by
  unfold Method.check
  rw [Stmt.AllThroughout.checkAll_eq m.statements h]
  rfl

end

/-! ## Settled programs -/

section

variable {q : Program}

theorem Expr.Fits.congr (h : e.Fits p slot) (hp : p.outline = q.outline) : e.Fits q slot := by
  obtain ⟨t, ht, hslot⟩ := h.type
  exact ⟨⟨t, by rw [← typeIn_congr hp]; exact ht, hslot⟩, h.bounds⟩

theorem Expr.Settled.congr (h : e.Settled p) (hp : p.outline = q.outline) : e.Settled q := by
  induction h with
  | literal => exact .literal
  | name => exact .name
  | binary htl htr hc hop hbl hbr _ _ hl hr =>
    rw [typeIn_congr hp] at htl htr
    exact .binary htl htr hc hop hbl hbr hl hr
  | assign hslot hfits _ hv => exact .assign hslot (hfits.congr hp) hv
  | call hc hlen hfits _ hargs =>
    obtain ⟨_, hc', ho⟩ := Program.exists_callee_of_outline_eq hp hc
    have htypes := congrArg Method.parameterTypes ho
    simp only [Method.outline_parameterTypes] at htypes
    rw [← htypes] at hlen hfits
    exact .call hc' hlen (fun x hx => (hfits x hx).congr hp) hargs
  | cast _ ho => exact .cast ho

theorem Demands.settled_congr {m n : Method} (hp : p.outline = q.outline)
    (hret : m.returnType = n.returnType) : (Demands.settled p m).Implies (Demands.settled q n) where
  effect e h := Expr.Settled.congr h hp
  condition e h := ⟨h.1.congr hp, by rw [← Expr.typeIn_congr hp]; exact h.2⟩
  result v h := ⟨hret ▸ h.1, fun e he =>
    ⟨(h.2 e he).1.congr hp, hret ▸ (h.2 e he).2.congr hp⟩⟩

end

namespace Evaluation

theorem settled_check (s : Evaluation) : s.check.program.Settled := by
  intro _ hm hext
  obtain ⟨_, hid⟩ := mem_iff_getElem?.1 hm
  obtain ⟨m₁, -, -, rfl⟩ := exists_check_eq hid hext
  refine Stmt.AllThroughout.mono ?_ _ (Method.settled_check s.program m₁)
  exact Demands.settled_congr s.outline_check.symm rfl

theorem check_eq_self {s : Evaluation} (h : s.program.Settled) : s.check = s := by
  have hresults : (s.program.methods.map fun m =>
      if m.external then (m, [], []) else m.check s.program) =
        s.program.methods.map fun m => (m, [], []) := by
    refine map_congr_left fun m hm => ?_
    cases hext : m.external with
    | true => rfl
    | false => exact Method.check_eq (h m hm hext)
  have hsilent : ∀ (methods : List Method) (t : ScriptTable),
      (methods.map fun m => (m, ([] : List EvaluationError), ([] : List EvaluationError))).foldl
        (fun t r => (t.addErrors r.1.script r.2.1).addWarnings r.1.script r.2.2) t = t := by
    intro methods t
    induction methods with
    | nil => rfl
    | cons _ _ ih => exact ih
  unfold Evaluation.check
  simp only [hresults, hsilent, List.map_map, Function.comp_def, List.map_id']

/-- After checking, at every depth of every body: a value that flows into a slot has the slot's
type or a generic type that the slot accepts, integer literals lie between the bounds of the type
they flow into or are brought to, conditions are truth values, and a return carries a value exactly
if its method returns one. Nothing else is asked for: checking changes nothing in the programs of
which all this holds already, and in no others. -/
theorem check_settles (s : Evaluation) :
    s.check.program.Settled ∧ (s.check = s ↔ s.program.Settled) := by
  refine ⟨s.settled_check, ?_, check_eq_self⟩
  intro h
  have hsettled := s.settled_check
  rwa [h] at hsettled

/-- Checking leaves the type of an expression as it is, and there is nothing left to do or to say
when it is over: it changes and reports nothing in a method that it has been through, nor in a
program. -/
theorem check_stable (s : Evaluation) :
    (∀ (p : Program) (e e' : Expr), (e.check p).outcome = .ok e' → e'.typeIn p = e.typeIn p) ∧
      (∀ (p : Program) (m : Method), (m.check p).1.check p = ((m.check p).1, [], [])) ∧
      s.check.check = s.check :=
  ⟨fun _ e => e.typeIn_check, fun p m => Method.check_eq (m.settled_check p),
    check_eq_self s.settled_check⟩

/-- `a + 300` becomes `a + 255` for an `a` of type `u8`; it is a `u8` before and after. -/
theorem check_stable_sum :
    let sum (n : Int) : Expr := .binary .add
      (.name ⟨⟨["a"]⟩, some (.parameter 0 .u8), .unknown⟩) (.literal (.integer n) .unknown) .unknown
    ((sum 300).check {}).outcome = .ok (sum 255) ∧ (sum 255).typeIn {} = (sum 300).typeIn {} :=
  ⟨rfl, (check_stable { scripts := .empty }).1 _ _ _ rfl⟩

end Evaluation

end ScriptCompiler
