import ScriptCompiler.Proofs.Commands
import ScriptCompiler.Proofs.Entries
import ScriptCompiler.Proofs.LoweredCode
import ScriptCompiler.Proofs.ValuePositions

/-!
# Lowered code

What the lowering of a tree yields, read backwards one constructor at a time, and that it yields
something for every sound tree. An expression has straight code (`Expr.isStraight_of_lower`), a
value with a concrete type is pushed with this type (`Expr.pushed_eq_of_concrete`), and what holds
of the pieces and of their concatenations holds of whole bodies (`Stmt.lower_closed`).
-/

set_option autoImplicit false

namespace ScriptCompiler

open List

variable {p : Program}

/-! ## Lowering, read backwards -/

section

variable {slot : Option Primitive} {code : Code} {pushed : Primitive} {e : Expr}
  {span : Span}

theorem Expr.lowerTo_ok {target : Primitive} (h : e.lowerTo p target = .ok code) :
    ∃ c t, e.lower p (some target) = .ok (c, t) ∧ code = c ++ convertTo target t := by
  unfold Expr.lowerTo at h
  obtain ⟨⟨c, t⟩, hc, h⟩ := of_bind h
  cases h
  exact ⟨c, t, hc, rfl⟩

theorem NameUse.found_ok {use : NameUse} {s : Slot} (h : use.found = .ok s) : use.slot = some s := by
  unfold NameUse.found at h
  split at h
  · rename_i hs
    cases h
    exact hs
  · cases h

variable {method : Option MethodId} {target : DottedName} {type : Primitive}

theorem Program.callee_ok {callee : Method} (h : p.callee target method span = .ok callee) :
    method.bind p.methodAt? = some callee := by
  unfold Program.callee at h
  split at h
  · rename_i hm
    cases h
    exact hm
  · cases h

theorem Primitive.common_ok {left right common : Primitive}
    (h : left.common right span = .ok common) : left.common? right = some common := by
  unfold Primitive.common at h
  split at h
  · rename_i hc
    cases h
    exact hc
  · cases h

/-- An operation brings its right and then its left operand to the type that it works on. -/
theorem Expr.lower_binary_ok {op : BinaryOp} {left right : Expr}
    (h : (Expr.binary op left right span).lower p slot = .ok (code, pushed)) :
    ∃ l r common rightCode leftCode, left.typeIn p = .ok l ∧ right.typeIn p = .ok r ∧
      l.common? r = some common ∧ right.lowerTo p (common.settle slot) = .ok rightCode ∧
      left.lowerTo p (common.settle slot) = .ok leftCode ∧
      code = rightCode ++ leftCode ++ [Instruction.binary op.opcode (common.settle slot)] ∧
      pushed = if op.isComparison then .bool else common.settle slot := by
  simp only [Expr.lower] at h
  obtain ⟨l, r, hl, hr, h⟩ := of_bind₂ h
  obtain ⟨common, ⟨rc, rt⟩, hc, hrc, h⟩ := of_bind₂ h
  obtain ⟨⟨lc, lt⟩, hlc, h⟩ := of_bind h
  cases h
  refine ⟨l, r, common, rc ++ convertTo _ rt, lc ++ convertTo _ lt, hl, hr,
    Primitive.common_ok hc, ?_, ?_, rfl, rfl⟩
  · simp [Expr.lowerTo, hrc]
  · simp [Expr.lowerTo, hlc]

theorem Expr.lower_assign_ok {target : NameUse} {value : Expr}
    (h : (Expr.assign target value span).lower p slot = .ok (code, pushed)) :
    ∃ s valueCode, target.slot = some s ∧ value.lowerTo p s.type = .ok valueCode ∧
      code = valueCode ++ [Instruction.setLocal s.index] ∧ pushed = .void := by
  simp only [Expr.lower] at h
  obtain ⟨s, ⟨c, t⟩, hs, hc, h⟩ := of_bind₂ h
  cases h
  refine ⟨s, c ++ convertTo s.type t, NameUse.found_ok hs, ?_, rfl, rfl⟩
  simp [Expr.lowerTo, hc]

theorem Expr.lower_call_ok {args : List Expr}
    (h : (Expr.call target args method span).lower p slot = .ok (code, pushed)) :
    ∃ callee argumentsCode, method.bind p.methodAt? = some callee ∧
      Expr.lowerArguments p args callee.parameterTypes = .ok argumentsCode ∧
      code = argumentsCode ++ [.call callee.returnType (p.referenceOf callee)] ∧
      pushed = callee.returnType := by
  simp only [Expr.lower] at h
  obtain ⟨callee, c, hcallee, hc, h⟩ := of_bind₂ h
  cases h
  exact ⟨callee, c, Program.callee_ok hcallee, hc, rfl, rfl⟩

theorem Expr.lowerArguments_cons_ok {a : Expr} {rest : List Expr} {types : Types}
    (h : Expr.lowerArguments p (a :: rest) (type :: types) = .ok code) :
    ∃ first more, a.lowerTo p type = .ok first ∧ Expr.lowerArguments p rest types = .ok more ∧
      code = first ++ more := by
  simp only [Expr.lowerArguments] at h
  obtain ⟨⟨c, t⟩, more, hc, hmore, h⟩ := of_bind₂ h
  cases h
  refine ⟨c ++ convertTo type t, more, ?_, hmore, rfl⟩
  simp [Expr.lowerTo, hc]

theorem Expr.lower_cast_ok {operand : Expr}
    (h : (Expr.cast operand type span).lower p slot = .ok (code, pushed)) :
    operand.lowerTo p type = .ok code ∧ pushed = type := by
  simp only [Expr.lower] at h
  obtain ⟨⟨_, _⟩, hc, h⟩ := of_bind h
  cases h
  refine ⟨?_, rfl⟩
  simp [Expr.lowerTo, hc]

theorem Expr.lowerTruth_ok (h : e.lowerTruth p = .ok code) :
    ∃ c, e.lowerTo p .bool = .ok c ∧ code = c ++ [.branch .true none] := by
  unfold Expr.lowerTruth at h
  obtain ⟨c, hc, h⟩ := of_bind h
  cases h
  exact ⟨c, hc, rfl⟩

/-- The operator of a condition that a branch tests itself. -/
def Condition.operator : Condition → BinaryOp
  | .equal => .equal
  | _ => .notEqual

/-- Only a comparison with an integer literal is left to the branch. -/
theorem Expr.eq_of_comparison? {left : Expr} {kind : Condition} {n : Int}
    (h : e.comparison? = some (kind, left, n)) : (kind = .equal ∨ kind = .unequal) ∧ ∃ span span',
      e = .binary kind.operator left (.literal (.integer n) span) span' := by
  unfold Expr.comparison? at h
  split at h
  · cases h
    exact ⟨.inl rfl, _, _, rfl⟩
  · cases h
    exact ⟨.inr rfl, _, _, rfl⟩
  · cases h

/-- A condition is tested for truth, or an integer is compared with a literal by the branch. -/
theorem Expr.lowerCondition_ok (h : e.lowerCondition p = .ok code) :
    (∃ c, e.lowerTo p .bool = .ok c ∧ code = c ++ [Instruction.branch .true none]) ∨
      ∃ kind left n type c t, e.comparison? = some (kind, left, n) ∧ left.typeIn p = .ok type ∧
        type.isConcreteInteger = true ∧ left.lower p none = .ok (c, t) ∧
        code = c ++ [Instruction.branch kind (some n)] := by
  unfold Expr.lowerCondition at h
  split at h
  · exact .inl (lowerTruth_ok h)
  · rename_i kind left n hcmp
    obtain ⟨type, htype, h⟩ := of_bind h
    split at h
    · rename_i hinteger
      obtain ⟨⟨c, t⟩, hc, h⟩ := of_bind h
      cases h
      exact .inr ⟨kind, left, n, type, c, t, hcmp, htype, hinteger, hc, rfl⟩
    · exact .inl (lowerTruth_ok h)

end

/-! ## Instructions of expressions -/

section

variable {P : Instruction → Prop} {e : Expr} {code : Code} {target : Primitive}

theorem forall_mem_lowerTo (h : P (.convert target))
    (he : ∀ slot c t, e.lower p slot = .ok (c, t) → ∀ i ∈ c, P i)
    (hok : e.lowerTo p target = .ok code) : ∀ i ∈ code, P i := by
  obtain ⟨c, t, hc, rfl⟩ := Expr.lowerTo_ok hok
  refine forall_mem_append.2 ⟨he _ c t hc, ?_⟩
  unfold convertTo
  split
  · intro i hi
    cases hi
  · exact forall_mem_singleton.2 h

theorem forall_mem_lowerArguments {args : List Expr} {types : Types}
    (h : ∀ t ∈ types, P (.convert t))
    (hargs : ∀ a ∈ args, ∀ slot c t, a.lower p slot = .ok (c, t) → ∀ i ∈ c, P i)
    (hok : Expr.lowerArguments p args types = .ok code) : ∀ i ∈ code, P i := by
  induction args generalizing types code with
  | nil =>
    cases hok
    simp
  | cons a _ ih =>
    cases types with
    | nil =>
      cases hok
      simp
    | cons =>
      obtain ⟨_, _, hfirst, hmore, rfl⟩ := Expr.lowerArguments_cons_ok hok
      obtain ⟨htype, htypes⟩ := forall_mem_cons.1 h
      have h₁ := forall_mem_lowerTo htype (hargs a (by simp)) hfirst
      have h₂ := ih htypes (fun b hb => hargs b (mem_cons_of_mem _ hb)) hmore
      exact forall_mem_append.2 ⟨h₁, h₂⟩

theorem isStraight_convert (t : Primitive) : (Instruction.convert t).isStraight = true := by
  simp [Instruction.isStraight, Command.isControl]

/-- Expressions have no marks and no jumps. -/
theorem Expr.isStraight_of_lower : ∀ slot code pushed, e.lower p slot = .ok (code, pushed) →
    ∀ i ∈ code, i.isStraight = true := by
  induction e with
  | literal =>
    intro slot code pushed h
    cases h
    simp [Instruction.isStraight, Command.isControl]
  | name =>
    intro slot code pushed h
    simp only [Expr.lower] at h
    obtain ⟨s, -, h⟩ := of_bind h
    cases h
    simp [Instruction.isStraight, Command.isControl]
  | binary _ _ _ _ hl hr =>
    intro slot code pushed h
    obtain ⟨_, _, _, _, _, -, -, -, hright, hleft, rfl, -⟩ :=
      lower_binary_ok h
    have h₁ := forall_mem_lowerTo (isStraight_convert _) hr hright
    have h₂ := forall_mem_lowerTo (isStraight_convert _) hl hleft
    refine forall_mem_append.2 ⟨forall_mem_append.2 ⟨h₁, h₂⟩, ?_⟩
    simp [Instruction.isStraight, Command.isControl]
  | assign _ _ _ hv =>
    intro slot code pushed h
    obtain ⟨s, _, -, hvalue, rfl, -⟩ := lower_assign_ok h
    refine forall_mem_append.2 ⟨forall_mem_lowerTo (isStraight_convert _) hv hvalue, ?_⟩
    simp [Instruction.isStraight, Command.isControl]
  | call _ _ _ _ hargs =>
    intro slot code pushed h
    obtain ⟨_, _, _, harguments, rfl, -⟩ := lower_call_ok h
    refine forall_mem_append.2
      ⟨forall_mem_lowerArguments (fun t _ => isStraight_convert t) hargs harguments, ?_⟩
    simp [Instruction.isStraight, Command.isControl]
  | cast _ _ _ ho =>
    intro slot code pushed h
    obtain ⟨hoperand, -⟩ := lower_cast_ok h
    exact forall_mem_lowerTo (isStraight_convert _) ho hoperand

theorem Expr.isStraight_of_lowerTo (h : e.lowerTo p target = .ok code) :
    ∀ i ∈ code, i.isStraight = true :=
  forall_mem_lowerTo (isStraight_convert _) isStraight_of_lower h

end

/-! ## Types of pushed values -/

/-- Whether all slots of a method, and all parameters of the methods of a program, have values. -/
structure Concrete (p : Program) (slots : Int → Option Primitive) : Prop where
  slot : ∀ index t, slots index = some t → t.isConcreteValue = true
  parameter : ∀ m ∈ p.methods, ∀ t ∈ m.parameterTypes, t.isConcreteValue = true

namespace Primitive

/-- A common type is one of the two, or a floating one. -/
theorem common?_cases {l r c : Primitive} (h : l.common? r = some c) :
    c = l ∨ c = r ∨ c = .floating ∨ c = .f64 := by
  unfold common? at h
  split at h
  · cases h
    exact .inl rfl
  · split at h
    · cases h
    · split at h
      · cases h
        exact .inr (.inr (.inl rfl))
      · cases h
        unfold joinGeneric
        split
        · exact .inr (.inr (.inr rfl))
        · exact .inr (.inl rfl)
      · cases h
        unfold joinGeneric
        split
        · exact .inr (.inr (.inr rfl))
        · exact .inl rfl
      · split at h
        · cases h
          exact .inr (.inl rfl)
        · split at h
          · cases h
            exact .inl rfl
          · split at h
            · cases h
              exact .inr (.inl rfl)
            · cases h
              exact .inl rfl

variable {t : Primitive}

theorem settle_of_concrete (h : t.isGeneric = false) (slot : Option Primitive) :
    t.settle slot = t := by
  unfold settle
  rw [h]
  rfl

theorem settle_ne_void (h : t ≠ .void) (slot : Option Primitive) : t.settle slot ≠ .void := by
  unfold settle
  split
  · rename_i hgeneric
    have hconc : t.concrete ≠ .void := by
      revert h
      cases t <;> decide
    split
    · rename_i s
      split
      · rename_i hassign
        simp only [Bool.and_eq_true, Bool.not_eq_true'] at hassign
        refine ne_void_of_assignableTo ?_ hassign.2
        rintro rfl
        rw [hgeneric] at hassign
        cases hassign.1
      · exact hconc
    · exact hconc
  · exact h

theorem ne_void_of_isNumeric (h : t.isNumeric = true) : t ≠ .void := by
  rintro rfl
  cases h

end Primitive

section

variable {slots : Int → Option Primitive} {slot : Option Primitive} {code : Code}
  {pushed : Primitive} {e : Expr} {t : Primitive} {op : BinaryOp} {left right : Expr} {span : Span}

theorem Expr.typeIn_binary_ok (h : (Expr.binary op left right span).typeIn p = .ok t) :
    ∃ l r common, left.typeIn p = .ok l ∧ right.typeIn p = .ok r ∧ l.common? r = some common ∧
      ((op.isComparison = true ∧ t = .bool) ∨
        (op.isComparison = false ∧ common.isNumeric = true ∧ t = common)) := by
  simp only [Expr.typeIn] at h
  obtain ⟨l, r, hl, hr, h⟩ := of_bind₂ h
  obtain ⟨common, hc, h⟩ := of_bind h
  refine ⟨l, r, common, hl, hr, Primitive.common_ok hc, ?_⟩
  unfold BinaryOp.resultType at h
  split at h
  · rename_i hop
    cases h
    exact .inl ⟨hop, rfl⟩
  · rename_i hop
    split at h
    · rename_i hnumeric
      cases h
      exact .inr ⟨by simpa using hop, hnumeric, rfl⟩
    · cases h

/-- An operation has and reports a truth value, or it has a type of numbers and reports the type that
this takes in the slot. -/
theorem Expr.pushed_binary (ht : (Expr.binary op left right span).typeIn p = .ok t)
    (h : (Expr.binary op left right span).lower p slot = .ok (code, pushed)) :
    t = .bool ∧ pushed = .bool ∨ t.isNumeric = true ∧ pushed = t.settle slot := by
  obtain ⟨_, _, _, hl, hr, hcommon, hres⟩ := typeIn_binary_ok ht
  obtain ⟨_, _, _, _, _, hl', hr', hcommon', -, -, -, rfl⟩ := lower_binary_ok h
  cases hl.symm.trans hl'
  cases hr.symm.trans hr'
  cases hcommon.symm.trans hcommon'
  rcases hres with ⟨hop, rfl⟩ | ⟨hop, hnumeric, rfl⟩
  · exact .inl ⟨rfl, if_pos hop⟩
  · exact .inr ⟨hnumeric, by simp [hop]⟩

theorem Expr.pushed_eq_void (hp : e.pushes p = false) (h : e.lower p slot = .ok (code, pushed)) :
    pushed = .void := by
  cases e with
  | literal => cases hp
  | name => cases hp
  | binary => cases hp
  | assign =>
    obtain ⟨_, _, -, -, -, hpushed⟩ := lower_assign_ok h
    exact hpushed
  | call =>
    obtain ⟨_, _, hcallee, -, -, hpushed⟩ := lower_call_ok h
    rw [Expr.pushes, hcallee] at hp
    rw [hpushed]
    simpa using hp
  | cast =>
    obtain ⟨-, hpushed⟩ := lower_cast_ok h
    rw [hpushed]
    simp only [Expr.pushes, Bool.or_eq_false_iff] at hp
    simpa using hp.1

/-- An expression that leaves a value reports the type of one, unless it is cast to `void`. -/
theorem Expr.Sound.pushed_ne_void (hs : e.Sound p slots) (hc : Concrete p slots)
    (hp : e.pushes p = true) (hl : e.leaks p = false) (h : e.lower p slot = .ok (code, pushed)) :
    pushed ≠ .void := by
  cases hs with
  | @literal value span =>
    cases h
    have hinteger : Primitive.forInteger slot ≠ .void := by
      cases slot with
      | none => decide
      | some type => cases type <;> decide
    have hreal : Primitive.forReal slot ≠ .void := by
      cases slot with
      | none => decide
      | some type => cases type <;> decide
    cases value with
    | integer => exact hinteger
    | real => exact hreal
    | text | boolean | null => exact Primitive.noConfusion
  | @name use s hu hg =>
    simp only [Expr.lower, NameUse.found, hu] at h
    cases h
    exact Primitive.ne_void_of_isConcreteValue (hc.slot _ _ hg)
  | @binary op left right span ht _ _ =>
    obtain ⟨_, ht⟩ := ht
    rcases pushed_binary ht h with ⟨-, rfl⟩ | ⟨hnumeric, rfl⟩
    · exact Primitive.noConfusion
    · exact Primitive.settle_ne_void (Primitive.ne_void_of_isNumeric hnumeric) slot
  | assign => cases hp
  | @call target args method span callee hcallee _ _ =>
    obtain ⟨_, _, hcallee', -, -, hpushed⟩ := lower_call_ok h
    rw [Expr.pushes, hcallee] at hp
    rw [hcallee] at hcallee'
    cases hcallee'
    rw [hpushed]
    simpa using hp
  | cast =>
    obtain ⟨-, hpushed⟩ := lower_cast_ok h
    rw [hpushed]
    rintro rfl
    simp_all [Expr.leaks, Expr.pushes]

theorem Expr.Sound.type_ne_void (hs : e.Sound p slots) (hc : Concrete p slots) (hv : e.Valued p)
    (h : e.typeIn p = .ok t) : t ≠ .void := by
  cases hs with
  | @literal value span =>
    cases h
    cases value <;> exact Primitive.noConfusion
  | @name use s hu hg =>
    simp only [Expr.typeIn, NameUse.type, hu] at h
    cases h
    exact Primitive.ne_void_of_isConcreteValue (hc.slot _ _ hg)
  | binary =>
    obtain ⟨_, _, _, -, -, -, ⟨-, rfl⟩ | ⟨-, hnumeric, rfl⟩⟩ := typeIn_binary_ok h
    · exact Primitive.noConfusion
    · exact Primitive.ne_void_of_isNumeric hnumeric
  | assign => cases hv.pushes
  | @call target args method span callee hcallee _ _ =>
    have hp := hv.pushes
    rw [Expr.pushes, hcallee] at hp
    simp only [Expr.typeIn, Program.callee, hcallee] at h
    cases h
    simpa using hp
  | cast =>
    cases h
    exact (whole_cast_iff.1 hv.toWhole).2

/-- The type that an operation between values works on is not `void`. -/
theorem Expr.Sound.settle_ne_void {l r common : Primitive}
    (hsl : left.Sound p slots) (hsr : right.Sound p slots) (hc : Concrete p slots)
    (hvl : left.Valued p) (hvr : right.Valued p) (hl : left.typeIn p = .ok l)
    (hr : right.typeIn p = .ok r) (hcommon : l.common? r = some common) :
    common.settle slot ≠ .void := by
  apply Primitive.settle_ne_void
  rcases Primitive.common?_cases hcommon with rfl | rfl | rfl | rfl
  · exact hsl.type_ne_void hc hvl hl
  · exact hsr.type_ne_void hc hvr hr
  · exact Primitive.noConfusion
  · exact Primitive.noConfusion

/-- A value with a concrete type is pushed with it, whatever slot it flows into. -/
theorem Expr.pushed_eq_of_concrete (hp : e.pushes p = true) (ht : e.typeIn p = .ok t)
    (hg : t.isGeneric = false) (h : e.lower p slot = .ok (code, pushed)) : pushed = t := by
  cases e with
  | literal value =>
    cases h
    cases ht
    cases value with
    | integer | real => cases hg
    | text | boolean | null => rfl
  | name =>
    simp only [Expr.lower] at h
    obtain ⟨_, hs, h⟩ := of_bind h
    cases h
    simp only [Expr.typeIn, NameUse.type, NameUse.found_ok hs] at ht
    cases ht
    rfl
  | binary =>
    rcases pushed_binary ht h with ⟨rfl, rfl⟩ | ⟨-, rfl⟩
    · rfl
    · exact Primitive.settle_of_concrete hg slot
  | assign => cases hp
  | call =>
    obtain ⟨callee, _, hcallee, -, -, hpushed⟩ := lower_call_ok h
    simp only [Expr.typeIn, Program.callee, hcallee] at ht
    cases ht
    exact hpushed
  | cast =>
    cases ht
    exact (lower_cast_ok h).2

end

/-! ## Every sound tree is lowered -/

section

variable {slots : Int → Option Primitive} {e : Expr}

theorem Expr.exists_lowerTo {target : Primitive}
    (h : ∃ code pushed, e.lower p (some target) = .ok (code, pushed)) :
    ∃ code, e.lowerTo p target = .ok code := by
  obtain ⟨code, pushed, h⟩ := h
  exact ⟨code ++ convertTo target pushed, by simp [Expr.lowerTo, h]⟩

theorem Expr.exists_lowerArguments {args : List Expr}
    (h : ∀ a ∈ args, ∀ slot, ∃ code pushed, a.lower p slot = .ok (code, pushed)) :
    ∀ types, ∃ code, Expr.lowerArguments p args types = .ok code := by
  induction args with
  | nil => exact fun types => ⟨[], by simp [Expr.lowerArguments]⟩
  | cons a _ ih =>
    intro types
    cases types with
    | nil => exact ⟨[], by simp [Expr.lowerArguments]⟩
    | cons type types =>
      obtain ⟨code, pushed, hcode⟩ := h a (by simp) (some type)
      obtain ⟨_, hmore⟩ := ih (fun b hb => h b (mem_cons_of_mem _ hb)) types
      exact ⟨_, by simp only [Expr.lowerArguments, hcode, hmore, ok_bind]; rfl⟩

/-- Every sound expression is lowered, whatever slot it flows into. -/
theorem Expr.Sound.exists_lower (hs : e.Sound p slots) :
    ∀ slot, ∃ code pushed, e.lower p slot = .ok (code, pushed) := by
  induction hs with
  | literal => exact fun slot => ⟨_, _, rfl⟩
  | name hu => exact fun slot => ⟨_, _, by simp only [Expr.lower, NameUse.found, hu]; rfl⟩
  | binary ht _ _ hl hr =>
    intro slot
    obtain ⟨t, ht⟩ := ht
    obtain ⟨_, _, common, hlt, hrt, hcommon, -⟩ := typeIn_binary_ok ht
    obtain ⟨_, _, hrc⟩ := hr (some (common.settle slot))
    obtain ⟨_, _, hlc⟩ := hl (some (common.settle slot))
    exact ⟨_, _, by
      simp only [Expr.lower, hlt, hrt, Primitive.common, hcommon, ok_bind, hrc, hlc]
      rfl⟩
  | @assign target s value span hu hg _ hv =>
    intro slot
    obtain ⟨c, t, hc⟩ := hv (some s.type)
    exact ⟨_, _, by simp only [Expr.lower, NameUse.found, hu, ok_bind, hc]; rfl⟩
  | @call target args method span callee hcallee hlen _ hargs =>
    intro slot
    obtain ⟨c, hc⟩ := exists_lowerArguments hargs callee.parameterTypes
    exact ⟨_, _, by simp only [Expr.lower, Program.callee, hcallee, ok_bind, hc]; rfl⟩
  | @cast operand type span _ ho =>
    intro slot
    obtain ⟨c, t, hc⟩ := ho (some type)
    exact ⟨_, _, by simp only [Expr.lower, ok_bind, hc]; rfl⟩

theorem Expr.Sound.exists_lowerTruth (hs : e.Sound p slots) :
    ∃ code, e.lowerTruth p = .ok code := by
  obtain ⟨c, hc⟩ := exists_lowerTo (hs.exists_lower (some .bool))
  exact ⟨c ++ [.branch .true none], by simp [Expr.lowerTruth, hc]⟩

theorem Expr.Sound.exists_lowerCondition (hs : e.Sound p slots) :
    ∃ code, e.lowerCondition p = .ok code := by
  unfold Expr.lowerCondition
  split
  · exact hs.exists_lowerTruth
  · rename_i kind left n hcmp
    obtain ⟨-, _, _, rfl⟩ := eq_of_comparison? hcmp
    obtain ⟨code, htruth⟩ := hs.exists_lowerTruth
    cases hs with
    | binary _ hleft =>
      obtain ⟨t, ht⟩ := exists_type hleft
      obtain ⟨c, pushed, hc⟩ := exists_lower hleft none
      rw [ht, ok_bind]
      split
      · exact ⟨c ++ [.branch kind (some n)], by simp [hc]⟩
      · exact ⟨code, htruth⟩

end

/-! ## Statements, read backwards -/

section

variable {returnType : Primitive} {code : Code} {span : Span} {body : Stmt}
  {next : Alternatives} {condition : Expr}

theorem Stmt.lower_branch_ok {alts : Alternatives}
    (h : (Stmt.branch condition body alts span).lower p returnType = .ok code) :
    ∃ test first rest, condition.lowerCondition p = .ok test ∧
      body.lower p returnType = .ok first ∧ alts.lower p returnType = .ok rest ∧
      code = test ++ first ++ rest ++ [Instruction.endBranch] := by
  simp only [Stmt.lower] at h
  obtain ⟨test, first, htest, hfirst, h⟩ := of_bind₂ h
  obtain ⟨rest, hrest, h⟩ := of_bind h
  cases h
  exact ⟨test, first, rest, htest, hfirst, hrest, rfl⟩

theorem Stmt.lower_expression_ok {e : Expr}
    (h : (Stmt.expression e).lower p returnType = .ok code) :
    ∃ c pushed, e.lower p none = .ok (c, pushed) ∧
      code = if pushed = .void then c else c ++ [Instruction.pop] := by
  simp only [Stmt.lower] at h
  obtain ⟨⟨c, pushed⟩, hc, h⟩ := of_bind h
  cases h
  exact ⟨c, pushed, hc, rfl⟩

theorem Stmt.lower_ret_ok {value : Expr}
    (h : (Stmt.ret (some value) span).lower p returnType = .ok code) :
    ∃ c, value.lowerTo p returnType = .ok c ∧ code = c ++ [.ret] := by
  simp only [Stmt.lower] at h
  obtain ⟨c, hc, h⟩ := of_bind h
  cases h
  exact ⟨c, hc, rfl⟩

theorem Alternatives.lower_some_ok
    (h : (Alternatives.more (some condition) body next span).lower p returnType = .ok code) :
    ∃ test first rest, condition.lowerCondition p = .ok test ∧
      body.lower p returnType = .ok first ∧ next.lower p returnType = .ok rest ∧
      code = .otherwise :: (test ++ first ++ rest ++ [.endBranch]) := by
  simp only [Alternatives.lower] at h
  obtain ⟨test, first, htest, hfirst, h⟩ := of_bind₂ h
  obtain ⟨rest, hrest, h⟩ := of_bind h
  cases h
  exact ⟨test, first, rest, htest, hfirst, hrest, rfl⟩

theorem Alternatives.lower_none_ok
    (h : (Alternatives.more Option.none body next span).lower p returnType = .ok code) :
    ∃ first, body.lower p returnType = .ok first ∧ code = .otherwise :: first := by
  simp only [Alternatives.lower] at h
  obtain ⟨first, hfirst, h⟩ := of_bind h
  cases h
  exact ⟨first, hfirst, rfl⟩

theorem Stmt.lowerAll_cons_ok {s : Stmt} {rest : List Stmt}
    (h : Stmt.lowerAll p returnType (s :: rest) = .ok code) :
    ∃ first more, s.lower p returnType = .ok first ∧
      Stmt.lowerAll p returnType rest = .ok more ∧ code = first ++ more := by
  simp only [Stmt.lowerAll] at h
  obtain ⟨first, more, hfirst, hmore, h⟩ := of_bind₂ h
  cases h
  exact ⟨first, more, hfirst, hmore, rfl⟩

end

/-! ## Parts -/

/-- The code of a part. -/
def Part.lower (p : Program) (returnType : Primitive) : Part → Evaluating Code
  | .effect e => (Stmt.expression e).lower p returnType
  | .declaration name type initial span => (Stmt.declare name type initial span).lower p returnType
  | .result value span => (Stmt.ret value span).lower p returnType
  | .condition e _ => e.lowerCondition p
  | .alternative none _ => .ok [.otherwise]
  | .alternative (some e) _ => do
    let test ← e.lowerCondition p
    return .otherwise :: test
  | .mark .ending => .ok [.endBranch]
  | .mark _ => .ok []

/-- The code of parts, one after the other; those that cannot be reached have none. -/
def lowerParts (p : Program) (returnType : Primitive) :
    List (Bool × Part) → Evaluating Code
  | [] => .ok []
  | (true, x) :: rest => do
    let code ← x.lower p returnType
    let more ← lowerParts p returnType rest
    return code ++ more
  | (false, _) :: rest => lowerParts p returnType rest

section

variable {returnType : Primitive} {xs ys : List (Bool × Part)} {code : Code}

theorem lowerParts_append : lowerParts p returnType (xs ++ ys) = (do
    let code ← lowerParts p returnType xs let more ← lowerParts p returnType ys
    return code ++ more) := by
  induction xs with
  | nil => simp [lowerParts, Except.bind_ok]
  | cons x _ ih =>
    obtain ⟨reached, x⟩ := x
    cases reached <;> simp [lowerParts, ih]

theorem lowerParts_unreached (xs : List (Bool × Part)) :
    lowerParts p returnType (xs.map fun x => (false, x.2)) = .ok [] := by
  induction xs with
  | nil => rfl
  | cons _ _ ih => exact ih

mutual

theorem Stmt.lower_eq_parts : ∀ s : Stmt, s.lower p returnType = lowerParts p returnType s.parts
  | .expression _ | .declare .. | .ret .. | .assembly .. => by
    simp [Stmt.parts, lowerParts, Part.lower, Stmt.lower, Except.bind_ok]
  | .branch _ body alts _ => by
    simp [Stmt.parts, lowerParts, lowerParts_append, Part.lower, Stmt.lower,
      Stmt.lower_eq_parts body, Alternatives.lower_eq_parts alts]
  | .block body _ => by
    simp [Stmt.parts, lowerParts, lowerParts_append, Part.lower, Stmt.lower,
      Stmt.lowerAll_eq_parts body, Except.bind_ok]

theorem Alternatives.lower_eq_parts : ∀ a : Alternatives,
    a.lower p returnType = lowerParts p returnType a.parts
  | .none => rfl
  | .more none body _ _ => by
    simp [Alternatives.parts, lowerParts, lowerParts_append, lowerParts_unreached, Part.lower,
      Alternatives.lower, Stmt.lower_eq_parts body]
  | .more (some _) body next _ => by
    simp [Alternatives.parts, lowerParts, lowerParts_append, Part.lower, Alternatives.lower,
      Stmt.lower_eq_parts body, Alternatives.lower_eq_parts next]

theorem Stmt.lowerAll_eq_parts : ∀ body : List Stmt,
    Stmt.lowerAll p returnType body = lowerParts p returnType (Stmt.allParts body)
  | [] => rfl
  | s :: rest => by
    simp [Stmt.allParts, lowerParts_append, Stmt.lowerAll, Stmt.lower_eq_parts s,
      Stmt.lowerAll_eq_parts rest]

end

/-- What the code of a part has ahead of more code, all code of parts has. -/
theorem lowerParts_induction {P : List (Bool × Part) → Code → Prop} (nil : P [] [])
    (reached : ∀ x rest code more, x.lower p returnType = .ok code → P rest more →
      P ((true, x) :: rest) (code ++ more))
    (unreached : ∀ x rest code, P rest code → P ((false, x) :: rest) code) :
    ∀ code, lowerParts p returnType xs = .ok code → P xs code := by
  induction xs with
  | nil =>
    intro code h
    cases h
    exact nil
  | cons x rest ih =>
    intro code h
    obtain ⟨_ | _, x⟩ := x
    · exact unreached x rest code (ih code h)
    · obtain ⟨first, more, hfirst, hmore, h⟩ := of_bind₂ h
      cases h
      exact reached x rest first more hfirst (ih more hmore)

theorem exists_lowerParts (h : ∀ x ∈ xs, x.1 = true → ∃ code, x.2.lower p returnType = .ok code) :
    ∃ code, lowerParts p returnType xs = .ok code := by
  induction xs with
  | nil => exact ⟨[], rfl⟩
  | cons x _ ih =>
    obtain ⟨hx, hrest⟩ := forall_mem_cons.1 h
    obtain ⟨more, hmore⟩ := ih hrest
    obtain ⟨_ | _, x⟩ := x
    · exact ⟨more, hmore⟩
    · obtain ⟨first, hfirst⟩ := hx rfl
      exact ⟨first ++ more, by simp only [lowerParts, hfirst, hmore, ok_bind]; rfl⟩

variable {m : Method}

theorem Part.exists_lower {x : Part} (hx : (Demands.sound p m).Holds x) :
    ∃ code, x.lower p m.returnType = .ok code := by
  cases x with
  | effect =>
    obtain ⟨c, _, hc⟩ := Expr.Sound.exists_lower hx none
    exact ⟨_, by simp only [Part.lower, Stmt.lower, hc, ok_bind]; rfl⟩
  | declaration => exact hx.elim
  | result =>
    rcases hx with ⟨rfl, -⟩ | ⟨e, rfl, -, he⟩
    · exact ⟨_, rfl⟩
    · obtain ⟨c, hc⟩ := Expr.exists_lowerTo (he.exists_lower (some m.returnType))
      exact ⟨c ++ [.ret], by simp only [Part.lower, Stmt.lower, hc, ok_bind]; rfl⟩
  | condition => exact Expr.Sound.exists_lowerCondition hx
  | alternative condition =>
    cases condition with
    | none => exact ⟨_, rfl⟩
    | some e =>
      obtain ⟨test, htest⟩ := Expr.Sound.exists_lowerCondition (hx e rfl)
      exact ⟨.otherwise :: test, by simp only [Part.lower, htest, ok_bind]; rfl⟩
  | mark k => cases k <;> exact ⟨_, rfl⟩

theorem Stmt.exists_lower (s : Stmt) (hs : s.Meets (.sound p m)) :
    ∃ code, s.lower p m.returnType = .ok code := by
  rw [lower_eq_parts]
  exact exists_lowerParts fun x hx hreached =>
    Part.exists_lower ((demands_iff _ s).1.1 hs x hx hreached)

theorem Stmt.exists_lowerAll (body : List Stmt) (hbody : Stmt.AllMeet (.sound p m) body) :
    ∃ code, Stmt.lowerAll p m.returnType body = .ok code := by
  rw [lowerAll_eq_parts]
  exact exists_lowerParts fun x hx hreached =>
    Part.exists_lower ((allMeet_iff_parts _ body).1 hbody x hx hreached)

end

/-! ## What holds of the pieces -/

/-- What has to hold of the pieces of code for it to hold of whole bodies. -/
structure Closed (p : Program) (returnType : Primitive) (d : Demands)
    (P : Code → Prop) : Prop where
  nil : P []
  append : ∀ a b, P a → P b → P (a ++ b)
  effect : ∀ e code, d.effect e → (Stmt.expression e).lower p returnType = .ok code → P code
  condition : ∀ e code, d.condition e → e.lowerCondition p = .ok code → P code
  result : ∀ v span code, d.result v → (Stmt.ret v span).lower p returnType = .ok code → P code
  otherwise : P [.otherwise]
  endBranch : P [.endBranch]

section

variable {returnType : Primitive} {d : Demands} {P : Code → Prop}
  {code : Code}

section

variable (h : Closed p returnType d P)
include h

theorem Closed.part {x : Part} (hx : d.Holds x) (hok : x.lower p returnType = .ok code) :
    P code := by
  cases x with
  | effect e => exact h.effect e code hx hok
  | declaration => exact hx.elim
  | result value span => exact h.result value span code hx hok
  | condition e => exact h.condition e code hx hok
  | alternative condition =>
    cases condition with
    | none =>
      cases hok
      exact h.otherwise
    | some e =>
      obtain ⟨test, htest, hok⟩ := of_bind hok
      cases hok
      exact h.append [.otherwise] test h.otherwise (h.condition e test (hx e rfl) htest)
  | mark k =>
    cases k with
    | ending =>
      cases hok
      exact h.endBranch
    | assembly | opening | closing =>
      cases hok
      exact h.nil

theorem Closed.lowerParts {xs : List (Bool × Part)} (hok : lowerParts p returnType xs = .ok code)
    (hxs : ∀ x ∈ xs, x.1 = true → d.Holds x.2) : P code := by
  refine lowerParts_induction
    (P := fun xs code => (∀ x ∈ xs, x.1 = true → d.Holds x.2) → P code)
    (fun _ => h.nil) ?_ (fun _ _ _ ih hxs => ih (forall_mem_cons.1 hxs).2) code hok hxs
  intro x _ code more hcode ih hxs
  obtain ⟨hx, hrest⟩ := forall_mem_cons.1 hxs
  exact h.append code more (h.part (hx rfl) hcode) (ih hrest)

theorem Stmt.lower_closed (s : Stmt) (code : Code) (hs : s.Meets d)
    (hok : s.lower p returnType = .ok code) : P code := by
  rw [lower_eq_parts] at hok
  exact h.lowerParts hok ((demands_iff d s).1.1 hs)

theorem Stmt.lowerAll_closed (body : List Stmt) (code : Code)
    (hbody : Stmt.AllMeet d body) (hok : Stmt.lowerAll p returnType body = .ok code) : P code := by
  rw [lowerAll_eq_parts] at hok
  exact h.lowerParts hok ((allMeet_iff_parts d body).1 hbody)

end

end

/-! ## Lowered methods -/

theorem Method.code_lower {m : Method} {code : Code}
    (h : Stmt.lowerAll p m.returnType m.statements = .ok code) : (m.lower p).1.code = code := by
  rw [Method.lower_eq]
  unfold Method.pieces
  generalize m.statements = body at h ⊢
  induction body generalizing code with
  | nil =>
    cases h
    rfl
  | cons _ _ ih =>
    obtain ⟨first, _, hfirst, hmore, rfl⟩ := Stmt.lowerAll_cons_ok h
    rw [filterMap_cons, hfirst]
    exact congrArg (first ++ ·) (ih hmore)

namespace Evaluation

variable {s : Evaluation} {id : MethodId}

/-- The setting of a checked method: all slots and parameters have values. -/
theorem check_concrete {m : Method} (hs : s.program.Declared)
    (h : s.resolve.check.program.methodAt? id = some m) (hext : m.external = false) :
    Concrete s.resolve.check.program m.localType? where
  slot index t ht := check_localType? hs h hext ht
  parameter q hq t ht := by
    obtain ⟨i, hi⟩ := getElem?_of_mem hq
    have hout := s.resolve.outline_check.trans s.outline_resolve
    obtain ⟨q₀, hq₀, hsame⟩ :=
      @Program.exists_callee_of_outline_eq _ _ hout (some i) q hi
    have hparams : q.parameterTypes = q₀.parameterTypes := by
      rw [← Method.outline_parameterTypes q, ← hsame, Method.outline_parameterTypes]
    rw [hparams] at ht
    exact (hs q₀ (mem_of_getElem? hq₀)).parameters t ht

end Evaluation

/-- The program that the scripts describe, with its bodies resolved. -/
def resolved (scripts : ScriptTable) (files : List SourceFile) : Evaluation :=
  (({ scripts := scripts } : Evaluation).declare files).resolve

/-- The program that the scripts describe, with its bodies checked. -/
def checked (scripts : ScriptTable) (files : List SourceFile) : Evaluation :=
  (resolved scripts files).check

theorem evaluate_eq_lower (scripts : ScriptTable) (files : List SourceFile) :
    evaluate scripts files = (checked scripts files).lower := rfl

/-- What the passes give a body: it is sound, all slots and parameters have values, and the code of
the method is that of its statements. -/
theorem exists_code_of_checked {scripts : ScriptTable} {files : List SourceFile} {id : MethodId}
    {m : Method} (h : (checked scripts files).program.methodAt? id = some m)
    (hext : m.external = false) :
    Stmt.AllMeet (.sound (checked scripts files).program m) m.statements ∧
      Concrete (checked scripts files).program m.localType? ∧
      ∃ code, Stmt.lowerAll (checked scripts files).program m.returnType m.statements = .ok code ∧
        (evaluate scripts files).program.methodAt? id =
          some { m with statements := [], code, compiled := true } := by
  have hsound := Evaluation.check_sound h hext
  obtain ⟨code, hcode⟩ := Stmt.exists_lowerAll m.statements hsound
  refine ⟨hsound, Evaluation.check_concrete (Evaluation.declare_declared scripts files) h hext,
    code, hcode, ?_⟩
  rw [evaluate_eq_lower, Evaluation.methodAt?_lower, h, Option.map_some, if_neg (by simp [hext]),
    ← Method.code_lower hcode]
  rfl

/-! ## A small program

Two methods with operations on mixed types, a call, a chain of alternatives and an early return. -/

namespace Sample

def use (name : String) : Expr := .name ⟨⟨[name]⟩, none, .unknown⟩

def number (n : Int) : Expr := .literal (.integer n) .unknown

def operation (op : BinaryOp) (left right : Expr) : Expr := .binary op left right .unknown

def call (name : String) (args : List Expr) : Expr := .call ⟨[name]⟩ args none .unknown

def assign (name : String) (value : Expr) : Expr :=
  .assign ⟨⟨[name]⟩, none, .unknown⟩ value .unknown

/-- `i32 Half(i32 n)` returns `n / 2`. -/
def half : MethodDecl :=
  ⟨.i32, ⟨["Half"]⟩, [⟨"n", .i32, .unknown⟩],
    [.ret (some (operation .div (use "n") (number 2))) .unknown], .unknown⟩

/-- `i32 Main(u8 a)` starts with `x = 7`. If `a == 1` it assigns `Half(a + 4) - x` to `x`;
otherwise, if `a != x`, it returns `x` cast to `u8`; otherwise it calls `Half(x)`. At the end it
returns `x`. -/
def main : MethodDecl :=
  ⟨.i32, ⟨["Main"]⟩, [⟨"a", .u8, .unknown⟩],
    [.declare "x" .i32 (some (number 7)) .unknown,
      .branch (operation .equal (use "a") (number 1))
        (.block [.expression (assign "x"
          (operation .sub (call "Half" [operation .add (use "a") (number 4)]) (use "x")))] .unknown)
        (.more (some (operation .notEqual (use "a") (use "x")))
          (.ret (some (.cast (use "x") .u8 .unknown)) .unknown)
          (.more none (.expression (call "Half" [use "x"])) .none .unknown) .unknown) .unknown,
      .ret (some (use "x")) .unknown], .unknown⟩

def scripts : ScriptTable := (ScriptTable.empty.add "app.ql" .source).1

/-- The script with these two methods in one namespace. -/
def files : List SourceFile := [⟨0, [.group ⟨["App"]⟩ [.method half, .method main] .unknown]⟩]

end Sample

end ScriptCompiler
