import ScriptCompiler.Proofs.Gathering
import ScriptCompiler.Proofs.SlotTypes

/-!
# Ranges of constants

The integer constants of a method's code are the integer literals of its checked statements
(`Stmt.constants_lower`). Checking brings a literal between the bounds of its type where it flows
into a slot of an integer type, and beside an operand of one; there its load is *guarded*. Other
literals are loaded as they are written. So the constants lie within the bounds of their types
exactly if the unguarded ones do.
-/

set_option autoImplicit false

namespace ScriptCompiler

open List Option

variable {p : Program}

/-- The type of an integer constant and the number that its text writes. -/
def Instruction.integerConstant? (i : Instruction) : Option (Primitive × Option Int) :=
  if i.opcode = .loadConst then
    (i.type?.filter Primitive.isConcreteInteger).map fun t => (t, i.number? 1)
  else none

/-- Whether an integer constant has a number, and one between the bounds of its type. -/
def Instruction.InRange (i : Instruction) : Prop :=
  ∀ c ∈ i.integerConstant?, ∃ n ∈ c.2, c.1.Covers n

/-! ## Loads -/

/-- An integer literal where it is loaded: with the type that it takes there, and whether checking
has brought it between the bounds of this type. -/
structure Load where
  type : Primitive
  value : Int
  guarded : Bool
  deriving DecidableEq, Repr

/-- The constant that a load becomes. -/
def Load.constant (l : Load) : Primitive × Option Int := (l.type, some l.value)

/-- The load of a literal, if it is an integer that is loaded with an integer type. -/
def Literal.load? (slot : Option Primitive) (guarded : Bool) : Literal → Option Load
  | integer n =>
    if (Primitive.forInteger slot).isConcreteInteger then some ⟨.forInteger slot, n, guarded⟩
    else none
  | _ => none

/-- The reading that notes the loads of integers. -/
def Reading.loads : Reading Load where
  literal slot guarded value := (value.load? slot guarded).toList
  call _ := []

/-- The integer literals of an expression, in the order of their loads. -/
abbrev Expr.loads (p : Program) (slot : Option Primitive) (guarded : Bool) (e : Expr) : List Load :=
  e.gather p .loads slot guarded

/-- The integer literals of a checked method, in the order of their loads. -/
abbrev Method.loads (p : Program) (m : Method) : List Load := m.gather p .loads

/-- Only an integer literal becomes a constant of an integer type. -/
theorem integerConstant?_literal (slot : Option Primitive) (guarded : Bool) (value : Literal) :
    (Instruction.loadConst (value.constant slot).1 (value.constant slot).2).integerConstant? =
      (value.load? slot guarded).map Load.constant := by
  have hload : ∀ t text, (Instruction.loadConst t text).integerConstant? =
      if t.isConcreteInteger then some (t, Integer.readSigned? text.toList) else none := by
    intro t text
    by_cases ht : t.isConcreteInteger = true
    · simp [Instruction.integerConstant?, Instruction.loadConst, Instruction.type?,
        Instruction.number?, Primitive.ofTag?_tag, ht]
    · simp [Instruction.integerConstant?, Instruction.loadConst, Instruction.type?,
        Primitive.ofTag?_tag, ht]
  have hreal : (Primitive.forReal slot).isConcreteInteger = false := by
    cases slot with
    | none => rfl
    | some t => cases t <;> rfl
  rw [hload]
  cases value with
  | integer =>
    by_cases ht : (Primitive.forInteger slot).isConcreteInteger = true
    · simp [Literal.constant, Literal.load?, Load.constant, Integer.readSigned?_repr, ht]
    · simp [Literal.constant, Literal.load?, ht]
  | real => simp [Literal.constant, Literal.load?, hreal]
  | text => rfl
  | boolean => rfl
  | null => rfl

/-- The integer constants of code are the loads of its tree. -/
theorem Reading.loads_matches (p : Program) :
    Reading.loads.Matches p Instruction.integerConstant? Load.constant where
  literal slot guarded value := by
    rw [integerConstant?_literal slot guarded]
    exact toList_map
  call _ callee _ := rfl
  other i hload _ := if_neg hload

/-! ## Guarded loads lie between the bounds -/

/-- Whether the guarded ones among some loads lie between the bounds of their types. -/
def Guarded (loads : List Load) : Prop :=
  ∀ l ∈ loads, l.guarded = true → l.type.Covers l.value

section

variable {e : Expr} {t : Primitive}

/-- Only a literal that is the whole expression is guarded from outside. -/
theorem Expr.loads_eq_of_integer? (h : e.integer? = none) (slot : Option Primitive)
    (guarded guarded' : Bool) : e.loads p slot guarded = e.loads p slot guarded' := by
  cases e with
  | literal value =>
    cases value with
    | integer => cases h
    | real => rfl
    | text => rfl
    | boolean => rfl
    | null => rfl
  | name => rfl
  | binary => rfl
  | assign => rfl
  | call => rfl
  | cast => rfl

/-- What lies between the bounds of a type is guarded where it is loaded with this type. -/
theorem Expr.WithinBounds.guarded (h : e.WithinBounds t) (he : ∀ slot, Guarded (e.loads p slot false))
    {slot : Option Primitive} (hslot : t.isConcreteInteger = true → slot = some t) :
    Guarded (e.loads p slot t.isConcreteInteger) := by
  cases hn : e.integer? with
  | none =>
    rw [loads_eq_of_integer? hn slot _ false]
    exact he slot
  | some n =>
    cases ht : t.isConcreteInteger with
    | false => exact he slot
    | true =>
      obtain ⟨_, rfl⟩ := eq_literal_of_integer? hn
      have htype : Primitive.forInteger (some t) = t := by
        revert ht
        cases t <;> decide
      intro _ hl _
      simp only [Expr.gather, Reading.loads, Literal.load?, hslot ht, htype, ht, if_true,
        toList_some, mem_singleton] at hl
      rw [hl]
      exact h n rfl ht

/-- The guarded literals of a settled expression lie between their bounds, whatever slot the
expression flows into. -/
theorem Expr.Settled.guarded (h : e.Settled p) : ∀ slot, Guarded (e.loads p slot false) := by
  induction h with
  | @literal value span =>
    intro slot l hl hguard
    -- the only load of a literal is the one from outside, and this is not guarded
    cases value with
    | integer =>
      simp only [Expr.gather, Reading.loads, Literal.load?] at hl
      split at hl
      · rw [mem_singleton.1 hl] at hguard
        cases hguard
      · cases hl
    | real => cases hl
    | text => cases hl
    | boolean => cases hl
    | null => cases hl
  | name =>
    intro slot l hl
    cases hl
  | @binary op left right span l r common hl hr hcommon _ hleft hright _ _ ihl ihr =>
    intro slot
    have htype : Expr.operandType p left right = common := by
      simp only [Expr.operandType, hl, hr, hcommon, getD_some]
    have hslot : common.isConcreteInteger = true → some (common.settle slot) = some common := by
      intro hinteger
      simp only [Primitive.isConcreteInteger, Bool.and_eq_true, Bool.not_eq_true'] at hinteger
      rw [Primitive.settle_of_concrete hinteger.2]
    simp only [Expr.gather, htype]
    exact forall_mem_append.2 ⟨hright.guarded ihr hslot, hleft.guarded ihl hslot⟩
  | assign hslot hfits _ ihv =>
    intro slot
    simp only [Expr.gather, NameUse.slotType, hslot, map_some, getD_some]
    exact hfits.bounds.guarded ihv fun _ => rfl
  | @call target args method span callee hcallee _ hfits _ ihargs =>
    intro slot
    have htypes : p.slotsOf method = callee.parameterTypes := by
      simp only [Program.slotsOf, hcallee, map_some, getD_some]
    simp only [Expr.gather, htypes, Reading.loads, append_nil, gatherArguments_eq]
    intro l hl
    obtain ⟨⟨a, t⟩, hx, hl⟩ := mem_flatMap.1 hl
    exact (hfits (a, t) hx).bounds.guarded (ihargs a (of_mem_zip hx).1) (fun _ => rfl) l hl
  | cast _ iho => exact fun slot => iho _

theorem Expr.Settled.guarded_condition (h : e.Settled p) : Guarded (e.gatherCondition p .loads) := by
  unfold Expr.gatherCondition
  split
  · exact h.guarded _
  · rename_i kind left n hcmp
    split
    · -- only the left operand is loaded, and it is settled itself
      obtain ⟨-, span, span', rfl⟩ := eq_of_comparison? hcmp
      cases h with
      | binary _ _ _ _ _ _ hleft => exact hleft.guarded _
    · exact h.guarded _

end

/-- Guarded literals between their bounds in all places of a statement. -/
def Demands.guarded (p : Program) (returnType : Primitive) : Demands where
  effect e := Guarded (e.loads p none false)
  condition e := Guarded (e.gatherCondition p .loads)
  result v := ∀ e ∈ v, Guarded (e.loads p (some returnType) returnType.isConcreteInteger)

theorem Demands.settled_implies_guarded (p : Program) (m : Method) :
    (Demands.settled p m).Implies (.guarded p m.returnType) where
  effect _ h := h.guarded none
  condition _ h := h.1.guarded_condition
  result _ h e he := (h.2 e he).2.bounds.guarded (h.2 e he).1.guarded fun _ => rfl

variable {returnType : Primitive}

theorem Part.guarded_gather {x : Part} (h : (Demands.guarded p returnType).Holds x) :
    Guarded (x.gather p .loads returnType) := by
  cases x with
  | effect => exact h
  | condition => exact h
  | result v => cases v <;> simp_all [Demands.Holds, Demands.guarded, Part.gather, Guarded]
  | alternative c => cases c <;> simp_all [Demands.Holds, Demands.guarded, Part.gather, Guarded]
  | declaration => exact h.elim
  | mark => exact forall_mem_nil _

theorem Stmt.guarded_gatherAll (body : List Stmt) (h : Stmt.AllMeet (.guarded p returnType) body) :
    Guarded (Stmt.gatherAll p .loads returnType body) := by
  rw [allMeet_iff_parts] at h
  rw [gatherAll_eq]
  intro l hl
  obtain ⟨x, hx, hl⟩ := mem_flatMap.1 hl
  split at hl
  · exact Part.guarded_gather (h x hx ‹_›) l hl
  · cases hl

/-! ## Methods -/

theorem Evaluation.guarded_check {s : Evaluation} {id : MethodId} {m : Method}
    (h : s.resolve.check.program.methodAt? id = some m) (hext : m.external = false) :
    Guarded (m.loads s.resolve.check.program) := by
  obtain ⟨m₁, h₁, he₁, rfl⟩ := exists_check_eq h hext
  have hbound := resolve_bound h₁ he₁
  have hmeets := Stmt.AllMeet.mono (Demands.settled_implies_guarded s.resolve.program m₁) _
    (Method.check_meets ((Demands.checks_settled s.resolve.program m₁).of_trivial _) hbound)
  rw [Method.loads, Method.gather, Stmt.gatherAll_congr s.resolve.outline_check]
  exact Stmt.guarded_gatherAll _ hmeets

theorem forall_inRange_iff {code : Code} {loads : List Load}
    (h : code.filterMap Instruction.integerConstant? = loads.map Load.constant) :
    (∀ i ∈ code, i.InRange) ↔ ∀ l ∈ loads, l.type.Covers l.value := by
  have hcode : (∀ i ∈ code, i.InRange) ↔
      ∀ c ∈ code.filterMap Instruction.integerConstant?, ∃ n ∈ c.2, c.1.Covers n := by
    simp only [Instruction.InRange, mem_filterMap, mem_def]
    constructor
    · rintro hall c ⟨i, hi, hc⟩
      exact hall i hi c hc
    · intro hall i hi c hc
      exact hall c ⟨i, hi, hc⟩
  rw [hcode, h]
  simp [Load.constant]

/-- The integer constants of a method's code lie within the bounds of their types exactly if those
literals do that checking does not guard. -/
theorem evaluate_constants_in_range_iff (scripts : ScriptTable) (files : List SourceFile)
    {id : MethodId} {m : Method} (h : (evaluate scripts files).program.methodAt? id = some m)
    (hext : m.external = false) :
    ∃ source, (checked scripts files).program.methodAt? id = some source ∧
      ((∀ i ∈ m.code, i.InRange) ↔
        ∀ l ∈ source.loads (checked scripts files).program, l.guarded = false →
          l.type.Covers l.value) := by
  rw [evaluate_eq_lower, Evaluation.methodAt?_lower] at h
  obtain ⟨source, hsource, hse, rfl⟩ := Method.exists_of_map_bodies h hext
  obtain ⟨-, -, code, hcode, -⟩ := exists_code_of_checked hsource hse
  have hguarded := Evaluation.guarded_check hsource hse
  have hconstants := Stmt.gather_lowerAll (Reading.loads_matches _) source.statements code hcode
  refine ⟨source, hsource, ?_⟩
  rw [Method.code_lower hcode, forall_inRange_iff hconstants]
  constructor
  · intro hall l hl _
    exact hall l hl
  · intro hall l hl
    cases hl' : l.guarded with
    | true => exact hguarded l hl hl'
    | false => exact hall l hl hl'

namespace Sample

/-- `u8 Main()` returns `300` cast to `u8`. -/
def casting : MethodDecl :=
  ⟨.u8, ⟨["Main"]⟩, [], [.ret (some (.cast (number 300) .u8 .unknown)) .unknown], .unknown⟩

def castingFiles : List SourceFile := [⟨0, [.group ⟨["App"]⟩ [.method casting] .unknown]⟩]

end Sample

/-- Evaluation accepts a method that casts `300` to `u8` and loads `300` as a `u8`. -/
theorem casting_constant_out_of_range :
    (evaluate Sample.scripts Sample.castingFiles).scripts.hasErrors = false ∧
      ∃ m, (evaluate Sample.scripts Sample.castingFiles).program.methodAt? 0 = some m ∧
        m.external = false ∧ m.code = [.loadConst .u8 "300", .ret] ∧
        ¬ ∀ i ∈ m.code, i.InRange := by
  have hmethod : ((evaluate Sample.scripts Sample.castingFiles).program.methodAt? 0).map
      (fun m => (m.external, m.code)) = some (false, [.loadConst .u8 "300", .ret]) := by
    decide +kernel
  have hloads : ((checked Sample.scripts Sample.castingFiles).program.methodAt? 0).map
      (Method.loads (checked Sample.scripts Sample.castingFiles).program) =
        some [⟨.u8, 300, false⟩] := by
    decide +kernel
  obtain ⟨m, hm, hshape⟩ := Option.map_eq_some_iff.1 hmethod
  have hext : m.external = false := congrArg Prod.fst hshape
  obtain ⟨_, hsource, hiff⟩ :=
    evaluate_constants_in_range_iff Sample.scripts Sample.castingFiles hm hext
  rw [hsource, Option.map_some, Option.some.injEq] at hloads
  refine ⟨by decide +kernel, m, hm, hext, congrArg Prod.snd hshape, ?_⟩
  rw [hiff, hloads]
  decide

end ScriptCompiler
