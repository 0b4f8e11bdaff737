import ScriptCompiler.Proofs.EmittedCode
import ScriptCompiler.Proofs.Gathering

/-!
# Operands that can be read

The operands of stack code travel as text. After evaluation every one of them can be read: tags are
those of types, indices those of slots, the text of a constant is one of its type, and a reference
leads to the method that the call was bound to. Numbers are read back with 128 bits, which is enough
if the literals of the files have no more.
-/

set_option autoImplicit false

namespace ScriptCompiler

open List Option

/-! ## Names -/

/-- Whether a name has segments, none empty and none with a mark that references use. -/
def DottedName.Clean (n : DottedName) : Prop :=
  n.segments ≠ [] ∧ ∀ s ∈ n.segments, s ≠ "" ∧ ∀ c ∈ ['.', ':', '?'], c ∉ s.toList

instance (n : DottedName) : Decidable n.Clean :=
  letI (s : String) : Decidable (∀ c ∈ ['.', ':', '?'], c ∉ s.toList) := List.decidableBAll _ _
  inferInstanceAs (Decidable (_ ∧ _))

/-- Whether the path of a namespace that a script names is clean. -/
def NamespaceName.Clean : NamespaceName → Prop
  | explicit path => path.Clean
  | implicit _ => True

instance : (n : NamespaceName) → Decidable n.Clean
  | .explicit path => inferInstanceAs (Decidable path.Clean)
  | .implicit _ => inferInstanceAs (Decidable True)

/-- Whether the namespaces and methods of a program have clean names. -/
def Program.CleanNames (p : Program) : Prop :=
  (∀ ns ∈ p.namespaces, ns.name.Clean) ∧ ∀ m ∈ p.methods, m.name.Clean

instance (p : Program) : Decidable p.CleanNames := inferInstanceAs (Decidable (_ ∧ _))

theorem NamespaceName.Clean.segments {n : NamespaceName} (h : n.Clean) :
    DottedName.Clean ⟨n.segments⟩ := by
  cases n with
  | explicit => exact h
  | implicit tag =>
    refine ⟨by simp [NamespaceName.segments], ?_⟩
    intro _ hs
    obtain rfl := mem_singleton.1 hs
    have hlist : ("__implicit" ++ toString tag).toList =
        "__implicit".toList ++ Nat.toDigits 10 tag := by
      rw [String.toList_append]
      exact congrArg _ Nat.toList_repr
    refine ⟨?_, ?_⟩
    · intro hempty
      have hnil := congrArg String.toList hempty
      rw [hlist] at hnil
      simp at hnil
    · intro c hc hmem
      rw [hlist, mem_append] at hmem
      have hmark : c = '.' ∨ c = ':' ∨ c = '?' := by simpa using hc
      rcases hmem with hmem | hmem
      · rcases hmark with rfl | rfl | rfl <;> exact absurd hmem (by decide)
      · have hdigit := Integer.isDigit_of_mem_toDigits hmem
        rcases hmark with rfl | rfl | rfl <;> cases hdigit

variable {m : Method} {p : Program} {sized strict : Prop} {d : SignatureHash.Digest}
  {i : Instruction}

theorem Program.Registered.readable (hp : p.Registered d) (hclean : p.CleanNames) {id : MethodId}
    (h : p.methodAt? id = some m) : (p.referenceOf m).Readable := by
  have hclear : ∀ {n : DottedName}, n.Clean → n.segments ≠ [""] := by
    rintro n ⟨-, hall⟩ hblank
    exact (hall "" (by rw [hblank]; simp)).1 rfl
  obtain ⟨ns, hns, -⟩ := hp.listed id m h
  have hpath := pathOf_eq hns
  have hspace := (hclean.1 ns (mem_of_getElem? hns)).segments
  have hname := hclean.2 m (mem_of_getElem? h)
  refine ⟨?_, ⟨hname.1, hclear hname⟩, ?_, ?_⟩
  · rw [referenceOf, hpath]
    exact ⟨hspace.1, hclear hspace⟩
  · rw [referenceOf, hpath]
    intro s hs
    have hmarks := (hspace.2 s hs).2
    exact ⟨hmarks '.' (by simp), hmarks ':' (by simp)⟩
  · intro s hs
    have hmarks := (hname.2 s hs).2
    exact ⟨hmarks '.' (by simp), hmarks '?' (by simp)⟩

/-! ## What it is to be read -/

/-- Whether a text is read as a number; if `sized` holds, as one of 128 bits. -/
def ReadsNumber (sized : Prop) (text : String) : Prop :=
  ∃ n, Integer.readSigned? text.toList = some n ∧ (sized → Integer.read? 128 text = some n)

/-- Whether a text is read as a constant of a type. -/
def Primitive.ReadsConstant (sized : Prop) (text : String) : Primitive → Prop
  | .f32 | .f64 => (Double.read? text).isSome = true
  | .bool => text = "true" ∨ text = "false"
  | .str => True
  | .void | .number | .floating => False
  | _ => ReadsNumber sized text

/-- Whether the operands of an instruction can be read, indices lead to slots of the method, and a
reference leads to a method that returns what the instruction says. -/
def Instruction.Decodes (p : Program) (m : Method) (sized : Prop) (i : Instruction) : Prop :=
  match i.opcode with
  | .loadConst => ∃ t text, i.constant = .ok (t, text) ∧ t.ReadsConstant sized text
  | .getLocal | .setLocal =>
    ∃ n, i.number? 0 = some n ∧ (m.localType? n).isSome = true ∧
      (Integer.fits 32 n = true → i.localIndex = .ok n)
  | .add | .sub | .mul | .div | .rem | .equals | .unequals | .convert => ∃ t, i.operandType = .ok t
  | .call => ∃ r id callee, i.callTarget = .ok (callee.returnType, r) ∧
      p.findMethod? r = some id ∧ p.methodAt? id = some callee
  | .branch => ∃ c n, i.command? = some (.branch c n) ∧ (sized → i.condition = .ok (c, n))
  | .jump => False
  | .nop | .otherwise | .endBranch | .ret | .pop => True

theorem readsNumber_repr {n : Int} (h : sized → Integer.fits 128 n = true) :
    ReadsNumber sized n.repr := by
  refine ⟨n, Integer.readSigned?_repr n, ?_⟩
  intro hsized
  simp only [Integer.read?, Integer.readSigned?_repr, bind_some, Integer.within?, h hsized, if_true]

theorem Literal.readsConstant {value : Literal} (slot : Option Primitive)
    (h : sized → value.fits = true) :
    (value.constant slot).1.ReadsConstant sized (value.constant slot).2 := by
  cases value with
  | integer n =>
    have hnumber : ReadsNumber sized n.repr := readsNumber_repr h
    have hreal := Double.isSome_read?_repr n
    show (Primitive.forInteger slot).ReadsConstant sized n.repr
    cases slot with
    | none => exact hnumber
    | some t => cases t <;> first | exact hnumber | exact hreal
  | real x =>
    have hreal := Double.isSome_read?_text x
    show (Primitive.forReal slot).ReadsConstant sized (x.text .plain)
    cases slot with
    | none => exact hreal
    | some t => cases t <;> exact hreal
  | text => trivial
  | boolean b =>
    cases b with
    | true => exact .inl rfl
    | false => exact .inr rfl
  | null =>
    have hzero : "0" = (0 : Int).repr := by decide
    show ReadsNumber sized "0"
    rw [hzero]
    exact readsNumber_repr fun _ => by decide

/-! ## What lowering makes -/

/-- An emitted instruction can be read back. -/
theorem Emitted.decodes (hp : p.Registered d) (hclean : p.CleanNames)
    (h : Emitted p m sized strict i) : i.Decodes p m sized := by
  have htag : ∀ (opcode : Opcode) (t : Primitive) (more : List String),
      (⟨opcode, t.tag :: more⟩ : Instruction).operandType = .ok t := by
    intro opcode t more
    simp [Instruction.operandType, Instruction.operand, Instruction.expect, Primitive.ofTag?_tag]
  have hindex : ∀ (opcode : Opcode) {slot : Slot}, slot.Given m.localType? →
      ∃ n, (⟨opcode, [toString slot.index]⟩ : Instruction).number? 0 = some n ∧
        (m.localType? n).isSome = true ∧
        (Integer.fits 32 n = true →
          (⟨opcode, [toString slot.index]⟩ : Instruction).localIndex = .ok n) := by
    intro opcode slot hgiven
    refine ⟨slot.index, ?_, ?_, ?_⟩
    · simp [Instruction.number?, Integer.readSigned?_repr]
    · rw [hgiven]
      rfl
    · intro hfits
      simp [Instruction.localIndex, Instruction.operand, Instruction.expect, Integer.read?,
        Integer.readSigned?_repr, Integer.within?, hfits]
  cases h with
  | @constant value slot hfits =>
    refine ⟨_, _, ?_, Literal.readsConstant slot hfits⟩
    simp [Instruction.constant, Instruction.loadConst, htag, Instruction.operand]
  | get hgiven => exact hindex .getLocal hgiven
  | set hgiven => exact hindex .setLocal hgiven
  | operate op t => cases op <;> exact ⟨t, htag _ t []⟩
  | convert t => exact ⟨t, htag _ t []⟩
  | @call id callee hcallee =>
    refine ⟨p.referenceOf callee, id, callee, ?_, hp.findMethod?_referenceOf hcallee, hcallee⟩
    have hread := Reference.parse?_text (hp.readable hclean hcallee)
    simp [Instruction.callTarget, Instruction.call, htag, Instruction.operand, Instruction.expect,
      hread]
  | truth => exact ⟨.true, none, rfl, fun _ => rfl⟩
  | @compare kind n hfits =>
    refine ⟨kind, some n, Instruction.command?_branch_some kind n, ?_⟩
    intro hsized
    simp [Instruction.condition, Instruction.branch, Instruction.operand, Instruction.expect,
      Condition.ofName?_name, Integer.read?, Integer.readSigned?_repr, Integer.within?,
      hfits hsized]
  | otherwise => trivial
  | endBranch => trivial
  | ret => trivial
  | pop => trivial

/-- What is emitted depends on the outline of the program and on the slots of the method. -/
theorem Emitted.congr {q : Program} {n : Method} (h : Emitted p m sized strict i)
    (hp : p.outline = q.outline) (hslots : m.localType? = n.localType?) :
    Emitted q n sized strict i := by
  cases h with
  | constant slot hfits => exact .constant slot hfits
  | get hgiven => exact .get (hslots ▸ hgiven)
  | set hgiven => exact .set (hslots ▸ hgiven)
  | operate op t => exact .operate op t
  | convert t ht => exact .convert t ht
  | @call id callee hcallee =>
    obtain ⟨callee', hcallee', hsame⟩ :=
      @Program.exists_callee_of_outline_eq p q hp (some id) callee hcallee
    have hret := congrArg Method.returnType hsame
    simp only [Method.outline_returnType] at hret
    have href : p.referenceOf callee = q.referenceOf callee' := by
      rw [← Program.referenceOf_outline p, ← Program.referenceOf_outline q, hp, hsame]
    rw [href, ← hret]
    exact .call hcallee'
  | truth => exact .truth
  | compare hfits => exact .compare hfits
  | otherwise => exact .otherwise
  | endBranch => exact .endBranch
  | ret => exact .ret
  | pop => exact .pop

/-! ## Calls -/

/-- The reading that notes the methods that calls are bound to. -/
def Reading.calls : Reading MethodId where
  literal _ _ _ := []
  call := Option.toList

/-- The methods that the calls of a body are bound to, in the order in which they are made. -/
abbrev Method.calls (p : Program) (m : Method) : List MethodId := m.gather p .calls

/-- The method that a call instruction leads to. -/
def Program.called? (p : Program) (i : Instruction) : Option MethodId :=
  if i.opcode = .call then i.callTarget.toOption.bind fun target => p.findMethod? target.2
  else none

section

variable {p q : Program} {e e' : Expr}

/-- The code of a program's calls leads where they are bound to, also in a program with the same
outline. -/
theorem Reading.calls_matches (hq : q.Registered d) (hclean : q.CleanNames)
    (hp : p.outline = q.outline) : Reading.calls.Matches p q.called? id where
  literal slot guarded value := rfl
  call method callee hcallee := by
    obtain ⟨k, rfl, _⟩ := bind_eq_some_iff.1 hcallee
    obtain ⟨callee', hcallee', hsame⟩ := Program.exists_callee_of_outline_eq hp hcallee
    have href : p.referenceOf callee = q.referenceOf callee' := by
      rw [← Program.referenceOf_outline p, ← Program.referenceOf_outline q, hp, hsame]
    have hread := Reference.parse?_text (hq.readable hclean hcallee')
    have hfound := hq.findMethod?_referenceOf hcallee'
    have htarget : (Instruction.call callee.returnType (p.referenceOf callee)).callTarget =
        .ok (callee.returnType, q.referenceOf callee') := by
      rw [href]
      simp [Instruction.callTarget, Instruction.call, Instruction.operandType, Instruction.operand,
        Instruction.expect, Primitive.ofTag?_tag, hread]
    have hcalled : q.called? (.call callee.returnType (p.referenceOf callee)) = some k := by
      have hopcode : (Instruction.call callee.returnType (p.referenceOf callee)).opcode = .call := rfl
      rw [Program.called?, if_pos hopcode, htarget]
      exact hfound
    rw [hcalled]
    rfl
  other i _ hcall := if_neg hcall

theorem Expr.gather_calls_slot (e : Expr) : ∀ slot guarded slot' guarded',
    e.gather p .calls slot guarded = e.gather p .calls slot' guarded' := by
  induction e with
  | literal => intros; rfl
  | name => intros; rfl
  | binary _ _ _ _ hl hr =>
    intro slot guarded slot' guarded'
    simp only [Expr.gather]
    congr 1
    · exact hr _ _ _ _
    · exact hl _ _ _ _
  | assign => intros; rfl
  | call => intros; rfl
  | cast => intros; rfl

theorem Expr.gather_calls_coerce {t : Primitive} (h : (e.coerce p t).outcome = .ok e')
    (slot : Option Primitive) (guarded : Bool) :
    e'.gather p .calls slot guarded = e.gather p .calls slot guarded := by
  rcases coerce_cases h with ⟨rfl, -⟩ | ⟨_, _, rfl, -, rfl⟩ | ⟨rfl, -⟩
  · rfl
  · rfl
  · exact gather_calls_slot e _ _ _ _

theorem Expr.gather_calls_fitOperand {common : Primitive}
    (h : (e.fitOperand common).outcome = .ok e') (slot : Option Primitive) (guarded : Bool) :
    e'.gather p .calls slot guarded = e.gather p .calls slot guarded := by
  rcases fitOperand_cases h with ⟨rfl, -⟩ | ⟨_, _, rfl, -, rfl⟩
  · rfl
  · rfl

theorem Expr.gather_calls_checkArguments {args args' : List Expr}
    (hargs : ∀ a ∈ args, ∀ a', (a.check p).outcome = .ok a' → ∀ slot guarded,
      a'.gather p .calls slot guarded = a.gather p .calls slot guarded) {types : Types}
    (h : (Expr.checkArguments p args types).outcome = .ok args') :
    Expr.gatherArguments p .calls args' types =
      Expr.gatherArguments p .calls args types := by
  induction args generalizing types args' with
  | nil =>
    cases h
    rfl
  | cons a _ ih =>
    cases types with
    | nil =>
      cases h
      rfl
    | cons t =>
      obtain ⟨a₁, _, _, ha₁, ha₂, hrest', rfl⟩ := checkArguments_cons_ok h
      have hhead := (gather_calls_coerce ha₂ (some t) t.isConcreteInteger).trans
        (hargs a (by simp) a₁ ha₁ _ _)
      have htail := ih (fun b hb => hargs b (mem_cons_of_mem _ hb)) hrest'
      simp only [Expr.gatherArguments, hhead, htail]

/-- Checking keeps the calls of an expression and what they are bound to. -/
theorem Expr.gather_calls_check (e : Expr) : ∀ e', (e.check p).outcome = .ok e' →
    ∀ slot guarded, e'.gather p .calls slot guarded = e.gather p .calls slot guarded := by
  refine check_induction (P := fun e e' => ∀ slot guarded,
    e'.gather p .calls slot guarded = e.gather p .calls slot guarded) (fun _ _ _ _ => rfl)
    (fun _ _ _ => rfl) ?_ ?_ ?_ (fun _ _ _ _ ho _ _ => ho _ _) e
  · intro _ left right span _ _ _ _ _ _ _ hl hr _ _ _ hl₂ hr₂ _ slot guarded
    simp only [Expr.gather]
    congr 1
    · rw [gather_calls_fitOperand hr₂, hr]
      exact gather_calls_slot right _ _ _ _
    · rw [gather_calls_fitOperand hl₂, hl]
      exact gather_calls_slot left _ _ _ _
  · intro target _ span _ _ _ hv _ hv₂ slot guarded
    simp only [Expr.gather, gather_calls_coerce hv₂, hv]
  · intro target _ method span callee _ hargs hc ha slot guarded
    have htypes : p.slotsOf method = callee.parameterTypes := by
      simp only [Program.slotsOf, hc, map_some, getD_some]
    simp only [Expr.gather, htypes, gather_calls_checkArguments hargs ha]

/-- A condition makes the calls of its expression, whatever the branch compares itself. -/
theorem Expr.gatherCondition_calls (e : Expr) :
    e.gatherCondition p .calls = e.gather p .calls none false := by
  unfold Expr.gatherCondition
  split
  · exact gather_calls_slot e _ _ _ _
  · rename_i kind left n hcmp
    split
    · obtain ⟨-, span, span', rfl⟩ := eq_of_comparison? hcmp
      simp only [Expr.gather]
      exact gather_calls_slot left _ _ _ _
    · exact gather_calls_slot e _ _ _ _

theorem Expr.gather_calls_checkCondition (h : (e.checkCondition p).outcome = .ok e') :
    e'.gatherCondition p .calls = e.gatherCondition p .calls := by
  rw [gatherCondition_calls, gatherCondition_calls]
  exact gather_calls_check e e' (checkCondition_ok h).1 _ _

end

theorem Part.Checked.gather_calls {x y : Part} {returnType : Primitive} (h : Part.Checked p m x y) :
    x.gather p .calls returnType = y.gather p .calls returnType := by
  cases h with
  | effect h => exact (Expr.gather_calls_check _ _ h _ _).symm
  | result h =>
    rcases Method.checkReturn_ok h with ⟨rfl, rfl, -⟩ | ⟨e, e₁, _, rfl, rfl, -, h₁, h₂⟩
    · rfl
    · exact ((Expr.gather_calls_coerce h₂ _ _).trans (Expr.gather_calls_check e e₁ h₁ _ _)).symm
  | condition h | alternative h => exact (Expr.gather_calls_checkCondition h).symm
  | otherwise => rfl
  | mark => rfl

/-- Checking a method may leave out statements with their calls. -/
theorem Method.calls_check (p : Program) (m : Method) :
    List.Sublist ((m.check p).1.calls p) (m.calls p) := by
  unfold Method.calls Method.gather
  rw [Stmt.gatherAll_eq, Stmt.gatherAll_eq]
  refine (m.check_rewrites p).flatMap_sublist fun _ _ hflag hxy => ?_
  rw [hflag, hxy.gather_calls]

/-! ## Evaluated programs -/

/-- The body of a method reaches lowering with literals that fit if those of the files do. -/
theorem plain_checked {scripts : ScriptTable} {files : List SourceFile} {id : MethodId}
    (h : (checked scripts files).program.methodAt? id = some m) (hext : m.external = false)
    (hsound : Stmt.AllMeet (.sound (checked scripts files).program m) m.statements) :
    Stmt.AllMeet (.all (Expr.Plain (LiteralsFit files) False)) m.statements := by
  by_cases hfit : LiteralsFit files
  · have hall := Evaluation.check_fits (fun _ => Evaluation.declare_fits hfit) h hext
    exact Stmt.AllMeet.mono (Demands.implies_all fun e he => ⟨fun _ => he, False.elim⟩) _ hall
  · -- nothing is asked of the literals, but that no declaration is left is kept
    exact Stmt.AllMeet.mono
      (Demands.implies_all_of_forall fun e => ⟨fun h => absurd h hfit, False.elim⟩) _ hsound

/-- The code of an evaluated method can be read, and its calls lead to the methods that resolution
has bound them to: those of the statements that checking leaves, in their order. -/
theorem evaluate_operands_resolve (scripts : ScriptTable) (files : List SourceFile)
    (hclean : (evaluate scripts files).program.CleanNames) {id : MethodId} {m : Method}
    (h : (evaluate scripts files).program.methodAt? id = some m) (hext : m.external = false) :
    (∀ i ∈ m.code, i.Decodes (evaluate scripts files).program m (LiteralsFit files)) ∧
      ∃ source body, (checked scripts files).program.methodAt? id = some source ∧
        (resolved scripts files).program.methodAt? id = some body ∧
        m.code.filterMap (evaluate scripts files).program.called? =
          source.calls (checked scripts files).program ∧
        List.Sublist (source.calls (checked scripts files).program)
          (body.calls (resolved scripts files).program) := by
  have hreg := (evaluate_reached scripts files).registered
  have hout : (checked scripts files).program.outline =
      (evaluate scripts files).program.outline := (Evaluation.outline_lower _).symm
  rw [evaluate_eq_lower, Evaluation.methodAt?_lower] at h
  obtain ⟨source, hsource, hse, rfl⟩ := Method.exists_of_map_bodies h hext
  obtain ⟨hsound, hconc, code, hcode, -⟩ := exists_code_of_checked hsource hse
  have hplain := plain_checked hsource hse hsound
  have hemitted := Stmt.lowerAll_closed (emitted_closed hconc) source.statements code
    (Stmt.AllMeet.both _ hsound hplain) hcode
  have hmatches := Reading.calls_matches hreg hclean hout
  have hcalls := Stmt.gather_lowerAll hmatches source.statements code hcode
  obtain ⟨body, hbody, -, hchecked⟩ := Evaluation.exists_check_eq hsource hse
  refine ⟨?_, source, body, hsource, hbody, ?_, ?_⟩
  · have hslots : source.localType? =
        (source.lower (checked scripts files).program).1.localType? := rfl
    rw [Method.code_lower hcode]
    intro i hi
    exact ((hemitted i hi).congr hout hslots).decodes hreg hclean
  · rw [Method.code_lower hcode, hcalls, List.map_id]
    rfl
  · have hsame : source.calls (checked scripts files).program =
        source.calls (resolved scripts files).program :=
      Stmt.gatherAll_congr (Evaluation.outline_check _) _ _
    rw [hsame, hchecked]
    exact Method.calls_check _ body

/-- The second method of the small program calls the first one twice. -/
theorem sample_operands_resolve :
    (evaluate Sample.scripts Sample.files).program.CleanNames ∧ LiteralsFit Sample.files ∧
      ∃ m, (evaluate Sample.scripts Sample.files).program.methodAt? 1 = some m ∧
        m.external = false ∧
        (∀ i ∈ m.code, i.Decodes (evaluate Sample.scripts Sample.files).program m
          (LiteralsFit Sample.files)) ∧
        m.code.filterMap (evaluate Sample.scripts Sample.files).program.called? = [0, 0] := by
  have hclean : (evaluate Sample.scripts Sample.files).program.CleanNames := by decide +kernel
  have hfit : LiteralsFit Sample.files := by decide +kernel
  have hmethod : ((evaluate Sample.scripts Sample.files).program.methodAt? 1).map
      (·.external) = some false := by
    decide +kernel
  have hbound : ((checked Sample.scripts Sample.files).program.methodAt? 1).map
      (Method.calls (checked Sample.scripts Sample.files).program) = some [0, 0] := by
    decide +kernel
  obtain ⟨m, hm, hext⟩ := Option.map_eq_some_iff.1 hmethod
  obtain ⟨hdecodes, _, _, hsource, -, hcalls, -⟩ :=
    evaluate_operands_resolve Sample.scripts Sample.files hclean hm hext
  rw [hsource, Option.map_some, Option.some.injEq] at hbound
  exact ⟨hclean, hfit, m, hm, hext, hdecodes, hcalls.trans hbound⟩

end ScriptCompiler
