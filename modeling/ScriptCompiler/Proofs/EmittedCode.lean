import ScriptCompiler.Proofs.Literals
import ScriptCompiler.Proofs.Lowering

/-!
# Instructions that lowering makes

`Emitted` lists the instructions in the code of a checked body, with what is known of
their operands. A fact about all instructions of such code is then one case for each
kind of instruction.
-/

set_option autoImplicit false

namespace ScriptCompiler

open List

/-- The instructions that lowering makes in a program for a method. Literals fit if `sized` holds,
and nothing is converted to `void` if `strict` holds. -/
inductive Emitted (p : Program) (m : Method) (sized strict : Prop) : Instruction → Prop where
  | constant {value : Literal} (slot : Option Primitive) : (sized → value.fits = true) →
      Emitted p m sized strict (.loadConst (value.constant slot).1 (value.constant slot).2)
  | get {slot : Slot} : slot.Given m.localType? → Emitted p m sized strict (.getLocal slot.index)
  | set {slot : Slot} : slot.Given m.localType? → Emitted p m sized strict (.setLocal slot.index)
  | operate (op : BinaryOp) (t : Primitive) : Emitted p m sized strict (.binary op.opcode t)
  | convert (t : Primitive) : (strict → t ≠ .void) → Emitted p m sized strict (.convert t)
  | call {id : MethodId} {callee : Method} : p.methodAt? id = some callee →
      Emitted p m sized strict (.call callee.returnType (p.referenceOf callee))
  | truth : Emitted p m sized strict (.branch .true none)
  | compare {kind : Condition} {n : Int} : (sized → Integer.fits 128 n = true) →
      Emitted p m sized strict (.branch kind (some n))
  | otherwise : Emitted p m sized strict .otherwise
  | endBranch : Emitted p m sized strict .endBranch
  | ret : Emitted p m sized strict .ret
  | pop : Emitted p m sized strict .pop

/-- Expressions whose literals fit if `sized` holds, without casts to `void` if `strict` holds. -/
structure Expr.Plain (sized strict : Prop) (e : Expr) : Prop where
  fits : sized → e.fits = true
  voidFree : strict → e.voidFree = true

variable {p : Program} {m : Method} {sized strict : Prop} {e : Expr} {code : Code}

theorem Primitive.eq_void_of_common? {l r : Primitive} (h : l.common? r = some .void) :
    l = .void ∧ r = .void := by
  by_cases hsame : l = r
  · subst hsame
    simp only [Primitive.common?, if_true, Option.some.injEq] at h
    exact ⟨h, h⟩
  · rcases common?_cases h with rfl | rfl | hne | hne
    iterate 2
      simp [Primitive.common?, hsame, Primitive.isNumeric, Primitive.isInteger,
        Primitive.isFloating, Primitive.kind] at h
    · cases hne
    · cases hne

theorem Expr.pushed_eq_void_of_type {slot : Option Primitive} {pushed : Primitive}
    (ht : e.typeIn p = .ok .void) (h : e.lower p slot = .ok (code, pushed)) : pushed = .void := by
  cases hp : e.pushes p with
  | false => exact pushed_eq_void hp h
  | true => exact pushed_eq_of_concrete hp ht rfl h

theorem Expr.emitted_lowerTo {target : Primitive}
    (he : ∀ slot c t, e.lower p slot = .ok (c, t) → ∀ i ∈ c, Emitted p m sized strict i)
    (ht : strict → target ≠ .void ∨ e.typeIn p = .ok .void) (h : e.lowerTo p target = .ok code) :
    ∀ i ∈ code, Emitted p m sized strict i := by
  obtain ⟨c, t, hc, rfl⟩ := lowerTo_ok h
  refine forall_mem_append.2 ⟨he _ c t hc, ?_⟩
  unfold convertTo
  split
  · intro i hi
    cases hi
  · rename_i hne
    refine forall_mem_singleton.2 (.convert target fun hstrict => ?_)
    rcases ht hstrict with htarget | htype
    · exact htarget
    · rintro rfl
      exact hne (pushed_eq_void_of_type htype hc)

/-- A sound expression has instructions of known forms. -/
theorem Expr.Sound.emitted (hc : Concrete p m.localType?) (hs : e.Sound p m.localType?) :
    e.Plain sized strict → ∀ slot code pushed, e.lower p slot = .ok (code, pushed) →
      ∀ i ∈ code, Emitted p m sized strict i := by
  induction hs with
  | literal =>
    intro hplain slot code pushed h
    cases h
    exact forall_mem_singleton.2 (.constant slot hplain.fits)
  | @name use s hu hg =>
    intro _ slot code pushed h
    simp only [Expr.lower, NameUse.found, hu] at h
    cases h
    exact forall_mem_singleton.2 (.get hg)
  | @binary op left right span _ _ _ ihl ihr =>
    rintro ⟨hfits, hvoid⟩ slot code pushed h
    obtain ⟨_, _, common, _, _, hl, hr, hcommon, hright, hleft, rfl, -⟩ :=
      lower_binary_ok h
    simp only [Expr.fits, Expr.voidFree, Bool.and_eq_true] at hfits hvoid
    -- the operands are converted unless both are calls that return nothing
    have htypes : common.settle slot ≠ .void ∨
        (left.typeIn p = .ok .void ∧ right.typeIn p = .ok .void) := by
      by_cases hcommonVoid : common = .void
      · subst hcommonVoid
        obtain ⟨rfl, rfl⟩ := Primitive.eq_void_of_common? hcommon
        exact .inr ⟨hl, hr⟩
      · exact .inl (Primitive.settle_ne_void hcommonVoid slot)
    have h₁ := emitted_lowerTo (ihr ⟨fun h => (hfits h).2, fun h => (hvoid h).2⟩)
      (fun _ => htypes.imp_right And.right) hright
    have h₂ := emitted_lowerTo (ihl ⟨fun h => (hfits h).1, fun h => (hvoid h).1⟩)
      (fun _ => htypes.imp_right And.left) hleft
    exact forall_mem_append.2 ⟨forall_mem_append.2 ⟨h₁, h₂⟩, forall_mem_singleton.2 (.operate _ _)⟩
  | @assign target s value span hu hg _ ihv =>
    intro hplain slot code pushed h
    obtain ⟨_, _, hs', hvalue, rfl, -⟩ := lower_assign_ok h
    rw [hu] at hs'
    cases hs'
    have hvoid := Primitive.ne_void_of_isConcreteValue (hc.slot _ _ hg)
    exact forall_mem_append.2
      ⟨emitted_lowerTo (ihv ⟨hplain.fits, hplain.voidFree⟩) (fun _ => .inl hvoid) hvalue,
        forall_mem_singleton.2 (.set hg)⟩
  | @call target args method span callee hcallee _ _ ihargs =>
    rintro ⟨hfits, hvoid⟩ slot code pushed h
    obtain ⟨callee', _, hcallee', hargs, rfl, -⟩ := lower_call_ok h
    simp only [Expr.fits, Expr.voidFree, allFit_iff, allVoidFree_iff] at hfits hvoid
    have hmem := Program.mem_of_bind_methodAt? hcallee'
    have hall := forall_mem_lowerArguments
      (fun t ht => .convert t fun _ =>
        Primitive.ne_void_of_isConcreteValue (hc.parameter callee' hmem t ht))
      (fun a ha => ihargs a ha ⟨fun h => hfits h a ha, fun h => hvoid h a ha⟩) hargs
    obtain ⟨_, -, hid⟩ := Option.bind_eq_some_iff.1 hcallee'
    exact forall_mem_append.2 ⟨hall, forall_mem_singleton.2 (.call hid)⟩
  | cast _ iho =>
    rintro ⟨hfits, hvoid⟩ slot code pushed h
    simp only [Expr.voidFree, Bool.and_eq_true, bne_iff_ne] at hvoid
    obtain ⟨hoperand, -⟩ := lower_cast_ok h
    exact emitted_lowerTo (iho ⟨hfits, fun h => (hvoid h).1⟩) (fun h => .inl (hvoid h).2) hoperand

theorem Expr.emitted_lowerCondition (hc : Concrete p m.localType?) (hs : e.Sound p m.localType?)
    (hplain : e.Plain sized strict) (h : e.lowerCondition p = .ok code) :
    ∀ i ∈ code, Emitted p m sized strict i := by
  rcases lowerCondition_ok h with ⟨c, hcode, rfl⟩ |
    ⟨kind, left, n, type, c, t, hcmp, -, -, hleft, rfl⟩
  · have hvalue := emitted_lowerTo (hs.emitted hc hplain)
      (fun _ => .inl Primitive.noConfusion) hcode
    exact forall_mem_append.2 ⟨hvalue, forall_mem_singleton.2 .truth⟩
  · obtain ⟨-, _, _, rfl⟩ := eq_of_comparison? hcmp
    obtain ⟨hfits, hvoid⟩ := hplain
    simp only [Expr.fits, Expr.voidFree, Literal.fits, Bool.and_eq_true] at hfits hvoid
    cases hs with
    | binary _ hsl =>
      have hcode := Expr.Sound.emitted hc hsl ⟨fun h => (hfits h).1, fun h => (hvoid h).1⟩
        none c t hleft
      exact forall_mem_append.2 ⟨hcode, forall_mem_singleton.2 (.compare fun h => (hfits h).2)⟩

theorem emitted_closed (hc : Concrete p m.localType?) :
    Closed p m.returnType ((Demands.sound p m).both (.all (Expr.Plain sized strict)))
      fun code => ∀ i ∈ code, Emitted p m sized strict i where
  nil i hi := by cases hi
  append a b ha hb := forall_mem_append.2 ⟨ha, hb⟩
  effect e code he h := by
    obtain ⟨c, pushed, hcode, rfl⟩ := Stmt.lower_expression_ok h
    have hvalue := Expr.Sound.emitted hc he.1 he.2 none c pushed hcode
    split
    · exact hvalue
    · exact forall_mem_append.2 ⟨hvalue, forall_mem_singleton.2 .pop⟩
  condition e code he h := Expr.emitted_lowerCondition hc he.1 he.2 h
  result v span code hv h := by
    rcases hv with ⟨⟨rfl, -⟩ | ⟨e, rfl, hvoid, hs⟩, hplain⟩
    · cases h
      exact forall_mem_singleton.2 .ret
    · obtain ⟨c, hcode, rfl⟩ := Stmt.lower_ret_ok h
      have hvalue := Expr.emitted_lowerTo (hs.emitted hc (hplain e rfl)) (fun _ => .inl hvoid) hcode
      exact forall_mem_append.2 ⟨hvalue, forall_mem_singleton.2 .ret⟩
  otherwise := forall_mem_singleton.2 .otherwise
  endBranch := forall_mem_singleton.2 .endBranch

end ScriptCompiler
