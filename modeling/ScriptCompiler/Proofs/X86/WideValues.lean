import ScriptCompiler.Proofs.X86.CallFrames
import ScriptCompiler.Proofs.X86.FrameRegions
import ScriptCompiler.Proofs.X86.Paths

/-!
# Wide values

Values that do not fit in a register: floating point numbers and all that takes more than
four bytes. A method that names such a type in its signature or makes a value of it is
refused, with one exception: a text is converted by a call of the library, whatever the
type that it is converted to. So all wide values on the virtual stack of a compiled
method come from texts.
-/

set_option autoImplicit false

namespace ScriptCompiler

open List Option

/-- Whether values of a type do not fit in a register. -/
def Primitive.isWide (t : Primitive) : Bool := t.isFloating || 4 < t.size

namespace X86

theorem isSupported_eq (t : Primitive) : Context.isSupported t = !t.isWide := by cases t <;> rfl

/-! ## Types on the virtual stack -/

/-- The types of entries, the latest first. -/
def typesOf (vs : Stack) : Types := vs.map StackValue.type

/-- Whether an instruction makes a value of a type that was not there before, in a frame and with
entries on the stack. -/
inductive Arises (c : Context) (i : Instruction) (f : Frame) (vs : Stack) :
    Primitive → Prop where
  | constant {t : Primitive} {text : String} (hop : i.opcode = .loadConst)
      (h : i.constant = .ok (t, text)) : Arises c i f vs t
  | read {t : Primitive} {index : Int} (hop : i.opcode = .getLocal)
      (h : i.localIndex = .ok index) (ht : f.localType? index = some t) : Arises c i f vs t
  | computed {t : Primitive}
      (hop : i.opcode = .add ∨ i.opcode = .sub ∨ i.opcode = .mul ∨ i.opcode = .div ∨
        i.opcode = .rem) (h : i.operandType = .ok t) : Arises c i f vs t
  | compared (hop : i.opcode = .equals ∨ i.opcode = .unequals) : Arises c i f vs .bool
  | converted {t : Primitive} {v : StackValue} {rest : Stack}
      (hop : i.opcode = .convert) (h : i.operandType = .ok t) (hv : vs = v :: rest)
      (hother : v.type ≠ t) : Arises c i f vs t
  | returned {t : Primitive} {target : Reference} {callee : Method} (hop : i.opcode = .call)
      (h : i.callTarget = .ok (t, target))
      (hcallee : (c.program.findMethod? target).bind c.program.methodAt? = some callee) :
      Arises c i f vs t

section

variable {c : Context} {i : Instruction} {k : Nat} {a b : Stage} {lines : List Line} {s s₁ : State}
  {v : StackValue} {t : Primitive}

theorem Pushable.congr {f g : Frame} (h : f.outline = g.outline) (hv : Pushable f i v) :
    Pushable g i v := by
  cases v with
  | stored => exact ⟨hv.1, Frame.localType_congr h ▸ hv.2⟩
  | constant | operation | temp => exact hv

/-- The type of an entry behind actions is that of an entry from before, or of one that is pushed. -/
theorem Acts.type_origin (h : Acts c i k a lines b) (hv : v ∈ b.held ++ b.stack) :
    ∃ w, w.type = v.type ∧ (w ∈ a.held ++ a.stack ∨ Pushable a.frame i w) := by
  induction h with
  | refl => exact ⟨v, rfl, .inl hv⟩
  | step hfirst _ ih =>
    obtain ⟨w, htype, hw | hw⟩ := ih hv
    · rcases hfirst.origin hw with hold | hpush | ⟨-, u, hu, hsame⟩
      · exact ⟨w, htype, .inl hold⟩
      · exact ⟨w, htype, .inr hpush⟩
      · exact ⟨u, hsame.trans htype, .inl hu⟩
    · exact ⟨w, htype, .inr (hw.congr hfirst.outline)⟩

/-- The first operand is not both a type and a number or a condition. -/
theorem type?_alone (h : i.type? = some t) : i.number? 0 = none ∧ i.branch? = none := by
  obtain ⟨tag, htag, ht⟩ := bind_eq_some_iff.1 h
  obtain rfl := Primitive.eq_tag_of_ofTag? ht
  have hnone : Integer.readSigned? t.tag.toList = none ∧ Condition.ofName? t.tag = none := by
    cases t <;> decide
  rw [Instruction.number?, Instruction.branch?, htag, bind_some, bind_some, hnone.2]
  exact ⟨hnone.1, rfl⟩

theorem checkType_of_isWide (c : Context) (ht : t.isWide = true) :
    c.checkType t = .error (.unsupportedType backend t c.name) := by
  have hunsupported : ¬Context.isSupported t = true := by
    rw [isSupported_eq, ht]
    decide
  rw [Context.checkType, if_neg hunsupported]

/-- An instruction that neither computes nor reads anything leaves no new entry. -/
theorem stack_subset_of_step {index : Nat}
    (hop : i.opcode ∈ [.nop, .jump, .otherwise, .endBranch, .ret, .pop])
    (h : step c index i s = .ok s₁) : s₁.stack ⊆ s.stack := by
  have hpopped : ∀ {v : StackValue} {r : State}, s.pop c i = .ok (v, r) → r.stack ⊆ s.stack := by
    intro v r hpop
    obtain ⟨rest, hstack, rfl⟩ := pop_ok hpop
    rw [hstack]
    exact subset_cons_self v rest
  simp only [mem_cons, not_mem_nil, or_false] at hop
  unfold step at h
  rcases hop with hop | hop | hop | hop | hop | hop <;> rw [hop] at h
  · cases h
    exact List.Subset.refl _
  · obtain ⟨_, _, -, -, h⟩ := of_bind₂ h
    cases h
    exact List.Subset.refl _
  iterate 2
    dsimp only [otherwise, endBranch] at h
    rcases hcs : s.conditionals with _ | ⟨_, rest⟩ <;> rw [hcs] at h <;> cases h
    exact List.Subset.refl _
  · unfold ret at h
    by_cases hvoid : c.method.returnType = .void
    · rw [if_pos hvoid] at h
      cases h
      rw [epilogue_eq]
      exact List.Subset.refl _
    · rw [if_neg hvoid] at h
      obtain ⟨⟨v, r⟩, _, hpop, hload, h⟩ := of_bind₂ h
      obtain ⟨_, -, rfl⟩ := load_ok hload
      cases h
      have hsubset := hpopped hpop
      rw [epilogue_eq]
      exact hsubset
  · obtain ⟨⟨v, r⟩, hpop, h⟩ := of_bind h
    have hsubset := hpopped hpop
    cases v <;> cases h <;> exact hsubset

/-- A wide type was there before or arises from the instruction. -/
theorem step_types {index : Nat} (ha : Apart s.frame s.stack)
    (hframe : ∀ j t, s.frame.localType? j = some t → t.isWide = false)
    (h : step c index i s = .ok s₁) (ht : t ∈ typesOf s₁.stack) (hwide : t.isWide = true) :
    t ∈ typesOf s.stack ∨ Arises c i s.frame s.stack t := by
  obtain ⟨v, hv, rfl⟩ := List.mem_map.1 ht
  obtain ⟨lines, hacts, -⟩ := @step_ok c i 0 index s s₁ ha (Nat.zero_le _) h
  obtain ⟨w, htype, hw | hpush⟩ := @Acts.type_origin c i 0 _ _ lines v hacts hv
  · exact .inl (List.mem_map.2 ⟨w, hw, htype⟩)
  -- the type is named by the instruction, so its first operand is not read as anything else
  have hnamed : i.type? = some v.type := by
    rw [← htype] at hwide ⊢
    cases w with
    | constant => exact hpush.2
    | operation =>
      rcases hpush with hpush | rfl
      · exact hpush.1
      · cases hwide
    | stored t j =>
      have hnarrow := hframe j t (of_checkIndex hpush.2)
      rw [StackValue.type, hnarrow] at hwide
      cases hwide
    | temp => exact hpush.elim
  obtain ⟨hnumber, hbranch⟩ := type?_alone hnamed
  have hkept : i.opcode ∈ [.nop, .jump, .otherwise, .endBranch, .ret, .pop] →
      v.type ∈ typesOf s.stack := fun hop => List.mem_map_of_mem (stack_subset_of_step hop h hv)
  generalize v.type = t at hnamed hwide hkept ⊢
  unfold step at h
  cases hop : i.opcode with
  | nop | jump | otherwise | endBranch | ret | pop => exact .inl (hkept (by simp [hop]))
  | loadConst =>
    rw [hop] at h
    obtain ⟨⟨u, _⟩, hconst, -⟩ := of_bind h
    have hconst := reading_ok hconst
    obtain rfl := some.inj ((Instruction.constant_ok hconst).1.symm.trans hnamed)
    exact .inr (.constant hop hconst)
  | getLocal | setLocal =>
    rw [hop] at h
    obtain ⟨index, hindex, -⟩ := of_bind h
    rw [Instruction.localIndex_ok (reading_ok hindex)] at hnumber
    cases hnumber
  | add | sub | mul | div | rem =>
    exact .inr (.computed (by simp [hop]) (Instruction.operandType_of_type? hnamed))
  | equals | unequals =>
    rw [hop] at h
    obtain ⟨u, _, htype, hcheck, -⟩ := of_bind₂ h
    have hsame := (Instruction.operandType_ok (reading_ok htype)).symm.trans hnamed
    rw [some.inj hsame, checkType_of_isWide c hwide] at hcheck
    cases hcheck
  | convert =>
    rw [hop] at h
    obtain ⟨target, ⟨w, _⟩, -, hpop, -⟩ := of_bind₂ h
    obtain ⟨_, hstack, -⟩ := pop_ok hpop
    by_cases hsame : w.type = t
    · rw [hstack, ← hsame]
      exact .inl mem_cons_self
    · exact .inr (.converted hop (Instruction.operandType_of_type? hnamed) hstack hsame)
  | call =>
    rw [hop] at h
    obtain ⟨⟨_, target⟩, htarget, h⟩ := of_bind h
    have htarget := reading_ok htarget
    obtain rfl := some.inj ((Instruction.callTarget_ok htarget).1.symm.trans hnamed)
    cases hcallee : (c.program.findMethod? target).bind c.program.methodAt? with
    | none =>
      simp only [hcallee] at h
      cases h
    | some => exact .inr (.returned hop htarget hcallee)
  | branch =>
    rw [hop] at h
    obtain ⟨⟨_, _⟩, hcond, -⟩ := of_bind h
    rw [Instruction.branch?_of_condition (reading_ok hcond)] at hbranch
    cases hbranch

end

/-! ## Refusals -/

/-- The errors by which wide values are refused. -/
inductive Refusal (name : String) : CompilingError → Prop where
  | type {t : Primitive} (h : t.isWide = true) : Refusal name (.unsupportedType backend t name)
  | conversion {source target : Primitive} (h : target.isWide = true) :
      Refusal name (.unsupportedConversion backend source target)

/-- Whether an instruction converts a text to a type. -/
structure ConvertsText (i : Instruction) (vs : Stack) (t : Primitive) : Prop where
  opcode : i.opcode = .convert
  target : i.operandType = .ok t
  source : ∃ v rest, vs = v :: rest ∧ v.type = .str

theorem outline_spill (s : State) : s.spill.frame.outline = s.frame.outline := by
  rcases s.spill_cases with ⟨hspill, -⟩ | ⟨_, _, _, _, _, halloc, -, hspill⟩
  · rw [hspill]
  · rw [hspill]
    exact allocTemp_outline halloc

section

variable {c : Context} {i : Instruction} {index : Nat} {s : State} {t : Primitive}

theorem checkType_of_not_isWide (c : Context) (ht : t.isWide = false) : c.checkType t = .ok () := by
  have hsupp : Context.isSupported t = true := by
    rw [isSupported_eq, ht]
    rfl
  rw [Context.checkType, if_pos hsupp]

variable {types : Types}

theorem checkTypes_of_not_isWide (c : Context) (h : ∀ t ∈ types, t.isWide = false) :
    c.checkTypes types = .ok () := by
  induction types with
  | nil => rfl
  | cons _ _ ih =>
    obtain ⟨ht, hrest⟩ := forall_mem_cons.1 h
    rw [Context.checkTypes, checkType_of_not_isWide c ht, ok_bind, ih hrest]

theorem checkTypes_of_isWide (c : Context) (h : ∃ t ∈ types, t.isWide = true) :
    ∃ e, c.checkTypes types = .error e ∧ Refusal c.name e := by
  induction types with
  | nil =>
    obtain ⟨t, ht, -⟩ := h
    cases ht
  | cons u _ ih =>
    rw [Context.checkTypes]
    cases hu : u.isWide with
    | true =>
      rw [checkType_of_isWide c hu]
      exact ⟨_, rfl, .type hu⟩
    | false =>
      rw [checkType_of_not_isWide c hu, ok_bind]
      obtain ⟨t, ht, hwide⟩ := h
      rcases mem_cons.1 ht with rfl | ht
      · rw [hu] at hwide
        cases hwide
      · exact ih ⟨t, ht, hwide⟩

/-- An instruction that makes a wide value is refused, unless it converts a text. -/
theorem step_of_isWide (hframe : ∀ index t, s.frame.localType? index = some t → t.isWide = false)
    (h : Arises c i s.frame s.stack t) (ht : t.isWide = true) (htext : ¬ConvertsText i s.stack t) :
    ∃ e, step c index i s = .error e ∧ Refusal c.name e := by
  have hcheck := checkType_of_isWide c ht
  unfold step
  cases h with
  | constant hop h =>
    rw [hop]
    refine ⟨_, ?_, .type ht⟩
    simp only [loadConstant, h, reading, ok_bind, hcheck]
    rfl
  | @read _ index hop h hlocal =>
    rw [hframe index t hlocal] at ht
    cases ht
  | computed hop h =>
    have hbinary : binary c i s = .error (.unsupportedType backend t c.name) := by
      simp only [binary, h, reading, ok_bind, hcheck]
      rfl
    refine ⟨_, ?_, .type ht⟩
    rcases hop with hop | hop | hop | hop | hop <;> rw [hop] <;> exact hbinary
  | compared => cases ht
  | @converted _ v rest hop h hv hother =>
    have hstr : ¬(v.type = .str ∨ t = .str) := by
      rintro (hv' | rfl)
      · exact htext ⟨hop, h, v, rest, hv, hv'⟩
      · cases ht
    have hunsupported : (!Context.isSupported v.type || !Context.isSupported t) = true := by
      rw [isSupported_eq t, ht, Bool.not_not, Bool.or_true]
    have hpop : s.pop c i = .ok (v, { s with stack := rest }) := by rw [State.pop, hv]
    rw [hop]
    refine ⟨.unsupportedConversion backend v.type t, ?_, .conversion ht⟩
    simp only [convert, h, reading, ok_bind, hpop, if_neg hother, if_neg hstr, if_pos hunsupported]
    rfl
  | returned hop h hcallee =>
    rw [hop]
    refine ⟨_, ?_, .type ht⟩
    simp only [callStatic, h, reading, ok_bind, hcallee, hcheck]
    rfl

/-- A call with one argument succeeds, wherever the argument is. -/
theorem exists_emitCall_single (label : String) (u result : Primitive) {v : StackValue}
    (hv : ∀ w j, v = .stored w j → s.frame.localType j = .ok (some w)) :
    ∃ s' ws, emitCall c label [u] [v] result s = .ok s' ∧
      s'.stack = if result = .void then ws else .operation result :: ws := by
  have hord : (layOut 0 [u] [v]).filter (fun a => a.value.isOperation) ++
      (layOut 0 [u] [v]).filter (fun a => !a.value.isOperation) = [⟨v, u.size, 0⟩] := by
    cases v <;> rfl
  have hlines : ∀ f : Frame, f.outline = s.frame.outline → ∃ lines,
      storeLines? f (.argument (.ofSize u.size) 0) u.size v = some lines := by
    intro f hf
    cases v with
    | constant | operation | temp => exact ⟨_, rfl⟩
    | stored w j =>
      have hlocal : f.localType? j = some w := by
        rw [Frame.localType?_congr hf]
        exact of_checkIndex (hv w j rfl)
      obtain ⟨_, ho, -⟩ := Frame.exists_localOperand? hlocal
      rw [storeLines?_eq rfl, loadLines?, ho]
      exact ⟨_, rfl⟩
  generalize hr : (if 0 < totalSize [u] then
    s.spill.op "SUB" [.register .esp, .number (totalSize [u])] else s.spill) = r
  have hframe : r.frame.outline = s.frame.outline := by
    rw [← hr]
    split <;> exact outline_spill s
  obtain ⟨lines, hlines⟩ := hlines r.frame hframe
  have harg : storeArgument c ⟨v, u.size, 0⟩ r =
      .ok (r.advance lines (r.frame.release v) r.stack) :=
    storeArgument_eq c (fun w j hw => Frame.localType_congr hframe ▸ hv w j hw) hlines
  have hstore : storeArguments c [⟨v, u.size, 0⟩] r =
      .ok (r.advance lines (r.frame.release v) r.stack) := by
    rw [storeArguments, harg]
    rfl
  rw [← hord, ← hr] at hstore
  obtain ⟨s', hemit, -, -, hstack⟩ := emitCall_ok label result hstore
  exact ⟨s', _, hemit, hstack⟩

/-- A text is converted by a call, and the call leaves a value of any type. -/
theorem step_of_convertsText (hreads : ∀ u j, .stored u j ∈ s.stack →
      s.frame.localType j = .ok (some u)) (h : ConvertsText i s.stack t) (ht : t.isWide = true) :
    ∃ s' ws, step c index i s = .ok s' ∧ s'.stack = .operation t :: ws := by
  obtain ⟨v, rest, hv, htext⟩ := h.source
  have hother : v.type ≠ t := by
    rintro rfl
    rw [htext] at ht
    cases ht
  have hvoid : t ≠ .void := by
    rintro rfl
    cases ht
  have hpop : s.pop c i = .ok (v, { s with stack := rest }) := by rw [State.pop, hv]
  obtain ⟨s', ws, hemit, hstack⟩ :=
    @exists_emitCall_single c { s with stack := rest } (castLabel v.type t) v.type t v
      (fun w j hw => hreads w j (by rw [hv, hw]; exact mem_cons_self))
  rw [if_neg hvoid] at hstack
  refine ⟨s', ws, ?_, hstack⟩
  rw [step, h.opcode]
  simp only [convert, h.target, reading, ok_bind, hpop, if_neg hother,
    if_pos (Or.inl htext : v.type = .str ∨ t = .str)]
  exact hemit

end

/-! ## Wide values along code -/

section

variable {c : Context} {code : Code} {index : Nat} {s s' : State}

theorem walk_reads (ha : Apart s.frame s.stack)
    (hreads : ∀ u j, .stored u j ∈ s.stack → s.frame.localType j = .ok (some u))
    (h : walk c index code s = .ok s') :
    ∀ u j, .stored u j ∈ s'.stack → s'.frame.localType j = .ok (some u) := by
  induction code generalizing index s with
  | nil =>
    cases h
    exact hreads
  | cons _ _ ih =>
    obtain ⟨_, _, hacts, -, -, ha₁, h⟩ := walk_cons_ok ha h
    exact ih ha₁ (hacts.reads hreads) h

/-- A wide value behind code was there before, or comes from a text that the code converts. -/
theorem walk_wide {v : StackValue} (ha : Apart s.frame s.stack)
    (hframe : ∀ j t, s.frame.localType? j = some t → t.isWide = false)
    (h : walk c index code s = .ok s') (hv : v.type ∈ typesOf s'.stack)
    (hwide : v.type.isWide = true) :
    v.type ∈ typesOf s.stack ∨ ∃ before i after r, code = before ++ i :: after ∧
      walk c index before s = .ok r ∧ ConvertsText i r.stack v.type := by
  induction code generalizing index s with
  | nil =>
    cases h
    exact .inl hv
  | cons i rest ih =>
    obtain ⟨s₁, hstep, h⟩ := of_bind h
    obtain ⟨_, hacts, -⟩ := @step_ok c i 0 index s.mark s₁ ha (Nat.zero_le _) hstep
    have hframe₁ : ∀ j t, s₁.frame.localType? j = some t → t.isWide = false := by
      intro j t ht
      have hout : s₁.frame.outline = s.frame.outline := hacts.outline
      rw [Frame.localType?_congr hout] at ht
      exact hframe j t ht
    rcases ih (hacts.apart ha) hframe₁ h with hold | ⟨before, j, after, r, rfl, hr, htext⟩
    · rcases @step_types c i s.mark s₁ v.type index ha hframe hstep hold hwide with hold | harises
      · exact .inl hold
      · -- the instruction made it, and was not refused
        refine .inr ⟨[], i, rest, s, rfl, rfl, ?_⟩
        apply Classical.byContradiction
        intro htext
        obtain ⟨_, herror, -⟩ := @step_of_isWide c i index s.mark v.type hframe harises hwide htext
        rw [herror] at hstep
        cases hstep
    · refine .inr ⟨i :: before, j, after, r, rfl, ?_, htext⟩
      rw [walk, hstep]
      exact hr

end

section

variable {p : Program} {m : Method} {shared : Shared} {e : CompilingError}

/-- The types of the signature are checked before the code is compiled. -/
theorem compileMethod_of_checkTypes
    (h : (Context.of p m).checkTypes (m.returnType :: (m.parameterTypes ++ m.locals)) = .error e) :
    compileMethod p m shared = .error e := by
  rw [compileMethod_eq]
  rw [Context.checkTypes] at h
  cases hret : (Context.of p m).checkType m.returnType with
  | error =>
    rw [hret] at h
    cases h
    rfl
  | ok =>
    rw [hret, ok_bind] at h
    rw [ok_bind, h]
    rfl

theorem compileMethod_of_walk
    (h : ∀ t ∈ m.returnType :: (m.parameterTypes ++ m.locals), t.isWide = false)
    (hwalk : walk (.of p m) 0 m.code (startOf p m shared) = .error e) :
    compileMethod p m shared = .error e := by
  obtain ⟨hret, htypes⟩ := forall_mem_cons.1 h
  rw [compileMethod_eq, checkType_of_not_isWide _ hret, checkTypes_of_not_isWide _ htypes,
    ok_bind, ok_bind, hwalk]
  rfl

end

/-- Wide values are refused, with one exception. A method with a wide type in its signature is not
compiled. Neither is one with an instruction that makes a wide value, whatever comes behind it,
unless the instruction converts a text: then the value is on the stack. So all wide values on the
stack of a compiled method come from texts that were converted to their types. -/
theorem wide_values_come_from_texts (p : Program) (m : Method) (shared : Shared) :
    ((∃ t ∈ m.returnType :: (m.parameterTypes ++ m.locals), t.isWide = true) →
      ∃ e, compileMethod p m shared = .error e ∧ Refusal (p.referenceOf m).text e) ∧
    (∀ before i after s t, m.code = before ++ i :: after →
      walk (.of p m) 0 before (startOf p m shared) = .ok s → Arises (.of p m) i s.frame s.stack t →
      t.isWide = true → (¬ConvertsText i s.stack t →
        ∃ e, compileMethod p m shared = .error e ∧ Refusal (p.referenceOf m).text e) ∧
      (ConvertsText i s.stack t → ∃ s' ws, walk (.of p m) 0 (before ++ [i]) (startOf p m shared) =
        .ok s' ∧ s'.stack = .operation t :: ws)) ∧
    ∀ l shared', compileMethod p m shared = .ok (l, shared') →
      ∀ before after s v, m.code = before ++ after →
        walk (.of p m) 0 before (startOf p m shared) = .ok s → v ∈ s.stack → v.type.isWide = true →
        ∃ a i b r, before = a ++ i :: b ∧ walk (.of p m) 0 a (startOf p m shared) = .ok r ∧
          ConvertsText i r.stack v.type := by
  have hstart := @start_apart (.of p m) (p.referenceOf m).asmLabel shared
  have hrefused : (∃ t ∈ m.returnType :: (m.parameterTypes ++ m.locals), t.isWide = true) →
      ∃ e, compileMethod p m shared = .error e ∧ Refusal (p.referenceOf m).text e := by
    intro hwide
    obtain ⟨e, hcheck, hrefusal⟩ := checkTypes_of_isWide (.of p m) hwide
    exact ⟨e, compileMethod_of_checkTypes hcheck, hrefusal⟩
  refine ⟨hrefused, ?_, ?_⟩
  · intro before i after s t hcode hwalk harises ht
    constructor
    · intro htext
      by_cases hwide : ∃ t ∈ m.returnType :: (m.parameterTypes ++ m.locals), t.isWide = true
      · exact hrefused hwide
      · have hnarrow : ∀ t ∈ m.returnType :: (m.parameterTypes ++ m.locals),
            t.isWide = false := by
          intro u hu
          exact Bool.eq_false_iff.2 fun hwide' => hwide ⟨u, hu, hwide'⟩
        have hframe : ∀ j u, s.frame.localType? j = some u → u.isWide = false := by
          intro j u hu
          obtain ⟨-, hout, -⟩ := walk_extends hstart hwalk
          rw [Frame.localType?_congr hout] at hu
          exact hnarrow u (List.mem_cons_of_mem _ (Frame.mem_of_localType? hu))
        obtain ⟨e, hstep, hrefusal⟩ :=
          @step_of_isWide (.of p m) i before.length s.mark t hframe harises ht htext
        refine ⟨e, compileMethod_of_walk hnarrow ?_, hrefusal⟩
        rw [hcode, walk_append, hwalk, ok_bind, walk, Nat.zero_add, hstep]
        rfl
    · intro htext
      have hreads := walk_reads hstart (fun u j hmem => by cases hmem) hwalk
      obtain ⟨s', ws, hstep, hstack⟩ :=
        @step_of_convertsText (.of p m) i before.length s.mark t hreads htext ht
      refine ⟨s', ws, ?_, hstack⟩
      rw [walk_append, hwalk, ok_bind, walk, Nat.zero_add, hstep]
      rfl
  · intro l shared' hcompile before after s v hcode hwalk hv hwide
    obtain ⟨r, hcomp, -⟩ := compileMethod_ok hcompile
    have hframe : ∀ j u, (startOf p m shared).frame.localType? j = some u → u.isWide = false := by
      intro j u hu
      have hsupp := hcomp.supported u (Frame.mem_of_localType? hu)
      rw [isSupported_eq] at hsupp
      simpa using hsupp
    rcases walk_wide hstart hframe hwalk (List.mem_map_of_mem hv) hwide with hold | htext
    · cases hold
    · exact htext

namespace Sample

/-- Code that reads a number of eight bytes from a text. -/
def widening : Code := [.loadConst .str "1", .convert .f64]

/-- A method that drops the number. -/
def widener : Method where
  id := 0
  owner := 0
  script := 0
  name := ⟨["F"]⟩
  returnType := .void
  parameters := []
  external := false
  span := ⟨1, 1, 4⟩
  code := widening ++ [.pop]

/-- A program with this method. -/
def wideners : Program where
  namespaces := [⟨0, .explicit ⟨["App"]⟩, 0, [0], []⟩]
  methods := [widener]

end Sample

/-- A method that reads a number of eight bytes from a text is compiled, and has the number on its
stack. -/
theorem wide_value_of_text_accepted :
    ∃ l shared' s, compileMethod Sample.wideners Sample.widener {} = .ok (l, shared') ∧
      walk (.of Sample.wideners Sample.widener) 0 Sample.widening
        (startOf Sample.wideners Sample.widener {}) = .ok s ∧
      s.stack = [.operation .f64] ∧ Primitive.f64.isWide = true ∧
      ∃ a i b r, Sample.widening = a ++ i :: b ∧ walk (.of Sample.wideners Sample.widener) 0 a
          (startOf Sample.wideners Sample.widener {}) = .ok r ∧ ConvertsText i r.stack .f64 := by
  have hcompile : (compileMethod Sample.wideners Sample.widener {}).map (fun _ => ()) = .ok () := by
    decide +kernel
  have hwalk : (walk (.of Sample.wideners Sample.widener) 0 Sample.widening
      (startOf Sample.wideners Sample.widener {})).map (fun s => s.stack) =
      .ok [.operation .f64] := by
    decide +kernel
  obtain ⟨⟨l, shared'⟩, hl, -⟩ := Except.map_eq_ok_iff.1 hcompile
  obtain ⟨s, hs, hstack⟩ := Except.map_eq_ok_iff.1 hwalk
  have hwide : (StackValue.operation .f64).type.isWide = true := rfl
  obtain ⟨-, -, hfrom⟩ := wide_values_come_from_texts Sample.wideners Sample.widener {}
  obtain ⟨a, i, b, r, hcode, hr, htext⟩ := hfrom l shared' hl Sample.widening [.pop] s
    (.operation .f64) rfl hs (hstack ▸ List.mem_cons_self) hwide
  exact ⟨l, shared', s, hl, hs, hstack, rfl, a, i, b, r, hcode, hr, htext⟩

end X86

end ScriptCompiler
