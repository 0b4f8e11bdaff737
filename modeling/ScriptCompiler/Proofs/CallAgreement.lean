import ScriptCompiler.Proofs.Lowering
import ScriptCompiler.Proofs.SlotTypes

/-!
# Calls that checking accepts

A call is bound by the conversions from the types of its arguments before they are checked; checking
makes each argument fit its parameter by a rule of its own. The two agree: checking leaves the types
as they were (`Expr.typeIn_check`), and a value with a conversion to a type can be made to fit it
(`Expr.exists_coerce`).
-/

set_option autoImplicit false

namespace ScriptCompiler

/-- An expression in which every call has one argument for each parameter of its method, and each
argument can be made to fit its parameter once it has been checked. -/
inductive Expr.CallsAccepted (p : Program) : Expr → Prop
  | literal {value : Literal} {span : Span} : CallsAccepted p (.literal value span)
  | name {use : NameUse} : CallsAccepted p (.name use)
  | binary {op : BinaryOp} {left right : Expr} {span : Span} (hleft : CallsAccepted p left)
      (hright : CallsAccepted p right) : CallsAccepted p (.binary op left right span)
  | assign {target : NameUse} {value : Expr} {span : Span} (hvalue : CallsAccepted p value) :
      CallsAccepted p (.assign target value span)
  | call {target : DottedName} {args : List Expr} {method : Option MethodId} {span : Span}
      {callee : Method} (hcallee : method.bind p.methodAt? = some callee)
      (hlen : args.length = callee.parameterTypes.length)
      (hfit : ∀ x ∈ args.zip callee.parameterTypes, ∀ a, (x.1.check p).outcome = .ok a →
        ∃ a', (a.coerce p x.2).outcome = .ok a')
      (harguments : ∀ a ∈ args, CallsAccepted p a) :
      CallsAccepted p (.call target args method span)
  | cast {operand : Expr} {type : Primitive} {span : Span} (hoperand : CallsAccepted p operand) :
      CallsAccepted p (.cast operand type span)

variable {p q : Program} {site : Site} {names : NameStack}

/-- A value can be made to fit a type that its own type has a conversion to. -/
theorem Expr.exists_coerce {e : Expr} {t target : Primitive} {c : Conversion}
    (ht : e.typeIn p = .ok t) (hc : Conversion.between? t target = some c) :
    ∃ e', (e.coerce p target).outcome = .ok e' := by
  unfold Expr.coerce
  split
  · unfold Expr.clampLiteral
    dsimp only
    split <;> exact ⟨_, rfl⟩
  · rw [ht, Checked.lift_ok_bind]
    unfold Conversion.between? at hc
    split
    · exact ⟨_, rfl⟩
    · rename_i hne
      rw [if_neg hne] at hc
      split
      · rename_i hassign
        rw [if_pos hassign] at hc
        cases hc
      · split <;> exact ⟨_, rfl⟩

theorem Expr.exists_coerce_of_viable (hp : p.outline = q.outline) {args : List Expr} :
    ∀ {types params : Types} {conversions : List Conversion},
      Expr.typesIn p args = .ok types →
      List.zipWith Conversion.between? types params = conversions.map some →
      ∀ x ∈ args.zip params, ∀ a, (x.1.check q).outcome = .ok a →
        ∃ a', (a.coerce q x.2).outcome = .ok a' := by
  induction args with
  | nil => simp
  | cons _ _ ih =>
    intro types params conversions htypes hzip x hx a ha
    obtain ⟨_, _, ht, hts, htypes⟩ := of_bind₂ htypes
    cases htypes
    cases params with
    | nil => simp at hx
    | cons =>
      obtain ⟨_, _, rfl, hc, hcs⟩ := List.map_eq_cons_iff.1 hzip.symm
      rw [List.zip_cons_cons] at hx
      rcases List.mem_cons.1 hx with rfl | hx
      · refine exists_coerce ?_ hc.symm
        rw [typeIn_check _ a ha, ← typeIn_congr hp]
        exact ht
      · exact ih hts hcs.symm x hx a ha

theorem Expr.callsAccepted_of_lexical (hq : site.program.outline = q.outline) (e : Expr) :
    ∀ e', e.lexical site names = .ok e' → e'.CallsAccepted q := by
  refine lexical_induction (P := fun _ e' => e'.CallsAccepted q) (fun _ _ => .literal)
    (fun _ _ _ => .name) (fun _ _ _ _ _ _ hl hr => .binary hl hr)
    (fun _ _ _ _ _ _ hv => .assign hv) ?_ (fun _ _ _ _ ho => .cast ho) e
  rintro target args method span args' types o hargs htypes ⟨callee, hcallee, hlen, hzip⟩
  have hbound : (some o.method).bind site.program.methodAt? = some callee := hcallee
  obtain ⟨_, hcallee', ho⟩ := Program.exists_callee_of_outline_eq hq hbound
  have hparams := congrArg Method.parameterTypes ho
  simp only [Method.outline_parameterTypes] at hparams
  rw [← hparams] at hlen hzip
  refine .call hcallee' ?_ (exists_coerce_of_viable hq htypes hzip) fun a' ha' => ?_
  · rw [← hlen, length_of_typesIn htypes]
  · obtain ⟨_, _, ha⟩ := hargs a' ha'
    exact ha

/-- Whatever call a body has after resolution, checking drops none of its arguments and turns none
of them away from its parameter. -/
theorem Evaluation.calls_accepted {s : Evaluation} {id : MethodId} {m : Method}
    (h : s.resolve.program.methodAt? id = some m) (hext : m.external = false) :
    Stmt.AllThroughout (.all (Expr.CallsAccepted s.resolve.program)) m.statements := by
  obtain ⟨m₀, -, rfl⟩ := exists_resolve_eq h hext
  refine (Stmt.allThroughout_iff _ _).2 fun _ hy => ?_
  obtain ⟨_, -, -, hxy⟩ := (m₀.resolve_rewrites s.program).1.exists_of_mem hy
  refine hxy.holds (fun e _ _ e' _ => Expr.callsAccepted_of_lexical s.outline_resolve.symm e e')
    (fun _ _ hdefault => ?_) fun _ _ _ _ _ _ hv => .assign hv
  obtain ⟨_, _, rfl | rfl⟩ := Expr.eq_of_default? hdefault
  · exact .literal
  · exact .cast .literal

/-- The second method of the sample calls the first one with the sum of a `u8` and a literal. -/
theorem Evaluation.calls_accepted_sample :
    ∃ m, (resolved Sample.scripts Sample.files).program.methodAt? 1 = some m ∧
      m.external = false ∧ m.statements.length = 3 ∧ Stmt.AllThroughout (.all (Expr.CallsAccepted
        (resolved Sample.scripts Sample.files).program)) m.statements := by
  have hmethod : ((resolved Sample.scripts Sample.files).program.methodAt? 1).map
      (fun m => (m.external, m.statements.length)) = some (false, 3) := by decide +kernel
  obtain ⟨m, hm, hfields⟩ := Option.map_eq_some_iff.1 hmethod
  obtain ⟨hext, hlen⟩ := Prod.mk.inj hfields
  exact ⟨m, hm, hext, hlen, Evaluation.calls_accepted hm hext⟩

end ScriptCompiler
