import ScriptCompiler.Proofs.Checking
import ScriptCompiler.Proofs.Entries
import ScriptCompiler.Proofs.FoldedTrees

/-!
# Literals of 128 bits

Integer literals have 128 bits and a sign, which is why the operands of stack code
are read back with this width. Folding answers only with numbers that fit,
resolution leaves literals alone and adds the default values of declarations, and
checking replaces a literal by a bound of an integer type. So all literals of a
checked body fit if all literals of the files do.
-/

set_option autoImplicit false

namespace ScriptCompiler

open List

/-- Whether a literal is not an integer or has a signed representation of 128 bits. -/
def Literal.fits : Literal → Bool
  | integer n => Integer.fits 128 n
  | _ => true

mutual

/-- Whether all literals of an expression fit. -/
def Expr.fits : Expr → Bool
  | .literal value _ => value.fits
  | .name _ => true
  | .binary _ left right _ => left.fits && right.fits
  | .assign _ value _ => value.fits
  | .call _ args _ _ => Expr.allFit args
  | .cast operand _ _ => operand.fits

/-- Whether all literals of expressions fit. -/
def Expr.allFit : List Expr → Bool
  | [] => true
  | e :: rest => e.fits && Expr.allFit rest

end

mutual

/-- Whether all literals of a statement fit. -/
def Stmt.fits : Stmt → Bool
  | .expression e => e.fits
  | .declare _ _ initial _ => initial.all Expr.fits
  | .ret value _ => value.all Expr.fits
  | .branch condition body alts _ => condition.fits && body.fits && alts.fits
  | .block body _ => Stmt.allFit body
  | .assembly .. => true

/-- Whether all literals of alternatives fit. -/
def Alternatives.fits : Alternatives → Bool
  | .none => true
  | .more condition body next _ => condition.all Expr.fits && body.fits && next.fits

/-- Whether all literals of statements fit. -/
def Stmt.allFit : List Stmt → Bool
  | [] => true
  | s :: rest => s.fits && Stmt.allFit rest

end

/-- The bodies of the methods that a member declares. -/
def Member.bodies : Member → List (List Stmt)
  | .method decl => [decl.body]
  | .field .. => []

/-- The bodies of the methods that an item declares. -/
def Item.bodies : Item → List (List Stmt)
  | .group _ members _ => members.flatMap Member.bodies
  | .method decl => [decl.body]
  | .statement _ => []

/-- The bodies of all methods that files declare. -/
def bodiesOf (files : List SourceFile) : List (List Stmt) :=
  files.flatMap fun file => file.items.flatMap Item.bodies

/-- Whether the literals of all methods that files declare fit. -/
def LiteralsFit (files : List SourceFile) : Prop := (bodiesOf files).all Stmt.allFit = true

instance (files : List SourceFile) : Decidable (LiteralsFit files) :=
  inferInstanceAs (Decidable (_ = _))

theorem Expr.allFit_iff (es : List Expr) : Expr.allFit es = true ↔ ∀ e ∈ es, e.fits = true := by
  induction es with
  | nil => simp [Expr.allFit]
  | cons _ _ ih => simp [Expr.allFit, ih]

mutual

theorem Stmt.fits_iff : ∀ s : Stmt,
    s.fits = true ↔ ∀ x ∈ s.parts, ∀ e ∈ x.2.expressions, e.fits = true
  | .expression e | .declare _ _ initial _ | .ret value _ | .assembly .. => by
    simp [Stmt.fits, Stmt.parts, Part.expressions, Option.all_eq_true]
  | .branch condition body alts _ => by
    simp only [Stmt.fits, Stmt.parts, Bool.and_eq_true, Stmt.fits_iff body,
      Alternatives.fits_iff alts, forall_mem_cons, forall_mem_append]
    simp [Part.expressions, and_assoc]
  | .block body _ => by
    simp only [Stmt.fits, Stmt.parts, Stmt.allFit_iff body, forall_mem_cons, forall_mem_append]
    simp [Part.expressions]

theorem Alternatives.fits_iff : ∀ a : Alternatives,
    a.fits = true ↔ ∀ x ∈ a.parts, ∀ e ∈ x.2.expressions, e.fits = true
  | .none => by simp [Alternatives.fits, Alternatives.parts]
  | .more condition body next _ => by
    simp only [Alternatives.fits, Alternatives.parts, Bool.and_eq_true, Stmt.fits_iff body,
      Alternatives.fits_iff next, forall_mem_cons, forall_mem_append, forall_mem_map]
    simp [Part.expressions, Option.all_eq_true, and_assoc]

theorem Stmt.allFit_iff : ∀ body : List Stmt,
    Stmt.allFit body = true ↔ ∀ x ∈ Stmt.allParts body, ∀ e ∈ x.2.expressions, e.fits = true
  | [] => by simp [Stmt.allFit, Stmt.allParts]
  | s :: rest => by
    simp only [Stmt.allFit, Stmt.allParts, Bool.and_eq_true, Stmt.fits_iff s, Stmt.allFit_iff rest,
      forall_mem_append]

end

/-! ## Folding -/

namespace Integer

variable {bits : Nat}

theorem fits_of_within? {n k : Int} (h : within? bits n = some k) : fits bits k = true := by
  unfold within? at h
  split at h
  · cases h
    assumption
  · cases h

theorem fits_iff {n : Int} : fits bits n = true ↔ least bits ≤ n ∧ n ≤ greatest bits := by
  simp [fits]

theorem fits_tmod {a : Int} (b : Int) (h : fits bits a = true) : fits bits (a.tmod b) = true := by
  have hsize : (a.tmod b).natAbs ≤ a.natAbs := by
    rw [Int.natAbs_tmod]
    exact Nat.mod_le _ _
  have hpow : (0 : Int) < 2 ^ (bits - 1) := Int.pow_pos (by decide)
  simp only [fits_iff, least, greatest] at h ⊢
  rcases Int.le_total 0 a with ha | ha
  · have hsign := Int.tmod_nonneg b ha
    omega
  · have hsign : 0 ≤ (-a).tmod b := Int.tmod_nonneg b (by omega)
    rw [Int.neg_tmod] at hsign
    omega

end Integer

variable {op : BinaryOp} (r : RealArithmetic)

theorem BinaryOp.fits_foldIntegers? {a b n : Int} (ha : Integer.fits 128 a = true)
    (h : op.foldIntegers? a b = some n) : Integer.fits 128 n = true := by
  cases op with
  | add | sub | mul => exact Integer.fits_of_within? h
  | div =>
    simp only [BinaryOp.foldIntegers?, Integer.quotient?] at h
    split at h
    · cases h
    · exact Integer.fits_of_within? h
  | rem =>
    simp only [BinaryOp.foldIntegers?, Integer.remainder?] at h
    split at h
    · cases h
    · obtain ⟨_, -, rfl⟩ := Option.map_eq_some_iff.1 h
      exact Integer.fits_tmod b ha
  | equal => cases h
  | notEqual => cases h

theorem BinaryOp.fits_foldLiterals? {r : RealArithmetic} {a b value : Literal} (ha : a.fits = true)
    (h : op.foldLiterals? r a b = some value) : value.fits = true := by
  rcases foldLiterals?_cases h with ⟨_, _, _, rfl, rfl, hk, rfl⟩ | ⟨-, _, _, _, -, -, -, rfl⟩
  · exact fits_foldIntegers? ha hk
  · rfl

theorem Expr.fits_fold (e : Expr) : e.fits = true → (e.fold r).fits = true := by
  refine fold_induction (P := fun e f => e.fits = true → f.fits = true) r ?_ ?_ ?_ ?_ ?_ ?_ ?_ e
  · exact fun _ _ h => h
  · exact fun _ h => h
  · intro op left right span a _ _ _ _ hl _ hvalue h
    exact BinaryOp.fits_foldLiterals? (hl (Bool.and_eq_true_iff.1 h).1) hvalue
  · intro op left _ right _ span hl hr _ h
    obtain ⟨hleft, hright⟩ := Bool.and_eq_true_iff.1 h
    exact Bool.and_eq_true_iff.2 ⟨hl hleft, hr hright⟩
  · exact fun _ _ _ _ hv => hv
  · intro _ args _ span hargs h
    refine (allFit_iff _).2 (List.forall_mem_map.2 fun a ha => ?_)
    exact hargs a ha ((allFit_iff args).1 h a ha)
  · exact fun _ _ _ _ ho => ho

theorem Stmt.allFit_foldAll (body : List Stmt) (h : Stmt.allFit body = true) :
    Stmt.allFit (Stmt.foldAll r body) = true := by
  rw [allFit_iff] at h ⊢
  rw [allParts_fold]
  refine List.forall_mem_map.2 fun x hx => ?_
  rw [Part.expressions_map]
  exact List.forall_mem_map.2 fun e he => Expr.fits_fold r e (h x hx e he)

/-! ## Declaration -/

/-- Whether every method of a program has no body, or one of these folded. -/
def Program.BodiesFrom (bodies : List (List Stmt)) (p : Program) : Prop :=
  ∀ m ∈ p.methods, m.statements = [] ∨ ∃ body ∈ bodies, m.statements = Stmt.foldAll .double body

namespace Evaluation

variable {files : List SourceFile}

theorem body_mem_bodiesOf {e : Entry} (he : e ∈ entriesOf files) :
    e.decl.body ∈ bodiesOf files := by
  obtain ⟨file, hfile, he⟩ := mem_flatMap.1 he
  obtain ⟨item, hitem, he⟩ := mem_flatMap.1 he
  refine mem_flatMap.2 ⟨file, hfile, mem_flatMap.2 ⟨item, hitem, ?_⟩⟩
  cases item with
  | group =>
    obtain ⟨_, hm, rfl⟩ := List.mem_map.1 he
    obtain ⟨member, hmember, hmethod⟩ := mem_filterMap.1 hm
    refine mem_flatMap.2 ⟨member, hmember, ?_⟩
    cases member with
    | method =>
      cases hmethod
      exact mem_singleton_self _
    | field => cases hmethod
  | method =>
    cases mem_singleton.1 he
    exact mem_singleton_self _
  | statement => cases he

/-- The bodies of a declared program are those of the files, folded. -/
theorem declare_bodies (scripts : ScriptTable) (files : List SourceFile) :
    (declared scripts files).program.BodiesFrom (bodiesOf files) := by
  intro _ hm
  obtain ⟨_, he, _, rfl⟩ := exists_entry_of_declared hm
  unfold Entry.method
  dsimp only
  split
  · exact .inl rfl
  · exact .inr ⟨_, body_mem_bodiesOf ((kept_sublist _ _).subset he), rfl⟩

theorem declare_fits {scripts : ScriptTable} (h : LiteralsFit files) {m : Method}
    (hm : m ∈ (declared scripts files).program.methods) : Stmt.allFit m.statements = true := by
  rcases declare_bodies scripts files m hm with hnone | ⟨body, hbody, hfolded⟩
  · rw [hnone]
    rfl
  · rw [hfolded]
    exact Stmt.allFit_foldAll _ body (List.all_eq_true.1 h body hbody)

end Evaluation

/-! ## Resolution -/

/-- Literals that fit in all places of a statement. -/
def Demands.fitting : Demands where
  effect e := e.fits = true
  condition e := e.fits = true
  result v := ∀ e ∈ v, e.fits = true

section

variable {site : Site} {names : NameStack}

theorem Expr.fits_lexical (e : Expr) :
    ∀ e', e.lexical site names = .ok e' → e.fits = true → e'.fits = true := by
  refine lexical_induction (P := fun e e' => e.fits = true → e'.fits = true)
    (fun _ _ hfits => hfits) (fun _ _ _ _ => rfl) ?_ (fun _ _ _ _ _ _ hv => hv) ?_
    (fun _ _ _ _ ho => ho) e
  · intro _ _ _ span _ _ hl hr hfits
    simp only [Expr.fits, Bool.and_eq_true] at hfits
    simp only [Expr.fits, hl hfits.1, hr hfits.2, Bool.and_self]
  · intro _ args _ span args' _ _ hargs _ _ hfits
    refine (allFit_iff args').2 fun a' ha' => ?_
    obtain ⟨a, ha, hresolved⟩ := hargs a' ha'
    exact hresolved ((allFit_iff args).1 hfits a ha)

theorem Expr.fits_default? {type : Primitive} {e : Expr} (h : Expr.default? type = some e) :
    e.fits = true := by
  cases type <;> simp only [Expr.default?, Option.some.injEq, reduceCtorEq] at h <;> subst h <;>
    decide

theorem Part.Resolved.fitting {slots : Int → Option Primitive} {x y : Part}
    (h : Part.Resolved site slots x y) (hx : ∀ e ∈ x.expressions, e.fits = true) :
    Demands.fitting.Holds y :=
  h.holds (fun e he _ e' _ h => Expr.fits_lexical e e' h (hx e he))
    (fun _ _ => Expr.fits_default?) fun _ _ _ _ _ _ hv => hv

end

/-! ## Checking -/

section

variable {p : Program} {e e' : Expr}

theorem Primitive.fits_clamp {n : Int} (t : Primitive) (h : Integer.fits 128 n = true) :
    Integer.fits 128 (t.clamp n) = true := by
  have hmin : Integer.fits 128 t.minValue = true := by cases t <;> decide
  have hmax : Integer.fits 128 t.maxValue = true := by cases t <;> decide
  unfold clamp
  split
  · exact hmin
  · split
    · exact hmax
    · exact h

theorem Expr.fits_coerce {t : Primitive} (hfits : e.fits = true)
    (h : (e.coerce p t).outcome = .ok e') : e'.fits = true := by
  rcases coerce_cases h with ⟨rfl, -⟩ | ⟨_, _, rfl, -, rfl⟩ | ⟨rfl, -⟩
  · exact hfits
  · exact t.fits_clamp hfits
  · exact hfits

theorem Expr.fits_fitOperand {common : Primitive} (hfits : e.fits = true)
    (h : (e.fitOperand common).outcome = .ok e') : e'.fits = true := by
  rcases fitOperand_cases h with ⟨rfl, -⟩ | ⟨_, _, rfl, -, rfl⟩
  · exact hfits
  · exact common.fits_clamp hfits

theorem Expr.fits_check (e : Expr) :
    ∀ e', (e.check p).outcome = .ok e' → e.fits = true → e'.fits = true := by
  refine check_induction (P := fun e e' => e.fits = true → e'.fits = true)
    (fun _ _ hfits => hfits) (fun _ hfits => hfits) ?_ ?_ ?_ (fun _ _ _ _ ho => ho) e
  · intro _ _ _ span _ _ _ _ _ _ _ hl hr _ _ _ hl₂ hr₂ _ hfits
    simp only [Expr.fits, Bool.and_eq_true] at hfits
    have hleft := fits_fitOperand (hl hfits.1) hl₂
    have hright := fits_fitOperand (hr hfits.2) hr₂
    simp only [Expr.fits, hleft, hright, Bool.and_self]
  · intro target _ span _ _ value₂ hv _ hv₂ hfits
    show value₂.fits = true
    exact fits_coerce (hv hfits) hv₂
  · intro target args _ span _ args' hargs _ ha hfits
    have hall := (allFit_iff args).1 hfits
    obtain ⟨-, -, hchecked⟩ := forall_of_checkArguments (Q := fun a _ => a.fits = true)
      (fun a hmem _ a₁ _ h₁ h₂ => fits_coerce (hargs a hmem a₁ h₁ (hall a hmem)) h₂) ha
    exact (allFit_iff args').2 fun a ha => (hchecked a ha).elim fun _ h => h

end

theorem Demands.checks_fitting (p : Program) (m : Method) : Demands.fitting.Checks p m .fitting where
  effect e e' he hok := e.fits_check e' hok he
  condition e e' he hok := e.fits_check e' (Expr.checkCondition_ok hok).1 he
  result v v' span hv hok := by
    rcases Method.checkReturn_ok hok with ⟨-, rfl, -⟩ | ⟨e, e₁, _, rfl, rfl, -, h₁, h₂⟩
    · intro e he
      cases he
    · intro e' he'
      cases he'
      exact Expr.fits_coerce (e.fits_check e₁ h₁ (hv e rfl)) h₂

theorem Evaluation.check_fits {s : Evaluation} {id : MethodId} {m : Method}
    (hs : ∀ m ∈ s.program.methods, Stmt.allFit m.statements = true)
    (h : s.resolve.check.program.methodAt? id = some m) (hext : m.external = false) :
    Stmt.AllMeet .fitting m.statements := by
  obtain ⟨m₁, h₁, he₁, rfl⟩ := exists_check_eq h hext
  obtain ⟨m₀, h₀, hm₁⟩ := exists_resolve_eq h₁ he₁
  have hresolved : Stmt.AllMeet .fitting m₁.statements := by
    rw [hm₁]
    refine Stmt.AllThroughout.meets _ ((Stmt.allThroughout_iff _ _).2 fun _ hy => ?_)
    obtain ⟨x, hx, -, hxy⟩ := (m₀.resolve_rewrites s.program).1.exists_of_mem hy
    exact hxy.fitting ((Stmt.allFit_iff _).1 (hs m₀ (mem_of_getElem? h₀)) x hx)
  exact Method.check_meets (Demands.checks_fitting _ m₁) hresolved

end ScriptCompiler
