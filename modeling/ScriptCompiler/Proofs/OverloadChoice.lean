import Mathlib.Data.List.MinMax
import ScriptCompiler.Overload
import ScriptCompiler.Proofs.Results

/-!
# The chosen overload

Of the candidates that accept the arguments, the first one of least cost is chosen
(`Overload.best?_eq_some_iff`). A conversion that changes nothing is the only free one, so an exact
candidate is among the cheapest, and looking for one first changes no choice.
-/

set_option autoImplicit false

namespace ScriptCompiler

open List Option

theorem Conversion.between?_eq_identity_iff {source target : Primitive} :
    between? source target = some .identity ↔ source = target := by
  unfold between?
  split
  · simp_all
  · repeat' split
    all_goals simp_all

namespace Overload

variable {accept : Conversion → Bool} {p : Program} {candidates : List MethodId}
  {params arguments : Types} {found : List Overload} {o : Overload} {id : MethodId}

/-! ## Candidates -/

/-- The conversions of arguments are those to the parameters in the same places. -/
theorem conversions?_eq_some_iff {conversions : List Conversion} :
    conversions? accept params arguments = some conversions ↔
      arguments.length = params.length ∧
        List.zipWith Conversion.between? arguments params = conversions.map some ∧
        ∀ c ∈ conversions, accept c = true := by
  induction params generalizing arguments conversions with
  | nil => cases arguments <;> cases conversions <;> simp [conversions?]
  | cons _ _ ih =>
    cases arguments with
    | nil => simp [conversions?]
    | cons =>
      simp only [conversions?, bind_eq_bind, bind_eq_some_iff,
        ite_none_right_eq_some, ih, length_cons, Nat.add_right_cancel_iff,
        zipWith_cons_cons, Option.some.injEq]
      constructor
      · rintro ⟨c, hc, haccept, rest, ⟨hlen, hzip, hrest⟩, rfl⟩
        exact ⟨hlen, by rw [hc, hzip, map_cons], forall_mem_cons.2 ⟨haccept, hrest⟩⟩
      · rintro ⟨hlen, hzip, haccept⟩
        obtain ⟨c, rest, rfl, hc, hrest⟩ := map_eq_cons_iff.1 hzip.symm
        obtain ⟨hfirst, haccept⟩ := forall_mem_cons.1 haccept
        exact ⟨c, hc.symm, hfirst, rest, ⟨hlen, hrest.symm, haccept⟩, rfl⟩

/-- A method that has as many parameters as there are arguments, with the implicit conversion of
each argument to its parameter. -/
def Viable (p : Program) (arguments : Types) (o : Overload) : Prop :=
  ∃ m, p.methodAt? o.method = some m ∧ arguments.length = m.parameterTypes.length ∧
    List.zipWith Conversion.between? arguments m.parameterTypes = o.conversions.map some

/-- A viable candidate all of whose conversions are accepted. -/
def Accepts (accept : Conversion → Bool) (p : Program) (arguments : Types) (o : Overload) : Prop :=
  o.Viable p arguments ∧ ∀ c ∈ o.conversions, accept c = true

theorem score?_eq_some_iff :
    score? accept p arguments id = some o ↔ o.method = id ∧ o.Accepts accept p arguments := by
  simp only [score?, bind_eq_bind, bind_eq_some_iff, conversions?_eq_some_iff,
    Option.some.injEq, Accepts, Viable]
  constructor
  · rintro ⟨m, hm, conversions, ⟨hlen, hzip, haccept⟩, rfl⟩
    exact ⟨rfl, ⟨m, hm, hlen, hzip⟩, haccept⟩
  · rintro ⟨rfl, ⟨m, hm, hlen, hzip⟩, haccept⟩
    exact ⟨m, hm, o.conversions, ⟨hlen, hzip, haccept⟩, rfl⟩

/-! ## The cheapest one -/

theorem foldl_better (found : List Overload) : found.foldl better none = found.argmin cost := by
  have hstep : better = List.argAux fun next best => next.cost < best.cost := by
    funext best next
    cases best <;> rfl
  rw [hstep]
  rfl

/-- The first overload of least cost is chosen. -/
theorem argmin_eq_some_iff :
    found.argmin cost = some o ↔ ∃ before after, found = before ++ o :: after ∧
      (∀ x ∈ before, o.cost < x.cost) ∧ ∀ x ∈ after, o.cost ≤ x.cost := by
  rw [List.argmin_eq_some_iff]
  constructor
  · rintro ⟨ho, hleast, hfirst⟩
    obtain ⟨before, after, rfl, hnew⟩ := eq_append_cons_of_mem ho
    refine ⟨before, after, rfl, fun x hx => ?_, fun x hx => hleast x (by simp [hx])⟩
    by_contra hle
    have hindex := hfirst x (by simp [hx]) (Nat.not_lt.1 hle)
    rw [idxOf_append_of_notMem hnew, idxOf_append_of_mem hx] at hindex
    have hlt := idxOf_lt_length_of_mem hx
    omega
  · rintro ⟨before, after, rfl, hbefore, hafter⟩
    have hnew : o ∉ before := fun ho => Nat.lt_irrefl _ (hbefore o ho)
    refine ⟨by simp, ?_, fun x _ hle => ?_⟩
    · simp only [forall_mem_append, forall_mem_cons]
      exact ⟨fun x hx => Nat.le_of_lt (hbefore x hx), Nat.le_refl _, hafter⟩
    · have hx : x ∉ before := fun hx => absurd (hbefore x hx) (Nat.not_lt.2 hle)
      rw [idxOf_append_of_notMem hnew, idxOf_append_of_notMem hx, idxOf_cons_self]
      omega

/-- The chosen candidate is the first one of least cost among those that accept the arguments. -/
theorem best?_eq_some_iff :
    best? accept p candidates arguments = some o ↔ o.Accepts accept p arguments ∧
      ∃ before after, candidates = before ++ o.method :: after ∧
        (∀ o' : Overload, o'.method ∈ before → o'.Accepts accept p arguments → o.cost < o'.cost) ∧
        ∀ o' : Overload, o'.method ∈ after → o'.Accepts accept p arguments → o.cost ≤ o'.cost := by
  have hmem : ∀ (ids : List MethodId) (P : Overload → Prop),
      (∀ x ∈ ids.filterMap (score? accept p arguments), P x) ↔
        ∀ x : Overload, x.method ∈ ids → x.Accepts accept p arguments → P x := by
    intro ids P
    simp only [mem_filterMap, score?_eq_some_iff]
    exact ⟨fun h x hx ha => h x ⟨_, hx, rfl, ha⟩, fun h x ⟨_, hx, hid, ha⟩ => h x (hid ▸ hx) ha⟩
  rw [best?, foldl_better, argmin_eq_some_iff]
  constructor
  · rintro ⟨before, after, heq, hbefore, hafter⟩
    obtain ⟨first, _, rfl, rfl, hlast⟩ := filterMap_eq_append_iff.1 heq
    obtain ⟨skipped, _, rest, rfl, hskipped, hid, rfl⟩ := filterMap_eq_cons_iff.1 hlast
    obtain ⟨rfl, ho⟩ := score?_eq_some_iff.1 hid
    refine ⟨ho, first ++ skipped, rest, (append_assoc ..).symm, ?_, (hmem _ _).1 hafter⟩
    rw [← hmem, filterMap_append, filterMap_eq_nil_iff.2 hskipped, append_nil]
    exact hbefore
  · rintro ⟨ho, before, after, rfl, hbefore, hafter⟩
    refine ⟨_, _, ?_, (hmem _ _).2 hbefore, (hmem _ _).2 hafter⟩
    rw [filterMap_append, filterMap_cons_some (score?_eq_some_iff.2 ⟨rfl, ho⟩)]

theorem best?_eq_none_iff : best? accept p candidates arguments = none ↔
      ∀ o : Overload, o.method ∈ candidates → ¬ o.Accepts accept p arguments := by
  rw [best?, foldl_better, argmin_eq_none, filterMap_eq_nil_iff]
  simp only [eq_none_iff_forall_ne_some, ne_eq, score?_eq_some_iff, not_and]
  exact ⟨fun h o ho => h _ ho o rfl, fun h id hid o ho => h o (ho ▸ hid)⟩

/-! ## Exact candidates -/

theorem cost_eq_zero_iff : o.cost = 0 ↔ ∀ c ∈ o.conversions, c.isExact = true := by
  have hc : ∀ c : Conversion, c.cost = 0 ↔ c.isExact = true := by
    intro c
    cases c <;> decide
  simp [cost, List.sum_eq_zero_iff_forall_eq_nat, hc]

theorem resolve?_eq_coercible? :
    resolve? p candidates arguments = coercible? p candidates arguments := by
  unfold resolve?
  cases h : exactMatch? p candidates arguments with
  | none => rfl
  | some =>
    symm
    obtain ⟨⟨hviable, hexact⟩, before, after, heq, hbefore, -⟩ := best?_eq_some_iff.1 h
    have hfree := cost_eq_zero_iff.2 hexact
    refine best?_eq_some_iff.2 ⟨⟨hviable, fun _ _ => rfl⟩, before, after, heq, ?_, ?_⟩
    · intro o' ho' hviable'
      rw [hfree]
      refine Nat.pos_of_ne_zero fun hzero => ?_
      exact absurd (hbefore o' ho' ⟨hviable'.1, cost_eq_zero_iff.1 hzero⟩) (by omega)
    · intro o' _ _
      omega

theorem conversions?_isExact : conversions? Conversion.isExact params arguments =
      if params = arguments then some (List.replicate arguments.length .identity) else none := by
  induction params generalizing arguments with
  | nil => cases arguments <;> simp [conversions?]
  | cons parameter params ih =>
    cases arguments with
    | nil => simp [conversions?]
    | cons arg arguments =>
      rw [conversions?, ih]
      by_cases heq : arg = parameter
      · subst heq
        rw [Conversion.between?_eq_identity_iff.2 rfl]
        by_cases hrest : params = arguments <;>
          simp [hrest, Conversion.isExact, replicate_succ]
      · cases hc : Conversion.between? arg parameter with
        | none => simp [Ne.symm heq]
        | some c =>
          have hne : c.isExact = false := by
            rw [Conversion.isExact, beq_eq_false_iff_ne]
            rintro rfl
            exact heq (Conversion.between?_eq_identity_iff.1 hc)
          simp [hne, Ne.symm heq]

theorem accepts_isExact_iff : o.Accepts Conversion.isExact p arguments ↔
      (p.methodAt? o.method).map Method.parameterTypes = some arguments ∧
        o.conversions = List.replicate arguments.length .identity := by
  have hscore : score? Conversion.isExact p arguments o.method = some o ↔
      o.Accepts Conversion.isExact p arguments := score?_eq_some_iff.trans (and_iff_right rfl)
  rw [← hscore, score?]
  obtain ⟨method, conversions⟩ := o
  cases p.methodAt? method with
  | none => simp
  | some m =>
    by_cases heq : m.parameterTypes = arguments
    · simpa [conversions?_isExact, heq] using eq_comm
    · simp [conversions?_isExact, heq]

theorem exactMatch?_eq : exactMatch? p candidates arguments = (candidates.find? fun id =>
        decide ((p.methodAt? id).map Method.parameterTypes = some arguments)).map
        fun id => ⟨id, List.replicate arguments.length .identity⟩ := by
  cases hfind : candidates.find? fun id =>
      decide ((p.methodAt? id).map Method.parameterTypes = some arguments) with
  | none =>
    refine best?_eq_none_iff.2 fun o ho haccepts => ?_
    exact List.find?_eq_none.1 hfind _ ho (decide_eq_true (accepts_isExact_iff.1 haccepts).1)
  | some id =>
    obtain ⟨hid, before, after, rfl, hbefore⟩ := find?_eq_some_iff_append.1 hfind
    have haccepts : (⟨id, List.replicate arguments.length .identity⟩ : Overload).Accepts
        Conversion.isExact p arguments := accepts_isExact_iff.2 ⟨of_decide_eq_true hid, rfl⟩
    refine best?_eq_some_iff.2 ⟨haccepts, before, after, rfl, fun o ho ho' => ?_, fun o _ _ => ?_⟩
    · have hother := hbefore _ ho
      simp [(accepts_isExact_iff.1 ho').1] at hother
    · rw [cost_eq_zero_iff.2 haccepts.2]
      exact Nat.zero_le _

/-- A call takes the first one of least cost among the candidates that have a parameter for each
argument and an implicit conversion to it, and no candidate if none has. It would take the same one
without looking for an exact candidate, which is the first one whose parameters have the types of
the arguments. -/
theorem overload_choice (p : Program) (candidates : List MethodId) (arguments : List Primitive) :
    resolve? p candidates arguments = coercible? p candidates arguments ∧
      (coercible? p candidates arguments = none ↔
        ∀ o : Overload, o.method ∈ candidates → ¬ o.Viable p arguments) ∧
      (∀ o, coercible? p candidates arguments = some o ↔ o.Viable p arguments ∧
        ∃ before after, candidates = before ++ o.method :: after ∧
          (∀ o' : Overload, o'.method ∈ before → o'.Viable p arguments → o.cost < o'.cost) ∧
          ∀ o' : Overload, o'.method ∈ after → o'.Viable p arguments → o.cost ≤ o'.cost) ∧
      exactMatch? p candidates arguments = (candidates.find? fun id =>
          decide ((p.methodAt? id).map Method.parameterTypes = some arguments)).map
          fun id => ⟨id, List.replicate arguments.length .identity⟩ := by
  have hviable : ∀ o : Overload, o.Accepts (fun _ => true) p arguments ↔ o.Viable p arguments :=
    fun o => and_iff_left fun _ _ => rfl
  refine ⟨resolve?_eq_coercible?, ?_, fun o => ?_, exactMatch?_eq⟩
  · simp only [coercible?, best?_eq_none_iff, hviable]
  · simp only [coercible?, best?_eq_some_iff, hviable]

end Overload

end ScriptCompiler
