import ScriptCompiler.Proofs.Commands
import ScriptCompiler.Wat.Compile

/-!
# Lines added to a function under way

Compiling code from a state adds lines to the part that is open, whatever that part
is, and changes the noted types and the scratch locals (`State.advance`). A pair of
scratch locals is made for a value type when it is first needed; the pairs are
numbered behind the parameters and locals in the order in which they are made.
-/

set_option autoImplicit false

namespace ScriptCompiler.Wat

open List

/-! ## Adding lines -/

/-- Adds lines to the part that is being filled. -/
def OpenBranch.addAll (b : OpenBranch) (lines : Body) : OpenBranch :=
  match b.alternative with
  | some more => { b with alternative := some (more ++ lines) }
  | none => { b with body := b.body ++ lines }

theorem OpenBranch.addAll_addAll (b : OpenBranch) (x y : Body) :
    (b.addAll x).addAll y = b.addAll (x ++ y) := by
  obtain ⟨_, alternative⟩ := b
  cases alternative <;> simp [OpenBranch.addAll]

namespace State

/-- Adds lines to the innermost part that is open. -/
def addAll (s : State) (lines : Body) : State :=
  match s.branches with
  | b :: rest => { s with branches := b.addAll lines :: rest }
  | [] => { s with body := s.body ++ lines }

/-- The state after lines that leave these types and scratch locals. -/
def advance (s : State) (lines : Body) (types : Types)
    (scratch : List (ValueType × Nat)) : State :=
  { s.addAll lines with types, scratch }

section

variable (s : State) (x y : Body) (σ τ : Types) (S R : List (ValueType × Nat))

theorem addAll_nil : s.addAll [] = s := by
  unfold addAll
  split
  · rename_i b rest hbranches
    have hsame : b.addAll [] = b := by
      obtain ⟨body, alternative⟩ := b
      cases alternative <;> simp [OpenBranch.addAll]
    rw [hsame, ← hbranches]
  · rw [append_nil]

theorem addAll_note : { s with types := σ, scratch := S }.addAll x = s.advance x σ S := by
  unfold advance addAll
  cases s.branches <;> rfl

@[simp] theorem types_advance : (s.advance x σ S).types = σ := rfl

@[simp] theorem scratch_advance : (s.advance x σ S).scratch = S := rfl

theorem note_eq_advance : { s with types := σ, scratch := S } = s.advance [] σ S := by
  rw [← addAll_note, addAll_nil]

@[simp] theorem note_scratch_advance :
    { s.advance x σ S with scratch := R } = s.advance x σ R := rfl

@[simp] theorem advance_advance : (s.advance x σ S).advance y τ R = s.advance (x ++ y) τ R := by
  unfold advance addAll
  cases hbranches : s.branches with
  | nil => simp
  | cons => simp [OpenBranch.addAll_addAll]

@[simp] theorem add_advance (line : Line Op) :
    (s.advance x σ S).add line = s.advance (x ++ [line]) σ S := by
  have hadd : ∀ r : State, r.add line = r.addAll [line] := by
    intro r
    unfold add addAll
    cases r.branches with
    | nil => rfl
    | cons b =>
      obtain ⟨_, alternative⟩ := b
      cases alternative <;> rfl
  have hsame : (s.advance x σ S).addAll [line] = (s.advance x σ S).advance [line] σ S :=
    (s.advance x σ S).addAll_note [line] σ S
  rw [hadd, hsame, advance_advance]

@[simp] theorem emit_advance (op : Op) :
    (s.advance x σ S).emit op = s.advance (x ++ [.op op]) σ S :=
  s.add_advance x σ S (.op op)

@[simp] theorem emitAll_advance (ops : List Op) :
    (s.advance x σ S).emitAll ops = s.advance (x ++ ops.map .op) σ S := by
  unfold emitAll
  induction ops generalizing x with
  | nil => rw [foldl_nil, map_nil, append_nil]
  | cons _ _ ih =>
    rw [foldl_cons, emit_advance, ih, append_assoc]
    rfl

@[simp] theorem push_advance (t : Primitive) :
    (s.advance x σ S).push t = s.advance x (t :: σ) S := rfl

end

variable (s : State)

theorem eq_advance : s = s.advance [] s.types s.scratch := by rw [← note_eq_advance]

theorem emitAll_eq_advance (ops : List Op) :
    s.emitAll ops = s.advance (ops.map .op) s.types s.scratch := by
  have h := s.emitAll_advance [] s.types s.scratch ops
  rwa [← s.eq_advance, nil_append] at h

theorem emit_eq_advance (op : Op) : s.emit op = s.advance [.op op] s.types s.scratch :=
  s.emitAll_eq_advance [op]

end State

variable (c : Context) (i : Instruction)

theorem steps_cons (rest : Code) (s : State) :
    steps c (i :: rest) s = step c i s >>= steps c rest := rfl

theorem steps_append (a b : Code) (s : State) : steps c (a ++ b) s = steps c a s >>= steps c b := by
  induction a generalizing s with
  | nil => rfl
  | cons i rest ih =>
    rw [cons_append]
    show step c i s >>= steps c (rest ++ b) = (step c i s >>= steps c rest) >>= steps c b
    cases step c i s with
    | error => rfl
    | ok s' => exact ih s'

theorem steps_singleton (s : State) : steps c [i] s = step c i s := by
  show step c i s >>= steps c [] = step c i s
  cases step c i s <;> rfl

/-! ## Conditionals under way -/

/-- The state with one more conditional open. -/
def State.opened (s : State) (b : OpenBranch) : State := { s with branches := b :: s.branches }

section

variable (c : Context) (s : State) (b : OpenBranch)

/-- Lines go to the part that is open; what is noted stays when it is closed. -/
theorem State.advance_opened (lines : Body) (σ : Types) (S : List (ValueType × Nat)) :
    (s.opened b).advance lines σ S = (s.advance [] σ S).opened (b.addAll lines) := by
  rw [← s.note_eq_advance]
  rfl

theorem otherwise_opened (body : Body) :
    otherwise c (s.opened { body }) = .ok (s.opened { body, alternative := some [] }) := rfl

theorem endBranch_opened : endBranch c (s.opened b) = .ok (s.add b.close) := rfl

/-- Only a conditional that is not divided yet can be divided. -/
theorem otherwise_ok {c : Context} {s s' : State} (h : otherwise c s = .ok s') :
    ∃ r body, s = State.opened r { body } ∧ s' = State.opened r { body, alternative := some [] } := by
  obtain ⟨types, lines, branches, scratch, memory⟩ := s
  match branches with
  | [] => cases h
  | ⟨body, some more⟩ :: rest => cases h
  | ⟨body, none⟩ :: rest =>
    cases h
    exact ⟨⟨types, lines, rest, scratch, memory⟩, body, rfl, rfl⟩

theorem endBranch_ok {c : Context} {s s' : State} (h : endBranch c s = .ok s') :
    ∃ r b, s = State.opened r b ∧ s' = r.add b.close := by
  obtain ⟨types, lines, branches, scratch, memory⟩ := s
  match branches with
  | [] => cases h
  | b :: rest =>
    cases h
    exact ⟨⟨types, lines, rest, scratch, memory⟩, b, rfl, rfl⟩

end

section

variable {c : Context} {i : Instruction}

theorem step_otherwise (hi : i.command? = some .otherwise) (s : State) :
    step c i s = otherwise c s := by
  rw [step, i.opcode_of_command? hi]
  rfl

theorem step_endBranch (hi : i.command? = some .endBranch) (s : State) :
    step c i s = endBranch c s := by
  rw [step, i.opcode_of_command? hi]
  rfl

end

theorem exists_of_getLast?_ret {lines : Body}
    (h : lines.getLast?.any (Line.isOp .ret) = true) : ∃ front, lines = front ++ [.op .ret] := by
  obtain ⟨line, hline, hret⟩ := (Option.any_eq_true _ _).1 h
  obtain ⟨front, rfl⟩ := getLast?_eq_some_iff.1 hline
  cases line with
  | op a =>
    obtain rfl : Op.ret = a := beq_iff_eq.1 hret
    exact ⟨front, rfl⟩
  | ifThen | ifElse => cases hret

/-! ## Memory -/

namespace State

/-- The state with another memory. -/
def storing (s : State) (memory : Memory) : State := { s with memory }

variable (s : State) (memory memory' : Memory)

@[simp] theorem storing_storing : (s.storing memory).storing memory' = s.storing memory' := rfl

theorem storing_memory : s.storing s.memory = s := rfl

@[simp] theorem storing_opened (b : OpenBranch) :
    (s.opened b).storing memory = (s.storing memory).opened b := rfl

@[simp] theorem storing_advance (lines : Body) (σ : Types) (S : List (ValueType × Nat)) :
    (s.advance lines σ S).storing memory = (s.storing memory).advance lines σ S := by
  unfold advance addAll storing
  cases s.branches <;> rfl

end State

/-! ## Operands on the noted stack -/

section

variable {c : Context} {i : Instruction} {s : State}

theorem pop_eq {t : Primitive} {rest : Types} (h : s.types = t :: rest) :
    s.pop c i = .ok (t, s.advance [] rest s.scratch) := by
  unfold State.pop
  rw [h, ← s.note_eq_advance]

theorem popMany_eq {taken rest : Types} (h : s.types = taken ++ rest) :
    s.popMany c i taken.length = .ok (s.advance [] rest s.scratch) := by
  induction taken generalizing s with
  | nil =>
    rw [nil_append] at h
    rw [← h, ← s.eq_advance]
    rfl
  | cons _ taken ih =>
    have hrest := @ih (s.advance [] (taken ++ rest) s.scratch) rfl
    rw [length_cons, State.popMany, pop_eq h, ok_bind]
    show State.popMany c i taken.length (s.advance [] (taken ++ rest) s.scratch) = _
    rw [hrest]
    simp

end

/-! ## Locals -/

/-- The number of the local in which a method keeps a parameter or local. -/
def slotOf (m : Method) (index : Int) : Nat :=
  if index < 0 then (-index - 1).toNat else m.parameters.length + index.toNat

/-- The number of parameters and locals; behind them are the scratch locals. -/
def slotCount (m : Method) : Nat := m.parameters.length + m.locals.length

section

variable {m : Method} {i j : Int} {t u : Primitive}

theorem slotOf_bounds (h : m.localType? i = some t) :
    slotOf m i < slotCount m ∧ (slotOf m i < m.parameters.length ↔ i < 0) := by
  unfold Method.localType? at h
  unfold slotOf slotCount
  by_cases hi : i < 0
  · rw [if_pos hi] at h ⊢
    obtain ⟨hlt, -⟩ := List.getElem?_eq_some_iff.1 h
    rw [Method.parameterTypes, length_map] at hlt
    omega
  · rw [if_neg hi] at h ⊢
    obtain ⟨hlt, -⟩ := List.getElem?_eq_some_iff.1 h
    omega

theorem slotOf_inj (hi : m.localType? i = some t) (hj : m.localType? j = some u)
    (h : slotOf m i = slotOf m j) : i = j := by
  obtain ⟨-, hparam⟩ := slotOf_bounds hi
  obtain ⟨-, hother⟩ := slotOf_bounds hj
  rw [h] at hparam
  have hsame : i < 0 ↔ j < 0 := hparam.symm.trans hother
  unfold slotOf at h
  by_cases hneg : i < 0
  · rw [if_pos hneg, if_pos (hsame.1 hneg)] at h
    have hneg' := hsame.1 hneg
    omega
  · have hneg' : ¬j < 0 := fun hlt => hneg (hsame.2 hlt)
    rw [if_neg hneg, if_neg hneg'] at h
    omega

theorem getElem?_slotOf (h : m.localType? i = some t) :
    (m.parameterTypes ++ m.locals)[slotOf m i]? = some t := by
  obtain ⟨-, hparam⟩ := slotOf_bounds h
  have hlen : m.parameterTypes.length = m.parameters.length := by
    rw [Method.parameterTypes, length_map]
  unfold Method.localType? at h
  unfold slotOf at hparam ⊢
  by_cases hi : i < 0
  · rw [if_pos hi] at h hparam ⊢
    rw [getElem?_append_left (by rw [hlen]; exact hparam.2 hi), h]
  · rw [if_neg hi] at h ⊢
    rw [← hlen, getElem?_append_right (Nat.le_add_right _ _), Nat.add_sub_cancel_left, h]

theorem localOf_eq {c : Context} {x : Instruction} (hindex : x.number? 0 = some i)
    (hi : Integer.isIndex i = true) (ht : c.method.localType? i = some t) :
    localOf c x = .ok (slotOf c.method i, t) := by
  simp only [localOf, x.localIndex_of_number? hindex hi, reading, ok_bind, Method.localType,
    checkIndex_eq hi, ht, Except.pure_eq_ok]
  rfl

end

/-! ## Scratch locals -/

/-- Whether pairs of scratch locals are numbered behind the other locals of a method, one after the
other. -/
def Numbered (m : Method) (S : List (ValueType × Nat)) : Prop :=
  ∀ k e, S[k]? = some e → e.2 = slotCount m + 2 * k

theorem scratchPair_spec (s : State) (v : ValueType) (h : Numbered c.method s.scratch) :
    ∃ S first, s.scratchPair c v = ({ s with scratch := S }, first) ∧ s.scratch ⊆ S ∧
      Numbered c.method S ∧ (v, first) ∈ S := by
  unfold State.scratchPair
  split
  · rename_i e he
    exact ⟨s.scratch, e.2, rfl, List.Subset.refl _, h, mem_of_find?_key he⟩
  · refine ⟨_, _, rfl, subset_append_left _ _, ?_, by simp⟩
    intro k e he
    by_cases hk : k < s.scratch.length
    · rw [getElem?_append_left hk] at he
      exact h k e he
    · rw [getElem?_append_right (Nat.le_of_not_lt hk)] at he
      obtain ⟨hlt, hsame⟩ := List.getElem?_eq_some_iff.1 he
      rw [length_singleton] at hlt
      have hlast : k = s.scratch.length := by omega
      rw [getElem_singleton] at hsame
      rw [← hsame, hlast]
      rfl

/-- Whether pairs of scratch locals are among the locals of a function, behind the slots. -/
def Fits (m : Method) (locals : List ValueType) (S : List (ValueType × Nat)) : Prop :=
  ∀ e ∈ S, slotCount m ≤ e.2 ∧ locals[e.2]? = some e.1 ∧ locals[e.2 + 1]? = some e.1

section

variable {m : Method} {locals : List ValueType} {S R : List (ValueType × Nat)}

theorem Fits.mono (h : Fits m locals R) (hsub : S ⊆ R) : Fits m locals S :=
  fun e he => h e (hsub he)

theorem getElem?_pairs (S : List (ValueType × Nat)) (k : Nat) :
    (S.flatMap fun e => [e.1, e.1])[2 * k]? = S[k]?.map Prod.fst ∧
      (S.flatMap fun e => [e.1, e.1])[2 * k + 1]? = S[k]?.map Prod.fst := by
  induction S generalizing k with
  | nil => simp
  | cons _ _ ih =>
    cases k with
    | zero => exact ⟨rfl, rfl⟩
    | succ k => simpa [Nat.mul_succ] using ih k

/-- Pairs that are numbered are found where they are put, behind the slots. -/
theorem fits_append (hlocals : locals.length = slotCount m) (h : Numbered m S) :
    Fits m (locals ++ S.flatMap fun e => [e.1, e.1]) S := by
  intro e he
  obtain ⟨k, hk⟩ := getElem?_of_mem he
  have hnumber := h k e hk
  have hpair : ∀ j, (locals ++ S.flatMap fun e => [e.1, e.1])[slotCount m + j]? =
      (S.flatMap fun e => [e.1, e.1])[j]? := by
    intro j
    rw [← hlocals, getElem?_append_right (Nat.le_add_right _ _), Nat.add_sub_cancel_left]
  obtain ⟨hfirst, hsecond⟩ := getElem?_pairs S k
  rw [hk] at hfirst hsecond
  refine ⟨by omega, ?_, ?_⟩
  · rw [hnumber, hpair, hfirst]
    rfl
  · rw [hnumber, Nat.add_assoc, hpair, hsecond]
    rfl

end

end ScriptCompiler.Wat
