import ScriptCompiler.Proofs.Wat.Simulation
import ScriptCompiler.Proofs.X86.StraightLine

/-!
# Division on both targets

A division of the processor finds quotient and remainder at once, and is refused if the divisor is
zero or the quotient does not fit. In a module they are two operations, of which only that of the
quotient can overflow. So a division of integers of at most 32 bits ends alike on both targets, but
for one remainder: that of the least `i32` by minus one.
-/

set_option autoImplicit false

namespace ScriptCompiler

open List Option Primitive

/-! ## Quotients of words -/

/-- The number that a division asks for, of the dividend and the divisor. -/
def BinaryOp.divided (op : BinaryOp) (a b : Int) : Int :=
  if op = .rem then a.tmod b else a.tdiv b

/-- Whether the quotient of two values of a type of words has more than 32 bits: the least `i32` is
divided by minus one. -/
def Overflows (t : Primitive) (a b : Int) : Prop := t = .i32 ∧ a = Integer.least 32 ∧ b = -1

section

variable {t : Primitive} {a b : Int}

instance : Decidable (Overflows t a b) :=
  inferInstanceAs (Decidable (t = .i32 ∧ a = Integer.least 32 ∧ b = -1))

theorem eq_i32_of_holds_least (ht : t.isWord = true) (hs : t.isSigned = true)
    (h : t.holds (Integer.least 32) = true) : t = .i32 := by
  revert ht hs h
  cases t <;> decide

/-- A quotient by a unit is the dividend or its negation, and any other divisor at least halves it. -/
theorem tdiv_bounded_iff (hlow : -(2 ^ 31) ≤ a) (hhigh : a ≤ 2 ^ 31 - 1) :
    (-(2 ^ 31) ≤ a.tdiv b ∧ a.tdiv b ≤ 2 ^ 31 - 1) ↔ ¬(a = -(2 ^ 31) ∧ b = -1) := by
  have habs : (a.tdiv b).natAbs = a.natAbs / b.natAbs := Int.natAbs_tdiv a b
  constructor
  · rintro hq ⟨rfl, rfl⟩
    exact absurd hq (by decide)
  · intro _
    by_cases hunit : b.natAbs = 1
    · obtain rfl | rfl : b = 1 ∨ b = -1 := by omega
      · rw [Int.tdiv_one]
        omega
      · rw [Int.tdiv_neg, Int.tdiv_one]
        omega
    · have hhalf : a.natAbs / b.natAbs ≤ a.natAbs / 2 := by
        rcases Nat.eq_zero_or_pos b.natAbs with hzero | _
        · rw [hzero, Nat.div_zero]
          exact Nat.zero_le _
        · exact Nat.div_le_div_left (by omega) (by decide)
      omega

theorem fits_tdiv_iff (ht : t.isWord = true) (hs : t.isSigned = true) (ha : t.holds a = true) :
    Integer.fits 32 (a.tdiv b) = true ↔ ¬Overflows t a b := by
  have hbounds : ∀ n, Integer.fits 32 n = true ↔ -(2 ^ 31) ≤ n ∧ n ≤ 2 ^ 31 - 1 := by
    intro n
    rw [Integer.fits, Bool.and_eq_true, decide_eq_true_eq, decide_eq_true_eq]
    exact Iff.rfl
  have hword := (hbounds a).1 (X86.fits_of_holds ht hs ha)
  rw [hbounds, tdiv_bounded_iff hword.1 hword.2]
  refine not_congr ⟨?_, fun h => h.2⟩
  rintro ⟨rfl, rfl⟩
  exact ⟨eq_i32_of_holds_least ht hs ha, rfl, rfl⟩

end

/-! ## The processor -/

namespace X86

namespace Cpu

/-- Whether an instruction ends in a divide error: it divides by a register, and gives no result. -/
def divideError (c : Cpu) : String → List Operand → Bool
  | "IDIV", [.register r] => (c.registers r r).isSome && (c.divideSigned r).isNone
  | "DIV", [.register r] => (c.registers r r).isSome && (c.divideUnsigned r).isNone
  | _, _ => false

/-- Whether straight lines end in a divide error. -/
def faults : List Line → Cpu → Bool
  | .instruction mnemonic operands :: rest, c =>
    c.divideError mnemonic operands || (c.execute mnemonic operands).any (faults rest)
  | _, _ => false

section

variable {a b : List Line} {c d : Cpu}

theorem execute_of_divideError {mnemonic : String} {operands : List Operand}
    (h : c.divideError mnemonic operands = true) : c.execute mnemonic operands = none := by
  unfold divideError at h
  split at h
  · exact isNone_iff_eq_none.1 (Bool.and_eq_true_iff.1 h).2
  · exact isNone_iff_eq_none.1 (Bool.and_eq_true_iff.1 h).2
  · cases h

theorem faults_append_of (h : run a c = some d) (b : List Line) :
    faults (a ++ b) c = faults b d := by
  induction a generalizing c with
  | nil =>
    cases h
    rfl
  | cons line _ ih =>
    cases line with
    | instruction mnemonic operands =>
      obtain ⟨_, he, hrest⟩ := bind_eq_some_iff.1 h
      have hpasses : c.divideError mnemonic operands = false := by
        rw [Bool.eq_false_iff]
        intro herror
        rw [execute_of_divideError herror] at he
        cases he
      rw [cons_append, faults, hpasses, he, Bool.false_or, any_some]
      exact ih hrest
    | jump => cases h
    | raw => cases h

theorem faults_of_run (h : run a c = some d) : faults a c = false := by
  have hsame := faults_append_of h []
  rw [append_nil] at hsame
  rw [hsame]
  rfl

end

end Cpu

section

variable {op : BinaryOp} {t : Primitive} {c : Cpu} {a b : Int}

theorem operatorLines_of_division (hop : op = .div ∨ op = .rem) (t : Primitive) :
    operatorLines op t = operatorLines.divisionLines t ++
      ((if op = .rem then [Line.instruction "MOV" [.register .eax, .register .edx]] else []) ++
        normalizeLines t) := by
  rcases hop with rfl | rfl <;> rfl

section

variable (ht : t.isWord = true) (ha : t.holds a = true) (hb : t.holds b = true)
  (heax : c.eax = BitVec.ofInt 32 a) (hecx : c.ecx = BitVec.ofInt 32 b)

include ht ha hb heax hecx

/-- Division by zero and overflow fault. -/
theorem faults_divisionLines (h : b = 0 ∨ Overflows t a b) (rest : List Line) :
    Cpu.faults (operatorLines.divisionLines t ++ rest) c = true := by
  have hzero : b = 0 → c.ecx = 0 := by
    rintro rfl
    rw [hecx]
    rfl
  unfold operatorLines.divisionLines
  by_cases hs : t.isSigned = true
  · have hrefused : c.fillSign.divideSigned .ecx = none := by
      apply if_pos
      show c.ecx = 0 ∨ Integer.fits 32 ((c.fillSign.edx ++ c.fillSign.eax).toInt.tdiv c.ecx.toInt) =
        false
      rw [toInt_fillSign, heax, hecx, toInt_ofInt (bits_pos ht) (bits_le ht) hs ha,
        toInt_ofInt (bits_pos ht) (bits_le ht) hs hb]
      refine h.imp (fun hb => hecx ▸ hzero hb) fun hlarge => ?_
      exact Bool.eq_false_iff.2 fun hfits => (fits_tdiv_iff ht hs ha).1 hfits hlarge
    have herror : c.fillSign.divideError "IDIV" [.register .ecx] = true :=
      congrArg Option.isNone hrefused
    rw [if_pos hs]
    show (Cpu.divideError _ "IDIV" [.register .ecx] || _) = true
    rw [herror, Bool.true_or]
  · have hzero : c.ecx = 0 := by
      refine hzero (h.resolve_right ?_)
      rintro ⟨rfl, -⟩
      exact hs rfl
    have hrefused : Cpu.divideUnsigned { c with
        edx := c.edx ^^^ c.edx
        zero := some (c.edx ^^^ c.edx == 0) } .ecx = none :=
      if_pos (.inl hzero)
    have herror : Cpu.divideError { c with
        edx := c.edx ^^^ c.edx
        zero := some (c.edx ^^^ c.edx == 0) } "DIV" [.register .ecx] = true :=
      congrArg Option.isNone hrefused
    rw [if_neg hs]
    show (Cpu.divideError _ "DIV" [.register .ecx] || _) = true
    rw [herror, Bool.true_or]

/-- The lines of a division leave its number cut to the type, where there is one. -/
theorem run_division (hop : op = .div ∨ op = .rem) (h : ¬(b = 0 ∨ Overflows t a b)) :
    ∃ d, Cpu.run (operatorLines op t) c = some d ∧
      d.eax = BitVec.ofInt 32 (t.lowBits (op.divided a b)) ∧ d.memory = c.memory := by
  obtain ⟨hne, hsmall⟩ := not_or.1 h
  obtain ⟨d, hd, hquot, hremainder, hmemory⟩ := run_divisionLines ht ha hb heax hecx hne
    fun hs => (fits_tdiv_iff ht hs ha).2 hsmall
  rcases hop with rfl | rfl
  · exact ⟨_, Cpu.run_append_of hd (run_normalizeLines ht hquot), rfl, hmemory⟩
  · have hmoved := @run_normalizeLines t ht { d with eax := d.edx } (a.tmod b) hremainder
    exact ⟨_, Cpu.run_append_of hd (Cpu.run_cons_of rfl hmoved), rfl, hmemory⟩

end

/-- Whether lines run to a state in which entries stand for values. -/
def Leaves (lines : List Line) (c : Cpu) (f : Frame) (vs : List StackValue)
    (σ : List (Primitive × Int)) (st : Store Int Unit) : Prop :=
  ∃ d, Cpu.run lines c = some d ∧ Represents f d vs σ st

/-- A division compiles to lines that end in a divide error exactly if the divisor is zero or the
quotient overflows, and leave the value otherwise. -/
theorem division_ends {k : Context} {i : Instruction} {s : State} {below : Types}
    (hi : i.command? = some (.operate op t)) (hop : op = .div ∨ op = .rem) (ht : t.isWord = true)
    (htidy : Tidy s.frame s.stack) (htypes : s.stack.map StackValue.type = t :: t :: below)
    (index : Nat) : ∃ lines f vs, step k index i s = .ok (s.advance lines f vs) ∧
      ∀ c a b σ st, Represents s.frame c s.stack ((t, a) :: (t, b) :: σ) st →
        (Cpu.faults lines c = true ↔ b = 0 ∨ Overflows t a b) ∧ (¬(b = 0 ∨ Overflows t a b) →
          Leaves lines c f vs ((t, t.lowBits (op.divided a b)) :: σ) st) := by
  obtain ⟨hopcode, htype⟩ := i.of_command? hi
  obtain ⟨left, rest, hstack, hleft, hrest⟩ := map_eq_cons_iff.1 htypes
  obtain ⟨right, rest, rfl, hright, -⟩ := map_eq_cons_iff.1 hrest
  obtain ⟨lines, f, _, hbinary, -, -, -, hnone, hload⟩ :=
    @binary_eq k i s rest t op left right htidy hopcode htype ht hstack hleft hright
  have hres : (if op.isComparison then Primitive.bool else t) = t := by
    rcases hop with rfl | rfl <;> rfl
  have hstep : step k index i s = binary k i s := by
    rw [step, hopcode]
    rcases hop with rfl | rfl <;> rfl
  rw [hres] at hbinary
  refine ⟨_, f, _, hstep.trans hbinary, ?_⟩
  intro c a b σ st hc
  obtain ⟨_, hd, heax, hecx, ha, hb, hrep⟩ := hload c (t, a) (t, b) σ st hc
  rw [Cpu.faults_append_of hd]
  by_cases h : b = 0 ∨ Overflows t a b
  · refine ⟨iff_of_true ?_ h, fun hn => absurd h hn⟩
    rw [operatorLines_of_division hop]
    exact faults_divisionLines ht ha hb heax hecx h _
  · obtain ⟨e, he, hvalue, hmemory⟩ := run_division ht ha hb heax hecx hop h
    have hholds := holds_lowBits (bits_pos ht) (op.divided a b)
    refine ⟨iff_of_false ?_ h, fun _ => ⟨e, Cpu.run_append_of hd he, ?_⟩⟩
    · rw [Cpu.faults_of_run he]
      exact Bool.false_ne_true
    · exact (hrep.of_memory rfl hmemory hnone).cons rfl ⟨hholds, hvalue⟩

end

end X86

/-! ## Modules -/

namespace Wat

variable {W : Type}

/-- Whether lines run to a state in which values are represented. -/
def Leaves (H : String → Option (Host W)) (result : Option ValueType) (lines : List (Line Op))
    (c : Config W) (m : Method) (locals : List ValueType) (σ : List (Primitive × Int))
    (st : Store Int W) : Prop :=
  ∃ d, Line.execAll H result lines c = .ok d ∧ Related m locals σ st d

/-- Whether lines end in a trap. -/
def Traps (H : String → Option (Host W)) (result : Option ValueType) (lines : List (Line Op))
    (c : Config W) : Prop :=
  ∃ d, Line.execAll H result lines c = .error (.trapped d)

section

variable {op : BinaryOp} {t : Primitive} {a b : Int}

theorem overflows_iff_least (ht : t.isWord = true) (ha : t.holds a = true) :
    t.isSigned = true ∧ a = -2 ^ ((ValueType.ofIntegral t).width - 1) ∧ b = -1 ↔ Overflows t a b := by
  have hwidth : (ValueType.ofIntegral t).width = 32 := by
    revert ht
    cases t <;> decide
  rw [hwidth]
  constructor
  · rintro ⟨hs, rfl, rfl⟩
    exact ⟨eq_i32_of_holds_least ht hs ha, rfl, rfl⟩
  · rintro ⟨rfl, rfl, rfl⟩
    exact ⟨rfl, rfl, rfl⟩

theorem isIntegral_of_isWord (ht : t.isWord = true) : t.isIntegral = true := by
  revert ht
  cases t <;> decide

theorem division_eval (hop : op = .div ∨ op = .rem) (ht : t.isWord = true) (ha : t.holds a = true)
    (hb : t.holds b = true) : (operation op.opcode t).1.arity = 2 ∧
      (operation op.opcode t).1.eval (.ofIntegral t) [BitVec.ofInt _ a, BitVec.ofInt _ b] =
        some (if b = 0 ∨ op = .div ∧ Overflows t a b then none
          else some (.ofInt (.ofIntegral t) (op.divided a b))) := by
  have hint := isIntegral_of_isWord ht
  obtain ⟨hpos, -⟩ := isIntegral_bits hint
  have hwidth := bits_le_width hint
  rcases hop with rfl | rfl
  · have hdiv : (operation BinaryOp.div.opcode t).1 = .divInt (.ofPrimitive t) :=
      if_neg (Bool.eq_false_iff.1 (isFloating_of_isIntegral hint))
    rw [hdiv]
    refine ⟨rfl, ?_⟩
    rw [NumericOp.eval, quotient?_ofInt hpos hwidth ha hb]
    simp only [overflows_iff_least ht ha, true_and, BinaryOp.divided]
    split <;> rfl
  · refine ⟨rfl, ?_⟩
    show some (((Sign.ofPrimitive t).remainder? (BitVec.ofInt _ a) (BitVec.ofInt _ b)).map _) = _
    rw [remainder?_ofInt hpos hwidth ha hb]
    simp only [BinaryOp.divided, reduceCtorEq, false_and, or_false, if_true]
    split <;> rfl

theorem traps_of_eval {H : String → Option (Host W)} {result : Option ValueType} {v : ValueType}
    {op : NumericOp} {x y : BitVec v.width} {c : Config W} {below : List Value} {rest : List (Line Op)}
    (hv : v.isInteger = true) (harity : op.arity = 2) (heval : op.eval v [x, y] = some none)
    (hstack : c.stack = ⟨v, y⟩ :: ⟨v, x⟩ :: below) :
    Traps H result (.op (.numeric v op) :: rest) c := by
  have hexec : Line.exec H result (.op (.numeric v op)) c = .error (.trapped c) := by
    rw [Line.exec, Op.exec, Config.numeric, if_pos hv, harity, hstack]
    simp [heval]
  refine ⟨c, ?_⟩
  rw [Line.execAll_cons, hexec]
  rfl

/-- A division compiles to instructions that trap exactly if the divisor is zero or a quotient is
asked for that overflows, and leave the value otherwise. -/
theorem division_ends {k : Context} {i : Instruction} {s : State} {below : Types}
    (hi : i.command? = some (.operate op t)) (hop : op = .div ∨ op = .rem) (ht : t.isWord = true)
    (hinteger : t.isInteger = true) (htypes : s.types = t :: t :: below)
    (hnumbered : Numbered k.method s.scratch) :
    ∃ lines S, step k i s = .ok (s.advance lines (t :: below) S) ∧ Numbered k.method S ∧
      ∀ (W : Type) (H : String → Option (Host W)) (result : Option ValueType)
        (locals : List ValueType) (c : Config W) (a b : Int) (σ : List (Primitive × Int))
        (st : Store Int W), Fits k.method locals S →
        Related k.method locals ((t, a) :: (t, b) :: σ) st c →
        (Traps H result lines c ↔ b = 0 ∨ op = .div ∧ Overflows t a b) ∧
        (¬(b = 0 ∨ op = .div ∧ Overflows t a b) →
          Leaves H result lines c k.method locals ((t, t.lowBits (op.divided a b)) :: σ) st) := by
  obtain ⟨hopcode, htype⟩ := i.of_command? hi
  have hint := isIntegral_of_isWord ht
  obtain ⟨S, first, hbinary, -, hS, hmem⟩ := binary_eq hopcode htype hint htypes hnumbered
  have hplain : op.isComparison = false := by rcases hop with rfl | rfl <;> rfl
  have hord : isOrdered op.opcode = true := by rcases hop with rfl | rfl <;> rfl
  have hbool : t ≠ .bool := by
    rintro rfl
    cases hinteger
  have hstep : step k i s = binary k i s := by
    rw [step, hopcode]
    rcases hop with rfl | rfl <;> rfl
  rw [hplain, if_neg Bool.false_ne_true] at hbinary
  refine ⟨_, S, hstep.trans hbinary, hS, ?_⟩
  intro W H result locals c a b σ st hfits hc
  obtain ⟨hfirst, htail⟩ := forall_mem_cons.1 hc.values
  have ha : t.holds a = true := hfirst.2
  have hb : t.holds b = true := (htail _ mem_cons_self).2
  obtain ⟨d, hd, hrelated⟩ := @order_related W k.method locals (t, a) (t, b) σ st c op first H result
    hc fun _ => hfits _ (hmem hord)
  rw [hord, if_pos rfl] at hrelated
  obtain ⟨harity, heval⟩ := division_eval hop ht ha hb
  have hleft := Value.encode_eq_ofInt hint ha
  have hright := Value.encode_eq_ofInt hint hb
  have hexec : ∀ r, Line.execAll H result ((operatorOps op t).map .op) d = r →
      Line.execAll H result ((orderOps op first ++ operatorOps op t).map .op) c = r := by
    rintro r rfl
    rw [map_append, Line.execAll_append, hd, ok_bind]
  by_cases h : b = 0 ∨ op = .div ∧ Overflows t a b
  · rw [if_pos h] at heval
    have hstack : d.stack = .ofInt (.ofIntegral t) b :: .ofInt (.ofIntegral t) a ::
        σ.map represent := by
      rw [← hleft, ← hright]
      exact hrelated.stack
    obtain ⟨e, he⟩ := @traps_of_eval W H result _ _ _ _ d _ ((narrow t).map .op)
      (isInteger_ofIntegral t) harity heval hstack
    rw [← map_cons, ← operatorOps_arithmetic hplain] at he
    exact ⟨iff_of_true ⟨e, hexec _ he⟩ h, fun hn => absurd h hn⟩
  · rw [if_neg h] at heval
    have hyields := arithmetic_yields hint hbool hplain harity heval
    obtain ⟨e, he, hend⟩ := @Related.yields W k.method locals st d H result _
      [(t, b), (t, a)] [(t, t.lowBits (op.divided a b))] σ hrelated
      (by
        simp only [map_cons, map_nil, represent, hleft, hright, Value.encode_lowBits hint]
        exact hyields)
      (by
        simpa using ⟨hint, holds_lowBits (bits_pos ht) (op.divided a b)⟩)
    refine ⟨iff_of_false ?_ h, fun _ => ⟨e, hexec _ he, hend⟩⟩
    rintro ⟨e', he'⟩
    rw [hexec _ he] at he'
    cases he'

end

end Wat

/-! ## Both targets -/

/-- A division of integers of at most 32 bits compiles on both targets, from whatever states hold the
dividend on top of the divisor. The lines for the processor end in a divide error exactly if those
of the module trap or the remainder of the least `i32` by minus one is asked for, which is zero in
the module. Otherwise both leave the same value. -/
theorem divisions_agree_but_for_one_remainder {op : BinaryOp} {t : Primitive} {i : Instruction}
    (hi : i.command? = some (.operate op t)) (hop : op = .div ∨ op = .rem)
    (ht : t ∈ [Primitive.i8, .i16, .i32, .u8, .u16, .u32]) {k : X86.Context} {s : X86.State}
    {below : List Primitive} (index : Nat) (htidy : X86.Tidy s.frame s.stack)
    (hstack : s.stack.map X86.StackValue.type = t :: t :: below) {k' : Wat.Context} {s' : Wat.State}
    {below' : List Primitive} (hstack' : s'.types = t :: t :: below')
    (hnumbered : Wat.Numbered k'.method s'.scratch) :
    ∃ lines f vs lines' S, X86.step k index i s = .ok (s.advance lines f vs) ∧
      Wat.step k' i s' = .ok (s'.advance lines' (t :: below') S) ∧
      ∀ (W : Type) (H : String → Option (Wat.Host W)) (result : Option Wat.ValueType)
        (locals : List Wat.ValueType) (c : X86.Cpu) (c' : Wat.Config W) (a b : Int)
        (σ σ' : List (Primitive × Int)) (st : Store Int Unit) (st' : Store Int W),
        X86.Represents s.frame c s.stack ((t, a) :: (t, b) :: σ) st →
        Wat.Fits k'.method locals S → Wat.Related k'.method locals ((t, a) :: (t, b) :: σ') st' c' →
        (X86.Cpu.faults lines c = true ↔
          Wat.Traps H result lines' c' ∨ op = .rem ∧ Overflows t a b) ∧
        (X86.Cpu.faults lines c = true ↔ b = 0 ∨ Overflows t a b) ∧
        (X86.Cpu.faults lines c = false →
          X86.Leaves lines c f vs ((t, t.lowBits (op.divided a b)) :: σ) st ∧
          Wat.Leaves H result lines' c' k'.method locals
            ((t, t.lowBits (op.divided a b)) :: σ') st') ∧ (op = .rem → Overflows t a b →
          Wat.Leaves H result lines' c' k'.method locals ((t, 0) :: σ') st') := by
  have hwords : ∀ t ∈ [Primitive.i8, .i16, .i32, .u8, .u16, .u32],
      t.isWord = true ∧ t.isInteger = true := by decide
  obtain ⟨hword, hinteger⟩ := hwords t ht
  obtain ⟨lines, f, vs, hstep, hends⟩ := X86.division_ends hi hop hword htidy hstack index
  obtain ⟨lines', S, hstep', -, hends'⟩ :=
    Wat.division_ends hi hop hword hinteger hstack' hnumbered
  refine ⟨lines, f, vs, lines', S, hstep, hstep', ?_⟩
  intro W H result locals c c' a b σ σ' st st' hc hfits hc'
  obtain ⟨hfaults, hleaves⟩ := hends c a b σ st hc
  obtain ⟨htraps, hleaves'⟩ := hends' W H result locals c' a b σ' st' hfits hc'
  refine ⟨?_, hfaults, ?_, ?_⟩
  · rw [hfaults, htraps]
    rcases hop with rfl | rfl <;> simp
  · intro hnone
    have hdefined := mt hfaults.2 (Bool.eq_false_iff.1 hnone)
    exact ⟨hleaves hdefined, hleaves' fun h => hdefined (h.imp_right And.right)⟩
  · rintro rfl ⟨rfl, rfl, rfl⟩
    exact hleaves' (by decide)

namespace Sample

/-- `i32 F()` returns the remainder of the least `i32` by minus one. -/
def remaining : Method where
  id := 0
  owner := 0
  script := 0
  name := ⟨["F"]⟩
  returnType := .i32
  parameters := []
  external := false
  span := ⟨1, 1, 4⟩
  code := [.loadConst .i32 "-1", .loadConst .i32 "-2147483648", .binary .rem .i32, .ret]

def dividing : Program where
  namespaces := [⟨0, .explicit ⟨["App"]⟩, 0, [0], []⟩]
  methods := [remaining]

/-- What `remaining` is in a module. -/
def remainder : Wat.Function where
  name := "App.F?"
  parameters := []
  result := some .i32
  locals := [.i32, .i32]
  body := [.const .i32 (-1), .const .i32 (-2147483648), .localSet 0, .localSet 1, .localGet 0,
    .localGet 1, .numeric .i32 (.rem .signed), .ret].map .op

/-- The least `i8` on top of minus one, for the processor. -/
def leastByte : X86.State where
  frame := ⟨[], [], 0, []⟩
  stack := [.constant .i8 (.number (-128)), .constant .i8 (.number (-1))]
  listing := ⟨"F", [], []⟩
  shared := {}

/-- Two bytes, for a module. -/
def twoBytes : Wat.State where
  types := [.i8, .i8]
  memory := {}

end Sample

/-- The quotient of the least `i8` by minus one fits in a register, and is cut to its type on both
targets. -/
theorem least_byte_wraps_on_both_targets : ∃ lines f vs lines' S,
      X86.step ⟨Sample.dividing, Sample.remaining, "App.F?"⟩ 2 (.binary .div .i8) Sample.leastByte =
        .ok (Sample.leastByte.advance lines f vs) ∧
      Wat.step ⟨Sample.dividing, Sample.remaining, "App.F?", none⟩ (.binary .div .i8)
        Sample.twoBytes = .ok (Sample.twoBytes.advance lines' [.i8] S) ∧
      (∀ c, X86.Cpu.faults lines c = false ∧
        X86.Leaves lines c f vs [(.i8, -128)] ⟨fun _ => 0, (), []⟩) ∧
      Wat.Leaves (fun _ => none) none lines'
        ⟨[.ofInt .i32 (-128), .ofInt .i32 (-1)], [.ofInt .i32 0, .ofInt .i32 0], (), []⟩
        Sample.remaining [.i32, .i32] [(.i8, -128)] ⟨fun _ => 0, (), []⟩ := by
  have htidy : X86.Tidy Sample.leastByte.frame Sample.leastByte.stack := by
    refine ⟨List.forall_mem_cons.2 ⟨⟨rfl, -128, rfl, by decide⟩, ?_⟩, by decide, by decide, by decide⟩
    exact List.forall_mem_singleton.2 ⟨rfl, -1, rfl, by decide⟩
  obtain ⟨lines, f, vs, lines', S, hstep, hstep', hends⟩ :=
    @divisions_agree_but_for_one_remainder .div .i8 (.binary .div .i8) rfl (.inl rfl) (by decide)
      ⟨Sample.dividing, Sample.remaining, "App.F?"⟩ Sample.leastByte [] 2 htidy rfl
      ⟨Sample.dividing, Sample.remaining, "App.F?", none⟩ Sample.twoBytes [] rfl
      (fun _ _ he => by cases he)
  have hscratch : [(Wat.ValueType.i32, 0)] = S :=
    Except.ok.inj (congrArg (Except.map Wat.State.scratch) hstep')
  have hrepresents : ∀ c, X86.Represents Sample.leastByte.frame c Sample.leastByte.stack
      [(.i8, -128), (.i8, -1)] ⟨fun _ => 0, (), []⟩ := fun c =>
    ⟨.cons ⟨rfl, by decide, rfl⟩ (.cons ⟨rfl, by decide, rfl⟩ .nil), fun i t h => by
      simp [X86.Frame.localType?, Sample.leastByte] at h⟩
  have hfits : Wat.Fits Sample.remaining [.i32, .i32] S := by
    subst hscratch
    simp [Wat.Fits, Sample.remaining, Wat.slotCount]
  have hrelated : Wat.Related Sample.remaining [.i32, .i32] [(.i8, -128), (.i8, -1)]
      ⟨fun _ => 0, (), []⟩
      ⟨[.ofInt .i32 (-128), .ofInt .i32 (-1)], [.ofInt .i32 0, .ofInt .i32 0], (), []⟩ := by
    refine ⟨⟨fun i t h => ?_, rfl, rfl⟩, by decide, rfl, rfl⟩
    simp [Method.localType?, Method.parameterTypes, Sample.remaining] at h
  have hboth := fun c => hends Unit (fun _ => none) none [.i32, .i32] c _ (-128) (-1) [] [] _ _
    (hrepresents c) hfits hrelated
  have hpasses : ∀ c, X86.Cpu.faults lines c = false := fun c =>
    Bool.eq_false_iff.2 fun h => absurd ((hboth c).2.1.1 h) (by decide)
  refine ⟨lines, f, vs, lines', S, hstep, hstep', ?_, ?_⟩
  · exact fun c => ⟨hpasses c, ((hboth c).2.2.1 (hpasses c)).1⟩
  · exact ((hboth ⟨0, 0, 0, none, fun _ => 0⟩).2.2.1 (hpasses _)).2

/-- The processor stops at the remainder that the module returns. -/
theorem least_remainder_faults_on_one_target :
    (∃ l shared, X86.compileMethod Sample.dividing Sample.remaining {} = .ok (l, shared) ∧
      ∀ c, X86.Cpu.faults l.lines.tail c = true) ∧
    ∃ f memory, Wat.compileFunction Sample.dividing none Sample.remaining {} = .ok (f, memory) ∧
      ∃ c, f.run (fun _ => none) [] () = .error (.returned (some (.ofInt .i32 0)) c) := by
  have hlines : (X86.compileMethod Sample.dividing Sample.remaining {}).map
      (fun r => r.1.lines.tail.take 4) =
      .ok ([.instruction "MOV" [.register .ecx, .number (-1)],
        .instruction "MOV" [.register .eax, .number (-2147483648)]] ++
          X86.operatorLines.divisionLines .i32) := by decide +kernel
  obtain ⟨⟨l, shared⟩, hl, hlines⟩ := Except.map_eq_ok_iff.1 hlines
  refine ⟨⟨l, shared, hl, fun c => ?_⟩, Sample.remainder, {}, rfl, _, rfl⟩
  rw [← List.take_append_drop 4 l.lines.tail, hlines, List.append_assoc,
    X86.Cpu.faults_append_of rfl]
  exact @X86.faults_divisionLines .i32 _ (Integer.least 32) (-1) rfl (by decide) (by decide) rfl rfl
    (by decide) _

end ScriptCompiler
