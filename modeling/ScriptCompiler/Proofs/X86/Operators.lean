import ScriptCompiler.Proofs.X86.VirtualStack
import ScriptCompiler.X86.Compile

/-!
# The lines of operators and conversions

With its operands extended in `EAX` and `ECX`, an operator leaves its result extended
in `EAX` and memory as it was. The same holds of a conversion of what is in `EAX`.
-/

set_option autoImplicit false

namespace ScriptCompiler.X86

open List Option Primitive

/-! ## Words in registers -/

section

theorem sub_eq_zero_iff {x y : BitVec 32} : x - y = 0 ↔ x = y := by bv_omega

theorem toInt_fillSign (c : Cpu) : (c.fillSign.edx ++ c.fillSign.eax).toInt = c.eax.toInt := by
  have happend := @BitVec.toInt_append 32 32 c.fillSign.edx c.eax
  rw [BitVec.toInt_eq_msb_cond c.eax]
  refine happend.trans ?_
  simp only [Cpu.fillSign]
  cases c.eax.msb with
  | false => simp
  | true =>
    simp
    omega

theorem toNat_zero_append (x : BitVec 32) : ((0 : BitVec 32) ++ x).toNat = x.toNat := by
  refine (BitVec.toNat_append 0 x).trans ?_
  simp

end

/-! ## Extension -/

theorem width_accumulator (w : Width) : w.accumulator.width = w := by cases w <;> rfl

theorem Cpu.read_accumulator (w : Width) (c : Cpu) :
    c.read (.register w.accumulator) = some ((c.eax.setWidth w.bits).setWidth 32) := by
  cases w with
  | byte | word => rfl
  | dword => exact congrArg some (by simp [Width.bits, Width.bytes])

/-- The part of the accumulator with the width of a slot is stored there. -/
theorem Cpu.execute_store {o : Operand} {w : Width} {address : Int} (hm : o.isMemory = true)
    (hw : o.width? = some w) (ha : o.address? = some address) (c : Cpu) :
    c.execute "MOV" [o, .register w.accumulator] = some (c.store address w.bytes c.eax.toNat) := by
  have hlow : ((c.eax.setWidth w.bits).setWidth 32).toNat = c.eax.toNat % 256 ^ w.bytes := by
    have hpow : 2 ^ w.bits = 256 ^ w.bytes := by rw [Width.bits, Nat.pow_mul]
    have hle : 256 ^ w.bytes ≤ 2 ^ 32 := by cases w <;> decide
    have hlt := Nat.mod_lt c.eax.toNat (Nat.pow_pos (n := w.bytes) (show 0 < 256 by decide))
    rw [BitVec.toNat_setWidth, BitVec.toNat_setWidth, hpow]
    exact Nat.mod_eq_of_lt (Nat.lt_of_lt_of_le hlt hle)
  have hmov := execute_mov hw (Operand.width?_register (width_accumulator w))
    (by simp [Operand.isMemory]) c
  rw [hmov, read_accumulator, bind_some, write_memory hm hw ha, store, store, hlow,
    Memory.write_mod]

/-- The lines that extend `EAX` again after an operation on a type. -/
def normalizeLines (t : Primitive) : List Line :=
  match Width.ofSize t.size with
  | .dword => []
  | w => [.instruction (if t.isSigned then "MOVSX" else "MOVZX")
      [.register .eax, .register w.accumulator]]

variable {t : Primitive} {b a n : Int} {c : Cpu}

theorem State.normalize_eq (ht : t.isWord = true) (s : State) :
    s.normalize t = s.advance (normalizeLines t) s.frame s.stack := by
  unfold normalize normalizeLines
  rcases size_of_isWord ht with h | h | h <;> rw [h]
  · rfl
  · rfl
  · exact s.advance_nil.symm

theorem Cpu.execute_extend (signed : Bool) (c : Cpu) (r : Register) (source : Operand) :
    c.execute (if signed then "MOVSX" else "MOVZX") [.register r, source] =
      c.extend signed r source := by
  cases signed <;> rfl

theorem run_normalizeLines {t : Primitive} (ht : t.isWord = true) {c : Cpu} {n : Int}
    (h : c.eax = BitVec.ofInt 32 n) :
    Cpu.run (normalizeLines t) c = some { c with eax := BitVec.ofInt 32 (t.lowBits n) } := by
  rw [ofInt_lowBits ht, ← h, ← bits_ofSize ht]
  unfold normalizeLines
  generalize Width.ofSize t.size = w
  split
  · simp [Cpu.run, Width.bits, Width.bytes]
  · rename_i hw
    have hle : w.bits ≤ 32 := by cases w <;> decide
    have hextend := Cpu.extend_eq t.isSigned (Operand.width?_register (width_accumulator w)) hw
      (c.read_accumulator w) (r := .eax) rfl
    rw [Cpu.run_singleton, Cpu.execute_extend, hextend, BitVec.setWidth_setWidth_of_le _ hle,
      BitVec.setWidth_eq]
    rfl

/-! ## Truth values -/

theorem run_setIf {c : Cpu} {mnemonic : String} {found wanted : Bool} (hz : c.zero = some found)
    (hm : ∀ c : Cpu, c.execute mnemonic [.register .al] = c.setIf wanted .al) :
    Cpu.run [.instruction mnemonic [.register .al],
        .instruction "MOVZX" [.register .eax, .register .al]] c =
      some { c with eax := if found = wanted then 1 else 0 } := by
  have hset : c.setIf wanted .al = c.write (.register .al) (if found = wanted then 1 else 0) := by
    simp [Cpu.setIf, hz, Register.width]
  have hbyte : (((if found = wanted then 1 else 0 : BitVec 32).setWidth 8).setWidth 32) =
      if found = wanted then 1 else 0 := by
    split <;> rfl
  rw [Cpu.run, hm, hset]
  generalize (if found = wanted then (1 : BitVec 32) else 0) = x at hbyte
  show Cpu.run [.instruction "MOVZX" [.register .eax, .register .al]]
    { c with eax := c.eax.extractLsb' 8 24 ++ x.setWidth 8 } = _
  rw [Cpu.run_singleton]
  show Cpu.extend _ false .eax (.register .al) = _
  rw [Cpu.extend_eq false rfl (by decide) rfl rfl]
  have hlow : ((c.eax.extractLsb' 8 24 ++ x.setWidth 8).setWidth 8).setWidth 32 = x := by
    rw [BitVec.setWidth_append_eq_right, hbyte]
  exact congrArg (fun e => some { c with eax := e }) hlow

/-! ## Operators -/

/-- The lines of an operator on a type, once its operands are in `EAX` and `ECX`. -/
def operatorLines (op : BinaryOp) (t : Primitive) : List Line :=
  match op with
  | .add => .instruction "ADD" [.register .eax, .register .ecx] :: normalizeLines t
  | .sub => .instruction "SUB" [.register .eax, .register .ecx] :: normalizeLines t
  | .mul => .instruction "IMUL" [.register .eax, .register .ecx] :: normalizeLines t
  | .div => divisionLines t ++ normalizeLines t
  | .rem => divisionLines t ++
      .instruction "MOV" [.register .eax, .register .edx] :: normalizeLines t
  | .equal => comparisonLines "SETE" ++ if t = .bool then normalizeLines .bool else []
  | .notEqual => comparisonLines "SETNE" ++ if t = .bool then normalizeLines .bool else []
where
  divisionLines (t : Primitive) : List Line :=
    if t.isSigned then [.instruction "CDQ" [], .instruction "IDIV" [.register .ecx]]
    else [.instruction "XOR" [.register .edx, .register .edx],
      .instruction "DIV" [.register .ecx]]
  comparisonLines (mnemonic : String) : List Line :=
    [.instruction "CMP" [.register .eax, .register .ecx], .instruction mnemonic [.register .al],
      .instruction "MOVZX" [.register .eax, .register .al]]

theorem State.advance_normalize (ht : t.isWord = true) (s : State) (lines : List Line) (f : Frame)
    (vs : Stack) :
    (s.advance lines f vs).normalize t = s.advance (lines ++ normalizeLines t) f vs := by
  rw [normalize_eq ht]
  exact s.advance_advance lines (normalizeLines t) f f vs vs

theorem divide_eq (t : Primitive) (remainder : Bool) (s : State) :
    divide t remainder s = s.advance (operatorLines.divisionLines t ++
      if remainder then [Line.instruction "MOV" [.register .eax, .register .edx]] else [])
      s.frame s.stack := by
  unfold divide operatorLines.divisionLines
  cases t.isSigned <;> cases remainder <;>
    simp only [Bool.false_eq_true, if_true, if_false, State.op_eq_advance s, State.advance_op,
      append_nil, cons_append, nil_append]

theorem compare_eq (mnemonic : String) (s : State) :
    compare mnemonic s = s.advance (operatorLines.comparisonLines mnemonic) s.frame s.stack := by
  unfold compare operatorLines.comparisonLines
  simp only [State.op_eq_advance s, State.advance_op, cons_append, nil_append]

theorem operate_eq (op : BinaryOp) (ht : t.isWord = true) (s : State) :
    (if (operate op.opcode t s).2 = t then (operate op.opcode t s).1.normalize t
      else (operate op.opcode t s).1) = s.advance (operatorLines op t) s.frame s.stack ∧
    (operate op.opcode t s).2 = if op.isComparison then .bool else t := by
  cases op with
  | add | sub | mul => exact ⟨(if_pos rfl).trans (State.advance_normalize ht s [_] _ _), rfl⟩
  | div | rem =>
    refine ⟨(if_pos rfl).trans ?_, rfl⟩
    simp only [BinaryOp.opcode, operate, divide_eq, operatorLines, Bool.false_eq_true, if_true,
      if_false, State.advance_normalize ht, append_assoc, nil_append, cons_append]
  | equal | notEqual =>
    refine ⟨?_, rfl⟩
    simp only [BinaryOp.opcode, operate, compare_eq, operatorLines]
    by_cases h : t = .bool
    · subst h
      exact State.advance_normalize ht s _ _ _
    · rw [if_neg (Ne.symm h), if_neg h, append_nil]

theorem Cpu.divideSigned_ecx (ha : (c.edx ++ c.eax).toInt = a) (hb : c.ecx.toInt = b)
    (hne : c.ecx ≠ 0) (hfits : Integer.fits 32 (a.tdiv b) = true) :
    c.divideSigned .ecx = some { c with
      eax := BitVec.ofInt 32 (a.tdiv b)
      edx := BitVec.ofInt 32 (a.tmod b)
      zero := none } := by
  show (if c.ecx = 0 ∨ Integer.fits 32 ((c.edx ++ c.eax).toInt.tdiv c.ecx.toInt) = false then none
    else some _) = _
  rw [ha, hb, hfits, if_neg (not_or.2 ⟨hne, Bool.true_eq_false ▸ id⟩)]

theorem Cpu.divideUnsigned_ecx {c : Cpu} (hedx : c.edx = 0) (hne : c.ecx ≠ 0) :
    c.divideUnsigned .ecx = some { c with
      eax := BitVec.ofNat 32 (c.eax.toNat / c.ecx.toNat)
      edx := BitVec.ofNat 32 (c.eax.toNat % c.ecx.toNat)
      zero := none } := by
  have hdividend : (c.edx ++ c.eax).toNat = c.eax.toNat := by rw [hedx, toNat_zero_append]
  have hquot : ¬2 ^ 32 ≤ c.eax.toNat / c.ecx.toNat := by
    have hle := Nat.div_le_self c.eax.toNat c.ecx.toNat
    have hlt := c.eax.isLt
    omega
  show (if c.ecx = 0 ∨ 2 ^ 32 ≤ (c.edx ++ c.eax).toNat / c.ecx.toNat then none else some _) = _
  rw [hdividend, if_neg (not_or.2 ⟨hne, hquot⟩)]

theorem fits_of_holds (ht : t.isWord = true) (hs : t.isSigned = true) (hn : t.holds n = true) :
    Integer.fits 32 n = true := by
  have hword := toInt_ofInt (bits_pos ht) (bits_le ht) hs hn
  have hlow := BitVec.le_toInt (BitVec.ofInt 32 n)
  have hhigh := @BitVec.toInt_lt 32 (BitVec.ofInt 32 n)
  rw [hword] at hlow hhigh
  have hbounds : -(2 ^ 31) ≤ n ∧ n ≤ 2 ^ 31 - 1 := by omega
  rw [Integer.fits, Bool.and_eq_true, decide_eq_true_eq, decide_eq_true_eq]
  exact hbounds

section

variable (ht : t.isWord = true) (ha : t.holds a = true) (hb : t.holds b = true)
  (heax : c.eax = BitVec.ofInt 32 a) (hecx : c.ecx = BitVec.ofInt 32 b)
include ht ha hb heax hecx

/-- A division leaves the quotient in `EAX` and the remainder in `EDX`, if a signed quotient has 32
bits. -/
theorem run_divisionLines (hne : b ≠ 0)
    (hfits : t.isSigned = true → Integer.fits 32 (a.tdiv b) = true) :
    ∃ d, Cpu.run (operatorLines.divisionLines t) c = some d ∧
      d.eax = BitVec.ofInt 32 (a.tdiv b) ∧ d.edx = BitVec.ofInt 32 (a.tmod b) ∧
      d.memory = c.memory := by
  have hzero : c.ecx ≠ 0 := by
    rw [hecx]
    intro h
    exact hne ((ofInt_inj (bits_pos ht) (bits_le ht) hb t.holds_zero).1 h)
  unfold operatorLines.divisionLines
  by_cases hs : t.isSigned = true
  · have hdividend : (c.fillSign.edx ++ c.fillSign.eax).toInt = a := by
      rw [toInt_fillSign, heax, toInt_ofInt (bits_pos ht) (bits_le ht) hs ha]
    have hdivisor : c.fillSign.ecx.toInt = b := by
      show c.ecx.toInt = b
      rw [hecx, toInt_ofInt (bits_pos ht) (bits_le ht) hs hb]
    have hdivide := Cpu.divideSigned_ecx hdividend hdivisor hzero (hfits hs)
    rw [if_pos hs]
    exact ⟨_, Cpu.run_cons_of rfl ((Cpu.run_singleton _ _ _).trans hdivide), rfl, rfl, rfl⟩
  · have hs' : t.isSigned = false := Bool.eq_false_iff.2 hs
    have hcleared : c.execute "XOR" [.register .edx, .register .edx] =
        some { c with edx := 0, zero := some true } := by
      show some { c with edx := c.edx ^^^ c.edx, zero := some (c.edx ^^^ c.edx == 0) } = _
      rw [BitVec.xor_self]
      rfl
    have hdividend := toNat_ofInt (bits_le ht) hs' ha
    have hdivisor := toNat_ofInt (bits_le ht) hs' hb
    rw [← heax] at hdividend
    rw [← hecx] at hdivisor
    have hdivide := @Cpu.divideUnsigned_ecx { c with edx := 0, zero := some true } rfl hzero
    rw [if_neg hs]
    refine ⟨_, Cpu.run_cons_of hcleared ((Cpu.run_singleton _ _ _).trans hdivide), ?_, ?_, rfl⟩
    · rw [← hdividend, ← hdivisor, ← Int.ofNat_tdiv, BitVec.ofInt_natCast]
    · rw [← hdividend, ← hdivisor, ← Int.ofNat_tmod, BitVec.ofInt_natCast]

theorem run_comparisonLines {mnemonic : String} {wanted : Bool}
    (hm : ∀ c : Cpu, c.execute mnemonic [.register .al] = c.setIf wanted .al) :
    ∃ d, Cpu.run (operatorLines.comparisonLines mnemonic) c = some d ∧
      d.eax = BitVec.ofInt 32 (if decide (a = b) = wanted then 1 else 0) ∧ d.memory = c.memory := by
  have hfound : (c.eax - c.ecx == 0) = decide (a = b) := by
    rw [Bool.eq_iff_iff, beq_iff_eq, decide_eq_true_eq, sub_eq_zero_iff, heax, hecx]
    exact ofInt_inj (bits_pos ht) (bits_le ht) ha hb
  have hset := @run_setIf { c with zero := some (c.eax - c.ecx == 0) } mnemonic _ wanted rfl hm
  refine ⟨_, Cpu.run_cons_of rfl hset, ?_, rfl⟩
  rw [hfound]
  show (if decide (a = b) = wanted then _ else _) = _
  split <;> rfl

end

theorem run_normalizeLines_of_comparison (hn : Primitive.bool.holds n = true)
    (h : c.eax = BitVec.ofInt 32 n) :
    ∃ d, Cpu.run (if t = .bool then normalizeLines .bool else []) c = some d ∧
      d.eax = BitVec.ofInt 32 n ∧ d.memory = c.memory := by
  split
  · refine ⟨_, run_normalizeLines rfl h, ?_, rfl⟩
    rw [lowBits_of_holds (by decide) hn]
  · exact ⟨c, rfl, h, rfl⟩

/-- The lines of an operator leave its result in `EAX`. -/
theorem run_operatorLines {op : BinaryOp} (ht : t.isWord = true) (ha : t.holds a = true)
    (hb : t.holds b = true) (heax : c.eax = BitVec.ofInt 32 a) (hecx : c.ecx = BitVec.ofInt 32 b)
    (h : words.operate op t a b = some n) :
    ∃ d, Cpu.run (operatorLines op t) c = some d ∧ d.eax = BitVec.ofInt 32 n ∧
      d.memory = c.memory := by
  have hn := holds_of_operate (bits_pos ht) ha h
  cases op with
  | add =>
    cases h
    have hsum : c.eax + c.ecx = BitVec.ofInt 32 (a + b) := by rw [heax, hecx, BitVec.ofInt_add]
    exact ⟨_, Cpu.run_cons_of rfl (run_normalizeLines ht hsum), rfl, rfl⟩
  | sub =>
    cases h
    have hdifference : c.eax - c.ecx = BitVec.ofInt 32 (a - b) := by rw [heax, hecx, ofInt_sub]
    exact ⟨_, Cpu.run_cons_of rfl (run_normalizeLines ht hdifference), rfl, rfl⟩
  | mul =>
    cases h
    have hproduct : c.eax * c.ecx = BitVec.ofInt 32 (a * b) := by rw [heax, hecx, BitVec.ofInt_mul]
    exact ⟨_, Cpu.run_cons_of rfl (run_normalizeLines ht hproduct), rfl, rfl⟩
  | div =>
    simp only [words, ite_none_left_eq_some, not_or, Bool.not_eq_false] at h
    obtain ⟨⟨hne, hq⟩, h⟩ := h
    cases h
    obtain ⟨d, hd, hquot, -, hmemory⟩ :=
      run_divisionLines ht ha hb heax hecx hne fun hs => fits_of_holds ht hs hq
    refine ⟨_, Cpu.run_append_of hd (run_normalizeLines ht hquot), ?_, hmemory⟩
    rw [lowBits_of_holds (bits_pos ht) hq]
  | rem =>
    simp only [words, ite_none_left_eq_some, not_or, Bool.not_eq_false] at h
    obtain ⟨⟨hne, hq⟩, h⟩ := h
    cases h
    obtain ⟨d, hd, -, hremainder, hmemory⟩ :=
      run_divisionLines ht ha hb heax hecx hne fun hs => fits_of_holds ht hs hq
    have hmoved := @run_normalizeLines t ht { d with eax := d.edx } (a.tmod b) hremainder
    refine ⟨_, Cpu.run_append_of hd (Cpu.run_cons_of rfl hmoved), ?_, hmemory⟩
    rw [lowBits_of_holds (bits_pos ht) hn]
  | equal =>
    obtain ⟨d, hd, hres, hmemory⟩ := run_comparisonLines ht ha hb heax hecx
      (show ∀ c : Cpu, c.execute "SETE" [.register .al] = c.setIf true .al from fun _ => rfl)
    cases h
    simp only [decide_eq_true_eq] at hres
    obtain ⟨e, he, hres, hsame⟩ := run_normalizeLines_of_comparison hn hres
    exact ⟨e, Cpu.run_append_of hd he, hres, hsame.trans hmemory⟩
  | notEqual =>
    obtain ⟨d, hd, hres, hmemory⟩ := run_comparisonLines ht ha hb heax hecx
      (show ∀ c : Cpu, c.execute "SETNE" [.register .al] = c.setIf false .al from fun _ => rfl)
    cases h
    simp only [decide_eq_false_iff_not, ite_not] at hres
    obtain ⟨e, he, hres, hsame⟩ := run_normalizeLines_of_comparison hn hres
    exact ⟨e, Cpu.run_append_of hd he, hres, hsame.trans hmemory⟩

/-! ## Conversions -/

/-- The lines that convert what is in `EAX` to a type. -/
def conversionLines (t : Primitive) : List Line :=
  if t = .bool then
    [.instruction "TEST" [.register .eax, .register .eax], .instruction "SETNE" [.register .al],
      .instruction "MOVZX" [.register .eax, .register .al]]
  else normalizeLines t

theorem conversion_eq (ht : t.isWord = true) (s : State) : (if t = .bool then
        ((s.op "TEST" [.register .eax, .register .eax]).op "SETNE" [.register .al]).op
          "MOVZX" [.register .eax, .register .al]
      else s.normalize t) = s.advance (conversionLines t) s.frame s.stack := by
  unfold conversionLines
  split
  · simp only [State.op_eq_advance s, State.advance_op, cons_append, nil_append]
  · exact State.normalize_eq ht s

theorem run_conversionLines {source target : Primitive} (hsource : source.isWord = true)
    (htarget : target.isWord = true) (ha : source.holds a = true) (heax : c.eax = BitVec.ofInt 32 a)
    : ∃ d, Cpu.run (conversionLines target) c = some d ∧
      d.eax = BitVec.ofInt 32 (target.cast a) ∧ d.memory = c.memory := by
  unfold conversionLines Primitive.cast
  by_cases htype : target = .bool
  · have hfound : (c.eax &&& c.eax == 0) = decide (a = 0) := by
      rw [BitVec.and_self, Bool.eq_iff_iff, beq_iff_eq, decide_eq_true_eq, heax]
      exact ofInt_inj (bits_pos hsource) (bits_le hsource) ha source.holds_zero
    have hset := @run_setIf { c with zero := some (c.eax &&& c.eax == 0) } "SETNE" _ false rfl
      fun _ => rfl
    rw [if_pos htype, if_pos htype]
    refine ⟨_, Cpu.run_cons_of rfl hset, ?_, rfl⟩
    rw [hfound]
    simp only [decide_eq_false_iff_not, ite_not]
    split <;> rfl
  · rw [if_neg htype, if_neg htype]
    exact ⟨_, run_normalizeLines htarget heax, rfl, rfl⟩

theorem wrap_eq_cast (ht : t.isWord = true) (n : Int) : wrap n t = t.cast n := by
  have hdouble := two_pow_bits (bits_pos ht)
  have hpos : (0 : Int) < 2 ^ (t.bits - 1) := Int.pow_pos (by decide)
  unfold wrap Primitive.cast
  split
  · rfl
  · rw [Primitive.lowBits, Integer.wrapSigned]
    show (if t.isSigned && 2 ^ (t.bits - 1) ≤ n % 2 ^ t.bits then n % 2 ^ t.bits - 2 ^ t.bits
      else n % 2 ^ t.bits) = _
    cases t.isSigned with
    | false => rfl
    | true =>
      rw [if_pos rfl, Int.bmod_def]
      push_cast
      rw [hdouble]
      simp only [Bool.true_and, decide_eq_true_eq]
      split <;> split <;> omega

end ScriptCompiler.X86
