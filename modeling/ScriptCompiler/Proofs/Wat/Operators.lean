import ScriptCompiler.Proofs.Integers
import ScriptCompiler.Proofs.Wat.Execution

/-!
# The instructions of operators, conversions and conditions

A number of a narrow type is represented in `i32`, and of a 64-bit type in `i64`,
extended by its sign or with zeros as its type says. On represented operands the
instructions of an operator, a conversion or a condition leave the represented
result.
-/

set_option autoImplicit false

namespace ScriptCompiler.Wat

open List Option Primitive Value

/-! ## Representation -/

/-- The value type that represents a type of truth values or integers. -/
def ValueType.ofIntegral (t : Primitive) : ValueType := if t.bits ≤ 32 then .i32 else .i64

section

variable {t : Primitive} {n : Int}

theorem ofPrimitive?_of_isIntegral (ht : t.isIntegral = true) :
    ValueType.ofPrimitive? t = some (.ofIntegral t) := by
  revert ht
  cases t <;> decide

theorem bits_le_width (ht : t.isIntegral = true) : t.bits ≤ (ValueType.ofIntegral t).width := by
  revert ht
  cases t <;> decide

theorem ofIntegral_cases (t : Primitive) :
    ValueType.ofIntegral t = .i32 ∨ ValueType.ofIntegral t = .i64 := by
  unfold ValueType.ofIntegral
  split
  · exact .inl rfl
  · exact .inr rfl

theorem isInteger_ofIntegral (t : Primitive) : (ValueType.ofIntegral t).isInteger = true := by
  unfold ValueType.ofIntegral
  split <;> rfl

namespace Value

/-- A number in the representation of its type: its bits, extended by sign or with zeros. -/
def encode (t : Primitive) (n : Int) : Value where
  type := .ofIntegral t
  bits :=
    if t.isSigned then (BitVec.ofInt t.bits n).signExtend _ else (BitVec.ofInt t.bits n).setWidth _

/-- The number of a type that a value represents. -/
def decode (t : Primitive) (v : Value) : Int := if t.isSigned then v.bits.toInt else v.bits.toNat

theorem encode_eq_lowBits (t : Primitive) (n : Int) :
    encode t n = ofInt (.ofIntegral t) (t.lowBits n) := by
  rw [encode, ofInt, Primitive.ofInt_lowBits]

theorem encode_eq_ofInt (ht : t.isIntegral = true) (h : t.holds n = true) :
    encode t n = ofInt (.ofIntegral t) n := by
  rw [encode_eq_lowBits, lowBits_of_holds (isIntegral_bits ht).1 h]

/-- A type that fills its value type needs no extension. -/
theorem encode_eq_of_bits (h : t.bits = (ValueType.ofIntegral t).width) (n : Int) :
    encode t n = ofInt (.ofIntegral t) n := by
  have hsign : (BitVec.ofInt t.bits n).signExtend (ValueType.ofIntegral t).width =
      BitVec.ofInt (ValueType.ofIntegral t).width n := by
    rw [← h, BitVec.signExtend_eq]
  have hzeros : (BitVec.ofInt t.bits n).setWidth (ValueType.ofIntegral t).width =
      BitVec.ofInt (ValueType.ofIntegral t).width n := by
    rw [← h, BitVec.setWidth_eq]
  rw [encode, hsign, hzeros, ite_self, ofInt]

theorem encode_lowBits (ht : t.isIntegral = true) (n : Int) : encode t (t.lowBits n) = encode t n := by
  have hpos := (isIntegral_bits ht).1
  rw [encode_eq_ofInt ht (holds_lowBits hpos n), encode_eq_lowBits]

theorem decode_encode (ht : t.isIntegral = true) (h : t.holds n = true) :
    decode t (encode t n) = n := by
  have hpos := (isIntegral_bits ht).1
  have hwidth := bits_le_width ht
  rw [encode_eq_ofInt ht h, decode]
  split
  · rename_i hs
    exact toInt_ofInt hpos hwidth hs h
  · rename_i hs
    exact toNat_ofInt hwidth (Bool.eq_false_iff.2 hs) h

theorem encode_bool (b : Bool) : encode .bool (if b then 1 else 0) = truth b := by cases b <;> rfl

end Value

end

/-! ## What instructions leave on the stack -/

/-- Whether instructions take the one values from the top of the stack and leave the others, the
latest first, whatever is below, and do nothing else. -/
def Yields (ops : List Op) (taken left : List Value) : Prop :=
  ∀ (W : Type) (H : String → Option (Host W)) (result : Option ValueType) (c : Config W)
    (below : List Value), Line.execAll H result (ops.map .op) { c with stack := taken ++ below } =
      .ok { c with stack := left ++ below }

section

variable {a b : List Op} {vs us ws : List Value}

theorem Yields.refl (vs : List Value) : Yields [] vs vs := fun _ _ _ _ _ => rfl

theorem Yields.trans (ha : Yields a vs us) (hb : Yields b us ws) : Yields (a ++ b) vs ws := by
  intro W H result c below
  rw [map_append, Line.execAll_append, ha W H result c below, ok_bind]
  exact hb W H result c below

theorem Yields.execAll {W : Type} {H : String → Option (Host W)} {result : Option ValueType}
    {c : Config W} {below : List Value} (h : Yields a vs us) (hstack : c.stack = vs ++ below) :
    Line.execAll H result (a.map .op) c = .ok { c with stack := us ++ below } := by
  rw [← h W H result c below, ← hstack]

theorem Yields.frame (h : Yields a vs us) (more : List Value) :
    Yields a (vs ++ more) (us ++ more) := by
  intro W H result c below
  rw [append_assoc, append_assoc]
  exact h W H result c (more ++ below)

variable {t : ValueType} {op : NumericOp} {x y : BitVec t.width} {v : Value}

theorem yields_const {n : Int} (h : t.accepts n = true) : Yields [.const t n] [] [.ofInt t n] := by
  intro W H _ _ _
  rw [map_singleton, Line.execAll_singleton, Line.exec, Op.exec, if_pos h]
  rfl

theorem yields_unary (ht : t.isInteger = true) (harity : op.arity = 1)
    (h : op.eval t [x] = some (some v)) : Yields [.numeric t op] [⟨t, x⟩] [v] := by
  intro W H _ _ _
  rw [map_singleton, Line.execAll_singleton, Line.exec, Op.exec, Config.numeric, if_pos ht, harity]
  simp [h]

theorem yields_binary (ht : t.isInteger = true) (harity : op.arity = 2)
    (h : op.eval t [x, y] = some (some v)) : Yields [.numeric t op] [⟨t, y⟩, ⟨t, x⟩] [v] := by
  intro W H _ _ _
  rw [map_singleton, Line.execAll_singleton, Line.exec, Op.exec, Config.numeric, if_pos ht, harity]
  simp [h]

end

/-! ## Narrow types -/

theorem and_low_bits {v w : Nat} (h : w ≤ v) (n : Int) :
    BitVec.ofInt v n &&& (BitVec.allOnes w).setWidth v = (BitVec.ofInt w n).setWidth v := by
  rw [← setWidth_ofInt h]
  ext i hi
  by_cases hlow : i < w
  · simp [hlow, hi]
  · simp [hlow]

/-- A number in a word of the value type is brought to the representation of its type. -/
theorem narrow_yields {t : Primitive} (ht : t.isIntegral = true) (hbool : t ≠ .bool) (n : Int) :
    Yields (narrow t) [.ofInt (.ofIntegral t) n] [.encode t n] := by
  have hmask : ∀ (w : Nat) (mask : Int), w ≤ 32 → ValueType.i32.accepts mask = true →
      BitVec.ofInt 32 mask = (BitVec.allOnes w).setWidth 32 →
      Yields [.const .i32 mask, .numeric .i32 .and] [.ofInt .i32 n]
        [⟨.i32, (BitVec.ofInt w n).setWidth 32⟩] := by
    intro w mask hw haccepts hbits
    have hconst := (yields_const haccepts).frame [.ofInt .i32 n]
    refine hconst.trans (yields_binary rfl rfl ?_)
    simp only [NumericOp.eval]
    rw [← and_low_bits hw n, ← hbits]
    rfl
  have hsigned : ∀ (w : Nat) (op : NumericOp), w ≤ 32 → op.arity = 1 →
      (∀ x, op.eval .i32 [x] = some (some ⟨.i32, (x.setWidth w).signExtend 32⟩)) →
      Yields [.numeric .i32 op] [.ofInt .i32 n] [⟨.i32, (BitVec.ofInt w n).signExtend 32⟩] := by
    intro w op hw harity heval
    refine yields_unary rfl harity ?_
    rw [heval]
    exact congrArg (fun x => some (some (Value.mk .i32 x)))
      (congrArg (BitVec.signExtend 32) (setWidth_ofInt hw n))
  cases t with
  | i8 => exact hsigned 8 .extend8 (by decide) rfl fun _ => rfl
  | i16 => exact hsigned 16 .extend16 (by decide) rfl fun _ => rfl
  | u8 => exact hmask 8 255 (by decide) (by decide) (by decide)
  | u16 => exact hmask 16 65535 (by decide) (by decide) (by decide)
  | i32 | i64 | u32 | u64 =>
    rw [encode_eq_of_bits rfl]
    exact Yields.refl _
  | bool => exact absurd rfl hbool
  | _ => cases ht

/-! ## Signs -/

section

variable {t : Primitive} {w : Nat} {a b : Int}

theorem ofInt_eq_zero_iff (ht : 0 < t.bits) (hw : t.bits ≤ w) (hb : t.holds b = true) :
    BitVec.ofInt w b = 0 ↔ b = 0 := by
  have hzero : BitVec.ofInt w 0 = 0 := by simp
  rw [← hzero]
  exact ofInt_inj ht hw hb t.holds_zero

/-- The one signed quotient without a representation is that of the least number by minus one. -/
theorem overflows_iff (ht : 0 < t.bits) (hw : t.bits ≤ w) (hs : t.isSigned = true)
    (ha : t.holds a = true) (hb : t.holds b = true) :
    BitVec.ofInt w a = BitVec.intMin w ∧ BitVec.ofInt w b = -1 ↔ a = -2 ^ (w - 1) ∧ b = -1 := by
  have hpos : 0 < w := Nat.lt_of_lt_of_le ht hw
  have hones : (-1 : BitVec w).toInt = if 0 < w then -1 else 0 :=
    (congrArg BitVec.toInt BitVec.neg_one_eq_allOnes).trans BitVec.toInt_allOnes
  rw [← BitVec.toInt_inj, ← BitVec.toInt_inj, toInt_ofInt ht hw hs ha,
    toInt_ofInt ht hw hs hb, BitVec.toInt_intMin_of_pos hpos, hones, if_pos hpos]

theorem not_overflow (hw : t.bits ≤ w) (hs : t.isSigned = true) (hq : t.holds (a.tdiv b) = true) :
    ¬(a = -2 ^ (w - 1) ∧ b = -1) := by
  rintro ⟨rfl, rfl⟩
  have hpow : (2 : Int) ^ (t.bits - 1) ≤ 2 ^ (w - 1) := by
    exact_mod_cast Nat.pow_le_pow_right (by decide) (Nat.sub_le_sub_right hw 1)
  rw [Int.tdiv_neg, Int.tdiv_one, Int.neg_neg, holds_iff, if_pos hs] at hq
  omega

section

variable (ht : 0 < t.bits) (hw : t.bits ≤ w) (ha : t.holds a = true) (hb : t.holds b = true)
include ht hw ha hb

theorem quotient?_ofInt : (Sign.ofPrimitive t).quotient? (BitVec.ofInt w a) (BitVec.ofInt w b) =
      if b = 0 ∨ t.isSigned = true ∧ a = -2 ^ (w - 1) ∧ b = -1 then none
      else some (BitVec.ofInt w (a.tdiv b)) := by
  have hzero := ofInt_eq_zero_iff ht hw hb
  unfold Sign.ofPrimitive
  by_cases hs : t.isSigned = true
  · have hquot : (BitVec.ofInt w a).sdiv (BitVec.ofInt w b) = BitVec.ofInt w (a.tdiv b) := by
      apply BitVec.eq_of_toInt_eq
      rw [BitVec.toInt_sdiv, toInt_ofInt ht hw hs ha, toInt_ofInt ht hw hs hb, BitVec.toInt_ofInt]
    rw [if_pos hs, Sign.quotient?]
    simp only [hzero, overflows_iff ht hw hs ha hb, hquot, hs, true_and]
  · have hs' : t.isSigned = false := Bool.eq_false_iff.2 hs
    have hquot : BitVec.ofInt w a / BitVec.ofInt w b = BitVec.ofInt w (a.tdiv b) := by
      have hnumber : ((BitVec.ofInt w a / BitVec.ofInt w b).toNat : Int) = a.tdiv b := by
        rw [BitVec.toNat_udiv, Int.ofNat_tdiv, toNat_ofInt hw hs' ha, toNat_ofInt hw hs' hb]
      rw [← hnumber, BitVec.ofInt_natCast, BitVec.ofNat_toNat, BitVec.setWidth_eq]
    rw [if_neg hs, Sign.quotient?]
    simp only [hzero, hquot, hs', Bool.false_eq_true, false_and, or_false]

theorem remainder?_ofInt : (Sign.ofPrimitive t).remainder? (BitVec.ofInt w a) (BitVec.ofInt w b) =
      if b = 0 then none else some (BitVec.ofInt w (a.tmod b)) := by
  have hzero := ofInt_eq_zero_iff ht hw hb
  unfold Sign.ofPrimitive
  by_cases hs : t.isSigned = true
  · have hremainder : (BitVec.ofInt w a).srem (BitVec.ofInt w b) = BitVec.ofInt w (a.tmod b) := by
      have hnumber : ((BitVec.ofInt w a).srem (BitVec.ofInt w b)).toInt = a.tmod b := by
        rw [BitVec.toInt_srem, toInt_ofInt ht hw hs ha, toInt_ofInt ht hw hs hb]
      rw [← hnumber, BitVec.ofInt_toInt]
    rw [if_pos hs, Sign.remainder?]
    simp only [hzero, hremainder]
  · have hs' : t.isSigned = false := Bool.eq_false_iff.2 hs
    have hremainder : BitVec.ofInt w a % BitVec.ofInt w b = BitVec.ofInt w (a.tmod b) := by
      have hnumber : ((BitVec.ofInt w a % BitVec.ofInt w b).toNat : Int) = a.tmod b := by
        rw [BitVec.toNat_umod, Int.ofNat_tmod, toNat_ofInt hw hs' ha, toNat_ofInt hw hs' hb]
      rw [← hnumber, BitVec.ofInt_natCast, BitVec.ofNat_toNat, BitVec.setWidth_eq]
    rw [if_neg hs, Sign.remainder?]
    simp only [hzero, hremainder]

theorem below_ofInt :
    (Sign.ofPrimitive t).below (BitVec.ofInt w a) (BitVec.ofInt w b) = decide (a < b) := by
  unfold Sign.ofPrimitive
  by_cases hs : t.isSigned = true
  · rw [if_pos hs, Sign.below, BitVec.slt_eq_decide, toInt_ofInt ht hw hs ha,
      toInt_ofInt ht hw hs hb]
  · have hs' : t.isSigned = false := Bool.eq_false_iff.2 hs
    have hleft := toNat_ofInt hw hs' ha
    have hright := toNat_ofInt hw hs' hb
    rw [if_neg hs, Sign.below, BitVec.ult_eq_decide, decide_eq_decide]
    omega

end

end

/-! ## Operators -/

/-- The instructions of an operator with its operands in order. -/
def operatorOps (op : BinaryOp) (t : Primitive) : List Op :=
  .numeric (.ofIntegral t) (operation op.opcode t).1 ::
    if (operation op.opcode t).2 = t then narrow t else []

section

variable {t : Primitive} {a b n : Int}

theorem isFloating_of_isIntegral (ht : t.isIntegral = true) : t.isFloating = false := by
  revert ht
  cases t <;> decide

theorem operatorOps_arithmetic {op : BinaryOp} (hop : op.isComparison = false) (t : Primitive) :
    operatorOps op t = .numeric (.ofIntegral t) (operation op.opcode t).1 :: narrow t := by
  unfold operatorOps
  cases op with
  | add | sub | mul | div | rem => exact congrArg _ (if_pos rfl)
  | equal | notEqual => cases hop

variable {x y : BitVec (ValueType.ofIntegral t).width}

theorem arithmetic_yields {op : BinaryOp} (ht : t.isIntegral = true) (hbool : t ≠ .bool)
    (hop : op.isComparison = false) (harity : (operation op.opcode t).1.arity = 2)
    (heval : (operation op.opcode t).1.eval (.ofIntegral t) [x, y] =
      some (some (.ofInt (.ofIntegral t) n))) :
    Yields (operatorOps op t) [⟨_, y⟩, ⟨_, x⟩] [.encode t n] := by
  rw [operatorOps_arithmetic hop]
  exact (yields_binary (isInteger_ofIntegral t) harity heval).trans (narrow_yields ht hbool n)

theorem comparison_yields {op : NumericOp} {truth : Bool} (harity : op.arity = 2)
    (heval : op.eval (.ofIntegral t) [x, y] = some (some (.truth truth))) :
    Yields (.numeric (.ofIntegral t) op :: if .bool = t then narrow t else []) [⟨_, y⟩, ⟨_, x⟩]
      [.encode .bool (if truth then 1 else 0)] := by
  have hnarrow : (if .bool = t then narrow t else []) = [] := by
    split
    · rename_i hbool
      rw [← hbool]
      rfl
    · rfl
  rw [hnarrow, encode_bool]
  exact yields_binary (isInteger_ofIntegral t) harity heval

/-- An operator leaves its result. Where the order matters the right operand is on top. -/
theorem operator_yields {op : BinaryOp} (ht : t.isIntegral = true)
    (hop : (op.isComparison || t.isInteger) = true) (ha : t.holds a = true) (hb : t.holds b = true)
    (h : words.operate op t a b = some n) : Yields (operatorOps op t)
      (if isOrdered op.opcode then [.encode t b, .encode t a] else [.encode t a, .encode t b])
      [.encode (if op.isComparison then .bool else t) n] := by
  obtain ⟨hpos, -⟩ := isIntegral_bits ht
  have hwidth := bits_le_width ht
  have hinj := ofInt_inj hpos hwidth hb ha
  have hbool : op.isComparison = false → t ≠ .bool := by
    rintro hcmp rfl
    rw [hcmp] at hop
    cases hop
  have hequal : (BitVec.ofInt (ValueType.ofIntegral t).width b == BitVec.ofInt _ a) =
      decide (a = b) := by
    rw [Bool.eq_iff_iff, beq_iff_eq, decide_eq_true_eq, hinj]
    exact eq_comm
  rw [encode_eq_ofInt ht ha, encode_eq_ofInt ht hb]
  cases op with
  | add =>
    cases h
    show Yields _ _ [.encode t (t.lowBits (a + b))]
    rw [encode_lowBits ht]
    apply arithmetic_yields ht (hbool rfl) rfl rfl
    show some (some (Value.mk _ (BitVec.ofInt _ b + BitVec.ofInt _ a))) = _
    rw [← BitVec.ofInt_add, Int.add_comm, Value.ofInt]
  | mul =>
    cases h
    show Yields _ _ [.encode t (t.lowBits (a * b))]
    rw [encode_lowBits ht]
    apply arithmetic_yields ht (hbool rfl) rfl rfl
    show some (some (Value.mk _ (BitVec.ofInt _ b * BitVec.ofInt _ a))) = _
    rw [← BitVec.ofInt_mul, Int.mul_comm, Value.ofInt]
  | sub =>
    cases h
    show Yields _ _ [.encode t (t.lowBits (a - b))]
    rw [encode_lowBits ht]
    apply arithmetic_yields ht (hbool rfl) rfl rfl
    show some (some (Value.mk _ (BitVec.ofInt _ a - BitVec.ofInt _ b))) = _
    rw [ofInt_sub, Value.ofInt]
  | div =>
    simp only [words, ite_none_left_eq_some, not_or, Bool.not_eq_false] at h
    obtain ⟨⟨hne, hq⟩, h⟩ := h
    cases h
    apply arithmetic_yields ht (hbool rfl) rfl
    · show (if t.isFloating then NumericOp.div else .divInt (.ofPrimitive t)).arity = 2
      split <;> rfl
    · show NumericOp.eval _ (if t.isFloating then .div else .divInt (.ofPrimitive t)) _ = _
      rw [isFloating_of_isIntegral ht, if_neg Bool.false_ne_true, NumericOp.eval,
        quotient?_ofInt hpos hwidth ha hb,
        if_neg (not_or.2 ⟨hne, fun h => not_overflow hwidth h.1 hq h.2⟩)]
      rfl
  | rem =>
    simp only [words, ite_none_left_eq_some, not_or, Bool.not_eq_false] at h
    obtain ⟨⟨hne, -⟩, h⟩ := h
    cases h
    apply arithmetic_yields ht (hbool rfl) rfl rfl
    show some (((Sign.ofPrimitive t).remainder? (BitVec.ofInt _ a) (BitVec.ofInt _ b)).map _) = _
    rw [remainder?_ofInt hpos hwidth ha hb, if_neg hne]
    rfl
  | equal =>
    cases h
    have hres : (if a = b then 1 else 0) = if decide (a = b) then (1 : Int) else 0 := by simp
    show Yields _ _ [.encode .bool (if a = b then 1 else 0)]
    rw [hres]
    apply comparison_yields rfl
    show some (some (Value.truth (BitVec.ofInt _ b == BitVec.ofInt _ a))) = _
    rw [hequal]
  | notEqual =>
    cases h
    have hres : (if a = b then 0 else 1) = if !decide (a = b) then (1 : Int) else 0 := by simp
    show Yields _ _ [.encode .bool (if a = b then 0 else 1)]
    rw [hres]
    apply comparison_yields rfl
    show some (some (Value.truth (BitVec.ofInt _ b != BitVec.ofInt _ a))) = _
    rw [bne, hequal]

end

/-! ## Constants -/

section

variable {t : Primitive} {n : Int}

theorem accepts_of_holds (ht : t.isIntegral = true) (h : t.holds n = true) :
    (ValueType.ofIntegral t).accepts n = true := by
  have hpos := (isIntegral_bits ht).1
  have hwidth := bits_le_width ht
  rw [ValueType.accepts, isInteger_ofIntegral, Bool.true_and, Bool.or_eq_true, beq_iff_eq, beq_iff_eq]
  by_cases hs : t.isSigned = true
  · exact .inl (toInt_ofInt hpos hwidth hs h).symm
  · exact .inr (toNat_ofInt hwidth (Bool.eq_false_iff.2 hs) h).symm

/-- A constant is written without a sign if its type is `u64`, and as the signed number with its low
bits otherwise. -/
theorem constant_yields (ht : t.isIntegral = true) (h : t.holds n = true) :
    Yields [.const (.ofIntegral t) (constantValue t (.ofIntegral t) n)] [] [.encode t n] := by
  have hwrapped : ∀ v : ValueType, v.isInteger = true →
      v.accepts (Integer.wrapSigned v.width n) = true ∧
        Value.ofInt v (Integer.wrapSigned v.width n) = .ofInt v n := by
    intro v hv
    have hsigned : Integer.wrapSigned v.width n = (BitVec.ofInt v.width n).toInt := by
      rw [BitVec.toInt_ofInt, Integer.wrapSigned]
    rw [hsigned, ValueType.accepts, hv, Value.ofInt, BitVec.ofInt_toInt, Value.ofInt]
    simp
  rw [encode_eq_ofInt ht h]
  unfold constantValue
  split
  · exact yields_const (accepts_of_holds ht h)
  · have hcases := ofIntegral_cases t
    generalize ValueType.ofIntegral t = v at hcases
    rcases hcases with rfl | rfl
    · obtain ⟨haccepts, hsame⟩ := hwrapped .i32 rfl
      rw [← hsame]
      exact yields_const haccepts
    · obtain ⟨haccepts, hsame⟩ := hwrapped .i64 rfl
      rw [← hsame]
      exact yields_const haccepts

end

/-! ## Conversions -/

section

variable {source target : Primitive} {a : Int}

theorem extend_yields (hs : source.isIntegral = true) (hnarrow : source.bits ≤ 32)
    (ha : source.holds a = true) :
    Yields [.extend (.ofPrimitive source)] [.ofInt .i32 a] [.ofInt .i64 a] := by
  have hpos := (isIntegral_bits hs).1
  unfold Sign.ofPrimitive
  by_cases hsigned : source.isSigned = true
  · have hword : (BitVec.ofInt 32 a).signExtend 64 = BitVec.ofInt 64 a := by
      rw [BitVec.signExtend, toInt_ofInt hpos hnarrow hsigned ha]
    rw [if_pos hsigned, Value.ofInt, Value.ofInt]
    show Yields _ _ [⟨.i64, BitVec.ofInt 64 a⟩]
    rw [← hword]
    exact fun _ _ _ _ _ => rfl
  · have hunsigned : source.isSigned = false := Bool.eq_false_iff.2 hsigned
    have hword : (BitVec.ofInt 32 a).setWidth 64 = BitVec.ofInt 64 a := by
      have hnumber := toNat_ofInt hnarrow hunsigned ha
      rw [← BitVec.ofNat_toNat, ← BitVec.ofInt_natCast, hnumber]
    rw [if_neg hsigned, Value.ofInt, Value.ofInt]
    show Yields _ _ [⟨.i64, BitVec.ofInt 64 a⟩]
    rw [← hword]
    exact fun _ _ _ _ _ => rfl

theorem wrap_yields (a : Int) : Yields [.wrap] [.ofInt .i64 a] [.ofInt .i32 a] := by
  have hword : (BitVec.ofInt 64 a).setWidth 32 = BitVec.ofInt 32 a := setWidth_ofInt (by decide) a
  rw [Value.ofInt, Value.ofInt]
  show Yields _ _ [⟨.i32, BitVec.ofInt 32 a⟩]
  rw [← hword]
  exact fun _ _ _ _ _ => rfl

theorem between_yields (hs : source.isIntegral = true) (ha : source.holds a = true)
    (target : Primitive) : Yields (between source target (.ofIntegral source) (.ofIntegral target))
      [.ofInt (.ofIntegral source) a] [.ofInt (.ofIntegral target) a] := by
  have hnarrow : ValueType.ofIntegral source = .i32 → source.bits ≤ 32 := by
    intro h
    have hwidth := bits_le_width hs
    rw [h] at hwidth
    exact hwidth
  have hsource := ofIntegral_cases source
  have htarget := ofIntegral_cases target
  generalize ValueType.ofIntegral source = u at hsource hnarrow
  generalize ValueType.ofIntegral target = v at htarget
  rcases hsource with rfl | rfl
  · rcases htarget with rfl | rfl
    · exact Yields.refl _
    · exact extend_yields hs (hnarrow rfl) ha
  · rcases htarget with rfl | rfl
    · exact wrap_yields a
    · exact Yields.refl _

theorem truth_yields (hs : source.isIntegral = true) (ha : source.holds a = true) :
    Yields [.const (.ofIntegral source) 0, .numeric (.ofIntegral source) .ne] [.encode source a]
      [.truth (a != 0)] := by
  have hpos := (isIntegral_bits hs).1
  have hzero := ofInt_eq_zero_iff hpos (bits_le_width hs) ha
  have hconst := (yields_const (accepts_of_holds hs source.holds_zero)).frame [.encode source a]
  rw [encode_eq_ofInt hs ha] at hconst ⊢
  apply hconst.trans
  apply yields_binary (isInteger_ofIntegral source) rfl
  show some (some (Value.truth (BitVec.ofInt _ a != BitVec.ofInt _ 0))) = _
  have hsame : (BitVec.ofInt (ValueType.ofIntegral source).width a != BitVec.ofInt _ 0) = (a != 0) := by
    rw [Bool.eq_iff_iff, bne_iff_ne, bne_iff_ne, BitVec.ofInt_ofNat]
    exact not_congr hzero
  rw [hsame]

/-- A conversion between different types leaves the converted number. -/
theorem conversion_yields (c : Context) (hs : source.isIntegral = true)
    (ht : target.isIntegral = true) (hne : source ≠ target) (ha : source.holds a = true) :
    ∃ ops, conversion c source target = .ok ops ∧
      Yields ops [.encode source a] [.encode target (target.cast a)] := by
  have hstr : ¬(source = .str ∨ target = .str) := by
    rintro (rfl | rfl)
    · cases hs
    · cases ht
  unfold conversion
  rw [if_neg hne, if_neg hstr, ofPrimitive?_of_isIntegral hs, ofPrimitive?_of_isIntegral ht,
    isFloating_of_isIntegral hs]
  by_cases hbool : target = .bool
  · refine ⟨_, if_pos ⟨hbool, Bool.false_ne_true⟩, ?_⟩
    have hres : target.cast a = if a != 0 then 1 else 0 := by
      rw [Primitive.cast, if_pos hbool]
      simp
    rw [hres, hbool, encode_bool]
    exact truth_yields hs ha
  · refine ⟨_, if_neg fun h => hbool h.1, ?_⟩
    rw [Primitive.cast, if_neg hbool, encode_lowBits ht, encode_eq_ofInt hs ha]
    exact (between_yields hs ha target).trans (narrow_yields ht hbool a)

end

/-! ## Conditions -/

/-- Whether a conditional that takes a value goes by a truth value. -/
def Value.Tests (v : Value) (truth : Bool) : Prop :=
  ∃ x : BitVec 32, v = ⟨.i32, x⟩ ∧ (x = 0 ↔ truth = false)

theorem Value.truth_tests (b : Bool) : (truth b).Tests b := by
  cases b with
  | false => exact ⟨_, rfl, iff_of_true rfl rfl⟩
  | true => exact ⟨1, rfl, iff_of_false (by decide) Bool.noConfusion⟩

section

variable {t : Primitive} {a : Int} {cond : Condition}

theorem comparison_tests {n : Int} (ht : t.isIntegral = true) (ha : t.holds a = true)
    (hn : t.holds n = true) (hvalue : cond.takesValue = true) : (comparison cond t).arity = 2 ∧
      (comparison cond t).eval (.ofIntegral t) [BitVec.ofInt _ a, BitVec.ofInt _ n] =
        some (some (.truth (cond.test n a))) := by
  have hpos := (isIntegral_bits ht).1
  have hwidth := bits_le_width ht
  have hequal : (BitVec.ofInt (ValueType.ofIntegral t).width a == BitVec.ofInt _ n) = (a == n) := by
    rw [Bool.eq_iff_iff, beq_iff_eq, beq_iff_eq]
    exact ofInt_inj hpos hwidth ha hn
  have hless := below_ofInt hpos hwidth ha hn
  have hmore := below_ofInt hpos hwidth hn ha
  have hfloating := isFloating_of_isIntegral ht
  have hnot : ∀ a n : Int, (!decide (a < n)) = decide (n ≤ a) := by
    intro a n
    rw [← decide_not, decide_eq_decide]
    exact Int.not_lt
  let found : Bool → Option (Option Value) := fun b => some (some (.truth b))
  cases cond with
  | equal => exact ⟨rfl, congrArg found hequal⟩
  | unequal => exact ⟨rfl, congrArg (fun b => found !b) hequal⟩
  | greater =>
    simp only [comparison, hfloating, Bool.false_eq_true, if_false]
    exact ⟨rfl, congrArg found hmore⟩
  | lesser =>
    simp only [comparison, hfloating, Bool.false_eq_true, if_false]
    exact ⟨rfl, congrArg found hless⟩
  | greaterEqual =>
    simp only [comparison, hfloating, Bool.false_eq_true, if_false]
    exact ⟨rfl, congrArg found ((congrArg not hless).trans (hnot a n))⟩
  | lesserEqual =>
    simp only [comparison, hfloating, Bool.false_eq_true, if_false]
    exact ⟨rfl, congrArg found ((congrArg not hmore).trans (hnot n a))⟩
  | forced | true | false | zero => cases hvalue

/-- The instructions of a condition leave a value that tells whether it holds. -/
theorem condition_yields (i : Instruction) {number : Option Int} (ht : t.isIntegral = true)
    (ha : t.holds a = true) (hforced : cond ≠ .forced)
    (hnumber : cond.takesValue = false ∨ number.any t.holds = true) :
    ∃ ops v, conditionOps i cond number t (.ofIntegral t) = .ok ops ∧
      Yields ops [.encode t a] [v] ∧ v.Tests (cond.test (number.getD 0) a) := by
  have hpos := (isIntegral_bits ht).1
  by_cases hvalue : cond.takesValue = true
  · rw [hvalue] at hnumber
    obtain ⟨_, rfl, hn⟩ := (Option.any_eq_true _ _).1 (hnumber.resolve_left Bool.noConfusion)
    obtain ⟨harity, heval⟩ := comparison_tests ht ha hn hvalue
    have hconst := (yields_const (accepts_of_holds ht hn)).frame [.encode t a]
    have hcompare := yields_binary (isInteger_ofIntegral t) harity heval
    rw [encode_eq_ofInt ht ha] at hconst ⊢
    refine ⟨_, _, ?_, hconst.trans hcompare, truth_tests _⟩
    cases cond <;> first | rfl | cases hvalue
  have hzero : ∃ ops v, conditionOps i .zero number t (.ofIntegral t) = .ok ops ∧
      Yields ops [.encode t a] [v] ∧ v.Tests (a == 0) := by
    have hsame : (BitVec.ofInt (ValueType.ofIntegral t).width a == 0) = (a == 0) := by
      rw [Bool.eq_iff_iff, beq_iff_eq, beq_iff_eq]
      exact ofInt_eq_zero_iff hpos (bits_le_width ht) ha
    refine ⟨[.numeric (.ofIntegral t) .eqz], .truth (a == 0), ?_, ?_, truth_tests _⟩
    · simp only [conditionOps, isFloating_of_isIntegral ht, Bool.false_eq_true, if_false]
    · rw [encode_eq_ofInt ht ha]
      apply yields_unary (isInteger_ofIntegral t) rfl
      exact congrArg (fun b => some (some (Value.truth b))) hsame
  cases cond with
  | forced => exact absurd rfl hforced
  | true =>
    by_cases hnarrow : ValueType.ofIntegral t = .i32
    · -- any value but zero counts as true
      have hwidth := bits_le_width ht
      have hvalue := encode_eq_ofInt ht ha
      rw [hnarrow] at hwidth hvalue
      have htest := ofInt_eq_zero_iff hpos hwidth ha
      refine ⟨[], _, ?_, Yields.refl _, BitVec.ofInt 32 a, hvalue, ?_⟩
      · simp only [conditionOps, hnarrow, if_true]
      · rw [Condition.test, bne_eq_false_iff_eq]
        exact htest
    · refine ⟨_, _, ?_, truth_yields ht ha, truth_tests _⟩
      simp only [conditionOps, hnarrow, if_false]
  | false | zero => exact hzero
  | greater | lesser | greaterEqual | lesserEqual | equal | unequal => exact absurd rfl hvalue

end

end ScriptCompiler.Wat
