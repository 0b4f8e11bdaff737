import ScriptCompiler.Proofs.Machine

/-!
# Words

The interpretation of stack code over truth values and integers of at most 32 bits.
A value is a number between the bounds of its type. Arithmetic is done on numbers
and cut to the bits of the type; a division rounds toward zero, and traps if the
divisor is zero or the quotient is no value of the type. A truth value is a byte:
a slot may hold any, and operators and conversions yield zero or one.
-/

set_option autoImplicit false

namespace ScriptCompiler

open Option

/-! ## Values of a type -/

namespace Primitive

/-- Whether the values are truth values or integers of at most 32 bits. -/
def isWord : Primitive → Bool
  | i8 | i16 | i32 | u8 | u16 | u32 | bool => true
  | _ => false

/-- The number of bits of a value. -/
def bits (t : Primitive) : Nat := 8 * t.size

/-- Whether a number is a value of the type. -/
def holds (t : Primitive) (n : Int) : Bool :=
  if t.isSigned then Integer.fits t.bits n else 0 ≤ n && n < 2 ^ t.bits

/-- The value of the type that has the low bits of a number. -/
def lowBits (t : Primitive) (n : Int) : Int :=
  if t.isSigned then Integer.wrapSigned t.bits n else n % 2 ^ t.bits

/-- The value of the type that a number is converted to. -/
def cast (t : Primitive) (n : Int) : Int :=
  if t = .bool then if n = 0 then 0 else 1 else t.lowBits n

variable {t : Primitive} {n : Int}

theorem size_of_isWord (ht : t.isWord = true) : t.size = 1 ∨ t.size = 2 ∨ t.size = 4 := by
  revert ht
  cases t <;> decide

theorem bits_pos (ht : t.isWord = true) : 0 < t.bits := by
  have hsize := size_of_isWord ht
  unfold bits
  omega

theorem bits_le (ht : t.isWord = true) : t.bits ≤ 32 := by
  have hsize := size_of_isWord ht
  unfold bits
  omega

theorem two_pow_bits (ht : 0 < t.bits) : (2 : Int) ^ t.bits = 2 * 2 ^ (t.bits - 1) := by
  rw [← Int.pow_succ', Nat.sub_add_cancel ht]

theorem holds_iff : t.holds n = true ↔
    if t.isSigned then -(2 ^ (t.bits - 1)) ≤ n ∧ n < 2 ^ (t.bits - 1)
    else 0 ≤ n ∧ n < 2 ^ t.bits := by
  unfold holds Integer.fits Integer.least Integer.greatest
  split
  · simp only [Bool.and_eq_true, decide_eq_true_eq]
    omega
  · simp only [Bool.and_eq_true, decide_eq_true_eq]

theorem holds_lowBits (ht : 0 < t.bits) (n : Int) : t.holds (t.lowBits n) = true := by
  have hdouble := two_pow_bits ht
  have hpos : (0 : Int) < 2 ^ (t.bits - 1) := Int.pow_pos (by decide)
  rw [holds_iff, lowBits, Integer.wrapSigned]
  split
  · rw [Int.bmod_def]
    push_cast
    rw [hdouble]
    have hlow := Int.emod_nonneg n (b := 2 * 2 ^ (t.bits - 1)) (by omega)
    have hhigh := Int.emod_lt_of_pos n (b := 2 * 2 ^ (t.bits - 1)) (by omega)
    split <;> omega
  · exact ⟨Int.emod_nonneg n (by omega), Int.emod_lt_of_pos n (by omega)⟩

theorem lowBits_of_holds (ht : 0 < t.bits) (h : t.holds n = true) : t.lowBits n = n := by
  have hdouble := two_pow_bits ht
  rw [holds_iff] at h
  rw [lowBits, Integer.wrapSigned]
  split at h
  · rename_i hsigned
    rw [if_pos hsigned]
    apply Int.bmod_eq_of_le
    · push_cast
      omega
    · push_cast
      omega
  · rename_i hsigned
    rw [if_neg hsigned]
    exact Int.emod_eq_of_lt h.1 h.2

theorem lowBits_congr {a b : Int} (h : a % 2 ^ t.bits = b % 2 ^ t.bits) :
    t.lowBits a = t.lowBits b := by
  have hcast : ((2 ^ t.bits : Nat) : Int) = 2 ^ t.bits := by push_cast; rfl
  rw [lowBits, lowBits, Integer.wrapSigned, Integer.wrapSigned, Int.bmod_def, Int.bmod_def, hcast, h]

theorem holds_cast (ht : 0 < t.bits) (n : Int) : t.holds (t.cast n) = true := by
  unfold cast
  split
  · rename_i hbool
    subst hbool
    split <;> rfl
  · exact holds_lowBits ht n

theorem holds_zero (t : Primitive) : t.holds 0 = true := by cases t <;> decide

theorem holds_tmod {a : Int} (b : Int) (h : t.holds a = true) : t.holds (a.tmod b) = true := by
  have hpos : (0 : Int) < 2 ^ (t.bits - 1) := Int.pow_pos (by decide)
  have hbounds : (0 ≤ a.tmod b ∧ a.tmod b ≤ a) ∨ (a ≤ a.tmod b ∧ a.tmod b ≤ 0) := by
    have habs : (a.tmod b).natAbs ≤ a.natAbs := by
      rw [Int.natAbs_tmod]
      exact Nat.mod_le _ _
    rcases Int.le_total 0 a with ha | ha
    · have hnonneg := Int.tmod_nonneg b ha
      omega
    · have hnonneg := Int.tmod_nonneg b (Int.neg_nonneg_of_nonpos ha)
      rw [Int.neg_tmod] at hnonneg
      omega
  rw [holds_iff] at h ⊢
  split at h <;> simp only [*, if_true, if_false, Bool.false_eq_true] <;> omega

end Primitive

/-! ## Numbers in words of a width -/

section

variable {v w : Nat}

theorem ofInt_sub (a b : Int) : BitVec.ofInt w a - BitVec.ofInt w b = BitVec.ofInt w (a - b) := by
  have hsum : BitVec.ofInt w a = BitVec.ofInt w (a - b) + BitVec.ofInt w b := by
    rw [← BitVec.ofInt_add, Int.sub_add_cancel]
  rw [hsum, BitVec.add_sub_cancel]

theorem setWidth_ofInt (h : w ≤ v) (n : Int) :
    (BitVec.ofInt v n).setWidth w = BitVec.ofInt w n := by
  have hdvd : ((2 ^ w : Nat) : Int) ∣ (2 ^ v : Nat) := by exact_mod_cast Nat.pow_dvd_pow 2 h
  have hpos : ((2 ^ v : Nat) : Int) ≠ 0 := by exact_mod_cast Nat.ne_of_gt (Nat.two_pow_pos v)
  apply BitVec.eq_of_toInt_eq
  rw [BitVec.toInt_setWidth, BitVec.toNat_ofInt, Int.toNat_of_nonneg (Int.emod_nonneg n hpos),
    BitVec.toInt_ofInt, ← Int.emod_bmod, Int.emod_emod_of_dvd n hdvd, Int.emod_bmod]

theorem signExtend_ofInt (n : Int) :
    (BitVec.ofInt v n).signExtend w = BitVec.ofInt w (n.bmod (2 ^ v)) := by
  rw [BitVec.signExtend, BitVec.toInt_ofInt]

theorem zeroExtend_ofInt (n : Int) :
    (BitVec.ofInt v n).setWidth w = BitVec.ofInt w (n % 2 ^ v) := by
  have hpos : (2 : Int) ^ v ≠ 0 := Int.ne_of_gt (Int.pow_pos (by decide))
  have hnat : ((BitVec.ofInt v n).toNat : Int) = n % 2 ^ v := by
    rw [BitVec.toNat_ofInt]
    push_cast
    exact Int.toNat_of_nonneg (Int.emod_nonneg n hpos)
  apply BitVec.eq_of_toInt_eq
  rw [BitVec.toInt_setWidth, BitVec.toInt_ofInt, hnat]

namespace Primitive

variable {t : Primitive} {a b : Int}

theorem ofInt_lowBits (t : Primitive) (n : Int) : BitVec.ofInt w (t.lowBits n) =
      if t.isSigned then (BitVec.ofInt t.bits n).signExtend w
      else (BitVec.ofInt t.bits n).setWidth w := by
  rw [signExtend_ofInt, zeroExtend_ofInt, lowBits, Integer.wrapSigned]
  split <;> rfl

theorem toInt_ofInt (ht : 0 < t.bits) (hw : t.bits ≤ w) (hs : t.isSigned = true)
    (ha : t.holds a = true) : (BitVec.ofInt w a).toInt = a := by
  have hdouble : (2 : Int) ^ w = 2 * 2 ^ (w - 1) := by
    rw [← Int.pow_succ', Nat.sub_add_cancel (Nat.lt_of_lt_of_le ht hw)]
  have hpow : (2 : Int) ^ (t.bits - 1) ≤ 2 ^ (w - 1) := by
    exact_mod_cast Nat.pow_le_pow_right (by decide) (Nat.sub_le_sub_right hw 1)
  rw [holds_iff, if_pos hs] at ha
  rw [BitVec.toInt_ofInt]
  apply Int.bmod_eq_of_le
  · push_cast
    omega
  · push_cast
    omega

theorem toNat_ofInt (hw : t.bits ≤ w) (hs : t.isSigned = false) (ha : t.holds a = true) :
    ((BitVec.ofInt w a).toNat : Int) = a := by
  have hpow : (2 : Int) ^ t.bits ≤ 2 ^ w := by exact_mod_cast Nat.pow_le_pow_right (by decide) hw
  rw [holds_iff, hs] at ha
  simp only [Bool.false_eq_true, if_false] at ha
  have hmod : a % ((2 ^ w : Nat) : Int) = a := by
    apply Int.emod_eq_of_lt ha.1
    push_cast
    omega
  rw [BitVec.toNat_ofInt, hmod, Int.toNat_of_nonneg ha.1]

theorem ofInt_inj (ht : 0 < t.bits) (hw : t.bits ≤ w) (ha : t.holds a = true)
    (hb : t.holds b = true) : BitVec.ofInt w a = BitVec.ofInt w b ↔ a = b := by
  refine ⟨fun h => ?_, fun h => congrArg _ h⟩
  by_cases hs : t.isSigned = true
  · have hint := congrArg BitVec.toInt h
    rw [toInt_ofInt ht hw hs ha, toInt_ofInt ht hw hs hb] at hint
    exact hint
  · have hs' : t.isSigned = false := Bool.eq_false_iff.2 hs
    have hnat : ((BitVec.ofInt w a).toNat : Int) = (BitVec.ofInt w b).toNat := by rw [h]
    rw [toNat_ofInt hw hs' ha, toNat_ofInt hw hs' hb] at hnat
    exact hnat

end Primitive

end

/-! ## The interpretation -/

/-- Truth values and integers of at most 32 bits. Nothing is called. -/
def words : Meaning Int Unit where
  constant type text :=
    if type = .bool then if text = "true" then 1 else 0
    else (Integer.readSigned? text.toList).getD 0
  convert _ target n := some (target.cast n)
  operate op type a b :=
    match op with
    | .add => some (type.lowBits (a + b))
    | .sub => some (type.lowBits (a - b))
    | .mul => some (type.lowBits (a * b))
    | .div => if b = 0 ∨ type.holds (a.tdiv b) = false then none else some (a.tdiv b)
    | .rem => if b = 0 ∨ type.holds (a.tdiv b) = false then none else some (a.tmod b)
    | .equal => some (if a = b then 1 else 0)
    | .notEqual => some (if a = b then 0 else 1)
  call _ _ _ := none
  isTrue n := n != 0
  below _ a b := a < b

variable {t : Primitive}

theorem holds_of_operate {op : BinaryOp} {a b n : Int} (ht : 0 < t.bits) (ha : t.holds a = true)
    (h : words.operate op t a b = some n) :
    (if op.isComparison then Primitive.bool else t).holds n = true := by
  cases op with
  | add | sub | mul =>
    cases h
    exact Primitive.holds_lowBits ht _
  | div =>
    simp only [words, ite_none_left_eq_some, not_or, Bool.not_eq_false] at h
    obtain ⟨⟨-, hn⟩, h⟩ := h
    cases h
    exact hn
  | rem =>
    simp only [words, ite_none_left_eq_some] at h
    cases h.2
    exact Primitive.holds_tmod b ha
  | equal | notEqual =>
    cases h
    show Primitive.bool.holds (if a = b then _ else _) = true
    split <;> rfl

/-- Whether a text is written for a value of a type. -/
def Primitive.reads (t : Primitive) (text : String) : Bool :=
  if t = .bool then text == "true" || text == "false"
  else (Integer.readSigned? text.toList).any t.holds

/-- A text that is written for a value of an integer type of at most 64 bits is read by both
targets. -/
theorem Primitive.read?_of_reads {text : String} (hbool : t ≠ .bool) (hbits : t.bits ≤ 64)
    (h : t.reads text = true) :
    ∃ n, Integer.readSigned? text.toList = some n ∧ Integer.read? 128 text = some n ∧
      t.holds n = true := by
  rw [Primitive.reads, if_neg hbool] at h
  obtain ⟨n, hn, hholds⟩ := (Option.any_eq_true _ _).1 h
  have hfits : Integer.fits 128 n = true := by
    have hlow : (2 : Int) ^ (t.bits - 1) ≤ 2 ^ 127 := by
      exact_mod_cast Nat.pow_le_pow_right (by decide) (show t.bits - 1 ≤ 127 by omega)
    have hhigh : (2 : Int) ^ t.bits ≤ 2 ^ 64 := by
      exact_mod_cast Nat.pow_le_pow_right (by decide) hbits
    have hbounds : -(2 ^ 127) ≤ n ∧ n ≤ 2 ^ 127 - 1 := by
      rw [holds_iff] at hholds
      split at hholds <;> omega
    rw [Integer.fits, Bool.and_eq_true, decide_eq_true_eq, decide_eq_true_eq]
    exact hbounds
  have hread : Integer.read? 128 text = some n := by
    rw [Integer.read?, hn, bind_some, Integer.within?, if_pos hfits]
  exact ⟨n, hn, hread, hholds⟩

/-- Whether a command of a method works on words only and has operands that can be read: arithmetic
is done on integers, constants lie in their type, and slots are words. -/
def Command.isScalar (m : Method) : Command → Bool
  | .nop | .pop => true
  | .constant type text => type.isWord && type.reads text
  | .get index | .set index => Integer.isIndex index && (m.localType? index).any Primitive.isWord
  | .operate op type => type.isWord && (op.isComparison || type.isInteger)
  | .convert target => target.isWord
  | _ => false

/-- Whether an instruction has a command that works on words only. -/
def Instruction.isScalar (m : Method) (i : Instruction) : Bool :=
  i.command?.any (Command.isScalar m)

end ScriptCompiler
