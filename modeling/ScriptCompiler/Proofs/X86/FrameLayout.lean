import ScriptCompiler.Proofs.Words
import ScriptCompiler.Proofs.X86.Cpu
import ScriptCompiler.X86.Frame

/-!
# Places in the frame

Parameters lie above the frame base, locals below it and scratch slots below the
locals, each in bytes of its own: a write to one of them leaves what is read from
all others as it is.
-/

set_option autoImplicit false

namespace ScriptCompiler.X86

/-! ## Sizes -/

variable {t : Primitive} (types : Types)

theorem totalSize_take_succ {types : Types} {k : Nat} (h : types[k]? = some t) :
    totalSize (types.take (k + 1)) = totalSize (types.take k) + t.size := by
  simp [totalSize, List.take_add_one, h]

theorem totalSize_take_le {j k : Nat} (h : j ≤ k) :
    totalSize (types.take j) ≤ totalSize (types.take k) := by
  obtain ⟨_, rfl⟩ := Nat.exists_eq_add_of_le h
  simp [totalSize, List.take_add]

theorem totalSize_take_le_total (k : Nat) : totalSize (types.take k) ≤ totalSize types := by
  have h := totalSize_take_le types (Nat.le_max_left k types.length)
  rwa [List.take_of_length_le (Nat.le_max_right k types.length)] at h

theorem bytes_ofSize_self {n : Nat} (h : n = 1 ∨ n = 2 ∨ n = 4) : (Width.ofSize n).bytes = n := by
  rcases h with rfl | rfl | rfl <;> rfl

theorem bytes_ofSize (ht : t.isWord = true) : (Width.ofSize t.size).bytes = t.size :=
  bytes_ofSize_self (Primitive.size_of_isWord ht)

theorem bits_ofSize (ht : t.isWord = true) : (Width.ofSize t.size).bits = t.bits := by
  rw [Width.bits, bytes_ofSize ht, Primitive.bits]

/-! ## Places -/

namespace Frame

/-- The parameters and locals of a frame, without its scratch slots. -/
def outline (f : Frame) : Frame := { parameters := f.parameters, locals := f.locals }

/-- The address of a parameter or local. -/
def address (f : Frame) (index : Int) : Int :=
  if index < 0 then 8 + totalSize (f.parameters.take (-index - 1).toNat)
  else -totalSize (f.locals.take (index.toNat + 1))

/-- The address of a scratch slot. -/
def tempAddress (f : Frame) (slot : Nat) : Int := -(f.localsSize + 4 * (slot + 1))

/-- The value of a parameter or local of a type. -/
def value (f : Frame) (M : Memory) (index : Int) (t : Primitive) : Int :=
  t.lowBits (M.read (f.address index) t.size)

variable {f g : Frame}

section

variable (h : g.outline = f.outline)
include h

theorem localType?_congr : g.localType? = f.localType? :=
  show g.outline.localType? = f.outline.localType? from congrArg localType? h

theorem localType_congr : g.localType = f.localType :=
  show g.outline.localType = f.outline.localType from congrArg localType h

theorem localOperand?_congr : g.localOperand? = f.localOperand? :=
  show g.outline.localOperand? = f.outline.localOperand? from congrArg localOperand? h

theorem address_congr : g.address = f.address :=
  show g.outline.address = f.outline.address from congrArg address h

theorem tempAddress_congr : g.tempAddress = f.tempAddress :=
  show g.outline.tempAddress = f.outline.tempAddress from congrArg tempAddress h

theorem value_congr : g.value = f.value :=
  show g.outline.value = f.outline.value from congrArg value h

end

variable {f : Frame} {M : Memory} {i j : Int} {t u : Primitive}

theorem exists_localOperand? (h : f.localType? i = some t) :
    ∃ o, f.localOperand? i = some o ∧ o.isMemory = true ∧
      o.width? = some (Width.ofSize t.size) ∧ o.address? = some (f.address i) := by
  rw [localOperand?, h, Option.map_some]
  refine ⟨_, rfl, ?_⟩
  unfold address
  by_cases hi : i < 0
  · simp only [hi, if_true]
    exact ⟨rfl, rfl, rfl⟩
  · simp only [hi, if_false]
    exact ⟨rfl, rfl, rfl⟩

/-- The memory of a place is found by an index by which its type is found. -/
theorem localOperand_of_localType {found : Option Primitive} (h : f.localType i = .ok found) :
    f.localOperand i = .ok (f.localOperand? i) := by
  obtain ⟨_, hindex, -⟩ := of_bind h
  rw [localOperand, hindex]
  rfl

/-- Parameters take the bytes from eight on upwards, locals those below the frame base. -/
theorem address_bounds (h : f.localType? i = some t) :
    (i < 0 ∧ f.parameters[(-i - 1).toNat]? = some t ∧
      f.address i = 8 + totalSize (f.parameters.take (-i - 1).toNat) ∧
      f.address i + t.size = 8 + totalSize (f.parameters.take ((-i - 1).toNat + 1))) ∨
    (0 ≤ i ∧ f.locals[i.toNat]? = some t ∧ f.address i = -totalSize (f.locals.take (i.toNat + 1)) ∧
      f.address i + t.size = -totalSize (f.locals.take i.toNat)) := by
  unfold localType? at h
  unfold address
  by_cases hi : i < 0
  · rw [if_pos hi] at h
    have hsize := totalSize_take_succ h
    rw [if_pos hi]
    exact .inl ⟨hi, h, rfl, by omega⟩
  · rw [if_neg hi] at h
    have hsize := totalSize_take_succ h
    rw [if_neg hi]
    exact .inr ⟨by omega, h, rfl, by omega⟩

theorem address_disjoint (hi : f.localType? i = some t) (hj : f.localType? j = some u)
    (h : i ≠ j) : f.address i + t.size ≤ f.address j ∨ f.address j + u.size ≤ f.address i := by
  rcases address_bounds hi with ⟨hi, -, hlow, hhigh⟩ | ⟨hi, -, hlow, hhigh⟩ <;>
    rcases address_bounds hj with ⟨hj, -, hlow', hhigh'⟩ | ⟨hj, -, hlow', hhigh'⟩
  · rcases Nat.lt_or_gt_of_ne (show (-i - 1).toNat ≠ (-j - 1).toNat by omega) with h | h
    · have := totalSize_take_le f.parameters (show _ + 1 ≤ _ from h)
      omega
    · have := totalSize_take_le f.parameters (show _ + 1 ≤ _ from h)
      omega
  · omega
  · omega
  · rcases Nat.lt_or_gt_of_ne (show i.toNat ≠ j.toNat by omega) with h | h
    · have := totalSize_take_le f.locals (show _ + 1 ≤ _ from h)
      omega
    · have := totalSize_take_le f.locals (show _ + 1 ≤ _ from h)
      omega

/-- Scratch slots lie below all parameters and locals. -/
theorem tempAddress_add_le (hi : f.localType? i = some t) (slot : Nat) :
    f.tempAddress slot + 4 ≤ f.address i := by
  have htotal := totalSize_take_le_total f.locals (i.toNat + 1)
  unfold tempAddress localsSize
  rcases address_bounds hi with ⟨-, -, hlow, -⟩ | ⟨-, -, hlow, -⟩ <;> omega

theorem tempAddress_disjoint {a b : Nat} (h : a ≠ b) :
    f.tempAddress a + 4 ≤ f.tempAddress b ∨ f.tempAddress b + 4 ≤ f.tempAddress a := by
  unfold tempAddress
  omega

/-! ## Writes -/

theorem value_write_temp (hi : f.localType? i = some t) (slot x : Nat) :
    f.value (M.write (f.tempAddress slot) 4 x) i t = f.value M i t := by
  have hbelow := tempAddress_add_le hi slot
  rw [value, value, Memory.read_write_of_disjoint (.inr hbelow)]

theorem value_write_of_ne (hi : f.localType? i = some t) (hj : f.localType? j = some u)
    (h : i ≠ j) (x : Nat) : f.value (M.write (f.address j) u.size x) i t = f.value M i t := by
  have hdisjoint := address_disjoint hi hj h
  rw [value, value, Memory.read_write_of_disjoint hdisjoint]

theorem value_write_self (ht : t.isWord = true) {n : Int} (hn : t.holds n = true) :
    f.value (M.write (f.address i) t.size (BitVec.ofInt 32 n).toNat) i t = n := by
  have hpow : (256 : Int) ^ t.size = 2 ^ t.bits := by
    rw [Primitive.bits, Int.pow_mul]
    rfl
  have hdvd : (2 : Int) ^ t.bits ∣ 2 ^ 32 := by
    exact_mod_cast Nat.pow_dvd_pow 2 (Primitive.bits_le ht)
  have hword : ((BitVec.ofInt 32 n).toNat : Int) = n % 2 ^ 32 := by
    rw [BitVec.toNat_ofInt]
    exact Int.toNat_of_nonneg (Int.emod_nonneg n (by decide))
  rw [value, Memory.read_write_self]
  refine Eq.trans (Primitive.lowBits_congr ?_) 
    (Primitive.lowBits_of_holds (Primitive.bits_pos ht) hn)
  rw [Int.natCast_emod, Int.natCast_pow, hword, Int.cast_ofNat_Int, hpow, Int.emod_emod,
    Int.emod_emod_of_dvd n hdvd]

theorem read_temp_write_of_ne {a b : Nat} (h : a ≠ b) (x : Nat) :
    (M.write (f.tempAddress a) 4 x).read (f.tempAddress b) 4 = M.read (f.tempAddress b) 4 :=
  Memory.read_write_of_disjoint (tempAddress_disjoint h).symm

theorem read_temp_write_slot (hi : f.localType? i = some t) (slot x : Nat) :
    (M.write (f.address i) t.size x).read (f.tempAddress slot) 4 = M.read (f.tempAddress slot) 4 :=
  Memory.read_write_of_disjoint (.inl (tempAddress_add_le hi slot))

end Frame

end ScriptCompiler.X86
