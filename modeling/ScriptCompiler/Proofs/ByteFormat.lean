import ScriptCompiler.Code.Bytes
import ScriptCompiler.Proofs.Results

/-!
# Code as bytes and back

Every function that reads a part of the format has one statement: it gives a value and leaves a rest
exactly if the bytes are those that are written for the value, followed by the rest. So reading and
writing are inverse to each other (`decode_eq_ok_iff`). What can be written is bounded by the bytes
for the number of operands and for their lengths (`Instruction.Fits`), and the first instruction
beyond these bounds is reported.
-/

set_option autoImplicit false

namespace ScriptCompiler

open List

theorem Text.ofUtf8?_eq_some_iff {bytes : List UInt8} {s : String} :
    Text.ofUtf8? bytes = some s ↔ bytes = Text.utf8 s := by
  unfold Text.ofUtf8? Text.utf8 String.fromUTF8?
  constructor
  · intro h
    by_cases hvalid : ByteArray.IsValidUTF8 ⟨bytes.toArray⟩
    · rw [dif_pos hvalid] at h
      cases h
      rfl
    · rw [dif_neg hvalid] at h
      cases h
  · rintro rfl
    rw [dif_pos s.isValidUTF8]
    rfl

/-- An opcode has one byte, and a byte at most one opcode. -/
theorem Opcode.ofByte?_eq_some_iff {b : UInt8} {o : Opcode} :
    Opcode.ofByte? b = some o ↔ b = o.byte := by
  constructor
  · intro h
    have hbyte := find?_some h
    exact (beq_iff_eq.1 hbyte).symm
  · rintro rfl
    cases o <;> rfl

/-- Whether the format has room for the number of operands and the length of each. -/
structure Instruction.Fits (i : Instruction) : Prop where
  count : i.operands.length ≤ 255
  length : ∀ p ∈ i.operands, (Text.utf8 p).length < UInt32.size

instance (i : Instruction) : Decidable i.Fits :=
  decidable_of_iff
    (i.operands.length ≤ 255 ∧ ∀ p ∈ i.operands, (Text.utf8 p).length < UInt32.size)
    ⟨fun h => ⟨h.1, h.2⟩, fun h => ⟨h.count, h.length⟩⟩

/-- The numbers of an instruction that the format has no room for. -/
inductive Instruction.Exceeds (i : Instruction) : Nat → Prop where
  | count : 255 < i.operands.length → i.Exceeds i.operands.length
  | length {p : String} : p ∈ i.operands → UInt32.size ≤ (Text.utf8 p).length →
      i.Exceeds (Text.utf8 p).length

theorem Instruction.Fits.not_exceeds {i : Instruction} (h : i.Fits) (size : Nat) :
    ¬ i.Exceeds size := by
  rintro (hcount | ⟨hp, hlen⟩)
  · exact Nat.not_lt.2 h.count hcount
  · exact Nat.not_le.2 (h.length _ hp) hlen

namespace Code

/-! ## Numbers and parts -/

/-- A number below the bound is read back from its four bytes. -/
theorem ofLittleEndian_littleEndian32 {n : Nat} (h : n < UInt32.size) :
    ofLittleEndian (Text.littleEndian32 n) = n := by
  unfold UInt32.size at h
  simp only [ofLittleEndian, Text.littleEndian32, foldr_cons, foldr_nil, UInt8.toNat_ofNat']
  omega

variable {bytes rest : List UInt8} {p : String} {opcode : Opcode} {i : Instruction}
  {xs : Code}

/-- Four bytes are those of the number that they write, and it is below the bound. -/
theorem littleEndian32_ofLittleEndian (h : bytes.length = 4) :
    ofLittleEndian bytes < UInt32.size ∧ Text.littleEndian32 (ofLittleEndian bytes) = bytes := by
  obtain ⟨b₀, _, rfl⟩ := exists_cons_of_length_eq_add_one h
  obtain ⟨b₁, _, rfl⟩ := exists_cons_of_length_eq_add_one (Nat.succ.inj h)
  obtain ⟨b₂, _, rfl⟩ := exists_cons_of_length_eq_add_one (Nat.succ.inj (Nat.succ.inj h))
  obtain ⟨b₃, rfl⟩ := length_eq_one_iff.1 (Nat.succ.inj (Nat.succ.inj (Nat.succ.inj h)))
  have h₀ := b₀.toNat_lt
  have h₁ := b₁.toNat_lt
  have h₂ := b₂.toNat_lt
  have h₃ := b₃.toNat_lt
  unfold UInt32.size
  simp only [ofLittleEndian, Text.littleEndian32, foldr_cons, foldr_nil]
  refine ⟨by omega, ?_⟩
  simp only [List.cons.injEq, and_true, ← UInt8.toNat_inj, UInt8.toNat_ofNat']
  omega

variable {operands : List String} {front : List UInt8}

theorem take_eq_ok_iff {n : Nat} :
    takeBytes n bytes = .ok (front, rest) ↔ front.length = n ∧ bytes = front ++ rest := by
  unfold takeBytes
  constructor
  · intro h
    by_cases hshort : bytes.length < n
    · rw [if_pos hshort] at h
      cases h
    · rw [if_neg hshort] at h
      cases h
      exact ⟨length_take_of_le (Nat.le_of_not_lt hshort), (take_append_drop n bytes).symm⟩
  · rintro ⟨rfl, rfl⟩
    rw [if_neg (by rw [length_append]; omega), take_left, drop_left]

theorem append_eq_ok_iff {x y : Except CodeError (List UInt8)} :
    (do let front ← x; let tail ← y; return front ++ tail) = Except.ok bytes ↔
      ∃ front tail, x = .ok front ∧ y = .ok tail ∧ bytes = front ++ tail := by
  simp only [Except.bind_eq_ok_iff, Except.pure_eq_ok, Except.ok.injEq]
  constructor
  · rintro ⟨front, hfront, tail, htail, rfl⟩
    exact ⟨front, tail, hfront, htail, rfl⟩
  · rintro ⟨front, tail, hfront, htail, rfl⟩
    exact ⟨front, hfront, tail, htail, rfl⟩

/-! ## Operands -/

theorem encodeOperand_of_lt (opcode : Opcode) (h : (Text.utf8 p).length < UInt32.size) :
    encodeOperand opcode p = .ok (Text.littleEndian32 (Text.utf8 p).length ++ Text.utf8 p) :=
  if_pos h

theorem encodeOperand_of_not_lt (opcode : Opcode) (h : ¬ (Text.utf8 p).length < UInt32.size) :
    encodeOperand opcode p = .error (.oversized opcode (Text.utf8 p).length) :=
  if_neg h

theorem encodeOperand_eq_ok_iff : encodeOperand opcode p = .ok front ↔
      (Text.utf8 p).length < UInt32.size ∧
        front = Text.littleEndian32 (Text.utf8 p).length ++ Text.utf8 p := by
  by_cases h : (Text.utf8 p).length < UInt32.size
  · rw [encodeOperand_of_lt opcode h, Except.ok.injEq]
    exact ⟨fun hfront => ⟨h, hfront.symm⟩, fun hfront => hfront.2.symm⟩
  · rw [encodeOperand_of_not_lt opcode h]
    exact iff_of_false nofun fun hfront => h hfront.1

/-- An operand is read from its own bytes and from no others. -/
theorem decodeOperand_eq_ok_iff : decodeOperand opcode bytes = .ok (p, rest) ↔
      ∃ front, encodeOperand opcode p = .ok front ∧ bytes = front ++ rest := by
  unfold decodeOperand
  constructor
  · intro h
    obtain ⟨⟨size, _⟩, ⟨raw, _⟩, hsize, hraw, h₂⟩ := of_bind₂ h
    obtain ⟨hfour, rfl⟩ := take_eq_ok_iff.1 hsize
    obtain ⟨hlen, rfl⟩ := take_eq_ok_iff.1 hraw
    obtain ⟨hbound, hwritten⟩ := littleEndian32_ofLittleEndian hfour
    dsimp only at h₂
    cases htext : Text.ofUtf8? raw with
    | none =>
      rw [htext] at h₂
      cases h₂
    | some =>
      rw [htext] at h₂
      cases h₂
      obtain rfl := Text.ofUtf8?_eq_some_iff.1 htext
      refine ⟨size ++ Text.utf8 p, ?_, by rw [append_assoc]⟩
      rw [encodeOperand_eq_ok_iff, hlen, hwritten]
      exact ⟨hbound, rfl⟩
  · rintro ⟨front, hfront, rfl⟩
    obtain ⟨hbound, rfl⟩ := encodeOperand_eq_ok_iff.1 hfront
    have hsize : takeBytes 4 (Text.littleEndian32 (Text.utf8 p).length ++ (Text.utf8 p ++ rest)) =
        .ok (Text.littleEndian32 (Text.utf8 p).length, Text.utf8 p ++ rest) :=
      take_eq_ok_iff.2 ⟨rfl, rfl⟩
    have hraw : takeBytes (Text.utf8 p).length (Text.utf8 p ++ rest) = .ok (Text.utf8 p, rest) :=
      take_eq_ok_iff.2 ⟨rfl, rfl⟩
    rw [append_assoc, hsize, ok_bind]
    dsimp only
    rw [ofLittleEndian_littleEndian32 hbound, hraw, ok_bind]
    dsimp only
    rw [Text.ofUtf8?_eq_some_iff.2 rfl]
    rfl

theorem encodeOperands_cons_eq_ok_iff : encodeOperands opcode (p :: operands) = .ok bytes ↔
      ∃ front tail, encodeOperand opcode p = .ok front ∧
        encodeOperands opcode operands = .ok tail ∧ bytes = front ++ tail :=
  append_eq_ok_iff

theorem decodeOperands_eq_ok_iff {count : Nat} :
    decodeOperands opcode count bytes = .ok (operands, rest) ↔ operands.length = count ∧
        ∃ front, encodeOperands opcode operands = .ok front ∧ bytes = front ++ rest := by
  induction count generalizing bytes operands with
  | zero =>
    constructor
    · intro h
      cases h
      exact ⟨rfl, [], rfl, rfl⟩
    · rintro ⟨hnone, front, hfront, rfl⟩
      obtain rfl := length_eq_zero_iff.1 hnone
      cases hfront
      rfl
  | succ count ih =>
    unfold decodeOperands
    constructor
    · intro h
      obtain ⟨⟨p, _⟩, ⟨others, _⟩, hp, hothers, h⟩ := of_bind₂ h
      cases h
      obtain ⟨front, hfront, rfl⟩ := decodeOperand_eq_ok_iff.1 hp
      obtain ⟨hcount, tail, htail, rfl⟩ := ih.1 hothers
      refine ⟨congrArg (· + 1) hcount, front ++ tail, ?_, by rw [append_assoc]⟩
      exact encodeOperands_cons_eq_ok_iff.2 ⟨front, tail, hfront, htail, rfl⟩
    · rintro ⟨hcount, bytes, hbytes, rfl⟩
      obtain ⟨p, others, rfl⟩ := exists_cons_of_length_eq_add_one hcount
      obtain ⟨front, tail, hfront, htail, rfl⟩ := encodeOperands_cons_eq_ok_iff.1 hbytes
      have hp : decodeOperand opcode (front ++ (tail ++ rest)) = .ok (p, tail ++ rest) :=
        decodeOperand_eq_ok_iff.2 ⟨front, hfront, rfl⟩
      have hothers : decodeOperands opcode count (tail ++ rest) = .ok (others, rest) :=
        ih.2 ⟨Nat.succ.inj hcount, tail, htail, rfl⟩
      rw [append_assoc, hp, ok_bind]
      dsimp only
      rw [hothers]
      rfl

/-! ## Instructions -/

theorem encodeInstruction_eq_ok_iff : encodeInstruction i = .ok bytes ↔
      i.operands.length ≤ 255 ∧ ∃ tail, encodeOperands i.opcode i.operands = .ok tail ∧
        bytes = i.opcode.byte :: UInt8.ofNat i.operands.length :: tail := by
  unfold encodeInstruction
  by_cases hcount : 255 < i.operands.length
  · rw [if_pos hcount]
    exact iff_of_false nofun fun h => Nat.not_lt.2 h.1 hcount
  · rw [if_neg hcount, Except.bind_eq_ok_iff]
    simp only [Except.pure_eq_ok, Except.ok.injEq]
    constructor
    · rintro ⟨tail, htail, rfl⟩
      exact ⟨Nat.le_of_not_lt hcount, tail, htail, rfl⟩
    · rintro ⟨-, tail, htail, rfl⟩
      exact ⟨tail, htail, rfl⟩

/-- An instruction is read just from what is written for it. -/
theorem decodeInstruction_eq_ok_iff : decodeInstruction bytes = .ok (i, rest) ↔
      ∃ front, encodeInstruction i = .ok front ∧ bytes = front ++ rest := by
  constructor
  · intro h
    unfold decodeInstruction at h
    split at h
    · cases h
    · cases h
    · rename_i byte count after
      cases hopcode : Opcode.ofByte? byte with
      | none =>
        rw [hopcode] at h
        cases h
      | some opcode =>
        rw [hopcode] at h
        obtain ⟨⟨operands, after'⟩, hoperands, h⟩ := of_bind h
        cases h
        obtain ⟨hcount, tail, htail, rfl⟩ := decodeOperands_eq_ok_iff.1 hoperands
        obtain rfl := Opcode.ofByte?_eq_some_iff.1 hopcode
        refine ⟨opcode.byte :: count :: tail, ?_, rfl⟩
        have hbound := count.toNat_lt
        refine encodeInstruction_eq_ok_iff.2 ⟨by dsimp only; omega, tail, htail, ?_⟩
        dsimp only
        rw [hcount, UInt8.ofNat_toNat]
  · rintro ⟨front, hfront, rfl⟩
    obtain ⟨hcount, tail, htail, rfl⟩ := encodeInstruction_eq_ok_iff.1 hfront
    have hlen : (UInt8.ofNat i.operands.length).toNat = i.operands.length := by
      rw [UInt8.toNat_ofNat']
      omega
    have hoperands : decodeOperands i.opcode (UInt8.ofNat i.operands.length).toNat (tail ++ rest) =
        .ok (i.operands, rest) :=
      decodeOperands_eq_ok_iff.2 ⟨hlen.symm, tail, htail, rfl⟩
    rw [cons_append, cons_append]
    unfold decodeInstruction
    dsimp only
    rw [Opcode.ofByte?_eq_some_iff.2 rfl]
    dsimp only
    rw [hoperands]
    rfl

theorem encode_cons_eq_ok_iff {rest : Code} : encode (i :: rest) = .ok bytes ↔
      ∃ front tail, encodeInstruction i = .ok front ∧ encode rest = .ok tail ∧
        bytes = front ++ tail :=
  append_eq_ok_iff

theorem decodeWithin_nil_eq_ok_iff {fuel : Nat} :
    decodeWithin fuel [] = .ok xs ↔ encode xs = .ok [] := by
  have hnil : decodeWithin fuel [] = .ok [] := by cases fuel <;> rfl
  rw [hnil, Except.ok.injEq]
  constructor
  · rintro rfl
    rfl
  · intro h
    cases xs with
    | nil => rfl
    | cons =>
      obtain ⟨_, _, hfront, -, hbytes⟩ := encode_cons_eq_ok_iff.1 h
      obtain ⟨-, _, -, rfl⟩ := encodeInstruction_eq_ok_iff.1 hfront
      cases hbytes

theorem length_lt_of_decodeInstruction (h : decodeInstruction bytes = .ok (i, rest)) :
    rest.length < bytes.length := by
  obtain ⟨_, hfront, rfl⟩ := decodeInstruction_eq_ok_iff.1 h
  obtain ⟨-, _, -, rfl⟩ := encodeInstruction_eq_ok_iff.1 hfront
  simp only [length_append, length_cons]
  omega

theorem decodeWithin_succ_cons (fuel : Nat) (b : UInt8) (bytes : List UInt8) :
    decodeWithin (fuel + 1) (b :: bytes) = (decodeInstruction (b :: bytes) >>= fun r =>
      decodeWithin fuel r.2 >>= fun rest => pure (r.1 :: rest)) := rfl

/-- Fuel for each byte suffices: instructions are read from their own bytes and from no others. -/
theorem decodeWithin_eq_ok_iff {fuel : Nat} (h : bytes.length ≤ fuel) :
    decodeWithin fuel bytes = .ok xs ↔ encode xs = .ok bytes := by
  induction fuel generalizing bytes xs with
  | zero =>
    obtain rfl := length_eq_zero_iff.1 (Nat.le_zero.1 h)
    exact decodeWithin_nil_eq_ok_iff
  | succ fuel ih =>
    cases bytes with
    | nil => exact decodeWithin_nil_eq_ok_iff
    | cons b bytes =>
      rw [decodeWithin_succ_cons]
      constructor
      · intro hread
        obtain ⟨⟨i, tail⟩, rest, hi, hrest, h₂⟩ := of_bind₂ hread
        cases h₂
        have hshorter := length_lt_of_decodeInstruction hi
        obtain ⟨front, hfront, hbytes⟩ := decodeInstruction_eq_ok_iff.1 hi
        have htail : encode rest = .ok tail := (ih (by dsimp only at hrest; omega)).1 hrest
        exact encode_cons_eq_ok_iff.2 ⟨front, tail, hfront, htail, hbytes⟩
      · intro hwritten
        cases xs with
        | nil => cases hwritten
        | cons i rest =>
          obtain ⟨front, tail, hfront, htail, hbytes⟩ := encode_cons_eq_ok_iff.1 hwritten
          have hi : decodeInstruction (b :: bytes) = .ok (i, tail) :=
            decodeInstruction_eq_ok_iff.2 ⟨front, hfront, hbytes⟩
          have hshorter := length_lt_of_decodeInstruction hi
          have hrest : decodeWithin fuel tail = .ok rest := (ih (by omega)).2 htail
          rw [hi, ok_bind, hrest]
          rfl

theorem decode_eq_ok_iff : decode bytes = .ok xs ↔ encode xs = .ok bytes :=
  decodeWithin_eq_ok_iff (Nat.le_refl _)

/-! ## Room in the format -/

/-- Operands are written if each of them fits, and otherwise one that does not is reported. -/
theorem encodeOperands_ok_or_oversized (opcode : Opcode) (operands : List String) :
    ((∀ p ∈ operands, (Text.utf8 p).length < UInt32.size) ∧
        ∃ bytes, encodeOperands opcode operands = .ok bytes) ∨
      ∃ p ∈ operands, UInt32.size ≤ (Text.utf8 p).length ∧
        encodeOperands opcode operands = .error (.oversized opcode (Text.utf8 p).length) := by
  induction operands with
  | nil => exact .inl ⟨forall_mem_nil _, [], rfl⟩
  | cons p _ ih =>
    by_cases hp : (Text.utf8 p).length < UInt32.size
    · have hfront := encodeOperand_of_lt opcode hp
      rcases ih with ⟨hrest, tail, htail⟩ | ⟨q, hq, hlarge, herror⟩
      · have hall := encodeOperands_cons_eq_ok_iff.2 ⟨_, tail, hfront, htail, rfl⟩
        exact .inl ⟨forall_mem_cons.2 ⟨hp, hrest⟩, _, hall⟩
      · refine .inr ⟨q, mem_cons_of_mem p hq, hlarge, ?_⟩
        rw [encodeOperands, hfront, ok_bind, herror, Except.error_bind]
    · refine .inr ⟨p, mem_cons_self, Nat.le_of_not_lt hp, ?_⟩
      rw [encodeOperands, encodeOperand_of_not_lt opcode hp, Except.error_bind]

theorem encodeInstruction_ok_or_oversized (i : Instruction) :
    (i.Fits ∧ ∃ bytes, encodeInstruction i = .ok bytes) ∨
      ∃ size, i.Exceeds size ∧ encodeInstruction i = .error (.oversized i.opcode size) := by
  by_cases hcount : 255 < i.operands.length
  · exact .inr ⟨_, .count hcount, if_pos hcount⟩
  · have hle : i.operands.length ≤ 255 := Nat.le_of_not_lt hcount
    rcases encodeOperands_ok_or_oversized i.opcode i.operands with
      ⟨hfits, tail, htail⟩ | ⟨p, hp, hlarge, herror⟩
    · exact .inl ⟨⟨hle, hfits⟩, _, encodeInstruction_eq_ok_iff.2 ⟨hle, tail, htail, rfl⟩⟩
    · refine .inr ⟨_, .length hp hlarge, ?_⟩
      rw [encodeInstruction, if_neg hcount, herror, Except.error_bind]

/-- A list is written if every instruction fits, and otherwise the first one that does not is
reported. -/
theorem encode_ok_or_oversized (xs : Code) : ((∀ i ∈ xs, i.Fits) ∧ ∃ bytes, encode xs = .ok bytes) ∨
      ∃ before : Code, ∃ i after size, xs = before ++ i :: after ∧
        (∀ j ∈ before, j.Fits) ∧ i.Exceeds size ∧
          encode xs = .error (.oversized i.opcode size) := by
  induction xs with
  | nil => exact .inl ⟨forall_mem_nil _, [], rfl⟩
  | cons i rest ih =>
    rcases encodeInstruction_ok_or_oversized i with ⟨hi, front, hfront⟩ | ⟨size, hi, herror⟩
    · rcases ih with ⟨hrest, tail, htail⟩ | ⟨before, j, after, size, rfl, hbefore, hj, herror⟩
      · have hall := encode_cons_eq_ok_iff.2 ⟨front, tail, hfront, htail, rfl⟩
        exact .inl ⟨forall_mem_cons.2 ⟨hi, hrest⟩, _, hall⟩
      · refine .inr ⟨i :: before, j, after, size, rfl, forall_mem_cons.2 ⟨hi, hbefore⟩, hj, ?_⟩
        rw [encode, hfront, ok_bind, herror, Except.error_bind]
    · refine .inr ⟨[], i, rest, size, rfl, forall_mem_nil _, hi, ?_⟩
      rw [encode, herror, Except.error_bind]

/-- Lists whose instructions fit the format and byte strings that can be read stand in a one-to-one
correspondence: writing leads from one to the other and reading leads back. A list that is not
written has a first instruction that does not fit, and that is what is reported. -/
theorem encode_decode_inverse (xs : List Instruction) :
    ((∀ i ∈ xs, i.Fits) → ∃ bytes, encode xs = .ok bytes ∧ decode bytes = .ok xs) ∧
      ((¬ ∀ i ∈ xs, i.Fits) → ∃ before i after size, xs = before ++ i :: after ∧
        (∀ j ∈ before, j.Fits) ∧ i.Exceeds size ∧ encode xs = .error (.oversized i.opcode size)) ∧
      ∀ bytes, decode bytes = .ok xs ↔ encode xs = .ok bytes := by
  refine ⟨?_, ?_, fun bytes => decode_eq_ok_iff⟩
  · intro hfits
    rcases encode_ok_or_oversized xs with ⟨-, bytes, hbytes⟩ | ⟨before, i, after, size, rfl, -, hi, -⟩
    · exact ⟨bytes, hbytes, decode_eq_ok_iff.2 hbytes⟩
    · exact absurd hi ((hfits i (by simp)).not_exceeds size)
  · intro hnot
    rcases encode_ok_or_oversized xs with ⟨hfits, -⟩ | hoversized
    · exact absurd hfits hnot
    · exact hoversized

namespace Sample

/-- Loads `héllo`, compares with `-3` and returns. -/
def greeting : List Instruction :=
  [.loadConst .str "héllo", .branch .equal (some (-3)), .endBranch, .ret]

/-- An instruction with more operands than a byte counts. -/
def crowded : Instruction := ⟨.nop, List.replicate 256 ""⟩

end Sample

/-- Four instructions are written and read back; with `crowded` behind them they are refused. -/
theorem greeting_read_back : ((∀ i ∈ Sample.greeting, i.Fits) ∧
      ∃ bytes, encode Sample.greeting = .ok bytes ∧ decode bytes = .ok Sample.greeting) ∧
    (¬ ∀ i ∈ Sample.greeting ++ [Sample.crowded], i.Fits) ∧
      ∃ opcode size, encode (Sample.greeting ++ [Sample.crowded]) =
        .error (.oversized opcode size) := by
  have hfits : ∀ i ∈ Sample.greeting, i.Fits := by decide +kernel
  have hnot : ¬ ∀ i ∈ Sample.greeting ++ [Sample.crowded], i.Fits := by decide +kernel
  obtain ⟨hwritten, -, -⟩ := encode_decode_inverse Sample.greeting
  obtain ⟨-, hrefused, -⟩ := encode_decode_inverse (Sample.greeting ++ [Sample.crowded])
  obtain ⟨_, i, _, size, -, -, -, herror⟩ := hrefused hnot
  exact ⟨⟨hfits, hwritten hfits⟩, hnot, i.opcode, size, herror⟩

end Code

end ScriptCompiler
