import ScriptCompiler.Proofs.ByteFormat

/-!
# Code that breaks off

What is read from the bytes of instructions when they break off early. The length of every part is
known before the part is looked at, so a part that is not all there is reported as truncated
whatever its first bytes are. Bytes that end behind an instruction give the instructions up to
there.
-/

set_option autoImplicit false

namespace ScriptCompiler.Code

open List

variable {front tail part cut : List UInt8}

/-- Two parts in a row break off behind the first one or inside it. -/
theorem breaks_off (h : front ++ tail = part ++ cut) :
    (∃ more, part = front ++ more ∧ tail = more ++ cut) ∨ ∃ lost, lost ≠ [] ∧ front = part ++ lost := by
  rcases append_eq_append_iff.1 h with ⟨more, hpart, htail⟩ | ⟨lost, hfront, hcut⟩
  · exact .inl ⟨more, hpart, htail⟩
  · cases lost with
    | nil => exact .inl ⟨[], by rw [hfront, append_nil, append_nil], hcut.symm⟩
    | cons b lost => exact .inr ⟨b :: lost, cons_ne_nil _ _, hfront⟩

theorem length_lt_of_cut {n : Nat} (h : (part ++ cut).length = n) (hcut : cut ≠ []) :
    part.length < n := by
  have hpos := length_pos_iff.2 hcut
  rw [length_append] at h
  omega

section

variable (hcut : cut ≠ [])
include hcut

theorem take_cut {n : Nat} (h : (part ++ cut).length = n) : takeBytes n part = .error .truncated :=
  if_pos (length_lt_of_cut h hcut)

variable {opcode : Opcode}

theorem decodeOperand_cut {p : String} (h : encodeOperand opcode p = .ok (part ++ cut)) :
    decodeOperand opcode part = .error .truncated := by
  obtain ⟨hbound, hbytes⟩ := encodeOperand_eq_ok_iff.1 h
  unfold decodeOperand
  rcases breaks_off hbytes.symm with ⟨more, rfl, htext⟩ | ⟨lost, hlost, hsize⟩
  · have hread : takeBytes 4 (Text.littleEndian32 (Text.utf8 p).length ++ more) =
        .ok (Text.littleEndian32 (Text.utf8 p).length, more) := take_eq_ok_iff.2 ⟨rfl, rfl⟩
    rw [hread, ok_bind]
    dsimp only
    rw [ofLittleEndian_littleEndian32 hbound, take_cut hcut (congrArg _ htext.symm),
      Except.error_bind]
  · have hfour : (part ++ lost).length = 4 := congrArg _ hsize.symm
    rw [take_cut hlost hfour, Except.error_bind]

theorem decodeOperands_cut {operands : List String}
    (h : encodeOperands opcode operands = .ok (part ++ cut)) :
    decodeOperands opcode operands.length part = .error .truncated := by
  induction operands generalizing part with
  | nil => exact absurd (append_eq_nil_iff.1 (Except.ok.inj h).symm).2 hcut
  | cons _ _ ih =>
    obtain ⟨front, _, hfront, htail, hbytes⟩ := encodeOperands_cons_eq_ok_iff.1 h
    rw [length_cons, decodeOperands]
    rcases breaks_off hbytes.symm with ⟨_, rfl, rfl⟩ | ⟨_, hlost, rfl⟩
    · rw [decodeOperand_eq_ok_iff.2 ⟨front, hfront, rfl⟩, ok_bind]
      dsimp only
      rw [ih htail, Except.error_bind]
    · rw [decodeOperand_cut hlost hfront, Except.error_bind]

/-- The opcode of an instruction is read once its header is there, and it is a known one. -/
theorem decodeInstruction_cut {i : Instruction} (h : encodeInstruction i = .ok (part ++ cut)) :
    decodeInstruction part = .error .truncated := by
  obtain ⟨_, operands, hoperands, hbytes⟩ := encodeInstruction_eq_ok_iff.1 h
  rcases part with _ | ⟨_, _ | ⟨_, part⟩⟩
  · rfl
  · rfl
  · cases hbytes
    have hlen : (UInt8.ofNat i.operands.length).toNat = i.operands.length := by
      rw [UInt8.toNat_ofNat']
      omega
    unfold decodeInstruction
    dsimp only
    rw [Opcode.ofByte?_eq_some_iff.2 rfl]
    dsimp only
    rw [hlen, decodeOperands_cut hcut hoperands, Except.error_bind]

/-- Instructions are read one by one up to the one in which the bytes break off. -/
theorem decodeWithin_cut {xs : List Instruction} {fuel : Nat} (hfuel : part.length ≤ fuel)
    (h : encode xs = .ok (part ++ cut)) : (∃ n < xs.length, encode (xs.take n) = .ok part) ∨
      decodeWithin fuel part = .error .truncated := by
  induction xs generalizing part fuel with
  | nil => exact absurd (append_eq_nil_iff.1 (Except.ok.inj h).symm).2 hcut
  | cons i _ ih =>
    cases part with
    | nil => exact .inl ⟨0, Nat.zero_lt_succ _, rfl⟩
    | cons b part =>
      obtain ⟨fuel, rfl⟩ := Nat.exists_eq_succ_of_ne_zero (Nat.ne_zero_of_lt hfuel)
      obtain ⟨front, _, hfront, htail, hbytes⟩ := encode_cons_eq_ok_iff.1 h
      rw [decodeWithin_succ_cons]
      rcases breaks_off hbytes.symm with ⟨more, hpart, rfl⟩ | ⟨_, hlost, rfl⟩
      · have hi : decodeInstruction (b :: part) = .ok (i, more) :=
          decodeInstruction_eq_ok_iff.2 ⟨front, hfront, hpart⟩
        have hmore : more.length ≤ fuel :=
          Nat.le_of_lt_succ (Nat.lt_of_lt_of_le (length_lt_of_decodeInstruction hi) hfuel)
        rcases ih hmore htail with ⟨n, hn, hwritten⟩ | htruncated
        · refine .inl ⟨n + 1, Nat.succ_lt_succ hn, ?_⟩
          rw [take_succ_cons]
          exact encode_cons_eq_ok_iff.2 ⟨front, more, hfront, hwritten, hpart⟩
        · rw [hi, ok_bind]
          dsimp only
          rw [htruncated, Except.error_bind]
          exact .inr rfl
      · rw [decodeInstruction_cut hlost hfront, Except.error_bind]
        exact .inr rfl

end

/-- Bytes of a list of instructions that break off early are read if they end behind an instruction,
and give the instructions up to there; otherwise they are reported as truncated. -/
theorem cut_code_read_or_truncated (xs : List Instruction) (bytes part : List UInt8)
    (h : encode xs = .ok bytes) (hpart : part <+: bytes) (hne : part ≠ bytes) :
    (∃ n < xs.length, encode (xs.take n) = .ok part ∧ decode part = .ok (xs.take n)) ∨
      (∀ n, encode (xs.take n) ≠ .ok part) ∧ decode part = .error .truncated := by
  obtain ⟨cut, rfl⟩ := hpart
  have hcut : cut ≠ [] := by
    rintro rfl
    exact hne (List.append_nil part).symm
  rcases decodeWithin_cut hcut (Nat.le_refl _) h with ⟨n, hn, hwritten⟩ | htruncated
  · exact .inl ⟨n, hn, hwritten, decode_eq_ok_iff.2 hwritten⟩
  · refine .inr ⟨fun n hwritten => ?_, htruncated⟩
    have hread := decode_eq_ok_iff.2 hwritten
    rw [decode, htruncated] at hread
    cases hread

namespace Sample

/-- The bytes of `greeting`; the fifteenth is the first one of its `é`. -/
def greetingBytes : List UInt8 :=
  [1, 2, 3, 0, 0, 0, 115, 116, 114, 6, 0, 0, 0, 104, 195, 169, 108, 108, 111,
    14, 2, 5, 0, 0, 0, 69, 113, 117, 97, 108, 2, 0, 0, 0, 45, 51, 16, 0, 17, 0]

end Sample

/-- The greeting breaks off inside a character, and behind its first instruction. -/
theorem greeting_cut : encode Sample.greeting = .ok Sample.greetingBytes ∧
      decode (Sample.greetingBytes.take 15) = .error .truncated ∧
      decode (Sample.greetingBytes.take 19) = .ok (Sample.greeting.take 1) := by
  have hbytes : encode Sample.greeting = .ok Sample.greetingBytes := by decide +kernel
  refine ⟨hbytes, ?_, ?_⟩
  · rcases cut_code_read_or_truncated _ _ _ hbytes (List.take_prefix 15 _) (by decide) with
      ⟨n, hn, hwritten, -⟩ | ⟨-, h⟩
    · have hnone : ∀ n < Sample.greeting.length,
          encode (Sample.greeting.take n) ≠ .ok (Sample.greetingBytes.take 15) := by decide +kernel
      exact absurd hwritten (hnone n hn)
    · exact h
  · exact decode_eq_ok_iff.2 (by decide +kernel)

end ScriptCompiler.Code
