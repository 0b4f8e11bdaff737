import ScriptCompiler.Proofs.X86.StraightLine

/-!
# Constants are converted as values are

A constant is converted when the code is compiled, every other value when it runs. The number that
a constant becomes has the low bits of the constant and lies between the bounds of the type, and it
is what the lines of the conversion leave in `EAX` if the constant is loaded there before them.
-/

set_option autoImplicit false

namespace ScriptCompiler

namespace Primitive

variable {t : Primitive} {n : Int}

theorem bounds_of_holds (ht : t.isWord = true) (hbool : t ≠ .bool) (h : t.holds n = true) :
    t.minValue ≤ n ∧ n ≤ t.maxValue := by
  rw [holds_iff] at h
  cases t with
  | bool => exact absurd rfl hbool
  | i8 | i16 | i32 | u8 | u16 | u32 => exact ⟨h.1, Int.le_sub_one_of_lt h.2⟩
  | _ => cases ht

theorem lowBits_emod (t : Primitive) (n : Int) : t.lowBits n % 2 ^ t.bits = n % 2 ^ t.bits := by
  unfold lowBits Integer.wrapSigned
  split
  · have hbmod := @Int.bmod_emod n (2 ^ t.bits)
    push_cast at hbmod
    exact hbmod
  · exact Int.emod_emod_of_dvd n (Int.dvd_refl _)

/-- The number that a word stands for, read with the sign of the type. -/
def ofWord (t : Primitive) (x : BitVec 32) : Int := if t.isSigned then x.toInt else x.toNat

theorem ofWord_ofInt (ht : t.isWord = true) (h : t.holds n = true) :
    t.ofWord (BitVec.ofInt 32 n) = n := by
  unfold ofWord
  split
  · rename_i hsigned
    exact toInt_ofInt (bits_pos ht) (bits_le ht) hsigned h
  · rename_i hsigned
    exact toNat_ofInt (bits_le ht) (Bool.eq_false_iff.2 hsigned) h

end Primitive

namespace X86

variable {source target : Primitive} {n : Int} {i : Instruction}

section

variable (hsource : source.isWord = true) (htarget : target.isWord = true)
include hsource htarget

/-- The lines of a conversion behind one that loads a value. -/
theorem run_loaded_conversion (hn : source.holds n = true) (cpu : Cpu) :
    ∃ d, Cpu.run (.instruction "MOV" [.register .eax, .number n] ::
        if source = target then [] else conversionLines target) cpu = some d ∧
      target.ofWord d.eax = (if source = target then n else target.cast n) ∧
      d.memory = cpu.memory := by
  have hload : cpu.execute "MOV" [.register .eax, .number n] =
      some { cpu with eax := BitVec.ofInt 32 n } :=
    Cpu.execute_mov_number rfl (Width.accepts_of_holds (Primitive.bits_le hsource) hn) cpu
  by_cases hsame : source = target
  · subst hsame
    rw [if_pos rfl, if_pos rfl]
    exact ⟨_, Cpu.run_cons_of hload rfl, Primitive.ofWord_ofInt hsource hn, rfl⟩
  · rw [if_neg hsame, if_neg hsame]
    obtain ⟨d, hd, heax, hmemory⟩ := @run_conversionLines n { cpu with eax := BitVec.ofInt 32 n }
      source target hsource htarget hn rfl
    refine ⟨d, Cpu.run_cons_of hload hd, ?_, hmemory⟩
    rw [heax, Primitive.ofWord_ofInt htarget (Primitive.holds_cast (Primitive.bits_pos htarget) n)]

variable (hi : i.operandType = .ok target) (c : Context) (s : State)
include hi

theorem convert_number (n : Int) : convert c i (s.push (.constant source (.number n))) =
      .ok (s.push (.constant target (.number (if source = target then n else wrap n target)))) := by
  have hstack : (s.push (.constant source (.number n))).stack = _ := rfl
  simp only [convert, hi, reading, ok_bind, pop_eq hstack]
  by_cases hsame : source = target
  · subst hsame
    rw [if_pos (by rfl), if_pos rfl]
    rfl
  · obtain ⟨hstr, hsupp⟩ := registers_of_isWord hsource htarget
    rw [if_neg (by exact hsame), if_neg (by exact hstr), if_neg (by exact hsupp), if_neg hsame]
    rfl

theorem convert_operation : convert c i (s.push (.operation source)) =
      .ok (s.advance (if source = target then [] else conversionLines target) s.frame
        (.operation target :: s.stack)) := by
  have hstack : (s.push (.operation source)).stack = _ := rfl
  simp only [convert, hi, reading, ok_bind, pop_eq hstack]
  by_cases hsame : source = target
  · subst hsame
    rw [if_pos (by rfl), if_pos rfl]
    exact congrArg Except.ok (State.advance_nil (s.push (.operation source))).symm
  · obtain ⟨hstr, hsupp⟩ := registers_of_isWord hsource htarget
    rw [if_neg (by exact hsame), if_neg (by exact hstr), if_neg (by exact hsupp), if_neg hsame]
    simp only [convertValue, StackValue.isOperation, State.load, if_true, ok_bind,
      conversion_eq htarget]
    rfl

end

/-- Constants are converted to truth values and to integers of at most 32 bits as values are. A
truth value is one unless the number is zero; an integer lies between the bounds of its type and has
the low bits of the number. If a constant is a value of its own type, what it is converted to is what
the lines that convert a value leave in `EAX`, read with the sign of the type, when they run with the
constant loaded there. -/
theorem constants_convert_as_values (target : Primitive) (htarget : target.isWord = true) :
    (∀ n : Int, (target = .bool → wrap n target = if n = 0 then 0 else 1) ∧
      (target ≠ .bool → target.minValue ≤ wrap n target ∧ wrap n target ≤ target.maxValue ∧
        wrap n target % 2 ^ (8 * target.size) = n % 2 ^ (8 * target.size))) ∧
    ∀ (source : Primitive) (n : Int), source.isWord = true → source.holds n = true →
      ∀ (c : Context) (i : Instruction) (s : State), i.operandType = .ok target →
      ∃ (k : Int) (lines : List Line), convert c i (s.push (.constant source (.number n))) =
          .ok (s.push (.constant target (.number k))) ∧ (source ≠ target → k = wrap n target) ∧
        convert c i (s.push (.operation source)) =
          .ok (s.advance lines s.frame (.operation target :: s.stack)) ∧ ∀ cpu : Cpu, ∃ d,
          Cpu.run (.instruction "MOV" [.register .eax, .number n] :: lines) cpu = some d ∧
          target.ofWord d.eax = k ∧ d.memory = cpu.memory := by
  refine ⟨fun n => ⟨?_, fun hbool => ?_⟩, ?_⟩
  · rintro rfl
    exact if_pos rfl
  · rw [wrap_eq_cast htarget, Primitive.cast, if_neg hbool]
    obtain ⟨hlow, hhigh⟩ := Primitive.bounds_of_holds htarget hbool
      (Primitive.holds_lowBits (Primitive.bits_pos htarget) n)
    exact ⟨hlow, hhigh, target.lowBits_emod n⟩
  · intro source n hsource hn c i s hi
    refine ⟨_, _, convert_number hsource htarget hi c s n, fun hne => if_neg hne,
      convert_operation hsource htarget hi c s, ?_⟩
    rw [wrap_eq_cast htarget]
    exact run_loaded_conversion hsource htarget hn

/-- The constant `40000` of type `u16` is converted to the `i16` with the same bits, and so is the
value. -/
theorem upper_half_converts :
    Primitive.u16.holds 40000 = true ∧ ∀ (c : Context) (s : State), ∃ lines,
      convert c (.convert .i16) (s.push (.constant .u16 (.number 40000))) =
        .ok (s.push (.constant .i16 (.number (-25536)))) ∧
      convert c (.convert .i16) (s.push (.operation .u16)) =
        .ok (s.advance lines s.frame (.operation .i16 :: s.stack)) ∧ ∀ cpu : Cpu, ∃ d,
        Cpu.run (.instruction "MOV" [.register .eax, .number 40000] :: lines) cpu = some d ∧
        Primitive.i16.ofWord d.eax = -25536 := by
  refine ⟨by decide, fun c s => ?_⟩
  obtain ⟨k, lines, hconst, hk, hvalue, hrun⟩ :=
    (constants_convert_as_values .i16 rfl).2 .u16 40000 rfl (by decide) c (.convert .i16) s rfl
  obtain rfl : k = -25536 := hk (by decide)
  refine ⟨lines, hconst, hvalue, fun cpu => ?_⟩
  obtain ⟨d, hd, hword, -⟩ := hrun cpu
  exact ⟨d, hd, hword⟩

end X86

end ScriptCompiler
