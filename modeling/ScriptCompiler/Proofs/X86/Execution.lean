import ScriptCompiler.Proofs.X86.Actions

/-!
# Lines at work

The lines of a method at work in its frame. A call may do anything to the registers and to memory
below the frame. An entry of the virtual stack stands for the word that would be brought to a
register, and the lines of an action keep the words of all entries that the action does not take
(`Acts.keeps`). Nothing is asked of the registers or of memory, so this holds on every path.
-/

set_option autoImplicit false

namespace ScriptCompiler.X86

open List Option StackValue

/-! ## The machine -/

/-- What is fixed while a method is at work: the bytes of its frame and the addresses of labels. -/
structure Setting where
  size : Nat
  label : String → BitVec 32

/-- A processor at work in a method. -/
structure Core where
  cpu : Cpu
  /-- The bytes between the frame and the top of the stack. -/
  reserved : Nat

namespace Setting

/-- The word of an operand. -/
def value? (e : Setting) (c : Cpu) : Operand → Option (BitVec 32)
  | .number n => some (.ofInt 32 n)
  | .label name => some (e.label name)
  | operand => c.read operand

/-- The address of an offset in the argument area. -/
def argumentAddress (e : Setting) (x : Core) (offset : Nat) : Int := -(e.size + x.reserved) + offset

/-- The address that is written to at an operand in memory. -/
def target? (e : Setting) (x : Core) : Operand → Option Int
  | .argument _ offset => some (e.argumentAddress x offset)
  | operand => operand.address?

end Setting

/-- What a line does. A called method leaves the frame as it is, and nothing else is known of it. -/
inductive Executes (e : Setting) : Line → Core → Core → Prop where
  | plain {mnemonic : String} {operands : List Operand} {x : Core} {d : Cpu}
      (h : x.cpu.execute mnemonic operands = some d) :
      Executes e (.instruction mnemonic operands) x ⟨d, x.reserved⟩
  | address {target : Operand} {name : String} {x : Core} {d : Cpu}
      (h : x.cpu.write target (e.label name) = some d) :
      Executes e (.instruction "MOV" [target, .label name]) x ⟨d, x.reserved⟩
  | compare {r : Register} {n : Int} {word : BitVec 32} {x : Core}
      (h : x.cpu.read (.register r) = some word) :
      Executes e (.instruction "CMP" [.register r, .number n]) x
        ⟨{ x.cpu with zero := some (word - .ofInt 32 n == 0) }, x.reserved⟩
  | argument {width : Width} {offset : Nat} {source : Operand} {word : BitVec 32} {x : Core}
      (h : e.value? x.cpu source = some word) :
      Executes e (.instruction "MOV" [.argument width offset, source]) x
        ⟨x.cpu.store (e.argumentAddress x offset) width.bytes word.toNat, x.reserved⟩
  | reserve {n : Nat} {x : Core} :
      Executes e (.instruction "SUB" [.register .esp, .number n]) x ⟨x.cpu, x.reserved + n⟩
  | call {name : String} {x : Core} {d : Cpu}
      (h : ∀ a : Int, -(e.size : Int) ≤ a → d.memory a = x.cpu.memory a) :
      Executes e (.instruction "CALL" [.label name]) x ⟨d, 0⟩

/-- What lines do one after the other. -/
inductive Runs (e : Setting) : List Line → Core → Core → Prop where
  | nil {x : Core} : Runs e [] x x
  | cons {line : Line} {rest : List Line} {x y z : Core} (h : Executes e line x y)
      (hrest : Runs e rest y z) : Runs e (line :: rest) x z

/-! ## What lines leave alone -/

namespace Cpu

variable {c d : Cpu} {word : BitVec 32}

theorem memory_of_write {o : Operand} (ho : o.isMemory = false) (h : c.write o word = some d) :
    d.memory = c.memory := by
  cases o with
  | register r => cases r <;> cases h <;> rfl
  | number | label => cases h
  | parameter | slot | argument => cases ho

theorem eax_of_write_ecx (h : c.write (.register .ecx) word = some d) : d.eax = c.eax := by
  cases h
  rfl

theorem exists_of_move {target source : Operand} (h : c.move target source = some d) :
    ∃ word, c.write target word = some d ∧ ∀ e : Setting, e.value? c source = some word := by
  cases source with
  | number =>
    obtain ⟨_, -, h⟩ := bind_eq_some_iff.1 h
    obtain ⟨-, h⟩ := ite_none_right_eq_some.1 h
    exact ⟨_, h, fun _ => rfl⟩
  | label =>
    obtain ⟨-, h⟩ := ite_none_right_eq_some.1 h
    cases h
  | register | parameter | slot | argument =>
    obtain ⟨-, h⟩ := ite_none_right_eq_some.1 h
    obtain ⟨word, hread, h⟩ := bind_eq_some_iff.1 h
    exact ⟨word, h, fun _ => hread⟩

theorem exists_of_extend {signed : Bool} {target : Register} {source : Operand}
    (h : c.extend signed target source = some d) :
    ∃ word, c.write (.register target) word = some d := by
  obtain ⟨_, -, h⟩ := bind_eq_some_iff.1 h
  obtain ⟨word, -, h⟩ := bind_eq_some_iff.1 h
  obtain ⟨-, h⟩ := ite_none_right_eq_some.1 h
  exact ⟨_, h⟩

theorem memory_of_extend {signed : Bool} {target : Register} {source : Operand}
    (h : c.extend signed target source = some d) : d.memory = c.memory := by
  obtain ⟨_, h⟩ := exists_of_extend h
  exact memory_of_write rfl h

theorem memory_of_combine {f : BitVec 32 → BitVec 32 → BitVec 32} {a b : Register}
    (h : c.combine f a b = some d) : d.memory = c.memory := by
  obtain ⟨_, -, h⟩ := bind_eq_some_iff.1 h
  obtain ⟨c', hwrite, h⟩ := bind_eq_some_iff.1 h
  cases h
  exact memory_of_write (d := c') rfl hwrite

/-- Lines without memory operands keep memory. -/
theorem memory_of_execute {mnemonic : String} {operands : List Operand}
    (ho : ∀ o ∈ operands, o.isMemory = false) (h : c.execute mnemonic operands = some d) :
    d.memory = c.memory := by
  unfold execute at h
  split at h
  · obtain ⟨_, h, -⟩ := exists_of_move h
    exact memory_of_write (ho _ mem_cons_self) h
  · exact memory_of_extend h
  · exact memory_of_extend h
  · exact memory_of_combine h
  · exact memory_of_combine h
  · exact memory_of_combine h
  · obtain ⟨c', hcombine, rfl⟩ := map_eq_some_iff.1 h
    exact memory_of_combine (d := c') hcombine
  · obtain ⟨words, -, h⟩ := bind_eq_some_iff.1 h
    cases h
    rfl
  · obtain ⟨words, -, h⟩ := bind_eq_some_iff.1 h
    cases h
    rfl
  · cases h
    rfl
  · obtain ⟨words, -, h⟩ := bind_eq_some_iff.1 h
    obtain ⟨-, h⟩ := ite_none_left_eq_some.1 h
    cases h
    rfl
  · obtain ⟨words, -, h⟩ := bind_eq_some_iff.1 h
    obtain ⟨-, h⟩ := ite_none_left_eq_some.1 h
    cases h
    rfl
  · obtain ⟨found, -, h⟩ := bind_eq_some_iff.1 h
    obtain ⟨-, h⟩ := ite_none_right_eq_some.1 h
    exact memory_of_write rfl h
  · obtain ⟨found, -, h⟩ := bind_eq_some_iff.1 h
    obtain ⟨-, h⟩ := ite_none_right_eq_some.1 h
    exact memory_of_write rfl h
  · cases h

end Cpu

section

variable {e : Setting} {x y z : Core} {lines more : List Line}

theorem Runs.append_inv (h : Runs e (lines ++ more) x z) :
    ∃ y, Runs e lines x y ∧ Runs e more y z := by
  induction lines generalizing x with
  | nil => exact ⟨x, .nil, h⟩
  | cons _ _ ih =>
    cases h with
    | cons hfirst hrest =>
      obtain ⟨y, hlines, hmore⟩ := ih hrest
      exact ⟨y, .cons hfirst hlines, hmore⟩

theorem Runs.singleton_inv {line : Line} (h : Runs e [line] x y) : Executes e line x y := by
  cases h with
  | cons hfirst hrest =>
    cases hrest with
    | nil => exact hfirst

/-- A move writes the word of its source to a register or to memory. -/
theorem Executes.move_inv {target source : Operand}
    (h : Executes e (.instruction "MOV" [target, source]) x y) :
    ∃ word, e.value? x.cpu source = some word ∧ y.reserved = x.reserved ∧
      (x.cpu.write target word = some y.cpu ∨ ∃ width offset, target = .argument width offset ∧
        y.cpu = x.cpu.store (e.argumentAddress x offset) width.bytes word.toNat) := by
  generalize hline : Line.instruction "MOV" [target, source] = line at h
  cases h with
  | @plain mnemonic' operands _ d h =>
    cases hline
    obtain ⟨word, hwrite, hvalue⟩ := Cpu.exists_of_move (c := x.cpu) (d := d) h
    exact ⟨word, hvalue e, rfl, .inl hwrite⟩
  | address h =>
    cases hline
    exact ⟨_, rfl, rfl, .inl h⟩
  | argument h =>
    cases hline
    exact ⟨_, h, rfl, .inr ⟨_, _, rfl, rfl⟩⟩
  | compare | reserve | call => simp at hline

theorem Executes.write_register {mnemonic : String} {r : Register} {source : Operand}
    (hm : mnemonic = "MOV" ∨ mnemonic = "MOVSX" ∨ mnemonic = "MOVZX")
    (h : Executes e (.instruction mnemonic [.register r, source]) x y) :
    ∃ word, x.cpu.write (.register r) word = some y.cpu ∧ y.reserved = x.reserved := by
  rcases hm with rfl | hm
  · obtain ⟨word, -, hreserved, hwrite | ⟨_, _, htarget, -⟩⟩ := h.move_inv
    · exact ⟨word, hwrite, hreserved⟩
    · cases htarget
  · generalize hline : Line.instruction mnemonic [.register r, source] = line at h
    cases h with
    | @plain mnemonic' operands _ d h =>
      cases hline
      obtain ⟨word, hword⟩ : ∃ word, x.cpu.write (.register r) word = some d := by
        rcases hm with rfl | rfl
        · exact Cpu.exists_of_extend (show x.cpu.extend true r source = some d from h)
        · exact Cpu.exists_of_extend (show x.cpu.extend false r source = some d from h)
      exact ⟨word, hword, rfl⟩
    | address | compare | argument | reserve | call => rcases hm with rfl | rfl <;> simp at hline

theorem Executes.execute_of_isMemory {mnemonic : String} {r : Register} {source : Operand}
    (hm : source.isMemory = true)
    (h : Executes e (.instruction mnemonic [.register r, source]) x y) :
    x.cpu.execute mnemonic [.register r, source] = some y.cpu := by
  generalize hline : Line.instruction mnemonic [.register r, source] = line at h
  cases h with
  | plain h =>
    cases hline
    exact h
  | address | compare | reserve =>
    cases hline
    cases hm
  | argument | call => simp at hline

theorem Executes.store {target source : Operand} {width : Width} {address : Int}
    (hm : target.isMemory = true) (hw : target.width? = some width)
    (ha : e.target? x target = some address)
    (h : Executes e (.instruction "MOV" [target, source]) x y) :
    ∃ word, e.value? x.cpu source = some word ∧
      y = ⟨x.cpu.store address width.bytes word.toNat, x.reserved⟩ := by
  obtain ⟨cpu, reserved⟩ := y
  obtain ⟨word, hvalue, rfl, hwrite | ⟨_, _, rfl, rfl⟩⟩ := h.move_inv
  · have ha : target.address? = some address := by
      cases target <;> first | exact ha | cases hwrite
    rw [Cpu.write_memory hm hw ha] at hwrite
    cases hwrite
    exact ⟨word, hvalue, rfl⟩
  · cases hw
    cases ha
    exact ⟨word, hvalue, rfl⟩

theorem Executes.reserve_inv {n : Nat}
    (h : Executes e (.instruction "SUB" [.register .esp, .number n]) x y) :
    y = ⟨x.cpu, x.reserved + n⟩ := by
  generalize hline : Line.instruction "SUB" [.register .esp, .number n] = line at h
  cases h with
  | plain h =>
    cases hline
    cases h
  | reserve =>
    cases hline
    rfl
  | address | compare | argument | call => simp at hline

theorem Executes.call_inv {name : String} (h : Executes e (.instruction "CALL" [.label name]) x y) :
    (∀ a : Int, -(e.size : Int) ≤ a → y.cpu.memory a = x.cpu.memory a) ∧ y.reserved = 0 := by
  generalize hline : Line.instruction "CALL" [.label name] = line at h
  cases h with
  | plain h =>
    cases hline
    cases h
  | call h => exact ⟨h, rfl⟩
  | address | compare | argument | reserve => simp at hline

/-- A line that works on registers leaves memory and the top of the stack alone. -/
theorem Executes.of_computes {line : Line} (hline : line.computes = true)
    (h : Executes e line x y) : y.cpu.memory = x.cpu.memory ∧ y.reserved = x.reserved := by
  have hplain : ∀ {o : Operand}, o.isPlain = true → o.isMemory = false := by
    intro o ho
    cases o with
    | register | number | label => rfl
    | parameter | slot | argument => cases ho
  cases h with
  | @plain mnemonic operands _ d h =>
    obtain ⟨-, hoperands⟩ := Bool.and_eq_true_iff.1 hline
    refine ⟨Cpu.memory_of_execute (fun o ho => hplain ?_) h, rfl⟩
    exact List.all_eq_true.1 hoperands o ho
  | compare => exact ⟨rfl, rfl⟩
  | address | argument | reserve | call => simp [Line.computes, Operand.isPlain] at hline

theorem Runs.of_computes (hlines : ∀ line ∈ lines, line.computes = true) (h : Runs e lines x y) :
    y.cpu.memory = x.cpu.memory ∧ y.reserved = x.reserved := by
  induction h with
  | nil => exact ⟨rfl, rfl⟩
  | cons hfirst _ ih =>
    obtain ⟨hmemory, hreserved⟩ := hfirst.of_computes (hlines _ mem_cons_self)
    obtain ⟨hmemory', hreserved'⟩ := ih fun line hline => hlines line (mem_cons_of_mem _ hline)
    exact ⟨hmemory'.trans hmemory, hreserved'.trans hreserved⟩

/-- The lines that leave a method lead to no other line of it. -/
theorem Runs.not_epilogueLines {f : Frame} : ¬Runs e (epilogueLines f) x y := by
  intro h
  cases h with
  | cons hfirst =>
    generalize hline : Line.instruction "LEAVE" [] = line at hfirst
    cases hfirst with
    | plain h =>
      cases hline
      cases h
    | address | compare | argument | reserve | call => simp at hline

end

/-! ## Words of entries -/

/-- Whether a frame lies within `size` bytes. -/
def Frame.Fits (f : Frame) (size : Nat) : Prop := f.localsSize + 4 * f.temps ≤ size

/-- Whether every parameter and local has a type whose values take bytes and fit in a register. -/
def Frame.Regular (f : Frame) : Prop :=
  ∀ index t, f.localType? index = some t → Context.isSupported t = true ∧ t.size ≠ 0

/-- The word of an operand that is no place. -/
def Setting.immediate (e : Setting) : Operand → BitVec 32
  | .number n => .ofInt 32 n
  | .label name => e.label name
  | _ => 0

namespace StackValue

/-- The word that an entry stands for. -/
def word (e : Setting) (f : Frame) (c : Cpu) : StackValue → BitVec 32
  | constant _ operand => e.immediate operand
  | .stored t index => .ofInt 32 (f.value c.memory index t)
  | operation _ => c.eax
  | temp _ slot => .ofNat 32 (c.memory.read (f.tempAddress slot) 4)

/-- Whether the place of an entry belongs to a frame. -/
def Inside (f : Frame) : StackValue → Prop
  | .stored t index => f.localType? index = some t
  | temp _ slot => slot < f.temps
  | _ => True

variable {e : Setting} {f g : Frame} {c d : Cpu} {v : StackValue}

theorem word_congr (h : g.outline = f.outline) : v.word e g c = v.word e f c := by
  cases v with
  | constant | operation => rfl
  | stored => rw [word, word, Frame.value_congr h]
  | temp => rw [word, word, Frame.tempAddress_congr h]

/-- The word of an entry depends on memory, and on `EAX` if the entry is there. -/
theorem word_of_memory (hmemory : d.memory = c.memory)
    (heax : v.isOperation = true → d.eax = c.eax) : v.word e f d = v.word e f c := by
  cases v with
  | constant => rfl
  | operation => exact heax rfl
  | stored | temp => rw [word, word, hmemory]

theorem word_of_above (hv : v.Inside f) (hfits : f.Fits e.size)
    (hmemory : ∀ a : Int, -(e.size : Int) ≤ a → d.memory a = c.memory a)
    (heax : v.isOperation = true → d.eax = c.eax) : v.word e f d = v.word e f c := by
  unfold Frame.Fits Frame.localsSize at hfits
  cases v with
  | constant => rfl
  | operation => exact heax rfl
  | stored t index =>
    have hlow : -(e.size : Int) ≤ f.address index := by
      have htotal := totalSize_take_le_total f.locals (index.toNat + 1)
      rcases Frame.address_bounds hv with ⟨-, -, haddress, -⟩ | ⟨-, -, haddress, -⟩ <;> omega
    have hread : d.memory.read (f.address index) t.size = c.memory.read (f.address index) t.size :=
      Memory.read_congr fun a ha _ => hmemory a (by omega)
    rw [word, word, Frame.value, Frame.value, hread]
  | temp _ slot =>
    have hslot : slot < f.temps := hv
    have hread : d.memory.read (f.tempAddress slot) 4 = c.memory.read (f.tempAddress slot) 4 := by
      refine Memory.read_congr fun a ha _ => hmemory a ?_
      unfold Frame.tempAddress Frame.localsSize at ha
      omega
    rw [word, word, hread]

theorem word_write_temp {slot x : Nat} (hv : v.Inside f) (hslot : v.slot? ≠ some slot) :
    v.word e f (c.store (f.tempAddress slot) 4 x) = v.word e f c := by
  cases v with
  | constant | operation => rfl
  | stored => rw [word, word, Cpu.store_memory, Frame.value_write_temp hv]
  | temp _ other =>
    have hne : slot ≠ other := fun heq => hslot (congrArg some heq.symm)
    rw [word, word, Cpu.store_memory, Frame.read_temp_write_of_ne hne]

theorem word_write_slot {index : Int} {t : Primitive} {x : Nat} (hv : v.Inside f)
    (ht : f.localType? index = some t) (hread : ∀ u, v ≠ .stored u index) :
    v.word e f (c.store (f.address index) t.size x) = v.word e f c := by
  cases v with
  | constant | operation => rfl
  | stored u other =>
    have hne : other ≠ index := fun heq => hread u (congrArg _ heq)
    rw [word, word, Cpu.store_memory, Frame.value_write_of_ne hv ht hne]
  | temp => rw [word, word, Cpu.store_memory, Frame.read_temp_write_slot ht]

end StackValue

theorem bytes_le_size {t : Primitive} (h : t.size ≠ 0) : (Width.ofSize t.size).bytes ≤ t.size := by
  revert h
  cases t <;> decide

/-! ## Lines that move entries -/

section

variable {e : Setting} {f : Frame} {x y : Core} {v : StackValue} {r : Register} {lines : List Line}

theorem loadMnemonic_mem (t : Primitive) :
    State.loadMnemonic t = "MOV" ∨ State.loadMnemonic t = "MOVSX" ∨
      State.loadMnemonic t = "MOVZX" := by
  unfold State.loadMnemonic
  split
  · exact .inl rfl
  · split
    · exact .inr (.inl rfl)
    · exact .inr (.inr rfl)

theorem Runs.load (hr : r = .eax ∨ r = .ecx) (hlines : loadLines? f r v = some lines)
    (h : Runs e lines x y) :
    y.cpu.memory = x.cpu.memory ∧ (r = .ecx → y.cpu.eax = x.cpu.eax) ∧ y.reserved = x.reserved := by
  have hwrite : ∀ {mnemonic : String} {source : Operand},
      mnemonic = "MOV" ∨ mnemonic = "MOVSX" ∨ mnemonic = "MOVZX" →
      Runs e [.instruction mnemonic [.register r, source]] x y →
      y.cpu.memory = x.cpu.memory ∧ (r = .ecx → y.cpu.eax = x.cpu.eax) ∧
        y.reserved = x.reserved := by
    intro mnemonic source hm h
    obtain ⟨_, hword, hreserved⟩ := h.singleton_inv.write_register hm
    refine ⟨Cpu.memory_of_write rfl hword, ?_, hreserved⟩
    rintro rfl
    exact Cpu.eax_of_write_ecx hword
  cases v with
  | constant =>
    cases hlines
    exact hwrite (.inl rfl) h
  | operation =>
    rcases hr with rfl | rfl
    · cases hlines
      cases h
      exact ⟨rfl, fun _ => rfl, rfl⟩
    · cases hlines
      exact hwrite (.inl rfl) h
  | temp =>
    cases hlines
    exact hwrite (.inl rfl) h
  | stored t =>
    obtain ⟨source, -, rfl⟩ := map_eq_some_iff.1 hlines
    exact hwrite (loadMnemonic_mem t) h

/-- A type of one, two or four bytes is loaded like one of the words. -/
theorem exists_isWord {t : Primitive} (h : t.size = 1 ∨ t.size = 2 ∨ t.size = 4) :
    ∃ u : Primitive, u.isWord = true ∧ u.size = t.size ∧ u.isSigned = t.isSigned := by
  cases t with
  | f32 => exact ⟨.i32, rfl, rfl, rfl⟩
  | char | str | ptr => exact ⟨.u32, rfl, rfl, rfl⟩
  | i8 | i16 | i32 | u8 | u16 | u32 | bool => exact ⟨_, rfl, rfl, rfl⟩
  | i64 | i128 | u64 | u128 | f64 | void | number | floating => exact absurd h (by decide)

theorem size_of_isSupported {t : Primitive} (h : Context.isSupported t = true) (hsize : t.size ≠ 0) :
    t.size = 1 ∨ t.size = 2 ∨ t.size = 4 := by
  revert h hsize
  cases t <;> decide

theorem Frame.execute_load {t : Primitive} {index : Int} (ht : f.localType? index = some t)
    (hsize : t.size = 1 ∨ t.size = 2 ∨ t.size = 4) (hr : r.width = .dword) :
    ∃ o, f.localOperand? index = some o ∧ o.isMemory = true ∧ ∀ c : Cpu,
      c.execute (State.loadMnemonic t) [.register r, o] =
        c.write (.register r) (.ofInt 32 (f.value c.memory index t)) := by
  obtain ⟨o, ho, hm, hw, ha⟩ := exists_localOperand? ht
  obtain ⟨_, hu, hsame, hsigned⟩ := exists_isWord hsize
  refine ⟨o, ho, hm, fun c => ?_⟩
  have hload := Cpu.execute_load hu hm (hsame ▸ hw) ha hr c
  rw [State.loadMnemonic, Primitive.lowBits, Primitive.bits, hsame, hsigned] at hload
  exact hload

theorem Runs.load_stored {t : Primitive} {index : Int} (hregular : f.Regular)
    (ht : f.localType? index = some t) (hlines : loadLines? f .ecx (.stored t index) = some lines)
    (h : Runs e lines x y) : y.cpu.ecx = (StackValue.stored t index).word e f x.cpu := by
  obtain ⟨source, hsource, rfl⟩ := map_eq_some_iff.1 hlines
  obtain ⟨hsupp, hsize⟩ := hregular index t ht
  obtain ⟨o, ho, hm, hload⟩ :=
    Frame.execute_load (r := .ecx) ht (size_of_isSupported hsupp hsize) rfl
  obtain rfl : o = source := some.inj (ho.symm.trans hsource)
  have hcpu := (h.singleton_inv.execute_of_isMemory hm).symm.trans (hload x.cpu)
  rw [some.inj hcpu]
  rfl

theorem Runs.to_temp {slot : Nat} {word : BitVec 32} (hr : x.cpu.read (.register r) = some word)
    (h : Runs e [.instruction "MOV" [f.tempOperand slot, .register r]] x y) :
    y = ⟨x.cpu.store (f.tempAddress slot) 4 word.toNat, x.reserved⟩ := by
  have ha : e.target? x (f.tempOperand slot) = some (f.tempAddress slot) :=
    tempOperand_address? f slot
  obtain ⟨found, hfound, rfl⟩ := h.singleton_inv.store rfl rfl ha
  have hfound : x.cpu.read (.register r) = some found := hfound
  obtain rfl : word = found := some.inj (hr.symm.trans hfound)
  rfl

/-- An entry that is stored changes the bytes of its target, and nothing else unless it goes through
`EAX`. -/
theorem Runs.store {target : Operand} {size : Nat} {width : Width} {address : Int}
    (hm : target.isMemory = true) (hw : target.width? = some width)
    (ha : e.target? x target = some address) (hlines : storeLines? f target size v = some lines)
    (h : Runs e lines x y) : (∃ n, y.cpu.memory = x.cpu.memory.write address width.bytes n) ∧
      (v.isConstant = true → y.cpu.eax = x.cpu.eax) ∧ y.reserved = x.reserved := by
  rcases storeLines?_ok hlines with ⟨_, _, rfl, rfl⟩ | ⟨hv, _, hloaded, rfl⟩
  · obtain ⟨word, -, rfl⟩ := h.singleton_inv.store hm hw ha
    exact ⟨⟨_, rfl⟩, fun _ => rfl, rfl⟩
  · obtain ⟨z, hload, hstore⟩ := h.append_inv
    obtain ⟨hmemory, -, hreserved⟩ := hload.load (.inl rfl) hloaded
    have hz : e.target? z target = e.target? x target := by
      cases target <;> simp only [Setting.target?, Setting.argumentAddress, hreserved]
    obtain ⟨word, -, rfl⟩ := hstore.singleton_inv.store hm hw (hz.trans ha)
    refine ⟨⟨word.toNat, by rw [← hmemory]; rfl⟩, fun hconst => ?_, hreserved⟩
    rw [hv] at hconst
    cases hconst

end

/-! ## Entries by height -/

/-- The entry at a height above the bottom of the stack. -/
def entryAt (vs : Stack) (height : Nat) : Option StackValue := vs.reverse[height]?

section

variable {v w : StackValue} {vs before after : Stack} {q : Nat}

theorem entryAt_cons (hq : q < vs.length) : entryAt (v :: vs) q = entryAt vs q := by
  rw [entryAt, entryAt, reverse_cons, getElem?_append_left (by simpa using hq)]

theorem entryAt_length (v : StackValue) (vs : Stack) :
    entryAt (v :: vs) vs.length = some v := by
  simp [entryAt]

theorem mem_of_entryAt (h : entryAt vs q = some v) : v ∈ vs :=
  mem_reverse.1 (mem_of_getElem? h)

theorem lt_of_entryAt (h : entryAt vs q = some v) : q < vs.length := by
  have hlt := (List.getElem?_eq_some_iff.1 h).1
  rwa [length_reverse] at hlt

theorem entryAt_cons_inv (h : entryAt (v :: vs) q = some w) :
    entryAt vs q = some w ∨ q = vs.length ∧ w = v := by
  have hlt := lt_of_entryAt h
  rw [length_cons] at hlt
  rcases Nat.lt_succ_iff_lt_or_eq.1 hlt with hq | rfl
  · rw [entryAt_cons hq] at h
    exact .inl h
  · rw [entryAt_length] at h
    exact .inr ⟨rfl, (some.inj h).symm⟩

theorem entryAt_replace (u : StackValue) (h : entryAt (before ++ v :: after) q = some w) :
    w = v ∧ entryAt (before ++ u :: after) q = some u ∨
      w ∈ before ++ after ∧ entryAt (before ++ u :: after) q = some w := by
  have hreverse : ∀ x : StackValue,
      entryAt (before ++ x :: after) q = (after.reverse ++ x :: before.reverse)[q]? := by
    intro x
    simp [entryAt]
  rw [hreverse] at h ⊢
  rcases Nat.lt_trichotomy q after.reverse.length with hq | rfl | hq
  · rw [getElem?_append_left hq] at h ⊢
    refine .inr ⟨mem_append_right _ (mem_reverse.1 (mem_of_getElem? h)), h⟩
  · rw [getElem?_append_right (Nat.le_refl _), Nat.sub_self] at h ⊢
    exact .inl ⟨(some.inj h).symm, rfl⟩
  · obtain ⟨d, rfl⟩ := Nat.exists_eq_add_of_lt hq
    rw [getElem?_append_right (by omega)] at h ⊢
    have hd : after.reverse.length + d + 1 - after.reverse.length = d + 1 := by omega
    rw [hd, getElem?_cons_succ] at h ⊢
    exact .inr ⟨mem_append_left _ (mem_reverse.1 (mem_of_getElem? h)), h⟩

end

/-- What may become of an entry while an instruction is compiled that does not take it: it stays, or
it goes to a scratch slot because `EAX` is needed or the slot that it reads is assigned to. -/
def Becomes (i : Instruction) (v w : StackValue) : Prop :=
  w = v ∨ (∃ slot, w = .temp v.type slot) ∧
    (v.isOperation = true ∨
      i.opcode = .setLocal ∧ ∃ index, i.number? 0 = some index ∧ v = .stored v.type index)

theorem Becomes.trans {i : Instruction} {u v w : StackValue} (h : Becomes i u v)
    (h' : Becomes i v w) : Becomes i u w := by
  rcases h with rfl | ⟨⟨slot, rfl⟩, hu⟩
  · exact h'
  · rcases h' with rfl | ⟨-, hv | ⟨-, _, -, hv⟩⟩
    · exact .inr ⟨⟨slot, rfl⟩, hu⟩
    · cases hv
    · cases hv

section

variable {c : Context} {i : Instruction} {k : Nat} {a b : Stage} {lines : List Line}
  {v : StackValue} {q : Nat} {f : Frame} {held : Stack}

theorem Action.entry (h : Action c i k a lines b) (hq : q < k) (hv : entryAt a.stack q = some v) :
    ∃ w, entryAt b.stack q = some w ∧ Becomes i v w := by
  cases h with
  | take hk =>
    rw [entryAt_cons (Nat.lt_of_lt_of_le hq hk)] at hv
    exact ⟨v, hv, .inl rfl⟩
  | restore | push => exact ⟨v, (entryAt_cons (lt_of_entryAt hv)).trans hv, .inl rfl⟩
  | @spill f g u n slot t held before after halloc =>
    rcases entryAt_replace (.temp t slot) hv with ⟨rfl, hw⟩ | ⟨-, hw⟩
    · exact ⟨_, hw, .inr ⟨⟨slot, rfl⟩, .inl rfl⟩⟩
    · exact ⟨v, hw, .inl rfl⟩
  | @detach f g u n slot t index held before after lines hop hindex halloc hlines =>
    rcases entryAt_replace (.temp t slot) hv with ⟨rfl, hw⟩ | ⟨-, hw⟩
    · exact ⟨_, hw, .inr ⟨⟨slot, rfl⟩, .inr ⟨hop, index, hindex, rfl⟩⟩⟩
    · exact ⟨v, hw, .inl rfl⟩
  | reorder | discard | intern | load | compute | assign | reserve | argument | call | leave
    | deliver => exact ⟨v, hv, .inl rfl⟩

theorem Acts.entry (h : Acts c i k a lines b) (hq : q < k) (hv : entryAt a.stack q = some v) :
    ∃ w, entryAt b.stack q = some w ∧ Becomes i v w := by
  induction h generalizing v with
  | refl => exact ⟨v, hv, .inl rfl⟩
  | step hfirst _ ih =>
    obtain ⟨_, hu, hbecomes⟩ := hfirst.entry hq hv
    obtain ⟨w, hw, hbecomes'⟩ := ih hu
    exact ⟨w, hw, hbecomes.trans hbecomes'⟩

theorem Action.temps_le (h : Action c i k a lines b) : a.frame.temps ≤ b.frame.temps := by
  cases h with
  | discard | load | assign | argument | deliver => exact Nat.le_of_eq (Frame.temps_release _ _).symm
  | spill halloc | detach _ _ halloc _ => exact (allocTemp_slot halloc).1
  | take | reorder | restore | push | intern | compute | reserve | call | leave =>
    exact Nat.le_refl _

theorem Acts.temps_le (h : Acts c i k a lines b) : a.frame.temps ≤ b.frame.temps := by
  induction h with
  | refl => exact Nat.le_refl _
  | step hfirst _ ih => exact Nat.le_trans hfirst.temps_le ih

/-- Whether entries are kept apart and inside of a regular frame. -/
structure Settled (a : Stage) : Prop where
  regular : a.frame.Regular
  apart : Apart a.frame (a.held ++ a.stack)
  reads : ∀ t index, .stored t index ∈ a.held ++ a.stack → a.frame.localType index = .ok (some t)

theorem Settled.inside (h : Settled a) (hv : v ∈ a.held ++ a.stack) : v.Inside a.frame := by
  cases v with
  | constant | operation => trivial
  | stored t index => exact of_checkIndex (h.reads t index hv)
  | temp _ slot => exact h.apart.given slot (mem_append_left _ (mem_filterMap.2 ⟨_, hv, rfl⟩))

theorem Action.reads (h : Action c i k a lines b)
    (ha : ∀ t index, .stored t index ∈ a.held ++ a.stack → a.frame.localType index = .ok (some t))
    (t : Primitive) (index : Int) (hmem : .stored t index ∈ b.held ++ b.stack) :
    b.frame.localType index = .ok (some t) := by
  rw [Frame.localType_congr h.outline]
  rcases h.origin hmem with hold | hpush | ⟨hslot, -⟩
  · exact ha t index hold
  · exact hpush.2
  · cases hslot

theorem Acts.reads (h : Acts c i k a lines b)
    (ha : ∀ t index, .stored t index ∈ a.held ++ a.stack → a.frame.localType index = .ok (some t)) :
    ∀ t index, .stored t index ∈ b.held ++ b.stack → b.frame.localType index = .ok (some t) := by
  induction h with
  | refl => exact ha
  | step hfirst _ ih => exact ih (hfirst.reads ha)

theorem Action.settled (h : Action c i k a lines b) (ha : Settled a) : Settled b := by
  refine ⟨?_, h.apart ha.apart, h.reads ha.reads⟩
  intro index t ht
  rw [Frame.localType?_congr h.outline] at ht
  exact ha.regular index t ht

/-- Whether the values of the entries taken and of those above a height take bytes. -/
structure Sized (k : Nat) (a : Stage) : Prop where
  held : ∀ v ∈ a.held, v.type.size ≠ 0
  above : ∀ q v, k ≤ q → entryAt a.stack q = some v → v.type.size ≠ 0

/-- Whether the values of the type that an instruction names take bytes. A call may return
nothing. -/
def NamesBytes (i : Instruction) : Prop :=
  ∀ t, i.type? = some t → t.size ≠ 0 ∨ i.opcode = .call ∧ t = .void

instance (i : Instruction) : Decidable (NamesBytes i) :=
  decidable_of_iff (∀ t ∈ i.type?, t.size ≠ 0 ∨ i.opcode = .call ∧ t = .void) Iff.rfl

theorem Pushable.size_ne_zero (h : Pushable f i v) (hi : NamesBytes i) (hregular : f.Regular) :
    v.type.size ≠ 0 := by
  cases v with
  | constant t =>
    rcases hi t h.2 with hsize | ⟨hcall, -⟩
    · exact hsize
    · exact absurd hcall h.1
  | stored t index => exact (hregular index t (of_checkIndex h.2)).2
  | operation t =>
    rcases h with ⟨ht, hvoid⟩ | rfl
    · rcases hi t ht with hsize | ⟨hcall, rfl⟩
      · exact hsize
      · exact absurd rfl (hvoid hcall)
    · decide
  | temp => exact h.elim

/-- An action leaves entries that take bytes. -/
theorem Action.sized (h : Action c i k a lines b) (hi : NamesBytes i) (hregular : a.frame.Regular)
    (ha : Sized k a) : Sized k b := by
  obtain ⟨hheld, habove⟩ := ha
  have hpushed : ∀ {v : StackValue} {vs : Stack}, v.type.size ≠ 0 →
      (∀ q w, k ≤ q → entryAt vs q = some w → w.type.size ≠ 0) →
      ∀ q w, k ≤ q → entryAt (v :: vs) q = some w → w.type.size ≠ 0 := by
    intro v vs hv hvs q w hq hw
    rcases entryAt_cons_inv hw with hw | ⟨-, rfl⟩
    · exact hvs q w hq hw
    · exact hv
  cases h with
  | @take f u n v held vs hk =>
    refine ⟨forall_mem_cons.2 ⟨habove _ v hk (entryAt_length v vs), hheld⟩, ?_⟩
    exact fun q w hq hw => habove q w hq ((entryAt_cons (lt_of_entryAt hw)).trans hw)
  | reorder hperm => exact ⟨fun v hv => hheld v (hperm.mem_iff.2 hv), habove⟩
  | restore =>
    exact ⟨fun v hv => hheld v (mem_cons_of_mem _ hv), hpushed (hheld _ mem_cons_self) habove⟩
  | push hv => exact ⟨hheld, hpushed (hv.size_ne_zero hi hregular) habove⟩
  | @spill f g u n slot t held before after halloc =>
    refine ⟨hheld, fun q w hq hw => ?_⟩
    rcases entryAt_replace (.operation t) hw with ⟨rfl, hv⟩ | ⟨-, hv⟩
    · exact habove q (.operation t) hq hv
    · exact habove q w hq hv
  | @detach f g u n slot t index held before after lines hop hindex halloc hlines =>
    refine ⟨hheld, fun q w hq hw => ?_⟩
    rcases entryAt_replace (.stored t index) hw with ⟨rfl, hv⟩ | ⟨-, hv⟩
    · exact habove q (.stored t index) hq hv
    · exact habove q w hq hv
  | discard | load | assign | argument | deliver =>
    exact ⟨fun v hv => hheld v (mem_cons_of_mem _ hv), habove⟩
  | intern | compute | reserve | call | leave => exact ⟨hheld, habove⟩

/-! ## Words along actions -/

variable {e : Setting} {x y : Core}

/-- An entry that goes to a scratch slot keeps its word, and so do all others. -/
theorem words_to_temp {g : Frame} {u : Shared} {n slot : Nat} {t : Primitive} {d : Cpu}
    {p w : StackValue} {before after : Stack}
    (ha : Settled ⟨f, u, n, held, before ++ v :: after⟩) (halloc : f.allocTemp = (g, slot))
    (hmemory : d.memory = x.cpu.memory) (heax : d.eax = x.cpu.eax)
    (hp : entryAt (before ++ v :: after) q = some p)
    (hw : entryAt (before ++ .temp t slot :: after) q = some w) :
    w.word e g (d.store (g.tempAddress slot) 4 (v.word e f x.cpu).toNat) = p.word e f x.cpu := by
  have hout := allocTemp_outline halloc
  have haddress := Frame.tempAddress_congr hout
  rw [word_congr hout, haddress]
  rcases entryAt_replace (.temp t slot) hp with ⟨rfl, hw'⟩ | ⟨hmem, hw'⟩
  · obtain rfl := some.inj (hw.symm.trans hw')
    rw [StackValue.word, Cpu.store_memory, Memory.read_write_self]
    have hlt : (p.word e f x.cpu).toNat < 256 ^ 4 := (p.word e f x.cpu).isLt
    rw [Nat.mod_eq_of_lt hlt, BitVec.ofNat_toNat, BitVec.setWidth_eq]
  · obtain rfl := some.inj (hw.symm.trans hw')
    have hmem' : w ∈ held ++ (before ++ v :: after) := by
      simp only [mem_append, mem_cons] at hmem ⊢
      exact .inr (hmem.imp_right .inr)
    rw [word_write_temp (ha.inside hmem') (ha.apart.slot?_ne_of_allocTemp halloc w hmem')]
    exact word_of_memory hmemory fun _ => heax

/-- Whether lines bring a processor from one stage to another, with the words of the lowest entries
kept. -/
structure Keeps (e : Setting) (k : Nat) (a b : Stage) (x y : Core) : Prop where
  reserved : y.reserved = b.reserved
  words : ∀ q < k, ∀ v w, entryAt a.stack q = some v → entryAt b.stack q = some w →
    w.word e b.frame y.cpu = v.word e a.frame x.cpu

theorem Keeps.of_entries (hentries : ∀ q < k, ∀ v, entryAt a.stack q = some v → entryAt b.stack q = some v)
    (hout : b.frame.outline = a.frame.outline) (hreserved : y.reserved = b.reserved)
    (hwords : ∀ v ∈ a.stack, v.word e a.frame y.cpu = v.word e a.frame x.cpu) :
    Keeps e k a b x y := by
  refine ⟨hreserved, fun q hq v _ hv hw => ?_⟩
  obtain rfl := some.inj ((hentries q hq v hv).symm.trans hw)
  rw [word_congr hout]
  exact hwords v (mem_of_entryAt hv)

theorem eax_of_clear {vs : Stack} (hclear : Clear (held ++ vs)) (hv : v ∈ vs)
    (hop : v.isOperation = true) : y.cpu.eax = x.cpu.eax := by
  rw [hclear v (mem_append_right _ hv)] at hop
  cases hop

/-- A stored entry goes through `EAX` only if no other is there. -/
theorem eax_of_store {p : StackValue} {vs : Stack}
    (heax : p.isConstant = true → y.cpu.eax = x.cpu.eax)
    (hclear : p.isConstant = false → Clear (held ++ vs)) (hv : v ∈ vs) (hop : v.isOperation = true) :
    y.cpu.eax = x.cpu.eax := by
  cases hconst : p.isConstant with
  | true => exact heax hconst
  | false => exact eax_of_clear (hclear hconst) hv hop

theorem Frame.Fits.of_le {g : Frame} {size : Nat} (hfits : g.Fits size)
    (hout : g.outline = f.outline) (htemps : f.temps ≤ g.temps) : f.Fits size := by
  have hlocals : g.localsSize = f.localsSize :=
    show g.outline.localsSize = f.outline.localsSize by rw [hout]
  unfold Frame.Fits at hfits ⊢
  omega

/-- The lines of an action keep the words of the entries that it does not take. -/
theorem Action.keeps (h : Action c i k a lines b) (ha : Settled a) (hfits : b.frame.Fits e.size)
    (hparams : ∀ m ∈ c.program.methods, ∀ t ∈ m.parameterTypes, t.size ≠ 0)
    (hheld : i.opcode = .convert → ∀ v ∈ a.held, v.type.size ≠ 0) (hrun : Runs e lines x y)
    (hreserved : x.reserved = a.reserved) : Keeps e k a b x y := by
  have hout := h.outline
  have hfits' := Frame.Fits.of_le hfits hout h.temps_le
  have hinside : ∀ v ∈ a.stack, v.Inside a.frame := fun v hv => ha.inside (mem_append_right _ hv)
  cases h with
  | take hk =>
    cases hrun
    refine .of_entries (fun q hq v hv => ?_) hout hreserved (fun _ _ => rfl)
    exact (entryAt_cons (Nat.lt_of_lt_of_le hq hk)).symm.trans hv
  | restore | push =>
    cases hrun
    refine .of_entries (fun q _ v hv => ?_) hout hreserved (fun _ _ => rfl)
    exact (entryAt_cons (lt_of_entryAt hv)).trans hv
  | reorder | discard | intern =>
    cases hrun
    exact .of_entries (fun _ _ _ hv => hv) hout hreserved (fun _ _ => rfl)
  | @spill f g u n slot t held before after halloc =>
    have hread : x.cpu.read (.register .eax) = some x.cpu.eax := rfl
    obtain rfl := hrun.to_temp hread
    exact ⟨hreserved, fun q _ v w hv hw =>
      words_to_temp (v := .operation t) (d := x.cpu) ha halloc rfl rfl hv hw⟩
  | @detach f g u n slot t index held before after lines hop hindex halloc hlines =>
    obtain ⟨z, hload, htemp⟩ := hrun.append_inv
    have htype := of_checkIndex (ha.reads t index (by simp))
    have hecx := hload.load_stored ha.regular htype hlines
    obtain ⟨hmemory, heax, hz⟩ := hload.load (.inr rfl) hlines
    have hread : z.cpu.read (.register .ecx) = some z.cpu.ecx := rfl
    obtain rfl := htemp.to_temp hread
    rw [hecx]
    exact ⟨hz.trans hreserved, fun q _ v w hv hw =>
      words_to_temp (v := .stored t index) (d := z.cpu) ha halloc hmemory (heax rfl) hv hw⟩
  | load hr hlines hclear =>
    obtain ⟨hmemory, heax, hy⟩ := hrun.load hr hlines
    refine .of_entries (fun _ _ _ hv => hv) hout (hy.trans hreserved) fun v hv => ?_
    refine word_of_memory hmemory fun hop => ?_
    rcases hr with rfl | rfl
    · exact eax_of_clear (hclear rfl) hv hop
    · exact heax rfl
  | compute hlines hclear =>
    obtain ⟨hmemory, hy⟩ := hrun.of_computes hlines
    refine .of_entries (fun _ _ _ hv => hv) hout (hy.trans hreserved) fun v hv => ?_
    exact word_of_memory hmemory (eax_of_clear hclear hv)
  | @assign f u n p held vs index t target lines hop hindex htype htarget hlines hread hclear =>
    obtain ⟨operand, hoperand, hm, hw, hat⟩ := Frame.exists_localOperand? htype
    obtain rfl := some.inj (hoperand.symm.trans htarget)
    have htarget : e.target? x operand = some (f.address index) := by
      cases operand <;> first | exact hat | cases hat
    obtain ⟨⟨n', hmemory⟩, heax, hy⟩ := hrun.store hm hw htarget hlines
    obtain ⟨hsupp, hsize⟩ := ha.regular index t htype
    rw [bytes_ofSize_self (size_of_isSupported hsupp hsize)] at hmemory
    refine .of_entries (fun _ _ _ hv => hv) hout (hy.trans hreserved) fun v hv => ?_
    have hstored := word_write_slot (e := e) (c := x.cpu) (x := n') (hinside v hv) htype
      fun u hu => hread u (hu ▸ hv)
    rw [← hstored]
    exact word_of_memory hmemory (eax_of_store heax hclear hv)
  | reserve total =>
    obtain rfl := hrun.singleton_inv.reserve_inv
    refine .of_entries (fun _ _ _ hv => hv) hout ?_ (fun _ _ => rfl)
    show x.reserved + total = total
    rw [hreserved, Nat.zero_add]
  | @argument f u n offset p held vs t lines ht hbound hlines hclear =>
    obtain ⟨⟨n', hmemory⟩, heax, hy⟩ := hrun.store rfl rfl rfl hlines
    have hsize : t.size ≠ 0 := by
      rcases ht with ⟨hop, rfl⟩ | ⟨m, hm, ht⟩
      · exact hheld hop p mem_cons_self
      · exact hparams m hm t ht
    have hbytes := bytes_le_size hsize
    have hx : x.reserved = n := hreserved
    refine .of_entries (fun _ _ _ hv => hv) hout (hy.trans hreserved) fun v hv => ?_
    refine word_of_above (hinside v hv) hfits' (fun address _ => ?_)
      (eax_of_store heax hclear hv)
    rw [hmemory]
    apply Memory.write_of_outside
    unfold Setting.argumentAddress
    omega
  | call _ hclear =>
    obtain ⟨hmemory, hy⟩ := hrun.singleton_inv.call_inv
    refine .of_entries (fun _ _ _ hv => hv) hout hy fun v hv => ?_
    exact word_of_above (hinside v hv) hfits' hmemory (eax_of_clear hclear hv)
  | leave => exact absurd hrun Runs.not_epilogueLines
  | deliver =>
    obtain ⟨z, -, hleave⟩ := hrun.append_inv
    exact absurd hleave Runs.not_epilogueLines

/-- Actions keep the words of entries that they do not take. -/
theorem Acts.keeps (h : Acts c i k a lines b) (ha : Settled a) (hfits : b.frame.Fits e.size)
    (hparams : ∀ m ∈ c.program.methods, ∀ t ∈ m.parameterTypes, t.size ≠ 0)
    (hsized : i.opcode = .convert → NamesBytes i ∧ Sized k a) (hrun : Runs e lines x y)
    (hreserved : x.reserved = a.reserved) : Keeps e k a b x y := by
  induction h generalizing x with
  | refl =>
    cases hrun
    exact .of_entries (fun _ _ _ hv => hv) rfl hreserved (fun _ _ => rfl)
  | @step a b d lines more hfirst hrest ih =>
    obtain ⟨_, hlines, hmore⟩ := hrun.append_inv
    have hfits' := hfits.of_le hrest.outline hrest.temps_le
    have hkeeps := hfirst.keeps ha hfits' hparams (fun hop => (hsized hop).2.held) hlines
      hreserved
    have hkeeps' := ih (hfirst.settled ha) hfits
      (fun hop => ⟨(hsized hop).1, hfirst.sized (hsized hop).1 ha.regular (hsized hop).2⟩) hmore
      hkeeps.reserved
    refine ⟨hkeeps'.reserved, fun q hq v w hv hw => ?_⟩
    obtain ⟨u, hu, -⟩ := hfirst.entry hq hv
    exact (hkeeps'.words q hq u w hu hw).trans (hkeeps.words q hq v u hv hu)

theorem Acts.settled (h : Acts c i k a lines b) (ha : Settled a) : Settled b := by
  induction h with
  | refl => exact ha
  | step hfirst _ ih => exact ih (hfirst.settled ha)

theorem Acts.sized (h : Acts c i k a lines b) (hi : NamesBytes i) (ha : Settled a)
    (hsized : Sized k a) : Sized k b := by
  induction h with
  | refl => exact hsized
  | step hfirst _ ih => exact ih (hfirst.settled ha) (hfirst.sized hi ha.regular hsized)

end

end ScriptCompiler.X86
