import ScriptCompiler.Proofs.X86.Emission
import ScriptCompiler.Proofs.X86.Execution

/-!
# Calls from frame to frame

The caller makes room on the stack and stores its arguments there; the call pushes an address to
return to, and the called method the frame base of its caller. Then every argument is found where
the called method reads its parameter, whatever the widths are and wherever the argument was before.
-/

set_option autoImplicit false

namespace ScriptCompiler.X86

open List Option

/-! ## Threads -/

/-- A processor with a stack. Memory is known by its addresses, and not from a frame base on. -/
structure Thread where
  cpu : Cpu
  /-- The address of the frame base. -/
  ebp : Int
  /-- The address of the top of the stack. -/
  esp : Int
  /-- The address that a return led to. -/
  returned : Option (BitVec 32) := none

namespace Thread

/-- The processor with its memory from the frame base on. -/
def framed (t : Thread) : Cpu := { t.cpu with memory := fun a => t.cpu.memory (t.ebp + a) }

/-- The thread with the registers and the memory of a processor around its frame base. -/
def within (t : Thread) (c : Cpu) : Thread :=
  { t with cpu := { c with memory := fun a => c.memory (a - t.ebp) } }

/-- The thread with a word in `EAX`. -/
def loaded (t : Thread) (word : BitVec 32) : Thread :=
  { t with cpu := { t.cpu with eax := word } }

/-- The word at the top of the stack. -/
def top (t : Thread) : BitVec 32 := .ofNat 32 (t.cpu.memory.read t.esp 4)

/-- Pushes a word. -/
def push (t : Thread) (word : BitVec 32) : Thread :=
  { t with cpu := t.cpu.store (t.esp - 4) 4 word.toNat, esp := t.esp - 4 }

/-- Makes a frame: the frame base of the caller is kept below the address to return to. -/
def enter (t : Thread) (size : Int) : Thread :=
  let t := t.push (.ofInt 32 t.ebp)
  { t with ebp := t.esp, esp := t.esp - size }

/-- Gives the frame back. -/
def leave (t : Thread) : Thread :=
  let t := { t with esp := t.ebp }
  { t with ebp := t.top.toNat, esp := t.esp + 4 }

/-- Whether a source can be stored in memory of a width. -/
def storable (width : Width) (source : Operand) : Bool :=
  !source.isMemory && source.width?.all (· = width)

/-- One instruction, other than a jump or a call. -/
def execute (e : Setting) (t : Thread) : String → List Operand → Option Thread
  | "SUB", [.register .esp, .number n] => some { t with esp := t.esp - n }
  | "ADD", [.register .esp, .number n] => some { t with esp := t.esp + n }
  | "PUSH", [.register .ecx] => some (t.push t.cpu.ecx)
  | "POP", [.register .ecx] => some { t with cpu := { t.cpu with ecx := t.top }, esp := t.esp + 4 }
  | "ENTER", [.number n, .number 0] => some (t.enter n)
  | "LEAVE", [] => some t.leave
  | "RET", [] => some { t with returned := some t.top, esp := t.esp + 4 }
  | "MOV", [.argument width offset, source] =>
    if storable width source then
      (e.value? t.framed source).map fun word =>
        { t with cpu := t.cpu.store (t.esp + offset) width.bytes word.toNat }
    else none
  | mnemonic, operands => (t.framed.execute mnemonic operands).map t.within

/-- Straight lines, one after the other. -/
def run (e : Setting) : List Line → Thread → Option Thread
  | [], t => some t
  | .instruction mnemonic operands :: rest, t => (t.execute e mnemonic operands).bind (run e rest)
  | _ :: _, _ => none

variable {e : Setting} {t t' : Thread} {c : Cpu}

theorem execute_store {width : Width} {source : Operand} {offset : Nat}
    (h : storable width source = true) :
    t.execute e "MOV" [.argument width offset, source] = (e.value? t.framed source).map fun word =>
      { t with cpu := t.cpu.store (t.esp + offset) width.bytes word.toNat } :=
  if_pos h

theorem framed_within (t : Thread) (c : Cpu) : (t.within c).framed = c := by
  have hmemory : (fun a => c.memory (t.ebp + a - t.ebp)) = c.memory := by
    funext a
    rw [show t.ebp + a - t.ebp = a by omega]
  show ({ c with memory := fun a => c.memory (t.ebp + a - t.ebp) } : Cpu) = c
  rw [hmemory]

theorem within_framed (t : Thread) : t.within t.framed = t := by
  have hmemory : (fun a => t.cpu.memory (t.ebp + (a - t.ebp))) = t.cpu.memory := by
    funext a
    rw [show t.ebp + (a - t.ebp) = a by omega]
  show ({ t with cpu := { t.cpu with memory := fun a => t.cpu.memory (t.ebp + (a - t.ebp)) } } :
    Thread) = t
  rw [hmemory]

theorem run_singleton (mnemonic : String) (operands : List Operand) (t : Thread) :
    run e [.instruction mnemonic operands] t = t.execute e mnemonic operands := by
  rw [run]
  cases t.execute e mnemonic operands <;> rfl

theorem run_append_of {a b : List Line} {t₁ t₂ t₃ : Thread} (ha : run e a t₁ = some t₂)
    (hb : run e b t₂ = some t₃) : run e (a ++ b) t₁ = some t₃ := by
  induction a generalizing t₁ with
  | nil =>
    cases ha
    exact hb
  | cons line _ ih =>
    cases line with
    | instruction =>
      obtain ⟨_, ht, hrest⟩ := bind_eq_some_iff.1 ha
      rw [cons_append, run, ht, bind_some]
      exact ih hrest
    | jump | raw => cases ha

/-- Memory read from the frame base on and by addresses. -/
theorem read_framed (t : Thread) (a : Int) (size : Nat) :
    t.framed.memory.read a size = t.cpu.memory.read (t.ebp + a) size := by
  induction size generalizing a with
  | zero => rfl
  | succ _ ih =>
    rw [Memory.read, Memory.read, ih (a + 1), Int.add_assoc]
    rfl

theorem execute_register {mnemonic : String} {r : Register} {source : Operand}
    (hm : mnemonic = "MOV" ∨ mnemonic = "MOVSX" ∨ mnemonic = "MOVZX") (t : Thread) :
    t.execute e mnemonic [.register r, source] =
      (t.framed.execute mnemonic [.register r, source]).map t.within := by
  rcases hm with rfl | rfl | rfl <;> rfl

end Thread

/-! ## Storing an argument -/

/-- The parameter of a called method that a line stores, if it stores one: two words lie between the
argument area and the frame base of the called method. -/
def Line.handed? : Line → Option Operand
  | .instruction "MOV" [.argument width offset, _] => some (.parameter width (8 + offset))
  | _ => none

/-- Whether an entry can be brought to a register or to memory: a constant is a number or a label,
a read slot has the type of the entry, which takes one, two or four bytes, and a scratch slot was
given out. -/
def StackValue.Readable (f : Frame) : StackValue → Prop
  | constant _ operand => (∃ n, operand = .number n) ∨ ∃ name, operand = .label name
  | .stored t index => f.localType index = .ok (some t) ∧ (t.size = 1 ∨ t.size = 2 ∨ t.size = 4)
  | operation _ => True
  | temp _ slot => slot < f.temps

namespace StackValue

variable {f g : Frame} {v : StackValue}

theorem Readable.inside (h : v.Readable f) : v.Inside f := by
  cases v with
  | constant | operation => trivial
  | stored => exact of_checkIndex h.1
  | temp => exact h

theorem Readable.congr (h : v.Readable f) (hout : g.outline = f.outline)
    (htemps : f.temps ≤ g.temps) : v.Readable g := by
  cases v with
  | constant | operation => exact h
  | stored => exact ⟨by rw [Frame.localType_congr hout]; exact h.1, h.2⟩
  | temp => exact Nat.lt_of_lt_of_le h htemps

end StackValue

variable {f : Frame} {s : State}

/-- An entry other than a constant is brought to `EAX`. -/
theorem load_runs (e : Setting) {v : StackValue} (hv : v.Readable f)
    (hconst : v.isConstant = false) :
    ∃ lines, loadLines? f .eax v = some lines ∧ lines.filterMap Line.handed? = [] ∧
      ∀ t : Thread, Thread.run e lines t = some (t.loaded (v.word e f t.framed)) := by
  -- a line that brings a word to the register, seen from the frame base and by addresses
  have hmove : ∀ {mnemonic : String} {source : Operand} {word : Thread → BitVec 32},
      mnemonic = "MOV" ∨ mnemonic = "MOVSX" ∨ mnemonic = "MOVZX" →
      (∀ t : Thread, t.framed.execute mnemonic [.register .eax, source] =
        some { t.framed with eax := word t }) →
      ∀ t : Thread, Thread.run e [.instruction mnemonic [.register .eax, source]] t =
        some (t.loaded (word t)) := by
    intro mnemonic source word hm hexecute t
    rw [Thread.run_singleton, Thread.execute_register hm, hexecute, map_some]
    exact congrArg (fun u : Thread => some (u.loaded (word t))) t.within_framed
  cases v with
  | constant => cases hconst
  | operation => exact ⟨[], rfl, rfl, fun t => rfl⟩
  | temp _ slot =>
    exact ⟨_, rfl, rfl, hmove (.inl rfl) fun t => f.execute_load_temp slot rfl t.framed⟩
  | stored u =>
    obtain ⟨o, ho, -, hload⟩ := Frame.execute_load (r := .eax) (of_checkIndex hv.1) hv.2 rfl
    refine ⟨[.instruction (State.loadMnemonic u) [.register .eax, o]], ?_, ?_,
      hmove (loadMnemonic_mem u) fun t => hload t.framed⟩
    · rw [loadLines?, ho]
      rfl
    · rcases loadMnemonic_mem u with h | h | h <;> rw [h] <;> rfl

/-- The part of `EAX` with the width of a size holds the low bytes. -/
theorem read_accumulator {n : Nat} (hn : n = 1 ∨ n = 2 ∨ n = 4) (c : Cpu) :
    ∃ word, c.read (.register (Width.ofSize n).accumulator) = some word ∧
      word.toNat = c.eax.toNat % 256 ^ n := by
  rcases hn with rfl | rfl | rfl
  · refine ⟨_, rfl, ?_⟩
    simp only [BitVec.toNat_setWidth]
    omega
  · refine ⟨_, rfl, ?_⟩
    simp only [BitVec.toNat_setWidth]
    omega
  · exact ⟨_, rfl, (Nat.mod_eq_of_lt c.eax.isLt).symm⟩

/-- An entry is stored in the argument area: the low bytes of its word go to its offset from the top
of the stack on. -/
theorem store_runs (e : Setting) {v : StackValue} (hv : v.Readable f) {size : Nat}
    (hsize : size = 1 ∨ size = 2 ∨ size = 4) (offset : Nat) :
    ∃ lines, storeLines? f (.argument (.ofSize size) offset) size v = some lines ∧
      lines.filterMap Line.handed? = [.parameter (.ofSize size) (8 + offset)] ∧
      ∀ t : Thread, ∃ c : Cpu, Thread.run e lines t = some { t with cpu := c } ∧
        c.memory = t.cpu.memory.write (t.esp + offset) size (v.word e f t.framed).toNat := by
  have hbytes := bytes_ofSize_self hsize
  by_cases hconst : v.isConstant = true
  · cases v with
    | constant _ operand =>
      refine ⟨_, rfl, rfl, fun t => ⟨t.cpu.store (t.esp + offset) size
        (e.immediate operand).toNat, ?_, rfl⟩⟩
      rw [Thread.run_singleton]
      rcases hv with ⟨_, rfl⟩ | ⟨_, rfl⟩
      · rw [Thread.execute_store rfl, hbytes]
        rfl
      · rw [Thread.execute_store rfl, hbytes]
        rfl
    | stored | operation | temp => cases hconst
  · have hconst := Bool.eq_false_iff.2 hconst
    obtain ⟨lines, hlines, hnone, hload⟩ := load_runs e hv hconst
    refine ⟨lines ++ [.instruction "MOV" [.argument (.ofSize size) offset,
      .register (Width.ofSize size).accumulator]], ?_, ?_, fun t => ?_⟩
    · rw [storeLines?_eq hconst, hlines, map_some]
    · rw [filterMap_append, hnone]
      rfl
    · have hstorable : Thread.storable (.ofSize size) (.register (Width.ofSize size).accumulator) =
          true := by
        rcases hsize with rfl | rfl | rfl <;> rfl
      obtain ⟨word, hword, hlow⟩ :=
        read_accumulator hsize (t.loaded (v.word e f t.framed)).framed
      have hvalue : e.value? (t.loaded (v.word e f t.framed)).framed
          (.register (Width.ofSize size).accumulator) = some word := hword
      refine ⟨(t.loaded (v.word e f t.framed)).cpu.store (t.esp + offset) size word.toNat,
        Thread.run_append_of (hload t) ?_, ?_⟩
      · rw [Thread.run_singleton, Thread.execute_store hstorable, hvalue, hbytes]
        rfl
      · rw [← Memory.write_mod, Cpu.store_memory, hlow]
        rfl

/-! ## Storing all arguments -/

namespace Argument

/-- The parameter that an argument becomes. -/
def parameter (a : Argument) : Operand := .parameter (.ofSize a.size) (8 + a.offset)

/-- Whether two arguments share no byte of the argument area. -/
def Apart (a b : Argument) : Prop :=
  a.offset + a.size ≤ b.offset ∨ b.offset + b.size ≤ a.offset

end Argument

theorem storeArgument_eq (c : Context) {a : Argument} {lines : List Line}
    (hread : ∀ t index, a.value = .stored t index → s.frame.localType index = .ok (some t))
    (h : storeLines? s.frame (.argument (.ofSize a.size) a.offset) a.size a.value = some lines) :
    storeArgument c a s = .ok (s.advance lines (s.frame.release a.value) s.stack) := by
  obtain ⟨v, size, offset⟩ := a
  cases v with
  | constant =>
    cases h
    rfl
  | operation =>
    cases h
    rfl
  | temp =>
    cases h
    exact congrArg Except.ok (s.advance_op ..)
  | stored u index =>
    rw [storeLines?_eq rfl] at h
    obtain ⟨_, hloaded, rfl⟩ := map_eq_some_iff.1 h
    obtain ⟨source, hsource, rfl⟩ := map_eq_some_iff.1 hloaded
    have hoperand : s.localOperand c index = .ok source := by
      rw [State.localOperand, Frame.localOperand_of_localType (hread u index rfl), hsource]
      rfl
    simp only [storeArgument, State.load, hoperand, ok_bind]
    exact congrArg Except.ok (s.advance_op ..)

/-- Arguments that lie apart are stored one by one; only the first may be in `EAX`. Every one is
stored with the word that it had before, and memory outside of them stays. -/
theorem storeArguments_runs (e : Setting) (c : Context) {args : List Argument}
    (hreadable : ∀ a ∈ args, a.value.Readable s.frame)
    (hsizes : ∀ a ∈ args, a.size = 1 ∨ a.size = 2 ∨ a.size = 4)
    (hclear : Clear (args.tail.map Argument.value)) (hapart : args.Pairwise Argument.Apart) :
    ∃ lines g, storeArguments c args s = .ok (s.advance lines g s.stack) ∧
      g.outline = s.frame.outline ∧ g.temps = s.frame.temps ∧
      lines.filterMap Line.handed? = args.map Argument.parameter ∧
      ∀ t : Thread, s.frame.Fits e.size →
        (∀ a ∈ args, t.esp + a.offset + a.size + e.size ≤ t.ebp) →
        ∃ d : Cpu, Thread.run e lines t = some { t with cpu := d } ∧
          (∀ b, (∀ a ∈ args, b < t.esp + a.offset ∨ t.esp + a.offset + a.size ≤ b) →
            d.memory b = t.cpu.memory b) ∧
          ∀ a ∈ args, d.memory.read (t.esp + a.offset) a.size =
            (a.value.word e s.frame t.framed).toNat % 256 ^ a.size := by
  induction args generalizing s with
  | nil =>
    exact ⟨[], s.frame, congrArg Except.ok s.advance_nil.symm, rfl, rfl, rfl,
      fun t _ _ => ⟨t.cpu, rfl, fun _ _ => rfl, by simp⟩⟩
  | cons a rest ih =>
    obtain ⟨hfirst, hrest⟩ := forall_mem_cons.1 hreadable
    obtain ⟨hsize, hsizes⟩ := forall_mem_cons.1 hsizes
    obtain ⟨hother, hapart⟩ := pairwise_cons.1 hapart
    obtain ⟨lines, hlines, hhanded, hrun⟩ := store_runs e hfirst hsize a.offset
    have hout := s.frame.release_outline a.value
    have htemps := s.frame.temps_release a.value
    have hstore := storeArgument_eq c (fun t _ hv => (hv ▸ hfirst).1) hlines
    have hnone : ∀ b ∈ rest, b.value.isOperation = false := fun b hb =>
      hclear b.value (List.mem_map_of_mem hb)
    obtain ⟨more, g, hmore, hg, hgtemps, hhanded', hrun'⟩ :=
      ih (s := s.advance lines (s.frame.release a.value) s.stack)
        (fun b hb => (hrest b hb).congr hout (Nat.le_of_eq htemps.symm)) hsizes
        (fun _ hv => by
          obtain ⟨b, hb, rfl⟩ := List.mem_map.1 hv
          exact hnone b (mem_of_mem_tail hb)) hapart
    refine ⟨lines ++ more, g, ?_, hg.trans hout, hgtemps.trans htemps, ?_, ?_⟩
    · rw [storeArguments, hstore]
      show storeArguments c rest _ = _
      rw [hmore, State.advance_advance]
      rfl
    · rw [filterMap_append, hhanded, hhanded']
      rfl
    · intro t hfits hbelow
      obtain ⟨hbelow, hbelows⟩ := forall_mem_cons.1 hbelow
      obtain ⟨d, hd, hmemory⟩ := hrun t
      -- the words of the arguments still to come lie above the argument area
      have hwords : ∀ b ∈ rest, b.value.word e s.frame ({ t with cpu := d } : Thread).framed =
          b.value.word e s.frame t.framed := by
        intro b hb
        apply StackValue.word_of_above (hrest b hb).inside hfits
        · intro x hx
          show d.memory (t.ebp + x) = t.cpu.memory (t.ebp + x)
          rw [hmemory]
          exact Memory.write_of_outside (.inr (by omega))
        · intro hop
          rw [hnone b hb] at hop
          cases hop
      obtain ⟨d', hd', houtside, hstored⟩ := hrun' { t with cpu := d }
        (hfits.of_le hout.symm (Nat.le_of_eq htemps)) hbelows
      refine ⟨d', Thread.run_append_of hd hd', ?_, ?_⟩
      · intro x hx
        obtain ⟨hx, hxs⟩ := forall_mem_cons.1 hx
        rw [houtside x hxs, hmemory]
        exact Memory.write_of_outside hx
      · refine forall_mem_cons.2 ⟨?_, fun b hb => ?_⟩
        · have hkept : d'.memory.read (t.esp + a.offset) a.size =
              d.memory.read (t.esp + a.offset) a.size := by
            refine Memory.read_congr fun x _ _ => houtside x fun b hb => ?_
            have := hother b hb
            unfold Argument.Apart at this
            show x < t.esp + b.offset ∨ t.esp + b.offset + b.size ≤ x
            omega
          rw [hkept, hmemory, Memory.read_write_self]
        · rw [← hwords b hb, ← StackValue.word_congr hout]
          exact hstored b hb

/-! ## The argument area -/

section

variable {types : Types} {values : Stack} {offset i : Nat}

/-- An argument lies behind those before it and has the size of its parameter. -/
theorem layOut_getElem? {v : StackValue} {t : Primitive} (hv : values[i]? = some v)
    (ht : types[i]? = some t) (offset : Nat) : (layOut offset types values)[i]? =
      some ⟨v, t.size, offset + totalSize (types.take i)⟩ := by
  induction types generalizing values offset i with
  | nil => cases ht
  | cons u types ih =>
    cases values with
    | nil => cases hv
    | cons =>
      cases i with
      | zero =>
        cases hv
        cases ht
        rfl
      | succ i =>
        rw [getElem?_cons_succ] at hv ht
        have htotal : totalSize ((u :: types).take (i + 1)) = u.size + totalSize (types.take i) :=
          rfl
        rw [layOut, getElem?_cons_succ, ih hv ht, htotal, Nat.add_assoc]

theorem layOut_apart : (layOut offset types values).Pairwise Argument.Apart := by
  have hlow : ∀ {types : Types} {values : Stack} {offset : Nat},
      ∀ a ∈ layOut offset types values, offset ≤ a.offset := by
    intro types
    induction types with
    | nil => intro values offset a h; cases h
    | cons _ _ ih =>
      intro values offset a h
      cases values with
      | nil => cases h
      | cons =>
        rcases mem_cons.1 h with rfl | h
        · exact Nat.le_refl _
        · exact Nat.le_trans (Nat.le_add_right ..) (ih a h)
  induction types generalizing values offset with
  | nil => exact .nil
  | cons _ _ ih =>
    cases values with
    | nil => exact .nil
    | cons => exact .cons (fun a ha => .inl (hlow a ha)) ih

end

theorem localOperand?_parameter {i : Nat} {t : Primitive} (h : f.parameters[i]? = some t) :
    f.localOperand? (-(i + 1)) =
      some (.parameter (.ofSize t.size) (8 + totalSize (f.parameters.take i))) := by
  have hnegative : -((i : Int) + 1) < 0 := by omega
  have hindex : (-(-((i : Int) + 1)) - 1).toNat = i := by omega
  rw [Frame.localOperand?, Frame.localType?, if_pos hnegative, hindex, h, map_some]
  simp only [if_pos hnegative]

/-- The arguments become the parameters of the called method, one by one. -/
theorem map_parameter_layOut {values : Stack} (h : values.length = f.parameters.length) :
    (layOut 0 f.parameters values).map (fun a => some a.parameter) =
      (List.range values.length).map fun i : Nat => f.localOperand? (-(i + 1)) := by
  apply ext_getElem?
  intro i
  by_cases hi : i < values.length
  · have hv := getElem?_eq_getElem hi
    have ht := getElem?_eq_getElem (h ▸ hi)
    rw [getElem?_map, getElem?_map, layOut_getElem? hv ht 0, getElem?_range hi,
      map_some, map_some, localOperand?_parameter ht, Nat.zero_add]
    rfl
  · have hlen : (layOut 0 f.parameters values).length = values.length := by
      rw [← congrArg List.length (map_value_layOut h.symm 0), length_map]
    rw [getElem?_eq_none (by rw [length_map]; omega),
      getElem?_eq_none (by rw [length_map, length_range]; omega)]

/-! ## Making room -/

/-- `EAX` goes to a scratch slot if an entry is there; the words of entries in use stay. -/
theorem spill_runs (e : Setting) (s : State) :
    ∃ lines g ws, s.spill = s.advance lines g ws ∧ g.outline = s.frame.outline ∧
      s.frame.temps ≤ g.temps ∧ lines.filterMap Line.handed? = [] ∧
      ∀ t : Thread, ∃ d : Cpu, Thread.run e lines t = some { t with cpu := d } ∧
        ∀ v : StackValue, v.Readable s.frame → (∀ slot ∈ s.frame.free, v.slot? ≠ some slot) →
          v.word e s.frame ({ t with cpu := d } : Thread).framed = v.word e s.frame t.framed := by
  rcases s.spill_cases with ⟨hspill, -⟩ | ⟨g, slot, _, _, _, halloc, -, hspill⟩
  · exact ⟨[], s.frame, s.stack, hspill.trans s.advance_nil.symm, rfl, Nat.le_refl _, rfl,
      fun t => ⟨t.cpu, rfl, fun _ _ _ => rfl⟩⟩
  · obtain ⟨htemps, hslot⟩ := allocTemp_slot halloc
    have haddress := Frame.tempAddress_congr (allocTemp_outline halloc)
    refine ⟨_, g, _, hspill, allocTemp_outline halloc, htemps, rfl, fun t => ?_⟩
    have hexecute := g.execute_store_temp slot rfl (show t.framed.read (.register .eax) = _ from rfl)
    rw [haddress] at hexecute
    refine ⟨(t.within (t.framed.store (s.frame.tempAddress slot) 4 t.cpu.eax.toNat)).cpu, ?_, ?_⟩
    · rw [Thread.run_singleton]
      exact congrArg (Option.map t.within) hexecute
    · intro v hv hfree
      have hne : v.slot? ≠ some slot := by
        rcases hslot with hslot | rfl
        · exact hfree slot hslot
        · intro hv'
          cases v with
          | temp =>
            cases hv'
            exact Nat.lt_irrefl _ hv
          | constant | stored | operation => cases hv'
      have hframed := t.framed_within (t.framed.store (s.frame.tempAddress slot) 4 t.cpu.eax.toNat)
      show v.word e s.frame (t.within _).framed = _
      rw [hframed, StackValue.word_write_temp hv.inside hne]

theorem reserve_runs (e : Setting) (s : State) (total : Nat) :
    ∃ lines, (if 0 < total then s.op "SUB" [.register .esp, .number total] else s) =
        s.advance lines s.frame s.stack ∧ lines.filterMap Line.handed? = [] ∧
      ∀ t : Thread, Thread.run e lines t = some { t with esp := t.esp - total } := by
  by_cases htotal : 0 < total
  · rw [if_pos htotal]
    exact ⟨[.instruction "SUB" [.register .esp, .number total]], rfl, rfl, fun t => rfl⟩
  · rw [if_neg htotal]
    refine ⟨[], s.advance_nil.symm, rfl, fun t => ?_⟩
    rw [Nat.eq_zero_of_not_pos htotal, Int.natCast_zero, Int.sub_zero]
    rfl

/-! ## Entering and leaving -/

namespace Thread

variable {e : Setting} {t : Thread}

theorem top_push (t : Thread) (word : BitVec 32) : (t.push word).top = word := by
  show BitVec.ofNat 32 ((t.cpu.memory.write (t.esp - 4) 4 word.toNat).read (t.esp - 4) 4) = word
  have hlt : word.toNat < 256 ^ 4 := word.isLt
  rw [Memory.read_write_self, Nat.mod_eq_of_lt hlt, BitVec.ofNat_toNat, BitVec.setWidth_eq]

/-- The frame base of the called method lies eight bytes below the argument area. -/
theorem ebp_enter_push (t : Thread) (back : BitVec 32) (size : Int) :
    ((t.push back).enter size).ebp = t.esp - 8 := by
  show t.esp - 4 - 4 = t.esp - 8
  omega

/-- Calling and entering a method changes memory below the argument area only. -/
theorem memory_enter_push (t : Thread) (back : BitVec 32) (size : Int) {a : Int} (ha : t.esp ≤ a) :
    ((t.push back).enter size).cpu.memory a = t.cpu.memory a := by
  show ((t.cpu.memory.write (t.esp - 4) 4 back.toNat).write (t.esp - 4 - 4) 4 _) a = _
  rw [Memory.write_of_outside (.inr (by omega)), Memory.write_of_outside (.inr (by omega))]

/-- The frame base of the caller and the address to return to, as the called method finds them. -/
theorem read_enter_push (t : Thread) (back : BitVec 32) (size : Int) :
    ((t.push back).enter size).cpu.memory.read (t.esp - 8) 4 = (BitVec.ofInt 32 t.ebp).toNat ∧
      ((t.push back).enter size).cpu.memory.read (t.esp - 4) 4 = back.toNat := by
  have hbase : t.esp - 4 - 4 = t.esp - 8 := by omega
  have hmemory : ((t.push back).enter size).cpu.memory =
      (t.cpu.memory.write (t.esp - 4) 4 back.toNat).write (t.esp - 8) 4
        (BitVec.ofInt 32 t.ebp).toNat := by
    rw [← hbase]
    rfl
  rw [hmemory]
  constructor
  · rw [Memory.read_write_self]
    exact Nat.mod_eq_of_lt (BitVec.ofInt 32 t.ebp).isLt
  · rw [Memory.read_write_of_disjoint (.inr (by omega)), Memory.read_write_self]
    exact Nat.mod_eq_of_lt back.isLt

/-- Leaving a method takes its parameters off the stack and goes to the address above the frame
base that was kept, which is the frame base again. -/
theorem run_epilogueLines (e : Setting) (f : Frame) (t : Thread) :
    ∃ t', run e (epilogueLines f) t = some t' ∧ t'.esp = t.ebp + 8 + f.parametersSize ∧
      t'.ebp = (BitVec.ofNat 32 (t.cpu.memory.read t.ebp 4)).toNat ∧
      t'.returned = some (.ofNat 32 (t.cpu.memory.read (t.ebp + 4) 4)) := by
  unfold epilogueLines
  by_cases hsize : 0 < f.parametersSize
  · rw [if_pos hsize]
    refine ⟨_, rfl, ?_, rfl, ?_⟩
    · show t.ebp + 4 + 4 + f.parametersSize - 4 + 4 = _
      omega
    · exact congrArg some (top_push _ _)
  · rw [if_neg hsize]
    refine ⟨_, rfl, ?_, rfl, rfl⟩
    show t.ebp + 4 + 4 = _
    omega

/-- The called method finds the argument area eight bytes above its frame base. -/
theorem read_enter_push_framed (t : Thread) (back : BitVec 32) (size : Int) (offset n : Nat) :
    ((t.push back).enter size).framed.memory.read (8 + offset : Nat) n =
      t.cpu.memory.read (t.esp + offset) n := by
  have haddress : t.esp - 8 + ((8 + offset : Nat) : Int) = t.esp + offset := by omega
  rw [read_framed, ebp_enter_push, haddress]
  exact Memory.read_congr fun a _ _ => t.memory_enter_push back size (by omega)

/-- Leaving a method from its frame base undoes its call, and takes the parameters off the stack as
well. If the two words at the frame base were not written to, the caller goes on where it called,
with its own frame base. -/
theorem run_epilogueLines_of_call (e : Setting) (f : Frame) {t t' : Thread} {back : BitVec 32}
    {size : Int} (hebp : t'.ebp = ((t.push back).enter size).ebp) :
    ∃ t'', run e (epilogueLines f) t' = some t'' ∧ t''.esp = t.esp + f.parametersSize ∧
      ((∀ a, t'.ebp ≤ a → a < t'.ebp + 8 →
          t'.cpu.memory a = ((t.push back).enter size).cpu.memory a) →
        t''.returned = some back ∧ (0 ≤ t.ebp → t.ebp < 2 ^ 32 → t''.ebp = t.ebp)) := by
  obtain ⟨t'', hleave, _, hcaller, hreturned⟩ := run_epilogueLines e f t'
  rw [ebp_enter_push] at hebp
  refine ⟨t'', hleave, by omega, fun hkept => ?_⟩
  obtain ⟨hbase, hback⟩ := t.read_enter_push back size
  have hread : ∀ a, t'.ebp ≤ a → a ≤ t'.ebp + 4 →
      t'.cpu.memory.read a 4 = ((t.push back).enter size).cpu.memory.read a 4 := by
    intro a hlow hhigh
    exact Memory.read_congr fun b _ _ => hkept b (by omega) (by omega)
  have haddress : t'.ebp + 4 = t.esp - 4 := by omega
  constructor
  · rw [hreturned, hread _ (by omega) (Int.le_refl _), haddress, hback, BitVec.ofNat_toNat,
      BitVec.setWidth_eq]
  · intro hlow hhigh
    rw [hcaller, hread _ (Int.le_refl _) (by omega), hebp, hbase, BitVec.ofNat_toNat,
      BitVec.setWidth_eq, BitVec.toNat_ofInt]
    omega

end Thread

/-! ## The call -/

theorem emitCall_ok {c : Context} {parameters : Types} {args : Stack}
    {q : State} (label : String) (result : Primitive) (h : storeArguments c
      ((layOut 0 parameters args).filter (fun a => a.value.isOperation) ++
        (layOut 0 parameters args).filter fun a => !a.value.isOperation)
      (if 0 < totalSize parameters then
        s.spill.op "SUB" [.register .esp, .number (totalSize parameters)] else s.spill) = .ok q) :
    ∃ s', emitCall c label parameters args result s = .ok s' ∧ s'.frame = q.frame ∧
      s'.listing = q.listing.extended [.instruction "CALL" [.label label]] ∧
      s'.stack = if result = .void then q.stack else .operation result :: q.stack := by
  simp only [emitCall, h, ok_bind]
  by_cases hres : result = .void
  · rw [if_pos hres, if_pos hres]
    exact ⟨_, rfl, rfl, rfl, rfl⟩
  · rw [if_neg hres, if_neg hres]
    exact ⟨_, rfl, rfl, rfl, rfl⟩

/-- The lines before a call store each argument once, as the parameter it becomes, and with the word
that it had before them. -/
theorem emitCall_runs (e : Setting) (c : Context) (label : String) (result : Primitive)
    {args : Stack} (hsizes : ∀ t ∈ f.parameters, t.size = 1 ∨ t.size = 2 ∨ t.size = 4)
    (hlen : args.length = f.parameters.length) (hsingle : args.countP StackValue.isOperation ≤ 1)
    (hreadable : ∀ v ∈ args, v.Readable s.frame)
    (hused : ∀ v ∈ args, ∀ slot ∈ s.frame.free, v.slot? ≠ some slot) :
    ∃ (lines : List Line) (s' : State), emitCall c label f.parameters args result s = .ok s' ∧
      s'.listing = s.listing.extended (lines ++ [Line.instruction "CALL" [.label label]]) ∧
      ((lines.filterMap Line.handed?).map some).Perm
        ((List.range args.length).map fun i : Nat => f.localOperand? (-(i + 1))) ∧
      ∀ t : Thread, s'.frame.Fits e.size → t.esp + e.size ≤ t.ebp →
        ∃ d : Cpu, Thread.run e lines t =
            some { t with cpu := d, esp := t.esp - f.parametersSize } ∧
          ∀ (i : Nat) (v : StackValue) (type : Primitive), args[i]? = some v →
            f.parameters[i]? = some type →
            d.memory.read (t.esp - f.parametersSize + totalSize (f.parameters.take i)) type.size =
              (v.word e s.frame t.framed).toNat % 256 ^ type.size := by
  obtain ⟨spilling, g, ws, hspill, hg, htemps, hspilled, hspillruns⟩ := spill_runs e s
  obtain ⟨reserving, hreserve, hreserved, hreserveruns⟩ :=
    reserve_runs e (s.advance spilling g ws) (totalSize f.parameters)
  rw [State.advance_frame, State.advance_stack, State.advance_advance] at hreserve
  have hbounds : ∀ a ∈ layOut 0 f.parameters args,
      a.value ∈ args ∧ (a.size = 1 ∨ a.size = 2 ∨ a.size = 4) ∧
        a.offset + a.size ≤ totalSize f.parameters := by
    intro a ha
    obtain ⟨u, hu, hvalue, hsize, _⟩ := layOut_bounds ha
    rw [hsize]
    exact ⟨hvalue, hsizes u hu, by omega⟩
  -- the argument in `EAX` goes first, and the order does not matter else
  have hperm := filter_append_perm (fun a : Argument => a.value.isOperation)
    (layOut 0 f.parameters args)
  have hvalues := map_value_layOut hlen.symm 0
  have hclear := clear_tail_ordered (hvalues.symm ▸ hsingle)
  have hsymm : ∀ {a b : Argument}, a.Apart b → b.Apart a := fun h => h.symm
  obtain ⟨storing, _, hstore, hg', htemps', hhanded, hstoreruns⟩ :=
    storeArguments_runs e c (s := s.advance (spilling ++ reserving) g ws)
      (fun a ha => (hreadable a.value (hbounds a (hperm.mem_iff.1 ha)).1).congr hg htemps)
      (fun a ha => (hbounds a (hperm.mem_iff.1 ha)).2.1) hclear
      ((hperm.pairwise_iff hsymm).2 layOut_apart)
  rw [State.advance_advance] at hstore
  rw [← hreserve, ← hspill] at hstore
  obtain ⟨s', hemit, hframe, hlisting, -⟩ := emitCall_ok label result hstore
  refine ⟨spilling ++ reserving ++ storing, s', hemit, ?_, ?_, ?_⟩
  · rw [hlisting]
    exact Listing.extended_extended ..
  · have hlines : (spilling ++ reserving ++ storing).filterMap Line.handed? =
        storing.filterMap Line.handed? := by
      rw [filterMap_append, filterMap_append, hspilled, hreserved]
      rfl
    rw [hlines, hhanded, List.map_map, ← map_parameter_layOut hlen]
    exact hperm.map _
  · intro t hfits _
    rw [hframe] at hfits
    obtain ⟨d, hd, hwords⟩ := hspillruns t
    have hroom : ∀ a ∈ layOut 0 f.parameters args,
        t.esp - totalSize f.parameters + a.offset + a.size + e.size ≤ t.ebp := by
      intro a ha
      have := (hbounds a ha).2.2
      omega
    obtain ⟨d', hd', -, hstored⟩ :=
      hstoreruns { t with cpu := d, esp := t.esp - totalSize f.parameters }
        (hfits.of_le hg' (Nat.le_of_eq htemps'.symm)) fun a ha => hroom a (hperm.mem_iff.1 ha)
    refine ⟨d', Thread.run_append_of (Thread.run_append_of hd (hreserveruns _)) hd', ?_⟩
    intro i v type hv htype
    have ha := layOut_getElem? hv htype 0
    have hmem := hperm.mem_iff.2 (mem_of_getElem? ha)
    have hread := hstored _ hmem
    have hv := mem_of_getElem? hv
    rw [Nat.zero_add] at hread
    rw [← hwords v (hreadable v hv) (hused v hv), ← StackValue.word_congr hg]
    exact hread


/-- Caller and called method agree on every call. Each parameter is stored once, and nothing else
is in the argument area. When the called method has made its frame, it finds the word of each
argument there, cut to the size of the parameter, whatever the types of the parameters and wherever
the arguments were, with at most one of them in `EAX`. If it has its frame base where it leaves, the
top of the stack is where it was before the argument area was made; and if it has not written to the
two words at its frame base, it returns to its caller, who finds the own frame base. -/
theorem call_hands_over (e : Setting) (c : Context) (label : String) (result : Primitive)
    {callee s : State} {args : List StackValue}
    (hsizes : ∀ t ∈ callee.frame.parameters, t.size = 1 ∨ t.size = 2 ∨ t.size = 4)
    (hlen : args.length = callee.frame.parameters.length)
    (hsingle : args.countP StackValue.isOperation ≤ 1) (hreadable : ∀ v ∈ args, v.Readable s.frame)
    (hused : ∀ v ∈ args, ∀ slot ∈ s.frame.free, v.slot? ≠ some slot) :
    ∃ lines s', emitCall c label callee.frame.parameters args result s = .ok s' ∧
      s'.listing = s.listing.extended (lines ++ [Line.instruction "CALL" [.label label]]) ∧
      callee.epilogue.listing = callee.listing.extended (epilogueLines callee.frame) ∧
      ((lines.filterMap Line.handed?).map some).Perm
        ((List.range args.length).map fun i : Nat => callee.frame.localOperand? (-(i + 1))) ∧
      ∀ t : Thread, s'.frame.size ≤ e.size → t.esp + e.size ≤ t.ebp →
        ∃ t₁, Thread.run e lines t = some t₁ ∧ t₁.ebp = t.ebp ∧
          ∀ (back : BitVec 32) (size : Nat), ∃ t₂,
            Thread.run e [.instruction "ENTER" [.number size, .number 0]] (t₁.push back) =
              some t₂ ∧
            (∀ (i : Nat) (v : StackValue) (type : Primitive), args[i]? = some v →
              callee.frame.parameters[i]? = some type →
              ∃ o, callee.frame.localOperand? (-(i + 1)) = some o ∧ t₂.framed.read o =
                some (.ofNat 32 ((v.word e s.frame t.framed).toNat % 256 ^ type.size))) ∧
            ∀ t₃ : Thread, t₃.ebp = t₂.ebp →
              ∃ t₄, Thread.run e (epilogueLines callee.frame) t₃ = some t₄ ∧ t₄.esp = t.esp ∧
                ((∀ a, t₂.ebp ≤ a → a < t₂.ebp + 8 → t₃.cpu.memory a = t₂.cpu.memory a) →
                  t₄.returned = some back ∧
                  (0 ≤ t.ebp → t.ebp < 2 ^ 32 → t₄.ebp = t.ebp)) := by
  obtain ⟨lines, s', hemit, hlisting, hperm, hrun⟩ :=
    emitCall_runs e c label result hsizes hlen hsingle hreadable hused
  have hepilogue : callee.epilogue.listing =
      callee.listing.extended (epilogueLines callee.frame) := by
    rw [epilogue_eq]
    rfl
  refine ⟨lines, s', hemit, hlisting, hepilogue, hperm, fun t hsize hbelow => ?_⟩
  have hfits : s'.frame.Fits e.size := by
    unfold Frame.size align4 at hsize
    unfold Frame.Fits
    omega
  obtain ⟨_, hd, hstored⟩ := hrun t hfits hbelow
  refine ⟨_, hd, rfl, fun back size => ⟨_, rfl, ?_, ?_⟩⟩
  · intro i v type hv htype
    have hbytes := bytes_ofSize_self (hsizes type (List.mem_of_getElem? htype))
    refine ⟨_, localOperand?_parameter htype, ?_⟩
    rw [Cpu.read_memory rfl rfl rfl, hbytes, Thread.read_enter_push_framed]
    exact congrArg (fun n => some (BitVec.ofNat 32 n)) (hstored i v type hv htype)
  · intro t₃ hebp
    obtain ⟨t₄, hleave, hesp, hkept⟩ := Thread.run_epilogueLines_of_call e callee.frame hebp
    refine ⟨t₄, hleave, hesp.trans (Int.sub_add_cancel ..), fun hsame => hkept ?_⟩
    rw [hebp]
    exact hsame

namespace Sample

/-- A method with four parameters of different widths. -/
def mixer : State where
  frame := { parameters := [.i32, .u8, .u16, .u32], locals := [] }
  listing := { label := "Mix" }
  shared := {}

/-- A caller with a local of two bytes and a scratch slot in use. -/
def mixing : State where
  frame := { parameters := [], locals := [.i16], temps := 1 }
  listing := { label := "Work" }
  shared := {}

/-- Entries in all kinds of places. -/
def mixture : Stack :=
  [.stored .i16 0, .operation .u8, .constant .u16 (.number 7), .temp .u32 0]

/-- The caller at work, with five in `EAX` and all bytes of memory set. -/
def busy : Thread where
  cpu := ⟨5, 0, 0, none, fun _ => 255⟩
  ebp := 100
  esp := 92

end Sample

/-- A local that is extended, a result, a number and a scratch slot arrive as parameters of four, one,
two and four bytes, and the called method returns with the stack as it was. -/
theorem call_hands_over_mixture : ∃ lines s' t₁ t₂ t₄,
      emitCall Sample.worker "Mix" Sample.mixer.frame.parameters Sample.mixture .void
        Sample.mixing = .ok s' ∧
      Thread.run ⟨8, fun _ => 0⟩ lines Sample.busy = some t₁ ∧
      Thread.run ⟨8, fun _ => 0⟩ [.instruction "ENTER" [.number 16, .number 0]] (t₁.push 4096) =
        some t₂ ∧
      t₂.framed.read (.parameter .dword 8) = some 0xFFFFFFFF ∧
      t₂.framed.read (.parameter .byte 12) = some 5 ∧
      t₂.framed.read (.parameter .word 13) = some 7 ∧
      t₂.framed.read (.parameter .dword 15) = some 0xFFFFFFFF ∧
      Thread.run ⟨8, fun _ => 0⟩ (epilogueLines Sample.mixer.frame) t₂ = some t₄ ∧
      t₄.esp = 92 ∧ t₄.ebp = 100 ∧ t₄.returned = some 4096 := by
  obtain ⟨lines, s', hemit, -, -, -, hrun⟩ :=
    @call_hands_over ⟨8, fun _ => 0⟩ Sample.worker "Mix" .void Sample.mixer Sample.mixing
      Sample.mixture (by decide) rfl (by decide)
      (by
        intro v hv
        simp only [Sample.mixture, List.mem_cons, List.not_mem_nil, or_false] at hv
        rcases hv with rfl | rfl | rfl | rfl
        · exact ⟨rfl, .inr (.inl rfl)⟩
        · trivial
        · exact .inl ⟨7, rfl⟩
        · exact Nat.one_pos)
      (by intro v _ _ hslot; cases hslot)
  have hsize : (emitCall Sample.worker "Mix" Sample.mixer.frame.parameters Sample.mixture .void
      Sample.mixing).map (fun s => s.frame.size) = .ok 8 := by decide
  rw [hemit] at hsize
  have hsize : s'.frame.size = 8 := Except.ok.inj hsize
  obtain ⟨t₁, ht₁, -, hcall⟩ := hrun Sample.busy (Nat.le_of_eq hsize) (by decide)
  obtain ⟨t₂, ht₂, hread, hleave⟩ := hcall 4096 16
  obtain ⟨t₄, ht₄, hesp, hkept⟩ := hleave t₂ rfl
  obtain ⟨hreturned, hebp⟩ := hkept fun _ _ _ => rfl
  have hfound : ∀ (i : Nat) (v : StackValue) (type : Primitive), Sample.mixture[i]? = some v →
      Sample.mixer.frame.parameters[i]? = some type → ∀ o,
      Sample.mixer.frame.localOperand? (-(i + 1)) = some o → t₂.framed.read o =
        some (.ofNat 32 ((v.word ⟨8, fun _ => 0⟩ Sample.mixing.frame Sample.busy.framed).toNat %
          256 ^ type.size)) := by
    intro i v type hv htype o ho
    obtain ⟨_, ho', hword⟩ := hread i v type hv htype
    rw [Option.some.inj (ho.symm.trans ho')]
    exact hword
  refine ⟨lines, s', t₁, t₂, t₄, hemit, ht₁, ht₂, ?_, ?_, ?_, ?_, ht₄, hesp,
    hebp (by decide) (by decide), hreturned⟩
  · exact hfound 0 _ _ rfl rfl _ rfl
  · exact hfound 1 _ _ rfl rfl _ rfl
  · exact hfound 2 _ _ rfl rfl _ rfl
  · exact hfound 3 _ _ rfl rfl _ rfl

end ScriptCompiler.X86
