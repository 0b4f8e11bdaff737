import ScriptCompiler.Proofs.StackTypes
import ScriptCompiler.Proofs.X86.Operators

/-!
# Straight code on the processor

The lines of straight, well typed code over words do on the processor what the code
does on the stack machine. Each command is followed through the lines it adds: what
was pushed stands for the same values afterwards, wherever it went, and slots and
pushed results are those of the machine.
-/

set_option autoImplicit false

namespace ScriptCompiler.X86

open List Option

/-! ## Operands -/

section

variable {i : Instruction} {t : Primitive} {text : String}

theorem isSupported_of_isWord (ht : t.isWord = true) : Context.isSupported t = true := by
  revert ht
  cases t <;> decide

theorem registers_of_isWord {source : Primitive} (hs : source.isWord = true) (ht : t.isWord = true) :
    ¬(source = .str ∨ t = .str) ∧
      ¬(!Context.isSupported source || !Context.isSupported t) = true := by
  refine ⟨?_, by simp [isSupported_of_isWord hs, isSupported_of_isWord ht]⟩
  rintro (rfl | rfl)
  · cases hs
  · cases ht

theorem checkType_of_isWord {c : Context} (ht : t.isWord = true) : c.checkType t = .ok () := by
  rw [Context.checkType, if_pos (isSupported_of_isWord ht)]

theorem read?_of_reads (hbool : t ≠ .bool) (ht : t.isWord = true) (h : t.reads text = true) :
    Integer.read? 128 text = some (words.constant t text) ∧
      t.holds (words.constant t text) = true := by
  have hbits := Primitive.bits_le ht
  obtain ⟨n, hn, hread, hholds⟩ := Primitive.read?_of_reads hbool (by omega) h
  have hvalue : words.constant t text = n := by simp only [words, if_neg hbool, hn, getD_some]
  rw [hvalue]
  exact ⟨hread, hholds⟩

theorem constantOperand_of_reads (ht : t.isWord = true) (h : t.reads text = true)
    (data : DataTable) :
    constantOperand i t text data = .ok (data, .number (words.constant t text)) ∧
      t.holds (words.constant t text) = true := by
  by_cases hbool : t = .bool
  · subst hbool
    rw [Primitive.reads, if_pos rfl, Bool.or_eq_true, beq_iff_eq, beq_iff_eq] at h
    rcases h with rfl | rfl <;> exact ⟨rfl, rfl⟩
  · obtain ⟨hread, hholds⟩ := read?_of_reads hbool ht h
    refine ⟨?_, hholds⟩
    unfold constantOperand
    split
    · cases ht
    · exact absurd rfl hbool
    · rw [hread]

end

/-! ## Commands -/

/-- Whether lines do what a command does: they lead from entries that stand for the operand stack to
entries that stand for what the command leaves there. -/
structure Performs (p : Program) (m : Method) (x : Command) (f : Frame) (vs : Stack)
    (lines : List Line) (g : Frame) (ws : Stack) : Prop where
  outline : g.outline = f.outline
  tidy : Tidy g ws
  types : x.retype p m (vs.map StackValue.type) = some (ws.map StackValue.type)
  run : ∀ c σ s k, Represents f c vs σ s → x.perform words p m σ s = .ok k →
    ∃ d, Cpu.run lines c = some d ∧ Represents g d ws k.stack k.store ∧ k.control = .running

/-- Whether compiling a command from a state succeeds with lines that do what it does. -/
def Compiles (p : Program) (m : Method) (x : Command) (s : State) (r : Compiling State) : Prop :=
  ∃ s' lines, r = .ok s' ∧ s'.listing.lines = s.listing.lines ++ lines ∧
    Performs p m x s.frame s.stack lines s'.frame s'.stack

theorem Performs.compiles {p : Program} {m : Method} {x : Command} {s s₀ : State}
    {lines : List Line} {g : Frame} {ws : Stack}
    (h : Performs p m x s.frame s.stack lines g ws) (hlisting : s₀.listing = s.listing) :
    Compiles p m x s (.ok (s₀.advance lines g ws)) := by
  refine ⟨_, lines, rfl, ?_, h⟩
  show s₀.listing.lines ++ lines = _
  rw [hlisting]

section

variable {p : Program} {m : Method} {c : Context} {i : Instruction} {s : State}
  {v : StackValue} {rest : Stack} {t : Primitive}

theorem pop_eq (h : s.stack = v :: rest) : s.pop c i = .ok (v, { s with stack := rest }) := by
  unfold State.pop
  rw [h]

theorem loadConstant_compiles {text : String} (ht : Tidy s.frame s.stack)
    (htype : i.type? = some t) (htext : i.operands[1]? = some text) (hword : t.isWord = true)
    (hreads : t.reads text = true) : Compiles p m (.constant t text) s (loadConstant c i s) := by
  obtain ⟨hoperand, hholds⟩ := constantOperand_of_reads (i := i) hword hreads s.shared.data
  have hsupp := checkType_of_isWord (c := c) hword
  refine ⟨s.push (.constant t (.number (words.constant t text))), [], ?_, ?_, ?_⟩
  · simp only [loadConstant, i.constant_of_type? htype htext, reading, ok_bind, hsupp,
      hoperand]
    rfl
  · exact (append_nil _).symm
  · refine ⟨rfl, ht.push ⟨hword, _, rfl, hholds⟩ rfl (absurd · Bool.false_ne_true), rfl, ?_⟩
    intro d σ _ _ hd hk
    cases hk
    exact ⟨d, rfl, hd.cons rfl ⟨hholds, rfl⟩, rfl⟩

variable {index : Int} {target : Primitive}

theorem getLocal_compiles (ht : Tidy s.frame s.stack) (hslots : s.frame.localType? = m.localType?)
    (hindex : i.number? 0 = some index) (hi : Integer.isIndex index = true)
    (htype : m.localType? index = some t) (hword : t.isWord = true) :
    Compiles p m (.get index) s (getLocal i s) := by
  have hlocal : s.frame.localType index = .ok (some t) := by
    rw [Frame.localType, checkIndex_eq hi, hslots, htype]
    rfl
  refine ⟨s.push (.stored t index), [], ?_, (append_nil _).symm, ?_⟩
  · simp only [getLocal, i.localIndex_of_number? hindex hi, reading, ok_bind, hlocal]
    rfl
  · refine ⟨rfl, ht.push ⟨hword, hlocal⟩ rfl (absurd · Bool.false_ne_true), ?_, ?_⟩
    · rw [Command.retype, htype]
      rfl
    · intro d σ _ _ hd hk
      rw [Command.perform, htype] at hk
      cases hk
      have hvalue := hd.slots index t (of_checkIndex hlocal)
      refine ⟨d, rfl, hd.cons rfl ⟨?_, hvalue⟩, rfl⟩
      rw [← hvalue]
      exact Primitive.holds_lowBits (Primitive.bits_pos hword) _

theorem drop_compiles (ht : Tidy s.frame s.stack) (hstack : s.stack = v :: rest) :
    Compiles p m .pop s (drop c i s) := by
  rw [hstack] at ht
  have hrest := @Tidy.release s.frame [] rest v ht
  refine ⟨{ s with stack := rest, frame := s.frame.release v }, [], ?_, (append_nil _).symm, ?_⟩
  · simp only [drop, pop_eq hstack, ok_bind]
    cases v <;> rfl
  · refine ⟨s.frame.release_outline v, hrest, ?_, ?_⟩
    · rw [hstack]
      rfl
    · intro d σ _ _ hd hk
      rw [hstack] at hd
      obtain ⟨_, τ, rfl, -, -, hd⟩ := hd.uncons
      cases hk
      exact ⟨d, rfl, hd.keep (s.frame.release_outline v) rfl fun _ _ _ => rfl, rfl⟩

/-- An assignment is done by lines that bring its value to where one more line stores it. -/
theorem set_performs {f g : Frame} {ws : Stack} {lines : List Line}
    {operands : List Operand} (hlocal : f.localType? index = some v.type)
    (htype : m.localType? index = some v.type) (hword : v.type.isWord = true)
    (hout : g.outline = f.outline) (ht : Tidy g ws) (hmoved : Moved rest ws)
    (hnone : ∀ u, .stored u index ∉ ws)
    (hrun : ∀ d x τ st, Represents f d (v :: rest) (x :: τ) st → ∃ e,
      Cpu.run lines d = some e ∧ Represents g e ws τ st ∧ v.type.holds x.2 = true ∧
      e.execute "MOV" operands =
        some (e.store (f.address index) v.type.size (BitVec.ofInt 32 x.2).toNat)) :
    Performs p m (.set index) f (v :: rest) (lines ++ [Line.instruction "MOV" operands]) g ws := by
  refine ⟨hout, ht, ?_, ?_⟩
  · rw [hmoved.types]
    exact if_pos htype
  · intro d σ st _ hd hk
    obtain ⟨x, τ, rfl, -, -, -⟩ := hd.uncons
    obtain ⟨e, he, hrep, hholds, hstore⟩ := hrun d x τ st hd
    rw [Command.perform, htype] at hk
    cases hk
    refine ⟨_, Cpu.run_append_of he ((Cpu.run_singleton _ _ _).trans hstore), ?_, rfl⟩
    rw [← Frame.localType?_congr hout] at hlocal
    rw [← Frame.address_congr hout]
    exact hrep.assign ht.sound hlocal hword hholds hnone

/-- An assignment over words succeeds with lines that make it. -/
theorem setLocal_compiles (ht : Tidy s.frame s.stack) (hslots : s.frame.localType? = m.localType?)
    (hindex : i.number? 0 = some index) (hi : Integer.isIndex index = true)
    (hstack : s.stack = v :: rest) (htype : m.localType? index = some v.type) :
    Compiles p m (.set index) s (setLocal c i s) := by
  have hlocal : s.frame.localType? index = some v.type := by rw [hslots, htype]
  obtain ⟨o, ho, hm, hw, ha⟩ := Frame.exists_localOperand? hlocal
  rw [hstack] at ht
  have hword := (ht.sound v mem_cons_self).1
  obtain ⟨a, g, ws, hdetach, hcarries, hnone⟩ :=
    State.detachLocal_carries c index [v] { s with stack := rest } ht
  have hmoved : Moved rest ws := Aligned.tail hcarries.moved
  have hsize := bytes_ofSize hword
  have hnumber : ∀ (e : Cpu) (n : Int), v.type.holds n = true → e.execute "MOV" [o, .number n] =
      some (e.store (s.frame.address index) v.type.size (BitVec.ofInt 32 n).toNat) := by
    intro e n hn
    have hbits := Nat.le_of_eq (bits_ofSize hword).symm
    rw [Cpu.execute_mov_number hw (Width.accepts_of_holds hbits hn), Cpu.write_memory hm hw ha,
      hsize]
  have hregister : ∀ e : Cpu,
      e.execute "MOV" [o, .register (Width.ofSize v.type.size).accumulator] =
        some (e.store (s.frame.address index) v.type.size e.eax.toNat) := by
    intro e
    rw [Cpu.execute_store hm hw ha, hsize]
  simp only [setLocal, i.localIndex_of_number? hindex hi, reading, ok_bind,
    State.localOperand, Frame.localOperand, Frame.localType, checkIndex_eq hi, Except.pure_eq_ok,
    ho, hlocal, pop_eq hstack, hdetach, map_some, getD_some]
  split
  · rename_i t operand
    rw [State.advance_op]
    refine Performs.compiles ?_ rfl
    rw [hstack]
    apply set_performs hlocal htype hword hcarries.outline (@Tidy.release g [] ws _ hcarries.tidy)
      hmoved hnone
    intro d x τ st hd
    obtain ⟨e, he, hrep⟩ := hcarries.run d (x :: τ) st hd
    obtain ⟨y, υ, hcons, -, ⟨hholds, rfl⟩, hrest⟩ := hrep.uncons
    cases hcons
    exact ⟨e, he, hrest, hholds, hnumber e x.2 hholds⟩
  · obtain ⟨b, h, us, hload, hout, htidy, hmoved', -, hrun⟩ :=
      State.load_eax c v (State.advance { s with stack := rest } a g ws) hcarries.tidy
    rw [hload, ok_bind, State.advance_advance, State.advance_op]
    refine Performs.compiles ?_ rfl
    rw [hstack]
    apply set_performs hlocal htype hword (hout.trans hcarries.outline) htidy
      (hmoved.trans hmoved') fun u => hmoved'.notMem_stored (hnone u)
    intro d x τ st hd
    obtain ⟨e, he, hrep⟩ := hcarries.run d (x :: τ) st hd
    obtain ⟨e', he', heax, hholds, hrep⟩ := hrun e x τ st hrep
    refine ⟨e', Cpu.run_append_of he he', hrep, hholds, ?_⟩
    rw [← heax]
    exact hregister e'

variable {τ : List (Primitive × Int)} {k : Machine Int Unit} {st : Store Int Unit} {op : BinaryOp}

theorem operate_perform {l r : Primitive × Int}
    (h : (Command.operate op t).perform words p m (l :: r :: τ) st = .ok k) :
    ∃ n, words.operate op t l.2 r.2 = some n ∧
      k = ⟨(if op.isComparison then .bool else t, n) :: τ, st, .running⟩ := by
  obtain ⟨n, hn, h⟩ := of_bind h
  cases h
  cases hop : words.operate op t l.2 r.2 with
  | none =>
    rw [hop] at hn
    cases hn
  | some =>
    rw [hop] at hn
    cases hn
    exact ⟨n, rfl, rfl⟩

/-- The right operand goes to `ECX` before the left one goes to `EAX`, which it may be in. -/
theorem loadOperands_spec {left right : StackValue} (ht : Tidy s.frame (left :: right :: s.stack))
    (hnone : ∀ w ∈ s.stack, w.isOperation = false) :
    ∃ lines g, loadOperands c left right s = .ok (s.advance lines g s.stack) ∧
      g.outline = s.frame.outline ∧ Tidy g s.stack ∧
      ∀ d l r τ st, Represents s.frame d (left :: right :: s.stack) (l :: r :: τ) st →
        ∃ e, Cpu.run lines d = some e ∧ e.eax = BitVec.ofInt 32 l.2 ∧ e.ecx = BitVec.ofInt 32 r.2 ∧
          left.type.holds l.2 = true ∧ right.type.holds r.2 = true ∧
          Represents g e s.stack τ st := by
  have hreleased := s.frame.release_outline right
  obtain ⟨a, hload, hrun⟩ := s.load_spec c (ht.sound right (by simp)) (.inr rfl)
  have hsound : left.Sound (s.frame.release right) :=
    (StackValue.sound_congr hreleased).2 (ht.sound left (by simp))
  obtain ⟨b, hload', hrun'⟩ :=
    (s.advance a (s.frame.release right) s.stack).load_spec c hsound (.inl rfl)
  have hout := ((s.frame.release right).release_outline left).trans hreleased
  have htidy : Tidy ((s.frame.release right).release left) s.stack :=
    @Tidy.release _ [] s.stack left (@Tidy.release s.frame [left] s.stack right ht)
  refine ⟨a ++ b, (s.frame.release right).release left, ?_, hout, htidy, ?_⟩
  · rw [loadOperands, hload, ok_bind, hload', State.advance_advance]
    rfl
  · intro d l r τ st hd
    obtain ⟨_, τ', hcons, -, hl, hd⟩ := hd.uncons
    cases hcons
    obtain ⟨_, τ', hcons, -, hr, hd⟩ := hd.uncons
    cases hcons
    have hl' : left.Denotes (s.frame.release right) { d with ecx := BitVec.ofInt 32 r.2 } l.2 :=
      (StackValue.denotes_congr hreleased).2 (hl.of_memory (fun _ => rfl) rfl)
    refine ⟨_, Cpu.run_append_of (hrun d r.2 hr) (hrun' _ l.2 hl'), rfl, rfl, hl.1, hr.1, ?_⟩
    exact hd.of_memory hout rfl hnone

section

variable {left right : StackValue} (ht : Tidy s.frame s.stack) (hopcode : i.opcode = op.opcode)
  (htype : i.type? = some t) (hword : t.isWord = true)
  (hstack : s.stack = left :: right :: rest) (hleft : left.type = t) (hright : right.type = t)

include ht hopcode htype hword hstack hleft hright

/-- The lines of an operator stand behind lines that bring its operands to `EAX` and `ECX`. -/
theorem binary_eq : ∃ lines f ws, binary c i s = .ok (s.advance (lines ++ operatorLines op t) f
          (.operation (if op.isComparison then .bool else t) :: ws)) ∧
      f.outline = s.frame.outline ∧ Tidy f ws ∧ Moved rest ws ∧ (∀ w ∈ ws, w.isOperation = false) ∧
      ∀ d l r σ st, Represents s.frame d s.stack (l :: r :: σ) st →
        ∃ e, Cpu.run lines d = some e ∧ e.eax = BitVec.ofInt 32 l.2 ∧ e.ecx = BitVec.ofInt 32 r.2 ∧
          t.holds l.2 = true ∧ t.holds r.2 = true ∧ Represents f e ws σ st := by
  rw [hstack] at ht
  obtain ⟨a, g, ws, hspill, hcarries, hnone⟩ :=
    State.spill_carries [left, right] { s with stack := rest } ht
  obtain ⟨b, h, hload, hout, htidy, hrun⟩ := @loadOperands_spec c
    (State.advance { s with stack := rest } a g ws) left right hcarries.tidy hnone
  have hmoved : Moved rest ws := Aligned.tail (Aligned.tail hcarries.moved)
  rw [State.advance_advance, State.advance_stack] at hload
  obtain ⟨hlines, hres⟩ := operate_eq op hword
    (State.advance { s with stack := rest } (a ++ b) h ws)
  refine ⟨a ++ b, h, ws, ?_, hout.trans hcarries.outline, htidy, hmoved, hnone, ?_⟩
  · have hpop : State.pop c i { s with stack := right :: rest } =
        .ok (right, { s with stack := rest }) := rfl
    simp only [binary, i.operandType_of_type? htype, reading, ok_bind,
      checkType_of_isWord hword, pop_eq hstack, hpop, hspill, hload, hopcode]
    rw [hlines, hres, State.advance_advance]
    rfl
  · intro d l r σ st hd
    rw [hstack] at hd
    obtain ⟨d₁, hd₁, hrep⟩ := hcarries.run d _ st hd
    obtain ⟨d₂, hd₂, heax, hecx, hl, hr, hrep⟩ := hrun d₁ l r σ st hrep
    rw [hleft] at hl
    rw [hright] at hr
    exact ⟨d₂, Cpu.run_append_of hd₁ hd₂, heax, hecx, hl, hr, hrep⟩

/-- An operator over words succeeds with lines that compute it. -/
theorem binary_compiles : Compiles p m (.operate op t) s (binary c i s) := by
  obtain ⟨_, _, _, hcomp, hout, htidy, hmoved, hnone, hload⟩ :=
    binary_eq ht hopcode htype hword hstack hleft hright
  rw [hcomp]
  refine Performs.compiles ⟨hout, htidy.push ?_ rfl fun _ => hnone, ?_, ?_⟩ rfl
  · refine ⟨?_, trivial⟩
    show (if op.isComparison then Primitive.bool else t).isWord = true
    split
    · rfl
    · exact hword
  · rw [hstack, map_cons, map_cons, hleft, hright]
    show (if t = t ∧ t = t then _ else _) = _
    rw [if_pos ⟨rfl, rfl⟩, map_cons, hmoved.types]
    rfl
  · intro d σ st _ hd hk
    rw [hstack] at hd
    obtain ⟨l, σ, rfl, -, -, hd'⟩ := hd.uncons
    obtain ⟨r, σ, rfl, -, -, -⟩ := hd'.uncons
    rw [← hstack] at hd
    obtain ⟨_, hn, rfl⟩ := operate_perform hk
    obtain ⟨_, he, heax, hecx, hl, hr, hrep⟩ := hload d l r σ st hd
    obtain ⟨e', he', hvalue, hmemory⟩ := run_operatorLines hword hl hr heax hecx hn
    refine ⟨e', Cpu.run_append_of he he', ?_, rfl⟩
    exact (hrep.of_memory rfl hmemory hnone).cons rfl
      ⟨holds_of_operate (Primitive.bits_pos hword) hl hn, hvalue⟩

end

theorem convert_perform {x : Primitive × Int} (hne : x.1 ≠ target)
    (h : (Command.convert target).perform words p m (x :: τ) st = .ok k) :
    k = ⟨(target, target.cast x.2) :: τ, st, .running⟩ := by
  simp only [Command.perform, Meaning.bring, if_neg hne] at h
  cases h
  rfl

theorem convertValue_compiles (ht : Tidy s.frame s.stack) (hstack : s.stack = v :: rest)
    (htarget : target.isWord = true) (hne : v.type ≠ target) :
    Compiles p m (.convert target) s (convertValue c v target { s with stack := rest }) := by
  rw [hstack] at ht
  obtain ⟨a, g, ws, hload, hout, htidy, hmoved, hnone, hrun⟩ :=
    State.load_eax c v { s with stack := rest } ht
  have hword := (ht.sound v mem_cons_self).1
  have hcomp : convertValue c v target { s with stack := rest } =
      .ok (State.advance { s with stack := rest } (a ++ conversionLines target) g
        (.operation target :: ws)) := by
    simp only [convertValue, hload, ok_bind, conversion_eq htarget, State.advance_advance,
      State.advance_frame, State.advance_stack]
    rfl
  rw [hcomp]
  refine Performs.compiles ?_ rfl
  rw [hstack]
  refine ⟨hout, htidy.push ⟨htarget, trivial⟩ rfl fun _ => hnone, ?_, ?_⟩
  · have hvoid : target ≠ .void := by
      rintro rfl
      cases htarget
    rw [map_cons, map_cons, hmoved.types]
    exact if_neg hvoid
  · intro d σ st _ hd hk
    obtain ⟨x, σ, rfl, hx, -, -⟩ := hd.uncons
    obtain ⟨_, hd₁, heax, hholds, hrep⟩ := hrun d x σ st hd
    obtain ⟨d₂, hd₂, hvalue, hmemory⟩ := run_conversionLines hword htarget hholds heax
    obtain rfl := convert_perform (hx ▸ hne) hk
    refine ⟨d₂, Cpu.run_append_of hd₁ hd₂, ?_, rfl⟩
    exact (hrep.of_memory rfl hmemory hnone).cons rfl
      ⟨Primitive.holds_cast (Primitive.bits_pos htarget) _, hvalue⟩

theorem convert_compiles (ht : Tidy s.frame s.stack) (htype : i.type? = some target)
    (htarget : target.isWord = true) (hstack : s.stack = v :: rest) :
    Compiles p m (.convert target) s (convert c i s) := by
  have hsound := ht.sound v (hstack ▸ mem_cons_self)
  have hvoid : target ≠ .void := by
    rintro rfl
    cases htarget
  simp only [convert, i.operandType_of_type? htype, reading, ok_bind, pop_eq hstack]
  by_cases hsame : v.type = target
  · rw [if_pos hsame]
    refine ⟨{ s with stack := v :: rest }, [], rfl, (append_nil _).symm, rfl, ?_, ?_, ?_⟩
    · rw [← hstack]
      exact ht
    · rw [hstack, ← hsame]
      exact if_neg (hsame ▸ hvoid)
    · intro d σ st k hd hk
      rw [hstack] at hd
      obtain ⟨x, σ, rfl, hx, hv, hd⟩ := hd.uncons
      simp only [Command.perform, Meaning.bring, if_pos (hx ▸ hsame)] at hk
      cases hk
      exact ⟨d, rfl, hd.cons hsame hv, rfl⟩
  · obtain ⟨hstr, hsupp⟩ := registers_of_isWord hsound.1 htarget
    rw [if_neg hsame, if_neg hstr, if_neg hsupp]
    split
    · rename_i t n
      rw [hstack] at ht
      have hrest := @Tidy.release s.frame [] rest _ ht
      have hfolded := wrap_eq_cast htarget n
      have hholds := Primitive.holds_cast (Primitive.bits_pos htarget) n
      refine ⟨_, [], rfl, (append_nil _).symm, rfl,
        hrest.push ⟨htarget, _, rfl, hfolded ▸ hholds⟩ rfl (absurd · Bool.false_ne_true), ?_, ?_⟩
      · rw [hstack]
        exact if_neg hvoid
      · intro d σ st k hd hk
        rw [hstack] at hd
        obtain ⟨x, σ, rfl, hx, ⟨-, hn⟩, htail⟩ := hd.uncons
        cases hn
        obtain rfl := convert_perform (hx ▸ hsame) hk
        have hfold : (StackValue.constant target (.number (wrap x.2 target))).Denotes s.frame d
            (target.cast x.2) := ⟨hholds, congrArg Operand.number hfolded⟩
        exact ⟨d, rfl, htail.cons rfl hfold, rfl⟩
    · exact convertValue_compiles ht hstack htarget hsame

theorem nop_compiles (ht : Tidy s.frame s.stack) : Compiles p m .nop s (.ok s) := by
  refine ⟨s, [], rfl, (append_nil _).symm, rfl, ht, rfl, ?_⟩
  intro d σ _ _ hd hk
  cases hk
  exact ⟨d, rfl, hd, rfl⟩

theorem exists_slot_of_isScalar
    (h : (Integer.isIndex index && (m.localType? index).any Primitive.isWord) = true) :
    Integer.isIndex index = true ∧ ∃ t, m.localType? index = some t ∧ t.isWord = true := by
  obtain ⟨hi, hany⟩ := Bool.and_eq_true_iff.1 h
  exact ⟨hi, (Option.any_eq_true _ _).1 hany⟩

/-- Compiling a well typed command over words succeeds with lines that do what it does. -/
theorem step_compiles {x : Command} {τ : Types} (index : Nat)
    (ht : Tidy s.frame s.stack) (hslots : s.frame.localType? = m.localType?)
    (hx : i.command? = some x) (hscalar : x.isScalar m = true)
    (htypes : x.retype p m (s.stack.map StackValue.type) = some τ) :
    Compiles p m x s (step c index i s) := by
  obtain ⟨hop, hreads⟩ := i.of_command? hx
  unfold step
  rw [hop]
  cases x with
  | nop => exact nop_compiles ht
  | constant =>
    obtain ⟨hword, hconst⟩ := Bool.and_eq_true_iff.1 hscalar
    exact loadConstant_compiles ht hreads.1 hreads.2 hword hconst
  | get =>
    obtain ⟨hi, _, htype, hword⟩ := exists_slot_of_isScalar hscalar
    exact getLocal_compiles ht hslots hreads hi htype hword
  | set =>
    obtain ⟨hi, -⟩ := exists_slot_of_isScalar hscalar
    rcases hstack : s.stack with _ | ⟨v, rest⟩
    · rw [hstack] at htypes
      cases htypes
    · simp only [hstack, map_cons, Command.retype, ite_none_right_eq_some] at htypes
      exact setLocal_compiles ht hslots hreads hi hstack htypes.1
  | operate op =>
    have hword := (Bool.and_eq_true_iff.1 hscalar).1
    rcases hstack : s.stack with _ | ⟨_, _ | ⟨_, rest⟩⟩
    · rw [hstack] at htypes
      cases htypes
    · rw [hstack] at htypes
      cases htypes
    · simp only [hstack, map_cons, Command.retype, ite_none_right_eq_some] at htypes
      have hbinary := binary_compiles (p := p) (m := m) (c := c) ht hop hreads hword hstack
        htypes.1.1 htypes.1.2
      cases op <;> exact hbinary
  | convert =>
    rcases hstack : s.stack with _ | ⟨v, rest⟩
    · rw [hstack] at htypes
      cases htypes
    · exact convert_compiles ht hreads hscalar hstack
  | pop =>
    rcases hstack : s.stack with _ | ⟨v, rest⟩
    · rw [hstack] at htypes
      cases htypes
    · exact drop_compiles ht hstack
  | call | branch | otherwise | endBranch | ret => cases hscalar

end

/-! ## Code -/

variable {τ : Types} {σ : List (Primitive × Int)} {code : Code}

/-- What one command preserves, straight code preserves from its first instruction to its last. -/
theorem steps_simulate (c : Context) (hscalar : ∀ i ∈ code, i.isScalar c.method = true)
    (index : Nat) (s : State) (ht : Tidy s.frame s.stack)
    (hslots : s.frame.localType? = c.method.localType?)
    (htyped : retype c.program c.method code (s.stack.map StackValue.type) = some τ) :
    ∃ s' lines, steps c index code s = .ok s' ∧
      s'.listing.lines = s.listing.lines ++ lines ∧ s'.frame.outline = s.frame.outline ∧
      s'.stack.map StackValue.type = τ ∧ ∀ d σ st k, Represents s.frame d s.stack σ st →
        Machine.run words c.program c.method code ⟨σ, st, .running⟩ = .ok k →
        ∃ e, Cpu.run lines d = some e ∧ Represents s'.frame e s'.stack k.stack k.store := by
  induction code generalizing index s with
  | nil =>
    cases htyped
    refine ⟨s.mark, [], rfl, (append_nil _).symm, rfl, rfl, ?_⟩
    intro d σ st k hd hk
    cases hk
    exact ⟨d, rfl, hd⟩
  | cons i _ ih =>
    obtain ⟨x, hx, hword⟩ := (Option.any_eq_true _ _).1 (hscalar i mem_cons_self)
    obtain ⟨υ, hυ, hrest⟩ := exists_of_retype_cons hx htyped
    obtain ⟨s₁, a, hstep, hlines, hperforms⟩ := @step_compiles c.program c.method c i s.mark x υ index
      ht hslots hx hword hυ
    have htypes : s₁.stack.map StackValue.type = υ :=
      some.inj (hperforms.types.symm.trans hυ)
    have hslots₁ : s₁.frame.localType? = c.method.localType? :=
      (Frame.localType?_congr hperforms.outline).trans hslots
    obtain ⟨s₂, b, hsteps, hmore, hout, hfinal, hrun⟩ :=
      ih (fun j hj => hscalar j (mem_cons_of_mem _ hj)) (index + 1) s₁ hperforms.tidy hslots₁
        (htypes ▸ hrest)
    refine ⟨s₂, a ++ b, ?_, ?_, hout.trans hperforms.outline, hfinal, ?_⟩
    · rw [steps, hstep, ok_bind, hsteps]
    · rw [hmore, hlines, append_assoc]
      rfl
    · intro d σ st k hd hk
      rw [Machine.run_cons, Machine.step_running hx] at hk
      obtain ⟨k₁, hk₁, hk⟩ := of_bind hk
      obtain ⟨d₁, hd₁, hrep, hcontrol⟩ := hperforms.run d σ st k₁ hd hk₁
      have hmachine : k₁ = ⟨k₁.stack, k₁.store, .running⟩ := by rw [← hcontrol]
      rw [hmachine] at hk
      obtain ⟨e, he, hrep⟩ := hrun d₁ k₁.stack k₁.store k hrep hk
      exact ⟨e, Cpu.run_append_of hd₁ he, hrep⟩

/-! ## Runs -/

/-- A well typed command over words finds what it needs: it succeeds, or it is a division that
traps. -/
theorem perform_of_retype {p : Program} {m : Method} {x : Command} (hscalar : x.isScalar m = true)
    (h : x.retype p m (σ.map Prod.fst) = some τ) (st : Store Int Unit) :
    (∃ k, x.perform words p m σ st = .ok k ∧ k.stack.map Prod.fst = τ ∧ k.control = .running) ∨
      x.perform words p m σ st = .error (.trapped st) := by
  cases x with
  | nop | constant =>
    cases h
    exact .inl ⟨_, rfl, rfl, rfl⟩
  | get =>
    obtain ⟨t, ht, rfl⟩ := map_eq_some_iff.1 h
    simp only [Command.perform, ht]
    exact .inl ⟨_, rfl, rfl, rfl⟩
  | set =>
    cases σ with
    | nil => cases h
    | cons =>
      simp only [map_cons, Command.retype, ite_none_right_eq_some, Option.some.injEq] at h
      obtain ⟨ht, rfl⟩ := h
      simp only [Command.perform, ht]
      exact .inl ⟨_, rfl, rfl, rfl⟩
  | operate op t =>
    rcases σ with - | ⟨left, - | ⟨right, σ⟩⟩
    · cases h
    · cases h
    · simp only [map_cons, Command.retype, ite_none_right_eq_some,
        Option.some.injEq] at h
      obtain ⟨-, rfl⟩ := h
      simp only [Command.perform]
      cases words.operate op t left.2 right.2 with
      | none => exact .inr rfl
      | some => exact .inl ⟨_, rfl, rfl, rfl⟩
  | convert =>
    cases σ with
    | nil => cases h
    | cons =>
      simp only [map_cons, Command.retype, ite_none_left_eq_some, Option.some.injEq] at h
      obtain ⟨-, rfl⟩ := h
      simp only [Command.perform, Meaning.bring]
      split <;> exact .inl ⟨_, rfl, rfl, rfl⟩
  | pop =>
    cases σ with
    | nil => cases h
    | cons =>
      cases h
      exact .inl ⟨_, rfl, rfl, rfl⟩
  | call | branch | otherwise | endBranch | ret => cases hscalar

/-- Straight, well typed code over words runs to its end or traps in a division. -/
theorem run_of_retype {p : Program} {m : Method} (hscalar : ∀ i ∈ code, i.isScalar m = true)
    (h : retype p m code (σ.map Prod.fst) = some τ) (st : Store Int Unit) :
    (∃ k, Machine.run words p m code ⟨σ, st, .running⟩ = .ok k) ∨
      ∃ st', Machine.run words p m code ⟨σ, st, .running⟩ = .error (.trapped st') := by
  induction code generalizing σ st with
  | nil => exact .inl ⟨_, rfl⟩
  | cons i _ ih =>
    obtain ⟨_, hx, hword⟩ := (Option.any_eq_true _ _).1 (hscalar i mem_cons_self)
    obtain ⟨υ, hυ, hrest⟩ := exists_of_retype_cons hx h
    rw [Machine.run_cons, Machine.step_running hx]
    rcases perform_of_retype hword hυ st with ⟨k, hk, rfl, hcontrol⟩ | htrap
    · have hmachine : k = ⟨k.stack, k.store, .running⟩ := by rw [← hcontrol]
      rw [hk, ok_bind, hmachine]
      exact ih (fun j hj => hscalar j (mem_cons_of_mem _ hj)) hrest k.store
    · rw [htrap]
      exact .inr ⟨st, rfl⟩

/-- Straight, well typed code over words is compiled, and never stuck on the stack machine. If it
runs to its end there, that is if no divisor is zero and no quotient exceeds its type, the lines after
the first one run on the processor. They leave every slot with its value, and every entry of the
virtual stack stands for the value at its place on the operand stack. -/
theorem straight_lines_run_as_code (c : Context) (label : String) (shared : Shared)
    (code : List Instruction) (τ : List Primitive)
    (hscalar : ∀ i ∈ code, i.isScalar c.method = true)
    (htyped : retype c.program c.method code [] = some τ) :
    ∃ s lines, steps c 0 code (.start c label shared) = .ok s ∧
      s.listing.lines = .instruction "ENTER" [.number 0, .number 0] :: lines ∧
      s.stack.map StackValue.type = τ ∧
      ∀ store : Store Int Unit,
        ((∃ k, Machine.run words c.program c.method code ⟨[], store, .running⟩ = .ok k) ∨
          ∃ st, Machine.run words c.program c.method code ⟨[], store, .running⟩ =
            .error (.trapped st)) ∧
        ∀ (d : Cpu) (k : Machine Int Unit),
          (∀ i t, c.method.localType? i = some t →
            (State.start c label shared).frame.value d.memory i t = store.locals i) →
          Machine.run words c.program c.method code ⟨[], store, .running⟩ = .ok k →
          ∃ e, Cpu.run lines d = some e ∧
            (∀ i t, c.method.localType? i = some t →
              s.frame.value e.memory i t = k.store.locals i) ∧
            Aligned (fun v x => v.type = x.1 ∧ v.Denotes s.frame e x.2) s.stack k.stack := by
  have ht : Tidy (State.start c label shared).frame [] :=
    ⟨by simp, List.nodup_nil, by simp [State.start], Nat.zero_le 1⟩
  obtain ⟨s, lines, hsteps, hlines, hout, htypes, hrun⟩ :=
    steps_simulate c hscalar 0 (.start c label shared) ht rfl htyped
  refine ⟨s, lines, hsteps, hlines, htypes, fun store =>
    ⟨run_of_retype (σ := []) hscalar htyped store, ?_⟩⟩
  intro d k hslots hk
  obtain ⟨e, he, hrep⟩ := hrun d [] store k ⟨.nil, hslots⟩ hk
  refine ⟨e, he, fun i t hi => hrep.slots i t ?_, hrep.stack⟩
  rw [Frame.localType?_congr hout]
  exact hi

namespace Sample

/-- A method with two parameters and two locals. -/
def context : Context where
  program := {}
  method :=
    { id := 0
      owner := 0
      script := 0
      name := ⟨["Main"]⟩
      returnType := .void
      parameters := [⟨"a", .i8⟩, ⟨"b", .u16⟩]
      external := false
      span := ⟨1, 1, 4⟩
      locals := [.i32, .i8] }
  name := "Main"

/-- Code that keeps a read pending across an assignment and an operation across another one. -/
def straight : Code :=
  [.getLocal (-1), .getLocal (-1), .loadConst .i8 "100", .binary .add .i8, .getLocal (-1),
    .loadConst .i8 "3", .binary .mul .i8, .loadConst .i8 "7", .setLocal (-1), .binary .sub .i8,
    .binary .div .i8, .convert .i32, .setLocal 0, .getLocal (-2), .loadConst .u16 "0",
    .binary .unequals .u16]

/-- Memory with the parameters 30 and 1000 and something in all other places. -/
def cpu : Cpu where
  eax := 0
  ecx := 0
  edx := 0
  zero := none
  memory address := if address = 8 then 30 else if address = 9 then 232 else
    if address = 10 then 3 else 170

/-- The values that memory holds. -/
def store : Store Int Unit where
  locals i := ((context.method.localType? i).map
    ((State.start context "Main" {}).frame.value cpu.memory i)).getD 0
  world := ()

end Sample

/-- The quotient of a difference that wraps is cut toward zero, and the divisor is what was read
before the assignment. -/
theorem sample_lines_run_as_code :
    (∀ i ∈ Sample.straight, i.isScalar Sample.context.method = true) ∧
    retype Sample.context.program Sample.context.method Sample.straight [] = some [.bool] ∧
    ∃ s lines k e,
      steps Sample.context 0 Sample.straight (.start Sample.context "Main" {}) = .ok s ∧
      s.listing.lines = .instruction "ENTER" [.number 0, .number 0] :: lines ∧
      Machine.run words Sample.context.program Sample.context.method Sample.straight
        ⟨[], Sample.store, .running⟩ = .ok k ∧
      k.stack = [(.bool, 1)] ∧
      Cpu.run lines Sample.cpu = some e ∧
      s.frame.value e.memory (-1) .i8 = 7 ∧ s.frame.value e.memory 0 .i32 = -1 ∧
      Aligned (fun v x => v.type = x.1 ∧ v.Denotes s.frame e x.2) s.stack k.stack := by
  have hscalar : ∀ i ∈ Sample.straight, i.isScalar Sample.context.method = true := by decide +kernel
  have htyped : retype Sample.context.program Sample.context.method Sample.straight [] =
      some [.bool] := by decide +kernel
  have hrun : (Machine.run words Sample.context.program Sample.context.method Sample.straight
      ⟨[], Sample.store, .running⟩).toOption.map
        (fun k => (k.stack, k.store.locals (-1), k.store.locals 0)) =
      some ([(.bool, 1)], 7, -1) := by decide +kernel
  obtain ⟨s, lines, hsteps, hlines, -, hall⟩ := straight_lines_run_as_code Sample.context "Main" {}
    Sample.straight [.bool] hscalar htyped
  cases hok : Machine.run words Sample.context.program Sample.context.method Sample.straight
      ⟨[], Sample.store, .running⟩ with
  | error stop =>
    rw [hok] at hrun
    cases hrun
  | ok k =>
    rw [hok] at hrun
    obtain ⟨hstack, hfirst, hsecond⟩ : k.stack = [(.bool, 1)] ∧ k.store.locals (-1) = 7 ∧
        k.store.locals 0 = -1 := by simpa [Except.toOption] using hrun
    obtain ⟨e, he, hslots, hentries⟩ := (hall Sample.store).2 Sample.cpu k (by
      intro i _ hi
      simp [Sample.store, hi]) hok
    refine ⟨hscalar, htyped, s, lines, k, e, hsteps, hlines, rfl, hstack, he, ?_, ?_, hentries⟩
    · rw [hslots (-1) .i8 rfl, hfirst]
    · rw [hslots 0 .i32 rfl, hsecond]

end ScriptCompiler.X86
