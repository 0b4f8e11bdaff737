import ScriptCompiler.Proofs.Wat.Emission
import ScriptCompiler.Proofs.Wat.FlatBodies

/-!
# Rendered functions

What an instruction writes can be seen by compiling it alone (`emission`); only the notes about
types, scratch locals and memory come from the instructions before it. Compiling commutes with
putting one state inside another (`step_within`), so the text of a function is what its code writes,
line by line (`render_writes_transcript`).
-/

set_option autoImplicit false

namespace ScriptCompiler.Wat

open List State

/-! ## What instructions write by themselves -/

/-- What is noted, with nothing written and nothing open. -/
def State.bare (s : State) : State := { s with body := [], branches := [] }

/-- The line by which an instruction opens, divides or closes a conditional. -/
def mark : Opcode → List Token
  | .branch => [.opening]
  | .otherwise => [.divider]
  | .endBranch => [.closing]
  | _ => []

/-- What an instruction writes, and what is noted behind it: the instructions that compiling it
leaves where nothing is written and nothing is open yet, and then its mark. -/
def emission (c : Context) (i : Instruction) (s : State) : Compiling (List Token × State) :=
  if i.opcode = .otherwise ∨ i.opcode = .endBranch then .ok (mark i.opcode, s.bare)
  else (step c i s.bare).map fun r => (r.ops.map .op ++ mark i.opcode, r.bare)

/-- What instructions write, one after the other. -/
def transcript (c : Context) : Code → State → Compiling (List Token)
  | [], _ => .ok []
  | i :: rest, s => do
    let (tokens, s) ← emission c i s
    let more ← transcript c rest s
    return tokens ++ more

theorem transcript_bare (c : Context) (code : Code) (s : State) :
    transcript c code s.bare = transcript c code s := by
  cases code <;> rfl

/-! ## States inside others -/

namespace State

/-- The lines and open conditionals of a state put where another state goes on. -/
def within (s host : State) : State :=
  { host.addAll s.body with
    types := s.types
    branches := s.branches ++ (host.addAll s.body).branches
    scratch := s.scratch
    memory := s.memory }

variable (s host : State)

theorem bare_within : s.bare.within s = s := by
  have h : s.addAll [] = s := s.addAll_nil
  unfold within bare
  dsimp only
  rw [h]
  rfl

theorem add_within (line : Line Op) : (s.within host).add line = (s.add line).within host := by
  obtain ⟨_, _, branches, _, _⟩ := s
  obtain ⟨_, _, hbranches, _, _⟩ := host
  cases branches with
  | cons => rfl
  | nil =>
    cases hbranches with
    | nil => simp [within, add, addAll]
    | cons b =>
      obtain ⟨_, second⟩ := b
      cases second <;> simp [within, add, addAll, OpenBranch.addAll, OpenBranch.add]

theorem emit_within (op : Op) : (s.within host).emit op = (s.emit op).within host :=
  s.add_within host (.op op)

theorem emitAll_within (ops : List Op) :
    (s.within host).emitAll ops = (s.emitAll ops).within host := by
  unfold emitAll
  induction ops generalizing s with
  | nil => rfl
  | cons _ _ ih => rw [foldl_cons, foldl_cons, emit_within, ih]

variable (c : Context) (i : Instruction)

theorem pop_within : (s.within host).pop c i = (s.pop c i).map fun r => (r.1, r.2.within host) := by
  obtain ⟨types, _, _, _, _⟩ := s
  cases types <;> rfl

theorem popMany_within (count : Nat) :
    (s.within host).popMany c i count = (s.popMany c i count).map (·.within host) := by
  induction count generalizing s with
  | zero => rfl
  | succ _ ih =>
    rw [popMany, popMany, pop_within, Except.bind_map, Except.map_bind]
    refine bind_congr fun r => ?_
    exact ih r.2

theorem scratchPair_within (v : ValueType) : (s.within host).scratchPair c v =
      ((s.scratchPair c v).1.within host, (s.scratchPair c v).2) := by
  have hscratch : (s.within host).scratch = s.scratch := rfl
  unfold scratchPair
  rw [hscratch]
  cases s.scratch.find? fun e => e.1 == v <;> rfl

end State

section

variable (c : Context) (i : Instruction) (s host : State)

theorem loadConstant_within :
    loadConstant c i (s.within host) = (loadConstant c i s).map (·.within host) := by
  rw [loadConstant, loadConstant, Except.map_bind]
  refine bind_congr fun ⟨t, text⟩ => ?_
  cases t with
  | str =>
    have hmemory : ∀ memory, { s.within host with memory } = { s with memory }.within host :=
      fun _ => rfl
    have hnoted : (s.within host).memory = s.memory := rfl
    dsimp only
    rw [hnoted, hmemory, emit_within]
    cases c.loadString with
    | none => rfl
    | some =>
      dsimp only
      rw [emit_within]
      rfl
  | bool =>
    dsimp only
    rw [emit_within, emit_within]
    split
    · rfl
    · split <;> rfl
  | f32 | f64 =>
    dsimp only
    cases Double.read? text with
    | none => rfl
    | some =>
      dsimp only
      rw [Except.map_bind]
      refine bind_congr fun v => ?_
      rw [emit_within]
      rfl
  | _ =>
    dsimp only
    cases Integer.read? 128 text with
    | none => rfl
    | some =>
      dsimp only
      rw [Except.map_bind]
      refine bind_congr fun v => ?_
      rw [emit_within]
      rfl

theorem getLocal_within : getLocal c i (s.within host) = (getLocal c i s).map (·.within host) := by
  rw [getLocal, getLocal, Except.map_bind]
  refine bind_congr fun ⟨_, _⟩ => ?_
  dsimp only
  rw [emit_within]
  rfl

theorem setLocal_within : setLocal c i (s.within host) = (setLocal c i s).map (·.within host) := by
  rw [setLocal, setLocal, Except.map_bind]
  refine bind_congr fun ⟨_, _⟩ => ?_
  dsimp only
  rw [pop_within, Except.bind_map, Except.map_bind]
  refine bind_congr fun ⟨_, _⟩ => ?_
  dsimp only
  rw [emit_within]
  rfl

theorem binary_within : binary c i (s.within host) = (binary c i s).map (·.within host) := by
  rw [binary, binary, Except.map_bind]
  refine bind_congr fun t => ?_
  rw [popMany_within, Except.bind_map, Except.map_bind]
  refine bind_congr fun r => ?_
  rw [Except.map_bind]
  refine bind_congr fun v => ?_
  have hfinish : ∀ r : State,
      (if (operation i.opcode t).2 = t then
          ((r.within host).emit (.numeric v (operation i.opcode t).1)).emitAll (narrow t)
        else (r.within host).emit (.numeric v (operation i.opcode t).1)).push
          (operation i.opcode t).2 =
        ((if (operation i.opcode t).2 = t then
            (r.emit (.numeric v (operation i.opcode t).1)).emitAll (narrow t)
          else r.emit (.numeric v (operation i.opcode t).1)).push (operation i.opcode t).2).within
            host := by
    intro r
    rw [emit_within, emitAll_within]
    split <;> rfl
  dsimp only
  split
  · rw [scratchPair_within]
    dsimp only
    rw [emitAll_within]
    split
    · rw [emitAll_within]
      rfl
    · rw [emitAll_within, hfinish]
      rfl
  · rw [hfinish]
    rfl

theorem convert_within : convert c i (s.within host) = (convert c i s).map (·.within host) := by
  rw [convert, convert, Except.map_bind]
  refine bind_congr fun _ => ?_
  rw [pop_within, Except.bind_map, Except.map_bind]
  refine bind_congr fun ⟨_, _⟩ => ?_
  dsimp only
  rw [Except.map_bind]
  refine bind_congr fun _ => ?_
  rw [emitAll_within]
  rfl

theorem callStatic_within :
    callStatic c i (s.within host) = (callStatic c i s).map (·.within host) := by
  rw [callStatic, callStatic, Except.map_bind]
  refine bind_congr fun ⟨_, target⟩ => ?_
  dsimp only
  cases (c.program.findMethod? target).bind c.program.methodAt? with
  | none => rfl
  | some =>
    dsimp only
    rw [popMany_within, Except.bind_map, Except.map_bind]
    refine bind_congr fun _ => ?_
    rw [emit_within]
    split <;> rfl

theorem openBranch_within :
    openBranch c i (s.within host) = (openBranch c i s).map (·.within host) := by
  rw [openBranch, openBranch, Except.map_bind]
  refine bind_congr fun ⟨_, _⟩ => ?_
  dsimp only
  split
  · rw [emit_within]
    rfl
  · rw [pop_within, Except.bind_map, Except.map_bind]
    refine bind_congr fun ⟨_, _⟩ => ?_
    dsimp only
    rw [Except.map_bind]
    refine bind_congr fun _ => ?_
    rw [Except.map_bind]
    refine bind_congr fun _ => ?_
    rw [emitAll_within]
    rfl

theorem ret_within : ret c i (s.within host) = (ret c i s).map (·.within host) := by
  unfold ret
  split
  · rw [emit_within]
    rfl
  · rw [pop_within, Except.bind_map, Except.map_bind]
    refine bind_congr fun ⟨_, _⟩ => ?_
    dsimp only
    rw [emit_within]
    rfl

theorem drop_within : drop c i (s.within host) = (drop c i s).map (·.within host) := by
  rw [drop, drop, pop_within, Except.bind_map, Except.map_bind]
  refine bind_congr fun ⟨_, _⟩ => ?_
  dsimp only
  rw [emit_within]
  rfl

/-- Compiling an instruction does the same wherever its lines go, unless it divides or closes a
conditional. -/
theorem step_within (ho : i.opcode ≠ .otherwise) (he : i.opcode ≠ .endBranch) :
    step c i (s.within host) = (step c i s).map (·.within host) := by
  unfold step
  cases hop : i.opcode with
  | nop =>
    dsimp only
    rw [emit_within]
    rfl
  | loadConst => exact loadConstant_within c i s host
  | getLocal => exact getLocal_within c i s host
  | setLocal => exact setLocal_within c i s host
  | add | sub | mul | div | rem | equals | unequals => exact binary_within c i s host
  | convert => exact convert_within c i s host
  | call => exact callStatic_within c i s host
  | jump => rfl
  | branch => exact openBranch_within c i s host
  | otherwise => exact absurd hop ho
  | endBranch => exact absurd hop he
  | ret => exact ret_within c i s host
  | pop => exact drop_within c i s host

end

/-! ## Functions under way, written down flat -/

/-- The lines of a conditional that is open. -/
def OpenBranch.tokens (b : OpenBranch) : List Token :=
  .opening :: (Line.allTokens b.body ++
    b.alternative.elim [] fun lines => .divider :: Line.allTokens lines)

/-- The lines so far, those of the open conditionals last. -/
def State.tokens (s : State) : List Token :=
  Line.allTokens s.body ++ s.branches.reverse.flatMap OpenBranch.tokens

variable (b : OpenBranch) (lines : Body)

theorem OpenBranch.tokens_addAll : (b.addAll lines).tokens = b.tokens ++ Line.allTokens lines := by
  obtain ⟨_, alt⟩ := b
  cases alt <;> simp [OpenBranch.addAll, OpenBranch.tokens, Line.allTokens_append]

theorem OpenBranch.tokens_close : b.close.tokens = b.tokens ++ [Token.closing] := by
  obtain ⟨_, alt⟩ := b
  cases alt <;> simp [OpenBranch.close, OpenBranch.tokens, Line.tokens]

namespace State

variable (s host : State)

theorem tokens_addAll : (s.addAll lines).tokens = s.tokens ++ Line.allTokens lines := by
  unfold addAll tokens
  cases s.branches with
  | nil => simp [Line.allTokens_append]
  | cons => simp [OpenBranch.tokens_addAll]

theorem tokens_opened : (s.opened b).tokens = s.tokens ++ b.tokens := by simp [opened, tokens]

theorem tokens_within : (s.within host).tokens = host.tokens ++ s.tokens := by
  have hbody := host.tokens_addAll s.body
  unfold tokens at hbody ⊢
  unfold within
  dsimp only
  rw [reverse_append, flatMap_append, ← append_assoc, hbody, append_assoc]

theorem add_eq_addAll (line : Line Op) : s.add line = s.addAll [line] := by
  have h := s.add_advance [] s.types s.scratch line
  rw [← s.eq_advance, nil_append, ← s.addAll_note] at h
  exact h

end State

section

variable {c : Context} {s s' : State}

theorem tokens_of_otherwise (h : otherwise c s = .ok s') :
    s'.bare = s.bare ∧ s'.tokens = s.tokens ++ [.divider] := by
  obtain ⟨_, _, rfl, rfl⟩ := otherwise_ok h
  refine ⟨rfl, ?_⟩
  rw [tokens_opened, tokens_opened, append_assoc]
  simp [OpenBranch.tokens, Line.allTokens]

theorem tokens_of_endBranch (h : endBranch c s = .ok s') :
    s'.bare = s.bare ∧ s'.tokens = s.tokens ++ [.closing] := by
  obtain ⟨r, _, rfl, rfl⟩ := endBranch_ok h
  constructor
  · unfold State.add
    cases r.branches <;> rfl
  · rw [add_eq_addAll, State.tokens_addAll, tokens_opened, Line.allTokens_singleton,
      OpenBranch.tokens_close, append_assoc]

end

section

variable {c : Context} {i : Instruction} {s s' r : State} {cmd : Command}

/-- Where nothing is written and nothing is open, a command writes its instructions only. -/
theorem Adds.alone (h : Adds c cmd s.bare r) :
    r.tokens = r.ops.map .op ∧ Numbered c.method r.scratch := by
  obtain @⟨ops, τ, S, memory, -, -, hS⟩ := h
  refine ⟨?_, hS⟩
  have hnothing : (s.bare.storing memory).ops = [] := rfl
  rw [ops_advance, Line.allOps_map_op, hnothing, nil_append]
  show Line.allTokens (ops.map .op) ++ [] = _
  rw [append_nil, Line.allTokens_ops]

theorem mark_eq_nil (h : cmd.isMark = false) : mark cmd.opcode = [] := by
  cases cmd with
  | operate op => cases op <;> rfl
  | branch | otherwise | endBranch => cases h
  | _ => rfl

/-- What an instruction writes by itself are the lines that compiling it by itself leaves. -/
theorem step_alone (hs : Numbered c.method s.scratch)
    (hop : ¬ (i.opcode = .otherwise ∨ i.opcode = .endBranch)) (h : step c i s.bare = .ok r) :
    r.tokens = r.ops.map .op ++ mark i.opcode ∧ Numbered c.method r.scratch := by
  obtain ⟨cmd, r₀, hcmd, hadds, harrange⟩ := @step_ok c i s.bare r hs h
  have hopcode := i.opcode_of_command? hcmd
  obtain ⟨htokens, hS⟩ := hadds.alone
  rw [hopcode] at hop ⊢
  cases hmark : cmd.isMark with
  | false =>
    rw [arrange_of_isMark hmark] at harrange
    cases harrange
    rw [mark_eq_nil hmark, append_nil]
    exact ⟨htokens, hS⟩
  | true =>
    cases cmd with
    | branch =>
      obtain rfl : r₀.opened {} = r := Except.ok.inj harrange
      refine ⟨?_, hS⟩
      rw [tokens_opened, htokens, ops_opened]
      simp [OpenBranch.ops, OpenBranch.tokens, Line.allOps, Line.allTokens, mark, Command.opcode]
    | otherwise => exact absurd (.inl rfl) hop
    | endBranch => exact absurd (.inr rfl) hop
    | _ => cases hmark

/-- A compiled instruction adds what it writes behind the lines that are there. -/
theorem step_tokens (hs : Numbered c.method s.scratch) (h : step c i s = .ok s') :
    ∃ tokens, emission c i s = .ok (tokens, s'.bare) ∧ s'.tokens = s.tokens ++ tokens ∧
      Numbered c.method s'.scratch := by
  by_cases hop : i.opcode = .otherwise ∨ i.opcode = .endBranch
  · have hdone : s'.bare = s.bare ∧ s'.tokens = s.tokens ++ mark i.opcode := by
      rcases hop with hop | hop
      · rw [step, hop] at h
        rw [hop]
        exact tokens_of_otherwise h
      · rw [step, hop] at h
        rw [hop]
        exact tokens_of_endBranch h
    obtain ⟨hbare, htokens⟩ := hdone
    have hscratch : s'.bare.scratch = s.bare.scratch := by rw [hbare]
    refine ⟨mark i.opcode, ?_, htokens, fun k e hk => hs k e (hscratch ▸ hk)⟩
    rw [emission, if_pos hop, hbare]
  · have hwithin := step_within c i s.bare s (fun h => hop (.inl h)) fun h => hop (.inr h)
    rw [s.bare_within, h] at hwithin
    obtain ⟨r, halone, rfl⟩ := Except.map_eq_ok_iff.1 hwithin.symm
    obtain ⟨htokens, hS⟩ := step_alone hs hop halone
    refine ⟨r.tokens, ?_, r.tokens_within s, hS⟩
    rw [emission, if_neg hop, halone, htokens]
    rfl

theorem steps_tokens {code : Code} (hs : Numbered c.method s.scratch)
    (h : steps c code s = .ok s') :
    ∃ tokens, transcript c code s = .ok tokens ∧ s'.tokens = s.tokens ++ tokens := by
  induction code generalizing s with
  | nil =>
    cases h
    exact ⟨[], rfl, (append_nil _).symm⟩
  | cons _ _ ih =>
    rw [steps_cons] at h
    obtain ⟨_, hstep, hrest⟩ := of_bind h
    obtain ⟨first, hfirst, htokens, hs₁⟩ := step_tokens hs hstep
    obtain ⟨more, hmore, hall⟩ := ih hs₁ hrest
    refine ⟨first ++ more, ?_, ?_⟩
    · rw [transcript, hfirst, ok_bind]
      dsimp only
      rw [transcript_bare, hmore]
      rfl
    · rw [hall, htokens, append_assoc]

end

/-! ## Functions -/

/-- Lines with a trap at their end where a result is due and the last one does not return. -/
def closeTokens (result : Option ValueType) (tokens : List Token) : List Token :=
  if result.isSome = true ∧ tokens.getLast? ≠ some (.op .ret) then tokens ++ [.op .unreachable]
  else tokens

/-- The last flat line returns exactly if the last line does: a conditional ends with its `end`. -/
theorem getLast?_allTokens : (Line.allTokens lines).getLast? = some (.op .ret) ↔
      lines.getLast?.any (Line.isOp .ret) = true := by
  rcases eq_nil_or_concat lines with rfl | ⟨front, line, rfl⟩
  · simp [Line.allTokens]
  · have hend : ∀ rest : List Token,
        (Line.allTokens front ++ Token.opening :: (rest ++ [Token.closing])).getLast? =
          some .closing := by
      intro rest
      rw [← cons_append, ← append_assoc, getLast?_concat]
    rw [concat_eq_append, Line.allTokens_append, Line.allTokens_singleton, getLast?_concat]
    cases line with
    | op =>
      rw [Line.tokens, getLast?_concat, Option.any_some, Line.isOp, beq_iff_eq,
        Option.some.injEq, Token.op.injEq, eq_comm]
    | ifThen =>
      rw [Line.tokens, hend]
      simp [Line.isOp]
    | ifElse body alt =>
      have hlast := hend (Line.allTokens body ++ .divider :: Line.allTokens alt)
      rw [append_assoc, cons_append] at hlast
      rw [Line.tokens, hlast]
      simp [Line.isOp]

theorem allTokens_closeBody (result : Option ValueType) (body : Body) :
    Line.allTokens (closeBody result body) = closeTokens result (Line.allTokens body) := by
  have hlast := getLast?_allTokens body
  unfold closeBody closeTokens
  cases hres : result.isSome with
  | false => simp
  | true =>
    cases hret : body.getLast?.any (Line.isOp .ret) with
    | true => simp [hlast.2 hret]
    | false =>
      have hopen : (Line.allTokens body).getLast? ≠ some (.op .ret) := by
        rw [Ne, hlast, hret]
        exact Bool.false_ne_true
      rw [if_pos (by rfl), if_pos ⟨rfl, hopen⟩, Line.allTokens_append]
      rfl

/-- Rendering loses and moves nothing. The lines written for the body of a compiled function are
what its instructions write, one after the other, with `if`, `else` and `end` where they open,
divide and close conditionals, and a trap at the end where a result is due and the last line does
not return; each line is moved in by the number of `if`s with an arm around it. -/
theorem render_writes_transcript {p : Program} {loadString : Option String} {m : Method}
    {memory memory' : Memory} {f : Function}
    (h : compileFunction p loadString m memory = .ok (f, memory')) :
    ∃ tokens, transcript ⟨p, m, (p.referenceOf m).text, loadString⟩ m.code { memory } = .ok tokens ∧
      ∀ page : Page, Line.renderAll Op.text f.body page =
        { page with
          lines := page.lines ++ (closeTokens f.result tokens).mapIdx fun k t =>
            Page.margin (page.depth + enclosing (closeTokens f.result tokens) k) ++ t.text } := by
  simp only [compileFunction] at h
  obtain ⟨parameters, -, h⟩ := Except.bind_eq_ok_iff.1 h
  obtain ⟨locals, -, h⟩ := Except.bind_eq_ok_iff.1 h
  obtain ⟨result, -, h⟩ := Except.bind_eq_ok_iff.1 h
  obtain ⟨s, hsteps, h⟩ := Except.bind_eq_ok_iff.1 h
  split at h
  · cases h
  · rename_i hclosed
    obtain ⟨rfl, -⟩ := Prod.mk.inj (Except.ok.inj h)
    obtain ⟨tokens, htranscript, htokens⟩ := steps_tokens (fun k e hk => by cases hk) hsteps
    have hbranches : s.branches = [] := by simpa using hclosed
    have hbody : Line.allTokens s.body = tokens := by
      simpa [State.tokens, hbranches, Line.allTokens] using htokens
    refine ⟨tokens, htranscript, fun page => ?_⟩
    rw [Line.renderAll_eq, allTokens_closeBody, hbody]
    rfl

/-- A method with a conditional in an arm of another one, which falls off its end. -/
def Sample.nested : Method where
  id := 0
  owner := 0
  script := 0
  name := ⟨["Main"]⟩
  returnType := .i32
  parameters := [⟨"a", .i32⟩, ⟨"b", .i64⟩]
  external := false
  span := ⟨1, 1, 1⟩
  code :=
    [.getLocal (-1), .branch .true none, .getLocal (-2), .branch .greater (some 5), .nop, .otherwise,
      .getLocal (-1), .pop, .endBranch, .otherwise, .getLocal (-1), .ret, .endBranch]

/-- Two nested conditionals, line by line. -/
theorem nested_writes_transcript : ∃ f, compileFunction {} none Sample.nested {} = .ok (f, {}) ∧
      (Line.renderAll Op.text f.body { depth := 1 }).lines =
        ["  local.get 0",
          "  if",
          "    local.get 1",
          "    i64.const 5",
          "    i64.gt_s",
          "    if",
          "      nop",
          "    else",
          "      local.get 0",
          "      drop",
          "    end",
          "  else",
          "    local.get 0",
          "    return",
          "  end",
          "  unreachable"] := by
  have hcomp : ∃ f, compileFunction {} none Sample.nested {} = .ok (f, {}) ∧
      f.result = some .i32 := ⟨_, rfl, rfl⟩
  obtain ⟨f, hf, hres⟩ := hcomp
  obtain ⟨_, htokens, hrender⟩ := render_writes_transcript hf
  have hwritten : transcript ⟨{}, Sample.nested, (Program.referenceOf {} Sample.nested).text, none⟩
      Sample.nested.code { memory := {} } =
        .ok [.op (.localGet 0), .opening, .op (.localGet 1), .op (.const .i64 5),
          .op (.numeric .i64 (.orderInt .gt .signed)), .opening, .op .nop, .divider,
          .op (.localGet 0), .op .drop, .closing, .divider, .op (.localGet 0), .op .ret,
          .closing] := by rfl
  obtain rfl := Except.ok.inj (htokens.symm.trans hwritten)
  refine ⟨f, hf, ?_⟩
  rw [hrender, hres]
  decide +kernel

end ScriptCompiler.Wat
