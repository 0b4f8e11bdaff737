import ScriptCompiler.Proofs.Underflow
import ScriptCompiler.Proofs.X86.Execution

/-!
# Paths through a listing

Every jump leads to the first line of an instruction or behind the last one, so a path through the
lines of code runs the lines of one instruction after the other. An entry that is in the same place
before and after code, and that the code does not take, was there all the time, so its word is kept
on every path (`Region.keeps`).
-/

set_option autoImplicit false

namespace ScriptCompiler.X86

open List Option

/-! ## Paths -/

/-- Whether a jump is taken, if this can be told. -/
def Cpu.follows? (c : Cpu) : String → Option Bool
  | "JMP" => some true
  | "JZ" | "JE" => c.zero
  | "JNZ" | "JNE" => c.zero.map (!·)
  | _ => none

/-- Paths of `n` moves from one line to another. They start moves between the lines `low` and `high`
only, and jumps lead to `floor` or behind it. -/
inductive Path (e : Setting) (l : Listing) (low floor high : Nat) :
    Nat → Nat → Core → Nat → Core → Prop where
  | refl {line : Nat} {x : Core} : Path e l low floor high 0 line x line x
  | next {n line target : Nat} {code : Line} {x y z : Core} (hlow : low ≤ line)
      (hhigh : line < high) (hline : l.lines[line]? = some code) (h : Executes e code x y)
      (hrest : Path e l low floor high n (line + 1) y target z) :
      Path e l low floor high (n + 1) line x target z
  | pass {n line target : Nat} {mnemonic : String} {bridge : Bridge} {x z : Core}
      (hlow : low ≤ line) (hhigh : line < high)
      (hline : l.lines[line]? = some (.jump mnemonic bridge))
      (h : x.cpu.follows? mnemonic ≠ some true)
      (hrest : Path e l low floor high n (line + 1) x target z) :
      Path e l low floor high (n + 1) line x target z
  | jump {n line landing target : Nat} {mnemonic : String} {bridge : Bridge} {x z : Core}
      (hlow : low ≤ line) (hhigh : line < high)
      (hline : l.lines[line]? = some (.jump mnemonic bridge))
      (h : x.cpu.follows? mnemonic ≠ some false) (hbridge : l.bridges[bridge]? = some (some landing))
      (hfloor : floor ≤ landing) (hrest : Path e l low floor high n landing x target z) :
      Path e l low floor high (n + 1) line x target z

/-- Whether a line is a jump. -/
def Line.isJump : Line → Bool
  | .jump .. => true
  | _ => false

namespace Path

variable {e : Setting} {l : Listing} {low floor high n line target : Nat} {x y : Core}

section

variable (h : Path e l low floor high n line x target y)
include h

theorem bounds (hlow : low ≤ target) (hhigh : target ≤ high) : low ≤ line ∧ line ≤ high := by
  cases h with
  | refl => exact ⟨hlow, hhigh⟩
  | next hlow hhigh | pass hlow hhigh | jump hlow hhigh => exact ⟨hlow, Nat.le_of_lt hhigh⟩

theorem eq_of_le (hline : high ≤ line) : target = line ∧ y = x := by
  cases h with
  | refl => exact ⟨rfl, rfl⟩
  | next _ hhigh | pass _ hhigh | jump _ hhigh => exact absurd hline (Nat.not_le_of_lt hhigh)

theorem restrict (hline : floor ≤ line) : Path e l floor floor high n line x target y := by
  induction h with
  | refl => exact .refl
  | next _ hhigh hcode h _ ih => exact .next hline hhigh hcode h (ih (Nat.le_succ_of_le hline))
  | pass _ hhigh hcode h _ ih => exact .pass hline hhigh hcode h (ih (Nat.le_succ_of_le hline))
  | jump _ hhigh hcode h hbridge hfloor _ ih =>
    exact .jump hline hhigh hcode h hbridge hfloor (ih hfloor)

end

/-- A path runs lines without jumps to their end. -/
theorem straight {lines : List Line} (hlines : ∀ line ∈ lines, line.isJump = false)
    (hfound : ∀ j < lines.length, l.lines[line + j]? = lines[j]?)
    (hend : line + lines.length ≤ target) (h : Path e l low floor high n line x target y) :
    ∃ m z, m ≤ n ∧ Runs e lines x z ∧ Path e l low floor high m (line + lines.length) z target y := by
  induction lines generalizing n line x with
  | nil => exact ⟨n, x, Nat.le_refl n, .nil, h⟩
  | cons first rest ih =>
    have hfirst : l.lines[line]? = some first := hfound 0 (Nat.succ_pos _)
    have hjump := hlines first mem_cons_self
    rw [length_cons] at hend
    cases h with
    | refl => omega
    | @next n _ _ code _ z _ hlow hhigh hcode h hrest =>
      obtain rfl := some.inj (hfirst.symm.trans hcode)
      obtain ⟨m, w, hm, hruns, hpath⟩ := ih (fun line hline => hlines line (mem_cons_of_mem _ hline))
        (fun j hj => by
          have hj := hfound (j + 1) (Nat.succ_lt_succ hj)
          rw [show line + 1 + j = line + (j + 1) by omega, hj, getElem?_cons_succ])
        (by omega) hrest
      refine ⟨m, w, Nat.le_succ_of_le hm, .cons h hruns, ?_⟩
      rw [length_cons, show line + (rest.length + 1) = line + 1 + rest.length by omega]
      exact hpath
    | pass _ _ hcode | jump _ _ hcode =>
      obtain rfl := some.inj (hfirst.symm.trans hcode)
      cases hjump

/-- From a jump a path goes on to the next line or to the landing. -/
theorem of_jump {mnemonic : String} {bridge : Bridge}
    (hline : l.lines[line]? = some (.jump mnemonic bridge)) (hne : line ≠ target)
    (h : Path e l low floor high n line x target y) :
    ∃ m landing, m < n ∧ Path e l low floor high m landing x target y ∧ (landing = line + 1 ∨
        l.bridges[bridge]? = some (some landing) ∧ floor ≤ landing) := by
  cases h with
  | refl => exact absurd rfl hne
  | next _ _ hcode h =>
    obtain rfl := some.inj (hline.symm.trans hcode)
    cases h
  | pass _ _ _ _ hrest => exact ⟨_, _, Nat.lt_succ_self _, hrest, .inl rfl⟩
  | jump _ _ hcode _ hbridge hfloor hrest =>
    cases some.inj (hline.symm.trans hcode)
    exact ⟨_, _, Nat.lt_succ_self _, hrest, .inr ⟨hbridge, hfloor⟩⟩

end Path

/-! ## Lines of instructions -/

/-- Whether no line is a jump. -/
def Straight (lines : List Line) : Prop := ∀ line ∈ lines, line.isJump = false

theorem Direct.straight {lines : List Line} (h : Direct lines) : Straight lines := by
  intro line hline
  have hdirect := h line hline
  cases line with
  | instruction | raw => rfl
  | jump => cases hdirect

section

variable {c : Context} {i : Instruction} {k : Nat} {a b : Stage} {lines : List Line}

theorem Action.straight (h : Action c i k a lines b) : Straight lines := by
  rcases h.direct with ⟨hdirect, -⟩ | ⟨_, rfl, -⟩
  · exact hdirect.straight
  · simp [Straight, Line.isJump]

theorem Acts.straight (h : Acts c i k a lines b) : Straight lines := by
  induction h with
  | refl => simp [Straight]
  | step hfirst _ ih => exact forall_mem_append.2 ⟨hfirst.straight, ih⟩

end

/-! ## States behind code -/

section

variable {c : Context} {code : Code} {index : Nat} {s s' : State}

section

variable (ha : Apart s.frame s.stack) (h : walk c index code s = .ok s')
include ha h

theorem walk_extends : (∃ lines, s'.listing.lines = s.listing.lines ++ lines) ∧
      s'.frame.outline = s.frame.outline ∧ s.frame.temps ≤ s'.frame.temps := by
  induction code generalizing index s with
  | nil =>
    cases h
    exact ⟨⟨[], (append_nil _).symm⟩, rfl, Nat.le_refl _⟩
  | cons _ _ ih =>
    obtain ⟨s₁, lines, hacts, -, harranges, ha₁, h⟩ := walk_cons_ok ha h
    obtain ⟨closing, hlines, -, -⟩ := harranges.lines_eq
    obtain ⟨⟨more, hmore⟩, hout, htemps⟩ := ih ha₁ h
    refine ⟨⟨lines ++ closing ++ more, ?_⟩, hout.trans hacts.outline,
      Nat.le_trans hacts.temps_le htemps⟩
    rw [hmore, show s₁.listing.lines = _ from hlines, append_assoc]
    rfl

theorem walk_size_le : s.listing.size ≤ s'.listing.size := by
  obtain ⟨⟨_, hlines⟩, -, -⟩ := walk_extends ha h
  rw [Listing.size, Listing.size, hlines, length_append]
  exact Nat.le_add_right _ _

theorem walk_getElem? {line : Nat} (hline : line < s.listing.size) :
    s'.listing.lines[line]? = s.listing.lines[line]? := by
  obtain ⟨⟨lines, hlines⟩, -, -⟩ := walk_extends ha h
  rw [hlines, getElem?_append_left hline]

end

/-- What may become of an entry: it stays, or it goes to a scratch slot once. -/
def Goes (v w : StackValue) : Prop :=
  w = v ∨ v.slot? = none ∧ ∃ slot, w = .temp v.type slot

variable {v w u : StackValue}

theorem Becomes.goes {i : Instruction} (h : Becomes i v w) : Goes v w := by
  rcases h with rfl | ⟨hw, hv⟩
  · exact .inl rfl
  · refine .inr ⟨?_, hw⟩
    rcases hv with hop | ⟨-, _, -, hv⟩
    · cases v with
      | operation => rfl
      | constant | stored | temp => cases hop
    · rw [hv]
      rfl

theorem Goes.trans (h : Goes u v) (h' : Goes v w) : Goes u w := by
  rcases h with rfl | ⟨hu, slot, rfl⟩
  · exact h'
  · rcases h' with rfl | ⟨hv, -⟩
    · exact .inr ⟨hu, slot, rfl⟩
    · cases hv

/-- An entry that is where it was has not moved in between. -/
theorem Goes.eq_of_back (h : Goes u v) (h' : Goes v u) : v = u := by
  rcases h with rfl | ⟨_, _, rfl⟩
  · rfl
  · rcases h' with h' | ⟨hv, -⟩
    · exact h'.symm
    · cases hv

end

/-! ## Boundaries -/

/-- The lines behind the beginnings of code. -/
def Boundary (c : Context) (s : State) (code : Code) (line : Nat) : Prop :=
  ∃ a b r, code = a ++ b ∧ walk c 0 a s = .ok r ∧ r.listing.size = line

section

variable {c : Context} {s s' : State} {bridges : List (Option Nat)} {line : Nat}

theorem Boundary.append {code : Code} (h : Boundary c s code line)
    (rest : Code) : Boundary c s (code ++ rest) line := by
  obtain ⟨a, b, r, rfl, hr, hline⟩ := h
  exact ⟨a, b ++ rest, r, by rw [append_assoc], hr, hline⟩

/-- Whether all noted lines and all landings of bridges are boundaries. -/
structure Anchored (c : Context) (s : State) (code : Code) (s' : State) : Prop where
  starts : ∀ line ∈ s'.starts, Boundary c s code line
  bridges : ∀ bridge line : Nat, s'.listing.bridges[bridge]? = some (some line) → Boundary c s code line

theorem landing_append_none {bridge : Nat} (h : (bridges ++ [none])[bridge]? = some (some line)) :
    bridges[bridge]? = some (some line) := by
  rw [getElem?_append] at h
  split at h
  · exact h
  · rw [getElem?_singleton] at h
    split at h <;> cases h

theorem landing_set {bridge skip target : Nat}
    (h : (bridges.set skip (some target))[bridge]? = some (some line)) :
    bridges[bridge]? = some (some line) ∨ line = target := by
  rw [List.getElem?_set] at h
  split at h
  · split at h
    · cases h
      exact .inr rfl
    · cases h
  · exact .inl h

/-- An instruction binds bridges to its first line or behind its last one. -/
theorem Anchored.step {a : Code} {i : Instruction} {s₁ : State}
    (h : Anchored c s a s') (ha : Apart s'.frame s'.stack) (hwalk : walk c 0 a s = .ok s')
    (hstep : step c a.length i s'.mark = .ok s₁) : Anchored c s (a ++ [i]) s₁ := by
  have hwalk₁ : walk c 0 (a ++ [i]) s = .ok s₁ := by
    rw [walk_append, hwalk, ok_bind, Nat.zero_add, walk, hstep]
    rfl
  have hfirst : Boundary c s (a ++ [i]) s'.listing.size := ⟨a, [i], s', rfl, hwalk, rfl⟩
  have hlast : Boundary c s (a ++ [i]) s₁.listing.size :=
    ⟨a ++ [i], [], s₁, (append_nil _).symm, hwalk₁, rfl⟩
  obtain ⟨_, -, hstarts, harranges⟩ := @step_ok c i 0 a.length s'.mark s₁ ha (Nat.zero_le _) hstep
  refine ⟨?_, ?_⟩
  · intro line hline
    rw [hstarts] at hline
    rcases mem_append.1 hline with hline | hline
    · exact (h.starts line hline).append [i]
    · rw [mem_singleton.1 hline]
      exact hfirst
  · intro bridge line hline
    have hold : s'.listing.bridges[bridge]? = some (some line) → Boundary c s (a ++ [i]) line :=
      fun hline => (h.bridges bridge line hline).append [i]
    generalize hcontrol : s₁.control = after at harranges
    have hlisting : s₁.listing = after.listing := congrArg Control.listing hcontrol
    rw [hlisting] at hline hlast
    generalize hbefore : s'.mark.control = before at harranges
    have hlisting' : s'.listing = before.listing := congrArg Control.listing hbefore
    rw [hlisting'] at hold hfirst
    cases harranges with
    | plain => exact hold hline
    | forced | tested | jumped => exact hold (landing_append_none hline)
    | divided =>
      rcases landing_set hline with hline | rfl
      · exact hold (landing_append_none hline)
      · exact hlast
    | closed =>
      rcases landing_set hline with hline | rfl
      · exact hold hline
      · exact hfirst

theorem Anchored.walk {a b : Code} {r : State} (h : Anchored c s a s')
    (ha : Apart s'.frame s'.stack) (hwalk : walk c 0 a s = .ok s')
    (hrest : walk c a.length b s' = .ok r) : Anchored c s (a ++ b) r := by
  induction b generalizing a s' with
  | nil =>
    cases hrest
    rwa [append_nil]
  | cons i _ ih =>
    obtain ⟨s₁, hstep, hrest⟩ := of_bind hrest
    have hwalk₁ : X86.walk c 0 (a ++ [i]) s = .ok s₁ := by
      rw [walk_append, hwalk, ok_bind, Nat.zero_add, X86.walk, hstep]
      rfl
    have hlen : a.length + 1 = (a ++ [i]).length := by simp
    rw [hlen] at hrest
    have hanchored := ih (h.step ha hwalk hstep) (step_apart (s := s'.mark) ha hstep) hwalk₁ hrest
    rwa [append_assoc] at hanchored

end

section

variable {p : Program} {m : Method} {shared : Shared} {l : Listing} {s : State} {line : Nat}

theorem bindJumps_bridges {c : Context} {starts : List Nat} {jumps : List (Bridge × Int)}
    {bound : Listing} (h : bindJumps c starts jumps l = .ok bound) {bridge : Nat}
    (hline : bound.bridges[bridge]? = some (some line)) :
    l.bridges[bridge]? = some (some line) ∨ line ∈ starts := by
  induction jumps generalizing l with
  | nil =>
    cases h
    exact .inl hline
  | cons _ _ ih =>
    obtain ⟨_, -, hstart, h⟩ := bindJumps_cons_ok h
    rcases ih h with hline | hline
    · rcases landing_set hline with hline | rfl
      · exact .inl hline
      · exact .inr (mem_of_getElem? hstart)
    · exact .inr hline

/-- Every jump of a method leads to a boundary of its code. -/
theorem Compiled.landing (h : Compiled p m shared l s) {bridge : Nat}
    (hline : l.bridges[bridge]? = some (some line)) :
    Boundary (.of p m) (startOf p m shared) m.code line := by
  have hstart : Anchored (.of p m) (startOf p m shared) [] (startOf p m shared) := by
    refine ⟨?_, ?_⟩
    · intro line hline
      cases hline
    · intro bridge line hline
      cases hline
  have hanchored : Anchored (.of p m) (startOf p m shared) m.code s :=
    hstart.walk start_apart rfl h.code
  obtain ⟨bound, hbound, rfl⟩ := h.listing
  have hsealed : bound.sealed.bridges = bound.bridges := by
    unfold Listing.sealed
    split <;> rfl
  have hline : bound.bridges[bridge]? = some (some line) := hsealed ▸ hline
  rcases bindJumps_bridges hbound hline with hline | hline
  · rw [s.ended_eq] at hline
    exact hanchored.bridges bridge line hline
  · rcases mem_append.1 hline with hline | hline
    · exact hanchored.starts line hline
    · rw [mem_singleton.1 hline]
      exact ⟨m.code, [], s, (append_nil _).symm, h.code, rfl⟩

theorem Compiled.getElem? (h : Compiled p m shared l s) (hpos : 0 < line)
    (hline : line < s.listing.size) : l.lines[line]? = s.listing.lines[line]? := by
  obtain ⟨_, _, -, -, hlines, -⟩ := h.lines_eq
  rw [hlines, getElem?_set_ne (Nat.ne_of_lt hpos), getElem?_append_left hline]

end

/-! ## Code above pending entries -/

section

variable {c : Context} {i : Instruction} {index k : Nat} {s s₁ s' : State}
  {code rest : Code}

/-- An instruction takes no more entries than its command does values. -/
theorem takes_le {cmd : Command} {n : Nat} (hc : i.command? = some cmd)
    (hn : cmd.takes c.program c.method = some n) (hstep : step c index i s = .ok s₁) :
    c.takes i ≤ n := by
  obtain ⟨hop, hreads⟩ := i.of_command? hc
  cases cmd with
  | nop | constant | get | otherwise | endBranch => simp [Context.takes, hop, Command.opcode]
  | set | convert | pop | ret =>
    cases hn
    simp [Context.takes, hop, Command.opcode]
  | operate op =>
    cases hn
    cases op <;> simp [Context.takes, hop, Command.opcode, BinaryOp.opcode]
  | call =>
    simp only [Context.takes, hop, Command.opcode]
    cases htarget : i.callTarget with
    | error => simp [Except.toOption]
    | ok r =>
      cases hcallee : (c.program.findMethod? r.2).bind c.program.methodAt? with
      | none => simp [Except.toOption, hcallee]
      | some callee =>
        have hlen :=
          (Instruction.callTarget_length hreads.1 hreads.2 hn htarget).2 callee hcallee
        simp [Except.toOption, hcallee, hlen]
  | branch =>
    have hop : i.opcode = .branch := hop
    rw [step, hop] at hstep
    obtain ⟨⟨_, _⟩, hcond, -⟩ := of_bind hstep
    have hcond := reading_ok hcond
    cases hn
    simp [Context.takes, hop, hcond, Except.toOption,
      Instruction.condition_unique hreads hcond]

/-- Whether code that comes next finds its operands above the lowest `k` entries, and pushes values
that take bytes only. -/
structure Ready (c : Context) (k : Nat) (code : Code) (s : State) : Prop where
  settled : Settled (s.stage 0 [])
  sized : Sized k (s.stage 0 [])
  names : ∀ i ∈ code, NamesBytes i
  depth : ∃ d, s.stack.length = k + d ∧
    (depth c.program c.method (code.filter fun i => i.opcode ≠ .jump) d).isSome = true

/-- An instruction leaves the pending entries alone. -/
theorem Ready.step (h : Ready c k (i :: rest) s) (hstep : step c index i s.mark = .ok s₁) :
    k ≤ s.stack.length - c.takes i ∧ Ready c k rest s₁ := by
  obtain ⟨d, hlen, hdepth⟩ := h.depth
  have hkey : k ≤ s.stack.length - c.takes i ∧ ∃ d, s₁.stack.length = k + d ∧
      (ScriptCompiler.depth c.program c.method (rest.filter fun i => i.opcode ≠ .jump) d).isSome =
        true := by
    by_cases hop : i.opcode = .jump
    · rw [filter_cons_of_neg (by simp [hop])] at hdepth
      have htakes : c.takes i = 0 := by simp [Context.takes, hop]
      rw [X86.step, hop] at hstep
      obtain ⟨_, _, -, -, hstep⟩ := of_bind₂ hstep
      cases hstep
      exact ⟨by omega, d, hlen, hdepth⟩
    · rw [filter_cons_of_pos (by simp [hop])] at hdepth
      obtain ⟨final, hfinal⟩ := isSome_iff_exists.1 hdepth
      obtain ⟨cmd, hc, hfinal⟩ := bind_eq_some_iff.1 hfinal
      obtain ⟨_, hd', hfinal⟩ := bind_eq_some_iff.1 hfinal
      obtain ⟨n, hn, _, rfl⟩ := Command.depth_eq_some_iff.1 hd'
      have htakes := takes_le hc hn hstep
      have hvoid : ∀ t, cmd = .convert t → t ≠ .void := by
        rintro t rfl rfl
        obtain ⟨hop, htype⟩ := i.of_command? hc
        rcases h.names i mem_cons_self .void htype with hsize | ⟨hcall, -⟩
        · exact hsize rfl
        · rw [hop] at hcall
          cases hcall
      have hfollows := (@step_handles False c i index False.elim s.mark False.elim).follows hc hn
      rw [hstep] at hfollows
      have hlength₁ : s₁.stack.length = s.stack.length - n + cmd.leaves := hfollows.2.2 hvoid
      refine ⟨by omega, d - n + cmd.leaves, by omega, ?_⟩
      exact isSome_iff_exists.2 ⟨final, hfinal⟩
  obtain ⟨_, hacts, -⟩ := @step_ok c i k index s.mark s₁ h.settled.apart hkey.1 hstep
  refine ⟨hkey.1, hacts.settled h.settled, ?_, ?_, hkey.2⟩
  · exact hacts.sized (h.names i mem_cons_self) h.settled h.sized
  · exact fun j hj => h.names j (mem_cons_of_mem i hj)

theorem Ready.walk (h : Ready c k (code ++ rest) s) (hwalk : walk c index code s = .ok s') :
    Ready c k rest s' := by
  induction code generalizing index s with
  | nil =>
    cases hwalk
    exact h
  | cons _ _ ih =>
    obtain ⟨_, hstep, hwalk⟩ := of_bind hwalk
    exact ih (h.step hstep).2 hwalk

variable {v : StackValue}

/-- Code above pending entries leaves them, or moves them to scratch slots. -/
theorem Ready.entry (h : Ready c k (code ++ rest) s) (hwalk : X86.walk c index code s = .ok s')
    {q : Nat} (hq : q < k) (hv : entryAt s.stack q = some v) :
    ∃ w, entryAt s'.stack q = some w ∧ Goes v w := by
  induction code generalizing index s v with
  | nil =>
    cases hwalk
    exact ⟨v, hv, .inl rfl⟩
  | cons i _ ih =>
    obtain ⟨s₁, hstep, hwalk⟩ := of_bind hwalk
    obtain ⟨hk, hready⟩ := h.step hstep
    obtain ⟨_, hacts, -⟩ := @step_ok c i k index s.mark s₁ h.settled.apart hk hstep
    obtain ⟨_, hu, hbecomes⟩ := hacts.entry hq hv
    obtain ⟨w, hw, hgoes⟩ := ih hready hwalk hu
    exact ⟨w, hw, hbecomes.goes.trans hgoes⟩

/-- An entry that is in the same place at both ends of code is there at every boundary. -/
theorem Ready.entry_between (h : Ready c k (code ++ rest) s)
    (hwalk : X86.walk c index code s = .ok s') {q : Nat} (hq : q < k)
    (hv : entryAt s.stack q = some v) (hv' : entryAt s'.stack q = some v) {a b : Code}
    {r : State} (hcode : code = a ++ b) (hr : X86.walk c index a s = .ok r) :
    entryAt r.stack q = some v := by
  subst hcode
  rw [append_assoc] at h
  obtain ⟨_, hu, hgoes⟩ := h.entry hr hq hv
  rw [walk_append, hr, ok_bind] at hwalk
  obtain ⟨w, hw, hgoes'⟩ := (h.walk hr).entry hwalk hq hu
  obtain rfl : v = w := some.inj (hv'.symm.trans hw)
  exact hgoes.eq_of_back hgoes' ▸ hu

end

/-! ## Paths through code -/

/-- The lines of an instruction: some that run straight on and keep the words of the lowest entries,
then at most a jump. -/
structure Block (e : Setting) (k : Nat) (s s₁ : State) (lines closing : List Line) : Prop where
  lines_eq : s₁.listing.lines = s.listing.lines ++ (lines ++ closing)
  straight : Straight lines
  closing : closing = [] ∨ ∃ mnemonic bridge, closing = [.jump mnemonic bridge]
  keeps : ∀ x y, x.reserved = 0 → Runs e lines x y → Keeps e k (s.stage 0 []) (s₁.stage 0 []) x y

section

variable {e : Setting} {c : Context} {i : Instruction} {index k : Nat} {s s₁ : State}
  {l : Listing} {lines closing : List Line} {low floor high n target : Nat} {x y : Core}

theorem step_block (hs : Settled (s.stage 0 [])) (hk : k ≤ s.stack.length - c.takes i)
    (hfits : s₁.frame.Fits e.size)
    (hparams : ∀ m ∈ c.program.methods, ∀ t ∈ m.parameterTypes, t.size ≠ 0)
    (hsized : i.opcode = .convert → NamesBytes i ∧ Sized k (s.stage 0 []))
    (hstep : step c index i s.mark = .ok s₁) : ∃ lines closing, Block e k s s₁ lines closing := by
  obtain ⟨lines, hacts, -, harranges⟩ := @step_ok c i k index s.mark s₁ hs.apart hk hstep
  obtain ⟨closing, hlines, hclosing, -⟩ := harranges.lines_eq
  refine ⟨lines, closing, hlines, hacts.straight, hclosing, fun _ _ hx hrun => ?_⟩
  exact hacts.keeps hs hfits hparams hsized hrun hx

/-- A path that comes to an instruction runs its lines, then goes on behind them or to where their
jump leads. -/
theorem Path.of_block (hb : Block e k s s₁ lines closing)
    (hfound : ∀ line, s.listing.size ≤ line → line < s₁.listing.size →
      l.lines[line]? = s₁.listing.lines[line]?)
    (hend : s₁.listing.size ≤ target) (hx : x.reserved = 0)
    (h : Path e l low floor high n s.listing.size x target y) :
    ∃ m landing z, Keeps e k (s.stage 0 []) (s₁.stage 0 []) x z ∧
      Path e l low floor high m landing z target y ∧ (landing = s₁.listing.size ∧ m ≤ n ∨
        m < n ∧ floor ≤ landing ∧ ∃ bridge : Nat, l.bridges[bridge]? = some (some landing)) := by
  have hsize : s₁.listing.size = s.listing.size + (lines.length + closing.length) := by
    rw [Listing.size, hb.lines_eq, length_append, length_append]
    rfl
  have hlines : ∀ j < lines.length + closing.length,
      l.lines[s.listing.size + j]? = (lines ++ closing)[j]? := by
    intro j hj
    rw [hfound _ (Nat.le_add_right _ _) (by omega), hb.lines_eq, Listing.size,
      getElem?_append_right (Nat.le_add_right _ _), Nat.add_sub_cancel_left]
  have hfirst : ∀ j < lines.length, l.lines[s.listing.size + j]? = lines[j]? := by
    intro j hj
    rw [hlines j (by omega), getElem?_append_left hj]
  obtain ⟨m, z, hm, hruns, hpath⟩ := h.straight hb.straight hfirst (by omega)
  have hkeeps := hb.keeps x z hx hruns
  rcases hb.closing with rfl | ⟨mnemonic, bridge, rfl⟩
  · have hlanding : s.listing.size + lines.length = s₁.listing.size := hsize.symm
    exact ⟨m, _, z, hkeeps, hpath, .inl ⟨hlanding, hm⟩⟩
  · rw [length_singleton] at hsize hlines
    have hjump : l.lines[s.listing.size + lines.length]? = some (.jump mnemonic bridge) := by
      rw [hlines lines.length (Nat.lt_succ_self _), getElem?_append_right (Nat.le_refl _),
        Nat.sub_self]
      rfl
    obtain ⟨m', landing, _, hpath, hlanding⟩ := hpath.of_jump hjump (by omega)
    refine ⟨m', landing, z, hkeeps, hpath, ?_⟩
    rcases hlanding with rfl | ⟨hbridge, hfloor⟩
    · exact .inl ⟨by omega, by omega⟩
    · exact .inr ⟨by omega, hfloor, bridge, hbridge⟩

end

/-- The lines of code that finds its operands above pending entries, in a listing whose jumps lead
to boundaries of the code if they lead among these lines. -/
structure Region (e : Setting) (c : Context) (l : Listing) (k index : Nat)
    (code rest : Code) (r r' : State) : Prop where
  ready : Ready c k (code ++ rest) r
  walk : walk c index code r = .ok r'
  fits : r'.frame.Fits e.size
  parameters : ∀ m ∈ c.program.methods, ∀ t ∈ m.parameterTypes, t.size ≠ 0
  lines : ∀ line, r.listing.size ≤ line → line < r'.listing.size →
    l.lines[line]? = r'.listing.lines[line]?
  landing : ∀ bridge line : Nat, l.bridges[bridge]? = some (some line) → r.listing.size ≤ line →
    line ≤ r'.listing.size →
    ∃ a b s, code = a ++ b ∧ X86.walk c index a r = .ok s ∧ s.listing.size = line

namespace Region

variable {e : Setting} {c : Context} {l : Listing} {k index : Nat}
  {code rest : Code} {r r' : State}

/-- From a boundary of the code an instruction leads to the next one. -/
theorem block (h : Region e c l k index code rest r r') {a b : Code} {i : Instruction}
    {s : State} (hcode : code = a ++ i :: b) (hs : X86.walk c index a r = .ok s) :
    ∃ s₁ lines closing, X86.walk c index (a ++ [i]) r = .ok s₁ ∧ Block e k s s₁ lines closing ∧
      s₁.listing.size ≤ r'.listing.size ∧ ∀ line, r.listing.size ≤ line → line < s₁.listing.size →
        l.lines[line]? = s₁.listing.lines[line]? := by
  subst hcode
  have hready := h.ready
  rw [append_assoc] at hready
  have hready := hready.walk hs
  have hrest := h.walk
  rw [walk_append, hs, ok_bind] at hrest
  obtain ⟨s₁, hstep, hrest⟩ := of_bind hrest
  obtain ⟨hk, hready₁⟩ := hready.step hstep
  have hapart := hready₁.settled.apart
  obtain ⟨-, hout, htemps⟩ := walk_extends hapart hrest
  have hsize := walk_size_le hapart hrest
  have hmem : i ∈ i :: (b ++ rest) := mem_cons_self
  obtain ⟨lines, closing, hblock⟩ := step_block (e := e) hready.settled hk
    (h.fits.of_le hout htemps) h.parameters (fun _ => ⟨hready.names i hmem, hready.sized⟩) hstep
  refine ⟨s₁, lines, closing, ?_, hblock, hsize, fun line hlow hline => ?_⟩
  · rw [walk_append, hs, ok_bind, X86.walk, hstep]
    rfl
  · rw [h.lines line hlow (Nat.lt_of_lt_of_le hline hsize), walk_getElem? hapart hrest hline]

/-- On every path through the lines of the code, an entry that is in the same place at both ends
keeps its word. -/
theorem keeps (h : Region e c l k index code rest r r') {q : Nat} {v : StackValue} (hq : q < k)
    (hv : entryAt r.stack q = some v) (hv' : entryAt r'.stack q = some v) (n : Nat)
    {a b : Code} {s : State} {x y : Core} (hcode : code = a ++ b)
    (hs : X86.walk c index a r = .ok s) (hx : x.reserved = 0)
    (hpath : Path e l r.listing.size r.listing.size r'.listing.size n s.listing.size x
      r'.listing.size y) : y.reserved = 0 ∧ v.word e r.frame y.cpu = v.word e r.frame x.cpu := by
  -- a path that does not jump comes closer to the end of the code, one that jumps gets shorter
  induction n using Nat.strongRecOn generalizing a b s x with
  | ind _ ih =>
    induction b generalizing a s x with
    | nil =>
      rw [append_nil] at hcode
      subst hcode
      obtain rfl := Except.ok.inj (h.walk.symm.trans hs)
      obtain ⟨-, rfl⟩ := hpath.eq_of_le (Nat.le_refl _)
      exact ⟨hx, rfl⟩
    | cons i b ihb =>
      obtain ⟨s₁, _, _, hs₁, hblock, hsize, hfound⟩ := h.block hcode hs
      have hcode₁ : code = (a ++ [i]) ++ b := by rw [hcode, append_assoc]; rfl
      have hentry := h.ready.entry_between h.walk hq hv hv' hcode hs
      have hentry₁ := h.ready.entry_between h.walk hq hv hv' hcode₁ hs₁
      have hout := (walk_extends h.ready.settled.apart hs).2.1
      have houtline₁ := (walk_extends h.ready.settled.apart hs₁).2.1
      have hlow : r.listing.size ≤ s.listing.size := walk_size_le h.ready.settled.apart hs
      obtain ⟨m, landing, z, hkeeps, hrest, hlanding⟩ := hpath.of_block hblock
        (fun line hline => hfound line (Nat.le_trans hlow hline)) hsize hx
      have hword : v.word e r.frame z.cpu = v.word e r.frame x.cpu := by
        calc v.word e r.frame z.cpu = v.word e s₁.frame z.cpu := (StackValue.word_congr houtline₁).symm
          _ = v.word e s.frame x.cpu := hkeeps.words q hq v v hentry hentry₁
          _ = v.word e r.frame x.cpu := StackValue.word_congr hout
      have hdone : y.reserved = 0 ∧ v.word e r.frame y.cpu = v.word e r.frame z.cpu := by
        rcases hlanding with ⟨rfl, hm⟩ | ⟨hm, hfloor, bridge, hbridge⟩
        · rcases Nat.lt_or_eq_of_le hm with hm | rfl
          · exact ih m hm hcode₁ hs₁ hkeeps.reserved hrest
          · exact ihb hcode₁ hs₁ hkeeps.reserved hrest
        · have hend := walk_size_le h.ready.settled.apart h.walk
          have hhigh := (hrest.bounds hend (Nat.le_refl _)).2
          obtain ⟨_, _, _, hcode', hs', rfl⟩ := h.landing bridge landing hbridge hfloor hhigh
          exact ih m hm hcode' hs' hkeeps.reserved hrest
      exact ⟨hdone.1, hdone.2.trans hword⟩

end Region

end ScriptCompiler.X86
