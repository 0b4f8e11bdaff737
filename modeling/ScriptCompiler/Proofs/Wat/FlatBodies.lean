import ScriptCompiler.Proofs.Wat.Lines

/-!
# Bodies written down flat

A body is a tree. In its text `if`, `else` and `end` stand on lines of their own; these flat lines
are the tokens of a body. How far a line is moved in can be said about the flat lines alone: by the
number of `if`s with an arm around it (`enclosing`, `Line.renderAll_eq`).
-/

set_option autoImplicit false

namespace ScriptCompiler.Wat

open List

/-! ## Instructions in order -/

mutual

/-- The instructions of a line, in order. -/
def Line.ops : Line Op → List Op
  | .op a => [a]
  | .ifThen body => Line.allOps body
  | .ifElse body alt => Line.allOps body ++ Line.allOps alt

/-- The instructions of lines, in order. -/
def Line.allOps : Body → List Op
  | [] => []
  | line :: rest => line.ops ++ Line.allOps rest

end

theorem Line.allOps_append (a b : Body) :
    Line.allOps (a ++ b) = Line.allOps a ++ Line.allOps b := by
  induction a with
  | nil => rfl
  | cons _ _ ih => rw [cons_append, allOps, allOps, ih, append_assoc]

theorem Line.allOps_map_op (ops : List Op) : Line.allOps (ops.map .op) = ops := by
  induction ops with
  | nil => rfl
  | cons _ _ ih =>
    rw [map_cons, allOps, ih]
    rfl

/-- The instructions of an open conditional. -/
def OpenBranch.ops (b : OpenBranch) : List Op :=
  Line.allOps b.body ++ Line.allOps (b.alternative.getD [])

theorem OpenBranch.ops_addAll (b : OpenBranch) (lines : Body) :
    (b.addAll lines).ops = b.ops ++ Line.allOps lines := by
  obtain ⟨_, alt⟩ := b
  cases alt with
  | none => simp [ops, addAll, Line.allOps_append, Line.allOps]
  | some => simp [ops, addAll, Line.allOps_append]

theorem OpenBranch.ops_close (b : OpenBranch) : b.close.ops = b.ops := by
  obtain ⟨_, alt⟩ := b
  cases alt with
  | none => simp [ops, close, Line.ops, Line.allOps]
  | some => simp [ops, close, Line.ops]

namespace State

/-- The instructions so far: those of the body, then those of the open conditionals from the
outermost on. -/
def ops (s : State) : List Op := Line.allOps s.body ++ s.branches.reverse.flatMap OpenBranch.ops

variable (s : State) (lines : Body)

theorem ops_addAll : (s.addAll lines).ops = s.ops ++ Line.allOps lines := by
  unfold addAll ops
  cases s.branches with
  | nil => simp [Line.allOps_append]
  | cons => simp [OpenBranch.ops_addAll]

theorem ops_advance (σ : Types) (S : List (ValueType × Nat)) :
    (s.advance lines σ S).ops = s.ops ++ Line.allOps lines :=
  s.ops_addAll lines

theorem ops_add (line : Line Op) : (s.add line).ops = s.ops ++ line.ops := by
  have h := s.ops_advance [line] s.types s.scratch
  have hadd := s.add_advance [] s.types s.scratch line
  rw [← s.eq_advance, nil_append] at hadd
  rw [hadd, h]
  simp [Line.allOps]

theorem ops_opened (b : OpenBranch) : (s.opened b).ops = s.ops ++ b.ops := by simp [ops, opened]

end State

/-! ## Lines in order -/

/-- A line of a body that is written down flat. -/
inductive Token where
  | op (op : Op)
  | opening
  | divider
  | closing
  deriving DecidableEq, Repr

/-- The text of a line. -/
def Token.text : Token → String
  | op o => o.text
  | opening => "if"
  | divider => "else"
  | closing => "end"

mutual

/-- A line with the lines of its parts. -/
def Line.tokens : Line Op → List Token
  | .op a => [.op a]
  | .ifThen body => .opening :: (Line.allTokens body ++ [.closing])
  | .ifElse body alt =>
    .opening :: (Line.allTokens body ++ .divider :: (Line.allTokens alt ++ [.closing]))

/-- Lines with the lines of their parts. -/
def Line.allTokens : Body → List Token
  | [] => []
  | line :: rest => line.tokens ++ Line.allTokens rest

end

theorem Line.allTokens_append (a b : Body) :
    Line.allTokens (a ++ b) = Line.allTokens a ++ Line.allTokens b := by
  induction a with
  | nil => rfl
  | cons _ _ ih => rw [cons_append, Line.allTokens, Line.allTokens, ih, append_assoc]

theorem Line.allTokens_singleton (line : Line Op) : Line.allTokens [line] = line.tokens :=
  append_nil _

theorem Line.allTokens_ops (ops : List Op) : Line.allTokens (ops.map .op) = ops.map .op := by
  induction ops with
  | nil => rfl
  | cons _ _ ih => rw [map_cons, map_cons, Line.allTokens, ih]; rfl

/-! ## Arms around a line -/

/-- The number of `if`s open in front of these lines that have no arm around line `k`: an `end` on
the way there closes one, and an `else` or `end` is outside of the arms that it parts or closes. -/
def exits : List Token → Nat → Nat
  | [], _ | .op _ :: _, 0 | .opening :: _, 0 => 0
  | .divider :: _, 0 | .closing :: _, 0 => 1
  | .op _ :: rest, k + 1 | .divider :: rest, k + 1 => exits rest k
  | .opening :: rest, k + 1 => exits rest k - 1
  | .closing :: rest, k + 1 => exits rest k + 1

/-- The number of `if`s with an arm around line `k`. -/
def enclosing : List Token → Nat → Nat
  | t :: rest, k + 1 => (if t = .opening ∧ exits rest k = 0 then 1 else 0) + enclosing rest k
  | _, _ => 0

/-- Lines as they are written at a depth: each is moved in by the arms around it. -/
def written (depth : Nat) (tokens : List Token) : List String :=
  tokens.mapIdx fun k t => Page.margin (depth + enclosing tokens k) ++ t.text

section

variable {tokens rest : List Token} {k : Nat}

theorem exits_append (h : k < tokens.length) : exits (tokens ++ rest) k = exits tokens k := by
  induction tokens generalizing k with
  | nil => cases h
  | cons t _ ih =>
    cases k with
    | zero => cases t <;> rfl
    | succ =>
      have hrest := ih (Nat.lt_of_succ_lt_succ h)
      cases t <;> simp only [cons_append, exits, hrest]

/-- The arms around a line depend on the lines up to it. -/
theorem enclosing_append (h : k < tokens.length) :
    enclosing (tokens ++ rest) k = enclosing tokens k := by
  induction tokens generalizing k with
  | nil => cases h
  | cons _ tokens ih =>
    cases k with
    | zero => rfl
    | succ k =>
      have hk : k < tokens.length := Nat.lt_of_succ_lt_succ h
      rw [cons_append, enclosing, enclosing, exits_append hk, ih hk]

end

variable (body : Body)

theorem Line.length_ifThen :
    (Line.ifThen body).tokens.length = (Line.allTokens body).length + 1 + 1 := by
  simp only [Line.tokens, length_cons, length_append, length_nil]

theorem Line.length_ifElse (alt : Body) :
    (Line.ifElse body alt).tokens.length =
      (Line.allTokens body).length + ((Line.allTokens alt).length + 1 + 1) + 1 := by
  simp only [Line.tokens, length_cons, length_append, length_nil]

theorem Line.behind_ifThen (k : Nat) :
    (Line.ifThen body).tokens.length + k = (Line.allTokens body).length + (k + 1) + 1 := by
  rw [length_ifThen]
  omega

theorem Line.behind_ifElse (alt : Body) (k : Nat) :
    (Line.ifElse body alt).tokens.length + k =
      (Line.allTokens body).length + ((Line.allTokens alt).length + (k + 1) + 1) + 1 := by
  rw [length_ifElse]
  omega

mutual

/-- Behind a line the `if`s in front of it are as open as they were, and its own are closed. -/
theorem Line.behind_tokens (k : Nat) : ∀ (line : Line Op) (rest : List Token),
    exits (line.tokens ++ rest) (line.tokens.length + k) = exits rest k ∧
      enclosing (line.tokens ++ rest) (line.tokens.length + k) = enclosing rest k
  | .op a, rest => by
    rw [Nat.add_comm]
    exact ⟨rfl, Nat.zero_add _⟩
  | .ifThen body, rest => by
    have hbody := Line.behind_allTokens (k + 1) body (.closing :: rest)
    rw [Line.behind_ifThen]
    simp [Line.tokens, exits, enclosing, hbody]
  | .ifElse body alt, rest => by
    have halt := Line.behind_allTokens (k + 1) alt (.closing :: rest)
    have hbody := Line.behind_allTokens ((Line.allTokens alt).length + (k + 1) + 1) body
      (.divider :: (Line.allTokens alt ++ .closing :: rest))
    rw [Line.behind_ifElse]
    simp [Line.tokens, exits, enclosing, hbody, halt]

theorem Line.behind_allTokens (k : Nat) : ∀ (lines : Body) (rest : List Token),
    exits (Line.allTokens lines ++ rest) ((Line.allTokens lines).length + k) = exits rest k ∧
      enclosing (Line.allTokens lines ++ rest) ((Line.allTokens lines).length + k) =
        enclosing rest k
  | [], rest => by
    rw [Line.allTokens, length_nil, Nat.zero_add, nil_append]
    exact ⟨rfl, rfl⟩
  | line :: lines, rest => by
    have hline := Line.behind_tokens ((Line.allTokens lines).length + k) line
      (Line.allTokens lines ++ rest)
    rw [Line.allTokens, length_append, Nat.add_assoc, append_assoc, hline.1, hline.2]
    exact Line.behind_allTokens k lines rest

end

theorem Line.exits_closing {lines : Body} {k : Nat}
    (h : ∀ k < (allTokens lines).length, exits (allTokens lines) k = 0)
    (hk : k < (allTokens lines).length + 1) : exits (allTokens lines ++ [.closing]) k - 1 = 0 := by
  rcases Nat.lt_or_ge k (allTokens lines).length with hin | _
  · rw [exits_append hin, h k hin]
  · obtain rfl : k = (allTokens lines).length := by omega
    exact congrArg (· - 1) (behind_allTokens 0 lines [.closing]).1

mutual

/-- A line is in arms of all the `if`s that are open in front of it. -/
theorem Line.exits_within : ∀ (line : Line Op) (k : Nat), k < line.tokens.length →
    exits line.tokens k = 0
  | .op a, k, hk => by cases k <;> rfl
  | .ifThen body, k, hk => by
    rw [Line.length_ifThen] at hk
    cases k with
    | zero => rfl
    | succ =>
      simp only [Line.tokens, exits]
      exact Line.exits_closing (Line.exits_allWithin body) (Nat.lt_of_succ_lt_succ hk)
  | .ifElse body alt, k, hk => by
    rw [Line.length_ifElse] at hk
    cases k with
    | zero => rfl
    | succ k =>
      simp only [Line.tokens, exits]
      rcases Nat.lt_or_ge k (Line.allTokens body).length with hin | hout
      · rw [exits_append hin, Line.exits_allWithin body k hin]
      · obtain ⟨j, rfl⟩ := Nat.exists_eq_add_of_le hout
        rw [(Line.behind_allTokens ..).1]
        cases j with
        | zero => rfl
        | succ =>
          rw [exits]
          refine Line.exits_closing (Line.exits_allWithin alt) ?_
          omega

theorem Line.exits_allWithin : ∀ (lines : Body) (k : Nat),
    k < (Line.allTokens lines).length → exits (Line.allTokens lines) k = 0
  | [], k, hk => by cases hk
  | line :: lines, k, hk => by
    rw [Line.allTokens, length_append] at hk
    rw [Line.allTokens]
    rcases Nat.lt_or_ge k line.tokens.length with hin | hout
    · rw [exits_append hin, Line.exits_within line k hin]
    · obtain ⟨j, rfl⟩ := Nat.exists_eq_add_of_le hout
      rw [(Line.behind_tokens ..).1, Line.exits_allWithin lines j (by omega)]

end

/-- Lines right behind an `if` are in one more arm than without it. -/
theorem Line.enclosing_arm (lines : Body) (rest : List Token) {k : Nat}
    (hk : k < (Line.allTokens lines).length) :
    enclosing (.opening :: (Line.allTokens lines ++ rest)) (k + 1) =
      enclosing (Line.allTokens lines) k + 1 := by
  rw [enclosing, exits_append hk, exits_allWithin lines k hk, enclosing_append hk,
    if_pos ⟨rfl, rfl⟩, Nat.add_comm]

/-! ## Written lines -/

variable (depth : Nat)

theorem written_append {tokens rest : List Token}
    (h : ∀ k, enclosing (tokens ++ rest) (tokens.length + k) = enclosing rest k) :
    written depth (tokens ++ rest) = written depth tokens ++ written depth rest := by
  unfold written
  rw [mapIdx_append]
  refine congr (congrArg _ (mapIdx_eq_mapIdx_iff.2 fun k hk => ?_))
    (mapIdx_eq_mapIdx_iff.2 fun k hk => ?_)
  · rw [enclosing_append hk]
  · rw [Nat.add_comm k, h]

/-- Lines as they are written behind an `if` at a depth. -/
def writtenBehind (depth : Nat) (tokens : List Token) : List String :=
  tokens.mapIdx fun k t => Page.margin (depth + enclosing (.opening :: tokens) (k + 1)) ++ t.text

theorem written_opening (tokens : List Token) : written depth (.opening :: tokens) =
      (Page.margin depth ++ "if") :: writtenBehind depth tokens := by
  rw [written, mapIdx_cons]
  rfl

/-- The lines of an arm are written one step further in. -/
theorem writtenBehind_append (lines : Body) (rest : List Token) :
    writtenBehind depth (Line.allTokens lines ++ rest) =
      written (depth + 1) (Line.allTokens lines) ++ writtenBehind depth rest := by
  unfold written writtenBehind
  rw [mapIdx_append]
  refine congr (congrArg _ (mapIdx_eq_mapIdx_iff.2 fun k hk => ?_))
    (mapIdx_eq_mapIdx_iff.2 fun k hk => ?_)
  · rw [Line.enclosing_arm lines rest hk, Nat.add_right_comm, Nat.add_assoc]
  · rw [Nat.add_comm k, enclosing, (Line.behind_allTokens ..).1, (Line.behind_allTokens ..).2,
      enclosing]

theorem writtenBehind_divider (rest : List Token) : writtenBehind depth (.divider :: rest) =
      (Page.margin depth ++ "else") :: writtenBehind depth rest := by
  unfold writtenBehind
  rw [mapIdx_cons]
  refine congrArg _ (mapIdx_eq_mapIdx_iff.2 fun _ _ => ?_)
  simp [enclosing, exits]

theorem writtenBehind_closing : writtenBehind depth [.closing] = [Page.margin depth ++ "end"] := rfl

mutual

theorem Line.render_eq : ∀ (line : Line Op) (page : Page), line.render Op.text page =
      { page with lines := page.lines ++ written page.depth line.tokens }
  | .op a, page => rfl
  | .ifThen body, page => by
    simp only [Line.render, Line.renderAll_eq body, Page.line, Page.indent, Page.dedent,
      Line.tokens, written_opening, writtenBehind_append, writtenBehind_closing, Nat.add_sub_cancel,
      append_assoc, cons_append, nil_append]
  | .ifElse body alt, page => by
    simp only [Line.render, Line.renderAll_eq body, Line.renderAll_eq alt, Page.line,
      Page.indent, Page.dedent, Line.tokens, written_opening, writtenBehind_append,
      writtenBehind_divider, writtenBehind_closing, Nat.add_sub_cancel, append_assoc,
      cons_append, nil_append]

theorem Line.renderAll_eq : ∀ (lines : Body) (page : Page),
    Line.renderAll Op.text lines page =
      { page with lines := page.lines ++ written page.depth (Line.allTokens lines) }
  | [], page => by simp [Line.renderAll, Line.allTokens, written]
  | line :: lines, page => by
    rw [Line.renderAll, Line.render_eq line, Line.renderAll_eq lines, Line.allTokens,
      written_append _ fun k => (Line.behind_tokens k line _).2]
    simp only [append_assoc]

end

end ScriptCompiler.Wat
