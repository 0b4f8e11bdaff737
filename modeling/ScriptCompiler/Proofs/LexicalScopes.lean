import ScriptCompiler.Scope

/-!
# Scopes are stacks of name maps

Lexical scoping as a stack with one map of names for each open scope (`NameStack`): a declaration
goes to the top map and is refused if the name is there already, and a name means what the innermost
map with a binding says.

A `Scope` keeps one table and a trail of hidden bindings in place of the stack. The table holds the
first binding of a name, and the trail each other one with the depth of the binding that hides it
(`Scope.Reflects`). Every operation keeps this up, so both give the same answers.
-/

set_option autoImplicit false

namespace ScriptCompiler

open List Option

/-! ## Stacks of name maps -/

/-- What the names of one scope mean. -/
abbrev NameMap := String → Option Slot

namespace NameMap

/-- The map of a scope in which nothing is bound. -/
def empty : NameMap := fun _ => none

/-- The map with one name bound anew. -/
def insert (m : NameMap) (name : String) (slot : Slot) : NameMap :=
  fun other => if other = name then some slot else m other

/-- The map of parameters: of those with one name the last one counts. -/
def ofParameters (params : List (String × Primitive)) : NameMap := fun name =>
  (params.zipIdx.reverse.find? fun q => q.1.1 == name).map fun q => .parameter q.2 q.1.2

end NameMap

/-- The maps of the open scopes; there is always one. -/
structure NameStack where
  top : NameMap
  below : List NameMap := []

namespace NameStack

/-- The stack of a body with the given parameters. -/
def ofParameters (params : List (String × Primitive)) : NameStack :=
  { top := .ofParameters params }

/-- Opens a scope. -/
def push (t : NameStack) : NameStack := ⟨.empty, t.top :: t.below⟩

/-- Closes a scope; the last map is replaced by an empty one. -/
def pop (t : NameStack) : NameStack :=
  match t.below with
  | m :: rest => ⟨m, rest⟩
  | [] => ⟨.empty, []⟩

/-- Binds a name in the top map, unless it is bound there. -/
def declare (t : NameStack) (name : String) (slot : Slot) (span : Span) :
    Evaluating NameStack :=
  if (t.top name).isSome then .error (.duplicateLocal name span)
  else .ok { t with top := t.top.insert name slot }

/-- What a name means in the innermost map that binds it. -/
def lookup? (t : NameStack) (name : String) : Option Slot :=
  (t.top :: t.below).findSome? fun m => m name

end NameStack

/-! ## Operations -/

/-- What happens to the scopes of a body. -/
inductive ScopeEvent where
  | push
  | pop
  | declare (name : String) (slot : Slot) (span : Span)
  deriving DecidableEq, Repr

/-- The scope after an event, and the error if a declaration was refused. -/
def Scope.handle (s : Scope) : ScopeEvent → Scope × Option EvaluationError
  | .push => (s.push, none)
  | .pop => (s.pop, none)
  | .declare name slot span =>
    match s.declare name slot span with
    | .ok s' => (s', none)
    | .error e => (s, some e)

/-- The stack after an event, and the error if a declaration was refused. -/
def NameStack.handle (t : NameStack) : ScopeEvent → NameStack × Option EvaluationError
  | .push => (t.push, none)
  | .pop => (t.pop, none)
  | .declare name slot span =>
    match t.declare name slot span with
    | .ok t' => (t', none)
    | .error e => (t, some e)

/-- What events lead to, and the answers to them. -/
def handleAll {σ : Type} (handle : σ → ScopeEvent → σ × Option EvaluationError) :
    σ → List ScopeEvent → σ × List (Option EvaluationError)
  | s, [] => (s, [])
  | s, event :: rest =>
    let (s, answer) := handle s event
    let (s, answers) := handleAll handle s rest
    (s, answer :: answers)

namespace Scope

/-! ## Tables -/

section

variable {bindings : List (String × Binding)} {name other : String} {b : Binding}

theorem find?_bind_self : find? (bind bindings name b) name = some b := by simp [find?, bind]

theorem find?_bind_of_ne (h : other ≠ name) :
    find? (bind bindings name b) other = find? bindings other := by
  have hname : (name == other) = false := by simpa using h.symm
  have hsame : (fun v : String × Binding => decide ((v.1 != name) = true ∧ (v.1 == other) = true)) =
      fun v => v.1 == other := by
    funext v
    by_cases hv : v.1 = other
    · simp [hv, h]
    · simp [hv]
  unfold find? bind
  rw [find?_cons, hname, List.find?_filter, hsame]

theorem nodup_bind (h : (bindings.map Prod.fst).Nodup) :
    ((bind bindings name b).map Prod.fst).Nodup := by
  rw [bind, map_cons, nodup_cons]
  refine ⟨by simp, h.sublist ?_⟩
  exact filter_sublist.map Prod.fst

/-- A name that is dropped from a table is not found any more: it stands there only once. -/
theorem find?_filter (h : (bindings.map Prod.fst).Nodup) (keep : Binding → Bool) (name : String) :
    find? (bindings.filter fun v => keep v.2) name = (find? bindings name).filter keep := by
  induction bindings with
  | nil => rfl
  | cons v rest ih =>
    obtain ⟨hfresh, hrest⟩ := nodup_cons.1 h
    have hrest := ih hrest
    by_cases hv : v.1 = name
    · have hnone : find? rest name = none := by
        rw [find?, map_eq_none_iff, List.find?_eq_none]
        intro _ hw hsame
        rw [beq_iff_eq] at hsame
        exact hfresh (hv ▸ hsame ▸ List.mem_map_of_mem hw)
      have hfound : find? (v :: rest) name = some v.2 := by simp [find?, hv]
      rw [hfound]
      cases hkeep : keep v.2 with
      | true => simp [find?, hkeep, hv, Option.filter]
      | false =>
        rw [filter_cons_of_neg (by simp [hkeep]), hrest, hnone]
        simp [Option.filter, hkeep]
    · have hskip : ∀ more, find? (v :: more) name = find? more name := by
        intro more
        simp [find?, hv]
      rw [hskip, ← hrest, filter_cons]
      split
      · rw [hskip]
      · rfl

end

/-! ## Taking back what was hidden -/

section

variable {trail : List Hidden} {bindings : List (String × Binding)} {name : String}

/-- The table after binding what was hidden, the first one first. -/
def rebind (bindings : List (String × Binding)) (hidden : List Hidden) : List (String × Binding) :=
  hidden.foldl (fun bindings h => bind bindings h.name h.binding) bindings

/-- A trail that goes down in depth is split by the depth. -/
theorem restore_eq (h : trail.Pairwise fun a b => b.depth ≤ a.depth) (depth : Nat)
    (bindings : List (String × Binding)) : restore depth trail bindings =
      (trail.filter fun h => h.depth < depth,
        rebind bindings (trail.filter fun h => depth ≤ h.depth)) := by
  induction trail generalizing bindings with
  | nil => rfl
  | cons hidden rest ih =>
    obtain ⟨hfirst, hrest⟩ := pairwise_cons.1 h
    unfold restore
    split
    · rename_i hdepth
      have hbelow : ∀ a ∈ hidden :: rest, a.depth < depth := by
        intro a ha
        rcases mem_cons.1 ha with rfl | ha
        · exact hdepth
        · exact Nat.lt_of_le_of_lt (hfirst a ha) hdepth
      have hall : (hidden :: rest).filter (fun h => h.depth < depth) = hidden :: rest := by
        rw [filter_eq_self]
        simpa using hbelow
      have hnone : (hidden :: rest).filter (fun h => depth ≤ h.depth) = [] := by
        rw [filter_eq_nil_iff]
        simpa using hbelow
      rw [hall, hnone]
      rfl
    · rename_i hdepth
      rw [ih hrest, filter_cons_of_neg (by simpa using hdepth),
        filter_cons_of_pos (by simpa using hdepth)]
      rfl

theorem nodup_rebind (h : (bindings.map Prod.fst).Nodup) (hidden : List Hidden) :
    ((rebind bindings hidden).map Prod.fst).Nodup := by
  induction hidden generalizing bindings with
  | nil => exact h
  | cons _ _ ih => exact ih (nodup_bind h)

/-- Only what was hidden under a name matters for the name, and of that the last one. -/
theorem find?_rebind (hidden : List Hidden) : find? (rebind bindings hidden) name =
      ((hidden.filter (·.name == name)).getLast?.map (·.binding)).or (find? bindings name) := by
  induction hidden generalizing bindings with
  | nil => rfl
  | cons a rest ih =>
    have hrest := @ih (bind bindings a.name a.binding)
    show find? (rebind (bind bindings a.name a.binding) rest) name = _
    rw [hrest]
    by_cases ha : a.name = name
    · rw [filter_cons_of_pos (by simpa using ha), ha, find?_bind_self]
      cases hlast : (rest.filter (·.name == name)).getLast? with
      | none =>
        rw [getLast?_eq_none_iff.1 hlast]
        rfl
      | some => simp [getLast?_cons, hlast]
    · rw [filter_cons_of_neg (by simpa using ha), find?_bind_of_ne (Ne.symm ha)]

end

end Scope

/-! ## What a stack says about one name -/

namespace NameStack

/-- The bindings of a name in maps, the innermost one first, with their depths. -/
def bindingsOf (name : String) : List NameMap → List Scope.Binding
  | [] => []
  | m :: rest => ((m name).map fun slot => ⟨slot, rest.length⟩).toList ++ bindingsOf name rest

section

variable {name : String} {m : NameMap} {rest : List NameMap}

theorem bindingsOf_cons_none (h : m name = none) :
    bindingsOf name (m :: rest) = bindingsOf name rest := by
  simp [bindingsOf, h]

theorem bindingsOf_cons_some {slot : Slot} (h : m name = some slot) :
    bindingsOf name (m :: rest) = ⟨slot, rest.length⟩ :: bindingsOf name rest := by
  simp [bindingsOf, h]

theorem depth_lt_of_mem_bindingsOf {maps : List NameMap} :
    ∀ b ∈ bindingsOf name maps, b.depth < maps.length := by
  induction maps with
  | nil => simp [bindingsOf]
  | cons _ _ ih =>
    intro b hb
    rw [length_cons]
    rcases mem_append.1 hb with hb | hb
    · obtain ⟨_, -, rfl⟩ := map_eq_some_iff.1 (mem_toList.1 hb)
      exact Nat.lt_succ_self _
    · exact Nat.lt_succ_of_lt (ih b hb)

theorem findSome?_eq_head? (maps : List NameMap) :
    (maps.findSome? fun m => m name) = (bindingsOf name maps).head?.map (·.slot) := by
  induction maps with
  | nil => rfl
  | cons m _ ih =>
    cases hm : m name with
    | none => rw [bindingsOf_cons_none hm, findSome?_cons, hm, ih]
    | some => rw [bindingsOf_cons_some hm, findSome?_cons, hm]; rfl

end

end NameStack

namespace Scope

/-- The trail that the bindings of a name leave: each is hidden by the one before it. -/
def hiddenBy (name : String) : List Binding → List Hidden
  | b :: b' :: rest => ⟨b.depth, name, b'⟩ :: hiddenBy name (b' :: rest)
  | _ => []

theorem exists_depth_of_mem_hiddenBy {name : String} {bs : List Binding} {h : Hidden}
    (hh : h ∈ hiddenBy name bs) : ∃ b ∈ bs, h.depth = b.depth := by
  induction bs with
  | nil => cases hh
  | cons b rest ih =>
    cases rest with
    | nil => cases hh
    | cons =>
      rcases mem_cons.1 hh with rfl | hh
      · exact ⟨b, by simp, rfl⟩
      · obtain ⟨a, ha, hdepth⟩ := ih hh
        exact ⟨a, mem_cons_of_mem _ ha, hdepth⟩

/-- Whether a scope holds what a stack of maps says: the table has the innermost binding of each
name, and the trail the other ones. -/
structure Reflects (s : Scope) (maps : List NameMap) : Prop where
  depth : maps.length = s.depth + 1
  distinct : (s.bindings.map Prod.fst).Nodup
  visible : ∀ name, find? s.bindings name = (NameStack.bindingsOf name maps).head?
  hidden : ∀ name, s.trail.filter (·.name == name) = hiddenBy name (NameStack.bindingsOf name maps)
  ordered : s.trail.Pairwise fun a b => b.depth ≤ a.depth

namespace Reflects

open NameStack

variable {s : Scope} {m : NameMap} {maps : List NameMap}

theorem depth_lt (h : s.Reflects maps) {hidden : Hidden} (hmem : hidden ∈ s.trail) :
    hidden.depth < maps.length := by
  have hown : hidden ∈ hiddenBy hidden.name (bindingsOf hidden.name maps) := by
    rw [← h.hidden hidden.name]
    exact mem_filter.2 ⟨hmem, by simp⟩
  obtain ⟨b, hb, hdepth⟩ := exists_depth_of_mem_hiddenBy hown
  rw [hdepth]
  exact depth_lt_of_mem_bindingsOf b hb

theorem lookup?_eq (h : s.Reflects maps) (name : String) :
    s.lookup? name = maps.findSome? fun m => m name := by
  rw [findSome?_eq_head?, ← h.visible]
  rfl

theorem push (h : s.Reflects maps) : s.push.Reflects (.empty :: maps) := by
  have hsame : ∀ name, bindingsOf name (.empty :: maps) = bindingsOf name maps :=
    fun _ => bindingsOf_cons_none rfl
  refine ⟨?_, h.distinct, ?_, ?_, h.ordered⟩
  · rw [length_cons, h.depth]
    rfl
  · intro name
    rw [hsame]
    exact h.visible name
  · intro name
    rw [hsame]
    exact h.hidden name

/-! ### Declarations -/

section

variable (h : s.Reflects (m :: maps))
include h

/-- A declaration is refused if the top map has the name: that binding is at the depth of the scope. -/
theorem declare_error {name : String} (hname : (m name).isSome = true) (slot : Slot) (span : Span) :
    s.declare name slot span = .error (.duplicateLocal name span) := by
  obtain ⟨bound, hbound⟩ := isSome_iff_exists.1 hname
  have hfound : find? s.bindings name = some ⟨bound, s.depth⟩ := by
    rw [h.visible, bindingsOf_cons_some hbound, Nat.succ.inj h.depth]
    rfl
  simp only [Scope.declare, hfound, if_true]

/-- A name that is bound goes to the top of its bindings, and the others stay as they are. -/
theorem bindingsOf_insert {name : String} (hname : m name = none) (slot : Slot) (other : String) :
    bindingsOf other (m.insert name slot :: maps) =
      if other = name then ⟨slot, s.depth⟩ :: bindingsOf name (m :: maps)
      else bindingsOf other (m :: maps) := by
  split
  · rename_i hother
    subst hother
    have hnew : m.insert other slot other = some slot := if_pos rfl
    rw [bindingsOf_cons_some hnew, bindingsOf_cons_none hname, Nat.succ.inj h.depth]
  · rename_i hother
    have hold : m.insert name slot other = m other := if_neg hother
    simp only [bindingsOf, hold]

/-- A new name goes to the top map. -/
theorem declare_ok {name : String} (hname : m name = none) (slot : Slot) (span : Span) :
    ∃ s', s.declare name slot span = .ok s' ∧ s'.Reflects (m.insert name slot :: maps) := by
  have hchain := h.bindingsOf_insert hname slot
  have hvisible : ∀ other, find? (bind s.bindings name ⟨slot, s.depth⟩) other =
      (bindingsOf other (m.insert name slot :: maps)).head? := by
    intro other
    rw [hchain]
    split
    · rename_i hother
      rw [hother, find?_bind_self]
      rfl
    · rename_i hother
      rw [find?_bind_of_ne hother, h.visible]
  have hdepth : (m.insert name slot :: maps).length = s.depth + 1 := h.depth
  unfold Scope.declare
  dsimp only
  cases hfound : find? s.bindings name with
  | none =>
    refine ⟨_, rfl, hdepth, nodup_bind h.distinct, hvisible, ?_, h.ordered⟩
    intro other
    rw [hchain]
    split
    · rename_i hother
      have hnil : bindingsOf name (m :: maps) = [] := by
        rw [← head?_eq_none_iff, ← h.visible, hfound]
      rw [hother, h.hidden, hnil]
      rfl
    · exact h.hidden other
  | some previous =>
    obtain ⟨more, hmore⟩ : ∃ more, bindingsOf name (m :: maps) = previous :: more := by
      rw [h.visible] at hfound
      exact head?_eq_some_iff.1 hfound
    -- the top map does not have the name, so the binding is from further out
    have hbelow : previous.depth < s.depth := by
      have hmem : previous ∈ bindingsOf name maps := by
        rw [← bindingsOf_cons_none hname, hmore]
        exact mem_cons_self
      rw [← Nat.succ.inj h.depth]
      exact depth_lt_of_mem_bindingsOf previous hmem
    refine ⟨_, if_neg (Nat.ne_of_lt hbelow), hdepth, nodup_bind h.distinct, hvisible, ?_, ?_⟩
    · intro other
      rw [hchain]
      by_cases hother : other = name
      · rw [if_pos hother, hother, filter_cons_of_pos (by simp), h.hidden, hmore]
        rfl
      · rw [if_neg hother, filter_cons_of_neg (by simpa using Ne.symm hother)]
        exact h.hidden other
    · refine pairwise_cons.2 ⟨?_, h.ordered⟩
      intro hidden hmem
      have hlt := h.depth_lt hmem
      rw [h.depth] at hlt
      exact Nat.le_of_lt_succ hlt

/-! ### Closed scopes -/

/-- What closing a scope leaves of a name is what the maps below say about it. -/
theorem remaining (name : String) : hiddenBy name (bindingsOf name maps) =
        (hiddenBy name (bindingsOf name (m :: maps))).filter (fun h => h.depth < s.depth) ∧
      (bindingsOf name maps).head? = (((hiddenBy name (bindingsOf name (m :: maps))).filter
          (fun h => s.depth ≤ h.depth)).getLast?.map (·.binding)).or
            ((bindingsOf name (m :: maps)).head?.filter fun b => b.depth < s.depth) := by
  have hlen : maps.length = s.depth := Nat.succ.inj h.depth
  have hbelow : ∀ b ∈ bindingsOf name maps, b.depth < s.depth := by
    rw [← hlen]
    exact depth_lt_of_mem_bindingsOf
  have htrail : ∀ a ∈ hiddenBy name (bindingsOf name maps), a.depth < s.depth := by
    intro a ha
    obtain ⟨b, hb, hdepth⟩ := exists_depth_of_mem_hiddenBy ha
    rw [hdepth]
    exact hbelow b hb
  have hkept : (hiddenBy name (bindingsOf name maps)).filter (fun h => h.depth < s.depth) =
      hiddenBy name (bindingsOf name maps) := by
    rw [filter_eq_self]
    simpa using htrail
  have hback : (hiddenBy name (bindingsOf name maps)).filter (fun h => s.depth ≤ h.depth) = [] := by
    rw [filter_eq_nil_iff]
    simpa using htrail
  cases hm : m name with
  | none =>
    rw [bindingsOf_cons_none hm, hkept, hback]
    refine ⟨rfl, ?_⟩
    cases hhead : (bindingsOf name maps).head? with
    | none => rfl
    | some b =>
      have hlt := hbelow b (mem_of_mem_head? hhead)
      simp [Option.filter, hlt]
  | some =>
    rw [bindingsOf_cons_some hm, hlen]
    cases hmaps : bindingsOf name maps with
    | nil => simp [hiddenBy, Option.filter]
    | cons =>
      rw [hmaps] at hkept hback
      simp [hiddenBy, hkept, hback]

/-- A closed scope takes its map along. -/
theorem pop (hmaps : maps ≠ []) : s.pop.Reflects maps := by
  have hlen : maps.length = s.depth := Nat.succ.inj h.depth
  have hpositive : 0 < s.depth := hlen ▸ length_pos_iff.2 hmaps
  have hdistinct : ((s.bindings.filter fun v => v.2.depth < s.depth).map Prod.fst).Nodup :=
    h.distinct.sublist (filter_sublist.map Prod.fst)
  simp only [Scope.pop, restore_eq h.ordered]
  refine ⟨?_, nodup_rebind hdistinct _, ?_, ?_, h.ordered.filter _⟩
  · show maps.length = s.depth - 1 + 1
    omega
  · intro name
    have hkept := find?_filter h.distinct (fun b => decide (b.depth < s.depth)) name
    show find? (rebind _ (s.trail.filter fun h => s.depth ≤ h.depth)) name = _
    rw [find?_rebind, hkept, List.filter_filter, (h.remaining name).2, ← h.hidden, ← h.visible,
      List.filter_filter]
    simp only [Bool.and_comm]
  · intro name
    show (s.trail.filter fun h => h.depth < s.depth).filter (·.name == name) = _
    rw [(h.remaining name).1, ← h.hidden, List.filter_filter, List.filter_filter]
    simp only [Bool.and_comm]

end

theorem pop_last (h : s.Reflects [m]) : s.pop.Reflects [.empty] := by
  have hdepth : s.depth = 0 := (Nat.succ.inj h.depth).symm
  have htrail : s.trail = [] := by
    rw [eq_nil_iff_forall_not_mem]
    intro hidden hmem
    have hown : hidden ∈ s.trail.filter (·.name == hidden.name) :=
      mem_filter.2 ⟨hmem, by simp⟩
    rw [h.hidden] at hown
    cases hm : m hidden.name with
    | none =>
      rw [bindingsOf_cons_none hm] at hown
      cases hown
    | some =>
      rw [bindingsOf_cons_some hm] at hown
      cases hown
  have hpop : s.pop = { bindings := [], depth := 0, trail := [] } := by
    simp [Scope.pop, hdepth, htrail, restore]
  rw [hpop]
  exact ⟨rfl, by simp, fun _ => rfl, fun _ => rfl, .nil⟩

end Reflects

/-! ## Parameters -/

theorem ofParameters_eq (params : List (String × Primitive)) : (ofParameters params).bindings =
      rebind [] (params.zipIdx.map fun q => ⟨0, q.1.1, .parameter q.2 q.1.2, 0⟩) := by
  rw [rebind, foldl_map]
  rfl

theorem reflects_ofParameters (params : List (String × Primitive)) :
    (ofParameters params).Reflects [.ofParameters params] := by
  have hchain : ∀ name, NameStack.bindingsOf name [.ofParameters params] =
      ((NameMap.ofParameters params name).map fun slot => ⟨slot, 0⟩).toList := by
    intro name
    simp [NameStack.bindingsOf]
  refine ⟨rfl, ?_, ?_, ?_, .nil⟩
  · rw [ofParameters_eq]
    exact nodup_rebind (by simp) _
  · intro name
    rw [hchain, head?_toList, ofParameters_eq, find?_rebind, getLast?_eq_head?_reverse,
      ← filter_reverse, ← map_reverse, List.filter_map, head?_map, head?_filter,
      NameMap.ofParameters, Option.map_map, Option.map_map]
    exact or_none
  · intro name
    rw [hchain]
    cases NameMap.ofParameters params name <;> rfl

/-! ## Sequences of operations -/

/-- One event gets the same answer on both sides, which stay in step. -/
theorem Reflects.handle {s : Scope} {t : NameStack} (h : s.Reflects (t.top :: t.below))
    (event : ScopeEvent) : (s.handle event).2 = (t.handle event).2 ∧
      (s.handle event).1.Reflects ((t.handle event).1.top :: (t.handle event).1.below) := by
  cases event with
  | push => exact ⟨rfl, h.push⟩
  | pop =>
    refine ⟨rfl, ?_⟩
    obtain ⟨top, below⟩ := t
    cases below with
    | nil => exact h.pop_last
    | cons m rest => exact h.pop (cons_ne_nil m rest)
  | declare name slot span =>
    cases hname : t.top name with
    | none =>
      obtain ⟨_, hs', hreflects⟩ := h.declare_ok hname slot span
      simp only [Scope.handle, NameStack.handle, NameStack.declare, hs', hname]
      exact ⟨rfl, hreflects⟩
    | some =>
      have herror := h.declare_error (by rw [hname]; rfl) slot span
      simp only [Scope.handle, NameStack.handle, NameStack.declare, herror, hname]
      exact ⟨rfl, h⟩

theorem Reflects.handleAll {s : Scope} {t : NameStack} (h : s.Reflects (t.top :: t.below))
    (events : List ScopeEvent) :
    (handleAll Scope.handle s events).2 = (handleAll NameStack.handle t events).2 ∧
      (handleAll Scope.handle s events).1.Reflects ((handleAll NameStack.handle t events).1.top ::
          (handleAll NameStack.handle t events).1.below) := by
  induction events generalizing s t with
  | nil => exact ⟨rfl, h⟩
  | cons event _ ih =>
    obtain ⟨hanswer, hnext⟩ := h.handle event
    obtain ⟨hanswers, hend⟩ := ih hnext
    exact ⟨congr (congrArg List.cons hanswer) hanswers, hend⟩

/-- Whatever scopes are opened and closed and whatever is declared in them, a scope accepts and
refuses the same declarations as a stack of name maps, and every name means the same. -/
theorem answers_as_name_maps (params : List (String × Primitive)) (events : List ScopeEvent) :
    (handleAll Scope.handle (.ofParameters params) events).2 =
        (handleAll NameStack.handle (.ofParameters params) events).2 ∧
      ∀ name, (handleAll Scope.handle (.ofParameters params) events).1.lookup? name =
        (handleAll NameStack.handle (.ofParameters params) events).1.lookup? name := by
  obtain ⟨hanswers, hreflects⟩ :=
    @Reflects.handleAll _ (NameStack.ofParameters params) (reflects_ofParameters params) events
  exact ⟨hanswers, hreflects.lookup?_eq⟩

end Scope

end ScriptCompiler
