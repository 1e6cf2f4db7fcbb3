import LichenVm.CutVerdict
import LichenVm.Evaluation

open List Option

namespace LichenVm

open DepthFirst CutVerdict

namespace Value

variable {P : Program}

/-- A value of a value graph: a scalar, or an array of unmarked nodes of the module's own. -/
def isPlain : Value P → Bool
  | .low (.array array) => array.items.all fun item =>
    item.node.dynamic?.isSome && !item.shallow && !item.template
  | .low (.table _) | .low .any => false
  | _ => true

end Value

namespace Module

variable {P : Program}

/-- What `node` holds, as a value graph reads it: nothing, or the nodes its value lists. -/
def listed (m : Module P) (node : NodeId) : Option (List NodeId) :=
  (m.nodeValue (.dynamic node)).map fun value =>
    (deepEdges (some value)).filterMap AnyNodeId.dynamic?

/-- A graph of array nodes, scalar nodes and empty cells under `root`, with nothing owed, no
mark of an earlier pass, and no position whose read ends a scope. -/
structure ValueGraph (m : Module P) (root : NodeId) (current : Option BlockId) : Prop where
  live : ∀ v, Reaches m.listed root v → (m.nodes.get v).isSome
  fresh : ∀ v entry, m.nodes.get v = some entry →
    entry.evaluatedDeep = none ∧ entry.assumedConcrete = false ∧ entry.visiting = false
  settled : ∀ v, Reaches m.listed root v → m.hasNoResultYet v = false
  native : ∀ v operation, Reaches m.listed root v → m.nodeOperation v = some operation →
    ∀ library entry, operation.operator ≠ .low (.external library entry)
  plain : ∀ v value, Reaches m.listed root v → m.nodeValue (.dynamic v) = some value →
    value.isPlain = true
  rootRead : m.isScopeRootRead root current = false
  itemRead : ∀ v w items, Reaches m.listed root v → m.listed v = some items → w ∈ items →
    m.isScopeRootRead w (m.homeOf v) = false

/-- The deep pass proves closed nodes alone: a node with a decided verdict reaches no empty
slot. -/
def ProvesClosed (m : Module P) : Prop :=
  ∀ v entry, m.nodes.get v = some entry → entry.evaluatedDeep = some { undecided := false } →
    ¬ Open m.listed v

def marked (marks : Marks NodeId) (stack : List NodeId) (v : NodeId) (entry : Node P) : Node P :=
  { entry with
    evaluatedDeep := (marks.verdict v).map EvaluatedDeep.mk
    assumedConcrete := marks.assumed v
    visiting := decide (v ∈ stack) }

/-- The module of a deep pass under way, against the one it was entered with. -/
structure Marking (before : Module P) (stack : List NodeId) (marks : Marks NodeId)
    (m : Module P) : Prop where
  nodes : ∀ v, m.nodes.get v = (before.nodes.get v).map (marked marks stack v)
  blocks : m.blocks = before.blocks
  limit : m.evaluateDepthLimit = before.evaluateDepthLimit
  holes : ∀ v, before.listed v = none → marks.verdict v ≠ some false ∧ v ∉ stack

variable {before m : Module P} {stack : List NodeId} {marks : Marks NodeId} {v : NodeId}

namespace Marking

theorem nodeValue (marking : Marking before stack marks m) (v : NodeId) :
    m.nodeValue (.dynamic v) = before.nodeValue (.dynamic v) := by
  simp only [Module.nodeValue, marking.nodes v]
  cases before.nodes.get v <;> rfl

theorem listed (marking : Marking before stack marks m) : m.listed = before.listed := by
  funext v
  simp only [Module.listed, marking.nodeValue v]

theorem filled {value : Option (Value P)} (marking : Marking before stack marks m)
    (held : m.nodeValue (.dynamic v) = value) (open_ : before.listed v ≠ none) : value.isSome := by
  refine isSome_iff_ne_none.2 fun empty => open_ ?_
  rw [Module.listed, ← marking.nodeValue, held, empty]
  rfl

section

variable (marking : Marking before stack marks m)

include marking

section

variable (v : NodeId)

theorem nodeOperation : m.nodeOperation v = before.nodeOperation v := by
  simp only [Module.nodeOperation, marking.nodes v]
  cases before.nodes.get v <;> rfl

theorem hasNoResultYet : m.hasNoResultYet v = before.hasNoResultYet v := by
  simp only [Module.hasNoResultYet, marking.nodes v]
  cases before.nodes.get v <;> rfl

theorem homeOf : m.homeOf v = before.homeOf v := by
  simp only [Module.homeOf, marking.nodes v]
  cases before.nodes.get v <;> rfl

theorem isScopeRootRead (referer : Option BlockId) :
    m.isScopeRootRead v referer = before.isScopeRootRead v referer := by
  simp only [Module.isScopeRootRead, marking.homeOf v, marking.blocks]

theorem isVisiting (live : (before.nodes.get v).isSome) : m.isVisiting v = decide (v ∈ stack) := by
  obtain ⟨entry, found⟩ := isSome_iff_exists.1 live
  simp [Module.isVisiting, marking.nodes v, found, marked]

theorem refIsUndecided (live : (before.nodes.get v).isSome) :
    m.refIsUndecided (.dynamic v) = marks.undecided v := by
  obtain ⟨entry, found⟩ := isSome_iff_exists.1 live
  simp only [Module.refIsUndecided, marking.nodes v, found, map_some, marked, Marks.undecided]
  cases marks.verdict v <;> rfl

end

theorem modify {stack' : List NodeId} {marks' : Marks NodeId} (f : Node P → Node P)
    (self : ∀ entry, f (marked marks stack v entry) = marked marks' stack' v entry)
    (others : ∀ w, w ≠ v → ∀ entry : Node P, marked marks stack w entry = marked marks' stack' w entry)
    (holes : ∀ v, before.listed v = none → marks'.verdict v ≠ some false ∧ v ∉ stack') :
    Marking before stack' marks' (m.modifyNode v f) where
  nodes w := by
    simp only [Module.modifyNode, SlotMap.get_modify, marking.nodes w]
    by_cases same : w = v
    · subst same
      simp only [if_true, Option.map_map]
      congr 1
      funext entry
      exact self entry
    · rw [if_neg same]
      congr 1
      funext entry
      exact others w same entry
  blocks := marking.blocks
  limit := marking.limit
  holes := holes

theorem assume (v : NodeId) : Marking before stack (marks.assume v) (m.assumeConcrete v) := by
  apply marking.modify
  · intro entry; simp [marked, Marks.assume]
  · intro w other entry; simp [marked, Marks.assume, other]
  · exact marking.holes

theorem push {items : List NodeId} (holds : before.listed v = some items) :
    Marking before (v :: stack) marks (m.setVisiting v true) := by
  apply marking.modify
  · intro entry; simp [marked]
  · intro w other entry; simp [marked, other]
  · intro w empty
    refine ⟨(marking.holes w empty).1, fun mem => ?_⟩
    rcases mem_cons.1 mem with rfl | mem
    · rw [holds] at empty; cases empty
    · exact (marking.holes w empty).2 mem

end

theorem pop (marking : Marking before (v :: stack) marks m) (fresh : v ∉ stack) :
    Marking before stack marks (m.setVisiting v false) := by
  apply marking.modify
  · intro entry; simp [marked, fresh]
  · intro w other entry; simp [marked, other]
  · intro w empty
    exact ⟨(marking.holes w empty).1, fun mem =>
      (marking.holes w empty).2 (mem_cons_of_mem v mem)⟩

section

variable (marking : Marking before stack marks m)

include marking

theorem settle {undecided : Bool} (hole : before.listed v = none → undecided) :
    Marking before stack (marks.settle v undecided) (m.settleDeep v undecided) := by
  apply marking.modify
  · intro entry; simp [marked, Marks.settle]
  · intro w other entry; simp [marked, Marks.settle, other]
  · intro w empty
    refine ⟨?_, (marking.holes w empty).2⟩
    by_cases same : w = v
    · rw [same, Marks.settle_verdict_self, hole (same ▸ empty)]; simp
    · rw [Marks.settle_verdict_of_ne _ _ same]; exact (marking.holes w empty).1

theorem enterDeep : Marking before stack marks m.enterDeep :=
  ⟨marking.nodes, marking.blocks, marking.limit, marking.holes⟩

theorem leaveDeep : Marking before stack marks m.leaveDeep :=
  ⟨marking.nodes, marking.blocks, marking.limit, marking.holes⟩

end

end Marking

variable {current : Option BlockId} {root : NodeId}

section

variable (graph : ValueGraph before root current) (marking : Marking before stack marks m)
  (reached : Reaches before.listed root v)

include graph marking reached

theorem ValueGraph.evaluateNode {referer : Option BlockId}
    (read : before.isScopeRootRead v referer = false) (dispatch : Dispatch P) :
    m.evaluateNode dispatch (.dynamic v) referer = some (m.nodeValue (.dynamic v), m) := by
  have live := graph.live v reached
  have alive : (m.nodes.get v).isNone = false := by
    rw [marking.nodes v]
    cases found : before.nodes.get v with
    | none => rw [found] at live; cases live
    | some entry => rfl
  have owes : m.hasNoResultYet v = false := by
    rw [marking.hasNoResultYet]; exact graph.settled v reached
  have noScope : m.isScopeRootRead v referer = false := by rw [marking.isScopeRootRead, read]
  unfold Module.evaluateNode evaluateNodeBody evaluateHere
  simp only [alive, noScope, owes, Bool.false_and, Bool.false_eq_true, if_false, bind_eq_bind,
    bind_some]
  cases value : m.nodeValue (.dynamic v) with
  | none =>
    have empty : before.listed v = none := by
      rw [Module.listed, ← marking.nodeValue, value]; rfl
    have still : m.isVisiting v = false := by
      rw [marking.isVisiting v live]
      exact decide_eq_false (marking.holes v empty).2
    simp [still]
  | some value' =>
    have plain := graph.plain v value' reached (by rw [← marking.nodeValue, value])
    match value', plain with
    | .ext _, _ => rfl
    | .low (.usize _), _ => rfl
    | .low (.float _), _ => rfl
    | .low (.str _), _ => rfl
    | .low (.array _), _ => rfl
    | .low (.function _), _ => rfl
    | .low .none, _ => rfl
    | .low .error, _ => rfl

theorem ValueGraph.operandIsUndecided (referer : Option BlockId)
    (visit : Module P → AnyNodeId → Option BlockId → Evaluated P) :
    m.operandIsUndecided visit v referer = some (false, m) := by
  unfold Module.operandIsUndecided
  split
  · next library entry operand held =>
    rw [marking.nodeOperation] at held
    exact absurd rfl (graph.native v _ reached held library entry)
  · rfl

end

/-- A plain value's positions are the nodes it lists, and read undecided when one of them
does. -/
theorem plain_edges {value : Value P} (plain : value.isPlain) : deepEdges (some value) =
        ((deepEdges (some value)).filterMap AnyNodeId.dynamic?).map AnyNodeId.dynamic ∧
      m.valueIsUndecided (some value) =
        ((deepEdges (some value)).any fun edge => m.refIsUndecided edge) := by
  match value, plain with
  | .ext _, _ => exact ⟨rfl, rfl⟩
  | .low (.usize _), _ => exact ⟨rfl, rfl⟩
  | .low (.float _), _ => exact ⟨rfl, rfl⟩
  | .low (.str _), _ => exact ⟨rfl, rfl⟩
  | .low (.function _), _ => exact ⟨rfl, rfl⟩
  | .low .none, _ => exact ⟨rfl, rfl⟩
  | .low .error, _ => exact ⟨rfl, rfl⟩
  | .low (.array array), plain =>
    have each := List.all_eq_true.1 plain
    simp only [Bool.and_eq_true, Bool.not_eq_true'] at each
    have unmarked : (array.items.filter fun item => !item.shallow) = array.items :=
      filter_eq_self.2 fun item mem => by simp [(each item mem).1.2]
    have noShallow : array.items.any ArrayItem.shallow = false :=
      List.any_eq_false.2 fun item mem => by simp [(each item mem).1.2]
    constructor
    · simp only [deepEdges, unmarked, filterMap_map, map_filterMap]
      rw [← filterMap_eq_map]
      apply filterMap_congr
      intro item mem
      cases node : item.node with
      | dynamic node' => simp [node, AnyNodeId.dynamic?]
      | static sref => have dynamic := (each item mem).1.1; rw [node] at dynamic; cases dynamic
    · simp only [Module.valueIsUndecided, deepEdges, unmarked, noShallow, Bool.false_or,
        List.any_map]
      apply Bool.eq_iff_iff.2
      simp only [List.any_eq_true, Function.comp_apply]
      constructor
      · intro ⟨item, mem, open?⟩
        exact ⟨item, mem, by simpa [(each item mem).2] using open?⟩
      · intro ⟨item, mem, open?⟩
        exact ⟨item, mem, by simpa [(each item mem).2] using open?⟩

section Walk

variable {root : NodeId} {current referer : Option BlockId} (dispatch : Dispatch P)
  (graph : ValueGraph before root current) (marking : Marking before stack marks m)
  (reached : Reaches before.listed root v) (read : before.isScopeRootRead v referer = false)

include graph marking reached

theorem entryOf : ∃ entry, before.nodes.get v = some entry ∧
    m.nodes.get v = some (marked marks stack v entry) ∧ m.nodeValue (.dynamic v) = entry.value := by
  obtain ⟨entry, found⟩ := isSome_iff_exists.1 (graph.live v reached)
  refine ⟨entry, found, ?_, ?_⟩
  · rw [marking.nodes v, found]; rfl
  · rw [marking.nodeValue, Module.nodeValue, found]; rfl

include read

theorem deep_proven (fuel : Nat) (proven : marks.verdict v = some false) :
    m.evaluateNodeDeepInner dispatch (fuel + 1) (.dynamic v) referer =
      some (m.nodeValue (.dynamic v), m) := by
  obtain ⟨entry, found, held, value⟩ := entryOf graph marking reached
  have owes : m.hasNoResultYet v = false := by
    rw [marking.hasNoResultYet]; exact graph.settled v reached
  have noScope : m.isScopeRootRead v referer = false := by rw [marking.isScopeRootRead, read]
  have filled := marking.filled value fun hole => (marking.holes v hole).1 proven
  rw [evaluateNodeDeepInner]
  simp [held, noScope, owes, marked, proven, filled, value]

section

variable (fuel : Nat) (unproven : marks.verdict v ≠ some false)

include fuel unproven

omit read in
theorem deep_cut (mem : v ∈ stack) :
    m.evaluateNodeDeepInner dispatch (fuel + 1) (.dynamic v) referer =
      some (m.nodeValue (.dynamic v), m.assumeConcrete v) := by
  obtain ⟨entry, found, held, value⟩ := entryOf graph marking reached
  have filled := marking.filled value fun hole => (marking.holes v hole).2 mem
  rw [evaluateNodeDeepInner]
  simp [held, marked, unproven, filled, value, mem]

omit read in
theorem deep_spent (fresh : v ∉ stack) (spent : before.evaluateDepthLimit - m.deepDepth = 0) :
    m.evaluateNodeDeepInner dispatch (fuel + 1) (.dynamic v) referer =
      some (some (.low .error), m.recordDepthExhausted) := by
  obtain ⟨entry, found, held, value⟩ := entryOf graph marking reached
  have past : before.evaluateDepthLimit < m.deepDepth + 1 := by omega
  rw [evaluateNodeDeepInner]
  simp [held, marked, unproven, fresh, marking.limit, past]

theorem deep_enter (fresh : v ∉ stack) (room : m.deepDepth + 1 ≤ before.evaluateDepthLimit)
    {marks' : Marks NodeId} {m' : Module P}
    (descent : m.enterDeep.descendDeep (evaluateNodeDeepInner dispatch fuel) v
      (m.nodeValue (.dynamic v)) = some m') (marked' : Marking before stack marks' m') :
    m.evaluateNodeDeepInner dispatch (fuel + 1) (.dynamic v) referer =
      some (m.nodeValue (.dynamic v),
        (m'.settleDeep v (m'.valueIsUndecided (m.nodeValue (.dynamic v)))).leaveDeep) := by
  obtain ⟨entry, found, held, value⟩ := entryOf graph marking reached
  have under : ¬ before.evaluateDepthLimit < m.deepDepth + 1 := by omega
  have noWild : entry.value ≠ some (.low .any) := by
    intro wild
    have plain := graph.plain v _ reached (by rw [← marking.nodeValue, value, wild])
    cases plain
  have deeper := marking.enterDeep
  have evaluated := graph.evaluateNode deeper reached read dispatch
  have operand := graph.operandIsUndecided marked' reached referer
    (evaluateNodeDeepInner dispatch fuel)
  have sameValue : m.enterDeep.nodeValue (.dynamic v) = m.nodeValue (.dynamic v) := rfl
  rw [evaluateNodeDeepInner]
  simp only [held, marked, bind_eq_bind, bind_some, marking.limit, under, noWild,
    evaluated, sameValue, descent, operand]
  simp [unproven, fresh]

end

end Walk

variable (dispatch : Dispatch P)

/-- The fold over the listed items, `v` marked for the duration: one visit for each. -/
theorem descend_marks {fuel fuel' : Nat}
    (visits : ∀ {marks : Marks NodeId} {m : Module P} {w : NodeId} {referer : Option BlockId},
      Marking before stack marks m → Reaches before.listed root w →
      before.isScopeRootRead w referer = false → before.evaluateDepthLimit - m.deepDepth = fuel →
      ∃ value after, m.evaluateNodeDeepInner dispatch fuel' (.dynamic w) referer =
          some (value, after) ∧
        Marking before stack (pass before.listed fuel stack marks w) after ∧
        after.deepDepth = m.deepDepth) (referer : Option BlockId) (items : List NodeId)
    (reached : ∀ w ∈ items, Reaches before.listed root w)
    (read : ∀ w ∈ items, before.isScopeRootRead w referer = false)
    (marking : Marking before stack marks m)
    (room : before.evaluateDepthLimit - m.deepDepth = fuel) :
    ∃ after, (items.map AnyNodeId.dynamic).foldlM (fun m edge =>
        (evaluateNodeDeepInner dispatch fuel' m edge referer).map Prod.snd) m = some after ∧
      Marking before stack (items.foldl (pass before.listed fuel stack) marks) after ∧
      after.deepDepth = m.deepDepth := by
  induction items generalizing marks m with
  | nil => exact ⟨m, rfl, marking, rfl⟩
  | cons w items ih =>
    obtain ⟨value, next, visited, marking', depth⟩ :=
      visits marking (reached w (by simp)) (read w (by simp)) room
    obtain ⟨after, rest, marking'', depth'⟩ := ih (fun u hu => reached u (mem_cons_of_mem w hu))
      (fun u hu => read u (mem_cons_of_mem w hu)) marking' (by rw [depth, room])
    refine ⟨after, ?_, marking'', depth'.trans depth⟩
    rw [map_cons, foldlM_cons, visited]
    exact rest

section

variable (graph : ValueGraph before root current)

include graph

theorem descendDeep_marks {fuel fuel' : Nat}
    (visits : ∀ {marks : Marks NodeId} {m : Module P} {w : NodeId} {referer : Option BlockId},
      Marking before (v :: stack) marks m → Reaches before.listed root w →
      before.isScopeRootRead w referer = false → before.evaluateDepthLimit - m.deepDepth = fuel →
      ∃ value after, m.evaluateNodeDeepInner dispatch fuel' (.dynamic w) referer =
          some (value, after) ∧
        Marking before (v :: stack) (pass before.listed fuel (v :: stack) marks w) after ∧
        after.deepDepth = m.deepDepth) (reached : Reaches before.listed root v)
    (fresh : v ∉ stack) {items : List NodeId} (holds : before.listed v = some items)
    (marking : Marking before stack marks m)
    (room : before.evaluateDepthLimit - m.deepDepth = fuel) :
    ∃ after, m.descendDeep (evaluateNodeDeepInner dispatch fuel') v (m.nodeValue (.dynamic v)) =
        some after ∧
      Marking before stack (items.foldl (pass before.listed fuel (v :: stack)) marks) after ∧
      after.deepDepth = m.deepDepth := by
  rw [marking.nodeValue]
  cases value : before.nodeValue (.dynamic v) with
  | none => rw [Module.listed, value] at holds; cases holds
  | some value' =>
    have plain := graph.plain v value' reached value
    rw [Module.listed, value, map_some, some.injEq] at holds
    have edges := (plain_edges (m := m) plain).1
    rw [holds] at edges
    match value', plain with
    | .ext _, _ => subst holds; exact ⟨m, rfl, marking, rfl⟩
    | .low (.usize _), _ => subst holds; exact ⟨m, rfl, marking, rfl⟩
    | .low (.float _), _ => subst holds; exact ⟨m, rfl, marking, rfl⟩
    | .low (.str _), _ => subst holds; exact ⟨m, rfl, marking, rfl⟩
    | .low (.function _), _ => subst holds; exact ⟨m, rfl, marking, rfl⟩
    | .low .none, _ => subst holds; exact ⟨m, rfl, marking, rfl⟩
    | .low .error, _ => subst holds; exact ⟨m, rfl, marking, rfl⟩
    | .low (.array array), plain =>
      have listed : before.listed v = some items := by rw [Module.listed, value]; simp [holds]
      have itemReached : ∀ w ∈ items, Reaches before.listed root w :=
        fun w hw => reached.step listed hw
      have itemRead : ∀ w ∈ items, before.isScopeRootRead w (before.homeOf v) = false :=
        fun w hw => graph.itemRead v w items reached listed hw
      have pushed := marking.push listed
      obtain ⟨after, walked, marking', depth⟩ := descend_marks dispatch visits
        (before.homeOf v) items itemReached itemRead pushed room
      refine ⟨after.setVisiting v false, ?_, marking'.pop fresh, depth⟩
      simp only [Module.descendDeep, Module.retainNode, pushed.homeOf, edges, walked]
      rfl

theorem valueIsUndecided_marks (marking : Marking before stack marks m)
    (reached : Reaches before.listed root v) {items : List NodeId}
    (holds : before.listed v = some items) :
    m.valueIsUndecided (m.nodeValue (.dynamic v)) = items.any marks.undecided := by
  rw [marking.nodeValue]
  cases value : before.nodeValue (.dynamic v) with
  | none => rw [Module.listed, value] at holds; cases holds
  | some value' =>
    obtain ⟨edges, reads⟩ := plain_edges (m := m) (graph.plain v value' reached value)
    have items_eq : (deepEdges (some value')).filterMap AnyNodeId.dynamic? = items := by
      rw [Module.listed, value, map_some, some.injEq] at holds
      exact holds
    rw [reads, edges, items_eq, List.any_map]
    apply Bool.eq_iff_iff.2
    simp only [List.any_eq_true, Function.comp_apply]
    apply exists_congr
    intro w
    refine and_congr_right fun hw => ?_
    rw [marking.refIsUndecided w (graph.live w (reached.step holds hw))]

/-- The deep walk marks as the pass does, and puts the depth counter back. -/
theorem evaluateNodeDeepInner_marks (fuel : Nat) {referer : Option BlockId}
    (marking : Marking before stack marks m) (reached : Reaches before.listed root v)
    (read : before.isScopeRootRead v referer = false)
    (room : before.evaluateDepthLimit - m.deepDepth = fuel) :
    ∃ value after, m.evaluateNodeDeepInner dispatch (fuel + 1) (.dynamic v) referer =
        some (value, after) ∧
      Marking before stack (pass before.listed fuel stack marks v) after ∧
      after.deepDepth = m.deepDepth := by
  induction fuel generalizing stack marks m v referer with
  | zero =>
    by_cases proven : marks.verdict v = some false
    · exact ⟨_, _, deep_proven dispatch graph marking reached read 0 proven,
        by rwa [pass_proven proven], rfl⟩
    by_cases mem : v ∈ stack
    · exact ⟨_, _, deep_cut dispatch graph marking reached 0 proven mem,
        by rw [pass_cut proven mem]; exact marking.assume v, rfl⟩
    refine ⟨_, _, deep_spent dispatch graph marking reached 0 proven mem room, ?_, ?_⟩
    · rw [pass_spent proven mem]
      unfold recordDepthExhausted
      split
      · exact ⟨marking.nodes, marking.blocks, marking.limit, marking.holes⟩
      · exact marking
    · unfold recordDepthExhausted; split <;> rfl
  | succ fuel ih =>
    by_cases proven : marks.verdict v = some false
    · exact ⟨_, _, deep_proven dispatch graph marking reached read _ proven,
        by rwa [pass_proven proven], rfl⟩
    by_cases mem : v ∈ stack
    · exact ⟨_, _, deep_cut dispatch graph marking reached _ proven mem,
        by rw [pass_cut proven mem]; exact marking.assume v, rfl⟩
    have deeper : m.deepDepth + 1 ≤ before.evaluateDepthLimit := by omega
    cases holds : before.listed v with
    | none =>
      have empty : m.nodeValue (.dynamic v) = none := by
        rw [marking.nodeValue]
        cases value : before.nodeValue (.dynamic v) with
        | none => rfl
        | some _ => rw [Module.listed, value] at holds; cases holds
      have descent : m.enterDeep.descendDeep (evaluateNodeDeepInner dispatch (fuel + 1)) v
          (m.nodeValue (.dynamic v)) = some m.enterDeep := by rw [empty]; rfl
      refine ⟨_, _, deep_enter dispatch graph marking reached read _ proven mem deeper descent
        marking.enterDeep, ?_, rfl⟩
      rw [pass_hole proven mem holds, empty]
      exact (marking.enterDeep.settle fun _ => rfl).leaveDeep
    | some items =>
      obtain ⟨after, descent, marking', depth⟩ := descendDeep_marks dispatch graph ih reached
        mem holds marking.enterDeep (by simp only [enterDeep]; omega)
      refine ⟨_, _, deep_enter dispatch graph marking reached read _ proven mem deeper descent
        marking', ?_, ?_⟩
      · have reads := valueIsUndecided_marks graph marking' reached holds
        rw [marking'.nodeValue, ← marking.nodeValue] at reads
        rw [pass_list proven mem holds, reads]
        exact (marking'.settle fun hole => by rw [holds] at hole; cases hole).leaveDeep
      · simp only [leaveDeep, settleDeep, modifyNode, depth, enterDeep]
        omega

end

/-- The levels a deep walk may still nest. -/
def deepBudget (m : Module P) : Nat := m.evaluateDepthLimit - m.deepDepth

/-- The depth-first tree the order of the items gives from `root`. -/
def deepTree (m : Module P) (root : NodeId) : SearchTree NodeId :=
  explore m.listed m.deepBudget [] (fun _ => none) root

/-- Every array of the tree that reaches an empty slot has an item that reaches one and is
neither the array nor an ancestor of it in the tree. -/
def DeepExits (m : Module P) (root : NodeId) : Prop :=
  ∀ v path, m.deepTree root v = some path → Exits m.listed v path

theorem ValueGraph.marking (graph : ValueGraph m root current) : Marking m [] {} m where
  nodes v := by
    cases found : m.nodes.get v with
    | none => rfl
    | some entry =>
      obtain ⟨verdict, assumed, visiting⟩ := graph.fresh v entry found
      cases entry
      simp_all [marked]
  blocks := rfl
  limit := rfl
  holes _ _ := ⟨nofun, not_mem_nil⟩

theorem Marking.provesClosed_iff (marking : Marking before [] marks m) :
    m.ProvesClosed ↔ Sound before.listed marks := by
  unfold ProvesClosed
  rw [marking.listed]
  constructor
  · intro proves v proven
    cases found : before.nodes.get v with
    | none =>
      have empty : before.listed v = none := by simp [Module.listed, Module.nodeValue, found]
      exact absurd proven (marking.holes v empty).1
    | some entry =>
      exact proves v (marked marks [] v entry) (by rw [marking.nodes v, found]; rfl)
        (by simp [marked, proven])
  · intro sound v entry held decided
    rw [marking.nodes v] at held
    obtain ⟨entry', found, rfl⟩ := map_eq_some_iff.1 held
    apply sound v
    cases verdict : marks.verdict v with
    | none => simp [marked, verdict] at decided
    | some undecided => simpa [marked, verdict] using decided

/-- A module of one block whose nodes hold `values`, with nothing owed. -/
def ofValues (values : List (Option (Value P))) : Module P where
  nodes := ⟨values.map fun value => some { value, block := ⟨1⟩ }⟩
  blocks := ⟨[some { parent := none }]⟩

variable (values : List (Option (Value P)))

theorem get_ofValues (v : NodeId) :
    ∀ entry, (ofValues values).nodes.get v = some entry →
      ∃ value ∈ values, entry = { value, block := ⟨1⟩ } := by
  intro entry found
  obtain ⟨_ | index⟩ := v
  · cases found
  · simp only [SlotMap.get, ofValues, getElem?_map] at found
    cases held : values[index]? with
    | none => simp [held] at found
    | some value =>
      simp only [held, map_some, join_some, some.injEq] at found
      exact ⟨value, mem_of_getElem? held, found.symm⟩

/-- Plain values that list live nodes are a value graph. -/
theorem valueGraph_ofValues (root : NodeId) (rooted : ((ofValues values).nodes.get root).isSome)
    (plain : ∀ value ∈ values, ∀ held ∈ value, held.isPlain)
    (live : ∀ value ∈ values, ∀ held ∈ value, ∀ w ∈ (deepEdges (some held)).filterMap
      AnyNodeId.dynamic?, ((ofValues values).nodes.get w).isSome) :
    (ofValues values).ValueGraph root none := by
  have listedLive : ∀ v items, (ofValues values).listed v = some items → ∀ w ∈ items,
      ((ofValues values).nodes.get w).isSome := by
    intro v items holds w hw
    cases found : (ofValues values).nodes.get v with
    | none => simp [Module.listed, Module.nodeValue, found] at holds
    | some entry =>
      obtain ⟨value, mem, rfl⟩ := get_ofValues values v entry found
      cases value with
      | none => simp [Module.listed, Module.nodeValue, found] at holds
      | some held =>
        simp only [Module.listed, Module.nodeValue, found, bind_some, map_some,
          some.injEq] at holds
        exact live _ mem held rfl w (holds ▸ hw)
  have noScope : ∀ w referer, (ofValues values).isScopeRootRead w referer = false := by
    intro w referer
    cases found : (ofValues values).nodes.get w with
    | none => simp [Module.isScopeRootRead, Module.homeOf, found]
    | some entry =>
      obtain ⟨value, mem, rfl⟩ := get_ofValues values w entry found
      have home : (ofValues values).homeOf w = some ⟨1⟩ := by simp [Module.homeOf, found]
      have block : (ofValues values).blocks.get ⟨1⟩ = some { parent := none } := rfl
      simp [Module.isScopeRootRead, home, block]
  constructor
  · intro v reached
    induction reached with
    | refl => exact rooted
    | step path holds mem ih => exact listedLive _ _ holds _ mem
  · intro v entry found
    obtain ⟨value, mem, rfl⟩ := get_ofValues values v entry found
    exact ⟨rfl, rfl, rfl⟩
  · intro v _
    cases found : (ofValues values).nodes.get v with
    | none => simp [hasNoResultYet, found]
    | some entry =>
      obtain ⟨value, mem, rfl⟩ := get_ofValues values v entry found
      simp [hasNoResultYet, found]
  · intro v operation _ held
    cases found : (ofValues values).nodes.get v with
    | none => simp [Module.nodeOperation, found] at held
    | some entry =>
      obtain ⟨value, mem, rfl⟩ := get_ofValues values v entry found
      simp [Module.nodeOperation, found] at held
  · intro v value _ held
    cases found : (ofValues values).nodes.get v with
    | none => simp [Module.nodeValue, found] at held
    | some entry =>
      obtain ⟨other, mem, rfl⟩ := get_ofValues values v entry found
      simp only [Module.nodeValue, found, bind_some] at held
      exact plain other mem value held
  · exact noScope root none
  · exact fun v w items _ _ _ => noScope w _

/-- The module's deep pass over a value graph proves closed nodes alone exactly when the tree's
arrays exit, as long as the depth budget covers the nodes; past it, when each array that reaches
an empty slot has an item that does and does not lead back to the array. -/
theorem deep_pass_proves_closed_iff {m : Module P} {root : NodeId} {current : Option BlockId}
    (dispatch : Dispatch P) (graph : m.ValueGraph root current) :
    ∃ value after, m.evaluateNodeDeep dispatch root current = some (value, after) ∧
      (m.nodes.keys.length ≤ m.deepBudget → (after.ProvesClosed ↔ m.DeepExits root)) ∧
      (Sound.Grounded m.listed root → after.ProvesClosed) := by
  obtain ⟨value, after, walked, marking, -⟩ :=
    evaluateNodeDeepInner_marks dispatch graph m.deepBudget graph.marking (.refl root)
      graph.rootRead rfl
  refine ⟨value, after, walked, fun fits => ?_, fun grounded => ?_⟩
  · rw [marking.provesClosed_iff]
    classical
    apply pass_sound_iff (U := m.nodes.keys.filter fun v => Reaches m.listed root v)
    · intro w hw items holds u hu
      have reached : Reaches m.listed root w := by simpa using (mem_filter.1 hw).2
      have below := reached.step holds hu
      exact mem_filter.2 ⟨(SlotMap.mem_keys _ u).2 (graph.live u below), by simpa using below⟩
    · exact mem_filter.2 ⟨(SlotMap.mem_keys _ root).2 (graph.live root (.refl root)),
        by simpa using Reaches.refl root⟩
    · exact (length_filter_le _ _).trans fits
  · rw [marking.provesClosed_iff]
    exact pass_sound_of_grounded grounded m.deepBudget

end Module

def arrayOf (items : List NodeId) : Value Program.plain :=
  .low (.array { handle := .dynamic { block := ⟨1⟩, address := 0, items := items.map fun node =>
    { node := .dynamic node } } })

/-- `A = [B, E]`, `B = [A]`, and `E` empty. -/
def cutCycle : Module Program.plain :=
  Module.ofValues [some (arrayOf [⟨2⟩, ⟨3⟩]), some (arrayOf [⟨1⟩]), none]

theorem cutCycle_graph : cutCycle.ValueGraph ⟨1⟩ none :=
  Module.valueGraph_ofValues _ _ (by decide) (by decide) (by decide)

theorem cutCycle_proves_open : cutCycle.ValueGraph ⟨1⟩ none ∧
    ∃ value after, cutCycle.evaluateNodeDeep (fun _ _ => none) ⟨1⟩ none = some (value, after) ∧
      (after.nodes.get ⟨2⟩).bind Node.evaluatedDeep = some { undecided := false } ∧
      Open after.listed ⟨2⟩ := by
  refine ⟨cutCycle_graph, ?_⟩
  have run : (cutCycle.evaluateNodeDeep (fun _ _ => none) ⟨1⟩ none).map (fun result =>
      ((result.2.nodes.get ⟨2⟩).bind Node.evaluatedDeep, result.2.listed ⟨1⟩, result.2.listed ⟨2⟩,
        result.2.listed ⟨3⟩)) =
      some (some { undecided := false }, some [⟨2⟩, ⟨3⟩], some [⟨1⟩], none) := by
    decide +kernel
  obtain ⟨⟨value, after⟩, walked, marks⟩ := map_eq_some_iff.1 run
  simp only [Prod.mk.injEq] at marks
  obtain ⟨verdict, a, b, e⟩ := marks
  exact ⟨value, after, walked, verdict, .item b (by simp) (.item a (by simp) (.hole e))⟩

theorem cutCycle_proves_closed_iff : ∃ value after,
    cutCycle.evaluateNodeDeep (fun _ _ => none) ⟨1⟩ none = some (value, after) ∧
      (3 ≤ cutCycle.deepBudget → (after.ProvesClosed ↔ cutCycle.DeepExits ⟨1⟩)) ∧
      (Sound.Grounded cutCycle.listed ⟨1⟩ → after.ProvesClosed) :=
  Module.deep_pass_proves_closed_iff (fun _ _ => none) cutCycle_graph

end LichenVm
