import LichenVm.DecisionTree
import LichenVm.LoopConversion

open List Option

namespace LichenVm

open Program DecisionTree

/-- A leaf of a return spine, as the node it names. -/
inductive SpineLeaf where
  | step (apply : NodeId)
  | exit (value : NodeId)
  deriving DecidableEq

/-- A leaf of a return spine, by its position among the steps or the exits. -/
inductive LoopLeaf where
  | step (index : Nat)
  | exit (index : Nat)
  deriving DecidableEq

namespace LoopLeaf

def resolution : LoopLeaf → Resolution
  | step index => .step index
  | exit index => .exit index

end LoopLeaf

/-- A return spine as a tree: the selections are its queries, the outermost at the root. -/
abbrev SpineTree := DecisionTree NodeId SpineLeaf

namespace SpineTree

def stepLeaves : SpineTree → List NodeId
  | .leaf (.step apply) => [apply]
  | .leaf (.exit _) => []
  | .query _ zero one => stepLeaves zero ++ stepLeaves one

def exitLeaves : SpineTree → List NodeId
  | .leaf (.step _) => []
  | .leaf (.exit value) => [value]
  | .query _ zero one => exitLeaves zero ++ exitLeaves one

/-- Name each leaf by its position in spine order, counting from `steps` and `exits`. -/
def number : SpineTree → Nat → Nat → DecisionTree NodeId LoopLeaf
  | .leaf (.step _), steps, _ => .leaf (.step steps)
  | .leaf (.exit _), _, exits => .leaf (.exit exits)
  | .query condition zero one, steps, exits =>
    .query condition (number zero steps exits)
      (number one (steps + (stepLeaves zero).length) (exits + (exitLeaves zero).length))

/-- The step or exit the spine selects, its selections read from the outermost inward. -/
def selected (tree : SpineTree) (σ : NodeId → Bool) : LoopLeaf :=
  (number tree 0 0).eval σ

/-- The numbers a leaf of `number tree steps exits` may carry. -/
def Numbered (tree : SpineTree) (steps exits : Nat) : LoopLeaf → Prop
  | .step index => steps ≤ index ∧ index < steps + (stepLeaves tree).length
  | .exit index => exits ≤ index ∧ index < exits + (exitLeaves tree).length

section

variable (tree : SpineTree) (steps exits : Nat)

include tree steps exits

theorem number_leaves :
    ∀ occurrence ∈ (number tree steps exits).leaves, Numbered tree steps exits occurrence := by
  induction tree generalizing steps exits with
  | leaf end' => cases end' <;> simp [number, leaves, Numbered, stepLeaves, exitLeaves]
  | query condition zero one zero_ih one_ih =>
    intro occurrence member
    rcases mem_append.1 member with left | right
    · have bounds := zero_ih _ _ occurrence left
      cases occurrence <;>
        simp only [Numbered, stepLeaves, exitLeaves, length_append] at bounds ⊢ <;> omega
    · have bounds := one_ih _ _ occurrence right
      cases occurrence <;>
        simp only [Numbered, stepLeaves, exitLeaves, length_append] at bounds ⊢ <;> omega

theorem number_nodup : (number tree steps exits).leaves.Nodup := by
  induction tree generalizing steps exits with
  | leaf end' => cases end' <;> simp [number, leaves]
  | query condition zero one zero_ih one_ih =>
    simp only [number, leaves, nodup_append]
    refine ⟨zero_ih _ _, one_ih _ _, ?_⟩
    rintro occurrence left _ right rfl
    have below := number_leaves zero _ _ occurrence left
    have above := number_leaves one _ _ occurrence right
    cases occurrence <;> simp only [Numbered] at below above <;> omega

theorem number_isQuery : (number tree steps exits).IsQuery ↔ DecisionTree.IsQuery tree := by
  cases tree with
  | leaf end' => cases end' <;> simp [number, DecisionTree.IsQuery]
  | query condition zero one => simp [number, DecisionTree.IsQuery]

end

end SpineTree

namespace LoopArm

def target : LoopArm → DecisionTree.Target LoopLeaf
  | test index => .row index
  | step index => .leaf (.step index)
  | exit index => .leaf (.exit index)

end LoopArm

namespace LoopTest

def row (test : LoopTest) : DecisionTree.Row NodeId LoopLeaf where
  condition := test.condition
  onOne := test.onOne.target
  onZero := test.onZero.target

end LoopTest

namespace Spine

variable {P : Program}

/-- Reading views from `node` on reaches `target`. -/
inductive Names (m : Module P) : NodeId → NodeId → Prop where
  | here (node : NodeId) : Names m node node
  | view {node view target : NodeId} (reads : m.selectionOf node = some (.views view))
      (names : Names m view target) : Names m node target

def Selects (m : Module P) (node selection : NodeId) : Prop :=
  Names m node selection ∧ m.selectionOf selection = some .computed

/-- The selection at `selection` is `[zero, one][condition]`, by its arms' value positions. -/
def Conditional (m : Module P) (selection condition zero one : NodeId) : Prop :=
  ∃ arms zeroItem oneItem, m.operandsOf selection = .ok [arms, condition] ∧
    m.arrayItems arms = some [zeroItem, oneItem] ∧
    armNode m zeroItem = some zero ∧ armNode m oneItem = some one

/-- The spine of `function` read at a node, from the outermost selection inward: a node is a
selection, a self-application, or a base. -/
inductive Reads (m : Module P) (function : FunctionId) : NodeId → SpineTree → Prop where
  | step {arm apply : NodeId} (names : Names m arm apply)
      (applies : m.calleeFunction apply = some function) :
      Reads m function arm (.leaf (.step apply))
  | exit {arm : NodeId} (undivided : ∀ selection, ¬ Selects m arm selection)
      (base : ∀ target, Names m arm target → m.calleeFunction target ≠ some function) :
      Reads m function arm (.leaf (.exit arm))
  | test {arm selection condition zero one : NodeId} {zeroTree oneTree : SpineTree}
      (selects : Selects m arm selection) (conditional : Conditional m selection condition zero one)
      (onZero : Reads m function zero zeroTree) (onOne : Reads m function one oneTree) :
      Reads m function arm (.query condition zeroTree oneTree)

theorem selectionOf_of_callee (m : Module P) (node : NodeId) (function : FunctionId)
    (applies : m.calleeFunction node = some function) : m.selectionOf node = none := by
  cases found : m.selectionOf node with
  | none => rfl
  | some selection =>
    obtain ⟨operation, computes, index⟩ := m.operator_of_selectionOf node selection found
    simp [Module.calleeFunction, computes, index] at applies

variable {m : Module P}

theorem Names.unique {node first second : NodeId} (one : Names m node first)
    (two : Names m node second) (end_one : ∀ view, m.selectionOf first ≠ some (.views view))
    (end_two : ∀ view, m.selectionOf second ≠ some (.views view)) : first = second := by
  induction one with
  | here node =>
    cases two with
    | here => rfl
    | view reads _ => exact absurd reads (end_one _)
  | view reads names ih =>
    cases two with
    | here => exact absurd reads (end_two _)
    | view reads' names' =>
      rw [reads] at reads'
      cases reads'
      exact ih names' end_one

variable {function : FunctionId}

theorem Reads.base {arm : NodeId}
    (plain : m.selectionOf arm = none) (other : m.calleeFunction arm ≠ some function) :
    Reads m function arm (.leaf (.exit arm)) := by
  have alone : ∀ target, Names m arm target → target = arm := by
    intro target names
    cases names with
    | here => rfl
    | view reads _ => simp [plain] at reads
  refine .exit (fun selection selects => ?_) (fun target names => ?_)
  · have computed := selects.2
    rw [alone selection selects.1, plain] at computed
    cases computed
  · rw [alone target names]
    exact other

variable {tree : SpineTree}

theorem Reads.isQuery_iff {arm : NodeId} (reads : Reads m function arm tree) :
    DecisionTree.IsQuery tree ↔ ∃ selection, Selects m arm selection := by
  cases reads with
  | step names applies =>
    refine iff_of_false id ?_
    rintro ⟨selection, names', computed⟩
    have leaf := selectionOf_of_callee m _ function applies
    have same := names.unique names' (by simp [leaf]) (by simp [computed])
    rw [← same, leaf] at computed
    cases computed
  | exit undivided base => exact iff_of_false id fun ⟨selection, selects⟩ => undivided selection selects
  | test selects conditional onZero onOne => exact iff_of_true trivial ⟨_, selects⟩

section

variable (m : Module P) (fuel : Nat) (seen : List NodeId) (node resolved : NodeId)

theorem chase_names (computed : Bool) (stops : chase m fuel seen node = some (resolved, computed)) :
    Names m node resolved ∧ (computed → m.selectionOf resolved = some .computed) := by
  induction fuel generalizing seen node with
  | zero => simp [chase] at stops
  | succ fuel ih =>
    simp only [chase] at stops
    split at stops
    · cases stops
      exact ⟨.here _, nofun⟩
    · split at stops
      · next view reads =>
        obtain ⟨names, sound⟩ := ih _ view stops
        exact ⟨.view reads names, sound⟩
      · next found =>
        cases stops
        exact ⟨.here _, fun _ => found⟩
      · cases stops
        exact ⟨.here _, nofun⟩

/-- Where the chase stops without a selection, no node it passed names one; and what the
passed nodes name without being a view is the node it stopped at. -/
theorem chase_stops
    (passed : ∀ other ∈ seen, ∃ view, m.selectionOf other = some (.views view) ∧
      (view ∈ seen ∨ view = node)) (stops : chase m fuel seen node = some (resolved, false)) :
    ∀ other, other ∈ seen ∨ other = node → ∀ target, Names m other target →
      m.selectionOf target ≠ some .computed ∧ (m.selectionOf target = none → target = resolved) := by
  induction fuel generalizing seen node with
  | zero => simp [chase] at stops
  | succ fuel ih =>
    simp only [chase] at stops
    split at stops
    · -- The chase met a node again: the nodes it passed are all views of one another.
      next again =>
        intro other start target names
        have inside : other ∈ seen := by
          rcases start with member | rfl
          · exact member
          · exact again
        clear stops start
        induction names with
        | here other =>
          obtain ⟨view, reads, -⟩ := passed other inside
          simp [reads]
        | view reads names ih' =>
          obtain ⟨view', reads', closed⟩ := passed _ inside
          rw [reads] at reads'
          cases reads'
          refine ih' ?_
          rcases closed with member | rfl
          · exact member
          · exact again
    · split at stops
      · next fresh view reads =>
        have closed : ∀ other ∈ node :: seen, ∃ next, m.selectionOf other = some (.views next) ∧
            (next ∈ node :: seen ∨ next = view) := by
          intro other member
          rcases mem_cons.1 member with rfl | behind
          · exact ⟨view, reads, Or.inr rfl⟩
          · obtain ⟨next, reads', inside⟩ := passed other behind
            refine ⟨next, reads', Or.inl ?_⟩
            rcases inside with found | rfl
            · exact mem_cons_of_mem _ found
            · exact mem_cons_self
        intro other start
        refine ih _ view closed stops other (Or.inl ?_)
        rcases start with member | rfl
        · exact mem_cons_of_mem _ member
        · exact mem_cons_self
      · cases stops
      · next fresh ended =>
        cases stops
        intro other start target names
        induction names with
        | here other =>
          rcases start with member | rfl
          · obtain ⟨view, reads, -⟩ := passed other member
            simp [reads]
          · simp [ended]
        | view reads names ih' =>
          refine ih' ?_
          rcases start with member | rfl
          · obtain ⟨view', reads', inside⟩ := passed _ member
            rw [reads] at reads'
            cases reads'
            exact inside
          · rw [ended] at reads
            cases reads

end

/-- What each answer of `classify` says about the arm. -/
def Classifies (m : Module P) (function : FunctionId) (arm : NodeId) : Classified → Prop
  | .test selection => Selects m arm selection
  | .step apply => Names m arm apply ∧ m.calleeFunction apply = some function
  | .base value => value = arm ∧ (∀ selection, ¬ Selects m arm selection) ∧
      ∀ target, Names m arm target → m.calleeFunction target ≠ some function

theorem classify_spec (m : Module P) (function : FunctionId) (fuel : Nat) (arm : NodeId)
    (classified : Classified) (done : classify m function fuel arm = .done classified) :
    Classifies m function arm classified := by
  simp only [classify] at done
  split at done
  · cases done
  · next resolved stops =>
    cases done
    obtain ⟨names, sound⟩ := chase_names m fuel [] arm resolved true stops
    exact ⟨names, sound rfl⟩
  · next resolved stops =>
    have named := chase_names m fuel [] arm resolved false stops
    have ends := chase_stops m fuel [] arm resolved (by simp) stops arm (Or.inr rfl)
    split at done
    · next applies =>
      cases done
      exact ⟨named.1, applies⟩
    · next other =>
      split at done
      · cases done
      · cases done
      · cases done
        refine ⟨rfl, fun selection selects => (ends selection selects.1).1 selects.2, ?_⟩
        intro target names applies
        have same := (ends target names).2 (selectionOf_of_callee m target function applies)
        exact other (same ▸ applies)

/-- What a walk over one branch adds to the tables: the branch's steps and exits in spine
order, its rows behind the rows it found, and where the branch starts. -/
structure Records (tree : SpineTree) (before after : Spine) (arm : LoopArm) : Prop where
  steps : after.steps.map LoopStep.apply = before.steps.map LoopStep.apply ++ tree.stepLeaves
  exits : after.exits.map LoopExit.value = before.exits.map LoopExit.value ++ tree.exitLeaves
  tests : (arm.target, after.tests.map LoopTest.row) =
    (tree.number before.steps.length before.exits.length).layOut (before.tests.map LoopTest.row)

variable {before after : Spine}

section

variable {arm : LoopArm} (records : Records tree before after arm)

include records

theorem Records.step_count : after.steps.length = before.steps.length + tree.stepLeaves.length := by
  simpa using congrArg List.length records.steps

theorem Records.exit_count : after.exits.length = before.exits.length + tree.exitLeaves.length := by
  simpa using congrArg List.length records.exits

end

theorem Records.query {zeroTree oneTree : SpineTree} {middle : Spine}
    {onZero onOne : LoopArm} (condition : NodeId) (zero : Records zeroTree before middle onZero)
    (one : Records oneTree middle after onOne) :
    Records (.query condition zeroTree oneTree) before
      { after with tests := after.tests ++ [{ condition, onOne, onZero }] }
      (.test after.tests.length) := by
  refine ⟨?_, ?_, ?_⟩
  · simp only [one.steps, zero.steps, SpineTree.stepLeaves, append_assoc]
  · simp only [one.exits, zero.exits, SpineTree.exitLeaves, append_assoc]
  · have second := one.tests
    rw [zero.step_count, zero.exit_count] at second
    simp only [SpineTree.number, layOut, ← zero.tests, ← second, LoopArm.target,
      length_map, map_append, map_cons, map_nil, LoopTest.row]

theorem recordStep_spec (m : Module P) (apply : NodeId) (before after : Spine) (index : Nat)
    (done : recordStep m apply before = .done (index, after)) :
    Records (.leaf (.step apply)) before after (.step index) := by
  obtain ⟨operands, -, done⟩ := Outcome.andThen_eq_done.1 done
  split at done
  · cases done
  · obtain ⟨next, -, done⟩ := Outcome.andThen_eq_done.1 done
    split at done
    · cases done
    · cases done
      exact ⟨by simp [SpineTree.stepLeaves], by simp [SpineTree.exitLeaves],
        by simp [SpineTree.number, layOut, LoopArm.target]⟩

theorem recordExit_spec (value : NodeId) (before : Spine) :
    Records (.leaf (.exit value)) before (recordExit value before).2
      (.exit (recordExit value before).1) :=
  ⟨by simp [recordExit, SpineTree.stepLeaves], by simp [recordExit, SpineTree.exitLeaves],
    by simp [recordExit, SpineTree.number, layOut, LoopArm.target]⟩

/-- A walk that finishes has read a spine, and has recorded it. The induction is on the fuel,
a selection's walk and a branch's walk together. -/
theorem walk_records (m : Module P) (function : FunctionId) (fuel : Nat) :
    (∀ arm selection before after index, Selects m arm selection →
      walkTest m function fuel selection before = .done (index, after) →
        ∃ tree, Reads m function arm tree ∧ Records tree before after (.test index)) ∧
    (∀ arm before target after, walkArm m function fuel arm before = .done (target, after) →
      ∃ tree, Reads m function arm tree ∧ Records tree before after target) := by
  induction fuel with
  | zero =>
    refine ⟨?_, ?_⟩
    · intro arm selection before after index _ done
      simp [walkTest, Outcome.done] at done
    · intro arm before target after done
      simp [walkArm, Outcome.done] at done
  | succ fuel ih =>
    refine ⟨?_, ?_⟩
    · intro arm selection before after index selects done
      simp only [walkTest] at done
      split at done
      · cases done
      · next resolved flag stops =>
        have same : resolved = selection := by
          obtain ⟨fuel, rfl⟩ : ∃ less, fuel = less + 1 := by
            cases fuel with
            | zero => simp [chase] at stops
            | succ fuel => exact ⟨fuel, rfl⟩
          simp only [chase, selects.2] at stops
          simpa using congrArg Prod.fst (some.inj stops.symm)
        subst same
        obtain ⟨operands, reads, done⟩ := Outcome.andThen_eq_done.1 done
        split at done
        · next arms condition rest =>
          obtain ⟨items, array, done⟩ := Outcome.andThen_eq_done.1 done
          split at done
          · next zeroItem oneItem =>
            obtain ⟨zero, zero_arm, done⟩ := Outcome.andThen_eq_done.1 done
            obtain ⟨⟨onZero, middle⟩, zero_walk, done⟩ := Outcome.andThen_eq_done.1 done
            obtain ⟨one, one_arm, done⟩ := Outcome.andThen_eq_done.1 done
            obtain ⟨⟨onOne, late⟩, one_walk, done⟩ := Outcome.andThen_eq_done.1 done
            cases done
            obtain ⟨zeroTree, zero_reads, zero_records⟩ := ih.2 _ _ _ _ zero_walk
            obtain ⟨oneTree, one_reads, one_records⟩ := ih.2 _ _ _ _ one_walk
            have operands := Outcome.ofExcept_eq_done.1 reads
            obtain ⟨arms', condition', pair⟩ :=
              m.operandsOf_selection resolved _ selects.2 operands
            cases pair
            refine ⟨_, .test selects ⟨arms, zeroItem, oneItem, operands, ?_, ?_, ?_⟩
              zero_reads one_reads, zero_records.query condition one_records⟩
            · exact Outcome.ofOption_eq_done.1 array
            · exact Outcome.ofOption_eq_done.1 zero_arm
            · exact Outcome.ofOption_eq_done.1 one_arm
          · exact absurd done (Outcome.refuse_ne_done _ _)
        · cases done
    · intro arm before target after done
      obtain ⟨classified, known, done⟩ := Outcome.andThen_eq_done.1 (by simpa only [walkArm] using done)
      have spec := classify_spec m function fuel arm classified known
      cases classified with
      | test selection =>
        obtain ⟨⟨index, late⟩, walked, done⟩ := Outcome.andThen_eq_done.1 done
        cases done
        exact ih.1 arm selection before _ index spec walked
      | step apply =>
        obtain ⟨⟨index, late⟩, recorded, done⟩ := Outcome.andThen_eq_done.1 done
        cases done
        exact ⟨_, .step spec.1 spec.2, recordStep_spec m apply before _ index recorded⟩
      | base value =>
        cases done
        obtain ⟨rfl, undivided, base⟩ := spec
        exact ⟨_, .exit undivided base, recordExit_spec value before⟩

/-- The one leaf of `function`'s return value, where its spine starts. -/
def returnRoot (m : Module P) (function : FunctionId) : Option NodeId := do
  let entry ← m.functions.get function
  let value := (m.exprValueHalf entry.return).getD entry.return
  match m.valueLeaves value with
  | .ok [root] => some root
  | _ => none

/-- Neither arm of the selection the return names is itself a selection. -/
def SingleTest (m : Module P) (function : FunctionId) : Prop :=
  ∀ root selection condition zero one, returnRoot m function = some root →
    Selects m root selection → Conditional m selection condition zero one →
      (∀ nested, ¬ Selects m zero nested) ∧ (∀ nested, ¬ Selects m one nested)

/-- A walk that finishes with a step and an exit started at a selection. -/
theorem walk_spec (m : Module P) (function : FunctionId) (fuel : Nat) (spine : Spine)
    (done : walk m function fuel = .done spine) :
    ∃ root tree target, returnRoot m function = some root ∧ Reads m function root tree ∧
      DecisionTree.IsQuery tree ∧ Records tree {} spine target := by
  simp only [walk] at done
  split at done
  · cases done
  · next entry found =>
    obtain ⟨roots, leaves, done⟩ := Outcome.andThen_eq_done.1 done
    obtain ⟨walked, visited, done⟩ := Outcome.andThen_eq_done.1 done
    split at done
    · obtain ⟨_, -, done⟩ := Outcome.andThen_eq_done.1 done
      exact absurd done (Outcome.refuse_ne_done _ _)
    · next stepped =>
      split at done
      · exact absurd done (Outcome.refuse_ne_done _ _)
      · next exited =>
        obtain ⟨_, -, done⟩ := Outcome.andThen_eq_done.1 done
        cases done
        split at visited
        · next root =>
          obtain ⟨⟨target, late⟩, walk, done⟩ := Outcome.andThen_eq_done.1 visited
          cases done
          obtain ⟨tree, reads, records⟩ := (walk_records m function fuel).2 _ _ _ _ walk
          refine ⟨root, tree, target, ?_, reads, ?_, records⟩
          · have single := Outcome.ofExcept_eq_done.1 leaves
            simp [returnRoot, found, single]
          · -- A spine of one leaf lacks either a step or an exit.
            cases tree with
            | query condition zero one => trivial
            | leaf end' =>
              cases end' with
              | step apply =>
                have empty := records.exit_count
                simp [SpineTree.exitLeaves] at empty
                exact absurd empty exited
              | exit value =>
                have empty := records.step_count
                simp [SpineTree.stepLeaves] at empty
                exact absurd empty stepped
        · split at visited
          · cases visited
          · split at visited
            · exact absurd visited (Outcome.refuse_ne_done _ _)
            · cases visited
              exact absurd rfl stepped

theorem Conditional.unique {selection condition condition' zero zero' one one' : NodeId}
    (first : Conditional m selection condition zero one)
    (second : Conditional m selection condition' zero' one') :
    condition = condition' ∧ zero = zero' ∧ one = one' := by
  obtain ⟨arms, zeroItem, oneItem, operands, items, zero_arm, one_arm⟩ := first
  obtain ⟨arms', zeroItem', oneItem', operands', items', zero_arm', one_arm'⟩ := second
  rw [operands] at operands'
  cases operands'
  rw [items] at items'
  cases items'
  rw [zero_arm] at zero_arm'
  rw [one_arm] at one_arm'
  exact ⟨rfl, some.inj zero_arm', some.inj one_arm'⟩

theorem Reads.flat_iff {root : NodeId}
    (reads : Reads m function root tree) (start : returnRoot m function = some root)
    (nested : DecisionTree.IsQuery tree) : DecisionTree.Flat tree ↔ SingleTest m function := by
  cases reads with
  | step names applies | exit undivided base => exact absurd nested id
  | @test _ selection condition zero one zeroTree oneTree selects conditional onZero onOne =>
    simp only [DecisionTree.Flat, onZero.isQuery_iff, onOne.isQuery_iff, not_exists]
    constructor
    · intro flat root' selection' condition' zero' one' start' selects' conditional'
      rw [start] at start'
      cases start'
      have same := selects.1.unique selects'.1 (by simp [selects.2]) (by simp [selects'.2])
      subst same
      obtain ⟨-, rfl, rfl⟩ := conditional.unique conditional'
      exact flat
    · intro single
      exact single root selection condition zero one start selects conditional

end Spine

namespace LoopConversion

/-- The choice an assignment of the conditions makes: `1` for true and `0` for false. -/
def choiceOf (σ : NodeId → Bool) (node : NodeId) : Option Nat :=
  some (if σ node then 1 else 0)

section

variable (conversion : LoopConversion) (σ : NodeId → Bool)

theorem arm_iff_follow (fuel : Nat)
    (below : ∀ index occurrence, conversion.resolveFrom (choiceOf σ) fuel index =
        some (LoopLeaf.resolution occurrence) ↔
      follow (conversion.tests.map LoopTest.row) σ fuel (.row index) =
        some occurrence) (arm : LoopArm) (occurrence : LoopLeaf) :
    (match some arm with
      | none => some Resolution.unnamed
      | some (.test next) => resolveFrom conversion (choiceOf σ) fuel next
      | some (.step step) => some (.step step)
      | some (.exit exit) => some (.exit exit)) = some occurrence.resolution ↔
    follow (conversion.tests.map LoopTest.row) σ fuel arm.target =
      some occurrence := by
  cases arm with
  | test next => exact below next occurrence
  | step step | exit exit =>
    cases occurrence <;> cases fuel <;>
      simp [follow, LoopArm.target, LoopLeaf.resolution]

theorem resolveFrom_iff_follow (fuel index : Nat) (occurrence : LoopLeaf) :
    conversion.resolveFrom (choiceOf σ) fuel index = some occurrence.resolution ↔
      follow (conversion.tests.map LoopTest.row) σ fuel (.row index) =
        some occurrence := by
  induction fuel generalizing index occurrence with
  | zero => simp [resolveFrom, follow]
  | succ fuel ih =>
    simp only [resolveFrom, follow, getElem?_map]
    cases conversion.tests[index]? with
    | none => simp
    | some test =>
      have arm_iff := arm_iff_follow conversion σ fuel ih
      cases chosen : σ test.condition with
      | true =>
        simp only [choiceOf, chosen, if_true, map_some, LoopTest.row]
        exact arm_iff test.onOne occurrence
      | false =>
        simp only [choiceOf, chosen, Bool.false_eq_true, if_false, map_some, LoopTest.row]
        exact arm_iff test.onZero occurrence

end

end LoopConversion

open Spine in
/-- A converted recursion's tests, entered at the first, resolve to the step or exit its
return spine selects for every assignment of the conditions exactly when the spine has one
test. -/
theorem loop_resolves_as_spine_iff {P : Program} (m : Module P) (fuel : Nat)
    (function : FunctionId) (conversion : LoopConversion)
    (converts : m.loopConversion fuel function = .done conversion) :
    ∃ root tree, returnRoot m function = some root ∧ Reads m function root tree ∧
      conversion.steps.map LoopStep.apply = tree.stepLeaves ∧
      conversion.exits.map LoopExit.value = tree.exitLeaves ∧
      ((∀ σ, ∃ bound, conversion.resolve (LoopConversion.choiceOf σ) bound =
          some (tree.selected σ).resolution) ↔ SingleTest m function) := by
  simp only [Module.loopConversion] at converts
  split at converts
  · cases converts
  · split at converts
    · exact absurd converts (Outcome.refuse_ne_done _ _)
    · split at converts
      · exact absurd converts (Outcome.refuse_ne_done _ _)
      · obtain ⟨spine, walked, converts⟩ := Outcome.andThen_eq_done.1 converts
        obtain ⟨state, -, converts⟩ := Outcome.andThen_eq_done.1 converts
        cases converts
        obtain ⟨root, tree, target, start, reads, nested, records⟩ := walk_spec m function fuel _ walked
        refine ⟨root, tree, start, reads, by simpa using records.steps, by simpa using records.exits, ?_⟩
        have laid := congrArg Prod.snd records.tests
        simp only [map_nil, length_nil] at laid
        have ends_iff : ∀ σ, (∃ bound, LoopConversion.resolve
              { function, state, tests := spine.tests, steps := spine.steps, exits := spine.exits }
              (LoopConversion.choiceOf σ) bound = some (tree.selected σ).resolution) ↔
            DecisionTree.Ends ((tree.number 0 0).layOut []).2 σ (.row 0) ((tree.number 0 0).eval σ) := by
          intro σ
          simp only [LoopConversion.resolve, LoopConversion.resolveFrom_iff_follow, laid]
          rfl
        simp only [ends_iff]
        rw [← reads.flat_iff start nested]
        cases tree with
        | leaf end' => exact absurd nested id
        | query condition zero one =>
          have distinct := SpineTree.number_nodup (.query condition zero one) 0 0
          simp only [SpineTree.number] at distinct ⊢
          rw [first_row_reads_root_iff _ _ _ distinct]
          simp only [DecisionTree.Flat, SpineTree.number_isQuery]

/-- `@loop f p = if test₁ p then 10 else if test₂ p then 20 else f (next p)`. -/
def nestedLoop : Module plain where
  nodes := ⟨
    [ cell 1 none none, cell 2 none (some ⟨.low (.external 0 0), some ⟨1⟩⟩),
      cell 3 none (some ⟨.low (.external 0 1), some ⟨1⟩⟩),
      cell 4 (some (.low (.usize 10))) none,
      cell 5 (some (.low (.usize 20))) none,
      cell 6 none (some ⟨.low (.external 0 2), some ⟨1⟩⟩),
      cell 7 (some (.low (.function (.dynamic ⟨1⟩)))) none,
      cell 8 (some (tuple 0 [7, 6])) none,
      cell 9 none (some ⟨.low .apply, some ⟨8⟩⟩),
      cell 10 (some (tuple 1 [9, 5])) none,
      cell 11 (some (tuple 2 [10, 3])) none,
      cell 12 none (some ⟨.low .index, some ⟨11⟩⟩),
      cell 13 (some (tuple 3 [12, 4])) none,
      cell 14 (some (tuple 4 [13, 2])) none,
      cell 15 none (some ⟨.low .index, some ⟨14⟩⟩) ]⟩
  blocks := ⟨[some { parent := none, nodes := members, functions := [⟨1⟩] }]⟩
  functions := ⟨[some
    { nodes := members, «return» := ⟨15⟩, parameter := ⟨1⟩, block := ⟨1⟩, looping := some 0 }]⟩
where
  members : List NodeId := (List.range 15).map fun index => ⟨index + 1⟩
  tuple (address : Nat) (items : List Nat) : Value plain :=
    .low (.array { handle := .dynamic ⟨⟨1⟩, address, items.map fun n => { node := .dynamic ⟨n⟩ }⟩ })
  cell (index : Nat) (value : Option (Value plain))
      (operation : Option (Operation plain)) : Option (Node plain) :=
    some { value, operation, function := some ⟨1⟩, block := ⟨1⟩,
           equality := { tail := some ⟨index⟩, size := 1 } }

/-- The conversion of `nestedLoop`: the inner decision comes first. -/
def nestedConversion : LoopConversion where
  function := ⟨1⟩
  state := [[]]
  tests := [⟨⟨3⟩, .exit 0, .step 0⟩, ⟨⟨2⟩, .exit 1, .test 0⟩]
  steps := [⟨⟨9⟩, [⟨6⟩]⟩]
  exits := [⟨⟨5⟩⟩, ⟨⟨4⟩⟩]

theorem nestedLoop_converts : nestedLoop.loopConversion 40 ⟨1⟩ = Outcome.done nestedConversion := by
  rfl

/-- The spine of `nestedLoop`: the outer decision is node `2`. -/
def nestedSpine : SpineTree :=
  .query ⟨2⟩ (.query ⟨3⟩ (.leaf (.step ⟨9⟩)) (.leaf (.exit ⟨5⟩))) (.leaf (.exit ⟨4⟩))

theorem nestedLoop_reads : Spine.Reads nestedLoop ⟨1⟩ ⟨15⟩ nestedSpine := by
  refine .test ⟨.here _, rfl⟩ ⟨⟨13⟩, _, _, rfl, rfl, rfl, rfl⟩ ?_ (.base rfl (by decide))
  refine .test ⟨.here _, rfl⟩ ⟨⟨10⟩, _, _, rfl, rfl, rfl, rfl⟩ ?_ (.base rfl (by decide))
  exact .step (.here _) rfl

/-- The outer condition answers `1` and the spine selects the outer exit, but the first test
is the inner one: the iteration resolves to the step. -/
theorem nestedLoop_enters_inner_test :
    nestedLoop.loopConversion 40 ⟨1⟩ = Outcome.done nestedConversion ∧
      Spine.returnRoot nestedLoop ⟨1⟩ = some ⟨15⟩ ∧
      Spine.Reads nestedLoop ⟨1⟩ ⟨15⟩ nestedSpine ∧
      nestedSpine.selected (fun node => node = ⟨2⟩) = .exit 1 ∧
      nestedConversion.resolve (LoopConversion.choiceOf fun node => node = ⟨2⟩) 2 =
        some (.step 0) ∧
      nestedConversion.tests.head?.map LoopTest.condition = some ⟨3⟩ := by
  exact ⟨nestedLoop_converts, rfl, nestedLoop_reads, rfl, rfl, rfl⟩

theorem nestedLoop_resolves_as_spine_iff :
    ∃ root tree, Spine.returnRoot nestedLoop ⟨1⟩ = some root ∧
      Spine.Reads nestedLoop ⟨1⟩ root tree ∧
      nestedConversion.steps.map LoopStep.apply = tree.stepLeaves ∧
      nestedConversion.exits.map LoopExit.value = tree.exitLeaves ∧
      ((∀ σ, ∃ bound, nestedConversion.resolve (LoopConversion.choiceOf σ) bound =
          some (tree.selected σ).resolution) ↔ Spine.SingleTest nestedLoop ⟨1⟩) :=
  loop_resolves_as_spine_iff nestedLoop 40 ⟨1⟩ nestedConversion nestedLoop_converts

end LichenVm
