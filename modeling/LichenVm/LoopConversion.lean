import LichenVm.Resolve

namespace LichenVm

/-- Why a marked recursion is not convertible. -/
inductive LoopRefusal where
  | notRecursive
  | mutualComponent (size : Nat)
  | nonTailCall
  | noBaseCase
  | stateShape
  deriving DecidableEq

/-- Where one outcome of a `LoopTest` goes. -/
inductive LoopArm where
  | test (index : Nat)
  | step (index : Nat)
  | exit (index : Nat)
  deriving DecidableEq

/-- One decision of the spine: `1` continues at `onOne`, `0` at `onZero`. -/
structure LoopTest where
  condition : NodeId
  onOne : LoopArm
  onZero : LoopArm
  deriving DecidableEq

/-- One tail self-application, and the next state in slot order. -/
structure LoopStep where
  apply : NodeId
  next : List NodeId
  deriving DecidableEq

/-- One base case: the branch's result as a value. -/
structure LoopExit where
  value : NodeId
  deriving DecidableEq

/-- What a convertible recursion converts to, as nodes of the function's template. -/
structure LoopConversion where
  function : FunctionId
  state : List (List Nat)
  tests : List LoopTest
  steps : List LoopStep
  exits : List LoopExit
  deriving DecidableEq

/-- What a walk over a template answers: a result or a refusal. `none` is a walk the fuel
does not finish, or one the source panics on. -/
abbrev Outcome (α : Type) := Option (Except LoopRefusal α)

namespace Outcome

variable {α β : Type}

def done (value : α) : Outcome α := some (.ok value)

def refuse (reason : LoopRefusal) : Outcome α := some (.error reason)

def andThen (first : Outcome α) (next : α → Outcome β) : Outcome β :=
  match first with
  | none => none
  | some (.error reason) => some (.error reason)
  | some (.ok value) => next value

/-- A read of the graph that refuses for `reason` when it has no answer. -/
def ofOption (reason : LoopRefusal) : Option α → Outcome α
  | none => refuse reason
  | some value => done value

/-- A read whose error text the walk replaces by `reason`. -/
def ofExcept {ε : Type} (reason : LoopRefusal) : Except ε α → Outcome α
  | .error _ => refuse reason
  | .ok value => done value

theorem andThen_eq_done {first : Outcome α} {next : α → Outcome β} {result : β} :
    first.andThen next = done result ↔ ∃ value, first = done value ∧ next value = done result := by
  match first with
  | none => simp [andThen, done]
  | some (.error reason) => simp [andThen, done]
  | some (.ok value) => simp [andThen, done]

theorem ofOption_eq_done {reason : LoopRefusal} {read : Option α} {value : α} :
    ofOption reason read = done value ↔ read = some value := by
  cases read <;> simp [ofOption, done, refuse]

theorem ofExcept_eq_done {ε : Type} {reason : LoopRefusal} {read : Except ε α} {value : α} :
    ofExcept reason read = done value ↔ read = .ok value := by
  cases read <;> simp [ofExcept, done, refuse]

theorem refuse_ne_done (reason : LoopRefusal) (value : α) : refuse reason ≠ done value := by
  simp [refuse, done]

end Outcome

namespace Module

variable {P : Program}

/-- The state positions a collected peel chain names, or `none` for a slot's type or
attribute read. The chain is outermost-first. -/
def statePath (collected : List Nat) : Option (List Nat) :=
  let rec positions : Bool → List Nat → Option (List Nat)
    | _, [] => some []
    | true, position :: rest => if position ≠ 0 then none else positions false rest
    | false, position :: rest => (positions true rest).map (position :: ·)
  positions false collected.reverse

/-- The state path a read of the marked slot names. -/
def markedStatePath (m : Module P) (function : FunctionId) (node : NodeId) (slot : Nat) :
    Option (List Nat) := do
  let entry ← m.functions.get function
  let rec peel : Nat → NodeId → List Nat → Option (List Nat)
    | 0, _, _ => none
    | steps + 1, current, collected => do
      let operation ← m.nodeOperation current
      if operation.operator.asLow ≠ some .index then none
      else
        let operands ← (m.operandsOf current).toOption
        let target ← operands[0]?
        let selector ← operands[1]?
        let position ← m.usizeValue (.dynamic selector)
        if target = entry.parameter then
          if position ≠ slot then none else statePath collected
        else peel steps target (collected ++ [position])
  peel 16 node []

def parameterValuePath (m : Module P) (function : FunctionId) (node : NodeId) :
    Option (List Nat) :=
  match m.functions.get function with
  | none => none
  | some entry =>
    let marked := entry.looping.bind fun slot => m.markedStatePath function node slot
    match marked with
    | some path => some path
    | none =>
      let valueCell := (m.exprValueHalf entry.parameter).getD entry.parameter
      peel (m.classRoot valueCell) 16 node [] false
where
  peel (valueClass : NodeId) : Nat → NodeId → List Nat → Bool → Option (List Nat)
    | 0, _, _, _ => none
    | steps + 1, current, path, followed =>
      if m.classRoot current = valueClass then statePath path
      else
        match m.nodeOperation current with
        | none =>
          -- A clone's chain ends at this instantiation's parameter: one origin hop.
          match m.nodeOrigin current with
          | none => none
          | some origin =>
            if followed ∨ origin = current then none else peel valueClass steps origin path true
        | some operation =>
          if operation.operator.asLow ≠ some .index then none
          else do
            let operand ← operation.operand
            let items ← (m.operandItems operand).toOption
            let first ← items[0]?
            let target ← first.node.dynamic?
            let second ← items[1]?
            let position ← m.readPosition second.node
            peel valueClass steps target (path ++ [position]) followed

/-- The function `node` applies, when it is an `apply` whose callee's value is a function of
this module. -/
def calleeFunction (m : Module P) (node : NodeId) : Option FunctionId :=
  match m.nodeOperation node with
  | none => none
  | some operation =>
    if operation.operator.asLow ≠ some .apply then none
    else
      match (m.operandsOf node).toOption.bind List.head? with
      | none => none
      | some callee =>
        let own := m.nodeValue (.dynamic callee)
        match own.or (m.classValue callee) with
        | some (.low (.function (.dynamic f))) => some f
        | _ => none

/-- Whether `h` is `g` or a closure nested in it. -/
def nestedIn (m : Module P) (g : FunctionId) : Nat → FunctionId → Option Bool
  | 0, _ => none
  | fuel + 1, h =>
    if h = g then some true
    else
      match (m.functions.get h).bind Function.parent with
      | none => some false
      | some owner => m.nestedIn g fuel owner

/-- The template nodes of `g` and of the closures nested in it. -/
def templateSubtree (m : Module P) (fuel : Nat) (g : FunctionId) : Option (List NodeId) := do
  let parts ← m.functions.keys.mapM fun h => do
    let nested ← m.nestedIn g fuel h
    let nodes := ((m.functions.get h).map Function.nodes).getD []
    pure (if nested then nodes else [])
  pure parts.flatten

/-- The marked functions `g`'s template subtree applies to. -/
def markedCalleesOf (m : Module P) (fuel : Nat) (g : FunctionId) : Option (List FunctionId) := do
  let nodes ← m.templateSubtree fuel g
  let callees := nodes.filterMap m.calleeFunction
  pure (callees.filter fun callee =>
    ((m.functions.get callee).bind Function.looping).isSome).eraseDups

/-- The functions the marked call graph reaches from the stack. -/
def reachable (m : Module P) : Nat → List FunctionId → List FunctionId → Option (List FunctionId)
  | _, seen, [] => some seen
  | 0, _, _ :: _ => none
  | fuel + 1, seen, g :: stack =>
    if g ∈ seen then m.reachable fuel seen stack
    else do
      let callees ← m.markedCalleesOf fuel g
      let seen := seen ++ [g]
      m.reachable fuel seen ((callees.filter (· ∉ seen)).reverse ++ stack)

/-- The marked component `function` belongs to. -/
def loopComponent (m : Module P) (fuel : Nat) (function : FunctionId) :
    Option (List FunctionId) := do
  let forward ← m.reachable fuel [] [function]
  forward.filterM fun g => do
    let back ← m.reachable fuel [] [g]
    pure (decide (function ∈ back))

/-- Whether a self-application of `function` is reachable from the stack through operands
and array values. -/
def subtreeApplies (m : Module P) (function : FunctionId) :
    Nat → List NodeId → List NodeId → Option Bool
  | _, _, [] => some false
  | 0, _, _ :: _ => none
  | fuel + 1, seen, current :: stack =>
    if current ∈ seen then m.subtreeApplies function fuel seen stack
    else if m.calleeFunction current = some function then some true
    else
      let operands := ((m.operandsOf current).toOption).getD []
      let items := ((m.arrayItems current).getD []).filterMap fun item => item.node.dynamic?
      m.subtreeApplies function fuel (current :: seen)
        (items.reverse ++ (operands.reverse ++ stack))

/-- Validate every parameter read reachable from the stack against the state. The flag says
whether a read by element was met. -/
def checkReads (m : Module P) (function : FunctionId) (arity : Nat) :
    Nat → List NodeId → List (NodeId × Bool) → Bool → Outcome Bool
  | _, _, [], tuple => .done tuple
  | 0, _, _ :: _, _ => none
  | fuel + 1, seen, (node, structural) :: stack, tuple =>
    if node ∈ seen then m.checkReads function arity fuel seen stack tuple
    else
      match m.parameterValuePath function node with
      | some [] =>
        if ¬ structural ∧ (tuple ∨ arity ≠ 1) then .refuse .stateShape
        else m.checkReads function arity fuel (node :: seen) stack tuple
      | some [k] =>
        if k ≥ arity then .refuse .stateShape
        else m.checkReads function arity fuel (node :: seen) stack true
      | some _ => .refuse .stateShape
      | none =>
        let operands := ((m.operandsOf node).toOption).getD []
        let items := ((m.arrayItems node).getD []).filterMap fun item => item.node.dynamic?
        -- A value's own items are its encoding, not a use of the state.
        m.checkReads function arity fuel (node :: seen)
          ((items.map (·, true)).reverse ++ ((operands.map (·, false)).reverse ++ stack)) tuple

end Module

/-- What `classify` resolved one branch to. -/
inductive Classified where
  | test (selection : NodeId)
  | step (apply : NodeId)
  | base (value : NodeId)
  deriving DecidableEq

/-- The tables a spine walk fills. -/
structure Spine where
  tests : List LoopTest := []
  steps : List LoopStep := []
  exits : List LoopExit := []
  deriving DecidableEq

namespace Spine

variable {P : Program}

/-- Follow views from `node` until a selection, a node that is neither, or a node met
before: the node the loop stops at, and whether it is a selection. -/
def chase (m : Module P) : Nat → List NodeId → NodeId → Option (NodeId × Bool)
  | 0, _, _ => none
  | fuel + 1, seen, node =>
    if node ∈ seen then some (node, false)
    else
      match m.selectionOf node with
      | some (.views view) => chase m fuel (node :: seen) view
      | some .computed => some (node, true)
      | none => some (node, false)

/-- What a spine node is. A base keeps the arm's own node. -/
def classify (m : Module P) (function : FunctionId) (fuel : Nat) (arm : NodeId) :
    Outcome Classified :=
  match chase m fuel [] arm with
  | none => none
  | some (resolved, true) => .done (.test resolved)
  | some (resolved, false) =>
    if m.calleeFunction resolved = some function then .done (.step resolved)
    else
      match m.subtreeApplies function fuel [] [resolved] with
      | none => none
      | some true => .refuse .nonTailCall
      | some false => .done (.base arm)

/-- A step's next state: the call's argument's elements, each a scalar cell. -/
def recordStep (m : Module P) (apply : NodeId) (spine : Spine) : Outcome (Nat × Spine) :=
  (Outcome.ofExcept .stateShape (m.operandsOf apply)).andThen fun operands =>
  match operands[1]? with
  | none => none
  | some argument =>
    let value := (m.exprValueHalf argument).getD argument
    let next : Outcome (List NodeId) :=
      match m.arrayItems value with
      | some items => Outcome.ofOption .stateShape <| items.mapM fun item =>
        ((m.elementValueNode item.node).getD item.node).dynamic?
      | none => .done [value]
    next.andThen fun next =>
    if next.any fun element =>
        match m.structuralValue element with
        | some (.array _) | some (.function _) | some (.table _) => true
        | _ => false
    then .refuse .stateShape
    else .done (spine.steps.length, { spine with steps := spine.steps ++ [{ apply, next }] })

/-- An arm of a selection is its element's value position. -/
def armNode (m : Module P) (item : ArrayItem) : Option NodeId :=
  (m.elementValueNode item.node).bind AnyNodeId.dynamic?

/-- A base case: the branch's value half. -/
def recordExit (value : NodeId) (spine : Spine) : Nat × Spine :=
  (spine.exits.length, { spine with exits := spine.exits ++ [{ value }] })

mutual

/-- One selection of the spine: walk both arms, then record its test. -/
def walkTest (m : Module P) (function : FunctionId) (fuel : Nat) (selection : NodeId)
    (spine : Spine) : Outcome (Nat × Spine) :=
  match fuel with
  | 0 => none
  | fuel + 1 =>
    -- A view is not a conditional: the test is what the view names.
    match chase m fuel [] selection with
    | none => none
    | some (selection, _) =>
      (Outcome.ofExcept .stateShape (m.operandsOf selection)).andThen fun operands =>
      match operands with
      | arms :: condition :: _ =>
        (Outcome.ofOption .stateShape (m.arrayItems arms)).andThen fun items =>
        match items with
        | [zero, one] =>
          (Outcome.ofOption .stateShape (armNode m zero)).andThen fun zero =>
          (walkArm m function fuel zero spine).andThen fun (onZero, spine) =>
          (Outcome.ofOption .stateShape (armNode m one)).andThen fun one =>
          (walkArm m function fuel one spine).andThen fun (onOne, spine) =>
          .done (spine.tests.length,
            { spine with tests := spine.tests ++ [{ condition, onOne, onZero }] })
        | _ => .refuse .stateShape
      | _ => none

/-- One branch of the spine: a base, a step, or a nested test. -/
def walkArm (m : Module P) (function : FunctionId) (fuel : Nat) (arm : NodeId)
    (spine : Spine) : Outcome (LoopArm × Spine) :=
  match fuel with
  | 0 => none
  | fuel + 1 =>
    (classify m function fuel arm).andThen fun
      | .test selection =>
        (walkTest m function fuel selection spine).andThen fun (index, spine) =>
        .done (.test index, spine)
      | .step apply =>
        (recordStep m apply spine).andThen fun (index, spine) => .done (.step index, spine)
      | .base value =>
        let (index, spine) := recordExit value spine
        .done (.exit index, spine)

end

/-- The tail-position rule: every self-application in the subtree is one of the steps. -/
def complete (m : Module P) (function : FunctionId) (fuel : Nat) (spine : Spine) : Outcome Unit :=
  match m.templateSubtree fuel function with
  | none => none
  | some nodes =>
    if nodes.any fun node => m.calleeFunction node = some function ∧
        node ∉ spine.steps.map LoopStep.apply
    then .refuse .nonTailCall
    else .done ()

/-- Walk the return value's spine. -/
def walk (m : Module P) (function : FunctionId) (fuel : Nat) : Outcome Spine :=
  match m.functions.get function with
  | none => none
  | some entry =>
    let value := (m.exprValueHalf entry.return).getD entry.return
    (Outcome.ofExcept .stateShape (m.valueLeaves value)).andThen fun roots =>
    let walked : Outcome Spine :=
      match roots with
      | [root] => (walkArm m function fuel root {}).andThen fun (_, spine) => .done spine
      | _ =>
        -- A tuple-bodied return: a recursion hiding in an element is not the spine's.
        match roots.mapM fun root => m.subtreeApplies function fuel [] [root] with
        | none => none
        | some applies => if true ∈ applies then .refuse .nonTailCall else .done {}
    walked.andThen fun spine =>
    if spine.steps = [] then
      (complete m function fuel spine).andThen fun _ => .refuse .notRecursive
    else if spine.exits = [] then .refuse .noBaseCase
    else (complete m function fuel spine).andThen fun _ => .done spine

/-- The carried state, from how the steps and the reads see it. -/
def state (m : Module P) (function : FunctionId) (fuel : Nat) (spine : Spine) :
    Outcome (List (List Nat)) :=
  match spine.steps with
  | [] => none
  | first :: _ =>
    let arity := first.next.length
    if spine.steps.any fun step => step.next.length ≠ arity then .refuse .stateShape
    else
      let roots := spine.tests.map LoopTest.condition ++ spine.steps.flatMap LoopStep.next ++
        spine.exits.map LoopExit.value
      let read : Outcome Bool := roots.foldl
        (fun read root => Outcome.andThen read fun tuple =>
          m.checkReads function arity fuel [] [(root, false)] tuple)
        (Outcome.done false)
      read.andThen fun tuple =>
      if tuple then .done ((List.range arity).map fun k => [k])
      else if arity ≠ 1 then .refuse .stateShape
      else .done [[]]

end Spine

namespace Module

variable {P : Program}

/-- Whether `function`'s marked recursion is convertible, and what it converts to. -/
def loopConversion (m : Module P) (fuel : Nat) (function : FunctionId) : Outcome LoopConversion :=
  match m.loopComponent fuel function with
  | none => none
  | some component =>
    if function ∉ component then .refuse .notRecursive
    else if component.length > 1 then .refuse (.mutualComponent component.length)
    else
      (Spine.walk m function fuel).andThen fun spine =>
      (spine.state m function fuel).andThen fun state =>
      .done { function, state, tests := spine.tests, steps := spine.steps, exits := spine.exits }

end Module

/-- How one iteration of the host loop resolves its tests. -/
inductive Resolution where
  | step (index : Nat)
  | exit (index : Nat)
  | unnamed
  | undecided
  deriving DecidableEq

namespace LoopConversion

/-- The tests of one iteration from `index` on. `choice` is what the evaluator answers for a
condition: `none` when it is not an index. The fuel bounds the tests passed. -/
def resolveFrom (conversion : LoopConversion) (choice : NodeId → Option Nat) :
    Nat → Nat → Option Resolution
  | 0, _ => none
  | fuel + 1, index =>
    match conversion.tests[index]? with
    | none => none
    | some test =>
      match choice test.condition with
      | none => some .undecided
      | some picked =>
        let arm := match picked with
          | 0 => some test.onZero
          | 1 => some test.onOne
          | _ => none
        match arm with
        | none => some .unnamed
        | some (.test next) => resolveFrom conversion choice fuel next
        | some (.step step) => some (.step step)
        | some (.exit exit) => some (.exit exit)

/-- One iteration enters the tests at the first. -/
def resolve (conversion : LoopConversion) (choice : NodeId → Option Nat) (fuel : Nat) :
    Option Resolution :=
  conversion.resolveFrom choice fuel 0

end LoopConversion

end LichenVm
