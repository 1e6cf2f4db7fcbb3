import LichenVm.Collect
import LichenVm.Functions

namespace LichenVm

open DisjointSet

/-- An evaluation's answer and the module left; `none` is a panic. -/
abbrev Evaluated (P : Program) := Option (Option (Value P) × Module P)

/-- The operation dispatch, run while the caller holds the node's mark. -/
abbrev Dispatch (P : Program) := Module P → NodeId → Evaluated P

namespace StaticNode

/-- The solved concreteness flag: `true` when never deep-passed. -/
def isUndecided {P : Program} (node : StaticNode P) : Bool :=
  node.evaluatedDeep.all EvaluatedDeep.undecided

end StaticNode

namespace Module

variable {P : Program}

def runStampIsSet (m : Module P) (node : NodeId) : Bool :=
  (m.nodes.get node).any Node.runned

def isVisiting (m : Module P) (node : NodeId) : Bool :=
  (m.nodes.get node).any Node.visiting

def setVisiting (m : Module P) (node : NodeId) (visiting : Bool) : Module P :=
  m.modifyNode node fun entry => { entry with visiting }

/-- Run `body` with the evaluation mark of `node` held. -/
def retainNode {α : Type} (m : Module P) (node : NodeId)
    (body : Module P → Option (α × Module P)) : Option (α × Module P) :=
  (body (m.setVisiting node true)).map fun (answer, m) => (answer, m.setVisiting node false)

/-- Evaluate the members of `node`'s class that still owe an answer, before `node` runs. A
member an outer frame computes is left to that frame. -/
def evaluateClassFirst (evaluate : Module P → NodeId → Evaluated P) (m : Module P)
    (node : NodeId) : Option (Module P) :=
  let (representative, m) := m.find node
  if (parentOf m.nodes representative).isNone ∧ (nextOf m.nodes representative).isNone then some m
  else if representative ∈ m.evaluatingClasses then some m
  else do
    let m := { m with evaluatingClasses := representative :: m.evaluatingClasses }
    let members := (m.membersOf representative).filter fun member =>
      member ≠ node ∧ m.hasNoResultYet member
    let m ← members.foldlM (fun m member =>
      if m.hasNoResultYet member && !m.isVisiting member then (evaluate m member).map Prod.snd
      else some m) m
    some { m with evaluatingClasses := m.evaluatingClasses.erase representative }

/-- Whether reading `node` ends its scope: a declared block at its root, an undeclared one at
any parent read. -/
def isScopeRootRead (m : Module P) (node : NodeId) (referer : Option BlockId) : Bool :=
  match (m.homeOf node).bind m.blocks.get with
  | none => false
  | some block =>
    match block.scopeRoot with
    | some root => root = node
    | none => referer.any fun referer => block.parent = some referer

/-- The value a run left in `node`'s slot: the wildcard answers no reader. -/
def answerOf (m : Module P) (node : NodeId) : Option (Value P) :=
  match m.nodeValue (.dynamic node) with
  | some (.low .any) => none
  | value => value

/-- The read of a node that ends no scope. -/
def evaluateHere (dispatch : Dispatch P) (evaluate : Module P → NodeId → Evaluated P)
    (node : NodeId) (m : Module P) : Evaluated P := do
  -- The class before the node runs, so unify's order cannot decide its answer.
  let m ←
    if m.hasNoResultYet node && !m.isVisiting node then m.evaluateClassFirst evaluate node
    else some m
  match m.nodeValue (.dynamic node) with
  | some (.low .any) => some (none, m)
  | some (.low .error) => some (some (.low .error), m)
  | some value =>
    if m.hasNoResultYet node && !m.isVisiting node then
      let (_, m) ← m.retainNode node fun m => dispatch m node
      some (m.answerOf node, m)
    else some (some value, m)
  | none =>
    if m.isVisiting node then
      -- A cyclic read, unless a class walk forced it.
      if m.evaluatingClasses.isEmpty then none else some (none, m)
    else if !m.hasNoResultYet node then some (none, m)
    else if m.runStampIsSet node then some (none, m)
    else m.retainNode node fun m => dispatch m node

/-- End a scope at its root's read, releasing it if the read decided its answer. -/
def evaluateBlock (evaluate : Module P → Evaluated P) (m : Module P) (root : NodeId) :
    Evaluated P := do
  let block ← m.homeOf root
  let (value, m) ← evaluate (m.modifyBlock block fun entry => { entry with scopeRoot := none })
  let decided :=
    match m.nodeValue (.dynamic root) with
    | some (.low .any) | none => false
    | some _ => true
  if decided then
    let (relocated, m) := m.garbageCollect root
    some (relocated.or value, m)
  else some (value, m.modifyBlock block fun entry => { entry with scopeRoot := some root })

/-- The read of a live node. Each nested class walk enters one more class, which the fuel
bounds. -/
def evaluateNodeBody (dispatch : Dispatch P) : Nat → Module P → NodeId → Option BlockId →
    Evaluated P
  | 0, _, _, _ => none
  | fuel + 1, m, node, referer =>
    let here := evaluateHere dispatch
      (fun m member => evaluateNodeBody dispatch fuel m member none) node
    if (m.nodes.get node).isNone then none
    else if m.isScopeRootRead node referer then m.evaluateBlock here node
    else here m

/-- Read a node, computing it if it owes its answer. A static ref is a decided leaf. -/
def evaluateNode (dispatch : Dispatch P) (m : Module P) (node : AnyNodeId)
    (referer : Option BlockId) : Evaluated P :=
  match node with
  | .dynamic node => evaluateNodeBody dispatch (m.nodeBound + 1) m node referer
  | .static sref => some (m.staticRead sref, m)

/-- The three-state concreteness read of one ref: a node a cycle cut re-entered while its own
frame computes it is assumed concrete, and one the pass never ran on reads undecided. A
released node panics in the source and reads undecided here. -/
def refIsUndecided (m : Module P) : AnyNodeId → Bool
  | .dynamic node =>
    match m.nodes.get node with
    | none => true
    | some entry =>
      match entry.evaluatedDeep with
      | some deep => deep.undecided
      | none => !entry.assumedConcrete
  | .static sref => (m.staticNode sref).all StaticNode.isUndecided

/-- Whether `value` is undecided: `none`, or an array or table with a shallow or undecided
position. A template position's verdict is not read. -/
def valueIsUndecided (m : Module P) : Option (Value P) → Bool
  | none => true
  | some (.low (.array array)) =>
    array.items.any ArrayItem.shallow ||
      array.items.any fun item => !item.template && m.refIsUndecided item.node
  | some (.low (.table table)) =>
    (table.items.any fun item => m.refIsUndecided item.key) ||
      table.items.any fun item => m.refIsUndecided item.value
  | some _ => false

/-- The positions the deep walk descends into: not a shallow one. -/
def deepEdges : Option (Value P) → List AnyNodeId
  | some (.low (.array array)) => (array.items.filter fun item => !item.shallow).map ArrayItem.node
  | some (.low (.table table)) => table.items.flatMap fun item => [item.key, item.value]
  | _ => []

/-- The descent into `value`, `node` marked for the duration. -/
def descendDeep (visit : Module P → AnyNodeId → Option BlockId → Evaluated P) (m : Module P)
    (node : NodeId) (value : Option (Value P)) : Option (Module P) :=
  match value with
  | some (.low (.array _)) | some (.low (.table _)) =>
    (m.retainNode node fun m =>
      let block := m.homeOf node
      ((deepEdges value).foldlM (fun m edge => (visit m edge block).map Prod.snd) m).map
        fun m => ((), m)).map Prod.snd
  | _ => some m

/-- A native entry cannot report undecided: an open operand keeps its answer open. -/
def operandIsUndecided (visit : Module P → AnyNodeId → Option BlockId → Evaluated P)
    (m : Module P) (node : NodeId) (current : Option BlockId) : Option (Bool × Module P) :=
  match m.nodeOperation node with
  | some { operator := .low (.external _ _), operand := some operand } =>
    (visit m (.dynamic operand) current).map fun (_, m) => (m.refIsUndecided (.dynamic operand), m)
  | _ => some (false, m)

def recordDepthExhausted (m : Module P) : Module P :=
  if m.budgetExhausted.isNone then
    { m with budgetExhausted := some (.evaluateDepth m.evaluateDepthLimit) }
  else m

/-- The cut of a structural cycle: the node is assumed concrete until its real verdict. -/
def assumeConcrete (m : Module P) (node : NodeId) : Module P :=
  m.modifyNode node fun entry => { entry with assumedConcrete := true }

/-- The real verdict supersedes the cycle-cut assumption. -/
def settleDeep (m : Module P) (node : NodeId) (undecided : Bool) : Module P :=
  m.modifyNode node fun entry =>
    { entry with evaluatedDeep := some { undecided }, assumedConcrete := false }

def enterDeep (m : Module P) : Module P := { m with deepDepth := m.deepDepth + 1 }

def leaveDeep (m : Module P) : Module P := { m with deepDepth := m.deepDepth - 1 }

/-- The deep walk's core. The fuel is one more than the depth budget left. -/
def evaluateNodeDeepInner (dispatch : Dispatch P) : Nat → Module P → AnyNodeId →
    Option BlockId → Evaluated P
  | _, m, .static sref, _ => some (m.staticRead sref, m)
  | 0, _, .dynamic _, _ => none
  | fuel + 1, m, .dynamic node, current => do
    let entry ← m.nodes.get node
    if !m.isScopeRootRead node current && !m.hasNoResultYet node &&
        entry.evaluatedDeep = some { undecided := false } && entry.value.isSome then
      some (entry.value, m)
    else if entry.visiting && entry.value.isSome then
      some (entry.value, m.assumeConcrete node)
    else if m.evaluateDepthLimit < m.deepDepth + 1 then
      some (some (.low .error), m.recordDepthExhausted)
    else if entry.value = some (.low .any) then
      -- A wildcard is decided content for the verdict.
      some (entry.value, m.modifyNode node fun entry =>
        { entry with evaluatedDeep := some { undecided := false } })
    else do
      let (value, m) ← m.enterDeep.evaluateNode dispatch (.dynamic node) current
      let m ← m.descendDeep (evaluateNodeDeepInner dispatch fuel) node value
      let (operandUndecided, m) ←
        m.operandIsUndecided (evaluateNodeDeepInner dispatch fuel) node current
      let m := m.settleDeep node (operandUndecided || m.valueIsUndecided value)
      some (value, m.leaveDeep)

/-- Evaluate every node in the reachable subtree of `node`: the only deep walk. -/
def evaluateNodeDeep (dispatch : Dispatch P) (m : Module P) (node : NodeId)
    (current : Option BlockId) : Evaluated P :=
  evaluateNodeDeepInner dispatch (m.evaluateDepthLimit - m.deepDepth + 1) m (.dynamic node) current

end Module

end LichenVm
