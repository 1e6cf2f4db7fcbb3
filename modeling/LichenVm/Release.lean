import LichenVm.Construction

namespace LichenVm

open DisjointSet LexicalScope

namespace Module

variable {P : Program}

def homeOf (m : Module P) (node : NodeId) : Option BlockId :=
  (m.nodes.get node).map Node.block

/-- Whether `node` still names a live node; a static ref is in no block. -/
def refIsLive (m : Module P) : AnyNodeId → Bool
  | .dynamic node => m.nodes.containsKey node
  | .static _ => true

/-- The members of a class that do not go with `dropped`. -/
def survivorsOf (m : Module P) (dropped : BlockId) (members : List NodeId) : List NodeId :=
  members.filter fun member => m.homeOf member ≠ some dropped

/-- Splice every member homed in `dropped` out of the class headed by `rep` and re-elect a
representative. -/
def flattenClass (m : Module P) (dropped : BlockId) (rep : NodeId) : Module P :=
  let lowShape := (m.nodes.get rep).bind Node.lowShape
  let survivors := m.survivorsOf dropped (m.membersOf rep)
  let m := { m with nodes := rebuild m.nodes survivors }
  match survivors with
  | [] => m
  | representative :: _ =>
    let m := m.refreshClassSummary representative
    let m := match survivors.findSome? fun member => (m.nodes.get member).bind Node.value with
      | none => m
      | some value => m.fillClassHoles representative value
    match lowShape with
    | none => m
    | some shape => m.refineClassLowType representative shape

/-- Whether a recorded failure's context still names live nodes only. -/
def unifyErrorIsLive (m : Module P) (error : UnifyError P) : Bool :=
  m.nodes.containsKey error.rootA && m.nodes.containsKey error.rootB &&
    m.nodes.containsKey error.a && m.nodes.containsKey error.b &&
    error.steps.all fun step => m.nodes.containsKey step.a && m.nodes.containsKey step.b

def evalErrorIsLive (m : Module P) : EvalError → Bool
  | .index index _ _ => m.refIsLive index
  | .tableMiss table key => m.refIsLive table && m.refIsLive key
  | .tableKeyUndecided key => m.refIsLive key
  | .indexTarget target => m.refIsLive target
  | .indexSubscript subscript => m.refIsLive subscript
  | .applyTarget function => m.refIsLive function

/-- Drop every recorded failure whose context no longer names a live node. -/
def pruneReleasedFailures (m : Module P) : Module P :=
  { m with
    unifyErrors := m.unifyErrors.filter m.unifyErrorIsLive
    evalErrors := m.evalErrors.filter m.evalErrorIsLive
    assertErrors := m.assertErrors.filter fun error =>
      m.nodes.containsKey error.condition && m.refIsLive error.template
    applyErrors := m.applyErrors.filter fun error =>
      m.nodes.containsKey error.parameterType && m.nodes.containsKey error.argumentType &&
        m.nodes.containsKey error.argument && m.nodes.containsKey error.applyNode }

/-- Refresh the class of a node that is homed outside `block`. -/
def refreshOutside (block : BlockId) (m : Module P) (node : NodeId) : Module P :=
  match m.homeOf node with
  | some home => if home ≠ block then m.refreshClassSummary node else m
  | none => m

/-- Remove a function homed in `block`. The nodes it lists outside the block are refreshed
once the record is gone. -/
def releaseFunction (block : BlockId) (m : Module P) (function : FunctionId) : Module P :=
  match m.functions.get function with
  | none => m
  | some entry =>
    if entry.block ≠ block then m
    else entry.nodes.foldl (refreshOutside block) { m with functions := m.functions.remove function }

/-- Remove every function homed in `block`. -/
def releaseFunctions (m : Module P) (block : BlockId) : Module P :=
  let functions := ((m.blocks.get block).map Block.functions).getD []
  let m := m.modifyBlock block fun entry => { entry with functions := [] }
  functions.foldl (releaseFunction block) m

/-- The representatives of the classes with a member homed in `block`. -/
def touchedClasses (m : Module P) (block : BlockId) : List NodeId → List NodeId × Module P
  | [] => ([], m)
  | node :: rest =>
    if m.homeOf node = some block then
      let (representative, m) := m.find node
      let (touched, m) := touchedClasses m block rest
      (touched.insert representative, m)
    else touchedClasses m block rest

def removeHomed (block : BlockId) (m : Module P) (node : NodeId) : Module P :=
  if m.homeOf node = some block then { m with nodes := m.nodes.remove node } else m

/-- Remove every node homed in `block`, its classes spliced first. -/
def releaseNodes (m : Module P) (block : BlockId) : Module P :=
  let nodes := ((m.blocks.get block).map Block.nodes).getD []
  let m := m.modifyBlock block fun entry => { entry with nodes := [] }
  let (touched, m) := m.touchedClasses block nodes
  let m := touched.foldl (fun m rep => m.flattenClass block rep) m
  nodes.foldl (removeHomed block) m

/-- Drop what `block` itself homes, its children already gone. -/
def releaseBlock (m : Module P) (block : BlockId) : Module P :=
  let m := (m.releaseFunctions block).releaseNodes block
  let m := { m with asserts := m.asserts.filter fun entry => m.nodes.containsKey entry.condition }
  let m := m.pruneReleasedFailures
  { m with blocks := m.blocks.remove block }

/-- Take the children of a block. -/
def openBlock (m : Module P) (block : BlockId) : Module P :=
  m.modifyBlock block fun entry => { entry with children := [] }

/-- Drop `block` and everything homed in it. The fuel bounds the nesting of blocks. -/
def dropBlockWith (fuel : Nat) (m : Module P) (block : BlockId) : Module P :=
  match fuel with
  | 0 => m
  | fuel + 1 =>
    let children := ((m.blocks.get block).map Block.children).getD []
    let m := children.foldl (fun m child =>
      if m.blocks.containsKey child then dropBlockWith fuel m child else m) (m.openBlock block)
    m.releaseBlock block

/-- Drop `block` and everything homed in it: children, functions, nodes. -/
def dropBlock (m : Module P) (block : BlockId) : Module P :=
  dropBlockWith (m.blocks.slots.length + 1) m block

end Module

end LichenVm
