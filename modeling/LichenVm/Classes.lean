import LichenVm.Module

namespace LichenVm

open DisjointSet LexicalScope

/-- The low type a concrete value's tag states: only a scalar states one. -/
def observedLowShape {P : Program} : Value P → Option LowShape
  | .low (.usize _) => some .usize
  | .low (.float _) => some .float
  | _ => none

namespace Module

variable {P : Program}

/-- Rewrite a live node in place. Naming a dead node panics in the source and changes
nothing here. -/
def modifyNode (m : Module P) (node : NodeId) (f : Node P → Node P) : Module P :=
  { m with nodes := m.nodes.modify node f }

def modifyFunction (m : Module P) (function : FunctionId) (f : Function → Function) : Module P :=
  { m with functions := m.functions.modify function f }

def modifyBlock (m : Module P) (block : BlockId) (f : Block → Block) : Module P :=
  { m with blocks := m.blocks.modify block f }

/-- The union-find representative of `node`, with path compression. -/
def find (m : Module P) (node : NodeId) : NodeId × Module P :=
  let (root, nodes) := DisjointSet.find m.nodeBound m.nodes node
  (root, { m with nodes })

/-- The members of the class headed by `root`, in list order. -/
def membersOf (m : Module P) (root : NodeId) : List NodeId :=
  membersFrom m.nodeBound m.nodes root

/-- Refine `node`'s class low type: a class's shape is stated once. -/
def refineClassLowType (m : Module P) (node : NodeId) (shape : LowShape) : Module P :=
  let root := m.classRoot node
  match m.nodes.get root with
  | none => m
  | some entry =>
    match entry.lowShape with
    | none => m.modifyNode root fun entry => { entry with lowShape := some shape }
    | some _ => m

/-- Refine `node`'s class low type from a concrete value's top-level tag. -/
def observeClassLowType (m : Module P) (node : NodeId) (value : Value P) : Module P :=
  match observedLowShape value with
  | none => m
  | some shape => m.refineClassLowType node shape

/-- The one value-slot assignment. -/
def setNodeValue (m : Module P) (node : NodeId) (value : Option (Value P)) : Module P :=
  m.modifyNode node fun entry => { entry with value }

/-- Give `value` to every member of `representative`'s class that holds nothing. -/
def fillClassHoles (m : Module P) (representative : NodeId) (value : Value P) : Module P :=
  (m.membersOf representative).foldl (fun m member =>
    m.modifyNode member fun entry =>
      if entry.value.isNone then { entry with value := some value } else entry) m

/-- Give `value` to every member of `representative`'s class. -/
def propagateClassValue (m : Module P) (representative : NodeId) (value : Value P) : Module P :=
  (m.membersOf representative).foldl (fun m member => m.setNodeValue member (some value)) m

/-- Write `value` onto `node`, then give its whole class that value. -/
def writeNodeValue (m : Module P) (node : NodeId) (value : Option (Value P)) : Module P :=
  let m := m.setNodeValue node value
  match value with
  | none => m
  | some value =>
    -- A lone representative has nobody to distribute to.
    if (parentOf m.nodes node).isNone ∧ (nextOf m.nodes node).isNone then m
    else
      let (representative, m) := m.find node
      (m.propagateClassValue representative value).observeClassLowType representative value

/-- `writeNodeValue` for a writer that must not claim an occupied slot. -/
def writeNodeValueIfAbsent (m : Module P) (node : NodeId) (value : Option (Value P)) : Module P :=
  if ((m.nodes.get node).bind Node.value).isSome then m else m.writeNodeValue node value

def functionScope (m : Module P) (function : FunctionId) : Option (Scope FunctionId) :=
  (m.functions.get function).bind Function.scope

/-- The scope the node's owner names, or `none` for the virtual root. -/
def ownerScope (m : Module P) (node : NodeId) : Option (Scope FunctionId) :=
  ((m.nodes.get node).bind Node.function).bind m.functionScope

def setScopeSummary (m : Module P) (node : NodeId) (summary : Option (Scope FunctionId)) : Module P :=
  m.modifyNode node fun entry => { entry with scopeSummary := summary }

def classScopeSummary (m : Module P) (node : NodeId) : Option (Scope FunctionId) :=
  (m.nodes.get (m.classRoot node)).bind Node.scopeSummary

/-- Recompute the class's summary from its members; the one writer of it. -/
def refreshClassSummary (m : Module P) (node : NodeId) : Module P :=
  let (root, m) := m.find node
  if (nextOf m.nodes root).isNone then m.setScopeSummary root (m.ownerScope root)
  else m.setScopeSummary root (foldSummary ((m.membersOf root).map m.ownerScope))

/-- The one write of a node's owner tag. -/
def setNodeOwner (m : Module P) (node : NodeId) (owner : Option FunctionId) : Module P :=
  (m.modifyNode node fun entry => { entry with function := owner }).refreshClassSummary node

/-- Merge two classes' scope summaries; the write side of a union. -/
def mergeClassSummaries (m : Module P) (left right representative : NodeId) : Module P :=
  let summaryOf (node : NodeId) := (m.nodes.get node).bind Node.scopeSummary
  m.setScopeSummary representative (mergeSummaries (summaryOf left) (summaryOf right))

/-- A class that holds a value has no holes: before a union the valueless side fills. -/
def fillAcross (m : Module P) (a b rootA rootB : NodeId) : Module P :=
  match (m.nodes.get a).bind Node.value, (m.nodes.get b).bind Node.value with
  | none, some value => m.fillClassHoles rootA value
  | some value, none => m.fillClassHoles rootB value
  | _, _ => m

/-- Merge the classes of `a` and `b`, then give the merged class its one value. -/
def addEquality (m : Module P) (a b : NodeId) : NodeId × Module P :=
  let (rootA, m) := m.find a
  let (rootB, m) := m.find b
  let left := (m.nodes.get rootA).bind Node.lowShape
  let right := (m.nodes.get rootB).bind Node.lowShape
  let m := m.fillAcross a b rootA rootB
  let (representative, nodes) := union m.nodeBound m.nodes rootA rootB
  let m := { m with nodes }
  let m := m.mergeClassSummaries rootA rootB representative
  let m := (left.toList ++ right.toList).foldl
    (fun m shape => m.refineClassLowType representative shape) m
  (representative, m)

end Module

end LichenVm
