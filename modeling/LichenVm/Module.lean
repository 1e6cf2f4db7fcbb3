import LichenVm.AssocMap
import LichenVm.DisjointSet
import LichenVm.LexicalScope
import LichenVm.Value

namespace LichenVm

open DisjointSet LexicalScope

/-- An operator plus its one operand. -/
structure Operation (P : Program) where
  operator : Operator P
  operand : Option NodeId
  deriving DecidableEq

structure StaticOperation (P : Program) where
  operator : Operator P
  operand : Option LocalNodeId
  deriving DecidableEq

/-- The deep pass's verdict on one node. -/
structure EvaluatedDeep where
  undecided : Bool
  deriving DecidableEq

/-- A node. The union-find alone writes `equality`. -/
structure Node (P : Program) where
  value : Option (Value P) := none
  runned : Bool := false
  lowShape : Option LowShape := none
  operation : Option (Operation P) := none
  function : Option FunctionId := none
  scopeSummary : Option (Scope FunctionId) := none
  origin : Option NodeId := none
  depth : Nat := 0
  block : BlockId
  visiting : Bool := false
  evaluatedDeep : Option EvaluatedDeep := none
  assumedConcrete : Bool := false
  equality : Meta NodeId := {}

/-- A garbage-collection unit. `arena` counts the payloads its arena holds: the next
allocation's address. -/
structure Block where
  arena : Nat := 0
  parent : Option BlockId
  children : List BlockId := []
  nodes : List NodeId := []
  functions : List FunctionId := []
  scopeRoot : Option NodeId := none

/-- The top-level function shell. -/
structure Function where
  nodes : List NodeId := []
  «return» : NodeId := default
  parameter : NodeId := default
  returnType : NodeId := default
  staticOrigin : Option StaticFunctionRef := none
  template : Option FunctionId := none
  parent : Option FunctionId := none
  scope : Option (Scope FunctionId) := none
  asserts : List NodeId := []
  block : BlockId
  looping : Option Nat := none

structure StaticNode (P : Program) where
  value : Option (Value P) := none
  lowShape : Option LowShape := none
  operation : Option (StaticOperation P) := none
  equality : Meta LocalNodeId := {}
  owner : Option StaticFunctionId := none
  runned : Bool := false
  evaluatedDeep : Option EvaluatedDeep := none

structure StaticFunction where
  parameter : LocalNodeId
  «return» : LocalNodeId
  returnType : LocalNodeId
  origin : Option StaticFunctionRef := none
  asserts : List LocalNodeId := []
  nodes : List LocalNodeId := []
  openCaptures : Bool := false
  parent : Option StaticFunctionId := none

/-- A fully-solved module frozen into an immutable, shareable form. -/
structure StaticModule (P : Program) where
  key : ModuleKey
  nodes : List (StaticNode P)
  functions : List StaticFunction
  applyResultOwners : AssocMap LocalNodeId LocalNodeId := {}
  fieldSources : AssocMap LocalNodeId LocalNodeId := {}
  attributeLayouts : List (List Nat) := [[]]
  defaultAttributes : Option (StaticHandle ArrayItem) := none
  readOnly : Bool := false
  scopes : List (Option (Scope StaticFunctionId)) := []
  scopeSummaries : List (Option (Scope StaticFunctionId)) := []

/-- One entry of the registry: a registered static module plus per-key state. -/
structure Package (P : Program) where
  module : StaticModule P
  hash : List UInt8
  refs : List ModuleKey

/-- The device's module registry. -/
structure Registry (P : Program) where
  entries : AssocMap ModuleKey (Package P) := {}

/-- One failed-unification step. -/
structure UnifyStep where
  index : Nat
  a : NodeId
  b : NodeId
  deriving DecidableEq

structure UnifyError (P : Program) where
  rootA : NodeId
  rootB : NodeId
  steps : List UnifyStep
  a : NodeId
  b : NodeId
  valueA : Option (Value P)
  valueB : Option (Value P)
  deriving DecidableEq

/-- A runtime evaluation failure. -/
inductive EvalError where
  | index (index : AnyNodeId) (indexValue length : Nat)
  | tableMiss (table key : AnyNodeId)
  | tableKeyUndecided (key : AnyNodeId)
  | indexTarget (target : AnyNodeId)
  | indexSubscript (subscript : AnyNodeId)
  | applyTarget (function : AnyNodeId)
  deriving DecidableEq

/-- A failed assert: the condition resolved to a value other than `usize 1`. -/
structure AssertError (P : Program) where
  condition : NodeId
  template : AnyNodeId
  value : Value P
  deriving DecidableEq

/-- One worklist entry: the condition, beside the body condition it came from. -/
structure PendingAssert where
  condition : NodeId
  template : AnyNodeId
  deriving DecidableEq

/-- A failed apply-time parameter check. -/
structure ApplyError where
  function : AnyFunctionId
  parameterType : NodeId
  argumentType : NodeId
  argument : NodeId
  applyNode : NodeId
  errorIndex : Nat
  deriving DecidableEq

/-- Which evaluation budget a module exhausted, and its limit. -/
inductive BudgetExhausted where
  | applyDepth (limit : Nat)
  | evaluateDepth (limit : Nat)
  deriving DecidableEq

def MAX_DEEP_DEPTH : Nat := 300000

structure Module (P : Program) where
  registry : Registry P := {}
  nodes : SlotMap NodeTag (Node P) := {}
  blocks : SlotMap BlockTag Block := {}
  functions : SlotMap FunctionTag Function := {}
  applyResultOwners : AssocMap NodeId NodeId := {}
  fieldSources : AssocMap NodeId NodeId := {}
  constructorBindings : AssocMap AnyFunctionId AnyFunctionId := {}
  cloneParameters : AssocMap NodeId (NodeId × NodeId) := {}
  parameterImages : AssocMap NodeId NodeId := {}
  pendingProjections : AssocMap NodeId (List NodeId) := {}
  requirements : AssocMap NodeId AnyFunctionId := {}
  replayApplied : AssocMap NodeId NodeId := {}
  replayParameters : AssocMap NodeId NodeId := {}
  evaluateDepthLimit : Nat := MAX_DEEP_DEPTH
  budgetExhausted : Option BudgetExhausted := none
  unifyErrors : List (UnifyError P) := []
  evalErrors : List EvalError := []
  asserts : List PendingAssert := []
  assertErrors : List (AssertError P) := []
  applyErrors : List ApplyError := []
  stampDepth : Nat := 0
  deepDepth : Nat := 0
  evaluatingClasses : List NodeId := []
  attributeLayouts : List (List Nat) := [[]]
  defaultAttributes : Option (AnyHandle ArrayItem) := none

/-- The union-find's view of a node table: each live node's metadata. -/
instance (P : Program) : LinkTable (SlotMap NodeTag (Node P)) NodeId where
  links nodes key := (nodes.get key).map Node.equality
  modifyLinks nodes key f := nodes.modify key fun node => { node with equality := f node.equality }

instance (P : Program) : LawfulLinkTable (SlotMap NodeTag (Node P)) NodeId where
  links_modifyLinks nodes key other f := by
    simp only [links, modifyLinks, SlotMap.get_modify]
    split
    · cases nodes.get other <;> rfl
    · rfl

namespace Registry

variable {P : Program}

/-- The registered module behind a device key; `none` means no such key. -/
def get (registry : Registry P) (key : ModuleKey) : Option (Package P) :=
  registry.entries.get key

end Registry

namespace StaticModule

variable {P : Program}

/-- The node's solved value, or `none` when it has no cached answer. -/
def read (m : StaticModule P) (node : LocalNodeId) : Option (Value P) :=
  m.nodes[node.index]?.bind StaticNode.value

end StaticModule

namespace Module

variable {P : Program}

/-- The static module behind `key`. A key that is not registered panics: `none` here. -/
def staticModule (m : Module P) (key : ModuleKey) : Option (StaticModule P) :=
  (m.registry.get key).map Package.module

/-- Read a static node's solved value verbatim. -/
def staticRead (m : Module P) (sref : StaticNodeId) : Option (Value P) :=
  (m.staticModule sref.module).bind fun home => home.read sref.index

/-- The raw value behind `id`, with no evaluation. A released dynamic node reads `none`. -/
def nodeValue (m : Module P) : AnyNodeId → Option (Value P)
  | .dynamic node => (m.nodes.get node).bind Node.value
  | .static sref => m.staticRead sref

def nodeOperation (m : Module P) (node : NodeId) : Option (Operation P) :=
  (m.nodes.get node).bind Node.operation

/-- The node `node` is attributed through, `none` when not a clone. -/
def nodeOrigin (m : Module P) (node : NodeId) : Option NodeId :=
  (m.nodes.get node).bind Node.origin

/-- Whether `node`'s operator owes an answer. -/
def hasNoResultYet (m : Module P) (node : NodeId) : Bool :=
  match m.nodes.get node with
  | some entry => entry.operation.isSome && (entry.value.isNone || !entry.runned)
  | none => false

/-- The steps a walk along parent links of this module's nodes can take. -/
def nodeBound (m : Module P) : Nat := m.nodes.slots.length

/-- The union-find representative of `node`, without path compression. -/
def classRoot (m : Module P) (node : NodeId) : NodeId :=
  climb m.nodes m.nodeBound node

/-- The value the node's class holds, read through the representative. -/
def classValue (m : Module P) (node : NodeId) : Option (Value P) :=
  (m.nodes.get (m.classRoot node)).bind Node.value

def arrayItems (m : Module P) (node : NodeId) : Option (List ArrayItem) :=
  match (m.nodes.get node).bind Node.value with
  | some (.low (.array array)) => some array.items
  | _ => none

end Module

end LichenVm
