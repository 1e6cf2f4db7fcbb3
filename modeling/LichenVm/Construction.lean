import LichenVm.Classes
import Mathlib.Data.List.Sort

namespace LichenVm

open DisjointSet LexicalScope

namespace Module

variable {P : Program}

def addBlock (m : Module P) (parent : Option BlockId) : BlockId × Module P :=
  let block := m.blocks.nextKey
  let m := { m with blocks := m.blocks.insert { parent } }
  let m := match parent with
    | none => m
    | some parent => m.modifyBlock parent fun entry =>
      { entry with children := entry.children ++ [block] }
  (block, m)

/-- Copy `items` into `block`'s arena and return the payload's handle. -/
def allocArray (m : Module P) (items : List ArrayItem) (block : BlockId) :
    AnyHandle ArrayItem × Module P :=
  let address := ((m.blocks.get block).map Block.arena).getD 0
  (.dynamic { block, address, items }, m.modifyBlock block fun entry =>
    { entry with arena := entry.arena + 1 })

/-- Copy `items` into `block`'s arena and return the payload's handle. -/
def allocTable (m : Module P) (items : List TableItem) (block : BlockId) :
    AnyHandle TableItem × Module P :=
  let address := ((m.blocks.get block).map Block.arena).getD 0
  (.dynamic { block, address, items }, m.modifyBlock block fun entry =>
    { entry with arena := entry.arena + 1 })

/-- Copy `value` into `block`'s arena; only a handle-carrying value relocates. -/
def copyExt (m : Module P) (value : P.Ext) (block : BlockId) : P.Ext × Module P :=
  match P.handle value with
  | none => (value, m)
  | some old =>
    let address := ((m.blocks.get block).map Block.arena).getD 0
    (P.setHandle value (.dynamic { block, address, items := old.items }),
      m.modifyBlock block fun entry => { entry with arena := entry.arena + 1 })

def addNode (m : Module P) (block : BlockId) (operation : Option (Operation P))
    (value : Option (Value P)) : NodeId × Module P :=
  let node := m.nodes.nextKey
  let nodes := m.nodes.insert { value, operation, depth := min m.stampDepth 65535, block }
  let m := { m with nodes := makeSet nodes node }
  let m := m.modifyBlock block fun entry => { entry with nodes := entry.nodes ++ [node] }
  let m := match value with
    | none => m
    | some value => m.observeClassLowType node value
  (node, m)

/-- Create a function template's shell. A scope nested past a `u32` panics: `none`. -/
def beginFunction (m : Module P) (block : BlockId) (parent : Option FunctionId) :
    Option (FunctionId × Module P) :=
  let function := m.functions.nextKey
  let m := { m with functions := m.functions.insert { parent, block } }
  (Scope.child function (parent.bind m.functionScope)).map fun scope =>
    let m := m.modifyFunction function fun entry => { entry with scope := some scope }
    let m := m.modifyBlock block fun entry => { entry with functions := entry.functions ++ [function] }
    (function, m)

/-- Register `node` in `function`'s scope: tag it as owned and list it. -/
def registerInFunction (m : Module P) (function : FunctionId) (node : NodeId) : Module P :=
  (m.setNodeOwner node (some function)).modifyFunction function fun entry =>
    { entry with nodes := entry.nodes ++ [node] }

/-- The functions whose scope hangs under `function`'s, nearest first. -/
def scopeDescendants (m : Module P) (function : FunctionId) : List FunctionId :=
  match m.functionScope function with
  | none => []
  | some root =>
    let descendants := m.functions.keys.filterMap fun candidate =>
      if candidate = function then none
      else (m.functionScope candidate).bind fun scope =>
        if root.isAncestorOrSelf scope then some (scope.depth, candidate) else none
    (descendants.insertionSort fun a b => a.1 ≤ b.1).map Prod.snd

/-- Hang `function`'s scope under its parent's scope. -/
def rehang (m : Module P) (function : FunctionId) : Option (Module P) :=
  let parent := (m.functions.get function).bind Function.parent
  (Scope.child function (parent.bind m.functionScope)).map fun scope =>
    m.modifyFunction function fun entry => { entry with scope := some scope }

/-- Rebuild every class's scope summary from its members' owners. -/
def refreshAllClassSummaries (m : Module P) : Module P :=
  let representatives := m.nodes.keys.filter fun node => (parentOf m.nodes node).isNone
  representatives.foldl refreshClassSummary m

/-- Re-home `function` under another parent: the scope tree under it moves with it, and
every class summary is rebuilt. -/
def setFunctionParent (m : Module P) (function : FunctionId) (parent : Option FunctionId) :
    Option (Module P) := do
  let moved := m.scopeDescendants function
  let m := m.modifyFunction function fun entry => { entry with parent }
  let m ← m.rehang function
  let m ← moved.foldlM rehang m
  pure m.refreshAllClassSummaries

end Module

end LichenVm
