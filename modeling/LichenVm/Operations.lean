import LichenVm.Tables

namespace LichenVm

namespace Module

variable {P : Program}

/-- Commit an attempt through the one value-write path. An undecided answer is not cached: the run
stamp records that it ran. -/
def commitAnswer (m : Module P) (node : NodeId) (value : Option (Value P)) : Evaluated P :=
  match value with
  | none => m.ranUndecided node
  | some value => (m.writeNodeAnswer node value).map fun m => (some value, m)

def evalFailure (m : Module P) (error : EvalError) : Evaluated P :=
  some (some (.low .error), { m with evalErrors := m.evalErrors ++ [error] })

/-- The read of an array's element: a reader already in the element's class has its answer, and one
that reads an undecided element joins its class. -/
def readElement (dispatch : Dispatch P) (m : Module P) (node : NodeId) (block : BlockId) :
    AnyNodeId → Evaluated P
  | .static sref => some (m.staticRead sref, m)
  | .dynamic element => do
    let (theirs, m) := m.find element
    let (ours, m) := m.find node
    if theirs = ours then
      let (representative, m) := m.find node
      some (m.answerOf representative, m)
    else
      let (value, m) ← m.evaluateNode dispatch (.dynamic element) (some block)
      match value with
      | some value => some (some value, m)
      | none => (m.aliasRead dispatch node element).map fun m => (none, m)

/-- The attempt of an index: its operand is the array `[target, subscript]`. -/
def evaluateIndex (dispatch : Dispatch P) (m : Module P) (node : NodeId) : Evaluated P := do
  let entry ← m.nodes.get node
  let operands ← entry.operation.bind Operation.operand
  let (operand, m) ← m.evaluateNode dispatch (.dynamic operands) (some entry.block)
  match operand with
  | none => some (none, m)
  | some (.low (.array array)) => do
    let target ← array.items[0]?
    let subscript ← array.items[1]?
    let (index, m) ← m.evaluateNode dispatch subscript.node (some entry.block)
    match index with
    | none => some (none, m)
    | some (.low .error) => some (some (.low .error), m)
    | some (.low (.usize index)) => do
      let (container, m) ← m.evaluateNode dispatch target.node (some entry.block)
      match container with
      | none => some (none, m)
      | some (.low .error) => some (some (.low .error), m)
      | some (.low (.array array)) =>
        match array.items[index]? with
        | some element => m.readElement dispatch node entry.block element.node
        | none => m.evalFailure (.index subscript.node index array.items.length)
      | some _ => m.evalFailure (.indexTarget target.node)
    | some _ => m.evalFailure (.indexSubscript subscript.node)
  | some _ => none

/-- The value a deferred unification compares from: an expr's value half is computed first. -/
def unifyActual (dispatch : Dispatch P) (m : Module P) (block : BlockId) (actual : AnyNodeId) :
    Evaluated P :=
  match actual.dynamic?.bind m.exprValueHalf with
  | some slot => do
    let (value, m) ← m.evaluateNode dispatch (.dynamic slot) (some block)
    if value.isNone then some (none, m) else some (m.nodeValue actual, m)
  | none => m.evaluateNode dispatch actual (some block)

/-- The attempt of a deferred unification: its operand is the array `[actual, expected]`. -/
def evaluateUnify (dispatch : Dispatch P) (m : Module P) (node : NodeId) : Evaluated P := do
  let entry ← m.nodes.get node
  let operands ← entry.operation.bind Operation.operand
  let (operand, m) ← m.evaluateNode dispatch (.dynamic operands) (some entry.block)
  match operand with
  | none => some (none, m)
  | some (.low (.array array)) => do
    let first ← array.items[0]?
    let second ← array.items[1]?
    let (actual, m) ← m.unifyActual dispatch entry.block first.node
    match actual with
    | none => some (none, m)
    | some actual => do
      let (expected, m) ← m.evaluateNode dispatch second.node (some entry.block)
      match expected with
      | none => some (none, m)
      | some _ => do
        let (_, unified) ← m.unifyRef first.node second.node
        if unified.unifyErrors.length = m.unifyErrors.length then some (some actual, unified)
        else some (some (.low .error), unified)
  | some _ => none

/-- A table read and its commit. An undecided key leaves the node unstamped, and an unhashable one
leaves its slot empty: both return before the commit. -/
def runTableGet (dispatch : Dispatch P) (m : Module P) (node : NodeId) : Evaluated P := do
  let entry ← m.nodes.get node
  let operands ← entry.operation.bind Operation.operand
  let (operand, m) ← m.evaluateNode dispatch (.dynamic operands) (some entry.block)
  match operand with
  | none => m.ranUndecided node
  | some (.low (.array array)) => do
    let table ← array.items[0]?
    let key ← array.items[1]?
    let (target, m) ← m.evaluateNode dispatch table.node (some entry.block)
    match target with
    | none => m.ranUndecided node
    | some (.low (.table payload)) => do
      let (state, m) ← m.keyState dispatch key.node
      match state with
      | .undecided => some (none, m)
      | .unhashable => m.tableMiss table.node key.node
      | .hashed hash => do
        let found ← m.searchTable payload.items key.node hash
        let (value, m) ← m.finishTableGet dispatch node found entry.block
        m.commitAnswer node value
    | some (.low .error) => do
      let (value, m) ← m.tableMiss table.node key.node
      m.commitAnswer node value
    | _ => none
  | _ => none

/-- One attempt of a node's operator, and its commit. `calls` attempts the operators that call out:
applies, externals and the program's own. -/
def evaluateNodeOperation (calls dispatch : Dispatch P) : Dispatch P := fun m node => do
  let entry ← m.nodes.get node
  let operation ← entry.operation
  match operation.operator with
  | .low .tableGet => m.runTableGet dispatch node
  | .low .index => do
    let (value, m) ← m.evaluateIndex dispatch node
    m.commitAnswer node value
  | .low .unify => do
    let (value, m) ← m.evaluateUnify dispatch node
    m.commitAnswer node value
  | _ => do
    let (value, m) ← calls m node
    m.commitAnswer node value

/-- The dispatch an evaluation runs with. The fuel bounds the nesting of attempts. -/
def dispatchWith (calls : Dispatch P) : Nat → Dispatch P
  | 0 => fun _ _ => none
  | fuel + 1 => evaluateNodeOperation calls (dispatchWith calls fuel)

end Module

end LichenVm
