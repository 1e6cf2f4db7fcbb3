import LichenVm.KernelFragment

/-! The launch graph: kernel dispatches in evaluation order, and the edges between them. -/

namespace LichenVm.GraphIr

open KernelIr (ScalarClass KernelFragment)

/-- One value of a graph, by its position in the value table. -/
abbrev ValueId := Nat

/-- One launch scalar, at its leaf's own class. -/
structure ScalarLeaf where
  stated : ScalarClass
  bits : Int
  deriving DecidableEq

/-- One runtime scalar a dispatch fixes beside its extent. -/
inductive Scalar where
  | constant (leaf : ScalarLeaf)
  | value (id : ValueId)
  deriving DecidableEq

/-- The extent of a dispatch. -/
inductive Count where
  | constant (count : Nat)
  | value (id : ValueId)
  | device (value : ValueId) (index : Nat)
  deriving DecidableEq

/-- A dispatch over the buffers its inputs resolve to. -/
structure KernelNode where
  fragment : KernelFragment
  inputs : List ValueId
  count : Count
  scalars : List Scalar := []

/-- Why a graph is not built, or not run. -/
inductive GraphRefusal where
  | runArity (wanted got : Nat)
  | returnAlreadyRecorded (recorded : Nat)
  | outputCount (node declared claimed : Nat)
  | edgeBeforeItsProducer (node : Nat) (value : ValueId) (defined : Nat)
  | inputArity (node wanted got : Nat)
  | unknownValue (node : Option Nat) (value : ValueId)
  | notBufferData (node : Nat) (value : ValueId) (found : String)
  | countNotANumber (node : Nat) (value : ValueId) (found : String)
  | countNegative (number : Int)
  | extentNotADevice (node : Nat) (value : ValueId) (found : String)
  | scalarArity (node wanted got : Nat)
  | scalarNotANumber (node : Nat) (value : ValueId) (found : String)
  | scalarClassMismatch (node : Nat) (value : ValueId) (leaf found : ScalarClass)
  deriving DecidableEq

/-- Nodes in evaluation order, over the values the graph takes and those its nodes produce. -/
structure Graph where
  nodes : List KernelNode := []
  inputs : Nat
  values : Nat
  returns : Option (List ValueId) := none

namespace Graph

def withInputs (inputs : Nat) : Graph where
  inputs
  values := inputs

/-- Append a node, and name the first value that it produces. -/
def push (graph : Graph) (node : KernelNode) (outputs : Nat) : Except GraphRefusal (ValueId × Graph) :=
  if node.fragment.outputs ≠ outputs then
    .error (.outputCount graph.nodes.length node.fragment.outputs outputs)
  else match node.inputs.find? fun value => graph.values ≤ value with
    | some bad => .error (.edgeBeforeItsProducer graph.nodes.length bad graph.values)
    | none => .ok (graph.values,
        { graph with nodes := graph.nodes ++ [node], values := graph.values + outputs })

/-- Record which values the source function returns. -/
def returning (graph : Graph) (values : List ValueId) : Except GraphRefusal Graph :=
  match graph.returns with
  | some recorded => .error (.returnAlreadyRecorded recorded.length)
  | none =>
    match values.find? fun value => graph.values ≤ value with
    | some bad => .error (.unknownValue none bad)
    | none => .ok { graph with returns := some values }

/-- Whether a node may be appended: what `push` asks of its edges. -/
def Reads (defined : Nat) (node : KernelNode) : Prop := ∀ value ∈ node.inputs, value < defined

theorem push_inv {graph after : Graph} {node : KernelNode} {outputs first : Nat}
    (pushed : graph.push node outputs = .ok (first, after)) :
    node.fragment.outputs = outputs ∧ Reads graph.values node ∧ first = graph.values ∧
      after = { graph with nodes := graph.nodes ++ [node], values := graph.values + outputs } := by
  unfold push at pushed
  split at pushed
  · cases pushed
  · rename_i same
    split at pushed
    · cases pushed
    · rename_i inside
      cases pushed
      refine ⟨not_not.1 same, fun value member => ?_, rfl, rfl⟩
      have bound := List.find?_eq_none.1 inside value member
      rw [decide_eq_true_eq] at bound
      exact Nat.not_le.1 bound

end Graph

/-- A graph whose edges name values before them, and whose return names its values: what its own
recording builds. -/
structure Graph.Formed (graph : Graph) : Prop where
  values : graph.values = graph.inputs + (graph.nodes.map fun node => node.fragment.outputs).sum
  reads : ∀ index node, graph.nodes[index]? = some node → Graph.Reads
    (graph.inputs + ((graph.nodes.take index).map fun node => node.fragment.outputs).sum) node
  returns : ∀ returned, graph.returns = some returned → ∀ value ∈ returned, value < graph.values

end LichenVm.GraphIr
