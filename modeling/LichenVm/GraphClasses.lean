import LichenVm.LaunchGraph

/-! The element classes of a graph's values, stated along the chain of values that a run hands over. -/

namespace LichenVm

namespace KernelIr

namespace ScalarClass

/-- Whether an element of this class is a real number. -/
def isReal : ScalarClass → Bool
  | int => false
  | float | bFloat16 => true

/-- The class a real buffer has once the fragment states another: an integer buffer keeps its own. -/
def restated (stated held : ScalarClass) : ScalarClass := if held.isReal then stated else held

theorem restated_of_real {stated held : ScalarClass} (real : held.isReal) :
    restated stated held = stated := if_pos real

theorem restated_of_int {stated held : ScalarClass} (integer : ¬ held.isReal) :
    restated stated held = held := if_neg integer

end ScalarClass

/-- Which of a fragment's buffers an access names. -/
inductive BufferSide where
  | input
  | output
  deriving DecidableEq

namespace KernelInstr

/-- The side and the class of the buffer that the instruction accesses. -/
def access : KernelInstr → Option (BufferSide × ScalarClass)
  | bufferReadCall stated => some (.input, stated)
  | outputReadCall stated | bufferWriteCall stated | bufferAtomicAddCall stated =>
    some (.output, stated)
  | _ => none

/-- Whether a change of class moves this access. -/
def moves : KernelInstr → Bool
  | bufferReadCall _ | bufferWriteCall _ => true
  | _ => false

/-- The access at another class. -/
def statesTheClass (stated : ScalarClass) : KernelInstr → KernelInstr
  | bufferReadCall held => bufferReadCall (ScalarClass.restated stated held)
  | bufferWriteCall held => bufferWriteCall (ScalarClass.restated stated held)
  | other => other

end KernelInstr

def ValueDef.statesTheClass (stated : ScalarClass) : ValueDef → ValueDef
  | .instr op args classes => .instr (op.statesTheClass stated) args classes
  | other => other

/-- The buffer an access names: its first operand, a constant. -/
def KernelBody.position (body : KernelBody) (args : List ValueId) : Option Nat :=
  args.head?.bind fun named =>
    match body.values[named]? with
    | some (.instr (.const _ bits) _ _) => some bits.toNat
    | _ => none

namespace KernelFragment

/-- State one element class for every real buffer this fragment touches. -/
def statesTheClass (fragment : KernelFragment) (stated : ScalarClass) : KernelFragment :=
  if stated.isReal then
    { fragment with
      inputClasses := fragment.inputClasses.map (ScalarClass.restated stated)
      outputClasses := fragment.outputClasses.map (ScalarClass.restated stated)
      body := { fragment.body with
        values := fragment.body.values.map (ValueDef.statesTheClass stated) } }
  else fragment

def bufferClasses (fragment : KernelFragment) : BufferSide → List ScalarClass
  | .input => fragment.inputClasses
  | .output => fragment.outputClasses

/-- Every access states the class of the very buffer that its position names. -/
def NamesItsClasses (fragment : KernelFragment) : Prop :=
  ∀ op args classes, ValueDef.instr op args classes ∈ fragment.body.values →
    ∀ side stated, op.access = some (side, stated) →
      ∀ position, fragment.body.position args = some position →
        ∀ declared, (fragment.bufferClasses side)[position]? = some declared → stated = declared

/-- A fragment as the lowering leaves it: a class for every output, and accesses that name theirs. -/
structure Stated (fragment : KernelFragment) : Prop where
  outputs : fragment.outputClasses.length = fragment.outputs
  names : fragment.NamesItsClasses

/-- The accesses that a change of class leaves behind name it already. -/
def Unmoved (fragment : KernelFragment) (stated : ScalarClass) : Prop :=
  ∀ op args classes, ValueDef.instr op args classes ∈ fragment.body.values → op.moves = false →
    ∀ side held, op.access = some (side, held) → held.isReal = true →
      ∀ position, fragment.body.position args = some position →
        position < (fragment.bufferClasses side).length → held = stated

end KernelFragment

end KernelIr

namespace GraphIr

open KernelIr (ScalarClass KernelFragment BufferSide)

/-- What a caller hands a run. -/
inductive RunArgument where
  | buffer (stated : ScalarClass) (data : List UInt8)
  | bufferShared (stated : ScalarClass) (data : List UInt8)
  | resident (id count : Nat) (stated : ScalarClass)
  | count (number : Int)
  | float (bits : BitVec 32)
  deriving DecidableEq

def RunArgument.stated : RunArgument → Option ScalarClass
  | buffer stated _ | bufferShared stated _ | resident _ _ stated => some stated
  | count _ | float _ => none

/-- Why a graph cannot be run at its arguments' classes. -/
inductive AlignRefusal where
  | crosses (node slot : Nat) (declared held : ScalarClass)
  | rebuilt (refusal : GraphRefusal)
  deriving DecidableEq

abbrev ValueClasses := List (Option ScalarClass)

def ValueClasses.held (classes : ValueClasses) (value : ValueId) : Option ScalarClass :=
  classes[value]?.join

/-- The class that the node's inputs ask its fragment to state: the last that differs from the one the
fragment declares. -/
def asked (classes : ValueClasses) (node : Nat) (declared : List ScalarClass) :
    Nat → List ValueId → Option ScalarClass → Except AlignRefusal (Option ScalarClass)
  | _, [], stated => .ok stated
  | slot, value :: values, stated =>
    match classes.held value, declared[slot]? with
    | some held, some read =>
      if held = read then asked classes node declared (slot + 1) values stated
      else if held.isReal && read.isReal then
        asked classes node declared (slot + 1) values (some held)
      else .error (.crosses node slot read held)
    | _, _ => asked classes node declared (slot + 1) values stated

/-- The node at the class that its inputs ask for. -/
def KernelNode.restated (node : KernelNode) : Option ScalarClass → KernelNode
  | some stated => { node with fragment := node.fragment.statesTheClass stated }
  | none => node

/-- File the classes of a node's outputs, from the value `next` on. -/
def fileClasses : ValueClasses → Nat → List ScalarClass → ValueClasses
  | classes, _, [] => classes
  | classes, next, stated :: rest => fileClasses (classes.set next (some stated)) (next + 1) rest

/-- Where the walk over the nodes stands. -/
structure Aligning where
  classes : ValueClasses
  aligned : Graph
  next : Nat

def alignNode (position : Nat) (node : KernelNode) (state : Aligning) :
    Except AlignRefusal Aligning :=
  match asked state.classes position node.fragment.inputClasses 0 node.inputs none with
  | .error refusal => .error refusal
  | .ok stated =>
    let node := node.restated stated
    match state.aligned.push node node.fragment.outputs with
    | .error refusal => .error (.rebuilt refusal)
    | .ok (_, aligned) => .ok
        { classes := fileClasses state.classes state.next node.fragment.outputClasses
          aligned, next := state.next + node.fragment.outputs }

def alignNodes : Nat → List KernelNode → Aligning → Except AlignRefusal Aligning
  | _, [], state => .ok state
  | position, node :: nodes, state =>
    match alignNode position node state with
    | .error refusal => .error refusal
    | .ok state => alignNodes (position + 1) nodes state

/-- The classes of the arguments, one entry per value the graph takes. -/
def argumentClasses (inputs : Nat) (arguments : List RunArgument) : ValueClasses :=
  (List.range inputs).map fun index => arguments[index]?.bind RunArgument.stated

/-- State one element class along each chain of values a graph runs, or refuse a crossing. -/
def aligned (graph : Graph) (arguments : List RunArgument) : Except AlignRefusal Graph :=
  let classes := argumentClasses graph.inputs arguments ++
    List.replicate (graph.values - graph.inputs) none
  match alignNodes 0 graph.nodes
      { classes, aligned := Graph.withInputs graph.inputs, next := graph.inputs } with
  | .error refusal => .error refusal
  | .ok state =>
    match graph.returns with
    | none => .ok state.aligned
    | some returned =>
      match state.aligned.returning returned with
      | .error refusal => .error (.rebuilt refusal)
      | .ok aligned => .ok aligned

end GraphIr

end LichenVm
