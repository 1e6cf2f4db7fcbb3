import LichenVm.LaunchGraph

/-! A graph run: each node resolved against the value table, and handed to the backend as it is reached
or all in one submission. -/

namespace LichenVm

namespace KernelIr

namespace ScalarClass

/-- The bytes one element occupies. -/
def byteWidth : ScalarClass → Nat
  | int => 8
  | float => 4
  | bFloat16 => 2

end ScalarClass

namespace KernelFragment

/-- How many scalars a launch fixes beside its extent: the domain's leaves but the extent and the
index. -/
def runtimeScalars (fragment : KernelFragment) : Nat := fragment.paramShape.flatArity - 2

end KernelFragment

end KernelIr

namespace GraphIr

open KernelIr (ScalarClass KernelFragment)

/-- A backend's own name for a buffer it holds. -/
abbrev ResidentId := Nat

/-- What a value in a graph's table is. -/
inductive Value where
  | pending (id : ResidentId) (count : Nat) (stated : ScalarClass)
  | device (id : ResidentId) (count : Nat) (stated : ScalarClass)
  | host (data : List UInt8) (stated : ScalarClass)
  | int (number : Int)
  | float (bits : BitVec 32)
  deriving DecidableEq

/-- Why a value is not the word of a scalar leaf. -/
inductive BitsRefusal where
  | notANumber (found : String)
  | stated (found : ScalarClass)
  deriving DecidableEq

namespace Value

def state : Value → String
  | host _ _ => "host data"
  | device _ _ _ => "a device buffer that was waited for"
  | pending _ _ _ => "a submission that has not been waited for"
  | int _ => "a number"
  | float _ => "a float"

def deviceBuffer : Value → Except String ResidentId
  | device id _ _ | pending id _ _ => .ok id
  | other => .error other.state

def asNumber : Value → Except String Int
  | int number => .ok number
  | other => .error other.state

/-- The word this value gives a scalar leaf: the class is the value's own. -/
def bitsAt : Value → ScalarClass → Except BitsRefusal Int
  | int number, .int => .ok number
  | float bits, .float => .ok bits.toNat
  | int _, .float => .error (.stated .int)
  | float _, .int => .error (.stated .float)
  | other, _ => .error (.notANumber other.state)

/-- How many elements this holds, or none for a number. -/
def count : Value → Option Nat
  | host data stated => some (data.length / stated.byteWidth)
  | device _ count _ | pending _ count _ => some count
  | int _ | float _ => none

end Value

/-- Where a value of the table came from. -/
inductive Source where
  | given
  | produced (dispatch ordinal : Nat)
  deriving DecidableEq

/-- What one dispatch reads. -/
inductive BatchInput where
  | host (stated : ScalarClass) (data : List UInt8)
  | resident (id : ResidentId)
  | produced (dispatch ordinal : Nat)
  deriving DecidableEq

/-- Where a dispatch gets its index range from. -/
inductive BatchExtent where
  | host (count : Nat)
  | resident (count : ResidentId) (index capacity : Nat)
  | produced (dispatch ordinal index capacity : Nat)
  deriving DecidableEq

/-- How many elements a dispatch over this extent is allocated for. -/
def BatchExtent.allocated : BatchExtent → Nat
  | host count => count
  | resident _ _ capacity | produced _ _ _ capacity => capacity

/-- One node resolved, before any of it has run. -/
structure Planned where
  fragment : KernelFragment
  leaves : List ScalarLeaf
  inputs : List BatchInput
  extent : BatchExtent
  classes : List ScalarClass
  counts : List Nat

/-- The element count each output holds: the declared extent, or the launch's where none is declared. -/
def outputCounts (fragment : KernelFragment) (launch : Nat) : List Nat :=
  let counts := fragment.roles.outputExtents.map fun extent => extent.getD launch
  counts.take fragment.outputs ++ List.replicate (fragment.outputs - counts.length) launch

def leafOfValue (node : Nat) (id : ValueId) (stated : ScalarClass) (value : Value) :
    Except GraphRefusal ScalarLeaf :=
  match value.bitsAt stated with
  | .ok bits => .ok { stated, bits }
  | .error (.notANumber found) => .error (.scalarNotANumber node id found)
  | .error (.stated found) => .error (.scalarClassMismatch node id stated found)

/-- One runtime scalar, resolved against the value table. -/
def leafOf (node : Nat) (values : List Value) (stated : ScalarClass) :
    Scalar → Except GraphRefusal ScalarLeaf
  | .constant leaf => .ok { leaf with stated }
  | .value id =>
    match values[id]? with
    | none => .error (.unknownValue (some node) id)
    | some value => leafOfValue node id stated value

/-- The runtime scalars a node fixes beside its extent. Leaf `0` of the domain is the extent. -/
def leavesOf (node : Nat) (kernel : KernelNode) (values : List Value) :
    Except GraphRefusal (List ScalarLeaf) :=
  if kernel.scalars.length ≠ kernel.fragment.runtimeScalars then
    .error (.scalarArity node kernel.fragment.runtimeScalars kernel.scalars.length)
  else
    (kernel.scalars.zip (kernel.fragment.paramShape.leafClasses.drop 1)).mapM fun scalar =>
      leafOf node values scalar.2 scalar.1

def inputOf (node : Nat) (values : List Value) (sources : List Source) (value : ValueId) :
    Except GraphRefusal BatchInput :=
  match sources[value]? with
  | some (.produced dispatch ordinal) => .ok (.produced dispatch ordinal)
  | _ =>
    match values[value]? with
    | none => .error (.unknownValue (some node) value)
    | some (.host data stated) => .ok (.host stated data)
    | some (.device id _ _) | some (.pending id _ _) => .ok (.resident id)
    | some other => .error (.notBufferData node value other.state)

def extentOfValue (node : Nat) (id : ValueId) (value : Value) : Except GraphRefusal BatchExtent :=
  match value.asNumber with
  | .error found => .error (.countNotANumber node id found)
  | .ok number => if number < 0 then .error (.countNegative number) else .ok (.host number.toNat)

def extentOf (node : Nat) (values : List Value) (sources : List Source) (allocated : List Nat) :
    Count → Except GraphRefusal BatchExtent
  | .constant count => .ok (.host count)
  | .value id =>
    match values[id]? with
    | none => .error (.unknownValue (some node) id)
    | some value => extentOfValue node id value
  | .device id index =>
    match sources[id]? with
    | some (.produced dispatch ordinal) =>
      .ok (.produced dispatch ordinal index (allocated[dispatch]?.getD 0))
    | _ =>
      match values[id]? with
      | none => .error (.unknownValue (some node) id)
      | some counted =>
        match counted.deviceBuffer with
        | .error found => .error (.extentNotADevice node id found)
        | .ok buffer => .ok (.resident buffer index (counted.count.getD 0))

/-- One node resolved against the value table. -/
def plan (node : Nat) (kernel : KernelNode) (values : List Value) (sources : List Source)
    (allocated : List Nat) : Except GraphRefusal Planned :=
  if kernel.inputs.length ≠ kernel.fragment.inputs then
    .error (.inputArity node kernel.fragment.inputs kernel.inputs.length)
  else do
    let inputs ← kernel.inputs.mapM (inputOf node values sources)
    let extent ← extentOf node values sources allocated kernel.count
    let leaves ← leavesOf node kernel values
    .ok { fragment := kernel.fragment, leaves, inputs, extent
          classes := kernel.fragment.outputClasses
          counts := outputCounts kernel.fragment extent.allocated }

/-- One buffer as it crosses the backend's boundary. -/
inductive BufferSlot where
  | host (data : List UInt8)
  | resident (id : ResidentId)
  deriving DecidableEq

/-- The range one launch covers: a number, or an element of a device buffer. -/
inductive LaunchExtent where
  | host (count : Nat)
  | device (count : ResidentId) (index capacity : Nat)
  deriving DecidableEq

/-- What the backend is handed for one node, and how many elements each of its outputs holds. -/
structure Launch where
  fragment : KernelFragment
  leaves : List ScalarLeaf
  slots : List BufferSlot
  extent : LaunchExtent
  counts : List Nat

/-- The id issued for an output of this run. -/
def issuedAt (issued : List (List ResidentId)) (dispatch ordinal : Nat) : Option ResidentId :=
  issued[dispatch]?.bind fun ids => ids[ordinal]?

/-- The slot a resolved input is read through. -/
def slotOf (issued : List (List ResidentId)) : BatchInput → Option BufferSlot
  | .host _ data => some (.host data)
  | .resident id => some (.resident id)
  | .produced dispatch ordinal => (issuedAt issued dispatch ordinal).map .resident

/-- The range a resolved node is launched over. -/
def launchExtent (issued : List (List ResidentId)) : BatchExtent → Option LaunchExtent
  | .host count => some (.host count)
  | .resident count index capacity => some (.device count index capacity)
  | .produced dispatch ordinal index capacity =>
    (issuedAt issued dispatch ordinal).map fun count => .device count index capacity

/-- The resolved node with every output of this run at the id issued for it. -/
def Planned.launch (issued : List (List ResidentId)) (planned : Planned) : Option Launch := do
  let slots ← planned.inputs.mapM (slotOf issued)
  let extent ← launchExtent issued planned.extent
  some { fragment := planned.fragment, leaves := planned.leaves, slots, extent
         counts := planned.counts }

/-- The outputs of a run that was waited for: each holds its own buffer's elements. -/
def deviceAll (ids : List ResidentId) (counts : List Nat) (classes : List ScalarClass) : List Value :=
  ids.mapIdx fun ordinal id =>
    .device id (counts[ordinal]?.getD 0) (classes[ordinal]?.getD .int)

/-- Where a run stands: the value table, and what this run has produced. -/
structure Walk where
  values : List Value
  sources : List Source
  allocated : List Nat
  issued : List (List ResidentId)

/-- Every value handed in is given. -/
def Walk.start (values : List Value) : Walk where
  values
  sources := values.map fun _ => .given
  allocated := []
  issued := []

/-- A node, and the ids the backend answers its launch with. -/
abbrev Answered := KernelNode × List ResidentId

/-- Why a run ends. -/
inductive RunRefusal where
  | graph (refusal : GraphRefusal)
  | unissued
  deriving DecidableEq

/-- Dispatch one node and wait for it. -/
def dispatch (walk : Walk) (node : Answered) : Except RunRefusal (Launch × Walk) :=
  match plan walk.issued.length node.1 walk.values walk.sources walk.allocated with
  | .error refusal => .error (.graph refusal)
  | .ok planned =>
    match planned.launch walk.issued with
    | none => .error .unissued
    | some launch => .ok (launch,
        { values := walk.values ++ deviceAll node.2 planned.counts planned.classes
          sources := walk.sources ++
            (List.range node.2.length).map fun ordinal => .produced walk.issued.length ordinal
          allocated := walk.allocated ++ [planned.extent.allocated]
          issued := walk.issued ++ [node.2] })

/-- Dispatch each node as the walk reaches it. -/
def runNodeByNode : Walk → List Answered → Except RunRefusal (List Launch × Walk)
  | walk, [] => .ok ([], walk)
  | walk, node :: nodes => do
    let (launch, next) ← dispatch walk node
    let (launches, last) ← runNodeByNode next nodes
    .ok (launch :: launches, last)

/-- Resolve every node before any of it runs: nothing is issued, so no produced value is in the table. -/
def planAll (values : List Value) : List Source → List Nat → List KernelNode →
    Except GraphRefusal (List Planned)
  | _, _, [] => .ok []
  | sources, allocated, node :: nodes => do
    let planned ← plan allocated.length node values sources allocated
    let rest ← planAll values
      (sources ++ (List.range planned.classes.length).map fun ordinal =>
        .produced allocated.length ordinal)
      (allocated ++ [planned.extent.allocated]) nodes
    .ok (planned :: rest)

/-- The dispatches one submission records. -/
def runInOneSubmission (values : List Value) (nodes : List KernelNode) :
    Except GraphRefusal (List Planned) :=
  planAll values (values.map fun _ => .given) [] nodes

end GraphIr

end LichenVm
