import LichenVm.GraphClasses
import LichenVm.GraphCut

/-! The device buffers of one graph run: what its dispatches answer, what it returns and what it
gives back. -/

namespace LichenVm.GraphIr

open Walk
open KernelIr (ScalarClass)

/-- When the host submits, and when it waits. -/
inductive Policy where
  | serial
  | async
  | batch
  deriving DecidableEq

/-- Why a batch did not run. -/
inductive BatchRefusal where
  | cannot
  | refused (reason : String)
  deriving DecidableEq

/-- What a backend answers in one run: each node's dispatch, the wait for its submission, and the one
submission of them all. -/
structure ParallelBackend where
  dispatch : Nat → Except String (List ResidentId)
  wait : Nat → Except String Unit
  runBatch : Except BatchRefusal (List (List ResidentId))

/-- Why a run ends without results. -/
inductive Halt where
  | noBackend
  | cpuBackend
  | aligns (refusal : AlignRefusal)
  | graph (refusal : GraphRefusal)
  | unissued
  | extentIsNotInFlight (node : Nat)
  | policyUnsupported
  | backend (what reason : String)
  /-- The assertion that a batch answers each dispatch with one id per output. -/
  | miscounted
  deriving DecidableEq

/-- The outputs of one submission, none of them waited for. -/
def pendingAll (ids : List ResidentId) (counts : List Nat) (classes : List ScalarClass) : List Value :=
  ids.mapIdx fun ordinal id =>
    .pending id (counts[ordinal]?.getD 0) (classes[ordinal]?.getD .int)

namespace Policy

def outputs : Policy → List ResidentId → List Nat → List ScalarClass → List Value
  | async => pendingAll
  | serial | batch => deviceAll

/-- What a dispatch that fails was doing. -/
def dispatching : Policy → BatchExtent → String
  | async, _ => "submitting a kernel node"
  | _, .host _ => "dispatching a kernel node"
  | _, _ => "dispatching a kernel node over a device-held count"

/-- A submission in flight has no entry for an extent that the device holds. -/
def covers : Policy → BatchExtent → Bool
  | async, .resident _ _ _ | async, .produced _ _ _ _ => false
  | _, _ => true

end Policy

namespace ParallelBackend

variable (backend : ParallelBackend)

/-- Dispatch one node, and file its values and their ids. -/
def dispatchNode (policy : Policy) (walk : Walk) (node : KernelNode) : Except Halt Walk :=
  match plan walk.issued.length node walk.values walk.sources walk.allocated with
  | .error refusal => .error (.graph refusal)
  | .ok planned =>
    match planned.launch walk.issued with
    | none => .error .unissued
    | some _ =>
      if policy.covers planned.extent = false then
        .error (.extentIsNotInFlight walk.issued.length)
      else match backend.dispatch walk.issued.length with
        | .error reason => .error (.backend (policy.dispatching planned.extent) reason)
        | .ok ids => .ok
            { values := walk.values ++ policy.outputs ids planned.counts planned.classes
              sources := walk.sources ++
                (List.range ids.length).map fun ordinal => .produced walk.issued.length ordinal
              allocated := walk.allocated ++ [planned.extent.allocated]
              issued := walk.issued ++ [ids] }

/-- Dispatch each node as the walk reaches it: how far the walk came, and what stopped it. -/
def runNodeByNode (policy : Policy) : Walk → List KernelNode → Walk × Option Halt
  | walk, [] => (walk, none)
  | walk, node :: nodes =>
    match backend.dispatchNode policy walk node with
    | .error halt => (walk, some halt)
    | .ok next => runNodeByNode policy next nodes

/-- One list of ids per dispatch, and one id per output that its fragment declares a class of. -/
def fits (planned : List Planned) (issued : List (List ResidentId)) : Bool :=
  planned.map (fun plan => plan.classes.length) = (issued.take planned.length).map List.length

def runInOneSubmission (inputs : List Value) (nodes : List KernelNode) : Walk × Option Halt :=
  match GraphIr.runInOneSubmission inputs nodes with
  | .error refusal => (start inputs, some (.graph refusal))
  | .ok planned =>
    match backend.runBatch with
    | .error .cannot => (start inputs, some .policyUnsupported)
    | .error (.refused reason) =>
      (start inputs, some (.backend "recording the graph in one submission" reason))
    | .ok issued =>
      if fits planned issued then
        ({ values := inputs ++ (planned.zipWith (fun plan ids =>
            deviceAll ids plan.counts plan.classes) issued).flatten
           sources := (start inputs).sources ++ (planned.mapIdx fun index plan =>
             (List.range plan.classes.length).map fun ordinal => .produced index ordinal).flatten
           allocated := planned.map fun plan => plan.extent.allocated
           issued }, none)
      else ({ start inputs with issued }, some .miscounted)

end ParallelBackend

/-- The node whose submission a value of the table waits for. -/
def inFlight : Value × Source → Option Nat
  | (.pending _ _ _, .produced node _) => some node
  | _ => none

/-- The value once it was waited for. -/
def Value.settled : Value → Value
  | .pending id count stated => .device id count stated
  | other => other

namespace ParallelBackend

variable (backend : ParallelBackend)

/-- Wait for every submission behind a table, each one once. -/
def waitAll (table : List (Value × Source)) : Option Halt :=
  (table.filterMap inFlight).eraseDups.findSome? fun node =>
    match backend.wait node with
    | .error reason => some (.backend "waiting for a submission" reason)
    | .ok _ => none

/-- The table that the nodes leave under a policy. -/
def schedule (policy : Policy) (graph : Graph) (inputs : List Value) : Walk × Option Halt :=
  match policy with
  | .batch => backend.runInOneSubmission inputs graph.nodes
  | .serial | .async => backend.runNodeByNode policy (start inputs) graph.nodes

/-- Run a graph over its inputs, and hand back every value it has, settled. -/
def runGraph (policy : Policy) (graph : Graph) (inputs : List Value) : Walk × Option Halt :=
  if inputs.length ≠ graph.inputs then
    (start inputs, some (.graph (.runArity graph.inputs inputs.length)))
  else
    match backend.schedule policy graph inputs with
    | (walk, some halt) => (walk, some halt)
    | (walk, none) =>
      match backend.waitAll (walk.values.zip walk.sources) with
      | some halt => (walk, some halt)
      | none => ({ walk with values := walk.values.map Value.settled }, none)

end ParallelBackend

/-- A value as the table holds it. -/
def RunArgument.value : RunArgument → Value
  | buffer stated data | bufferShared stated data => .host data stated
  | resident id held stated => .device id held stated
  | count number => .int number
  | float bits => .float bits

/-- The buffer that an argument names. -/
def RunArgument.residentId : RunArgument → Option ResidentId
  | resident id _ _ => some id
  | _ => none

/-- A returned value, by its role. -/
inductive RunResult where
  | buffer (stated : ScalarClass) (data : List UInt8)
  | resident (id : ResidentId) (count : Nat) (stated : ScalarClass)
  | count (number : Nat)
  | float (bits : BitVec 32)
  deriving DecidableEq

def RunResult.residentId : RunResult → Option ResidentId
  | resident id _ _ => some id
  | _ => none

/-- What one entry of a finished run is. -/
def returnedRole : Value → Except GraphRefusal RunResult
  | .host data stated => .ok (.buffer stated data)
  | .device id count stated | .pending id count stated => .ok (.resident id count stated)
  | .int number => if number < 0 then .error (.countNegative number) else .ok (.count number.toNat)
  | .float bits => .ok (.float bits)

def readBack (values : List Value) (value : ValueId) : Except GraphRefusal RunResult :=
  match values[value]? with
  | none => .error (.unknownValue none value)
  | some entry => returnedRole entry

/-- Hand back every buffer of the table that the caller is not holding. -/
def givenBack (kept : List ResidentId) : List ResidentId → List Value → List ResidentId
  | released, [] => released
  | released, value :: values =>
    match value.deviceBuffer with
    | .error _ => givenBack kept released values
    | .ok id =>
      if id ∈ kept ∨ id ∈ released then givenBack kept released values
      else givenBack kept (released ++ [id]) values

/-- What a call of `run` did to the device: the ids its dispatches answered, those it released, and what it
returned. -/
structure Ended where
  produced : List ResidentId
  released : List ResidentId
  returned : Except Halt (List RunResult)

/-- The buffers among the results. -/
def Ended.held (ended : Ended) : List ResidentId :=
  match ended.returned with
  | .error _ => []
  | .ok results => results.filterMap RunResult.residentId

def ParallelBackend.runAligned (backend : ParallelBackend) (policy : Policy) (graph : Graph)
    (arguments : List RunArgument) : Ended :=
  match backend.runGraph policy graph (arguments.map RunArgument.value) with
  | (walk, some halt) => { produced := walk.issued.flatten, released := [], returned := .error halt }
  | (walk, none) =>
    match (graph.returns.getD (List.range walk.values.length)).mapM (readBack walk.values) with
    | .error refusal =>
      { produced := walk.issued.flatten, released := [], returned := .error (.graph refusal) }
    | .ok results =>
      { produced := walk.issued.flatten
        released := givenBack (arguments.filterMap RunArgument.residentId ++
          results.filterMap RunResult.residentId) [] walk.values
        returned := .ok results }

/-- Run a built graph on the backend its value names. -/
def run (installed : Option ParallelBackend) (cpu : Bool) (policy : Policy) (graph : Graph)
    (arguments : List RunArgument) : Ended :=
  match installed with
  | none => { produced := [], released := [], returned := .error .noBackend }
  | some backend =>
    if cpu then { produced := [], released := [], returned := .error .cpuBackend }
    else match aligned graph arguments with
      | .error refusal => { produced := [], released := [], returned := .error (.aligns refusal) }
      | .ok graph => backend.runAligned policy graph arguments

end LichenVm.GraphIr
