import LichenVm.ArtifactContainer
import LichenVm.KernelBody

/-! The compute leaf's values and their artifact codec, and the process registry of the kernels that
they name. -/

namespace LichenVm

open ByteStream
open KernelIr (ScalarClass)

/-- The name of a registered kernel. -/
abbrev KernelId := UInt64

/-- Where the runs of a parallel kernel are dispatched. -/
inductive Backend where
  | cpu
  | gpu
  deriving DecidableEq

/-- A run's results while they are still on a device. -/
structure ResidentBuffer where
  id : Nat
  count : Nat
  element : ScalarClass
  deriving DecidableEq

inductive ComputeValue where
  | kernel (id : KernelId)
  | parKernel (id : KernelId) (backend : Backend)
  | buffer (payload : AnyHandle UInt8) (element : ScalarClass)
  | deviceBuffer (resident : ResidentBuffer)
  | graph (id : Nat) (backend : Backend)
  | graphInput (slot : Nat)
  | graphValue (value : Nat)
  deriving DecidableEq

inductive ComputeOperator where
  | jit
  | launch
  | call
  | parallel
  | parLaunch
  | range
  | row
  | col
  | read
  | write
  | writeAtomic
  | bufferCollect
  | buf
  | bufType
  | graph
  | graphRun
  | mma
  deriving DecidableEq

/-- What a kernel value names: the kernel, and for a parallel one where it runs. -/
structure KernelHandle where
  id : KernelId
  backend : Option Backend
  deriving DecidableEq

namespace ComputeValue

def kernelHandle : ComputeValue → Option KernelHandle
  | kernel id => some { id, backend := none }
  | parKernel id backend => some { id, backend := some backend }
  | _ => none

/-- Only a buffer is arena data. -/
def handle : ComputeValue → Option (AnyHandle UInt8)
  | buffer payload _ => some payload
  | _ => none

def setHandle : ComputeValue → AnyHandle UInt8 → ComputeValue
  | buffer _ element, payload => buffer payload element
  | other, _ => other

def BUFFER_TAG : Nat := 9
def KERNEL_TAG : Nat := 10
def PAR_KERNEL_TAG : Nat := 11

end ComputeValue

def writeClass : ScalarClass → Word Arena
  | .int => .u8 0
  | .float => .u8 1
  | .bFloat16 => .u8 2

def readClass : Reader Arena ScalarClass := do
  let tag ← u8
  supply (match tag with
    | 0 => some .int
    | 1 => some .float
    | 2 => some .bFloat16
    | _ => none)

def writeBackend : Backend → Word Arena
  | .cpu => .u8 0
  | .gpu => .u8 1

def readBackend : Reader Arena Backend := do
  let tag ← u8
  supply (match tag with
    | 0 => some .cpu
    | 1 => some .gpu
    | _ => none)

/-- An id is written as the `u64` that it is. -/
def writeKernelId (id : KernelId) : Word Arena := .u64 id.toNat

def readKernelId : Reader Arena KernelId := do
  let bits ← u64
  pure (UInt64.ofNat bits)

namespace ComputeValue

/-- A buffer's payload follows its class. A value that means nothing in another process is refused. -/
def writeValue : ComputeValue → Option Words
  | buffer _ element => some [.u8 BUFFER_TAG, writeClass element]
  | kernel id => some [.u8 KERNEL_TAG, writeKernelId id]
  | parKernel id backend => some [.u8 PAR_KERNEL_TAG, writeKernelId id, writeBackend backend]
  | _ => none

/-- Read a value up to its payload. -/
def readValue : Reader Arena ComputeValue := do
  let tag ← u8
  if tag = BUFFER_TAG then
    let element ← readClass
    pure (buffer (.static { module := ⟨0⟩, offset := 0, items := [] }) element)
  else if tag = KERNEL_TAG then
    let id ← readKernelId
    pure (kernel id)
  else if tag = PAR_KERNEL_TAG then
    let id ← readKernelId
    let backend ← readBackend
    pure (parKernel id backend)
  else refuse

end ComputeValue

namespace ComputeOperator

def tag : ComputeOperator → Nat
  | jit => 0
  | launch => 1
  | call => 2
  | parallel => 3
  | parLaunch => 4
  | range => 5
  | row => 6
  | col => 7
  | read => 8
  | write => 9
  | writeAtomic => 10
  | graph => 11
  | graphRun => 12
  | bufType => 13
  | buf => 16
  | bufferCollect => 14
  | mma => 15

def ofTag : Nat → Option ComputeOperator
  | 0 => some jit
  | 1 => some launch
  | 2 => some call
  | 3 => some parallel
  | 4 => some parLaunch
  | 5 => some range
  | 6 => some row
  | 7 => some col
  | 8 => some read
  | 9 => some write
  | 10 => some writeAtomic
  | 11 => some graph
  | 12 => some graphRun
  | 13 => some bufType
  | 16 => some buf
  | 14 => some bufferCollect
  | 15 => some mma
  | _ => none

end ComputeOperator

/-- A host program with the compute leaf beside its own. -/
def Program.withCompute (Q : Program) : Program where
  Ext := ComputeValue ⊕ Q.Ext
  ExtOperator := ComputeOperator ⊕ Q.ExtOperator
  extDecidable := inferInstance
  operatorDecidable := inferInstance
  handle := Sum.elim ComputeValue.handle Q.handle
  setHandle := Sum.elim (fun value payload => .inl (value.setHandle payload))
    fun value payload => .inr (Q.setHandle value payload)
  discriminant := Sum.elim (fun _ => 0) fun value => Q.discriminant value + 1
  traced := fun context => Sum.elim (fun _ => []) (Q.traced context)
  handle_setHandle := by
    intro value payload moved carries
    cases value with
    | inl value =>
      cases value with
      | buffer payload' element => rfl
      | _ => cases carries
    | inr value => exact Q.handle_setHandle value payload moved carries

def COMPUTE_VALUE : List UInt8 := [67, 111, 109, 112, 117, 116, 101, 86, 97, 108, 117, 101]

def COMPUTE_OPERATOR : List UInt8 :=
  [67, 111, 109, 112, 117, 116, 101, 79, 112, 101, 114, 97, 116, 111, 114]

/-- The host's codec with the compute leaf's beside it. -/
def ArtifactCodec.withCompute {Q : Program} (codec : ArtifactCodec Q) :
    ArtifactCodec Q.withCompute where
  lowValue := codec.lowValue
  lowOperator := codec.lowOperator
  valueLeaf := Sum.elim (fun _ => COMPUTE_VALUE) codec.valueLeaf
  operatorLeaf := Sum.elim (fun _ => COMPUTE_OPERATOR) codec.operatorLeaf
  writeExt := Sum.elim ComputeValue.writeValue codec.writeExt
  writeExtOperator := Sum.elim (fun operator => some [.u8 operator.tag]) codec.writeExtOperator
  readExt := fun name =>
    if name = COMPUTE_VALUE then do
      let value ← ComputeValue.readValue
      pure (.inl value)
    else do
      let value ← codec.readExt name
      pure (.inr value)
  readExtOperator := fun name =>
    if name = COMPUTE_OPERATOR then do
      let tag ← u8
      let operator ← supply (ComputeOperator.ofTag tag)
      pure (.inl operator)
    else do
      let operator ← codec.readExtOperator name
      pure (.inr operator)
  sha256 := codec.sha256
  arenaAlign := codec.arenaAlign

/-- The kernel a node's value names. -/
def Value.kernelHandle {Q : Program} : Value Q.withCompute → Option KernelHandle
  | .ext value => Sum.elim ComputeValue.kernelHandle (fun _ => none) value
  | .low _ => none

/-- Every kernel an artifact names. Arrays, tables, functions and operations name nodes, so whatever
holds a kernel holds a node that is one. -/
def StaticModule.kernelHandles {Q : Program} (home : StaticModule Q.withCompute) : List KernelHandle :=
  home.nodes.filterMap fun node => node.value.bind Value.kernelHandle

section Registry

variable {Fragment Claim : Type}

/-- One registered kernel: what its body compiled to, and the interface it claims. -/
structure KernelEntry (Fragment Claim : Type) where
  fragment : Fragment
  claim : Option Claim
  deriving DecidableEq

/-- A process's kernels by id, and the ids by digest. -/
structure KernelRegistry (Fragment Claim : Type) where
  entries : AssocMap KernelId (KernelEntry Fragment Claim) := {}
  index : AssocMap UInt64 KernelId := {}

namespace KernelRegistry

/-- The fragment a registered kernel names. -/
def kernelFragment (registry : KernelRegistry Fragment Claim) (id : KernelId) : Option Fragment :=
  (registry.entries.get id).map KernelEntry.fragment

/-- The first free id of so many from `id` on. -/
def probe (registry : KernelRegistry Fragment Claim) : Nat → KernelId → Option KernelId
  | 0, _ => none
  | steps + 1, id =>
    if registry.entries.containsKey id then registry.probe steps (id + 1) else some id

/-- The digest itself, or the next free slot after it. Of one slot more than there are kernels one
is free, unless every id is taken: then the probe never ends. -/
def idForDigest (registry : KernelRegistry Fragment Claim) (digest : UInt64) : Option KernelId :=
  registry.probe (registry.entries.entries.length + 1) digest

/-- Register a kernel, and answer its id. -/
def internKernel [DecidableEq Fragment] [DecidableEq Claim]
    (digest : KernelEntry Fragment Claim → UInt64) (registry : KernelRegistry Fragment Claim)
    (entry : KernelEntry Fragment Claim) :
    Option (KernelId × KernelRegistry Fragment Claim) :=
  match (registry.index.get (digest entry)).filter fun id => registry.entries.get id = some entry with
  | some id => some (id, registry)
  | none => do
    let id ← registry.idForDigest (digest entry)
    some (id, { entries := registry.entries.insert id entry
                index := registry.index.insert (digest entry) id })

/-- Register these kernels, in this order. Each is answered with the id it was given. -/
def internAll [DecidableEq Fragment] [DecidableEq Claim]
    (digest : KernelEntry Fragment Claim → UInt64) :
    KernelRegistry Fragment Claim → List (KernelEntry Fragment Claim) →
      Option (List (KernelId × KernelEntry Fragment Claim) × KernelRegistry Fragment Claim)
  | registry, [] => some ([], registry)
  | registry, entry :: entries => do
    let given ← registry.internKernel digest entry
    let others ← internAll digest given.2 entries
    some ((given.1, entry) :: others.1, others.2)

end KernelRegistry

end Registry

end LichenVm
