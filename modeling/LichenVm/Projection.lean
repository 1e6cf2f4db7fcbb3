import LichenVm.FusionRepair
import LichenVm.ParallelRun

/-! The walk that reads a marked body value as one symbolic expression. -/

namespace LichenVm.Fusion

/-- How many of a fan-in consumer's inputs the symbolic language names. -/
def FAN_IN_INPUTS : Nat := 8

def RUNTIME_SCALAR_INPUTS : Nat := 8

namespace Variable

def EXTENT : Variable := ⟨['n']⟩
/-- The invocation index the fused step is running. -/
def INVOCATION : Variable := ⟨['i']⟩
def RUNTIME_SCALAR : Variable := ⟨['s', '0']⟩

/-- Every named free value, the producer slots first and the runtime scalars after. -/
def SLOTS : List Variable :=
  [PRODUCER, ⟨['r', '1']⟩, ⟨['r', '2']⟩, ⟨['r', '3']⟩, ⟨['r', '4']⟩, ⟨['r', '5']⟩, ⟨['r', '6']⟩,
    ⟨['r', '7']⟩, RUNTIME_SCALAR, ⟨['s', '1']⟩, ⟨['s', '2']⟩, ⟨['s', '3']⟩, ⟨['s', '4']⟩,
    ⟨['s', '5']⟩, ⟨['s', '6']⟩, ⟨['s', '7']⟩]

def producer (ordinal : Nat) : Option Variable :=
  if ordinal < FAN_IN_INPUTS then SLOTS[ordinal]? else none

def runtimeScalar (ordinal : Nat) : Option Variable :=
  if ordinal < RUNTIME_SCALAR_INPUTS then SLOTS[FAN_IN_INPUTS + ordinal]? else none

end Variable

end LichenVm.Fusion

namespace LichenVm.FusionBridge

open Fusion KernelIr

/-- The symbolic operator a lowered binary instruction means. -/
def binary : KernelBin → Option BinaryOp
  | .add => some .add
  | .sub => some .sub
  | .mul => some .mul
  | .div => some .div
  | .max => some .max
  | .min => some .min
  | .lt => some .lessThan
  | .gt => some .greaterThan
  | .leq => some .lessEqual
  | .geq => some .greaterEqual
  | .eq => some .equal
  | .neq => some .notEqual
  | .rem | .bitAnd | .bitOr | .bitXor => none

/-- Which of a fragment's own reads hold a producer's value, and a scalar fragment's two leaves. -/
structure ReadRoles where
  producers : List Nat
  named : producers.length ≤ FAN_IN_INPUTS
  parameterLeaves : Option (Nat × Nat) := none

namespace ReadRoles

/-- The roles of a projection that reads no producer. -/
def DATUM_ONLY : ReadRoles where
  producers := []
  named := Nat.zero_le _

/-- The slot the read at a position stands for, when that position holds a producer's value. -/
def producerAt (roles : ReadRoles) (position : Nat) : Option Variable :=
  (roles.producers.findIdx? (· = position)).bind Variable.producer

end ReadRoles

/-- The form of a marked subexpression that the symbolic language does not carry. -/
inductive BridgeRefusal where
  | notAValue (marked : ValueId)
  | readsAnUnnamedLeaf (index : Nat)
  | readsARuntimeScalar (index : Nat)
  | readsABuffer
  | ambiguousState (slots : List Nat)
  | machineInteger (value : ValueId)
  | unsupportedClass (stated : ScalarClass)
  | unsupportedOperator (operator : KernelBin)
  | unknownReadPosition
  | bufferWrite (position : Nat)
  | outputRead (position : Nat)
  | sliceAccess (slice : Nat)
  | call (kernel : KernelIr.KernelId)
  | select
  | conversion (source target : ScalarClass)
  | booleanNarrowing
  | floor
  | fusedMultiplyAdd
  | malformedBody (reason : BodyRefusal)
  | missingOperand (operands : Nat)
  | expressionTooLarge (budget : Nat)

/-- How a walk stops: it refuses by name, the gate indexes past the value table, or it goes deeper
than it was let. -/
inductive Stop where
  | refused (cause : BridgeRefusal)
  | panicked
  | unfinished

/-- How many expression nodes the walk will build before it refuses. -/
def EXPRESSION_NODE_BUDGET : Nat := 4096

/-- The largest integer a machine-integer immediate may state and still read as one real number. -/
def EXACT_INTEGER_LIMIT : Nat := 2 ^ 53

/-- The leaves of a parallel domain that spell the invocation. -/
structure Invocation where
  extent : Nat
  index : Nat

/-- The invocation a fragment's domain spells, when the fragment is dispatched over one. -/
def invocationOf (fragment : KernelFragment) : Option Invocation :=
  let leaves := ParallelRun.scalarLeaves fragment
  if 0 < leaves then some ⟨0, leaves⟩ else none

/-- The reals that the literals of a body name. -/
structure Numbers (L : Type) where
  /-- The number of a single's bits. -/
  ofSingle : BitVec 32 → L
  ofNat : Nat → L

/-- The values already read, the carried-state slots met, and the node count. -/
structure Walk (L : Type) where
  read : ValueId → Option (Expr L) := fun _ => none
  stateSlots : List Nat := []
  nodes : Nat := 0

abbrev Walker (L : Type) := StateT (Walk L) (Except Stop)

section Walk

variable {L α : Type} [Literal L] (numbers : Numbers L)
  (inlined : KernelBody → ValueId → Option (UnaryOp × ValueId)) (fragment : KernelFragment)
  (reads : ReadRoles)

def refuse (cause : BridgeRefusal) : Walker L α := fun _ => .error (.refused cause)

/-- The slot one runtime scalar leaf is read as, or the refusal past the table. -/
def runtimeScalar (index : Nat) : Walker L (Expr L) :=
  match Variable.runtimeScalar (index - 1) with
  | some name => pure (.var name)
  | none => refuse (.readsARuntimeScalar index)

/-- The one carried-state slot of a projection. -/
def carried (index : Nat) : Walker L (Expr L) := fun walk =>
  let slots := if index ∈ walk.stateSlots then walk.stateSlots else walk.stateSlots ++ [index]
  if 1 < slots.length then .error (.refused (.ambiguousState (slots.mergeSort (· ≤ ·))))
  else .ok (.var .CONSUMER_STATE, { walk with stateSlots := slots })

/-- The symbolic slot a value that a block receives stands for. -/
def parameter (block index : Nat) : Walker L (Expr L) :=
  if block = fragment.body.entry then
    match reads.parameterLeaves with
    | none =>
      match invocationOf fragment with
      | some invocation =>
        if index = invocation.extent then pure (.var .EXTENT)
        else if invocation.extent < index ∧ index < invocation.index then runtimeScalar index
        else if index = invocation.index then pure (.var .INVOCATION)
        else refuse (.readsARuntimeScalar index)
      | none => refuse (.readsARuntimeScalar index)
    | some (datum, producer) =>
      if index = datum then pure (.var .DATUM)
      else if index = producer then pure (.var .PRODUCER)
      else refuse (.readsAnUnnamedLeaf index)
  else carried index

/-- The compile-time ordinal that a memory instruction's first operand names. -/
def readPosition (args : List ValueId) : Walker L Nat :=
  match args.head?.bind (fragment.body.values[·]?) with
  | some (.instr (.const _ bits) _ _) => pure bits.toNat
  | _ => refuse .unknownReadPosition

/-- An operand of an instruction, read as an expression. -/
def argument (value : ValueId → Walker L (Expr L)) (args : List ValueId) (position : Nat) :
    Walker L (Expr L) :=
  match args[position]? with
  | some arg => value arg
  | none => refuse (.missingOperand args.length)

def isAParameter (body : KernelBody) (value : ValueId) : Bool :=
  match body.values[value]? with
  | some (.blockParam block _) => block = body.entry
  | _ => false

/-- The expression one class conversion computes: the integer is the real it denotes. -/
def conversion (value : ValueId → Walker L (Expr L)) (args : List ValueId)
    (source target : ScalarClass) : Walker L (Expr L) :=
  match args with
  | [operand] =>
    if source ≠ .int ∨ target ≠ .float then refuse (.conversion source target)
    else
      match fragment.body.constant (some operand) with
      | some number =>
        if EXACT_INTEGER_LIMIT < number then refuse (.machineInteger operand)
        else pure (.constant (numbers.ofNat number))
      | none =>
        if reads.parameterLeaves.isSome ∧ isAParameter fragment.body operand then
          refuse (.conversion source target)
        else value operand
  | _ => refuse (.conversion source target)

/-- A unary operator over the instruction's first operand. -/
def applied (value : ValueId → Walker L (Expr L)) (operator : UnaryOp) (args : List ValueId) :
    Walker L (Expr L) := do
  let operand ← argument value args 0
  pure (.unary operator operand)

/-- The expression one instruction computes. -/
def instruction (value : ValueId → Walker L (Expr L)) (id : ValueId) (op : KernelInstr)
    (args : List ValueId) : Walker L (Expr L) :=
  match inlined fragment.body id with
  | some (operator, operand) => do
    let operand ← value operand
    pure (.unary operator operand)
  | none =>
    match op with
    | .const .float bits => pure (.constant (numbers.ofSingle (bits.setWidth 32)))
    | .const .int _ => refuse (.machineInteger id)
    | .bin .float operator =>
      match binary operator with
      | none => refuse (.unsupportedOperator operator)
      | some symbolic => do
        let left ← argument value args 0
        let right ← argument value args 1
        pure (.binary symbolic left right)
    | .bin .int _ => refuse (.machineInteger id)
    | .const .bFloat16 _ | .bin .bFloat16 _ => refuse (.unsupportedClass .bFloat16)
    | .i32WrapI64 => refuse .booleanNarrowing
    | .fma => refuse .fusedMultiplyAdd
    | .negate => do
      -- A subtraction: over the reals it is the negation.
      let operand ← argument value args 0
      pure (.binary .sub (.constant Literal.zero) operand)
    | .exp => applied value .exp args
    | .sqrt => applied value .sqrt args
    | .floor => refuse .floor
    | .ln => applied value .ln args
    | .sin => applied value .sin args
    | .cos => applied value .cos args
    | .conv source target => conversion numbers fragment reads value args source target
    | .select => refuse .select
    | .callKernel kernel => refuse (.call kernel)
    | .bufferReadCall .float | .bufferReadCall .bFloat16 => do
      let position ← readPosition fragment args
      if reads.parameterLeaves.isSome then refuse .readsABuffer
      else pure (.var ((reads.producerAt position).getD .DATUM))
    | .bufferReadCall .int => refuse (.machineInteger id)
    | .bufferWriteCall _ | .bufferAtomicAddCall _ => do
      let position ← readPosition fragment args
      refuse (.bufferWrite position)
    | .outputReadCall _ => do
      let position ← readPosition fragment args
      refuse (.outputRead position)
    | .sliceReadCall _ | .sliceWriteCall _ => do
      let slice ← readPosition fragment args
      refuse (.sliceAccess slice)

/-- The expression a value's own definition computes. -/
def defined (value : ValueId → Walker L (Expr L)) (id : ValueId) : Walker L (Expr L) :=
  match fragment.body.values[id]? with
  | some (.blockParam block index) => parameter fragment reads block index
  | some (.instr op args _) => instruction numbers inlined fragment reads value id op args
  | none => refuse (.notAValue id)

/-- One value more is read, unless the budget is out. -/
def charge (id : ValueId) (expr : Expr L) : Walker L (Expr L) := fun walk =>
  if EXPRESSION_NODE_BUDGET < walk.nodes + 1 then
    .error (.refused (.expressionTooLarge EXPRESSION_NODE_BUDGET))
  else
    .ok (expr, { walk with
      nodes := walk.nodes + 1
      read := Function.update walk.read id (some expr) })

/-- The expression the value denotes, a value read before being cloned. -/
def value : Nat → ValueId → Walker L (Expr L)
  | 0, _ => fun _ => .error .unfinished
  | fuel + 1, id => fun walk =>
    match walk.read id with
    | some expr => .ok (expr, walk)
    | none => (defined numbers inlined fragment reads (value fuel) id >>= charge id) walk

/-- The symbolic expression a marked body value denotes, by a walk at most `fuel` deep. -/
def projection (fuel : Nat) (marked : ValueId) : Except Stop (Expr L) :=
  match fragment.body.validate with
  | .error (.refused reason) => .error (.refused (.malformedBody reason))
  | .error .panicked => .error .panicked
  | .ok () => (value numbers inlined fragment reads fuel marked {}).map Prod.fst

end Walk

end LichenVm.FusionBridge
