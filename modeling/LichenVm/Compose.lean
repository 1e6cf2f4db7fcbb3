import LichenVm.KernelFragment

namespace LichenVm.KernelIr

open Worklist

inductive Side where
  | producer
  | consumer
  deriving DecidableEq

/-- What makes a fragment one the merge does not read. -/
inductive IllFormed where
  | body (cause : BodyRefusal)
  | classCount (inputs stated : Nat)
  | notABufferWrite (value : ValueId)
  | storeOperands (write : ValueId) (read : Nat)
  | storeNamesNoPosition (write : ValueId)
  | storePositionIsNoConstant (write position : ValueId)
  | absorbedIsNoRead (read : ValueId)
  deriving DecidableEq

/-- What stops the bodies sharing one parameter list. -/
inductive DomainBlocker where
  | namesNoExtentAndIndex
  | producerBindsAnother (received leaves : Nat)
  deriving DecidableEq

/-- Why two fragments could not become one. -/
inductive ComposeRefusal where
  | noConsumerToInline
  | producerIsNotWellFormed (cause : IllFormed)
  | consumerIsNotWellFormed (cause : IllFormed)
  | shapesDiffer (producer consumer : KernelShape) (blocker : DomainBlocker)
  | targetsDiffer (producer consumer : TargetFacts)
  | classesDiffer (produced expected : ScalarClass)
  | parameterCountsDiffer (producer consumer leaves : Nat)
  | absorbedIsOutOfRange (absorbed inputs : Nat)
  | absorbedIsNotRead (absorbed : Nat)
  | readPositionIsNotAConstant (body : Side) (read : ValueId)
  | producerReadsOutsideTheMerge (position inputs : Nat)
  | producerWritesNothing
  | producerWritesSeveral (writes : Nat)
  | producerDoesNotReturnInOneBlock (returns : Nat)
  | consumerEntryIsABranchTarget (block : Nat)
  | consumerEntryDoesNotReturn (consumer : Nat)
  | forwardedValueIsLaneDependent (value read : ValueId) (blocker : NotIndexLocal)
  | duplicatedMark (text : String)
  | slicesCollide (producer consumer : Nat)
  | mergedBodyIsRefused (cause : BodyRefusal)
  | mergedFragmentIsRefused (slice : Nat)

/-- How a merge does not answer: it refuses by name, or a gate it calls panics. -/
inductive ComposeFailure where
  | refused (cause : ComposeRefusal)
  | panicked

abbrev Composing (α : Type) := Except ComposeFailure α

def refuse {α : Type} (cause : ComposeRefusal) : Composing α :=
  .error (.refused cause)

def require (held : Bool) (cause : ComposeRefusal) : Composing Unit :=
  if held then .ok () else refuse cause

/-- Run a body's gate and name its refusal. -/
def gated (body : KernelBody) (cause : BodyRefusal → ComposeRefusal) : Composing Unit :=
  match body.validate with
  | .ok () => .ok ()
  | .error (.refused refusal) => refuse (cause refusal)
  | .error .panicked => .error .panicked

/-- The parameter list the composed bodies share: the extent, each body's own runtime scalars,
the index. -/
structure ScalarUnion where
  counts : List Nat
  classes : List ScalarClass

namespace ScalarUnion

/-- The runtime scalars of one domain. A domain that does not name an integer extent and an
integer index has none. -/
def runtimeScalars (shape : KernelShape) : Option (List ScalarClass) :=
  let leaves := shape.leafClasses
  if 2 ≤ leaves.length ∧ leaves.head? = some .int ∧ leaves.getLast? = some .int then
    some leaves.tail.dropLast
  else none

def of (shapes : List KernelShape) : Option ScalarUnion :=
  (shapes.mapM runtimeScalars).map fun scalars =>
    { counts := scalars.map List.length, classes := scalars.flatten }

def total (union : ScalarUnion) : Nat := union.counts.sum

def own (union : ScalarUnion) (ordinal : Nat) : Nat := union.counts.getD ordinal 0

def before (union : ScalarUnion) (ordinal : Nat) : Nat := (union.counts.take ordinal).sum

def shape (union : ScalarUnion) : KernelShape :=
  .tuple (.scalar .int :: union.classes.map .scalar ++ [.scalar .int])

end ScalarUnion

/-- The merged parameter a body's entry parameter lands on. -/
def landedSlot (slot own before total : Nat) : Nat :=
  if slot = 0 then 0 else if slot ≤ own then before + slot else total + 1

namespace KernelBody

/-- `extra` fresh entry parameters, between the body's own runtime scalars and its index. -/
def spliceRuntimeScalars (body : KernelBody) (own extra : Nat) : KernelBody :=
  if extra = 0 then body
  else
    let at_ := min (own + 1) body.parameters.length
    let moved := body.values.map fun definition =>
      match definition with
      | .blockParam block index =>
        if block = body.entry ∧ own < index then .blockParam block (index + extra)
        else definition
      | _ => definition
    let fresh := (List.range extra).map fun ordinal => .blockParam body.entry (at_ + ordinal)
    let entry := body.block body.entry
    let ids := (List.range extra).map (body.values.length + ·)
    { body with
      values := moved ++ fresh
      blocks := body.blocks.set body.entry
        { entry with params := entry.params.take at_ ++ ids ++ entry.params.drop at_ } }

def isBufferWrite (body : KernelBody) (value : ValueId) : Bool :=
  match body.values[value]? with
  | some (.instr (.bufferWriteCall _) _ _) => true
  | _ => false

def isBufferRead (body : KernelBody) (value : ValueId) : Bool :=
  match body.values[value]? with
  | some (.instr (.bufferReadCall _) _ _) => true
  | _ => false

def isSliceAccess (body : KernelBody) (value : ValueId) : Bool :=
  match body.values[value]? with
  | some (.instr (.sliceWriteCall _) _ _) => true
  | some (.instr (.sliceReadCall _) _ _) => true
  | _ => false

def writeSites (body : KernelBody) : List ValueId :=
  body.listed.filter body.isBufferWrite

/-- Every buffer read listed, with the position it addresses as a 32-bit ordinal. -/
def bufferReads (body : KernelBody) (side : Side) : Composing (List (ValueId × Nat)) :=
  (body.listed.filter body.isBufferRead).mapM fun read =>
    match body.ordinal read with
    | some position => .ok (read, position % 2 ^ 32)
    | none => refuse (.readPositionIsNotAConstant side read)

def readAddress (body : KernelBody) (read : ValueId) : ValueId :=
  match body.values[read]? with
  | some (.instr _ args _) => args.getD 1 read
  | _ => read

/-- The class a buffer write declares, the value it forwards and the address it fills. -/
def writeEdge (body : KernelBody) (write : ValueId) :
    Composing (ScalarClass × ValueId × ValueId) :=
  match body.values[write]? with
  | some (.instr (.bufferWriteCall stated) args _) =>
    match args with
    | [_, address, value] => .ok (stated, value, address)
    | _ => refuse (.producerIsNotWellFormed (.storeOperands write args.length))
  | _ => refuse (.producerIsNotWellFormed (.notABufferWrite write))

def branchTargeting (body : KernelBody) (target : Nat) : Option Nat :=
  body.blocks.findIdx? fun block => block.terminator.branches.any (·.target = target)

/-- The lowest slice ordinal the listed accesses address. -/
def firstSliceOrdinal (body : KernelBody) : Nat :=
  (((body.listed.filter body.isSliceAccess).filterMap body.ordinal).min?).getD 0 % 2 ^ 32

/-- Whether a value is reachable from the invocation index. -/
def laneDependent (body : KernelBody) (forwarded : ValueId) : Bool :=
  match body.parameters.getLast? with
  | some lane => body.dependsOn forwarded lane
  | none => false

end KernelBody

/-- A text two marks carry. -/
def duplicatedMark (marks : List KernelMark) : Option String :=
  let texts := marks.filterMap KernelMark.text
  texts.zipIdx.findSome? fun (text, index) =>
    if text ∈ texts.take index then some text else none

/-- One consumer of the producer, and the reads the composition reads off it. -/
structure Edge where
  fragment : KernelFragment
  absorbed : Nat
  reads : List (ValueId × Nat)
  absorbedReads : List (ValueId × ValueId)

/-- Everything one consumer must answer before the merged body is built. -/
def consumerEdge (producer consumer : KernelFragment) (absorbed index total : Nat) :
    Composing Edge := do
  gated consumer.body fun cause => .consumerIsNotWellFormed (.body cause)
  require (producer.target = consumer.target) (.targetsDiffer producer.target consumer.target)
  require (absorbed < consumer.inputs) (.absorbedIsOutOfRange absorbed consumer.inputs)
  require (consumer.inputClasses.length == consumer.inputs)
    (.consumerIsNotWellFormed (.classCount consumer.inputs consumer.inputClasses.length))
  require (producer.slices.isEmpty || consumer.slices.isEmpty)
    (.slicesCollide producer.body.firstSliceOrdinal consumer.body.firstSliceOrdinal)
  require consumer.bindsItsDomain
    (.parameterCountsDiffer producer.body.parameters.length consumer.body.parameters.length
      consumer.paramShape.flatArity)
  match duplicatedMark consumer.marks with
  | some text => refuse (.duplicatedMark text)
  | none => .ok ()
  match consumer.body.branchTargeting consumer.body.entry with
  | some block => refuse (.consumerEntryIsABranchTarget block)
  | none => .ok ()
  -- A branching entry leaves the merged body elsewhere, so only the last consumer may.
  require (total ≤ index + 1 || (consumer.body.block consumer.body.entry).terminator.returns)
    (.consumerEntryDoesNotReturn index)
  let reads ← consumer.body.bufferReads .consumer
  let absorbedReads := (reads.filter fun read => read.2 = absorbed).map fun read =>
    (read.1, consumer.body.readAddress read.1)
  require (!absorbedReads.isEmpty) (.absorbedIsNotRead absorbed)
  pure { fragment := consumer, absorbed, reads, absorbedReads }

/-- How the producer's value reaches a consumer: its cone is copied at the read's address, or its
store is kept and read back. -/
inductive Forwarding where
  | recomputed (cone : Cone)
  | staged

/-- Every absorbed read is a copy of the cone at its own address, or the store answers it. A value
that never reaches the invocation index is the same in every lane. -/
def forwardingOf (producer : KernelBody) (forwarded writtenAt read : ValueId) :
    Composing Forwarding :=
  match producer.indexLocalCone forwarded writtenAt producer.indexParameter with
  | .ok cone => .ok (.recomputed cone)
  | .error blocker =>
    if producer.laneDependent forwarded = false then .ok (.recomputed (Cone.reused forwarded))
    else
      match blocker with
      | .carried _ => .ok .staged
      | _ => refuse (.forwardedValueIsLaneDependent forwarded read blocker)

/-- The consumer's values as the merged body holds them. -/
structure Renumber where
  bound : ValueId → Option ValueId := fun _ => none
  landed : ValueId → Option ValueId := fun _ => none

namespace Renumber

def bind (renumber : Renumber) (value target : ValueId) : Renumber :=
  { renumber with bound := Function.update renumber.bound value (some target) }

def resolve (renumber : Renumber) (value : ValueId) : ValueId :=
  ((renumber.bound value).or (renumber.landed value)).getD value

end Renumber

/-- A map under construction and the value table it allocates in. -/
structure Allocation where
  ids : ValueId → Option ValueId := fun _ => none
  values : List ValueDef

namespace Allocation

/-- Give `value` a fresh id, defined as `definition`. -/
def add (allocation : Allocation) (value : ValueId) (definition : ValueDef) : Allocation where
  ids := Function.update allocation.ids value (some allocation.values.length)
  values := allocation.values ++ [definition]

/-- Give each listed value a fresh id, in order. -/
def addAll (values : List ValueDef) (items : List (ValueId × ValueDef)) : Allocation :=
  items.foldl (fun allocation item => allocation.add item.1 item.2) { values }

/-- A fresh integer constant for each listed value. -/
def constants (values : List ValueDef) (positions : List (ValueId × Nat)) : Allocation :=
  addAll values (positions.map fun (value, position) =>
    (value, .instr (.const .int (BitVec.ofNat 64 position)) [] [.int]))

end Allocation

/-- A position as a 64-bit signed constant holds it. -/
def clamped (position : Nat) : Nat :=
  min position (2 ^ 63 - 1)

/-- The position each surviving read of a consumer takes, in the union of the inputs. -/
def shiftedPositions (reads : List (ValueId × Nat)) (base absorbed : Nat) :
    List (ValueId × Nat) :=
  reads.filterMap fun (read, position) =>
    if position = absorbed then none
    else some (read, clamped (base + position - if absorbed < position then 1 else 0))

/-- The position each write of a consumer takes, past the outputs kept before. A position that
does not move is left out. -/
def shiftedWritePositions (consumer : KernelBody) (base : Nat) : List (ValueId × Nat) :=
  consumer.writeSites.filterMap fun write =>
    match consumer.ordinal write with
    | some position =>
      let moved := min (base + position) (2 ^ 64 - 1)
      if moved = position then none else some (write, clamped moved)
    | none => none

/-- The copies of a cone so far: the value table, each copied value's last copy, the copies in
order, and the sequence they are listed in. -/
structure Copying where
  values : List ValueDef
  fresh : ValueId → Option ValueId := fun _ => none
  copies : List (ValueId × ValueId) := []
  sequence : List ValueId

namespace Copying

/-- What a copy at `address` reads for one operand. -/
def operand (state : Copying) (cone : Cone) (address arg : ValueId) : ValueId :=
  match cone.origin arg with
  | .address => address
  | .rebuilt => (state.fresh arg).getD arg
  | .live value => value

/-- Copy one value of the cone, when the copy computes it again. -/
def step (cone : Cone) (producer : KernelBody) (address : ValueId) (state : Copying)
    (value : ValueId) : Copying :=
  match cone.origin value, producer.values[value]? with
  | .rebuilt, some (.instr op args classes) =>
    let id := state.values.length
    { values := state.values ++ [.instr op (args.map (state.operand cone address)) classes]
      fresh := Function.update state.fresh value (some id)
      copies := state.copies ++ [(value, id)]
      sequence := state.sequence ++ [id] }
  | _, _ => state

end Copying

/-- One copy of `cone` at `address`, and the value that answers it. -/
def copyCone (cone : Cone) (root : ValueId) (producer : KernelBody) (address : ValueId)
    (values : List ValueDef) (sequence : List ValueId) : Copying × ValueId :=
  let copied := cone.order.foldl (Copying.step cone producer address) { values, sequence }
  let answer :=
    match cone.origin root with
    | .rebuilt => (copied.fresh root).getD address
    | .live value => value
    | .address => address
  (copied, answer)

/-- The state while a consumer's blocks are spliced: the value table, the renumbering, the copies
shared in a block, every copy made, and the sequence being built. -/
structure Splicing where
  values : List ValueDef
  renumber : Renumber
  shared : Nat × ValueId → Option ValueId := fun _ => none
  copies : List (ValueId × ValueId) := []
  sequence : List ValueId := []

/-- What splicing a consumer's instruction reads: the producer and its cone, the address of each
absorbed read a copy answers, and the fresh position of each access that takes one. -/
structure SpliceContext where
  producer : KernelBody
  cone : Cone
  forwarded : ValueId
  addresses : ValueId → Option ValueId
  positions : ValueId → Option ValueId

/-- An instruction lands where it stood, after the constant its position takes. An absorbed read
is one copy of the cone per address per block. -/
def SpliceContext.instr (context : SpliceContext) (mergedBlock : Nat) (state : Splicing)
    (value : ValueId) : Splicing :=
  match context.addresses value with
  | none =>
    { state with
      sequence := state.sequence ++ (context.positions value).toList ++
        [state.renumber.resolve value] }
  | some address =>
    let address := state.renumber.resolve address
    match state.shared (mergedBlock, address) with
    | some root => { state with renumber := state.renumber.bind value root }
    | none =>
      let (copied, root) := copyCone context.cone context.forwarded context.producer address
        state.values state.sequence
      { values := copied.values
        renumber := state.renumber.bind value root
        shared := Function.update state.shared (mergedBlock, address) (some root)
        copies := state.copies ++ copied.copies
        sequence := copied.sequence }

/-- One block's instructions, and the sequence they become. -/
def SpliceContext.block (context : SpliceContext) (mapped : Nat → Nat)
    (state : Splicing × List (List ValueId)) (block : BasicBlock × Nat) :
    Splicing × List (List ValueId) :=
  let spliced := block.1.instrs.foldl (context.instr (mapped block.2))
    { state.1 with sequence := [] }
  (spliced, state.2 ++ [spliced.sequence])

/-- A terminator with every value and block named through the maps. -/
def mappedTerminator (value : ValueId → ValueId) (block : Nat → Nat) : Terminator → Terminator
  | .return values => .return (values.map value)
  | .br branch => .br ⟨block branch.target, branch.args.map value⟩
  | .condBr cond ifTrue ifFalse =>
    .condBr (value cond) ⟨block ifTrue.target, ifTrue.args.map value⟩
      ⟨block ifFalse.target, ifFalse.args.map value⟩

/-- A staged read names an output buffer: the producer's own. -/
def stagedOp : Option ValueId → KernelInstr → KernelInstr
  | some _, .bufferReadCall stated => .outputReadCall stated
  | _, op => op

/-- An access with a fresh position names it first. -/
def positioned : Option ValueId → List ValueId → List ValueId
  | some constant, _ :: rest => constant :: rest
  | _, args => args

theorem stagedOp_none (op : KernelInstr) : stagedOp none op = op := rfl

theorem stagedOp_const (staged : Option ValueId) (stated : ScalarClass) (bits : BitVec 64) :
    stagedOp staged (.const stated bits) = .const stated bits := by
  cases staged <;> rfl

theorem positioned_none (args : List ValueId) : positioned none args = args := by
  cases args <;> rfl

/-- A consumer's definition in the merged body. -/
def mappedDef (resolve : ValueId → ValueId) (block : Nat → Nat) (staged position : Option ValueId) :
    ValueDef → ValueDef
  | .blockParam owner index => .blockParam (block owner) index
  | .instr op args classes =>
    .instr (stagedOp staged op) (positioned position (args.map resolve)) classes

/-- Whether a staged pair's write and read address the same lane. -/
def sameLane (body : KernelBody) (write read : ValueId) : Bool :=
  match body.values[write]?, body.values[read]? with
  | some (.instr (.bufferWriteCall _) written _), some (.instr (.outputReadCall _) asked _) =>
    match written[1]?, asked[1]? with
    | some writeIndex, some readIndex => writeIndex = readIndex
    | _, _ => false
  | _, _ => false

/-- The barrier a staged pair records. A read in a block a lane can skip is ordered by an
observation in the block the reading body landed on. -/
def stagedBarrier (body : KernelBody) (write read : ValueId) (preHeader : Nat)
    (stated : ScalarClass) (ordinal : Nat) : KernelBody :=
  let pair := { body with barriers := body.barriers ++ [⟨write, read⟩] }
  if sameLane body write read then body
  else if (body.blockOf read).any body.everyLaneReaches then pair
  else
    let written := match body.definitionSite write with
      | some (block, _) => block == preHeader || body.dominance.dominates preHeader block
      | none => false
    let address := (((body.operandsOf write)[1]?).filter (body.valueDominates preHeader)).or
      body.indexParameter
    match written, address with
    | true, some address =>
      let position := body.values.length
      let observation := body.values.length + 1
      let block := body.block preHeader
      let at_ := ((block.instrs.findIdx? (· = write)).map (· + 1)).getD 0
      { body with
        values := body.values ++
          [.instr (.const .int (BitVec.ofNat 64 ordinal)) [] [.int],
            .instr (.outputReadCall stated) [position, address] [stated]]
        blocks := body.blocks.set preHeader
          { block with
            instrs := block.instrs.take at_ ++ [position, observation] ++
              block.instrs.drop at_ }
        barriers := body.barriers ++ [⟨write, observation⟩] }
    | _, _ => pair

def numberParameters (blocks : List BasicBlock) (values : List ValueDef) : List ValueDef :=
  blocks.zipIdx.foldl (fun values (block, index) =>
    block.params.zipIdx.foldl (fun values (param, position) =>
      values.set param (.blockParam index position)) values) values

namespace KernelBody

/-- A value that leaves no result: it is listed for its operands. -/
def leavesNothing (body : KernelBody) (value : ValueId) : Bool :=
  match body.values[value]? with
  | some (.instr _ _ classes) => classes.isEmpty
  | _ => false

/-- What keeps a value of its own: a returned value, a branch condition, a barrier's pair, a mark,
an entry parameter, an instruction that leaves nothing. -/
def roots (body : KernelBody) (marks : List KernelMark) : List ValueId :=
  (body.blocks.flatMap fun block =>
    match block.terminator with
    | .return values => values
    | .condBr cond _ _ => [cond]
    | .br _ => []) ++
  (body.barriers.flatMap fun barrier => [barrier.write, barrier.read]) ++
  marks.map KernelMark.value ++ body.parameters ++ body.listed.filter body.leavesNothing

def live (body : KernelBody) (marks : List KernelMark) : ValueId → Bool :=
  reached body.values.length (fun value => (body.sources value).reduceOption)
    (body.roots marks).reverse

/-- The id a live value keeps: how many live values stand before it. -/
def survivor (live : ValueId → Bool) (value : ValueId) : ValueId :=
  ((List.range value).filter live).length

/-- The id a surviving value holds, or the id itself for one that is dropped. -/
def renumbered (body : KernelBody) (live : ValueId → Bool) (value : ValueId) : ValueId :=
  if value < body.values.length ∧ live value then survivor live value else value

/-- The parameter positions of a block that stay. -/
def keeps (body : KernelBody) (live : ValueId → Bool) (block : Nat) : List Nat :=
  let params := (body.block block).params
  (List.range params.length).filter fun position => live (params.getD position 0)

def prunedBranch (body : KernelBody) (live : ValueId → Bool) (branch : Br) : Br where
  target := branch.target
  args := ((body.keeps live branch.target).filterMap (branch.args[·]?)).map (body.renumbered live)

/-- A terminator with the arguments of a dropped parameter removed. -/
def pruned (body : KernelBody) (live : ValueId → Bool) : Terminator → Terminator
  | .return values => .return (values.map (body.renumbered live))
  | .br branch => .br (body.prunedBranch live branch)
  | .condBr cond ifTrue ifFalse =>
    .condBr (body.renumbered live cond) (body.prunedBranch live ifTrue)
      (body.prunedBranch live ifFalse)

def isInstr (body : KernelBody) (value : ValueId) : Bool :=
  match body.values[value]? with
  | some (.instr _ _ _) => true
  | _ => false

def prunedBlock (body : KernelBody) (live : ValueId → Bool) (block : BasicBlock) : BasicBlock where
  params := (block.params.filter live).map (body.renumbered live)
  instrs := (block.instrs.filter fun value => body.isInstr value &&
    (live value || body.leavesNothing value)).map (body.renumbered live)
  terminator := body.pruned live block.terminator

def prunedDef (body : KernelBody) (live : ValueId → Bool) : ValueDef → ValueDef
  | .instr op args classes => .instr op (args.map (body.renumbered live)) classes
  | .blockParam _ _ => .blockParam 0 0

/-- Drop every value nothing reads, and give the survivors fresh ids. -/
def compact (body : KernelBody) (marks : List KernelMark) : KernelBody × List KernelMark :=
  let live := body.live marks
  let blocks := body.blocks.map (body.prunedBlock live)
  let values := (body.values.zipIdx.filter fun definition => live definition.2).map
    fun definition => body.prunedDef live definition.1
  ({ body with
      values := numberParameters blocks values
      blocks
      barriers := body.barriers.map fun barrier =>
        ⟨body.renumbered live barrier.write, body.renumbered live barrier.read⟩ },
    marks.map fun mark => { mark with value := body.renumbered live mark.value })

end KernelBody

end LichenVm.KernelIr
