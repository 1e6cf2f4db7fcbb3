import LichenVm.Compose

namespace LichenVm.KernelIr

open Allocation

/-- What the checks of a composition settle before the merged body is built. -/
structure MergePlan where
  producer : KernelFragment
  write : ValueId
  produced : ScalarClass
  forwarded : ValueId
  forwarding : Forwarding
  /-- The output the producer's store fills, where the store answers the consumers. -/
  stagedOrdinal : Option Nat
  scalars : ScalarUnion
  ports : Nat

/-- The merged body under construction, and what the consumers before have counted forward. -/
structure Merge where
  body : KernelBody
  blocksBase : Nat
  union : Nat
  outputs : Nat
  inputClasses : List ScalarClass
  outputClasses : List ScalarClass
  outputExtents : List (Option Nat)
  resultClasses : List ScalarClass := []
  slices : List Slice
  marks : List KernelMark := []

/-- Where a consumer's values landed, and the copies of the producer's cone made for it. -/
structure Landing where
  landed : ValueId → Option ValueId
  copies : List (ValueId × ValueId)

namespace MergePlan

/-- The staged path copies nothing, so the cone it would have copied is not read. -/
def cone (plan : MergePlan) : Cone :=
  match plan.forwarding with
  | .recomputed cone => cone
  | .staged => Cone.reused plan.forwarded

def returnBlock (plan : MergePlan) : Nat :=
  (plan.producer.body.blocks.findIdx? fun block => block.terminator.returns).getD 0

/-- The producer's body with the runtime scalars of every consumer spliced in. -/
def widened (plan : MergePlan) : KernelBody :=
  plan.producer.body.spliceRuntimeScalars (plan.scalars.own 0)
    (plan.scalars.total - plan.scalars.own 0)

/-- The merged body before the consumers: the producer's store goes, unless it answers them. -/
def start (plan : MergePlan) (exact : Bool) : Merge :=
  let body := { plan.widened with exactFloatArithmetic := exact }
  let body := match plan.stagedOrdinal with
    | some _ => body
    | none => { body with
        blocks := body.blocks.map fun block =>
          { block with instrs := block.instrs.filter (· ≠ plan.write) } }
  { body
    blocksBase := body.blocks.length
    union := plan.producer.inputs
    outputs := if plan.stagedOrdinal.isSome then plan.producer.outputs else 0
    inputClasses := plan.producer.inputClasses
    outputClasses := if plan.stagedOrdinal.isSome then plan.producer.outputClasses else []
    outputExtents :=
      if plan.stagedOrdinal.isSome then plan.producer.roles.outputExtents else []
    slices := plan.producer.slices }

/-- A staged read states the class of the buffer, as the write does. -/
def checkStagedReads (plan : MergePlan) (edge : Edge) : Composing Unit :=
  if plan.stagedOrdinal.isSome then
    edge.absorbedReads.forM fun (read, _) =>
      match edge.fragment.body.values[read]? with
      | some (.instr (.bufferReadCall stated) _ _) =>
        require (stated = plan.produced) (.classesDiffer plan.produced stated)
      | _ => refuse (.consumerIsNotWellFormed (.absorbedIsNoRead read))
  else .ok ()

/-- The merged parameters a consumer's own entry parameters are bound to, and in the recomputed
path each absorbed read bound to itself until a copy replaces it. -/
def bound (plan : MergePlan) (edge : Edge) (index : Nat) : Renumber :=
  let merged := plan.widened.parameters
  let parameters := edge.fragment.body.parameters.zipIdx.foldl (fun renumber (parameter, slot) =>
    renumber.bind parameter (merged.getD (landedSlot slot (plan.scalars.own (index + 1))
      (plan.scalars.before (index + 1)) plan.scalars.total) 0)) ({} : Renumber)
  if plan.stagedOrdinal.isSome then parameters
  else edge.absorbedReads.foldl (fun renumber (read, _) => renumber.bind read read) parameters

/-- The block of the merged body a consumer's block lands at. -/
def mapped (plan : MergePlan) (edge : Edge) (base block : Nat) : Nat :=
  let entry := edge.fragment.body.entry
  if block = entry then plan.returnBlock
  else base + block - if entry < block then 1 else 0

/-- The values a consumer allocates before its blocks are spliced. -/
structure Reserved where
  staged : Allocation
  landed : Allocation
  shifted : Allocation
  writes : Allocation

namespace Reserved

def positions (reserved : Reserved) (value : ValueId) : Option ValueId :=
  (reserved.staged.ids value).or ((reserved.shifted.ids value).or (reserved.writes.ids value))

end Reserved

/-- A constant for each staged read, a value for each value not bound, a constant for each
surviving read and each write that moves. -/
def reserve (plan : MergePlan) (edge : Edge) (bound : Renumber) (merge : Merge) : Reserved :=
  let staged := match plan.stagedOrdinal with
    | some ordinal => constants merge.body.values
        (edge.absorbedReads.map fun read => (read.1, ordinal))
    | none => { values := merge.body.values }
  let landed := addAll staged.values
    (((List.range edge.fragment.body.values.length).filter fun value =>
      (bound.bound value).isNone).map (·, .blockParam 0 0))
  let shifted := constants landed.values
    (shiftedPositions edge.reads merge.union edge.absorbed)
  let writes := constants shifted.values
    (shiftedWritePositions edge.fragment.body merge.outputs)
  { staged, landed, shifted, writes }

def context (plan : MergePlan) (edge : Edge) (reserved : Reserved) : SpliceContext where
  producer := plan.producer.body
  cone := plan.cone
  forwarded := plan.forwarded
  addresses := fun value =>
    if plan.stagedOrdinal.isSome then none else edge.absorbedReads.lookup value
  positions := reserved.positions

/-- Splice a consumer's blocks: the state after, and the sequence each block became. -/
def splice (plan : MergePlan) (edge : Edge) (base : Nat) (bound : Renumber)
    (reserved : Reserved) : Splicing × List (List ValueId) :=
  edge.fragment.body.blocks.zipIdx.foldl
    ((plan.context edge reserved).block (plan.mapped edge base))
    ({ values := reserved.writes.values
       renumber := { bound with landed := reserved.landed.ids } }, [])

/-- The value table once every landed value has its definition. -/
def define (plan : MergePlan) (edge : Edge) (base : Nat) (reserved : Reserved)
    (spliced : Splicing) : List ValueDef :=
  edge.fragment.body.values.zipIdx.foldl (fun values (definition, value) =>
    match reserved.landed.ids value with
    | none => values
    | some target => values.set target (mappedDef spliced.renumber.resolve
        (plan.mapped edge base) (reserved.staged.ids value) (reserved.positions value)
        definition)) spliced.values

/-- The merged blocks: the consumer's entry joins the return block, the others follow. -/
def place (plan : MergePlan) (edge : Edge) (base : Nat) (resolve : ValueId → ValueId)
    (sequences : List (List ValueId)) (blocks : List BasicBlock) : List BasicBlock :=
  let body := edge.fragment.body
  let terminator := mappedTerminator resolve (plan.mapped edge base)
  let others := (body.blocks.zip sequences).zipIdx.filterMap fun ((block, sequence), index) =>
    if index = body.entry then none
    else some ⟨block.params.map resolve, sequence, terminator block.terminator⟩
  let landing := blocks.getD plan.returnBlock ⟨[], [], .return []⟩
  blocks.set plan.returnBlock ⟨landing.params, landing.instrs ++ sequences.getD body.entry [],
    terminator (body.block body.entry).terminator⟩ ++ others

/-- The barriers the staged reads owe, each ordering the producer's store before the read. -/
def stage (plan : MergePlan) (edge : Edge) (resolve : ValueId → ValueId) (body : KernelBody) :
    KernelBody :=
  match plan.stagedOrdinal with
  | none => body
  | some ordinal => edge.absorbedReads.foldl (fun body (read, _) =>
    stagedBarrier body plan.write (resolve read) plan.returnBlock plan.produced ordinal) body

/-- One consumer joins the merged body. -/
def join (plan : MergePlan) (merge : Merge) (edge : Edge) (index : Nat) :
    Composing (Merge × Landing) := do
  plan.checkStagedReads edge
  let consumer := edge.fragment
  let bound := plan.bound edge index
  let reserved := plan.reserve edge bound merge
  let (spliced, sequences) := plan.splice edge merge.blocksBase bound reserved
  let resolve := spliced.renumber.resolve
  let body := { merge.body with
    values := plan.define edge merge.blocksBase reserved spliced
    blocks := plan.place edge merge.blocksBase resolve sequences merge.body.blocks
    barriers := merge.body.barriers ++ consumer.body.barriers.map fun barrier =>
      ⟨resolve barrier.write, resolve barrier.read⟩ }
  pure ({
    body := plan.stage edge resolve body
    blocksBase := merge.blocksBase + (consumer.body.blocks.length - 1)
    union := merge.union + (consumer.inputs - 1)
    outputs := merge.outputs + consumer.outputs
    inputClasses := merge.inputClasses ++ consumer.inputClasses.eraseIdx edge.absorbed
    outputClasses := merge.outputClasses ++ consumer.outputClasses
    outputExtents := merge.outputExtents ++ consumer.roles.outputExtents
    resultClasses := consumer.resultClasses
    slices := if merge.slices.isEmpty then consumer.slices else merge.slices
    marks := if index = 0 then consumer.marks.map fun mark =>
        { mark with value := resolve mark.value }
      else merge.marks },
    { landed := reserved.landed.ids, copies := spliced.copies })

/-- Every consumer joins, in order. -/
def joinAll (plan : MergePlan) : Merge → List (Edge × Nat) → Composing (Merge × List Landing)
  | merge, [] => .ok (merge, [])
  | merge, (edge, index) :: rest => do
    let (joined, landing) ← plan.join merge edge index
    let (final, landings) ← plan.joinAll joined rest
    pure (final, landing :: landings)

end MergePlan

/-- The output ordinal the producer's store names, where the store answers the consumers. -/
def stagedOrdinalOf (producer : KernelBody) (write : ValueId) :
    Forwarding → Composing (Option Nat)
  | .recomputed _ => .ok none
  | .staged =>
    match (producer.operandsOf write).head? with
    | none => refuse (.producerIsNotWellFormed (.storeNamesNoPosition write))
    | some position =>
      match producer.constant (some position) with
      | some ordinal => .ok (some ordinal)
      | none => refuse (.producerIsNotWellFormed (.storePositionIsNoConstant write position))

/-- Everything a composition decides before a body is touched. -/
def planMerge (producer : KernelFragment) (consumers : List (KernelFragment × Nat)) :
    Composing (MergePlan × List Edge) := do
  let some first := consumers.head? | refuse .noConsumerToInline
  gated producer.body fun cause => .producerIsNotWellFormed (.body cause)
  require (producer.inputClasses.length == producer.inputs)
    (.producerIsNotWellFormed (.classCount producer.inputs producer.inputClasses.length))
  let some scalars := ScalarUnion.of
      (producer.paramShape :: consumers.map fun consumer => consumer.1.paramShape)
    | refuse (.shapesDiffer producer.paramShape first.1.paramShape .namesNoExtentAndIndex)
  require producer.bindsItsDomain (.shapesDiffer producer.paramShape first.1.paramShape
    (.producerBindsAnother producer.body.parameters.length producer.paramShape.flatArity))
  let ports := consumers.foldl (fun ports consumer => ports + (consumer.1.inputs - 1))
    producer.inputs
  let producerReads ← producer.body.bufferReads .producer
  match producerReads.find? fun read => producer.inputs ≤ read.2 with
  | some (_, position) => refuse (.producerReadsOutsideTheMerge position ports)
  | none => .ok ()
  let edges ← consumers.zipIdx.mapM fun ((consumer, absorbed), index) =>
    consumerEdge producer consumer absorbed index consumers.length
  match producer.body.writeSites with
  | [] => refuse .producerWritesNothing
  | [write] =>
    let (produced, forwarded, writtenAt) ← producer.body.writeEdge write
    edges.forM fun edge =>
      let expected := edge.fragment.inputClasses.getD edge.absorbed .int
      require (produced = expected) (.classesDiffer produced expected)
    let returns := (producer.body.blocks.filter fun block => block.terminator.returns).length
    require (returns == 1) (.producerDoesNotReturnInOneBlock returns)
    let read := ((edges.head?.bind fun edge => edge.absorbedReads.head?).map Prod.fst).getD 0
    let forwarding ← forwardingOf producer.body forwarded writtenAt read
    let stagedOrdinal ← stagedOrdinalOf producer.body write forwarding
    pure ({ producer, write, produced, forwarded, forwarding, stagedOrdinal, scalars, ports },
      edges)
  | writes => refuse (.producerWritesSeveral writes.length)

/-- What a composition answers: the fragment, and which of its values each body's became. -/
structure Composed where
  fragment : KernelFragment
  /-- The producer's store, and the output it fills where it is kept. -/
  write : ValueId
  stagedOrdinal : Option Nat
  landings : List Landing
  survives : ValueId → Option ValueId

/-- Build the merged fragment a plan describes, and gate it. -/
def MergePlan.build (plan : MergePlan) (edges : List Edge) : Composing Composed := do
  let exact := plan.producer.body.exactFloatArithmetic ||
    edges.any fun edge => edge.fragment.body.exactFloatArithmetic
  let (merge, landings) ← plan.joinAll (plan.start exact) edges.zipIdx
  let (body, marks) := merge.body.compact merge.marks
  let fragment : KernelFragment := {
    paramShape := plan.scalars.shape
    roles := { outputExtents := merge.outputExtents }
    body
    inputs := plan.ports
    outputs := merge.outputs
    inputClasses := merge.inputClasses
    outputClasses := merge.outputClasses
    resultClasses := merge.resultClasses
    target := plan.producer.target
    slices := merge.slices
    marks }
  gated fragment.body .mergedBodyIsRefused
  match fragment.emptySlice with
  | some slice => refuse (.mergedFragmentIsRefused slice)
  | none => .ok ()
  let live := merge.body.live merge.marks
  pure { fragment, write := plan.write, stagedOrdinal := plan.stagedOrdinal, landings
         survives := fun value =>
           if value < merge.body.values.length ∧ live value then
             some (KernelBody.survivor live value) else none }

/-- The fragment the producer and every consumer become, with the values followed. -/
def composeFanOutTraced (producer : KernelFragment) (consumers : List (KernelFragment × Nat)) :
    Composing Composed := do
  let (plan, edges) ← planMerge producer consumers
  plan.build edges

def composeFanOut (producer : KernelFragment) (consumers : List (KernelFragment × Nat)) :
    Composing KernelFragment :=
  Composed.fragment <$> composeFanOutTraced producer consumers

end LichenVm.KernelIr
