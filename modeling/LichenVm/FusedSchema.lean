import LichenVm.KernelFragment

/-! A fused kernel as an artifact, the artifact's own schema, and the two conversions between them. -/

namespace LichenVm.KernelIr

/-- The interface a kernel claims. -/
structure KernelClaim where
  interface : String
  roles : List String
  deriving DecidableEq

/-- Where one staged value lives. -/
structure Staging where
  name : String
  space : Space
  groupWidth : Nat
  deriving DecidableEq

structure Plan where
  staging : List Staging := []
  deriving DecidableEq

/-- The fragment, the claim it is interned with, and the plan it was checked against. -/
structure FusedKernel where
  fragment : KernelFragment
  claim : Option KernelClaim
  plan : Plan

namespace Schema

inductive ScalarClass where
  | int
  | float
  | bFloat16
  deriving DecidableEq

inductive IntWidth where
  | i64
  | i32
  deriving DecidableEq

inductive Space where
  | register
  | warp
  | shared
  deriving DecidableEq

inductive KernelBin where
  | add
  | sub
  | mul
  | div
  | rem
  | max
  | min
  | lt
  | gt
  | leq
  | geq
  | eq
  | neq
  | bitAnd
  | bitOr
  | bitXor
  deriving DecidableEq

/-- A number as the text spells it: which value it names is for the reader to check. -/
abbrev ValueId := Nat

inductive KernelInstr where
  | const (stated : ScalarClass) (bits : BitVec 64)
  | bin (stated : ScalarClass) (op : KernelBin)
  | fma
  | negate
  | i32WrapI64
  | select
  | exp
  | sqrt
  | floor
  | ln
  | sin
  | cos
  | callKernel (kernel : Nat)
  | conv (source target : ScalarClass)
  | bufferReadCall (stated : ScalarClass)
  | bufferWriteCall (stated : ScalarClass)
  | outputReadCall (stated : ScalarClass)
  | bufferAtomicAddCall (stated : ScalarClass)
  | sliceWriteCall (stated : ScalarClass)
  | sliceReadCall (stated : ScalarClass)
  deriving DecidableEq

structure Br where
  target : Nat
  args : List ValueId
  deriving DecidableEq

inductive Terminator where
  | return (values : List ValueId)
  | br (branch : Br)
  | condBr (cond : ValueId) (ifTrue ifFalse : Br)
  deriving DecidableEq

/-- A parameter names its block alone: its index is where the block lists it. -/
inductive ValueDef where
  | blockParam (block : Nat)
  | instr (op : KernelInstr) (args : List ValueId) (classes : List ScalarClass)
  deriving DecidableEq

structure BasicBlock where
  params : List ValueId
  instrs : List ValueId
  terminator : Terminator
  deriving DecidableEq

structure Barrier where
  write : ValueId
  read : ValueId
  deriving DecidableEq

structure Body where
  values : List ValueDef
  blocks : List BasicBlock
  entry : Nat
  exactFloatArithmetic : Bool
  barriers : List Barrier
  deriving DecidableEq

inductive Shape where
  | scalar (leaf : ScalarClass)
  | tuple (items : List Shape)

/-- The text states no length of an output. -/
structure Roles where
  scalars : List (List Nat)
  inputs : List (List Nat)
  outputs : List (List Nat)
  inputClasses : List (Option ScalarClass)
  outputClasses : List (Option ScalarClass)
  deriving DecidableEq

structure Target where
  intWidth : IntWidth
  laneWidth : Nat
  laneHeight : Nat
  deriving DecidableEq

structure Slice where
  stated : ScalarClass
  count : Nat
  space : Space
  deriving DecidableEq

structure MarkField where
  name : Option String
  text : String
  deriving DecidableEq

structure Mark where
  value : ValueId
  payload : List MarkField
  deriving DecidableEq

structure Fragment where
  paramShape : Shape
  roles : Roles
  body : Body
  inputs : Nat
  outputs : Nat
  inputClasses : List ScalarClass
  outputClasses : List ScalarClass
  resultClasses : List ScalarClass
  target : Target
  slices : List Slice
  marks : List Mark

structure Claim where
  interface : String
  roles : List String
  deriving DecidableEq

structure Staging where
  name : String
  space : Space
  groupWidth : Nat
  deriving DecidableEq

structure Plan where
  staging : List Staging
  deriving DecidableEq

structure Artifact where
  version : Nat
  fragment : Fragment
  claim : Option Claim
  plan : Plan

def FORMAT_VERSION : Nat := 3

end Schema

section Writing

def ScalarClass.toText : ScalarClass → Schema.ScalarClass
  | .int => .int
  | .float => .float
  | .bFloat16 => .bFloat16

def IntWidth.toText : IntWidth → Schema.IntWidth
  | .i64 => .i64

def Space.toText : Space → Schema.Space
  | .register => .register
  | .warp => .warp
  | .shared => .shared

def KernelBin.toText : KernelBin → Schema.KernelBin
  | .add => .add
  | .sub => .sub
  | .mul => .mul
  | .div => .div
  | .rem => .rem
  | .max => .max
  | .min => .min
  | .lt => .lt
  | .gt => .gt
  | .leq => .leq
  | .geq => .geq
  | .eq => .eq
  | .neq => .neq
  | .bitAnd => .bitAnd
  | .bitOr => .bitOr
  | .bitXor => .bitXor

def KernelInstr.toText : KernelInstr → Schema.KernelInstr
  | .const stated bits => .const stated.toText bits
  | .bin stated op => .bin stated.toText op.toText
  | .fma => .fma
  | .negate => .negate
  | .i32WrapI64 => .i32WrapI64
  | .select => .select
  | .exp => .exp
  | .sqrt => .sqrt
  | .floor => .floor
  | .ln => .ln
  | .sin => .sin
  | .cos => .cos
  | .callKernel kernel => .callKernel kernel
  | .conv source target => .conv source.toText target.toText
  | .bufferReadCall stated => .bufferReadCall stated.toText
  | .bufferWriteCall stated => .bufferWriteCall stated.toText
  | .outputReadCall stated => .outputReadCall stated.toText
  | .bufferAtomicAddCall stated => .bufferAtomicAddCall stated.toText
  | .sliceWriteCall stated => .sliceWriteCall stated.toText
  | .sliceReadCall stated => .sliceReadCall stated.toText

def Br.toText (branch : Br) : Schema.Br where
  target := branch.target
  args := branch.args

def Terminator.toText : Terminator → Schema.Terminator
  | .return values => .return values
  | .br branch => .br branch.toText
  | .condBr cond ifTrue ifFalse => .condBr cond ifTrue.toText ifFalse.toText

def BasicBlock.toText (block : BasicBlock) : Schema.BasicBlock where
  params := block.params
  instrs := block.instrs
  terminator := block.terminator.toText

def Barrier.toText (barrier : Barrier) : Schema.Barrier where
  write := barrier.write
  read := barrier.read

def ValueDef.toText : ValueDef → Schema.ValueDef
  | .blockParam block _ => .blockParam block
  | .instr op args classes => .instr op.toText args (classes.map ScalarClass.toText)

def KernelBody.toText (body : KernelBody) : Schema.Body where
  values := body.values.map ValueDef.toText
  blocks := body.blocks.map BasicBlock.toText
  entry := body.entry
  exactFloatArithmetic := body.exactFloatArithmetic
  barriers := body.barriers.map Barrier.toText

mutual

def KernelShape.toText : KernelShape → Schema.Shape
  | .scalar leaf => .scalar leaf.toText
  | .tuple items => .tuple (KernelShape.toTexts items)

def KernelShape.toTexts : List KernelShape → List Schema.Shape
  | [] => []
  | item :: items => item.toText :: KernelShape.toTexts items

end

def KernelRoles.toText (roles : KernelRoles) : Schema.Roles where
  scalars := roles.scalars
  inputs := roles.inputs
  outputs := roles.outputs
  inputClasses := roles.inputClasses.map (Option.map ScalarClass.toText)
  outputClasses := roles.outputClasses.map (Option.map ScalarClass.toText)

def TargetFacts.toText (target : TargetFacts) : Schema.Target where
  intWidth := target.intWidth.toText
  laneWidth := target.laneWidth
  laneHeight := target.laneHeight

def Slice.toText (slice : Slice) : Schema.Slice where
  stated := slice.stated.toText
  count := slice.count
  space := slice.space.toText

def MarkField.toText (field : MarkField) : Schema.MarkField where
  name := field.name
  text := field.text

def KernelMark.toText (mark : KernelMark) : Schema.Mark where
  value := mark.value
  payload := mark.payload.map MarkField.toText

def KernelFragment.toText (fragment : KernelFragment) : Schema.Fragment where
  paramShape := fragment.paramShape.toText
  roles := fragment.roles.toText
  body := fragment.body.toText
  inputs := fragment.inputs
  outputs := fragment.outputs
  inputClasses := fragment.inputClasses.map ScalarClass.toText
  outputClasses := fragment.outputClasses.map ScalarClass.toText
  resultClasses := fragment.resultClasses.map ScalarClass.toText
  target := fragment.target.toText
  slices := fragment.slices.map Slice.toText
  marks := fragment.marks.map KernelMark.toText

def KernelClaim.toText (claim : KernelClaim) : Schema.Claim where
  interface := claim.interface
  roles := claim.roles

def Staging.toText (staging : Staging) : Schema.Staging where
  name := staging.name
  space := staging.space.toText
  groupWidth := staging.groupWidth

def Plan.toText (plan : Plan) : Schema.Plan where
  staging := plan.staging.map Staging.toText

def FusedKernel.toText (kernel : FusedKernel) : Schema.Artifact where
  version := Schema.FORMAT_VERSION
  fragment := kernel.fragment.toText
  claim := kernel.claim.map KernelClaim.toText
  plan := kernel.plan.toText

end Writing

/-- Where a conversion found a name that holds nothing, and what it named. -/
structure NotAnIrValue where
  path : String
  found : String
  deriving DecidableEq

namespace Schema

section Reading

/-- A number that the machine indexes with: it is as wide as the field that it is written in. -/
def wide (_here : String) (value : Nat) : Except NotAnIrValue Nat := .ok value

/-- Read each item with its place in the list. -/
def readEach {A B : Type} (read : Nat → A → Except NotAnIrValue B) :
    Nat → List A → Except NotAnIrValue (List B)
  | _, [] => .ok []
  | place, item :: items => do
    let value ← read place item
    let values ← readEach read (place + 1) items
    .ok (value :: values)

/-- The number a value id names, in a table of so many. -/
def tableId (values : Nat) (here : String) (value : ValueId) : Except NotAnIrValue KernelIr.ValueId :=
  if values ≤ value then
    .error { path := here
             found := s!"value {value}, and this body's table holds {values} value(s)" }
  else .ok value

def tableIds (values : Nat) (here : String) (ids : List ValueId) :
    Except NotAnIrValue (List KernelIr.ValueId) :=
  readEach (fun place value => tableId values s!"{here}[{place}]" value) 0 ids

def ScalarClass.toIr : ScalarClass → KernelIr.ScalarClass
  | int => .int
  | float => .float
  | bFloat16 => .bFloat16

/-- The width a text declares, or the refusal of a width that the IR has no name for. -/
def IntWidth.toIr (here : String) : IntWidth → Except NotAnIrValue KernelIr.IntWidth
  | i64 => .ok .i64
  | i32 => .error { path := here
                    found := "the width `i32`, which the kernel IR names no variant for" }

def Space.toIr : Space → KernelIr.Space
  | register => .register
  | warp => .warp
  | shared => .shared

def KernelBin.toIr : KernelBin → KernelIr.KernelBin
  | add => .add
  | sub => .sub
  | mul => .mul
  | div => .div
  | rem => .rem
  | max => .max
  | min => .min
  | lt => .lt
  | gt => .gt
  | leq => .leq
  | geq => .geq
  | eq => .eq
  | neq => .neq
  | bitAnd => .bitAnd
  | bitOr => .bitOr
  | bitXor => .bitXor

/-- One instruction's IR form. -/
def KernelInstr.toIr (here : String) : KernelInstr → Except NotAnIrValue KernelIr.KernelInstr
  | const stated bits => .ok (.const stated.toIr bits)
  | bin stated op => .ok (.bin stated.toIr op.toIr)
  | fma => .ok .fma
  | negate => .ok .negate
  | i32WrapI64 => .ok .i32WrapI64
  | select => .ok .select
  | exp => .ok .exp
  | sqrt => .ok .sqrt
  | floor => .ok .floor
  | ln => .ok .ln
  | sin => .ok .sin
  | cos => .ok .cos
  | callKernel kernel => do
    let id ← wide s!"{here}.kernel" kernel
    .ok (.callKernel id)
  | conv source target => .ok (.conv source.toIr target.toIr)
  | bufferReadCall stated => .ok (.bufferReadCall stated.toIr)
  | bufferWriteCall stated => .ok (.bufferWriteCall stated.toIr)
  | outputReadCall stated => .ok (.outputReadCall stated.toIr)
  | bufferAtomicAddCall stated => .ok (.bufferAtomicAddCall stated.toIr)
  | sliceWriteCall stated => .ok (.sliceWriteCall stated.toIr)
  | sliceReadCall stated => .ok (.sliceReadCall stated.toIr)

def Br.toIr (values : Nat) (here : String) (branch : Br) : Except NotAnIrValue KernelIr.Br := do
  let target ← wide s!"{here}.target" branch.target
  let args ← tableIds values s!"{here}.args" branch.args
  .ok { target, args }

def Terminator.toIr (table : Nat) (here : String) :
    Terminator → Except NotAnIrValue KernelIr.Terminator
  | .return values => do
    let values ← tableIds table s!"{here}.return.values" values
    .ok (.return values)
  | .br branch => do
    let branch ← branch.toIr table s!"{here}.br"
    .ok (.br branch)
  | .condBr cond ifTrue ifFalse => do
    let cond ← tableId table s!"{here}.cond_br.cond" cond
    let ifTrue ← ifTrue.toIr table s!"{here}.cond_br.if_true"
    let ifFalse ← ifFalse.toIr table s!"{here}.cond_br.if_false"
    .ok (.condBr cond ifTrue ifFalse)

def BasicBlock.toIr (table : Nat) (here : String) (block : BasicBlock) :
    Except NotAnIrValue KernelIr.BasicBlock := do
  let params ← tableIds table s!"{here}.params" block.params
  let instrs ← tableIds table s!"{here}.instrs" block.instrs
  let terminator ← block.terminator.toIr table s!"{here}.terminator"
  .ok { params, instrs, terminator }

def paramIndex (blocks : List KernelIr.BasicBlock) (ordinal block : Nat) : Except NotAnIrValue Nat :=
  match blocks[block]?.bind fun basic => basic.params.findIdx? fun value => value = ordinal with
  | none => .error
      { path := s!"fragment.body.values[{ordinal}].block_param"
        found := s!"block {block}, which does not list value {ordinal} among its params" }
  | some index =>
    if index < 2 ^ 32 then .ok index
    else .error
      { path := s!"fragment.body.values[{ordinal}].block_param"
        found := s!"block {block}, which receives {index} parameter(s), more than a block may declare" }

def ValueDef.toIr (table : Nat) (blocks : List KernelIr.BasicBlock) (ordinal : Nat) :
    ValueDef → Except NotAnIrValue KernelIr.ValueDef
  | blockParam block => do
    let block ← wide s!"fragment.body.values[{ordinal}].block_param.block" block
    let index ← paramIndex blocks ordinal block
    .ok (.blockParam block index)
  | instr op args classes => do
    let here := s!"fragment.body.values[{ordinal}]"
    let op ← op.toIr s!"{here}.instr.op"
    let args ← tableIds table s!"{here}.instr.args" args
    .ok (.instr op args (classes.map ScalarClass.toIr))

def Barrier.toIr (table ordinal : Nat) (barrier : Barrier) : Except NotAnIrValue KernelIr.Barrier := do
  let here := s!"fragment.body.barriers[{ordinal}]"
  let write ← tableId table s!"{here}.write" barrier.write
  let read ← tableId table s!"{here}.read" barrier.read
  .ok { write, read }

def MarkField.toIr (field : MarkField) : KernelIr.MarkField where
  name := field.name
  text := field.text

def Mark.toIr (table ordinal : Nat) (mark : Mark) : Except NotAnIrValue KernelIr.KernelMark := do
  let value ← tableId table s!"fragment.marks[{ordinal}].value" mark.value
  .ok { value, payload := mark.payload.map MarkField.toIr }

mutual

def Shape.toIr : Shape → KernelIr.KernelShape
  | .scalar leaf => .scalar leaf.toIr
  | .tuple items => .tuple (Shape.toIrs items)

def Shape.toIrs : List Shape → List KernelIr.KernelShape
  | [] => []
  | item :: items => item.toIr :: Shape.toIrs items

end

/-- Every output is left open: the text states no length. -/
def Roles.toIr (roles : Roles) : KernelIr.KernelRoles where
  scalars := roles.scalars
  inputs := roles.inputs
  outputs := roles.outputs
  inputClasses := roles.inputClasses.map (Option.map ScalarClass.toIr)
  outputClasses := roles.outputClasses.map (Option.map ScalarClass.toIr)
  outputExtents := (List.range roles.outputs.length).map fun _ => none

def Target.toIr (here : String) (facts : Target) : Except NotAnIrValue KernelIr.TargetFacts := do
  let intWidth ← facts.intWidth.toIr s!"{here}.int_width"
  .ok { intWidth, laneWidth := facts.laneWidth, laneHeight := facts.laneHeight }

def Slice.toIr (slice : Slice) : KernelIr.Slice where
  stated := slice.stated.toIr
  count := slice.count
  space := slice.space.toIr

/-- The fragment a text names, or the refusal naming what it met. -/
def Fragment.toIr (text : Fragment) : Except NotAnIrValue KernelIr.KernelFragment := do
  let table := text.body.values.length
  let blocks ← readEach
    (fun ordinal block => BasicBlock.toIr table s!"fragment.body.blocks[{ordinal}]" block) 0
    text.body.blocks
  let values ← readEach (fun ordinal entry => entry.toIr table blocks ordinal) 0 text.body.values
  let barriers ← readEach (fun ordinal barrier => barrier.toIr table ordinal) 0 text.body.barriers
  let marks ← readEach (fun ordinal mark => mark.toIr table ordinal) 0 text.marks
  let entry ← wide "fragment.body.entry" text.body.entry
  let inputs ← wide "fragment.inputs" text.inputs
  let outputs ← wide "fragment.outputs" text.outputs
  let target ← text.target.toIr "fragment.target"
  .ok
    { paramShape := text.paramShape.toIr
      roles := text.roles.toIr
      body := { values, blocks, entry, exactFloatArithmetic := text.body.exactFloatArithmetic, barriers }
      inputs, outputs
      inputClasses := text.inputClasses.map ScalarClass.toIr
      outputClasses := text.outputClasses.map ScalarClass.toIr
      resultClasses := text.resultClasses.map ScalarClass.toIr
      target
      slices := text.slices.map Slice.toIr
      marks }

def Claim.toIr (claim : Claim) : KernelIr.KernelClaim where
  interface := claim.interface
  roles := claim.roles

def Staging.toIr (staging : Staging) : KernelIr.Staging where
  name := staging.name
  space := staging.space.toIr
  groupWidth := staging.groupWidth

def Plan.toIr (plan : Plan) : KernelIr.Plan where
  staging := plan.staging.map Staging.toIr

def Artifact.toIr (artifact : Artifact) : Except NotAnIrValue KernelIr.FusedKernel := do
  let fragment ← artifact.fragment.toIr
  .ok { fragment, claim := artifact.claim.map Claim.toIr, plan := artifact.plan.toIr }

end Reading

end Schema

end LichenVm.KernelIr
