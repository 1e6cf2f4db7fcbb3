import LichenVm.BodyEval
import LichenVm.FusionRepair

namespace LichenVm.Fusion

def BinaryOp.associative : BinaryOp → Bool
  | .add | .mul | .max | .min => true
  | _ => false

/-- The bits of a double, which is what a declared identity and a symbolic literal are. -/
abbrev F64 := BitVec 64

namespace F64

def zero : F64 := 0x0000000000000000
def negZero : F64 := 0x8000000000000000
def one : F64 := 0x3FF0000000000000
def infinity : F64 := 0x7FF0000000000000
def negInfinity : F64 := 0xFFF0000000000000

def exponentField (value : F64) : Nat := value.toNat / 2 ^ 52 % 2 ^ 11
def fraction (value : F64) : Nat := value.toNat % 2 ^ 52

def significand (value : F64) : Nat :=
  if value.exponentField = 0 then value.fraction else value.fraction + 2 ^ 52

/-- A finite double is its significand times two to this power. -/
def power (value : F64) : Int := Max.max value.exponentField 1 - 1075

def isNan (value : F64) : Bool := value.exponentField == 2047 && value.fraction != 0
def isInfinite (value : F64) : Bool := value.exponentField == 2047 && value.fraction == 0

/-- `value as i64`: towards zero, an integer out of range saturating and no number being zero. -/
def asI64 (value : F64) : BitVec 64 :=
  let magnitude : Nat :=
    if value.isInfinite then 2 ^ 63
    else if 0 ≤ value.power then value.significand * 2 ^ value.power.toNat
    else value.significand / 2 ^ (-value.power).toNat
  if value.isNan then 0
  else if value.msb then -BitVec.ofNat 64 (Min.min magnitude (2 ^ 63))
  else BitVec.ofNat 64 (Min.min magnitude (2 ^ 63 - 1))

/-- A quotient by a power of two, rounded to the nearest and a tie to the even one. -/
def roundEven (value shift : Nat) : Nat :=
  let quotient := value / 2 ^ shift
  let twice := value % 2 ^ shift * 2
  if 2 ^ shift < twice ∨ twice = 2 ^ shift ∧ quotient % 2 = 1 then quotient + 1 else quotient

/-- `value as f32`, as its bits. -/
def asF32 (value : F64) : BitVec 32 :=
  let sign : BitVec 32 := if value.msb then 0x80000000 else 0
  if value.isNan then sign ||| 0x7FC00000 ||| BitVec.ofNat 32 (value.fraction / 2 ^ 29)
  else if value.isInfinite then sign ||| 0x7F800000
  else if value.significand = 0 then sign
  else
    -- The least significant place a single keeps of this magnitude.
    let place := Max.max (value.power + (Nat.log2 value.significand + 1) - 24) (-149)
    let kept :=
      if place ≤ value.power then value.significand * 2 ^ (value.power - place).toNat
      else roundEven value.significand (place - value.power).toNat
    sign ||| BitVec.ofNat 32 (Min.min ((place + 149).toNat * 2 ^ 23 + kept) 0x7F800000)

example : asF32 one = 0x3F800000 := by decide
example : asI64 negInfinity = 0x8000000000000000 := by decide

end F64

end LichenVm.Fusion

namespace LichenVm.KernelIr.KernelBody

def new : KernelBody := ⟨[], [], 0, false, []⟩

/-- A fresh block, empty and unterminated. -/
def addBlock (body : KernelBody) : Nat × KernelBody :=
  (body.blocks.length, { body with blocks := body.blocks ++ [⟨[], [], .return []⟩] })

def addParam (body : KernelBody) (block : Nat) : ValueId × KernelBody :=
  let value := body.values.length
  (value, { body with
    values := body.values ++ [.blockParam block (body.block block).params.length]
    blocks := body.blocks.modify block fun held => { held with params := held.params ++ [value] } })

def addOp (body : KernelBody) (block : Nat) (op : KernelInstr) (args : List ValueId)
    (classes : List ScalarClass) : ValueId × KernelBody :=
  let value := body.values.length
  (value, { body with
    values := body.values ++ [.instr op args classes]
    blocks := body.blocks.modify block fun held => { held with instrs := held.instrs ++ [value] } })

def addConst (body : KernelBody) (block : Nat) (stated : ScalarClass) (bits : BitVec 64) :
    ValueId × KernelBody :=
  body.addOp block (.const stated bits) [] [stated]

def setTerminator (body : KernelBody) (block : Nat) (terminator : Terminator) : KernelBody :=
  { body with
    blocks := body.blocks.modify block fun held => { held with terminator := terminator } }

end LichenVm.KernelIr.KernelBody

namespace LichenVm.FusionBridge

open Fusion KernelIr

/-- The class an instruction names in its own form. -/
def ownClass : KernelInstr → Option ScalarClass
  | .const stated _ | .bin stated _ | .bufferReadCall stated | .outputReadCall stated
  | .bufferWriteCall stated | .bufferAtomicAddCall stated | .sliceWriteCall stated
  | .sliceReadCall stated => some stated
  | .conv _ target => some target
  | .exp | .sqrt | .floor | .ln | .sin | .cos | .negate | .fma => some .float
  | .i32WrapI64 | .select | .callKernel _ => none

/-- The lowered instruction a symbolic operator means. -/
def lowered : BinaryOp → Option KernelBin
  | .add => some .add
  | .sub => some .sub
  | .mul => some .mul
  | .div => some .div
  | .max => some .max
  | .min => some .min
  | .lessThan | .greaterThan | .lessEqual | .greaterEqual | .equal | .notEqual => none

inductive Identity where
  | int (bits : BitVec 64)
  | float (value : F64)
  | bFloat16 (value : F64)

namespace Identity

def stated : Identity → ScalarClass
  | int _ => .int
  | float _ => .float
  | bFloat16 _ => .bFloat16

/-- The bits a constant carries for this identity, at its own class. -/
def bits : Identity → BitVec 64
  | int bits => bits
  | float value | bFloat16 value => value.asF32.setWidth 64

/-- The identity a declared value is, at the class the fold computes in. -/
def of (value : F64) : ScalarClass → Identity
  | .int => int value.asI64
  | .float => float value
  | .bFloat16 => bFloat16 value

end Identity

/-- One step of a datum function, over the fold's single read of the datum. -/
inductive Step where
  | datum
  | constant (bits : BitVec 64)
  | binary (operator : KernelBin) (left right : Nat)

/-- The steps an expression contributes after those there are. -/
def stepOf (stated : ScalarClass) : Expr F64 → List Step → Option (List Step)
  | .var name, steps => if name = .DATUM then some (steps ++ [.datum]) else none
  | .unary _ _, _ => none
  | .constant value, steps => some (steps ++ [.constant (Identity.of value stated).bits])
  | .binary operator left right, steps => do
    let operator ← lowered operator
    let steps ← stepOf stated left steps
    let steps ← stepOf stated right steps
    let right := steps.length - 1
    let left := right - 1
    some (steps ++ [.binary operator left right])

def compile (expression : Expr F64) (stated : ScalarClass) : Option (List Step) :=
  stepOf stated expression []

/-- How the value a lane contributes at an address is computed. -/
inductive Element where
  | buffer (position : Nat)
  | address
  | slice (ordinal : Nat) (observed : ValueId)
  | function (position : Nat) (function : Expr F64)

inductive TileRefusal where
  | unsupportedCombine (operator : BinaryOp)
  | combineIsNotAssociative (operator : BinaryOp)
  | classesDisagree (combine identity : ScalarClass)
  | laneWidthIsNotAWholeCount (laneWidth : UInt32)
  | unsupportedDatum (expression : Expr F64)

/-- One fold's declared combine and identity, and the elements it is a fold over. -/
structure Folding where
  combine : KernelBin
  stated : ScalarClass
  identity : Identity
  element : Element
  datum : List Step

/-- The datum function of an element, compiled once. -/
def datumOf (element : Element) (stated : ScalarClass) : Except TileRefusal (List Step) :=
  match element with
  | .function _ function =>
    match compile function stated with
    | some steps => .ok steps
    | none => .error (.unsupportedDatum function)
  | _ => .ok []

def Folding.new (reduction : Reduction F64) (element : Element) (stated : ScalarClass) :
    Except TileRefusal Folding :=
  if reduction.combine.associative = false then
    .error (.combineIsNotAssociative reduction.combine)
  else
    match lowered reduction.combine with
    | none => .error (.unsupportedCombine reduction.combine)
    | some combine =>
      let identity := Identity.of reduction.identity stated
      if identity.stated ≠ stated then .error (.classesDisagree stated identity.stated)
      else do
        let datum ← datumOf element stated
        .ok ⟨combine, stated, identity, element, datum⟩

/-- A body being built, with the block its instructions land in and what it has emitted. -/
structure Builder where
  body : KernelBody
  block : Nat
  stated : ScalarClass
  constants : List ((ScalarClass × BitVec 64) × ValueId)
  sliceReads : List ValueId

abbrev Build := StateM Builder

namespace Builder

/-- A body starts with its entry block. -/
def new (stated : ScalarClass) : Builder :=
  let (entry, body) := KernelBody.new.addBlock
  ⟨body, entry, stated, [], []⟩

def current : Build Nat := fun builder => (builder.block, builder)

def enter (block : Nat) : Build Unit := fun builder => ((), { builder with block := block })

def addBlock : Build Nat := fun builder =>
  (builder.body.addBlock.1, { builder with body := builder.body.addBlock.2 })

def addParam (block : Nat) : Build ValueId := fun builder =>
  ((builder.body.addParam block).1, { builder with body := (builder.body.addParam block).2 })

def setTerminator (block : Nat) (terminator : Terminator) : Build Unit := fun builder =>
  ((), { builder with body := builder.body.setTerminator block terminator })

/-- The terminator of a body whose walk has ended. -/
def finish (values : List ValueId) : Build Unit := fun builder =>
  setTerminator builder.block (.return values) builder

def push (block : Nat) (op : KernelInstr) (args : List ValueId) : Build ValueId := fun builder =>
  let classes := if op.produces = 0 then [] else [(ownClass op).getD .int]
  let added := builder.body.addOp block op args classes
  (added.1, { builder with body := added.2 })

/-- The constant a class and bits name, stated once a body, in its entry. -/
def constant (stated : ScalarClass) (bits : BitVec 64) : Build ValueId := fun builder =>
  match builder.constants.lookup (stated, bits) with
  | some value => (value, builder)
  | none =>
    let added := builder.body.addConst builder.body.entry stated bits
    (added.1, { builder with
      body := added.2
      constants := ((stated, bits), added.1) :: builder.constants })

/-- One step of a datum function, over the values of the steps before it. -/
def replay (block : Nat) (stated : ScalarClass) (read : ValueId) (values : List ValueId) :
    Step → Build (List ValueId)
  | .datum => pure (values ++ [read])
  | .constant bits => do
    let value ← constant stated bits
    pure (values ++ [value])
  | .binary operator left right => do
    let value ← push block (.bin stated operator) [values.getD left 0, values.getD right 0]
    pure (values ++ [value])

def observe (read : ValueId) : Build Unit := fun builder =>
  ((), { builder with sliceReads := builder.sliceReads ++ [read] })

/-- The value the element at an address contributes, emitted into the current block. -/
def elementAt (element : Element) (address : ValueId) (datum : List Step) : Build ValueId := do
  let block ← current
  let stated := (← get).stated
  match element with
  | .buffer position =>
    let position ← constant .int (.ofNat 64 position)
    push block (.bufferReadCall stated) [position, address]
  | .slice ordinal observed =>
    let ordinal ← constant .int (.ofNat 64 ordinal)
    let read ← push block (.sliceReadCall stated) [ordinal, address, observed]
    observe read
    pure read
  | .address => pure address
  | .function position _ =>
    let position ← constant .int (.ofNat 64 position)
    let read ← push block (.bufferReadCall stated) [position, address]
    let values ← datum.foldlM (replay block stated read) []
    pure (values.getLast?.getD 0)

end Builder

open Builder

/-- One fold as a body is built: how many steps it takes, and where each step reads. -/
structure Fold where
  stop : ValueId
  start : ValueId
  identity : ValueId
  stride : BitVec 64
  modulo : Option (BitVec 64)
  element : Element
  datum : List Step
  operator : KernelBin

/-- An address folded back into a width, when there is one. -/
def foldedBack (block : Nat) (modulo : Option (BitVec 64)) (address : ValueId) : Build ValueId :=
  match modulo with
  | some modulo => do
    let modulo ← constant .int modulo
    push block (.bin .int .rem) [address, modulo]
  | none => pure address

/-- Emit the fold, and answer the value it accumulated. -/
def Fold.run (fold : Fold) : Build ValueId := do
  let origin ← current
  let header ← addBlock
  let counter ← addParam header
  let value ← addParam header
  let slot ← addParam header
  let step ← addBlock
  let next ← addParam step
  let held ← addParam step
  let carriedSlot ← addParam step
  let merged ← addBlock
  let result ← addParam merged
  let zero ← constant .int 0
  enter header
  let address ← foldedBack header fold.modulo slot
  let read ← elementAt fold.element address fold.datum
  let reached ← push header (.bin .int .lt) [counter, fold.stop]
  setTerminator origin (.br ⟨header, [zero, fold.identity, fold.start]⟩)
  setTerminator header (.condBr reached ⟨step, [counter, value, slot]⟩ ⟨merged, [value]⟩)
  enter step
  let stated := (← get).stated
  let combined ← push step (.bin stated fold.operator) [held, read]
  let one ← constant .int 1
  let advanced ← push step (.bin .int .add) [next, one]
  let stride ← constant .int fold.stride
  let moved ← push step (.bin .int .add) [carriedSlot, stride]
  let moved ← foldedBack step fold.modulo moved
  setTerminator step (.br ⟨header, [advanced, combined, moved]⟩)
  enter merged
  let after ← addBlock
  let left ← addParam after
  setTerminator merged (.br ⟨after, [result]⟩)
  enter after
  pure left

/-- The body that folds the whole space once, in one lane: lane `i` writes the fold over
`[0, i + 1)` at `out[i]`. -/
def Folding.perLane (folding : Folding) : KernelBody :=
  let build : Build Unit := do
    let entry := (← get).body.entry
    let _ ← addParam entry
    let lane ← addParam entry
    let one ← constant .int 1
    let stop ← push entry (.bin .int .add) [lane, one]
    let identity ← constant folding.stated folding.identity.bits
    let zero ← constant .int 0
    let folded ← Fold.run ⟨stop, zero, identity, 1, none, folding.element, folding.datum,
      folding.combine⟩
    let position ← constant .int 0
    let block ← current
    let _ ← push block (.bufferWriteCall folding.stated) [position, lane, folded]
    let dummy ← constant folding.stated folding.identity.bits
    finish [dummy]
  (build (Builder.new folding.stated)).2.body

/-- A tiled fold's body, the element source it folded, and the value it staged. -/
structure Tiled where
  body : KernelBody
  element : Element
  staged : ValueId
  stagedCount : UInt32

/-- What building a tiled body emits, and the slice write it answers. -/
def Folding.tile (folding : Folding) (laneWidth : UInt32) (slice : Nat) : Build ValueId := do
  let entry := (← get).body.entry
  let extent ← addParam entry
  let lane ← addParam entry
  let width ← constant .int (.ofNat 64 laneWidth.toNat)
  let slot ← push entry (.bin .int .rem) [lane, width]
  let identity ← constant folding.stated folding.identity.bits
  let bias ← constant .int (.ofNat 64 (laneWidth.toNat - 1))
  let biased ← push entry (.bin .int .add) [extent, bias]
  let steps ← push entry (.bin .int .div) [biased, width]
  let laneSlot ← constant .int 0
  let folded ← Fold.run ⟨steps, lane, identity, .ofNat 64 laneWidth.toNat, none, folding.element,
    folding.datum, folding.combine⟩
  let ordinal ← constant .int (.ofNat 64 slice)
  let block ← current
  let write ← push block (.sliceWriteCall folding.stated) [ordinal, slot, folded]
  let identity ← constant folding.stated folding.identity.bits
  let reading ← Fold.run ⟨width, laneSlot, identity, 1, some (.ofNat 64 laneWidth.toNat),
    .slice slice write, [], folding.combine⟩
  let first := (← get).sliceReads.head?.getD 0
  modify fun builder =>
    { builder with body.barriers := builder.body.barriers ++ [⟨write, first⟩] }
  let position ← constant .int 0
  let block ← current
  let _ ← push block (.bufferWriteCall folding.stated) [position, lane, reading]
  let dummy ← constant folding.stated folding.identity.bits
  finish [dummy]
  pure write

/-- The body that folds the space across the workgroup's lanes. -/
def Folding.tiled (folding : Folding) (laneWidth : UInt32) (slice : Nat) :
    Except TileRefusal Tiled :=
  if laneWidth = 0 then .error (.laneWidthIsNotAWholeCount laneWidth)
  else
    let (staged, builder) := folding.tile laneWidth slice (Builder.new folding.stated)
    .ok ⟨builder.body, folding.element, staged, laneWidth⟩

end LichenVm.FusionBridge
