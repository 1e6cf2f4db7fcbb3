import LichenVm.TiledFold
import Mathlib.Data.EReal.Inv

namespace LichenVm.FusionBridge

open Fusion KernelIr

/-- The number the bits of a single are. What is no number is taken as zero. -/
noncomputable def single (bits : BitVec 32) : EReal :=
  let exponent : Nat := bits.toNat / 2 ^ 23 % 2 ^ 8
  let fraction : Nat := bits.toNat % 2 ^ 23
  let magnitude : EReal :=
    if exponent = 255 then if fraction = 0 then ⊤ else 0
    else if exponent = 0 then (((fraction : ℝ) * 2 ^ (-149 : ℤ) : ℝ) : EReal)
    else (((fraction + 2 ^ 23 : ℝ) * 2 ^ ((exponent : ℤ) - 150) : ℝ) : EReal)
  if bits.msb then -magnitude else magnitude

/-- A value of a lane: a word, or an exact number where the class is real. -/
inductive Number where
  | word (bits : BitVec 64)
  | exact (value : EReal)
  | undefined

namespace Number

def bits : Number → BitVec 64
  | word bits => bits
  | _ => 0

def flag (held : Bool) : Number := word (if held then 1 else 0)

/-- The unsigned reading of an integer operator. A division by zero leaves zero. -/
def wordBin (left right : BitVec 64) : KernelBin → Number
  | .add => word (left + right)
  | .sub => word (left - right)
  | .mul => word (left * right)
  | .div => word (left / right)
  | .rem => word (left % right)
  | .max => word (if right < left then left else right)
  | .min => word (if left < right then left else right)
  | .lt => flag (left < right)
  | .gt => flag (right < left)
  | .leq => flag (left ≤ right)
  | .geq => flag (right ≤ left)
  | .eq => flag (left == right)
  | .neq => flag (left != right)
  | .bitAnd => word (left &&& right)
  | .bitOr => word (left ||| right)
  | .bitXor => word (left ^^^ right)

open Classical in
noncomputable def exactBin (left right : EReal) : KernelBin → Number
  | .add => exact (left + right)
  | .sub => exact (left - right)
  | .mul => exact (left * right)
  | .div => exact (left / right)
  | .max => exact (if right < left then left else right)
  | .min => exact (if left < right then left else right)
  | .lt => flag (left < right)
  | .gt => flag (right < left)
  | .leq => flag (left ≤ right)
  | .geq => flag (right ≤ left)
  | .eq => flag (left = right)
  | .neq => flag (left ≠ right)
  | .rem | .bitAnd | .bitOr | .bitXor => undefined

noncomputable def bin (stated : ScalarClass) (op : KernelBin) : Number → Number → Number
  | word left, word right => match stated with
      | .int => wordBin left right op
      | _ => undefined
  | exact left, exact right => match stated with
      | .int => undefined
      | _ => exactBin left right op
  | _, _ => undefined

noncomputable def literal (bits : BitVec 64) : ScalarClass → Number
  | .int => word bits
  | .float | .bFloat16 => exact (single (bits.setWidth 32))

/-- What the instructions of a fold leave: its constants and its binary operators. -/
noncomputable def compute : KernelInstr → List Number → Number
  | .const stated bits, _ => literal bits stated
  | .bin stated op, [left, right] => bin stated op left right
  | _, _ => undefined

/-- A condition is a scalar that is zero or one. -/
def taken : Number → Option Bool
  | word bits => if bits = 1 then some true else if bits = 0 then some false else none
  | _ => none

end Number

/-- A value with the addresses whose elements entered it. -/
structure Traced where
  number : Number
  elements : List Nat

namespace Traced

instance : Inhabited Traced := ⟨⟨.undefined, []⟩⟩

def plain (number : Number) : Traced := ⟨number, []⟩

noncomputable def meaning : Meaning Traced where
  compute op operands := ⟨Number.compute op (operands.map number), operands.flatMap elements⟩
  taken value := Number.taken value.number

end Traced

def Scalar : ScalarClass → Type
  | .int => BitVec 64
  | .float | .bFloat16 => EReal

def Number.of : (stated : ScalarClass) → Scalar stated → Number
  | .int, bits => .word bits
  | .float, value | .bFloat16, value => .exact value

/-- The element a buffer of a launch holds at each address, those past its count included. -/
abbrev Buffers (stated : ScalarClass) := Nat → Nat → Scalar stated

/-- What the lanes of a group staged, by slice and slot. -/
abbrev Slices := Nat → Nat → Traced

/-- A launch over whole groups. A buffer of its count of eight-byte elements is one allocation. -/
structure Launch where
  laneWidth : UInt32
  groups : Nat
  wide : 0 < laneWidth.toNat
  occupied : 0 < groups
  fits : groups * laneWidth.toNat * 8 < 2 ^ 63

namespace Launch

def count (launch : Launch) : Nat := launch.groups * launch.laneWidth.toNat

end Launch

section Lane

variable {stated : ScalarClass} (buffers : Buffers stated) (slices : Slices)

/-- What an access leaves. A read of a buffer is of the element at its address. -/
def answer : Event Traced → Traced
  | ⟨.bufferReadCall _, [position, address]⟩ =>
    ⟨.of stated (buffers position.number.bits.toNat address.number.bits.toNat),
      [address.number.bits.toNat]⟩
  | ⟨.sliceReadCall _, [ordinal, slot, _]⟩ =>
    slices ordinal.number.bits.toNat slot.number.bits.toNat
  | ⟨.sliceWriteCall _, [_, _, value]⟩ => value
  | _ => default

/-- A lane's run of a body over a launch's count, its own index last. -/
def LaneRuns (body : KernelBody) (count lane : Nat) (trace : List (Event Traced)) : Prop :=
  ∃ values, body.Returns Traced.meaning (fun _ => answer buffers slices)
    (body.enter [.plain (.word (.ofNat 64 count)), .plain (.word (.ofNat 64 lane))])
    (values, trace)

end Lane

/-- Whether an event stages a value, and into which slot of which slice. -/
def stagedBy (ordinal slot : Nat) : Event Traced → Option Traced
  | ⟨.sliceWriteCall _, [at_, into, value]⟩ =>
    if at_.number.bits.toNat = ordinal ∧ into.number.bits.toNat = slot then some value else none
  | _ => none

def readsSlice (event : Event Traced) : Bool :=
  match event.op with
  | .sliceReadCall _ => true
  | _ => false

/-- What a group's slices hold past its barrier: the last value its lanes staged before any of them
reads a slice, by slice and slot. -/
def stagedSlices (traces : List (List (Event Traced))) : Slices := fun ordinal slot =>
  (((traces.flatMap fun trace => trace.takeWhile fun event => !readsSlice event).filterMap
    (stagedBy ordinal slot)).getLast?).getD default

def groupOf (laneWidth lane : Nat) : List Nat :=
  (List.range laneWidth).map fun offset => lane / laneWidth * laneWidth + offset

/-- Whether an event stores a value, and at which address of which output. -/
def storedBy (position address : Nat) : Event Traced → Option Traced
  | ⟨.bufferWriteCall _, [at_, into, value]⟩ =>
    if at_.number.bits.toNat = position ∧ into.number.bits.toNat = address then some value
    else none
  | _ => none

/-- What a launch leaves at an address of an output: the last store of its lanes there. Each group
runs to its barrier, and then over the slices its lanes staged. -/
def Stores {stated : ScalarClass} (buffers : Buffers stated) (launch : Launch) (body : KernelBody)
    (position address : Nat) (value : Traced) : Prop :=
  ∃ staging traces : Nat → List (Event Traced), (∀ lane < launch.count,
      LaneRuns buffers (fun _ _ => default) body launch.count lane (staging lane)) ∧
    (∀ lane < launch.count,
      LaneRuns buffers (stagedSlices ((groupOf launch.laneWidth.toNat lane).map staging)) body
        launch.count lane (traces lane)) ∧
    (((List.range launch.count).flatMap traces).filterMap (storedBy position address)).getLast? =
      some value

/-- What it is that a tiled fold answers the per-lane fold: the last lane of each stores one number,
and no element at or past the count enters what the tiled fold stores. -/
structure Agrees (folding : Folding) {stated : ScalarClass} (buffers : Buffers stated)
    (launch : Launch) : Prop where
  answers : ∃ tiled stored expected, folding.tiled launch.laneWidth 0 = .ok tiled ∧
    Stores buffers launch tiled.body 0 (launch.count - 1) stored ∧
    Stores buffers launch folding.perLane 0 (launch.count - 1) expected ∧
    stored.number = expected.number
  within : ∀ tiled, folding.tiled launch.laneWidth 0 = .ok tiled → ∀ address stored,
    Stores buffers launch tiled.body 0 address stored → ∀ element ∈ stored.elements,
      element < launch.count

/-- A declared identity that is its combine's unit. -/
def declaresUnit (reduction : Reduction F64) : Bool :=
  match reduction.combine with
  | .add => reduction.identity == F64.zero || reduction.identity == F64.negZero
  | .mul => reduction.identity == F64.one
  | .max => reduction.identity == F64.negInfinity
  | .min => reduction.identity == F64.infinity
  | _ => false

def Element.readsBuffer : Element → Bool
  | .buffer _ | .function _ _ => true
  | .address | .slice _ _ => false

def datumEnters : List Step → List Bool → List Bool
  | [], enters => enters
  | .datum :: steps, enters => datumEnters steps (enters ++ [true])
  | .constant _ :: steps, enters => datumEnters steps (enters ++ [false])
  | .binary _ left right :: steps, enters =>
    datumEnters steps (enters ++ [enters.getD left false || enters.getD right false])

/-- Whether the element a lane reads enters what it folds. -/
def Folding.usesElement (folding : Folding) : Bool :=
  match folding.element with
  | .function _ _ => (datumEnters folding.datum []).getLast?.getD false
  | .buffer _ => true
  | .address | .slice _ _ => false

end LichenVm.FusionBridge
