import LichenVm.BodyEval
import LichenVm.KernelFragment

namespace LichenVm.KernelIr

namespace KernelBin

/-- Whether the operator yields the `0`/`1` scalar rather than a value of its operand class. -/
def isComparison : KernelBin → Bool
  | lt | gt | leq | geq | eq | neq => true
  | _ => false

end KernelBin

/-- What the float operators compute. Nothing here looks into a float. -/
structure Floats (Real : Type) where
  ofBits : BitVec 32 → Real
  add : Real → Real → Real
  sub : Real → Real → Real
  mul : Real → Real → Real
  div : Real → Real → Real
  lt : Real → Real → Bool
  gt : Real → Real → Bool
  leq : Real → Real → Bool
  geq : Real → Real → Bool
  eq : Real → Real → Bool
  neq : Real → Real → Bool
  negate : Real → Real
  unary : KernelInstr → Real → Real
  fma : Real → Real → Real → Real
  ofInt : BitVec 64 → Real
  /-- The integer a float truncates to, when it is in range. -/
  toInt : Real → Option (BitVec 64)

/-- What a value of a running body is: a scalar of either class, or a condition. -/
inductive Datum (Real : Type) where
  | int (bits : BitVec 64)
  | float (number : Real)
  | condition (held : Bool)
  deriving DecidableEq

namespace Datum

variable {Real : Type}

instance : Inhabited (Datum Real) := ⟨.int 0⟩

/-- The language's `0`/`1` scalar. -/
def ofBool (held : Bool) : Datum Real :=
  .int (if held then 1 else 0)

/-- The truth of a `0`/`1` scalar. Another integer is not one. -/
def truth? : BitVec 64 → Option Bool := fun bits =>
  if bits = 0 then some false else if bits = 1 then some true else none

/-- Whether a value may stand where an element of a class is asked for. -/
def isOf : ScalarClass → Datum Real → Bool
  | .int, .int _ | .float, .float _ | .bFloat16, .float _ => true
  | _, _ => false

end Datum

/-- An operator over two unsigned integers. Division and remainder by zero are undefined. -/
def KernelBin.onInts {Real : Type} (op : KernelBin) (a b : BitVec 64) : Option (Datum Real) :=
  match op with
  | .add => some (.int (a + b))
  | .sub => some (.int (a - b))
  | .mul => some (.int (a * b))
  | .div => if b = 0 then none else some (.int (a / b))
  | .rem => if b = 0 then none else some (.int (a % b))
  | .max => some (.int (if b < a then a else b))
  | .min => some (.int (if a < b then a else b))
  | .lt => some (.ofBool (decide (a < b)))
  | .gt => some (.ofBool (decide (b < a)))
  | .leq => some (.ofBool (decide (a ≤ b)))
  | .geq => some (.ofBool (decide (b ≤ a)))
  | .eq => some (.ofBool (decide (a = b)))
  | .neq => some (.ofBool (decide (a ≠ b)))
  | .bitAnd => some (.int (a &&& b))
  | .bitOr => some (.int (a ||| b))
  | .bitXor => some (.int (a ^^^ b))

/-- An operator over two floats. The remainder and the bitwise operators have no float form. -/
def KernelBin.onFloats {Real : Type} (floats : Floats Real) (op : KernelBin) (a b : Real) :
    Option (Datum Real) :=
  match op with
  | .add => some (.float (floats.add a b))
  | .sub => some (.float (floats.sub a b))
  | .mul => some (.float (floats.mul a b))
  | .div => some (.float (floats.div a b))
  | .max => some (.float (if floats.gt a b then a else b))
  | .min => some (.float (if floats.lt a b then a else b))
  | .lt => some (.ofBool (floats.lt a b))
  | .gt => some (.ofBool (floats.gt a b))
  | .leq => some (.ofBool (floats.leq a b))
  | .geq => some (.ofBool (floats.geq a b))
  | .eq => some (.ofBool (floats.eq a b))
  | .neq => some (.ofBool (floats.neq a b))
  | .rem | .bitAnd | .bitOr | .bitXor => none

/-- What an instruction that does not act leaves, when its operands are what it asks for. -/
def KernelInstr.leavesOf {Real : Type} (floats : Floats Real) (op : KernelInstr)
    (operands : List (Datum Real)) : Option (Datum Real) :=
  match op, operands with
  | .const .int bits, [] => some (.int bits)
  | .const .float bits, [] => some (.float (floats.ofBits (bits.setWidth 32)))
  -- A half is the high half of a float's pattern.
  | .const .bFloat16 bits, [] => some (.float (floats.ofBits (bits.setWidth 32 &&& 0xFFFF0000)))
  | .bin .int op, [.int a, .int b] => op.onInts a b
  | .bin .float op, [.float a, .float b] => op.onFloats floats a b
  | .bin .bFloat16 op, [.float a, .float b] => op.onFloats floats a b
  | .negate, [.float a] => some (.float (floats.negate a))
  | .fma, [.float a, .float b, .float c] => some (.float (floats.fma a b c))
  | .exp, [.float a] | .sqrt, [.float a] | .floor, [.float a] | .ln, [.float a]
  | .sin, [.float a] | .cos, [.float a] => some (.float (floats.unary op a))
  | .i32WrapI64, [.int bits] => (Datum.truth? bits).map .condition
  | .select, [a, b, .condition held] => some (if held then a else b)
  | .conv .int .int, [.int bits] => some (.int bits)
  | .conv .int _, [.int bits] => some (.float (floats.ofInt bits))
  | .conv .float .int, [.float a] | .conv .bFloat16 .int, [.float a] => (floats.toInt a).map .int
  | .conv .float _, [.float a] | .conv .bFloat16 _, [.float a] => some (.float a)
  | _, _ => none

/-- The truth of what a branch is taken on: a `0`/`1` scalar, or one narrowed already. -/
def Datum.taken {Real : Type} : Datum Real → Option Bool
  | .int bits => Datum.truth? bits
  | .condition held => some held
  | .float _ => none

/-- What the instructions that act ask of their operands. A position and an index are integers in
every class; a call takes the leaves of its callee's domain. -/
def KernelInstr.accepts {Real : Type} (domain : KernelId → List ScalarClass) (op : KernelInstr)
    (operands : List (Datum Real)) : Bool :=
  match op, operands with
  | .callKernel kernel, operands =>
    operands.length == (domain kernel).length &&
      ((domain kernel).zip operands).all fun (leaf, operand) => operand.isOf leaf
  | .bufferReadCall _, [position, index] | .outputReadCall _, [position, index] =>
    position.isOf .int && index.isOf .int
  | .bufferWriteCall stated, [position, index, value]
  | .bufferAtomicAddCall stated, [position, index, value]
  | .sliceWriteCall stated, [position, index, value] =>
    position.isOf .int && index.isOf .int && value.isOf stated
  | .sliceReadCall _, [position, index, _] => position.isOf .int && index.isOf .int
  | _, _ => false

/-- What a run shows after so many blocks: it goes on, it returned, or the body says nothing about
it. -/
inductive Observed (Value Deed : Type) where
  | going (trace : List Deed)
  | returned (values : List Value) (trace : List Deed)
  | undefined
  deriving DecidableEq

namespace KernelBody

section Perform

variable {Real : Type} (body : KernelBody) (floats : Floats Real)
  (domain : KernelId → List ScalarClass)
  (reply : List (Event (Datum Real)) → Event (Datum Real) → Datum Real)

/-- Execute one listed value, when its instruction has a meaning on what its operands hold. -/
def performOne (frame : Frame (Datum Real)) (value : ValueId) : Option (Frame (Datum Real)) :=
  match body.values[value]? with
  | some (.instr op args _) =>
    let operands := args.map frame.bound
    if op.acts then
      if op.accepts domain operands then
        some { frame with
          bound := if op.produces = 0 then frame.bound
            else Function.update frame.bound value (reply frame.trace ⟨op, operands⟩)
          trace := frame.trace ++ [⟨op, operands⟩] }
      else none
    else (op.leavesOf floats operands).map fun datum =>
      { frame with bound := Function.update frame.bound value datum }
  | _ => some frame

def perform (instrs : List ValueId) (frame : Frame (Datum Real)) : Option (Frame (Datum Real)) :=
  instrs.foldlM (body.performOne floats domain reply) frame

/-- Leave a block by its terminator. -/
def depart (frame : Frame (Datum Real)) : Next (Datum Real) :=
  match (body.block frame.block).terminator with
  | .return values => .returns (values.map frame.bound) frame.trace
  | .br branch => .continues (body.arrive branch frame)
  | .condBr cond ifTrue ifFalse =>
    match (frame.bound cond).taken with
    | some true => .continues (body.arrive ifTrue frame)
    | some false => .continues (body.arrive ifFalse frame)
    | none => .stuck

/-- What a run shows after at most so many blocks. -/
def observe : Nat → Frame (Datum Real) → Observed (Datum Real) (Event (Datum Real))
  | 0, frame => .going frame.trace
  | fuel + 1, frame =>
    match body.perform floats domain reply (body.block frame.block).instrs frame with
    | none => .undefined
    | some frame =>
      match body.depart frame with
      | .continues after => observe fuel after
      | .returns values trace => .returned values trace
      | .stuck => .undefined

end Perform

end KernelBody

end LichenVm.KernelIr
