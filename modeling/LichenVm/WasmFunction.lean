import LichenVm.BodyMeaning

/-! A function of a wasm module in SSA form: blocks with parameters, over named values. -/

namespace LichenVm.Wasm

open KernelIr

inductive Ty where
  | i32
  | i64
  | f32
  deriving DecidableEq

/-- The operators a lowering may emit. -/
inductive Operator where
  | i64Const (value : BitVec 64)
  | f32Const (value : BitVec 32)
  | i64Add
  | i64Sub
  | i64Mul
  | i64DivU
  | i64RemU
  | i64And
  | i64Or
  | i64Xor
  | i64LtU
  | i64GtU
  | i64LeU
  | i64GeU
  | i64Eq
  | i64Ne
  | f32Add
  | f32Sub
  | f32Mul
  | f32Div
  | f32Lt
  | f32Gt
  | f32Le
  | f32Ge
  | f32Eq
  | f32Ne
  | f32Neg
  | select
  | i64ExtendI32U
  | i32WrapI64
  | f32ConvertI64U
  | i64TruncF32U
  | call (functionIndex : Nat)
  deriving DecidableEq

/-- An operator in a block: the value it is named by, what it reads, and the types of what it
leaves. -/
structure Operation where
  value : Nat
  operator : Operator
  args : List Nat
  results : List Ty
  deriving DecidableEq

structure BlockTarget where
  block : Nat
  args : List Nat
  deriving DecidableEq

inductive Terminator where
  | none
  | return (values : List Nat)
  | br (target : BlockTarget)
  | condBr (cond : Nat) (ifTrue ifFalse : BlockTarget)
  deriving DecidableEq

structure Block where
  params : List (Nat × Ty)
  operations : List Operation
  terminator : Terminator
  deriving DecidableEq

/-- A function under construction. The entry block is the first, and a value is numbered by how
many were made before it. -/
structure FunctionBody where
  blocks : List Block
  nextValue : Nat
  deriving DecidableEq

/-- The values of some types, numbered from one on. -/
def numbered (first : Nat) (tys : List Ty) : List (Nat × Ty) :=
  (List.range' first tys.length).zip tys

namespace FunctionBody

/-- A function of some signature: one block, which receives the arguments. -/
def new (signature : List Ty) : FunctionBody where
  blocks := [⟨numbered 0 signature, [], .none⟩]
  nextValue := signature.length

def addBlock (function : FunctionBody) : FunctionBody :=
  { function with blocks := function.blocks ++ [⟨[], [], .none⟩] }

/-- A block receives more values, which are numbered from the next one on. -/
def addBlockparams (function : FunctionBody) (block : Nat) (tys : List Ty) : FunctionBody where
  blocks := function.blocks.modify block fun held =>
    { held with params := held.params ++ numbered function.nextValue tys }
  nextValue := function.nextValue + tys.length

/-- A block computes more values, which are numbered from the next one on. -/
def addOps (function : FunctionBody) (block : Nat) (operations : List Operation) :
    FunctionBody where
  blocks := function.blocks.modify block fun held =>
    { held with operations := held.operations ++ operations }
  nextValue := function.nextValue + operations.length

def setTerminator (function : FunctionBody) (block : Nat) (terminator : Terminator) :
    FunctionBody :=
  { function with
    blocks := function.blocks.modify block fun held => { held with terminator } }

/-- A block that was not added receives and computes nothing. -/
def block (function : FunctionBody) (index : Nat) : Block :=
  function.blocks.getD index ⟨[], [], .none⟩

end FunctionBody

/-- What a value of a running function is. -/
inductive Word (Real : Type) where
  | i32 (bits : BitVec 32)
  | i64 (bits : BitVec 64)
  | f32 (number : Real)
  deriving DecidableEq

namespace Word

variable {Real : Type}

instance : Inhabited (Word Real) := ⟨.i64 0⟩

def ty : Word Real → Ty
  | i32 _ => .i32
  | i64 _ => .i64
  | f32 _ => .f32

/-- What a comparison leaves. -/
def ofBool (held : Bool) : Word Real :=
  .i32 (if held then 1 else 0)

end Word

/-- What an operator leaves of the words it is given. It leaves nothing when it traps, and when a
word is not of the type it reads. -/
def Operator.run {Real : Type} (floats : Floats Real) (operator : Operator)
    (words : List (Word Real)) : Option (Word Real) :=
  match operator, words with
  | .i64Const value, [] => some (.i64 value)
  | .f32Const value, [] => some (.f32 (floats.ofBits value))
  | .i64Add, [.i64 a, .i64 b] => some (.i64 (a + b))
  | .i64Sub, [.i64 a, .i64 b] => some (.i64 (a - b))
  | .i64Mul, [.i64 a, .i64 b] => some (.i64 (a * b))
  | .i64DivU, [.i64 a, .i64 b] => if b = 0 then none else some (.i64 (a / b))
  | .i64RemU, [.i64 a, .i64 b] => if b = 0 then none else some (.i64 (a % b))
  | .i64And, [.i64 a, .i64 b] => some (.i64 (a &&& b))
  | .i64Or, [.i64 a, .i64 b] => some (.i64 (a ||| b))
  | .i64Xor, [.i64 a, .i64 b] => some (.i64 (a ^^^ b))
  | .i64LtU, [.i64 a, .i64 b] => some (.ofBool (decide (a < b)))
  | .i64GtU, [.i64 a, .i64 b] => some (.ofBool (decide (b < a)))
  | .i64LeU, [.i64 a, .i64 b] => some (.ofBool (decide (a ≤ b)))
  | .i64GeU, [.i64 a, .i64 b] => some (.ofBool (decide (b ≤ a)))
  | .i64Eq, [.i64 a, .i64 b] => some (.ofBool (decide (a = b)))
  | .i64Ne, [.i64 a, .i64 b] => some (.ofBool (decide (a ≠ b)))
  | .f32Add, [.f32 a, .f32 b] => some (.f32 (floats.add a b))
  | .f32Sub, [.f32 a, .f32 b] => some (.f32 (floats.sub a b))
  | .f32Mul, [.f32 a, .f32 b] => some (.f32 (floats.mul a b))
  | .f32Div, [.f32 a, .f32 b] => some (.f32 (floats.div a b))
  | .f32Lt, [.f32 a, .f32 b] => some (.ofBool (floats.lt a b))
  | .f32Gt, [.f32 a, .f32 b] => some (.ofBool (floats.gt a b))
  | .f32Le, [.f32 a, .f32 b] => some (.ofBool (floats.leq a b))
  | .f32Ge, [.f32 a, .f32 b] => some (.ofBool (floats.geq a b))
  | .f32Eq, [.f32 a, .f32 b] => some (.ofBool (floats.eq a b))
  | .f32Ne, [.f32 a, .f32 b] => some (.ofBool (floats.neq a b))
  | .f32Neg, [.f32 a] => some (.f32 (floats.negate a))
  | .select, [a, b, .i32 selector] =>
    if a.ty = b.ty then some (if selector ≠ 0 then a else b) else none
  | .i64ExtendI32U, [.i32 bits] => some (.i64 (bits.setWidth 64))
  | .i32WrapI64, [.i64 bits] => some (.i32 (bits.setWidth 32))
  | .f32ConvertI64U, [.i64 bits] => some (.f32 (floats.ofInt bits))
  | .i64TruncF32U, [.f32 a] => (floats.toInt a).map .i64
  | _, _ => none

/-- A call a function made, with the words it handed over. -/
structure Call (Real : Type) where
  functionIndex : Nat
  words : List (Word Real)
  deriving DecidableEq

/-- The signature of a function of the module. -/
structure Signature where
  params : List Ty
  returns : List Ty
  deriving DecidableEq

/-- Where a run stands: the block it is about to execute, what each value holds, and the calls it
made. -/
structure State (Real : Type) where
  block : Nat
  words : Nat → Word Real
  calls : List (Call Real)

/-- What a block leaves. -/
inductive Departure (Real : Type) where
  | continues (state : State Real)
  | returns (words : List (Word Real)) (calls : List (Call Real))
  | trap

namespace FunctionBody

section Run

variable {Real : Type} (function : FunctionBody) (floats : Floats Real)
  (signatures : Nat → Option Signature)
  (answer : List (Call Real) → Call Real → Word Real)

/-- Execute one operation. A call is answered by the host or by another function of the module. -/
def execute (state : State Real) (operation : Operation) : Option (State Real) :=
  let words := operation.args.map state.words
  match operation.operator with
  | .call functionIndex =>
    match signatures functionIndex with
    | none => none
    | some signature =>
      if words.map Word.ty = signature.params then
        some { state with
          words := match operation.results with
            | [] => state.words
            | _ :: _ => Function.update state.words operation.value
                (answer state.calls ⟨functionIndex, words⟩)
          calls := state.calls ++ [⟨functionIndex, words⟩] }
      else none
  | operator => (operator.run floats words).map fun word =>
    { state with words := Function.update state.words operation.value word }

def executeAll (operations : List Operation) (state : State Real) : Option (State Real) :=
  operations.foldlM (execute floats signatures answer) state

def enter (target : BlockTarget) (state : State Real) : State Real :=
  { state with
    block := target.block
    words := receive ((function.block target.block).params.map Prod.fst)
      (target.args.map state.words) state.words }

def leave (state : State Real) : Departure Real :=
  match (function.block state.block).terminator with
  | .none => .trap
  | .return values => .returns (values.map state.words) state.calls
  | .br target => .continues (function.enter target state)
  | .condBr cond ifTrue ifFalse =>
    match state.words cond with
    | .i32 bits => .continues (function.enter (if bits ≠ 0 then ifTrue else ifFalse) state)
    | _ => .trap

/-- What a run shows after at most so many blocks. -/
def observe : Nat → State Real → Observed (Word Real) (Call Real)
  | 0, state => .going state.calls
  | fuel + 1, state =>
    match executeAll floats signatures answer (function.block state.block).operations state with
    | none => .undefined
    | some state =>
      match function.leave state with
      | .continues after => observe fuel after
      | .returns words calls => .returned words calls
      | .trap => .undefined

/-- A function is called: its entry block receives the arguments. -/
def start (args : List (Word Real)) : State Real :=
  ⟨0, receive ((function.block 0).params.map Prod.fst) args fun _ => default, []⟩

end Run

end FunctionBody

end LichenVm.Wasm
