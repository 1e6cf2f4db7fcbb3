import LichenVm.WasmFunction

namespace LichenVm.Wasm

open KernelIr

/-- The wasm value type a class is lowered to. There is no 16-bit float, so a half takes the type of
a float. -/
def valueType : ScalarClass → Ty
  | .int => .i64
  | .float => .f32
  | .bFloat16 => .f32

/-- The buffer imports a launch set declares, and where its own functions start. -/
structure BufferImports where
  base : Nat
  read : ScalarClass → Option Nat
  write : ScalarClass → Option Nat
  atomic : ScalarClass → Option Nat

/-- What one fragment's lowering needs from the rest of the assembly. -/
structure ModuleCtx where
  /-- The launch set. -/
  callees : List KernelFragment
  /-- Where each callee is in it. -/
  index : KernelIr.KernelId → Option Nat
  imports : BufferImports
  /-- The classes of the parameter leaves, in flattening order. -/
  leaves : List ScalarClass

/-- What a lowering refuses, one constructor for each text and the data the text names. A walk
past the end of a list panics. -/
inductive Refusal where
  | invalid (failure : BodyFailure)
  | noBlock
  | notAvailable (value : ValueId)
  | signature (params declared : Nat)
  | merge (block position : Nat) (seen arrives : Ty)
  | untyped (value : ValueId)
  | blockParameter (value : ValueId)
  | halfConstant
  | noOperator (stated : ScalarClass) (op : KernelBin)
  | selectArms (then_ otherwise : Ty)
  | conversion (seen : Ty) (source target : ScalarClass)
  | expansion (op : KernelInstr)
  | fusedMultiply (op : KernelInstr)
  | calleeMissing (kernel : KernelIr.KernelId)
  | calleePosition (kernel : KernelIr.KernelId) (position : Nat)
  | manyResults (kernel : KernelIr.KernelId) (count : Nat)
  | noResult (kernel : KernelIr.KernelId)
  | callArity (kernel : KernelIr.KernelId) (arity given : Nat)
  | noReadImport (stated : ScalarClass)
  | noBufferImport (stated : ScalarClass)
  | staging (access : ValueId)
  | stagedStore (access : ValueId)
  | branchCondition (ty : Ty)
  | targetMissing (target : Nat)
  | panicked
  deriving DecidableEq

/-- A value and the representation it holds. -/
abbrev Slot := Nat × Ty

/-- What each value of the body became, and the function so far. The wasm block of a body's block
is numbered as it is. -/
structure Walk where
  builder : FunctionBody
  values : ValueId → Option Slot

def Walk.operand (walk : Walk) (value : ValueId) : Except Refusal Slot :=
  match walk.values value with
  | some slot => .ok slot
  | none => .error (.notAvailable value)

namespace ModuleCtx

variable (ctx : ModuleCtx)

/-- The type of the function's parameter at a position. -/
def leafType (offset : Nat) : Ty :=
  (ctx.leaves[offset]?.map valueType).getD .i64

/-- The type an operation leaves when its operands are of these types. An operation that produces
nothing leaves none. -/
def instructionType (op : KernelInstr) (operands : List Ty) : Option Ty :=
  match op with
  | .const stated _ => some (valueType stated)
  | .bin stated op => if op.isComparison then some .i64 else some (valueType stated)
  | .i32WrapI64 => some .i32
  | .select => operands.head?
  | .conv _ target => some (valueType target)
  | .exp | .sqrt | .floor | .ln | .sin | .cos | .fma | .negate => some .f32
  | .callKernel callee =>
    match (ctx.index callee).bind (ctx.callees[·]?) with
    | some target => target.resultClasses.head?.map valueType
    | none => none
  | .bufferReadCall stated | .outputReadCall stated => some (valueType stated)
  | .bufferWriteCall _ | .bufferAtomicAddCall _ => none
  | .sliceReadCall stated | .sliceWriteCall stated => some (valueType stated)

/-- How many values a cross-kernel call consumes: the callee's own domain. -/
def calleeArity (callee : KernelIr.KernelId) : Except Refusal Nat :=
  match ctx.index callee with
  | none => .error (.calleeMissing callee)
  | some position =>
    match ctx.callees[position]? with
    | none => .error (.calleePosition callee position)
    | some target => .ok target.paramShape.flatArity

end ModuleCtx

/-- One more edge into a block: the first typed one decides the parameter, and a later one has to
agree. -/
def meetEdge (types : List (Option Ty)) (block position : Nat) (decided : Option Ty)
    (args : List ValueId) : Except Refusal (Option Ty) :=
  match args[position]? with
  | none => .ok decided
  | some arg =>
    match types.getD arg none, decided with
    | none, _ => .ok decided
    | some ty, none => .ok (some ty)
    | some ty, some seen =>
      if seen = ty then .ok decided else .error (.merge block position seen ty)

def decideType (ctx : ModuleCtx) (body : KernelBody) (types : List (Option Ty)) (index : Nat)
    (definition : ValueDef) : Except Refusal (List (Option Ty)) :=
  match definition with
  | .instr op args _ =>
    if (types.getD index none).isSome then .ok types
    else
      match (args.mapM fun arg => types.getD arg none).bind (ctx.instructionType op) with
      | none => .ok types
      | some ty => .ok (types.set index (some ty))
  | .blockParam block position => do
    let decided ← (body.incomingArguments block).foldlM (meetEdge types block position)
      (types.getD index none)
    .ok (types.set index decided)

def sweep (ctx : ModuleCtx) (body : KernelBody) (types : List (Option Ty)) :
    Except Refusal (List (Option Ty)) :=
  body.values.zipIdx.foldlM (fun types (definition, index) =>
    decideType ctx body types index definition) types

/-- Sweep until nothing changes. -/
def sweeps (ctx : ModuleCtx) (body : KernelBody) :
    Nat → List (Option Ty) → Except Refusal (List (Option Ty))
  | 0, types => .ok types
  | fuel + 1, types => do
    let swept ← sweep ctx body types
    if swept = types then .ok types else sweeps ctx body fuel swept

/-- The entry's parameters are typed by the leaves before the first sweep. -/
def entryTypes (ctx : ModuleCtx) (body : KernelBody) : List (Option Ty) :=
  body.parameters.zipIdx.foldl (fun types (value, offset) =>
    types.set value (some (ctx.leafType offset))) (List.replicate body.values.length none)

/-- A value that nothing typed is refused, unless it produces nothing. -/
def requireTyped (types : List (Option Ty)) (index : Nat) (definition : ValueDef) :
    Except Refusal Unit :=
  match types.getD index none, definition with
  | some _, _ => .ok ()
  | none, .blockParam _ _ => .error (.untyped index)
  | none, .instr op _ _ => if op.produces = 0 then .ok () else .error (.untyped index)

/-- Bind the parameters of every block but the entry, in the order the body declares them. -/
def bindBlock (body : KernelBody) (types : List (Option Ty)) (walk : Walk) (index : Nat) :
    Except Refusal Walk :=
  if index = body.entry then .ok walk
  else
    match (body.block index).params.mapM fun value => types.getD value none with
    | none => .error .panicked
    | some tys => .ok ⟨walk.builder.addBlockparams index tys, receive (body.block index).params
        ((numbered walk.builder.nextValue tys).map some) walk.values⟩

/-- Each value is given a type at most once, so as many sweeps as there are values reach what no
sweep changes. -/
def typeValues (ctx : ModuleCtx) (body : KernelBody) (walk : Walk) : Except Refusal Walk := do
  let types ← sweeps ctx body (body.values.length + 1) (entryTypes ctx body)
  body.values.zipIdx.forM fun (definition, index) => requireTyped types index definition
  (List.range body.blocks.length).foldlM (bindBlock body types) walk

/-- The one operator a binary operator lowers to, before a comparison's widening. -/
def binaryOperator (stated : ScalarClass) (op : KernelBin) : Except Refusal Operator :=
  match stated, op with
  | .int, .add => .ok .i64Add
  | .int, .sub => .ok .i64Sub
  | .int, .mul => .ok .i64Mul
  | .int, .div => .ok .i64DivU
  | .int, .rem => .ok .i64RemU
  | .int, .bitAnd => .ok .i64And
  | .int, .bitOr => .ok .i64Or
  | .int, .bitXor => .ok .i64Xor
  | .int, .lt => .ok .i64LtU
  | .int, .gt => .ok .i64GtU
  | .int, .leq => .ok .i64LeU
  | .int, .geq => .ok .i64GeU
  | .int, .eq => .ok .i64Eq
  | .int, .neq => .ok .i64Ne
  | .float, .add => .ok .f32Add
  | .float, .sub => .ok .f32Sub
  | .float, .mul => .ok .f32Mul
  | .float, .div => .ok .f32Div
  | .float, .lt => .ok .f32Lt
  | .float, .gt => .ok .f32Gt
  | .float, .leq => .ok .f32Le
  | .float, .geq => .ok .f32Ge
  | .float, .eq => .ok .f32Eq
  | .float, .neq => .ok .f32Ne
  | stated, op => .error (.noOperator stated op)

/-- What one instruction becomes: the operations appended to its block, and the value and the type
it is known by from there on. -/
structure Emission where
  operations : List Operation
  slot : Option Slot

/-- One operation, whose value is what the instruction leaves. -/
def Emission.one (fresh : Nat) (operator : Operator) (args : List Nat) (ty : Ty) : Emission :=
  ⟨[⟨fresh, operator, args, [ty]⟩], some (fresh, ty)⟩

def Emission.two (fresh : Nat) (first : Operator) (args : List Nat) (second : Operator)
    (operands : List Nat) (ty : Ty) : Emission :=
  ⟨[⟨fresh, first, args, [.i32]⟩, ⟨fresh + 1, second, operands, [ty]⟩], some (fresh + 1, ty)⟩

namespace ModuleCtx

variable (ctx : ModuleCtx)

def lowerCall (callee : KernelIr.KernelId) (operands : List Slot) (fresh : Nat) :
    Except Refusal Emission := do
  let arity ← ctx.calleeArity callee
  match ctx.index callee with
  | none => .error (.calleeMissing callee)
  | some position =>
    match ctx.callees[position]? with
    | none => .error (.calleePosition callee position)
    | some target =>
      match target.resultClasses.map valueType with
      | [] => .error (.noResult callee)
      | [result] =>
        if operands.length = arity then
          .ok (.one fresh (.call (ctx.imports.base + position)) (operands.map Prod.fst) result)
        else .error (.callArity callee arity operands.length)
      | results => .error (.manyResults callee results.length)

/-- The conversion as the language states it, over the representation wasm holds. -/
def lowerConv (source target : ScalarClass) (operand : Slot) (fresh : Nat) :
    Except Refusal Emission :=
  -- Already the target's representation: a reclassification, and wasm is told nothing.
  if operand.2 = valueType target then .ok ⟨[], some operand⟩
  else
    match operand.2, target with
    | .i64, .float => .ok (.one fresh .f32ConvertI64U [operand.1] .f32)
    | .f32, .int => .ok (.one fresh .i64TruncF32U [operand.1] .i64)
    | seen, target => .error (.conversion seen source target)

/-- A write or an atomic add: a call that leaves nothing. -/
def lowerWrite (imports : ScalarClass → Option Nat) (stated : ScalarClass) (args : List Nat)
    (fresh : Nat) : Except Refusal Emission :=
  match imports stated with
  | none => .error (.noBufferImport stated)
  | some functionIndex => .ok ⟨[⟨fresh, .call functionIndex, args, []⟩], none⟩

/-- What an instruction becomes over the values its operands became. -/
def emission (instr : ValueId) (op : KernelInstr) (operands : List Slot) (fresh : Nat) :
    Except Refusal Emission :=
  match op, operands with
  | .const stated bits, _ =>
    match stated with
    | .int => .ok (.one fresh (.i64Const bits) [] .i64)
    | .float => .ok (.one fresh (.f32Const (bits.setWidth 32)) [] .f32)
    | .bFloat16 => .error .halfConstant
  -- The larger by a comparison and a select, so that both targets answer a NaN alike.
  | .bin stated .max, [lhs, rhs] => do
    let native ← binaryOperator stated .gt
    .ok (.two fresh native [lhs.1, rhs.1] .select [lhs.1, rhs.1, fresh] (valueType stated))
  | .bin stated .min, [lhs, rhs] => do
    let native ← binaryOperator stated .lt
    .ok (.two fresh native [lhs.1, rhs.1] .select [lhs.1, rhs.1, fresh] (valueType stated))
  | .bin stated op, [lhs, rhs] => do
    let native ← binaryOperator stated op
    if op.isComparison then
      -- The language's comparison yields an `i64`, wasm's an `i32`.
      .ok (.two fresh native [lhs.1, rhs.1] .i64ExtendI32U [fresh] .i64)
    else .ok (.one fresh native [lhs.1, rhs.1] (valueType stated))
  | .negate, [operand] => .ok (.one fresh .f32Neg [operand.1] .f32)
  | .i32WrapI64, [operand] => .ok (.one fresh .i32WrapI64 [operand.1] .i32)
  | .select, [then_, otherwise, selector] =>
    if then_.2 = otherwise.2 then
      .ok (.one fresh .select [then_.1, otherwise.1, selector.1] then_.2)
    else .error (.selectArms then_.2 otherwise.2)
  | .conv source target, [operand] => lowerConv source target operand fresh
  | .exp, _ | .sqrt, _ | .floor, _ | .ln, _ | .sin, _ | .cos, _ => .error (.expansion op)
  | .fma, _ => .error (.fusedMultiply op)
  | .callKernel callee, operands => ctx.lowerCall callee operands fresh
  | .bufferReadCall stated, [position, index] =>
    match ctx.imports.read stated with
    | none => .error (.noReadImport stated)
    | some functionIndex =>
      .ok (.one fresh (.call functionIndex) [position.1, index.1] (valueType stated))
  | .bufferWriteCall stated, [position, index, value] =>
    lowerWrite ctx.imports.write stated [position.1, index.1, value.1] fresh
  | .bufferAtomicAddCall stated, [position, index, value] =>
    lowerWrite ctx.imports.atomic stated [position.1, index.1, value.1] fresh
  | .sliceReadCall _, _ | .sliceWriteCall _, _ => .error (.staging instr)
  | .outputReadCall _, _ => .error (.stagedStore instr)
  | _, _ => .error .panicked

/-- Lower one instruction: its operands are named and its result is recorded. -/
def lowerInstr (body : KernelBody) (walk : Walk) (place : Nat × ValueId) : Except Refusal Walk :=
  match body.values[place.2]? with
  | some (.instr op args _) => do
    let operands ← args.mapM walk.operand
    let emission ← ctx.emission place.2 op operands walk.builder.nextValue
    let builder := walk.builder.addOps place.1 emission.operations
    match emission.slot with
    | none => .ok ⟨builder, walk.values⟩
    | some slot => .ok ⟨builder, Function.update walk.values place.2 (some slot)⟩
  | _ => .error (.blockParameter place.2)

end ModuleCtx

/-- A branch's wasm target: the block, and the values it hands over. -/
def blockTarget (body : KernelBody) (walk : Walk) (branch : Br) : Except Refusal BlockTarget :=
  if branch.target < body.blocks.length then do
    let args ← branch.args.mapM walk.operand
    .ok ⟨branch.target, args.map Prod.fst⟩
  else .error (.targetMissing branch.target)

/-- A branch's condition is an `i32`, so an `i64` is narrowed in the block that branches on it. -/
def lowerCondition (index : Nat) (builder : FunctionBody) (condition : Slot) :
    Except Refusal (Nat × FunctionBody) :=
  match condition.2 with
  | .i32 => .ok (condition.1, builder)
  | .i64 => .ok (builder.nextValue, builder.addOps index
      [⟨builder.nextValue, .i32WrapI64, [condition.1], [.i32]⟩])
  | .f32 => .error (.branchCondition .f32)

def lowerTerminator (body : KernelBody) (walk : Walk) (index : Nat) : Except Refusal Walk :=
  match (body.block index).terminator with
  | .return values => do
    let held ← values.mapM walk.operand
    .ok ⟨walk.builder.setTerminator index (.return (held.map Prod.fst)), walk.values⟩
  | .br branch => do
    let target ← blockTarget body walk branch
    .ok ⟨walk.builder.setTerminator index (.br target), walk.values⟩
  | .condBr cond ifTrue ifFalse => do
    let slot ← walk.operand cond
    let (condition, builder) ← lowerCondition index walk.builder slot
    let ifTrue ← blockTarget body walk ifTrue
    let ifFalse ← blockTarget body walk ifFalse
    .ok ⟨builder.setTerminator index (.condBr condition ifTrue ifFalse), walk.values⟩

def bindEntry (ctx : ModuleCtx) (body : KernelBody) (builder : FunctionBody) :
    Except Refusal Walk :=
  if body.parameters.length ≤ ctx.leaves.length then
    .ok ⟨builder, receive body.parameters
      (((numbered 0 (ctx.leaves.map valueType)).take body.parameters.length).map some) fun _ => none⟩
  else .error (.signature ctx.leaves.length body.parameters.length)

/-- The entry block already exists, so the body's other blocks are added after it. -/
def boundBlocks (ctx : ModuleCtx) (body : KernelBody) : FunctionBody :=
  Nat.iterate FunctionBody.addBlock (body.blocks.length - 1) (.new (ctx.leaves.map valueType))

/-- Every listed instruction with its block, in walk order. -/
def listing (body : KernelBody) : List (Nat × ValueId) :=
  body.blocks.zipIdx.flatMap fun (block, index) => block.instrs.map fun instr => (index, instr)

/-- Lower a body into a function that has the signature's entry block. That block is bound to the
body's first one. -/
def lowerBody (ctx : ModuleCtx) (body : KernelBody) : Except Refusal FunctionBody := do
  match body.validate with
  | .error failure => .error (.invalid failure)
  | .ok () =>
    if body.blocks = [] then .error .noBlock
    let walk ← bindEntry ctx body (boundBlocks ctx body)
    let walk ← typeValues ctx body walk
    let walk ← (listing body).foldlM (ctx.lowerInstr body) walk
    let walk ← (List.range body.blocks.length).foldlM (lowerTerminator body) walk
    .ok walk.builder

end LichenVm.Wasm
