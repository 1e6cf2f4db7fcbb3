import LichenVm.KernelBody

namespace LichenVm.KernelIr

/-- The use a scope refusal names. -/
inductive UseSite where
  | operand (op : KernelInstr)
  | condition (block : Nat)
  | transfer (block target : Nat)
  | returned (block : Nat)
  deriving DecidableEq

/-- Why a use is out of scope. -/
inductive OutOfScope where
  | receivedBy (definedIn block : Nat)
  | unlisted
  | laterIn (block : Nat)
  | definedBy (definedIn block : Nat)
  deriving DecidableEq

/-- What the gate refuses, one constructor for each text and the data the text names. -/
inductive BodyRefusal where
  | noBlock
  | entryMissing (entry blocks : Nat)
  | targetMissing (block target : Nat)
  | branchArity (block handed target arity : Nat)
  | handsUndefined (block : Nat)
  | listsParameter (block : Nat)
  | resultCount (op : KernelInstr) (declared : Nat)
  | operandCount (op : KernelInstr) (given : Nat)
  | readsUndefined (op : KernelInstr)
  | returnsUndefined (block : Nat)
  | scope (site : UseSite) (value : ValueId) (cause : OutOfScope)
  | barrierNamesNoWrite (barrier : Barrier)
  | barrierNamesNoRead (barrier : Barrier)
  | barrierNamesNoSliceRead (barrier : Barrier)
  | barrierReadObservesAnother (barrier : Barrier)
  | barrierNamesNoOutputRead (barrier : Barrier)
  | barrierNamesTwoBuffers (barrier : Barrier) (written readAt : Option Nat)
  | barrierWriteUnlisted (barrier : Barrier)
  | barrierReadUnlisted (barrier : Barrier)
  | barrierReadPrecedes (barrier : Barrier)
  | barrierDivergent (barrier : Barrier) (block : Nat)
  deriving DecidableEq

/-- How the gate does not pass a body: it refuses by name, or it indexes past the value table. -/
inductive BodyFailure where
  | refused (cause : BodyRefusal)
  | panicked
  deriving DecidableEq

namespace KernelBody

abbrev Gate := Except BodyFailure Unit

def reject (cause : BodyRefusal) : Gate := .error (.refused cause)

def ensure (held : Bool) (cause : BodyRefusal) : Gate :=
  if held then .ok () else reject cause

def defines (body : KernelBody) (value : ValueId) : Bool :=
  value < body.values.length

/-- The refusal a use earns when it does not sit where its value is defined. -/
def outOfScope (body : KernelBody) (dominance : Dominance) (block position : Nat)
    (value : ValueId) : Option OutOfScope :=
  match body.values[value]? with
  | some (.blockParam definedIn _) =>
    if definedIn = block ∨ dominance.dominates block definedIn then none
    else some (.receivedBy definedIn block)
  | some (.instr _ _ _) =>
    match body.definitionSite value with
    | none => some .unlisted
    | some (definedIn, definedAt) =>
      if definedIn = block then
        if definedAt < position then none else some (.laterIn block)
      else if dominance.dominates block definedIn then none
      else some (.definedBy definedIn block)
  | none => none

def checkScope (body : KernelBody) (dominance : Dominance) (block position : Nat)
    (site : UseSite) (value : ValueId) : Gate :=
  match body.outOfScope dominance block position value with
  | none => .ok ()
  | some cause => reject (.scope site value cause)

def checkBranch (body : KernelBody) (index : Nat) (branch : Br) : Gate := do
  ensure (branch.target < body.blocks.length) (.targetMissing index branch.target)
  let arity := (body.block branch.target).params.length
  ensure (branch.args.length == arity) (.branchArity index branch.args.length branch.target arity)
  branch.args.forM fun arg => ensure (body.defines arg) (.handsUndefined index)

def checkInstr (body : KernelBody) (index : Nat) (value : ValueId) : Gate :=
  match body.values[value]? with
  | none => .error .panicked
  | some (.blockParam _ _) => reject (.listsParameter index)
  | some (.instr op args classes) => do
    ensure (op.produces == classes.length) (.resultCount op classes.length)
    ensure (op.arity.all (· == args.length)) (.operandCount op args.length)
    args.forM fun arg => ensure (body.defines arg) (.readsUndefined op)

def checkBlock (body : KernelBody) (block : BasicBlock) (index : Nat) : Gate := do
  block.terminator.branches.forM (body.checkBranch index)
  block.instrs.forM (body.checkInstr index)

def checkReturn (body : KernelBody) (block : BasicBlock) (index : Nat) : Gate :=
  match block.terminator with
  | .return values =>
    values.forM fun value => ensure (body.defines value) (.returnsUndefined index)
  | _ => .ok ()

/-- A use must sit where its value is defined, and after it in the same block. -/
def checkUses (body : KernelBody) (dominance : Dominance) (block : BasicBlock) (index : Nat) :
    Gate := do
  block.instrs.zipIdx.forM fun (value, position) =>
    match body.values[value]? with
    | some (.instr op args _) =>
      args.forM (body.checkScope dominance index position (.operand op))
    | _ => .ok ()
  let position := block.instrs.length
  match block.terminator with
  | .condBr cond _ _ => body.checkScope dominance index position (.condition index) cond
  | _ => .ok ()
  block.terminator.branches.forM fun branch =>
    branch.args.forM (body.checkScope dominance index position (.transfer index branch.target))
  match block.terminator with
  | .return values => values.forM (body.checkScope dominance index position (.returned index))
  | _ => .ok ()

/-- A buffer pair has no data edge: it names one buffer, and the write precedes the read. -/
def checkBufferPair (body : KernelBody) (dominance : Dominance) (barrier : Barrier) : Gate := do
  let written := body.ordinal barrier.write
  let readAt := body.ordinal barrier.read
  ensure (written.isSome && written == readAt) (.barrierNamesTwoBuffers barrier written readAt)
  match body.definitionSite barrier.write, body.definitionSite barrier.read with
  | none, _ => reject (.barrierWriteUnlisted barrier)
  | some _, none => reject (.barrierReadUnlisted barrier)
  | some (writeBlock, writeAt), some (readBlock, readAt) =>
    ensure (if writeBlock = readBlock then writeAt < readAt
      else dominance.dominates readBlock writeBlock) (.barrierReadPrecedes barrier)

/-- A recorded barrier is a pair this body holds, and one no lane can skip. -/
def checkBarrier (body : KernelBody) (dominance : Dominance) (barrier : Barrier) : Gate := do
  match body.values[barrier.write]?, body.values[barrier.read]? with
  | some (.instr (.sliceWriteCall _) _ _), some (.instr op args _) =>
    match op with
    | .sliceReadCall _ =>
      ensure (args[2]? == some barrier.write) (.barrierReadObservesAnother barrier)
    | _ => reject (.barrierNamesNoSliceRead barrier)
  | some (.instr (.bufferWriteCall _) _ _), some (.instr op _ _) =>
    match op with
    | .outputReadCall _ => body.checkBufferPair dominance barrier
    | _ => reject (.barrierNamesNoOutputRead barrier)
  | some (.instr (.sliceWriteCall _) _ _), _ | some (.instr (.bufferWriteCall _) _ _), _ =>
    reject (.barrierNamesNoRead barrier)
  | _, _ => reject (.barrierNamesNoWrite barrier)
  match body.blockOf barrier.read with
  | none => reject (.barrierReadUnlisted barrier)
  | some block =>
    ensure (body.unavoidable dominance block) (.barrierDivergent barrier block)

/-- The gate a consumer calls before it reads a body. -/
def validate (body : KernelBody) : Gate := do
  ensure (!body.blocks.isEmpty) .noBlock
  ensure (body.entry < body.blocks.length) (.entryMissing body.entry body.blocks.length)
  body.blocks.zipIdx.forM fun (block, index) => body.checkBlock block index
  body.blocks.zipIdx.forM fun (block, index) => body.checkReturn block index
  let dominance := body.dominance
  body.blocks.zipIdx.forM fun (block, index) => body.checkUses dominance block index
  body.barriers.forM (body.checkBarrier dominance)

end KernelBody

end LichenVm.KernelIr
