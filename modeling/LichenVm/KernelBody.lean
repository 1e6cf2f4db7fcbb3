import LichenVm.Worklist
import LichenVm.Traverse
import Mathlib.Data.List.Range

namespace LichenVm.KernelIr

open Worklist

inductive ScalarClass where
  | int
  | float
  | bFloat16
  deriving DecidableEq

inductive KernelBin where
  | add
  | sub
  | mul
  | div
  | rem
  | max
  | min
  | lt
  | gt
  | leq
  | geq
  | eq
  | neq
  | bitAnd
  | bitOr
  | bitXor
  deriving DecidableEq

abbrev KernelId := Nat

/-- One abstract instruction of a lowered body. The class is the one it names in its own form. -/
inductive KernelInstr where
  | const (stated : ScalarClass) (bits : BitVec 64)
  | bin (stated : ScalarClass) (op : KernelBin)
  | negate
  | fma
  | i32WrapI64
  | select
  | exp
  | sqrt
  | floor
  | ln
  | sin
  | cos
  | callKernel (kernel : KernelId)
  | conv (source target : ScalarClass)
  | bufferReadCall (stated : ScalarClass)
  | outputReadCall (stated : ScalarClass)
  | bufferWriteCall (stated : ScalarClass)
  | bufferAtomicAddCall (stated : ScalarClass)
  | sliceWriteCall (stated : ScalarClass)
  | sliceReadCall (stated : ScalarClass)
  deriving DecidableEq

namespace KernelInstr

/-- How many values the instruction leaves behind. -/
def produces : KernelInstr → Nat
  | bufferWriteCall _ | bufferAtomicAddCall _ => 0
  | _ => 1

/-- How many values the instruction reads, when the instruction fixes it. -/
def arity : KernelInstr → Option Nat
  | const _ _ => some 0
  | bin _ _ | bufferReadCall _ | outputReadCall _ => some 2
  | i32WrapI64 | conv _ _ | negate | exp | sqrt | floor | ln | sin | cos => some 1
  | fma | select | bufferWriteCall _ | bufferAtomicAddCall _ | sliceReadCall _
  | sliceWriteCall _ => some 3
  | callKernel _ => none

end KernelInstr

abbrev ValueId := Nat

/-- What a value is: one a block receives, or a computation over the values it reads. -/
inductive ValueDef where
  | blockParam (block index : Nat)
  | instr (op : KernelInstr) (args : List ValueId) (classes : List ScalarClass)
  deriving DecidableEq

/-- A branch and the values it hands over. -/
structure Br where
  target : Nat
  args : List ValueId
  deriving DecidableEq

inductive Terminator where
  | return (values : List ValueId)
  | br (branch : Br)
  | condBr (cond : ValueId) (ifTrue ifFalse : Br)
  deriving DecidableEq

namespace Terminator

/-- The branches taken here, in the order they are named. -/
def branches : Terminator → List Br
  | .return _ => []
  | .br branch => [branch]
  | .condBr _ ifTrue ifFalse => [ifTrue, ifFalse]

def returns : Terminator → Bool
  | .return _ => true
  | _ => false

end Terminator

structure BasicBlock where
  params : List ValueId
  instrs : List ValueId
  terminator : Terminator
  deriving DecidableEq

/-- A separated pair: the write that must happen, and the read that observes it. -/
structure Barrier where
  write : ValueId
  read : ValueId
  deriving DecidableEq

structure KernelBody where
  values : List ValueDef
  blocks : List BasicBlock
  entry : Nat
  exactFloatArithmetic : Bool := false
  barriers : List Barrier := []
  deriving DecidableEq

/-- What the dominator computation answers: the blocks a path reaches, and the blocks every path
to a block passes. -/
structure Dominance where
  reachable : List Bool
  dominators : List (List Bool)

def Dominance.dominates (dominance : Dominance) (block candidate : Nat) : Bool :=
  (dominance.dominators.getD block []).getD candidate false

namespace KernelBody

/-- The block lists of a body, an absent block receiving and computing nothing. -/
def block (body : KernelBody) (index : Nat) : BasicBlock :=
  body.blocks.getD index ⟨[], [], .return []⟩

/-- The entry block's parameters: the domain's leaves. -/
def parameters (body : KernelBody) : List ValueId :=
  (body.block body.entry).params

def indexParameter (body : KernelBody) : Option ValueId :=
  body.parameters.getLast?

def constant (body : KernelBody) (value : Option ValueId) : Option Nat :=
  match value.bind (body.values[·]?) with
  | some (.instr (.const .int bits) _ _) => some bits.toNat
  | _ => none

/-- The ordinal an access names by its first operand. -/
def ordinal (body : KernelBody) (value : ValueId) : Option Nat :=
  match body.values[value]? with
  | some (.instr _ args _) => body.constant args.head?
  | _ => none

/-- Every instruction the blocks list, in walk order. -/
def listed (body : KernelBody) : List ValueId :=
  body.blocks.flatMap BasicBlock.instrs

def blockOf (body : KernelBody) (value : ValueId) : Option Nat :=
  body.blocks.findIdx? fun block => block.instrs.contains value

/-- Where an instruction is defined. A value listed more than once is defined where it is listed
last. -/
def definitionSite (body : KernelBody) (value : ValueId) : Option (Nat × Nat) :=
  body.blocks.zipIdx.foldl (fun site (block, index) =>
    block.instrs.zipIdx.foldl (fun site (instr, position) =>
      if instr = value then some (index, position) else site) site) none

/-- What each block receives, one list for each incoming branch. -/
def incomingArguments (body : KernelBody) (target : Nat) : List (List ValueId) :=
  (body.blocks.flatMap fun block => block.terminator.branches).filterMap fun branch =>
    if branch.target = target then some branch.args else none

def successors (body : KernelBody) (block : Nat) : List Nat :=
  ((body.block block).terminator.branches.map Br.target).filter (· < body.blocks.length)

def predecessors (body : KernelBody) (reachable : Nat → Bool) (block : Nat) : List Nat :=
  (List.range body.blocks.length).flatMap fun index =>
    if reachable index then (body.successors index).filterMap fun target =>
      if target = block then some index else none
    else []

/-- One sweep over the blocks: each block but the entry is dominated by itself and by what
dominates all its predecessors. -/
def dominanceSweep (body : KernelBody) (reachable : Nat → Bool) (dominators : List (List Bool)) :
    List (List Bool) :=
  (List.range body.blocks.length).foldl (fun dominators block =>
    if block = body.entry ∨ reachable block = false then dominators
    else
      let next := (body.predecessors reachable block).foldl (fun next predecessor =>
        List.zipWith (· && ·) next (dominators.getD predecessor []))
        (List.replicate body.blocks.length true)
      dominators.set block (next.set block true)) dominators

/-- Sweep until nothing changes. -/
def dominanceLoop (body : KernelBody) (reachable : Nat → Bool) :
    Nat → List (List Bool) → List (List Bool)
  | 0, dominators => dominators
  | fuel + 1, dominators =>
    let swept := body.dominanceSweep reachable dominators
    if swept = dominators then dominators else body.dominanceLoop reachable fuel swept

/-- The dominator sets over the reachable blocks. Each sweep that changes something drops a
candidate of some block, so the square of the number of blocks bounds the sweeps. -/
def dominance (body : KernelBody) : Dominance :=
  let count := body.blocks.length
  let reachable := reached count body.successors [body.entry]
  let flags := (List.range count).map reachable
  let start := (List.range count).map fun block =>
    if block = body.entry then (List.replicate count false).set block true
    else if reachable block then flags.set block true
    else List.replicate count false
  { reachable := flags
    dominators := body.dominanceLoop reachable (count * count + 1) start }

/-- The blocks every lane reaches: reachable ones that dominate every reachable return. -/
def unavoidable (body : KernelBody) (dominance : Dominance) (block : Nat) : Bool :=
  dominance.reachable.getD block false && (List.range body.blocks.length).all fun exit =>
      !(dominance.reachable.getD exit false && (body.block exit).terminator.returns) ||
        dominance.dominates exit block

def everyLaneReaches (body : KernelBody) (block : Nat) : Bool :=
  body.unavoidable body.dominance block

/-- Whether a value is in scope at a block. -/
def valueDominates (body : KernelBody) (block : Nat) (value : ValueId) : Bool :=
  let within := fun definedIn => definedIn == block || body.dominance.dominates block definedIn
  match body.values[value]? with
  | some (.blockParam definedIn _) => within definedIn
  | some (.instr _ _ _) =>
    match body.definitionSite value with
    | some (definedIn, _) => within definedIn
    | none => false
  | none => false

end KernelBody

end LichenVm.KernelIr
