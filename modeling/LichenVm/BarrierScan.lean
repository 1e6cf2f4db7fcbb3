import LichenVm.BodyMeaning

open Function

namespace LichenVm.KernelIr

open Worklist

/-- A conservative bound on the slot index an expression takes over the lanes. -/
structure Interval where
  low : Nat
  high : Nat
  deriving DecidableEq

namespace Interval

/-- The whole index space. -/
def unbounded : Interval := ⟨0, 2 ^ 64 - 1⟩

def intersects (i j : Interval) : Bool :=
  i.low ≤ j.high && j.low ≤ i.high

/-- Bounds a checked operation gives, the whole space when one does not fit a word. -/
def checked (low high : Nat) : Interval :=
  if low < 2 ^ 64 ∧ high < 2 ^ 64 then ⟨low, high⟩ else unbounded

def plus (i j : Interval) : Interval := checked (i.low + j.low) (i.high + j.high)

def times (i j : Interval) : Interval := checked (i.low * j.low) (i.high * j.high)

/-- A remainder, when its modulus is a constant and when it is not. -/
def modulo (modulus : Option Nat) (i : Interval) : Interval :=
  match modulus with
  | some modulus => if 0 < modulus then ⟨0, min i.high (modulus - 1)⟩ else ⟨0, i.high⟩
  | none => ⟨0, i.high⟩

def quotient (i : Interval) : Interval := ⟨0, i.high⟩

def larger (i j : Interval) : Interval := ⟨max i.low j.low, max i.high j.high⟩

def smaller (i j : Interval) : Interval := ⟨min i.low j.low, min i.high j.high⟩

def join (i j : Interval) : Interval := ⟨min i.low j.low, max i.high j.high⟩

end Interval

abbrev IntervalMemo := ValueId → Option Interval

/-- The operands an operator's bound is read from, by position, and the bound it answers. -/
inductive BoundRule where
  | fixed (answer : Interval)
  | one (position : Nat) (answer : Interval → Interval)
  | two (first second : Nat) (answer : Interval → Interval → Interval)

/-- What the scan refuses, one constructor for each text and the data the text names. -/
inductive ScanRefusal where
  | emptySlice (ordinal : Nat)
  | escapingSlice (value : ValueId) (what : String) (index : ValueId) (reach count : Nat)
  | contended (value index : ValueId)
  | observesNoWrite (value : ValueId) (observed : Option ValueId)
  deriving DecidableEq

/-- What the scan carries from one listed value to the next. -/
structure ScanState where
  memo : IntervalMemo
  /-- Where the last barrier on a slice stands. -/
  separated : Nat → Option Nat
  exprs : List Barrier

namespace KernelBody

variable (body : KernelBody)

/-- The bound of one instruction. A select reads its second and third operands. -/
def boundRule (op : KernelInstr) (args : List ValueId) : BoundRule :=
  match op with
  | .bin .int .add => .two 0 1 Interval.plus
  | .bin .int .mul => .two 0 1 Interval.times
  | .bin .int .rem => .one 0 (Interval.modulo (body.constant args[1]?))
  | .bin .int .div => .one 0 Interval.quotient
  | .bin .int .max => .two 0 1 Interval.larger
  | .bin .int .min => .two 0 1 Interval.smaller
  | .bin .int operator => .fixed (if operator.isComparison then ⟨0, 1⟩ else .unbounded)
  | .i32WrapI64 => .fixed ⟨0, 1⟩
  | .select => .two 1 2 Interval.join
  | _ => .fixed .unbounded

/-- The bound of an operand, the whole space for one that is not there. -/
def operandBound (ask : ValueId → IntervalMemo → Interval × IntervalMemo) (args : List ValueId)
    (position : Nat) (memo : IntervalMemo) : Interval × IntervalMemo :=
  match args[position]? with
  | some value => ask value memo
  | none => (.unbounded, memo)

def intervalOf (ask : ValueId → IntervalMemo → Interval × IntervalMemo) (op : KernelInstr)
    (args : List ValueId) (memo : IntervalMemo) : Interval × IntervalMemo :=
  match body.boundRule op args with
  | .fixed answer => (answer, memo)
  | .one position answer =>
    let left := operandBound ask args position memo
    (answer left.1, left.2)
  | .two first second answer =>
    let left := operandBound ask args first memo
    let right := operandBound ask args second left.2
    (answer left.1 right.1, right.2)

/-- What a value that no bound is known of is bounded by. -/
def definitionBound (ask : ValueId → IntervalMemo → Interval × IntervalMemo) (value : ValueId)
    (memo : IntervalMemo) : Interval × IntervalMemo :=
  match body.values[value]? with
  | some (.instr (.const .int bits) _ _) => (⟨bits.toNat, bits.toNat⟩, memo)
  | some (.instr op args _) => body.intervalOf ask op args memo
  | _ => (.unbounded, memo)

/-- A value is bounded before its own cone is walked. -/
def intervalFrom : Nat → ValueId → IntervalMemo → Interval × IntervalMemo
  | 0, _, memo => (.unbounded, memo)
  | fuel + 1, value, memo =>
    match memo value with
    | some known => (known, memo)
    | none =>
      let answer := body.definitionBound (intervalFrom fuel) value
        (update memo value (some .unbounded))
      (answer.1, update answer.2 value (some answer.1))

/-- A conservative bound on the index a value takes, over every lane. Each nested call bounds a
value of the table that was not bounded before, so their number is enough fuel. -/
def interval (value : ValueId) (memo : IntervalMemo) : Interval × IntervalMemo :=
  body.intervalFrom (body.values.length + 1) value memo

/-- Where the branches of a block go, in the order it names them. -/
def targets (block : Nat) : List Nat :=
  (body.block block).terminator.branches.map Br.target

/-- Pop a block, list its instructions, push its targets. -/
def walkLoop : Nat → List Nat → (Nat → Bool) → List ValueId → List ValueId
  | 0, _, _, order => order
  | _ + 1, [], _, order => order
  | fuel + 1, block :: stack, seen, order =>
    if block < body.blocks.length ∧ seen block = false then
      walkLoop fuel (body.targets block ++ stack) (update seen block true)
        (order ++ (body.block block).instrs)
    else walkLoop fuel stack seen order

/-- Every instruction the body lists, in the walk's program order. -/
def walkOrder : List ValueId :=
  body.walkLoop (enough body.blocks.length (fun block => (body.targets block).reverse) [body.entry])
    [body.entry] (fun _ => false) []

/-- Where the walk lists a value, the last time it does. -/
def positions (order : List ValueId) : ValueId → Option Nat :=
  order.zipIdx.foldl (fun position listed =>
    update position listed.1 (some listed.2)) fun _ => none

/-- A slice access whose index may leave its slice, refused by name. -/
def refuseEscapingSlice (value : ValueId) (what : String) (args : List ValueId)
    (slices : List Slice) (memo : IntervalMemo) : Except ScanRefusal IntervalMemo :=
  match args[1]? with
  | none => .ok memo
  | some index =>
    match (body.ordinal value).bind (slices[·]?) with
    | none => .ok memo
    | some slice =>
      let reach := body.interval index memo
      if reach.1.high < slice.count then .ok reach.2
      else .error (.escapingSlice value what index reach.1.high slice.count)

def isSliceWrite (value : ValueId) : Bool :=
  match body.values[value]? with
  | some (.instr (.sliceWriteCall _) _ _) => true
  | _ => false

/-- A slice access a barrier decision cannot be made from, refused by name. -/
def refuseBadSliceAccess (lane : ValueId) (slices : List Slice) (memo : IntervalMemo)
    (value : ValueId) : Except ScanRefusal IntervalMemo :=
  match body.values[value]? with
  | some (.instr (.sliceWriteCall _) args _) => do
    let memo ← body.refuseEscapingSlice value "write" args slices memo
    match args[1]? with
    | none => .ok memo
    | some index =>
      if body.dependsOn index lane then .ok memo else .error (.contended value index)
  | some (.instr (.sliceReadCall _) args _) => do
    let memo ← body.refuseEscapingSlice value "read" args slices memo
    if (args[2]?).any body.isSliceWrite then .ok memo
    else .error (.observesNoWrite value args[2]?)
  | _ => .ok memo

def refuseBadSliceAccesses (order : List ValueId) (lane : ValueId) (slices : List Slice)
    (memo : IntervalMemo) : Except ScanRefusal IntervalMemo :=
  order.foldlM (body.refuseBadSliceAccess lane slices) memo

/-- A recorded barrier is already between the accesses it names. -/
def separateRecorded (position : ValueId → Option Nat) (separated : Nat → Option Nat)
    (expr : Barrier) : Nat → Option Nat :=
  match body.ordinal expr.read, position expr.read with
  | some slice, some at_ =>
    update separated slice (some (((separated slice).map (max · at_)).getD at_))
  | _, _ => separated

/-- Whether a barrier that stands already is between a write and the read that observes it. -/
def settled (position : ValueId → Option Nat) (separated : Nat → Option Nat)
    (write read : ValueId) : Bool :=
  match position write, position read, body.ordinal read with
  | some writeAt, some readAt, some slice =>
    (separated slice).any fun barrier => writeAt < barrier && barrier ≤ readAt
  | _, _, _ => false

/-- Whether two accesses name slices that differ. -/
def namesTwoSlices (write read : ValueId) : Bool :=
  match body.ordinal write, body.ordinal read with
  | some written, some addressed => written ≠ addressed
  | _, _ => false

/-- Record the barrier a read needs after the write it observes. -/
def recordRead (position : ValueId → Option Nat) (state : ScanState) (write read : ValueId)
    (memo : IntervalMemo) : ScanState where
  memo := memo
  separated := match body.ordinal read, position read with
    | some slice, some readAt => update state.separated slice (some readAt)
    | _, _ => state.separated
  exprs := state.exprs ++ [⟨write, read⟩]

/-- A slice read, the write it observes and the indices they are made at. -/
def observation (read : ValueId) : Option (ValueId × ValueId × ValueId) :=
  match body.values[read]? with
  | some (.instr (.sliceReadCall _) args _) =>
    match args[2]?, args[1]? with
    | some write, some readIndex =>
      match (body.values[write]? : Option ValueDef) with
      | some (.instr _ writeArgs _) =>
        (writeArgs[1]?).map fun writeIndex => (write, writeIndex, readIndex)
      | _ => none
    | _, _ => none
  | _ => none

/-- The barrier one listed value needs. A reader that is the writing lane needs none. -/
def scanRead (position : ValueId → Option Nat) (state : ScanState) (read : ValueId) : ScanState :=
  match body.observation read with
  | none => state
  | some (write, writeIndex, readIndex) =>
    if writeIndex = readIndex then state
    else if body.namesTwoSlices write read then state
    else if body.settled position state.separated write read then state
    else
      let written := body.interval writeIndex state.memo
      let addressed := body.interval readIndex written.2
      if written.1.intersects addressed.1 then
        body.recordRead position state write read addressed.2
      else { state with memo := addressed.2 }

/-- The exprs the body's slice accesses need a barrier between. -/
def barrierScan (lane : ValueId) (slices : List Slice) : Except ScanRefusal (List Barrier) := do
  let order := body.walkOrder
  let position := positions order
  let memo ← body.refuseBadSliceAccesses order lane slices fun _ => none
  let separated := body.barriers.foldl (body.separateRecorded position) fun _ => none
  .ok (order.foldl (body.scanRead position) ⟨memo, separated, []⟩).exprs

end KernelBody

/-- The scan over the extents the fragment declares. -/
def KernelFragment.barrierScan (fragment : KernelFragment) (lane : ValueId) :
    Except ScanRefusal (List Barrier) :=
  match fragment.emptySlice with
  | some ordinal => .error (.emptySlice ordinal)
  | none => fragment.body.barrierScan lane fragment.slices

end LichenVm.KernelIr
