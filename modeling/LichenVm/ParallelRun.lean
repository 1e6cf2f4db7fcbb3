import LichenVm.KernelFragment
import Mathlib.Logic.Relation

namespace LichenVm.ParallelRun

open KernelIr

abbrev Word := BitVec 64

/-- A value as it crosses into the engine and back. -/
inductive Val where
  | i64 (bits : BitVec 64)
  | f32 (bits : BitVec 32)
  deriving DecidableEq

namespace Val

def integer : Val → Option (BitVec 64)
  | .i64 bits => some bits
  | .f32 _ => none

def single : Val → Option (BitVec 32)
  | .i64 _ => none
  | .f32 bits => some bits

end Val

/-- The value the engine hands a kernel. A half keeps the high bits of its lane. -/
def toWasmi : ScalarClass → Word → Val
  | .int, bits => .i64 bits
  | .float, bits => .f32 (bits.setWidth 32)
  | .bFloat16, bits => .f32 (bits.setWidth 32 &&& 0xFFFF0000#32)

/-- The word the value argument of an import carries. -/
def valueWord : ScalarClass → Val → Word
  | .int, value => value.integer.getD 0
  | .float, value => (value.single.getD 0).setWidth 64
  | .bFloat16, value => (value.single.getD 0 &&& 0xFFFF0000#32).setWidth 64

def positionOf (value : Val) : Nat :=
  (value.integer.getD 0).toNat

/-- One call of `main`: the host functions it calls, in order, and what follows on each answer. -/
inductive Lane where
  | returns
  | traps (message : String)
  | read (element : ScalarClass) (position index : Val) (next : Val → Lane)
  | write (element : ScalarClass) (position index value : Val) (next : Lane)
  | atomic (element : ScalarClass) (position index value : Val) (next : Lane)

/-- A compiled module: the classes its buffer imports name, its export `main`, and what the engine
says of an import that is not defined. An instance keeps no memory between two calls. -/
structure Module where
  imports : List ScalarClass
  main : Option (List Val → Lane)
  linkError : String := ""

structure BufferWords where
  stated : ScalarClass
  words : List Word
  deriving DecidableEq

/-- One input of a run. A resident one is what bringing it home answers. -/
inductive RunInput where
  | host (buffer : BufferWords)
  | resident (stated : ScalarClass) (fetched : Except String BufferWords)

def RunInput.held : RunInput → ScalarClass
  | .host buffer => buffer.stated
  | .resident stated _ => stated

def ScalarClass.isReal : ScalarClass → Bool
  | .int => false
  | .float | .bFloat16 => true

/-- The class a fragment's own values are lowered in. -/
def fragmentClass (fragment : KernelFragment) : ScalarClass :=
  ((fragment.outputClasses.head?).or fragment.resultClasses.head?).getD .int

/-- The scalar leaves a launch fixes: the domain's leaves but the index. -/
def scalarLeaves (fragment : KernelFragment) : Nat :=
  fragment.paramShape.flatArity - 1

def leafClasses (fragment : KernelFragment) : List ScalarClass :=
  fragment.paramShape.leafClasses.take (scalarLeaves fragment)

inductive Refusal where
  | noExtent
  | countExceedsLimit (count : Nat)
  | leavesDisagree (declared passed : Nat)
  | inputClass (position : Nat) (held declared : ScalarClass)
  | fetch (message : String)
  | assembly (message : String)
  | lane (message : String)
  | worker (worker base last : Nat) (message : String)

/-- The most elements one run may collect. -/
def maxParallelElements : Nat := 2 ^ 20

/-- The count a launch dispatches over: its extent, one past the largest where it is negative. -/
def countOf (extent : Word) : Nat :=
  if extent.msb then 2 ^ 64 - 1 else extent.toNat

/-- The input that holds other numbers than the fragment reads there. -/
def checkInputClasses (declared : List ScalarClass) (inputs : List RunInput) : Option Refusal :=
  inputs.zipIdx.findSome? fun (input, position) =>
    let expected := declared.getD position .int
    if input.held ≠ expected ∧
        ¬ ((ScalarClass.isReal input.held && ScalarClass.isReal expected) = true) then
      some (.inputClass position input.held expected)
    else none

/-- An input in host memory, a resident one brought home first. -/
def hostInput : RunInput → Except Refusal BufferWords
  | .host buffer => .ok buffer
  | .resident _ (.ok buffer) => .ok buffer
  | .resident _ (.error message) => .error (.fetch message)

/-- A launch of a registered fragment on the `"cpu"` backend. What the engine compiles the
fragment's launch set to is `assembled`. -/
structure Launch where
  fragment : KernelFragment
  leaves : List Word
  inputs : List RunInput
  assembled : Except String Module

/-- A launch the gates let through: what every worker is handed. -/
structure Prepared where
  fragment : KernelFragment
  leaves : List Word
  inputs : List BufferWords
  compiled : Module
  count : Nat

/-- The gates a run passes before any worker starts, in the order they are asked. -/
def prepare (launch : Launch) : Except Refusal Prepared :=
  match launch.leaves.head? with
  | none => .error .noExtent
  | some extent =>
    if maxParallelElements < countOf extent then .error (.countExceedsLimit (countOf extent))
    else if (leafClasses launch.fragment).length ≠ launch.leaves.length then
      .error (.leavesDisagree (leafClasses launch.fragment).length launch.leaves.length)
    else
      match checkInputClasses launch.fragment.inputClasses launch.inputs with
      | some refusal => .error refusal
      | none =>
        match launch.inputs.mapM hostInput with
        | .error refusal => .error refusal
        | .ok inputs =>
          match launch.assembled with
          | .error message => .error (.assembly message)
          | .ok compiled =>
            .ok ⟨launch.fragment, launch.leaves, inputs, compiled, countOf extent⟩

/-- The output buffers, shared by every worker. -/
abbrev Outputs := List (List Word)

namespace Outputs

/-- The word one element of one output holds. -/
def word (outputs : Outputs) (position index : Nat) : Option Word :=
  outputs[position]?.bind (·[index]?)

/-- Change the one word addressed, a slot past the end being none. -/
def update (outputs : Outputs) (position index : Nat) (change : Word → Word) : Outputs :=
  outputs.modify position fun buffer => buffer.modify index change

end Outputs

/-- The word an atomic add leaves, in the class it adds in. -/
def addWord (addFloat : BitVec 32 → BitVec 32 → BitVec 32) :
    ScalarClass → Word → Word → Word
  | .int, current, value => current + value
  | .float, current, value | .bFloat16, current, value =>
    (addFloat (current.setWidth 32) (value.setWidth 32)).setWidth 64

/-- The chunk end of each of `workers` contiguous chunks of `count` indices. -/
def chunkBounds (count workers : Nat) : List Nat :=
  (List.range (workers + 1)).map fun index =>
    index * (count / workers) + min index (count % workers)

/-- The base and the end of each worker's chunk. -/
def chunks (count workers : Nat) : List (Nat × Nat) :=
  (chunkBounds count workers).zip (chunkBounds count workers).tail

namespace Prepared

variable (run : Prepared)

/-- The word the input at `position` holds at the global `index`. -/
def read (position index : Nat) : Word :=
  (run.inputs[position]?.bind (·.words[index]?)).getD 0

/-- The arguments of the lane `index`: the launch's leaves, then the index. -/
def args (index : Nat) : List Val :=
  ((leafClasses run.fragment).zip run.leaves).map (fun (leaf, word) => toWasmi leaf word) ++
    [toWasmi .int (BitVec.ofNat 64 index)]

/-- What the instantiation of one worker's module answers. Only the imports of two classes are
defined. -/
def linked : Except String (List Val → Lane) :=
  if run.compiled.imports.contains .bFloat16 then .error run.compiled.linkError
  else
    match run.compiled.main with
    | none => .error "parallel kernel has no export `main`"
    | some main => .ok main

/-- One call of `main`, at its global index. -/
def lane (index : Nat) : Lane :=
  match run.linked with
  | .error message => .traps message
  | .ok main => main (run.args index)

/-- Each output is allocated at its declared length, else the launch count. -/
def zeroed : Outputs :=
  (List.range run.fragment.outputs).map fun ordinal =>
    List.replicate ((run.fragment.roles.outputExtents[ordinal]?.join).getD run.count) 0

def outputClass (ordinal : Nat) : ScalarClass :=
  run.fragment.outputClasses.getD ordinal (fragmentClass run.fragment)

def tagged (outputs : Outputs) : List BufferWords :=
  outputs.zipIdx.map fun (words, ordinal) => ⟨run.outputClass ordinal, words⟩

end Prepared

/-- Where one worker stands. A float add is a compare-exchange loop over the word it loaded. -/
inductive Phase where
  | between
  | calling (lane : Lane)
  | adding (position index : Nat) (addend current : Word) (next : Lane)
  | failed (message : String)

/-- One worker over its index range, with the indices it has not called yet. -/
structure Worker where
  base : Nat
  pending : List Nat
  phase : Phase

def Worker.Finished (worker : Worker) : Prop :=
  (∃ message, worker.phase = .failed message) ∨ worker.pending = [] ∧ worker.phase = .between

def Worker.failure (worker : Worker) : Option String :=
  match worker.phase with
  | .failed message => some message
  | _ => none

/-- The store, linker and instance of one worker come before its first call. -/
def Worker.start (run : Prepared) (chunk : Nat × Nat) : Worker where
  base := chunk.1
  pending := List.range' chunk.1 (chunk.2 - chunk.1)
  phase :=
    match run.linked with
    | .error message => .failed message
    | .ok _ => .between

section Steps

variable (addFloat : BitVec 32 → BitVec 32 → BitVec 32) (run : Prepared)

/-- One step of one worker over the shared outputs. Every access of a word is one step. What a
relaxed load and a failed exchange answer is any word at all. -/
inductive WorkerStep : Outputs → Worker → Outputs → Worker → Prop
  | call {outputs base index rest} : WorkerStep outputs ⟨base, index :: rest, .between⟩
        outputs ⟨base, rest, .calling (run.lane index)⟩
  | returns {outputs base pending} :
      WorkerStep outputs ⟨base, pending, .calling .returns⟩ outputs ⟨base, pending, .between⟩
  | traps {outputs base pending message} :
      WorkerStep outputs ⟨base, pending, .calling (.traps message)⟩
        outputs ⟨base, pending, .failed message⟩
  | read {outputs base pending element position index next} :
      WorkerStep outputs ⟨base, pending, .calling (.read element position index next)⟩
        outputs ⟨base, pending, .calling
          (next (toWasmi element (run.read (positionOf position) (positionOf index))))⟩
  | write {outputs base pending element position index value next} :
      WorkerStep outputs ⟨base, pending, .calling (.write element position index value next)⟩
        (Outputs.update outputs (positionOf position) (positionOf index)
          fun _ => valueWord element value) ⟨base, pending, .calling next⟩
  | outside {outputs base pending element position index value next}
      (absent : Outputs.word outputs (positionOf position) (positionOf index) = none) :
      WorkerStep outputs ⟨base, pending, .calling (.atomic element position index value next)⟩
        outputs ⟨base, pending, .calling next⟩
  | fetchAdd {outputs base pending element position index value next}
      (integer : fragmentClass run.fragment = .int) :
      WorkerStep outputs ⟨base, pending, .calling (.atomic element position index value next)⟩
        (Outputs.update outputs (positionOf position) (positionOf index)
          fun current => current + valueWord element value) ⟨base, pending, .calling next⟩
  | load {outputs base pending element position index value next} (current : Word)
      (real : fragmentClass run.fragment ≠ .int)
      (present : (Outputs.word outputs (positionOf position) (positionOf index)).isSome) :
      WorkerStep outputs ⟨base, pending, .calling (.atomic element position index value next)⟩
        outputs ⟨base, pending,
          .adding (positionOf position) (positionOf index) (valueWord element value) current next⟩
  | exchange {outputs base pending position index addend current next}
      (held : Outputs.word outputs position index = some current) :
      WorkerStep outputs ⟨base, pending, .adding position index addend current next⟩
        (Outputs.update outputs position index fun _ => addWord addFloat .float current addend)
        ⟨base, pending, .calling next⟩
  | reload {outputs base pending position index addend current next} (actual : Word) :
      WorkerStep outputs ⟨base, pending, .adding position index addend current next⟩
        outputs ⟨base, pending, .adding position index addend actual next⟩

/-- The shared outputs and every worker, in chunk order. -/
structure State where
  outputs : Outputs
  workers : List Worker

/-- Any worker may step once it is spawned: the chunks the calling thread takes itself are run to
their end before a later one starts. -/
inductive Step : State → State → Prop
  | worker {outputs before after current outputs' next}
      (spawned : ∀ earlier ∈ before, earlier.base = 0 → earlier.Finished)
      (step : WorkerStep addFloat run outputs current outputs' next) :
      Step ⟨outputs, before ++ current :: after⟩ ⟨outputs', before ++ next :: after⟩

def start (workers : Nat) : State :=
  ⟨run.zeroed, (chunks run.count workers).map (Worker.start run)⟩

/-- The failure of one worker, with the indices it was found over. The one worker of a sequential
run reports it bare. -/
def reported (workers : Nat) (entry : (Worker × (Nat × Nat)) × Nat) : Option Refusal :=
  entry.1.1.failure.map fun message =>
    if workers = 1 then .lane message
    else .worker entry.2 entry.1.2.1 entry.1.2.2 message

/-- The first failure in worker order, else the outputs read back. -/
def collect (workers : Nat) (state : State) : Except Refusal (List BufferWords) :=
  match (state.workers.zip (chunks run.count workers)).zipIdx.findSome? (reported workers) with
  | some refusal => .error refusal
  | none => .ok (run.tagged state.outputs)

end Steps

/-- What a launch answers on `workers` workers, in some order of their steps. -/
inductive RunParallelKernel (addFloat : BitVec 32 → BitVec 32 → BitVec 32) (launch : Launch)
    (workers : Nat) : Except Refusal (List BufferWords) → Prop
  | refused {refusal} (gate : prepare launch = .error refusal) :
      RunParallelKernel addFloat launch workers (.error refusal)
  | ran {run state} (gate : prepare launch = .ok run)
      (steps : Relation.ReflTransGen (Step addFloat run) (start run workers) state)
      (finished : ∀ worker ∈ state.workers, worker.Finished) :
      RunParallelKernel addFloat launch workers (collect run workers state)

end LichenVm.ParallelRun
