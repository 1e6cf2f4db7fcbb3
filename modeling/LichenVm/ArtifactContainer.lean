import LichenVm.ArtifactValues
import LichenVm.Freeze

/-! The artifact container: the writer, the reader, and the shape encoders. -/

namespace LichenVm

open ByteStream PrefixCode

variable {P : Program}

mutual

/-- A shape's tag never changes, and an unstated position is tag 0. -/
def LowShape.write : LowShape → Words
  | .usize => [.u8 1]
  | .tuple positions => .u8 2 :: .u64 positions.length :: writeLowShapes positions
  | .array element length => .u8 3 :: (writeLowShape element ++ [.u64 length])
  | .function parameter result => .u8 4 :: (writeLowShape parameter ++ writeLowShape result)
  | .table key value => .u8 5 :: (writeLowShape key ++ writeLowShape value)
  | .float => [.u8 6]

def writeLowShape : Option LowShape → Words
  | none => [.u8 0]
  | some shape => shape.write

def writeLowShapes : List (Option LowShape) → Words
  | [] => []
  | position :: positions => writeLowShape position ++ writeLowShapes positions

end

/-- The deepest nesting a node's shape marker may declare. -/
def MAX_LOW_SHAPE_DEPTH : Nat := 256

/-- Read one shape marker. `room` is how many levels the cap still allows, this one included. -/
def readLowShape : Nat → Reader Arena (Option LowShape)
  | 0 => refuse
  | room + 1 => do
    let tag ← u8
    if tag = 0 then pure none
    else if tag = 1 then pure (some .usize)
    else if tag = 2 then
      let positions ← counted (readLowShape room)
      pure (some (.tuple positions))
    else if tag = 3 then
      let element ← readLowShape room
      let length ← u64
      pure (some (.array element length))
    else if tag = 4 then
      let parameter ← readLowShape room
      let result ← readLowShape room
      pure (some (.function parameter result))
    else if tag = 5 then
      let key ← readLowShape room
      let value ← readLowShape room
      pure (some (.table key value))
    else if tag = 6 then pure (some .float)
    else refuse

def writeNodeId (node : LocalNodeId) : Words := [.u64 node.index]

/-- Read one node index and refuse one the module does not have. -/
def readNodeId (count : Nat) : Reader Arena LocalNodeId := do
  let index ← u64
  check (decide (index < count))
  pure ⟨index⟩

def writeFunctionId (function : StaticFunctionId) : Words := [.u64 function.index]

def readFunctionId : Reader Arena StaticFunctionId := do
  let index ← u64
  pure ⟨index⟩

def writeOperation (codec : ArtifactCodec P) (operation : StaticOperation P) : Option Words := do
  let operator ← codec.writeOperator operation.operator
  some (operator ++ writeOption writeNodeId operation.operand)

def readOperation (codec : ArtifactCodec P) (count : Nat) : Reader Arena (StaticOperation P) := do
  let operator ← codec.readOperator
  let operand ← optionally (readNodeId count)
  pure { operator, operand }

/-- An optional field whose writer may refuse. -/
def writeSome {A : Type} (write : A → Option Words) : Option A → Option Words
  | none => some [.u8 0]
  | some value => (write value).map fun words => .u8 1 :: words

def writeDeep (deep : EvaluatedDeep) : Words := [writeFlag deep.undecided]

def readDeep : Reader Arena EvaluatedDeep := do
  let undecided ← flag
  pure { undecided }

def writeNode (codec : ArtifactCodec P) (modules : Modules P) (node : StaticNode P) :
    Option Words := do
  let value ← writeSome (codec.writeValue modules) node.value
  let operation ← writeSome (writeOperation codec) node.operation
  some (value ++ (operation ++ (writeOption writeNodeId node.equality.parent ++
    (writeOption writeNodeId node.equality.next ++ (writeOption writeNodeId node.equality.tail ++
      .u32 node.equality.size :: (writeOption writeFunctionId node.owner ++
        writeFlag node.runned :: (writeOption writeDeep node.evaluatedDeep ++
          writeLowShape node.lowShape)))))))

def readNode (codec : ArtifactCodec P) (key : ModuleKey) (arena : Arena) (modules : Modules P)
    (count : Nat) : Reader Arena (StaticNode P) := do
  let value ← optionally (codec.readValue key arena modules)
  let operation ← optionally (readOperation codec count)
  let parent ← optionally (readNodeId count)
  let next ← optionally (readNodeId count)
  let tail ← optionally (readNodeId count)
  let size ← u32
  let owner ← tagged readFunctionId
  let runned ← flag
  let evaluatedDeep ← tagged readDeep
  let lowShape ← readLowShape MAX_LOW_SHAPE_DEPTH
  pure { value, lowShape, operation, equality := { parent, next, tail, size }, owner, runned
         evaluatedDeep }

def writeOrigin (origin : StaticFunctionRef) : Words :=
  [.u64 origin.module.raw, .u64 origin.index.index]

def readOrigin : Reader Arena StaticFunctionRef := do
  let module ← u64
  let index ← u64
  pure { module := ⟨module⟩, index := ⟨index⟩ }

def writeFunction (function : StaticFunction) : Words :=
  .u64 function.parameter.index :: .u64 function.return.index :: .u64 function.returnType.index ::
    (writeOption writeOrigin function.origin ++ (writeList writeNodeId function.asserts ++
      (writeList writeNodeId function.nodes ++ writeOption writeFunctionId function.parent)))

/-- The open-capture verdict is not stored: it is recomputed. -/
def readFunction (count : Nat) : Reader Arena StaticFunction := do
  let parameter ← readNodeId count
  let result ← readNodeId count
  let returnType ← readNodeId count
  let origin ← tagged readOrigin
  let asserts ← counted (readNodeId count)
  let nodes ← counted (readNodeId count)
  let parent ← tagged readFunctionId
  pure { parameter, «return» := result, returnType, origin, asserts, nodes, parent }

/-- How far the parent walk has come at a function. -/
inductive ChainMark where
  | unvisited
  | onChain
  | settled
  deriving DecidableEq

/-- Walk the parent chain from `current`. A chain that meets itself is refused. -/
def walkChain (functions : List StaticFunction) :
    Nat → List ChainMark → List Nat → Nat → Option (List ChainMark × List Nat)
  | 0, _, _, _ => none
  | fuel + 1, state, chain, current =>
    let state := state.set current .onChain
    let chain := chain ++ [current]
    match functions[current]?.bind StaticFunction.parent with
    | none => some (state, chain)
    | some parent =>
      match state[parent.index]? with
      | some .onChain => none
      | some .settled => some (state, chain)
      | _ => walkChain functions fuel state chain parent.index

/-- Settle the chain of one function, unless an earlier walk reached it. -/
def settleChain (functions : List StaticFunction) (state : List ChainMark) (start : Nat) :
    Option (List ChainMark) :=
  if state[start]? = some .unvisited then
    (walkChain functions (functions.length + 1) state [] start).map fun (state, chain) =>
      chain.foldl (fun state index => state.set index .settled) state
  else some state

/-- The lexical parents must form a forest: a cycle has no scope. -/
def checkParentForest (functions : List StaticFunction) : Bool :=
  ((List.range functions.length).foldlM (settleChain functions)
    (List.replicate functions.length .unvisited)).isSome

/-- Every owner and parent names a function of the artifact, and the parents form a forest. -/
def checkFunctionLinks (nodes : List (StaticNode P)) (functions : List StaticFunction) : Bool :=
  (nodes.all fun node => node.owner.all fun owner => decide (owner.index < functions.length)) &&
    (functions.all fun function =>
      function.parent.all fun parent => decide (parent.index < functions.length)) &&
    checkParentForest functions

def writePair (pair : LocalNodeId × LocalNodeId) : Words := [.u64 pair.1.index, .u64 pair.2.index]

def readPair (count : Nat) : Reader Arena (LocalNodeId × LocalNodeId) := do
  let left ← readNodeId count
  let right ← readNodeId count
  pure (left, right)

/-- The entries of a node record by their keys' indices. -/
def sortedEntries (record : AssocMap LocalNodeId LocalNodeId) : List (LocalNodeId × LocalNodeId) :=
  record.entries.insertionSort fun left right => left.1.index ≤ right.1.index

def ARTIFACT_FORMAT_VERSION : Nat := 29

/-- "LCHN". -/
def artifactMagic : List UInt8 := [76, 67, 72, 78]

def serializeBody (codec : ArtifactCodec P) (home : StaticModule P) (modules : Modules P)
    («export» : LocalNodeId) : Option Words := do
  let nodes ← home.nodes.mapM (writeNode codec modules)
  let defaults ← writeSome (writeRelocatedHandle modules) home.defaultAttributes
  some (.u64 «export».index :: .u64 home.arena.length :: .block home.arena ::
    .u64 home.nodes.length :: (nodes.flatten ++ (writeList writeFunction home.functions ++
      (writeList writePair (sortedEntries home.applyResultOwners) ++
        (writeList writePair (sortedEntries home.fieldSources) ++
          (writeList (writeList fun canonical => [.u32 canonical]) home.attributeLayouts ++
            defaults))))))

/-- Serialize a module with its export. A refusal, or a module that is not supplied: `none`. -/
def serializeArtifactWith (codec : ArtifactCodec P) (home : StaticModule P) (modules : Modules P)
    (hash : List UInt8) («export» : LocalNodeId) : Option Words := do
  let body ← serializeBody codec home modules «export»
  some (.bytes artifactMagic :: .u32 ARTIFACT_FORMAT_VERSION :: .u64 home.key.raw :: .bytes hash ::
    .u64 codec.arenaAlign :: .bytes (codec.sha256 body) :: body)

def readBody (codec : ArtifactCodec P) (key : ModuleKey) (modules : Modules P) :
    Reader Arena (StaticModule P × LocalNodeId) := do
  let «export» ← u64
  let length ← u64
  let arena ← block
  check (decide (arena.length = length))
  let count ← u64
  check (decide («export» < count))
  let nodes ← listOf (readNode codec key arena modules count) count
  let functions ← counted (readFunction count)
  check (checkFunctionLinks nodes functions)
  let owners ← counted (readPair count)
  let sources ← counted (readPair count)
  let attributeLayouts ← counted (counted u32)
  let defaultAttributes ← tagged (readRelocatedHandle Payload.items? key arena modules)
  let home : StaticModule P :=
    { key, nodes, functions, applyResultOwners := ⟨owners⟩, fieldSources := ⟨sources⟩
      attributeLayouts, defaultAttributes }
  pure (home.fillOpenCaptures.fillScopeSummaries, ⟨«export»⟩)

/-- The header, up to the digest of the body. -/
def readHeader (codec : ArtifactCodec P) (key : ModuleKey) (hash : List UInt8) :
    Reader Arena (List UInt8) := do
  let magic ← bytes
  check (decide (magic = artifactMagic))
  let version ← u32
  check (decide (version = ARTIFACT_FORMAT_VERSION))
  let raw ← u64
  check (decide ((⟨raw⟩ : ModuleKey) = key))
  let stored ← bytes
  check (decide (stored = hash))
  let align ← u64
  check (decide (align = codec.arenaAlign))
  bytes

/-- Deserialize an artifact, verifying `key` and `hash` against the header. -/
def readArtifact (codec : ArtifactCodec P) (key : ModuleKey) (hash : List UInt8)
    (modules : Modules P) : Reader Arena (StaticModule P × LocalNodeId) := do
  let digest ← readHeader codec key hash
  let body ← unread
  check (decide (codec.sha256 body = digest))
  let read ← readBody codec key modules
  let trailing ← unread
  check trailing.isEmpty
  pure read

def deserializeArtifactWith (codec : ArtifactCodec P) (words : Words) (key : ModuleKey)
    (hash : List UInt8) (modules : Modules P) : Option (StaticModule P × LocalNodeId) :=
  (readArtifact codec key hash modules ⟨words, []⟩).map Prod.fst

end LichenVm
