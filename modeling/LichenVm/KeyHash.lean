import LichenVm.Evaluation
import LichenVm.Memo

namespace LichenVm

open Memo

/-- The deterministic mixer for the deep content hash. -/
def mix (h : UInt64) : UInt64 :=
  let z := h + 0x9e3779b97f4a7c15
  let z := (z ^^^ (z >>> 30)) * 0xbf58476d1ce4e5b9
  let z := (z ^^^ (z >>> 27)) * 0x94d049bb133111eb
  z ^^^ (z >>> 31)

def NONE_TOKEN : UInt64 := 0x6e6f6e6500000001
def FRONTIER_TOKEN : UInt64 := 0x66726f6e00000005
def FUNCTION_TOKEN : UInt64 := 0x66756e6300000006
def OPERATION_TOKEN : UInt64 := 0x6f70657200000007
def UNDECIDED_TOKEN : UInt64 := 0x756e646500000008
def ERROR_TOKEN : UInt64 := 0x766f696400000009
def EXTENSION_TOKEN : UInt64 := 0x657874650000000a
def NULL_TOKEN : UInt64 := 0x6e756c6c0000000b
def ARRAY_SEED : UInt64 := 0xa22eb3e100000004
def TABLE_SEED : UInt64 := 0x7461626c0000000c
def TEMPLATE_TOKEN : UInt64 := 0x74656d700000000d

/-- How far a key's canonical unfolding descends before it is cut. -/
def UNFOLD_DEPTH : Nat := 8

/-- Which of a key's two unfoldings a node is being walked in: its own value graph, or the shape of
a function template. -/
inductive UnfoldMode where
  | key
  | template
  deriving DecidableEq

/-- Why a table key has, or has not, a content hash. -/
inductive KeyState where
  | hashed (hash : UInt64)
  | undecided
  | unhashable
  deriving DecidableEq

/-- One key's unfolding, memoized by node, mode and remaining depth. -/
structure Unfolding where
  nodes : UnfoldMode × AnyNodeId × Nat → Option KeyState := fun _ => none
  functions : AnyFunctionId × Nat → Option (Option UInt64) := fun _ => none

namespace Unfolding

def rememberNode (at_ : UnfoldMode × AnyNodeId × Nat) (verdict : KeyState) (memo : Unfolding) :
    Unfolding :=
  { memo with nodes := Function.update memo.nodes at_ (some verdict) }

/-- A function that is not resolvable is not remembered. -/
def rememberFunction (at_ : AnyFunctionId × Nat) (hash : Option UInt64) (memo : Unfolding) :
    Unfolding :=
  if hash.isSome then { memo with functions := Function.update memo.functions at_ (some hash) }
  else memo

end Unfolding

/-- A walk of an unfolding; it fails where the source panics. -/
abbrev Hashing := StateT Unfolding Option

namespace Module

variable {P : Program}

/-- A node's operation edge: `none` for none, `some none` for nullary. An unregistered module
panics, and so does every read below. -/
def operationOperand (m : Module P) : AnyNodeId → Option (Option (Option AnyNodeId))
  | .dynamic node => some ((m.nodeOperation node).map fun operation =>
    operation.operand.map .dynamic)
  | .static sref => (m.staticModule sref.module).map fun home =>
    (home.nodes[sref.index.index]?.bind StaticNode.operation).map fun operation =>
      operation.operand.map fun index => .static { sref with index }

/-- Whether a node is a static one whose artifact was frozen read-only. -/
def readOnlyStatic (m : Module P) : AnyNodeId → Option Bool
  | .dynamic _ => some false
  | .static sref => (m.staticModule sref.module).map StaticModule.readOnly

/-- The edge a walk unfolds in place of the node's value: only a template's. -/
def unfoldedEdge (m : Module P) (mode : UnfoldMode) (id : AnyNodeId) :
    Option (Option (Option AnyNodeId)) :=
  match mode with
  | .key => some none
  | .template => m.operationOperand id

/-- Whether a template walk refuses a node: a read-only artifact kept no operation to hash. -/
def refusesTemplate (m : Module P) (mode : UnfoldMode) (id : AnyNodeId) : Option Bool :=
  match mode with
  | .key => some false
  | .template => m.readOnlyStatic id

/-- The raw value behind a ref. -/
def readValue (m : Module P) : AnyNodeId → Option (Option (Value P))
  | .dynamic node => some (m.nodeValue (.dynamic node))
  | .static sref => (m.staticNode sref).map StaticNode.value

/-- A compound's element is a slot: its value is the key content. -/
def slotContent (m : Module P) (node : AnyNodeId) : Option AnyNodeId :=
  (m.readValue node).map fun _ => (m.elementValueNode node).getD node

/-- A function's entry points, what it returns and asserts, or none for one that does not
resolve. -/
def entryPoints (m : Module P) : AnyFunctionId → Option (Option (AnyNodeId × List AnyNodeId))
  | .dynamic function => some ((m.functions.get function).map fun template =>
    (.dynamic template.return, template.asserts.map .dynamic))
  | .static sref => (m.staticModule sref.module).map fun home =>
    home.functions[sref.index.index]?.map fun template =>
      (.static ⟨sref.module, template.return⟩,
        template.asserts.map fun index => .static ⟨sref.module, index⟩)

section Walk

variable {M : Type → Type} [Monad M] [MonadLiftT Option M]

/-- The template walk decides every node it reaches; another answer panics. -/
def hashTemplate (walk : UnfoldMode → AnyNodeId → M KeyState) (id : AnyNodeId) : M UInt64 := do
  match ← walk .template id with
  | .hashed hash => pure hash
  | _ => liftM (none : Option UInt64)

def hashEntryPoints (walk : UnfoldMode → AnyNodeId → M KeyState) (result : AnyNodeId)
    (asserts : List AnyNodeId) : M UInt64 := do
  let first ← hashTemplate walk result
  asserts.foldlM (fun hash assert => do
    let next ← hashTemplate walk assert
    pure (mix (hash ^^^ next))) (mix (FUNCTION_TOKEN ^^^ first))

/-- The hash of a function's template, or none for one that does not resolve. -/
def hashResolved (m : Module P) (walk : UnfoldMode → AnyNodeId → M KeyState)
    (function : AnyFunctionId) : M (Option UInt64) := do
  match ← liftM (m.entryPoints function) with
  | none => pure none
  | some (result, asserts) => do
    let hash ← hashEntryPoints walk result asserts
    pure (some hash)

/-- The positional fold of an array's items. An undecided position makes the whole key that. A
template slot contributes its presence to key content. -/
def hashItems (m : Module P) (walk : UnfoldMode → AnyNodeId → M KeyState) (mode : UnfoldMode) :
    List ArrayItem → UInt64 → M KeyState
  | [], hash => pure (.hashed hash)
  | item :: items, hash =>
    if item.template ∧ mode = .key then
      hashItems m walk mode items (mix (hash ^^^ TEMPLATE_TOKEN))
    else do
      let content ← liftM (m.slotContent item.node)
      match ← walk mode content with
      | .hashed itemHash => hashItems m walk mode items (mix (hash ^^^ itemHash))
      | verdict => pure verdict

/-- What a node without content is to each unfolding. -/
def undecidedState : UnfoldMode → KeyState
  | .key => .undecided
  | .template => .hashed UNDECIDED_TOKEN

def hashText (text : String) : UInt64 :=
  mix (text.toUTF8.toList.foldl (fun hash byte => mix (hash ^^^ byte.toUInt64)) 0)

def hashTable (items : List TableItem) : UInt64 :=
  items.foldl (fun hash item => mix (hash ^^^ item.hash)) TABLE_SEED

def hashValue (m : Module P) (walk : UnfoldMode → AnyNodeId → M KeyState)
    (functionHash : AnyFunctionId → M (Option UInt64)) (mode : UnfoldMode) :
    Value P → M KeyState
  | .low (.usize n) => pure (.hashed (mix (UInt64.ofNat n)))
  | .low (.float bits) => pure (.hashed (mix bits.toUInt64))
  | .low (.str text) => pure (.hashed (hashText text))
  | .low .none => pure (.hashed NONE_TOKEN)
  | .low .any => pure (undecidedState mode)
  | .low .error => pure (match mode with
      | .key => .unhashable
      | .template => .hashed ERROR_TOKEN)
  | .low (.function function) => do
    match ← functionHash function with
    | some hash => pure (.hashed hash)
    | none => pure (undecidedState mode)
  | .low (.array array) => m.hashItems walk mode array.items ARRAY_SEED
  -- A table keys by identity, and its hash by the hashes its entries are stored under.
  | .low (.table table) => pure (.hashed (hashTable table.items))
  | .ext _ => pure (.hashed EXTENSION_TOKEN)

/-- The hash of an operation's operand, or the token of none. -/
def hashOperand (walk : UnfoldMode → AnyNodeId → M KeyState) : Option AnyNodeId → M UInt64
  | some operand => hashTemplate walk operand
  | none => pure NULL_TOKEN

/-- One level of the unfolding, after the depth cut and the memo. A template is walked by its
shape: a node with an operation unfolds its edge, and a read-only artifact kept none. -/
def hashStep (m : Module P) (walk : UnfoldMode → AnyNodeId → M KeyState)
    (functionHash : AnyFunctionId → M (Option UInt64)) (mode : UnfoldMode) (id : AnyNodeId) :
    M KeyState := do
  match ← liftM (m.unfoldedEdge mode id) with
  | some operand => do
    let nested ← hashOperand walk operand
    pure (.hashed (mix (OPERATION_TOKEN ^^^ nested)))
  | none => do
    match ← liftM (m.refusesTemplate mode id) with
    | true => pure .undecided
    | false => do
      match ← liftM (m.readValue id) with
      | none => pure (undecidedState mode)
      | some value => m.hashValue walk functionHash mode value

end Walk

/-- The content hash of a function used as key content, its template walked by `walk` at the depth
that is left. -/
def hashFunction (m : Module P) (depth : Nat) (walk : UnfoldMode → AnyNodeId → Hashing KeyState)
    (function : AnyFunctionId) : Hashing (Option UInt64) :=
  if depth = 0 then pure (some FRONTIER_TOKEN)
  else Memo.memoized (fun memo => memo.functions (function, depth))
    (Unfolding.rememberFunction (function, depth)) (m.hashResolved walk function)

/-- The canonical content unfolding's recursion, cut at the depth bound. -/
def hashNode (m : Module P) : Nat → UnfoldMode → AnyNodeId → Hashing KeyState
  | 0, _, _ => pure (.hashed FRONTIER_TOKEN)
  | depth + 1, mode, id =>
    Memo.memoized (fun memo => memo.nodes (mode, id, depth + 1))
      (Unfolding.rememberNode (mode, id, depth + 1))
      (m.hashStep (hashNode m depth) (m.hashFunction depth (hashNode m depth)) mode id)

def contentHash (m : Module P) (key : AnyNodeId) : Option KeyState :=
  ((m.hashNode UNFOLD_DEPTH .key key).run {}).map Prod.fst

/-- Whether and how a key hashes. An unevaluated key is deep-evaluated first, a static one reads its
solved verdict. -/
def keyState (dispatch : Dispatch P) (m : Module P) (key : AnyNodeId) :
    Option (KeyState × Module P) :=
  match key with
  | .dynamic node => do
    let (_, m) ← m.evaluateNodeDeep dispatch node none
    let entry ← m.nodes.get node
    if entry.evaluatedDeep.any EvaluatedDeep.undecided then some (.undecided, m)
    else (m.contentHash key).map fun state => (state, m)
  | .static sref => do
    let entry ← m.staticNode sref
    if entry.isUndecided then some (.undecided, m)
    else (m.contentHash key).map fun state => (state, m)

/-- The unfolding without its memo. -/
def content (m : Module P) : Nat → UnfoldMode → AnyNodeId → Option KeyState
  | 0, _, _ => some (.hashed FRONTIER_TOKEN)
  | depth + 1, mode, id =>
    m.hashStep (content m depth) (fun function =>
      if depth = 0 then some (some FRONTIER_TOKEN) else m.hashResolved (content m depth) function)
      mode id

end Module

end LichenVm
