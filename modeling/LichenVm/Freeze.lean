import LichenVm.Collect
import LichenVm.Functions

namespace LichenVm

open DisjointSet LexicalScope

/-- What a frozen module keeps: a `readOnly` artifact stores no operation for a decided node. -/
inductive FreezeMode where
  | portable
  | readOnly
  deriving DecidableEq

/-- What a freeze files and under which key: its nodes and functions in slot order, and the
payloads it lays out in its arena. -/
structure Freezing where
  key : ModuleKey
  nodeIds : List NodeId
  functionIds : List FunctionId
  payloads : List (BlockId × Nat)

namespace Freezing

variable {P : Program}

/-- The frozen node of a source node. A node outside the set panics: `none` here. -/
def node (f : Freezing) (node : NodeId) : Option LocalNodeId :=
  (f.nodeIds.idxOf? node).map LocalNodeId.mk

def function (f : Freezing) (function : FunctionId) : Option StaticFunctionId :=
  (f.functionIds.idxOf? function).map StaticFunctionId.mk

/-- Where the arena copy of a dynamic payload lies. -/
def offset {α : Type} (f : Freezing) (handle : Handle α) : Option Nat :=
  f.payloads.idxOf? (handle.block, handle.address)

/-- A dynamic ref becomes static under the key, a static one is filed verbatim. -/
def rewriteNodeRef (f : Freezing) : AnyNodeId → Option AnyNodeId
  | .dynamic node => (f.node node).map fun index => .static { module := f.key, index }
  | .static sref => some (.static sref)

def rewriteItem (f : Freezing) (item : ArrayItem) : Option ArrayItem :=
  (f.rewriteNodeRef item.node).map fun node => { item with node }

/-- A table entry's refs; its stored hash travels verbatim. -/
def rewriteEntry (f : Freezing) (item : TableItem) : Option TableItem := do
  let key ← f.rewriteNodeRef item.key
  let value ← f.rewriteNodeRef item.value
  some { item with key, value }

/-- The frozen image of a dynamic payload, its items rewritten. -/
def rewriteHandle {α : Type} (f : Freezing) (rewrite : α → Option α) (handle : Handle α) :
    Option (StaticHandle α) := do
  let offset ← f.offset handle
  let items ← handle.items.mapM rewrite
  some { module := f.key, offset, items }

/-- Re-key an array payload no node carries. -/
def staticArrayHandle (f : Freezing) : AnyHandle ArrayItem → Option (StaticHandle ArrayItem)
  | .static handle => some handle
  | .dynamic handle => f.rewriteHandle f.rewriteItem handle

/-- Dynamic payloads and refs become static under the key; a static value is filed verbatim. -/
def rewriteValue (f : Freezing) : Value P → Option (Value P)
  | .low (.array array) =>
    match array.handle with
    | .static _ => some (.low (.array array))
    | .dynamic handle =>
      (f.rewriteHandle f.rewriteItem handle).map fun handle =>
        .low (.array { handle := .static handle, layout := array.layout })
  | .low (.table (.dynamic handle)) =>
    (f.rewriteHandle f.rewriteEntry handle).map fun handle => .low (.table (.static handle))
  | .low (.function (.dynamic function)) =>
    (f.function function).map fun index => .low (.function (.static { module := f.key, index }))
  | .low value => some (.low value)
  | .ext value =>
    match P.handle value with
    | some (.dynamic handle) =>
      (f.offset handle).map fun offset =>
        .ext (P.setHandle value (.static { module := f.key, offset, items := handle.items }))
    | _ => some (.ext value)

/-- Every link of a node's metadata names a frozen node. -/
def remapMeta (f : Freezing) (links : Meta NodeId) : Option (Meta LocalNodeId) := do
  let parent ← links.parent.mapM f.node
  let next ← links.next.mapM f.node
  let tail ← links.tail.mapM f.node
  some { parent, next, tail, size := links.size }

end Freezing

/-- The arena payload a value holds in a block. -/
def Value.payload {P : Program} : Value P → Option (BlockId × Nat)
  | .low (.array array) =>
    match array.handle with
    | .dynamic handle => some (handle.block, handle.address)
    | .static _ => none
  | .low (.table (.dynamic handle)) => some (handle.block, handle.address)
  | .ext value =>
    match P.handle value with
    | some (.dynamic handle) => some (handle.block, handle.address)
    | _ => none
  | _ => none

namespace StaticNode

variable {P : Program}

/-- The solved concreteness flag: true when never deep-passed. -/
def undecided (node : StaticNode P) : Bool :=
  match node.evaluatedDeep with
  | none => true
  | some deep => deep.undecided

end StaticNode

namespace StaticModule

variable {P : Program}

/-- The frozen nodes of this module that a frozen value names. -/
def valueRefs (home : StaticModule P) : Option (Value P) → List LocalNodeId
  | some (.low (.array array)) => array.items.filterMap fun item => home.own item.node
  | some (.low (.table table)) =>
    table.items.flatMap fun item => (home.own item.key).toList ++ (home.own item.value).toList
  | _ => []

/-- The open-capture walk: the nodes of the function's own scope, the nodes visited, and the
stack, its top first. The fuel bounds the nodes visited. -/
def capturesOpen (home : StaticModule P) : Nat → List LocalNodeId → List LocalNodeId →
    List LocalNodeId → Bool
  | 0, _, _, _ => false
  | fuel + 1, scope, visited, stack =>
    match stack.dropWhile (· ∈ visited) with
    | [] => false
    | node :: rest =>
      match home.nodes[node.index]? with
      | none => false
      | some entry =>
        if entry.undecided && !scope.contains node then true
        else
          let operand := (entry.operation.bind StaticOperation.operand).toList
          match entry.value with
          | some (.low (.function (.static sref))) =>
            match if sref.module = home.key then home.functions[sref.index.index]? else none with
            | some function =>
              home.capturesOpen fuel (function.nodes ++ scope) (node :: visited)
                (function.asserts.reverse ++ function.return :: operand ++ rest)
            | none => home.capturesOpen fuel scope (node :: visited) (operand ++ rest)
          | value =>
            home.capturesOpen fuel scope (node :: visited)
              ((home.valueRefs value).reverse ++ operand ++ rest)

/-- Whether a frozen function's body reaches an undecided node outside its own scope. -/
def hasOpenCaptures (home : StaticModule P) (function : StaticFunction) : Bool :=
  home.capturesOpen (home.nodes.length + 1) function.nodes []
    (function.asserts.reverse ++ [function.return])

/-- Fill every function's `openCaptures`, once. -/
def fillOpenCaptures (home : StaticModule P) : StaticModule P :=
  { home with functions := home.functions.map fun function =>
      { function with openCaptures := home.hasOpenCaptures function } }

/-- The scope of one frozen function, built from its parent's. A function whose parent chain
fails, by a cycle or a missing function, has none. -/
def staticScope (home : StaticModule P) : Nat → StaticFunctionId → Option (Scope StaticFunctionId)
  | 0, _ => none
  | fuel + 1, index =>
    match home.functions[index.index]? with
    | none => none
    | some entry =>
      match entry.parent with
      | none => Scope.child index none
      | some parent => (home.staticScope fuel parent).bind fun above => Scope.child index (some above)

/-- The scope a member's owner names, or `none` for the virtual root. -/
def staticOwnerScope (home : StaticModule P) (scopes : List (Option (Scope StaticFunctionId)))
    (node : LocalNodeId) : Option (Scope StaticFunctionId) :=
  (home.nodes[node.index]?.bind StaticNode.owner).bind fun owner => (scopes[owner.index]?).join

/-- The scope summary of every class, at its representative. -/
def staticScopeSummaries (home : StaticModule P) (scopes : List (Option (Scope StaticFunctionId))) :
    List (Option (Scope StaticFunctionId)) :=
  (List.range home.nodes.length).map fun index =>
    if (parentOf home.nodes ⟨index⟩).isSome then none
    else foldSummary ((membersFrom home.nodes.length home.nodes ⟨index⟩).map
      (home.staticOwnerScope scopes))

/-- Fill every function's scope and every class's scope summary, once. -/
def fillScopeSummaries (home : StaticModule P) : StaticModule P :=
  let scopes := (List.range home.functions.length).map fun index =>
    home.staticScope (home.functions.length + 1) ⟨index⟩
  { home with scopes, scopeSummaries := home.staticScopeSummaries scopes }

end StaticModule

namespace Function

/-- The nodes of a function template that the closure walk follows. -/
def listedNodes (template : Function) : List NodeId :=
  template.parameter :: template.return :: (template.asserts ++ template.nodes)

end Function

namespace Module

variable {P : Program}

/-- The class's low type through its representative. -/
def classLowType (m : Module P) (node : NodeId) : Option LowShape :=
  (m.nodes.get (m.classRoot node)).bind Node.lowShape

/-- The frozen members of the class `root` heads, in slot order. -/
def frozenMembers (m : Module P) (nodeIds : List NodeId) (root : NodeId) : List NodeId :=
  nodeIds.filter fun node => m.classRoot node = root

/-- A frozen node's links: a class held whole carries them over verbatim, another is spliced to
its frozen members, the first of which represents. -/
def frozenLinks (m : Module P) (nodeIds : List NodeId) (node : NodeId) (own : Meta NodeId) :
    Meta NodeId :=
  let root := m.classRoot node
  let members := m.frozenMembers nodeIds root
  if members.length = sizeOf m.nodes root then own
  else
    let position := members.idxOf node
    { parent := if position > 0 then members.head? else none
      next := members[position + 1]?
      tail := if position = 0 then members.getLast? else none
      size := if position = 0 then members.length else 1 }

/-- The operation a frozen node stores. -/
def freezeOperation (f : Freezing) (mode : FreezeMode) (entry : Node P) :
    Option (Option (StaticOperation P)) :=
  if mode = .readOnly ∧ entry.value.isSome then some none
  else
    entry.operation.mapM fun operation =>
      (operation.operand.mapM f.node).map fun operand => { operator := operation.operator, operand }

def freezeNode (m : Module P) (f : Freezing) (mode : FreezeMode) (node : NodeId) :
    Option (StaticNode P) := do
  let entry ← m.nodes.get node
  let operation ← freezeOperation f mode entry
  let equality ← f.remapMeta (m.frozenLinks f.nodeIds node entry.equality)
  let value ← entry.value.mapM f.rewriteValue
  some { value, lowShape := m.classLowType node, operation, equality
         owner := entry.function.bind f.function
         runned := entry.runned, evaluatedDeep := entry.evaluatedDeep }

/-- One frozen function. A return type that is not filed falls back to the return node. -/
def freezeFunction (m : Module P) (f : Freezing) (function : FunctionId) : Option StaticFunction := do
  let entry ← m.functions.get function
  let parameter ← f.node entry.parameter
  let result ← f.node entry.return
  let asserts ← entry.asserts.mapM f.node
  let nodes ← entry.nodes.mapM f.node
  some { parameter, «return» := result, returnType := (f.node entry.returnType).getD result
         origin := entry.staticOrigin, asserts, nodes, openCaptures := false
         parent := entry.parent.bind f.function }

/-- The payloads a freeze lays out: each node's once, then the default attribute array. -/
def frozenPayloads (m : Module P) (nodeIds : List NodeId) : List (BlockId × Nat) :=
  let payloads := nodeIds.filterMap fun node =>
    ((m.nodes.get node).bind Node.value).bind Value.payload
  let default := match m.defaultAttributes with
    | some (.dynamic handle) => [(handle.block, handle.address)]
    | _ => []
  (payloads ++ default).eraseDups

/-- The entries of a node record whose two ends are filed. -/
def frozenRecord (f : Freezing) (record : AssocMap NodeId NodeId) :
    AssocMap LocalNodeId LocalNodeId :=
  ⟨record.entries.filterMap fun (left, right) => do some (← f.node left, ← f.node right)⟩

/-- Freeze exactly `nodeIds` and `functionIds`. Every reference that leaves the set panics:
`none`. -/
def freezeSet (m : Module P) (key : ModuleKey) (nodeIds : List NodeId)
    (functionIds : List FunctionId) (mode : FreezeMode) : Option (StaticModule P) := do
  let f : Freezing := { key, nodeIds, functionIds, payloads := m.frozenPayloads nodeIds }
  let nodes ← nodeIds.mapM (m.freezeNode f mode)
  let functions ← functionIds.mapM (m.freezeFunction f)
  let defaultAttributes ← m.defaultAttributes.mapM f.staticArrayHandle
  let artifact : StaticModule P :=
    { key, nodes, functions
      applyResultOwners := frozenRecord f m.applyResultOwners
      fieldSources := frozenRecord f m.fieldSources
      attributeLayouts := m.attributeLayouts
      defaultAttributes
      readOnly := mode = .readOnly }
  some artifact.fillOpenCaptures.fillScopeSummaries

/-- Freeze the whole module. -/
def fromModule (m : Module P) (key : ModuleKey) : Option (StaticModule P) :=
  m.freezeSet key m.nodes.keys m.functions.keys .portable

/-- The nodes a value's own payload, or its program, keeps alive. -/
def closureRefs (m : Module P) : Value P → List NodeId
  | .low (.array array) =>
    match array.handle with
    | .dynamic handle => handle.items.filterMap fun item => item.node.dynamic?
    | .static _ => []
  | .low (.table (.dynamic handle)) =>
    handle.items.flatMap fun item => item.key.dynamic?.toList ++ item.value.dynamic?.toList
  | .low _ => []
  | .ext value => P.traced m.traceContext value

/-- The node's own edges of the closure walk: its operand, which a freeze stores, the source a
constructor field was supplied from, and the refs of its value. -/
def closureEdges (m : Module P) (mode : FreezeMode) (node : NodeId) (entry : Node P) : List NodeId :=
  (if mode = .portable ∨ entry.value.isNone then
    (entry.operation.bind Operation.operand).toList else []) ++
    (m.fieldSources.get node).toList ++ (entry.value.map m.closureRefs).getD []

def heldTemplate (m : Module P) : Option (Value P) → Option (FunctionId × Function)
  | some (.low (.function (.dynamic function))) =>
    (m.functions.get function).map fun template => (function, template)
  | _ => none

/-- The closure walk: the nodes and functions entered, the classes taken whole, and the stack,
its top first. A released node is skipped; the fuel bounds the nodes entered. -/
def closureFrom (m : Module P) (mode : FreezeMode) : Nat → List NodeId → List FunctionId →
    List NodeId → List NodeId → List NodeId × List FunctionId
  | 0, nodes, functions, _, _ => (nodes, functions)
  | fuel + 1, nodes, functions, decided, stack =>
    match stack.dropWhile fun node => node ∈ nodes ∨ !m.nodes.containsKey node with
    | [] => (nodes, functions)
    | node :: rest =>
      match m.nodes.get node with
      | none => (nodes, functions)
      | some entry =>
        let root := m.classRoot node
        let whole := entry.value.isNone && !decided.contains root
        let taken := if whole then m.membersOf root else []
        let template := (m.heldTemplate entry.value).filter fun (function, _) =>
          !functions.contains function
        let listed := (template.map fun (_, template) => template.listedNodes).getD []
        m.closureFrom mode fuel (node :: nodes) ((template.map Prod.fst).toList ++ functions)
          (if whole then root :: decided else decided)
          ((taken ++ m.closureEdges mode node entry ++ listed).reverse ++ rest)

/-- The closure of `roots`: the live nodes and functions a freeze must contain to be
self-contained, in slot order. -/
def closure (m : Module P) (roots : List NodeId) (mode : FreezeMode) :
    List NodeId × List FunctionId :=
  let attributes := match m.defaultAttributes with
    | some (.dynamic handle) => handle.items.filterMap fun item => item.node.dynamic?
    | _ => []
  let entered := m.closureFrom mode (m.nodes.slots.length + 2) [] [] [] (roots ++ attributes).reverse
  (m.nodes.keys.filter (· ∈ entered.1), m.functions.keys.filter (· ∈ entered.2))

/-- Freeze the closure of `roots`: only the reachable nodes file. -/
def freezeClosure (m : Module P) (key : ModuleKey) (roots : List NodeId) (mode : FreezeMode) :
    Option (StaticModule P) :=
  let (nodes, functions) := m.closure roots mode
  m.freezeSet key nodes functions mode

end Module

end LichenVm
