import LichenVm.FrozenClasses
import LichenVm.KeyContent
import LichenVm.Registry

open List Option

namespace LichenVm

open Module Freezing Traverse

variable {P : Program}

/-- Every ref a frozen value holds is static. -/
def Value.InArtifact : Value P → Prop
  | .low (.array array) =>
    (∃ handle, array.handle = .static handle) ∧ ∀ item ∈ array.items, item.node.dynamic? = none
  | .low (.table table) => ∃ handle, table = .static handle
  | .low (.function (.dynamic _)) => False
  | _ => True

/-- What lies in a frozen arena names frozen nodes only. -/
structure Module.ArenasFrozen (m : Module P) : Prop where
  registered : ∀ key home, m.staticModule key = some home → ∀ entry ∈ home.nodes,
    ∀ value, entry.value = some value → value.InArtifact
  payload : ∀ node array handle, m.nodeValue (.dynamic node) = some (.low (.array array)) →
    array.handle = .static handle → ∀ item ∈ handle.items, item.node.dynamic? = none

/-- The artifact a whole freeze files, and a module it is filed in: the registry is the one the
source reads, beside the artifact under a key of its own. -/
structure FiledFreeze (m reader : Module P) (f : Freezing) (artifact : StaticModule P) :
    Prop where
  frozen : m.Frozen f .portable artifact
  portable : artifact.readOnly = false
  filed : reader.staticModule f.key = some artifact
  fresh : m.staticModule f.key = none
  shared : ∀ key, key ≠ f.key → reader.staticModule key = m.staticModule key
  arenas : m.ArenasFrozen

namespace Freezing

variable (f : Freezing)

def rewriteFunctionRef : AnyFunctionId → Option AnyFunctionId
  | .dynamic function => (f.function function).map fun index => .static { module := f.key, index }
  | .static sref => some (.static sref)

theorem mapM_rewriteNodeRef {nodes : List NodeId} {images : List LocalNodeId}
    (ran : nodes.mapM f.node = some images) :
    (nodes.map AnyNodeId.dynamic).mapM f.rewriteNodeRef =
      some (images.map fun index => .static { module := f.key, index }) := by
  induction nodes generalizing images with
  | nil =>
    cases ran
    rfl
  | cons node nodes ih =>
    rw [mapM_cons] at ran
    obtain ⟨image, found, ran⟩ := bind_eq_some_iff.1 ran
    obtain ⟨rest, others, same⟩ := bind_eq_some_iff.1 ran
    cases same
    rw [map_cons, mapM_cons, ih others, rewriteNodeRef, found]
    rfl

theorem rewriteItems_static {items : List ArrayItem}
    (static : ∀ item ∈ items, item.node.dynamic? = none) : items.mapM f.rewriteItem = some items := by
  have same : ∀ item ∈ items, f.rewriteItem item = some item := by
    intro item member
    have away := static item member
    obtain ⟨node, shallow, template⟩ := item
    cases node with
    | dynamic node => cases away
    | static sref => rfl
  rw [mapM_eq_map f.rewriteItem id items same, List.map_id]

/-- What hashing reads of a filed value: its array's items rewritten, its table's stored hashes, its
function's ref rewritten. -/
inductive Reads : Value P → Value P → Prop
  | array (one two : ArrayValue) (items : one.items.mapM f.rewriteItem = some two.items)
      (layout : two.layout = one.layout) : Reads (.low (.array one)) (.low (.array two))
  | table (one two : AnyHandle TableItem)
      (hashes : two.items.map TableItem.hash = one.items.map TableItem.hash) :
      Reads (.low (.table one)) (.low (.table two))
  | function (one two : AnyFunctionId) (ref : f.rewriteFunctionRef one = some two) :
      Reads (.low (.function one)) (.low (.function two))
  | ext (one two : P.Ext) : Reads (.ext one) (.ext two)
  | plain (value : LowValue) (array : ∀ held, value ≠ .array held)
      (table : ∀ held, value ≠ .table held) (function : ∀ held, value ≠ .function held) :
      Reads (.low value) (.low value)

theorem mapM_entries_hash {items images : List TableItem}
    (ran : items.mapM f.rewriteEntry = some images) :
    images.map TableItem.hash = items.map TableItem.hash := by
  apply ext_getElem?
  intro index
  rw [getElem?_map, getElem?_map, getElem?_of_mapM _ _ _ ran]
  cases found : items[index]? with
  | none => rfl
  | some item =>
    obtain ⟨image, made⟩ := isSome_iff_exists.1
      (isSome_of_mapM _ _ (by rw [ran]; rfl) item (mem_of_getElem? found))
    rw [bind_some, made, map_some, map_some]
    obtain ⟨key, -, made⟩ := bind_eq_some_iff.1 made
    obtain ⟨value, -, made⟩ := bind_eq_some_iff.1 made
    rw [← some.inj made]

theorem reads_of_rewrite {value image : Value P} (rewritten : f.rewriteValue value = some image)
    (payload : ∀ array handle, value = .low (.array array) → array.handle = .static handle →
      ∀ item ∈ handle.items, item.node.dynamic? = none) : f.Reads value image := by
  cases value with
  | low value =>
    cases value with
    | array array =>
      obtain ⟨handle, layout⟩ := array
      cases handle with
      | static handle =>
        cases rewritten
        exact .array _ _ (f.rewriteItems_static (payload _ handle rfl rfl)) rfl
      | dynamic handle =>
        obtain ⟨moved, made, rfl⟩ := map_eq_some_iff.1 rewritten
        obtain ⟨offset, -, made⟩ := bind_eq_some_iff.1 made
        obtain ⟨items, images, same⟩ := bind_eq_some_iff.1 made
        cases same
        exact .array _ _ images rfl
    | table table =>
      cases table with
      | static handle =>
        cases rewritten
        exact .table _ _ rfl
      | dynamic handle =>
        obtain ⟨moved, made, rfl⟩ := map_eq_some_iff.1 rewritten
        obtain ⟨offset, -, made⟩ := bind_eq_some_iff.1 made
        obtain ⟨items, images, same⟩ := bind_eq_some_iff.1 made
        cases same
        exact .table _ _ (f.mapM_entries_hash images)
    | function function =>
      cases function with
      | static sref =>
        cases rewritten
        exact .function _ _ rfl
      | dynamic function =>
        obtain ⟨index, made, rfl⟩ := map_eq_some_iff.1 rewritten
        exact .function _ _ (by rw [rewriteFunctionRef, made]; rfl)
    | _ =>
      cases rewritten
      exact .plain _ (by simp) (by simp) (by simp)
  | ext value =>
    simp only [rewriteValue] at rewritten
    split at rewritten
    · obtain ⟨offset, -, rfl⟩ := map_eq_some_iff.1 rewritten
      exact .ext _ _
    · cases rewritten
      exact .ext _ _

theorem reads_of_inArtifact {value : Value P} (inside : value.InArtifact) : f.Reads value value := by
  cases value with
  | low value =>
    cases value with
    | array array => exact .array _ _ (f.rewriteItems_static inside.2) rfl
    | table table => exact .table _ _ rfl
    | function function =>
      cases function with
      | dynamic function => exact absurd inside id
      | static sref => exact .function _ _ rfl
    | _ => exact .plain _ (by simp) (by simp) (by simp)
  | ext value => exact .ext _ _

end Freezing

theorem Freezing.function_eq {f : Freezing} {function : FunctionId} {index : StaticFunctionId}
    (found : f.function function = some index) : index = ⟨f.functionIds.idxOf function⟩ := by
  have filed := (f.function_isSome_iff function).1 (by rw [found]; rfl)
  rw [Freezing.function, idxOf?_of_mem filed] at found
  exact (some.inj found).symm

theorem Module.nodeValue_of_readValue {m : Module P} {id : AnyNodeId} {value : Option (Value P)}
    (reads : m.readValue id = some value) : m.nodeValue id = value := by
  cases id with
  | dynamic node => exact some.inj reads
  | static sref =>
    obtain ⟨entry, found, rfl⟩ := map_eq_some_iff.1 reads
    obtain ⟨home, registered, found⟩ := bind_eq_some_iff.1 found
    rw [nodeValue, staticRead, registered, bind_some, StaticModule.read, found, bind_some]

namespace FiledFreeze

open Freezing Module

variable {m reader : Module P} {f : Freezing} {artifact : StaticModule P}
  (files : FiledFreeze m reader f artifact)

include files

theorem staticModule {key : ModuleKey} {home : StaticModule P}
    (found : m.staticModule key = some home) : reader.staticModule key = some home := by
  rw [files.shared key, found]
  rintro rfl
  rw [files.fresh] at found
  cases found

theorem node {node : NodeId} {index : LocalNodeId} (filed : f.node node = some index) :
    ∃ entry image, m.nodes.get node = some entry ∧ artifact.nodes[index.index]? = some image ∧
      m.freezeNode f .portable node = some image ∧
      entry.value.mapM f.rewriteValue = some image.value ∧
      freezeOperation f .portable entry = some image.operation := by
  obtain ⟨image, found, froze⟩ := files.frozen.node_image (mem_of_node filed)
  rw [← node_eq filed] at found
  have made := froze
  obtain ⟨entry, held, made⟩ := bind_eq_some_iff.1 made
  obtain ⟨operation, computes, made⟩ := bind_eq_some_iff.1 made
  obtain ⟨equality, -, made⟩ := bind_eq_some_iff.1 made
  obtain ⟨value, holds, made⟩ := bind_eq_some_iff.1 made
  cases made
  exact ⟨entry, _, held, found, froze, holds, computes⟩

theorem staticNode {index : LocalNodeId} {image : StaticNode P}
    (found : artifact.nodes[index.index]? = some image) :
    reader.staticNode ⟨f.key, index⟩ = some image := by
  rw [Module.staticNode, files.filed, bind_some, found]

variable {id image : AnyNodeId}

section

variable (rewritten : f.rewriteNodeRef id = some image)

include rewritten

/-- A frozen node keeps its operation's edge. -/
theorem operationOperand {edge : Option (Option AnyNodeId)}
    (reads : m.operationOperand id = some edge) :
    ∃ edge', reader.operationOperand image = some edge' ∧
      edge.mapM (fun operand => operand.mapM f.rewriteNodeRef) = some edge' := by
  cases id with
  | dynamic node =>
    obtain ⟨index, filed, rfl⟩ := map_eq_some_iff.1 rewritten
    obtain ⟨entry, image, held, found, -, -, computes⟩ := files.node filed
    cases reads
    refine ⟨_, by rw [operationOperand, files.filed, map_some, found,
      bind_some], ?_⟩
    simp only [freezeOperation, reduceCtorEq, false_and, if_false] at computes
    rw [nodeOperation, held, bind_some]
    cases operation : entry.operation with
    | none =>
      rw [operation] at computes
      have none := some.inj computes
      rw [← none]
      rfl
    | some made =>
      obtain ⟨operator, source⟩ := made
      rw [operation, mapM_some] at computes
      obtain ⟨made, computes, same⟩ := map_eq_some_iff.1 computes
      obtain ⟨operand, operands, rfl⟩ := map_eq_some_iff.1 computes
      rw [← same]
      cases source with
      | none =>
        cases operands
        rfl
      | some source =>
        obtain ⟨index, filed, rfl⟩ := map_eq_some_iff.1 operands
        simp [rewriteNodeRef, filed]
  | static sref =>
    cases rewritten
    obtain ⟨home, found, rfl⟩ := map_eq_some_iff.1 reads
    refine ⟨_, by rw [operationOperand, files.staticModule found, map_some], ?_⟩
    cases (home.nodes[sref.index.index]?).bind StaticNode.operation with
    | none => rfl
    | some operation =>
      cases held : operation.operand with
      | none =>
        simp only [map_some, held, map_none]
        rfl
      | some index =>
        simp only [map_some, held]
        rfl

theorem readOnlyStatic {readOnly : Bool} (reads : m.readOnlyStatic id = some readOnly) :
    reader.readOnlyStatic image = some readOnly := by
  cases id with
  | dynamic node =>
    obtain ⟨index, -, rfl⟩ := map_eq_some_iff.1 rewritten
    cases reads
    rw [readOnlyStatic, files.filed, map_some, files.portable]
  | static sref =>
    cases rewritten
    obtain ⟨home, found, rfl⟩ := map_eq_some_iff.1 reads
    rw [readOnlyStatic, files.staticModule found, map_some]

/-- What hashing reads of a node's value is what it reads of the image's. -/
theorem readValue {value : Option (Value P)} (reads : m.readValue id = some value) :
    ∃ value', reader.readValue image = some value' ∧ Option.Rel f.Reads value value' := by
  cases id with
  | dynamic node =>
    obtain ⟨index, filed, rfl⟩ := map_eq_some_iff.1 rewritten
    obtain ⟨entry, image, held, found, -, holds, -⟩ := files.node filed
    cases reads
    refine ⟨image.value, by rw [readValue, files.staticNode found, map_some], ?_⟩
    rw [nodeValue, held, bind_some]
    cases value : entry.value with
    | none =>
      rw [value] at holds
      rw [← some.inj holds]
      exact .none
    | some value =>
      rw [value] at holds
      obtain ⟨made, rewritten, same⟩ := map_eq_some_iff.1 holds
      rw [← same]
      refine .some (f.reads_of_rewrite rewritten fun array handle same' =>
        files.arenas.payload node array handle ?_)
      rw [nodeValue, held, bind_some, value, same']
  | static sref =>
    cases rewritten
    obtain ⟨entry, found, rfl⟩ := map_eq_some_iff.1 reads
    obtain ⟨home, registered, found⟩ := bind_eq_some_iff.1 found
    refine ⟨entry.value, ?_, ?_⟩
    · rw [readValue, Module.staticNode, files.staticModule registered, bind_some,
        found, map_some]
    · cases holds : entry.value with
      | none => exact .none
      | some value =>
        exact .some (f.reads_of_inArtifact (files.arenas.registered sref.module home registered
          entry (mem_of_getElem? found) value holds))

/-- An element slot's value node is filed where the slot's image finds it. -/
theorem slotContent {node : AnyNodeId} (reads : m.slotContent id = some node) :
    ∃ node', reader.slotContent image = some node' ∧ f.rewriteNodeRef node = some node' := by
  obtain ⟨value, held, rfl⟩ := map_eq_some_iff.1 reads
  obtain ⟨value', held', same⟩ := files.readValue rewritten held
  refine ⟨_, by rw [Module.slotContent, held', map_some], ?_⟩
  simp only [elementValueNode, nodeValue_of_readValue held, nodeValue_of_readValue held']
  cases same with
  | none => exact rewritten
  | some same =>
    cases same with
    | array one two items layout =>
      simp only [layout]
      split
      · cases held : one.items with
        | nil =>
          rw [held] at items
          rw [← some.inj items]
          exact rewritten
        | cons item rest =>
          rw [held, mapM_cons] at items
          obtain ⟨first, made, items⟩ := bind_eq_some_iff.1 items
          obtain ⟨others, -, items⟩ := bind_eq_some_iff.1 items
          rw [← some.inj items]
          obtain ⟨node, kept, rfl⟩ := map_eq_some_iff.1 made
          exact kept
      · exact rewritten
    | table one two hashes => exact rewritten
    | function one two ref => exact rewritten
    | ext one two => exact rewritten
    | plain value array table function =>
      cases value with
      | array other => exact absurd rfl (array other)
      | _ => exact rewritten

end

theorem entryPoints {function image : AnyFunctionId}
    (rewritten : f.rewriteFunctionRef function = some image)
    {points : Option (AnyNodeId × List AnyNodeId)} (reads : m.entryPoints function = some points) :
    ∃ points', reader.entryPoints image = some points' ∧ Option.Rel (fun one two =>
      f.rewriteNodeRef one.1 = some two.1 ∧ one.2.mapM f.rewriteNodeRef = some two.2)
        points points' := by
  cases function with
  | dynamic function =>
    obtain ⟨index, filed, rfl⟩ := map_eq_some_iff.1 rewritten
    obtain ⟨entry, made, found, froze, same⟩ :=
      files.frozen.function_image ((f.function_isSome_iff function).1 (by rw [filed]; rfl))
    rw [function_eq filed] at *
    cases reads
    refine ⟨_, by rw [Module.entryPoints, files.filed, map_some, found], ?_⟩
    obtain ⟨template, held, froze⟩ := bind_eq_some_iff.1 froze
    obtain ⟨parameter, -, froze⟩ := bind_eq_some_iff.1 froze
    obtain ⟨result, returns, froze⟩ := bind_eq_some_iff.1 froze
    obtain ⟨asserts, checks, froze⟩ := bind_eq_some_iff.1 froze
    obtain ⟨nodes, -, froze⟩ := bind_eq_some_iff.1 froze
    rw [held, same, ← some.inj froze]
    refine .some ⟨?_, ?_⟩
    · rw [rewriteNodeRef, returns]
      rfl
    · exact f.mapM_rewriteNodeRef checks
  | static sref =>
    cases rewritten
    obtain ⟨home, found, rfl⟩ := map_eq_some_iff.1 reads
    refine ⟨_, by rw [Module.entryPoints, files.staticModule found, map_some], ?_⟩
    cases home.functions[sref.index.index]? with
    | none => exact .none
    | some template =>
      refine .some ⟨rfl, ?_⟩
      rw [mapM_eq_map f.rewriteNodeRef id, List.map_id]
      intro id member
      obtain ⟨index, -, rfl⟩ := List.mem_map.1 member
      rfl

section Walks

variable {walk walk' : UnfoldMode → AnyNodeId → Option KeyState}
  {functionHash functionHash' : AnyFunctionId → Option (Option UInt64)}
  (walks : ∀ mode id image state, f.rewriteNodeRef id = some image → walk mode id = some state →
    walk' mode image = some state)
  (functions : ∀ function image hash, f.rewriteFunctionRef function = some image →
    functionHash function = some hash → functionHash' image = some hash)

omit files

variable {hash : UInt64}

include walks in
theorem hashTemplate {id image : AnyNodeId} (rewritten : f.rewriteNodeRef id = some image) (ran :
    Module.hashTemplate walk id = some hash) :
    Module.hashTemplate walk' image = some hash := by
  obtain ⟨state, first, rest⟩ := bind_eq_some_iff.1 ran
  exact bind_eq_some_iff.2 ⟨state, walks _ _ _ _ rewritten first, rest⟩

include walks in
theorem foldlM_asserts {asserts images : List AnyNodeId}
    (rewritten : asserts.mapM f.rewriteNodeRef = some images) {start : UInt64}
    (ran : asserts.foldlM (fun hash assert => do
      let next ← Module.hashTemplate walk assert
      pure (mix (hash ^^^ next))) start = some hash) :
    images.foldlM (fun hash assert => do
      let next ← Module.hashTemplate walk' assert
      pure (mix (hash ^^^ next))) start = some hash := by
  induction asserts generalizing images start with
  | nil =>
    cases rewritten
    exact ran
  | cons assert asserts ih =>
    rw [mapM_cons] at rewritten
    obtain ⟨image, made, rewritten⟩ := bind_eq_some_iff.1 rewritten
    obtain ⟨others, rest, same⟩ := bind_eq_some_iff.1 rewritten
    cases same
    obtain ⟨state, first, ran⟩ := bind_eq_some_iff.1 ran
    obtain ⟨next, hashed, first⟩ := bind_eq_some_iff.1 first
    cases first
    refine bind_eq_some_iff.2 ⟨_, ?_, ih rest ran⟩
    exact bind_eq_some_iff.2 ⟨next, hashTemplate walks made hashed, rfl⟩

include files walks in
theorem hashResolved {function image : AnyFunctionId}
    (rewritten : f.rewriteFunctionRef function = some image) {hash : Option UInt64}
    (ran : m.hashResolved walk function = some hash) :
    reader.hashResolved walk' image = some hash := by
  obtain ⟨points, reads, ran⟩ := bind_eq_some_iff.1 ran
  obtain ⟨points', reads', same⟩ := files.entryPoints rewritten reads
  refine bind_eq_some_iff.2 ⟨points', reads', ?_⟩
  cases same with
  | none => exact ran
  | some same =>
    obtain ⟨hashed, points, ran⟩ := bind_eq_some_iff.1 ran
    refine bind_eq_some_iff.2 ⟨hashed, ?_, ran⟩
    obtain ⟨first, result, asserts⟩ := bind_eq_some_iff.1 points
    exact bind_eq_some_iff.2 ⟨first, hashTemplate walks same.1 result,
      foldlM_asserts walks same.2 asserts⟩

variable {mode : UnfoldMode} {state : KeyState}

include files walks in
theorem hashItems {items images : List ArrayItem}
    (rewritten : items.mapM f.rewriteItem = some images)
    (ran : m.hashItems walk mode items hash = some state) :
    reader.hashItems walk' mode images hash = some state := by
  induction items generalizing images hash with
  | nil =>
    cases rewritten
    exact ran
  | cons item items ih =>
    rw [mapM_cons] at rewritten
    obtain ⟨image, made, rewritten⟩ := bind_eq_some_iff.1 rewritten
    obtain ⟨others, rest, same⟩ := bind_eq_some_iff.1 rewritten
    cases same
    obtain ⟨node, held, rfl⟩ := map_eq_some_iff.1 made
    unfold hashItems at ran ⊢
    split at ran
    · rename_i template
      rw [if_pos template]
      exact ih rest ran
    · rename_i template
      rw [if_neg template]
      obtain ⟨content, slot, ran⟩ := bind_eq_some_iff.1 ran
      obtain ⟨content', slot', same⟩ := files.slotContent held slot
      obtain ⟨verdict, walked, ran⟩ := bind_eq_some_iff.1 ran
      refine bind_eq_some_iff.2 ⟨content', slot',
        bind_eq_some_iff.2 ⟨verdict, walks _ _ _ _ same walked, ?_⟩⟩
      cases verdict with
      | hashed itemHash => exact ih rest ran
      | undecided => exact ran
      | unhashable => exact ran

include files walks functions in
theorem hashValue {value image : Value P} (reads : f.Reads value image) (ran :
    m.hashValue walk functionHash mode value = some state) :
    reader.hashValue walk' functionHash' mode image = some state := by
  cases reads with
  | array one two items layout => exact files.hashItems walks items ran
  | table one two hashes =>
    have same : hashTable two.items = hashTable one.items := by
      have fold : ∀ items : List TableItem, hashTable items =
          (items.map TableItem.hash).foldl (fun hash next => mix (hash ^^^ next)) TABLE_SEED :=
        fun items => by rw [hashTable, foldl_map]
      rw [fold, fold, hashes]
    rw [Module.hashValue, same]
    exact ran
  | function one two ref =>
    obtain ⟨hash, hashed, ran⟩ := bind_eq_some_iff.1 ran
    exact bind_eq_some_iff.2 ⟨hash, functions _ _ _ ref hashed, ran⟩
  | ext one two => exact ran
  | plain value array table function =>
    cases value with
    | array held => exact absurd rfl (array held)
    | table held => exact absurd rfl (table held)
    | function held => exact absurd rfl (function held)
    | _ => exact ran

include files walks functions in
/-- One level of the unfolding reads the image as it reads the node. -/
theorem hashStep {id image : AnyNodeId} (rewritten : f.rewriteNodeRef id = some image)
    (ran : m.hashStep walk functionHash mode id = some state) :
    reader.hashStep walk' functionHash' mode image = some state := by
  obtain ⟨edge, unfolds, ran⟩ := bind_eq_some_iff.1 ran
  obtain ⟨edge', unfolds', same⟩ : ∃ edge', reader.unfoldedEdge mode image = some edge' ∧
      edge.mapM (fun operand => operand.mapM f.rewriteNodeRef) = some edge' := by
    cases mode with
    | key =>
      cases unfolds
      exact ⟨none, rfl, rfl⟩
    | template => exact files.operationOperand rewritten unfolds
  refine bind_eq_some_iff.2 ⟨edge', unfolds', ?_⟩
  cases edge with
  | some operand =>
    obtain ⟨operand', made, rfl⟩ := map_eq_some_iff.1 same
    obtain ⟨nested, hashed, ran⟩ := bind_eq_some_iff.1 ran
    refine bind_eq_some_iff.2 ⟨nested, ?_, ran⟩
    cases operand with
    | none =>
      cases made
      exact hashed
    | some operand =>
      obtain ⟨operand', kept, rfl⟩ := map_eq_some_iff.1 made
      exact hashTemplate walks kept hashed
  | none =>
    cases same
    obtain ⟨refuses, reads, ran⟩ := bind_eq_some_iff.1 ran
    refine bind_eq_some_iff.2 ⟨refuses, ?_, ?_⟩
    · cases mode with
      | key => exact reads
      | template => exact files.readOnlyStatic rewritten reads
    cases refuses with
    | true => exact ran
    | false =>
      obtain ⟨value, held, ran⟩ := bind_eq_some_iff.1 ran
      obtain ⟨value', held', same⟩ := files.readValue rewritten held
      refine bind_eq_some_iff.2 ⟨value', held', ?_⟩
      cases same with
      | none => exact ran
      | some reads => exact files.hashValue walks functions reads ran

end Walks

theorem content (depth : Nat) : ∀ (mode : UnfoldMode) (id image : AnyNodeId) (state : KeyState),
    f.rewriteNodeRef id = some image → m.content depth mode id = some state →
    reader.content depth mode image = some state := by
  induction depth with
  | zero => exact fun _ _ _ _ _ ran => ran
  | succ depth ih =>
    intro mode id image state rewritten ran
    refine files.hashStep ih (fun function image hash rewritten hashed => ?_) rewritten ran
    split at hashed
    · rename_i cut
      rw [if_pos cut]
      exact hashed
    · rename_i more
      rw [if_neg more]
      exact files.hashResolved ih rewritten hashed

theorem contentHash (rewritten : f.rewriteNodeRef id = some image)
    {state : KeyState} (ran : m.contentHash id = some state) :
    reader.contentHash image = some state := by
  rw [contentHash_eq] at ran ⊢
  exact files.content UNFOLD_DEPTH .key id image state rewritten ran

end FiledFreeze

namespace Module

/-- A node whose deep verdict the deep pass takes as it stands: decided, on a value, and neither a
scope root's nor an answer still owed, or on the wildcard. -/
def DeepDecided (m : Module P) (node : NodeId) : Prop :=
  ∃ entry, m.nodes.get node = some entry ∧ entry.evaluatedDeep = some { undecided := false } ∧
    entry.value.isSome ∧ (entry.value = some (.low .any) ∨
      m.hasNoResultYet node = false ∧ m.isScopeRootRead node none = false)

theorem contentHash_any {m : Module P} {node : NodeId}
    (held : m.nodeValue (.dynamic node) = some (.low .any)) :
    m.contentHash (.dynamic node) = some .undecided := by
  have reads : m.readValue (.dynamic node) = some (some (.low .any)) := congrArg some held
  rw [contentHash_eq]
  show m.hashStep _ _ .key (.dynamic node) = some .undecided
  unfold hashStep
  rw [reads]
  rfl

theorem nodeValue_modifyNode (m : Module P) (node : NodeId) (change : Node P → Node P)
    (keeps : ∀ entry, (change entry).value = entry.value) :
    (m.modifyNode node change).nodeValue (.dynamic node) = m.nodeValue (.dynamic node) := by
  rw [nodeValue, nodeValue, modifyNode, SlotMap.get_modify, if_pos rfl]
  cases m.nodes.get node with
  | none => rfl
  | some entry => exact keeps entry

/-- A decided node's key state is the hash of its own content: the deep pass takes the verdict as
it stands, and a wildcard keys as undecided whichever way the pass leaves it. -/
theorem keyState_decided {m : Module P} {node : NodeId} (decided : m.DeepDecided node)
    {dispatch : Dispatch P} {state : KeyState} {after : Module P}
    (ran : m.keyState dispatch (.dynamic node) = some (state, after)) :
    m.contentHash (.dynamic node) = some state := by
  obtain ⟨entry, found, verdict, valued, stands⟩ := decided
  obtain ⟨⟨answer, left⟩, walked, ran⟩ := bind_eq_some_iff.1 ran
  obtain ⟨entry', found', ran⟩ := bind_eq_some_iff.1 ran
  simp only [evaluateNodeDeep, evaluateNodeDeepInner] at walked
  rw [found, bind_eq_bind, bind_some] at walked
  by_cases taken : (!m.isScopeRootRead node none && !m.hasNoResultYet node &&
      entry.evaluatedDeep = some { undecided := false } && entry.value.isSome)
  · rw [if_pos taken] at walked
    cases walked
    cases found.symm.trans found'
    rw [verdict, if_neg (by simp)] at ran
    obtain ⟨hash, hashed, same⟩ := map_eq_some_iff.1 ran
    rw [hashed, (Prod.mk.inj same).1]
  · have wildcard : entry.value = some (.low .any) := by
      rcases stands with wildcard | ⟨settled, reads⟩
      · exact wildcard
      · exact absurd (by simp [settled, reads, verdict, valued]) taken
    have held : m.nodeValue (.dynamic node) = some (.low .any) := by
      rw [nodeValue, found, bind_some, wildcard]
    have kept : left.nodeValue (.dynamic node) = some (.low .any) := by
      rw [if_neg taken] at walked
      split at walked
      · cases walked
        exact Eq.trans (nodeValue_modifyNode m node _ (by intro entry; rfl)) held
      split at walked
      · cases walked
        unfold recordDepthExhausted
        split <;> exact held
      cases walked
      exact Eq.trans (nodeValue_modifyNode m node _ (by intro entry; rfl)) held
    rw [contentHash_any held]
    split at ran
    · exact congrArg some (Prod.mk.inj (some.inj ran)).1
    · rw [contentHash_any kept] at ran
      exact congrArg some (Prod.mk.inj (some.inj ran)).1

end Module

/-- What a freeze of the whole module leaves of its keys: a decided node's key state is its
image's, and a table's entries name the images of their keys under the hashes they were stored
with. -/
structure Module.KeysSurvive (m reader : Module P) (key : ModuleKey) : Prop where
  state : ∀ node, m.DeepDecided node → ∀ (dispatch dispatch' : Dispatch P) state after,
    m.keyState dispatch (.dynamic node) = some (state, after) →
    reader.keyState dispatch' (.static ⟨key, (m.wholeFreezing key).image node⟩) = some (state, reader)
  entry : ∀ node handle, m.nodeValue (.dynamic node) = some (.low (.table (.dynamic handle))) →
    ∃ moved : StaticHandle TableItem, reader.nodeValue
        (.static ⟨key, (m.wholeFreezing key).image node⟩) = some (.low (.table (.static moved))) ∧
      ∀ (index : Nat) (entry : TableItem) named, handle.items[index]? = some entry → entry.key = .dynamic named →
        ∃ image : TableItem, moved.items[index]? = some image ∧ image.hash = entry.hash ∧
          image.key = .static ⟨key, (m.wholeFreezing key).image named⟩

/-- A scalar and a one-item array of it, both settled by the deep pass. -/
def pairKey : Module Program.plain :=
  { (Reaches.runAll (fun m op => op.keepsTree m) [.addBlock none,
      .addNode ⟨1⟩ none (some (.low (.usize 7))),
      .addNode ⟨1⟩ none (some (.low (.array ⟨.dynamic ⟨⟨1⟩, 0, [⟨.dynamic ⟨1⟩, false, false⟩]⟩, 0⟩)))]
      {}).getD {} with registry := {} }.settleDeep ⟨1⟩ false |>.settleDeep ⟨2⟩ false

end LichenVm
