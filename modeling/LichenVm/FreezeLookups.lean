import LichenVm.FreezeFrames

open List Option

namespace LichenVm

open DisjointSet Traverse Freezing Value

variable {P : Program}

/-- The dynamic nodes a value's own array or table names. -/
def Value.nodeRefs : Value P → List NodeId
  | .low (.array array) =>
    match array.handle with
    | .dynamic handle => handle.items.filterMap fun item => item.node.dynamic?
    | .static _ => []
  | .low (.table (.dynamic handle)) =>
    handle.items.flatMap fun item => item.key.dynamic?.toList ++ item.value.dynamic?.toList
  | _ => []

namespace Freezing

variable (f : Freezing)

theorem node_isSome_iff (node : NodeId) : (f.node node).isSome ↔ node ∈ f.nodeIds := by
  simp [Freezing.node, isSome_idxOf?]

theorem remapMeta_isSome_iff (links : Meta NodeId) :
    (f.remapMeta links).isSome ↔ (∀ up, links.parent = some up → up ∈ f.nodeIds) ∧
      (∀ behind, links.next = some behind → behind ∈ f.nodeIds) ∧
      ∀ last, links.tail = some last → last ∈ f.nodeIds := by
  have each : (f.remapMeta links).isSome ↔ (links.parent.mapM f.node).isSome ∧
      (links.next.mapM f.node).isSome ∧ (links.tail.mapM f.node).isSome := by
    unfold remapMeta
    cases parent : links.parent.mapM f.node <;> cases next : links.next.mapM f.node <;>
      cases tail : links.tail.mapM f.node <;> simp
  simp only [each, optionMapM_isSome_iff, node_isSome_iff]

theorem function_isSome_iff (function : FunctionId) :
    (f.function function).isSome ↔ function ∈ f.functionIds := by
  simp [Freezing.function, isSome_idxOf?]

theorem rewriteNodeRef_isSome_iff (ref : AnyNodeId) :
    (f.rewriteNodeRef ref).isSome ↔ ∀ node, ref.dynamic? = some node → node ∈ f.nodeIds := by
  cases ref with
  | dynamic node => simp [rewriteNodeRef, node_isSome_iff, AnyNodeId.dynamic?]
  | static sref => simp [rewriteNodeRef, AnyNodeId.dynamic?]

theorem rewriteHandle_isSome_iff {α : Type} (rewrite : α → Option α) (handle : Handle α)
    (laid : (handle.block, handle.address) ∈ f.payloads) :
    (f.rewriteHandle rewrite handle).isSome ↔ ∀ item ∈ handle.items, (rewrite item).isSome := by
  obtain ⟨position, found⟩ := isSome_iff_exists.1
    (isSome_idxOf?.2 laid : (f.payloads.idxOf? (handle.block, handle.address)).isSome)
  rw [← mapM_isSome_iff]
  cases ran : handle.items.mapM rewrite <;> simp [rewriteHandle, offset, found, ran]

theorem rewriteItem_isSome_iff (item : ArrayItem) :
    (f.rewriteItem item).isSome ↔ ∀ node, item.node.dynamic? = some node → node ∈ f.nodeIds := by
  rw [← rewriteNodeRef_isSome_iff, rewriteItem, isSome_map]

theorem rewriteEntry_isSome_iff (item : TableItem) : (f.rewriteEntry item).isSome ↔
      ∀ node ∈ item.key.dynamic?.toList ++ item.value.dynamic?.toList, node ∈ f.nodeIds := by
  have ends : (f.rewriteEntry item).isSome ↔
      (f.rewriteNodeRef item.key).isSome ∧ (f.rewriteNodeRef item.value).isSome := by
    cases key : f.rewriteNodeRef item.key <;> cases value : f.rewriteNodeRef item.value <;>
      simp [rewriteEntry, key, value]
  rw [ends, rewriteNodeRef_isSome_iff, rewriteNodeRef_isSome_iff]
  simp only [mem_append, mem_toList, or_imp, forall_and]

/-- A value whose payload is laid out is rewritten when its refs are filed, and only then. -/
theorem rewriteValue_isSome_iff (value : Value P)
    (laid : ∀ payload, value.payload = some payload → payload ∈ f.payloads) :
    (f.rewriteValue value).isSome ↔ (∀ node ∈ value.nodeRefs, node ∈ f.nodeIds) ∧
      ∀ function, value = .low (.function (.dynamic function)) → function ∈ f.functionIds := by
  cases value with
  | low value =>
    cases value with
    | array array =>
      obtain ⟨handle, layout⟩ := array
      cases handle with
      | static handle => simp [rewriteValue, nodeRefs]
      | dynamic handle =>
        simp only [rewriteValue, isSome_map, nodeRefs,
          f.rewriteHandle_isSome_iff _ handle (laid _ rfl), rewriteItem_isSome_iff,
          mem_filterMap]
        constructor
        · exact fun each => ⟨fun node ⟨item, member, names⟩ => each item member node names, nofun⟩
        · exact fun ⟨each, _⟩ item member node names => each node ⟨item, member, names⟩
    | table table =>
      cases table with
      | static handle => simp [rewriteValue, nodeRefs]
      | dynamic handle =>
        simp only [rewriteValue, isSome_map, nodeRefs,
          f.rewriteHandle_isSome_iff _ handle (laid _ rfl), rewriteEntry_isSome_iff,
          mem_flatMap]
        constructor
        · exact fun each => ⟨fun node ⟨item, member, names⟩ => each item member node names, nofun⟩
        · exact fun ⟨each, _⟩ item member node names => each node ⟨item, member, names⟩
    | function function =>
      cases function with
      | static sref => simp [rewriteValue, nodeRefs]
      | dynamic function =>
        simp [rewriteValue, nodeRefs, function_isSome_iff]
    | _ => simp [rewriteValue, nodeRefs]
  | ext value =>
    simp only [rewriteValue, nodeRefs, not_mem_nil, false_implies, implies_true,
      reduceCtorEq, and_self, iff_true]
    split
    · next handle carries =>
      simp only [isSome_map, offset]
      exact isSome_idxOf?.2 (laid _ (by simp [payload, carries]))
    · rfl

end Freezing

namespace Module

def setFreezing (m : Module P) (key : ModuleKey) (nodeIds : List NodeId)
    (functionIds : List FunctionId) : Freezing where
  key := key
  nodeIds := nodeIds
  functionIds := functionIds
  payloads := m.frozenPayloads nodeIds

/-- Every reference the freeze of a set looks up stays in the set. -/
structure SelfContained (m : Module P) (f : Freezing) (mode : FreezeMode) : Prop where
  node : ∀ node ∈ f.nodeIds, m.nodes.containsKey node = true
  function : ∀ function ∈ f.functionIds, m.functions.containsKey function = true
  operand : ∀ node ∈ f.nodeIds, ∀ entry operation operand, m.nodes.get node = some entry →
    (mode = .portable ∨ entry.value = none) → entry.operation = some operation →
    operation.operand = some operand → operand ∈ f.nodeIds
  links : ∀ node ∈ f.nodeIds, ∀ entry, m.nodes.get node = some entry →
    (f.remapMeta (m.frozenLinks f.nodeIds node entry.equality)).isSome
  named : ∀ node ∈ f.nodeIds, ∀ entry value, m.nodes.get node = some entry →
    entry.value = some value → ∀ other ∈ value.nodeRefs, other ∈ f.nodeIds
  held : ∀ node ∈ f.nodeIds, ∀ entry function, m.nodes.get node = some entry →
    entry.value = some (.low (.function (.dynamic function))) → function ∈ f.functionIds
  template : ∀ function ∈ f.functionIds, ∀ template, m.functions.get function = some template →
    ∀ node ∈ template.listedNodes, node ∈ f.nodeIds
  attributes : ∀ handle, m.defaultAttributes = some (.dynamic handle) →
    ∀ item ∈ handle.items, ∀ node, item.node.dynamic? = some node → node ∈ f.nodeIds

variable {m : Module P} {entry : Node P}

theorem mem_frozenPayloads {nodeIds : List NodeId} {node : NodeId} {value : Value P}
    (filed : node ∈ nodeIds) (found : m.nodes.get node = some entry)
    (held : entry.value = some value) {payload : BlockId × Nat}
    (carries : value.payload = some payload) : payload ∈ m.frozenPayloads nodeIds := by
  simp only [frozenPayloads, mem_eraseDups, mem_append, mem_filterMap]
  exact Or.inl ⟨node, filed, by simp [found, held, carries]⟩

section

variable (f : Freezing) (mode : FreezeMode)

theorem freezeOperation_isSome_iff (entry : Node P) :
    (freezeOperation f mode entry).isSome ↔
      ((mode = .portable ∨ entry.value = none) → ∀ operation operand,
        entry.operation = some operation → operation.operand = some operand → operand ∈ f.nodeIds) := by
  unfold freezeOperation
  split
  · next skips =>
    obtain ⟨rfl, held⟩ := skips
    refine iff_of_true rfl fun stores => ?_
    rcases stores with stores | stores
    · cases stores
    · simp [stores] at held
  · next stores =>
    have stores : mode = .portable ∨ entry.value = none := by
      cases mode with
      | portable => exact .inl rfl
      | readOnly => exact .inr (by simpa using stores)
    simp only [isSome_map, optionMapM_isSome_iff, node_isSome_iff, stores, true_implies]
    exact ⟨fun each operation operand computes => each operation computes operand,
      fun each operation computes operand => each operation operand computes⟩

theorem freezeNode_isSome_iff {node : NodeId} (found : m.nodes.get node = some entry) :
    (m.freezeNode f mode node).isSome ↔ (freezeOperation f mode entry).isSome ∧
      (f.remapMeta (m.frozenLinks f.nodeIds node entry.equality)).isSome ∧
      ∀ value, entry.value = some value → (f.rewriteValue value).isSome := by
  rw [← optionMapM_isSome_iff]
  unfold freezeNode
  cases operation : freezeOperation f mode entry <;>
    cases links : f.remapMeta (m.frozenLinks f.nodeIds node entry.equality) <;>
      cases value : entry.value.mapM f.rewriteValue <;>
        simp [found, operation, links, value]

end

theorem freezeFunction_isSome_iff (f : Freezing) {function : FunctionId} {template : Function}
    (found : m.functions.get function = some template) :
    (m.freezeFunction f function).isSome ↔ ∀ node ∈ template.listedNodes, node ∈ f.nodeIds := by
  have each : (m.freezeFunction f function).isSome ↔ (f.node template.parameter).isSome ∧
      (f.node template.return).isSome ∧ (template.asserts.mapM f.node).isSome ∧
      (template.nodes.mapM f.node).isSome := by
    unfold freezeFunction
    cases parameter : f.node template.parameter <;> cases result : f.node template.return <;>
      cases asserts : template.asserts.mapM f.node <;> cases nodes : template.nodes.mapM f.node <;>
        simp [found, parameter, result, asserts, nodes]
  rw [each]
  simp only [mapM_isSome_iff, node_isSome_iff, Function.listedNodes, mem_cons,
    mem_append, or_imp, forall_and, forall_eq]

/-- The links a freeze of a set looks up stay in the set, unless the node's own class is held
whole and its tail link leaves the set. -/
theorem links_isSome_iff (formed : WellFormed m.nodes) (f : Freezing) (distinct : f.nodeIds.Nodup)
    (live : ∀ node ∈ f.nodeIds, m.nodes.containsKey node) {node : NodeId}
    (filed : node ∈ f.nodeIds) (found : m.nodes.get node = some entry) :
    (f.remapMeta (m.frozenLinks f.nodeIds node entry.equality)).isSome ↔
      ((∀ member ∈ m.membersOf (m.classRoot node), member ∈ f.nodeIds) →
        ∀ last, tailOf m.nodes node = some last → last ∈ f.nodeIds) := by
  obtain ⟨root, rest, cls, member⟩ := formed node (by simp [links, found])
  have held : links m.nodes node = some entry.equality := by simp [links, found]
  rw [classRoot_eq cls member, membersOf_eq cls, remapMeta_isSome_iff]
  by_cases count : (m.frozenMembers f.nodeIds root).length = sizeOf m.nodes root
  · have inside := filed_of_count formed distinct live cls count
    rw [frozenLinks_of_whole formed distinct live cls inside member]
    constructor
    · rintro ⟨-, -, tail⟩ - last names
      exact tail last (by simpa [tailOf, held] using names)
    · intro tail
      refine ⟨fun up parent => inside up (cls.inside node member up ?_),
        fun behind next => inside behind (cls.linked.next_mem member ?_),
        fun last names => tail inside last ?_⟩
      · rw [parentOf, held]; exact parent
      · rw [nextOf, held]; exact next
      · rw [tailOf, held]; exact names
  · -- a spliced class links its filed members alone
    have among : ∀ other ∈ m.frozenMembers f.nodeIds root, other ∈ f.nodeIds :=
      fun other mem => (mem_filter.1 mem).1
    have apart : ¬ ∀ member ∈ root :: rest, member ∈ f.nodeIds := by
      intro all
      exact count ((frozenMembers_length formed distinct live cls all).trans cls.size.symm)
    refine iff_of_true ?_ fun all => absurd all apart
    simp only [frozenLinks, classRoot_eq cls member, count, if_false]
    refine ⟨fun up parent => ?_, fun behind next => ?_, fun last tail => ?_⟩
    · split at parent
      · exact among up (mem_of_mem_head? parent)
      · cases parent
    · exact among behind (mem_of_getElem? next)
    · split at tail
      · exact among last (mem_of_getLast? tail)
      · cases tail

/-- A freeze of a set returns when the set is self-contained, and only then. -/
theorem freezeSet_isSome_iff (key : ModuleKey) (nodeIds : List NodeId)
    (functionIds : List FunctionId) (mode : FreezeMode) :
    (m.freezeSet key nodeIds functionIds mode).isSome ↔
      m.SelfContained (m.setFreezing key nodeIds functionIds) mode := by
  have parts : (m.freezeSet key nodeIds functionIds mode).isSome ↔
      (nodeIds.mapM (m.freezeNode (m.setFreezing key nodeIds functionIds) mode)).isSome ∧
      (functionIds.mapM (m.freezeFunction (m.setFreezing key nodeIds functionIds))).isSome ∧
      (m.defaultAttributes.mapM (m.setFreezing key nodeIds functionIds).staticArrayHandle).isSome := by
    cases nodes : nodeIds.mapM (m.freezeNode (m.setFreezing key nodeIds functionIds) mode) <;>
      cases functions : functionIds.mapM (m.freezeFunction (m.setFreezing key nodeIds functionIds)) <;>
        cases defaults : m.defaultAttributes.mapM
            (m.setFreezing key nodeIds functionIds).staticArrayHandle <;>
          simp only [setFreezing] at nodes functions defaults <;>
            simp [freezeSet, nodes, functions, defaults]
  have attributes : (m.defaultAttributes.mapM
      (m.setFreezing key nodeIds functionIds).staticArrayHandle).isSome ↔
      ∀ handle, m.defaultAttributes = some (.dynamic handle) →
        ∀ item ∈ handle.items, ∀ node, item.node.dynamic? = some node → node ∈ nodeIds := by
    rw [optionMapM_isSome_iff]
    cases default : m.defaultAttributes with
    | none => simp
    | some handle =>
      cases handle with
      | static handle => simp [staticArrayHandle]
      | dynamic handle =>
        have laid : (handle.block, handle.address) ∈
            (m.setFreezing key nodeIds functionIds).payloads := by
          simp [setFreezing, frozenPayloads, default]
        simp only [some.injEq, forall_eq', staticArrayHandle,
          rewriteHandle_isSome_iff _ _ handle laid, rewriteItem_isSome_iff,
          AnyHandle.dynamic.injEq]
        rfl
  rw [parts, attributes, mapM_isSome_iff, mapM_isSome_iff]
  constructor
  · rintro ⟨nodes, functions, attributes⟩
    have live : ∀ node ∈ nodeIds, m.nodes.containsKey node := by
      intro node filed
      cases found : m.nodes.get node with
      | none => have froze := nodes node filed; simp [freezeNode, found] at froze
      | some entry => simp [SlotMap.containsKey, found]
    have known : ∀ function ∈ functionIds, m.functions.containsKey function := by
      intro function filed
      cases found : m.functions.get function with
      | none => have froze := functions function filed; simp [freezeFunction, found] at froze
      | some entry => simp [SlotMap.containsKey, found]
    have node : ∀ node ∈ nodeIds, ∀ entry, m.nodes.get node = some entry → _ :=
      fun node filed entry found => (freezeNode_isSome_iff _ mode found).1 (nodes node filed)
    have value : ∀ node ∈ nodeIds, ∀ entry value, m.nodes.get node = some entry →
        entry.value = some value → _ := fun other filed entry value found held =>
      ((m.setFreezing key nodeIds functionIds).rewriteValue_isSome_iff value
        fun payload carries => mem_frozenPayloads filed found held carries).1
          ((node other filed entry found).2.2 value held)
    exact
      { node := live
        function := known
        operand := fun other filed entry operation operand found stores =>
          (freezeOperation_isSome_iff _ mode entry).1 (node other filed entry found).1 stores
            operation operand
        links := fun other filed entry found => (node other filed entry found).2.1
        named := fun other filed entry held found is => (value other filed entry held found is).1
        held := fun other filed entry function found is =>
          (value other filed entry _ found is).2 function rfl
        template := fun function filed template found =>
          (freezeFunction_isSome_iff _ found).1 (functions function filed)
        attributes := attributes }
  · intro contained
    refine ⟨fun node filed => ?_, fun function filed => ?_, contained.attributes⟩
    · obtain ⟨entry, found⟩ := (SlotMap.containsKey_eq_true _ _).1 (contained.node node filed)
      rw [freezeNode_isSome_iff _ mode found, freezeOperation_isSome_iff]
      refine ⟨fun stores operation operand => contained.operand node filed entry operation operand
        found stores, contained.links node filed entry found, fun value held => ?_⟩
      refine ((m.setFreezing key nodeIds functionIds).rewriteValue_isSome_iff value
        fun payload carries => mem_frozenPayloads filed found held carries).2 ?_
      exact ⟨contained.named node filed entry value found held, fun function same =>
        contained.held node filed entry function found (by rw [held, same])⟩
    · obtain ⟨template, found⟩ := (SlotMap.containsKey_eq_true _ _).1
        (contained.function function filed)
      rw [freezeFunction_isSome_iff _ found]
      exact contained.template function filed template found

end Module

end LichenVm
