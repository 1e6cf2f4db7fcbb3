import LichenVm.FrozenKeys
import LichenVm.KeyEquality
import Mathlib.Data.List.Find

open List Option

namespace LichenVm

open Module Program

variable {P : Program}

namespace Module

/-- A key whose deep verdict is decided. -/
def KeyDecided (m : Module P) : AnyNodeId → Prop
  | .dynamic node => m.DeepDecided node
  | .static sref => ∃ entry, m.staticNode sref = some entry ∧ entry.isUndecided = false

/-- A decided key whose content is hashed. -/
def HashesTo (m : Module P) (key : AnyNodeId) (hash : UInt64) : Prop :=
  m.KeyDecided key ∧ m.contentHash key = some (.hashed hash)

variable {m : Module P} {key : AnyNodeId}

/-- Hashing a decided key leaves the module alone. -/
theorem HashesTo.keyState {hash : UInt64} (hashes : m.HashesTo key hash) (dispatch : Dispatch P) :
    m.keyState dispatch key = some (.hashed hash, m) := by
  obtain ⟨decided, hashed⟩ := hashes
  cases key with
  | dynamic node =>
    obtain ⟨entry, found, verdict, valued, stands⟩ := decided
    have settled : m.hasNoResultYet node = false ∧ m.isScopeRootRead node none = false := by
      rcases stands with wildcard | settled
      · have held : m.nodeValue (.dynamic node) = some (.low .any) := by
          rw [nodeValue, found, bind_some, wildcard]
        rw [contentHash_any held] at hashed
        cases hashed
      · exact settled
    have walked : m.evaluateNodeDeep dispatch node none = some (entry.value, m) := by
      simp only [evaluateNodeDeep, evaluateNodeDeepInner]
      rw [found, bind_eq_bind, bind_some, if_pos (by simp [settled, verdict, valued])]
    rw [Module.keyState, walked, bind_eq_bind, bind_some]
    simp [found, verdict, hashed]
  | static sref =>
    obtain ⟨entry, found, verdict⟩ := decided
    rw [Module.keyState, found, bind_eq_bind, bind_some, verdict, if_neg Bool.false_ne_true, hashed]
    rfl

section Congr

variable {m other : Module P}

theorem hashItems_congr (slots : other.slotContent = m.slotContent)
    (walk : UnfoldMode → AnyNodeId → Option KeyState) (mode : UnfoldMode) (items : List ArrayItem)
    (hash : UInt64) : other.hashItems walk mode items hash = m.hashItems walk mode items hash := by
  induction items generalizing hash with
  | nil => rfl
  | cons item items ih =>
    unfold hashItems
    rw [slots]
    split
    · exact ih _
    · congr
      funext content
      congr
      funext verdict
      cases verdict with
      | hashed itemHash => exact ih _
      | undecided => rfl
      | unhashable => rfl

/-- Hashing a key reads the nodes, the functions and the registry. -/
theorem contentHash_congr (nodes : other.nodes = m.nodes) (functions : other.functions = m.functions)
    (registry : other.registry = m.registry) (key : AnyNodeId) :
    other.contentHash key = m.contentHash key := by
  have statics : other.staticModule = m.staticModule := by
    funext key
    rw [staticModule, staticModule, registry]
  have values : other.nodeValue = m.nodeValue := by
    funext id
    cases id with
    | dynamic node => rw [nodeValue, nodeValue, nodes]
    | static sref => rw [nodeValue, nodeValue, staticRead, staticRead, statics]
  have reads : other.readValue = m.readValue := by
    funext id
    cases id with
    | dynamic node => rw [readValue, readValue, values]
    | static sref => rw [readValue, readValue, staticNode, staticNode, statics]
  have slots : other.slotContent = m.slotContent := by
    funext id
    rw [slotContent, slotContent, reads, elementValueNode, elementValueNode, values]
  have edges : other.operationOperand = m.operationOperand := by
    funext id
    cases id with
    | dynamic node => rw [operationOperand, operationOperand, nodeOperation, nodeOperation, nodes]
    | static sref => rw [operationOperand, operationOperand, statics]
  have frozen : other.readOnlyStatic = m.readOnlyStatic := by
    funext id
    cases id with
    | dynamic node => rfl
    | static sref => rw [readOnlyStatic, readOnlyStatic, statics]
  have points : other.entryPoints = m.entryPoints := by
    funext function
    cases function with
    | dynamic function => rw [entryPoints, entryPoints, functions]
    | static sref => rw [entryPoints, entryPoints, statics]
  rw [contentHash_eq, contentHash_eq]
  have level : ∀ depth, other.content depth = m.content depth := by
    intro depth
    induction depth with
    | zero => rfl
    | succ depth ih =>
      funext mode id
      show other.hashStep _ _ mode id = m.hashStep _ _ mode id
      have resolved : other.hashResolved (M := Option) (m.content depth) =
          m.hashResolved (m.content depth) := by
        funext function
        unfold hashResolved
        rw [points]
      rw [ih, resolved]
      unfold hashStep unfoldedEdge refusesTemplate
      rw [edges, frozen, reads]
      congr
      funext edge
      cases edge with
      | some operand => rfl
      | none =>
        dsimp only
        congr
        funext refuses
        cases refuses with
        | true => rfl
        | false =>
          dsimp only
          congr
          funext value
          cases value with
          | none => rfl
          | some value =>
            cases value with
            | ext value => rfl
            | low value =>
              cases value with
              | array array => exact hashItems_congr slots _ mode array.items ARRAY_SEED
              | _ => rfl
  rw [level]

end Congr

theorem isScopeRootRead_allocTable (m : Module P) (items : List TableItem) (block : BlockId)
    (node : NodeId) :
    (m.allocTable items block).2.isScopeRootRead node none = m.isScopeRootRead node none := by
  unfold isScopeRootRead
  have homes : (m.allocTable items block).2.homeOf node = m.homeOf node := rfl
  rw [homes]
  cases m.homeOf node with
  | none => rfl
  | some home =>
    have held : (m.allocTable items block).2.blocks.get home = if home = block then
        (m.blocks.get home).map fun entry => { entry with arena := entry.arena + 1 }
        else m.blocks.get home := SlotMap.get_modify _ _ _ _
    rw [bind_some, bind_some, held]
    cases m.blocks.get home with
    | none =>
      rw [map_none, ite_self]
    | some entry => by_cases same : home = block <;> simp [same]

theorem HashesTo.allocTable {hash : UInt64} (hashes : m.HashesTo key hash)
    (items : List TableItem) (block : BlockId) :
    (m.allocTable items block).2.HashesTo key hash := by
  obtain ⟨decided, hashed⟩ := hashes
  have nodes : (m.allocTable items block).2.nodes = m.nodes := rfl
  have same : (m.allocTable items block).2.contentHash key = m.contentHash key :=
    contentHash_congr nodes rfl rfl key
  refine ⟨?_, same.trans hashed⟩
  cases key with
  | dynamic node =>
    obtain ⟨entry, found, verdict, valued, stands⟩ := decided
    refine ⟨entry, by rw [nodes, found], verdict, valued, stands.imp id fun settled => ⟨?_, ?_⟩⟩
    · rw [← settled.1, hasNoResultYet, hasNoResultYet, nodes]
    · rw [← settled.2, isScopeRootRead_allocTable]
  | static sref =>
    obtain ⟨entry, found, verdict⟩ := decided
    exact ⟨entry, found, verdict⟩

variable {entries : List (AnyNodeId × AnyNodeId)}

theorem hashEntries_decided (decided : ∀ entry ∈ entries, ∃ hash, m.HashesTo entry.1 hash)
    (dispatch : Dispatch P) :
    ∃ items, hashEntries dispatch entries m = some (items, m) ∧
      List.Forall₂ (fun entry (item : TableItem) => item.key = entry.1 ∧ item.value = entry.2)
        entries items ∧
      ∀ item ∈ items, ∃ entry ∈ entries, item.key = entry.1 ∧ m.HashesTo entry.1 item.hash := by
  induction entries with
  | nil => exact ⟨[], rfl, .nil, fun _ member => absurd member not_mem_nil⟩
  | cons entry entries ih =>
    obtain ⟨hash, hashes⟩ := decided entry mem_cons_self
    obtain ⟨items, ran, listed, stored⟩ :=
      ih fun other member => decided other (mem_cons_of_mem _ member)
    refine ⟨{ key := entry.1, value := entry.2, hash } :: items, ?_, .cons ⟨rfl, rfl⟩ listed, ?_⟩
    · unfold hashEntries
      rw [hashes.keyState dispatch, bind_eq_bind, bind_some]
      dsimp only
      rw [ran]
      rfl
    · intro item member
      rcases mem_cons.1 member with rfl | member
      · exact ⟨entry, mem_cons_self, rfl, hashes⟩
      · obtain ⟨source, given, names⟩ := stored item member
        exact ⟨source, mem_cons_of_mem _ given, names⟩

/-- The first entry in source order whose key is the probe. -/
def firstOf (m : Module P) (probe : AnyNodeId) (entries : List (AnyNodeId × AnyNodeId)) :
    Option AnyNodeId :=
  (entries.find? fun entry => m.structuralEq probe entry.1 = some true).map Prod.snd

variable {items : List TableItem}

theorem firstOf_eq (m : Module P) (probe : AnyNodeId)
    (listed : List.Forall₂ (fun entry (item : TableItem) =>
      item.key = entry.1 ∧ item.value = entry.2) entries items) :
    (items.find? fun item => m.structuralEq probe item.key = some true).map TableItem.value =
      m.firstOf probe entries := by
  unfold firstOf
  induction listed with
  | nil => rfl
  | cons made _ ih =>
    rw [List.find?_cons, List.find?_cons, made.1]
    split
    · rw [map_some, map_some, made.2]
    · exact ih

theorem searchRun_of_some {probe : AnyNodeId} {found : Option AnyNodeId}
    (ran : m.searchRun probe items = some found) :
    found = (items.find? fun item => m.structuralEq probe item.key = some true).map TableItem.value := by
  induction items with
  | nil => exact (some.inj ran).symm
  | cons item items ih =>
    obtain ⟨equal, compared, ran⟩ := bind_eq_some_iff.1 ran
    rw [List.find?_cons, compared]
    cases equal with
    | true => exact (some.inj ran).symm
    | false => exact ih ran

theorem searchRun_isSome {probe : AnyNodeId}
    (returns : ∀ item ∈ items, (m.structuralEq probe item.key).isSome) :
    (m.searchRun probe items).isSome := by
  induction items with
  | nil => rfl
  | cons item items ih =>
    obtain ⟨equal, compared⟩ := isSome_iff_exists.1 (returns item mem_cons_self)
    unfold searchRun
    rw [compared, bind_eq_bind, bind_some]
    cases equal with
    | true => rfl
    | false => exact ih fun other member => returns other (mem_cons_of_mem _ member)

theorem HashesTo.readable {hash : UInt64} (hashes : m.HashesTo key hash) :
    (m.readValue key).isSome := by
  have hashed := hashes.2
  rw [contentHash_eq] at hashed
  have level : m.hashStep _ _ .key key = some (.hashed hash) := hashed
  rw [hashStep_key] at level
  obtain ⟨value, reads, -⟩ := bind_eq_some_iff.1 level
  rw [reads]
  rfl

section Search

variable {m : Module P} {items : List TableItem} {probe : AnyNodeId} {hash : UInt64}
  (stored : ∀ item ∈ items, m.HashesTo item.key item.hash) (probes : m.HashesTo probe hash)

include stored probes

theorem searchTable_of_some {found : Option AnyNodeId}
    (ran : m.searchTable (SortedRun.sortByKey TableItem.order items) probe hash = some found) :
    found = (items.find? fun item => m.structuralEq probe item.key = some true).map TableItem.value := by
  rw [searchRun_of_some ran, SortedRun.find?_run_sortByKey]
  congr 1
  apply List.find?_congr
  intro item member
  rw [decide_eq_decide, decide_eq_true_eq]
  refine ⟨And.right, fun same => ⟨?_, same⟩⟩
  have equal := contentHash_of_structuralEq same
  rw [probes.2, (stored item member).2] at equal
  rw [TableItem.order, KeyState.hashed.inj (some.inj equal)]

theorem searchTable_isSome (registered : m.Registered) :
    (m.searchTable (SortedRun.sortByKey TableItem.order items) probe hash).isSome := by
  apply searchRun_isSome
  intro item member
  rw [SortedRun.run_eq_filter _ (SortedRun.sortByKey_sorted _ _), SortedRun.sortByKey_stable] at member
  exact structuralEq_isSome registered probes.readable
    (stored item (mem_of_mem_filter member)).readable

end Search

/-- A table read's operands, evaluated: the table under `payload`, in the module `later`. -/
def ReadsTable (dispatch : Dispatch P) (start : Module P) (node : NodeId) (home : BlockId)
    (table probe : AnyNodeId) (payload : AnyHandle TableItem) (later : Module P) : Prop :=
  ∃ entry operands array first second middle, start.nodes.get node = some entry ∧
    entry.operation.bind Operation.operand = some operands ∧ entry.block = home ∧
    start.evaluateNode dispatch (.dynamic operands) (some home) =
      some (some (.low (.array array)), middle) ∧
    array.items[0]? = some first ∧ first.node = table ∧
    array.items[1]? = some second ∧ second.node = probe ∧
    middle.evaluateNode dispatch table (some home) = some (some (.low (.table payload)), later)

theorem evaluateTableGet_of_reads {dispatch : Dispatch P} {start later : Module P} {node : NodeId}
    {home : BlockId} {table probe : AnyNodeId} {payload : AnyHandle TableItem}
    (reads : ReadsTable dispatch start node home table probe payload later) :
    start.evaluateTableGet dispatch node =
      later.readTable dispatch node home table payload.items probe := by
  obtain ⟨entry, operands, array, first, second, middle, found, edge, rfl, operand, at_first, rfl,
    at_second, rfl, target⟩ := reads
  unfold evaluateTableGet
  simp only [found, edge, operand, at_first, at_second, target, bind_eq_bind, bind_some]

end Module

/-- A key, a value, and a read of the table `items` by the node `probe`: the table, the operand
array and the read follow. -/
def tableReader (key probe : Value plain) (items : List TableItem) : Module plain :=
  ((Reaches.runAll (fun m op => op.keepsTree m) [.addBlock none, .addNode ⟨1⟩ none (some key),
    .addNode ⟨1⟩ none (some (.low (.usize 10))), .addNode ⟨1⟩ none (some probe),
    .addNode ⟨1⟩ none (some (.low (.table (.dynamic ⟨⟨1⟩, 0, items⟩)))),
    .addNode ⟨1⟩ none (some (.low (.array ⟨.dynamic ⟨⟨1⟩, 1, [⟨.dynamic ⟨4⟩, false, false⟩,
      ⟨.dynamic ⟨3⟩, false, false⟩]⟩, 0⟩))),
    .addNode ⟨1⟩ (some ⟨.low .tableGet, some ⟨5⟩⟩) none] {}).getD {}).settleDeep ⟨1⟩ false
    |>.settleDeep ⟨3⟩ false

/-- One scalar key, and a read of its table by an equal scalar of another node. -/
def scalarReader : Module plain :=
  tableReader (.low (.usize 7)) (.low (.usize 7)) [⟨.dynamic ⟨1⟩, .dynamic ⟨2⟩, mix 7⟩]

/-- An `Error` key, and a read of its table by the key itself. -/
def errorReader : Module plain := tableReader (.low .error) (.low .error) []

end LichenVm
