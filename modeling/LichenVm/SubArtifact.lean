import LichenVm.ClosureWalk
import LichenVm.FrozenClasses
import LichenVm.Registry

open List Option

namespace LichenVm

open DisjointSet Traverse SlotMap Program

variable {P : Program}

/-- How the indices of one artifact under `key` name the nodes and functions of another. -/
structure Renumbering where
  key : ModuleKey
  node : LocalNodeId → LocalNodeId
  function : StaticFunctionId → StaticFunctionId

namespace Renumbering

def ref (r : Renumbering) : AnyNodeId → AnyNodeId
  | .dynamic node => .dynamic node
  | .static sref =>
    if sref.module = r.key then .static { sref with index := r.node sref.index } else .static sref

def functionRef (r : Renumbering) : AnyFunctionId → AnyFunctionId
  | .dynamic function => .dynamic function
  | .static sref =>
    if sref.module = r.key then .static { sref with index := r.function sref.index }
    else .static sref

def item (r : Renumbering) (item : ArrayItem) : ArrayItem := { item with node := r.ref item.node }

def entry (r : Renumbering) (item : TableItem) : TableItem :=
  { item with key := r.ref item.key, value := r.ref item.value }

/-- One payload, renumbered, wherever each arena lays it out. Another module's is the same. -/
def SameHandle {α : Type} (r : Renumbering) (renumber : α → α) : AnyHandle α → AnyHandle α → Prop
  | .static one, .static two =>
    if one.module = r.key then two.module = r.key ∧ two.items = one.items.map renumber
    else two = one
  | _, _ => False

def SameValue (r : Renumbering) : Value P → Value P → Prop
  | .low (.array one), .low (.array two) =>
    two.layout = one.layout ∧ r.SameHandle r.item one.handle two.handle
  | .low (.table one), .low (.table two) => r.SameHandle r.entry one two
  | .low (.function one), .low (.function two) => two = r.functionRef one
  | .ext one, .ext two => two = one ∨ ∃ value first second, one = P.setHandle value (.static first) ∧
      two = P.setHandle value (.static second) ∧ first.module = r.key ∧ second.module = r.key ∧
      second.items = first.items
  | one, two => two = one

/-- One node, renumbered. -/
structure SameNode (r : Renumbering) (one two : StaticNode P) : Prop where
  value : Option.Rel r.SameValue one.value two.value
  lowShape : two.lowShape = one.lowShape
  operation : two.operation =
    one.operation.map fun operation => { operation with operand := operation.operand.map r.node }
  runned : two.runned = one.runned
  evaluatedDeep : two.evaluatedDeep = one.evaluatedDeep

/-- One function, renumbered. -/
structure SameFunction (r : Renumbering) (one two : StaticFunction) : Prop where
  parameter : two.parameter = r.node one.parameter
  result : two.return = r.node one.return
  returnType : two.returnType = r.node one.returnType
  asserts : two.asserts = one.asserts.map r.node
  nodes : two.nodes = one.nodes.map r.node

end Renumbering

namespace Module

def closureFreezing (m : Module P) (key : ModuleKey) (roots : List NodeId) : Freezing :=
  m.setFreezing key (m.closure roots .portable).1 (m.closure roots .portable).2

/-- Where the whole freeze files what the closure's freeze files. -/
def closureRenumbering (m : Module P) (key : ModuleKey) (roots : List NodeId) : Renumbering where
  key := key
  node index :=
    match (m.closureFreezing key roots).nodeIds[index.index]? with
    | some node => (m.wholeFreezing key).image node
    | none => index
  function index :=
    match (m.closureFreezing key roots).functionIds[index.index]? with
    | some function => ⟨(m.wholeFreezing key).functionIds.idxOf function⟩
    | none => index

/-- `part` agrees with `whole` on the nodes and functions it files, and relates the undecided
ones by class as the source does. -/
structure SubArtifact (m : Module P) (key : ModuleKey) (roots : List NodeId)
    (part whole : StaticModule P) : Prop where
  node : ∀ index one, part.nodes[index]? = some one → ∃ two,
    whole.nodes[((m.closureRenumbering key roots).node ⟨index⟩).index]? = some two ∧
      (m.closureRenumbering key roots).SameNode one two
  injective : ∀ i j : Nat, i < part.nodes.length → j < part.nodes.length →
    (m.closureRenumbering key roots).node ⟨i⟩ = (m.closureRenumbering key roots).node ⟨j⟩ → i = j
  function : ∀ index one, part.functions[index]? = some one → ∃ two,
    whole.functions[((m.closureRenumbering key roots).function ⟨index⟩).index]? = some two ∧
      (m.closureRenumbering key roots).SameFunction one two
  classes : ∀ a b, a ∈ (m.closureFreezing key roots).nodeIds →
    b ∈ (m.closureFreezing key roots).nodeIds →
    m.nodeValue (.dynamic a) = none → m.nodeValue (.dynamic b) = none →
    (part.find ((m.closureFreezing key roots).image a) =
      part.find ((m.closureFreezing key roots).image b) ↔ m.classRoot a = m.classRoot b)

/-- Both freezes find everything they look up, and the closure's is a part of the whole. -/
def FreezesAsPart (m : Module P) (key : ModuleKey) (roots : List NodeId) : Prop :=
  ∃ part whole, m.freezeClosure key roots .portable = some part ∧ m.fromModule key = some whole ∧
    m.SubArtifact key roots part whole

/-- Every reference and every tail link of the module names a live node; a tail link of a class
the closure holds whole stays in the closure; and so does the return type of each function the
closure files, when it is live. -/
structure ClosureCovers (m : Module P) (roots : List NodeId) : Prop where
  references : m.ReferencesLive
  tails : ∀ node last, tailOf m.nodes node = some last → m.nodes.containsKey last = true
  classTails : ∀ node, m.Contained .portable roots node →
    (∀ member ∈ m.membersOf (m.classRoot node), m.Contained .portable roots member) →
    ∀ last, tailOf m.nodes node = some last → m.Contained .portable roots last
  returnTypes : ∀ function template, m.ContainedFunction .portable roots function →
    m.functions.get function = some template → m.nodes.containsKey template.returnType = true →
    m.Contained .portable roots template.returnType

theorem nodeRefs_closureRefs (m : Module P) (value : Value P) :
    ∀ node ∈ value.nodeRefs, node ∈ m.closureRefs value := by
  intro node names
  cases value with
  | low value =>
    cases value with
    | array array => obtain ⟨handle, layout⟩ := array; cases handle <;> exact names
    | table table => cases table <;> exact names
    | _ => cases names
  | ext value => cases names

section Lookups

variable {m : Module P} (formed : WellFormed m.nodes) (key : ModuleKey) (roots : List NodeId)

theorem mem_closureFreezing (node : NodeId) : node ∈ (m.closureFreezing key roots).nodeIds ↔
    m.Contained .portable roots node :=
  (m.closure_spec roots .portable).1 node

theorem mem_closureFreezing_function (function : FunctionId) :
    function ∈ (m.closureFreezing key roots).functionIds ↔
      m.ContainedFunction .portable roots function :=
  (m.closure_spec roots .portable).2 function

theorem closureFreezing_nodup : (m.closureFreezing key roots).nodeIds.Nodup :=
  (keys_nodup m.nodes).filter _

theorem closureFreezing_live : ∀ node ∈ (m.closureFreezing key roots).nodeIds,
    m.nodes.containsKey node :=
  fun node filed => ((mem_closureFreezing key roots node).1 filed).live

include formed

/-- The whole freeze returns when every reference and every tail link is live, and only then. -/
theorem fromModule_isSome_iff : (m.fromModule key).isSome ↔ m.ReferencesLive ∧
    ∀ node last, tailOf m.nodes node = some last → m.nodes.containsKey last := by
  have keys : ∀ node, node ∈ (m.wholeFreezing key).nodeIds ↔ m.nodes.containsKey node :=
    fun node => mem_keys _ _
  have functions : ∀ function, function ∈ (m.wholeFreezing key).functionIds ↔
      m.functions.containsKey function := fun function => mem_keys _ _
  have live : ∀ {node : NodeId} {entry : Node P}, m.nodes.get node = some entry →
      node ∈ (m.wholeFreezing key).nodeIds := fun found =>
    (keys _).2 (by simp [containsKey, found])
  have links := fun {node : NodeId} {entry : Node P} (found : m.nodes.get node = some entry) =>
    links_isSome_iff formed (m.wholeFreezing key) (keys_nodup m.nodes)
      (fun node filed => (keys node).1 filed) (live found) found
  have classFiled : ∀ {node : NodeId} {entry : Node P}, m.nodes.get node = some entry →
      ∀ member ∈ m.membersOf (m.classRoot node), member ∈ (m.wholeFreezing key).nodeIds := by
    intro node entry found member mem
    obtain ⟨root, rest, cls, inside⟩ := formed node (by simp [DisjointSet.links, found])
    rw [classRoot_eq cls inside, membersOf_eq cls] at mem
    rw [keys, ← links_isSome]
    exact cls.live member mem
  refine (freezeSet_isSome_iff key _ _ .portable).trans ⟨fun contained => ?_, fun both => ?_⟩
  · change m.SelfContained (m.wholeFreezing key) .portable at contained
    refine ⟨⟨fun node entry operation operand found computes reads => ?_,
      fun node entry value found held other names => ?_, fun node entry function found held => ?_,
      fun function entry found node listed => ?_, fun handle default item member node names => ?_⟩,
      fun node last names => ?_⟩
    · exact (keys operand).1 (contained.operand node (live found) entry operation operand found
        (.inl rfl) computes reads)
    · exact (keys other).1 (contained.named node (live found) entry value found held other names)
    · exact (functions function).1 (contained.held node (live found) entry function found held)
    · exact (keys node).1 (contained.template function
        ((functions function).2 (by simp [containsKey, found])) entry found node listed)
    · exact (keys node).1 (contained.attributes handle default item member node names)
    · cases found : m.nodes.get node with
      | none => simp [tailOf, DisjointSet.links, found] at names
      | some entry =>
        exact (keys last).1 ((links found).1 (contained.links node (live found) entry found)
          (classFiled found) last names)
  · obtain ⟨references, tails⟩ := both
    exact
      { node := fun node filed => (keys node).1 filed
        function := fun function filed => (functions function).1 filed
        operand := fun node _ entry operation operand found _ computes reads =>
          (keys operand).2 (references.operand node entry operation operand found computes reads)
        links := fun node _ entry found =>
          (links found).2 fun _ last names => (keys last).2 (tails node last names)
        named := fun node _ entry value found held other names =>
          (keys other).2 (references.named node entry value found held other names)
        held := fun node _ entry function found held =>
          (functions function).2 (references.held node entry function found held)
        template := fun function _ template found node listed =>
          (keys node).2 (references.template function template found node listed)
        attributes := fun handle default item member node names =>
          (keys node).2 (references.attributes handle default item member node names) }

/-- Where every reference is live, the freeze of a closure returns when the tail links of the
classes it holds whole stay in it, and only then. -/
theorem freezeClosure_isSome_iff (references : m.ReferencesLive) :
    (m.freezeClosure key roots .portable).isSome ↔ ∀ node, m.Contained .portable roots node →
        (∀ member ∈ m.membersOf (m.classRoot node), m.Contained .portable roots member) →
        ∀ last, tailOf m.nodes node = some last → m.Contained .portable roots last := by
  have mem := mem_closureFreezing (m := m) key roots
  have edge : ∀ {node other : NodeId}, node ∈ (m.closureFreezing key roots).nodeIds →
      m.ClosureEdge .portable node other → m.nodes.containsKey other →
      other ∈ (m.closureFreezing key roots).nodeIds := fun filed edge live =>
    (mem _).2 (.edge ((mem _).1 filed) edge live)
  have links := fun {node : NodeId} {entry : Node P}
      (filed : node ∈ (m.closureFreezing key roots).nodeIds) (found : m.nodes.get node = some entry) =>
    links_isSome_iff formed (m.closureFreezing key roots) (closureFreezing_nodup key roots)
      (closureFreezing_live key roots) filed found
  refine (freezeSet_isSome_iff key _ _ .portable).trans ⟨fun contained => ?_, fun tails => ?_⟩
  · change m.SelfContained (m.closureFreezing key roots) .portable at contained
    intro node inside members last names
    obtain ⟨entry, found⟩ := (containsKey_eq_true _ _).1 inside.live
    have filed := (mem node).2 inside
    exact (mem last).1 ((links filed found).1 (contained.links node filed entry found)
      (fun member other => (mem member).2 (members member other)) last names)
  · change m.SelfContained (m.closureFreezing key roots) .portable
    exact
      { node := closureFreezing_live key roots
        function := fun function filed => by
          obtain ⟨node, entry, template, -, -, held⟩ :=
            (mem_closureFreezing_function key roots function).1 filed
          simp [containsKey, heldTemplate_get held]
        operand := fun node filed entry operation operand found _ computes reads =>
          edge filed (.own entry found (by simp [closureEdges, computes, reads]))
            (references.operand node entry operation operand found computes reads)
        links := fun node filed entry found => (links filed found).2 fun members last names =>
          (mem last).2 (tails node ((mem node).1 filed)
            (fun member other => (mem member).1 (members member other)) last names)
        named := fun node filed entry value found held other names =>
          edge filed (.own entry found (by
            simp only [closureEdges, held, map_some, getD_some, mem_append]
            exact .inr (nodeRefs_closureRefs m value other names)))
            (references.named node entry value found held other names)
        held := fun node filed entry function found held => by
          obtain ⟨template, made⟩ := (containsKey_eq_true _ _).1
            (references.held node entry function found held)
          exact (mem_closureFreezing_function key roots function).2
            ⟨node, entry, template, (mem node).1 filed, found, by simp [heldTemplate, held, made]⟩
        template := fun function filed template made node listed => by
          obtain ⟨holder, entry, template', inside, found, held⟩ :=
            (mem_closureFreezing_function key roots function).1 filed
          have same : template' = template :=
            some.inj ((heldTemplate_get held).symm.trans made)
          exact edge ((mem holder).2 inside)
            (.template entry function template found (same ▸ held) listed)
            (references.template function template made node listed)
        attributes := fun handle default item member node names =>
          (mem node).2 (.root (by
            simp only [closureRoots, default, mem_append, mem_filterMap]
            exact .inr ⟨item, member, names⟩)
            (references.attributes handle default item member node names)) }

end Lookups

end Module

/-- The dependencies' payloads and refs a value carries are none of the artifact's own. -/
def Value.ForeignTo (key : ModuleKey) (value : Value P) : Prop := key ∉ valueReferencedKeys value

namespace Freezing

variable {f g : Freezing} {r : Renumbering}

/-- `r` takes where `f` files a node or function to where `g` does. -/
structure Renumbers (r : Renumbering) (f g : Freezing) : Prop where
  first : f.key = r.key
  second : g.key = r.key
  node : ∀ node ∈ f.nodeIds, r.node (f.image node) = g.image node
  function : ∀ function a b, f.function function = some a → g.function function = some b →
    r.function a = b

section

variable (renumbers : Renumbers r f g)

include renumbers

theorem Renumbers.node_some {node : NodeId} {a b : LocalNodeId} (one : f.node node = some a)
    (two : g.node node = some b) : b = r.node a := by
  rw [node_eq one, node_eq two, renumbers.node node (mem_of_node one)]

theorem Renumbers.ref {ref one two : AnyNodeId} (foreign : ref.module? ≠ some r.key)
    (left : f.rewriteNodeRef ref = some one) (right : g.rewriteNodeRef ref = some two) :
    two = r.ref one := by
  cases ref with
  | dynamic node =>
    obtain ⟨a, first, rfl⟩ := map_eq_some_iff.1 left
    obtain ⟨b, second, rfl⟩ := map_eq_some_iff.1 right
    simp [Renumbering.ref, renumbers.first, renumbers.second, renumbers.node_some first second]
  | static sref =>
    cases left
    cases right
    have away : sref.module ≠ r.key := fun same => foreign (by simp [AnyNodeId.module?, same])
    simp [Renumbering.ref, away]

theorem Renumbers.item {item one two : ArrayItem} (foreign : item.node.module? ≠ some r.key)
    (left : f.rewriteItem item = some one) (right : g.rewriteItem item = some two) :
    two = r.item one := by
  obtain ⟨a, first, rfl⟩ := map_eq_some_iff.1 left
  obtain ⟨b, second, rfl⟩ := map_eq_some_iff.1 right
  rw [renumbers.ref foreign first second]
  rfl

theorem Renumbers.entry {item one two : TableItem} (foreignKey : item.key.module? ≠ some r.key)
    (foreignValue : item.value.module? ≠ some r.key) (left : f.rewriteEntry item = some one)
    (right : g.rewriteEntry item = some two) : two = r.entry one := by
  obtain ⟨key, firstKey, left⟩ := bind_eq_some_iff.1 left
  obtain ⟨value, firstValue, left⟩ := bind_eq_some_iff.1 left
  obtain ⟨key', secondKey, right⟩ := bind_eq_some_iff.1 right
  obtain ⟨value', secondValue, right⟩ := bind_eq_some_iff.1 right
  rw [← some.inj left, ← some.inj right,
    renumbers.ref foreignKey firstKey secondKey, renumbers.ref foreignValue firstValue secondValue]
  rfl

end

theorem mapM_renumbered {α : Type} {one two : α → Option α} {renumber : α → α} :
    ∀ (items first second : List α), (∀ item ∈ items, ∀ a b, one item = some a → two item = some b →
      b = renumber a) → items.mapM one = some first → items.mapM two = some second →
      second = first.map renumber := by
  intro items
  induction items with
  | nil =>
    intro first second _ left right
    obtain rfl : first = [] := by simpa using left.symm
    obtain rfl : second = [] := by simpa using right.symm
    rfl
  | cons item items ih =>
    intro first second each left right
    rw [mapM_cons] at left right
    obtain ⟨a, head, left⟩ := bind_eq_some_iff.1 left
    obtain ⟨as, tail, left⟩ := bind_eq_some_iff.1 left
    obtain ⟨b, head', right⟩ := bind_eq_some_iff.1 right
    obtain ⟨bs, tail', right⟩ := bind_eq_some_iff.1 right
    rw [← some.inj left, ← some.inj right, each item (by simp) a b head head',
      ih as bs (fun other member => each other (mem_cons_of_mem item member)) tail tail']
    rfl

theorem Renumbers.handle {α : Type} (renumbers : Renumbers r f g) {one two : α → Option α}
    {renumber : α → α} {handle : Handle α} {first second : StaticHandle α}
    (each : ∀ item ∈ handle.items, ∀ a b, one item = some a → two item = some b → b = renumber a)
    (left : f.rewriteHandle one handle = some first)
    (right : g.rewriteHandle two handle = some second) :
    r.SameHandle renumber (.static first) (.static second) := by
  obtain ⟨offset, -, left⟩ := bind_eq_some_iff.1 left
  obtain ⟨items, made, left⟩ := bind_eq_some_iff.1 left
  obtain ⟨offset', -, right⟩ := bind_eq_some_iff.1 right
  obtain ⟨items', made', right⟩ := bind_eq_some_iff.1 right
  cases left
  cases right
  simp [Renumbering.SameHandle, renumbers.first, renumbers.second,
    mapM_renumbered handle.items items items' each made made']

theorem Renumbers.value (renumbers : Renumbers r f g) {value one two : Value P}
    (foreign : value.ForeignTo r.key) (left : f.rewriteValue value = some one)
    (right : g.rewriteValue value = some two) : r.SameValue one two := by
  cases value with
  | low value =>
    cases value with
    | array array =>
      obtain ⟨handle, layout⟩ := array
      cases handle with
      | static handle =>
        cases left
        cases right
        have away : handle.module ≠ r.key := fun same =>
          foreign (by simp [valueReferencedKeys, arrayReferencedKeys, AnyHandle.module?, same])
        simp [Renumbering.SameValue, Renumbering.SameHandle, away]
      | dynamic handle =>
        obtain ⟨first, made, rfl⟩ := map_eq_some_iff.1 left
        obtain ⟨second, made', rfl⟩ := map_eq_some_iff.1 right
        refine ⟨rfl, renumbers.handle (fun item member a b => renumbers.item ?_) made made'⟩
        intro names
        exact foreign (mem_append_right _ (mem_filterMap.2 ⟨item, member, names⟩))
    | table table =>
      cases table with
      | static handle =>
        cases left
        cases right
        have away : handle.module ≠ r.key := fun same =>
          foreign (by simp [valueReferencedKeys, tableReferencedKeys, AnyHandle.module?, same])
        simp [Renumbering.SameValue, Renumbering.SameHandle, away]
      | dynamic handle =>
        obtain ⟨first, made, rfl⟩ := map_eq_some_iff.1 left
        obtain ⟨second, made', rfl⟩ := map_eq_some_iff.1 right
        refine renumbers.handle (fun item member a b => ?_) made made'
        have apart : ∀ key ∈ item.key.module?.toList ++ item.value.module?.toList,
            key ≠ r.key := fun key names same => foreign (mem_append_right _
          (mem_flatMap.2 ⟨item, member, same ▸ names⟩))
        exact renumbers.entry (fun names => apart _ (by simp [names]) rfl)
          (fun names => apart _ (by simp [names]) rfl)
    | function function =>
      cases function with
      | static sref =>
        cases left
        cases right
        have away : sref.module ≠ r.key := fun same =>
          foreign (by simp [valueReferencedKeys, same])
        simp [Renumbering.SameValue, Renumbering.functionRef, away]
      | dynamic function =>
        obtain ⟨first, made, rfl⟩ := map_eq_some_iff.1 left
        obtain ⟨second, made', rfl⟩ := map_eq_some_iff.1 right
        simp [Renumbering.SameValue, Renumbering.functionRef, renumbers.first, renumbers.second,
          renumbers.function function first second made made']
    | _ =>
      cases left
      cases right
      rfl
  | ext value =>
    simp only [rewriteValue] at left right
    split at left
    · next handle carries =>
      simp only [carries] at right
      obtain ⟨first, -, rfl⟩ := map_eq_some_iff.1 left
      obtain ⟨second, -, rfl⟩ := map_eq_some_iff.1 right
      exact .inr ⟨value, _, _, rfl, rfl, renumbers.first, renumbers.second, rfl⟩
    · next other =>
      cases left
      split at right
      · next handle carries => exact absurd carries (other handle)
      · cases right
        exact Or.inl rfl

end Freezing

namespace Module

section Agreement

open Freezing

variable {m : Module P} {key : ModuleKey} {roots : List NodeId}

theorem closureRenumbering_renumbers : Renumbers (m.closureRenumbering key roots)
    (m.closureFreezing key roots) (m.wholeFreezing key) where
  first := rfl
  second := rfl
  node node filed := by
    have position := idxOf_lt_length_of_mem filed
    simp only [closureRenumbering, Freezing.image, getElem?_eq_getElem position,
      getElem_idxOf position]
  function function a b one two := by
    obtain ⟨i, found, rfl⟩ := map_eq_some_iff.1 one
    obtain ⟨j, found', rfl⟩ := map_eq_some_iff.1 two
    obtain ⟨position, at_position, -⟩ := List.idxOf?_eq_some_iff.1 found
    obtain ⟨position', at_position', first⟩ := List.idxOf?_eq_some_iff.1 found'
    have unique : (m.wholeFreezing key).functionIds.Nodup := keys_nodup m.functions
    have same : (m.wholeFreezing key).functionIds.idxOf function = j := by
      have := unique.idxOf_getElem j position'
      rw [at_position'] at this
      exact this
    simp [closureRenumbering, getElem?_eq_getElem position, at_position, same]

section

variable {f g : Freezing} {r : Renumbering} (renumbers : Renumbers r f g)

include renumbers

theorem freezeOperation_renumbered {entry : Node P} {one two : Option (StaticOperation P)}
    (left : freezeOperation f .portable entry = some one)
    (right : freezeOperation g .portable entry = some two) :
    two = one.map fun operation => { operation with operand := operation.operand.map r.node } := by
  simp only [freezeOperation, reduceCtorEq, false_and, if_false] at left right
  rcases optionMapM_cases _ left with ⟨empty, rfl⟩ | ⟨operation, first, computes, made, rfl⟩
  · rw [empty] at right
    exact (some.inj right).symm
  rw [computes] at right
  rcases optionMapM_cases _ right with ⟨empty, -⟩ | ⟨_, second, same, made', rfl⟩
  · cases empty
  cases same
  obtain ⟨operand, reads, rfl⟩ := map_eq_some_iff.1 made
  obtain ⟨operand', reads', rfl⟩ := map_eq_some_iff.1 made'
  rcases optionMapM_cases _ reads with ⟨empty, rfl⟩ | ⟨node, a, names, one, rfl⟩
  · rw [empty] at reads'
    cases reads'
    rfl
  · rw [names] at reads'
    rcases optionMapM_cases _ reads' with ⟨empty, -⟩ | ⟨_, b, same, two, rfl⟩
    · cases empty
    cases same
    simp [renumbers.node_some one two]

theorem freezeNode_renumbered {node : NodeId}
    (foreign : ∀ entry value, m.nodes.get node = some entry →
      entry.value = some value → value.ForeignTo r.key) {one two : StaticNode P}
    (left : m.freezeNode f .portable node = some one)
    (right : m.freezeNode g .portable node = some two) : r.SameNode one two := by
  obtain ⟨entry, found, left⟩ := bind_eq_some_iff.1 left
  obtain ⟨operation, computes, left⟩ := bind_eq_some_iff.1 left
  obtain ⟨equality, -, left⟩ := bind_eq_some_iff.1 left
  obtain ⟨value, holds, left⟩ := bind_eq_some_iff.1 left
  obtain ⟨entry', found', right⟩ := bind_eq_some_iff.1 right
  obtain ⟨operation', computes', right⟩ := bind_eq_some_iff.1 right
  obtain ⟨equality', -, right⟩ := bind_eq_some_iff.1 right
  obtain ⟨value', holds', right⟩ := bind_eq_some_iff.1 right
  cases left
  cases right
  cases found.symm.trans found'
  refine ⟨?_, rfl, freezeOperation_renumbered renumbers computes computes', rfl, rfl⟩
  rcases optionMapM_cases _ holds with ⟨empty, rfl⟩ | ⟨source, a, held, made, rfl⟩
  · rw [empty] at holds'
    cases holds'
    exact .none
  · rw [held] at holds'
    rcases optionMapM_cases _ holds' with ⟨empty, -⟩ | ⟨_, b, same, made', rfl⟩
    · cases empty
    cases same
    exact .some (renumbers.value (foreign entry source found held) made made')

theorem mapM_node_renumbered {nodes : List NodeId} {one two : List LocalNodeId}
    (left : nodes.mapM f.node = some one) (right : nodes.mapM g.node = some two) :
    two = one.map r.node := by
  induction nodes generalizing one two with
  | nil =>
    obtain rfl : one = [] := by simpa using left.symm
    obtain rfl : two = [] := by simpa using right.symm
    rfl
  | cons node nodes ih =>
    rw [mapM_cons] at left right
    obtain ⟨a, head, left⟩ := bind_eq_some_iff.1 left
    obtain ⟨as, tail, left⟩ := bind_eq_some_iff.1 left
    obtain ⟨b, head', right⟩ := bind_eq_some_iff.1 right
    obtain ⟨bs, tail', right⟩ := bind_eq_some_iff.1 right
    rw [← some.inj left, ← some.inj right, ih tail tail',
      renumbers.node_some head head']
    rfl

/-- One source function, filed by two freezes: the two agree exactly when the first files the
return type the second does. -/
theorem freezeFunction_renumbered (part : ∀ node ∈ f.nodeIds, node ∈ g.nodeIds)
    {function : FunctionId} {template : Function}
    (found : m.functions.get function = some template) {one two : StaticFunction}
    (left : m.freezeFunction f function = some one)
    (right : m.freezeFunction g function = some two) :
    r.SameFunction one two ↔ (template.returnType ∈ g.nodeIds → template.returnType ∈ f.nodeIds) := by
  simp only [freezeFunction, found, bind_eq_bind, bind_some] at left right
  obtain ⟨parameter, firstParameter, left⟩ := bind_eq_some_iff.1 left
  obtain ⟨result, firstResult, left⟩ := bind_eq_some_iff.1 left
  obtain ⟨asserts, firstAsserts, left⟩ := bind_eq_some_iff.1 left
  obtain ⟨nodes, firstNodes, left⟩ := bind_eq_some_iff.1 left
  obtain ⟨parameter', secondParameter, right⟩ := bind_eq_some_iff.1 right
  obtain ⟨result', secondResult, right⟩ := bind_eq_some_iff.1 right
  obtain ⟨asserts', secondAsserts, right⟩ := bind_eq_some_iff.1 right
  obtain ⟨nodes', secondNodes, right⟩ := bind_eq_some_iff.1 right
  cases left
  cases right
  have same : r.SameFunction
      { parameter, «return» := result, returnType := (f.node template.returnType).getD result,
        origin := template.staticOrigin, asserts, nodes, openCaptures := false,
        parent := template.parent.bind f.function }
      { parameter := parameter', «return» := result',
        returnType := (g.node template.returnType).getD result', origin := template.staticOrigin,
        asserts := asserts', nodes := nodes', openCaptures := false,
        parent := template.parent.bind g.function } ↔
      (g.node template.returnType).getD result' = r.node ((f.node template.returnType).getD result) :=
    ⟨fun same => same.returnType, fun returnType =>
      ⟨renumbers.node_some firstParameter secondParameter,
        renumbers.node_some firstResult secondResult, returnType,
        mapM_node_renumbered renumbers firstAsserts secondAsserts,
        mapM_node_renumbered renumbers firstNodes secondNodes⟩⟩
  rw [same]
  by_cases inside : template.returnType ∈ f.nodeIds
  · refine iff_of_true ?_ fun _ => inside
    rw [f.node_of_mem inside, g.node_of_mem (part _ inside), getD_some, getD_some,
      renumbers.node _ inside]
  have missing : f.node template.returnType = none := by
    rw [← not_isSome_iff_eq_none, f.node_isSome_iff]
    exact inside
  by_cases live : template.returnType ∈ g.nodeIds
  · -- the fallback names the return node, which is another one
    refine iff_of_false ?_ fun held => inside (held live)
    rw [g.node_of_mem live, missing, getD_some, getD_none,
      ← renumbers.node_some firstResult secondResult, node_eq secondResult]
    intro aliased
    have other := g.image_injective live (mem_of_node secondResult) aliased
    exact inside (other ▸ mem_of_node firstResult)
  · refine iff_of_true ?_ fun held => absurd held live
    have unset : g.node template.returnType = none := by
      rw [← not_isSome_iff_eq_none, g.node_isSome_iff]
      exact live
    rw [unset, missing, getD_none, getD_none]
    exact renumbers.node_some firstResult secondResult

end

theorem sameFunction_made {r : Renumbering} {one two made made' : StaticFunction}
    (first : one = { made with openCaptures := one.openCaptures })
    (second : two = { made' with openCaptures := two.openCaptures }) :
    r.SameFunction one two ↔ r.SameFunction made made' := by
  rw [first, second]
  exact ⟨fun same => ⟨same.parameter, same.result, same.returnType, same.asserts, same.nodes⟩,
    fun same => ⟨same.parameter, same.result, same.returnType, same.asserts, same.nodes⟩⟩

theorem closure_part_whole : ∀ node ∈ (m.closureFreezing key roots).nodeIds,
    node ∈ (m.wholeFreezing key).nodeIds :=
  fun node filed => (mem_keys _ _).2 (closureFreezing_live key roots node filed)

theorem closure_classes (formed : WellFormed m.nodes) {part : StaticModule P}
    (frozen : Frozen m (m.closureFreezing key roots) .portable part) {a : NodeId}
    (filed : a ∈ (m.closureFreezing key roots).nodeIds) (undecided : m.nodeValue (.dynamic a) = none) :
    m.classRoot a ∈ (m.closureFreezing key roots).nodeIds ∧
      part.find ((m.closureFreezing key roots).image a) =
        (m.closureFreezing key roots).image (m.classRoot a) := by
  have inside := (mem_closureFreezing key roots a).1 filed
  obtain ⟨entry, found⟩ := (containsKey_eq_true _ _).1 inside.live
  have empty : entry.value = none := by simpa [Module.nodeValue, found] using undecided
  obtain ⟨root, rest, cls, member⟩ := formed a (by simp [links, found])
  have whole : ∀ other ∈ root :: rest, other ∈ (m.closureFreezing key roots).nodeIds := by
    intro other mem
    refine (mem_closureFreezing key roots other).2 (.edge inside (.cls entry found empty ?_) ?_)
    · rwa [classRoot_eq cls member, membersOf_eq cls]
    · rw [← links_isSome]
      exact cls.live other mem
  have image := frozen.class_image formed (closureFreezing_nodup key roots)
    (closureFreezing_live key roots) cls whole
  have bound : rest.length < part.nodes.length := by
    have fits := (subperm_of_subset cls.distinct whole).length_le
    rw [frozen.length]
    exact fits
  rw [classRoot_eq cls member]
  refine ⟨whole root cls.root_mem, ?_⟩
  exact climb_mono part.nodes _ _ _ _ image.rooted
    (image.climbs _ (by rw [← map_cons]; exact mem_map_of_mem member))
    (by rw [length_map]; omega)

end Agreement

/-- The freeze of a closure files a part of what the whole freeze files exactly when the closure
covers what its nodes and functions name. -/
theorem freezesAsPart_iff {m : Module P} (formed : WellFormed m.nodes) {key : ModuleKey}
    (fresh : key ∉ m.referencedKeys) (roots : List NodeId) :
    m.FreezesAsPart key roots ↔ m.ClosureCovers roots := by
  have renumbers : Freezing.Renumbers (m.closureRenumbering key roots) (m.closureFreezing key roots)
      (m.wholeFreezing key) := closureRenumbering_renumbers
  constructor
  · rintro ⟨part, whole, froze, frozeWhole, same⟩
    obtain ⟨references, tails⟩ := (fromModule_isSome_iff formed key).1 (by rw [frozeWhole]; rfl)
    refine ⟨references, tails, (freezeClosure_isSome_iff formed key roots references).1
      (by rw [froze]; rfl), fun function template held found live => ?_⟩
    have frozen : Frozen m (m.closureFreezing key roots) .portable part := freezeSet_frozen froze
    have frozenWhole : Frozen m (m.wholeFreezing key) .portable whole := freezeSet_frozen frozeWhole
    have filed := (mem_closureFreezing_function key roots function).2 held
    obtain ⟨one, made, at_index, first, shape⟩ := frozen.function_image filed
    obtain ⟨two, at_image, agree⟩ := same.function _ _ at_index
    have filedWhole : function ∈ (m.wholeFreezing key).functionIds :=
      (mem_keys _ _).2 (by simp [containsKey, found])
    obtain ⟨two', made', at_image', second, shape'⟩ := frozenWhole.function_image filedWhole
    have sameIndex : ((m.closureRenumbering key roots).function
        ⟨(m.closureFreezing key roots).functionIds.idxOf function⟩).index =
        (m.wholeFreezing key).functionIds.idxOf function := by
      have position := idxOf_lt_length_of_mem filed
      simp [closureRenumbering, getElem?_eq_getElem position, getElem_idxOf position]
    rw [sameIndex, at_image'] at at_image
    cases at_image
    have agreed := (freezeFunction_renumbered renumbers closure_part_whole found first second).1
      ((sameFunction_made shape shape').1 agree)
    exact (mem_closureFreezing key roots _).1 (agreed ((mem_keys _ _).2 live))
  · intro covers
    obtain ⟨whole, frozeWhole⟩ := isSome_iff_exists.1
      ((fromModule_isSome_iff formed key).2 ⟨covers.references, covers.tails⟩)
    obtain ⟨part, froze⟩ := isSome_iff_exists.1
      ((freezeClosure_isSome_iff formed key roots covers.references).2 covers.classTails)
    have frozen : Frozen m (m.closureFreezing key roots) .portable part := freezeSet_frozen froze
    have frozenWhole : Frozen m (m.wholeFreezing key) .portable whole := freezeSet_frozen frozeWhole
    refine ⟨part, whole, froze, frozeWhole, ?_, ?_, ?_, ?_⟩
    · intro index one at_index
      rw [frozen.node index] at at_index
      obtain ⟨node, filed, first⟩ := bind_eq_some_iff.1 at_index
      obtain ⟨two, at_image, second⟩ := frozenWhole.node_image
        (closure_part_whole node (mem_of_getElem? filed))
      refine ⟨two, by simpa [closureRenumbering, filed] using at_image,
        freezeNode_renumbered renumbers (fun entry value found held names => ?_) first second⟩
      refine fresh (mem_append_left _ (mem_flatMap.2 ⟨node, ?_, ?_⟩))
      · exact (mem_keys _ _).2 (by simp [containsKey, found])
      · rw [found, bind_some, held]
        exact names
    · intro i j left right same
      rw [frozen.length] at left right
      simp only [closureRenumbering, getElem?_eq_getElem left,
        getElem?_eq_getElem right] at same
      have node := (m.wholeFreezing key).image_injective
        (closure_part_whole _ (getElem_mem left)) (closure_part_whole _ (getElem_mem right))
        same
      exact (List.Nodup.getElem_inj_iff (closureFreezing_nodup key roots)).1 node
    · intro index one at_index
      obtain ⟨function, made, filed, first, shape⟩ := frozen.function index one at_index
      obtain ⟨node, entry, template, inside, holds, held⟩ :=
        (mem_closureFreezing_function key roots function).1 (mem_of_getElem? filed)
      have found := heldTemplate_get held
      have listed : function ∈ (m.wholeFreezing key).functionIds :=
        (mem_keys _ _).2 (by simp [containsKey, found])
      obtain ⟨two, made', at_image, second, shape'⟩ := frozenWhole.function_image listed
      have index' : ((m.closureRenumbering key roots).function ⟨index⟩).index =
          (m.wholeFreezing key).functionIds.idxOf function := by simp [closureRenumbering, filed]
      refine ⟨two, by rw [index', at_image],
        (sameFunction_made shape shape').2
          ((freezeFunction_renumbered renumbers closure_part_whole found first second).2 ?_)⟩
      intro live
      exact (mem_closureFreezing key roots _).2 (covers.returnTypes function template
        ⟨node, entry, template, inside, holds, held⟩ found ((mem_keys _ _).1 live))
    · intro a b filedA filedB undecidedA undecidedB
      obtain ⟨rootA, findA⟩ := closure_classes formed frozen filedA undecidedA
      obtain ⟨rootB, findB⟩ := closure_classes formed frozen filedB undecidedB
      rw [findA, findB]
      exact ⟨fun same => (m.closureFreezing key roots).image_injective rootA rootB same,
        fun same => by rw [same]⟩

end Module

/-- A parameter, a return node, a type cell, and a node that holds the function made of them. -/
def holderNodes : List (Op plain) :=
  [.addBlock none, .addNode ⟨1⟩ none none, .addNode ⟨1⟩ none none, .addNode ⟨1⟩ none none,
    .addNode ⟨1⟩ none (some (.low (.function (.dynamic ⟨1⟩))))]

/-- The function lists its parameter and its return node, and not the cell of its return type. -/
def unlistedReturnType : Module plain :=
  { (Reaches.runAll (fun m op => op.keepsTree m) holderNodes {}).getD {} with
    functions := ⟨[some { «return» := ⟨2⟩, parameter := ⟨1⟩, returnType := ⟨3⟩,
                          nodes := [⟨1⟩, ⟨2⟩], block := ⟨1⟩ }]⟩ }

theorem unlistedReturnType_formed : WellFormed unlistedReturnType.nodes := by
  obtain ⟨m, ran⟩ := isSome_iff_exists.1
    (by decide : (Reaches.runAll (fun m op => op.keepsTree m) holderNodes
      ({} : Module plain)).isSome)
  have reached := (Reaches.of_runAll holderNodes (.start {}) ran).consistent fun _ _ tree => tree
  have same : unlistedReturnType.nodes = m.nodes := by simp [unlistedReturnType, ran]
  rw [same]
  exact reached.formed

/-- The closure's artifact names the return node where the whole one names the type cell. -/
theorem unlistedReturnType_substitutes : (unlistedReturnType.fromModule ⟨7⟩).isSome ∧
    (unlistedReturnType.freezeClosure ⟨7⟩ [⟨4⟩] .portable).isSome ∧
    ¬ unlistedReturnType.FreezesAsPart ⟨7⟩ [⟨4⟩] := by
  refine ⟨by decide, by decide, ?_⟩
  rintro ⟨part, whole, froze, frozeWhole, same⟩
  have read : ∀ {α : Type} (f : StaticModule plain → α) (value : α),
      (unlistedReturnType.freezeClosure ⟨7⟩ [⟨4⟩] .portable).map f = some value → f part = value := by
    intro α f value held
    rw [froze] at held
    exact some.inj held
  have readWhole : ∀ {α : Type} (f : StaticModule plain → α) (value : α),
      (unlistedReturnType.fromModule ⟨7⟩).map f = some value → f whole = value := by
    intro α f value held
    rw [frozeWhole] at held
    exact some.inj held
  have one := read (fun part => part.functions[0]?.map StaticFunction.returnType) (some ⟨1⟩) (by decide)
  have two := readWhole (fun whole => whole.functions[0]?.map StaticFunction.returnType) (some ⟨2⟩)
    (by decide)
  obtain ⟨first, at_index, returnType⟩ := map_eq_some_iff.1 one
  obtain ⟨second, at_index', returnType'⟩ := map_eq_some_iff.1 two
  obtain ⟨other, at_image, agree⟩ := same.function 0 first at_index
  have index : (unlistedReturnType.closureRenumbering ⟨7⟩ [⟨4⟩]).function ⟨0⟩ = ⟨0⟩ := by decide
  have node : (unlistedReturnType.closureRenumbering ⟨7⟩ [⟨4⟩]).node ⟨1⟩ = ⟨1⟩ := by decide
  rw [index, at_index'] at at_image
  cases at_image
  have named := agree.returnType
  rw [returnType, returnType', node] at named
  cases named

theorem unlistedReturnType_part_iff : unlistedReturnType.FreezesAsPart ⟨7⟩ [⟨4⟩] ↔
    unlistedReturnType.ClosureCovers [⟨4⟩] :=
  Module.freezesAsPart_iff unlistedReturnType_formed (by decide) [⟨4⟩]

end LichenVm
