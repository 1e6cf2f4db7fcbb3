import LichenVm.ClassFrames
import LichenVm.Freeze
import LichenVm.Traverse

open List Option

namespace LichenVm

open DisjointSet Traverse StaticModule

variable {P : Program}

namespace Freezing

/-- The frozen node of a filed node. -/
def image (f : Freezing) (node : NodeId) : LocalNodeId := ⟨f.nodeIds.idxOf node⟩

theorem idxOf?_of_mem {α : Type} [DecidableEq α] {items : List α} {item : α}
    (member : item ∈ items) : items.idxOf? item = some (items.idxOf item) := by
  rw [List.idxOf?_eq_some_iff]
  refine ⟨idxOf_lt_length_of_mem member, getElem_idxOf _, fun before earlier => ?_⟩
  simpa using not_of_lt_findIdx earlier

variable {node : NodeId}

theorem node_of_mem (f : Freezing) (filed : node ∈ f.nodeIds) :
    f.node node = some (f.image node) := by
  simp [Freezing.node, image, idxOf?_of_mem filed]

variable {f : Freezing}

theorem mem_of_node {index : LocalNodeId}
    (found : f.node node = some index) : node ∈ f.nodeIds := by
  obtain ⟨position, at_position, -⟩ := map_eq_some_iff.1 found
  rw [← isSome_idxOf?, at_position]
  rfl

theorem image_injective (f : Freezing) {a b : NodeId} (left : a ∈ f.nodeIds) (right : b ∈ f.nodeIds)
    (same : f.image a = f.image b) : a = b := by
  have position : f.nodeIds.idxOf a = f.nodeIds.idxOf b := congrArg LocalNodeId.index same
  exact (idxOf_inj left).1 position

theorem node_eq {index : LocalNodeId}
    (found : f.node node = some index) : index = f.image node := by
  rw [f.node_of_mem (mem_of_node found)] at found
  exact (some.inj found).symm

theorem optionMapM_node {node : Option NodeId} {index : Option LocalNodeId}
    (found : node.mapM f.node = some index) : index = node.map f.image := by
  cases node with
  | none => exact (some.inj found).symm
  | some node =>
    obtain ⟨index', held, same⟩ := map_eq_some_iff.1
      (show (f.node node).map some = some index from found)
    rw [← same, node_eq held]
    rfl

theorem remapMeta_eq {links : Meta NodeId} {out : Meta LocalNodeId}
    (remapped : f.remapMeta links = some out) : out = links.map f.image := by
  obtain ⟨parent, up, remapped⟩ := bind_eq_some_iff.1 remapped
  obtain ⟨next, behind, remapped⟩ := bind_eq_some_iff.1 remapped
  obtain ⟨tail, last, remapped⟩ := bind_eq_some_iff.1 remapped
  rw [← some.inj remapped, optionMapM_node up, optionMapM_node behind, optionMapM_node last]
  rfl

theorem remapMeta_of_filed (f : Freezing) (links : Meta NodeId)
    (parent : ∀ up, links.parent = some up → up ∈ f.nodeIds)
    (next : ∀ behind, links.next = some behind → behind ∈ f.nodeIds)
    (tail : ∀ last, links.tail = some last → last ∈ f.nodeIds) :
    f.remapMeta links = some (links.map f.image) := by
  simp only [remapMeta]
  rw [optionMapM_eq_map f.node f.image _ fun up held => f.node_of_mem (parent up held),
    optionMapM_eq_map f.node f.image _ fun behind held => f.node_of_mem (next behind held),
    optionMapM_eq_map f.node f.image _ fun last held => f.node_of_mem (tail last held)]
  rfl

end Freezing

namespace Module

/-- What a freeze of `f`'s nodes and functions files. -/
structure Frozen (m : Module P) (f : Freezing) (mode : FreezeMode) (artifact : StaticModule P) :
    Prop where
  key : artifact.key = f.key
  length : artifact.nodes.length = f.nodeIds.length
  node : ∀ index : Nat, artifact.nodes[index]? = f.nodeIds[index]?.bind (m.freezeNode f mode)
  functions : artifact.functions.length = f.functionIds.length
  function : ∀ (index : Nat) entry, artifact.functions[index]? = some entry → ∃ function made,
    f.functionIds[index]? = some function ∧ m.freezeFunction f function = some made ∧
      entry = { made with openCaptures := entry.openCaptures }
  defaults : m.defaultAttributes.mapM f.staticArrayHandle = some artifact.defaultAttributes

variable {m : Module P} {nodeIds : List NodeId} {mode : FreezeMode} {artifact : StaticModule P}

theorem freezeSet_frozen {key : ModuleKey} {functionIds : List FunctionId}
    (froze : m.freezeSet key nodeIds functionIds mode = some artifact) :
    Frozen m { key, nodeIds, functionIds, payloads := m.frozenPayloads nodeIds } mode artifact := by
  obtain ⟨nodes, filedNodes, froze⟩ := bind_eq_some_iff.1 froze
  obtain ⟨functions, filedFunctions, froze⟩ := bind_eq_some_iff.1 froze
  obtain ⟨defaults, filedDefaults, froze⟩ := bind_eq_some_iff.1 froze
  cases froze
  have count : functions.length = functionIds.length := length_of_mapM _ _ _ filedFunctions
  refine ⟨rfl, length_of_mapM _ _ _ filedNodes, getElem?_of_mapM _ _ _ filedNodes, ?_, ?_,
    filedDefaults⟩
  · simpa [fillScopeSummaries, fillOpenCaptures] using count
  intro index entry found
  simp only [fillScopeSummaries, fillOpenCaptures] at found
  rw [getElem?_map] at found
  obtain ⟨made, filed, rfl⟩ := map_eq_some_iff.1 found
  rw [getElem?_of_mapM _ _ _ filedFunctions] at filed
  obtain ⟨function, at_index, froze⟩ := bind_eq_some_iff.1 filed
  exact ⟨function, made, at_index, froze, rfl⟩

variable {f : Freezing} {node : NodeId}

theorem Frozen.node_image (frozen : Frozen m f mode artifact) (filed : node ∈ f.nodeIds) :
    ∃ entry, artifact.nodes[(f.image node).index]? = some entry ∧
      m.freezeNode f mode node = some entry := by
  have position := idxOf_lt_length_of_mem filed
  have found := frozen.node (f.image node).index
  rw [Freezing.image, getElem?_eq_getElem position, getElem_idxOf position, bind_some] at found
  have inside : f.nodeIds.idxOf node < artifact.nodes.length := by
    rw [frozen.length]
    exact position
  rw [getElem?_eq_getElem inside] at found
  exact ⟨_, getElem?_eq_getElem inside, found.symm⟩

theorem Frozen.function_image (frozen : Frozen m f mode artifact) {function : FunctionId}
    (filed : function ∈ f.functionIds) :
    ∃ entry made, artifact.functions[f.functionIds.idxOf function]? = some entry ∧
      m.freezeFunction f function = some made ∧
      entry = { made with openCaptures := entry.openCaptures } := by
  have position := idxOf_lt_length_of_mem filed
  have inside : f.functionIds.idxOf function < artifact.functions.length := by
    rw [frozen.functions]
    exact position
  obtain ⟨other, made, found, froze, same⟩ :=
    frozen.function _ _ (getElem?_eq_getElem inside)
  rw [getElem?_eq_getElem position, getElem_idxOf position] at found
  cases found
  exact ⟨_, made, getElem?_eq_getElem inside, froze, same⟩

variable {root : NodeId} {rest : List NodeId}

section

variable (formed : WellFormed m.nodes) (distinct : nodeIds.Nodup)
  (live : ∀ node ∈ nodeIds, m.nodes.containsKey node) (cls : IsClass m.nodes root rest)

include formed distinct live cls

theorem frozenMembers_length (filed : ∀ member ∈ root :: rest, member ∈ nodeIds) :
    (m.frozenMembers nodeIds root).length = rest.length + 1 := by
  have same : (m.frozenMembers nodeIds root).Perm (root :: rest) := by
    simp only [frozenMembers]
    rw [perm_ext_iff_of_nodup (distinct.filter _) cls.distinct]
    intro node
    simp only [mem_filter, decide_eq_true_eq]
    constructor
    · rintro ⟨inside, named⟩
      obtain ⟨top, behind, other, member⟩ := formed node (by rw [links_isSome, live node inside])
      obtain rfl := (classRoot_eq other member).symm.trans named
      obtain ⟨-, rfl⟩ := other.unique cls other.root_mem cls.root_mem
      exact member
    · exact fun member => ⟨filed node member, classRoot_eq cls member⟩
  rw [same.length_eq, length_cons]

theorem filed_of_count (count : (m.frozenMembers nodeIds root).length = sizeOf m.nodes root) :
    ∀ member ∈ root :: rest, member ∈ nodeIds := by
  have inside : m.frozenMembers nodeIds root ⊆ root :: rest := by
    intro node filed
    simp only [frozenMembers, mem_filter, decide_eq_true_eq] at filed
    obtain ⟨top, behind, other, member⟩ := formed node (by rw [links_isSome, live node filed.1])
    obtain rfl := (classRoot_eq other member).symm.trans filed.2
    obtain ⟨-, rfl⟩ := other.unique cls other.root_mem cls.root_mem
    exact member
  have part : (m.frozenMembers nodeIds root).Subperm (root :: rest) :=
    subperm_of_subset (distinct.filter _) inside
  have same := part.perm_of_length_le (by rw [count, cls.size, length_cons])
  intro member mem
  exact (mem_filter.1 (same.symm.subset mem)).1

theorem frozenLinks_of_whole (filed : ∀ member ∈ root :: rest, member ∈ nodeIds)
    (member : node ∈ root :: rest) (own : Meta NodeId) : m.frozenLinks nodeIds node own = own := by
  simp only [frozenLinks]
  rw [classRoot_eq cls member, frozenMembers_length formed distinct live cls filed, cls.size, if_pos rfl]

end

theorem remapMeta_of_whole (formed : WellFormed m.nodes) (tails : TailsInside m.nodes) (distinct :
    f.nodeIds.Nodup)
    (live : ∀ node ∈ f.nodeIds, m.nodes.containsKey node) (cls : IsClass m.nodes root rest)
    (filed : ∀ member ∈ root :: rest, member ∈ f.nodeIds) {entry : Node P}
    (member : node ∈ root :: rest) (found : m.nodes.get node = some entry) :
    f.remapMeta (m.frozenLinks f.nodeIds node entry.equality) = some (entry.equality.map f.image) := by
  rw [frozenLinks_of_whole formed distinct live cls filed member]
  have held : links m.nodes node = some entry.equality := by simp [links, found]
  apply f.remapMeta_of_filed
  · intro up parent
    exact filed up (cls.inside node member up (by rw [parentOf, held]; exact parent))
  · intro behind next
    exact filed behind (cls.linked.next_mem member (by rw [nextOf, held]; exact next))
  · intro last tail
    exact filed last (tails root rest cls node member last (by rw [tailOf, held]; exact tail))

theorem Frozen.class_image (frozen : Frozen m f mode artifact) (formed : WellFormed m.nodes)
    (distinct : f.nodeIds.Nodup) (live : ∀ node ∈ f.nodeIds, m.nodes.containsKey node)
    (cls : IsClass m.nodes root rest)
    (filed : ∀ member ∈ root :: rest, member ∈ f.nodeIds) :
    IsClass artifact.nodes (f.image root) (rest.map f.image) := by
  refine cls.image f.image (fun a left b right => f.image_injective (filed a left) (filed b right)) ?_
  intro key member
  obtain ⟨entry, found, froze⟩ := frozen.node_image (filed key member)
  obtain ⟨source, held, froze⟩ := bind_eq_some_iff.1 froze
  obtain ⟨operation, -, froze⟩ := bind_eq_some_iff.1 froze
  obtain ⟨equality, remapped, froze⟩ := bind_eq_some_iff.1 froze
  obtain ⟨value, -, froze⟩ := bind_eq_some_iff.1 froze
  cases froze
  rw [frozenLinks_of_whole formed distinct live cls filed member] at remapped
  obtain rfl := Freezing.remapMeta_eq remapped
  simp [links, found, held]

end Module

end LichenVm
