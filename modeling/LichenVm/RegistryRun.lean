import LichenVm.FreezeFrames
import LichenVm.Registry

open List Option

namespace LichenVm

open Traverse

variable {P : Program}

namespace Freezing

variable {f : Freezing} {key : ModuleKey}

theorem rewriteNodeRef_module {ref image : AnyNodeId} (rewrote : f.rewriteNodeRef ref = some image)
    (names : image.module? = some key) : key = f.key ∨ ref.module? = some key := by
  cases ref with
  | dynamic node =>
    obtain ⟨index, -, rfl⟩ := map_eq_some_iff.1 rewrote
    exact Or.inl (some.inj names).symm
  | static sref =>
    cases rewrote
    exact Or.inr names

theorem rewriteHandle_spec {α : Type} {rewrite : α → Option α} {handle : Handle α}
    {image : StaticHandle α} (rewrote : f.rewriteHandle rewrite handle = some image) :
    image.module = f.key ∧ handle.items.mapM rewrite = some image.items := by
  obtain ⟨offset, -, rewrote⟩ := bind_eq_some_iff.1 rewrote
  obtain ⟨items, ran, rewrote⟩ := bind_eq_some_iff.1 rewrote
  cases rewrote
  exact ⟨rfl, ran⟩

theorem staticArrayHandle_keys {handle : AnyHandle ArrayItem}
    {image : StaticHandle ArrayItem} (rewrote : f.staticArrayHandle handle = some image) (names :
    key ∈ arrayReferencedKeys (.static image)) :
    key = f.key ∨ key ∈ arrayReferencedKeys handle := by
  cases handle with
  | static handle =>
    cases rewrote
    exact Or.inr names
  | dynamic handle =>
    obtain ⟨home, ran⟩ := rewriteHandle_spec rewrote
    rcases mem_append.1 names with own | inside
    · exact Or.inl (by simpa [AnyHandle.module?, home] using own)
    · obtain ⟨item, member, at_item⟩ := mem_filterMap.1 inside
      obtain ⟨source, member', rewritten⟩ := exists_of_mem_mapM _ _ _ ran item member
      obtain ⟨node, moved, rfl⟩ := map_eq_some_iff.1 rewritten
      refine (rewriteNodeRef_module moved at_item).imp_right fun named => ?_
      exact mem_append_right _ (mem_filterMap.2 ⟨source, member', named⟩)

theorem rewriteTable_keys {handle : Handle TableItem} {image : StaticHandle TableItem}
    (rewrote : f.rewriteHandle f.rewriteEntry handle = some image)
    (names : key ∈ tableReferencedKeys (.static image)) :
    key = f.key ∨ key ∈ tableReferencedKeys (.dynamic handle) := by
  obtain ⟨home, ran⟩ := rewriteHandle_spec rewrote
  rcases mem_append.1 names with own | inside
  · exact Or.inl (by simpa [AnyHandle.module?, home] using own)
  · obtain ⟨item, member, at_item⟩ := mem_flatMap.1 inside
    obtain ⟨source, member', rewritten⟩ := exists_of_mem_mapM _ _ _ ran item member
    obtain ⟨left, movedKey, rewritten⟩ := bind_eq_some_iff.1 rewritten
    obtain ⟨right, movedValue, rewritten⟩ := bind_eq_some_iff.1 rewritten
    cases rewritten
    have named : key = f.key ∨
        key ∈ source.key.module?.toList ++ source.value.module?.toList := by
      rcases mem_append.1 at_item with at_key | at_value
      · exact (rewriteNodeRef_module movedKey (mem_toList.1 at_key)).imp_right fun named =>
          mem_append_left _ (mem_toList.2 named)
      · exact (rewriteNodeRef_module movedValue (mem_toList.1 at_value)).imp_right fun named =>
          mem_append_right _ (mem_toList.2 named)
    exact named.imp_right fun named =>
      mem_append_right _ (mem_flatMap.2 ⟨source, member', named⟩)

/-- A rewritten value names the artifact's own key and what the source value names, and holds
no dynamic table. -/
theorem rewriteValue_keys {value image : Value P} (rewrote : f.rewriteValue value = some image) :
    (∀ key ∈ valueReferencedKeys image, key = f.key ∨ key ∈ valueReferencedKeys value) ∧
      ∀ handle, image ≠ .low (.table (.dynamic handle)) := by
  cases value with
  | low value =>
    cases value with
    | array array =>
      obtain ⟨handle, layout⟩ := array
      cases handle with
      | static handle =>
        cases rewrote
        exact ⟨fun key names => Or.inr names, nofun⟩
      | dynamic handle =>
        obtain ⟨image, moved, rfl⟩ := map_eq_some_iff.1 rewrote
        refine ⟨fun key names => ?_, nofun⟩
        have home : f.staticArrayHandle (.dynamic handle) = some image := moved
        exact staticArrayHandle_keys home names
    | table table =>
      cases table with
      | static handle =>
        cases rewrote
        exact ⟨fun key names => Or.inr names, nofun⟩
      | dynamic handle =>
        obtain ⟨image, moved, rfl⟩ := map_eq_some_iff.1 rewrote
        exact ⟨fun key names => rewriteTable_keys moved names, nofun⟩
    | function function =>
      cases function with
      | static sref =>
        cases rewrote
        exact ⟨fun key names => Or.inr names, nofun⟩
      | dynamic function =>
        obtain ⟨index, -, rfl⟩ := map_eq_some_iff.1 rewrote
        exact ⟨fun key names => Or.inl (mem_singleton.1 names), nofun⟩
    | _ =>
      cases rewrote
      exact ⟨fun key names => Or.inr names, nofun⟩
  | ext value =>
    simp only [rewriteValue] at rewrote
    split at rewrote
    · next handle carries =>
      obtain ⟨offset, -, rfl⟩ := map_eq_some_iff.1 rewrote
      refine ⟨fun key names => Or.inl ?_, nofun⟩
      simp only [valueReferencedKeys, P.handle_setHandle value _ _ carries] at names
      simpa [AnyHandle.module?] using names
    · cases rewrote
      exact ⟨fun key names => Or.inr names, nofun⟩

end Freezing

namespace StaticModule

/-- Every module key that reading the artifact can reach in one step: through its values'
handles and items, the functions and ext payloads they name, the default attribute array, and
the originals its functions re-export. -/
def readKeys (home : StaticModule P) : List ModuleKey :=
  (home.nodes.flatMap fun node => (node.value.map valueReferencedKeys).getD []) ++
    (home.defaultAttributes.map fun handle => arrayReferencedKeys (.static handle)).getD [] ++
    home.functions.filterMap fun function => function.origin.map StaticFunctionRef.module

/-- No node of the artifact holds a table of a dynamic module. -/
def TablesFrozen (home : StaticModule P) : Prop :=
  ∀ node ∈ home.nodes, ∀ handle, node.value ≠ some (.low (.table (.dynamic handle)))

/-- The recorded references of an artifact cover what reading it reaches, but for the origins. -/
theorem readKeys_referenced {home : StaticModule P} (frozen : home.TablesFrozen) {key : ModuleKey}
    (reads : key ∈ home.readKeys) : key ∈ home.referencedKeys ∨
      ∃ function ∈ home.functions, ∃ origin, function.origin = some origin ∧ origin.module = key := by
  rcases mem_append.1 reads with held | origins
  · refine Or.inl ?_
    rcases mem_append.1 held with values | attributes
    · refine mem_append_left _ ?_
      obtain ⟨node, member, names⟩ := mem_flatMap.1 values
      refine mem_flatMap.2 ⟨node, member, ?_⟩
      cases holds : node.value with
      | none => simp [holds] at names
      | some value =>
        rw [holds] at names
        split
        · next handle same =>
          exact absurd (by rw [holds]; exact same) (frozen node member handle)
        · next other _ same =>
          cases same
          exact names
        · next same => cases same
    · exact mem_append_right _ attributes
  · obtain ⟨function, member, names⟩ := mem_filterMap.1 origins
    obtain ⟨origin, at_origin, rfl⟩ := map_eq_some_iff.1 names
    exact Or.inr ⟨function, member, origin, at_origin, rfl⟩

end StaticModule

namespace Module

variable {m : Module P} {f : Freezing} {mode : FreezeMode}

theorem freezeNode_value {node : NodeId}
    {frozen : StaticNode P} (froze : m.freezeNode f mode node = some frozen) :
    ∃ entry, m.nodes.get node = some entry ∧ entry.value.mapM f.rewriteValue = some frozen.value := by
  obtain ⟨entry, found, froze⟩ := bind_eq_some_iff.1 froze
  obtain ⟨operation, -, froze⟩ := bind_eq_some_iff.1 froze
  obtain ⟨equality, -, froze⟩ := bind_eq_some_iff.1 froze
  obtain ⟨value, rewrote, froze⟩ := bind_eq_some_iff.1 froze
  cases froze
  exact ⟨entry, found, rewrote⟩

variable {artifact : StaticModule P}

section

variable (frozen : Frozen m f mode artifact)

include frozen

theorem Frozen.value {node : StaticNode P} (member : node ∈ artifact.nodes) {image : Value P}
    (holds : node.value = some image) :
    ∃ source entry value, source ∈ f.nodeIds ∧ m.nodes.get source = some entry ∧
      entry.value = some value ∧ f.rewriteValue value = some image := by
  obtain ⟨index, at_index⟩ := mem_iff_getElem?.1 member
  rw [frozen.node] at at_index
  obtain ⟨source, filed, froze⟩ := bind_eq_some_iff.1 at_index
  obtain ⟨entry, found, rewrote⟩ := freezeNode_value froze
  rw [holds] at rewrote
  cases held : entry.value with
  | none =>
    rw [held] at rewrote
    cases rewrote
  | some value =>
    rw [held] at rewrote
    refine ⟨source, entry, value, mem_of_getElem? filed, found, held, ?_⟩
    obtain ⟨moved, becomes, same⟩ := map_eq_some_iff.1 rewrote
    cases same
    exact becomes

theorem Frozen.tablesFrozen : artifact.TablesFrozen := by
  intro node member handle holds
  obtain ⟨_, _, _, -, -, -, rewrote⟩ := frozen.value member holds
  exact (Freezing.rewriteValue_keys rewrote).2 handle rfl

/-- Reading an artifact reaches its own key, what the filed nodes' values and the default
attributes name, and the origins of the filed functions. -/
theorem Frozen.readKeys {key : ModuleKey} (reads : key ∈ artifact.readKeys) :
    key = f.key ∨ key ∈ m.referencedKeysOf f.nodeIds ∨
      (∃ handle, m.defaultAttributes = some handle ∧ key ∈ arrayReferencedKeys handle) ∨
      ∃ function ∈ f.functionIds, ∃ entry origin, m.functions.get function = some entry ∧
        entry.staticOrigin = some origin ∧ origin.module = key := by
  rcases mem_append.1 reads with held | origins
  · rcases mem_append.1 held with values | attributes
    · obtain ⟨node, member, names⟩ := mem_flatMap.1 values
      cases holds : node.value with
      | none => simp [holds] at names
      | some image =>
        rw [holds] at names
        obtain ⟨source, entry, value, filed, found, held, rewrote⟩ := frozen.value member holds
        refine ((Freezing.rewriteValue_keys rewrote).1 key names).imp_right fun named => Or.inl ?_
        exact mem_flatMap.2 ⟨source, filed, by simpa [found, held] using named⟩
    · have rewrote := frozen.defaults
      cases default : m.defaultAttributes with
      | none =>
        rw [default] at rewrote
        obtain none' := some.inj rewrote
        simp [← none'] at attributes
      | some handle =>
        rw [default] at rewrote
        obtain ⟨image, rewrote, same⟩ := map_eq_some_iff.1 rewrote
        rw [← same] at attributes
        exact (Freezing.staticArrayHandle_keys rewrote attributes).imp_right fun named =>
          Or.inr (Or.inl ⟨handle, rfl, named⟩)
  · obtain ⟨function, member, names⟩ := mem_filterMap.1 origins
    obtain ⟨origin, at_origin, rfl⟩ := map_eq_some_iff.1 names
    obtain ⟨index, at_index⟩ := mem_iff_getElem?.1 member
    obtain ⟨source, made, filed, froze, same⟩ := frozen.function index function at_index
    obtain ⟨entry, found, froze⟩ := bind_eq_some_iff.1 froze
    refine Or.inr (Or.inr (Or.inr ⟨source, mem_of_getElem? filed, entry, origin, found, ?_, rfl⟩))
    obtain ⟨parameter, -, froze⟩ := bind_eq_some_iff.1 froze
    obtain ⟨result, -, froze⟩ := bind_eq_some_iff.1 froze
    obtain ⟨asserts, -, froze⟩ := bind_eq_some_iff.1 froze
    obtain ⟨nodes, -, froze⟩ := bind_eq_some_iff.1 froze
    cases froze
    rw [same] at at_origin
    exact at_origin

end

end Module

end LichenVm
