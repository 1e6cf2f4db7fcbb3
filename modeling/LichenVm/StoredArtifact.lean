import LichenVm.ArtifactRoundTrip
import LichenVm.FreezeLookups
import LichenVm.RegistryRun

/-! A portable freeze leaves an artifact that stands. -/

open List Option

namespace LichenVm

open ByteStream PrefixCode Traverse Program Freezing StaticModule

variable {P : Program}

/-- A static handle names another module's payload, and that module is supplied. -/
def StaticHandle.Supplied {α : Type} (kind : Payload → Option (List α)) (key : ModuleKey)
    (modules : Modules P) (handle : StaticHandle α) : Prop :=
  handle.module ≠ key ∧ ∃ home, modules handle.module = some home ∧
    (home.arena.payload handle.offset).bind kind = some handle.items

/-- What a value of the source must satisfy: what it has of other modules is supplied, and a
string's length fits its field. -/
def Value.Storable (key : ModuleKey) (modules : Modules P) : Value P → Prop
  | .low (.array ⟨.static handle, _⟩) => handle.Supplied Payload.items? key modules
  | .low (.table (.static handle)) => handle.Supplied Payload.entries? key modules
  | .low (.function (.static sref)) => sref.module ≠ key ∧ functionSupplied modules sref = true
  | .low (.str text) => (utf8 text).length < 2 ^ 32
  | .low _ => True
  | .ext value =>
    ∀ handle, P.handle value = some (.static handle) → handle.Supplied Payload.bytes? key modules

/-- A dynamic payload and the place it was written to. -/
def AnyHandle.laid {α : Type} (kind : List α → Payload) :
    AnyHandle α → Option ((BlockId × Nat) × Payload)
  | .dynamic handle => some ((handle.block, handle.address), kind handle.items)
  | .static _ => none

def Value.laid : Value P → Option ((BlockId × Nat) × Payload)
  | .low (.array array) => array.handle.laid .items
  | .low (.table table) => table.laid .entries
  | .low _ => none
  | .ext value => (P.handle value).bind (AnyHandle.laid .bytes)

/-- The payloads of the filed nodes and of the default attribute array, with their places. -/
def Module.laidPayloads (m : Module P) (nodeIds : List NodeId) :
    List ((BlockId × Nat) × Payload) :=
  (nodeIds.filterMap fun node => ((m.nodes.get node).bind Node.value).bind Value.laid) ++
    (m.defaultAttributes.bind (AnyHandle.laid .items)).toList

/-- What a module must satisfy for its freeze to be stored: a place holds one payload, what it
has of other modules is supplied, and its lexical parents form a forest. -/
structure Module.Storable (m : Module P) (key : ModuleKey) (nodeIds : List NodeId)
    (functionIds : List FunctionId) (modules : Modules P) : Prop where
  payloads : ∀ left ∈ m.laidPayloads nodeIds, ∀ right ∈ m.laidPayloads nodeIds,
    left.1 = right.1 → left.2 = right.2
  value : ∀ node ∈ nodeIds, ∀ entry value, m.nodes.get node = some entry →
    entry.value = some value → value.Storable key modules
  defaults : ∀ handle, m.defaultAttributes = some (.static handle) →
    handle.Supplied Payload.items? key modules
  parents : ∃ rank : FunctionId → Nat, ∀ function ∈ functionIds, ∀ entry parent,
    m.functions.get function = some entry → entry.parent = some parent → rank parent < rank function

namespace Freezing

/-- The frozen image of a payload. -/
def rewritePayload (f : Freezing) : Payload → Option Payload
  | .items items => (items.mapM f.rewriteItem).map .items
  | .entries entries => (entries.mapM f.rewriteEntry).map .entries
  | .bytes run => some (.bytes run)

/-- A payload placed by a freeze is the image of the one at its place. -/
structure Places (f : Freezing) (source : (BlockId × Nat) × Payload) (placed : Nat × Payload) :
    Prop where
  offset : f.payloads.idxOf? source.1 = some placed.1
  image : f.rewritePayload source.2 = some placed.2

variable {f : Freezing}

theorem rewriteHandle_places {α : Type} {rewrite : α → Option α} (kind : List α → Payload)
    (images : ∀ items, f.rewritePayload (kind items) = (items.mapM rewrite).map kind)
    {handle : Handle α} {image : StaticHandle α}
    (rewrote : f.rewriteHandle rewrite handle = some image) :
    image.module = f.key ∧
      f.Places ((handle.block, handle.address), kind handle.items) (image.offset, kind image.items) := by
  obtain ⟨offset, found, rewrote⟩ := bind_eq_some_iff.1 rewrote
  obtain ⟨items, ran, rewrote⟩ := bind_eq_some_iff.1 rewrote
  cases rewrote
  exact ⟨rfl, found, by rw [images, ran]; rfl⟩

theorem placed_static {α : Type} {key : ModuleKey} {kind : List α → Payload}
    {handle : StaticHandle α} {placed : Nat × Payload}
    (member : placed ∈ (AnyHandle.static handle).placed key kind) :
    handle.module = key ∧ placed = (handle.offset, kind handle.items) := by
  simp only [AnyHandle.placed] at member
  split at member
  · next home => exact ⟨home, mem_singleton.1 member⟩
  · cases member

variable {image : Value P}

theorem rewriteValue_ext {value : P.Ext} (rewrote : f.rewriteValue (.ext value) = some image) :
    (image = .ext value ∧ ∀ handle, P.handle value ≠ some (.dynamic handle)) ∨
      ∃ handle offset, P.handle value = some (.dynamic handle) ∧ f.offset handle = some offset ∧
        image = .ext (P.setHandle value
          (.static { module := f.key, offset, items := handle.items })) := by
  simp only [rewriteValue] at rewrote
  split at rewrote
  · next handle carries =>
    obtain ⟨offset, found, rfl⟩ := map_eq_some_iff.1 rewrote
    exact Or.inr ⟨handle, offset, carries, found, rfl⟩
  · next plain =>
    cases rewrote
    exact Or.inl ⟨rfl, plain⟩

/-- What a rewritten value places is the image of what the source value laid out. -/
theorem rewriteValue_places {modules : Modules P} {value : Value P}
    (storable : value.Storable f.key modules) (rewrote : f.rewriteValue value = some image)
    {placed : Nat × Payload} (member : placed ∈ image.placed f.key) :
    ∃ source, value.laid = some source ∧ f.Places source placed := by
  cases value with
  | low value =>
    cases value with
    | array array =>
      obtain ⟨handle, layout⟩ := array
      cases handle with
      | static handle =>
        cases rewrote
        exact absurd (placed_static member).1 storable.1
      | dynamic handle =>
        obtain ⟨image, moved, rfl⟩ := map_eq_some_iff.1 rewrote
        obtain ⟨-, rfl⟩ := placed_static member
        exact ⟨_, rfl, (rewriteHandle_places _ (fun _ => rfl) moved).2⟩
    | table table =>
      cases table with
      | static handle =>
        cases rewrote
        exact absurd (placed_static member).1 storable.1
      | dynamic handle =>
        obtain ⟨image, moved, rfl⟩ := map_eq_some_iff.1 rewrote
        obtain ⟨-, rfl⟩ := placed_static member
        exact ⟨_, rfl, (rewriteHandle_places _ (fun _ => rfl) moved).2⟩
    | function function =>
      cases function with
      | static sref =>
        cases rewrote
        cases member
      | dynamic function =>
        obtain ⟨index, -, rfl⟩ := map_eq_some_iff.1 rewrote
        cases member
    | _ =>
      cases rewrote
      cases member
  | ext value =>
    rcases rewriteValue_ext rewrote with ⟨rfl, plain⟩ | ⟨handle, offset, carries, found, rfl⟩
    · cases carries : P.handle value with
      | none => simp [Value.placed, carries] at member
      | some handle =>
        cases handle with
        | dynamic handle => exact absurd carries (plain handle)
        | static handle =>
          simp only [Value.placed, carries, map_some, getD_some] at member
          exact absurd (placed_static member).1 (storable handle carries).1
    · simp only [Value.placed, P.handle_setHandle value _ _ carries, map_some, getD_some] at member
      obtain ⟨-, rfl⟩ := placed_static member
      refine ⟨((handle.block, handle.address), .bytes handle.items), ?_, found, rfl⟩
      simp only [Value.laid, carries]
      rfl

/-- A rewritten value can be read back when the arena holds what it places. -/
theorem rewriteValue_readable {modules : Modules P} {arena : Arena}
    {value : Value P} (storable : value.Storable f.key modules)
    (rewrote : f.rewriteValue value = some image)
    (holds : ∀ placed ∈ image.placed f.key, arena.payload placed.1 = some placed.2)
    (own : ∀ index, index < f.functionIds.length →
      functionSupplied modules { module := f.key, index := ⟨index⟩ }) :
    image.Readable f.key arena modules := by
  have lies : ∀ {α : Type} {kind : Payload → Option (List α)} {wrap : List α → Payload}
      {handle : StaticHandle α}, (∀ items, kind (wrap items) = some items) → handle.module = f.key →
      arena.payload handle.offset = some (wrap handle.items) →
      handle.Lies kind f.key arena modules := by
    intro α kind wrap handle unwraps home found
    exact ⟨arena, if_pos home, by rw [found]; exact unwraps _⟩
  have elsewhere : ∀ {α : Type} {kind : Payload → Option (List α)} {handle : StaticHandle α},
      handle.Supplied kind f.key modules → handle.Lies kind f.key arena modules := by
    rintro α kind handle ⟨apart, home, found, payload⟩
    exact ⟨home.arena, by rw [if_neg apart, found]; rfl, payload⟩
  cases value with
  | low value =>
    cases value with
    | array array =>
      obtain ⟨handle, layout⟩ := array
      cases handle with
      | static handle =>
        cases rewrote
        exact elsewhere storable
      | dynamic handle =>
        obtain ⟨image, moved, rfl⟩ := map_eq_some_iff.1 rewrote
        have home := (rewriteHandle_places .items (fun _ => rfl) moved).1
        refine lies (fun _ => rfl) home (holds (image.offset, .items image.items) ?_)
        simp [Value.placed, AnyHandle.placed, home]
    | table table =>
      cases table with
      | static handle =>
        cases rewrote
        exact elsewhere storable
      | dynamic handle =>
        obtain ⟨image, moved, rfl⟩ := map_eq_some_iff.1 rewrote
        have home := (rewriteHandle_places .entries (fun _ => rfl) moved).1
        refine lies (fun _ => rfl) home (holds (image.offset, .entries image.items) ?_)
        simp [Value.placed, AnyHandle.placed, home]
    | function function =>
      cases function with
      | static sref =>
        cases rewrote
        exact storable.2
      | dynamic function =>
        obtain ⟨index, found, rfl⟩ := map_eq_some_iff.1 rewrote
        obtain ⟨position, at_position, rfl⟩ := map_eq_some_iff.1 found
        exact own position (List.idxOf?_eq_some_iff.1 at_position).1
    | str text =>
      cases rewrote
      exact storable
    | _ =>
      cases rewrote
      trivial
  | ext value =>
    rcases rewriteValue_ext rewrote with ⟨rfl, -⟩ | ⟨handle, offset, carries, -, rfl⟩
    · exact fun handle carries => elsewhere (storable handle carries)
    · intro placed carried
      rw [P.handle_setHandle value _ _ carries] at carried
      obtain rfl := AnyHandle.static.inj (some.inj carried)
      refine lies (fun _ => rfl) rfl (holds (offset, .bytes handle.items) ?_)
      simp [Value.placed, P.handle_setHandle value _ _ carries, AnyHandle.placed]

theorem node_inside {node : NodeId} {index : LocalNodeId}
    (found : f.node node = some index) : index.index < f.nodeIds.length := by
  obtain ⟨position, at_position, rfl⟩ := map_eq_some_iff.1 found
  exact (List.idxOf?_eq_some_iff.1 at_position).1

theorem optionNode_inside {node : Option NodeId} {index : Option LocalNodeId}
    (found : node.mapM f.node = some index) {named : LocalNodeId} (held : index = some named) :
    named.index < f.nodeIds.length := by
  rcases optionMapM_cases f.node found with ⟨-, rfl⟩ | ⟨source, image, -, ran, rfl⟩
  · cases held
  · cases held
    exact node_inside ran

theorem nodes_inside {nodes : List NodeId} {indices : List LocalNodeId}
    (found : nodes.mapM f.node = some indices) :
    ∀ index ∈ indices, index.index < f.nodeIds.length := by
  intro index member
  obtain ⟨node, -, ran⟩ := exists_of_mem_mapM f.node nodes indices found index member
  exact node_inside ran

theorem function_at {function : FunctionId} {index : StaticFunctionId}
    (found : f.function function = some index) : f.functionIds[index.index]? = some function := by
  obtain ⟨position, at_position, rfl⟩ := map_eq_some_iff.1 found
  obtain ⟨inside, same, -⟩ := List.idxOf?_eq_some_iff.1 at_position
  exact List.getElem?_eq_some_iff.2 ⟨inside, same⟩

theorem record_inside {record : AssocMap NodeId NodeId} :
    ∀ pair ∈ (Module.frozenRecord f record).entries,
      pair.1.index < f.nodeIds.length ∧ pair.2.index < f.nodeIds.length := by
  intro pair member
  obtain ⟨source, -, ran⟩ := mem_filterMap.1 member
  obtain ⟨left, atLeft, ran⟩ := bind_eq_some_iff.1 ran
  obtain ⟨right, atRight, ran⟩ := bind_eq_some_iff.1 ran
  cases ran
  exact ⟨node_inside atLeft, node_inside atRight⟩

theorem Places.unique {left right : (BlockId × Nat) × Payload} {one two : Nat × Payload}
    (first : f.Places left one) (second : f.Places right two) (offset : one.1 = two.1) :
    left.1 = right.1 := by
  have here := first.offset
  rw [offset] at here
  obtain ⟨inside, same, -⟩ := List.idxOf?_eq_some_iff.1 here
  obtain ⟨_, other, -⟩ := List.idxOf?_eq_some_iff.1 second.offset
  rw [← same, ← other]

end Freezing

theorem Arena.payload_of_mem {arena : Arena}
    (agree : ∀ left ∈ arena, ∀ right ∈ arena, left.1 = right.1 → left.2 = right.2)
    {placed : Nat × Payload} (member : placed ∈ arena) :
    arena.payload placed.1 = some placed.2 := by
  cases found : arena.find? fun other => other.1 = placed.1 with
  | none => exact absurd (List.find?_eq_none.1 found placed member) (by simp)
  | some other =>
    have same : other.1 = placed.1 := by simpa using List.find?_some found
    rw [Arena.payload, found, map_some, agree other (mem_of_find?_eq_some found) placed member same]

namespace Module

variable {m : Module P} {f : Freezing} {home : StaticModule P} {modules : Modules P}

variable {mode : FreezeMode}

theorem Frozen.source (frozen : Frozen m f mode home) {node : StaticNode P}
    (member : node ∈ home.nodes) :
    ∃ source ∈ f.nodeIds, m.freezeNode f mode source = some node := by
  obtain ⟨index, at_index⟩ := mem_iff_getElem?.1 member
  rw [frozen.node] at at_index
  obtain ⟨source, filed, froze⟩ := bind_eq_some_iff.1 at_index
  exact ⟨source, mem_of_getElem? filed, froze⟩

variable {functionIds : List FunctionId}

section

variable (frozen : Frozen m f mode home)

include frozen

section

variable (storable : m.Storable f.key f.nodeIds functionIds modules)

include storable

/-- Every payload of the artifact's arena is the image of one the source laid out. -/
theorem Frozen.placed {placed : Nat × Payload} (member : placed ∈ home.arena) :
    ∃ source ∈ m.laidPayloads f.nodeIds, f.Places source placed := by
  rcases mem_append.1 member with values | defaults
  · obtain ⟨node, inside, carries⟩ := mem_flatMap.1 values
    cases holds : node.value with
    | none => simp [holds] at carries
    | some image =>
      rw [holds, map_some, getD_some, frozen.key] at carries
      obtain ⟨source, entry, value, filed, found, held, rewrote⟩ := frozen.value inside holds
      obtain ⟨laid, at_value, places⟩ := rewriteValue_places
        (storable.value source filed entry value found held) rewrote carries
      refine ⟨laid, mem_append_left _ (mem_filterMap.2 ⟨source, filed, ?_⟩), places⟩
      simp [found, held, at_value]
  · have rewrote := frozen.defaults
    rcases optionMapM_cases f.staticArrayHandle rewrote with ⟨-, absent⟩ | ⟨handle, image, held, ran, made⟩
    · simp [absent] at defaults
    · rw [made, map_some, getD_some, frozen.key] at defaults
      obtain ⟨apart, rfl⟩ := placed_static defaults
      cases handle with
      | static handle =>
        obtain rfl := some.inj ran
        exact absurd apart (storable.defaults handle held).1
      | dynamic handle =>
        refine ⟨((handle.block, handle.address), .items handle.items), mem_append_right _ ?_,
          (rewriteHandle_places .items (fun _ => rfl) ran).2⟩
        simp [held, AnyHandle.laid]

theorem Frozen.arena_agrees :
    ∀ left ∈ home.arena, ∀ right ∈ home.arena, left.1 = right.1 → left.2 = right.2 := by
  intro left inLeft right inRight offset
  obtain ⟨one, laidOne, placesOne⟩ := frozen.placed storable inLeft
  obtain ⟨two, laidTwo, placesTwo⟩ := frozen.placed storable inRight
  have same := storable.payloads one laidOne two laidTwo (placesOne.unique placesTwo offset)
  have image := placesOne.image
  rw [same, placesTwo.image] at image
  exact (some.inj image).symm

end

theorem Frozen.node_stands (storable : m.Storable f.key f.nodeIds f.functionIds modules)
    (own : ∀ own, modules f.key = some own → own = home) {node : StaticNode P}
    (member : node ∈ home.nodes) (shape : shapeLevels node.lowShape ≤ MAX_LOW_SHAPE_DEPTH) :
    node.Stands home.nodes.length home.key home.arena modules := by
  have functions : ∀ index, index < f.functionIds.length →
      functionSupplied modules { module := f.key, index := ⟨index⟩ } := by
    intro index inside
    rw [functionSupplied]
    cases held : modules f.key with
    | none => rfl
    | some other =>
      obtain rfl := own other held
      simpa [frozen.functions] using inside
  have readable : ∀ value, node.value = some value → value.Readable home.key home.arena modules := by
    intro image holds
    obtain ⟨source, entry, value, filed, found, held, rewrote⟩ := frozen.value member holds
    rw [frozen.key]
    refine rewriteValue_readable (storable.value source filed entry value found held)
      rewrote (fun placed carries => ?_) functions
    refine Arena.payload_of_mem (frozen.arena_agrees storable) (mem_append_left _ ?_)
    refine mem_flatMap.2 ⟨node, member, ?_⟩
    rw [holds, frozen.key]
    exact carries
  obtain ⟨source, -, froze⟩ := frozen.source member
  obtain ⟨entry, -, froze⟩ := bind_eq_some_iff.1 froze
  obtain ⟨operation, computes, froze⟩ := bind_eq_some_iff.1 froze
  obtain ⟨equality, remapped, froze⟩ := bind_eq_some_iff.1 froze
  obtain ⟨value, -, froze⟩ := bind_eq_some_iff.1 froze
  cases froze
  obtain ⟨parent, up, remapped⟩ := bind_eq_some_iff.1 remapped
  obtain ⟨next, behind, remapped⟩ := bind_eq_some_iff.1 remapped
  obtain ⟨tail, last, remapped⟩ := bind_eq_some_iff.1 remapped
  cases remapped
  rw [frozen.length]
  refine ⟨readable, ?_, fun _ held => optionNode_inside up held,
    fun _ held => optionNode_inside behind held,
    fun _ held => optionNode_inside last held, shape⟩
  intro made operand held names
  unfold freezeOperation at computes
  split at computes
  · cases computes
    cases held
  rcases optionMapM_cases _ computes with ⟨-, absent⟩ | ⟨_, image, -, ran, present⟩
  · exact absurd (held.symm.trans absent) (by simp)
  · cases held.symm.trans present
    obtain ⟨inner, found, rfl⟩ := map_eq_some_iff.1 ran
    exact optionNode_inside found names

theorem Frozen.function_stands {function : StaticFunction} (member : function ∈ home.functions) :
    function.Stands home.nodes.length := by
  obtain ⟨index, at_index⟩ := mem_iff_getElem?.1 member
  obtain ⟨source, made, -, froze, same⟩ := frozen.function index function at_index
  obtain ⟨entry, -, froze⟩ := bind_eq_some_iff.1 froze
  obtain ⟨parameter, atParameter, froze⟩ := bind_eq_some_iff.1 froze
  obtain ⟨result, atResult, froze⟩ := bind_eq_some_iff.1 froze
  obtain ⟨asserts, atAsserts, froze⟩ := bind_eq_some_iff.1 froze
  obtain ⟨nodes, atNodes, froze⟩ := bind_eq_some_iff.1 froze
  cases froze
  rw [same, frozen.length]
  refine ⟨node_inside atParameter, node_inside atResult, ?_,
    nodes_inside atAsserts, nodes_inside atNodes⟩
  cases held : f.node entry.returnType with
  | none => exact node_inside atResult
  | some returnType => exact node_inside held

theorem Frozen.parents (storable : m.Storable f.key f.nodeIds f.functionIds modules) :
    ∃ rank, ParentsFall home.functions rank := by
  obtain ⟨rank, falls⟩ := storable.parents
  have link : ∀ (index : Nat) (entry : StaticFunction) (parent : StaticFunctionId),
      home.functions[index]? = some entry → entry.parent = some parent →
      ∃ source above : FunctionId, f.functionIds[index]? = some source ∧
        f.functionIds[parent.index]? = some above ∧ rank above < rank source := by
    intro index entry parent found up
    obtain ⟨source, made, at_source, froze, same⟩ := frozen.function index entry found
    obtain ⟨template, held, froze⟩ := bind_eq_some_iff.1 froze
    obtain ⟨parameter, -, froze⟩ := bind_eq_some_iff.1 froze
    obtain ⟨result, -, froze⟩ := bind_eq_some_iff.1 froze
    obtain ⟨asserts, -, froze⟩ := bind_eq_some_iff.1 froze
    obtain ⟨nodes, -, froze⟩ := bind_eq_some_iff.1 froze
    cases froze
    rw [same] at up
    obtain ⟨above, named, filed⟩ := bind_eq_some_iff.1 up
    exact ⟨source, above, at_source, function_at filed,
      falls source (mem_of_getElem? at_source) template above held named⟩
  refine ⟨fun index => (f.functionIds[index]?.map rank).getD 0, ?_, ?_⟩ <;>
    intro index entry parent found up <;>
    obtain ⟨source, above, at_source, at_above, falling⟩ := link index entry parent found up
  · rw [frozen.functions]
    exact (List.getElem?_eq_some_iff.1 at_above).1
  · simpa [at_source, at_above] using falling

end

variable {key : ModuleKey} {nodeIds : List NodeId}

theorem freezeSet_records (froze : m.freezeSet key nodeIds functionIds mode = some home) :
    home.applyResultOwners = frozenRecord (m.setFreezing key nodeIds functionIds)
        m.applyResultOwners ∧
      home.fieldSources = frozenRecord (m.setFreezing key nodeIds functionIds) m.fieldSources := by
  obtain ⟨nodes, -, froze⟩ := bind_eq_some_iff.1 froze
  obtain ⟨functions, -, froze⟩ := bind_eq_some_iff.1 froze
  obtain ⟨defaults, -, froze⟩ := bind_eq_some_iff.1 froze
  cases froze
  exact ⟨rfl, rfl⟩

/-- A portable freeze ends with the verdicts and the scopes the reader recomputes. -/
theorem freezeSet_filled (froze : m.freezeSet key nodeIds functionIds .portable = some home) :
    home.bare.fillOpenCaptures.fillScopeSummaries = home := by
  obtain ⟨nodes, -, froze⟩ := bind_eq_some_iff.1 froze
  obtain ⟨functions, filed, froze⟩ := bind_eq_some_iff.1 froze
  obtain ⟨defaults, -, froze⟩ := bind_eq_some_iff.1 froze
  cases froze
  have closed : ∀ function ∈ functions, { function with openCaptures := false } = function := by
    intro function member
    obtain ⟨source, -, ran⟩ := exists_of_mem_mapM _ _ _ filed function member
    obtain ⟨entry, -, ran⟩ := bind_eq_some_iff.1 ran
    obtain ⟨parameter, -, ran⟩ := bind_eq_some_iff.1 ran
    obtain ⟨result, -, ran⟩ := bind_eq_some_iff.1 ran
    obtain ⟨asserts, -, ran⟩ := bind_eq_some_iff.1 ran
    obtain ⟨nodes, -, ran⟩ := bind_eq_some_iff.1 ran
    cases ran
    rfl
  have reset : functions.map (fun function => { function with openCaptures := false }) = functions :=
    (map_congr_left closed).trans (map_id' functions)
  let raw : StaticModule P :=
    { key, nodes, functions
      applyResultOwners := frozenRecord (m.setFreezing key nodeIds functionIds) m.applyResultOwners
      fieldSources := frozenRecord (m.setFreezing key nodeIds functionIds) m.fieldSources
      attributeLayouts := m.attributeLayouts
      defaultAttributes := defaults
      readOnly := decide (FreezeMode.portable = .readOnly) }
  have bare : raw.fillOpenCaptures.fillScopeSummaries.bare = raw := by
    have same : raw.fillOpenCaptures.fillScopeSummaries.bare =
        { raw with functions := functions.map fun function =>
            { function with openCaptures := false } } := by
      simp [bare, fillScopeSummaries, fillOpenCaptures, raw]
    rw [same, reset]
  exact congrArg (fun home : StaticModule P => home.fillOpenCaptures.fillScopeSummaries) bare

/-- A freeze of a module that can be stored leaves an artifact that stands, once its verdicts and
scopes are those that a reader recomputes. -/
theorem freezeSet_refilled_stands (froze : m.freezeSet key nodeIds functionIds mode = some home)
    (storable : m.Storable key nodeIds functionIds modules)
    (own : ∀ own, modules key = some own → own = home)
    (shapes : ∀ node ∈ home.nodes, shapeLevels node.lowShape ≤ MAX_LOW_SHAPE_DEPTH) :
    home.refilled.Stands modules := by
  have frozen := freezeSet_frozen froze
  have records : home.nodes.length = nodeIds.length := frozen.length
  refine ⟨fun node member => frozen.node_stands storable own member (shapes node member), ?_,
    fun function member => ?_, ?_, ?_, ?_, ?_, congrArg (fun bare : StaticModule P =>
      bare.fillOpenCaptures.fillScopeSummaries) home.refilled_bare⟩
  · intro node member owner held
    rw [refilled_functions_length]
    obtain ⟨source, -, ran⟩ := frozen.source member
    obtain ⟨entry, -, ran⟩ := bind_eq_some_iff.1 ran
    obtain ⟨operation, -, ran⟩ := bind_eq_some_iff.1 ran
    obtain ⟨equality, -, ran⟩ := bind_eq_some_iff.1 ran
    obtain ⟨value, -, ran⟩ := bind_eq_some_iff.1 ran
    cases ran
    obtain ⟨function, -, filed⟩ := bind_eq_some_iff.1 held
    rw [frozen.functions]
    exact (List.getElem?_eq_some_iff.1 (function_at filed)).1
  · obtain ⟨source, listed, verdict, rfl⟩ := refilled_function member
    have stands := frozen.function_stands listed
    exact ⟨stands.parameter, stands.result, stands.returnType, stands.asserts, stands.nodes⟩
  · obtain ⟨rank, falls⟩ := frozen.parents storable
    refine ⟨rank, ?_, ?_⟩ <;> intro index entry parent found up <;>
      obtain ⟨source, at_index, same⟩ := refilled_functions_get found <;>
      rw [same] at up
    · rw [refilled_functions_length]
      exact falls.inside index source parent at_index up
    · exact falls.falls index source parent at_index up
  · have same := freezeSet_records froze
    show ∀ pair ∈ home.applyResultOwners.entries,
      pair.1.index < home.nodes.length ∧ pair.2.index < home.nodes.length
    rw [same.1, records]
    exact record_inside
  · have same := freezeSet_records froze
    show ∀ pair ∈ home.fieldSources.entries,
      pair.1.index < home.nodes.length ∧ pair.2.index < home.nodes.length
    rw [same.2, records]
    exact record_inside
  · intro image held
    rcases optionMapM_cases _ frozen.defaults with ⟨-, absent⟩ | ⟨handle, made, default, ran, present⟩
    · exact absurd (held.symm.trans absent) (by simp)
    cases held.symm.trans present
    cases handle with
    | static handle =>
      obtain rfl := some.inj ran
      obtain ⟨apart, owner, found, payload⟩ := storable.defaults handle default
      refine ⟨owner.arena, ?_, payload⟩
      show (if handle.module = home.key then some home.arena
        else (modules handle.module).map arena) = _
      rw [frozen.key, if_neg apart, found]
      rfl
    | dynamic handle =>
      have places := rewriteHandle_places .items (fun _ => rfl) ran
      have inside : (image.offset, Payload.items image.items) ∈ home.arena := by
        refine mem_append_right _ ?_
        have named : home.defaultAttributes = some image := held
        simp [named, AnyHandle.placed, frozen.key, places.1]
      refine ⟨home.arena, ?_, ?_⟩
      · show (if image.module = home.key then some home.arena
          else (modules image.module).map arena) = _
        rw [frozen.key, if_pos places.1]
      · rw [Arena.payload_of_mem (frozen.arena_agrees storable) inside]
        rfl

theorem freezeSet_stands (froze : m.freezeSet key nodeIds functionIds .portable = some home)
    (storable : m.Storable key nodeIds functionIds modules)
    (own : ∀ own, modules key = some own → own = home)
    (shapes : ∀ node ∈ home.nodes, shapeLevels node.lowShape ≤ MAX_LOW_SHAPE_DEPTH) :
    home.Stands modules := by
  have stands := freezeSet_refilled_stands froze storable own shapes
  rw [refilled, freezeSet_filled froze] at stands
  exact stands

end Module

/-- What a portable freeze filed is read back as the same module and export, when its shapes
nest within the reader's cap. -/
theorem frozen_artifact_rereads {m : Module P} {key : ModuleKey} {nodeIds : List NodeId}
    {functionIds : List FunctionId} {home : StaticModule P} {codec : ArtifactCodec P}
    {modules : Modules P} {hash : List UInt8} {out : LocalNodeId} {words : Words}
    (inverse : codec.Inverse)
    (froze : m.freezeSet key nodeIds functionIds .portable = some home)
    (storable : m.Storable key nodeIds functionIds modules)
    (own : ∀ own, modules key = some own → own = home)
    (shapes : ∀ node ∈ home.nodes, shapeLevels node.lowShape ≤ MAX_LOW_SHAPE_DEPTH)
    (inside : out.index < home.nodes.length)
    (wrote : serializeArtifactWith codec home modules hash out = some words) :
    ∃ back, deserializeArtifactWith codec words key hash modules = some (back, out) ∧
      home.Reread back := by
  have read := deserialize_of_stands inverse
    (Module.freezeSet_stands froze storable own shapes) inside wrote
  have filed : home.key = key := (Module.freezeSet_frozen froze).key
  rw [filed] at read
  exact ⟨home.collected, read, reread_collected home⟩

/-- The codec of the program with no leaf of its own. -/
def plainCodec : ArtifactCodec plain where
  lowValue := [76, 111, 119, 86, 97, 108, 117, 101]
  lowOperator := [76, 111, 119, 79, 112, 101, 114, 97, 116, 111, 114]
  valueLeaf := nofun
  operatorLeaf := nofun
  writeExt := nofun
  writeExtOperator := nofun
  readExt := fun _ => refuse
  readExtOperator := fun _ => refuse
  sha256 := fun words => [UInt8.ofNat (byteLength words)]
  arenaAlign := 8

theorem plainCodec_inverse : plainCodec.Inverse := ⟨nofun, nofun, nofun, nofun⟩

/-- A module with an array of two nodes, a function in a function, and a recorded field source. -/
def smallModule : Module plain where
  nodes := ⟨[
    some { value := some (.low (.array { handle := .dynamic {
             block := ⟨1⟩, address := 0, items := [{ node := .dynamic ⟨2⟩ }, { node := .dynamic ⟨3⟩ }] } }))
           lowShape := some (.array none 2), block := ⟨1⟩, equality := { tail := some ⟨1⟩, size := 1 } },
    some { value := some (.low (.usize 7)), block := ⟨1⟩, runned := true,
           equality := { next := some ⟨3⟩, tail := some ⟨3⟩, size := 2 } },
    some { operation := some { operator := .low .index, operand := some ⟨1⟩ }, block := ⟨1⟩
           function := some ⟨2⟩, equality := { parent := some ⟨2⟩, size := 1 } },
    some { value := some (.low (.function (.dynamic ⟨1⟩))), block := ⟨1⟩
           equality := { tail := some ⟨4⟩, size := 1 } }]⟩
  blocks := ⟨[some { parent := none, nodes := [⟨1⟩, ⟨2⟩, ⟨3⟩, ⟨4⟩], functions := [⟨1⟩, ⟨2⟩] }]⟩
  functions := ⟨[
    some { nodes := [⟨2⟩], «return» := ⟨2⟩, parameter := ⟨2⟩, returnType := ⟨2⟩, block := ⟨1⟩ },
    some { nodes := [⟨3⟩], «return» := ⟨3⟩, parameter := ⟨3⟩, returnType := ⟨3⟩, block := ⟨1⟩
           parent := some ⟨1⟩ }]⟩
  fieldSources := ⟨[(⟨3⟩, ⟨2⟩), (⟨2⟩, ⟨1⟩)]⟩

/-- The artifact is supplied under its own key, as its writer needs it. -/
def smallModules : Modules plain := fun named =>
  if named = ⟨5⟩ then smallModule.fromModule ⟨5⟩ else none

theorem smallModule_storable :
    smallModule.Storable ⟨5⟩ smallModule.nodes.keys smallModule.functions.keys smallModules := by
  have keys : smallModule.nodes.keys = [⟨1⟩, ⟨2⟩, ⟨3⟩, ⟨4⟩] := by decide
  have functions : smallModule.functions.keys = [⟨1⟩, ⟨2⟩] := by decide
  rw [keys, functions]
  refine ⟨by decide, ?_, nofun, fun function => function.index, ?_⟩
  · intro node member entry value found held
    simp only [mem_cons, not_mem_nil, or_false] at member
    rcases member with rfl | rfl | rfl | rfl <;> obtain rfl := some.inj found <;>
      cases held <;> trivial
  · intro function member entry parent found held
    simp only [mem_cons, not_mem_nil, or_false] at member
    rcases member with rfl | rfl <;> obtain rfl := some.inj found <;> cases held
    decide

theorem smallModule_rereads : ∃ home words back, smallModule.fromModule ⟨5⟩ = some home ∧
    serializeArtifactWith plainCodec home smallModules [1] ⟨0⟩ = some words ∧
      deserializeArtifactWith plainCodec words ⟨5⟩ [1] smallModules = some (back, ⟨0⟩) ∧
        home.Reread back := by
  obtain ⟨home, froze⟩ := isSome_iff_exists.1
    (by decide +kernel : (smallModule.fromModule ⟨5⟩).isSome = true)
  have read : ∀ {A : Type} (f : StaticModule plain → A) (value : A),
      (smallModule.fromModule ⟨5⟩).map f = some value → f home = value := by
    intro A f value held
    rw [froze] at held
    exact some.inj held
  have shapes := read (fun home => home.nodes.all fun node =>
    decide (shapeLevels node.lowShape ≤ MAX_LOW_SHAPE_DEPTH)) true (by decide +kernel)
  have count := read (fun home => home.nodes.length) 4 (by decide +kernel)
  obtain ⟨words, wrote⟩ := isSome_iff_exists.1
    (read (fun home => (serializeArtifactWith plainCodec home smallModules [1] ⟨0⟩).isSome) true
      (by decide +kernel))
  have own : ∀ own, smallModules ⟨5⟩ = some own → own = home := by
    intro own held
    exact some.inj (held.symm.trans froze)
  obtain ⟨back, answered, same⟩ := frozen_artifact_rereads plainCodec_inverse froze
    smallModule_storable own (fun node member => of_decide_eq_true
      (all_eq_true.1 shapes node member)) (by rw [count]; decide) wrote
  exact ⟨home, words, back, froze, wrote, answered, same⟩

/-- Arrays nested `depth` deep. -/
def nestedArrays : Nat → Option LowShape
  | 0 => none
  | depth + 1 => some (.array (nestedArrays depth) 1)

/-- A module of one node, whose shape nests past the reader's cap. -/
def deepArrays : Module plain where
  nodes := ⟨[some { lowShape := nestedArrays 256, block := ⟨1⟩
                    equality := { tail := some ⟨1⟩, size := 1 } }]⟩
  blocks := ⟨[some { parent := none, nodes := [⟨1⟩] }]⟩

def deepModules : Modules plain := fun named =>
  if named = ⟨5⟩ then deepArrays.fromModule ⟨5⟩ else none

/-- The writer writes the shape, and the reader refuses it. -/
theorem deepArrays_refused : ¬ ∀ (m : Module plain) key nodeIds functionIds home modules
    hash out words, m.freezeSet key nodeIds functionIds .portable = some home →
      m.Storable key nodeIds functionIds modules → (∀ own, modules key = some own → own = home) →
      out.index < home.nodes.length →
      serializeArtifactWith plainCodec home modules hash out = some words →
      ∃ back, deserializeArtifactWith plainCodec words key hash modules = some (back, out) ∧
        home.Reread back := by
  intro claim
  obtain ⟨home, froze⟩ := isSome_iff_exists.1
    (by decide +kernel : (deepArrays.fromModule ⟨5⟩).isSome = true)
  have read : ∀ {A : Type} (f : StaticModule plain → A) (value : A),
      (deepArrays.fromModule ⟨5⟩).map f = some value → f home = value := by
    intro A f value held
    rw [froze] at held
    exact some.inj held
  have refused := read (fun home => (serializeArtifactWith plainCodec home deepModules [1] ⟨0⟩).map
    fun words => (deserializeArtifactWith plainCodec words ⟨5⟩ [1] deepModules).isNone) (some true)
      (by decide +kernel)
  have count := read (fun home => home.nodes.length) 1 (by decide +kernel)
  obtain ⟨words, wrote, none'⟩ := map_eq_some_iff.1 refused
  have storable : deepArrays.Storable ⟨5⟩ deepArrays.nodes.keys deepArrays.functions.keys
      deepModules := by
    have keys : deepArrays.nodes.keys = [⟨1⟩] := by decide
    have functions : deepArrays.functions.keys = [] := by decide
    rw [keys, functions]
    refine ⟨by decide, ?_, nofun, fun _ => 0, nofun⟩
    intro node member entry value found held
    obtain rfl := mem_singleton.1 member
    cases found
    cases held
  obtain ⟨back, answered, -⟩ := claim deepArrays ⟨5⟩ _ _ home deepModules [1] ⟨0⟩ words froze
    storable (fun own held => some.inj (held.symm.trans froze)) (by rw [count]; decide) wrote
  rw [answered] at none'
  cases none'

end LichenVm
