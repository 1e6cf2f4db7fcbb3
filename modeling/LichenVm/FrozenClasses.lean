import LichenVm.ClassTails
import LichenVm.FreezeLookups

namespace LichenVm

open DisjointSet Traverse SlotMap Module Program Reaches

variable {P : Program}

namespace Module

/-- Every reference beside the class links names a live node or function: operands, the refs
of values, function templates and the default attributes. -/
structure ReferencesLive (m : Module P) : Prop where
  operand : ∀ node entry operation operand, m.nodes.get node = some entry →
    entry.operation = some operation → operation.operand = some operand →
    m.nodes.containsKey operand = true
  named : ∀ node entry value, m.nodes.get node = some entry → entry.value = some value →
    ∀ other ∈ value.nodeRefs, m.nodes.containsKey other = true
  held : ∀ node entry function, m.nodes.get node = some entry →
    entry.value = some (.low (.function (.dynamic function))) → m.functions.containsKey function = true
  template : ∀ function entry, m.functions.get function = some entry →
    ∀ node ∈ entry.parameter :: entry.return :: (entry.asserts ++ entry.nodes),
      m.nodes.containsKey node = true
  attributes : ∀ handle, m.defaultAttributes = some (.dynamic handle) →
    ∀ item ∈ handle.items, ∀ node, item.node.dynamic? = some node → m.nodes.containsKey node = true

def wholeFreezing (m : Module P) (key : ModuleKey) : Freezing where
  key := key
  nodeIds := m.nodes.keys
  functionIds := m.functions.keys
  payloads := m.frozenPayloads m.nodes.keys

theorem remapMeta_whole {m : Module P} (formed : WellFormed m.nodes) (tails : TailsInside m.nodes)
    (key : ModuleKey) {node : NodeId} {entry : Node P} (found : m.nodes.get node = some entry) :
    (m.wholeFreezing key).remapMeta (m.frozenLinks m.nodes.keys node entry.equality) =
      some (entry.equality.map (m.wholeFreezing key).image) := by
  obtain ⟨root, rest, cls, member⟩ := formed node (by simp [links, found])
  refine remapMeta_of_whole (f := m.wholeFreezing key) formed tails (keys_nodup _)
    (fun node filed => (mem_keys _ _).1 filed) cls (fun other inside => ?_) member found
  rw [wholeFreezing, mem_keys, ← links_isSome]
  exact cls.live other inside

theorem fromModule_isSome {m : Module P} (formed : WellFormed m.nodes) (tails : TailsInside m.nodes)
    (references : m.ReferencesLive) (key : ModuleKey) : (m.fromModule key).isSome := by
  have filed : ∀ node, m.nodes.containsKey node → node ∈ m.nodes.keys :=
    fun node live => (mem_keys _ _).2 live
  refine (freezeSet_isSome_iff key _ _ .portable).2
    { node := fun node filed => (mem_keys _ _).1 filed
      function := fun function filed => (mem_keys _ _).1 filed
      operand := fun node _ entry operation operand found _ computes reads =>
        filed operand (references.operand node entry operation operand found computes reads)
      links := fun node _ entry found => ?_
      named := fun node _ entry value found held other names =>
        filed other (references.named node entry value found held other names)
      held := fun node _ entry function found held =>
        (mem_keys _ _).2 (references.held node entry function found held)
      template := fun function _ template found node listed =>
        filed node (references.template function template found node listed)
      attributes := fun handle default item member node names =>
        filed node (references.attributes handle default item member node names) }
  have remapped := remapMeta_whole formed tails key found
  exact Option.isSome_iff_exists.2 ⟨_, remapped⟩

/-- Every link of a live node names a live node of the same class. -/
def LinksInside (m : Module P) (node : NodeId) : Prop :=
  ∃ root rest, IsClass m.nodes root rest ∧ node ∈ root :: rest ∧
    (∀ up, parentOf m.nodes node = some up → up ∈ root :: rest) ∧
    (∀ behind, nextOf m.nodes node = some behind → behind ∈ root :: rest) ∧
    (∀ last, tailOf m.nodes node = some last → last ∈ root :: rest)

/-- The artifact's nodes are the images of the live nodes, and its classes are the images of
the source's classes. -/
structure SameClasses (m : Module P) (key : ModuleKey) (artifact : StaticModule P) : Prop where
  count : artifact.nodes.length = m.nodes.keys.length
  injective : ∀ a b, m.nodes.containsKey a = true → m.nodes.containsKey b = true →
    (m.wholeFreezing key).image a = (m.wholeFreezing key).image b → a = b
  classes : ∀ root rest, IsClass m.nodes root rest →
    IsClass artifact.nodes ((m.wholeFreezing key).image root) (rest.map (m.wholeFreezing key).image)

/-- A freeze of the whole module finds every class link among the nodes it files, returns an
artifact unless another reference leaves the module, and keeps the classes. -/
structure FreezesWhole (m : Module P) (key : ModuleKey) : Prop where
  found : ∀ node entry, m.nodes.get node = some entry →
    ((m.wholeFreezing key).remapMeta (m.frozenLinks m.nodes.keys node entry.equality)).isSome
  returns : m.ReferencesLive → (m.fromModule key).isSome
  same : ∀ artifact, m.fromModule key = some artifact → m.SameClasses key artifact

section

variable {m : Module P} (formed : WellFormed m.nodes) (tails : TailsInside m.nodes)

include formed tails

theorem linksInside_of_tails {node : NodeId} (live : m.nodes.containsKey node) :
    m.LinksInside node := by
  obtain ⟨root, rest, cls, member⟩ := formed node (by rw [links_isSome, live])
  exact ⟨root, rest, cls, member, cls.inside node member,
    fun behind next => cls.linked.next_mem member next, tails root rest cls node member⟩

theorem freezesWhole_of_tails (key : ModuleKey) : m.FreezesWhole key := by
  refine ⟨fun node entry found => ?_, fun references => fromModule_isSome formed tails references key,
    fun artifact froze => ?_⟩
  · rw [remapMeta_whole formed tails key found]
    rfl
  · have frozen : Frozen m (m.wholeFreezing key) .portable artifact := freezeSet_frozen froze
    refine ⟨frozen.length, fun a b left right same => ?_, fun root rest cls => ?_⟩
    · exact (m.wholeFreezing key).image_injective ((mem_keys _ _).2 left)
        ((mem_keys _ _).2 right) same
    · refine frozen.class_image formed (keys_nodup _)
        (fun node filed => (mem_keys _ _).1 filed) cls fun member inside => ?_
      rw [wholeFreezing, mem_keys, ← links_isSome]
      exact cls.live member inside

end

end Module

/-- In a run whose drops splice no kept tail, each state reached holds every class link of a
live node inside its class, and freezes whole. -/
theorem class_links_inside {m : Module P}
    (reached : Reaches (fun m op => op.keepsTree m && op.releasesWith tailsSpliced m) m) :
    (∀ node, m.nodes.containsKey node = true → m.LinksInside node) ∧ ∀ key, m.FreezesWhole key := by
  obtain ⟨consistent, tails⟩ := reached.tailsInside
  exact ⟨fun node live => linksInside_of_tails consistent.formed tails live,
    fun key => freezesWhole_of_tails consistent.formed tails key⟩

/-- Three nodes of a block and one of its child. A class that holds the child's node last is
absorbed whole by another one, so its old root keeps a tail link to that node; then the child
goes. -/
def absorbedTail : List (Op plain) :=
  [.addBlock none, .addBlock (some ⟨1⟩), .addNode ⟨1⟩ none none, .addNode ⟨1⟩ none none,
    .addNode ⟨1⟩ none none, .addNode ⟨2⟩ none none, .addEquality ⟨3⟩ ⟨4⟩, .addEquality ⟨1⟩ ⟨2⟩,
    .addEquality ⟨1⟩ ⟨3⟩, .dropBlock ⟨2⟩]

/-- The absorbed root's tail link names the released node. -/
theorem absorbedTail_dangles :
    ¬ ∀ m : Module plain, Reaches (fun m op => op.keepsTree m) m →
      (∀ node, m.nodes.containsKey node = true → m.LinksInside node) ∧ ∀ key, m.FreezesWhole key := by
  intro claim
  obtain ⟨m, ran⟩ := Option.isSome_iff_exists.1
    (by decide : (runAll (fun m op => op.keepsTree m) absorbedTail {}).isSome = true)
  have read : ∀ {α : Type} (f : Module plain → α) (value : α),
      (runAll (fun m op => op.keepsTree m) absorbedTail {}).map f = some value →
      f m = value := by
    intro α f value held
    rw [ran] at held
    exact Option.some.inj held
  have live := read (fun m => m.nodes.containsKey ⟨3⟩) true (by decide)
  have tail := read (fun m => tailOf m.nodes ⟨3⟩) (some ⟨4⟩) (by decide)
  have gone := read (fun m => m.nodes.containsKey ⟨4⟩) false (by decide)
  obtain ⟨root, rest, cls, -, -, -, tails⟩ :=
    (claim m (of_runAll absorbedTail (.start {}) ran)).1 ⟨3⟩ live
  have lives := cls.live ⟨4⟩ (tails ⟨4⟩ tail)
  rw [links_isSome, gone] at lives
  cases lives

/-- The same unions, the absorbed class's last node in the block that stays. -/
def keptTail : List (Op plain) :=
  [.addBlock none, .addBlock (some ⟨1⟩), .addNode ⟨1⟩ none none, .addNode ⟨2⟩ none none,
    .addNode ⟨1⟩ none none, .addNode ⟨1⟩ none none, .addEquality ⟨3⟩ ⟨4⟩, .addEquality ⟨1⟩ ⟨2⟩,
    .addEquality ⟨1⟩ ⟨3⟩, .dropBlock ⟨2⟩]

theorem keptTail_links_inside : ∃ m : Module plain,
    runAll (fun m op => op.keepsTree m && op.releasesWith tailsSpliced m)
      keptTail {} = some m ∧
    (∀ node, m.nodes.containsKey node = true → m.LinksInside node) ∧ ∀ key, m.FreezesWhole key := by
  obtain ⟨m, ran⟩ := Option.isSome_iff_exists.1 (by decide :
    (runAll (fun m op => op.keepsTree m && op.releasesWith tailsSpliced m)
      keptTail {}).isSome = true)
  exact ⟨m, ran, class_links_inside (of_runAll keptTail (.start {}) ran)⟩

end LichenVm
