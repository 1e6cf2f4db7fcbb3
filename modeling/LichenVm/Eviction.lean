import LichenVm.RegistryRun

open List Option

namespace LichenVm

open AssocMap Program Registry

variable {P : Program}

namespace Registry

/-- Whether a module key is filed, or is the one an artifact is about to be filed under. -/
def filesUnder (registry : Registry P) (key named : ModuleKey) : Bool :=
  decide (named = key) || registry.containsKey named

/-- Whether the originals that `functions` re-export are filed. -/
def originsFiled (registry : Registry P) (key : ModuleKey) (m : Module P)
    (functions : List FunctionId) : Bool :=
  functions.all fun function =>
    ((m.functions.get function).bind Function.staticOrigin).all fun origin =>
      registry.filesUnder key origin.module

/-- Whether another filed artifact re-exports a function of the module `key` names. -/
def reExported (registry : Registry P) (key : ModuleKey) : Bool :=
  registry.entries.entries.any fun (other, package) =>
    decide (other ≠ key) && package.module.functions.any fun function =>
        function.origin.any fun origin => origin.module = key

/-- The module keys that reading the filed artifacts reaches. -/
inductive ReadKey (registry : Registry P) : ModuleKey → Prop
  | filed (key : ModuleKey) (present : registry.containsKey key = true) : ReadKey registry key
  | reads (key named : ModuleKey) (package : Package P) (before : ReadKey registry key)
      (found : registry.get key = some package) (names : named ∈ package.module.readKeys) :
      ReadKey registry named

/-- Each filed artifact's recorded references are its own, and reading it names filed modules
alone. -/
structure Standing (registry : Registry P) : Prop where
  refs : ∀ key package, registry.get key = some package →
    package.refs = package.module.referencedKeys
  frozen : ∀ key package, registry.get key = some package → package.module.TablesFrozen
  closed : ∀ key package, registry.get key = some package →
    ∀ named ∈ package.module.readKeys, registry.containsKey named = true

variable {registry : Registry P} {key : ModuleKey}

theorem Standing.readKey (standing : Standing registry)
    (read : registry.ReadKey key) : registry.containsKey key := by
  cases read with
  | filed _ present => exact present
  | reads home _ package before found names => exact standing.closed home package found key names

theorem get_file (registry : Registry P) (key other : ModuleKey) (hash : List UInt8)
    (artifact : StaticModule P) :
    (registry.file key hash artifact).get other =
      if other = key then some { module := artifact, hash, refs := artifact.referencedKeys }
      else registry.get other :=
  get_insert _ _ _ _

variable {hash : List UInt8}

section

variable (standing : Standing registry)

include standing

/-- Filing an artifact whose reads are filed, or name itself. -/
theorem Standing.file {artifact : StaticModule P} (frozen : artifact.TablesFrozen)
    (reads : ∀ named ∈ artifact.readKeys, registry.filesUnder key named) :
    Standing (registry.file key hash artifact) := by
  have kept : ∀ named, registry.filesUnder key named →
      (registry.file key hash artifact).containsKey named := by
    intro named files
    simp only [filesUnder, Bool.or_eq_true, decide_eq_true_eq, containsKey, containsKey]
      at files
    show ((registry.file key hash artifact).get named).isSome
    rw [get_file]
    split
    · rfl
    · next apart => exact files.resolve_left apart
  refine ⟨?_, ?_, ?_⟩ <;> intro other package found <;> rw [get_file] at found <;> split at found
  · cases found
    rfl
  · exact standing.refs other package found
  · cases found
    exact frozen
  · exact standing.frozen other package found
  · cases found
    exact fun named names => kept named (reads named names)
  · refine fun named names => kept named ?_
    simp [filesUnder, standing.closed other package found named names]

/-- Dropping an artifact that no other one references or re-exports. -/
theorem Standing.remove (unnamed : registry.referenced key = false)
    (alone : registry.reExported key = false) :
    Standing { registry with entries := registry.entries.remove key } := by
  have gets : ∀ other package,
      ({ registry with entries := registry.entries.remove key } : Registry P).get other =
        some package → other ≠ key ∧ registry.get other = some package := by
    intro other package found
    simp only [Registry.get, get_remove] at found
    split at found
    · cases found
    · next apart => exact ⟨apart, found⟩
  refine ⟨?_, ?_, ?_⟩ <;> intro other package left <;> obtain ⟨apart, found⟩ := gets other package left
  · exact standing.refs other package found
  · exact standing.frozen other package found
  · intro named names
    have entry := mem_of_get _ _ _ found
    have other' : named ≠ key := by
      rintro rfl
      rcases StaticModule.readKeys_referenced (standing.frozen other package found) names with
        recorded | ⟨function, member, origin, at_origin, same⟩
      · have again : registry.referenced named := by
          refine any_eq_true.2 ⟨_, entry, ?_⟩
          simpa [apart, standing.refs other package found] using recorded
        rw [unnamed] at again
        cases again
      · have again : registry.reExported named := by
          refine any_eq_true.2 ⟨_, entry, ?_⟩
          simp only [Bool.and_eq_true, decide_eq_true_eq]
          exact ⟨apart, any_eq_true.2 ⟨function, member, by simp [at_origin, same]⟩⟩
        rw [alone] at again
        cases again
    show ((registry.entries.remove key).get named).isSome
    rw [get_remove, if_neg other']
    exact standing.closed other package found named names

theorem Standing.evict (alone : registry.referenced key = false → registry.reExported key = false) :
    Standing (registry.evict key).2 := by
  simp only [Registry.evict]
  split
  · exact standing
  · split
    · exact standing
    · next unnamed => exact standing.remove (by simpa using unnamed) (alone (by simpa using unnamed))

end

variable {m : Module P}

theorem referencedKeys_filed {named : ModuleKey}
    (checked : m.referencedKeys.all registry.containsKey) (names : named ∈ m.referencedKeys) :
    registry.filesUnder key named := by
  simp [filesUnder, all_eq_true.1 checked named names]

theorem Standing.freezeMapped {registry' : Registry P} (standing : Standing registry)
    (origins : registry.originsFiled key m m.functions.keys)
    (froze : registry.freezeMapped m key hash = some registry') : Standing registry' := by
  simp only [Registry.freezeMapped] at froze
  split at froze
  · cases froze
  · next checked =>
    rw [Bool.not_eq_true', Bool.not_eq_false] at checked
    split at froze
    · cases froze
    · obtain ⟨artifact, built, rfl⟩ := map_eq_some_iff.1 froze
      have frozen := Module.freezeSet_frozen built
      refine standing.file frozen.tablesFrozen fun named names => ?_
      rcases frozen.readKeys names with own | values | ⟨handle, default, inside⟩ |
        ⟨function, filed, entry, origin, found, at_origin, same⟩
      · simp [filesUnder, own]
      · exact referencedKeys_filed checked (mem_append_left _ values)
      · exact referencedKeys_filed checked (mem_append_right _ (by simpa [default] using inside))
      · simpa [found, at_origin, same] using all_eq_true.1 origins function filed

/-- Whether the default attribute array of a module names filed modules alone. -/
def attributesFiled (registry : Registry P) (key : ModuleKey) (m : Module P) : Bool :=
  ((m.defaultAttributes.map arrayReferencedKeys).getD []).all (registry.filesUnder key)

theorem Standing.freezeClosureMapped {registry' : Registry P} (standing : Standing registry)
    {roots : List NodeId} {mode : FreezeMode}
    (origins : registry.originsFiled key m (m.closure roots mode).2)
    (attributes : registry.attributesFiled key m)
    (froze : registry.freezeClosureMapped m key roots hash mode = some registry') :
    Standing registry' := by
  simp only [Registry.freezeClosureMapped] at froze
  split at froze
  · cases froze
  · split at froze
    · cases froze
    · next checked =>
      rw [Bool.not_eq_true', Bool.not_eq_false] at checked
      obtain ⟨artifact, built, rfl⟩ := map_eq_some_iff.1 froze
      have frozen := Module.freezeSet_frozen built
      refine standing.file frozen.tablesFrozen fun named names => ?_
      rcases frozen.readKeys names with own | values | ⟨handle, default, inside⟩ |
        ⟨function, filed, entry, origin, found, at_origin, same⟩
      · simp [filesUnder, own]
      · simp [filesUnder, all_eq_true.1 checked named values]
      · exact all_eq_true.1 attributes named (by simpa [default] using inside)
      · simpa [found, at_origin, same] using all_eq_true.1 origins function filed

end Registry

namespace RegistryOp

/-- A freeze files what it re-exports, and a closure freeze what the default attributes name;
an eviction that no recorded ref refuses drops nothing that another artifact re-exports. -/
def keepsOrigins (registry : Registry P) : RegistryOp P → Bool
  | freezeMapped m key _ => registry.originsFiled key m m.functions.keys
  | freezeClosureMapped m key roots _ mode =>
    registry.originsFiled key m (m.closure roots mode).2 && registry.attributesFiled key m
  | evict key => registry.referenced key || !registry.reExported key

theorem run_standing {registry registry' : Registry P} (standing : registry.Standing)
    (op : RegistryOp P) (keeps : op.keepsOrigins registry)
    (ran : op.run registry = some registry') : registry'.Standing := by
  cases op with
  | freezeMapped m key hash => exact standing.freezeMapped keeps ran
  | freezeClosureMapped m key roots hash mode =>
    obtain ⟨origins, attributes⟩ := Bool.and_eq_true_iff.1 keeps
    exact standing.freezeClosureMapped origins attributes ran
  | evict key =>
    cases ran
    refine standing.evict fun unnamed => ?_
    simpa [keepsOrigins, unnamed] using keeps

end RegistryOp

namespace Registry

/-- The registries a run of admitted calls reaches from the empty one. -/
inductive Reaches (admits : Registry P → RegistryOp P → Bool) : Registry P → Prop
  | start : Reaches admits {}
  | step {registry registry' : Registry P} (op : RegistryOp P) (reached : Reaches admits registry)
      (admitted : admits registry op = true) (ran : op.run registry = some registry') :
      Reaches admits registry'

/-- Run a list of calls, each one admitted. -/
def runAll (admits : Registry P → RegistryOp P → Bool) :
    List (RegistryOp P) → Registry P → Option (Registry P)
  | [], registry => some registry
  | op :: ops, registry =>
    if admits registry op then (op.run registry).bind (runAll admits ops) else none

theorem Reaches.of_runAll {admits : Registry P → RegistryOp P → Bool} {registry registry' : Registry P}
    (ops : List (RegistryOp P)) (reached : Reaches admits registry)
    (ran : runAll admits ops registry = some registry') : Reaches admits registry' := by
  induction ops generalizing registry with
  | nil =>
    cases ran
    exact reached
  | cons op ops ih =>
    simp only [runAll] at ran
    split at ran
    · next admitted =>
      obtain ⟨middle, first, rest⟩ := bind_eq_some_iff.1 ran
      exact ih (reached.step op admitted first) rest
    · cases ran

theorem Reaches.standing {registry : Registry P}
    (reached : Reaches (fun registry op => op.keepsOrigins registry) registry) :
    registry.Standing := by
  induction reached with
  | start => exact ⟨nofun, nofun, nofun⟩
  | step op _ admitted ran ih => exact op.run_standing ih admitted ran

end Registry

/-- In a run whose calls keep the originals filed, every module key that reading a filed
artifact reaches is filed. -/
theorem filed_artifacts_read_filed {registry : Registry P}
    (reached : Registry.Reaches (fun registry op => op.keepsOrigins registry) registry)
    (key : ModuleKey) (read : registry.ReadKey key) : registry.containsKey key = true :=
  reached.standing.readKey read

/-- A function whose template is one node. -/
def oneNodeFunction (origin : Option StaticFunctionRef) : Function where
  nodes := [⟨1⟩]
  «return» := ⟨1⟩
  parameter := ⟨1⟩
  returnType := ⟨1⟩
  staticOrigin := origin
  block := ⟨1⟩

/-- A module of one block, one node and one function. -/
def oneFunction (origin : Option StaticFunctionRef) : Module plain where
  nodes := ⟨[some { block := ⟨1⟩, equality := { tail := some ⟨1⟩, size := 1 } }]⟩
  blocks := ⟨[some { parent := none, nodes := [⟨1⟩], functions := [⟨1⟩] }]⟩
  functions := ⟨[some (oneNodeFunction origin)]⟩

/-- File a module, then one that re-exports its function, and evict the first. -/
def evictOriginal : List (RegistryOp plain) :=
  [.freezeMapped (oneFunction none) ⟨1⟩ [],
    .freezeMapped (oneFunction (some ⟨⟨1⟩, ⟨0⟩⟩)) ⟨2⟩ [], .evict ⟨1⟩]

/-- The second artifact's function still names the evicted module. -/
theorem evictOriginal_strands :
    ¬ ∀ registry : Registry plain, Registry.Reaches (fun _ _ => true) registry →
      ∀ key, registry.ReadKey key → registry.containsKey key = true := by
  intro claim
  obtain ⟨registry, ran⟩ := isSome_iff_exists.1
    (by decide : (runAll (fun _ _ => true) evictOriginal {}).isSome = true)
  have read : ∀ {α : Type} (f : Registry plain → α) (value : α),
      (runAll (fun _ _ => true) evictOriginal {}).map f = some value →
      f registry = value := by
    intro α f value held
    rw [ran] at held
    exact some.inj held
  have filed := read (fun registry => registry.containsKey ⟨2⟩) true (by decide)
  have gone := read (fun registry => registry.containsKey ⟨1⟩) false (by decide)
  have names := read (fun registry => (registry.get ⟨2⟩).map fun package =>
    package.module.readKeys) (some [⟨1⟩]) (by decide)
  obtain ⟨package, found, named⟩ := map_eq_some_iff.1 names
  have stranded := claim registry (Registry.Reaches.of_runAll evictOriginal .start ran) ⟨1⟩
    (.reads ⟨2⟩ ⟨1⟩ package (.filed ⟨2⟩ filed) found (by rw [named]; exact mem_singleton_self _))
  rw [gone] at stranded
  cases stranded

/-- File both, and evict the one that re-exports. -/
def evictReExport : List (RegistryOp plain) :=
  [.freezeMapped (oneFunction none) ⟨1⟩ [],
    .freezeMapped (oneFunction (some ⟨⟨1⟩, ⟨0⟩⟩)) ⟨2⟩ [], .evict ⟨2⟩]

theorem evictReExport_read_filed : ∃ registry : Registry plain,
    runAll (fun registry op => op.keepsOrigins registry) evictReExport {} = some registry ∧
      registry.ReadKey ⟨1⟩ ∧ registry.containsKey ⟨1⟩ = true := by
  obtain ⟨registry, ran⟩ := isSome_iff_exists.1 (by decide :
    (runAll (fun registry op => op.keepsOrigins registry) evictReExport {}).isSome = true)
  have filed : registry.containsKey ⟨1⟩ = true := by
    have held : (runAll (fun registry op => op.keepsOrigins registry) evictReExport {}).map
        (fun registry => registry.containsKey ⟨1⟩) = some true := by decide
    rw [ran] at held
    exact some.inj held
  exact ⟨registry, ran, .filed ⟨1⟩ filed, filed_artifacts_read_filed
    (Registry.Reaches.of_runAll evictReExport .start ran) ⟨1⟩ (.filed ⟨1⟩ filed)⟩

end LichenVm
