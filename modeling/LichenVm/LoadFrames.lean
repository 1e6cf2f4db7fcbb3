import LichenVm.Eviction
import LichenVm.DeviceRecords
import LichenVm.PackageStore

/-! What stands in a world of package stores, and what a load leaves as it was. -/

open List Option

namespace LichenVm

open Ast (Text)
open LoggedRun

variable {P : Program}

/-- The modules that are found from some keys by the references of filed artifacts. -/
inductive Registry.ReachedFrom (registry : Registry P) (keys : List ModuleKey) : ModuleKey → Prop
  | start {key : ModuleKey} (listed : key ∈ keys) : ReachedFrom registry keys key
  | step {key named : ModuleKey} {package : Package P} (reached : ReachedFrom registry keys key)
      (found : registry.get key = some package) (names : named ∈ package.refs) :
      ReachedFrom registry keys named

/-- The identity a module was filed under. -/
def Origin.hash (sha256 : Text → Digest) (origin : Origin) : Digest :=
  artifactHash sha256 (sha256 (origin.source ++ origin.libraries)) origin.deps

namespace Toolchain

variable (host : Toolchain P)

/-- Whether a file name is one of the host's embedded sources. -/
def embeds (name : Text) : Prop := name = CORE_PATH ∨ name ∈ host.natives.map Prod.fst

instance (name : Text) : Decidable (host.embeds name) := inferInstanceAs (Decidable (_ ∨ _))

def fileId (path : FilePath) : FileId :=
  if host.embeds path.name then .embedded path.name else .onDisk path

/-- A file ID that a store of this host records: no embedded name hides it. -/
def Names : FileId → Prop
  | .embedded name => host.embeds name
  | .onDisk path => ¬ host.embeds path.name

/-- What the loader relies on in the compiler. -/
structure Compiles : Prop where
  /-- A compiled module freezes. -/
  freezes : ∀ input registry compiled key, host.compile input registry = some compiled →
    (compiled.module.fromModule key).isSome
  /-- It names only modules its imports reach. -/
  names : ∀ input registry compiled, host.compile input registry = some compiled →
    ∀ named ∈ compiled.module.referencedKeys,
      registry.ReachedFrom (input.imports.map fun handle => handle.export.module) named
  /-- The embedded sources compile. -/
  embedded : ∀ source registry, source = host.core ∨ source ∈ host.natives.map Prod.snd →
    (host.compile { source } registry).isSome

end Toolchain

def PackageRegistry.filing (registry : PackageRegistry P) (key : ModuleKey) (hash : Digest)
    (artifact : StaticModule P) (origin : Origin) (record : PackageMeta) : PackageRegistry P where
  filed := registry.filed.file key hash artifact
  metas := (registry.metas.insert key {}).insert key record
  builtFrom := registry.builtFrom.insert key origin

section

variable (registry : PackageRegistry P) (key : ModuleKey) (hash : Digest)
  (artifact : StaticModule P) (origin : Origin) (record : PackageMeta)

include registry key hash artifact origin record

theorem PackageRegistry.filing_containsKey :
    (registry.filing key hash artifact origin record).filed.containsKey key := by
  show ((registry.filed.file key hash artifact).get key).isSome
  rw [Registry.get_file, if_pos rfl]
  rfl

theorem PackageRegistry.setPackageMeta_filed :
    PackageRegistry.setPackageMeta
        { filed := registry.filed.file key hash artifact, metas := registry.metas.insert key {}
          builtFrom := registry.builtFrom.insert key origin } key record =
      some (registry.filing key hash artifact origin record) :=
  if_pos (registry.filing_containsKey key hash artifact origin record)

end

section Worlds

variable (host : Toolchain P)

def World.Placed (world : World P) (file : FileId) (key : ModuleKey) : Prop :=
  (∃ entry, world.device.entries.get file = some entry ∧ entry.key = key) ∧
    world.registry.filed.containsKey key = true

/-- What stands in the maps of one store. -/
structure PackageStore.Stands (store : PackageStore) (world : World P) : Prop where
  native : ∀ name handle, store.native.get name = some handle →
    host.embeds name ∧ handle.path = Loader.builtinPath name ∧ handle.export.module = handle.key ∧
      world.Placed (.embedded name) handle.key
  packages : ∀ path handle, store.packages.get path = some handle →
    ¬ host.embeds path.name ∧ handle.path = path ∧ handle.export.module = handle.key ∧
      world.Placed (.onDisk path) handle.key
  pending : ∀ entry ∈ store.pendingNative, entry ∈ host.natives

/-- Each embedded package waits to be compiled or is there, but for a `missing` one. -/
def PackageStore.Waits (missing : Option Text) (store : PackageStore) : Prop :=
  ∀ name ∈ host.natives.map Prod.fst, missing ≠ some name →
    name ∈ store.pendingNative.map Prod.fst ∨ store.native.containsKey name = true

/-- What stands in every world: each record's key is its own, and each filed module has the hash
of what it was built from and an export. -/
structure World.Standing (world : World P) : Prop where
  device : world.device.Formed
  recorded : ∀ file entry, world.device.entries.get file = some entry →
    ∀ dep ∈ entry.deps, host.Names dep.1
  hashed : ∀ key package, world.registry.filed.get key = some package →
    ∃ origin, world.registry.builtFrom.get key = some origin ∧
      package.hash = origin.hash host.sha256
  exported : ∀ key, world.registry.filed.containsKey key = true →
    ((world.registry.metas.get key).bind PackageMeta.export).map StaticNodeId.module = some key
  stores : ∀ index, (world.stores index).Stands host world

/-- What a load of one store leaves: every record its key, every module filed, and the records and
modules of the `kept` files as they were. -/
structure World.Frame (index : Nat) (kept : FilePath → Prop) (world world' : World P) : Prop where
  files : world'.files = world.files
  others : ∀ other, other ≠ index → world'.stores other = world.stores other
  loading : (world'.stores index).loading = (world.stores index).loading
  records : world.device.Extends world'.device
  filed : ∀ key, world.registry.filed.containsKey key = true →
    world'.registry.filed.containsKey key = true
  packages : ∀ path, (world.stores index).packages.containsKey path = true →
    (world'.stores index).packages.containsKey path = true
  native : ∀ name, (world.stores index).native.containsKey name = true →
    (world'.stores index).native.containsKey name = true
  entries : ∀ path, kept path →
    world'.device.entries.get (.onDisk path) = world.device.entries.get (.onDisk path)
  modules : ∀ path, kept path → ∀ entry, world.device.entries.get (.onDisk path) = some entry →
    world'.registry.filed.get entry.key = world.registry.filed.get entry.key

/-- A handle that a load of `path` answers. -/
structure World.Serves (index : Nat) (path : FilePath) (handle : PackageHandle) (world : World P) :
    Prop where
  served : handle.path = Loader.dependencyPath (host.fileId path)
  «export» : handle.export.module = handle.key
  placed : world.Placed (host.fileId path) handle.key
  native : host.embeds path.name → (world.stores index).native.containsKey path.name = true

end Worlds

theorem PackageStore.Stands.placed {host : Toolchain P} {world world' : World P}
    {store : PackageStore} (stands : store.Stands host world)
    (grows : ∀ file key, world.Placed file key → world'.Placed file key) :
    store.Stands host world' where
  native name handle held := by
    obtain ⟨embeds, path, own, placed⟩ := stands.native name handle held
    exact ⟨embeds, path, own, grows _ _ placed⟩
  packages path handle held := by
    obtain ⟨plain, same, own, placed⟩ := stands.packages path handle held
    exact ⟨plain, same, own, grows _ _ placed⟩
  pending := stands.pending

namespace World

variable {host : Toolchain P} {index : Nat} {kept : FilePath → Prop} {world world' world'' : World P}

theorem Frame.refl (index : Nat) (kept : FilePath → Prop) (world : World P) :
    Frame index kept world world :=
  ⟨rfl, fun _ _ => rfl, rfl, .refl _, fun _ => id, fun _ => id, fun _ => id, fun _ _ => rfl,
    fun _ _ _ _ => rfl⟩

theorem Frame.trans (first : Frame index kept world world') (second : Frame index kept world' world'') :
    Frame index kept world world'' where
  files := second.files.trans first.files
  others other apart := (second.others other apart).trans (first.others other apart)
  loading := second.loading.trans first.loading
  records := first.records.trans second.records
  filed key holds := second.filed key (first.filed key holds)
  packages path held := second.packages path (first.packages path held)
  native name held := second.native name (first.native name held)
  entries path keeps := (second.entries path keeps).trans (first.entries path keeps)
  modules path keeps entry found := by
    have found' := (first.entries path keeps).trans found
    exact (second.modules path keeps entry found').trans (first.modules path keeps entry found)

theorem Frame.mono {kept' : FilePath → Prop} (frame : Frame index kept world world')
    (fewer : ∀ path, kept' path → kept path) : Frame index kept' world world' :=
  { frame with
    entries := fun path keeps => frame.entries path (fewer path keeps)
    modules := fun path keeps => frame.modules path (fewer path keeps) }

theorem Placed.frame {file : FileId} {key : ModuleKey} (placed : world.Placed file key)
    (frame : Frame index kept world world') : world'.Placed file key := by
  obtain ⟨⟨entry, found, same⟩, filed⟩ := placed
  obtain ⟨entry', found', same'⟩ := frame.records file entry found
  exact ⟨⟨entry', found', same'.trans same⟩, frame.filed key filed⟩

variable {path : FilePath}

theorem Serves.frame {handle : PackageHandle} (serves : world.Serves host index path handle)
    (frame : Frame index kept world world') : world'.Serves host index path handle :=
  ⟨serves.served, serves.export, serves.placed.frame frame, fun embeds =>
    frame.native _ (serves.native embeds)⟩

/-- A world in the midst of a load: the files in flight are on disk, each entered once, and there
are levels left for the others. -/
structure InFlight (host : Toolchain P) (index levels : Nat) (held : FilePath → Prop)
    (missing : Option Text) (world : World P) : Prop where
  standing : world.Standing host
  waits : ∀ other, (world.stores other).Waits host (if other = index then missing else none)
  once : (world.stores index).loading.Nodup
  present : ∀ path ∈ (world.stores index).loading, world.files.containsKey path = true
  room : world.files.entries.length < levels + (world.stores index).loading.length
  holds : ∀ path, held path → path ∈ (world.stores index).loading ∨
    (world.stores index).packages.containsKey path = true

variable {levels : Nat} {held : FilePath → Prop} {missing : Option Text}

theorem Standing.setStore (standing : world.Standing host) (index : Nat)
    (change : PackageStore → PackageStore)
    (stands : (change (world.stores index)).Stands host world) :
    (world.setStore index change).Standing host := by
  refine ⟨standing.device, standing.recorded, standing.hashed, standing.exported, fun other => ?_⟩
  show (if other = index then change (world.stores index) else world.stores other).Stands host _
  split
  · exact stands.placed fun _ _ placed => placed
  · exact (standing.stores other).placed fun _ _ placed => placed

section

variable (flight : InFlight host index levels held missing world)

include flight

/-- A change to the loading store's own maps. -/
theorem InFlight.setStore (kept : FilePath → Prop) (missing' : Option Text)
    (change : PackageStore → PackageStore)
    (stands : (change (world.stores index)).Stands host world)
    (waits : (change (world.stores index)).Waits host missing')
    (loading : (change (world.stores index)).loading = (world.stores index).loading)
    (packages : ∀ path, (world.stores index).packages.containsKey path →
      (change (world.stores index)).packages.containsKey path)
    (native : ∀ name, (world.stores index).native.containsKey name →
      (change (world.stores index)).native.containsKey name) :
    InFlight host index levels held missing' (world.setStore index change) ∧
      Frame index kept world (world.setStore index change) := by
  have own : (world.setStore index change).stores index = change (world.stores index) := if_pos rfl
  refine ⟨⟨flight.standing.setStore index change stands, fun other => ?_, ?_, ?_, ?_, ?_⟩,
    ⟨rfl, fun _ apart => if_neg apart, ?_, .refl _, fun _ => id, ?_, ?_, fun _ _ => rfl,
      fun _ _ _ _ => rfl⟩⟩
  · by_cases same : other = index
    · rw [same, own, if_pos rfl]
      exact waits
    · have apart : (world.setStore index change).stores other = world.stores other := if_neg same
      have waits := flight.waits other
      rw [if_neg same] at waits ⊢
      rw [apart]
      exact waits
  · rw [own, loading]
    exact flight.once
  · rw [own, loading]
    exact flight.present
  · rw [own, loading]
    exact flight.room
  · intro path keeps
    rw [own, loading]
    rcases flight.holds path keeps with inside | loaded
    · exact .inl inside
    · exact .inr (packages path loaded)
  · rw [own, loading]
  · rw [own]
    exact packages
  · rw [own]
    exact native

theorem InFlight.setDevice (kept : FilePath → Prop) {device : DeviceRegistry}
    (formed : device.Formed) (extends_ : world.device.Extends device)
    (recorded : ∀ file entry, device.entries.get file = some entry →
      ∀ dep ∈ entry.deps, host.Names dep.1)
    (entries : ∀ path, kept path →
      device.entries.get (.onDisk path) = world.device.entries.get (.onDisk path)) :
    InFlight host index levels held missing { world with device } ∧
      Frame index kept world { world with device } := by
  have frame : Frame index kept world { world with device } :=
    ⟨rfl, fun _ _ => rfl, rfl, extends_, fun _ => id, fun _ => id, fun _ => id, entries, fun _ _ _ _ => rfl⟩
  refine ⟨⟨⟨formed, recorded, flight.standing.hashed, flight.standing.exported, fun other => ?_⟩,
    flight.waits, flight.once, flight.present, flight.room, flight.holds⟩, frame⟩
  exact (flight.standing.stores other).placed fun _ _ placed => placed.frame frame

theorem InFlight.setRegistry (registry : PackageRegistry P)
    (hashed : ∀ key package, registry.filed.get key = some package →
      ∃ origin, registry.builtFrom.get key = some origin ∧ package.hash = origin.hash host.sha256)
    (exported : ∀ key, registry.filed.containsKey key →
      ((registry.metas.get key).bind PackageMeta.export).map StaticNodeId.module = some key)
    (filed : ∀ key, world.registry.filed.containsKey key → registry.filed.containsKey key)
    (modules : ∀ path, kept path → ∀ entry, world.device.entries.get (.onDisk path) = some entry →
      registry.filed.get entry.key = world.registry.filed.get entry.key) :
    InFlight host index levels held missing { world with registry } ∧
      Frame index kept world { world with registry } := by
  have frame : Frame index kept world { world with registry } :=
    ⟨rfl, fun _ _ => rfl, rfl, .refl _, filed, fun _ => id, fun _ => id, fun _ _ => rfl, modules⟩
  refine ⟨⟨⟨flight.standing.device, flight.standing.recorded, hashed, exported, fun other => ?_⟩,
    flight.waits, flight.once, flight.present, flight.room, flight.holds⟩, frame⟩
  exact (flight.standing.stores other).placed fun _ _ placed => placed.frame frame

/-- A module filed under a key that no kept file has. -/
theorem InFlight.file (base : PackageRegistry P) {key : ModuleKey} (artifact : StaticModule P)
    (origin : Origin) {hash : Digest} (record : PackageMeta) {place : StaticNodeId}
    (filed : ∀ other, other ≠ key → base.filed.get other = world.registry.filed.get other)
    (metas : base.metas = world.registry.metas)
    (builtFrom : base.builtFrom = world.registry.builtFrom)
    (folds : hash = origin.hash host.sha256) (exports : record.export = some place)
    (own : place.module = key)
    (apart : ∀ path, kept path → ∀ entry, world.device.entries.get (.onDisk path) = some entry →
      entry.key ≠ key) :
    InFlight host index levels held missing
        { world with registry := base.filing key hash artifact origin record } ∧
      Frame index kept world { world with registry := base.filing key hash artifact origin record } := by
  have present : ∀ other, (base.filing key hash artifact origin record).filed.containsKey other =
      if other = key then true else world.registry.filed.containsKey other := by
    intro other
    show ((base.filed.file key hash artifact).get other).isSome = _
    rw [Registry.get_file]
    split
    · rfl
    · next apart => rw [filed other apart]; rfl
  apply flight.setRegistry
  · intro other found held
    change (base.filed.file key hash artifact).get other = _ at held
    show ∃ from_, (base.builtFrom.insert key origin).get other = _ ∧ _
    rw [Registry.get_file] at held
    rw [AssocMap.get_insert]
    split at held
    · next same =>
      cases held
      exact ⟨origin, if_pos same, folds⟩
    · next apart =>
      rw [if_neg apart, builtFrom]
      rw [filed other apart] at held
      exact flight.standing.hashed _ _ held
  · intro other held
    rw [present] at held
    show (((base.metas.insert key {}).insert key record).get other >>= _).map _ = _
    rw [AssocMap.get_insert, AssocMap.get_insert]
    split at held
    · next same =>
      rw [if_pos same, bind_eq_bind, bind_some, exports, map_some, own, same]
    · next apart =>
      rw [if_neg apart, if_neg apart, metas]
      exact flight.standing.exported _ held
  · intro other held
    rw [present]
    split
    · rfl
    · exact held
  · intro path keeps entry found
    show (base.filed.file key hash artifact).get entry.key = _
    rw [Registry.get_file, if_neg (apart path keeps entry found),
      filed _ (apart path keeps entry found)]

end

/-- Enter a file: a level is taken, and its record and module are kept too. -/
theorem InFlight.push (flight : InFlight host index (levels + 1) held none world)
    (present : world.files.containsKey path) (apart : path ∉ (world.stores index).loading) :
    InFlight host index levels (fun other => other = path ∨ held other) none
      (world.setStore index fun store => { store with loading := path :: store.loading }) := by
  let change : PackageStore → PackageStore := fun store => { store with loading := path :: store.loading }
  have own : (world.setStore index change).stores index = change (world.stores index) := if_pos rfl
  have standing := flight.standing
  have each : ∀ other, (world.setStore index change).stores other =
      if other = index then change (world.stores index) else world.stores other := fun _ => rfl
  have stands := standing.stores index
  refine ⟨standing.setStore index change ⟨stands.native, stands.packages, stands.pending⟩,
    fun other => ?_, ?_, ?_, ?_, ?_⟩
  · rw [each]
    have waits := flight.waits other
    rw [ite_self] at waits ⊢
    split
    · next same => exact same ▸ waits
    · exact waits
  · rw [own]
    exact nodup_cons.2 ⟨apart, flight.once⟩
  · rw [own]
    intro other member
    rcases mem_cons.1 member with same | later
    · exact same ▸ present
    · exact flight.present other later
  · rw [own]
    show world.files.entries.length < levels + (path :: (world.stores index).loading).length
    have room := flight.room
    rw [length_cons]
    omega
  · rw [own]
    intro other keeps
    rcases keeps with same | keeps
    · exact .inl (same ▸ mem_cons_self)
    · exact (flight.holds other keeps).imp (mem_cons_of_mem _) id

/-- Leave the file entered last. -/
theorem InFlight.pop {world' : World P}
    (flight : InFlight host index (levels + 1) held none world)
    (inside : InFlight host index levels (fun other => other = path ∨ held other) none world')
    (framed : Frame index held
      (world.setStore index fun store => { store with loading := path :: store.loading }) world') : 
    InFlight host index (levels + 1) held none
        (world'.setStore index fun store => { store with loading := store.loading.tail }) ∧
      Frame index held world
        (world'.setStore index fun store => { store with loading := store.loading.tail }) := by
  let change : PackageStore → PackageStore := fun store => { store with loading := store.loading.tail }
  have before : ((world.setStore index fun store => { store with
      loading := path :: store.loading }).stores index) =
      { world.stores index with loading := path :: (world.stores index).loading } := if_pos rfl
  have own : (world'.setStore index change).stores index = change (world'.stores index) := if_pos rfl
  have loading : (change (world'.stores index)).loading = (world.stores index).loading := by
    show (world'.stores index).loading.tail = _
    rw [framed.loading, before, tail_cons]
  have standing := inside.standing
  have each : ∀ other, (world'.setStore index change).stores other =
      if other = index then change (world'.stores index) else world'.stores other := fun _ => rfl
  have packages := framed.packages
  have native := framed.native
  rw [before] at packages native
  have stands := standing.stores index
  refine ⟨⟨standing.setStore index change ⟨stands.native, stands.packages, stands.pending⟩,
    fun other => ?_, ?_, ?_, ?_, ?_⟩, ⟨framed.files, fun other apart => ?_, ?_, framed.records, framed.filed, ?_, ?_,
    framed.entries, framed.modules⟩⟩
  · rw [each]
    have waits := inside.waits other
    rw [ite_self] at waits ⊢
    split
    · next same => exact same ▸ waits
    · exact waits
  · rw [own, loading]
    exact flight.once
  · rw [own, loading]
    show ∀ path ∈ _, world'.files.containsKey path
    rw [framed.files]
    exact flight.present
  · rw [own, loading]
    show world'.files.entries.length < _
    rw [framed.files]
    exact flight.room
  · rw [own, loading]
    intro other keeps
    rcases flight.holds other keeps with entered | loaded
    · exact .inl entered
    · exact .inr (packages other loaded)
  · rw [each, if_neg apart, framed.others other apart]
    exact if_neg apart
  · rw [own, loading]
  · rw [own]
    exact packages
  · rw [own]
    exact native

end World

end LichenVm
