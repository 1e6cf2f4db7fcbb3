import LichenVm.ArtifactContainer
import LichenVm.DeviceRegistry
import LichenVm.LoggedRun
import LichenVm.Registry

/-! Package stores: loading a package and its imports over a shared registry and a device cache. -/

namespace LichenVm

open Ast (Text)
open LoggedRun

variable {P : Program}

/-- ".lichen". -/
def packageExtension : Text := [46, 108, 105, 99, 104, 101, 110]

/-- The built-in prelude, "core.lichen". -/
def CORE_PATH : Text := [99, 111, 114, 101] ++ packageExtension

/-- A loaded package: the path, its registry key, and the export's static ref. -/
structure PackageHandle where
  path : FilePath
  key : ModuleKey
  «export» : StaticNodeId
  /-- Extra bindings a package exposes; empty for an ordinary one. -/
  direct : List (Text × StaticNodeId) := []
  deriving DecidableEq

/-- What the store keeps beside an artifact. -/
structure PackageMeta where
  «export» : Option StaticNodeId := none
  direct : List (Text × StaticNodeId) := []

/-- What the identity of a filed package was folded from. -/
structure Origin where
  source : Text
  /-- The bytes of its linked libraries. -/
  libraries : Text
  deps : List (ModuleKey × Digest)
  deriving DecidableEq

/-- The modules of one process, with what the stores record of each. -/
structure PackageRegistry (P : Program) where
  filed : Registry P := {}
  metas : AssocMap ModuleKey PackageMeta := {}
  /-- What each was built from. Nothing reads it. -/
  builtFrom : AssocMap ModuleKey Origin := {}

namespace PackageRegistry

/-- Freeze a module under `key`. A reference that is not registered, or a key that is, panics:
`none`. -/
def freeze (registry : PackageRegistry P) (m : Module P) (key : ModuleKey) (hash : Digest)
    (origin : Origin) : Option (PackageRegistry P) :=
  (registry.filed.freezeMapped m key hash).map fun filed =>
    { registry with filed, metas := registry.metas.insert key {}
                    builtFrom := registry.builtFrom.insert key origin }

/-- Freeze a recompile: the key is the file's own slot. -/
def freezeReplacing (registry : PackageRegistry P) (m : Module P) (key : ModuleKey) (hash : Digest)
    (origin : Origin) : Option (PackageRegistry P) :=
  let filed := { registry.filed with entries := registry.filed.entries.remove key }
  { registry with filed }.freeze m key hash origin

/-- File an artifact loaded from the device under a key that is not registered; else panic. -/
def insertModule (registry : PackageRegistry P) (key : ModuleKey) (hash : Digest)
    (artifact : StaticModule P) (origin : Origin) : Option (PackageRegistry P) :=
  if registry.filed.containsKey key then none
  else some { filed := registry.filed.file key hash artifact, metas := registry.metas.insert key {}
              builtFrom := registry.builtFrom.insert key origin }

/-- Set the metadata of a registered package; another panics. -/
def setPackageMeta (registry : PackageRegistry P) (key : ModuleKey) (record : PackageMeta) :
    Option (PackageRegistry P) :=
  if registry.filed.containsKey key then some { registry with metas := registry.metas.insert key record }
  else none

end PackageRegistry

/-- What a store reads in the leading block of a source. -/
structure Header where
  /-- The vendored aliases its dependencies are fetched under. -/
  staged : List (Text × Text) := []
  /-- A dependency is not fetched. -/
  unfetched : Bool := false
  imports : List Text := []
  links : List Text := []
  /-- The block does not lex or parse, or plugs a plugin the compiler is not composed over. -/
  refused : Bool := false

/-- What a compile reads: the source, what its block links and imports, and the libraries whose
operators it may name. -/
structure CompileInput where
  source : Text
  libraries : List Text := []
  imports : List PackageHandle := []
  linked : List Text := []

/-- A compiled and evaluated source: its module, its export, and the names it exposes. -/
structure Compiled (P : Program) where
  module : Module P
  root : NodeId
  terms : List (Text × NodeId) := []

/-- Where a node is filed by a freeze of the whole module. -/
def Compiled.place (compiled : Compiled P) (key : ModuleKey) (node : NodeId) : StaticNodeId :=
  { module := key, index := ⟨compiled.module.nodes.keys.idxOf node⟩ }

/-- What a program type and its process fix. -/
structure Toolchain (P : Program) where
  codec : ArtifactCodec P
  sha256 : Text → Digest
  /-- A module with runtime-only values leaves its package uncached. -/
  runtimeOnly : StaticModule P → Bool
  header : Text → Header
  /-- An import path, resolved against the vendored aliases and the importer. -/
  resolve : List (Text × Text) → FilePath → Text → Option FilePath
  /-- A link path, resolved against the source that names it. -/
  linkPath : FilePath → Text → FilePath
  /-- Whether a library's bytes load and install under an id. -/
  links : Text → Nat → Bool
  /-- Compile and evaluate a source: `none` reports diagnostics. -/
  compile : CompileInput → Registry P → Option (Compiled P)
  /-- The prelude's source, and the embedded packages a host installs, by file name. -/
  core : Text
  natives : List (Text × Text)
  /-- Whether the disk takes an artifact: a failed write leaves the previous one. -/
  takes : FileId → Words → Bool

/-- One process-local package store. -/
structure PackageStore where
  packages : AssocMap FilePath PackageHandle := {}
  /-- The in-flight load stack; a re-entry closes an import cycle. -/
  loading : List FilePath := []
  /-- The embedded packages compiled so far, by file name. -/
  native : AssocMap Text PackageHandle := {}
  /-- Those registered and not compiled yet. -/
  pendingNative : List (Text × Text) := []
  vendored : List (Text × Text) := []
  linked : List (FilePath × Text) := []
  compiled : Nat := 0
  loadedFromCache : Nat := 0

/-- The files, the device cache, the registry, and the stores that share them. -/
structure World (P : Program) where
  files : AssocMap FilePath Text
  device : DeviceRegistry := {}
  registry : PackageRegistry P := {}
  stores : Nat → PackageStore

/-- Why a load stops without a handle. -/
inductive Stop where
  | diagnostics
  /-- `device key was reclaimed`. -/
  | reclaimed
  /-- A broken assertion of the registry or the device, or an `expect`. -/
  | assertion
  /-- Out of levels. -/
  | unfinished
  deriving DecidableEq

/-- What a load passes through, with the world as it was there. -/
inductive Visit (P : Program) where
  /-- A file's record was verified. -/
  | verified (world : World P) (path : FilePath) (source : Text)
  /-- A package is about to be compiled under its key. -/
  | compiles (world : World P) (key : ModuleKey) (imports : List PackageHandle)
  /-- Its artifact was loaded from the device. -/
  | reused (path : FilePath)
  /-- Its compile was filed. -/
  | built (path : FilePath)

abbrev Loader (P : Program) := Run (World P) (Visit P) Stop

def World.setStore (world : World P) (index : Nat) (change : PackageStore → PackageStore) : World P :=
  { world with stores := fun other =>
      if other = index then change (world.stores index) else world.stores other }

namespace Loader

def store (index : Nat) : Loader P PackageStore := do
  let world ← Run.state
  Run.pure (world.stores index)

def setStore (index : Nat) (change : PackageStore → PackageStore) : Loader P Unit :=
  Run.update fun world => world.setStore index change

def alloc (file : FileId) : Loader P ModuleKey := do
  let world ← Run.state
  Run.update fun world => { world with device := (world.device.alloc file).2 }
  Run.pure (world.device.alloc file).1

/-- Change the registry, or stop at a broken assertion. -/
def setRegistry (change : PackageRegistry P → Option (PackageRegistry P)) : Loader P Unit := do
  let world ← Run.state
  let registry ← Run.orStop .assertion (change world.registry)
  Run.update fun world => { world with registry }

/-- The answer, or none when diagnostics were reported; a panic goes on. -/
def tolerate {A : Type} (run : Loader P A) : Loader P (Option A) := do
  let answer ← Run.attempt run
  match answer with
  | .ok a => Run.pure (some a)
  | .error .diagnostics => Run.pure none
  | .error stop => Run.stop stop

section Load

variable (host : Toolchain P) (index : Nat)

/-- The path an embedded source is exposed at. -/
def builtinPath (name : Text) : FilePath := { directory := [], name }

/-- The handle of a filed embedded source, from what is recorded of it. -/
def builtinHandle (registry : PackageRegistry P) (name : Text) (key : ModuleKey) :
    Option PackageHandle := do
  let _ ← registry.filed.get key
  let record ← registry.metas.get key
  let «export» ← record.export
  some { path := builtinPath name, key, «export», direct := record.direct }

/-- An embedded source the registry already holds, as a handle. -/
def registeredBuiltin (name : Text) : Loader P (Option PackageHandle) := do
  let key ← alloc (.embedded name)
  let world ← Run.state
  Run.pure (builtinHandle world.registry name key)

/-- Compile, freeze and file an embedded source. It imports nothing, and its identity is its own
source hash. -/
def fileEmbedded (name source : Text) : Loader P PackageHandle := do
  let world ← Run.state
  let compiled ← Run.orStop .diagnostics (host.compile { source } world.registry.filed)
  let hash := artifactHash host.sha256 (host.sha256 source) []
  let key ← alloc (.embedded name)
  setRegistry fun registry =>
    registry.freeze compiled.module key hash { source, libraries := [], deps := [] }
  let handle : PackageHandle :=
    { path := builtinPath name, key, «export» := compiled.place key compiled.root
      direct := compiled.terms.map fun (name, term) => (name, compiled.place key term) }
  setRegistry fun registry =>
    registry.setPackageMeta key { «export» := some handle.export, direct := handle.direct }
  Run.pure handle

/-- Register an embedded source under its name: one key, one artifact. -/
def registerEmbedded (count : Nat) (name source : Text) : Loader P PackageHandle := do
  let registered ← registeredBuiltin name
  match registered with
  | some handle => do
    setStore index fun store => { store with native := store.native.insert name handle }
    Run.pure handle
  | none => do
    let handle ← fileEmbedded host name source
    setStore index fun store =>
      { store with native := store.native.insert name handle, compiled := store.compiled + count }
    Run.pure handle

/-- The prelude is not counted as compiled. -/
def registerCore : Loader P PackageHandle := registerEmbedded host index 0 CORE_PATH host.core

def registerNative (name source : Text) : Loader P PackageHandle :=
  registerEmbedded host index 1 name source

/-- Compile the pending embedded package that `name` names, if one is. -/
def materializePendingNative (name : Text) : Loader P Unit := do
  let store ← store index
  match store.pendingNative.find? fun entry => entry.1 = name with
  | none => Run.pure ()
  | some entry => do
    setStore index fun store =>
      { store with pendingNative := store.pendingNative.eraseP fun entry => entry.1 = name }
    let _ ← registerNative host index entry.1 entry.2
    Run.pure ()

/-- Open a library and answer its id: one load per path. -/
def link (path : FilePath) : Loader P Nat := do
  let world ← Run.state
  let bytes ← Run.orStop .diagnostics (world.files.get path)
  let store ← store index
  match store.linked.findIdx? fun entry => entry.1 = path with
  | some id => Run.pure id
  | none =>
    if host.links bytes store.linked.length then do
      setStore index fun store => { store with linked := store.linked ++ [(path, bytes)] }
      Run.pure store.linked.length
    else Run.stop .diagnostics

/-- Link what a block names, once each. -/
def linkAll (base : FilePath) : List Text → List Nat → Loader P (List (Nat × FilePath))
  | [], _ => Run.pure []
  | text :: texts, loaded => do
    let path := host.linkPath base text
    let id ← link host index path
    if id ∈ loaded then linkAll base texts loaded
    else do
      let linked ← linkAll base texts (loaded ++ [id])
      Run.pure ((id, path) :: linked)

/-- The device file ID of an import path the store resolved. -/
def dependencyFileId (store : PackageStore) (path : FilePath) : FileId :=
  if store.native.containsKey path.name then .embedded path.name else .onDisk path

/-- The path a recorded dependency loads from. -/
def dependencyPath : FileId → FilePath
  | .embedded name => builtinPath name
  | .onDisk path => path

/-- The modules a reader is supplied with: the direct dependencies'. -/
def suppliedModules (registry : Registry P) (deps : List (FileId × ModuleKey)) : Modules P :=
  fun named =>
    if named ∈ deps.map Prod.snd then (registry.get named).map Package.module else none

/-- Load the artifact of a verified file and register it. A missing or corrupt one is `none`. -/
def loadArtifact (path : FilePath) (verified : Verified) (origin : Origin) :
    Loader P (Option PackageHandle) := do
  let world ← Run.state
  -- `expect("a dependency is loaded")`
  if !verified.deps.all fun dep => world.registry.filed.containsKey dep.2 then Run.stop .assertion
  else
    let modules := suppliedModules world.registry.filed verified.deps
    match (world.device.artifacts.get (.onDisk path)).bind fun words =>
        deserializeArtifactWith host.codec words verified.key verified.hash modules with
    | none => Run.pure none
    | some (artifact, place) => do
      setRegistry fun registry => registry.insertModule verified.key verified.hash artifact origin
      let «export» : StaticNodeId := { module := verified.key, index := place }
      setRegistry fun registry => registry.setPackageMeta verified.key { «export» := some «export» }
      setStore index fun store => { store with loadedFromCache := store.loadedFromCache + 1 }
      Run.note fun _ => .reused path
      Run.pure (some { path, key := verified.key, «export» })

section Recursion

variable (load : FilePath → Loader P PackageHandle)

/-- Reuse an already-registered artifact, or load it from the device. -/
def tryReuse (path : FilePath) (verified : Verified) (origin : Origin) :
    Loader P (Option PackageHandle) := do
  let _ ← Run.each (fun dep => load (dependencyPath dep.1)) verified.deps
  let world ← Run.state
  match world.registry.filed.get verified.key with
  | some package =>
    if package.hash = verified.hash then do
      let «export» ← Run.orStop .assertion
        ((world.registry.metas.get verified.key).bind PackageMeta.export)
      Run.pure (some { path, key := verified.key, «export» })
    else Run.stop .reclaimed
  | none => loadArtifact host index path verified origin

def resolveImport (base : FilePath) (text : Text) : Loader P PackageHandle := do
  let store ← store index
  let path ← Run.orStop .diagnostics (host.resolve store.vendored base text)
  load path

/-- Resolve the imports of a source through the store: every one is tried, and the prelude goes
in first. -/
def preprocess (path : FilePath) (header : Header) : Loader P (List PackageHandle) := do
  let imports ← Run.each (fun text => tolerate (resolveImport host index load path text)) header.imports
  let prelude ← tolerate (load (builtinPath CORE_PATH))
  if header.refused then Run.stop .diagnostics
  else Run.orStop .diagnostics ((prelude :: imports).mapM id)

/-- Store a filed artifact and complete its record. A codec refusal or a runtime-only module
leaves the package uncached. -/
def publish (path : FilePath) (source : Text) (handle : PackageHandle) (hash : Digest)
    (deps : List (FileId × ModuleKey)) : Loader P Unit := do
  let world ← Run.state
  let package ← Run.orStop .assertion (world.registry.filed.get handle.key)
  let modules : Modules P := fun named => (world.registry.filed.get named).map Package.module
  match (if host.runtimeOnly package.module then none
      else serializeArtifactWith host.codec package.module modules hash handle.export.index) with
  | none => Run.pure ()
  | some words => do
    let device := if host.takes (.onDisk path) words then
        world.device.storeArtifact (.onDisk path) words
      else world.device
    let device ← Run.orStop .assertion
      (device.publish host.sha256 (.onDisk path) handle.key (host.sha256 source) deps)
    Run.update fun world => { world with device }

/-- Compile, freeze and file a source whose imports are loaded. -/
def compilePackage (path : FilePath) (source : Text) (header : Header)
    (imports : List PackageHandle) : Loader P PackageHandle := do
  let linked ← linkAll host index path header.links []
  let store ← store index
  let world ← Run.state
  let deps := imports.map fun handle => (dependencyFileId store handle.path, handle.export.module)
  let libraries := linked.flatMap fun (_, path) => (world.files.get path).getD []
  let hash := world.device.artifactIdentity host.sha256 (host.sha256 (source ++ libraries)) deps
  let origin : Origin := { source, libraries, deps := depIdentities world.device.entries deps }
  let key ← alloc (.onDisk path)
  Run.note fun world => .compiles world key imports
  let input : CompileInput :=
    { source, imports
      libraries := linked.filterMap fun (id, _) => store.linked[id]?.map Prod.snd
      linked := if header.links.isEmpty then [] else store.linked.map Prod.snd }
  let compiled ← Run.orStop .diagnostics (host.compile input world.registry.filed)
  setRegistry fun registry => registry.freezeReplacing compiled.module key hash origin
  let handle : PackageHandle := { path, key, «export» := compiled.place key compiled.root }
  setRegistry fun registry => registry.setPackageMeta key { «export» := some handle.export }
  publish host path source handle hash deps
  setStore index fun store => { store with compiled := store.compiled + 1 }
  Run.note fun _ => .built path
  Run.pure handle

/-- Read, resolve, compile and freeze one package, serializing it to the cache. -/
def buildPackage (path : FilePath) (source : Text) : Loader P PackageHandle := do
  let header := host.header source
  setStore index fun store => { store with vendored := header.staged ++ store.vendored }
  if header.unfetched then Run.stop .diagnostics
  else do
    let imports ← preprocess host index load path header
    compilePackage host index path source header imports

/-- Incremental verification first, then compile. -/
def loadPackageInner (path : FilePath) : Loader P PackageHandle := do
  let world ← Run.state
  let source ← Run.orStop .diagnostics (world.files.get path)
  match world.device.verify host.sha256 world.files (.onDisk path) source with
  | none => buildPackage host index load path source
  | some verified => do
    Run.note fun world => .verified world path source
    let origin : Origin :=
      { source, libraries := [], deps := depIdentities world.device.entries verified.deps }
    let reused ← tryReuse host index load path verified origin
    match reused with
    | some handle => Run.pure handle
    -- The artifact file is missing or corrupt: a fresh compile, under the pending key.
    | none => buildPackage host index load path source

/-- Load a file that is not in flight and not loaded yet. -/
def loadFile (path : FilePath) : Loader P PackageHandle := do
  let world ← Run.state
  let store ← store index
  if !world.files.containsKey path then Run.stop .diagnostics
  else if path ∈ store.loading then Run.stop .diagnostics
  else
    match store.packages.get path with
    | some handle => Run.pure handle
    | none => do
      setStore index fun store => { store with loading := path :: store.loading }
      let answer ← Run.attempt (loadPackageInner host index load path)
      setStore index fun store => { store with loading := store.loading.tail }
      match answer with
      | .error stop => Run.stop stop
      | .ok handle => do
        setStore index fun store => { store with packages := store.packages.insert path handle }
        Run.pure handle

end Recursion

/-- Only `.lichen` files are packages. -/
def isPackage (name : Text) : Bool :=
  decide (packageExtension.length < name.length) && packageExtension.isSuffixOf name

/-- Load a package, resolving its imports first. -/
def loadPackage : Nat → FilePath → Loader P PackageHandle
  | 0, _ => Run.stop .unfinished
  | levels + 1, path => do
    materializePendingNative host index path.name
    let store ← store index
    match store.native.get path.name with
    | some handle => Run.pure handle
    | none =>
      if path.name = CORE_PATH then registerCore host index
      else if isPackage path.name then loadFile host index (loadPackage levels) path
      else Run.stop .diagnostics

end Load

end Loader

/-- What can happen to the stores that share a device cache. -/
inductive LoadStep where
  | load (store : Nat) (path : FilePath)
  /-- A file is written, or removed. -/
  | edit (path : FilePath) (content : Option Text)
  /-- The process ends; another one starts over the same cache. -/
  | restart

namespace World

/-- A store that has loaded nothing. -/
def freshStore (host : Toolchain P) : PackageStore := { pendingNative := host.natives }

/-- No package has been loaded and nothing is cached. -/
def start (host : Toolchain P) (files : AssocMap FilePath Text) : World P :=
  { files, stores := fun _ => freshStore host }

/-- A package load of one store. A file is entered once, so there are no more levels than files. -/
def load (host : Toolchain P) (world : World P) (index : Nat) (path : FilePath) :
    RunEnd (World P) (Visit P) Stop PackageHandle :=
  Loader.loadPackage host index (world.files.entries.length + 1) path world

def run (host : Toolchain P) (world : World P) : LoadStep → World P
  | .load index path => (world.load host index path).state
  | .edit path content =>
    { world with files := match content with
        | some content => world.files.insert path content
        | none => world.files.remove path }
  | .restart => { files := world.files, device := world.device, stores := fun _ => freshStore host }

end World

end LichenVm
