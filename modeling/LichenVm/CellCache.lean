import LichenVm.ArtifactContainer
import LichenVm.CellStore

/-! The on-disk cell cache, and the compiles that read and write it. -/

namespace LichenVm

open Ast (Path Text)

variable {P : Program}

/-- One record: a cell's path, the key it was frozen under, and its artifact. -/
structure Record (P : Program) where
  path : Path
  /-- The artifact's own module key, which its bytes were written with. -/
  module : ModuleKey
  readOnly : Bool
  /-- Every dependency the artifact references, with its artifact hash. -/
  refs : List (ModuleKey × Hash)
  key : List Nat
  artifact : Words
  /-- What the artifact is, and what each of its references named when it was frozen. Neither
  is written. -/
  frozenAs : StaticModule P
  against : List (ModuleKey × StaticModule P)

/-- What a program type and its process fix. -/
structure Host (P : Program) where
  codec : ArtifactCodec P
  /-- The vocabulary's name. -/
  vocabulary : Text
  /-- The rendering of a path its file is named by. -/
  pathText : Path → Text
  /-- The artifact of a package, which its key and its identity name. -/
  package : ModuleKey → Hash → StaticModule P

/-- A stable tag for a source id. -/
def tag (text : Text) : UInt64 :=
  text.foldl (fun hash byte => (hash ^^^ byte.toUInt64) * 0x100000001b3) 0xcbf29ce484222325

/-- A record's file: the directory of its source, and its name there. -/
abbrev FileName := UInt64 × UInt64

abbrev Disk (P : Program) := AssocMap FileName (Record P)

namespace Host

variable (host : Host P)

/-- One source's cache directory, scoped by the vocabulary that wrote it. -/
def dirOf (source : Text) : UInt64 := tag (source ++ 124 :: host.vocabulary)

/-- One cell's file, named by its path so a rewritten cell replaces its own file. -/
def fileOf (source : Text) (path : Path) : FileName := (host.dirOf source, tag (host.pathText path))

/-- Write one file per cell, leaving the other cells alone. -/
def write (disk : Disk P) (source : Text) (records : List (Record P)) : Disk P :=
  records.foldl (fun disk record => disk.insert (host.fileOf source record.path) record) disk

/-- Read a source's records, in the order its directory lists the files. -/
def read (disk : Disk P) (source : Text) (listing : List UInt64) : List (Record P) :=
  listing.filterMap fun name => disk.get (host.dirOf source, name)

/-- Remove the source's files whose path is not in `keep`, but for those that do not go. -/
def prune (disk : Disk P) (source : Text) (keep : List Path) (stays : FileName → Bool) : Disk P :=
  disk.retain fun name _ =>
    decide (name.1 ≠ host.dirOf source) || (keep.map (host.fileOf source)).contains name || stays name

end Host

/-- The dependencies a record names, when each is registered with its hash. -/
def Record.sound (record : Record P) (registry : Registry P) : Bool :=
  record.refs.all fun (dependency, hash) =>
    (registry.get dependency).any fun package => package.hash = hash

def Record.modules (record : Record P) (registry : Registry P) : Modules P := fun named =>
  if (record.refs.map Prod.fst).contains named then (registry.get named).map Package.module else none

/-- Load one record: a miss leaves everything as it is, and a broken assertion is `none`. -/
def loadRecord (codec : ArtifactCodec P) (source : Text) (loaded : CellStore P × CellRegistry P)
    (record : Record P) : Option (CellStore P × CellRegistry P) :=
  let (store, registry) := loaded
  if registry.filed.containsKey record.module then some loaded
  else if !record.sound registry.filed then some loaded
  else
    match deserializeArtifactWith codec record.artifact record.module unsetHash
        (record.modules registry.filed) with
    | none => some loaded
    | some (artifact, «export») => do
      let artifact := { artifact with readOnly := record.readOnly }
      let registry ← registry.insertModule record.module unsetHash artifact record.frozenAs
      let registry ← registry.reserveCellKey record.module
      let reference : StaticNodeId := { module := record.module, index := «export» }
      let store := store.record record.path source reference record.against
      some (store.setKey record.path (some record.key), registry)

/-- Load what the cache holds for a source. -/
def loadCells (codec : ArtifactCodec P) (source : Text) (records : List (Record P))
    (loaded : CellStore P × CellRegistry P) : Option (CellStore P × CellRegistry P) :=
  records.foldlM (loadRecord codec source) loaded

/-- What a compile's checker leaves: whether it is clean, its module, and each expression's term. -/
structure Build (P : Program) where
  ok : Bool
  module : Module P
  term : HighIr.ExprId → Option NodeId

/-- The cells of a source and the registry they are filed in, with every artifact frozen so far
under a cell key, in any process. -/
structure CellState (P : Program) where
  store : CellStore P
  registry : CellRegistry P
  log : List (ModuleKey × StaticModule P)

/-- Freeze one compiled binding and record it under its path. An undecided expression has no
answer to keep. -/
def freezeCompiled (build : Build P) (source : Text) (state : CellState P)
    (cell : Lowering.CompiledCell) : Option (CellState P) :=
  match build.term cell.expr with
  | none => some state
  | some root =>
    if (build.module.nodeValue (.dynamic root)).isNone then some state
    else do
      let mode := state.store.freezeMode cell.name
      let (key, artifact, registry) ← state.registry.freezeCell build.module root mode
      let named := artifact.referencedKeys.filter fun named => decide (named ≠ key)
      let against := named.filterMap fun named =>
        (state.registry.frozenAs.get named).map fun home => (named, home)
      let index : LocalNodeId := ⟨(build.module.closure [root] mode).1.idxOf root⟩
      some { store := state.store.record cell.path source { module := key, index } against
             registry, log := (key, artifact) :: state.log }

/-- Freeze the marked bindings a clean build compiled. -/
def freezeCells (build : Build P) (source : Text) (compiled : List Lowering.CompiledCell)
    (state : CellState P) : Option (CellState P) :=
  if build.ok then compiled.foldlM (freezeCompiled build source) state else some state

/-- The record of one cell, when every module it references is registered and it can be
written. -/
def saveRecord (codec : ArtifactCodec P) (store : CellStore P) (registry : CellRegistry P)
    (path : Path) : Option (Record P) := do
  let cell ← store.cells.get path
  let key ← cell.key
  let package ← registry.filed.get cell.reference.module
  let frozenAs ← registry.frozenAs.get cell.reference.module
  let named := package.refs.filter fun named => decide (named ≠ cell.reference.module)
  let refs ← named.mapM fun named =>
    (registry.filed.get named).map fun package => (named, package.hash)
  let modules : Modules P := fun named =>
    if named = cell.reference.module ∨ named ∈ package.refs then
      (registry.filed.get named).map Package.module
    else none
  let artifact ← serializeArtifactWith codec package.module modules unsetHash cell.reference.index
  some { path, module := cell.reference.module, readOnly := package.module.readOnly, refs, key
         artifact, frozenAs, against := cell.against }

/-- An editable buffer with its retained cells. -/
structure Session (P : Program) where
  /-- The registry its cells are filed in. -/
  registry : Nat
  source : Text
  store : CellStore P := {}
  unreachable : List ModuleKey := []
  /-- Whether a compile has run: a later one reads no cache. -/
  compiled : Bool := false
  evaluates : Bool := true
  /-- Whether cells persist, and whether a compile writes them back. -/
  cached : Bool
  saves : Bool
  /-- The cells the first compile loaded and kept, with the registry as it was then. Nothing
  reads it. -/
  kept : Option (CellStore P × CellRegistry P) := none

/-- What one compile meets: the order its directory lists the files, the keys of the marked
bindings, the paths an edit reached, the marks, the checked build with the marked bindings that
name it, and how far its writes get. -/
structure Input (P : Program) where
  listing : List UInt64
  after : List (Path × Option (List Nat))
  dirty : List Path
  marked : List Path
  build : Build P
  compiled : List Lowering.CompiledCell
  written : Nat
  stays : FileName → Bool

/-- Every registry, session and record there is. -/
structure CacheWorld (P : Program) where
  registries : Nat → CellRegistry P
  sessions : Nat → Session P
  disk : Disk P
  log : List (ModuleKey × StaticModule P)

/-- The paths whose stored key differs from the computed one. -/
def staleLoaded (store : CellStore P) (after : List (Path × Option (List Nat))) : List Path :=
  (after.filter fun (path, key) =>
    match store.key path with
    | some stored => decide (key ≠ some stored)
    | none => false).map Prod.fst

/-- Whether a session's next compile reads the cache. -/
def Session.loads (session : Session P) : Bool :=
  !session.compiled && session.evaluates && session.cached

/-- Whether a session's compile writes the cache. -/
def Session.writesBack (session : Session P) : Bool :=
  session.saves && session.evaluates && session.cached

/-- The cells a compile starts from: what the cache holds, in a session's first compile. -/
def CacheWorld.load (host : Host P) (world : CacheWorld P) (session : Session P) (input : Input P) :
    Option (CellStore P × CellRegistry P) :=
  let loaded := (session.store, world.registries session.registry)
  if session.loads then
    loadCells host.codec session.source (host.read world.disk session.source input.listing) loaded
  else some loaded

/-- Reconcile the cells with the program about to be lowered. -/
def reconcile (session : Session P) (input : Input P) (store : CellStore P) :
    CellStore P × List ModuleKey :=
  let dirty := if session.compiled then input.dirty else staleLoaded store input.after
  let (store, dropped) := store.invalidatePaths dirty
  let (store, unmarked) := store.retainMarked input.marked
  (store, dropped ++ unmarked)

/-- Store the cells this compile froze; a failed write is a missed cache. -/
def saveCells (host : Host P) (session : Session P) (input : Input P) (frozen : List Path)
    (state : CellState P) (disk : Disk P) : CellStore P × Disk P :=
  if session.writesBack then
    let store := input.after.foldl (fun store (path, key) => store.setKey path key) state.store
    let records := (frozen.filterMap (saveRecord host.codec store state.registry)).take input.written
    let disk := host.write disk session.source records
    (store, host.prune disk session.source store.paths input.stays)
  else (state.store, disk)

/-- Check, freeze and save with the cells that were kept. -/
def CacheWorld.compileWith (host : Host P) (world : CacheWorld P) (index : Nat) (input : Input P)
    (store : CellStore P) (dropped : List ModuleKey) (registry : CellRegistry P) :
    Option (CacheWorld P) := do
  let session := world.sessions index
  -- A marked binding whose cell is retained is not compiled.
  let compiled := input.compiled.filter fun cell => (store.reference cell.path).isNone
  let state ← freezeCells input.build session.source compiled { store, registry, log := world.log }
  let frozen := compiled.map Lowering.CompiledCell.path
  let written := saveCells host session input frozen state world.disk
  some {
    registries := fun other =>
      if other = session.registry then state.registry else world.registries other
    sessions := fun other =>
      if other = index then
        { session with
          store := written.1, compiled := true, unreachable := session.unreachable ++ dropped
          kept := if session.loads then some (store, registry) else session.kept }
      else world.sessions other
    disk := written.2, log := state.log }

/-- Compile a session's buffer. -/
def CacheWorld.compile (host : Host P) (world : CacheWorld P) (index : Nat) (input : Input P) :
    Option (CacheWorld P) := do
  let session := world.sessions index
  let loaded ← world.load host session input
  let kept := reconcile session input loaded.1
  world.compileWith host index input kept.1 kept.2 loaded.2

/-- What can happen among the processes that share a cache directory. -/
inductive CacheStep (P : Program) where
  | compile (session : Nat) (input : Input P)
  /-- A package store files a package in a registry, or replaces it. -/
  | file (registry : Nat) (key : ModuleKey) (hash : Hash)
  /-- A session evicts one of its unreachable artifacts. -/
  | evict (session : Nat) (key : ModuleKey)
  | setMode (session : Nat) (evaluates : Bool)
  | setReadOnly (session : Nat) (names : List Text)

namespace CacheWorld

def setSession (world : CacheWorld P) (index : Nat) (session : Session P) : CacheWorld P :=
  { world with sessions := fun other => if other = index then session else world.sessions other }

def setRegistry (world : CacheWorld P) (index : Nat) (registry : CellRegistry P) : CacheWorld P :=
  { world with
    registries := fun other => if other = index then registry else world.registries other }

/-- Run one step. A package key lies outside the cell space; a panic is `none`. -/
def run (host : Host P) (world : CacheWorld P) : CacheStep P → Option (CacheWorld P)
  | .compile session input => world.compile host session input
  | .file registry key hash =>
    if key.isCell then none
    else some (world.setRegistry registry
      ((world.registries registry).filePackage key hash (host.package key hash)))
  | .evict index key =>
    let session := world.sessions index
    if !session.unreachable.contains key then none
    else
      let (answer, registry) := (world.registries session.registry).evict key
      let pending := if answer = .stillReferenced then session.unreachable
        else session.unreachable.erase key
      some ((world.setRegistry session.registry registry).setSession index
        { session with unreachable := pending })
  | .setMode index evaluates =>
    some (world.setSession index { world.sessions index with evaluates })
  | .setReadOnly index names =>
    let session := world.sessions index
    let store := { session.store with readOnly := names ++ session.store.readOnly }
    some (world.setSession index { session with store })

/-- No process has run: the sessions to come, each with its registry, source and cache options. -/
def start (sessions : Nat → Session P) : CacheWorld P where
  registries := fun _ => {}
  sessions := fun index =>
    let session := sessions index
    { registry := session.registry, source := session.source, cached := session.cached
      saves := session.saves }
  disk := {}
  log := []

/-- The worlds that runs of admitted steps reach. -/
inductive Reaches (host : Host P) (admits : CacheWorld P → CacheStep P → Prop) :
    CacheWorld P → Prop
  | start (sessions : Nat → Session P) : Reaches host admits (CacheWorld.start sessions)
  | step {world world' : CacheWorld P} (step : CacheStep P) (reached : Reaches host admits world)
      (admitted : admits world step) (ran : world.run host step = some world') :
      Reaches host admits world'

end CacheWorld

end LichenVm
