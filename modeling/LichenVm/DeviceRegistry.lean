import LichenVm.ArtifactValues
import LichenVm.Ast

/-! The disk device registry: the table of a cache's compiled artifacts. -/

namespace LichenVm

open Ast (Text)

/-- A path, with the name it ends in. -/
structure FilePath where
  directory : Text
  name : Text
  deriving DecidableEq

/-- What an artifact is filed under: the source's place on disk, or its name when it has none. -/
inductive FileId where
  | onDisk (path : FilePath)
  | embedded (name : Text)
  deriving DecidableEq

/-- Does a file ID name a source the cache keeps: a `.lichen` path, or an embedded source? -/
def FileId.isLichen : FileId → Bool
  | .onDisk path => [46, 108, 105, 99, 104, 101, 110].isSuffixOf path.name
  | .embedded _ => true

/-- A SHA-256 digest. -/
abbrev Digest := List UInt8

/-- The identity of a dependency with no record, which no real identity equals. -/
def UNKNOWN_IDENTITY : Digest := List.replicate 32 0

/-- The eight bytes of a `u64`, the low one first. -/
def littleEndian (word : Nat) : List UInt8 :=
  (List.range 8).map fun place => UInt8.ofNat (word >>> (8 * place))

/-- The identity of a compiled package: its source hash folded with each direct dependency's key
and identity. -/
def artifactHash (sha256 : Text → Digest) (source : Digest) (deps : List (ModuleKey × Digest)) :
    Digest :=
  sha256 (source ++ deps.flatMap fun (key, identity) => littleEndian key.raw ++ identity)

/-- One registered artifact's record. -/
structure Entry where
  key : ModuleKey
  sourceHash : Digest
  /-- The identity it was published with. -/
  artifact : Digest
  deps : List (FileId × ModuleKey)
  deriving DecidableEq

/-- What a successful verification answers. -/
structure Verified where
  key : ModuleKey
  hash : Digest
  deps : List (FileId × ModuleKey)
  deriving DecidableEq

/-- The key allocator, the table of records, and the artifact files. -/
structure DeviceRegistry where
  nextKey : Nat := 0
  /-- The reclaimed keys, in order. -/
  free : List Nat := []
  entries : AssocMap FileId Entry := {}
  artifacts : AssocMap FileId Words := {}
  deriving DecidableEq

/-- The identity each recorded dependency contributes to an importer's fold. -/
def depIdentities (entries : AssocMap FileId Entry) (deps : List (FileId × ModuleKey)) :
    List (ModuleKey × Digest) :=
  deps.map fun (file, key) => (key, ((entries.get file).map Entry.artifact).getD UNKNOWN_IDENTITY)

namespace DeviceRegistry

/-- The index a new record is given: a reclaimed one first. -/
def takeIndex (device : DeviceRegistry) : Nat × DeviceRegistry :=
  match device.free with
  | index :: free => (index, { device with free })
  | [] => (device.nextKey, { device with nextKey := device.nextKey + 1 })

/-- Allocate the key of a file ID, writing a pending record back. An all-zero source hash never
verifies, so a crash before publish is a miss. -/
def alloc (device : DeviceRegistry) (file : FileId) : ModuleKey × DeviceRegistry :=
  match device.entries.get file with
  | some entry => (entry.key, device)
  | none =>
    let (index, device) := device.takeIndex
    let pending : Entry :=
      { key := ⟨index⟩, sourceHash := UNKNOWN_IDENTITY, artifact := UNKNOWN_IDENTITY, deps := [] }
    (⟨index⟩, { device with entries := device.entries.insert file pending })

/-- The identity an artifact will have when published, from a source hashing to `source`. -/
def artifactIdentity (sha256 : Text → Digest) (device : DeviceRegistry) (source : Digest)
    (deps : List (FileId × ModuleKey)) : Digest :=
  artifactHash sha256 source (depIdentities device.entries deps)

/-- Complete an artifact's record after its compile. One that was never allocated, or under
another key, panics: `none`. -/
def publish (sha256 : Text → Digest) (device : DeviceRegistry) (file : FileId) (key : ModuleKey)
    (sourceHash : Digest) (deps : List (FileId × ModuleKey)) : Option DeviceRegistry :=
  match device.entries.get file with
  | none => none
  | some entry =>
    if entry.key ≠ key then none
    else
      let artifact := device.artifactIdentity sha256 sourceHash deps
      some { device with entries := device.entries.insert file { key, sourceHash, artifact, deps } }

/-- Write an artifact file, overwriting the file ID's slot. -/
def storeArtifact (device : DeviceRegistry) (file : FileId) (words : Words) : DeviceRegistry :=
  { device with artifacts := device.artifacts.insert file words }

/-- Whether the record of another file depends on a key. -/
def referenced (device : DeviceRegistry) (file : FileId) (key : ModuleKey) : Bool :=
  device.entries.entries.any fun record =>
    decide (record.1 ≠ file) && record.2.deps.any fun dep => decide (dep.2 = key)

/-- Put an index among the reclaimed ones. -/
def reclaim (index : Nat) : List Nat → List Nat
  | [] => [index]
  | first :: rest =>
    if index < first then index :: first :: rest
    else if index = first then first :: rest
    else first :: reclaim index rest

/-- Drop a file's record and artifact, and reclaim its key. -/
def drop (device : DeviceRegistry) (file : FileId) (key : ModuleKey) : DeviceRegistry :=
  { device with
    entries := device.entries.remove file
    free := reclaim key.raw device.free
    artifacts := device.artifacts.remove file }

/-- Remove a file's artifact, unless another one depends on its key: was it known at all? -/
def remove (device : DeviceRegistry) (file : FileId) : Bool × DeviceRegistry :=
  match device.entries.get file with
  | none => (false, device)
  | some entry =>
    if device.referenced file entry.key then (true, device)
    else (true, device.drop file entry.key)

/-- Collect one dead file, counting it; one that a surviving record depends on stays. -/
def collect (counted : Nat × DeviceRegistry) (file : FileId) : Nat × DeviceRegistry :=
  match counted.2.entries.get file with
  | none => counted
  | some entry =>
    if counted.2.referenced file entry.key then counted
    else (counted.1 + 1, counted.2.drop file entry.key)

/-- Remove every artifact that is not of a source the cache keeps. The order is that in which the
table's files come. -/
def gc (device : DeviceRegistry) (order : List FileId) : Nat × DeviceRegistry :=
  (order.filter fun file => !file.isLichen).foldl collect (0, device)

end DeviceRegistry

/-- Check one recorded dependency: its record still has the key, and its file checks. -/
def verifyDep (files : AssocMap FilePath Text) (entries : AssocMap FileId Entry)
    (check : List FileId → FileId → Text → Option (List FileId)) (visited : List FileId)
    (dep : FileId × ModuleKey) : Option (List FileId) := do
  let depEntry ← entries.get dep.1
  if depEntry.key ≠ dep.2 then none
  else
    match dep.1 with
    -- An embedded source is compiled into the binary: its bytes cannot change.
    | .embedded _ => some visited
    | .onDisk path => do
      let bytes ← files.get path
      check visited dep.1 bytes

/-- Check one record, and the records it depends on, against the files: `none` is a stale one. A
file is checked once along a walk, so there are no more levels than records. -/
def verifyEntry (sha256 : Text → Digest) (files : AssocMap FilePath Text)
    (entries : AssocMap FileId Entry) : Nat → List FileId → FileId → Text → Option (List FileId)
  | 0, _, _, _ => none
  | levels + 1, visited, file, source =>
    if file ∈ visited then some visited
    else do
      let entry ← entries.get file
      if sha256 source ≠ entry.sourceHash then none
      else
        entry.deps.foldlM (verifyDep files entries (verifyEntry sha256 files entries levels))
          (file :: visited)

/-- Is a file's artifact up to date? The identity is recomputed from the records as they stand. -/
def DeviceRegistry.verify (sha256 : Text → Digest) (device : DeviceRegistry)
    (files : AssocMap FilePath Text) (file : FileId) (source : Text) : Option Verified := do
  let entry ← device.entries.get file
  if sha256 source ≠ entry.sourceHash then none
  else
    let levels := device.entries.entries.length + 1
    let _ ← verifyEntry sha256 files device.entries levels [] file source
    let identities := depIdentities device.entries entry.deps
    some { key := entry.key, hash := artifactHash sha256 entry.sourceHash identities, deps := entry.deps }

end LichenVm
