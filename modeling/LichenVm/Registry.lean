import LichenVm.Freeze

namespace LichenVm

variable {P : Program}

/-- The module a static ref names. -/
def AnyNodeId.module? : AnyNodeId → Option ModuleKey
  | .dynamic _ => none
  | .static sref => some sref.module

/-- A payload's own home module, when it lies in one. -/
def AnyHandle.module? {α : Type} : AnyHandle α → Option ModuleKey
  | .dynamic _ => none
  | .static handle => some handle.module

/-- One array payload's contribution to a reference walk. -/
def arrayReferencedKeys (handle : AnyHandle ArrayItem) : List ModuleKey :=
  handle.module?.toList ++ handle.items.filterMap fun item => item.node.module?

/-- One table payload's contribution to a reference walk. -/
def tableReferencedKeys (handle : AnyHandle TableItem) : List ModuleKey :=
  handle.module?.toList ++
    handle.items.flatMap fun item => item.key.module?.toList ++ item.value.module?.toList

def valueReferencedKeys : Value P → List ModuleKey
  | .low (.array array) => arrayReferencedKeys array.handle
  | .low (.table handle) => tableReferencedKeys handle
  | .low (.function (.static sref)) => [sref.module]
  | .low _ => []
  | .ext value => ((P.handle value).bind AnyHandle.module?).toList

namespace Module

/-- `referencedKeys` over `nodeIds`: the closure a per-cell freeze files. -/
def referencedKeysOf (m : Module P) (nodeIds : List NodeId) : List ModuleKey :=
  nodeIds.flatMap fun node =>
    (((m.nodes.get node).bind Node.value).map valueReferencedKeys).getD []

/-- Every module key a static ref in the module's values names, the default attributes'
included. -/
def referencedKeys (m : Module P) : List ModuleKey :=
  m.referencedKeysOf m.nodes.keys ++ (m.defaultAttributes.map arrayReferencedKeys).getD []

end Module

namespace StaticModule

/-- Every module key a static ref in the artifact's values names: its own, too, when a value
names a node of this module. -/
def referencedKeys (home : StaticModule P) : List ModuleKey :=
  (home.nodes.flatMap fun node =>
    match node.value with
    | some (.low (.table (.dynamic _))) => []
    | some value => valueReferencedKeys value
    | none => []) ++
  (home.defaultAttributes.map fun handle => arrayReferencedKeys (.static handle)).getD []

end StaticModule

/-- What an eviction answers. -/
inductive Eviction where
  | notRegistered
  | stillReferenced
  | freed
  deriving DecidableEq

namespace Registry

def containsKey (registry : Registry P) (key : ModuleKey) : Bool :=
  registry.entries.containsKey key

/-- File an artifact under `key`, with the keys it references. -/
def file (registry : Registry P) (key : ModuleKey) (hash : List UInt8) (artifact : StaticModule P) :
    Registry P :=
  let package : Package P := { module := artifact, hash, refs := artifact.referencedKeys }
  { registry with entries := registry.entries.insert key package }

/-- Compile a dynamic module into an artifact and file it. A dependency that is not registered,
or a key that is, panics: `none`. -/
def freezeMapped (registry : Registry P) (m : Module P) (key : ModuleKey) (hash : List UInt8) :
    Option (Registry P) :=
  if !m.referencedKeys.all registry.containsKey then none
  else if registry.containsKey key then none
  else (m.fromModule key).map (registry.file key hash)

/-- `freezeMapped` for the closure of `roots`: only reachable nodes file, and the closure's
references are the ones checked. -/
def freezeClosureMapped (registry : Registry P) (m : Module P) (key : ModuleKey)
    (roots : List NodeId) (hash : List UInt8) (mode : FreezeMode) : Option (Registry P) :=
  if registry.containsKey key then none
  else
    let (nodes, functions) := m.closure roots mode
    if !(m.referencedKeysOf nodes).all registry.containsKey then none
    else (m.freezeSet key nodes functions mode).map (registry.file key hash)

/-- Whether another filed artifact's recorded refs name `key`. -/
def referenced (registry : Registry P) (key : ModuleKey) : Bool :=
  registry.entries.entries.any fun (other, package) =>
    decide (other ≠ key) && package.refs.contains key

/-- Drop a filed artifact that no other filed artifact's recorded refs name. -/
def evict (registry : Registry P) (key : ModuleKey) : Eviction × Registry P :=
  if !registry.containsKey key then (.notRegistered, registry)
  else if registry.referenced key then (.stillReferenced, registry)
  else (.freed, { registry with entries := registry.entries.remove key })

end Registry

/-- A call on a registry. -/
inductive RegistryOp (P : Program) where
  | freezeMapped (m : Module P) (key : ModuleKey) (hash : List UInt8)
  | freezeClosureMapped (m : Module P) (key : ModuleKey) (roots : List NodeId)
      (hash : List UInt8) (mode : FreezeMode)
  | evict (key : ModuleKey)

namespace RegistryOp

/-- Run one call; a panic leaves no registry. -/
def run (registry : Registry P) : RegistryOp P → Option (Registry P)
  | freezeMapped m key hash => registry.freezeMapped m key hash
  | freezeClosureMapped m key roots hash mode =>
    registry.freezeClosureMapped m key roots hash mode
  | evict key => some (registry.evict key).2

end RegistryOp

end LichenVm
