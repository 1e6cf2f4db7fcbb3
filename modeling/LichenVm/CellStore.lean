import LichenVm.Lowering
import LichenVm.Registry

/-! Retained cells: a marked binding's value, kept across a build. -/

namespace LichenVm

open Ast (Path Text)

variable {P : Program}

/-- The top bit of a key: set for a retained cell's artifact, clear for a device's. -/
def CELL_KEY_BIT : Nat := 2 ^ 63

def ModuleKey.isCell (key : ModuleKey) : Bool := decide (key.raw &&& CELL_KEY_BIT ≠ 0)

abbrev Hash := List UInt8

/-- The hash every cell is filed under: no cell key is computed yet. -/
def unsetHash : Hash := List.replicate 32 0

/-- A registry with its counter of cell keys. -/
structure CellRegistry (P : Program) where
  filed : Registry P := {}
  nextCellKey : Nat := 0
  /-- What each entry was frozen as, by whichever process froze it. Nothing reads it. -/
  frozenAs : AssocMap ModuleKey (StaticModule P) := {}

namespace CellRegistry

/-- A fresh key for a retained cell's artifact, unique within this registry. -/
def allocateCellKey (registry : CellRegistry P) : ModuleKey × CellRegistry P :=
  let next := registry.nextCellKey + 1
  (⟨CELL_KEY_BIT ||| next⟩, { registry with nextCellKey := next })

/-- Mark a cell key a load has filed, so the allocator never hands it out again. A key outside
the cell space panics: `none`. -/
def reserveCellKey (registry : CellRegistry P) (key : ModuleKey) : Option (CellRegistry P) :=
  if key.isCell then
    let raw := key.raw &&& (CELL_KEY_BIT - 1)
    some { registry with nextCellKey := max registry.nextCellKey raw }
  else none

/-- File an artifact, frozen as `home`, under a key that is not registered; else panic. -/
def insertModule (registry : CellRegistry P) (key : ModuleKey) (hash : Hash)
    (artifact home : StaticModule P) : Option (CellRegistry P) :=
  if registry.filed.containsKey key then none
  else some { registry with
    filed := registry.filed.file key hash artifact
    frozenAs := registry.frozenAs.insert key home }

/-- Freeze the closure of one binding under a fresh key. -/
def freezeCell (registry : CellRegistry P) (m : Module P) (root : NodeId) (mode : FreezeMode) :
    Option (ModuleKey × StaticModule P × CellRegistry P) := do
  let (key, registry) := registry.allocateCellKey
  let filed ← registry.filed.freezeClosureMapped m key [root] unsetHash mode
  let package ← filed.get key
  some (key, package.module, { registry with
    filed, frozenAs := registry.frozenAs.insert key package.module })

/-- File a package under its slot, in place of what the slot held. -/
def filePackage (registry : CellRegistry P) (key : ModuleKey) (hash : Hash)
    (artifact : StaticModule P) : CellRegistry P :=
  { registry with
    filed := registry.filed.file key hash artifact
    frozenAs := registry.frozenAs.insert key artifact }

def evict (registry : CellRegistry P) (key : ModuleKey) : Eviction × CellRegistry P :=
  let (answer, filed) := registry.filed.evict key
  (answer, { registry with
    filed, frozenAs := if answer = .freed then registry.frozenAs.remove key else registry.frozenAs })

end CellRegistry

/-- One retained cell. -/
structure Cell (P : Program) where
  reference : StaticNodeId
  source : Text
  /-- The key the cell was frozen under, once one was computed. -/
  key : Option (List Nat) := none
  /-- What each reference of the artifact named when it was frozen. Nothing reads it. -/
  against : List (ModuleKey × StaticModule P)

/-- The retained cells of one compilation context, keyed by occurrence path. -/
structure CellStore (P : Program) where
  cells : AssocMap Path (Cell P) := {}
  readOnly : List Text := []

namespace CellStore

def freezeMode (store : CellStore P) (name : Text) : FreezeMode :=
  if store.readOnly.contains name then .readOnly else .portable

/-- The frozen value of a cell, or `none` when the binding must be compiled. -/
def reference (store : CellStore P) (path : Path) : Option StaticNodeId :=
  (store.cells.get path).map Cell.reference

def record (store : CellStore P) (path : Path) (source : Text) (reference : StaticNodeId)
    (against : List (ModuleKey × StaticModule P)) : CellStore P :=
  { store with cells := store.cells.insert path { reference, source, against } }

/-- Attach the key a cell was compiled under. -/
def setKey (store : CellStore P) (path : Path) (key : Option (List Nat)) : CellStore P :=
  match store.cells.get path with
  | some cell => { store with cells := store.cells.insert path { cell with key } }
  | none => store

def key (store : CellStore P) (path : Path) : Option (List Nat) :=
  (store.cells.get path).bind Cell.key

def paths (store : CellStore P) : List Path := store.cells.entries.map Prod.fst

/-- Keep the cells `keep` answers for, with the artifacts the others named. -/
def retain (store : CellStore P) (keep : Path → Bool) : CellStore P × List ModuleKey :=
  ({ store with cells := store.cells.retain fun path _ => keep path },
    (store.cells.entries.filter fun entry => !keep entry.1).map fun entry =>
      entry.2.reference.module)

/-- Drop the cells at `paths`: the positions an edit dirtied. -/
def invalidatePaths (store : CellStore P) (paths : List Path) : CellStore P × List ModuleKey :=
  store.retain fun path => !paths.contains path

/-- Drop every cell whose path is not in `marked`. -/
def retainMarked (store : CellStore P) (marked : List Path) : CellStore P × List ModuleKey :=
  store.retain fun path => marked.contains path

end CellStore

end LichenVm
