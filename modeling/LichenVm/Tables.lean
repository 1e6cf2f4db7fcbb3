import LichenVm.KeyHash
import LichenVm.SortedRun
import LichenVm.Unify

namespace LichenVm

variable {P : Program}

/-- What a table is sorted and searched by: its entries' stored hashes, as `u64`s. -/
def TableItem.order (item : TableItem) : Nat := item.hash.toNat

namespace Module

/-- Compare two arrays' items in order, up to the first that differs. A template slot's presence is
compared, its value is not read. -/
def keyItemsEq (m : Module P) (compare : AnyNodeId → AnyNodeId → Option Bool) :
    List ArrayItem → List ArrayItem → Option Bool
  | ia :: as, ib :: bs =>
    if ia.template || ib.template then
      if ia.template = ib.template then keyItemsEq m compare as bs else some false
    else do
      let a ← m.slotContent ia.node
      let b ← m.slotContent ib.node
      if ← compare a b then keyItemsEq m compare as bs else some false
  | _, _ => some true

/-- One level of key equality, after the path guard. A table keys by identity, a function by its
id. -/
def keyEqStep (m : Module P) (compare : AnyNodeId → AnyNodeId → Option Bool) (a b : AnyNodeId) :
    Option Bool := do
  let va ← m.readValue a
  let vb ← m.readValue b
  match va, vb with
  | some (.low (.array pa)), some (.low (.array pb)) =>
    if pa.items.length = pb.items.length then m.keyItemsEq compare pa.items pb.items
    else some false
  | some (.low (.table ta)), some (.low (.table tb)) => some (ta = tb)
  | some va, some vb => some (va.valueEq vb)
  | _, _ => some false

/-- Pure, coinductive equality of two key nodes, below the pairs on the path. The fuel bounds the
descent; naming an unregistered module panics: `none`. -/
def keyEqFrom (m : Module P) : Nat → AncestorPairs AnyNodeId → AnyNodeId → AnyNodeId → Option Bool
  | 0, _, _, _ => none
  | fuel + 1, path, a, b =>
    if a = b then some true
    else if path.contains a b then some true
    else m.keyEqStep (keyEqFrom m fuel (path.insert a b)) a b

/-- The refs with a node behind them: the live nodes, and every node of a registered module. -/
def keyNodes (m : Module P) : List AnyNodeId :=
  m.nodes.keys.map AnyNodeId.dynamic ++ m.registry.entries.entries.flatMap fun (key, package) =>
    (List.range package.module.nodes.length).map fun index => .static ⟨key, ⟨index⟩⟩

/-- Structural equality of two live values, from an empty path. The pairs on a path differ, so the
fuel is as good as none. -/
def structuralEq (m : Module P) (a b : AnyNodeId) : Option Bool :=
  m.keyEqFrom (m.keyNodes.length * m.keyNodes.length + 1) {} a b

/-- The entries of a table under construction, in source order: an undecided key is recorded and
drops its entry. -/
def hashEntries (dispatch : Dispatch P) : List (AnyNodeId × AnyNodeId) → Module P →
    Option (List TableItem × Module P)
  | [], m => some ([], m)
  | (key, value) :: rest, m => do
    let (state, m) ← m.keyState dispatch key
    match state with
    | .hashed hash => do
      let (items, m) ← hashEntries dispatch rest m
      some ({ key, value, hash } :: items, m)
    | _ => hashEntries dispatch rest { m with evalErrors := m.evalErrors ++ [.tableKeyUndecided key] }

/-- Build a constant table value, its entries sorted by hash. -/
def buildTable (dispatch : Dispatch P) (m : Module P) (entries : List (AnyNodeId × AnyNodeId))
    (block : BlockId) : Option (AnyHandle TableItem × Module P) := do
  let (items, m) ← hashEntries dispatch entries m
  some (m.allocTable (SortedRun.sortByKey TableItem.order items) block)

/-- The value of the first entry whose key is the probe. -/
def searchRun (m : Module P) (probe : AnyNodeId) : List TableItem → Option (Option AnyNodeId)
  | [] => some none
  | item :: rest => do
    if ← m.structuralEq probe item.key then some (some item.value) else searchRun m probe rest

/-- Search the entries stored under the probe's hash. -/
def searchTable (m : Module P) (items : List TableItem) (probe : AnyNodeId) (hash : UInt64) :
    Option (Option AnyNodeId) :=
  m.searchRun probe (SortedRun.run TableItem.order items hash.toNat)

/-- An operation that ran but could not decide. -/
def ranUndecided (m : Module P) (node : NodeId) : Evaluated P :=
  some (none, m.modifyNode node fun entry => { entry with runned := true })

def tableMiss (m : Module P) (table key : AnyNodeId) : Evaluated P :=
  some (some (.low .error), { m with evalErrors := m.evalErrors ++ [.tableMiss table key] })

/-- Join `reader` into `target`'s class and evaluate the target. A wildcard target answers no
reader, and a conflict is the reader's own to report. -/
def aliasRead (dispatch : Dispatch P) (m : Module P) (reader target : NodeId) : Option (Module P) := do
  let entry ← m.nodes.get target
  if entry.value = some (.low .any) then some m
  else
    let (_, joined) ← m.unify reader target
    let joined := { joined with unifyErrors := joined.unifyErrors.take m.unifyErrors.length }
    let (_, m) ← joined.evaluateNode dispatch (.dynamic target) (joined.homeOf target)
    some m

/-- The `[table, key]` operand nodes of a table read. -/
def tableGetOperands (m : Module P) (node : NodeId) : Option (AnyNodeId × AnyNodeId) := do
  let operation ← m.nodeOperation node
  let operand ← operation.operand
  match m.nodeValue (.dynamic operand) with
  | some (.low (.array array)) => do
    let table ← array.items[0]?
    let key ← array.items[1]?
    some (table.node, key.node)
  | _ => none

/-- The tail of a table read: a found element is read by reference, an absent one is a recorded
miss. -/
def finishTableGet (dispatch : Dispatch P) (m : Module P) (node : NodeId) (found : Option AnyNodeId)
    (block : BlockId) : Evaluated P :=
  match found with
  | some (.dynamic element) => do
    let m ← m.aliasRead dispatch node element
    m.evaluateNode dispatch (.dynamic element) (some block)
  | some (.static sref) => some (m.staticRead sref, m)
  | none => do
    let (table, key) ← m.tableGetOperands node
    m.tableMiss table key

/-- The lookup of one key in a table's payload. An undecided key leaves the read lazy and
unstamped. -/
def readTable (dispatch : Dispatch P) (m : Module P) (node : NodeId) (block : BlockId)
    (table : AnyNodeId) (items : List TableItem) (key : AnyNodeId) : Evaluated P := do
  let (state, m) ← m.keyState dispatch key
  match state with
  | .undecided => some (none, m)
  | .unhashable => m.tableMiss table key
  | .hashed hash => do
    let found ← m.searchTable items key hash
    m.finishTableGet dispatch node found block

def evaluateTableGet (dispatch : Dispatch P) (m : Module P) (node : NodeId) : Evaluated P := do
  let entry ← m.nodes.get node
  let operands ← entry.operation.bind Operation.operand
  let (operand, m) ← m.evaluateNode dispatch (.dynamic operands) (some entry.block)
  match operand with
  | none => m.ranUndecided node
  | some (.low (.array array)) => do
    let table ← array.items[0]?
    let key ← array.items[1]?
    let (target, m) ← m.evaluateNode dispatch table.node (some entry.block)
    match target with
    | none => m.ranUndecided node
    | some (.low (.table payload)) =>
      m.readTable dispatch node entry.block table.node payload.items key.node
    | some (.low .error) => m.tableMiss table.node key.node
    | _ => none
  | _ => none

end Module

end LichenVm
