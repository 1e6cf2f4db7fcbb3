import LichenVm.Classes
import LichenVm.Functions

namespace LichenVm

/-- The unordered exprs on the current recursion path. Each frame hands its own down, so
leaving the frame takes its expr off. -/
structure AncestorPairs (K : Type) where
  exprs : List (K × K) := []

namespace AncestorPairs

variable {K : Type} [DecidableEq K]

def contains (path : AncestorPairs K) (a b : K) : Bool :=
  path.exprs.contains (a, b)

/-- Put `{a, b}` on the path, in both orientations. -/
def insert (path : AncestorPairs K) (a b : K) : AncestorPairs K :=
  ⟨(a, b) :: (b, a) :: path.exprs⟩

end AncestorPairs

/-- A side of a unification: a node's class, a bare value, or both. -/
structure Side (P : Program) where
  node : Option NodeId := none
  value : Option (Value P) := none

/-- The depth bound for a comparison without classes, which cannot name itself to the guard. -/
def MAX_VALUE_DEPTH : Nat := 64

/-- The dynamic node behind a ref, or the null node for a static one. -/
def nodeOrDefault : AnyNodeId → NodeId
  | .dynamic node => node
  | .static _ => default

/-- Whether a side's class holds the wildcard. -/
def isWildcard {P : Program} (value : Option (Value P)) : Bool :=
  value.bind Value.asLow = some .any

/-- Where a unification stands: the guards of its path, the descent to here, and the two
operands it was called with. -/
structure Descent where
  path : AncestorPairs NodeId := {}
  steps : List UnifyStep := []
  anyPath : AncestorPairs AnyNodeId := {}
  root : NodeId × NodeId

/-- One unification of two sides: whether they agree, and the module left. Naming a dead node
or an unregistered module panics: `none`. -/
abbrev Unifier (P : Program) := Descent → Side P → Side P → Module P → Option (Bool × Module P)

namespace Module

variable {P : Program}

/-- The side an array item names: its node, or its value when it is a static ref. -/
def sideOf (m : Module P) : AnyNodeId → Option (Side P)
  | .dynamic node => some { node := some node }
  | .static sref => (m.staticNode sref).map fun entry => { value := entry.value }

/-- Resolve a node-naming side to what its class knows; a node-less side already carries it. -/
def answerClassSide (m : Module P) (side : Side P) : Option (Side P) :=
  match side.node with
  | none => some side
  | some node => (m.nodes.get node).map fun entry => { node := some node, value := entry.value }

/-- Whether an answer still holds a static ref whose frozen node holds nothing. -/
def frozenAnswerIsOpen (m : Module P) : Value P → Option Bool
  | .low (.array array) =>
    array.items.anyM fun item =>
      match item.node with
      | .dynamic _ => some false
      | .static sref => (m.staticNode sref).map fun entry => entry.value.isNone
  | _ => some false

/-- The canonical attributes the array's layout lists. -/
def layoutOf (m : Module P) (array : ArrayValue) : Option (List Nat) :=
  match array.handle with
  | .dynamic _ => some (m.attributeLayouts[array.layout]?.getD [])
  | .static handle =>
    (m.staticModule handle.module).map fun home =>
      home.attributeLayouts[array.layout]?.getD []

/-- Whether two decided leaf values are one: functions by identity, else full value equality. -/
def valueExprEqual (m : Module P) (a b : Value P) : Bool :=
  match a, b with
  | .low (.function x), .low (.function y) => m.functionIdentityEqual x y
  | _, _ => a.valueEq b

/-- Record a value-only conflict at the enclosing unification's roots, with no steps. -/
def recordValueError (m : Module P) (root : NodeId × NodeId) (a b : Option (Value P)) : Module P :=
  { m with unifyErrors := m.unifyErrors ++
      [{ rootA := root.1, rootB := root.2, steps := [], a := root.1, b := root.2,
         valueA := a, valueB := b }] }

/-- Record a conflict between two classes, with the descent that reached them. -/
def recordError (m : Module P) (ra rb : NodeId) (d : Descent) : Module P :=
  { m with unifyErrors := m.unifyErrors ++
      [{ rootA := d.root.1, rootB := d.root.2, steps := d.steps, a := ra, b := rb,
         valueA := (m.nodes.get ra).bind Node.value, valueB := (m.nodes.get rb).bind Node.value }] }

end Module

/-- The canonical attributes of one side, each with the item at its slot. -/
def attributeSlots (items : List ArrayItem) (layout : List Nat) : List (Nat × Option AnyNodeId) :=
  layout.mapIdx fun position canonical =>
    (canonical, items[EXPR_ATTR_BASE + position]?.map ArrayItem.node)

/-- Merge two sorted layouts: the attributes both sides hold, by canonical index. The fuel
bounds the entries taken. -/
def mergeAttributes : Nat → List (Nat × Option AnyNodeId) → List (Nat × Option AnyNodeId) →
    List (Nat × AnyNodeId × AnyNodeId)
  | fuel + 1, (left, na) :: as, (right, nb) :: bs =>
    if left < right then mergeAttributes fuel as ((right, nb) :: bs)
    else if right < left then mergeAttributes fuel ((left, na) :: as) bs
    else
      match na, nb with
      | some na, some nb => (EXPR_ATTR_BASE + left, na, nb) :: mergeAttributes fuel as bs
      | _, _ => mergeAttributes fuel as bs
  | _, _, _ => []

namespace Module

variable {P : Program}

/-- Compare one pair of items. A frozen pair already on the descent is the frame's above. -/
def unifyItem (inner : Unifier P) (d : Descent) (index : Nat) (na nb : AnyNodeId) (m : Module P) :
    Option (Bool × Module P) :=
  let guarded := na.dynamic?.isNone || nb.dynamic?.isNone
  if na.dynamic?.isNone ∧ na = nb then some (true, m)
  else if guarded ∧ d.anyPath.contains na nb then some (true, m)
  else do
    let anyPath := if guarded then d.anyPath.insert na nb else d.anyPath
    let steps := d.steps ++ [{ index, a := nodeOrDefault na, b := nodeOrDefault nb }]
    let a ← m.sideOf na
    let b ← m.sideOf nb
    inner { d with anyPath, steps } a b m

/-- Compare pairs of items in order, up to the first that disagrees. -/
def unifyItems (inner : Unifier P) (d : Descent) :
    List (Nat × AnyNodeId × AnyNodeId) → Module P → Option (Bool × Module P)
  | [], m => some (true, m)
  | (index, na, nb) :: rest, m => do
    let (ok, m) ← m.unifyItem inner d index na nb
    if ok then unifyItems inner d rest m else some (false, m)

/-- The pairs two arrays compare position by position. -/
def leadingItems (a b : ArrayValue) : List (Nat × AnyNodeId × AnyNodeId) :=
  let leading :=
    if a.layout = 0 ∧ b.layout = 0 then a.items.length
    else min (min a.items.length b.items.length) EXPR_ATTR_BASE
  ((a.items.zip b.items).take leading).mapIdx fun index (ia, ib) => (index, ia.node, ib.node)

/-- Unify two structural arrays: plain positions by index, attribute slots by canonical index. -/
def unifyArrayItems (inner : Unifier P) (d : Descent) (a b : ArrayValue) (m : Module P) :
    Option (Bool × Module P) :=
  if a = b then some (true, m)
  else if a.layout = 0 ∧ b.layout = 0 ∧ a.items.length ≠ b.items.length then some (false, m)
  else do
    let (ok, m) ← unifyItems inner d (leadingItems a b) m
    if ok then
      let left := attributeSlots a.items (← m.layoutOf a)
      let right := attributeSlots b.items (← m.layoutOf b)
      unifyItems inner d (mergeAttributes (left.length + right.length) left right) m
    else some (false, m)

/-- Bind a wildcard constructor between the value halves of two dynamic parameters. -/
def bindParameters (m : Module P) (a : AnyFunctionId) (parameterA : AnyNodeId) (b : AnyFunctionId)
    (parameterB : AnyNodeId) : Bool × Module P :=
  match parameterA.dynamic?.bind m.exprValueHalf, parameterB.dynamic?.bind m.exprValueHalf with
  | some valueA, some valueB => m.inferConstructorBinding a valueA b valueB
  | _, _ => (true, m)

/-- Compare one pair of signature cells. -/
def unifyCell (inner : Unifier P) (d : Descent) (index : Nat) (na nb : AnyNodeId) (m : Module P) :
    Option (Bool × Module P) := do
  let steps := d.steps ++ [{ index, a := nodeOrDefault na, b := nodeOrDefault nb }]
  let a ← m.sideOf na
  let b ← m.sideOf nb
  inner { d with steps } a b m

/-- Compare function parameter and return cells; an inner `none` means no signature. -/
def unifyFunctionSignatures (inner : Unifier P) (d : Descent) (a b : AnyFunctionId) (m : Module P) :
    Option (Option Bool × Module P) := do
  let cellsA ← m.functionCells a
  let cellsB ← m.functionCells b
  match cellsA, cellsB with
  | some (parameterA, returnA), some (parameterB, returnB) =>
    let bound := m.bindParameters a parameterA b parameterB
    let m := bound.2
    if !bound.1 then some (some false, m.recordValueError d.root none none)
    else if m.functionHasWildcard a || m.functionHasWildcard b then some (some true, m)
    else do
      let (ok, m) ← m.unifyCell inner d 0 parameterA parameterB
      if ok then
        let (ok, m) ← m.unifyCell inner d 1 returnA returnB
        some (some ok, m)
      else some (some false, m)
  | _, _ => some (none, m)

/-- A left wildcard joins an undecided right side; any other wildcard comparison succeeds. -/
def unifyWildcard (a b : Side P) (m : Module P) : Module P :=
  if isWildcard a.value ∧ b.value.isNone then
    match a.node, b.node with
    | some ra, some rb => (m.addEquality ra rb).2
    | none, some node => m.writeNodeValue node a.value
    | _, none => m
  else m

/-- Compare two sides at least one of which has no node: a value against an empty class is a
write, unless its frozen positions are open. -/
def unifyValues (inner : Unifier P) (d : Descent) (a b : Side P) (m : Module P) :
    Option (Bool × Module P) :=
  match a.value, b.value with
  | none, none => some (true, m)
  | none, some value => fill a.node value
  | some value, none => fill b.node value
  | some x, some y =>
    match x, y with
    | .low (.array pa), .low (.array pb) => m.unifyArrayItems inner d pa pb
    | .low (.function fa), .low (.function fb) => do
      let (matched, m) ← m.unifyFunctionSignatures inner d fa fb
      match matched with
      | some ok => some (ok, m)
      | none =>
        if m.functionIdentityEqual fa fb then some (true, m)
        else some (false, m.recordValueError d.root (some x) (some y))
    | _, _ =>
      if m.valueExprEqual x y then some (true, m)
      else some (false, m.recordValueError d.root (some x) (some y))
where
  fill (node : Option NodeId) (value : Value P) : Option (Bool × Module P) :=
    match node with
    | none => some (true, m)
    | some node => do
      if ← m.frozenAnswerIsOpen value then some (true, m)
      else some (true, m.writeNodeValue node (some value))

/-- Compare two different classes that both hold a value. -/
def unifyHeld (inner : Unifier P) (d : Descent) (ra rb : NodeId) (x y : Value P) (m : Module P) :
    Option (Bool × Module P) :=
  match x, y with
  | .low (.array pa), .low (.array pb) =>
    if pa.layout = 0 ∧ pb.layout = 0 ∧ pa.items.length ≠ pb.items.length then
      some (false, m.recordError ra rb d)
    else do
      let (ok, m) ← m.unifyArrayItems inner { d with path := d.path.insert ra rb } pa pb
      some (ok, if ok then (m.addEquality ra rb).2 else m)
  | .low (.function fa), .low (.function fb) => do
    let (matched, m) ← m.unifyFunctionSignatures inner { d with path := d.path.insert ra rb } fa fb
    match matched with
    | some true => some (true, (m.addEquality ra rb).2)
    | some false => some (false, m)
    | none =>
      if m.functionIdentityEqual fa fb then some (true, (m.addEquality ra rb).2)
      else some (false, m.recordError ra rb d)
  | _, _ =>
    if x.valueEq y then some (true, (m.addEquality ra rb).2)
    else some (false, m.recordError ra rb d)

/-- Compare two classes. A pair already on the descent is one structure, not a disagreement. -/
def unifyNodes (inner : Unifier P) (d : Descent) (ra rb : NodeId) (va vb : Option (Value P))
    (m : Module P) : Option (Bool × Module P) :=
  if ra = rb then some (true, m)
  else if d.path.contains ra rb then some (true, m)
  else
    match va, vb with
    | some x, some y => m.unifyHeld inner d ra rb x y
    | _, _ => some (true, (m.addEquality ra rb).2)

/-- Recursive core of `unify`, with `depth` frames left below `MAX_VALUE_DEPTH`: at the bound
every comparison succeeds. -/
def unifyInner : Nat → Unifier P
  | 0, _, _, _, m => some (true, m)
  | depth + 1, d, a, b, m => do
    let a ← m.answerClassSide a
    let b ← m.answerClassSide b
    if isWildcard a.value ∨ isWildcard b.value then some (true, m.unifyWildcard a b)
    else
      match a.node, b.node with
      | some ra, some rb => m.unifyNodes (unifyInner depth) d ra rb a.value b.value
      | _, _ => m.unifyValues (unifyInner depth) d a b

/-- Structurally unify the classes of `a` and `b`; answers `a`'s class representative. -/
def unify (m : Module P) (a b : NodeId) : Option (NodeId × Module P) := do
  let (_, m) ← unifyInner MAX_VALUE_DEPTH { root := (a, b) } { node := some a } { node := some b } m
  some (m.find a)

/-- `unify` over refs: a static side is compared by value and written into an open cell. -/
def unifyRef (m : Module P) (a b : AnyNodeId) : Option (AnyNodeId × Module P) := do
  let left ← m.sideOf a
  let right ← m.sideOf b
  let (_, m) ← unifyInner MAX_VALUE_DEPTH { root := (nodeOrDefault a, nodeOrDefault b) } left right m
  match a with
  | .dynamic node => some (.dynamic (m.classRoot node), m)
  | .static _ => some (a, m)

/-- Commit an operation's answer, unifying it against what the class holds. -/
def writeNodeAnswer (m : Module P) (node : NodeId) (value : Value P) : Option (Module P) := do
  let held := (← m.nodes.get node).value
  let (agrees, m) ← unifyInner MAX_VALUE_DEPTH { root := (node, node) } { value := some value }
    { value := held } m
  let m := if agrees then m.writeNodeValueIfAbsent node (some value) else m
  some (m.modifyNode node fun entry => { entry with runned := true })

end Module

end LichenVm
