import LichenVm.Release

namespace LichenVm

open DisjointSet LexicalScope

/-- A collect under way: the module, the nodes entered and the classes entered. -/
structure Walk (P : Program) where
  module : Module P
  visited : List NodeId := []
  classes : List NodeId := []

namespace Module

variable {P : Program}

def descendsFrom (m : Module P) (block ancestor : BlockId) : Bool :=
  climbBlocks m.blocks.slots.length block
where
  climbBlocks : Nat → BlockId → Bool
    | 0, block => block = ancestor
    | steps + 1, block =>
      if block = ancestor then true
      else
        match (m.blocks.get block).bind Block.parent with
        | some parent => climbBlocks steps parent
        | none => false

/-- Whether a live node is homed in `source` or below it. -/
def homedIn (m : Module P) (source : BlockId) (node : NodeId) : Bool :=
  match m.homeOf node with
  | some home => m.descendsFrom home source
  | none => false

/-- What a program value may look at while declaring the nodes it keeps alive. -/
def traceContext (m : Module P) : TraceContext where
  nodeBlock := m.homeOf
  blockNodes block := (m.blocks.get block).map Block.nodes
  functionNodes function := (m.functions.get function).map Function.nodes

/-- Re-allocate `node`'s payload into its own block, keeping the value itself. -/
def relocateClassValue (m : Module P) (node : NodeId) : Module P :=
  match m.nodes.get node with
  | none => m
  | some entry =>
    match entry.value with
    | some (.low (.array array)) =>
      match array.handle with
      | .static _ => m
      | .dynamic handle =>
        let (handle, m) := m.allocArray handle.items entry.block
        m.setNodeValue node (some (.low (.array { handle, layout := array.layout })))
    | some (.low (.table (.dynamic handle))) =>
      let (handle, m) := m.allocTable handle.items entry.block
      m.setNodeValue node (some (.low (.table handle)))
    | some (.ext value) =>
      let (value, m) := m.copyExt value entry.block
      m.setNodeValue node (some (.ext value))
    | _ => m

end Module

namespace Walk

variable {P : Program}

/-- The class members of `node` that this walk has not entered yet. -/
def classWalk (w : Walk P) (node : NodeId) : List NodeId × Walk P :=
  let (representative, m) := w.module.find node
  let w := { w with module := m }
  if representative ∈ w.classes then ([], w)
  else
    ((m.membersOf representative).filter (· ≠ node),
      { w with classes := representative :: w.classes })

/-- Home `node` in `target`. -/
def moveNode (w : Walk P) (node : NodeId) (target : BlockId) : Walk P :=
  let m := w.module.modifyNode node fun entry => { entry with block := target }
  { w with module := m.modifyBlock target fun entry => { entry with nodes := entry.nodes ++ [node] } }

/-- Home `function` in `target` when its home is vacated. -/
def moveFunction (w : Walk P) (function : FunctionId) (source target : BlockId) : Walk P :=
  match w.module.functions.get function with
  | none => w
  | some entry =>
    if w.module.descendsFrom entry.block source then
      let m := w.module.modifyFunction function fun entry => { entry with block := target }
      { w with module := m.modifyBlock target fun entry =>
          { entry with functions := entry.functions ++ [function] } }
    else w

/-- Home the function a vacated node holds. -/
def moveHeld (w : Walk P) (source target : BlockId) : Option (Value P) → Walk P
  | some (.low (.function (.dynamic function))) => w.moveFunction function source target
  | _ => w

/-- Put the payload of the vacated `node`'s value into `target`'s arena. -/
def relocate (w : Walk P) (node : NodeId) (target : BlockId) : Option (Value P) → Walk P
  | some (.low (.array array)) =>
    match array.handle with
    | .static _ => { w with module := w.module.setNodeValue node (some (.low (.array array))) }
    | .dynamic handle =>
      let (handle, m) := w.module.allocArray handle.items target
      { w with module :=
          m.setNodeValue node (some (.low (.array { handle, layout := array.layout }))) }
  | some (.low (.table (.dynamic handle))) =>
    let (handle, m) := w.module.allocTable handle.items target
    { w with module := m.setNodeValue node (some (.low (.table handle))) }
  | some (.ext value) =>
    let (value, m) := w.module.copyExt value target
    { w with module := m.setNodeValue node (some (.ext value)) }
  | some value => { w with module := w.module.setNodeValue node (some value) }
  | none => w

/-- The nodes a value names, in the order the walk enters them. A function is walked from
inside the vacated subtree alone. -/
def valueEdges (m : Module P) (inside : Bool) : Option (Value P) → List NodeId
  | some (.low (.array array)) =>
    match array.handle with
    | .static _ => []
    | .dynamic handle => handle.items.filterMap fun item => item.node.dynamic?
  | some (.low (.table (.dynamic handle))) =>
    handle.items.flatMap fun item => item.key.dynamic?.toList ++ item.value.dynamic?.toList
  | some (.low (.function (.dynamic function))) =>
    match m.functions.get function with
    | some entry => if inside then entry.nodes ++ entry.asserts else []
    | none => []
  | some (.ext value) => P.traced m.traceContext value
  | _ => []

/-- An operator that still owes its answer reads the operand for one. -/
def owedOperand (m : Module P) (node : NodeId) : List NodeId :=
  if m.hasNoResultYet node then ((m.nodeOperation node).bind Operation.operand).toList else []

/-- Walk a class member; one outside the vacated subtree keeps its payload in its own block. -/
def collectMember (walk : Walk P → NodeId → Walk P) (source : BlockId) (w : Walk P)
    (member : NodeId) : Walk P :=
  let inside := w.module.homedIn source member
  let w := walk w member
  if inside then w else { w with module := w.module.relocateClassValue member }

/-- One node's part of the walk, and every edge it owns. The fuel bounds the nesting: a node
is entered once. -/
def collectNode (fuel : Nat) (source target : BlockId) (w : Walk P) (node : NodeId) : Walk P :=
  match fuel with
  | 0 => w
  | fuel + 1 =>
    if node ∈ w.visited then w
    else
      let w := { w with visited := node :: w.visited }
      let (members, w) := w.classWalk node
      let inside := w.module.homedIn source node
      let w := if inside then w.moveNode node target else w
      let w := members.foldl (collectMember (collectNode fuel source target) source) w
      let current := (w.module.nodes.get node).bind Node.value
      let w := (owedOperand w.module node).foldl (collectNode fuel source target) w
      let w := (w.module.fieldSources.get node).toList.foldl (collectNode fuel source target) w
      let w := (valueEdges w.module inside current).foldl (collectNode fuel source target) w
      if inside then (w.moveHeld source target current).relocate node target current else w

end Walk

namespace Module

variable {P : Program}

/-- Whether `node` belongs to a function whose home is outside `source`. -/
def ownsSurvivingFunction (m : Module P) (source : BlockId) (node : NodeId) : Bool :=
  match ((m.nodes.get node).bind Node.function).bind m.functions.get with
  | some entry => !m.descendsFrom entry.block source
  | none => false

/-- The nodes in the blocks of the stack, and below them, that a function outliving `source`
names. -/
def ownedFrom (m : Module P) (source : BlockId) : Nat → List BlockId → List NodeId
  | _, [] => []
  | 0, _ :: _ => []
  | fuel + 1, block :: pending =>
    match m.blocks.get block with
    | none => m.ownedFrom source fuel pending
    | some entry =>
      entry.nodes.filter (fun node => m.homeOf node = some block ∧
        m.ownsSurvivingFunction source node) ++
      m.ownedFrom source fuel (entry.children.reverse ++ pending)

/-- The nodes in `source`'s block subtree that a function outliving `source` names. -/
def ownedBySurvivingFunction (m : Module P) (source : BlockId) : List NodeId :=
  m.ownedFrom source (m.blocks.slots.length + 1) [source]

/-- A pending assert's condition is a root of the walk when the block homes it. -/
def collectCondition (walk : Walk P → NodeId → Walk P) (source : BlockId) (w : Walk P)
    (condition : NodeId) : Walk P :=
  if w.module.homedIn source condition then walk w condition else w

/-- The walk of a collect: the root, the pending asserts' conditions, and the templates of
the functions that outlive the block. Answers the root's value in its new home. -/
def collectWalk (m : Module P) (blockRoot : NodeId) (source target : BlockId) :
    Option (Value P) × Module P :=
  let fuel := m.nodeBound + 2
  let w := Walk.collectNode fuel source target { module := m } blockRoot
  let value := (w.module.nodes.get blockRoot).bind Node.value
  let w := (w.module.asserts.map PendingAssert.condition).foldl
    (collectCondition (Walk.collectNode fuel source target) source) w
  let w := (w.module.ownedBySurvivingFunction source).foldl (Walk.collectNode fuel source target) w
  (value, w.module)

/-- Drop the records whose cell went with the block. -/
def pruneReleasedRecords (m : Module P) : Module P :=
  let live (node : NodeId) : Bool := m.nodes.containsKey node
  { m with
    requirements := m.requirements.retain fun node _ => live node
    replayApplied := m.replayApplied.retain fun node applied => live node && live applied
    replayParameters := m.replayParameters.retain fun node parameter => live node && live parameter
    fieldSources := m.fieldSources.retain fun required supplied => live required && live supplied
    pendingProjections := m.pendingProjections.filterMap fun formal operations =>
      let operations := operations.filter live
      if live formal && !operations.isEmpty then some operations else none
    cloneParameters := m.cloneParameters.retain fun clone (parameter, image) =>
      live clone && live parameter && live image
    parameterImages := m.parameterImages.retain fun formal image => live formal && live image }

/-- The block a collect of `blockRoot` vacates, and the parent it moves what survives into. -/
def vacates (m : Module P) (blockRoot : NodeId) : Option (BlockId × BlockId) :=
  (m.homeOf blockRoot).bind fun source =>
    ((m.blocks.get source).bind Block.parent).map fun target => (source, target)

/-- Move the reachable subtree of `blockRoot` into its block's parent, and drop the block. -/
def garbageCollect (m : Module P) (blockRoot : NodeId) : Option (Value P) × Module P :=
  match m.vacates blockRoot with
  | none => ((m.nodes.get blockRoot).bind Node.value, m) -- root block: nothing to release
  | some (source, target) =>
    let (value, m) := m.collectWalk blockRoot source target
    (value, (m.dropBlock source).pruneReleasedRecords)

end Module

end LichenVm
