import LichenVm.HalvedForest
import LichenVm.KeyGroups
import LichenVm.LaunchGraph

/-! The fusible regions of a launch graph. -/

namespace LichenVm.FusionClaim

open KernelIr (KernelFragment)
open GraphIr (Graph KernelNode Count ValueId)

/-- One kernel that a program dispatched, with what it claims. -/
structure Instance (C : Type) where
  kernel : KernelIr.KernelId
  claim : C
  fragment : KernelFragment

/-- How a graph node's fragment matched the instances a program dispatched. -/
inductive Match (C : Type) where
  | notClaimed
  | one (held : Instance C)
  | ambiguous

def Match.isUnclaimed {C : Type} : Match C → Bool
  | .notClaimed => true
  | _ => false

/-- The instances whose fragment this is. The digest is only the bucket. -/
def matched {C : Type} [DecidableEq C] (digest : KernelFragment → UInt64)
    (instances : List (Instance C)) (fragment : KernelFragment) : Match C :=
  let candidates := instances.filter fun held => digest held.fragment = digest fragment
  match candidates.filter fun held => held.fragment = fragment with
  | [] => .notClaimed
  | first :: rest => if rest.all fun other => other.claim = first.claim then .one first else .ambiguous

section Graph

variable (graph : Graph)

/-- The first value that each node produces. -/
def offsets (graph : Graph) : List Nat :=
  (graph.nodes.foldl (fun starts node => (starts.1 ++ [starts.2], starts.2 + node.fragment.outputs))
    ([], graph.inputs)).1

def countAt (position : Nat) : Count :=
  (graph.nodes[position]?.map KernelNode.count).getD (.constant 0)

def inputsAt (position : Nat) : List ValueId :=
  (graph.nodes[position]?.map KernelNode.inputs).getD []

/-- The value a node's extent reads, when it reads one. -/
def extentOf (position : Nat) : Option ValueId :=
  match countAt graph position with
  | .value value | .device value _ => some value
  | .constant _ => none

/-- The values a node produces. -/
def outputsAt (position : Nat) : List ValueId :=
  List.range' ((offsets graph).getD position 0)
    ((graph.nodes[position]?.map fun node => node.fragment.outputs).getD 0)

def extentsCorrespond : Count → Count → Bool
  | .constant producer, .constant consumer => producer == consumer
  | .value producer, .value consumer => producer == consumer
  | .device producer index, .device consumer index' => producer == consumer && index == index'
  | _, _ => false

/-- The place in the run of the node that produces a value, that of the last one noted. -/
def producerOf (run : List Nat) (value : ValueId) : Option Nat :=
  (run.zipIdx.reverse.find? fun entry => (outputsAt graph entry.1).contains value).map Prod.snd

/-- The edges that join two places of a run, from the last reader back. -/
def edges (run : List Nat) (dataEdgeJoins : Count → Count → Bool) : List (Nat × Nat) :=
  run.zipIdx.reverse.flatMap fun (position, later) =>
    ((inputsAt graph position).filterMap fun value => do
      let earlier ← producerOf graph run value
      let joins := earlier < later ∧
        dataEdgeJoins (countAt graph (run.getD earlier 0)) (countAt graph position)
      if joins then some (earlier, later) else none) ++
    -- A count edge joins whatever the two extents are.
    (extentOf graph position).toList.filterMap fun value => do
      let earlier ← producerOf graph run value
      if earlier < later then some (earlier, later) else none

/-- The nodes of a run, each with the root of its component. -/
def named (run : List Nat) (dataEdgeJoins : Count → Count → Bool) : List (Nat × Nat) :=
  let joins := edges graph run dataEdgeJoins
  run.zip (HalvedForest.roots (joins.length + 1) (HalvedForest.joined (joins.length + 1) joins id)
    (List.range run.length))

/-- The weakly-connected components of one run of claimed nodes, in the order of their roots. -/
def components (run : List Nat) (dataEdgeJoins : Count → Count → Bool) : List (List Nat) :=
  if run.length < 2 then (if run.isEmpty then [] else [run])
  else KeyGroups.groups (named graph run dataEdgeJoins)

/-- The ordinary rule's components: the run's, each cut where the extent changes. -/
def ordinaryComponents (run : List Nat) : List (List Nat) := components graph run extentsCorrespond

def readsAt (position : Nat) : List ValueId := inputsAt graph position ++ (extentOf graph position).toList

/-- The claimed consumers of each node of a component, one entry for each read. -/
def consumersWithin (component : List Nat) : List (List Nat) :=
  (List.range component.length).map fun producer =>
    component.zipIdx.flatMap fun (position, index) =>
      (readsAt graph position).filterMap fun value =>
        if producerOf graph component value = some producer ∧ producer < index then some index else none

/-- The node that produced a value, when one of the graph's nodes did. -/
def producerPosition (value : ValueId) : Option Nat :=
  (List.range graph.nodes.length).find? fun position => (outputsAt graph position).contains value

/-- Whether one branch reads a value that another branch produced. -/
def branchesAreNotIndependent (branches : List (List Nat)) : Bool :=
  branches.zipIdx.any fun (branch, index) =>
    branch.any fun position =>
      (inputsAt graph position).any fun value =>
        match producerPosition graph value with
        | none => false
        | some producer => branches.zipIdx.any fun (other, place) =>
          place != index && other.contains producer

/-- The shared producer of a component, and the branches that its consumers hold. -/
def sharedProducer (component : List Nat) : Option (Nat × List (List Nat)) :=
  component.zipIdx.findSome? fun (position, index) =>
    let held := (consumersWithin graph component).getD index []
    if held.length < 2 then none
    else
      let branches := held.map fun consumer => [component.getD consumer 0]
      if branchesAreNotIndependent graph branches then none else some (position, branches)

/-- One branch more, in the group of its extent. -/
def addBranch (count : Count) (branch : List Nat) :
    List (Count × List (List Nat)) → List (Count × List (List Nat))
  | [] => [(count, [branch])]
  | (held, group) :: groups =>
    if held = count then (held, group ++ [branch]) :: groups
    else (held, group) :: addBranch count branch groups

/-- A branch without a head is in no group. -/
def groupBranch (groups : List (Count × List (List Nat))) (branch : List Nat) :
    List (Count × List (List Nat)) :=
  match branch.head? with
  | none => groups
  | some head => addBranch (countAt graph head) branch groups

/-- The branches grouped by the extent they dispatch over, in the branches' own order. -/
def groupsByExtent (branches : List (List Nat)) : List (List (List Nat)) :=
  (branches.foldl (groupBranch graph) []).map Prod.snd

/-- The input at which a producer's value reaches a consumer. -/
def producerOrdinal (producer consumer : Nat) : Option Nat :=
  (inputsAt graph consumer).findIdx? fun value => (outputsAt graph producer).contains value

end Graph

/-- The shape of a region the fold reads. -/
inductive RegionShape where
  | ordinary
  | sibling (producer : Nat) (branches : List (List Nat))

/-- One region the merge pass attempts: its nodes, its shape, and its schema. -/
structure Region (S : Type) where
  positions : List Nat
  shape : RegionShape
  schema : S

section Regions

variable {C S : Type} [DecidableEq C] (digest : KernelFragment → UInt64)
  (regionSchema : List Nat → List (Nat × Nat) → S) (graph : Graph) (instances : List (Instance C))

/-- The claimed nodes of the graph, in evaluation order. -/
def claimedRun : List Nat :=
  (List.range graph.nodes.length).filter fun position =>
    match graph.nodes[position]? with
    | some node => !(matched digest instances node.fragment).isUnclaimed
    | none => false

def ordinaryRegion (positions : List Nat) : Region S where
  positions
  shape := .ordinary
  schema := regionSchema positions []

/-- The regions the ordinary rule derives: one for each component of the claimed nodes. -/
def ordinaryRegions : List (Region S) :=
  (ordinaryComponents graph (claimedRun digest graph instances)).map (ordinaryRegion regionSchema)

/-- One sibling region: its roots name the producer's value at each branch's head. -/
def siblingRegion (producer : Nat) (branches : List (List Nat)) : Region S :=
  let positions := branches.flatten.insertionSort (· ≤ ·)
  let roots := branches.filterMap fun branch => do
    let root ← branch.head?
    let own ← positions.findIdx? (· = root)
    let ordinal ← producerOrdinal graph producer root
    some (own, ordinal)
  { positions, shape := .sibling producer branches, schema := regionSchema positions roots }

/-- The regions that one component of the claimed nodes yields under the sibling strategy. -/
def siblingComponent (component : List Nat) : List (Region S) :=
  match sharedProducer graph component with
  | none => (ordinaryComponents graph component).map (ordinaryRegion regionSchema)
  | some (producer, branches) =>
    -- Only a group of two branches or more is a sibling set.
    let groups := (groupsByExtent graph branches).filter fun group => 2 ≤ group.length
    let claimed := groups.flatten.flatten
    let rest := component.filter fun position => position ≠ producer ∧ position ∉ claimed
    ordinaryRegion regionSchema [producer] ::
      groups.map (siblingRegion regionSchema graph producer) ++
      (ordinaryComponents graph rest).map (ordinaryRegion regionSchema)

/-- The first node of a region, which the regions are sorted by. -/
def Region.first (region : Region S) : Nat := region.positions.head?.getD (2 ^ 64 - 1)

/-- The regions the sibling strategy derives, in the order of their first nodes. -/
def siblingRegions : List (Region S) :=
  ((components graph (claimedRun digest graph instances) fun _ _ => true).flatMap
    (siblingComponent regionSchema graph)).insertionSort fun one other => one.first ≤ other.first

end Regions

end LichenVm.FusionClaim
