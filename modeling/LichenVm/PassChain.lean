import LichenVm.GraphRun

/-! The rewrites of a graph before its dispatch, and the extents that they read. -/

open List

namespace LichenVm.GraphIr

/-- The launch extent of the node at an index: none where the host has no number. -/
abbrev ExtentReading := Nat → Option Nat

/-- A rewrite of the graph that will run: the graph to dispatch, or none to leave it as it was, and
the lines that it records. -/
abbrev GraphPass := Graph → ExtentReading → Option Graph × List String

/-- The number an argument gives an extent: its own, or how many elements it holds. -/
def argumentExtent (arguments : List Value) (id : ValueId) : Option Nat :=
  match arguments[id]? with
  | some (.int number) => if number < 0 then none else some number.toNat
  | some value => value.count
  | none => none

/-- The extents a run reads off the graph it was handed. -/
def runExtent (graph : Graph) (arguments : List Value) : ExtentReading := fun node =>
  graph.nodes[node]?.bind fun kernel =>
    match kernel.count with
    | .constant count => some count
    | .value id => argumentExtent arguments id
    | .device _ _ => none

/-- The extents a stage reads: a constant is the stage's own graph's, and any other is the host's. -/
def stageExtent (graph : Graph) (host : ExtentReading) : ExtentReading := fun node =>
  graph.nodes[node]?.bind fun kernel =>
    match kernel.count with
    | .constant count => some count
    | _ => host node

/-- Apply every stage in turn to the graph the one before it answered, each with the extents that
`reading` gives for that graph. -/
def applyStages (reading : Graph → ExtentReading) (stages : List GraphPass) (graph : Graph) :
    Option Graph × List String :=
  stages.foldl (fun current stage =>
    let seen := current.1.getD graph
    let answer := stage seen (reading seen)
    (answer.1.or current.1, current.2 ++ answer.2)) (none, [])

/-- The one pass that applies `stages` in turn. -/
def passChain (stages : List GraphPass) : GraphPass := fun graph extent =>
  applyStages (fun seen => stageExtent seen extent) stages graph

/-- The number a node is dispatched over, where the host holds it. -/
def hostCount (arguments : List Value) (count : Count) : Option Nat :=
  match extentOf 0 arguments (arguments.map fun _ => .given) [] count with
  | .ok (.host number) => some number
  | _ => none

def dispatchedExtent (arguments : List Value) (graph : Graph) : ExtentReading := fun node =>
  graph.nodes[node]?.bind fun kernel => hostCount arguments kernel.count

/-- A node that a run reaches is dispatched over that number, whatever buffers were made before. -/
theorem hostCount_run {arguments made : List Value} {sources : List Source} {allocated : List Nat}
    {node : Nat} (buffers : ∀ value ∈ made, ∃ state, value.asNumber = .error state) (count : Count)
    (number : Nat) :
    extentOf node (arguments ++ made) sources allocated count = .ok (.host number) ↔
      hostCount arguments count = some number := by
  cases count with
  | constant count => simp [hostCount, extentOf]
  | device id index =>
    simp only [hostCount, extentOf]
    constructor
    · intro held
      split at held
      · cases held
      · split at held
        · cases held
        · split at held <;> cases held
    · intro held
      split at held
      · next answered =>
        split at answered
        · cases answered
        · split at answered
          · cases answered
          · split at answered <;> cases answered
      · cases held
  | value id =>
    simp only [hostCount, extentOf]
    by_cases given : id < arguments.length
    · rw [getElem?_append_left given, getElem?_eq_getElem given]
      simp only [extentOfValue]
      cases arguments[id].asNumber with
      | error found => simp
      | ok read => by_cases negative : read < 0 <;> simp [negative]
    · rw [getElem?_append_right (Nat.not_lt.1 given), getElem?_eq_none (Nat.not_lt.1 given)]
      cases found : made[id - arguments.length]? with
      | none => simp
      | some value =>
        obtain ⟨state, held⟩ := buffers value (mem_of_getElem? found)
        simp [extentOfValue, held]

variable (stages : List GraphPass) (graph : Graph) (arguments : List Value)

/-- The graph that the stages so far leave. -/
def seen (before : List GraphPass) : Graph :=
  ((passChain before graph (runExtent graph arguments)).1).getD graph

/-- Each stage reads the extents of the graph it is handed. -/
def ReadsOwn : Prop :=
  ∀ before stage after, stages = before ++ stage :: after →
    stageExtent (seen graph arguments before) (runExtent graph arguments) =
      dispatchedExtent arguments (seen graph arguments before)

/-- A node with no constant count that a stage sees stands where the recorded graph has one that the
run's arguments give the extent the node is dispatched over. -/
def InPlace : Prop :=
  ∀ before stage after, stages = before ++ stage :: after → ∀ index node,
    (seen graph arguments before).nodes[index]? = some node →
    (∀ number, node.count ≠ .constant number) →
      runExtent graph arguments index = hostCount arguments node.count

variable {stages graph arguments}

theorem stageExtent_eq_iff {current : Graph} {host : ExtentReading} :
    stageExtent current host = dispatchedExtent arguments current ↔
      ∀ index node, current.nodes[index]? = some node → (∀ number, node.count ≠ .constant number) →
        host index = hostCount arguments node.count := by
  constructor
  · intro same index node found varies
    have here := congrFun same index
    cases counted : node.count with
    | constant number => exact absurd counted (varies number)
    | value id | device id element =>
      simpa only [stageExtent, dispatchedExtent, found, Option.bind_some, counted] using here
  · intro each
    funext index
    simp only [stageExtent, dispatchedExtent]
    cases found : current.nodes[index]? with
    | none => rfl
    | some node =>
      simp only [Option.bind_some]
      split
      · next constant => rw [constant]; rfl
      · next varies => exact each index node found varies

theorem applyStages_concat (reading : Graph → ExtentReading) (stage : GraphPass) :
    applyStages reading (stages ++ [stage]) graph =
      let current := applyStages reading stages graph
      let answer := stage (current.1.getD graph) (reading (current.1.getD graph))
      (answer.1.or current.1, current.2 ++ answer.2) :=
  foldl_concat ..

/-- **A stage reads the extents of its own graph exactly when every node of a count that is no
constant stands where the recorded graph has one of that extent**; then a chain answers what its
stages answer with the extents read afresh. -/
theorem stages_read_own_iff (stages : List GraphPass) (graph : Graph) (arguments : List Value) :
    (ReadsOwn stages graph arguments ↔ InPlace stages graph arguments) ∧
      (InPlace stages graph arguments → passChain stages graph (runExtent graph arguments) =
        applyStages (dispatchedExtent arguments) stages graph) := by
  have own : ReadsOwn stages graph arguments ↔ InPlace stages graph arguments :=
    ⟨fun reads before stage after split => stageExtent_eq_iff.1 (reads before stage after split),
      fun place before stage after split => stageExtent_eq_iff.2 (place before stage after split)⟩
  refine ⟨own, fun place => ?_⟩
  have reads := own.2 place
  clear own place
  induction stages using reverseRecOn with
  | nil => rfl
  | append_singleton stages stage ih =>
    have before := ih fun before other after split => reads before other (after ++ [stage]) (by
      rw [split, append_assoc, cons_append])
    have here : _ = _ := reads stages stage [] rfl
    rw [passChain] at before ⊢
    rw [seen, passChain, before] at here
    rw [applyStages_concat, applyStages_concat, before]
    simp only [here]

/-- A dispatch of a kernel that reads and writes nothing. -/
def emptyNode (count : Count) : KernelNode where
  fragment := {
    paramShape := .scalar .int, roles := {}, body := ⟨[], [], 0, false, []⟩, inputs := 0, outputs := 0,
    inputClasses := [], outputClasses := [], resultClasses := [], target := ⟨.i64, 64, 1⟩ }
  inputs := []
  count

/-- A rewrite that merges the first node away. -/
def dropFirst : GraphPass := fun graph _ => (some { graph with nodes := graph.nodes.tail }, [])

/-- The node behind the merged one is dispatched over eight, and the next stage reads four: the count
of the node that stood at its index. -/
theorem shifted_node_reads_another_extent :
    let graph : Graph := { nodes := [emptyNode (.constant 4), emptyNode (.value 0)], inputs := 1, values := 1 }
    let current := seen graph [.int 8] [dropFirst]
    stageExtent current (runExtent graph [.int 8]) 0 = some 4 ∧
      dispatchedExtent [.int 8] current 0 = some 8 ∧
      ∀ stage, ¬ ReadsOwn [dropFirst, stage] graph [.int 8] := by
  refine ⟨rfl, rfl, fun stage reads => ?_⟩
  have here := congrFun (reads [dropFirst] stage [] rfl) 0
  cases here

end LichenVm.GraphIr
