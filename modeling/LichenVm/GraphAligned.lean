import LichenVm.GraphClasses

/-! When every value of an aligned graph is read in the class it was written in. -/

open List Option

namespace LichenVm

namespace KernelIr

namespace KernelFragment

variable {fragment : KernelFragment} {stated : ScalarClass}

theorem statesTheClass_of_real (real : stated.isReal) : fragment.statesTheClass stated =
    { fragment with
      inputClasses := fragment.inputClasses.map (ScalarClass.restated stated)
      outputClasses := fragment.outputClasses.map (ScalarClass.restated stated)
      body := { fragment.body with
        values := fragment.body.values.map (ValueDef.statesTheClass stated) } } :=
  if_pos real

theorem statesTheClass_classes (real : stated.isReal) (side : BufferSide) :
    (fragment.statesTheClass stated).bufferClasses side =
      (fragment.bufferClasses side).map (ScalarClass.restated stated) := by
  rw [statesTheClass_of_real real]
  cases side <;> rfl

@[simp] theorem statesTheClass_outputs : (fragment.statesTheClass stated).outputs = fragment.outputs := by
  unfold statesTheClass
  split <;> rfl

theorem statesTheClass_position (real : stated.isReal) (args : List ValueId) :
    (fragment.statesTheClass stated).body.position args = fragment.body.position args := by
  rw [statesTheClass_of_real real]
  refine Option.bind_congr fun named _ => ?_
  simp only [getElem?_map]
  cases held : fragment.body.values[named]? with
  | none => rfl
  | some value =>
    cases value with
    | blockParam block index => rfl
    | instr op args classes => cases op <;> rfl

theorem statesTheClass_instr (real : stated.isReal) {op : KernelInstr} {args : List ValueId}
    {classes : List ScalarClass} :
    ValueDef.instr op args classes ∈ (fragment.statesTheClass stated).body.values ↔
      ∃ source, ValueDef.instr source args classes ∈ fragment.body.values ∧
        source.statesTheClass stated = op := by
  rw [statesTheClass_of_real real]
  rw [List.mem_map]
  constructor
  · rintro ⟨value, member, same⟩
    cases value with
    | blockParam block index => cases same
    | instr source args' classes' =>
      obtain ⟨rfl, rfl, rfl⟩ := ValueDef.instr.inj same
      exact ⟨source, member, rfl⟩
  · rintro ⟨source, member, rfl⟩
    exact ⟨_, member, rfl⟩

end KernelFragment

namespace KernelInstr

theorem access_statesTheClass (stated : ScalarClass) (op : KernelInstr) :
    (op.statesTheClass stated).access = op.access.map fun named =>
      (named.1, if op.moves then ScalarClass.restated stated named.2 else named.2) := by
  cases op <;> rfl

end KernelInstr

namespace KernelFragment

variable {fragment : KernelFragment} {stated : ScalarClass}

/-- A restated fragment's accesses name their buffers' classes exactly when those left behind name the
class already. -/
theorem names_statesTheClass (real : stated.isReal) (names : fragment.NamesItsClasses) :
    (fragment.statesTheClass stated).NamesItsClasses ↔ fragment.Unmoved stated := by
  constructor
  · intro renamed op args classes member still side held accesses realHeld position at_position inside
    obtain ⟨declared, lists⟩ : ∃ declared, (fragment.bufferClasses side)[position]? = some declared :=
      ⟨_, getElem?_eq_getElem inside⟩
    obtain rfl := names op args classes member side held accesses position at_position declared lists
    have moved : (op.statesTheClass stated).access = some (side, held) := by
      rw [KernelInstr.access_statesTheClass, accesses, map_some, still]
      rfl
    refine (renamed _ args classes ((statesTheClass_instr real).2 ⟨op, member, rfl⟩) side held moved
      position (by rw [statesTheClass_position real]; exact at_position) stated ?_)
    rw [statesTheClass_classes real, getElem?_map, lists, map_some,
      ScalarClass.restated_of_real realHeld]
  · intro unmoved op args classes member side held accesses position at_position declared lists
    obtain ⟨source, listed, rfl⟩ := (statesTheClass_instr real).1 member
    rw [statesTheClass_position real] at at_position
    rw [statesTheClass_classes real, getElem?_map] at lists
    obtain ⟨before, found, rfl⟩ := map_eq_some_iff.1 lists
    rw [KernelInstr.access_statesTheClass] at accesses
    obtain ⟨⟨side', named⟩, accessed, same⟩ := map_eq_some_iff.1 accesses
    cases same
    obtain rfl := names source args classes listed side' named accessed position at_position before found
    cases moves : source.moves with
    | true => rfl
    | false =>
      by_cases realNamed : named.isReal
      · rw [ScalarClass.restated_of_real realNamed]
        exact unmoved source args classes listed moves side' named accessed realNamed position
          at_position (List.getElem?_eq_some_iff.1 found).1
      · rw [ScalarClass.restated_of_int realNamed]
        rfl

end KernelFragment

end KernelIr

namespace GraphIr

open KernelIr (ScalarClass KernelFragment BufferSide)

/-- An input of the node, the class its value has, and the class its fragment declares. -/
structure KernelNode.SlotAt (classes : ValueClasses) (node : KernelNode) (slot : Nat)
    (held read : ScalarClass) : Prop where
  held : ∃ value, node.inputs[slot]? = some value ∧ classes.held value = some held
  read : node.fragment.inputClasses[slot]? = some read

/-- Every input is declared in the class of the value it reads, and every access in the class of the
buffer it names. -/
structure KernelNode.ReadsAsWritten (classes : ValueClasses) (node : KernelNode) : Prop where
  slots : ∀ slot held read, node.SlotAt classes slot held read → read = held
  names : node.fragment.NamesItsClasses

/-- Where one input differs from its declared class, every input declared real holds that input's class,
and so names it every access that a change of class leaves behind. -/
def KernelNode.Uniform (classes : ValueClasses) (node : KernelNode) : Prop :=
  ∀ slot held read, node.SlotAt classes slot held read → held ≠ read →
    (∀ other held' read', node.SlotAt classes other held' read' → read'.isReal = true → held' = held) ∧
      node.fragment.Unmoved held

section Asked

variable {classes : ValueClasses} {node : Nat} {declared : List ScalarClass}

/-- The class held and the class declared, of an input that has both. -/
def slotPair (classes : ValueClasses) (declared : List ScalarClass) (slot : Nat) (value : ValueId) :
    Option (ScalarClass × ScalarClass) :=
  (classes.held value).bind fun held => declared[slot]?.map fun read => (held, read)

variable {held read : ScalarClass}

theorem slotPair_eq {slot : Nat} {value : ValueId} :
    slotPair classes declared slot value = some (held, read) ↔
      classes.held value = some held ∧ declared[slot]? = some read := by
  unfold slotPair
  cases classes.held value <;> cases declared[slot]? <;> simp

def slotPairs (classes : ValueClasses) (declared : List ScalarClass) :
    Nat → List ValueId → List (ScalarClass × ScalarClass)
  | _, [] => []
  | slot, value :: values =>
    (slotPair classes declared slot value).toList ++ slotPairs classes declared (slot + 1) values

theorem mem_slotPairs {slot : Nat} {values : List ValueId} :
    (held, read) ∈ slotPairs classes declared slot values ↔ ∃ index value,
      values[index]? = some value ∧ classes.held value = some held ∧
        declared[slot + index]? = some read := by
  induction values generalizing slot with
  | nil => simp [slotPairs]
  | cons first values ih =>
    have later : (held, read) ∈ slotPairs classes declared (slot + 1) values ↔ ∃ index value,
        (first :: values)[index + 1]? = some value ∧ classes.held value = some held ∧
          declared[slot + (index + 1)]? = some read := by
      rw [ih]
      simp only [getElem?_cons_succ, add_comm, add_left_comm]
    have split : (∃ index value, (first :: values)[index]? = some value ∧
        classes.held value = some held ∧ declared[slot + index]? = some read) ↔
        (classes.held first = some held ∧ declared[slot]? = some read) ∨
          (held, read) ∈ slotPairs classes declared (slot + 1) values := by
      rw [later]
      constructor
      · rintro ⟨_ | index, value, found, holds⟩
        · cases found
          exact .inl holds
        · exact .inr ⟨index, value, found, holds⟩
      · rintro (holds | ⟨index, value, found, holds⟩)
        · exact ⟨0, first, rfl, holds⟩
        · exact ⟨index + 1, value, found, holds⟩
    rw [split, slotPairs, mem_append, mem_toList, slotPair_eq]

/-- What the walk over a node's inputs answers: nothing differs, or the class of one that does. -/
theorem asked_spec {slot : Nat} {values : List ValueId} {start answer : Option ScalarClass}
    (answered : asked classes node declared slot values start = .ok answer) :
    (∀ pair ∈ slotPairs classes declared slot values, pair.1 ≠ pair.2 →
      pair.1.isReal ∧ pair.2.isReal) ∧
    ((answer = start ∧ ∀ pair ∈ slotPairs classes declared slot values, pair.1 = pair.2) ∨
      ∃ pair ∈ slotPairs classes declared slot values, pair.1 ≠ pair.2 ∧ answer = some pair.1) := by
  induction values generalizing slot start with
  | nil =>
    cases answered
    exact ⟨fun pair member => (by cases member), .inl ⟨rfl, fun pair member => (by cases member)⟩⟩
  | cons value values ih =>
    unfold asked at answered
    unfold slotPairs
    split at answered
    · rename_i held read holds reads
      rw [slotPair_eq.2 ⟨holds, reads⟩, toList_some, singleton_append]
      split at answered
      · rename_i same
        obtain ⟨real, rest⟩ := ih answered
        refine ⟨forall_mem_cons.2 ⟨fun apart => absurd same apart, real⟩, ?_⟩
        rcases rest with ⟨kept, agree⟩ | ⟨pair, member, differs⟩
        · exact .inl ⟨kept, forall_mem_cons.2 ⟨same, agree⟩⟩
        · exact .inr ⟨pair, mem_cons_of_mem _ member, differs⟩
      · rename_i apart
        split at answered
        · rename_i reals
          obtain ⟨real, rest⟩ := ih answered
          refine ⟨forall_mem_cons.2 ⟨fun _ => Bool.and_eq_true_iff.1 reals, real⟩, .inr ?_⟩
          rcases rest with ⟨kept, -⟩ | ⟨pair, member, differs⟩
          · exact ⟨(held, read), mem_cons_self, apart, kept⟩
          · exact ⟨pair, mem_cons_of_mem _ member, differs⟩
        · cases answered
    · rename_i absent
      have none_here : slotPair classes declared slot value = none := by
        refine eq_none_iff_forall_ne_some.2 fun pair found => ?_
        obtain ⟨holds, reads⟩ := slotPair_eq.1 (show _ = some (pair.1, pair.2) from found)
        exact absent pair.1 pair.2 holds reads
      rw [none_here, toList_none, nil_append]
      exact ih answered

theorem slotAt_iff {node : KernelNode} :
    (held, read) ∈ slotPairs classes node.fragment.inputClasses 0 node.inputs ↔
      ∃ slot, node.SlotAt classes slot held read := by
  rw [mem_slotPairs]
  constructor
  · rintro ⟨slot, value, found, holds, reads⟩
    exact ⟨slot, ⟨value, found, holds⟩, by rwa [zero_add] at reads⟩
  · rintro ⟨slot, ⟨value, found, holds⟩, reads⟩
    exact ⟨slot, value, found, holds, by rwa [zero_add]⟩

end Asked

section Nodes

variable {classes : ValueClasses} {position : Nat} {node : KernelNode}
  {stated : Option ScalarClass}

/-- The node is rebuilt as it was, or at another class: the same edges, extent and scalars. -/
def KernelNode.Restates (node rebuilt : KernelNode) : Prop :=
  ∃ stated, rebuilt = node.restated stated

/-- The node the walk rebuilds reads its inputs as they were written exactly when they are uniform. -/
theorem restated_reads (names : node.fragment.NamesItsClasses)
    (answered : asked classes position node.fragment.inputClasses 0 node.inputs none = .ok stated) :
    (node.restated stated).ReadsAsWritten classes ↔ node.Uniform classes := by
  obtain ⟨real, ⟨rfl, agree⟩ | ⟨⟨held, read⟩, member, apart, rfl⟩⟩ := asked_spec answered
  · have same : ∀ slot held read, node.SlotAt classes slot held read → held = read :=
      fun slot held read at_slot => agree (held, read) (slotAt_iff.2 ⟨slot, at_slot⟩)
    constructor
    · intro _ slot held read at_slot apart
      exact absurd (same slot held read at_slot) apart
    · intro _
      exact ⟨fun slot held read at_slot => (same slot held read at_slot).symm, names⟩
  · obtain ⟨realHeld, realRead⟩ := real (held, read) member apart
    have reals : ∀ slot held read, node.SlotAt classes slot held read → held ≠ read →
        held.isReal ∧ read.isReal :=
      fun slot held read at_slot => real (held, read) (slotAt_iff.2 ⟨slot, at_slot⟩)
    obtain ⟨first, at_first⟩ := slotAt_iff.1 member
    have slots : ∀ slot held' read', (node.restated (some held)).SlotAt classes slot held' read' ↔
        ∃ declared, node.SlotAt classes slot held' declared ∧
          ScalarClass.restated held declared = read' := by
      intro slot held' read'
      have lists : (node.restated (some held)).fragment.inputClasses =
          node.fragment.inputClasses.map (ScalarClass.restated held) :=
        KernelFragment.statesTheClass_classes realHeld .input
      constructor
      · rintro ⟨holds, reads⟩
        rw [lists, getElem?_map] at reads
        obtain ⟨declared, found, same⟩ := map_eq_some_iff.1 reads
        exact ⟨declared, ⟨holds, found⟩, same⟩
      · rintro ⟨declared, ⟨holds, found⟩, rfl⟩
        exact ⟨holds, by rw [lists, getElem?_map, found]; rfl⟩
    constructor
    · intro reads slot held' read' at_slot apart'
      obtain ⟨realHeld', realRead'⟩ := reals slot held' read' at_slot apart'
      have one : ∀ other held'' read'', node.SlotAt classes other held'' read'' →
          read''.isReal → held'' = held := by
        intro other held'' read'' at_other real''
        have declared := reads.slots other held'' _ ((slots _ _ _).2 ⟨read'', at_other, rfl⟩)
        rw [ScalarClass.restated_of_real real''] at declared
        exact declared.symm
      obtain rfl := one slot held' read' at_slot realRead'
      exact ⟨one, (KernelFragment.names_statesTheClass realHeld names).1 reads.names⟩
    · intro uniform
      obtain ⟨one, unmoved⟩ := uniform first held read at_first apart
      refine ⟨fun slot held' read' at_slot => ?_,
        (KernelFragment.names_statesTheClass realHeld names).2 unmoved⟩
      obtain ⟨declared, at_node, rfl⟩ := (slots _ _ _).1 at_slot
      by_cases realDeclared : declared.isReal
      · rw [ScalarClass.restated_of_real realDeclared, one slot held' declared at_node realDeclared]
      · rw [ScalarClass.restated_of_int realDeclared]
        by_contra apart'
        exact realDeclared (reals slot held' declared at_node (Ne.symm apart')).2

theorem held_append {more : ValueClasses} {value : ValueId} (inside : value < classes.length) :
    ValueClasses.held (classes ++ more) value = classes.held value := by
  rw [ValueClasses.held, getElem?_append_left inside]
  rfl

theorem readsAsWritten_append {more : ValueClasses} (reads : Graph.Reads classes.length node) :
    node.ReadsAsWritten (classes ++ more) ↔ node.ReadsAsWritten classes := by
  have slots : ∀ slot held read, node.SlotAt (classes ++ more) slot held read ↔
      node.SlotAt classes slot held read := by
    intro slot held read
    constructor <;> rintro ⟨⟨value, found, holds⟩, declared⟩ <;>
      refine ⟨⟨value, found, ?_⟩, declared⟩
    · rwa [held_append (reads value (mem_of_getElem? found))] at holds
    · rwa [held_append (reads value (mem_of_getElem? found))]
  constructor <;> rintro ⟨agree, names⟩ <;>
    refine ⟨fun slot held read at_slot => agree slot held read ?_, names⟩
  · exact (slots slot held read).2 at_slot
  · exact (slots slot held read).1 at_slot

@[simp] theorem restated_inputs : (node.restated stated).inputs = node.inputs := by
  cases stated <;> rfl

@[simp] theorem restated_outputs :
    (node.restated stated).fragment.outputs = node.fragment.outputs := by
  cases stated with
  | none => rfl
  | some stated => exact KernelFragment.statesTheClass_outputs

theorem restated_classes_length :
    (node.restated stated).fragment.outputClasses.length = node.fragment.outputClasses.length := by
  cases stated with
  | none => rfl
  | some stated =>
    show (node.fragment.statesTheClass stated).outputClasses.length = _
    unfold KernelFragment.statesTheClass
    split
    · exact length_map _
    · rfl

theorem fileClasses_known (known : ValueClasses) (filed : List ScalarClass) (rest : Nat) :
    fileClasses (known ++ List.replicate (filed.length + rest) none) known.length filed =
      known ++ filed.map some ++ List.replicate rest none := by
  induction filed generalizing known with
  | nil => simp [fileClasses]
  | cons stated filed ih =>
    have set : (known ++ List.replicate ((stated :: filed).length + rest) none).set known.length
        (some stated) = (known ++ [some stated]) ++ List.replicate (filed.length + rest) none := by
      have count : (stated :: filed).length + rest = (filed.length + rest) + 1 := by
        rw [length_cons]
        omega
      rw [count, replicate_succ, set_append_right _ _ (le_refl _), Nat.sub_self]
      simp
    have next : known.length + 1 = (known ++ [some stated]).length := by simp
    rw [fileClasses, set, next, ih]
    simp

end Nodes

section Walk

/-- The classes of the outputs of these nodes, as their fragments state them. -/
def producedClasses (nodes : List KernelNode) : ValueClasses :=
  nodes.flatMap fun node => node.fragment.outputClasses.map some

/-- The class of every value of the graph: its argument's, or the one its producer's fragment states. -/
def Graph.valueClasses (graph : Graph) (arguments : List RunArgument) : ValueClasses :=
  argumentClasses graph.inputs arguments ++ producedClasses graph.nodes

/-- Every value of the graph is read in the class it was written in. -/
def Graph.ReadsAsWritten (graph : Graph) (arguments : List RunArgument) : Prop :=
  ∀ node ∈ graph.nodes, node.ReadsAsWritten (graph.valueClasses arguments)

/-- Every node is uniform in the classes known when the walk comes to it. -/
def UniformRun : ValueClasses → Nat → List KernelNode → Prop
  | _, _, [] => True
  | classes, position, node :: nodes => node.Uniform classes ∧ ∀ stated,
      asked classes position node.fragment.inputClasses 0 node.inputs none = .ok stated →
        UniformRun (classes ++ (node.restated stated).fragment.outputClasses.map some)
          (position + 1) nodes

/-- The same graph, its nodes rebuilt each in its place. -/
structure Graph.Realigned (graph out : Graph) : Prop where
  nodes : List.Forall₂ KernelNode.Restates graph.nodes out.nodes
  inputs : out.inputs = graph.inputs
  values : out.values = graph.values
  returns : out.returns = graph.returns

def outputsOf (nodes : List KernelNode) : Nat := (nodes.map fun node => node.fragment.outputs).sum

/-- What the walk has when the classes of all values so far are known. -/
structure Aligning.Knows (state : Aligning) (known : ValueClasses) (rest : Nat) : Prop where
  classes : state.classes = known ++ List.replicate rest none
  next : state.next = known.length
  values : state.aligned.values = known.length

theorem alignNode_inv {position : Nat} {node : KernelNode} {state after : Aligning}
    (aligned : alignNode position node state = .ok after) : ∃ stated,
      asked state.classes position node.fragment.inputClasses 0 node.inputs none = .ok stated ∧
        Graph.Reads state.aligned.values node ∧
        after = { classes := fileClasses state.classes state.next
                    (node.restated stated).fragment.outputClasses
                  aligned := { state.aligned with
                    nodes := state.aligned.nodes ++ [node.restated stated]
                    values := state.aligned.values + node.fragment.outputs }
                  next := state.next + node.fragment.outputs } := by
  unfold alignNode at aligned
  split at aligned
  · cases aligned
  · rename_i stated answered
    dsimp only at aligned
    split at aligned
    · cases aligned
    · rename_i first pushed_graph pushed
      obtain ⟨-, reads, -, rfl⟩ := Graph.push_inv pushed
      cases aligned
      refine ⟨stated, answered, fun value member => reads value (by rwa [restated_inputs]), ?_⟩
      rw [restated_outputs]

theorem held_padded (known : ValueClasses) (rest : Nat) (value : ValueId) :
    ValueClasses.held (known ++ List.replicate rest none) value = known.held value := by
  by_cases inside : value < known.length
  · exact held_append inside
  · have absent : known[value]? = none := getElem?_eq_none (not_lt.1 inside)
    unfold ValueClasses.held
    rw [getElem?_append_right (not_lt.1 inside), absent, getElem?_replicate]
    split <;> rfl

theorem asked_congr {classes other : ValueClasses} (same : ∀ value, classes.held value = other.held value)
    (node : Nat) (declared : List ScalarClass) (slot : Nat) (values : List ValueId)
    (stated : Option ScalarClass) :
    asked classes node declared slot values stated = asked other node declared slot values stated := by
  induction values generalizing slot stated with
  | nil => rfl
  | cons value values ih =>
    simp only [asked, same, ih]

/-- The walk from a table of known classes on: it rebuilds every node, and reads them all as written
exactly when each is uniform as the walk comes to it. -/
theorem alignNodes_reads {nodes : List KernelNode} {position : Nat} {state after : Aligning}
    {known : ValueClasses} (fragments : ∀ node ∈ nodes, node.fragment.Stated)
    (knows : state.Knows known (outputsOf nodes))
    (walked : alignNodes position nodes state = .ok after) : ∃ done,
      List.Forall₂ KernelNode.Restates nodes done ∧
      after.aligned = { state.aligned with
        nodes := state.aligned.nodes ++ done
        values := state.aligned.values + outputsOf nodes } ∧
      ((∀ node ∈ done, node.ReadsAsWritten (known ++ producedClasses done)) ↔
        UniformRun known position nodes) := by
  induction nodes generalizing position state known with
  | nil =>
    cases walked
    refine ⟨[], .nil, by simp [outputsOf], ?_⟩
    simp [UniformRun]
  | cons node nodes ih =>
    have fragment := fragments node mem_cons_self
    unfold alignNodes at walked
    split at walked
    · cases walked
    rename_i middle stepped
    obtain ⟨stated, answered, reads, rfl⟩ := alignNode_inv stepped
    rw [knows.values] at reads
    have asks : asked known position node.fragment.inputClasses 0 node.inputs none = .ok stated := by
      rw [← answered, knows.classes]
      exact asked_congr (fun value => (held_padded known _ value).symm) _ _ _ _ _
    have produced : (node.restated stated).fragment.outputClasses.length = node.fragment.outputs :=
      restated_classes_length.trans fragment.outputs
    have total : outputsOf (node :: nodes) = node.fragment.outputs + outputsOf nodes := by
      simp [outputsOf]
    let known' := known ++ (node.restated stated).fragment.outputClasses.map some
    have knows' : Aligning.Knows
        { classes := fileClasses state.classes state.next (node.restated stated).fragment.outputClasses
          aligned := { state.aligned with
            nodes := state.aligned.nodes ++ [node.restated stated]
            values := state.aligned.values + node.fragment.outputs }
          next := state.next + node.fragment.outputs } known' (outputsOf nodes) := by
      have length : known'.length = known.length + node.fragment.outputs := by
        rw [length_append, length_map, produced]
      refine ⟨?_, by rw [length, ← knows.next], by rw [length, ← knows.values]⟩
      rw [knows.classes, knows.next, total, ← produced]
      exact fileClasses_known known _ _
    obtain ⟨done, restates, rebuilt, same⟩ :=
      ih (fun other member => fragments other (mem_cons_of_mem _ member)) knows' walked
    have classes : known ++ producedClasses (node.restated stated :: done) =
        known' ++ producedClasses done := by
      rw [producedClasses, flatMap_cons, ← append_assoc]
      rfl
    refine ⟨node.restated stated :: done, .cons ⟨stated, rfl⟩ restates, ?_, ?_⟩
    · rw [rebuilt, total]
      simp [add_assoc]
    · have first : (node.restated stated).ReadsAsWritten (known' ++ producedClasses done) ↔
          node.Uniform known := by
        have inside : Graph.Reads known.length (node.restated stated) := by
          rw [Graph.Reads, restated_inputs]
          exact reads
        rw [← classes, readsAsWritten_append inside]
        exact restated_reads fragment.names asks
      rw [classes, forall_mem_cons, first, same, UniformRun]
      refine and_congr_right fun _ => ⟨fun run stated' answered' => ?_, fun run => run stated asks⟩
      cases answered'.symm.trans asks
      exact run

/-- A graph that a run's arguments align has the nodes of the recorded one in their order, and reads
every value in the class it was written in exactly when each node's inputs are uniform as the walk comes
to it. -/
theorem aligned_reads_as_written {graph out : Graph} {arguments : List RunArgument}
    (formed : graph.Formed) (fragments : ∀ node ∈ graph.nodes, node.fragment.Stated)
    (answered : aligned graph arguments = .ok out) :
    graph.Realigned out ∧ (out.ReadsAsWritten arguments ↔
      UniformRun (argumentClasses graph.inputs arguments) 0 graph.nodes) := by
  have inputs : (argumentClasses graph.inputs arguments).length = graph.inputs := by
    simp [argumentClasses]
  have rest : graph.values - graph.inputs = outputsOf graph.nodes := by
    rw [formed.values, Nat.add_sub_cancel_left]
    rfl
  unfold aligned at answered
  dsimp only at answered
  split at answered
  · cases answered
  rename_i after walked
  rw [rest] at walked
  have knows : Aligning.Knows
      { classes := argumentClasses graph.inputs arguments ++ List.replicate (outputsOf graph.nodes) none
        aligned := Graph.withInputs graph.inputs, next := graph.inputs }
      (argumentClasses graph.inputs arguments) (outputsOf graph.nodes) :=
    ⟨rfl, inputs.symm, inputs.symm⟩
  obtain ⟨done, restates, rebuilt, same⟩ := alignNodes_reads fragments knows walked
  have values : after.aligned.values = graph.values := by
    rw [rebuilt, formed.values]
    rfl
  have nodes : after.aligned.nodes = done := by rw [rebuilt]; rfl
  have taken : after.aligned.inputs = graph.inputs := by rw [rebuilt]; rfl
  have unsaid : after.aligned.returns = none := by rw [rebuilt]; rfl
  have finish : ∀ out' : Graph, out'.nodes = done → out'.inputs = graph.inputs →
      out'.values = graph.values → out'.returns = graph.returns → graph.Realigned out' ∧
        (out'.ReadsAsWritten arguments ↔
          UniformRun (argumentClasses graph.inputs arguments) 0 graph.nodes) := by
    intro out' nodes' inputs' values' returns'
    refine ⟨⟨by rwa [nodes'], inputs', values', returns'⟩, ?_⟩
    rw [Graph.ReadsAsWritten, Graph.valueClasses, nodes', inputs', same]
  split at answered
  · rename_i unsaid'
    cases answered
    exact finish _ nodes taken values (unsaid.trans unsaid'.symm)
  · rename_i returned said
    split at answered
    · cases answered
    · rename_i out' recorded
      cases answered
      unfold Graph.returning at recorded
      rw [unsaid] at recorded
      dsimp only at recorded
      split at recorded
      · cases recorded
      · cases recorded
        exact finish _ nodes taken values said.symm

/-- A fragment that reads two float buffers, and adds what it reads to one, by a write or atomically. -/
def addingFragment (adds : KernelIr.KernelInstr) : KernelFragment where
  paramShape := .tuple [.scalar .int, .scalar .int]
  roles := {}
  body :=
    { values := [.instr (.const .int 0) [] [.int], .instr (.const .int 1) [] [.int],
        .instr (.bufferReadCall .float) [0, 0] [.float], .instr (.bufferReadCall .float) [1, 0] [.float],
        .instr (.bin .float .add) [2, 3] [.float], .instr adds [0, 0, 4] []]
      blocks := [{ params := [], instrs := [0, 1, 2, 3, 4, 5], terminator := .return [] }]
      entry := 0 }
  inputs := 2
  outputs := 1
  inputClasses := [.float, .float]
  outputClasses := [.float]
  resultClasses := []
  target := { intWidth := .i64, laneWidth := 64, laneHeight := 1 }

def addingGraph (adds : KernelIr.KernelInstr) : Graph where
  nodes := [{ fragment := addingFragment adds, inputs := [0, 1], count := .constant 4 }]
  inputs := 2
  values := 3
  returns := some [2]

/-- Two buffers that earlier runs left on the device. -/
def residents (first second : ScalarClass) : List RunArgument :=
  [.resident 7 4 first, .resident 8 4 second]

theorem addingGraph_formed (adds : KernelIr.KernelInstr) : (addingGraph adds).Formed := by
  refine ⟨rfl, ?_, ?_⟩
  · rintro (_ | index) node found
    · cases found
      intro value member
      simp only [mem_cons, not_mem_nil, or_false] at member
      rcases member with rfl | rfl
      · exact (by decide : 0 < 2)
      · exact (by decide : 1 < 2)
    · cases found
  · intro returned said value member
    cases said
    obtain rfl := mem_singleton.1 member
    exact (by decide : 2 < 3)

section

variable (adds : KernelIr.KernelInstr) (access : adds.access = some (.output, .float))

include adds access

theorem addingFragment_stated : (addingFragment adds).Stated := by
  refine ⟨rfl, fun op args classes member => ?_⟩
  simp only [addingFragment, mem_cons, not_mem_nil, or_false, KernelIr.ValueDef.instr.injEq]
    at member
  rcases member with ⟨rfl, rfl, rfl⟩ | ⟨rfl, rfl, rfl⟩ | ⟨rfl, rfl, rfl⟩ | ⟨rfl, rfl, rfl⟩ |
    ⟨rfl, rfl, rfl⟩ | ⟨rfl, rfl, rfl⟩ <;> intro side stated accesses position at_position declared lists
  · cases accesses
  · cases accesses
  · cases accesses
    cases at_position
    exact some.inj lists
  · cases accesses
    cases at_position
    exact some.inj lists
  · cases accesses
  · cases access.symm.trans accesses
    cases at_position
    exact some.inj lists

theorem addingGraph_stated : ∀ node ∈ (addingGraph adds).nodes, node.fragment.Stated := by
  intro node member
  obtain rfl := mem_singleton.1 member
  exact addingFragment_stated adds access

end

/-- Two halves run through a graph recorded over floats. -/
theorem aligned_reads_halves : ∃ out,
    aligned (addingGraph (.bufferWriteCall .float)) (residents .bFloat16 .bFloat16) = .ok out ∧
      out.ReadsAsWritten (residents .bFloat16 .bFloat16) := by
  refine ⟨_, rfl, (aligned_reads_as_written (addingGraph_formed _) (addingGraph_stated _ rfl) rfl).2.2
    ⟨fun slot held read at_slot apart => ?_, fun _ _ => trivial⟩⟩
  have halves : ∀ slot held read, KernelNode.SlotAt
      (argumentClasses 2 (residents .bFloat16 .bFloat16))
      { fragment := addingFragment (.bufferWriteCall .float), inputs := [0, 1], count := .constant 4 }
      slot held read → held = .bFloat16 := by
    rintro (_ | _ | slot) held read ⟨⟨value, found, holds⟩, -⟩
    · cases found
      exact (some.inj holds).symm
    · cases found
      exact (some.inj holds).symm
    · cases found
  obtain rfl := halves slot held read at_slot
  refine ⟨fun other held' read' at_other _ => halves other held' read' at_other, ?_⟩
  intro op args classes member still
  simp only [addingFragment, mem_cons, not_mem_nil, or_false, KernelIr.ValueDef.instr.injEq]
    at member
  rcases member with ⟨rfl, -⟩ | ⟨rfl, -⟩ | ⟨rfl, -⟩ | ⟨rfl, -⟩ | ⟨rfl, -⟩ | ⟨rfl, -⟩ <;>
    intro side held accesses <;>
    first | exact absurd still (by decide) | cases accesses

/-- A half beside a float is aligned to a graph that reads the float as a half; and a half added
atomically, to a graph that adds it as a float to a buffer of halves. -/
theorem mixed_inputs_misread :
    (∃ out, aligned (addingGraph (.bufferWriteCall .float)) (residents .bFloat16 .float) = .ok out ∧
      ¬ out.ReadsAsWritten (residents .bFloat16 .float)) ∧
    ∃ out, aligned (addingGraph (.bufferAtomicAddCall .float)) (residents .bFloat16 .bFloat16) = .ok out ∧
      ¬ out.ReadsAsWritten (residents .bFloat16 .bFloat16) := by
  refine ⟨⟨_, rfl, fun reads => ?_⟩, ⟨_, rfl, fun reads => ?_⟩⟩
  · have misread := (reads _ mem_cons_self).slots 1 .float .bFloat16 ⟨⟨1, rfl, rfl⟩, rfl⟩
    cases misread
  · have misnamed := (reads _ mem_cons_self).names (.bufferAtomicAddCall .float) [0, 0, 4] []
      (by simp [addingFragment, KernelNode.restated, KernelFragment.statesTheClass,
        ScalarClass.isReal, KernelIr.ValueDef.statesTheClass, KernelIr.KernelInstr.statesTheClass])
      .output .float rfl 0 rfl .bFloat16 rfl
    cases misnamed

end Walk

end GraphIr

end LichenVm
