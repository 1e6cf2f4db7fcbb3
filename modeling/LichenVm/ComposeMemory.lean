import LichenVm.ComposeRun
import LichenVm.DeadValues

open List Option

namespace LichenVm.KernelIr

open KernelBody KernelFragment

/-- The memory an access names. -/
inductive Memory where
  | input (ordinal : Nat)
  | output (ordinal : Nat)
  | slice (ordinal : Nat)
  deriving DecidableEq

/-- The memory an instruction accesses at an ordinal. -/
def KernelInstr.memory : KernelInstr → Nat → Option Memory
  | .bufferReadCall _, ordinal => some (.input ordinal)
  | .outputReadCall _, ordinal | .bufferWriteCall _, ordinal
  | .bufferAtomicAddCall _, ordinal => some (.output ordinal)
  | .sliceWriteCall _, ordinal | .sliceReadCall _, ordinal => some (.slice ordinal)
  | _, _ => none

def KernelBody.memoryOf (body : KernelBody) (value : ValueId) : Option Memory :=
  match body.values[value]? with
  | some (.instr op _ _) => (body.ordinal value).bind op.memory
  | _ => none

variable {value : ValueId} {op : KernelInstr}

theorem memoryOf_of_names {body : KernelBody} {ordinal : Nat}
    (names : Names body.values value op ordinal) : body.memoryOf value = op.memory ordinal := by
  have held : body.ordinal value = some ordinal := (ordinal_eq_some_iff _ _ _).2 ⟨op, names⟩
  obtain ⟨args, classes, -, -, -, -, found, -⟩ := names
  rw [memoryOf, found]
  dsimp only
  rw [held, bind_some]

namespace KernelFragment

/-- A listed instruction of a fragment that accesses memory at a constant ordinal. A slice it
names is one the fragment declares. -/
structure Accesses (fragment : KernelFragment) (value : ValueId) (op : KernelInstr)
    (ordinal : Nat) (memory : Memory) : Prop where
  listed : value ∈ fragment.body.listed
  names : Names fragment.body.values value op ordinal
  accessed : op.memory ordinal = some memory
  slice : ∀ slice, memory = .slice slice → slice < fragment.slices.length

/-- What the producer's memory is in the merged fragment. Its outputs are there when its store
is. -/
def memoryThere (producer : KernelFragment) : Memory → Option Memory
  | .output ordinal => if producer.storeKept.isSome then some (.output ordinal) else none
  | memory => some memory

end KernelFragment

section Layout

variable (producer : KernelFragment) (consumers : List (KernelFragment × Nat)) (index : Nat)

/-- The inputs the merged fragment declares before a consumer's. -/
def inputsBefore : Nat :=
  producer.inputs + ((consumers.take index).map fun consumer => consumer.1.inputs - 1).sum

/-- The outputs kept before a consumer's. -/
def outputsBefore : Nat :=
  (if producer.storeKept.isSome then producer.outputs else 0) +
    ((consumers.take index).map fun consumer => consumer.1.outputs).sum

/-- Whether a body before a consumer declares slices: the merged fragment's are then not the
consumer's. -/
def slicesBefore : Bool :=
  !producer.slices.isEmpty || (consumers.take index).any fun consumer => !consumer.1.slices.isEmpty

/-- What a consumer's memory is in the merged fragment: the survivors of its inputs follow those
before, its outputs follow those kept, and the absorbed input is the output the producer's store
fills. -/
def consumerMemoryThere (absorbed : Nat) : Memory → Option Memory
  | .input ordinal =>
    if ordinal = absorbed then producer.storeKept.map .output
    else some (.input (inputsBefore producer consumers index + ordinal -
      if absorbed < ordinal then 1 else 0))
  | .output ordinal => some (.output (outputsBefore producer consumers index + ordinal))
  | .slice ordinal =>
    if slicesBefore producer consumers index then none else some (.slice ordinal)

/-- When the merge carries a consumer's access to where its memory went. A position is an ordinal
of 32 bits on the way in and a signed constant of 64 on the way out. Only a buffer read and a
buffer write are ever moved. -/
def Follows (absorbed : Nat) : KernelInstr → Nat → Prop
  | .bufferReadCall _, ordinal => ordinal = absorbed ∨ (ordinal < 2 ^ 32 ∧
      inputsBefore producer consumers index + ordinal - (if absorbed < ordinal then 1 else 0) <
        2 ^ 63)
  | .bufferWriteCall _, ordinal => outputsBefore producer consumers index = 0 ∨
      outputsBefore producer consumers index + ordinal < 2 ^ 63
  | .bufferAtomicAddCall _, _ | .outputReadCall _, _ =>
    outputsBefore producer consumers index = 0
  | .sliceWriteCall _, _ | .sliceReadCall _, _ => slicesBefore producer consumers index = false
  | _, _ => True

end Layout

/-- When the merge leaves a producer's access on memory that is still there. -/
def KernelFragment.FollowsOwn (producer : KernelFragment) : KernelInstr → Prop
  | .bufferAtomicAddCall _ | .outputReadCall _ => producer.storeKept.isSome
  | _ => True

/-- Every access by an instruction of `kind` follows its memory. -/
structure AccessesFollow (producer : KernelFragment) (consumers : List (KernelFragment × Nat))
    (kind : KernelInstr → Prop) : Prop where
  own : ∀ value op ordinal memory, producer.Accesses value op ordinal memory → kind op →
    producer.FollowsOwn op
  consumer : ∀ index consumer absorbed, consumers[index]? = some (consumer, absorbed) →
    ∀ value op ordinal memory, consumer.Accesses value op ordinal memory → kind op →
      Follows producer consumers index absorbed op ordinal

/-- Where a value survived, it accesses the memory expected of it. -/
def Composed.NamesThere (composed : Composed) (value : ValueId) (expected : Option Memory) :
    Prop :=
  ∀ survivor, composed.survives value = some survivor →
    ∃ memory, expected = some memory ∧ composed.fragment.body.memoryOf survivor = some memory

/-- Every access that came from a body names the memory it named before. The producer's are where
they were, but for a store the copies answer, and again at each copy of its cone. A consumer's are
where they landed, but for the reads the copies answer. -/
structure KeepsMemory (producer : KernelFragment) (consumers : List (KernelFragment × Nat))
    (composed : Composed) : Prop where
  own : ∀ value op ordinal memory, producer.Accesses value op ordinal memory →
    (composed.stagedOrdinal.isSome ∨ value ≠ composed.write) →
    composed.NamesThere value (producer.memoryThere memory)
  copies : ∀ value op ordinal memory, producer.Accesses value op ordinal memory →
    (composed.stagedOrdinal.isSome ∨ value ≠ composed.write) →
    ∀ landing ∈ composed.landings, ∀ copy, (value, copy) ∈ landing.copies →
      composed.NamesThere copy (producer.memoryThere memory)
  consumer : ∀ index consumer absorbed, consumers[index]? = some (consumer, absorbed) →
    ∀ value op ordinal memory, consumer.Accesses value op ordinal memory →
      (composed.stagedOrdinal.isSome ∨ memory ≠ .input absorbed) →
      ∃ landing target, composed.landings[index]? = some landing ∧
        landing.landed value = some target ∧ composed.NamesThere target
          (consumerMemoryThere producer consumers index absorbed memory)

/-- Every access that does not follow its memory is dropped as dead, at each place it went. -/
structure StraysDropped (producer : KernelFragment) (consumers : List (KernelFragment × Nat))
    (composed : Composed) : Prop where
  own : ∀ value op ordinal memory, producer.Accesses value op ordinal memory →
    (composed.stagedOrdinal.isSome ∨ value ≠ composed.write) → ¬ producer.FollowsOwn op →
    composed.survives value = none
  copies : ∀ value op ordinal memory, producer.Accesses value op ordinal memory →
    (composed.stagedOrdinal.isSome ∨ value ≠ composed.write) → ¬ producer.FollowsOwn op →
    ∀ landing ∈ composed.landings, ∀ copy, (value, copy) ∈ landing.copies →
      composed.survives copy = none
  consumer : ∀ index consumer absorbed, consumers[index]? = some (consumer, absorbed) →
    ∀ value op ordinal memory, consumer.Accesses value op ordinal memory →
      (composed.stagedOrdinal.isSome ∨ memory ≠ .input absorbed) →
      ¬ Follows producer consumers index absorbed op ordinal →
      ∃ landing target, composed.landings[index]? = some landing ∧
        landing.landed value = some target ∧ composed.survives target = none

/-- What a merge that passes its gates was built from. -/
structure Built (plan : MergePlan) (edges : List Edge) (composed : Composed) (exact : Bool)
    (final : Merge) : Prop where
  ran : plan.joinAll (plan.start exact) edges.zipIdx = .ok (final, composed.landings)
  body : composed.fragment.body = (final.body.compact final.marks).1
  slices : composed.fragment.slices = final.slices
  outputs : composed.fragment.outputs = final.outputs
  write : composed.write = plan.write
  staged : composed.stagedOrdinal = plan.stagedOrdinal
  survives : ∀ value, composed.survives value =
    if value < final.body.values.length ∧ final.body.live final.marks value then
      some (survivor (final.body.live final.marks) value) else none

theorem build_built {plan : MergePlan} {edges : List Edge} {composed : Composed}
    (ran : plan.build edges = .ok composed) :
    ∃ exact final, Built plan edges composed exact final := by
  obtain ⟨⟨final, landings⟩, joined, ran⟩ := Traverse.bind_ok.1 ran
  obtain ⟨_, -, ran⟩ := Traverse.bind_ok.1 ran
  split at ran
  · cases ran
  · cases ran
    exact ⟨_, final, joined, rfl, rfl, rfl, rfl, rfl, fun _ => rfl⟩

section Survivors

variable {plan : MergePlan} {edges : List Edge} {composed : Composed} {exact : Bool}
  {final : Merge} (built : Built plan edges composed exact final)
  (received : ParamsReceived final.body.blocks final.body.values)

include built received in
theorem survivor_memory {value survivor : ValueId} {op : KernelInstr} {ordinal : Nat}
    (names : Names final.body.values value op ordinal)
    (survived : composed.survives value = some survivor) :
    composed.fragment.body.memoryOf survivor = op.memory ordinal := by
  rw [built.survives] at survived
  split at survived
  · rename_i held
    cases survived
    rw [built.body]
    exact memoryOf_of_names (compact_names received names held.2)
  · cases survived

include built in
theorem survives_of_leavesNothing {value : ValueId} (listed : value ∈ final.body.listed)
    (nothing : final.body.leavesNothing value) :
    ∃ survivor, composed.survives value = some survivor := by
  obtain ⟨op, args, found⟩ := leavesNothing_iff.1 nothing
  refine ⟨_, (built.survives value).trans (if_pos ⟨?_, ?_⟩)⟩
  · exact (List.getElem?_eq_some_iff.1 found).1
  · exact live_of_leavesNothing listed nothing

end Survivors

section Layouts

variable {producer : KernelFragment} {consumers : List (KernelFragment × Nat)} {plan : MergePlan}
  {edges : List Edge} {composed : Composed} {exact : Bool} {final : Merge}

section

variable (planned : Planned producer consumers plan edges)

include planned

theorem Planned.consumers_eq :
    edges.map (fun edge => (edge.fragment, edge.absorbed)) = consumers := by
  apply ext_getElem?
  intro index
  rw [getElem?_map]
  cases held : edges[index]? with
  | some edge => exact (planned.edge index edge held).1.symm
  | none =>
    rw [List.getElem?_eq_none_iff, planned.count] at held
    exact (getElem?_eq_none held).symm

theorem Planned.edge_of {index absorbed : Nat} {consumer : KernelFragment}
    (found : consumers[index]? = some (consumer, absorbed)) :
    ∃ edge, edges[index]? = some edge ∧ (edge.fragment, edge.absorbed) = (consumer, absorbed) := by
  rw [← planned.consumers_eq, getElem?_map, map_eq_some_iff] at found
  exact found

theorem Planned.fits {staged : Nat} (kept : plan.stagedOrdinal = some staged) :
    staged < 2 ^ 64 := by
  rw [planned.staged] at kept
  unfold storeKept at kept
  split at kept
  · split at kept
    · split at kept
      · cases kept
      · split at kept
        · cases kept
        · obtain ⟨id, bits, args, classes, -, -, rfl⟩ := (constant_eq_some_iff _ _ _).1 kept
          exact bits.isLt
    · cases kept
  · cases kept

end

/-- The whole run: what the final body keeps of the producer's start, and how each consumer
stands in it. -/
theorem Built.run (built : Built plan edges composed exact final)
    (planned : Planned producer consumers plan edges)
    (numbered : ∀ consumer ∈ consumers, consumer.1.body.Numbered) :
    Extends (plan.start exact).body final.body ∧
    final.outputs = outputsBefore producer consumers consumers.length ∧
    final.slices = MergePlan.declared producer.slices edges ∧
    composed.landings.length = edges.length ∧
    ∀ (index : Nat) (edge : Edge), edges[index]? = some edge →
      ∃ landing before after, composed.landings[index]? = some landing ∧
        plan.Joined before edge after landing ∧ Extends after.body final.body ∧
        before.union = inputsBefore producer consumers index ∧
        before.outputs = outputsBefore producer consumers index := by
  have own := planned.own
  have faithful : plan.cone.Faithful plan.producer.body := own ▸ planned.faithful
  have sound : ∀ pair ∈ edges.zipIdx, pair.1.Sound ∧ pair.1.fragment.body.Numbered := by
    intro pair member
    have inside : (pair.1.fragment, pair.1.absorbed) ∈ consumers := by
      rw [← planned.consumers_eq]
      exact List.mem_map.2 ⟨pair.1, fst_mem_of_mem_zipIdx member, rfl⟩
    obtain ⟨index, held⟩ := mem_iff_getElem?.1 (fst_mem_of_mem_zipIdx member)
    exact ⟨(planned.edge index _ held).2.1, numbered _ inside⟩
  obtain ⟨grows, outputs, slices, count, each⟩ := MergePlan.joinAll_stands faithful
    (fun _ => planned.fits) sound (plan.start_holds exact)
    (by rw [plan.start_blocks, own]; exact planned.landing) built.ran
  have inputs : (plan.start exact).union = producer.inputs := by rw [← own]; rfl
  have kept : (plan.start exact).outputs =
      if producer.storeKept.isSome then producer.outputs else 0 := by
    rw [← planned.staged, ← own]
    rfl
  refine ⟨grows, ?_, ?_, by rw [count, length_zipIdx], ?_⟩
  · rw [outputs, kept, outputsBefore, take_length, ← planned.consumers_eq,
      zipIdx_map_fst, List.map_map]
    rfl
  · rw [slices, zipIdx_map_fst, ← own]
    rfl
  · intro index edge held
    obtain ⟨landing, given, before, after, joined, last, union, outputs⟩ :=
      each index edge index (by simp [held])
    refine ⟨landing, before, after, given, joined, last, ?_, ?_⟩
    · rw [union, inputs, inputsBefore, ← planned.consumers_eq, map_take, zipIdx_map_fst,
        ← map_take, List.map_map]
      rfl
    · rw [outputs, kept, outputsBefore, ← planned.consumers_eq, map_take, zipIdx_map_fst,
        ← map_take, List.map_map]
      rfl

end Layouts

section Renamed

variable {producer : KernelFragment} {consumers : List (KernelFragment × Nat)} {index : Nat}
  {plan : MergePlan} {edge : Edge} {merge : Merge}
  (staged : plan.stagedOrdinal = producer.storeKept)
  (union : merge.union = inputsBefore producer consumers index)
  (outputs : merge.outputs = outputsBefore producer consumers index)
  {op : KernelInstr} {ordinal : Nat} {memory : Memory}

include staged union outputs in
/-- A landed access is renamed to where its memory went exactly when it follows. -/
theorem renamed_there_iff (accessed : op.memory ordinal = some memory)
    (here : plan.stagedOrdinal.isSome ∨ memory ≠ .input edge.absorbed)
    (absorbed : edge.absorbed < 2 ^ 32) (named : ordinal < 2 ^ 64) :
    ∃ moved, (plan.renamed edge merge op ordinal).1.memory (plan.renamed edge merge op ordinal).2 =
        some moved ∧
      (consumerMemoryThere producer consumers index edge.absorbed memory = some moved ↔
        Follows producer consumers index edge.absorbed op ordinal) := by
  cases op with
  | bufferReadCall stated =>
    cases accessed
    by_cases same : ordinal = edge.absorbed
    · subst same
      have kept : plan.stagedOrdinal.isSome := here.resolve_right fun apart => apart rfl
      obtain ⟨output, kept⟩ := isSome_iff_exists.1 kept
      rw [MergePlan.renamed, if_pos (Nat.mod_eq_of_lt absorbed)]
      refine ⟨.output output, by rw [kept]; rfl, ?_⟩
      simp [consumerMemoryThere, ← staged, kept, Follows]
    · rw [MergePlan.renamed]
      simp only [consumerMemoryThere, if_neg same, Follows]
      split
      · refine ⟨.output _, rfl, ?_⟩
        simp only [some.injEq, reduceCtorEq, false_iff]
        omega
      · refine ⟨.input _, rfl, ?_⟩
        simp only [some.injEq, Memory.input.injEq, union, clamped]
        split
        · split
          · omega
          · omega
        · split
          · omega
          · omega
  | bufferWriteCall stated =>
    cases accessed
    refine ⟨.output _, rfl, ?_⟩
    simp only [MergePlan.renamed, consumerMemoryThere, outputs, clamped, Follows,
      some.injEq, Memory.output.injEq]
    split
    · omega
    · omega
  | bufferAtomicAddCall stated | outputReadCall stated =>
    cases accessed
    refine ⟨.output ordinal, rfl, ?_⟩
    simp [consumerMemoryThere, Follows]
  | sliceWriteCall stated | sliceReadCall stated =>
    cases accessed
    refine ⟨.slice ordinal, rfl, ?_⟩
    simp [consumerMemoryThere, Follows]
  | _ => cases accessed

end Renamed

theorem Names.lt {values : List ValueDef} {ordinal : Nat} (names : Names values value op ordinal) :
    ordinal < 2 ^ 64 := by
  obtain ⟨-, -, -, bits, -, -, -, -, -, rfl⟩ := names
  exact bits.isLt

theorem KernelFragment.Accesses.leavesNothing {fragment : KernelFragment} {ordinal : Nat}
    {memory : Memory} (access : fragment.Accesses value op ordinal memory)
    (gate : fragment.body.validate = .ok ()) (nothing : op.produces = 0) :
    fragment.body.leavesNothing value := by
  obtain ⟨op', args, classes, placed⟩ := placed_of_validate gate access.listed
  obtain ⟨args', classes', -, -, -, -, found, -⟩ := access.names
  have same := placed.found
  rw [found] at same
  cases same
  rw [leavesNothing_iff]
  refine ⟨op, args, ?_⟩
  rw [found, eq_nil_of_length_eq_zero (placed.results.trans nothing)]

section Merged

variable {producer : KernelFragment} {consumers : List (KernelFragment × Nat)} {plan : MergePlan}
  {edges : List Edge} {composed : Composed} {exact : Bool} {final : Merge}
  (planned : Planned producer consumers plan edges)
  (built : Built plan edges composed exact final)
  (numbered : producer.body.Numbered)
  (numberedConsumers : ∀ consumer ∈ consumers, consumer.1.body.Numbered)

include planned built numbered numberedConsumers in
theorem merged_received : ParamsReceived final.body.blocks final.body.values :=
  (built.run planned numberedConsumers).1.received
    (plan.start_received exact (planned.own ▸ numbered))

variable {op : KernelInstr} {ordinal : Nat} {value : ValueId}

include planned built numberedConsumers in
theorem own_names (names : Names producer.body.values value op ordinal) :
    Names final.body.values value op ordinal :=
  ((plan.start_holds exact).names (planned.own ▸ names)).mono
    (built.run planned numberedConsumers).1.grows

variable {memory : Memory}

include planned built in
/-- A producer's access that is not a dropped store is on memory that is there exactly when it
follows. -/
theorem own_there_iff (access : producer.Accesses value op ordinal memory)
    (kept : composed.stagedOrdinal.isSome ∨ value ≠ composed.write) :
    producer.memoryThere memory = some memory ↔ producer.FollowsOwn op := by
  rw [built.staged, built.write, planned.staged] at kept
  have accessed := access.accessed
  cases op with
  | bufferWriteCall stated =>
    cases accessed
    obtain ⟨args, classes, -, -, -, -, found, -⟩ := access.names
    have site : value ∈ producer.body.writeSites :=
      mem_filter.2 ⟨access.listed, isBufferWrite_iff.2 ⟨stated, args, classes, found⟩⟩
    rw [planned.store, mem_singleton] at site
    have there : producer.storeKept.isSome := kept.resolve_right fun apart => apart site
    simp [memoryThere, KernelFragment.FollowsOwn, there]
  | bufferAtomicAddCall stated | outputReadCall stated =>
    cases accessed
    simp [memoryThere, KernelFragment.FollowsOwn, isSome_iff_ne_none]
  | bufferReadCall stated | sliceWriteCall stated | sliceReadCall stated =>
    cases accessed
    simp [memoryThere, KernelFragment.FollowsOwn]
  | _ => cases accessed

include planned built numbered numberedConsumers in
theorem namesThere_iff {expected : Option Memory}
    (names : Names final.body.values value op ordinal)
    (accessed : op.memory ordinal = some memory) :
    composed.NamesThere value expected ↔
      composed.survives value = none ∨ expected = some memory := by
  have received := merged_received planned built numbered numberedConsumers
  constructor
  · intro there
    cases survived : composed.survives value with
    | none => exact .inl rfl
    | some survivor =>
      obtain ⟨other, same, named⟩ := there survivor survived
      rw [survivor_memory built received names survived, accessed] at named
      exact .inr (same.trans named.symm)
  · rintro (dropped | same) survivor survived
    · rw [dropped] at survived
      cases survived
    · exact ⟨memory, same, (survivor_memory built received names survived).trans accessed⟩

include planned built numberedConsumers in
theorem copy_names {value copy : ValueId}
    (names : Names producer.body.values value op ordinal) {landing : Landing}
    (member : landing ∈ composed.landings) (copied : (value, copy) ∈ landing.copies) :
    Names final.body.values copy op ordinal := by
  obtain ⟨-, -, -, count, each⟩ := built.run planned numberedConsumers
  obtain ⟨index, held⟩ := mem_iff_getElem?.1 member
  have within : index < edges.length := count ▸ (List.getElem?_eq_some_iff.1 held).1
  obtain ⟨landing', before, after, held', joined, last, -⟩ :=
    each index _ (getElem?_eq_getElem within)
  rw [held] at held'
  cases held'
  exact (joined.copies value copy copied op ordinal (planned.own ▸ names)).mono last.grows

include planned built numberedConsumers in
theorem consumer_lands {index absorbed : Nat} {consumer : KernelFragment}
    (found : consumers[index]? = some (consumer, absorbed))
    (access : consumer.Accesses value op ordinal memory)
    (here : composed.stagedOrdinal.isSome ∨ memory ≠ .input absorbed) :
    ∃ landing, composed.landings[index]? = some landing ∧
      (Follows producer consumers index absorbed op ordinal → (landing.landed value).isSome) ∧
      ∀ target, landing.landed value = some target → ∃ op' ordinal' moved,
        Names final.body.values target op' ordinal' ∧ op'.memory ordinal' = some moved ∧
        (consumerMemoryThere producer consumers index absorbed memory = some moved ↔
          Follows producer consumers index absorbed op ordinal) := by
  obtain ⟨-, -, -, -, each⟩ := built.run planned numberedConsumers
  obtain ⟨edge, held, same⟩ := planned.edge_of found
  cases same
  obtain ⟨landing, before, after, given, joined, last, union, outputs⟩ := each index edge held
  obtain ⟨-, sound, small, -⟩ := planned.edge index edge held
  rw [built.staged] at here
  refine ⟨landing, given, fun follows => ?_, fun target landed => ?_⟩
  · obtain ⟨args, classes, -, -, -, -, defined, -⟩ := access.names
    refine isSome_iff_exists.2
      (joined.lands value op args classes defined (here.imp_right fun apart absorbed => ?_))
    -- An absorbed read that follows reads the absorbed input.
    obtain ⟨-, read, ordinal', held', same⟩ :=
      (mem_bufferReads sound.reads _ _).1 ((sound.mem_absorbed value).1 absorbed)
    obtain ⟨stated, args', classes', defined'⟩ := isBufferRead_iff.1 read
    rw [defined] at defined'
    cases defined'
    rw [(ordinal_eq_some_iff _ _ _).2 ⟨_, access.names⟩] at held'
    cases held'
    have accessed := access.accessed
    cases accessed
    rcases follows with same' | ⟨fits, -⟩
    · exact apart (congrArg Memory.input same')
    · rw [Nat.mod_eq_of_lt fits] at same
      exact apart (congrArg Memory.input same.symm)
  · obtain ⟨moved, accessed, there⟩ := renamed_there_iff planned.staged union outputs
      access.accessed here small access.names.lt
    exact ⟨_, _, moved, (joined.access value target op ordinal access.listed access.names
      landed).mono last.grows, accessed, there⟩

include planned built numbered numberedConsumers in
/-- Every access names the memory it named exactly when the dead-value pass dropped every one that
does not follow it. -/
theorem keepsMemory_iff :
    KeepsMemory producer consumers composed ↔ StraysDropped producer consumers composed := by
  have own : ∀ {value : ValueId} {op : KernelInstr} {ordinal : Nat} {memory : Memory},
      producer.Accesses value op ordinal memory →
      (composed.stagedOrdinal.isSome ∨ value ≠ composed.write) →
      ∀ {image : ValueId}, Names final.body.values image op ordinal →
      (composed.NamesThere image (producer.memoryThere memory) ↔
        (¬ producer.FollowsOwn op → composed.survives image = none)) := by
    intro value op ordinal memory access kept image names
    rw [namesThere_iff planned built numbered numberedConsumers names access.accessed,
      own_there_iff planned built access kept, or_iff_not_imp_right]
  constructor
  · intro keeps
    constructor
    · intro value op ordinal memory access kept
      exact (own access kept (own_names planned built numberedConsumers access.names)).1
        (keeps.own value op ordinal memory access kept)
    · intro value op ordinal memory access kept stray landing member copy copied
      exact (own access kept
        (copy_names planned built numberedConsumers access.names member copied)).1
        (keeps.copies value op ordinal memory access kept landing member copy copied) stray
    · intro index consumer absorbed found value op ordinal memory access here stray
      obtain ⟨landing, target, given, landed, there⟩ :=
        keeps.consumer index consumer absorbed found value op ordinal memory access here
      obtain ⟨landing', given', -, lands⟩ :=
        consumer_lands planned built numberedConsumers found access here
      rw [given] at given'
      cases given'
      obtain ⟨op', ordinal', moved, names, accessed, follows⟩ := lands target landed
      rw [namesThere_iff planned built numbered numberedConsumers names accessed, follows] at there
      exact ⟨landing, target, given, landed, there.resolve_right stray⟩
  · intro dropped
    constructor
    · intro value op ordinal memory access kept
      exact (own access kept (own_names planned built numberedConsumers access.names)).2
        (dropped.own value op ordinal memory access kept)
    · intro value op ordinal memory access kept landing member copy copied
      exact (own access kept
        (copy_names planned built numberedConsumers access.names member copied)).2
        fun stray =>
          dropped.copies value op ordinal memory access kept stray landing member copy copied
    · intro index consumer absorbed found value op ordinal memory access here
      obtain ⟨landing, given, stays, lands⟩ :=
        consumer_lands planned built numberedConsumers found access here
      by_cases follow : Follows producer consumers index absorbed op ordinal
      · obtain ⟨target, landed⟩ := isSome_iff_exists.1 (stays follow)
        obtain ⟨op', ordinal', moved, names, accessed, follows⟩ := lands target landed
        refine ⟨landing, target, given, landed, ?_⟩
        rw [namesThere_iff planned built numbered numberedConsumers names accessed, follows]
        exact .inr follow
      · obtain ⟨landing', target, given', landed, gone⟩ := dropped.consumer index consumer absorbed
          found value op ordinal memory access here follow
        refine ⟨landing', target, given', landed, fun survivor survived => ?_⟩
        rw [gone] at survived
        cases survived

include planned built numberedConsumers in
theorem effect_survives {index absorbed : Nat} {consumer : KernelFragment}
    (found : consumers[index]? = some (consumer, absorbed))
    (access : consumer.Accesses value op ordinal memory) (nothing : op.produces = 0)
    {landing : Landing} {target : ValueId} (given : composed.landings[index]? = some landing)
    (landed : landing.landed value = some target) : composed.survives target ≠ none := by
  obtain ⟨-, -, -, -, each⟩ := built.run planned numberedConsumers
  obtain ⟨edge, held, same⟩ := planned.edge_of found
  cases same
  obtain ⟨landing', before, after, given', joined, last, -⟩ := each index edge held
  rw [given] at given'
  cases given'
  obtain ⟨-, sound, -⟩ := planned.edge index edge held
  obtain ⟨target', landed', listed, left⟩ :=
    joined.effect value access.listed (access.leavesNothing sound.gate nothing)
  rw [landed] at landed'
  cases landed'
  obtain ⟨survivor, survived⟩ := survives_of_leavesNothing built (last.lists target listed)
    (leavesNothing_grows last.grows left)
  rw [survived]
  exact some_ne_none survivor

include planned built numberedConsumers in
theorem own_effect_survives (access : producer.Accesses value op ordinal memory)
    (nothing : op.produces = 0) (kept : composed.stagedOrdinal.isSome ∨ value ≠ composed.write) :
    composed.survives value ≠ none := by
  obtain ⟨grows, -⟩ := built.run planned numberedConsumers
  rw [built.staged, built.write] at kept
  have listed := grows.lists value (plan.start_lists exact (planned.own ▸ access.listed) kept)
  have left : final.body.leavesNothing value := by
    obtain ⟨op, args, found⟩ := leavesNothing_iff.1 (access.leavesNothing planned.gate nothing)
    exact leavesNothing_iff.2 ⟨op, args, getElem?_of_grows grows.grows
      (plan.start_holds exact value op args [] (planned.own ▸ found))⟩
  obtain ⟨survivor, survived⟩ := survives_of_leavesNothing built listed left
  rw [survived]
  exact some_ne_none survivor

include planned built numberedConsumers in
/-- Where only dropped accesses stray, every access that leaves nothing follows. -/
theorem follows_of_straysDropped (dropped : StraysDropped producer consumers composed) :
    AccessesFollow producer consumers fun op => op.produces = 0 := by
  constructor
  · intro value op ordinal memory access nothing
    by_contra stray
    have kept : composed.stagedOrdinal.isSome ∨ value ≠ composed.write := by
      by_contra store
      rw [not_or, not_not, built.write] at store
      obtain ⟨-, rfl⟩ := store
      have site : plan.write ∈ producer.body.writeSites := by
        rw [planned.store]
        exact mem_singleton_self _
      obtain ⟨stated, args, classes, found⟩ := isBufferWrite_iff.1 (mem_filter.1 site).2
      obtain ⟨args', classes', -, -, -, -, found', -⟩ := access.names
      rw [found] at found'
      cases found'
      exact stray trivial
    exact own_effect_survives planned built numberedConsumers access nothing kept
      (dropped.own value op ordinal memory access kept stray)
  · intro index consumer absorbed found value op ordinal memory access nothing
    by_contra stray
    have output : memory ≠ .input absorbed := by
      rintro rfl
      have accessed := access.accessed
      cases op with
      | bufferReadCall stated => cases nothing
      | _ => cases accessed
    obtain ⟨landing, target, given, landed, gone⟩ :=
      dropped.consumer index consumer absorbed found value op ordinal memory access (.inr output)
        stray
    exact effect_survives planned built numberedConsumers found access nothing given landed gone

theorem straysDropped_of_follows (follows : AccessesFollow producer consumers fun _ => True) :
    StraysDropped producer consumers composed :=
  ⟨fun value op ordinal memory access _ stray =>
      absurd (follows.own value op ordinal memory access trivial) stray,
    fun value op ordinal memory access _ stray =>
      absurd (follows.own value op ordinal memory access trivial) stray,
    fun index consumer absorbed found value op ordinal memory access _ stray =>
      absurd (follows.consumer index consumer absorbed found value op ordinal memory access
        trivial) stray⟩

end Merged

theorem built_of_composeFanOut {producer : KernelFragment}
    {consumers : List (KernelFragment × Nat)} {fragment : KernelFragment}
    (ran : composeFanOut producer consumers = .ok fragment) :
    ∃ composed, composeFanOutTraced producer consumers = .ok composed ∧
      composed.fragment = fragment ∧ ∃ plan edges exact final,
        Planned producer consumers plan edges ∧ Built plan edges composed exact final := by
  unfold composeFanOut at ran
  cases traced : composeFanOutTraced producer consumers with
  | error cause =>
    rw [traced] at ran
    cases ran
  | ok composed =>
    rw [traced] at ran
    cases ran
    have merged := traced
    obtain ⟨⟨plan, edges⟩, planned, merged⟩ := Traverse.bind_ok.1 merged
    obtain ⟨exact, final, built⟩ := build_built merged
    exact ⟨composed, rfl, rfl, plan, edges, exact, final, planMerge_planned planned, built⟩

/-- Every access of a merged fragment names the memory it named in its own body exactly when the
dead-value pass dropped every access that does not follow it. So it is enough that each follows,
and each that leaves nothing has to: none of those is ever dropped. -/
theorem composeFanOut_keepsMemory {producer : KernelFragment}
    {consumers : List (KernelFragment × Nat)} {fragment : KernelFragment}
    (numbered : producer.body.Numbered)
    (numberedConsumers : ∀ consumer ∈ consumers, consumer.1.body.Numbered)
    (ran : composeFanOut producer consumers = .ok fragment) :
    ∃ composed, composeFanOutTraced producer consumers = .ok composed ∧
      composed.fragment = fragment ∧
      (KeepsMemory producer consumers composed ↔ StraysDropped producer consumers composed) ∧
      (AccessesFollow producer consumers (fun _ => True) →
        KeepsMemory producer consumers composed) ∧
      (KeepsMemory producer consumers composed →
        AccessesFollow producer consumers fun op => op.produces = 0) := by
  obtain ⟨composed, traced, same, plan, edges, exact, final, planned, built⟩ :=
    built_of_composeFanOut ran
  have exactly := keepsMemory_iff planned built numbered numberedConsumers
  exact ⟨composed, traced, same, exactly,
    fun follows => exactly.2 (straysDropped_of_follows follows),
    fun keeps => follows_of_straysDropped planned built numberedConsumers (exactly.1 keeps)⟩

/-- A kernel over an extent and an index that stores its index in its output. -/
def indexStore : KernelFragment where
  paramShape := .tuple [.scalar .int, .scalar .int]
  roles := {}
  body := {
    values := [.blockParam 0 0, .blockParam 0 1, .instr (.const .int 0) [] [.int],
      .instr (.bufferWriteCall .int) [2, 1, 1] []]
    blocks := [⟨[0, 1], [2, 3], .return [2]⟩]
    entry := 0 }
  inputs := 0
  outputs := 1
  inputClasses := []
  outputClasses := [.int]
  resultClasses := [.int]
  target := ⟨.i64, 64, 1⟩

/-- A kernel over the same domain that hands the element of its input to `effect`, an access of
its output. -/
def readThen (effect : KernelInstr) : KernelFragment where
  paramShape := .tuple [.scalar .int, .scalar .int]
  roles := {}
  body := {
    values := [.blockParam 0 0, .blockParam 0 1, .instr (.const .int 0) [] [.int],
      .instr (.bufferReadCall .int) [2, 1] [.int], .instr effect [2, 1, 3] []]
    blocks := [⟨[0, 1], [2, 3, 4], .return [2]⟩]
    entry := 0 }
  inputs := 1
  outputs := 1
  inputClasses := [.int]
  outputClasses := [.int]
  resultClasses := [.int]
  target := ⟨.i64, 64, 1⟩

/-- A body of one block that receives the first two values of its table, and no others. -/
theorem numbered_of_one {body : KernelBody} {instrs : List ValueId} {terminator : Terminator}
    {rest : List ValueDef} (blocks : body.blocks = [⟨[0, 1], instrs, terminator⟩])
    (values : body.values = .blockParam 0 0 :: .blockParam 0 1 :: rest)
    (plain : ∀ definition ∈ rest, ∀ block index, definition ≠ .blockParam block index) :
    body.Numbered := by
  constructor
  · intro index block position param found place
    rw [blocks, List.getElem?_singleton] at found
    split at found
    · rename_i first
      subst first
      cases found
      rw [values]
      rcases position with _ | _ | position
      · cases place
        rfl
      · cases place
        rfl
      · simp at place
    · cases found
  · intro param index position found
    rw [values] at found
    rw [blocks]
    rcases param with _ | _ | param
    · cases found
      exact ⟨_, rfl, rfl⟩
    · cases found
      exact ⟨_, rfl, rfl⟩
    · exact absurd rfl (plain _ (mem_of_getElem? found) index position)

theorem indexStore_numbered : indexStore.body.Numbered :=
  numbered_of_one rfl rfl (by simp)

theorem readThen_numbered (effect : KernelInstr) : (readThen effect).body.Numbered :=
  numbered_of_one rfl rfl (by simp)

theorem copy_follows :
    AccessesFollow indexStore [(readThen (.bufferWriteCall .int), 0)] fun _ => True := by
  constructor
  · rintro value op ordinal memory ⟨-, ⟨args, classes, -, -, -, -, found, -⟩, -, -⟩ -
    match value, found with
    | 2, rfl => trivial
    | 3, rfl => trivial
  · intro index consumer absorbed held
    match index, held with
    | 0, rfl =>
      rintro value op ordinal memory
        ⟨-, ⟨args, classes, position, bits, _, _, found, first, const, same⟩, -, -⟩ -
      match value, found with
      | 2, rfl => trivial
      | 3, rfl =>
        cases first
        cases const
        exact .inl same.symm
      | 4, rfl => exact .inl rfl

theorem copy_keepsMemory : ∃ composed,
    composeFanOutTraced indexStore [(readThen (.bufferWriteCall .int), 0)] = .ok composed ∧
      KeepsMemory indexStore [(readThen (.bufferWriteCall .int), 0)] composed := by
  have answers : (composeFanOut indexStore [(readThen (.bufferWriteCall .int), 0)]).isOk := by
    decide +kernel
  cases ran : composeFanOut indexStore [(readThen (.bufferWriteCall .int), 0)] with
  | error cause =>
    rw [ran] at answers
    cases answers
  | ok fragment =>
    obtain ⟨composed, traced, -, -, keeps, -⟩ := composeFanOut_keepsMemory indexStore_numbered
      (fun consumer member => mem_singleton.1 member ▸ readThen_numbered _) ran
    exact ⟨composed, traced, keeps copy_follows⟩

/-- The memory the second consumer's effect accesses once two of them are fused. -/
def secondEffect (effect : KernelInstr) : Option Memory :=
  match composeFanOutTraced indexStore
      [(readThen (.bufferWriteCall .int), 0), (readThen effect, 0)] with
  | .ok composed => do
    let landing ← composed.landings[1]?
    let target ← landing.landed 4
    let survivor ← composed.survives target
    composed.fragment.body.memoryOf survivor
  | .error _ => none

/-- A second consumer's store is moved past the first's output. -/
example : secondEffect (.bufferWriteCall .int) = some (.output 1) := by decide +kernel

/-- A second consumer's atomic add is left on the first's output. -/
theorem atomicAdd_names_another : ∃ composed, composeFanOutTraced indexStore
      [(readThen (.bufferWriteCall .int), 0), (readThen (.bufferAtomicAddCall .int), 0)] =
        .ok composed ∧
    ¬ KeepsMemory indexStore
      [(readThen (.bufferWriteCall .int), 0), (readThen (.bufferAtomicAddCall .int), 0)]
      composed := by
  have second : secondEffect (.bufferAtomicAddCall .int) = some (.output 0) := by decide +kernel
  unfold secondEffect at second
  cases traced : composeFanOutTraced indexStore
      [(readThen (.bufferWriteCall .int), 0), (readThen (.bufferAtomicAddCall .int), 0)] with
  | error cause =>
    rw [traced] at second
    cases second
  | ok composed =>
    refine ⟨composed, rfl, fun keeps => ?_⟩
    rw [traced] at second
    obtain ⟨landing, target, given, landed, there⟩ := keeps.consumer 1 _ 0 rfl 4
      (.bufferAtomicAddCall .int) 0 (.output 0)
      ⟨by decide, ⟨[2, 1, 3], [], 2, 0, [], [.int], rfl, rfl, rfl, rfl⟩, rfl,
        fun _ same => by cases same⟩ (.inr (by decide))
    simp only [given, landed, bind_eq_bind, bind_some, bind_eq_some_iff] at second
    obtain ⟨survivor, survived, named⟩ := second
    obtain ⟨memory, expected, named'⟩ := there survivor survived
    rw [named] at named'
    cases named'
    have moved : consumerMemoryThere indexStore [(readThen (.bufferWriteCall .int), 0),
        (readThen (.bufferAtomicAddCall .int), 0)] 1 0 (.output 0) = some (.output 1) := by
      decide +kernel
    rw [moved] at expected
    cases expected

end LichenVm.KernelIr
