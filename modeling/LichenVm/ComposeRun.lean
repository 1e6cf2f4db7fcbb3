import LichenVm.ComposePlan

open List

namespace LichenVm.KernelIr

open KernelBody

namespace KernelBody

section Splice

variable (body : KernelBody) (own extra : Nat)

theorem splice_instr {value : ValueId} {op : KernelInstr} {args : List ValueId}
    {classes : List ScalarClass} (found : body.values[value]? = some (.instr op args classes)) :
    (body.spliceRuntimeScalars own extra).values[value]? = some (.instr op args classes) := by
  unfold spliceRuntimeScalars
  split
  · exact found
  · apply getElem?_of_grows (prefix_append _ _)
    rw [getElem?_map, found]
    rfl

theorem splice_lists {value : ValueId} (listed : value ∈ body.listed) :
    value ∈ (body.spliceRuntimeScalars own extra).listed := by
  unfold spliceRuntimeScalars
  split
  · exact listed
  · apply mem_listed.2
    refine set_lists (fun other inside => ?_) (mem_listed.1 listed)
    exact inside

theorem splice_blocks :
    (body.spliceRuntimeScalars own extra).blocks.length = body.blocks.length := by
  unfold spliceRuntimeScalars
  split
  · rfl
  · exact length_set

theorem moved_param (numbered : body.Numbered) : ∀ block ∈ body.blocks, ∀ param ∈ block.params,
    ∃ index position, (body.values.map fun definition =>
      match definition with
      | .blockParam block index =>
        if block = body.entry ∧ own < index then ValueDef.blockParam block (index + extra)
        else definition
      | _ => definition)[param]? = some (.blockParam index position) := by
  intro block member param listed
  obtain ⟨index, position, found⟩ := numbered.paramsReceived block member param listed
  rw [getElem?_map, found]
  dsimp only [Option.map_some]
  split
  · exact ⟨_, _, rfl⟩
  · exact ⟨_, _, rfl⟩

theorem splice_received (numbered : body.Numbered) :
    ParamsReceived (body.spliceRuntimeScalars own extra).blocks
      (body.spliceRuntimeScalars own extra).values := by
  unfold spliceRuntimeScalars
  split
  · exact numbered.paramsReceived
  · rename_i some
    dsimp only
    -- A parameter moves along its block, and stays a parameter.
    have moved := moved_param body own extra numbered
    intro block member param listed
    by_cases held : block ∈ body.blocks
    · obtain ⟨index, position, found⟩ := moved block held param listed
      exact ⟨index, position, getElem?_of_grows (prefix_append _ _) found⟩
    · rcases mem_or_eq_of_mem_set member with old | rfl
      · exact absurd old held
      by_cases entry : body.entry < body.blocks.length
      · simp only [append_assoc, mem_append] at listed
        rcases listed with own | fresh | own
        · obtain ⟨index, position, found⟩ :=
            moved _ (block_mem entry) param (mem_of_mem_take own)
          exact ⟨index, position, getElem?_of_grows (prefix_append _ _) found⟩
        · obtain ⟨ordinal, within, rfl⟩ := mem_map.1 fresh
          refine ⟨body.entry, min (own + 1) body.parameters.length + ordinal, ?_⟩
          rw [getElem?_append_right (by rw [length_map]; exact Nat.le_add_right _ _),
            length_map, Nat.add_sub_cancel_left, getElem?_map,
            getElem?_range (mem_range.1 within)]
          rfl
        · obtain ⟨index, position, found⟩ :=
            moved _ (block_mem entry) param (mem_of_mem_drop own)
          exact ⟨index, position, getElem?_of_grows (prefix_append _ _) found⟩
      · rw [set_eq_of_length_le (Nat.le_of_not_lt entry)] at member
        exact absurd member held

end Splice

end KernelBody

theorem leavesNothing_iff {body : KernelBody} {value : ValueId} :
    body.leavesNothing value ↔ ∃ op args, body.values[value]? = some (.instr op args []) := by
  unfold leavesNothing
  split
  · rename_i op args classes found
    simp [found]
  · rename_i other
    constructor
    · intro held
      cases held
    · rintro ⟨op, args, found⟩
      exact absurd found (other op args [])

theorem leavesNothing_grows {before after : KernelBody} (grows : before.values <+: after.values)
    {value : ValueId} (nothing : before.leavesNothing value) :
    after.leavesNothing value := by
  rw [leavesNothing_iff] at nothing ⊢
  obtain ⟨op, args, found⟩ := nothing
  exact ⟨op, args, getElem?_of_grows grows found⟩

namespace MergePlan

section Start

variable (plan : MergePlan) (exact : Bool)

theorem start_values : (plan.start exact).body.values = plan.widened.values := by
  unfold start
  split
  · rfl
  · rfl

theorem start_holds : Holds (plan.start exact).body.values plan.producer.body := by
  intro value op args classes found
  rw [start_values]
  exact splice_instr _ _ _ found

theorem start_lists {value : ValueId} (listed : value ∈ plan.producer.body.listed)
    (kept : plan.stagedOrdinal.isSome ∨ value ≠ plan.write) :
    value ∈ (plan.start exact).body.listed := by
  have widened := splice_lists plan.producer.body (plan.scalars.own 0)
    (plan.scalars.total - plan.scalars.own 0) listed
  unfold start
  split
  · exact widened
  · rename_i recomputed
    rw [recomputed] at kept
    obtain ⟨block, member, inside⟩ := mem_listed.1 widened
    refine mem_listed.2 ⟨_, mem_map.2 ⟨block, member, rfl⟩, ?_⟩
    exact mem_filter.2 ⟨inside, by simpa using kept⟩

theorem start_received (numbered : plan.producer.body.Numbered) :
    ParamsReceived (plan.start exact).body.blocks (plan.start exact).body.values := by
  have widened := splice_received plan.producer.body (plan.scalars.own 0)
    (plan.scalars.total - plan.scalars.own 0) numbered
  unfold start
  split
  · exact widened
  · intro block member
    obtain ⟨old, held, rfl⟩ := mem_map.1 member
    exact widened old held

theorem start_blocks :
    (plan.start exact).body.blocks.length = plan.producer.body.blocks.length := by
  rw [← splice_blocks plan.producer.body (plan.scalars.own 0)
    (plan.scalars.total - plan.scalars.own 0)]
  unfold start
  split
  · rfl
  · exact length_map _

end Start

/-- What one consumer's join establishes. -/
structure Joined (plan : MergePlan) (merge : Merge) (edge : Edge) (after : Merge)
    (landing : Landing) : Prop where
  extends_ : Extends merge.body after.body
  lands : ∀ (value : ValueId) (op : KernelInstr) (args : List ValueId) (classes : List ScalarClass),
    edge.fragment.body.values[value]? = some (.instr op args classes) →
    (plan.stagedOrdinal.isSome ∨ value ∉ edge.absorbedReads.map Prod.fst) →
    ∃ target, landing.landed value = some target
  access : ∀ (value target : ValueId) (op : KernelInstr) (ordinal : Nat),
    value ∈ edge.fragment.body.listed → Names edge.fragment.body.values value op ordinal →
    landing.landed value = some target →
    Names after.body.values target (plan.renamed edge merge op ordinal).1
      (plan.renamed edge merge op ordinal).2
  /-- An instruction that leaves nothing stays listed. -/
  effect : ∀ value ∈ edge.fragment.body.listed, edge.fragment.body.leavesNothing value = true →
    ∃ target, landing.landed value = some target ∧ target ∈ after.body.listed ∧
      after.body.leavesNothing target = true
  copies : ∀ value copy, (value, copy) ∈ landing.copies →
    CopyOf plan.producer.body after.body.values value copy
  union : after.union = merge.union + (edge.fragment.inputs - 1)
  outputs : after.outputs = merge.outputs + edge.fragment.outputs
  slices : after.slices = if merge.slices.isEmpty then edge.fragment.slices else merge.slices

section Join

variable {plan : MergePlan} {edge : Edge} {merge after : Merge} {landing : Landing} (index : Nat)
  (faithful : plan.cone.Faithful plan.producer.body)
  (holds : Holds merge.body.values plan.producer.body)
  (sound : edge.Sound) (numbered : edge.fragment.body.Numbered)

/-- The merged body once a consumer's values and blocks joined it, before the barriers. -/
abbrev joinedBody (plan : MergePlan) (edge : Edge) (merge : Merge) (index : Nat) : KernelBody :=
  { merge.body with
    values := plan.definedOf edge merge index
    blocks := plan.placedOf edge merge index
    barriers := merge.body.barriers ++ edge.fragment.body.barriers.map fun barrier =>
      ⟨(plan.splicedOf edge merge index).1.renumber.resolve barrier.write,
        (plan.splicedOf edge merge index).1.renumber.resolve barrier.read⟩ }

include faithful holds sound numbered in
theorem joinedBody_extends : Extends merge.body (plan.joinedBody edge merge index) := by
  refine ⟨definedOf_grows index faithful holds, ?_, fun value listed => ?_,
    placedOf_received index faithful holds sound numbered⟩
  · simp only [joinedBody, place, length_append, length_set]
    exact Nat.le_add_right _ _
  · exact mem_listed.2 (placedOf_lists index (mem_listed.1 listed))

section

variable (room : plan.returnBlock < merge.body.blocks.length)

include room

include faithful holds sound numbered in
/-- An instruction that leaves nothing lands as one that leaves nothing, and stays listed. -/
theorem effect_lands {value : ValueId} (listed : value ∈ edge.fragment.body.listed)
    (nothing : edge.fragment.body.leavesNothing value) :
    ∃ target, (plan.reservedOf edge merge index).landed.ids value = some target ∧
      target ∈ (plan.joinedBody edge merge index).listed ∧
      (plan.joinedBody edge merge index).leavesNothing target := by
  obtain ⟨op, args, classes, placed⟩ := placed_of_validate sound.gate listed
  have found := placed.found
  have empty : classes = [] := by
    rw [leavesNothing, found] at nothing
    simpa using nothing
  have apart : value ∉ edge.absorbedReads.map Prod.fst := by
    apply not_absorbed_of_not_read sound
    rw [← Bool.not_eq_true, isBufferRead_iff]
    rintro ⟨stated, args', classes', found'⟩
    rw [found] at found'
    cases found'
    have results := placed.results
    rw [empty] at results
    cases results
  obtain ⟨-, target, given⟩ : (plan.bound edge index).bound value = none ∧
        ∃ target, (plan.reservedOf edge merge index).landed.ids value = some target :=
    instr_lands index numbered found (.inr apart)
  refine ⟨target, given, mem_listed.2 (placedOf_lists_own index faithful holds room listed given),
    ?_⟩
  have defined := (definedOf_spec index faithful holds).2.2 value _ target found given
  simp only [leavesNothing, defined, mappedDef, empty, isEmpty_nil]

include faithful holds sound numbered in
theorem join_joined (fits : ∀ staged, plan.stagedOrdinal = some staged → staged < 2 ^ 64)
    (ran : plan.join merge edge index = .ok (after, landing)) :
    Joined plan merge edge after landing := by
  unfold join at ran
  obtain ⟨_, -, ran⟩ := Traverse.bind_ok.1 ran
  cases ran
  have joined := joinedBody_extends index faithful holds sound numbered
  have staged := stage_extends plan edge (plan.splicedOf edge merge index).1.renumber.resolve
    (plan.joinedBody edge merge index)
  refine ⟨joined.trans staged, ?_, ?_, ?_, ?_, rfl, rfl, rfl⟩
  · intro value op args classes found stays
    exact (instr_lands index numbered found stays : (plan.bound edge index).bound value = none ∧
        ∃ target, (plan.reservedOf edge merge index).landed.ids value = some target).2
  · intro value target op ordinal listed names given
    exact (access_lands index faithful holds sound numbered fits listed names given).mono
      staged.grows
  · intro value listed nothing
    obtain ⟨target, given, member, left⟩ :=
      effect_lands index faithful holds sound numbered room listed nothing
    exact ⟨target, given, staged.lists target member, leavesNothing_grows staged.grows left⟩
  · intro value copy member op ordinal names
    have kept := (@splicedOf_kept plan edge merge index faithful holds).copies
      value copy member
    exact (definedOf_names index faithful holds (kept.2.2 op ordinal names)).mono staged.grows

end

end Join

/-- How one consumer stands in a run of joins: the state its join starts from, what the join
established, and that the body it leaves is kept to the end. -/
def Stands (plan : MergePlan) (start final : Merge) (earlier : List Edge) (edge : Edge)
    (landing : Landing) : Prop :=
  ∃ before after, Joined plan before edge after landing ∧ Extends after.body final.body ∧
    before.union = start.union + (earlier.map fun edge => edge.fragment.inputs - 1).sum ∧
    before.outputs = start.outputs + (earlier.map fun edge => edge.fragment.outputs).sum

/-- The slices a run of joins declares: the first list of them that declares any. -/
def declared (start : List Slice) (edges : List Edge) : List Slice :=
  edges.foldl (fun slices edge => if slices.isEmpty then edge.fragment.slices else slices) start

theorem joinAll_stands {plan : MergePlan} (faithful : plan.cone.Faithful plan.producer.body)
    (fits : ∀ staged, plan.stagedOrdinal = some staged → staged < 2 ^ 64)
    {edges : List (Edge × Nat)}
    (sound : ∀ pair ∈ edges, pair.1.Sound ∧ pair.1.fragment.body.Numbered) {merge final : Merge}
    {landings : List Landing} (holds : Holds merge.body.values plan.producer.body)
    (room : plan.returnBlock < merge.body.blocks.length)
    (ran : plan.joinAll merge edges = .ok (final, landings)) :
    Extends merge.body final.body ∧
    final.outputs =
      merge.outputs + ((edges.map Prod.fst).map fun edge => edge.fragment.outputs).sum ∧
    final.slices = declared merge.slices (edges.map Prod.fst) ∧
    landings.length = edges.length ∧
    ∀ (place : Nat) (edge : Edge) (index : Nat), edges[place]? = some (edge, index) →
      ∃ landing, landings[place]? = some landing ∧
        Stands plan merge final ((edges.take place).map Prod.fst) edge landing := by
  induction edges generalizing merge landings with
  | nil =>
    cases ran
    exact ⟨Extends.refl _, rfl, rfl, rfl, fun place edge index found => by cases found⟩
  | cons pair edges ih =>
    obtain ⟨edge, index⟩ := pair
    unfold joinAll at ran
    obtain ⟨⟨after, landing⟩, first, ran⟩ := Traverse.bind_ok.1 ran
    obtain ⟨⟨last, rest⟩, others, same⟩ := Traverse.bind_ok.1 ran
    cases same
    obtain ⟨own, numbered⟩ := sound (edge, index) mem_cons_self
    have joined := join_joined index faithful holds own numbered room fits first
    obtain ⟨grows, outputs, slices, count, each⟩ := ih
      (fun pair member => sound pair (mem_cons_of_mem _ member))
      (holds.mono joined.extends_.grows) (Nat.lt_of_lt_of_le room joined.extends_.blocks) others
    refine ⟨joined.extends_.trans grows, ?_, ?_, congrArg Nat.succ count, ?_⟩
    · rw [outputs, joined.outputs, map_cons, map_cons, sum_cons, Nat.add_assoc]
    · rw [slices, joined.slices]
      rfl
    · intro place edge' index' found
      cases place with
      | zero =>
        cases found
        exact ⟨landing, rfl, ⟨merge, after, joined, grows, rfl, rfl⟩⟩
      | succ place =>
        obtain ⟨landing', held, before, after', joined', kept, union, outputs'⟩ :=
          each place edge' index' found
        refine ⟨landing', held, before, after', joined', kept, ?_, ?_⟩
        · rw [union, joined.union, take_succ_cons, map_cons, map_cons, sum_cons, Nat.add_assoc]
        · rw [outputs', joined.outputs, take_succ_cons, map_cons, map_cons, sum_cons, Nat.add_assoc]

end MergePlan

end LichenVm.KernelIr
