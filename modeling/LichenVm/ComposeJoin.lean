import LichenVm.ComposeFrames

open List Option

namespace LichenVm.KernelIr

open KernelBody Allocation

/-- A block's parameters are the values it receives, each under its own block and index. -/
structure KernelBody.Numbered (body : KernelBody) : Prop where
  listed : ∀ (index : Nat) (block : BasicBlock) (position : Nat) (param : ValueId),
    body.blocks[index]? = some block → block.params[position]? = some param →
    body.values[param]? = some (.blockParam index position)
  received : ∀ (param : ValueId) (index position : Nat),
    body.values[param]? = some (.blockParam index position) →
    ∃ block, body.blocks[index]? = some block ∧ block.params[position]? = some param

/-- Every listed parameter is a parameter of the table. -/
def ParamsReceived (blocks : List BasicBlock) (values : List ValueDef) : Prop :=
  ∀ block ∈ blocks, ∀ param ∈ block.params, ∃ index position,
    values[param]? = some (.blockParam index position)

variable {body : KernelBody}

theorem KernelBody.Numbered.paramsReceived (numbered : body.Numbered) :
    ParamsReceived body.blocks body.values := by
  intro block member param received
  obtain ⟨index, found⟩ := mem_iff_getElem?.1 member
  obtain ⟨position, at_⟩ := mem_iff_getElem?.1 received
  exact ⟨index, position, numbered.listed index block position param found at_⟩

variable {blocks : List BasicBlock}

theorem ParamsReceived.mono {before after : List ValueDef}
    (grows : before <+: after) (received : ParamsReceived blocks before) :
    ParamsReceived blocks after := by
  intro block member param listed
  obtain ⟨index, position, found⟩ := received block member param listed
  exact ⟨index, position, getElem?_of_grows grows found⟩

theorem block_mem {index : Nat} (within : index < body.blocks.length) :
    body.block index ∈ body.blocks := by
  rw [block, getD_eq_getElem?_getD, getElem?_eq_getElem within]
  exact getElem_mem within

variable {value : ValueId}

theorem mem_listed : value ∈ body.listed ↔ ∃ block ∈ body.blocks, value ∈ block.instrs :=
  mem_flatMap

theorem set_lists {index : Nat} {block : BasicBlock}
    (lists : ∀ value ∈ (blocks.getD index ⟨[], [], .return []⟩).instrs, value ∈ block.instrs)
    (member : ∃ block ∈ blocks, value ∈ block.instrs) :
    ∃ other ∈ blocks.set index block, value ∈ other.instrs := by
  obtain ⟨old, held, listed⟩ := member
  obtain ⟨place, found⟩ := mem_iff_getElem?.1 held
  by_cases same : index = place
  · subst same
    refine ⟨block, mem_iff_getElem?.2 ⟨index, ?_⟩, lists value ?_⟩
    · rw [getElem?_set_self (List.getElem?_eq_some_iff.1 found).1]
    · rw [getD_eq_getElem?_getD, found]
      exact listed
  · exact ⟨old, mem_iff_getElem?.2 ⟨place, by rw [getElem?_set_ne same, found]⟩,
      listed⟩

theorem set_received {values : List ValueDef} {index : Nat}
    {block : BasicBlock} (same : block.params = (blocks.getD index ⟨[], [], .return []⟩).params)
    (received : ParamsReceived blocks values) : ParamsReceived (blocks.set index block) values := by
  intro other member
  obtain ⟨place, found⟩ := mem_iff_getElem?.1 member
  by_cases here : index = place
  · subst here
    have within := (List.getElem?_eq_some_iff.1 found).1
    rw [length_set] at within
    rw [getElem?_set_self within] at found
    cases found
    rw [same, getD_eq_getElem?_getD, getElem?_eq_getElem within]
    exact received _ (getElem_mem within)
  · rw [getElem?_set_ne here] at found
    exact received other (mem_of_getElem? found)

/-- What a step of the merge keeps of the body before: its values, its blocks, what it lists, and
that its blocks receive parameters. -/
structure Extends (before after : KernelBody) : Prop where
  grows : before.values <+: after.values
  blocks : before.blocks.length ≤ after.blocks.length
  lists : ∀ value ∈ before.listed, value ∈ after.listed
  received : ParamsReceived before.blocks before.values → ParamsReceived after.blocks after.values

theorem Extends.refl (body : KernelBody) : Extends body body :=
  ⟨prefix_rfl, le_refl _, fun _ member => member, fun received => received⟩

theorem Extends.trans {first second third : KernelBody} (one : Extends first second)
    (two : Extends second third) : Extends first third :=
  ⟨one.grows.trans two.grows, le_trans one.blocks two.blocks,
    fun value member => two.lists value (one.lists value member),
    fun received => two.received (one.received received)⟩

theorem stagedBarrier_extends (body : KernelBody) (write read : ValueId) (preHeader : Nat)
    (stated : ScalarClass) (ordinal : Nat) :
    Extends body (stagedBarrier body write read preHeader stated ordinal) := by
  have pair : Extends body { body with barriers := body.barriers ++ [⟨write, read⟩] } :=
    ⟨prefix_rfl, le_refl _, fun _ member => member, fun received => received⟩
  unfold stagedBarrier
  dsimp only
  split
  · exact Extends.refl body
  · split
    · exact pair
    · split
      · refine ⟨prefix_append _ _, ?_, fun value member => ?_, fun received => ?_⟩
        · rw [length_set]
        · rw [mem_listed] at member ⊢
          refine set_lists (fun other listed => ?_) member
          change other ∈ (body.block preHeader).instrs at listed
          rw [← take_append_drop (((List.findIdx? (· = write)
            (body.block preHeader).instrs).map (· + 1)).getD 0) (body.block preHeader).instrs] at listed
          rcases mem_append.1 listed with listed | listed
          · exact mem_append_left _ (mem_append_left _ listed)
          · exact mem_append_right _ listed
        · exact set_received rfl (received.mono (prefix_append _ _))
      · exact pair

theorem stage_extends (plan : MergePlan) (edge : Edge) (resolve : ValueId → ValueId)
    (body : KernelBody) : Extends body (plan.stage edge resolve body) := by
  unfold MergePlan.stage
  split
  · exact Extends.refl body
  · rename_i ordinal staged
    generalize edge.absorbedReads = reads
    induction reads generalizing body with
    | nil => exact Extends.refl body
    | cons read reads ih => exact (stagedBarrier_extends _ _ _ _ _ _).trans (ih _)

/-- What a consumer's reads were collected as. -/
structure Edge.Sound (edge : Edge) : Prop where
  gate : edge.fragment.body.validate = .ok ()
  reads : edge.fragment.body.bufferReads .consumer = .ok edge.reads
  absorbedReads : edge.absorbedReads =
    (edge.reads.filter fun read => read.2 = edge.absorbed).map fun read =>
      (read.1, edge.fragment.body.readAddress read.1)

theorem isBufferRead_iff : body.isBufferRead value ↔
    ∃ stated args classes, body.values[value]? = some (.instr (.bufferReadCall stated) args classes) := by
  unfold isBufferRead
  split
  · rename_i stated args classes found
    simp [found]
  · rename_i other
    constructor
    · intro held
      cases held
    · rintro ⟨stated, args, classes, found⟩
      exact absurd found (other stated args classes)

theorem isBufferWrite_iff : body.isBufferWrite value ↔ ∃ stated args classes,
      body.values[value]? = some (.instr (.bufferWriteCall stated) args classes) := by
  unfold isBufferWrite
  split
  · rename_i stated args classes found
    simp [found]
  · rename_i other
    constructor
    · intro held
      cases held
    · rintro ⟨stated, args, classes, found⟩
      exact absurd found (other stated args classes)

/-- The reads collected are the listed buffer reads, each with its position as an ordinal of 32
bits. -/
theorem mem_bufferReads {side : Side} {reads : List (ValueId × Nat)}
    (ran : body.bufferReads side = .ok reads) (read : ValueId) (position : Nat) :
    (read, position) ∈ reads ↔ read ∈ body.listed ∧ body.isBufferRead read ∧
      ∃ ordinal, body.ordinal read = some ordinal ∧ position = ordinal % 2 ^ 32 := by
  obtain ⟨forth, back⟩ := Traverse.mem_of_mapM_ok ran
  constructor
  · intro member
    obtain ⟨item, held, same⟩ := back _ member
    obtain ⟨listed, reads⟩ := mem_filter.1 held
    split at same
    · rename_i ordinal found
      cases same
      exact ⟨listed, reads, ordinal, found, rfl⟩
    · cases same
  · rintro ⟨listed, reads, ordinal, found, rfl⟩
    obtain ⟨image, member, same⟩ := forth read (mem_filter.2 ⟨listed, reads⟩)
    rw [found] at same
    cases same
    exact member

theorem Edge.Sound.mem_absorbed {edge : Edge} (sound : edge.Sound) (read : ValueId) :
    read ∈ edge.absorbedReads.map Prod.fst ↔ (read, edge.absorbed) ∈ edge.reads := by
  simp [sound.absorbedReads]

theorem lookup_isSome_iff {β : Type} (items : List (Nat × β)) (key : Nat) :
    (items.lookup key).isSome ↔ key ∈ items.map Prod.fst := by
  rw [List.lookup_isSome_iff]
  simp

theorem foldl_bind_isSome {α : Type} (items : List α) (key : α → ValueId) (target : α → ValueId)
    (renumber : Renumber) (value : ValueId) :
    ((items.foldl (fun renumber item => renumber.bind (key item) (target item)) renumber).bound
      value).isSome ↔ (renumber.bound value).isSome ∨ value ∈ items.map key := by
  induction items generalizing renumber with
  | nil => simp
  | cons item items ih =>
    rw [foldl_cons, ih]
    by_cases same : value = key item
    · simp [Renumber.bind, same]
    · simp [Renumber.bind, same]

/-- A consumer's bound values: its entry parameters, and in the recomputed path its absorbed
reads. -/
theorem bound_isSome_iff (plan : MergePlan) (edge : Edge) (index : Nat) (value : ValueId) :
    ((plan.bound edge index).bound value).isSome ↔ value ∈ edge.fragment.body.parameters ∨
      (plan.stagedOrdinal = none ∧ value ∈ edge.absorbedReads.map Prod.fst) := by
  have parameters := foldl_bind_isSome edge.fragment.body.parameters.zipIdx Prod.fst
    (fun slot => plan.widened.parameters.getD (landedSlot slot.2 (plan.scalars.own (index + 1))
      (plan.scalars.before (index + 1)) plan.scalars.total) 0) ({} : Renumber) value
  simp only [zipIdx_map_fst, isSome_none, Bool.false_eq_true, false_or] at parameters
  unfold MergePlan.bound
  split
  · rename_i staged
    rw [parameters]
    refine ⟨Or.inl, fun held => held.resolve_right ?_⟩
    rintro ⟨none, -⟩
    rw [none] at staged
    cases staged
  · rename_i staged
    have none : plan.stagedOrdinal = none := by simpa using staged
    have reads := foldl_bind_isSome edge.absorbedReads Prod.fst Prod.fst
    rw [reads, parameters]
    simp [none]

namespace MergePlan

section Reserve

variable (plan : MergePlan) (edge : Edge) (bound : Renumber) (merge : Merge)

theorem staged_grows : merge.body.values <+: (plan.reserve edge bound merge).staged.values := by
  unfold reserve
  split
  · exact constants_grows _ _
  · exact prefix_rfl

theorem landed_grows : (plan.reserve edge bound merge).staged.values <+:
    (plan.reserve edge bound merge).landed.values :=
  addAll_grows _ _

theorem shifted_grows : (plan.reserve edge bound merge).landed.values <+:
    (plan.reserve edge bound merge).shifted.values :=
  constants_grows _ _

theorem writes_grows : (plan.reserve edge bound merge).shifted.values <+:
    (plan.reserve edge bound merge).writes.values :=
  constants_grows _ _

variable {target : ValueId} {value : ValueId}

theorem landed_range (given : (plan.reserve edge bound merge).landed.ids value = some target) :
    (plan.reserve edge bound merge).staged.values.length ≤ target ∧
      target < (plan.reserve edge bound merge).landed.values.length :=
  addAll_range _ _ given

theorem landed_injective {value other : ValueId}
    (given : (plan.reserve edge bound merge).landed.ids value = some target)
    (given' : (plan.reserve edge bound merge).landed.ids other = some target) : value = other :=
  addAll_injective _ _ given given'

theorem landed_isSome_iff (value : ValueId) :
    ((plan.reserve edge bound merge).landed.ids value).isSome ↔
      value < edge.fragment.body.values.length ∧ bound.bound value = none := by
  constructor
  · intro given
    obtain ⟨target, given⟩ := isSome_iff_exists.1 given
    obtain ⟨index, definition, -, found⟩ := item_of_addAll _ _ given
    rw [getElem?_map, map_eq_some_iff] at found
    obtain ⟨other, found, same⟩ := found
    cases same
    have member := mem_filter.1 (mem_of_getElem? found)
    exact ⟨mem_range.1 member.1, by simpa using member.2⟩
  · rintro ⟨within, free⟩
    have member : value ∈ (List.range edge.fragment.body.values.length).filter fun value =>
        (bound.bound value).isNone :=
      mem_filter.2 ⟨mem_range.2 within, by simp [free]⟩
    exact addAll_isSome _ _ (mem_map.2 ⟨value, member, rfl⟩)

theorem staged_spec (given : (plan.reserve edge bound merge).staged.ids value = some target) :
    ∃ ordinal, plan.stagedOrdinal = some ordinal ∧ value ∈ edge.absorbedReads.map Prod.fst ∧
      (plan.reserve edge bound merge).staged.values[target]? =
        some (.instr (.const .int (BitVec.ofNat 64 ordinal)) [] [.int]) := by
  unfold reserve at given ⊢
  split at given
  · rename_i ordinal staged
    obtain ⟨position, member, found⟩ := constant_of_constants _ given
    obtain ⟨read, held, same⟩ := mem_map.1 member
    cases same
    refine ⟨ordinal, staged, mem_map.2 ⟨read, held, rfl⟩, ?_⟩
    exact found
  · cases given

theorem staged_isSome {ordinal : Nat} (staged : plan.stagedOrdinal = some ordinal)
    (member : value ∈ edge.absorbedReads.map Prod.fst) :
    ((plan.reserve edge bound merge).staged.ids value).isSome := by
  obtain ⟨read, held, rfl⟩ := mem_map.1 member
  simp only [reserve, staged]
  exact constants_isSome _ (mem_map.2 ⟨read, held, rfl⟩)

theorem shifted_spec (given : (plan.reserve edge bound merge).shifted.ids value = some target) :
    ∃ position, (value, position) ∈ shiftedPositions edge.reads merge.union edge.absorbed ∧
      (plan.reserve edge bound merge).shifted.values[target]? =
        some (.instr (.const .int (BitVec.ofNat 64 position)) [] [.int]) :=
  constant_of_constants _ given

theorem writes_spec (given : (plan.reserve edge bound merge).writes.ids value = some target) :
    ∃ position, (value, position) ∈ shiftedWritePositions edge.fragment.body merge.outputs ∧
      (plan.reserve edge bound merge).writes.values[target]? =
        some (.instr (.const .int (BitVec.ofNat 64 position)) [] [.int]) :=
  constant_of_constants _ given

end Reserve

section Join

variable {plan : MergePlan} {edge : Edge} {merge : Merge} (index : Nat)
  (faithful : plan.cone.Faithful plan.producer.body)
  (holds : Holds merge.body.values plan.producer.body)
  (sound : edge.Sound) (numbered : edge.fragment.body.Numbered)

/-- The reservations one consumer's join makes. -/
abbrev reservedOf (plan : MergePlan) (edge : Edge) (merge : Merge) (index : Nat) : Reserved :=
  plan.reserve edge (plan.bound edge index) merge

abbrev splicedOf (plan : MergePlan) (edge : Edge) (merge : Merge) (index : Nat) :
    Splicing × List (List ValueId) :=
  plan.splice edge merge.blocksBase (plan.bound edge index) (plan.reservedOf edge merge index)

abbrev definedOf (plan : MergePlan) (edge : Edge) (merge : Merge) (index : Nat) : List ValueDef :=
  plan.define edge merge.blocksBase (plan.reservedOf edge merge index)
    (plan.splicedOf edge merge index).1

theorem reserved_grows : merge.body.values <+: (plan.reservedOf edge merge index).writes.values :=
  (staged_grows plan edge _ merge).trans <| (landed_grows plan edge _ merge).trans <|
    (shifted_grows plan edge _ merge).trans (writes_grows plan edge _ merge)

include faithful holds in
theorem splicedOf_kept : (plan.context edge (plan.reservedOf edge merge index)).Kept
    (plan.reservedOf edge merge index).writes.values
    { plan.bound edge index with landed := (plan.reservedOf edge merge index).landed.ids }
    (plan.splicedOf edge merge index).1 := by
  refine (SpliceContext.foldl_block_kept faithful (holds.mono (reserved_grows index)) _ _ [] ?_).1
  exact ⟨prefix_rfl, rfl, fun _ _ => rfl, fun _ _ member => by cases member⟩

include faithful holds in
theorem definedOf_spec : (plan.definedOf edge merge index).length =
      (plan.splicedOf edge merge index).1.values.length ∧
    (∀ place, (∀ value, (plan.reservedOf edge merge index).landed.ids value ≠ some place) →
      (plan.definedOf edge merge index)[place]? =
        (plan.splicedOf edge merge index).1.values[place]?) ∧
    ∀ value definition target, edge.fragment.body.values[value]? = some definition →
      (plan.reservedOf edge merge index).landed.ids value = some target →
      (plan.definedOf edge merge index)[target]? = some (mappedDef
        (plan.splicedOf edge merge index).1.renumber.resolve (plan.mapped edge merge.blocksBase)
        ((plan.reservedOf edge merge index).staged.ids value)
        ((plan.reservedOf edge merge index).positions value) definition) := by
  have set := foldl_set_spec (plan.reservedOf edge merge index).landed.ids
    (fun definition value => mappedDef (plan.splicedOf edge merge index).1.renumber.resolve
      (plan.mapped edge merge.blocksBase) ((plan.reservedOf edge merge index).staged.ids value)
      ((plan.reservedOf edge merge index).positions value) definition)
    (fun _ _ _ => landed_injective plan edge _ merge) edge.fragment.body.values
    (plan.splicedOf edge merge index).1.values
  obtain ⟨size, others, each⟩ := set
  refine ⟨size, fun place apart => others place fun value _ => apart value, ?_⟩
  intro value definition target found given
  have room := (landed_range plan edge _ merge given).2
  have grows := ((shifted_grows plan edge (plan.bound edge index) merge).trans
    ((writes_grows plan edge (plan.bound edge index) merge).trans
      (splicedOf_kept index faithful holds).grows)).length_le
  exact each value definition target found given (lt_of_lt_of_le room grows)

include faithful holds in
theorem definedOf_other {place : Nat} {definition : ValueDef}
    (apart : place < (plan.reservedOf edge merge index).staged.values.length ∨
      (plan.reservedOf edge merge index).landed.values.length ≤ place)
    (found : (plan.splicedOf edge merge index).1.values[place]? = some definition) :
    (plan.definedOf edge merge index)[place]? = some definition := by
  rw [(definedOf_spec index faithful holds).2.1 place, found]
  intro value given
  obtain ⟨lower, upper⟩ := landed_range plan edge _ merge given
  rcases apart with below | above
  · exact not_lt.2 lower below
  · exact not_lt.2 above upper

variable {target : ValueId} {value : ValueId}

theorem placeholder (given : (plan.reservedOf edge merge index).landed.ids value = some target) :
    (plan.reservedOf edge merge index).landed.values[target]? = some (.blockParam 0 0) := by
  obtain ⟨place, definition, rfl, found⟩ := item_of_addAll _ _ given
  have image := found
  rw [getElem?_map, map_eq_some_iff] at image
  obtain ⟨other, -, same⟩ := image
  cases same
  simp only [reservedOf, reserve, addAll_values]
  rw [getElem?_append_right (Nat.le_add_right _ _), getElem?_map, Nat.add_sub_cancel_left,
    found]
  rfl

variable {op : KernelInstr} {args : List ValueId} {classes : List ScalarClass}

include faithful holds in
theorem definedOf_instr {place : ValueId}
    (found : (plan.splicedOf edge merge index).1.values[place]? = some (.instr op args classes)) :
    (plan.definedOf edge merge index)[place]? = some (.instr op args classes) := by
  rw [(definedOf_spec index faithful holds).2.1 place, found]
  intro value given
  have held := getElem?_of_grows ((shifted_grows plan edge _ merge).trans
    ((writes_grows plan edge _ merge).trans (splicedOf_kept index faithful holds).grows))
    (placeholder index given)
  rw [found] at held
  cases held

variable {ordinal : Nat}

include faithful holds in
theorem definedOf_names
    (names : Names (plan.splicedOf edge merge index).1.values value op ordinal) :
    Names (plan.definedOf edge merge index) value op ordinal := by
  obtain ⟨args, classes, position, bits, constArgs, constClasses, found, first, const, same⟩ := names
  exact ⟨args, classes, position, bits, constArgs, constClasses,
    definedOf_instr index faithful holds found, first, definedOf_instr index faithful holds const,
    same⟩

include faithful holds in
theorem definedOf_grows : merge.body.values <+: plan.definedOf edge merge index := by
  rw [prefix_iff_getElem?]
  intro place within
  apply definedOf_other index faithful holds
  · exact .inl (lt_of_lt_of_le within (staged_grows plan edge _ merge).length_le)
  · exact getElem?_of_grows
      ((reserved_grows index).trans (splicedOf_kept index faithful holds).grows)
      (getElem?_eq_getElem within)

theorem lands (within : value < edge.fragment.body.values.length)
    (inner : value ∉ edge.fragment.body.parameters)
    (stays : plan.stagedOrdinal.isSome ∨ value ∉ edge.absorbedReads.map Prod.fst) :
    (plan.bound edge index).bound value = none ∧
    ∃ target, (plan.reservedOf edge merge index).landed.ids value = some target := by
  have free : (plan.bound edge index).bound value = none := by
    rw [← not_isSome_iff_eq_none, bound_isSome_iff]
    rintro (member | ⟨none, member⟩)
    · exact inner member
    · rcases stays with staged | apart
      · rw [none] at staged
        cases staged
      · exact apart member
  refine ⟨free, isSome_iff_exists.1 ?_⟩
  rw [landed_isSome_iff]
  exact ⟨within, free⟩

section

variable (found : edge.fragment.body.values[value]? = some (.instr op args classes))

include found

include numbered in
theorem not_parameter : value ∉ edge.fragment.body.parameters := by
  intro member
  have entry : edge.fragment.body.entry < edge.fragment.body.blocks.length := by
    by_contra past
    rw [parameters, block, getD_eq_getElem?_getD,
      getElem?_eq_none (by omega)] at member
    cases member
  obtain ⟨block, position, param⟩ := numbered.paramsReceived _ (block_mem entry) value member
  rw [found] at param
  cases param

include numbered in
theorem instr_lands (stays : plan.stagedOrdinal.isSome ∨ value ∉ edge.absorbedReads.map Prod.fst) :
    (plan.bound edge index).bound value = none ∧
    ∃ target, (plan.reservedOf edge merge index).landed.ids value = some target :=
  lands index (List.getElem?_eq_some_iff.1 found).1 (not_parameter numbered found) stays

end

include sound in
theorem not_absorbed_of_not_read (other : edge.fragment.body.isBufferRead value = false) :
    value ∉ edge.absorbedReads.map Prod.fst := by
  rw [sound.mem_absorbed, mem_bufferReads sound.reads]
  rintro ⟨-, read, -⟩
  rw [other] at read
  cases read

include faithful holds in
theorem resolve_of_landed
    (stays : plan.stagedOrdinal.isSome ∨ value ∉ edge.absorbedReads.map Prod.fst)
    (free : (plan.bound edge index).bound value = none)
    (given : (plan.reservedOf edge merge index).landed.ids value = some target) :
    (plan.splicedOf edge merge index).1.renumber.resolve value = target := by
  have unanswered : (plan.context edge (plan.reservedOf edge merge index)).addresses value =
      none := by
    simp only [context]
    split
    · rfl
    · rename_i recomputed
      rw [← not_isSome_iff_eq_none, lookup_isSome_iff]
      exact stays.resolve_left recomputed
  rw [(splicedOf_kept index faithful holds).resolve unanswered]
  simp [Renumber.resolve, free, given]

include faithful holds sound numbered in
theorem const_lands {bits : BitVec 64}
    (found : edge.fragment.body.values[value]? = some (.instr (.const .int bits) args classes)) :
    ∃ args, (plan.definedOf edge merge index)[(plan.splicedOf edge merge
      index).1.renumber.resolve value]? = some (.instr (.const .int bits) args classes) := by
  have apart : value ∉ edge.absorbedReads.map Prod.fst :=
    not_absorbed_of_not_read sound (by simp [isBufferRead, found])
  obtain ⟨free, target, given⟩ : (plan.bound edge index).bound value = none ∧
        ∃ target, (plan.reservedOf edge merge index).landed.ids value = some target :=
    instr_lands index numbered found (.inr apart)
  rw [resolve_of_landed index faithful holds (.inr apart) free given,
    (definedOf_spec index faithful holds).2.2 value _ target found given]
  rw [mappedDef, stagedOp_const]
  exact ⟨_, rfl⟩

include faithful holds sound numbered in
theorem names_of_stays (names : Names edge.fragment.body.values value op ordinal)
    (given : (plan.reservedOf edge merge index).landed.ids value = some target)
    (unstaged : (plan.reservedOf edge merge index).staged.ids value = none)
    (unmoved : (plan.reservedOf edge merge index).positions value = none) :
    Names (plan.definedOf edge merge index) target op ordinal := by
  obtain ⟨args, classes, position, bits, constArgs, constClasses, found, first, const, same⟩ := names
  obtain ⟨constArgs', image⟩ := const_lands index faithful holds sound numbered const
  have defined := (definedOf_spec index faithful holds).2.2 value _ target found given
  rw [unstaged, unmoved, mappedDef, stagedOp_none, positioned_none] at defined
  refine ⟨_, classes, _, bits, constArgs', constClasses, defined, ?_, image, same⟩
  rw [List.head?_map, first]
  rfl

variable {moved : Nat}

include faithful holds in
theorem names_of_moved {value constant : ValueId}
    (names : Names edge.fragment.body.values value op ordinal)
    (given : (plan.reservedOf edge merge index).landed.ids value = some target)
    (taken : (plan.reservedOf edge merge index).positions value = some constant)
    (holdsConstant : (plan.definedOf edge merge index)[constant]? =
      some (.instr (.const .int (BitVec.ofNat 64 moved)) [] [.int])) (fits : moved < 2 ^ 64) :
    Names (plan.definedOf edge merge index) target
      (stagedOp ((plan.reservedOf edge merge index).staged.ids value) op) moved := by
  obtain ⟨args, classes, position, bits, constArgs, constClasses, found, first, const, same⟩ := names
  have defined := (definedOf_spec index faithful holds).2.2 value _ target found given
  obtain ⟨head, rest, rfl⟩ : ∃ head rest, args = head :: rest := by
    cases args with
    | nil => cases first
    | cons head rest => exact ⟨head, rest, rfl⟩
  rw [taken] at defined
  refine ⟨constant :: rest.map (plan.splicedOf edge merge index).1.renumber.resolve, classes,
    constant, BitVec.ofNat 64 moved, [], [.int], ?_, rfl, holdsConstant, ?_⟩
  · rw [defined]
    rfl
  · rw [BitVec.toNat_ofNat, Nat.mod_eq_of_lt fits]

/-- What an access of a consumer names in the merged body: the operator and the ordinal. -/
def renamed (plan : MergePlan) (edge : Edge) (merge : Merge) (op : KernelInstr) (ordinal : Nat) :
    KernelInstr × Nat :=
  match op with
  | .bufferReadCall stated =>
    if ordinal % 2 ^ 32 = edge.absorbed then
      (.outputReadCall stated, plan.stagedOrdinal.getD ordinal)
    else (op, clamped (merge.union + ordinal % 2 ^ 32 -
      if edge.absorbed < ordinal % 2 ^ 32 then 1 else 0))
  | .bufferWriteCall _ =>
    (op, if min (merge.outputs + ordinal) (2 ^ 64 - 1) = ordinal then ordinal
      else clamped (min (merge.outputs + ordinal) (2 ^ 64 - 1)))
  | _ => (op, ordinal)

theorem clamped_lt (position : Nat) : clamped position < 2 ^ 64 := by
  unfold clamped
  omega

include sound in
theorem not_staged_of_not_read (other : edge.fragment.body.isBufferRead value = false) :
    (plan.reservedOf edge merge index).staged.ids value = none := by
  rw [← not_isSome_iff_eq_none]
  intro given
  obtain ⟨target, given⟩ := isSome_iff_exists.1 given
  obtain ⟨-, -, member, -⟩ := staged_spec plan edge _ merge given
  exact not_absorbed_of_not_read sound other member

theorem mem_shiftedPositions {reads : List (ValueId × Nat)} {base absorbed : Nat} {read : ValueId} :
    (read, moved) ∈ shiftedPositions reads base absorbed ↔ ∃ position, (read, position) ∈ reads ∧
      position ≠ absorbed ∧
      moved = clamped (base + position - if absorbed < position then 1 else 0) := by
  simp only [shiftedPositions, mem_filterMap]
  constructor
  · rintro ⟨⟨other, position⟩, member, same⟩
    split at same
    · cases same
    · rename_i apart
      cases same
      exact ⟨position, member, apart, rfl⟩
  · rintro ⟨position, member, apart, rfl⟩
    exact ⟨(read, position), member, by rw [if_neg apart]⟩

theorem mem_shiftedWritePositions {consumer : KernelBody} {base : Nat} {write : ValueId} :
    (write, moved) ∈ shiftedWritePositions consumer base ↔
    write ∈ consumer.writeSites ∧ ∃ ordinal, consumer.ordinal write = some ordinal ∧
      min (base + ordinal) (2 ^ 64 - 1) ≠ ordinal ∧
      moved = clamped (min (base + ordinal) (2 ^ 64 - 1)) := by
  simp only [shiftedWritePositions, mem_filterMap]
  constructor
  · rintro ⟨other, member, same⟩
    split at same
    · rename_i ordinal found
      split at same
      · cases same
      · rename_i apart
        cases same
        exact ⟨member, ordinal, found, apart, rfl⟩
    · cases same
  · rintro ⟨member, ordinal, found, apart, rfl⟩
    exact ⟨write, member, by simp only [found, if_neg apart]⟩

include sound in
theorem not_shifted_of_not_read (other : edge.fragment.body.isBufferRead value = false) :
    (plan.reservedOf edge merge index).shifted.ids value = none := by
  rw [← not_isSome_iff_eq_none]
  intro given
  obtain ⟨target, given⟩ := isSome_iff_exists.1 given
  obtain ⟨moved, member, -⟩ := shifted_spec plan edge _ merge given
  obtain ⟨position, member, -⟩ := mem_shiftedPositions.1 member
  obtain ⟨-, read, -⟩ := (mem_bufferReads sound.reads _ _).1 member
  rw [other] at read
  cases read

theorem not_written_of_not_write (other : edge.fragment.body.isBufferWrite value = false) :
    (plan.reservedOf edge merge index).writes.ids value = none := by
  rw [← not_isSome_iff_eq_none]
  intro given
  obtain ⟨target, given⟩ := isSome_iff_exists.1 given
  obtain ⟨moved, member, -⟩ := writes_spec plan edge _ merge given
  have written := (mem_filter.1 (mem_shiftedWritePositions.1 member).1).2
  rw [other] at written
  cases written

include faithful holds in
theorem definedOf_constant {place : Nat} {definition : ValueDef} {values : List ValueDef}
    (given : (plan.reservedOf edge merge index).landed.values.length ≤ place)
    (grows : values <+: (plan.reservedOf edge merge index).writes.values)
    (found : values[place]? = some definition) :
    (plan.definedOf edge merge index)[place]? = some definition :=
  definedOf_other index faithful holds (.inr given)
    (getElem?_of_grows (grows.trans (splicedOf_kept index faithful holds).grows) found)

include faithful holds sound numbered in
theorem other_names (names : Names edge.fragment.body.values value op ordinal)
    (given : (plan.reservedOf edge merge index).landed.ids value = some target)
    (unread : edge.fragment.body.isBufferRead value = false)
    (unwritten : (plan.reservedOf edge merge index).writes.ids value = none) :
    Names (plan.definedOf edge merge index) target op ordinal := by
  have unstaged : (plan.reservedOf edge merge index).staged.ids value = none :=
    not_staged_of_not_read index sound unread
  apply names_of_stays index faithful holds sound numbered names given unstaged
  rw [Reserved.positions, unstaged, not_shifted_of_not_read index sound unread, unwritten]
  rfl

include faithful holds sound numbered in
theorem write_names {stated : ScalarClass} (listed : value ∈ edge.fragment.body.listed)
    (names : Names edge.fragment.body.values value (.bufferWriteCall stated) ordinal)
    (given : (plan.reservedOf edge merge index).landed.ids value = some target) :
    Names (plan.definedOf edge merge index) target (.bufferWriteCall stated)
      (if min (merge.outputs + ordinal) (2 ^ 64 - 1) = ordinal then ordinal
        else clamped (min (merge.outputs + ordinal) (2 ^ 64 - 1))) := by
  have unread : edge.fragment.body.isBufferRead value = false := by
    obtain ⟨args, classes, -, -, -, -, found, -⟩ := names
    simp [isBufferRead, found]
  have written : value ∈ edge.fragment.body.writeSites := by
    obtain ⟨args, classes, -, -, -, -, found, -⟩ := names
    exact mem_filter.2 ⟨listed, by simp [isBufferWrite, found]⟩
  have held : edge.fragment.body.ordinal value = some ordinal :=
    (ordinal_eq_some_iff _ _ _).2 ⟨_, names⟩
  have unstaged : (plan.reservedOf edge merge index).staged.ids value = none :=
    not_staged_of_not_read index sound unread
  have unshifted : (plan.reservedOf edge merge index).shifted.ids value = none :=
    not_shifted_of_not_read index sound unread
  split
  · rename_i stays
    apply other_names index faithful holds sound numbered names given unread
    rw [← not_isSome_iff_eq_none]
    intro moved
    obtain ⟨constant, taken⟩ := isSome_iff_exists.1 moved
    obtain ⟨position, member, -⟩ := writes_spec plan edge _ merge taken
    obtain ⟨-, other, found, apart, -⟩ := mem_shiftedWritePositions.1 member
    rw [held] at found
    cases found
    exact apart stays
  · rename_i moves
    have moved : ((plan.reservedOf edge merge index).writes.ids value).isSome :=
      constants_isSome _
        (mem_shiftedWritePositions.2 ⟨written, ordinal, held, moves, rfl⟩)
    obtain ⟨constant, taken⟩ := isSome_iff_exists.1 moved
    obtain ⟨position, member, found⟩ := writes_spec plan edge _ merge taken
    obtain ⟨-, other, found', -, rfl⟩ := mem_shiftedWritePositions.1 member
    rw [held] at found'
    cases found'
    have lower := (addAll_range _ _ taken).1
    have position : (plan.reservedOf edge merge index).positions value = some constant := by
      rw [Reserved.positions, unstaged, unshifted, taken]
      rfl
    have result := names_of_moved index faithful holds names given position
      (definedOf_constant index faithful holds
        (le_trans (shifted_grows plan edge _ merge).length_le lower) prefix_rfl found)
      (clamped_lt _)
    rwa [unstaged, stagedOp_none] at result

include faithful holds sound in
theorem read_names {stated : ScalarClass}
    (fits : ∀ staged, plan.stagedOrdinal = some staged → staged < 2 ^ 64)
    (listed : value ∈ edge.fragment.body.listed)
    (names : Names edge.fragment.body.values value (.bufferReadCall stated) ordinal)
    (given : (plan.reservedOf edge merge index).landed.ids value = some target) :
    Names (plan.definedOf edge merge index) target
      (plan.renamed edge merge (.bufferReadCall stated) ordinal).1
      (plan.renamed edge merge (.bufferReadCall stated) ordinal).2 := by
  have read : edge.fragment.body.isBufferRead value := by
    obtain ⟨args, classes, -, -, -, -, found, -⟩ := names
    simp [isBufferRead, found]
  have held : edge.fragment.body.ordinal value = some ordinal :=
    (ordinal_eq_some_iff _ _ _).2 ⟨_, names⟩
  have collected : ∀ position, (value, position) ∈ edge.reads ↔ position = ordinal % 2 ^ 32 := by
    intro position
    rw [mem_bufferReads sound.reads]
    constructor
    · rintro ⟨-, -, other, found, rfl⟩
      rw [held] at found
      cases found
      rfl
    · rintro rfl
      exact ⟨listed, read, ordinal, held, rfl⟩
  have absorbed : value ∈ edge.absorbedReads.map Prod.fst ↔
      ordinal % 2 ^ 32 = edge.absorbed := by
    rw [sound.mem_absorbed, collected, eq_comm]
  simp only [renamed]
  split
  · rename_i here
    -- An absorbed read that landed is a staged one: the recomputed path binds it.
    have free := ((landed_isSome_iff plan edge _ merge value).1 (by rw [given]; rfl)).2
    rw [← not_isSome_iff_eq_none, bound_isSome_iff] at free
    cases staged : plan.stagedOrdinal with
    | none => exact absurd (.inr ⟨staged, absorbed.2 here⟩) free
    | some output =>
      obtain ⟨constant, taken⟩ := isSome_iff_exists.1
        (staged_isSome plan edge (plan.bound edge index) merge staged (absorbed.2 here))
      obtain ⟨output', staged', -, found⟩ := staged_spec plan edge _ merge taken
      rw [staged] at staged'
      cases staged'
      have within := (List.getElem?_eq_some_iff.1 found).1
      have position : (plan.reservedOf edge merge index).positions value = some constant := by
        rw [Reserved.positions, taken]
        rfl
      have grows := (landed_grows plan edge (plan.bound edge index) merge).trans
        ((shifted_grows plan edge _ merge).trans ((writes_grows plan edge _ merge).trans
          (splicedOf_kept index faithful holds).grows))
      have result := names_of_moved index faithful holds names given position
        (definedOf_other index faithful holds (.inl within) (getElem?_of_grows grows found))
        (fits output staged)
      rw [taken] at result
      exact result
  · rename_i apart
    have unstaged : (plan.reservedOf edge merge index).staged.ids value = none := by
      rw [← not_isSome_iff_eq_none]
      intro given
      obtain ⟨constant, taken⟩ := isSome_iff_exists.1 given
      obtain ⟨-, -, member, -⟩ := staged_spec plan edge _ merge taken
      exact apart (absorbed.1 member)
    have moved : ((plan.reservedOf edge merge index).shifted.ids value).isSome :=
      constants_isSome _
        (mem_shiftedPositions.2 ⟨_, (collected _).2 rfl, apart, rfl⟩)
    obtain ⟨constant, taken⟩ := isSome_iff_exists.1 moved
    obtain ⟨position, member, found⟩ := shifted_spec plan edge _ merge taken
    obtain ⟨position', kept, -, rfl⟩ := mem_shiftedPositions.1 member
    rw [collected] at kept
    subst kept
    have lower := (addAll_range _ _ taken).1
    have position : (plan.reservedOf edge merge index).positions value = some constant := by
      rw [Reserved.positions, unstaged, taken]
      rfl
    have result := names_of_moved index faithful holds names given position
      (definedOf_constant index faithful holds lower (writes_grows plan edge _ merge) found)
      (clamped_lt _)
    rwa [unstaged, stagedOp_none] at result

include faithful holds sound numbered in
/-- A listed access of a consumer that lands names what `renamed` says. -/
theorem access_lands (fits : ∀ staged, plan.stagedOrdinal = some staged → staged < 2 ^ 64)
    (listed : value ∈ edge.fragment.body.listed)
    (names : Names edge.fragment.body.values value op ordinal)
    (given : (plan.reservedOf edge merge index).landed.ids value = some target) :
    Names (plan.definedOf edge merge index) target (plan.renamed edge merge op ordinal).1
      (plan.renamed edge merge op ordinal).2 := by
  have found := names
  obtain ⟨args, classes, -, -, -, -, found, -⟩ := found
  by_cases read : edge.fragment.body.isBufferRead value
  · obtain ⟨stated, args', classes', found'⟩ := isBufferRead_iff.1 read
    rw [found] at found'
    cases found'
    exact read_names index faithful holds sound fits listed names given
  · by_cases written : edge.fragment.body.isBufferWrite value
    · obtain ⟨stated, args', classes', found'⟩ := isBufferWrite_iff.1 written
      rw [found] at found'
      cases found'
      exact write_names index faithful holds sound numbered listed names given
    · have kept := other_names index faithful holds sound numbered names given
        (by simpa using read) (not_written_of_not_write index (by simpa using written))
      unfold renamed
      split
      · exact absurd (isBufferRead_iff.2 ⟨_, args, classes, found⟩) read
      · exact absurd (isBufferWrite_iff.2 ⟨_, args, classes, found⟩) written
      · exact kept

end Join

end MergePlan

end LichenVm.KernelIr
