import LichenVm.FusedSchema

/-! A fused kernel read back from its artifact. -/

open List Function

namespace LichenVm.KernelIr

open Schema (wide readEach tableId tableIds paramIndex)

section Leaves

@[simp] theorem ScalarClass.toIr_toText (stated : ScalarClass) : stated.toText.toIr = stated := by
  cases stated <;> rfl

@[simp] theorem Space.toIr_toText (space : Space) : space.toText.toIr = space := by
  cases space <;> rfl

@[simp] theorem KernelBin.toIr_toText (op : KernelBin) : op.toText.toIr = op := by
  cases op <;> rfl

theorem map_toIr_toText (classes : List ScalarClass) :
    (classes.map ScalarClass.toText).map Schema.ScalarClass.toIr = classes := by
  simp [comp_def]

theorem map_stated_toIr_toText (classes : List (Option ScalarClass)) :
    (classes.map (Option.map ScalarClass.toText)).map (Option.map Schema.ScalarClass.toIr) = classes := by
  simp [comp_def]

theorem KernelInstr.toIr_toText (here : String) (op : KernelInstr) :
    op.toText.toIr here = .ok op := by
  cases op <;>
    simp [KernelInstr.toText, Schema.KernelInstr.toIr, wide, bind, Except.bind]

mutual

theorem KernelShape.toIr_toText : ∀ shape : KernelShape, shape.toText.toIr = shape
  | .scalar leaf => by rw [KernelShape.toText, Schema.Shape.toIr, ScalarClass.toIr_toText]
  | .tuple items => by rw [KernelShape.toText, Schema.Shape.toIr, KernelShape.toIrs_toTexts]

theorem KernelShape.toIrs_toTexts : ∀ items : List KernelShape,
    Schema.Shape.toIrs (KernelShape.toTexts items) = items
  | [] => rfl
  | item :: items => by
    rw [KernelShape.toTexts, Schema.Shape.toIrs, KernelShape.toIr_toText, KernelShape.toIrs_toTexts]

end

@[simp] theorem Slice.toIr_toText (slice : Slice) : slice.toText.toIr = slice := by
  simp [Slice.toText, Schema.Slice.toIr]

@[simp] theorem MarkField.toIr_toText (field : MarkField) : field.toText.toIr = field := rfl

@[simp] theorem KernelClaim.toIr_toText (claim : KernelClaim) : claim.toText.toIr = claim := rfl

@[simp] theorem Staging.toIr_toText (staging : Staging) : staging.toText.toIr = staging := by
  simp [Staging.toText, Schema.Staging.toIr]

theorem Plan.toIr_toText (plan : Plan) : plan.toText.toIr = plan := by
  simp [Plan.toText, Schema.Plan.toIr, comp_def]

theorem TargetFacts.toIr_toText (here : String) (target : TargetFacts) :
    target.toText.toIr here = .ok target := by
  rfl

end Leaves

def Terminator.named : Terminator → List ValueId
  | .return values => values
  | .br branch => branch.args
  | .condBr cond ifTrue ifFalse => cond :: (ifTrue.args ++ ifFalse.args)

/-- Every value id names a value, and every parameter is listed once in its block, at its index: a `u32`. -/
structure KernelFragment.Consistent (fragment : KernelFragment) : Prop where
  params : ∀ block ∈ fragment.body.blocks, ∀ value ∈ block.params, value < fragment.body.values.length
  instrs : ∀ block ∈ fragment.body.blocks, ∀ value ∈ block.instrs, value < fragment.body.values.length
  terminators : ∀ block ∈ fragment.body.blocks, ∀ value ∈ block.terminator.named,
    value < fragment.body.values.length
  args : ∀ op args classes, ValueDef.instr op args classes ∈ fragment.body.values →
    ∀ value ∈ args, value < fragment.body.values.length
  barriers : ∀ barrier ∈ fragment.body.barriers, barrier.write < fragment.body.values.length ∧
    barrier.read < fragment.body.values.length
  marks : ∀ mark ∈ fragment.marks, mark.value < fragment.body.values.length
  listed : ∀ ordinal block index : Nat, fragment.body.values[ordinal]? = some (.blockParam block index) →
    index < 2 ^ 32 ∧ ∃ basic, fragment.body.blocks[block]? = some basic ∧
      ∀ other : Nat, basic.params[other]? = some ordinal ↔ other = index

section Bodies

variable {table : Nat} {here : String}

theorem tableId_ok {value : ValueId} (inside : value < table) :
    tableId table here value = .ok value :=
  if_neg (not_le.2 inside)

theorem readEach_ok {A B : Type} {read : Nat → A → Except NotAnIrValue B} {write : B → A}
    {place : Nat} {items : List B}
    (each : ∀ index item, items[index]? = some item → read (place + index) (write item) = .ok item) :
    readEach read place (items.map write) = .ok items := by
  induction items generalizing place with
  | nil => rfl
  | cons item items ih =>
    have later : readEach read (place + 1) (items.map write) = .ok items := ih fun index other found => by
      have moved := each (index + 1) other found
      rwa [← add_assoc, add_right_comm] at moved
    have first : read place (write item) = .ok item := each 0 item rfl
    rw [map_cons, readEach, first]
    rw [later]
    rfl

theorem tableIds_ok {values : List ValueId}
    (inside : ∀ value ∈ values, value < table) : tableIds table here values = .ok values := by
  have whole : readEach (fun place value => tableId table s!"{here}[{place}]" value) 0
      (values.map fun value => value) = .ok values :=
    readEach_ok fun index value found => tableId_ok (inside value (mem_of_getElem? found))
  rwa [map_id'] at whole

theorem Br.toIr_toText {branch : Br}
    (inside : ∀ value ∈ branch.args, value < table) : branch.toText.toIr table here = .ok branch := by
  show (tableIds table _ branch.args >>= _) = _
  rw [tableIds_ok inside]
  rfl

theorem Terminator.toIr_toText {terminator : Terminator}
    (inside : ∀ value ∈ terminator.named, value < table) :
    terminator.toText.toIr table here = .ok terminator := by
  cases terminator with
  | «return» values =>
    have inside : ∀ value ∈ values, value < table := inside
    show (tableIds table _ values >>= _) = _
    rw [tableIds_ok inside]
    rfl
  | br branch =>
    show (branch.toText.toIr table _ >>= _) = _
    rw [Br.toIr_toText inside]
    rfl
  | condBr cond ifTrue ifFalse =>
    have onTrue : ∀ value ∈ ifTrue.args, value < table := fun value member =>
      inside value (mem_cons_of_mem _ (mem_append_left _ member))
    have onFalse : ∀ value ∈ ifFalse.args, value < table := fun value member =>
      inside value (mem_cons_of_mem _ (mem_append_right _ member))
    show (tableId table _ cond >>= _) = _
    rw [tableId_ok (inside cond mem_cons_self)]
    rw [Br.toIr_toText onTrue]
    rw [Br.toIr_toText onFalse]
    rfl

theorem BasicBlock.toIr_toText {block : BasicBlock}
    (params : ∀ value ∈ block.params, value < table) (instrs : ∀ value ∈ block.instrs, value < table)
    (terminators : ∀ value ∈ block.terminator.named, value < table) :
    block.toText.toIr table here = .ok block := by
  show (tableIds table _ block.params >>= _) = _
  rw [tableIds_ok params]
  show (tableIds table _ block.instrs >>= _) = _
  rw [tableIds_ok instrs]
  show (block.terminator.toText.toIr table _ >>= _) = _
  rw [Terminator.toIr_toText terminators]
  rfl

variable {ordinal : Nat}

theorem paramIndex_ok {blocks : List BasicBlock} {block index : Nat} {basic : BasicBlock}
    (narrow : index < 2 ^ 32) (found : blocks[block]? = some basic)
    (listed : ∀ other : Nat, basic.params[other]? = some ordinal ↔ other = index) :
    paramIndex blocks ordinal block = .ok index := by
  have first : basic.params.findIdx? (fun value => value = ordinal) = some index := by
    obtain ⟨inside, at_index⟩ := List.getElem?_eq_some_iff.1 ((listed index).2 rfl)
    refine List.findIdx?_eq_some_iff_getElem.2 ⟨inside, ?_, fun other before => ?_⟩
    · simpa using at_index
    · have apart : ¬ basic.params[other]? = some ordinal := fun same =>
        absurd ((listed other).1 same) (ne_of_lt before)
      rw [getElem?_eq_getElem (lt_trans before inside), Option.some.injEq] at apart
      simpa using apart
  rw [paramIndex, found, Option.bind_some, first]
  exact if_pos narrow

theorem ValueDef.toIr_toText {fragment : KernelFragment} (consistent : fragment.Consistent)
    {value : ValueDef} (found : fragment.body.values[ordinal]? = some value) :
    value.toText.toIr fragment.body.values.length fragment.body.blocks ordinal = .ok value := by
  cases value with
  | blockParam block index =>
    obtain ⟨narrow, basic, at_block, listed⟩ := consistent.listed ordinal block index found
    show (paramIndex fragment.body.blocks ordinal block >>= _) = _
    rw [paramIndex_ok narrow at_block listed]
    rfl
  | instr op args classes =>
    have inside := consistent.args op args classes (mem_of_getElem? found)
    show (op.toText.toIr _ >>= _) = _
    rw [KernelInstr.toIr_toText]
    rw [tableIds_ok inside]
    show Except.ok (ValueDef.instr op args _) = _
    rw [map_toIr_toText]

theorem Barrier.toIr_toText {barrier : Barrier}
    (inside : barrier.write < table ∧ barrier.read < table) :
    barrier.toText.toIr table ordinal = .ok barrier := by
  show (tableId table _ barrier.write >>= _) = _
  rw [tableId_ok inside.1]
  show (tableId table _ barrier.read >>= _) = _
  rw [tableId_ok inside.2]
  rfl

theorem KernelMark.toIr_toText {mark : KernelMark} (inside : mark.value < table) :
    mark.toText.toIr table ordinal = .ok mark := by
  show (tableId table _ mark.value >>= _) = _
  rw [tableId_ok inside]
  show Except.ok ({ value := mark.value, payload := _ } : KernelMark) = _
  have payload : (mark.payload.map MarkField.toText).map Schema.MarkField.toIr = mark.payload := by
    simp [comp_def]
  rw [KernelMark.toText, payload]

/-- The kernel with the length of every output left open. -/
def FusedKernel.leftOpen (kernel : FusedKernel) : FusedKernel :=
  { kernel with fragment := { kernel.fragment with roles := { kernel.fragment.roles with
      outputExtents := (List.range kernel.fragment.roles.outputs.length).map fun _ => none } } }

theorem KernelFragment.toIr_toText {fragment : KernelFragment} (consistent : fragment.Consistent) :
    fragment.toText.toIr = .ok { fragment with roles := { fragment.roles with
      outputExtents := (List.range fragment.roles.outputs.length).map fun _ => none } } := by
  have table : fragment.toText.body.values.length = fragment.body.values.length :=
    length_map _
  have blocks : readEach (fun ordinal block => Schema.BasicBlock.toIr fragment.body.values.length
      s!"fragment.body.blocks[{ordinal}]" block) 0 (fragment.body.blocks.map BasicBlock.toText) =
      .ok fragment.body.blocks :=
    readEach_ok fun index block found =>
      have member := mem_of_getElem? found
      BasicBlock.toIr_toText (consistent.params block member) (consistent.instrs block member)
        (consistent.terminators block member)
  have values : readEach (fun ordinal entry => Schema.ValueDef.toIr fragment.body.values.length
      fragment.body.blocks ordinal entry) 0 (fragment.body.values.map ValueDef.toText) =
      .ok fragment.body.values :=
    readEach_ok fun index value found => by
      rw [zero_add]
      exact ValueDef.toIr_toText consistent found
  have barriers : readEach (fun ordinal barrier => Schema.Barrier.toIr fragment.body.values.length
      ordinal barrier) 0 (fragment.body.barriers.map Barrier.toText) = .ok fragment.body.barriers :=
    readEach_ok fun index barrier found =>
      Barrier.toIr_toText (consistent.barriers barrier (mem_of_getElem? found))
  have marks : readEach (fun ordinal mark => Schema.Mark.toIr fragment.body.values.length ordinal mark) 0
      (fragment.marks.map KernelMark.toText) = .ok fragment.marks :=
    readEach_ok fun index mark found =>
      KernelMark.toIr_toText (consistent.marks mark (mem_of_getElem? found))
  unfold Schema.Fragment.toIr
  rw [table]
  show (readEach _ 0 (fragment.body.blocks.map BasicBlock.toText) >>= _) = _
  rw [blocks]
  show (readEach _ 0 (fragment.body.values.map ValueDef.toText) >>= _) = _
  rw [values]
  show (readEach _ 0 (fragment.body.barriers.map Barrier.toText) >>= _) = _
  rw [barriers]
  show (readEach _ 0 (fragment.marks.map KernelMark.toText) >>= _) = _
  rw [marks]
  have slices : (fragment.slices.map Slice.toText).map Schema.Slice.toIr = fragment.slices := by
    simp [comp_def]
  simp only [KernelFragment.toText, KernelRoles.toText, Schema.Roles.toIr, KernelBody.toText,
    KernelShape.toIr_toText, map_toIr_toText, map_stated_toIr_toText, slices]
  rfl

end Bodies

/-- A fused kernel reads back from its artifact with every output's length left open, and so as itself
exactly when it declares none. -/
theorem fused_kernel_reads_back {kernel : FusedKernel} (consistent : kernel.fragment.Consistent) :
    kernel.toText.toIr = .ok kernel.leftOpen ∧
      (kernel.toText.toIr = .ok kernel ↔ kernel.fragment.roles.outputExtents =
        List.replicate kernel.fragment.roles.outputs.length none) := by
  have reads : kernel.toText.toIr = .ok kernel.leftOpen := by
    have claim : (kernel.claim.map KernelClaim.toText).map Schema.Claim.toIr = kernel.claim := by
      cases kernel.claim <;> rfl
    show (kernel.fragment.toText.toIr >>= _) = _
    rw [KernelFragment.toIr_toText consistent]
    show Except.ok ({ fragment := _, claim := _, plan := kernel.plan.toText.toIr } : FusedKernel) = _
    rw [Plan.toIr_toText]
    show Except.ok ({ fragment := _
                      claim := (kernel.claim.map KernelClaim.toText).map Schema.Claim.toIr
                      plan := kernel.plan } : FusedKernel) = _
    rw [claim]
    rfl
  have open_lengths : (List.range kernel.fragment.roles.outputs.length).map (fun _ => (none : Option Nat)) =
      List.replicate kernel.fragment.roles.outputs.length none := by
    rw [map_const', length_range]
  refine ⟨reads, ?_⟩
  rw [reads, ← open_lengths]
  constructor
  · intro same
    exact (congrArg (fun kernel : FusedKernel => kernel.fragment.roles.outputExtents)
      (Except.ok.inj same)).symm
  · intro undeclared
    obtain ⟨fragment, claim, plan⟩ := kernel
    obtain ⟨shape, roles, body, inputs, outputs, inputClasses, outputClasses, resultClasses, target,
      slices, marks⟩ := fragment
    obtain ⟨extents, scalars, ins, outs, inStated, outStated⟩ := roles
    have undeclared : extents = (List.range outs.length).map fun _ => none := undeclared
    rw [undeclared]
    rfl

/-- A kernel that writes its index to one output, of a declared length or of its launch's. -/
def indexKernel (declared : Option Nat) : FusedKernel where
  fragment :=
    { paramShape := .tuple [.scalar .int, .scalar .int]
      roles := { outputExtents := [declared], outputs := [[0, 1]], outputClasses := [some .int] }
      body :=
        { values := [.blockParam 0 0, .blockParam 0 1, .instr (.const .int 0) [] [.int],
            .instr (.bufferWriteCall .int) [2, 1, 1] []]
          blocks := [{ params := [0, 1], instrs := [2, 3], terminator := .return [] }]
          entry := 0 }
      inputs := 0
      outputs := 1
      inputClasses := []
      outputClasses := [.int]
      resultClasses := []
      target := { intWidth := .i64, laneWidth := 64, laneHeight := 1 } }
  claim := none
  plan := {}

theorem indexKernel_consistent (declared : Option Nat) :
    (indexKernel declared).fragment.Consistent := by
  have count : (indexKernel declared).fragment.body.values.length = 4 := rfl
  refine ⟨?_, ?_, ?_, fun op args classes member => ?_, fun barrier member => ?_,
    fun mark member => ?_, fun ordinal block index found => ?_⟩
  · rw [count]
    exact (by decide : ∀ block ∈ [BasicBlock.mk [0, 1] [2, 3] (.return [])], ∀ value ∈ block.params, value < 4)
  · rw [count]
    exact (by decide : ∀ block ∈ [BasicBlock.mk [0, 1] [2, 3] (.return [])], ∀ value ∈ block.instrs, value < 4)
  · rw [count]
    exact (by decide : ∀ block ∈ [BasicBlock.mk [0, 1] [2, 3] (.return [])],
      ∀ value ∈ block.terminator.named, value < 4)
  · rw [count]
    simp only [indexKernel, mem_cons, not_mem_nil, or_false, reduceCtorEq, false_or,
      ValueDef.instr.injEq] at member
    rcases member with ⟨-, rfl, -⟩ | ⟨-, rfl, -⟩
    · exact (by decide : ∀ value ∈ ([] : List ValueId), value < 4)
    · exact (by decide : ∀ value ∈ ([2, 1, 1] : List ValueId), value < 4)
  · cases member
  · cases member
  · have once : ∀ place : Nat, place < 2 → ∀ other : Nat,
        ([0, 1] : List ValueId)[other]? = some place ↔ other = place := by
      intro place inside other
      rcases other with _ | _ | other <;> simp <;> omega
    rcases ordinal with _ | _ | _ | _ | ordinal
    · obtain ⟨rfl, rfl⟩ := ValueDef.blockParam.inj (Option.some.inj found)
      exact ⟨by decide, _, rfl, once 0 (by decide)⟩
    · obtain ⟨rfl, rfl⟩ := ValueDef.blockParam.inj (Option.some.inj found)
      exact ⟨by decide, _, rfl, once 1 (by decide)⟩
    · cases found
    · cases found
    · cases found

/-- A kernel whose output is as long as its launch reads back as itself. -/
theorem fused_kernel_reads_back_undeclared :
    (indexKernel none).toText.toIr = .ok (indexKernel none) :=
  (fused_kernel_reads_back (indexKernel_consistent none)).2.2 rfl

/-- An output that declares eight elements reads back without a length. -/
theorem declared_length_is_dropped : ∃ back, (indexKernel (some 8)).fragment.Consistent ∧
    (indexKernel (some 8)).toText.toIr = .ok back ∧ back.fragment.roles.outputExtents = [none] ∧
        (indexKernel (some 8)).fragment.roles.outputExtents = [some 8] :=
  ⟨_, indexKernel_consistent _, rfl, rfl, rfl⟩

end LichenVm.KernelIr
