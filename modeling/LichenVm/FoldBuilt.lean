import LichenVm.TiledFold
import Mathlib.Data.List.Infix

open List

namespace LichenVm.KernelIr.KernelBody

def owned (body : KernelBody) (block : Nat) : List ValueId :=
  (body.block block).params ++ (body.block block).instrs

/-- A body as a builder lays it out: each value is numbered after what it reads and what its block
bound before it, and is bound by one block. -/
structure Laid (body : KernelBody) : Prop where
  sorted : ∀ block, (body.owned block).Pairwise (· < ·)
  home : ∀ block other value, value ∈ body.owned block → value ∈ body.owned other → block = other
  within : ∀ block, ∀ value ∈ body.owned block, value < body.values.length
  earlier : ∀ (value : Nat) op args classes,
    body.values[value]? = some (.instr op args classes) → ∀ arg ∈ args, arg < value

/-- A block lists a value defined as an operator over operands. -/
def Lists (body : KernelBody) (block : Nat) (value : ValueId) (op : KernelInstr)
    (args : List ValueId) : Prop :=
  value ∈ (body.block block).instrs ∧ ∃ classes, body.values[value]? = some (.instr op args classes)

/-- A body grown from another: only the listed blocks list more, only the entered ones receive
more, and only the closed ones leave another way. -/
structure Grows (listed entered closed : List Nat) (before after : KernelBody) : Prop where
  values : before.values <+: after.values
  blocks : before.blocks.length ≤ after.blocks.length
  entry : after.entry = before.entry
  instrs : ∀ block < before.blocks.length, (before.block block).instrs ⊆ (after.block block).instrs
  kept : ∀ block < before.blocks.length, block ∉ listed →
    (after.block block).instrs = (before.block block).instrs
  params : ∀ block < before.blocks.length, block ∉ entered →
    (after.block block).params = (before.block block).params
  left : ∀ block < before.blocks.length, block ∉ closed →
    (after.block block).terminator = (before.block block).terminator

theorem Grows.refl (body : KernelBody) : Grows [] [] [] body body :=
  ⟨prefix_refl _, le_refl _, rfl, fun _ _ => List.Subset.refl _, fun _ _ _ => rfl,
    fun _ _ _ => rfl, fun _ _ _ => rfl⟩

variable {listed entered closed : List Nat} {before after : KernelBody}

variable {listed' entered' closed' : List Nat}

theorem Grows.trans {middle : KernelBody} (first : Grows listed entered closed before middle)
    (second : Grows listed' entered' closed' middle after) :
    Grows (listed ++ listed') (entered ++ entered') (closed ++ closed') before after := by
  have reach : ∀ block, block < before.blocks.length → block < middle.blocks.length :=
    fun _ inside => lt_of_lt_of_le inside first.blocks
  refine ⟨first.values.trans second.values, le_trans first.blocks second.blocks,
    second.entry.trans first.entry, ?_, ?_, ?_, ?_⟩
  · intro block inside
    exact List.Subset.trans (first.instrs block inside) (second.instrs block (reach _ inside))
  · intro block inside outside
    simp only [mem_append, not_or] at outside
    exact (second.kept block (reach _ inside) outside.2).trans (first.kept block inside outside.1)
  · intro block inside outside
    simp only [mem_append, not_or] at outside
    exact (second.params block (reach _ inside) outside.2).trans
      (first.params block inside outside.1)
  · intro block inside outside
    simp only [mem_append, not_or] at outside
    exact (second.left block (reach _ inside) outside.2).trans (first.left block inside outside.1)

theorem Grows.within (grows : Grows listed entered closed before after) (lists : listed ⊆ listed')
    (enters : entered ⊆ entered') (closes : closed ⊆ closed') :
    Grows listed' entered' closed' before after :=
  ⟨grows.values, grows.blocks, grows.entry, grows.instrs,
    fun block inside outside => grows.kept block inside fun member => outside (lists member),
    fun block inside outside => grows.params block inside fun member => outside (enters member),
    fun block inside outside => grows.left block inside fun member => outside (closes member)⟩

variable {block : Nat} {value : ValueId} {body : KernelBody}

theorem block_of_instr (member : value ∈ (body.block block).instrs) :
    block < body.blocks.length := by
  by_contra outside
  unfold KernelBody.block at member
  rw [getD_eq_getElem?_getD, getElem?_eq_none (Nat.le_of_not_lt outside)] at member
  cases member

variable {op : KernelInstr} {args : List ValueId}

theorem Lists.grows
    (grows : Grows listed entered closed before after) (lists : before.Lists block value op args) :
    after.Lists block value op args := by
  obtain ⟨member, classes, found⟩ := lists
  refine ⟨grows.instrs block (block_of_instr member) member, classes, ?_⟩
  obtain ⟨inside, same⟩ := List.getElem?_eq_some_iff.1 found
  rw [prefix_iff_getElem?.1 grows.values value inside, same]

theorem Lists.lt (lists : body.Lists block value op args) : value < body.values.length := by
  obtain ⟨-, classes, found⟩ := lists
  exact (List.getElem?_eq_some_iff.1 found).1

variable {at_ : Nat}

theorem block_modify {blocks : List BasicBlock} {values : List ValueDef} {entry : Nat}
    {exact_ : Bool} {barriers : List Barrier} {change : BasicBlock → BasicBlock}
    (inside : at_ < blocks.length) (block : Nat) :
    KernelBody.block ⟨values, blocks.modify at_ change, entry, exact_, barriers⟩ block =
      if block = at_ then change (KernelBody.block ⟨values, blocks, entry, exact_, barriers⟩ block)
      else KernelBody.block ⟨values, blocks, entry, exact_, barriers⟩ block := by
  unfold KernelBody.block
  by_cases same : block = at_
  · subst same
    simp [getElem?_eq_getElem inside]
  · simp [same, Ne.symm same]

theorem addBlock_block (body : KernelBody) (block : Nat) :
    body.addBlock.2.block block = body.block block := by
  unfold addBlock KernelBody.block
  simp only [getD_eq_getElem?_getD]
  rcases Nat.lt_trichotomy block body.blocks.length with before | rfl | after
  · rw [getElem?_append_left before]
  · rw [getElem?_concat_length, getElem?_eq_none (le_refl _)]
    rfl
  · have absent : (body.blocks ++ [⟨[], [], .return []⟩])[block]? = none :=
      getElem?_eq_none (by rw [length_append, length_singleton]; omega)
    rw [absent, getElem?_eq_none (le_of_lt after)]

section Modify

variable {body : KernelBody} {at_ : Nat} (inside : at_ < body.blocks.length)

include inside

theorem addParam_block (block : Nat) : (body.addParam at_).2.block block = if block = at_ then
      { body.block block with params := (body.block block).params ++ [body.values.length] }
    else body.block block :=
  block_modify inside block

theorem addOp_block (op : KernelInstr) (args : List ValueId) (classes : List ScalarClass)
    (block : Nat) :
    (body.addOp at_ op args classes).2.block block = if block = at_ then
      { body.block block with instrs := (body.block block).instrs ++ [body.values.length] }
    else body.block block :=
  block_modify inside block

theorem setTerminator_block (terminator : Terminator) (block : Nat) :
    (body.setTerminator at_ terminator).block block = if block = at_ then
      { body.block block with terminator := terminator } else body.block block :=
  block_modify inside block

end Modify

/-- A fresh value bound last in a block keeps a body laid out. -/
theorem Laid.extend {definition : ValueDef} (laid : before.Laid)
    (at_ : Nat) (values : after.values = before.values ++ [definition])
    (owned : ∀ block, after.owned block =
      if block = at_ then before.owned block ++ [before.values.length] else before.owned block)
    (earlier : ∀ op args classes, definition = .instr op args classes →
      ∀ arg ∈ args, arg < before.values.length) : after.Laid := by
  have cases_ : ∀ block value, value ∈ after.owned block →
      value ∈ before.owned block ∨ block = at_ ∧ value = before.values.length := by
    intro block value member
    rw [owned] at member
    split at member
    · rename_i same
      rcases mem_append.1 member with old | fresh
      · exact .inl old
      · exact .inr ⟨same, mem_singleton.1 fresh⟩
    · exact .inl member
  refine ⟨?_, ?_, ?_, ?_⟩
  · intro block
    rw [owned]
    split
    · rw [pairwise_append]
      refine ⟨laid.sorted block, pairwise_singleton _ _, ?_⟩
      intro value member fresh last
      rw [mem_singleton.1 last]
      exact laid.within block value member
    · exact laid.sorted block
  · intro block other value here there
    rcases cases_ block value here with here | ⟨rfl, rfl⟩
    · rcases cases_ other value there with there | ⟨rfl, rfl⟩
      · exact laid.home block other value here there
      · exact absurd (laid.within block _ here) (lt_irrefl _)
    · rcases cases_ other _ there with there | ⟨same, -⟩
      · exact absurd (laid.within other _ there) (lt_irrefl _)
      · exact same.symm
  · intro block value member
    rw [values, length_append, length_singleton]
    rcases cases_ block value member with old | ⟨-, rfl⟩
    · exact Nat.lt_succ_of_lt (laid.within block value old)
    · exact Nat.lt_succ_self _
  · intro value op args classes found arg member
    rw [values] at found
    by_cases old : value < before.values.length
    · rw [getElem?_append_left old] at found
      exact laid.earlier value op args classes found arg member
    · have last : value = before.values.length := by
        have inside := (List.getElem?_eq_some_iff.1 found).1
        rw [length_append, length_singleton] at inside
        omega
      subst last
      rw [getElem?_concat_length] at found
      exact earlier op args classes (Option.some.inj found) arg member

theorem Laid.same (laid : before.Laid)
    (values : after.values = before.values) (owned : ∀ block, after.owned block = before.owned block) :
    after.Laid := by
  refine ⟨?_, ?_, ?_, ?_⟩
  · intro block
    rw [owned]
    exact laid.sorted block
  · intro block other value here there
    rw [owned] at here there
    exact laid.home block other value here there
  · intro block value member
    rw [owned] at member
    rw [values]
    exact laid.within block value member
  · intro value op args classes found
    rw [values] at found
    exact laid.earlier value op args classes found

section

variable (laid : body.Laid)

include laid

theorem Laid.addBlock : body.addBlock.2.Laid := by
  refine laid.same rfl fun block => ?_
  unfold owned
  rw [addBlock_block]

section

variable (inside : at_ < body.blocks.length)

include inside

theorem Laid.setTerminator (terminator : Terminator) :
    (body.setTerminator at_ terminator).Laid := by
  refine laid.same rfl fun block => ?_
  unfold owned
  rw [setTerminator_block inside]
  split <;> rfl

theorem Laid.addOp (within : ∀ arg ∈ args, arg < body.values.length) (classes : List ScalarClass) :
    (body.addOp at_ op args classes).2.Laid := by
  refine laid.extend at_ rfl (fun block => ?_) ?_
  · unfold owned
    rw [addOp_block inside]
    split
    · exact (append_assoc ..).symm
    · rfl
  · rintro _ _ _ ⟨⟩
    exact within

theorem Laid.addParam (empty : (body.block at_).instrs = []) : (body.addParam at_).2.Laid := by
  refine laid.extend at_ rfl (fun block => ?_) ?_
  · unfold owned
    rw [addParam_block inside]
    split
    · rename_i same
      subst same
      rw [empty, append_nil, append_nil]
    · rfl
  · rintro _ _ _ ⟨⟩

end

end

theorem Grows.addBlock (body : KernelBody) : Grows [] [] [] body body.addBlock.2 := by
  have same := addBlock_block body
  refine ⟨prefix_refl _, ?_, rfl, ?_, ?_, ?_, ?_⟩
  · exact (prefix_append body.blocks _).length_le
  · intro block _
    rw [same]
    exact List.Subset.refl _
  · intro block _ _
    rw [same]
  · intro block _ _
    rw [same]
  · intro block _ _
    rw [same]

section

variable (inside : at_ < body.blocks.length)

include inside

theorem Grows.setTerminator (terminator : Terminator) :
    Grows [] [] [at_] body (body.setTerminator at_ terminator) := by
  have changed := setTerminator_block inside terminator
  refine ⟨prefix_refl _, ?_, rfl, ?_, ?_, ?_, ?_⟩
  · exact le_of_eq (length_modify ..).symm
  · intro block _
    rw [changed]
    split <;> exact List.Subset.refl _
  · intro block _ _
    rw [changed]
    split <;> rfl
  · intro block _ _
    rw [changed]
    split <;> rfl
  · intro block _ outside
    rw [changed, if_neg fun same => outside (mem_singleton.2 same)]

theorem Grows.addOp (op : KernelInstr) (args : List ValueId) (classes : List ScalarClass) :
    Grows [at_] [] [] body (body.addOp at_ op args classes).2 := by
  have changed := addOp_block inside op args classes
  refine ⟨prefix_append _ _, ?_, rfl, ?_, ?_, ?_, ?_⟩
  · exact le_of_eq (length_modify ..).symm
  · intro block _
    rw [changed]
    split
    · exact subset_append_left _ _
    · exact List.Subset.refl _
  · intro block _ outside
    rw [changed, if_neg fun same => outside (mem_singleton.2 same)]
  · intro block _ _
    rw [changed]
    split <;> rfl
  · intro block _ _
    rw [changed]
    split <;> rfl

theorem Grows.addParam : Grows [] [at_] [] body (body.addParam at_).2 := by
  have changed := addParam_block inside
  refine ⟨prefix_append _ _, ?_, rfl, ?_, ?_, ?_, ?_⟩
  · exact le_of_eq (length_modify ..).symm
  · intro block _
    rw [changed]
    split <;> exact List.Subset.refl _
  · intro block _ _
    rw [changed]
    split <;> rfl
  · intro block _ outside
    rw [changed, if_neg fun same => outside (mem_singleton.2 same)]
  · intro block _ _
    rw [changed]
    split <;> rfl

theorem addOp_lists (op : KernelInstr) (args : List ValueId) (classes : List ScalarClass) :
    (body.addOp at_ op args classes).2.Lists at_ body.values.length op args := by
  refine ⟨?_, classes, ?_⟩
  · rw [addOp_block inside, if_pos rfl]
    exact mem_append_right _ (mem_singleton.2 rfl)
  · exact getElem?_concat_length

end

end LichenVm.KernelIr.KernelBody

namespace LichenVm.FusionBridge

open KernelIr Builder

theorem bind_run {α β : Type} {first : Build α} {then_ : α → Build β} {builder after : Builder}
    {value : α} (ran : first builder = (value, after)) :
    (first >>= then_) builder = then_ value after := by
  show (fun pair : α × Builder => then_ pair.1 pair.2) (first builder) = _
  rw [ran]

/-- What holds of a builder at every step: its body is laid out, its entry lists the constants it
remembers, and a block lists only the instructions that may act there. -/
structure Building (allowed : Nat → KernelInstr → Prop) (builder : Builder) : Prop where
  laid : builder.body.Laid
  entry : builder.body.entry = 0
  entered : 0 < builder.body.blocks.length
  stated : ∀ key value, builder.constants.lookup key = some value →
    builder.body.Lists 0 value (.const key.1 key.2) []
  acts : ∀ block value op args, builder.body.Lists block value op args → op.acts = true →
    allowed block op

/-- A builder that went on in the block it was in. -/
structure Goes (listed entered closed : List Nat) (before after : Builder) : Prop where
  grows : KernelBody.Grows listed entered closed before.body after.body
  block : after.block = before.block
  stated : after.stated = before.stated

section Specs

open KernelBody (Grows addOp_block addOp_lists)

variable {allowed : Nat → KernelInstr → Prop} {builder : Builder}

theorem Goes.refl (builder : Builder) : Goes [] [] [] builder builder :=
  ⟨.refl _, rfl, rfl⟩

variable {listed entered closed : List Nat} {listed' entered' closed' : List Nat}

theorem Goes.trans {before middle after : Builder}
    (first : Goes listed entered closed before middle)
    (second : Goes listed' entered' closed' middle after) :
    Goes (listed ++ listed') (entered ++ entered') (closed ++ closed') before after :=
  ⟨first.grows.trans second.grows, second.block.trans first.block, second.stated.trans first.stated⟩

theorem Goes.within {before after : Builder} (goes : Goes listed entered closed before after)
    (lists : listed ⊆ listed') (enters : entered ⊆ entered') (closes : closed ⊆ closed') :
    Goes listed' entered' closed' before after :=
  ⟨goes.grows.within lists enters closes, goes.block, goes.stated⟩

theorem lists_addOp {body : KernelBody} (laid : body.Laid) {at_ : Nat}
    (inside : at_ < body.blocks.length) {op : KernelInstr} {args : List ValueId}
    {classes : List ScalarClass} {block : Nat} {value : ValueId} {found : KernelInstr}
    {reads : List ValueId} (lists : (body.addOp at_ op args classes).2.Lists block value found reads) :
    body.Lists block value found reads ∨ block = at_ ∧ found = op := by
  obtain ⟨member, stated, defined⟩ := lists
  rw [addOp_block inside] at member
  have old : value ∈ (body.block block).instrs → body.Lists block value found reads := by
    intro member
    have within := laid.within block value (mem_append_right _ member)
    refine ⟨member, stated, ?_⟩
    rwa [show (body.addOp at_ op args classes).2.values = body.values ++ [.instr op args classes]
      from rfl, getElem?_append_left within] at defined
  split at member
  · rename_i same
    rcases mem_append.1 member with member | last
    · exact .inl (old member)
    · rw [mem_singleton.1 last] at defined
      have whole := getElem?_concat_length.symm.trans defined
      cases Option.some.inj whole
      exact .inr ⟨same, rfl⟩
  · exact .inl (old member)

theorem push_spec (building : Building allowed builder) {at_ : Nat}
    (inside : at_ < builder.body.blocks.length) (op : KernelInstr) (args : List ValueId)
    (within : ∀ arg ∈ args, arg < builder.body.values.length)
    (may : op.acts → allowed at_ op) :
    ∃ value after, push at_ op args builder = (value, after) ∧ Building allowed after ∧
      Goes [at_] [] [] builder after ∧ after.body.Lists at_ value op args ∧
      (after.body.block at_).instrs = (builder.body.block at_).instrs ++ [value] ∧
      after.body.blocks.length = builder.body.blocks.length := by
  refine ⟨_, _, rfl, ?_, ⟨.addOp inside .., rfl, rfl⟩, addOp_lists inside .., ?_, ?_⟩
  · refine ⟨building.laid.addOp inside within _, building.entry, ?_, ?_, ?_⟩
    · exact Nat.lt_of_lt_of_eq building.entered (length_modify ..).symm
    · intro key value found
      exact (building.stated key value found).grows (.addOp inside ..)
    · intro block value found reads lists acts
      rcases lists_addOp building.laid inside lists with old | ⟨rfl, rfl⟩
      · exact building.acts block value found reads old acts
      · exact may acts
  · show ((builder.body.addOp at_ op args _).2.block at_).instrs = _
    rw [addOp_block inside, if_pos rfl]
    rfl
  · exact length_modify ..

theorem constant_spec (building : Building allowed builder) (stated : ScalarClass)
    (bits : BitVec 64) :
    ∃ value after, constant stated bits builder = (value, after) ∧ Building allowed after ∧
      Goes [0] [] [] builder after ∧ after.body.Lists 0 value (.const stated bits) [] ∧
      after.body.blocks.length = builder.body.blocks.length := by
  unfold constant
  split
  · rename_i value found
    refine ⟨value, builder, rfl, building, ?_, building.stated _ _ found, rfl⟩
    exact (Goes.refl builder).within (nil_subset _) (nil_subset _) (nil_subset _)
  · have inside : builder.body.entry < builder.body.blocks.length := by
      rw [building.entry]
      exact building.entered
    have home : ∀ block, block = builder.body.entry →
        (builder.body.addConst builder.body.entry stated bits).2.Lists block
          builder.body.values.length (.const stated bits) [] := by
      rintro _ rfl
      exact addOp_lists inside (.const stated bits) [] [stated]
    have lists := home 0 building.entry.symm
    have grows := Grows.addOp inside (.const stated bits) [] [stated]
    refine ⟨_, _, rfl, ?_, ⟨?_, rfl, rfl⟩, ?_, length_modify ..⟩
    · refine ⟨building.laid.addOp inside (fun arg member => absurd member not_mem_nil) _,
        building.entry, ?_, ?_, ?_⟩
      · exact Nat.lt_of_lt_of_eq building.entered (length_modify ..).symm
      · intro key value found
        by_cases same : key = (stated, bits)
        · subst same
          rw [lookup_cons_self] at found
          cases found
          exact lists
        · rw [lookup_cons, beq_eq_false_iff_ne.2 same] at found
          exact (building.stated key value found).grows grows
      · intro block value found reads listed acts
        rcases lists_addOp building.laid inside listed with old | ⟨-, rfl⟩
        · exact building.acts block value found reads old acts
        · cases acts
    · rw [← building.entry]
      exact grows
    · exact lists

theorem lists_same {before after : KernelBody} (laid : before.Laid)
    (values : before.values <+: after.values)
    (instrs : ∀ block, (after.block block).instrs = (before.block block).instrs) {block : Nat}
    {value : ValueId} {op : KernelInstr} {args : List ValueId}
    (lists : after.Lists block value op args) : before.Lists block value op args := by
  obtain ⟨member, stated, defined⟩ := lists
  rw [instrs] at member
  refine ⟨member, stated, ?_⟩
  have within := laid.within block value (mem_append_right _ member)
  rw [prefix_iff_getElem?.1 values value within] at defined
  rw [getElem?_eq_getElem within, Option.some.inj defined]

section

variable (building : Building allowed builder)

include building

theorem Building.same {body : KernelBody} (grows : Grows listed entered closed builder.body body)
    (laid : body.Laid)
    (instrs : ∀ block, (body.block block).instrs = (builder.body.block block).instrs) :
    Building allowed { builder with body := body } := by
  refine ⟨laid, grows.entry.trans building.entry,
    lt_of_lt_of_le building.entered grows.blocks, ?_, ?_⟩
  · exact fun key value found => (building.stated key value found).grows grows
  · exact fun block value op args lists =>
      building.acts block value op args (lists_same building.laid grows.values instrs lists)

theorem Building.enter (block : Nat) : Building allowed { builder with block := block } :=
  ⟨building.laid, building.entry, building.entered, building.stated, building.acts⟩

theorem addBlock_spec :
    ∃ after, Builder.addBlock builder = (builder.body.blocks.length, after) ∧
      Building allowed after ∧ Goes [] [] [] builder after ∧
      after.body.blocks.length = builder.body.blocks.length + 1 ∧
      after.body.block builder.body.blocks.length = ⟨[], [], .return []⟩ := by
  refine ⟨_, rfl, ?_, ⟨.addBlock _, rfl, rfl⟩, ?_, ?_⟩
  · refine building.same (.addBlock _) building.laid.addBlock fun block => ?_
    rw [KernelBody.addBlock_block]
  · exact length_append
  · show builder.body.addBlock.2.block _ = _
    rw [KernelBody.addBlock_block]
    unfold KernelBody.block
    rw [getD_eq_getElem?_getD, getElem?_eq_none (le_refl _)]
    rfl

section

variable (at_ : Nat) (inside : at_ < builder.body.blocks.length)

include at_ inside

theorem addParam_spec (empty : (builder.body.block at_).instrs = []) :
    ∃ value after, Builder.addParam at_ builder = (value, after) ∧ Building allowed after ∧
      Goes [] [at_] [] builder after ∧
      (after.body.block at_).params = (builder.body.block at_).params ++ [value] ∧
      (after.body.block at_).instrs = [] ∧ value < after.body.values.length ∧
      after.body.blocks.length = builder.body.blocks.length := by
  have changed := KernelBody.addParam_block inside
  refine ⟨_, _, rfl, ?_, ⟨.addParam inside, rfl, rfl⟩, ?_, ?_, ?_, length_modify ..⟩
  · refine building.same (.addParam inside) (building.laid.addParam inside empty) fun block => ?_
    rw [changed]
    split <;> rfl
  · show ((builder.body.addParam at_).2.block at_).params = _
    rw [changed, if_pos rfl]
    rfl
  · show ((builder.body.addParam at_).2.block at_).instrs = _
    rw [changed, if_pos rfl]
    exact empty
  · show builder.body.values.length < (builder.body.values ++ _).length
    rw [length_append, length_singleton]
    exact Nat.lt_succ_self _

theorem setTerminator_spec (terminator : Terminator) :
    ∃ after, Builder.setTerminator at_ terminator builder = ((), after) ∧ Building allowed after ∧
      Goes [] [] [at_] builder after ∧ (after.body.block at_).terminator = terminator ∧
      after.body.blocks.length = builder.body.blocks.length := by
  have changed := KernelBody.setTerminator_block inside terminator
  refine ⟨_, rfl, ?_, ⟨.setTerminator inside _, rfl, rfl⟩, ?_, length_modify ..⟩
  · refine building.same (.setTerminator inside _) (building.laid.setTerminator inside _)
      fun block => ?_
    rw [changed]
    split <;> rfl
  · show ((builder.body.setTerminator at_ terminator).block at_).terminator = _
    rw [changed, if_pos rfl]

end

end

end Specs

end LichenVm.FusionBridge
