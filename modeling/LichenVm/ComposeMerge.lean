import LichenVm.ComposeJoin

open List Option

namespace LichenVm.KernelIr

open KernelBody

namespace MergePlan

section Place

variable {plan : MergePlan} {edge : Edge} {merge : Merge} (index : Nat)
  (faithful : plan.cone.Faithful plan.producer.body)
  (holds : Holds merge.body.values plan.producer.body)
  (sound : edge.Sound) (numbered : edge.fragment.body.Numbered)

abbrev placedOf (plan : MergePlan) (edge : Edge) (merge : Merge) (index : Nat) : List BasicBlock :=
  plan.place edge merge.blocksBase (plan.splicedOf edge merge index).1.renumber.resolve
    (plan.splicedOf edge merge index).2 merge.body.blocks

include faithful holds in
/-- Each block's sequence lists every instruction of the block no copy answers. -/
theorem splicedOf_lists : (plan.splicedOf edge merge index).2.length =
      edge.fragment.body.blocks.length ∧
    ∀ (place : Nat) (block : BasicBlock) (sequence : List ValueId),
      edge.fragment.body.blocks[place]? = some block →
      (plan.splicedOf edge merge index).2[place]? = some sequence →
      ∀ value ∈ block.instrs,
        (plan.context edge (plan.reservedOf edge merge index)).addresses value = none →
        (plan.splicedOf edge merge index).1.renumber.resolve value ∈ sequence := by
  have start : (plan.context edge (plan.reservedOf edge merge index)).Kept
      (plan.reservedOf edge merge index).writes.values
      { plan.bound edge index with landed := (plan.reservedOf edge merge index).landed.ids }
      { values := (plan.reservedOf edge merge index).writes.values
        renumber := { plan.bound edge index with
          landed := (plan.reservedOf edge merge index).landed.ids } } :=
    ⟨prefix_rfl, rfl, fun _ _ => rfl, fun _ _ member => by cases member⟩
  obtain ⟨-, rest, same, count, each⟩ := SpliceContext.foldl_block_kept faithful
    (holds.mono (reserved_grows index)) (plan.mapped edge merge.blocksBase)
    edge.fragment.body.blocks.zipIdx [] start
  have sequences : (plan.splicedOf edge merge index).2 = rest := same
  rw [sequences]
  refine ⟨by rw [count, length_zipIdx], ?_⟩
  intro place block sequence found listed value member unanswered
  rw [(splicedOf_kept index faithful holds :
    (plan.context edge (plan.reservedOf edge merge index)).Kept _ _ _).resolve unanswered]
  exact each place (block, place) sequence (by simp [found]) listed value member unanswered

include faithful holds in
theorem placedOf_lists_own (landing : plan.returnBlock < merge.body.blocks.length)
    {value target : ValueId} (listed : value ∈ edge.fragment.body.listed)
    (given : (plan.reservedOf edge merge index).landed.ids value = some target) :
    ∃ block ∈ plan.placedOf edge merge index, target ∈ block.instrs := by
  have free := ((landed_isSome_iff plan edge _ merge value).1 (by rw [given]; rfl)).2
  have stays : plan.stagedOrdinal.isSome ∨ value ∉ edge.absorbedReads.map Prod.fst := by
    rw [← not_isSome_iff_eq_none, bound_isSome_iff] at free
    cases staged : plan.stagedOrdinal with
    | some ordinal => exact .inl rfl
    | none => exact .inr fun member => free (.inr ⟨staged, member⟩)
  have unanswered : (plan.context edge (plan.reservedOf edge merge index)).addresses value =
      none := by
    simp only [context]
    split
    · rfl
    · rename_i recomputed
      rw [← not_isSome_iff_eq_none, lookup_isSome_iff]
      exact stays.resolve_left recomputed
  obtain ⟨block, held, member⟩ := mem_listed.1 listed
  obtain ⟨place, found⟩ := mem_iff_getElem?.1 held
  obtain ⟨count, lists⟩ := @splicedOf_lists plan edge merge index faithful holds
  have within : place < (plan.splicedOf edge merge index).2.length := by
    rw [count]
    exact (List.getElem?_eq_some_iff.1 found).1
  have sequence := getElem?_eq_getElem within
  have inside := lists place block _ found sequence value member unanswered
  rw [resolve_of_landed index faithful holds stays free given] at inside
  by_cases entry : place = edge.fragment.body.entry
  · refine ⟨_, mem_append_left _ (mem_iff_getElem?.2
      ⟨plan.returnBlock, getElem?_set_self landing⟩), ?_⟩
    apply mem_append_right
    rw [← entry, getD_eq_getElem?_getD, sequence]
    exact inside
  · refine ⟨_, mem_append_right _ (mem_filterMap.2
      ⟨((block, _), place), ?_, if_neg entry⟩), inside⟩
    rw [mem_zipIdx_iff_getElem?]
    exact getElem?_zip_eq_some.2 ⟨found, sequence⟩

theorem placedOf_lists {value : ValueId} (listed : ∃ block ∈ merge.body.blocks,
    value ∈ block.instrs) : ∃ block ∈ plan.placedOf edge merge index, value ∈ block.instrs := by
  obtain ⟨block, member, held⟩ := @set_lists merge.body.blocks value plan.returnBlock
    ⟨_, _ ++ (plan.splicedOf edge merge index).2.getD edge.fragment.body.entry [], _⟩
    (fun _ inside => mem_append_left _ inside) listed
  exact ⟨block, mem_append_left _ member, held⟩

include faithful holds sound numbered in
/-- The merged blocks still receive parameters: the consumer's land as parameters. -/
theorem placedOf_received (received : ParamsReceived merge.body.blocks merge.body.values) :
    ParamsReceived (plan.placedOf edge merge index) (plan.definedOf edge merge index) := by
  intro block member
  rcases mem_append.1 member with member | member
  · exact set_received (by rfl) (received.mono (definedOf_grows index faithful holds)) block member
  · obtain ⟨⟨⟨source, sequence⟩, place⟩, inside, same⟩ := mem_filterMap.1 member
    dsimp only at same
    split at same
    · cases same
    · rename_i inner
      cases same
      intro param listed
      obtain ⟨original, held, rfl⟩ := mem_map.1 listed
      have found := (getElem?_zip_eq_some.1
        (mem_zipIdx_iff_getElem?.1 inside)).1
      obtain ⟨position, at_⟩ := mem_iff_getElem?.1 held
      have definition := numbered.listed place source position original found at_
      have outer : original ∉ edge.fragment.body.parameters := by
        intro entered
        obtain ⟨position', at_'⟩ := mem_iff_getElem?.1 entered
        have entry : edge.fragment.body.entry < edge.fragment.body.blocks.length := by
          by_contra past
          rw [parameters, block, getD_eq_getElem?_getD,
            getElem?_eq_none (by omega)] at entered
          cases entered
        have other := numbered.listed edge.fragment.body.entry _ position' original
          (getElem?_eq_getElem entry) (by
            rw [parameters, block, getD_eq_getElem?_getD,
              getElem?_eq_getElem entry] at at_'
            exact at_')
        rw [definition] at other
        cases other
        exact inner rfl
      have apart : original ∉ edge.absorbedReads.map Prod.fst :=
        not_absorbed_of_not_read sound (by simp [isBufferRead, definition])
      obtain ⟨free, target, given⟩ : (plan.bound edge index).bound original = none ∧
            ∃ target, (plan.reservedOf edge merge index).landed.ids original = some target :=
        lands index (List.getElem?_eq_some_iff.1 definition).1 outer (.inr apart)
      rw [resolve_of_landed index faithful holds (.inr apart) free given]
      exact ⟨_, _, (definedOf_spec index faithful holds).2.2 original _ target definition given⟩

end Place

end MergePlan

end LichenVm.KernelIr
