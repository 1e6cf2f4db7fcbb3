import LichenVm.FoldBodies

open List

namespace LichenVm.FusionBridge

open Fusion KernelIr Reassociation KernelBody

namespace Folding

variable (folding : Folding)

/-- What a fold's operator leaves of two values. -/
noncomputable def combines (left right : Traced) : Traced :=
  Traced.meaning.compute (.bin folding.stated folding.combine) [left, right]

/-- What a fold starts from. -/
noncomputable def seed : Traced := .plain (Number.literal folding.identity.bits folding.stated)

/-- What the element at an address contributes. -/
noncomputable def contributes (buffers : Buffers folding.stated) (address : BitVec 64) : Traced :=
  contribution buffers (fun _ _ => default) folding.element folding.datum (.plain (.word address))

/-- What a lane stages: the fold of the elements from its own address on, a stride apart. -/
noncomputable def staged (buffers : Buffers folding.stated) (laneWidth : UInt32) (count lane : Nat) :
    Traced :=
  folded folding.combines folding.seed (fun step => folding.contributes buffers
      (slotWord (.ofNat 64 lane) (.ofNat 64 laneWidth.toNat) none step))
    ((BitVec.ofNat 64 count + .ofNat 64 (laneWidth.toNat - 1)) / .ofNat 64 laneWidth.toNat).toNat

/-- What a lane stores: the fold of the slots its group staged. -/
noncomputable def restored (slices : Slices) (laneWidth : UInt32) (slice : Nat) : Traced :=
  folded folding.combines folding.seed (fun step => slices (BitVec.ofNat 64 slice).toNat
      (backWord (some (.ofNat 64 laneWidth.toNat))
        (slotWord 0 1 (some (.ofNat 64 laneWidth.toNat)) step)).toNat)
    (BitVec.ofNat 64 laneWidth.toNat).toNat

/-- What a lane of the per-lane fold stores. -/
noncomputable def sequential (buffers : Buffers folding.stated) (lane : Nat) : Traced :=
  folded folding.combines folding.seed
    (fun step => folding.contributes buffers (slotWord 0 1 none step))
    (BitVec.ofNat 64 lane + 1).toNat

end Folding

theorem contribution_slices {stated : ScalarClass} {buffers : Buffers stated} {element : Element}
    (reads : element.readsBuffer) (slices other : Slices) (datum : List Step)
    (address : Traced) :
    contribution buffers slices element datum address =
      contribution buffers other element datum address := by
  cases element with
  | slice ordinal observed => cases reads
  | function position function => rfl
  | buffer position => rfl
  | address => rfl

section Lanes

variable {stated : ScalarClass} {buffers : Buffers stated} {slices : Slices} {body : KernelBody}

section

variable (laid : body.Laid)

include laid

theorem enters (entry : body.entry = 0) {extent lane : ValueId}
    (params : (body.block 0).params = [extent, lane]) (first second : Traced) :
    (body.enter [first, second]).block = 0 ∧ (body.enter [first, second]).bound extent = first ∧
      (body.enter [first, second]).bound lane = second ∧
      (body.enter [first, second]).trace = [] := by
  have handed : (body.block 0).params.map (receive (body.block 0).params [first, second]
      fun _ => (default : Traced)) = [first, second] :=
    receive_map (params_nodup laid 0) (by rw [params]; rfl) _
  have received : (body.enter [first, second]).bound =
      receive (body.block 0).params [first, second] fun _ => (default : Traced) := by
    unfold enter parameters
    rw [entry]
  rw [← received, params] at handed
  simp only [map_cons, map_nil, List.cons.injEq, and_true] at handed
  exact ⟨entry, handed.1, handed.2, rfl⟩

variable {frame : Frame Traced} (buffers slices) in
theorem entry_knows (block : frame.block = 0) :
    Knows body (executed buffers slices body frame).bound := by
  intro value own bits lists
  have settled := executed_settled buffers slices laid frame
  rw [block] at settled
  exact settled.computes value _ _ lists rfl

variable (buffers slices) in
theorem executed_idle {allowed : Nat → KernelInstr → Prop}
    (acts : ∀ block value op args, body.Lists block value op args → op.acts →
      allowed block op) (idle : ∀ op, ¬ allowed frame.block op) :
    (executed buffers slices body frame).trace = frame.trace := by
  obtain ⟨events, trace, allowed⟩ := executed_trace buffers slices laid acts frame
  have none : events = [] :=
    eq_nil_iff_forall_not_mem.2 fun event member => idle _ (allowed event member)
  rw [trace, none, append_nil]

variable (buffers slices) in
theorem executed_single {value : ValueId} {op : KernelInstr} {args : List ValueId}
    (instrs : (body.block frame.block).instrs = [value])
    (lists : body.Lists frame.block value op args) (acts : op.acts) :
    (executed buffers slices body frame).trace = frame.trace ++
      [⟨op, args.map (executed buffers slices body frame).bound⟩] := by
  have trace : (executed buffers slices body frame).trace = frame.trace ++
      (body.block frame.block).instrs.filterMap
        (body.eventAt (executed buffers slices body frame).bound) :=
    (ordered laid frame.block).traces frame
  obtain ⟨-, classes, found⟩ := lists
  have event : ∀ bound : ValueId → Traced,
      body.eventAt bound value = some ⟨op, args.map bound⟩ := by
    intro bound
    unfold eventAt
    rw [found]
    exact if_pos acts
  rw [trace, instrs]
  simp only [filterMap_cons, event, filterMap_nil]

end

theorem returns_of_block {values : List ValueId}
    (leaves : (body.block frame.block).terminator = .return values) :
    body.Returns Traced.meaning (fun _ => answer buffers slices) frame
      (values.map (executed buffers slices body frame).bound,
        (executed buffers slices body frame).trace) := by
  apply KernelBody.Returns.ends
  unfold KernelBody.next leave
  rw [execute_block, leaves]
  rfl

theorem entry_outside (laid : body.Laid) {value : ValueId} (own : value ∈ body.owned 0)
    {header : Nat} (entered : 0 < header) : Outside body header value :=
  fun _ from_ _ => not_owned laid own (by omega)

/-- What a lane of a per-lane fold does: it reads, and stores the fold up to its own index. -/
theorem PerLane.runs {folding : Folding} {buffers : Buffers folding.stated} {slices : Slices}
    {names : PerLaneNames} (built : PerLane buffers slices folding body names)
    (reads : folding.element.readsBuffer) (count lane : Nat) :
    ∃ events, LaneRuns buffers slices body count lane (events ++
        [⟨.bufferWriteCall folding.stated, [.plain (.word 0), .plain (.word (.ofNat 64 lane)),
          folding.sequential buffers lane]⟩]) ∧
      ∀ event ∈ events, event.op = .bufferReadCall folding.stated := by
  have laid := built.laid
  obtain ⟨block, -, index, fresh⟩ := enters laid built.entry built.params
    (.plain (.word (.ofNat 64 count))) (.plain (.word (.ofNat 64 lane)))
  generalize begins : body.enter [Traced.plain (.word (.ofNat 64 count)),
    Traced.plain (.word (.ofNat 64 lane))] = frame at block index fresh
  have knows := entry_knows buffers slices laid block
  have settled := executed_settled buffers slices laid frame
  rw [block] at settled
  have laneKept : (executed buffers slices body frame).bound names.lane =
      .plain (.word (.ofNat 64 lane)) := by
    rw [← index]
    apply executed_other
    rw [block]
    apply param_not_listed laid
    rw [built.params]
    simp
  have stops := settled.computes names.stop _ _ built.stop rfl
  simp only [map_cons, map_nil] at stops
  rw [laneKept, knows _ _ _ built.one] at stops
  obtain ⟨after, comes, inside, ends, left⟩ := built.looped.runs laid built.acts Nat.one_pos
    block knows (entry_outside laid (mem_append_right _ built.stop.1) Nat.one_pos) stops
    (knows _ _ _ built.zero) (knows _ _ _ built.identity)
  have afterBlock : after.block = 4 := ends
  have idle : (executed buffers slices body frame).trace = frame.trace :=
    executed_idle buffers slices laid built.acts (by
      intro op
      rw [block]
      rintro (⟨none, -⟩ | ⟨none, -⟩)
      · cases none
      · cases none)
  obtain ⟨events, trace, allowed⟩ := inside.acted
  rw [idle, fresh, nil_append] at trace
  have lists := built.write
  have instrs := built.instrs
  have returns := built.returns
  rw [← afterBlock] at lists instrs returns
  have single := executed_single buffers slices laid instrs lists rfl
  have known := executed_knows buffers slices laid (by rw [afterBlock]; decide)
    (inside.knows laid Nat.one_pos knows)
  have apart : after.block ≠ 0 := by rw [afterBlock]; decide
  have laneOwned : names.lane ∈ body.owned 0 :=
    mem_append_left _ (by rw [built.params]; simp)
  have laneStays : (executed buffers slices body after).bound names.lane =
      .plain (.word (.ofNat 64 lane)) := by
    rw [executed_other fun member => not_owned laid laneOwned apart.symm
      (mem_append_right _ member), inside.kept _ (entry_outside laid laneOwned Nat.one_pos)]
    exact laneKept
  have leftStays : (executed buffers slices body after).bound names.loop.left =
      folding.sequential buffers lane := by
    rw [executed_other, left]
    · unfold Folding.sequential
      congr 1
      funext step
      exact contribution_slices reads _ _ _ _
    · rw [afterBlock]
      apply param_not_listed laid
      rw [built.looped.leaves]
      simp
  simp only [map_cons, map_nil] at single
  rw [trace, known _ _ _ built.position, laneStays, leftStays] at single
  have ends := comes.returns (returns_of_block returns)
  rw [single, ← begins] at ends
  refine ⟨events, ⟨_, ends⟩, ?_⟩
  intro event member
  obtain ⟨block, _, within, one | four⟩ := allowed event member
  · exact one.2
  · omega

/-- What a lane of a tiled fold does: it reads and stages the fold of its own elements, and reads
the slice back and stores the fold of its slots. -/
theorem TiledBody.runs {folding : Folding} {buffers : Buffers folding.stated} {slices : Slices}
    {laneWidth : UInt32} {slice : Nat} {names : TiledNames}
    (built : TiledBody buffers slices folding laneWidth slice body names)
    (reads : folding.element.readsBuffer) (count lane : Nat) :
    ∃ events more, LaneRuns buffers slices body count lane (events ++
        [⟨.sliceWriteCall folding.stated, [.plain (.word (.ofNat 64 slice)),
          .plain (.word (.ofNat 64 lane % .ofNat 64 laneWidth.toNat)),
          folding.staged buffers laneWidth count lane]⟩] ++ more ++
        [⟨.bufferWriteCall folding.stated, [.plain (.word 0), .plain (.word (.ofNat 64 lane)),
          folding.restored slices laneWidth slice]⟩]) ∧
      (∀ event ∈ events, event.op = .bufferReadCall folding.stated) ∧
      ∀ event ∈ more, event.op = .sliceReadCall folding.stated := by
  have laid := built.laid
  obtain ⟨block, whole, index, fresh⟩ := enters laid built.entry built.params
    (.plain (.word (.ofNat 64 count))) (.plain (.word (.ofNat 64 lane)))
  generalize begins : body.enter [Traced.plain (.word (.ofNat 64 count)),
    Traced.plain (.word (.ofNat 64 lane))] = frame at block whole index fresh
  have knows := entry_knows buffers slices laid block
  have settled := executed_settled buffers slices laid frame
  rw [block] at settled
  have received : ∀ value ∈ [names.extent, names.lane],
      (executed buffers slices body frame).bound value = frame.bound value := by
    intro value member
    apply executed_other
    rw [block]
    apply param_not_listed laid
    rw [built.params]
    exact member
  have laneKept := (received names.lane (by simp)).trans index
  have extentKept := (received names.extent (by simp)).trans whole
  have slots := settled.computes names.slot _ _ built.slot rfl
  have biases := settled.computes names.biased _ _ built.biased rfl
  have steps := settled.computes names.steps _ _ built.steps rfl
  simp only [map_cons, map_nil] at slots biases steps
  rw [laneKept, knows _ _ _ built.width] at slots
  rw [extentKept, knows _ _ _ built.bias] at biases
  rw [biases, knows _ _ _ built.width] at steps
  -- The entry's values outlast both loops.
  have outside : ∀ value ∈ body.owned 0, ∀ header, 0 < header → Outside body header value :=
    fun value own header entered => entry_outside laid own entered
  have listed : ∀ value op args, body.Lists 0 value op args → value ∈ body.owned 0 :=
    fun value op args lists => mem_append_right _ lists.1
  have laneOwned : names.lane ∈ body.owned 0 :=
    mem_append_left _ (by rw [built.params]; simp)
  obtain ⟨middle, comes, inside, ends, left⟩ := built.staging.runs laid built.acts Nat.one_pos
    block knows (outside _ (listed _ _ _ built.steps) 1 Nat.one_pos) steps laneKept
    (knows _ _ _ built.identity)
  have middleBlock : middle.block = 4 := ends
  have idle : (executed buffers slices body frame).trace = frame.trace :=
    executed_idle buffers slices laid built.acts (by
      intro op
      rw [block]
      rintro (⟨none, -⟩ | ⟨none, -⟩ | ⟨none, -⟩ | ⟨none, -⟩) <;> cases none)
  obtain ⟨events, trace, allowed⟩ := inside.acted
  rw [idle, fresh, nil_append] at trace
  have lists := built.write
  have instrs := built.staged
  rw [← middleBlock] at lists instrs
  have stages := executed_single buffers slices laid instrs lists rfl
  have apart : middle.block ≠ 0 := by rw [middleBlock]; decide
  have known := executed_knows buffers slices laid apart (inside.knows laid Nat.one_pos knows)
  -- A value of the entry holds at the staging what it held at the entry.
  have stays : ∀ value ∈ body.owned 0, (executed buffers slices body middle).bound value =
      (executed buffers slices body frame).bound value := by
    intro value own
    rw [executed_other fun member => not_owned laid own apart.symm (mem_append_right _ member),
      inside.kept _ (outside value own 1 Nat.one_pos)]
  have leftStays : (executed buffers slices body middle).bound names.staging.left =
      folding.staged buffers laneWidth count lane := by
    rw [executed_other, left]
    · unfold Folding.staged
      congr 1
      funext step
      exact contribution_slices reads _ _ _ _
    · rw [middleBlock]
      apply param_not_listed laid
      rw [built.staging.leaves]
      simp
  simp only [map_cons, map_nil] at stages
  rw [trace, known _ _ _ built.ordinal, stays _ (listed _ _ _ built.slot), slots,
    leftStays] at stages
  obtain ⟨after, onward, within, last, answered⟩ := built.reading.runs laid built.acts
    (Nat.succ_pos 4) middleBlock known (outside _ (listed _ _ _ built.width) 5 (Nat.succ_pos 4))
    (known _ _ _ built.width) (known _ _ _ built.laneSlot) (known _ _ _ built.seed)
  have afterBlock : after.block = 8 := last
  obtain ⟨more, later, allowed'⟩ := within.acted
  rw [stages] at later
  have lists := built.store
  have instrs := built.stored
  have returns := built.returns
  rw [← afterBlock] at lists instrs returns
  have stores := executed_single buffers slices laid instrs lists rfl
  have apart' : after.block ≠ 0 := by rw [afterBlock]; decide
  have known' := executed_knows buffers slices laid apart' (within.knows laid (Nat.succ_pos 4) known)
  have laneStays : (executed buffers slices body after).bound names.lane =
      .plain (.word (.ofNat 64 lane)) := by
    rw [executed_other fun member => not_owned laid laneOwned apart'.symm
      (mem_append_right _ member), within.kept _ (outside _ laneOwned 5 (Nat.succ_pos 4)),
      stays _ laneOwned]
    exact laneKept
  have answerStays : (executed buffers slices body after).bound names.reading.left =
      folding.restored slices laneWidth slice := by
    rw [executed_other, answered]
    · rfl
    · rw [afterBlock]
      apply param_not_listed laid
      rw [built.reading.leaves]
      simp
  simp only [map_cons, map_nil] at stores
  rw [later, known' _ _ _ built.position, laneStays, answerStays] at stores
  have returned := (comes.trans onward).returns (returns_of_block returns)
  rw [stores, ← begins] at returned
  refine ⟨events, more, ⟨_, returned⟩, ?_, ?_⟩
  · intro event member
    obtain ⟨block, _, within, one | four | five | eight⟩ := allowed event member
    · exact one.2
    · omega
    · omega
    · omega
  · intro event member
    obtain ⟨block, beyond, within, one | four | five | eight⟩ := allowed' event member
    · omega
    · omega
    · exact five.2
    · omega

end Lanes

end LichenVm.FusionBridge
