import LichenVm.FoldRun

namespace LichenVm.FusionBridge

open Fusion KernelIr Builder Emitted

/-- Where each instruction of a per-lane fold that acts stands. -/
def perLaneActs (stated : ScalarClass) (block : Nat) (op : KernelInstr) : Prop :=
  block = 1 ∧ op = .bufferReadCall stated ∨ block = 4 ∧ op = .bufferWriteCall stated

/-- Where each instruction of a tiled fold that acts stands. -/
def tiledActs (stated : ScalarClass) (block : Nat) (op : KernelInstr) : Prop :=
  block = 1 ∧ op = .bufferReadCall stated ∨ block = 4 ∧ op = .sliceWriteCall stated ∨
    block = 5 ∧ op = .sliceReadCall stated ∨ block = 8 ∧ op = .bufferWriteCall stated

section

variable (stated : ScalarClass) (block : Nat)

theorem new_block : (Builder.new stated).body.block block = ⟨[], [], .return []⟩ := by
  cases block with
  | zero => rfl
  | succ block => rfl

theorem new_owned : (Builder.new stated).body.owned block = [] := by
  unfold KernelBody.owned
  rw [new_block]
  rfl

end

section

variable (allowed : Nat → KernelInstr → Prop) (stated : ScalarClass)

theorem new_building : Building allowed (Builder.new stated) := by
  refine ⟨⟨?_, ?_, ?_, ?_⟩, rfl, Nat.one_pos, ?_, ?_⟩
  · intro block
    rw [new_owned]
    exact .nil
  · intro block other value member
    rw [new_owned] at member
    cases member
  · intro block value member
    rw [new_owned] at member
    cases member
  · intro value op args classes found
    cases found
  · intro key value found
    cases found
  · rintro block value op args ⟨member, -⟩
    rw [new_block] at member
    cases member

theorem domain_spec :
    ∃ extent lane after, (∀ {β : Type} (rest : ValueId → ValueId → Build β), (do
        let extent ← addParam 0
        let lane ← addParam 0
        rest extent lane) (Builder.new stated) = rest extent lane after) ∧
      Building allowed after ∧ after.stated = stated ∧ after.block = 0 ∧
      after.body.blocks.length = 1 ∧ (after.body.block 0).params = [extent, lane] ∧
      extent < after.body.values.length ∧ lane < after.body.values.length := by
  obtain ⟨extent, one, first, built, goes, params, instrs, within, length⟩ :=
    addParam_spec (new_building allowed stated) 0 Nat.one_pos (by rw [new_block])
  obtain ⟨lane, after, second, built, goes', params', -, within', length'⟩ :=
    addParam_spec built 0 (by rw [length]; exact Nat.one_pos) instrs
  refine ⟨extent, lane, after, fun rest => (bind_run first).trans (bind_run second), built, ?_, ?_,
    length'.trans length, ?_, goes'.longer within, within'⟩
  · exact goes'.stated.trans goes.stated
  · exact goes'.block.trans goes.block
  · rw [params', params, new_block]
    rfl

end

/-- The values a per-lane fold names. -/
structure PerLaneNames where
  extent : ValueId
  lane : ValueId
  one : ValueId
  stop : ValueId
  identity : ValueId
  zero : ValueId
  position : ValueId
  write : ValueId
  dummy : ValueId
  loop : Emission

/-- A per-lane fold as it is built. -/
structure PerLane {stated : ScalarClass} (buffers : Buffers stated) (slices : Slices)
    (folding : Folding) (body : KernelBody) (names : PerLaneNames) : Prop where
  laid : body.Laid
  entry : body.entry = 0
  acts : ∀ block value op args, body.Lists block value op args → op.acts = true →
    perLaneActs stated block op
  params : (body.block 0).params = [names.extent, names.lane]
  one : body.Lists 0 names.one (.const .int 1) []
  stop : body.Lists 0 names.stop (.bin .int .add) [names.lane, names.one]
  identity : body.Lists 0 names.identity (.const stated folding.identity.bits) []
  zero : body.Lists 0 names.zero (.const .int 0) []
  looped : Looped buffers slices body 0 1 ⟨names.stop, names.zero, names.identity, 1, none,
    folding.element, folding.datum, folding.combine⟩ names.loop
  position : body.Lists 0 names.position (.const .int 0) []
  instrs : (body.block 4).instrs = [names.write]
  write : body.Lists 4 names.write (.bufferWriteCall stated)
    [names.position, names.lane, names.loop.left]
  returns : (body.block 4).terminator = .return [names.dummy]

/-- An element read from a buffer that a compiled folding holds. -/
structure FoldsBuffer (folding : Folding) : Prop where
  reads : folding.element.readsBuffer = true
  fits : ∀ position function, folding.element = .function position function →
    stepsFit 0 folding.datum = true ∧ folding.datum ≠ []

variable {folding : Folding}

theorem FoldsBuffer.element (folds : FoldsBuffer folding) (builder : Builder) :
    folding.element.Fits builder folding.datum := by
  have reads := folds.reads
  have fits := folds.fits
  cases element : folding.element with
  | slice ordinal observed =>
    rw [element] at reads
    cases reads
  | function position function => exact fits position function element
  | buffer position => trivial
  | address => trivial

theorem FoldsBuffer.access (folds : FoldsBuffer folding) {stated : ScalarClass} :
    folding.element.access stated = some (.bufferReadCall stated) := by
  have reads := folds.reads
  cases element : folding.element with
  | slice ordinal observed | address =>
    rw [element] at reads
    cases reads
  | function position function => rfl
  | buffer position => rfl

theorem mem_triple {α : Type} {p : α → Prop} {first second third : α} (one : p first)
    (two : p second) (three : p third) : ∀ item ∈ [first, second, third], p item :=
  List.forall_mem_cons.2 ⟨one, mem_pair two three⟩

theorem perLane_built (folds : FoldsBuffer folding) (buffers : Buffers folding.stated)
    (slices : Slices) : ∃ names, PerLane buffers slices folding folding.perLane names := by
  obtain ⟨extent, lane, b1, r1, built, stated, block, length, params, -, laneKnown⟩ :=
    domain_spec (perLaneActs folding.stated) folding.stated
  obtain ⟨one, b2, r2, e2, oneLists⟩ := constant 0 built .int 1
  obtain ⟨stop, b3, r3, e3, stopLists⟩ := push e2.building
    (by rw [e2.blocks, length]; exact Nat.one_pos) (.bin .int .add) [lane, one]
    (mem_pair (e2.goes.longer laneKnown) oneLists.lt) (fun acts => by cases acts)
  obtain ⟨identity, b4, r4, e4, identityLists⟩ :=
    constant 0 e3.building folding.stated folding.identity.bits
  obtain ⟨zero, b5, r5, e5, zeroLists⟩ := constant 0 e4.building .int 0
  have e45 := e4.trans e5
  have e35 := e3.trans e45
  have e25 := e2.trans e35
  have length5 : b5.body.blocks.length = 1 := e25.blocks.trans length
  have block5 : b5.block = 0 := e25.goes.block.trans block
  have stopKnown : stop < b5.body.values.length := e45.goes.longer stopLists.lt
  obtain ⟨made, b6, r6, built, g6, s6, k6, l6, looped, empty, leftKnown⟩ :=
    Fold.run_spec buffers slices e5.building (by rw [block5, length5]; exact Nat.one_pos)
      (e25.goes.stated.trans stated) ⟨stop, zero, identity, 1, none, folding.element,
        folding.datum, folding.combine⟩ stopKnown (folds.element b5) (by
          intro op access
          rw [length5]
          exact .inl ⟨rfl, Option.some.inj (access.symm.trans folds.access)⟩)
  rw [length5] at k6 l6 empty looped
  rw [block5] at looped g6
  obtain ⟨position, b7, r7, built, g7, positionLists, l7⟩ := constant_spec built .int 0
  have grows57 := g6.trans g7.grows
  have laneKnown7 := lt_of_lt_of_le (e25.goes.longer laneKnown) grows57.values.length_le
  obtain ⟨write, b8, r8, built, g8, writeLists, instrs8, l8⟩ := push_spec built
    (show 4 < b7.body.blocks.length by omega) (.bufferWriteCall folding.stated)
    [position, lane, made.left] (mem_triple positionLists.lt laneKnown7
      (g7.longer leftKnown)) (fun _ => .inr ⟨rfl, rfl⟩)
  obtain ⟨dummy, b9, r9, built, g9, -, l9⟩ :=
    constant_spec built folding.stated folding.identity.bits
  obtain ⟨b10, r10, built, g10, terminator, -⟩ :=
    setTerminator_spec built 4 (by omega) (.return [dummy])
  have body : folding.perLane = b10.body := by
    have ran : (do
        let position ← constant .int 0
        let block ← current
        let _ ← push block (.bufferWriteCall folding.stated) [position, lane, made.left]
        let dummy ← constant folding.stated folding.identity.bits
        finish [dummy] : Build Unit) b6 = ((), b10) := by
      refine (bind_run r7).trans ?_
      refine (bind_run (show current b7 = (4, b7) by
        show (b7.block, b7) = _
        rw [g7.block, k6])).trans ?_
      refine (bind_run r8).trans ?_
      refine (bind_run r9).trans ?_
      show Builder.setTerminator b9.block _ b9 = _
      rw [g9.block, g8.block, g7.block, k6]
      exact r10
    refine congrArg (fun result : Unit × Builder => result.2.body) (?_ : _ = ((), b10))
    refine (bind_run (show (get : Build Builder) _ = (_, _) from rfl)).trans ?_
    refine (r1 _).trans ?_
    refine (bind_run r2).trans ?_
    refine (bind_run r3).trans ?_
    refine (bind_run r4).trans ?_
    refine (bind_run r5).trans ?_
    refine (bind_run r6).trans ?_
    exact ran
  have last := g9.grows.trans g10.grows
  have from7 := g8.grows.trans last
  have from6 := g7.grows.trans from7
  have from5 := g6.trans from6
  have from4 := e5.goes.grows.trans from5
  have from3 := e4.goes.grows.trans from4
  have from2 := e3.goes.grows.trans from3
  have from1 := e2.goes.grows.trans from2
  rw [body]
  refine ⟨⟨extent, lane, one, stop, identity, zero, position, write, dummy, made⟩, built.laid,
    built.entry, built.acts, ?_, oneLists.grows from2, stopLists.grows from3,
    identityLists.grows from4, zeroLists.grows from5, ?_, positionLists.grows from7, ?_,
    writeLists.grows last, terminator⟩
  · rw [from1.params 0 (by omega) (by simp)]
    exact params
  · exact looped.grows from6 (by omega) (by omega) (by simp) (by simp) (by simp)
  · rw [last.kept 4 (by omega) (by simp), instrs8, g7.grows.kept 4 (by omega) (by simp), empty]
    rfl

/-- The values a tiled fold names. -/
structure TiledNames where
  extent : ValueId
  lane : ValueId
  width : ValueId
  slot : ValueId
  identity : ValueId
  bias : ValueId
  biased : ValueId
  steps : ValueId
  laneSlot : ValueId
  staging : Emission
  ordinal : ValueId
  write : ValueId
  seed : ValueId
  reading : Emission
  position : ValueId
  store : ValueId
  dummy : ValueId

/-- A tiled fold as it is built. -/
structure TiledBody {stated : ScalarClass} (buffers : Buffers stated) (slices : Slices)
    (folding : Folding) (laneWidth : UInt32) (slice : Nat) (body : KernelBody)
    (names : TiledNames) : Prop where
  laid : body.Laid
  entry : body.entry = 0
  acts : ∀ block value op args, body.Lists block value op args → op.acts = true →
    tiledActs stated block op
  params : (body.block 0).params = [names.extent, names.lane]
  width : body.Lists 0 names.width (.const .int (.ofNat 64 laneWidth.toNat)) []
  slot : body.Lists 0 names.slot (.bin .int .rem) [names.lane, names.width]
  identity : body.Lists 0 names.identity (.const stated folding.identity.bits) []
  bias : body.Lists 0 names.bias (.const .int (.ofNat 64 (laneWidth.toNat - 1))) []
  biased : body.Lists 0 names.biased (.bin .int .add) [names.extent, names.bias]
  steps : body.Lists 0 names.steps (.bin .int .div) [names.biased, names.width]
  laneSlot : body.Lists 0 names.laneSlot (.const .int 0) []
  staging : Looped buffers slices body 0 1 ⟨names.steps, names.lane, names.identity,
    .ofNat 64 laneWidth.toNat, none, folding.element, folding.datum, folding.combine⟩ names.staging
  ordinal : body.Lists 0 names.ordinal (.const .int (.ofNat 64 slice)) []
  staged : (body.block 4).instrs = [names.write]
  write : body.Lists 4 names.write (.sliceWriteCall stated)
    [names.ordinal, names.slot, names.staging.left]
  seed : body.Lists 0 names.seed (.const stated folding.identity.bits) []
  reading : Looped buffers slices body 4 5 ⟨names.width, names.laneSlot, names.seed, 1,
    some (.ofNat 64 laneWidth.toNat), .slice slice names.write, [], folding.combine⟩ names.reading
  position : body.Lists 0 names.position (.const .int 0) []
  stored : (body.block 8).instrs = [names.store]
  store : body.Lists 8 names.store (.bufferWriteCall stated)
    [names.position, names.lane, names.reading.left]
  returns : (body.block 8).terminator = .return [names.dummy]

theorem barriers_spec {allowed : Nat → KernelInstr → Prop} {builder : Builder}
    (building : Building allowed builder) (barriers : List Barrier) :
    Building allowed { builder with body := { builder.body with barriers := barriers } } ∧
      Goes [] [] [] builder { builder with body := { builder.body with barriers := barriers } } := by
  have grows : KernelBody.Grows [] [] [] builder.body { builder.body with barriers := barriers } :=
    ⟨List.prefix_refl _, le_refl _, rfl, fun _ _ => List.Subset.refl _, fun _ _ _ => rfl,
      fun _ _ _ => rfl, fun _ _ _ => rfl⟩
  exact ⟨building.same grows (building.laid.same rfl fun _ => rfl) fun _ => rfl, grows, rfl, rfl⟩

theorem tiled_built (folds : FoldsBuffer folding) (buffers : Buffers folding.stated)
    (slices : Slices) (laneWidth : UInt32) (slice : Nat) :
    ∃ names, TiledBody buffers slices folding laneWidth slice
      (folding.tile laneWidth slice (Builder.new folding.stated)).2.body names := by
  obtain ⟨extent, lane, b1, r1, built, stated, block, length, params, extentKnown, laneKnown⟩ :=
    domain_spec (tiledActs folding.stated) folding.stated
  obtain ⟨width, b2, r2, e2, widthLists⟩ :=
    constant 0 built .int (.ofNat 64 laneWidth.toNat)
  obtain ⟨slot, b3, r3, e3, slotLists⟩ := push e2.building
    (by rw [e2.blocks, length]; exact Nat.one_pos) (.bin .int .rem) [lane, width]
    (mem_pair (e2.goes.longer laneKnown) widthLists.lt) (fun acts => by cases acts)
  obtain ⟨identity, b4, r4, e4, identityLists⟩ :=
    constant 0 e3.building folding.stated folding.identity.bits
  obtain ⟨bias, b5, r5, e5, biasLists⟩ :=
    constant 0 e4.building .int (.ofNat 64 (laneWidth.toNat - 1))
  have e35 := (e3.trans e4).trans e5
  have e25 := e2.trans e35
  obtain ⟨biased, b6, r6, e6, biasedLists⟩ := push e5.building
    (by rw [e25.blocks, length]; exact Nat.one_pos) (.bin .int .add) [extent, bias]
    (mem_pair (e25.goes.longer extentKnown) biasLists.lt) (fun acts => by cases acts)
  have e26 := e25.trans e6
  obtain ⟨steps, b7, r7, e7, stepsLists⟩ := push e6.building
    (by rw [e26.blocks, length]; exact Nat.one_pos) (.bin .int .div) [biased, width]
    (mem_pair biasedLists.lt ((e35.trans e6).goes.longer widthLists.lt)) (fun acts => by cases acts)
  obtain ⟨laneSlot, b8, r8, e8, laneSlotLists⟩ := constant 0 e7.building .int 0
  have e28 := (e26.trans e7).trans e8
  have e38 := ((e35.trans e6).trans e7).trans e8
  have e48 := (((e4.trans e5).trans e6).trans e7).trans e8
  have length8 : b8.body.blocks.length = 1 := e28.blocks.trans length
  have block8 : b8.block = 0 := e28.goes.block.trans block
  obtain ⟨staging, b9, r9, built, g9, s9, k9, l9, stagingLoop, empty, foldedKnown⟩ :=
    Fold.run_spec buffers slices e8.building (by rw [block8, length8]; exact Nat.one_pos)
      (e28.goes.stated.trans stated) ⟨steps, lane, identity, .ofNat 64 laneWidth.toNat, none,
        folding.element, folding.datum, folding.combine⟩ (e8.goes.longer stepsLists.lt)
      (folds.element b8) (by
        intro op access
        rw [length8]
        exact .inl ⟨rfl, Option.some.inj (access.symm.trans folds.access)⟩)
  rw [length8] at k9 l9 empty stagingLoop
  rw [block8] at stagingLoop g9
  obtain ⟨ordinal, b10, r10, built, g10, ordinalLists, l10⟩ :=
    constant_spec built .int (.ofNat 64 slice)
  have grows810 := g9.trans g10.grows
  obtain ⟨write, b11, r11, built, g11, writeLists, instrs11, l11⟩ := push_spec built
    (show 4 < b10.body.blocks.length by omega) (.sliceWriteCall folding.stated)
    [ordinal, slot, staging.left] (mem_triple ordinalLists.lt
      (lt_of_lt_of_le (e48.goes.longer slotLists.lt) grows810.values.length_le)
      (g10.longer foldedKnown)) (fun _ => .inr (.inl ⟨rfl, rfl⟩))
  obtain ⟨seed, b12, r12, built, g12, seedLists, l12⟩ :=
    constant_spec built folding.stated folding.identity.bits
  have grows1012 := g11.grows.trans g12.grows
  have grows812 := grows810.trans grows1012
  have length12 : b12.body.blocks.length = 5 := by omega
  have block12 : b12.block = 4 := by rw [g12.block, g11.block, g10.block, k9]
  have widthKnown := lt_of_lt_of_le (e38.goes.longer widthLists.lt) grows812.values.length_le
  obtain ⟨reading, b13, r13, built, g13, s13, k13, l13, readingLoop, empty', readKnown⟩ :=
    Fold.run_spec buffers slices built (by rw [block12, length12]; decide)
      (by rw [g12.stated, g11.stated, g10.stated, s9]) ⟨width, laneSlot, seed, 1,
        some (.ofNat 64 laneWidth.toNat), .slice slice write, [], folding.combine⟩ widthKnown
      (g12.longer writeLists.lt) (by
        intro op access
        rw [length12]
        exact .inr (.inr (.inl ⟨rfl, (Option.some.inj access).symm⟩)))
  rw [length12] at k13 l13 empty' readingLoop
  rw [block12] at readingLoop g13
  obtain ⟨built, g14⟩ :=
    barriers_spec built (b13.body.barriers ++ [⟨write, b13.sliceReads.head?.getD 0⟩])
  obtain ⟨position, b15, r15, built, g15, positionLists, l15⟩ := constant_spec built .int 0
  have grows1315 := g14.grows.trans g15.grows
  have grows815 := grows812.trans (g13.trans grows1315)
  have length14 : b15.body.blocks.length = 9 := l15.trans l13
  obtain ⟨store, b16, r16, built, g16, storeLists, instrs16, l16⟩ := push_spec built
    (show 8 < b15.body.blocks.length by omega) (.bufferWriteCall folding.stated)
    [position, lane, reading.left] (mem_triple positionLists.lt
      (lt_of_lt_of_le (e28.goes.longer laneKnown) grows815.values.length_le)
      (lt_of_lt_of_le readKnown grows1315.values.length_le))
    (fun _ => .inr (.inr (.inr ⟨rfl, rfl⟩)))
  obtain ⟨dummy, b17, r17, built, g17, -, l17⟩ :=
    constant_spec built folding.stated folding.identity.bits
  obtain ⟨b18, r18, built, g18, terminator, -⟩ :=
    setTerminator_spec built 8 (by omega) (.return [dummy])
  have ran : folding.tile laneWidth slice (Builder.new folding.stated) = (write, b18) := by
    refine (bind_run (show (get : Build Builder) _ = (_, _) from rfl)).trans ?_
    refine (r1 _).trans ?_
    refine (bind_run r2).trans ?_
    refine (bind_run r3).trans ?_
    refine (bind_run r4).trans ?_
    refine (bind_run r5).trans ?_
    refine (bind_run r6).trans ?_
    refine (bind_run r7).trans ?_
    refine (bind_run r8).trans ?_
    refine (bind_run r9).trans ?_
    refine (bind_run r10).trans ?_
    refine (bind_run (show current b10 = (4, b10) by
      show (b10.block, b10) = _
      rw [g10.block, k9])).trans ?_
    refine (bind_run r11).trans ?_
    refine (bind_run r12).trans ?_
    refine (bind_run r13).trans ?_
    refine (bind_run (show (get : Build Builder) _ = (_, _) from rfl)).trans ?_
    refine (bind_run (show (modify _ : Build Unit) b13 = ((), _) from rfl)).trans ?_
    refine (bind_run r15).trans ?_
    refine (bind_run (show current b15 = (8, b15) by
      show (b15.block, b15) = _
      rw [g15.block, g14.block, k13])).trans ?_
    refine (bind_run r16).trans ?_
    refine (bind_run r17).trans ?_
    refine (bind_run (show finish [dummy] b17 = ((), b18) by
      show Builder.setTerminator b17.block _ b17 = _
      rw [g17.block, g16.block, g15.block, g14.block, k13]
      exact r18)).trans ?_
    rfl
  -- What is still to come after each stretch of the walk.
  have last := g17.grows.trans g18.grows
  have from15 := g16.grows.trans last
  have from13 := grows1315.trans from15
  have from12 := g13.trans from13
  have from11 := g12.grows.trans from12
  have from10 := g11.grows.trans from11
  have from9 := g10.grows.trans from10
  have from8 := g9.trans from9
  have from7 := e8.goes.grows.trans from8
  have from6 := e7.goes.grows.trans from7
  have from5 := e6.goes.grows.trans from6
  have from4 := e5.goes.grows.trans from5
  have from3 := e4.goes.grows.trans from4
  have from2 := e3.goes.grows.trans from3
  have from1 := e2.goes.grows.trans from2
  rw [ran]
  refine ⟨⟨extent, lane, width, slot, identity, bias, biased, steps, laneSlot, staging, ordinal,
    write, seed, reading, position, store, dummy⟩, built.laid, built.entry, built.acts, ?_,
    widthLists.grows from2, slotLists.grows from3, identityLists.grows from4,
    biasLists.grows from5, biasedLists.grows from6, stepsLists.grows from7,
    laneSlotLists.grows from8, ?_, ordinalLists.grows from10, ?_, writeLists.grows from11,
    seedLists.grows from12, ?_, positionLists.grows from15, ?_, storeLists.grows last, terminator⟩
  · rw [from1.params 0 (by omega) (by simp)]
    exact params
  · exact stagingLoop.grows from9 (by omega) (by omega) (by simp) (by simp) (by simp)
  · rw [from11.kept 4 (by omega) (by simp), instrs11, g10.grows.kept 4 (by omega) (by simp), empty]
    rfl
  · exact readingLoop.grows from13 (by omega) (by omega) (by simp) (by simp) (by simp)
  · rw [last.kept 8 (by omega) (by simp), instrs16,
      grows1315.kept 8 (by omega) (by simp), empty']
    rfl

end LichenVm.FusionBridge
