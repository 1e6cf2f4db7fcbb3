import LichenVm.FoldElements

open List

namespace LichenVm.FusionBridge

open Fusion KernelIr Builder Emitted

/-- The values a fold emits, by what its loop names them. -/
structure Emission where
  counter : ValueId
  value : ValueId
  slot : ValueId
  next : ValueId
  held : ValueId
  carriedSlot : ValueId
  result : ValueId
  zero : ValueId
  address : ValueId
  read : ValueId
  reached : ValueId
  combined : ValueId
  one : ValueId
  advanced : ValueId
  stride : ValueId
  sum : ValueId
  moved : ValueId
  left : ValueId

/-- An address folded back into a width, in a block. -/
def FoldsBack (body : KernelBody) (block : Nat) (modulo : Option (BitVec 64))
    (address back : ValueId) : Prop :=
  match modulo with
  | some modulo => ∃ width, body.Lists 0 width (.const .int modulo) [] ∧
      body.Lists block back (.bin .int .rem) [address, width]
  | none => back = address

/-- A loop as a fold emits it: its header, its step, the block it merges into and the block it is
left in, one after another. -/
structure Looped {stated : ScalarClass} (buffers : Buffers stated) (slices : Slices)
    (body : KernelBody) (origin header : Nat) (fold : Fold) (made : Emission) : Prop where
  enters : (body.block origin).terminator = .br ⟨header, [made.zero, fold.identity, fold.start]⟩
  zero : body.Lists 0 made.zero (.const .int 0) []
  receives : (body.block header).params = [made.counter, made.value, made.slot]
  address : FoldsBack body header fold.modulo made.slot made.address
  read : Contributes buffers slices body header fold.element fold.datum made.address made.read
  home : made.read = made.address ∨ Held body header made.read
  reached : body.Lists header made.reached (.bin .int .lt) [made.counter, fold.stop]
  branches : (body.block header).terminator =
    .condBr made.reached ⟨header + 1, [made.counter, made.value, made.slot]⟩
      ⟨header + 2, [made.value]⟩
  steps : (body.block (header + 1)).params = [made.next, made.held, made.carriedSlot]
  combined : body.Lists (header + 1) made.combined (.bin stated fold.operator)
    [made.held, made.read]
  one : body.Lists 0 made.one (.const .int 1) []
  advanced : body.Lists (header + 1) made.advanced (.bin .int .add) [made.next, made.one]
  stride : body.Lists 0 made.stride (.const .int fold.stride) []
  sum : body.Lists (header + 1) made.sum (.bin .int .add) [made.carriedSlot, made.stride]
  moved : FoldsBack body (header + 1) fold.modulo made.sum made.moved
  returns : (body.block (header + 1)).terminator =
    .br ⟨header, [made.advanced, made.combined, made.moved]⟩
  merged : (body.block (header + 2)).params = [made.result] ∧
    (body.block (header + 2)).instrs = [] ∧
    (body.block (header + 2)).terminator = .br ⟨header + 3, [made.result]⟩
  leaves : (body.block (header + 3)).params = [made.left]

section Spec

variable {allowed : Nat → KernelInstr → Prop} {stated : ScalarClass} {buffers : Buffers stated}
  {slices : Slices}

variable {listed entered closed : List Nat}

theorem FoldsBack.grows {before after : KernelBody}
    (grows : KernelBody.Grows listed entered closed before after) {block : Nat}
    {modulo : Option (BitVec 64)} {address back : ValueId}
    (folds : FoldsBack before block modulo address back) :
    FoldsBack after block modulo address back := by
  cases modulo with
  | none => exact folds
  | some modulo =>
    obtain ⟨width, stated, lists⟩ := folds
    exact ⟨width, stated.grows grows, lists.grows grows⟩

theorem Looped.grows {before after : KernelBody}
    (grows : KernelBody.Grows listed entered closed before after) {origin header : Nat}
    {fold : Fold} {made : Emission} (looped : Looped buffers slices before origin header fold made)
    (from_ : origin < before.blocks.length) (whole : header + 3 < before.blocks.length)
    (entering : ∀ block ∈ [header, header + 1, header + 2, header + 3], block ∉ entered)
    (listing : header + 2 ∉ listed)
    (closing : ∀ block ∈ [origin, header, header + 1, header + 2], block ∉ closed) :
    Looped buffers slices after origin header fold made := by
  have params := fun block inside member => grows.params block inside (entering block member)
  have left := fun block inside member => grows.left block inside (closing block member)
  constructor
  · rw [left origin from_ (by simp)]
    exact looped.enters
  · exact looped.zero.grows grows
  · rw [params header (by omega) (by simp)]
    exact looped.receives
  · exact looped.address.grows grows
  · exact looped.read.grows grows
  · exact looped.home.imp_right (Held.grows grows)
  · exact looped.reached.grows grows
  · rw [left header (by omega) (by simp)]
    exact looped.branches
  · rw [params (header + 1) (by omega) (by simp)]
    exact looped.steps
  · exact looped.combined.grows grows
  · exact looped.one.grows grows
  · exact looped.advanced.grows grows
  · exact looped.stride.grows grows
  · exact looped.sum.grows grows
  · exact looped.moved.grows grows
  · rw [left (header + 1) (by omega) (by simp)]
    exact looped.returns
  · rw [params (header + 2) (by omega) (by simp), grows.kept (header + 2) (by omega) listing,
      left (header + 2) (by omega) (by simp)]
    exact looped.merged
  · rw [params (header + 3) whole (by simp)]
    exact looped.leaves

variable {builder : Builder}

theorem foldedBack_spec {block : Nat} (building : Building allowed builder)
    (inside : block < builder.body.blocks.length) (modulo : Option (BitVec 64)) {address : ValueId}
    (known : address < builder.body.values.length) :
    ∃ back after, foldedBack block modulo address builder = (back, after) ∧
      Emitted allowed block builder after ∧ back < after.body.values.length ∧
      FoldsBack after.body block modulo address back := by
  cases modulo with
  | none => exact ⟨address, builder, rfl, .refl building, known, rfl⟩
  | some modulo =>
    obtain ⟨width, middle, ran, first, constant⟩ :=
      constant block building .int modulo
    obtain ⟨back, after, pushed, second, lists⟩ := push first.building
      (Nat.lt_of_lt_of_eq inside first.blocks.symm) (.bin .int .rem)
      [address, width]
      (fun arg member => by
        rcases mem_cons.1 member with rfl | member
        · exact first.goes.longer known
        · rw [mem_singleton.1 member]
          exact constant.lt)
      (fun acts => by cases acts)
    exact ⟨back, after, (bind_run ran).trans pushed, first.trans second, lists.lt, width,
      constant.grows second.goes.grows, lists⟩

theorem Goes.old {listed' entered' closed' : List Nat}
    {before after : Builder} (goes : Goes listed entered closed before after)
    (lists : ∀ block < before.body.blocks.length, block ∈ listed → block ∈ listed')
    (enters : ∀ block < before.body.blocks.length, block ∈ entered → block ∈ entered')
    (closes : ∀ block < before.body.blocks.length, block ∈ closed → block ∈ closed') :
    Goes listed' entered' closed' before after :=
  ⟨⟨goes.grows.values, goes.grows.blocks, goes.grows.entry, goes.grows.instrs,
    fun block inside outside => goes.grows.kept block inside
      fun member => outside (lists block inside member),
    fun block inside outside => goes.grows.params block inside
      fun member => outside (enters block inside member),
    fun block inside outside => goes.grows.left block inside
      fun member => outside (closes block inside member)⟩, goes.block, goes.stated⟩

theorem openOne_spec (building : Building allowed builder) : ∃ value after,
      (∀ {β : Type} (rest : Nat → ValueId → Build β), (do
        let block ← addBlock
        let value ← addParam block
        rest block value) builder = rest builder.body.blocks.length value after) ∧
      Building allowed after ∧ Goes [] [] [] builder after ∧
      (after.body.block builder.body.blocks.length).params = [value] ∧
      (after.body.block builder.body.blocks.length).instrs = [] ∧
      value < after.body.values.length ∧
      after.body.blocks.length = builder.body.blocks.length + 1 := by
  obtain ⟨middle, opened, built, goes, length, fresh⟩ := addBlock_spec building
  obtain ⟨value, after, ran, built, received, params, instrs, within, same⟩ :=
    addParam_spec built builder.body.blocks.length (by omega) (by rw [fresh])
  refine ⟨value, after, fun rest => (bind_run opened).trans (bind_run ran), built, ?_, ?_, instrs,
    within, same.trans length⟩
  · refine (goes.trans received).old ?_ ?_ ?_
    · simp
    · intro block inside member
      simp only [nil_append, mem_singleton] at member
      omega
    · simp
  · rw [params, fresh]
    rfl

theorem openThree_spec (building : Building allowed builder) : ∃ first second third after,
      (∀ {β : Type} (rest : Nat → ValueId → ValueId → ValueId → Build β), (do
        let block ← addBlock
        let first ← addParam block
        let second ← addParam block
        let third ← addParam block
        rest block first second third) builder =
          rest builder.body.blocks.length first second third after) ∧
      Building allowed after ∧ Goes [] [] [] builder after ∧
      (after.body.block builder.body.blocks.length).params = [first, second, third] ∧
      (after.body.block builder.body.blocks.length).instrs = [] ∧
      (∀ value ∈ [first, second, third], value < after.body.values.length) ∧
      after.body.blocks.length = builder.body.blocks.length + 1 := by
  obtain ⟨first, one, opened, built, goes, params, instrs, within, length⟩ := openOne_spec building
  obtain ⟨second, two, ran, built, received, params', instrs, within', same⟩ :=
    addParam_spec built builder.body.blocks.length (by omega) instrs
  obtain ⟨third, after, ran', built, received', params'', instrs, within'', same'⟩ :=
    addParam_spec built builder.body.blocks.length (by omega) instrs
  refine ⟨first, second, third, after, fun rest => ?_, built, ?_, ?_, instrs, ?_, by omega⟩
  · exact (opened _).trans ((bind_run ran).trans (bind_run ran'))
  · refine (goes.trans (received.trans received')).old ?_ ?_ ?_
    · simp
    · intro block inside member
      simp only [nil_append, cons_append, mem_cons, not_mem_nil, or_false, or_self] at member
      omega
    · simp
  · rw [params'', params', params]
    rfl
  · intro value member
    rcases mem_cons.1 member with rfl | member
    · exact received'.longer (received.longer within)
    rcases mem_cons.1 member with rfl | member
    · exact received'.longer within'
    · rw [mem_singleton.1 member]
      exact within''

theorem Element.Fits.goes {before after : Builder}
    (goes : Goes listed entered closed before after) {element : Element} {datum : List Step}
    (fits : element.Fits before datum) : element.Fits after datum := by
  cases element with
  | slice ordinal observed => exact goes.longer fits
  | function position function => exact fits
  | buffer position => trivial
  | address => trivial

theorem mem_pair {α : Type} {p : α → Prop} {first second : α} (one : p first) (two : p second) :
    ∀ item ∈ [first, second], p item :=
  forall_mem_cons.2 ⟨one, forall_mem_singleton.2 two⟩

/-- What the header emits: the element at its slot, and whether a step is left. -/
theorem header_spec (buffers : Buffers stated) (slices : Slices)
    (building : Building allowed builder) {at_ : Nat} (home : builder.block = at_)
    (inside : at_ < builder.body.blocks.length) (own : builder.stated = stated) (fold : Fold)
    (slot counter : ValueId) (slotKnown : slot < builder.body.values.length)
    (counterKnown : counter < builder.body.values.length)
    (stopKnown : fold.stop < builder.body.values.length)
    (fits : fold.element.Fits builder fold.datum)
    (may : ∀ op, fold.element.access stated = some op → allowed at_ op) :
    ∃ address read reached after, (∀ {β : Type} (rest : ValueId → ValueId → ValueId → Build β), (do
        let address ← foldedBack at_ fold.modulo slot
        let read ← elementAt fold.element address fold.datum
        let reached ← push at_ (.bin .int .lt) [counter, fold.stop]
        rest address read reached) builder = rest address read reached after) ∧
      Emitted allowed at_ builder after ∧ (read = address ∨ Held after.body at_ read) ∧
      address < after.body.values.length ∧ FoldsBack after.body at_ fold.modulo slot address ∧
      Contributes buffers slices after.body at_ fold.element fold.datum address read ∧
      after.body.Lists at_ reached (.bin .int .lt) [counter, fold.stop] := by
  subst home
  obtain ⟨address, one, back, first, known, folds⟩ :=
    foldedBack_spec building inside fold.modulo slotKnown
  have grown := fits.goes first.goes
  obtain ⟨read, two, at_, second, homed, contributes⟩ := elementAt_spec buffers slices
    first.building (by rw [first.goes.block, first.blocks]; exact inside)
    (first.goes.stated.trans own) known grown (by rw [first.goes.block]; exact may)
  rw [first.goes.block] at second contributes homed
  obtain ⟨reached, after, pushed, third, lists⟩ := push second.building
    (by rw [second.blocks, first.blocks]; exact inside) (.bin .int .lt)
    [counter, fold.stop]
    (mem_pair (second.goes.longer (first.goes.longer counterKnown))
      (second.goes.longer (first.goes.longer stopKnown)))
    (fun acts => by cases acts)
  refine ⟨address, read, reached, after, fun rest => ?_, (first.trans second).trans third,
    homed.imp_right (Held.grows third.goes.grows),
    third.goes.longer (second.goes.longer known), (folds.grows second.goes.grows).grows third.goes.grows,
    contributes.grows third.goes.grows, lists⟩
  exact (bind_run back).trans ((bind_run at_).trans (bind_run pushed))

/-- What a step emits: the combined value, the count after it, and the slot after it. -/
theorem step_spec (building : Building allowed builder)
    {at_ : Nat} (home : builder.block = at_) (inside : at_ < builder.body.blocks.length)
    {own : ScalarClass} (same : builder.stated = own) (fold : Fold)
    {held read next carriedSlot : ValueId} (heldKnown : held < builder.body.values.length)
    (readKnown : read < builder.body.values.length) (nextKnown : next < builder.body.values.length)
    (slotKnown : carriedSlot < builder.body.values.length) :
    ∃ combined one advanced stride sum moved after,
      (∀ {β : Type} (rest : ValueId → ValueId → ValueId → Build β), (do
        let combined ← push at_ (.bin own fold.operator) [held, read]
        let one ← constant .int 1
        let advanced ← push at_ (.bin .int .add) [next, one]
        let stride ← constant .int fold.stride
        let moved ← push at_ (.bin .int .add) [carriedSlot, stride]
        let moved ← foldedBack at_ fold.modulo moved
        rest combined advanced moved) builder = rest combined advanced moved after) ∧
      Emitted allowed at_ builder after ∧
      after.body.Lists at_ combined (.bin own fold.operator) [held, read] ∧
      after.body.Lists 0 one (.const .int 1) [] ∧
      after.body.Lists at_ advanced (.bin .int .add) [next, one] ∧
      after.body.Lists 0 stride (.const .int fold.stride) [] ∧
      after.body.Lists at_ sum (.bin .int .add) [carriedSlot, stride] ∧
      FoldsBack after.body at_ fold.modulo sum moved := by
  subst home same
  obtain ⟨combined, b1, r1, e1, l1⟩ := push building inside
    (.bin builder.stated fold.operator) [held, read]
    (mem_pair heldKnown readKnown) (fun acts => by cases acts)
  obtain ⟨one, b2, r2, e2, l2⟩ :=
    constant builder.block e1.building .int 1
  have e12 := e1.trans e2
  obtain ⟨advanced, b3, r3, e3, l3⟩ := push e2.building
    (Nat.lt_of_lt_of_eq inside e12.blocks.symm) (.bin .int .add) [next, one]
    (mem_pair (e12.goes.longer nextKnown) l2.lt) (fun acts => by cases acts)
  obtain ⟨stride, b4, r4, e4, l4⟩ :=
    constant builder.block e3.building .int fold.stride
  have e14 := (e12.trans e3).trans e4
  obtain ⟨sum, b5, r5, e5, l5⟩ := push e4.building
    (Nat.lt_of_lt_of_eq inside e14.blocks.symm) (.bin .int .add)
    [carriedSlot, stride] (mem_pair (e14.goes.longer slotKnown) l4.lt)
    (fun acts => by cases acts)
  have e15 := e14.trans e5
  obtain ⟨moved, after, r6, e6, -, folds⟩ := foldedBack_spec e5.building
    (Nat.lt_of_lt_of_eq inside e15.blocks.symm) fold.modulo l5.lt
  have later := e5.trans e6
  have latest := e4.trans later
  have last := e3.trans latest
  refine ⟨combined, one, advanced, stride, sum, moved, after, fun rest => ?_, e15.trans e6,
    (l1.grows e2.goes.grows).grows last.goes.grows, l2.grows last.goes.grows,
    l3.grows latest.goes.grows, l4.grows later.goes.grows, l5.grows e6.goes.grows, folds⟩
  exact (bind_run r1).trans ((bind_run r2).trans ((bind_run r3).trans ((bind_run r4).trans
    ((bind_run r5).trans (bind_run r6)))))

/-- A fold emits its loop after the blocks there are, and is left in its last block. -/
theorem Fold.run_spec (buffers : Buffers stated) (slices : Slices)
    (building : Building allowed builder) (inside : builder.block < builder.body.blocks.length)
    (own : builder.stated = stated) (fold : Fold)
    (stopKnown : fold.stop < builder.body.values.length)
    (fits : fold.element.Fits builder fold.datum)
    (may : ∀ op, fold.element.access stated = some op → allowed builder.body.blocks.length op) :
    ∃ made after, fold.run builder = (made.left, after) ∧ Building allowed after ∧
      KernelBody.Grows [0] [] [builder.block] builder.body after.body ∧
      after.stated = stated ∧ after.block = builder.body.blocks.length + 3 ∧
      after.body.blocks.length = builder.body.blocks.length + 4 ∧
      Looped buffers slices after.body builder.block builder.body.blocks.length fold made ∧
      (after.body.block (builder.body.blocks.length + 3)).instrs = [] ∧
      made.left < after.body.values.length := by
  obtain ⟨counter, value, slot, b1, r1, built, g1, p1, -, w1, l1⟩ := openThree_spec building
  obtain ⟨next, held, carriedSlot, b2, r2, built, g2, p2, -, w2, l2⟩ := openThree_spec built
  obtain ⟨result, b3, r3, built, g3, p3, i3, -, l3⟩ := openOne_spec built
  obtain ⟨nought, b4, r4, built, g4, zeroLists, l4⟩ := constant_spec built .int 0
  rw [l1] at p2 r2 l2
  rw [l2] at p3 i3 r3 l3
  -- The slots the header and the step receive stay values of the body.
  have g24 := (g2.trans g3).trans g4
  have g34 := g3.trans g4
  obtain ⟨address, read, reached, b5, r5, e5, homed, addressKnown, folds, contributes, reachedLists⟩ :=
    header_spec buffers slices (built.enter builder.body.blocks.length) rfl
      (by show builder.body.blocks.length < b4.body.blocks.length; omega)
      ((g24.stated.trans g1.stated).trans own) fold slot counter
      (g24.longer (w1 slot (by simp))) (g24.longer (w1 counter (by simp)))
      ((g1.trans g24).longer stopKnown) (fits.goes (g1.trans g24)) may
  have readKnown : read < b5.body.values.length := by
    rcases homed with rfl | held
    · exact addressKnown
    · exact held.lt e5.building
  have l5 := e5.blocks.trans l4
  have g5 := e5.goes.grows
  obtain ⟨b6, r6, built, g6, t6, l6⟩ := setTerminator_spec e5.building builder.block
    (by omega) (.br ⟨builder.body.blocks.length, [nought, fold.identity, fold.start]⟩)
  obtain ⟨b7, r7, built, g7, t7, l7⟩ := setTerminator_spec built
    builder.body.blocks.length (by omega)
    (.condBr reached ⟨builder.body.blocks.length + 1, [counter, value, slot]⟩
      ⟨builder.body.blocks.length + 2, [value]⟩)
  have g57 := g5.trans (g6.trans g7).grows
  have stated7 : b7.stated = stated :=
    g7.stated.trans (g6.stated.trans (e5.goes.stated.trans
      ((g24.stated.trans g1.stated).trans own)))
  obtain ⟨combined, one, advanced, stride, sum, moved, b8, r8, e8, combinedLists, oneLists,
      advancedLists, strideLists, sumLists, folds'⟩ :=
    step_spec (built.enter (builder.body.blocks.length + 1)) rfl
      (by show builder.body.blocks.length + 1 < b7.body.blocks.length; omega) rfl fold
      (Nat.lt_of_lt_of_le (g34.longer (w2 held (by simp))) g57.values.length_le)
      (Nat.lt_of_lt_of_le readKnown (g6.trans g7).grows.values.length_le)
      (Nat.lt_of_lt_of_le (g34.longer (w2 next (by simp))) g57.values.length_le)
      (Nat.lt_of_lt_of_le (g34.longer (w2 carriedSlot (by simp))) g57.values.length_le)
  have l8 := e8.blocks.trans (show b7.body.blocks.length = _ from l7.trans (l6.trans l5))
  obtain ⟨b9, r9, built, g9, t9, l9⟩ := setTerminator_spec e8.building
    (builder.body.blocks.length + 1) (by omega)
    (.br ⟨builder.body.blocks.length, [advanced, combined, moved]⟩)
  obtain ⟨left, b10, r10, built, g10, p10, i10, w10, l10⟩ :=
    openOne_spec (built.enter (builder.body.blocks.length + 2))
  have l9' : b9.body.blocks.length = builder.body.blocks.length + 3 := by omega
  rw [show ({ b9 with block := builder.body.blocks.length + 2 } : Builder).body.blocks.length =
    builder.body.blocks.length + 3 from l9'] at r10 p10 i10 l10
  obtain ⟨b11, r11, built, g11, t11, l11⟩ := setTerminator_spec built
    (builder.body.blocks.length + 2) (by omega)
    (.br ⟨builder.body.blocks.length + 3, [result]⟩)
  -- What is still to come after each stretch of the walk.
  have last := g11.grows
  have from10 := g10.grows.trans last
  have from9 := g9.grows.trans from10
  have from8 := e8.goes.grows.trans from9
  have from7 := g7.grows.trans from8
  have from6 := g6.grows.trans from7
  have from5 := g5.trans from6
  have from4 := g4.grows.trans from5
  have from3 := g3.grows.trans from4
  have from2 := g2.grows.trans from3
  have whole := g1.grows.trans from2
  refine ⟨⟨counter, value, slot, next, held, carriedSlot, result, nought, address, read, reached,
    combined, one, advanced, stride, sum, moved, left⟩, _, ?_, built.enter _, ?_, ?_, rfl, ?_, ?_,
    ?_, ?_⟩
  · unfold Fold.run
    refine (bind_run (show current builder = (builder.block, builder) from rfl)).trans ?_
    refine (r1 _).trans ?_
    refine (r2 _).trans ?_
    refine (r3 _).trans ?_
    refine (bind_run r4).trans ?_
    refine (bind_run (show enter _ b4 = ((), _) from rfl)).trans ?_
    refine (r5 _).trans ?_
    refine (bind_run r6).trans ?_
    refine (bind_run r7).trans ?_
    refine (bind_run (show enter _ b7 = ((), _) from rfl)).trans ?_
    refine (bind_run (show (get : Build Builder) _ = (_, _) from rfl)).trans ?_
    refine (r8 _).trans ?_
    refine (bind_run r9).trans ?_
    refine (bind_run (show enter _ b9 = ((), _) from rfl)).trans ?_
    refine (r10 _).trans ?_
    exact bind_run r11
  · refine ⟨whole.values, whole.blocks, whole.entry, whole.instrs, ?_, ?_, ?_⟩
    · intro block old outside
      refine whole.kept block old ?_
      simp only [mem_singleton] at outside
      simp only [nil_append, cons_append, mem_cons, not_mem_nil, or_false, not_or]
      omega
    · intro block old outside
      exact whole.params block old (by simp)
    · intro block old outside
      refine whole.left block old ?_
      simp only [mem_singleton] at outside
      simp only [nil_append, cons_append, mem_cons, not_mem_nil, or_false, not_or]
      omega
  · show b11.stated = stated
    rw [g11.stated, g10.stated]
    show b9.stated = stated
    rw [g9.stated, e8.goes.stated]
    exact stated7
  · show b11.body.blocks.length = _
    omega
  · constructor
    · show (b11.body.block builder.block).terminator = _
      rw [from7.left builder.block (by omega) (by simp; omega)]
      exact t6
    · exact zeroLists.grows from5
    · show (b11.body.block builder.body.blocks.length).params = _
      rw [from2.params _ (by omega) (by simp)]
      exact p1
    · exact folds.grows from6
    · exact contributes.grows from6
    · exact homed.imp_right (Held.grows from6)
    · exact reachedLists.grows from6
    · show (b11.body.block builder.body.blocks.length).terminator = _
      rw [from8.left builder.body.blocks.length (by show _ < b7.body.blocks.length; omega) (by simp)]
      exact t7
    · show (b11.body.block (builder.body.blocks.length + 1)).params = _
      rw [from3.params _ (by omega) (by simp)]
      exact p2
    · rw [stated7] at combinedLists
      exact combinedLists.grows from9
    · exact oneLists.grows from9
    · exact advancedLists.grows from9
    · exact strideLists.grows from9
    · exact sumLists.grows from9
    · exact folds'.grows from9
    · show (b11.body.block (builder.body.blocks.length + 1)).terminator = _
      rw [from10.left (builder.body.blocks.length + 1)
        (by show _ < b9.body.blocks.length; omega) (by simp)]
      exact t9
    · refine ⟨?_, ?_, t11⟩
      · show (b11.body.block (builder.body.blocks.length + 2)).params = _
        rw [from4.params _ (by omega) (by simp)]
        exact p3
      · show (b11.body.block (builder.body.blocks.length + 2)).instrs = _
        rw [from4.kept _ (by omega) (by simp)]
        exact i3
    · show (b11.body.block (builder.body.blocks.length + 3)).params = _
      rw [last.params _ (by omega) (by simp)]
      exact p10
  · show (b11.body.block (builder.body.blocks.length + 3)).instrs = _
    rw [last.kept _ (by omega) (by simp)]
    exact i10
  · exact Nat.lt_of_lt_of_le w10 last.values.length_le

end Spec

end LichenVm.FusionBridge
