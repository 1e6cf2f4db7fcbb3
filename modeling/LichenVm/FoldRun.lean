import LichenVm.FoldLoop
import LichenVm.Reassociation
import Mathlib.Logic.Relation

open List

namespace LichenVm.FusionBridge

open Fusion KernelIr Reassociation KernelBody

def backWord (modulo : Option (BitVec 64)) (address : BitVec 64) : BitVec 64 :=
  match modulo with
  | some modulo => address % modulo
  | none => address

/-- The slot a loop carries into each of its steps. -/
def slotWord (start stride : BitVec 64) (modulo : Option (BitVec 64)) : Nat → BitVec 64
  | 0 => start
  | step + 1 => backWord modulo (slotWord start stride modulo step + stride)

@[simp]
theorem taken_flag (held : Bool) : Number.taken (.flag held) = some held := by
  cases held <;> rfl

section Run

variable {stated : ScalarClass} (buffers : Buffers stated) (slices : Slices) (body : KernelBody)

/-- One block of a lane to the next. -/
def Comes : Frame Traced → Frame Traced → Prop :=
  Relation.ReflTransGen fun before after =>
    body.next Traced.meaning (fun _ => answer buffers slices) before = .continues after

/-- A frame whose block has executed. -/
noncomputable def executed (frame : Frame Traced) : Frame Traced :=
  body.execute Traced.meaning (fun _ => answer buffers slices) (body.block frame.block).instrs frame

variable {buffers slices body} {before after : Frame Traced}

theorem Comes.step
    (stepped : body.next Traced.meaning (fun _ => answer buffers slices) before = .continues after) :
    Comes buffers slices body before after :=
  .single stepped

theorem Comes.trans {middle : Frame Traced} (first : Comes buffers slices body before middle)
    (second : Comes buffers slices body middle after) : Comes buffers slices body before after :=
  Relation.ReflTransGen.trans first second

theorem Comes.returns (comes : Comes buffers slices body before after)
    {result : List Traced × List (Event Traced)}
    (ends : body.Returns Traced.meaning (fun _ => answer buffers slices) after result) :
    body.Returns Traced.meaning (fun _ => answer buffers slices) before result := by
  induction comes using Relation.ReflTransGen.head_induction_on with
  | refl => exact ends
  | head stepped _ ih => exact .continues stepped ih

variable (buffers slices) in
theorem next_br (frame : Frame Traced) (branch : Br)
    (leaves : (body.block frame.block).terminator = .br branch) :
    body.next Traced.meaning (fun _ => answer buffers slices) frame =
      .continues (body.arrive branch (executed buffers slices body frame)) := by
  unfold KernelBody.next leave
  rw [execute_block, leaves]
  rfl

variable {frame : Frame Traced}

theorem next_condBr {cond : ValueId} {ifTrue ifFalse : Br} (held : Bool)
    (leaves : (body.block frame.block).terminator = .condBr cond ifTrue ifFalse)
    (holds : ((executed buffers slices body frame).bound cond).number = .flag held) :
    body.next Traced.meaning (fun _ => answer buffers slices) frame =
      .continues (body.arrive (if held then ifTrue else ifFalse)
        (executed buffers slices body frame)) := by
  have taken : Traced.meaning.taken ((executed buffers slices body frame).bound cond) =
      some held := by
    show Number.taken _ = _
    rw [holds, taken_flag]
  unfold KernelBody.next leave
  unfold executed at taken
  rw [execute_block, leaves]
  simp only [taken]
  cases held <;> rfl

theorem ordered (laid : body.Laid) (block : Nat) : body.Ordered (body.block block).instrs :=
  ⟨(pairwise_append.1 (laid.sorted block)).2.1, fun value _ => laid.earlier value⟩

variable (buffers slices) in
theorem executed_settled (laid : body.Laid) (frame : Frame Traced) :
    Settled buffers slices body frame.block (executed buffers slices body frame).bound := by
  constructor
  · rintro value op args ⟨member, classes, found⟩ pure
    exact (ordered laid frame.block).computes member found pure frame
  · rintro value op args ⟨member, classes, found⟩ acts leaves
    exact (ordered laid frame.block).answers member found acts leaves frame

variable {value : ValueId}

theorem executed_other (outside : value ∉ (body.block frame.block).instrs) :
    (executed buffers slices body frame).bound value = frame.bound value :=
  execute_outside outside frame

section

variable (laid : body.Laid)

include laid

variable (buffers slices) in
theorem executed_knows (apart : frame.block ≠ 0) (knows : Knows body frame.bound) :
    Knows body (executed buffers slices body frame).bound := by
  intro value own bits lists
  rw [← knows value own bits lists]
  apply executed_other
  intro member
  exact apart (laid.home 0 frame.block value (mem_append_right _ lists.1)
    (mem_append_right _ member)).symm

theorem param_not_listed {block : Nat} (received : value ∈ (body.block block).params) :
    value ∉ (body.block block).instrs := by
  intro listed
  exact lt_irrefl _ ((pairwise_append.1 (laid.sorted block)).2.2 value received value listed)

theorem params_nodup (block : Nat) : (body.block block).params.Nodup :=
  (pairwise_append.1 (laid.sorted block)).1.imp fun less => ne_of_lt less

theorem not_owned {home block : Nat} (own : value ∈ body.owned home) (apart : home ≠ block) :
    value ∉ body.owned block :=
  fun member => apart (laid.home home block value own member)

theorem arrive_params (frame : Frame Traced) (branch : Br)
    (arity : branch.args.length = (body.block branch.target).params.length) :
    (body.block branch.target).params.map (body.arrive branch frame).bound =
      branch.args.map frame.bound :=
  receive_map (params_nodup laid branch.target) (by rw [length_map]; exact arity) _

end

theorem arrive_other {branch : Br} (outside : value ∉ (body.block branch.target).params) :
    (body.arrive branch frame).bound value = frame.bound value :=
  receive_outside outside _ _

variable (buffers slices) in
theorem executed_trace (laid : body.Laid) {allowed : Nat → KernelInstr → Prop}
    (acts : ∀ block value op args, body.Lists block value op args → op.acts →
      allowed block op) (frame : Frame Traced) :
    ∃ events, (executed buffers slices body frame).trace = frame.trace ++ events ∧
      ∀ event ∈ events, allowed frame.block event.op := by
  refine ⟨_, (ordered laid frame.block).traces frame, ?_⟩
  intro event member
  obtain ⟨value, listed, found⟩ := mem_filterMap.1 member
  unfold eventAt at found
  split at found
  · rename_i op args classes definition
    split at found
    · rename_i acting
      cases found
      exact acts frame.block value op args ⟨listed, classes, definition⟩ acting
    · cases found
  · cases found

end Run

section Loop

variable {allowed : Nat → KernelInstr → Prop} {stated : ScalarClass} {buffers : Buffers stated}
  {slices : Slices} {body : KernelBody} {origin header : Nat} {fold : Fold} {made : Emission}

/-- A value none of a loop's blocks bind. -/
def Outside (body : KernelBody) (header : Nat) (value : ValueId) : Prop :=
  ∀ block, header ≤ block → block ≤ header + 3 → value ∉ body.owned block

/-- What a lane does inside a loop: it keeps what the loop does not bind, and acts only as the
blocks of the loop may. -/
structure Inside (allowed : Nat → KernelInstr → Prop) (body : KernelBody) (header : Nat)
    (before after : Frame Traced) : Prop where
  kept : ∀ value, Outside body header value → after.bound value = before.bound value
  acted : ∃ events, after.trace = before.trace ++ events ∧
    ∀ event ∈ events, ∃ block, header ≤ block ∧ block ≤ header + 2 ∧ allowed block event.op

theorem Inside.trans {before middle after : Frame Traced}
    (first : Inside allowed body header before middle)
    (second : Inside allowed body header middle after) :
    Inside allowed body header before after := by
  refine ⟨fun value outside => (second.kept value outside).trans (first.kept value outside), ?_⟩
  obtain ⟨events, one, allowed⟩ := first.acted
  obtain ⟨more, two, allowed'⟩ := second.acted
  refine ⟨events ++ more, by rw [two, one, append_assoc], ?_⟩
  intro event member
  rcases mem_append.1 member with member | member
  · exact allowed event member
  · exact allowed' event member

theorem Inside.knows (laid : body.Laid) (entered : 0 < header) {before after : Frame Traced}
    (inside : Inside allowed body header before after) (knows : Knows body before.bound) :
    Knows body after.bound := by
  intro value own bits lists
  rw [inside.kept value ?_]
  · exact knows value own bits lists
  · intro block from_ _
    exact not_owned laid (mem_append_right _ lists.1) (by omega)

theorem Inside.passes (laid : body.Laid)
    (acts : ∀ block value op args, body.Lists block value op args → op.acts →
      allowed block op) {frame : Frame Traced} {branch : Br} (from_ : header ≤ frame.block)
    (upto : frame.block ≤ header + 2) (targetFrom : header ≤ branch.target)
    (targetTo : branch.target ≤ header + 3) :
    Inside allowed body header frame (body.arrive branch (executed buffers slices body frame)) := by
  constructor
  · intro value outside
    have here := outside frame.block from_ (by omega)
    have there := outside branch.target targetFrom targetTo
    rw [arrive_other fun member => there (mem_append_left _ member),
      executed_other fun member => here (mem_append_right _ member)]
  · obtain ⟨events, trace, allowed⟩ := executed_trace buffers slices laid acts frame
    exact ⟨events, trace, fun event member => ⟨_, from_, upto, allowed event member⟩⟩

theorem foldsBack_holds {block : Nat} {modulo : Option (BitVec 64)} {address back : ValueId}
    (folds : FoldsBack body block modulo address back) {bound : ValueId → Traced}
    (settled : Settled buffers slices body block bound) (knows : Knows body bound)
    {word : BitVec 64} (holds : bound address = .plain (.word word)) :
    bound back = .plain (.word (backWord modulo word)) := by
  cases modulo with
  | none =>
    cases folds
    exact holds
  | some modulo =>
    obtain ⟨width, constant, lists⟩ := folds
    rw [settled.computes back _ _ lists rfl, map_cons, map_singleton, holds,
      knows width .int _ constant]
    rfl

variable (buffers slices fold) in
/-- What the element of a loop's step contributes. -/
noncomputable def contributed (start : BitVec 64) (step : Nat) : Traced :=
  contribution buffers slices fold.element fold.datum
    (.plain (.word (backWord fold.modulo (slotWord start fold.stride fold.modulo step))))

variable (stated fold) in
noncomputable def joined (left right : Traced) : Traced :=
  Traced.meaning.compute (.bin stated fold.operator) [left, right]

/-- A lane at the header of a loop, with some of its steps taken. -/
structure AtHeader (buffers : Buffers stated) (slices : Slices) (header : Nat) (fold : Fold)
    (made : Emission) (start : BitVec 64) (identity : Traced) (step : Nat)
    (frame : Frame Traced) : Prop where
  block : frame.block = header
  counter : frame.bound made.counter = .plain (.word (.ofNat 64 step))
  value : frame.bound made.value =
    folded (joined stated fold) identity (contributed buffers slices fold start) step
  slot : frame.bound made.slot = .plain (.word (slotWord start fold.stride fold.modulo step))

section Steps

variable (laid : body.Laid)
  (acts : ∀ block value op args, body.Lists block value op args → op.acts → allowed block op)
  (entered : 0 < header) (looped : Looped buffers slices body origin header fold made)

include entered looped in
theorem Looped.read_home : ∃ home, home < header + 1 ∧ made.read ∈ body.owned home := by
  have params : made.slot ∈ (body.block header).params := by
    rw [looped.receives]
    simp
  rcases looped.home with same | entry | own
  · rw [same]
    have folds := looped.address
    cases modulo : fold.modulo with
    | none =>
      rw [modulo] at folds
      have slot : made.address = made.slot := folds
      rw [slot]
      exact ⟨header, Nat.lt_succ_self _, mem_append_left _ params⟩
    | some modulo' =>
      rw [modulo] at folds
      obtain ⟨width, -, lists⟩ := folds
      exact ⟨header, Nat.lt_succ_self _, mem_append_right _ lists.1⟩
  · exact ⟨0, by omega, mem_append_right _ entry⟩
  · exact ⟨header, Nat.lt_succ_self _, mem_append_right _ own⟩

variable {start stop : BitVec 64} {identity : Traced} {frame : Frame Traced}

section

variable {step : Nat} (at_ : AtHeader buffers slices header fold made start identity step frame)

include at_

/-- What the header leaves, the slot it was handed and the values it reads. -/
theorem AtHeader.reads (laid : body.Laid)
    (looped : Looped buffers slices body origin header fold made) (entered : 0 < header)
    (knows : Knows body frame.bound) (outside : Outside body header fold.stop)
    (stops : frame.bound fold.stop = .plain (.word stop)) :
    let after := executed buffers slices body frame
    after.bound made.counter = frame.bound made.counter ∧
      after.bound made.value = frame.bound made.value ∧
      after.bound made.slot = frame.bound made.slot ∧
      after.bound made.read = contributed buffers slices fold start step ∧
      after.bound made.reached = .plain (.flag (BitVec.ofNat 64 step < stop)) := by
  intro after
  have settled := executed_settled buffers slices laid frame
  have here : ∀ value ∈ [made.counter, made.value, made.slot],
      after.bound value = frame.bound value := by
    intro value member
    apply executed_other
    rw [at_.block]
    apply param_not_listed laid
    rw [looped.receives]
    exact member
  have known : Knows body after.bound :=
    executed_knows buffers slices laid (by rw [at_.block]; omega) knows
  rw [at_.block] at settled
  refine ⟨here _ (by simp), here _ (by simp), here _ (by simp), ?_, ?_⟩
  · rw [looped.read after.bound settled known]
    unfold contributed
    rw [foldsBack_holds looped.address settled known ((here _ (by simp)).trans at_.slot)]
  · have stopped : after.bound fold.stop = .plain (.word stop) := by
      rw [← stops]
      apply executed_other
      rw [at_.block]
      exact fun member =>
        outside header (le_refl _) (by omega) (mem_append_right _ member)
    rw [settled.computes made.reached _ _ looped.reached rfl, map_cons, map_singleton,
      stopped, here _ (by simp), at_.counter]
    rfl

include laid acts entered looped in
/-- A step of a loop. -/
theorem AtHeader.steps (knows : Knows body frame.bound) (outside : Outside body header fold.stop)
    (stops : frame.bound fold.stop = .plain (.word stop)) (more : step < stop.toNat) :
    ∃ after, Comes buffers slices body frame after ∧ Inside allowed body header frame after ∧
      AtHeader buffers slices header fold made start identity (step + 1) after := by
  obtain ⟨counter, value, slot, read, reached⟩ :=
    at_.reads laid looped entered knows outside stops
  have less : BitVec.ofNat 64 step < stop := by
    exact lt_of_le_of_lt (Nat.mod_le _ _) more
  have leaves : (body.block frame.block).terminator =
      .condBr made.reached ⟨header + 1, [made.counter, made.value, made.slot]⟩
        ⟨header + 2, [made.value]⟩ := by
    rw [at_.block]
    exact looped.branches
  have first := next_condBr true leaves (by rw [reached, decide_eq_true less]; rfl)
  rw [if_pos rfl] at first
  generalize goes : body.arrive ⟨header + 1, [made.counter, made.value, made.slot]⟩
    (executed buffers slices body frame) = middle at first
  have inside : Inside allowed body header frame middle := by
    rw [← goes]
    exact .passes laid acts (by rw [at_.block]) (by rw [at_.block]; omega) (Nat.le_succ _) (by
      show header + 1 ≤ header + 3
      omega)
  have middleBlock : middle.block = header + 1 := by rw [← goes]; rfl
  -- The step is handed what the header was.
  have handed := arrive_params laid (executed buffers slices body frame)
    ⟨header + 1, [made.counter, made.value, made.slot]⟩
    (by rw [looped.steps]; rfl)
  rw [goes, looped.steps] at handed
  simp only [map_cons, map_nil, List.cons.injEq, and_true] at handed
  obtain ⟨handedCount, handedValue, handedSlot⟩ := handed
  obtain ⟨home, before, owned⟩ := looped.read_home entered
  have away : made.read ∉ body.owned (header + 1) := not_owned laid owned (ne_of_lt before)
  have carried : middle.bound made.read = contributed buffers slices fold start step := by
    rw [← read, ← goes]
    exact arrive_other fun member => away (mem_append_left _ member)
  have settled := executed_settled buffers slices laid middle
  have known := executed_knows buffers slices laid
    (by rw [middleBlock]; omega) (inside.knows laid entered knows)
  have kept : ∀ value ∈ [made.next, made.held, made.carriedSlot],
      (executed buffers slices body middle).bound value = middle.bound value := by
    intro value member
    apply executed_other
    rw [middleBlock]
    apply param_not_listed laid
    rw [looped.steps]
    exact member
  have readKept : (executed buffers slices body middle).bound made.read = middle.bound made.read := by
    apply executed_other
    rw [middleBlock]
    exact fun member => away (mem_append_right _ member)
  rw [middleBlock] at settled
  have advances := settled.computes made.advanced _ _ looped.advanced rfl
  have combines := settled.computes made.combined _ _ looped.combined rfl
  have sums := settled.computes made.sum _ _ looped.sum rfl
  simp only [map_cons, map_nil] at advances combines sums
  rw [kept made.next (by simp), known _ _ _ looped.one, handedCount, counter, at_.counter] at advances
  rw [kept made.held (by simp), readKept, carried, handedValue, value, at_.value] at combines
  rw [kept made.carriedSlot (by simp), known _ _ _ looped.stride, handedSlot, slot, at_.slot] at sums
  have moves := foldsBack_holds looped.moved settled known sums
  have second := next_br buffers slices middle
    ⟨header, [made.advanced, made.combined, made.moved]⟩
    (by rw [middleBlock]; exact looped.returns)
  have arrives := arrive_params laid (executed buffers slices body middle)
    ⟨header, [made.advanced, made.combined, made.moved]⟩
    (by rw [looped.receives]; rfl)
  rw [looped.receives] at arrives
  simp only [map_cons, map_nil, List.cons.injEq, and_true] at arrives
  obtain ⟨arrivesCount, arrivesValue, arrivesSlot⟩ := arrives
  refine ⟨_, (Comes.step first).trans (.step second), inside.trans ?_, rfl, ?_, ?_, ?_⟩
  · exact .passes laid acts (by rw [middleBlock]; omega) (by rw [middleBlock]; omega)
      (le_refl _) (Nat.le_add_right _ _)
  · rw [arrivesCount, advances]
    show Traced.plain (.word (BitVec.ofNat 64 step + 1)) = _
    rw [BitVec.ofNat_add]
    rfl
  · rw [arrivesValue, combines]
    rfl
  · rw [arrivesSlot, moves]
    rfl

end

include laid acts entered looped in
/-- A loop with no step left is left with what it folded. -/
theorem AtHeader.leaves
    (at_ : AtHeader buffers slices header fold made start identity stop.toNat frame)
    (knows : Knows body frame.bound) (outside : Outside body header fold.stop)
    (stops : frame.bound fold.stop = .plain (.word stop)) :
    ∃ after, Comes buffers slices body frame after ∧ Inside allowed body header frame after ∧
      after.block = header + 3 ∧ after.bound made.left =
        folded (joined stated fold) identity (contributed buffers slices fold start)
          stop.toNat := by
  obtain ⟨-, value, -, -, reached⟩ := at_.reads laid looped entered knows outside stops
  have last : ¬ BitVec.ofNat 64 stop.toNat < stop := by
    rw [BitVec.ofNat_toNat, BitVec.setWidth_eq]
    exact BitVec.lt_irrefl stop
  have leaves : (body.block frame.block).terminator =
      .condBr made.reached ⟨header + 1, [made.counter, made.value, made.slot]⟩
        ⟨header + 2, [made.value]⟩ := by
    rw [at_.block]
    exact looped.branches
  have first := next_condBr false leaves (by rw [reached, decide_eq_false last]; rfl)
  rw [if_neg Bool.false_ne_true] at first
  generalize goes : body.arrive ⟨header + 2, [made.value]⟩
    (executed buffers slices body frame) = middle at first
  have inside : Inside allowed body header frame middle := by
    rw [← goes]
    exact .passes laid acts (by rw [at_.block]) (by rw [at_.block]; omega)
      (Nat.le_add_right _ _) (by show header + 2 ≤ header + 3; omega)
  have middleBlock : middle.block = header + 2 := by rw [← goes]; rfl
  obtain ⟨received, empty, onward⟩ := looped.merged
  have handed := arrive_params laid (executed buffers slices body frame)
    ⟨header + 2, [made.value]⟩ (by rw [received]; rfl)
  rw [goes, received] at handed
  simp only [map_cons, map_nil, List.cons.injEq, and_true] at handed
  have second := next_br buffers slices middle
    ⟨header + 3, [made.result]⟩ (by rw [middleBlock]; exact onward)
  have arrives := arrive_params laid (executed buffers slices body middle)
    ⟨header + 3, [made.result]⟩ (by rw [looped.leaves]; rfl)
  rw [looped.leaves] at arrives
  simp only [map_cons, map_nil, List.cons.injEq, and_true] at arrives
  have idle : executed buffers slices body middle = middle := by
    unfold executed
    rw [middleBlock, empty]
    rfl
  refine ⟨_, (Comes.step first).trans (.step second), inside.trans ?_, rfl, ?_⟩
  · exact .passes laid acts (by rw [middleBlock]; omega) (by rw [middleBlock])
      (Nat.le_add_right _ _) (le_refl _)
  · rw [arrives, idle, handed, value, at_.value]

include laid acts entered looped in
theorem AtHeader.runs (outside : Outside body header fold.stop) (left : Nat)
    (at_ : AtHeader buffers slices header fold made start identity (stop.toNat - left) frame)
    (within : left ≤ stop.toNat) (knows : Knows body frame.bound)
    (stops : frame.bound fold.stop = .plain (.word stop)) :
    ∃ after, Comes buffers slices body frame after ∧ Inside allowed body header frame after ∧
      after.block = header + 3 ∧ after.bound made.left =
        folded (joined stated fold) identity (contributed buffers slices fold start)
          stop.toNat := by
  -- The induction is on the steps left.
  induction left generalizing frame with
  | zero => exact at_.leaves laid acts entered looped knows outside stops
  | succ left ih =>
    obtain ⟨middle, comes, inside, next⟩ :=
      at_.steps laid acts entered looped knows outside stops (by omega)
    rw [show stop.toNat - (left + 1) + 1 = stop.toNat - left by omega] at next
    obtain ⟨after, onward, rest, block, value⟩ := ih next (by omega)
      (inside.knows laid entered knows) ((inside.kept _ outside).trans stops)
    exact ⟨after, comes.trans onward, inside.trans rest, block, value⟩

include laid acts entered looped in
/-- A lane that executed the block before a loop comes to the block after it, with what the loop
folded. -/
theorem Looped.runs (block : frame.block = origin)
    (knows : Knows body (executed buffers slices body frame).bound)
    (outside : Outside body header fold.stop)
    (stops : (executed buffers slices body frame).bound fold.stop = .plain (.word stop))
    (starts : (executed buffers slices body frame).bound fold.start = .plain (.word start))
    (seeds : (executed buffers slices body frame).bound fold.identity = identity) :
    ∃ after, Comes buffers slices body frame after ∧
      Inside allowed body header (executed buffers slices body frame) after ∧
      after.block = header + 3 ∧ after.bound made.left =
        folded (joined stated fold) identity (contributed buffers slices fold start)
          stop.toNat := by
  have first := next_br buffers slices frame
    ⟨header, [made.zero, fold.identity, fold.start]⟩
    (by rw [block]; exact looped.enters)
  have handed := arrive_params laid (executed buffers slices body frame)
    ⟨header, [made.zero, fold.identity, fold.start]⟩ (by rw [looped.receives]; rfl)
  rw [looped.receives] at handed
  simp only [map_cons, map_nil, List.cons.injEq, and_true] at handed
  obtain ⟨counter, value, slot⟩ := handed
  rw [knows _ _ _ looped.zero] at counter
  rw [seeds] at value
  rw [starts] at slot
  have kept : ∀ other, Outside body header other →
      (body.arrive ⟨header, [made.zero, fold.identity, fold.start]⟩
        (executed buffers slices body frame)).bound other =
      (executed buffers slices body frame).bound other := fun other outside =>
    arrive_other fun member =>
      outside header (le_refl _) (by omega) (mem_append_left _ member)
  have inside : Inside allowed body header (executed buffers slices body frame)
      (body.arrive ⟨header, [made.zero, fold.identity, fold.start]⟩
        (executed buffers slices body frame)) :=
    ⟨kept, [], (append_nil _).symm, fun _ member => absurd member not_mem_nil⟩
  obtain ⟨after, comes, rest, ends, answers⟩ :=
    AtHeader.runs laid acts entered looped
      outside stop.toNat ⟨rfl, by rw [Nat.sub_self]; exact counter, by rw [Nat.sub_self]; exact value,
        by rw [Nat.sub_self]; exact slot⟩ (le_refl _) (inside.knows laid entered knows)
      ((kept _ outside).trans stops)
  exact ⟨after, (Comes.step first).trans comes, inside.trans rest, ends, answers⟩

end Steps

end Loop

end LichenVm.FusionBridge
