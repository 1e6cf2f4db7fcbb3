import LichenVm.BarrierMarks

/-! The barrier scan of a straight-line body, run again over what it recorded. -/

open List Option

namespace LichenVm.KernelIr

open Traverse

/-- Whether a value is one that a block receives. -/
def ValueDef.isParam : ValueDef → Bool
  | .blockParam _ _ => true
  | .instr _ _ _ => false

namespace KernelBody

variable {body : KernelBody}

section Record

variable {exprs : List Barrier}

theorem record_intervalFrom (fuel : Nat) :
    (body.record exprs).intervalFrom fuel = body.intervalFrom fuel := by
  induction fuel with
  | zero => rfl
  | succ fuel ih =>
    funext value memo
    rw [intervalFrom, intervalFrom, ih]
    rfl

theorem record_interval : (body.record exprs).interval = body.interval := by
  funext value memo
  unfold interval
  rw [record_intervalFrom]
  rfl

theorem record_walkLoop (fuel : Nat) : (body.record exprs).walkLoop fuel = body.walkLoop fuel := by
  induction fuel with
  | zero => rfl
  | succ fuel ih =>
    funext stack seen order
    cases stack with
    | nil => rfl
    | cons block stack =>
      rw [walkLoop, walkLoop, ih]
      rfl

theorem record_walkOrder : (body.record exprs).walkOrder = body.walkOrder := by
  unfold walkOrder
  rw [record_walkLoop]
  rfl

theorem record_place : (body.record exprs).place = body.place := by
  unfold place
  rw [record_walkOrder]

theorem record_needs : (body.record exprs).needs = body.needs := by
  funext read
  unfold needs
  rw [record_interval]
  rfl

theorem record_scanMark : (body.record exprs).scanMark = body.scanMark := by
  funext marks read
  unfold scanMark markAt
  rw [record_needs, record_place]
  rfl

theorem record_dependsLoop (lane : ValueId) (fuel : Nat) :
    (body.record exprs).dependsLoop lane fuel = body.dependsLoop lane fuel := by
  induction fuel with
  | zero => rfl
  | succ fuel ih =>
    funext stack seen
    cases stack with
    | nil => rfl
    | cons value stack =>
      rw [dependsLoop, dependsLoop, ih]
      rfl

theorem record_dependsOn : (body.record exprs).dependsOn = body.dependsOn := by
  funext value lane
  show (body.record exprs).dependsLoop lane _ _ _ = body.dependsLoop lane _ _ _
  rw [record_dependsLoop]
  rfl

theorem record_refuses (lane : ValueId) (slices : List Slice) :
    (body.record exprs).refuseBadSliceAccess lane slices = body.refuseBadSliceAccess lane slices := by
  funext memo value
  unfold refuseBadSliceAccess refuseEscapingSlice
  rw [record_interval, record_dependsOn]
  rfl

theorem record_recordedAt : (body.record exprs).recordedAt =
    exprs.foldl (body.separateRecorded body.place) body.recordedAt := by
  unfold recordedAt
  rw [record_place]
  exact foldl_append

theorem Straight.record (straight : body.Straight) : (body.record exprs).Straight :=
  ⟨straight.one, straight.entry, straight.ordered⟩

theorem Straight.rescan (straight : body.Straight) {lane : ValueId} {slices : List Slice}
    {memo : IntervalMemo}
    (accepted : body.refuseBadSliceAccesses body.walkOrder lane slices (fun _ => none) = .ok memo) :
    (body.record exprs).barrierScan lane slices = .ok (body.walkOrder.foldl body.scanMark
      (exprs.foldl (body.separateRecorded body.place) body.recordedAt, [])).2 := by
  have again : (body.record exprs).refuseBadSliceAccesses (body.record exprs).walkOrder lane slices
      (fun _ => none) = .ok memo := by
    unfold refuseBadSliceAccesses
    rw [record_refuses, record_walkOrder]
    exact accepted
  rw [straight.record.barrierScan_eq again, record_walkOrder, record_scanMark, record_recordedAt]

variable {position : ValueId → Option Nat}

theorem separateRecorded_own {separated : Nat → Option Nat}
    {expr : Barrier} {slice at_ : Nat} (named : body.ordinal expr.read = some slice)
    (placed : position expr.read = some at_) :
    body.separateRecorded position separated expr slice =
      some (((separated slice).map (max · at_)).getD at_) := by
  unfold separateRecorded
  rw [named, placed]
  exact Function.update_self ..

variable {slice : Nat}

theorem separateRecorded_other {separated : Nat → Option Nat} {expr : Barrier}
    (other : body.ordinal expr.read ≠ some slice ∨ position expr.read = none) :
    body.separateRecorded position separated expr slice = separated slice := by
  unfold separateRecorded
  cases named : body.ordinal expr.read with
  | none => rfl
  | some addressed =>
    cases placed : position expr.read with
    | none => rfl
    | some at_ =>
      apply Function.update_of_ne
      intro same
      rcases other with apart | nowhere
      · exact apart (named.trans (congrArg some same.symm))
      · rw [placed] at nowhere
        cases nowhere

theorem recorded_grows : ∀ {exprs : List Barrier}
    {separated : Nat → Option Nat} {barrier : Nat}, separated slice = some barrier →
    ∃ later, exprs.foldl (body.separateRecorded position) separated slice = some later ∧
      barrier ≤ later := by
  intro exprs
  induction exprs with
  | nil => exact fun held => ⟨_, held, le_refl _⟩
  | cons expr exprs ih =>
    intro separated barrier held
    by_cases other : body.ordinal expr.read ≠ some slice ∨ position expr.read = none
    · exact ih ((separateRecorded_other other).trans held)
    · push Not at other
      obtain ⟨named, placed⟩ := other
      obtain ⟨at_, placed⟩ := ne_none_iff_exists'.1 placed
      have moved := @separateRecorded_own body position separated expr slice at_ named placed
      rw [held] at moved
      obtain ⟨later, found, above⟩ := ih moved
      exact ⟨later, found, le_trans (le_max_left _ _) above⟩

theorem recorded_member {expr : Barrier} {at_ : Nat} (named : body.ordinal expr.read = some slice)
    (placed : position expr.read = some at_) :
    ∀ {exprs : List Barrier} {separated : Nat → Option Nat}, expr ∈ exprs →
    ∃ later, exprs.foldl (body.separateRecorded position) separated slice = some later ∧
      at_ ≤ later := by
  intro exprs
  induction exprs with
  | nil => exact fun absurd_ => by cases absurd_
  | cons other exprs ih =>
    intro separated member
    rcases mem_cons.1 member with rfl | member
    · have moved := @separateRecorded_own body position separated expr slice at_ named placed
      obtain ⟨later, found, above⟩ := @recorded_grows body position slice exprs _ _ moved
      refine ⟨later, found, le_trans ?_ above⟩
      cases separated slice with
      | none => exact le_refl _
      | some barrier => exact le_max_right _ _
    · exact ih member

/-- The last barrier on a slice was there before, or is one of those recorded. -/
theorem recorded_origin :
    ∀ {exprs : List Barrier} {separated : Nat → Option Nat} {barrier : Nat},
    exprs.foldl (body.separateRecorded position) separated slice = some barrier →
    separated slice = some barrier ∨ ∃ expr ∈ exprs, body.ordinal expr.read = some slice ∧
      position expr.read = some barrier := by
  intro exprs
  induction exprs with
  | nil => exact fun held => .inl held
  | cons expr exprs ih =>
    intro separated barrier held
    rcases ih held with before | ⟨other, member, found⟩
    · by_cases elsewhere : body.ordinal expr.read ≠ some slice ∨ position expr.read = none
      · rw [separateRecorded_other elsewhere] at before
        exact .inl before
      · push Not at elsewhere
        obtain ⟨named, placed⟩ := elsewhere
        obtain ⟨at_, placed⟩ := ne_none_iff_exists'.1 placed
        rw [separateRecorded_own named placed] at before
        have chosen := some.inj before
        cases held' : separated slice with
        | none =>
          rw [held'] at chosen
          exact .inr ⟨expr, mem_cons_self, named, placed.trans (congrArg some chosen)⟩
        | some barrier' =>
          rw [held'] at chosen
          rcases le_total barrier' at_ with below | above
          · have same : at_ = barrier := (max_eq_right below).symm.trans chosen
            exact .inr ⟨expr, mem_cons_self, named, placed.trans (congrArg some same)⟩
          · have same : barrier' = barrier := (max_eq_left above).symm.trans chosen
            exact .inl (congrArg some same)
    · exact .inr ⟨other, mem_cons_of_mem _ member, found⟩

end Record

section Rounds

variable {read write : ValueId}

theorem observation_reads {writeIndex readIndex : ValueId}
    (observes : body.observation read = some (write, writeIndex, readIndex)) :
    body.isSliceRead read := by
  unfold observation at observes
  split at observes
  · next found =>
    unfold isSliceRead
    rw [found]
  · cases observes

theorem needs_reads (needs : body.needs read = some write) : body.isSliceRead read := by
  unfold KernelBody.needs at needs
  split at needs
  · cases needs
  · next observes => exact observation_reads observes

theorem recorded_first {slice : Nat} {marks : Marks} {first : ValueId} {at_ barrier : Nat}
    (placed : body.place first = some at_) (named : body.ordinal first = some slice)
    (member : ⟨write, first⟩ ∈ marks.2)
    (held : marks.2.foldl (body.separateRecorded body.place) body.recordedAt slice = some barrier) :
    at_ ≤ barrier := by
  obtain ⟨later, found, above⟩ := @recorded_member body body.place slice ⟨write, first⟩ at_ named
    placed marks.2 body.recordedAt member
  rw [held] at found
  cases found
  exact above

theorem recorded_elsewhere {slice : Nat} : ∀ {exprs : List Barrier} {separated : Nat → Option Nat},
    (∀ expr ∈ exprs, body.ordinal expr.read ≠ some slice) →
    exprs.foldl (body.separateRecorded body.place) separated slice = separated slice := by
  intro exprs
  induction exprs with
  | nil => exact fun _ => rfl
  | cons expr exprs ih =>
    intro separated elsewhere
    rw [foldl_cons, ih fun other member => elsewhere other (mem_cons_of_mem _ member)]
    exact separateRecorded_other (.inl (elsewhere expr mem_cons_self))

/-- What a scan that starts over the barriers recorded settles. -/
def Settled (body : KernelBody) (exprs : List Barrier) : Prop :=
  ∀ read ∈ body.walkOrder, ∀ write, body.needs read = some write →
    body.settled body.place (exprs.foldl (body.separateRecorded body.place) body.recordedAt)
      write read = true

variable {marks : Marks}

/-- Where the barriers recorded settle each read, one of them serves each slice. -/
theorem Settled.oneRound (settles : body.Settled marks.2) (complete : body.Complete marks.2)
    (reached : ∀ slice, body.Scanned slice body.walkOrder marks) : body.OneRound := by
  refine ⟨fun read listed write needs => ?_, fun slice closed read listed write needs named => ?_,
    fun slice first at_ found placed => ?_⟩
  · obtain ⟨slice, _, _, _, named, _⟩ := settled_iff.1 (settles read listed write needs)
    rw [named]
    rfl
  · obtain ⟨expr, member, separates⟩ := complete read listed write needs
    rcases mem_append.1 member with recorded | fresh
    · exact ⟨expr, recorded, separates⟩
    · rcases reached slice with ⟨_, elsewhere, _⟩ | ⟨first, _, _, found, _⟩
      · exact absurd (separates.slice.trans named) (elsewhere expr fresh)
      · rw [closed] at found
        cases found
  · have listed := mem_of_find?_eq_some found
    have opens := List.find?_some found
    obtain ⟨named, write, needs, -⟩ := isOpen_iff.1 opens
    rcases reached slice with ⟨_, _, closed⟩ | ⟨other, wrote, at', found', placed', _, member, _⟩
    · rw [closed first listed] at opens
      cases opens
    · rw [found] at found'
      cases found'
      obtain ⟨slice', barrier, _, _, named', held, _, after, _, below⟩ :=
        settled_iff.1 (settles first listed write needs)
      rw [named] at named'
      cases named'
      rw [placed] at after
      cases after
      -- The first read left open is recorded, so the last barrier is neither before nor after it.
      have same : barrier = at_ := le_antisymm below (recorded_first placed named member held)
      rw [same] at held
      refine ⟨fun earlier before => ?_, fun read listed write needs named => ?_⟩
      · obtain ⟨later, found, above⟩ := @recorded_grows body body.place slice marks.2 _ _ before
        rw [held] at found
        cases found
        exact above
      · obtain ⟨slice', barrier', before, after, named', held', wrote, reads, low, high⟩ :=
          settled_iff.1 (settles read listed write needs)
        rw [named] at named'
        cases named'
        rw [held] at held'
        cases held'
        exact ⟨before, after, wrote, reads, low, high⟩

/-- Where one barrier serves each slice, the barriers recorded settle each read and separate it. -/
theorem OneRound.served (round : body.OneRound)
    (reached : ∀ slice, body.Scanned slice body.walkOrder marks)
    (listed : read ∈ body.walkOrder) (needs : body.needs read = some write) :
    body.settled body.place (marks.2.foldl (body.separateRecorded body.place) body.recordedAt)
        write read ∧
      ∃ expr ∈ body.barriers ++ marks.2, body.Separates expr write read := by
  obtain ⟨slice, named⟩ := isSome_iff_exists.1 (round.named read listed write needs)
  rcases reached slice with ⟨_, elsewhere, closed⟩ | ⟨first, wrote, at_, found, placed, needs',
    member, serves⟩
  · have nothing : body.firstOpen slice = none := by
      apply List.find?_eq_none.2
      intro other member
      rw [closed other member]
      exact Bool.false_ne_true
    constructor
    · rw [settled_congr named (recorded_elsewhere elsewhere)]
      by_contra opens
      have isOpen := isOpen_iff.2 ⟨named, write, needs, Bool.eq_false_iff.2 opens⟩
      rw [closed read listed] at isOpen
      cases isOpen
    · obtain ⟨expr, recorded, separates⟩ :=
        round.recorded slice nothing read listed write needs named
      exact ⟨expr, mem_append_left _ recorded, separates⟩
  · obtain ⟨latest, serve⟩ := round.first slice first at_ found placed
    have opens := isOpen_iff.1 (List.find?_some found)
    have last := (serves serve).2
    obtain ⟨barrier, held, above⟩ := @recorded_member body body.place slice ⟨wrote, first⟩ at_
      opens.1 placed marks.2 body.recordedAt member
    have same : barrier = at_ := by
      rcases recorded_origin held with before | ⟨expr, fresh, own, stands⟩
      · exact le_antisymm (latest barrier before) above
      · have there := last expr fresh own
        rw [stands] at there
        exact some.inj there
    obtain ⟨before, after, wrote', reads, low, high⟩ := serve read listed write needs named
    constructor
    · exact settled_iff.2 ⟨slice, at_, before, after, named, same ▸ held, wrote', reads, low, high⟩
    · exact ⟨⟨wrote, first⟩, mem_append_right _ member, needs_reads needs',
        opens.1.trans named.symm, before, at_, after, wrote', placed, reads, low, high⟩

/-- The scan of a straight-line body is idempotent and complete exactly when one barrier serves each
slice. -/
theorem scanStands_iff (straight : body.Straight) {lane : ValueId} {slices : List Slice}
    {exprs : List Barrier} (returned : body.barrierScan lane slices = .ok exprs) :
    body.ScanStands lane slices exprs ↔ body.OneRound := by
  obtain ⟨memo, accepted⟩ : ∃ memo,
      body.refuseBadSliceAccesses body.walkOrder lane slices (fun _ => none) = .ok memo := by
    unfold barrierScan at returned
    obtain ⟨memo, accepted, -⟩ := bind_ok.1 returned
    exact ⟨memo, accepted⟩
  have scanned := straight.barrierScan_eq accepted
  rw [returned] at scanned
  have same := Except.ok.inj scanned
  have rescanned : (body.record exprs).barrierScan lane slices = .ok [] ↔ body.Settled exprs := by
    rw [straight.rescan accepted, Except.ok.injEq]
    exact scanMarks_nothing
  have reached := @scanned_all body
  generalize body.walkOrder.foldl body.scanMark (body.recordedAt, []) = marks at same reached
  subst same
  constructor
  · exact fun stands => (rescanned.1 stands.idempotent).oneRound stands.complete reached
  · exact fun round => ⟨rescanned.2 fun read listed write needs => (round.served reached listed needs).1,
      fun read listed write needs => (round.served reached listed needs).2⟩

end Rounds

/-- Whether the instructions stand in an order that respects operands. -/
def respectsOperands (body : KernelBody) : Bool :=
  (body.block 0).instrs.zipIdx.all fun listed => (body.operandsOf listed.1).all fun arg =>
    ((body.block 0).instrs.take listed.2).contains arg || body.values[arg]?.all ValueDef.isParam

theorem straight_of_check (one : body.blocks.length = 1) (entry : body.entry = 0)
    (check : body.respectsOperands) : body.Straight := by
  refine ⟨one, entry, fun position value op args classes at_ found arg member => ?_⟩
  have listed := all_eq_true.1 check (value, position)
    (mk_mem_zipIdx_iff_getElem?.2 at_)
  unfold operandsOf at listed
  rw [found] at listed
  rcases Bool.or_eq_true_iff.1 (all_eq_true.1 listed arg member) with earlier | plain
  · exact .inl (contains_iff_mem.1 earlier)
  · refine .inr fun op args classes stated => ?_
    rw [stated] at plain
    cases plain

/-- A body that stages its lane in one slice twice, and reads its neighbour's after each write. -/
def twoRounds : KernelBody where
  values := [.blockParam 0 0, .instr (.const .int 0) [] [.int], .instr (.const .int 4) [] [.int],
    .instr (.const .int 1) [] [.int], .instr (.bin .int .add) [0, 3] [.int],
    .instr (.bin .int .rem) [0, 2] [.int], .instr (.bin .int .rem) [4, 2] [.int],
    .instr (.sliceWriteCall .int) [1, 5, 0] [.int], .instr (.sliceReadCall .int) [1, 6, 7] [.int],
    .instr (.sliceWriteCall .int) [1, 5, 8] [.int], .instr (.sliceReadCall .int) [1, 6, 9] [.int]]
  blocks := [⟨[0], [1, 2, 3, 4, 5, 6, 7, 8, 9, 10], .return [10]⟩]
  entry := 0

theorem twoRounds_returns :
    twoRounds.barrierScan 0 [⟨.int, 4, .shared⟩] = .ok [⟨7, 8⟩, ⟨9, 10⟩] := by
  decide +kernel

theorem twoRounds_stands_iff :
    twoRounds.ScanStands 0 [⟨.int, 4, .shared⟩] [⟨7, 8⟩, ⟨9, 10⟩] ↔ twoRounds.OneRound :=
  scanStands_iff (straight_of_check rfl rfl (by decide +kernel)) twoRounds_returns

/-- The later barrier hides the earlier one from a second scan, which returns both again. -/
theorem twoRounds_rescanned : twoRounds.validate = .ok () ∧
    twoRounds.barrierScan 0 [⟨.int, 4, .shared⟩] = .ok [⟨7, 8⟩, ⟨9, 10⟩] ∧
    (twoRounds.record [⟨7, 8⟩, ⟨9, 10⟩]).validate = .ok () ∧
    (twoRounds.record [⟨7, 8⟩, ⟨9, 10⟩]).barrierScan 0 [⟨.int, 4, .shared⟩] =
      .ok [⟨7, 8⟩, ⟨9, 10⟩] ∧
    ¬ twoRounds.ScanStands 0 [⟨.int, 4, .shared⟩] [⟨7, 8⟩, ⟨9, 10⟩] := by
  have again : (twoRounds.record [⟨7, 8⟩, ⟨9, 10⟩]).barrierScan 0 [⟨.int, 4, .shared⟩] =
      .ok [⟨7, 8⟩, ⟨9, 10⟩] := by decide +kernel
  refine ⟨by decide +kernel, twoRounds_returns, by decide +kernel, again, fun stands => ?_⟩
  have nothing := stands.idempotent
  rw [again] at nothing
  cases nothing

end KernelBody

end LichenVm.KernelIr
