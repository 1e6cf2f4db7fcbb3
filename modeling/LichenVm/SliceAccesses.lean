import LichenVm.LaneBounds

/-! Slice accesses the barrier scan accepts, against the numbers the lanes address them at. -/

open List Option

namespace LichenVm.KernelIr

open Worklist Traverse

namespace KernelBody

section Walk

variable {body : KernelBody}

/-- The walk lists the instructions of every block it marks. -/
theorem walkLoop_lists {fuel : Nat} : ∀ {stack : List Nat} {seen : Nat → Bool}
    {order : List ValueId},
    (∀ block, seen block → ∀ value ∈ (body.block block).instrs, value ∈ order) →
    ∀ block, mark body.blocks.length (fun block => (body.targets block).reverse) fuel stack seen
      block →
    ∀ value ∈ (body.block block).instrs, value ∈ body.walkLoop fuel stack seen order := by
  induction fuel with
  | zero => exact fun lists => lists
  | succ fuel ih =>
    intro stack seen order lists block marked value member
    cases stack with
    | nil => exact lists block marked value member
    | cons first stack =>
      unfold mark at marked
      unfold walkLoop
      split at marked
      · next fresh =>
        rw [if_pos fresh]
        rw [reverse_reverse] at marked
        refine ih (fun other held v listed => ?_) block marked value member
        by_cases same : other = first
        · rw [same] at listed
          exact mem_append_right _ listed
        · rw [Function.update_of_ne same] at held
          exact mem_append_left _ (lists other held v listed)
      · next stale =>
        rw [if_neg stale]
        exact ih lists block marked value member

def Walked (body : KernelBody) (block : Nat) : Prop :=
  reached body.blocks.length (fun block => (body.targets block).reverse) [body.entry] block = true

theorem Walked.lists {block : Nat} (walked : body.Walked block) {value : ValueId}
    (listed : value ∈ (body.block block).instrs) : value ∈ body.walkOrder := by
  apply walkLoop_lists _ block walked value listed
  intro other held
  cases held

theorem walked_entry (within : body.entry < body.blocks.length) : body.Walked body.entry :=
  reached_of_mem mem_cons_self within

theorem Walked.branch {block : Nat} (walked : body.Walked block) {branch : Br}
    (taken : branch ∈ (body.block block).terminator.branches)
    (within : branch.target < body.blocks.length) : body.Walked branch.target :=
  reached_next walked (mem_reverse.2 (mem_map_of_mem taken)) within

end Walk

/-- The index operand of a slice access. -/
def sliceIndex (body : KernelBody) (value : ValueId) : Option ValueId :=
  match body.values[value]? with
  | some (.instr (.sliceWriteCall _) args _) | some (.instr (.sliceReadCall _) args _) => args[1]?
  | _ => none

/-- The slice an access addresses, of those a fragment declares. -/
def sliceOf (body : KernelBody) (slices : List Slice) (value : ValueId) : Option Slice :=
  (body.ordinal value).bind (slices[·]?)

/-- The memos that questions asked so far leave. -/
inductive Asked (body : KernelBody) : IntervalMemo → Prop
  | nothing : Asked body fun _ => none
  | after {memo : IntervalMemo} (value : ValueId) (asked : Asked body memo) :
      Asked body (body.interval value memo).2

section Accepted

variable {body : KernelBody} {memo : IntervalMemo}

theorem Asked.bounds (asked : body.Asked memo) : body.MemoBounds memo := by
  induction asked with
  | nothing => exact fun value i found => by cases found
  | after value _ ih => exact (interval_answers value _ ih).2

/-- An access whose index has a bound inside its slice, when the fragment declares the slice. -/
def Fits (body : KernelBody) (slices : List Slice) (value : ValueId) : Prop :=
  ∀ index slice, body.sliceIndex value = some index → body.sliceOf slices value = some slice →
    ∃ i, body.Bounds index i ∧ i.high < slice.count

variable {slices : List Slice} {after : IntervalMemo}

theorem refuseEscapingSlice_ok {value : ValueId} {what : String} {args : List ValueId} (bounds :
    body.MemoBounds memo)
    (passed : body.refuseEscapingSlice value what args slices memo = .ok after) :
    body.MemoBounds after ∧ ∀ index slice, args[1]? = some index →
      body.sliceOf slices value = some slice → ∃ i, body.Bounds index i ∧ i.high < slice.count := by
  unfold refuseEscapingSlice at passed
  split at passed
  · next absent =>
    cases passed
    refine ⟨bounds, fun index slice found => ?_⟩
    rw [absent] at found
    cases found
  · next index found =>
    split at passed
    · next unknown =>
      cases passed
      refine ⟨bounds, fun other slice _ declared => ?_⟩
      unfold sliceOf at declared
      rw [unknown] at declared
      cases declared
    · next slice declared =>
      have answered := interval_answers index memo bounds
      dsimp only at passed
      split at passed
      · next inside =>
        cases passed
        refine ⟨answered.2, fun other slice' found' declared' => ?_⟩
        unfold sliceOf at declared'
        rw [declared] at declared'
        rw [found] at found'
        cases found'
        cases declared'
        exact ⟨_, answered.1, inside⟩
      · cases passed

/-- What a slice check lets through is an access that stays in its slice, or no access. -/
theorem refuseBadSliceAccess_spec {lane value : ValueId}
    (passed : body.refuseBadSliceAccess lane slices memo value = .ok after) :
    (∃ op args classes what, body.values[value]? = some (.instr op args classes) ∧
      body.sliceIndex value = args[1]? ∧
      body.refuseEscapingSlice value what args slices memo = .ok after) ∨
    body.sliceIndex value = none ∧ after = memo := by
  unfold refuseBadSliceAccess at passed
  split at passed
  · next args _ found =>
    obtain ⟨middle, escapes, passed⟩ := bind_ok.1 passed
    refine .inl ⟨_, args, _, _, found, by rw [sliceIndex, found], escapes.trans ?_⟩
    split at passed
    · exact passed
    · split at passed
      · exact passed
      · cases passed
  · next args _ found =>
    obtain ⟨middle, escapes, passed⟩ := bind_ok.1 passed
    refine .inl ⟨_, args, _, _, found, by rw [sliceIndex, found], escapes.trans ?_⟩
    split at passed
    · exact passed
    · cases passed
  · next noWrite noRead =>
    cases passed
    refine .inr ⟨?_, rfl⟩
    unfold sliceIndex
    split
    · next found => exact absurd found (noWrite _ _ _)
    · next found => exact absurd found (noRead _ _ _)
    · rfl

theorem refuseBadSliceAccess_ok {lane value : ValueId} (bounds : body.MemoBounds memo)
    (passed : body.refuseBadSliceAccess lane slices memo value = .ok after) :
    body.MemoBounds after ∧ body.Fits slices value := by
  rcases refuseBadSliceAccess_spec passed with ⟨_, args, _, _, -, at_, escapes⟩ | ⟨bare, rfl⟩
  · have checked := refuseEscapingSlice_ok bounds escapes
    exact ⟨checked.1, fun index slice read => checked.2 index slice (at_ ▸ read)⟩
  · exact ⟨bounds, fun index slice read => by rw [bare] at read; cases read⟩

theorem refuseBadSliceAccesses_ok {order : List ValueId} {lane : ValueId} (bounds :
    body.MemoBounds memo)
    (accepted : body.refuseBadSliceAccesses order lane slices memo = .ok after) :
    ∀ value ∈ order, body.Fits slices value := by
  have kept := foldlM_ok (fun done memo => body.MemoBounds memo ∧
    ∀ value ∈ done, body.Fits slices value) ⟨bounds, fun _ absurd_ => by cases absurd_⟩
    (fun done value rest before after _ kept passed => ?_) accepted
  · exact kept.2
  · have checked := refuseBadSliceAccess_ok kept.1 passed
    refine ⟨checked.1, fun other member => ?_⟩
    rcases mem_append.1 member with earlier | own
    · exact kept.2 other earlier
    · exact mem_singleton.1 own ▸ checked.2

end Accepted

section Lanes

variable {Real : Type} {body : KernelBody} {floats : Floats Real}
  {domain : KernelId → List ScalarClass}
  {reply : List (Event (Datum Real)) → Event (Datum Real) → Datum Real}

/-- The next step of a lane addresses a slice at a number. -/
structure Addresses (body : KernelBody) (state : LaneState Real) (value index : ValueId)
    (n : BitVec 64) : Prop where
  listed : body.nextListed state = some value
  reads : body.sliceIndex value = some index
  ready : index ∈ state.bound
  number : state.frame.bound index = .int n

/-- Every number a lane has computed lies in the interval the scan answers, whatever the scan was
asked before. -/
def Covered (body : KernelBody) (state : LaneState Real) : Prop :=
  ∀ memo, body.Asked memo → ∀ value ∈ state.bound, ∀ n, state.frame.bound value = .int n →
    (body.interval value memo).1.low ≤ n.toNat ∧ n.toNat ≤ (body.interval value memo).1.high

/-- No access of an accepted body is past the slice it names. -/
def Contained (body : KernelBody) (state : LaneState Real) : Prop :=
  ∀ lane slices memo,
    body.refuseBadSliceAccesses body.walkOrder lane slices (fun _ => none) = .ok memo →
    ∀ value index n slice, body.Addresses state value index n →
      body.sliceOf slices value = some slice → n.toNat < slice.count

/-- Accesses whose indices are answered disjoint intervals are at different numbers. -/
def Apart (body : KernelBody) (state other : LaneState Real) : Prop :=
  ∀ memo memo', body.Asked memo → body.Asked memo' → ∀ value index n value' index' n',
    body.Addresses state value index n → body.Addresses other value' index' n' →
    (body.interval index memo).1.intersects (body.interval index' memo').1 = false → n ≠ n'

variable {value : ValueId}

theorem performOne_block {frame after : Frame (Datum Real)}
    (performed : body.performOne floats domain reply frame value = some after) :
    after.block = frame.block := by
  unfold performOne at performed
  split at performed
  · dsimp only at performed
    split at performed
    · split at performed
      · rw [← some.inj performed]
      · cases performed
    · obtain ⟨datum, -, same⟩ := map_eq_some_iff.1 performed
      rw [← same]
  · rw [← some.inj performed]

variable {state : LaneState Real}

theorem LaneRuns.walked {args : List (Datum Real)}
    (runs : body.LaneRuns floats domain reply args state)
    (within : state.frame.block < body.blocks.length) : body.Walked state.frame.block := by
  induction runs with
  | refl => exact walked_entry within
  | @tail before after _ step ih =>
    have exists_ (branch : Br)
        (taken : branch ∈ (body.block before.frame.block).terminator.branches) :
        before.frame.block < body.blocks.length := by
      by_contra absent
      rw [block_absent absent] at taken
      cases taken
    cases step.1 with
    | execute listed ready performed =>
      have same := performOne_block performed
      rw [same] at within ⊢
      exact ih within
    | transfer finished taken ready departed => exact (ih (exists_ _ taken)).branch taken within

theorem Bounded.covered (bounded : body.Bounded state) : body.Covered state := by
  intro memo asked value member n number
  have inside := bounded value member _ (interval_answers value memo asked.bounds).1
  rw [number] at inside
  exact inside

theorem nextListed_within
    (listed : body.nextListed state = some value) : state.frame.block < body.blocks.length := by
  by_contra absent
  unfold nextListed at listed
  rw [block_absent absent] at listed
  cases listed

/-- In every run whose selects are kept, the numbers lie in the intervals, so no accepted access
leaves its slice and accesses with disjoint intervals never meet. -/
theorem lanes_in_bounds (received : ParamsReceived body.blocks body.values)
    {args : List (Datum Real)} {state : LaneState Real}
    (runs : body.LaneRuns floats domain reply args state) :
    body.Covered state ∧ body.Contained state ∧
      ∀ reply' args' other, body.LaneRuns floats domain reply' args' other →
        body.Apart state other := by
  have covered := (runs.bounded received).covered
  refine ⟨covered, ?_, ?_⟩
  · intro lane slices memo accepted value index n slice addresses declared
    have listed := (runs.walked (nextListed_within addresses.listed)).lists
      (mem_of_getElem? addresses.listed)
    have none_bounds : body.MemoBounds fun _ => none := fun _ _ found => by cases found
    obtain ⟨i, bounds, inside⟩ := refuseBadSliceAccesses_ok none_bounds accepted value listed index
      slice addresses.reads declared
    have holds := runs.bounded received index addresses.ready i bounds
    rw [addresses.number] at holds
    exact Nat.lt_of_le_of_lt holds.2 inside
  · intro reply' args' other runs' memo memo' asked asked' value index n value' index' n'
      addresses addresses' disjoint same
    have covered' := (runs'.bounded received).covered
    have first := covered memo asked index addresses.ready n addresses.number
    have second := covered' memo' asked' index' addresses'.ready n' addresses'.number
    rw [← same] at second
    have meets : (body.interval index memo).1.intersects (body.interval index' memo').1 = true := by
      unfold Interval.intersects
      simp only [Bool.and_eq_true, decide_eq_true_eq]
      omega
    rw [meets] at disjoint
    cases disjoint

theorem selectKept_of_other {op : KernelInstr}
    {args : List ValueId} {classes : List ScalarClass} (listed : body.nextListed state = some value)
    (found : body.values[value]? = some (.instr op args classes)) (other : op ≠ .select) :
    body.SelectKept state := by
  intro value' first second cond classes' n listed' select
  rw [listed] at listed'
  cases listed'
  rw [found] at select
  cases select
  exact absurd rfl other

end Lanes

def Floats.blank : Floats Unit where
  ofBits _ := ()
  add _ _ := ()
  sub _ _ := ()
  mul _ _ := ()
  div _ _ := ()
  lt _ _ := false
  gt _ _ := false
  leq _ _ := false
  geq _ _ := false
  eq _ _ := false
  neq _ _ := false
  negate _ := ()
  unary _ _ := ()
  fma _ _ _ := ()
  ofInt _ := ()
  toInt _ := none

/-- A body that writes a slice at its lane, where a condition that always holds selects the lane. -/
def steeredWrite : KernelBody where
  values := [.blockParam 0 0, .instr (.const .int 0) [] [.int], .instr (.const .int 1) [] [.int],
    .instr .i32WrapI64 [2] [.int], .instr .select [0, 1, 3] [.int],
    .instr (.sliceWriteCall .int) [1, 4, 0] [.int]]
  blocks := [⟨[0], [1, 2, 3, 4, 5], .return [0]⟩]
  entry := 0

theorem steeredWrite_received : ParamsReceived steeredWrite.blocks steeredWrite.values := by
  intro block member param received
  rw [mem_singleton.1 member] at received
  rw [mem_singleton.1 received]
  exact ⟨0, 0, rfl⟩

/-- Execute a listed value on the device without floats. -/
def advance (body : KernelBody) (state : LaneState Unit) (value : ValueId) : LaneState Unit where
  frame := (body.performOne Floats.blank (fun _ => []) (fun _ _ => .int 0) state.frame value).getD
    state.frame
  position := state.position + 1
  bound := body.leaves value ++ state.bound

theorem advance_step {body : KernelBody} {state : LaneState Unit} {value : ValueId}
    (listed : body.nextListed state = some value)
    (ready : ∀ arg ∈ body.operands value, arg ∈ state.bound)
    (performs : (body.performOne Floats.blank (fun _ => []) (fun _ _ => .int 0) state.frame
      value).isSome) :
    body.LaneStep Floats.blank (fun _ => []) (fun _ _ => .int 0) state (body.advance state value) := by
  apply LaneStep.execute listed ready
  rw [← some_get performs, getD_some]

/-- A lane of the body that stands before its write. -/
def beforeWrite (lane : BitVec 64) : LaneState Unit :=
  [1, 2, 3, 4].foldl steeredWrite.advance (steeredWrite.laneStart [.int lane])

theorem steeredWrite_runs : steeredWrite.LaneRuns Floats.blank (fun _ => []) (fun _ _ => .int 0)
    [.int 1] (beforeWrite 1) := by
  have kept (n : BitVec 64) {state : LaneState Unit} (small : n.toNat ≤ 1)
      (lane : state.frame.bound 0 = .int n) (listed : steeredWrite.nextListed state = some 4) :
      steeredWrite.SelectKept state := by
    intro value first second cond classes m listed' found _ number
    rw [listed] at listed'
    cases listed'
    cases found
    rw [lane] at number
    cases number
    exact .inl small
  exact .tail (.tail (.tail (.tail .refl
    ⟨advance_step rfl (by decide) rfl, selectKept_of_other rfl rfl (by decide)⟩)
    ⟨advance_step rfl (by decide) rfl, selectKept_of_other rfl rfl (by decide)⟩)
    ⟨advance_step rfl (by decide) rfl, selectKept_of_other rfl rfl (by decide)⟩)
    ⟨advance_step rfl (by decide) rfl, kept 1 (by decide) rfl rfl⟩

theorem steeredWrite_bounded : steeredWrite.Covered (beforeWrite 1) ∧
    steeredWrite.Contained (beforeWrite 1) ∧
    ∀ reply' args' other, steeredWrite.LaneRuns Floats.blank (fun _ => []) reply' args' other →
      steeredWrite.Apart (beforeWrite 1) other :=
  lanes_in_bounds steeredWrite_received steeredWrite_runs

/-- The interval of a select leaves out its first operand, so an accepted write is past its
slice. -/
theorem steeredWrite_escapes :
    steeredWrite.validate = .ok () ∧ ParamsReceived steeredWrite.blocks steeredWrite.values ∧
    Relation.ReflTransGen (steeredWrite.LaneStep Floats.blank (fun _ => []) (fun _ _ => .int 0))
      (steeredWrite.laneStart [.int 7]) (beforeWrite 7) ∧
    ¬ steeredWrite.Covered (beforeWrite 7) ∧ ¬ steeredWrite.Contained (beforeWrite 7) := by
  refine ⟨by decide +kernel, steeredWrite_received, ?_, ?_, ?_⟩
  · exact .tail (.tail (.tail (.tail .refl (advance_step rfl (by decide) rfl))
      (advance_step rfl (by decide) rfl)) (advance_step rfl (by decide) rfl))
      (advance_step rfl (by decide) rfl)
  · intro covered
    have most := (covered _ .nothing 4 (by decide) 7 rfl).2
    exact absurd most (by decide +kernel)
  · intro contained
    have accepted : ∃ memo, steeredWrite.refuseBadSliceAccesses steeredWrite.walkOrder 0
        [⟨.int, 2, .shared⟩] (fun _ => none) = .ok memo := by
      have passes : (steeredWrite.refuseBadSliceAccesses steeredWrite.walkOrder 0
        [⟨.int, 2, .shared⟩] fun _ => none).isOk = true := by decide +kernel
      cases found : steeredWrite.refuseBadSliceAccesses steeredWrite.walkOrder 0
          [⟨.int, 2, .shared⟩] fun _ => none with
      | ok memo => exact ⟨memo, rfl⟩
      | error cause =>
        rw [found] at passes
        cases passes
    obtain ⟨memo, accepted⟩ := accepted
    have inside := contained 0 _ memo accepted 5 4 7 _ ⟨rfl, rfl, by decide, rfl⟩ rfl
    exact absurd inside (by decide)

end KernelBody

end LichenVm.KernelIr
