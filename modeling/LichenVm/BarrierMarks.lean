import LichenVm.ExactBounds
import LichenVm.SliceAccesses

/-! The barrier scan of a straight-line body, slice by slice. -/

open List Function

namespace LichenVm.KernelIr

open Worklist Traverse

namespace KernelBody

/-- The write a read needs a barrier after: one of the slice it reads, at another index that it may
meet. A read that names a write of another slice observes nothing of it. -/
def needs (body : KernelBody) (read : ValueId) : Option ValueId :=
  match body.observation read with
  | none => none
  | some (write, writeIndex, readIndex) =>
    if writeIndex = readIndex then none
    else if body.namesTwoSlices write read then none
    else if (body.interval writeIndex fun _ => none).1.intersects
        (body.interval readIndex fun _ => none).1 then some write
    else none

/-- Where the walk of the body lists a value. -/
def place (body : KernelBody) : ValueId → Option Nat :=
  positions body.walkOrder

/-- Where the last recorded barrier on each slice stands. -/
def recordedAt (body : KernelBody) : Nat → Option Nat :=
  body.barriers.foldl (body.separateRecorded body.place) fun _ => none

def record (body : KernelBody) (exprs : List Barrier) : KernelBody :=
  { body with barriers := body.barriers ++ exprs }

def isSliceRead (body : KernelBody) (value : ValueId) : Bool :=
  match body.values[value]? with
  | some (.instr (.sliceReadCall _) _ _) => true
  | _ => false

/-- A barrier on the slice of a read that stands after a write and not after the read. -/
structure Separates (body : KernelBody) (expr : Barrier) (write read : ValueId) : Prop where
  reads : body.isSliceRead expr.read = true
  slice : body.ordinal expr.read = body.ordinal read
  stands : ∃ before at_ after, body.place write = some before ∧ body.place expr.read = some at_ ∧
    body.place read = some after ∧ before < at_ ∧ at_ ≤ after

/-- Every read that needs a barrier after a write has one. -/
def Complete (body : KernelBody) (exprs : List Barrier) : Prop :=
  ∀ read ∈ body.walkOrder, ∀ write, body.needs read = some write →
    ∃ expr ∈ body.barriers ++ exprs, body.Separates expr write read

/-- The scan of the recorded body returns no expr, and every read that needs a barrier after a write
has one. -/
structure ScanStands (body : KernelBody) (lane : ValueId) (slices : List Slice)
    (exprs : List Barrier) : Prop where
  idempotent : (body.record exprs).barrierScan lane slices = .ok []
  complete : body.Complete exprs

/-- Whether the last recorded barrier on its slice leaves a read of the slice open. -/
def isOpen (body : KernelBody) (slice : Nat) (read : ValueId) : Bool :=
  body.ordinal read = some slice &&
    (body.needs read).any fun write => !body.settled body.place body.recordedAt write read

def firstOpen (body : KernelBody) (slice : Nat) : Option ValueId :=
  body.walkOrder.find? (body.isOpen slice)

/-- A place on a slice that every read needing a barrier is at or after, and its write before. -/
def Serves (body : KernelBody) (slice at_ : Nat) : Prop :=
  ∀ read ∈ body.walkOrder, ∀ write, body.needs read = some write → body.ordinal read = some slice →
    ∃ before after, body.place write = some before ∧ body.place read = some after ∧
      before < at_ ∧ at_ ≤ after

/-- One barrier serves each slice: the last one recorded, or else one before the first read that it
leaves open. -/
structure OneRound (body : KernelBody) : Prop where
  named : ∀ read ∈ body.walkOrder, ∀ write, body.needs read = some write →
    (body.ordinal read).isSome
  recorded : ∀ slice, body.firstOpen slice = none → ∀ read ∈ body.walkOrder, ∀ write,
    body.needs read = some write → body.ordinal read = some slice →
    ∃ expr ∈ body.barriers, body.Separates expr write read
  first : ∀ slice first at_, body.firstOpen slice = some first → body.place first = some at_ →
    (∀ barrier, body.recordedAt slice = some barrier → barrier ≤ at_) ∧ body.Serves slice at_

/-- What the scan keeps, but for its memo. -/
abbrev Marks := (Nat → Option Nat) × List Barrier

def markAt (body : KernelBody) (separated : Nat → Option Nat) (read : ValueId) : Nat → Option Nat :=
  match body.ordinal read, body.place read with
  | some slice, some at_ => update separated slice (some at_)
  | _, _ => separated

/-- The scan of one listed value, with each interval asked afresh. -/
def scanMark (body : KernelBody) (marks : Marks) (read : ValueId) : Marks :=
  match body.needs read with
  | none => marks
  | some write =>
    if body.settled body.place marks.1 write read then marks
    else (body.markAt marks.1 read, marks.2 ++ [⟨write, read⟩])

variable {body : KernelBody}

theorem walkLoop_stale {fuel : Nat} : ∀ {stack : List Nat} {seen : Nat → Bool}
    {order : List ValueId}, (∀ block ∈ stack, block < body.blocks.length → seen block) →
    body.walkLoop fuel stack seen order = order := by
  induction fuel with
  | zero => exact fun _ => rfl
  | succ fuel ih =>
    intro stack seen order stale
    cases stack with
    | nil => rfl
    | cons block stack =>
      have met : ¬ (block < body.blocks.length ∧ seen block = false) := by
        rintro ⟨within, fresh⟩
        rw [stale block mem_cons_self within] at fresh
        cases fresh
      unfold walkLoop
      rw [if_neg met]
      exact ih fun other member => stale other (mem_cons_of_mem _ member)

theorem Straight.walkOrder_eq (straight : body.Straight) :
    body.walkOrder = (body.block 0).instrs := by
  have fuel : enough body.blocks.length (fun block => (body.targets block).reverse) [body.entry] =
      unpushed body.blocks.length (fun block => (body.targets block).reverse) (fun _ => false) + 1 := by
    unfold enough
    exact Nat.add_comm _ _
  unfold walkOrder
  rw [fuel, straight.entry, walkLoop, if_pos ⟨by rw [straight.one]; exact Nat.one_pos, rfl⟩,
    nil_append]
  apply walkLoop_stale
  intro block _ within
  have only : block = 0 := by
    rw [straight.one] at within
    omega
  rw [only, update_self]

theorem place_isSome {value : ValueId} (listed : value ∈ body.walkOrder) :
    ∃ at_, body.place value = some at_ := by
  have later (items : List (ValueId × Nat)) : ∀ position : ValueId → Option Nat,
      (position value).isSome ∨ (∃ at_, (value, at_) ∈ items) →
      (items.foldl (fun (position : ValueId → Option Nat) (listed : ValueId × Nat) =>
        update position listed.1 (some listed.2)) position value).isSome := by
    induction items with
    | nil =>
      intro position known
      rcases known with known | ⟨at_, member⟩
      · exact known
      · cases member
    | cons item items ih =>
      intro position known
      apply ih
      dsimp only
      by_cases same : value = item.1
      · rw [same, update_self]
        exact .inl rfl
      · rw [update_of_ne same]
        rcases known with known | ⟨at_, member⟩
        · exact .inl known
        · rcases mem_cons.1 member with rfl | member
          · exact absurd rfl same
          · exact .inr ⟨at_, member⟩
  apply Option.isSome_iff_exists.1
  apply later
  obtain ⟨at_, found⟩ := mem_iff_getElem?.1 listed
  exact .inr ⟨at_, mk_mem_zipIdx_iff_getElem?.2 found⟩

section Scan

variable (straight : body.Straight)
include straight

variable {value : ValueId} {args : List ValueId}

theorem Straight.listed (listed : value ∈ body.walkOrder) {op : KernelInstr} {classes :
    List ScalarClass}
    (found : body.values[value]? = some (.instr op args classes)) :
    ∀ arg ∈ args, body.Given (body.block 0).instrs.length arg := by
  rw [straight.walkOrder_eq] at listed
  obtain ⟨position, at_⟩ := mem_iff_getElem?.1 listed
  have within := (List.getElem?_eq_some_iff.1 at_).1
  intro arg member
  exact (straight.ordered position value op args classes at_ found arg member).mono
    (Nat.le_of_lt within)

theorem Straight.given_listed
    (given : body.Given (body.block 0).instrs.length value) {op : KernelInstr} {classes :
    List ScalarClass}
    (found : body.values[value]? = some (.instr op args classes)) : value ∈ body.walkOrder := by
  rw [straight.walkOrder_eq]
  rcases given with member | plain
  · rwa [take_length] at member
  · exact absurd found (plain op args classes)

theorem Straight.observation_given {read write writeIndex readIndex : ValueId}
    (listed : read ∈ body.walkOrder)
    (observes : body.observation read = some (write, writeIndex, readIndex)) :
    body.Given (body.block 0).instrs.length writeIndex ∧
      body.Given (body.block 0).instrs.length readIndex := by
  unfold observation at observes
  split at observes
  · next args _ found =>
    split at observes
    · next writes reads =>
      have given := straight.listed listed found
      split at observes
      · next writeArgs _ stated =>
        obtain ⟨index, at_, same⟩ := Option.map_eq_some_iff.1 observes
        cases same
        have wrote := straight.given_listed (given _ (mem_of_getElem? writes)) stated
        exact ⟨straight.listed wrote stated _ (mem_of_getElem? at_),
          given _ (mem_of_getElem? reads)⟩
      · cases observes
    · cases observes
  · cases observes

variable {memo : IntervalMemo}

theorem Straight.interval_fresh (given : body.Given (body.block 0).instrs.length value)
    (right : body.RightMemo memo) :
    (body.interval value memo).1 = (body.interval value fun _ => none).1 := by
  have fresh : body.RightMemo fun _ => none := fun _ _ _ found => by cases found
  rw [(straight.interval_eq given right).1, (straight.interval_eq given fresh).1]

/-- With a right memo the scan of a listed value is its scan with each interval asked afresh. -/
theorem Straight.scanRead_eq {read : ValueId} (listed : read ∈ body.walkOrder) {state : ScanState}
    (right : body.RightMemo state.memo) :
    body.RightMemo (body.scanRead body.place state read).memo ∧
      ((body.scanRead body.place state read).separated,
        (body.scanRead body.place state read).exprs) =
        body.scanMark (state.separated, state.exprs) read := by
  unfold scanRead scanMark needs
  cases observes : body.observation read with
  | none => exact ⟨right, rfl⟩
  | some named =>
    obtain ⟨write, writeIndex, readIndex⟩ := named
    have given := straight.observation_given listed observes
    have written := straight.interval_eq given.1 right
    have addressed := straight.interval_eq given.2 written.2
    dsimp only
    by_cases own : writeIndex = readIndex
    · rw [if_pos own, if_pos own]
      exact ⟨right, rfl⟩
    rw [if_neg own, if_neg own]
    by_cases other : body.namesTwoSlices write read
    · rw [if_pos other, if_pos other]
      exact ⟨right, rfl⟩
    rw [if_neg other, if_neg other, ← straight.interval_fresh given.1 right,
      ← straight.interval_fresh given.2 written.2]
    by_cases settles : body.settled body.place state.separated write read
    · rw [if_pos settles]
      refine ⟨right, ?_⟩
      split
      · rfl
      · next same =>
        split at same
        · cases same
          rw [if_pos settles]
        · cases same
    · rw [if_neg settles]
      by_cases meets : ((body.interval writeIndex state.memo).1.intersects
          (body.interval readIndex (body.interval writeIndex state.memo).2).1)
      · rw [if_pos meets, if_pos meets]
        dsimp only
        rw [if_neg settles]
        exact ⟨addressed.2, rfl⟩
      · rw [if_neg meets, if_neg meets]
        exact ⟨addressed.2, rfl⟩

theorem Straight.scanReads_eq : ∀ {order : List ValueId}, (∀ read ∈ order, read ∈ body.walkOrder) →
    ∀ {state : ScanState}, body.RightMemo state.memo →
      (order.foldl (body.scanRead body.place) state).exprs =
        (order.foldl body.scanMark (state.separated, state.exprs)).2 := by
  intro order
  induction order with
  | nil => exact fun _ _ _ => rfl
  | cons read order ih =>
    intro listed state right
    have first := straight.scanRead_eq (listed read mem_cons_self) right
    rw [foldl_cons, foldl_cons, ← first.2]
    exact ih (fun other member => listed other (mem_cons_of_mem _ member)) first.1

variable {slices : List Slice}

theorem Straight.refuseEscapingSlice_right {what : String} {after : IntervalMemo} (right :
    body.RightMemo memo)
    (given : ∀ arg ∈ args, body.Given (body.block 0).instrs.length arg)
    (passed : body.refuseEscapingSlice value what args slices memo = .ok after) :
    body.RightMemo after := by
  unfold refuseEscapingSlice at passed
  split at passed
  · cases passed
    exact right
  · next index found =>
    split at passed
    · cases passed
      exact right
    · dsimp only at passed
      split at passed
      · cases passed
        exact (straight.interval_eq (given index (mem_of_getElem? found)) right).2
      · cases passed

section

variable {lane : ValueId}
  (accepted : body.refuseBadSliceAccesses body.walkOrder lane slices (fun _ => none) = .ok memo)

include accepted

theorem Straight.refuseBadSliceAccesses_right : body.RightMemo memo := by
  have fresh : body.RightMemo fun _ => none := fun _ _ _ found => by cases found
  refine foldlM_ok (fun _ memo => body.RightMemo memo) fresh
    (fun done value rest before after whole right passed => ?_) accepted
  have listed : value ∈ body.walkOrder := by
    rw [whole]
    exact mem_append_right _ mem_cons_self
  rcases refuseBadSliceAccess_spec passed with ⟨_, _, _, _, found, -, escapes⟩ | ⟨-, rfl⟩
  · exact straight.refuseEscapingSlice_right right (straight.listed listed found) escapes
  · exact right

theorem Straight.barrierScan_eq :
    body.barrierScan lane slices =
      .ok (body.walkOrder.foldl body.scanMark (body.recordedAt, [])).2 := by
  unfold barrierScan
  dsimp only
  rw [accepted]
  show Except.ok _ = Except.ok _
  congr 1
  exact straight.scanReads_eq (fun _ member => member)
    (straight.refuseBadSliceAccesses_right accepted)

end

end Scan

section Marks

variable {separated : Nat → Option Nat} {write read : ValueId}

theorem settled_iff {position : ValueId → Option Nat} :
    body.settled position separated write read ↔
      ∃ slice barrier before after, body.ordinal read = some slice ∧ separated slice = some barrier ∧
        position write = some before ∧ position read = some after ∧
        before < barrier ∧ barrier ≤ after := by
  unfold settled
  constructor
  · intro settles
    split at settles
    · next before after slice wrote reads named =>
      obtain ⟨barrier, held, within⟩ := (Option.any_eq_true _ _).1 settles
      rw [Bool.and_eq_true, decide_eq_true_eq, decide_eq_true_eq] at within
      exact ⟨slice, barrier, before, after, named, held, wrote, reads, within.1, within.2⟩
    · cases settles
  · rintro ⟨slice, barrier, before, after, named, held, wrote, reads, low, high⟩
    rw [named, wrote, reads]
    dsimp only
    rw [held]
    simp [low, high]

variable {slice : Nat}

theorem settled_congr {separated' : Nat → Option Nat}
    (named : body.ordinal read = some slice) (same : separated slice = separated' slice) :
    body.settled body.place separated write read =
      body.settled body.place separated' write read := by
  unfold settled
  rw [named]
  split
  · next named' =>
    cases named'
    rw [same]
  · rfl

variable {marks : Marks}

theorem scanMark_settled (settles : ∀ write, body.needs read = some write →
      body.settled body.place marks.1 write read) : body.scanMark marks read = marks := by
  unfold scanMark
  split
  · rfl
  · next write needs => rw [if_pos (settles write needs)]

theorem scanMark_open (needs : body.needs read = some write)
    (opens : body.settled body.place marks.1 write read = false) :
    body.scanMark marks read = (body.markAt marks.1 read, marks.2 ++ [⟨write, read⟩]) := by
  unfold scanMark
  rw [needs]
  dsimp only
  rw [opens]
  rfl

theorem settled_or_open (body : KernelBody) (marks : Marks) (read : ValueId) :
    (∀ write, body.needs read = some write → body.settled body.place marks.1 write read) ∨
    ∃ write, body.needs read = some write ∧ body.settled body.place marks.1 write read = false := by
  by_cases settles : ∀ write, body.needs read = some write →
      body.settled body.place marks.1 write read
  · exact .inl settles
  · right
    push Not at settles
    obtain ⟨write, needs, opens⟩ := settles
    exact ⟨write, needs, Bool.eq_false_iff.2 opens⟩

theorem scanMarks_keeps {order : List ValueId} : ∀ (marks : Marks), ∀ expr ∈ marks.2,
    expr ∈ (order.foldl body.scanMark marks).2 := by
  induction order with
  | nil => exact fun _ _ member => member
  | cons read order ih =>
    intro marks expr member
    apply ih
    rcases body.settled_or_open marks read with settles | ⟨write, needs, opens⟩
    · rw [scanMark_settled settles]
      exact member
    · rw [scanMark_open needs opens]
      exact mem_append_left _ member

/-- A scan records nothing exactly when its first marks settle every read. -/
theorem scanMarks_nothing {order : List ValueId} :
    (order.foldl body.scanMark (separated, [])).2 = [] ↔ ∀ read ∈ order, ∀ write,
      body.needs read = some write → body.settled body.place separated write read := by
  induction order with
  | nil => simp
  | cons read order ih =>
    rw [foldl_cons]
    constructor
    · intro nothing
      rcases body.settled_or_open (separated, []) read with settles | ⟨write, needs, opens⟩
      · rw [scanMark_settled settles] at nothing
        intro other member
        rcases mem_cons.1 member with rfl | later
        · exact settles
        · exact ih.1 nothing other later
      · rw [scanMark_open needs opens] at nothing
        have kept := @scanMarks_keeps body order (body.markAt separated read, [⟨write, read⟩])
          ⟨write, read⟩ (mem_singleton_self _)
        rw [show (order.foldl body.scanMark (body.markAt separated read, [⟨write, read⟩])).2 = []
          from nothing] at kept
        cases kept
    · intro settles
      have first : body.scanMark (separated, []) read = (separated, []) :=
        scanMark_settled (settles read mem_cons_self)
      rw [first]
      exact ih.2 fun other later => settles other (mem_cons_of_mem _ later)

theorem markAt_other
    (other : body.ordinal read ≠ some slice) : body.markAt separated read slice = separated slice := by
  unfold markAt
  cases named : body.ordinal read with
  | none => rfl
  | some addressed =>
    cases body.place read with
    | none => rfl
    | some at_ =>
      apply update_of_ne
      intro same
      exact other (named.trans (congrArg some same.symm))

theorem markAt_own {at_ : Nat}
    (named : body.ordinal read = some slice) (placed : body.place read = some at_) :
    body.markAt separated read slice = some at_ := by
  unfold markAt
  rw [named, placed]
  exact update_self ..

/-- How far a scan has come on a slice: nothing of it was open, or its first open read is recorded,
and is the last barrier on the slice where it serves the slice. -/
def Scanned (body : KernelBody) (slice : Nat) (done : List ValueId) (marks : Marks) : Prop :=
  (marks.1 slice = body.recordedAt slice ∧ (∀ expr ∈ marks.2, body.ordinal expr.read ≠ some slice) ∧
    ∀ read ∈ done, body.isOpen slice read = false) ∨
  ∃ first write at_, body.firstOpen slice = some first ∧ body.place first = some at_ ∧
    body.needs first = some write ∧ ⟨write, first⟩ ∈ marks.2 ∧
    (body.Serves slice at_ → marks.1 slice = some at_ ∧
      ∀ expr ∈ marks.2, body.ordinal expr.read = some slice → body.place expr.read = some at_)

theorem isOpen_iff : body.isOpen slice read ↔
    body.ordinal read = some slice ∧ ∃ write, body.needs read = some write ∧
      body.settled body.place body.recordedAt write read = false := by
  unfold isOpen
  rw [Bool.and_eq_true, decide_eq_true_eq, Option.any_eq_true]
  simp only [Bool.not_eq_true']

theorem Scanned.step {done rest : List ValueId}
    (whole : body.walkOrder = done ++ read :: rest) (reached : body.Scanned slice done marks) :
    body.Scanned slice (done ++ [read]) (body.scanMark marks read) := by
  have listed : read ∈ body.walkOrder := by
    rw [whole]
    exact mem_append_right _ mem_cons_self
  obtain ⟨at_, placed⟩ := place_isSome listed
  rcases body.settled_or_open marks read with settles | ⟨write, needs, opens⟩
  · rw [scanMark_settled settles]
    rcases reached with ⟨same, elsewhere, closed⟩ | later
    · refine .inl ⟨same, elsewhere, fun other member => ?_⟩
      rcases mem_append.1 member with earlier | own
      · exact closed other earlier
      · rw [mem_singleton.1 own]
        by_contra isOpen
        rw [Bool.not_eq_false, isOpen_iff] at isOpen
        obtain ⟨named, write, needs, opens⟩ := isOpen
        rw [← settled_congr named same, settles write needs] at opens
        cases opens
    · exact .inr later
  · rw [scanMark_open needs opens]
    by_cases named : body.ordinal read = some slice
    · rcases reached with ⟨same, elsewhere, closed⟩ | ⟨first, wrote, at', found, at_first, reads,
        member, serves⟩
      · have isOpen : body.isOpen slice read := by
          rw [settled_congr named same] at opens
          exact isOpen_iff.2 ⟨named, write, needs, opens⟩
        refine .inr ⟨read, write, at_, ?_, placed, needs,
          mem_append_right _ (mem_singleton_self _), fun _ => ⟨markAt_own named placed, ?_⟩⟩
        · unfold firstOpen
          rw [whole, List.find?_append, List.find?_eq_none.2, Option.none_or,
            List.find?_cons_of_pos isOpen]
          intro other member
          rw [closed other member]
          exact Bool.false_ne_true
        · intro expr member own
          rcases mem_append.1 member with earlier | last
          · exact absurd own (elsewhere expr earlier)
          · rw [mem_singleton.1 last]
            exact placed
      · refine .inr ⟨first, wrote, at', found, at_first, reads, mem_append_left _ member,
          fun served => ?_⟩
        obtain ⟨before, after, wrote, read_, low, high⟩ := served read listed write needs named
        have settles := settled_iff.2 ⟨slice, at', before, after, named, (serves served).1, wrote,
          read_, low, high⟩
        rw [settles] at opens
        cases opens
    · rcases reached with ⟨same, elsewhere, closed⟩ | ⟨first, wrote, at', found, at_first, reads,
        member, serves⟩
      · refine .inl ⟨(markAt_other named).trans same, fun expr member => ?_, fun other member => ?_⟩
        · rcases mem_append.1 member with earlier | last
          · exact elsewhere expr earlier
          · rw [mem_singleton.1 last]
            exact named
        · rcases mem_append.1 member with earlier | own
          · exact closed other earlier
          · rw [mem_singleton.1 own]
            by_contra isOpen
            rw [Bool.not_eq_false, isOpen_iff] at isOpen
            exact named isOpen.1
      · refine .inr ⟨first, wrote, at', found, at_first, reads, mem_append_left _ member,
          fun served => ⟨(markAt_other named).trans (serves served).1, fun expr member own => ?_⟩⟩
        rcases mem_append.1 member with earlier | last
        · exact (serves served).2 expr earlier own
        · rw [mem_singleton.1 last] at own
          exact absurd own named

theorem scanned_all (slice : Nat) : body.Scanned slice body.walkOrder
    (body.walkOrder.foldl body.scanMark (body.recordedAt, [])) := by
  have along : ∀ rest done (marks : Marks), body.walkOrder = done ++ rest →
      body.Scanned slice done marks →
      body.Scanned slice body.walkOrder (rest.foldl body.scanMark marks) := by
    intro rest
    induction rest with
    | nil =>
      intro done marks whole reached
      rw [whole, append_nil]
      exact reached
    | cons read rest ih =>
      intro done marks whole reached
      apply ih (done ++ [read]) _ _ (reached.step whole)
      rw [whole, append_assoc]
      rfl
  apply along _ [] _ rfl
  exact .inl ⟨rfl, fun _ absurd_ => (by cases absurd_), fun _ absurd_ => by cases absurd_⟩

end Marks

end KernelBody

end LichenVm.KernelIr
