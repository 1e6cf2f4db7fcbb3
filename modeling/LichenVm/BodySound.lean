import LichenVm.BodyRun

open List

namespace LichenVm.KernelIr

open Dominators Traverse

/-- What the first checks walk over: each block's branches, and then its instructions. -/
inductive WalkEntry where
  | branch (taken : Br)
  | instr (value : ValueId)

namespace KernelBody

variable {body : KernelBody} {value : ValueId}

theorem mem_blockReads_of_reads {state : RunState}
    (read : value ∈ body.reads state) : value ∈ body.blockReads state.block := by
  unfold reads at read
  unfold blockReads
  split at read
  · rename_i instr listed
    exact mem_append_left _ (mem_flatMap.2 ⟨instr, mem_of_getElem? listed, read⟩)
  · exact mem_append_right _ read

theorem sound_of_received (gated : body.Gated) (received : body.Received) {state : RunState}
    (run : body.Runs state) : body.Sound state := by
  obtain ⟨trail, held⟩ := reached_run gated run
  refine ⟨held.present, ?_, fun _ => gated.handed state.block held.present⟩
  intro value read
  by_cases orphan : body.Orphan value
  · obtain ⟨passed, member, inside⟩ := received state.block value (mem_blockReads_of_reads read)
      orphan trail held.path
    exact held.received passed member value inside
  · unfold reads at read
    split at read
    · rename_i instr listed
      exact bound_of_inScope gated held (le_refl _)
        (gated.operands state.block held.present _ instr listed value read) orphan
    · rename_i finished
      exact bound_of_inScope gated held (List.getElem?_eq_none_iff.1 finished)
        (gated.terminator state.block held.present value read) orphan

theorem not_mem_leaves (orphan : body.Orphan value) (instr : ValueId) :
    value ∉ body.leaves instr := by
  intro member
  unfold leaves at member
  unfold Orphan at orphan
  split at member
  · rename_i op args classes found
    split at member
    · cases member
    · rename_i kept
      rw [mem_singleton.1 member, found] at orphan
      exact kept orphan
  · cases member

theorem runs_within {block : Nat} {bound : List ValueId}
    (run : body.Runs ⟨block, 0, bound⟩) (orphan : body.Orphan value) (unbound : value ∉ bound) :
    ∀ position ≤ (body.block block).instrs.length,
      ∃ bound, body.Runs ⟨block, position, bound⟩ ∧ value ∉ bound := by
  intro position
  induction position with
  | zero => exact fun _ => ⟨bound, run, unbound⟩
  | succ position ih =>
    intro within
    obtain ⟨bound, run, unbound⟩ := ih (by omega)
    have listed := getElem?_eq_getElem (l := (body.block block).instrs) (by omega :
      position < (body.block block).instrs.length)
    refine ⟨_, run.tail (.execute listed), ?_⟩
    intro member
    rcases mem_append.1 member with left | old
    · exact not_mem_leaves orphan _ left
    · exact unbound old

theorem runs_of_path {trail : List Nat} {block : Nat}
    (path : body.Path trail block) (orphan : body.Orphan value)
    (missed : ∀ passed ∈ block :: trail, value ∉ (body.block passed).params) :
    ∃ bound, body.Runs ⟨block, 0, bound⟩ ∧ value ∉ bound := by
  induction path with
  | start => exact ⟨body.parameters, .refl, missed body.entry mem_cons_self⟩
  | @step trail v w _ along ih =>
    obtain ⟨bound, run, unbound⟩ := ih fun passed member =>
      missed passed (mem_cons_of_mem w member)
    obtain ⟨bound, run, unbound⟩ := runs_within run orphan unbound _ (le_refl _)
    obtain ⟨branch, taken, same⟩ := mem_map.1 (mem_filter.1 along).1
    subst same
    refine ⟨_, run.tail (.transfer (getElem?_eq_none (le_refl _)) taken), ?_⟩
    intro member
    rcases mem_append.1 member with handed | old
    · exact missed branch.target mem_cons_self (mem_of_mem_take handed)
    · exact unbound old

theorem received_of_sound (sound : ∀ state, body.Runs state → body.Sound state) :
    body.Received := by
  intro block value read orphan trail path
  by_contra missed
  obtain ⟨bound, run, unbound⟩ := runs_of_path path orphan fun passed member inside =>
    missed ⟨passed, member, inside⟩
  have within := runs_within run orphan unbound
  rcases mem_append.1 read with operand | read
  · obtain ⟨instr, member, operand⟩ := mem_flatMap.1 operand
    obtain ⟨position, listed⟩ := mem_iff_getElem?.1 member
    obtain ⟨bound, run, unbound⟩ := within position
      (le_of_lt (List.getElem?_eq_some_iff.1 listed).1)
    apply unbound
    apply (sound _ run).bound
    simp only [reads, listed]
    exact operand
  · obtain ⟨bound, run, unbound⟩ := within _ (le_refl _)
    apply unbound
    apply (sound _ run).bound
    simp only [reads, getElem?_eq_none (le_refl _)]
    exact read

variable (body)

def entries (block : BasicBlock) : List WalkEntry :=
  block.terminator.branches.map .branch ++ block.instrs.map .instr

/-- Whether a branch or a listed instruction has what it names in the table, and as many values
as it takes. -/
def fits : WalkEntry → Bool
  | .branch taken => taken.target < body.blocks.length &&
      taken.args.length == (body.block taken.target).params.length && taken.args.all body.defines
  | .instr value =>
    match body.values[value]? with
    | some (.instr op args classes) => op.produces == classes.length &&
        op.arity.all (· == args.length) && args.all body.defines
    | _ => false

def firstUnfit (entries : List WalkEntry) : Option WalkEntry :=
  entries.find? fun entry => !body.fits entry

/-- The first branch or listed instruction that does not fit is not an instruction past the value
table. -/
def Indexed : Prop :=
  body.entry < body.blocks.length → ∀ value,
    body.firstUnfit (body.blocks.flatMap entries) = some (.instr value) → value < body.values.length

/-- A gate answers as a walk over entries does: it passes where all fit, and indexes past the
table where the first that does not is an instruction past it. -/
structure Follows (gate : Gate) (entries : List WalkEntry) : Prop where
  passes : gate = .ok () ↔ body.firstUnfit entries = none
  panics : gate = .error .panicked ↔ ∃ value, body.firstUnfit entries = some (.instr value) ∧
    body.values.length ≤ value

variable {body}

theorem follows_nil : body.Follows (.ok ()) [] :=
  ⟨⟨fun _ => rfl, fun _ => rfl⟩, ⟨fun same => (by cases same),
    fun ⟨_, found, _⟩ => (by cases found)⟩⟩

variable {first second : Gate}

theorem Follows.append {left right : List WalkEntry}
    (before : body.Follows first left) (after : body.Follows second right) :
    body.Follows (first >>= fun _ => second) (left ++ right) := by
  have split : body.firstUnfit (left ++ right) =
      (body.firstUnfit left).or (body.firstUnfit right) := List.find?_append
  cases ran : first with
  | ok _ =>
    have none := before.passes.1 ran
    constructor
    · rw [split, none, Option.none_or]
      exact after.passes
    · rw [split, none, Option.none_or]
      exact after.panics
  | error cause =>
    have some : body.firstUnfit left ≠ none := by
      intro none
      have passed := before.passes.2 none
      rw [ran] at passed
      cases passed
    obtain ⟨entry, found⟩ := Option.ne_none_iff_exists'.1 some
    constructor
    · rw [split, found, Option.some_or]
      exact ⟨fun same => (by cases same), fun same => (by cases same)⟩
    · rw [split, found, Option.some_or, ← found, ← before.panics, ran]
      rfl

variable {α : Type} {check : α → Gate}

theorem follows_forM {walk : α → List WalkEntry} (items : List α)
    (each : ∀ item ∈ items, body.Follows (check item) (walk item)) :
    body.Follows (items.forM check) (items.flatMap walk) := by
  induction items with
  | nil => exact follows_nil
  | cons item items ih =>
    exact (each item mem_cons_self).append
      (ih fun other member => each other (mem_cons_of_mem _ member))

theorem seq_ok : (first >>= fun _ => second) = .ok () ↔ first = .ok () ∧ second = .ok () := by
  cases first with
  | ok _ => exact ⟨fun ran => ⟨rfl, ran⟩, fun both => both.2⟩
  | error cause => exact ⟨fun ran => (by cases ran), fun both => (by cases both.1)⟩

theorem forM_ok_iff {items : List α} :
    items.forM check = .ok () ↔ ∀ item ∈ items, check item = .ok () := by
  refine ⟨forM_ok, fun all => ?_⟩
  induction items with
  | nil => rfl
  | cons item items ih =>
    exact seq_ok.2 ⟨all item mem_cons_self,
      ih fun other member => all other (mem_cons_of_mem _ member)⟩

/-- A gate that does not index past the value table. -/
def Named (gate : Gate) : Prop := gate ≠ .error .panicked

theorem named_ensure (held : Bool) (cause : BodyRefusal) : Named (ensure held cause) := by
  unfold ensure
  split
  · exact fun same => (by cases same)
  · exact fun same => (by cases same)

theorem named_ok : Named (.ok ()) := fun same => (by cases same)

theorem named_reject (cause : BodyRefusal) : Named (reject cause) := fun same => (by cases same)

theorem named_seq (before : Named first) (after : Named second) :
    Named (first >>= fun _ => second) := by
  cases first with
  | ok _ => exact after
  | error cause => exact before

theorem named_forM (items : List α) (each : ∀ item ∈ items, Named (check item)) :
    Named (items.forM check) := by
  induction items with
  | nil => exact named_ok
  | cons item items ih =>
    exact named_seq (each item mem_cons_self)
      (ih fun other member => each other (mem_cons_of_mem _ member))

theorem follows_singleton {gate : Gate} {entry : WalkEntry}
    (passes : gate = .ok () ↔ body.fits entry)
    (panics : gate = .error .panicked ↔ ∃ value, entry = .instr value ∧ body.values.length ≤ value) :
    body.Follows gate [entry] := by
  have found : body.firstUnfit [entry] = if body.fits entry then none else some entry := by
    unfold firstUnfit
    cases fit : body.fits entry with
    | true => rw [List.find?_cons_of_neg (by simp [fit]), List.find?_nil, if_pos rfl]
    | false => rw [List.find?_cons_of_pos (by simp [fit]), if_neg (by simp)]
  constructor
  · rw [passes, found]
    split
    · rename_i fit
      exact ⟨fun _ => rfl, fun _ => fit⟩
    · rename_i unfit
      exact ⟨fun fit => absurd fit unfit, fun none => (by cases none)⟩
  · rw [panics, found]
    split
    · rename_i fit
      constructor
      · rintro ⟨value, rfl, past⟩
        simp only [fits, getElem?_eq_none past] at fit
        cases fit
      · rintro ⟨_, none, _⟩
        cases none
    · exact ⟨fun ⟨value, same, past⟩ => ⟨value, by rw [same], past⟩,
        fun ⟨value, same, past⟩ => ⟨value, Option.some.inj same, past⟩⟩

theorem follows_checkBranch (index : Nat) (taken : Br) :
    body.Follows (body.checkBranch index taken) [.branch taken] := by
  apply follows_singleton
  · unfold checkBranch
    simp only [seq_ok, forM_ok_iff, ensure_ok, fits, Bool.and_eq_true, all_eq_true,
      decide_eq_true_eq, and_assoc]
  · constructor
    · intro panicked
      exact absurd panicked (named_seq (named_ensure _ _) (named_seq (named_ensure _ _)
        (named_forM _ fun _ _ => named_ensure _ _)))
    · rintro ⟨_, same, _⟩
      cases same

theorem follows_checkInstr (index : Nat) (value : ValueId) :
    body.Follows (body.checkInstr index value) [.instr value] := by
  apply follows_singleton
  · unfold checkInstr
    cases found : body.values[value]? with
    | none =>
      simp only [fits, found]
      exact ⟨fun same => (by cases same), fun same => (by cases same)⟩
    | some definition =>
      cases definition with
      | blockParam block position =>
        simp only [fits, found]
        exact ⟨fun same => (by cases same), fun same => (by cases same)⟩
      | instr op args classes =>
        simp only [fits, found, seq_ok, forM_ok_iff, ensure_ok, Bool.and_eq_true,
          all_eq_true, and_assoc]
  · unfold checkInstr
    constructor
    · intro panicked
      refine ⟨value, rfl, ?_⟩
      cases found : body.values[value]? with
      | none => exact List.getElem?_eq_none_iff.1 found
      | some definition =>
        rw [found] at panicked
        cases definition with
        | blockParam block position => cases panicked
        | instr op args classes =>
          exact absurd panicked (named_seq (named_ensure _ _) (named_seq (named_ensure _ _)
            (named_forM _ fun _ _ => named_ensure _ _)))
    · rintro ⟨other, same, past⟩
      cases same
      rw [getElem?_eq_none past]

theorem follows_checkBlock (block : BasicBlock) (index : Nat) :
    body.Follows (body.checkBlock block index) (entries block) := by
  have branches : body.Follows (block.terminator.branches.forM (body.checkBranch index))
      (block.terminator.branches.flatMap fun taken => [.branch taken]) :=
    follows_forM _ fun taken _ => follows_checkBranch index taken
  have instrs : body.Follows (block.instrs.forM (body.checkInstr index))
      (block.instrs.flatMap fun value => [.instr value]) :=
    follows_forM _ fun value _ => follows_checkInstr index value
  have both := branches.append instrs
  rwa [← map_eq_flatMap, ← map_eq_flatMap] at both

theorem follows_checkBlocks :
    body.Follows (body.blocks.zipIdx.forM fun place => body.checkBlock place.1 place.2)
      (body.blocks.flatMap entries) := by
  have walked := follows_forM body.blocks.zipIdx
    fun place _ => @follows_checkBlock body place.1 place.2
  have same : body.blocks.zipIdx.flatMap (fun place => entries place.1) =
      body.blocks.flatMap entries := by
    rw [← flatMap_map, zipIdx_map_fst]
  rwa [same] at walked

theorem named_checkReturn (block : BasicBlock) (index : Nat) :
    Named (body.checkReturn block index) := by
  unfold checkReturn
  split
  · exact named_forM _ fun _ _ => named_ensure _ _
  · exact named_ok

section

variable (dominance : Dominance)

include dominance

theorem named_checkScope (block position : Nat) (site : UseSite) (value : ValueId) :
    Named (body.checkScope dominance block position site value) := by
  unfold checkScope
  split
  · exact named_ok
  · exact named_reject _

theorem named_checkUses (block : BasicBlock) (index : Nat) :
    Named (body.checkUses dominance block index) := by
  obtain ⟨params, instrs, terminator⟩ := block
  unfold checkUses
  apply named_seq
  · apply named_forM
    intro place _
    dsimp only
    split
    · exact named_forM _ fun _ _ => named_checkScope _ _ _ _ _
    · exact named_ok
  · have transfers : ∀ position, Named (terminator.branches.forM fun branch => branch.args.forM
        (body.checkScope dominance index position (.transfer index branch.target))) :=
      fun position => named_forM _ fun _ _ => named_forM _ fun _ _ => named_checkScope _ _ _ _ _
    cases terminator with
    | «return» values =>
      exact named_seq named_ok (named_seq (transfers _)
        (named_forM _ fun _ _ => named_checkScope _ _ _ _ _))
    | br branch => exact named_seq named_ok (named_seq (transfers _) named_ok)
    | condBr cond ifTrue ifFalse =>
      exact named_seq (named_checkScope _ _ _ _ _) (named_seq (transfers _) named_ok)

variable (barrier : Barrier)

theorem named_checkBufferPair : Named (body.checkBufferPair dominance barrier) := by
  unfold checkBufferPair
  apply named_seq (named_ensure _ _)
  split
  · exact named_reject _
  · exact named_reject _
  · exact named_ensure _ _

theorem named_divergent (found : Option Nat) :
    Named (match found with
      | none => reject (.barrierReadUnlisted barrier)
      | some block => ensure (body.unavoidable dominance block) (.barrierDivergent barrier block)) := by
  cases found with
  | none => exact named_reject _
  | some block => exact named_ensure _ _

theorem named_checkBarrier : Named (body.checkBarrier dominance barrier) := by
  have last := @named_divergent body dominance barrier (body.blockOf barrier.read)
  unfold checkBarrier
  revert last
  generalize body.blockOf barrier.read = found
  intro last
  all_goals
    dsimp only at last ⊢
    split
    · split
      · exact named_seq (named_ensure _ _) last
      · exact named_seq (named_reject _) last
    · split
      · exact named_seq (named_checkBufferPair _ _) last
      · exact named_seq (named_reject _) last
    · exact named_seq (named_reject _) last
    · exact named_seq (named_reject _) last
    · exact named_seq (named_reject _) last

end

theorem panicked_seq (later : Named second) :
    (first >>= fun _ => second) = .error .panicked ↔ first = .error .panicked := by
  cases first with
  | ok _ => exact ⟨fun ran => absurd ran later, fun ran => (by cases ran)⟩
  | error cause => exact Iff.rfl

theorem entered_of_ok (passed : first = .ok ()) : (first >>= fun _ => second) = second := by
  rw [passed]
  rfl

/-- The gate indexes past the value table exactly when the first branch or listed instruction
that does not fit is an instruction past it. -/
theorem validate_panicked_iff : body.validate = .error .panicked ↔ ¬ body.Indexed := by
  unfold validate Indexed
  by_cases entered : body.entry < body.blocks.length
  · have filled : ensure (!body.blocks.isEmpty) .noBlock = .ok () := by
      cases blocks : body.blocks with
      | nil => simp [blocks] at entered
      | cons _ _ => rfl
    have inside : ensure (body.entry < body.blocks.length)
        (.entryMissing body.entry body.blocks.length) = .ok () :=
      ensure_ok.2 (decide_eq_true entered)
    rw [entered_of_ok filled, entered_of_ok inside, panicked_seq, follows_checkBlocks.panics]
    · constructor
      · rintro ⟨value, found, past⟩ indexed
        exact absurd (indexed entered value found) (Nat.not_lt_of_le past)
      · intro unindexed
        by_contra none
        apply unindexed
        intro _ value found
        by_contra past
        exact none ⟨value, found, Nat.le_of_not_lt past⟩
    · apply named_seq (named_forM _ fun place _ => named_checkReturn place.1 place.2)
      apply named_seq (named_forM _ fun place _ => named_checkUses _ place.1 place.2)
      exact named_forM _ fun barrier _ => named_checkBarrier _ barrier
  · constructor
    · intro panicked
      exfalso
      by_cases filled : body.blocks.isEmpty
      · rw [filled] at panicked
        cases panicked
      · have passed : ensure (!body.blocks.isEmpty) .noBlock = .ok () := by
          rw [ensure_ok]
          simpa using filled
        have outside : ensure (body.entry < body.blocks.length)
            (.entryMissing body.entry body.blocks.length) =
              .error (.refused (.entryMissing body.entry body.blocks.length)) := by
          unfold ensure
          rw [if_neg (by simpa using entered)]
          rfl
        rw [entered_of_ok passed, outside] at panicked
        cases panicked
    · exact fun unindexed => absurd (fun inside => absurd inside entered) unindexed

variable (body)

/-- What the gate is for: it answers for every body, and what it passes runs soundly. -/
def GateHolds : Prop :=
  body.validate ≠ .error .panicked ∧
    (body.validate = .ok () → ∀ state, body.Runs state → body.Sound state)

/-- The gate answers for a body exactly when the first branch or listed instruction that does not
fit is in the value table, and a body it passes runs soundly exactly when each orphan it reads is
received before. -/
theorem validate_sound_iff : (body.validate ≠ .error .panicked ↔ body.Indexed) ∧
      (body.validate = .ok () →
        ((∀ state, body.Runs state → body.Sound state) ↔ body.Received)) := by
  refine ⟨?_, fun passed => ⟨received_of_sound, fun received state run => ?_⟩⟩
  · rw [Ne, validate_panicked_iff, not_not]
  · exact sound_of_received (gated_of_validate passed) received run

/-- Its block lists an instruction and its value table is empty. -/
def pastTable : KernelBody where
  values := []
  blocks := [⟨[], [0], .return []⟩]
  entry := 0

/-- Its entry branches on a value that is in no table. -/
def openCondition : KernelBody where
  values := []
  blocks := [⟨[], [], .condBr 0 ⟨1, []⟩ ⟨1, []⟩⟩, ⟨[], [], .return []⟩]
  entry := 0

/-- The gate panics on a body that lists an instruction past its table, and passes one whose run
branches on a value that nothing bound. -/
theorem gate_fails : ¬ pastTable.GateHolds ∧ ¬ openCondition.GateHolds := by
  constructor
  · exact fun holds => holds.1 (by decide)
  · intro holds
    have sound := holds.2 (by decide) _ .refl
    exact absurd (sound.bound 0 (by decide)) (by decide)

end KernelBody

end LichenVm.KernelIr
