import LichenVm.BodyDominance
import LichenVm.BodyScope
import Mathlib.Logic.Relation

open List

namespace LichenVm.KernelIr

open Dominators Traverse

/-- The values a terminator reads, on either branch it may take. -/
def Terminator.reads : Terminator → List ValueId
  | .return values => values
  | .br branch => branch.args
  | .condBr cond ifTrue ifFalse => cond :: (ifTrue.args ++ ifFalse.args)

/-- Where a run stands: its block, how many of the block's instructions it executed, and the
values it has bound. -/
structure RunState where
  block : Nat
  position : Nat
  bound : List ValueId

namespace KernelBody

variable (body : KernelBody)

/-- The values a listed instruction reads. -/
def operands (value : ValueId) : List ValueId :=
  match body.values[value]? with
  | some (.instr _ args _) => args
  | _ => []

/-- The value executing an instruction binds, when it leaves one. -/
def leaves (value : ValueId) : List ValueId :=
  match body.values[value]? with
  | some (.instr op _ _) => if op.produces = 0 then [] else [value]
  | _ => []

/-- A run enters with one value for each parameter of the entry block. -/
def start : RunState := ⟨body.entry, 0, body.parameters⟩

/-- A run executes what its block lists, in order, and then takes a branch. The branch binds each
parameter of its target it hands a value to. -/
inductive Step : RunState → RunState → Prop
  | execute {state : RunState} {value : ValueId}
      (listed : (body.block state.block).instrs[state.position]? = some value) :
      Step state ⟨state.block, state.position + 1, body.leaves value ++ state.bound⟩
  | transfer {state : RunState} {branch : Br}
      (finished : (body.block state.block).instrs[state.position]? = none)
      (taken : branch ∈ (body.block state.block).terminator.branches) :
      Step state ⟨branch.target, 0,
        (body.block branch.target).params.take branch.args.length ++ state.bound⟩

def Runs (state : RunState) : Prop :=
  Relation.ReflTransGen body.Step body.start state

/-- What the next step of a run reads. -/
def reads (state : RunState) : List ValueId :=
  match (body.block state.block).instrs[state.position]? with
  | some value => body.operands value
  | none => (body.block state.block).terminator.reads

/-- A state of a run is sound: its block exists, what it reads is bound, and the branches it may
take go to blocks that exist and hand each exactly its parameters. -/
structure Sound (state : RunState) : Prop where
  present : state.block < body.blocks.length
  bound : ∀ value ∈ body.reads state, value ∈ state.bound
  handed : (body.block state.block).instrs[state.position]? = none →
    ∀ branch ∈ (body.block state.block).terminator.branches, branch.target < body.blocks.length ∧
      branch.args.length = (body.block branch.target).params.length

/-- A value that only a block receiving it binds: it is not in the table, or it is a parameter
that its own block does not receive, or its instruction leaves nothing. -/
def Orphan (value : ValueId) : Prop :=
  match body.values[value]? with
  | none => True
  | some (.blockParam block _) => value ∉ (body.block block).params
  | some (.instr op _ _) => op.produces = 0

def blockReads (block : Nat) : List ValueId :=
  (body.block block).instrs.flatMap body.operands ++ (body.block block).terminator.reads

def Path : List Nat → Nat → Prop :=
  Dominators.Walk (fun v w => w ∈ body.successors v) body.entry

/-- An orphan read in a block is received on every path to the block. -/
def Received : Prop :=
  ∀ block, ∀ value ∈ body.blockReads block, body.Orphan value → ∀ trail, body.Path trail block →
    ∃ passed ∈ block :: trail, value ∈ (body.block passed).params

/-- What the gate establishes of a body it passes. -/
structure Gated : Prop where
  entered : body.entry < body.blocks.length
  handed : ∀ block < body.blocks.length, ∀ branch ∈ (body.block block).terminator.branches,
    branch.target < body.blocks.length ∧
      branch.args.length = (body.block branch.target).params.length
  operands : ∀ block < body.blocks.length, ∀ position value,
    (body.block block).instrs[position]? = some value → ∀ arg ∈ body.operands value,
      body.outOfScope body.dominance block position arg = none
  terminator : ∀ block < body.blocks.length, ∀ value ∈ (body.block block).terminator.reads,
    body.outOfScope body.dominance block (body.block block).instrs.length value = none

variable {body} {dominance : Dominance} {position : Nat} {value : ValueId}

theorem checkScope_ok {block : Nat} {site : UseSite} (passed :
    body.checkScope dominance block position site value = .ok ()) :
    body.outOfScope dominance block position value = none := by
  unfold checkScope at passed
  split at passed
  · assumption
  · cases passed

variable {index : Nat}

theorem block_found (within : index < body.blocks.length) :
    body.blocks[index]? = some (body.block index) := by
  unfold block
  rw [getD_eq_getElem?_getD, getElem?_eq_getElem within]
  rfl

theorem transfers_ok {branches : List Br} (passed : (branches.forM fun branch => branch.args.forM
      (body.checkScope dominance index position (.transfer index branch.target))) = .ok ()) :
    ∀ branch ∈ branches, ∀ arg ∈ branch.args, body.outOfScope dominance index position arg = none :=
  fun branch member arg inside => checkScope_ok (forM_ok (forM_ok passed branch member) arg inside)

theorem checkUses_terminator {block : BasicBlock}
    (passed : body.checkUses dominance block index = .ok ()) :
    ∀ value ∈ block.terminator.reads,
      body.outOfScope dominance index block.instrs.length value = none := by
  obtain ⟨params, instrs, terminator⟩ := block
  obtain ⟨_, -, passed⟩ := bind_ok.1 passed
  intro value member
  cases terminator with
  | «return» values =>
    obtain ⟨_, -, returned⟩ := bind_ok.1 passed
    exact checkScope_ok (forM_ok returned value member)
  | br branch =>
    obtain ⟨_, -, passed⟩ := bind_ok.1 passed
    obtain ⟨_, transfers, -⟩ := bind_ok.1 passed
    exact transfers_ok transfers branch mem_cons_self value member
  | condBr cond ifTrue ifFalse =>
    obtain ⟨_, condition, passed⟩ := bind_ok.1 passed
    obtain ⟨_, transfers, -⟩ := bind_ok.1 passed
    rcases mem_cons.1 member with rfl | member
    · exact checkScope_ok condition
    · rcases mem_append.1 member with member | member
      · exact transfers_ok transfers ifTrue mem_cons_self value member
      · exact transfers_ok transfers ifFalse (mem_cons_of_mem _ mem_cons_self) value
          member

theorem gated_of_validate (passed : body.validate = .ok ()) : body.Gated := by
  obtain ⟨_, -, passed⟩ := bind_ok.1 passed
  obtain ⟨_, entered, passed⟩ := bind_ok.1 passed
  obtain ⟨_, blocks, passed⟩ := bind_ok.1 passed
  obtain ⟨_, -, passed⟩ := bind_ok.1 passed
  obtain ⟨_, uses, -⟩ := bind_ok.1 passed
  have place : ∀ index < body.blocks.length, (body.block index, index) ∈ body.blocks.zipIdx :=
    fun index within => mem_zipIdx_of_getElem? (block_found within)
  refine ⟨of_decide_eq_true (ensure_ok.1 entered), ?_, ?_, ?_⟩
  · intro index within branch member
    obtain ⟨_, branches, -⟩ := bind_ok.1 (forM_ok blocks _ (place index within))
    have checked := forM_ok branches branch member
    obtain ⟨_, target, checked⟩ := bind_ok.1 checked
    obtain ⟨_, arity, -⟩ := bind_ok.1 checked
    exact ⟨of_decide_eq_true (ensure_ok.1 target), eq_of_beq (ensure_ok.1 arity)⟩
  · intro index within position value listed arg member
    obtain ⟨_, instrs, -⟩ := bind_ok.1 (forM_ok uses _ (place index within))
    have use := forM_ok instrs _ (mem_zipIdx_of_getElem? listed)
    dsimp only at use
    unfold operands at member
    split at member
    · rename_i op args classes found
      rw [found] at use
      exact checkScope_ok (forM_ok use arg member)
    · cases member
  · intro index within
    exact checkUses_terminator (forM_ok uses _ (place index within))

theorem foldl_some {α β : Type} (holds : β → Prop) {step : Option β → α → Option β}
    (items : List α) (found : ∀ item ∈ items, ∀ before, (∀ site, before = some site → holds site) →
      ∀ site, step before item = some site → holds site) (before : Option β)
    (first : ∀ site, before = some site → holds site) :
    ∀ site, items.foldl step before = some site → holds site := by
  induction items generalizing before with
  | nil => exact first
  | cons item items ih =>
    apply ih fun other member => found other (mem_cons_of_mem _ member)
    exact found item mem_cons_self before first

theorem listed_at_definitionSite {site : Nat × Nat}
    (found : body.definitionSite value = some site) :
    (body.block site.1).instrs[site.2]? = some value := by
  refine foldl_some (fun site => (body.block site.1).instrs[site.2]? = some value) _ ?_ none
    (fun _ none => (by cases none)) site found
  intro place member before first
  apply foldl_some _ _ _ _ first
  intro instr inside before first site found
  dsimp only at found
  split at found
  · rename_i same
    cases found
    have block := mem_zipIdx_iff_getElem?.1 member
    have position := mem_zipIdx_iff_getElem?.1 inside
    unfold KernelBody.block
    rw [getD_eq_getElem?_getD, block]
    rw [← same]
    exact position
  · exact first site found

/-- What holds of every state a run comes to, with the blocks it left: it has bound what each
block it entered receives, and what it executed leaves. -/
structure Reached (state : RunState) (trail : List Nat) : Prop where
  path : body.Path trail state.block
  present : state.block < body.blocks.length
  received : ∀ passed ∈ state.block :: trail, ∀ value ∈ (body.block passed).params,
    value ∈ state.bound
  left : ∀ passed ∈ trail, ∀ instr ∈ (body.block passed).instrs, ∀ value ∈ body.leaves instr,
    value ∈ state.bound
  executed : ∀ position < state.position, ∀ instr,
    (body.block state.block).instrs[position]? = some instr → ∀ value ∈ body.leaves instr,
      value ∈ state.bound

theorem reached_start (gated : body.Gated) : body.Reached body.start [] := by
  refine ⟨.start, gated.entered, ?_, ?_, ?_⟩
  · intro passed member value inside
    rw [mem_singleton.1 member] at inside
    exact inside
  · exact fun passed member => absurd member not_mem_nil
  · exact fun position before => absurd before (Nat.not_lt_zero position)

variable {state : RunState}

theorem reached_step (gated : body.Gated) {next : RunState} {trail : List Nat}
    (held : body.Reached state trail) (step : body.Step state next) :
    ∃ trail, body.Reached next trail := by
  cases step with
  | @execute value listed =>
    refine ⟨trail, held.path, held.present, ?_, ?_, ?_⟩
    · exact fun passed member other inside =>
        mem_append_right _ (held.received passed member other inside)
    · exact fun passed member instr inside other left =>
        mem_append_right _ (held.left passed member instr inside other left)
    · intro position before instr found other left
      by_cases last : position = state.position
      · rw [last, listed] at found
        cases found
        exact mem_append_left _ left
      · apply mem_append_right
        exact held.executed position (by dsimp only at before; omega) instr found other left
  | @transfer branch finished taken =>
    obtain ⟨present, arity⟩ := gated.handed state.block held.present branch taken
    have along : branch.target ∈ body.successors state.block :=
      mem_filter.2 ⟨mem_map_of_mem taken, decide_eq_true present⟩
    refine ⟨state.block :: trail, .step held.path along, present, ?_, ?_, ?_⟩
    · intro passed member value inside
      rcases mem_cons.1 member with rfl | member
      · apply mem_append_left
        rw [arity, take_length]
        exact inside
      · exact mem_append_right _ (held.received passed member value inside)
    · intro passed member instr inside value left
      apply mem_append_right
      rcases mem_cons.1 member with rfl | member
      · obtain ⟨position, found⟩ := mem_iff_getElem?.1 inside
        have before : position < state.position := by
          have short := (List.getElem?_eq_some_iff.1 found).1
          have whole := List.getElem?_eq_none_iff.1 finished
          omega
        exact held.executed position before instr found value left
      · exact held.left passed member instr inside value left
    · exact fun position before => absurd before (Nat.not_lt_zero position)

theorem reached_run (gated : body.Gated) (run : body.Runs state) :
    ∃ trail, body.Reached state trail := by
  induction run with
  | refl => exact ⟨[], reached_start gated⟩
  | tail _ step ih =>
    obtain ⟨trail, held⟩ := ih
    exact reached_step gated held step

/-- A value in scope is bound, unless it is an orphan. -/
theorem bound_of_inScope (gated : body.Gated) {trail : List Nat}
    (held : body.Reached state trail) (before : position ≤ state.position) (inside :
    body.outOfScope body.dominance state.block position value = none)
    (kept : ¬ body.Orphan value) : value ∈ state.bound := by
  have passes : ∀ candidate, body.dominance.dominates state.block candidate →
      candidate = state.block ∨ candidate ∈ trail :=
    fun candidate above => (body.dominates_closed gated.entered).on_walk held.path above
  unfold outOfScope at inside
  unfold Orphan at kept
  split at inside
  · rename_i definedIn index found
    simp only [found, Decidable.not_not] at kept
    split at inside
    · rename_i home
      apply held.received definedIn _ value kept
      rcases home with rfl | above
      · exact mem_cons_self
      · rcases passes definedIn above with rfl | member
        · exact mem_cons_self
        · exact mem_cons_of_mem _ member
    · cases inside
  · rename_i op args classes found
    simp only [found] at kept
    have leaves : value ∈ body.leaves value := by
      simp only [KernelBody.leaves, found]
      rw [if_neg kept]
      exact mem_cons_self
    split at inside
    · cases inside
    · rename_i definedIn definedAt site
      have listed := listed_at_definitionSite site
      split at inside
      · rename_i home
        subst home
        split at inside
        · rename_i earlier
          exact held.executed definedAt (by omega) value listed value leaves
        · cases inside
      · rename_i away
        split at inside
        · rename_i above
          have member := (passes definedIn above).resolve_left away
          exact held.left definedIn member value (mem_of_getElem? listed) value leaves
        · cases inside
  · rename_i found
    simp only [found, not_true_eq_false] at kept

end KernelBody

end LichenVm.KernelIr
