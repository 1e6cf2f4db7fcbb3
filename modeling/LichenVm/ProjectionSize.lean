import LichenVm.FusionDistributes
import LichenVm.Projection
import Mathlib.Algebra.Order.BigOperators.Group.List

/-! How large a projection becomes. -/

open List Option

namespace LichenVm.Fusion.Expr

variable {L : Type}

/-- How many nodes the expression has as a tree. -/
def nodes : Expr L → Nat
  | .constant _ => 1
  | .var _ => 1
  | .unary _ operand => operand.nodes + 1
  | .binary _ left right => left.nodes + right.nodes + 1

end LichenVm.Fusion.Expr

namespace LichenVm.FusionBridge

open Fusion KernelIr Traverse

section Unfolded

variable (inlined : KernelBody → ValueId → Option (UnaryOp × ValueId)) (body : KernelBody)

/-- The operands a walk follows from an instruction. -/
def followed (op : KernelInstr) (args : List ValueId) : List ValueId :=
  match op with
  | .bin .float _ => args.take 2
  | .negate | .exp | .sqrt | .ln | .sin | .cos => args.take 1
  | .conv _ _ => args.filter fun operand => (body.constant (some operand)).isNone
  | _ => []

/-- The nodes an expression gets of an instruction itself: a negation is a subtraction from zero, and
a conversion is what it converts. -/
def added (op : KernelInstr) (args : List ValueId) : Nat :=
  match op with
  | .negate => 2
  | .conv source target => if (followed body (.conv source target) args).isEmpty then 1 else 0
  | _ => 1

/-- The operands a walk follows from a value. -/
def follows (id : ValueId) : List ValueId :=
  match body.values[id]? with
  | some (.instr op args _) =>
    match inlined body id with
    | some (_, operand) => [operand]
    | none => followed body op args
  | _ => []

/-- The nodes an expression gets of a value itself. -/
def adds (id : ValueId) : Nat :=
  match body.values[id]? with
  | some (.instr op args _) =>
    match inlined body id with
    | some _ => 1
    | none => added body op args
  | _ => 1

/-- The nodes under a value, each counted once for every way that leads to it in fewer steps than
the depth. -/
def unfolded : Nat → ValueId → Nat
  | 0, _ => 0
  | depth + 1, id => adds inlined body id + ((follows inlined body id).map (unfolded depth)).sum

theorem unfolded_le_succ (depth : Nat) (id : ValueId) :
    unfolded inlined body depth id ≤ unfolded inlined body (depth + 1) id := by
  induction depth generalizing id with
  | zero => exact Nat.zero_le _
  | succ depth ih =>
    exact Nat.add_le_add_left (sum_le_sum fun operand _ => ih operand) _

theorem unfolded_mono {depth more : Nat} (le : depth ≤ more) (id : ValueId) :
    unfolded inlined body depth id ≤ unfolded inlined body more id := by
  induction le with
  | refl => exact le_refl _
  | step _ ih => exact le_trans ih (unfolded_le_succ inlined body _ id)

/-- The operands unfold into so many nodes, from some depth on. -/
def Settles (operands : List ValueId) (count : Nat) : Prop :=
  ∃ depth, ∀ more, depth ≤ more → (operands.map (unfolded inlined body more)).sum = count

variable {inlined body}

theorem settles_nil : Settles inlined body [] 0 := ⟨0, fun _ _ => rfl⟩

theorem Settles.append {first second : List ValueId} {count count' : Nat}
    (settles : Settles inlined body first count) (settles' : Settles inlined body second count') :
    Settles inlined body (first ++ second) (count + count') := by
  obtain ⟨depth, holds⟩ := settles
  obtain ⟨depth', holds'⟩ := settles'
  refine ⟨max depth depth', fun more deep => ?_⟩
  rw [map_append, sum_append, holds more (by omega), holds' more (by omega)]

theorem Settles.value {id : ValueId} {count : Nat}
    (settles : Settles inlined body (follows inlined body id) count) :
    Settles inlined body [id] (adds inlined body id + count) := by
  obtain ⟨depth, holds⟩ := settles
  refine ⟨depth + 1, fun more deep => ?_⟩
  obtain ⟨less, rfl⟩ := Nat.exists_eq_add_of_le' (show 1 ≤ more by omega)
  rw [map_singleton, sum_singleton, unfolded, holds less (by omega)]

theorem Settles.le_iff {id : ValueId} {count bound : Nat} (settles : Settles inlined body [id] count) :
    count ≤ bound ↔ ∀ depth, unfolded inlined body depth id ≤ bound := by
  obtain ⟨depth, holds⟩ := settles
  have reached : ∀ more, depth ≤ more → unfolded inlined body more id = count := by
    intro more deep
    have single := holds more deep
    rwa [map_singleton, sum_singleton] at single
  constructor
  · intro within more
    calc unfolded inlined body more id
        ≤ unfolded inlined body (max depth more) id := unfolded_mono _ _ (le_max_right _ _) id
      _ = count := reached _ (le_max_left _ _)
      _ ≤ bound := within
  · intro within
    rw [← reached depth (le_refl depth)]
    exact within depth

end Unfolded

section Walks

variable {L : Type} {inlined : KernelBody → ValueId → Option (UnaryOp × ValueId)}
  {body : KernelBody} {operands : List ValueId} {more : Nat}

/-- What a walk has read unfolds into what it was read as. -/
def Kept (inlined : KernelBody → ValueId → Option (UnaryOp × ValueId)) (body : KernelBody)
    (walk : Walk L) : Prop :=
  ∀ id expr, walk.read id = some expr → Settles inlined body [id] expr.nodes

/-- A step that keeps what was read, and answers what the operands unfold into with so many nodes
more. -/
def Answers (inlined : KernelBody → ValueId → Option (UnaryOp × ValueId)) (body : KernelBody)
    (operands : List ValueId) (more : Nat) (step : Walker L (Expr L)) : Prop :=
  ∀ walk expr walk', step walk = .ok (expr, walk') → Kept inlined body walk →
    Kept inlined body walk' ∧ ∃ count, Settles inlined body operands count ∧ expr.nodes = more + count

theorem answers_pure {expr : Expr L} (own : expr.nodes = more) :
    Answers inlined body [] more (pure expr : Walker L (Expr L)) := by
  intro walk answered walk' ran kept
  cases ran
  exact ⟨kept, 0, settles_nil, own⟩

theorem answers_refuse {cause : BridgeRefusal} :
    Answers inlined body operands more (refuse cause : Walker L (Expr L)) := by
  intro walk answered walk' ran kept
  cases ran

theorem Answers.bind {step : Walker L (Expr L)} {rest : Expr L → Walker L (Expr L)}
    {others : List ValueId} {own total : Nat} (answers : Answers inlined body operands own step)
    (next : ∀ expr, Answers inlined body others (expr.nodes + total) (rest expr)) :
    Answers inlined body (operands ++ others) (own + total) (step >>= rest) := by
  intro walk expr walk' ran kept
  obtain ⟨⟨middle, between⟩, first, second⟩ := bind_ok.1 ran
  obtain ⟨kept, count, settles, nodes⟩ := answers walk middle between first kept
  obtain ⟨kept, count', settles', nodes'⟩ := next middle between expr walk' second kept
  exact ⟨kept, count + count', settles.append settles', by omega⟩

variable {value : ValueId → Walker L (Expr L)}
  (each : ∀ id, Answers inlined body [id] 0 (value id))

include each in
theorem answers_argument (args : List ValueId) (position : Nat) :
    Answers inlined body ((args.drop position).take 1) 0 (argument value args position) := by
  unfold argument
  cases found : args[position]? with
  | none => exact answers_refuse
  | some arg =>
    have taken : (args.drop position).take 1 = [arg] := by
      rw [take_one, List.head?_drop, found]
      rfl
    rw [taken]
    exact each arg

include each in
theorem answers_applied (operator : UnaryOp) (args : List ValueId) :
    Answers inlined body (args.take 1) 1 (applied value operator args) := by
  have operand := answers_argument each args 0
  have whole := operand.bind fun expr => answers_pure (show (Expr.unary operator expr).nodes = _ from rfl)
  rwa [append_nil] at whole

include each in
theorem answers_binary (operator : BinaryOp) (args : List ValueId) :
    Answers inlined body (args.take 2) 1 (do
      let left ← argument value args 0
      let right ← argument value args 1
      pure (.binary operator left right) : Walker L (Expr L)) := by
  have both : args.take 2 = (args.drop 0).take 1 ++ ((args.drop 1).take 1 ++ []) := by
    rw [append_nil, drop_zero]
    exact @take_add _ args 1 1
  rw [both]
  show Answers inlined body _ (0 + 1) _
  refine (answers_argument each args 0).bind fun left => ?_
  have second := (answers_argument each args 1).bind fun right =>
    answers_pure (show (Expr.binary operator left right).nodes = right.nodes + (left.nodes + 1) by
      rw [Expr.nodes]
      omega)
  rwa [zero_add] at second

variable {fragment : KernelFragment} {reads : ReadRoles}

theorem answers_parameter (block index : Nat) :
    Answers inlined body [] 1 (parameter fragment reads block index : Walker L (Expr L)) := by
  have name : ∀ name, Answers inlined body [] 1 (pure (.var name) : Walker L (Expr L)) :=
    fun name => answers_pure rfl
  unfold parameter
  split
  · split
    · split
      · split
        · exact name _
        split
        · unfold runtimeScalar
          split
          · exact name _
          · exact answers_refuse
        split
        · exact name _
        · exact answers_refuse
      · exact answers_refuse
    · split
      · exact name _
      split
      · exact name _
      · exact answers_refuse
  · intro walk expr walk' ran kept
    unfold carried at ran
    dsimp only at ran
    generalize (if index ∈ walk.stateSlots then walk.stateSlots else walk.stateSlots ++ [index]) = slots
      at ran
    split at ran
    · cases ran
    · cases ran
      exact ⟨kept, 0, settles_nil, rfl⟩

theorem answers_position {args : List ValueId} {rest : Nat → Walker L (Expr L)}
    (next : ∀ position, Answers inlined body operands more (rest position)) :
    Answers inlined body operands more (readPosition fragment args >>= rest) := by
  unfold readPosition
  split
  · exact next _
  · exact answers_refuse

end Walks

section Instructions

variable {L : Type} [Literal L] {numbers : Numbers L}
  {inlined : KernelBody → ValueId → Option (UnaryOp × ValueId)} {fragment : KernelFragment}
  {reads : ReadRoles} {value : ValueId → Walker L (Expr L)}
  (each : ∀ id, Answers inlined fragment.body [id] 0 (value id))

include each in
omit [Literal L] in
theorem answers_conversion (args : List ValueId) (source target : ScalarClass) :
    Answers inlined fragment.body (followed fragment.body (.conv source target) args)
      (added fragment.body (.conv source target) args)
      (conversion numbers fragment reads value args source target) := by
  cases args with
  | nil => exact answers_refuse
  | cons operand rest =>
    cases rest with
    | cons _ _ => exact answers_refuse
    | nil =>
      rw [conversion]
      by_cases wrong : source ≠ .int ∨ target ≠ .float
      · rw [if_pos wrong]
        exact answers_refuse
      rw [if_neg wrong]
      cases stated : fragment.body.constant (some operand) with
      | some number =>
        simp only [added, followed, filter_cons, stated, isNone_some, Bool.false_eq_true, if_false,
          filter_nil, isEmpty_nil, if_true]
        by_cases large : EXACT_INTEGER_LIMIT < number
        · rw [if_pos large]
          exact answers_refuse
        · rw [if_neg large]
          exact answers_pure rfl
      | none =>
        simp only [added, followed, filter_cons, stated, isNone_none, if_true, filter_nil,
          isEmpty_cons, Bool.false_eq_true, if_false]
        split
        · exact answers_refuse
        · exact each operand

include each in
theorem answers_instruction {id : ValueId} {op : KernelInstr} {args : List ValueId}
    {classes : List ScalarClass} (listed : fragment.body.values[id]? = some (.instr op args classes)) :
    Answers inlined fragment.body (follows inlined fragment.body id) (adds inlined fragment.body id)
      (instruction numbers inlined fragment reads value id op args) := by
  unfold adds follows instruction
  rw [listed]
  cases inlined fragment.body id with
  | some definition =>
    have operand := (each definition.2).bind fun expr =>
      answers_pure (show (Expr.unary definition.1 expr).nodes = _ from rfl)
    rwa [append_nil] at operand
  | none =>
    have each_applied := fun operator => @answers_applied _ _ _ _ each operator args
    have refused : ∀ {rest : Nat → Walker L (Expr L)}, (∀ position, ∃ cause, rest position = refuse cause) →
        Answers inlined fragment.body [] 1 (readPosition fragment args >>= rest) := by
      intro rest refuses
      apply answers_position
      intro position
      obtain ⟨cause, same⟩ := refuses position
      rw [same]
      exact answers_refuse
    cases op with
    | const stated bits =>
      cases stated with
      | float => exact answers_pure rfl
      | _ => exact answers_refuse
    | bin stated operator =>
      cases stated with
      | float =>
        dsimp only
        cases binary operator with
        | none => exact answers_refuse
        | some symbolic => exact answers_binary each symbolic args
      | _ => exact answers_refuse
    | negate =>
      have operand := answers_argument each args 0
      have whole := operand.bind fun expr => answers_pure
        (show (Expr.binary .sub (.constant Literal.zero) expr).nodes = expr.nodes + 2 by
          rw [Expr.nodes, Expr.nodes]
          omega)
      rwa [append_nil] at whole
    | exp => exact each_applied .exp
    | sqrt => exact each_applied .sqrt
    | ln => exact each_applied .ln
    | sin => exact each_applied .sin
    | cos => exact each_applied .cos
    | conv source target => exact answers_conversion each args source target
    | bufferReadCall stated =>
      have slot : Answers inlined fragment.body [] 1 (readPosition fragment args >>= fun position =>
          if reads.parameterLeaves.isSome then refuse .readsABuffer
          else pure (.var ((reads.producerAt position).getD .DATUM)) : Walker L (Expr L)) := by
        apply answers_position
        intro position
        split
        · exact answers_refuse
        · exact answers_pure rfl
      cases stated with
      | int => exact answers_refuse
      | _ => exact slot
    | bufferWriteCall _ | bufferAtomicAddCall _ | outputReadCall _ | sliceReadCall _
    | sliceWriteCall _ => exact refused fun position => ⟨_, rfl⟩
    | _ => exact answers_refuse

omit [Literal L] in
theorem answers_charge (id : ValueId) (expr : Expr L) {walk walk' : Walk L} {answer : Expr L}
    (ran : charge id expr walk = .ok (answer, walk')) (kept : Kept inlined fragment.body walk)
    (settles : Settles inlined fragment.body [id] expr.nodes) :
    Kept inlined fragment.body walk' ∧ answer = expr := by
  unfold charge at ran
  split at ran
  · cases ran
  cases ran
  refine ⟨fun other found listed => ?_, rfl⟩
  by_cases same : other = id
  · subst same
    have listed : Function.update walk.read other (some expr) other = some found := listed
    rw [Function.update_self] at listed
    rw [← some.inj listed]
    exact settles
  · have listed : Function.update walk.read id (some expr) other = some found := listed
    rw [Function.update_of_ne same] at listed
    exact kept other found listed

/-- What a value is read as has the nodes that the value unfolds into. -/
theorem answers_value (fuel : Nat) (id : ValueId) :
    Answers inlined fragment.body [id] 0 (FusionBridge.value numbers inlined fragment reads fuel id) := by
  induction fuel generalizing id with
  | zero =>
    intro walk expr walk' ran kept
    cases ran
  | succ fuel ih =>
    intro walk expr walk' ran kept
    cases held : walk.read id with
    | some expr' =>
      simp only [FusionBridge.value, held] at ran
      cases ran
      exact ⟨kept, _, kept id _ held, (zero_add _).symm⟩
    | none =>
      simp only [FusionBridge.value, held] at ran
      obtain ⟨⟨computed, between⟩, first, second⟩ := bind_ok.1 ran
      have own : Answers inlined fragment.body (follows inlined fragment.body id)
          (adds inlined fragment.body id)
          (defined numbers inlined fragment reads
            (FusionBridge.value numbers inlined fragment reads fuel) id) := by
        unfold defined
        split
        · next block index listed =>
          unfold adds follows
          rw [listed]
          exact answers_parameter block index
        · next op args classes listed => exact answers_instruction ih listed
        · exact answers_refuse
      obtain ⟨kept, count, settles, nodes⟩ := own walk computed between first kept
      have whole := settles.value
      rw [← nodes] at whole
      obtain ⟨kept, rfl⟩ := answers_charge id computed second kept whole
      exact ⟨kept, _, whole, (zero_add _).symm⟩

end Instructions

section Projections

variable {L : Type} [Literal L] {numbers : Numbers L}
  {inlined : KernelBody → ValueId → Option (UnaryOp × ValueId)} {fragment : KernelFragment}
  {reads : ReadRoles}

theorem projection_settles {fuel : Nat} {marked : ValueId} {expr : Expr L}
    (projects : projection numbers inlined fragment reads fuel marked = .ok expr) :
    Settles inlined fragment.body [marked] expr.nodes := by
  unfold projection at projects
  split at projects
  · cases projects
  · cases projects
  cases ran : value numbers inlined fragment reads fuel marked ({} : Walk L) with
  | error stop =>
    rw [ran] at projects
    cases projects
  | ok answered =>
    rw [ran] at projects
    cases projects
    obtain ⟨-, count, settles, nodes⟩ := answers_value fuel marked {} answered.1 answered.2 ran
      (fun id expr found => by cases found)
    rw [nodes, zero_add]
    exact settles

/-- A projection is within its budget exactly where the values under the marked one are, each counted
once for every way that leads to it. -/
theorem projection_within_iff {fuel : Nat} {marked : ValueId} {expr : Expr L}
    (projects : projection numbers inlined fragment reads fuel marked = .ok expr) :
    expr.nodes ≤ EXPRESSION_NODE_BUDGET ↔
      ∀ depth, unfolded inlined fragment.body depth marked ≤ EXPRESSION_NODE_BUDGET :=
  (projection_settles projects).le_iff

/-- A chain of sums of a value with itself, over the invocation index. -/
def doublings (count : Nat) : KernelFragment where
  paramShape := .tuple [.scalar .int, .scalar .int]
  roles := {}
  body :=
    { values := [.blockParam 0 0, .blockParam 0 1, .instr (.conv .int .float) [1] [.float]] ++
        (List.range count).map fun level => .instr (.bin .float .add) [level + 2, level + 2] [.float]
      blocks := [⟨[0, 1], (List.range (count + 1)).map (· + 2), .return [count + 2]⟩]
      entry := 0 }
  inputs := 0
  outputs := 0
  inputClasses := []
  outputClasses := []
  resultClasses := [.float]
  target := ⟨.i64, 64, 1⟩

/-- The numbers a body over rationals names: no literal of the chain is read. -/
def counts : Numbers ℚ where
  ofSingle _ := 0
  ofNat number := number

def noDefinition : KernelBody → ValueId → Option (UnaryOp × ValueId) := fun _ _ => none

/-- One sum is three nodes. -/
theorem projection_within_iff_sum :
    (Expr.binary .add (.var .INVOCATION) (.var .INVOCATION) : Expr ℚ).nodes ≤ EXPRESSION_NODE_BUDGET ↔
      ∀ depth, unfolded noDefinition (doublings 1).body depth 3 ≤ EXPRESSION_NODE_BUDGET :=
  @projection_within_iff ℚ _ counts noDefinition (doublings 1) .DATUM_ONLY 4 3 _ rfl

/-- Twelve sums are more nodes than the budget, and are projected. -/
theorem doublings_outgrow :
    ∃ expr, projection counts noDefinition (doublings 12) .DATUM_ONLY 15 14 = .ok expr ∧
      EXPRESSION_NODE_BUDGET < expr.nodes := by
  have answered : (projection counts noDefinition (doublings 12) .DATUM_ONLY 15 14).toOption.isSome =
      true := by
    decide +kernel
  obtain ⟨expr, found⟩ := isSome_iff_exists.1 answered
  have projects : projection counts noDefinition (doublings 12) .DATUM_ONLY 15 14 = .ok expr := by
    cases ran : projection counts noDefinition (doublings 12) .DATUM_ONLY 15 14 with
    | error stop =>
      rw [ran] at found
      cases found
    | ok answer =>
      rw [ran] at found
      exact congrArg Except.ok (some.inj found)
  refine ⟨expr, projects, ?_⟩
  by_contra within
  have bounded := (projection_settles projects).le_iff.1 (Nat.le_of_not_lt within) 14
  exact absurd bounded (by decide +kernel)

end Projections

end LichenVm.FusionBridge
