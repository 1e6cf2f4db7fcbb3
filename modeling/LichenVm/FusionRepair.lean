import LichenVm.FusionNormalize

/-! The derivation of a fused rolling update: abstraction, inversion, distributivity, and the body. -/

namespace LichenVm.Fusion

open LoggedRun Expr

variable {L : Type}

inductive InvertRefusal (L : Type) where
  | multipleOccurrences (count : Nat)
  | missingParameter (parameter : Expr L)
  | unsupportedOperator (operator : BinaryOp)
  | ambiguousOperator (operator : UnaryOp)

inductive FusionRefusal (L : Type) where
  | producerValueAbsent (elementFunction : Expr L)
  | notInvertible (at_ : Expr L) (cause : InvertRefusal L)
  | notDistributive (repair : Expr L) (combine : BinaryOp)
  | repairFunctionOutsideItsSlots (reads : List Variable)
  | normalizationBudgetExceeded (budget : Nat)
  /-- The canonicalizer recursed deeper than the fuel: no answer of the code. -/
  | unfinished

/-- One side of a reduction chain. -/
structure Reduction (L : Type) where
  combine : BinaryOp
  identity : L

/-- The repair function: of a value, the producer's value before the step, and after it. -/
structure RepairFunction (L : Type) where
  body : Expr L

/-- One assignment of the emitted loop body. -/
structure Assignment (L : Type) where
  target : Variable
  value : Expr L

/-- An element function read as a function of the producer's value. -/
structure Abstraction (L : Type) where
  source : Expr L
  template : Expr L

structure FusedReduction (L : Type) where
  producer : Reduction L
  consumer : Reduction L
  abstraction : Abstraction L
  inverse : Expr L
  repair : RepairFunction L
  steps : List (Assignment L)

/-- A step of the derivation: its log is that of the canonicalizer's runs. -/
abbrev Deriver (L : Type) := Run Unit (Rewrite L) (FusionRefusal L)

/-- Bind each variable of a list, the last binding of one winning. -/
def bindings (pairs : List (Variable × Expr L)) (name : Variable) : Option (Expr L) :=
  (pairs.reverse.find? fun pair => pair.1 = name).map Prod.snd

section Steps

variable [Literal L]

def substituteAll (expr : Expr L) (pairs : List (Variable × Expr L)) : Expr L :=
  expr.substitute (bindings pairs)

/-- Every subexpression without the producer's value, outermost first. -/
def collectProducerFree (producer : Variable) : Expr L → List (Expr L)
  | .constant value => [.constant value]
  | .var name => if (var name : Expr L).occurrences (.var producer) = 0 then [.var name] else []
  | .unary operator operand =>
    if (unary operator operand).occurrences (.var producer) = 0 then [.unary operator operand]
    else collectProducerFree producer operand
  | .binary operator left right =>
    if (binary operator left right).occurrences (.var producer) = 0 then
      [.binary operator left right]
    else collectProducerFree producer left ++ collectProducerFree producer right

def replaceOnce (target replacement : Expr L) : Expr L → Expr L
  | .constant value => if (constant value).same target then replacement else .constant value
  | .var name => if (var name).same target then replacement else .var name
  | .unary operator operand =>
    if (unary operator operand).same target then replacement
    else .unary operator (replaceOnce target replacement operand)
  | .binary operator left right =>
    if (binary operator left right).same target then replacement
    else .binary operator (replaceOnce target replacement left) (replaceOnce target replacement right)

/-- Read an element function as a function of the producer's value, and name its parameter. -/
def abstractElementFunction (elementFunction : Expr L) (producer : Variable) :
    Except (FusionRefusal L) (Abstraction L) :=
  if elementFunction.occurrences (.var producer) = 0 then .error (.producerValueAbsent elementFunction)
  else
    match (collectProducerFree producer elementFunction).head? with
    | none => .error (.producerValueAbsent elementFunction)
    | some source =>
      let repeats := elementFunction.occurrences source
      if repeats ≠ 1 then .error (.notInvertible source (.multipleOccurrences repeats))
      else .ok { source, template := replaceOnce source (.var .PARAMETER) elementFunction }

/-- The substitution that makes `node` evaluate to `rhs`. -/
def walk (parameter : Expr L) : Expr L → Expr L → Except (InvertRefusal L) (Expr L)
  | .constant value, rhs =>
    if (constant value).same parameter then .ok rhs else .error (.missingParameter parameter)
  | .var name, rhs =>
    if (var name).same parameter then .ok rhs else .error (.missingParameter parameter)
  | .unary operator operand, rhs =>
    if (unary operator operand).same parameter then .ok rhs
    else
      match operator.inverse with
      | none => .error (.ambiguousOperator operator)
      | some inverse => walk parameter operand (.unary inverse rhs)
  | .binary operator left right, rhs =>
    if (binary operator left right).same parameter then .ok rhs
    else
      let leftHolds := decide (0 < left.occurrences parameter)
      match operator with
      | .add =>
        -- What is taken away is the side that holds the parameter.
        let solution := binary .sub rhs (if leftHolds then left else right)
        if leftHolds then walk parameter left solution else walk parameter right solution
      | .sub =>
        if leftHolds then walk parameter left (.binary .add rhs right)
        else walk parameter right (.binary .sub left rhs)
      | .mul =>
        if leftHolds then walk parameter left (.binary .div rhs right)
        else walk parameter right (.binary .div rhs left)
      | .div =>
        if leftHolds then walk parameter left (.binary .mul rhs right)
        else walk parameter right (.binary .div left rhs)
      | other => .error (.unsupportedOperator other)

/-- Solve `expr` for `parameter`, in terms of `argument`. -/
def invert (expr parameter : Expr L) (argument : Variable) : Except (InvertRefusal L) (Expr L) :=
  match expr.occurrences parameter with
  | 0 => .error (.missingParameter parameter)
  | 1 => walk parameter expr (.var argument)
  | count => .error (.multipleOccurrences count)

/-- The canonical form, by a recursion of the canonicalizer at most `fuel` deep. -/
def canonicalize (fuel : Nat) (expr : Expr L) : Deriver L (Expr L) := fun _ =>
  let normalized := normalize fuel expr
  { answer := match normalized.answer with
      | .ok canonical => .ok canonical
      | .error .overBudget => .error (.normalizationBudgetExceeded NORMALIZATION_BUDGET)
      | .error .unfinished => .error .unfinished
    state := ()
    log := normalized.log }

/-- The repair function as written, checked to read only the three slots it is written over. -/
def RepairFunction.new (fuel : Nat) (body : Expr L) : Deriver L (RepairFunction L) :=
  let outside := body.freeVariables.filter fun name =>
    name ∉ [Variable.REPAIR_ARGUMENT, .PRODUCER, .PRODUCER_NEXT]
  if outside = [] then do
    let body ← canonicalize fuel body
    pure { body }
  else Run.stop (.repairFunctionOutsideItsSlots outside)

/-- The repair function applied to one value between two producer values. -/
def RepairFunction.apply (repair : RepairFunction L) (value previous next : Expr L) : Expr L :=
  substituteAll repair.body
    [(.REPAIR_ARGUMENT, value), (.PRODUCER, previous), (.PRODUCER_NEXT, next)]

/-- The distributivity check's second argument. -/
def SECOND_REPAIR_ARGUMENT : Variable := ⟨['y']⟩

/-- The two sides of the distributivity equation. -/
def distributivitySides (repair : RepairFunction L) (combine : BinaryOp) : Expr L × Expr L :=
  let left : Expr L := .var .REPAIR_ARGUMENT
  let right : Expr L := .var SECOND_REPAIR_ARGUMENT
  let repaired (value : Expr L) := repair.apply value (.var .PRODUCER) (.var .PRODUCER_NEXT)
  (repaired (.binary combine left right), .binary combine (repaired left) (repaired right))

/-- Check that the repair function distributes over the consumer's combine. -/
def distributivity (fuel : Nat) (repair : RepairFunction L) (combine : BinaryOp) : Deriver L Unit := do
  let combined ← canonicalize fuel (distributivitySides repair combine).1
  let apart ← canonicalize fuel (distributivitySides repair combine).2
  if combined.same apart then pure () else Run.stop (.notDistributive repair.body combine)

/-- The loop body, canonicalized. -/
def emit (fuel : Nat) (producer consumer : Reduction L) (repair : RepairFunction L)
    (elementFunction : Expr L) : Deriver L (List (Assignment L)) := do
  distributivity fuel repair consumer.combine
  let elementAtNext := substituteAll elementFunction [(.PRODUCER, .var .PRODUCER_NEXT)]
  let first ← canonicalize fuel (.binary producer.combine (.var .PRODUCER) (.var .DATUM))
  let second ← canonicalize fuel (.binary consumer.combine
    (repair.apply (.var .CONSUMER_STATE) (.var .PRODUCER) (.var .PRODUCER_NEXT)) elementAtNext)
  pure [{ target := .PRODUCER_NEXT, value := first }, { target := .CONSUMER_NEXT, value := second }]

def ofExcept {A : Type} : Except (FusionRefusal L) A → Deriver L A
  | .ok a => pure a
  | .error refusal => Run.stop refusal

/-- The repair function before it is canonicalized: the inverse, at the producer's next value. -/
def repairBody (abstraction : Abstraction L) (inverse : Expr L) : Expr L :=
  substituteAll abstraction.template [(.PARAMETER, inverse), (.PRODUCER, .var .PRODUCER_NEXT)]

/-- Derive the fused rolling update for one producer and one consumer reduction. -/
def derive (fuel : Nat) (producer : Reduction L) (elementFunction : Expr L)
    (consumer : Reduction L) : Deriver L (FusedReduction L) := do
  let abstraction ← ofExcept (abstractElementFunction elementFunction .PRODUCER)
  let inverse ← ofExcept
    ((invert abstraction.template (.var .PARAMETER) .REPAIR_ARGUMENT).mapError fun cause =>
      .notInvertible abstraction.template cause)
  let repair ← RepairFunction.new fuel (repairBody abstraction inverse)
  let steps ← emit fuel producer consumer repair elementFunction
  pure { producer, consumer, abstraction, inverse, repair, steps }

end Steps

end LichenVm.Fusion
