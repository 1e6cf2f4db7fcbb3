import Mathlib.Algebra.Order.Ring.Nat
import Mathlib.Data.List.Dedup
import Mathlib.Data.List.Sort

/-! The symbolic scalar language of the fusion engine. -/

namespace LichenVm.Fusion

inductive BinaryOp where
  | add
  | sub
  | mul
  | div
  | max
  | min
  | lessThan
  | greaterThan
  | lessEqual
  | greaterEqual
  | equal
  | notEqual
  deriving DecidableEq, Ord

inductive UnaryOp where
  | neg
  | exp
  | ln
  | sqrt
  | sin
  | cos
  | square
  | relu
  deriving DecidableEq, Ord

/-- The order relation that reads the other way round. -/
def BinaryOp.mirrored : BinaryOp → BinaryOp
  | .lessThan => .greaterThan
  | .greaterThan => .lessThan
  | .lessEqual => .greaterEqual
  | .greaterEqual => .lessEqual
  | other => other

/-- The operator read as an inverse, where there is one. -/
def UnaryOp.inverse : UnaryOp → Option UnaryOp
  | .neg => some .neg
  | .exp => some .ln
  | .ln => some .exp
  | .sqrt | .sin | .cos | .square | .relu => none

/-- A named free value. -/
structure Variable where
  name : List Char
  deriving DecidableEq

namespace Variable

def DATUM : Variable := ⟨['d']⟩
/-- The producer reduction's value. -/
def PRODUCER : Variable := ⟨['r']⟩
/-- The consumer reduction's rolling state. -/
def CONSUMER_STATE : Variable := ⟨['t']⟩
def REPAIR_ARGUMENT : Variable := ⟨['x']⟩
/-- The producer's value after the step. -/
def PRODUCER_NEXT : Variable := ⟨['r', '\'']⟩
/-- The consumer's state after the step. -/
def CONSUMER_NEXT : Variable := ⟨['t', '\'']⟩
/-- The abstracted element parameter. -/
def PARAMETER : Variable := ⟨['c']⟩

def cmp (left right : Variable) : Ordering := compareOfLessAndEq left.name right.name

end Variable

/-- The literals of the language, with the arithmetic of an `f64`. -/
class Literal (L : Type) where
  zero : L
  one : L
  infinity : L
  negInfinity : L
  neg : L → L
  add : L → L → L
  mul : L → L → L
  div : L → L → L
  max : L → L → L
  min : L → L → L
  exp : L → L
  ln : L → L
  sqrt : L → L
  sin : L → L
  cos : L → L
  lt : L → L → Bool
  le : L → L → Bool
  eq : L → L → Bool
  isFinite : L → Bool
  isNan : L → Bool
  isSignPositive : L → Bool
  totalCmp : L → L → Ordering

/-- A scalar expression. -/
inductive Expr (L : Type) where
  | constant (value : L)
  | var (name : Variable)
  | binary (operator : BinaryOp) (left right : Expr L)
  | unary (operator : UnaryOp) (operand : Expr L)
  deriving DecidableEq

namespace Expr

variable {L : Type}

def asConstant : Expr L → Option L
  | constant value => some value
  | _ => none

/-- The operator at the root of a binary node. -/
def operator? : Expr L → Option BinaryOp
  | binary operator _ _ => some operator
  | _ => none

def rank : Expr L → Nat
  | constant _ => 0
  | var _ => 1
  | unary _ _ => 2
  | binary _ _ _ => 3

variable [Literal L]

/-- Whether an expression is a literal equal to `value`. -/
def isLiteral (value : L) (expr : Expr L) : Bool :=
  expr.asConstant.any fun literal => Literal.eq literal value

/-- A total order over the shape. -/
def cmp : Expr L → Expr L → Ordering
  | constant left, constant right => Literal.totalCmp left right
  | var left, var right => left.cmp right
  | unary operator left, unary operator' right => (compare operator operator').then (left.cmp right)
  | binary operator left right, binary operator' left' right' =>
    ((compare operator operator').then (left.cmp left')).then (right.cmp right')
  | left, right => compare left.rank right.rank

/-- Structural equality, with literals compared by their total order. -/
def same (left right : Expr L) : Bool := left.cmp right == .eq

/-- How many times a target occurs. -/
def occurrences : Expr L → Expr L → Nat
  | constant value, target => (same (constant value) target).toNat
  | var name, target => (same (var name) target).toNat
  | unary operator operand, target =>
    (same (unary operator operand) target).toNat + operand.occurrences target
  | binary operator left right, target =>
    (same (binary operator left right) target).toNat + left.occurrences target +
      right.occurrences target

omit [Literal L] in
def collectVariables : Expr L → List Variable
  | constant _ => []
  | var name => [name]
  | unary _ operand => operand.collectVariables
  | binary _ left right => left.collectVariables ++ right.collectVariables

omit [Literal L] in
/-- The free variables that are read, each once, in name order. -/
def freeVariables (expr : Expr L) : List Variable :=
  expr.collectVariables.dedup.insertionSort fun left right => left.cmp right ≠ .gt

/-- The expression with every bound variable replaced, at once. -/
def substitute (bindings : Variable → Option (Expr L)) : Expr L → Expr L
  | constant value => constant value
  | var name => (bindings name).getD (var name)
  | unary operator operand => unary operator (operand.substitute bindings)
  | binary operator left right =>
    binary operator (left.substitute bindings) (right.substitute bindings)

/-- Stable, by the total order. -/
def sort (exprs : List (Expr L)) : List (Expr L) :=
  exprs.insertionSort fun left right => left.cmp right ≠ .gt

end Expr

end LichenVm.Fusion
