import LichenVm.FusionRecursion
import LichenVm.FusionRepair
import LichenVm.FusionVariables
import Mathlib.Algebra.Order.Field.Rat

/-! What an accepted repair function distributes over, and the canonicalizer over the rationals. -/

namespace LichenVm.Fusion

open LoggedRun Scalars Scalars

section Substitution

variable {L K : Type} [Literal L] [Field K] [LinearOrder K] {S : Scalars L K}
  {at_ at' : Variable → K}

theorem value_substitute {bound : Variable → Option (Expr L)} {expr : Expr L}
    (binds : ∀ name ∈ expr.collectVariables,
      S.value at_ ((bound name).getD (.var name)) = some (at' name)) :
    S.value at_ (expr.substitute bound) = S.value at' expr := by
  induction expr with
  | constant literal => rfl
  | var name => exact binds name List.mem_cons_self
  | unary operator operand ih =>
    rw [Expr.substitute, value, value, ih binds]
  | binary operator left right ih ih' =>
    obtain ⟨first, second⟩ := List.forall_mem_append.1 binds
    rw [Expr.substitute, value, value, ih first, ih' second]

theorem value_congr {expr : Expr L} (agree : ∀ name ∈ expr.collectVariables, at_ name = at' name) :
    S.value at_ expr = S.value at' expr := by
  induction expr with
  | constant literal => rfl
  | var name => exact congrArg some (agree name List.mem_cons_self)
  | unary operator operand ih => rw [value, value, ih agree]
  | binary operator left right ih ih' =>
    obtain ⟨first, second⟩ := List.forall_mem_append.1 agree
    rw [value, value, ih first, ih' second]

end Substitution

section Repairs

variable {L K : Type} [Literal L] [Field K] [LinearOrder K] (S : Scalars L K)

/-- The slots a repair function is written over. -/
def IsSlot (name : Variable) : Prop :=
  name = .REPAIR_ARGUMENT ∨ name = .PRODUCER ∨ name = .PRODUCER_NEXT

/-- The three slots of a repair function, bound. -/
def slots (x r r' : K) (name : Variable) : K :=
  if name = .REPAIR_ARGUMENT then x else if name = .PRODUCER then r
  else if name = .PRODUCER_NEXT then r' else 0

/-- The repair function of a value between two producer values. -/
def RepairFunction.repaired (repair : RepairFunction L) (r r' x : K) : Option K :=
  S.value (slots x r r') repair.body

variable {S} {at_ : Variable → K}

theorem RepairFunction.apply_value {repair : RepairFunction L} (reads : Over IsSlot repair.body)
    {value previous next : Expr L} {x r r' : K} (first : S.value at_ value = some x)
    (second : S.value at_ previous = some r) (third : S.value at_ next = some r') :
    S.value at_ (repair.apply value previous next) = repair.repaired S r r' x := by
  apply value_substitute
  intro name member
  rcases reads name member with rfl | rfl | rfl
  · exact first
  · exact second
  · exact third

variable [IsStrictOrderedRing K]

theorem canonicalize_meets (S : Scalars L K) (fuel : Nat) (expr : Expr L) :
    Meets (Rewrite.Exact S) (canonicalize fuel expr) ()
      (fun n _ => (∀ at_ v, S.value at_ expr = some v → S.value at_ n = some v) ∧
        ∀ allowed, Over allowed expr → Over allowed n)
      fun _ _ => True := by
  intro exact_
  unfold RunEnd.Ends
  cases ran : (normalize fuel expr).answer with
  | ok n =>
    have answered : (canonicalize fuel expr ()).answer = .ok n := by
      simp only [canonicalize, ran]
    rw [answered]
    exact ⟨fun at_ v worth => normalize_value S at_ ran exact_ worth,
      fun allowed reads => normalize_over ran reads⟩
  | error refusal =>
    have answered : ∃ stop, (canonicalize fuel expr ()).answer = .error stop := by
      cases refusal <;> simp [canonicalize, ran]
    obtain ⟨stop, answered⟩ := answered
    rw [answered]
    trivial

/-- An accepted repair function distributes, wherever both sides have values. -/
theorem distributivity_meets {repair : RepairFunction L} (reads : Over IsSlot repair.body)
    (fuel : Nat) (operator : BinaryOp) :
    Meets (Rewrite.Exact S) (distributivity fuel repair operator) ()
      (fun _ _ => ∀ r r' x y xy a b ab c, binary operator x y = some xy →
        repair.repaired S r r' x = some a → repair.repaired S r r' y = some b →
        binary operator a b = some ab → repair.repaired S r r' xy = some c → c = ab)
      fun _ _ => True := by
  unfold distributivity
  apply meets_bind
  refine Meets.mono (canonicalize_meets S fuel _) (fun combined _ joint => ?_) fun _ _ _ => trivial
  apply meets_bind
  refine Meets.mono (canonicalize_meets S fuel _) (fun apart _ sides => ?_) fun _ _ _ => trivial
  split
  · next same =>
    apply meets_pure
    intro r r' x y xy a b ab c combines first second together whole
    obtain rfl := same_eq S same
    let at_ : Variable → K := fun name =>
      if name = SECOND_REPAIR_ARGUMENT then y else slots x r r' name
    have left : S.value at_ (.var .REPAIR_ARGUMENT) = some x := rfl
    have right : S.value at_ (.var SECOND_REPAIR_ARGUMENT) = some y := rfl
    have previous : S.value at_ (.var .PRODUCER) = some r := rfl
    have next_ : S.value at_ (.var .PRODUCER_NEXT) = some r' := rfl
    have node : S.value at_ (.binary operator (.var .REPAIR_ARGUMENT)
        (.var SECOND_REPAIR_ARGUMENT)) = some xy := by
      exact combines
    have one := joint.1 at_ c (by
      rw [distributivitySides, RepairFunction.apply_value reads node previous next_]
      exact whole)
    have other := sides.1 at_ ab (by
      rw [distributivitySides, value, RepairFunction.apply_value reads left previous next_,
        RepairFunction.apply_value reads right previous next_, first, second]
      exact together)
    exact Option.some.inj (one.symm.trans other)
  · exact meets_stop trivial

end Repairs

section Rationals

variable {L : Type} [Literal L]

/-- An expression of the exact fragment, over literals that are rational. -/
def Expr.Rational (S : Scalars L ℚ) : Expr L → Prop
  | .constant literal => ∃ q, S.read literal = some q
  | .var _ => True
  | .unary operator operand =>
    (operator = .neg ∨ operator = .square ∨ operator = .relu) ∧ operand.Rational S
  | .binary operator left right => operator ≠ .div ∧ left.Rational S ∧ right.Rational S

theorem binary_total {operator : BinaryOp} (total : operator ≠ .div) (a b : ℚ) :
    ∃ c, binary operator a b = some c := by
  cases operator <;> first | exact ⟨_, rfl⟩ | exact absurd rfl total

theorem Expr.Rational.total {S : Scalars L ℚ} {expr : Expr L} (rational : expr.Rational S)
    (at_ : Variable → ℚ) : ∃ v, S.value at_ expr = some v := by
  induction expr with
  | constant literal => exact rational
  | var name => exact ⟨_, rfl⟩
  | unary operator operand ih =>
    obtain ⟨v, worth⟩ := ih rational.2
    rw [value, worth]
    rcases rational.1 with rfl | rfl | rfl <;> exact ⟨_, rfl⟩
  | binary operator left right ih ih' =>
    obtain ⟨a, first⟩ := ih rational.2.1
    obtain ⟨b, second⟩ := ih' rational.2.2
    rw [value, first, second]
    exact binary_total rational.1 a b

end Rationals

section Demo

/-- Rational literals: the arithmetic of the `f64`s that are small integers. -/
instance : Literal ℚ where
  zero := 0
  one := 1
  infinity := 0
  negInfinity := 0
  neg := Neg.neg
  add := (· + ·)
  mul := (· * ·)
  div := (· / ·)
  max := max
  min := min
  exp := fun _ => 0
  ln := fun _ => 0
  sqrt := fun _ => 0
  sin := fun _ => 0
  cos := fun _ => 0
  lt := fun left right => decide (left < right)
  le := fun left right => decide (left ≤ right)
  eq := fun left right => decide (left = right)
  isFinite := fun _ => true
  isNan := fun _ => false
  isSignPositive := fun literal => decide (0 ≤ literal)
  totalCmp := fun left right => compareOfLessAndEq left right

/-- Rational literals read as themselves, with no function but the field's own. -/
def rationals : Scalars ℚ ℚ where
  read := some
  exp := fun _ => none
  ln := fun _ => none
  sqrt := fun _ => none
  sin := fun _ => none
  cos := fun _ => none
  zero := rfl
  one := rfl
  isZero := fun literal v equal same => (Option.some.inj same).symm.trans (of_decide_eq_true equal)
  isOne := fun literal v equal same => (Option.some.inj same).symm.trans (of_decide_eq_true equal)
  totalCmp_eq := by
    intro left right same
    simp only [Literal.totalCmp, compareOfLessAndEq] at same
    split at same
    · cases same
    · split at same
      · next equal => exact equal
      · cases same
  exp_add := fun a b v none => absurd none (by simp)
  ln_exp := fun a v none => absurd none (by simp)
  exp_ln := fun a v none => absurd none (by simp)

/-- A relation loses a literal zero, and two relations of a sum become one. -/
example :
    (normalize 20 (.binary .add (.binary .max (.var ⟨['x']⟩) (.constant 1)) (.constant (-1)) : Expr ℚ)).answer =
        .ok (.binary .add (.constant (-1)) (.var ⟨['x']⟩)) ∧
      (normalize 20 (.binary .add (.binary .max (.var ⟨['x']⟩) (.var ⟨['y']⟩))
        (.binary .max (.var ⟨['x']⟩) (.var ⟨['z']⟩)) : Expr ℚ)).answer =
        .ok (.binary .max (.var ⟨['x']⟩) (.binary .max (.var ⟨['y']⟩)
          (.binary .max (.var ⟨['x']⟩) (.var ⟨['z']⟩)))) := by
  decide +kernel

/-- A cancellation takes out the term before a negation instead of the one after it. -/
example : (normalize 20 (.binary .sub (.binary .add (.var ⟨['z']⟩) (.unary .relu (.var ⟨['x']⟩)))
      (.unary .relu (.var ⟨['x']⟩)) : Expr ℚ)).answer =
        .ok (.unary .neg (.unary .relu (.var ⟨['x']⟩))) := by
  decide +kernel

end Demo

end LichenVm.Fusion
