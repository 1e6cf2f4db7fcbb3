import LichenVm.FusionDerive

/-! Where an inversion solves its equation. -/

open List Option

namespace LichenVm.Fusion

open Scalars

variable {L K : Type} [Literal L] [Field K] [LinearOrder K]

/-- No sum of the expression holds the variable. -/
def SumFree (parameter : Variable) : Expr L → Prop
  | .constant _ => True
  | .var _ => True
  | .unary _ operand => SumFree parameter operand
  | .binary operator left right =>
    (operator = .add → parameter ∉ left.collectVariables ∧ parameter ∉ right.collectVariables) ∧
    SumFree parameter left ∧ SumFree parameter right

/-- A solution does not mention its parameter, and the expression solved has the argument's value
wherever it has one. -/
def Solved (S : Scalars L K) (expr : Expr L) (parameter argument : Variable) (solution : Expr L) : Prop :=
  parameter ∉ solution.collectVariables ∧
    ∀ at_ v, S.value at_ (substituteAll expr [(parameter, solution)]) = some v → v = at_ argument

section Substitution

omit [Literal L]

theorem bindings_self (name : Variable) (bound : Expr L) : bindings [(name, bound)] name = some bound := by
  simp [bindings]

theorem bindings_other {name other : Variable} (apart : name ≠ other) (bound : Expr L) :
    bindings [(name, bound)] other = none := by
  simp [bindings, apart]

theorem substitute_free {expr bound : Expr L} {name : Variable} (free : name ∉ expr.collectVariables) :
    expr.substitute (bindings [(name, bound)]) = expr := by
  induction expr with
  | constant literal => rfl
  | var other =>
    have apart : name ≠ other := fun same => free (same ▸ mem_cons_self)
    rw [Expr.substitute, bindings_other apart]
    rfl
  | unary operator operand ih => rw [Expr.substitute, ih free]
  | binary operator left right ih ih' =>
    simp only [Expr.collectVariables, mem_append, not_or] at free
    rw [Expr.substitute, ih free.1, ih' free.2]

theorem sumFree_of_free {expr : Expr L} {name : Variable} (free : name ∉ expr.collectVariables) :
    SumFree name expr := by
  induction expr with
  | constant literal => trivial
  | var other => trivial
  | unary operator operand ih => exact ih free
  | binary operator left right ih ih' =>
    simp only [Expr.collectVariables, mem_append, not_or] at free
    exact ⟨fun _ => free, ih free.1, ih' free.2⟩

end Substitution

section Walks

variable {S : Scalars L K} {at_ : Variable → K} {parameter : Variable} {node rhs solution : Expr L}

theorem divides {a b v : K} (applies : Scalars.binary .div a b = some v) : b ≠ 0 ∧ v = a / b := by
  rw [binary] at applies
  by_cases zero : b = 0
  · rw [if_pos zero] at applies
    cases applies
  · rw [if_neg zero] at applies
    exact ⟨zero, (some.inj applies).symm⟩

section

variable (walks : Walks parameter node rhs solution)

include walks

/-- Where the node solved has a value, it is the right-hand side's. -/
theorem Walks.value_solved (free : parameter ∉ solution.collectVariables) {v : K}
    (worth : S.value at_ (substituteAll node [(parameter, solution)]) = some v) :
    S.value at_ rhs = some v := by
  induction walks generalizing v with
  | here rhs =>
    rw [substituteAll, Expr.substitute, bindings_self] at worth
    exact worth
  | @unary operator inverse operand rhs solution inverts below ih =>
    obtain ⟨c, first, applies⟩ := bind_eq_some_iff.1 worth
    obtain ⟨r, known, undone⟩ := bind_eq_some_iff.1 (ih free first)
    rw [known]
    cases operator with
    | neg =>
      cases inverts
      cases undone
      rw [← some.inj applies, neg_neg]
    | exp =>
      cases inverts
      exact (S.exp_ln r c undone).symm.trans applies
    | ln =>
      cases inverts
      exact (S.ln_exp r c undone).symm.trans applies
    | _ => cases inverts
  | addLeft below ih | addRight below ih =>
    exact absurd (below.reads _ (mem_append_right _ below.names)) free
  | @subLeft left right rhs solution below ih =>
    obtain ⟨c, d, first, second, applies⟩ := value_binary worth
    obtain ⟨r, d', known, second', added⟩ := value_binary (ih free first)
    have other : parameter ∉ right.collectVariables :=
      fun member => free (below.reads _ (mem_append_right _ member))
    rw [substitute_free other, second'] at second
    cases second
    cases added
    rw [known, ← some.inj applies, add_sub_cancel_right]
  | @subRight left right rhs solution below ih =>
    obtain ⟨c, d, first, second, applies⟩ := value_binary worth
    obtain ⟨c', r, first', known, removed⟩ := value_binary (ih free second)
    have other : parameter ∉ left.collectVariables :=
      fun member => free (below.reads _ (mem_append_left _ member))
    rw [substitute_free other, first'] at first
    cases first
    cases removed
    rw [known, ← some.inj applies, sub_sub_cancel]
  | @mulLeft left right rhs solution below ih =>
    obtain ⟨c, d, first, second, applies⟩ := value_binary worth
    obtain ⟨r, d', known, second', quotient⟩ := value_binary (ih free first)
    have other : parameter ∉ right.collectVariables :=
      fun member => free (below.reads _ (mem_append_right _ member))
    rw [substitute_free other, second'] at second
    cases second
    obtain ⟨nonzero, rfl⟩ := divides quotient
    rw [known, ← some.inj applies, div_mul_cancel₀ r nonzero]
  | @mulRight left right rhs solution below ih =>
    obtain ⟨c, d, first, second, applies⟩ := value_binary worth
    obtain ⟨r, c', known, first', quotient⟩ := value_binary (ih free second)
    have other : parameter ∉ left.collectVariables :=
      fun member => free (below.reads _ (mem_append_right _ member))
    rw [substitute_free other, first'] at first
    cases first
    obtain ⟨nonzero, rfl⟩ := divides quotient
    rw [known, ← some.inj applies, mul_div_cancel₀ r nonzero]
  | @divLeft left right rhs solution below ih =>
    obtain ⟨c, d, first, second, applies⟩ := value_binary worth
    obtain ⟨nonzero, rfl⟩ := divides applies
    obtain ⟨r, d', known, second', scaled⟩ := value_binary (ih free first)
    have other : parameter ∉ right.collectVariables :=
      fun member => free (below.reads _ (mem_append_right _ member))
    rw [substitute_free other, second'] at second
    cases second
    rw [known, ← some.inj scaled, mul_div_cancel_right₀ r nonzero]
  | @divRight left right rhs solution below ih =>
    obtain ⟨c, d, first, second, applies⟩ := value_binary worth
    obtain ⟨nonzero, rfl⟩ := divides applies
    obtain ⟨c', r, first', known, quotient⟩ := value_binary (ih free second)
    have other : parameter ∉ left.collectVariables :=
      fun member => free (below.reads _ (mem_append_left _ member))
    rw [substitute_free other, first'] at first
    obtain rfl := some.inj first
    obtain ⟨some_, rfl⟩ := divides quotient
    have top : c' ≠ 0 := fun zero => nonzero (by rw [zero, zero_div])
    rw [known, div_div_cancel₀ top]

/-- The parameter stays out of the solution on a way without sums, if nothing else reads it. -/
theorem Walks.free_of_sumFree (once : node.occurrences (.var parameter) = 1)
    (apart : parameter ∉ rhs.collectVariables) (sums : SumFree parameter node) :
    parameter ∉ solution.collectVariables := by
  -- The one occurrence is below, so the side beside the way does not read the parameter.
  have beside : ∀ {side other rhs' : Expr L}, Walks parameter side rhs' solution →
      side.occurrences (.var parameter) + other.occurrences (.var parameter) ≤ 1 →
      side.occurrences (.var parameter) = 1 ∧ parameter ∉ other.collectVariables := by
    intro side other rhs' below bound
    have holds : side.occurrences (.var parameter) ≠ 0 :=
      fun absent => not_mem_of_occurrences absent below.names
    exact ⟨by omega, not_mem_of_occurrences (by omega)⟩
  have within : ∀ {operator : BinaryOp} {left right : Expr L},
      (Expr.binary operator left right).occurrences (.var parameter) = 1 →
      left.occurrences (.var parameter) + right.occurrences (.var parameter) ≤ 1 := by
    intro operator left right once
    rw [Expr.occurrences] at once
    omega
  have joined : ∀ {operator : BinaryOp} {left right : Expr L}, parameter ∉ left.collectVariables →
      parameter ∉ right.collectVariables →
      parameter ∉ (Expr.binary operator left right).collectVariables :=
    fun first second member => (mem_append.1 member).elim first second
  induction walks with
  | here rhs => exact apart
  | unary inverts below ih =>
    have holds : _ ≠ 0 := fun absent => not_mem_of_occurrences absent below.names
    rw [Expr.occurrences] at once
    exact ih (by omega) apart sums beside
  | addLeft below ih => exact absurd below.names (sums.1 rfl).1
  | addRight below ih => exact absurd below.names (sums.1 rfl).2
  | subLeft below ih | mulLeft below ih | divLeft below ih =>
    obtain ⟨single, other⟩ := beside below (within once)
    exact ih single (joined apart other) sums.2.1 beside
  | subRight below ih | divRight below ih =>
    obtain ⟨single, other⟩ := beside below (Nat.add_comm _ _ ▸ within once)
    exact ih single (joined other apart) sums.2.2 beside
  | mulRight below ih =>
    obtain ⟨single, other⟩ := beside below (Nat.add_comm _ _ ▸ within once)
    exact ih single (joined apart other) sums.2.2 beside

omit [Literal L] in
/-- A solution without the parameter is found on a way without sums. -/
theorem Walks.sumFree (free : parameter ∉ solution.collectVariables) : SumFree parameter node := by
  have plain : ∀ {operator : BinaryOp} {left right : Expr L}, operator ≠ .add →
      SumFree parameter left → SumFree parameter right →
      SumFree parameter (.binary operator left right) :=
    fun other first second => ⟨fun sum => absurd sum other, first, second⟩
  induction walks with
  | here rhs => trivial
  | unary inverts below ih => exact ih free
  | addLeft below ih | addRight below ih =>
    exact absurd (below.reads _ (mem_append_right _ below.names)) free
  | subLeft below ih | mulLeft below ih | divLeft below ih =>
    exact plain (by decide) (ih free)
      (sumFree_of_free fun member => free (below.reads _ (mem_append_right _ member)))
  | subRight below ih | divRight below ih =>
    exact plain (by decide)
      (sumFree_of_free fun member => free (below.reads _ (mem_append_left _ member)))
      (ih free)
  | mulRight below ih =>
    exact plain (by decide)
      (sumFree_of_free fun member => free (below.reads _ (mem_append_right _ member)))
      (ih free)

end

end Walks

section Inverted

/-- An inversion that is answered solves its equation, and keeps the parameter out of its solution,
exactly where no sum holds the parameter. -/
theorem solved_iff_sumFree (S : Scalars L K) {expr solution : Expr L} {parameter argument : Variable}
    (apart : argument ∉ expr.collectVariables)
    (inverts : invert expr (.var parameter) argument = .ok solution) :
    Solved S expr parameter argument solution ↔ SumFree parameter expr := by
  have walks := walks_of_invert S inverts
  have once : expr.occurrences (.var parameter) = 1 := by
    unfold invert at inverts
    split at inverts
    · cases inverts
    · assumption
    · cases inverts
  have other : parameter ∉ (Expr.var argument : Expr L).collectVariables := by
    intro member
    obtain rfl := mem_singleton.1 member
    exact apart walks.names
  constructor
  · intro solved
    exact walks.sumFree solved.1
  · intro sums
    have free := walks.free_of_sumFree once other sums
    refine ⟨free, fun at_ v worth => ?_⟩
    exact (some.inj (walks.value_solved free worth)).symm

/-- A scaled difference is solved. -/
theorem solved_iff_sumFree_scaled :
    Solved rationals (.binary .mul (.constant 2) (.binary .sub (.var ⟨['c']⟩) (.var ⟨['d']⟩)))
      ⟨['c']⟩ ⟨['x']⟩
      (.binary .add (.binary .div (.var ⟨['x']⟩) (.constant 2)) (.var ⟨['d']⟩)) ↔
    SumFree ⟨['c']⟩
      (.binary .mul (.constant 2) (.binary .sub (.var ⟨['c']⟩) (.var ⟨['d']⟩)) : Expr ℚ) :=
  solved_iff_sumFree rationals (by decide) rfl

/-- A sum is solved for the side that holds the parameter by taking that side away. -/
theorem sum_solved_by_itself :
    invert (.binary .add (.var ⟨['c']⟩) (.var ⟨['d']⟩) : Expr ℚ) (.var ⟨['c']⟩) ⟨['x']⟩ =
        .ok (.binary .sub (.var ⟨['x']⟩) (.var ⟨['c']⟩)) ∧
      ¬ Solved rationals (.binary .add (.var ⟨['c']⟩) (.var ⟨['d']⟩)) ⟨['c']⟩ ⟨['x']⟩
        (.binary .sub (.var ⟨['x']⟩) (.var ⟨['c']⟩)) ∧
      rationals.value (fun name => if name = ⟨['d']⟩ then 3 else 1)
        (substituteAll (.binary .add (.var ⟨['c']⟩) (.var ⟨['d']⟩))
          [(⟨['c']⟩, .binary .sub (.var ⟨['x']⟩) (.var ⟨['c']⟩))]) = some 3 := by
  refine ⟨rfl, fun solved => solved.1 (by decide), by decide +kernel⟩

end Inverted

end LichenVm.Fusion
