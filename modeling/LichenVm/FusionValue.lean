import LichenVm.FusionExpr
import Mathlib.Algebra.BigOperators.Group.List.Basic
import Mathlib.Algebra.Order.Field.Basic

/-! The value of a scalar expression over an ordered field, and of a list folded in any order. -/

open List Option

namespace LichenVm.Fusion

/-- What lists fold to under an associative and commutative operation, whatever their order. -/
structure BagFold {K : Type} (combine : K → K → K) (folds : List K → K → Prop) : Prop where
  perm : ∀ {values values' : List K} {v : K}, values.Perm values' → folds values v → folds values' v
  single : ∀ {value v : K}, folds [value] v ↔ v = value
  merge : ∀ {a b v : K} {values : List K},
    folds (a :: b :: values) v ↔ folds (combine a b :: values) v

namespace BagFold

variable {K : Type} {combine : K → K → K} {folds : List K → K → Prop}

section

variable (bag : BagFold combine folds)

include bag

/-- The first value is combined with what the others fold to. -/
theorem cons_iff {a b v : K} {values : List K} :
    folds (a :: b :: values) v ↔ ∃ w, folds (b :: values) w ∧ v = combine a w := by
  induction values generalizing b with
  | nil =>
    rw [bag.merge, bag.single]
    constructor
    · intro same
      exact ⟨b, bag.single.2 rfl, same⟩
    · rintro ⟨w, holds, same⟩
      rw [same, bag.single.1 holds]
  | cons c values ih =>
    have moved : (a :: b :: c :: values).Perm (b :: c :: a :: values) :=
      (List.Perm.swap b a _).trans ((List.Perm.swap c a _).cons b)
    have regroup : folds (a :: b :: c :: values) v ↔ folds (a :: combine b c :: values) v := by
      constructor
      · intro holds
        exact bag.perm (List.Perm.swap _ _ _) (bag.merge.1 (bag.perm moved holds))
      · intro holds
        exact bag.perm moved.symm (bag.merge.2 (bag.perm (List.Perm.swap _ _ _) holds))
    rw [regroup, ih]
    constructor
    · rintro ⟨w, holds, same⟩
      exact ⟨w, bag.merge.2 holds, same⟩
    · rintro ⟨w, holds, same⟩
      exact ⟨w, bag.merge.1 holds, same⟩

theorem cons {a v : K} {values : List K} (some : values ≠ []) (holds : folds values v) :
    folds (a :: values) (combine a v) := by
  cases values with
  | nil => exact absurd rfl some
  | cons b values => exact bag.cons_iff.2 ⟨v, holds, rfl⟩

theorem assoc (a b c : K) : combine (combine a b) c = combine a (combine b c) := by
  have folded : folds [a, b, c] (combine (combine a b) c) :=
    bag.merge.2 (bag.merge.2 (bag.single.2 rfl))
  obtain ⟨w, holds, same⟩ := bag.cons_iff.1 folded
  rw [same, bag.single.1 (bag.merge.1 holds)]

theorem append {values values' : List K} {v w : K} (some : values ≠ []) (some' : values' ≠ [])
    (holds : folds values v) (holds' : folds values' w) :
    folds (values ++ values') (combine v w) := by
  induction values generalizing v with
  | nil => exact absurd rfl some
  | cons a values ih =>
    cases values with
    | nil =>
      rw [bag.single.1 holds]
      exact bag.cons some' holds'
    | cons b values =>
      obtain ⟨rest, below, rfl⟩ := bag.cons_iff.1 holds
      rw [bag.assoc]
      exact bag.cons (cons_ne_nil _ _) (ih (cons_ne_nil _ _) below)

end

end BagFold

section Semantics

variable {L K : Type} [Literal L] [Field K] [LinearOrder K]

/-- How literals are read in an ordered field, and what the field's own functions are. -/
structure Scalars (L K : Type) [Literal L] [Field K] where
  read : L → Option K
  exp : K → Option K
  ln : K → Option K
  sqrt : K → Option K
  sin : K → Option K
  cos : K → Option K
  zero : read Literal.zero = some 0
  one : read Literal.one = some 1
  isZero : ∀ literal v, Literal.eq literal Literal.zero = true → read literal = some v → v = 0
  isOne : ∀ literal v, Literal.eq literal Literal.one = true → read literal = some v → v = 1
  totalCmp_eq : ∀ left right : L, Literal.totalCmp left right = .eq → left = right
  exp_add : ∀ a b v, exp (a + b) = some v → ∃ x y, exp a = some x ∧ exp b = some y ∧ v = x * y
  ln_exp : ∀ a v, exp a = some v → ln v = some a
  exp_ln : ∀ a v, ln a = some v → exp v = some a

namespace Scalars

variable (S : Scalars L K)

def unary : UnaryOp → K → Option K
  | .neg, a => some (-a)
  | .exp, a => S.exp a
  | .ln, a => S.ln a
  | .sqrt, a => S.sqrt a
  | .sin, a => S.sin a
  | .cos, a => S.cos a
  | .square, a => some (a * a)
  | .relu, a => some (max a 0)

/-- A comparison yields one or zero. -/
def truth (holds : Prop) [Decidable holds] : K := if holds then 1 else 0

def binary : BinaryOp → K → K → Option K
  | .add, a, b => some (a + b)
  | .sub, a, b => some (a - b)
  | .mul, a, b => some (a * b)
  | .div, a, b => if b = 0 then none else some (a / b)
  | .max, a, b => some (max a b)
  | .min, a, b => some (min a b)
  | .lessThan, a, b => some (truth (a < b))
  | .greaterThan, a, b => some (truth (b < a))
  | .lessEqual, a, b => some (truth (a ≤ b))
  | .greaterEqual, a, b => some (truth (b ≤ a))
  | .equal, a, b => some (truth (a = b))
  | .notEqual, a, b => some (truth (a ≠ b))

/-- The value of an expression: none where a division, a logarithm or a root is outside its domain. -/
def value (at_ : Variable → K) : Expr L → Option K
  | .constant literal => S.read literal
  | .var name => some (at_ name)
  | .unary operator operand => (value at_ operand).bind (S.unary operator)
  | .binary operator left right =>
    (value at_ left).bind fun a => (value at_ right).bind fun b => binary operator a b

theorem value_binary {S : Scalars L K} {at_ : Variable → K} {operator : BinaryOp}
    {left right : Expr L} {v : K}
    (worth : S.value at_ (.binary operator left right) = some v) :
    ∃ a b, S.value at_ left = some a ∧ S.value at_ right = some b ∧ binary operator a b = some v := by
  obtain ⟨a, first, rest⟩ := bind_eq_some_iff.1 worth
  obtain ⟨b, second, applies⟩ := bind_eq_some_iff.1 rest
  exact ⟨a, b, first, second, applies⟩

/-- What a list of values folds to under an associative operator. -/
def Folds : BinaryOp → List K → K → Prop
  | .add, values, v => values.sum = v
  | .mul, values, v => values.prod = v
  | .max, values, v => v ∈ values ∧ ∀ w ∈ values, w ≤ v
  | .min, values, v => v ∈ values ∧ ∀ w ∈ values, v ≤ w
  | _, _, _ => False

/-- An operator whose lists fold in any order, by one operation. -/
structure Combines (operator : BinaryOp) (combine : K → K → K) : Prop where
  bag : BagFold combine (Folds operator)
  binary : ∀ a b, Scalars.binary operator a b = some (combine a b)

theorem combines_add [IsStrictOrderedRing K] : Combines .add (fun a b : K => a + b) := by
  refine ⟨⟨fun moved holds => ?_, ?_, ?_⟩, fun _ _ => rfl⟩
  · exact moved.sum_eq.symm.trans holds
  · intro value v
    simp [Folds, eq_comm]
  · intro a b v values
    simp [Folds, add_assoc]

theorem combines_mul [IsStrictOrderedRing K] : Combines .mul (fun a b : K => a * b) := by
  refine ⟨⟨fun moved holds => ?_, ?_, ?_⟩, fun _ _ => rfl⟩
  · exact moved.prod_eq.symm.trans holds
  · intro value v
    simp [Folds, eq_comm]
  · intro a b v values
    simp [Folds, mul_assoc]

theorem combines_max : Combines .max (fun a b : K => max a b) := by
  refine ⟨⟨fun moved holds => ⟨moved.mem_iff.1 holds.1, fun w member =>
    holds.2 w (moved.mem_iff.2 member)⟩, ?_, ?_⟩, fun _ _ => rfl⟩
  · intro value v
    simp only [Folds, mem_singleton, forall_eq]
    exact ⟨fun holds => holds.1, fun same => ⟨same, same.ge⟩⟩
  · intro a b v values
    simp only [Folds, mem_cons, forall_eq_or_imp, max_le_iff]
    constructor
    · rintro ⟨member, below, below', rest⟩
      refine ⟨?_, ⟨below, below'⟩, rest⟩
      rcases member with rfl | rfl | member
      · exact .inl (max_eq_left below').symm
      · exact .inl (max_eq_right below).symm
      · exact .inr member
    · rintro ⟨member, ⟨below, below'⟩, rest⟩
      refine ⟨?_, below, below', rest⟩
      rcases member with same | member
      · rcases max_choice a b with left | right
        · exact .inl (same.trans left)
        · exact .inr (.inl (same.trans right))
      · exact .inr (.inr member)

theorem combines_min : Combines .min (fun a b : K => min a b) := by
  refine ⟨⟨fun moved holds => ⟨moved.mem_iff.1 holds.1, fun w member =>
    holds.2 w (moved.mem_iff.2 member)⟩, ?_, ?_⟩, fun _ _ => rfl⟩
  · intro value v
    simp only [Folds, mem_singleton, forall_eq]
    exact ⟨fun holds => holds.1, fun same => ⟨same, same.le⟩⟩
  · intro a b v values
    simp only [Folds, mem_cons, forall_eq_or_imp, le_min_iff]
    constructor
    · rintro ⟨member, above, above', rest⟩
      refine ⟨?_, ⟨above, above'⟩, rest⟩
      rcases member with rfl | rfl | member
      · exact .inl (min_eq_left above').symm
      · exact .inl (min_eq_right above).symm
      · exact .inr member
    · rintro ⟨member, ⟨above, above'⟩, rest⟩
      refine ⟨?_, above, above', rest⟩
      rcases member with same | member
      · rcases min_choice a b with left | right
        · exact .inl (same.trans left)
        · exact .inr (.inl (same.trans right))
      · exact .inr (.inr member)

variable (at_ : Variable → K)

def amount (term : Expr L) : K := (S.value at_ term).getD 0

def FoldsTo (operator : BinaryOp) (terms : List (Expr L)) (v : K) : Prop :=
  (∀ term ∈ terms, ∃ a, S.value at_ term = some a) ∧ Folds operator (terms.map (S.amount at_)) v

section Lists

variable {S at_} {operator : BinaryOp} {combine : K → K → K} {terms terms' : List (Expr L)} {v : K}

theorem amount_of_value {term : Expr L} {a : K} (has : S.value at_ term = some a) :
    S.amount at_ term = a := by
  rw [amount, has, getD_some]

section

variable (combines : Combines operator combine)

include combines

theorem FoldsTo.perm (moved : terms.Perm terms') (holds : S.FoldsTo at_ operator terms v) :
    S.FoldsTo at_ operator terms' v :=
  ⟨fun term member => holds.1 term (moved.mem_iff.2 member),
    combines.bag.perm (moved.map _) holds.2⟩

theorem foldsTo_single {term : Expr L} :
    S.FoldsTo at_ operator [term] v ↔ S.value at_ term = some v := by
  simp only [FoldsTo, mem_singleton, forall_eq, map_cons, map_nil]
  rw [combines.bag.single]
  constructor
  · rintro ⟨⟨a, has⟩, same⟩
    rw [has, same, amount_of_value has]
  · intro has
    exact ⟨⟨v, has⟩, (amount_of_value has).symm⟩

theorem foldsTo_node {left right : Expr L} :
    S.FoldsTo at_ operator (.binary operator left right :: terms) v ↔
      S.FoldsTo at_ operator (left :: right :: terms) v := by
  simp only [FoldsTo, forall_mem_cons, map_cons]
  constructor
  · rintro ⟨⟨⟨c, has⟩, rest⟩, holds⟩
    obtain ⟨a, left', has⟩ := bind_eq_some_iff.1 has
    obtain ⟨b, right', has⟩ := bind_eq_some_iff.1 has
    have node : S.value at_ (.binary operator left right) = some (combine a b) := by
      simp only [value, left', right', bind_some, combines.binary]
    refine ⟨⟨⟨a, left'⟩, ⟨b, right'⟩, rest⟩, ?_⟩
    rw [amount_of_value left', amount_of_value right', combines.bag.merge, ← amount_of_value node]
    exact holds
  · rintro ⟨⟨⟨a, left'⟩, ⟨b, right'⟩, rest⟩, holds⟩
    have node : S.value at_ (.binary operator left right) = some (combine a b) := by
      simp only [value, left', right', bind_some, combines.binary]
    refine ⟨⟨⟨_, node⟩, rest⟩, ?_⟩
    rw [amount_of_value left', amount_of_value right', combines.bag.merge] at holds
    rw [amount_of_value node]
    exact holds

end

theorem FoldsTo.replace {term term' : Expr L}
    (keeps : ∀ a, S.value at_ term = some a → S.value at_ term' = some a)
    (holds : S.FoldsTo at_ operator (term :: terms) v) :
    S.FoldsTo at_ operator (term' :: terms) v := by
  obtain ⟨has, folds⟩ := holds
  obtain ⟨a, first⟩ := has term mem_cons_self
  refine ⟨fun other member => ?_, ?_⟩
  · rcases mem_cons.1 member with rfl | rest
    · exact ⟨a, keeps a first⟩
    · exact has other (mem_cons_of_mem _ rest)
  · rw [map_cons, amount_of_value (keeps a first), ← amount_of_value first, ← map_cons]
    exact folds

theorem foldsTo_cons (combines : Combines operator combine) {term : Expr L} (some : terms ≠ [])
    (holds : S.FoldsTo at_ operator (term :: terms) v) :
    ∃ a w, S.value at_ term = Option.some a ∧ S.FoldsTo at_ operator terms w ∧ v = combine a w := by
  cases terms with
  | nil => exact absurd rfl some
  | cons next rest =>
    obtain ⟨a, first⟩ := holds.1 term mem_cons_self
    obtain ⟨w, folds, same⟩ := combines.bag.cons_iff.1 holds.2
    exact ⟨a, w, first, ⟨fun other member => holds.1 other (mem_cons_of_mem _ member), folds⟩,
      by rw [same, amount_of_value first]⟩

end Lists

end Scalars

end Semantics

end LichenVm.Fusion
