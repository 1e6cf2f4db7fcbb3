import LichenVm.FusionExpr
import LichenVm.LoggedRun

/-! The canonicalizer of the fusion engine, with a ghost log of the rewritings it makes. -/

namespace LichenVm.Fusion

open LoggedRun Literal

/-- How many nodes a canonical form may allocate. -/
def NORMALIZATION_BUDGET : Nat := 4096

/-- A rewriting of the canonicalizer that is only right of some operands. -/
inductive Rewrite (L : Type) where
  /-- An operator over literals, replaced by the literal it computes. -/
  | folded (before after : Expr L)
  /-- A product, negated in each of its factors. -/
  | negatedProduct (left right : Expr L)
  /-- The two terms a cancellation took out of a sum. -/
  | cancelled (first second : Expr L)
  /-- How many relations of one sum became one. -/
  | joined (relations : Nat)
  /-- The operands of a relation, before its zeros were dropped. -/
  | dropped (operands : List (Expr L))
  deriving DecidableEq

inductive Refusal where
  | overBudget
  /-- The recursion is deeper than the fuel: no answer of the code. -/
  | unfinished
  deriving DecidableEq

/-- The state is what remains of the budget. -/
abbrev Builder (L : Type) := Run Nat (Rewrite L) Refusal

inductive Relation where
  | max
  | min
  deriving DecidableEq

namespace Relation

def of : BinaryOp → Option Relation
  | .max => some .max
  | .min => some .min
  | _ => none

def operator : Relation → BinaryOp
  | max => .max
  | min => .min

/-- The relation as a negation maps it. -/
def dual : Relation → Relation
  | max => min
  | min => max

end Relation

section Steps

variable {L : Type}

def note (rewrite : Rewrite L) : Builder L Unit := Run.note fun _ => rewrite

def spend : Builder L Unit := fun remaining =>
  match remaining with
  | 0 => ⟨.error .overBudget, 0, []⟩
  | remaining + 1 => ⟨.ok (), remaining, []⟩

/-- The expression under an operator and its inverse. -/
def undone : UnaryOp → Expr L → Option (Expr L)
  | .exp, .unary .ln inner => some inner
  | .ln, .unary .exp inner => some inner
  | .neg, .unary .neg inner => some inner
  | _, _ => none

/-- One flat operand list for an associative operator, over canonical operands. -/
def flatten (operands : List (Expr L)) (operator : BinaryOp) : List (Expr L) :=
  operands.flatMap fun operand =>
    match operand with
    | .binary inner left right => if inner = operator then [left, right] else [operand]
    | _ => [operand]

/-- The operands of a relation and of the same ones directly under it, from left to right. -/
def relationOperands (relation : Relation) : Expr L → List (Expr L)
  | .binary operator left right =>
    if Relation.of operator = some relation then
      relationOperands relation left ++ relationOperands relation right
    else [.binary operator left right]
  | other => [other]

/-- One term seen as a relation, where it is one. -/
def relationParts (term : Expr L) : Option (Relation × List (Expr L)) :=
  term.operator?.bind fun operator => (Relation.of operator).map fun relation =>
    (relation, relationOperands relation term)

/-- One node from a sorted operand list: a chain leaning to the right. -/
def finish (operator : BinaryOp) (empty : L) : List (Expr L) → Builder L (Expr L)
  | [] => pure (.constant empty)
  | [last] => pure last
  | left :: rest => do
    let node ← finish operator empty rest
    spend
    pure (.binary operator left node)

variable [Literal L]

/-- The literal value of an operator over a literal, where the domain allows one. -/
def foldConstant (operator : UnaryOp) (operand : Expr L) : Option L :=
  operand.asConstant.bind fun value =>
    let folded : Option L := match operator with
      | .neg => some (neg value)
      | .exp => some (exp value)
      | .ln => if lt zero value then some (ln value) else none
      | .sqrt => if le zero value then some (sqrt value) else none
      | .square => some (mul value value)
      | .relu => some (max value zero)
      | .sin => some (sin value)
      | .cos => some (cos value)
    folded.filter isFinite

/-- The infinity a quotient of two literals is, when the divisor is zero. -/
def infinityOf (numerator divisor : L) : Option L :=
  if eq numerator zero || isNan numerator then none
  else if isSignPositive numerator = isSignPositive divisor then some infinity
  else some negInfinity

/-- The `1` or `0` a comparison of two literals yields. -/
def compareLiterals (operator : BinaryOp) (left right : L) : L :=
  let holds := match operator with
    | .lessThan => lt left right
    | .greaterThan => lt right left
    | .lessEqual => le left right
    | .greaterEqual => le right left
    | .equal => eq left right
    | _ => !eq left right
  if holds then one else zero

/-- The operand order a comparison is written in, with the operator to match it. -/
def canonicalComparison (operator : BinaryOp) (left right : Expr L) : BinaryOp × Expr L × Expr L :=
  if left.cmp right = .gt then (operator.mirrored, right, left) else (operator, left, right)

/-- Gather the literals of a list into one. -/
def gatherConstants (operator : BinaryOp) (combine : L → L → L) :
    Option L → List (Expr L) → Builder L (Option L × List (Expr L))
  | accumulated, [] => pure (accumulated, [])
  | none, .constant value :: terms => gatherConstants operator combine (some value) terms
  | some previous, .constant value :: terms => do
    let combined := combine previous value
    note (.folded (.binary operator (.constant previous) (.constant value)) (.constant combined))
    gatherConstants operator combine (some combined) terms
  | accumulated, term :: terms => do
    let gathered ← gatherConstants operator combine accumulated terms
    pure (gathered.1, term :: gathered.2)

/-- The literals of a list folded into one, behind the rest. -/
def foldConstants (operator : BinaryOp) (combine : L → L → L) (terms : List (Expr L)) :
    Builder L (List (Expr L)) := do
  let gathered ← gatherConstants operator combine none terms
  pure (gathered.2 ++ gathered.1.toList.map .constant)

/-- The position of a term's magnitude among the terms after it, when the term is a negation. -/
def oppositeOf (terms : List (Expr L)) (index : Nat) : Expr L → Option Nat
  | .unary .neg magnitude => (terms.drop (index + 1)).findIdx? fun term => term.same magnitude
  | _ => none

/-- Drop each term whose negation is also a term, from an index on. -/
def cancelFrom : Nat → Nat → List (Expr L) → Builder L (List (Expr L))
  | 0, _, terms => pure terms
  | steps + 1, index, terms =>
    match terms[index]? with
    | none => pure terms
    | some term =>
      match oppositeOf terms index term with
      | none => cancelFrom steps (index + 1) terms
      | some position => do
        -- The position counts from after the term, and is used as an index of the list.
        let fewer := terms.eraseIdx position
        note (.cancelled (terms[position]?.getD term) (fewer[index]?.getD term))
        cancelFrom steps index (fewer.eraseIdx index)

/-- Every step goes on, or takes two terms out, so there are no more steps than terms. -/
def cancelOpposites (terms : List (Expr L)) : Builder L (List (Expr L)) :=
  cancelFrom terms.length 0 terms

/-- A sum of terms that hold no relation. -/
def additiveSum (terms : List (Expr L)) : Builder L (Expr L) := do
  let kept ← cancelOpposites (Expr.sort terms)
  finish .add zero kept

/-- The sum of flattened canonical terms, built by `builder` where one is a relation. -/
def buildSumTerms (builder : List (Expr L) → Builder L (Expr L)) (terms : List (Expr L)) :
    Builder L (Expr L) := do
  let folded ← foldConstants .add add terms
  let kept ← cancelOpposites (Expr.sort (folded.filter fun term => !term.isLiteral zero))
  if kept.any fun term => (relationParts term).isSome then builder kept
  else additiveSum kept

/-- A list of summed relation operands as one relation node. -/
def buildRelation (operands : List (Expr L)) (relation : Relation) : Builder L (Expr L) := do
  note (.dropped operands)
  finish relation.operator zero (operands.filter fun operand => !operand.isLiteral zero)

end Steps

section Recursion

variable {L : Type} [Literal L]

mutual

def build : Nat → Expr L → Builder L (Expr L)
  | 0, _ => Run.stop .unfinished
  | _ + 1, .constant value => pure (.constant value)
  | _ + 1, .var name => pure (.var name)
  | fuel + 1, .unary operator operand => buildUnary fuel operator operand
  | fuel + 1, .binary operator left right => buildBinary fuel operator left right

def buildUnary : Nat → UnaryOp → Expr L → Builder L (Expr L)
  | 0, _, _ => Run.stop .unfinished
  | fuel + 1, operator, operand =>
    match undone operator operand with
    | some inner => build fuel inner
    | none => do
      let operand ← build fuel operand
      match foldConstant operator operand with
      | some value => do
        note (.folded (.unary operator operand) (.constant value))
        spend
        pure (.constant value)
      | none =>
        if operator = .exp ∧ operand.operator? = some .add then exponentProduct fuel operand
        else if operator = .neg ∧ (operand.operator? = some .add ∨ operand.operator? = some .mul)
        then negate fuel operand
        else do
          spend
          pure (.unary operator operand)

def buildBinary : Nat → BinaryOp → Expr L → Expr L → Builder L (Expr L)
  | 0, _, _, _ => Run.stop .unfinished
  | fuel + 1, operator, left, right => do
    match operator with
    | .sub => do
      let left ← build fuel left
      let right ← build fuel right
      let right ← negate fuel right
      buildSum fuel [left, right]
    | .add => do
      let left ← build fuel left
      let right ← build fuel right
      buildSum fuel [left, right]
    | .mul => do
      let left ← build fuel left
      let right ← build fuel right
      buildProduct fuel [left, right]
    | .max => do
      let left ← build fuel left
      let right ← build fuel right
      let folded ← foldConstants .max max (flatten [left, right] .max)
      finish .max zero (Expr.sort folded)
    | .min => do
      let left ← build fuel left
      let right ← build fuel right
      let folded ← foldConstants .min min (flatten [left, right] .min)
      finish .min zero (Expr.sort folded)
    | .div => do
      let left ← build fuel left
      let right ← build fuel right
      match left.asConstant, right.asConstant with
      | some value, some divisor =>
        if eq divisor zero then do
          spend
          pure (((infinityOf value divisor).map .constant).getD (.binary .div left right))
        else do
          note (.folded (.binary .div left right) (.constant (div value divisor)))
          spend
          pure (.constant (div value divisor))
      | _, _ => do
        spend
        pure (.binary .div left right)
    | _ => buildComparison fuel operator left right

def buildComparison : Nat → BinaryOp → Expr L → Expr L → Builder L (Expr L)
  | 0, _, _, _ => Run.stop .unfinished
  | fuel + 1, operator, left, right => do
    let left ← build fuel left
    let right ← build fuel right
    let (operator, left, right) := canonicalComparison operator left right
    match left.asConstant, right.asConstant with
    | some value, some other => do
      let yields := compareLiterals operator value other
      note (.folded (.binary operator left right) (.constant yields))
      spend
      pure (.constant yields)
    | _, _ =>
      if left.same right then do
        let yields := compareLiterals operator (zero : L) zero
        note (.folded (.binary operator (.constant zero) (.constant zero))
          (.constant yields))
        spend
        pure (.constant yields)
      else do
        spend
        pure (.binary operator left right)

/-- The sum of the given terms, as one canonical node. -/
def buildSum : Nat → List (Expr L) → Builder L (Expr L)
  | 0, _ => Run.stop .unfinished
  | fuel + 1, terms => do
    let signed ← Run.each (signedTerm fuel) terms
    buildSumTerms (recursiveSum fuel) (flatten signed .add)

/-- A negated sum or product, with the negation taken in. -/
def signedTerm : Nat → Expr L → Builder L (Expr L)
  | 0, _ => Run.stop .unfinished
  | fuel + 1, .unary .neg magnitude =>
    if magnitude.operator? = some .add ∨ magnitude.operator? = some .mul then negate fuel magnitude
    else pure (.unary .neg magnitude)
  | _ + 1, other => pure other

/-- The sum of flattened terms, some of them relations: the others are added into the operands. -/
def recursiveSum : Nat → List (Expr L) → Builder L (Expr L)
  | 0, _ => Run.stop .unfinished
  | fuel + 1, terms =>
    let relations := terms.filterMap relationParts
    match relations.head? with
    | none => buildSumTerms additiveSum terms
    | some first => do
      let keyed := terms.filter fun term => (relationParts term).isNone
      let key ← buildSumTerms (recursiveSum fuel) keyed
      note (.joined relations.length)
      let parts ← Run.each (fun operand => distributeKey fuel operand key)
        (relations.flatMap Prod.snd)
      buildRelation parts first.1

def distributeKey : Nat → Expr L → Expr L → Builder L (Expr L)
  | 0, _, _ => Run.stop .unfinished
  | fuel + 1, operand, key => do
    let summed ← buildSum fuel [operand, key]
    if (relationParts operand).isSome then
      applyKeyOverRelation fuel summed (.constant zero)
    else pure summed

/-- `key` added into each operand of a relation term. -/
def applyKeyOverRelation : Nat → Expr L → Expr L → Builder L (Expr L)
  | 0, _, _ => Run.stop .unfinished
  | fuel + 1, term, key =>
    match relationParts term with
    | none => buildSum fuel [term, key]
    | some (nested, operands) => do
      let parts ← Run.each (fun operand => do
        let summed ← buildSum fuel [operand, key]
        applyKeyOverRelation fuel summed (.constant zero)) operands
      buildRelation parts nested

/-- The product of the given factors, as one canonical node. -/
def buildProduct : Nat → List (Expr L) → Builder L (Expr L)
  | 0, _ => Run.stop .unfinished
  | fuel + 1, factors => do
    let folded ← foldConstants .mul mul (flatten factors .mul)
    if folded.any fun factor => factor.isLiteral zero then do
      spend
      pure (.constant zero)
    else
      let kept := folded.filter fun factor => !factor.isLiteral one
      match kept.findIdx? fun factor => factor.operator? = some .add with
      | some index => distributeProduct fuel kept index
      | none => finish .mul one (Expr.sort kept)

/-- The sum of the products with one sum factor replaced by each of its terms. -/
def distributeProduct : Nat → List (Expr L) → Nat → Builder L (Expr L)
  | 0, _, _ => Run.stop .unfinished
  | fuel + 1, factors, index =>
    match factors[index]? with
    | some (.binary .add left right) => do
      let products ← Run.each (fun term => buildProduct fuel (factors.eraseIdx index ++ [term]))
        [left, right]
      buildSum fuel products
    | _ => Run.stop .overBudget

/-- The exponential of a canonical sum, as a product. -/
def exponentProduct : Nat → Expr L → Builder L (Expr L)
  | 0, _ => Run.stop .unfinished
  | fuel + 1, .binary .add left right => do
    let left ← buildUnary fuel .exp left
    let right ← buildUnary fuel .exp right
    buildProduct fuel [left, right]
  | _ + 1, _ => Run.stop .overBudget

def negate : Nat → Expr L → Builder L (Expr L)
  | 0, _ => Run.stop .unfinished
  | _ + 1, .constant value => do
    note (.folded (.unary .neg (.constant value)) (.constant (neg value)))
    spend
    pure (.constant (neg value))
  | fuel + 1, .unary .neg inner => build fuel inner
  | fuel + 1, .binary .add left right => buildBinary fuel .add (.unary .neg left) (.unary .neg right)
  | fuel + 1, .binary .mul left right => do
    note (.negatedProduct left right)
    buildBinary fuel .mul (.unary .neg left) (.unary .neg right)
  | fuel + 1, .binary .max left right => negateRelation fuel .max (.binary .max left right)
  | fuel + 1, .binary .min left right => negateRelation fuel .min (.binary .min left right)
  | fuel + 1, other => do
    spend
    let operand ← build fuel other
    pure (.unary .neg operand)

/-- The dual relation over the negated operands. -/
def negateRelation : Nat → Relation → Expr L → Builder L (Expr L)
  | 0, _, _ => Run.stop .unfinished
  | fuel + 1, relation, term => do
    let negated ← Run.each (negate fuel) (relationOperands relation term)
    finish relation.dual.operator zero (Expr.sort negated)

end

/-- The canonical form of an expression, by recursion at most `fuel` deep. -/
def normalize (fuel : Nat) (expr : Expr L) : RunEnd Nat (Rewrite L) Refusal (Expr L) :=
  build fuel expr NORMALIZATION_BUDGET

end Recursion

end LichenVm.Fusion
