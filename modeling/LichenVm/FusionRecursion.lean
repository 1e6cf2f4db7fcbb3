import LichenVm.FusionSound
import Mathlib.Tactic.Ring

/-! The recursion of the canonicalizer: each builder is sound where its callees are. -/

open List Option

namespace LichenVm.Fusion

open LoggedRun Scalars Scalars Literal

variable {L K : Type} [Literal L] [Field K] [LinearOrder K]

section Comparisons

theorem cmp_eq (S : Scalars L K) {left right : Expr L} (same : left.cmp right = .eq) :
    left = right := by
  have binaries : ∀ one other : BinaryOp, compare one other = .eq → one = other := by
    intro one other
    cases one <;> cases other <;> simp +decide
  have unaries : ∀ one other : UnaryOp, compare one other = .eq → one = other := by
    intro one other
    cases one <;> cases other <;> simp +decide
  induction left generalizing right with
  | constant literal =>
    cases right with
    | constant other => rw [S.totalCmp_eq literal other same]
    | var name | unary operator operand | binary operator first second =>
      simp +decide [Expr.cmp, Expr.rank] at same
  | var name =>
    cases right with
    | constant other | unary operator operand | binary operator first second =>
      simp +decide [Expr.cmp, Expr.rank] at same
    | var other =>
      simp only [Expr.cmp, Variable.cmp, compareOfLessAndEq] at same
      split at same
      · cases same
      · split at same
        · next names =>
          exact congrArg (fun text => Expr.var ⟨text⟩) names
        · cases same
  | unary operator operand ih =>
    cases right with
    | constant other | var name | binary operator' first second =>
      simp +decide [Expr.cmp, Expr.rank] at same
    | unary operator' operand' =>
      obtain ⟨operators, operands⟩ := Ordering.then_eq_eq.1 same
      rw [unaries _ _ operators, ih operands]
  | binary operator first second ih ih' =>
    cases right with
    | constant other | var name | unary operator' operand' =>
      simp +decide [Expr.cmp, Expr.rank] at same
    | binary operator' first' second' =>
      obtain ⟨firsts, seconds⟩ := Ordering.then_eq_eq.1 same
      obtain ⟨operators, firsts⟩ := Ordering.then_eq_eq.1 firsts
      rw [binaries _ _ operators, ih firsts, ih' seconds]

theorem same_eq (S : Scalars L K) {left right : Expr L} (same : left.same right) :
    left = right :=
  cmp_eq S (by simpa [Expr.same] using same)

/-- An operator whose operands may be swapped for its mirror, and that is one of equals. -/
structure Compares (K : Type) [Field K] [LinearOrder K] (operator : BinaryOp) : Prop where
  mirrored : ∀ a b : K, binary operator.mirrored b a = binary operator a b
  refl : ∀ a : K, binary operator a a = binary operator 0 0

theorem compares_lessThan : Compares K .lessThan := ⟨fun _ _ => rfl, fun a => by simp [binary, truth]⟩

theorem compares_greaterThan : Compares K .greaterThan :=
  ⟨fun _ _ => rfl, fun a => by simp [binary, truth]⟩

theorem compares_lessEqual : Compares K .lessEqual := ⟨fun _ _ => rfl, fun a => by simp [binary, truth]⟩

theorem compares_greaterEqual : Compares K .greaterEqual :=
  ⟨fun _ _ => rfl, fun a => by simp [binary, truth]⟩

theorem compares_equal : Compares K .equal :=
  ⟨fun a b => by simp [binary, truth, BinaryOp.mirrored, eq_comm],
    fun a => by simp [binary, truth]⟩

theorem compares_notEqual : Compares K .notEqual :=
  ⟨fun a b => by simp [binary, truth, BinaryOp.mirrored, eq_comm],
    fun a => by simp [binary, truth]⟩

end Comparisons

variable [IsStrictOrderedRing K] (S : Scalars L K) (at_ : Variable → K)

/-- Every builder answers an expression of the value it was asked for. -/
structure Sound (fuel : Nat) : Prop where
  build : ∀ {expr : Expr L} {v : K}, S.value at_ expr = some v →
    Yields S (build fuel expr) fun n => S.value at_ n = some v
  buildUnary : ∀ {operator : UnaryOp} {operand : Expr L} {v : K},
    S.value at_ (.unary operator operand) = some v →
    Yields S (buildUnary fuel operator operand) fun n => S.value at_ n = some v
  buildBinary : ∀ {operator : BinaryOp} {left right : Expr L} {v : K},
    S.value at_ (.binary operator left right) = some v →
    Yields S (buildBinary fuel operator left right) fun n => S.value at_ n = some v
  buildComparison : ∀ {operator : BinaryOp} {left right : Expr L} {v : K}, Compares K operator →
    S.value at_ (.binary operator left right) = some v →
    Yields S (buildComparison fuel operator left right) fun n => S.value at_ n = some v
  buildSum : ∀ {terms : List (Expr L)} {v : K}, S.FoldsTo at_ .add terms v →
    Yields S (buildSum fuel terms) fun n => S.value at_ n = some v
  signedTerm : ∀ {term : Expr L} {v : K}, S.value at_ term = some v →
    Yields S (signedTerm fuel term) fun n => S.value at_ n = some v
  recursiveSum : ∀ {terms : List (Expr L)} {v : K}, S.FoldsTo at_ .add terms v →
    Yields S (recursiveSum fuel terms) fun n => S.value at_ n = some v
  distributeKey : ∀ {operand key : Expr L} {a k : K}, S.value at_ operand = some a →
    S.value at_ key = some k →
    Yields S (distributeKey fuel operand key) fun n => S.value at_ n = some (a + k)
  applyKeyOverRelation : ∀ {term key : Expr L} {a k : K}, S.value at_ term = some a →
    S.value at_ key = some k →
    Yields S (applyKeyOverRelation fuel term key) fun n => S.value at_ n = some (a + k)
  buildProduct : ∀ {factors : List (Expr L)} {v : K}, S.FoldsTo at_ .mul factors v →
    Yields S (buildProduct fuel factors) fun n => S.value at_ n = some v
  distributeProduct : ∀ {factors : List (Expr L)} {index : Nat} {v : K},
    S.FoldsTo at_ .mul factors v →
    Yields S (distributeProduct fuel factors index) fun n => S.value at_ n = some v
  exponentProduct : ∀ {operand : Expr L} {v : K}, S.value at_ (.unary .exp operand) = some v →
    Yields S (exponentProduct fuel operand) fun n => S.value at_ n = some v
  negate : ∀ {expr : Expr L} {v : K}, S.value at_ expr = some v →
    Yields S (negate fuel expr) fun n => S.value at_ n = some (-v)
  negateRelation : ∀ {relation : Relation} {term : Expr L} {v : K}, S.value at_ term = some v →
    Yields S (negateRelation fuel relation term) fun n => S.value at_ n = some (-v)

theorem sound_zero : Sound S at_ 0 := by
  constructor <;> intros <;> exact yields_stop _

section Steps

variable {S at_} {fuel : Nat} (sound : Sound S at_ fuel)

include sound

variable {expr : Expr L} {v : K}

theorem Sound.build_step (worth : S.value at_ expr = some v) :
    Yields S (Fusion.build (fuel + 1) expr) fun n => S.value at_ n = some v := by
  cases expr with
  | constant literal | var name => exact yields_pure worth
  | unary operator operand => exact sound.buildUnary worth
  | binary operator left right => exact sound.buildBinary worth

variable {operand : Expr L}

omit [IsStrictOrderedRing K] sound in
theorem value_undone {operator : UnaryOp} {inner : Expr L}
    (under : undone operator operand = some inner)
    (worth : S.value at_ (.unary operator operand) = some v) : S.value at_ inner = some v := by
  unfold undone at under
  split at under
  · cases under
    obtain ⟨b, middle, last⟩ := bind_eq_some_iff.1 worth
    obtain ⟨a, first, middle⟩ := bind_eq_some_iff.1 middle
    rw [first, ← S.exp_ln a b middle]
    exact last
  · cases under
    obtain ⟨b, middle, last⟩ := bind_eq_some_iff.1 worth
    obtain ⟨a, first, middle⟩ := bind_eq_some_iff.1 middle
    rw [first, ← S.ln_exp a b middle]
    exact last
  · cases under
    obtain ⟨b, middle, last⟩ := bind_eq_some_iff.1 worth
    obtain ⟨a, first, middle⟩ := bind_eq_some_iff.1 middle
    cases middle
    rw [first, ← last, unary, neg_neg]
  · cases under

theorem Sound.buildUnary_step {operator : UnaryOp}
    (worth : S.value at_ (.unary operator operand) = some v) :
    Yields S (Fusion.buildUnary (fuel + 1) operator operand) fun n => S.value at_ n = some v := by
  unfold Fusion.buildUnary
  split
  · next inner under => exact sound.build (value_undone under worth)
  obtain ⟨a, has, yields⟩ := bind_eq_some_iff.1 worth
  apply yields_bind (sound.build has)
  intro built same
  have node : S.value at_ (.unary operator built) = some v := by
    rw [value, same]
    exact yields
  split
  · next literal folds =>
    apply yields_note
    intro exact_
    apply yields_spend
    exact yields_pure (exact_ at_ v node)
  split
  · next exponential =>
    rw [exponential.1] at node
    exact sound.exponentProduct node
  split
  · next negation =>
    rw [negation.1] at yields
    cases yields
    exact sound.negate same
  apply yields_spend
  exact yields_pure node

variable {operator : BinaryOp} {left right : Expr L}

theorem Sound.build_two {combine : K → K → K} (combines : Combines operator combine)
    (worth : S.value at_ (.binary operator left right) = some v)
    (next : List (Expr L) → Builder L (Expr L))
    (goes : ∀ terms, S.FoldsTo at_ operator terms v →
      Yields S (next terms) fun n => S.value at_ n = some v) :
    Yields S (Fusion.build fuel left >>= fun left => Fusion.build fuel right >>= fun right =>
      next [left, right]) fun n => S.value at_ n = some v := by
  obtain ⟨a, b, first, second, worth⟩ := value_binary worth
  apply yields_bind (sound.build first)
  intro left first
  apply yields_bind (sound.build second)
  intro right second
  apply goes
  apply (foldsTo_node combines).1
  apply (foldsTo_single combines).2
  rw [value, first, second]
  exact worth

theorem Sound.buildRelationNode (relation : Relation) (literal : L → L → L) (worth : S.value at_
    (.binary relation.operator left right) = some v) :
    Yields S (Fusion.build fuel left >>= fun left => Fusion.build fuel right >>= fun right => do
      let folded ← foldConstants relation.operator literal (flatten [left, right] relation.operator)
      finish relation.operator zero (Expr.sort folded)) fun n => S.value at_ n = some v := by
  obtain ⟨combine, combines⟩ := Relation.combines (K := K) relation
  apply sound.build_two combines worth (fun terms => do
      let folded ← foldConstants relation.operator literal (flatten terms relation.operator)
      finish relation.operator zero (Expr.sort folded))
  intro terms folds
  apply yields_bind (foldConstants_worth combines literal (folds.flatten combines))
  intro folded folds
  exact finish_worth combines (fun w empty => absurd empty (relation.folds_nil w))
    (folds.sort combines)

theorem Sound.buildBinary_step (worth : S.value at_ (.binary operator left right) = some v) :
    Yields S (Fusion.buildBinary (fuel + 1) operator left right) fun n => S.value at_ n = some v := by
  unfold Fusion.buildBinary
  cases operator with
  | sub =>
    obtain ⟨a, b, first, second, worth⟩ := value_binary worth
    apply yields_bind (sound.build first)
    intro left first
    apply yields_bind (sound.build second)
    intro right second
    apply yields_bind (sound.negate second)
    intro negated second
    apply sound.buildSum
    rw [← some.inj worth, sub_eq_add_neg]
    exact foldsTo_pair combines_add first second
  | add => exact sound.build_two combines_add worth _ fun terms folds => sound.buildSum folds
  | mul => exact sound.build_two combines_mul worth _ fun terms folds => sound.buildProduct folds
  | max => exact sound.buildRelationNode .max max worth
  | min => exact sound.buildRelationNode .min min worth
  | div =>
    obtain ⟨a, b, first, second, worth⟩ := value_binary worth
    apply yields_bind (sound.build first)
    intro left first
    apply yields_bind (sound.build second)
    intro right second
    have node : S.value at_ (.binary .div left right) = some v := by
      rw [value, first, second]
      exact worth
    split
    · next value divisor isValue isDivisor =>
      split
      · next isZero =>
        -- A literal that equals zero reads as zero, and nothing is divided by it.
        have is : right.isLiteral (zero : L) := by
          rw [Expr.isLiteral, isDivisor]
          exact isZero
        rw [value_of_isLiteral S.isZero is second, binary, if_pos rfl] at worth
        cases worth
      · apply yields_note
        intro exact_
        apply yields_spend
        exact yields_pure (exact_ at_ v node)
    · apply yields_spend
      exact yields_pure node
  | lessThan => exact sound.buildComparison compares_lessThan worth
  | greaterThan => exact sound.buildComparison compares_greaterThan worth
  | lessEqual => exact sound.buildComparison compares_lessEqual worth
  | greaterEqual => exact sound.buildComparison compares_greaterEqual worth
  | equal => exact sound.buildComparison compares_equal worth
  | notEqual => exact sound.buildComparison compares_notEqual worth

theorem Sound.buildComparison_step
    (compares : Compares K operator) (worth : S.value at_ (.binary operator left right) = some v) :
    Yields S (Fusion.buildComparison (fuel + 1) operator left right) fun n =>
      S.value at_ n = some v := by
  unfold Fusion.buildComparison
  obtain ⟨a, b, first, second, worth⟩ := value_binary worth
  apply yields_bind (sound.build first)
  intro left first
  apply yields_bind (sound.build second)
  intro right second
  -- Either operand order has the value, and the values of equal operands are alike.
  have node : S.value at_ (.binary (canonicalComparison operator left right).1
      (canonicalComparison operator left right).2.1 (canonicalComparison operator left right).2.2) =
        some v := by
    unfold canonicalComparison
    split
    · rw [value, first, second, bind_some, bind_some, compares.mirrored]
      exact worth
    · rw [value, first, second, bind_some, bind_some]
      exact worth
  have equals : ∀ c, S.value at_ (canonicalComparison operator left right).2.1 = some c →
      binary (canonicalComparison operator left right).1 c c =
        binary (canonicalComparison operator left right).1 0 0 := by
    intro c _
    unfold canonicalComparison
    split
    · rw [compares.mirrored, compares.refl, ← compares.mirrored]
    · exact compares.refl c
  revert node equals
  generalize canonicalComparison operator left right = canonical
  obtain ⟨operator', left', right'⟩ := canonical
  intro node equals
  dsimp only at node equals ⊢
  split
  · apply yields_note
    intro exact_
    apply yields_spend
    exact yields_pure (exact_ at_ v node)
  split
  · next same =>
    obtain rfl := same_eq S same
    apply yields_note
    intro exact_
    apply yields_spend
    apply yields_pure
    apply exact_ at_ v
    obtain ⟨c, d, one, other, holds⟩ := value_binary node
    cases one.symm.trans other
    rw [value, value, S.zero, bind_some, bind_some, ← equals c one]
    exact holds
  · apply yields_spend
    exact yields_pure node

variable {terms : List (Expr L)}

theorem Sound.buildSum_step (folds : S.FoldsTo at_ .add terms v) :
    Yields S (Fusion.buildSum (fuel + 1) terms) fun n => S.value at_ n = some v := by
  unfold Fusion.buildSum
  have each : Yields S (Run.each (Fusion.signedTerm fuel) terms) fun signed =>
      signed.map (S.value at_) = terms.map fun term => some (S.amount at_ term) := by
    apply yields_each
    intro term member
    obtain ⟨a, has⟩ := folds.1 term member
    rw [amount_of_value has]
    exact sound.signedTerm has
  apply yields_bind each
  intro signed same
  have signed := foldsTo_of_values _ (by rw [same, List.map_map]; rfl) folds.2
  exact buildSumTerms_worth (fun kept folds => sound.recursiveSum folds) (signed.flatten combines_add)

variable {term : Expr L}

theorem Sound.signedTerm_step (worth : S.value at_ term = some v) :
    Yields S (Fusion.signedTerm (fuel + 1) term) fun n => S.value at_ n = some v := by
  cases term with
  | unary operator magnitude =>
    cases operator with
    | neg =>
      unfold Fusion.signedTerm
      split
      · obtain ⟨a, has, negated⟩ := bind_eq_some_iff.1 worth
        cases negated
        exact sound.negate has
      · exact yields_pure worth
    | _ => exact yields_pure worth
  | constant literal | var name | binary operator left right => exact yields_pure worth

omit sound in
/-- The one relation of a list, and the terms beside it. -/
theorem only_relation {first : Relation × List (Expr L)}
    (only : terms.filterMap relationParts = [first]) :
    ∃ term, relationParts term = some first ∧
      terms.Perm (term :: terms.filter fun term => (relationParts term).isNone) := by
  induction terms with
  | nil => cases only
  | cons term terms ih =>
    cases parts : relationParts term with
    | none =>
      rw [filterMap_cons_none parts] at only
      obtain ⟨relation, found, moved⟩ := ih only
      refine ⟨relation, found, ?_⟩
      rw [filter_cons_of_pos (by rw [parts]; rfl)]
      exact (moved.cons term).trans (List.Perm.swap _ _ _)
    | some found =>
      rw [filterMap_cons_some parts] at only
      obtain ⟨rfl, rest⟩ := List.cons.inj only
      refine ⟨term, parts, ?_⟩
      rw [filter_cons_of_neg (by rw [parts]; simp)]
      have kept : terms.filter (fun term => (relationParts term).isNone) = terms := by
        rw [filter_eq_self]
        intro other member
        rw [filterMap_eq_nil_iff.1 rest other member]
        rfl
      rw [kept]

theorem Sound.recursiveSum_step (folds : S.FoldsTo at_ .add terms v) :
    Yields S (Fusion.recursiveSum (fuel + 1) terms) fun n => S.value at_ n = some v := by
  unfold Fusion.recursiveSum
  dsimp only
  split
  · exact buildSumTerms_worth (fun kept folds => additiveSum_worth folds) folds
  next first head =>
  let keyed := terms.filter fun term => (relationParts term).isNone
  have keys : S.FoldsTo at_ .add keyed (keyed.map (S.amount at_)).sum :=
    ⟨fun term member => folds.1 term (mem_of_mem_filter member), rfl⟩
  apply yields_bind (buildSumTerms_worth (fun kept folds => sound.recursiveSum folds) keys)
  intro key worth
  apply yields_note
  intro exact_
  obtain ⟨only, listed⟩ := length_eq_one_iff.1 exact_
  rw [listed, List.head?_cons, some.injEq] at head
  obtain rfl := head
  obtain ⟨term, parts, moved⟩ := only_relation listed
  obtain ⟨has, sum⟩ := folds.perm combines_add moved
  obtain ⟨a, worth'⟩ := has term mem_cons_self
  have operands := relationOperands_worth only.1 worth'
  rw [← relationParts_some parts] at operands
  have each : Yields S (Run.each (fun operand => Fusion.distributeKey fuel operand key)
      ((terms.filterMap relationParts).flatMap Prod.snd)) fun answers =>
        answers.map (S.value at_) = ((terms.filterMap relationParts).flatMap Prod.snd).map fun operand =>
          some (S.amount at_ operand + (keyed.map (S.amount at_)).sum) := by
    apply yields_each
    intro operand member
    rw [listed, flatMap_singleton] at member
    obtain ⟨b, has⟩ := operands.1 operand member
    rw [amount_of_value has]
    exact sound.distributeKey has worth
  apply yields_bind each
  intro answers same
  apply buildRelation_worth
  rw [listed, flatMap_singleton] at same
  have total : a + (keyed.map (S.amount at_)).sum = v := by
    rw [← amount_of_value worth']
    exact sum
  rw [← total]
  apply foldsTo_of_values ((only.2.map (S.amount at_)).map fun a =>
    a + (keyed.map (S.amount at_)).sum)
  · rw [same, List.map_map, List.map_map]
    rfl
  · exact only.1.folds_add _ operands.2

theorem Sound.distributeKey_step {key : Expr L} {a k : K}
    (worth : S.value at_ operand = some a) (worth' : S.value at_ key = some k) :
    Yields S (Fusion.distributeKey (fuel + 1) operand key) fun n => S.value at_ n = some (a + k) := by
  unfold Fusion.distributeKey
  apply yields_bind (sound.buildSum (foldsTo_pair combines_add worth worth'))
  intro summed worth
  split
  · have added := sound.applyKeyOverRelation worth (show S.value at_ (.constant zero) = some 0 from S.zero)
    rw [add_zero] at added
    exact added
  · exact yields_pure worth

theorem Sound.applyKeyOverRelation_step {key : Expr L} {a k : K}
    (worth : S.value at_ term = some a) (worth' : S.value at_ key = some k) :
    Yields S (Fusion.applyKeyOverRelation (fuel + 1) term key) fun n =>
      S.value at_ n = some (a + k) := by
  unfold Fusion.applyKeyOverRelation
  split
  · exact sound.buildSum (foldsTo_pair combines_add worth worth')
  next nested operands parts =>
  have folds := relationOperands_worth nested worth
  rw [← relationParts_some parts] at folds
  have each : Yields S (Run.each (fun operand => do
      let summed ← Fusion.buildSum fuel [operand, key]
      Fusion.applyKeyOverRelation fuel summed (.constant zero)) operands) fun answers =>
        answers.map (S.value at_) = operands.map fun operand => some (S.amount at_ operand + k) := by
    apply yields_each
    intro operand member
    obtain ⟨b, has⟩ := folds.1 operand member
    rw [amount_of_value has]
    apply yields_bind (sound.buildSum (foldsTo_pair combines_add has worth'))
    intro summed worth
    have added := sound.applyKeyOverRelation worth (show S.value at_ (.constant zero) = some 0 from S.zero)
    rw [add_zero] at added
    exact added
  apply yields_bind each
  intro answers same
  apply buildRelation_worth
  apply foldsTo_of_values ((operands.map (S.amount at_)).map fun b => b + k)
  · rw [same, List.map_map, List.map_map]
    rfl
  · exact nested.folds_add k folds.2

theorem Sound.buildProduct_step {factors : List (Expr L)} (folds : S.FoldsTo at_ .mul factors v) :
    Yields S (Fusion.buildProduct (fuel + 1) factors) fun n => S.value at_ n = some v := by
  unfold Fusion.buildProduct
  apply yields_bind (foldConstants_worth combines_mul mul (folds.flatten combines_mul))
  intro folded folds
  split
  · next zero =>
    apply yields_spend
    apply yields_pure
    rw [product_zero folds zero]
    exact S.zero
  dsimp only
  split
  · exact sound.distributeProduct (foldsTo_withoutOnes folds)
  · exact finish_worth combines_mul (fun w empty => by rw [S.one, ← show 1 = w from empty])
      ((foldsTo_withoutOnes folds).sort combines_mul)

theorem Sound.distributeProduct_step {factors : List (Expr L)} {index : Nat}
    (folds : S.FoldsTo at_ .mul factors v) :
    Yields S (Fusion.distributeProduct (fuel + 1) factors index) fun n => S.value at_ n = some v := by
  unfold Fusion.distributeProduct
  split
  · next left right found =>
    obtain ⟨below, here⟩ := List.getElem?_eq_some_iff.1 found
    have moved := getElem_cons_eraseIdx_perm below
    rw [here] at moved
    obtain ⟨has, product⟩ := folds.perm combines_mul moved.symm
    let others := factors.eraseIdx index
    have rest : ∀ factor ∈ others, ∃ a, S.value at_ factor = some a := fun factor member =>
      has factor (mem_cons_of_mem _ member)
    obtain ⟨c, sum⟩ := has _ mem_cons_self
    have total : c * (others.map (S.amount at_)).prod = v := by
      rw [← amount_of_value sum]
      exact product
    obtain ⟨a, b, first, second, sum⟩ := value_binary sum
    cases sum
    have expanded : ∀ {term : Expr L} {a : K}, S.value at_ term = some a →
        S.FoldsTo at_ .mul (others ++ [term]) ((others.map (S.amount at_)).prod * a) := by
      intro term a has
      refine ⟨fun factor member => ?_, ?_⟩
      · rcases mem_append.1 member with there | last
        · exact rest factor there
        · rw [mem_singleton.1 last]
          exact ⟨a, has⟩
      · show List.prod _ = _
        rw [map_append, prod_append, map_singleton, prod_singleton, amount_of_value has]
    have each : Yields S (Run.each (fun term => Fusion.buildProduct fuel (others ++ [term]))
        [left, right]) fun answers => answers.map (S.value at_) = [left, right].map fun term =>
          some ((others.map (S.amount at_)).prod * S.amount at_ term) := by
      apply yields_each
      intro term member
      rcases mem_pair.1 member with rfl | rfl
      · rw [amount_of_value first]
        exact sound.buildProduct (expanded first)
      · rw [amount_of_value second]
        exact sound.buildProduct (expanded second)
    apply yields_bind each
    intro products same
    apply sound.buildSum
    apply foldsTo_of_values [(others.map (S.amount at_)).prod * a, (others.map (S.amount at_)).prod * b]
    · rw [same, map_cons, map_cons, amount_of_value first, amount_of_value second]
      rfl
    · show List.sum _ = v
      rw [← total, sum_cons, sum_singleton]
      ring
  · exact yields_stop _

theorem Sound.exponentProduct_step (worth : S.value at_ (.unary .exp operand) = some v) :
    Yields S (Fusion.exponentProduct (fuel + 1) operand) fun n => S.value at_ n = some v := by
  cases operand with
  | binary operator left right =>
    cases operator with
    | add =>
      obtain ⟨c, sum, exponential⟩ := bind_eq_some_iff.1 worth
      obtain ⟨a, b, first, second, sum⟩ := value_binary sum
      cases sum
      obtain ⟨x, y, left', right', rfl⟩ := S.exp_add a b v exponential
      unfold Fusion.exponentProduct
      apply yields_bind (sound.buildUnary (show S.value at_ (.unary .exp left) = some x by
        rw [value, first]
        exact left'))
      intro left one
      apply yields_bind (sound.buildUnary (show S.value at_ (.unary .exp right) = some y by
        rw [value, second]
        exact right'))
      intro right other
      exact sound.buildProduct (foldsTo_pair combines_mul one other)
    | _ => exact yields_stop _
  | constant literal | var name | unary operator operand => exact yields_stop _

theorem Sound.negateRelation_step {relation : Relation} (worth : S.value at_ term = some v) :
    Yields S (Fusion.negateRelation (fuel + 1) relation term) fun n => S.value at_ n = some (-v) := by
  unfold Fusion.negateRelation
  have folds := relationOperands_worth relation worth
  have each : Yields S (Run.each (Fusion.negate fuel) (relationOperands relation term)) fun answers =>
      answers.map (S.value at_) = (relationOperands relation term).map fun operand =>
        some (-S.amount at_ operand) := by
    apply yields_each
    intro operand member
    obtain ⟨b, has⟩ := folds.1 operand member
    rw [amount_of_value has]
    exact sound.negate has
  apply yields_bind each
  intro negated same
  obtain ⟨combine, combines⟩ := Relation.combines (K := K) relation.dual
  have duals : S.FoldsTo at_ relation.dual.operator negated (-v) := by
    apply foldsTo_of_values (((relationOperands relation term).map (S.amount at_)).map fun a => -a)
    · rw [same, List.map_map, List.map_map]
      rfl
    · exact relation.folds_neg folds.2
  exact finish_worth combines (fun w empty => absurd empty (relation.dual.folds_nil w))
    (duals.sort combines)

omit [IsStrictOrderedRing K] in
theorem Sound.negated (worth : S.value at_ expr = some v) :
    Yields S (spend >>= fun _ => Fusion.build fuel expr >>= fun operand =>
      pure (.unary .neg operand)) fun n => S.value at_ n = some (-v) := by
  apply yields_spend
  apply yields_bind (sound.build worth)
  intro operand worth
  apply yields_pure
  rw [value, worth]
  rfl

theorem Sound.negate_step (worth : S.value at_ expr = some v) :
    Yields S (Fusion.negate (fuel + 1) expr) fun n => S.value at_ n = some (-v) := by
  cases expr with
  | constant literal =>
    unfold Fusion.negate
    apply yields_note
    intro exact_
    apply yields_spend
    apply yields_pure
    apply exact_ at_
    rw [value, worth]
    rfl
  | var name => exact sound.negated worth
  | unary operator operand =>
    cases operator with
    | neg =>
      obtain ⟨a, has, negated⟩ := bind_eq_some_iff.1 worth
      cases negated
      rw [neg_neg]
      exact sound.build has
    | _ => exact sound.negated worth
  | binary operator left right =>
    cases operator with
    | add =>
      obtain ⟨a, b, first, second, worth⟩ := value_binary worth
      cases worth
      apply sound.buildBinary
      rw [value, value, first, value, second]
      exact congrArg some (neg_add a b).symm
    | mul =>
      unfold Fusion.negate
      apply yields_note
      exact fun never => never.elim
    | max | min => exact sound.negateRelation worth
    | _ => exact sound.negated worth

end Steps

theorem sound (fuel : Nat) : Sound S at_ fuel := by
  induction fuel with
  | zero => exact sound_zero S at_
  | succ fuel ih =>
    exact
      { build := ih.build_step
        buildUnary := ih.buildUnary_step
        buildBinary := ih.buildBinary_step
        buildComparison := ih.buildComparison_step
        buildSum := ih.buildSum_step
        signedTerm := ih.signedTerm_step
        recursiveSum := ih.recursiveSum_step
        distributeKey := ih.distributeKey_step
        applyKeyOverRelation := ih.applyKeyOverRelation_step
        buildProduct := ih.buildProduct_step
        distributeProduct := ih.distributeProduct_step
        exponentProduct := ih.exponentProduct_step
        negate := ih.negate_step
        negateRelation := ih.negateRelation_step }

theorem normalize_value {fuel : Nat} {expr n : Expr L} {v : K}
    (ran : (normalize fuel expr).answer = .ok n)
    (exact_ : ∀ rewrite ∈ (normalize fuel expr).log, rewrite.Exact S)
    (worth : S.value at_ expr = some v) : S.value at_ n = some v := by
  have ends := (sound S at_ fuel).build worth NORMALIZATION_BUDGET exact_
  rcases ends.cases with ⟨a, answered, holds⟩ | ⟨stop, answered, -⟩
  · cases answered.symm.trans ran
    exact holds
  · cases answered.symm.trans ran

end LichenVm.Fusion
