import LichenVm.FusionNormalize
import LichenVm.FusionValue
import Mathlib.Algebra.BigOperators.Ring.List

/-! What the canonicalizer's forms are worth, where all its rewritings are exact. -/

open List

namespace LichenVm.Fusion

open LoggedRun Scalars Literal

variable {L K : Type} [Literal L] [Field K] [LinearOrder K] {A B : Type}

/-- A rewriting that keeps the value: literals computed without rounding, no product negated, a
term cancelled against its own negation, one relation, and zeros dropped from no other operands. -/
def Rewrite.Exact (S : Scalars L K) : Rewrite L → Prop
  | .folded before after => ∀ at_ v, S.value at_ before = some v → S.value at_ after = some v
  | .negatedProduct _ _ => False
  | .cancelled first second => first = .unary .neg second ∨ second = .unary .neg first
  | .joined relations => relations = 1
  | .dropped operands => (∀ operand ∈ operands, operand.isLiteral zero = false) ∨
      ∀ operand ∈ operands, operand.isLiteral zero = true

def Answers (sound : Rewrite L → Prop) (run : Builder L A) (good : A → Prop) : Prop :=
  ∀ remaining, Meets sound run remaining (fun a _ => good a) fun _ _ => True

/-- A builder whose answer is good when its rewritings are exact. -/
abbrev Yields (S : Scalars L K) (run : Builder L A) (good : A → Prop) : Prop :=
  Answers (Rewrite.Exact S) run good

section Rules

variable {sound : Rewrite L → Prop} {good : A → Prop} {run : Builder L A}

section

omit [Literal L]

theorem yields_pure {a : A} (holds : good a) : Answers sound (pure a) good := fun _ => meets_pure holds

theorem yields_stop (reason : Refusal) : Answers sound (Run.stop reason) good := fun _ =>
  meets_stop trivial

theorem yields_bind {first : Builder L B} {next : B → Builder L A} {middle : B → Prop}
    (starts : Answers sound first middle) (goes : ∀ b, middle b → Answers sound (next b) good) :
    Answers sound (first >>= next) good := fun remaining =>
  meets_bind (Meets.mono (starts remaining) (fun b later holds => goes b holds later)
    fun _ _ _ => trivial)

theorem yields_note {rewrite : Rewrite L} {next : Unit → Builder L A}
    (goes : sound rewrite → Answers sound (next ()) good) :
    Answers sound (note rewrite >>= next) good := fun remaining =>
  meets_note fun exact_ => goes exact_ remaining

theorem yields_spend {next : Unit → Builder L A} (goes : Answers sound (next ()) good) :
    Answers sound (spend >>= next) good := by
  have spent : Answers sound (spend : Builder L Unit) fun _ => True := by
    intro remaining
    cases remaining with
    | zero | succ remaining => exact fun _ => trivial
  exact yields_bind spent fun _ _ => goes

theorem answers_each {run : B → Builder L (Expr L)} {items : List B} {good : Expr L → Prop}
    (each : ∀ item ∈ items, Answers sound (run item) good) :
    Answers sound (Run.each run items) fun answers => ∀ n ∈ answers, good n := by
  induction items with
  | nil => exact yields_pure fun n member => absurd member not_mem_nil
  | cons item items ih =>
    apply yields_bind (each item mem_cons_self)
    intro n first
    apply yields_bind (ih fun other member => each other (mem_cons_of_mem _ member))
    intro rest others
    exact yields_pure (forall_mem_cons.2 ⟨first, others⟩)

end

theorem yields_each {S : Scalars L K} {run : B → Builder L (Expr L)} {items : List B}
    {at_ : Variable → K} {f : B → K}
    (yields : ∀ item ∈ items, Yields S (run item) fun n => S.value at_ n = some (f item)) :
    Yields S (Run.each run items) fun answers =>
      answers.map (S.value at_) = items.map fun item => some (f item) := by
  induction items with
  | nil => exact yields_pure rfl
  | cons item items ih =>
    apply yields_bind (yields item mem_cons_self)
    intro n worth
    apply yields_bind (ih fun other member => yields other (mem_cons_of_mem _ member))
    intro rest same
    apply yields_pure
    rw [map_cons, map_cons, worth, same]

end Rules

namespace Scalars

variable {S : Scalars L K} {at_ : Variable → K} {operator : BinaryOp} {combine : K → K → K}
  {terms : List (Expr L)} {v : K}

theorem foldsTo_of_values (values : List K) (same : terms.map (S.value at_) = values.map some)
    (folds : Folds operator values v) : S.FoldsTo at_ operator terms v := by
  have amounts : terms.map (S.amount at_) = values := by
    have read := congrArg (List.map fun found : Option K => found.getD 0) same
    change terms.map (fun term => (S.value at_ term).getD 0) = values
    simpa [Function.comp_def] using read
  refine ⟨fun term member => ?_, amounts ▸ folds⟩
  have listed : S.value at_ term ∈ values.map some := same ▸ mem_map_of_mem member
  obtain ⟨a, -, has⟩ := mem_map.1 listed
  exact ⟨a, has.symm⟩

theorem foldsTo_pair (combines : Combines operator combine) {left right : Expr L} {a b : K}
    (first : S.value at_ left = some a) (second : S.value at_ right = some b) :
    S.FoldsTo at_ operator [left, right] (combine a b) := by
  apply (foldsTo_node combines).1
  apply (foldsTo_single combines).2
  rw [value, first, second, Option.bind_some, Option.bind_some, combines.binary]

section

variable (combines : Combines operator combine) (holds : S.FoldsTo at_ operator terms v)

include combines holds

theorem FoldsTo.flatten : S.FoldsTo at_ operator (Fusion.flatten terms operator) v := by
  suffices general : ∀ done, S.FoldsTo at_ operator (done ++ terms) v →
      S.FoldsTo at_ operator (done ++ Fusion.flatten terms operator) v from general [] holds
  clear holds
  induction terms with
  | nil => exact fun done holds => holds
  | cons term terms ih =>
    intro done holds
    have next : Fusion.flatten (term :: terms) operator =
        Fusion.flatten [term] operator ++ Fusion.flatten terms operator := by
      simp [Fusion.flatten]
    rw [next, ← append_assoc]
    apply ih
    cases term with
    | binary inner left right =>
      by_cases same : inner = operator
      · subst same
        have first := holds.perm combines perm_middle
        have opened := ((foldsTo_node combines).1 first)
        have moved : (left :: right :: (done ++ terms)).Perm (done ++ [left, right] ++ terms) := by
          rw [append_assoc]
          exact (perm_append_comm_assoc [left, right] done terms)
        simpa [Fusion.flatten] using opened.perm combines moved
      · simpa [Fusion.flatten, same] using holds
    | constant literal | var name | unary inner operand => simpa [Fusion.flatten] using holds

theorem FoldsTo.sort : S.FoldsTo at_ operator (Expr.sort terms) v :=
  holds.perm combines (perm_insertionSort _ _).symm

end

end Scalars

section Steps

open Scalars

variable {S : Scalars L K} {at_ : Variable → K} {operator : BinaryOp} {combine : K → K → K}
  {terms : List (Expr L)} {v : K}

section

variable (combines : Combines operator combine)

include combines

theorem finish_worth {empty : L} (unit : ∀ v, Folds operator [] v → S.read empty = some v)
    (holds : S.FoldsTo at_ operator terms v) :
    Yields S (finish operator empty terms) fun n => S.value at_ n = some v := by
  induction terms generalizing v with
  | nil => exact yields_pure (unit v holds.2)
  | cons term terms ih =>
    cases terms with
    | nil => exact yields_pure ((foldsTo_single combines).1 holds)
    | cons next rest =>
      obtain ⟨a, w, has, folds, rfl⟩ := foldsTo_cons combines (cons_ne_nil _ _) holds
      apply yields_bind (ih folds)
      intro node worth
      apply yields_spend
      apply yields_pure
      simp only [value, has, worth, Option.bind_some, combines.binary]

theorem gatherConstants_worth (literal : L → L → L) (accumulated : Option L)
    (done : List (Expr L))
    (holds : S.FoldsTo at_ operator (done ++ (accumulated.toList.map .constant ++ terms)) v) :
    Yields S (gatherConstants operator literal accumulated terms) fun gathered =>
      S.FoldsTo at_ operator (done ++ (gathered.2 ++ gathered.1.toList.map .constant)) v := by
  induction terms generalizing accumulated done with
  | nil =>
    unfold gatherConstants
    apply yields_pure
    simpa using holds
  | cons term terms ih =>
    have others : ∀ accumulated, S.FoldsTo at_ operator
          (done ++ (accumulated.toList.map Expr.constant ++ term :: terms)) v →
        Yields S (gatherConstants operator literal accumulated terms >>= fun gathered =>
          pure (gathered.1, term :: gathered.2)) fun gathered =>
            S.FoldsTo at_ operator (done ++ (gathered.2 ++ gathered.1.toList.map Expr.constant)) v := by
      intro accumulated holds
      have moved : (done ++ (accumulated.toList.map Expr.constant ++ term :: terms)).Perm
          (done ++ [term] ++ (accumulated.toList.map Expr.constant ++ terms)) := by
        rw [append_assoc]
        exact List.Perm.append_left _ perm_middle
      apply yields_bind (ih accumulated (done ++ [term]) (holds.perm combines moved))
      intro gathered folds
      apply yields_pure
      simpa using folds
    cases term with
    | constant value =>
      cases accumulated with
      | none =>
        unfold gatherConstants
        exact ih (some value) done (by simpa using holds)
      | some previous =>
        unfold gatherConstants
        apply yields_note
        intro exact_
        apply ih
        have first : S.FoldsTo at_ operator
            (.constant previous :: .constant value :: (done ++ terms)) v := by
          apply holds.perm combines
          simpa using (perm_append_comm_assoc done [Expr.constant previous, .constant value] terms)
        have merged := ((foldsTo_node combines).2 first).replace (exact_ at_)
        apply merged.perm combines
        simpa using (perm_append_comm_assoc [Expr.constant (literal previous value)] done terms)
    | var name | unary inner operand | binary inner left right =>
      unfold gatherConstants; exact others accumulated holds

theorem foldConstants_worth (literal : L → L → L) (holds : S.FoldsTo at_ operator terms v) :
    Yields S (foldConstants operator literal terms) fun folded => S.FoldsTo at_ operator folded v := by
  unfold foldConstants
  apply yields_bind (gatherConstants_worth combines literal none [] holds)
  intro gathered folds
  exact yields_pure folds

end

end Steps

section Sums

open Scalars

variable {S : Scalars L K} {at_ : Variable → K} {operator : BinaryOp} {combine : K → K → K}
  {terms : List (Expr L)} {v : K}

theorem value_of_isLiteral {term : Expr L} {literal : L} {u a : K}
    (reads : ∀ other v, eq other literal → S.read other = some v → v = u)
    (is : term.isLiteral literal) (has : S.value at_ term = some a) : a = u := by
  cases term with
  | constant other => exact reads other a (by simpa [Expr.isLiteral, Expr.asConstant] using is) has
  | var name | unary inner operand | binary inner left right =>
    simp [Expr.isLiteral, Expr.asConstant] at is

variable [IsStrictOrderedRing K]

theorem foldsTo_withoutZeros (holds : S.FoldsTo at_ .add terms v) :
    S.FoldsTo at_ .add (terms.filter fun term => !term.isLiteral zero) v := by
  obtain ⟨has, folds⟩ := holds
  refine ⟨fun term member => has term (mem_of_mem_filter member), ?_⟩
  rw [← show _ = v from folds]
  clear folds
  show List.sum _ = List.sum _
  induction terms with
  | nil => rfl
  | cons term terms ih =>
    have rest := ih fun other member => has other (mem_cons_of_mem _ member)
    obtain ⟨a, first⟩ := has term mem_cons_self
    cases is : term.isLiteral zero with
    | false => simp [is, rest]
    | true =>
      have zero := value_of_isLiteral S.isZero is first
      simp [is, rest, amount_of_value first, zero]

theorem foldsTo_withoutOnes (holds : S.FoldsTo at_ .mul terms v) :
    S.FoldsTo at_ .mul (terms.filter fun factor => !factor.isLiteral one) v := by
  obtain ⟨has, folds⟩ := holds
  refine ⟨fun factor member => has factor (mem_of_mem_filter member), ?_⟩
  rw [← show _ = v from folds]
  clear folds
  show List.prod _ = List.prod _
  induction terms with
  | nil => rfl
  | cons factor factors ih =>
    have rest := ih fun other member => has other (mem_cons_of_mem _ member)
    obtain ⟨a, first⟩ := has factor mem_cons_self
    cases is : factor.isLiteral one with
    | false => simp [is, rest]
    | true =>
      have one := value_of_isLiteral S.isOne is first
      simp [is, rest, amount_of_value first, one]

theorem product_zero (holds : S.FoldsTo at_ .mul terms v)
    (zero : (terms.any fun factor => factor.isLiteral zero)) : v = 0 := by
  obtain ⟨has, folds⟩ := holds
  obtain ⟨factor, member, is⟩ := any_eq_true.1 zero
  obtain ⟨a, value⟩ := has factor member
  have amount : S.amount at_ factor = 0 := by
    rw [amount_of_value value, value_of_isLiteral S.isZero is value]
  rw [← show _ = v from folds]
  exact prod_eq_zero (amount ▸ mem_map_of_mem member)

theorem foldsTo_withoutOpposites {first second : Expr L}
    (opposite : first = .unary .neg second ∨ second = .unary .neg first)
    (holds : S.FoldsTo at_ .add (first :: second :: terms) v) : S.FoldsTo at_ .add terms v := by
  obtain ⟨has, folds⟩ := holds
  refine ⟨fun term member => has term (mem_cons_of_mem _ (mem_cons_of_mem _ member)), ?_⟩
  obtain ⟨a, one⟩ := has first mem_cons_self
  obtain ⟨b, other⟩ := has second (mem_cons_of_mem _ mem_cons_self)
  have cancels : a + b = 0 := by
    rcases opposite with rfl | rfl
    · rw [value, other, Option.bind_some, unary, Option.some.injEq] at one
      rw [← one, neg_add_cancel]
    · rw [value, one, Option.bind_some, unary, Option.some.injEq] at other
      rw [← other, add_neg_cancel]
  change (S.amount at_ first + (S.amount at_ second + _)) = v at folds
  rw [amount_of_value one, amount_of_value other, ← add_assoc, cancels, zero_add] at folds
  exact folds

theorem oppositeOf_some {index position : Nat} {term : Expr L}
    (found : oppositeOf terms index term = some position) : index + 1 + position < terms.length := by
  unfold oppositeOf at found
  split at found
  · have bound := (List.findIdx?_eq_some_iff_findIdx_eq.1 found).1
    rw [length_drop] at bound
    omega
  · cases found

theorem cancelFrom_worth (steps index : Nat) (holds : S.FoldsTo at_ .add terms v) :
    Yields S (cancelFrom steps index terms) fun kept => S.FoldsTo at_ .add kept v := by
  induction steps generalizing index terms with
  | zero => exact yields_pure holds
  | succ steps ih =>
    unfold cancelFrom
    split
    · exact yields_pure holds
    next term found =>
    split
    · exact ih (index + 1) holds
    next position opposite =>
    have bound := oppositeOf_some opposite
    have below : position < terms.length := by omega
    have below' : index < (terms.eraseIdx position).length := by
      rw [length_eraseIdx_of_lt below]
      omega
    apply yields_note
    intro exact_
    rw [getElem?_eq_getElem below, getElem?_eq_getElem below', Option.getD_some,
      Option.getD_some] at exact_
    apply ih
    apply foldsTo_withoutOpposites exact_
    apply holds.perm combines_add
    have second := getElem_cons_eraseIdx_perm below'
    have first := getElem_cons_eraseIdx_perm below
    exact ((second.cons _).trans first).symm

theorem additiveSum_worth (holds : S.FoldsTo at_ .add terms v) :
    Yields S (additiveSum terms) fun n => S.value at_ n = some v := by
  unfold additiveSum
  apply yields_bind (cancelFrom_worth _ 0 (holds.sort combines_add))
  intro kept folds
  exact finish_worth combines_add (fun w empty => by rw [S.zero, ← show 0 = w from empty]) folds

theorem buildSumTerms_worth {builder : List (Expr L) → Builder L (Expr L)}
    (builds : ∀ kept, S.FoldsTo at_ .add kept v →
      Yields S (builder kept) fun n => S.value at_ n = some v)
    (holds : S.FoldsTo at_ .add terms v) :
    Yields S (buildSumTerms builder terms) fun n => S.value at_ n = some v := by
  unfold buildSumTerms
  apply yields_bind (foldConstants_worth combines_add add holds)
  intro folded folds
  apply yields_bind (cancelFrom_worth _ 0 ((foldsTo_withoutZeros folds).sort combines_add))
  intro kept folds
  split
  · exact builds kept folds
  · exact additiveSum_worth folds

end Sums

section Relations

open Scalars

variable {S : Scalars L K} {at_ : Variable → K} {terms : List (Expr L)} {v : K}

theorem Relation.operator_of {operator : BinaryOp} {relation : Relation}
    (of : Relation.of operator = some relation) : operator = relation.operator := by
  cases operator <;> cases of <;> rfl

theorem Relation.combines (relation : Relation) :
    ∃ combine : K → K → K, Combines relation.operator combine := by
  cases relation with
  | max => exact ⟨_, combines_max⟩
  | min => exact ⟨_, combines_min⟩

theorem relationOperands_ne_nil (relation : Relation) (term : Expr L) :
    relationOperands relation term ≠ [] := by
  cases term with
  | binary operator left right =>
    unfold relationOperands
    split
    · exact fun none => relationOperands_ne_nil relation left (append_eq_nil_iff.1 none).1
    · exact cons_ne_nil _ _
  | constant literal | var name | unary operator operand => exact cons_ne_nil _ _

theorem relationOperands_worth (relation : Relation) {term : Expr L}
    (worth : S.value at_ term = some v) :
    S.FoldsTo at_ relation.operator (relationOperands relation term) v := by
  obtain ⟨combine, combines⟩ := Relation.combines (K := K) relation
  induction term generalizing v with
  | binary operator left right ihLeft ihRight =>
    unfold relationOperands
    split
    · next of =>
      obtain ⟨a, left', has⟩ := Option.bind_eq_some_iff.1 worth
      obtain ⟨b, right', has⟩ := Option.bind_eq_some_iff.1 has
      rw [Relation.operator_of of, combines.binary, Option.some.injEq] at has
      have first := ihLeft left'
      have second := ihRight right'
      refine ⟨fun other member => ?_, ?_⟩
      · rcases mem_append.1 member with here | there
        · exact first.1 other here
        · exact second.1 other there
      · rw [map_append, ← has]
        exact combines.bag.append (by simp [relationOperands_ne_nil])
          (by simp [relationOperands_ne_nil]) first.2 second.2
    · exact (foldsTo_single combines).2 worth
  | constant literal | var name | unary operator operand => exact (foldsTo_single combines).2 worth

theorem relationParts_some {term : Expr L} {parts : Relation × List (Expr L)}
    (found : relationParts term = some parts) : parts.2 = relationOperands parts.1 term := by
  obtain ⟨operator, -, found⟩ := Option.bind_eq_some_iff.1 found
  obtain ⟨relation, -, rfl⟩ := Option.map_eq_some_iff.1 found
  rfl

theorem Relation.folds_nil (relation : Relation) (v : K) : ¬ Folds relation.operator [] v := by
  cases relation <;> exact fun holds => absurd holds.1 not_mem_nil

theorem buildRelation_worth (relation : Relation)
    (holds : S.FoldsTo at_ relation.operator terms v) :
    Yields S (buildRelation terms relation) fun n => S.value at_ n = some v := by
  obtain ⟨combine, combines⟩ := Relation.combines (K := K) relation
  unfold buildRelation
  apply yields_note
  intro exact_
  rcases exact_ with none | all
  · rw [filter_eq_self.2 fun operand member => by rw [none operand member]; rfl]
    exact finish_worth combines (fun w empty => absurd empty (relation.folds_nil w)) holds
  · rw [filter_eq_nil_iff.2 fun operand member => by rw [all operand member]; simp]
    apply yields_pure
    have member : v ∈ terms.map (S.amount at_) := by
      cases relation <;> exact holds.2.1
    obtain ⟨term, listed, same⟩ := mem_map.1 member
    obtain ⟨a, has⟩ := holds.1 term listed
    have zero := value_of_isLiteral S.isZero (all term listed) has
    rw [← same, amount_of_value has, zero]
    exact S.zero

variable [IsStrictOrderedRing K]

theorem Relation.folds_add (relation : Relation) {values : List K} (k : K)
    (folds : Folds relation.operator values v) :
    Folds relation.operator (values.map fun a => a + k) (v + k) := by
  cases relation <;>
    exact ⟨mem_map_of_mem folds.1, fun w member => by
      obtain ⟨a, listed, rfl⟩ := mem_map.1 member
      exact add_le_add_left (folds.2 a listed) k⟩

theorem Relation.folds_neg (relation : Relation) {values : List K}
    (folds : Folds relation.operator values v) :
    Folds relation.dual.operator (values.map fun a => -a) (-v) := by
  cases relation <;>
    exact ⟨mem_map_of_mem folds.1, fun w member => by
      obtain ⟨a, listed, rfl⟩ := mem_map.1 member
      exact neg_le_neg (folds.2 a listed)⟩

end Relations

end LichenVm.Fusion
