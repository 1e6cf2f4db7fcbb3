import Mathlib.Algebra.Order.Ring.Nat
import Mathlib.Data.List.Basic
import Mathlib.Data.List.Nodup

/-- A binary tree of queries, the zero arm first, with an occurrence at each leaf. -/
inductive DecisionTree (Q L : Type) where
  | leaf (occurrence : L)
  | query (condition : Q) (zero one : DecisionTree Q L)

open List

namespace DecisionTree

/-- Where one outcome of a row goes: another row of the table, or a leaf. -/
inductive Target (L : Type) where
  | row (index : Nat)
  | leaf (occurrence : L)

/-- One query of a tree, as a row of a table. -/
structure Row (Q L : Type) where
  condition : Q
  onOne : Target L
  onZero : Target L

variable {Q L : Type}

/-- The leaf a tree selects, read from the root. -/
def eval (σ : Q → Bool) : DecisionTree Q L → L
  | leaf occurrence => occurrence
  | query condition zero one => if σ condition then one.eval σ else zero.eval σ

def leaves : DecisionTree Q L → List L
  | leaf occurrence => [occurrence]
  | query _ zero one => zero.leaves ++ one.leaves

def IsQuery : DecisionTree Q L → Prop
  | leaf _ => False
  | query _ _ _ => True

/-- A tree with one query: both of its arms are leaves. -/
def Flat : DecisionTree Q L → Prop
  | leaf _ => False
  | query _ zero one => ¬ zero.IsQuery ∧ ¬ one.IsQuery

/-- Append a tree's rows to a table, a query behind the queries of its arms, and answer
where the tree starts. -/
def layOut (rows : List (Row Q L)) : DecisionTree Q L → Target L × List (Row Q L)
  | leaf occurrence => (.leaf occurrence, rows)
  | query condition zero one =>
    let (onZero, rows) := zero.layOut rows
    let (onOne, rows) := one.layOut rows
    (.row rows.length, rows ++ [{ condition, onOne, onZero }])

/-- Follow a table from a target. The fuel bounds the rows passed. -/
def follow (rows : List (Row Q L)) (σ : Q → Bool) : Nat → Target L → Option L
  | _, .leaf occurrence => some occurrence
  | 0, .row _ => none
  | fuel + 1, .row index =>
    match rows[index]? with
    | none => none
    | some row => follow rows σ fuel (if σ row.condition then row.onOne else row.onZero)

/-- Following the table from `target` ends at `occurrence`. -/
def Ends (rows : List (Row Q L)) (σ : Q → Bool) (target : Target L) (occurrence : L) : Prop :=
  ∃ fuel, follow rows σ fuel target = some occurrence

theorem follow_mono (rows : List (Row Q L)) (σ : Q → Bool) (fuel more : Nat) (target : Target L)
    (occurrence : L) (ends : follow rows σ fuel target = some occurrence) (longer : fuel ≤ more) :
    follow rows σ more target = some occurrence := by
  induction fuel generalizing more target with
  | zero =>
    cases target with
    | leaf other => cases more <;> simpa [follow] using ends
    | row index => simp [follow] at ends
  | succ fuel ih =>
    cases target with
    | leaf other => cases more <;> simpa [follow] using ends
    | row index =>
      obtain ⟨more, rfl⟩ : ∃ less, more = less + 1 := ⟨more - 1, by omega⟩
      simp only [follow] at ends ⊢
      cases found : rows[index]? with
      | none => simp [found] at ends
      | some row =>
        simp only [found] at ends ⊢
        exact ih more _ ends (by omega)

theorem Ends.unique {rows : List (Row Q L)} {σ : Q → Bool} {target : Target L} {first second : L}
    (one : Ends rows σ target first) (two : Ends rows σ target second) : first = second := by
  obtain ⟨fuel, one⟩ := one
  obtain ⟨fuel', two⟩ := two
  have left := follow_mono rows σ fuel (max fuel fuel') target first one (Nat.le_max_left _ _)
  have right := follow_mono rows σ fuel' (max fuel fuel') target second two (Nat.le_max_right _ _)
  exact Option.some.inj (left.symm.trans right)

theorem Ends.leaf (rows : List (Row Q L)) (σ : Q → Bool) (occurrence : L) :
    Ends rows σ (.leaf occurrence) occurrence := ⟨0, rfl⟩

theorem Ends.row {rows : List (Row Q L)} {σ : Q → Bool} {index : Nat} {row : Row Q L}
    {occurrence : L} (found : rows[index]? = some row)
    (ends : Ends rows σ (if σ row.condition then row.onOne else row.onZero) occurrence) :
    Ends rows σ (.row index) occurrence := by
  obtain ⟨fuel, ends⟩ := ends
  refine ⟨fuel + 1, ?_⟩
  simpa only [follow, found] using ends

theorem layOut_extends (tree : DecisionTree Q L) (rows : List (Row Q L)) :
    rows <+: (tree.layOut rows).2 := by
  induction tree generalizing rows with
  | leaf occurrence => exact prefix_rfl
  | query condition zero one zero_ih one_ih =>
    exact ((zero_ih rows).trans (one_ih _)).trans (prefix_append _ _)

theorem getElem?_of_front {rows table : List (Row Q L)} (front : rows <+: table) (index : Nat)
    (row : Row Q L) (found : rows[index]? = some row) : table[index]? = some row := by
  obtain ⟨inside, rfl⟩ := List.getElem?_eq_some_iff.1 found
  exact prefix_iff_getElem?.1 front index inside

section

variable (σ : Q → Bool) (tree : DecisionTree Q L)

theorem ends_layOut (rows table : List (Row Q L)) (front : (tree.layOut rows).2 <+: table) :
    Ends table σ (tree.layOut rows).1 (tree.eval σ) := by
  induction tree generalizing rows with
  | leaf occurrence => exact Ends.leaf table σ occurrence
  | query condition zero one zero_ih one_ih =>
    have one_front : (one.layOut (zero.layOut rows).2).2 <+: table :=
      (prefix_append _ _).trans front
    have zero_front : (zero.layOut rows).2 <+: table :=
      (layOut_extends one _).trans one_front
    refine Ends.row (getElem?_of_front front _ _ (getElem?_concat_length ..)) ?_
    by_cases chosen : σ condition
    · simp only [eval, chosen, if_true]
      exact one_ih _ one_front
    · simp only [eval, chosen, if_false, Bool.false_eq_true]
      exact zero_ih rows zero_front

theorem eval_mem_leaves : tree.eval σ ∈ tree.leaves := by
  induction tree with
  | leaf occurrence => simp [eval, leaves]
  | query condition zero one zero_ih one_ih =>
    simp only [eval, leaves]
    split
    · exact mem_append_right _ one_ih
    · exact mem_append_left _ zero_ih

end

theorem layOut_of_not_query (tree : DecisionTree Q L) (rows : List (Row Q L))
    (single : ¬ tree.IsQuery) : (tree.layOut rows).2 = rows := by
  cases tree with
  | leaf occurrence => rfl
  | query condition zero one => exact absurd trivial single

/-- The first row a tree lays out leads to one of the tree's own leaves. -/
theorem first_row_ends (σ : Q → Bool) (tree : DecisionTree Q L) (rows table : List (Row Q L))
    (front : (tree.layOut rows).2 <+: table) (nested : tree.IsQuery) :
    ∃ occurrence ∈ tree.leaves, Ends table σ (.row rows.length) occurrence := by
  induction tree generalizing rows with
  | leaf occurrence => exact absurd nested id
  | query condition zero one zero_ih one_ih =>
    have one_front : (one.layOut (zero.layOut rows).2).2 <+: table :=
      (prefix_append _ _).trans front
    by_cases zero_nested : zero.IsQuery
    · obtain ⟨occurrence, member, ends⟩ :=
        zero_ih rows ((layOut_extends one _).trans one_front) zero_nested
      exact ⟨occurrence, mem_append_left _ member, ends⟩
    · by_cases one_nested : one.IsQuery
      · have same := layOut_of_not_query zero rows zero_nested
        rw [same] at one_front
        obtain ⟨occurrence, member, ends⟩ := one_ih rows one_front one_nested
        exact ⟨occurrence, mem_append_right _ member, ends⟩
      · -- Both arms are leaves: the first row is the query's own.
        have own : (((query condition zero one).layOut rows).1 : Target L) = .row rows.length := by
          simp only [layOut]
          rw [layOut_of_not_query one _ one_nested, layOut_of_not_query zero _ zero_nested]
        refine ⟨_, eval_mem_leaves σ (query condition zero one), ?_⟩
        rw [← own]
        exact ends_layOut σ _ rows table front

/-- Reading a laid-out table from its first row reads the tree from its root exactly when
the tree has no query but the root. -/
theorem first_row_reads_root_iff (condition : Q) (zero one : DecisionTree Q L)
    (distinct : (query condition zero one).leaves.Nodup) :
    (∀ σ, Ends ((query condition zero one).layOut []).2 σ (.row 0)
        ((query condition zero one).eval σ)) ↔
      (query condition zero one).Flat := by
  obtain ⟨-, -, apart⟩ := nodup_append.1 distinct
  have one_front : (one.layOut (zero.layOut []).2).2 <+: ((query condition zero one).layOut []).2 :=
    prefix_append _ _
  constructor
  · intro reads
    have zero_leaf : ¬ zero.IsQuery := fun zero_nested => by
      obtain ⟨occurrence, member, ends⟩ := first_row_ends (fun _ => true) zero [] _
        ((layOut_extends one _).trans one_front) zero_nested
      have same := ends.unique (reads fun _ => true)
      exact apart _ member _ (eval_mem_leaves _ one) same
    refine ⟨zero_leaf, fun one_nested => ?_⟩
    rw [layOut_of_not_query zero _ zero_leaf] at one_front
    obtain ⟨occurrence, member, ends⟩ := first_row_ends (fun _ => false) one [] _
      one_front one_nested
    have same := ends.unique (reads fun _ => false)
    exact apart _ (eval_mem_leaves _ zero) _ member same.symm
  · rintro ⟨zero_leaf, one_leaf⟩ σ
    have own : ((query condition zero one).layOut []).1 = .row 0 := by
      simp only [layOut]
      rw [layOut_of_not_query one _ one_leaf, layOut_of_not_query zero _ zero_leaf]
      rfl
    rw [← own]
    exact ends_layOut σ _ [] _ prefix_rfl

end DecisionTree
