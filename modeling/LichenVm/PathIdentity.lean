import LichenVm.Paths
import LichenVm.Occurrences
import Mathlib.Data.List.Nodup
import Mathlib.Data.List.ReduceOption

/-! A path names one position. -/

open List

namespace LichenVm.Ast

/-- Follow a path from a list of positions, one step at a time. -/
def resolveFrom (positions : List (Step × Node)) (node : Option Node) : Path → Option Node
  | [] => node
  | step :: rest =>
    match positions.find? fun place => place.1 = step with
    | none => none
    | some place => resolveFrom (children place.2.value) (some place.2) rest

/-- What a path resolves to. The root itself is no position. -/
def resolve (p : Program) (path : Path) : Option Node := resolveFrom (rootChildren p) none path

/-- A binding or a record field. -/
def Node.isEntry : Node → Bool
  | .expr _ => false
  | _ => true

/-- The bindings and fields of a block's own list. -/
def ownEntries : Expr → List Node
  | .block statements _ _ => (statements.map Stmt.node).filter Node.isEntry
  | .recordBlock fields _ => fields.map .field
  | _ => []

/-- Every binding and every record field of a program. -/
def entries (p : Program) : List Node :=
  (p.statements.map fun statement => statement.stmt.node).filter Node.isEntry ++
    (p.statements.map (fun statement => statement.stmt.value) ++ p.expr.toList).flatMap fun e =>
      (occurrences e).flatMap ownEntries

section Values

theorem map_zipIdx {α β : Type} (value : α → β) (items : List α) (first : Nat) :
    (items.zipIdx first).map (fun place => value place.1) = items.map value := by
  induction items generalizing first with
  | nil => rfl
  | cons item items ih => rw [zipIdx_cons, map_cons, map_cons, ih]

variable (first : Nat)

theorem indexed_nodes (values : List Expr) :
    (indexed first values).map Prod.snd = values.map .expr := by
  rw [indexed, map_map]
  exact map_zipIdx Node.expr values 0

theorem opt_nodes (index : Nat) (value : Option Expr) :
    (opt index value).map Prod.snd = value.toList.map .expr := by
  cases value <;> rfl

variable (fields : List (StructFieldValue Expr))

theorem fieldValuePositions_nodes :
    (fieldValuePositions first fields).map Prod.snd =
      (fields.map StructFieldValue.value).map .expr := by
  rw [fieldValuePositions, map_map, map_map]
  exact map_zipIdx (fun field : StructFieldValue Expr => Node.expr field.value) fields 0

theorem stmtPositions_nodes (statements : List (Stmt Expr)) :
    (stmtPositions statements).map Prod.snd = statements.map Stmt.node := by
  rw [stmtPositions, map_map]
  exact map_zipIdx Stmt.node statements 0

theorem node_value (statement : Stmt Expr) : statement.node.value = statement.value := by
  cases statement <;> rfl

/-- An expression without a transparent wrapper. -/
def Bare (e : Expr) : Prop := ∀ inner span, e ≠ .gc inner span

theorem values_eq {positions : List (Step × Node)} {values : List Expr}
    (nodes : positions.map Prod.snd = values.map .expr) :
    positions.map (fun place => place.2.value) = values := by
  have both := congrArg (List.map Node.value) nodes
  rw [map_map, map_map] at both
  exact both.trans (map_id _)

theorem indexed_values (values : List Expr) :
    (indexed first values).map (fun place => place.2.value) = values :=
  values_eq (indexed_nodes first values)

theorem opt_values (index : Nat) (value : Option Expr) :
    (opt index value).map (fun place => place.2.value) = value.toList :=
  values_eq (opt_nodes index value)

theorem fieldValuePositions_values :
    (fieldValuePositions first fields).map (fun place => place.2.value) =
      fields.map StructFieldValue.value :=
  values_eq (fieldValuePositions_nodes first fields)

theorem stmtPositions_values (statements : List (Stmt Expr)) :
    (stmtPositions statements).map (fun place => place.2.value) = statements.map Stmt.value := by
  have both := congrArg (List.map Node.value) (stmtPositions_nodes statements)
  rw [map_map, map_map] at both
  exact both.trans (map_congr_left fun statement _ => node_value statement)

theorem fields_values (fields : List (RecordField Expr)) (repeated : List Text) :
    (fields.zipIdx.map fun place => ((fieldStep place.1.name place.2 repeated, .field place.1) :
        Step × Node)).map (fun place => place.2.value) = fields.map RecordField.value := by
  rw [map_map]
  exact map_zipIdx RecordField.value fields 0

/-- The positions below an expression hold its parts. -/
theorem children_values {e : Expr} (bare : Bare e) :
    ((children e).map fun place => place.2.value).Perm (parts e) := by
  cases e with
  | gc inner span => exact absurd rfl (bare inner span)
  | int | float | str | typeConst | name | placeholder | any | err => exact .refl _
  | lambda parameter parameterSpan binder type perspective body span =>
    rw [children, map_append, map_append, opt_values, opt_values]
    exact .refl _
  | apply | unify | templateUnify | binOp | cond | assert | index | fieldRead | namedFieldRead
  | tableFind | typeSet | typeTable | array | shallow | keyword | nativeCall | tuple | set
  | arrayInst | table =>
    rw [children, indexed_values]
    exact .refl _
  | annotated value type perspective refinement doc marks span =>
    rw [children, map_append, map_append, map_append, map_append,
      indexed_values, opt_values, opt_values, opt_values, opt_values, parts]
    simp only [cons_append, nil_append, append_assoc]
    exact .cons _ (.append_left _ (.append_left _ perm_append_comm))
  | structInst callee fields span =>
    rw [children, map_append, indexed_values, fieldValuePositions_values]
    exact .refl _
  | structValue fields span =>
    rw [children, fieldValuePositions_values]
    exact .refl _
  | block statements result span =>
    rw [children, map_append, stmtPositions_values]
    exact .refl _
  | recordBlock fields span =>
    rw [children, fields_values]
    exact .refl _

end Values

@[elab_as_elim]
theorem children_induction {P : Expr → Prop}
    (step : ∀ e, (∀ place ∈ children e, P place.2.value) → P e) (e : Expr) : P e := by
  have both : P e ∧ ∀ place ∈ children e, P place.2.value := by
    induction e using parts_induction with
    | step e own =>
      have below : ∀ place ∈ children e, P place.2.value := by
        intro place inside
        by_cases wrapped : Bare e
        · have part := (children_values wrapped).subset (mem_map_of_mem inside)
          exact (own _ part).1
        · simp only [Bare, not_forall, not_not] at wrapped
          obtain ⟨inner, span, rfl⟩ := wrapped
          exact (own inner (mem_singleton_self _)).2 place inside
      exact ⟨step e below, below⟩
  exact both.1

section Descent

theorem belowAll_eq (values : List Expr) : belowAll values = values.map descend := by
  induction values with
  | nil => rfl
  | cons value rest ih => rw [belowAll, ih]; rfl

theorem belowOpt_eq (value : Option Expr) : belowOpt value = value.toList.map descend := by
  cases value with
  | none => rfl
  | some inner => rw [belowOpt]; rfl

theorem belowFields_eq (fields : List (StructFieldValue Expr)) :
    belowFields fields = (fields.map StructFieldValue.value).map descend := by
  induction fields with
  | nil => rfl
  | cons field rest ih => rw [belowFields.eq_def]; simp only [ih]; rfl

theorem belowPairs_eq (entries : List (Expr × Expr)) :
    belowPairs entries = (entries.flatMap fun entry => [entry.1, entry.2]).map descend := by
  induction entries with
  | nil => rfl
  | cons entry rest ih => rw [belowPairs.eq_def]; simp only [ih]; rfl

theorem belowStmts_eq (statements : List (Stmt Expr)) :
    belowStmts statements = (statements.map Stmt.value).map descend := by
  induction statements with
  | nil => rfl
  | cons statement rest ih => cases statement <;> (rw [belowStmts.eq_def]; simp only [ih]; rfl)

theorem belowRecord_eq (fields : List (RecordField Expr)) :
    belowRecord fields = (fields.map RecordField.value).map descend := by
  induction fields with
  | nil => rfl
  | cons field rest ih => rw [belowRecord.eq_def]; simp only [ih]; rfl

/-- Each position is walked below. -/
theorem below_eq (e : Expr) :
    below e = ((children e).map fun place => place.2.value).map descend := by
  induction e using parts_induction with
  | step e own =>
    cases e with
    | gc inner span => rw [below, children, own inner (mem_singleton_self _)]
    | int | float | str | typeConst | name | placeholder | any | err => simp [below, children]
    | lambda parameter parameterSpan binder type perspective body span =>
      rw [below, children]
      simp only [map_append, opt_values, belowOpt_eq]
      rfl
    | apply | unify | templateUnify | binOp | cond | assert | index | fieldRead | namedFieldRead
    | tableFind | typeSet | typeTable | array | shallow =>
      rfl
    | keyword | nativeCall | tuple | set => rw [below, children, indexed_values, belowAll_eq]
    | annotated value type perspective refinement doc marks span =>
      rw [below, children]
      simp only [map_append, indexed_values, opt_values, belowOpt_eq, append_assoc,
        map_cons, cons_append, nil_append]
      rfl
    | structInst callee fields span =>
      rw [below, children, map_append, indexed_values, fieldValuePositions_values, belowFields_eq]
      rfl
    | structValue fields span =>
      rw [below, children, fieldValuePositions_values, belowFields_eq]
    | arrayInst template elements span =>
      rw [below, children, indexed_values, belowAll_eq]
      rfl
    | table entries span => rw [below, children, indexed_values, belowPairs_eq]
    | block statements result span =>
      rw [below, children, map_append, stmtPositions_values, map_append, belowStmts_eq]
      rfl
    | recordBlock fields span => rw [below, children, fields_values, belowRecord_eq]

/-- Every position of a list and everything below, depth first, with its path. -/
def descendFrom (positions : List (Step × Node)) (path : Path) : List (Path × Node) :=
  positions.flatMap fun place =>
    (path ++ [place.1], place.2) :: descend place.2.value (path ++ [place.1])

theorem descendAll_eq (positions : List (Step × Node)) (path : Path) :
    descendAll positions ((positions.map fun place => place.2.value).map descend) path =
      descendFrom positions path := by
  induction positions with
  | nil => rfl
  | cons place positions ih =>
    exact congrArg _ ih

theorem descend_eq (e : Expr) (path : Path) : descend e path = descendFrom (children e) path := by
  rw [descend, below_eq, descendAll_eq]

theorem forEach_eq (p : Program) : forEach p = descendFrom (rootChildren p) [] := by
  rw [forEach, ← descendAll_eq, map_map]
  rfl

theorem mem_descendFrom {positions : List (Step × Node)} {path q : Path} {node : Node} :
    (q, node) ∈ descendFrom positions path ↔ ∃ place ∈ positions,
      (q = path ++ [place.1] ∧ node = place.2) ∨
        (q, node) ∈ descendFrom (children place.2.value) (path ++ [place.1]) := by
  unfold descendFrom
  rw [mem_flatMap]
  refine exists_congr fun place => and_congr_right fun _ => ?_
  rw [mem_cons, Prod.mk.injEq, descend_eq]
  rfl

theorem prefix_of_mem_descend (e : Expr) {path q : Path} {node : Node}
    (inside : (q, node) ∈ descend e path) : ∃ step rest, q = path ++ step :: rest := by
  induction e using children_induction generalizing path with
  | step e own =>
    rw [descend_eq, mem_descendFrom] at inside
    obtain ⟨place, member, ⟨rfl, -⟩ | inside⟩ := inside
    · exact ⟨place.1, [], rfl⟩
    · rw [← descend_eq] at inside
      obtain ⟨step, rest, rfl⟩ := own place member inside
      exact ⟨place.1, step :: rest, append_assoc ..⟩

end Descent

section Steps

theorem steps_indexed (first : Nat) (values : List Expr) :
    (indexed first values).map Prod.fst = (List.range' first values.length).map Step.index := by
  rw [indexed, map_map, List.range'_eq_map_range, range_eq_range', map_map,
    ← zipIdx_map_snd, map_map]
  rfl

theorem steps_opt (index : Nat) (value : Option Expr) :
    ((opt index value).map Prod.fst).Sublist [.index index] := by
  cases value with
  | none => exact nil_sublist _
  | some inner => exact .refl _

theorem place_of_unrepeated {names : List (Option Text)} {name : Text} {i j : Nat}
    (here : names[i]? = some (some name)) (there : names[j]? = some (some name))
    (once : name ∉ repeatedNames names) : i = j := by
  have count : names.count (some name) = 1 := by
    by_contra more
    refine once (mem_filter.2 ⟨?_, decide_eq_true more⟩)
    exact reduceOption_mem_iff.2 (mem_of_getElem? here)
  have twice {a b : Nat} (early : a < b) (first : names[a]? = some (some name))
      (second : names[b]? = some (some name)) : False := by
    have head : some name ∈ names.take b := by
      rw [← getElem?_take_of_lt early] at first
      exact mem_of_getElem? first
    have rest : some name ∈ names.drop b := by
      rw [← Nat.add_zero b, ← getElem?_drop] at second
      exact mem_of_getElem? second
    rw [← take_append_drop b names, count_append] at count
    have := one_le_count_iff.2 head
    have := one_le_count_iff.2 rest
    omega
  rcases Nat.lt_trichotomy i j with early | same | late
  · exact (twice early here there).elim
  · exact same
  · exact (twice late there here).elim

theorem fieldStep_inj {names : List (Option Text)} {first i j : Nat} {name name' : Option Text}
    (here : names[i]? = some name) (there : names[j]? = some name')
    (same : fieldStep name (i + first) (repeatedNames names) =
      fieldStep name' (j + first) (repeatedNames names)) : i = j := by
  have index {i j : Nat} (same : Step.index (i + first) = .index (j + first)) : i = j := by
    have := Step.index.inj same
    omega
  cases name with
  | none =>
    cases name' with
    | none => exact index same
    | some name' =>
      simp only [fieldStep] at same
      split at same
      · exact index same
      · cases same
  | some name =>
    cases name' with
    | none =>
      simp only [fieldStep] at same
      split at same
      · exact index same
      · cases same
    | some name' =>
      simp only [fieldStep] at same
      split at same
      · split at same
        · exact index same
        · cases same
      · next once =>
        split at same
        · cases same
        · cases same
          exact place_of_unrepeated here there once

theorem fieldSteps_nodup (names : List (Option Text)) (first : Nat) :
    (names.zipIdx.map fun place => fieldStep place.1 (place.2 + first) (repeatedNames names)).Nodup := by
  rw [List.Nodup, pairwise_map, pairwise_iff_getElem]
  intro i j inside inside' early same
  rw [length_zipIdx] at inside inside'
  rw [getElem_zipIdx, getElem_zipIdx, Nat.zero_add, Nat.zero_add] at same
  have := fieldStep_inj (getElem?_eq_getElem inside) (getElem?_eq_getElem inside') same
  omega

theorem fieldStep_ne_index {name : Option Text} {index first : Nat} {repeated : List Text}
    (below : index < first) (place : Nat) :
    fieldStep name (place + first) repeated ≠ .index index := by
  intro same
  cases name with
  | none =>
    have := Step.index.inj same
    omega
  | some name =>
    simp only [fieldStep] at same
    split at same
    · have := Step.index.inj same
      omega
    · cases same

theorem fieldStep_ne_tail (name : Option Text) (index : Nat) (repeated : List Text) :
    fieldStep name index repeated ≠ .tail := by
  cases name with
  | none => exact Step.noConfusion
  | some name =>
    simp only [fieldStep]
    split <;> exact Step.noConfusion

theorem fieldValueSteps (first : Nat) (fields : List (StructFieldValue Expr)) :
    (fieldValuePositions first fields).map Prod.fst =
      ((fields.map fun field => some field.name).zipIdx.map fun place =>
        fieldStep place.1 (place.2 + first) (repeatedNames (fields.map fun field => some field.name))) := by
  rw [fieldValuePositions, map_map, zipIdx_map, map_map]
  rfl

theorem stmtSteps (statements : List (Stmt Expr)) : (stmtPositions statements).map Prod.fst =
      ((statements.map Stmt.name).zipIdx.map fun place =>
        fieldStep place.1 (place.2 + 0) (repeatedNames (statements.map Stmt.name))) := by
  rw [stmtPositions, map_map, zipIdx_map, map_map]
  rfl

theorem statementSteps_nodup (statements : List (Stmt Expr)) {tail : List (Step × Node)}
    (tails : (tail.map Prod.fst).Sublist [.tail]) :
    ((stmtPositions statements ++ tail).map Prod.fst).Nodup := by
  rw [map_append, nodup_append]
  refine ⟨?_, tails.nodup (nodup_singleton _), fun step inside other ends same => ?_⟩
  · rw [stmtSteps]
    exact fieldSteps_nodup _ 0
  · rw [stmtSteps] at inside
    obtain ⟨place, -, rfl⟩ := mem_map.1 inside
    exact fieldStep_ne_tail _ _ _ (same.trans (mem_singleton.1 (tails.subset ends)))

/-- Siblings are reached by different steps. -/
theorem steps_nodup (e : Expr) : ((children e).map Prod.fst).Nodup := by
  induction e using parts_induction with
  | step e own =>
    cases e with
    | gc inner span => exact own inner (mem_singleton_self _)
    | int | float | str | typeConst | name | placeholder | any | err => exact nodup_nil
    | lambda parameter parameterSpan binder type perspective body span =>
      rw [children, map_append, map_append]
      have roles : ([.index 0] ++ [.index 1] ++ [.index 2] : List Step).Nodup := by decide
      exact (((steps_opt 0 type).append (steps_opt 1 perspective)).append (.refl _)).nodup roles
    | annotated value type perspective refinement doc marks span =>
      rw [children, map_append, map_append, map_append, map_append]
      have roles : ([.index 0] ++ [.index 1] ++ [.index 2] ++ [.index 3] ++ [.index 4] :
        List Step).Nodup := by decide
      exact (((((List.Sublist.refl _).append (steps_opt 1 type)).append
        (steps_opt 2 perspective)).append (steps_opt 3 doc)).append (steps_opt 4 refinement)).nodup
        roles
    | apply | unify | templateUnify | binOp | cond | assert | index | fieldRead | namedFieldRead
    | tableFind | typeSet | typeTable | array | shallow | keyword | nativeCall | tuple | set
    | arrayInst | table =>
      rw [children, steps_indexed]
      exact List.Nodup.map (fun _ _ same => Step.index.inj same) nodup_range'
    | structInst callee fields span =>
      rw [children, map_append, fieldValueSteps]
      refine nodup_cons.2 ⟨fun inside => ?_, fieldSteps_nodup _ 1⟩
      obtain ⟨place, -, same⟩ := mem_map.1 inside
      exact fieldStep_ne_index Nat.one_pos place.2 same
    | structValue fields span =>
      rw [children, fieldValueSteps]
      exact fieldSteps_nodup _ 0
    | block statements result span => exact statementSteps_nodup statements (.refl _)
    | recordBlock fields span =>
      have steps := fieldSteps_nodup (fields.map RecordField.name) 0
      rw [zipIdx_map, map_map] at steps
      rw [children, map_map]
      exact steps

theorem rootSteps_nodup (p : Program) : ((rootChildren p).map Prod.fst).Nodup := by
  refine statementSteps_nodup _ ?_
  cases p.expr with
  | none => exact nil_sublist _
  | some value => exact .refl _

end Steps

section Resolution

variable {positions : List (Step × Node)}

theorem find_step (steps : (positions.map Prod.fst).Nodup) {place : Step × Node}
    (inside : place ∈ positions) :
    positions.find? (fun other => other.1 = place.1) = some place := by
  induction positions with
  | nil => cases inside
  | cons head rest ih =>
    rw [map_cons, nodup_cons] at steps
    rcases mem_cons.1 inside with rfl | inside
    · rw [List.find?_cons_of_pos (by simp)]
    · rw [List.find?_cons_of_neg, ih steps.2 inside]
      rw [decide_eq_true_eq]
      intro same
      exact steps.1 (same ▸ mem_map_of_mem inside)

theorem resolveFrom_some {rest : Path} (longer : rest ≠ []) (node : Node) :
    resolveFrom positions (some node) rest = resolveFrom positions none rest := by
  cases rest with
  | nil => exact absurd rfl longer
  | cons step rest => rfl

/-- A path is reported with the node it resolves to. -/
theorem mem_descendFrom_iff (steps : (positions.map Prod.fst).Nodup) (path rest : Path)
    (node : Node) :
    (path ++ rest, node) ∈ descendFrom positions path ↔
      rest ≠ [] ∧ resolveFrom positions none rest = some node := by
  induction rest generalizing positions path with
  | nil =>
    refine iff_of_false (fun inside => ?_) fun both => both.1 rfl
    obtain ⟨place, -, ⟨same, -⟩ | inside⟩ := mem_descendFrom.1 inside
    · cases append_cancel_left same
    · rw [← descend_eq] at inside
      obtain ⟨step, rest, same⟩ := prefix_of_mem_descend _ inside
      rw [append_assoc] at same
      cases append_cancel_left same
  | cons step rest ih =>
    have below (place : Step × Node) : (path ++ place.1 :: rest, node) ∈
        descendFrom (children place.2.value) (path ++ [place.1]) ↔
          rest ≠ [] ∧ resolveFrom (children place.2.value) none rest = some node := by
      rw [append_cons path place.1 rest]
      exact ih (steps_nodup _) _
    have found {place : Step × Node} (inside : place ∈ positions) :
        resolveFrom positions none (place.1 :: rest) =
          resolveFrom (children place.2.value) (some place.2) rest := by
      rw [resolveFrom, find_step steps inside]
    constructor
    · intro inside
      refine ⟨cons_ne_nil _ _, ?_⟩
      obtain ⟨place, member, ⟨same, rfl⟩ | inside⟩ := mem_descendFrom.1 inside
      · cases append_cancel_left same
        exact found member
      · have longer := inside
        rw [← descend_eq] at longer
        obtain ⟨step', rest', same⟩ := prefix_of_mem_descend _ longer
        rw [append_assoc] at same
        have head := append_cancel_left same
        obtain ⟨rfl, -⟩ := head
        obtain ⟨longer, resolved⟩ := (below place).1 inside
        rw [found member, resolveFrom_some longer]
        exact resolved
    · rintro ⟨-, resolved⟩
      cases hit : positions.find? fun place => place.1 = step with
      | none =>
        rw [resolveFrom, hit] at resolved
        cases resolved
      | some place =>
        have member := mem_of_find?_eq_some hit
        have same : place.1 = step := by simpa using List.find?_some hit
        subst same
        rw [found member] at resolved
        refine mem_descendFrom.2 ⟨place, member, ?_⟩
        cases rest with
        | nil => exact .inl ⟨rfl, (Option.some.inj resolved).symm⟩
        | cons next rest =>
          exact .inr ((below place).2 ⟨cons_ne_nil _ _, resolved⟩)

theorem descendFrom_nodup (steps : (positions.map Prod.fst).Nodup) (path : Path)
    (below : ∀ place ∈ positions,
      ((descend place.2.value (path ++ [place.1])).map Prod.fst).Nodup) :
    ((descendFrom positions path).map Prod.fst).Nodup := by
  have starts {place : Step × Node} {q : Path} (inside : q ∈ (path ++ [place.1]) ::
      (descend place.2.value (path ++ [place.1])).map Prod.fst) :
      ∃ rest, q = path ++ place.1 :: rest := by
    rcases mem_cons.1 inside with rfl | inside
    · exact ⟨[], rfl⟩
    · obtain ⟨report, member, rfl⟩ := mem_map.1 inside
      obtain ⟨step, rest, same⟩ := prefix_of_mem_descend _ member
      exact ⟨step :: rest, by rw [same, append_assoc]; rfl⟩
  rw [descendFrom, map_flatMap, nodup_flatMap]
  refine ⟨fun place inside => ?_, ?_⟩
  · refine nodup_cons.2 ⟨fun itself => ?_, below place inside⟩
    obtain ⟨report, member, same⟩ := mem_map.1 itself
    obtain ⟨step, rest, longer⟩ := prefix_of_mem_descend _ member
    have clash := congrArg List.length (same.symm.trans longer)
    simp only [length_append, length_cons] at clash
    omega
  · rw [List.Nodup, pairwise_map] at steps
    refine steps.imp fun apart => ?_
    intro q here there
    obtain ⟨rest, same⟩ := starts here
    obtain ⟨rest', same'⟩ := starts there
    exact apart (List.cons.inj (append_cancel_left (same.symm.trans same'))).1

theorem descend_nodup (e : Expr) (path : Path) : ((descend e path).map Prod.fst).Nodup := by
  induction e using children_induction generalizing path with
  | step e own =>
    rw [descend_eq]
    exact descendFrom_nodup (steps_nodup e) path fun place inside => own place inside _

end Resolution

section Entries

theorem filter_exprs (values : List Expr) : (values.map Node.expr).filter Node.isEntry = [] := by
  induction values with
  | nil => rfl
  | cons value values ih => exact ih

theorem filter_fields (fields : List (RecordField Expr)) :
    (fields.map Node.field).filter Node.isEntry = fields.map .field := by
  induction fields with
  | nil => rfl
  | cons field fields ih => exact congrArg (Node.field field :: ·) ih

/-- The positions below an expression hold its own bindings and fields. -/
theorem isEntry_children {e : Expr} (bare : Bare e) :
    ((children e).map Prod.snd).filter Node.isEntry = ownEntries e := by
  cases e with
  | gc inner span => exact absurd rfl (bare inner span)
  | int | float | str | typeConst | name | placeholder | any | err => rfl
  | lambda parameter parameterSpan binder type perspective body span =>
    simp only [children, map_append, opt_nodes, filter_append, filter_exprs]
    rfl
  | apply | unify | templateUnify | binOp | cond | assert | index | fieldRead | namedFieldRead
  | tableFind | typeSet | typeTable | array | shallow | keyword | nativeCall | tuple | set
  | arrayInst | table =>
    rw [children, indexed_nodes, filter_exprs]
    rfl
  | annotated value type perspective refinement doc marks span =>
    simp only [children, map_append, opt_nodes, indexed_nodes, filter_append, filter_exprs]
    rfl
  | structInst callee fields span =>
    rw [children, map_append, indexed_nodes, fieldValuePositions_nodes, filter_append,
      filter_exprs, filter_exprs]
    rfl
  | structValue fields span =>
    rw [children, fieldValuePositions_nodes, filter_exprs]
    rfl
  | block statements result span =>
    rw [children, map_append, stmtPositions_nodes, filter_append]
    exact append_nil _
  | recordBlock fields span =>
    have nodes : (children (.recordBlock fields span)).map Prod.snd = fields.map .field := by
      rw [children, map_map]
      exact map_zipIdx Node.field fields 0
    rw [nodes, filter_fields]
    rfl

/-- A walk reports the nodes of its positions and those below them. -/
theorem descendFrom_entries {positions : List (Step × Node)} (path : Path)
    (below : ∀ place ∈ positions, (((descend place.2.value (path ++ [place.1])).map
      Prod.snd).filter Node.isEntry).Perm ((occurrences place.2.value).flatMap ownEntries)) :
    (((descendFrom positions path).map Prod.snd).filter Node.isEntry).Perm
      ((positions.map Prod.snd).filter Node.isEntry ++
        (positions.map fun place => place.2.value).flatMap fun e =>
          (occurrences e).flatMap ownEntries) := by
  induction positions with
  | nil => exact .refl _
  | cons place positions ih =>
    obtain ⟨own, rest⟩ := forall_mem_cons.1 below
    have split : descendFrom (place :: positions) path =
        (path ++ [place.1], place.2) :: descend place.2.value (path ++ [place.1]) ++
          descendFrom positions path := flatMap_cons
    rw [split, map_append, map_cons, filter_append, map_cons, map_cons, flatMap_cons]
    have both := own.append (ih rest)
    by_cases entry : place.2.isEntry
    · rw [filter_cons_of_pos entry, filter_cons_of_pos entry, cons_append, cons_append]
      refine (both.trans ?_).cons _
      rw [← append_assoc, ← append_assoc]
      exact perm_append_comm.append_right _
    · rw [filter_cons_of_neg entry, filter_cons_of_neg entry]
      refine both.trans ?_
      rw [← append_assoc, ← append_assoc]
      exact perm_append_comm.append_right _

theorem descend_entries (e : Expr) (path : Path) :
    (((descend e path).map Prod.snd).filter Node.isEntry).Perm
      ((occurrences e).flatMap ownEntries) := by
  induction e using parts_induction generalizing path with
  | step e own =>
    rw [occurrences_eq, flatMap_cons, flatMap_assoc]
    by_cases bare : Bare e
    · have values := children_values bare
      have below := @descendFrom_entries (children e) path fun place inside =>
        own place.2.value (values.subset (mem_map_of_mem inside)) _
      rw [← descend_eq, isEntry_children bare] at below
      exact below.trans ((values.flatMap_right _).append_left _)
    · simp only [Bare, not_forall, not_not] at bare
      obtain ⟨inner, span, rfl⟩ := bare
      exact (own inner (mem_singleton_self _) path).trans (by simp [parts, ownEntries])

end Entries

/-- Paths are identities: the walk visits every binding and field once, no two reports share a path,
and a path resolves to the node it was reported with, or to nothing. -/
theorem paths_identify (p : Program) :
    (((forEach p).map Prod.snd).filter Node.isEntry).Perm (entries p) ∧
      ((forEach p).map Prod.fst).Nodup ∧
      (∀ path node, (path, node) ∈ forEach p → resolve p path = some node) ∧
      ∀ path, (∀ node, (path, node) ∉ forEach p) → resolve p path = none := by
  have reported (path : Path) (node : Node) := mem_descendFrom_iff (rootSteps_nodup p) [] path node
  simp only [nil_append, ← forEach_eq] at reported
  refine ⟨?_, ?_, fun path node inside => ((reported path node).1 inside).2, fun path unseen => ?_⟩
  · have below := @descendFrom_entries (rootChildren p) [] fun place _ =>
      descend_entries place.2.value _
    rw [← forEach_eq] at below
    refine below.trans (.of_eq ?_)
    rw [rootChildren, map_append, map_append, stmtPositions_nodes, stmtPositions_values,
      filter_append]
    cases tail : p.expr with
    | none => simp [entries, tail, Function.comp_def]
    | some value =>
      have own : [Node.expr value].filter Node.isEntry = [] := rfl
      simp only [entries, tail, Option.toList_some, map_cons, map_nil, own, append_nil,
        map_map, Function.comp_def]
      rfl
  · rw [forEach_eq]
    exact descendFrom_nodup (rootSteps_nodup p) [] fun place _ => descend_nodup _ _
  · cases path with
    | nil => rfl
    | cons step rest =>
      cases found : resolve p (step :: rest) with
      | none => rfl
      | some node =>
        exact absurd ((reported _ node).2 ⟨cons_ne_nil _ _, found⟩) (unseen node)

end LichenVm.Ast
