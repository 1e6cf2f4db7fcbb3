import LichenVm.Ast

/-! What occurs in a parsed expression: its parts, and everything below them. -/

open List

namespace LichenVm.Ast

/-- The expressions an expression is written from. -/
def parts : Expr → List Expr
  | .lambda _ _ _ type perspective body _ => type.toList ++ perspective.toList ++ [body]
  | .apply function argument _ => [function, argument]
  | .unify actual expected _ => [actual, expected]
  | .templateUnify actual template _ => [actual, template]
  | .binOp _ left right _ => [left, right]
  | .cond condition thenBranch elseBranch _ => [condition, thenBranch, elseBranch]
  | .assert value _ => [value]
  | .keyword _ operands _ => operands
  | .nativeCall _ args _ => args
  | .index array position _ => [array, position]
  | .fieldRead container key _ => [container, key]
  | .namedFieldRead container _ _ => [container]
  | .tableFind container key _ => [container, key]
  | .annotated value type perspective refinement doc _ _ =>
    value :: (type.toList ++ perspective.toList ++ refinement.toList ++ doc.toList)
  | .tuple elements _ => elements
  | .typeSet element _ => [element]
  | .typeTable key value _ => [key, value]
  | .structInst callee fields _ => callee :: fields.map StructFieldValue.value
  | .structValue fields _ => fields.map StructFieldValue.value
  | .array template length _ => [template, length]
  | .arrayInst template elements _ => template :: elements
  | .table entries _ => entries.flatMap fun entry => [entry.1, entry.2]
  | .set members _ => members
  | .shallow inner _ _ => [inner]
  | .block statements result _ => statements.map Stmt.value ++ [result]
  | .recordBlock fields _ => fields.map RecordField.value
  | .gc inner _ => [inner]
  | _ => []

theorem sizeOf_stmt_value (statement : Stmt Expr) : sizeOf statement.value < sizeOf statement := by
  cases statement with
  | binding bound =>
    cases bound
    simp [Stmt.value]
    omega
  | expr value => simp [Stmt.value]

theorem sizeOf_option {α : Type} [SizeOf α] {value : Option α} {inner : α}
    (inside : inner ∈ value) : sizeOf inner < sizeOf value := by
  cases Option.mem_def.1 inside
  simp

theorem sizeOf_map {α : Type} [SizeOf α] {items : List α} {value : α → Expr}
    (smaller : ∀ item, sizeOf (value item) < sizeOf item) {part : Expr}
    (inside : part ∈ items.map value) : sizeOf part < sizeOf items := by
  obtain ⟨item, member, rfl⟩ := mem_map.1 inside
  exact Nat.lt_trans (smaller item) (sizeOf_lt_of_mem member)

/-- A part is smaller than what it is part of. -/
theorem sizeOf_part {e part : Expr} (inside : part ∈ parts e) : sizeOf part < sizeOf e := by
  cases e with
  | int | float | str | typeConst | name | placeholder | any | err => cases inside
  | lambda parameter parameterSpan binder type perspective body span =>
    simp only [parts, mem_append, Option.mem_toList, mem_singleton] at inside
    rcases inside with (inside | inside) | rfl
    · have := sizeOf_option inside
      simp
      omega
    · have := sizeOf_option inside
      simp
      omega
    · simp
      omega
  | apply | unify | templateUnify | binOp | cond | assert | index | fieldRead | namedFieldRead
  | tableFind | typeSet | typeTable | array | shallow | gc =>
    simp only [parts, mem_cons, not_mem_nil, or_false] at inside
    rcases inside with rfl | rfl | rfl <;> simp <;> omega
  | keyword | nativeCall | tuple | set =>
    have := sizeOf_lt_of_mem inside
    simp only [parts] at this
    simp
    omega
  | annotated value type perspective refinement doc marks span =>
    simp only [parts, mem_cons, mem_append, Option.mem_toList] at inside
    rcases inside with rfl | ((inside | inside) | inside) | inside
    · simp
      omega
    all_goals
      have := sizeOf_option inside
      simp
      omega
  | structInst callee fields span =>
    rcases mem_cons.1 inside with rfl | inside
    · simp
      omega
    · have := sizeOf_map (fun field : StructFieldValue Expr => by cases field; simp) inside
      simp
      omega
  | structValue fields span =>
    have := sizeOf_map (fun field : StructFieldValue Expr => by cases field; simp) inside
    simp
    omega
  | arrayInst template elements span =>
    rcases mem_cons.1 inside with rfl | inside
    · simp
      omega
    · have := sizeOf_lt_of_mem inside
      simp
      omega
  | table entries span =>
    obtain ⟨entry, member, inside⟩ := mem_flatMap.1 inside
    have := sizeOf_lt_of_mem member
    obtain ⟨key, value⟩ := entry
    simp only [mem_cons, not_mem_nil, or_false] at inside
    rcases inside with rfl | rfl <;> simp at this ⊢ <;> omega
  | block statements result span =>
    rcases mem_append.1 inside with inside | inside
    · have := sizeOf_map sizeOf_stmt_value inside
      simp
      omega
    · rw [mem_singleton.1 inside]
      simp
      omega
  | recordBlock fields span =>
    have := sizeOf_map (fun field : RecordField Expr => by cases field; simp; omega) inside
    simp
    omega

@[elab_as_elim]
theorem parts_induction {P : Expr → Prop} (step : ∀ e, (∀ part ∈ parts e, P part) → P e)
    (e : Expr) : P e :=
  step e fun part _ => parts_induction step part
termination_by sizeOf e
decreasing_by exact sizeOf_part (by assumption)

/-- An expression and everything below it, outer ones first. -/
def occurrences (e : Expr) : List Expr :=
  e :: (parts e).attach.flatMap fun part => occurrences part.1
termination_by sizeOf e
decreasing_by exact sizeOf_part part.2

theorem occurrences_eq (e : Expr) : occurrences e = e :: (parts e).flatMap occurrences := by
  rw [occurrences, flatMap_subtype fun _ _ => rfl, unattach_attach]

theorem self_mem_occurrences (e : Expr) : e ∈ occurrences e := by
  rw [occurrences_eq]
  exact mem_cons_self

theorem mem_occurrences_part {e part : Expr} (inside : part ∈ parts e) {below : Expr}
    (occurs : below ∈ occurrences part) : below ∈ occurrences e := by
  rw [occurrences_eq]
  exact mem_cons_of_mem _ (mem_flatMap.2 ⟨part, inside, occurs⟩)

theorem occurrences_trans {e below lower : Expr} (occurs : below ∈ occurrences e)
    (further : lower ∈ occurrences below) : lower ∈ occurrences e := by
  induction e using parts_induction with
  | step e own =>
    rw [occurrences_eq] at occurs
    rcases mem_cons.1 occurs with rfl | occurs
    · exact further
    · obtain ⟨part, inside, occurs⟩ := mem_flatMap.1 occurs
      exact mem_occurrences_part inside (own part inside occurs)

end LichenVm.Ast
