import LichenVm.Occurrences
import Mathlib.Data.List.Flatten

/-! The recovered errors of a parsed program. -/

open List

namespace LichenVm.Ast

mutual

/-- The masks of the errors a walk of an expression meets. -/
def walkExpr : Expr → List ErrorBlock
  | .err range start => [⟨range, start⟩]
  | .lambda _ _ _ type perspective body _ =>
    walkOpt type ++ walkOpt perspective ++ walkExpr body
  | .apply function argument _ => walkExpr function ++ walkExpr argument
  | .unify actual expected _ => walkExpr actual ++ walkExpr expected
  | .templateUnify actual template _ => walkExpr actual ++ walkExpr template
  | .binOp _ left right _ => walkExpr left ++ walkExpr right
  | .cond condition thenBranch elseBranch _ =>
    walkExpr condition ++ walkExpr thenBranch ++ walkExpr elseBranch
  | .assert value _ => walkExpr value
  | .keyword _ operands _ => walkAll operands
  | .nativeCall _ args _ => walkAll args
  | .index array position _ => walkExpr array ++ walkExpr position
  | .fieldRead container key _ => walkExpr container ++ walkExpr key
  | .namedFieldRead container _ _ => walkExpr container
  | .tableFind container key _ => walkExpr container ++ walkExpr key
  | .annotated value type perspective refinement _ _ _ =>
    walkExpr value ++ walkOpt type ++ walkOpt perspective ++ walkOpt refinement
  | .tuple elements _ => walkAll elements
  | .set members _ => walkAll members
  | .typeSet element _ => walkExpr element
  | .typeTable key value _ => walkExpr key ++ walkExpr value
  | .structValue fields _ => walkFields fields
  | .structInst callee fields _ => walkExpr callee ++ walkFields fields
  | .array template length _ => walkExpr template ++ walkExpr length
  | .arrayInst template elements _ => walkExpr template ++ walkAll elements
  | .table entries _ => walkPairs entries
  | .shallow inner _ _ => walkExpr inner
  | .block statements result _ => walkStmts statements ++ walkExpr result
  | .recordBlock fields _ => walkRecord fields
  | .gc inner _ => walkExpr inner
  | _ => []

def walkAll : List Expr → List ErrorBlock
  | [] => []
  | value :: rest => walkExpr value ++ walkAll rest

def walkOpt : Option Expr → List ErrorBlock
  | some inner => walkExpr inner
  | none => []

def walkFields : List (StructFieldValue Expr) → List ErrorBlock
  | [] => []
  | ⟨_, value⟩ :: rest => walkExpr value ++ walkFields rest

def walkPairs : List (Expr × Expr) → List ErrorBlock
  | [] => []
  | (key, value) :: rest => walkExpr key ++ walkExpr value ++ walkPairs rest

def walkStmts : List (Stmt Expr) → List ErrorBlock
  | [] => []
  | .binding ⟨_, _, _, value, _, _, _⟩ :: rest => walkExpr value ++ walkStmts rest
  | .expr value :: rest => walkExpr value ++ walkStmts rest

def walkRecord : List (RecordField Expr) → List ErrorBlock
  | [] => []
  | ⟨_, _, value, _, _, _, _, _⟩ :: rest => walkExpr value ++ walkRecord rest

end

/-- The masks of a program's recovered errors. -/
def collectErrorBlocks (p : Program) : List ErrorBlock :=
  walkStmts (p.statements.map BlockStmt.stmt) ++ walkOpt p.expr

/-- The expressions a program is written from: its statements', then its tail. -/
def programParts (p : Program) : List Expr :=
  p.statements.map (fun statement => statement.stmt.value) ++ p.expr.toList

def errorBlock : Expr → Option ErrorBlock
  | .err range start => some ⟨range, start⟩
  | _ => none

/-- The errors at and below an expression. -/
def errors (e : Expr) : List ErrorBlock := (occurrences e).filterMap errorBlock

/-- The parts a walk enters, in its order. -/
def walked : Expr → List Expr
  | .annotated value type perspective refinement _ _ _ =>
    value :: (type.toList ++ perspective.toList ++ refinement.toList)
  | e => parts e

/-- The documentation written on an expression. -/
def documentation : Expr → List Expr
  | .annotated _ _ _ _ doc _ _ => doc.toList
  | _ => []

section Walk

theorem walkAll_eq (values : List Expr) : walkAll values = values.flatMap walkExpr := by
  induction values with
  | nil => rfl
  | cons value rest ih => rw [walkAll, ih, flatMap_cons]

theorem walkOpt_eq (value : Option Expr) : walkOpt value = value.toList.flatMap walkExpr := by
  cases value with
  | none => rfl
  | some inner => rw [walkOpt, Option.toList_some, flatMap_singleton]

theorem walkFields_eq (fields : List (StructFieldValue Expr)) :
    walkFields fields = (fields.map StructFieldValue.value).flatMap walkExpr := by
  induction fields with
  | nil => rfl
  | cons field rest ih => rw [walkFields.eq_def]; simp only [ih]; rfl

theorem walkPairs_eq (entries : List (Expr × Expr)) :
    walkPairs entries = (entries.flatMap fun entry => [entry.1, entry.2]).flatMap walkExpr := by
  induction entries with
  | nil => rfl
  | cons entry rest ih => rw [walkPairs.eq_def]; simp [ih]

theorem walkStmts_eq (statements : List (Stmt Expr)) :
    walkStmts statements = (statements.map Stmt.value).flatMap walkExpr := by
  induction statements with
  | nil => rfl
  | cons statement rest ih => cases statement <;> (rw [walkStmts.eq_def]; simp only [ih]; rfl)

theorem walkRecord_eq (fields : List (RecordField Expr)) :
    walkRecord fields = (fields.map RecordField.value).flatMap walkExpr := by
  induction fields with
  | nil => rfl
  | cons field rest ih => rw [walkRecord.eq_def]; simp only [ih]; rfl

theorem walkExpr_eq (e : Expr) :
    walkExpr e = (errorBlock e).toList ++ (walked e).flatMap walkExpr := by
  cases e with
  | err | int | float | str | typeConst | name | placeholder | any =>
    simp [walkExpr, errorBlock, walked, parts]
  | lambda | apply | unify | templateUnify | binOp | cond | assert | keyword | nativeCall | index
  | fieldRead | namedFieldRead | tableFind | annotated | tuple | set | typeSet | typeTable
  | structValue | structInst | array | arrayInst | table | shallow | block | recordBlock | gc =>
    simp only [walkExpr, errorBlock, walked, parts, walkAll_eq, walkOpt_eq, walkFields_eq,
      walkPairs_eq, walkStmts_eq, walkRecord_eq, flatMap_append, flatMap_cons,
      flatMap_nil, append_nil, Option.toList_none, nil_append, append_assoc]

theorem collectErrorBlocks_eq (p : Program) :
    collectErrorBlocks p = (programParts p).flatMap walkExpr := by
  rw [collectErrorBlocks, walkStmts_eq, walkOpt_eq, programParts, flatMap_append, map_map]
  rfl

end Walk

/-- Every error of the first expression begins no later than any of the second. -/
def Precedes (first second : Expr) : Prop :=
  ∀ block ∈ errors first, ∀ later ∈ errors second, block.range.1 ≤ later.range.1

/-- No recovered error lies in documentation. -/
def Undocumented (e : Expr) : Prop :=
  ∀ below ∈ occurrences e, ∀ doc ∈ documentation below, errors doc = []

/-- The parts of each form that hold errors are written in the order they are walked in. -/
def WrittenInOrder (e : Expr) : Prop :=
  ∀ below ∈ occurrences e, (walked below).Pairwise Precedes

section Errors

theorem parts_eq (e : Expr) : parts e = walked e ++ documentation e := by
  cases e with
  | annotated value type perspective refinement doc marks span => simp [parts, walked, documentation]
  | _ => exact (append_nil _).symm

theorem errors_eq (e : Expr) : errors e = (errorBlock e).toList ++ (parts e).flatMap errors := by
  rw [errors, occurrences_eq, filterMap_cons, filterMap_flatMap]
  cases errorBlock e <;> rfl

theorem errorBlock_of_walked {e part : Expr} (inside : part ∈ walked e) : errorBlock e = none := by
  cases e with
  | err => cases inside
  | _ => rfl

theorem mem_parts_of_walked {e part : Expr} (inside : part ∈ walked e) : part ∈ parts e := by
  rw [parts_eq]
  exact mem_append_left _ inside

theorem mem_parts_of_documentation {e doc : Expr} (inside : doc ∈ documentation e) :
    doc ∈ parts e := by
  rw [parts_eq]
  exact mem_append_right _ inside

theorem Undocumented.part {e part : Expr} (clear : Undocumented e) (inside : part ∈ parts e) :
    Undocumented part :=
  fun below occurs => clear below (mem_occurrences_part inside occurs)

theorem undocumented_of_errors_eq_nil {e : Expr} (clean : errors e = []) : Undocumented e := by
  intro below occurs doc inside
  rw [errors, filterMap_eq_nil_iff] at clean ⊢
  intro lower further
  exact clean lower (occurrences_trans occurs
    (mem_occurrences_part (mem_parts_of_documentation inside) further))

theorem walkExpr_of_undocumented {e : Expr} (clear : Undocumented e) : walkExpr e = errors e := by
  induction e using parts_induction with
  | step e own =>
    have docs : (documentation e).flatMap errors = [] :=
      flatMap_eq_nil_iff.2 (clear e (self_mem_occurrences e))
    rw [walkExpr_eq, errors_eq, parts_eq, flatMap_append, docs, append_nil]
    refine congrArg _ (flatMap_congr fun part inside => ?_)
    have part' := mem_parts_of_walked inside
    exact own part part' (clear.part part')

theorem length_flatMap_le {α β : Type} {short long : α → List β} {items : List α}
    (each : ∀ item ∈ items, (short item).length ≤ (long item).length) :
    (items.flatMap short).length ≤ (items.flatMap long).length ∧
      ((items.flatMap short).length = (items.flatMap long).length →
        ∀ item ∈ items, (short item).length = (long item).length) := by
  induction items with
  | nil => simp
  | cons item items ih =>
    obtain ⟨own, rest⟩ := forall_mem_cons.1 each
    obtain ⟨bound, tight⟩ := ih rest
    simp only [flatMap_cons, length_append, forall_mem_cons]
    refine ⟨by omega, fun same => ⟨by omega, tight (by omega)⟩⟩

theorem walkExpr_length (e : Expr) : (walkExpr e).length ≤ (errors e).length ∧
      ((walkExpr e).length = (errors e).length → Undocumented e) := by
  induction e using parts_induction with
  | step e own =>
    have below := length_flatMap_le (fun part (inside : part ∈ walked e) =>
      (own part (mem_parts_of_walked inside)).1)
    rw [walkExpr_eq, errors_eq, parts_eq, flatMap_append]
    simp only [length_append]
    refine ⟨by omega, fun same lower occurs doc inside => ?_⟩
    have docs : (documentation e).flatMap errors = [] := eq_nil_of_length_eq_zero (by omega)
    have tight := below.2 (by omega)
    rw [occurrences_eq] at occurs
    rcases mem_cons.1 occurs with rfl | occurs
    · exact flatMap_eq_nil_iff.1 docs doc inside
    · obtain ⟨part, member, occurs⟩ := mem_flatMap.1 occurs
      rw [parts_eq] at member
      rcases mem_append.1 member with member | member
      · exact (own part (mem_parts_of_walked member)).2 (tight part member) lower occurs doc inside
      · have clean := flatMap_eq_nil_iff.1 docs part member
        exact undocumented_of_errors_eq_nil clean lower occurs doc inside

/-- The errors of an undocumented expression are in order just where its forms are. -/
theorem errors_inOrder_iff {e : Expr} (clear : Undocumented e) :
    (errors e).Pairwise (fun block later => block.range.1 ≤ later.range.1) ↔ WrittenInOrder e := by
  induction e using parts_induction with
  | step e own =>
    have docs : (documentation e).flatMap errors = [] :=
      flatMap_eq_nil_iff.2 (clear e (self_mem_occurrences e))
    -- An error node has no parts, so its own mask stands alone.
    have whole : (errors e).Pairwise (fun block later => block.range.1 ≤ later.range.1) ↔
        ((walked e).flatMap errors).Pairwise fun block later => block.range.1 ≤ later.range.1 := by
      rw [errors_eq, parts_eq, flatMap_append, docs, append_nil]
      cases walks : walked e with
      | nil => cases errorBlock e <;> simp
      | cons part rest =>
        rw [errorBlock_of_walked (walks ▸ mem_cons_self : part ∈ walked e)]
        rfl
    rw [whole, pairwise_flatMap]
    constructor
    · rintro ⟨each, across⟩ below occurs
      rw [occurrences_eq] at occurs
      rcases mem_cons.1 occurs with rfl | occurs
      · exact across
      · obtain ⟨part, member, occurs⟩ := mem_flatMap.1 occurs
        have part' := member
        rw [parts_eq] at member
        rcases mem_append.1 member with member | member
        · exact (own part part' (clear.part part')).1 (each part member) below occurs
        · -- Below documentation there is nothing to order.
          have clean := clear e (self_mem_occurrences e) part member
          refine (own part part' (clear.part part')).1 ?_ below occurs
          rw [clean]
          exact List.Pairwise.nil
    · intro ordered
      refine ⟨fun part member => ?_, ordered e (self_mem_occurrences e)⟩
      have part' := mem_parts_of_walked member
      exact (own part part' (clear.part part')).2 fun below occurs =>
        ordered below (mem_occurrences_part part' occurs)

end Errors

def MaskedOnce (p : Program) : Prop :=
  (collectErrorBlocks p).Perm ((programParts p).flatMap errors)

/-- The masks are listed by position. -/
def InOrder (p : Program) : Prop :=
  (collectErrorBlocks p).Pairwise fun block later => block.range.1 ≤ later.range.1

/-- The errors of a program are masked once and in order just where none lies in documentation and
no form with errors in two parts is written in another order than it is walked in. -/
theorem masked_in_order_iff (p : Program) : MaskedOnce p ∧ InOrder p ↔
      (∀ e ∈ programParts p, Undocumented e) ∧
        (programParts p).Pairwise Precedes ∧ ∀ e ∈ programParts p, WrittenInOrder e := by
  have below := length_flatMap_le (fun e (_ : e ∈ programParts p) => (walkExpr_length e).1)
  have clears : MaskedOnce p ↔ ∀ e ∈ programParts p, Undocumented e := by
    rw [MaskedOnce, collectErrorBlocks_eq]
    constructor
    · intro once e inside
      exact (walkExpr_length e).2 (below.2 once.length_eq e inside)
    · intro clear
      rw [flatMap_congr fun e inside => walkExpr_of_undocumented (clear e inside)]
  rw [clears]
  refine and_congr_right fun clear => ?_
  rw [InOrder, collectErrorBlocks_eq,
    flatMap_congr fun e inside => walkExpr_of_undocumented (clear e inside),
    pairwise_flatMap, and_comm]
  exact and_congr_right fun _ =>
    forall₂_congr fun e inside => errors_inOrder_iff (clear e inside)

/-- A binding whose documentation is left out. -/
def danglingDocumentation : Program where
  statements := [⟨.binding ⟨[120], (1, 1), none,
    .annotated (.int 1 (1, 6)) none none none (some (.err (8, 8) (1, 9))) [] (1, 6),
    false, false, false⟩, false⟩]
  expr := none
  errorBlocks := []
  stmtRanges := [(0, 4)]

/-- The error of a documentation left out is not masked. -/
theorem danglingDocumentation_unmasked :
    ¬ (MaskedOnce danglingDocumentation ∧ InOrder danglingDocumentation) := by
  rintro ⟨once, -⟩
  have counted := once.length_eq
  simp [danglingDocumentation, collectErrorBlocks_eq, programParts, Stmt.value, errors, walkExpr,
    walkOpt, occurrences_eq, parts] at counted
  exact absurd counted (by decide)

end LichenVm.Ast
