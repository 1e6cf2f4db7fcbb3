import LichenVm.Lexer

/-! The parsed program: one node for each syntactic form, terms and types sharing one type. -/

open List Option

namespace LichenVm.Ast

abbrev Byte := Lexer.Byte

abbrev Span := Lexer.Span

/-- A name or a literal's content, as its bytes. -/
abbrev Text := List Byte

/-- The word a key writes for a binder that is not there. -/
def UNRESOLVED : Nat := 2 ^ 64 - 1

/-- A binding's identity in one resolution pass, a dense index. -/
abbrev BinderId := Fin 18446744073709551615

inductive TypeConst where
  | int | float | string | type | tuple | array | struct
  deriving DecidableEq

inductive BinOp where
  | add | sub | mul | div | rem | lt | gt | leq | geq | eq | neq | bitAnd | bitOr | bitXor | isIn
  deriving DecidableEq

inductive PrefixOp where
  | int2Float | float2Int | max | min | exp | sqrt | floor | sin | cos | ln
  deriving DecidableEq

/-- How many operands the operator takes by juxtaposition. -/
def PrefixOp.arity : PrefixOp → Nat
  | .max | .min => 2
  | _ => 1

/-- A binding `name := value`, or restrictive `let name := value`. -/
structure Binding (E : Type) where
  name : Text
  span : Span
  binder : Option BinderId
  value : E
  restrictive : Bool
  cached : Bool
  looping : Bool

inductive Stmt (E : Type) where
  | binding (binding : Binding E)
  | expr (value : E)

/-- One field of a struct value or instance. -/
structure StructFieldValue (E : Type) where
  name : Text
  value : E

/-- One field of a record block. A `let` binding is a local of the block, never a field. -/
structure RecordField (E : Type) where
  name : Option Text
  binder : Option BinderId
  value : E
  isPublic : Bool
  field : Bool
  cached : Bool
  looping : Bool
  span : Span

inductive Expr where
  | int (value : Nat) (span : Span)
  /-- A float literal, as its 32 bits. -/
  | float (bits : UInt32) (span : Span)
  | str (content : Text) (span : Span)
  | typeConst (constant : TypeConst) (span : Span)
  | name (text : Text) (span : Span) (binder : Option BinderId)
  | placeholder (span : Span)
  | any (span : Span)
  | lambda (parameter : Text) (parameterSpan : Span) (parameterBinder : Option BinderId)
      (parameterType parameterPerspective : Option Expr) (body : Expr) (span : Span)
  | apply (function argument : Expr) (span : Span)
  | unify (actual expected : Expr) (span : Span)
  | templateUnify (actual template : Expr) (span : Span)
  | binOp (operator : BinOp) (left right : Expr) (span : Span)
  | cond (condition thenBranch elseBranch : Expr) (span : Span)
  | assert (value : Expr) (span : Span)
  | keyword (operator : PrefixOp) (operands : List Expr) (span : Span)
  | nativeCall (op : Text) (args : List Expr) (span : Span)
  | index (array position : Expr) (span : Span)
  | fieldRead (container key : Expr) (span : Span)
  | namedFieldRead (container : Expr) (name : Text) (span : Span)
  | tableFind (container key : Expr) (span : Span)
  | annotated (value : Expr) (type perspective refinement doc : Option Expr) (marks : List Text)
      (span : Span)
  | tuple (elements : List Expr) (span : Span)
  | typeSet (element : Expr) (span : Span)
  | typeTable (key value : Expr) (span : Span)
  | structInst (callee : Expr) (fields : List (StructFieldValue Expr)) (span : Span)
  | structValue (fields : List (StructFieldValue Expr)) (span : Span)
  | array (template length : Expr) (span : Span)
  | arrayInst (template : Expr) (elements : List Expr) (span : Span)
  | table (entries : List (Expr × Expr)) (span : Span)
  | set (members : List Expr) (span : Span)
  | shallow (inner : Expr) (depth : Nat) (span : Span)
  | block (statements : List (Stmt Expr)) (result : Expr) (span : Span)
  | recordBlock (fields : List (RecordField Expr)) (span : Span)
  | gc (inner : Expr) (span : Span)
  | err (range : Nat × Nat) (start : Span)

structure BlockStmt where
  stmt : Stmt Expr
  isPublic : Bool

/-- A region the parser masked. -/
structure ErrorBlock where
  range : Nat × Nat
  start : Span

/-- A program: without a tail expression it is a record program. -/
structure Program where
  statements : List BlockStmt
  expr : Option Expr
  errorBlocks : List ErrorBlock
  stmtRanges : List (Nat × Nat)

/-- The span of a program with no statement. -/
def noSpan : Span := (1, 1)

/-- An expression's leftmost token. -/
def Expr.span : Expr → Span
  | .int _ span | .float _ span | .str _ span | .typeConst _ span | .name _ span _
  | .placeholder span | .any span | .lambda _ _ _ _ _ _ span | .apply _ _ span | .unify _ _ span
  | .templateUnify _ _ span | .binOp _ _ _ span | .cond _ _ _ span | .assert _ span
  | .keyword _ _ span | .nativeCall _ _ span | .index _ _ span | .fieldRead _ _ span
  | .namedFieldRead _ _ span | .tableFind _ _ span | .annotated _ _ _ _ _ _ span | .tuple _ span
  | .typeSet _ span | .typeTable _ _ span | .structInst _ _ span | .structValue _ span
  | .array _ _ span | .arrayInst _ _ span | .table _ span | .set _ span | .shallow _ _ span
  | .block _ _ span | .recordBlock _ span | .gc _ span | .err _ span => span

def Expr.isName : Expr → Bool
  | .name _ _ _ => true
  | _ => false

def Stmt.span : Stmt Expr → Span
  | .binding bound => bound.span
  | .expr value => value.span

def Stmt.value {E : Type} : Stmt E → E
  | .binding bound => bound.value
  | .expr value => value

/-- Induction on an expression, a list of parts giving the hypothesis for each of them. -/
@[elab_as_elim]
theorem Expr.induction {P : Expr → Prop}
    (int : ∀ value span, P (.int value span)) (float : ∀ bits span, P (.float bits span))
    (str : ∀ content span, P (.str content span))
    (typeConst : ∀ constant span, P (.typeConst constant span))
    (name : ∀ text span binder, P (.name text span binder))
    (placeholder : ∀ span, P (.placeholder span)) (any : ∀ span, P (.any span))
    (lambda : ∀ parameter parameterSpan binder type perspective body span,
      (∀ e ∈ type, P e) → (∀ e ∈ perspective, P e) → P body →
        P (.lambda parameter parameterSpan binder type perspective body span))
    (apply : ∀ function argument span, P function → P argument → P (.apply function argument span))
    (unify : ∀ actual expected span, P actual → P expected → P (.unify actual expected span))
    (templateUnify : ∀ actual template span, P actual → P template →
      P (.templateUnify actual template span))
    (binOp : ∀ operator left right span, P left → P right → P (.binOp operator left right span))
    (cond : ∀ condition thenBranch elseBranch span, P condition → P thenBranch → P elseBranch →
      P (.cond condition thenBranch elseBranch span))
    (assert : ∀ value span, P value → P (.assert value span))
    (keyword : ∀ operator operands span, (∀ e ∈ operands, P e) →
      P (.keyword operator operands span))
    (nativeCall : ∀ op args span, (∀ e ∈ args, P e) → P (.nativeCall op args span))
    (index : ∀ array position span, P array → P position → P (.index array position span))
    (fieldRead : ∀ container key span, P container → P key → P (.fieldRead container key span))
    (namedFieldRead : ∀ container name span, P container → P (.namedFieldRead container name span))
    (tableFind : ∀ container key span, P container → P key → P (.tableFind container key span))
    (annotated : ∀ value type perspective refinement doc marks span, P value → (∀ e ∈ type, P e) →
      (∀ e ∈ perspective, P e) → (∀ e ∈ refinement, P e) → (∀ e ∈ doc, P e) →
        P (.annotated value type perspective refinement doc marks span))
    (tuple : ∀ elements span, (∀ e ∈ elements, P e) → P (.tuple elements span))
    (typeSet : ∀ element span, P element → P (.typeSet element span))
    (typeTable : ∀ key value span, P key → P value → P (.typeTable key value span))
    (structInst : ∀ callee fields span, P callee → (∀ f ∈ fields, P f.value) →
      P (.structInst callee fields span))
    (structValue : ∀ fields span, (∀ f ∈ fields, P f.value) → P (.structValue fields span))
    (array : ∀ template length span, P template → P length → P (.array template length span))
    (arrayInst : ∀ template elements span, P template → (∀ e ∈ elements, P e) →
      P (.arrayInst template elements span))
    (table : ∀ entries span, (∀ e ∈ entries, P e.1 ∧ P e.2) → P (.table entries span))
    (set : ∀ members span, (∀ e ∈ members, P e) → P (.set members span))
    (shallow : ∀ inner depth span, P inner → P (.shallow inner depth span))
    (block : ∀ statements result span, (∀ s ∈ statements, P s.value) → P result →
      P (.block statements result span))
    (recordBlock : ∀ fields span, (∀ f ∈ fields, P f.value) → P (.recordBlock fields span))
    (gc : ∀ inner span, P inner → P (.gc inner span))
    (err : ∀ range start, P (.err range start)) (e : Expr) : P e := by
  refine @Expr.rec P (fun parts => ∀ e ∈ parts, P e) (fun parts => ∀ e ∈ parts, P e)
    (fun parts => ∀ f ∈ parts, P f.value) (fun parts => ∀ e ∈ parts, P e.1 ∧ P e.2)
    (fun parts => ∀ s ∈ parts, P s.value) (fun parts => ∀ f ∈ parts, P f.value)
    (fun part => P part.value) (fun part => P part.1 ∧ P part.2) (fun part => P part.value)
    (fun part => P part.value) (fun part => P part.value)
    int float str typeConst name placeholder any lambda apply unify templateUnify binOp cond assert
    keyword nativeCall index fieldRead namedFieldRead tableFind annotated tuple typeSet typeTable
    structInst structValue array arrayInst table set shallow block recordBlock gc err
    ?_ ?_ ?_ ?_ ?_ ?_ ?_ ?_ ?_ ?_ ?_ ?_ ?_ ?_ ?_ ?_ ?_ ?_ e
  · exact fun e found => absurd found (not_mem_none e)
  · intro inner own e found
    rw [← mem_some.1 found]
    exact own
  iterate 5
    exact fun e found => absurd found not_mem_nil
    exact fun head rest own others => forall_mem_cons.2 ⟨own, others⟩
  · exact fun _ _ own => own
  · exact fun _ _ first second => ⟨first, second⟩
  · exact fun _ own => own
  · exact fun _ own => own
  · exact fun _ _ _ _ _ _ _ _ own => own
  · exact fun _ _ _ _ _ _ _ own => own

end LichenVm.Ast
