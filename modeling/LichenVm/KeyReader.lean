import LichenVm.ContentKey
import LichenVm.PrefixCode

namespace LichenVm.Ast

/-- What the key leaves out of a program although the lowering reads it. -/
inductive Omission where
  | looping (stamped : Bool)
  | marks (count : Nat)
  | operands (count : Nat)
  | isTypeSet (value : Bool)
  deriving DecidableEq

/-- Whether the value can come out as a function's own node. -/
def Expr.mayBeFunction : Expr → Bool
  | .lambda _ _ _ _ _ _ _ => true
  | .name _ _ _ => true
  | .shallow inner _ _ => inner.mayBeFunction
  | .block _ result _ => result.mayBeFunction
  | .annotated value none none none none _ _ => value.mayBeFunction
  | _ => false

/-- Whether a `@loop` mark on a binding of the value is read. -/
def Expr.stampable (value : Expr) : Bool := !value.isName && value.mayBeFunction

mutual

/-- The omissions of an expression, in the order of its key. -/
def Expr.omissions : Expr → List Omission
  | .any _ => [.isTypeSet false]
  | .typeSet element _ => .isTypeSet true :: element.omissions
  | .keyword _ operands _ => .operands operands.length :: omissionsAll operands
  | .annotated value type perspective refinement doc marks _ =>
    value.omissions ++ (omissionsOpt type ++ (omissionsOpt perspective ++ (omissionsOpt doc ++
      (omissionsOpt refinement ++ [.marks marks.length]))))
  | .gc inner _ => inner.omissions
  | .lambda _ _ _ type perspective body _ =>
    omissionsOpt type ++ (omissionsOpt perspective ++ body.omissions)
  | .apply function argument _ => function.omissions ++ argument.omissions
  | .unify actual expected _ => actual.omissions ++ expected.omissions
  | .templateUnify actual template _ => actual.omissions ++ template.omissions
  | .binOp _ left right _ => left.omissions ++ right.omissions
  | .cond condition thenBranch elseBranch _ =>
    condition.omissions ++ (thenBranch.omissions ++ elseBranch.omissions)
  | .assert value _ => value.omissions
  | .nativeCall _ args _ => omissionsAll args
  | .index array position _ => array.omissions ++ position.omissions
  | .fieldRead container key _ => container.omissions ++ key.omissions
  | .namedFieldRead container _ _ => container.omissions
  | .tableFind container key _ => container.omissions ++ key.omissions
  | .tuple elements _ => omissionsAll elements
  | .set members _ => omissionsAll members
  | .typeTable key value _ => key.omissions ++ value.omissions
  | .structValue fields _ => omissionsFields fields
  | .array template length _ => template.omissions ++ length.omissions
  | .arrayInst template elements _ => template.omissions ++ omissionsAll elements
  | .structInst callee fields _ => callee.omissions ++ omissionsFields fields
  | .table entries _ => omissionsPairs entries
  | .shallow inner _ _ => inner.omissions
  | .block statements result _ => omissionsStmts statements ++ result.omissions
  | .recordBlock fields _ => omissionsRecord fields
  | _ => []

def omissionsAll : List Expr → List Omission
  | [] => []
  | value :: rest => value.omissions ++ omissionsAll rest

def omissionsOpt : Option Expr → List Omission
  | some inner => inner.omissions
  | none => []

def omissionsFields : List (StructFieldValue Expr) → List Omission
  | [] => []
  | ⟨_, value⟩ :: rest => value.omissions ++ omissionsFields rest

def omissionsPairs : List (Expr × Expr) → List Omission
  | [] => []
  | (key, value) :: rest => key.omissions ++ value.omissions ++ omissionsPairs rest

def omissionsStmts : List (Stmt Expr) → List Omission
  | [] => []
  | .binding ⟨_, _, _, value, restrictive, _, looping⟩ :: rest =>
    .looping (looping && !restrictive && value.stampable) :: value.omissions ++ omissionsStmts rest
  | .expr value :: rest => value.omissions ++ omissionsStmts rest

def omissionsRecord : List (RecordField Expr) → List Omission
  | [] => []
  | ⟨name, _, value, _, field, _, looping, _⟩ :: rest =>
    .looping (looping && name.isSome && field && value.stampable) :: value.omissions ++
      omissionsRecord rest

end

mutual

/-- The expression without what neither its key nor its lowering reads. -/
def Expr.erase : Expr → Expr
  | .int value _ => .int value noSpan
  | .float bits _ => .float bits noSpan
  | .str content _ => .str content noSpan
  | .typeConst constant _ => .typeConst constant noSpan
  | .name _ _ binder => .name [] noSpan binder
  | .placeholder _ => .placeholder noSpan
  | .any _ => .any noSpan
  | .gc inner _ => .gc inner.erase noSpan
  | .err _ _ => .err (0, 0) noSpan
  | .lambda _ _ binder type perspective body _ =>
    .lambda [] noSpan binder (eraseOpt type) (eraseOpt perspective) body.erase noSpan
  | .apply function argument _ => .apply function.erase argument.erase noSpan
  | .unify actual expected _ => .unify actual.erase expected.erase noSpan
  | .templateUnify actual template _ => .templateUnify actual.erase template.erase noSpan
  | .binOp operator left right _ => .binOp operator left.erase right.erase noSpan
  | .cond condition thenBranch elseBranch _ =>
    .cond condition.erase thenBranch.erase elseBranch.erase noSpan
  | .assert value _ => .assert value.erase noSpan
  | .keyword operator operands _ => .keyword operator (eraseAll operands) noSpan
  | .nativeCall op args _ => .nativeCall op (eraseAll args) noSpan
  | .index array position _ => .index array.erase position.erase noSpan
  | .fieldRead container key _ => .fieldRead container.erase key.erase noSpan
  | .namedFieldRead container name _ => .namedFieldRead container.erase name noSpan
  | .tableFind container key _ => .tableFind container.erase key.erase noSpan
  | .annotated value type perspective refinement doc marks _ =>
    .annotated value.erase (eraseOpt type) (eraseOpt perspective) (eraseOpt refinement)
      (eraseOpt doc) marks noSpan
  | .tuple elements _ => .tuple (eraseAll elements) noSpan
  | .set members _ => .set (eraseAll members) noSpan
  | .typeSet element _ => .typeSet element.erase noSpan
  | .typeTable key value _ => .typeTable key.erase value.erase noSpan
  | .structValue fields _ => .structValue (eraseFields fields) noSpan
  | .array template length _ => .array template.erase length.erase noSpan
  | .arrayInst template elements _ => .arrayInst template.erase (eraseAll elements) noSpan
  | .structInst callee fields _ => .structInst callee.erase (eraseFields fields) noSpan
  | .table entries _ => .table (erasePairs entries) noSpan
  | .shallow inner depth _ => .shallow inner.erase depth noSpan
  | .block statements result _ => .block (eraseStmts statements) result.erase noSpan
  | .recordBlock fields _ => .recordBlock (eraseRecord fields) noSpan

def eraseAll : List Expr → List Expr
  | [] => []
  | value :: rest => value.erase :: eraseAll rest

def eraseOpt : Option Expr → Option Expr
  | some inner => some inner.erase
  | none => none

def eraseFields : List (StructFieldValue Expr) → List (StructFieldValue Expr)
  | [] => []
  | ⟨name, value⟩ :: rest => ⟨name, value.erase⟩ :: eraseFields rest

def erasePairs : List (Expr × Expr) → List (Expr × Expr)
  | [] => []
  | (key, value) :: rest => (key.erase, value.erase) :: erasePairs rest

def eraseStmts : List (Stmt Expr) → List (Stmt Expr)
  | [] => []
  | .binding ⟨_, _, binder, value, restrictive, cached, looping⟩ :: rest =>
    .binding ⟨[], noSpan, binder, value.erase, restrictive, cached,
      looping && !restrictive && value.stampable⟩ :: eraseStmts rest
  | .expr value :: rest => .expr value.erase :: eraseStmts rest

def eraseRecord : List (RecordField Expr) → List (RecordField Expr)
  | [] => []
  | ⟨name, binder, value, isPublic, field, cached, looping, _⟩ :: rest =>
    ⟨name, binder, value.erase, isPublic, field, cached,
      looping && name.isSome && field && value.stampable, noSpan⟩ :: eraseRecord rest

end

def Stmt.omissions : Stmt Expr → List Omission
  | .binding bound =>
    .looping (bound.looping && !bound.restrictive && bound.value.stampable) :: bound.value.omissions
  | .expr value => value.omissions

def Stmt.erase : Stmt Expr → Stmt Expr
  | .binding bound =>
    .binding ⟨[], noSpan, bound.binder, bound.value.erase, bound.restrictive, bound.cached,
      bound.looping && !bound.restrictive && bound.value.stampable⟩
  | .expr value => .expr value.erase

def RecordField.omissions (field : RecordField Expr) : List Omission :=
  .looping (field.looping && field.name.isSome && field.field && field.value.stampable) ::
    field.value.omissions

def RecordField.erase (field : RecordField Expr) : RecordField Expr :=
  ⟨field.name, field.binder, field.value.erase, field.isPublic, field.field, field.cached,
    field.looping && field.name.isSome && field.field && field.value.stampable, noSpan⟩

/-- A statement of a record program keeps its name and its mark. -/
def BlockStmt.erase (statement : BlockStmt) : BlockStmt :=
  match statement.stmt with
  | .binding bound =>
    ⟨.binding ⟨bound.name, noSpan, bound.binder, bound.value.erase, bound.restrictive,
      bound.cached, bound.looping && !bound.restrictive && bound.value.stampable⟩,
      statement.isPublic⟩
  | .expr value => ⟨.expr value.erase, statement.isPublic⟩

def Program.omissions (p : Program) : List Omission :=
  p.statements.flatMap (fun statement => statement.stmt.omissions) ++ omissionsOpt p.expr

def Program.erase (p : Program) : Program :=
  match p.expr with
  | none => ⟨p.statements.map BlockStmt.erase, none, [], []⟩
  | some tail => ⟨p.statements.map fun statement => ⟨statement.stmt.erase, false⟩,
      some tail.erase, [], []⟩

open PrefixCode

abbrev KeyReader := Reader Nat Omission

namespace KeyReader

def choice {A : Type} (choices : List A) (word : A → Nat) : KeyReader A := do
  let found ← next
  StateT.lift (choices.find? fun choice => word choice == found)

def flag : KeyReader Bool := do
  let word ← next
  pure (word == 1)

def text : KeyReader Text := do
  let length ← next
  let bytes ← times next length
  pure (bytes.map UInt8.ofNat)

/-- A name that a flag before it announced. -/
def fieldName : Bool → KeyReader (Option Text)
  | false => pure none
  | true => do
    let name ← text
    pure (some name)

def binder : KeyReader (Option BinderId) := do
  let word ← next
  pure (if inside : word < 18446744073709551615 then some ⟨word, inside⟩ else none)

def looping : KeyReader Bool := do
  let left ← nextOmitted
  match left with
  | .looping stamped => pure stamped
  | _ => failure

def count : KeyReader Nat := do
  let left ← nextOmitted
  match left with
  | .marks count => pure count
  | .operands count => pure count
  | _ => failure

def isTypeSet : KeyReader Bool := do
  let left ← nextOmitted
  match left with
  | .isTypeSet value => pure value
  | _ => failure

def typeConst : KeyReader TypeConst :=
  choice [.int, .float, .string, .type, .tuple, .array, .struct] KeyWriter.typeConst

def binOp : KeyReader BinOp :=
  choice [.add, .sub, .mul, .div, .rem, .lt, .gt, .leq, .geq, .eq, .neq, .bitAnd, .bitOr, .bitXor,
    .isIn] KeyWriter.binOp

def keyword : KeyReader PrefixOp :=
  choice [.int2Float, .float2Int, .max, .min, .exp, .sqrt, .floor, .sin, .cos, .ln]
    KeyWriter.keyword

section

variable (expr : KeyReader Expr)

def exprs : KeyReader (List Expr) := do
  let length ← next
  times expr length

def optExpr : KeyReader (Option Expr) := do
  let here ← flag
  if here then
    let inner ← expr
    pure (some inner)
  else pure none

def fieldValue : KeyReader (StructFieldValue Expr) := do
  let name ← text
  let value ← expr
  pure ⟨name, value⟩

def pair : KeyReader (Expr × Expr) := do
  let key ← expr
  let value ← expr
  pure (key, value)

def stmt : KeyReader (Stmt Expr) := do
  let form ← next
  match form with
  | 0 =>
    let restrictive ← flag
    let cached ← flag
    let binder ← binder
    let looping ← looping
    let value ← expr
    pure (.binding ⟨[], noSpan, binder, value, restrictive, cached, looping⟩)
  | _ =>
    let value ← expr
    pure (.expr value)

def recordField : KeyReader (RecordField Expr) := do
  let named ← flag
  let field ← flag
  let isPublic ← flag
  let cached ← flag
  let name ← fieldName named
  let binder ← binder
  let looping ← looping
  let value ← expr
  pure ⟨name, binder, value, isPublic, field, cached, looping, noSpan⟩

/-- Read the fields of the form that a tag opens. -/
def form : Nat → KeyReader Expr
  | 0 => do
    let value ← next
    pure (.int value noSpan)
  | 33 => do
    let bits ← next
    pure (.float (UInt32.ofNat bits) noSpan)
  | 24 => do
    let content ← text
    pure (.str content noSpan)
  | 1 => do
    let constant ← typeConst
    pure (.typeConst constant noSpan)
  | 2 => do
    let binder ← binder
    pure (.name [] noSpan binder)
  | 3 => pure (.placeholder noSpan)
  | 36 => do
    let set ← isTypeSet
    if set then
      let element ← expr
      pure (.typeSet element noSpan)
    else pure (.any noSpan)
  | 38 => do
    let inner ← expr
    pure (.gc inner noSpan)
  | 4 => pure (.err (0, 0) noSpan)
  | 5 => do
    let binder ← binder
    let type ← optExpr expr
    let _ ← next
    let perspective ← optExpr expr
    let _ ← next
    let body ← expr
    pure (.lambda [] noSpan binder type perspective body noSpan)
  | 8 => do
    let function ← expr
    let argument ← expr
    pure (.apply function argument noSpan)
  | 39 => do
    let actual ← expr
    let expected ← expr
    pure (.unify actual expected noSpan)
  | 40 => do
    let actual ← expr
    let template ← expr
    pure (.templateUnify actual template noSpan)
  | 9 => do
    let operator ← binOp
    let left ← expr
    let right ← expr
    pure (.binOp operator left right noSpan)
  | 10 => do
    let condition ← expr
    let thenBranch ← expr
    let elseBranch ← expr
    pure (.cond condition thenBranch elseBranch noSpan)
  | 11 => do
    let value ← expr
    pure (.assert value noSpan)
  | 34 => do
    let operator ← keyword
    let length ← count
    let operands ← times expr length
    pure (.keyword operator operands noSpan)
  | 12 => do
    let op ← text
    let args ← exprs expr
    pure (.nativeCall op args noSpan)
  | 13 => do
    let array ← expr
    let position ← expr
    pure (.index array position noSpan)
  | 14 => do
    let container ← expr
    let key ← expr
    pure (.fieldRead container key noSpan)
  | 32 => do
    let container ← expr
    let name ← text
    pure (.namedFieldRead container name noSpan)
  | 15 => do
    let container ← expr
    let key ← expr
    pure (.tableFind container key noSpan)
  | 16 => do
    let value ← expr
    let type ← optExpr expr
    let perspective ← optExpr expr
    let doc ← optExpr expr
    let refinement ← optExpr expr
    let length ← count
    let marks ← times text length
    pure (.annotated value type perspective refinement doc marks noSpan)
  | 29 => do
    let elements ← exprs expr
    pure (.tuple elements noSpan)
  | 35 => do
    let members ← exprs expr
    pure (.set members noSpan)
  | 37 => do
    let key ← expr
    let value ← expr
    pure (.typeTable key value noSpan)
  | 42 => do
    let length ← next
    let fields ← times (fieldValue expr) length
    pure (.structValue fields noSpan)
  | 43 => do
    let template ← expr
    let length ← expr
    pure (.array template length noSpan)
  | 44 => do
    let template ← expr
    let elements ← exprs expr
    pure (.arrayInst template elements noSpan)
  | 19 => do
    let callee ← expr
    let length ← next
    let fields ← times (fieldValue expr) length
    pure (.structInst callee fields noSpan)
  | 20 => do
    let length ← next
    let entries ← times (pair expr) length
    pure (.table entries noSpan)
  | 21 => do
    let depth ← next
    let inner ← expr
    pure (.shallow inner depth noSpan)
  | 23 => do
    let length ← next
    let statements ← times (stmt expr) length
    let result ← expr
    pure (.block statements result noSpan)
  | 25 => do
    let length ← next
    let fields ← times (recordField expr) length
    pure (.recordBlock fields noSpan)
  | _ => failure

end

/-- Read an expression of at most so many nested forms. -/
def expr : Nat → KeyReader Expr
  | 0 => failure
  | fuel + 1 => do
    let tag ← next
    form (expr fuel) tag

def blockStmt (fuel : Nat) : KeyReader BlockStmt := do
  let _ ← next
  let named ← flag
  let field ← flag
  let isPublic ← flag
  if named then
    let name ← text
    let cached ← flag
    let binder ← binder
    let looping ← looping
    let value ← expr fuel
    pure ⟨.binding ⟨name, noSpan, binder, value, !field, cached, looping⟩, isPublic⟩
  else
    let value ← expr fuel
    pure ⟨.expr value, isPublic⟩

def program (fuel : Nat) : KeyReader Program := do
  let record ← flag
  let length ← next
  if record then
    let statements ← times (blockStmt fuel) length
    pure ⟨statements, none, [], []⟩
  else
    let statements ← times (stmt (expr fuel)) length
    let _ ← next
    let tail ← expr fuel
    pure ⟨statements.map fun statement => ⟨statement, false⟩, some tail, [], []⟩

end KeyReader

end LichenVm.Ast
