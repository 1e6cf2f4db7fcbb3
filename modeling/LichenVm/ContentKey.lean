import LichenVm.Ast

namespace LichenVm.Ast

abbrev Words := List Nat

def KEY_FORMAT_VERSION : Nat := 9

namespace KeyWriter

def flag (value : Bool) : Words := [value.toNat]

def text (content : Text) : Words := content.length :: content.map UInt8.toNat

def typeConst : TypeConst → Nat
  | .int => 0
  | .float => 3
  | .type => 1
  | .string => 2
  | .tuple => 4
  | .array => 5
  | .struct => 6

def binOp : BinOp → Nat
  | .add => 0
  | .sub => 1
  | .leq => 2
  | .eq => 3
  | .mul => 4
  | .div => 5
  | .rem => 6
  | .lt => 7
  | .gt => 8
  | .geq => 9
  | .neq => 10
  | .bitAnd => 11
  | .bitOr => 12
  | .bitXor => 13
  | .isIn => 14

def keyword : PrefixOp → Nat
  | .int2Float => 0
  | .float2Int => 1
  | .max => 2
  | .min => 3
  | .exp => 4
  | .sqrt => 5
  | .floor => 6
  | .sin => 7
  | .cos => 8
  | .ln => 9

/-- A binder as its resolution id. -/
def binderId : Option BinderId → Words
  | some binder => [binder.val]
  | none => [UNRESOLVED]

variable (binders : Option BinderId → Words)

mutual

/-- One expression: its own tag, then its fields. -/
def expr : Expr → Words
  | .int value _ => [0, value]
  | .float bits _ => [33, bits.toNat]
  | .str content _ => 24 :: text content
  | .typeConst constant _ => [1, typeConst constant]
  | .name _ _ binder => 2 :: binders binder
  | .placeholder _ => [3]
  | .any _ => [36]
  | .gc inner _ => 38 :: expr inner
  | .err _ _ => [4]
  | .lambda _ _ binder type perspective body _ =>
    5 :: (binders binder ++ (optExpr type ++ 6 :: (optExpr perspective ++ 7 :: expr body)))
  | .apply function argument _ => 8 :: (expr function ++ expr argument)
  | .unify actual expected _ => 39 :: (expr actual ++ expr expected)
  | .templateUnify actual template _ => 40 :: (expr actual ++ expr template)
  | .binOp operator left right _ => 9 :: binOp operator :: (expr left ++ expr right)
  | .cond condition thenBranch elseBranch _ =>
    10 :: (expr condition ++ (expr thenBranch ++ expr elseBranch))
  | .assert value _ => 11 :: expr value
  | .keyword operator operands _ => 34 :: keyword operator :: exprs operands
  | .nativeCall op args _ => 12 :: (text op ++ args.length :: exprs args)
  | .index array position _ => 13 :: (expr array ++ expr position)
  | .fieldRead container key _ => 14 :: (expr container ++ expr key)
  | .namedFieldRead container name _ => 32 :: (expr container ++ text name)
  | .tableFind container key _ => 15 :: (expr container ++ expr key)
  | .annotated value type perspective refinement doc marks _ =>
    16 :: (expr value ++ (optExpr type ++ (optExpr perspective ++ (optExpr doc ++
      (optExpr refinement ++ marks.flatMap text)))))
  | .tuple elements _ => 29 :: elements.length :: exprs elements
  | .set members _ => 35 :: members.length :: exprs members
  | .typeSet element _ => 36 :: expr element
  | .typeTable key value _ => 37 :: (expr key ++ expr value)
  | .structValue fields _ => 42 :: fields.length :: fieldValues fields
  | .array template length _ => 43 :: (expr template ++ expr length)
  | .arrayInst template elements _ => 44 :: (expr template ++ elements.length :: exprs elements)
  | .structInst callee fields _ => 19 :: (expr callee ++ fields.length :: fieldValues fields)
  | .table entries _ => 20 :: entries.length :: pairs entries
  | .shallow inner depth _ => 21 :: depth :: expr inner
  | .block statements result _ => 23 :: statements.length :: (stmts statements ++ expr result)
  | .recordBlock fields _ => 25 :: fields.length :: recordFields fields

def exprs : List Expr → Words
  | [] => []
  | value :: rest => expr value ++ exprs rest

def optExpr : Option Expr → Words
  | some inner => 1 :: expr inner
  | none => [0]

def fieldValues : List (StructFieldValue Expr) → Words
  | [] => []
  | ⟨name, value⟩ :: rest => text name ++ expr value ++ fieldValues rest

def pairs : List (Expr × Expr) → Words
  | [] => []
  | (key, value) :: rest => expr key ++ expr value ++ pairs rest

/-- Statements whose `pub` marks are dropped. -/
def stmts : List (Stmt Expr) → Words
  | [] => []
  | .binding ⟨_, _, binder, value, restrictive, cached, _⟩ :: rest =>
    0 :: (flag restrictive ++ (flag cached ++ (binders binder ++ expr value))) ++ stmts rest
  | .expr value :: rest => 1 :: expr value ++ stmts rest

def recordFields : List (RecordField Expr) → Words
  | [] => []
  | ⟨name, binder, value, isPublic, field, cached, _, _⟩ :: rest =>
    (flag name.isSome ++ (flag field ++ (flag isPublic ++ (flag cached ++
      ((name.map text).getD [] ++ (binders binder ++ expr value)))))) ++ recordFields rest

end

def recordField (statement : BlockStmt) : Words :=
  match statement.stmt with
  | .binding bound =>
    3 :: (flag true ++ (flag (!bound.restrictive) ++ (flag statement.isPublic ++
      (text bound.name ++ (flag bound.cached ++ (binders bound.binder ++
        expr binders bound.value))))))
  | .expr value =>
    3 :: (flag false ++ (flag true ++ (flag statement.isPublic ++ expr binders value)))

def program (p : Program) : Words :=
  match p.expr with
  | none => flag true ++ p.statements.length :: p.statements.flatMap (recordField binders)
  | some tail => flag false ++ p.statements.length ::
      (stmts binders (p.statements.map BlockStmt.stmt) ++ 2 :: expr binders tail)

end KeyWriter

/-- The key of a resolved program: what a session compares to reuse a build. -/
def contentKey (p : Program) : Words :=
  KEY_FORMAT_VERSION :: KeyWriter.program KeyWriter.binderId p

end LichenVm.Ast
