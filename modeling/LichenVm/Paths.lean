import LichenVm.Ast

/-! Occurrence paths: a position's route from the program root. -/

namespace LichenVm.Ast

inductive Step where
  | name (name : Text)
  | index (index : Nat)
  | tail
  deriving DecidableEq

abbrev Path := List Step

/-- What a path resolves to. -/
inductive Node where
  | binding (bound : Binding Expr)
  | field (field : RecordField Expr)
  | expr (value : Expr)

def Node.value : Node → Expr
  | .binding bound => bound.value
  | .field kept => kept.value
  | .expr value => value

/-- The names that appear more than once; their steps fall back to an index. -/
def repeatedNames (names : List (Option Text)) : List Text :=
  names.reduceOption.filter fun name => names.count (some name) ≠ 1

def fieldStep (name : Option Text) (index : Nat) (repeated : List Text) : Step :=
  match name with
  | some name => if name ∈ repeated then .index index else .name name
  | none => .index index

def Stmt.name : Stmt Expr → Option Text
  | .binding bound => some bound.name
  | .expr _ => none

def Stmt.node : Stmt Expr → Node
  | .binding bound => .binding bound
  | .expr value => .expr value

/-- The children of a list of expressions, from an index on. -/
def indexed (first : Nat) (values : List Expr) : List (Step × Node) :=
  values.zipIdx.map fun place => (.index (first + place.2), .expr place.1)

def opt (index : Nat) (value : Option Expr) : List (Step × Node) :=
  value.toList.map fun inner => (.index index, .expr inner)

def fieldValuePositions (first : Nat) (fields : List (StructFieldValue Expr)) :
    List (Step × Node) :=
  let repeated := repeatedNames (fields.map fun field => some field.name)
  fields.zipIdx.map fun place =>
    (fieldStep (some place.1.name) (place.2 + first) repeated, .expr place.1.value)

def stmtPositions (statements : List (Stmt Expr)) : List (Step × Node) :=
  let repeated := repeatedNames (statements.map Stmt.name)
  statements.zipIdx.map fun place => (fieldStep place.1.name place.2 repeated, place.1.node)

/-- The children of an expression, each with the step that reaches it. -/
def children : Expr → List (Step × Node)
  | .lambda _ _ _ type perspective body _ =>
    opt 0 type ++ opt 1 perspective ++ [(.index 2, .expr body)]
  | .apply function argument _ => indexed 0 [function, argument]
  | .unify actual expected _ => indexed 0 [actual, expected]
  | .templateUnify actual template _ => indexed 0 [actual, template]
  | .binOp _ left right _ => indexed 0 [left, right]
  | .cond condition thenBranch elseBranch _ => indexed 0 [condition, thenBranch, elseBranch]
  | .assert value _ => indexed 0 [value]
  | .keyword _ operands _ => indexed 0 operands
  | .nativeCall _ args _ => indexed 0 args
  | .index array position _ => indexed 0 [array, position]
  | .fieldRead container key _ => indexed 0 [container, key]
  | .namedFieldRead container _ _ => indexed 0 [container]
  | .tableFind container key _ => indexed 0 [container, key]
  | .annotated value type perspective refinement doc _ _ =>
    indexed 0 [value] ++ opt 1 type ++ opt 2 perspective ++ opt 3 doc ++ opt 4 refinement
  | .tuple elements _ => indexed 0 elements
  | .set members _ => indexed 0 members
  | .structValue fields _ => fieldValuePositions 0 fields
  | .structInst callee fields _ => indexed 0 [callee] ++ fieldValuePositions 1 fields
  | .array template length _ => indexed 0 [template, length]
  | .arrayInst template elements _ => indexed 0 (template :: elements)
  | .table entries _ => indexed 0 (entries.flatMap fun entry => [entry.1, entry.2])
  | .typeSet element _ => indexed 0 [element]
  | .typeTable key value _ => indexed 0 [key, value]
  | .shallow inner _ _ => indexed 0 [inner]
  | .block statements result _ => stmtPositions statements ++ [(.tail, .expr result)]
  | .recordBlock fields _ =>
    let repeated := repeatedNames (fields.map RecordField.name)
    fields.zipIdx.map fun place => (fieldStep place.1.name place.2 repeated, .field place.1)
  | .gc inner _ => children inner
  | _ => []

/-- Every position of a list of children, each with what lies below it. -/
def descendAll (positions : List (Step × Node)) (below : List (Path → List (Path × Node)))
    (path : Path) : List (Path × Node) :=
  (positions.zip below).flatMap fun place =>
    (path ++ [place.1.1], place.1.2) :: place.2 (path ++ [place.1.1])

mutual

/-- What lies below each child of an expression. -/
def below : Expr → List (Path → List (Path × Node))
  | .lambda _ _ _ type perspective body _ =>
    belowOpt type ++ belowOpt perspective ++ [descendAll (children body) (below body)]
  | .apply function argument _ =>
    [descendAll (children function) (below function),
      descendAll (children argument) (below argument)]
  | .unify actual expected _ =>
    [descendAll (children actual) (below actual), descendAll (children expected) (below expected)]
  | .templateUnify actual template _ =>
    [descendAll (children actual) (below actual), descendAll (children template) (below template)]
  | .binOp _ left right _ =>
    [descendAll (children left) (below left), descendAll (children right) (below right)]
  | .cond condition thenBranch elseBranch _ =>
    [descendAll (children condition) (below condition), descendAll (children thenBranch) (below thenBranch),
      descendAll (children elseBranch) (below elseBranch)]
  | .assert value _ => [descendAll (children value) (below value)]
  | .keyword _ operands _ => belowAll operands
  | .nativeCall _ args _ => belowAll args
  | .index array position _ =>
    [descendAll (children array) (below array), descendAll (children position) (below position)]
  | .fieldRead container key _ =>
    [descendAll (children container) (below container), descendAll (children key) (below key)]
  | .namedFieldRead container _ _ => [descendAll (children container) (below container)]
  | .tableFind container key _ =>
    [descendAll (children container) (below container), descendAll (children key) (below key)]
  | .annotated value type perspective refinement doc _ _ =>
    descendAll (children value) (below value) :: (belowOpt type ++ belowOpt perspective ++
      belowOpt doc ++
      belowOpt refinement)
  | .tuple elements _ => belowAll elements
  | .set members _ => belowAll members
  | .structValue fields _ => belowFields fields
  | .structInst callee fields _ => descendAll (children callee) (below callee) :: belowFields fields
  | .array template length _ =>
    [descendAll (children template) (below template), descendAll (children length) (below length)]
  | .arrayInst template elements _ =>
    descendAll (children template) (below template) :: belowAll elements
  | .table entries _ => belowPairs entries
  | .typeSet element _ => [descendAll (children element) (below element)]
  | .typeTable key value _ =>
    [descendAll (children key) (below key), descendAll (children value) (below value)]
  | .shallow inner _ _ => [descendAll (children inner) (below inner)]
  | .block statements result _ =>
    belowStmts statements ++ [descendAll (children result) (below result)]
  | .recordBlock fields _ => belowRecord fields
  | .gc inner _ => below inner
  | _ => []

def belowAll : List Expr → List (Path → List (Path × Node))
  | [] => []
  | value :: rest => descendAll (children value) (below value) :: belowAll rest

def belowOpt : Option Expr → List (Path → List (Path × Node))
  | some inner => [descendAll (children inner) (below inner)]
  | none => []

def belowFields : List (StructFieldValue Expr) → List (Path → List (Path × Node))
  | [] => []
  | ⟨_, value⟩ :: rest => descendAll (children value) (below value) :: belowFields rest

def belowPairs : List (Expr × Expr) → List (Path → List (Path × Node))
  | [] => []
  | (key, value) :: rest =>
    descendAll (children key) (below key) ::
      descendAll (children value) (below value) :: belowPairs rest

def belowStmts : List (Stmt Expr) → List (Path → List (Path × Node))
  | [] => []
  | .binding ⟨_, _, _, value, _, _, _⟩ :: rest =>
    descendAll (children value) (below value) :: belowStmts rest
  | .expr value :: rest => descendAll (children value) (below value) :: belowStmts rest

def belowRecord : List (RecordField Expr) → List (Path → List (Path × Node))
  | [] => []
  | ⟨_, _, value, _, _, _, _, _⟩ :: rest =>
    descendAll (children value) (below value) :: belowRecord rest

end

/-- Every position below an expression, depth first, with its path. -/
def descend (e : Expr) : Path → List (Path × Node) := descendAll (children e) (below e)

/-- The children of the program root: its statements, then its tail. -/
def rootChildren (p : Program) : List (Step × Node) :=
  stmtPositions (p.statements.map BlockStmt.stmt) ++
    p.expr.toList.map fun value => (.tail, .expr value)

/-- Every position of a program, depth first, with its path. -/
def forEach (p : Program) : List (Path × Node) :=
  descendAll (rootChildren p) ((rootChildren p).map fun place => descend place.2.value) []

end LichenVm.Ast
