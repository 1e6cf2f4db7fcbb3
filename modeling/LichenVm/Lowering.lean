import LichenVm.HighIr
import LichenVm.Paths

/-! The lowering of a resolved program. A use of a name is the binder's own expression, so the IR
is a graph. -/

namespace LichenVm.Lowering

open Ast HighIr

abbrev SpanIndex := List (Option Span)

/-- A marked binding a build compiled. -/
structure CompiledCell where
  path : Path
  name : Text
  expr : ExprId
  deriving DecidableEq

/-- An import bound in the base scope. -/
structure ImportBinder where
  binder : BinderId
  exported : StaticNodeId
  span : Span

structure Compiler where
  ir : IR
  /-- The marked bindings, with their paths and names. -/
  cached : BinderId → Option (Path × Text)
  /-- What a clean cell's binding is lowered to. -/
  reusable : BinderId → Option StaticNodeId
  compiledCells : List CompiledCell
  binderToExpr : List (Option ExprId)
  /-- The enclosing functions, the innermost last. -/
  fnParents : List ExprId
  spans : SpanIndex
  prelude : Text → Option BinderId

abbrev CompileM := StateT Compiler Option

theorem bind_some {A B : Type} {first : CompileM A} {next : A → CompileM B} {c : Compiler}
    {made : B × Compiler} : (first >>= next) c = some made ↔
      ∃ value d, first c = some (value, d) ∧ next value d = some made := by
  change (first c).bind (fun state => next state.1 state.2) = some made ↔ _
  rw [Option.bind_eq_some_iff]
  exact Prod.exists

/-- Allocate in the IR, with the span of the new expression. -/
def allocWith (make : IR → ExprId × IR) (span : Span) : CompileM ExprId := fun c =>
  let (id, ir) := make c.ir
  some (id, { c with ir, spans := c.spans ++ [some span] })

def alloc (kind : ExprKind) : Span → CompileM ExprId := allocWith (IR.alloc kind)

def modifyIr (f : IR → IR) : CompileM Unit := fun c => some ((), { c with ir := f c.ir })

/-- Record a binder's expression. -/
def setBinder (binder : BinderId) (expr : ExprId) : CompileM Unit := fun c =>
  let grown := c.binderToExpr ++
    List.replicate (binder.val + 1 - c.binderToExpr.length) none
  some ((), { c with binderToExpr := grown.set binder.val (some expr) })

/-- The expression a resolved use points to. -/
def binder (binder : BinderId) : CompileM ExprId := fun c =>
  match c.binderToExpr[binder.val]? with
  | some (some expr) => some (expr, c)
  | _ => none

/-- A binder the resolver has set. -/
def expect (binder : Option BinderId) : CompileM BinderId := StateT.lift binder

def reusable (binder : Option BinderId) : CompileM (Option (BinderId × StaticNodeId)) := fun c =>
  some (binder.bind fun binder => (c.reusable binder).map (binder, ·), c)

/-- The name a surface operator is looked up under in the prelude. -/
def routedName : BinOp → Option Text
  | .add => some (Lexer.bytes "add")
  | .sub => some (Lexer.bytes "sub")
  | .mul => some (Lexer.bytes "mul")
  | .div => some (Lexer.bytes "div")
  | .lt => some (Lexer.bytes "less")
  | .gt => some (Lexer.bytes "greater")
  | .leq => some (Lexer.bytes "less_or_equal")
  | .geq => some (Lexer.bytes "greater_or_equal")
  | _ => none

def routedOperator (operator : BinOp) : CompileM (Option BinderId) := fun c =>
  some ((routedName operator).bind c.prelude, c)

/-- A statement's value, as its lowering. -/
structure Value where
  isName : Bool
  compile : CompileM ExprId

/-- Reserve a placeholder for every block-wide binding. -/
def reserve : List (Stmt Value) → CompileM Unit
  | [] => pure ()
  | .binding bound :: rest => do
    if bound.restrictive then reserve rest
    else
      let binder ← expect bound.binder
      let p ← alloc .placeholder bound.span
      modifyIr fun ir => { ir with blockRoots := insert p ir.blockRoots }
      setBinder binder p
      reserve rest
  | .expr _ :: rest => reserve rest

/-- A `@loop` mark goes onto a function, and onto nothing else. -/
def stamp (looping : Bool) : ExprKind → ExprKind
  | .function parameter type attr body parent mark =>
    .function parameter type attr body parent (mark || looping)
  | other => other

/-- Move a binding's value under its placeholder. -/
def transplant (looping : Bool) (p value : ExprId) : CompileM Unit := fun c =>
  match c.ir.expr[value]? with
  | none => none
  | some kind =>
    let ir := (c.ir.setKind p (stamp looping kind)).repoint value p
    let spans := c.spans.set p ((c.spans[value]?).getD none)
    some ((), { c with ir := ir.setSchema p (ir.schema value), spans })

/-- A clean cell is read in place, nothing below it is lowered. -/
def readCell (bound : Binding Value) (binder : BinderId) (exported : StaticNodeId) :
    CompileM ExprId := do
  if bound.restrictive then
    let id ← alloc (.static exported) bound.span
    setBinder binder id
    pure id
  else
    let p ← Lowering.binder binder
    modifyIr (IR.setKind p (.static exported))
    setBinder binder p
    pure p

def compileBinding (bound : Binding Value) : CompileM ExprId := do
  if bound.restrictive then
    let id ← bound.value.compile
    let binder ← expect bound.binder
    setBinder binder id
    pure id
  else
    let binder ← expect bound.binder
    let p ← Lowering.binder binder
    let value ← bound.value.compile
    if bound.value.isName then
      -- A bare name is the expression it names.
      modifyIr (IR.repoint p value)
      setBinder binder value
      pure value
    else
      transplant bound.looping p value
      pure p

/-- Lower one statement of a scope. -/
def compileStatement : Stmt Value → CompileM ExprId
  | .expr value => value.compile
  | .binding bound => do
    match ← reusable bound.binder with
    | some (binder, exported) => readCell bound binder exported
    | none => compileBinding bound

/-- Only a marked binding that was compiled is frozen. -/
def recordCell (statement : Stmt Value) (id : ExprId) : CompileM Unit := fun c =>
  match statement with
  | .binding bound =>
    match bound.cached, bound.binder.bind fun binder =>
        if (c.reusable binder).isSome then none else c.cached binder with
    | true, some (path, name) =>
      some ((), { c with compiledCells := c.compiledCells ++ [⟨path, name, id⟩] })
    | _, _ => some ((), c)
  | .expr _ => some ((), c)

def compileStatements : List (Stmt Value) → CompileM (List ExprId)
  | [] => pure []
  | statement :: rest => do
    let id ← compileStatement statement
    recordCell statement id
    let ids ← compileStatements rest
    pure (id :: ids)

def compileScopeStatements (statements : List (Stmt Value)) : CompileM (List ExprId) := do
  reserve statements
  compileStatements statements

/-- Wire a block's statements before its final expression. -/
def wrap (statements : List ExprId) (final : ExprId) (span : Span) : CompileM ExprId := do
  let statements :=
    if statements.getLast? = some final then statements.dropLast else statements
  if statements.isEmpty then pure final
  else
    let statements := statements ++ [final]
    let tuple ← allocWith (IR.allocTuple statements) span
    let index ← alloc (.literal (.int (statements.length - 1))) span
    alloc (.field tuple index) span

/-- The fields of a record: only the `pub` ones when there is one, and no locals. -/
def emitted {E : Type} (fields : List (RecordField E)) (ids : List ExprId) :
    List (Option Text × ExprId) :=
  let anyPub := fields.any RecordField.isPublic
  ((fields.zip ids).filter fun place => place.1.field && !(anyPub && !place.1.isPublic)).map
    fun place => (place.1.name, place.2)

/-- A record's field as a statement of its scope. -/
def fieldStmt {E : Type} (field : RecordField E) : Stmt E :=
  match field.name with
  | some name =>
    .binding ⟨name, field.span, field.binder, field.value, !field.field, field.cached,
      field.looping⟩
  | none => .expr field.value

def compileRecordFields (fields : List (RecordField Value)) (span : Span) :
    CompileM (List ExprId × ExprId) := do
  let ids ← compileScopeStatements (fields.map fieldStmt)
  let kept := emitted fields ids
  let value ← allocWith (IR.allocTuple (kept.map Prod.snd)) span
  let record ← allocWith (IR.allocRecord value (kept.map Prod.fst)) span
  pure (ids, record)

def addMarks (id : ExprId) (marks : List Text) : CompileM Unit :=
  modifyIr fun ir => marks.foldl (fun ir mark => ir.addMark id mark) ir

/-- The attributes an annotation spells, in their canonical order. -/
def spelled (perspective doc refinement : Option ExprId) : List (LangAttr × ExprId) :=
  perspective.toList.map (.perspective, ·) ++ doc.toList.map (.doc, ·) ++
    refinement.toList.map (.refinement, ·)

/-- An annotation that only carries marks is the value it annotates. -/
def annotated (value : ExprId) (type : Option ExprId) (spelled : List (LangAttr × ExprId))
    (span : Span) : CompileM ExprId := do
  if type.isNone && spelled.isEmpty then pure value
  else
    let id ← allocWith (IR.allocAnnotation value type (spelled.map Prod.snd)) span
    modifyIr fun ir => if spelled.isEmpty then ir else ir.setSchema id (spelled.map Prod.fst)
    pure id

def annotate (value : ExprId) (type : Option ExprId) (spelled : List (LangAttr × ExprId))
    (marks : List Text) (span : Span) : CompileM ExprId := do
  let id ← annotated value type spelled span
  addMarks id marks
  pure id

def pushParent (function : ExprId) : CompileM Unit := fun c =>
  some ((), { c with fnParents := c.fnParents ++ [function] })

def popParent : CompileM Unit := fun c =>
  some ((), { c with fnParents := c.fnParents.dropLast })

def parent : CompileM (Option ExprId) := fun c => some (c.fnParents.getLast?, c)

def literalOf : TypeConst → Literal
  | .int => .intType
  | .float => .floatType
  | .string => .stringType
  | .type => .typeType
  | .tuple => .tupleTemplate
  | .array => .arrayTemplate
  | .struct => .structTemplate

/-- Whether an element is marked, and the depth it carries. -/
def markDepth : Expr → Bool × Nat
  | .shallow _ depth _ => (true, depth)
  | _ => (false, 0)

/-- The depths of an instance's elements, none when no element is marked. -/
def depthsOf (elements : List Expr) : List Nat :=
  let depths := elements.map markDepth
  if depths.any Prod.fst then depths.map Prod.snd else []

mutual

/-- Lower one expression. -/
def compileExpr : Expr → CompileM ExprId
  | .int value span => alloc (.literal (.int value)) span
  | .float bits span => alloc (.literal (.float bits)) span
  | .str content span => alloc (.literal (.str content)) span
  | .typeConst constant span => alloc (.literal (literalOf constant)) span
  | .any span => alloc (.literal .any) span
  | .name _ span binder =>
    match binder with
    | some id => Lowering.binder id
    | none => alloc .errorBlock span
  | .placeholder span => alloc .placeholder span
  | .err _ start => alloc .errorBlock start
  | .lambda _ parameterSpan parameterBinder type perspective body span => do
    let parent ← parent
    let functionId ← alloc .placeholder span
    let parameterId ← alloc .parameter parameterSpan
    modifyIr fun ir =>
      if perspective.isSome then ir.setSchema parameterId [.perspective] else ir
    let binder ← expect parameterBinder
    setBinder binder parameterId
    let type ← compileOpt type
    let attr ← compileOpt perspective
    pushParent functionId
    let body ← compileExpr body
    popParent
    modifyIr (IR.setKind functionId (.function parameterId type attr body parent false))
    pure functionId
  | .apply function argument span => do
    let function ← compileExpr function
    let argument ← compileExpr argument
    alloc (.apply function argument) span
  | .unify actual expected span => do
    let actual ← compileExpr actual
    let expected ← compileExpr expected
    alloc (.unify actual expected) span
  | .templateUnify actual template span => do
    let actual ← compileExpr actual
    let template ← compileExpr template
    let hole ← alloc .placeholder span
    let expected ← alloc (.apply template hole) span
    alloc (.unify actual expected) span
  | .structInst callee fields span => do
    let template ← compileExpr callee
    let hole ← alloc .placeholder span
    let template ← alloc (.apply template hole) span
    let ids ← compileFields fields
    let value ← allocWith (IR.allocTuple ids) span
    allocWith (IR.allocInstantiate template value (fields.map fun field => some field.name)) span
  | .structValue fields span => do
    let ids ← compileFields fields
    allocWith (IR.allocStruct (ids.zip (fields.map fun field => some field.name))) span
  | .array template length span => do
    let template ← compileExpr template
    let length ← compileExpr length
    alloc (.array template length) span
  | .arrayInst template elements span => do
    let template ← compileExpr template
    let hole ← alloc .placeholder span
    let template ← alloc (.apply template hole) span
    let ids ← compileElements elements
    allocWith (IR.allocArrayInst template ids (depthsOf elements)) span
  | .binOp operator left right span => do
    let left ← compileExpr left
    let right ← compileExpr right
    match ← routedOperator operator with
    | some binder =>
      let operands ← allocWith (IR.allocTuple [left, right]) span
      let function ← Lowering.binder binder
      alloc (.apply function operands) span
    | none => alloc (.binOp operator left right) span
  | .cond condition thenBranch elseBranch span => do
    let condition ← compileExpr condition
    let thenBranch ← compileExpr thenBranch
    let elseBranch ← compileExpr elseBranch
    let branches ← allocWith (IR.allocTuple [elseBranch, thenBranch]) span
    alloc (.field branches condition) span
  | .assert value span => do
    let condition ← compileExpr value
    alloc (.assert condition) span
  | .keyword operator operands span => do
    let ids ← compileAll operands
    allocWith (IR.allocVariadic ids (.keyword operator)) span
  | .nativeCall op args span => do
    let ids ← compileAll args
    allocWith (IR.allocVariadic ids (.nativeCall op)) span
  | .annotated value type perspective refinement doc marks span => do
    let value ← compileExpr value
    let type ← compileOpt type
    let perspective ← compileOpt perspective
    let doc ← compileOpt doc
    let refinement ← compileOpt refinement
    annotate value type (spelled perspective doc refinement) marks span
  | .index array position span => do
    let array ← compileExpr array
    let position ← compileExpr position
    alloc (.index array position) span
  | .tableFind container key span => do
    let container ← compileExpr container
    let key ← compileExpr key
    alloc (.find container key) span
  | .fieldRead container key span => do
    let container ← compileExpr container
    let key ← compileExpr key
    alloc (.field container key) span
  | .namedFieldRead container name span => do
    let container ← compileExpr container
    alloc (.namedField container name) span
  | .tuple elements span => do
    let ids ← compileAll elements
    allocWith (IR.allocTuple ids) span
  | .typeSet element span => do
    let element ← compileExpr element
    allocWith (IR.allocTypeSet element) span
  | .typeTable key value span => do
    let key ← compileExpr key
    let value ← compileExpr value
    allocWith (IR.allocTypeTable key value) span
  | .table entries span => do
    let ids ← compilePairs entries
    allocWith (IR.allocTable ids) span
  | .set members span => do
    let ids ← compileAll members
    allocWith (IR.allocSet ids) span
  | .shallow inner _ _ => compileExpr inner
  | .block statements result span => do
    let ids ← compileScopeStatements (valuesOf statements)
    let final ← compileExpr result
    wrap ids final span
  | .recordBlock fields span => do
    let (_, root) ← compileRecordFields (recordValues fields) span
    pure root
  | .gc inner span => do
    let inner ← compileExpr inner
    alloc (.gc inner) span

def compileAll : List Expr → CompileM (List ExprId)
  | [] => pure []
  | value :: rest => do
    let id ← compileExpr value
    let ids ← compileAll rest
    pure (id :: ids)

/-- A `~` mark on an element is not part of its value. -/
def compileElements : List Expr → CompileM (List ExprId)
  | [] => pure []
  | .shallow inner _ _ :: rest => do
    let id ← compileExpr inner
    let ids ← compileElements rest
    pure (id :: ids)
  | value :: rest => do
    let id ← compileExpr value
    let ids ← compileElements rest
    pure (id :: ids)

def compileOpt : Option Expr → CompileM (Option ExprId)
  | none => pure none
  | some inner => do
    let id ← compileExpr inner
    pure (some id)

def compileFields : List (StructFieldValue Expr) → CompileM (List ExprId)
  | [] => pure []
  | ⟨_, value⟩ :: rest => do
    let id ← compileExpr value
    let ids ← compileFields rest
    pure (id :: ids)

def compilePairs : List (Expr × Expr) → CompileM (List (ExprId × ExprId))
  | [] => pure []
  | (key, value) :: rest => do
    let keyId ← compileExpr key
    let valueId ← compileExpr value
    let ids ← compilePairs rest
    pure ((keyId, valueId) :: ids)

/-- The statements of a scope, each value as its lowering. -/
def valuesOf : List (Stmt Expr) → List (Stmt Value)
  | [] => []
  | .binding ⟨name, span, binder, value, restrictive, cached, looping⟩ :: rest =>
    .binding ⟨name, span, binder, ⟨value.isName, compileExpr value⟩, restrictive, cached,
      looping⟩ :: valuesOf rest
  | .expr value :: rest => .expr ⟨value.isName, compileExpr value⟩ :: valuesOf rest

def recordValues : List (RecordField Expr) → List (RecordField Value)
  | [] => []
  | ⟨name, binder, value, isPublic, field, cached, looping, span⟩ :: rest =>
    ⟨name, binder, ⟨value.isName, compileExpr value⟩, isPublic, field, cached, looping, span⟩ ::
      recordValues rest

end

/-- The marked bindings of a program, by binder. One whose value spells an annotation is left out:
a static read would come back at another arity. -/
def cachedBindings (p : Ast.Program) (binder : BinderId) : Option (Path × Text) :=
  ((forEach p).filterMap fun place =>
    match place.2 with
    | .binding bound =>
      match bound.value with
      | .annotated _ _ _ _ _ _ _ => none
      | _ => if bound.cached && bound.binder = some binder then some (place.1, bound.name) else none
    | .field field =>
      match field.value with
      | .annotated _ _ _ _ _ _ _ => none
      | _ =>
        if field.cached && field.binder = some binder then
          some (place.1, field.name.getD [])
        else none
    | .expr _ => none).getLast?

def seedImports : List ImportBinder → CompileM Unit
  | [] => pure ()
  | bound :: rest => do
    let id ← alloc (.static bound.exported) bound.span
    setBinder bound.binder id
    seedImports rest

def topField (statement : BlockStmt) : RecordField Expr :=
  match statement.stmt with
  | .binding bound =>
    ⟨some bound.name, bound.binder, bound.value, statement.isPublic, !bound.restrictive,
      bound.cached, bound.looping, bound.span⟩
  | .expr value => ⟨none, none, value, statement.isPublic, true, false, false, value.span⟩

/-- Lower a program's statements and its root. -/
def compileProgram (p : Ast.Program) : CompileM (List ExprId × ExprId) :=
  match p.expr with
  | some tail => do
    let ids ← compileScopeStatements (valuesOf (p.statements.map BlockStmt.stmt))
    let final ← compileExpr tail
    pure (ids, final)
  | none =>
    compileRecordFields (recordValues (p.statements.map topField))
      ((p.statements.head?.map fun statement => statement.stmt.span).getD noSpan)

/-- The frozen references of the marked bindings that have a clean cell. -/
def cleanCells (p : Ast.Program) (cells : Option (Path → Option StaticNodeId))
    (binder : BinderId) : Option StaticNodeId :=
  cells.bind fun reference => (cachedBindings p binder).bind fun cell => reference cell.1

/-- A compiler before its first expression, knowing the marked bindings and the clean cells. -/
def Compiler.start (p : Ast.Program) (prelude : List (Text × BinderId))
    (cells : Option (Path → Option StaticNodeId)) : Compiler :=
  { ir := IR.empty
    cached := cachedBindings p
    reusable := cleanCells p cells
    compiledCells := []
    binderToExpr := []
    fnParents := []
    spans := []
    prelude := fun name => (prelude.reverse.find? fun entry => entry.1 = name).map Prod.snd }

def compileTop (p : Ast.Program) (imports : List ImportBinder) :
    CompileM (List ExprId × ExprId) := do
  seedImports imports
  compileProgram p

/-- Lower a resolved program: the IR, the spans of its expressions and the cells it compiled. -/
def compileResolved (p : Ast.Program) (imports : List ImportBinder) (prelude : List (Text × BinderId))
    (cells : Option (Path → Option StaticNodeId)) : Option (IR × SpanIndex × List CompiledCell) :=
  (compileTop p imports (Compiler.start p prelude cells)).map fun made =>
    ({ made.2.ir with stmtRoots := made.1.1, root := made.1.2 }, made.2.spans,
      made.2.compiledCells)

end LichenVm.Lowering
