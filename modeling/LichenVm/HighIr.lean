import Mathlib.Data.Finset.Basic
import LichenVm.Ast
import LichenVm.Value

/-! The expression IR: a dense tree referenced by ids, that the frontend builds. -/

namespace LichenVm.HighIr

open Ast (Text BinOp PrefixOp)

abbrev ExprId := Nat

/-- A half-open range into an arena of the IR. -/
structure ChildRange where
  start : Nat
  stop : Nat
  deriving DecidableEq

inductive Literal where
  | int (value : Nat)
  | float (bits : UInt32)
  | str (content : Text)
  | intType | floatType | stringType | typeType
  | tupleTemplate | arrayTemplate | structTemplate
  | any
  deriving DecidableEq

/-- The attributes, in their canonical order. -/
inductive LangAttr where
  | perspective | doc | refinement
  deriving DecidableEq

def LangAttr.orderIndex : LangAttr → Nat
  | .perspective => 0
  | .doc => 1
  | .refinement => 2

/-- Which attributes ride on an expression. -/
abbrev Schema := List LangAttr

inductive ExprKind where
  | literal (value : Literal)
  | parameter
  | function (parameter : ExprId) (parameterType parameterAttribute : Option ExprId)
      (body : ExprId) (parent : Option ExprId) (looping : Bool)
  | apply (function argument : ExprId)
  | binOp (operator : BinOp) (left right : ExprId)
  | instantiate (template value : ExprId) (names : ChildRange)
  | record (value : ExprId) (names : ChildRange)
  | assert (condition : ExprId)
  | keyword (operator : PrefixOp) (operands : ChildRange)
  | index (array position : ExprId)
  | field (container key : ExprId)
  | namedField (container : ExprId) (name : Text)
  | find (container key : ExprId)
  | annotated (value : ExprId) (type : Option ExprId) (attributes : ChildRange)
  | tuple (elements : ChildRange)
  | typeSet (element : ChildRange)
  | typeTable (parts : ChildRange)
  | array (template length : ExprId)
  | arrayInst (template : ExprId) (elements depths : ChildRange)
  | struct (fields names : ChildRange)
  | set (members : ChildRange)
  | table (entries : ChildRange)
  | placeholder
  | errorBlock
  | static (exported : StaticNodeId)
  | nativeCall (op : Text) (args : ChildRange)
  | gc (inner : ExprId)
  | unify (actual expected : ExprId)
  deriving DecidableEq

/-- Replace the references in a kind's own fields. -/
def ExprKind.repoint (old target : ExprId) (kind : ExprKind) : ExprKind :=
  let fix := fun id => if id = old then target else id
  match kind with
  | .function param type attr body parent looping =>
    .function (fix param) (type.map fix) (attr.map fix) (fix body) (parent.map fix)
      looping
  | .apply callee argument => .apply (fix callee) (fix argument)
  | .binOp operator left right => .binOp operator (fix left) (fix right)
  | .instantiate template value names => .instantiate (fix template) (fix value) names
  | .record value names => .record (fix value) names
  | .assert condition => .assert (fix condition)
  | .gc inner => .gc (fix inner)
  | .unify actual expected => .unify (fix actual) (fix expected)
  | .index values position => .index (fix values) (fix position)
  | .field container key => .field (fix container) (fix key)
  | .namedField container name => .namedField (fix container) name
  | .find container key => .find (fix container) (fix key)
  | .annotated value type attributes => .annotated (fix value) (type.map fix) attributes
  | .array template length => .array (fix template) (fix length)
  | .arrayInst template elements depths => .arrayInst (fix template) elements depths
  | other => other

/-- The IR. The marks of an expression are those the entries under its id hold, in their order. -/
structure IR where
  expr : List ExprKind
  children : List ExprId
  structNames : List (Option Text)
  depths : List Nat
  root : ExprId
  blockRoots : Finset ExprId
  stmtRoots : List ExprId
  /-- The index of each expression's schema in the table, `0` the empty one. -/
  schemas : List Nat
  schemaTable : List Schema
  marks : List (ExprId × Text)
  deriving DecidableEq

namespace IR

def empty : IR := ⟨[], [], [], [], 0, ∅, [], [], [[]], []⟩

def alloc (kind : ExprKind) (ir : IR) : ExprId × IR :=
  (ir.expr.length, { ir with expr := ir.expr ++ [kind], schemas := ir.schemas ++ [0] })

/-- Append to the arena of children, the new ones being the range it returns. -/
def extendChildren (values : List ExprId) (ir : IR) : ChildRange × IR :=
  (⟨ir.children.length, ir.children.length + values.length⟩,
    { ir with children := ir.children ++ values })

def extendNames (names : List (Option Text)) (ir : IR) : ChildRange × IR :=
  (⟨ir.structNames.length, ir.structNames.length + names.length⟩,
    { ir with structNames := ir.structNames ++ names })

def extendDepths (depths : List Nat) (ir : IR) : ChildRange × IR :=
  (⟨ir.depths.length, ir.depths.length + depths.length⟩, { ir with depths := ir.depths ++ depths })

def allocVariadic (elements : List ExprId) (make : ChildRange → ExprKind) (ir : IR) :
    ExprId × IR :=
  let (range, ir) := ir.extendChildren elements
  ir.alloc (make range)

def allocTuple (elements : List ExprId) : IR → ExprId × IR := allocVariadic elements .tuple

def allocTypeSet (element : ExprId) : IR → ExprId × IR := allocVariadic [element] .typeSet

def allocTypeTable (key value : ExprId) : IR → ExprId × IR :=
  allocVariadic [key, value] .typeTable

def allocSet (members : List ExprId) : IR → ExprId × IR := allocVariadic members .set

def allocTable (entries : List (ExprId × ExprId)) : IR → ExprId × IR :=
  allocVariadic (entries.flatMap fun entry => [entry.1, entry.2]) .table

def allocAnnotation (value : ExprId) (type : Option ExprId) (attrs : List ExprId) :
    IR → ExprId × IR :=
  allocVariadic attrs (.annotated value type)

def allocStruct (fields : List (ExprId × Option Text)) (ir : IR) : ExprId × IR :=
  let (fieldRange, ir) := ir.extendChildren (fields.map Prod.fst)
  let (nameRange, ir) := ir.extendNames (fields.map Prod.snd)
  ir.alloc (.struct fieldRange nameRange)

def allocInstantiate (template value : ExprId) (names : List (Option Text)) (ir : IR) :
    ExprId × IR :=
  let (range, ir) := ir.extendNames names
  ir.alloc (.instantiate template value range)

def allocRecord (value : ExprId) (names : List (Option Text)) (ir : IR) : ExprId × IR :=
  let (range, ir) := ir.extendNames names
  ir.alloc (.record value range)

def allocArrayInst (template : ExprId) (elements : List ExprId) (depths : List Nat) (ir : IR) :
    ExprId × IR :=
  let (range, ir) := ir.extendChildren elements
  let (depths, ir) := ir.extendDepths depths
  ir.alloc (.arrayInst template range depths)

/-- The index of a schema, entered into the table when it is not there. -/
def internSchema (schema : Schema) (ir : IR) : Nat × IR :=
  match ir.schemaTable.findIdx? (· = schema) with
  | some index => (index, ir)
  | none => (ir.schemaTable.length, { ir with schemaTable := ir.schemaTable ++ [schema] })

def setSchema (e : ExprId) (schema : Schema) (ir : IR) : IR :=
  let (index, ir) := ir.internSchema schema
  { ir with schemas := ir.schemas.set e index }

def schema (ir : IR) (e : ExprId) : Schema :=
  (ir.schemas[e]?.bind (ir.schemaTable[·]?)).getD []

/-- Stamp an allocated node with its kind. -/
def setKind (e : ExprId) (kind : ExprKind) (ir : IR) : IR := { ir with expr := ir.expr.set e kind }

def addMark (e : ExprId) (payload : Text) (ir : IR) : IR :=
  { ir with marks := ir.marks ++ [(e, payload)] }

/-- Re-point every stored occurrence of an id to another. -/
def repoint (old target : ExprId) (ir : IR) : IR :=
  if old = target then ir
  else
    { ir with
      expr := ir.expr.map (ExprKind.repoint old target)
      children := ir.children.map fun child => if child = old then target else child
      root := if ir.root = old then target else ir.root
      blockRoots := ir.blockRoots.erase old
      marks := (ir.marks.filter fun mark => mark.1 ≠ old) ++
        (ir.marks.filter fun mark => mark.1 = old).map fun mark => (target, mark.2) }

end IR

end LichenVm.HighIr
