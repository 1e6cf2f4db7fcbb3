import LichenVm.SlotMap

namespace LichenVm

inductive NodeTag
inductive BlockTag
inductive FunctionTag

abbrev NodeId := SlotKey NodeTag
abbrev BlockId := SlotKey BlockTag
abbrev FunctionId := SlotKey FunctionTag

/-- The device key naming a compiled module. -/
structure ModuleKey where
  raw : Nat
  deriving DecidableEq

structure LocalNodeId where
  index : Nat
  deriving DecidableEq

structure StaticNodeId where
  module : ModuleKey
  index : LocalNodeId
  deriving DecidableEq

inductive AnyNodeId where
  | dynamic (node : NodeId)
  | static (sref : StaticNodeId)
  deriving DecidableEq

namespace AnyNodeId

/-- The node, when it is the reading module's own. -/
def dynamic? : AnyNodeId → Option NodeId
  | dynamic node => some node
  | static _ => none

end AnyNodeId

structure StaticFunctionId where
  index : Nat
  deriving DecidableEq

structure StaticFunctionRef where
  module : ModuleKey
  index : StaticFunctionId
  deriving DecidableEq

inductive AnyFunctionId where
  | dynamic (function : FunctionId)
  | static (sref : StaticFunctionRef)
  deriving DecidableEq

/-- A function's ultimate identity after following origins. -/
inductive FunctionIdentity where
  | dynamic (function : FunctionId)
  | static (sref : StaticFunctionRef)
  deriving DecidableEq

/-- A pointer into a block's arena. `items` is what the arena holds there: a payload is
written once, when it is allocated. -/
structure Handle (α : Type) where
  block : BlockId
  address : Nat
  items : List α
  deriving DecidableEq

/-- A pointer into a frozen module's arena. -/
structure StaticHandle (α : Type) where
  module : ModuleKey
  offset : Nat
  items : List α
  deriving DecidableEq

inductive AnyHandle (α : Type) where
  | dynamic (handle : Handle α)
  | static (handle : StaticHandle α)
  deriving DecidableEq

namespace AnyHandle

def items {α : Type} : AnyHandle α → List α
  | dynamic handle => handle.items
  | static handle => handle.items

end AnyHandle

/-- One element of a structural array value: its node and its two markers. -/
structure ArrayItem where
  node : AnyNodeId
  shallow : Bool := false
  template : Bool := false
  deriving DecidableEq

/-- A structural array value's payload plus the attribute layout it carries. -/
structure ArrayValue where
  handle : AnyHandle ArrayItem
  layout : Nat := 0
  deriving DecidableEq

namespace ArrayValue

def items (array : ArrayValue) : List ArrayItem := array.handle.items

end ArrayValue

/-- The slot an array's attributes begin at. -/
def EXPR_ATTR_BASE : Nat := 2

/-- One entry of a structural table value: key node, value node, and the key's hash. -/
structure TableItem where
  key : AnyNodeId
  value : AnyNodeId
  hash : UInt64
  deriving DecidableEq

/-- The structural values the lowlevel itself produces and consumes. A float is its bit
pattern, which is all its equality reads. -/
inductive LowValue where
  | usize (n : Nat)
  | float (bits : UInt32)
  | str (text : String)
  | array (array : ArrayValue)
  | table (table : AnyHandle TableItem)
  | function (function : AnyFunctionId)
  | none
  | error
  | any
  deriving DecidableEq

/-- A class-routed lower bound on a node's eventual value shape. -/
inductive LowShape where
  | usize
  | float
  | tuple (positions : List (Option LowShape))
  | array (element : Option LowShape) (length : Nat)
  | function (parameter result : Option LowShape)
  | table (key value : Option LowShape)

/-- The structural operators the lowlevel itself dispatches. -/
inductive LowOperator where
  | index
  | apply
  | unify
  | tableGet
  | external (library entry : Nat)
  deriving DecidableEq

/-- What a program-specific value may look at while declaring the nodes it keeps alive. -/
structure TraceContext where
  nodeBlock : NodeId → Option BlockId
  blockNodes : BlockId → Option (List NodeId)
  functionNodes : FunctionId → Option (List NodeId)

/-- A program over the lowlevel: its own value and operator variants, and what its values
answer. A value without a payload has no `handle`; one that has it reads back the handle it is
given. -/
structure Program where
  Ext : Type
  ExtOperator : Type
  extDecidable : DecidableEq Ext
  operatorDecidable : DecidableEq ExtOperator
  handle : Ext → Option (AnyHandle UInt8)
  setHandle : Ext → AnyHandle UInt8 → Ext
  discriminant : Ext → Nat
  traced : TraceContext → Ext → List NodeId
  handle_setHandle : ∀ value payload moved, handle value = some payload →
    handle (setHandle value moved) = some moved

instance (P : Program) : DecidableEq P.Ext := P.extDecidable
instance (P : Program) : DecidableEq P.ExtOperator := P.operatorDecidable

def Program.plain : Program where
  Ext := Empty
  ExtOperator := Empty
  extDecidable := inferInstance
  operatorDecidable := inferInstance
  handle := nofun
  setHandle := nofun
  discriminant := nofun
  traced := fun _ => nofun
  handle_setHandle := nofun

/-- The program's value vocabulary: the structural values plus its own variants. -/
inductive Value (P : Program) where
  | low (value : LowValue)
  | ext (value : P.Ext)
  deriving DecidableEq

/-- The program's operator vocabulary, composed the same way. -/
inductive Operator (P : Program) where
  | low (operator : LowOperator)
  | ext (operator : P.ExtOperator)
  deriving DecidableEq

namespace Value

variable {P : Program}

def asLow : Value P → Option LowValue
  | low value => some value
  | ext _ => Option.none

/-- Full equality of two values: handle payloads by content, else the derived equality. -/
def valueEq : Value P → Value P → Bool
  | ext a, ext b =>
    match P.handle a, P.handle b with
    | some left, some right =>
      if P.discriminant a = P.discriminant b then left.items == right.items else a == b
    | _, _ => a == b
  | a, b => a == b

end Value

namespace Operator

variable {P : Program}

def asLow : Operator P → Option LowOperator
  | low operator => some operator
  | ext _ => none

end Operator

end LichenVm
