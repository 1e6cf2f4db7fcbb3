import LichenVm.KernelFragment
import LichenVm.Resolve

namespace LichenVm.KernelDomain

open KernelIr

mutual

/-- Whether every position of a shape is one the kernel ABI can lower to a local. -/
def knownShape : LowShape → Bool
  | .usize | .float => true
  | .tuple positions => knownShapes positions
  | .array element _ => domainIsKnown element
  | .function domain codomain => domainIsKnown domain && domainIsKnown codomain
  | .table key value => domainIsKnown key && domainIsKnown value

def domainIsKnown : Option LowShape → Bool
  | none => false
  | some shape => knownShape shape

def knownShapes : List (Option LowShape) → Bool
  | [] => true
  | position :: rest => domainIsKnown position && knownShapes rest

end

mutual

/-- The first position of a tuple domain the lowering cannot read, as a path. -/
def firstUnreadablePosition : LowShape → Option (List Nat)
  | .tuple positions => firstUnreadableOf positions 0
  | _ => none

def firstUnreadableOf : List (Option LowShape) → Nat → Option (List Nat)
  | [], _ => none
  | none :: _, at_ => some [at_]
  | some item :: rest, at_ =>
    if knownShape item then firstUnreadableOf rest (at_ + 1)
    else
      match firstUnreadablePosition item with
      | some deeper => some (at_ :: deeper)
      | none => some [at_]

end

/-- What a parameter's own type states, which the decoded shape cannot supply. -/
inductive DomainStatement where
  | struct
  | shape
  | absent

inductive DomainRefusal where
  | domainIsAStruct
  | positionWithNoClass (position : List Nat)
  | domainStated
  | undecidedDomain
  | notAScalarOrTuple

/-- A kernel domain is a decided scalar or a tuple of decided positions. -/
def kernelDomain (domain : Option LowShape) (statement : DomainStatement) :
    Except DomainRefusal LowShape :=
  if domainIsKnown domain then
    match domain with
    | some .usize => .ok .usize
    | some .float => .ok .float
    | some (.tuple positions) => .ok (.tuple positions)
    | some _ => .error .notAScalarOrTuple
    | none => .error .domainStated
  else
    match statement with
    | .struct => .error .domainIsAStruct
    | .shape =>
      match domain.bind firstUnreadablePosition with
      | some position => .error (.positionWithNoClass position)
      | none => .error .domainStated
    | .absent => .error .undecidedDomain

/-- The class a single local takes for a position of a shape. -/
def scalarClassOf : LowShape → ScalarClass
  | .float => .float
  | .array (some element) _ => scalarClassOf element
  | _ => .int

mutual

/-- The IR's own expression of a kernel domain. A compound leaf takes its element's class. -/
def kernelShape : LowShape → KernelShape
  | .usize => .scalar .int
  | .float => .scalar .float
  | .tuple positions => .tuple (kernelShapes positions)
  | .array none _ => .scalar .int
  | .array (some element) _ => .scalar (scalarClassOf element)
  | .function _ _ | .table _ _ => .scalar .int

def kernelShapes : List (Option LowShape) → List KernelShape
  | [] => []
  | none :: rest => .scalar .int :: kernelShapes rest
  | some item :: rest => kernelShape item :: kernelShapes rest

end

mutual

/-- The scalar classes a parameter slot's shape flattens to, in order. -/
def scalarClassesOf : LowShape → List ScalarClass
  | .float => [.float]
  | .tuple positions => flattenClasses positions
  | _ => [.int]

def flattenClasses : List (Option LowShape) → List ScalarClass
  | [] => []
  | none :: rest => flattenClasses rest
  | some item :: rest => scalarClassesOf item ++ flattenClasses rest

end

mutual

/-- The number of scalar locals a domain shape flattens to. -/
def flatArity : LowShape → Nat
  | .tuple positions => flatAritySlots positions
  | _ => 1

/-- A position nothing states still occupies one local. -/
def flatAritySlots : List (Option LowShape) → Nat
  | [] => 0
  | none :: rest => 1 + flatAritySlots rest
  | some item :: rest => flatArity item + flatAritySlots rest

end

mutual

/-- The class of the `index`-th flattened leaf of a domain shape. -/
def classAt : LowShape → Nat → ScalarClass
  | .tuple positions, index => classAtPositions positions index
  | shape, _ => scalarClassOf shape

def classAtPositions : List (Option LowShape) → Nat → ScalarClass
  | [], _ => .int
  | none :: rest, remaining => classAtPositions rest remaining
  | some item :: rest, remaining =>
    if remaining < flatArity item then classAt item remaining
    else classAtPositions rest (remaining - flatArity item)

end

/-- The arities of the stated positions before `index`, summed. -/
def skippedArity (positions : List (Option LowShape)) (index : Nat) : Nat :=
  ((positions.take index).reduceOption.map flatArity).sum

inductive OffsetRefusal where
  | outOfBounds (index : Nat)
  | intoScalar
  | unsupportedShape

/-- One descent of [flattenOffset], from a shape the path has come to. -/
def flattenFrom (domain : LowShape) : List Nat → LowShape → Nat → Except OffsetRefusal Nat
  | [], _, offset => .ok offset
  | index :: path, .tuple positions, offset =>
    if positions.length ≤ index then .error (.outOfBounds index)
    else
      flattenFrom domain path ((positions[index]?.join).getD domain)
        (offset + skippedArity positions index)
  | _ :: _, .usize, _ => .error .intoScalar
  | _ :: _, .float, _ | _ :: _, .array _ _, _ | _ :: _, .function _ _, _ | _ :: _, .table _ _, _ =>
    .error .unsupportedShape

/-- The local a parameter index path flattens to. -/
def flattenOffset (domain : LowShape) (path : List Nat) : Except OffsetRefusal Nat :=
  flattenFrom domain path domain 0

/-- One descent of [walkOffsets], from a shape the path has come to. -/
def walkFrom : List Nat → LowShape → Nat → Option (Nat × Bool)
  | [], _, offset => some (offset, false)
  | index :: path, .tuple positions, offset =>
    match positions[index]? with
    | some (some element) => walkFrom path element (offset + skippedArity positions index)
    | _ => none
  | _ :: _, .usize, offset | _ :: _, .float, offset | _ :: _, .array _ _, offset
  | _ :: _, .function _ _, offset | _ :: _, .table _ _, offset => some (offset, true)

/-- The offset a path names in the parameter's shape, and whether it outran it. -/
def walkOffsets (shape : LowShape) (path : List Nat) : Option (Nat × Bool) :=
  walkFrom path shape 0

/-- One scalar crossing a kernel's ABI: the class it is and the bits it takes. -/
structure ScalarValue where
  stated : ScalarClass
  bits : BitVec 64
  deriving DecidableEq

namespace ScalarValue

def int (value : Nat) : ScalarValue :=
  ⟨.int, BitVec.ofNat 64 value⟩

def float (bits : UInt32) : ScalarValue :=
  ⟨.float, bits.toBitVec.setWidth 64⟩

end ScalarValue

/-- What a launch argument that is no parameter vector is called. -/
inductive ArgumentKind where
  | aFloat
  | aString
  | aTable
  | aFunction
  | theUnitValue
  | nothing
  | noValue

def argumentKind : Option LowValue → ArgumentKind
  | some (.float _) => .aFloat
  | some (.str _) => .aString
  | some (.table _) => .aTable
  | some (.function _) => .aFunction
  | some .none => .theUnitValue
  | some .error => .nothing
  | _ => .noValue

inductive ArgumentRefusal where
  | holdsNoValue
  | unusable (path : List Nat) (kind : ArgumentKind)
  | unfinished

variable {P : Program}

/-- Flatten a kernel argument into the argument vector, each leaf with its own class. The fuel
bounds the depth. -/
def collectArgs (m : Module P) : Nat → AnyNodeId → List Nat →
    Except ArgumentRefusal (List ScalarValue)
  | 0, _, _ => .error .unfinished
  | fuel + 1, node, path =>
    match m.elementValueNode node with
    | none => .error .holdsNoValue
    | some value =>
      match (m.nodeValue value).bind Value.asLow with
      | some (.usize n) => .ok [ScalarValue.int n]
      | some (.float bits) => .ok [ScalarValue.float bits]
      | some (.array array) =>
        (array.items.zipIdx.mapM fun place =>
          collectArgs m fuel place.1.node (path ++ [place.2])).map List.flatten
      | other => .error (.unusable path (argumentKind other))

end LichenVm.KernelDomain
