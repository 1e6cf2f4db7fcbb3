import LichenVm.BodyGate

namespace LichenVm.KernelIr

/-- A parameter domain: a scalar leaf or a tuple of domains. -/
inductive KernelShape where
  | scalar (leaf : ScalarClass)
  | tuple (items : List KernelShape)

namespace KernelShape

mutual

def leafClasses : KernelShape → List ScalarClass
  | .scalar leaf => [leaf]
  | .tuple items => leafClassesOf items

def leafClassesOf : List KernelShape → List ScalarClass
  | [] => []
  | item :: items => item.leafClasses ++ leafClassesOf items

end

mutual

/-- How many scalar leaves the shape flattens to. -/
def flatArity : KernelShape → Nat
  | .scalar _ => 1
  | .tuple items => flatArityOf items

def flatArityOf : List KernelShape → Nat
  | [] => 0
  | item :: items => item.flatArity + flatArityOf items

end

end KernelShape

inductive Space where
  | register
  | warp
  | shared
  deriving DecidableEq

structure Slice where
  stated : ScalarClass
  count : Nat
  space : Space
  deriving DecidableEq

structure MarkField where
  name : Option String
  text : String
  deriving DecidableEq

structure KernelMark where
  value : ValueId
  payload : List MarkField
  deriving DecidableEq

/-- The payload's own text, for a payload that is one unnamed text. -/
def KernelMark.text (mark : KernelMark) : Option String :=
  match mark.payload with
  | [field] => if field.name = none then some field.text else none
  | _ => none

inductive IntWidth where
  | i64
  deriving DecidableEq

structure TargetFacts where
  intWidth : IntWidth
  laneWidth : Nat
  laneHeight : Nat
  deriving DecidableEq

/-- The role of every field of the parameter: where the scalars and the buffers sit in it, the classes
that its buffers state, and the lengths that its outputs declare. A merged body has no parameter. -/
structure KernelRoles where
  outputExtents : List (Option Nat) := []
  scalars : List (List Nat) := []
  inputs : List (List Nat) := []
  outputs : List (List Nat) := []
  inputClasses : List (Option ScalarClass) := []
  outputClasses : List (Option ScalarClass) := []
  deriving DecidableEq

/-- A lowered body and the facts a caller needs. -/
structure KernelFragment where
  paramShape : KernelShape
  roles : KernelRoles
  body : KernelBody
  inputs : Nat
  outputs : Nat
  inputClasses : List ScalarClass
  outputClasses : List ScalarClass
  resultClasses : List ScalarClass
  target : TargetFacts
  slices : List Slice := []
  marks : List KernelMark := []

namespace KernelFragment

/-- Whether the entry block receives the domain's leaves, position for position. -/
def bindsItsDomain (fragment : KernelFragment) : Bool :=
  fragment.body.parameters.length == fragment.paramShape.flatArity

/-- The first declared slice that holds no element: the fact the fragment's own gate refuses. -/
def emptySlice (fragment : KernelFragment) : Option Nat :=
  fragment.slices.findIdx? fun slice => slice.count = 0

end KernelFragment

/-- Where a copy of a cone takes one value from. -/
inductive ConeOrigin where
  | live (value : ValueId)
  | address
  | rebuilt
  deriving DecidableEq

/-- Why a written value is not a function of the address it was written at. -/
inductive NotIndexLocal where
  | writeIsNotIndexed (written : ValueId)
  | sliceRead (value : ValueId)
  | kernelCall (value : ValueId)
  | carried (value : ValueId)
  deriving DecidableEq

/-- One definition cone, planned for a copy at another address. -/
structure Cone where
  order : List ValueId
  origins : ValueId → Option ConeOrigin

namespace Cone

/-- A cone with one value in it, already computed where it stands. -/
def reused (value : ValueId) : Cone where
  order := [value]
  origins := Function.update (fun _ => none) value (some (.live value))

/-- A value outside the cone is the one it already is. -/
def origin (cone : Cone) (value : ValueId) : ConeOrigin :=
  (cone.origins value).getD (.live value)

end Cone

namespace KernelBody

/-- What an instruction reads. A parameter, or an id past the table, reads nothing. -/
def operandsOf (body : KernelBody) (value : ValueId) : List ValueId :=
  match body.values[value]? with
  | some (.instr _ args _) => args
  | _ => []

/-- What a value is computed from: an instruction's operands, or what every incoming branch hands
a parameter. -/
def sources (body : KernelBody) (value : ValueId) : List (Option ValueId) :=
  match body.values[value]? with
  | some (.instr _ args _) => args.map some
  | some (.blockParam block index) => (body.incomingArguments block).map (·[index]?)
  | none => []

/-- Whether the cone of a pending value reaches `lane`. An operand a branch does not hand over
counts as reaching it. -/
def dependsLoop (body : KernelBody) (lane : ValueId) :
    Nat → List ValueId → (ValueId → Bool) → Bool
  | 0, _, _ => false
  | _ + 1, [], _ => false
  | fuel + 1, current :: stack, seen =>
    if current = lane then true
    else if seen current then body.dependsLoop lane fuel stack seen
    else if (body.sources current).contains none then true
    else body.dependsLoop lane fuel ((body.sources current).reduceOption.reverse ++ stack)
      (Function.update seen current true)

def dependsOn (body : KernelBody) (value lane : ValueId) : Bool :=
  let pushes := ((List.range body.values.length).map fun v => (body.sources v).length).sum
  body.dependsLoop lane (pushes + 1) [value] fun _ => false

/-- A value is put back under its operands when it is entered, and ordered when it is met
again. -/
def coneLoop (body : KernelBody) :
    Nat → List ValueId → (ValueId → Bool) → List ValueId → List ValueId
  | 0, _, _, order => order
  | _ + 1, [], _, order => order
  | fuel + 1, value :: work, entered, order =>
    if entered value then body.coneLoop fuel work entered (order ++ [value])
    else body.coneLoop fuel ((body.operandsOf value).reverse ++ value :: work)
      (Function.update entered value true) order

/-- What a value reads, each operand before the value reading it. Every operand is pushed once
for each value reading it, and every pushed value is put back at most once. -/
def coneOrder (body : KernelBody) (root : ValueId) : List ValueId :=
  let pushes := ((List.range body.values.length).map fun v => (body.operandsOf v).length).sum
  body.coneLoop (2 * (pushes + 1)) [root] (fun _ => false) []

/-- What a copy of the cone takes for one value. -/
def coneOrigin (body : KernelBody) (value written : ValueId)
    (origins : ValueId → Option ConeOrigin) : Except NotIndexLocal ConeOrigin :=
  match body.values[value]? with
  | some (.blockParam block _) =>
    if value = written then .ok .address
    else if block = body.entry then .ok (.live value)
    else .error (.carried value)
  | some (.instr op args _) =>
    match op with
    | .sliceReadCall _ => .error (.sliceRead value)
    | .callKernel _ => .error (.kernelCall value)
    | _ =>
      if args.any fun arg => origins arg = some .rebuilt ∨ origins arg = some .address then
        .ok .rebuilt
      else .ok (.live value)
  | none => .ok (.live value)

def planValue (body : KernelBody) (written : ValueId) (origins : ValueId → Option ConeOrigin)
    (value : ValueId) : Except NotIndexLocal (ValueId → Option ConeOrigin) :=
  (body.coneOrigin value written origins).map fun origin =>
    Function.update origins value (some origin)

/-- A value's definition cone, planned for a copy at another address. -/
def indexLocalCone (body : KernelBody) (root written : ValueId) (lane : Option ValueId) :
    Except NotIndexLocal Cone :=
  if lane = some written then do
    let order := body.coneOrder root
    let origins ← order.foldlM (body.planValue written) fun _ => none
    pure { order, origins }
  else .error (.writeIsNotIndexed written)

end KernelBody

mutual

def KernelShape.decide : (one other : KernelShape) → Decidable (one = other)
  | .scalar leaf, .scalar leaf' =>
    if same : leaf = leaf' then isTrue (congrArg _ same)
    else isFalse fun equal => same (KernelShape.scalar.inj equal)
  | .scalar _, .tuple _ => isFalse fun equal => by cases equal
  | .tuple _, .scalar _ => isFalse fun equal => by cases equal
  | .tuple items, .tuple items' =>
    match KernelShape.decideAll items items' with
    | isTrue same => isTrue (congrArg _ same)
    | isFalse apart => isFalse fun equal => apart (KernelShape.tuple.inj equal)

def KernelShape.decideAll : (items others : List KernelShape) → Decidable (items = others)
  | [], [] => isTrue rfl
  | [], _ :: _ => isFalse fun equal => by cases equal
  | _ :: _, [] => isFalse fun equal => by cases equal
  | item :: items, other :: others =>
    match KernelShape.decide item other, KernelShape.decideAll items others with
    | isTrue same, isTrue rest => isTrue (by rw [same, rest])
    | isFalse apart, _ => isFalse fun equal => apart (List.cons.inj equal).1
    | _, isFalse apart => isFalse fun equal => apart (List.cons.inj equal).2

end

instance : DecidableEq KernelShape := KernelShape.decide

deriving instance DecidableEq for KernelFragment

end LichenVm.KernelIr
