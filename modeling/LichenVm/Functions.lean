import LichenVm.Resolve

namespace LichenVm

open DisjointSet

/-- A frozen module's links. -/
instance (P : Program) : LinkTable (List (StaticNode P)) LocalNodeId where
  links nodes key := nodes[key.index]?.map StaticNode.equality
  modifyLinks nodes key f :=
    nodes.modify key.index fun node => { node with equality := f node.equality }

namespace StaticModule

variable {P : Program}

/-- The solved representative of `key`. -/
def find (home : StaticModule P) (key : LocalNodeId) : LocalNodeId :=
  climb home.nodes home.nodes.length key

/-- The frozen node a ref of this module names; a ref into another module names none. -/
def own (home : StaticModule P) : AnyNodeId → Option LocalNodeId
  | .static sref => if sref.module = home.key then some sref.index else none
  | .dynamic _ => none

/-- The first two items of a frozen array. -/
def halves (home : StaticModule P) (node : LocalNodeId) : Option (AnyNodeId × AnyNodeId) :=
  match home.read node with
  | some (.low (.array array)) =>
    match array.items with
    | value :: type :: _ => some (value.node, type.node)
    | _ => none
  | _ => none

/-- Whether a ref names an own node that computes nothing and holds nothing, or the wildcard. -/
def isOpen (home : StaticModule P) (node : AnyNodeId) : Bool :=
  match (home.own node).bind fun index => home.nodes[index.index]? with
  | none => false
  | some entry =>
    (match entry.value with
      | none => true
      | some value => value.asLow = some .any) && entry.operation.isNone

/-- Whether a frozen function is `_x => _`: an open result independent of its parameter. -/
def wildcardConstructor (home : StaticModule P) (function : StaticFunctionRef) : Bool :=
  if function.module ≠ home.key then false
  else
    match home.functions[function.index.index]? with
    | none => false
    | some entry =>
      match home.halves entry.return, home.halves entry.parameter with
      | some (returnValue, _), some (parameterValue, parameterType) =>
        let returnType := AnyNodeId.static { module := home.key, index := entry.returnType }
        let root (node : AnyNodeId) := (home.own node).map home.find
        home.isOpen returnValue && home.isOpen returnType &&
          decide (root returnValue ≠ root parameterValue) &&
          decide (root returnType ≠ root parameterType)
      | _, _ => false

end StaticModule

namespace Module

variable {P : Program}

/-- The frozen node behind a ref. An unregistered key or an index past the artifact panics:
`none` here. -/
def staticNode (m : Module P) (sref : StaticNodeId) : Option (StaticNode P) :=
  (m.staticModule sref.module).bind fun home => home.nodes[sref.index.index]?

/-- The frozen function behind a ref. -/
def staticFunction (m : Module P) (sref : StaticFunctionRef) : Option StaticFunction :=
  (m.staticModule sref.module).bind fun home => home.functions[sref.index.index]?

/-- The original a static function is a re-export of, or `none` when it is a module's own. -/
def staticFunctionOrigin (m : Module P) (sref : StaticFunctionRef) : Option StaticFunctionRef :=
  (m.staticFunction sref).bind StaticFunction.origin

/-- The origins an identity follows. -/
def MAX_ORIGINS : Nat := 64

/-- The function `function` re-exports, when it names one. -/
def originOf (m : Module P) : AnyFunctionId → Option StaticFunctionRef
  | .dynamic function => (m.functions.get function).bind Function.staticOrigin
  | .static sref => m.staticFunctionOrigin sref

/-- The ultimate identity of `function` after following its origins. -/
def functionIdentity (m : Module P) (function : AnyFunctionId) : FunctionIdentity :=
  follow MAX_ORIGINS function
where
  stop : AnyFunctionId → FunctionIdentity
    | .dynamic function => .dynamic function
    | .static sref => .static sref
  follow : Nat → AnyFunctionId → FunctionIdentity
    | 0, current => stop current
    | steps + 1, current =>
      match m.originOf current with
      | some origin => follow steps (.static origin)
      | none => stop current

/-- Whether two function values name one logical function. -/
def functionIdentityEqual (m : Module P) (a b : AnyFunctionId) : Bool :=
  m.functionIdentity a = m.functionIdentity b

/-- The implementation inferred for a wildcard constructor, through its bindings. -/
def resolveConstructor (m : Module P) (function : AnyFunctionId) : AnyFunctionId :=
  follow MAX_ORIGINS function
where
  follow : Nat → AnyFunctionId → AnyFunctionId
    | 0, current => current
    | steps + 1, current =>
      match m.constructorBindings.get current with
      | none => current
      | some next => if next = current then current else follow steps next

/-- Whether a live node computes nothing and its class holds nothing, or the wildcard. -/
def isOpen (m : Module P) (node : NodeId) : Bool :=
  (m.nodeOperation node).isNone &&
    match m.classValue node with
    | none => true
    | some value => value.asLow = some .any

/-- Whether `function` is `_x => _`: an open result independent of its parameter. -/
def isWildcardConstructor (m : Module P) : AnyFunctionId → Bool
  | .static sref =>
    match m.staticModule sref.module with
    | none => false
    | some home => home.wildcardConstructor sref
  | .dynamic function =>
    match m.functions.get function with
    | none => false
    | some entry =>
      m.nodes.containsKey entry.return && m.nodes.containsKey entry.parameter &&
        m.nodes.containsKey entry.returnType &&
        match m.exprValueHalf entry.return, m.exprValueHalf entry.parameter,
            m.exprTypeHalf entry.parameter with
        | some returnValue, some parameterValue, some parameterType =>
          m.isOpen returnValue && m.isOpen entry.returnType &&
            decide (m.classRoot returnValue ≠ m.classRoot parameterValue) &&
            decide (m.classRoot entry.returnType ≠ m.classRoot parameterType)
        | _, _, _ => false

/-- The parameter expr and return type cell a function states; the outer `none` is a panic,
the inner one a template that states neither. -/
def functionCells (m : Module P) : AnyFunctionId → Option (Option (AnyNodeId × AnyNodeId))
  | .dynamic function =>
    (m.functions.get function).map fun entry =>
      if m.nodes.containsKey entry.returnType then
        some (.dynamic entry.parameter, .dynamic entry.returnType)
      else none
  | .static sref =>
    (m.staticModule sref.module).map fun home =>
      home.functions[sref.index.index]?.map fun entry =>
        (.static { module := sref.module, index := entry.parameter },
          .static { module := sref.module, index := entry.returnType })

/-- Whether `operation` applies a function, and which one its operand names. -/
def appliedFunction (m : Module P) (operation : Operation P) : Option AnyFunctionId :=
  if operation.operator.asLow ≠ some .apply then none
  else
    match operation.operand.bind m.arrayItems with
    | some (callee :: _) =>
      match m.nodeValue callee.node with
      | some (.low (.function function)) => some function
      | _ => none
    | _ => none

/-- The function whose application produced `value`, when that owner is recorded. -/
def appliedConstructor (m : Module P) (value : NodeId) : Option AnyFunctionId :=
  if m.nodes.containsKey value then do
    let root := m.classRoot value
    let apply ← (m.applyResultOwners.get value).or ((m.applyResultOwners.get root).or
      ((m.applyResultOwners.entries.find? fun entry =>
        m.nodes.containsKey entry.1 && m.classRoot entry.1 = root).map Prod.snd))
    m.appliedFunction (← m.nodeOperation apply)
  else none

/-- A unique wildcard constructor applied in `function`'s own scope. Its `?` leaves the whole
scan at an apply whose operand is empty, as an apply without an operand does. -/
def wildcardConstructorInFunction (m : Module P) : AnyFunctionId → Option AnyFunctionId
  | .static _ => none
  | .dynamic function => (m.functions.get function).bind fun entry => scan none entry.nodes
where
  scan (found : Option AnyFunctionId) : List NodeId → Option AnyFunctionId
    | [] => found
    | node :: rest =>
      match m.nodeOperation node with
      | none => scan found rest
      | some operation =>
        if operation.operator.asLow ≠ some .apply then scan found rest
        else
          match operation.operand with
          | none => none
          | some operand =>
            match m.arrayItems operand with
            | none => scan found rest
            | some [] => none
            | some (callee :: _) =>
              match m.nodeValue callee.node with
              | some (.low (.function candidate)) =>
                if !m.isWildcardConstructor candidate then scan found rest
                else if found.any fun found => !m.functionIdentityEqual found candidate then
                  none
                else scan (some candidate) rest
              | _ => scan found rest

/-- Record one constructor choice, rejecting a conflicting later choice. -/
def bindConstructor (m : Module P) (wildcard constructor : AnyFunctionId) : Bool × Module P :=
  if m.functionIdentityEqual wildcard constructor then (true, m)
  else if m.constructorBindings.containsKey wildcard then
    (m.functionIdentityEqual (m.resolveConstructor wildcard) constructor, m)
  else (true, { m with constructorBindings := m.constructorBindings.insert wildcard constructor })

/-- Bind a wildcard constructor when two function parameters meet. -/
def inferConstructorBinding (m : Module P) (aFunction : AnyFunctionId) (a : NodeId)
    (bFunction : AnyFunctionId) (b : NodeId) : Bool × Module P :=
  let aConstructor := m.appliedConstructor a
  let bConstructor := m.appliedConstructor b
  let scopes : Bool × Module P :=
    match m.wildcardConstructorInFunction aFunction, m.wildcardConstructorInFunction bFunction,
        aConstructor, bConstructor with
    | some wildcard, none, _, some constructor =>
      if m.isWildcardConstructor constructor then (true, m)
      else m.bindConstructor wildcard constructor
    | none, some wildcard, some constructor, _ =>
      if m.isWildcardConstructor constructor then (true, m)
      else m.bindConstructor wildcard constructor
    | _, _, _, _ => (true, m)
  match aConstructor, bConstructor with
  | some left, some right =>
    match m.isWildcardConstructor left, m.isWildcardConstructor right with
    | true, false => m.bindConstructor left right
    | false, true => m.bindConstructor right left
    | _, _ => scopes
  | _, _ => scopes

/-- Whether a function's signature carries the wildcard in its parameter value or return type. -/
def functionHasWildcard (m : Module P) (function : AnyFunctionId) : Bool :=
  match m.functionCells function with
  | some (some (parameter, returnType)) =>
    let value := ((m.arrayItemsOf parameter).bind List.head?).map ArrayItem.node
    (value.toList ++ [returnType]).any fun node =>
      (m.nodeValue node).bind Value.asLow = some .any
  | _ => false

end Module

end LichenVm
