import LichenVm.Module

namespace LichenVm

/-- What an `index` node turned out to be. -/
inductive Selection where
  /-- A `[then, else]` expr indexed by an undecided value: the one `index` that computes. -/
  | computed
  /-- A view: the value the index actually names. -/
  | views (node : NodeId)
  deriving DecidableEq

namespace Module

variable {P : Program}

/-- An operand array's elements, in order. -/
def operandItems (m : Module P) (operand : NodeId) : Except String (List ArrayItem) :=
  match m.arrayItems operand with
  | some items => .ok items
  | none => .error "operand is not an array value"

/-- The `[left, right]` of a two-element operand array, all of this module's. -/
def operandExpr (m : Module P) (operand : NodeId) (what : String) : Except String (List NodeId) :=
  match m.arrayItems operand with
  | none => .error (what ++ " operand is not an array value")
  | some items =>
    if items.length < 2 then
      .error (what ++ " operand array must have two elements, and has " ++
        toString items.length)
    else
      (items.take 2).mapM fun item =>
        match item.node with
        | .dynamic node => .ok node
        | .static _ => .error (what ++ " operand element is a static reference into a " ++
            "frozen module, which has no node in this graph")

/-- Every node whose value `node` reads, in operand order. -/
def operandsOf (m : Module P) (node : NodeId) : Except String (List NodeId) :=
  match m.nodeOperation node with
  | none => .ok []
  | some operation =>
    match operation.operand with
    | none => .ok []
    | some operand =>
      match operation.operator.asLow with
      | some .apply => m.operandExpr operand "Apply"
      | some .index | some .tableGet => m.operandExpr operand "operator"
      | _ => .ok [operand]

/-- An operand array's items when the array belongs to this module. -/
def arrayItemsOf (m : Module P) : AnyNodeId → Option (List ArrayItem)
  | .dynamic node => m.arrayItems node
  | .static _ => none

/-- Element `k` of an array node, dynamic entries only. -/
def itemOf (m : Module P) (array : AnyNodeId) (k : Nat) : Option NodeId := do
  let items ← m.arrayItemsOf array
  let item ← items[k]?
  item.node.dynamic?

/-- The `n` a node holds, when it holds a plain integer literal, frozen or not. -/
def usizeValue (m : Module P) (node : AnyNodeId) : Option Nat :=
  match m.nodeValue node with
  | some (.low (.usize n)) => some n
  | _ => none

def structuralValue (m : Module P) (node : NodeId) : Option LowValue :=
  (m.nodeValue (.dynamic node)).bind Value.asLow

/-- A read's selector position: a dynamic `usize` node or a frozen one. -/
def readPosition (m : Module P) (item : AnyNodeId) : Option Nat :=
  match item with
  | .dynamic node => m.usizeValue (.dynamic node)
  | .static sref =>
    match m.staticRead sref with
    | some (.low (.usize n)) => some n
    | _ => none

/-- What an `index` node is: a selection, a view, or neither. -/
def selectionOf (m : Module P) (node : NodeId) : Option Selection :=
  match m.nodeOperation node with
  | none => none
  | some operation =>
    if operation.operator.asLow ≠ some .index then none
    else
      match operation.operand.bind m.arrayItems with
      | some (target :: index :: _) =>
        match m.readPosition index.node with
        | some k =>
          match m.itemOf target.node k with
          | some element => some (.views element)
          | none =>
            -- A computed target at index 0 is a `value_of` peel: it names the operator.
            match target.node with
            | .dynamic node =>
              if k = 0 ∧ (m.nodeOperation node).isSome then some (.views node) else none
            | .static _ => none
        | none =>
          match m.arrayItemsOf target.node with
          | some items => if items.length ≥ 2 then some .computed else none
          | none => none
      | _ => none

/-- The value half of a `[value, type]` expr node, or `none` when it is not an expr. -/
def exprValueHalf (m : Module P) (node : NodeId) : Option NodeId :=
  match m.arrayItems node with
  | some (value :: _ :: _) => value.node.dynamic?
  | _ => none

/-- The type half of a `[value, type]` expr node, as the expr's own reference. -/
def exprTypeItem (m : Module P) (node : NodeId) : Option AnyNodeId :=
  match m.arrayItems node with
  | some (_ :: type :: _) => some type.node
  | _ => none

def exprTypeHalf (m : Module P) (node : NodeId) : Option NodeId :=
  (m.exprTypeItem node).bind AnyNodeId.dynamic?

/-- The value an element slot states: its first position, or the node itself. -/
def elementValueNode (m : Module P) (node : AnyNodeId) : Option AnyNodeId :=
  match m.nodeValue node with
  | some (.low (.array array)) =>
    if array.layout ≠ 0 then array.items.head?.map ArrayItem.node else some node
  | _ => some node

/-- The scalar leaves of a value: itself, or an array's items, one level deep. -/
def valueLeaves (m : Module P) (value : NodeId) : Except String (List NodeId) :=
  match m.arrayItems value with
  | none => .ok [value]
  | some items =>
    items.mapM fun item =>
      match item.node with
      | .dynamic _ =>
        match m.elementValueNode item.node with
        | some (.dynamic node) => .ok node
        | _ => .error ("a body reads a static reference into a frozen module, which has no" ++
            "                              node in this graph")
      | .static _ =>
        .error ("a body reads a static reference into a frozen module, which has no node in " ++
          "this graph")

theorem operator_of_selectionOf (m : Module P) (node : NodeId) (selection : Selection)
    (found : m.selectionOf node = some selection) :
    ∃ operation, m.nodeOperation node = some operation ∧ operation.operator.asLow = some .index := by
  simp only [selectionOf] at found
  split at found
  · cases found
  · next operation computes =>
    refine ⟨operation, computes, ?_⟩
    by_contra other
    rw [if_pos other] at found
    cases found

theorem operandsOf_selection (m : Module P) (node : NodeId) (operands : List NodeId)
    (found : m.selectionOf node = some .computed) (reads : m.operandsOf node = .ok operands) :
    ∃ arms condition, operands = [arms, condition] := by
  obtain ⟨operation, computes, index⟩ := operator_of_selectionOf m node _ found
  simp only [selectionOf, computes, index, ne_eq, not_true_eq_false, if_false] at found
  cases operand : operation.operand with
  | none => simp [operand] at found
  | some array =>
    simp only [operand, Option.bind_some] at found
    simp only [operandsOf, computes, operand, index, operandExpr] at reads
    split at found
    · next target position rest items =>
      simp only [items, List.length_cons] at reads
      rw [if_neg (by omega)] at reads
      cases one : target.node <;> cases two : position.node <;>
        simp [one, two, bind, Except.bind, pure, Except.pure] at reads
      exact ⟨_, _, reads.symm⟩
    · cases found

end Module

end LichenVm
