import LichenVm.HighIr
import LichenVm.OrderedForest

/-! Marks, and the interface instance a kernel's claim assembles with them. -/

open List

namespace LichenVm.HighIr

open Ast (Text BinOp PrefixOp)

/-- What begins the payload of a claim: `claim:`. -/
def CLAIM_PREFIX : Text := [99, 108, 97, 105, 109, 58]

def isClaim (payload : Text) : Bool := CLAIM_PREFIX.isPrefixOf payload

/-- The characters that are white space, encoded. -/
def whitespace : List Text :=
  [[9], [10], [11], [12], [13], [32], [194, 133], [194, 160], [225, 154, 128], [226, 128, 128],
    [226, 128, 129], [226, 128, 130], [226, 128, 131], [226, 128, 132], [226, 128, 133],
    [226, 128, 134], [226, 128, 135], [226, 128, 136], [226, 128, 137], [226, 128, 138],
    [226, 128, 168], [226, 128, 169], [226, 128, 175], [226, 129, 159], [227, 128, 128]]

/-- Cut leading pieces off, as long as there are some. -/
def trimPieces (pieces : List Text) : Nat → Text → Text
  | 0, text => text
  | fuel + 1, text =>
    match pieces.find? (·.isPrefixOf text) with
    | some piece => trimPieces pieces fuel (text.drop piece.length)
    | none => text

def trim (text : Text) : Text :=
  let rest := trimPieces whitespace text.length text
  (trimPieces (whitespace.map List.reverse) rest.length rest.reverse).reverse

def containsWhitespace (text : Text) : Bool :=
  text.tails.any fun rest => whitespace.any (·.isPrefixOf rest)

/-- The interface a kernel implements, and the roles it requires of its body. -/
structure KernelClaim where
  interface : Text
  roles : List Text
  deriving DecidableEq

/-- Why a claim could not be read, or a role could not be found. -/
inductive ClaimRefusal where
  | notAClaim (text : Text)
  | unreadableClaim (text : Text)
  | roleNotMarked (interface role : Text)
  deriving DecidableEq

/-- The claim a payload spells, `claim:Reduction(combine,identity)`. -/
def KernelClaim.parse (payload : Text) : Except ClaimRefusal KernelClaim :=
  if isClaim payload then
    let body := trim (payload.drop CLAIM_PREFIX.length)
    match body.findIdx? (· = 40) with
    | none => .error (.unreadableClaim payload)
    | some opened =>
      let roles := body.drop (opened + 1)
      if roles.getLast? = some 41 then
        let interface := trim (body.take opened)
        if interface.isEmpty || containsWhitespace interface then .error (.unreadableClaim payload)
        else .ok ⟨interface, ((roles.dropLast.splitOn 44).map trim).filter (· ≠ [])⟩
      else .error (.unreadableClaim payload)
  else .error (.notAClaim payload)

/-- One role of an instance and the expression that is its projection. -/
structure Projection where
  role : Text
  expr : ExprId
  deriving DecidableEq

/-- The interface instance a kernel expression declares. -/
structure InterfaceInstance where
  text : Text
  claim : KernelClaim
  projections : List Projection
  deriving DecidableEq

/-- The ids of a range of the arena of children. -/
def IR.slice (ir : IR) (range : ChildRange) : List ExprId :=
  (ir.children.take range.stop).drop range.start

/-- The ids a kind holds, in declaration order. -/
def ExprKind.children (ir : IR) : ExprKind → List ExprId
  | .literal _ | .parameter | .placeholder | .errorBlock | .static _ => []
  | .function param type attr body _ _ => param :: (type.toList ++ attr.toList ++ [body])
  | .apply callee argument => [callee, argument]
  | .binOp _ left right => [left, right]
  | .instantiate template value _ => [template, value]
  | .record value _ => [value]
  | .assert condition => [condition]
  | .gc inner => [inner]
  | .unify actual expected => [actual, expected]
  | .index values position => [values, position]
  | .field container key => [container, key]
  | .namedField container _ => [container]
  | .find container key => [container, key]
  | .annotated value type _ => value :: type.toList
  | .array template length => [template, length]
  | .tuple range | .typeSet range | .typeTable range | .set range | .table range
  | .struct range _ | .nativeCall _ range | .keyword _ range => ir.slice range
  | .arrayInst template range _ => template :: ir.slice range

namespace IR

def childrenOf (ir : IR) (e : ExprId) : List ExprId :=
  match ir.expr[e]? with
  | some kind => kind.children ir
  | none => []

/-- The marks an expression carries, in source order. -/
def marksOf (ir : IR) (e : ExprId) : List Text :=
  (ir.marks.filter fun mark => mark.1 = e).map Prod.snd

/-- The roles an expression's marks name. -/
def rolesOf (ir : IR) (e : ExprId) : List (Text × ExprId) :=
  ((ir.marksOf e).filter fun payload => !isClaim payload).map (·, e)

/-- How many expressions a walk has not met. -/
def unmet (ir : IR) (seen : List ExprId) : Nat :=
  ((List.range ir.expr.length).filter fun e => !seen.contains e).length

theorem unmet_cons (ir : IR) {seen : List ExprId} {e : ExprId} (fresh : e ∉ seen) :
    ir.unmet (e :: seen) < ir.unmet seen ∨
      ir.unmet (e :: seen) = ir.unmet seen ∧ ir.childrenOf e = [] := by
  have split : ((List.range ir.expr.length).filter fun e' => !(e :: seen).contains e') =
      (((List.range ir.expr.length).filter fun e' => !seen.contains e').filter fun e' =>
        decide (e' ≠ e)) := by
    rw [filter_filter]
    refine filter_congr fun e' _ => ?_
    by_cases same : e' = e <;> simp [same]
  unfold unmet
  rw [split]
  by_cases inside : e < ir.expr.length
  · refine .inl (length_filter_lt_length_iff_exists.2 ⟨e, ?_, by simp⟩)
    rw [mem_filter, mem_range]
    exact ⟨inside, by simpa using fresh⟩
  · refine .inr ⟨?_, ?_⟩
    · rw [filter_eq_self.2]
      intro e' member
      have := mem_range.1 (mem_filter.1 member).1
      have apart : e' ≠ e := fun same => inside (same ▸ this)
      simp [apart]
    · rw [childrenOf, getElem?_eq_none (Nat.le_of_not_lt inside)]

/-- The walk of a kernel's body: an explicit stack, its top first. -/
def walkRoles (ir : IR) (stack seen : List ExprId) (found : List (Text × ExprId)) :
    List (Text × ExprId) :=
  match stack with
  | [] => found
  | e :: stack =>
    if e ∈ seen then walkRoles ir stack seen found
    else walkRoles ir ((ir.childrenOf e).reverse ++ stack) (e :: seen) (found ++ ir.rolesOf e)
termination_by (ir.unmet seen, stack.length)
decreasing_by
  · exact Prod.Lex.right _ (Nat.lt_succ_self _)
  · next fresh =>
    rcases ir.unmet_cons fresh with fewer | ⟨same, leaf⟩
    · exact Prod.Lex.left _ _ fewer
    · rw [same, leaf]
      exact Prod.Lex.right _ (Nat.lt_succ_self _)

/-- The role each marked expression inside a kernel's body names. The children are pushed in their
order, so the last one is popped first. -/
def bodyRoles (ir : IR) (kernel : ExprId) : List (Text × ExprId) :=
  ir.walkRoles (ir.childrenOf kernel).reverse [] []

def projectRole (roles : List (Text × ExprId)) (interface role : Text) :
    Except ClaimRefusal Projection :=
  match roles.find? fun marked => marked.1 = role with
  | some marked => .ok ⟨role, marked.2⟩
  | none => .error (.roleNotMarked interface role)

/-- Assemble one claim: the roles it requires, resolved inside the kernel's body. -/
def assembleOne (ir : IR) (kernel : ExprId) (text : Text) :
    Except ClaimRefusal InterfaceInstance := do
  let claim ← KernelClaim.parse text
  let roles := ir.bodyRoles kernel
  let projections ← claim.roles.mapM (projectRole roles claim.interface)
  return ⟨text, claim, projections⟩

/-- The claims an expression carries. -/
def claimsOf (ir : IR) (e : ExprId) : List Text := (ir.marksOf e).filter isClaim

end IR

/-- What an assembly leaves: the instance of each expression, and what was refused. -/
structure Assembly where
  claims : ExprId → Option InterfaceInstance
  refusals : List (ExprId × ClaimRefusal)

namespace IR

def assembleText (ir : IR) (e : ExprId) (assembly : Assembly) (text : Text) : Assembly :=
  match ir.assembleOne e text with
  | .ok assembled =>
    { assembly with claims := Function.update assembly.claims e (some assembled) }
  | .error refusal => { assembly with refusals := assembly.refusals ++ [(e, refusal)] }

/-- Assemble every claim, the marked expressions taken in the order the table gives. -/
def assembleInterfaces (ir : IR) (order : List ExprId) : Assembly :=
  (order.filter fun e => (ir.marksOf e).any isClaim).foldl
    (fun assembly e => (ir.claimsOf e).foldl (ir.assembleText e) assembly) ⟨fun _ => none, []⟩

end IR

end LichenVm.HighIr
