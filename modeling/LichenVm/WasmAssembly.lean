import LichenVm.WasmAgreement

namespace LichenVm.Wasm

open KernelIr

/-- The class an instruction names a buffer's elements by. -/
def bufferClass : KernelInstr → Option ScalarClass
  | .bufferReadCall stated | .outputReadCall stated | .bufferWriteCall stated
  | .bufferAtomicAddCall stated => some stated
  | _ => none

/-- The classes a launch set's buffer calls name, in their own order. -/
def bufferedClasses (ordered : List KernelFragment) : List ScalarClass :=
  [.int, .float, .bFloat16].filter fun stated => ordered.any fun fragment =>
    fragment.body.listed.any fun value =>
      match fragment.body.values[value]? with
      | some (.instr op _ _) => bufferClass op == some stated
      | _ => false

/-- One read, one write and one atomic add for each class, in that order, before the functions. -/
def declareBufferImports (classes : List ScalarClass) : BufferImports where
  base := classes.length + classes.length + classes.length
  read stated := classes.idxOf? stated
  write stated := (classes.idxOf? stated).map (classes.length + ·)
  atomic stated := (classes.idxOf? stated).map (classes.length + classes.length + ·)

def readSignature (stated : ScalarClass) : Signature :=
  ⟨[.i64, .i64], [valueType stated]⟩

def writeSignature (stated : ScalarClass) : Signature :=
  ⟨[.i64, .i64, valueType stated], []⟩

def fragmentSignature (fragment : KernelFragment) : Signature :=
  ⟨fragment.paramShape.leafClasses.map valueType, fragment.resultClasses.map valueType⟩

/-- The functions of an assembled module, in the order they are pushed in. -/
def moduleSignatures (ordered : List KernelFragment) : List Signature :=
  (bufferedClasses ordered).map readSignature ++ (bufferedClasses ordered).map writeSignature ++
    (bufferedClasses ordered).map writeSignature ++ ordered.map fragmentSignature

/-- The context one fragment of a launch set is lowered in. -/
def contextOf (ordered : List KernelFragment) (index : KernelIr.KernelId → Option Nat)
    (fragment : KernelFragment) : ModuleCtx where
  callees := ordered
  index := index
  imports := declareBufferImports (bufferedClasses ordered)
  leaves := fragment.paramShape.leafClasses

/-- Lower one fragment's body, with the launch set as its context. -/
def lowerInto (ordered : List KernelFragment) (index : KernelIr.KernelId → Option Nat)
    (fragment : KernelFragment) : Except Refusal FunctionBody :=
  lowerBody (contextOf ordered index fragment) fragment.body

theorem getElem?_of_idxOf? {α : Type} [DecidableEq α] {items : List α} {item : α} {index : Nat}
    (found : items.idxOf? item = some index) : items[index]? = some item := by
  obtain ⟨within, same, -⟩ := List.idxOf?_eq_some_iff.1 found
  rw [List.getElem?_eq_getElem within, same]

theorem lt_of_idxOf? {α : Type} [DecidableEq α] {items : List α} {item : α} {index : Nat}
    (found : items.idxOf? item = some index) : index < items.length :=
  (getElem?_eq_some_iff.1 (getElem?_of_idxOf? found)).1

section Assembled

variable (ordered : List KernelFragment) (index : KernelIr.KernelId → Option Nat)
  (fragment : KernelFragment)

theorem signature_at (at_ : Nat) : (moduleSignatures ordered)[at_]? =
    let classes := bufferedClasses ordered
    if at_ < classes.length then classes[at_]?.map readSignature
    else if at_ < classes.length + classes.length then
      classes[at_ - classes.length]?.map writeSignature
    else if at_ < classes.length + classes.length + classes.length then
      classes[at_ - (classes.length + classes.length)]?.map writeSignature
    else ordered[at_ - (classes.length + classes.length + classes.length)]?.map
      fragmentSignature := by
  unfold moduleSignatures
  simp only [List.getElem?_append, List.length_append, List.length_map, List.getElem?_map]
  split
  · split
    · split
      · rfl
      · rfl
    · rw [if_neg (by omega)]
  · rw [if_neg (by omega), if_neg (by omega)]

/-- An assembled module's functions are where its context says. -/
theorem contextOf_declares :
    Declares (contextOf ordered index fragment) fun at_ => (moduleSignatures ordered)[at_]? := by
  constructor
  · intro stated at_ found
    have within := lt_of_idxOf? found
    simp only [signature_at, if_pos within]
    rw [getElem?_of_idxOf? found]
    rfl
  · intro stated at_ found
    obtain ⟨position, placed, rfl⟩ := Option.map_eq_some_iff.1 found
    have within := lt_of_idxOf? placed
    simp only [signature_at]
    rw [if_neg (by omega), if_pos (by omega), Nat.add_sub_cancel_left,
      getElem?_of_idxOf? placed]
    rfl
  · intro stated at_ found
    obtain ⟨position, placed, rfl⟩ := Option.map_eq_some_iff.1 found
    have within := lt_of_idxOf? placed
    simp only [signature_at]
    rw [if_neg (by omega), if_neg (by omega), if_pos (by omega), Nat.add_sub_cancel_left,
      getElem?_of_idxOf? placed]
    rfl
  · intro position target found
    have found : ordered[position]? = some target := found
    show (moduleSignatures ordered)[(bufferedClasses ordered).length +
      (bufferedClasses ordered).length + (bufferedClasses ordered).length + position]? = _
    simp only [signature_at]
    rw [if_neg (by omega), if_neg (by omega), if_neg (by omega), Nat.add_sub_cancel_left, found]
    rfl

end Assembled

/-- A function does what a body means: from any arguments of the types it receives, and with any
contents of the buffers, both make the same calls and return the same values, or both go on. -/
def Preserves (ordered : List KernelFragment) (index : KernelIr.KernelId → Option Nat)
    (fragment : KernelFragment) (function : FunctionBody) : Prop :=
  let ctx := contextOf ordered index fragment
  let signatures := fun at_ => (moduleSignatures ordered)[at_]?
  ∀ (Real : Type) (floats : Floats Real) (host : Host Real signatures) (args : List (Datum Real)),
    args.map (fun datum => (Word.of datum).ty) = (fragmentSignature fragment).params →
    ∀ fuel, Agreed ctx
      (fragment.body.observe floats ctx.domain (host.reply ctx) fuel (fragment.body.enter args))
      (function.observe floats signatures host.words fuel (function.start (args.map Word.of)))

def fragmentOf (body : KernelBody) : KernelFragment where
  paramShape := .tuple [.scalar .int, .scalar .int]
  roles := {}
  body
  inputs := 1
  outputs := 0
  inputClasses := [.int]
  outputClasses := []
  resultClasses := [.int]
  target := { intWidth := .i64, laneWidth := 64, laneHeight := 1 }

/-- A loop that reads the first buffer once for each step. -/
def readingLoop : KernelBody where
  values := [.blockParam 0 0, .blockParam 0 1, .instr (.const .int 0) [] [.int], .blockParam 1 0,
    .instr (.bufferReadCall .int) [2, 3] [.int], .instr (.const .int 1) [] [.int],
    .instr (.bin .int .add) [3, 5] [.int], .instr (.bin .int .lt) [6, 1] [.int], .blockParam 2 0]
  blocks := [⟨[0, 1], [2], .br ⟨1, [2]⟩⟩, ⟨[3], [4, 5, 6, 7], .condBr 7 ⟨1, [6]⟩ ⟨2, [4]⟩⟩,
    ⟨[8], [], .return [8]⟩]
  entry := 0

theorem singleAssignment_readingLoop : readingLoop.SingleAssignment := by
  refine ⟨?_, by decide⟩
  intro block position value found
  rcases block with _ | _ | _ | block
  · rcases position with _ | _ | position <;> cases found <;> rfl
  · rcases position with _ | position <;> cases found
    rfl
  · rcases position with _ | position <;> cases found
    rfl
  · cases found

def readingLoopFunction : FunctionBody where
  blocks := [
    ⟨[(0, .i64), (1, .i64)], [⟨4, .i64Const 0, [], [.i64]⟩], .br ⟨1, [4]⟩⟩,
    ⟨[(2, .i64)], [⟨5, .call 0, [4, 2], [.i64]⟩, ⟨6, .i64Const 1, [], [.i64]⟩,
      ⟨7, .i64Add, [2, 6], [.i64]⟩, ⟨8, .i64LtU, [7, 1], [.i32]⟩,
      ⟨9, .i64ExtendI32U, [8], [.i64]⟩, ⟨10, .i32WrapI64, [9], [.i32]⟩],
      .condBr 10 ⟨1, [7]⟩ ⟨2, [5]⟩⟩,
    ⟨[(3, .i64)], [], .return [3]⟩]
  nextValue := 11

theorem lowerInto_readingLoop : lowerInto [fragmentOf readingLoop] (fun _ => none)
    (fragmentOf readingLoop) = .ok readingLoopFunction := by
  decide +kernel

/-- Control starts in the second block. -/
def secondEntered : KernelBody where
  values := [.instr (.const .int 1) [] [.int], .instr (.const .int 2) [] [.int]]
  blocks := [⟨[], [0], .return [0]⟩, ⟨[], [1], .return [1]⟩]
  entry := 1

/-- The function it is lowered to starts in the first one. -/
def secondEnteredFunction : FunctionBody where
  blocks := [⟨[(0, .i64), (1, .i64)], [⟨2, .i64Const 1, [], [.i64]⟩], .return [2]⟩,
    ⟨[], [⟨3, .i64Const 2, [], [.i64]⟩], .return [3]⟩]
  nextValue := 4

def noFloats : Floats Unit where
  ofBits _ := ()
  add _ _ := ()
  sub _ _ := ()
  mul _ _ := ()
  div _ _ := ()
  lt _ _ := false
  gt _ _ := false
  leq _ _ := false
  geq _ _ := false
  eq _ _ := false
  neq _ _ := false
  negate _ := ()
  unary _ _ := ()
  fma _ _ _ := ()
  ofInt _ := ()
  toInt _ := none

end LichenVm.Wasm
