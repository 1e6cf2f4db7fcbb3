import LichenVm.DeviceRegistry
import LichenVm.GraphRun

/-! What one submission stages of its host inputs, and the blocks its launches push. -/

open List

namespace LichenVm.Gpu

open KernelIr (ScalarClass KernelFragment)
open GraphIr (ScalarLeaf)

inductive RunError where
  | scalarLeavesMismatch (declared given : Nat)
  | pushConstantsTooLarge (bytes max : Nat)
  | extentNotAnInteger (stated : ScalarClass)
  | stagedLaunchNotAWholeWorkgroup (count laneWidth : Nat)
  | emptyRun
  /-- An index past the end of a list, which ends the process. -/
  | panics

/-- An input of a dispatch: a buffer used where it lies, or bytes at the class they are passed at. -/
inductive Bound where
  | resident
  | hostAt (passed : ScalarClass) (data : List UInt8)

/-- A host input and the slot it fills. -/
structure Host where
  slot : Nat
  passed : ScalarClass
  data : List UInt8

/-- A dispatch of a submission. `stages` says whether a fragment of its launch declares a slice or
holds a staged store. -/
structure Dispatch where
  root : KernelFragment
  leaves : List ScalarLeaf
  stages : Bool
  inputs : List Bound
  count : Nat

/-- An upload: the staged bytes, where they stand, and what is cleared past them in a destination of
`size` bytes. -/
structure Transfer where
  srcOffset : Nat
  data : List UInt8
  bytes : Nat
  tail : Nat
  size : Nat

structure Dispatched where
  uploads : List Transfer
  scalars : List UInt8

def hosts (inputs : List Bound) : List Host :=
  inputs.zipIdx.filterMap fun input =>
    match input with
    | (.hostAt passed data, slot) => some ⟨slot, passed, data⟩
    | (.resident, _) => none

section Classes

variable (fragment : KernelFragment)

/-- The flattened parameter offset the index occupies: the last leaf. -/
def indexLocal : Option Nat :=
  let arity := fragment.paramShape.flatArity
  if 0 < arity then some (arity - 1) else none

def moduleClass : ScalarClass :=
  match (fragment.inputClasses ++ fragment.outputClasses).head? with
  | some stated => stated
  | none =>
    ((fragment.paramShape.leafClasses.zipIdx.find? fun leaf =>
      some leaf.2 != indexLocal fragment).map Prod.fst).getD .int

/-- The class of a buffer: inputs first, then outputs. -/
def bufferClassOf (slot : Nat) (fallback : ScalarClass) : ScalarClass :=
  (fragment.inputClasses[slot]?.or
    (if fragment.inputs ≤ slot then fragment.outputClasses[slot - fragment.inputs]?
      else none)).getD fallback

/-- The leaves a launch pushes: all but the index. -/
def pushed : List ScalarClass :=
  fragment.paramShape.leafClasses.take (fragment.paramShape.flatArity - 1)

end Classes

def chunksExact (size : Nat) (data : List UInt8) : List (List UInt8) :=
  (range (data.length / size)).map fun chunk => (data.drop (chunk * size)).take size

/-- The bytes of a buffer at another class: a float and its high half are converted. -/
def atClass (data : List UInt8) : ScalarClass → ScalarClass → List UInt8
  | .float, .bFloat16 => (chunksExact 4 data).flatMap fun word => word.drop 2
  | .bFloat16, .float => (chunksExact 2 data).flatMap fun half => [0, 0] ++ half
  | _, _ => data

def ownElements (data : List UInt8) (width : Nat) : Nat := data.length / width

namespace Host

variable (host : Host) (fragment : KernelFragment)

def stated : ScalarClass := bufferClassOf fragment host.slot (moduleClass fragment)

def bytes : List UInt8 := atClass host.data host.passed (host.stated fragment)

def own : Nat := ownElements (host.bytes fragment) (host.stated fragment).byteWidth

/-- The bytes of the input's own elements. -/
def staged : List UInt8 :=
  (host.bytes fragment).take (host.own fragment * (host.stated fragment).byteWidth)

def upload (padded offset : Nat) : Transfer :=
  let element := (host.stated fragment).byteWidth
  let dataBytes := host.own fragment * element
  let paddedBytes := max padded (host.own fragment) * element
  { srcOffset := offset, data := host.staged fragment, bytes := dataBytes
    tail := paddedBytes - dataBytes, size := paddedBytes }

end Host

/-- The staging one dispatch's host inputs need. -/
def stagedBytes (fragment : KernelFragment) (hosts : List Host) : Nat :=
  (hosts.map fun host => host.own fragment * (host.stated fragment).byteWidth).sum

def batchStaging (batch : List Dispatch) : Nat :=
  (batch.map fun dispatch => stagedBytes dispatch.root (hosts dispatch.inputs)).sum

/-- A block begins where the previous one ended. -/
def uploads (fragment : KernelFragment) (padded : Nat) : List Host → Nat → List Transfer × Nat
  | [], offset => ([], offset)
  | host :: hosts, offset =>
    let block := host.upload fragment padded offset
    let (blocks, last) := uploads fragment padded hosts (offset + block.bytes)
    (block :: blocks, last)

def pushWidth (module stated : ScalarClass) : Nat := if module = .int ∧ stated = .int then 8 else 4

/-- The offset of each leaf from `cursor` on, and the size: a leaf sits at the next offset its own
width divides. -/
def layoutFrom (module : ScalarClass) : List ScalarClass → Nat → List Nat × Nat
  | [], cursor => ([], cursor)
  | leaf :: leaves, cursor =>
    let width := pushWidth module leaf
    let cursor := (cursor + width - 1) / width * width
    let (offsets, size) := layoutFrom module leaves (cursor + width)
    (cursor :: offsets, size)

def pushLayout (module : ScalarClass) (leaves : List ScalarClass) : List Nat × Nat :=
  layoutFrom module leaves 0

/-- The bytes of a leaf: the low ones of its word. -/
def leafBytes (module : ScalarClass) (leaf : ScalarLeaf) : List UInt8 :=
  (littleEndian (BitVec.ofInt 64 leaf.bits).toNat).take (pushWidth module leaf.stated)

def writeLeaf (module : ScalarClass) (bytes : List UInt8) (leaf : ScalarLeaf) (offset : Nat) :
    List UInt8 :=
  bytes.take offset ++ leafBytes module leaf ++
    bytes.drop (offset + pushWidth module leaf.stated)

def writeLeaves (module : ScalarClass) (bytes : List UInt8) (leaves : List ScalarLeaf)
    (offsets : List Nat) : List UInt8 :=
  (leaves.zip offsets).foldl (fun bytes leaf => writeLeaf module bytes leaf.1 leaf.2) bytes

namespace Dispatch

variable (dispatch : Dispatch)

/-- The push-constant bytes of a launch over `count` lanes. -/
def scalarBlock (limit : Nat) : Except RunError (List UInt8) :=
  let fragment := dispatch.root
  let module := moduleClass fragment
  let (offsets, size) := pushLayout module (pushed fragment)
  let extent := fragment.paramShape.leafClasses.head?.getD .int
  if dispatch.leaves.length ≠ fragment.runtimeScalars then
    .error (.scalarLeavesMismatch fragment.runtimeScalars dispatch.leaves.length)
  else if limit < size then .error (.pushConstantsTooLarge size limit)
  else if extent ≠ .int then .error (.extentNotAnInteger extent)
  else
    match offsets with
    | [] => .error .panics
    | first :: rest =>
      let bytes := writeLeaf module (replicate size 0) ⟨extent, dispatch.count⟩ first
      .ok (writeLeaves module bytes dispatch.leaves rest)

/-- The lanes of whole workgroups. -/
def padded : Nat :=
  let lanes := dispatch.root.target.laneWidth
  (dispatch.count + lanes - 1) / lanes * lanes

def dispatchInto (limit offset : Nat) : Except RunError (Dispatched × Nat) := do
  let scalars ← dispatch.scalarBlock limit
  let lanes := dispatch.root.target.laneWidth
  if dispatch.stages ∧ dispatch.count % lanes ≠ 0 then
    .error (.stagedLaunchNotAWholeWorkgroup dispatch.count lanes)
  else if dispatch.padded = 0 then .error .emptyRun
  else
    let (uploads, last) := uploads dispatch.root dispatch.padded (hosts dispatch.inputs) offset
    .ok ({ uploads, scalars }, last)

end Dispatch

def recordBatch (limit : Nat) : List Dispatch → Nat → Except RunError (List Dispatched)
  | [], _ => .ok []
  | dispatch :: batch, offset => do
    let (dispatched, last) ← dispatch.dispatchInto limit offset
    let rest ← recordBatch limit batch last
    .ok (dispatched :: rest)

def transfers (submitted : List Dispatched) : List Transfer := submitted.flatMap (·.uploads)

/-- Blocks that stand one after another, between two offsets. -/
structure Placed (first last : Nat) (blocks : List Transfer) : Prop where
  bounds : first ≤ last
  apart : blocks.Pairwise fun block later => block.srcOffset + block.bytes ≤ later.srcOffset
  inside : ∀ block ∈ blocks, first ≤ block.srcOffset ∧ block.srcOffset + block.bytes ≤ last

/-- The staged bytes and the zeros past them fill the destination. -/
structure Transfer.Whole (block : Transfer) : Prop where
  staged : block.data.length = block.bytes
  fills : block.bytes + block.tail = block.size

/-- What the device asks of a fill. -/
def Transfer.Legal (block : Transfer) : Prop := 0 < block.tail → 4 ∣ block.bytes ∧ 4 ∣ block.tail

/-- Each leaf's bytes stand at the leaf's offset, inside the block and before the next leaf. -/
structure Stand (module : ScalarClass) (leaves : List ScalarLeaf) (offsets : List Nat)
    (first size : Nat) (block : List UInt8) : Prop where
  each : ∀ (index : Nat) leaf offset, leaves[index]? = some leaf → offsets[index]? = some offset →
    (block.drop offset).take (pushWidth module leaf.stated) = leafBytes module leaf ∧
      first ≤ offset ∧ offset + pushWidth module leaf.stated ≤ size
  apart : ∀ (index later : Nat) leaf offset offset', index < later → leaves[index]? = some leaf →
    offsets[index]? = some offset → offsets[later]? = some offset' →
    offset + pushWidth module leaf.stated ≤ offset'
  size : block.length = size

/-- The leaves that a launch pushes, the extent first. -/
def Dispatch.values (dispatch : Dispatch) : List ScalarLeaf := ⟨.int, dispatch.count⟩ :: dispatch.leaves

/-- The module declares a leaf where the layout of its own classes puts it. -/
def LeavesStand (dispatch : Dispatch) (dispatched : Dispatched) : Prop :=
  let module := moduleClass dispatch.root
  let (offsets, size) := pushLayout module (pushed dispatch.root)
  offsets.length = dispatch.values.length ∧
    Stand module dispatch.values offsets 0 size dispatched.scalars

/-- What a submission stages lands whole and legally. -/
structure Lands (batch : List Dispatch) (submitted : List Dispatched) : Prop where
  placed : Placed 0 (batchStaging batch) (transfers submitted)
  own : (transfers submitted).map (·.data) =
    batch.flatMap fun dispatch => (hosts dispatch.inputs).map (·.staged dispatch.root)
  whole : ∀ block ∈ transfers submitted, block.Whole
  legal : ∀ block ∈ transfers submitted, block.Legal
  leaves : Forall₂ LeavesStand batch submitted

/-- A half-width input that is shorter than its buffer has an even number of elements, and so has its
buffer. -/
def Even (dispatch : Dispatch) : Prop := ∀ host ∈ hosts dispatch.inputs,
  host.stated dispatch.root = .bFloat16 → host.own dispatch.root < dispatch.padded →
  2 ∣ host.own dispatch.root ∧ 2 ∣ dispatch.padded

/-- The leaves are at the classes the domain declares, as both callers build them. -/
def Declared (dispatch : Dispatch) : Prop :=
  dispatch.leaves.map (·.stated) = (pushed dispatch.root).tail

theorem pushWidth_cases (module stated : ScalarClass) :
    pushWidth module stated = 8 ∨ pushWidth module stated = 4 := by
  unfold pushWidth
  split
  · exact .inl rfl
  · exact .inr rfl

theorem length_leafBytes (module : ScalarClass) (leaf : ScalarLeaf) :
    (leafBytes module leaf).length = pushWidth module leaf.stated := by
  have width := pushWidth_cases module leaf.stated
  simp only [leafBytes, littleEndian, length_take, length_map, length_range]
  omega

theorem layoutFrom_cons (module stated : ScalarClass) (leaves : List ScalarClass) (cursor : Nat) :
    ∃ start, cursor ≤ start ∧ layoutFrom module (stated :: leaves) cursor =
      (start :: (layoutFrom module leaves (start + pushWidth module stated)).1,
        (layoutFrom module leaves (start + pushWidth module stated)).2) := by
  refine ⟨_, ?_, rfl⟩
  rcases pushWidth_cases module stated with width | width <;> rw [width] <;> omega

/-- A later leaf is written past the ones before it: the induction keeps the bytes below the cursor. -/
theorem stand_layoutFrom (module : ScalarClass) (leaves : List ScalarLeaf) (cursor : Nat) :
    let laid := layoutFrom module (leaves.map (·.stated)) cursor
    laid.1.length = leaves.length ∧ cursor ≤ laid.2 ∧ ∀ bytes : List UInt8, bytes.length = laid.2 →
      (writeLeaves module bytes leaves laid.1).take cursor = bytes.take cursor ∧
        Stand module leaves laid.1 cursor laid.2 (writeLeaves module bytes leaves laid.1) := by
  induction leaves generalizing cursor with
  | nil => exact ⟨rfl, le_refl _, fun bytes sized => ⟨rfl, by simp, by simp, sized⟩⟩
  | cons leaf leaves ih =>
    obtain ⟨start, aligned, laid⟩ := layoutFrom_cons module leaf.stated (leaves.map (·.stated)) cursor
    rw [map_cons, laid]
    have wrote := length_leafBytes module leaf
    have rest := ih (start + pushWidth module leaf.stated)
    revert rest
    generalize layoutFrom module (leaves.map (·.stated)) (start + pushWidth module leaf.stated) = tail
    rintro ⟨counted, bound, later⟩
    refine ⟨congrArg (· + 1) counted, by dsimp only; omega, fun bytes sized => ?_⟩
    have opening : (writeLeaf module bytes leaf start).take (start + pushWidth module leaf.stated) =
        bytes.take start ++ leafBytes module leaf := by
      rw [writeLeaf, take_left']
      rw [length_append, length_take, wrote, sized]
      omega
    obtain ⟨kept, stand⟩ := later (writeLeaf module bytes leaf start) (by
      simp only [writeLeaf, length_append, length_take, wrote, length_drop, sized]
      omega)
    rw [opening] at kept
    have after : ∀ (index : Nat) offset, tail.1[index]? = some offset →
        start + pushWidth module leaf.stated ≤ offset := by
      intro index offset at_index
      have inside := (List.getElem?_eq_some_iff.1 at_index).1
      exact (stand.each index _ offset (getElem?_eq_getElem (counted ▸ inside)) at_index).2.1
    refine ⟨?_, ?_, ?_, stand.size⟩
    · have below := congrArg (take cursor) kept
      rw [take_take, take_append_of_le_length, take_take] at below
      · rwa [min_eq_left, min_eq_left aligned] at below
        omega
      · rw [length_take]
        omega
    · intro index value offset at_value at_index
      cases index with
      | zero =>
        cases at_value
        cases at_index
        refine ⟨?_, aligned, bound⟩
        have own := congrArg (drop start) kept
        rw [drop_take, Nat.add_sub_cancel_left, drop_left'] at own
        · exact own
        · rw [length_take]
          omega
      | succ index =>
        obtain ⟨stands, past, inside⟩ := stand.each index value offset at_value at_index
        exact ⟨stands, by omega, inside⟩
    · intro index later value offset offset' less at_value at_index at_later
      obtain ⟨later, rfl⟩ := Nat.exists_eq_add_one.2 (Nat.zero_lt_of_lt less)
      cases index with
      | zero =>
        cases at_value
        cases at_index
        exact after later offset' at_later
      | succ index =>
        exact stand.apart index later value offset offset' (Nat.lt_of_succ_lt_succ less) at_value
          at_index at_later

theorem scalarBlock_stands {dispatch : Dispatch} {limit : Nat} {scalars : List UInt8}
    (declared : Declared dispatch) (made : dispatch.scalarBlock limit = .ok scalars)
    (uploads : List Transfer) : LeavesStand dispatch { uploads, scalars } := by
  unfold Dispatch.scalarBlock at made
  dsimp only at made
  split at made
  · cases made
  split at made
  · cases made
  split at made
  · cases made
  next extent =>
    cases leaves : pushed dispatch.root with
    | nil =>
      rw [leaves] at made
      cases made
    | cons first rest =>
      have head : first = .int := by
        have opening := congrArg head? leaves
        rw [pushed, head?_take] at opening
        split at opening
        · cases opening
        · rw [head?_cons] at opening
          rw [opening] at extent
          exact not_not.1 extent
      have stated : dispatch.values.map (·.stated) = first :: rest := by
        rw [Declared, leaves] at declared
        rw [Dispatch.values, map_cons, declared, head]
        rfl
      obtain ⟨counted, -, stands⟩ := stand_layoutFrom (moduleClass dispatch.root) dispatch.values 0
      rw [stated] at counted stands
      obtain ⟨-, stand⟩ := stands (replicate _ 0) length_replicate
      obtain ⟨start, -, laid⟩ := layoutFrom_cons (moduleClass dispatch.root) first rest 0
      rw [leaves, pushLayout, laid, not_not.1 extent] at made
      cases made
      simp only [LeavesStand, leaves, pushLayout, laid]
      rw [laid] at counted stand
      exact ⟨counted, stand⟩

theorem Placed.append {first middle last : Nat} {blocks others : List Transfer}
    (before : Placed first middle blocks) (after : Placed middle last others) :
    Placed first last (blocks ++ others) where
  bounds := le_trans before.bounds after.bounds
  apart := by
    refine pairwise_append.2 ⟨before.apart, after.apart, fun block member later member' => ?_⟩
    exact le_trans (before.inside block member).2 (after.inside later member').1
  inside block member := by
    have bounds := before.bounds
    have bounds' := after.bounds
    rcases mem_append.1 member with member | member
    · have := before.inside block member
      omega
    · have := after.inside block member
      omega

section

variable (host : Host) (fragment : KernelFragment) (padded offset : Nat)

/-- Four bytes divide the wide classes; a half-width tail needs both ends even. -/
theorem upload_legal_iff :
    (host.upload fragment padded offset).Legal ↔ (host.stated fragment = .bFloat16 →
      host.own fragment < padded → 2 ∣ host.own fragment ∧ 2 ∣ padded) := by
  unfold Transfer.Legal Host.upload
  cases host.stated fragment with
  | int | float => simp only [ScalarClass.byteWidth, reduceCtorEq, false_imp_iff, iff_true]; omega
  | bFloat16 => simp only [ScalarClass.byteWidth, true_imp_iff]; omega

theorem upload_whole : (host.upload fragment padded offset).Whole where
  staged := by
    refine length_take.trans (min_eq_left ?_)
    exact Nat.div_mul_le_self ..
  fills := by
    refine Nat.add_sub_cancel' (Nat.mul_le_mul_right _ (le_max_right ..))

end

theorem uploads_spec (fragment : KernelFragment) (padded : Nat) (hosts : List Host) (offset : Nat) :
    let (blocks, last) := uploads fragment padded hosts offset
    last = offset + stagedBytes fragment hosts ∧ Placed offset last blocks ∧
      blocks.map (·.data) = hosts.map (·.staged fragment) ∧ (∀ block ∈ blocks, block.Whole) ∧
      ((∀ block ∈ blocks, block.Legal) ↔ ∀ host ∈ hosts, host.stated fragment = .bFloat16 →
        host.own fragment < padded → 2 ∣ host.own fragment ∧ 2 ∣ padded) := by
  induction hosts generalizing offset with
  | nil => exact ⟨rfl, ⟨le_refl _, .nil, by simp⟩, rfl, by simp, by simp⟩
  | cons host hosts ih =>
    obtain ⟨ends, placed, own, whole, legal⟩ :=
      ih (offset + (host.upload fragment padded offset).bytes)
    refine ⟨?_, ?_, congrArg (_ :: ·) own, forall_mem_cons.2 ⟨upload_whole .., whole⟩, ?_⟩
    · exact ends.trans (add_assoc ..)
    · have first : Placed offset (offset + (host.upload fragment padded offset).bytes)
          [host.upload fragment padded offset] :=
        ⟨Nat.le_add_right .., pairwise_singleton .., by simp [Host.upload]⟩
      exact first.append placed
    · rw [forall_mem_cons, forall_mem_cons, legal, upload_legal_iff]

theorem dispatchInto_ok {dispatch : Dispatch} {limit offset last : Nat} {dispatched : Dispatched}
    (recorded : dispatch.dispatchInto limit offset = .ok (dispatched, last)) :
    dispatch.scalarBlock limit = .ok dispatched.scalars ∧
      uploads dispatch.root dispatch.padded (hosts dispatch.inputs) offset =
        (dispatched.uploads, last) := by
  unfold Dispatch.dispatchInto at recorded
  cases block : dispatch.scalarBlock limit with
  | error refusal =>
    rw [block] at recorded
    cases recorded
  | ok scalars =>
    simp only [block, bind, Except.bind] at recorded
    split at recorded
    · cases recorded
    split at recorded
    · cases recorded
    cases recorded
    exact ⟨rfl, rfl⟩

theorem recordBatch_spec {limit offset : Nat} {batch : List Dispatch} {submitted : List Dispatched}
    (recorded : recordBatch limit batch offset = .ok submitted) :
    Placed offset (offset + batchStaging batch) (transfers submitted) ∧
      (transfers submitted).map (·.data) =
        (batch.flatMap fun dispatch => (hosts dispatch.inputs).map (·.staged dispatch.root)) ∧
      (∀ block ∈ transfers submitted, block.Whole) ∧
      ((∀ block ∈ transfers submitted, block.Legal) ↔ ∀ dispatch ∈ batch, Even dispatch) ∧
      Forall₂ (fun dispatch dispatched => dispatch.scalarBlock limit = .ok dispatched.scalars) batch
        submitted := by
  induction batch generalizing offset submitted with
  | nil =>
    cases recorded
    exact ⟨⟨le_refl _, .nil, by simp [transfers]⟩, rfl, by simp [transfers], by simp [transfers],
      .nil⟩
  | cons dispatch batch ih =>
    unfold recordBatch at recorded
    cases here : dispatch.dispatchInto limit offset with
    | error refusal =>
      rw [here] at recorded
      cases recorded
    | ok found =>
      obtain ⟨dispatched, last⟩ := found
      cases later : recordBatch limit batch last with
      | error refusal =>
        simp only [here, later, bind, Except.bind] at recorded
        cases recorded
      | ok rest =>
        simp only [here, later, bind, Except.bind] at recorded
        cases recorded
        obtain ⟨pushes, stages⟩ := dispatchInto_ok here
        obtain ⟨ends, placed, own, whole, legal⟩ :=
          stages ▸ uploads_spec dispatch.root dispatch.padded (hosts dispatch.inputs) offset
        obtain ⟨placed', own', whole', legal', pushes'⟩ := ih later
        rw [ends, add_assoc] at placed'
        have split : transfers (dispatched :: rest) = dispatched.uploads ++ transfers rest :=
          flatMap_cons
        rw [split]
        refine ⟨(ends ▸ placed).append placed', ?_, ?_, ?_, .cons pushes pushes'⟩
        · rw [map_append, own, own', flatMap_cons]
        · exact fun block member => (mem_append.1 member).elim (whole block) (whole' block)
        · rw [forall_mem_append, legal, legal', forall_mem_cons]
          rfl

/-- **What a submission stages lands whole and legally exactly when no half-width input ends at an odd
element short of its buffer**, or in a buffer of odd length. -/
theorem recordBatch_lands_iff {limit : Nat} {batch : List Dispatch} {submitted : List Dispatched}
    (declared : ∀ dispatch ∈ batch, Declared dispatch)
    (recorded : recordBatch limit batch 0 = .ok submitted) :
    Lands batch submitted ↔ ∀ dispatch ∈ batch, Even dispatch := by
  obtain ⟨placed, own, whole, legal, pushes⟩ := recordBatch_spec recorded
  refine ⟨fun lands => legal.1 lands.legal, fun even => ?_⟩
  rw [zero_add] at placed
  refine ⟨placed, own, whole, legal.2 even, ?_⟩
  clear recorded placed own whole legal even
  induction pushes with
  | nil => exact .nil
  | cons pushed _ ih =>
    rw [forall_mem_cons] at declared
    exact .cons (scalarBlock_stands declared.1 pushed _) (ih declared.2)

/-- A launch of 64 lanes that reads halves, over the inputs given. -/
def halves (inputs : List Bound) : Dispatch where
  root := {
    paramShape := .tuple [.scalar .int, .scalar .int], roles := {}, body := ⟨[], [], 0, false, []⟩
    inputs := 1, outputs := 0, inputClasses := [.bFloat16], outputClasses := [], resultClasses := []
    target := ⟨.i64, 64, 1⟩ }
  leaves := []
  stages := false
  inputs
  count := 64

/-- Two halves in a buffer of 64, staged after two floats that are converted. -/
theorem recordBatch_lands_iff_even :
    let batch := [halves [.hostAt .float (replicate 8 1)], halves [.hostAt .bFloat16 [1, 2, 3, 4]]]
    ∃ submitted, recordBatch 128 batch 0 = .ok submitted ∧ transfers submitted ≠ [] ∧
      (Lands batch submitted ↔ ∀ dispatch ∈ batch, Even dispatch) :=
  ⟨_, rfl, by decide,
    @recordBatch_lands_iff 128 _ _ (forall_mem_cons.2 ⟨rfl, forall_mem_singleton.2 rfl⟩) rfl⟩

/-- Three halves in a buffer of 64: the fill starts at byte six. -/
theorem odd_halves_fill_misaligned : ∃ submitted,
    recordBatch 128 [halves [.hostAt .bFloat16 [1, 2, 3, 4, 5, 6]]] 0 = .ok submitted ∧
      ¬ Lands [halves [.hostAt .bFloat16 [1, 2, 3, 4, 5, 6]]] submitted := by
  refine ⟨_, rfl, fun lands => ?_⟩
  have aligned := (lands.legal _ mem_cons_self (by decide)).1
  exact absurd aligned (by decide)

end LichenVm.Gpu
