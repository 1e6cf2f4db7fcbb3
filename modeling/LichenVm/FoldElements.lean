import LichenVm.FoldBuilt
import LichenVm.FoldLaunch

open List Option

namespace LichenVm.FusionBridge

open Fusion KernelIr Builder

def stepsFit : Nat → List Step → Bool
  | _, [] => true
  | count, .binary _ left right :: steps =>
    (left < count && right < count) && stepsFit (count + 1) steps
  | count, _ :: steps => stepsFit (count + 1) steps

theorem stepsFit_append (count : Nat) (steps more : List Step) :
    stepsFit count (steps ++ more) = (stepsFit count steps && stepsFit (count + steps.length) more) := by
  induction steps generalizing count with
  | nil => simp [stepsFit]
  | cons step steps ih =>
    have along : count + 1 + steps.length = count + (steps.length + 1) := by omega
    cases step <;> simp [stepsFit, ih, along, Bool.and_assoc]

/-- A compiled function only grows the steps, and they fit. -/
theorem stepOf_fits {stated : ScalarClass} {expression : Expr F64} {steps compiled : List Step}
    (some : stepOf stated expression steps = some compiled) (fits : stepsFit 0 steps) :
    stepsFit 0 compiled ∧ steps.length < compiled.length := by
  induction expression generalizing steps compiled with
  | constant value =>
    simp only [stepOf, Option.some.injEq] at some
    subst some
    simp [stepsFit_append, fits, stepsFit]
  | var name =>
    rw [stepOf] at some
    split at some
    · cases some
      simp [stepsFit_append, fits, stepsFit]
    · cases some
  | unary operator operand => cases some
  | binary operator left right first second =>
    simp only [stepOf, bind_eq_bind, bind_eq_some_iff] at some
    obtain ⟨operator, -, middle, leftSome, after, rightSome, same⟩ := some
    cases same
    obtain ⟨fits, longer⟩ := first leftSome fits
    obtain ⟨fits, longest⟩ := second rightSome fits
    refine ⟨?_, by rw [length_append, length_singleton]; omega⟩
    simp only [stepsFit_append, fits, stepsFit, Bool.and_eq_true, decide_eq_true_eq, true_and,
      and_true]
    omega

theorem compile_fits {stated : ScalarClass} {expression : Expr F64} {steps : List Step}
    (some : compile expression stated = some steps) : stepsFit 0 steps ∧ steps ≠ [] := by
  obtain ⟨fits, longer⟩ := stepOf_fits some rfl
  exact ⟨fits, ne_nil_of_length_pos longer⟩

section Meaning

variable {stated : ScalarClass} (buffers : Buffers stated) (slices : Slices)

/-- A block's values hold what its instructions leave. -/
structure Settled (body : KernelBody) (block : Nat) (bound : ValueId → Traced) : Prop where
  computes : ∀ value op args, body.Lists block value op args → op.acts = false →
    bound value = Traced.meaning.compute op (args.map bound)
  answers : ∀ value op args, body.Lists block value op args → op.acts = true → op.produces ≠ 0 →
    bound value = answer buffers slices ⟨op, args.map bound⟩

/-- The constants of the entry hold what they state. -/
def Knows (body : KernelBody) (bound : ValueId → Traced) : Prop :=
  ∀ value own bits, body.Lists 0 value (.const own bits) [] →
    bound value = .plain (Number.literal bits own)

/-- What the steps of a datum function leave, over what those before them left. -/
noncomputable def evaluate (stated : ScalarClass) (datum : Traced) :
    List Step → List Traced → List Traced
  | [], values => values
  | .datum :: steps, values => evaluate stated datum steps (values ++ [datum])
  | .constant bits :: steps, values =>
    evaluate stated datum steps (values ++ [.plain (Number.literal bits stated)])
  | .binary operator left right :: steps, values =>
    evaluate stated datum steps (values ++ [Traced.meaning.compute (.bin stated operator)
      [values.getD left default, values.getD right default]])

noncomputable def fetched (position : Nat) (address : Traced) : Traced :=
  answer buffers slices ⟨.bufferReadCall stated, [.plain (.word (.ofNat 64 position)), address]⟩

/-- The value an element contributes at an address. -/
noncomputable def contribution (element : Element) (datum : List Step) (address : Traced) :
    Traced :=
  match element with
  | .buffer position => fetched buffers slices position address
  | .slice ordinal _ =>
    slices (BitVec.ofNat 64 ordinal).toNat address.number.bits.toNat
  | .address => address
  | .function position _ =>
    ((evaluate stated (fetched buffers slices position address) datum []).getLast?).getD default

def Contributes (body : KernelBody) (block : Nat) (element : Element) (datum : List Step)
    (address read : ValueId) : Prop :=
  ∀ bound, Settled buffers slices body block bound → Knows body bound →
    bound read = contribution buffers slices element datum (bound address)

variable {buffers slices} {listed entered closed : List Nat} {after : KernelBody}

theorem Settled.before {before : KernelBody}
    (grows : KernelBody.Grows listed entered closed before after) {block : Nat}
    {bound : ValueId → Traced} (settled : Settled buffers slices after block bound) :
    Settled buffers slices before block bound :=
  ⟨fun value op args lists => settled.computes value op args (lists.grows grows),
    fun value op args lists => settled.answers value op args (lists.grows grows)⟩

theorem Knows.before {before : KernelBody}
    (grows : KernelBody.Grows listed entered closed before after) {bound : ValueId → Traced}
    (knows : Knows after bound) : Knows before bound :=
  fun value own bits lists => knows value own bits (lists.grows grows)

theorem Contributes.grows {before : KernelBody}
    (grows : KernelBody.Grows listed entered closed before after) {block : Nat} {element : Element}
    {datum : List Step} {address read : ValueId}
    (contributes : Contributes buffers slices before block element datum address read) :
    Contributes buffers slices after block element datum address read :=
  fun bound settled knows => contributes bound (settled.before grows) (knows.before grows)

end Meaning

/-- A step of the walk that emits a value into a block, naming constants of the entry. -/
structure Emitted (allowed : Nat → KernelInstr → Prop) (block : Nat) (before after : Builder) :
    Prop where
  building : Building allowed after
  goes : Goes [0, block] [] [] before after
  blocks : after.body.blocks.length = before.body.blocks.length

variable {value : ValueId} {listed entered closed : List Nat}

theorem Goes.longer {before after : Builder} (goes : Goes listed entered closed before after)
    (within : value < before.body.values.length) : value < after.body.values.length :=
  Nat.lt_of_lt_of_le within goes.grows.values.length_le

/-- A value the entry or a block lists. -/
def Held (body : KernelBody) (block : Nat) (value : ValueId) : Prop :=
  value ∈ (body.block 0).instrs ∨ value ∈ (body.block block).instrs

theorem Held.grows {before after : KernelBody}
    (grows : KernelBody.Grows listed entered closed before after) {block : Nat}
    (held : Held before block value) : Held after block value := by
  rcases held with entry | own
  · exact .inl (grows.instrs 0 (KernelBody.block_of_instr entry) entry)
  · exact .inr (grows.instrs block (KernelBody.block_of_instr own) own)

theorem Held.lt {allowed : Nat → KernelInstr → Prop} {builder : Builder}
    (building : Building allowed builder) {block : Nat}
    (held : Held builder.body block value) : value < builder.body.values.length := by
  rcases held with entry | own
  · exact building.laid.within 0 value (mem_append_right _ entry)
  · exact building.laid.within block value (mem_append_right _ own)

namespace Emitted

variable {allowed : Nat → KernelInstr → Prop} {block : Nat} {builder : Builder}

theorem refl (building : Building allowed builder) : Emitted allowed block builder builder :=
  ⟨building, (Goes.refl builder).within (nil_subset _) (nil_subset _) (nil_subset _), rfl⟩

theorem trans {before middle after : Builder} (first : Emitted allowed block before middle)
    (second : Emitted allowed block middle after) : Emitted allowed block before after :=
  ⟨second.building, (first.goes.trans second.goes).within (by simp) (by simp) (by simp),
    second.blocks.trans first.blocks⟩

theorem push (building : Building allowed builder) (inside : block < builder.body.blocks.length)
    (op : KernelInstr) (args : List ValueId) (within : ∀ arg ∈ args, arg < builder.body.values.length)
    (may : op.acts → allowed block op) :
    ∃ value after, Builder.push block op args builder = (value, after) ∧
      Emitted allowed block builder after ∧ after.body.Lists block value op args := by
  obtain ⟨value, after, ran, built, goes, lists, -, blocks⟩ := push_spec building inside op args within may
  exact ⟨value, after, ran, ⟨built, goes.within (by simp) (by simp) (by simp), blocks⟩, lists⟩

theorem constant (block : Nat) (building : Building allowed builder) (stated : ScalarClass) (bits : BitVec 64) :
    ∃ value after, Builder.constant stated bits builder = (value, after) ∧
      Emitted allowed block builder after ∧ after.body.Lists 0 value (.const stated bits) [] := by
  obtain ⟨value, after, ran, built, goes, lists, blocks⟩ := constant_spec building stated bits
  exact ⟨value, after, ran, ⟨built, goes.within (by simp) (by simp) (by simp), blocks⟩, lists⟩

end Emitted

section Elements

variable {allowed : Nat → KernelInstr → Prop} {stated : ScalarClass} (buffers : Buffers stated)
  (slices : Slices)

variable {builder : Builder}

/-- Replaying the steps of a datum function leaves what the steps evaluate to. -/
theorem replay_spec {block : Nat} {read : ValueId} (steps : List Step) (values : List ValueId)
    (building : Building allowed builder)
    (inside : block < builder.body.blocks.length) (known : Held builder.body block read)
    (within : ∀ value ∈ values, Held builder.body block value)
    (fits : stepsFit values.length steps) :
    ∃ replayed after, steps.foldlM (replay block stated read) values builder = (replayed, after) ∧
      Emitted allowed block builder after ∧
      (∀ value ∈ replayed, Held after.body block value) ∧
      replayed.length = values.length + steps.length ∧
      ∀ bound, Settled buffers slices after.body block bound → Knows after.body bound →
        replayed.map bound = evaluate stated (bound read) steps (values.map bound) := by
  induction steps generalizing values builder with
  | nil => exact ⟨values, builder, rfl, .refl building, within, rfl, fun bound _ _ => rfl⟩
  | cons step steps ih =>
    -- Each step leaves one value more, and holds what it means.
    have one : ∃ value next, replay block stated read values step builder =
        (values ++ [value], next) ∧ Emitted allowed block builder next ∧
        Held next.body block value ∧ stepsFit (values.length + 1) steps ∧
        ∀ bound, Settled buffers slices next.body block bound → Knows next.body bound →
          evaluate stated (bound read) (step :: steps) (values.map bound) =
            evaluate stated (bound read) steps ((values ++ [value]).map bound) := by
      cases step with
      | datum =>
        refine ⟨read, builder, rfl, .refl building, known, fits, fun bound _ _ => ?_⟩
        rw [map_append]
        rfl
      | constant bits =>
        obtain ⟨value, next, ran, emitted, lists⟩ :=
          Emitted.constant block building stated bits
        refine ⟨value, next, bind_run ran, emitted, .inl lists.1, fits, fun bound _ knows => ?_⟩
        rw [map_append, map_singleton, knows value stated bits lists]
        rfl
      | binary operator left right =>
        simp only [stepsFit, Bool.and_eq_true, decide_eq_true_eq] at fits
        obtain ⟨⟨leftFits, rightFits⟩, fits⟩ := fits
        have entry : ∀ index (short : index < values.length),
            values.getD index 0 = values[index] := by
          intro index short
          rw [getD_eq_getElem?_getD, getElem?_eq_getElem short]
          rfl
        have reads : ∀ arg ∈ [values.getD left 0, values.getD right 0],
            arg < builder.body.values.length := by
          intro arg member
          rcases mem_cons.1 member with rfl | member
          · rw [entry left leftFits]
            exact (within _ (getElem_mem leftFits)).lt building
          · rw [mem_singleton.1 member, entry right rightFits]
            exact (within _ (getElem_mem rightFits)).lt building
        obtain ⟨value, next, ran, emitted, lists⟩ := Emitted.push building inside
          (.bin stated operator) _ reads (fun acts => by cases acts)
        refine ⟨value, next, bind_run ran, emitted, .inr lists.1, fits, fun bound settled _ => ?_⟩
        rw [map_append, map_singleton, settled.computes value _ _ lists rfl]
        have mapped : ∀ index (short : index < values.length),
            (values.map bound).getD index default = bound (values.getD index 0) := by
          intro index short
          rw [entry index short, getD_eq_getElem?_getD, getElem?_map,
            getElem?_eq_getElem short]
          rfl
        show evaluate stated (bound read) steps (values.map bound ++ [_]) = _
        rw [mapped left leftFits, mapped right rightFits]
        rfl
    obtain ⟨value, next, ran, emitted, own, fits, means⟩ := one
    have grown : ∀ value ∈ values, Held next.body block value :=
      fun value member => (within value member).grows emitted.goes.grows
    obtain ⟨replayed, after, rest, later, listed, length, same⟩ := ih (values ++ [value])
      emitted.building (Nat.lt_of_lt_of_eq inside emitted.blocks.symm) (known.grows emitted.goes.grows)
      (fun other member => by
        rcases mem_append.1 member with old | last
        · exact grown other old
        · rw [mem_singleton.1 last]
          exact own)
      (by rw [length_append]; exact fits)
    refine ⟨replayed, after, ?_, emitted.trans later, listed, ?_, ?_⟩
    · rw [foldlM_cons]
      exact (bind_run ran).trans rest
    · simp only [length, length_append, length_cons, length_nil]
      omega
    · intro bound settled knows
      rw [same bound settled knows, means bound (settled.before later.goes.grows)
        (knows.before later.goes.grows)]

/-- The instruction that reads an element, when one does. -/
def Element.access (stated : ScalarClass) : Element → Option KernelInstr
  | .buffer _ | .function _ _ => some (.bufferReadCall stated)
  | .slice _ _ => some (.sliceReadCall stated)
  | .address => none

/-- An element a builder can emit: the slice write it observes is one of its values, and its datum
function has a last step. -/
def Element.Fits (builder : Builder) (datum : List Step) : Element → Prop
  | .slice _ observed => observed < builder.body.values.length
  | .function _ _ => stepsFit 0 datum = true ∧ datum ≠ []
  | .buffer _ | .address => True

theorem fetched_of {block : Nat} {position address read : ValueId} {place : Nat}
    (constant : builder.body.Lists 0 position (.const .int (.ofNat 64 place)) [])
    (lists : builder.body.Lists block read (.bufferReadCall stated) [position, address])
    {bound : ValueId → Traced} (settled : Settled buffers slices builder.body block bound)
    (knows : Knows builder.body bound) :
    bound read = fetched buffers slices place (bound address) := by
  rw [settled.answers read _ _ lists rfl Nat.one_ne_zero, map_cons, map_singleton,
    knows position .int _ constant]
  rfl

/-- The value an element contributes is emitted into the current block. -/
theorem elementAt_spec (building : Building allowed builder)
    (inside : builder.block < builder.body.blocks.length) (own : builder.stated = stated)
    {element : Element} {datum : List Step} {address : ValueId}
    (known : address < builder.body.values.length) (fits : element.Fits builder datum)
    (may : ∀ op, element.access stated = some op → allowed builder.block op) :
    ∃ read after, elementAt element address datum builder = (read, after) ∧
      Emitted allowed builder.block builder after ∧
      (read = address ∨ Held after.body builder.block read) ∧
      Contributes buffers slices after.body builder.block element datum address read := by
  have fetch : ∀ place, element.access stated = some (.bufferReadCall stated) →
      ∃ position read middle after, constant .int (.ofNat 64 place) builder = (position, middle) ∧
        Builder.push builder.block (.bufferReadCall stated) [position, address] middle =
          (read, after) ∧
        Emitted allowed builder.block builder after ∧
        after.body.Lists builder.block read (.bufferReadCall stated) [position, address] ∧
        after.body.Lists 0 position (.const .int (.ofNat 64 place)) [] := by
    intro place reads
    obtain ⟨position, middle, ran, first, constant⟩ :=
      Emitted.constant builder.block building .int (.ofNat 64 place)
    obtain ⟨read, after, pushed, second, lists⟩ := Emitted.push first.building
      (Nat.lt_of_lt_of_eq inside first.blocks.symm) (.bufferReadCall stated)
      [position, address]
      (fun arg member => by
        rcases mem_cons.1 member with rfl | member
        · exact constant.lt
        · rw [mem_singleton.1 member]
          exact first.goes.longer known)
      (fun _ => may _ reads)
    exact ⟨position, read, middle, after, ran, pushed, first.trans second, lists,
      constant.grows second.goes.grows⟩
  have enters : ∀ {β : Type} (rest : Nat → Builder → Build β),
      (do
        let block ← current
        let held ← get
        rest block held) builder = rest builder.block builder builder := fun rest => rfl
  unfold elementAt
  rw [enters, own]
  cases element with
  | buffer place =>
    obtain ⟨position, read, middle, after, ran, pushed, emitted, lists, constant⟩ := fetch place rfl
    refine ⟨read, after, (bind_run ran).trans pushed, emitted, .inr (.inr lists.1), ?_⟩
    intro bound settled knows
    exact fetched_of buffers slices constant lists settled knows
  | slice ordinal observed =>
    obtain ⟨place, middle, ran, first, constant⟩ :=
      Emitted.constant builder.block building .int (.ofNat 64 ordinal)
    obtain ⟨read, after, pushed, second, lists⟩ := Emitted.push first.building
      (Nat.lt_of_lt_of_eq inside first.blocks.symm) (.sliceReadCall stated)
      [place, address, observed]
      (fun arg member => by
        rcases mem_cons.1 member with rfl | member
        · exact constant.lt
        rcases mem_cons.1 member with rfl | member
        · exact first.goes.longer known
        · rw [mem_singleton.1 member]
          exact first.goes.longer fits)
      (fun _ => may _ rfl)
    have observed : Emitted allowed builder.block after
        { after with sliceReads := after.sliceReads ++ [read] } :=
      ⟨⟨second.building.laid, second.building.entry, second.building.entered,
        second.building.stated, second.building.acts⟩,
        ⟨(KernelBody.Grows.refl _).within (nil_subset _) (nil_subset _)
          (nil_subset _), rfl, rfl⟩, rfl⟩
    refine ⟨read, _, (bind_run ran).trans (bind_run pushed), (first.trans second).trans observed,
      .inr (.inr lists.1), ?_⟩
    intro bound settled knows
    rw [settled.answers read _ _ lists rfl Nat.one_ne_zero, map_cons, map_cons,
      map_singleton, knows place .int _ (constant.grows second.goes.grows)]
    rfl
  | address =>
    exact ⟨address, builder, rfl, .refl building, .inl rfl, fun bound _ _ => rfl⟩
  | function place function =>
    obtain ⟨position, read, middle, after, ran, pushed, emitted, lists, constant⟩ := fetch place rfl
    obtain ⟨replayed, final, rest, later, listed, length, same⟩ :=
      replay_spec buffers slices datum [] emitted.building
        (Nat.lt_of_lt_of_eq inside emitted.blocks.symm) (.inr lists.1)
        (fun value member => absurd member not_mem_nil) fits.1
    have some : replayed ≠ [] := by
      intro empty
      rw [empty, length_nil, Nat.zero_add] at length
      exact fits.2 (length_eq_zero_iff.1 length.symm)
    have last : replayed.getLast?.getD 0 = replayed.getLast some := by
      rw [List.getLast?_eq_some_getLast some]
      rfl
    refine ⟨replayed.getLast some, final, ?_, emitted.trans later,
      .inr (listed _ (getLast_mem some)), ?_⟩
    · rw [← last]
      exact (bind_run ran).trans ((bind_run pushed).trans (bind_run rest))
    · intro bound settled knows
      have means := same bound settled knows
      rw [fetched_of buffers slices constant lists (settled.before later.goes.grows)
        (knows.before later.goes.grows)] at means
      show _ = (List.getLast? (evaluate stated _ datum (List.map bound []))).getD default
      rw [← means, List.getLast?_map, List.getLast?_eq_some_getLast some]
      rfl

end Elements

end LichenVm.FusionBridge
