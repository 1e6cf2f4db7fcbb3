import LichenVm.ComposeFanOut

open List Option Function

namespace LichenVm.KernelIr

open KernelBody

/-- A value is an access by `op` whose first operand is the integer constant `ordinal`. -/
def Names (values : List ValueDef) (value : ValueId) (op : KernelInstr) (ordinal : Nat) : Prop :=
  ∃ args classes position bits constArgs constClasses,
    values[value]? = some (.instr op args classes) ∧ args.head? = some position ∧
    values[position]? = some (.instr (.const .int bits) constArgs constClasses) ∧
    bits.toNat = ordinal

theorem constant_eq_some_iff (body : KernelBody) (value : Option ValueId) (ordinal : Nat) :
    body.constant value = some ordinal ↔ ∃ id bits args classes, value = some id ∧
      body.values[id]? = some (.instr (.const .int bits) args classes) ∧
      bits.toNat = ordinal := by
  unfold constant
  split
  · rename_i bits args classes bound
    obtain ⟨id, rfl, found⟩ := bind_eq_some_iff.1 bound
    constructor
    · intro same
      exact ⟨id, bits, args, classes, rfl, found, some.inj same⟩
    · rintro ⟨other, bits', args', classes', same, found', same'⟩
      cases same
      rw [found] at found'
      cases found'
      rw [same']
  · rename_i other
    constructor
    · intro same
      cases same
    · rintro ⟨id, bits, args, classes, rfl, found, _⟩
      exact absurd found (other bits args classes)

theorem ordinal_eq_some_iff (body : KernelBody) (value : ValueId) (ordinal : Nat) :
    body.ordinal value = some ordinal ↔ ∃ op, Names body.values value op ordinal := by
  unfold KernelBody.ordinal
  split
  · rename_i op args classes found
    rw [constant_eq_some_iff]
    constructor
    · rintro ⟨id, bits, constArgs, constClasses, first, held, same⟩
      exact ⟨op, args, classes, id, bits, constArgs, constClasses, found, first, held, same⟩
    · rintro ⟨op', args', classes', id, bits, constArgs, constClasses, found', first, held, same⟩
      rw [found] at found'
      cases found'
      exact ⟨id, bits, constArgs, constClasses, first, held, same⟩
  · rename_i other
    constructor
    · intro same
      cases same
    · rintro ⟨op, args, classes, _, _, _, _, found, _⟩
      exact absurd found (other op args classes)

theorem getElem?_of_grows {α : Type} {before after : List α} (grows : before <+: after)
    {index : Nat} {item : α} (found : before[index]? = some item) :
    after[index]? = some item := by
  obtain ⟨rest, rfl⟩ := grows
  rw [getElem?_append_left (List.getElem?_eq_some_iff.1 found).1, found]

variable {value : ValueId}

theorem Names.mono {before after : List ValueDef} (grows : before <+: after)
    {op : KernelInstr} {ordinal : Nat} (names : Names before value op ordinal) :
    Names after value op ordinal := by
  obtain ⟨args, classes, position, bits, constArgs, constClasses, found, first, held, same⟩ := names
  exact ⟨args, classes, position, bits, constArgs, constClasses, getElem?_of_grows grows found,
    first, getElem?_of_grows grows held, same⟩

namespace Allocation

variable (values : List ValueDef) (items : List (ValueId × ValueDef))

theorem addAll_concat (item : ValueId × ValueDef) :
    addAll values (items ++ [item]) = (addAll values items).add item.1 item.2 := by
  simp [addAll]

theorem addAll_values : (addAll values items).values = values ++ items.map Prod.snd := by
  induction items using List.reverseRecOn with
  | nil => simp [addAll]
  | append_singleton items item ih => rw [addAll_concat]; simp [add, ih]

variable {target : ValueId} {value : ValueId}

theorem item_of_addAll (given : (addAll values items).ids value = some target) :
    ∃ index definition, target = values.length + index ∧
      items[index]? = some (value, definition) := by
  induction items using List.reverseRecOn with
  | nil => cases given
  | append_singleton items item ih =>
    rw [addAll_concat] at given
    simp only [add] at given
    by_cases same : value = item.1
    · subst same
      rw [update_self] at given
      refine ⟨items.length, item.2, ?_, by simp⟩
      rw [← some.inj given, addAll_values]
      simp
    · rw [update_of_ne same] at given
      obtain ⟨index, definition, rfl, found⟩ := ih given
      exact ⟨index, definition, rfl, getElem?_of_grows (prefix_append items [item]) found⟩

theorem addAll_isSome {definition : ValueDef} (member : (value, definition) ∈ items) :
    ((addAll values items).ids value).isSome := by
  induction items using List.reverseRecOn with
  | nil => cases member
  | append_singleton items item ih =>
    rw [addAll_concat]
    simp only [add]
    by_cases same : value = item.1
    · rw [same, update_self]; rfl
    · rw [update_of_ne same]
      rcases mem_append.1 member with member | member
      · exact ih member
      · rw [mem_singleton] at member
        exact absurd (congrArg Prod.fst member) same

theorem addAll_grows : values <+: (addAll values items).values := by
  rw [addAll_values]
  exact prefix_append _ _

theorem addAll_range (given : (addAll values items).ids value = some target) :
    values.length ≤ target ∧ target < (addAll values items).values.length := by
  obtain ⟨index, definition, rfl, found⟩ := item_of_addAll values items given
  have within := (List.getElem?_eq_some_iff.1 found).1
  rw [addAll_values, length_append, length_map]
  exact ⟨Nat.le_add_right _ _, Nat.add_lt_add_left within _⟩

theorem addAll_injective {value other : ValueId}
    (given : (addAll values items).ids value = some target)
    (given' : (addAll values items).ids other = some target) : value = other := by
  obtain ⟨index, definition, rfl, found⟩ := item_of_addAll values items given
  obtain ⟨index', definition', same, found'⟩ := item_of_addAll values items given'
  obtain rfl : index = index' := Nat.add_left_cancel same
  rw [found] at found'
  exact congrArg Prod.fst (some.inj found')

variable {positions : List (ValueId × Nat)}

theorem constant_of_constants (given : (constants values positions).ids value = some target) :
    ∃ position, (value, position) ∈ positions ∧ (constants values positions).values[target]? =
        some (.instr (.const .int (BitVec.ofNat 64 position)) [] [.int]) := by
  obtain ⟨index, definition, rfl, found⟩ := item_of_addAll _ _ given
  rw [getElem?_map, map_eq_some_iff] at found
  obtain ⟨⟨value', position⟩, found, same⟩ := found
  cases same
  refine ⟨position, mem_of_getElem? found, ?_⟩
  rw [constants, addAll_values, getElem?_append_right (by omega)]
  simp [found]

theorem constants_isSome {position : Nat} (member : (value, position) ∈ positions) :
    ((constants values positions).ids value).isSome :=
  addAll_isSome _ _ (mem_map.2 ⟨_, member, rfl⟩)

theorem constants_grows (positions : List (ValueId × Nat)) :
    values <+: (constants values positions).values :=
  addAll_grows _ _

end Allocation

/-- What every planned cone keeps: a live value is its own, and the address leaf is a
parameter. -/
structure Cone.Faithful (cone : Cone) (body : KernelBody) : Prop where
  live : ∀ value held, cone.origin value = .live held → held = value
  address : ∀ value, cone.origin value = .address →
    ∃ block index, body.values[value]? = some (.blockParam block index)

variable {body : KernelBody} {written : ValueId}

theorem coneOrigin_cases {origins : ValueId → Option ConeOrigin} {origin : ConeOrigin}
    (resolved : body.coneOrigin value written origins = .ok origin) :
    origin = .live value ∨
      (origin = .address ∧ ∃ block index, body.values[value]? = some (.blockParam block index)) ∨
      origin = .rebuilt := by
  unfold coneOrigin at resolved
  split at resolved
  · rename_i block index found
    split at resolved
    · exact .inr (.inl ⟨(Except.ok.inj resolved).symm, block, index, found⟩)
    · split at resolved
      · exact .inl (Except.ok.inj resolved).symm
      · cases resolved
  · split at resolved
    · cases resolved
    · cases resolved
    · split at resolved
      · exact .inr (.inr (Except.ok.inj resolved).symm)
      · exact .inl (Except.ok.inj resolved).symm
  · exact .inl (Except.ok.inj resolved).symm

theorem Cone.reused_faithful (value : ValueId) (body : KernelBody) :
    (Cone.reused value).Faithful body := by
  have origin : ∀ other, (Cone.reused value).origin other = .live other := by
    intro other
    unfold Cone.origin Cone.reused
    by_cases same : other = value
    · subst same
      simp
    · simp [update_of_ne same]
  constructor
  · intro other held same
    rw [origin other] at same
    exact (ConeOrigin.live.inj same).symm
  · intro other same
    rw [origin other] at same
    cases same

theorem planValue_faithful {order : List ValueId}
    {origins planned : ValueId → Option ConeOrigin} (faithful : Cone.Faithful ⟨order, origins⟩ body)
    (ran : body.planValue written origins value = .ok planned) :
    Cone.Faithful ⟨order, planned⟩ body := by
  cases resolved : body.coneOrigin value written origins with
  | error blocker =>
    rw [planValue, resolved] at ran
    cases ran
  | ok origin =>
    rw [planValue, resolved] at ran
    have same : update origins value (some origin) = planned := Except.ok.inj ran
    subst same
    have answer : ∀ other, Cone.origin ⟨order, update origins value (some origin)⟩ other =
        if other = value then origin else Cone.origin ⟨order, origins⟩ other := by
      intro other
      by_cases here : other = value
      · simp [Cone.origin, here]
      · simp [Cone.origin, here]
    constructor
    · intro other held
      rw [answer other]
      split
      · rename_i here
        rintro rfl
        rcases coneOrigin_cases resolved with same | ⟨same, -⟩ | same
        · rw [ConeOrigin.live.inj same, here]
        · cases same
        · cases same
      · exact faithful.live other held
    · intro other
      rw [answer other]
      split
      · rename_i here
        rintro rfl
        rcases coneOrigin_cases resolved with same | ⟨-, found⟩ | same
        · cases same
        · rw [here]; exact found
        · cases same
      · exact faithful.address other

theorem indexLocalCone_faithful {root : ValueId} {lane : Option ValueId} {cone : Cone}
    (planned : body.indexLocalCone root written lane = .ok cone) : cone.Faithful body := by
  have pass : ∀ (order whole : List ValueId) (origins final : ValueId → Option ConeOrigin),
      Cone.Faithful ⟨whole, origins⟩ body →
      order.foldlM (body.planValue written) origins = .ok final →
      Cone.Faithful ⟨whole, final⟩ body := by
    intro order whole
    induction order with
    | nil =>
      intro origins final faithful ran
      rw [← Except.ok.inj ran]
      exact faithful
    | cons value order ih =>
      intro origins final faithful ran
      rw [foldlM_cons] at ran
      cases step : body.planValue written origins value with
      | error blocker =>
        rw [step] at ran
        cases ran
      | ok next =>
        rw [step] at ran
        exact ih next final (planValue_faithful faithful step) ran
  unfold indexLocalCone at planned
  split at planned
  · cases ran : (body.coneOrder root).foldlM (body.planValue written) fun _ => none with
    | error blocker =>
      simp only [ran] at planned
      cases planned
    | ok origins =>
      simp only [ran] at planned
      have same := Except.ok.inj planned
      subst same
      refine pass _ _ _ _ ?_ ran
      constructor
      · intro value held same
        exact (ConeOrigin.live.inj same).symm
      · intro value same
        cases same
  · cases planned

/-- The table holds every instruction of a body at its own id. -/
def Holds (values : List ValueDef) (body : KernelBody) : Prop :=
  ∀ (value : ValueId) (op : KernelInstr) (args : List ValueId) (classes : List ScalarClass),
    body.values[value]? = some (ValueDef.instr op args classes) →
    values[value]? = some (ValueDef.instr op args classes)

theorem Holds.mono {before after : List ValueDef} (grows : before <+: after)
    (holds : Holds before body) : Holds after body :=
  fun value op args classes found => getElem?_of_grows grows (holds value op args classes found)

theorem Holds.names {values : List ValueDef} (holds : Holds values body) {op : KernelInstr}
    {ordinal : Nat} (names : Names body.values value op ordinal) :
    Names values value op ordinal := by
  obtain ⟨args, classes, position, bits, constArgs, constClasses, found, first, held, same⟩ := names
  exact ⟨args, classes, position, bits, constArgs, constClasses, holds _ _ _ _ found, first,
    holds _ _ _ _ held, same⟩

/-- `copy` is what `value` became: an access by the same operator under the same ordinal. -/
def CopyOf (producer : KernelBody) (values : List ValueDef) (value copy : ValueId) : Prop :=
  ∀ op ordinal, Names producer.values value op ordinal → Names values copy op ordinal

namespace Copying

/-- What copying a cone keeps: the table grows, each fresh value computes by the operator of the
one it copies, each copy names what it named. -/
structure Kept (producer : KernelBody) (before : List ValueDef) (state : Copying) : Prop where
  grows : before <+: state.values
  fresh : ∀ value copy, state.fresh value = some copy → ∃ op args named classes,
    producer.values[value]? = some (.instr op args classes) ∧
    state.values[copy]? = some (.instr op named classes)
  copies : ∀ value copy, (value, copy) ∈ state.copies → before.length ≤ copy ∧
    copy < state.values.length ∧ CopyOf producer state.values value copy

variable {cone : Cone} {producer : KernelBody} {before : List ValueDef}

section

variable {state : Copying} (faithful : cone.Faithful producer) (holds : Holds before producer)

include faithful holds

theorem operand_const (kept : Kept producer before state) (address position : ValueId)
    {bits : BitVec 64} {args : List ValueId} {classes : List ScalarClass}
    (found : producer.values[position]? = some (.instr (.const .int bits) args classes)) :
    ∃ args, state.values[state.operand cone address position]? =
      some (.instr (.const .int bits) args classes) := by
  have own : state.values[position]? = some (.instr (.const .int bits) args classes) :=
    holds.mono kept.grows _ _ _ _ found
  cases origin : cone.origin position with
  | address =>
    obtain ⟨block, index, param⟩ := faithful.address position origin
    rw [found] at param
    cases param
  | live value =>
    have same := faithful.live position value origin
    simp only [operand, origin, same]
    exact ⟨args, own⟩
  | rebuilt =>
    simp only [operand, origin]
    cases copied : state.fresh position with
    | none => exact ⟨args, own⟩
    | some copy =>
      obtain ⟨op, args', named, classes', original, image⟩ := kept.fresh position copy copied
      rw [found] at original
      cases original
      exact ⟨named, image⟩

theorem step_kept (address value : ValueId) (kept : Kept producer before state) :
    Kept producer before (step cone producer address state value) := by
  unfold step
  split
  · rename_i op args classes origin found
    have longer : state.values <+:
        state.values ++ [.instr op (args.map (state.operand cone address)) classes] :=
      prefix_append _ _
    have last : (state.values ++
        [ValueDef.instr op (args.map (state.operand cone address)) classes])[state.values.length]? =
        some (.instr op (args.map (state.operand cone address)) classes) := by simp
    constructor
    · exact kept.grows.trans longer
    · intro other copy copied
      by_cases same : other = value
      · subst same
        simp only [update_self, some.injEq] at copied
        subst copied
        exact ⟨op, args, _, classes, found, last⟩
      · simp only [update_of_ne same] at copied
        obtain ⟨op', args', named, classes', original, image⟩ := kept.fresh other copy copied
        exact ⟨op', args', named, classes', original, getElem?_of_grows longer image⟩
    · intro other copy member
      rcases mem_append.1 member with member | member
      · obtain ⟨lower, upper, copyOf⟩ := kept.copies other copy member
        exact ⟨lower, lt_of_lt_of_le upper longer.length_le,
          fun op' ordinal names => (copyOf op' ordinal names).mono longer⟩
      · rw [mem_singleton] at member
        cases member
        refine ⟨kept.grows.length_le, by simp, ?_⟩
        rintro op' ordinal ⟨args', classes', position, bits, constArgs, constClasses, found', first,
          const, same⟩
        rw [found] at found'
        cases found'
        obtain ⟨constArgs', image⟩ := operand_const faithful holds kept address position const
        refine ⟨_, _, state.operand cone address position, bits, constArgs', constClasses, last, ?_,
          getElem?_of_grows longer image, same⟩
        rw [List.head?_map, first]
        rfl
  · exact kept

end

theorem foldl_step_kept
    (faithful : cone.Faithful producer) (holds : Holds before producer) (address : ValueId)
    (order : List ValueId) (state : Copying) (kept : Kept producer before state) :
    Kept producer before (order.foldl (step cone producer address) state) := by
  induction order generalizing state with
  | nil => exact kept
  | cons value order ih => exact ih _ (step_kept faithful holds address value kept)

theorem foldl_step_sequence (cone : Cone) (producer : KernelBody) (address : ValueId)
    (order : List ValueId) (state : Copying) :
    state.sequence <+: (order.foldl (step cone producer address) state).sequence := by
  induction order generalizing state with
  | nil => exact prefix_rfl
  | cons value order ih =>
    refine List.IsPrefix.trans ?_ (ih _)
    unfold step
    split
    · exact prefix_append _ _
    · exact prefix_rfl

end Copying

theorem copyCone_kept {cone : Cone} {producer : KernelBody} {before : List ValueDef}
    (faithful : cone.Faithful producer) (holds : Holds before producer)
    (root address : ValueId) (sequence : List ValueId) :
    Copying.Kept producer before (copyCone cone root producer address before sequence).1 := by
  apply Copying.foldl_step_kept faithful holds
  constructor
  · exact prefix_rfl
  · intro value copy copied
    cases copied
  · intro value copy member
    cases member

theorem copyCone_sequence (cone : Cone) (root : ValueId) (producer : KernelBody)
    (address : ValueId) (values : List ValueDef) (sequence : List ValueId) :
    sequence <+: (copyCone cone root producer address values sequence).1.sequence :=
  Copying.foldl_step_sequence cone producer address cone.order { values, sequence }

namespace SpliceContext

/-- What splicing a consumer's blocks keeps: the table grows, only the reads a copy answers are
bound again, each copy names what it named. -/
structure Kept (context : SpliceContext) (before : List ValueDef) (renumber : Renumber)
    (state : Splicing) : Prop where
  grows : before <+: state.values
  landed : state.renumber.landed = renumber.landed
  bound : ∀ value, context.addresses value = none →
    state.renumber.bound value = renumber.bound value
  copies : ∀ value copy, (value, copy) ∈ state.copies → before.length ≤ copy ∧
    copy < state.values.length ∧ CopyOf context.producer state.values value copy

variable {context : SpliceContext} {before : List ValueDef} {renumber : Renumber}
  {state : Splicing}

theorem Kept.resolve (kept : Kept context before renumber state) {value : ValueId}
    (stays : context.addresses value = none) :
    state.renumber.resolve value = renumber.resolve value := by
  simp only [Renumber.resolve, kept.bound value stays, kept.landed]

theorem bind_bound (context : SpliceContext) (renumber : Renumber) {value target : ValueId}
    {address : ValueId} (answered : context.addresses value = some address) (other : ValueId)
    (stays : context.addresses other = none) :
    (renumber.bind value target).bound other = renumber.bound other := by
  have apart : other ≠ value := by
    rintro rfl
    rw [answered] at stays
    cases stays
  simp only [Renumber.bind, update_of_ne apart]

theorem instr_kept (faithful : context.cone.Faithful context.producer)
    (holds : Holds before context.producer) (block : Nat) (value : ValueId)
    (kept : Kept context before renumber state) :
    Kept context before renumber (context.instr block state value) := by
  unfold instr
  split
  · exact ⟨kept.grows, kept.landed, kept.bound, kept.copies⟩
  · rename_i address answered
    dsimp only
    split
    · refine ⟨kept.grows, kept.landed, fun other stays => ?_, kept.copies⟩
      rw [bind_bound context _ answered other stays, kept.bound other stays]
    · have copied := copyCone_kept faithful (holds.mono kept.grows) context.forwarded
        (state.renumber.resolve address) state.sequence
      refine ⟨kept.grows.trans copied.grows, kept.landed, fun other stays => ?_, ?_⟩
      · rw [bind_bound context _ answered other stays, kept.bound other stays]
      · intro source copy member
        rcases mem_append.1 member with member | member
        · obtain ⟨lower, upper, copyOf⟩ := kept.copies source copy member
          exact ⟨lower, lt_of_lt_of_le upper copied.grows.length_le,
            fun op ordinal names => (copyOf op ordinal names).mono copied.grows⟩
        · obtain ⟨lower, upper, copyOf⟩ := copied.copies source copy member
          exact ⟨le_trans kept.grows.length_le lower, upper, copyOf⟩

theorem instr_sequence (block : Nat) (value : ValueId) :
    state.sequence <+: (context.instr block state value).sequence := by
  unfold instr
  split
  · simp only [append_assoc]
    exact prefix_append _ _
  · dsimp only
    split
    · exact prefix_rfl
    · exact copyCone_sequence _ _ _ _ _ _

section

variable (faithful : context.cone.Faithful context.producer) (holds : Holds before context.producer)

include faithful holds

theorem foldl_instr_kept (block : Nat) (instrs : List ValueId)
    (kept : Kept context before renumber state) :
    Kept context before renumber (instrs.foldl (context.instr block) state) ∧
    state.sequence <+: (instrs.foldl (context.instr block) state).sequence ∧
    ∀ value ∈ instrs, context.addresses value = none →
      renumber.resolve value ∈ (instrs.foldl (context.instr block) state).sequence := by
  induction instrs generalizing state with
  | nil => exact ⟨kept, prefix_rfl, fun _ member => absurd member (by simp)⟩
  | cons first instrs ih =>
    obtain ⟨final, longer, lists⟩ := ih (instr_kept faithful holds block first kept)
    refine ⟨final, (instr_sequence block first).trans longer, ?_⟩
    intro value member stays
    rcases mem_cons.1 member with rfl | member
    · apply longer.subset
      simp only [instr, stays, kept.resolve stays]
      simp
    · exact lists value member stays

/-- Splicing every block keeps what splicing one does, and lists each instruction no copy answers
in the sequence of its block. -/
theorem foldl_block_kept (mapped : Nat → Nat) (blocks : List (BasicBlock × Nat))
    (sequences : List (List ValueId)) (kept : Kept context before renumber state) :
    Kept context before renumber (blocks.foldl (context.block mapped) (state, sequences)).1 ∧
    ∃ rest, (blocks.foldl (context.block mapped) (state, sequences)).2 = sequences ++ rest ∧
      rest.length = blocks.length ∧
      ∀ (index : Nat) (block : BasicBlock × Nat) (sequence : List ValueId),
        blocks[index]? = some block → rest[index]? = some sequence →
        ∀ value ∈ block.1.instrs, context.addresses value = none →
          renumber.resolve value ∈ sequence := by
  induction blocks generalizing state sequences with
  | nil => exact ⟨kept, [], by simp⟩
  | cons first blocks ih =>
    have emptied : Kept context before renumber { state with sequence := [] } :=
      ⟨kept.grows, kept.landed, kept.bound, kept.copies⟩
    obtain ⟨one, -, lists⟩ := foldl_instr_kept faithful holds (mapped first.2)
      first.1.instrs emptied
    obtain ⟨all, rest, same, count, each⟩ := ih (sequences ++
      [(first.1.instrs.foldl (context.instr (mapped first.2))
        { state with sequence := [] }).sequence]) one
    refine ⟨all, (first.1.instrs.foldl (context.instr (mapped first.2))
        { state with sequence := [] }).sequence :: rest, ?_, ?_, ?_⟩
    · rw [foldl_cons]
      exact same.trans (by simp)
    · simp [count]
    · intro index block sequence found found'
      cases index with
      | zero =>
        cases found
        cases found'
        exact lists
      | succ index => exact each index block sequence found found'

end

end SpliceContext

/-- Each listed definition goes to the id of its value. -/
theorem foldl_set_spec (ids : Nat → Option Nat) (image : ValueDef → Nat → ValueDef)
    (injective : ∀ value other target, ids value = some target → ids other = some target →
      value = other) (definitions : List ValueDef) (values : List ValueDef) :
    let result := definitions.zipIdx.foldl (fun values (definition, value) =>
      match ids value with
      | none => values
      | some target => values.set target (image definition value)) values
    result.length = values.length ∧
    (∀ index, (∀ value < definitions.length, ids value ≠ some index) →
      result[index]? = values[index]?) ∧
    ∀ value definition target, definitions[value]? = some definition → ids value = some target →
      target < values.length → result[target]? = some (image definition value) := by
  induction definitions using List.reverseRecOn with
  | nil => simp
  | append_singleton definitions last ih =>
    obtain ⟨size, others, each⟩ := ih
    simp only [zipIdx_append, foldl_append, zipIdx_singleton, foldl_cons, foldl_nil, zero_add]
    cases given : ids definitions.length with
    | none =>
      refine ⟨size, fun index apart => others index fun value within => apart value ?_, ?_⟩
      · simp only [length_append, length_singleton]
        omega
      · intro value definition target found given' within
        rcases lt_or_ge value definitions.length with old | new
        · rw [getElem?_append_left old] at found
          exact each value definition target found given' within
        · have bound := (List.getElem?_eq_some_iff.1 found).1
          simp only [length_append, length_singleton] at bound
          obtain rfl : value = definitions.length := by omega
          rw [given] at given'
          cases given'
    | some here =>
      refine ⟨by rw [length_set, size], fun index apart => ?_, ?_⟩
      · rw [getElem?_set_ne, others index fun value within => apart value (by
          simp only [length_append, length_singleton]; omega)]
        rintro rfl
        exact apart definitions.length (by simp) given
      · intro value definition target found given' within
        rcases lt_or_ge value definitions.length with old | new
        · rw [getElem?_append_left old] at found
          rw [getElem?_set_ne, each value definition target found given' within]
          rintro rfl
          exact absurd (injective _ _ _ given given') (by omega)
        · have bound := (List.getElem?_eq_some_iff.1 found).1
          simp only [length_append, length_singleton] at bound
          obtain rfl : value = definitions.length := by omega
          rw [given] at given'
          cases given'
          rw [getElem?_set_self (by rw [size]; exact within)]
          simp only [getElem?_concat_length, some.injEq] at found
          rw [found]

end LichenVm.KernelIr
