import LichenVm.WasmBinding

open List Option Function

namespace LichenVm.Wasm

open KernelIr Traverse KernelBody

/-- A value is another one reclassified, however many times. -/
inductive Stems (body : KernelBody) : ValueId → ValueId → Prop
  | refl (value : ValueId) : Stems body value value
  | step {value arg root : ValueId} {source target : ScalarClass} {classes : List ScalarClass}
      (listed : value ∈ body.listed)
      (found : body.values[value]? = some (.instr (.conv source target) [arg] classes))
      (rest : Stems body arg root) : Stems body value root

/-- What a listed value became, over what its operands are known by. -/
inductive Chunk (ctx : ModuleCtx) (body : KernelBody) (values : ValueId → Option Slot)
    (instr : ValueId) : List Operation → Prop
  | emitted {op : KernelInstr} {args : List ValueId} {classes : List ScalarClass}
      {operands : List Slot} {fresh : Nat} {emission : Emission}
      (found : body.values[instr]? = some (.instr op args classes))
      (read : args.mapM values = some operands) (below : ∀ slot ∈ operands, slot.1 < fresh)
      (emitted : Emitted ctx fresh op operands emission)
      (known : ∀ slot, emission.slot = some slot → values instr = some slot) :
      Chunk ctx body values instr emission.operations

variable {values : ValueId → Option Slot} {args : List ValueId} {operands : List Slot}

theorem Chunk.mono {ctx : ModuleCtx} {body : KernelBody} {more : ValueId → Option Slot}
    {instr : ValueId} {operations : List Operation} (chunk : Chunk ctx body values instr operations)
    (kept : ∀ value slot, values value = some slot → more value = some slot) :
    Chunk ctx body more instr operations := by
  cases chunk with
  | emitted found read below emitted known =>
    exact .emitted found (Traverse.mapM_mono kept read) below emitted
      fun slot left => kept instr slot (known slot left)

theorem Chunk.inv {ctx : ModuleCtx} {body : KernelBody}
    {instr : ValueId} {operations : List Operation}
    (chunk : Chunk ctx body values instr operations) :
    ∃ op args classes operands fresh emission,
      body.values[instr]? = some (.instr op args classes) ∧ args.mapM values = some operands ∧
      (∀ slot ∈ operands, slot.1 < fresh) ∧ Emitted ctx fresh op operands emission ∧
      (∀ slot, emission.slot = some slot → values instr = some slot) ∧
      operations = emission.operations := by
  cases chunk with
  | emitted found read below emitted known =>
    exact ⟨_, _, _, _, _, _, found, read, below, emitted, known, rfl⟩

variable {walk : Walk}

theorem mapM_operand
    (read : args.mapM walk.operand = .ok operands) : args.mapM walk.values = some operands := by
  induction args generalizing operands with
  | nil =>
    cases read
    rfl
  | cons arg args ih =>
    rw [mapM_cons] at read
    obtain ⟨slot, found, read⟩ := bind_ok.1 read
    obtain ⟨rest, others, same⟩ := bind_ok.1 read
    cases same
    have known : walk.values arg = some slot := by
      unfold Walk.operand at found
      split at found
      · rename_i known
        cases found
        exact known
      · cases found
    rw [mapM_cons, known, ih others]
    rfl

/-- The instructions lowered so far: each block holds what its listed values became, in order, and
a value made for one of them stands for nothing but it and its reclassifications. -/
structure Lowering (ctx : ModuleCtx) (body : KernelBody) (types : List (Option Ty)) (first : Walk)
    (done : List (Nat × ValueId)) (chunk : ValueId → List Operation) (walk : Walk) : Prop where
  length : walk.builder.blocks.length = body.blocks.length
  params : ∀ block, (walk.builder.block block).params = (first.builder.block block).params
  operations : ∀ block, (walk.builder.block block).operations =
    (done.filter fun place => place.1 == block).flatMap fun place => chunk place.2
  kept : ∀ value slot, first.values value = some slot → walk.values value = some slot
  known : ∀ value slot, walk.values value = some slot →
    first.values value = some slot ∨ value ∈ done.map Prod.snd
  typed : ∀ value slot, walk.values value = some slot → types.getD value none = some slot.2
  fresh : ∀ value slot, walk.values value = some slot → slot.1 < walk.builder.nextValue
  later : first.builder.nextValue ≤ walk.builder.nextValue
  chunks : ∀ place ∈ done, Chunk ctx body walk.values place.2 (chunk place.2)
  made : ∀ place ∈ done, ∀ operation ∈ chunk place.2,
    first.builder.nextValue ≤ operation.value ∧ operation.value < walk.builder.nextValue
  origin : ∀ place ∈ done, ∀ operation ∈ chunk place.2, ∀ value slot,
    walk.values value = some slot → slot.1 = operation.value → Stems body value place.2
  root : ∀ block, ∀ param ∈ (first.builder.block block).params, ∀ value slot,
    walk.values value = some slot → slot.1 = param.1 →
      ∃ received ∈ (body.block block).params, Stems body value received

variable {ctx : ModuleCtx} {body : KernelBody} {types : List (Option Ty)} {first : Walk}

theorem lowering_nil {blocks : List Nat} (bound : Binding ctx body types blocks first) :
    Lowering ctx body types first [] (fun _ => []) first := by
  refine ⟨bound.length, fun _ => rfl, bound.empty, fun _ _ found => found,
    fun _ _ found => Or.inl found, bound.typed, ?_, le_refl _,
    fun _ member => absurd member not_mem_nil, fun _ member => absurd member not_mem_nil,
    fun _ member => absurd member not_mem_nil, ?_⟩
  · intro value slot found
    obtain ⟨block, -, position, -, inside⟩ := bound.known value slot found
    exact bound.fresh block slot (mem_of_getElem? inside)
  · intro block param member value slot found same
    obtain ⟨other, -, position, place, inside⟩ := bound.known value slot found
    have home : other = block := by
      by_contra differ
      exact bound.apart other block differ slot (mem_of_getElem? inside) param member same
    subst home
    exact ⟨value, mem_of_getElem? place, .refl value⟩

/-- What recording an emission does to what is known: nothing but its own value changes. -/
structure Records (instr : ValueId) (emission : Emission) (before after : ValueId → Option Slot) :
    Prop where
  kept : ∀ value slot, before value = some slot → after value = some slot
  known : ∀ value slot, after value = some slot →
    before value = some slot ∨ value = instr ∧ emission.slot = some slot
  left : ∀ slot, emission.slot = some slot → after instr = some slot

variable {after : Walk} {place : Nat × ValueId}

theorem lowerInstr_ok
    (unknown : walk.values place.2 = none) (lowered : ctx.lowerInstr body walk place = .ok after) :
    ∃ op args classes operands emission, body.values[place.2]? = some (.instr op args classes) ∧
      args.mapM walk.values = some operands ∧
      Emitted ctx walk.builder.nextValue op operands emission ∧
      after.builder = walk.builder.addOps place.1 emission.operations ∧
      Records place.2 emission walk.values after.values := by
  unfold ModuleCtx.lowerInstr at lowered
  split at lowered
  · rename_i op args classes found
    obtain ⟨operands, read, lowered⟩ := bind_ok.1 lowered
    obtain ⟨emission, emits, lowered⟩ := bind_ok.1 lowered
    refine ⟨op, args, classes, operands, emission, found, mapM_operand read,
      emitted_of_emission emits, ?_⟩
    cases left : emission.slot with
    | none =>
      simp only [left] at lowered
      cases lowered
      exact ⟨rfl, fun _ _ held => held, fun _ _ held => Or.inl held,
        fun slot made => by rw [left] at made; cases made⟩
    | some slot =>
      simp only [left] at lowered
      cases lowered
      refine ⟨rfl, ?_, ?_, ?_⟩
      · intro value slot' held
        have differ : value ≠ place.2 := by
          rintro rfl
          rw [unknown] at held
          cases held
        exact (update_of_ne differ _ _).trans held
      · intro value slot' held
        by_cases same : value = place.2
        · subst same
          refine Or.inr ⟨rfl, ?_⟩
          exact left.trans ((update_self place.2 (some slot) walk.values).symm.trans held)
        · exact Or.inl ((update_of_ne same _ _).symm.trans held)
      · intro slot' same
        rw [left] at same
        rw [← same]
        exact update_self ..
  · cases lowered

theorem mapM_typed (typed : ∀ value slot,
    values value = some slot → types.getD value none = some slot.2) (read :
    args.mapM values = some operands) :
    (args.mapM fun arg => types.getD arg none) = some (operands.map Prod.snd) := by
  induction args generalizing operands with
  | nil =>
    cases read
    rfl
  | cons arg args ih =>
    rw [mapM_cons] at read ⊢
    obtain ⟨slot, found, read⟩ := bind_eq_some_iff.1 read
    obtain ⟨rest, others, same⟩ := bind_eq_some_iff.1 read
    cases same
    rw [typed arg slot found, ih others]
    rfl

theorem Emitted.produces {fresh : Nat} {op : KernelInstr}
    {emission : Emission} (emitted : Emitted ctx fresh op operands emission) :
    emission.slot = none ↔ op.produces = 0 := by
  cases emitted with
  | write found | atomicAdd found => exact iff_of_true rfl rfl
  | _ => exact iff_of_false (fun same => by cases same) (fun same => by cases same)

/-- One more listed value is lowered. -/
theorem Lowering.instr (typing : Typing ctx body types)
    (checked : ∀ definition index, body.values[index]? = some definition →
      requireTyped types index definition = .ok ()) {done : List (Nat × ValueId)} {chunk :
    ValueId → List Operation} (held : Lowering ctx body types first done chunk walk)
    (below : ∀ block, ∀ param ∈ (first.builder.block block).params,
      param.1 < first.builder.nextValue)
    (within : place.1 < body.blocks.length) (listed : place.2 ∈ body.listed)
    (unbound : first.values place.2 = none) (once : place.2 ∉ done.map Prod.snd)
    (lowered : ctx.lowerInstr body walk place = .ok after) :
    ∃ chunk, Lowering ctx body types first (done ++ [place]) chunk after := by
  have unknown : walk.values place.2 = none := by
    cases known : walk.values place.2 with
    | none => rfl
    | some slot =>
      rcases held.known _ _ known with before | member
      · rw [unbound] at before
        cases before
      · exact absurd member once
  obtain ⟨op, args, classes, operands, emission, found, read, emitted, built, records⟩ :=
    lowerInstr_ok unknown lowered
  have bounded : ∀ slot ∈ operands, slot.1 < walk.builder.nextValue := by
    intro slot member
    obtain ⟨arg, -, known⟩ := exists_of_mem_mapM _ _ _ read slot member
    exact held.fresh arg slot known
  have next : after.builder.nextValue =
      walk.builder.nextValue + emission.operations.length := by
    rw [built]
    rfl
  have same : ∀ other ∈ done, update chunk place.2 emission.operations other.2 =
      chunk other.2 := by
    intro other member
    apply update_of_ne
    rintro same
    exact once (same ▸ mem_map_of_mem member)
  have own := update_self place.2 emission.operations chunk
  have blocks := FunctionBody.block_addOps (held.length ▸ within) emission.operations
  have numbered := emitted.numbered
  -- What the new value is known by was made for it, or is what its operand is known by.
  have source : ∀ slot, emission.slot = some slot →
      (∃ operation ∈ emission.operations, operation.value = slot.1) ∨
      ∃ arg, walk.values arg = some slot ∧
        ∀ root, Stems body arg root → Stems body place.2 root := by
    intro slot left
    rcases emitted.slot_cases left with made | ⟨-, rfl, source, target, rfl⟩
    · exact Or.inl made
    · right
      have count := length_of_mapM _ _ _ read
      obtain ⟨arg, rfl⟩ := length_eq_one_iff.1 count.symm
      have here := getElem?_of_mapM _ _ _ read 0
      exact ⟨arg, here.symm, fun root rest => .step listed found rest⟩
  refine ⟨update chunk place.2 emission.operations, ?_⟩
  constructor
  · rw [built, ← held.length]
    exact length_modify ..
  · intro block
    rw [built, blocks, ← held.params block]
    split <;> rfl
  · intro block
    have earlier : ((done.filter fun place => place.1 == block).flatMap fun other =>
        update chunk place.2 emission.operations other.2) =
          (done.filter fun place => place.1 == block).flatMap fun other => chunk other.2 := by
      apply flatMap_congr
      intro other member
      exact same other (mem_filter.1 member).1
    rw [built, blocks, filter_append, flatMap_append, earlier, ← held.operations block]
    by_cases home : place.1 = block
    · have kept : ([place].filter fun other => other.1 == block) = [place] := by simp [home]
      rw [if_pos home, kept, flatMap_singleton, own]
    · have dropped : ([place].filter fun other => other.1 == block) = [] := by simp [home]
      rw [if_neg home, dropped, flatMap_nil, append_nil]
  · exact fun value slot known => records.kept value slot (held.kept value slot known)
  · intro value slot known
    rw [map_append, mem_append]
    rcases records.known value slot known with before | ⟨rfl, -⟩
    · rcases held.known value slot before with start | member
      · exact Or.inl start
      · exact Or.inr (Or.inl member)
    · exact Or.inr (Or.inr mem_cons_self)
  · intro value slot known
    rcases records.known value slot known with before | ⟨rfl, left⟩
    · exact held.typed value slot before
    · have passed := checked _ _ found
      cases known : types.getD place.2 none with
      | some ty =>
        have decided := typing.instr _ _ _ _ found ty known
        rw [mapM_typed held.typed read, bind_some, emitted.typed left] at decided
        exact decided.symm
      | none =>
        unfold requireTyped at passed
        rw [known] at passed
        dsimp only at passed
        split at passed
        · rename_i nothing
          rw [emitted.produces.2 nothing] at left
          cases left
        · cases passed
  · intro value slot known
    rw [next]
    rcases records.known value slot known with before | ⟨rfl, left⟩
    · exact lt_of_lt_of_le (held.fresh value slot before) (Nat.le_add_right _ _)
    · rcases source slot left with ⟨operation, member, same⟩ | ⟨arg, before, -⟩
      · rw [← same]
        exact (numbered operation member).2
      · exact lt_of_lt_of_le (held.fresh arg slot before) (Nat.le_add_right _ _)
  · rw [next]
    exact le_trans held.later (Nat.le_add_right _ _)
  · intro other member
    rcases mem_append.1 member with earlier | last
    · rw [same other earlier]
      exact (held.chunks other earlier).mono records.kept
    · rw [mem_singleton.1 last, own]
      exact .emitted found (Traverse.mapM_mono records.kept read) bounded emitted records.left
  · intro other member operation inside
    rw [next]
    rcases mem_append.1 member with earlier | last
    · rw [same other earlier] at inside
      obtain ⟨low, high⟩ := held.made other earlier operation inside
      exact ⟨low, lt_of_lt_of_le high (Nat.le_add_right _ _)⟩
    · rw [mem_singleton.1 last, own] at inside
      obtain ⟨low, high⟩ := numbered operation inside
      exact ⟨le_trans held.later low, high⟩
  · intro other member operation inside value slot known equal
    rcases mem_append.1 member with earlier | last
    · rw [same other earlier] at inside
      rcases records.known value slot known with before | ⟨rfl, left⟩
      · exact held.origin other earlier operation inside value slot before equal
      · rcases source slot left with ⟨new, made, same⟩ | ⟨arg, before, stems⟩
        · have low := (numbered new made).1
          have high := (held.made other earlier operation inside).2
          omega
        · exact stems _ (held.origin other earlier operation inside arg slot before equal)
    · rw [mem_singleton.1 last, own] at inside
      rw [mem_singleton.1 last]
      rcases records.known value slot known with before | ⟨rfl, -⟩
      · have low := (numbered operation inside).1
        have high := held.fresh value slot before
        omega
      · exact .refl _
  · intro block param member value slot known equal
    rcases records.known value slot known with before | ⟨rfl, left⟩
    · exact held.root block param member value slot before equal
    · rcases source slot left with ⟨new, made, same⟩ | ⟨arg, before, stems⟩
      · have low := (numbered new made).1
        have start := below block param member
        have later := held.later
        omega
      · obtain ⟨received, inside, rest⟩ := held.root block param member arg slot before equal
        exact ⟨received, inside, stems received rest⟩

theorem listing_snd (body : KernelBody) : (listing body).map Prod.snd = body.listed := by
  unfold listing listed
  rw [map_flatMap]
  have blocks : body.blocks.zipIdx.map Prod.fst = body.blocks := zipIdx_map_fst ..
  conv_rhs => rw [← blocks, flatMap_map]
  apply flatMap_congr
  rintro ⟨block, index⟩ -
  simp

theorem mem_listing (member : place ∈ listing body) :
    place.1 < body.blocks.length ∧ place.2 ∈ (body.block place.1).instrs := by
  obtain ⟨⟨block, index⟩, inside, member⟩ := mem_flatMap.1 member
  obtain ⟨instr, listed, rfl⟩ := mem_map.1 member
  have found := mem_zipIdx_iff_getElem?.1 inside
  have within := (List.getElem?_eq_some_iff.1 found).1
  refine ⟨within, ?_⟩
  rw [block_found within] at found
  rw [some.inj found]
  exact listed

theorem filter_places (blocks : List BasicBlock) (start index : Nat) :
    (((blocks.zipIdx start).flatMap fun (block, index) =>
      block.instrs.map fun instr => (index, instr)).filter fun place => place.1 == start + index) =
      (blocks.getD index ⟨[], [], .return []⟩).instrs.map fun instr => (start + index, instr) := by
  induction blocks generalizing start index with
  | nil => rfl
  | cons block blocks ih =>
    rw [zipIdx_cons, flatMap_cons, filter_append]
    cases index with
    | zero =>
      have rest : (((blocks.zipIdx (start + 1)).flatMap fun (block, index) =>
          block.instrs.map fun instr => (index, instr)).filter
            fun place => place.1 == start + 0) = [] := by
        apply filter_eq_nil_iff.2
        intro place member same
        obtain ⟨⟨block, index⟩, inside, member⟩ := mem_flatMap.1 member
        obtain ⟨instr, -, rfl⟩ := mem_map.1 member
        have after := le_snd_of_mem_zipIdx inside
        rw [beq_iff_eq] at same
        omega
      rw [rest, append_nil]
      apply filter_eq_self.2
      intro place member
      obtain ⟨instr, -, rfl⟩ := mem_map.1 member
      simp
    | succ index =>
      have first : ((block.instrs.map fun instr => (start, instr)).filter
          fun place => place.1 == start + (index + 1)) = [] := by
        apply filter_eq_nil_iff.2
        intro place member same
        obtain ⟨instr, -, rfl⟩ := mem_map.1 member
        rw [beq_iff_eq] at same
        omega
      have shift : start + (index + 1) = start + 1 + index := by omega
      rw [first, nil_append, shift, ih (start + 1) index]
      rfl

theorem listing_block (body : KernelBody) (index : Nat) :
    ((listing body).filter fun place => place.1 == index) =
      (body.block index).instrs.map fun instr => (index, instr) := by
  have places := filter_places body.blocks 0 index
  rw [zero_add] at places
  exact places

/-- Every listed value is lowered. -/
theorem lowering_of_foldlM (typing : Typing ctx body types) (single : body.SingleAssignment)
    (valid : body.validate = .ok ())
    (checked : ∀ definition index, body.values[index]? = some definition →
      requireTyped types index definition = .ok ())
    {blocks : List Nat} (bound : Binding ctx body types blocks first)
    (lowered : (listing body).foldlM (ctx.lowerInstr body) first = .ok walk) :
    ∃ chunk, Lowering ctx body types first (listing body) chunk walk := by
  refine foldlM_ok (fun done walk => ∃ chunk, Lowering ctx body types first done chunk walk)
    ⟨_, lowering_nil bound⟩ ?_ lowered
  rintro done place rest before after whole ⟨chunk, held⟩ stepped
  have member : place ∈ listing body := by
    rw [whole]
    exact mem_append_right _ mem_cons_self
  obtain ⟨within, inside⟩ := mem_listing member
  obtain ⟨position, listed⟩ := mem_iff_getElem?.1 inside
  obtain ⟨op, args, classes, found⟩ := instr_of_listed valid listed
  apply held.instr typing checked bound.fresh within (listed_of_instr listed) _ _ stepped
  · cases known : first.values place.2 with
    | none => rfl
    | some slot =>
      obtain ⟨block, -, position, received, -⟩ := bound.known _ _ known
      rw [single.received _ _ _ received] at found
      cases found
  · have distinct := single.once
    rw [← listing_snd, whole, map_append, map_cons] at distinct
    intro earlier
    exact (nodup_append.1 distinct).2.2 _ earlier _ mem_cons_self rfl

/-- A branch's target, over what its arguments are known by. -/
structure Targets (values : ValueId → Option Slot) (branch : Br) (target : BlockTarget) : Prop where
  block : target.block = branch.target
  args : ∃ slots, branch.args.mapM values = some slots ∧ target.args = slots.map Prod.fst

/-- How a block is closed: the operation that narrows its condition, when one does, and its
terminator. -/
inductive Closes (values : ValueId → Option Slot) (fresh : Nat) :
    KernelIr.Terminator → List Operation → Terminator → Prop
  | return {named : List ValueId} {held : List Slot} (read : named.mapM values = some held) :
      Closes values fresh (.return named) [] (.return (held.map Prod.fst))
  | br {branch : Br} {target : BlockTarget} (targets : Targets values branch target) :
      Closes values fresh (.br branch) [] (.br target)
  | narrow {cond : ValueId} {ifTrue ifFalse : Br} {slot : Slot} {yes no : BlockTarget}
      (read : values cond = some slot) (ty : slot.2 = .i32) (first : Targets values ifTrue yes)
      (second : Targets values ifFalse no) :
      Closes values fresh (.condBr cond ifTrue ifFalse) [] (.condBr slot.1 yes no)
  | wrap {cond : ValueId} {ifTrue ifFalse : Br} {slot : Slot} {yes no : BlockTarget}
      (read : values cond = some slot) (ty : slot.2 = .i64) (first : Targets values ifTrue yes)
      (second : Targets values ifFalse no) :
      Closes values fresh (.condBr cond ifTrue ifFalse)
        [⟨fresh, .i32WrapI64, [slot.1], [.i32]⟩] (.condBr fresh yes no)

theorem targets_of_blockTarget {branch : Br} {target : BlockTarget}
    (found : blockTarget body walk branch = .ok target) : Targets walk.values branch target := by
  unfold blockTarget at found
  split at found
  · obtain ⟨args, read, same⟩ := bind_ok.1 found
    cases same
    exact ⟨rfl, args, mapM_operand read, rfl⟩
  · cases found

/-- Lowering one terminator closes its block and no other. -/
theorem lowerTerminator_ok {index : Nat} (within : index < walk.builder.blocks.length)
    (lowered : lowerTerminator body walk index = .ok after) :
    ∃ tail terminator, Closes walk.values walk.builder.nextValue (body.block index).terminator tail
        terminator ∧ after.values = walk.values ∧
      after.builder.blocks.length = walk.builder.blocks.length ∧
      walk.builder.nextValue ≤ after.builder.nextValue ∧
      ∀ other, after.builder.block other = if index = other then
        { walk.builder.block other with
          operations := (walk.builder.block other).operations ++ tail
          terminator } else walk.builder.block other := by
  have closed : ∀ (builder : FunctionBody) (tail : List Operation) (terminator : Terminator),
      index < builder.blocks.length → (∀ other, builder.block other = if index = other then
        { walk.builder.block other with
          operations := (walk.builder.block other).operations ++ tail }
        else walk.builder.block other) →
      ∀ other, (builder.setTerminator index terminator).block other = if index = other then
        { walk.builder.block other with
          operations := (walk.builder.block other).operations ++ tail
          terminator } else walk.builder.block other := by
    intro builder tail terminator within blocks other
    rw [FunctionBody.block_setTerminator within, blocks other]
    by_cases same : index = other
    · rw [if_pos same, if_pos same, if_pos same]
    · rw [if_neg same, if_neg same, if_neg same]
  have untouched : ∀ other, walk.builder.block other = if index = other then
      { walk.builder.block other with
        operations := (walk.builder.block other).operations ++ [] }
      else walk.builder.block other := by
    intro other
    rw [append_nil]
    split <;> rfl
  have length : ∀ (builder : FunctionBody) terminator,
      (builder.setTerminator index terminator).blocks.length = builder.blocks.length :=
    fun builder terminator => length_modify ..
  unfold lowerTerminator at lowered
  split at lowered
  · rename_i values ended
    obtain ⟨held, read, same⟩ := bind_ok.1 lowered
    cases same
    rw [ended]
    exact ⟨[], _, .return (mapM_operand read), rfl, length _ _, le_refl _,
      closed _ _ _ within untouched⟩
  · rename_i branch ended
    obtain ⟨target, found, same⟩ := bind_ok.1 lowered
    cases same
    rw [ended]
    exact ⟨[], _, .br (targets_of_blockTarget found), rfl, length _ _, le_refl _,
      closed _ _ _ within untouched⟩
  · rename_i cond ifTrue ifFalse ended
    obtain ⟨slot, read, lowered⟩ := bind_ok.1 lowered
    obtain ⟨⟨condition, builder⟩, narrowed, lowered⟩ := bind_ok.1 lowered
    obtain ⟨yes, first, lowered⟩ := bind_ok.1 lowered
    obtain ⟨no, second, same⟩ := bind_ok.1 lowered
    cases same
    have known : walk.values cond = some slot := by
      unfold Walk.operand at read
      split at read
      · rename_i known
        cases read
        exact known
      · cases read
    have yes := targets_of_blockTarget first
    have no := targets_of_blockTarget second
    rw [ended]
    unfold lowerCondition at narrowed
    split at narrowed
    · rename_i ty
      cases narrowed
      exact ⟨[], _, .narrow known ty yes no, rfl, length _ _, le_refl _,
        closed _ _ _ within untouched⟩
    · rename_i ty
      cases narrowed
      refine ⟨_, _, .wrap known ty yes no, rfl, ?_, Nat.le_succ _,
        closed _ _ _ ?_ (FunctionBody.block_addOps within _)⟩
      · rw [length]
        exact length_modify ..
      · exact Nat.lt_of_lt_of_eq within (length_modify ..).symm
    · cases narrowed

/-- What a body became. -/
structure Lowered (ctx : ModuleCtx) (body : KernelBody) (types : List (Option Ty))
    (chunk : ValueId → List Operation) (values : ValueId → Option Slot)
    (function : FunctionBody) : Prop where
  params : ∀ block < body.blocks.length, ∀ (position : Nat) value,
    (body.block block).params[position]? = some value → ∃ slot, values value = some slot ∧
      (function.block block).params[position]? = some slot
  entered : (function.block 0).params = numbered 0 (ctx.leaves.map valueType)
  distinct : ∀ block, ((function.block block).params.map Prod.fst).Nodup
  closes : ∀ block < body.blocks.length, ∃ tail fresh,
    (function.block block).operations = (body.block block).instrs.flatMap chunk ++ tail ∧
      Closes values fresh (body.block block).terminator tail (function.block block).terminator ∧
      ∀ value slot, values value = some slot → slot.1 < fresh
  known : ∀ value slot, values value = some slot →
    (∃ block, value ∈ (body.block block).params) ∨ value ∈ body.listed
  typed : ∀ value slot, values value = some slot → types.getD value none = some slot.2
  chunks : ∀ value ∈ body.listed, Chunk ctx body values value (chunk value)
  origin : ∀ made ∈ body.listed, ∀ operation ∈ chunk made, ∀ value slot,
    values value = some slot → slot.1 = operation.value → Stems body value made
  root : ∀ block, ∀ param ∈ (function.block block).params, ∀ value slot,
    values value = some slot → slot.1 = param.1 →
      ∃ received ∈ (body.block block).params, Stems body value received

/-- Some of the blocks are closed. -/
structure Closing (body : KernelBody) (walk : Walk) (done : List Nat) (after : Walk) : Prop where
  values : after.values = walk.values
  length : after.builder.blocks.length = walk.builder.blocks.length
  later : walk.builder.nextValue ≤ after.builder.nextValue
  closed : ∀ block ∈ done, ∃ tail fresh, walk.builder.nextValue ≤ fresh ∧
    (after.builder.block block).params = (walk.builder.block block).params ∧
    (after.builder.block block).operations = (walk.builder.block block).operations ++ tail ∧
    Closes walk.values fresh (body.block block).terminator tail
      (after.builder.block block).terminator
  open_ : ∀ block ∉ done, after.builder.block block = walk.builder.block block

theorem closing_of_foldlM (length : walk.builder.blocks.length = body.blocks.length)
    (lowered : (List.range body.blocks.length).foldlM (lowerTerminator body) walk = .ok after) :
    Closing body walk (List.range body.blocks.length) after := by
  refine foldlM_ok (fun done after => Closing body walk done after)
    ⟨rfl, rfl, le_refl _, fun _ member => absurd member not_mem_nil, fun _ _ => rfl⟩ ?_
    lowered
  intro done index rest before next whole held stepped
  have member : index ∈ List.range body.blocks.length := by
    rw [whole]
    exact mem_append_right _ mem_cons_self
  have within : index < before.builder.blocks.length := by
    rw [held.length, length]
    exact mem_range.1 member
  have fresh : index ∉ done := by
    have distinct := nodup_range (n := body.blocks.length)
    rw [whole] at distinct
    exact fun earlier => (nodup_append.1 distinct).2.2 _ earlier _ mem_cons_self rfl
  obtain ⟨tail, terminator, closes, values, count, later, blocks⟩ := lowerTerminator_ok within stepped
  constructor
  · exact values.trans held.values
  · exact count.trans held.length
  · exact le_trans held.later later
  · intro block inside
    rw [blocks block]
    rcases mem_append.1 inside with earlier | last
    · have differ : index ≠ block := by
        rintro rfl
        exact fresh earlier
      rw [if_neg differ]
      exact held.closed block earlier
    · rw [mem_singleton.1 last, if_pos rfl, held.open_ index fresh]
      exact ⟨tail, _, held.later, rfl, rfl, held.values ▸ closes⟩
  · intro block outside
    rw [mem_append, not_or] at outside
    have differ : index ≠ block := by
      rintro rfl
      exact outside.2 (mem_singleton_self _)
    rw [blocks block, if_neg differ]
    exact held.open_ block outside.1

/-- The passes of a lowering that is not refused: what each of them leaves. -/
structure Passes (ctx : ModuleCtx) (body : KernelBody) (types : List (Option Ty))
    (start bound walk after : Walk) : Prop where
  valid : body.validate = .ok ()
  present : body.blocks ≠ []
  entered : bindEntry ctx body (boundBlocks ctx body) = .ok start
  swept : sweeps ctx body (body.values.length + 1) (entryTypes ctx body) = .ok types
  checked : ∀ definition index, body.values[index]? = some definition →
    requireTyped types index definition = .ok ()
  binds : (List.range body.blocks.length).foldlM (bindBlock body types) start = .ok bound
  instrs : (listing body).foldlM (ctx.lowerInstr body) bound = .ok walk
  terminators : (List.range body.blocks.length).foldlM (lowerTerminator body) walk = .ok after

theorem passes_of_lowerBody {function : FunctionBody} (lowered : lowerBody ctx body = .ok function) :
    ∃ types start bound walk after, Passes ctx body types start bound walk after ∧
      function = after.builder := by
  unfold lowerBody at lowered
  split at lowered
  · cases lowered
  · rename_i valid
    split at lowered
    · cases lowered
    · rename_i present
      obtain ⟨start, entered, lowered⟩ := bind_ok.1 lowered
      obtain ⟨bound, binds, lowered⟩ := bind_ok.1 lowered
      obtain ⟨walk, instrs, lowered⟩ := bind_ok.1 lowered
      obtain ⟨after, terminators, same⟩ := bind_ok.1 lowered
      cases same
      unfold typeValues at binds
      obtain ⟨types, swept, binds⟩ := bind_ok.1 binds
      obtain ⟨_, required, binds⟩ := bind_ok.1 binds
      refine ⟨types, start, bound, walk, after, ?_, rfl⟩
      exact ⟨valid, present, entered, swept, fun definition index found =>
        forM_ok required _ (mem_zipIdx_of_getElem? found), binds, instrs, terminators⟩

/-- What a lowering that is not refused makes of a body that starts in its first block. -/
theorem Passes.lowered {start bound : Walk}
    (passes : Passes ctx body types start bound walk after) (single : body.SingleAssignment)
    (first : body.entry = 0) :
    Typing ctx body types ∧ ∃ chunk, Lowered ctx body types chunk walk.values after.builder := by
  have typing := typing_of_sweeps single passes.swept
  obtain ⟨blocks, all, binding⟩ := binding_of_typeValues single first
    (binding_entry typing single first passes.present passes.entered) passes.binds
  obtain ⟨chunk, lowering⟩ := lowering_of_foldlM typing single passes.valid passes.checked binding
    passes.instrs
  have closing := closing_of_foldlM lowering.length passes.terminators
  have params : ∀ block, (after.builder.block block).params =
      (bound.builder.block block).params := by
    intro block
    rw [← lowering.params block]
    by_cases inside : block ∈ List.range body.blocks.length
    · obtain ⟨tail, fresh, -, same, -⟩ := closing.closed block inside
      exact same
    · rw [closing.open_ block inside]
  refine ⟨typing, chunk, ?_, ?_, ?_, ?_, ?_, lowering.typed, ?_, ?_, ?_⟩
  · intro block inside position value found
    obtain ⟨slot, known, place⟩ := binding.params block (all block inside) position value found
    exact ⟨slot, lowering.kept _ _ known, params block ▸ place⟩
  · rw [params 0]
    exact binding.entered
  · intro block
    rw [params block]
    exact binding.distinct block
  · intro block inside
    obtain ⟨tail, fresh, later, -, operations, closes⟩ :=
      closing.closed block (mem_range.2 inside)
    refine ⟨tail, fresh, ?_, closes, ?_⟩
    · rw [operations, lowering.operations block, listing_block, flatMap_map]
    · exact fun value slot known => lt_of_lt_of_le (lowering.fresh value slot known) later
  · intro value slot known
    rcases lowering.known value slot known with before | member
    · obtain ⟨block, -, position, place, -⟩ := binding.known value slot before
      exact Or.inl ⟨block, mem_of_getElem? place⟩
    · rw [listing_snd] at member
      exact Or.inr member
  · intro value listed
    rw [← listing_snd] at listed
    obtain ⟨place, member, rfl⟩ := mem_map.1 listed
    exact lowering.chunks place member
  · intro made listed
    rw [← listing_snd] at listed
    obtain ⟨place, member, rfl⟩ := mem_map.1 listed
    exact lowering.origin place member
  · intro block param member
    rw [params block] at member
    exact lowering.root block param member

end LichenVm.Wasm
