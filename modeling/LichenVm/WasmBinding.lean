import LichenVm.WasmEmission

open List Option

namespace LichenVm.Wasm

open KernelIr Traverse FunctionBody

variable {ctx : ModuleCtx} {body : KernelBody} {types : List (Option Ty)}

theorem getD_modify {α : Type} (items : List α) (f : α → α) (index other : Nat) (absent : α) :
    (items.modify index f).getD other absent =
      if index = other ∧ other < items.length then f (items.getD other absent)
      else items.getD other absent := by
  rw [getD_eq_getElem?_getD, getElem?_modify, getD_eq_getElem?_getD]
  by_cases same : index = other
  · subst same
    by_cases within : index < items.length
    · rw [getElem?_eq_getElem within, if_pos ⟨rfl, within⟩]
      simp
    · rw [getElem?_eq_none (Nat.le_of_not_lt within), if_neg (fun both => within both.2)]
      rfl
  · rw [if_neg fun both => same both.1]
    cases items[other]? <;> simp [same]

namespace FunctionBody

variable (function : FunctionBody)

theorem block_addBlock (index : Nat) : function.addBlock.block index = function.block index := by
  unfold addBlock block
  by_cases within : index < function.blocks.length
  · rw [getD_append _ _ _ _ within]
  · rw [getD_append_right _ _ _ _ (Nat.le_of_not_lt within),
      getD_eq_default function.blocks _ (Nat.le_of_not_lt within)]
    cases index - function.blocks.length <;> rfl

theorem block_addBlocks (count index : Nat) :
    (addBlock^[count] function).block index = function.block index := by
  induction count generalizing function with
  | zero => rfl
  | succ count ih => rw [Function.iterate_succ_apply, ih, block_addBlock]

theorem length_addBlocks (count : Nat) :
    (addBlock^[count] function).blocks.length = function.blocks.length + count := by
  induction count generalizing function with
  | zero => rfl
  | succ count ih =>
    rw [Function.iterate_succ_apply, ih]
    simp only [addBlock, length_append, length_singleton]
    omega

theorem nextValue_addBlocks (count : Nat) :
    (addBlock^[count] function).nextValue = function.nextValue := by
  induction count generalizing function with
  | zero => rfl
  | succ count ih => rw [Function.iterate_succ_apply, ih]; rfl

variable {function} {index : Nat}

section

variable (within : index < function.blocks.length)

include within

theorem block_addBlockparams (tys : List Ty) (other : Nat) :
    (function.addBlockparams index tys).block other =
      if index = other then { function.block other with
        params := (function.block other).params ++ numbered function.nextValue tys }
      else function.block other := by
  unfold addBlockparams block
  rw [getD_modify]
  by_cases same : index = other
  · rw [if_pos ⟨same, same ▸ within⟩, if_pos same]
  · rw [if_neg fun both => same both.1, if_neg same]

theorem block_addOps (operations : List Operation) (other : Nat) :
    (function.addOps index operations).block other =
      if index = other then { function.block other with
        operations := (function.block other).operations ++ operations }
      else function.block other := by
  unfold addOps block
  rw [getD_modify]
  by_cases same : index = other
  · rw [if_pos ⟨same, same ▸ within⟩, if_pos same]
  · rw [if_neg fun both => same both.1, if_neg same]

theorem block_setTerminator (terminator : Terminator) (other : Nat) :
    (function.setTerminator index terminator).block other =
      if index = other then { function.block other with terminator } else function.block other := by
  unfold setTerminator block
  rw [getD_modify]
  by_cases same : index = other
  · rw [if_pos ⟨same, same ▸ within⟩, if_pos same]
  · rw [if_neg fun both => same both.1, if_neg same]

end

end FunctionBody

section

variable (first : Nat) (tys : List Ty)

theorem numbered_length : (numbered first tys).length = tys.length := by
  simp [numbered]

theorem numbered_map_fst : (numbered first tys).map Prod.fst = List.range' first tys.length :=
  map_fst_zip (by simp)

theorem numbered_map_snd : (numbered first tys).map Prod.snd = tys :=
  map_snd_zip (by simp)

end

theorem numbered_bounds {first : Nat} {tys : List Ty} {slot : Slot}
    (member : slot ∈ numbered first tys) : first ≤ slot.1 ∧ slot.1 < first + tys.length := by
  have inside : slot.1 ∈ (numbered first tys).map Prod.fst := mem_map_of_mem member
  rw [numbered_map_fst, mem_range'_1] at inside
  exact inside

/-- The first passes bind the parameters of some blocks: each is known by a parameter of its wasm
block, which is no other parameter's, at the type decided for it. -/
structure Binding (ctx : ModuleCtx) (body : KernelBody) (types : List (Option Ty))
    (done : List Nat) (walk : Walk) : Prop where
  length : walk.builder.blocks.length = body.blocks.length
  params : ∀ block ∈ done, ∀ (position : Nat) value,
    (body.block block).params[position]? = some value → ∃ slot,
      walk.values value = some slot ∧ (walk.builder.block block).params[position]? = some slot
  known : ∀ value slot, walk.values value = some slot → ∃ block ∈ done, ∃ position : Nat,
    (body.block block).params[position]? = some value ∧
      (walk.builder.block block).params[position]? = some slot
  typed : ∀ value slot, walk.values value = some slot → types.getD value none = some slot.2
  fresh : ∀ block, ∀ slot ∈ (walk.builder.block block).params, slot.1 < walk.builder.nextValue
  distinct : ∀ block, ((walk.builder.block block).params.map Prod.fst).Nodup
  apart : ∀ block other, block ≠ other → ∀ slot ∈ (walk.builder.block block).params,
    ∀ shared ∈ (walk.builder.block other).params, slot.1 ≠ shared.1
  unentered : ∀ block ∉ done, (walk.builder.block block).params = []
  empty : ∀ block, (walk.builder.block block).operations = []
  entered : (walk.builder.block 0).params = numbered 0 (ctx.leaves.map valueType)

theorem block_boundBlocks (ctx : ModuleCtx) (body : KernelBody) (index : Nat) :
    (boundBlocks ctx body).block index =
      if index = 0 then ⟨numbered 0 (ctx.leaves.map valueType), [], .none⟩ else ⟨[], [], .none⟩ := by
  unfold boundBlocks
  rw [block_addBlocks]
  cases index with
  | zero => rfl
  | succ index => rfl

theorem bound_at {params : List ValueId} (distinct : params.Nodup) {slots : List Slot}
    (arity : slots.length = params.length) (values : ValueId → Option Slot) {position : Nat}
    {value : ValueId} (found : params[position]? = some value) :
    ∃ slot, slots[position]? = some slot ∧
      receive params (slots.map some) values value = some slot := by
  have held : (slots.map some).length = params.length := by rw [length_map, arity]
  have each := receive_map distinct held values
  have here := congrArg (·[position]?) each
  simp only [getElem?_map, found, map_some] at here
  cases at_ : slots[position]? with
  | none =>
    rw [at_] at here
    cases here
  | some slot =>
    rw [at_] at here
    exact ⟨slot, rfl, some.inj here⟩

theorem binding_entry (typing : Typing ctx body types) (single : body.SingleAssignment)
    (first : body.entry = 0) (present : body.blocks ≠ []) {walk : Walk}
    (bound : bindEntry ctx body (boundBlocks ctx body) = .ok walk) :
    Binding ctx body types [0] walk := by
  unfold bindEntry at bound
  split at bound
  · rename_i enough
    cases bound
    have arity : ((numbered 0 (ctx.leaves.map valueType)).take body.parameters.length).length =
        body.parameters.length := by
      rw [length_take, numbered_length, length_map]
      omega
    have place : ∀ (position : Nat) value, (body.block 0).params[position]? = some value → ∃ slot,
        (numbered 0 (ctx.leaves.map valueType))[position]? = some slot ∧
        receive body.parameters (((numbered 0 (ctx.leaves.map valueType)).take
          body.parameters.length).map some) (fun _ => none) value = some slot := by
      intro position value found
      rw [← first] at found
      obtain ⟨slot, inside, known⟩ := bound_at (params_nodup single body.entry) arity
        (fun _ => none) found
      have within : position < body.parameters.length := (List.getElem?_eq_some_iff.1 found).1
      rw [getElem?_take_of_lt within] at inside
      exact ⟨slot, inside, known⟩
    have head : ((boundBlocks ctx body).block 0).params = numbered 0 (ctx.leaves.map valueType) := by
      rw [block_boundBlocks]
      rfl
    have rest : ∀ block, block ≠ 0 → ((boundBlocks ctx body).block block).params = [] := by
      intro block away
      rw [block_boundBlocks, if_neg away]
    have known : ∀ value slot, receive body.parameters (((numbered 0
        (ctx.leaves.map valueType)).take body.parameters.length).map some) (fun _ => none) value =
          some slot → ∃ position : Nat, (body.block 0).params[position]? = some value ∧
            (numbered 0 (ctx.leaves.map valueType))[position]? = some slot := by
      intro value slot held
      by_cases member : value ∈ body.parameters
      · obtain ⟨position, found⟩ := mem_iff_getElem?.1 member
        unfold KernelBody.parameters at found
        rw [first] at found
        obtain ⟨other, inside, same⟩ := place position value found
        rw [held] at same
        cases same
        exact ⟨position, found, inside⟩
      · rw [receive_outside member] at held
        cases held
    constructor
    · unfold boundBlocks
      rw [length_addBlocks]
      have some_ := length_pos_iff.2 present
      simp only [new, length_singleton]
      omega
    · intro block member position value found
      rw [mem_singleton.1 member] at found ⊢
      obtain ⟨slot, inside, held⟩ := place position value found
      exact ⟨slot, held, head ▸ inside⟩
    · intro value slot held
      obtain ⟨position, found, inside⟩ := known value slot held
      exact ⟨0, mem_singleton_self _, position, found, head ▸ inside⟩
    · intro value slot held
      obtain ⟨position, found, inside⟩ := known value slot held
      rw [← first] at found
      rw [typing.entry position value found]
      have ty := congrArg (·[position]?) (numbered_map_snd 0 (ctx.leaves.map valueType))
      simp only [getElem?_map, inside, map_some] at ty
      unfold ModuleCtx.leafType
      rw [← ty]
      rfl
    · intro block slot member
      by_cases away : block = 0
      · subst away
        rw [head] at member
        have bounds := (numbered_bounds member).2
        unfold boundBlocks
        rw [nextValue_addBlocks]
        simpa [new] using bounds
      · rw [rest block away] at member
        cases member
    · intro block
      by_cases away : block = 0
      · subst away
        rw [head, numbered_map_fst]
        exact nodup_range'
      · rw [rest block away]
        exact nodup_nil
    · intro block other differ slot member shared inside
      by_cases away : block = 0
      · rw [rest other fun same => differ (away.trans same.symm)] at inside
        cases inside
      · rw [rest block away] at member
        cases member
    · intro block outside
      exact rest block fun same => outside (same ▸ mem_singleton_self _)
    · intro block
      rw [block_boundBlocks]
      split <;> rfl
    · exact head
  · cases bound

theorem mapM_types {values : List ValueId} {tys : List Ty}
    (typed : (values.mapM fun value => types.getD value none) = some tys) :
    tys.length = values.length ∧ ∀ (position : Nat) (value : ValueId) ty,
      values[position]? = some value → tys[position]? = some ty → types.getD value none = some ty := by
  refine ⟨length_of_mapM _ _ _ typed, ?_⟩
  intro position value ty found at_
  have here := getElem?_of_mapM _ _ _ typed position
  rw [found, at_] at here
  exact here.symm

/-- One more block is bound. -/
theorem Binding.block (single : body.SingleAssignment) (first : body.entry = 0) {done : List Nat} {walk after : Walk}
    {index : Nat} (held : Binding ctx body types done walk) (within : index < body.blocks.length)
    (fresh : index ∉ done) (bound : bindBlock body types walk index = .ok after)
    (away : index ≠ body.entry) : Binding ctx body types (done ++ [index]) after := by
  unfold bindBlock at bound
  rw [if_neg away] at bound
  split at bound
  · cases bound
  · rename_i tys typed
    cases bound
    obtain ⟨count, each⟩ := mapM_types typed
    have arity : (numbered walk.builder.nextValue tys).length =
        (body.block index).params.length := by rw [numbered_length, count]
    have blocks := block_addBlockparams (held.length ▸ within) tys
    have own : ((walk.builder.addBlockparams index tys).block index).params =
        numbered walk.builder.nextValue tys := by
      rw [blocks, if_pos rfl]
      simp only [held.unentered index fresh, nil_append]
    have others : ∀ other, other ≠ index →
        (walk.builder.addBlockparams index tys).block other = walk.builder.block other := by
      intro other differ
      rw [blocks, if_neg (Ne.symm differ)]
    have outside : ∀ (other position : Nat) value, (body.block other).params[position]? =
        some value → other ≠ index → value ∉ (body.block index).params := by
      intro other position value found differ member
      obtain ⟨place, inside⟩ := mem_iff_getElem?.1 member
      have one := single.received _ _ _ found
      rw [single.received _ _ _ inside] at one
      cases one
      exact differ rfl
    have among : ∀ other ∈ done, other ≠ index := by
      rintro other member rfl
      exact fresh member
    have known : ∀ value slot, receive (body.block index).params
        ((numbered walk.builder.nextValue tys).map some) walk.values value = some slot →
          (∃ position : Nat, (body.block index).params[position]? = some value ∧
            (numbered walk.builder.nextValue tys)[position]? = some slot) ∨
          walk.values value = some slot := by
      intro value slot found
      by_cases member : value ∈ (body.block index).params
      · obtain ⟨position, place⟩ := mem_iff_getElem?.1 member
        obtain ⟨other, inside, same⟩ := bound_at (params_nodup single index) arity walk.values place
        rw [found] at same
        cases same
        exact Or.inl ⟨position, place, inside⟩
      · rw [receive_outside member] at found
        exact Or.inr found
    constructor
    · rw [← held.length]
      exact length_modify ..
    · intro block member position value found
      rcases mem_append.1 member with earlier | last
      · obtain ⟨slot, known, inside⟩ := held.params block earlier position value found
        have differ := among block earlier
        refine ⟨slot, ?_, ?_⟩
        · exact (receive_outside (outside block position value found differ) _ _).trans known
        · rw [others block differ]
          exact inside
      · rw [mem_singleton.1 last] at found ⊢
        obtain ⟨slot, inside, known⟩ := bound_at (params_nodup single index) arity walk.values found
        exact ⟨slot, known, own ▸ inside⟩
    · intro value slot found
      rcases known value slot found with ⟨position, place, inside⟩ | earlier
      · exact ⟨index, mem_append_right _ mem_cons_self, position, place, own ▸ inside⟩
      · obtain ⟨block, member, position, place, inside⟩ := held.known value slot earlier
        refine ⟨block, mem_append_left _ member, position, place, ?_⟩
        rw [others block (among block member)]
        exact inside
    · intro value slot found
      rcases known value slot found with ⟨position, place, inside⟩ | earlier
      · apply each position value slot.2 place
        have ty := congrArg (·[position]?) (numbered_map_snd walk.builder.nextValue tys)
        simp only [getElem?_map, inside, map_some] at ty
        exact ty.symm
      · exact held.typed value slot earlier
    · intro block slot member
      show slot.1 < walk.builder.nextValue + tys.length
      by_cases same : block = index
      · rw [same, own] at member
        exact (numbered_bounds member).2
      · rw [others block same] at member
        exact Nat.lt_of_lt_of_le (held.fresh block slot member) (Nat.le_add_right _ _)
    · intro block
      by_cases same : block = index
      · rw [same, own, numbered_map_fst]
        exact nodup_range'
      · rw [others block same]
        exact held.distinct block
    · intro block other differ slot member shared inside
      have later : ∀ block, block ≠ index →
          ∀ slot ∈ ((walk.builder.addBlockparams index tys).block block).params,
            ∀ shared ∈ numbered walk.builder.nextValue tys, slot.1 ≠ shared.1 := by
        intro block away slot member shared inside
        rw [others block away] at member
        have less := held.fresh block slot member
        have least := (numbered_bounds inside).1
        omega
      by_cases same : block = index
      · rw [same, own] at member
        exact (later other (fun equal => differ (same.trans equal.symm)) shared inside slot
          member).symm
      · by_cases equal : other = index
        · rw [equal, own] at inside
          exact later block same slot member shared inside
        · rw [others block same] at member
          rw [others other equal] at inside
          exact held.apart block other differ slot member shared inside
    · intro block outside
      rw [mem_append, not_or] at outside
      rw [others block fun same => outside.2 (same ▸ mem_singleton_self _)]
      exact held.unentered block outside.1
    · intro block
      rw [blocks]
      split
      · exact held.empty block
      · exact held.empty block
    · rw [others 0 fun same => away (same.symm.trans first.symm)]
      exact held.entered

theorem Binding.again {done : List Nat} {walk : Walk} {index : Nat}
    (held : Binding ctx body types done walk) (member : index ∈ done) :
    Binding ctx body types (done ++ [index]) walk := by
  have back : ∀ block ∈ done ++ [index], block ∈ done := by
    intro block inside
    rcases mem_append.1 inside with earlier | last
    · exact earlier
    · rw [mem_singleton.1 last]
      exact member
  refine ⟨held.length, fun block inside => held.params block (back block inside), ?_, held.typed,
    held.fresh, held.distinct, held.apart, ?_, held.empty, held.entered⟩
  · intro value slot found
    obtain ⟨block, inside, place⟩ := held.known value slot found
    exact ⟨block, mem_append_left _ inside, place⟩
  · intro block outside
    exact held.unentered block fun inside => outside (mem_append_left _ inside)

/-- The passes before the instructions bind the parameters of every block. -/
theorem binding_of_typeValues (single : body.SingleAssignment) (first : body.entry = 0)
    {walk after : Walk} (held : Binding ctx body types [0] walk)
    (bound : (List.range body.blocks.length).foldlM (bindBlock body types) walk = .ok after) :
    ∃ done, (∀ block < body.blocks.length, block ∈ done) ∧ Binding ctx body types done after := by
  refine ⟨0 :: List.range body.blocks.length, fun block within =>
    mem_cons_of_mem _ (mem_range.2 within), ?_⟩
  apply foldlM_ok (fun done walk => Binding ctx body types (0 :: done) walk) held _ bound
  intro done index rest before next whole inside stepped
  have member : index ∈ List.range body.blocks.length := by
    rw [whole]
    exact mem_append_right _ mem_cons_self
  by_cases home : index = body.entry
  · unfold bindBlock at stepped
    rw [if_pos home] at stepped
    cases stepped
    apply inside.again
    rw [home, first]
    exact mem_cons_self
  · have distinct := nodup_range (n := body.blocks.length)
    rw [whole] at distinct
    apply inside.block single first (mem_range.1 member) _ stepped home
    intro earlier
    rcases mem_cons.1 earlier with same | earlier
    · exact home (same.trans first.symm)
    · exact (nodup_append.1 distinct).2.2 index earlier index mem_cons_self rfl

end LichenVm.Wasm
