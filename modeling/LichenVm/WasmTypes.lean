import LichenVm.WasmLower
import LichenVm.ScopeOrder

open List

namespace LichenVm.Wasm

open KernelIr Traverse

/-- What the sweeps establish: a type is what its definition decides, and every edge agrees with
the parameter it hands a value to. -/
structure Typing (ctx : ModuleCtx) (body : KernelBody) (types : List (Option Ty)) : Prop where
  entry : ∀ offset value, body.parameters[offset]? = some value →
    types.getD value none = some (ctx.leafType offset)
  instr : ∀ value op args classes, body.values[value]? = some (.instr op args classes) → ∀ ty,
    types.getD value none = some ty →
      (args.mapM fun arg => types.getD arg none).bind (ctx.instructionType op) = some ty
  edges : ∀ value block position, body.values[value]? = some (.blockParam block position) →
    ∀ args ∈ body.incomingArguments block, ∀ arg, args[position]? = some arg → ∀ ty,
      types.getD arg none = some ty → types.getD value none = some ty

/-- One table types all that another does, alike. -/
structure Extends (types more : List (Option Ty)) : Prop where
  length : more.length = types.length
  kept : ∀ value ty, types.getD value none = some ty → more.getD value none = some ty

theorem Extends.refl (types : List (Option Ty)) : Extends types types :=
  ⟨rfl, fun _ _ typed => typed⟩

variable {types more : List (Option Ty)}

theorem Extends.trans {most : List (Option Ty)} (first : Extends types more)
    (second : Extends more most) : Extends types most :=
  ⟨second.length.trans first.length, fun value ty typed => second.kept value ty
    (first.kept value ty typed)⟩

theorem Extends.antisymm (up : Extends types more) (down : Extends more types) : types = more := by
  apply ext_getElem down.length
  intro index left right
  rw [← getD_eq_getElem types none left, ← getD_eq_getElem more none right]
  cases found : types.getD index none with
  | some ty => exact (up.kept index ty found).symm
  | none =>
    cases other : more.getD index none with
    | none => rfl
    | some ty =>
      rw [down.kept index ty other] at found
      cases found

theorem Extends.tail {first other : Option Ty}
    (extended : Extends (first :: types) (other :: more)) : Extends types more :=
  ⟨Nat.succ.inj extended.length, fun value ty typed => extended.kept (value + 1) ty typed⟩

/-- A table that extends another and is not it leaves fewer values untyped. -/
theorem Extends.count_le (extended : Extends types more) :
    more.count none ≤ types.count none ∧ (more.count none = types.count none → more = types) := by
  induction types generalizing more with
  | nil =>
    rw [length_eq_zero_iff.1 extended.length]
    exact ⟨Nat.le_refl _, fun _ => rfl⟩
  | cons first types ih =>
    cases more with
    | nil => cases extended.length
    | cons other more =>
      obtain ⟨le, same⟩ := ih extended.tail
      have head := extended.kept 0
      cases first with
      | some ty =>
        obtain rfl := head ty rfl
        exact ⟨le, fun counts => by rw [same counts]⟩
      | none =>
        cases other with
        | none =>
          simp only [count_cons_self, Nat.add_le_add_iff_right, Nat.add_right_cancel_iff]
          exact ⟨le, fun counts => by rw [same counts]⟩
        | some ty =>
          simp only [count_cons, reduceCtorEq, beq_iff_eq, if_false, if_true]
          constructor
          · omega
          · intro counts
            omega

variable {value : Nat}

theorem getD_set_self (within : value < types.length)
    (decided : Option Ty) : (types.set value decided).getD value none = decided := by
  rw [getD_eq_getElem?_getD, getElem?_set_self within]
  rfl

theorem getD_set_ne {other : Nat} (apart : value ≠ other)
    (decided : Option Ty) : (types.set value decided).getD other none = types.getD other none := by
  rw [getD_eq_getElem?_getD, getElem?_set_ne apart, ← getD_eq_getElem?_getD]

variable {args : List ValueId}

theorem meetEdge_kept {block position : Nat} {decided after : Option Ty} (met :
    meetEdge types block position decided args = .ok after) :
    ∀ ty, decided = some ty → after = some ty := by
  rintro ty rfl
  unfold meetEdge at met
  split at met
  · exact (Except.ok.inj met).symm
  · split at met
    · exact (Except.ok.inj met).symm
    · contradiction
    · split at met
      · exact (Except.ok.inj met).symm
      · cases met

variable {ctx : ModuleCtx} {body : KernelBody} {after : List (Option Ty)}

theorem decideType_extends {index : Nat} {definition : ValueDef}
    (decided : decideType ctx body types index definition = .ok after) : Extends types after := by
  have set_extends : ∀ found : Option Ty, (∀ ty, types.getD index none = some ty →
      found = some ty) → Extends types (types.set index found) := by
    intro found kept
    refine ⟨length_set .., ?_⟩
    intro value ty typed
    by_cases same : index = value
    · subst same
      have within : index < types.length := by
        by_contra outside
        rw [getD_eq_default _ _ (Nat.le_of_not_lt outside)] at typed
        cases typed
      rw [getD_set_self within]
      exact kept ty typed
    · rw [getD_set_ne same]
      exact typed
  unfold decideType at decided
  split at decided
  · split at decided
    · cases decided
      exact .refl _
    · rename_i untyped
      split at decided
      · cases decided
        exact .refl _
      · cases decided
        apply set_extends
        intro ty typed
        rw [typed] at untyped
        exact absurd rfl untyped
  · obtain ⟨found, met, same⟩ := bind_ok.1 decided
    cases same
    apply set_extends
    apply foldlM_ok (fun _ (after : Option Ty) => ∀ ty, types.getD index none = some ty →
      after = some ty) (fun _ typed => typed) _ met
    intro done args rest before after whole held step ty typed
    exact meetEdge_kept step ty (held ty typed)

theorem sweep_extends (swept : sweep ctx body types = .ok after) : Extends types after :=
  foldlM_ok_grows Extends.refl (fun _ _ _ => Extends.trans)
    (fun _ _ _ _ decided => decideType_extends decided) swept

theorem sweeps_still {fuel : Nat} (enough : types.count none < fuel)
    (swept : sweeps ctx body fuel types = .ok after) :
    Extends types after ∧ sweep ctx body after = .ok after := by
  induction fuel generalizing types with
  | zero => omega
  | succ fuel ih =>
    unfold sweeps at swept
    obtain ⟨next, once, rest⟩ := bind_ok.1 swept
    have up := sweep_extends once
    split at rest
    · rename_i same
      cases rest
      rw [same] at once
      exact ⟨.refl _, once⟩
    · rename_i moved
      obtain ⟨le, same⟩ := up.count_le
      have less : next.count none ≠ types.count none := fun counts => moved (same counts)
      obtain ⟨further, still⟩ := ih (by omega) rest
      exact ⟨up.trans further, still⟩

theorem Extends.mapM (extended : Extends types more) {operands : List Ty}
    (typed : (args.mapM fun arg => types.getD arg none) = some operands) :
    (args.mapM fun arg => more.getD arg none) = some operands :=
  Traverse.mapM_mono (fun arg ty found => extended.kept arg ty found) typed

/-- Every typed instruction has the type its definition decides. -/
def Decided (ctx : ModuleCtx) (body : KernelBody) (types : List (Option Ty)) : Prop :=
  ∀ value op args classes, body.values[value]? = some (.instr op args classes) → ∀ ty,
    types.getD value none = some ty →
      (args.mapM fun arg => types.getD arg none).bind (ctx.instructionType op) = some ty

theorem Decided.decideType (held : Decided ctx body types) {index : Nat} {definition : ValueDef}
    (found : body.values[index]? = some definition)
    (decided : decideType ctx body types index definition = .ok after) : Decided ctx body after := by
  have extended := decideType_extends decided
  have carry : ∀ (op : KernelInstr) (args : List ValueId) (ty : Ty),
      (args.mapM fun arg => types.getD arg none).bind (ctx.instructionType op) = some ty →
      (args.mapM fun arg => after.getD arg none).bind (ctx.instructionType op) = some ty := by
    intro op args ty typed
    obtain ⟨operands, each, typed⟩ := Option.bind_eq_some_iff.1 typed
    rw [extended.mapM each]
    exact typed
  intro value op args classes defined ty typed
  apply carry
  unfold Wasm.decideType at decided
  split at decided
  · rename_i op' args' classes'
    split at decided
    · cases decided
      exact held value op args classes defined ty typed
    · split at decided
      · cases decided
        exact held value op args classes defined ty typed
      · rename_i ty' known
        cases decided
        by_cases same : index = value
        · subst same
          rw [found] at defined
          cases defined
          have within : index < types.length := by
            by_contra outside
            rw [getD_eq_default _ _ (by rw [length_set]; omega)] at typed
            cases typed
          rw [getD_set_self within] at typed
          cases typed
          exact known
        · rw [getD_set_ne same] at typed
          exact held value op args classes defined ty typed
  · obtain ⟨met, -, same⟩ := bind_ok.1 decided
    cases same
    by_cases same : index = value
    · subst same
      rw [found] at defined
      cases defined
    · rw [getD_set_ne same] at typed
      exact held value op args classes defined ty typed

theorem Decided.sweep (held : Decided ctx body types) (swept : sweep ctx body types = .ok after) :
    Decided ctx body after := by
  apply foldlM_ok (fun _ => Decided ctx body) held _ swept
  intro done item rest before after whole held stepped
  apply held.decideType _ stepped
  apply mem_zipIdx_iff_getElem?.1
  rw [whole]
  exact mem_append_right _ mem_cons_self

theorem Decided.sweeps {fuel : Nat} (held : Decided ctx body types)
    (swept : sweeps ctx body fuel types = .ok after) : Decided ctx body after := by
  induction fuel generalizing types with
  | zero =>
    cases swept
    exact held
  | succ fuel ih =>
    unfold Wasm.sweeps at swept
    obtain ⟨next, once, rest⟩ := bind_ok.1 swept
    split at rest
    · cases rest
      exact held
    · exact ih (held.sweep once) rest

/-- Where a sweep changes nothing, every edge agrees with the parameter it hands a value to. -/
theorem edges_of_still
    (length : types.length = body.values.length) (still : sweep ctx body types = .ok types)
    {block position : Nat} (found : body.values[value]? = some (.blockParam block position))
    (member : args ∈ body.incomingArguments block) {arg : ValueId}
    (handed : args[position]? = some arg) {ty : Ty} (typed : types.getD arg none = some ty) :
    types.getD value none = some ty := by
  have each := foldlM_ok_still Extends.refl (fun _ _ _ => Extends.trans) (fun _ _ => Extends.antisymm)
    (fun _ _ _ _ decided => decideType_extends decided) still _ (KernelBody.mem_zipIdx_of_getElem? found)
  obtain ⟨decided, met, same⟩ := bind_ok.1 each
  have within : value < types.length := by
    rw [length]
    exact (List.getElem?_eq_some_iff.1 found).1
  have unmoved : decided = types.getD value none := by
    rw [← getD_set_self within decided, Except.ok.inj same]
  rw [← unmoved]
  have agree := foldlM_ok (fun done (decided : Option Ty) => ∀ args ∈ done, ∀ arg,
    args[position]? = some arg → ∀ ty, types.getD arg none = some ty → decided = some ty)
    (fun _ member => absurd member not_mem_nil) ?_ met
  · exact agree args member arg handed ty typed
  · intro done args rest before after whole held step args' member arg handed ty typed
    rcases mem_append.1 member with earlier | last
    · exact meetEdge_kept step ty (held args' earlier arg handed ty typed)
    · rw [mem_singleton.1 last] at handed
      unfold meetEdge at step
      rw [handed] at step
      simp only [typed] at step
      cases before with
      | none => exact (Except.ok.inj step).symm
      | some seen =>
        dsimp only at step
        split at step
        · rename_i same
          rw [← Except.ok.inj step, same]
        · cases step

theorem foldl_set_length (f : Nat → Ty) (items : List (ValueId × Nat)) (types : List (Option Ty)) :
    (items.foldl (fun types (value, offset) => types.set value (some (f offset))) types).length =
      types.length := by
  induction items generalizing types with
  | nil => rfl
  | cons item items ih =>
    rw [foldl_cons, ih]
    exact length_set ..

/-- Values that differ keep what each is set to. -/
theorem foldl_set_getD (f : Nat → Ty) {items : List (ValueId × Nat)}
    (distinct : (items.map Prod.fst).Nodup) (types : List (Option Ty)) :
    (∀ value ∉ items.map Prod.fst,
      (items.foldl (fun types (value, offset) => types.set value (some (f offset))) types).getD value
        none = types.getD value none) ∧
    ∀ item ∈ items, item.1 < types.length →
      (items.foldl (fun types (value, offset) => types.set value (some (f offset))) types).getD
        item.1 none = some (f item.2) := by
  induction items generalizing types with
  | nil => exact ⟨fun _ _ => rfl, fun _ member => absurd member not_mem_nil⟩
  | cons first items ih =>
    rw [map_cons, nodup_cons] at distinct
    obtain ⟨outside, inside⟩ := ih distinct.2 (types.set first.1 (some (f first.2)))
    constructor
    · intro value away
      rw [map_cons, mem_cons, not_or] at away
      rw [foldl_cons, outside value away.2, getD_set_ne (Ne.symm away.1)]
    · intro item member within
      rw [foldl_cons]
      rcases mem_cons.1 member with rfl | member
      · rw [outside item.1 distinct.1, getD_set_self within]
      · apply inside item member
        rw [length_set]
        exact within

section

variable (single : body.SingleAssignment)

include single

theorem params_nodup (block : Nat) : (body.block block).params.Nodup := by
  rw [nodup_iff_getElem?_ne_getElem?]
  intro first second less within same
  have found := getElem?_eq_getElem within
  have one := single.received block second _ found
  rw [← same] at found
  have other := single.received block first _ found
  rw [one] at other
  cases other
  omega

theorem entry_nodup : (body.parameters.zipIdx.map Prod.fst).Nodup := by
  rw [zipIdx_map_fst]
  exact params_nodup single body.entry

theorem decided_entryTypes : Decided ctx body (entryTypes ctx body) := by
  intro value op args classes found ty typed
  by_cases member : value ∈ body.parameters
  · obtain ⟨index, received⟩ := mem_iff_getElem?.1 member
    rw [single.received _ _ _ received] at found
    cases found
  · unfold entryTypes at typed
    have outside : value ∉ body.parameters.zipIdx.map Prod.fst := by
      rw [zipIdx_map_fst]
      exact member
    rw [(foldl_set_getD ctx.leafType (entry_nodup single) _).1 value outside] at typed
    rw [getD_eq_getElem?_getD, getElem?_replicate] at typed
    split at typed
    · cases typed
    · cases typed

theorem entryTypes_entry {offset : Nat} (found : body.parameters[offset]? = some value) :
    (entryTypes ctx body).getD value none = some (ctx.leafType offset) := by
  have within : value < body.values.length :=
    (List.getElem?_eq_some_iff.1 (single.received _ _ _ found)).1
  apply (foldl_set_getD ctx.leafType (entry_nodup single) _).2 (value, offset)
    (KernelBody.mem_zipIdx_of_getElem? found)
  rw [length_replicate]
  exact within

theorem typing_of_sweeps
    (swept : sweeps ctx body (body.values.length + 1) (entryTypes ctx body) = .ok types) :
    Typing ctx body types := by
  have length : (entryTypes ctx body).length = body.values.length := by
    unfold entryTypes
    rw [foldl_set_length, length_replicate]
  have enough : (entryTypes ctx body).count none < body.values.length + 1 := by
    have bound := count_le_length (a := none) (l := entryTypes ctx body)
    omega
  obtain ⟨extended, still⟩ := sweeps_still enough swept
  refine ⟨?_, (decided_entryTypes single).sweeps swept, ?_⟩
  · exact fun offset value found => extended.kept value _ (entryTypes_entry single found)
  · intro value block position found args member arg handed ty typed
    exact edges_of_still (extended.length.trans length) still found member handed typed

end

end LichenVm.Wasm
