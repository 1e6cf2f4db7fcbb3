import LichenVm.ComposeMerge
import Mathlib.Data.List.ReduceOption

open List Option

namespace LichenVm.KernelIr

open Worklist

theorem foldl_numbered_other (index : Nat) (params : List (ValueId × Nat)) (value : ValueId) :
    ∀ values : List ValueDef, value ∉ params.map Prod.fst →
      (params.foldl (fun values (param, position) =>
        values.set param (.blockParam index position)) values)[value]? = values[value]? := by
  induction params with
  | nil => exact fun _ _ => rfl
  | cons param params ih =>
    intro values outside
    simp only [map_cons, mem_cons, not_or] at outside
    rw [foldl_cons, ih _ outside.2, getElem?_set_ne (Ne.symm outside.1)]

theorem foldl_blocks_other (pairs : List (BasicBlock × Nat)) (value : ValueId) :
    ∀ values : List ValueDef, (∀ pair ∈ pairs, value ∉ pair.1.params) →
      (pairs.foldl (fun values (block, index) =>
        block.params.zipIdx.foldl (fun values (param, position) =>
          values.set param (.blockParam index position)) values) values)[value]? =
        values[value]? := by
  induction pairs with
  | nil => exact fun _ _ => rfl
  | cons pair pairs ih =>
    intro values outside
    rw [foldl_cons, ih _ fun other member => outside other (mem_cons_of_mem _ member)]
    apply foldl_numbered_other
    rw [zipIdx_map_fst]
    exact outside pair mem_cons_self

theorem numberParameters_other (blocks : List BasicBlock) (values : List ValueDef) (value : ValueId)
    (apart : ∀ block ∈ blocks, value ∉ block.params) :
    (numberParameters blocks values)[value]? = values[value]? := by
  exact foldl_blocks_other blocks.zipIdx value values fun pair member =>
    apart pair.1 (fst_mem_of_mem_zipIdx member)

namespace KernelBody

variable (live : ValueId → Bool)

theorem survivor_succ (value : ValueId) :
    survivor live (value + 1) = survivor live value + if live value then 1 else 0 := by
  unfold survivor
  rw [range_succ, filter_append, length_append]
  by_cases held : live value <;> simp [held]

theorem survivor_mono {value other : Nat} (before : value ≤ other) :
    survivor live value ≤ survivor live other := by
  induction other with
  | zero => rw [Nat.le_zero.1 before]
  | succ other ih =>
    rw [survivor_succ]
    rcases lt_or_ge value (other + 1) with less | equal
    · exact le_trans (ih (by omega)) (Nat.le_add_right _ _)
    · rw [show value = other + 1 by omega, survivor_succ]

theorem survivor_injective {live : ValueId → Bool} {value other : Nat} (held : live value)
    (held' : live other) (same : survivor live value = survivor live other) :
    value = other := by
  have strict : ∀ {first second : Nat}, live first → first < second →
      survivor live first < survivor live second := by
    intro first second here before
    have step := survivor_succ live first
    rw [if_pos here] at step
    apply lt_of_lt_of_le _ (survivor_mono live (Nat.succ_le_of_lt before))
    rw [step]
    exact Nat.lt_succ_self _
  rcases Nat.lt_trichotomy value other with less | equal | more
  · exact absurd same (ne_of_lt (strict held less))
  · exact equal
  · exact absurd same (ne_of_gt (strict held' more))

theorem filtered_survivor (values : List ValueDef) {value : Nat} {definition : ValueDef}
    (found : values[value]? = some definition) (held : live value) :
    (values.zipIdx.filter fun definition => live definition.2)[survivor live value]? =
      some (definition, value) := by
  have within := (List.getElem?_eq_some_iff.1 found).1
  have split : values = values.take value ++ definition :: values.drop (value + 1) := by
    rw [List.getElem?_eq_some_iff] at found
    obtain ⟨-, rfl⟩ := found
    rw [getElem_cons_drop, take_append_drop]
  have short : (values.take value).length = value := by
    rw [length_take]
    omega
  have count : ((values.take value).zipIdx.filter fun definition => live definition.2).length =
      survivor live value := by
    have projected := filter_map (f := Prod.snd) (p := live) (l := (values.take value).zipIdx)
    rw [zipIdx_map_snd, short] at projected
    rw [survivor, range_eq_range', projected, length_map]
    rfl
  rw [split, zipIdx_append, filter_append,
    getElem?_append_right (by rw [count]), count, Nat.sub_self, zipIdx_cons, short,
    zero_add, filter_cons_of_pos (by exact held)]
  rfl

variable {body : KernelBody} {marks : List KernelMark} {value : ValueId}

theorem live_lt (found : (body.values[value]?).isSome) : value < body.values.length := by
  obtain ⟨definition, found⟩ := isSome_iff_exists.1 found
  exact (List.getElem?_eq_some_iff.1 found).1

variable {op : KernelInstr}

theorem live_operand {value operand : ValueId} {args : List ValueId} {classes : List ScalarClass}
    (held : body.live marks value)
    (found : body.values[value]? = some (.instr op args classes)) (member : operand ∈ args)
    (within : operand < body.values.length) : body.live marks operand := by
  apply reached_next held _ within
  simp only [sources, found, reduceOption_mem_iff]
  exact mem_map_of_mem member

theorem live_of_leavesNothing (listed : value ∈ body.listed)
    (nothing : body.leavesNothing value) : body.live marks value := by
  have within : value < body.values.length := by
    apply live_lt
    unfold leavesNothing at nothing
    split at nothing
    · rename_i found
      rw [found]
      rfl
    · cases nothing
  apply reached_of_mem _ within
  simp [roots, listed, nothing]

theorem compact_instr (received : ParamsReceived body.blocks body.values) {args : List ValueId}
    {classes : List ScalarClass} (found : body.values[value]? = some (.instr op args classes))
    (held : body.live marks value) :
    (body.compact marks).1.values[survivor (body.live marks) value]? =
      some (.instr op (args.map (body.renumbered (body.live marks))) classes) := by
  have untouched : ∀ block ∈ body.blocks.map (body.prunedBlock (body.live marks)),
      survivor (body.live marks) value ∉ block.params := by
    intro block member listed
    obtain ⟨original, inside, rfl⟩ := mem_map.1 member
    obtain ⟨param, kept, same⟩ := mem_map.1 listed
    obtain ⟨entered, alive⟩ := mem_filter.1 kept
    obtain ⟨index, position, definition⟩ := received original inside param entered
    rw [renumbered, if_pos ⟨live_lt (by rw [definition]; rfl), alive⟩] at same
    rw [survivor_injective alive held same, found] at definition
    cases definition
  simp only [compact]
  rw [numberParameters_other _ _ _ untouched, getElem?_map, filtered_survivor _ _ found held]
  rfl

theorem compact_names (received : ParamsReceived body.blocks body.values) {ordinal : Nat}
    (names : Names body.values value op ordinal) (held : body.live marks value) :
    Names (body.compact marks).1.values (survivor (body.live marks) value) op ordinal := by
  obtain ⟨args, classes, position, bits, constArgs, constClasses, found, first, const, same⟩ := names
  have within : position < body.values.length := (List.getElem?_eq_some_iff.1 const).1
  have member : position ∈ args := mem_of_mem_head? (by rw [first]; rfl)
  have alive := live_operand held found member within
  refine ⟨_, _, _, bits, _, _, compact_instr received found held, ?_,
    compact_instr received const alive, same⟩
  rw [List.head?_map, first]
  simp only [map_some, renumbered, if_pos (And.intro within alive)]

end KernelBody

end LichenVm.KernelIr
