import LichenVm.BodyRun
import Mathlib.Data.List.Nodup

open List

namespace LichenVm.KernelIr

open Dominators Traverse

namespace KernelBody

/-- Every value a body binds is bound in one place, and a received one is where the table says. -/
structure SingleAssignment (body : KernelBody) : Prop where
  received : ∀ block position value, (body.block block).params[position]? = some value →
    body.values[value]? = some (ValueDef.blockParam block position)
  once : body.listed.Nodup

/-- Where a block binds a value: before its instructions, or with one of them. -/
inductive Sits (body : KernelBody) (value : ValueId) : Nat → Nat → Prop
  | received {block : Nat} (member : value ∈ (body.block block).params) : Sits body value block 0
  | listed {block position : Nat} (found : (body.block block).instrs[position]? = some value) :
      Sits body value block (position + 1)

/-- Every run that is about to execute at a place of a block has bound the value. -/
def Before (body : KernelBody) (value : ValueId) (block position : Nat) : Prop :=
  ∃ home place, body.Sits value home place ∧ (home = block ∧ place ≤ position ∨
      home ≠ block ∧ Above (fun v w => w ∈ body.successors v) body.entry home block)

variable {body : KernelBody} {block position : Nat} {value : ValueId}

section

variable (found : (body.block block).instrs[position]? = some value)

include found

theorem within_of_instr : block < body.blocks.length := by
  by_contra outside
  have none : body.block block = ⟨[], [], .return []⟩ :=
    getD_eq_default _ _ (Nat.le_of_not_lt outside)
  rw [none] at found
  cases found

theorem listed_of_instr : value ∈ body.listed :=
  mem_flatMap.2 ⟨body.block block,
    mem_of_getElem? (block_found (within_of_instr found)), mem_of_getElem? found⟩

end

variable {other : Nat}

theorem SingleAssignment.not_earlier (single : body.SingleAssignment) (member : value ∈
    (body.block block).instrs)
    (again : value ∈ (body.block other).instrs) : ¬ block < other := by
  intro earlier
  obtain ⟨place, found⟩ := mem_iff_getElem?.1 again
  have inside := within_of_instr found
  have within : block < body.blocks.length := Nat.lt_trans earlier inside
  have apart := (nodup_flatMap.1 single.once).2
  have disjoint := pairwise_iff_getElem.1 apart block other within inside earlier
  have first := (List.getElem?_eq_some_iff.1 (block_found within)).2
  have second := (List.getElem?_eq_some_iff.1 (block_found inside)).2
  apply disjoint (a := value)
  · rw [first]
    exact member
  · rw [second]
    exact again

variable {place : Nat}

theorem SingleAssignment.listed_unique (single : body.SingleAssignment)
    (found : (body.block block).instrs[position]? = some value)
    (again : (body.block other).instrs[place]? = some value) :
    block = other ∧ position = place := by
  have member := mem_of_getElem? found
  have inside := mem_of_getElem? again
  have same : block = other := by
    have first := single.not_earlier member inside
    have second := single.not_earlier inside member
    omega
  subst same
  have distinct := (nodup_flatMap.1 single.once).1 (body.block block)
    (mem_of_getElem? (block_found (within_of_instr found)))
  refine ⟨rfl, ?_⟩
  rw [← again] at found
  exact (getElem?_inj (List.getElem?_eq_some_iff.1 (again ▸ found)).1 distinct).1 found

theorem instr_of_listed (valid : body.validate = .ok ())
    (found : (body.block block).instrs[position]? = some value) :
    ∃ op args classes, body.values[value]? = some (.instr op args classes) := by
  obtain ⟨op, args, classes, placed⟩ := placed_of_validate valid (listed_of_instr found)
  exact ⟨op, args, classes, placed.found⟩

variable {home : Nat}

/-- A value sits in one place. -/
theorem SingleAssignment.sits_unique (single : body.SingleAssignment)
    (valid : body.validate = .ok ())
    (sits : body.Sits value home place) (again : body.Sits value other position) :
    home = other ∧ place = position := by
  have apart : ∀ block home position : Nat, value ∈ (body.block block).params →
      (body.block home).instrs[position]? = some value → False := by
    intro block home position member found
    obtain ⟨index, received⟩ := mem_iff_getElem?.1 member
    obtain ⟨op, args, classes, listed⟩ := instr_of_listed valid found
    rw [single.received _ _ _ received] at listed
    cases listed
  cases sits with
  | received member =>
    cases again with
    | received inside =>
      obtain ⟨index, found⟩ := mem_iff_getElem?.1 member
      obtain ⟨other, inside⟩ := mem_iff_getElem?.1 inside
      have first := single.received _ _ _ found
      rw [single.received _ _ _ inside] at first
      cases first
      exact ⟨rfl, rfl⟩
    | listed found => exact (apart _ _ _ member found).elim
  | listed found =>
    cases again with
    | received member => exact (apart _ _ _ member found).elim
    | listed again =>
      obtain ⟨rfl, rfl⟩ := single.listed_unique found again
      exact ⟨rfl, rfl⟩

theorem Before.later {after : Nat}
    (before : body.Before value block position) (later : position ≤ after) :
    body.Before value block after := by
  obtain ⟨home, place, sits, ⟨same, bound⟩ | above⟩ := before
  · exact ⟨home, place, sits, Or.inl ⟨same, Nat.le_trans bound later⟩⟩
  · exact ⟨home, place, sits, Or.inr above⟩

variable {trail : List Nat}

theorem Before.trans {through : ValueId}
    (single : body.SingleAssignment) (valid : body.validate = .ok ())
    (listed : (body.block home).instrs[place]? = some through)
    (first : body.Before value home place) (second : body.Before through block position)
    (reached : body.Path trail block) : body.Before value block position := by
  obtain ⟨_, _, sits, stands⟩ := second
  obtain ⟨rfl, rfl⟩ := single.sits_unique valid (.listed listed) sits
  rcases stands with ⟨rfl, bound⟩ | ⟨away, above⟩
  · exact first.later (Nat.le_of_succ_le bound)
  · obtain ⟨top, start, held, ⟨rfl, -⟩ | ⟨apart, upper⟩⟩ := first
    · exact ⟨top, start, held, Or.inr ⟨away, above⟩⟩
    · refine ⟨top, start, held, Or.inr ⟨?_, upper.trans above⟩⟩
      rintro rfl
      exact away (above.antisymm upper reached)

theorem place_of_listed (listed : value ∈ body.listed) :
    ∃ block position : Nat, (body.block block).instrs[position]? = some value := by
  obtain ⟨found, member, lists⟩ := mem_flatMap.1 listed
  obtain ⟨block, at_⟩ := mem_iff_getElem?.1 member
  obtain ⟨position, place⟩ := mem_iff_getElem?.1 lists
  refine ⟨block, position, ?_⟩
  have within := (List.getElem?_eq_some_iff.1 at_).1
  rw [block_found within] at at_
  rw [Option.some.inj at_]
  exact place

theorem Before.reached (single : body.SingleAssignment) (valid : body.validate = .ok ())
    (listed : (body.block home).instrs[place]? = some value)
    (before : body.Before value block position) (reached : body.Path trail block) :
    ∃ earlier, body.Path earlier home := by
  obtain ⟨_, _, sits, stands⟩ := before
  obtain ⟨rfl, rfl⟩ := single.sits_unique valid (.listed listed) sits
  rcases stands with ⟨rfl, -⟩ | ⟨away, above⟩
  · exact ⟨trail, reached⟩
  · obtain ⟨earlier, back, -⟩ := reached.back ((above trail reached).resolve_left away)
    exact ⟨earlier, back⟩

theorem Before.not_rebound {root : ValueId} (single : body.SingleAssignment) (valid :
    body.validate = .ok ())
    (bound : body.Sits root block position) (listed : (body.block home).instrs[place]? = some value)
    (first : body.Before root home place) (reached : body.Path trail block) :
    ¬ body.Before value block position := by
  rintro ⟨_, _, sits, stands⟩
  obtain ⟨rfl, rfl⟩ := single.sits_unique valid (.listed listed) sits
  obtain ⟨_, _, sits, origin⟩ := first
  obtain ⟨rfl, rfl⟩ := single.sits_unique valid bound sits
  rcases stands with ⟨rfl, after⟩ | ⟨away, above⟩
  · rcases origin with ⟨-, before⟩ | ⟨apart, -⟩
    · omega
    · exact apart rfl
  · rcases origin with ⟨same, -⟩ | ⟨-, upper⟩
    · exact away same.symm
    · exact away (above.antisymm upper reached)

theorem Before.next {last : ValueId} (listed : (body.block block).instrs[position]? = some last)
    (before : body.Before value block (position + 1)) :
    value = last ∨ body.Before value block position := by
  obtain ⟨home, place, sits, ⟨rfl, bound⟩ | above⟩ := before
  · rcases Nat.lt_or_eq_of_le bound with earlier | rfl
    · exact Or.inr ⟨home, place, sits, Or.inl ⟨rfl, Nat.le_of_lt_succ earlier⟩⟩
    · cases sits with
      | listed found =>
        left
        rw [listed] at found
        exact (Option.some.inj found).symm
  · exact Or.inr ⟨home, place, sits, Or.inr above⟩

theorem Before.entered {target : Nat}
    (along : target ∈ body.successors block) (before : body.Before value target 0) :
    value ∈ (body.block target).params ∨
      body.Before value block (body.block block).instrs.length := by
  obtain ⟨home, place, sits, ⟨rfl, bound⟩ | ⟨away, above⟩⟩ := before
  · cases sits with
    | received member => exact Or.inl member
    | listed found => cases bound
  · right
    by_cases same : home = block
    · subst same
      refine ⟨home, place, sits, Or.inl ⟨rfl, ?_⟩⟩
      cases sits with
      | received member => exact Nat.zero_le _
      | listed found => exact (List.getElem?_eq_some_iff.1 found).1
    · exact ⟨home, place, sits, Or.inr ⟨same, above.backward along away⟩⟩

/-- A bound value that the gate finds in scope is bound before its use. -/
theorem before_of_inScope (single : body.SingleAssignment) (valid : body.validate = .ok ()) (sits :
    body.Sits value home place)
    (inside : body.outOfScope body.dominance block position value = none) :
    body.Before value block position := by
  have gated := gated_of_validate valid
  have above : ∀ candidate, body.dominance.dominates block candidate →
      Above (fun v w => w ∈ body.successors v) body.entry candidate block :=
    fun candidate stated trail walked =>
      (body.dominates_closed gated.entered).on_walk walked stated
  refine ⟨home, place, sits, ?_⟩
  unfold outOfScope at inside
  cases sits with
  | received member =>
    obtain ⟨index, found⟩ := mem_iff_getElem?.1 member
    rw [single.received _ _ _ found] at inside
    dsimp only at inside
    by_cases same : home = block
    · exact Or.inl ⟨same, Nat.zero_le _⟩
    · split at inside
      · rename_i stands
        exact Or.inr ⟨same, above home (stands.resolve_left same)⟩
      · cases inside
  | listed found =>
    obtain ⟨op, args, classes, defined⟩ := instr_of_listed valid found
    rw [defined] at inside
    dsimp only at inside
    split at inside
    · cases inside
    · rename_i definedIn definedAt site
      obtain ⟨rfl, rfl⟩ := single.listed_unique found (listed_at_definitionSite site)
      split at inside
      · rename_i same
        split at inside
        · rename_i earlier
          exact Or.inl ⟨same, earlier⟩
        · cases inside
      · rename_i away
        split at inside
        · rename_i stated
          exact Or.inr ⟨away, above _ stated⟩
        · cases inside

end KernelBody

end LichenVm.KernelIr
