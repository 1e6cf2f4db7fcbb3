import LichenVm.IndexBounds

/-! The intervals of a straight-line body do not depend on what the scan was asked before. -/

open Function

namespace LichenVm.KernelIr

namespace KernelBody

/-- A value that no instruction computes, or that one of the first so many a body lists does. -/
def Given (body : KernelBody) (count : Nat) (value : ValueId) : Prop :=
  value ∈ (body.block 0).instrs.take count ∨
    ∀ op args classes, body.values[value]? ≠ some (.instr op args classes)

/-- One block, with its instructions in an order that respects operands. -/
structure Straight (body : KernelBody) : Prop where
  one : body.blocks.length = 1
  entry : body.entry = 0
  ordered : ∀ (position : Nat) (value : ValueId) (op : KernelInstr) (args : List ValueId)
    (classes : List ScalarClass), (body.block 0).instrs[position]? = some value →
    body.values[value]? = some (.instr op args classes) → ∀ arg ∈ args, body.Given position arg

/-- The bound of a value, without a memo. -/
def boundFrom (body : KernelBody) : Nat → ValueId → Interval
  | 0, _ => .unbounded
  | fuel + 1, value =>
    (body.definitionBound (fun arg memo => (boundFrom body fuel arg, memo)) value
      fun _ => none).1

def boundOf (body : KernelBody) (value : ValueId) : Interval :=
  body.boundFrom ((body.block 0).instrs.length + 1) value

/-- A memo that answers what another does, or a value's bound. -/
def Settles (body : KernelBody) (before after : IntervalMemo) : Prop :=
  ∀ value, after value = before value ∨ after value = some (body.boundOf value)

variable {body : KernelBody} {value : ValueId}

theorem Given.mono {count more : Nat} (within : count ≤ more) (given : body.Given count value) :
    body.Given more value := by
  rcases given with listed | plain
  · exact .inl (List.take_subset_take_left _ within listed)
  · exact .inr plain

theorem Given.last {count : Nat} (given : body.Given (count + 1) value)
    (fresh : ¬ body.Given count value) :
    (body.block 0).instrs[count]? = some value ∧
      ∃ op args classes, body.values[value]? = some (.instr op args classes) := by
  rcases given with listed | plain
  · rw [List.take_add_one, List.mem_append] at listed
    rcases listed with earlier | last
    · exact absurd (.inl earlier) fresh
    · refine ⟨Option.mem_toList.1 last, ?_⟩
      by_contra plain
      exact fresh (.inr fun op args classes found => plain ⟨op, args, classes, found⟩)
  · exact absurd (.inr plain) fresh

theorem definitionBound_plain {ask : ValueId → IntervalMemo → Interval × IntervalMemo}
    (plain : ∀ op args classes, body.values[value]? ≠ some (.instr op args classes))
    (memo : IntervalMemo) : body.definitionBound ask value memo = (.unbounded, memo) := by
  unfold definitionBound
  split
  · next found => exact absurd found (plain _ _ _)
  · next found => exact absurd found (plain _ _ _)
  · rfl

theorem boundFrom_plain
    (plain : ∀ op args classes, body.values[value]? ≠ some (.instr op args classes)) (fuel : Nat) :
    body.boundFrom (fuel + 1) value = .unbounded := by
  unfold boundFrom
  rw [definitionBound_plain plain]

section Exact

variable {ask : ValueId → IntervalMemo → Interval × IntervalMemo} {given : ValueId → Interval}
  {R : IntervalMemo → Prop}

theorem operandBound_exact {args : List ValueId} (answers : ∀ arg ∈ args, ∀ memo, R memo →
      (ask arg memo).1 = given arg ∧ R (ask arg memo).2)
    (position : Nat) {memo : IntervalMemo} (holds : R memo) (other : IntervalMemo) :
    (operandBound ask args position memo).1 =
        (operandBound (fun arg memo => (given arg, memo)) args position other).1 ∧
      R (operandBound ask args position memo).2 := by
  unfold operandBound
  cases found : args[position]? with
  | none => exact ⟨rfl, holds⟩
  | some arg => exact answers arg (List.mem_of_getElem? found) memo holds

/-- Where the operands of an instruction are answered a given bound, so is the instruction. -/
theorem definitionBound_exact {value : ValueId} {op : KernelInstr} {args : List ValueId}
    {classes : List ScalarClass} (found : body.values[value]? = some (.instr op args classes))
    (answers : ∀ arg ∈ args, ∀ memo, R memo → (ask arg memo).1 = given arg ∧ R (ask arg memo).2)
    {memo : IntervalMemo} (holds : R memo) (other : IntervalMemo) :
    (body.definitionBound ask value memo).1 =
        (body.definitionBound (fun arg memo => (given arg, memo)) value other).1 ∧
      R (body.definitionBound ask value memo).2 := by
  unfold definitionBound
  rw [found]
  split
  · exact ⟨rfl, holds⟩
  · next same =>
    cases same
    unfold intervalOf
    split
    · exact ⟨rfl, holds⟩
    · next position answer _ =>
      have left := operandBound_exact answers position holds other
      exact ⟨congrArg answer left.1, left.2⟩
    · next first second answer _ =>
      have left := operandBound_exact answers first holds other
      have right := operandBound_exact answers second left.2 other
      dsimp only
      refine ⟨?_, right.2⟩
      rw [left.1, right.1]
      unfold operandBound
      split <;> rfl
  · next absent => exact absurd rfl (absent _ _ _)

end Exact

section Straight

variable (straight : body.Straight)
include straight

theorem Straight.boundFrom_eq {count : Nat} : ∀ {value : ValueId}, body.Given count value →
    ∀ {fuel more : Nat}, count < fuel → count < more →
      body.boundFrom fuel value = body.boundFrom more value := by
  induction count with
  | zero =>
    intro value given fuel more enough enough'
    obtain ⟨fuel, rfl⟩ := Nat.exists_eq_add_one_of_ne_zero (Nat.ne_of_gt enough)
    obtain ⟨more, rfl⟩ := Nat.exists_eq_add_one_of_ne_zero (Nat.ne_of_gt enough')
    rcases given with listed | plain
    · cases listed
    · rw [boundFrom_plain plain, boundFrom_plain plain]
  | succ count ih =>
    intro value given fuel more enough enough'
    by_cases earlier : body.Given count value
    · exact ih earlier (by omega) (by omega)
    · obtain ⟨at_, op, args, classes, found⟩ := given.last earlier
      obtain ⟨fuel, rfl⟩ : ∃ n, fuel = n + 1 := ⟨fuel - 1, by omega⟩
      obtain ⟨more, rfl⟩ : ∃ n, more = n + 1 := ⟨more - 1, by omega⟩
      refine (definitionBound_exact (R := fun _ => True) found
        (fun arg member memo _ => ⟨?_, trivial⟩) trivial _).1
      exact ih (straight.ordered count value op args classes at_ found arg member) (by omega)
        (by omega)

theorem Straight.boundOf_eq {position : Nat} {value : ValueId} {op : KernelInstr}
    {args : List ValueId} {classes : List ScalarClass}
    (at_ : (body.block 0).instrs[position]? = some value)
    (found : body.values[value]? = some (.instr op args classes)) (other : IntervalMemo) :
    body.boundOf value =
      (body.definitionBound (fun arg memo => (body.boundOf arg, memo)) value other).1 := by
  have within := (getElem?_eq_some_iff.1 at_).1
  refine (definitionBound_exact (R := fun _ => True) found
    (fun arg member memo _ => ⟨?_, trivial⟩) trivial _).1
  exact straight.boundFrom_eq (straight.ordered position value op args classes at_ found arg member)
    within (by omega)

/-- Asking for a given value answers its bound, and settles the memo. -/
theorem Straight.intervalFrom_eq {count : Nat} : ∀ {value : ValueId}, body.Given count value →
    ∀ {fuel : Nat}, count < fuel → ∀ {memo : IntervalMemo},
      (∀ other, body.Given count other → ∀ i, memo other = some i → i = body.boundOf other) →
      (body.intervalFrom fuel value memo).1 = body.boundOf value ∧
        body.Settles memo (body.intervalFrom fuel value memo).2 := by
  have met {value : ValueId} {memo : IntervalMemo} {i : Interval} {fuel : Nat}
      (known : memo value = some i) : body.intervalFrom (fuel + 1) value memo = (i, memo) := by
    unfold intervalFrom
    rw [known]
  induction count with
  | zero =>
    intro value given fuel enough memo holds
    obtain ⟨fuel, rfl⟩ := Nat.exists_eq_add_one_of_ne_zero (Nat.ne_of_gt enough)
    cases known : memo value with
    | some i =>
      rw [met known]
      exact ⟨holds value given i known, fun other => .inl rfl⟩
    | none =>
      rcases given with listed | plain
      · cases listed
      · have whole : body.boundOf value = .unbounded := boundFrom_plain plain _
        unfold intervalFrom
        rw [known]
        dsimp only
        rw [definitionBound_plain plain]
        refine ⟨whole.symm, fun other => ?_⟩
        by_cases same : other = value
        · rw [same, update_self, whole]
          exact .inr rfl
        · dsimp only
          rw [update_of_ne same, update_of_ne same]
          exact .inl rfl
  | succ count ih =>
    intro value given fuel enough memo holds
    by_cases earlier : body.Given count value
    · exact ih earlier (by omega) fun other before => holds other (before.mono (Nat.le_succ count))
    · obtain ⟨at_, op, args, classes, found⟩ := given.last earlier
      obtain ⟨fuel, rfl⟩ : ∃ n, fuel = n + 1 := ⟨fuel - 1, by omega⟩
      cases known : memo value with
      | some i =>
        rw [met known]
        exact ⟨holds value given i known, fun other => .inl rfl⟩
      | none =>
        have entered : body.Settles (update memo value (some .unbounded))
            (update memo value (some .unbounded)) := fun other => .inl rfl
        have answers : ∀ arg ∈ args, ∀ after,
            body.Settles (update memo value (some .unbounded)) after →
            (body.intervalFrom fuel arg after).1 = body.boundOf arg ∧
              body.Settles (update memo value (some .unbounded))
                (body.intervalFrom fuel arg after).2 := by
          intro arg member after kept
          have reads := straight.ordered count value op args classes at_ found arg member
          have right : ∀ other, body.Given count other → ∀ i, after other = some i →
              i = body.boundOf other := by
            intro other before i held
            rcases kept other with untouched | answered
            · have apart : other ≠ value := fun same => earlier (same ▸ before)
              rw [untouched, update_of_ne apart] at held
              exact holds other (before.mono (Nat.le_succ count)) i held
            · rw [answered] at held
              exact (Option.some.inj held).symm
          have asked := ih reads (Nat.lt_of_succ_lt_succ enough) right
          refine ⟨asked.1, fun other => ?_⟩
          rcases asked.2 other with untouched | answered
          · rw [untouched]
            exact kept other
          · exact .inr answered
        have settles := definitionBound_exact found answers entered fun _ => none
        rw [← straight.boundOf_eq at_ found] at settles
        unfold intervalFrom
        rw [known]
        refine ⟨settles.1, fun other => ?_⟩
        dsimp only
        by_cases same : other = value
        · rw [same, update_self, settles.1]
          exact .inr rfl
        · rw [update_of_ne same]
          rcases settles.2 other with untouched | answered
          · rw [update_of_ne same] at untouched
            exact .inl untouched
          · exact .inr answered

/-- Every answer of a memo for a given value is the value's bound. -/
def RightMemo (body : KernelBody) (memo : IntervalMemo) : Prop :=
  ∀ value, body.Given (body.block 0).instrs.length value → ∀ i, memo value = some i →
    i = body.boundOf value

theorem Straight.interval_eq {value : ValueId}
    (given : body.Given (body.block 0).instrs.length value) {memo : IntervalMemo}
    (right : body.RightMemo memo) :
    (body.interval value memo).1 = body.boundOf value ∧
      body.RightMemo (body.interval value memo).2 := by
  have enough : body.values.length < body.values.length + (body.block 0).instrs.length + 1 := by
    omega
  have deep : (body.block 0).instrs.length < body.values.length + (body.block 0).instrs.length + 1 :=
    by omega
  have asked := straight.intervalFrom_eq given deep right
  rw [intervalFrom_enough enough] at asked
  refine ⟨asked.1, fun other listed i held => ?_⟩
  rcases asked.2 other with untouched | answered
  · rw [untouched] at held
    exact right other listed i held
  · rw [answered] at held
    exact (Option.some.inj held).symm

end Straight

end KernelBody

end LichenVm.KernelIr
