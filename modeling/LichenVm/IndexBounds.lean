import LichenVm.BarrierScan
import LichenVm.ComposeJoin
import Mathlib.Algebra.Order.BigOperators.Group.List

/-! The numbers an execution computes, against the intervals the barrier scan answers for them. -/

open Function

namespace LichenVm.KernelIr

open Worklist

namespace Interval

variable {Real : Type}

/-- A number lies between the bounds. A condition stands for either truth value. -/
def Holds (i : Interval) : Datum Real → Prop
  | .int bits => i.low ≤ bits.toNat ∧ bits.toNat ≤ i.high
  | .condition _ => i.low = 0 ∧ 1 ≤ i.high
  | .float _ => True

theorem holds_unbounded (datum : Datum Real) : unbounded.Holds datum := by
  cases datum with
  | int bits =>
    exact ⟨Nat.zero_le _, by show bits.toNat ≤ 2 ^ 64 - 1; omega⟩
  | float number => trivial
  | condition held => exact ⟨rfl, by show 1 ≤ 2 ^ 64 - 1; omega⟩

theorem holds_ofBool (held : Bool) : Holds ⟨0, 1⟩ (Datum.ofBool held : Datum Real) := by
  cases held with
  | false => exact ⟨le_refl _, Nat.zero_le _⟩
  | true => exact ⟨Nat.zero_le _, le_refl _⟩

variable {i j : Interval} {a b : BitVec 64}

section

variable (left : i.Holds (.int a : Datum Real)) (right : j.Holds (.int b : Datum Real))

include left right

theorem holds_plus : (i.plus j).Holds (.int (a + b) : Datum Real) := by
  unfold plus checked
  by_cases fits : i.low + j.low < 2 ^ 64 ∧ i.high + j.high < 2 ^ 64
  · rw [if_pos fits]
    show i.low + j.low ≤ (a + b).toNat ∧ (a + b).toNat ≤ i.high + j.high
    have low := left.1
    have high := left.2
    have low' := right.1
    have high' := right.2
    rw [BitVec.toNat_add, Nat.mod_eq_of_lt (by omega)]
    omega
  · rw [if_neg fits]
    exact holds_unbounded _

theorem holds_times : (i.times j).Holds (.int (a * b) : Datum Real) := by
  unfold times checked
  by_cases fits : i.low * j.low < 2 ^ 64 ∧ i.high * j.high < 2 ^ 64
  · rw [if_pos fits]
    show i.low * j.low ≤ (a * b).toNat ∧ (a * b).toNat ≤ i.high * j.high
    have least : i.low * j.low ≤ a.toNat * b.toNat := Nat.mul_le_mul left.1 right.1
    have most : a.toNat * b.toNat ≤ i.high * j.high := Nat.mul_le_mul left.2 right.2
    rw [BitVec.toNat_mul, Nat.mod_eq_of_lt (by omega)]
    exact ⟨least, most⟩
  · rw [if_neg fits]
    exact holds_unbounded _

end

theorem holds_quotient (left : i.Holds (.int a : Datum Real)) :
    i.quotient.Holds (.int (a / b) : Datum Real) := by
  have shrinks : (a / b).toNat ≤ a.toNat := by
    exact Nat.div_le_self a.toNat b.toNat
  exact ⟨Nat.zero_le _, le_trans shrinks left.2⟩

theorem holds_modulo {modulus : Option Nat} (known : ∀ m, modulus = some m → b.toNat = m)
    (left : i.Holds (.int a : Datum Real)) :
    (i.modulo modulus).Holds (.int (a % b) : Datum Real) := by
  have high := left.2
  have shrinks := Nat.mod_le a.toNat b.toNat
  have whole : (a % b).toNat ≤ i.high := by
    rw [BitVec.toNat_umod]
    omega
  cases modulus with
  | none => exact ⟨Nat.zero_le _, whole⟩
  | some m =>
    unfold modulo
    dsimp only
    by_cases positive : 0 < m
    · rw [if_pos positive]
      have within := Nat.mod_lt a.toNat positive
      have least : (a % b).toNat ≤ m - 1 := by
        rw [BitVec.toNat_umod, known m rfl]
        omega
      exact ⟨Nat.zero_le _, Nat.le_min.2 ⟨whole, least⟩⟩
    · rw [if_neg positive]
      exact ⟨Nat.zero_le _, whole⟩

section

variable (left : i.Holds (.int a : Datum Real)) (right : j.Holds (.int b : Datum Real))

include left right

theorem holds_larger : (i.larger j).Holds (.int (if b < a then a else b) : Datum Real) := by
  have low := left.1
  have high := left.2
  have low' := right.1
  have high' := right.2
  by_cases less : b < a
  · rw [if_pos less]
    show max i.low j.low ≤ a.toNat ∧ a.toNat ≤ max i.high j.high
    have less := BitVec.lt_def.1 less
    omega
  · rw [if_neg less]
    show max i.low j.low ≤ b.toNat ∧ b.toNat ≤ max i.high j.high
    have less := mt BitVec.lt_def.2 less
    omega

theorem holds_smaller : (i.smaller j).Holds (.int (if a < b then a else b) : Datum Real) := by
  have low := left.1
  have high := left.2
  have low' := right.1
  have high' := right.2
  by_cases less : a < b
  · rw [if_pos less]
    show min i.low j.low ≤ a.toNat ∧ a.toNat ≤ min i.high j.high
    have less := BitVec.lt_def.1 less
    omega
  · rw [if_neg less]
    show min i.low j.low ≤ b.toNat ∧ b.toNat ≤ min i.high j.high
    have less := mt BitVec.lt_def.2 less
    omega

end

theorem holds_join {datum : Datum Real} (left : i.Holds datum) : (i.join j).Holds datum := by
  cases datum with
  | int bits =>
    have low := left.1
    have high := left.2
    show min i.low j.low ≤ bits.toNat ∧ bits.toNat ≤ max i.high j.high
    omega
  | float number => trivial
  | condition held =>
    have low := left.1
    have high := left.2
    show min i.low j.low = 0 ∧ 1 ≤ max i.high j.high
    omega

theorem holds_join_right {datum : Datum Real} (right : j.Holds datum) : (i.join j).Holds datum := by
  have comm : i.join j = j.join i := by
    unfold join
    rw [Nat.min_comm, max_comm]
  rw [comm]
  exact holds_join right

end Interval

namespace KernelBody

/-- The bounds a scan may answer for a value, whatever it has bounded before. -/
inductive Bounds (body : KernelBody) : ValueId → Interval → Prop
  | unbounded (value : ValueId) : Bounds body value .unbounded
  | const {value : ValueId} {bits : BitVec 64} {args : List ValueId} {classes : List ScalarClass}
      (found : body.values[value]? = some (.instr (.const .int bits) args classes)) :
      Bounds body value ⟨bits.toNat, bits.toNat⟩
  | fixed {value : ValueId} {op : KernelInstr} {args : List ValueId} {classes : List ScalarClass}
      {answer : Interval} (found : body.values[value]? = some (.instr op args classes))
      (rule : body.boundRule op args = .fixed answer) : Bounds body value answer
  | one {value : ValueId} {op : KernelInstr} {args : List ValueId} {classes : List ScalarClass}
      {position : Nat} {answer : Interval → Interval} {left : Interval}
      (found : body.values[value]? = some (.instr op args classes))
      (rule : body.boundRule op args = .one position answer)
      (asked : ∀ arg, args[position]? = some arg → Bounds body arg left) :
      Bounds body value (answer left)
  | two {value : ValueId} {op : KernelInstr} {args : List ValueId} {classes : List ScalarClass}
      {first second : Nat} {answer : Interval → Interval → Interval} {left right : Interval}
      (found : body.values[value]? = some (.instr op args classes))
      (rule : body.boundRule op args = .two first second answer)
      (asked : ∀ arg, args[first]? = some arg → Bounds body arg left)
      (asked' : ∀ arg, args[second]? = some arg → Bounds body arg right) :
      Bounds body value (answer left right)

/-- Every bound of a memo is one the scan may answer. -/
def MemoBounds (body : KernelBody) (memo : IntervalMemo) : Prop :=
  ∀ value i, memo value = some i → body.Bounds value i

variable {body : KernelBody}

theorem MemoBounds.update {memo : IntervalMemo} (bounds : body.MemoBounds memo) {value : ValueId}
    {i : Interval} (own : body.Bounds value i) :
    body.MemoBounds (update memo value (some i)) := by
  intro other j found
  by_cases same : other = value
  · subst same
    rw [update_self] at found
    exact Option.some.inj found ▸ own
  · rw [update_of_ne same] at found
    exact bounds other j found

/-- What a bounding function answers, and the memo it leaves. -/
def Answers (body : KernelBody) (ask : ValueId → IntervalMemo → Interval × IntervalMemo) : Prop :=
  ∀ value memo, body.MemoBounds memo →
    body.Bounds value (ask value memo).1 ∧ body.MemoBounds (ask value memo).2

variable {ask : ValueId → IntervalMemo → Interval × IntervalMemo}

theorem operandBound_answers (answers : body.Answers ask) (args : List ValueId) (position : Nat)
    {memo : IntervalMemo} (bounds : body.MemoBounds memo) :
    (∀ arg, args[position]? = some arg → body.Bounds arg (operandBound ask args position memo).1) ∧
      body.MemoBounds (operandBound ask args position memo).2 := by
  unfold operandBound
  cases found : args[position]? with
  | none => exact ⟨fun arg absurd_ => (by cases absurd_), bounds⟩
  | some value =>
    have answered := answers value memo bounds
    exact ⟨fun arg same => Option.some.inj same ▸ answered.1, answered.2⟩

theorem definitionBound_answers (answers : body.Answers ask) :
    body.Answers (body.definitionBound ask) := by
  intro value memo bounds
  unfold definitionBound
  split
  · next found => exact ⟨.const found, bounds⟩
  · next op args classes _ found =>
    unfold intervalOf
    split
    · next rule => exact ⟨.fixed found rule, bounds⟩
    · next position _ rule =>
      have left := operandBound_answers answers args position bounds
      exact ⟨.one found rule left.1, left.2⟩
    · next first second _ rule =>
      have left := operandBound_answers answers args first bounds
      have right := operandBound_answers answers args second left.2
      exact ⟨.two found rule left.1 right.1, right.2⟩
  · exact ⟨.unbounded value, bounds⟩

theorem intervalFrom_answers (fuel : Nat) : body.Answers (body.intervalFrom fuel) := by
  induction fuel with
  | zero => exact fun value memo bounds => ⟨.unbounded value, bounds⟩
  | succ fuel ih =>
    intro value memo bounds
    unfold intervalFrom
    cases known : memo value with
    | some i => exact ⟨bounds value i known, bounds⟩
    | none =>
      have answered := definitionBound_answers ih value _ (bounds.update (.unbounded value))
      exact ⟨answered.1, answered.2.update answered.1⟩

theorem interval_answers : body.Answers body.interval :=
  intervalFrom_answers _

section Fuel

/-- How many values of the table are not bounded yet. -/
def unknown (body : KernelBody) (memo : IntervalMemo) : Nat :=
  unpushed body.values.length (fun _ => [0]) fun value => (memo value).isSome

def Keeps (ask : ValueId → IntervalMemo → Interval × IntervalMemo) : Prop :=
  ∀ value memo other, (memo other).isSome → ((ask value memo).2 other).isSome

theorem operandBound_keeps (keeps : Keeps ask) (args : List ValueId) (position : Nat)
    (memo : IntervalMemo) (other : ValueId) (known : (memo other).isSome) :
    ((operandBound ask args position memo).2 other).isSome := by
  unfold operandBound
  split
  · exact keeps _ memo other known
  · exact known

theorem definitionBound_keeps (keeps : Keeps ask) : Keeps (body.definitionBound ask) := by
  intro value memo other known
  unfold definitionBound
  split
  · exact known
  · unfold intervalOf
    split
    · exact known
    · exact operandBound_keeps keeps _ _ _ _ known
    · exact operandBound_keeps keeps _ _ _ _ (operandBound_keeps keeps _ _ _ _ known)
  · exact known

theorem intervalFrom_keeps (fuel : Nat) : Keeps (body.intervalFrom fuel) := by
  induction fuel with
  | zero => exact fun _ _ _ known => known
  | succ fuel ih =>
    intro value memo other known
    have kept {memo : IntervalMemo} (i : Interval) (known : (memo other).isSome) :
        (update memo value (some i) other).isSome := by
      by_cases same : other = value
      · rw [same, update_self]
        rfl
      · rw [update_of_ne same]
        exact known
    unfold intervalFrom
    split
    · exact known
    · exact kept _ (definitionBound_keeps ih value _ other (kept _ known))

theorem unknown_mono {memo after : IntervalMemo}
    (keeps : ∀ other, (memo other).isSome → (after other).isSome) :
    body.unknown after ≤ body.unknown memo := by
  unfold unknown unpushed
  apply List.sum_le_sum
  intro value _
  by_cases known : (memo value).isSome
  · rw [if_pos known, if_pos (keeps value known)]
  · rw [if_neg known]
    by_cases later : (after value).isSome
    · rw [if_pos later]
      omega
    · rw [if_neg later]

theorem unknown_update {memo : IntervalMemo} {value : ValueId} (i : Interval)
    (within : value < body.values.length) (fresh : memo value = none) :
    body.unknown (update memo value (some i)) + 1 = body.unknown memo := by
  have marked : (fun other => (update memo value (some i) other).isSome) =
      update (fun other => (memo other).isSome) value true := by
    funext other
    by_cases same : other = value
    · subst same
      rw [update_self, update_self]
      rfl
    · rw [update_of_ne same, update_of_ne same]
  unfold unknown
  rw [marked]
  exact unpushed_update _ _ _ value within (by rw [fresh]; rfl)

/-- Two bounding functions that agree wherever at most so many values are not bounded. -/
def Agree (body : KernelBody) (room : Nat)
    (ask ask' : ValueId → IntervalMemo → Interval × IntervalMemo) : Prop :=
  ∀ value memo, body.unknown memo ≤ room → ask value memo = ask' value memo

variable {ask' : ValueId → IntervalMemo → Interval × IntervalMemo} {room : Nat}

theorem operandBound_congr (agree : body.Agree room ask ask') (args : List ValueId)
    (position : Nat) {memo : IntervalMemo} (small : body.unknown memo ≤ room) :
    operandBound ask args position memo = operandBound ask' args position memo := by
  unfold operandBound
  split
  · exact agree _ memo small
  · rfl

theorem definitionBound_congr (agree : body.Agree room ask ask') (keeps : Keeps ask') :
    body.Agree room (body.definitionBound ask) (body.definitionBound ask') := by
  intro value memo small
  unfold definitionBound
  split
  · rfl
  · next args _ _ _ =>
    unfold intervalOf
    split
    · rfl
    · rw [operandBound_congr agree _ _ small]
    · next first _ _ _ =>
      have later := le_trans (unknown_mono (operandBound_keeps keeps args first memo)) small
      rw [operandBound_congr agree _ _ small]
      dsimp only
      rw [operandBound_congr agree _ _ later]
  · rfl

theorem intervalFrom_congr {fuel : Nat} : ∀ {more : Nat}, fuel ≤ more →
    ∀ value memo, body.unknown memo < fuel →
      body.intervalFrom fuel value memo = body.intervalFrom more value memo := by
  induction fuel with
  | zero => exact fun _ _ _ small => absurd small (Nat.not_lt_zero _)
  | succ fuel ih =>
    intro more within value memo small
    cases more with
    | zero => omega
    | succ more =>
      unfold intervalFrom
      split
      · rfl
      · next fresh =>
        have same : body.definitionBound (body.intervalFrom fuel) value
              (update memo value (some .unbounded)) =
            body.definitionBound (body.intervalFrom more) value
              (update memo value (some .unbounded)) := by
          by_cases listed : value < body.values.length
          · have fewer := unknown_update Interval.unbounded listed fresh
            cases fuel with
            | zero => omega
            | succ fuel =>
              have agree : body.Agree fuel (body.intervalFrom (fuel + 1))
                  (body.intervalFrom more) :=
                fun value memo small => ih (by omega) value memo (by omega)
              exact definitionBound_congr agree (intervalFrom_keeps more) value _ (by omega)
          · unfold definitionBound
            rw [List.getElem?_eq_none (not_lt.1 listed)]
        rw [same]

theorem intervalFrom_enough {fuel : Nat} (enough : body.values.length < fuel) (value : ValueId)
    (memo : IntervalMemo) : body.intervalFrom fuel value memo = body.interval value memo := by
  have most : body.unknown memo ≤ body.unknown fun _ => none :=
    unknown_mono fun _ known => by cases known
  have all : body.unknown (fun _ => none) = body.values.length := by
    simp [unknown, unpushed]
  have small : body.unknown memo < body.values.length + 1 := by omega
  unfold interval
  exact (intervalFrom_congr enough value memo small).symm

end Fuel

end KernelBody

end LichenVm.KernelIr
