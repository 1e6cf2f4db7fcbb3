import Mathlib.Algebra.Order.Ring.Nat

/-! Folds of an associative and commutative operation that may be split and reordered. The value a
fold starts from need not be a unit: it is enough that the operation keeps it. -/

namespace LichenVm.Reassociation

/-- What a fold holds after each of its steps. -/
def folded {α : Type} (combine : α → α → α) (start : α) (element : Nat → α) : Nat → α
  | 0 => start
  | step + 1 => combine (folded combine start element step) (element step)

section Free

variable {α β : Type} {combine : α → α → α} {start : α}

theorem folded_congr {element other : Nat → α} {count : Nat}
    (same : ∀ step < count, element step = other step) :
    folded combine start element count = folded combine start other count := by
  induction count with
  | zero => rfl
  | succ count ih =>
    rw [folded, folded, ih fun step inside => same step (Nat.lt_succ_of_lt inside),
      same count (Nat.lt_succ_self count)]

theorem folded_map {combine' : β → β → β} (map : α → β)
    (carries : ∀ left right, map (combine left right) = combine' (map left) (map right))
    (element : Nat → α) (count : Nat) :
    map (folded combine start element count) =
      folded combine' (map start) (fun step => map (element step)) count := by
  induction count with
  | zero => rfl
  | succ count ih => rw [folded, folded, carries, ih]

end Free

section Reordered

variable {α : Type} {combine : α → α → α} {start : α} [assoc : Std.Associative combine]
  [comm : Std.Commutative combine] (kept : combine start start = start)

variable (combine) in
theorem combine_swap (first second third : α) :
    combine (combine first second) third = combine (combine first third) second := by
  rw [assoc.assoc, comm.comm second third, ← assoc.assoc]

include kept

variable (element : Nat → α)

theorem folded_absorbs (count : Nat) :
    combine (folded combine start element count) start = folded combine start element count := by
  induction count with
  | zero => exact kept
  | succ count ih => rw [folded, combine_swap combine, ih]

theorem folded_combine (element other : Nat → α) (count : Nat) :
    folded combine start (fun step => combine (element step) (other step)) count =
      combine (folded combine start element count) (folded combine start other count) := by
  induction count with
  | zero => exact kept.symm
  | succ count ih =>
    rw [folded, folded, folded, ih]
    calc combine (combine _ _) (combine (element count) (other count))
        = combine (combine (combine _ _) (element count)) (other count) := (assoc.assoc ..).symm
      _ = combine (combine (combine _ (element count)) _) (other count) := by
          rw [combine_swap combine _ _ (element count)]
      _ = combine (combine _ (element count)) (combine _ (other count)) := assoc.assoc ..

theorem folded_append (first second : Nat) :
    folded combine start element (first + second) = combine (folded combine start element first)
        (folded combine start (fun step => element (first + step)) second) := by
  induction second with
  | zero => exact (folded_absorbs kept element first).symm
  | succ second ih => rw [← Nat.add_assoc, folded, folded, ih, assoc.assoc]

omit assoc comm in
theorem folded_start (count : Nat) : folded combine start (fun _ => start) count = start := by
  induction count with
  | zero => rfl
  | succ count ih => rw [folded, ih, kept]

theorem folded_strided (lanes steps : Nat) : folded combine start (fun lane =>
        folded combine start (fun step => element (lane + lanes * step)) steps) lanes =
      folded combine start element (lanes * steps) := by
  induction steps with
  | zero => exact folded_start kept lanes
  | succ steps ih =>
    calc folded combine start (fun lane => combine
            (folded combine start (fun step => element (lane + lanes * step)) steps)
            (element (lane + lanes * steps))) lanes
        = combine (folded combine start element (lanes * steps))
            (folded combine start (fun lane => element (lane + lanes * steps)) lanes) := by
          rw [folded_combine kept, ih]
      _ = combine (folded combine start element (lanes * steps))
            (folded combine start (fun lane => element (lanes * steps + lane)) lanes) := by
          simp only [Nat.add_comm]
      _ = folded combine start element (lanes * (steps + 1)) := by
          rw [← folded_append kept, Nat.mul_succ]

end Reordered

end LichenVm.Reassociation
