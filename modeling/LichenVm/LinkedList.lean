import Mathlib.Algebra.Order.Ring.Nat
import Mathlib.Data.List.Basic
import Mathlib.Data.List.Nodup

open List

namespace LinkedList

variable {K : Type}

/-- Each key's successor is the key behind it in the list, and the last has none. -/
def Linked (next : K → Option K) : List K → Prop
  | [] => True
  | key :: rest => next key = rest.head? ∧ Linked next rest

theorem Linked.congr {next next' : K → Option K} {members : List K}
    (same : ∀ key ∈ members, next' key = next key) (linked : Linked next members) :
    Linked next' members := by
  induction members with
  | nil => trivial
  | cons key rest ih =>
    refine ⟨?_, ih (fun other member => same other (mem_cons_of_mem _ member)) linked.2⟩
    rw [same key mem_cons_self]
    exact linked.1

theorem Linked.determined {next : K → Option K} {first second : List K} (one : Linked next first)
    (two : Linked next second) (same : first.head? = second.head?) : first = second := by
  induction first generalizing second with
  | nil =>
    cases second with
    | nil => rfl
    | cons _ _ => simp at same
  | cons key rest ih =>
    cases second with
    | nil => simp at same
    | cons other rest' =>
      obtain rfl : key = other := by simpa using same
      rw [ih one.2 two.2 (by rw [← one.1, ← two.1])]

section

variable {next : K → Option K} {members : List K} (linked : Linked next members)

include linked

theorem Linked.next_mem {key behind : K} (member : key ∈ members)
    (follows : next key = some behind) : behind ∈ members := by
  induction members with
  | nil => cases member
  | cons first rest ih =>
    rcases mem_cons.1 member with rfl | inside
    · rw [linked.1] at follows
      exact mem_cons_of_mem _ (mem_of_head? follows)
    · exact mem_cons_of_mem _ (ih linked.2 inside)

theorem Linked.drop (count : Nat) : Linked next (members.drop count) := by
  induction count generalizing members with
  | zero => exact linked
  | succ count ih =>
    cases members with
    | nil => trivial
    | cons key rest => exact ih linked.2

end

theorem Linked.append {next next' : K → Option K} (first second : List K) (last : K)
    (ends : first.getLast? = some last) (distinct : first.Nodup) (seam : next' last = second.head?)
    (same : ∀ key ∈ first, key ≠ last → next' key = next key) (one : Linked next first)
    (two : Linked next' second) : Linked next' (first ++ second) := by
  induction first with
  | nil => exact two
  | cons key rest ih =>
    cases rest with
    | nil =>
      obtain rfl : key = last := by simpa using ends
      exact ⟨seam, two⟩
    | cons other rest =>
      have behind : last ∈ other :: rest := mem_of_getLast? (by simpa using ends)
      have apart : key ≠ last := by
        rintro rfl
        exact (nodup_cons.1 distinct).1 behind
      refine ⟨?_, ih (by simpa using ends) (nodup_cons.1 distinct).2
        (fun k found => same k (mem_cons_of_mem _ found)) one.2⟩
      rw [same key mem_cons_self apart]
      exact one.1

end LinkedList
