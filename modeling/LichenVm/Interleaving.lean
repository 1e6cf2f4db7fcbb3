import Mathlib.Data.List.Flatten
import Mathlib.Data.List.Perm.Basic

open List

namespace LichenVm.Interleaving

variable {α : Type}

/-- The items of several lists in one order that keeps the order of each list. -/
inductive Interleaves : List (List α) → List α → Prop
  | done {lists : List (List α)} (empty : ∀ list ∈ lists, list = []) : Interleaves lists []
  | take {before after : List (List α)} {item : α} {rest order : List α}
      (tail : Interleaves (before ++ rest :: after) order) :
      Interleaves (before ++ (item :: rest) :: after) (item :: order)

namespace Interleaves

variable {lists : List (List α)}

theorem flatten_nil (empty : ∀ list ∈ lists, list = []) : lists.flatten = [] := by
  apply flatten_eq_nil_iff.2
  exact empty

variable {order : List α}

theorem perm (interleaved : Interleaves lists order) : order.Perm lists.flatten := by
  induction interleaved with
  | done empty => rw [flatten_nil empty]
  | @take before after item rest order _ ih =>
    simp only [flatten_append, flatten_cons, cons_append] at ih ⊢
    exact (ih.cons item).trans perm_middle.symm

theorem filter (keep : α → Bool) (interleaved : Interleaves lists order) :
    Interleaves (lists.map (List.filter keep)) (order.filter keep) := by
  induction interleaved with
  | done empty =>
    apply done
    intro list member
    obtain ⟨source, within, rfl⟩ := mem_map.1 member
    rw [empty source within]
    rfl
  | @take before after item rest order _ ih =>
    simp only [map_append, map_cons] at ih ⊢
    by_cases kept : keep item
    · rw [filter_cons_of_pos kept, filter_cons_of_pos kept]
      exact take ih
    · rw [filter_cons_of_neg kept, filter_cons_of_neg kept]
      exact ih

/-- With every other list empty, the order is the one list's own. -/
theorem eq_flatten (interleaved : Interleaves lists order) :
    ∀ {before after : List (List α)} {only : List α}, lists = before ++ only :: after →
      (∀ list ∈ before, list = []) → (∀ list ∈ after, list = []) → order = lists.flatten := by
  induction interleaved with
  | done empty =>
    intro before after only split left right
    rw [flatten_nil empty]
  | @take first last item rest order tail ih =>
    intro before after only split left right
    -- the list an item was taken from is the one that is not empty
    have place : first.length = before.length := by
      have taken : (before ++ only :: after)[first.length]? = some (item :: rest) := by
        rw [← split]
        simp
      rcases Nat.lt_trichotomy first.length before.length with less | same | more
      · rw [getElem?_append_left less] at taken
        exact absurd (left _ (mem_of_getElem? taken)) (by simp)
      · exact same
      · rw [getElem?_append_right (by omega)] at taken
        obtain ⟨gap, offset⟩ : ∃ gap, first.length - before.length = gap + 1 :=
          ⟨first.length - before.length - 1, by omega⟩
        rw [offset, getElem?_cons_succ] at taken
        exact absurd (right _ (mem_of_getElem? taken)) (by simp)
    obtain ⟨sameFirst, sameRest⟩ := append_inj split place
    obtain ⟨sameOnly, sameLast⟩ := List.cons.inj sameRest
    have shorter := @ih before after rest (by rw [sameFirst, sameLast]) left right
    rw [shorter]
    have noneBefore : first.flatten = [] := by
      rw [sameFirst]
      exact flatten_nil left
    simp only [flatten_append, flatten_cons, noneBefore, nil_append, cons_append]

end Interleaves

/-- Items of which at most one list has any keep that list's order. -/
theorem filter_eq_of_single (keep : α → Bool) {lists : List (List α)} {order : List α}
    (interleaved : Interleaves lists order)
    (single : ∀ first last : Nat, first < last → ∀ left right,
      lists[first]? = some left → lists[last]? = some right →
        left.filter keep = [] ∨ right.filter keep = []) :
    order.filter keep = lists.flatten.filter keep := by
  have kept := interleaved.filter keep
  rw [filter_flatten]
  by_cases some : ∃ (place : Nat) (list : List α), lists[place]? = some list ∧ list.filter keep ≠ []
  · obtain ⟨place, list, held, holds⟩ := some
    obtain ⟨inside, rfl⟩ := List.getElem?_eq_some_iff.1 held
    refine @Interleaves.eq_flatten α _ _ kept ((lists.take place).map (List.filter keep))
      ((lists.drop (place + 1)).map (List.filter keep)) (lists[place].filter keep) ?_ ?_ ?_
    · rw [← map_cons, ← map_append, ← drop_eq_getElem_cons inside, take_append_drop]
    · intro other member
      obtain ⟨source, within, rfl⟩ := mem_map.1 member
      obtain ⟨index, bound, rfl⟩ := mem_iff_getElem.1 within
      rw [length_take] at bound
      rcases single index place (by omega) _ _ (getElem?_eq_getElem (by omega)) held
        with none | none
      · rw [getElem_take]
        exact none
      · exact absurd none holds
    · intro other member
      obtain ⟨source, within, rfl⟩ := mem_map.1 member
      obtain ⟨index, bound, rfl⟩ := mem_iff_getElem.1 within
      rw [length_drop] at bound
      rcases single place (place + 1 + index) (by omega) _ _ held
          (getElem?_eq_getElem (by omega)) with none | none
      · exact absurd none holds
      · rw [getElem_drop]
        exact none
  · have empty : ∀ list ∈ lists.map (List.filter keep), list = [] := by
      intro list member
      obtain ⟨source, within, rfl⟩ := mem_map.1 member
      obtain ⟨index, bound, rfl⟩ := mem_iff_getElem.1 within
      by_contra holds
      exact some ⟨index, _, getElem?_eq_getElem bound, holds⟩
    have nothing := kept.perm
    rw [Interleaves.flatten_nil empty] at nothing ⊢
    exact perm_nil.1 nothing

end LichenVm.Interleaving
