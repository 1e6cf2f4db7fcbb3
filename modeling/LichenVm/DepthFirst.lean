import Mathlib.Algebra.Order.Ring.Nat
import Mathlib.Data.List.Basic
import Mathlib.Data.List.Nodup

namespace LichenVm.DepthFirst

variable {V : Type}

/-- `v` reaches a hole. `items` is what each vertex holds: nothing, or the vertices its value
lists. -/
inductive Open (items : V → Option (List V)) : V → Prop
  | hole {v : V} (empty : items v = none) : Open items v
  | item {v w : V} {list : List V} (holds : items v = some list) (mem : w ∈ list)
      (rest : Open items w) : Open items v

/-- `w` is reached from `v`, in no step or more. -/
inductive Reaches (items : V → Option (List V)) : V → V → Prop
  | refl (v : V) : Reaches items v v
  | step {u v w : V} {list : List V} (path : Reaches items u v) (holds : items v = some list)
      (mem : w ∈ list) : Reaches items u w

variable [DecidableEq V]

/-- The depth-first tree so far: the ancestors each vertex was first met under, nearest
first. -/
abbrev SearchTree (V : Type) := V → Option (List V)

/-- Extend the tree from `v`, met under the ancestors `path`. -/
def explore (items : V → Option (List V)) : Nat → List V → SearchTree V → V → SearchTree V
  | 0, _, tree, _ => tree
  | fuel + 1, path, tree, v =>
    if (tree v).isSome then tree
    else ((items v).getD []).foldl (explore items fuel (v :: path))
      (Function.update tree v (some path))

section

variable (items : V → Option (List V)) (fuel : Nat)

include items fuel

section

variable (path : List V) (tree : SearchTree V)

include path tree

theorem explore_met (v : V) (h : (tree v).isSome) : explore items fuel path tree v = tree := by
  cases fuel with
  | zero => rfl
  | succ fuel => simp only [explore, h, if_true]

theorem foldl_explore_met (list : List V) (h : ∀ v ∈ list, (tree v).isSome) :
    list.foldl (explore items fuel path) tree = tree := by
  induction list with
  | nil => rfl
  | cons v list ih =>
    rw [List.foldl_cons, explore_met items fuel path tree v (h v (by simp))]
    exact ih fun w hw => h w (by simp [hw])

theorem explore_keeps (v w : V) (p : List V) (h : tree w = some p) :
    explore items fuel path tree v w = some p := by
  induction fuel generalizing path tree v with
  | zero => exact h
  | succ fuel ih =>
    have fold : ∀ (list : List V) (tree : SearchTree V), tree w = some p →
        list.foldl (explore items fuel (v :: path)) tree w = some p := by
      intro list
      induction list with
      | nil => exact fun _ h => h
      | cons u list ihl => exact fun tree h => ihl _ (ih (v :: path) tree u h)
    unfold explore
    split
    · exact h
    · rename_i fresh
      apply fold
      rw [Function.update_of_ne, h]
      intro same
      rw [same] at h
      simp [h] at fresh

end

theorem foldl_explore_keeps (path list : List V) (tree : SearchTree V) (w : V) (p : List V)
    (h : tree w = some p) : list.foldl (explore items fuel path) tree w = some p := by
  induction list generalizing tree with
  | nil => exact h
  | cons v list ih => exact ih _ (explore_keeps items fuel path tree v w p h)

theorem explore_fresh (path : List V) (tree : SearchTree V) (v : V) (h : tree v = none) :
    explore items (fuel + 1) path tree v =
      ((items v).getD []).foldl (explore items fuel (v :: path))
        (Function.update tree v (some path)) := by
  simp [explore, h]

end

end LichenVm.DepthFirst
