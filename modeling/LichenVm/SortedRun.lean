import Mathlib.Algebra.Order.Ring.Nat
import Mathlib.Data.List.Sort
import Mathlib.Order.Basic

open List

namespace LichenVm.SortedRun

variable {α K : Type}

/-- Halve `[low, high)` down to the first position `before` rejects. The fuel bounds the
halvings. -/
def bisect (before : α → Bool) (items : List α) : Nat → Nat → Nat → Nat
  | 0, low, _ => low
  | fuel + 1, low, high =>
    if low < high then
      let middle := low + (high - low) / 2
      if (items[middle]?).any before then bisect before items fuel (middle + 1) high
      else bisect before items fuel low middle
    else low

/-- How many leading items `before` accepts, in a list that `before` splits in two. -/
def partitionPoint (before : α → Bool) (items : List α) : Nat :=
  bisect before items items.length 0 items.length

/-- An item `before` accepts has only accepted ones in front. -/
def Splits (before : α → Bool) (items : List α) : Prop :=
  items.Pairwise fun a b => before b = true → before a = true

section

variable {before : α → Bool} {items : List α} (splits : Splits before items)

include splits

theorem Splits.index {left right : Nat} {a b : α} (order : left ≤ right)
    (at_left : items[left]? = some a) (at_right : items[right]? = some b)
    (accepted : before b) : before a := by
  rcases Nat.lt_or_eq_of_le order with apart | rfl
  · obtain ⟨within, rfl⟩ := List.getElem?_eq_some_iff.1 at_left
    obtain ⟨within', rfl⟩ := List.getElem?_eq_some_iff.1 at_right
    exact pairwise_iff_getElem.1 splits left right within within' apart accepted
  · rw [at_left] at at_right
    rw [Option.some.inj at_right]
    exact accepted

/-- The bisection keeps everything below `low` accepted and everything from `high` rejected. -/
theorem bisect_spec (fuel : Nat) :
    ∀ low high, high - low ≤ fuel → low ≤ high → high ≤ items.length →
      (∀ (index : Nat) item, items[index]? = some item → index < low → before item) →
      (∀ (index : Nat) item, items[index]? = some item → high ≤ index → before item = false) →
      ∀ (index : Nat) item, items[index]? = some item →
        (before item ↔ index < bisect before items fuel low high) := by
  induction fuel with
  | zero =>
    intro low high bound order within below above index item found
    have same : high = low := by omega
    subst same
    refine ⟨fun accepted => ?_, fun less => below index item found less⟩
    by_contra outside
    have rejected := above index item found (Nat.le_of_not_lt outside)
    simp [rejected] at accepted
  | succ fuel ih =>
    intro low high bound order within below above index item found
    unfold bisect
    by_cases open_ : low < high
    · rw [if_pos open_]
      have middle : low + (high - low) / 2 < high := by omega
      have inside : low + (high - low) / 2 < items.length := lt_of_lt_of_le middle within
      have reads := getElem?_eq_getElem inside
      by_cases accepted : before (items[low + (high - low) / 2])
      · simp only [reads, Option.any_some, accepted, if_true]
        apply ih (low + (high - low) / 2 + 1) high (by omega) (by omega) within _ above index item found
        intro other held at_other less
        exact splits.index (Nat.le_of_lt_succ less) at_other reads accepted
      · simp only [reads, Option.any_some, accepted, if_false, Bool.false_eq_true]
        apply ih low (low + (high - low) / 2) (by omega) (by omega) (by omega) below _ index item found
        intro other held at_other least
        rw [Bool.eq_false_iff]
        exact fun holds => accepted (splits.index least reads at_other holds)
    · rw [if_neg open_]
      refine ⟨fun accepted => ?_, fun less => below index item found less⟩
      by_contra outside
      have rejected := above index item found (by omega)
      simp [rejected] at accepted

theorem partitionPoint_spec {index : Nat} {item : α} (found : items[index]? = some item) :
    before item ↔ index < partitionPoint before items := by
  apply bisect_spec splits items.length 0 items.length (by omega) (by omega) (le_refl _) _ _
    index item found
  · exact fun _ _ _ less => absurd less (Nat.not_lt_zero _)
  · intro other held at_other outside
    have within := (List.getElem?_eq_some_iff.1 at_other).1
    omega

end

section Key

variable [LinearOrder K] (key : α → K)

/-- The entries of one key: where the search lands, up to the next key. -/
def run (items : List α) (wanted : K) : List α :=
  (items.drop (partitionPoint (fun item => key item < wanted) items)).takeWhile
    fun item => key item = wanted

variable {items : List α}

section

variable (sorted : items.Pairwise fun a b => key a ≤ key b)

include sorted

theorem splits_of_sorted (wanted : K) : Splits (fun item => key item < wanted) items := by
  refine sorted.imp fun {a b} order less => ?_
  exact decide_eq_true (lt_of_le_of_lt order (of_decide_eq_true less))

theorem takeWhile_eq_filter {wanted : K} (least : ∀ item ∈ items, wanted ≤ key item) :
    items.takeWhile (fun item => key item = wanted) = items.filter fun item => key item = wanted := by
  induction items with
  | nil => rfl
  | cons item items ih =>
    rw [pairwise_cons] at sorted
    have rest := ih sorted.2 fun other member => least other (mem_cons_of_mem _ member)
    by_cases same : key item = wanted
    · rw [takeWhile_cons_of_pos (by simpa using same),
        filter_cons_of_pos (by simpa using same), rest]
    · have above : wanted < key item :=
        lt_of_le_of_ne (least item mem_cons_self) (Ne.symm same)
      rw [takeWhile_cons_of_neg (by simpa using same),
        filter_cons_of_neg (by simpa using same)]
      symm
      rw [filter_eq_nil_iff]
      intro other member equal
      have order := sorted.1 other member
      rw [of_decide_eq_true equal] at order
      exact absurd above (not_lt_of_ge order)

/-- The run of a key in a sorted list is all the list's entries of that key. -/
theorem run_eq_filter (wanted : K) :
    run key items wanted = items.filter fun item => key item = wanted := by
  have splits := splits_of_sorted key sorted wanted
  let point := partitionPoint (fun item => key item < wanted) items
  have front : ∀ item ∈ items.take point, ¬ key item = wanted := by
    intro item member same
    obtain ⟨index, found⟩ := mem_iff_getElem?.1 member
    rw [getElem?_take] at found
    split at found
    · rename_i less
      have below := (partitionPoint_spec splits found).2 less
      exact absurd same (ne_of_lt (of_decide_eq_true below))
    · cases found
  have back : ∀ item ∈ items.drop point, wanted ≤ key item := by
    intro item member
    obtain ⟨index, found⟩ := mem_iff_getElem?.1 member
    rw [getElem?_drop] at found
    by_contra below
    have less := (partitionPoint_spec splits found).1 (decide_eq_true (lt_of_not_ge below))
    change point + index < point at less
    omega
  calc run key items wanted
      = (items.drop point).filter fun item => key item = wanted :=
        takeWhile_eq_filter key (sorted.sublist (drop_sublist _ _)) back
    _ = (items.take point ++ items.drop point).filter fun item => key item = wanted := by
        rw [filter_append]
        have none : (items.take point).filter (fun item => key item = wanted) = [] :=
          filter_eq_nil_iff.2 fun item member => by simpa using front item member
        rw [none, nil_append]
    _ = items.filter fun item => key item = wanted := by rw [take_append_drop]

end

/-- Where a strictly increasing list holds `wanted`: where the search lands, if it is there. -/
def position (items : List K) (wanted : K) : Option Nat :=
  let point := partitionPoint (fun item => item < wanted) items
  if items[point]? = some wanted then some point else none

/-- The search finds the one slot that holds the wanted item. -/
theorem position_eq_some_iff {items : List K} (sorted : items.Pairwise (· < ·)) {wanted : K}
    {index : Nat} : position items wanted = some index ↔ items[index]? = some wanted := by
  have splits : Splits (fun item => item < wanted) items :=
    sorted.imp fun {a b} order less => decide_eq_true (lt_trans order (of_decide_eq_true less))
  have lands : items[index]? = some wanted →
      partitionPoint (fun item => item < wanted) items = index := by
    intro found
    obtain ⟨within, reads⟩ := List.getElem?_eq_some_iff.1 found
    have here := partitionPoint_spec splits found
    have notBefore : ¬ index < partitionPoint (fun item => item < wanted) items := by
      intro less
      exact absurd (of_decide_eq_true (here.2 less)) (lt_irrefl _)
    -- Whatever stands between the landing and the item is neither below it nor above.
    by_contra apart
    have less : partitionPoint (fun item => item < wanted) items < index := by omega
    have between := getElem?_eq_getElem (lt_trans less within)
    have below := pairwise_iff_getElem.1 sorted _ _ (lt_trans less within) within less
    rw [reads] at below
    have inside := (partitionPoint_spec splits between).1 (decide_eq_true below)
    exact absurd inside (lt_irrefl _)
  simp only [position]
  constructor
  · intro found
    split at found
    · next holds => exact Option.some.inj found ▸ holds
    · cases found
  · intro found
    rw [lands found, if_pos found]

/-- A sort by key. It is stable. -/
def sortByKey (items : List α) : List α := items.mergeSort fun a b => key a ≤ key b

variable (items : List α)

theorem sortByKey_perm : (sortByKey key items).Perm items := mergeSort_perm _ _

theorem sortByKey_sorted : (sortByKey key items).Pairwise fun a b => key a ≤ key b := by
  have sorted := @pairwise_mergeSort α (fun a b => decide (key a ≤ key b))
    (fun a b c => by simpa using le_trans) (fun a b => by simpa using le_total (key a) (key b)) items
  exact sorted.imp fun order => of_decide_eq_true order

theorem sortByKey_stable (wanted : K) :
    (sortByKey key items).filter (fun item => key item = wanted) =
      items.filter fun item => key item = wanted := by
  have equal : (items.filter fun item => key item = wanted).Pairwise
      fun a b => decide (key a ≤ key b) := by
    rw [pairwise_iff_forall_sublist]
    intro a b sub
    have left := of_mem_filter (sub.subset (by simp : a ∈ [a, b]))
    have right := of_mem_filter (sub.subset (by simp : b ∈ [a, b]))
    rw [decide_eq_true_eq, of_decide_eq_true left, of_decide_eq_true right]
  have inside := @sublist_mergeSort α (fun a b => decide (key a ≤ key b)) items
    (fun a b c => by simpa using le_trans) (fun a b => by simpa using le_total (key a) (key b)) _ equal
    filter_sublist
  have filtered := inside.filter fun item => decide (key item = wanted)
  rw [filter_filter] at filtered
  simp only [Bool.and_self] at filtered
  refine (filtered.eq_of_length_le ?_).symm
  exact le_of_eq ((sortByKey_perm key items).filter _).length_eq

theorem find?_run_sortByKey (wanted : K) (accepts : α → Bool) :
    (run key (sortByKey key items) wanted).find? accepts =
      items.find? fun item => decide (key item = wanted ∧ accepts item) := by
  rw [run_eq_filter key (sortByKey_sorted key items), sortByKey_stable, List.find?_filter]
  simp only [decide_eq_true_eq]

end Key

end LichenVm.SortedRun
