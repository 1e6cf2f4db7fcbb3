import Mathlib.Data.List.Sort
import Mathlib.Data.List.Nodup
import Mathlib.Data.List.Dedup

/-! The groups of a list by a key, in the order of the keys. -/

open List

namespace KeyGroups

variable {α κ : Type} [LinearOrder κ]

/-- The keys, each once, in order. -/
def keys (pairs : List (α × κ)) : List κ :=
  ((pairs.map Prod.snd).insertionSort (· ≤ ·)).dedup

def group (pairs : List (α × κ)) (key : κ) : List α :=
  (pairs.filter fun pair => pair.2 = key).map Prod.fst

def groups (pairs : List (α × κ)) : List (List α) := (keys pairs).map (group pairs)

section Groups

variable {pairs : List (α × κ)}

theorem mem_group {key : κ} {item : α} : item ∈ group pairs key ↔ (item, key) ∈ pairs := by
  rw [group, mem_map]
  constructor
  · rintro ⟨pair, member, rfl⟩
    obtain ⟨member, same⟩ := mem_filter.1 member
    rw [← of_decide_eq_true same]
    exact member
  · intro member
    exact ⟨(item, key), mem_filter.2 ⟨member, decide_eq_true rfl⟩, rfl⟩

theorem mem_keys {key : κ} : key ∈ keys pairs ↔ ∃ item, (item, key) ∈ pairs := by
  rw [keys, mem_dedup, mem_insertionSort, mem_map]
  constructor
  · rintro ⟨pair, member, rfl⟩
    exact ⟨pair.1, member⟩
  · rintro ⟨item, member⟩
    exact ⟨_, member, rfl⟩

theorem keys_ascend : (keys pairs).Pairwise (· < ·) := by
  have sorted : (keys pairs).Pairwise (· ≤ ·) := by
    refine List.Pairwise.sublist (dedup_sublist _) ?_
    exact pairwise_insertionSort (· ≤ ·) (pairs.map Prod.snd)
  have distinct : (keys pairs).Nodup := nodup_dedup _
  exact (sorted.and distinct).imp fun held => lt_of_le_of_ne held.1 held.2

theorem mem_flatten_groups {item : α} : item ∈ (groups pairs).flatten ↔ item ∈ pairs.map Prod.fst := by
  rw [mem_flatten, mem_map]
  constructor
  · rintro ⟨_, listed, member⟩
    obtain ⟨key, -, rfl⟩ := mem_map.1 listed
    exact ⟨_, mem_group.1 member, rfl⟩
  · rintro ⟨pair, member, rfl⟩
    exact ⟨_, mem_map_of_mem (mem_keys.2 ⟨pair.1, member⟩), mem_group.2 member⟩

theorem group_sublist (key : κ) : (group pairs key).Sublist (pairs.map Prod.fst) :=
  filter_sublist.map Prod.fst

theorem group_ne_nil {key : κ} (member : key ∈ keys pairs) : group pairs key ≠ [] := by
  obtain ⟨item, held⟩ := mem_keys.1 member
  exact ne_nil_of_mem (mem_group.2 held)

theorem nodup_flatten_groups (distinct : (pairs.map Prod.fst).Nodup) : (groups pairs).flatten.Nodup := by
  rw [nodup_flatten]
  constructor
  · intro listed member
    obtain ⟨key, -, rfl⟩ := mem_map.1 member
    exact distinct.sublist (group_sublist key)
  · rw [groups, pairwise_map]
    refine keys_ascend.imp fun {first second} less => ?_
    intro item held held'
    have one := inj_on_of_nodup_map distinct (mem_group.1 held) (mem_group.1 held') rfl
    exact less.ne (congrArg Prod.snd one)

theorem pairwise_ascending {keys : List κ} (ascend : keys.Pairwise (· < ·)) {R : κ → κ → Prop} :
    keys.Pairwise R ↔ ∀ first ∈ keys, ∀ second ∈ keys, first < second → R first second := by
  induction keys with
  | nil => simp
  | cons key keys ih =>
    obtain ⟨below, ascend⟩ := pairwise_cons.1 ascend
    rw [pairwise_cons, ih ascend]
    constructor
    · rintro ⟨head, tail⟩ first member second member' less
      rcases mem_cons.1 member with rfl | member
      · rcases mem_cons.1 member' with rfl | member'
        · exact absurd less (lt_irrefl _)
        · exact head second member'
      · rcases mem_cons.1 member' with same | member'
        · exact absurd ((same ▸ less).trans (below first member)) (lt_irrefl _)
        · exact tail first member second member' less
    · intro each
      exact ⟨fun second member => each key mem_cons_self second (mem_cons_of_mem _ member)
          (below second member),
        fun first member second member' => each first (mem_cons_of_mem _ member) second
          (mem_cons_of_mem _ member')⟩

theorem groups_pairwise {R : List α → List α → Prop} :
    (groups pairs).Pairwise R ↔ ∀ first ∈ pairs, ∀ second ∈ pairs, first.2 < second.2 →
      R (group pairs first.2) (group pairs second.2) := by
  rw [groups, pairwise_map, pairwise_ascending keys_ascend]
  constructor
  · intro each first member second member' less
    exact each first.2 (mem_keys.2 ⟨first.1, member⟩) second.2 (mem_keys.2 ⟨second.1, member'⟩) less
  · intro each first member second member' less
    obtain ⟨item, held⟩ := mem_keys.1 member
    obtain ⟨item', held'⟩ := mem_keys.1 member'
    exact each (item, first) held (item', second) held' less

end Groups

end KeyGroups
