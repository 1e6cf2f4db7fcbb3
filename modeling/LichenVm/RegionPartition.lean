import LichenVm.Regions

/-! The components of a run hold each of its nodes once, and the regions partition the claimed
nodes. -/

open List

namespace LichenVm.FusionClaim

open KernelIr (KernelFragment)
open GraphIr (Graph KernelNode Count ValueId)

/-- Some node of the first list comes before every node of the second. -/
def Precedes (one other : List Nat) : Prop := ∃ begins ∈ one, ∀ position ∈ other, begins < position

/-- The roots that the joins leave come in the order in which their components begin. -/
def RootsFollow (graph : Graph) (run : List Nat) (dataEdgeJoins : Count → Count → Bool) : Prop :=
  let name := HalvedForest.renamed (edges graph run dataEdgeJoins) id
  ∀ first < run.length, ∀ second < run.length, name first < name second →
    ∃ begins < run.length, name begins = name first ∧
      ∀ other < run.length, name other = name second → begins < other

section Components

variable {graph : Graph} {run : List Nat} {dataEdgeJoins : Count → Count → Bool}

theorem named_eq : named graph run dataEdgeJoins = run.zipIdx.map fun entry =>
      (entry.1, HalvedForest.renamed (edges graph run dataEdgeJoins) id entry.2) := by
  rw [named, HalvedForest.roots_joined, zipIdx_eq_zip_range', ← range_eq_range',
    ← map_id run, zip_map, map_id]
  rfl

theorem named_fst : (named graph run dataEdgeJoins).map Prod.fst = run := by
  rw [named_eq, map_map]
  exact zipIdx_map_fst 0 run

theorem mem_named {entry : Nat × Nat} : entry ∈ named graph run dataEdgeJoins ↔
    ∃ index, run[index]? = some entry.1 ∧
      HalvedForest.renamed (edges graph run dataEdgeJoins) id index = entry.2 := by
  rw [named_eq, mem_map]
  constructor
  · rintro ⟨held, member, rfl⟩
    exact ⟨held.2, mem_zipIdx_iff_getElem?.1 member, rfl⟩
  · rintro ⟨index, found, same⟩
    exact ⟨(entry.1, index), mem_zipIdx_iff_getElem?.2 found, Prod.ext rfl same⟩

theorem mem_flatten_components {position : Nat} :
    position ∈ (components graph run dataEdgeJoins).flatten ↔ position ∈ run := by
  unfold components
  split
  · cases run with
    | nil => simp
    | cons first rest => simp
  · rw [KeyGroups.mem_flatten_groups, named_fst]

theorem nodup_flatten_components (distinct : run.Nodup) :
    (components graph run dataEdgeJoins).flatten.Nodup := by
  unfold components
  split
  · cases run with
    | nil => simp
    | cons first rest => simpa using distinct
  · refine KeyGroups.nodup_flatten_groups ?_
    rw [named_fst]
    exact distinct

theorem component_sublist {component : List Nat} (member : component ∈ components graph run dataEdgeJoins) :
    component.Sublist run ∧ component ≠ [] := by
  unfold components at member
  split at member
  · cases run with
    | nil => cases member
    | cons first rest =>
      obtain rfl := mem_singleton.1 member
      exact ⟨.refl _, cons_ne_nil _ _⟩
  · obtain ⟨key, held, rfl⟩ := mem_map.1 member
    refine ⟨?_, KeyGroups.group_ne_nil held⟩
    have inside := @KeyGroups.group_sublist _ _ _ (named graph run dataEdgeJoins) key
    rwa [named_fst] at inside

theorem getElem?_lt {ascending : run.Pairwise (· < ·)} {first second p q : Nat}
    (found : run[first]? = some p) (found' : run[second]? = some q) : p < q ↔ first < second := by
  obtain ⟨inside, rfl⟩ := List.getElem?_eq_some_iff.1 found
  obtain ⟨inside', rfl⟩ := List.getElem?_eq_some_iff.1 found'
  exact ascending.sortedLT.getElem_lt_getElem_iff

/-- The components are listed as they begin exactly if their roots are. -/
theorem components_precede (ascending : run.Pairwise (· < ·)) :
    (components graph run dataEdgeJoins).Pairwise Precedes ↔ RootsFollow graph run dataEdgeJoins := by
  unfold components
  split
  · next short =>
    have alone : ∀ index < run.length, index = 0 := fun index inside => by omega
    refine ⟨fun _ first inside second inside' less => ?_, fun _ => ?_⟩
    · rw [alone first inside, alone second inside'] at less
      exact absurd less (Nat.lt_irrefl _)
    · cases run with
      | nil => exact .nil
      | cons first rest => exact pairwise_singleton _ _
  rw [KeyGroups.groups_pairwise]
  constructor
  · intro precedes first inside second inside' less
    obtain ⟨begins, member, before⟩ := precedes
      (run[first], _) (mem_named.2 ⟨first, getElem?_eq_getElem inside, rfl⟩)
      (run[second], _) (mem_named.2 ⟨second, getElem?_eq_getElem inside', rfl⟩) less
    obtain ⟨index, found, same⟩ := mem_named.1 (KeyGroups.mem_group.1 member)
    refine ⟨index, (List.getElem?_eq_some_iff.1 found).1, same, fun other inside'' same' => ?_⟩
    have listed := before run[other] (KeyGroups.mem_group.2
      (mem_named.2 ⟨other, getElem?_eq_getElem inside'', same'⟩))
    exact (@getElem?_lt run ascending _ _ _ _ found (getElem?_eq_getElem inside'')).1 listed
  · intro follows first member second member' less
    obtain ⟨index, found, same⟩ := mem_named.1 member
    obtain ⟨index', found', same'⟩ := mem_named.1 member'
    obtain ⟨begins, inside, named, before⟩ := follows index (List.getElem?_eq_some_iff.1 found).1
      index' (List.getElem?_eq_some_iff.1 found').1 (by rw [same, same']; exact less)
    refine ⟨run[begins], KeyGroups.mem_group.2
      (mem_named.2 ⟨begins, getElem?_eq_getElem inside, named.trans same⟩), ?_⟩
    intro position listed
    obtain ⟨other, found'', same''⟩ := mem_named.1 (KeyGroups.mem_group.1 listed)
    refine (@getElem?_lt run ascending _ _ _ _ (getElem?_eq_getElem inside) found'').2 ?_
    exact before other (List.getElem?_eq_some_iff.1 found'').1 (same''.trans same'.symm)

end Components

section Outputs

variable {graph : Graph}

theorem offsets_fold (nodes : List KernelNode) (starts : List Nat) (next : Nat) :
    nodes.foldl (fun starts node => (starts.1 ++ [starts.2], starts.2 + node.fragment.outputs))
        (starts, next) =
      (starts ++ (List.range nodes.length).map fun index =>
          next + ((nodes.take index).map fun node => node.fragment.outputs).sum,
        next + (nodes.map fun node => node.fragment.outputs).sum) := by
  induction nodes generalizing starts next with
  | nil => simp
  | cons node nodes ih =>
    rw [foldl_cons, ih]
    simp only [length_cons, range_succ_eq_map, map_cons, map_map, sum_cons,
      append_assoc, singleton_append, take_zero, map_nil, sum_nil,
      Nat.add_zero, Nat.add_assoc]
    rfl

theorem offsets_getD {position : Nat} (inside : position < graph.nodes.length) :
    (offsets graph).getD position 0 =
      graph.inputs + ((graph.nodes.take position).map fun node => node.fragment.outputs).sum := by
  rw [offsets, offsets_fold, nil_append, getD_eq_getElem?_getD, getElem?_map,
    getElem?_range inside]
  rfl

variable {value : ValueId}

/-- No two nodes produce one value. -/
theorem outputs_apart {first second : Nat} (made : value ∈ outputsAt graph first)
    (made' : value ∈ outputsAt graph second) : first = second := by
  have inside : ∀ {position : Nat}, value ∈ outputsAt graph position →
      ∃ node, graph.nodes[position]? = some node ∧ (offsets graph).getD position 0 ≤ value ∧
        (offsets graph).getD position 0 + node.fragment.outputs > value := by
    intro position made
    unfold outputsAt at made
    cases found : graph.nodes[position]? with
    | none =>
      rw [found] at made
      cases made
    | some node =>
      rw [found] at made
      obtain ⟨low, high⟩ := mem_range'_1.1 made
      exact ⟨node, rfl, low, high⟩
  have apart : ∀ {one other : Nat}, one < other → value ∈ outputsAt graph one →
      value ∈ outputsAt graph other → False := by
    intro one other less made made'
    obtain ⟨node, found, -, high⟩ := inside made
    obtain ⟨node', found', low, -⟩ := inside made'
    have bound := (List.getElem?_eq_some_iff.1 found').1
    rw [offsets_getD bound] at low
    rw [offsets_getD (less.trans bound)] at high
    -- What the nodes up to the first one produce is before what the second one does.
    have upTo : ((graph.nodes.take (one + 1)).map fun node => node.fragment.outputs).sum ≤
        ((graph.nodes.take other).map fun node => node.fragment.outputs).sum := by
      obtain ⟨more, rfl⟩ := Nat.exists_eq_add_of_le less
      have cut : graph.nodes.take (one + 1 + more) =
          graph.nodes.take (one + 1) ++ (graph.nodes.drop (one + 1)).take more := take_add
      rw [Nat.succ_eq_add_one, cut, map_append, sum_append]
      exact Nat.le_add_right _ _
    rw [take_add_one, found, Option.toList_some, map_append, sum_append,
      map_singleton, sum_singleton] at upTo
    omega
  rcases Nat.lt_trichotomy first second with less | same | more
  · exact absurd made' fun made' => apart less made made'
  · exact same
  · exact absurd made fun made => apart more made' made

theorem made_of_find {run : List (Nat × Nat)} {entry : Nat × Nat}
    (found : run.find? (fun entry => (outputsAt graph entry.1).contains value) = some entry) :
    value ∈ outputsAt graph entry.1 := by
  have hit := List.find?_some found
  exact contains_iff_mem.1 hit

theorem producerOf_eq_some {run : List Nat} (distinct : run.Nodup) {index : Nat} :
    producerOf graph run value = some index ↔
      ∃ position, run[index]? = some position ∧ value ∈ outputsAt graph position := by
  rw [producerOf, Option.map_eq_some_iff]
  constructor
  · rintro ⟨entry, found, rfl⟩
    have member := mem_reverse.1 (mem_of_find?_eq_some found)
    exact ⟨entry.1, mem_zipIdx_iff_getElem?.1 member, made_of_find found⟩
  · rintro ⟨position, found, made⟩
    have listed : (position, index) ∈ run.zipIdx.reverse :=
      mem_reverse.2 (mem_zipIdx_iff_getElem?.2 found)
    obtain ⟨entry, first⟩ : ∃ entry, run.zipIdx.reverse.find?
        (fun entry => (outputsAt graph entry.1).contains value) = some entry :=
      Option.isSome_iff_exists.1 (List.find?_isSome.2 ⟨_, listed, contains_iff_mem.2 made⟩)
    refine ⟨entry, first, ?_⟩
    have member := mem_zipIdx_iff_getElem?.1
      (mem_reverse.1 (mem_of_find?_eq_some first))
    have same := outputs_apart (made_of_find first) made
    rw [same] at member
    obtain ⟨inside, -⟩ := List.getElem?_eq_some_iff.1 member
    exact (getElem?_inj inside distinct).1 (member.trans found.symm)

end Outputs

section Consumers

variable {graph : Graph} {component : List Nat}

/-- How often a node reads what another one produced. -/
def readings (graph : Graph) (producer consumer : Nat) : Nat :=
  ((readsAt graph consumer).filter fun value => (outputsAt graph producer).contains value).length

theorem consumers_getD {index : Nat} (inside : index < component.length) :
    (consumersWithin graph component).getD index [] =
      component.zipIdx.flatMap fun entry => (readsAt graph entry.1).filterMap fun value =>
        if producerOf graph component value = some index ∧ index < entry.2 then some entry.2 else none := by
  rw [consumersWithin, getD_eq_getElem?_getD, getElem?_map, getElem?_range inside]
  rfl

section

variable (distinct : component.Nodup)

include distinct

/-- A consumer is noted once for each of its reads of the producer. -/
theorem noted_eq {index producer : Nat} (found : component[index]? = some producer)
    (entry : Nat × Nat) :
    ((readsAt graph entry.1).filterMap fun value =>
        if producerOf graph component value = some index ∧ index < entry.2 then some entry.2 else none) =
      if index < entry.2 then List.replicate (readings graph producer entry.1) entry.2 else [] := by
  have makes : ∀ value, producerOf graph component value = some index ↔
      (outputsAt graph producer).contains value := by
    intro value
    rw [producerOf_eq_some distinct, contains_iff_mem]
    constructor
    · rintro ⟨position, found', made⟩
      cases found.symm.trans found'
      exact made
    · exact fun made => ⟨producer, found, made⟩
  by_cases later : index < entry.2
  · rw [if_pos later, readings]
    induction readsAt graph entry.1 with
    | nil => rfl
    | cons value values ih =>
      by_cases made : (outputsAt graph producer).contains value
      · rw [filterMap_cons, filter_cons, if_pos ⟨(makes value).2 made, later⟩, if_pos made,
          length_cons, replicate_succ, ih]
      · rw [filterMap_cons, filter_cons, if_neg fun held => made ((makes value).1 held.1),
          if_neg made, ih]
  · rw [if_neg later, filterMap_eq_nil_iff]
    exact fun value _ => if_neg fun held => later held.2

theorem mem_consumers {index producer consumer : Nat} (found : component[index]? = some producer)
    (noted : consumer ∈ (consumersWithin graph component).getD index []) :
    index < consumer ∧ consumer < component.length := by
  rw [consumers_getD (List.getElem?_eq_some_iff.1 found).1] at noted
  obtain ⟨entry, member, noted⟩ := mem_flatMap.1 noted
  rw [noted_eq distinct found] at noted
  split at noted
  · next later =>
    obtain rfl := eq_of_mem_replicate noted
    exact ⟨later, (List.getElem?_eq_some_iff.1 (mem_zipIdx_iff_getElem?.1 member)).1⟩
  · cases noted

/-- The consumers of a producer are noted once each exactly if each reads it once. -/
theorem nodup_consumers {index producer : Nat} (found : component[index]? = some producer) :
    ((consumersWithin graph component).getD index []).Nodup ↔
      ∀ place consumer, component[place]? = some consumer → index < place →
        readings graph producer consumer ≤ 1 := by
  rw [consumers_getD (List.getElem?_eq_some_iff.1 found).1, nodup_flatMap]
  constructor
  · rintro ⟨each, -⟩ place consumer listed later
    have once := each (consumer, place) (mem_zipIdx_iff_getElem?.2 listed)
    rw [noted_eq distinct found, if_pos later] at once
    exact nodup_replicate.1 once
  · intro once
    constructor
    · intro entry member
      rw [noted_eq distinct found]
      split
      · next later =>
        exact nodup_replicate.2 (once entry.2 entry.1 (mem_zipIdx_iff_getElem?.1 member) later)
      · exact nodup_nil
    · have places : (component.zipIdx.map Prod.snd).Nodup := by
        rw [zipIdx_map_snd]
        exact nodup_range'
      refine (pairwise_map.1 places).imp fun {first second} apart => ?_
      have noted : ∀ (entry : Nat × Nat) (place : Nat), place ∈ ((readsAt graph entry.1).filterMap
          fun value => if producerOf graph component value = some index ∧ index < entry.2 then
            some entry.2 else none) → place = entry.2 := by
        intro entry place member
        rw [noted_eq distinct found] at member
        split at member
        · exact eq_of_mem_replicate member
        · cases member
      exact disjoint_left.2 fun place member member' =>
        apart ((noted first place member).symm.trans (noted second place member'))

end

end Consumers

section Groups

variable {graph : Graph}

/-- Groups that hold the heads of each extent together, in the heads' own order. -/
structure Grouped (graph : Graph) (heads : List Nat) (groups : List (Count × List (List Nat))) :
    Prop where
  holds : ∀ entry ∈ groups,
    entry.2 = (heads.filter fun head => countAt graph head = entry.1).map fun head => [head]
  distinct : (groups.map Prod.fst).Nodup
  covers : ∀ head ∈ heads, countAt graph head ∈ groups.map Prod.fst

theorem addBranch_fst (count : Count) (branch : List Nat) (groups : List (Count × List (List Nat))) :
    (addBranch count branch groups).map Prod.fst =
      if count ∈ groups.map Prod.fst then groups.map Prod.fst else groups.map Prod.fst ++ [count] := by
  induction groups with
  | nil => rfl
  | cons entry groups ih =>
    have fsts : (entry :: groups).map Prod.fst = entry.1 :: groups.map Prod.fst := rfl
    rw [addBranch, fsts]
    by_cases same : entry.1 = count
    · rw [if_pos same, if_pos (mem_cons.2 (.inl same.symm))]
      rfl
    · rw [if_neg same, map_cons, ih]
      by_cases held : count ∈ groups.map Prod.fst
      · rw [if_pos held, if_pos (mem_cons_of_mem _ held)]
      · rw [if_neg held, if_neg fun member => (mem_cons.1 member).elim (fun at_ => same at_.symm) held]
        rfl

variable {groups : List (Count × List (List Nat))}

theorem mem_addBranch {count : Count} {branch : List Nat} (distinct : (groups.map Prod.fst).Nodup)
    {entry : Count × List (List Nat)} (member : entry ∈ addBranch count branch groups) :
    (entry ∈ groups ∧ entry.1 ≠ count) ∨ (∃ held, (count, held) ∈ groups ∧ entry = (count, held ++ [branch])) ∨
      (count ∉ groups.map Prod.fst ∧ entry = (count, [branch])) := by
  induction groups with
  | nil => exact .inr (.inr ⟨not_mem_nil, mem_singleton.1 member⟩)
  | cons first groups ih =>
    obtain ⟨fresh, distinct⟩ := nodup_cons.1 distinct
    rw [addBranch] at member
    by_cases same : first.1 = count
    · rw [if_pos same] at member
      rcases mem_cons.1 member with rfl | member
      · exact .inr (.inl ⟨first.2, mem_cons.2 (.inl (Prod.ext same.symm rfl)), Prod.ext same rfl⟩)
      · refine .inl ⟨mem_cons_of_mem _ member, fun again => fresh ?_⟩
        rw [same, ← again]
        exact mem_map_of_mem member
    · rw [if_neg same] at member
      rcases mem_cons.1 member with rfl | member
      · exact .inl ⟨mem_cons_self, same⟩
      · rcases ih distinct member with ⟨old, other⟩ | ⟨held, old, equal⟩ | ⟨absent, equal⟩
        · exact .inl ⟨mem_cons_of_mem _ old, other⟩
        · exact .inr (.inl ⟨held, mem_cons_of_mem _ old, equal⟩)
        · refine .inr (.inr ⟨fun held => ?_, equal⟩)
          exact (mem_cons.1 held).elim (fun at_ => same at_.symm) absent

/-- A branch more keeps the groups. -/
theorem Grouped.add {heads : List Nat} (grouped : Grouped graph heads groups) (head : Nat) :
    Grouped graph (heads ++ [head]) (addBranch (countAt graph head) [head] groups) where
  holds entry member := by
    rw [filter_append, map_append]
    rcases mem_addBranch grouped.distinct member with ⟨old, other⟩ | ⟨held, old, rfl⟩ | ⟨absent, rfl⟩
    · rw [grouped.holds entry old, filter_cons_of_neg (by simpa using fun same => other same.symm),
        filter_nil, map_nil, append_nil]
    · have before := grouped.holds _ old
      rw [filter_cons_of_pos (by simp)]
      exact congrArg (· ++ [[head]]) before
    · have before : (heads.filter fun other => countAt graph other = countAt graph head) = [] := by
        rw [filter_eq_nil_iff]
        intro other member same
        exact absent (of_decide_eq_true same ▸ grouped.covers other member)
      rw [filter_cons_of_pos (by simp)]
      exact (congrArg (fun held => held.map (fun head => [head]) ++ [[head]]) before).symm
  distinct := by
    rw [addBranch_fst]
    split
    · exact grouped.distinct
    · next absent =>
      exact nodup_append.2 ⟨grouped.distinct, nodup_singleton _, fun one member other single same =>
        absent (by rw [← mem_singleton.1 single, ← same]; exact member)⟩
  covers other member := by
    rw [addBranch_fst]
    split
    · next held =>
      rcases mem_append.1 member with old | single
      · exact grouped.covers other old
      · rw [mem_singleton.1 single]
        exact held
    · rcases mem_append.1 member with old | single
      · exact mem_append_left _ (grouped.covers other old)
      · rw [mem_singleton.1 single]
        exact mem_append_right _ (mem_singleton.2 rfl)

theorem groupsByExtent_grouped (heads : List Nat) :
    ∃ groups, groupsByExtent graph (heads.map fun head => [head]) = groups.map Prod.snd ∧
      Grouped graph heads groups := by
  refine ⟨_, rfl, ?_⟩
  have whole : ∀ (before more : List Nat) (groups : List (Count × List (List Nat))),
      Grouped graph before groups → Grouped graph (before ++ more)
        ((more.map fun head => [head]).foldl (groupBranch graph) groups) := by
    intro before more
    induction more generalizing before with
    | nil =>
      intro groups grouped
      rw [append_nil]
      exact grouped
    | cons head more ih =>
      intro groups grouped
      have next := ih (before ++ [head]) _ (grouped.add head)
      rwa [append_assoc] at next
  exact whole [] heads [] ⟨fun entry member => (not_mem_nil member).elim, nodup_nil,
    fun head member => (not_mem_nil member).elim⟩

end Groups

end LichenVm.FusionClaim
