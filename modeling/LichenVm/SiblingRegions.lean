import LichenVm.RegionPartition
import Mathlib.Data.List.Perm.Basic

/-! Where the regions of both strategies partition the claimed nodes. -/

open List

namespace LichenVm.FusionClaim

open KernelIr (KernelFragment)
open GraphIr (Graph Count ValueId)

/-- The sibling sets of a shared producer's branches: the groups of two or more. -/
def siblingSets (graph : Graph) (branches : List (List Nat)) : List (List (List Nat)) :=
  (groupsByExtent graph branches).filter fun group => 2 ≤ group.length

section Sets

variable {graph : Graph}

theorem flatten_heads (heads : List Nat) : (heads.map fun head => [head]).flatten = heads := by
  have single := flatMap_singleton' heads
  rwa [flatMap_def] at single

variable {set : List (List Nat)}

section

variable {heads : List Nat} (member : set ∈ siblingSets graph (heads.map fun head => [head]))

include member

theorem mem_siblingSets :
    ∃ count, set = (heads.filter fun head => countAt graph head = count).map fun head => [head] := by
  obtain ⟨groups, same, grouped⟩ := @groupsByExtent_grouped graph heads
  rw [siblingSets, same] at member
  obtain ⟨entry, listed, rfl⟩ := mem_map.1 (mem_filter.1 member).1
  exact ⟨entry.1, grouped.holds entry listed⟩

theorem siblingSets_sublist : set.flatten.Sublist heads := by
  obtain ⟨count, rfl⟩ := mem_siblingSets member
  rw [flatten_heads]
  exact filter_sublist

end

theorem siblingSets_ne_nil {branches : List (List Nat)}
    (member : set ∈ siblingSets graph branches) : 2 ≤ set.length :=
  of_decide_eq_true (mem_filter.1 member).2

/-- The nodes of the sibling sets are listed once each exactly if the branches are. -/
theorem nodup_siblingSets (heads : List Nat) :
    ((siblingSets graph (heads.map fun head => [head])).map List.flatten).flatten.Nodup ↔
      heads.Nodup := by
  obtain ⟨groups, same, grouped⟩ := @groupsByExtent_grouped graph heads
  constructor
  · intro once
    rw [nodup_iff_count_le_one]
    intro head
    by_contra twice
    have member : head ∈ heads := count_pos_iff.1 (by omega)
    obtain ⟨entry, listed, own⟩ := mem_map.1 (grouped.covers head member)
    have holds := grouped.holds entry listed
    -- Both copies of the head are in the group of its extent, which is then a sibling set.
    have count : (entry.2.flatten).count head = heads.count head := by
      rw [holds, flatten_heads]
      exact count_filter (by rw [own]; exact decide_eq_true rfl)
    have size : entry.2.length = entry.2.flatten.length := by
      rw [holds, flatten_heads, length_map]
    have set : entry.2 ∈ siblingSets graph (heads.map fun head => [head]) := by
      rw [siblingSets, same]
      refine mem_filter.2 ⟨mem_map_of_mem listed, decide_eq_true ?_⟩
      have bound := count_le_length (a := head) (l := entry.2.flatten)
      omega
    have each := (nodup_flatten.1 once).1 _ (mem_map_of_mem set)
    have single := nodup_iff_count_le_one.1 each head
    omega
  · intro distinct
    rw [nodup_flatten]
    constructor
    · intro listed member
      obtain ⟨set, held, rfl⟩ := mem_map.1 member
      exact distinct.sublist (siblingSets_sublist held)
    · rw [pairwise_map, siblingSets, same]
      refine List.Pairwise.sublist filter_sublist (pairwise_map.2 ?_)
      refine (List.Pairwise.and_mem.1 (pairwise_map.1 grouped.distinct)).imp
        fun {first second} held => disjoint_left.2 fun head inside inside' => ?_
      rw [grouped.holds first held.1, flatten_heads] at inside
      rw [grouped.holds second held.2.1, flatten_heads] at inside'
      have one := of_decide_eq_true (mem_filter.1 inside).2
      have other := of_decide_eq_true (mem_filter.1 inside').2
      exact held.2.2 (one.symm.trans other)

end Sets

section Components

variable {graph : Graph} {component : List Nat} {producer : Nat} {branches : List (List Nat)}

theorem sharedProducer_some (shared : sharedProducer graph component = some (producer, branches)) :
    ∃ index, component[index]? = some producer ∧
      branches = (((consumersWithin graph component).getD index []).map fun consumer =>
        component.getD consumer 0).map fun head => [head] := by
  obtain ⟨entry, member, holds⟩ := exists_of_findSome?_eq_some shared
  refine ⟨entry.2, ?_, ?_⟩
  · have found := mem_zipIdx_iff_getElem?.1 member
    dsimp only at holds
    split at holds
    · cases holds
    split at holds
    · cases holds
    · rw [← (Prod.mk.inj (Option.some.inj holds)).1]
      exact found
  · dsimp only at holds
    split at holds
    · cases holds
    split at holds
    · cases holds
    · rw [← (Prod.mk.inj (Option.some.inj holds)).2, map_map]
      rfl

/-- The shared producer's consumers, and what follows of a component that has one. -/
structure Shared (graph : Graph) (component : List Nat) (producer : Nat) (heads : List Nat) : Prop where
  inside : producer ∈ component
  later : ∀ head ∈ heads, head ∈ component ∧ head ≠ producer
  once : heads.Nodup ↔ ∀ consumer ∈ component, producer < consumer → readings graph producer consumer ≤ 1

theorem shared_of_some (ascending : component.Pairwise (· < ·)) (shared :
    sharedProducer graph component = some (producer, branches)) :
    ∃ heads, branches = heads.map (fun head => [head]) ∧ Shared graph component producer heads := by
  obtain ⟨index, found, rfl⟩ := sharedProducer_some shared
  have distinct : component.Nodup := ascending.imp fun less => ne_of_lt less
  have noted := fun consumer => @mem_consumers graph component distinct index producer consumer found
  have placed : ∀ {consumer : Nat}, consumer < component.length →
      component[consumer]? = some (component.getD consumer 0) := by
    intro consumer short
    rw [getD_eq_getElem?_getD, getElem?_eq_getElem short, Option.getD_some]
  refine ⟨_, rfl, mem_of_getElem? found, ?_, ?_⟩
  · intro head member
    obtain ⟨consumer, listed, rfl⟩ := mem_map.1 member
    obtain ⟨after, short⟩ := noted consumer listed
    refine ⟨mem_of_getElem? (placed short), fun same => ?_⟩
    have back := (@getElem?_lt component ascending _ _ _ _ found (placed short)).2 after
    omega
  · have apart : ∀ one ∈ (consumersWithin graph component).getD index [],
        ∀ other ∈ (consumersWithin graph component).getD index [],
        component.getD one 0 = component.getD other 0 → one = other := by
      intro one listed other listed' same
      have short := (noted one listed).2
      have found' := placed (noted other listed').2
      rw [← same, ← placed short] at found'
      exact ((getElem?_inj (noted other listed').2 distinct).1 found').symm
    have injective : (((consumersWithin graph component).getD index []).map fun consumer =>
        component.getD consumer 0).Nodup ↔ ((consumersWithin graph component).getD index []).Nodup :=
      ⟨List.Nodup.of_map _, fun once => (nodup_map_iff_inj_on once).2 apart⟩
    rw [injective, nodup_consumers distinct found]
    constructor
    · intro once consumer member after
      obtain ⟨place, listed⟩ := mem_iff_getElem?.1 member
      exact once place consumer listed
        ((@getElem?_lt component ascending _ _ _ _ found listed).1 after)
    · intro once place consumer listed after
      exact once consumer (mem_of_getElem? listed)
        ((@getElem?_lt component ascending _ _ _ _ found listed).2 after)

variable {S : Type} {regionSchema : List Nat → List (Nat × Nat) → S}

theorem flatMap_ordinary (lists : List (List Nat)) :
    (lists.map (ordinaryRegion regionSchema)).flatMap Region.positions = lists.flatten := by
  rw [flatMap_map, flatMap_def]
  exact congrArg List.flatten (map_id lists)

theorem siblingComponent_perm
    (shared : sharedProducer graph component = some (producer, branches)) :
    ((siblingComponent regionSchema graph component).flatMap Region.positions).Perm
      (producer :: ((siblingSets graph branches).map List.flatten).flatten ++
        (ordinaryComponents graph (component.filter fun position => position ≠ producer ∧
          position ∉ (siblingSets graph branches).flatten.flatten)).flatten) := by
  unfold siblingComponent
  rw [shared]
  rw [flatMap_append, flatMap_ordinary, flatMap_cons, flatMap_map]
  refine List.Perm.append_right _ (List.Perm.cons _ ?_)
  exact List.Perm.flatMap_left _ fun set _ => perm_insertionSort _ _

/-- The nodes of a component's regions are the component's. -/
theorem mem_siblingComponent (ascending : component.Pairwise (· < ·)) {position : Nat} :
    position ∈ (siblingComponent regionSchema graph component).flatMap Region.positions ↔
      position ∈ component := by
  cases shared : sharedProducer graph component with
  | none =>
    unfold siblingComponent
    rw [shared]
    rw [flatMap_ordinary]
    exact mem_flatten_components
  | some found =>
    obtain ⟨heads, branches, held⟩ := shared_of_some ascending shared
    rw [(siblingComponent_perm shared).mem_iff, mem_append, mem_cons, ordinaryComponents,
      mem_flatten_components, mem_filter, branches, ← flatten_flatten, decide_eq_true_eq]
    have claims : ∀ {position : Nat},
        position ∈ (siblingSets graph (heads.map fun head => [head])).flatten.flatten →
        position ∈ component := by
      intro position member
      rw [flatten_flatten] at member
      obtain ⟨_, listed, inside⟩ := mem_flatten.1 member
      obtain ⟨set, own, rfl⟩ := mem_map.1 listed
      exact (held.later position ((siblingSets_sublist own).subset inside)).1
    constructor
    · rintro ((rfl | claimed) | rest)
      · exact held.inside
      · exact claims claimed
      · exact rest.1
    · intro member
      by_cases same : position = found.1
      · exact .inl (.inl same)
      by_cases claimed : position ∈ (siblingSets graph (heads.map fun head => [head])).flatten.flatten
      · exact .inl (.inr claimed)
      · exact .inr ⟨member, same, claimed⟩

/-- The nodes of a component's regions are listed once each exactly if no consumer reads the shared
producer twice. -/
theorem nodup_siblingComponent (ascending : component.Pairwise (· < ·)) :
    ((siblingComponent regionSchema graph component).flatMap Region.positions).Nodup ↔
      ∀ producer branches, sharedProducer graph component = some (producer, branches) →
        ∀ consumer ∈ component, producer < consumer → readings graph producer consumer ≤ 1 := by
  have distinct : component.Nodup := ascending.imp fun less => ne_of_lt less
  cases shared : sharedProducer graph component with
  | none =>
    refine iff_of_true ?_ fun producer branches same => by cases same
    unfold siblingComponent
    rw [shared]
    rw [flatMap_ordinary]
    exact nodup_flatten_components distinct
  | some found =>
    obtain ⟨heads, branches, held⟩ := shared_of_some ascending shared
    have each : (∀ producer branches, some found = some (producer, branches) →
        ∀ consumer ∈ component, producer < consumer → readings graph producer consumer ≤ 1) ↔
        heads.Nodup := by
      rw [held.once]
      constructor
      · exact fun all => all found.1 found.2 rfl
      · rintro all producer branches' same
        rw [Option.some.inj same] at all
        exact all
    rw [each, (siblingComponent_perm shared).nodup_iff, branches, ← nodup_siblingSets heads]
    constructor
    · intro once
      exact (nodup_cons.1 (nodup_append.1 once).1).2
    · intro once
      have claims : ∀ {position : Nat},
          position ∈ ((siblingSets graph (heads.map fun head => [head])).map List.flatten).flatten →
          position ∈ heads := by
        intro position member
        obtain ⟨_, listed, inside⟩ := mem_flatten.1 member
        obtain ⟨set, own, rfl⟩ := mem_map.1 listed
        exact (siblingSets_sublist own).subset inside
      refine nodup_append.2 ⟨nodup_cons.2 ⟨fun member => ?_, once⟩,
        nodup_flatten_components (distinct.filter _), fun one member other rest same => ?_⟩
      · exact (held.later _ (claims member)).2 rfl
      · rw [ordinaryComponents, mem_flatten_components, mem_filter, decide_eq_true_eq] at rest
        rcases mem_cons.1 member with first | claimed
        · exact rest.2.1 (same.symm.trans first)
        · refine rest.2.2 ?_
          rw [flatten_flatten, ← same]
          exact claimed

end Components

/-- Every claimed node is in one region at one place and no other node is in any, the regions and the
branches of each are in order, and the regions are listed as they begin. -/
structure Partitioned {S : Type} (claimed : List Nat) (regions : List (Region S)) : Prop where
  once : (regions.flatMap Region.positions).Nodup
  claims : ∀ position, position ∈ regions.flatMap Region.positions ↔ position ∈ claimed
  ascending : ∀ region ∈ regions, region.positions.Pairwise (· < ·)
  apart : ∀ region ∈ regions, ∀ producer branches, region.shape = .sibling producer branches →
    branches.Pairwise List.Disjoint
  listed : regions.Pairwise fun one other => Precedes one.positions other.positions

/-- No consumer of a component's shared producer reads it twice. -/
def SharedReadOnce (graph : Graph) (run : List Nat) : Prop :=
  ∀ component ∈ components graph run fun _ _ => true,
    ∀ producer branches, sharedProducer graph component = some (producer, branches) →
      ∀ consumer ∈ component, producer < consumer → readings graph producer consumer ≤ 1

section Regions

variable {S : Type} {regionSchema : List Nat → List (Nat × Nat) → S} {graph : Graph}

theorem component_ascending {run component : List Nat} {dataEdgeJoins : Count → Count → Bool}
    (ascending : run.Pairwise (· < ·)) (member : component ∈ components graph run dataEdgeJoins) :
    component.Pairwise (· < ·) :=
  ascending.sublist (component_sublist member).1

theorem partitioned_ordinary {run : List Nat} (ascending : run.Pairwise (· < ·)) :
    Partitioned run ((ordinaryComponents graph run).map (ordinaryRegion regionSchema)) ↔
      RootsFollow graph run extentsCorrespond := by
  have listed : ((ordinaryComponents graph run).map (ordinaryRegion regionSchema)).Pairwise
      (fun one other => Precedes one.positions other.positions) ↔
      RootsFollow graph run extentsCorrespond := by
    rw [← components_precede ascending, pairwise_map]
    exact Iff.rfl
  constructor
  · exact fun partitioned => listed.1 partitioned.listed
  · intro follows
    refine ⟨?_, fun position => ?_, fun region member => ?_, fun region member => ?_, listed.2 follows⟩
    · rw [flatMap_ordinary]
      exact nodup_flatten_components (ascending.imp fun less => ne_of_lt less)
    · rw [flatMap_ordinary]
      exact mem_flatten_components
    · obtain ⟨component, held, rfl⟩ := mem_map.1 member
      exact component_ascending ascending held
    · obtain ⟨component, held, rfl⟩ := mem_map.1 member
      intro producer branches shape
      cases shape

/-- What a component's region is: its nodes in order, of a sibling set those of the branches. -/
theorem siblingComponent_region {component : List Nat} (ascending : component.Pairwise (· < ·))
    {region : Region S} (member : region ∈ siblingComponent regionSchema graph component) :
    region.positions.Pairwise (· ≤ ·) ∧ region.positions ≠ [] ∧
      ∀ producer branches, region.shape = .sibling producer branches →
        region.positions.Perm branches.flatten := by
  have ordinary : ∀ {run : List Nat}, run.Pairwise (· < ·) → ∀ region ∈
      (ordinaryComponents graph run).map (ordinaryRegion regionSchema),
      region.positions.Pairwise (· ≤ ·) ∧ region.positions ≠ [] ∧
        ∀ producer branches, region.shape = .sibling producer branches →
          region.positions.Perm branches.flatten := by
    intro run ascending region member
    obtain ⟨part, held, rfl⟩ := mem_map.1 member
    refine ⟨(component_ascending ascending held).imp fun less => le_of_lt less,
      (component_sublist held).2, fun producer branches shape => by cases shape⟩
  cases shared : sharedProducer graph component with
  | none =>
    unfold siblingComponent at member
    rw [shared] at member
    exact ordinary ascending region member
  | some found =>
    obtain ⟨heads, branches, -⟩ := shared_of_some ascending shared
    unfold siblingComponent at member
    rw [shared] at member
    rcases mem_append.1 member with front | rest
    · rcases mem_cons.1 front with rfl | sibling
      · exact ⟨pairwise_singleton _ _, cons_ne_nil _ _, fun _ _ shape => by cases shape⟩
      · obtain ⟨set, held, rfl⟩ := mem_map.1 sibling
        have perm : (siblingRegion regionSchema graph found.1 set).positions.Perm set.flatten :=
          perm_insertionSort _ _
        refine ⟨?_, fun empty => ?_, fun producer branches shape => ?_⟩
        · exact pairwise_insertionSort (· ≤ ·) set.flatten
        · have size := siblingSets_ne_nil held
          rw [branches] at held
          obtain ⟨count, rfl⟩ := mem_siblingSets held
          have none : (List.flatten ((heads.filter fun head => countAt graph head = count).map
              fun head => [head])).length = 0 := by
            rw [← perm.length_eq, empty]
            rfl
          rw [flatten_heads] at none
          rw [length_map] at size
          omega
        · obtain ⟨rfl, rfl⟩ := RegionShape.sibling.inj shape
          exact perm
    · exact ordinary (ascending.sublist filter_sublist) region rest

variable {C : Type} [DecidableEq C] {digest : KernelFragment → UInt64} {instances : List (Instance C)}

theorem claimedRun_ascending : (claimedRun digest graph instances).Pairwise (· < ·) :=
  pairwise_lt_range.filter _

theorem siblingRegions_perm : (siblingRegions digest regionSchema graph instances).Perm
    ((components graph (claimedRun digest graph instances) fun _ _ => true).flatMap
      (siblingComponent regionSchema graph)) :=
  perm_insertionSort _ _

theorem siblingRegions_once :
    ((siblingRegions digest regionSchema graph instances).flatMap Region.positions).Nodup ↔
      SharedReadOnce graph (claimedRun digest graph instances) := by
  have ascending := @claimedRun_ascending graph C _ digest instances
  rw [(siblingRegions_perm.flatMap_right Region.positions).nodup_iff, flatMap_assoc, nodup_flatMap]
  constructor
  · rintro ⟨each, -⟩ component member
    exact (nodup_siblingComponent (component_ascending ascending member)).1 (each component member)
  · intro once
    refine ⟨fun component member =>
      (nodup_siblingComponent (component_ascending ascending member)).2 (once component member), ?_⟩
    have apart := (nodup_flatten.1 (@nodup_flatten_components graph
      (claimedRun digest graph instances) (fun _ _ => true)
      (ascending.imp fun less => ne_of_lt less))).2
    refine (List.Pairwise.and_mem.1 apart).imp fun {first second} held =>
      disjoint_left.2 fun position inside inside' => ?_
    rw [mem_siblingComponent (component_ascending ascending held.1)] at inside
    rw [mem_siblingComponent (component_ascending ascending held.2.1)] at inside'
    exact disjoint_left.1 held.2.2 inside inside'

theorem mem_siblingRegions {region : Region S}
    (member : region ∈ siblingRegions digest regionSchema graph instances) :
    ∃ component : List Nat, component.Pairwise (· < ·) ∧
      region ∈ siblingComponent regionSchema graph component := by
  obtain ⟨component, held, inside⟩ := mem_flatMap.1 (siblingRegions_perm.mem_iff.1 member)
  exact ⟨component, component_ascending claimedRun_ascending held, inside⟩

theorem partitioned_sibling : Partitioned (claimedRun digest graph instances)
        (siblingRegions digest regionSchema graph instances) ↔
      SharedReadOnce graph (claimedRun digest graph instances) := by
  constructor
  · exact fun partitioned => siblingRegions_once.1 partitioned.once
  intro shared
  have once := (@siblingRegions_once S regionSchema graph C _ digest instances).2 shared
  have each := (nodup_flatMap.1 once).1
  have strict : ∀ region ∈ siblingRegions digest regionSchema graph instances,
      region.positions.Pairwise (· < ·) := by
    intro region member
    obtain ⟨component, ascending, held⟩ := mem_siblingRegions member
    exact ((siblingComponent_region ascending held).1.and (each region member)).imp fun held =>
      lt_of_le_of_ne held.1 held.2
  refine ⟨once, fun position => ?_, strict, fun region member producer branches shape => ?_, ?_⟩
  · rw [(siblingRegions_perm.flatMap_right Region.positions).mem_iff, flatMap_assoc,
      mem_flatMap, ← @mem_flatten_components graph _ (fun _ _ => true), mem_flatten]
    constructor
    · rintro ⟨component, held, inside⟩
      exact ⟨component, held,
        (mem_siblingComponent (component_ascending claimedRun_ascending held)).1 inside⟩
    · rintro ⟨component, held, inside⟩
      exact ⟨component, held,
        (mem_siblingComponent (component_ascending claimedRun_ascending held)).2 inside⟩
  · obtain ⟨component, ascending, held⟩ := mem_siblingRegions member
    have perm := (siblingComponent_region ascending held).2.2 producer branches shape
    exact (nodup_flatten.1 (perm.nodup_iff.1 (each region member))).2
  · have sorted : (siblingRegions digest regionSchema graph instances).Pairwise fun one other =>
        one.first ≤ other.first := by
      exact pairwise_insertionSort _ _
    have headed : ∀ region ∈ siblingRegions digest regionSchema graph instances,
        region.first ∈ region.positions ∧ ∀ position ∈ region.positions, region.first ≤ position := by
      intro region member
      obtain ⟨component, ascending, held⟩ := mem_siblingRegions member
      obtain ⟨sorted, nonempty, -⟩ := siblingComponent_region ascending held
      unfold Region.first
      cases positions : region.positions with
      | nil => exact absurd positions nonempty
      | cons first rest =>
        rw [positions] at sorted
        refine ⟨mem_cons_self, fun position inside => ?_⟩
        rcases mem_cons.1 inside with rfl | inside
        · exact le_refl _
        · exact (pairwise_cons.1 sorted).1 position inside
    have apart := (nodup_flatMap.1 once).2
    refine (List.Pairwise.and_mem.1 (sorted.and apart)).imp fun {one other} held => ?_
    obtain ⟨memberOne, memberOther, order, disjoint⟩ := held
    refine ⟨one.first, (headed one memberOne).1, fun position inside => ?_⟩
    have after := (headed other memberOther).2 position inside
    have differ : one.first ≠ position := fun same =>
      disjoint_left.1 disjoint (headed one memberOne).1 (same ▸ inside)
    omega

/-- The regions of both strategies partition the claimed nodes exactly where the joins leave their
roots in the order of the components, and no consumer of a shared producer reads it twice. -/
theorem partitioned_iff (digest : KernelFragment → UInt64)
    (regionSchema : List Nat → List (Nat × Nat) → S) (graph : Graph) (instances : List (Instance C)) :
    (Partitioned (claimedRun digest graph instances)
        (ordinaryRegions digest regionSchema graph instances) ∧
      Partitioned (claimedRun digest graph instances)
        (siblingRegions digest regionSchema graph instances)) ↔
    RootsFollow graph (claimedRun digest graph instances) extentsCorrespond ∧
      SharedReadOnce graph (claimedRun digest graph instances) :=
  and_congr (partitioned_ordinary claimedRun_ascending) partitioned_sibling

def fragmentOf (inputs outputs : Nat) : KernelFragment where
  paramShape := .tuple [.scalar .int, .scalar .int]
  roles := {}
  body := { values := [.blockParam 0 0, .blockParam 0 1], blocks := [⟨[0, 1], [], .return []⟩], entry := 0 }
  inputs
  outputs
  inputClasses := List.replicate inputs .float
  outputClasses := List.replicate outputs .float
  resultClasses := []
  target := ⟨.i64, 64, 1⟩

def claimedBoth : List (Instance Unit) := [⟨0, (), fragmentOf 0 2⟩, ⟨1, (), fragmentOf 2 1⟩]

/-- One node reads both outputs of another. -/
def twiceRead : Graph where
  nodes := [⟨fragmentOf 0 2, [], .constant 4, []⟩, ⟨fragmentOf 2 1, [0, 1], .constant 4, []⟩]
  inputs := 0
  values := 3

/-- The last node reads the first one and then the third, and the second stands alone. -/
def readAcross : Graph where
  nodes := [⟨fragmentOf 0 2, [], .constant 4, []⟩, ⟨fragmentOf 0 2, [], .constant 4, []⟩,
    ⟨fragmentOf 0 2, [], .constant 4, []⟩, ⟨fragmentOf 2 1, [0, 4], .constant 4, []⟩]
  inputs := 0
  values := 7

/-- A node that reads two outputs of its producer is in its region twice, and a component is listed
after one that begins later. -/
theorem regions_repeat_and_swap :
    (siblingRegions (fun _ => 0) (fun _ _ => ()) twiceRead claimedBoth).map Region.positions =
        [[0], [1, 1]] ∧
      (ordinaryRegions (fun _ => 0) (fun _ _ => ()) readAcross claimedBoth).map Region.positions =
        [[1], [0, 2, 3]] ∧
      ¬ (∀ graph, Partitioned (claimedRun (fun _ => 0) graph claimedBoth)
          (ordinaryRegions (fun _ => 0) (fun _ _ => ()) graph claimedBoth) ∧
        Partitioned (claimedRun (fun _ => 0) graph claimedBoth)
          (siblingRegions (fun _ => 0) (fun _ _ => ()) graph claimedBoth)) := by
  have repeated : (siblingRegions (fun _ => 0) (fun _ _ => ()) twiceRead claimedBoth).map
      Region.positions = [[0], [1, 1]] := by
    decide +kernel
  refine ⟨repeated, by decide +kernel, fun all => ?_⟩
  have once := (all twiceRead).2.once
  rw [flatMap_def, repeated] at once
  exact absurd once (by decide)

end Regions

end LichenVm.FusionClaim
