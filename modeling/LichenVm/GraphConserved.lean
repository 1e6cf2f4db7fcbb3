import LichenVm.GraphBuffers

/-! The buffers that a graph run's dispatches answer: each is returned or given back where nothing stops
the run after one of them. -/

open List Option

namespace LichenVm.GraphIr

open Traverse Value

/-- Where the buffers issued so far come from, in the table's order. -/
def places (issued : List (List ResidentId)) : List Source :=
  (issued.mapIdx fun index ids =>
    (List.range ids.length).map fun ordinal => .produced index ordinal).flatten

section

variable (issued : List (List ResidentId))

theorem places_concat (ids : List ResidentId) :
    places (issued ++ [ids]) = places issued ++
      (List.range ids.length).map fun ordinal => .produced issued.length ordinal := by
  simp [places, mapIdx_append]

theorem length_places : (places issued).length = issued.flatten.length := by
  induction issued using List.reverseRecOn with
  | nil => rfl
  | append_singleton issued ids ih => simp [places_concat, ih]

end

theorem issued_of_place {issued : List (List ResidentId)} {place : Source} (member : place ∈ places issued) :
    ∃ dispatch ordinal id, place = .produced dispatch ordinal ∧
      issuedAt issued dispatch ordinal = some id := by
  induction issued using List.reverseRecOn with
  | nil => cases member
  | append_singleton issued ids ih =>
    rw [places_concat] at member
    rcases mem_append.1 member with earlier | last
    · obtain ⟨dispatch, ordinal, id, rfl, found⟩ := ih earlier
      exact ⟨dispatch, ordinal, id, rfl, issuedAt_append found⟩
    · obtain ⟨ordinal, inside, rfl⟩ := mem_map.1 last
      have bound := mem_range.1 inside
      refine ⟨issued.length, ordinal, ids[ordinal], rfl, ?_⟩
      simp [issuedAt, bound]

theorem produced_mem_places {issued : List (List ResidentId)} {dispatch : Nat} :
    (∃ ordinal, Source.produced dispatch ordinal ∈ places issued) ↔
      ∃ ids, issued[dispatch]? = some ids ∧ ids ≠ [] := by
  constructor
  · rintro ⟨ordinal, member⟩
    obtain ⟨_, _, id, same, found⟩ := issued_of_place member
    obtain ⟨rfl, rfl⟩ := Source.produced.inj same
    obtain ⟨ids, held, inside⟩ := bind_eq_some_iff.1 found
    exact ⟨ids, held, ne_nil_of_mem (mem_of_getElem? inside)⟩
  · rintro ⟨ids, held, filled⟩
    have listed : (issued.mapIdx fun index ids => (List.range ids.length).map fun ordinal =>
        Source.produced index ordinal)[dispatch]? =
        some ((List.range ids.length).map fun ordinal => .produced dispatch ordinal) := by
      rw [getElem?_mapIdx, held]
      rfl
    exact ⟨0, mem_flatten.2 ⟨_, mem_of_getElem? listed,
      mem_map.2 ⟨0, mem_range.2 (length_pos_iff.2 filled), rfl⟩⟩⟩

/-- A walk's table: the values handed in, and the buffers issued, in flight where the host does not
wait. -/
structure Follows (policy : Policy) (inputs : List Value) (walk : Walk) : Prop where
  values : ∃ made, walk.values = inputs ++ made ∧
    made.map deviceBuffer = walk.issued.flatten.map .ok ∧
    ∀ held ∈ made, (∃ id count stated, held = pending id count stated) ↔ policy = .async
  sources : walk.sources = (inputs.map fun _ => Source.given) ++ places walk.issued

section Resolving

variable {policy : Policy} {inputs : List Value} {walk : Walk}

theorem follows_start (policy : Policy) (inputs : List Value) : Follows policy inputs (Walk.start inputs) :=
  ⟨⟨[], (append_nil _).symm, rfl, fun _ member => absurd member not_mem_nil⟩, (append_nil _).symm⟩

theorem Follows.issued (follows : Follows policy inputs walk) {value : ValueId} {dispatch ordinal : Nat}
    (found : walk.sources[value]? = some (.produced dispatch ordinal)) :
    ∃ id, issuedAt walk.issued dispatch ordinal = some id := by
  have member := mem_of_getElem? found
  rw [follows.sources] at member
  rcases mem_append.1 member with given | produced
  · obtain ⟨_, -, same⟩ := mem_map.1 given
    cases same
  · obtain ⟨_, _, id, same, held⟩ := issued_of_place produced
    obtain ⟨rfl, rfl⟩ := Source.produced.inj same
    exact ⟨id, held⟩

theorem length_made {made : List Value} {issued : List (List ResidentId)}
    (buffers : made.map deviceBuffer = issued.flatten.map .ok) :
    made.length = issued.flatten.length := by
  have same := congrArg List.length buffers
  rwa [length_map, length_map] at same

theorem Follows.buffered (follows : Follows policy inputs walk) :
    Buffered inputs walk.values walk.sources := by
  obtain ⟨made, table, buffers, -⟩ := follows.values
  intro value
  rw [table, follows.sources]
  by_cases early : value < inputs.length
  · exact .inl (getElem?_append_left early)
  · have late := Nat.not_lt.1 early
    rw [getElem?_append_right late, getElem?_append_right (by simpa using late),
      getElem?_eq_none late, length_map]
    cases held : made[value - inputs.length]? with
    | none => exact .inl rfl
    | some found =>
      have at_place := congrArg (fun buffers => buffers[value - inputs.length]?) buffers
      simp only [getElem?_map, held, map_some] at at_place
      obtain ⟨id, listed, buffer⟩ := map_eq_some_iff.1 at_place.symm
      have inside : value - inputs.length < (places walk.issued).length := by
        rw [length_places]
        exact (List.getElem?_eq_some_iff.1 listed).1
      obtain ⟨dispatch, ordinal, _, same, -⟩ := issued_of_place (getElem_mem inside)
      exact .inr ⟨rfl, ⟨dispatch, ordinal, by rw [getElem?_eq_getElem inside, same]⟩,
        found, id, rfl, buffer.symm⟩

/-- Whether an extent may be covered does not depend on how far earlier dispatches were allocated. -/
theorem plan_covers (policy : Policy) (node : Nat) (kernel : KernelNode) (values : List Value)
    (sources : List Source) (allocated : List Nat) :
    (plan node kernel values sources allocated).toOption.map (fun planned => policy.covers planned.extent) =
      (plan node kernel values sources []).toOption.map fun planned => policy.covers planned.extent := by
  have extents : (extentOf node values sources allocated kernel.count).toOption.map policy.covers =
      (extentOf node values sources [] kernel.count).toOption.map policy.covers := by
    cases kernel.count with
    | constant count => rfl
    | value id => rfl
    | device id index =>
      unfold extentOf
      dsimp only
      split
      · cases policy <;> rfl
      · rfl
  rw [plan_toOption, plan_toOption]
  split
  · rfl
  cases kernel.inputs.mapM fun value => (inputOf node values sources value).toOption with
  | none => rfl
  | some found =>
    cases first : (extentOf node values sources allocated kernel.count).toOption <;>
      cases second : (extentOf node values sources [] kernel.count).toOption <;>
      rw [first, second] at extents
    · cases extents
    · cases extents
    · have same := some.inj extents
      cases (leavesOf 0 kernel values).toOption <;> simp [same]

theorem extentOf_produced {node : Nat} {values : List Value} {sources : List Source}
    {allocated : List Nat} {count : Count} {dispatch ordinal index capacity : Nat}
    (found : extentOf node values sources allocated count = .ok (.produced dispatch ordinal index capacity)) :
    ∃ value : ValueId, sources[value]? = some (.produced dispatch ordinal) := by
  cases count with
  | constant count => cases found
  | value id =>
    simp only [extentOf] at found
    split at found
    · cases found
    · rename_i value _
      unfold extentOfValue at found
      split at found
      · cases found
      · split at found <;> cases found
  | device id at_ =>
    simp only [extentOf] at found
    split at found
    · rename_i place
      injection Except.ok.inj found with same same'
      subst same same'
      exact ⟨id, place⟩
    · split at found
      · cases found
      · split at found <;> cases found

theorem Follows.launched (follows : Follows policy inputs walk) {node : Nat} {kernel : KernelNode}
    {planned : Planned}
    (resolved : plan node kernel walk.values walk.sources walk.allocated = .ok planned) :
    ∃ launch, planned.launch walk.issued = some launch := by
  have parts := plan_toOption node kernel walk.values walk.sources walk.allocated
  rw [resolved] at parts
  split at parts
  · cases parts
  obtain ⟨read, reads, parts⟩ := bind_eq_some_iff.1 parts.symm
  obtain ⟨extent, covers, parts⟩ := bind_eq_some_iff.1 parts
  obtain ⟨leaves, -, rfl⟩ := map_eq_some_iff.1 parts
  have slots : (read.mapM (slotOf walk.issued)).isSome := by
    apply mapM_isSome
    intro input member
    obtain ⟨value, -, found⟩ := exists_of_mem_mapM _ _ _ reads input member
    cases input with
    | host data stated => rfl
    | resident id => rfl
    | produced dispatch ordinal =>
      unfold inputOf at found
      split at found
      · rename_i place
        obtain ⟨rfl, rfl⟩ := BatchInput.produced.inj (some.inj found)
        obtain ⟨id, issued⟩ := follows.issued place
        simp [slotOf, issued]
      · split at found <;> cases found
  have range : (launchExtent walk.issued extent).isSome := by
    cases extent with
    | host count => rfl
    | resident count index capacity => rfl
    | produced dispatch ordinal index capacity =>
      have found : extentOf node walk.values walk.sources walk.allocated kernel.count =
          .ok (.produced dispatch ordinal index capacity) := by
        cases result : extentOf node walk.values walk.sources walk.allocated kernel.count with
        | error refusal =>
          rw [result] at covers
          cases covers
        | ok extent =>
          rw [result] at covers
          rw [some.inj covers]
      obtain ⟨_, place⟩ := extentOf_produced found
      obtain ⟨id, issued⟩ := follows.issued place
      simp [launchExtent, issued]
  obtain ⟨slots', slotted⟩ := isSome_iff_exists.1 slots
  obtain ⟨range', ranged⟩ := isSome_iff_exists.1 range
  exact ⟨_, by simp [Planned.launch, slotted, ranged]; rfl⟩

end Resolving

/-- A node resolves against the values handed in and the places of the buffers issued before it, and its
policy has an entry for its extent. -/
def KernelNode.Resolves (node : KernelNode) (policy : Policy) (inputs : List Value)
    (issued : List (List ResidentId)) : Prop :=
  ∃ planned, plan issued.length node inputs
    ((inputs.map fun _ => Source.given) ++ places issued) [] = .ok planned ∧
      policy.covers planned.extent = true

namespace ParallelBackend

variable (backend : ParallelBackend)

def answers (nodes : Nat) : List (List ResidentId) :=
  (List.range nodes).map fun node => (backend.dispatch node).toOption.getD []

def Dispatches (policy : Policy) (inputs : List Value) (nodes : List KernelNode) (index : Nat) : Prop :=
  (∃ node, nodes[index]? = some node ∧ node.Resolves policy inputs (backend.answers index)) ∧
    ∃ ids, backend.dispatch index = .ok ids

/-- Some dispatch that is reached answers with a buffer. -/
def Produces (policy : Policy) (graph : Graph) (inputs : List Value) : Prop :=
  inputs.length = graph.inputs ∧ match policy with
    | .batch => ∃ planned issued, GraphIr.runInOneSubmission inputs graph.nodes = .ok planned ∧
        backend.runBatch = .ok issued ∧ issued.flatten ≠ []
    | .serial | .async => ∃ last, (∀ index ≤ last, backend.Dispatches policy inputs graph.nodes index) ∧
        backend.dispatch last ≠ .ok []

/-- Every node is dispatched and answered: the ids, node by node. -/
def Answers (policy : Policy) (graph : Graph) (inputs : List Value) (issued : List (List ResidentId)) : Prop :=
  match policy with
  | .batch => backend.runBatch = .ok issued ∧ ∃ planned,
      GraphIr.runInOneSubmission inputs graph.nodes = .ok planned ∧ fits planned issued = true
  | .serial | .async => issued = backend.answers graph.nodes.length ∧
      ∀ index < graph.nodes.length, backend.Dispatches policy inputs graph.nodes index

/-- Nothing stops the run: every node is answered, every wait goes through, and each returned value is in
the table and no negative number. -/
structure Finishes (policy : Policy) (graph : Graph) (inputs : List Value)
    (issued : List (List ResidentId)) : Prop where
  answers : backend.Answers policy graph inputs issued
  waits : policy = .async → ∀ (node : Nat) ids, issued[node]? = some ids → ids ≠ [] →
    ∃ done, backend.wait node = .ok done
  readable : ∀ value ∈ graph.returns.getD (List.range (inputs.length + issued.flatten.length)),
    value < inputs.length + issued.flatten.length ∧
      ∀ number, inputs[value]? = some (.int number) → 0 ≤ number

/-- What a backend promises of its answers: ids that are not the caller's, and one list per dispatch of a
batch. -/
structure Fresh (nodes : Nat) (callers : List ResidentId) : Prop where
  dispatched : ∀ (node : Nat) ids, backend.dispatch node = .ok ids → ∀ id ∈ ids, id ∉ callers
  batched : ∀ issued, backend.runBatch = .ok issued → issued.length = nodes ∧
    ∀ id ∈ issued.flatten, id ∉ callers

section Scheduling

variable {backend} {policy : Policy} {inputs : List Value} {walk : Walk} {nodes : List KernelNode}

theorem answers_succ {index : Nat} {ids : List ResidentId} (answered : backend.dispatch index = .ok ids) :
    backend.answers (index + 1) = backend.answers index ++ [ids] := by
  simp [answers, range_succ, answered, Except.toOption]

@[simp] theorem length_answers (index : Nat) : (backend.answers index).length = index := by
  simp [answers]

theorem resolves_iff (follows : Follows policy inputs walk) (node : KernelNode) :
    node.Resolves policy inputs walk.issued ↔
      (plan walk.issued.length node walk.values walk.sources walk.allocated).toOption.map
        (fun planned => policy.covers planned.extent) = some true := by
  rw [plan_covers, follows.buffered.plan]
  unfold KernelNode.Resolves
  rw [← follows.sources]
  cases plan walk.issued.length node inputs walk.sources [] with
  | error refusal | ok planned => simp [Except.toOption]

theorem map_deviceBuffer_outputs (policy : Policy) (ids : List ResidentId) (counts : List Nat)
    (classes : List KernelIr.ScalarClass) :
    (policy.outputs ids counts classes).map deviceBuffer = ids.map .ok ∧
      ∀ held ∈ policy.outputs ids counts classes,
        (∃ id count stated, held = pending id count stated) ↔ policy = .async := by
  have waited : (deviceAll ids counts classes).map deviceBuffer = ids.map .ok ∧
      ∀ held ∈ deviceAll ids counts classes, ¬ ∃ id count stated, held = pending id count stated := by
    refine ⟨?_, ?_⟩
    · apply ext_getElem?
      intro index
      cases at_place : ids[index]? <;> simp [deviceAll, at_place, deviceBuffer]
    · rintro held member ⟨id, count, stated, rfl⟩
      obtain ⟨_, _, same⟩ := mem_mapIdx.1 member
      cases same
  cases policy with
  | serial | batch =>
    exact ⟨waited.1, fun held member => iff_of_false (waited.2 held member) (by simp)⟩
  | async =>
    refine ⟨?_, fun held member => iff_of_true ?_ rfl⟩
    · apply ext_getElem?
      intro index
      cases at_place : ids[index]? <;> simp [Policy.outputs, pendingAll, at_place, deviceBuffer]
    · obtain ⟨_, _, same⟩ := mem_mapIdx.1 member
      exact ⟨_, _, _, same.symm⟩

theorem dispatchNode_spec (follows : Follows policy inputs walk) (node : KernelNode) :
    (∃ next ids, backend.dispatchNode policy walk node = .ok next ∧
      node.Resolves policy inputs walk.issued ∧ backend.dispatch walk.issued.length = .ok ids ∧
        next.issued = walk.issued ++ [ids] ∧ Follows policy inputs next) ∨
    (∃ halt, backend.dispatchNode policy walk node = .error halt) ∧
      ¬ (node.Resolves policy inputs walk.issued ∧ ∃ ids, backend.dispatch walk.issued.length = .ok ids) := by
  rw [resolves_iff follows]
  unfold dispatchNode
  cases resolved : plan walk.issued.length node walk.values walk.sources walk.allocated with
  | error refusal => exact .inr ⟨⟨_, rfl⟩, fun both => by cases both.1⟩
  | ok planned =>
    obtain ⟨launch, launched⟩ := follows.launched resolved
    simp only [launched]
    split
    · rename_i uncovered
      refine .inr ⟨⟨_, rfl⟩, fun both => ?_⟩
      have covered : policy.covers planned.extent := some.inj both.1
      rw [uncovered] at covered
      cases covered
    · rename_i covered
      cases answered : backend.dispatch walk.issued.length with
      | error reason =>
        refine .inr ⟨⟨_, rfl⟩, fun both => ?_⟩
        obtain ⟨-, ids, same⟩ := both
        cases same
      | ok ids =>
        refine .inl ⟨_, ids, rfl, congrArg some (Bool.eq_true_of_not_eq_false covered), rfl, rfl, ?_, ?_⟩
        · obtain ⟨made, table, buffers, flying⟩ := follows.values
          obtain ⟨outputs, outputsFlying⟩ :=
            map_deviceBuffer_outputs policy ids planned.counts planned.classes
          refine ⟨made ++ policy.outputs ids planned.counts planned.classes, ?_, ?_, ?_⟩
          · simp [table]
          · simp [buffers, outputs]
          · intro held member
            rcases mem_append.1 member with earlier | last
            · exact flying held earlier
            · exact outputsFlying held last
        · simp [follows.sources, places_concat]

/-- The walk over the nodes stops at the first that is not dispatched and answered. -/
theorem runNodeByNode_spec {rest : List KernelNode} {index : Nat} (follows : Follows policy inputs walk)
    (issued : walk.issued = backend.answers index) (inside : index ≤ nodes.length)
    (left : nodes.drop index = rest) : ∃ last, index ≤ last ∧ last ≤ nodes.length ∧
      (backend.runNodeByNode policy walk rest).1.issued = backend.answers last ∧
      Follows policy inputs (backend.runNodeByNode policy walk rest).1 ∧
      (∀ before, index ≤ before → before < last → backend.Dispatches policy inputs nodes before) ∧
      ((backend.runNodeByNode policy walk rest).2 = none ↔ last = nodes.length) ∧
      (last < nodes.length → ¬ backend.Dispatches policy inputs nodes last) := by
  induction rest generalizing walk index with
  | nil =>
    have all : nodes.length ≤ index := drop_eq_nil_iff.1 left
    refine ⟨index, Nat.le_refl _, inside, issued, follows, fun before lower upper => ?_, ?_, ?_⟩
    · omega
    · exact iff_of_true rfl (by omega)
    · omega
  | cons node rest ih =>
    have here : nodes[index]? = some node := by
      rw [← List.head?_drop, left]
      rfl
    have later : nodes.drop (index + 1) = rest := by
      rw [← drop_drop, left]
      rfl
    have bound := (List.getElem?_eq_some_iff.1 here).1
    have step := @dispatchNode_spec backend _ _ _ follows node
    rw [issued, length_answers] at step
    unfold runNodeByNode
    rcases step with ⟨next, ids, stepped, resolves, answered, filed, follows'⟩ | ⟨⟨halt, stepped⟩, stops⟩
    · rw [stepped]
      obtain ⟨last, lower, upper, rests⟩ := ih follows' (filed.trans (answers_succ answered).symm) bound later
      refine ⟨last, by omega, upper, rests.1, rests.2.1, fun before lower' upper' => ?_, rests.2.2.2⟩
      by_cases first : before = index
      · subst first
        exact ⟨⟨node, here, resolves⟩, ids, answered⟩
      · exact rests.2.2.1 before (by omega) upper'
    · rw [stepped]
      refine ⟨index, Nat.le_refl _, inside, issued, follows, fun before lower' upper' => ?_, ?_, ?_⟩
      · omega
      · exact iff_of_false (by simp) (by omega)
      · rintro - ⟨⟨node', here', resolves⟩, answered⟩
        cases here'.symm.trans here
        exact stops ⟨resolves, answered⟩

/-- The dispatches that were answered before the walk stopped answered with a buffer exactly when one that
is reached does. -/
theorem answers_filled {last : Nat} (before : ∀ index < last, backend.Dispatches policy inputs nodes index)
    (stops : last < nodes.length → ¬ backend.Dispatches policy inputs nodes last) :
    (backend.answers last).flatten ≠ [] ↔
      ∃ index, (∀ earlier ≤ index, backend.Dispatches policy inputs nodes earlier) ∧
        backend.dispatch index ≠ .ok [] := by
  constructor
  · intro filled
    obtain ⟨id, member⟩ := exists_mem_of_ne_nil _ filled
    obtain ⟨ids, listed, held⟩ := mem_flatten.1 member
    obtain ⟨index, bound, rfl⟩ := mem_map.1 listed
    have early := mem_range.1 bound
    refine ⟨index, fun earlier most => before earlier (by omega), fun empty => ?_⟩
    rw [empty] at held
    cases held
  · rintro ⟨index, reached, filled⟩
    have early : index < last := by
      by_contra late
      have dispatched := reached last (by omega)
      obtain ⟨node, found, -⟩ := dispatched.1
      exact stops (List.getElem?_eq_some_iff.1 found).1 dispatched
    obtain ⟨ids, answered⟩ := (before index early).2
    obtain ⟨id, member⟩ := exists_mem_of_ne_nil ids fun empty => filled (empty ▸ answered)
    apply ne_nil_of_mem (a := id)
    refine mem_flatten.2 ⟨ids, mem_map.2 ⟨index, mem_range.2 early, ?_⟩, member⟩
    rw [answered]
    rfl

variable {planned : List Planned}

theorem length_planAll {values : List Value} {sources : List Source} {allocated : List Nat}
    (resolved : planAll values sources allocated nodes = .ok planned) :
    planned.length = nodes.length := by
  induction nodes generalizing sources allocated planned with
  | nil =>
    cases resolved
    rfl
  | cons node nodes ih =>
    obtain ⟨first, -, resolved⟩ := bind_ok.1 resolved
    obtain ⟨rest, later, resolved⟩ := bind_ok.1 resolved
    cases resolved
    simp [ih later]

variable {issued : List (List ResidentId)}

theorem batch_made (lists : planned.length = issued.length) :
    (planned.zipWith (fun plan ids => deviceAll ids plan.counts plan.classes) issued).flatten.map
        deviceBuffer = issued.flatten.map .ok ∧
      ∀ held ∈ (planned.zipWith (fun plan ids => deviceAll ids plan.counts plan.classes) issued).flatten,
        (∃ id count stated, held = pending id count stated) ↔ Policy.batch = .async := by
  induction planned generalizing issued with
  | nil =>
    obtain rfl := length_eq_zero_iff.1 lists.symm
    exact ⟨rfl, fun held member => absurd member not_mem_nil⟩
  | cons plan planned ih =>
    cases issued with
    | nil => cases lists
    | cons ids issued =>
      obtain ⟨buffers, waited⟩ := ih (Nat.succ.inj lists)
      obtain ⟨buffers', waited'⟩ := map_deviceBuffer_outputs .batch ids plan.counts plan.classes
      refine ⟨?_, fun held member => ?_⟩
      · rw [zipWith_cons_cons, flatten_cons, map_append, buffers, flatten_cons, map_append]
        exact congrArg (· ++ _) buffers'
      · rw [zipWith_cons_cons, flatten_cons] at member
        rcases mem_append.1 member with first | later
        · exact waited' held first
        · exact waited held later

theorem places_of_fits
    (lengths : planned.map (fun plan => plan.classes.length) = issued.map List.length) :
    (planned.mapIdx fun index plan =>
      (List.range plan.classes.length).map fun ordinal => Source.produced index ordinal).flatten =
      places issued := by
  congr 1
  apply ext_getElem?
  intro index
  have here := congrArg (fun lengths => lengths[index]?) lengths
  simp only [getElem?_map] at here
  simp only [getElem?_mapIdx]
  cases first : planned[index]? <;> cases second : issued[index]? <;> rw [first, second] at here
  · rfl
  · cases here
  · cases here
  · have same : _ = _ := some.inj here
    simp only [map_some, same]

/-- What a schedule leaves: a table of the buffers answered so far, whole exactly when every node was
answered. -/
structure Scheduled (backend : ParallelBackend) (policy : Policy) (graph : Graph) (inputs : List Value)
    (ran : Walk × Option Halt) : Prop where
  follows : ran.2 = none → Follows policy inputs ran.1
  answers : ∀ issued, backend.Answers policy graph inputs issued ↔ ran.2 = none ∧ ran.1.issued = issued
  produces : inputs.length = graph.inputs →
    (ran.1.issued.flatten ≠ [] ↔ backend.Produces policy graph inputs)

theorem scheduled_nodes {graph : Graph} (kind : policy ≠ .batch) :
    Scheduled backend policy graph inputs
      (backend.runNodeByNode policy (Walk.start inputs) graph.nodes) := by
  obtain ⟨last, -, inside, issued, follows, before, finished, stops⟩ :=
    @runNodeByNode_spec backend policy inputs _ graph.nodes _ _ (follows_start policy inputs)
      (show (Walk.start inputs).issued = backend.answers 0 from rfl) (Nat.zero_le _)
      (drop_zero (l := graph.nodes))
  have reached : ∀ index < last, backend.Dispatches policy inputs graph.nodes index :=
    fun index early => before index (Nat.zero_le _) early
  refine ⟨fun _ => follows, fun answered => ?_, fun arity => ?_⟩
  · have unfolds : backend.Answers policy graph inputs answered ↔
        answered = backend.answers graph.nodes.length ∧
          ∀ index < graph.nodes.length, backend.Dispatches policy inputs graph.nodes index := by
      cases policy
      · exact Iff.rfl
      · exact Iff.rfl
      · exact absurd rfl kind
    rw [unfolds, finished, issued]
    constructor
    · rintro ⟨rfl, all⟩
      have whole : last = graph.nodes.length := by
        by_contra apart
        exact stops (by omega) (all last (by omega))
      exact ⟨whole, by rw [whole]⟩
    · rintro ⟨rfl, rfl⟩
      exact ⟨rfl, reached⟩
  · rw [issued, answers_filled reached stops]
    cases policy
    · exact (and_iff_right arity).symm
    · exact (and_iff_right arity).symm
    · exact absurd rfl kind

theorem scheduled_halted {graph : Graph} {halt : Halt}
    (unanswered : ∀ issued, ¬ backend.Answers policy graph inputs issued)
    (unproduced : ¬ backend.Produces policy graph inputs) :
    Scheduled backend policy graph inputs (Walk.start inputs, some halt) :=
  ⟨fun none => (by cases none), fun issued => iff_of_false (unanswered issued) (by simp),
    fun _ => iff_of_false (by simp [Walk.start]) unproduced⟩

section

variable {graph : Graph} {callers : List ResidentId}
  (fresh : backend.Fresh graph.nodes.length callers)

include fresh

theorem scheduled_batch :
    Scheduled backend .batch graph inputs (backend.runInOneSubmission inputs graph.nodes) := by
  unfold runInOneSubmission
  cases resolved : GraphIr.runInOneSubmission inputs graph.nodes with
  | error refusal =>
    apply scheduled_halted
    · rintro issued ⟨-, planned, found, -⟩
      rw [resolved] at found
      cases found
    · rintro ⟨-, planned, _, found, -⟩
      rw [resolved] at found
      cases found
  | ok planned =>
    cases answered : backend.runBatch with
    | error refusal =>
      have unanswered : ∀ issued, backend.runBatch ≠ .ok issued := fun issued found => by
        rw [answered] at found
        cases found
      cases refusal <;> exact scheduled_halted (fun issued answers => unanswered issued answers.1)
        fun produces => by
          obtain ⟨-, _, issued, -, found, -⟩ := produces
          exact unanswered issued found
    | ok issued =>
      have lists : planned.length = issued.length :=
        (length_planAll resolved).trans (fresh.batched issued answered).1.symm
      have answers : ∀ other, backend.Answers .batch graph inputs other ↔
          fits planned issued ∧ issued = other := by
        intro other
        constructor
        · rintro ⟨found, planned', found', fitting⟩
          cases answered.symm.trans found
          cases resolved.symm.trans found'
          exact ⟨fitting, rfl⟩
        · rintro ⟨fitting, rfl⟩
          exact ⟨answered, planned, resolved, fitting⟩
      have produces : inputs.length = graph.inputs →
          (issued.flatten ≠ [] ↔ backend.Produces .batch graph inputs) := by
        intro arity
        constructor
        · intro filled
          exact ⟨arity, planned, issued, resolved, answered, filled⟩
        · rintro ⟨-, _, issued', -, found, filled⟩
          cases answered.symm.trans found
          exact filled
      dsimp only
      split
      · rename_i fitting
        refine ⟨fun _ => ⟨⟨_, rfl, batch_made lists⟩, ?_⟩, fun other => ?_, produces⟩
        · have lengths : planned.map (fun plan => plan.classes.length) = issued.map List.length := by
            simpa [fits, lists] using fitting
          exact congrArg _ (places_of_fits lengths)
        · rw [answers, and_iff_right fitting]
          exact (and_iff_right rfl).symm
      · rename_i misfit
        refine ⟨fun none => (by cases none), fun other => ?_, produces⟩
        rw [answers]
        exact iff_of_false (fun both => misfit both.1) (by simp)

theorem scheduled :
    Scheduled backend policy graph inputs (backend.schedule policy graph inputs) := by
  cases policy with
  | serial | async => exact scheduled_nodes (by simp)
  | batch => exact scheduled_batch fresh

end

theorem waitAll_none {table : List (Value × Source)} : backend.waitAll table = none ↔
    ∀ node ∈ table.filterMap inFlight, ∃ done, backend.wait node = .ok done := by
  unfold waitAll
  simp only [List.findSome?_eq_none_iff, mem_eraseDups]
  refine forall₂_congr fun node _ => ?_
  cases backend.wait node <;> simp

theorem inFlight_inv {value : Value} {source : Source} {node : Nat}
    (flying : inFlight (value, source) = some node) : ∃ id count stated ordinal,
      value = .pending id count stated ∧ source = .produced node ordinal := by
  cases value <;> cases source <;> cases flying
  exact ⟨_, _, _, _, rfl, rfl⟩

/-- What is in flight at the end of the walk: every buffer issued, where the host did not wait. -/
theorem mem_inFlight (follows : Follows policy inputs walk) (node : Nat) :
    node ∈ (walk.values.zip walk.sources).filterMap inFlight ↔
      policy = .async ∧ ∃ ids, walk.issued[node]? = some ids ∧ ids ≠ [] := by
  obtain ⟨made, table, buffers, flying⟩ := follows.values
  have lengths : made.length = (places walk.issued).length := by
    rw [length_places, length_made buffers]
  rw [table, follows.sources, zip_append (by simp), ← produced_mem_places]
  constructor
  · intro member
    obtain ⟨⟨value, source⟩, listed, flies⟩ := mem_filterMap.1 member
    obtain ⟨id, count, stated, ordinal, rfl, rfl⟩ := inFlight_inv flies
    rcases mem_append.1 listed with given | produced
    · obtain ⟨_, -, same⟩ := mem_map.1 (of_mem_zip given).2
      cases same
    · have both := of_mem_zip produced
      exact ⟨(flying _ both.1).1 ⟨id, count, stated, rfl⟩, ordinal, both.2⟩
  · rintro ⟨async, ordinal, member⟩
    obtain ⟨index, inside, found⟩ := mem_iff_getElem.1 member
    have inside' : index < made.length := by omega
    obtain ⟨id, count, stated, pending⟩ := (flying _ (getElem_mem inside')).2 async
    refine mem_filterMap.2 ⟨(.pending id count stated, .produced node ordinal),
      mem_append_right _ ?_, rfl⟩
    rw [← pending, ← found, ← getElem_zip (h := by simp; omega)]
    exact getElem_mem _

end Scheduling

section ReadingBack

variable {policy : Policy} {inputs : List Value} {walk : Walk}

theorem deviceBuffer_settled (value : Value) {id : ResidentId} :
    value.settled.deviceBuffer = .ok id ↔ value.deviceBuffer = .ok id := by
  cases value <;> simp [settled, deviceBuffer]

/-- A value of the settled table is read back when it is in the table and no negative number. -/
theorem readBack_settled (follows : Follows policy inputs walk) (value : Nat) :
    (∃ result, readBack (walk.values.map settled) value = .ok result) ↔
      value < inputs.length + walk.issued.flatten.length ∧
        ∀ number, inputs[value]? = some (.int number) → 0 ≤ number := by
  obtain ⟨made, table, buffers, -⟩ := follows.values
  have lengths := length_made buffers
  unfold readBack
  rw [getElem?_map, table]
  by_cases early : value < inputs.length
  · rw [getElem?_append_left early, getElem?_eq_getElem early]
    have inside : value < inputs.length + walk.issued.flatten.length := by omega
    simp only [inside, true_and, map_some, some.injEq]
    cases inputs[value] with
    | int number =>
      by_cases negative : number < 0 <;> simp [settled, returnedRole, negative] <;> omega
    | _ => simp [settled, returnedRole]
  · have late := Nat.not_lt.1 early
    rw [getElem?_append_right late, getElem?_eq_none late]
    cases held : made[value - inputs.length]? with
    | none =>
      have outside := List.getElem?_eq_none_iff.1 held
      refine iff_of_false (by simp) fun both => ?_
      omega
    | some found =>
      have inside := (List.getElem?_eq_some_iff.1 held).1
      refine iff_of_true ?_ ⟨by omega, by simp⟩
      have member : found.deviceBuffer ∈ made.map deviceBuffer :=
        mem_map_of_mem (mem_of_getElem? held)
      rw [buffers] at member
      obtain ⟨id, -, buffer⟩ := mem_map.1 member
      cases found <;> first | exact ⟨_, rfl⟩ | cases buffer

theorem mapM_ok_iff {A B E : Type} (f : A → Except E B) (items : List A) :
    (∃ images, items.mapM f = .ok images) ↔ ∀ item ∈ items, ∃ image, f item = .ok image := by
  have option : ∀ {C : Type} (answer : Except E C), (∃ value, answer = .ok value) ↔
      answer.toOption.isSome := by
    intro C answer
    cases answer <;> simp [Except.toOption]
  simp only [option, toOption_mapM, mapM_isSome_iff]

/-- Each buffer that the caller is not holding is given back, once. -/
theorem givenBack_spec (kept : List ResidentId) {released : List ResidentId} {values : List Value}
    (distinct : released.Nodup) : (givenBack kept released values).Nodup ∧
      ∀ id, id ∈ givenBack kept released values ↔
        id ∈ released ∨ id ∉ kept ∧ ∃ held ∈ values, held.deviceBuffer = .ok id := by
  induction values generalizing released with
  | nil => exact ⟨distinct, fun id => by simp [givenBack]⟩
  | cons value values ih =>
    unfold givenBack
    cases buffer : value.deviceBuffer with
    | error found =>
      refine ⟨(ih distinct).1, fun id => ?_⟩
      simp [(ih distinct).2 id, buffer]
    | ok mine =>
      dsimp only
      split
      · rename_i spared
        refine ⟨(ih distinct).1, fun id => ?_⟩
        rw [(ih distinct).2 id]
        by_cases same : mine = id
        · subst same
          tauto
        · simp [buffer, same]
      · rename_i left
        have distinct' : (released ++ [mine]).Nodup := by
          refine nodup_append.2 ⟨distinct, by simp, fun id earlier other last => ?_⟩
          rintro rfl
          rw [mem_singleton.1 last] at earlier
          exact left (.inr earlier)
        refine ⟨(ih distinct').1, fun id => ?_⟩
        rw [(ih distinct').2 id]
        by_cases same : mine = id
        · subst same
          simp only [mem_append, or_true, true_or, mem_cons,
            exists_eq_or_imp, buffer, true_iff]
          exact .inr ⟨fun held => left (.inl held), trivial⟩
        · simp [buffer, same, Ne.symm same]

end ReadingBack

end ParallelBackend

/-- Every buffer the run's dispatches answered is held by the caller or was released, once, and none of the
caller's own was. -/
structure Ended.Conserves (ended : Ended) (callers : List ResidentId) : Prop where
  settled : ∀ id ∈ ended.produced, (id ∈ ended.held ∧ id ∉ ended.released) ∨
    (id ∉ ended.held ∧ ended.released.count id = 1)
  spared : ∀ id ∈ callers, id ∉ ended.released

theorem conserves_of_halt {produced callers : List ResidentId} {halt : Halt} :
    Ended.Conserves { produced, released := [], returned := .error halt } callers ↔ produced = [] := by
  constructor
  · intro conserves
    by_contra filled
    obtain ⟨id, member⟩ := exists_mem_of_ne_nil _ filled
    rcases conserves.settled id member with held | released
    · exact absurd held.1 not_mem_nil
    · simp at released
  · rintro rfl
    exact ⟨fun id member => absurd member not_mem_nil, fun id _ => not_mem_nil⟩

/-- What a run returns and what it gives back are all that it produced. -/
theorem conserves_of_results {policy : Policy} {inputs : List Value} {walk : Walk}
    {callers : List ResidentId} (follows : Follows policy inputs walk)
    (apart : ∀ id ∈ walk.issued.flatten, id ∉ callers) (results : List RunResult) :
    Ended.Conserves
      { produced := walk.issued.flatten
        released := givenBack (callers ++ results.filterMap RunResult.residentId) []
          (walk.values.map settled)
        returned := .ok results } callers := by
  obtain ⟨distinct, released⟩ := @ParallelBackend.givenBack_spec
    (callers ++ results.filterMap RunResult.residentId) [] (walk.values.map settled) nodup_nil
  refine ⟨fun id member => ?_, fun id mine back => ?_⟩
  · show (id ∈ results.filterMap RunResult.residentId ∧ _) ∨
      (id ∉ results.filterMap RunResult.residentId ∧ _)
    by_cases held : id ∈ results.filterMap RunResult.residentId
    · refine .inl ⟨held, fun back => ?_⟩
      rcases (released id).1 back with none | ⟨left, -⟩
      · cases none
      · exact left (mem_append_right _ held)
    · obtain ⟨made, table, buffers, -⟩ := follows.values
      have listed : .ok id ∈ made.map deviceBuffer := buffers ▸ mem_map_of_mem member
      obtain ⟨value, inside, buffer⟩ := mem_map.1 listed
      refine .inr ⟨held, distinct.count.trans (if_pos ((released id).2 (.inr ⟨?_, value.settled, ?_, ?_⟩)))⟩
      · intro kept
        rcases mem_append.1 kept with mine | held'
        · exact apart id member mine
        · exact held held'
      · rw [table]
        exact mem_map_of_mem (mem_append_right _ inside)
      · exact (ParallelBackend.deviceBuffer_settled value).2 buffer
  · rcases (released id).1 back with none | ⟨left, -⟩
    · cases none
    · exact left (mem_append_left _ mine)

namespace ParallelBackend

variable {backend : ParallelBackend} {policy : Policy} {graph : Graph} {arguments : List RunArgument}

theorem Fresh.apart {inputs : List Value} {callers : List ResidentId} {issued : List (List ResidentId)}
    (fresh : backend.Fresh graph.nodes.length callers) (answers : backend.Answers policy graph inputs issued) :
    ∀ id ∈ issued.flatten, id ∉ callers := by
  have dispatched : issued = backend.answers graph.nodes.length → ∀ id ∈ issued.flatten, id ∉ callers := by
    rintro rfl id member
    obtain ⟨ids, listed, inside⟩ := mem_flatten.1 member
    obtain ⟨node, -, rfl⟩ := mem_map.1 listed
    cases answered : backend.dispatch node with
    | error reason =>
      rw [answered] at inside
      cases inside
    | ok ids =>
      rw [answered] at inside
      exact fresh.dispatched node ids answered id inside
  cases policy with
  | serial | async => exact dispatched answers.1
  | batch => exact (fresh.batched issued answers.1).2

/-- A run on a backend keeps every buffer exactly when nothing stops it after one was answered. -/
theorem runAligned_conserves_iff
    (fresh : backend.Fresh graph.nodes.length (arguments.filterMap RunArgument.residentId)) :
    (backend.runAligned policy graph arguments).Conserves (arguments.filterMap RunArgument.residentId) ↔
      (backend.Produces policy graph (arguments.map RunArgument.value) →
        ∃ issued, backend.Finishes policy graph (arguments.map RunArgument.value) issued) := by
  have spec := @scheduled backend policy (arguments.map RunArgument.value) _ _ fresh
  have stopped : ∀ {walk : Walk} {halt : Halt},
      (backend.schedule policy graph (arguments.map RunArgument.value)).1.issued = walk.issued →
      (arguments.map RunArgument.value).length = graph.inputs →
      (¬ ∃ issued, backend.Finishes policy graph (arguments.map RunArgument.value) issued) →
      (Ended.Conserves { produced := walk.issued.flatten, released := [], returned := .error halt }
        (arguments.filterMap RunArgument.residentId) ↔
        (backend.Produces policy graph (arguments.map RunArgument.value) →
          ∃ issued, backend.Finishes policy graph (arguments.map RunArgument.value) issued)) := by
    intro walk halt issued arity unfinished
    rw [conserves_of_halt, ← issued, imp_iff_not unfinished, ← spec.produces arity, not_not]
  unfold runAligned runGraph
  by_cases arity : (arguments.map RunArgument.value).length = graph.inputs
  · rw [if_neg (not_not.2 arity)]
    cases ran : backend.schedule policy graph (arguments.map RunArgument.value) with
    | mk walk outcome =>
      rw [ran] at spec stopped
      cases outcome with
      | some halt =>
        refine stopped rfl arity ?_
        rintro ⟨issued, finishes⟩
        cases ((spec.answers issued).1 finishes.answers).1
      | none =>
        have follows := spec.follows rfl
        dsimp only
        cases waited : backend.waitAll (walk.values.zip walk.sources) with
        | some halt =>
          refine stopped rfl arity ?_
          rintro ⟨issued, finishes⟩
          obtain ⟨-, rfl⟩ := (spec.answers issued).1 finishes.answers
          have waits : backend.waitAll (walk.values.zip walk.sources) = none := by
            rw [waitAll_none]
            intro node flying
            obtain ⟨async, ids, issued, filled⟩ := (mem_inFlight follows node).1 flying
            exact finishes.waits async node ids issued filled
          rw [waited] at waits
          cases waits
        | none =>
          have waits := waitAll_none.1 waited
          have length : (walk.values.map settled).length =
              (arguments.map RunArgument.value).length + walk.issued.flatten.length := by
            obtain ⟨made, table, buffers, -⟩ := follows.values
            rw [length_map, table, length_append]
            exact congrArg _ (length_made buffers)
          have reads := mapM_ok_iff (readBack (walk.values.map settled))
            (graph.returns.getD (List.range (walk.values.map settled).length))
          simp only [readBack_settled follows] at reads
          dsimp only
          cases back : (graph.returns.getD (List.range (walk.values.map settled).length)).mapM
              (readBack (walk.values.map settled)) with
          | error refusal =>
            refine stopped rfl arity ?_
            rintro ⟨issued, finishes⟩
            obtain ⟨-, rfl⟩ := (spec.answers issued).1 finishes.answers
            obtain ⟨results, found⟩ := reads.2 (length ▸ finishes.readable)
            rw [back] at found
            cases found
          | ok results =>
            have readable := reads.1 ⟨results, back⟩
            rw [length] at readable
            refine iff_of_true ?_ fun _ => ⟨walk.issued, (spec.answers _).2 ⟨rfl, rfl⟩, ?_, readable⟩
            · exact conserves_of_results follows (fresh.apart ((spec.answers _).2 ⟨rfl, rfl⟩)) results
            · intro async node ids issued filled
              exact waits node ((mem_inFlight follows node).2 ⟨async, ids, issued, filled⟩)
  · rw [if_pos arity]
    refine iff_of_true (conserves_of_halt.2 rfl) fun produces => absurd produces.1 arity

end ParallelBackend

/-- A run keeps every buffer its dispatches answer exactly when nothing stops it after one of them. -/
theorem run_conserves_iff (installed : Option ParallelBackend) (cpu : Bool) (policy : Policy) (graph : Graph)
    (arguments : List RunArgument)
    (fresh : ∀ backend rebuilt, installed = some backend → aligned graph arguments = .ok rebuilt →
      backend.Fresh rebuilt.nodes.length (arguments.filterMap RunArgument.residentId)) :
    (run installed cpu policy graph arguments).Conserves (arguments.filterMap RunArgument.residentId) ↔
      ∀ backend rebuilt, installed = some backend → cpu = false → aligned graph arguments = .ok rebuilt →
        backend.Produces policy rebuilt (arguments.map RunArgument.value) →
          ∃ issued, backend.Finishes policy rebuilt (arguments.map RunArgument.value) issued := by
  unfold run
  cases installed with
  | none => exact iff_of_true (conserves_of_halt.2 rfl) fun _ _ same => by cases same
  | some backend =>
    cases cpu with
    | true => exact iff_of_true (conserves_of_halt.2 rfl) fun _ _ _ other => by cases other
    | false =>
      cases rebuilt : aligned graph arguments with
      | error refusal => exact iff_of_true (conserves_of_halt.2 rfl) fun _ _ _ _ other => by cases other
      | ok out =>
        have settles := @ParallelBackend.runAligned_conserves_iff _ policy _ _
          (fresh backend out rfl rebuilt)
        constructor
        · rintro conserves _ _ same - same' produces
          cases same
          cases same'
          exact settles.1 conserves produces
        · intro all
          exact settles.2 (all backend out rfl rfl rfl)

/-- Two launches that read nothing, the second one's buffer returned. -/
def twoLaunches : Graph where
  nodes := [(countingNode none).1, (countingNode none).1]
  inputs := 0
  values := 2
  returns := some [1]

/-- A backend that answers the first launch, and the second as it is given. -/
def answering (second : Except String (List ResidentId)) : ParallelBackend where
  dispatch node := if node = 0 then .ok [9] else second
  wait _ := .ok ()
  runBatch := .error .cannot

theorem answering_fresh (second : Except String (List ResidentId)) (nodes : Nat) :
    (answering second).Fresh nodes [] :=
  ⟨fun _ _ _ _ _ => not_mem_nil, fun _ answered => by cases answered⟩

theorem run_conserves_iff_answered :
    (run (some (answering (.ok [10]))) false .serial twoLaunches []).Conserves [] := by
  refine (run_conserves_iff _ false .serial twoLaunches [] fun _ _ same _ =>
    some.inj same ▸ answering_fresh (.ok [10]) _).2 fun _ rebuilt same _ alike _ => ?_
  cases same
  cases alike.symm.trans (show aligned twoLaunches [] = .ok twoLaunches from rfl)
  refine ⟨[[9], [10]], ⟨⟨rfl, fun index early => ?_⟩, fun async => (by cases async), ?_⟩⟩
  · cases index with
    | zero => exact ⟨⟨_, rfl, _, rfl, rfl⟩, _, rfl⟩
    | succ later =>
      obtain rfl : later = 0 := by
        have bound : later + 1 < 2 := early
        omega
      exact ⟨⟨_, rfl, _, rfl, rfl⟩, _, rfl⟩
  · intro value member
    obtain rfl := mem_singleton.1 member
    exact ⟨by decide, fun _ given => by cases given⟩

theorem failed_launch_drops_buffer : (answering (.error "device lost")).Fresh 2 [] ∧
    ¬ (run (some (answering (.error "device lost"))) false .serial twoLaunches []).Conserves [] := by
  have ran : run (some (answering (.error "device lost"))) false .serial twoLaunches [] =
      { produced := [9], released := []
        returned := .error (.backend "dispatching a kernel node" "device lost") } := rfl
  refine ⟨answering_fresh _ 2, ?_⟩
  rw [ran, conserves_of_halt]
  exact cons_ne_nil 9 []

end LichenVm.GraphIr
