import LichenVm.GraphRun

/-! The launches of a run, whether its graph is cut and whichever schedule records it. -/

open List Option

namespace LichenVm.GraphIr

open Walk
open KernelIr (ScalarClass KernelFragment)

section Refusals

variable {A B C E : Type}

theorem toOption_bind (first : Except E A) (next : A → Except E B) :
    (first >>= next).toOption = first.toOption.bind fun value => (next value).toOption := by
  cases first <;> rfl

theorem toOption_mapM (f : A → Except E B) (items : List A) :
    (items.mapM f).toOption = items.mapM fun item => (f item).toOption := by
  induction items with
  | nil => rfl
  | cons item items ih =>
    simp only [mapM_cons, toOption_bind, ih]
    cases (f item).toOption with
    | none => rfl
    | some value => cases items.mapM fun item => (f item).toOption <;> rfl

theorem mapM_mapM (f : A → Option B) (g : B → Option C) (items : List A) :
    (items.mapM f).bind (fun values => values.mapM g) = items.mapM fun item => (f item).bind g := by
  induction items with
  | nil => rfl
  | cons item items ih =>
    rw [mapM_cons, mapM_cons, ← ih]
    cases f item with
    | none => rfl
    | some value =>
      cases items.mapM f with
      | none =>
        show none = (g value).bind fun value => none
        cases g value <;> rfl
      | some values =>
        show (value :: values).mapM g = _
        rw [mapM_cons]
        rfl

end Refusals

/-- The slot a value of the table is read through. -/
def Value.slot : Value → Option BufferSlot
  | .host data _ => some (.host data)
  | .device id _ _ | .pending id _ _ => some (.resident id)
  | .int _ | .float _ => none

def LaunchExtent.allocated : LaunchExtent → Nat
  | host count => count
  | device _ _ capacity => capacity

/-- The range a count means, by the table alone. A device count has the capacity it is given. -/
def rangeOf (values : List Value) (capacity : Nat) : Count → Option LaunchExtent
  | .constant count => some (.host count)
  | .value id => values[id]?.bind fun value => value.asNumber.toOption.bind fun number =>
    if number < 0 then none else some (.host number.toNat)
  | .device id index => values[id]?.bind fun value => value.deviceBuffer.toOption.map fun buffer =>
    .device buffer index capacity

/-- What the backend is handed for a node, by the table alone. -/
def launchOf (values : List Value) (capacity : Nat) (kernel : KernelNode) : Option Launch :=
  if kernel.inputs.length ≠ kernel.fragment.inputs then none
  else (kernel.inputs.mapM fun value => values[value]?.bind Value.slot).bind fun slots =>
    (rangeOf values capacity kernel.count).bind fun extent =>
      (leavesOf 0 kernel values).toOption.map fun leaves =>
        { fragment := kernel.fragment, leaves, slots, extent
          counts := outputCounts kernel.fragment extent.allocated }

namespace Walk

/-- The capacity that a run gives a count: a value of this run has the one its dispatch was allocated
for, and any other the elements it holds. -/
def capacity (walk : Walk) : Count → Nat
  | .device id _ =>
    match walk.sources[id]? with
    | some (.produced dispatch _) => walk.allocated[dispatch]?.getD 0
    | _ => (walk.values[id]?.bind Value.count).getD 0
  | _ => 0

def after (walk : Walk) (node : Answered) (launch : Launch) : Walk where
  values := walk.values ++ deviceAll node.2 launch.counts node.1.fragment.outputClasses
  sources := walk.sources ++
    (List.range node.2.length).map fun ordinal => .produced walk.issued.length ordinal
  allocated := walk.allocated ++ [launch.extent.allocated]
  issued := walk.issued ++ [node.2]

/-- A value of this run is the device buffer issued for it, of the elements its output holds. -/
structure Stands (nodes : List KernelNode) (walk : Walk) : Prop where
  sources : walk.sources.length = walk.values.length
  issued : walk.issued.length = nodes.length
  allocated : walk.allocated.length = nodes.length
  produced : ∀ (value dispatch ordinal : Nat), walk.sources[value]? = some (Source.produced dispatch ordinal) →
    ∃ node id launched stated, nodes[dispatch]? = some node ∧ ordinal < node.fragment.outputs ∧
      issuedAt walk.issued dispatch ordinal = some id ∧ walk.allocated[dispatch]? = some launched ∧
      walk.values[value]? =
        some (Value.device id ((outputCounts node.fragment launched)[ordinal]?.getD 0) stated)

theorem stands_start (inputs : List Value) : (start inputs).Stands [] := by
  refine ⟨length_map _, rfl, rfl, fun value dispatch ordinal found => ?_⟩
  have given : ((inputs.map fun _ => Source.given)[value]?) = some (Source.produced dispatch ordinal) := found
  rw [getElem?_map] at given
  obtain ⟨_, -, same⟩ := map_eq_some_iff.1 given
  cases same

end Walk

section Resolved

variable {nodes : List KernelNode} {walk : Walk}

theorem inputOf_slot (stands : walk.Stands nodes) (node : Nat) (value : ValueId) :
    (inputOf node walk.values walk.sources value).toOption.bind (slotOf walk.issued) =
      walk.values[value]?.bind Value.slot := by
  unfold inputOf
  split
  · rename_i dispatch ordinal found
    obtain ⟨_, id, _, stated, -, -, issued, -, held⟩ := stands.produced value dispatch ordinal found
    show (issuedAt walk.issued dispatch ordinal).map BufferSlot.resident = _
    rw [held, issued]
    rfl
  · cases walk.values[value]? with
    | none => rfl
    | some held => cases held <;> rfl

/-- An extent resolves to what the table says, at the capacity this run gives it. -/
theorem extentOf_range (stands : walk.Stands nodes) (node : Nat) (count : Count) :
    (extentOf node walk.values walk.sources walk.allocated count).toOption.bind
      (fun extent => (launchExtent walk.issued extent).map fun range => (extent.allocated, range)) =
    (rangeOf walk.values (walk.capacity count) count).map fun range => (range.allocated, range) := by
  cases count with
  | constant count => rfl
  | value id =>
    simp only [extentOf, extentOfValue, rangeOf]
    cases walk.values[id]? with
    | none => rfl
    | some value =>
      dsimp only [bind_some]
      cases reads : value.asNumber with
      | error found => simp [Except.toOption]
      | ok number =>
        by_cases negative : number < 0
        · simp [negative, Except.toOption]
        · simp [negative, Except.toOption, launchExtent, BatchExtent.allocated,
            LaunchExtent.allocated]
  | device id index =>
    simp only [extentOf, rangeOf, Walk.capacity]
    split
    · rename_i dispatch ordinal found
      obtain ⟨_, buffer, launched, stated, -, -, issued, allocated, held⟩ :=
        stands.produced id dispatch ordinal found
      simp [launchExtent, issued, held, found, Value.deviceBuffer, Except.toOption,
        BatchExtent.allocated, LaunchExtent.allocated]
    · cases held : walk.values[id]? with
      | none => rfl
      | some value =>
        cases value <;> simp [Value.deviceBuffer, Except.toOption, launchExtent,
          BatchExtent.allocated, LaunchExtent.allocated]

theorem leafOf_toOption (node other : Nat) (values : List Value) (stated : ScalarClass)
    (scalar : Scalar) :
    (leafOf node values stated scalar).toOption = (leafOf other values stated scalar).toOption := by
  cases scalar with
  | constant leaf => rfl
  | value id =>
    unfold leafOf
    dsimp only
    cases values[id]? with
    | none => rfl
    | some value =>
      unfold leafOfValue
      dsimp only
      cases value.bitsAt stated with
      | ok bits => rfl
      | error refusal => cases refusal <;> rfl

theorem leavesOf_toOption (node other : Nat) (kernel : KernelNode) (values : List Value) :
    (leavesOf node kernel values).toOption = (leavesOf other kernel values).toOption := by
  unfold leavesOf
  split
  · rfl
  · rw [toOption_mapM, toOption_mapM]
    simp only [leafOf_toOption node other]

theorem plan_toOption (node : Nat) (kernel : KernelNode) (values : List Value) (sources : List Source)
    (allocated : List Nat) : (plan node kernel values sources allocated).toOption =
      if kernel.inputs.length ≠ kernel.fragment.inputs then none
      else (kernel.inputs.mapM fun value => (inputOf node values sources value).toOption).bind
        fun inputs => (extentOf node values sources allocated kernel.count).toOption.bind
          fun extent => (leavesOf 0 kernel values).toOption.map fun leaves =>
            { fragment := kernel.fragment, leaves, inputs, extent
              classes := kernel.fragment.outputClasses
              counts := outputCounts kernel.fragment extent.allocated } := by
  unfold plan
  split
  · rfl
  · rw [toOption_bind, toOption_mapM]
    refine Option.bind_congr fun inputs _ => ?_
    rw [toOption_bind]
    refine Option.bind_congr fun extent _ => ?_
    rw [toOption_bind, leavesOf_toOption node 0]
    cases (leavesOf 0 kernel values).toOption <;> rfl

theorem plan_launch (stands : walk.Stands nodes) (node : Nat) (kernel : KernelNode) :
    ((plan node kernel walk.values walk.sources walk.allocated).toOption.bind fun planned =>
      (planned.launch walk.issued).map fun launch => (planned, launch)).map
        (fun both => (both.1.classes, both.1.counts, both.1.extent.allocated, both.2)) =
      (launchOf walk.values (walk.capacity kernel.count) kernel).map fun launch =>
        (kernel.fragment.outputClasses, launch.counts, launch.extent.allocated, launch) := by
  have slots : (kernel.inputs.mapM fun value =>
      (inputOf node walk.values walk.sources value).toOption).bind (fun inputs =>
        inputs.mapM (slotOf walk.issued)) =
      kernel.inputs.mapM fun value => walk.values[value]?.bind Value.slot := by
    rw [mapM_mapM]
    simp only [inputOf_slot stands]
  have range := extentOf_range stands node kernel.count
  rw [plan_toOption]
  unfold launchOf
  split
  · rfl
  rw [← slots]
  cases (kernel.inputs.mapM fun value => (inputOf node walk.values walk.sources value).toOption) with
  | none => rfl
  | some inputs =>
    simp only [bind_some]
    cases extent : (extentOf node walk.values walk.sources walk.allocated kernel.count).toOption with
    | none =>
      rw [extent] at range
      have absent : rangeOf walk.values (walk.capacity kernel.count) kernel.count = none :=
        map_eq_none_iff.1 range.symm
      rw [absent]
      cases inputs.mapM (slotOf walk.issued) <;> rfl
    | some extent' =>
      rw [extent, bind_some] at range
      cases (leavesOf 0 kernel walk.values).toOption with
      | none =>
        cases inputs.mapM (slotOf walk.issued) with
        | none => rfl
        | some slots =>
          cases rangeOf walk.values (walk.capacity kernel.count) kernel.count <;> rfl
      | some leaves =>
        simp only [map_some, bind_some, Planned.launch]
        cases inputs.mapM (slotOf walk.issued) with
        | none => rfl
        | some slots =>
          cases launched : launchExtent walk.issued extent' with
          | none =>
            rw [launched] at range
            have absent : rangeOf walk.values (walk.capacity kernel.count) kernel.count = none :=
              map_eq_none_iff.1 range.symm
            rw [absent]
            simp
          | some launched' =>
            rw [launched, map_some] at range
            obtain ⟨range', found, same⟩ := map_eq_some_iff.1 range.symm
            obtain ⟨allocates, rfl⟩ := Prod.mk.inj same
            rw [found]
            simp [allocates]

theorem dispatch_launch (stands : walk.Stands nodes) (node : Answered) :
    (dispatch walk node).toOption =
      (launchOf walk.values (walk.capacity node.1.count) node.1).map fun launch =>
        (launch, walk.after node launch) := by
  have launches := congrArg (Option.map fun both : List ScalarClass × List Nat × Nat × Launch =>
    (both.2.2.2,
      { values := walk.values ++ deviceAll node.2 both.2.1 both.1
        sources := walk.sources ++
          (List.range node.2.length).map fun ordinal => .produced walk.issued.length ordinal
        allocated := walk.allocated ++ [both.2.2.1]
        issued := walk.issued ++ [node.2] : Walk })) (plan_launch stands walk.issued.length node.1)
  rw [Option.map_map, Option.map_map] at launches
  refine Eq.trans ?_ launches
  unfold dispatch
  cases plan walk.issued.length node.1 walk.values walk.sources walk.allocated with
  | error refusal => rfl
  | ok planned =>
    show _ = ((planned.launch walk.issued).map _).map _
    dsimp only
    cases planned.launch walk.issued <;> rfl

theorem launchOf_inv {values : List Value} {capacity : Nat} {kernel : KernelNode} {launch : Launch}
    (launched : launchOf values capacity kernel = some launch) :
    rangeOf values capacity kernel.count = some launch.extent ∧
      launch.counts = outputCounts kernel.fragment launch.extent.allocated := by
  unfold launchOf at launched
  split at launched
  · cases launched
  · obtain ⟨slots, -, launched⟩ := bind_eq_some_iff.1 launched
    obtain ⟨extent, range, launched⟩ := bind_eq_some_iff.1 launched
    obtain ⟨leaves, -, rfl⟩ := map_eq_some_iff.1 launched
    exact ⟨range, rfl⟩

theorem issuedAt_append {issued more : List (List ResidentId)} {dispatch ordinal : Nat}
    {id : ResidentId} (found : issuedAt issued dispatch ordinal = some id) :
    issuedAt (issued ++ more) dispatch ordinal = some id := by
  obtain ⟨ids, at_dispatch, at_ordinal⟩ := bind_eq_some_iff.1 found
  rw [issuedAt, getElem?_append_left (List.getElem?_eq_some_iff.1 at_dispatch).1, at_dispatch]
  exact at_ordinal

theorem Walk.Stands.after (stands : walk.Stands nodes) {node : Answered} {capacity : Nat}
    {launch : Launch} (answered : node.2.length = node.1.fragment.outputs)
    (launched : launchOf walk.values capacity node.1 = some launch) :
    (walk.after node launch).Stands (nodes ++ [node.1]) := by
  have produces : (deviceAll node.2 launch.counts node.1.fragment.outputClasses).length =
      node.2.length := length_mapIdx
  refine ⟨?_, ?_, ?_, fun value dispatch ordinal found => ?_⟩
  · show (walk.sources ++ _).length = (walk.values ++ _).length
    rw [length_append, length_append, produces, length_map, length_range, stands.sources]
  · show (walk.issued ++ [node.2]).length = _
    rw [length_append, length_append, stands.issued]
    rfl
  · show (walk.allocated ++ [_]).length = _
    rw [length_append, length_append, stands.allocated]
    rfl
  · have found : (walk.sources ++ (List.range node.2.length).map fun ordinal =>
        Source.produced walk.issued.length ordinal)[value]? =
          some (Source.produced dispatch ordinal) := found
    by_cases inside : value < walk.sources.length
    · rw [getElem?_append_left inside] at found
      obtain ⟨filed, id, count, stated, at_dispatch, declared, issued, allocated, held⟩ :=
        stands.produced value dispatch ordinal found
      refine ⟨filed, id, count, stated, ?_, declared, issuedAt_append issued, ?_, ?_⟩
      · rw [getElem?_append_left (List.getElem?_eq_some_iff.1 at_dispatch).1, at_dispatch]
      · show (walk.allocated ++ [_])[dispatch]? = _
        rw [getElem?_append_left (List.getElem?_eq_some_iff.1 allocated).1, allocated]
      · show (walk.values ++ _)[value]? = _
        rw [getElem?_append_left (by rw [← stands.sources]; exact inside), held]
    · rw [getElem?_append_right (not_lt.1 inside), getElem?_map] at found
      obtain ⟨place, ranged, same⟩ := map_eq_some_iff.1 found
      obtain ⟨placed, rfl⟩ := List.getElem?_eq_some_iff.1 ranged
      rw [length_range] at placed
      rw [getElem_range] at same
      obtain ⟨rfl, rfl⟩ := Source.produced.inj same
      refine ⟨node.1, node.2[value - walk.sources.length], launch.extent.allocated,
        node.1.fragment.outputClasses[value - walk.sources.length]?.getD .int, ?_,
        answered ▸ placed, ?_, ?_, ?_⟩
      · rw [stands.issued, getElem?_append_right (le_refl _), Nat.sub_self]
        rfl
      · show (walk.issued ++ [node.2])[walk.issued.length]?.bind _ = _
        rw [getElem?_append_right (le_refl _), Nat.sub_self]
        exact getElem?_eq_getElem placed
      · show (walk.allocated ++ [_])[walk.issued.length]? = _
        rw [stands.issued, ← stands.allocated, getElem?_append_right (le_refl _), Nat.sub_self]
        rfl
      · show (walk.values ++ _)[value]? = _
        rw [getElem?_append_right (by rw [← stands.sources]; exact not_lt.1 inside),
          ← stands.sources, (launchOf_inv launched).2, deviceAll, getElem?_mapIdx,
          getElem?_eq_getElem placed]
        rfl

theorem outputCounts_get {fragment : KernelFragment} {launch ordinal : Nat}
    (inside : ordinal < fragment.outputs) : (outputCounts fragment launch)[ordinal]? =
      some ((fragment.roles.outputExtents[ordinal]?.join).getD launch) := by
  unfold outputCounts
  by_cases stated : ordinal < fragment.roles.outputExtents.length
  · rw [getElem?_append_left (by simp [inside, stated]), getElem?_take_of_lt inside,
      getElem?_map, getElem?_eq_getElem stated]
    rfl
  · have short : ((fragment.roles.outputExtents.map fun extent => extent.getD launch).take
        fragment.outputs).length = fragment.roles.outputExtents.length := by
      rw [length_take, length_map]
      omega
    rw [getElem?_append_right (by omega), short, length_map, getElem?_replicate,
      if_pos (by omega), getElem?_eq_none (not_lt.1 stated)]
    rfl

end Resolved

section Cut

variable {base whole cut : Walk} {before ns ns' : List KernelNode}

theorem runNodeByNode_cons (walk : Walk) (node : Answered) (nodes : List Answered) :
    (runNodeByNode walk (node :: nodes)).toOption = (dispatch walk node).toOption.bind fun first =>
      (runNodeByNode first.2 nodes).toOption.map fun rest => (first.1 :: rest.1, rest.2) := by
  rw [runNodeByNode, toOption_bind]
  refine Option.bind_congr fun first _ => ?_
  obtain ⟨launch, next⟩ := first
  rw [toOption_bind]
  cases (runNodeByNode next nodes).toOption <;> rfl

/-- A source as a run names it that has dispatched so many nodes more. -/
def Source.later (dispatched : Nat) : Source → Source
  | given => given
  | produced dispatch ordinal => produced (dispatched + dispatch) ordinal

/-- One run goes on from where the graph is cut, the other starts there anew, with the values it finds
given. -/
structure Severed (base whole cut : Walk) : Prop where
  values : cut.values = whole.values
  issued : whole.issued.length = base.issued.length + cut.issued.length
  allocated : whole.allocated = base.allocated ++ cut.allocated
  given : ∀ value < base.values.length, whole.sources[value]? = base.sources[value]? ∧
    cut.sources[value]? = some Source.given ∧ whole.values[value]? = base.values[value]?
  later : ∀ value, base.values.length ≤ value →
    whole.sources[value]? = cut.sources[value]?.map (Source.later base.issued.length)

theorem severed_start (stands : base.Stands before) : Severed base base (start base.values) := by
  refine ⟨rfl, rfl, (append_nil _).symm, fun value inside => ⟨rfl, ?_, rfl⟩, fun value outside => ?_⟩
  · show (base.values.map fun _ => Source.given)[value]? = _
    rw [getElem?_map, getElem?_eq_getElem inside]
    rfl
  · show base.sources[value]? = ((base.values.map fun _ => Source.given)[value]?).map _
    rw [getElem?_eq_none (by rw [stands.sources]; exact outside),
      getElem?_eq_none (by rw [length_map]; exact outside)]
    rfl

/-- A launch that both hand over keeps them apart only by where the graph is cut. -/
theorem Severed.after (severed : Severed base whole cut) (wholeStands : whole.Stands ns)
    (cutStands : cut.Stands ns') (inside : base.values.length ≤ whole.values.length) (node : Answered)
    (launch : Launch) : Severed base (whole.after node launch) (cut.after node launch) := by
  have lengths : cut.sources.length = whole.sources.length := by
    rw [cutStands.sources, wholeStands.sources, severed.values]
  refine ⟨?_, ?_, ?_, fun value early => ?_, fun value late => ?_⟩
  · show cut.values ++ _ = whole.values ++ _
    rw [severed.values]
  · show (whole.issued ++ [_]).length = _ + (cut.issued ++ [_]).length
    rw [length_append, length_append, severed.issued, add_assoc]
  · show whole.allocated ++ [_] = base.allocated ++ (cut.allocated ++ [_])
    rw [severed.allocated, append_assoc]
  · obtain ⟨source, given, held⟩ := severed.given value early
    refine ⟨?_, ?_, ?_⟩
    · show (whole.sources ++ _)[value]? = _
      rw [getElem?_append_left (by rw [wholeStands.sources]; omega), source]
    · show (cut.sources ++ _)[value]? = _
      rw [getElem?_append_left (by rw [lengths, wholeStands.sources]; omega), given]
    · show (whole.values ++ _)[value]? = _
      rw [getElem?_append_left (by omega), held]
  · show (whole.sources ++ _)[value]? = ((cut.sources ++ _)[value]?).map _
    by_cases early : value < whole.sources.length
    · rw [getElem?_append_left early, getElem?_append_left (by rw [lengths]; exact early)]
      exact severed.later value late
    · rw [getElem?_append_right (not_lt.1 early),
        getElem?_append_right (by rw [lengths]; exact not_lt.1 early), lengths,
        getElem?_map, getElem?_map, Option.map_map, severed.issued]
      rfl

/-- A count over a value from before the cut holds as many elements as its launch was allocated for. -/
def Walk.Agrees (base : Walk) : Count → Prop
  | .device value _ => ∀ dispatch ordinal, base.sources[value]? = some (Source.produced dispatch ordinal) →
      base.values[value]?.bind Value.count = base.allocated[dispatch]?
  | _ => True

/-- The two runs give a count one capacity exactly when it agrees with its value. -/
theorem Severed.capacity (severed : Severed base whole cut) (stands : base.Stands before)
    (count : Count) : whole.capacity count = cut.capacity count ↔ base.Agrees count := by
  cases count with
  | constant count | value id => exact ⟨fun _ => trivial, fun _ => rfl⟩
  | device id index =>
    by_cases early : id < base.values.length
    · obtain ⟨source, given, held⟩ := severed.given id early
      have again : cut.capacity (.device id index) = (base.values[id]?.bind Value.count).getD 0 := by
        simp only [Walk.capacity, given, severed.values, held]
      rw [again]
      cases from_base : base.sources[id]? with
      | none =>
        have outside := List.getElem?_eq_none_iff.1 from_base
        rw [stands.sources] at outside
        exact absurd early (not_lt.2 outside)
      | some source' =>
        rw [from_base] at source
        cases source' with
        | given =>
          have first : whole.capacity (.device id index) =
              (base.values[id]?.bind Value.count).getD 0 := by
            simp only [Walk.capacity, source, held]
          rw [first]
          refine ⟨fun _ dispatch ordinal produced => ?_, fun _ => rfl⟩
          rw [from_base] at produced
          cases produced
        | produced dispatch ordinal =>
          obtain ⟨node, buffer, launched, stated, -, -, -, allocated, at_value⟩ :=
            stands.produced id dispatch ordinal from_base
          have first : whole.capacity (.device id index) = launched := by
            simp only [Walk.capacity, source, severed.allocated]
            rw [getElem?_append_left (List.getElem?_eq_some_iff.1 allocated).1, allocated]
            rfl
          have counted : base.values[id]?.bind Value.count =
              some ((outputCounts node.fragment launched)[ordinal]?.getD 0) := by
            rw [at_value]
            rfl
          rw [first, counted]
          constructor
          · intro same dispatch' ordinal' produced
            obtain ⟨rfl, rfl⟩ := Source.produced.inj (some.inj (from_base.symm.trans produced))
            exact counted.trans ((congrArg some same.symm).trans allocated.symm)
          · intro agrees
            have same := agrees dispatch ordinal from_base
            rw [counted, allocated] at same
            rw [some.inj same]
            rfl
    · have late := not_lt.1 early
      have outside : base.sources[id]? = none :=
        getElem?_eq_none (by rw [stands.sources]; exact late)
      refine ⟨fun _ dispatch ordinal produced => ?_, fun _ => ?_⟩
      · rw [outside] at produced
        cases produced
      · have source := severed.later id late
        cases given : cut.sources[id]? with
        | none =>
          simp only [Walk.capacity, source, given, map_none, severed.values]
        | some source' =>
          cases source' with
          | given => simp only [Walk.capacity, source, given, map_some, Source.later, severed.values]
          | produced dispatch ordinal =>
            simp only [Walk.capacity, source, given, map_some, Source.later, severed.allocated]
            have counts : base.issued.length = base.allocated.length :=
              stands.issued.trans stands.allocated.symm
            rw [counts, getElem?_append_right (Nat.le_add_right _ _), Nat.add_sub_cancel_left]

/-- Where every count agrees with its value, both runs hand over the same launches. -/
theorem runs_agree {nodes : List Answered} (stands : base.Stands before)
    (severed : Severed base whole cut) (wholeStands : whole.Stands ns) (cutStands : cut.Stands ns')
    (inside : base.values.length ≤ whole.values.length)
    (answered : ∀ node ∈ nodes, node.2.length = node.1.fragment.outputs)
    (agrees : ∀ node ∈ nodes, base.Agrees node.1.count) :
    (runNodeByNode whole nodes).toOption.map Prod.fst =
      (runNodeByNode cut nodes).toOption.map Prod.fst := by
  induction nodes generalizing whole cut ns ns' with
  | nil => rfl
  | cons node nodes ih =>
    have capacity := (severed.capacity stands node.1.count).2
      (agrees node mem_cons_self)
    rw [runNodeByNode_cons, runNodeByNode_cons, dispatch_launch wholeStands,
      dispatch_launch cutStands, severed.values, capacity]
    cases launched : launchOf whole.values (cut.capacity node.1.count) node.1 with
    | none => rfl
    | some launch =>
      have listed := answered node mem_cons_self
      have rest := ih
        (severed.after wholeStands cutStands inside node launch)
        (wholeStands.after listed launched)
        (cutStands.after listed (by rw [severed.values]; exact launched))
        (by
          show _ ≤ (whole.values ++ _).length
          rw [length_append]
          omega)
        (fun other member => answered other (mem_cons_of_mem _ member))
        (fun other member => agrees other (mem_cons_of_mem _ member))
      simp only [map_some, bind_some, Option.map_map]
      have first : ∀ run : Option (List Launch × Walk),
          run.map (Prod.fst ∘ fun rest => (launch :: rest.1, rest.2)) =
            (run.map Prod.fst).map (launch :: ·) := by
        intro run
        cases run <;> rfl
      rw [first, first, rest]

/-- Where both runs hand over the same launches, every count agrees with its value. -/
theorem agrees_of_runs {nodes : List Answered} {launches : List Launch} (stands : base.Stands before)
    (severed : Severed base whole cut) (wholeStands : whole.Stands ns) (cutStands : cut.Stands ns')
    (inside : base.values.length ≤ whole.values.length)
    (answered : ∀ node ∈ nodes, node.2.length = node.1.fragment.outputs)
    (ran : (runNodeByNode whole nodes).toOption.map Prod.fst = some launches)
    (reran : (runNodeByNode cut nodes).toOption.map Prod.fst = some launches) :
    ∀ node ∈ nodes, base.Agrees node.1.count := by
  induction nodes generalizing whole cut ns ns' launches with
  | nil => exact fun node member => by cases member
  | cons node nodes ih =>
    have step : ∀ (walk : Walk) (nodes' : List KernelNode), walk.Stands nodes' →
        (runNodeByNode walk (node :: nodes)).toOption.map Prod.fst = some launches →
        ∃ launch rest, launches = launch :: rest ∧
          launchOf walk.values (walk.capacity node.1.count) node.1 = some launch ∧
          (runNodeByNode (walk.after node launch) nodes).toOption.map Prod.fst = some rest := by
      intro walk nodes' standing handed
      rw [runNodeByNode_cons, dispatch_launch standing] at handed
      obtain ⟨both, run, rfl⟩ := map_eq_some_iff.1 handed
      obtain ⟨first, dispatched, run⟩ := bind_eq_some_iff.1 run
      obtain ⟨launch, launched, rfl⟩ := map_eq_some_iff.1 dispatched
      obtain ⟨rest, remaining, rfl⟩ := map_eq_some_iff.1 run
      exact ⟨launch, rest.1, rfl, launched, by rw [remaining]; rfl⟩
    obtain ⟨launch, rest, rfl, launched, run⟩ := step whole ns wholeStands ran
    obtain ⟨launch', rest', same, launched', run'⟩ := step cut ns' cutStands reran
    obtain ⟨rfl, rfl⟩ := List.cons.inj same
    rw [severed.values] at launched'
    have capacity : whole.capacity node.1.count = cut.capacity node.1.count := by
      have first := (launchOf_inv launched).1
      have again := (launchOf_inv launched').1
      cases counts : node.1.count with
      | constant count => rfl
      | value id => rfl
      | device id index =>
        rw [counts] at first again
        obtain ⟨value, held, first⟩ := bind_eq_some_iff.1 first
        obtain ⟨value', held', again⟩ := bind_eq_some_iff.1 again
        obtain ⟨buffer, -, first⟩ := map_eq_some_iff.1 first
        obtain ⟨buffer', -, again⟩ := map_eq_some_iff.1 again
        exact (LaunchExtent.device.inj (first.trans again.symm)).2.2
    have listed := answered node mem_cons_self
    have later := ih (severed.after wholeStands cutStands inside node launch)
      (wholeStands.after listed launched)
      (cutStands.after listed (by rw [severed.values]; exact launched'))
      (by
        show _ ≤ (whole.values ++ _).length
        rw [length_append]
        omega)
      (fun other member => answered other (mem_cons_of_mem _ member)) run run'
    exact forall_mem_cons.2 ⟨(severed.capacity stands node.1.count).1 capacity, later⟩

end Cut

section Schedule

variable {inputs : List Value} {walk : Walk}

/-- The walk's table: the values handed in, and the device buffers of this run. -/
structure Grown (inputs : List Value) (walk : Walk) : Prop where
  given : ∀ value < inputs.length, walk.values[value]? = inputs[value]?
  produced : ∀ value, inputs.length ≤ value → ∀ held, walk.values[value]? = some held →
    (∃ dispatch ordinal, walk.sources[value]? = some (Source.produced dispatch ordinal)) ∧
      ∃ id count stated, held = Value.device id count stated

theorem grown_start (inputs : List Value) : Grown inputs (start inputs) := by
  refine ⟨fun _ _ => rfl, fun value late held found => ?_⟩
  have outside : inputs[value]? = none := getElem?_eq_none late
  rw [show (start inputs).values[value]? = inputs[value]? from rfl, outside] at found
  cases found

/-- A table goes on from the values handed in with buffers that the run produces. -/
def Buffered (inputs values : List Value) (sources : List Source) : Prop :=
  ∀ value : ValueId, values[value]? = inputs[value]? ∨ inputs[value]? = none ∧
    (∃ dispatch ordinal, sources[value]? = some (Source.produced dispatch ordinal)) ∧
      ∃ (held : Value) (id : ResidentId), values[value]? = some held ∧ held.deviceBuffer = .ok id

theorem Grown.buffered (grown : Grown inputs walk) : Buffered inputs walk.values walk.sources := by
  intro value
  by_cases early : value < inputs.length
  · exact .inl (grown.given value early)
  · have late := not_lt.1 early
    rw [getElem?_eq_none late]
    cases held : walk.values[value]? with
    | none => exact .inl rfl
    | some found =>
      obtain ⟨produced, id, count, stated, rfl⟩ := grown.produced value late found held
      exact .inr ⟨rfl, produced, _, id, rfl, rfl⟩

namespace Buffered

variable {values : List Value} {sources : List Source}

theorem role {B : Type} (buffered : Buffered inputs values sources) (value : ValueId)
    (role : Value → Option B) (refuses : ∀ (held : Value) id, held.deviceBuffer = .ok id → role held = none) :
    values[value]?.bind role = inputs[value]?.bind role := by
  rcases buffered value with same | ⟨absent, -, held, id, found, buffer⟩
  · rw [same]
  · rw [absent, found]
    exact refuses held id buffer

section

variable (buffered : Buffered inputs values sources)

include buffered

theorem outside (value : ValueId)
    (unproduced : ∀ dispatch ordinal, sources[value]? ≠ some (Source.produced dispatch ordinal)) :
    values[value]? = inputs[value]? := by
  rcases buffered value with same | ⟨-, ⟨dispatch, ordinal, produced⟩, -⟩
  · exact same
  · exact absurd produced (unproduced dispatch ordinal)

variable (node : Nat)

theorem inputOf (value : ValueId) :
    GraphIr.inputOf node values sources value = GraphIr.inputOf node inputs sources value := by
  unfold GraphIr.inputOf
  split
  · rfl
  · rename_i unproduced
    rw [buffered.outside value fun dispatch ordinal => unproduced dispatch ordinal]

theorem extentOf (allocated : List Nat) (count : Count) :
    (GraphIr.extentOf node values sources allocated count).toOption =
      (GraphIr.extentOf node inputs sources allocated count).toOption := by
  cases count with
  | constant count => rfl
  | value id =>
    have role := buffered.role id (fun value => (extentOfValue node id value).toOption)
      fun held _ buffer => by cases held <;> first | rfl | cases buffer
    unfold GraphIr.extentOf
    dsimp only
    cases held : values[id]? <;> cases given : inputs[id]? <;> rw [held, given] at role
    · exact role
    · exact role
    · exact role
  | device id index =>
    unfold GraphIr.extentOf
    dsimp only
    split
    · rfl
    · rename_i unproduced
      rw [buffered.outside id fun dispatch ordinal => unproduced dispatch ordinal]

theorem leavesOf (kernel : KernelNode) :
    (GraphIr.leavesOf node kernel values).toOption =
      (GraphIr.leavesOf node kernel inputs).toOption := by
  have leaf : ∀ stated scalar, (leafOf node values stated scalar).toOption =
      (leafOf node inputs stated scalar).toOption := by
    intro stated scalar
    cases scalar with
    | constant leaf => rfl
    | value id =>
      have role := buffered.role id (fun value => (leafOfValue node id stated value).toOption)
        fun held _ buffer => by cases held <;> first | (cases stated <;> rfl) | cases buffer
      unfold leafOf
      dsimp only
      cases held : values[id]? <;> cases given : inputs[id]? <;> rw [held, given] at role
      · exact role
      · exact role
      · exact role
  unfold GraphIr.leavesOf
  split
  · rfl
  · rw [toOption_mapM, toOption_mapM]
    simp only [leaf]

theorem plan (kernel : KernelNode) (allocated : List Nat) :
    (GraphIr.plan node kernel values sources allocated).toOption =
      (GraphIr.plan node kernel inputs sources allocated).toOption := by
  rw [plan_toOption, plan_toOption, buffered.extentOf, buffered.leavesOf]
  simp only [buffered.inputOf]

end

end Buffered

theorem dispatch_inv {node : Answered} {launch : Launch} {next : Walk}
    (dispatched : dispatch walk node = .ok (launch, next)) : ∃ planned,
      plan walk.issued.length node.1 walk.values walk.sources walk.allocated = .ok planned ∧
        planned.launch walk.issued = some launch ∧
        next = { values := walk.values ++ deviceAll node.2 planned.counts planned.classes
                 sources := walk.sources ++
                   (List.range node.2.length).map fun ordinal => .produced walk.issued.length ordinal
                 allocated := walk.allocated ++ [planned.extent.allocated]
                 issued := walk.issued ++ [node.2] } := by
  unfold dispatch at dispatched
  split at dispatched
  · cases dispatched
  · rename_i planned resolved
    split at dispatched
    · cases dispatched
    · rename_i launch' launched
      cases dispatched
      exact ⟨planned, resolved, launched, rfl⟩

theorem plan_classes {node : Nat} {kernel : KernelNode} {values : List Value} {sources : List Source}
    {allocated : List Nat} {planned : Planned}
    (resolved : plan node kernel values sources allocated = .ok planned) :
    planned.classes = kernel.fragment.outputClasses := by
  have option := plan_toOption node kernel values sources allocated
  rw [resolved] at option
  split at option
  · cases option
  · obtain ⟨inputs, -, option⟩ := bind_eq_some_iff.1 option.symm
    obtain ⟨extent, -, option⟩ := bind_eq_some_iff.1 option
    obtain ⟨leaves, -, rfl⟩ := map_eq_some_iff.1 option
    rfl

theorem launch_append {planned : Planned} {launch : Launch} {issued more : List (List ResidentId)}
    (launched : planned.launch issued = some launch) :
    planned.launch (issued ++ more) = some launch := by
  obtain ⟨slots, found, launched⟩ := bind_eq_some_iff.1 launched
  obtain ⟨extent, range, launched⟩ := bind_eq_some_iff.1 launched
  have slot : ∀ input slot, slotOf issued input = some slot → slotOf (issued ++ more) input = some slot := by
    intro input slot found
    cases input with
    | produced dispatch ordinal =>
      obtain ⟨id, at_place, rfl⟩ := map_eq_some_iff.1 found
      show (issuedAt (issued ++ more) dispatch ordinal).map _ = _
      rw [issuedAt_append at_place]
      rfl
    | _ => exact found
  have range' : launchExtent (issued ++ more) planned.extent = some extent := by
    cases extents : planned.extent with
    | produced dispatch ordinal index capacity =>
      rw [extents] at range
      obtain ⟨id, at_place, rfl⟩ := map_eq_some_iff.1 range
      show (issuedAt (issued ++ more) dispatch ordinal).map _ = _
      rw [issuedAt_append at_place]
      rfl
    | _ =>
      rw [extents] at range
      exact range
  unfold Planned.launch
  rw [Traverse.mapM_mono slot found]
  show (launchExtent (issued ++ more) planned.extent).bind _ = _
  rw [range']
  exact launched

theorem Grown.after (grown : Grown inputs walk) {nodes : List KernelNode} (stands : walk.Stands nodes)
    (inside : inputs.length ≤ walk.values.length) (node : Answered) (counts allocated : List Nat)
    (classes : List ScalarClass) : Grown inputs
      { values := walk.values ++ deviceAll node.2 counts classes
        sources := walk.sources ++
          (List.range node.2.length).map fun ordinal => .produced walk.issued.length ordinal
        allocated, issued := walk.issued ++ [node.2] } := by
  refine ⟨fun value early => ?_, fun value late held found => ?_⟩
  · show (walk.values ++ _)[value]? = _
    rw [getElem?_append_left (by omega)]
    exact grown.given value early
  · have found : (walk.values ++ deviceAll node.2 counts classes)[value]? = some held := found
    show (∃ dispatch ordinal, (walk.sources ++ _)[value]? = _) ∧ _
    by_cases early : value < walk.values.length
    · rw [getElem?_append_left early] at found
      obtain ⟨⟨dispatch, ordinal, produced⟩, device⟩ := grown.produced value late held found
      refine ⟨⟨dispatch, ordinal, ?_⟩, device⟩
      rw [getElem?_append_left (by rw [stands.sources]; exact early), produced]
    · rw [getElem?_append_right (not_lt.1 early), deviceAll, getElem?_mapIdx] at found
      obtain ⟨id, at_place, rfl⟩ := map_eq_some_iff.1 found
      have placed := (List.getElem?_eq_some_iff.1 at_place).1
      refine ⟨⟨walk.issued.length, value - walk.values.length, ?_⟩, ⟨_, _, _, rfl⟩⟩
      rw [← stands.sources] at early placed ⊢
      rw [getElem?_append_right (not_lt.1 early), getElem?_map,
        getElem?_eq_getElem (by rw [length_range]; exact placed), getElem_range]
      rfl

/-- The dispatches that one submission records, at the ids issued for them, are the launches of a run
node by node. -/
theorem planAll_launches {ns : List KernelNode} {nodes : List Answered} {launches : List Launch}
    {last : Walk} (stands : walk.Stands ns) (grown : Grown inputs walk)
    (inside : inputs.length ≤ walk.values.length)
    (answered : ∀ node ∈ nodes, node.2.length = node.1.fragment.outputs)
    (stated : ∀ node ∈ nodes, node.1.fragment.outputClasses.length = node.1.fragment.outputs)
    (ran : runNodeByNode walk nodes = .ok (launches, last)) :
    (∃ more, last.issued = walk.issued ++ more) ∧ ∃ planned,
      planAll inputs walk.sources walk.allocated (nodes.map Prod.fst) = .ok planned ∧
        planned.mapM (Planned.launch last.issued) = some launches := by
  induction nodes generalizing walk ns launches with
  | nil =>
    cases ran
    exact ⟨⟨[], (append_nil _).symm⟩, [], rfl, rfl⟩
  | cons node nodes ih =>
    have whole : (runNodeByNode walk (node :: nodes)).toOption = some (launches, last) := by
      rw [ran]
      rfl
    rw [runNodeByNode_cons] at whole
    obtain ⟨⟨launch, next⟩, first, rest⟩ := bind_eq_some_iff.1 whole
    obtain ⟨⟨others, last'⟩, later, same⟩ := map_eq_some_iff.1 rest
    cases same
    have dispatched : dispatch walk node = .ok (launch, next) := by
      cases result : dispatch walk node with
      | error refusal =>
        rw [result] at first
        cases first
      | ok found =>
        rw [result] at first
        rw [some.inj first]
    have ran' : runNodeByNode next nodes = .ok (others, last') := by
      cases result : runNodeByNode next nodes with
      | error refusal =>
        rw [result] at later
        cases later
      | ok found =>
        rw [result] at later
        rw [some.inj later]
    have listed := answered node mem_cons_self
    have standing : ∃ launch', launchOf walk.values (walk.capacity node.1.count) node.1 = some launch' ∧
        walk.after node launch' = next := by
      rw [dispatch_launch stands] at first
      obtain ⟨launch', launched, same⟩ := map_eq_some_iff.1 first
      exact ⟨launch', launched, (Prod.mk.inj same).2⟩
    obtain ⟨launch', launched', filed⟩ := standing
    have stands' : next.Stands (ns ++ [node.1]) := filed ▸ stands.after listed launched'
    obtain ⟨planned, resolved, launched, rfl⟩ := dispatch_inv dispatched
    obtain ⟨⟨more, issued⟩, rest, plans, resolves⟩ := ih stands'
      (grown.after stands inside node planned.counts _ planned.classes)
      (by
        show _ ≤ (walk.values ++ _).length
        rw [length_append]
        omega)
      (fun other member => answered other (mem_cons_of_mem _ member))
      (fun other member => stated other (mem_cons_of_mem _ member)) ran'
    have issued' : last'.issued = walk.issued ++ (node.2 :: more) := by
      rw [issued]
      exact append_assoc _ _ _
    have alone : plan walk.allocated.length node.1 inputs walk.sources walk.allocated = .ok planned := by
      have same := grown.buffered.plan walk.issued.length node.1 walk.allocated
      rw [resolved] at same
      rw [stands.allocated, ← stands.issued]
      cases result : plan walk.issued.length node.1 inputs walk.sources walk.allocated with
      | error refusal =>
        rw [result] at same
        cases same
      | ok found =>
        rw [result] at same
        rw [some.inj same]
    have classes : planned.classes.length = node.2.length := by
      rw [plan_classes resolved, stated node mem_cons_self, listed]
    refine ⟨⟨_, issued'⟩, planned :: rest, ?_, ?_⟩
    · show (plan walk.allocated.length node.1 inputs walk.sources walk.allocated >>= _) = _
      rw [alone]
      show (planAll inputs (walk.sources ++ (List.range planned.classes.length).map _) _ _ >>= _) = _
      rw [classes, stands.allocated, ← stands.issued, plans]
      rfl
    · rw [mapM_cons, resolves, issued', launch_append launched]
      rfl

end Schedule

section Runs

variable {walk last : Walk} {nodes : List Answered} {launches : List Launch}

theorem runNodeByNode_inv {node : Answered}
    (ran : runNodeByNode walk (node :: nodes) = .ok (launches, last)) : ∃ launch next rest,
      dispatch walk node = .ok (launch, next) ∧ runNodeByNode next nodes = .ok (rest, last) ∧
        launches = launch :: rest := by
  rw [runNodeByNode] at ran
  cases dispatched : dispatch walk node with
  | error refusal =>
    rw [dispatched] at ran
    cases ran
  | ok first =>
    rw [dispatched] at ran
    obtain ⟨launch, next⟩ := first
    have ran : (runNodeByNode next nodes >>= fun rest => Except.ok (launch :: rest.1, rest.2)) =
        .ok (launches, last) := ran
    cases later : runNodeByNode next nodes with
    | error refusal =>
      rw [later] at ran
      cases ran
    | ok rest =>
      rw [later] at ran
      cases ran
      exact ⟨launch, next, rest.1, rfl, later, rfl⟩

theorem runNodeByNode_append {middle : Walk} {more : List Answered} {rest : List Launch}
    (ran : runNodeByNode walk nodes = .ok (launches, middle))
    (goesOn : runNodeByNode middle more = .ok (rest, last)) :
    runNodeByNode walk (nodes ++ more) = .ok (launches ++ rest, last) := by
  induction nodes generalizing walk launches with
  | nil =>
    cases ran
    exact goesOn
  | cons node nodes ih =>
    obtain ⟨launch, next, others, dispatched, later, rfl⟩ := runNodeByNode_inv ran
    rw [cons_append, runNodeByNode, dispatched]
    show (runNodeByNode next (nodes ++ more) >>= _) = _
    rw [ih later]
    rfl

theorem stands_of_run {ns : List KernelNode} (stands : walk.Stands ns)
    (answered : ∀ node ∈ nodes, node.2.length = node.1.fragment.outputs)
    (ran : runNodeByNode walk nodes = .ok (launches, last)) :
    last.Stands (ns ++ nodes.map Prod.fst) := by
  induction nodes generalizing walk ns launches with
  | nil =>
    cases ran
    rwa [map_nil, append_nil]
  | cons node nodes ih =>
    obtain ⟨launch, next, rest, dispatched, later, rfl⟩ := runNodeByNode_inv ran
    have filed := dispatch_launch stands node
    rw [dispatched] at filed
    obtain ⟨launch', launched, same⟩ := map_eq_some_iff.1 filed.symm
    cases same
    have run := ih (stands.after (answered node mem_cons_self) launched)
      (fun other member => answered other (mem_cons_of_mem _ member)) later
    rwa [append_assoc] at run

/-- An extent counted on the device over an output of these nodes: the output declares no length of its
own, or the very one its launch was allocated for. -/
def Walk.CountsLaunch (base : Walk) (nodes : List Answered) : Count → Prop
  | .device value _ => ∀ dispatch ordinal, base.sources[value]? = some (Source.produced dispatch ordinal) →
      ∀ node declared, nodes[dispatch]? = some node →
        node.1.fragment.roles.outputExtents[ordinal]? = some (some declared) →
          base.allocated[dispatch]? = some declared
  | _ => True

theorem agrees_iff {base : Walk} (stands : base.Stands (nodes.map Prod.fst)) (count : Count) :
    base.Agrees count ↔ base.CountsLaunch nodes count := by
  cases count with
  | constant count => exact Iff.rfl
  | value id => exact Iff.rfl
  | device id index =>
    refine forall₂_congr fun dispatch ordinal => forall_congr' fun produced => ?_
    obtain ⟨kernel, buffer, launched, stated, at_dispatch, inside, -, allocated, held⟩ :=
      stands.produced id dispatch ordinal produced
    rw [getElem?_map] at at_dispatch
    obtain ⟨node, at_node, rfl⟩ := map_eq_some_iff.1 at_dispatch
    have counted : base.values[id]?.bind Value.count =
        some ((node.1.fragment.roles.outputExtents[ordinal]?.join).getD launched) := by
      rw [held, outputCounts_get inside]
      rfl
    rw [counted, allocated]
    constructor
    · intro same other declared at_other states
      cases at_node.symm.trans at_other
      rw [states] at same
      exact same.symm
    · intro launches
      cases states : node.1.fragment.roles.outputExtents[ordinal]? with
      | none => rfl
      | some extent =>
        cases extent with
        | none => rfl
        | some declared => exact (launches node declared at_node states).symm

/-- Where a graph is cut, the launches after the cut are the same exactly when no extent counted on the
device names an output whose declared length is another than its launch's; and one submission records the
launches of a run node by node. -/
theorem launches_independent_of_cut {inputs : List Value} {first second : List Answered} {base : Walk}
    {rest : List Launch}
    (answered : ∀ node ∈ first ++ second, node.2.length = node.1.fragment.outputs)
    (stated : ∀ node ∈ first ++ second, node.1.fragment.outputClasses.length = node.1.fragment.outputs)
    (ran : runNodeByNode (start inputs) first = .ok (launches, base))
    (goesOn : runNodeByNode base second = .ok (rest, last)) :
    ((∃ again, runNodeByNode (start base.values) second = .ok (rest, again)) ↔
      ∀ node ∈ second, base.CountsLaunch first node.1.count) ∧
    ∃ planned, runInOneSubmission inputs ((first ++ second).map Prod.fst) = .ok planned ∧
      planned.mapM (Planned.launch last.issued) = some (launches ++ rest) := by
  have answeredSecond : ∀ node ∈ second, node.2.length = node.1.fragment.outputs :=
    fun node member => answered node (mem_append_right _ member)
  have stands : base.Stands (first.map Prod.fst) :=
    stands_of_run (stands_start inputs)
      (fun node member => answered node (mem_append_left _ member)) ran
  have cutStands := stands_start base.values
  have severed := severed_start stands
  have whole : (runNodeByNode base second).toOption.map Prod.fst = some rest := by
    rw [goesOn]
    rfl
  have agrees : (∀ node ∈ second, base.Agrees node.1.count) ↔
      ∀ node ∈ second, base.CountsLaunch first node.1.count :=
    forall₂_congr fun node _ => agrees_iff stands node.1.count
  refine ⟨?_, (planAll_launches (stands_start inputs) (grown_start inputs) (le_refl _) answered
    stated (runNodeByNode_append ran goesOn)).2⟩
  rw [← agrees]
  constructor
  · rintro ⟨again, reran⟩
    have cut : (runNodeByNode (start base.values) second).toOption.map Prod.fst = some rest := by
      rw [reran]
      rfl
    exact agrees_of_runs stands severed stands cutStands (le_refl _) answeredSecond whole cut
  · intro agree
    have same := runs_agree stands severed stands cutStands (le_refl _) answeredSecond agree
    rw [whole] at same
    cases reran : runNodeByNode (start base.values) second with
    | error refusal =>
      rw [reran] at same
      cases same
    | ok run =>
      rw [reran] at same
      exact ⟨run.2, by rw [some.inj same]⟩

/-- A kernel that reads so many buffers and writes one, of a declared length or of its launch's. -/
def countingFragment (inputs : Nat) (declared : Option Nat) : KernelFragment where
  paramShape := .tuple [.scalar .int, .scalar .int]
  roles := { outputExtents := [declared] }
  body := { values := [], blocks := [{ params := [], instrs := [], terminator := .return [] }], entry := 0 }
  inputs
  outputs := 1
  inputClasses := List.replicate inputs .int
  outputClasses := [.int]
  resultClasses := []
  target := { intWidth := .i64, laneWidth := 64, laneHeight := 1 }

/-- It is launched over four elements, and answered with a buffer. -/
def countingNode (declared : Option Nat) : Answered :=
  ({ fragment := countingFragment 0 declared, inputs := [], count := .constant 4 }, [9])

/-- A node that runs over the count which that buffer holds. -/
def countedNode : Answered :=
  ({ fragment := countingFragment 1 none, inputs := [0], count := .device 0 0 }, [10])

/-- What the first node leaves. -/
def countedBase (declared : Option Nat) : Walk where
  values := [.device 9 (declared.getD 4) .int]
  sources := [.produced 0 0]
  allocated := [4]
  issued := [[9]]

/-- An output that declares no length is counted alike wherever the graph is cut. -/
theorem launches_independent_of_cut_undeclared : ∃ launches base rest last again planned,
    runNodeByNode (start []) [countingNode none] = .ok (launches, base) ∧
    runNodeByNode base [countedNode] = .ok (rest, last) ∧
    runNodeByNode (start base.values) [countedNode] = .ok (rest, again) ∧
    runInOneSubmission [] [(countingNode none).1, countedNode.1] = .ok planned ∧
    planned.mapM (Planned.launch last.issued) = some (launches ++ rest) := by
  have answered : ∀ node ∈ [countingNode none] ++ [countedNode],
      node.2.length = node.1.fragment.outputs ∧
        node.1.fragment.outputClasses.length = node.1.fragment.outputs := by
    intro node member
    simp only [cons_append, nil_append, mem_cons, not_mem_nil, or_false] at member
    rcases member with rfl | rfl <;> exact ⟨rfl, rfl⟩
  obtain ⟨⟨launches, base⟩, ran, same⟩ : ∃ run, runNodeByNode (start []) [countingNode none] =
      .ok run ∧ run.2 = countedBase none := ⟨_, rfl, rfl⟩
  obtain rfl : base = countedBase none := same
  obtain ⟨⟨rest, last⟩, goesOn⟩ : ∃ run, runNodeByNode (countedBase none) [countedNode] = .ok run :=
    ⟨_, rfl⟩
  obtain ⟨cut, planned, plans, resolves⟩ := launches_independent_of_cut
    (fun node member => (answered node member).1) (fun node member => (answered node member).2) ran goesOn
  have counts : ∀ node ∈ [countedNode], (countedBase none).CountsLaunch [countingNode none]
      node.1.count := by
    intro node member
    obtain rfl := mem_singleton.1 member
    rintro (_ | dispatch) (_ | ordinal) - node declared at_node states
    · cases at_node
      cases states
    · cases at_node
      cases states
    · cases at_node
    · cases at_node
  obtain ⟨again, reran⟩ := cut.2 counts
  exact ⟨launches, countedBase none, rest, last, again, planned, ran, goesOn, reran, plans, resolves⟩

/-- An output that declares eight elements, written by a launch over four: its count has a capacity of
four in one run, and of eight where the graph is cut. -/
theorem declared_extent_counts_apart : ∃ launches base,
    runNodeByNode (start []) [countingNode (some 8)] = .ok (launches, base) ∧
    (runNodeByNode base [countedNode]).toOption.map (fun run => run.1.map Launch.extent) =
      some [.device 9 0 4] ∧
    (runNodeByNode (start base.values) [countedNode]).toOption.map
      (fun run => run.1.map Launch.extent) = some [.device 9 0 8] :=
  ⟨_, _, rfl, rfl, rfl⟩

end Runs

end LichenVm.GraphIr
