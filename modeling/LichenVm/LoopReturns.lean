import LichenVm.SpineArms

/-! Where the readers of a cyclic graph return. -/

open List Option

namespace LichenVm

open FuelBounds Module Outcome

namespace Spine

variable {P : Program} {m : Module P} {function : FunctionId}

theorem complete_steady (spine : Spine) : Steady fun fuel => complete m function fuel spine := by
  intro fuel more within
  show Sooner (complete m function fuel spine) (complete m function more spine)
  unfold complete
  cases found : m.templateSubtree fuel function with
  | none => exact .none _
  | some nodes =>
    have later : m.templateSubtree more function = some nodes :=
      templateSubtree_steady function fuel more within nodes found
    rw [later]
    exact .refl _

theorem complete_ends {rank : FunctionId → Nat} (owned : m.OwnersFall rank) (function : FunctionId)
    (spine : Spine) : ∃ fuel, (complete m function fuel spine).isSome := by
  obtain ⟨fuel, answers⟩ := templateSubtree_ends owned function
  obtain ⟨nodes, found⟩ := isSome_iff_exists.1 answers
  refine ⟨fuel, ?_⟩
  rw [complete, found]
  show (if _ then _ else _ : Outcome Unit).isSome
  split <;> rfl

/-- A tuple-bodied return: a recursion hiding in an element is not the spine's. -/
def walkElements (m : Module P) (function : FunctionId) (fuel : Nat) (roots : List NodeId) :
    Outcome Spine :=
  match roots.mapM fun root => m.subtreeApplies function fuel [] [root] with
  | none => none
  | some applies => if true ∈ applies then .refuse .nonTailCall else .done {}

/-- The walk of the return value's leaves. -/
def walkRoots (m : Module P) (function : FunctionId) (fuel : Nat) : List NodeId → Outcome Spine
  | [root] => (walkArm m function fuel root {}).andThen fun walked => .done walked.2
  | roots => walkElements m function fuel roots

theorem walk_eq {entry : Function} (found : m.functions.get function = some entry) (fuel : Nat) :
    walk m function fuel = (ofExcept .stateShape
        (m.valueLeaves ((m.exprValueHalf entry.return).getD entry.return))).andThen fun roots =>
      (walkRoots m function fuel roots).andThen fun spine =>
      if spine.steps = [] then
        (complete m function fuel spine).andThen fun _ => .refuse .notRecursive
      else if spine.exits = [] then .refuse .noBaseCase
      else (complete m function fuel spine).andThen fun _ => .done spine := by
  rw [walk, found]
  show andThen _ _ = andThen _ _
  congr 1
  funext roots
  rcases roots with _ | ⟨root, _ | ⟨second, rest⟩⟩ <;> rfl

variable (roots : List NodeId)

theorem walkElements_steady : Steady fun fuel => walkElements m function fuel roots := by
  intro fuel more within
  show Sooner (walkElements m function fuel roots) (walkElements m function more roots)
  have sooner : Sooner (roots.mapM fun root => m.subtreeApplies function fuel [] [root])
      (roots.mapM fun root => m.subtreeApplies function more [] [root]) :=
    Sooner.mapM (fun root => subtreeApplies_steady function [] [root] fuel more within) roots
  unfold walkElements
  cases visited : roots.mapM fun root => m.subtreeApplies function fuel [] [root] with
  | none => exact .none _
  | some applies =>
    rw [sooner applies visited]
    exact .refl _

theorem walkElements_ends : ∃ fuel, (walkElements m function fuel roots).isSome := by
  obtain ⟨fuel, all⟩ := Steady.common (fun root => subtreeApplies_steady function [] [root])
    roots fun root _ => @subtreeApplies_ends P m function [] [root]
  obtain ⟨applies, visited⟩ := isSome_iff_exists.1 (Traverse.mapM_isSome _ _ all)
  refine ⟨fuel, ?_⟩
  rw [walkElements, visited]
  show (if _ then _ else _ : Outcome Spine).isSome
  split <;> rfl

theorem walkRoots_steady : Steady fun fuel => walkRoots m function fuel roots := by
  intro fuel more within
  show Sooner (walkRoots m function fuel roots) (walkRoots m function more roots)
  rcases roots with _ | ⟨root, _ | ⟨second, rest⟩⟩
  · exact @walkElements_steady P m function [] fuel more within
  · exact sooner_andThen (walkArm_steady root {} fuel more within) fun _ _ => .refl _
  · exact @walkElements_steady P m function (root :: second :: rest) fuel more within

theorem walkRoots_ends {roots : List NodeId}
    (ends : ∀ root, roots = [root] → ∃ fuel, (walkArm m function fuel root {}).isSome) :
    ∃ fuel, (walkRoots m function fuel roots).isSome := by
  rcases roots with _ | ⟨root, _ | ⟨second, rest⟩⟩
  · exact @walkElements_ends P m function []
  · obtain ⟨fuel, answers⟩ := ends root rfl
    exact ⟨fuel, isSome_andThen answers fun _ _ => rfl⟩
  · exact @walkElements_ends P m function (root :: second :: rest)

theorem walk_steady (function : FunctionId) : Steady fun fuel => walk m function fuel := by
  intro fuel more within
  show Sooner (walk m function fuel) (walk m function more)
  cases found : m.functions.get function with
  | none =>
    rw [walk, found]
    exact .none _
  | some entry =>
    rw [walk_eq found, walk_eq found]
    refine sooner_andThen (.refl _) fun roots _ => ?_
    refine sooner_andThen (walkRoots_steady roots fuel more within) fun spine _ => ?_
    have completes := @complete_steady P m function spine fuel more within
    split
    · exact sooner_andThen completes fun _ _ => .refl _
    · split
      · exact .refl _
      · exact sooner_andThen completes fun _ _ => .refl _

theorem walk_ends {rank : FunctionId → Nat} (owned : m.OwnersFall rank)
    (live : function ∈ m.functions.keys)
    (ends : ∀ root, returnRoot m function = some root → ∃ fuel, (walkArm m function fuel root {}).isSome) :
    ∃ fuel, (walk m function fuel).isSome := by
  rw [SlotMap.mem_keys, SlotMap.containsKey_eq_true] at live
  obtain ⟨entry, found⟩ := live
  cases leaves : m.valueLeaves ((m.exprValueHalf entry.return).getD entry.return) with
  | error text =>
    refine ⟨0, ?_⟩
    rw [walk_eq found, leaves]
    rfl
  | ok roots =>
    have lone : ∀ root, roots = [root] → ∃ fuel, (walkArm m function fuel root {}).isSome := by
      rintro root rfl
      refine ends root ?_
      simp [returnRoot, found, leaves]
    obtain ⟨fuel, answers⟩ := walkRoots_ends lone
    obtain ⟨outcome, walked⟩ := isSome_iff_exists.1 answers
    have walked (more : Nat) (within : fuel ≤ more) : walkRoots m function more roots = some outcome :=
      walkRoots_steady roots fuel more within outcome walked
    cases outcome with
    | error reason =>
      refine ⟨fuel, ?_⟩
      rw [walk_eq found, leaves]
      show ((walkRoots m function fuel roots).andThen fun spine => _).isSome
      rw [walked fuel (le_refl _)]
      rfl
    | ok spine =>
      obtain ⟨fuel', completes⟩ := complete_ends owned function spine
      have completes : (complete m function (max fuel fuel') spine).isSome :=
        (complete_steady spine fuel' _ (le_max_right fuel fuel')).isSome completes
      refine ⟨max fuel fuel', ?_⟩
      rw [walk_eq found, leaves]
      show ((walkRoots m function (max fuel fuel') roots).andThen fun spine => _).isSome
      rw [walked _ (le_max_left fuel fuel')]
      show (if spine.steps = [] then _ else _ : Outcome Spine).isSome
      split
      · exact isSome_andThen completes fun _ _ => rfl
      · split
        · rfl
        · exact isSome_andThen completes fun _ _ => rfl

theorem root_answers {fuel : Nat} {outcome : Except LoopRefusal Spine}
    (answered : walk m function fuel = some outcome) {root : NodeId}
    (lone : returnRoot m function = some root) : (walkArm m function fuel root {}).isSome := by
  cases found : m.functions.get function with
  | none => simp [returnRoot, found] at lone
  | some entry =>
    have leaves : m.valueLeaves ((m.exprValueHalf entry.return).getD entry.return) = .ok [root] := by
      cases read : m.valueLeaves ((m.exprValueHalf entry.return).getD entry.return) with
      | error text => simp [returnRoot, found, read] at lone
      | ok roots =>
        rcases roots with _ | ⟨first, _ | ⟨second, rest⟩⟩
        · simp [returnRoot, found, read] at lone
        · simp [returnRoot, found, read] at lone
          rw [lone]
        · simp [returnRoot, found, read] at lone
    rw [walk_eq found, leaves] at answered
    cases walked : walkArm m function fuel root {} with
    | some _ => rfl
    | none =>
      replace answered : (((walkArm m function fuel root {}).andThen fun walked =>
        done walked.2).andThen fun spine => _) = some outcome := answered
      rw [walked] at answered
      cases answered

/-- One read's roots, each checked from what the ones before it said. -/
def checkRoots (m : Module P) (function : FunctionId) (arity fuel : Nat) (roots : List NodeId)
    (read : Outcome Bool) : Outcome Bool :=
  roots.foldl (fun read root => andThen read fun tuple =>
    m.checkReads function arity fuel [] [(root, false)] tuple) read

theorem checkRoots_sooner {arity fuel more : Nat} (within : fuel ≤ more) (roots : List NodeId)
    {read read' : Outcome Bool} (sooner : Sooner read read') :
    Sooner (checkRoots m function arity fuel roots read) (checkRoots m function arity more roots read') := by
  induction roots generalizing read read' with
  | nil => exact sooner
  | cons root roots ih =>
    refine ih (sooner_andThen sooner fun tuple _ => ?_)
    exact checkReads_steady function arity [] [(root, false)] tuple fuel more within

theorem checkRoots_ends (arity : Nat) (roots : List NodeId) (read : Except LoopRefusal Bool) :
    ∃ fuel, (checkRoots m function arity fuel roots (some read)).isSome := by
  induction roots generalizing read with
  | nil => exact ⟨0, rfl⟩
  | cons root roots ih =>
    cases read with
    | error reason => exact ih (.error reason)
    | ok tuple =>
      obtain ⟨fuel, answers⟩ := @checkReads_ends P m function arity [] [(root, false)] tuple
      obtain ⟨read, checked⟩ := isSome_iff_exists.1 answers
      obtain ⟨fuel', answers⟩ := ih read
      refine ⟨max fuel fuel', ?_⟩
      have first : Sooner (some read) (m.checkReads function arity (max fuel fuel') [] [(root, false)] tuple) := by
        rw [← checked]
        exact checkReads_steady function arity [] [(root, false)] tuple fuel _
          (le_max_left fuel fuel')
      exact (checkRoots_sooner (le_max_right fuel fuel') roots first).isSome answers

/-- The places whose reads must agree with the carried state. -/
def stateRoots (spine : Spine) : List NodeId :=
  spine.tests.map LoopTest.condition ++ spine.steps.flatMap LoopStep.next ++
    spine.exits.map LoopExit.value

theorem state_eq {spine : Spine} {first : LoopStep} {rest : List LoopStep}
    (steps : spine.steps = first :: rest) (fuel : Nat) : state m function fuel spine =
      if (first :: rest).any fun step => step.next.length ≠ first.next.length then .refuse .stateShape
      else (checkRoots m function first.next.length fuel (stateRoots spine) (.done false)).andThen
        fun tuple =>
          if tuple then .done ((List.range first.next.length).map fun k => [k])
          else if first.next.length ≠ 1 then .refuse .stateShape
          else .done [[]] := by
  obtain ⟨tests, steps', exits⟩ := spine
  replace steps : steps' = first :: rest := steps
  subst steps
  rfl

theorem state_steady (spine : Spine) : Steady fun fuel => state m function fuel spine := by
  intro fuel more within
  show Sooner (state m function fuel spine) (state m function more spine)
  cases steps : spine.steps with
  | nil =>
    rw [state, steps]
    exact .none _
  | cons first rest =>
    rw [state_eq steps, state_eq steps]
    split
    · exact .refl _
    · exact sooner_andThen (checkRoots_sooner within _ (.refl _)) fun _ _ => .refl _

theorem state_ends {spine : Spine} (stepped : spine.steps ≠ []) :
    ∃ fuel, (state m function fuel spine).isSome := by
  cases steps : spine.steps with
  | nil => exact absurd steps stepped
  | cons first rest =>
    obtain ⟨fuel, answers⟩ :=
      @checkRoots_ends P m function first.next.length (stateRoots spine) (.ok false)
    refine ⟨fuel, ?_⟩
    rw [state_eq steps]
    split
    · rfl
    · refine isSome_andThen answers fun tuple _ => ?_
      split
      · rfl
      · split <;> rfl

theorem walk_steps {fuel : Nat} {spine : Spine} (done : walk m function fuel = .done spine) :
    spine.steps ≠ [] := by
  cases found : m.functions.get function with
  | none =>
    rw [walk, found] at done
    cases done
  | some entry =>
    rw [walk_eq found] at done
    obtain ⟨roots, -, done⟩ := andThen_eq_done.1 done
    obtain ⟨walked, -, done⟩ := andThen_eq_done.1 done
    split at done
    · obtain ⟨_, -, refused⟩ := andThen_eq_done.1 done
      exact absurd refused (refuse_ne_done _ _)
    · next stepped =>
      split at done
      · exact absurd done (refuse_ne_done _ _)
      · obtain ⟨_, -, done⟩ := andThen_eq_done.1 done
        cases done
        exact stepped

end Spine

namespace Module

variable {P : Program} {m : Module P} {function : FunctionId}

/-- No function but `function` is in its marked component. -/
def Alone (m : Module P) (function : FunctionId) : Prop :=
  ∃ fuel component, m.loopComponent fuel function = some component ∧
    function ∈ component ∧ component.length ≤ 1

/-- From a function's return on, no arm of the spine is visited from itself. -/
def ArmsEnd (m : Module P) (function : FunctionId) : Prop :=
  ∀ root, Spine.returnRoot m function = some root →
    ∀ arm, Relation.ReflTransGen (Spine.Visits m function) root arm →
      ¬ Relation.TransGen (Spine.Visits m function) arm arm

theorem Alone.walks {fuel : Nat} {outcome : Except LoopRefusal LoopConversion}
    (alone : m.Alone function) (answered : m.loopConversion fuel function = some outcome) :
    ∃ walked, Spine.walk m function fuel = some walked := by
  obtain ⟨fuel', component, found, inside, single⟩ := alone
  cases known : m.loopComponent fuel function with
  | none =>
    rw [loopConversion, known] at answered
    cases answered
  | some component' =>
    have first : m.loopComponent (max fuel fuel') function = some component' :=
      loopComponent_steady function fuel _ (le_max_left fuel fuel') _ known
    have second : m.loopComponent (max fuel fuel') function = some component :=
      loopComponent_steady function fuel' _ (le_max_right fuel fuel') _ found
    rw [first] at second
    cases second
    have few : ¬ component.length > 1 := by omega
    rw [loopConversion, known] at answered
    simp only [not_true_eq_false, inside, if_false, few] at answered
    rcases andThen_eq_some answered with ⟨reason, refused⟩ | ⟨spine, walked, -⟩
    · exact ⟨_, refused⟩
    · exact ⟨_, walked⟩

/-- A live function's conversion returns exactly when it is in a marked component with others, or
no arm of its spine is visited from itself. -/
theorem loopConversion_returns_iff {rank : FunctionId → Nat} (owned : m.OwnersFall rank)
    (live : function ∈ m.functions.keys) :
    (∃ fuel outcome, m.loopConversion fuel function = some outcome) ↔
      (m.Alone function → m.ArmsEnd function) := by
  constructor
  · rintro ⟨fuel, outcome, answered⟩ alone root lone
    obtain ⟨walked, answers⟩ := alone.walks answered
    exact Spine.walkArm_answers_iff.1 ⟨fuel, Spine.root_answers answers lone⟩
  · intro ends
    obtain ⟨fuel, answers⟩ := loopComponent_ends owned function
    obtain ⟨component, found⟩ := isSome_iff_exists.1 answers
    by_cases outside : function ∉ component
    · exact ⟨fuel, .error .notRecursive, by rw [loopConversion, found]; simp only [if_pos outside]; rfl⟩
    by_cases several : component.length > 1
    · exact ⟨fuel, .error (.mutualComponent component.length), by
        rw [loopConversion, found]; simp only [if_neg outside, if_pos several]; rfl⟩
    have alone : m.Alone function := ⟨fuel, component, found, not_not.1 outside, by omega⟩
    obtain ⟨fuel', walks⟩ := Spine.walk_ends owned live fun root lone =>
      Spine.walkArm_answers_iff.2 (ends alone root lone)
    obtain ⟨walked, answered⟩ := isSome_iff_exists.1 walks
    suffices ∃ more, fuel ≤ more ∧ ((Spine.walk m function more).andThen fun spine =>
        (spine.state m function more).andThen fun state => done (LoopConversion.mk function
          state spine.tests spine.steps spine.exits)).isSome by
      obtain ⟨more, within, answers⟩ := this
      have found : m.loopComponent more function = some component :=
        loopComponent_steady function fuel more within component found
      obtain ⟨outcome, answered⟩ := isSome_iff_exists.1 answers
      refine ⟨more, outcome, ?_⟩
      rw [loopConversion, found]
      simp only [if_neg outside, if_neg several]
      exact answered
    have later (more : Nat) (within : fuel' ≤ more) : Spine.walk m function more = some walked :=
      Spine.walk_steady function fuel' more within walked answered
    cases walked with
    | error reason => exact ⟨max fuel fuel', le_max_left _ _, by rw [later _ (le_max_right _ _)]; rfl⟩
    | ok spine =>
      obtain ⟨fuel'', stated⟩ := @Spine.state_ends P m function spine (Spine.walk_steps answered)
      refine ⟨max fuel (max fuel' fuel''), le_max_left _ _, ?_⟩
      rw [later _ (by omega)]
      have stated : (spine.state m function (max fuel (max fuel' fuel''))).isSome :=
        (Spine.state_steady spine fuel'' _ (by omega)).isSome stated
      show ((spine.state m function (max fuel (max fuel' fuel''))).andThen fun state => _).isSome
      exact isSome_andThen stated fun _ _ => rfl

theorem ownersFall_of_lone {entry : Function}
    (lone : m.functions = ⟨[some entry]⟩) (top : entry.parent = none) : m.OwnersFall fun _ => 0 := by
  rintro ⟨_ | _ | index⟩ other owner found parent <;> rw [lone] at found
  · cases found
  · cases found
    rw [top] at parent
    cases parent
  · cases found

end Module

/-- A marked function that returns a selection whose arms are the selection, and a constant index
that names itself through its own target array. -/
def selfNamed : Module Program.plain where
  nodes := ⟨
    [ nestedLoop.cell 1 none none, nestedLoop.cell 2 none (some ⟨.low (.external 0 0), some ⟨1⟩⟩),
      nestedLoop.cell 3 none (some ⟨.low .index, some ⟨4⟩⟩),
      nestedLoop.cell 4 (some (nestedLoop.tuple 0 [5, 6])) none,
      nestedLoop.cell 5 (some (nestedLoop.tuple 1 [3])) none,
      nestedLoop.cell 6 (some (.low (.usize 0))) none,
      nestedLoop.cell 7 none (some ⟨.low .index, some ⟨8⟩⟩),
      nestedLoop.cell 8 (some (nestedLoop.tuple 2 [9, 2])) none,
      nestedLoop.cell 9 (some (nestedLoop.tuple 3 [7, 7])) none ]⟩
  blocks := ⟨[some { parent := none, nodes := members, functions := [⟨1⟩] }]⟩
  functions := ⟨[some
    { nodes := members, «return» := ⟨7⟩, parameter := ⟨1⟩, block := ⟨1⟩, looping := some 0 }]⟩
where
  members : List NodeId := (List.range 9).map fun index => ⟨index + 1⟩

theorem selfNamed_owners : selfNamed.OwnersFall fun _ => 0 :=
  ownersFall_of_lone rfl rfl

end LichenVm
