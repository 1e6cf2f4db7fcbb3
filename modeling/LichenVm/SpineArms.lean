import LichenVm.SpineReturns

/-! The arms a loop conversion's walk visits, and where the walk of one ends. -/

open List Option

namespace LichenVm

open FuelBounds Module

namespace Spine

variable {P : Program} {m : Module P} {function : FunctionId}

section

variable (seen : List NodeId) (node : NodeId)

theorem chase_steady : Steady fun fuel => chase m fuel seen node := by
  apply Steady.of_succ
  intro fuel
  induction fuel generalizing seen node with
  | zero => exact .none _
  | succ fuel ih =>
    show Sooner (chase m (fuel + 1) seen node) (chase m (fuel + 1 + 1) seen node)
    unfold chase
    split
    · exact .refl _
    · split
      · exact ih _ _
      · exact .refl _
      · exact .refl _

theorem chase_ends : ∃ fuel, (chase m fuel seen node).isSome := by
  have along := @visiting_induction _ _ m.nodes.keys id
    (fun seen stack => ∀ node, stack = [node] → ∃ fuel, (chase m fuel seen node).isSome)
    (fun _ _ alone => by cases alone)
  refine along (fun seen first stack _ fresh node alone => ?_) seen [node] node rfl
  cases alone
  by_cases member : first ∈ seen
  · exact ⟨1, by rw [chase, if_pos member]; rfl⟩
  cases found : m.selectionOf first with
  | none => exact ⟨1, by rw [chase, if_neg member, found]; rfl⟩
  | some selection =>
    cases selection with
    | computed => exact ⟨1, by rw [chase, if_neg member, found]; rfl⟩
    | views view =>
      have live := live_of_selectionOf found
      obtain ⟨fuel, answers⟩ := fresh member (first :: seen) (fun other => mem_cons) [view]
        (fun dead => absurd live dead) view rfl
      exact ⟨fuel + 1, by rw [chase, if_neg member, found]; exact answers⟩

end

theorem classify_steady (arm : NodeId) : Steady fun fuel => classify m function fuel arm := by
  intro fuel more within
  show Sooner (classify m function fuel arm) (classify m function more arm)
  unfold classify
  cases stops : chase m fuel [] arm with
  | none => exact .none _
  | some stop =>
    have later : chase m more [] arm = some stop := chase_steady [] arm fuel more within stop stops
    rw [later]
    obtain ⟨resolved, computed⟩ := stop
    cases computed with
    | true => exact .refl _
    | false =>
      show Sooner (if m.calleeFunction resolved = some function then _ else _)
        (if m.calleeFunction resolved = some function then _ else _)
      split
      · exact .refl _
      · cases applies : m.subtreeApplies function fuel [] [resolved] with
        | none => exact .none _
        | some answer =>
          have later : m.subtreeApplies function more [] [resolved] = some answer :=
            subtreeApplies_steady function [] [resolved] fuel more within answer applies
          rw [later]
          exact .refl _

theorem classify_ends (arm : NodeId) : ∃ fuel, (classify m function fuel arm).isSome := by
  obtain ⟨fuel, answers⟩ := @chase_ends P m [] arm
  obtain ⟨⟨resolved, computed⟩, stops⟩ := isSome_iff_exists.1 answers
  obtain ⟨fuel', applied⟩ := @subtreeApplies_ends P m function [] [resolved]
  have stops : chase m (max fuel fuel') [] arm = some (resolved, computed) :=
    chase_steady [] arm fuel _ (Nat.le_max_left fuel fuel') _ stops
  have applied : (m.subtreeApplies function (max fuel fuel') [] [resolved]).isSome :=
    (subtreeApplies_steady function [] [resolved] fuel' _ (Nat.le_max_right fuel fuel')).isSome
      applied
  obtain ⟨answer, applies⟩ := isSome_iff_exists.1 applied
  refine ⟨max fuel fuel', ?_⟩
  rw [classify, stops]
  cases computed with
  | true => rfl
  | false =>
    show (if m.calleeFunction resolved = some function then _ else _ : Outcome Classified).isSome
    rw [applies]
    split
    · rfl
    · cases answer <;> rfl

/-- What a spine node is, with fuel enough. -/
def Classed (m : Module P) (function : FunctionId) (arm : NodeId) (classified : Classified) : Prop :=
  ∃ fuel, classify m function fuel arm = .done classified

variable {arm : NodeId} {fuel : Nat}

theorem Classed.same {classified : Classified} (classed : Classed m function arm classified)
    {outcome : Except LoopRefusal Classified}
    (answered : classify m function fuel arm = some outcome) : outcome = .ok classified := by
  obtain ⟨fuel', done⟩ := classed
  have first : classify m function (max fuel fuel') arm = some outcome :=
    classify_steady arm fuel _ (Nat.le_max_left fuel fuel') _ answered
  have second : classify m function (max fuel fuel') arm = some (.ok classified) :=
    classify_steady arm fuel' _ (Nat.le_max_right fuel fuel') _ done
  rw [first] at second
  exact some.inj second

/-- A selection's condition and 0-arm, and its 1-arm where that element has a value position. -/
def armsOf (m : Module P) (selection : NodeId) : Outcome (NodeId × NodeId × Option NodeId) :=
  (Outcome.ofExcept .stateShape (m.operandsOf selection)).andThen fun operands =>
  match operands with
  | arms :: condition :: _ =>
    (Outcome.ofOption .stateShape (m.arrayItems arms)).andThen fun items =>
    match items with
    | [zero, one] =>
      (Outcome.ofOption .stateShape (armNode m zero)).andThen fun zero =>
      .done (condition, zero, armNode m one)
    | _ => .refuse .stateShape
  | _ => none

/-- Walk both arms of a selection, and record its test. -/
def walkArms (m : Module P) (function : FunctionId) (fuel : Nat) (condition zero : NodeId)
    (one : Option NodeId) (spine : Spine) : Outcome (Nat × Spine) :=
  (walkArm m function fuel zero spine).andThen fun first =>
  (Outcome.ofOption .stateShape one).andThen fun one =>
  (walkArm m function fuel one first.2).andThen fun second =>
  .done (second.2.tests.length,
    { second.2 with tests := second.2.tests ++ [{ condition, onOne := second.1, onZero := first.1 }] })

variable {selection : NodeId}

section

variable (computed : m.selectionOf selection = some .computed)

include computed

theorem walkTest_computed (fuel : Nat) (spine : Spine) :
    walkTest m function (fuel + 1 + 1) selection spine = (armsOf m selection).andThen fun arms =>
      walkArms m function (fuel + 1) arms.1 arms.2.1 arms.2.2 spine := by
  have stops : chase m (fuel + 1) [] selection = some (selection, true) := by
    rw [chase, if_neg not_mem_nil, computed]
  rw [walkTest, stops, armsOf, Outcome.andThen_assoc]
  show Outcome.andThen _ _ = Outcome.andThen _ _
  congr 1
  funext operands
  rcases operands with _ | ⟨arms, _ | ⟨condition, rest⟩⟩
  · rfl
  · rfl
  · show Outcome.andThen _ _ = Outcome.andThen (Outcome.andThen _ _) _
    rw [Outcome.andThen_assoc]
    congr 1
    funext items
    rcases items with _ | ⟨zero, _ | ⟨one, _ | ⟨third, rest⟩⟩⟩
    · rfl
    · rfl
    · show Outcome.andThen _ _ = Outcome.andThen (Outcome.andThen _ _) _
      rw [Outcome.andThen_assoc]
      rfl
    · rfl

theorem armsOf_isSome : (armsOf m selection).isSome := by
  apply Outcome.isSome_andThen
  · cases m.operandsOf selection <;> rfl
  intro operands read
  obtain ⟨arms, condition, rfl⟩ := m.operandsOf_selection selection operands computed
    (Outcome.ofExcept_eq_done.1 read)
  apply Outcome.isSome_andThen
  · cases m.arrayItems arms <;> rfl
  intro items _
  rcases items with _ | ⟨zero, _ | ⟨one, _ | ⟨third, rest⟩⟩⟩
  · rfl
  · rfl
  · apply Outcome.isSome_andThen
    · cases armNode m zero <;> rfl
    · exact fun _ _ => rfl
  · rfl

end

theorem operandExpr_pair {operand : NodeId} {what : String} {operands : List NodeId}
    (reads : m.operandExpr operand what = .ok operands) : ∃ first second, operands = [first, second] := by
  unfold operandExpr at reads
  split at reads
  · cases reads
  · next items found =>
    split at reads
    · cases reads
    · next enough =>
      rcases items with _ | ⟨first, _ | ⟨second, rest⟩⟩
      · simp at enough
      · simp at enough
      · simp only [take_succ_cons, take_zero, mapM_cons, mapM_nil] at reads
        cases one : first.node <;> cases two : second.node <;>
          simp [one, two, bind, Except.bind, pure, Except.pure] at reads
        exact ⟨_, _, reads.symm⟩

variable {apply : NodeId}

theorem operandsOf_callee {operands : List NodeId}
    (applies : m.calleeFunction apply = some function) (reads : m.operandsOf apply = .ok operands) :
    ∃ callee argument, operands = [callee, argument] := by
  cases computes : m.nodeOperation apply with
  | none => simp [calleeFunction, computes] at applies
  | some operation =>
    by_cases other : operation.operator.asLow ≠ some .apply
    · simp [calleeFunction, computes, other] at applies
    have operator : operation.operator.asLow = some .apply := not_not.1 other
    cases operand : operation.operand with
    | none =>
      have empty : m.operandsOf apply = .ok [] := by rw [operandsOf, computes]; simp [operand]
      simp [calleeFunction, computes, operator, empty, Except.toOption] at applies
    | some array =>
      simp only [operandsOf, computes, operand, operator] at reads
      exact operandExpr_pair reads

theorem recordStep_isSome (applies : m.calleeFunction apply = some function)
    (spine : Spine) : (recordStep m apply spine).isSome := by
  apply Outcome.isSome_andThen
  · cases m.operandsOf apply <;> rfl
  intro operands read
  obtain ⟨callee, argument, rfl⟩ := operandsOf_callee applies (Outcome.ofExcept_eq_done.1 read)
  apply Outcome.isSome_andThen
  · split
    · next items _ => cases items.mapM fun item => ((m.elementValueNode item.node).getD item.node).dynamic? <;> rfl
    · rfl
  intro next _
  split <;> rfl

variable {spine : Spine}

theorem recordStep_any {result : Nat × Spine}
    (done : recordStep m apply spine = .done result) (spine' : Spine) :
    ∃ result', recordStep m apply spine' = .done result' := by
  obtain ⟨operands, read, done⟩ := Outcome.andThen_eq_done.1 done
  cases second : operands[1]? with
  | none =>
    rw [second] at done
    cases done
  | some argument =>
    rw [second] at done
    obtain ⟨next, carried, done⟩ := Outcome.andThen_eq_done.1 done
    split at done
    · cases done
    · next scalar =>
      refine ⟨(spine'.steps.length, { spine' with steps := spine'.steps ++ [{ apply, next }] }), ?_⟩
      refine Outcome.andThen_eq_done.2 ⟨operands, read, ?_⟩
      rw [second]
      refine Outcome.andThen_eq_done.2 ⟨next, carried, ?_⟩
      rw [if_neg scalar]

/-- The spine from an arm is read to its end, with nothing refused on the way. -/
inductive Walks (m : Module P) (function : FunctionId) : NodeId → Prop where
  | base {arm value : NodeId} (classed : Classed m function arm (.base value)) : Walks m function arm
  | step {arm apply : NodeId} (classed : Classed m function arm (.step apply))
      (records : ∃ result, recordStep m apply {} = .done result) : Walks m function arm
  | test {arm selection condition zero one : NodeId} (classed : Classed m function arm (.test selection))
      (arms : armsOf m selection = .done (condition, zero, some one)) (onZero : Walks m function zero)
      (onOne : Walks m function one) : Walks m function arm

/-- The walk of one arm walks another: the 0-arm of the selection it names, or, where the spine
from that arm is read to its end, the 1-arm. -/
inductive Visits (m : Module P) (function : FunctionId) : NodeId → NodeId → Prop where
  | zero {arm selection condition zero : NodeId} {one : Option NodeId}
      (classed : Classed m function arm (.test selection))
      (arms : armsOf m selection = .done (condition, zero, one)) : Visits m function arm zero
  | one {arm selection condition zero one : NodeId} (classed : Classed m function arm (.test selection))
      (arms : armsOf m selection = .done (condition, zero, some one)) (onZero : Walks m function zero) :
      Visits m function arm one

theorem Visits.live {next : NodeId} (visits : Visits m function arm next) : arm ∈ m.nodes.keys := by
  have selects {selection : NodeId} (classed : Classed m function arm (.test selection)) :
      arm ∈ m.nodes.keys := by
    obtain ⟨fuel, done⟩ := classed
    obtain ⟨names, computed⟩ := classify_spec m function fuel arm _ done
    cases names with
    | here => exact live_of_selectionOf computed
    | view reads _ => exact live_of_selectionOf reads
  cases visits with
  | zero classed _ | one classed _ _ => exact selects classed

theorem Classed.computed (classed : Classed m function arm (.test selection)) :
    m.selectionOf selection = some .computed := by
  obtain ⟨fuel, done⟩ := classed
  exact (classify_spec m function fuel arm _ done).2

theorem Classed.applies (classed : Classed m function arm (.step apply)) :
    m.calleeFunction apply = some function := by
  obtain ⟨fuel, done⟩ := classed
  exact (classify_spec m function fuel arm _ done).2

variable {outcome : Except LoopRefusal (Nat × Spine)}

theorem walkTest_fuel (computed : m.selectionOf selection = some .computed)
    (answered : walkTest m function fuel selection spine = some outcome) :
    ∃ less, fuel = less + 1 + 1 ∧ ((armsOf m selection).andThen fun arms =>
      walkArms m function (less + 1) arms.1 arms.2.1 arms.2.2 spine) = some outcome := by
  rcases fuel with _ | _ | less
  · simp [walkTest] at answered
  · simp [walkTest, chase] at answered
  · exact ⟨less, rfl, (walkTest_computed computed less spine).symm.trans answered⟩

theorem walkArms_answers {condition zero one : NodeId}
    (answered : walkArms m function fuel condition zero (some one) spine = some outcome) :
    (∃ reason, walkArm m function fuel zero spine = some (.error reason)) ∨
      ∃ first, walkArm m function fuel zero spine = .done first ∧
        ((∃ reason, walkArm m function fuel one first.2 = some (.error reason)) ∨
          ∃ second, walkArm m function fuel one first.2 = .done second ∧
            ∃ result, outcome = .ok result) := by
  rcases Outcome.andThen_eq_some answered with refused | ⟨first, onZero, later⟩
  · exact .inl refused
  replace later : ((walkArm m function fuel one first.2).andThen fun second => _) = some outcome := later
  rcases Outcome.andThen_eq_some later with refused | ⟨second, onOne, done⟩
  · exact .inr ⟨first, onZero, .inl refused⟩
  · exact .inr ⟨first, onZero, .inr ⟨second, onOne, _, (some.inj done).symm⟩⟩

/-- A walk that finishes has read the spine to its end. -/
theorem walks_of_done {result : LoopArm × Spine}
    (done : walkArm m function fuel arm spine = .done result) : Walks m function arm := by
  induction fuel using Nat.strong_induction_on generalizing arm spine result with
  | h fuel ih =>
    cases fuel with
    | zero => simp [walkArm, Outcome.done] at done
    | succ fuel =>
      obtain ⟨classified, known, done⟩ := Outcome.andThen_eq_done.1 done
      cases classified with
      | base value => exact .base ⟨fuel, known⟩
      | step apply =>
        obtain ⟨stepped, recorded, -⟩ := Outcome.andThen_eq_done.1 done
        exact .step ⟨fuel, known⟩ (recordStep_any recorded {})
      | test selection =>
        have classed : Classed m function arm (.test selection) := ⟨fuel, known⟩
        obtain ⟨tested, walked, -⟩ := Outcome.andThen_eq_done.1 done
        obtain ⟨less, rfl, inner⟩ := walkTest_fuel classed.computed walked
        obtain ⟨⟨condition, zero, one⟩, arms, inner⟩ := Outcome.andThen_eq_done.1 inner
        obtain ⟨first, onZero, inner⟩ := Outcome.andThen_eq_done.1 inner
        obtain ⟨one', named, inner⟩ := Outcome.andThen_eq_done.1 inner
        obtain ⟨second, onOne, -⟩ := Outcome.andThen_eq_done.1 inner
        have named := Outcome.ofOption_eq_done.1 named
        subst named
        exact .test classed arms (ih (less + 1) (by omega) onZero) (ih (less + 1) (by omega) onOne)

variable {outcome : Except LoopRefusal (LoopArm × Spine)}

theorem walkArm_classifies {classified : Classified} (classed : Classed m function arm classified)
    (answered : walkArm m function fuel arm spine = some outcome) :
    ∃ less, fuel = less + 1 ∧ classify m function less arm = .done classified := by
  cases fuel with
  | zero => simp [walkArm] at answered
  | succ fuel =>
    rw [walkArm] at answered
    cases known : classify m function fuel arm with
    | none =>
      rw [known] at answered
      cases answered
    | some outcome' => exact ⟨fuel, rfl, by rw [classed.same known] at known; exact known⟩

/-- Where the spine is read to its end, a walk that answers refuses nothing. -/
theorem Walks.done (walks : Walks m function arm)
    (answered : walkArm m function fuel arm spine = some outcome) : ∃ result, outcome = .ok result := by
  induction walks generalizing fuel spine outcome with
  | base classed =>
    obtain ⟨less, rfl, known⟩ := walkArm_classifies classed answered
    rw [walkArm, known] at answered
    exact ⟨_, (some.inj answered).symm⟩
  | step classed records =>
    obtain ⟨less, rfl, known⟩ := walkArm_classifies classed answered
    obtain ⟨_, recorded⟩ := records
    obtain ⟨result, stepped⟩ := recordStep_any recorded spine
    rw [walkArm, known] at answered
    replace answered : ((recordStep m _ spine).andThen fun step => Outcome.done (LoopArm.step step.1, step.2)) =
      some outcome := answered
    rw [stepped] at answered
    exact ⟨_, (some.inj answered).symm⟩
  | @test arm selection condition zero one classed arms onZero onOne zero_ih one_ih =>
    obtain ⟨less, rfl, known⟩ := walkArm_classifies classed answered
    rw [walkArm, known] at answered
    replace answered : ((walkTest m function less selection spine).andThen fun test =>
      Outcome.done (LoopArm.test test.1, test.2)) = some outcome := answered
    -- Neither arm is refused, so the test is not.
    have recorded {outcome : Except LoopRefusal (Nat × Spine)}
        (tested : walkTest m function less selection spine = some outcome) :
        ∃ result, outcome = .ok result := by
      obtain ⟨fewer, -, walked⟩ := walkTest_fuel classed.computed tested
      rw [arms] at walked
      rcases walkArms_answers walked with ⟨reason, refused⟩ | ⟨first, -, ⟨reason, refused⟩ | recorded⟩
      · obtain ⟨result, absurd_⟩ := zero_ih refused
        cases absurd_
      · obtain ⟨result, absurd_⟩ := one_ih refused
        cases absurd_
      · exact recorded.choose_spec.2
    rcases Outcome.andThen_eq_some answered with ⟨reason, refused⟩ | ⟨test, -, answered⟩
    · obtain ⟨result, absurd_⟩ := recorded refused
      cases absurd_
    · exact ⟨_, (some.inj answered).symm⟩

theorem acc_of_answers (answered : walkArm m function fuel arm spine = some outcome) :
    Acc (fun next arm => Visits m function arm next) arm := by
  induction fuel using Nat.strong_induction_on generalizing arm spine outcome with
  | h fuel ih =>
    -- What the walk of a named selection does, whichever arm comes next.
    have inside {selection condition zero : NodeId} {one : Option NodeId}
        (classed : Classed m function arm (.test selection))
        (arms : armsOf m selection = .done (condition, zero, one)) :
        ∃ less outcome', less < fuel ∧ walkArms m function less condition zero one spine = some outcome' := by
      obtain ⟨less, rfl, known⟩ := walkArm_classifies classed answered
      rw [walkArm, known] at answered
      replace answered : ((walkTest m function less selection spine).andThen fun test =>
        Outcome.done (LoopArm.test test.1, test.2)) = some outcome := answered
      obtain ⟨tested, walks⟩ : ∃ tested, walkTest m function less selection spine = some tested := by
        rcases Outcome.andThen_eq_some answered with ⟨reason, refused⟩ | ⟨test, tested, -⟩
        · exact ⟨_, refused⟩
        · exact ⟨_, tested⟩
      obtain ⟨fewer, rfl, walked⟩ := walkTest_fuel classed.computed walks
      rw [arms] at walked
      exact ⟨fewer + 1, tested, by omega, walked⟩
    constructor
    intro next visits
    cases visits with
    | zero classed arms =>
      obtain ⟨less, outcome', lower, walked⟩ := inside classed arms
      rcases Outcome.andThen_eq_some walked with ⟨reason, refused⟩ | ⟨first, walks, -⟩
      · exact ih less lower refused
      · exact ih less lower walks
    | one classed arms onZero =>
      obtain ⟨less, outcome', lower, walked⟩ := inside classed arms
      rcases walkArms_answers walked with
        ⟨reason, refused⟩ | ⟨first, -, ⟨reason, refused⟩ | ⟨second, walks, -⟩⟩
      · obtain ⟨result, absurd_⟩ := onZero.done refused
        cases absurd_
      · exact ih less lower refused
      · exact ih less lower walks


theorem walkArms_sooner {fuel' : Nat}
    (sooner : ∀ arm spine, Sooner (walkArm m function fuel arm spine) (walkArm m function fuel' arm spine))
    (condition zero : NodeId) (one : Option NodeId) (spine : Spine) :
    Sooner (walkArms m function fuel condition zero one spine)
      (walkArms m function fuel' condition zero one spine) := by
  apply Outcome.sooner_andThen (sooner zero spine)
  intro first _
  apply Outcome.sooner_andThen (.refl _)
  intro one _
  exact Outcome.sooner_andThen (sooner one first.2) fun _ _ => .refl _

theorem walkArm_steady (arm : NodeId) (spine : Spine) :
    Steady fun fuel => walkArm m function fuel arm spine := by
  apply Steady.of_succ
  intro fuel
  show Sooner (walkArm m function fuel arm spine) (walkArm m function (fuel + 1) arm spine)
  induction fuel using Nat.strong_induction_on generalizing arm spine with
  | h fuel ih =>
    cases fuel with
    | zero =>
      exact .none _
    | succ fuel =>
      apply Outcome.sooner_andThen (classify_steady arm fuel _ (Nat.le_succ fuel))
      intro classified known
      cases classified with
      | base value => exact .refl _
      | step apply => exact .refl _
      | test selection =>
        have classed : Classed m function arm (.test selection) := ⟨fuel, known⟩
        refine Outcome.sooner_andThen ?_ fun _ _ => .refl _
        rcases fuel with _ | _ | less
        · rw [walkTest]
          exact .none _
        · simp only [walkTest, chase]
          exact .none _
        · rw [walkTest_computed classed.computed, walkTest_computed classed.computed]
          refine Outcome.sooner_andThen (.refl _) fun arms _ => ?_
          exact walkArms_sooner (ih (less + 1) (by omega)) _ _ _ spine

/-- Where the walk of each arm a selection's walk visits answers, so does the selection's. -/
theorem walkArms_answers_of (classed : Classed m function arm (.test selection))
    (each : ∀ next, Visits m function arm next → ∀ spine, ∃ fuel,
      (walkArm m function fuel next spine).isSome) (spine : Spine) :
    ∃ fuel, ((armsOf m selection).andThen fun arms =>
      walkArms m function (fuel + 1) arms.1 arms.2.1 arms.2.2 spine).isSome := by
  obtain ⟨outcome, arms⟩ := isSome_iff_exists.1 (armsOf_isSome classed.computed)
  rw [arms]
  cases outcome with
  | error reason => exact ⟨0, rfl⟩
  | ok read =>
    obtain ⟨condition, zero, one⟩ := read
    show ∃ fuel, (walkArms m function (fuel + 1) condition zero one spine).isSome
    obtain ⟨fuel, answers⟩ := each zero (.zero classed arms) spine
    obtain ⟨first, walked⟩ := isSome_iff_exists.1 answers
    have onZero (more : Nat) (within : fuel ≤ more) :
        walkArm m function more zero spine = some first := walkArm_steady zero spine fuel more within first walked
    cases first with
    | error reason =>
      refine ⟨fuel, ?_⟩
      rw [walkArms, onZero _ (Nat.le_succ fuel)]
      rfl
    | ok first =>
      cases one with
      | none =>
        refine ⟨fuel, ?_⟩
        rw [walkArms, onZero _ (Nat.le_succ fuel)]
        rfl
      | some one =>
        have visits : Visits m function arm one := .one classed arms (walks_of_done walked)
        obtain ⟨fuel', answers⟩ := each one visits first.2
        refine ⟨max fuel fuel', ?_⟩
        rw [walkArms, onZero _ (by omega)]
        have onOne : (walkArm m function (max fuel fuel' + 1) one first.2).isSome :=
          (walkArm_steady one first.2 fuel' _ (by omega)).isSome answers
        show ((walkArm m function (max fuel fuel' + 1) one first.2).andThen fun second => _).isSome
        exact Outcome.isSome_andThen onOne fun _ _ => rfl

/-- Where the arms end, so does the walk, whatever was recorded before. -/
theorem answers_of_acc (ends : Acc (fun next arm => Visits m function arm next) arm)
    (spine : Spine) : ∃ fuel, (walkArm m function fuel arm spine).isSome := by
  induction ends generalizing spine with
  | intro arm _ ih =>
    obtain ⟨fuel, answers⟩ := @classify_ends P m function arm
    obtain ⟨outcome, known⟩ := isSome_iff_exists.1 answers
    cases outcome with
    | error reason =>
      refine ⟨fuel + 1, ?_⟩
      rw [walkArm, known]
      rfl
    | ok classified =>
      cases classified with
      | base value =>
        refine ⟨fuel + 1, ?_⟩
        rw [walkArm, known]
        rfl
      | step apply =>
        have classed : Classed m function arm (.step apply) := ⟨fuel, known⟩
        refine ⟨fuel + 1, ?_⟩
        rw [walkArm, known]
        show ((recordStep m apply spine).andThen fun step => _).isSome
        exact Outcome.isSome_andThen (recordStep_isSome classed.applies spine) fun _ _ => rfl
      | test selection =>
        have classed : Classed m function arm (.test selection) := ⟨fuel, known⟩
        obtain ⟨more, answers⟩ := walkArms_answers_of classed ih spine
        refine ⟨max fuel (more + 1 + 1) + 1, ?_⟩
        have known : classify m function (max fuel (more + 1 + 1)) arm = .done (.test selection) :=
          classify_steady arm fuel _ (Nat.le_max_left _ _) _ known
        rw [walkArm, known]
        show ((walkTest m function (max fuel (more + 1 + 1)) selection spine).andThen fun test => _).isSome
        refine Outcome.isSome_andThen ?_ fun _ _ => rfl
        obtain ⟨less, same⟩ : ∃ less, max fuel (more + 1 + 1) = less + 1 + 1 :=
          ⟨max fuel (more + 1 + 1) - 2, by omega⟩
        rw [same, walkTest_computed classed.computed]
        refine Sooner.isSome (Outcome.sooner_andThen (.refl _) fun arms _ => ?_) answers
        exact walkArms_sooner (fun arm spine => walkArm_steady arm spine _ _ (by omega)) _ _ _ spine

theorem walkArm_answers_iff : (∃ fuel, (walkArm m function fuel arm spine).isSome) ↔
      ∀ next, Relation.ReflTransGen (Visits m function) arm next →
        ¬ Relation.TransGen (Visits m function) next next := by
  rw [← acc_iff_acyclic fun _ _ visits => visits.live]
  constructor
  · rintro ⟨fuel, answers⟩
    obtain ⟨outcome, answered⟩ := isSome_iff_exists.1 answers
    exact acc_of_answers answered
  · exact fun ends => answers_of_acc ends spine

end Spine

end LichenVm
