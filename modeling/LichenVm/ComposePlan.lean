import LichenVm.BodyScope
import LichenVm.ComposeMerge

namespace LichenVm.KernelIr

open Traverse

theorem require_ok {held : Bool} {cause : ComposeRefusal} :
    require held cause = .ok () ↔ held := by
  unfold require
  split
  · rename_i held
    simp [held]
  · rename_i failed
    simp only [refuse, failed]
    exact ⟨fun same => (by cases same), fun same => (by cases same)⟩

variable {body : KernelBody}

theorem gated_ok {cause : BodyRefusal → ComposeRefusal} (passed : gated body cause = .ok ()) :
    body.validate = .ok () := by
  unfold gated at passed
  split at passed
  · assumption
  · cases passed
  · cases passed

/-- The edge a consumer answers is its own, and it does not collide with the producer's slices. -/
theorem consumerEdge_sound {producer consumer : KernelFragment} {absorbed index total : Nat}
    {edge : Edge} (ran : consumerEdge producer consumer absorbed index total = .ok edge) :
    (consumer, absorbed) = (edge.fragment, edge.absorbed) ∧ edge.Sound ∧
      edge.absorbed < 2 ^ 32 ∧ (producer.slices = [] ∨ edge.fragment.slices = []) := by
  obtain ⟨_, gate, ran⟩ := bind_ok.1 ran
  obtain ⟨_, -, ran⟩ := bind_ok.1 ran
  obtain ⟨_, -, ran⟩ := bind_ok.1 ran
  obtain ⟨_, -, ran⟩ := bind_ok.1 ran
  obtain ⟨_, slices, ran⟩ := bind_ok.1 ran
  obtain ⟨_, -, ran⟩ := bind_ok.1 ran
  rw [require_ok] at slices
  dsimp only at ran
  split at ran
  · cases ran
  obtain ⟨_, -, ran⟩ := bind_ok.1 ran
  split at ran
  · cases ran
  obtain ⟨_, -, ran⟩ := bind_ok.1 ran
  obtain ⟨_, -, ran⟩ := bind_ok.1 ran
  obtain ⟨reads, collected, ran⟩ := bind_ok.1 ran
  obtain ⟨_, read, ran⟩ := bind_ok.1 ran
  cases ran
  refine ⟨rfl, ⟨gated_ok gate, collected, rfl⟩, ?_, by simpa using slices⟩
  rw [require_ok] at read
  obtain ⟨value, listed, same⟩ : ∃ value, (value, absorbed) ∈ reads ∧ True := by
    simpa using read
  obtain ⟨-, -, ordinal, -, rfl⟩ := (mem_bufferReads collected value absorbed).1 listed
  exact Nat.mod_lt _ (by decide)

/-- The output the producer's store keeps filling, where the consumers read the store back. -/
def KernelFragment.storeKept (producer : KernelFragment) : Option Nat :=
  match producer.body.writeSites with
  | [write] =>
    match producer.body.operandsOf write with
    | [position, address, value] =>
      match producer.body.indexLocalCone value address producer.body.indexParameter with
      | .ok _ => none
      | .error _ =>
        if producer.body.laneDependent value = false then none
        else producer.body.constant (some position)
    | _ => none
  | _ => none

/-- What a plan that passes its checks rests on. -/
structure Planned (producer : KernelFragment) (consumers : List (KernelFragment × Nat))
    (plan : MergePlan) (edges : List Edge) : Prop where
  own : plan.producer = producer
  gate : producer.body.validate = .ok ()
  store : producer.body.writeSites = [plan.write]
  landing : plan.returnBlock < producer.body.blocks.length
  staged : plan.stagedOrdinal = producer.storeKept
  faithful : plan.cone.Faithful producer.body
  count : edges.length = consumers.length
  edge : ∀ (index : Nat) (edge : Edge), edges[index]? = some edge →
    consumers[index]? = some (edge.fragment, edge.absorbed) ∧ edge.Sound ∧
      edge.absorbed < 2 ^ 32 ∧ (producer.slices = [] ∨ edge.fragment.slices = [])

theorem writeEdge_ok {write : ValueId} {answer : ScalarClass × ValueId × ValueId}
    (ran : body.writeEdge write = .ok answer) :
    ∃ position classes, body.values[write]? = some (.instr (.bufferWriteCall answer.1)
      [position, answer.2.2, answer.2.1] classes) := by
  unfold KernelBody.writeEdge at ran
  split at ran
  · rename_i stated args classes found
    split at ran
    · cases ran
      exact ⟨_, classes, found⟩
    · cases ran
  · cases ran

theorem forwardingOf_faithful {forwarded writtenAt read : ValueId} {forwarding : Forwarding}
    (ran : forwardingOf body forwarded writtenAt read = .ok forwarding) :
    ∀ cone, forwarding = .recomputed cone → cone.Faithful body := by
  rintro cone rfl
  unfold forwardingOf at ran
  split at ran
  · rename_i planned held
    cases ran
    exact indexLocalCone_faithful held
  · split at ran
    · cases ran
      exact Cone.reused_faithful forwarded body
    · split at ran
      · cases ran
      · cases ran

/-- The store is kept exactly where the plan reads it back. -/
theorem stagedOrdinal_eq {producer : KernelFragment} {write read position forwarded written : ValueId}
    {stated : ScalarClass} {classes : List ScalarClass} {forwarding : Forwarding}
    {ordinal : Option Nat} (store : producer.body.writeSites = [write])
    (found : producer.body.values[write]? =
      some (.instr (.bufferWriteCall stated) [position, written, forwarded] classes))
    (forwards : forwardingOf producer.body forwarded written read = .ok forwarding)
    (ran : stagedOrdinalOf producer.body write forwarding = .ok ordinal) :
    ordinal = producer.storeKept := by
  have operands : producer.body.operandsOf write = [position, written, forwarded] := by
    rw [KernelBody.operandsOf, found]
  simp only [KernelFragment.storeKept, store, operands]
  unfold forwardingOf at forwards
  cases held : producer.body.indexLocalCone forwarded written producer.body.indexParameter with
  | ok planned =>
    rw [held] at forwards
    cases forwards
    cases ran
    rfl
  | error blocker =>
    rw [held] at forwards
    dsimp only at forwards ⊢
    split at forwards
    · rename_i free
      cases forwards
      cases ran
      rw [if_pos free]
    · rename_i dependent
      rw [if_neg dependent]
      split at forwards
      · cases forwards
        simp only [stagedOrdinalOf, operands, List.head?_cons] at ran
        split at ran
        · rename_i constant
          cases ran
          exact constant.symm
        · cases ran
      · cases forwards

theorem returnBlock_lt {blocks : List BasicBlock}
    (one : (blocks.filter fun block => block.terminator.returns).length = 1) :
    (blocks.findIdx? fun block => block.terminator.returns).getD 0 < blocks.length := by
  cases found : blocks.findIdx? fun block => block.terminator.returns with
  | some index =>
    exact (List.findIdx?_eq_some_iff_findIdx_eq.1 found).1
  | none =>
    rw [List.filter_eq_nil_iff.2] at one
    · cases one
    · intro block member
      simpa using List.findIdx?_eq_none_iff.1 found block member

theorem planMerge_planned {producer : KernelFragment} {consumers : List (KernelFragment × Nat)}
    {plan : MergePlan} {edges : List Edge}
    (ran : planMerge producer consumers = .ok (plan, edges)) :
    Planned producer consumers plan edges := by
  unfold planMerge at ran
  split at ran
  · obtain ⟨_, gate, ran⟩ := bind_ok.1 ran
    obtain ⟨_, -, ran⟩ := bind_ok.1 ran
    split at ran
    · obtain ⟨_, -, ran⟩ := bind_ok.1 ran
      obtain ⟨reads, -, ran⟩ := bind_ok.1 ran
      dsimp only at ran
      split at ran
      · cases ran
      obtain ⟨_, -, ran⟩ := bind_ok.1 ran
      obtain ⟨edges', collected, ran⟩ := bind_ok.1 ran
      split at ran
      · cases ran
      · rename_i write store
        obtain ⟨⟨produced, forwarded, written⟩, operands, ran⟩ := bind_ok.1 ran
        obtain ⟨_, -, ran⟩ := bind_ok.1 ran
        obtain ⟨_, returns, ran⟩ := bind_ok.1 ran
        obtain ⟨forwarding, forwards, ran⟩ := bind_ok.1 ran
        obtain ⟨ordinal, staged, ran⟩ := bind_ok.1 ran
        cases ran
        obtain ⟨position, classes, found⟩ := writeEdge_ok operands
        obtain ⟨count, each⟩ := getElem?_of_mapM_ok collected
        refine ⟨rfl, gated_ok gate, store, ?_, stagedOrdinal_eq store found forwards staged, ?_,
          by rw [count, List.length_zipIdx], ?_⟩
        · rw [require_ok] at returns
          exact returnBlock_lt (by simpa using returns)
        · cases forwarding with
          | recomputed cone => exact forwardingOf_faithful forwards cone rfl
          | staged => exact Cone.reused_faithful forwarded producer.body
        · intro index edge held
          have within : index < consumers.zipIdx.length :=
            count ▸ (getElem?_eq_some_iff.1 held).1
          obtain ⟨other, held', answered⟩ := each index _ (List.getElem?_eq_getElem within)
          rw [held] at held'
          cases held'
          rw [List.getElem_zipIdx] at answered
          rw [List.length_zipIdx] at within
          obtain ⟨same, rest⟩ := consumerEdge_sound answered
          rw [List.getElem?_eq_getElem within, ← same]
          exact ⟨rfl, rest⟩
      · cases ran
    · cases ran
  · cases ran

end LichenVm.KernelIr
