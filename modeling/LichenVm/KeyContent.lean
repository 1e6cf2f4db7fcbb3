import LichenVm.KeyHash

namespace LichenVm

open Memo

variable {P : Program}

/-- The memo answers what the walk without one answers. -/
structure Unfolding.Sound (m : Module P) (memo : Unfolding) : Prop where
  node : ∀ mode id depth verdict, memo.nodes (mode, id, depth) = some verdict →
    m.content depth mode id = some verdict
  function : ∀ function depth hash, memo.functions (function, depth + 1) = some hash →
    m.hashResolved (m.content (depth + 1)) function = some hash

namespace Unfolding

variable {m : Module P}

theorem sound_empty : Unfolding.Sound m {} :=
  ⟨fun _ _ _ _ held => (by cases held), fun _ _ _ held => (by cases held)⟩

theorem Sound.rememberNode {memo : Unfolding} (sound : memo.Sound m) {mode : UnfoldMode}
    {id : AnyNodeId} {depth : Nat} {verdict : KeyState}
    (answer : m.content depth mode id = some verdict) :
    (memo.rememberNode (mode, id, depth) verdict).Sound m := by
  refine ⟨fun mode' id' depth' verdict' held => ?_, sound.function⟩
  simp only [Unfolding.rememberNode] at held
  by_cases same : (mode', id', depth') = (mode, id, depth)
  · cases same
    rw [Function.update_self] at held
    cases held
    exact answer
  · rw [Function.update_of_ne same] at held
    exact sound.node mode' id' depth' verdict' held

theorem Sound.rememberFunction {memo : Unfolding} (sound : memo.Sound m)
    {function : AnyFunctionId} {depth : Nat} {hash : Option UInt64}
    (answer : m.hashResolved (m.content (depth + 1)) function = some hash) :
    (memo.rememberFunction (function, depth + 1) hash).Sound m := by
  unfold Unfolding.rememberFunction
  split
  · refine ⟨sound.node, fun function' depth' hash' held => ?_⟩
    dsimp only at held
    by_cases same : (function', depth' + 1) = (function, depth + 1)
    · cases same
      rw [Function.update_self] at held
      cases held
      exact answer
    · rw [Function.update_of_ne same] at held
      exact sound.function function' depth' hash' held
  · exact sound

end Unfolding

namespace Module

section Refinement

variable {m : Module P} {walk : UnfoldMode → AnyNodeId → Hashing KeyState}
  {plain : UnfoldMode → AnyNodeId → Option KeyState}
  {functionHash : AnyFunctionId → Hashing (Option UInt64)}
  {plainHash : AnyFunctionId → Option (Option UInt64)}
  (walks : ∀ mode id, Refines (Unfolding.Sound m) (walk mode id) (plain mode id))
  (functions : ∀ function, Refines (Unfolding.Sound m) (functionHash function) (plainHash function))

include walks in
theorem hashTemplate_refines (id : AnyNodeId) :
    Refines (Unfolding.Sound m) (hashTemplate walk id) (hashTemplate plain id) := by
  refine (walks .template id).bind fun state => ?_
  cases state with
  | hashed hash => exact Refines.pure hash
  | undecided | unhashable => exact Refines.lift none

include walks in
theorem hashEntryPoints_refines (result : AnyNodeId) (asserts : List AnyNodeId) :
    Refines (Unfolding.Sound m) (hashEntryPoints walk result asserts)
      (hashEntryPoints plain result asserts) := by
  refine (hashTemplate_refines walks result).bind fun first => ?_
  exact Refines.foldlM (fun hash assert =>
    (hashTemplate_refines walks assert).bind fun next => Refines.pure _) asserts _

include walks in
theorem hashResolved_refines (function : AnyFunctionId) :
    Refines (Unfolding.Sound m) (m.hashResolved walk function) (m.hashResolved plain function) := by
  refine (Refines.lift (m.entryPoints function)).bind fun entries => ?_
  cases entries with
  | none => exact Refines.pure none
  | some entries =>
    exact (hashEntryPoints_refines walks entries.1 entries.2).bind fun hash =>
      Refines.pure (some hash)

variable (mode : UnfoldMode)

include walks in
theorem hashItems_refines (items : List ArrayItem) (hash : UInt64) :
    Refines (Unfolding.Sound m) (m.hashItems walk mode items hash)
      (m.hashItems plain mode items hash) := by
  induction items generalizing hash with
  | nil => exact Refines.pure _
  | cons item items ih =>
    unfold hashItems
    split
    · exact ih _
    · refine (Refines.lift (m.slotContent item.node)).bind fun content => ?_
      refine (walks mode content).bind fun state => ?_
      cases state with
      | hashed itemHash => exact ih _
      | undecided | unhashable => exact Refines.pure _

include walks functions in
theorem hashValue_refines (value : Value P) :
    Refines (Unfolding.Sound m) (m.hashValue walk functionHash mode value)
      (m.hashValue plain plainHash mode value) := by
  cases value with
  | low value =>
    cases value with
    | array array => exact hashItems_refines walks mode array.items ARRAY_SEED
    | function function =>
      refine (functions function).bind fun hash => ?_
      cases hash with
      | none | some hash => exact Refines.pure _
    | _ => exact Refines.pure _
  | ext value => exact Refines.pure _

include walks functions in
theorem hashStep_refines (id : AnyNodeId) :
    Refines (Unfolding.Sound m) (m.hashStep walk functionHash mode id)
      (m.hashStep plain plainHash mode id) := by
  refine (Refines.lift (m.unfoldedEdge mode id)).bind fun edge => ?_
  cases edge with
  | some operand =>
    refine Refines.bind ?_ fun nested => Refines.pure _
    cases operand with
    | none => exact Refines.pure _
    | some operand => exact hashTemplate_refines walks operand
  | none =>
    refine (Refines.lift (m.refusesTemplate mode id)).bind fun refuses => ?_
    cases refuses with
    | true => exact Refines.pure _
    | false =>
      refine (Refines.lift (m.readValue id)).bind fun value => ?_
      cases value with
      | none => exact Refines.pure _
      | some value => exact hashValue_refines walks functions mode value

end Refinement

theorem hashNode_refines (m : Module P) (depth : Nat) (mode : UnfoldMode) (id : AnyNodeId) :
    Refines (Unfolding.Sound m) (m.hashNode depth mode id) (m.content depth mode id) := by
  induction depth generalizing mode id with
  | zero => exact Refines.pure _
  | succ depth ih =>
    apply Refines.memoized
    · refine hashStep_refines ih (fun function => ?_) mode id
      unfold hashFunction
      cases depth with
      | zero => exact Refines.pure _
      | succ depth =>
        apply Refines.memoized (hashResolved_refines ih function)
        · exact fun memo answer sound held => sound.function function depth answer held
        · exact fun memo answer sound held => sound.rememberFunction held
    · exact fun memo answer sound held => sound.node mode id (depth + 1) answer held
    · exact fun memo answer sound held => sound.rememberNode held

theorem contentHash_eq (m : Module P) (key : AnyNodeId) :
    m.contentHash key = m.content UNFOLD_DEPTH .key key := by
  have ran := m.hashNode_refines UNFOLD_DEPTH .key key {} Unfolding.sound_empty
  unfold contentHash
  cases held : m.content UNFOLD_DEPTH .key key with
  | none =>
    rw [held] at ran
    rw [ran]
    rfl
  | some state =>
    rw [held] at ran
    obtain ⟨left, ran, -⟩ := ran
    rw [ran]
    rfl

end Module

end LichenVm
