import LichenVm.Classes
import LichenVm.LoopSpine
import LichenVm.Traverse
import LichenVm.FuelBounds

/-! The walks of a loop conversion, and what fuel they end with. -/

namespace LichenVm

open FuelBounds

/-- What defines the value a node names. -/
inductive Define where
  /-- A computation in this body. -/
  | computed (node : NodeId)
  /-- One of the function's parameter leaves. -/
  | parameter (leaf : NodeId)
  /-- The value has no definition this graph can see. -/
  | opaqueValue
  deriving DecidableEq

namespace Module

variable {P : Program}

/-- The scalar leaves of a function's parameter. Naming a dead function panics in the source. -/
def parameterLeaves (m : Module P) (function : FunctionId) : Except String (List NodeId) :=
  match m.functions.get function with
  | none => .ok []
  | some entry =>
    match m.exprValueHalf entry.parameter with
    | some value => m.valueLeaves value
    | none => .ok [entry.parameter]

/-- Whether an apply's callee operand states its function. -/
def applyCalleeIsStated (m : Module P) (apply : NodeId) : Bool :=
  let callee := do
    let operation ← m.nodeOperation apply
    let items ← operation.operand.bind m.arrayItems
    let first ← items.head?
    first.node.dynamic?
  callee.any fun callee => (m.nodeValue (.dynamic callee)).isSome || (m.nodeOperation callee).isSome

def computesBy (m : Module P) (node : NodeId) (accepts : Option LowOperator → Bool) : Bool :=
  (m.nodeOperation node).any fun operation => accepts operation.operator.asLow

/-- The member of a node's class that defines its value: a stated call first, and else one whose
operator is not a view. -/
def definingMember (m : Module P) (node : NodeId) : Option NodeId :=
  let members := m.membersOf (m.classRoot node)
  let call := members.find? fun member =>
    m.computesBy member (· == some .apply) && m.applyCalleeIsStated member
  call.or (members.find? fun member => m.computesBy member (· != some .index))

/-- What defines a node that is neither a selection nor a view. -/
def defineHere (m : Module P) (function : FunctionId) (node : NodeId) : Define :=
  let leaves := ((m.parameterLeaves function).toOption).getD []
  match leaves.find? fun leaf => m.classRoot node = m.classRoot leaf with
  | some leaf => .parameter leaf
  | none =>
    if (m.nodeOperation node).isSome then .computed node
    else match m.definingMember node with
      | some computation => .computed computation
      | none => .opaqueValue

/-- What defines the value a node names, in the domain of a function. Nothing is answered when the
fuel ends. -/
def defineIn (m : Module P) (function : FunctionId) : Nat → NodeId → Option Define
  | 0, _ => none
  | fuel + 1, node =>
    match m.selectionOf node with
    | some .computed => some (.computed node)
    | some (.views view) => defineIn m function fuel view
    | none => some (m.defineHere function node)

def ViewOf (m : Module P) (node view : NodeId) : Prop :=
  m.selectionOf node = some (.views view)

variable {node : NodeId} {m : Module P}

theorem live_of_operation {operation : Operation P}
    (computes : m.nodeOperation node = some operation) : node ∈ m.nodes.keys := by
  obtain ⟨entry, found, -⟩ := Option.bind_eq_some_iff.1 computes
  rw [SlotMap.mem_keys, SlotMap.containsKey_eq_true]
  exact ⟨entry, found⟩

theorem live_of_selectionOf {selection : Selection} (found : m.selectionOf node = some selection) :
    node ∈ m.nodes.keys := by
  obtain ⟨operation, computes, -⟩ := m.operator_of_selectionOf node selection found
  exact live_of_operation computes

/-- The search for a definition ends exactly where the views from the node do. -/
theorem defineIn_returns_iff_acc {function : FunctionId} :
    (∃ fuel definition, m.defineIn function fuel node = some definition) ↔
      Acc (fun view node => m.ViewOf node view) node := by
  constructor
  · rintro ⟨fuel, definition, answered⟩
    induction fuel generalizing node with
    | zero => cases answered
    | succ fuel ih =>
      constructor
      intro view viewed
      unfold defineIn at answered
      rw [show m.selectionOf node = some (.views view) from viewed] at answered
      exact ih answered
  · intro ends
    induction ends with
    | intro node _ ih =>
      cases found : m.selectionOf node with
      | none => exact ⟨1, m.defineHere function node, by rw [defineIn, found]⟩
      | some selection =>
        cases selection with
        | computed => exact ⟨1, .computed node, by rw [defineIn, found]⟩
        | views view =>
          obtain ⟨fuel, definition, answered⟩ := ih view found
          exact ⟨fuel + 1, definition, by rw [defineIn, found]; exact answered⟩

theorem defineIn_returns_iff {function : FunctionId} :
    (∃ fuel definition, m.defineIn function fuel node = some definition) ↔
      ∀ view, Relation.ReflTransGen m.ViewOf node view → ¬ Relation.TransGen m.ViewOf view view :=
  defineIn_returns_iff_acc.trans (acc_iff_acyclic fun _ _ viewed => live_of_selectionOf viewed)

end Module

end LichenVm

open List Option

namespace LichenVm

open FuelBounds

section Outcome

variable {α β : Type} {first : Outcome α} {next : α → Outcome β}

theorem Outcome.sooner_andThen {first' : Outcome α} {next' : α → Outcome β}
    (sooner : Sooner first first')
    (each : ∀ value, first = .done value → Sooner (next value) (next' value)) :
    Sooner (first.andThen next) (first'.andThen next') := by
  intro result answered
  cases known : first with
  | none =>
    rw [known] at answered
    cases answered
  | some outcome =>
    rw [sooner outcome known]
    rw [known] at answered
    cases outcome with
    | error reason => exact answered
    | ok value => exact each value known result answered

theorem Outcome.isSome_andThen (answers : first.isSome)
    (each : ∀ value, first = .done value → (next value).isSome) :
    (first.andThen next).isSome := by
  cases known : first with
  | none =>
    rw [known] at answers
    cases answers
  | some outcome =>
    cases outcome with
    | error reason => rfl
    | ok value => exact each value known

theorem Outcome.andThen_eq_some
    {outcome : Except LoopRefusal β} (answered : first.andThen next = some outcome) :
    (∃ reason, first = some (.error reason)) ∨ ∃ value, first = .done value ∧ next value = some outcome := by
  match first with
  | none => cases answered
  | some (.error reason) => exact .inl ⟨reason, rfl⟩
  | some (.ok value) => exact .inr ⟨value, rfl, answered⟩

theorem Outcome.andThen_assoc {γ : Type} (first : Outcome α) (second : α → Outcome β)
    (third : β → Outcome γ) :
    (first.andThen second).andThen third = first.andThen fun value => (second value).andThen third := by
  cases first with
  | none => rfl
  | some outcome => cases outcome <;> rfl

end Outcome

namespace Module

variable {P : Program} (m : Module P)

/-- Each live function is nested in one below it in some order. -/
def OwnersFall (rank : FunctionId → Nat) : Prop :=
  ∀ function entry owner, m.functions.get function = some entry → entry.parent = some owner →
    rank owner < rank function

variable {m}

theorem nestedIn_steady (g h : FunctionId) : Steady fun fuel => m.nestedIn g fuel h := by
  apply Steady.of_succ
  intro fuel
  induction fuel generalizing h with
  | zero => exact .none _
  | succ fuel ih =>
    show Sooner (m.nestedIn g (fuel + 1) h) (m.nestedIn g (fuel + 1 + 1) h)
    unfold nestedIn
    split
    · exact .refl _
    · split
      · exact .refl _
      · exact ih _

variable {rank : FunctionId → Nat}

theorem nestedIn_ends (owned : m.OwnersFall rank) (g h : FunctionId) :
    ∃ fuel, (m.nestedIn g fuel h).isSome := by
  induction below : rank h using Nat.strong_induction_on generalizing h with
  | h count ih =>
    by_cases same : h = g
    · exact ⟨1, by rw [nestedIn, if_pos same]; rfl⟩
    cases found : (m.functions.get h).bind Function.parent with
    | none => exact ⟨1, by rw [nestedIn, if_neg same, found]; rfl⟩
    | some owner =>
      obtain ⟨entry, live, parent⟩ := bind_eq_some_iff.1 found
      have lower := owned h entry owner live parent
      obtain ⟨fuel, answers⟩ := ih (rank owner) (below ▸ lower) owner rfl
      exact ⟨fuel + 1, by rw [nestedIn, if_neg same, found]; exact answers⟩

theorem templateSubtree_steady (g : FunctionId) : Steady fun fuel => m.templateSubtree fuel g := by
  intro fuel more within
  apply Sooner.bind _ fun _ => .refl _
  apply Sooner.mapM
  exact fun h => (nestedIn_steady g h fuel more within).bind fun _ => .refl _

theorem templateSubtree_ends (owned : m.OwnersFall rank)
    (g : FunctionId) : ∃ fuel, (m.templateSubtree fuel g).isSome := by
  obtain ⟨fuel, all⟩ := Steady.common (nestedIn_steady g) m.functions.keys fun h _ =>
    nestedIn_ends owned g h
  refine ⟨fuel, ?_⟩
  have parts : (m.functions.keys.mapM fun h => (m.nestedIn g fuel h).bind fun nested =>
      some (if nested then ((m.functions.get h).map Function.nodes).getD [] else [])).isSome := by
    apply Traverse.mapM_isSome
    intro h member
    obtain ⟨nested, answered⟩ := isSome_iff_exists.1 (all h member)
    rw [answered]
    rfl
  obtain ⟨parts, answered⟩ := isSome_iff_exists.1 parts
  exact isSome_iff_exists.2 ⟨_, bind_eq_some_iff.2 ⟨parts, answered, rfl⟩⟩

theorem markedCalleesOf_steady (g : FunctionId) : Steady fun fuel => m.markedCalleesOf fuel g :=
  fun fuel more within => (templateSubtree_steady g fuel more within).bind fun _ => .refl _

theorem markedCalleesOf_ends (owned : m.OwnersFall rank) (g : FunctionId) :
    ∃ fuel callees, m.markedCalleesOf fuel g = some callees := by
  obtain ⟨fuel, answers⟩ := templateSubtree_ends owned g
  obtain ⟨nodes, found⟩ := isSome_iff_exists.1 answers
  exact ⟨fuel, _, bind_eq_some_iff.2 ⟨nodes, found, rfl⟩⟩

theorem markedCalleesOf_live {g callee : FunctionId} {fuel : Nat} {callees : List FunctionId}
    (found : m.markedCalleesOf fuel g = some callees) (member : callee ∈ callees) :
    callee ∈ m.functions.keys := by
  obtain ⟨nodes, -, same⟩ := bind_eq_some_iff.1 found
  cases same
  obtain ⟨-, marked⟩ := mem_filter.1 (mem_eraseDups.1 member)
  obtain ⟨slot, looping⟩ := isSome_iff_exists.1 marked
  obtain ⟨entry, live, -⟩ := bind_eq_some_iff.1 looping
  rw [SlotMap.mem_keys, SlotMap.containsKey_eq_true]
  exact ⟨entry, live⟩

theorem reachable_steady (seen stack : List FunctionId) :
    Steady fun fuel => m.reachable fuel seen stack := by
  apply Steady.of_succ
  intro fuel
  induction fuel generalizing seen stack with
  | zero =>
    cases stack with
    | nil => exact .refl _
    | cons g stack => exact .none _
  | succ fuel ih =>
    cases stack with
    | nil => exact .refl _
    | cons g stack =>
      show Sooner (m.reachable (fuel + 1) seen (g :: stack))
        (m.reachable (fuel + 1 + 1) seen (g :: stack))
      unfold reachable
      split
      · exact ih _ _
      · exact (markedCalleesOf_steady g fuel _ (Nat.le_succ fuel)).bind fun callees => ih _ _

theorem reachable_ends (owned : m.OwnersFall rank)
    (seen stack : List FunctionId) : ∃ fuel, (m.reachable fuel seen stack).isSome := by
  have along := @visiting_induction _ _ (stack ++ m.functions.keys) id
    (fun seen rest => (∀ g ∈ rest, g ∈ stack ++ m.functions.keys) →
      ∃ fuel, (m.reachable fuel seen rest).isSome)
    (fun _ _ => ⟨0, by simp [reachable]⟩)
  refine along (fun seen g rest met fresh inside => ?_) seen stack
    fun g member => mem_append_left _ member
  have behind : ∀ h ∈ rest, h ∈ stack ++ m.functions.keys :=
    fun h member => inside h (mem_cons_of_mem g member)
  by_cases member : g ∈ seen
  · obtain ⟨fuel, answers⟩ := met behind
    exact ⟨fuel + 1, by rw [reachable, if_pos member]; exact answers⟩
  · obtain ⟨fuel, callees, found⟩ := markedCalleesOf_ends owned g
    have pushes : ∀ h ∈ (callees.filter (· ∉ seen ++ [g])).reverse ++ rest,
        h ∈ stack ++ m.functions.keys := by
      intro h pushed
      rcases mem_append.1 pushed with pushed | pushed
      · have called := (mem_filter.1 (mem_reverse.1 pushed)).1
        exact mem_append_right _ (markedCalleesOf_live found called)
      · exact behind h pushed
    obtain ⟨fuel', answers⟩ := fresh member (seen ++ [g]) (fun other => by simp [or_comm])
      (callees.filter (· ∉ seen ++ [g])).reverse
      (fun outside => absurd (inside g mem_cons_self) outside) pushes
    refine ⟨max fuel fuel' + 1, ?_⟩
    rw [reachable, if_neg member]
    have later : m.markedCalleesOf (max fuel fuel') g = some callees :=
      markedCalleesOf_steady g fuel _ (Nat.le_max_left fuel fuel') callees found
    show ((m.markedCalleesOf (max fuel fuel') g).bind fun callees => _).isSome
    rw [later]
    exact (reachable_steady _ _ fuel' _ (Nat.le_max_right fuel fuel')).isSome answers

theorem loopComponent_steady (function : FunctionId) :
    Steady fun fuel => m.loopComponent fuel function := by
  intro fuel more within
  apply Sooner.bind (reachable_steady _ _ fuel more within)
  intro forward
  apply Sooner.filterM
  exact fun g => (reachable_steady _ _ fuel more within).bind fun _ => .refl _

theorem loopComponent_ends (owned : m.OwnersFall rank)
    (function : FunctionId) : ∃ fuel, (m.loopComponent fuel function).isSome := by
  obtain ⟨fuel, answers⟩ := reachable_ends owned [] [function]
  obtain ⟨forward, found⟩ := isSome_iff_exists.1 answers
  obtain ⟨fuel', all⟩ := Steady.common (fun g => reachable_steady [] [g]) forward fun g _ =>
    reachable_ends owned [] [g]
  have later : m.reachable (max fuel fuel') [] [function] = some forward :=
    reachable_steady _ _ fuel _ (Nat.le_max_left fuel fuel') forward found
  refine ⟨max fuel fuel', ?_⟩
  show ((m.reachable (max fuel fuel') [] [function]).bind fun forward => _).isSome
  rw [later]
  apply filterM_isSome
  intro g member
  have answers : (m.reachable (max fuel fuel') [] [g]).isSome :=
    (reachable_steady [] [g] fuel' _ (Nat.le_max_right fuel fuel')).isSome (all g member)
  obtain ⟨back, known⟩ := isSome_iff_exists.1 answers
  show ((m.reachable (max fuel fuel') [] [g]).bind fun back => _).isSome
  rw [known]
  rfl

theorem operandsOf_dead {node : NodeId} (dead : node ∉ m.nodes.keys) : m.operandsOf node = .ok [] := by
  have plain : m.nodeOperation node = none := by
    cases computes : m.nodeOperation node with
    | none => rfl
    | some operation => exact absurd (live_of_operation computes) dead
  rw [operandsOf, plain]

theorem arrayItems_dead {node : NodeId} (dead : node ∉ m.nodes.keys) : m.arrayItems node = none := by
  have absent : m.nodes.get node = none := by
    cases found : m.nodes.get node with
    | none => rfl
    | some entry =>
      rw [SlotMap.mem_keys, SlotMap.containsKey_eq_true] at dead
      exact absurd ⟨entry, found⟩ dead
  rw [arrayItems, absent]
  rfl

theorem subtreeApplies_steady (function : FunctionId) (seen stack : List NodeId) :
    Steady fun fuel => m.subtreeApplies function fuel seen stack := by
  apply Steady.of_succ
  intro fuel
  induction fuel generalizing seen stack with
  | zero =>
    cases stack with
    | nil => exact .refl _
    | cons current stack => exact .none _
  | succ fuel ih =>
    cases stack with
    | nil => exact .refl _
    | cons current stack =>
      show Sooner (m.subtreeApplies function (fuel + 1) seen (current :: stack))
        (m.subtreeApplies function (fuel + 1 + 1) seen (current :: stack))
      unfold subtreeApplies
      split
      · exact ih _ _
      · split
        · exact .refl _
        · exact ih _ _

theorem subtreeApplies_ends (function : FunctionId) (seen stack : List NodeId) :
    ∃ fuel, (m.subtreeApplies function fuel seen stack).isSome := by
  refine @visiting_induction _ _ m.nodes.keys id
    (fun seen stack => ∃ fuel, (m.subtreeApplies function fuel seen stack).isSome)
    (fun _ => ⟨0, by simp [subtreeApplies]⟩) (fun seen current stack met fresh => ?_) seen stack
  by_cases member : current ∈ seen
  · obtain ⟨fuel, answers⟩ := met
    exact ⟨fuel + 1, by rw [subtreeApplies, if_pos member]; exact answers⟩
  by_cases applies : m.calleeFunction current = some function
  · exact ⟨1, by rw [subtreeApplies, if_neg member, if_pos applies]; rfl⟩
  obtain ⟨fuel, answers⟩ := fresh member (current :: seen) (fun other => mem_cons)
    ((((m.arrayItems current).getD []).filterMap fun item => item.node.dynamic?).reverse ++
      (((m.operandsOf current).toOption).getD []).reverse) fun dead => by
        have items : m.arrayItems current = none := arrayItems_dead dead
        have operands : m.operandsOf current = .ok [] := operandsOf_dead dead
        rw [items, operands]
        rfl
  refine ⟨fuel + 1, ?_⟩
  rw [subtreeApplies, if_neg member, if_neg applies]
  rw [append_assoc] at answers
  exact answers

section

variable (function : FunctionId) (arity : Nat) (seen : List NodeId) (stack : List (NodeId × Bool))
  (tuple : Bool)

include function arity seen stack tuple

theorem checkReads_steady :
    Steady fun fuel => m.checkReads function arity fuel seen stack tuple := by
  apply Steady.of_succ
  intro fuel
  induction fuel generalizing seen stack tuple with
  | zero =>
    cases stack with
    | nil => exact .refl _
    | cons read stack => exact .none _
  | succ fuel ih =>
    cases stack with
    | nil => exact .refl _
    | cons read stack =>
      show Sooner (m.checkReads function arity (fuel + 1) seen (read :: stack) tuple)
        (m.checkReads function arity (fuel + 1 + 1) seen (read :: stack) tuple)
      unfold checkReads
      split
      · exact ih _ _ _
      · split
        · split
          · exact .refl _
          · exact ih _ _ _
        · split
          · exact .refl _
          · exact ih _ _ _
        · exact .refl _
        · exact ih _ _ _

theorem checkReads_ends : ∃ fuel, (m.checkReads function arity fuel seen stack tuple).isSome := by
  refine @visiting_induction _ _ m.nodes.keys Prod.fst
    (fun seen stack => ∀ tuple, ∃ fuel, (m.checkReads function arity fuel seen stack tuple).isSome)
    (fun _ _ => ⟨0, by simp [checkReads, Outcome.done]⟩) (fun seen read stack met fresh => ?_)
    seen stack tuple
  intro tuple
  obtain ⟨node, structural⟩ := read
  by_cases member : node ∈ seen
  · obtain ⟨fuel, answers⟩ := met tuple
    exact ⟨fuel + 1, by rw [checkReads, if_pos member]; exact answers⟩
  -- A read of the parameter ends its own branch, whatever is on the stack.
  have skip (tuple : Bool) := fresh member (node :: seen) (fun other => mem_cons) [] (fun _ => rfl) tuple
  rcases path : m.parameterValuePath function node with _ | _ | ⟨k, _ | ⟨k', rest⟩⟩
  · obtain ⟨fuel, answers⟩ := fresh member (node :: seen) (fun other => mem_cons)
      (((((m.arrayItems node).getD []).filterMap fun item => item.node.dynamic?).map (·, true)).reverse ++
        ((((m.operandsOf node).toOption).getD []).map (·, false)).reverse) (fun dead => by
          have items : m.arrayItems node = none := arrayItems_dead dead
          have operands : m.operandsOf node = .ok [] := operandsOf_dead dead
          rw [items, operands]
          rfl) tuple
    refine ⟨fuel + 1, ?_⟩
    rw [checkReads, if_neg member, path]
    rw [append_assoc] at answers
    exact answers
  · by_cases shaped : ¬ structural ∧ (tuple ∨ arity ≠ 1)
    · exact ⟨1, by rw [checkReads, if_neg member, path]; simp only [if_pos shaped]; rfl⟩
    · obtain ⟨fuel, answers⟩ := skip tuple
      exact ⟨fuel + 1, by rw [checkReads, if_neg member, path]; simp only [if_neg shaped]; exact answers⟩
  · by_cases beyond : k ≥ arity
    · exact ⟨1, by rw [checkReads, if_neg member, path]; simp only [if_pos beyond]; rfl⟩
    · obtain ⟨fuel, answers⟩ := skip true
      exact ⟨fuel + 1, by rw [checkReads, if_neg member, path]; simp only [if_neg beyond]; exact answers⟩
  · exact ⟨1, by rw [checkReads, if_neg member, path]; rfl⟩

end

end Module

end LichenVm
