import LichenVm.ModuleRun
import LichenVm.Operations
import LichenVm.ReleasedValues

open List Option

namespace LichenVm

open DisjointSet SlotMap Module SameValues

namespace Module

variable {P : Program}

/-- No slot that stays has its value replaced, up to `same`: a node handed out before and live now
was live before, and holds what it held. -/
structure Carries (same : Value P → Value P → Prop) (m m' : Module P) : Prop where
  slots : m.nodes.slots.length ≤ m'.nodes.slots.length
  live : ∀ node : NodeId, node.index ≤ m.nodes.slots.length →
    m'.nodes.containsKey node = true → m.nodes.containsKey node = true
  held : ∀ node value, m.valueOf node = some value → m'.nodes.containsKey node = true →
    ∃ value', m'.valueOf node = some value' ∧ same value value'

variable {m : Module P} {node : NodeId}

theorem live_of_held {value : Value P}
    (held : m.valueOf node = some value) : m.nodes.containsKey node := by
  obtain ⟨entry, found, -⟩ := bind_eq_some_iff.1 held
  simp [containsKey, found]

namespace Carries

variable {same : Value P → Value P → Prop}

theorem refl (reflexive : ∀ value, same value value) (m : Module P) : Carries same m m :=
  ⟨Nat.le_refl _, fun _ _ lives => lives, fun _ value held _ => ⟨value, held, reflexive value⟩⟩

theorem trans (transitive : ∀ a b c, same a b → same b c → same a c) {first second third : Module P}
    (one : Carries same first second) (two : Carries same second third) :
    Carries same first third where
  slots := one.slots.trans two.slots
  live node out lives := one.live node out (two.live node (out.trans one.slots) lives)
  held node value held lives := by
    have alive := live_of_held held
    obtain ⟨entry, found⟩ := (containsKey_eq_true _ _).1 alive
    have out := (index_le_of_get _ _ _ found).trans one.slots
    obtain ⟨middle, held', like⟩ := one.held node value held (two.live node out lives)
    obtain ⟨last, held'', like'⟩ := two.held node middle held' lives
    exact ⟨last, held'', transitive _ _ _ like like'⟩

theorem moved {m m' : Module P} (carries : Carries Eq m m') : Carries Moved m m' where
  slots := carries.slots
  live := carries.live
  held node value held lives := by
    obtain ⟨value', held', rfl⟩ := carries.held node value held lives
    exact ⟨value, held', .refl value⟩

end Carries

/-- What holds of a module between two calls: the tables agree, and each class is of one mind. -/
structure Settled (m : Module P) : Prop extends Consistent m where
  decided : m.OneDecided

theorem Settled.start (registry : Registry P) : Settled ({ registry } : Module P) := by
  refine ⟨Consistent.start registry, fun root rest cls => ?_⟩
  have lives := cls.live root cls.root_mem
  have empty : ({} : SlotMap NodeTag (Node P)).get root = none := by
    obtain ⟨_ | index⟩ := root <;> simp [SlotMap.get]
  simp [links, empty] at lives

variable {m' : Module P}

section

variable (settled : Settled m)

include settled

theorem Settled.of_same (consistent : Consistent m') (nodes : Compresses m.nodes m'.nodes)
    (slots : m'.nodes.slots.length = m.nodes.slots.length) (same : SameValues m m') :
    Settled m' ∧ Carries Eq m m' := by
  refine ⟨⟨consistent, settled.decided.of_same settled.formed nodes same⟩, slots.ge, ?_, ?_⟩
  · intro node _ lives
    rw [← links_isSome, ← nodes.live, links_isSome]
    exact lives
  · intro node value held _
    exact ⟨value, (same node).trans held, rfl⟩

theorem Settled.of_keeps (keeps : Keeps m m') (same : SameValues m m') :
    Settled m' ∧ Carries Eq m m' :=
  settled.of_same (settled.toConsistent.of_keeps keeps) keeps.nodes keeps.slots same

theorem Settled.of_tables (nodes : m'.nodes = m.nodes) (functions : m'.functions = m.functions)
    (blocks : m'.blocks = m.blocks) : Settled m' ∧ Carries Eq m m' :=
  settled.of_keeps (KeepsSummaries.of_tables nodes functions blocks).toKeeps
    (of_nodes nodes)

theorem Settled.of_decides (decides : Decides m m') : Settled m' ∧ Carries Eq m m' := by
  refine ⟨⟨settled.toConsistent.of_frame decides.toFrame decides.formed, decides.decided⟩,
    decides.slots.ge, ?_, ?_⟩
  · intro node _ lives
    rw [← decides.live]
    exact lives
  · intro node value held _
    exact ⟨value, decides.held node value held, rfl⟩

end

theorem addNode_slots (m : Module P) (block : BlockId) (operation : Option (Operation P))
    (value : Option (Value P)) :
    (m.addNode block operation value).2.nodes.slots.length = m.nodes.slots.length + 1 ∧
      ∀ node, node ≠ m.nodes.nextKey →
        (m.addNode block operation value).2.valueOf node = m.valueOf node := by
  have made : (makeSet (m.nodes.insert
      { value, operation, depth := min m.stampDepth 65535, block }) m.nodes.nextKey).slots.length =
      m.nodes.slots.length + 1 := by
    simp [makeSet, modifyLinks, slots_length_modify, SlotMap.insert]
  have others : ∀ node, node ≠ m.nodes.nextKey → (makeSet (m.nodes.insert
      { value, operation, depth := min m.stampDepth 65535, block }) m.nodes.nextKey).get node =
      m.nodes.get node := by
    intro node apart
    simp only [makeSet, modifyLinks, get_modify, get_insert, if_neg apart]
  simp only [addNode]
  split
  · exact ⟨made, fun node apart => congrArg (Option.bind · Node.value) (others node apart)⟩
  · next value =>
    refine ⟨(observeClassLowType_keepsSummaries _ _ value).slots.trans made, fun node apart => ?_⟩
    rw [observeClassLowType_values]
    exact congrArg (Option.bind · Node.value) (others node apart)

section

variable (settled : Settled m) {block : BlockId} (live : m.blocks.containsKey block)

include settled live

theorem Settled.addNode (operation : Option (Operation P)) (value : Option (Value P)) :
    Settled (m.addNode block operation value).2 ∧ Carries Eq m (m.addNode block operation value).2 := by
  have adds := addNode_adds m block operation value
  obtain ⟨slots, older⟩ := addNode_slots m block operation value
  have fresh : ∀ node, m.nodes.containsKey node → node ≠ m.nodes.nextKey := by
    rintro node lives rfl
    rw [adds.fresh] at lives
    cases lives
  refine ⟨⟨adds.consistent settled.toConsistent live, ?_⟩, by omega, ?_, ?_⟩
  · intro root rest cls a left b right
    rcases adds.classes settled.formed cls with ⟨rfl, rfl⟩ | old
    · rw [mem_singleton.1 left, mem_singleton.1 right]
    · rw [older a (fresh a (live_of_class old left)), older b (fresh b (live_of_class old right))]
      exact settled.decided root rest old a left b right
  · intro node out lives
    rcases (adds.live node).1 lives with rfl | old
    · simp [nextKey] at out
    · exact old
  · intro node held_ held _
    exact ⟨held_, (older node (fresh node (live_of_held held))).trans held, rfl⟩

theorem Settled.dropBlock : Settled (m.dropBlock block) ∧ Carries Eq m (m.dropBlock block) := by
  obtain ⟨entry, found⟩ := (containsKey_eq_true _ _).1 live
  obtain ⟨dropped, -, -⟩ := settled.toConsistent.dropBlock found (fun _ => True) trivial
    (fun _ _ _ => trivial) (fun _ _ _ _ _ _ _ _ => trivial)
  obtain ⟨decided, slots, stays⟩ := dropBlock_values settled.toConsistent settled.decided found
  refine ⟨⟨dropped, decided⟩, slots.ge, fun node _ lives => (stays node lives).1, ?_⟩
  intro node value held lives
  exact ⟨value, (stays node lives).2.trans held, rfl⟩

end

theorem OneDecided.of_moved (decided : m.OneDecided) (formed : WellFormed m.nodes)
    (nodes : Compresses m.nodes m'.nodes) (moved : SlotsMoved m m') : m'.OneDecided := by
  have same : ∀ node, (m'.valueOf node).isSome = (m.valueOf node).isSome := by
    intro node
    have slot := moved node
    cases held : m.valueOf node <;> cases held' : m'.valueOf node <;> rw [held, held'] at slot <;>
      first | rfl | cases slot
  intro root rest cls a left b right
  rw [same, same]
  exact decided root rest ((nodes.classes_iff formed root rest).1 cls) a left b right

/-- A collect moves payloads, and releases nodes. -/
theorem Settled.garbageCollect (settled : Settled m) (blockRoot : NodeId) :
    Settled (m.garbageCollect blockRoot).2 ∧ Carries Moved m (m.garbageCollect blockRoot).2 := by
  have transitive : ∀ a b c : Value P, Moved a b → Moved b c → Moved a c :=
    fun a b c => Relation.EqvGen.trans a b c
  cases vacated : m.vacates blockRoot with
  | none =>
    have same : (m.garbageCollect blockRoot).2 = m := by simp [Module.garbageCollect, vacated]
    rw [same]
    exact ⟨settled, Carries.refl (fun value => .refl value) m⟩
  | some homes =>
    obtain ⟨home, up⟩ := homes
    obtain ⟨above, walk, live, shape⟩ := collects_of_vacates settled.toConsistent vacated
    have moved := collectWalk_moved m blockRoot home up
    have walked : Settled (m.collectWalk blockRoot home up).2 :=
      ⟨settled.toConsistent.of_relocates above walk,
        settled.decided.of_moved settled.formed walk.nodes moved⟩
    have carried : Carries Moved m (m.collectWalk blockRoot home up).2 := by
      refine ⟨walk.slots.ge, ?_, ?_⟩
      · intro node _ lives
        rw [← links_isSome, ← walk.nodes.live, links_isSome]
        exact lives
      · intro node value held _
        have slot := moved node
        rw [held] at slot
        cases held' : (m.collectWalk blockRoot home up).2.valueOf node with
        | none =>
          rw [held'] at slot
          cases slot
        | some value' =>
          rw [held'] at slot
          cases slot with
          | some like => exact ⟨value', rfl, like⟩
    obtain ⟨dropped, carries⟩ := walked.dropBlock live
    rw [shape]
    generalize (m.collectWalk blockRoot home up).2.dropBlock home = last at dropped carries ⊢
    have pruned : Settled last.pruneReleasedRecords ∧ Carries Eq last last.pruneReleasedRecords :=
      dropped.of_tables rfl rfl rfl
    exact ⟨pruned.1, (carried.trans transitive carries.moved).trans transitive pruned.2.moved⟩

theorem setNodeOwner_values (m : Module P) (node : NodeId) (owner : Option FunctionId) :
    SameValues m (m.setNodeOwner node owner) :=
  (modifyNode_values m node (fun entry => { entry with function := owner }) fun _ => rfl).trans
    (refreshClassSummary_values _ node)

theorem rehang_nodes {function : FunctionId} (made : m.rehang function = some m') :
    m'.nodes = m.nodes := by
  obtain ⟨scope, -, rfl⟩ := map_eq_some_iff.1 made
  rfl

theorem foldlM_rehang_nodes (functions : List FunctionId) : ∀ {m m' : Module P},
    functions.foldlM rehang m = some m' → m'.nodes = m.nodes := by
  induction functions with
  | nil =>
    intro m m' made
    cases made
    rfl
  | cons function functions ih =>
    intro m m' made
    obtain ⟨middle, first, rest⟩ := bind_eq_some_iff.1 made
    rw [ih rest, rehang_nodes first]

theorem setFunctionParent_values {function : FunctionId}
    {parent : Option FunctionId} (made : m.setFunctionParent function parent = some m') :
    m'.nodes.slots.length = m.nodes.slots.length ∧ SameValues m m' := by
  obtain ⟨first, hung, made⟩ := bind_eq_some_iff.1 made
  obtain ⟨second, moved, made⟩ := bind_eq_some_iff.1 made
  cases made
  have nodes : second.nodes = m.nodes := by
    rw [foldlM_rehang_nodes _ moved, rehang_nodes hung]
    rfl
  have slots : ∀ (nodes : List NodeId) (m : Module P),
      (nodes.foldl refreshClassSummary m).nodes.slots.length = m.nodes.slots.length := by
    intro nodes
    induction nodes with
    | nil => exact fun _ => rfl
    | cons node nodes ih =>
      intro m
      rw [foldl_cons, ih]
      simp only [refreshClassSummary]
      split <;> exact (slots_length_modify _ _ _).trans (find_frame m node).slots
  refine ⟨(slots _ second).trans (by rw [nodes]), (of_nodes nodes).trans ?_⟩
  exact foldl refreshClassSummary refreshClassSummary_values _ second

theorem unify_decides (formed : WellFormed m.nodes) (decided : m.OneDecided)
    {a b representative : NodeId} (ran : m.unify a b = some (representative, m')) :
    Decides m m' := by
  refine (decides_rule.unify (fun m node => ?_) ran).2 formed decided
  refine ⟨find_frame m node, fun formed decided => ?_⟩
  have keeps := find_keeps formed node
  exact ⟨keeps.toFrame, formed.compresses keeps.nodes,
    decided.of_same formed keeps.nodes (find_values m node),
    fun other value held => (find_values m node other).trans held⟩

theorem unifyRef_decides (formed : WellFormed m.nodes) (decided : m.OneDecided)
    {a b answer : AnyNodeId} (ran : m.unifyRef a b = some (answer, m')) : Decides m m' := by
  obtain ⟨left, -, ran⟩ := bind_eq_some_iff.1 ran
  obtain ⟨right, -, ran⟩ := bind_eq_some_iff.1 ran
  obtain ⟨⟨ok, middle⟩, inner, ran⟩ := bind_eq_some_iff.1 ran
  have step := (decides_rule.unifyInner _ _ _ _ _ _ _ inner).2 formed decided
  dsimp only at ran
  split at ran
  · cases ran
    exact step
  · cases ran
    exact step

theorem Settled.writeNodeValueIfAbsent (settled : Settled m)
    (live : m.nodes.containsKey node) (value : Option (Value P)) :
    Settled (m.writeNodeValueIfAbsent node value) ∧
      Carries Eq m (m.writeNodeValueIfAbsent node value) := by
  obtain ⟨root, rest, cls, member⟩ := settled.formed node (by rw [links_isSome, live])
  simp only [Module.writeNodeValueIfAbsent]
  split
  · exact ⟨settled, Carries.refl (fun _ => rfl) m⟩
  · next empty =>
    have empty : m.valueOf node = none := not_isSome_iff_eq_none.1 empty
    have kept := writeNodeValue_keepsSummaries settled.formed node value
    cases value with
    | some value =>
      exact settled.of_decides ⟨kept.toFrame, settled.formed.compresses kept.nodes,
        settled.decided.writeNodeValue settled.formed cls member value,
        writeNodeValue_leaves settled.decided cls member empty value⟩
    | none =>
      -- Nothing is written over nothing.
      refine settled.of_keeps kept.toKeeps fun other => ?_
      simp only [writeNodeValue, valueOf_setNodeValue]
      split
      · next here => rw [here.1, empty]
      · rfl

theorem Settled.writeNodeAnswer (settled : Settled m)
    {value : Value P} (ran : m.writeNodeAnswer node value = some m') :
    Settled m' ∧ Carries Eq m m' := by
  obtain ⟨held, found, ran⟩ := bind_eq_some_iff.1 ran
  obtain ⟨⟨agrees, middle⟩, inner, ran⟩ := bind_eq_some_iff.1 ran
  have transitive : ∀ a b c : Value P, a = b → b = c → a = c := fun _ _ _ => Eq.trans
  have compared := (decides_rule.unifyInner _ _ _ _ _ _ _ inner).2 settled.formed settled.decided
  obtain ⟨settled', carries⟩ := settled.of_decides compared
  have live : middle.nodes.containsKey node := by
    rw [compared.live]
    simp [containsKey, found]
  have wrote : Settled (if agrees then middle.writeNodeValueIfAbsent node (some value) else middle) ∧
      Carries Eq m (if agrees then middle.writeNodeValueIfAbsent node (some value) else middle) := by
    split
    · obtain ⟨settled'', carries'⟩ := settled'.writeNodeValueIfAbsent live (some value)
      exact ⟨settled'', carries.trans transitive carries'⟩
    · exact ⟨settled', carries⟩
  cases ran
  obtain ⟨stamped, carries'⟩ := wrote.1.of_keeps
    (modifyNode_keeps _ node (fun entry => { entry with runned := true }) (fun _ => rfl) (fun _ => rfl)
      fun _ => rfl)
    (modifyNode_values _ node (fun entry => { entry with runned := true }) fun _ => rfl)
  exact ⟨stamped, wrote.2.trans transitive carries'⟩

end Module

/-- Whether a call collects: the one call that moves payloads. -/
def Op.collects {P : Program} : Op P → Bool
  | .garbageCollect _ => true
  | _ => false

/-- Every call settles, and every call but a collect leaves each payload in place. -/
theorem Module.Settled.run {P : Program} {m m' : Module P} (settled : Settled m) (op : Op P)
    (tree : op.keepsTree m) (ran : op.run m = some m') :
    Settled m' ∧ Carries Moved m m' ∧ (op.collects = false → Carries Eq m m') := by
  have consistent' := (op.run_effect settled.toConsistent tree ran).1
  suffices exact : op.collects = false → Settled m' ∧ Carries Eq m m' by
    cases collects : op.collects with
    | false =>
      obtain ⟨settled', carries⟩ := exact collects
      exact ⟨settled', carries.moved, fun _ => carries⟩
    | true =>
      cases op <;> simp only [Op.collects, Bool.false_eq_true] at collects
      next blockRoot =>
        simp only [Op.run, ite_none_right_eq_some, some.injEq] at ran
        obtain ⟨-, rfl⟩ := ran
        obtain ⟨settled', carries⟩ := settled.garbageCollect blockRoot
        exact ⟨settled', carries, fun stays => by simp at stays⟩
  intro collects
  have of_nodes : m'.nodes = m.nodes → Settled m' ∧ Carries Eq m m' := fun nodes =>
    settled.of_same consistent' (nodes ▸ Compresses.refl _) (by rw [nodes]) (of_nodes nodes)
  cases op with
  | addBlock parent =>
    simp only [Op.run, ite_none_right_eq_some, some.injEq] at ran
    obtain ⟨-, rfl⟩ := ran
    exact of_nodes (by cases parent <;> rfl)
  | addNode block operation value =>
    simp only [Op.run, ite_none_right_eq_some, some.injEq] at ran
    obtain ⟨live, rfl⟩ := ran
    exact settled.addNode live operation value
  | beginFunction block parent =>
    simp only [Op.run, ite_none_right_eq_some, map_eq_some_iff] at ran
    obtain ⟨-, ⟨function, made⟩, began, rfl⟩ := ran
    obtain ⟨-, nodes, -⟩ := beginFunction_spec began
    exact of_nodes nodes
  | registerInFunction function node =>
    simp only [Op.run, ite_none_right_eq_some, some.injEq] at ran
    obtain ⟨⟨-, live⟩, rfl⟩ := ran
    have sets := setNodeOwner_sets settled.formed node (some function) live
    refine settled.of_same consistent' sets.nodes sets.slots ?_
    exact setNodeOwner_values m node _
  | setNodeOwner node owner =>
    simp only [Op.run, ite_none_right_eq_some, some.injEq] at ran
    obtain ⟨⟨live, -⟩, rfl⟩ := ran
    have sets := setNodeOwner_sets settled.formed node owner live
    refine settled.of_same consistent' sets.nodes sets.slots ?_
    exact setNodeOwner_values m node _
  | setFunctionParent function parent =>
    simp only [Op.run, ite_none_right_eq_some] at ran
    obtain ⟨⟨live, out⟩, made⟩ := ran
    obtain ⟨-, nodes, -⟩ := setFunctionParent_spec settled.toConsistent live (by
        rintro up rfl
        simpa [functionOut] using out) (by
        rintro up rfl root scope held held'
        exact scopeEncloses_eq_false (by simpa [Op.keepsTree] using tree) held held') made
    obtain ⟨slots, same⟩ := setFunctionParent_values made
    exact settled.of_same consistent' nodes slots same
  | addEquality a b =>
    simp only [Op.run, ite_none_right_eq_some, some.injEq] at ran
    obtain ⟨⟨left, right⟩, rfl⟩ := ran
    exact settled.of_decides
      ((decides_rule.equates m a b left right).2 settled.formed settled.decided)
  | unify a b =>
    obtain ⟨⟨representative, last⟩, unified, rfl⟩ := map_eq_some_iff.1 ran
    exact settled.of_decides (unify_decides settled.formed settled.decided unified)
  | garbageCollect blockRoot => cases collects
  | dropBlock block =>
    simp only [Op.run, ite_none_right_eq_some, some.injEq] at ran
    obtain ⟨live, rfl⟩ := ran
    exact settled.dropBlock live

end LichenVm
