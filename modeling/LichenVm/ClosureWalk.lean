import LichenVm.FreezeFrames

open List Option

namespace LichenVm

open DisjointSet SlotMap

variable {P : Program}

namespace Module

/-- The nodes a closure starts from: the roots, and the default attributes' items. -/
def closureRoots (m : Module P) (roots : List NodeId) : List NodeId :=
  roots ++ (match m.defaultAttributes with
    | some (.dynamic handle) => handle.items.filterMap fun item => item.node.dynamic?
    | _ => [])

/-- `other` is one edge of the closure from `node`: the node's own, the class of an undecided
node, or the template of the function it holds. -/
inductive ClosureEdge (m : Module P) (mode : FreezeMode) (node other : NodeId) : Prop
  | own (entry : Node P) (found : m.nodes.get node = some entry)
      (edge : other ∈ m.closureEdges mode node entry)
  | cls (entry : Node P) (found : m.nodes.get node = some entry) (undecided : entry.value = none)
      (member : other ∈ m.membersOf (m.classRoot node))
  | template (entry : Node P) (function : FunctionId) (template : Function)
      (found : m.nodes.get node = some entry)
      (held : m.heldTemplate entry.value = some (function, template))
      (listed : other ∈ template.listedNodes)

/-- The live nodes the closure of `roots` is made of. -/
inductive Contained (m : Module P) (mode : FreezeMode) (roots : List NodeId) : NodeId → Prop
  | root {node : NodeId} (mem : node ∈ m.closureRoots roots)
      (live : m.nodes.containsKey node = true) : Contained m mode roots node
  | edge {node other : NodeId} (inside : Contained m mode roots node)
      (follows : m.ClosureEdge mode node other) (live : m.nodes.containsKey other = true) :
      Contained m mode roots other

theorem Contained.live {m : Module P} {mode : FreezeMode} {roots : List NodeId} {node : NodeId}
    (inside : m.Contained mode roots node) : m.nodes.containsKey node := by
  cases inside with
  | root _ live => exact live
  | edge _ _ live => exact live

def ContainedFunction (m : Module P) (mode : FreezeMode) (roots : List NodeId)
    (function : FunctionId) : Prop :=
  ∃ node entry template, m.Contained mode roots node ∧ m.nodes.get node = some entry ∧
    m.heldTemplate entry.value = some (function, template)

theorem heldTemplate_get {m : Module P} {value : Option (Value P)} {function : FunctionId}
    {template : Function} (held : m.heldTemplate value = some (function, template)) :
    m.functions.get function = some template := by
  unfold heldTemplate at held
  split at held
  · obtain ⟨entry, found, same⟩ := map_eq_some_iff.1 held
    cases same
    exact found
  · cases held

/-- The closure walk under way. -/
structure ClosureWalk (m : Module P) (mode : FreezeMode) (roots : List NodeId)
    (nodes : List NodeId) (functions : List FunctionId) (decided stack : List NodeId) : Prop where
  distinct : nodes.Nodup
  sound : ∀ node, node ∈ nodes ∨ node ∈ stack → m.nodes.containsKey node = true →
    m.Contained mode roots node
  live : ∀ node ∈ nodes, m.nodes.containsKey node = true
  held : ∀ function ∈ functions, m.ContainedFunction mode roots function
  rooted : ∀ node ∈ m.closureRoots roots, m.nodes.containsKey node = true →
    node ∈ nodes ∨ node ∈ stack
  own : ∀ node ∈ nodes, ∀ entry, m.nodes.get node = some entry →
    ∀ other ∈ m.closureEdges mode node entry, m.nodes.containsKey other = true →
    other ∈ nodes ∨ other ∈ stack
  classes : ∀ root ∈ decided, ∀ other ∈ m.membersOf root, m.nodes.containsKey other = true →
    other ∈ nodes ∨ other ∈ stack
  undecided : ∀ node ∈ nodes, ∀ entry, m.nodes.get node = some entry → entry.value = none →
    m.classRoot node ∈ decided
  templates : ∀ function ∈ functions, ∀ template, m.functions.get function = some template →
    ∀ other ∈ template.listedNodes, m.nodes.containsKey other = true →
    other ∈ nodes ∨ other ∈ stack
  entered : ∀ node ∈ nodes, ∀ entry function template, m.nodes.get node = some entry →
    m.heldTemplate entry.value = some (function, template) → function ∈ functions

namespace ClosureWalk

variable {m : Module P} {mode : FreezeMode} {roots : List NodeId} {nodes : List NodeId}
  {functions : List FunctionId} {decided stack : List NodeId}

theorem start : ClosureWalk m mode roots [] [] [] (m.closureRoots roots).reverse where
  distinct := .nil
  sound node mem live := .root (by simpa using mem) live
  live := by simp
  held := by simp
  rooted node mem _ := .inr (by simpa using mem)
  own := by simp
  classes := by simp
  undecided := by simp
  templates := by simp
  entered := by simp

section

variable (walk : ClosureWalk m mode roots nodes functions decided stack)

include walk

theorem closed (spent : ∀ node ∈ stack, m.nodes.containsKey node → node ∈ nodes) :
    (∀ node, node ∈ nodes ↔ m.Contained mode roots node) ∧
      ∀ function, function ∈ functions ↔ m.ContainedFunction mode roots function := by
  have settle : ∀ node, node ∈ nodes ∨ node ∈ stack → m.nodes.containsKey node →
      node ∈ nodes := fun node mem live => mem.elim id fun mem => spent node mem live
  have complete : ∀ node, m.Contained mode roots node → node ∈ nodes := by
    intro node inside
    induction inside with
    | root mem live => exact settle _ (walk.rooted _ mem live) live
    | @edge node other _ follows live ih =>
      refine settle other ?_ live
      cases follows with
      | own entry found edge => exact walk.own node ih entry found other edge live
      | cls entry found undecided member =>
        exact walk.classes _ (walk.undecided node ih entry found undecided) other member live
      | template entry function template found held listed =>
        exact walk.templates function (walk.entered node ih entry function template found held)
          template (heldTemplate_get held) other listed live
  refine ⟨fun node => ⟨fun mem => walk.sound node (.inl mem) (walk.live node mem), complete node⟩,
    fun function => ⟨walk.held function, ?_⟩⟩
  rintro ⟨node, entry, template, inside, found, held⟩
  exact walk.entered node (complete node inside) entry function template found held

/-- Skipping what was entered, or is released, skips nothing. -/
theorem skip {rest : List NodeId}
    (same : stack.dropWhile (fun node => node ∈ nodes ∨ !m.nodes.containsKey node) = rest) :
    ClosureWalk m mode roots nodes functions decided rest := by
  have kept : ∀ node, m.nodes.containsKey node → node ∈ nodes ∨ node ∈ stack →
      node ∈ nodes ∨ node ∈ rest := by
    rintro node live (mem | mem)
    · exact .inl mem
    · rw [← takeWhile_append_dropWhile (p := fun node => decide
        (node ∈ nodes ∨ !m.nodes.containsKey node)) (l := stack), mem_append, same] at mem
      rcases mem with early | late
      · have skipped := all_eq_true.1 all_takeWhile node early
        rw [decide_eq_true_eq, live] at skipped
        exact .inl (skipped.resolve_right (by simp))
      · exact .inr late
  have inside : ∀ node ∈ rest, node ∈ stack := fun node mem =>
    (dropWhile_sublist _).subset (same ▸ mem)
  exact
    { walk with
      sound := fun node mem live => walk.sound node (mem.imp_right (inside node)) live
      rooted := fun node mem live => kept node live (walk.rooted node mem live)
      own := fun node mem entry found other edge live =>
        kept other live (walk.own node mem entry found other edge live)
      classes := fun root mem other member live => kept other live (walk.classes root mem other member live)
      templates := fun function mem template found other listed live =>
        kept other live (walk.templates function mem template found other listed live) }

end

/-- One node entered: its edges, and with it its class and its function's template unless they
were taken before. -/
theorem enter {node : NodeId} {rest : List NodeId} {entry : Node P}
    (walk : ClosureWalk m mode roots nodes functions decided (node :: rest))
    (fresh : node ∉ nodes) (found : m.nodes.get node = some entry)
    {functions' : List FunctionId} {decided' taken listed : List NodeId}
    (grows : ∀ function ∈ functions, function ∈ functions')
    (holds : ∀ function template, m.heldTemplate entry.value = some (function, template) →
      function ∈ functions')
    (new : ∀ function ∈ functions', function ∈ functions ∨
      ∃ template, m.heldTemplate entry.value = some (function, template) ∧
        ∀ other ∈ template.listedNodes, other ∈ listed)
    (follows : ∀ other ∈ listed, ∃ function template,
      m.heldTemplate entry.value = some (function, template) ∧ other ∈ template.listedNodes)
    (widens : ∀ root ∈ decided, root ∈ decided')
    (whole : entry.value = none → m.classRoot node ∈ decided')
    (settled : ∀ root ∈ decided', root ∈ decided ∨ ∀ other ∈ m.membersOf root, other ∈ taken)
    (members : ∀ other ∈ taken, entry.value = none ∧ other ∈ m.membersOf (m.classRoot node)) :
    ClosureWalk m mode roots (node :: nodes) functions' decided'
      ((taken ++ m.closureEdges mode node entry ++ listed).reverse ++ rest) := by
  have live : m.nodes.containsKey node := by simp [SlotMap.containsKey, found]
  have inside : m.Contained mode roots node := walk.sound node (.inr (by simp)) live
  have later : ∀ other, other ∈ nodes ∨ other ∈ node :: rest → other ∈ node :: nodes ∨
      other ∈ (taken ++ m.closureEdges mode node entry ++ listed).reverse ++ rest := by
    rintro other (mem | mem)
    · exact .inl (mem_cons_of_mem node mem)
    · rcases mem_cons.1 mem with rfl | mem
      · exact .inl (by simp)
      · exact .inr (by simp [mem])
  have sameEntry : ∀ other, m.nodes.get node = some other → other = entry := fun other held =>
    some.inj (held.symm.trans found)
  constructor
  · exact nodup_cons.2 ⟨fresh, walk.distinct⟩
  · intro other mem alive
    rcases mem with mem | mem
    · rcases mem_cons.1 mem with rfl | mem
      · exact inside
      · exact walk.sound other (.inl mem) alive
    · simp only [mem_append, mem_reverse] at mem
      rcases mem with ((mem | mem) | mem) | mem
      · obtain ⟨undecided, member⟩ := members other mem
        exact .edge inside (.cls entry found undecided member) alive
      · exact .edge inside (.own entry found mem) alive
      · obtain ⟨function, template, held, listed⟩ := follows other mem
        exact .edge inside (.template entry function template found held listed) alive
      · exact walk.sound other (.inr (by simp [mem])) alive
  · intro other mem
    rcases mem_cons.1 mem with rfl | mem
    · exact live
    · exact walk.live other mem
  · intro function mem
    rcases new function mem with mem | ⟨template, held, -⟩
    · exact walk.held function mem
    · exact ⟨node, entry, template, inside, found, held⟩
  · exact fun other mem alive => later other (walk.rooted other mem alive)
  · intro other mem entry' held edge isEdge alive
    rcases mem_cons.1 mem with rfl | mem
    · rw [sameEntry entry' held] at isEdge
      exact .inr (by simp [isEdge])
    · exact later edge (walk.own other mem entry' held edge isEdge alive)
  · intro root mem other member alive
    rcases settled root mem with mem | all
    · exact later other (walk.classes root mem other member alive)
    · exact .inr (by simp [all other member])
  · intro other mem entry' held undecided
    rcases mem_cons.1 mem with rfl | mem
    · exact whole (sameEntry entry' held ▸ undecided)
    · exact widens _ (walk.undecided other mem entry' held undecided)
  · intro function mem template held other isListed alive
    rcases new function mem with mem | ⟨template', names, all⟩
    · exact later other (walk.templates function mem template held other isListed alive)
    · have same : template' = template :=
        some.inj ((heldTemplate_get names).symm.trans held)
      exact .inr (by simp [all other (same ▸ isListed)])
  · intro other mem entry' function template held names
    rcases mem_cons.1 mem with rfl | mem
    · exact holds function template (sameEntry entry' held ▸ names)
    · exact grows function (walk.entered other mem entry' function template held names)

end ClosureWalk

/-- The walk enters exactly the closure, when the fuel covers the nodes left to enter. -/
theorem closureFrom_spec {m : Module P} {mode : FreezeMode} {roots : List NodeId} (fuel : Nat)
    {nodes : List NodeId} {functions : List FunctionId} {decided stack : List NodeId}
    (walk : ClosureWalk m mode roots nodes functions decided stack)
    (enough : m.nodes.slots.length < fuel + nodes.length) :
    (∀ node, node ∈ (m.closureFrom mode fuel nodes functions decided stack).1 ↔
        m.Contained mode roots node) ∧
      ∀ function, function ∈ (m.closureFrom mode fuel nodes functions decided stack).2 ↔
        m.ContainedFunction mode roots function := by
  induction fuel generalizing nodes functions decided stack with
  | zero =>
    have bounded := length_le_of_live m.nodes nodes walk.distinct walk.live
    omega
  | succ fuel ih =>
    unfold closureFrom
    split
    · next skipped =>
      exact (walk.skip skipped).closed (by simp)
    · next node rest skipped =>
      have walk := walk.skip skipped
      have first : ¬ (node ∈ nodes ∨ (!m.nodes.containsKey node)) := by
        have top := List.head?_dropWhile_not (fun node => decide
          (node ∈ nodes ∨ (!m.nodes.containsKey node))) stack
        rw [skipped] at top
        simpa using top
      obtain ⟨fresh, alive⟩ := not_or.1 first
      obtain ⟨entry, found⟩ := (containsKey_eq_true _ _).1 (by simpa using alive)
      rw [found]
      apply ih ?_ (by simp only [length_cons]; omega)
      apply walk.enter fresh found
      · exact fun function mem => mem_append_right _ mem
      · intro function template held
        by_cases known : function ∈ functions
        · exact mem_append_right _ known
        · simp [held, Option.filter, known]
      · intro function mem
        rcases mem_append.1 mem with mem | mem
        · rw [mem_toList, map_eq_some_iff] at mem
          obtain ⟨⟨function', template⟩, kept, rfl⟩ := mem
          have held := (filter_eq_some_iff.1 kept).1
          exact .inr ⟨template, held, fun other listed => by rw [kept]; exact listed⟩
        · exact .inl mem
      · intro other mem
        cases kept : Option.filter _ (m.heldTemplate entry.value) with
        | none => rw [kept] at mem; cases mem
        | some pair =>
          rw [kept] at mem
          exact ⟨pair.1, pair.2, (filter_eq_some_iff.1 kept).1, mem⟩
      · intro root mem
        split
        · exact mem_cons_of_mem _ mem
        · exact mem
      · intro undecided
        by_cases known : m.classRoot node ∈ decided
        · simp [undecided, known]
        · simp [undecided, known]
      · intro root mem
        split at mem
        · next whole =>
          rcases mem_cons.1 mem with rfl | mem
          · exact .inr fun other member => by rw [if_pos whole]; exact member
          · exact .inl mem
        · exact .inl mem
      · intro other mem
        split at mem
        · next whole => simp_all
        · cases mem

theorem closure_spec (m : Module P) (roots : List NodeId) (mode : FreezeMode) :
    (∀ node, node ∈ (m.closure roots mode).1 ↔ m.Contained mode roots node) ∧
      ∀ function, function ∈ (m.closure roots mode).2 ↔ m.ContainedFunction mode roots function := by
  obtain ⟨nodes, functions⟩ := closureFrom_spec (m.nodes.slots.length + 2)
    (ClosureWalk.start : ClosureWalk m mode roots [] [] [] (m.closureRoots roots).reverse) (by simp)
  constructor
  · intro node
    simp only [closure, mem_filter, decide_eq_true_eq, SlotMap.mem_keys]
    exact ⟨fun mem => (nodes node).1 mem.2, fun inside => ⟨inside.live, (nodes node).2 inside⟩⟩
  · intro function
    simp only [closure, mem_filter, decide_eq_true_eq, SlotMap.mem_keys]
    refine ⟨fun mem => (functions function).1 mem.2, fun inside => ⟨?_, (functions function).2 inside⟩⟩
    obtain ⟨node, entry, template, -, -, held⟩ := inside
    simp [SlotMap.containsKey, heldTemplate_get held]

end Module

end LichenVm
