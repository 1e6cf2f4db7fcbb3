import LichenVm.CollectFrames

open List Option

namespace LichenVm

open DisjointSet LexicalScope LinkedList SlotMap

namespace Module

variable {P : Program}

/-- The scopes of the live functions hang in one tree: each is its function's, each chain
follows the parent map `above`, and a function whose lexical parent lives hangs under it. -/
structure Nested (above : FunctionId → Option FunctionId) (m : Module P) : Prop where
  placed : ∀ function entry, m.functions.get function = some entry →
    ∃ scope, entry.scope = some scope ∧ scope.function = function ∧
      Linked above scope.chain ∧ scope.depth < 2 ^ LEVELS
  handedOut : ∀ function entry scope, m.functions.get function = some entry →
    entry.scope = some scope → ∀ other ∈ scope.chain, other.index ≤ m.functions.slots.length
  parentOut : ∀ function entry parent, m.functions.get function = some entry →
    entry.parent = some parent → parent.index ≤ m.functions.slots.length
  hung : ∀ function entry parent outer, m.functions.get function = some entry →
    entry.parent = some parent → m.functions.get parent = some outer →
    entry.scope = outer.scope.map (Scope.under function)

variable {above : FunctionId → Option FunctionId} {m : Module P}

theorem Nested.ownerScope (nested : Nested above m) (node : NodeId) :
    Linked above (path (m.ownerScope node)) ∧ (path (m.ownerScope node)).length ≤ 2 ^ LEVELS := by
  rw [ownerScope_eq]
  cases owner : m.ownerOf node with
  | none => simp [path, Linked]
  | some function =>
    simp only [bind_some, functionScope]
    cases found : m.functions.get function with
    | none => simp [path, Linked]
    | some entry =>
      obtain ⟨scope, held, -, linked, shallow⟩ := nested.placed function entry found
      simp only [bind_some, held, path, scope.length_chain]
      exact ⟨linked, shallow⟩

variable {function : FunctionId}

theorem Nested.standing (nested : Nested above m) {scope : Scope FunctionId}
    (held : m.functionScope function = some scope) : scope.function = function ∧
      Linked above scope.chain ∧ scope.depth < 2 ^ LEVELS := by
  obtain ⟨entry, found, held⟩ := bind_eq_some_iff.1 held
  obtain ⟨scope', held', named, linked, shallow⟩ := nested.placed function entry found
  cases held.symm.trans held'
  exact ⟨named, linked, shallow⟩

variable {m m' : Module P}

/-- Functions that keep their scopes and parents, or go, stay nested. -/
theorem Nested.of_functions (nested : Nested above m)
    (slots : m'.functions.slots.length = m.functions.slots.length)
    (functions : ∀ function entry', m'.functions.get function = some entry' →
      ∃ entry, m.functions.get function = some entry ∧ entry'.scope = entry.scope ∧
        entry'.parent = entry.parent) : Nested above m' := by
  refine ⟨?_, ?_, ?_, ?_⟩
  · intro function entry' found
    obtain ⟨entry, before, scope, -⟩ := functions function entry' found
    rw [scope]
    exact nested.placed function entry before
  · intro function entry' scope found held
    obtain ⟨entry, before, same, -⟩ := functions function entry' found
    rw [slots]
    exact nested.handedOut function entry scope before (same ▸ held)
  · intro function entry' parent found hangs
    obtain ⟨entry, before, -, same⟩ := functions function entry' found
    rw [slots]
    exact nested.parentOut function entry parent before (same ▸ hangs)
  · intro function entry' parent outer' found hangs found'
    obtain ⟨entry, before, scope, same⟩ := functions function entry' found
    obtain ⟨outer, above', scope', -⟩ := functions parent outer' found'
    rw [scope, scope']
    exact nested.hung function entry parent outer before (same ▸ hangs) above'

/-- The classes partition the nodes, the functions' scopes hang in one tree, and every owner
was handed out. -/
structure Coherent (m : Module P) : Prop where
  formed : WellFormed m.nodes
  nested : ∃ above, Nested above m
  owners : ∀ node function, m.ownerOf node = some function →
    function.index ≤ m.functions.slots.length

/-- What holds of a module between two calls. -/
structure Consistent (m : Module P) : Prop extends Coherent m where
  tree : BlockTree (fun _ => False) m

theorem Consistent.start (registry : Registry P) : Consistent ({ registry } : Module P) := by
  have empty : ∀ {τ V : Type} (key : SlotKey τ), ({} : SlotMap τ V).get key = none := by
    rintro τ V ⟨_ | index⟩ <;> simp [SlotMap.get]
  refine ⟨⟨?_, ⟨fun _ => none, ⟨?_, ?_, ?_, ?_⟩⟩, ?_⟩, ⟨?_, ?_, ?_, ?_⟩⟩
  · intro key live
    simp [links, empty] at live
  · simp [empty]
  · simp [empty]
  · simp [empty]
  · simp [empty]
  · simp [ownerOf, empty]
  · simp [homeOf, empty]
  · simp [empty]
  · simp [empty]
  · simp [empty]

theorem Coherent.of_frame (coherent : Coherent m) (frame : Frame m m')
    (formed : WellFormed m'.nodes) : Coherent m' where
  formed := formed
  nested := by
    obtain ⟨above, nested⟩ := coherent.nested
    refine ⟨above, nested.of_functions (by rw [frame.functions]) fun function entry found => ?_⟩
    rw [frame.functions] at found
    exact ⟨entry, found, rfl, rfl⟩
  owners node function owner := by
    rw [frame.owner] at owner
    rw [frame.functions]
    exact coherent.owners node function owner

theorem Consistent.of_frame (consistent : Consistent m) (frame : Frame m m')
    (formed : WellFormed m'.nodes) : Consistent m' where
  toCoherent := consistent.toCoherent.of_frame frame formed
  tree := by
    obtain ⟨homed, parent, child, handedOut⟩ := consistent.tree
    rw [← frame.blocks] at homed parent child handedOut
    refine ⟨fun node block home => homed node block ?_, parent, child, handedOut⟩
    rw [← frame.home]
    exact home

theorem Consistent.of_keeps (consistent : Consistent m) (keeps : Keeps m m') : Consistent m' :=
  consistent.of_frame keeps.toFrame (consistent.formed.compresses keeps.nodes)

theorem Consistent.of_relocates {target : BlockId} (consistent : Consistent m)
    (live : m.blocks.containsKey target) (relocates : Relocates target m m') :
    Consistent m' where
  formed := consistent.formed.compresses relocates.nodes
  tree := relocates.tree live consistent.tree
  nested := by
    obtain ⟨above, nested⟩ := consistent.nested
    refine ⟨above, nested.of_functions relocates.functionSlots fun function entry found => ?_⟩
    obtain ⟨home, same⟩ := relocates.function function
    rw [same] at found
    obtain ⟨before, found', rfl⟩ := map_eq_some_iff.1 found
    exact ⟨before, found', rfl, rfl⟩
  owners node function owner := by
    rw [relocates.owner] at owner
    rw [relocates.functionSlots]
    exact consistent.owners node function owner

theorem Consistent.of_records (consistent : Consistent m) (nodes : m'.nodes = m.nodes)
    (functions : m'.functions = m.functions) (blocks : m'.blocks = m.blocks) : Consistent m' :=
  consistent.of_keeps
    ⟨⟨⟨by rw [nodes], fun _ => by rw [nodes], fun _ => by simp only [homeOf, nodes],
      fun _ => by simp only [ownerOf, nodes]⟩, functions, blocks⟩,
      by rw [nodes]; exact Compresses.refl _⟩

theorem Coherent.openBlock (coherent : Coherent m) (block : BlockId) :
    Coherent (m.openBlock block) := by
  obtain ⟨above, nested⟩ := coherent.nested
  exact ⟨coherent.formed, ⟨above, nested.of_functions rfl fun _ entry found =>
    ⟨entry, found, rfl, rfl⟩⟩, coherent.owners⟩

variable {block : BlockId}

theorem Coherent.releases (coherent : Coherent m) (releases : Releases block m m') :
    Coherent m' where
  formed := releases.formed
  nested := by
    obtain ⟨above, nested⟩ := coherent.nested
    refine ⟨above, nested.of_functions releases.functionSlots fun function entry found => ?_⟩
    rcases releases.function function with same | gone
    · exact ⟨entry, by rw [← same, found], rfl, rfl⟩
    · rw [gone] at found
      cases found
  owners node function owner := by
    have lives : m'.nodes.containsKey node := by
      obtain ⟨entry, found, -⟩ := bind_eq_some_iff.1 owner
      simp [found]
    rw [releases.owner node lives] at owner
    rw [releases.functionSlots]
    exact coherent.owners node function owner

/-- The rule of a drop between two calls: an invariant that taking children and releasing a
block of the dropped subtree keep holds afterwards, beside consistency. -/
theorem Consistent.dropBlock (consistent : Consistent m) {entry : Block}
    (found : m.blocks.get block = some entry) (Inv : Module P → Prop) (inv : Inv m)
    (opens : ∀ now home, Inv now → Inv (now.openBlock home))
    (releases : ∀ now next home, m.descendsFrom home block → Coherent now → Coherent next →
      Inv now → Releases home now next → Inv next) :
    Consistent (m.dropBlock block) ∧ Inv (m.dropBlock block) ∧
      Dropped (fun _ => False) block m (m.dropBlock block) := by
  have rule : DropRule m (fun home => m.descendsFrom home block)
      (fun now => Coherent now ∧ Inv now) := by
    refine ⟨fun now held => held.1.formed, ?_, ?_, ?_⟩
    · intro home inner up found' hangs descends
      exact (descendsFrom_iff consistent.tree found').2 (Or.inr ⟨up, hangs, descends⟩)
    · intro now home _ held
      exact ⟨held.1.openBlock home, opens now home held.2⟩
    · intro now home inner descends held found' listed
      obtain ⟨released, -, -⟩ := releaseBlock_releases held.1.formed found' listed
      have coherent := held.1.releases released
      exact ⟨coherent, releases now _ home descends held.1 coherent held.2 released⟩
  obtain ⟨⟨coherent, inv'⟩, dropped⟩ := rule.dropBlock ⟨consistent.toCoherent, inv⟩ consistent.tree
    (descendsFrom_self m block) found
  exact ⟨⟨coherent, dropped.tree⟩, inv', dropped⟩

theorem addBlock_get (m : Module P) (parent : Option BlockId) (block : BlockId) :
    (m.addBlock parent).2.blocks.get block =
      if parent = some block ∧ block ≠ m.blocks.nextKey then
        (m.blocks.get block).map fun entry =>
          { entry with children := entry.children ++ [m.blocks.nextKey] }
      else if block = m.blocks.nextKey then
        some { parent, children := if parent = some block then [block] else [] }
      else m.blocks.get block := by
  cases parent with
  | none => simp [addBlock, get_insert]
  | some up =>
    simp only [addBlock, modifyBlock, get_modify, get_insert, some.injEq]
    by_cases same : block = up
    · subst same
      by_cases fresh : block = m.blocks.nextKey <;> simp [fresh]
    · simp [same, Ne.symm same]

theorem Consistent.addBlock (consistent : Consistent m) (parent : Option BlockId)
    (live : ∀ up, parent = some up → m.blocks.containsKey up) :
    Consistent (m.addBlock parent).2 := by
  have nodes : (m.addBlock parent).2.nodes = m.nodes := by cases parent <;> rfl
  have functions : (m.addBlock parent).2.functions = m.functions := by cases parent <;> rfl
  have slots : (m.addBlock parent).2.blocks.slots.length = m.blocks.slots.length + 1 := by
    cases parent <;> simp [Module.addBlock, modifyBlock, SlotMap.insert]
  have tree := consistent.tree
  have older : ∀ block entry, m.blocks.get block = some entry → block ≠ m.blocks.nextKey := by
    rintro block entry found rfl
    rw [get_nextKey] at found
    cases found
  have not_fresh : ∀ up, parent = some up → up ≠ m.blocks.nextKey := by
    intro up hangs
    obtain ⟨entry, found⟩ := (containsKey_eq_true _ _).1 (live up hangs)
    exact older up entry found
  have puts : ∀ block before, m.blocks.get block = some before → ∃ entry,
      (m.addBlock parent).2.blocks.get block = some entry ∧ entry.parent = before.parent ∧
      entry.nodes = before.nodes ∧ (∀ child ∈ before.children, child ∈ entry.children) ∧
      (parent = some block → m.blocks.nextKey ∈ entry.children) := by
    intro block before found
    rw [addBlock_get]
    by_cases hangs : parent = some block
    · simp [hangs, older block before found, found]
      exact fun child listed => Or.inl listed
    · simp [hangs, older block before found, found]
  have gets : ∀ block entry, (m.addBlock parent).2.blocks.get block = some entry →
      (block = m.blocks.nextKey ∧ entry.parent = parent ∧ entry.children = []) ∨
      ∃ before, m.blocks.get block = some before ∧ entry.parent = before.parent ∧
        ∀ child ∈ entry.children, child ∈ before.children ∨
          (child = m.blocks.nextKey ∧ parent = some block) := by
    intro block entry found
    rw [addBlock_get] at found
    split at found
    · next above =>
      obtain ⟨before, found', rfl⟩ := map_eq_some_iff.1 found
      refine Or.inr ⟨before, found', rfl, fun child listed => ?_⟩
      simpa [above.1] using listed
    · split at found
      · next same =>
        cases found
        refine Or.inl ⟨same, rfl, ?_⟩
        rw [if_neg]
        exact fun hangs => not_fresh block hangs same
      · exact Or.inr ⟨entry, found, rfl, fun child listed => Or.inl listed⟩
  refine ⟨⟨?_, ?_, ?_⟩, ⟨?_, ?_, ?_, ?_⟩⟩
  · rw [nodes]
    exact consistent.formed
  · obtain ⟨above, nested⟩ := consistent.nested
    refine ⟨above, nested.of_functions (by rw [functions]) fun function entry found => ?_⟩
    rw [functions] at found
    exact ⟨entry, found, rfl, rfl⟩
  · intro node function owner
    simp only [ownerOf, nodes] at owner
    rw [functions]
    exact consistent.owners node function owner
  · intro node home homed
    simp only [homeOf, nodes] at homed
    obtain ⟨before, found, listed⟩ := tree.homed node home homed
    obtain ⟨entry, found', -, same, -⟩ := puts home before found
    exact ⟨entry, found', same ▸ listed⟩
  · intro block entry up found hangs
    rcases gets block entry found with ⟨rfl, same, -⟩ | ⟨before, found', same, -⟩
    · rw [same] at hangs
      obtain ⟨outer, above⟩ := (containsKey_eq_true _ _).1 (live up hangs)
      obtain ⟨entry', found', -, -, -, listed⟩ := puts up outer above
      refine ⟨entry', found', ?_, Or.inr (listed hangs)⟩
      have bounded := index_le_of_get _ _ _ above
      simp only [nextKey]
      omega
    · obtain ⟨outer, above, before', listed⟩ := tree.parent block before up found' (same ▸ hangs)
      obtain ⟨entry', found'', -, -, kept, -⟩ := puts up outer above
      exact ⟨entry', found'', before', listed.imp_right (kept block)⟩
  · intro block entry child inner found listed found'
    rcases gets block entry found with ⟨-, -, none⟩ | ⟨before, above, -, children⟩
    · rw [none] at listed
      cases listed
    · rcases gets child inner found' with ⟨rfl, same, -⟩ | ⟨inner', below, same, -⟩
      · rcases children _ listed with old | ⟨-, hangs⟩
        · have bounded := tree.handedOut block before _ above old
          simp only [nextKey] at bounded
          omega
        · rw [same, hangs]
      · rw [same]
        rcases children child listed with old | ⟨rfl, -⟩
        · exact tree.child block before child inner' above old below
        · exact absurd rfl (older _ _ below)
  · intro block entry child found listed
    rw [slots]
    rcases gets block entry found with ⟨-, -, none⟩ | ⟨before, above, -, children⟩
    · rw [none] at listed
      cases listed
    · rcases children child listed with old | ⟨rfl, -⟩
      · have := tree.handedOut block before child above old
        omega
      · simp [nextKey]

/-- What making a node in `block` does: a class of its own, owned by no function. -/
structure AddsNode (block : BlockId) (node : NodeId) (m m' : Module P) : Prop where
  fresh : m.nodes.containsKey node = false
  own : IsClass m'.nodes node []
  kept : ∀ root rest, IsClass m.nodes root rest → IsClass m'.nodes root rest
  live : ∀ other, m'.nodes.containsKey other = true ↔
    other = node ∨ m.nodes.containsKey other = true
  home : ∀ other, m'.homeOf other = if other = node then some block else m.homeOf other
  owner : ∀ other, m'.ownerOf other = if other = node then none else m.ownerOf other
  summary : ∀ other, m'.summaryOf other = if other = node then none else m.summaryOf other
  tail : ∀ other, other ≠ node → tailOf m'.nodes other = tailOf m.nodes other
  functions : m'.functions = m.functions
  blocks : m'.blocks = m.blocks.modify block fun entry => { entry with nodes := entry.nodes ++ [node] }

theorem AddsNode.andThen {node : NodeId} {m middle m' : Module P}
    (made : AddsNode block node m middle) (keeps : KeepsSummaries middle m') :
    AddsNode block node m m' where
  fresh := made.fresh
  own := keeps.nodes.classes _ _ made.own
  kept root rest cls := keeps.nodes.classes _ _ (made.kept root rest cls)
  live other := by rw [keeps.live]; exact made.live other
  home other := (keeps.home other).trans (made.home other)
  owner other := (keeps.owner other).trans (made.owner other)
  summary other := (keeps.summary other).trans (made.summary other)
  tail other apart := (keeps.nodes.tail other).trans (made.tail other apart)
  functions := keeps.functions.trans made.functions
  blocks := keeps.blocks.trans made.blocks

theorem addNode_adds (m : Module P) (block : BlockId) (operation : Option (Operation P))
    (value : Option (Value P)) :
    AddsNode block m.nodes.nextKey m (m.addNode block operation value).2 := by
  -- The state before the low type is observed.
  have made : AddsNode block m.nodes.nextKey m
      (({ m with nodes := makeSet (m.nodes.insert
        { value, operation, depth := min m.stampDepth 65535, block }) m.nodes.nextKey }).modifyBlock
          block fun entry => { entry with nodes := entry.nodes ++ [m.nodes.nextKey] }) := by
    have gets : ∀ other, (makeSet (m.nodes.insert
        { value, operation, depth := min m.stampDepth 65535, block }) m.nodes.nextKey).get other =
        if other = m.nodes.nextKey then some
          { value, operation, depth := min m.stampDepth 65535, block,
            equality := { parent := none, next := none, tail := some m.nodes.nextKey, size := 1 } }
        else m.nodes.get other := by
      intro other
      simp only [makeSet, modifyLinks, get_modify, get_insert]
      split <;> rfl
    have others : ∀ other, other ≠ m.nodes.nextKey → links (makeSet (m.nodes.insert
        { value, operation, depth := min m.stampDepth 65535, block }) m.nodes.nextKey) other =
        links m.nodes other := by
      intro other apart
      simp only [links, gets, if_neg apart]
    refine
      { fresh := by simp [containsKey, get_nextKey]
        own := makeSet_isClass _ _ (by simp [links])
        kept := ?_
        live := ?_
        home := ?_
        owner := ?_
        summary := ?_
        tail := ?_
        functions := rfl
        blocks := rfl }
    · refine fun root rest cls => cls.congr fun other member => others other ?_
      rintro rfl
      have lives := cls.live _ member
      simp [links, get_nextKey] at lives
    · intro other
      simp only [modifyBlock, containsKey, gets]
      split
      · next same => simp [same]
      · next apart => simp [apart]
    · intro other
      simp only [homeOf, modifyBlock, gets]
      split <;> rfl
    · intro other
      simp only [ownerOf, modifyBlock, gets]
      split <;> rfl
    · intro other
      simp only [summaryOf, modifyBlock, gets]
      split <;> rfl
    · intro other apart
      simp only [tailOf, modifyBlock, others other apart]
  simp only [addNode]
  split
  · exact made
  · exact made.andThen (observeClassLowType_keepsSummaries _ _ _)

namespace AddsNode

variable {m m' : Module P} {block : BlockId} {node : NodeId}

theorem classes (formed : WellFormed m.nodes) (adds : AddsNode block node m m') {root : NodeId}
    {rest : List NodeId} (cls : IsClass m'.nodes root rest) :
    (root = node ∧ rest = []) ∨ IsClass m.nodes root rest := by
  have lives := cls.live root cls.root_mem
  rw [links_isSome, adds.live] at lives
  rcases lives with rfl | old
  · exact Or.inl (cls.unique adds.own cls.root_mem mem_cons_self)
  · obtain ⟨root', rest', cls', member⟩ := formed root (by rw [links_isSome, old])
    obtain ⟨rfl, rfl⟩ := cls.unique (adds.kept root' rest' cls') cls.root_mem member
    exact Or.inr cls'

theorem consistent (consistent : Consistent m) (live : m.blocks.containsKey block)
    (adds : AddsNode block node m m') : Consistent m' := by
  refine ⟨⟨?_, ?_, ?_⟩, ?_⟩
  · intro key lives
    rw [links_isSome, adds.live] at lives
    rcases lives with rfl | old
    · exact ⟨key, [], adds.own, mem_cons_self⟩
    · obtain ⟨root, rest, cls, member⟩ := consistent.formed key (by rw [links_isSome, old])
      exact ⟨root, rest, adds.kept root rest cls, member⟩
  · obtain ⟨above, nested⟩ := consistent.nested
    refine ⟨above, nested.of_functions (by rw [adds.functions]) fun function entry found => ?_⟩
    rw [adds.functions] at found
    exact ⟨entry, found, rfl, rfl⟩
  · intro other function owner
    rw [adds.owner] at owner
    rw [adds.functions]
    split at owner
    · cases owner
    · exact consistent.owners other function owner
  · -- The tree is the old one; the new node is listed by its home.
    have pushed := consistent.tree.modifyBlock block
      (fun entry => { entry with nodes := entry.nodes ++ [node] }) (fun _ => rfl) (fun _ => rfl)
      (fun _ _ listed => mem_append_left _ listed)
    obtain ⟨homed, parent, child, handedOut⟩ := pushed
    simp only [modifyBlock, ← adds.blocks] at homed parent child handedOut
    refine ⟨fun other home housed => ?_, parent, child, handedOut⟩
    rw [adds.home] at housed
    split at housed
    · next same =>
      cases housed
      obtain ⟨entry, found⟩ := (containsKey_eq_true _ _).1 live
      rw [adds.blocks, get_modify_self, found]
      exact ⟨_, rfl, by simp [same]⟩
    · exact homed other home housed

end AddsNode

theorem child_linked {parent : Option (Scope FunctionId)} {scope : Scope FunctionId}
    (made : Scope.child function parent = some scope) (linked : Linked above (path parent))
    (seam : above function = (path parent).head?) :
    scope.function = function ∧ Linked above scope.chain ∧ scope.depth < 2 ^ LEVELS ∧
      scope.chain = function :: path parent ∧
      ∀ outer, parent = some outer → scope = .under function outer := by
  cases parent with
  | none =>
    cases made
    exact ⟨rfl, ⟨seam, trivial⟩, by simp [Scope.depth, LEVELS], rfl, by simp⟩
  | some outer =>
    simp only [Scope.child] at made
    split at made
    · next fits =>
      cases made
      refine ⟨rfl, ⟨seam, linked⟩, fits, rfl, ?_⟩
      exact fun _ same => by rw [some.inj same]
    · cases made

/-- What beginning a function does: a scope of its own under its parent's, and no node owned. -/
theorem beginFunction_spec {parent : Option FunctionId}
    (made : m.beginFunction block parent = some (function, m')) :
    function = m.functions.nextKey ∧ m'.nodes = m.nodes ∧
      m'.blocks = m.blocks.modify block (fun entry =>
        { entry with functions := entry.functions ++ [function] }) ∧
      m'.functions.slots.length = m.functions.slots.length + 1 ∧
      ∃ scope, Scope.child function (parent.bind m.functionScope) = some scope ∧
        ∀ other, m'.functions.get other =
          if other = function then some { parent, block, scope := some scope }
          else m.functions.get other := by
  have under : parent.bind ({ m with functions := m.functions.insert { parent, block } } :
      Module P).functionScope = parent.bind m.functionScope := by
    cases parent with
    | none => rfl
    | some up =>
      simp only [bind_some, functionScope, get_insert]
      split
      · next same => rw [same, get_nextKey]; rfl
      · rfl
  simp only [beginFunction, under, map_eq_some_iff, Prod.mk.injEq] at made
  obtain ⟨scope, child, rfl, rfl⟩ := made
  refine ⟨rfl, rfl, rfl, by simp [modifyFunction, modifyBlock, SlotMap.insert], scope, child, ?_⟩
  intro other
  simp only [modifyBlock, modifyFunction, get_modify, get_insert]
  split <;> rfl

theorem Consistent.beginFunction (consistent : Consistent m) {parent : Option FunctionId}
    (made : m.beginFunction block parent = some (function, m'))
    (out : ∀ up, parent = some up → up.index ≤ m.functions.slots.length) :
    Consistent m' ∧ ∀ node, m'.ownerScope node = m.ownerScope node := by
  obtain ⟨rfl, nodes, blocks, slots, scope, child, gets⟩ := beginFunction_spec made
  obtain ⟨above, nested⟩ := consistent.nested
  have older : ∀ other : FunctionId, other.index ≤ m.functions.slots.length →
      m'.functions.get other = m.functions.get other := by
    intro other within
    rw [gets, if_neg]
    rintro rfl
    simp [nextKey] at within
  have owners : ∀ node, m'.ownerScope node = m.ownerScope node := by
    intro node
    have same : m'.ownerOf node = m.ownerOf node := by simp only [ownerOf, nodes]
    rw [ownerScope_eq, ownerScope_eq, same]
    cases owner : m.ownerOf node with
    | none => rfl
    | some function =>
      simp only [bind_some, functionScope, older function (consistent.owners node function owner)]
  -- The parent map gains the new function's edge; no older chain names it.
  let above' : FunctionId → Option FunctionId := fun other =>
    if other = m.functions.nextKey then (path (parent.bind m.functionScope)).head? else above other
  have away : ∀ chain : List FunctionId,
      (∀ other ∈ chain, other.index ≤ m.functions.slots.length) → Linked above chain →
      Linked above' chain := by
    refine fun chain within linked => linked.congr fun other member => if_neg ?_
    rintro rfl
    have := within _ member
    simp [nextKey] at this
  have parent_scope : ∀ outer, parent.bind m.functionScope = some outer →
      ∃ up entry, parent = some up ∧ m.functions.get up = some entry ∧ entry.scope = some outer := by
    intro outer held
    obtain ⟨up, hangs, held⟩ := bind_eq_some_iff.1 held
    obtain ⟨entry, found, held⟩ := bind_eq_some_iff.1 held
    exact ⟨up, entry, hangs, found, held⟩
  have parent_chain : ∀ other ∈ path (parent.bind m.functionScope),
      other.index ≤ m.functions.slots.length := by
    intro other member
    cases held : parent.bind m.functionScope with
    | none => simp [held, path] at member
    | some outer =>
      obtain ⟨up, entry, -, found, holds⟩ := parent_scope outer held
      rw [held] at member
      exact nested.handedOut up entry outer found holds other member
  have parent_linked : Linked above (path (parent.bind m.functionScope)) := by
    cases held : parent.bind m.functionScope with
    | none => trivial
    | some outer =>
      obtain ⟨up, entry, -, found, holds⟩ := parent_scope outer held
      obtain ⟨scope', holds', -, linked, -⟩ := nested.placed up entry found
      cases holds.symm.trans holds'
      exact linked
  obtain ⟨named, linked, shallow, chain, under⟩ := child_linked child
    (away _ parent_chain parent_linked) (if_pos rfl)
  have entries : ∀ other entry, m'.functions.get other = some entry →
      (other = m.functions.nextKey ∧ entry = { parent, block, scope := some scope }) ∨
      m.functions.get other = some entry := by
    intro other entry found
    rw [gets] at found
    split at found
    · next same => exact Or.inl ⟨same, (some.inj found).symm⟩
    · exact Or.inr found
  refine ⟨⟨⟨?_, ⟨above', ⟨?_, ?_, ?_, ?_⟩⟩, ?_⟩, ?_⟩, owners⟩
  · rw [nodes]
    exact consistent.formed
  · intro other entry found
    rcases entries other entry found with ⟨rfl, rfl⟩ | old
    · exact ⟨scope, rfl, named, linked, shallow⟩
    · obtain ⟨scope', held, named', linked', shallow'⟩ := nested.placed other entry old
      exact ⟨scope', held, named',
        away _ (nested.handedOut other entry scope' old held) linked', shallow'⟩
  · intro other entry scope' found held member inside
    rw [slots]
    rcases entries other entry found with ⟨rfl, rfl⟩ | old
    · cases held
      rw [chain] at inside
      rcases mem_cons.1 inside with rfl | inside
      · simp [nextKey]
      · have := parent_chain member inside
        omega
    · have := nested.handedOut other entry scope' old held member inside
      omega
  · intro other entry up found hangs
    rcases entries other entry found with ⟨rfl, rfl⟩ | old
    · have := out up hangs
      omega
    · have := nested.parentOut other entry up old hangs
      omega
  · intro other entry up outer found hangs found'
    rcases entries other entry found with ⟨rfl, rfl⟩ | old
    · rw [older up (out up hangs)] at found'
      obtain ⟨scope', held, -⟩ := nested.placed up outer found'
      have bound : parent.bind m.functionScope = some scope' := by
        rw [show parent = some up from hangs]
        simp [functionScope, found', held]
      rw [held, under scope' bound]
      rfl
    · rw [older up (nested.parentOut other entry up old hangs)] at found'
      exact nested.hung other entry up outer old hangs found'
  · intro node function owner
    simp only [ownerOf, nodes] at owner
    have := consistent.owners node function owner
    omega
  · have tree := consistent.tree.modifyBlock block (fun entry =>
      { entry with functions := entry.functions ++ [m.functions.nextKey] }) (fun _ => rfl)
      (fun _ => rfl) (fun _ _ listed => listed)
    obtain ⟨homed, parent, child, handedOut⟩ := tree
    simp only [modifyBlock, ← blocks] at homed parent child handedOut
    refine ⟨fun node home housed => homed node home ?_, parent, child, handedOut⟩
    simpa only [homeOf, nodes] using housed

/-- What writing an owner does: the node's class is folded again, and the others keep their
summaries. -/
structure SetsOwner (node : NodeId) (owner : Option FunctionId) (m m' : Module P) : Prop where
  slots : m'.nodes.slots.length = m.nodes.slots.length
  nodes : Compresses m.nodes m'.nodes
  home : ∀ other, m'.homeOf other = m.homeOf other
  owner : ∀ other, m'.ownerOf other = if other = node then owner else m.ownerOf other
  functions : m'.functions = m.functions
  blocks : m'.blocks = m.blocks
  classes : ∀ root rest, IsClass m.nodes root rest → (node ∈ root :: rest → m'.Folded root rest) ∧
    (node ∉ root :: rest → m'.summaryOf root = m.summaryOf root)

theorem setNodeOwner_sets (formed : WellFormed m.nodes) (node : NodeId)
    (owner : Option FunctionId) (live : m.nodes.containsKey node) :
    SetsOwner node owner m (m.setNodeOwner node owner) := by
  obtain ⟨entry, found⟩ := (containsKey_eq_true _ _).1 live
  have same : ∀ {α : Type} (read : Node P → α),
      (∀ entry function, read { entry with function } = read entry) → ∀ key,
      ((m.modifyNode node fun entry => { entry with function := owner }).nodes.get key).map read =
        (m.nodes.get key).map read := by
    intro α read apart key
    simp only [modifyNode, get_modify]
    split
    · cases m.nodes.get key <;> simp [apart]
    · rfl
  have links_same : Compresses m.nodes (m.modifyNode node fun entry =>
      { entry with function := owner }).nodes :=
    Compresses.of_links fun key => same Node.equality (fun _ _ => rfl) key
  obtain ⟨kept, effect⟩ := refreshClassSummary_effect
    (m := m.modifyNode node fun entry => { entry with function := owner })
    (formed.compresses links_same) node
  refine
    { slots := kept.slots.trans (slots_length_modify _ _ _)
      nodes := links_same.trans kept.nodes
      home := fun other => (kept.home other).trans (same Node.block (fun _ _ => rfl) other)
      owner := ?_
      functions := kept.functions
      blocks := kept.blocks
      classes := ?_ }
  · intro other
    refine (kept.owner other).trans ?_
    simp only [ownerOf, modifyNode, get_modify]
    split
    · next here => simp [here, found]
    · rfl
  · intro root rest cls
    obtain ⟨inside, outside⟩ := effect root rest (links_same.classes root rest cls)
    exact ⟨inside, fun away => (outside away).trans
      (bind_eq_of_map_eq _ (same Node.scopeSummary (fun _ _ => rfl) root))⟩

theorem SetsOwner.consistent {node : NodeId} {owner : Option FunctionId}
    (consistent : Consistent m) (sets : SetsOwner node owner m m')
    (out : ∀ function, owner = some function → function.index ≤ m.functions.slots.length) :
    Consistent m' := by
  refine ⟨⟨consistent.formed.compresses sets.nodes, ?_, ?_⟩, ?_⟩
  · obtain ⟨above, nested⟩ := consistent.nested
    refine ⟨above, nested.of_functions (by rw [sets.functions]) fun function entry found => ?_⟩
    rw [sets.functions] at found
    exact ⟨entry, found, rfl, rfl⟩
  · intro other function owns
    rw [sets.owner] at owns
    rw [sets.functions]
    split at owns
    · exact out function owns
    · exact consistent.owners other function owns
  · obtain ⟨homed, parent, child, handedOut⟩ := consistent.tree
    rw [← sets.blocks] at homed parent child handedOut
    refine ⟨fun other home housed => homed other home ?_, parent, child, handedOut⟩
    rw [← sets.home]
    exact housed

theorem Consistent.listNode (consistent : Consistent m) (function : FunctionId) (node : NodeId) :
    Consistent (m.modifyFunction function fun entry =>
      { entry with nodes := entry.nodes ++ [node] }) := by
  refine ⟨⟨consistent.formed, ?_, ?_⟩, ?_⟩
  · obtain ⟨above, nested⟩ := consistent.nested
    refine ⟨above, nested.of_functions (slots_length_modify _ _ _) fun other entry found => ?_⟩
    simp only [modifyFunction, get_modify] at found
    split at found
    · obtain ⟨before, began, rfl⟩ := map_eq_some_iff.1 found
      exact ⟨before, began, rfl, rfl⟩
    · exact ⟨entry, found, rfl, rfl⟩
  · intro other owner owns
    simp only [modifyFunction, slots_length_modify]
    exact consistent.owners other owner owns
  · obtain ⟨homed, parent, child, handedOut⟩ := consistent.tree
    exact ⟨homed, parent, child, handedOut⟩

theorem ownerScope_listNode (m : Module P) (function : FunctionId) (node other : NodeId) :
    (m.modifyFunction function fun entry =>
      { entry with nodes := entry.nodes ++ [node] }).ownerScope other = m.ownerScope other := by
  have scopes : (m.modifyFunction function fun entry =>
      { entry with nodes := entry.nodes ++ [node] }).functionScope = m.functionScope := by
    funext owner
    simp only [functionScope, modifyFunction, get_modify]
    split
    · cases m.functions.get owner <;> rfl
    · rfl
  rw [ownerScope_eq, ownerScope_eq, scopes]
  rfl

end Module

end LichenVm
