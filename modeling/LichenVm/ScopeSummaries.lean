import LichenVm.ModuleRun

open List

namespace LichenVm

open DisjointSet LexicalScope LinkedList Module Program Reaches

namespace Module

variable {P : Program}

/-- The representative's summary is the nearest common ancestor of its members' owner scopes. -/
def Exact (m : Module P) (root : NodeId) (rest : List NodeId) : Prop :=
  IsNearest (path (m.summaryOf root)) ((root :: rest).map fun member => path (m.ownerScope member))

variable {m m' : Module P} {root : NodeId} {rest : List NodeId}

theorem Exact.of_same (exact : m.Exact root rest) (summary : m'.summaryOf root = m.summaryOf root)
    (owners : ∀ member ∈ root :: rest, m'.ownerScope member = m.ownerScope member) :
    m'.Exact root rest := by
  have paths : (root :: rest).map (fun member => path (m'.ownerScope member)) =
      (root :: rest).map fun member => path (m.ownerScope member) :=
    map_congr_left fun member found => by rw [owners member found]
  rw [Exact, summary, paths]
  exact exact

variable {above : FunctionId → Option FunctionId}

theorem foldl_mergeSummaries_nearest (summaries : List (Option (Scope FunctionId)))
    (inside : ∀ summary ∈ summaries, Linked above (path summary) ∧
      (path summary).length ≤ 2 ^ LEVELS) :
    ∀ (first : Option (Scope FunctionId)) (paths : List (List FunctionId)),
      Linked above (path first) → (path first).length ≤ 2 ^ LEVELS → IsNearest (path first) paths →
      IsNearest (path (summaries.foldl mergeSummaries first)) (paths ++ summaries.map path) := by
  induction summaries with
  | nil => exact fun first paths _ _ near => by simpa using near
  | cons summary summaries ih =>
    intro first paths linked short near
    obtain ⟨linked', short'⟩ := inside summary mem_cons_self
    have merged : IsNearest (path (mergeSummaries first summary)) (paths ++ [path summary]) :=
      near.merge (IsNearest.single _) linked linked' short short'
    have within : path (mergeSummaries first summary) <:+ path summary :=
      merged.suffix (mem_append_right _ (mem_singleton.2 rfl))
    have rest := ih (fun other member => inside other (mem_cons_of_mem _ member)) _
      (paths ++ [path summary]) (LexicalScope.Linked.suffix linked' within) (within.length_le.trans short') merged
    rw [append_assoc] at rest
    exact rest

theorem foldSummary_nearest
    (first : Option (Scope FunctionId)) (summaries : List (Option (Scope FunctionId)))
    (inside : ∀ summary ∈ first :: summaries, Linked above (path summary) ∧
      (path summary).length ≤ 2 ^ LEVELS) :
    IsNearest (path (foldSummary (first :: summaries))) ((first :: summaries).map path) := by
  obtain ⟨linked, short⟩ := inside first mem_cons_self
  exact foldl_mergeSummaries_nearest summaries
    (fun other member => inside other (mem_cons_of_mem _ member)) first [path first]
    linked short (IsNearest.single _)

theorem Folded.exact (nested : Nested above m) (folded : m.Folded root rest) :
    m.Exact root rest := by
  rw [Exact, folded]
  have inside : ∀ summary ∈ m.ownerScope root :: rest.map m.ownerScope,
      Linked above (path summary) ∧ (path summary).length ≤ 2 ^ LEVELS := by
    intro summary member
    rw [← map_cons] at member
    obtain ⟨node, -, rfl⟩ := mem_map.1 member
    exact nested.ownerScope node
  have near := foldSummary_nearest (m.ownerScope root) (rest.map m.ownerScope) inside
  rwa [← map_cons, map_map] at near

def SummariesExact (m : Module P) : Prop :=
  ∀ root rest, IsClass m.nodes root rest → m.Exact root rest

/-- Every node that outlives the drop of `block`, and is owned by a function homed in the
dropped subtree, is one that function lists. -/
def OwnersListed (m : Module P) (block : BlockId) : Prop :=
  ∀ function entry node home, m.functions.get function = some entry →
    m.descendsFrom entry.block block = true → m.ownerOf node = some function →
    m.homeOf node = some home → m.descendsFrom home block = false → node ∈ entry.nodes

/-- A drop under way: what is left is as it was `before`, and each class is exact or keeps a
member that the drop has yet to release. -/
structure SummariesPending (before : Module P) (block : BlockId) (now : Module P) : Prop where
  function : ∀ function entry, now.functions.get function = some entry →
    before.functions.get function = some entry
  home : ∀ node home, now.homeOf node = some home → before.homeOf node = some home
  owner : ∀ node function, now.ownerOf node = some function → before.ownerOf node = some function
  exact : ∀ root rest, IsClass now.nodes root rest → now.Exact root rest ∨
    ∃ member ∈ root :: rest, ∃ home, now.homeOf member = some home ∧
      before.descendsFrom home block = true

variable {block : BlockId}

theorem SummariesPending.releases {before now next : Module P} {home : BlockId}
    (pending : SummariesPending before block now) (listed : before.OwnersListed block)
    (descends : before.descendsFrom home block) (coherent : Coherent next)
    (releases : Releases home now next) : SummariesPending before block next := by
  have lives : ∀ {α : Type} (read : Node P → Option α) node value,
      (next.nodes.get node).bind read = some value → next.nodes.containsKey node := by
    intro α read node value held
    obtain ⟨entry, found, -⟩ := Option.bind_eq_some_iff.1 held
    simp [SlotMap.containsKey, found]
  have alive : ∀ node inner, next.homeOf node = some inner →
      next.nodes.containsKey node := fun node inner homed => by
    rw [← homeOf_isSome, homed]
    rfl
  obtain ⟨above, nested⟩ := coherent.nested
  refine ⟨?_, ?_, ?_, ?_⟩
  · intro function entry found
    rcases releases.function function with same | gone
    · exact pending.function function entry (by rw [← same, found])
    · rw [gone] at found
      cases found
  · intro node inner homed
    have stays := releases.home node (alive node inner homed)
    exact pending.home node inner (by rw [← stays, homed])
  · intro node function owner
    have stays := releases.owner node (lives Node.function node function owner)
    exact pending.owner node function (by rw [← stays, owner])
  · intro root rest cls
    have member_lives : ∀ member ∈ root :: rest, next.nodes.containsKey member := by
      intro member inside
      rw [← links_isSome]
      exact cls.live member inside
    rcases releases.summary root rest cls with folded | ⟨old, same, owners⟩ | stray
    · exact Or.inl (folded.exact nested)
    · rcases pending.exact root rest old with exact | ⟨member, inside, inner, homed, doomed⟩
      · exact Or.inl (exact.of_same same owners)
      · refine Or.inr ⟨member, inside, inner, ?_, doomed⟩
        rw [releases.home member (member_lives member inside), homed]
    · -- A stray survivor is one its function does not list, so it goes with the subtree too.
      obtain ⟨node, inside, function, entry, owner, found, housed, missed⟩ := stray
      have survives := ((releases.live node).1 (member_lives node inside)).2
      obtain ⟨inner, homed⟩ := Option.isSome_iff_exists.1
        (by rw [homeOf_isSome]; exact member_lives node inside)
      have homed' : now.homeOf node = some inner := by
        rw [← releases.home node (member_lives node inside), homed]
      refine Or.inr ⟨node, inside, inner, homed, ?_⟩
      by_contra outlives
      refine missed.elim (fun unlisted => unlisted ?_) survives
      exact listed function entry node inner (pending.function function entry found)
        (by rw [housed]; exact descends) (pending.owner node function owner)
        (pending.home node inner homed') (by simpa using outlives)

theorem SummariesExact.dropBlock (consistent : Consistent m)
    (exact : m.SummariesExact) {entry : Block}
    (found : m.blocks.get block = some entry) (listed : m.OwnersListed block) :
    (m.dropBlock block).SummariesExact := by
  have start : SummariesPending m block m :=
    ⟨fun _ _ found => found, fun _ _ homed => homed, fun _ _ owner => owner,
      fun root rest cls => Or.inl (exact root rest cls)⟩
  obtain ⟨-, pending, dropped⟩ := consistent.dropBlock found (SummariesPending m block) start
    (fun now home held => ⟨held.function, held.home, held.owner, held.exact⟩)
    (fun now next home descends _ coherent held released =>
      held.releases listed descends coherent released)
  intro root rest cls
  refine (pending.exact root rest cls).resolve_right ?_
  rintro ⟨member, -, home, homed, doomed⟩
  rw [dropped.home consistent.tree homed] at doomed
  cases doomed

theorem Exact.path (nested : Nested above m) (exact : m.Exact root rest) :
    Linked above (path (m.summaryOf root)) ∧ (path (m.summaryOf root)).length ≤ 2 ^ LEVELS := by
  obtain ⟨linked, short⟩ := nested.ownerScope root
  have within : LexicalScope.path (m.summaryOf root) <:+ LexicalScope.path (m.ownerScope root) :=
    exact.suffix mem_cons_self
  exact ⟨LexicalScope.Linked.suffix linked within, within.length_le.trans short⟩

theorem SummariesExact.adds (formed : WellFormed m.nodes)
    (exact : m.SummariesExact) {node : NodeId} (adds : AddsNode block node m m') :
    m'.SummariesExact := by
  intro root rest cls
  have owners : ∀ other, m'.ownerScope other = if other = node then none else m.ownerScope other := by
    intro other
    have scopes : m'.functionScope = m.functionScope := by
      funext function
      simp only [functionScope, adds.functions]
    rw [ownerScope_eq, ownerScope_eq, adds.owner, scopes]
    split <;> rfl
  rcases adds.classes formed cls with ⟨rfl, rfl⟩ | old
  · have none : m'.summaryOf root = m'.ownerScope root := by
      rw [adds.summary, owners, if_pos rfl, if_pos rfl]
    rw [Exact, none]
    exact IsNearest.single _
  · have apart : ∀ member ∈ root :: rest, member ≠ node := by
      rintro member inside rfl
      have lives := old.live member inside
      rw [links_isSome, adds.fresh] at lives
      cases lives
    refine (exact root rest old).of_same ?_ fun member inside => ?_
    · rw [adds.summary, if_neg (apart root old.root_mem)]
    · rw [owners, if_neg (apart member inside)]

theorem SummariesExact.owns {middle : Module P} (consistent : Consistent m) (exact :
    m.SummariesExact) {node : NodeId}
    {owner : Option FunctionId} (sets : SetsOwner node owner m middle) :
    middle.SummariesExact := by
  intro root rest cls
  have old := (sets.nodes.classes_iff consistent.formed root rest).1 cls
  obtain ⟨above, before⟩ := consistent.nested
  have nested : Nested above middle := before.of_functions (by rw [sets.functions])
    fun function entry found => ⟨entry, by rw [← sets.functions, found], rfl, rfl⟩
  by_cases inside : node ∈ root :: rest
  · exact ((sets.classes root rest old).1 inside).exact nested
  · refine (exact root rest old).of_same ((sets.classes root rest old).2 inside)
      fun member found => ?_
    have scopes : middle.functionScope = m.functionScope := by
      funext function
      simp only [functionScope, sets.functions]
    have apart : member ≠ node := by
      rintro rfl
      exact inside found
    rw [ownerScope_eq, ownerScope_eq, sets.owner, if_neg apart, scopes]

/-- Equating two exact classes leaves an exact one. -/
theorem SummariesExact.equates (consistent : Consistent m)
    (exact : m.SummariesExact) {ra rb : NodeId} {la lb : List NodeId}
    (one : IsClass m.nodes ra la) (two : IsClass m.nodes rb lb)
    (equates : Equates m m' ra la rb lb root rest) : m'.SummariesExact := by
  obtain ⟨above, nested⟩ := consistent.nested
  obtain ⟨linked, short⟩ := (exact ra la one).path nested
  obtain ⟨linked', short'⟩ := (exact rb lb two).path nested
  have merged := (exact ra la one).merge (exact rb lb two) linked linked' short short'
  have owners := equates.toFrame.ownerScope
  -- The representative's summary is the merge; only the members' order may differ.
  have whole : (∀ member, member ∈ root :: rest ↔ member ∈ (ra :: la) ++ (rb :: lb)) →
      m'.Exact root rest := by
    intro members
    rw [Exact, equates.summary, if_pos rfl]
    refine merged.congr fun path => ?_
    rw [← map_append]
    simp only [mem_map, owners, members]
  have other : ∀ top behind, IsClass m.nodes top behind → top ≠ root → m'.Exact top behind := by
    intro top behind cls apart
    refine (exact top behind cls).of_same ?_ fun member _ => owners member
    rw [equates.summary, if_neg apart]
  intro top behind cls
  rcases equates.joins with ⟨rfl, rfl, rfl, compressed⟩ | ⟨apart, joins⟩
  · have old := (compressed.classes_iff consistent.formed top behind).1 cls
    by_cases same : top = root
    · subst same
      obtain ⟨-, rfl⟩ := old.unique one old.root_mem one.root_mem
      obtain ⟨-, rfl⟩ := one.unique two one.root_mem two.root_mem
      exact whole fun member => by rw [mem_append, or_self]
    · exact other top behind old same
  · rcases joins.classes consistent.formed one two cls with ⟨rfl, rfl⟩ | ⟨old, left, right⟩
    · exact whole fun member => joins.members.mem_iff
    · refine other top behind old ?_
      rintro rfl
      have member := joins.members.mem_iff.1 (joins.merged.root_mem)
      rcases mem_append.1 member with inside | inside
      · exact old.disjoint one left old.root_mem inside
      · exact old.disjoint two right old.root_mem inside

theorem SummariesExact.relocates {target : BlockId} (formed : WellFormed m.nodes)
    (exact : m.SummariesExact) (walk : Relocates target m m') : m'.SummariesExact := by
  intro root rest cls
  refine (exact root rest ((walk.nodes.classes_iff formed root rest).1 cls)).of_same
    (walk.summary root) fun member _ => ?_
  have scopes : m'.functionScope = m.functionScope := by
    funext function
    obtain ⟨home, same⟩ := walk.function function
    simp only [functionScope, same]
    cases m.functions.get function <;> rfl
  rw [ownerScope_eq, ownerScope_eq, walk.owner, scopes]

/-- Whether every node that outlives the drop of `block`, and is owned by a function homed in
the dropped subtree, is one that function lists. -/
def ownersListed (m : Module P) (block : BlockId) : Bool :=
  m.nodes.keys.all fun node =>
    match m.homeOf node, (m.ownerOf node).bind m.functions.get with
    | some home, some entry =>
      m.descendsFrom home block || !m.descendsFrom entry.block block || entry.nodes.contains node
    | _, _ => true

theorem ownersListed_iff (listed : m.ownersListed block) : m.OwnersListed block := by
  intro function entry node home found descends owner homed outlives
  have live : node ∈ m.nodes.keys := by
    rw [SlotMap.mem_keys, ← homeOf_isSome, homed]
    rfl
  have check := all_eq_true.1 listed node live
  simpa [homed, owner, found, descends, outlives] using check

end Module

/-- Every call keeps the summaries exact whose drops leave listed owners. -/
theorem Op.run_exact {P : Program} {m m' : Module P} (consistent : Module.Consistent m)
    (exact : m.SummariesExact) (op : Op P) (tree : op.keepsTree m)
    (listed : op.releasesWith ownersListed m) (ran : op.run m = some m') :
    m'.SummariesExact := by
  obtain ⟨consistent', effect⟩ := op.run_effect consistent tree ran
  have carry : ∀ {middle : Module P}, middle.SummariesExact → m'.nodes = middle.nodes →
      (∀ node, m'.ownerScope node = middle.ownerScope node) → m'.SummariesExact := by
    intro middle exact' nodes owners root rest cls
    rw [nodes] at cls
    refine (exact' root rest cls).of_same ?_ fun member _ => owners member
    simp only [summaryOf, nodes]
  cases effect with
  | framed nodes owners => exact carry exact nodes owners
  | adds block node adds => exact exact.adds consistent.formed adds
  | owns node owner middle sets nodes owners =>
    exact carry (exact.owns consistent sets) nodes owners
  | rescopes nodes folded =>
    obtain ⟨above, nested⟩ := consistent'.nested
    exact fun root rest cls => (folded root rest cls).exact nested
  | equates ra rb la lb root rest one two equates => exact exact.equates consistent one two equates
  | unifies steps =>
    refine (steps.carry _ consistent exact ?_ ?_).2
    · intro middle next consistent exact keeps root rest cls
      have old := (keeps.nodes.classes_iff consistent.formed root rest).1 cls
      exact (exact root rest old).of_same (keeps.summary root) fun member _ => keeps.ownerScope member
    · intro middle next ra la rb lb root rest consistent exact one two equates
      exact exact.equates consistent one two equates
  | releases now block target entry release live consistent'' walk nodes owners =>
    simp only [releasesWith, release] at listed
    exact carry ((exact.relocates consistent.formed walk).dropBlock consistent'' live
      (ownersListed_iff listed)) nodes owners

/-- A live node's class holds the nearest common ancestor of its members' owner scopes. -/
def Module.SummaryExact {P : Program} (m : Module P) (node : NodeId) : Prop :=
  ∃ rest, IsClass m.nodes (m.classRoot node) rest ∧ node ∈ m.classRoot node :: rest ∧
    IsNearest (path (m.classScopeSummary node))
      ((m.classRoot node :: rest).map fun member => path (m.ownerScope member))

/-- In a run whose drops leave listed owners, the summary that every live node's class reads
is exact in each state reached. -/
theorem scope_summaries_exact {P : Program} {m : Module P}
    (reached : Reaches (fun m op => op.keepsTree m && op.releasesWith ownersListed m) m)
    (node : NodeId) (live : m.nodes.containsKey node = true) : m.SummaryExact node := by
  have standing : Module.Consistent m ∧ m.SummariesExact := by
    clear live
    induction reached with
    | start registry =>
      have consistent := Module.Consistent.start registry
      refine ⟨consistent, fun root rest cls => ?_⟩
      have lives := cls.live root cls.root_mem
      obtain ⟨_ | index⟩ := root <;> simp [links, SlotMap.get] at lives
    | step op _ admitted ran ih =>
      obtain ⟨tree, listed⟩ := Bool.and_eq_true_iff.1 admitted
      exact ⟨(op.run_effect ih.1 tree ran).1, op.run_exact ih.1 ih.2 tree listed ran⟩
  obtain ⟨root, rest, cls, member⟩ := standing.1.formed node (by rw [links_isSome, live])
  have named := classRoot_eq cls member
  refine ⟨rest, named ▸ cls, named ▸ member, ?_⟩
  have exact := standing.2 root rest cls
  rw [classScopeSummary, named]
  exact exact

/-- A block `Q` below `P`, a function homed in `Q`, and a node of `P` that the function owns
without listing it; then `Q` goes. -/
def strayOwner : List (Op plain) :=
  [.addBlock none, .addBlock (some ⟨1⟩), .beginFunction ⟨2⟩ none, .addNode ⟨1⟩ none none,
    .setNodeOwner ⟨1⟩ (some ⟨1⟩), .dropBlock ⟨2⟩]

/-- The node's summary still names the removed function, where its owner is gone. -/
theorem strayOwner_keeps_stale_summary :
    ¬ ∀ m : Module plain, Reaches (fun m op => op.keepsTree m) m →
      ∀ node, m.nodes.containsKey node = true → m.SummaryExact node := by
  intro claim
  obtain ⟨m, ran⟩ := Option.isSome_iff_exists.1
    (by decide : (runAll (fun m op => op.keepsTree m) strayOwner {}).isSome = true)
  have read : ∀ {α : Type} (f : Module plain → α) (value : α),
      (runAll (fun m op => op.keepsTree m) strayOwner {}).map f = some value →
      f m = value := by
    intro α f value held
    rw [ran] at held
    exact Option.some.inj held
  have live := read (fun m => m.nodes.containsKey ⟨1⟩) true (by decide)
  have stale := read (fun m => m.classScopeSummary ⟨1⟩) (some (.top ⟨1⟩)) (by decide)
  have gone := read (fun m => m.ownerScope (m.classRoot ⟨1⟩)) none (by decide)
  obtain ⟨rest, -, -, near⟩ := claim m (of_runAll strayOwner (.start {}) ran) ⟨1⟩ live
  have within := near.suffix mem_cons_self
  simp [stale, gone, path, Scope.chain] at within

/-- A node that its owner lists, in the block that stays. -/
def listedOwner : List (Op plain) :=
  [.addBlock none, .addBlock (some ⟨1⟩), .beginFunction ⟨2⟩ none, .addNode ⟨1⟩ none none,
    .registerInFunction ⟨1⟩ ⟨1⟩, .dropBlock ⟨2⟩]

theorem listedOwner_summary_exact : ∃ m : Module plain,
    runAll (fun m op => op.keepsTree m && op.releasesWith ownersListed m)
      listedOwner {} = some m ∧ m.nodes.containsKey ⟨1⟩ = true ∧ m.SummaryExact ⟨1⟩ := by
  obtain ⟨m, ran⟩ := Option.isSome_iff_exists.1 (by decide :
    (runAll (fun m op => op.keepsTree m && op.releasesWith ownersListed m)
      listedOwner {}).isSome = true)
  have live : m.nodes.containsKey ⟨1⟩ = true := by
    have held : (runAll
        (fun m op => op.keepsTree m && op.releasesWith ownersListed m) listedOwner {}).map
        (fun m => m.nodes.containsKey ⟨1⟩) = some true := by decide
    rw [ran] at held
    exact Option.some.inj held
  exact ⟨m, ran, live, scope_summaries_exact (of_runAll listedOwner (.start {}) ran) ⟨1⟩ live⟩

end LichenVm
