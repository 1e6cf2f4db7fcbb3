import LichenVm.Consistency

open List Option

namespace LichenVm

open DisjointSet LexicalScope LinkedList SlotMap

namespace Module

variable {P : Program}

/-- The nesting depth of a live function's scope. -/
def scopeDepth (m : Module P) (function : FunctionId) : Nat :=
  ((m.functionScope function).map Scope.depth).getD 0

private theorem mem_candidates {m : Module P} {function : FunctionId} {root : Scope FunctionId}
    {candidate : FunctionId} {pair : Nat × FunctionId}
    (picked : (if candidate = function then none
      else (m.functionScope candidate).bind fun scope =>
        if root.isAncestorOrSelf scope then some (scope.depth, candidate) else none) = some pair) :
    candidate ≠ function ∧ pair = (m.scopeDepth candidate, candidate) ∧
      ∃ scope, m.functionScope candidate = some scope ∧ root.isAncestorOrSelf scope := by
  split at picked
  · cases picked
  · next apart =>
    obtain ⟨scope, found, picked⟩ := bind_eq_some_iff.1 picked
    split at picked
    · next below =>
      cases picked
      exact ⟨apart, by simp [scopeDepth, found], scope, found, below⟩
    · cases picked

variable {m : Module P} {function : FunctionId} {root : Scope FunctionId}

theorem mem_scopeDescendants (held : m.functionScope function = some root) (other : FunctionId) :
    other ∈ m.scopeDescendants function ↔ other ≠ function ∧
      ∃ scope, m.functionScope other = some scope ∧ root.isAncestorOrSelf scope := by
  simp only [scopeDescendants, held, List.mem_map, mem_insertionSort, mem_filterMap]
  constructor
  · rintro ⟨pair, ⟨candidate, -, picked⟩, rfl⟩
    obtain ⟨apart, rfl, below⟩ := mem_candidates picked
    exact ⟨apart, below⟩
  · rintro ⟨apart, scope, found, below⟩
    refine ⟨(scope.depth, other), ⟨other, ?_, ?_⟩, rfl⟩
    · obtain ⟨entry, live, -⟩ := bind_eq_some_iff.1 found
      exact (SlotMap.mem_keys _ _).2 ((containsKey_eq_true _ _).2 ⟨entry, live⟩)
    · simp [apart, found, below]

/-- The functions below a function are listed once each, the shallow ones first. -/
theorem scopeDescendants_sorted (m : Module P) (function : FunctionId) :
    (m.scopeDescendants function).Nodup ∧
      (m.scopeDescendants function).Pairwise fun a b => m.scopeDepth a ≤ m.scopeDepth b := by
  simp only [scopeDescendants]
  cases m.functionScope function with
  | none => simp
  | some root =>
    dsimp only
    generalize named : List.filterMap _ m.functions.keys = candidates
    have depths : ∀ pair ∈ candidates, pair.1 = m.scopeDepth pair.2 := by
      intro pair member
      rw [← named] at member
      obtain ⟨candidate, -, picked⟩ := mem_filterMap.1 member
      obtain ⟨-, rfl, -⟩ := mem_candidates picked
      rfl
    have perm := perm_insertionSort (fun a b : Nat × FunctionId => a.1 ≤ b.1) candidates
    constructor
    · refine (perm.map Prod.snd).nodup_iff.2 ?_
      have seconds : candidates.map Prod.snd = m.functions.keys.filterMap fun candidate =>
          (if candidate = function then none
            else (m.functionScope candidate).bind fun scope =>
              if root.isAncestorOrSelf scope then some (scope.depth, candidate) else none).map
            Prod.snd := by
        rw [← named, map_filterMap]
      rw [seconds]
      refine (keys_nodup m.functions).filterMap fun a b c left right => ?_
      obtain ⟨pair, picked, rfl⟩ := map_eq_some_iff.1 left
      obtain ⟨pair', picked', same⟩ := map_eq_some_iff.1 right
      obtain ⟨-, rfl, -⟩ := mem_candidates picked
      obtain ⟨-, rfl, -⟩ := mem_candidates picked'
      exact same.symm
    · have total : Std.Total fun a b : Nat × FunctionId => a.1 ≤ b.1 :=
        ⟨fun a b => Nat.le_total a.1 b.1⟩
      have sorted := pairwise_insertionSort
        (fun a b : Nat × FunctionId => a.1 ≤ b.1) candidates
      rw [pairwise_map]
      refine sorted.imp_of_mem fun left right order => ?_
      rw [← depths _ (perm.mem_iff.1 left), ← depths _ (perm.mem_iff.1 right)]
      exact order

/-- A re-parenting under way: `function` has its new parent, the `done` functions their new
scopes, and the other functions that `moves` names still their old ones. -/
structure Rehung (m : Module P) (function : FunctionId) (parent : Option FunctionId)
    (moves done : FunctionId → Prop) (above : FunctionId → Option FunctionId)
    (now : Module P) : Prop where
  nodes : now.nodes = m.nodes
  blocks : now.blocks = m.blocks
  slots : now.functions.slots.length = m.functions.slots.length
  entry : ∀ other entry, now.functions.get other = some entry →
    ∃ before, m.functions.get other = some before ∧
      entry.parent = (if other = function then parent else before.parent) ∧
      (¬ done other → entry.scope = before.scope)
  placed : ∀ other entry, now.functions.get other = some entry → (moves other → done other) →
    ∃ scope, entry.scope = some scope ∧ scope.function = other ∧ Linked above scope.chain ∧
      scope.depth < 2 ^ LEVELS ∧
      ∀ inner ∈ scope.chain, inner.index ≤ m.functions.slots.length ∧ (moves inner → done inner)
  hung : ∀ other entry up outer, done other → now.functions.get other = some entry →
    entry.parent = some up → now.functions.get up = some outer →
    (moves up → done up) ∧ entry.scope = outer.scope.map (Scope.under other)

variable {next : Module P}

theorem rehang_eq_some (rehung : m.rehang function = some next) : ∃ scope,
      Scope.child function (((m.functions.get function).bind Function.parent).bind
        m.functionScope) = some scope ∧
      next = m.modifyFunction function fun entry => { entry with scope := some scope } := by
  obtain ⟨scope, child, rfl⟩ := map_eq_some_iff.1 rehung
  exact ⟨scope, child, rfl⟩

variable {parent : Option FunctionId} {moves : FunctionId → Prop}
  {above : FunctionId → Option FunctionId}

/-- Re-hanging one more function, its live parent done or not moving. -/
theorem Rehung.step {now : Module P} {done : FunctionId → Prop}
    (state : Rehung m function parent moves done above now) {moved : FunctionId}
    (moving : moves moved) (waits : ¬ done moved) (fits : moved.index ≤ m.functions.slots.length)
    (settled : ∀ entry up outer, now.functions.get moved = some entry → entry.parent = some up →
      now.functions.get up = some outer → moves up → done up)
    (rehung : now.rehang moved = some next) :
    ∃ above', Rehung m function parent moves (fun other => done other ∨ other = moved) above' next := by
  obtain ⟨scope, child, rfl⟩ := rehang_eq_some rehung
  -- The parent's scope is one of the placed ones, and names nothing that still waits.
  have parent_scope : ∀ outer, ((now.functions.get moved).bind Function.parent).bind
      now.functionScope = some outer → Linked above outer.chain ∧
        ∀ inner ∈ outer.chain, inner.index ≤ m.functions.slots.length ∧ (moves inner → done inner) := by
    intro outer held
    obtain ⟨up, hangs, held⟩ := bind_eq_some_iff.1 held
    obtain ⟨entry, found, hangs⟩ := bind_eq_some_iff.1 hangs
    obtain ⟨entry', found', held⟩ := bind_eq_some_iff.1 held
    obtain ⟨scope', held', -, linked, -, inside⟩ := state.placed up entry' found'
      (settled entry up entry' found hangs found')
    cases held.symm.trans held'
    exact ⟨linked, inside⟩
  generalize above_scope : ((now.functions.get moved).bind Function.parent).bind
    now.functionScope = outer at child parent_scope
  let above' : FunctionId → Option FunctionId := fun other =>
    if other = moved then (path outer).head? else above other
  have away : ∀ chain : List FunctionId, (∀ inner ∈ chain, moves inner → done inner) →
      Linked above chain → Linked above' chain := by
    refine fun chain inside linked => linked.congr fun other member => if_neg ?_
    rintro rfl
    exact waits (inside _ member moving)
  have outer_linked : Linked above' (path outer) := by
    cases outer with
    | none => trivial
    | some outer =>
      obtain ⟨linked, inside⟩ := parent_scope outer rfl
      exact away _ (fun inner member => (inside inner member).2) linked
  obtain ⟨named, linked, shallow, chain, under⟩ := child_linked child outer_linked (if_pos rfl)
  have gets : ∀ other entry, (now.modifyFunction moved fun entry =>
      { entry with scope := some scope }).functions.get other = some entry →
      (other = moved ∧ ∃ before, now.functions.get other = some before ∧
        entry = { before with scope := some scope }) ∨
      (other ≠ moved ∧ now.functions.get other = some entry) := by
    intro other entry found
    simp only [modifyFunction, get_modify] at found
    split at found
    · next same =>
      obtain ⟨before, found', rfl⟩ := map_eq_some_iff.1 found
      exact Or.inl ⟨same, before, found', rfl⟩
    · next apart => exact Or.inr ⟨apart, found⟩
  refine ⟨above', state.nodes, state.blocks, ?_, ?_, ?_, ?_⟩
  · exact (slots_length_modify _ _ _).trans state.slots
  · intro other entry found
    rcases gets other entry found with ⟨rfl, before, found', rfl⟩ | ⟨apart, found'⟩
    · obtain ⟨origin, began, hangs, -⟩ := state.entry other before found'
      exact ⟨origin, began, hangs, fun waits' => absurd (Or.inr rfl) waits'⟩
    · obtain ⟨origin, began, hangs, same⟩ := state.entry other entry found'
      exact ⟨origin, began, hangs, fun waits' => same fun finished => waits' (Or.inl finished)⟩
  · intro other entry found ready
    rcases gets other entry found with ⟨rfl, before, found', rfl⟩ | ⟨apart, found'⟩
    · refine ⟨scope, rfl, named, linked, shallow, fun inner member => ?_⟩
      rw [chain] at member
      rcases mem_cons.1 member with rfl | member
      · exact ⟨fits, fun _ => Or.inr rfl⟩
      · cases outer with
        | none => cases member
        | some outer =>
          obtain ⟨bounded, finished⟩ := (parent_scope outer rfl).2 inner member
          exact ⟨bounded, fun moves' => Or.inl (finished moves')⟩
    · obtain ⟨scope', held, named', linked', shallow', inside⟩ := state.placed other entry found'
        fun moves' => (ready moves').resolve_right apart
      exact ⟨scope', held, named', away _ (fun inner member => (inside inner member).2) linked',
        shallow', fun inner member => ⟨(inside inner member).1,
          fun moves' => Or.inl ((inside inner member).2 moves')⟩⟩
  · intro other entry up upper finished found hangs found'
    rcases gets other entry found with ⟨rfl, before, before_found, rfl⟩ | ⟨apart, found''⟩
    · rcases gets up upper found' with ⟨rfl, before', found'', rfl⟩ | ⟨apart', found''⟩
      · exact absurd (settled before up before' before_found hangs found'' moving) waits
      · refine ⟨fun moves' => Or.inl (settled before up upper before_found hangs found'' moves'), ?_⟩
        have bound : upper.scope = outer := by
          rw [← above_scope, before_found]
          simp only [bind_some, show before.parent = some up from hangs, functionScope, found'']
        rw [bound]
        cases outer with
        | none =>
          obtain ⟨_, held, -⟩ := state.placed up upper found''
            (settled before up upper before_found hangs found'')
          rw [bound] at held
          cases held
        | some outer => rw [under outer rfl]; rfl
    · rcases finished with finished | rfl
      · rcases gets up upper found' with ⟨rfl, before', found''', rfl⟩ | ⟨apart', found'''⟩
        · exact absurd ((state.hung other entry up before' finished found'' hangs found''').1 moving)
            waits
        · obtain ⟨ready, same⟩ := state.hung other entry up upper finished found'' hangs found'''
          exact ⟨fun moves' => Or.inl (ready moves'), same⟩
      · exact absurd rfl apart

/-- Re-hanging the listed functions, the shallow ones first. -/
theorem Rehung.foldlM (depth : FunctionId → Nat)
    (shallower : ∀ other before up outer, moves other → other ≠ function →
      m.functions.get other = some before → before.parent = some up →
      m.functions.get up = some outer → depth up < depth other) (todo : List FunctionId) :
    ∀ {done : FunctionId → Prop} {above : FunctionId → Option FunctionId} {now next : Module P},
      Rehung m function parent moves done above now → todo.Nodup →
      todo.Pairwise (fun a b => depth a ≤ depth b) →
      (∀ other ∈ todo, moves other ∧ ¬ done other ∧ other ≠ function ∧
        other.index ≤ m.functions.slots.length) →
      (∀ other, done other → moves other) → (∀ other, moves other → done other ∨ other ∈ todo) →
      todo.foldlM rehang now = some next →
      ∃ above', Rehung m function parent moves moves above' next := by
  induction todo with
  | nil =>
    intro done above now next state _ _ _ within covers rehung
    cases rehung
    have all : ∀ other, moves other → done other := fun other moving =>
      (covers other moving).resolve_right (by simp)
    refine ⟨above, state.nodes, state.blocks, state.slots, ?_, ?_, ?_⟩
    · intro other entry found
      obtain ⟨before, began, hangs, same⟩ := state.entry other entry found
      exact ⟨before, began, hangs, fun stays => same fun finished => stays (within other finished)⟩
    · intro other entry found _
      obtain ⟨scope, held, named, linked, shallow, inside⟩ :=
        state.placed other entry found (all other)
      exact ⟨scope, held, named, linked, shallow, fun inner member =>
        ⟨(inside inner member).1, fun moving => moving⟩⟩
    · intro other entry up outer moving found hangs found'
      exact ⟨fun moving' => moving',
        (state.hung other entry up outer (all other moving) found hangs found').2⟩
  | cons moved todo ih =>
    intro done above now next state distinct sorted waiting within covers rehung
    obtain ⟨outside, distinct'⟩ := nodup_cons.1 distinct
    obtain ⟨first, sorted'⟩ := pairwise_cons.1 sorted
    obtain ⟨moving, waits, below, fits⟩ := waiting moved mem_cons_self
    obtain ⟨middle, rehung', rest⟩ := bind_eq_some_iff.1
      (by rw [foldlM_cons] at rehung; exact rehung)
    obtain ⟨above', state'⟩ := state.step moving waits fits (by
      intro entry up outer found hangs found' moving'
      obtain ⟨before, began, same, -⟩ := state.entry moved entry found
      obtain ⟨before', began', -⟩ := state.entry up outer found'
      rw [if_neg below] at same
      have deeper := shallower moved before up before' moving below began
        (by rw [← same, hangs]) began'
      rcases covers up moving' with finished | listed
      · exact finished
      · rcases mem_cons.1 listed with rfl | listed
        · exact absurd deeper (Nat.lt_irrefl _)
        · have := first up listed
          omega) rehung'
    refine ih state' distinct' sorted' ?_ ?_ ?_ rest
    · intro other member
      obtain ⟨moving', waits', apart, fits'⟩ := waiting other (mem_cons_of_mem _ member)
      refine ⟨moving', ?_, apart, fits'⟩
      rintro (finished | rfl)
      · exact waits' finished
      · exact outside member
    · rintro other (finished | rfl)
      · exact within other finished
      · exact moving
    · intro other moving'
      rcases covers other moving' with finished | listed
      · exact Or.inl (Or.inl finished)
      · rcases mem_cons.1 listed with rfl | listed
        · exact Or.inl (Or.inr rfl)
        · exact Or.inr listed

section

variable (nested : Nested above m) {other : FunctionId} {scope : Scope FunctionId}
  (held : m.functionScope function = some root) (held' : m.functionScope other = some scope)

include nested held held'

theorem Nested.chain_suffix (member : function ∈ scope.chain) : root.chain <:+ scope.chain := by
  obtain ⟨named, linked, -⟩ := nested.standing held
  obtain ⟨-, linked', -⟩ := nested.standing held'
  obtain ⟨front, back, split⟩ := append_of_mem member
  have tail : function :: back <:+ scope.chain := ⟨front, split.symm⟩
  have same : root.chain = function :: back :=
    linked.determined (LexicalScope.Linked.suffix linked' tail)
      (by rw [root.chain_eq_cons, named]; rfl)
  rw [same]
  exact tail

theorem Nested.encloses_iff : root.isAncestorOrSelf scope ↔ function ∈ scope.chain := by
  obtain ⟨named, linked, -⟩ := nested.standing held
  obtain ⟨-, linked', shallow⟩ := nested.standing held'
  rw [Scope.isAncestorOrSelf_iff linked linked' shallow]
  constructor
  · intro suffix
    refine suffix.subset ?_
    rw [root.chain_eq_cons, named]
    exact mem_cons_self
  · exact nested.chain_suffix held held'

end

/-- Re-hanging a whole subtree keeps the functions' scopes in one tree. -/
theorem Rehung.nested {above' : FunctionId → Option FunctionId}
    (nested : Nested above m) (state : Rehung m function parent moves moves above' next)
    (self : moves function)
    (out : ∀ up, parent = some up → up.index ≤ m.functions.slots.length)
    (still : ∀ other before up outer, ¬ moves other → m.functions.get other = some before →
      before.parent = some up → m.functions.get up = some outer → ¬ moves up) :
    Nested above' next := by
  refine ⟨?_, ?_, ?_, ?_⟩
  · intro other entry found
    obtain ⟨scope, held, named, linked, shallow, -⟩ := state.placed other entry found fun h => h
    exact ⟨scope, held, named, linked, shallow⟩
  · intro other entry scope found held inner member
    obtain ⟨scope', held', -, -, -, inside⟩ := state.placed other entry found fun h => h
    cases held.symm.trans held'
    rw [state.slots]
    exact (inside inner member).1
  · intro other entry up found hangs
    obtain ⟨before, began, same, -⟩ := state.entry other entry found
    rw [state.slots]
    rw [same] at hangs
    split at hangs
    · exact out up hangs
    · exact nested.parentOut other before up began hangs
  · intro other entry up outer found hangs found'
    by_cases moving : moves other
    · exact (state.hung other entry up outer moving found hangs found').2
    · obtain ⟨before, began, same, stays⟩ := state.entry other entry found
      obtain ⟨before', began', -, stays'⟩ := state.entry up outer found'
      have apart : other ≠ function := by
        rintro rfl
        exact moving self
      rw [if_neg apart] at same
      have hangs' : before.parent = some up := by rw [← same, hangs]
      rw [stays moving, stays' (still other before up before' moving began hangs' began')]
      exact nested.hung other before up before' began hangs' began'

theorem refreshAllClassSummaries_spec (formed : WellFormed m.nodes) :
    Keeps m m.refreshAllClassSummaries ∧ ∀ root rest, IsClass m.nodes root rest →
      m.refreshAllClassSummaries.Folded root rest := by
  obtain ⟨kept, classes⟩ := foldl_refresh formed refreshClassSummary (fun _ => False)
    (fun m' _ node => by simp) (m.nodes.keys.filter fun node => (parentOf m.nodes node).isNone)
    m (Keeps.refl m)
  refine ⟨kept, fun root rest cls => (classes root rest cls).resolve_right ?_⟩
  rintro ⟨-, skipped⟩
  refine skipped root (mem_filter.2 ⟨?_, ?_⟩) cls.root_mem
  · rw [SlotMap.mem_keys, ← links_isSome]
    exact cls.live root cls.root_mem
  · rw [cls.rooted]
    rfl

/-- Re-parenting a live function, to a handed-out parent that is not below it. -/
theorem setFunctionParent_spec {m' : Module P} (consistent : Consistent m)
    (live : m.functions.containsKey function)
    (out : ∀ up, parent = some up → up.index ≤ m.functions.slots.length)
    (apart : ∀ up, parent = some up → ∀ root scope, m.functionScope function = some root →
      m.functionScope up = some scope → root.isAncestorOrSelf scope = false)
    (made : m.setFunctionParent function parent = some m') :
    Consistent m' ∧ Compresses m.nodes m'.nodes ∧
      ∀ root rest, IsClass m'.nodes root rest → m'.Folded root rest := by
  obtain ⟨above, nested⟩ := consistent.nested
  obtain ⟨entry, found⟩ := (containsKey_eq_true _ _).1 live
  obtain ⟨root, held, named, linked, -⟩ := nested.placed function entry found
  have scope_of : m.functionScope function = some root := by simp [functionScope, found, held]
  let moves : FunctionId → Prop := fun other => other = function ∨ other ∈ m.scopeDescendants function
  have self : function ∈ root.chain := by
    rw [root.chain_eq_cons, named]
    exact mem_cons_self
  have moves_iff : ∀ other scope, m.functionScope other = some scope →
      (moves other ↔ function ∈ scope.chain) := by
    intro other scope held'
    by_cases same : other = function
    · subst same
      cases scope_of.symm.trans held'
      exact iff_of_true (Or.inl rfl) self
    · rw [← nested.encloses_iff scope_of held']
      simp [moves, same, mem_scopeDescendants scope_of, held']
  have moves_scope : ∀ other, moves other → ∃ scope, m.functionScope other = some scope := by
    rintro other (rfl | listed)
    · exact ⟨root, scope_of⟩
    · obtain ⟨-, scope, held', -⟩ := (mem_scopeDescendants scope_of other).1 listed
      exact ⟨scope, held'⟩
  have scope_at : ∀ other before, m.functions.get other = some before → ∃ scope,
      before.scope = some scope ∧ m.functionScope other = some scope := by
    intro other before began
    obtain ⟨scope, held', -⟩ := nested.placed other before began
    exact ⟨scope, held', by simp [functionScope, began, held']⟩
  have within : ∀ other, moves other → other.index ≤ m.functions.slots.length := by
    intro other moving
    obtain ⟨scope, held'⟩ := moves_scope other moving
    obtain ⟨before, began, -⟩ := bind_eq_some_iff.1 held'
    exact index_le_of_get _ _ _ began
  -- A live function's chain is its live parent's, one longer.
  have longer : ∀ other before up outer scope scope', m.functions.get other = some before →
      before.parent = some up → m.functions.get up = some outer →
      m.functionScope other = some scope → m.functionScope up = some scope' →
      scope = .under other scope' := by
    intro other before up outer scope scope' began hangs began' held' held''
    have same := nested.hung other before up outer began hangs began'
    rw [show before.scope = some scope by simpa [functionScope, began] using held',
      show outer.scope = some scope' by simpa [functionScope, began'] using held''] at same
    exact some.inj same
  have still : ∀ other before up outer, ¬ moves other → m.functions.get other = some before →
      before.parent = some up → m.functions.get up = some outer → ¬ moves up := by
    intro other before up outer stays began hangs began' moving
    obtain ⟨scope, -, held'⟩ := scope_at other before began
    obtain ⟨scope', -, held''⟩ := scope_at up outer began'
    refine stays ((moves_iff other scope held').2 ?_)
    rw [longer other before up outer scope scope' began hangs began' held' held'']
    exact mem_cons_of_mem _ ((moves_iff up scope' held'').1 moving)
  have shallower : ∀ other before up outer, moves other → other ≠ function →
      m.functions.get other = some before → before.parent = some up →
      m.functions.get up = some outer → m.scopeDepth up < m.scopeDepth other := by
    intro other before up outer _ _ began hangs began'
    obtain ⟨scope, -, held'⟩ := scope_at other before began
    obtain ⟨scope', -, held''⟩ := scope_at up outer began'
    have same := longer other before up outer scope scope' began hangs began' held' held''
    simp [scopeDepth, held', held'', same, Scope.depth]
  obtain ⟨distinct, sorted⟩ := scopeDescendants_sorted m function
  have outside : function ∉ m.scopeDescendants function := fun listed =>
    ((mem_scopeDescendants scope_of function).1 listed).1 rfl
  -- The state once the new parent is written, every scope still the old one.
  have start : Rehung m function parent moves (fun _ => False) above
      (m.modifyFunction function fun entry => { entry with parent }) := by
    have gets : ∀ other entry, (m.modifyFunction function fun entry =>
        { entry with parent }).functions.get other = some entry →
        ∃ before, m.functions.get other = some before ∧
          entry.parent = (if other = function then parent else before.parent) ∧
          entry.scope = before.scope := by
      intro other entry found'
      simp only [modifyFunction, get_modify] at found'
      split at found'
      · next same =>
        obtain ⟨before, began, rfl⟩ := map_eq_some_iff.1 found'
        exact ⟨before, began, (if_pos same).symm, rfl⟩
      · next other' => exact ⟨entry, found', (if_neg other').symm, rfl⟩
    refine ⟨rfl, rfl, slots_length_modify _ _ _, ?_, ?_, fun _ _ _ _ no => no.elim⟩
    · intro other entry found'
      obtain ⟨before, began, hangs, same⟩ := gets other entry found'
      exact ⟨before, began, hangs, fun _ => same⟩
    · intro other entry found' stays
      obtain ⟨before, began, -, same⟩ := gets other entry found'
      obtain ⟨scope, held', named', linked', shallow'⟩ := nested.placed other before began
      have held'' : m.functionScope other = some scope := by simp [functionScope, began, held']
      refine ⟨scope, same.trans held', named', linked', shallow', fun inner member => ?_⟩
      refine ⟨nested.handedOut other before scope began held' inner member, fun moving => ?_⟩
      obtain ⟨scope', held'''⟩ := moves_scope inner moving
      exact stays ((moves_iff other scope held'').2
        ((nested.chain_suffix held''' held'' member).subset ((moves_iff inner scope' held''').1 moving)))
  simp only [setFunctionParent, bind, bind_eq_some_iff, pure, some.injEq] at made
  obtain ⟨first, hung, last, rehung, rfl⟩ := made
  obtain ⟨above', second⟩ := start.step (Or.inl rfl) (fun no => no) (within function (Or.inl rfl)) (by
    intro entry' up outer found' hangs found'' moving
    obtain ⟨before, began, same, -⟩ := start.entry function entry' found'
    obtain ⟨before', began', -⟩ := start.entry up outer found''
    rw [if_pos rfl] at same
    obtain ⟨scope, -, held'⟩ := scope_at up before' began'
    have below := (nested.encloses_iff scope_of held').2 ((moves_iff up scope held').1 moving)
    rw [apart up (by rw [← same, hangs]) root scope scope_of held'] at below
    cases below) hung
  obtain ⟨above'', settled⟩ := second.foldlM m.scopeDepth shallower (m.scopeDescendants function)
    distinct sorted (by
      intro other listed
      have apart' : other ≠ function := by
        rintro rfl
        exact outside listed
      exact ⟨Or.inr listed, by simp [apart'], apart', within other (Or.inr listed)⟩)
    (by
      rintro other (no | rfl)
      · exact no.elim
      · exact Or.inl rfl)
    (by
      rintro other (rfl | listed)
      · exact Or.inl (Or.inr rfl)
      · exact Or.inr listed) rehung
  have formed : WellFormed last.nodes := by
    rw [settled.nodes]
    exact consistent.formed
  obtain ⟨kept, folded⟩ := refreshAllClassSummaries_spec formed
  have consistent' : Consistent last := by
    refine ⟨⟨formed, ⟨above'', settled.nested nested (Or.inl rfl) out still⟩, ?_⟩, ?_⟩
    · intro node owner owns
      simp only [ownerOf, settled.nodes] at owns
      rw [settled.slots]
      exact consistent.owners node owner owns
    · obtain ⟨homed, hangs, child, handedOut⟩ := consistent.tree
      simp only [← settled.blocks] at homed hangs child handedOut
      refine ⟨fun node home housed => homed node home ?_, hangs, child, handedOut⟩
      simpa only [homeOf, settled.nodes] using housed
  have compressed : Compresses m.nodes last.refreshAllClassSummaries.nodes := by
    rw [← settled.nodes]
    exact kept.nodes
  exact ⟨consistent'.of_keeps kept, compressed, fun root rest cls =>
    folded root rest ((kept.nodes.classes_iff formed root rest).1 cls)⟩

end Module

end LichenVm
