import LichenVm.ScopeTree
import LichenVm.UnifyFrames

open Option

namespace LichenVm

open DisjointSet LexicalScope LinkedList SlotMap Module

/-- A call that changes a module's classes, owners, scopes or blocks. -/
inductive Op (P : Program) where
  | addBlock (parent : Option BlockId)
  | addNode (block : BlockId) (operation : Option (Operation P)) (value : Option (Value P))
  | beginFunction (block : BlockId) (parent : Option FunctionId)
  | registerInFunction (function : FunctionId) (node : NodeId)
  | setNodeOwner (node : NodeId) (owner : Option FunctionId)
  | setFunctionParent (function : FunctionId) (parent : Option FunctionId)
  | addEquality (a b : NodeId)
  | unify (a b : NodeId)
  | garbageCollect (blockRoot : NodeId)
  | dropBlock (block : BlockId)

namespace Module

variable {P : Program}

/-- Whether the module ever handed out this function id: a removed function's still counts. -/
def functionOut (m : Module P) (function : FunctionId) : Bool :=
  function.index ≤ m.functions.slots.length

/-- Whether `below` hangs under `function`, or is `function`, by their scopes. -/
def scopeEncloses (m : Module P) (function below : FunctionId) : Bool :=
  match m.functionScope function, m.functionScope below with
  | some root, some scope => root.isAncestorOrSelf scope
  | _, _ => false

/-- The drop a collect ends with: the block it vacates, in the state its walk leaves. -/
def collectRelease (m : Module P) (blockRoot : NodeId) : Option (Module P × BlockId) :=
  (m.vacates blockRoot).map fun (source, target) => ((m.collectWalk blockRoot source target).2, source)

end Module

namespace Op

variable {P : Program}

/-- Run one call. A call that names a node, block or function the module does not hold
panics, and one that is handed an id the module never made is no call: `none`. -/
def run (m : Module P) : Op P → Option (Module P)
  | addBlock parent =>
    if parent.all m.blocks.containsKey then some (m.addBlock parent).2 else none
  | addNode block operation value =>
    if m.blocks.containsKey block then some (m.addNode block operation value).2 else none
  | beginFunction block parent =>
    if m.blocks.containsKey block ∧ parent.all m.functionOut then
      (m.beginFunction block parent).map Prod.snd
    else none
  | registerInFunction function node =>
    if m.functions.containsKey function ∧ m.nodes.containsKey node then
      some (m.registerInFunction function node)
    else none
  | setNodeOwner node owner =>
    if m.nodes.containsKey node ∧ owner.all m.functionOut then some (m.setNodeOwner node owner)
    else none
  | setFunctionParent function parent =>
    if m.functions.containsKey function ∧ parent.all m.functionOut then
      m.setFunctionParent function parent
    else none
  | addEquality a b =>
    if m.nodes.containsKey a ∧ m.nodes.containsKey b then some (m.addEquality a b).2 else none
  | unify a b => (m.unify a b).map Prod.snd
  | garbageCollect blockRoot =>
    if m.nodes.containsKey blockRoot then some (m.garbageCollect blockRoot).2 else none
  | dropBlock block =>
    if m.blocks.containsKey block then some (m.dropBlock block) else none

/-- Whether a re-parenting keeps the functions a tree: the new parent is not below. -/
def keepsTree (m : Module P) : Op P → Bool
  | setFunctionParent function parent => parent.all fun up => !m.scopeEncloses function up
  | _ => true

/-- The block drop a call makes, and the state it makes it in. -/
def release (m : Module P) : Op P → Option (Module P × BlockId)
  | garbageCollect blockRoot => m.collectRelease blockRoot
  | dropBlock block => some (m, block)
  | _ => none

/-- Every block drop the call makes satisfies `holds` in the state it is made in. -/
def releasesWith (holds : Module P → BlockId → Bool) (m : Module P) (op : Op P) : Bool :=
  match op.release m with
  | some (now, block) => holds now block
  | none => true

end Op

/-- The states a module reaches from its start by calls that `admits` lets through. -/
inductive Reaches {P : Program} (admits : Module P → Op P → Bool) : Module P → Prop
  | start (registry : Registry P) : Reaches admits { registry }
  | step {m m' : Module P} (op : Op P) (reached : Reaches admits m) (admitted : admits m op = true)
      (ran : op.run m = some m') : Reaches admits m'

namespace Reaches

variable {P : Program}

/-- Run a list of calls, each one admitted. -/
def runAll (admits : Module P → Op P → Bool) : List (Op P) → Module P → Option (Module P)
  | [], m => some m
  | op :: ops, m => if admits m op then (op.run m).bind (runAll admits ops) else none

theorem of_runAll {admits : Module P → Op P → Bool} {m m' : Module P} (ops : List (Op P))
    (reached : Reaches admits m) (ran : runAll admits ops m = some m') : Reaches admits m' := by
  induction ops generalizing m with
  | nil =>
    cases ran
    exact reached
  | cons op ops ih =>
    simp only [runAll] at ran
    split at ran
    · next admitted =>
      obtain ⟨middle, first, rest⟩ := bind_eq_some_iff.1 ran
      exact ih (reached.step op admitted first) rest
    · cases ran

end Reaches

/-- What one call does to the nodes and their owners' scopes. -/
inductive Effect {P : Program} (op : Op P) (m m' : Module P) : Prop where
  | framed (nodes : m'.nodes = m.nodes) (owners : ∀ node, m'.ownerScope node = m.ownerScope node)
  | adds (block : BlockId) (node : NodeId) (adds : Module.AddsNode block node m m')
  | owns (node : NodeId) (owner : Option FunctionId) (middle : Module P)
      (sets : Module.SetsOwner node owner m middle) (nodes : m'.nodes = middle.nodes)
      (owners : ∀ other, m'.ownerScope other = middle.ownerScope other)
  | rescopes (nodes : Compresses m.nodes m'.nodes)
      (folded : ∀ root rest, IsClass m'.nodes root rest → m'.Folded root rest)
  | equates (ra rb : NodeId) (la lb : List NodeId) (root : NodeId) (rest : List NodeId)
      (one : IsClass m.nodes ra la) (two : IsClass m.nodes rb lb)
      (equates : Module.Equates m m' ra la rb lb root rest)
  | unifies (steps : Module.Unifies m m')
  | releases (now : Module P) (block target : BlockId) (entry : Block)
      (release : op.release m = some (now, block)) (live : now.blocks.get block = some entry)
      (consistent : Module.Consistent now) (walk : Module.Relocates target m now)
      (nodes : m'.nodes = (now.dropBlock block).nodes)
      (owners : ∀ node, m'.ownerScope node = (now.dropBlock block).ownerScope node)

namespace Module

variable {P : Program}

theorem scopeEncloses_eq_false {m : Module P} {function below : FunctionId}
    (apart : m.scopeEncloses function below = false) {root scope : Scope FunctionId}
    (held : m.functionScope function = some root) (held' : m.functionScope below = some scope) :
    root.isAncestorOrSelf scope = false := by
  simpa [scopeEncloses, held, held'] using apart

theorem Consistent.equates {m m' : Module P} (consistent : Consistent m) {ra rb root : NodeId}
    {la lb rest : List NodeId} (one : IsClass m.nodes ra la) (two : IsClass m.nodes rb lb)
    (equates : Equates m m' ra la rb lb root rest) : Consistent m' :=
  consistent.of_frame equates.toFrame (equates.wellFormed consistent.formed one two)

theorem Unifies.carry {m m' : Module P} (steps : Unifies m m') (Inv : Module P → Prop)
    (consistent : Consistent m) (inv : Inv m)
    (keeps : ∀ middle next, Consistent middle → Inv middle → KeepsSummaries middle next → Inv next)
    (equates : ∀ middle next ra la rb lb root rest, Consistent middle → Inv middle →
      IsClass middle.nodes ra la → IsClass middle.nodes rb lb →
      Equates middle next ra la rb lb root rest → Inv next) :
    Consistent m' ∧ Inv m' := by
  induction steps with
  | refl => exact ⟨consistent, inv⟩
  | keeps _ step ih => exact ⟨ih.1.of_keeps step.toKeeps, keeps _ _ ih.1 ih.2 step⟩
  | equates _ one two step ih =>
    exact ⟨ih.1.equates one two step, equates _ _ _ _ _ _ _ _ ih.1 ih.2 one two step⟩

/-- A collect that vacates a block walks into its live parent, and then drops it. -/
theorem collects_of_vacates {m : Module P} (consistent : Consistent m) {blockRoot : NodeId}
    {home up : BlockId} (vacated : m.vacates blockRoot = some (home, up)) :
    m.blocks.containsKey up ∧ Relocates up m (m.collectWalk blockRoot home up).2 ∧
      (m.collectWalk blockRoot home up).2.blocks.containsKey home ∧
      (m.garbageCollect blockRoot).2 =
        ((m.collectWalk blockRoot home up).2.dropBlock home).pruneReleasedRecords := by
  obtain ⟨home', homed, parent⟩ := bind_eq_some_iff.1 vacated
  obtain ⟨up', hangs, same⟩ := map_eq_some_iff.1 parent
  obtain ⟨rfl, rfl⟩ := Prod.mk.inj same
  obtain ⟨entry, found, hangs'⟩ := bind_eq_some_iff.1 hangs
  obtain ⟨outer, above, -, -⟩ := consistent.tree.parent home' entry up' found hangs'
  have walk := collectWalk_relocates consistent.formed blockRoot home' up'
  refine ⟨by simp [containsKey, above], walk, ?_, by simp [garbageCollect, vacated]⟩
  rw [walk.blockLive]
  simp [containsKey, found]

/-- A collect vacates a live block into its live parent, or changes nothing. -/
theorem garbageCollect_effect {m : Module P} (consistent : Consistent m) (blockRoot : NodeId) :
    Consistent (m.garbageCollect blockRoot).2 ∧
      Effect (.garbageCollect blockRoot) m (m.garbageCollect blockRoot).2 := by
  cases vacated : m.vacates blockRoot with
  | none =>
    have same : (m.garbageCollect blockRoot).2 = m := by simp [garbageCollect, vacated]
    rw [same]
    exact ⟨consistent, .framed rfl fun _ => rfl⟩
  | some homes =>
    obtain ⟨home, up⟩ := homes
    obtain ⟨live, walk, stands, shape⟩ := collects_of_vacates consistent vacated
    have walked := consistent.of_relocates live walk
    obtain ⟨entry', found'⟩ := (containsKey_eq_true _ _).1 stands
    obtain ⟨dropped, -, -⟩ := walked.dropBlock found' (fun _ => True) trivial
      (fun _ _ _ => trivial) (fun _ _ _ _ _ _ _ _ => trivial)
    rw [shape]
    refine ⟨dropped.of_records rfl rfl rfl, .releases _ home up entry' ?_ found' walked walk rfl
      fun _ => rfl⟩
    simp [Op.release, collectRelease, vacated]

end Module

/-- Every call keeps the module consistent, and does one of the things listed. -/
theorem Op.run_effect {P : Program} {m m' : Module P} (consistent : Module.Consistent m) (op : Op P)
    (tree : op.keepsTree m) (ran : op.run m = some m') :
    Module.Consistent m' ∧ Effect op m m' := by
  cases op with
  | addBlock parent =>
    simp only [run, ite_none_right_eq_some, some.injEq] at ran
    obtain ⟨live, rfl⟩ := ran
    refine ⟨consistent.addBlock parent ?_, .framed ?_ ?_⟩
    · rintro up rfl
      exact live
    · cases parent <;> rfl
    · intro node
      cases parent <;> rfl
  | addNode block operation value =>
    simp only [run, ite_none_right_eq_some, some.injEq] at ran
    obtain ⟨live, rfl⟩ := ran
    have adds := addNode_adds m block operation value
    exact ⟨adds.consistent consistent live, .adds block _ adds⟩
  | beginFunction block parent =>
    simp only [run, ite_none_right_eq_some, map_eq_some_iff] at ran
    obtain ⟨⟨live, out⟩, ⟨function, made⟩, began, rfl⟩ := ran
    obtain ⟨consistent', owners⟩ := consistent.beginFunction began (by
      rintro up rfl
      simpa [functionOut] using out)
    obtain ⟨-, nodes, -⟩ := beginFunction_spec began
    exact ⟨consistent', .framed nodes owners⟩
  | registerInFunction function node =>
    simp only [run, ite_none_right_eq_some, some.injEq] at ran
    obtain ⟨⟨alive, live⟩, rfl⟩ := ran
    have sets := setNodeOwner_sets consistent.formed node (some function) live
    obtain ⟨entry, found⟩ := (containsKey_eq_true _ _).1 alive
    refine ⟨(sets.consistent consistent ?_).listNode function node,
      .owns node (some function) _ sets rfl (ownerScope_listNode _ function node)⟩
    rintro other same
    cases same
    exact index_le_of_get _ _ _ found
  | setNodeOwner node owner =>
    simp only [run, ite_none_right_eq_some, some.injEq] at ran
    obtain ⟨⟨live, out⟩, rfl⟩ := ran
    have sets := setNodeOwner_sets consistent.formed node owner live
    refine ⟨sets.consistent consistent ?_, .owns node owner _ sets rfl fun _ => rfl⟩
    rintro function rfl
    simpa [functionOut] using out
  | setFunctionParent function parent =>
    simp only [run, ite_none_right_eq_some] at ran
    obtain ⟨⟨live, out⟩, made⟩ := ran
    obtain ⟨consistent', nodes, folded⟩ := setFunctionParent_spec consistent live (by
        rintro up rfl
        simpa [functionOut] using out) (by
        rintro up rfl root scope held held'
        exact scopeEncloses_eq_false (by simpa [keepsTree] using tree) held held') made
    exact ⟨consistent', .rescopes nodes folded⟩
  | addEquality a b =>
    simp only [run, ite_none_right_eq_some, some.injEq] at ran
    obtain ⟨⟨live, live'⟩, rfl⟩ := ran
    obtain ⟨ra, la, one, left⟩ := consistent.formed a (by rw [links_isSome, live])
    obtain ⟨rb, lb, two, right⟩ := consistent.formed b (by rw [links_isSome, live'])
    obtain ⟨root, rest, equates⟩ := addEquality_spec one left two right
    exact ⟨consistent.equates one two equates, .equates ra rb la lb root rest one two equates⟩
  | unify a b =>
    obtain ⟨⟨representative, last⟩, unified, rfl⟩ := map_eq_some_iff.1 ran
    have steps := unify_unifies consistent.formed unified
    obtain ⟨consistent', -⟩ := steps.carry (fun _ => True) consistent trivial
      (fun _ _ _ _ _ => trivial) (fun _ _ _ _ _ _ _ _ _ _ _ _ _ => trivial)
    exact ⟨consistent', .unifies steps⟩
  | garbageCollect blockRoot =>
    simp only [run, ite_none_right_eq_some, some.injEq] at ran
    obtain ⟨live, rfl⟩ := ran
    exact garbageCollect_effect consistent blockRoot
  | dropBlock block =>
    simp only [run, ite_none_right_eq_some, some.injEq] at ran
    obtain ⟨live, rfl⟩ := ran
    obtain ⟨entry, found⟩ := (containsKey_eq_true _ _).1 live
    obtain ⟨dropped, -, -⟩ := consistent.dropBlock found (fun _ => True) trivial
      (fun _ _ _ => trivial) (fun _ _ _ _ _ _ _ _ => trivial)
    exact ⟨dropped, .releases m block block entry rfl found consistent
      (Module.Relocates.refl m) rfl fun _ => rfl⟩

theorem Reaches.consistent {P : Program} {admits : Module P → Op P → Bool} {m : Module P}
    (reached : Reaches admits m) (tree : ∀ m op, admits m op → op.keepsTree m) :
    Module.Consistent m := by
  induction reached with
  | start registry => exact Module.Consistent.start registry
  | step op _ admitted ran ih => exact (op.run_effect ih (tree _ op admitted) ran).1

/-- The classes after a run of equalities are those of the least equivalence that has the classes
before it and the equalities. -/
theorem Module.classes_generated {P : Program} {m : Module P} (formed : WellFormed m.nodes)
    (pairs : List (NodeId × NodeId))
    (live : ∀ pair ∈ pairs, m.nodes.containsKey pair.1 ∧ m.nodes.containsKey pair.2) {x y : NodeId}
    (left : m.nodes.containsKey x) (right : m.nodes.containsKey y) :
    let m' := pairs.foldl (fun m pair => (m.addEquality pair.1 pair.2).2) m
    m'.classRoot x = m'.classRoot y ↔ ∀ E : NodeId → NodeId → Prop, Equivalence E →
      (∀ u v, m.nodes.containsKey u → m.nodes.containsKey v → m.classRoot u = m.classRoot v →
        E u v) → (∀ pair ∈ pairs, E pair.1 pair.2) → E x y := by
  induction pairs generalizing m with
  | nil =>
    refine ⟨fun same E _ classes _ => classes x y left right same, fun all => ?_⟩
    exact all _ (InvImage.equivalence _ m.classRoot eq_equivalence) (fun _ _ _ _ same => same) nofun
  | cons pair pairs ih =>
    obtain ⟨liveA, liveB⟩ := live pair List.mem_cons_self
    obtain ⟨formed', lives, root, inside, roots⟩ := addEquality_classRoot formed liveA liveB
    have rest := ih formed' (fun other member => by
      rw [lives, lives]
      exact live other (List.mem_cons_of_mem pair member)) (by rwa [lives]) (by rwa [lives])
    refine rest.trans (forall₂_congr fun E equivalence => ?_)
    simp only [lives, List.forall_mem_cons]
    constructor
    · intro all classes pairs
      refine all (fun u v liveU liveV same => ?_) pairs.2
      have joined : ∀ u, m.nodes.containsKey u → (m.classRoot u = m.classRoot pair.1 ∨
          m.classRoot u = m.classRoot pair.2) → E pair.1 u := by
        rintro u liveU (same | same)
        · exact classes _ _ liveA liveU same.symm
        · exact equivalence.trans pairs.1 (classes _ _ liveB liveU same.symm)
      have top : ∀ u, m.nodes.containsKey u → root = m.classRoot u →
          m.classRoot u = m.classRoot pair.1 ∨ m.classRoot u = m.classRoot pair.2 := by
        intro u liveU same
        obtain ⟨_, cls, -⟩ := exists_isClass formed liveU
        rwa [same, classRoot_eq cls cls.root_mem] at inside
      rw [roots u liveU, roots v liveV] at same
      split at same <;> split at same
      · exact equivalence.trans (equivalence.symm (joined u liveU ‹_›)) (joined v liveV ‹_›)
      · exact absurd (top v liveV same) ‹_›
      · exact absurd (top u liveU same.symm) ‹_›
      · exact classes u v liveU liveV same
    · intro all classes pairs
      refine all (fun u v liveU liveV same => ?_) ⟨classes _ _ liveA liveB ?_, pairs⟩
      · refine classes u v liveU liveV ?_
        rw [roots u liveU, roots v liveV, same]
      · rw [roots _ liveA, roots _ liveB, if_pos (.inl rfl), if_pos (.inr rfl)]

theorem Module.classes_generated_chain : ∃ m : Module .plain,
    Reaches (fun m op => op.keepsTree m) m ∧
      let m' := ((m.addEquality ⟨1⟩ ⟨2⟩).2.addEquality ⟨3⟩ ⟨2⟩).2
      m'.classRoot ⟨1⟩ = m'.classRoot ⟨3⟩ := by
  let ops : List (Op .plain) := .addBlock none :: .replicate 3 (.addNode ⟨1⟩ none none)
  obtain ⟨m, ran⟩ := isSome_iff_exists.1
    (by decide : (Reaches.runAll (fun m op => op.keepsTree m) ops {}).isSome)
  have held : (Reaches.runAll (fun m op => op.keepsTree m) ops {}).map (fun m =>
      (m.nodes.containsKey ⟨1⟩, m.nodes.containsKey ⟨2⟩, m.nodes.containsKey ⟨3⟩)) =
        some (true, true, true) := by decide
  rw [ran] at held
  obtain ⟨one, rest⟩ := Prod.mk.inj (some.inj held)
  obtain ⟨two, three⟩ := Prod.mk.inj rest
  have reached := Reaches.of_runAll ops (.start {}) ran
  refine ⟨m, reached, (classes_generated (reached.consistent fun _ _ kept => kept).formed
    [(⟨1⟩, ⟨2⟩), (⟨3⟩, ⟨2⟩)] ?_ one three).2 fun E equivalence _ pairs => ?_⟩
  · exact List.forall_mem_cons.2 ⟨⟨one, two⟩, List.forall_mem_singleton.2 ⟨three, two⟩⟩
  · obtain ⟨first, second⟩ := List.forall_mem_cons.1 pairs
    exact equivalence.trans first (equivalence.symm (second _ List.mem_cons_self))

end LichenVm
