import LichenVm.BlockTree

namespace LichenVm

open DisjointSet LexicalScope LinkedList SlotMap

namespace Module

variable {P : Program}

/-- What the walk of a collect does to a module: classes, owners, summaries and scopes stay,
and a node or function it re-homes goes to `target`, which lists the node. -/
structure Relocates (target : BlockId) (m m' : Module P) : Prop where
  slots : m'.nodes.slots.length = m.nodes.slots.length
  nodes : Compresses m.nodes m'.nodes
  owner : ∀ node, m'.ownerOf node = m.ownerOf node
  summary : ∀ node, m'.summaryOf node = m.summaryOf node
  functionSlots : m'.functions.slots.length = m.functions.slots.length
  function : ∀ function, ∃ home : Function → BlockId, m'.functions.get function =
    (m.functions.get function).map fun entry => { entry with block := home entry }
  blockLive : ∀ block, m'.blocks.containsKey block = m.blocks.containsKey block
  tree : m.blocks.containsKey target = true →
    BlockTree (fun _ => False) m → BlockTree (fun _ => False) m'

namespace Relocates

variable {target : BlockId}

theorem refl (m : Module P) : Relocates target m m where
  slots := rfl
  nodes := Compresses.refl _
  owner _ := rfl
  summary _ := rfl
  functionSlots := rfl
  function function := ⟨Function.block, by cases m.functions.get function <;> rfl⟩
  blockLive _ := rfl
  tree _ tree := tree

theorem trans {first second third : Module P} (one : Relocates target first second)
    (two : Relocates target second third) : Relocates target first third where
  slots := two.slots.trans one.slots
  nodes := one.nodes.trans two.nodes
  owner node := (two.owner node).trans (one.owner node)
  summary node := (two.summary node).trans (one.summary node)
  functionSlots := two.functionSlots.trans one.functionSlots
  function function := by
    obtain ⟨home, left⟩ := one.function function
    obtain ⟨home', right⟩ := two.function function
    refine ⟨fun entry => home' { entry with block := home entry }, ?_⟩
    rw [right, left]
    cases first.functions.get function <;> rfl
  blockLive block := (two.blockLive block).trans (one.blockLive block)
  tree live tree := two.tree (by rw [one.blockLive]; exact live) (one.tree live tree)

theorem andThen {first second third : Module P} (formed : WellFormed first.nodes)
    (one : Relocates target first second)
    (two : WellFormed second.nodes → Relocates target second third) :
    Relocates target first third :=
  one.trans (two (formed.compresses one.nodes))

theorem ofKeepsSummaries {m m' : Module P} (keeps : KeepsSummaries m m') : Relocates target m m' where
  slots := keeps.slots
  nodes := keeps.nodes
  owner := keeps.owner
  summary := keeps.summary
  functionSlots := by rw [keeps.functions]
  function function :=
    ⟨Function.block, by rw [keeps.functions]; cases m.functions.get function <;> rfl⟩
  blockLive block := by rw [keeps.blocks]
  tree _ tree := by
    refine ⟨fun node block homed => ?_, ?_, ?_, ?_⟩
    · rw [keeps.home] at homed
      rw [keeps.blocks]
      exact tree.homed node block homed
    · rw [keeps.blocks]; exact tree.parent
    · rw [keeps.blocks]; exact tree.child
    · rw [keeps.blocks]; exact tree.handedOut

theorem modifyBlock (m : Module P) (block : BlockId) (f : Block → Block)
    (parent : ∀ entry, (f entry).parent = entry.parent)
    (children : ∀ entry, (f entry).children = entry.children)
    (nodes : ∀ entry node, node ∈ entry.nodes → node ∈ (f entry).nodes) :
    Relocates target m (m.modifyBlock block f) where
  slots := rfl
  nodes := Compresses.refl _
  owner _ := rfl
  summary _ := rfl
  functionSlots := rfl
  function function := ⟨Function.block, by
    change m.functions.get function = _
    cases m.functions.get function <;> rfl⟩
  blockLive other := containsKey_modify _ _ _ _
  tree _ tree := tree.modifyBlock block f parent children nodes

end Relocates

variable {target : BlockId}

section

variable (m : Module P)

include m

theorem allocArray_relocates (items : List ArrayItem) (block : BlockId) :
    Relocates target m (m.allocArray items block).2 :=
  Relocates.modifyBlock m block _ (fun _ => rfl) (fun _ => rfl) (fun _ _ listed => listed)

theorem allocTable_relocates (items : List TableItem) (block : BlockId) :
    Relocates target m (m.allocTable items block).2 :=
  Relocates.modifyBlock m block _ (fun _ => rfl) (fun _ => rfl) (fun _ _ listed => listed)

theorem copyExt_relocates (value : P.Ext) (block : BlockId) :
    Relocates target m (m.copyExt value block).2 := by
  simp only [copyExt]
  split
  · exact Relocates.refl m
  · exact Relocates.modifyBlock m block _ (fun _ => rfl) (fun _ => rfl) (fun _ _ listed => listed)

section

variable (node : NodeId)

theorem setNodeValue_relocates (value : Option (Value P)) :
    Relocates target m (m.setNodeValue node value) :=
  Relocates.ofKeepsSummaries (setNodeValue_keepsSummaries m node value)

theorem relocateClassValue_relocates : Relocates target m (m.relocateClassValue node) := by
  simp only [relocateClassValue]
  split
  · exact Relocates.refl m
  · split
    · split
      · exact Relocates.refl m
      · exact (allocArray_relocates _ _ _).trans (setNodeValue_relocates _ _ _)
    · exact (allocTable_relocates _ _ _).trans (setNodeValue_relocates _ _ _)
    · exact (copyExt_relocates _ _ _).trans (setNodeValue_relocates _ _ _)
    · exact Relocates.refl m

/-- Re-homing a node to `target`, which lists it already. -/
theorem rehome_relocates (listed : ∀ entry, m.blocks.get target = some entry → node ∈ entry.nodes) :
    Relocates target m (m.modifyNode node fun entry => { entry with block := target }) := by
  have same : ∀ {α : Type} (read : Node P → α),
      (∀ entry block, read { entry with block } = read entry) → ∀ key,
      ((m.modifyNode node fun entry => { entry with block := target }).nodes.get key).map read =
        (m.nodes.get key).map read := by
    intro α read apart key
    simp only [modifyNode, get_modify]
    split
    · cases m.nodes.get key <;> simp [apart]
    · rfl
  have links_same : ∀ key, links (m.modifyNode node fun entry =>
      { entry with block := target }).nodes key = links m.nodes key :=
    same Node.equality fun _ _ => rfl
  refine
    { slots := slots_length_modify _ _ _
      nodes := Compresses.of_links links_same
      owner := fun key => bind_eq_of_map_eq _ (same Node.function (fun _ _ => rfl) key)
      summary := fun key => bind_eq_of_map_eq _ (same Node.scopeSummary (fun _ _ => rfl) key)
      functionSlots := rfl
      function := (Relocates.refl m : Relocates target m m).function
      blockLive := fun _ => rfl
      tree := fun live tree => ⟨?_, tree.parent, tree.child, tree.handedOut⟩ }
  intro key home homed
  by_cases moved : key = node
  · obtain ⟨entry, found⟩ := (containsKey_eq_true _ _).1 live
    have target_home : home = target := by
      simp only [homeOf, modifyNode, moved, get_modify_self, Option.map_map] at homed
      obtain ⟨_, -, rfl⟩ := Option.map_eq_some_iff.1 homed
      rfl
    rw [target_home, moved]
    exact ⟨entry, found, listed entry found⟩
  · have stays : m.homeOf key = some home := by
      simpa [homeOf, modifyNode, get_modify_of_ne _ _ _ _ moved] using homed
    exact tree.homed key home stays

end

end

end Module

namespace Walk

variable {P : Program} {target : BlockId}

open Module

variable (w : Walk P)

theorem classWalk_relocates (formed : WellFormed w.module.nodes) (node : NodeId) :
    Relocates target w.module (w.classWalk node).2.module := by
  have found := find_keeps formed node
  simp only [classWalk]
  split <;> exact Relocates.ofKeepsSummaries found

theorem moveNode_relocates (node : NodeId) :
    Relocates target w.module (w.moveNode node target).module := by
  have pushed : Relocates target w.module (w.module.modifyBlock target fun entry =>
      { entry with nodes := entry.nodes ++ [node] }) :=
    Relocates.modifyBlock _ _ _ (fun _ => rfl) (fun _ => rfl)
      (fun _ _ listed => List.mem_append_left _ listed)
  refine pushed.trans (rehome_relocates _ node fun entry found => ?_)
  simp only [modifyBlock, get_modify_self] at found
  obtain ⟨_, -, rfl⟩ := Option.map_eq_some_iff.1 found
  simp

theorem moveFunction_relocates (function : FunctionId) (source : BlockId) :
    Relocates target w.module (w.moveFunction function source target).module := by
  have rehomed : Relocates target w.module
      (w.module.modifyFunction function fun entry => { entry with block := target }) :=
    { slots := rfl
      nodes := Compresses.refl _
      owner := fun _ => rfl
      summary := fun _ => rfl
      functionSlots := slots_length_modify _ _ _
      function := fun other => by
        simp only [modifyFunction, get_modify]
        split
        · exact ⟨fun _ => target, rfl⟩
        · exact (Relocates.refl w.module : Relocates target _ _).function other
      blockLive := fun _ => rfl
      tree := fun _ tree => ⟨tree.homed, tree.parent, tree.child, tree.handedOut⟩ }
  simp only [moveFunction]
  split
  · exact Relocates.refl _
  · split
    · exact rehomed.trans (Relocates.modifyBlock _ _ _ (fun _ => rfl) (fun _ => rfl)
        (fun _ _ listed => listed))
    · exact Relocates.refl _

theorem moveHeld_relocates (source : BlockId) (value : Option (Value P)) :
    Relocates target w.module (w.moveHeld source target value).module := by
  simp only [moveHeld]
  split
  · exact moveFunction_relocates w _ source
  · exact Relocates.refl _

theorem relocate_relocates (node : NodeId) (value : Option (Value P)) :
    Relocates target w.module (w.relocate node target value).module := by
  simp only [relocate]
  split
  · split
    · exact setNodeValue_relocates _ _ _
    · exact (allocArray_relocates _ _ _).trans (setNodeValue_relocates _ _ _)
  · exact (allocTable_relocates _ _ _).trans (setNodeValue_relocates _ _ _)
  · exact (copyExt_relocates _ _ _).trans (setNodeValue_relocates _ _ _)
  · exact setNodeValue_relocates _ _ _
  · exact Relocates.refl _

theorem foldl_relocates (target : BlockId) {α : Type} (step : Walk P → α → Walk P)
    (each : ∀ w : Walk P, WellFormed w.module.nodes → ∀ item,
      Relocates target w.module (step w item).module) (items : List α) :
    ∀ w : Walk P, WellFormed w.module.nodes →
      Relocates target w.module (items.foldl step w).module := by
  induction items with
  | nil => exact fun w _ => Relocates.refl _
  | cons item items ih => exact fun w formed => (each w formed item).andThen formed (ih _)

theorem collectMember_relocates {walk : Walk P → NodeId → Walk P}
    (each : ∀ w : Walk P, WellFormed w.module.nodes → ∀ node,
      Relocates target w.module (walk w node).module) (source : BlockId) (w : Walk P)
    (formed : WellFormed w.module.nodes) (member : NodeId) :
    Relocates target w.module (collectMember walk source w member).module := by
  refine (each w formed member).andThen formed fun _ => ?_
  simp only [collectMember]
  split
  · exact Relocates.refl _
  · exact relocateClassValue_relocates _ _

theorem collectNode_relocates (target : BlockId) (fuel : Nat) (source : BlockId) : ∀ w : Walk P,
    WellFormed w.module.nodes → ∀ node,
      Relocates target w.module (collectNode fuel source target w node).module := by
  induction fuel with
  | zero => exact fun w _ _ => Relocates.refl _
  | succ fuel ih =>
    intro w formed node
    have edges := foldl_relocates target (collectNode fuel source target) ih
    simp only [collectNode]
    split
    · exact Relocates.refl _
    · refine (classWalk_relocates { w with visited := node :: w.visited } formed
        node).andThen formed fun formed => ?_
      generalize classWalk _ node = entered at formed ⊢
      obtain ⟨members, w⟩ := entered
      generalize w.module.homedIn source node = inside
      have moved : Relocates target w.module
          (if inside then w.moveNode node target else w).module := by
        split
        · exact moveNode_relocates w node
        · exact Relocates.refl _
      refine moved.andThen formed fun formed => ?_
      generalize (if inside then w.moveNode node target else w) = w at formed ⊢
      refine (foldl_relocates target (collectMember (collectNode fuel source target) source)
        (collectMember_relocates ih source) members w formed).andThen formed fun formed => ?_
      generalize List.foldl (collectMember _ source) w members = w at formed ⊢
      refine (edges (owedOperand w.module node) w formed).andThen formed fun formed => ?_
      generalize List.foldl (collectNode fuel source target) w (owedOperand w.module node) = w'
        at formed ⊢
      refine (edges (w'.module.fieldSources.get node).toList w' formed).andThen formed
        fun formed => ?_
      generalize List.foldl (collectNode fuel source target) w'
        (w'.module.fieldSources.get node).toList = w'' at formed ⊢
      generalize (w.module.nodes.get node).bind Node.value = current
      refine (edges (valueEdges w''.module inside current) w'' formed).andThen formed
        fun formed => ?_
      generalize List.foldl (collectNode fuel source target) w''
        (valueEdges w''.module inside current) = last at formed ⊢
      split
      · exact (moveHeld_relocates last source current).trans (relocate_relocates _ _ _)
      · exact Relocates.refl _

end Walk

namespace Module

variable {P : Program}

theorem collectWalk_relocates {m : Module P} (formed : WellFormed m.nodes) (blockRoot : NodeId)
    (source target : BlockId) : Relocates target m (m.collectWalk blockRoot source target).2 := by
  have each := Walk.collectNode_relocates (P := P) target (m.nodeBound + 2) source
  simp only [collectWalk]
  refine (each { module := m } formed blockRoot).andThen formed fun formed => ?_
  generalize Walk.collectNode (m.nodeBound + 2) source target { module := m } blockRoot = w at formed ⊢
  have conditions : ∀ w : Walk P, WellFormed w.module.nodes → ∀ condition, Relocates target w.module
      (collectCondition (Walk.collectNode (m.nodeBound + 2) source target) source w condition).module := by
    intro w formed condition
    simp only [collectCondition]
    split
    · exact each w formed condition
    · exact Relocates.refl _
  exact (Walk.foldl_relocates target _ conditions (w.module.asserts.map PendingAssert.condition) w
    formed).andThen formed fun formed => Walk.foldl_relocates target _ each _ _ formed

end Module

end LichenVm
