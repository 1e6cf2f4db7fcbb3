import LichenVm.Collect
import LichenVm.ReleaseFrames

open List Option

namespace LichenVm

open DisjointSet LexicalScope LinkedList SlotMap

namespace Module

variable {P : Program}

/-- The block tree: every live node is listed by its home, and every live block by its
parent, which was made before it. The children of an `opened` block were taken from its list. -/
structure BlockTree (opened : BlockId → Prop) (m : Module P) : Prop where
  homed : ∀ node block, m.homeOf node = some block →
    ∃ entry, m.blocks.get block = some entry ∧ node ∈ entry.nodes
  parent : ∀ block entry up, m.blocks.get block = some entry → entry.parent = some up →
    ∃ outer, m.blocks.get up = some outer ∧ up.index < block.index ∧
      (opened up ∨ block ∈ outer.children)
  child : ∀ block entry child inner, m.blocks.get block = some entry → child ∈ entry.children →
    m.blocks.get child = some inner → inner.parent = some block
  handedOut : ∀ block entry child, m.blocks.get block = some entry → child ∈ entry.children →
    child.index ≤ m.blocks.slots.length

/-- `m'` has no block that `m` lacks, and each hangs where it did. -/
structure Shrinks (m m' : Module P) : Prop where
  slots : m'.blocks.slots.length = m.blocks.slots.length
  block : ∀ block entry, m'.blocks.get block = some entry →
    ∃ before, m.blocks.get block = some before ∧ entry.parent = before.parent

namespace Shrinks

theorem refl (m : Module P) : Shrinks m m :=
  ⟨rfl, fun _ entry found => ⟨entry, found, rfl⟩⟩

theorem trans {first second third : Module P} (one : Shrinks first second)
    (two : Shrinks second third) : Shrinks first third where
  slots := two.slots.trans one.slots
  block block entry found := by
    obtain ⟨middle, found', same⟩ := two.block block entry found
    obtain ⟨before, found'', same'⟩ := one.block block middle found'
    exact ⟨before, found'', same.trans same'⟩

end Shrinks

theorem openBlock_shrinks (m : Module P) (block : BlockId) : Shrinks m (m.openBlock block) := by
  refine ⟨slots_length_modify _ _ _, fun other entry found => ?_⟩
  simp only [openBlock, modifyBlock, get_modify] at found
  split at found
  · obtain ⟨before, found', rfl⟩ := map_eq_some_iff.1 found
    exact ⟨before, found', rfl⟩
  · exact ⟨entry, found, rfl⟩

variable {opened : BlockId → Prop} {m : Module P}

/-- A write to a block that leaves its place in the tree and every node it lists. -/
theorem BlockTree.modifyBlock (tree : BlockTree opened m)
    (block : BlockId) (f : Block → Block) (parent : ∀ entry, (f entry).parent = entry.parent)
    (children : ∀ entry, (f entry).children = entry.children)
    (nodes : ∀ entry node, node ∈ entry.nodes → node ∈ (f entry).nodes) :
    BlockTree opened (m.modifyBlock block f) := by
  have gets : ∀ other entry, (m.modifyBlock block f).blocks.get other = some entry →
      ∃ before, m.blocks.get other = some before ∧ entry.parent = before.parent ∧
        entry.children = before.children := by
    intro other entry found
    simp only [Module.modifyBlock, get_modify] at found
    split at found
    · obtain ⟨before, found', rfl⟩ := map_eq_some_iff.1 found
      exact ⟨before, found', parent before, children before⟩
    · exact ⟨entry, found, rfl, rfl⟩
  have puts : ∀ other before, m.blocks.get other = some before →
      ∃ entry, (m.modifyBlock block f).blocks.get other = some entry ∧
        entry.children = before.children ∧ ∀ node ∈ before.nodes, node ∈ entry.nodes := by
    intro other before found
    simp only [Module.modifyBlock, get_modify, found]
    split
    · exact ⟨_, rfl, children before, nodes before⟩
    · exact ⟨before, rfl, rfl, fun _ listed => listed⟩
  refine ⟨?_, ?_, ?_, ?_⟩
  · intro node home homed
    obtain ⟨before, found, listed⟩ := tree.homed node home homed
    obtain ⟨entry, found', -, kept⟩ := puts home before found
    exact ⟨entry, found', kept node listed⟩
  · intro other entry up found hangs
    obtain ⟨before, found', same, -⟩ := gets other entry found
    obtain ⟨outer, above, older, listed⟩ := tree.parent other before up found' (same ▸ hangs)
    obtain ⟨entry', found'', same', -⟩ := puts up outer above
    exact ⟨entry', found'', older, listed.imp_right fun member => same' ▸ member⟩
  · intro other entry child inner found member found'
    obtain ⟨before, found'', -, same⟩ := gets other entry found
    obtain ⟨inner', found''', same', -⟩ := gets child inner found'
    rw [same']
    exact tree.child other before child inner' found'' (same ▸ member) found'''
  · intro other entry child found member
    obtain ⟨before, found', -, same⟩ := gets other entry found
    rw [Module.modifyBlock, slots_length_modify]
    exact tree.handedOut other before child found' (same ▸ member)

theorem BlockTree.openBlock (tree : BlockTree opened m)
    (block : BlockId) : BlockTree (fun other => opened other ∨ other = block) (m.openBlock block) := by
  have gets : ∀ other entry, (m.openBlock block).blocks.get other = some entry →
      ∃ before, m.blocks.get other = some before ∧ entry.parent = before.parent ∧
        entry.nodes = before.nodes ∧ (entry.children = before.children ∨ entry.children = []) := by
    intro other entry found
    simp only [Module.openBlock, Module.modifyBlock, get_modify] at found
    split at found
    · obtain ⟨before, found', rfl⟩ := map_eq_some_iff.1 found
      exact ⟨before, found', rfl, rfl, Or.inr rfl⟩
    · exact ⟨entry, found, rfl, rfl, Or.inl rfl⟩
  have puts : ∀ other before, m.blocks.get other = some before →
      ∃ entry, (m.openBlock block).blocks.get other = some entry ∧ entry.nodes = before.nodes ∧
        (other = block ∨ entry.children = before.children) := by
    intro other before found
    simp only [Module.openBlock, Module.modifyBlock, get_modify, found]
    split
    · next same => exact ⟨_, rfl, rfl, Or.inl same⟩
    · exact ⟨before, rfl, rfl, Or.inr rfl⟩
  refine ⟨?_, ?_, ?_, ?_⟩
  · intro node home homed
    obtain ⟨before, found, listed⟩ := tree.homed node home homed
    obtain ⟨entry, found', nodes, -⟩ := puts home before found
    exact ⟨entry, found', nodes ▸ listed⟩
  · intro other entry up found hangs
    obtain ⟨before, found', parent, -⟩ := gets other entry found
    obtain ⟨outer, found'', older, listed⟩ := tree.parent other before up found' (parent ▸ hangs)
    obtain ⟨entry', found''', -, children⟩ := puts up outer found''
    refine ⟨entry', found''', older, ?_⟩
    rcases listed with taken | listed
    · exact Or.inl (Or.inl taken)
    · rcases children with same | same
      · exact Or.inl (Or.inr same)
      · exact Or.inr (same ▸ listed)
  · intro other entry child inner found member found'
    obtain ⟨before, found'', -, -, children⟩ := gets other entry found
    obtain ⟨inner', found''', parent, -⟩ := gets child inner found'
    rcases children with same | none
    · rw [parent]
      exact tree.child other before child inner' found'' (same ▸ member) found'''
    · rw [none] at member
      cases member
  · intro other entry child found member
    obtain ⟨before, found', -, -, children⟩ := gets other entry found
    rcases children with same | none
    · rw [Module.openBlock, Module.modifyBlock, slots_length_modify]
      exact tree.handedOut other before child found' (same ▸ member)
    · rw [none] at member
      cases member

variable {block : BlockId} {entry : Block}

/-- Releasing a block with no live child keeps the tree over the others. -/
theorem BlockTree.release
    (tree : BlockTree (fun other => opened other ∨ other = block) m) (formed : WellFormed m.nodes)
    (found : m.blocks.get block = some entry)
    (childless : ∀ other inner, m.blocks.get other = some inner → inner.parent ≠ some block) :
    BlockTree opened (m.releaseBlock block) := by
  have listed : ∀ node, m.homeOf node = some block → node ∈ entry.nodes := by
    intro node homed
    obtain ⟨entry', found', member⟩ := tree.homed node block homed
    cases found.symm.trans found'
    exact member
  obtain ⟨releases, slots, gets⟩ := releaseBlock_releases formed found listed
  have before : ∀ other inner, (m.releaseBlock block).blocks.get other = some inner →
      other ≠ block ∧ m.blocks.get other = some inner := by
    intro other inner found'
    rw [gets] at found'
    split at found'
    · cases found'
    · next apart => exact ⟨apart, found'⟩
  have after : ∀ other inner, other ≠ block → m.blocks.get other = some inner →
      (m.releaseBlock block).blocks.get other = some inner := by
    intro other inner apart found'
    rw [gets, if_neg apart, found']
  refine ⟨?_, ?_, ?_, ?_⟩
  · intro node home homed
    have lives : (m.releaseBlock block).nodes.containsKey node := by
      rw [← homeOf_isSome, homed]
      rfl
    rw [releases.home node lives] at homed
    obtain ⟨inner, found', member⟩ := tree.homed node home homed
    have apart : home ≠ block := by
      rintro rfl
      exact ((releases.live node).1 lives).2 homed
    exact ⟨inner, after home inner apart found', member⟩
  · intro other inner up found' hangs
    obtain ⟨-, found''⟩ := before other inner found'
    obtain ⟨outer, above, older, taken⟩ := tree.parent other inner up found'' hangs
    have apart : up ≠ block := by
      rintro rfl
      exact childless other inner found'' hangs
    refine ⟨outer, after up outer apart above, older, ?_⟩
    rcases taken with (taken | same) | member
    · exact Or.inl taken
    · exact absurd same apart
    · exact Or.inr member
  · intro other inner child below found' member found''
    exact tree.child other inner child below (before other inner found').2 member
      (before child below found'').2
  · intro other inner child found' member
    rw [slots]
    exact tree.handedOut other inner child (before other inner found').2 member

theorem releaseBlock_shrinks (formed : WellFormed m.nodes) (found : m.blocks.get block = some entry)
    (listed : ∀ node, m.homeOf node = some block → node ∈ entry.nodes) :
    Shrinks m (m.releaseBlock block) := by
  obtain ⟨-, slots, gets⟩ := releaseBlock_releases formed found listed
  refine ⟨slots, fun other inner found' => ?_⟩
  rw [gets] at found'
  split at found'
  · cases found'
  · exact ⟨inner, found', rfl⟩

/-- What a drop leaves, seen from the state `m` it starts in: no block of the dropped subtree,
and every older block as it was. -/
structure Dropped (opened : BlockId → Prop) (block : BlockId) (m m' : Module P) : Prop where
  tree : BlockTree opened m'
  shrinks : Shrinks m m'
  gone : m'.blocks.get block = none
  older : ∀ other : BlockId, other.index < block.index → m'.blocks.get other = m.blocks.get other

/-- The rule of a drop: an invariant that taking a doomed block's children keeps, and that
releasing a doomed block whose nodes are listed keeps, is one that the drop keeps. The doomed
blocks are closed under the children of the state `before` the drop. -/
structure DropRule (before : Module P) (doomed : BlockId → Prop) (Inv : Module P → Prop) : Prop where
  formed : ∀ m, Inv m → WellFormed m.nodes
  closed : ∀ block entry up, before.blocks.get block = some entry → entry.parent = some up →
    doomed up → doomed block
  opens : ∀ m block, doomed block → Inv m → Inv (m.openBlock block)
  releases : ∀ m block entry, doomed block → Inv m → m.blocks.get block = some entry →
    (∀ node, m.homeOf node = some block → node ∈ entry.nodes) → Inv (m.releaseBlock block)

variable {m' : Module P}

theorem Shrinks.dead (shrinks : Shrinks m m')
    (dead : m.blocks.get block = none) : m'.blocks.get block = none := by
  cases found : m'.blocks.get block with
  | none => rfl
  | some entry =>
    obtain ⟨_, alive, -⟩ := shrinks.block block entry found
    rw [dead] at alive
    cases alive

theorem BlockTree.listed (tree : BlockTree opened m) (found : m.blocks.get block = some entry)
    (node : NodeId)
    (homed : m.homeOf node = some block) : node ∈ entry.nodes := by
  obtain ⟨entry', found', member⟩ := tree.homed node block homed
  cases found.symm.trans found'
  exact member

variable {doomed : BlockId → Prop} {Inv : Module P → Prop}

section

variable {before : Module P} (rule : DropRule before doomed Inv)

include rule

theorem DropRule.close {last : Module P} (dooms : doomed block) (inv : Inv last)
    (tree : BlockTree (fun other => opened other ∨ other = block) last) (shrunk : Shrinks m last)
    (found : last.blocks.get block = some entry)
    (childless : ∀ other inner, last.blocks.get other = some inner → inner.parent ≠ some block)
    (older : ∀ other : BlockId, other.index < block.index →
      last.blocks.get other = m.blocks.get other) :
    Inv (last.releaseBlock block) ∧ Dropped opened block m (last.releaseBlock block) := by
  have formed := rule.formed last inv
  have listed := tree.listed found
  obtain ⟨-, -, gets⟩ := releaseBlock_releases formed found listed
  refine ⟨rule.releases last block entry dooms inv found listed,
    tree.release formed found childless,
    shrunk.trans (releaseBlock_shrinks formed found listed), ?_, ?_⟩
  · rw [gets, if_pos rfl]
  · intro other before
    have apart : other ≠ block := by
      rintro rfl
      omega
    rw [gets, if_neg apart, older other before]

theorem DropRule.dropBlockWith (fuel : Nat) :
    ∀ {opened : BlockId → Prop} {m : Module P} {block : BlockId} {entry : Block},
      Shrinks before m → Inv m → BlockTree opened m → doomed block →
      m.blocks.get block = some entry → (∀ other, opened other → other.index < block.index) →
      m.blocks.slots.length < fuel + block.index →
      Inv (dropBlockWith fuel m block) ∧ Dropped opened block m (dropBlockWith fuel m block) := by
  induction fuel with
  | zero =>
    intro opened m block entry _ _ _ _ found _ enough
    have bounded := index_le_of_get m.blocks block entry found
    omega
  | succ fuel ih =>
    intro opened m block entry shrunk inv tree dooms found above enough
    -- The loop over the children: each live one hangs under `block`, and goes.
    have loop : ∀ (children : List BlockId) (now : Module P), Shrinks (m.openBlock block) now →
        Inv now → BlockTree (fun other => opened other ∨ other = block) now →
        (∀ child ∈ children, child ∈ entry.children) →
        (∀ other : BlockId, other.index ≤ block.index →
          now.blocks.get other = (m.openBlock block).blocks.get other) →
        ∀ last, last = children.foldl (fun m child =>
          if m.blocks.containsKey child then Module.dropBlockWith fuel m child else m) now →
        Inv last ∧ BlockTree (fun other => opened other ∨ other = block) last ∧
          Shrinks now last ∧ (∀ child ∈ children, last.blocks.get child = none) ∧
          ∀ other : BlockId, other.index ≤ block.index →
            last.blocks.get other = (m.openBlock block).blocks.get other := by
      intro children
      induction children with
      | nil =>
        rintro now _ inv' tree' _ same last rfl
        exact ⟨inv', tree', Shrinks.refl _, by simp, same⟩
      | cons child children rest =>
        rintro now shrunk' inv' tree' inside same last rfl
        have inside' : ∀ other ∈ children, other ∈ entry.children := fun other member =>
          inside other (mem_cons_of_mem _ member)
        simp only [foldl_cons]
        cases lives : now.blocks.get child with
        | none =>
          have dead : now.blocks.containsKey child = false := by
            simp [containsKey, lives]
          rw [dead, if_neg Bool.false_ne_true]
          obtain ⟨inv'', tree'', shrunk'', gone, same'⟩ :=
            rest now shrunk' inv' tree' inside' same _ rfl
          exact ⟨inv'', tree'', shrunk'', forall_mem_cons.2 ⟨shrunk''.dead lives, gone⟩, same'⟩
        | some inner =>
          have alive : now.blocks.containsKey child := by
            simp [containsKey, lives]
          rw [if_pos alive]
          have back := (openBlock_shrinks m block).trans shrunk'
          obtain ⟨inner', found', hangs⟩ := back.block child inner lives
          have under : inner'.parent = some block :=
            tree.child block entry child inner' found (inside child mem_cons_self) found'
          obtain ⟨_, -, older, -⟩ := tree.parent child inner' block found' under
          obtain ⟨origin, began, hangs'⟩ := (shrunk.trans back).block child inner lives
          have dooms' : doomed child := rule.closed child origin block began
            (by rw [← hangs', hangs, under]) dooms
          obtain ⟨inv'', dropped⟩ := ih (shrunk.trans back) inv' tree' dooms' lives (by
              rintro other (taken | rfl)
              · have := above other taken
                omega
              · exact older)
            (by
              rw [back.slots]
              omega)
          obtain ⟨kept, tree'', shrunk'', gone, same'⟩ := rest _
            (shrunk'.trans dropped.shrinks) inv'' dropped.tree inside'
            (fun other within => (dropped.older other (by omega)).trans (same other within))
            _ rfl
          exact ⟨kept, tree'', dropped.shrinks.trans shrunk'',
            forall_mem_cons.2 ⟨shrunk''.dead dropped.gone, gone⟩, same'⟩
    obtain ⟨inv', tree', shrunk', gone, same⟩ := loop entry.children (m.openBlock block)
      (Shrinks.refl _) (rule.opens m block dooms inv) (tree.openBlock block) (fun _ member => member)
      (fun _ _ => rfl) _ rfl
    have shape : Module.dropBlockWith (fuel + 1) m block = Module.releaseBlock (entry.children.foldl
        (fun m child => if m.blocks.containsKey child then Module.dropBlockWith fuel m child else m)
        (m.openBlock block)) block := by
      simp only [Module.dropBlockWith, found, map_some, getD_some]
    rw [shape]
    have back := (openBlock_shrinks m block).trans shrunk'
    have opened : (entry.children.foldl (fun m child =>
        if m.blocks.containsKey child then Module.dropBlockWith fuel m child else m)
        (m.openBlock block)).blocks.get block = some { entry with children := [] } := by
      rw [same block (Nat.le_refl _)]
      simp [openBlock, modifyBlock, found]
    refine rule.close dooms inv' tree' back opened ?_ ?_
    · intro other inner lives hangs
      obtain ⟨inner', found', hangs'⟩ := back.block other inner lives
      obtain ⟨outer, found'', -, listed⟩ := tree.parent other inner' block found'
        (by rw [← hangs', hangs])
      cases found.symm.trans found''
      rcases listed with taken | member
      · have := above block taken
        omega
      · rw [gone other member] at lives
        cases lives
    · intro other before
      rw [same other (Nat.le_of_lt before)]
      refine get_modify_of_ne _ _ _ _ ?_
      rintro rfl
      omega

end

theorem DropRule.dropBlock
    (rule : DropRule m doomed Inv) (inv : Inv m) (tree : BlockTree (fun _ => False) m) (dooms :
    doomed block)
    (found : m.blocks.get block = some entry) :
    Inv (m.dropBlock block) ∧ Dropped (fun _ => False) block m (m.dropBlock block) :=
  rule.dropBlockWith _ (Shrinks.refl m) inv tree dooms found (fun _ impossible => impossible.elim)
    (by omega)

theorem climbBlocks_succ (tree : BlockTree opened m)
    (ancestor : BlockId) (steps : Nat) (block : BlockId) (entry : Block)
    (found : m.blocks.get block = some entry) (enough : block.index ≤ steps) :
    descendsFrom.climbBlocks m ancestor (steps + 1) block =
      descendsFrom.climbBlocks m ancestor steps block := by
  induction steps generalizing block entry with
  | zero =>
    have null : block = ⟨0⟩ := SlotKey.ext (by simpa using enough)
    rw [null] at found
    cases found
  | succ steps ih =>
    rw [descendsFrom.climbBlocks, descendsFrom.climbBlocks]
    split
    · rfl
    · cases hangs : entry.parent with
      | none => simp [found, hangs]
      | some up =>
        obtain ⟨outer, above, older, -⟩ := tree.parent block entry up found hangs
        simp only [found, bind_some, hangs]
        exact ih up outer above (by omega)

theorem descendsFrom_iff (tree : BlockTree opened m)
    {ancestor : BlockId} (found : m.blocks.get block = some entry) :
    m.descendsFrom block ancestor ↔
      block = ancestor ∨ ∃ up, entry.parent = some up ∧ m.descendsFrom up ancestor := by
  have bounded := index_le_of_get m.blocks block entry found
  have step := climbBlocks_succ tree ancestor _ block entry found bounded
  rw [descendsFrom, ← step, descendsFrom.climbBlocks]
  by_cases here : block = ancestor
  · simp [here]
  · cases hangs : entry.parent with
    | none => simp [here, found, hangs]
    | some up => simp [here, found, hangs, descendsFrom]

theorem descendsFrom_self (m : Module P) (block : BlockId) : m.descendsFrom block block := by
  rw [descendsFrom]
  cases m.blocks.slots.length <;> simp [descendsFrom.climbBlocks]

section

variable (tree : BlockTree (fun _ => False) m) (dropped : Dropped (fun _ => False) block m m')

include tree dropped

/-- Once a drop is over, no live node is homed in the dropped subtree. -/
theorem Dropped.emptied :
    ∀ (index : Nat) (home : BlockId), home.index ≤ index → m.descendsFrom home block →
      m'.blocks.get home = none := by
  intro index
  induction index with
  | zero =>
    intro home null _
    have : home = ⟨0⟩ := SlotKey.ext (by simpa using null)
    rw [this]
    rfl
  | succ index ih =>
    intro home bounded descends
    cases lives : m'.blocks.get home with
    | none => rfl
    | some entry =>
      obtain ⟨before, found, same⟩ := dropped.shrinks.block home entry lives
      rcases (descendsFrom_iff tree found).1 descends with rfl | ⟨up, hangs, descends'⟩
      · rw [dropped.gone] at lives
        cases lives
      · obtain ⟨outer, above, older, -⟩ := dropped.tree.parent home entry up lives
          (by rw [same, hangs])
        rw [ih up (by omega) descends'] at above
        cases above

theorem Dropped.home {node : NodeId} {home : BlockId} (homed : m'.homeOf node = some home) :
    m.descendsFrom home block = false := by
  cases descends : m.descendsFrom home block with
  | false => rfl
  | true =>
    obtain ⟨entry, lives, -⟩ := dropped.tree.homed node home homed
    rw [dropped.emptied tree home.index home (Nat.le_refl _) descends] at lives
    cases lives

end

end Module

end LichenVm
