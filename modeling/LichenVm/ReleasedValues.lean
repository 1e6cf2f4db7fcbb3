import LichenVm.ClassValues
import LichenVm.Consistency

namespace LichenVm

open DisjointSet

namespace Module

variable {P : Program}

theorem refreshClassSummary_values (m : Module P) (node : NodeId) :
    SameValues m (m.refreshClassSummary node) := by
  simp only [refreshClassSummary]
  split <;> exact (find_values m node).trans (setScopeSummary_values _ _ _)

theorem fillFound_values {m now : Module P} {representative : NodeId} {others : List NodeId}
    (own : IsClass now.nodes representative others)
    (mind : ∀ a ∈ representative :: others, ∀ b ∈ representative :: others,
      (m.valueOf a).isSome = (m.valueOf b).isSome) (same : SameValues m now) :
    SameValues m (match (representative :: others).findSome? now.valueOf with
      | none => now
      | some value => now.fillClassHoles representative value) := by
  split
  · exact same
  · next value found =>
    obtain ⟨member, listed, holds⟩ := List.exists_of_findSome?_eq_some found
    intro node
    rw [valueOf_fillClassHoles own]
    split
    · next listed' =>
      have held := mind member listed node listed'
      rw [← same, ← same, holds] at held
      obtain ⟨value', holds'⟩ := Option.isSome_iff_exists.1 held.symm
      rw [holds', ← same, holds']
      rfl
    · exact same node

/-- Splicing a class of one mind fills nothing. -/
theorem flattenClass_values {m : Module P} {rep : NodeId} {rest : List NodeId}
    (cls : IsClass m.nodes rep rest)
    (mind : ∀ a ∈ rep :: rest, ∀ b ∈ rep :: rest, (m.valueOf a).isSome = (m.valueOf b).isSome)
    (block : BlockId) : SameValues m (m.flattenClass block rep) := by
  have inside : ∀ node ∈ m.survivorsOf block (rep :: rest), node ∈ rep :: rest :=
    fun node member => (mem_survivorsOf.1 member).1
  have distinct : (m.survivorsOf block (rep :: rest)).Nodup := cls.distinct.filter _
  have relinked := LinksOnly.values (LinksOnly.rebuild m.nodes (m.survivorsOf block (rep :: rest)))
  simp only [flattenClass, membersOf_eq cls]
  cases survivors : m.survivorsOf block (rep :: rest) with
  | nil => exact SameValues.of_nodes rfl
  | cons representative others =>
    rw [survivors] at inside distinct relinked
    have own : IsClass (rebuild m.nodes (representative :: others)) representative others :=
      rebuild_isClass m.nodes representative others distinct fun node member =>
        cls.live node (inside node member)
    obtain ⟨kept, -⟩ := refreshClassSummary_spec
      (m := { m with nodes := rebuild m.nodes (representative :: others) }) own own.root_mem
    have same := relinked.trans (refreshClassSummary_values
      { m with nodes := rebuild m.nodes (representative :: others) } representative)
    have own' := kept.nodes.classes representative others own
    dsimp only
    generalize refreshClassSummary _ representative = now at same own' ⊢
    have filled := fillFound_values own'
      (fun a left b right => mind a (inside a left) b (inside b right)) same
    cases (m.nodes.get rep).bind Node.lowShape with
    | none => exact filled
    | some shape => exact filled.trans (refineClassLowType_values _ _ _)

variable {block : BlockId}

theorem Spliced.foldl_values {before : Module P} (decided : before.OneDecided)
    (todo : List NodeId) : ∀ {m : Module P} {roots : List NodeId}, Spliced before m block roots →
      SameValues before m → todo.Nodup →
      (∀ root ∈ todo, root ∉ roots ∧ ∃ rest, IsClass before.nodes root rest) →
      SameValues before (todo.foldl (fun m rep => m.flattenClass block rep) m) := by
  induction todo with
  | nil => exact fun _ same _ _ => same
  | cons root todo ih =>
    intro m roots spliced same distinct classes
    obtain ⟨fresh, rest, cls⟩ := classes root List.mem_cons_self
    obtain ⟨outside, distinct'⟩ := List.nodup_cons.1 distinct
    have flattened := flattenClass_values (spliced.rest root rest cls fresh).1 (fun a left b right => by
      rw [same, same]
      exact decided root rest cls a left b right) block
    refine ih (spliced.step cls fresh) (same.trans flattened) distinct' fun other member => ?_
    obtain ⟨fresh', cls'⟩ := classes other (List.mem_cons_of_mem _ member)
    refine ⟨fun found => ?_, cls'⟩
    rcases List.mem_cons.1 found with rfl | found
    · exact outside member
    · exact fresh' found

theorem touchedClasses_values (block : BlockId) (nodes : List NodeId) : ∀ m : Module P,
    SameValues m (m.touchedClasses block nodes).2 := by
  induction nodes with
  | nil => exact SameValues.refl
  | cons node nodes ih =>
    intro m
    simp only [touchedClasses]
    split
    · exact (find_values m node).trans (ih _)
    · exact ih m

theorem releaseFunctions_values (m : Module P) (block : BlockId) :
    SameValues m (m.releaseFunctions block) := by
  have outside : ∀ (m : Module P) node, SameValues m (refreshOutside block m node) := by
    intro m node
    simp only [refreshOutside]
    split
    · split
      · exact refreshClassSummary_values m node
      · exact SameValues.refl m
    · exact SameValues.refl m
  have each : ∀ (m : Module P) function, SameValues m (releaseFunction block m function) := by
    intro m function
    simp only [releaseFunction]
    split
    · exact SameValues.refl m
    · split
      · exact SameValues.refl m
      · exact SameValues.foldl (refreshOutside block) outside _
          { m with functions := m.functions.remove function }
  exact SameValues.foldl (releaseFunction block) each _
    (m.modifyBlock block fun entry => { entry with functions := [] })

section

variable {m : Module P} (formed : WellFormed m.nodes) (decided : m.OneDecided) {block : BlockId}
  {node : NodeId} (outside : m.homeOf node ≠ some block)

include formed decided outside

theorem releaseNodes_values : (m.releaseNodes block).valueOf node = m.valueOf node := by
  simp only [releaseNodes]
  generalize ((m.blocks.get block).map Block.nodes).getD [] = nodes
  obtain ⟨kept, distinct, headed, -⟩ := touchedClasses_spec block nodes
    (m := m.modifyBlock block fun entry => { entry with nodes := [] }) formed
  have same := touchedClasses_values block nodes
    (m.modifyBlock block fun entry => { entry with nodes := [] })
  generalize Module.touchedClasses _ block nodes = collected at kept distinct headed same ⊢
  obtain ⟨roots, before⟩ := collected
  have values : SameValues m before := fun other => same other
  have start : Spliced before before block [] :=
    ⟨Frame.refl _, fun _ _ cls _ => ⟨cls, rfl⟩, by simp, fun _ _ found => Or.inl found⟩
  have heads : ∀ root ∈ roots, root ∉ ([] : List NodeId) ∧ ∃ rest, IsClass before.nodes root rest := by
    intro root member
    obtain ⟨rest, cls⟩ := headed root member
    exact ⟨by simp, rest, kept.nodes.classes root rest cls⟩
  have decided' : before.OneDecided := decided.of_same formed kept.nodes values
  have spliced := Spliced.foldl_values decided' roots start (SameValues.refl before) distinct heads
  obtain ⟨_, -, frame⟩ := start.foldl roots distinct heads
  obtain ⟨-, -, -, gets⟩ := foldl_removeHomed block nodes
    (roots.foldl (fun m rep => m.flattenClass block rep) before)
  generalize roots.foldl (fun m rep => m.flattenClass block rep) before = last at *
  have home : last.homeOf node ≠ some block := by
    rw [frame.home, kept.home]
    exact outside
  rw [valueOf, gets, if_neg fun gone => home gone.2]
  exact (spliced node).trans (values node)

theorem releaseBlock_values : (m.releaseBlock block).valueOf node = m.valueOf node := by
  have unowned := foldl_unowns (m := m.modifyBlock block fun entry => { entry with functions := [] })
    formed block (((m.blocks.get block).map Block.functions).getD [])
  change Unowns block _ (m.releaseFunctions block) at unowned
  have same := releaseFunctions_values m block
  have home : (m.releaseFunctions block).homeOf node ≠ some block := by
    rw [unowned.home]
    exact outside
  have released := releaseNodes_values (formed.compresses unowned.nodes)
    (decided.of_same formed unowned.nodes same) home
  exact released.trans (same node)

end

theorem OneDecided.releaseBlock {m : Module P} (formed : WellFormed m.nodes)
    (decided : m.OneDecided) (releases : Releases block m (m.releaseBlock block)) :
    (m.releaseBlock block).OneDecided := by
  intro top behind cls a left b right
  obtain ⟨root, rest, old, survive⟩ := releases.classes top behind cls
  rw [← survive] at left right
  obtain ⟨left, awayA⟩ := mem_survivorsOf.1 left
  obtain ⟨right, awayB⟩ := mem_survivorsOf.1 right
  rw [releaseBlock_values formed decided awayA, releaseBlock_values formed decided awayB]
  exact decided root rest old a left b right

theorem dropBlock_values {m : Module P} (consistent : Consistent m) (decided : m.OneDecided)
    {entry : Block} (found : m.blocks.get block = some entry) :
    (m.dropBlock block).OneDecided ∧ (m.dropBlock block).nodes.slots.length = m.nodes.slots.length ∧
      ∀ node, (m.dropBlock block).nodes.containsKey node →
        m.nodes.containsKey node ∧ (m.dropBlock block).valueOf node = m.valueOf node := by
  have rule : DropRule m (fun _ => True) fun now => WellFormed now.nodes ∧ now.OneDecided ∧
      now.nodes.slots.length = m.nodes.slots.length ∧
      ∀ node, now.nodes.containsKey node →
        m.nodes.containsKey node ∧ now.valueOf node = m.valueOf node := by
    refine ⟨fun now held => held.1, fun _ _ _ _ _ _ => trivial, fun now home _ held => held, ?_⟩
    intro now home inner _ held found' listed
    obtain ⟨formed, decided, slots, stays⟩ := held
    obtain ⟨released, -, -⟩ := releaseBlock_releases formed found' listed
    refine ⟨released.formed, decided.releaseBlock formed released, released.slots.trans slots, ?_⟩
    intro node lives
    obtain ⟨alive, away⟩ := (released.live node).1 lives
    obtain ⟨older, same⟩ := stays node alive
    exact ⟨older, (releaseBlock_values formed decided away).trans same⟩
  obtain ⟨⟨-, decided', slots, stays⟩, -⟩ := rule.dropBlock
    ⟨consistent.formed, decided, rfl, fun node lives => ⟨lives, rfl⟩⟩ consistent.tree trivial found
  exact ⟨decided', slots, stays⟩

end Module

/-- A payload put elsewhere: the value names the new copy. -/
inductive Relocated {P : Program} : Value P → Value P → Prop
  | array (old new : AnyHandle ArrayItem) (layout : Nat) (items : new.items = old.items) :
      Relocated (.low (.array { handle := old, layout })) (.low (.array { handle := new, layout }))
  | table (old new : AnyHandle TableItem) (items : new.items = old.items) :
      Relocated (.low (.table old)) (.low (.table new))
  | ext (value : P.Ext) (old new : AnyHandle UInt8) (held : P.handle value = some old)
      (items : new.items = old.items) : Relocated (.ext value) (.ext (P.setHandle value new))

/-- The same value, its payload perhaps in another block: moved, not replaced. -/
def Moved {P : Program} : Value P → Value P → Prop := Relation.EqvGen Relocated

namespace Module

variable {P : Program}

/-- Every slot holds what it did, up to where the payload lies. -/
def SlotsMoved (m m' : Module P) : Prop :=
  ∀ node, Option.Rel Moved (m.valueOf node) (m'.valueOf node)

theorem rel_moved_refl (value : Option (Value P)) : Option.Rel Moved value value := by
  cases value with
  | none => exact .none
  | some value => exact .some (.refl value)

theorem rel_moved_symm {first second : Option (Value P)} (one : Option.Rel Moved first second) :
    Option.Rel Moved second first := by
  cases one with
  | none => exact .none
  | some moved => exact .some (.symm _ _ moved)

theorem rel_moved_trans {first second third : Option (Value P)} (one : Option.Rel Moved first second)
    (two : Option.Rel Moved second third) : Option.Rel Moved first third := by
  cases one with
  | none => exact two
  | some moved =>
    cases two with
    | some moved' => exact .some (.trans _ _ _ moved moved')

namespace SlotsMoved

theorem of_same {m m' : Module P} (same : SameValues m m') : SlotsMoved m m' := fun node => by
  rw [same]
  exact rel_moved_refl _

theorem refl (m : Module P) : SlotsMoved m m := of_same (SameValues.refl m)

theorem trans {first second third : Module P} (one : SlotsMoved first second)
    (two : SlotsMoved second third) : SlotsMoved first third :=
  fun node => rel_moved_trans (one node) (two node)

theorem write {m now : Module P} {node : NodeId} {value : Value P}
    (same : now.nodes = m.nodes) (held : Option.Rel Moved (m.valueOf node) (some value)) :
    SlotsMoved m (now.setNodeValue node (some value)) := by
  intro other
  rw [valueOf_setNodeValue]
  split
  · next here => exact here.1 ▸ held
  · rw [SameValues.of_nodes same]
    exact rel_moved_refl _

end SlotsMoved

theorem relocateClassValue_moved (m : Module P) (node : NodeId) :
    SlotsMoved m (m.relocateClassValue node) := by
  simp only [relocateClassValue]
  split
  · exact SlotsMoved.refl m
  · next entry found =>
    have slot : m.valueOf node = entry.value := by simp [valueOf, found]
    split
    · next array held =>
      split
      · exact SlotsMoved.refl m
      · next handle dynamic =>
        refine SlotsMoved.write rfl ?_
        rw [slot, held]
        exact .some (.rel _ _ (.array array.handle _ array.layout (by rw [dynamic]; rfl)))
    · next handle held =>
      refine SlotsMoved.write rfl ?_
      rw [slot, held]
      exact .some (.rel _ _ (.table _ _ rfl))
    · next value held =>
      refine SlotsMoved.write ?_ ?_
      · simp only [copyExt]
        split <;> rfl
      · rw [slot, held]
        simp only [copyExt]
        split
        · exact rel_moved_refl _
        · next old payload => exact .some (.rel _ _ (.ext value old _ payload rfl))
    · exact SlotsMoved.refl m

end Module

namespace Walk

variable {P : Program}

open Module

section

variable (w : Walk P) (node : NodeId)

include w node

theorem relocate_moved (target : BlockId) (value : Option (Value P))
    (held : Option.Rel Moved (w.module.valueOf node) value) :
    SlotsMoved w.module (w.relocate node target value).module := by
  simp only [relocate]
  split
  · next array =>
    split
    · exact SlotsMoved.write rfl held
    · next handle dynamic =>
      refine SlotsMoved.write rfl (rel_moved_trans held ?_)
      exact .some (.rel _ _ (.array array.handle _ array.layout (by rw [dynamic]; rfl)))
  · exact SlotsMoved.write rfl (rel_moved_trans held (.some (.rel _ _ (.table _ _ rfl))))
  · next value =>
    refine SlotsMoved.write ?_ (rel_moved_trans held ?_)
    · simp only [copyExt]
      split <;> rfl
    · simp only [copyExt]
      split
      · exact rel_moved_refl _
      · next old payload => exact .some (.rel _ _ (.ext value old _ payload rfl))
  · exact SlotsMoved.write rfl held
  · exact SlotsMoved.refl _

theorem classWalk_values : SameValues w.module (w.classWalk node).2.module := by
  simp only [classWalk]
  split <;> exact find_values w.module node

theorem moveNode_values (target : BlockId) : SameValues w.module (w.moveNode node target).module :=
  modifyNode_values w.module node _ fun _ => rfl

end

theorem moveHeld_values (w : Walk P) (source target : BlockId) (value : Option (Value P)) :
    SameValues w.module (w.moveHeld source target value).module := by
  simp only [moveHeld]
  split
  · simp only [moveFunction]
    split
    · exact SameValues.refl _
    · split <;> exact SameValues.of_nodes rfl
  · exact SameValues.refl _

theorem foldl_moved {α : Type} (step : Walk P → α → Walk P)
    (each : ∀ w item, SlotsMoved w.module (step w item).module) (items : List α) (w : Walk P) :
    SlotsMoved w.module (items.foldl step w).module := by
  induction items generalizing w with
  | nil => exact SlotsMoved.refl _
  | cons item items ih => exact (each w item).trans (ih _)

theorem collectMember_moved {walk : Walk P → NodeId → Walk P}
    (each : ∀ w node, SlotsMoved w.module (walk w node).module) (source : BlockId) (w : Walk P)
    (member : NodeId) : SlotsMoved w.module (collectMember walk source w member).module := by
  refine (each w member).trans ?_
  simp only [collectMember]
  split
  · exact SlotsMoved.refl _
  · exact relocateClassValue_moved _ member

/-- The walk of a collect moves payloads alone. -/
theorem collectNode_moved (fuel : Nat) (source target : BlockId) : ∀ (w : Walk P) (node : NodeId),
    SlotsMoved w.module (collectNode fuel source target w node).module := by
  induction fuel with
  | zero => exact fun w _ => SlotsMoved.refl _
  | succ fuel ih =>
    intro w node
    have edges := foldl_moved (collectNode fuel source target) ih
    simp only [collectNode]
    split
    · exact SlotsMoved.refl _
    · refine (SlotsMoved.of_same (classWalk_values { w with visited := node :: w.visited } node)).trans ?_
      generalize classWalk _ node = entered
      obtain ⟨members, w⟩ := entered
      generalize w.module.homedIn source node = inside
      have moved : SlotsMoved w.module
          (if inside then w.moveNode node target else w).module := by
        split
        · exact SlotsMoved.of_same (moveNode_values w node target)
        · exact SlotsMoved.refl _
      refine moved.trans ?_
      generalize (if inside then w.moveNode node target else w) = w
      refine (foldl_moved (collectMember (collectNode fuel source target) source)
        (collectMember_moved ih source) members w).trans ?_
      generalize List.foldl (collectMember _ source) w members = w
      -- The value is read here, and written back at the end: nothing between replaces it.
      have read : Option.Rel Moved (w.module.valueOf node)
          ((w.module.nodes.get node).bind Node.value) := rel_moved_refl _
      generalize (w.module.nodes.get node).bind Node.value = current at read ⊢
      have operand := edges (owedOperand w.module node) w
      generalize List.foldl (collectNode fuel source target) w (owedOperand w.module node) = w'
        at operand ⊢
      have sources := operand.trans (edges (w'.module.fieldSources.get node).toList w')
      generalize List.foldl (collectNode fuel source target) w'
        (w'.module.fieldSources.get node).toList = w'' at sources ⊢
      have last := sources.trans (edges (valueEdges w''.module inside current) w'')
      generalize List.foldl (collectNode fuel source target) w''
        (valueEdges w''.module inside current) = last' at last ⊢
      split
      · have held := SlotsMoved.of_same (moveHeld_values last' source target current)
        refine (last.trans held).trans (relocate_moved _ node target current ?_)
        exact rel_moved_trans (rel_moved_symm ((last.trans held) node)) read
      · exact last

end Walk

namespace Module

variable {P : Program}

theorem collectWalk_moved (m : Module P) (blockRoot : NodeId) (source target : BlockId) :
    SlotsMoved m (m.collectWalk blockRoot source target).2 := by
  have each := Walk.collectNode_moved (P := P) (m.nodeBound + 2) source target
  have conditions : ∀ (w : Walk P) condition, SlotsMoved w.module (collectCondition
      (Walk.collectNode (m.nodeBound + 2) source target) source w condition).module := by
    intro w condition
    simp only [collectCondition]
    split
    · exact each w condition
    · exact SlotsMoved.refl _
  simp only [collectWalk]
  refine (each { module := m } blockRoot).trans ?_
  generalize Walk.collectNode (m.nodeBound + 2) source target { module := m } blockRoot = w
  exact (Walk.foldl_moved _ conditions (w.module.asserts.map PendingAssert.condition) w).trans
    (Walk.foldl_moved _ each _ _)

end Module

end LichenVm
