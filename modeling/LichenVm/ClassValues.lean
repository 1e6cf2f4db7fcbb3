import LichenVm.UnifyFrames

open List Option

namespace LichenVm

open DisjointSet SlotMap

namespace Module

variable {P : Program}

/-- The value a node's slot holds. -/
def valueOf (m : Module P) (node : NodeId) : Option (Value P) :=
  (m.nodes.get node).bind Node.value

/-- The members of each class either all hold a value or all hold none. -/
def OneDecided (m : Module P) : Prop :=
  ∀ root rest, IsClass m.nodes root rest → ∀ a ∈ root :: rest, ∀ b ∈ root :: rest,
    (m.valueOf a).isSome = (m.valueOf b).isSome

/-- The slots of `m'` hold what those of `m` do. -/
def SameValues (m m' : Module P) : Prop := ∀ node, m'.valueOf node = m.valueOf node

namespace SameValues

theorem refl (m : Module P) : SameValues m m := fun _ => rfl

theorem trans {first second third : Module P} (one : SameValues first second)
    (two : SameValues second third) : SameValues first third :=
  fun node => (two node).trans (one node)

theorem of_nodes {m m' : Module P} (nodes : m'.nodes = m.nodes) : SameValues m m' :=
  fun node => by rw [valueOf, valueOf, nodes]

theorem foldl {α : Type} (step : Module P → α → Module P)
    (each : ∀ m item, SameValues m (step m item)) (items : List α) (m : Module P) :
    SameValues m (items.foldl step m) := by
  induction items generalizing m with
  | nil => exact refl m
  | cons item items ih => exact (each m item).trans (ih _)

end SameValues

variable {m : Module P}

theorem LinksOnly.values {nodes : SlotMap NodeTag (Node P)} (only : LinksOnly m.nodes nodes) :
    SameValues m { m with nodes } :=
  fun node => bind_eq_of_map_eq _ (only.field Node.value (fun _ _ => rfl) node)

section

variable (m : Module P) (node : NodeId)

theorem modifyNode_values (f : Node P → Node P) (value : ∀ entry, (f entry).value = entry.value) :
    SameValues m (m.modifyNode node f) := by
  intro other
  simp only [valueOf, modifyNode, get_modify]
  split
  · cases m.nodes.get other <;> simp [value]
  · rfl

theorem find_values : SameValues m (m.find node).2 :=
  LinksOnly.values (LinksOnly.find _ _ _)

theorem setScopeSummary_values (summary : Option (LexicalScope.Scope FunctionId)) :
    SameValues m (m.setScopeSummary node summary) :=
  modifyNode_values m node _ fun _ => rfl

theorem refineClassLowType_values (shape : LowShape) :
    SameValues m (m.refineClassLowType node shape) := by
  simp only [refineClassLowType]
  split
  · exact SameValues.refl m
  · split
    · exact modifyNode_values m _ _ fun _ => rfl
    · exact SameValues.refl m

theorem observeClassLowType_values (value : Value P) :
    SameValues m (m.observeClassLowType node value) := by
  simp only [observeClassLowType]
  split
  · exact SameValues.refl m
  · exact refineClassLowType_values m _ _

end

theorem OneDecided.of_same {m m' : Module P} (decided : m.OneDecided) (formed : WellFormed m.nodes)
    (nodes : Compresses m.nodes m'.nodes) (same : SameValues m m') : m'.OneDecided := by
  intro root rest cls a left b right
  rw [same, same]
  exact decided root rest ((nodes.classes_iff formed root rest).1 cls) a left b right

variable {root : NodeId} {rest : List NodeId}

theorem OneDecided.none_of_mem (decided : m.OneDecided) (cls : IsClass m.nodes root rest)
    {a b : NodeId} (left : a ∈ root :: rest) (right : b ∈ root :: rest)
    (empty : m.valueOf a = none) : m.valueOf b = none := by
  have same := decided root rest cls a left b right
  rw [empty] at same
  exact not_isSome_iff_eq_none.1 (by rw [← same]; simp)

theorem valueOf_setNodeValue (m : Module P) (node other : NodeId) (value : Option (Value P)) :
    (m.setNodeValue node value).valueOf other =
      if other = node ∧ m.nodes.containsKey node then value else m.valueOf other := by
  simp only [valueOf, setNodeValue, modifyNode, get_modify, containsKey]
  by_cases same : other = node
  · subst same
    obtain found | ⟨entry, found⟩ := eq_none_or_eq_some (m.nodes.get other) <;> simp [found]
  · simp [same]

section

variable (value : Value P) (members : List NodeId) (m : Module P)

section

variable (live : ∀ member ∈ members, m.nodes.containsKey member) (node : NodeId)

include live node

theorem valueOf_foldl_setNodeValue :
    (members.foldl (fun m member => m.setNodeValue member (some value)) m).valueOf node =
      if node ∈ members then some value else m.valueOf node := by
  induction members generalizing m with
  | nil => simp
  | cons first members ih =>
    have lives : ∀ member ∈ members,
        (m.setNodeValue first (some value)).nodes.containsKey member := by
      intro member inside
      rw [(setNodeValue_keeps m first (some value)).live]
      exact live member (mem_cons_of_mem _ inside)
    rw [foldl_cons, ih _ lives, valueOf_setNodeValue]
    by_cases same : node = first
    · simp [same, live first mem_cons_self]
    · simp [same]

/-- Filling the holes of a list of live nodes. -/
theorem valueOf_foldl_fill :
    (members.foldl (fun m member => m.modifyNode member fun entry =>
      if entry.value.isNone then { entry with value := some value } else entry) m).valueOf node =
      if node ∈ members then some ((m.valueOf node).getD value) else m.valueOf node := by
  induction members generalizing m with
  | nil => simp
  | cons first members ih =>
    rw [foldl_cons]
    have once : ∀ other, (m.modifyNode first fun entry =>
        if entry.value.isNone then { entry with value := some value } else entry).valueOf other =
        if other = first then some ((m.valueOf other).getD value) else m.valueOf other := by
      intro other
      simp only [valueOf, modifyNode, get_modify]
      split
      · rename_i same
        obtain ⟨entry, found⟩ :=
          (containsKey_eq_true _ _).1 (live first mem_cons_self)
        rw [same, found]
        cases held : entry.value <;> simp [held]
      · rfl
    rw [ih _ ?_, once]
    · by_cases same : node = first
      · subst same
        by_cases again : node ∈ members <;> simp [again]
      · simp [same]
    · intro member inside
      rw [modifyNode, containsKey_modify]
      exact live member (mem_cons_of_mem _ inside)

end

end

variable {node : NodeId}

section

variable (cls : IsClass m.nodes root rest)

include cls

theorem live_of_class (member : node ∈ root :: rest) : m.nodes.containsKey node := by
  rw [← links_isSome]
  exact cls.live node member

theorem valueOf_fillClassHoles (value : Value P) (node : NodeId) :
    (m.fillClassHoles root value).valueOf node =
      if node ∈ root :: rest then some ((m.valueOf node).getD value) else m.valueOf node := by
  rw [fillClassHoles, membersOf_eq cls]
  exact valueOf_foldl_fill value _ m (fun _ member => live_of_class cls member) node

theorem valueOf_propagateClassValue (value : Value P) (node : NodeId) :
    (m.propagateClassValue root value).valueOf node =
      if node ∈ root :: rest then some value else m.valueOf node := by
  rw [propagateClassValue, membersOf_eq cls]
  exact valueOf_foldl_setNodeValue value _ m (fun _ member => live_of_class cls member) node

/-- A write gives the whole class of a live node the value. -/
theorem valueOf_writeNodeValue (member : node ∈ root :: rest) (value : Value P) (other : NodeId) :
    (m.writeNodeValue node (some value)).valueOf other =
      if other ∈ root :: rest then some value else m.valueOf other := by
  have live := live_of_class cls member
  have wrote := setNodeValue_keeps m node (some value)
  have cls' := wrote.nodes.classes root rest cls
  simp only [writeNodeValue]
  split
  · rename_i lone
    -- A node with no parent and no next is a class of its own.
    rw [isNone_iff_eq_none, isNone_iff_eq_none] at lone
    have top : node = root := by
      rw [← cls'.climbs node member, climb_root _ _ _ lone.1]
    have alone : rest = [] := by
      have seam := cls'.linked.1
      rw [← top, lone.2] at seam
      exact List.head?_eq_none_iff.1 seam.symm
    subst top alone
    rw [valueOf_setNodeValue]
    simp [live]
  · obtain ⟨named, found⟩ := find_spec cls' member
    rw [named]
    rw [observeClassLowType_values _ _ _ other,
      valueOf_propagateClassValue (found.nodes.classes root rest cls'), find_values _ node other,
      valueOf_setNodeValue]
    by_cases inside : other ∈ root :: rest
    · simp [inside]
    · have apart : other ≠ node := fun same => inside (same ▸ member)
      simp [inside, apart]

end

section Equality

variable {m : Module P} {a b ra rb : NodeId} {la lb : List NodeId}
  (decided : m.OneDecided) (one : IsClass m.nodes ra la) (left : a ∈ ra :: la)
  (two : IsClass m.nodes rb lb) (right : b ∈ rb :: lb)

include decided one left two right

theorem valueOf_fillAcross (node : NodeId) : (m.fillAcross a b ra rb).valueOf node =
    if m.valueOf a = none ∧ node ∈ ra :: la then m.valueOf b
    else if m.valueOf b = none ∧ node ∈ rb :: lb then m.valueOf a
    else m.valueOf node := by
  have holes : ∀ {root rest at_}, IsClass m.nodes root rest → at_ ∈ root :: rest →
      m.valueOf at_ = none → node ∈ root :: rest → m.valueOf node = none :=
    fun cls member empty inside => decided.none_of_mem cls member inside empty
  unfold fillAcross
  rw [← valueOf, ← valueOf]
  cases held : m.valueOf a with
  | none =>
    cases held' : m.valueOf b with
    | none =>
      by_cases inside : node ∈ ra :: la
      · simp [inside, holes one left held inside]
      · by_cases inside' : node ∈ rb :: lb
        · simp [inside, inside', holes two right held' inside']
        · simp [inside, inside']
    | some value =>
      rw [valueOf_fillClassHoles one]
      by_cases inside : node ∈ ra :: la
      · simp [inside, holes one left held inside]
      · simp [inside]
  | some value =>
    cases held' : m.valueOf b with
    | none =>
      rw [valueOf_fillClassHoles two]
      by_cases inside : node ∈ rb :: lb
      · simp [inside, holes two right held' inside]
      · simp [inside]
    | some other => simp

end Equality

section Equality

variable {m : Module P} (formed : WellFormed m.nodes) (decided : m.OneDecided)
  {a b ra rb : NodeId} {la lb : List NodeId}
  (one : IsClass m.nodes ra la) (left : a ∈ ra :: la)
  (two : IsClass m.nodes rb lb) (right : b ∈ rb :: lb)

include formed decided one left two right

theorem valueOf_addEquality (node : NodeId) : (m.addEquality a b).2.valueOf node =
    if m.valueOf a = none ∧ node ∈ ra :: la then m.valueOf b
    else if m.valueOf b = none ∧ node ∈ rb :: lb then m.valueOf a
    else m.valueOf node := by
  have foundA := find_spec one left
  have foundB := find_spec (foundA.2.nodes.classes rb lb two) right
  have kept := foundA.2.trans foundB.2
  have same : SameValues m ((m.find a).2.find b).2 := (find_values m a).trans (find_values _ b)
  have filled := valueOf_fillAcross (decided.of_same formed kept.nodes same)
    (kept.nodes.classes ra la one) left (kept.nodes.classes rb lb two) right node
  rw [same, same, same] at filled
  rw [← filled]
  simp only [addEquality, foundA.1, foundB.1]
  generalize Option.toList _ ++ Option.toList _ = refinements
  have merged : ∀ (root : NodeId) (n : Module P), SameValues n
      (refinements.foldl (fun m shape => m.refineClassLowType root shape) n) := fun root n =>
    SameValues.foldl (fun m shape => m.refineClassLowType root shape)
      (fun m shape => refineClassLowType_values m root shape) refinements n
  rw [merged, mergeClassSummaries, setScopeSummary_values]
  exact LinksOnly.values (LinksOnly.union _ _ _ _) node

/-- The joined class is of one mind, and so is every other. -/
theorem OneDecided.addEquality : (m.addEquality a b).2.OneDecided := by
  have values := valueOf_addEquality formed decided one left two right
  -- The value every member of either class holds afterwards.
  have inA : ∀ node ∈ ra :: la, ((m.addEquality a b).2.valueOf node).isSome =
      ((m.valueOf a).isSome || (m.valueOf b).isSome) := by
    intro node member
    have same := decided ra la one node member a left
    rw [values]
    cases held : m.valueOf a with
    | none => simp [member]
    | some value =>
      rw [held] at same
      cases held' : m.valueOf b with
      | none => by_cases member' : node ∈ rb :: lb <;> simp [member', same]
      | some value' => simpa using same
  have inB : ∀ node ∈ rb :: lb, ((m.addEquality a b).2.valueOf node).isSome =
      ((m.valueOf a).isSome || (m.valueOf b).isSome) := by
    intro node member
    have same := decided rb lb two node member b right
    rw [values]
    cases held : m.valueOf b with
    | none =>
      cases held' : m.valueOf a with
      | none => by_cases member' : node ∈ ra :: la <;> simp [member', member]
      | some value' => simp [member]
    | some value =>
      rw [held] at same
      cases held' : m.valueOf a with
      | none => by_cases member' : node ∈ ra :: la <;> simp [member', same]
      | some value' => simpa using same
  have inEither : ∀ node ∈ (ra :: la) ++ (rb :: lb), ((m.addEquality a b).2.valueOf node).isSome =
      ((m.valueOf a).isSome || (m.valueOf b).isSome) := fun node member =>
    (mem_append.1 member).elim (inA node) (inB node)
  have outside : ∀ top behind, IsClass m.nodes top behind → top ≠ ra → top ≠ rb →
      ∀ node ∈ top :: behind, (m.addEquality a b).2.valueOf node = m.valueOf node := by
    intro top behind cls awayA awayB node member
    rw [values, if_neg, if_neg]
    · exact fun ⟨_, member'⟩ => cls.disjoint two awayB member member'
    · exact fun ⟨_, member'⟩ => cls.disjoint one awayA member member'
  obtain ⟨root, rest, equates⟩ := addEquality_spec one left two right
  intro top behind cls c inside d inside'
  -- A class of the result is the joined one, or one that stood before.
  have parts : (∀ node ∈ top :: behind, node ∈ (ra :: la) ++ (rb :: lb)) ∨
      (IsClass m.nodes top behind ∧ top ≠ ra ∧ top ≠ rb) := by
    rcases equates.joins with ⟨same, -, -, compressed⟩ | ⟨apart, joins⟩
    · have old := (compressed.classes_iff formed top behind).1 cls
      by_cases here : top = ra
      · subst here
        obtain ⟨-, rfl⟩ := old.unique one old.root_mem one.root_mem
        exact Or.inl fun node member => mem_append_left _ member
      · exact Or.inr ⟨old, here, same ▸ here⟩
    · rcases joins.classes formed one two cls with ⟨rfl, rfl⟩ | old
      · exact Or.inl fun node member => joins.members.mem_iff.1 member
      · exact Or.inr old
  rcases parts with joined | ⟨old, awayA, awayB⟩
  · rw [inEither c (joined c inside), inEither d (joined d inside')]
  · rw [outside top behind old awayA awayB c inside, outside top behind old awayA awayB d inside']
    exact decided top behind old c inside d inside'

theorem addEquality_keeps (node : NodeId) (value : Value P) (held : m.valueOf node = some value) :
    (m.addEquality a b).2.valueOf node = some value := by
  rw [valueOf_addEquality formed decided one left two right]
  split
  · next empty =>
    rw [decided.none_of_mem one left empty.2 empty.1] at held
    cases held
  · split
    · next empty =>
      rw [decided.none_of_mem two right empty.2 empty.1] at held
      cases held
    · exact held

end Equality

theorem OneDecided.writeNodeValue (formed : WellFormed m.nodes) (decided : m.OneDecided)
    (cls : IsClass m.nodes root rest) (member : node ∈ root :: rest) (value : Value P) :
    (m.writeNodeValue node (some value)).OneDecided := by
  have kept := writeNodeValue_keepsSummaries formed node (some value)
  have values := valueOf_writeNodeValue cls member value
  intro top behind cls' a left b right
  have old := (kept.nodes.classes_iff formed top behind).1 cls'
  rw [values, values]
  by_cases here : top = root
  · subst here
    obtain ⟨-, rfl⟩ := old.unique cls old.root_mem cls.root_mem
    simp [left, right]
  · rw [if_neg (old.disjoint cls here left), if_neg (old.disjoint cls here right)]
    exact decided top behind old a left b right

theorem writeNodeValue_leaves (decided : m.OneDecided) (cls : IsClass m.nodes root rest)
    (member : node ∈ root :: rest) (empty : m.valueOf node = none) (value : Value P)
    (other : NodeId) (old : Value P) (held : m.valueOf other = some old) :
    (m.writeNodeValue node (some value)).valueOf other = some old := by
  rw [valueOf_writeNodeValue cls member, if_neg]
  · exact held
  · intro inside
    rw [decided.none_of_mem cls member inside empty] at held
    cases held

/-- A call on well-formed classes of one mind leaves them so, and every held value where it is. -/
structure Decides (m m' : Module P) : Prop extends Frame m m' where
  formed : WellFormed m'.nodes
  decided : m'.OneDecided
  held : ∀ node value, m.valueOf node = some value → m'.valueOf node = some value

/-- A unification, whether it fails or not, replaces no value and splits no class's mind. -/
theorem decides_rule : UnifyRule (P := P) fun m m' =>
    Frame m m' ∧ (WellFormed m.nodes → m.OneDecided → Decides m m') where
  refl m := ⟨Frame.refl m, fun formed decided => ⟨Frame.refl m, formed, decided, fun _ _ held => held⟩⟩
  trans _ _ _ one two := ⟨one.1.trans two.1, fun formed decided => by
    have first := one.2 formed decided
    have second := two.2 first.formed first.decided
    exact ⟨first.toFrame.trans second.toFrame, second.formed, second.decided,
      fun node value held => second.held node value (first.held node value held)⟩⟩
  live _ _ step := step.1.live
  equates m a b left right := by
    refine ⟨addEquality_frame m a b, fun formed decided => ?_⟩
    obtain ⟨ra, la, one, memberA⟩ := formed a (by rw [links_isSome, left])
    obtain ⟨rb, lb, two, memberB⟩ := formed b (by rw [links_isSome, right])
    obtain ⟨root, rest, equates⟩ := addEquality_spec one memberA two memberB
    exact ⟨equates.toFrame, equates.wellFormed formed one two,
      decided.addEquality formed one memberA two memberB,
      addEquality_keeps formed decided one memberA two memberB⟩
  writes m node entry value found empty := by
    refine ⟨writeNodeValue_frame m node _, fun formed decided => ?_⟩
    have live : m.nodes.containsKey node := by simp [containsKey, found]
    obtain ⟨root, rest, cls, member⟩ := formed node (by rw [links_isSome, live])
    have kept := writeNodeValue_keepsSummaries formed node (some value)
    refine ⟨kept.toFrame, formed.compresses kept.nodes, decided.writeNodeValue formed cls member value,
      writeNodeValue_leaves decided cls member (by simp [valueOf, found, empty]) value⟩
  records _ _ := of_tables rfl rfl rfl
  binds _ _ := of_tables rfl rfl rfl
where
  of_tables {m m' : Module P} (nodes : m'.nodes = m.nodes) (functions : m'.functions = m.functions)
      (blocks : m'.blocks = m.blocks) :
      Frame m m' ∧ (WellFormed m.nodes → m.OneDecided → Decides m m') := by
    have keeps := KeepsSummaries.of_tables nodes functions blocks
    refine ⟨keeps.toFrame, fun formed decided => ⟨keeps.toFrame, nodes ▸ formed, ?_, ?_⟩⟩
    · exact decided.of_same formed keeps.nodes (SameValues.of_nodes nodes)
    · intro node value held
      rw [SameValues.of_nodes nodes node, held]

end Module

end LichenVm
