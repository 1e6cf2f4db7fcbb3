import LichenVm.HeldValues
import LichenVm.Freeze

open List Option

namespace LichenVm

open DisjointSet SlotMap

namespace Module

variable {P : Program}

/-- The low type a node's slot holds. A class reads its representative's. -/
def shapeOf (m : Module P) (node : NodeId) : Option LowShape :=
  (m.nodes.get node).bind Node.lowShape

/-- The slots of `m'` hold the low types of `m`. -/
def SameShapes (m m' : Module P) : Prop := ∀ node, m'.shapeOf node = m.shapeOf node

theorem SameShapes.foldl {α : Type} (step : Module P → α → Module P)
    (each : ∀ m item, SameShapes m (step m item)) (items : List α) (m : Module P) :
    SameShapes m (items.foldl step m) := by
  induction items generalizing m with
  | nil => exact fun _ => rfl
  | cons item items ih => exact fun node => (ih (step m item) node).trans (each m item node)

variable {m : Module P}

theorem LinksOnly.shapes {nodes : SlotMap NodeTag (Node P)} (only : LinksOnly m.nodes nodes) :
    SameShapes m { m with nodes } :=
  fun node => bind_eq_of_map_eq _ (only.field Node.lowShape (fun _ _ => rfl) node)

section

variable (m : Module P)

section

variable (node : NodeId)

theorem modifyNode_shapes (f : Node P → Node P)
    (shape : ∀ entry, (f entry).lowShape = entry.lowShape) :
    SameShapes m (m.modifyNode node f) := by
  intro other
  simp only [shapeOf, modifyNode, get_modify]
  split
  · cases m.nodes.get other <;> simp [shape]
  · rfl

theorem find_shapes : SameShapes m (m.find node).2 :=
  LinksOnly.shapes (LinksOnly.find _ _ _)

theorem setNodeValue_shapes (value : Option (Value P)) : SameShapes m (m.setNodeValue node value) :=
  modifyNode_shapes m node _ fun _ => rfl

end

theorem fillClassHoles_shapes (root : NodeId) (value : Value P) :
    SameShapes m (m.fillClassHoles root value) := by
  apply SameShapes.foldl
  intro m member
  apply modifyNode_shapes
  intro entry
  split <;> rfl

theorem fillAcross_shapes (a b rootA rootB : NodeId) :
    SameShapes m (m.fillAcross a b rootA rootB) := by
  unfold fillAcross
  split
  · exact fillClassHoles_shapes m rootA _
  · exact fillClassHoles_shapes m rootB _
  · exact fun _ => rfl

theorem propagateClassValue_shapes (root : NodeId) (value : Value P) :
    SameShapes m (m.propagateClassValue root value) :=
  SameShapes.foldl _ (fun m member => setNodeValue_shapes m member (some value)) _ m

end

variable {root : NodeId} {rest : List NodeId}

theorem shapeOf_refineClassLowType (cls : IsClass m.nodes root rest) (shape : LowShape)
    (node : NodeId) :
    (m.refineClassLowType root shape).shapeOf node =
      if node = root then some ((m.shapeOf root).getD shape) else m.shapeOf node := by
  obtain ⟨entry, found⟩ :=
    (containsKey_eq_true _ _).1 (live_of_class cls cls.root_mem)
  have top := classRoot_eq cls cls.root_mem
  have stated : m.shapeOf root = entry.lowShape := by simp [shapeOf, found]
  simp only [refineClassLowType, top, found, stated]
  cases held : entry.lowShape with
  | none =>
    simp only [shapeOf, modifyNode, get_modify]
    by_cases same : node = root
    · subst same
      simp [found]
    · simp [same]
  | some other =>
    by_cases same : node = root
    · subst same
      simp [stated, held]
    · simp [same]

theorem shapeOf_observeClassLowType (cls : IsClass m.nodes root rest) (value : Value P)
    (node : NodeId) :
    (m.observeClassLowType root value).shapeOf node =
      if node = root then (m.shapeOf root).or (observedLowShape value) else m.shapeOf node := by
  unfold observeClassLowType
  cases observed : observedLowShape value with
  | none =>
    by_cases same : node = root <;> simp [same]
  | some shape =>
    rw [shapeOf_refineClassLowType cls]
    cases m.shapeOf root <;> rfl

/-- A node that is its class's only member. -/
def Lone (m : Module P) (node : NodeId) : Prop :=
  (parentOf m.nodes node).isNone ∧ (nextOf m.nodes node).isNone

instance (m : Module P) (node : NodeId) : Decidable (m.Lone node) :=
  inferInstanceAs (Decidable (_ ∧ _))

variable {node : NodeId}

theorem lone_iff (cls : IsClass m.nodes root rest) (member : node ∈ root :: rest) :
    m.Lone node ↔ node = root ∧ rest = [] := by
  constructor
  · intro lone
    have parent := isNone_iff_eq_none.1 lone.1
    have next := isNone_iff_eq_none.1 lone.2
    have top : node = root := by
      rw [← cls.climbs node member, climb_root _ _ _ parent]
    have seam := cls.linked.1
    rw [← top, next] at seam
    exact ⟨top, List.head?_eq_none_iff.1 seam.symm⟩
  · rintro ⟨rfl, rfl⟩
    have seam := cls.linked.1
    exact ⟨by rw [cls.rooted]; rfl, by rw [seam]; rfl⟩

/-- Where a class holds a scalar, its low type is that scalar's, whichever member is asked. -/
def ScalarsStated (m : Module P) : Prop :=
  ∀ root rest, IsClass m.nodes root rest → ∀ member ∈ root :: rest, ∀ value,
    m.valueOf member = some value → ∀ shape, observedLowShape value = some shape →
      ∀ other ∈ root :: rest, m.classLowType other = some shape

/-- Every class states the shape of what each of its members holds, and no other. -/
structure Stated (m : Module P) : Prop where
  formed : WellFormed m.nodes
  decided : m.OneDecided
  shapes : ∀ root rest, IsClass m.nodes root rest → ∀ member ∈ root :: rest,
    m.shapeOf root = (m.valueOf member).bind observedLowShape

theorem Stated.scalarsStated (stated : Stated m) : ScalarsStated m := by
  intro root rest cls member inside value held shape observed other within
  show m.shapeOf (m.classRoot other) = some shape
  rw [classRoot_eq cls within, stated.shapes root rest cls member inside, held]
  exact observed

theorem Stated.observes (stated : Stated m) (cls : IsClass m.nodes root rest)
    (member : node ∈ root :: rest) : m.shapeOf root = (m.valueOf node).bind observedLowShape :=
  stated.shapes root rest cls node member

theorem link_fst (nodes : SlotMap NodeTag (Node P)) (ra rb : NodeId) :
    (link nodes ra rb).1 = ra ∨ (link nodes ra rb).1 = rb := by
  by_cases smaller : sizeOf nodes ra < sizeOf nodes rb
  · simp only [link, if_pos smaller]
    split <;> simp
  · simp only [link, if_neg smaller]
    split <;> simp

/-- A new node is a class of its own, which states what the node holds. -/
theorem addNode_slot (m : Module P) (block : BlockId) (operation : Option (Operation P))
    (value : Option (Value P)) :
    (m.addNode block operation value).2.valueOf m.nodes.nextKey = value ∧
      (m.addNode block operation value).2.shapeOf m.nodes.nextKey = value.bind observedLowShape ∧
      ∀ node, node ≠ m.nodes.nextKey →
        (m.addNode block operation value).2.shapeOf node = m.shapeOf node := by
  generalize entered : ({ value, operation, depth := min m.stampDepth 65535, block } : Node P) = entry
  have entries : ∀ node, (makeSet (m.nodes.insert entry) m.nodes.nextKey).get node =
      if node = m.nodes.nextKey then some { entry with equality :=
        { parent := none, next := none, tail := some m.nodes.nextKey, size := 1 } }
      else m.nodes.get node := by
    intro node
    simp only [makeSet, modifyLinks, get_modify, get_insert]
    split <;> rfl
  have own := makeSet_isClass (m.nodes.insert entry) m.nodes.nextKey (by simp [links])
  have holds : entry.value = value := by rw [← entered]
  have unstated : entry.lowShape = none := by rw [← entered]
  simp only [addNode, entered]
  cases value with
  | none =>
    refine ⟨?_, ?_, ?_⟩
    · simp [valueOf, modifyBlock, entries, holds]
    · simp [shapeOf, modifyBlock, entries, unstated]
    · intro node apart
      simp [shapeOf, modifyBlock, entries, apart]
  | some value =>
    generalize made : modifyBlock
      { m with nodes := makeSet (m.nodes.insert entry) m.nodes.nextKey } block _ = m'
    have nodes : m'.nodes = makeSet (m.nodes.insert entry) m.nodes.nextKey := by
      rw [← made]
      rfl
    rw [← nodes] at own entries
    refine ⟨?_, ?_, ?_⟩
    · rw [observeClassLowType_values]
      simp [valueOf, entries, holds]
    · rw [shapeOf_observeClassLowType own, if_pos rfl]
      simp [shapeOf, entries, unstated]
    · intro node apart
      rw [shapeOf_observeClassLowType own, if_neg apart]
      simp [shapeOf, entries, apart]

theorem Stated.addNode (stated : Stated m) (block : BlockId) (operation : Option (Operation P))
    (value : Option (Value P)) : Stated (m.addNode block operation value).2 := by
  have adds := addNode_adds m block operation value
  have older := (addNode_slots m block operation value).2
  obtain ⟨held, shape, others⟩ := addNode_slot m block operation value
  have fresh : ∀ root rest, IsClass m.nodes root rest → ∀ node ∈ root :: rest,
      node ≠ m.nodes.nextKey := by
    rintro root rest cls node member rfl
    have live := live_of_class cls member
    rw [adds.fresh] at live
    cases live
  constructor
  · intro key live
    rw [links_isSome, adds.live] at live
    rcases live with rfl | live
    · exact ⟨_, [], adds.own, mem_cons_self⟩
    · obtain ⟨root, rest, cls, member⟩ := stated.formed key (by rw [links_isSome, live])
      exact ⟨root, rest, adds.kept root rest cls, member⟩
  · intro root rest cls a left b right
    rcases adds.classes stated.formed cls with ⟨rfl, rfl⟩ | old
    · rw [mem_singleton.1 left, mem_singleton.1 right]
    · rw [older a (fresh root rest old a left), older b (fresh root rest old b right)]
      exact stated.decided root rest old a left b right
  · intro root rest cls member inside
    rcases adds.classes stated.formed cls with ⟨rfl, rfl⟩ | old
    · rw [mem_singleton.1 inside, held, shape]
    · rw [older member (fresh root rest old member inside),
        others root (fresh root rest old root mem_cons_self)]
      exact stated.shapes root rest old member inside

/-- A write into an empty class states the shape of the value, unless the node is alone in it. -/
theorem shapeOf_writeNodeValue (cls : IsClass m.nodes root rest) (member : node ∈ root :: rest)
    (value : Value P) (other : NodeId) :
    (m.writeNodeValue node (some value)).shapeOf other =
      if other = root ∧ ¬ m.Lone node then (m.shapeOf root).or (observedLowShape value)
      else m.shapeOf other := by
  have wrote := setNodeValue_keeps m node (some value)
  have cls' := wrote.nodes.classes root rest cls
  have same : (m.setNodeValue node (some value)).Lone node ↔ m.Lone node := by
    rw [lone_iff cls' member, lone_iff cls member]
  simp only [writeNodeValue]
  split
  · rename_i lone
    rw [setNodeValue_shapes, if_neg fun both => both.2 (same.1 lone)]
  · rename_i shared
    obtain ⟨named, found⟩ := find_spec cls' member
    rw [named]
    have spread := found.trans (propagateClassValue_keepsSummaries _ root value)
    rw [shapeOf_observeClassLowType (spread.nodes.classes root rest cls')]
    rw [propagateClassValue_shapes, find_shapes, setNodeValue_shapes, propagateClassValue_shapes,
      find_shapes, setNodeValue_shapes]
    by_cases top : other = root
    · rw [if_pos top, if_pos ⟨top, fun lone => shared (same.2 lone)⟩]
    · rw [if_neg top, if_neg fun both => top both.1]

section

variable (stated : Stated m) (cls : IsClass m.nodes root rest) (member : node ∈ root :: rest)
  (empty : m.valueOf node = none)

include stated cls member empty

theorem Stated.writeNodeValue {value : Value P}
    (seen : m.Lone node → observedLowShape value = none) :
    Stated (m.writeNodeValue node (some value)) := by
  have keeps := writeNodeValue_keepsSummaries stated.formed node (some value)
  have values := valueOf_writeNodeValue cls member value
  have shapes := shapeOf_writeNodeValue cls member value
  have unstated : m.shapeOf root = none := by
    rw [stated.observes cls member, empty]
    rfl
  refine ⟨stated.formed.compresses keeps.nodes, ?_, ?_⟩
  · exact OneDecided.writeNodeValue stated.formed stated.decided cls member value
  · intro top behind cls' other inside
    have old := (keeps.nodes.classes_iff stated.formed top behind).1 cls'
    rw [values, shapes]
    by_cases here : top = root
    · subst here
      obtain ⟨-, rfl⟩ := old.unique cls old.root_mem cls.root_mem
      rw [if_pos inside, unstated]
      by_cases lone : m.Lone node
      · rw [if_neg fun both => both.2 lone]
        exact (seen lone).symm
      · rw [if_pos ⟨rfl, lone⟩]
        rfl
    · have outside : other ∉ root :: rest := old.disjoint cls here inside
      rw [if_neg outside, if_neg fun both => here both.1]
      exact stated.shapes top behind old other inside

theorem unstated_of_lone (lone : m.Lone node) {value : Value P} {shape : LowShape}
    (observed : observedLowShape value = some shape) :
    ¬ ScalarsStated (m.writeNodeValue node (some value)) := by
  intro states
  have keeps := writeNodeValue_keepsSummaries stated.formed node (some value)
  have cls' := keeps.nodes.classes root rest cls
  have held : (m.writeNodeValue node (some value)).valueOf node = some value := by
    rw [valueOf_writeNodeValue cls member, if_pos member]
  have answer := states root rest cls' node member value held shape observed root cls.root_mem
  change (m.writeNodeValue node (some value)).shapeOf
    ((m.writeNodeValue node (some value)).classRoot root) = some shape at answer
  rw [classRoot_eq cls' cls.root_mem, shapeOf_writeNodeValue cls member,
    if_neg fun both => both.2 lone, stated.observes cls member, empty] at answer
  cases answer

end

theorem refineClassLowType_links (m : Module P) (node : NodeId) (shape : LowShape) (key : NodeId) :
    links (m.refineClassLowType node shape).nodes key = links m.nodes key := by
  simp only [refineClassLowType]
  split
  · rfl
  · split
    · simp only [links, modifyNode, get_modify]
      split
      · cases m.nodes.get key <;> rfl
      · rfl
    · rfl

theorem shapeOf_foldl_refine (shapes : List LowShape) (cls : IsClass m.nodes root rest)
    (node : NodeId) :
    (shapes.foldl (fun m shape => m.refineClassLowType root shape) m).shapeOf node =
      if node = root then (m.shapeOf root).or shapes.head? else m.shapeOf node := by
  induction shapes generalizing m with
  | nil =>
    by_cases same : node = root <;> simp [same]
  | cons shape shapes ih =>
    have cls' : IsClass (m.refineClassLowType root shape).nodes root rest :=
      cls.congr fun key _ => refineClassLowType_links m root shape key
    rw [foldl_cons, ih cls']
    by_cases same : node = root
    · rw [if_pos same, if_pos same, shapeOf_refineClassLowType cls, if_pos rfl]
      cases m.shapeOf root <;> rfl
    · rw [if_neg same, if_neg same, shapeOf_refineClassLowType cls, if_neg same]

/-- The joined class states what either side stated. -/
theorem shapeOf_addEquality {a b ra rb : NodeId} {la lb : List NodeId}
    (one : IsClass m.nodes ra la) (left : a ∈ ra :: la) (two : IsClass m.nodes rb lb)
    (right : b ∈ rb :: lb) : ∃ root rest, (root = ra ∨ root = rb) ∧
      IsClass (m.addEquality a b).2.nodes root rest ∧ a ∈ root :: rest ∧ b ∈ root :: rest ∧
      ∀ node, (m.addEquality a b).2.shapeOf node = if node = root then
        (m.shapeOf root).or ((m.shapeOf ra).or (m.shapeOf rb)) else m.shapeOf node := by
  obtain ⟨namedA, foundA⟩ := find_spec one left
  obtain ⟨namedB, foundB⟩ := find_spec (foundA.nodes.classes rb lb two) right
  have shapes : ∀ node, (((m.find a).2.find b).2.fillAcross a b ra rb).shapeOf node =
      m.shapeOf node := by
    intro node
    rw [fillAcross_shapes, find_shapes, find_shapes]
  have looked : ∀ node, (((m.find a).2.find b).2.nodes.get node).bind Node.lowShape =
      m.shapeOf node := by
    intro node
    show ((m.find a).2.find b).2.shapeOf node = _
    rw [find_shapes, find_shapes]
  simp only [addEquality, namedA, namedB, looked]
  have filled := (foundA.trans foundB).trans
    (fillAcross_keepsSummaries ((m.find a).2.find b).2 a b ra rb)
  generalize ((m.find a).2.find b).2.fillAcross a b ra rb = filling at filled shapes ⊢
  have one' := filled.nodes.classes ra la one
  have two' := filled.nodes.classes rb lb two
  have only := LinksOnly.union filling.nodeBound filling.nodes ra rb
  have united := union_rooted filling.nodeBound filling.nodes ra rb one'.rooted two'.rooted
  have first : ((m.shapeOf ra).toList ++ (m.shapeOf rb).toList).head? =
      (m.shapeOf ra).or (m.shapeOf rb) := by
    cases m.shapeOf ra <;> cases m.shapeOf rb <;> rfl
  -- Where the writes behind the union find the class, they state its shape there.
  have finish : ∀ root rest nodes, LinksOnly filling.nodes nodes → IsClass nodes root rest →
      IsClass (((m.shapeOf ra).toList ++ (m.shapeOf rb).toList).foldl
        (fun m shape => m.refineClassLowType root shape)
        (mergeClassSummaries { filling with nodes } ra rb root)).nodes root rest ∧
      ∀ node, (((m.shapeOf ra).toList ++ (m.shapeOf rb).toList).foldl
        (fun m shape => m.refineClassLowType root shape)
        (mergeClassSummaries { filling with nodes } ra rb root)).shapeOf node =
          if node = root then (m.shapeOf root).or ((m.shapeOf ra).or (m.shapeOf rb))
          else m.shapeOf node := by
    intro root rest nodes only cls
    have written : Keeps { filling with nodes }
        (mergeClassSummaries { filling with nodes } ra rb root) := setScopeSummary_keeps _ _ _
    have cls' := written.nodes.classes root rest cls
    have kept : ∀ node, (mergeClassSummaries { filling with nodes } ra rb root).shapeOf node =
        m.shapeOf node := by
      intro node
      have summarised : SameShapes ({ filling with nodes } : Module P)
          (mergeClassSummaries { filling with nodes } ra rb root) :=
        modifyNode_shapes _ root _ fun _ => rfl
      rw [summarised, LinksOnly.shapes only, shapes]
    constructor
    · have refined : KeepsSummaries _ (((m.shapeOf ra).toList ++ (m.shapeOf rb).toList).foldl
          (fun m shape => m.refineClassLowType root shape)
          (mergeClassSummaries { filling with nodes } ra rb root)) :=
        KeepsSummaries.foldl _ (fun m shape => refineClassLowType_keepsSummaries m root shape) _ _
      exact refined.nodes.classes root rest cls'
    · intro node
      rw [shapeOf_foldl_refine _ cls', first, kept, kept]
  by_cases same : ra = rb
  · subst same
    obtain ⟨-, rfl⟩ := one.unique two one.root_mem two.root_mem
    rw [if_pos rfl] at united
    rw [united]
    obtain ⟨cls, states⟩ := finish ra la filling.nodes (LinksOnly.refl _) one'
    exact ⟨ra, la, Or.inl rfl, cls, left, right, states⟩
  · rw [if_neg same] at united
    obtain ⟨rest, joins⟩ := link_joins one' two' same
    rw [united] at only ⊢
    obtain ⟨cls, states⟩ := finish _ rest _ only joins.merged
    refine ⟨_, rest, link_fst .., cls, ?_, ?_, states⟩
    · exact joins.members.mem_iff.2 (mem_append_left _ left)
    · exact joins.members.mem_iff.2 (mem_append_right _ right)

section Equality

variable {m : Module P} {a b ra rb : NodeId} {la lb : List NodeId} (stated : Stated m)
  (one : IsClass m.nodes ra la) (left : a ∈ ra :: la) (two : IsClass m.nodes rb lb)
  (right : b ∈ rb :: lb)

include stated one left two right

theorem classes_addEquality {root : NodeId} {rest : List NodeId}
    (cls : IsClass (m.addEquality a b).2.nodes root rest) (inside : a ∈ root :: rest) :
    (∀ node ∈ root :: rest, node ∈ ra :: la ∨ node ∈ rb :: lb) ∧
      ∀ top behind, IsClass (m.addEquality a b).2.nodes top behind → top ≠ root →
        IsClass m.nodes top behind ∧ top ≠ ra ∧ top ≠ rb := by
  obtain ⟨root', rest', equates⟩ := addEquality_spec one left two right
  rcases equates.joins with ⟨same, rfl, rfl, compressed⟩ | ⟨apart, joins⟩
  · obtain ⟨rfl, rfl⟩ := cls.unique (compressed.classes _ _ one) inside left
    refine ⟨fun node member => Or.inl member, ?_⟩
    intro top behind cls' away
    exact ⟨(compressed.classes_iff stated.formed top behind).1 cls', away, same ▸ away⟩
  · have member : a ∈ root' :: rest' :=
      joins.members.mem_iff.2 (mem_append_left _ left)
    obtain ⟨rfl, rfl⟩ := cls.unique joins.merged inside member
    refine ⟨fun node member => mem_append.1 (joins.members.mem_iff.1 member), ?_⟩
    intro top behind cls' away
    rcases joins.classes stated.formed one two cls' with ⟨same, -⟩ | old
    · exact absurd same away
    · exact old

/-- Equating classes that hold one value, where both hold one, keeps every shape stated. -/
theorem Stated.addEquality (agree : ∀ va vb, m.valueOf a = some va → m.valueOf b = some vb →
    observedLowShape va = observedLowShape vb) : Stated (m.addEquality a b).2 := by
  obtain ⟨root', rest', equates⟩ := addEquality_spec one left two right
  obtain ⟨root, rest, side, cls, inA, inB, shapes⟩ := shapeOf_addEquality one left two right
  obtain ⟨parts, others⟩ := classes_addEquality stated one left two right cls inA
  have values := valueOf_addEquality stated.formed stated.decided one left two right
  refine ⟨equates.wellFormed stated.formed one two,
    stated.decided.addEquality stated.formed one left two right, ?_⟩
  intro top behind cls' member inside
  rw [shapes, values]
  by_cases here : top = root
  · subst here
    obtain ⟨-, rfl⟩ := cls'.unique cls cls'.root_mem cls.root_mem
    rw [if_pos rfl]
    have ofA : ∀ node ∈ ra :: la, m.shapeOf ra = (m.valueOf node).bind observedLowShape :=
      fun node within => stated.observes one within
    have ofB : ∀ node ∈ rb :: lb, m.shapeOf rb = (m.valueOf node).bind observedLowShape :=
      fun node within => stated.observes two within
    have head : m.shapeOf top = m.shapeOf ra ∨ m.shapeOf top = m.shapeOf rb := by
      rcases side with rfl | rfl
      · exact Or.inl rfl
      · exact Or.inr rfl
    cases va : m.valueOf a with
    | none =>
      have bare : m.shapeOf ra = none := by rw [ofA a left, va]; rfl
      have result : (m.shapeOf top).or ((m.shapeOf ra).or (m.shapeOf rb)) = m.shapeOf rb := by
        rcases head with same | same <;> rw [same, bare] <;> cases m.shapeOf rb <;> rfl
      rw [result]
      by_cases within : member ∈ ra :: la
      · rw [if_pos ⟨rfl, within⟩, ofB b right]
      · have within' := (parts member inside).resolve_left within
        rw [if_neg fun both => within both.2]
        split
        · rename_i both
          rw [ofB b right, both.1]
        · exact ofB member within'
    | some value =>
      rw [if_neg fun both => by cases both.1]
      cases vb : m.valueOf b with
      | none =>
        have bare : m.shapeOf rb = none := by rw [ofB b right, vb]; rfl
        have result : (m.shapeOf top).or ((m.shapeOf ra).or (m.shapeOf rb)) = m.shapeOf ra := by
          rcases head with same | same <;> rw [same, bare] <;> cases m.shapeOf ra <;> rfl
        rw [result]
        by_cases within : member ∈ rb :: lb
        · rw [if_pos ⟨rfl, within⟩, ofA a left, va]
        · rw [if_neg fun both => within both.2]
          exact ofA member ((parts member inside).resolve_right within)
      | some other =>
        have same : m.shapeOf ra = m.shapeOf rb := by
          rw [ofA a left, ofB b right, va, vb]
          exact agree value other va vb
        have result : (m.shapeOf top).or ((m.shapeOf ra).or (m.shapeOf rb)) = m.shapeOf ra := by
          rcases head with alike | alike <;> rw [alike, same] <;> cases m.shapeOf rb <;> rfl
        rw [result, if_neg fun both => by cases both.1]
        rcases parts member inside with within | within
        · exact ofA member within
        · rw [same]
          exact ofB member within
  · obtain ⟨old, awayA, awayB⟩ := others top behind cls' here
    rw [if_neg here, if_neg fun both => old.disjoint one awayA inside both.2,
      if_neg fun both => old.disjoint two awayB inside both.2]
    exact stated.shapes top behind old member inside

end Equality

end Module

/-- What states are reached by: allocations, writes and merges. -/
inductive Observation (P : Program) where
  | addNode (block : BlockId) (operation : Option (Operation P)) (value : Option (Value P))
  | writeNodeValue (node : NodeId) (value : Option (Value P))
  | writeNodeValueIfAbsent (node : NodeId) (value : Option (Value P))
  | addEquality (a b : NodeId)

namespace Observation

open Module

variable {P : Program}

def run (m : Module P) : Observation P → Module P
  | addNode block operation value => (m.addNode block operation value).2
  | writeNodeValue node value => m.writeNodeValue node value
  | writeNodeValueIfAbsent node value => m.writeNodeValueIfAbsent node value
  | addEquality a b => (m.addEquality a b).2

/-- The callers' contracts: the named nodes are live, a value is written to a slot that holds none,
and two decided classes are merged where they hold one value, whose shape is one. -/
def Allowed (m : Module P) : Observation P → Prop
  | addNode block _ _ => m.blocks.containsKey block = true
  | writeNodeValue node _ => m.nodes.containsKey node = true ∧ m.valueOf node = none
  | writeNodeValueIfAbsent node _ => m.nodes.containsKey node = true
  | addEquality a b => m.nodes.containsKey a = true ∧ m.nodes.containsKey b = true ∧
      ∀ va vb, m.valueOf a = some va → m.valueOf b = some vb →
        observedLowShape va = observedLowShape vb

/-- The step does not write a scalar into the empty slot of a node that is alone in its class. -/
def Observed (m : Module P) : Observation P → Prop
  | writeNodeValue node (some value) | writeNodeValueIfAbsent node (some value) =>
    m.valueOf node = none → m.Lone node → observedLowShape value = none
  | _ => True

end Observation

/-- The states reached from one with no nodes by steps that keep their contracts, each of them as
`meets` asks. -/
inductive ObservedRun {P : Program} (meets : Module P → Observation P → Prop) : Module P → Prop
  | start (m : Module P) (empty : m.nodes = {}) : ObservedRun meets m
  | step {m : Module P} (before : ObservedRun meets m) (op : Observation P)
      (allowed : op.Allowed m) (met : meets m op) : ObservedRun meets (op.run m)

namespace Module

variable {P : Program}

theorem Stated.start (m : Module P) (empty : m.nodes = {}) : Stated m := by
  have dead : ∀ node, m.nodes.containsKey node = false := by
    intro node
    rw [empty]
    rcases node with ⟨_ | index⟩ <;> simp [containsKey, SlotMap.get]
  have none_ : ∀ root rest, ¬ IsClass m.nodes root rest := by
    intro root rest cls
    have live := live_of_class cls cls.root_mem
    rw [dead] at live
    cases live
  refine ⟨?_, fun root rest cls => absurd cls (none_ root rest),
    fun root rest cls => absurd cls (none_ root rest)⟩
  intro key live
  rw [links_isSome, dead] at live
  cases live

variable {m : Module P}

theorem Stated.class_of (stated : Stated m) {node : NodeId}
    (live : m.nodes.containsKey node) :
    ∃ root rest, IsClass m.nodes root rest ∧ node ∈ root :: rest :=
  stated.formed node (by rw [links_isSome, live])

theorem writeNodeValue_none {node : NodeId} (empty : m.valueOf node = none) :
    Stated m → Stated (m.writeNodeValue node none) := by
  intro stated
  have keeps := setNodeValue_keeps m node none
  have values : SameValues m (m.setNodeValue node none) := by
    intro other
    rw [valueOf_setNodeValue]
    split
    · rename_i here
      rw [here.1, empty]
    · rfl
  refine ⟨stated.formed.compresses keeps.nodes, stated.decided.of_same stated.formed keeps.nodes values, ?_⟩
  intro root rest cls member inside
  have old := (keeps.nodes.classes_iff stated.formed root rest).1 cls
  show (m.setNodeValue node none).shapeOf root = ((m.setNodeValue node none).valueOf member).bind _
  rw [setNodeValue_shapes, values]
  exact stated.shapes root rest old member inside

/-- One allowed step that meets the condition keeps every shape stated. -/
theorem Stated.step (stated : Stated m) {op : Observation P} (allowed : op.Allowed m)
    (met : op.Observed m) : Stated (op.run m) := by
  have writes : ∀ node (value : Option (Value P)), m.nodes.containsKey node →
      m.valueOf node = none → Observation.Observed m (.writeNodeValue node value) →
      Stated (m.writeNodeValue node value) := by
    intro node value live empty seen
    obtain ⟨root, rest, cls, member⟩ := stated.class_of live
    cases value with
    | none => exact writeNodeValue_none empty stated
    | some value => exact stated.writeNodeValue cls member empty (seen empty)
  cases op with
  | addNode block operation value => exact stated.addNode block operation value
  | writeNodeValue node value => exact writes node value allowed.1 allowed.2 met
  | writeNodeValueIfAbsent node value =>
    show Stated (m.writeNodeValueIfAbsent node value)
    unfold writeNodeValueIfAbsent
    split
    · exact stated
    · rename_i absent
      have empty : m.valueOf node = none := not_isSome_iff_eq_none.1 absent
      exact writes node value allowed empty (by cases value <;> exact met)
  | addEquality a b =>
    obtain ⟨liveA, liveB, agree⟩ := allowed
    obtain ⟨ra, la, one, left⟩ := stated.class_of liveA
    obtain ⟨rb, lb, two, right⟩ := stated.class_of liveB
    exact stated.addEquality one left two right agree

/-- In a run whose steps never write a scalar to a lone node, every class that holds a scalar states
it; and the next step that its contract allows keeps this exactly when it does not either. -/
theorem scalars_stated {m : Module P}
    (reached : ObservedRun (fun m (op : Observation P) => op.Observed m) m) :
    ScalarsStated m ∧ ∀ op : Observation P, op.Allowed m →
      (ScalarsStated (op.run m) ↔ op.Observed m) := by
  have stated : Stated m := by
    induction reached with
    | start m empty => exact Stated.start m empty
    | step before op allowed met ih => exact ih.step allowed met
  refine ⟨stated.scalarsStated, ?_⟩
  intro op allowed
  refine ⟨?_, fun met => (stated.step allowed met).scalarsStated⟩
  intro states
  have broken : ∀ node (value : Value P), m.nodes.containsKey node = true →
      ScalarsStated (m.writeNodeValue node (some value)) → m.valueOf node = none → m.Lone node →
        observedLowShape value = none := by
    intro node value live states empty lone
    obtain ⟨root, rest, cls, member⟩ := stated.class_of live
    cases observed : observedLowShape value with
    | none => rfl
    | some shape => exact absurd states (unstated_of_lone stated cls member empty lone observed)
  cases op with
  | addNode block operation value => trivial
  | writeNodeValue node value =>
    cases value with
    | none => trivial
    | some value => exact broken node value allowed.1 states
  | writeNodeValueIfAbsent node value =>
    cases value with
    | none => trivial
    | some value =>
      intro empty lone
      refine broken node value allowed ?_ empty lone
      have absent : ¬ ((m.nodes.get node).bind Node.value).isSome = true := by
        rw [← valueOf, empty]
        simp
      have wrote : m.writeNodeValueIfAbsent node (some value) =
          m.writeNodeValue node (some value) := if_neg absent
      rw [← wrote]
      exact states
  | addEquality a b => trivial

def oneBlock : Module Program.plain where
  blocks := insert {} { parent := none }

/-- An empty node beside one that holds a scalar. -/
def beside : Module Program.plain :=
  Observation.run (Observation.run oneBlock (.addNode ⟨1⟩ none none))
    (.addNode ⟨1⟩ none (some (.low (.usize 5))))

theorem beside_reached : ObservedRun (fun m op => Observation.Observed m op) beside :=
  ((ObservedRun.start oneBlock rfl).step (.addNode ⟨1⟩ none none) rfl trivial).step
    (.addNode ⟨1⟩ none (some (.low (.usize 5)))) rfl trivial

/-- The two are merged, and both read the scalar's shape. -/
theorem scalars_stated_merged :
    let merged := Observation.run beside (.addEquality ⟨1⟩ ⟨2⟩)
    ScalarsStated merged ∧ merged.classLowType ⟨1⟩ = some .usize :=
  ⟨(scalars_stated (beside_reached.step (.addEquality ⟨1⟩ ⟨2⟩)
    ⟨rfl, rfl, fun _ _ left _ => by cases left⟩ trivial)).1, rfl⟩

/-- A node that is allocated empty, then written on its own. -/
def writtenLate : Module Program.plain :=
  Observation.run (Observation.run oneBlock (.addNode ⟨1⟩ none none))
    (.writeNodeValue ⟨1⟩ (some (.low (.usize 5))))

/-- The early return for a lone node skips the observation: the class holds a scalar and states
nothing. -/
theorem writtenLate_unstated : ObservedRun (fun _ _ => True) writtenLate ∧
    writtenLate.valueOf ⟨1⟩ = some (.low (.usize 5)) ∧ writtenLate.classLowType ⟨1⟩ = none ∧
    ¬ ScalarsStated writtenLate := by
  have made : Stated (Observation.run oneBlock (.addNode ⟨1⟩ none none)) :=
    (Stated.start oneBlock rfl).addNode ⟨1⟩ none none
  have live : (Observation.run oneBlock (.addNode ⟨1⟩ none none)).nodes.containsKey ⟨1⟩ = true := rfl
  obtain ⟨root, rest, cls, member⟩ := made.class_of live
  refine ⟨?_, rfl, rfl, ?_⟩
  · exact ((ObservedRun.start oneBlock rfl).step (.addNode ⟨1⟩ none none) rfl trivial).step
      (.writeNodeValue ⟨1⟩ (some (.low (.usize 5)))) ⟨rfl, rfl⟩ trivial
  · exact unstated_of_lone made cls member rfl ⟨rfl, rfl⟩ rfl

end Module

end LichenVm
