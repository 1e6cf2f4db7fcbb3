import LichenVm.Release

namespace LichenVm

open DisjointSet LexicalScope LinkedList SlotMap

namespace Module

variable {P : Program}

/-- The function a node's owner tag names. -/
def ownerOf (m : Module P) (node : NodeId) : Option FunctionId :=
  (m.nodes.get node).bind Node.function

/-- The scope summary a node's slot holds; a class reads its representative's. -/
def summaryOf (m : Module P) (node : NodeId) : Option (Scope FunctionId) :=
  (m.nodes.get node).bind Node.scopeSummary

section

variable (m : Module P) (node : NodeId)

include m node

theorem links_isSome : (links m.nodes node).isSome = m.nodes.containsKey node := by
  simp [links, containsKey]

theorem homeOf_isSome : (m.homeOf node).isSome = m.nodes.containsKey node := by
  simp [homeOf, containsKey]

theorem ownerScope_eq : m.ownerScope node = (m.ownerOf node).bind m.functionScope := rfl

end

/-- `m'` has the nodes of `m`, homed and owned alike. -/
structure SameNodes (m m' : Module P) : Prop where
  slots : m'.nodes.slots.length = m.nodes.slots.length
  live : ∀ node, m'.nodes.containsKey node = m.nodes.containsKey node
  home : ∀ node, m'.homeOf node = m.homeOf node
  owner : ∀ node, m'.ownerOf node = m.ownerOf node

theorem SameNodes.trans {first second third : Module P} (one : SameNodes first second)
    (two : SameNodes second third) : SameNodes first third where
  slots := two.slots.trans one.slots
  live node := (two.live node).trans (one.live node)
  home node := (two.home node).trans (one.home node)
  owner node := (two.owner node).trans (one.owner node)

/-- `m'` has the nodes of `m`, homed and owned alike, and its functions and blocks. -/
structure Frame (m m' : Module P) : Prop extends SameNodes m m' where
  functions : m'.functions = m.functions
  blocks : m'.blocks = m.blocks

namespace Frame

theorem refl (m : Module P) : Frame m m :=
  ⟨⟨rfl, fun _ => rfl, fun _ => rfl, fun _ => rfl⟩, rfl, rfl⟩

theorem trans {first second third : Module P} (one : Frame first second)
    (two : Frame second third) : Frame first third :=
  ⟨one.toSameNodes.trans two.toSameNodes, two.functions.trans one.functions,
    two.blocks.trans one.blocks⟩

theorem ownerScope {m m' : Module P} (frame : Frame m m') (node : NodeId) :
    m'.ownerScope node = m.ownerScope node := by
  have scopes : m'.functionScope = m.functionScope := by
    funext function
    simp only [functionScope, frame.functions]
  rw [ownerScope_eq, ownerScope_eq, frame.owner, scopes]

end Frame

/-- `m'` differs from `m` in what its classes hold and in compressed parent links alone. -/
structure Keeps (m m' : Module P) : Prop extends Frame m m' where
  nodes : Compresses m.nodes m'.nodes

namespace Keeps

theorem refl (m : Module P) : Keeps m m :=
  ⟨Frame.refl m, Compresses.refl _⟩

theorem trans {first second third : Module P} (one : Keeps first second)
    (two : Keeps second third) : Keeps first third :=
  ⟨one.toFrame.trans two.toFrame, one.nodes.trans two.nodes⟩

end Keeps

theorem bind_eq_of_map_eq {α : Type} {first second : Option (Node P)} (field : Node P → Option α)
    (same : first.map field = second.map field) : first.bind field = second.bind field := by
  cases first <;> cases second <;> simp_all

section

variable (m : Module P)

include m

theorem modifyNode_keeps (node : NodeId) (f : Node P → Node P)
    (equality : ∀ entry, (f entry).equality = entry.equality)
    (block : ∀ entry, (f entry).block = entry.block)
    (owner : ∀ entry, (f entry).function = entry.function) : Keeps m (m.modifyNode node f) := by
  have same : ∀ key, links (m.modifyNode node f).nodes key = links m.nodes key := by
    intro key
    simp only [links, modifyNode, get_modify]
    split
    · cases m.nodes.get key <;> simp [equality]
    · rfl
  have field : ∀ {α : Type} (read : Node P → α), (∀ entry, read (f entry) = read entry) → ∀ key,
      ((m.modifyNode node f).nodes.get key).map read = (m.nodes.get key).map read := by
    intro α read apart key
    simp only [modifyNode, get_modify]
    split
    · cases m.nodes.get key <;> simp [apart]
    · rfl
  refine ⟨⟨⟨slots_length_modify _ _ _, ?_, ?_, ?_⟩, rfl, rfl⟩, ?_⟩
  · exact fun key => containsKey_modify _ _ _ _
  · exact field Node.block block
  · exact fun key => bind_eq_of_map_eq _ (field Node.function owner key)
  · exact Compresses.of_links same

theorem summaryOf_modifyNode (node other : NodeId) (f : Node P → Node P)
    (summary : ∀ entry, (f entry).scopeSummary = entry.scopeSummary) :
    (m.modifyNode node f).summaryOf other = m.summaryOf other := by
  simp only [summaryOf, modifyNode, get_modify]
  split
  · cases m.nodes.get other <;> simp [summary]
  · rfl

theorem setNodeValue_keeps (node : NodeId) (value : Option (Value P)) :
    Keeps m (m.setNodeValue node value) :=
  modifyNode_keeps m node _ (fun _ => rfl) (fun _ => rfl) (fun _ => rfl)

theorem setScopeSummary_keeps (node : NodeId) (summary : Option (Scope FunctionId)) :
    Keeps m (m.setScopeSummary node summary) :=
  modifyNode_keeps m node _ (fun _ => rfl) (fun _ => rfl) (fun _ => rfl)

theorem summaryOf_setScopeSummary (node other : NodeId) (summary : Option (Scope FunctionId))
    (live : m.nodes.containsKey node) :
    (m.setScopeSummary node summary).summaryOf other =
      if other = node then summary else m.summaryOf other := by
  obtain ⟨entry, found⟩ := (containsKey_eq_true _ _).1 live
  simp only [summaryOf, setScopeSummary, modifyNode, get_modify]
  by_cases same : other = node
  · subst same
    simp [found]
  · simp [same]

end

/-- A write that touches neither a node's links, home, owner nor its scope summary. -/
structure KeepsSummaries (m m' : Module P) : Prop extends Keeps m m' where
  summary : ∀ node, m'.summaryOf node = m.summaryOf node

namespace KeepsSummaries

theorem refl (m : Module P) : KeepsSummaries m m :=
  ⟨Keeps.refl m, fun _ => rfl⟩

theorem trans {first second third : Module P} (one : KeepsSummaries first second)
    (two : KeepsSummaries second third) : KeepsSummaries first third :=
  ⟨one.toKeeps.trans two.toKeeps, fun node => (two.summary node).trans (one.summary node)⟩

theorem of_tables {m m' : Module P} (nodes : m'.nodes = m.nodes)
    (functions : m'.functions = m.functions) (blocks : m'.blocks = m.blocks) :
    KeepsSummaries m m' := by
  refine ⟨⟨⟨⟨?_, ?_, ?_, ?_⟩, functions, blocks⟩, ?_⟩, ?_⟩
  · rw [nodes]
  · exact fun node => by rw [nodes]
  · exact fun node => by simp only [homeOf, nodes]
  · exact fun node => by simp only [ownerOf, nodes]
  · rw [nodes]
    exact Compresses.refl _
  · exact fun node => by simp only [summaryOf, nodes]

theorem foldl {α : Type} (step : Module P → α → Module P)
    (each : ∀ m item, KeepsSummaries m (step m item)) (items : List α) (m : Module P) :
    KeepsSummaries m (items.foldl step m) := by
  induction items generalizing m with
  | nil => exact refl m
  | cons item items ih => exact (each m item).trans (ih _)

end KeepsSummaries

section

variable (m : Module P)

include m

theorem setNodeValue_keepsSummaries (node : NodeId) (value : Option (Value P)) :
    KeepsSummaries m (m.setNodeValue node value) :=
  ⟨setNodeValue_keeps m node value, fun other => summaryOf_modifyNode m node other _ fun _ => rfl⟩

section

variable (representative : NodeId) (value : Value P)

theorem fillClassHoles_keepsSummaries :
    KeepsSummaries m (m.fillClassHoles representative value) := by
  refine KeepsSummaries.foldl _ (fun m member => ?_) _ m
  have shape : ∀ {α : Type} (field : Node P → α) (entry : Node P),
      field { entry with value := some value } = field entry →
      field (if entry.value.isNone then { entry with value := some value } else entry) =
        field entry := by
    intro α field entry same
    split
    · exact same
    · rfl
  exact ⟨modifyNode_keeps m member _ (fun entry => shape Node.equality entry rfl)
    (fun entry => shape Node.block entry rfl) (fun entry => shape Node.function entry rfl),
    fun other => summaryOf_modifyNode m member other _ fun entry => shape Node.scopeSummary entry rfl⟩

theorem propagateClassValue_keepsSummaries :
    KeepsSummaries m (m.propagateClassValue representative value) :=
  KeepsSummaries.foldl _ (fun m member => setNodeValue_keepsSummaries m member (some value)) _ m

end

theorem refineClassLowType_keepsSummaries (node : NodeId) (shape : LowShape) :
    KeepsSummaries m (m.refineClassLowType node shape) := by
  simp only [refineClassLowType]
  split
  · exact KeepsSummaries.refl m
  · split
    · exact ⟨modifyNode_keeps m _ _ (fun _ => rfl) (fun _ => rfl) (fun _ => rfl),
        fun other => summaryOf_modifyNode m _ other _ fun _ => rfl⟩
    · exact KeepsSummaries.refl m

theorem observeClassLowType_keepsSummaries (node : NodeId) (value : Value P) :
    KeepsSummaries m (m.observeClassLowType node value) := by
  simp only [observeClassLowType]
  split
  · exact KeepsSummaries.refl m
  · exact refineClassLowType_keepsSummaries m node _

end

variable {m : Module P} {root : NodeId} {rest : List NodeId}

theorem length_lt_nodeBound (cls : IsClass m.nodes root rest) : rest.length < m.nodeBound := by
  have bound := length_le_of_live m.nodes (root :: rest) cls.distinct fun key member => by
    rw [← links_isSome]
    exact cls.live key member
  exact bound

theorem membersOf_eq (cls : IsClass m.nodes root rest) : m.membersOf root = root :: rest :=
  membersFrom_linked m.nodes rest root cls.linked m.nodeBound (length_lt_nodeBound cls)

variable {node : NodeId}

theorem classRoot_eq (cls : IsClass m.nodes root rest) (member : node ∈ root :: rest) :
    m.classRoot node = root :=
  climb_mono m.nodes _ _ node root cls.rooted (cls.climbs node member)
    (Nat.le_of_lt (length_lt_nodeBound cls))

/-- `nodes'` differs from `nodes` in the union-find's links alone. -/
structure LinksOnly (nodes nodes' : SlotMap NodeTag (Node P)) : Prop where
  slots : nodes'.slots.length = nodes.slots.length
  entry : ∀ key, ∃ f : Meta NodeId → Meta NodeId,
    nodes'.get key = (nodes.get key).map fun entry => { entry with equality := f entry.equality }

namespace LinksOnly

variable (nodes : SlotMap NodeTag (Node P))

theorem refl : LinksOnly nodes nodes :=
  ⟨rfl, fun key => ⟨id, by cases nodes.get key <;> rfl⟩⟩

theorem trans {first second third : SlotMap NodeTag (Node P)} (one : LinksOnly first second)
    (two : LinksOnly second third) : LinksOnly first third := by
  refine ⟨two.slots.trans one.slots, fun key => ?_⟩
  obtain ⟨f, left⟩ := one.entry key
  obtain ⟨g, right⟩ := two.entry key
  refine ⟨g ∘ f, ?_⟩
  rw [right, left]
  cases first.get key <;> rfl

theorem modifyLinks (key : NodeId) (f : Meta NodeId → Meta NodeId) :
    LinksOnly nodes (modifyLinks nodes key f) := by
  refine ⟨slots_length_modify _ _ _, fun other => ?_⟩
  simp only [DisjointSet.modifyLinks, get_modify]
  split
  · exact ⟨f, rfl⟩
  · exact (refl nodes).entry other

section

variable (fuel : Nat) (nodes : SlotMap NodeTag (Node P))

theorem find (node : NodeId) : LinksOnly nodes (DisjointSet.find fuel nodes node).2 := by
  induction fuel generalizing nodes node with
  | zero => exact refl nodes
  | succ fuel ih =>
    simp only [DisjointSet.find]
    split
    · exact refl nodes
    · next parent _ =>
      split
      · exact (ih nodes parent).trans (modifyLinks _ _ _)
      · exact ih nodes parent

theorem union (a b : NodeId) : LinksOnly nodes (DisjointSet.union fuel nodes a b).2 := by
  have finds := (find fuel nodes a).trans (find fuel (DisjointSet.find fuel nodes a).2 b)
  simp only [DisjointSet.union]
  split
  · exact finds
  · simp only [link]
    split
    · exact finds.trans (((modifyLinks _ _ _).trans (modifyLinks _ _ _)).trans (modifyLinks _ _ _))
    · exact finds

end

theorem relink (representative : NodeId) (rest : List NodeId)
    (nodes : SlotMap NodeTag (Node P)) (previous : NodeId) :
    LinksOnly nodes (relink nodes representative previous rest) := by
  induction rest generalizing nodes previous with
  | nil => exact modifyLinks _ _ _
  | cons member rest ih =>
    exact ((modifyLinks _ _ _).trans (modifyLinks _ _ _)).trans (ih _ member)

theorem rebuild (members : List NodeId) : LinksOnly nodes (rebuild nodes members) := by
  cases members with
  | nil => exact refl nodes
  | cons representative rest =>
    exact ((modifyLinks _ _ _).trans (relink representative rest _ representative)).trans
      (modifyLinks _ _ _)

variable {nodes : SlotMap NodeTag (Node P)}

theorem field {α : Type} {nodes' : SlotMap NodeTag (Node P)} (only : LinksOnly nodes nodes')
    (read : Node P → α) (apart : ∀ entry equality, read { entry with equality } = read entry)
    (key : NodeId) : (nodes'.get key).map read = (nodes.get key).map read := by
  obtain ⟨f, same⟩ := only.entry key
  rw [same]
  cases nodes.get key <;> simp [apart]

section

variable {m : Module P} (only : LinksOnly m.nodes nodes)

include only

theorem frame : Frame m { m with nodes } where
  slots := only.slots
  live node := by
    simpa [containsKey] using congrArg Option.isSome
      (only.field (fun _ => ()) (fun _ _ => rfl) node)
  home := only.field Node.block fun _ _ => rfl
  owner node := bind_eq_of_map_eq _ (only.field Node.function (fun _ _ => rfl) node)
  functions := rfl
  blocks := rfl

theorem summary (node : NodeId) : ({ m with nodes } : Module P).summaryOf node = m.summaryOf node :=
  bind_eq_of_map_eq _ (only.field Node.scopeSummary (fun _ _ => rfl) node)

end

end LinksOnly

theorem find_spec (cls : IsClass m.nodes root rest) (member : node ∈ root :: rest) :
    (m.find node).1 = root ∧ KeepsSummaries m (m.find node).2 := by
  have found := cls.find member m.nodeBound (Nat.le_of_lt (length_lt_nodeBound cls))
  have only := LinksOnly.find m.nodeBound m.nodes node
  exact ⟨found.1, ⟨⟨only.frame, found.2⟩, only.summary⟩⟩

section

variable (m : Module P) (node : NodeId)

theorem find_frame : Frame m (m.find node).2 :=
  (LinksOnly.find m.nodeBound m.nodes node).frame

section

variable (dead : m.nodes.containsKey node = false)

include dead

theorem links_of_dead : links m.nodes node = none := by
  rw [← Option.isNone_iff_eq_none, ← Option.not_isSome, links_isSome, dead]
  rfl

theorem parentOf_of_dead : parentOf m.nodes node = none := by
  rw [parentOf, links_of_dead m node dead]
  rfl

theorem find_of_dead : m.find node = (node, m) := by
  simp only [find, find_rooted m.nodeBound m.nodes node (parentOf_of_dead m node dead)]

end

end

theorem find_keeps (formed : WellFormed m.nodes) (node : NodeId) :
    KeepsSummaries m (m.find node).2 := by
  cases live : m.nodes.containsKey node with
  | false =>
    rw [find_of_dead m node live]
    exact KeepsSummaries.refl m
  | true =>
    obtain ⟨root, rest, cls, member⟩ := formed node (by rw [links_isSome, live])
    exact (find_spec cls member).2

/-- A refresh gives the class's representative the fold over its members' owners. -/
theorem refreshClassSummary_spec (cls : IsClass m.nodes root rest) (member : node ∈ root :: rest) :
    Keeps m (m.refreshClassSummary node) ∧ ∀ other, (m.refreshClassSummary node).summaryOf other =
        if other = root then foldSummary ((root :: rest).map m.ownerScope)
        else m.summaryOf other := by
  obtain ⟨named, kept⟩ := find_spec cls member
  have cls' := kept.nodes.classes root rest cls
  have live : (m.find node).2.nodes.containsKey root := by
    rw [← links_isSome]
    exact cls'.live root cls'.root_mem
  have owners : (m.find node).2.ownerScope = m.ownerScope := funext kept.ownerScope
  have finish : ∀ summary, summary = foldSummary ((root :: rest).map m.ownerScope) →
      Keeps m ((m.find node).2.setScopeSummary root summary) ∧
        ∀ other, ((m.find node).2.setScopeSummary root summary).summaryOf other =
          if other = root then foldSummary ((root :: rest).map m.ownerScope)
          else m.summaryOf other := by
    rintro summary rfl
    refine ⟨kept.toKeeps.trans (setScopeSummary_keeps _ _ _), fun other => ?_⟩
    rw [summaryOf_setScopeSummary _ _ _ _ live, kept.summary]
  simp only [refreshClassSummary, named]
  split
  · next lone =>
    have alone : rest = [] := by
      have seam := cls'.linked.1
      rw [Option.isNone_iff_eq_none.1 lone] at seam
      exact List.head?_eq_none_iff.1 seam.symm
    exact finish _ (by rw [owners, alone]; rfl)
  · exact finish _ (by rw [membersOf_eq cls', owners])

theorem fillAcross_keepsSummaries (m : Module P) (a b rootA rootB : NodeId) :
    KeepsSummaries m (m.fillAcross a b rootA rootB) := by
  simp only [fillAcross]
  split
  · exact fillClassHoles_keepsSummaries m _ _
  · exact fillClassHoles_keepsSummaries m _ _
  · exact KeepsSummaries.refl m

theorem addEquality_frame (m : Module P) (a b : NodeId) : Frame m (m.addEquality a b).2 := by
  simp only [addEquality]
  generalize Option.toList _ ++ Option.toList _ = refinements
  have found := (find_frame m a).trans (find_frame (m.find a).2 b)
  generalize (m.find a).2.find b = second at found ⊢
  have filled := found.trans (fillAcross_keepsSummaries second.2 a b (m.find a).1 second.1).toFrame
  generalize second.2.fillAcross a b (m.find a).1 second.1 = filling at filled ⊢
  have only := LinksOnly.union filling.nodeBound filling.nodes (m.find a).1 second.1
  exact ((filled.trans only.frame).trans (setScopeSummary_keeps _ _ _).toFrame).trans
    (KeepsSummaries.foldl _ (fun m shape => refineClassLowType_keepsSummaries m _ shape) _ _).toFrame

theorem writeNodeValue_frame (m : Module P) (node : NodeId) (value : Option (Value P)) :
    Frame m (m.writeNodeValue node value) := by
  have wrote := (setNodeValue_keepsSummaries m node value).toFrame
  simp only [writeNodeValue]
  split
  · exact wrote
  · next value =>
    split
    · exact wrote
    · exact ((wrote.trans (find_frame _ node)).trans
        (propagateClassValue_keepsSummaries _ _ value).toFrame).trans
        (observeClassLowType_keepsSummaries _ _ value).toFrame

theorem writeNodeValue_keepsSummaries (formed : WellFormed m.nodes) (node : NodeId)
    (value : Option (Value P)) : KeepsSummaries m (m.writeNodeValue node value) := by
  have wrote := setNodeValue_keepsSummaries m node value
  simp only [writeNodeValue]
  split
  · exact wrote
  · next value =>
    split
    · exact wrote
    · exact ((wrote.trans (find_keeps (formed.compresses wrote.nodes) node)).trans
        (propagateClassValue_keepsSummaries _ _ value)).trans
        (observeClassLowType_keepsSummaries _ _ value)

/-- What an equality does to the classes of `a` and `b`, their roots `ra` and `rb`: one root
named twice keeps every class, and two roots are joined. The representative holds the merge
of their summaries. -/
structure Equates (m m' : Module P) (ra : NodeId) (la : List NodeId) (rb : NodeId)
    (lb : List NodeId) (root : NodeId) (rest : List NodeId) : Prop extends Frame m m' where
  joins : (ra = rb ∧ root = ra ∧ rest = la ∧ Compresses m.nodes m'.nodes) ∨
    (ra ≠ rb ∧ Joins m.nodes m'.nodes ra la rb lb root rest)
  summary : ∀ node, m'.summaryOf node =
    if node = root then mergeSummaries (m.summaryOf ra) (m.summaryOf rb) else m.summaryOf node

theorem addEquality_spec {a ra b rb : NodeId} {la lb : List NodeId}
    (one : IsClass m.nodes ra la) (left : a ∈ ra :: la) (two : IsClass m.nodes rb lb)
    (right : b ∈ rb :: lb) : ∃ root rest, Equates m (m.addEquality a b).2 ra la rb lb root rest := by
  obtain ⟨namedA, foundA⟩ := find_spec one left
  obtain ⟨namedB, foundB⟩ := find_spec (foundA.nodes.classes rb lb two) right
  simp only [addEquality, namedA, namedB]
  generalize shapes : Option.toList _ ++ Option.toList _ = refinements
  have filled := (foundA.trans foundB).trans
    (fillAcross_keepsSummaries ((m.find a).2.find b).2 a b ra rb)
  generalize ((m.find a).2.find b).2.fillAcross a b ra rb = filling at filled ⊢
  have one' := filled.nodes.classes ra la one
  have two' := filled.nodes.classes rb lb two
  have only := LinksOnly.union filling.nodeBound filling.nodes ra rb
  have united := union_rooted filling.nodeBound filling.nodes ra rb one'.rooted two'.rooted
  -- The writes behind the union leave the links alone.
  have finish : ∀ root nodes, LinksOnly filling.nodes nodes →
      (links nodes root).isSome →
      let merged := (mergeClassSummaries { filling with nodes } ra rb root)
      let last := refinements.foldl (fun m shape => m.refineClassLowType root shape) merged
      Frame m last ∧ Compresses nodes last.nodes ∧ ∀ node, last.summaryOf node =
        if node = root then mergeSummaries (m.summaryOf ra) (m.summaryOf rb)
        else m.summaryOf node := by
    intro root nodes only live merged last
    have refined : KeepsSummaries merged last :=
      KeepsSummaries.foldl _ (fun m shape => refineClassLowType_keepsSummaries m root shape) _ _
    have written : Keeps { filling with nodes } merged := setScopeSummary_keeps _ _ _
    refine ⟨((filled.toFrame.trans only.frame).trans written.toFrame).trans refined.toFrame,
      written.nodes.trans refined.nodes, fun node => ?_⟩
    have summaries : ∀ node, ({ filling with nodes } : Module P).summaryOf node =
        m.summaryOf node := fun node => (only.summary node).trans (filled.summary node)
    rw [refined.summary]
    show Module.summaryOf (setScopeSummary _ _ _) node = _
    rw [summaryOf_setScopeSummary _ _ _ _ (by rw [← links_isSome]; exact live), summaries]
    congr 2
    · exact summaries ra
    · exact summaries rb
  by_cases same : ra = rb
  · subst same
    rw [if_pos rfl] at united
    obtain ⟨frame, compressed, summary⟩ := finish ra filling.nodes (LinksOnly.refl _)
      (one'.live ra one'.root_mem)
    rw [united]
    exact ⟨ra, la, frame, Or.inl ⟨rfl, rfl, rfl, filled.nodes.trans compressed⟩, summary⟩
  · rw [if_neg same] at united
    obtain ⟨rest, joins⟩ := link_joins one' two' same
    rw [united] at only ⊢
    obtain ⟨frame, compressed, summary⟩ := finish _ _ only
      (joins.merged.live _ joins.merged.root_mem)
    exact ⟨_, rest, frame, Or.inr ⟨same, (joins.after filled.nodes).before compressed⟩, summary⟩

theorem Equates.wellFormed {m' : Module P} {ra rb : NodeId} {la lb : List NodeId}
    (equates : Equates m m' ra la rb lb root rest) (formed : WellFormed m.nodes)
    (one : IsClass m.nodes ra la) (two : IsClass m.nodes rb lb) : WellFormed m'.nodes := by
  rcases equates.joins with ⟨-, -, -, compressed⟩ | ⟨-, joins⟩
  · exact formed.compresses compressed
  · exact joins.wellFormed formed one two

section

variable (formed : WellFormed m.nodes)

include formed

theorem exists_isClass {node : NodeId} (live : m.nodes.containsKey node) :
    ∃ rest, IsClass m.nodes (m.classRoot node) rest ∧ node ∈ m.classRoot node :: rest := by
  obtain ⟨root, rest, cls, member⟩ := formed node (by rwa [links_isSome])
  rw [classRoot_eq cls member]
  exact ⟨rest, cls, member⟩

/-- An equality gives the classes of its two nodes one root, and leaves every other root. -/
theorem addEquality_classRoot {a b : NodeId} (left : m.nodes.containsKey a)
    (right : m.nodes.containsKey b) :
    let m' := (m.addEquality a b).2
    WellFormed m'.nodes ∧ (∀ node, m'.nodes.containsKey node = m.nodes.containsKey node) ∧
      ∃ root, (m.classRoot root = m.classRoot a ∨ m.classRoot root = m.classRoot b) ∧
        ∀ node, m.nodes.containsKey node → m'.classRoot node =
          if m.classRoot node = m.classRoot a ∨ m.classRoot node = m.classRoot b then root
          else m.classRoot node := by
  obtain ⟨la, one, inA⟩ := exists_isClass formed left
  obtain ⟨lb, two, inB⟩ := exists_isClass formed right
  obtain ⟨root, rest, equates⟩ := addEquality_spec one inA two inB
  refine ⟨equates.wellFormed formed one two, equates.live, root, ?_, fun node live => ?_⟩
  · rcases equates.joins with ⟨-, rfl, -, -⟩ | ⟨-, joins⟩
    · exact .inl (classRoot_eq one one.root_mem)
    · exact (List.mem_append.1 (joins.members.mem_iff.1 joins.merged.root_mem)).imp
        (classRoot_eq one) (classRoot_eq two)
  · obtain ⟨tail, cls, member⟩ := exists_isClass formed live
    rcases equates.joins with ⟨same, rfl, -, compressed⟩ | ⟨-, joins⟩
    · rw [classRoot_eq (compressed.classes _ _ cls) member]
      split
      · rename_i joined
        rwa [← same, or_self] at joined
      · rfl
    · split
      · rename_i joined
        refine classRoot_eq joins.merged (joins.members.mem_iff.2 (List.mem_append.2 ?_))
        rcases joined with same | same <;> rw [same] at cls member
        · exact .inl ((cls.unique one cls.root_mem one.root_mem).2 ▸ member)
        · exact .inr ((cls.unique two cls.root_mem two.root_mem).2 ▸ member)
      · rename_i apart
        rw [not_or] at apart
        exact classRoot_eq (joins.others _ _ cls apart.1 apart.2) member

end

end Module

end LichenVm
