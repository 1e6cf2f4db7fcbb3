import LichenVm.ClassFrames

open List Option

namespace LichenVm

open DisjointSet LexicalScope LinkedList SlotMap

namespace Module

variable {P : Program}

/-- The representative holds the fold over its members' owner scopes. -/
def Folded (m : Module P) (root : NodeId) (rest : List NodeId) : Prop :=
  m.summaryOf root = foldSummary ((root :: rest).map m.ownerScope)

variable {m : Module P} {rest : List NodeId}

theorem Folded.of_same {m' : Module P} {root : NodeId}
    (folded : m.Folded root rest) (summary : m'.summaryOf root = m.summaryOf root)
    (owners : ∀ member ∈ root :: rest, m'.ownerScope member = m.ownerScope member) :
    m'.Folded root rest := by
  rw [Folded, summary, folded]
  congr 1
  exact (map_congr_left owners).symm

/-- What a refresh does to every class: the node's own is folded, and the others keep their
summaries. -/
theorem refreshClassSummary_effect (formed : WellFormed m.nodes) (node : NodeId) :
    Keeps m (m.refreshClassSummary node) ∧ ∀ root rest, IsClass m.nodes root rest →
      (node ∈ root :: rest → (m.refreshClassSummary node).Folded root rest) ∧
      (node ∉ root :: rest → (m.refreshClassSummary node).summaryOf root = m.summaryOf root) := by
  cases live : m.nodes.containsKey node with
  | true =>
    obtain ⟨top, behind, own, member⟩ := formed node (by rw [links_isSome, live])
    obtain ⟨kept, summary⟩ := refreshClassSummary_spec own member
    refine ⟨kept, fun root rest cls => ⟨fun inside => ?_, fun outside => ?_⟩⟩
    · obtain ⟨rfl, rfl⟩ := own.unique cls member inside
      rw [Folded, summary, if_pos rfl]
      congr 1
      exact map_congr_left fun other _ => (kept.ownerScope other).symm
    · rw [summary, if_neg]
      rintro rfl
      obtain ⟨-, rfl⟩ := own.unique cls own.root_mem cls.root_mem
      exact outside member
  | false =>
    have lone : nextOf m.nodes node = none := by
      rw [nextOf, links_of_dead m node live]
      rfl
    simp only [refreshClassSummary, find_of_dead m node live, lone, isNone_none, if_true]
    refine ⟨setScopeSummary_keeps _ _ _, fun root rest cls => ⟨fun inside => ?_, fun _ => ?_⟩⟩
    · have lives := cls.live node inside
      rw [links_isSome, live] at lives
      cases lives
    · have apart : root ≠ node := by
        rintro rfl
        have lives := cls.live root cls.root_mem
        rw [links_isSome, live] at lives
        cases lives
      simp only [summaryOf, setScopeSummary, modifyNode, get_modify_of_ne _ _ _ _ apart]

theorem foldl_refresh (formed : WellFormed m.nodes)
    (step : Module P → NodeId → Module P) (skip : NodeId → Prop) [DecidablePred skip]
    (acts : ∀ m', Frame m m' → ∀ node,
      step m' node = if skip node then m' else m'.refreshClassSummary node)
    (nodes : List NodeId) : ∀ middle, Keeps m middle →
      Keeps middle (nodes.foldl step middle) ∧ ∀ root rest, IsClass m.nodes root rest →
        (nodes.foldl step middle).Folded root rest ∨
        ((nodes.foldl step middle).summaryOf root = middle.summaryOf root ∧
          ∀ node ∈ nodes, node ∈ root :: rest → skip node) := by
  induction nodes with
  | nil => exact fun middle _ => ⟨Keeps.refl _, fun _ _ _ => Or.inr ⟨rfl, by simp⟩⟩
  | cons node nodes ih =>
    intro middle kept
    have formed' := formed.compresses kept.nodes
    rw [foldl_cons, acts middle kept.toFrame]
    by_cases skipped : skip node
    · rw [if_pos skipped]
      obtain ⟨after, classes⟩ := ih middle kept
      refine ⟨after, fun root rest cls => (classes root rest cls).imp_right ?_⟩
      rintro ⟨same, others⟩
      exact ⟨same, forall_mem_cons.2 ⟨fun _ => skipped, others⟩⟩
    · rw [if_neg skipped]
      obtain ⟨refreshed, effect⟩ := refreshClassSummary_effect formed' node
      obtain ⟨after, classes⟩ := ih _ (kept.trans refreshed)
      refine ⟨refreshed.trans after, fun root rest cls => ?_⟩
      have here := effect root rest (kept.nodes.classes root rest cls)
      rcases classes root rest cls with folded | ⟨same, others⟩
      · exact Or.inl folded
      · by_cases inside : node ∈ root :: rest
        · exact Or.inl ((here.1 inside).of_same same fun member _ => after.ownerScope member)
        · refine Or.inr ⟨same.trans (here.2 inside), forall_mem_cons.2 ⟨?_, others⟩⟩
          exact fun member => absurd member inside

/-- A member that a removal of `block`'s functions may leave with a stale summary: its owner
goes, and its class is not refreshed for it. -/
def Stray (m : Module P) (block : BlockId) (members : List NodeId) : Prop :=
  ∃ node ∈ members, ∃ function entry, m.ownerOf node = some function ∧
    m.functions.get function = some entry ∧ entry.block = block ∧
    (node ∉ entry.nodes ∨ m.homeOf node = some block)

/-- What removing functions homed in `block` does: the classes stay, and each one keeps its
summary and its members' owners, or is folded again, or holds a stray member. -/
structure Unowns (block : BlockId) (m m' : Module P) : Prop extends SameNodes m m' where
  nodes : Compresses m.nodes m'.nodes
  blocks : m'.blocks = m.blocks
  functionSlots : m'.functions.slots.length = m.functions.slots.length
  function : ∀ function, m'.functions.get function = m.functions.get function ∨
    m'.functions.get function = none
  summary : ∀ root rest, IsClass m.nodes root rest → (m'.summaryOf root = m.summaryOf root ∧
      ∀ member ∈ root :: rest, m'.ownerScope member = m.ownerScope member) ∨
    m'.Folded root rest ∨ m.Stray block (root :: rest)

namespace Unowns

theorem refl (block : BlockId) (m : Module P) : Unowns block m m :=
  ⟨(Frame.refl m).toSameNodes, Compresses.refl _, rfl, rfl, fun _ => Or.inl rfl,
    fun _ _ _ => Or.inl ⟨rfl, fun _ _ => rfl⟩⟩

theorem stray {block : BlockId} {m m' : Module P} (unowns : Unowns block m m')
    {members : List NodeId} (stray : m'.Stray block members) : m.Stray block members := by
  obtain ⟨node, member, function, entry, owner, found, home, missed⟩ := stray
  rw [unowns.owner] at owner
  rw [unowns.home] at missed
  refine ⟨node, member, function, entry, owner, ?_, home, missed⟩
  rcases unowns.function function with same | gone
  · rw [← same]; exact found
  · rw [gone] at found; cases found

theorem trans {block : BlockId} {first second third : Module P} (one : Unowns block first second)
    (two : Unowns block second third) : Unowns block first third where
  toSameNodes := one.toSameNodes.trans two.toSameNodes
  nodes := one.nodes.trans two.nodes
  blocks := two.blocks.trans one.blocks
  functionSlots := two.functionSlots.trans one.functionSlots
  function f := by
    rcases two.function f with same | gone
    · rw [same]; exact one.function f
    · exact Or.inr gone
  summary root rest cls := by
    rcases two.summary root rest (one.nodes.classes root rest cls) with
      ⟨same, owners⟩ | folded | lost
    · rcases one.summary root rest cls with ⟨same', owners'⟩ | folded | lost
      · exact Or.inl ⟨same.trans same', fun member inside =>
          (owners member inside).trans (owners' member inside)⟩
      · exact Or.inr (Or.inl (folded.of_same same owners))
      · exact Or.inr (Or.inr lost)
    · exact Or.inr (Or.inl folded)
    · exact Or.inr (Or.inr (one.stray lost))

end Unowns

theorem releaseFunction_unowns (formed : WellFormed m.nodes) (block : BlockId)
    (function : FunctionId) : Unowns block m (m.releaseFunction block function) := by
  simp only [releaseFunction]
  split
  · exact Unowns.refl block m
  · next entry found =>
    by_cases home : entry.block = block
    · rw [if_neg (not_not_intro home)]
      have acts : ∀ m', Frame { m with functions := m.functions.remove function } m' → ∀ node,
          refreshOutside block m' node =
            if m.homeOf node = some block ∨ m.homeOf node = none then m'
            else m'.refreshClassSummary node := by
        intro m' frame node
        have same : m'.homeOf node = m.homeOf node := frame.home node
        simp only [refreshOutside, same]
        cases m.homeOf node with
        | none => simp
        | some other => by_cases inside : other = block <;> simp [inside]
      obtain ⟨kept, classes⟩ := foldl_refresh (m := { m with functions := m.functions.remove function })
        formed (refreshOutside block) _ acts entry.nodes _ (Keeps.refl _)
      generalize List.foldl (refreshOutside block) _ entry.nodes = m' at kept classes ⊢
      have gets : ∀ f, m'.functions.get f =
          if f = function then none else m.functions.get f := by
        intro f
        rw [kept.functions, get_remove]
      refine
        { toSameNodes := ⟨kept.slots, kept.live, kept.home, kept.owner⟩
          nodes := kept.nodes
          blocks := kept.blocks
          functionSlots := by rw [kept.functions, slots_length_remove]
          function := ?_
          summary := ?_ }
      · intro f
        rw [gets]
        split
        · exact Or.inr rfl
        · exact Or.inl rfl
      · intro root rest cls
        rcases classes root rest cls with folded | ⟨same, skipped⟩
        · exact Or.inr (Or.inl folded)
        · by_cases owned : ∃ node ∈ root :: rest, m.ownerOf node = some function
          · obtain ⟨node, member, owner⟩ := owned
            refine Or.inr (Or.inr ⟨node, member, function, entry, owner, found, home, ?_⟩)
            by_cases listed : node ∈ entry.nodes
            · refine Or.inr ((skipped node listed member).resolve_right fun gone => ?_)
              have lives := cls.live node member
              rw [links_isSome, ← homeOf_isSome, gone] at lives
              cases lives
            · exact Or.inl listed
          · refine Or.inl ⟨same, fun member inside => ?_⟩
            have owner : m'.ownerOf member = m.ownerOf member := kept.owner member
            rw [ownerScope_eq, ownerScope_eq, owner]
            cases named : m.ownerOf member with
            | none => rfl
            | some f =>
              have apart : f ≠ function := by
                rintro rfl
                exact owned ⟨member, inside, named⟩
              simp only [bind_some, functionScope, gets, if_neg apart]
    · rw [if_pos home]
      exact Unowns.refl block m

theorem foldl_unowns (formed : WellFormed m.nodes) (block : BlockId)
    (functions : List FunctionId) : Unowns block m (functions.foldl (releaseFunction block) m) := by
  induction functions generalizing m with
  | nil => exact Unowns.refl block m
  | cons function functions ih =>
    have step := releaseFunction_unowns formed block function
    exact step.trans (ih (formed.compresses step.nodes))

variable {block : BlockId}

theorem mem_survivorsOf {members : List NodeId} {node : NodeId} :
    node ∈ m.survivorsOf block members ↔ node ∈ members ∧ m.homeOf node ≠ some block := by
  simp [survivorsOf]

/-- Collecting the touched classes keeps every class, and names exactly their roots. -/
theorem touchedClasses_spec (block : BlockId) (nodes : List NodeId) :
    ∀ {m : Module P}, WellFormed m.nodes → KeepsSummaries m (m.touchedClasses block nodes).2 ∧
      (m.touchedClasses block nodes).1.Nodup ∧
      (∀ root ∈ (m.touchedClasses block nodes).1, ∃ rest, IsClass m.nodes root rest) ∧
      ∀ root rest, IsClass m.nodes root rest → (root ∈ (m.touchedClasses block nodes).1 ↔
          ∃ node ∈ nodes, node ∈ root :: rest ∧ m.homeOf node = some block) := by
  induction nodes with
  | nil =>
    exact fun _ => ⟨KeepsSummaries.refl _, by simp [touchedClasses], by simp [touchedClasses],
      by simp [touchedClasses]⟩
  | cons node nodes ih =>
    intro m formed
    simp only [touchedClasses]
    by_cases homed : m.homeOf node = some block
    · rw [if_pos homed]
      have live : (links m.nodes node).isSome := by
        rw [links_isSome, ← homeOf_isSome, homed]
        rfl
      obtain ⟨top, behind, own, member⟩ := formed node live
      obtain ⟨named, found⟩ := find_spec own member
      obtain ⟨kept, distinct, roots, touched⟩ := ih (formed.compresses found.nodes)
      refine ⟨found.trans kept, distinct.insert, fun root listed => ?_, fun root rest cls => ?_⟩
      · rcases mem_insert_iff.1 listed with rfl | listed
        · exact ⟨behind, by rw [named]; exact own⟩
        · obtain ⟨rest, cls⟩ := roots root listed
          exact ⟨rest, (found.nodes.classes_iff formed root rest).1 cls⟩
      have others := touched root rest (found.nodes.classes root rest cls)
      simp only [found.home] at others
      rw [mem_insert_iff, others, named]
      constructor
      · rintro (rfl | ⟨other, listed, inside⟩)
        · obtain ⟨-, rfl⟩ := own.unique cls own.root_mem cls.root_mem
          exact ⟨node, mem_cons_self, member, homed⟩
        · exact ⟨other, mem_cons_of_mem _ listed, inside⟩
      · rintro ⟨other, listed, inside, home⟩
        rcases mem_cons.1 listed with rfl | listed
        · exact Or.inl (cls.unique own inside member).1
        · exact Or.inr ⟨other, listed, inside, home⟩
    · rw [if_neg homed]
      obtain ⟨kept, distinct, roots, touched⟩ := ih formed
      refine ⟨kept, distinct, roots, fun root rest cls => ?_⟩
      rw [touched root rest cls]
      constructor
      · rintro ⟨other, listed, inside⟩
        exact ⟨other, mem_cons_of_mem _ listed, inside⟩
      · rintro ⟨other, listed, inside, home⟩
        rcases mem_cons.1 listed with rfl | listed
        · exact absurd home homed
        · exact ⟨other, listed, inside, home⟩

/-- Splicing one class: its links are rebuilt to the survivors, and the new representative
holds the fold over their owners. -/
theorem flattenClass_spec {rep : NodeId} (cls : IsClass m.nodes rep rest) (block : BlockId) :
    Frame m (m.flattenClass block rep) ∧
    Compresses (rebuild m.nodes (m.survivorsOf block (rep :: rest)))
      (m.flattenClass block rep).nodes ∧
    ∀ node, (m.flattenClass block rep).summaryOf node =
      if (m.survivorsOf block (rep :: rest)).head? = some node
      then foldSummary ((m.survivorsOf block (rep :: rest)).map m.ownerScope)
      else m.summaryOf node := by
  have only := LinksOnly.rebuild m.nodes (m.survivorsOf block (rep :: rest))
  have inside : ∀ node ∈ m.survivorsOf block (rep :: rest), (links m.nodes node).isSome :=
    fun node member => cls.live node (mem_survivorsOf.1 member).1
  have distinct : (m.survivorsOf block (rep :: rest)).Nodup := cls.distinct.filter _
  simp only [flattenClass, membersOf_eq cls]
  cases survivors : m.survivorsOf block (rep :: rest) with
  | nil => exact ⟨Frame.refl m, Compresses.refl _, fun node => by simp [rebuild]⟩
  | cons representative others =>
    rw [survivors] at only inside distinct
    have own : IsClass (rebuild m.nodes (representative :: others)) representative others :=
      rebuild_isClass m.nodes representative others distinct inside
    obtain ⟨kept, summary⟩ := refreshClassSummary_spec
      (m := { m with nodes := rebuild m.nodes (representative :: others) }) own own.root_mem
    have owners : ({ m with nodes := rebuild m.nodes (representative :: others) } :
        Module P).ownerScope = m.ownerScope := funext only.frame.ownerScope
    rw [owners] at summary
    -- The writes behind the refresh touch values and low types alone.
    have finish : ∀ m', KeepsSummaries (refreshClassSummary
        { m with nodes := rebuild m.nodes (representative :: others) } representative) m' →
        Frame m m' ∧ Compresses (rebuild m.nodes (representative :: others)) m'.nodes ∧
        ∀ node, m'.summaryOf node = if some representative = some node
          then foldSummary ((representative :: others).map m.ownerScope)
          else m.summaryOf node := by
      intro m' later
      refine ⟨(only.frame.trans kept.toFrame).trans later.toFrame,
        kept.nodes.trans later.nodes, fun node => ?_⟩
      rw [later.summary, summary, only.summary]
      simp only [some.injEq, eq_comm]
    dsimp only
    split
    · split
      · exact finish _ (KeepsSummaries.refl _)
      · exact finish _ (fillClassHoles_keepsSummaries _ _ _)
    · split
      · exact finish _ (refineClassLowType_keepsSummaries _ _ _)
      · exact finish _ ((fillClassHoles_keepsSummaries _ _ _).trans
          (refineClassLowType_keepsSummaries _ _ _))

/-- The state of a splice under way: the classes of `roots` are spliced out of `block`, and the other
classes of `before` stand as they were. -/
structure Spliced (before m : Module P) (block : BlockId) (roots : List NodeId) : Prop
    extends Frame before m where
  rest : ∀ root rest, IsClass before.nodes root rest → root ∉ roots →
    IsClass m.nodes root rest ∧ m.summaryOf root = before.summaryOf root
  done : ∀ root rest, IsClass before.nodes root rest → root ∈ roots → ∀ top behind,
    before.survivorsOf block (root :: rest) = top :: behind →
      IsClass m.nodes top behind ∧ m.Folded top behind
  tails : ∀ node last, tailOf m.nodes node = some last →
    tailOf before.nodes node = some last ∨ ∃ root ∈ roots, ∃ rest behind,
      IsClass before.nodes root rest ∧ before.survivorsOf block (root :: rest) = node :: behind

theorem Spliced.step {before : Module P} {roots : List NodeId}
    (spliced : Spliced before m block roots) {root : NodeId}
    (cls : IsClass before.nodes root rest) (fresh : root ∉ roots) :
    Spliced before (m.flattenClass block root) block (root :: roots) := by
  obtain ⟨own, held⟩ := spliced.rest root rest cls fresh
  obtain ⟨frame, compressed, summary⟩ := flattenClass_spec own block
  have survivors : ∀ members, m.survivorsOf block members = before.survivorsOf block members := by
    intro members
    simp only [survivorsOf, spliced.home]
  rw [survivors] at compressed summary
  have inside : ∀ node ∈ before.survivorsOf block (root :: rest), node ∈ root :: rest :=
    fun node member => (mem_survivorsOf.1 member).1
  have apart : ∀ other tail, IsClass before.nodes other tail → other ≠ root →
      ∀ key ∈ other :: tail, key ∉ before.survivorsOf block (root :: rest) :=
    fun other tail cls' differs key member found =>
      cls'.disjoint cls differs member (inside key found)
  -- A class that shares no member with the spliced one is left alone.
  have kept : ∀ top behind, IsClass m.nodes top behind →
      (∀ key ∈ top :: behind, key ∉ before.survivorsOf block (root :: rest)) →
      IsClass (m.flattenClass block root).nodes top behind ∧
        (m.flattenClass block root).summaryOf top = m.summaryOf top := by
    intro top behind cls' away
    refine ⟨compressed.classes top behind (cls'.congr fun key member =>
      rebuild_agrees m.nodes _ key (away key member)), ?_⟩
    rw [summary, if_neg]
    intro head
    exact away top cls'.root_mem (mem_of_mem_head? head)
  refine ⟨spliced.toFrame.trans frame, ?_, ?_, ?_⟩
  · intro other tail cls' outside
    obtain ⟨differs, outside'⟩ := not_or.1 (mt mem_cons.2 outside)
    obtain ⟨now, same⟩ := spliced.rest other tail cls' outside'
    obtain ⟨after, same'⟩ := kept other tail now (apart other tail cls' differs)
    exact ⟨after, same'.trans same⟩
  · intro other tail cls' listed top behind left
    by_cases differs : other = root
    · subst differs
      obtain ⟨-, rfl⟩ := cls'.unique cls cls'.root_mem cls.root_mem
      rw [left] at compressed summary inside
      refine ⟨compressed.classes top behind (rebuild_isClass m.nodes top behind ?_ ?_), ?_⟩
      · rw [← left]
        exact cls.distinct.filter _
      · exact fun key member => own.live key (inside key member)
      · rw [Folded, summary, List.head?_cons, if_pos rfl]
        congr 1
        refine map_congr_left fun key _ => ?_
        rw [frame.ownerScope]
    · obtain ⟨now, folded⟩ := spliced.done other tail cls'
        ((mem_cons.1 listed).resolve_left differs) top behind left
      have members : ∀ key ∈ top :: behind, key ∈ other :: tail := by
        intro key member
        rw [← left] at member
        exact (mem_survivorsOf.1 member).1
      obtain ⟨after, same⟩ := kept top behind now fun key member =>
        apart other tail cls' differs key (members key member)
      exact ⟨after, folded.of_same same fun key _ => frame.ownerScope key⟩
  · intro node last found
    rw [compressed.tail] at found
    cases left : before.survivorsOf block (root :: rest) with
    | nil =>
      rw [left] at found
      rcases spliced.tails node last found with old | ⟨r, listed, more⟩
      · exact Or.inl old
      · exact Or.inr ⟨r, mem_cons_of_mem _ listed, more⟩
    | cons top behind =>
      rw [left, rebuild_tail m.nodes top behind node
        (own.live top (inside top (by rw [left]; exact mem_cons_self)))] at found
      split at found
      · next same =>
        subst same
        exact Or.inr ⟨root, mem_cons_self, rest, behind, cls, left⟩
      · rcases spliced.tails node last found with old | ⟨r, listed, more⟩
        · exact Or.inl old
        · exact Or.inr ⟨r, mem_cons_of_mem _ listed, more⟩

theorem Spliced.foldl {before : Module P} (todo : List NodeId) :
    ∀ {m : Module P} {roots : List NodeId}, Spliced before m block roots → todo.Nodup →
      (∀ root ∈ todo, root ∉ roots ∧ ∃ rest, IsClass before.nodes root rest) →
      ∃ all, (∀ root, root ∈ all ↔ root ∈ todo ∨ root ∈ roots) ∧
        Spliced before (todo.foldl (fun m rep => m.flattenClass block rep) m) block all := by
  induction todo with
  | nil => exact fun spliced _ _ => ⟨_, by simp, spliced⟩
  | cons root todo ih =>
    intro m roots spliced distinct classes
    obtain ⟨fresh, rest, cls⟩ := classes root mem_cons_self
    obtain ⟨outside, distinct'⟩ := nodup_cons.1 distinct
    obtain ⟨all, listed, after⟩ := ih (spliced.step cls fresh) distinct' fun other member => by
      obtain ⟨fresh', cls'⟩ := classes other (mem_cons_of_mem _ member)
      refine ⟨fun found => ?_, cls'⟩
      rcases mem_cons.1 found with rfl | found
      · exact outside member
      · exact fresh' found
    refine ⟨all, fun other => ?_, after⟩
    rw [listed other, mem_cons, mem_cons]
    tauto

theorem foldl_removeHomed (block : BlockId) (nodes : List NodeId) : ∀ m : Module P,
    (nodes.foldl (removeHomed block) m).nodes.slots.length = m.nodes.slots.length ∧
    (nodes.foldl (removeHomed block) m).functions = m.functions ∧
    (nodes.foldl (removeHomed block) m).blocks = m.blocks ∧
    ∀ node, (nodes.foldl (removeHomed block) m).nodes.get node =
      if node ∈ nodes ∧ m.homeOf node = some block then none else m.nodes.get node := by
  induction nodes with
  | nil => simp
  | cons first nodes ih =>
    intro m
    rw [foldl_cons]
    by_cases homed : m.homeOf first = some block
    · have removed : removeHomed block m first = { m with nodes := m.nodes.remove first } :=
        if_pos homed
      rw [removed]
      obtain ⟨slots, functions, blocks, gets⟩ := ih { m with nodes := m.nodes.remove first }
      refine ⟨slots.trans (slots_length_remove _ _), functions, blocks, fun node => ?_⟩
      rw [gets, get_remove]
      by_cases same : node = first
      · subst same
        simp [homed]
      · have home : ({ m with nodes := m.nodes.remove first } : Module P).homeOf node =
            m.homeOf node := by
          simp only [homeOf, get_remove, if_neg same]
        simp only [home, mem_cons, same, false_or, if_false]
    · have kept : removeHomed block m first = m := if_neg homed
      rw [kept]
      obtain ⟨slots, functions, blocks, gets⟩ := ih m
      refine ⟨slots, functions, blocks, fun node => ?_⟩
      rw [gets]
      by_cases same : node = first
      · subst same
        simp [homed]
      · simp only [mem_cons, same, false_or]

/-- What releasing `block` does to the nodes: the ones homed in it go, and each class is left
to its survivors. -/
structure Releases (block : BlockId) (m m' : Module P) : Prop where
  slots : m'.nodes.slots.length = m.nodes.slots.length
  live : ∀ node, m'.nodes.containsKey node = true ↔
    m.nodes.containsKey node = true ∧ m.homeOf node ≠ some block
  home : ∀ node, m'.nodes.containsKey node = true → m'.homeOf node = m.homeOf node
  owner : ∀ node, m'.nodes.containsKey node = true → m'.ownerOf node = m.ownerOf node
  functionSlots : m'.functions.slots.length = m.functions.slots.length
  function : ∀ function, m'.functions.get function = m.functions.get function ∨
    m'.functions.get function = none
  formed : WellFormed m'.nodes
  classes : ∀ top behind, IsClass m'.nodes top behind → ∃ root rest,
    IsClass m.nodes root rest ∧ m.survivorsOf block (root :: rest) = top :: behind
  tails : ∀ node last, m'.nodes.containsKey node = true → tailOf m'.nodes node = some last →
    tailOf m.nodes node = some last ∨ ∃ behind, IsClass m'.nodes node behind
  summary : ∀ top behind, IsClass m'.nodes top behind → m'.Folded top behind ∨
    (IsClass m.nodes top behind ∧ m'.summaryOf top = m.summaryOf top ∧
      ∀ member ∈ top :: behind, m'.ownerScope member = m.ownerScope member) ∨
    m.Stray block (top :: behind)

section

variable (formed : WellFormed m.nodes) {entry : Block} (found : m.blocks.get block = some entry)
  (listed : ∀ node, m.homeOf node = some block → node ∈ entry.nodes)

include formed found listed

theorem releaseNodes_releases :
    Releases block m (m.releaseNodes block) ∧ (m.releaseNodes block).functions = m.functions ∧
      (m.releaseNodes block).blocks =
        m.blocks.modify block fun entry => { entry with nodes := [] } := by
  simp only [releaseNodes, found, map_some, getD_some]
  obtain ⟨kept, distinct, headed, touched⟩ := touchedClasses_spec block entry.nodes
    (m := m.modifyBlock block fun entry => { entry with nodes := [] }) formed
  generalize Module.touchedClasses _ block entry.nodes = collected at kept distinct headed touched ⊢
  obtain ⟨roots, before⟩ := collected
  have homes : ∀ node, before.homeOf node = m.homeOf node := kept.home
  have start : Spliced before before block [] :=
    ⟨Frame.refl _, fun _ _ cls _ => ⟨cls, rfl⟩, by simp, fun _ _ found => Or.inl found⟩
  obtain ⟨all, all_iff, spliced⟩ := start.foldl roots distinct fun root member => by
    obtain ⟨rest, cls⟩ := headed root member
    exact ⟨by simp, rest, kept.nodes.classes root rest cls⟩
  obtain ⟨slots, functions, blocks, gets⟩ := foldl_removeHomed block entry.nodes
    (roots.foldl (fun m rep => m.flattenClass block rep) before)
  generalize roots.foldl (fun m rep => m.flattenClass block rep) before = last at *
  generalize entry.nodes.foldl (removeHomed block) last = m' at *
  have homes' : ∀ node, last.homeOf node = m.homeOf node := fun node =>
    (spliced.home node).trans (homes node)
  have gone : ∀ node, m'.nodes.get node =
      if m.homeOf node = some block then none else last.nodes.get node := by
    intro node
    rw [gets, homes']
    by_cases homed : m.homeOf node = some block
    · simp [homed, listed node homed]
    · simp [homed]
  have agrees : ∀ node, m.homeOf node ≠ some block → m'.nodes.get node = last.nodes.get node :=
    fun node other => by rw [gone, if_neg other]
  have live : ∀ node, m'.nodes.containsKey node ↔
      m.nodes.containsKey node ∧ m.homeOf node ≠ some block := by
    intro node
    have same : last.nodes.containsKey node = m.nodes.containsKey node :=
      (spliced.live node).trans (kept.live node)
    by_cases homed : m.homeOf node = some block
    · simp [containsKey, gone, homed]
    · rw [← same]
      simp [containsKey, agrees node homed, homed]
  have owners : ∀ node, m.homeOf node ≠ some block → m'.ownerScope node = m.ownerScope node := by
    intro node other
    have scopes : m'.functionScope = last.functionScope := by
      funext function
      simp only [functionScope, functions]
    have owner : m'.ownerOf node = last.ownerOf node := by simp only [ownerOf, agrees node other]
    rw [ownerScope_eq, owner, scopes, ← ownerScope_eq, spliced.ownerScope, kept.ownerScope]
    rfl
  -- Every live node's class is what its old class leaves of it.
  have covered : ∀ node, m'.nodes.containsKey node → ∃ root rest top behind,
      IsClass m.nodes root rest ∧ m.survivorsOf block (root :: rest) = top :: behind ∧
      node ∈ top :: behind ∧ IsClass m'.nodes top behind ∧
      (m'.Folded top behind ∨
        (root :: rest = top :: behind ∧ m'.summaryOf top = m.summaryOf top)) := by
    intro node lives
    obtain ⟨alive, other⟩ := (live node).1 lives
    obtain ⟨root, rest, cls, member⟩ := formed node (by rw [links_isSome, alive])
    have cls' := kept.nodes.classes root rest cls
    have survivors : before.survivorsOf block (root :: rest) = m.survivorsOf block (root :: rest) := by
      simp only [survivorsOf, homes]
    have survives : node ∈ m.survivorsOf block (root :: rest) := mem_survivorsOf.2 ⟨member, other⟩
    have outside : ∀ top behind, m.survivorsOf block (root :: rest) = top :: behind →
        ∀ key ∈ top :: behind, m.homeOf key ≠ some block := by
      intro top behind left key found
      rw [← left] at found
      exact (mem_survivorsOf.1 found).2
    have carry : ∀ top behind, (∀ key ∈ top :: behind, m.homeOf key ≠ some block) →
        IsClass last.nodes top behind → IsClass m'.nodes top behind := by
      intro top behind away standing
      refine standing.congr fun key found => ?_
      simp only [links, agrees key (away key found)]
    by_cases spliced_out : root ∈ all
    · obtain ⟨top, behind, left⟩ := exists_cons_of_ne_nil (ne_nil_of_mem survives)
      obtain ⟨standing, folded⟩ := spliced.done root rest cls' spliced_out top behind
        (survivors.trans left)
      have away := outside top behind left
      refine ⟨root, rest, top, behind, cls, left, left ▸ survives, carry top behind away standing,
        Or.inl (folded.of_same ?_ ?_)⟩
      · simp only [summaryOf, agrees top (away top mem_cons_self)]
      · intro key found
        rw [owners key (away key found), spliced.ownerScope, kept.ownerScope]
        rfl
    · obtain ⟨standing, same⟩ := spliced.rest root rest cls' spliced_out
      have away : ∀ key ∈ root :: rest, m.homeOf key ≠ some block := by
        intro key found homed
        refine spliced_out ((all_iff root).2 (Or.inl ?_))
        exact (touched root rest cls).2 ⟨key, listed key homed, found, homed⟩
      have left : m.survivorsOf block (root :: rest) = root :: rest :=
        filter_eq_self.2 fun key found => by simpa using away key found
      refine ⟨root, rest, root, rest, cls, left, left ▸ survives, carry root rest away standing,
        Or.inr ⟨rfl, ?_⟩⟩
      calc m'.summaryOf root
          = last.summaryOf root := by simp only [summaryOf, agrees root (away root mem_cons_self)]
        _ = before.summaryOf root := same
        _ = m.summaryOf root := kept.summary root
  have member_live : ∀ top behind, IsClass m'.nodes top behind →
      m'.nodes.containsKey top := fun top behind cls => by
    rw [← links_isSome]
    exact cls.live top cls.root_mem
  refine ⟨?_, ?_, ?_⟩
  · refine
      { slots := slots.trans (spliced.slots.trans kept.slots)
        live := live
        home := ?_
        owner := ?_
        functionSlots := ?_
        function := ?_
        formed := ?_
        classes := ?_
        tails := ?_
        summary := ?_ }
    · intro node lives
      rw [homeOf, agrees node ((live node).1 lives).2]
      exact homes' node
    · intro node lives
      rw [ownerOf, agrees node ((live node).1 lives).2]
      exact (spliced.owner node).trans (kept.owner node)
    · rw [functions, spliced.functions, kept.functions]
      rfl
    · intro function
      rw [functions, spliced.functions, kept.functions]
      exact Or.inl rfl
    · intro node lives
      rw [links_isSome] at lives
      obtain ⟨_, _, top, behind, -, -, member, cls, -⟩ := covered node lives
      exact ⟨top, behind, cls, member⟩
    · intro top behind cls
      obtain ⟨root, rest, top', behind', old, left, member, cls', -⟩ :=
        covered top (member_live top behind cls)
      obtain ⟨rfl, rfl⟩ := cls.unique cls' cls.root_mem member
      exact ⟨root, rest, old, left⟩
    · intro node end' lives found
      have other := ((live node).1 lives).2
      have same : tailOf m'.nodes node = tailOf last.nodes node := by
        simp only [tailOf, links, agrees node other]
      rw [same] at found
      rcases spliced.tails node end' found with old | ⟨root, named, rest, behind, cls, left⟩
      · refine Or.inl ?_
        rw [kept.nodes.tail] at old
        exact old
      · obtain ⟨root', rest', top, behind', old, left', member, cls', -⟩ := covered node lives
        have cls'' := (kept.nodes.classes_iff formed root rest).1 cls
        have survivors : m.survivorsOf block (root :: rest) = node :: behind := by
          rw [← left]
          simp only [survivorsOf, homes]
        have inside : node ∈ root :: rest :=
          (mem_survivorsOf.1 (by rw [survivors]; exact mem_cons_self)).1
        have inside' : node ∈ root' :: rest' := (mem_survivorsOf.1 (by rw [left']; exact member)).1
        obtain ⟨rfl, rfl⟩ := cls''.unique old inside inside'
        rw [survivors] at left'
        obtain ⟨rfl, rfl⟩ := List.cons.inj left'
        exact Or.inr ⟨behind, cls'⟩
    · intro top behind cls
      obtain ⟨root, rest, top', behind', old, left, member, cls', summary⟩ :=
        covered top (member_live top behind cls)
      obtain ⟨rfl, rfl⟩ := cls.unique cls' cls.root_mem member
      rcases summary with folded | ⟨same, held⟩
      · exact Or.inl folded
      · obtain ⟨rfl, rfl⟩ := List.cons.inj same
        refine Or.inr (Or.inl ⟨old, held, fun key found => owners key ?_⟩)
        rw [← left] at found
        exact (mem_survivorsOf.1 found).2
  · rw [functions, spliced.functions, kept.functions]
    rfl
  · rw [blocks, spliced.blocks, kept.blocks]
    rfl

theorem releaseBlock_releases :
    Releases block m (m.releaseBlock block) ∧
      (m.releaseBlock block).blocks.slots.length = m.blocks.slots.length ∧
      ∀ other, (m.releaseBlock block).blocks.get other =
        if other = block then none else m.blocks.get other := by
  have unowned := foldl_unowns (m := m.modifyBlock block fun entry => { entry with functions := [] })
    formed block (((m.blocks.get block).map Block.functions).getD [])
  change Unowns block _ (m.releaseFunctions block) at unowned
  have cleared : (m.releaseFunctions block).blocks.get block =
      some { entry with functions := [] } := by
    rw [unowned.blocks]
    simp [modifyBlock, found]
  have homes : ∀ node, (m.releaseFunctions block).homeOf node = m.homeOf node := unowned.home
  have alive : ∀ node, (m.releaseFunctions block).nodes.containsKey node =
      m.nodes.containsKey node := unowned.live
  have formed' : WellFormed (m.releaseFunctions block).nodes := formed.compresses unowned.nodes
  obtain ⟨releases, functions, blocks⟩ := releaseNodes_releases formed' cleared fun node homed =>
    listed node (by rw [← homes]; exact homed)
  have survivors : ∀ members, (m.releaseFunctions block).survivorsOf block members =
      m.survivorsOf block members := by
    intro members
    simp only [survivorsOf, homes]
  have classes_iff : ∀ root rest, IsClass (m.releaseFunctions block).nodes root rest ↔
      IsClass m.nodes root rest := unowned.nodes.classes_iff formed
  have result : Releases block m ((m.releaseFunctions block).releaseNodes block) := by
    refine
      { slots := releases.slots.trans unowned.slots
        live := ?_
        home := ?_
        owner := ?_
        functionSlots := releases.functionSlots.trans unowned.functionSlots
        function := ?_
        formed := releases.formed
        classes := ?_
        tails := ?_
        summary := ?_ }
    · intro node
      rw [releases.live, homes, alive]
    · intro node lives
      rw [releases.home node lives, homes]
    · intro node lives
      exact (releases.owner node lives).trans (unowned.owner node)
    · intro function
      rw [functions]
      exact unowned.function function
    · intro top behind cls
      obtain ⟨root, rest, old, left⟩ := releases.classes top behind cls
      exact ⟨root, rest, (classes_iff root rest).1 old, (survivors _).symm.trans left⟩
    · intro node last lives held
      refine (releases.tails node last lives held).imp_left fun old => ?_
      rw [unowned.nodes.tail] at old
      exact old
    · intro top behind cls
      rcases releases.summary top behind cls with folded | ⟨old, same, owners⟩ | stray
      · exact Or.inl folded
      · have old' := (classes_iff top behind).1 old
        rcases unowned.summary top behind old' with ⟨same', owners'⟩ | folded | stray
        · exact Or.inr (Or.inl ⟨old', same.trans same', fun member inside =>
            (owners member inside).trans (owners' member inside)⟩)
        · exact Or.inl (folded.of_same same owners)
        · exact Or.inr (Or.inr stray)
      · exact Or.inr (Or.inr (unowned.stray stray))
  refine ⟨⟨result.slots, result.live, result.home, result.owner, result.functionSlots,
    result.function, result.formed, result.classes, result.tails, result.summary⟩, ?_, ?_⟩
  · have shape : (m.releaseBlock block).blocks =
        ((m.releaseFunctions block).releaseNodes block).blocks.remove block := rfl
    rw [shape, slots_length_remove, blocks, slots_length_modify, unowned.blocks]
    exact slots_length_modify _ _ _
  · intro other
    have shape : (m.releaseBlock block).blocks =
        ((m.releaseFunctions block).releaseNodes block).blocks.remove block := rfl
    rw [shape, get_remove, blocks, unowned.blocks]
    split
    · rfl
    · next apart =>
      rw [get_modify_of_ne _ _ _ _ apart]
      exact get_modify_of_ne _ _ _ _ apart

end

end Module

end LichenVm
