import LichenVm.ModuleRun

open List

namespace LichenVm

open DisjointSet LinkedList Module

namespace Module

variable {P : Program}

/-- Whether a live node is homed outside the subtree of `block`. -/
def outlives (m : Module P) (block : BlockId) (node : NodeId) : Bool :=
  match m.homeOf node with
  | some home => !m.descendsFrom home block
  | none => false

/-- In each class, the members behind the first that outlives the drop of `block` keep no tail
link to a member that goes with it. -/
def TailsSpliced (m : Module P) (block : BlockId) : Prop :=
  ∀ root rest first others, IsClass m.nodes root rest →
    (root :: rest).filter (m.outlives block) = first :: others →
    ∀ member ∈ others, ∀ last, tailOf m.nodes member = some last → m.outlives block last = true

/-- A drop under way: each class's surviving members behind the first keep a tail link to a
surviving member alone. -/
structure TailsPending (before : Module P) (block : BlockId) (now : Module P) : Prop where
  home : ∀ node home, now.homeOf node = some home → before.homeOf node = some home
  tails : ∀ root rest first others, IsClass now.nodes root rest →
    (root :: rest).filter (before.outlives block) = first :: others →
    ∀ member ∈ others, ∀ last, tailOf now.nodes member = some last →
      last ∈ root :: rest ∧ before.outlives block last = true

variable {before : Module P} {block home : BlockId}

theorem homeOf_ne_of_outlives {node : NodeId} (descends : before.descendsFrom home block)
    (outlives : before.outlives block node) : before.homeOf node ≠ some home := by
  intro homed
  rw [Module.outlives, homed] at outlives
  simp [descends] at outlives

theorem filter_survivorsOf {now : Module P} {members : List NodeId}
    (descends : before.descendsFrom home block)
    (homes : ∀ member ∈ members, before.homeOf member = now.homeOf member) :
    (now.survivorsOf home members).filter (before.outlives block) =
      members.filter (before.outlives block) := by
  rw [survivorsOf, filter_filter]
  refine filter_congr fun member inside => ?_
  cases outlives : before.outlives block member with
  | false => rfl
  | true =>
    have apart := homeOf_ne_of_outlives descends outlives
    rw [homes member inside] at apart
    simp [apart]

variable {m : Module P}

theorem homeOf_isSome_of_class {root : NodeId} {rest : List NodeId}
    (cls : IsClass m.nodes root rest) {member : NodeId} (inside : member ∈ root :: rest) :
    ∃ home, m.homeOf member = some home := by
  apply Option.isSome_iff_exists.1
  rw [homeOf_isSome, ← links_isSome]
  exact cls.live member inside

theorem TailsPending.releases {now next : Module P}
    (pending : TailsPending before block now) (descends : before.descendsFrom home block)
    (releases : Releases home now next) : TailsPending before block next := by
  have alive : ∀ node inner, next.homeOf node = some inner →
      next.nodes.containsKey node := fun node inner homed => by
    rw [← homeOf_isSome, homed]
    rfl
  refine ⟨fun node inner homed => ?_, ?_⟩
  · have stays := releases.home node (alive node inner homed)
    exact pending.home node inner (by rw [← stays, homed])
  · intro top behind first others cls survive member behindFirst last tail
    obtain ⟨root, rest, old, spliced⟩ := releases.classes top behind cls
    have homes : ∀ member ∈ root :: rest, before.homeOf member = now.homeOf member := by
      intro member inside
      obtain ⟨inner, homed⟩ := homeOf_isSome_of_class old inside
      rw [homed, pending.home member inner homed]
    have survive' : (root :: rest).filter (before.outlives block) = first :: others := by
      rw [← filter_survivorsOf descends homes, spliced, survive]
    have inside : member ∈ top :: behind :=
      mem_of_mem_filter (survive ▸ mem_cons_of_mem first behindFirst)
    have lives : next.nodes.containsKey member := by
      rw [← links_isSome]
      exact cls.live member inside
    rcases releases.tails member last lives tail with kept | ⟨own, headed⟩
    · obtain ⟨member', outlives⟩ := pending.tails root rest first others old survive' member
        behindFirst last kept
      refine ⟨?_, outlives⟩
      rw [← spliced, mem_survivorsOf, ← homes last member']
      exact ⟨member', homeOf_ne_of_outlives descends outlives⟩
    · -- The one tail a splice writes is the new representative's, and it comes first.
      obtain ⟨rfl, rfl⟩ := headed.unique cls headed.root_mem inside
      have distinct := cls.distinct.filter (before.outlives block)
      rw [survive] at distinct
      have chosen : member ∈ (member :: own).filter (before.outlives block) :=
        survive ▸ mem_cons_of_mem first behindFirst
      have head : first = member := by
        have kept := (mem_filter.1 chosen).2
        rw [filter_cons, if_pos kept] at survive
        exact ((List.cons.inj survive).1).symm
      subst head
      exact absurd behindFirst (nodup_cons.1 distinct).1

theorem tailsInside_dropBlock (consistent : Consistent m)
    (tails : TailsInside m.nodes) {entry : Block}
    (found : m.blocks.get block = some entry) (spliced : m.TailsSpliced block) :
    TailsInside (m.dropBlock block).nodes := by
  have start : TailsPending m block m := by
    refine ⟨fun _ _ homed => homed, fun root rest first others cls survive member behind last tail => ?_⟩
    have inside : member ∈ root :: rest :=
      mem_of_mem_filter (survive ▸ mem_cons_of_mem first behind)
    exact ⟨tails root rest cls member inside last tail,
      spliced root rest first others cls survive member behind last tail⟩
  obtain ⟨-, pending, dropped⟩ := consistent.dropBlock found (TailsPending m block) start
    (fun now home held => ⟨held.home, held.tails⟩)
    (fun now next home descends _ _ held released => held.releases descends released)
  intro root rest cls key inside last tail
  have all : (root :: rest).filter (m.outlives block) = root :: rest := by
    refine filter_eq_self.2 fun member inside => ?_
    obtain ⟨home, homed⟩ := homeOf_isSome_of_class cls inside
    rw [outlives, pending.home member home homed]
    simp [dropped.home consistent.tree homed]
  rcases mem_cons.1 inside with rfl | behind
  · rw [cls.tail] at tail
    exact mem_of_getLast? tail
  · exact (pending.tails root rest root rest cls all key behind last tail).1

section

variable {m' : Module P} (formed : WellFormed m.nodes) (tails : TailsInside m.nodes)

include formed tails

theorem tailsInside_adds {node : NodeId} (adds : AddsNode block node m m') :
    TailsInside m'.nodes := by
  intro root rest cls key inside last tail
  rcases adds.classes formed cls with ⟨rfl, rfl⟩ | old
  · obtain rfl := mem_singleton.1 inside
    rw [cls.tail] at tail
    exact mem_of_getLast? tail
  · have apart : key ≠ node := by
      rintro rfl
      have lives := old.live key inside
      rw [links_isSome, adds.fresh] at lives
      cases lives
    rw [adds.tail key apart] at tail
    exact tails root rest old key inside last tail

theorem tailsInside_equates {ra rb root : NodeId} {la lb rest : List NodeId}
    (one : IsClass m.nodes ra la) (two : IsClass m.nodes rb lb)
    (equates : Equates m m' ra la rb lb root rest) : TailsInside m'.nodes := by
  rcases equates.joins with ⟨-, -, -, compressed⟩ | ⟨-, joins⟩
  · exact tails.compresses formed compressed
  · exact tails.joins formed one two joins

end

/-- Whether the members behind each class's first survivor keep no tail link into the dropped
subtree. -/
def tailsSpliced (m : Module P) (block : BlockId) : Bool :=
  m.nodes.keys.all fun root =>
    ((m.membersOf root).filter (m.outlives block)).tail.all fun member =>
      (parentOf m.nodes root).isSome || (tailOf m.nodes member).all (m.outlives block)

theorem tailsSpliced_iff (spliced : m.tailsSpliced block) : m.TailsSpliced block := by
  intro root rest first others cls survive member behind last tail
  have live : root ∈ m.nodes.keys := by
    rw [SlotMap.mem_keys, ← links_isSome]
    exact cls.live root cls.root_mem
  have check := all_eq_true.1 spliced root live
  rw [membersOf_eq cls, survive] at check
  simpa [cls.rooted, tail] using all_eq_true.1 check member behind

end Module

/-- Every call keeps the tail links inside their classes whose drops splice no kept tail. -/
theorem Op.run_tailsInside {P : Program} {m m' : Module P} (consistent : Module.Consistent m)
    (tails : TailsInside m.nodes) (op : Op P) (tree : op.keepsTree m)
    (spliced : op.releasesWith tailsSpliced m) (ran : op.run m = some m') :
    TailsInside m'.nodes := by
  obtain ⟨-, effect⟩ := op.run_effect consistent tree ran
  cases effect with
  | framed nodes owners =>
    rw [nodes]
    exact tails
  | adds block node adds => exact tailsInside_adds consistent.formed tails adds
  | owns node owner middle sets nodes owners =>
    rw [nodes]
    exact tails.compresses consistent.formed sets.nodes
  | rescopes nodes folded => exact tails.compresses consistent.formed nodes
  | equates ra rb la lb root rest one two equates =>
    exact tailsInside_equates consistent.formed tails one two equates
  | unifies steps =>
    refine (steps.carry (fun m => TailsInside m.nodes) consistent tails ?_ ?_).2
    · intro middle next consistent tails keeps
      exact tails.compresses consistent.formed keeps.nodes
    · intro middle next ra la rb lb root rest consistent tails one two equates
      exact tailsInside_equates consistent.formed tails one two equates
  | releases now block target entry release live consistent'' walk nodes owners =>
    simp only [releasesWith, release] at spliced
    rw [nodes]
    exact tailsInside_dropBlock consistent'' (tails.compresses consistent.formed walk.nodes)
      live (tailsSpliced_iff spliced)

theorem Reaches.tailsInside {P : Program} {m : Module P}
    (reached : Reaches (fun m op => op.keepsTree m && op.releasesWith tailsSpliced m) m) :
    Module.Consistent m ∧ TailsInside m.nodes := by
  induction reached with
  | start registry =>
    refine ⟨Module.Consistent.start registry, fun root rest cls => ?_⟩
    have lives := cls.live root cls.root_mem
    obtain ⟨_ | index⟩ := root <;> simp [links, SlotMap.get] at lives
  | step op _ admitted ran ih =>
    obtain ⟨tree, spliced⟩ := Bool.and_eq_true_iff.1 admitted
    exact ⟨(op.run_effect ih.1 tree ran).1, op.run_tailsInside ih.1 ih.2 tree spliced ran⟩

end LichenVm
