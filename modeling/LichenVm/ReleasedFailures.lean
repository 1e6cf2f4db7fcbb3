import LichenVm.ModuleRun

open List

namespace LichenVm

open DisjointSet Program

variable {P : Program}

/-- `ys` is `xs` without some of the items `keep` rejects. -/
def Filters {α : Type} (keep : α → Bool) (xs ys : List α) : Prop :=
  ∃ kept : α → Bool, ys = xs.filter kept ∧ ∀ item, keep item = true → kept item = true

theorem filter_eq_filter_iff {α : Type} {keep keep' : α → Bool} {xs : List α} :
    xs.filter keep = xs.filter keep' ↔ ∀ item ∈ xs, (keep item ↔ keep' item) := by
  constructor
  · intro same item member
    have sides : item ∈ xs.filter keep ↔ item ∈ xs.filter keep' := by rw [same]
    simpa [mem_filter, member] using sides
  · exact fun agree => filter_congr fun item member => Bool.eq_iff_iff.2 (agree item member)

namespace Filters

variable {α : Type} {keep keep' : α → Bool} {xs ys zs : List α}

section

variable (keep : α → Bool) (xs : List α)

theorem refl : Filters keep xs xs :=
  ⟨fun _ => true, by simp, fun _ _ => rfl⟩

theorem filter : Filters keep xs (xs.filter keep) :=
  ⟨keep, rfl, fun _ holds => holds⟩

end

theorem trans (one : Filters keep xs ys) (two : Filters keep' ys zs)
    (stronger : ∀ item, keep' item → keep item) : Filters keep' xs zs := by
  obtain ⟨kept, rfl, spared⟩ := one
  obtain ⟨kept', rfl, spared'⟩ := two
  refine ⟨fun item => kept' item && kept item, filter_filter, fun item holds => ?_⟩
  exact Bool.and_eq_true_iff.2 ⟨spared' item holds, spared item (stronger item holds)⟩

theorem eq_filter (filters : Filters keep xs ys) (exact_ : ∀ item ∈ ys, keep item) :
    ys = xs.filter keep := by
  obtain ⟨kept, rfl, spared⟩ := filters
  apply filter_congr
  intro item member
  by_cases holds : kept item
  · rw [holds, exact_ item (mem_filter.2 ⟨member, holds⟩)]
  · have rejected : ¬ keep item := fun keeps => holds (spared item keeps)
    rw [Bool.eq_false_iff.2 holds, Bool.eq_false_iff.2 rejected]

end Filters

namespace Module

/-- Whatever `m'` was written into is its node, block and function tables. -/
def OnlyTables (m m' : Module P) : Prop :=
  m' = { m with nodes := m'.nodes, blocks := m'.blocks, functions := m'.functions }

namespace OnlyTables

theorem refl (m : Module P) : OnlyTables m m := rfl

theorem trans {first second third : Module P} (one : OnlyTables first second)
    (two : OnlyTables second third) : OnlyTables first third := by
  unfold OnlyTables at one two ⊢
  rw [two, one]

theorem ofNodes {m m' : Module P} (only : OnlyNodes m m') : OnlyTables m m' := by
  unfold OnlyNodes at only
  rw [only]
  exact rfl

theorem foldl {α : Type} (step : Module P → α → Module P)
    (each : ∀ m item, OnlyTables m (step m item)) (items : List α) (m : Module P) :
    OnlyTables m (items.foldl step m) := by
  induction items generalizing m with
  | nil => exact .refl m
  | cons item items ih => exact (each m item).trans (ih (step m item))

end OnlyTables

theorem refreshClassSummary_onlyTables (m : Module P) (node : NodeId) :
    OnlyTables m (m.refreshClassSummary node) := by
  simp only [refreshClassSummary]
  split
  · exact rfl
  · exact rfl

section

variable (m : Module P) (block : BlockId)

include m block

theorem releaseFunctions_onlyTables : OnlyTables m (m.releaseFunctions block) := by
  have each : ∀ (m : Module P) function, OnlyTables m (releaseFunction block m function) := by
    intro m function
    simp only [releaseFunction]
    split
    · exact .refl m
    · next entry found =>
      split
      · exact .refl m
      · have removed : OnlyTables m { m with functions := m.functions.remove function } := rfl
        refine removed.trans (OnlyTables.foldl _ (fun m node => ?_) entry.nodes _)
        simp only [refreshOutside]
        split
        · split
          · exact refreshClassSummary_onlyTables m node
          · exact .refl m
        · exact .refl m
  have opened : OnlyTables m (m.modifyBlock block fun entry => { entry with functions := [] }) := rfl
  exact opened.trans (OnlyTables.foldl _ each _ _)

theorem flattenClass_onlyTables (rep : NodeId) : OnlyTables m (m.flattenClass block rep) := by
  simp only [flattenClass]
  generalize m.survivorsOf block (m.membersOf rep) = survivors
  have rebuilt : OnlyTables m { m with nodes := rebuild m.nodes survivors } := rfl
  split
  · exact rebuilt
  · next representative rest =>
    refine rebuilt.trans ?_
    generalize ({ m with nodes := rebuild m.nodes (representative :: rest) } : Module P) = m
    have summary := refreshClassSummary_onlyTables m representative
    have filled (value : Value P) : OnlyTables m
        ((m.refreshClassSummary representative).fillClassHoles representative value) :=
      summary.trans (OnlyTables.ofNodes (OnlyNodes.foldl _ (fun m _ => .nodes m _) _ _))
    split
    · split
      · exact summary
      · exact filled _
    · refine OnlyTables.trans ?_ (OnlyTables.ofNodes (refineClassLowType_onlyNodes _ _ _))
      split
      · exact summary
      · exact filled _

theorem releaseNodes_onlyTables : OnlyTables m (m.releaseNodes block) := by
  have touches : ∀ (nodes : List NodeId) (m : Module P),
      OnlyTables m (m.touchedClasses block nodes).2 := by
    intro nodes
    induction nodes with
    | nil => exact fun m => .refl m
    | cons node rest ih =>
      intro m
      simp only [touchedClasses]
      split
      · have found : OnlyTables m (m.find node).2 := rfl
        exact found.trans (ih _)
      · exact ih m
  have opened : OnlyTables m (m.modifyBlock block fun entry => { entry with nodes := [] }) := rfl
  refine ((opened.trans (touches _ _)).trans (OnlyTables.foldl _ (fun m rep =>
    flattenClass_onlyTables m block rep) _ _)).trans (OnlyTables.foldl _ (fun m node => ?_) _ _)
  simp only [removeHomed]
  split
  · exact rfl
  · exact .refl m

end

def assertErrorIsLive (m : Module P) (error : AssertError P) : Bool :=
  m.nodes.containsKey error.condition && m.refIsLive error.template

def applyErrorIsLive (m : Module P) (error : ApplyError) : Bool :=
  m.nodes.containsKey error.parameterType && m.nodes.containsKey error.argumentType &&
    m.nodes.containsKey error.argument && m.nodes.containsKey error.applyNode

section Fewer

variable {m m' : Module P}
  (fewer : ∀ node, m'.nodes.containsKey node → m.nodes.containsKey node)
include fewer

theorem refIsLive_mono (ref : AnyNodeId) (live : m'.refIsLive ref) :
    m.refIsLive ref := by
  cases ref with
  | dynamic node => exact fewer node live
  | static sref => rfl

theorem unifyErrorIsLive_mono (error : UnifyError P) (live : m'.unifyErrorIsLive error) :
    m.unifyErrorIsLive error := by
  simp only [unifyErrorIsLive, Bool.and_eq_true, all_eq_true] at live ⊢
  obtain ⟨⟨⟨⟨rootA, rootB⟩, a⟩, b⟩, steps⟩ := live
  exact ⟨⟨⟨⟨fewer _ rootA, fewer _ rootB⟩, fewer _ a⟩, fewer _ b⟩, fun step member =>
    ⟨fewer _ (steps step member).1, fewer _ (steps step member).2⟩⟩

theorem evalErrorIsLive_mono (error : EvalError) (live : m'.evalErrorIsLive error) :
    m.evalErrorIsLive error := by
  have refs := refIsLive_mono fewer
  cases error with
  | index index _ _ => exact refs index live
  | tableMiss table key =>
    obtain ⟨left, right⟩ := Bool.and_eq_true_iff.1 live
    exact Bool.and_eq_true_iff.2 ⟨refs table left, refs key right⟩
  | tableKeyUndecided key => exact refs key live
  | indexTarget target => exact refs target live
  | indexSubscript subscript => exact refs subscript live
  | applyTarget function => exact refs function live

theorem assertErrorIsLive_mono (error : AssertError P) (live : m'.assertErrorIsLive error) :
    m.assertErrorIsLive error := by
  obtain ⟨condition, template⟩ := Bool.and_eq_true_iff.1 live
  exact Bool.and_eq_true_iff.2 ⟨fewer _ condition, refIsLive_mono fewer _ template⟩

theorem applyErrorIsLive_mono (error : ApplyError) (live : m'.applyErrorIsLive error) :
    m.applyErrorIsLive error := by
  simp only [applyErrorIsLive, Bool.and_eq_true] at live ⊢
  obtain ⟨⟨⟨parameter, argumentType⟩, argument⟩, node⟩ := live
  exact ⟨⟨⟨fewer _ parameter, fewer _ argumentType⟩, fewer _ argument⟩, fewer _ node⟩

end Fewer

/-- What a drop does to the records: no node comes to life, the entries each list loses name a
node that is gone, and every other record is as it was. -/
structure Sheds (m m' : Module P) : Prop where
  live : ∀ node, m'.nodes.containsKey node = true → m.nodes.containsKey node = true
  asserts : Filters (fun entry => m'.nodes.containsKey entry.condition) m.asserts m'.asserts
  unifyErrors : Filters m'.unifyErrorIsLive m.unifyErrors m'.unifyErrors
  evalErrors : Filters m'.evalErrorIsLive m.evalErrors m'.evalErrors
  assertErrors : Filters m'.assertErrorIsLive m.assertErrors m'.assertErrors
  applyErrors : Filters m'.applyErrorIsLive m.applyErrors m'.applyErrors
  only : m' = { m with
    nodes := m'.nodes, blocks := m'.blocks, functions := m'.functions, asserts := m'.asserts
    unifyErrors := m'.unifyErrors, evalErrors := m'.evalErrors, assertErrors := m'.assertErrors
    applyErrors := m'.applyErrors }

namespace Sheds

theorem ofTables {m m' : Module P} (only : OnlyTables m m')
    (live : ∀ node, m'.nodes.containsKey node → m.nodes.containsKey node) :
    Sheds m m' := by
  unfold OnlyTables at only
  rw [only] at live ⊢
  exact ⟨live, .refl _ _, .refl _ _, .refl _ _, .refl _ _, .refl _ _, rfl⟩

theorem trans {first second third : Module P} (one : Sheds first second)
    (two : Sheds second third) : Sheds first third where
  live node live := one.live node (two.live node live)
  asserts := one.asserts.trans two.asserts fun entry live => two.live entry.condition live
  unifyErrors := one.unifyErrors.trans two.unifyErrors (unifyErrorIsLive_mono two.live)
  evalErrors := one.evalErrors.trans two.evalErrors (evalErrorIsLive_mono two.live)
  assertErrors := one.assertErrors.trans two.assertErrors (assertErrorIsLive_mono two.live)
  applyErrors := one.applyErrors.trans two.applyErrors (applyErrorIsLive_mono two.live)
  only := by rw [two.only, one.only]

end Sheds

theorem releaseBlock_sheds {m : Module P} {block : BlockId}
    (live : ∀ node, (m.releaseBlock block).nodes.containsKey node →
      m.nodes.containsKey node) : Sheds m (m.releaseBlock block) := by
  have only := (releaseFunctions_onlyTables m block).trans
    (releaseNodes_onlyTables (m.releaseFunctions block) block)
  have kept := Sheds.ofTables only live
  refine kept.trans ?_
  exact ⟨fun _ live => live, .filter _ _, .filter _ _, .filter _ _, .filter _ _, .filter _ _, rfl⟩

/-- What a drop leaves in the lists names live nodes alone. -/
structure NamesLive (m : Module P) : Prop where
  asserts : ∀ entry ∈ m.asserts, m.nodes.containsKey entry.condition = true
  unifyErrors : ∀ error ∈ m.unifyErrors, m.unifyErrorIsLive error = true
  evalErrors : ∀ error ∈ m.evalErrors, m.evalErrorIsLive error = true
  assertErrors : ∀ error ∈ m.assertErrors, m.assertErrorIsLive error = true
  applyErrors : ∀ error ∈ m.applyErrors, m.applyErrorIsLive error = true

section

variable (m : Module P) (block : BlockId)

theorem releaseBlock_namesLive : NamesLive (m.releaseBlock block) :=
  ⟨fun _ member => (mem_filter.1 member).2, fun _ member => (mem_filter.1 member).2,
    fun _ member => (mem_filter.1 member).2, fun _ member => (mem_filter.1 member).2,
    fun _ member => (mem_filter.1 member).2⟩

theorem dropBlock_namesLive : NamesLive (m.dropBlock block) :=
  releaseBlock_namesLive _ block

end

/-- What a drop releases: the nodes homed in the block or below it. -/
theorem dropBlock_sheds {m : Module P} (consistent : Consistent m) {block : BlockId}
    (found : m.blocks.containsKey block) :
    Sheds m (m.dropBlock block) ∧ ∀ node, (m.dropBlock block).nodes.containsKey node =
        (m.nodes.containsKey node && !m.homedIn block node) := by
  obtain ⟨entry, held⟩ := (SlotMap.containsKey_eq_true _ _).1 found
  -- Along the drop a live node keeps its home, and one homed outside the subtree stays live.
  have rule : DropRule m (fun home => m.descendsFrom home block)
      (fun now => Coherent now ∧ Sheds m now ∧ ∀ node,
        (now.nodes.containsKey node → now.homeOf node = m.homeOf node) ∧
        (m.nodes.containsKey node → m.homedIn block node = false →
          now.nodes.containsKey node)) := by
    refine ⟨fun now inv => inv.1.formed, ?_, ?_, ?_⟩
    · intro home inner up found' hangs descends
      exact (descendsFrom_iff consistent.tree found').2 (Or.inr ⟨up, hangs, descends⟩)
    · intro now home _ inv
      exact ⟨inv.1.openBlock home, inv.2.1.trans (Sheds.ofTables rfl fun _ live => live), inv.2.2⟩
    · intro now home inner descends inv found' listed
      obtain ⟨coherent, sheds, homes⟩ := inv
      obtain ⟨released, -, -⟩ := releaseBlock_releases coherent.formed found' listed
      refine ⟨coherent.releases released, sheds.trans (releaseBlock_sheds fun node live =>
        ((released.live node).1 live).1), fun node => ⟨fun live => ?_, fun live outside => ?_⟩⟩
      · have before := (released.live node).1 live
        rw [released.home node live, (homes node).1 before.1]
      · have still := (homes node).2 live outside
        refine (released.live node).2 ⟨still, fun homed => ?_⟩
        rw [(homes node).1 still] at homed
        simp [homedIn, homed, descends] at outside
  obtain ⟨⟨-, sheds, homes⟩, dropped⟩ := rule.dropBlock
    ⟨consistent.toCoherent, Sheds.ofTables (.refl m) fun _ live => live,
      fun node => ⟨fun _ => rfl, fun live _ => live⟩⟩
    consistent.tree (descendsFrom_self m block) held
  refine ⟨sheds, fun node => ?_⟩
  rw [Bool.eq_iff_iff, Bool.and_eq_true, Bool.not_eq_true']
  constructor
  · intro live
    refine ⟨sheds.live node live, ?_⟩
    obtain ⟨entry', lives⟩ := (SlotMap.containsKey_eq_true _ _).1 live
    have home : (m.dropBlock block).homeOf node = some entry'.block := by simp [homeOf, lives]
    have outside := dropped.home consistent.tree home
    rw [(homes node).1 live] at home
    simp [homedIn, home, outside]
  · exact fun both => (homes node).2 both.1 both.2

end Module

/-- The nodes an entry names: its roots, its sides and its steps. A static position is named by
the null node. -/
def UnifyError.names (error : UnifyError P) : List NodeId :=
  error.rootA :: error.rootB :: error.a :: error.b :: error.steps.flatMap fun step => [step.a, step.b]

namespace Module

theorem unifyErrorIsLive_eq (m : Module P) (error : UnifyError P) :
    m.unifyErrorIsLive error = error.names.all m.nodes.containsKey := by
  simp only [unifyErrorIsLive, UnifyError.names, all_cons, all_flatMap, all_nil,
    Bool.and_true, Bool.and_assoc]

/-- A drop removes the failures that name a node it releases, and no other, exactly when each
failure that names no node of the dropped subtree names live nodes alone. -/
theorem dropBlock_forgets_released_iff {m : Module P} (consistent : Consistent m) {block : BlockId}
    (found : m.blocks.containsKey block = true) :
    ((m.dropBlock block).unifyErrors = m.unifyErrors.filter fun error =>
        !error.names.any fun node =>
          m.nodes.containsKey node && !(m.dropBlock block).nodes.containsKey node) ↔
      ∀ error ∈ m.unifyErrors, (∀ node ∈ error.names, m.homedIn block node = false) →
        ∀ node ∈ error.names, m.nodes.containsKey node = true := by
  obtain ⟨sheds, live⟩ := dropBlock_sheds consistent found
  have kept := sheds.unifyErrors.eq_filter (dropBlock_namesLive m block).unifyErrors
  have homed : ∀ node, m.homedIn block node = true → m.nodes.containsKey node = true := by
    intro node inside
    cases held : m.nodes.get node with
    | none => simp [homedIn, homeOf, held] at inside
    | some entry => simp [SlotMap.containsKey, held]
  -- What the drop releases is what the subtree homes.
  have released : ∀ node, (m.nodes.containsKey node &&
      !(m.dropBlock block).nodes.containsKey node) = m.homedIn block node := by
    intro node
    rw [live]
    cases inside : m.homedIn block node with
    | false => cases m.nodes.containsKey node <;> rfl
    | true => simp [homed node inside]
  rw [kept, filter_eq_filter_iff]
  refine forall₂_congr fun error _ => ?_
  simp only [unifyErrorIsLive_eq, released]
  simp only [live, all_eq_true, Bool.and_eq_true, Bool.not_eq_true', any_eq_false, Bool.not_eq_true]
  constructor
  · exact fun same outside node member => ((same.2 outside) node member).1
  · intro names
    exact ⟨fun all node member => (all node member).2,
      fun outside node member => ⟨names outside node member, outside node member⟩⟩

/-- Two scalars that disagree, and an empty block below theirs. -/
def disagreed : Option (Module plain) :=
  Reaches.runAll (fun m op => op.keepsTree m)
    [.addBlock none, .addBlock (some ⟨1⟩), .addNode ⟨1⟩ none (some (.low (.usize 5))),
      .addNode ⟨1⟩ none (some (.low (.usize 6))), .unify ⟨1⟩ ⟨2⟩] {}

theorem disagreed_consistent {m : Module plain} (made : disagreed = some m) :
    Consistent m :=
  (Reaches.of_runAll _ (.start {}) made).consistent fun _ _ tree => tree

/-- Dropping the empty block keeps the failure of the two scalars. -/
theorem disagreed_kept : ∃ m, disagreed = some m ∧ m.unifyErrors.length = 1 ∧
    (m.dropBlock ⟨2⟩).unifyErrors = m.unifyErrors.filter fun error =>
      !error.names.any fun node =>
        m.nodes.containsKey node && !(m.dropBlock ⟨2⟩).nodes.containsKey node :=
  ⟨_, rfl, rfl, (dropBlock_forgets_released_iff (disagreed_consistent rfl) rfl).2
    (by decide +kernel)⟩

def scalarHome : StaticModule plain where
  key := ⟨7⟩
  nodes := [{ value := some (.low (.usize 6)) }]
  functions := []

def frozenScalar : Registry plain where
  entries := ⟨[(⟨7⟩, ⟨scalarHome, [], []⟩)]⟩

/-- A scalar that disagrees with the frozen one, and an empty block below its own. -/
def disagreedFrozen : Option (Module plain) :=
  (Reaches.runAll (fun m op => op.keepsTree m)
    [.addBlock none, .addBlock (some ⟨1⟩), .addNode ⟨1⟩ none (some (.low (.usize 5)))]
    { registry := frozenScalar }).bind fun m =>
      (m.unifyRef (.dynamic ⟨1⟩) (.static ⟨⟨7⟩, ⟨0⟩⟩)).map Prod.snd

/-- The frozen side is recorded as the null node: dropping the empty block loses the failure,
though the scalar it names stays live. -/
theorem disagreedFrozen_forgotten : ∃ m, disagreedFrozen = some m ∧ m.unifyErrors.length = 1 ∧
    (∀ error ∈ m.unifyErrors, ∀ node ∈ error.names, node = default ∨
      (m.dropBlock ⟨2⟩).nodes.containsKey node = true) ∧
    (m.dropBlock ⟨2⟩).unifyErrors ≠ m.unifyErrors.filter fun error =>
      !error.names.any fun node =>
        m.nodes.containsKey node && !(m.dropBlock ⟨2⟩).nodes.containsKey node :=
  ⟨_, rfl, by decide +kernel⟩

end Module

end LichenVm
