import LichenVm.ClassFrames
import LichenVm.Unify

open Option

namespace LichenVm

open DisjointSet

variable {P : Program}

/-- The value a node-naming side carries is the one its node holds. -/
def Side.Answers (m : Module P) (side : Side P) : Prop :=
  ∀ node, side.node = some node → ∃ entry, m.nodes.get node = some entry ∧ entry.value = side.value

namespace Module

/-- The rule of a unification: a relation that the writes it is made of satisfy, and that
composes, is one that it satisfies. An equality is asked of live nodes alone, a write of a
node that holds nothing. -/
structure UnifyRule (Rel : Module P → Module P → Prop) : Prop where
  refl : ∀ m, Rel m m
  trans : ∀ first second third, Rel first second → Rel second third → Rel first third
  live : ∀ m m', Rel m m' → ∀ node, m'.nodes.containsKey node = m.nodes.containsKey node
  equates : ∀ m a b, m.nodes.containsKey a = true → m.nodes.containsKey b = true →
    Rel m (m.addEquality a b).2
  writes : ∀ m node entry value, m.nodes.get node = some entry → entry.value = none →
    Rel m (m.writeNodeValue node (some value))
  records : ∀ m errors, Rel m { m with unifyErrors := errors }
  binds : ∀ m bindings, Rel m { m with constructorBindings := bindings }

/-- Every answer of `inner` leaves a module related to the one it was given. -/
def Follows (Rel : Module P → Module P → Prop) (inner : Unifier P) : Prop :=
  ∀ d a b m ok m', inner d a b m = some (ok, m') → Rel m m'

variable {m : Module P}

theorem answerClassSide_answers {side side' : Side P}
    (answered : m.answerClassSide side = some side') : side'.Answers m := by
  simp only [answerClassSide] at answered
  intro node named
  cases held : side.node with
  | none =>
    rw [held] at answered
    cases answered
    rw [held] at named
    cases named
  | some node' =>
    rw [held] at answered
    obtain ⟨entry, found, rfl⟩ := map_eq_some_iff.1 answered
    cases named
    exact ⟨entry, found, rfl⟩

namespace UnifyRule

variable {Rel : Module P → Module P → Prop} (rule : UnifyRule Rel)
include rule

variable (m : Module P)

theorem bindConstructor (wildcard constructor : AnyFunctionId) :
    Rel m (m.bindConstructor wildcard constructor).2 := by
  simp only [Module.bindConstructor]
  split
  · exact rule.refl m
  · split
    · exact rule.refl m
    · exact rule.binds m _

theorem bindScopes (left right first second : Option AnyFunctionId) :
    Rel m (match left, right, first, second with
      | some wildcard, none, _, some constructor =>
        if m.isWildcardConstructor constructor then (true, m)
        else m.bindConstructor wildcard constructor
      | none, some wildcard, some constructor, _ =>
        if m.isWildcardConstructor constructor then (true, m)
        else m.bindConstructor wildcard constructor
      | _, _, _, _ => (true, m)).2 := by
  split
  · split
    · exact rule.refl m
    · exact rule.bindConstructor m _ _
  · split
    · exact rule.refl m
    · exact rule.bindConstructor m _ _
  · exact rule.refl m

theorem inferConstructorBinding (aFunction bFunction : AnyFunctionId) (a b : NodeId) :
    Rel m (m.inferConstructorBinding aFunction a bFunction b).2 := by
  have scopes := rule.bindScopes m
  simp only [Module.inferConstructorBinding]
  split
  · split
    · exact rule.bindConstructor m _ _
    · exact rule.bindConstructor m _ _
    · exact scopes _ _ _ _
  · exact scopes _ _ _ _

theorem bindParameters (a b : AnyFunctionId) (parameterA parameterB : AnyNodeId) :
    Rel m (m.bindParameters a parameterA b parameterB).2 := by
  simp only [Module.bindParameters]
  split
  · exact rule.inferConstructorBinding m _ _ _ _
  · exact rule.refl m

variable {inner : Unifier P} (follows : Follows Rel inner)

section Items
include follows

variable {d : Descent} {m' : Module P} {ok : Bool} {m : Module P}

theorem unifyItem {index : Nat} {na nb : AnyNodeId}
    (ran : m.unifyItem inner d index na nb = some (ok, m')) : Rel m m' := by
  simp only [Module.unifyItem] at ran
  split at ran
  · obtain ⟨-, rfl⟩ := Prod.mk.inj (some.inj ran)
    exact rule.refl m
  · split at ran
    · obtain ⟨-, rfl⟩ := Prod.mk.inj (some.inj ran)
      exact rule.refl m
    · obtain ⟨a, -, ran⟩ := bind_eq_some_iff.1 ran
      obtain ⟨b, -, ran⟩ := bind_eq_some_iff.1 ran
      exact follows _ _ _ _ _ _ ran

theorem unifyItems (pairs : List (Nat × AnyNodeId × AnyNodeId))
    (ran : unifyItems inner d pairs m = some (ok, m')) : Rel m m' := by
  induction pairs generalizing m with
  | nil =>
    obtain ⟨-, rfl⟩ := Prod.mk.inj (some.inj ran)
    exact rule.refl m
  | cons pair rest ih =>
    obtain ⟨⟨agrees, middle⟩, first, ran⟩ := bind_eq_some_iff.1 ran
    have step := rule.unifyItem follows first
    dsimp only at ran
    split at ran
    · exact rule.trans _ _ _ step (ih ran)
    · cases ran
      exact step

theorem unifyArrayItems {a b : ArrayValue} (ran : m.unifyArrayItems inner d a b = some (ok, m')) :
    Rel m m' := by
  simp only [Module.unifyArrayItems] at ran
  split at ran
  · obtain ⟨-, rfl⟩ := Prod.mk.inj (some.inj ran)
    exact rule.refl m
  · split at ran
    · obtain ⟨-, rfl⟩ := Prod.mk.inj (some.inj ran)
      exact rule.refl m
    · obtain ⟨⟨agrees, middle⟩, leading, ran⟩ := bind_eq_some_iff.1 ran
      have step := rule.unifyItems follows _ leading
      split at ran
      · obtain ⟨left, -, ran⟩ := bind_eq_some_iff.1 ran
        obtain ⟨right, -, ran⟩ := bind_eq_some_iff.1 ran
        exact rule.trans _ _ _ step (rule.unifyItems follows _ ran)
      · cases ran
        exact step

omit rule in
theorem unifyCell {index : Nat} {na nb : AnyNodeId}
    (ran : m.unifyCell inner d index na nb = some (ok, m')) : Rel m m' := by
  obtain ⟨a, -, ran⟩ := bind_eq_some_iff.1 ran
  obtain ⟨b, -, ran⟩ := bind_eq_some_iff.1 ran
  exact follows _ _ _ _ _ _ ran

theorem unifyFunctionSignatures {a b : AnyFunctionId} {matched : Option Bool}
    (ran : m.unifyFunctionSignatures inner d a b = some (matched, m')) : Rel m m' := by
  obtain ⟨cellsA, -, ran⟩ := bind_eq_some_iff.1 ran
  obtain ⟨cellsB, -, ran⟩ := bind_eq_some_iff.1 ran
  split at ran
  · next parameterA _ parameterB _ _ =>
    refine rule.trans _ _ _ (rule.bindParameters m a b parameterA parameterB) ?_
    dsimp only at ran
    split at ran
    · cases ran
      exact rule.records _ _
    · split at ran
      · cases ran
        exact rule.refl _
      · obtain ⟨⟨parameters, after⟩, first, ran⟩ := bind_eq_some_iff.1 ran
        have step := unifyCell follows first
        split at ran
        · obtain ⟨⟨returns, last⟩, second, ran⟩ := bind_eq_some_iff.1 ran
          cases ran
          exact rule.trans _ _ _ step (unifyCell follows second)
        · cases ran
          exact step
  · obtain ⟨-, rfl⟩ := Prod.mk.inj (some.inj ran)
    exact rule.refl m

theorem unifyValues {a b : Side P} (left : a.Answers m) (right : b.Answers m)
    (ran : m.unifyValues inner d a b = some (ok, m')) : Rel m m' := by
  have fills : ∀ (side : Side P) (value : Value P), side.Answers m → side.value = none →
      unifyValues.fill m side.node value = some (ok, m') → Rel m m' := by
    intro side value answers empty ran
    simp only [unifyValues.fill] at ran
    split at ran
    · obtain ⟨-, rfl⟩ := Prod.mk.inj (some.inj ran)
      exact rule.refl m
    · next node named =>
      obtain ⟨isOpen, -, ran⟩ := bind_eq_some_iff.1 ran
      split at ran
      · obtain ⟨-, rfl⟩ := Prod.mk.inj (some.inj ran)
        exact rule.refl m
      · cases ran
        obtain ⟨entry, found, held⟩ := answers node named
        exact rule.writes m node entry value found (held.trans empty)
  simp only [Module.unifyValues] at ran
  split at ran
  · obtain ⟨-, rfl⟩ := Prod.mk.inj (some.inj ran)
    exact rule.refl m
  · next empty _ => exact fills a _ left empty ran
  · next _ empty => exact fills b _ right empty ran
  · split at ran
    · exact rule.unifyArrayItems follows ran
    · obtain ⟨⟨matched, middle⟩, signatures, ran⟩ := bind_eq_some_iff.1 ran
      have step := rule.unifyFunctionSignatures follows signatures
      split at ran
      · cases ran
        exact step
      · split at ran
        · cases ran
          exact step
        · cases ran
          exact rule.trans _ _ _ step (rule.records middle _)
    · split at ran
      · obtain ⟨-, rfl⟩ := Prod.mk.inj (some.inj ran)
        exact rule.refl m
      · cases ran
        exact rule.records m _

theorem unifyHeld {ra rb : NodeId} {x y : Value P} (left : m.nodes.containsKey ra)
    (right : m.nodes.containsKey rb) (ran : m.unifyHeld inner d ra rb x y = some (ok, m')) :
    Rel m m' := by
  have merges : ∀ middle, Rel m middle → Rel m (middle.addEquality ra rb).2 := fun middle step =>
    rule.trans _ _ _ step (rule.equates middle ra rb ((rule.live _ _ step ra).trans left)
      ((rule.live _ _ step rb).trans right))
  simp only [Module.unifyHeld] at ran
  split at ran
  · split at ran
    · cases ran
      exact rule.records m _
    · obtain ⟨⟨agrees, middle⟩, items, ran⟩ := bind_eq_some_iff.1 ran
      have step := rule.unifyArrayItems follows items
      cases ran
      split
      · exact merges middle step
      · exact step
  · obtain ⟨⟨matched, middle⟩, signatures, ran⟩ := bind_eq_some_iff.1 ran
    have step := rule.unifyFunctionSignatures follows signatures
    split at ran
    · cases ran
      exact merges middle step
    · cases ran
      exact step
    · split at ran
      · cases ran
        exact merges middle step
      · cases ran
        exact rule.trans _ _ _ step (rule.records middle _)
  · split at ran
    · cases ran
      exact merges m (rule.refl m)
    · cases ran
      exact rule.records m _

theorem unifyNodes {ra rb : NodeId} {va vb : Option (Value P)}
    (left : m.nodes.containsKey ra) (right : m.nodes.containsKey rb)
    (ran : m.unifyNodes inner d ra rb va vb = some (ok, m')) : Rel m m' := by
  simp only [Module.unifyNodes] at ran
  split at ran
  · obtain ⟨-, rfl⟩ := Prod.mk.inj (some.inj ran)
    exact rule.refl m
  · split at ran
    · obtain ⟨-, rfl⟩ := Prod.mk.inj (some.inj ran)
      exact rule.refl m
    · split at ran
      · exact rule.unifyHeld follows left right ran
      · cases ran
        exact rule.equates m ra rb left right

end Items

theorem unifyWildcard {a b : Side P} {m : Module P} (left : a.Answers m) (right : b.Answers m) :
    Rel m (m.unifyWildcard a b) := by
  simp only [Module.unifyWildcard]
  split
  · next wild =>
    split
    · next ra rb namedA namedB =>
      obtain ⟨_, foundA, -⟩ := left ra namedA
      obtain ⟨_, foundB, -⟩ := right rb namedB
      exact rule.equates m ra rb (by simp [SlotMap.containsKey, foundA])
        (by simp [SlotMap.containsKey, foundB])
    · next node _ named =>
      obtain ⟨entry, found, held⟩ := right node named
      have empty : b.value = none := isNone_iff_eq_none.1 wild.2
      obtain ⟨value, holds⟩ : ∃ value, a.value = some value := by
        have wildcard := wild.1
        cases holds : a.value with
        | none => simp [isWildcard, holds] at wildcard
        | some value => exact ⟨value, rfl⟩
      rw [holds]
      exact rule.writes m node entry value found (held.trans empty)
    · exact rule.refl m
  · exact rule.refl m

theorem unifyInner (depth : Nat) : Follows Rel (Module.unifyInner depth) := by
  induction depth with
  | zero =>
    intro d a b m ok m' ran
    cases ran
    exact rule.refl m
  | succ depth ih =>
    intro d a b m ok m' ran
    obtain ⟨left, answerA, ran⟩ := bind_eq_some_iff.1 ran
    obtain ⟨right, answerB, ran⟩ := bind_eq_some_iff.1 ran
    have answersA := answerClassSide_answers answerA
    have answersB := answerClassSide_answers answerB
    split at ran
    · cases ran
      exact rule.unifyWildcard answersA answersB
    · split at ran
      · next ra rb namedA namedB =>
        obtain ⟨_, foundA, -⟩ := answersA ra namedA
        obtain ⟨_, foundB, -⟩ := answersB rb namedB
        exact rule.unifyNodes ih (by simp [SlotMap.containsKey, foundA])
          (by simp [SlotMap.containsKey, foundB]) ran
      · exact rule.unifyValues ih answersA answersB ran

theorem unify (finds : ∀ m node, Rel m (m.find node).2) {a b representative : NodeId}
    {m m' : Module P} (ran : m.unify a b = some (representative, m')) : Rel m m' := by
  obtain ⟨⟨ok, middle⟩, inner, ran⟩ := bind_eq_some_iff.1 ran
  have step := rule.unifyInner _ _ _ _ _ _ _ inner
  have found := congrArg Prod.snd (some.inj ran)
  dsimp only at found
  rw [← found]
  exact rule.trans _ _ _ step (finds middle a)

end UnifyRule

/-- What a unification does to the classes: it keeps them, or equates two of them, in turn. -/
inductive Unifies (m : Module P) : Module P → Prop where
  | refl : Unifies m m
  | keeps {middle m' : Module P} (before : Unifies m middle) (step : KeepsSummaries middle m') :
      Unifies m m'
  | equates {middle m' : Module P} {ra rb root : NodeId} {la lb rest : List NodeId}
      (before : Unifies m middle) (one : IsClass middle.nodes ra la)
      (two : IsClass middle.nodes rb lb) (step : Equates middle m' ra la rb lb root rest) :
      Unifies m m'

theorem Unifies.trans {first second third : Module P} (one : Unifies first second)
    (two : Unifies second third) : Unifies first third := by
  induction two with
  | refl => exact one
  | keeps _ step ih => exact ih.keeps step
  | equates _ left right step ih => exact ih.equates left right step

theorem unifies_rule : UnifyRule (P := P) fun m m' =>
    Frame m m' ∧ (WellFormed m.nodes → WellFormed m'.nodes ∧ Unifies m m') where
  refl m := ⟨Frame.refl m, fun formed => ⟨formed, .refl⟩⟩
  trans _ _ _ one two := ⟨one.1.trans two.1, fun formed => by
    obtain ⟨middle, before⟩ := one.2 formed
    obtain ⟨last, after⟩ := two.2 middle
    exact ⟨last, before.trans after⟩⟩
  live _ _ step := step.1.live
  equates m a b left right := by
    refine ⟨addEquality_frame m a b, fun formed => ?_⟩
    obtain ⟨ra, la, one, memberA⟩ := formed a (by rw [links_isSome, left])
    obtain ⟨rb, lb, two, memberB⟩ := formed b (by rw [links_isSome, right])
    obtain ⟨root, rest, equates⟩ := addEquality_spec one memberA two memberB
    exact ⟨equates.wellFormed formed one two, Unifies.refl.equates one two equates⟩
  writes m node entry value _ _ := by
    refine ⟨writeNodeValue_frame m node _, fun formed => ?_⟩
    have keeps := writeNodeValue_keepsSummaries formed node (some value)
    exact ⟨formed.compresses keeps.nodes, Unifies.refl.keeps keeps⟩
  records _ _ := of_tables rfl rfl rfl
  binds _ _ := of_tables rfl rfl rfl
where
  of_tables {m m' : Module P} (nodes : m'.nodes = m.nodes) (functions : m'.functions = m.functions)
      (blocks : m'.blocks = m.blocks) :
      Frame m m' ∧ (WellFormed m.nodes → WellFormed m'.nodes ∧ Unifies m m') := by
    have keeps := KeepsSummaries.of_tables nodes functions blocks
    exact ⟨keeps.toFrame, fun formed => ⟨nodes ▸ formed, Unifies.refl.keeps keeps⟩⟩

theorem unify_unifies {m' : Module P} (formed : WellFormed m.nodes) {a b representative : NodeId}
    (ran : m.unify a b = some (representative, m')) : Unifies m m' := by
  refine ((unifies_rule.unify ?_ ran).2 formed).2
  intro m node
  refine ⟨find_frame m node, fun formed => ?_⟩
  have keeps := find_keeps formed node
  exact ⟨formed.compresses keeps.nodes, Unifies.refl.keeps keeps⟩

/-- Whatever `m'` was written into is its node table. -/
def OnlyNodes (m m' : Module P) : Prop := m' = { m with nodes := m'.nodes }

namespace OnlyNodes

theorem nodes (m : Module P) (nodes : SlotMap NodeTag (Node P)) : OnlyNodes m { m with nodes } := rfl

theorem trans {first second third : Module P} (one : OnlyNodes first second)
    (two : OnlyNodes second third) : OnlyNodes first third := by
  unfold OnlyNodes at one two ⊢
  rw [two, one]

theorem foldl {α : Type} (step : Module P → α → Module P)
    (each : ∀ m item, OnlyNodes m (step m item)) (items : List α) (m : Module P) :
    OnlyNodes m (items.foldl step m) := by
  induction items generalizing m with
  | nil => exact .nodes m m.nodes
  | cons item items ih => exact (each m item).trans (ih (step m item))

end OnlyNodes

section

variable (m : Module P)

theorem fillAcross_onlyNodes (a b rootA rootB : NodeId) :
    OnlyNodes m (m.fillAcross a b rootA rootB) := by
  unfold fillAcross
  split
  · exact OnlyNodes.foldl _ (fun m member => .nodes m _) _ m
  · exact OnlyNodes.foldl _ (fun m member => .nodes m _) _ m
  · exact .nodes m m.nodes

theorem refineClassLowType_onlyNodes (node : NodeId) (shape : LowShape) :
    OnlyNodes m (m.refineClassLowType node shape) := by
  simp only [refineClassLowType]
  split
  · exact .nodes m m.nodes
  · split
    · exact .nodes m _
    · exact .nodes m m.nodes

theorem addEquality_onlyNodes (a b : NodeId) : OnlyNodes m (m.addEquality a b).2 := by
  have found : OnlyNodes m ((m.find a).2.find b).2 := OnlyNodes.trans (.nodes m _) (.nodes _ _)
  have filled := found.trans
    (fillAcross_onlyNodes _ a b (m.find a).1 ((m.find a).2.find b).1)
  simp only [addEquality]
  generalize (m.find a).1 = ra, ((m.find a).2.find b).1 = rb at filled ⊢
  generalize ((m.find a).2.find b).2.fillAcross a b ra rb = filling at filled ⊢
  generalize union filling.nodeBound filling.nodes ra rb = united
  have merged : OnlyNodes filling
      ({ filling with nodes := united.2 }.mergeClassSummaries ra rb united.1) := .nodes filling _
  exact (filled.trans merged).trans
    (OnlyNodes.foldl _ (fun m shape => refineClassLowType_onlyNodes m united.1 shape) _ _)

theorem writeNodeValue_onlyNodes (node : NodeId) (value : Option (Value P)) :
    OnlyNodes m (m.writeNodeValue node value) := by
  simp only [writeNodeValue]
  split
  · exact .nodes m _
  · next value =>
    split
    · exact .nodes m _
    · have wrote : OnlyNodes m ((m.setNodeValue node (some value)).find node).2 :=
        OnlyNodes.trans (.nodes m _) (.nodes _ _)
      have spread := wrote.trans (OnlyNodes.foldl
        (fun m member => m.setNodeValue member (some value)) (fun m member => .nodes m _)
        (((m.setNodeValue node (some value)).find node).2.membersOf
          ((m.setNodeValue node (some value)).find node).1) _)
      refine spread.trans ?_
      unfold observeClassLowType
      split
      · exact .nodes _ _
      · exact refineClassLowType_onlyNodes _ _ _

end

/-- What a unification leaves alone: every table but the nodes, the failures and the bindings,
and which nodes are live. -/
structure Unified (m m' : Module P) : Prop where
  only : m' = { m with
    nodes := m'.nodes, unifyErrors := m'.unifyErrors, constructorBindings := m'.constructorBindings }
  live : ∀ node, m'.nodes.containsKey node = m.nodes.containsKey node

theorem OnlyNodes.unified {m' : Module P} (only : OnlyNodes m m') (frame : Frame m m') :
    Unified m m' := by
  refine ⟨?_, frame.live⟩
  unfold OnlyNodes at only
  rw [only]

theorem unified_rule : UnifyRule (P := P) Unified where
  refl _ := ⟨rfl, fun _ => rfl⟩
  trans _ _ _ one two :=
    ⟨by rw [two.only, one.only], fun node => (two.live node).trans (one.live node)⟩
  live _ _ step := step.live
  equates m a b _ _ := (addEquality_onlyNodes m a b).unified (addEquality_frame m a b)
  writes m node _ value _ _ := (writeNodeValue_onlyNodes m node _).unified
    (writeNodeValue_frame m node (some value))
  records _ _ := ⟨rfl, fun _ => rfl⟩
  binds _ _ := ⟨rfl, fun _ => rfl⟩

end Module

end LichenVm
