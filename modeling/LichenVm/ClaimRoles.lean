import LichenVm.ClaimAssembly
import LichenVm.Traverse

/-! Which expression a claim's role is, and what the assembly of all claims leaves. -/

open List Function

namespace LichenVm.HighIr

open Traverse
open Ast (Text)
open OrderedForest

namespace IR

/-- The attribute expressions of an annotation. -/
def attributesOf (ir : IR) (e : ExprId) : List ExprId :=
  match ir.expr[e]? with
  | some (.annotated _ _ attributes) => ir.slice attributes
  | _ => []

/-- Every expression is written at one place, and the ranks fall inwards. -/
def IsTree (ir : IR) (rank : ExprId → Nat) : Prop :=
  Arbor (fun e => ir.childrenOf e ++ ir.attributesOf e) rank

/-- The expressions strictly inside a kernel, in source order. -/
def inside (ir : IR) (rank : ExprId → Nat) (kernel : ExprId) : List ExprId :=
  (ir.childrenOf kernel ++ ir.attributesOf kernel).flatMap
    (below (fun e => ir.childrenOf e ++ ir.attributesOf e) rank)

/-- Those reached without entering an annotation's attributes. -/
def walked (ir : IR) (rank : ExprId → Nat) (kernel : ExprId) : List ExprId :=
  (ir.childrenOf kernel).flatMap (below ir.childrenOf rank)

/-- Whether an expression carries a role as a mark. -/
def marksRole (ir : IR) (role : Text) (e : ExprId) : Bool :=
  (ir.rolesOf e).any fun marked => marked.1 = role

/-- The expressions of a body in the order its walk pops them. -/
def popped (ir : IR) (rank : ExprId → Nat) (kernel : ExprId) : List ExprId :=
  (ir.childrenOf kernel).reverse.flatMap (below (reversed ir.childrenOf) rank)

section Walk

variable {ir : IR} {rank : ExprId → Nat}

theorem walkRoles_eq (arbor : Arbor ir.childrenOf rank) (stack seen : List ExprId)
    (found : List (Text × ExprId))
    (fresh : (stack.flatMap (below (reversed ir.childrenOf) rank)).Nodup)
    (unseen : ∀ e ∈ stack.flatMap (below (reversed ir.childrenOf) rank), e ∉ seen) :
    ir.walkRoles stack seen found =
      found ++ (stack.flatMap (below (reversed ir.childrenOf) rank)).flatMap ir.rolesOf := by
  have ranked := arbor.reversed.ranked
  induction stack, seen, found using @walkRoles.induct ir with
  | case1 seen found => rw [walkRoles]; simp
  | case2 seen found e stack met ih =>
    refine absurd met (unseen e ?_)
    exact mem_append_left _ (self_mem_below ranked e)
  | case3 seen found e stack met ih =>
    have split : (e :: stack).flatMap (below (reversed ir.childrenOf) rank) =
        e :: ((ir.childrenOf e).reverse ++ stack).flatMap (below (reversed ir.childrenOf) rank) := by
      rw [flatMap_cons, below_eq ranked, flatMap_append]
      rfl
    rw [split] at fresh unseen ⊢
    obtain ⟨own, rest⟩ := nodup_cons.1 fresh
    rw [walkRoles, if_neg met, ih rest, flatMap_cons, append_assoc]
    intro e' member again
    rcases mem_cons.1 again with rfl | again
    · exact own member
    · exact unseen e' (mem_cons_of_mem _ member) again

theorem bodyRoles_eq (arbor : Arbor ir.childrenOf rank) (kernel : ExprId) :
    ir.bodyRoles kernel = (ir.popped rank kernel).flatMap ir.rolesOf := by
  have nodup := arbor.reversed.below_nodup kernel
  rw [below_eq arbor.reversed.ranked, nodup_cons] at nodup
  exact walkRoles_eq arbor (ir.childrenOf kernel).reverse [] [] nodup.2 fun e _ => not_mem_nil

theorem find_rolesOf (ir : IR) (role : Text) (e : ExprId) :
    ((ir.rolesOf e).find? fun marked => marked.1 = role) =
      if ir.marksRole role e then some (role, e) else none := by
  unfold marksRole rolesOf
  induction (ir.marksOf e).filter fun payload => !isClaim payload with
  | nil => rfl
  | cons payload rest ih =>
    by_cases same : payload = role
    · simp [same]
    · simp only [map_cons, any_cons]
      rw [List.find?_cons_of_neg (by simpa using same), ih]
      simp [same]

theorem find_flatMap_rolesOf (ir : IR) (role : Text) (list : List ExprId) :
    ((list.flatMap ir.rolesOf).find? fun marked => marked.1 = role) =
      (list.find? (ir.marksRole role)).map (role, ·) := by
  induction list with
  | nil => rfl
  | cons e list ih =>
    rw [flatMap_cons, List.find?_append, find_rolesOf, ih]
    by_cases marks : ir.marksRole role e
    · rw [if_pos marks, List.find?_cons_of_pos marks]
      rfl
    · rw [if_neg marks, List.find?_cons_of_neg marks]
      rfl

end Walk

theorem projectRole_ok {marked : List (Text × ExprId)} {interface role : Text}
    {projection : Projection} :
    projectRole marked interface role = .ok projection ↔ projection.role = role ∧ ∃ found,
        marked.find? (fun entry => entry.1 = role) = some found ∧ found.2 = projection.expr := by
  unfold projectRole
  cases marked.find? fun entry => entry.1 = role with
  | none =>
    refine iff_of_false (fun made => by cases made) ?_
    rintro ⟨-, found, held, -⟩
    cases held
  | some found =>
    constructor
    · intro made
      cases made
      exact ⟨rfl, found, rfl, rfl⟩
    · rintro ⟨named, other, held, expr⟩
      cases held
      cases projection
      cases named
      cases expr
      rfl

/-- The roles of a claim resolve one by one. -/
theorem mapM_projectRole_ok {marked : List (Text × ExprId)} {interface : Text}
    {roles : List Text} {projections : List Projection} :
    roles.mapM (projectRole marked interface) = .ok projections ↔
      projections.map Projection.role = roles ∧ ∀ projection ∈ projections,
        ∃ found, marked.find? (fun entry => entry.1 = projection.role) = some found ∧
          found.2 = projection.expr := by
  induction roles generalizing projections with
  | nil =>
    constructor
    · intro made
      cases made
      exact ⟨rfl, fun _ inside => absurd inside not_mem_nil⟩
    · rintro ⟨none, -⟩
      rw [map_eq_nil_iff.1 none]
      rfl
  | cons role roles ih =>
    rw [mapM_cons, bind_ok]
    constructor
    · rintro ⟨projection, own, rest⟩
      obtain ⟨others, below, same⟩ := bind_ok.1 rest
      cases same
      obtain ⟨named, found⟩ := projectRole_ok.1 own
      obtain ⟨names, founds⟩ := ih.1 below
      rw [← named] at found
      exact ⟨by rw [map_cons, named, names], forall_mem_cons.2 ⟨found, founds⟩⟩
    · rintro ⟨names, founds⟩
      cases projections with
      | nil => cases names
      | cons projection others =>
        rw [map_cons, List.cons.injEq] at names
        obtain ⟨found, founds⟩ := forall_mem_cons.1 founds
        rw [names.1] at found
        exact ⟨projection, projectRole_ok.2 ⟨names.1, found⟩,
          bind_ok.2 ⟨others, ih.2 ⟨names.2, founds⟩, rfl⟩⟩

section Assemble

variable {ir : IR} {rank : ExprId → Nat}

theorem assembleOne_ok (arbor : Arbor ir.childrenOf rank) {kernel : ExprId} {text : Text}
    {assembled : InterfaceInstance} :
    ir.assembleOne kernel text = .ok assembled ↔
      assembled.text = text ∧ KernelClaim.parse text = .ok assembled.claim ∧
        assembled.projections.map Projection.role = assembled.claim.roles ∧
          ∀ projection ∈ assembled.projections,
            (ir.popped rank kernel).find? (ir.marksRole projection.role) =
              some projection.expr := by
  have resolved (projection : Projection) :
      (∃ found, (ir.bodyRoles kernel).find? (fun entry => entry.1 = projection.role) = some found ∧
          found.2 = projection.expr) ↔
        (ir.popped rank kernel).find? (ir.marksRole projection.role) = some projection.expr := by
    rw [bodyRoles_eq arbor, find_flatMap_rolesOf]
    cases (ir.popped rank kernel).find? (ir.marksRole projection.role) <;> simp
  unfold assembleOne
  rw [bind_ok]
  constructor
  · rintro ⟨claim, parsed, rest⟩
    obtain ⟨projections, made, same⟩ := bind_ok.1 rest
    cases same
    obtain ⟨names, founds⟩ := mapM_projectRole_ok.1 made
    exact ⟨rfl, parsed, names, fun projection inside =>
      (resolved projection).1 (founds projection inside)⟩
  · rintro ⟨same, parsed, names, founds⟩
    refine ⟨assembled.claim, parsed, bind_ok.2 ⟨assembled.projections, ?_, ?_⟩⟩
    · exact mapM_projectRole_ok.2 ⟨names, fun projection inside =>
        (resolved projection).2 (founds projection inside)⟩
    · rw [← same]
      rfl

/-- A claim is assembled when the walk of the body pops every role it requires. -/
theorem assembleOne_isOk (arbor : Arbor ir.childrenOf rank) {kernel : ExprId} {text : Text}
    {claim : KernelClaim} (parsed : KernelClaim.parse text = .ok claim) :
    (∃ assembled, ir.assembleOne kernel text = .ok assembled) ↔
      ∀ role ∈ claim.roles, ∃ e ∈ ir.popped rank kernel, ir.marksRole role e := by
  constructor
  · rintro ⟨assembled, made⟩ role required
    obtain ⟨-, parsed', names, founds⟩ := (assembleOne_ok arbor).1 made
    rw [parsed] at parsed'
    cases parsed'
    rw [← names] at required
    obtain ⟨projection, member, rfl⟩ := mem_map.1 required
    have found := founds projection member
    exact ⟨projection.expr, mem_of_find?_eq_some found, List.find?_some found⟩
  · intro provided
    have each (role : Text) (required : role ∈ claim.roles) :
        ((ir.popped rank kernel).find? (ir.marksRole role)).isSome := by
      rw [List.find?_isSome]
      exact provided role required
    refine ⟨⟨text, claim, claim.roles.map fun role =>
      ⟨role, ((ir.popped rank kernel).find? (ir.marksRole role)).getD 0⟩⟩, ?_⟩
    refine (assembleOne_ok arbor).2 ⟨rfl, parsed, ?_, fun projection member => ?_⟩
    · rw [map_map]
      exact map_id _
    · obtain ⟨role, required, rfl⟩ := mem_map.1 member
      obtain ⟨e, found⟩ := Option.isSome_iff_exists.1 (each role required)
      rw [found]
      rfl

end Assemble

/-- A claim spells its roles, and each of them is marked strictly inside the body. -/
def Provided (ir : IR) (rank : ExprId → Nat) (kernel : ExprId) (text : Text) : Prop :=
  ∃ claim, KernelClaim.parse text = .ok claim ∧
    ∀ role ∈ claim.roles, ∃ e ∈ ir.inside rank kernel, ir.marksRole role e = true

/-- A claim that reads is assembled just when its roles are provided, each projection being the
first expression of its role in source order. -/
def FindsRoles (ir : IR) (rank : ExprId → Nat) : Prop :=
  ∀ kernel text, text ∈ ir.claimsOf kernel →
    ((∃ assembled, ir.assembleOne kernel text = .ok assembled) ↔ ir.Provided rank kernel text) ∧
    ∀ assembled, ir.assembleOne kernel text = .ok assembled →
      assembled.projections.map Projection.role = assembled.claim.roles ∧
        ∀ projection ∈ assembled.projections,
          (ir.inside rank kernel).find? (ir.marksRole projection.role) = some projection.expr

/-- The first expression of a required role is outside the attributes of annotations and over every
other one of the role that is. -/
def RolesLead (ir : IR) (rank : ExprId → Nat) : Prop :=
  ∀ kernel text, text ∈ ir.claimsOf kernel → ir.Provided rank kernel text →
    ∀ claim, KernelClaim.parse text = .ok claim → ∀ role ∈ claim.roles, ∀ first,
      (ir.inside rank kernel).find? (ir.marksRole role) = some first →
        Leads (below ir.childrenOf rank) (ir.marksRole role) (ir.walked rank kernel) first

section Finds

variable {ir : IR} {rank : ExprId → Nat}

theorem inside_of_popped (tree : ir.IsTree rank) {kernel e : ExprId}
    (member : e ∈ ir.popped rank kernel) : e ∈ ir.inside rank kernel := by
  obtain ⟨kid, inside, under⟩ := mem_flatMap.1 member
  rw [mem_below_reversed tree.fewer.ranked] at under
  exact mem_flatMap.2 ⟨kid, mem_append_left _ (mem_reverse.1 inside), mem_below_more tree under⟩

theorem popped_find_iff (tree : ir.IsTree rank) {kernel first : ExprId} {role : Text}
    (found : (ir.inside rank kernel).find? (ir.marksRole role) = some first) :
    (ir.popped rank kernel).find? (ir.marksRole role) = some first ↔
      Leads (below ir.childrenOf rank) (ir.marksRole role) (ir.walked rank kernel) first :=
  find_reversed_iff tree (ir.marksRole role) kernel found

theorem first_of_marked {role : Text} {kernel : ExprId}
    (marked : ∃ e ∈ ir.inside rank kernel, ir.marksRole role e) :
    ∃ first, (ir.inside rank kernel).find? (ir.marksRole role) = some first := by
  rw [← List.find?_isSome] at marked
  exact Option.isSome_iff_exists.1 marked

theorem provided_of_assembled (tree : ir.IsTree rank) {kernel : ExprId} {text : Text}
    (made : ∃ assembled, ir.assembleOne kernel text = .ok assembled) :
    ir.Provided rank kernel text := by
  obtain ⟨assembled, made'⟩ := made
  have parsed := ((assembleOne_ok tree.fewer).1 made').2.1
  refine ⟨assembled.claim, parsed, fun role required => ?_⟩
  obtain ⟨e, member, marks⟩ :=
    (assembleOne_isOk tree.fewer parsed).1 ⟨assembled, made'⟩ role required
  exact ⟨e, inside_of_popped tree member, marks⟩

theorem findsRoles_iff (tree : ir.IsTree rank) : ir.FindsRoles rank ↔ ir.RolesLead rank := by
  constructor
  · intro finds kernel text carried provided claim parsed role required first found
    obtain ⟨made, projects⟩ := finds kernel text carried
    obtain ⟨assembled, made'⟩ := made.2 provided
    obtain ⟨-, parsed', names, founds⟩ := (assembleOne_ok tree.fewer).1 made'
    rw [parsed] at parsed'
    cases parsed'
    rw [← names] at required
    obtain ⟨projection, member, rfl⟩ := mem_map.1 required
    have source := (projects assembled made').2 projection member
    rw [found] at source
    have popped := founds projection member
    rw [← source] at popped
    exact (popped_find_iff tree found).1 popped
  · intro leads kernel text carried
    have pops (provided : ir.Provided rank kernel text) {claim : KernelClaim}
        (parsed : KernelClaim.parse text = .ok claim) {role : Text} (required : role ∈ claim.roles) :
        ∃ first, (ir.inside rank kernel).find? (ir.marksRole role) = some first ∧
          (ir.popped rank kernel).find? (ir.marksRole role) = some first := by
      obtain ⟨claim', parsed', marked⟩ := provided
      rw [parsed] at parsed'
      cases parsed'
      obtain ⟨first, found⟩ := first_of_marked (marked role required)
      exact ⟨first, found, (popped_find_iff tree found).2
        (leads kernel text carried ⟨claim, parsed, marked⟩ claim parsed role required first found)⟩
    refine ⟨⟨provided_of_assembled tree, fun provided => ?_⟩, fun assembled made => ?_⟩
    · obtain ⟨claim, parsed, -⟩ := id provided
      refine (assembleOne_isOk tree.fewer parsed).2 fun role required => ?_
      obtain ⟨first, -, popped⟩ := pops provided parsed required
      exact ⟨first, mem_of_find?_eq_some popped, List.find?_some popped⟩
    · obtain ⟨-, parsed, names, founds⟩ := (assembleOne_ok tree.fewer).1 made
      have provided := provided_of_assembled tree ⟨assembled, made⟩
      refine ⟨names, fun projection member => ?_⟩
      have required : projection.role ∈ assembled.claim.roles := names ▸ mem_map_of_mem member
      obtain ⟨first, found, popped⟩ := pops provided parsed required
      rw [founds projection member] at popped
      rw [found, popped]

end Finds

/-- An order of the marks table: every marked expression once. -/
def Iterates (ir : IR) (order : List ExprId) : Prop :=
  order.Nodup ∧ ∀ e, e ∈ order ↔ ir.marksOf e ≠ []

/-- What is assembled does not depend on the order the marks table is taken in. -/
def OrderFree (ir : IR) : Prop :=
  ∀ order order', ir.Iterates order → ir.Iterates order' →
    ir.assembleInterfaces order = ir.assembleInterfaces order'

/-- Every assembled claim stands for its expression. -/
def KeepsClaims (ir : IR) : Prop :=
  ∀ order, ir.Iterates order → ∀ e text assembled, text ∈ ir.claimsOf e →
    ir.assembleOne e text = .ok assembled → (ir.assembleInterfaces order).claims e = some assembled

/-- The instances of an expression's claims, in source order. -/
def instancesOf (ir : IR) (e : ExprId) : List InterfaceInstance :=
  (ir.claimsOf e).filterMap fun text => (ir.assembleOne e text).toOption

def refusalOf (ir : IR) (e : ExprId) (text : Text) : Option (ExprId × ClaimRefusal) :=
  match ir.assembleOne e text with
  | .ok _ => none
  | .error refusal => some (e, refusal)

/-- The refusals of an expression's claims, in source order. -/
def refusalsOf (ir : IR) (e : ExprId) : List (ExprId × ClaimRefusal) :=
  (ir.claimsOf e).filterMap (ir.refusalOf e)

section Order

variable {ir : IR}

theorem flatMap_filter_eq {α β : Type} {f : α → List β} {p : α → Bool} {items : List α}
    (empty : ∀ item, ¬ p item → f item = []) :
    (items.filter p).flatMap f = items.flatMap f := by
  induction items with
  | nil => rfl
  | cons item items ih =>
    by_cases kept : p item
    · rw [filter_cons_of_pos kept, flatMap_cons, flatMap_cons, ih]
    · rw [filter_cons_of_neg kept, flatMap_cons, empty item kept, ih]
      rfl

theorem foldl_assembleText (e : ExprId) (texts : List Text) (assembly : Assembly) :
    texts.foldl (ir.assembleText e) assembly =
      { claims := update assembly.claims e
          (((texts.filterMap fun text => (ir.assembleOne e text).toOption).getLast?).or
            (assembly.claims e))
        refusals := assembly.refusals ++ texts.filterMap (ir.refusalOf e) } := by
  induction texts generalizing assembly with
  | nil =>
    rw [filterMap_nil, List.getLast?_nil, Option.none_or, update_eq_self]
    exact congrArg (Assembly.mk assembly.claims) (append_nil _).symm
  | cons text texts ih =>
    rw [foldl_cons, ih]
    cases made : ir.assembleOne e text with
    | ok assembled =>
      have instances : ((text :: texts).filterMap fun text => (ir.assembleOne e text).toOption) =
          assembled :: texts.filterMap fun text => (ir.assembleOne e text).toOption := by
        rw [filterMap_cons, made]
        rfl
      have refused : (text :: texts).filterMap (ir.refusalOf e) =
          texts.filterMap (ir.refusalOf e) := by
        rw [filterMap_cons_none]
        rw [refusalOf, made]
      rw [instances, refused, assembleText, made, List.getLast?_cons]
      simp only [update_idem, update_self]
      refine congrArg (fun claims => Assembly.mk claims _) (congrArg _ ?_)
      cases (texts.filterMap fun text => (ir.assembleOne e text).toOption).getLast? <;> rfl
    | error refusal =>
      have instances : ((text :: texts).filterMap fun text => (ir.assembleOne e text).toOption) =
          texts.filterMap fun text => (ir.assembleOne e text).toOption := by
        rw [filterMap_cons, made]
        rfl
      have refused : (text :: texts).filterMap (ir.refusalOf e) =
          (e, refusal) :: texts.filterMap (ir.refusalOf e) := by
        rw [filterMap_cons_some]
        rw [refusalOf, made]
      rw [instances, refused, assembleText, made]
      exact congrArg (Assembly.mk _) (append_assoc ..)

theorem foldl_assemble (order : List ExprId) (assembly : Assembly) :
    order.foldl (fun assembly e => (ir.claimsOf e).foldl (ir.assembleText e) assembly) assembly =
      { claims := fun e =>
          if e ∈ order then ((ir.instancesOf e).getLast?).or (assembly.claims e)
          else assembly.claims e
        refusals := assembly.refusals ++ order.flatMap ir.refusalsOf } := by
  induction order generalizing assembly with
  | nil => exact congrArg (Assembly.mk assembly.claims) (append_nil _).symm
  | cons e order ih =>
    rw [foldl_cons, foldl_assembleText, ih]
    simp only [flatMap_cons, append_assoc]
    refine congrArg (fun claims => Assembly.mk claims _) (funext fun e' => ?_)
    by_cases same : e' = e
    · subst same
      simp only [update_self, mem_cons, true_or, if_true, instancesOf]
      split
      · cases ((ir.claimsOf e').filterMap fun text =>
          (ir.assembleOne e' text).toOption).getLast? <;> rfl
      · rfl
    · simp only [update_of_ne same, mem_cons, same, false_or]

/-- An assembly leaves the last instance of each expression and every refusal, in the order of the
table. -/
theorem assembleInterfaces_eq {order : List ExprId} (iterates : ir.Iterates order) :
    ir.assembleInterfaces order =
      { claims := fun e => (ir.instancesOf e).getLast?
        refusals := order.flatMap ir.refusalsOf } := by
  have unclaimed {e : ExprId} (plain : ¬ (ir.marksOf e).any isClaim) :
      ir.claimsOf e = [] := by
    rw [claimsOf, filter_eq_nil_iff]
    exact fun payload inside claim => plain (any_eq_true.2 ⟨payload, inside, claim⟩)
  rw [assembleInterfaces, foldl_assemble, nil_append]
  have refusals : (order.filter fun e => (ir.marksOf e).any isClaim).flatMap ir.refusalsOf =
      order.flatMap ir.refusalsOf := by
    refine flatMap_filter_eq fun e plain => ?_
    rw [refusalsOf, unclaimed plain]
    rfl
  rw [refusals]
  refine congrArg (fun claims => Assembly.mk claims _) (funext fun e => ?_)
  split
  · exact Option.or_none
  · next outside =>
    have none : ir.claimsOf e = [] := by
      refine unclaimed fun claim => outside (mem_filter.2 ⟨(iterates.2 e).2 ?_, claim⟩)
      intro empty
      rw [empty] at claim
      cases claim
    rw [instancesOf, none]
    rfl

def someOrder (ir : IR) : List ExprId := (ir.marks.map Prod.fst).dedup

theorem someOrder_iterates (ir : IR) : ir.Iterates ir.someOrder := by
  refine ⟨nodup_dedup _, fun e => ?_⟩
  rw [someOrder, mem_dedup, marksOf, Ne, map_eq_nil_iff, filter_eq_nil_iff]
  simp

theorem refusalsOf_ne_nil {e : ExprId} : ir.refusalsOf e ≠ [] ↔
      ∃ text ∈ ir.claimsOf e, ¬ ∃ assembled, ir.assembleOne e text = .ok assembled := by
  have refused (text : Text) : ir.refusalOf e text ≠ none ↔
      ¬ ∃ assembled, ir.assembleOne e text = .ok assembled := by
    unfold refusalOf
    cases ir.assembleOne e text with
    | ok assembled => simp
    | error refusal => simp
  rw [refusalsOf, Ne, filterMap_eq_nil_iff, not_forall]
  simp only [not_forall, ← refused, exists_prop, ne_eq]

theorem fst_of_mem_refusalsOf {e : ExprId} {entry : ExprId × ClaimRefusal}
    (inside : entry ∈ ir.refusalsOf e) : entry.1 = e := by
  obtain ⟨text, -, made⟩ := mem_filterMap.1 inside
  unfold refusalOf at made
  split at made
  · cases made
  · cases made
    rfl

theorem eq_of_perm_of_same {α : Type} {left right : List α} (perm : left.Perm right)
    (distinct : left.Nodup) (same : ∀ a ∈ left, ∀ b ∈ left, a = b) : left = right := by
  cases left with
  | nil => exact perm.nil_eq
  | cons a rest =>
    cases rest with
    | nil => exact singleton_perm.1 perm
    | cons b rest =>
      have twice := same a (by simp) b (by simp)
      rw [nodup_cons, twice] at distinct
      exact absurd mem_cons_self distinct.1

theorem flatMap_eq_of_one {α β : Type} {f : α → List β} {items items' : List α}
    (perm : items.Perm items') (distinct : items.Nodup)
    (one : ∀ a ∈ items, ∀ b ∈ items, f a ≠ [] → f b ≠ [] → a = b) :
    items.flatMap f = items'.flatMap f := by
  have empty (item : α) (plain : ¬ (!(f item).isEmpty)) : f item = [] := by
    simpa using plain
  have same : (items.filter fun item => !(f item).isEmpty) =
      items'.filter fun item => !(f item).isEmpty := by
    refine eq_of_perm_of_same (perm.filter _) (distinct.filter _) fun a inside b inside' => ?_
    obtain ⟨member, full⟩ := mem_filter.1 inside
    obtain ⟨member', full'⟩ := mem_filter.1 inside'
    exact one a member b member' (by simpa using full) (by simpa using full')
  calc items.flatMap f = (items.filter fun item => !(f item).isEmpty).flatMap f :=
        (flatMap_filter_eq empty).symm
    _ = (items'.filter fun item => !(f item).isEmpty).flatMap f := by rw [same]
    _ = items'.flatMap f := flatMap_filter_eq empty

theorem iterates_cons {e e' : ExprId} (apart : e ≠ e') (marked : ir.marksOf e ≠ [])
    (marked' : ir.marksOf e' ≠ []) :
    ir.Iterates (e :: e' :: (ir.someOrder.erase e).erase e') := by
  obtain ⟨distinct, all⟩ := ir.someOrder_iterates
  have here : e' ∈ ir.someOrder.erase e := (distinct.mem_erase_iff).2 ⟨apart.symm, (all e').2 marked'⟩
  have perm : (e :: e' :: (ir.someOrder.erase e).erase e').Perm ir.someOrder :=
    ((perm_cons_erase here).symm.cons e).trans (perm_cons_erase ((all e).2 marked)).symm
  exact ⟨perm.nodup_iff.2 distinct, fun e => perm.mem_iff.trans (all e)⟩

/-- The refusals come in the table's order, so the order shows just when two expressions have some. -/
theorem orderFree_iff :
    ir.OrderFree ↔ ∀ e e', ir.refusalsOf e ≠ [] → ir.refusalsOf e' ≠ [] → e = e' := by
  constructor
  · intro free e e' refused refused'
    by_contra apart
    have marked {e : ExprId} (refused : ir.refusalsOf e ≠ []) : ir.marksOf e ≠ [] := by
      intro none
      rw [refusalsOf, claimsOf, none] at refused
      exact refused rfl
    have one := iterates_cons apart (marked refused) (marked refused')
    have two := iterates_cons (Ne.symm apart) (marked refused') (marked refused)
    have same := congrArg Assembly.refusals (free _ _ one two)
    rw [assembleInterfaces_eq one, assembleInterfaces_eq two] at same
    simp only [flatMap_cons] at same
    obtain ⟨first, rest, head⟩ := exists_cons_of_ne_nil refused
    obtain ⟨first', rest', head'⟩ := exists_cons_of_ne_nil refused'
    have own := fst_of_mem_refusalsOf (head ▸ mem_cons_self : first ∈ ir.refusalsOf e)
    have own' := fst_of_mem_refusalsOf (head' ▸ mem_cons_self : first' ∈ ir.refusalsOf e')
    rw [head, head'] at same
    have firsts : first = first' := (List.cons.inj same).1
    exact apart (own.symm.trans ((congrArg Prod.fst firsts).trans own'))
  · intro one order order' iterates iterates'
    rw [assembleInterfaces_eq iterates, assembleInterfaces_eq iterates']
    refine congrArg (Assembly.mk _) (flatMap_eq_of_one ?_ iterates.1 fun e _ e' _ => one e e')
    exact (perm_ext_iff_of_nodup iterates.1 iterates'.1).2 fun e =>
      (iterates.2 e).trans (iterates'.2 e).symm

theorem text_of_assembleOne {e : ExprId} {text : Text} {assembled : InterfaceInstance}
    (made : ir.assembleOne e text = .ok assembled) : assembled.text = text := by
  obtain ⟨claim, -, rest⟩ := bind_ok.1 made
  obtain ⟨projections, -, same⟩ := bind_ok.1 rest
  cases same
  rfl

/-- An instance stands just when no other claim of its expression is assembled after it. -/
theorem keepsClaims_iff :
    ir.KeepsClaims ↔ ∀ e text text', text ∈ ir.claimsOf e → text' ∈ ir.claimsOf e →
      (∃ assembled, ir.assembleOne e text = .ok assembled) →
      (∃ assembled, ir.assembleOne e text' = .ok assembled) → text = text' := by
  constructor
  · rintro keeps e text text' carried carried' ⟨assembled, made⟩ ⟨assembled', made'⟩
    have one := keeps _ ir.someOrder_iterates e text assembled carried made
    have two := keeps _ ir.someOrder_iterates e text' assembled' carried' made'
    rw [one] at two
    rw [← text_of_assembleOne made, ← text_of_assembleOne made', Option.some.inj two]
  · intro single order iterates e text assembled carried made
    rw [assembleInterfaces_eq iterates]
    show (ir.instancesOf e).getLast? = some assembled
    have member : assembled ∈ ir.instancesOf e :=
      mem_filterMap.2 ⟨text, carried, by rw [made]; rfl⟩
    cases last : (ir.instancesOf e).getLast? with
    | none =>
      rw [List.getLast?_eq_none_iff] at last
      rw [last] at member
      cases member
    | some other =>
      obtain ⟨text', carried', made'⟩ := mem_filterMap.1 (mem_of_getLast? last)
      cases run : ir.assembleOne e text' with
      | error refusal => rw [run] at made'; cases made'
      | ok other' =>
        rw [run] at made'
        cases made'
        have same := single e text text' carried carried' ⟨assembled, made⟩ ⟨other, run⟩
        rw [← same, made] at run
        rw [Except.ok.inj run]

end Order

/-- One expression at most carries a claim that is refused. -/
def OneRefused (ir : IR) (rank : ExprId → Nat) : Prop :=
  ∀ e e' text text', text ∈ ir.claimsOf e → text' ∈ ir.claimsOf e' →
    ¬ ir.Provided rank e text → ¬ ir.Provided rank e' text' → e = e'

/-- No expression carries two claims its body provides the roles of. -/
def OneProvided (ir : IR) (rank : ExprId → Nat) : Prop :=
  ∀ e text text', text ∈ ir.claimsOf e → text' ∈ ir.claimsOf e →
    ir.Provided rank e text → ir.Provided rank e text' → text = text'

/-- The assembly finds every role in source order, whatever the table's order, and keeps each claim,
just when every first expression of a role leads the others, one expression at most is refused and
no expression carries two claims that hold. -/
theorem assembly_iff {ir : IR} {rank : ExprId → Nat} (tree : ir.IsTree rank) :
    ir.FindsRoles rank ∧ ir.OrderFree ∧ ir.KeepsClaims ↔
      ir.RolesLead rank ∧ ir.OneRefused rank ∧ ir.OneProvided rank := by
  rw [findsRoles_iff tree]
  refine and_congr_right fun leads => ?_
  have made {e : ExprId} {text : Text} (carried : text ∈ ir.claimsOf e) :
      (∃ assembled, ir.assembleOne e text = .ok assembled) ↔ ir.Provided rank e text :=
    ((findsRoles_iff tree).2 leads e text carried).1
  refine and_congr ?_ ?_
  · rw [orderFree_iff]
    simp only [refusalsOf_ne_nil]
    constructor
    · intro one e e' text text' carried carried' refused refused'
      exact one e e' ⟨text, carried, mt (made carried).1 refused⟩
        ⟨text', carried', mt (made carried').1 refused'⟩
    · rintro one e e' ⟨text, carried, refused⟩ ⟨text', carried', refused'⟩
      exact one e e' text text' carried carried' (mt (made carried).2 refused)
        (mt (made carried').2 refused')
  · rw [keepsClaims_iff]
    constructor
    · intro single e text text' carried carried' provided provided'
      exact single e text text' carried carried' ((made carried).2 provided)
        ((made carried').2 provided')
    · intro single e text text' carried carried' provided provided'
      exact single e text text' carried carried' ((made carried).1 provided)
        ((made carried').1 provided')

end IR

/-- A kernel over two expressions of one role. -/
def twiceMarked : IR :=
  { IR.empty with
    expr := [.tuple ⟨0, 2⟩, .literal (.int 1), .literal (.int 2)]
    children := [1, 2]
    marks := [(0, CLAIM_PREFIX ++ [82, 40, 102, 41]), (1, [102]), (2, [102])] }

/-- The depth of each expression of the kernel. -/
def twiceMarkedRank (e : ExprId) : Nat := if e = 0 then 1 else 0

theorem twiceMarked_childless {e : ExprId} (other : e ≠ 0) :
    twiceMarked.childrenOf e ++ twiceMarked.attributesOf e = [] := by
  rcases e with _ | _ | _ | e
  · exact absurd rfl other
  · rfl
  · rfl
  · rfl

theorem twiceMarked_isTree : twiceMarked.IsTree twiceMarkedRank where
  ranked v w kid := by
    by_cases root : v = 0
    · subst root
      have member : w ∈ [1, 2] := kid
      rcases mem_pair.1 member with rfl | rfl <;> decide
    · have none : w ∈ ([] : List ExprId) := twiceMarked_childless root ▸ kid
      cases none
  distinct v := by
    by_cases root : v = 0
    · subst root
      decide
    · exact (twiceMarked_childless root) ▸ nodup_nil
  single u v w up up' := by
    have parent {v : ExprId} (up : w ∈ twiceMarked.childrenOf v ++ twiceMarked.attributesOf v) :
        v = 0 := by
      by_contra other
      rw [twiceMarked_childless other] at up
      cases up
    rw [parent up, parent up']

theorem twiceMarked_assembly :
    twiceMarked.FindsRoles twiceMarkedRank ∧ twiceMarked.OrderFree ∧ twiceMarked.KeepsClaims ↔
      twiceMarked.RolesLead twiceMarkedRank ∧ twiceMarked.OneRefused twiceMarkedRank ∧
        twiceMarked.OneProvided twiceMarkedRank :=
  IR.assembly_iff twiceMarked_isTree

/-- The last of two expressions of one role becomes the projection. -/
theorem twiceMarked_fails : twiceMarked.IsTree twiceMarkedRank ∧
      ¬ (twiceMarked.FindsRoles twiceMarkedRank ∧ twiceMarked.OrderFree ∧
        twiceMarked.KeepsClaims) := by
  refine ⟨twiceMarked_isTree, fun all => ?_⟩
  have leads := (IR.findsRoles_iff twiceMarked_isTree).1 all.1
  have parsed : KernelClaim.parse (CLAIM_PREFIX ++ [82, 40, 102, 41]) = .ok ⟨[82], [[102]]⟩ := by
    rfl
  have first : (twiceMarked.inside twiceMarkedRank 0).find? (twiceMarked.marksRole [102]) = some 1 := by
    decide +kernel
  have provided : twiceMarked.Provided twiceMarkedRank 0 (CLAIM_PREFIX ++ [82, 40, 102, 41]) := by
    refine ⟨_, parsed, fun role required => ?_⟩
    rw [mem_singleton.1 required]
    exact ⟨1, mem_of_find?_eq_some first, List.find?_some first⟩
  have led := leads 0 _ (by decide +kernel) provided _ parsed [102] (mem_singleton_self _) 1 first
  have below := led.2 2 (by decide +kernel) (by decide +kernel)
  exact absurd below (by decide +kernel)

end LichenVm.HighIr
