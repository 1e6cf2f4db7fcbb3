import LichenVm.BodyGate

open List Option

namespace LichenVm.KernelIr

open Traverse

namespace KernelBody

theorem ensure_ok {held : Bool} {cause : BodyRefusal} :
    ensure held cause = .ok () ↔ held := by
  unfold ensure
  split
  · rename_i held
    simp [held]
  · rename_i failed
    simp only [reject, failed]
    exact ⟨fun same => (by cases same), fun same => (by cases same)⟩

/-- What the gate establishes of a listed instruction. -/
structure Placed (body : KernelBody) (value : ValueId) (op : KernelInstr) (args : List ValueId)
    (classes : List ScalarClass) : Prop where
  found : body.values[value]? = some (.instr op args classes)
  results : classes.length = op.produces
  operands : ∀ count, op.arity = some count → args.length = count
  defined : ∀ arg ∈ args, arg < body.values.length
  /-- An operand that is an instruction is listed. -/
  scope : ∀ arg ∈ args, ∀ op args classes, body.values[arg]? = some (.instr op args classes) →
    arg ∈ body.listed

variable {body : KernelBody}

theorem foldl_none {α β : Type} {step : Option β → α → Option β} (items : List α)
    (stays : ∀ item ∈ items, step none item = none) : items.foldl step none = none := by
  induction items with
  | nil => rfl
  | cons item items ih =>
    rw [foldl_cons, stays item mem_cons_self]
    exact ih fun other member => stays other (mem_cons_of_mem _ member)

variable {value : ValueId}

theorem mem_of_definitionSite {site : Nat × Nat} (found : body.definitionSite value = some site) :
    value ∈ body.listed := by
  by_contra outside
  have none : body.definitionSite value = none := by
    apply foldl_none
    intro pair member
    apply foldl_none
    intro instr inside
    apply if_neg
    rintro same
    apply outside
    rw [← same]
    exact mem_flatMap.2 ⟨pair.1, fst_mem_of_mem_zipIdx member, fst_mem_of_mem_zipIdx inside⟩
  rw [none] at found
  cases found

theorem listed_of_inScope {dominance : Dominance} {block position : Nat}
    (inside : body.outOfScope dominance block position value = none) {op : KernelInstr}
    {args : List ValueId} {classes : List ScalarClass}
    (found : body.values[value]? = some (.instr op args classes)) : value ∈ body.listed := by
  unfold outOfScope at inside
  rw [found] at inside
  dsimp only at inside
  split at inside
  · cases inside
  · rename_i definedIn definedAt site
    exact mem_of_definitionSite site

theorem mem_zipIdx_of_getElem? {α : Type} {items : List α} {index : Nat} {item : α}
    (found : items[index]? = some item) : (item, index) ∈ items.zipIdx :=
  mem_zipIdx_iff_getElem?.2 found

/-- Every instruction of a body the gate passes is placed. -/
theorem placed_of_validate (passed : body.validate = .ok ()) (listed : value ∈ body.listed) :
    ∃ op args classes, body.Placed value op args classes := by
  obtain ⟨_, -, passed⟩ := bind_ok.1 passed
  obtain ⟨_, -, passed⟩ := bind_ok.1 passed
  obtain ⟨_, blocks, passed⟩ := bind_ok.1 passed
  obtain ⟨_, -, passed⟩ := bind_ok.1 passed
  obtain ⟨_, uses, -⟩ := bind_ok.1 passed
  obtain ⟨block, member, listed⟩ := mem_flatMap.1 listed
  obtain ⟨index, found⟩ := mem_iff_getElem?.1 member
  obtain ⟨_, -, instrs⟩ := bind_ok.1 (forM_ok blocks _ (mem_zipIdx_of_getElem? found))
  have own := forM_ok instrs value listed
  obtain ⟨_, scopes, -⟩ := bind_ok.1 (forM_ok uses _ (mem_zipIdx_of_getElem? found))
  obtain ⟨position, place⟩ := mem_iff_getElem?.1 listed
  have use := forM_ok scopes _ (mem_zipIdx_of_getElem? place)
  unfold checkInstr at own
  split at own
  · cases own
  · cases own
  · rename_i op args classes definition
    obtain ⟨_, results, own⟩ := bind_ok.1 own
    obtain ⟨_, operands, defined⟩ := bind_ok.1 own
    rw [ensure_ok] at results operands
    dsimp only at use
    rw [definition] at use
    refine ⟨op, args, classes, definition, (by simpa using results : op.produces = _).symm, ?_, ?_, ?_⟩
    · intro count fixed
      rw [fixed] at operands
      exact (by simpa using operands : count = args.length).symm
    · intro arg inside
      have := ensure_ok.1 (forM_ok defined arg inside)
      simpa [defines] using this
    · intro arg inside op' args' classes' found'
      have checked := forM_ok use arg inside
      unfold checkScope at checked
      split at checked
      · rename_i none
        exact listed_of_inScope none found'
      · cases checked

end KernelBody

end LichenVm.KernelIr
