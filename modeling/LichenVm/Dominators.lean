import Mathlib.Data.List.Basic

/-! Walks from an entry, and the relations that hold along each of them. -/

open List

namespace LichenVm.Dominators

variable {V : Type} {edge : V → V → Prop} {entry : V}

/-- A walk from the entry: the vertices it left, the last one first, and where it stands. -/
inductive Walk (edge : V → V → Prop) (entry : V) : List V → V → Prop
  | start : Walk edge entry [] entry
  | step {trail : List V} {v w : V} (walked : Walk edge entry trail v) (along : edge v w) :
      Walk edge entry (v :: trail) w

/-- What a dominator table has to satisfy: the entry has itself only, and a vertex passes on to
its successors all they have but themselves. -/
structure Closed (edge : V → V → Prop) (entry : V) (dominates : V → V → Prop) : Prop where
  start : ∀ c, dominates entry c → c = entry
  step : ∀ trail v w, Walk edge entry trail v → edge v w → w ≠ entry →
    ∀ c, dominates w c → c = w ∨ dominates v c

variable {trail : List V}

theorem Closed.on_walk {dominates : V → V → Prop} (closed : Closed edge entry dominates) {v : V}
    (walked : Walk edge entry trail v) {c : V} (above : dominates v c) : c = v ∨ c ∈ trail := by
  induction walked with
  | start => exact Or.inl (closed.start c above)
  | @step trail v w walked along ih =>
    by_cases home : w = entry
    · subst home
      exact Or.inl (closed.start c above)
    · rcases closed.step trail v w walked along home c above with same | above
      · exact Or.inl same
      · apply Or.inr
        rcases ih above with rfl | member
        · exact mem_cons_self
        · exact mem_cons_of_mem v member

theorem Walk.back {v c : V} (walked : Walk edge entry trail v) (member : c ∈ trail) :
    ∃ earlier, Walk edge entry earlier c ∧ c :: earlier <:+ trail := by
  induction walked with
  | start => cases member
  | @step trail v w walked along ih =>
    rcases mem_cons.1 member with rfl | member
    · exact ⟨trail, walked, suffix_refl _⟩
    · obtain ⟨earlier, back, suffix⟩ := ih member
      exact ⟨earlier, back, suffix.trans (suffix_cons v trail)⟩

/-- Every walk to a vertex passes another one, or it is that one. -/
def Above (edge : V → V → Prop) (entry c v : V) : Prop :=
  ∀ trail, Walk edge entry trail v → c = v ∨ c ∈ trail

theorem Above.trans {d c v : V} (upper : Above edge entry d c) (above : Above edge entry c v) :
    Above edge entry d v := by
  intro trail walked
  rcases above trail walked with rfl | member
  · exact upper trail walked
  · obtain ⟨earlier, back, suffix⟩ := walked.back member
    right
    rcases upper earlier back with rfl | inside
    · exact member
    · exact suffix.subset (mem_cons_of_mem _ inside)

theorem Above.antisymm {c v : V} (above : Above edge entry c v) (below : Above edge entry v c)
    (walked : Walk edge entry trail v) : c = v := by
  induction bound : trail.length using Nat.strongRecOn generalizing trail with
  | ind length ih =>
    rcases above trail walked with same | member
    · exact same
    · obtain ⟨earlier, back, suffix⟩ := walked.back member
      rcases below earlier back with same | inside
      · exact same.symm
      · obtain ⟨earliest, again, shorter⟩ := back.back inside
        have first := suffix.length_le
        have second := shorter.length_le
        simp only [length_cons] at first second
        exact ih earliest.length (by omega) again rfl

theorem Above.backward {c v w : V} (above : Above edge entry c w) (along : edge v w)
    (apart : c ≠ w) : Above edge entry c v := by
  intro trail walked
  have passed := (above _ (.step walked along)).resolve_left apart
  exact mem_cons.1 passed

end LichenVm.Dominators
