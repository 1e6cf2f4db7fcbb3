import Mathlib.Algebra.Order.Ring.Nat
import Mathlib.Data.List.Basic

/-! Repeating a narrowing until nothing changes. -/

open List Option

namespace LichenVm.Settle

variable {α ι : Type}

/-- An update that keeps the invariant, and changes nothing or lowers the weight. -/
structure Falls (inv : α → Prop) (weight : α → Nat) (update : α → α) : Prop where
  keeps : ∀ a, inv a → inv (update a)
  lowers : ∀ a, inv a → update a = a ∨ weight (update a) < weight a

variable {inv : α → Prop} {weight : α → Nat}

section

variable {update : ι → α → α} (items : List ι) (each : ∀ i ∈ items, Falls inv weight (update i))

include items each

theorem Falls.pass : Falls inv weight fun a => items.foldl (fun a i => update i a) a := by
  induction items with
  | nil => exact ⟨fun _ held => held, fun _ _ => Or.inl rfl⟩
  | cons i items ih =>
    have first := each i mem_cons_self
    have rest := ih fun j member => each j (mem_cons_of_mem _ member)
    constructor
    · intro a held
      exact rest.keeps _ (first.keeps a held)
    · intro a held
      have next := first.keeps a held
      rcases first.lowers a held with same | less
      · have := rest.lowers a held
        simpa only [foldl_cons, same] using this
      · apply Or.inr
        rcases rest.lowers _ next with same | lesser
        · show weight (items.foldl _ (update i a)) < _
          rw [same]
          exact less
        · exact Nat.lt_trans lesser less

/-- A pass that leaves its start as it was left it so at each item. -/
theorem still_of_pass {a : α} (held : inv a) (same : items.foldl (fun a i => update i a) a = a) :
    ∀ i ∈ items, update i a = a := by
  induction items with
  | nil => exact fun _ member => absurd member not_mem_nil
  | cons i items ih =>
    have first := each i mem_cons_self
    have others := fun j member => each j (mem_cons_of_mem i member)
    have unmoved : update i a = a := by
      rcases first.lowers a held with unmoved | less
      · exact unmoved
      · exfalso
        have rest := (Falls.pass items others).lowers _ (first.keeps a held)
        rw [foldl_cons] at same
        rw [same] at rest
        rcases rest with back | lesser
        · rw [← back] at less
          omega
        · omega
    intro j member
    rcases mem_cons.1 member with rfl | member
    · exact unmoved
    · apply ih others _ j member
      rw [foldl_cons, unmoved] at same
      exact same

end

/-- Step until a step changes nothing, or the fuel is out. -/
def settle [DecidableEq α] (step : α → α) : Nat → α → α
  | 0, a => a
  | fuel + 1, a => if step a = a then a else settle step fuel (step a)

theorem Falls.settled [DecidableEq α] {step : α → α} (falls : Falls inv weight step) (fuel : Nat)
    (a : α) (held : inv a) (enough : weight a < fuel) :
    inv (settle step fuel a) ∧ step (settle step fuel a) = settle step fuel a := by
  induction fuel generalizing a with
  | zero => omega
  | succ fuel ih =>
    unfold settle
    split
    · rename_i same
      exact ⟨held, same⟩
    · rename_i moved
      have less := (falls.lowers a held).resolve_left moved
      exact ih (step a) (falls.keeps a held) (by omega)

end LichenVm.Settle
