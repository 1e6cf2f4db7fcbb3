import Mathlib.Algebra.Order.Ring.Nat
import Mathlib.Data.List.Basic
import Mathlib.Logic.Relation

/-! Recursions cut off by fuel: more fuel answers the same, and what bounds the fuel they need. -/

open List Option

namespace LichenVm.FuelBounds

section Sooner

variable {α β : Type}

/-- Where the first run answers, the second answers the same. -/
def Sooner (run run' : Option α) : Prop :=
  ∀ result, run = some result → run' = some result

theorem Sooner.refl (run : Option α) : Sooner run run :=
  fun _ answered => answered

variable {run run' : Option α}

theorem Sooner.trans {run'' : Option α} (first : Sooner run run')
    (second : Sooner run' run'') : Sooner run run'' :=
  fun result answered => second result (first result answered)

theorem Sooner.none (run : Option α) : Sooner none run :=
  fun _ answered => by cases answered

theorem Sooner.isSome (sooner : Sooner run run') (answers : run.isSome) : run'.isSome := by
  obtain ⟨result, answered⟩ := isSome_iff_exists.1 answers
  exact isSome_iff_exists.2 ⟨result, sooner result answered⟩

theorem Sooner.bind {next next' : α → Option β} (sooner : Sooner run run')
    (each : ∀ value, Sooner (next value) (next' value)) :
    Sooner (run.bind next) (run'.bind next') := by
  intro result answered
  obtain ⟨value, first, second⟩ := bind_eq_some_iff.1 answered
  exact bind_eq_some_iff.2 ⟨value, sooner value first, each value result second⟩

theorem Sooner.mapM {visit visit' : α → Option β} (each : ∀ item, Sooner (visit item) (visit' item))
    (items : List α) : Sooner (items.mapM visit) (items.mapM visit') := by
  induction items with
  | nil => exact .refl _
  | cons item items ih =>
    rw [mapM_cons, mapM_cons]
    exact (each item).bind fun _ => ih.bind fun _ => .refl _

theorem Sooner.filterM {visit visit' : α → Option Bool}
    (each : ∀ item, Sooner (visit item) (visit' item)) (items : List α) :
    Sooner (items.filterM visit) (items.filterM visit') := by
  have along : ∀ (items kept : List α),
      Sooner (items.filterAuxM visit kept) (items.filterAuxM visit' kept) := by
    intro items
    induction items with
    | nil => exact fun kept => .refl _
    | cons item items ih => exact fun kept => (each item).bind fun keeps => ih _
  exact (along items []).bind fun _ => .refl _

/-- A run that more fuel never changes. -/
def Steady (run : Nat → Option α) : Prop :=
  ∀ fuel more, fuel ≤ more → Sooner (run fuel) (run more)

theorem Steady.of_succ {run : Nat → Option α} (step : ∀ fuel, Sooner (run fuel) (run (fuel + 1))) :
    Steady run := by
  intro fuel more within
  induction within with
  | refl => exact .refl _
  | step _ ih => exact ih.trans (step _)

theorem Steady.common {run : Nat → α → Option β} (steady : ∀ item, Steady fun fuel => run fuel item)
    (items : List α) : (∀ item ∈ items, ∃ fuel, (run fuel item).isSome) →
      ∃ fuel, ∀ item ∈ items, (run fuel item).isSome := by
  induction items with
  | nil => exact fun _ => ⟨0, fun _ absurd_ => by cases absurd_⟩
  | cons item items ih =>
    intro ends
    obtain ⟨fuel, own⟩ := ends item mem_cons_self
    obtain ⟨fuel', rest⟩ := ih fun other member => ends other (mem_cons_of_mem _ member)
    refine ⟨max fuel fuel', fun other member => ?_⟩
    rcases mem_cons.1 member with rfl | member
    · exact (steady other fuel _ (Nat.le_max_left _ _)).isSome own
    · exact (steady other fuel' _ (Nat.le_max_right _ _)).isSome (rest other member)

theorem filterM_isSome {visit : α → Option Bool} {items : List α}
    (ends : ∀ item ∈ items, (visit item).isSome) : (items.filterM visit).isSome := by
  have along : ∀ (items kept : List α), (∀ item ∈ items, (visit item).isSome) →
      (items.filterAuxM visit kept).isSome := by
    intro items
    induction items with
    | nil => exact fun _ _ => rfl
    | cons item items ih =>
      intro kept ends
      obtain ⟨keeps, first⟩ := isSome_iff_exists.1 (ends item mem_cons_self)
      show ((visit item).bind fun keeps => items.filterAuxM visit _).isSome
      rw [first]
      exact ih _ fun other member => ends other (mem_cons_of_mem _ member)
  obtain ⟨kept, found⟩ := isSome_iff_exists.1 (along items [] ends)
  show ((items.filterAuxM visit []).bind fun kept => some kept.reverse).isSome
  rw [found]
  rfl

end Sooner

section Visiting

open Classical in
/-- How many of the known keys are not met yet. -/
noncomputable def unmet {K : Type} (known seen : List K) : Nat :=
  known.countP fun key => key ∉ seen

variable {K S : Type} {known : List K}

section

variable {seen later : List K} (grows : ∀ key ∈ seen, key ∈ later)

include grows

open Classical in
theorem unmet_le : unmet known later ≤ unmet known seen := by
  apply countP_mono_left
  intro key _ fresh
  have fresh := of_decide_eq_true fresh
  exact decide_eq_true fun member => fresh (grows key member)

open Classical in
theorem unmet_lt {key : K} (member : key ∈ known) (fresh : key ∉ seen) (met : key ∈ later) :
    unmet known later < unmet known seen := by
  obtain ⟨before, after, rfl⟩ := append_of_mem member
  have front := @unmet_le K before seen later grows
  have back := @unmet_le K after seen later grows
  unfold unmet at *
  rw [countP_append, countP_append, countP_cons_of_neg (by simpa using met),
    countP_cons_of_pos (by simpa using fresh)]
  omega

end

/-- A loop over a stack that meets a key once and pushes only under a known key: what holds of it
after each step holds of it. -/
theorem visiting_induction {key : S → K} {P : List K → List S → Prop} (nil : ∀ seen, P seen [])
    (cons : ∀ seen item stack, P seen stack →
      (key item ∉ seen → ∀ later, (∀ other, other ∈ later ↔ other = key item ∨ other ∈ seen) →
        ∀ pushed, (key item ∉ known → pushed = []) → P later (pushed ++ stack)) →
      P seen (item :: stack)) (seen : List K) (stack : List S) : P seen stack := by
  induction measure : unmet known seen using Nat.strong_induction_on generalizing seen stack with
  | h count ih =>
    induction stack generalizing seen with
    | nil => exact nil seen
    | cons item stack inner =>
      refine cons seen item stack (inner seen measure) fun fresh later spec pushed leaf => ?_
      have grows : ∀ other ∈ seen, other ∈ later := fun other member => (spec other).2 (.inr member)
      by_cases inside : key item ∈ known
      · have fewer := unmet_lt grows inside fresh ((spec _).2 (.inl rfl))
        exact ih _ (measure ▸ fewer) later _ rfl
      · rw [leaf inside, nil_append]
        rcases Nat.lt_or_eq_of_le (unmet_le grows : unmet known later ≤ unmet known seen) with
          fewer | same
        · exact ih _ (measure ▸ fewer) later _ rfl
        · exact inner later (same.trans measure)

variable {r : K → K → Prop} {root : K}

theorem acc_of_acyclic (inside : ∀ a b, r a b → a ∈ known) (acyclic :
    ∀ a, Relation.ReflTransGen r root a → ¬ Relation.TransGen r a a) :
    Acc (fun b a => r a b) root := by
  have along : ∀ (path : List K) (a : K), Relation.ReflTransGen r root a →
      (∀ b ∈ path, Relation.TransGen r b a) → Acc (fun b a => r a b) a := by
    intro path
    induction measure : unmet known path using Nat.strong_induction_on generalizing path with
    | h count ih =>
      intro a reached behind
      constructor
      intro b step
      have fresh : a ∉ path := fun member => acyclic a reached (behind a member)
      have fewer := unmet_lt (fun other member => mem_cons_of_mem a member) (inside a b step)
        fresh mem_cons_self
      refine ih _ (measure ▸ fewer) (a :: path) rfl b (reached.tail step) fun other member => ?_
      rcases mem_cons.1 member with rfl | member
      · exact .single step
      · exact (behind other member).tail step
  exact along [] root .refl fun _ absurd_ => by cases absurd_

theorem not_cycle_of_acc (ends : Acc (fun b a => r a b) root) :
    ∀ a, Relation.ReflTransGen r root a → ¬ Relation.TransGen r a a := by
  have never {a : K} (ends : Acc (fun b a => r a b) a) : ¬ Relation.TransGen r a a := by
    induction ends with
    | intro a _ ih =>
      intro cycle
      obtain ⟨b, step, back⟩ := Relation.TransGen.head'_iff.1 cycle
      exact ih b step (Relation.TransGen.tail' back step)
  intro a path
  apply never
  induction path with
  | refl => exact ends
  | tail _ step ih => exact ih.inv step

theorem acc_iff_acyclic (inside : ∀ a b, r a b → a ∈ known) : Acc (fun b a => r a b) root ↔
      ∀ a, Relation.ReflTransGen r root a → ¬ Relation.TransGen r a a :=
  ⟨not_cycle_of_acc, acc_of_acyclic inside⟩

end Visiting

end LichenVm.FuelBounds
