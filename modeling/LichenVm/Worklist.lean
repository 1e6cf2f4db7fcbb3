import Mathlib.Algebra.Order.Ring.Nat
import Mathlib.Data.List.Basic
import Mathlib.Logic.Function.Basic
import Mathlib.Logic.Relation

/-! Marking what a stack of pending vertices reaches. -/

open List Function Relation

namespace LichenVm.Worklist

/-- Pop a vertex, mark it, push what it names. A vertex from `count` on is dropped, and so is
one marked before. -/
def mark (count : Nat) (next : Nat → List Nat) : Nat → List Nat → (Nat → Bool) → Nat → Bool
  | 0, _, marked => marked
  | _ + 1, [], marked => marked
  | fuel + 1, v :: pending, marked =>
    if v < count ∧ marked v = false then
      mark count next fuel ((next v).reverse ++ pending) (update marked v true)
    else mark count next fuel pending marked

/-- How many vertices the ones not marked yet still push. -/
def unpushed (count : Nat) (next : Nat → List Nat) (marked : Nat → Bool) : Nat :=
  ((List.range count).map fun v => if marked v then 0 else (next v).length).sum

/-- Fuel for a whole run: each step pops one vertex, and each vertex pushes its own once. -/
def enough (count : Nat) (next : Nat → List Nat) (pending : List Nat) : Nat :=
  pending.length + unpushed count next fun _ => false

/-- The vertices a run from `pending` marks. -/
def reached (count : Nat) (next : Nat → List Nat) (pending : List Nat) : Nat → Bool :=
  mark count next (enough count next pending) pending fun _ => false

theorem unpushed_update (count : Nat) (next : Nat → List Nat) (marked : Nat → Bool) (v : Nat)
    (within : v < count) (fresh : marked v = false) :
    unpushed count next (update marked v true) + (next v).length =
      unpushed count next marked := by
  induction count with
  | zero => omega
  | succ count ih =>
    simp only [unpushed, range_succ, map_append, sum_append, map_cons,
      map_nil, sum_cons, sum_nil, Nat.add_zero] at ih ⊢
    by_cases last : v = count
    · subst last
      have same : (List.range v).map (fun w => if update marked v true w then 0
          else (next w).length) =
          (List.range v).map fun w => if marked w then 0 else (next w).length := by
        apply map_congr_left
        intro w member
        rw [update_of_ne (Nat.ne_of_lt (mem_range.1 member))]
      rw [same]
      simp [fresh]
    · have rest := ih (by omega)
      rw [update_of_ne (Ne.symm last)]
      omega

section

variable (count : Nat) (next : Nat → List Nat) (fuel : Nat) (pending : List Nat)

include count next fuel pending

theorem mark_keeps {marked : Nat → Bool} {v : Nat} (held : marked v) :
    mark count next fuel pending marked v := by
  induction fuel generalizing pending marked with
  | zero => exact held
  | succ fuel ih =>
    cases pending with
    | nil => exact held
    | cons w pending =>
      unfold mark
      split
      · apply ih
        by_cases same : v = w
        · rw [same, update_self]
        · rw [update_of_ne same, held]
      · exact ih pending held

/-- What a run keeps: the vertices marked before, each named vertex of a marked one, and every
pending vertex. -/
theorem mark_spec (marked : Nat → Bool)
    (fuelled : pending.length + unpushed count next marked ≤ fuel)
    (closed : ∀ v w, marked v → w ∈ next v → w < count → marked w ∨ w ∈ pending) :
    (∀ v, marked v → mark count next fuel pending marked v) ∧
    (∀ v ∈ pending, v < count → mark count next fuel pending marked v) ∧
    ∀ v w, mark count next fuel pending marked v → w ∈ next v → w < count →
      mark count next fuel pending marked w := by
  induction fuel generalizing pending marked with
  | zero =>
    have empty : pending = [] := eq_nil_of_length_eq_zero (by omega)
    subst empty
    exact ⟨fun _ held => held, fun _ member => (by cases member),
      fun v w held member within => (closed v w held member within).resolve_right (by simp)⟩
  | succ fuel ih =>
    cases pending with
    | nil =>
      exact ⟨fun _ held => held, fun _ member => (by cases member),
        fun v w held member within => (closed v w held member within).resolve_right (by simp)⟩
    | cons v pending =>
      unfold mark
      split
      · rename_i fresh
        have pushes := unpushed_update count next marked v fresh.1 fresh.2
        obtain ⟨keeps, all, shut⟩ := ih ((next v).reverse ++ pending)
          (update marked v true)
          (by simp only [length_append, length_reverse, length_cons] at fuelled ⊢
              omega)
          (by
            intro u w held member within
            by_cases same : u = v
            · subst same
              exact Or.inr (by simp [member])
            · rw [update_of_ne same] at held
              by_cases target : w = v
              · exact Or.inl (by rw [target, update_self])
              · rw [update_of_ne target]
                rcases closed u w held member within with already | member
                · exact Or.inl already
                · rcases mem_cons.1 member with same | member
                  · exact absurd same target
                  · exact Or.inr (by simp [member]))
        refine ⟨fun u held => keeps u ?_, fun u member within => ?_, shut⟩
        · by_cases same : u = v
          · rw [same, update_self]
          · rw [update_of_ne same, held]
        · rcases mem_cons.1 member with rfl | member
          · exact keeps u (by rw [update_self])
          · exact all u (by simp [member]) within
      · rename_i stale
        have old : v < count → marked v := by
          intro within
          by_contra fresh
          exact stale ⟨within, by simpa using fresh⟩
        obtain ⟨keeps, all, shut⟩ := ih pending marked
          (by simp only [length_cons] at fuelled; omega)
          (by
            intro u w held member within
            rcases closed u w held member within with already | member
            · exact Or.inl already
            · rcases mem_cons.1 member with rfl | member
              · exact Or.inl (old within)
              · exact Or.inr member)
        refine ⟨keeps, fun u member within => ?_, shut⟩
        rcases mem_cons.1 member with rfl | member
        · exact keeps u (old within)
        · exact all u member within

/-- A vertex a run marks was marked before, was pending, or is named by a marked one. -/
theorem origin_of_mark (marked : Nat → Bool) {v : Nat}
    (held : mark count next fuel pending marked v) :
    marked v ∨ v ∈ pending ∨
      ∃ u, mark count next fuel pending marked u ∧ v ∈ next u := by
  induction fuel generalizing pending marked with
  | zero => exact Or.inl held
  | succ fuel ih =>
    cases pending with
    | nil => exact Or.inl held
    | cons w pending =>
      unfold mark at held ⊢
      split at held
      · rename_i fresh
        rw [if_pos fresh]
        rcases ih _ _ held with before | member | named
        · by_cases same : v = w
          · exact Or.inr (Or.inl (by rw [same]; exact mem_cons_self))
          · rw [update_of_ne same] at before
            exact Or.inl before
        · rcases mem_append.1 member with pushed | member
          · have self := mark_keeps count next fuel ((next w).reverse ++ pending)
              (update_self w true marked)
            exact Or.inr (Or.inr ⟨w, self, mem_reverse.1 pushed⟩)
          · exact Or.inr (Or.inl (mem_cons_of_mem _ member))
        · exact Or.inr (Or.inr named)
      · rename_i stale
        rw [if_neg stale]
        rcases ih _ _ held with before | member | named
        · exact Or.inl before
        · exact Or.inr (Or.inl (mem_cons_of_mem _ member))
        · exact Or.inr (Or.inr named)

end

variable {count : Nat} {next : Nat → List Nat} {pending : List Nat}

theorem reached_of_mem {v : Nat} (member : v ∈ pending) (within : v < count) :
    reached count next pending v :=
  (mark_spec count next _ pending _ (Nat.le_refl _) (by simp)).2.1 v member within

theorem reached_next {v w : Nat} (held : reached count next pending v)
    (member : w ∈ next v) (within : w < count) : reached count next pending w :=
  (mark_spec count next _ pending _ (Nat.le_refl _) (by simp)).2.2 v w held member within

theorem origin_of_reached {v : Nat} (held : reached count next pending v) :
    v ∈ pending ∨ ∃ u, reached count next pending u ∧ v ∈ next u :=
  (origin_of_mark count next _ pending _ held).resolve_left (by simp)

/-! Marking a vertex as it is pushed. -/

/-- Mark a vertex that is not marked yet, and push it. -/
def reach (state : List Bool × List Nat) (v : Nat) : List Bool × List Nat :=
  if state.1[v]? = some false then (state.1.set v true, v :: state.2) else state

/-- Pop a vertex and reach what it names, until none is pending. -/
def drain (next : Nat → List Nat) : Nat → List Bool × List Nat → List Bool
  | 0, state => state.1
  | _ + 1, (marks, []) => marks
  | fuel + 1, (marks, v :: pending) => drain next fuel ((next v).foldl reach (marks, pending))

/-- What is pending, and what may still be pushed. -/
def left (state : List Bool × List Nat) : Nat := state.2.length + state.1.count false

section

variable {state : List Bool × List Nat} {items : List Nat} {v w : Nat}

theorem left_foldl : left (items.foldl reach state) = left state := by
  induction items generalizing state with
  | nil => rfl
  | cons v items ih =>
    refine ih.trans ?_
    unfold reach left
    split
    · rename_i fresh
      obtain ⟨within, fresh⟩ := List.getElem?_eq_some_iff.1 fresh
      have counted : 0 < state.1.count false := count_pos_iff.2 (fresh ▸ getElem_mem within)
      grind
    · rfl

theorem length_reach : (reach state v).1.length = state.1.length := by
  unfold reach
  split <;> simp

theorem length_foldl : (items.foldl reach state).1.length = state.1.length := by
  induction items generalizing state with
  | nil => rfl
  | cons v items ih => exact ih.trans length_reach

theorem marked_reach : (reach state v).1[w]? = some true ↔
    state.1[w]? = some true ∨ w = v ∧ v < state.1.length := by
  unfold reach
  split
  · grind
  · cases mark : state.1[v]? with
    | none => grind
    | some held => cases held <;> grind

theorem marked_foldl : (items.foldl reach state).1[w]? = some true ↔
    state.1[w]? = some true ∨ w ∈ items ∧ w < state.1.length := by
  induction items generalizing state with
  | nil => simp
  | cons v items ih =>
    rw [foldl_cons, ih, marked_reach, mem_cons, length_reach]
    grind

theorem pending_foldl (held : w ∈ state.2) : w ∈ (items.foldl reach state).2 := by
  induction items generalizing state with
  | nil => exact held
  | cons v items ih =>
    apply ih
    unfold reach
    split <;> grind

theorem fresh_foldl (marked : (items.foldl reach state).1[w]? = some true) :
    state.1[w]? = some true ∨ w ∈ (items.foldl reach state).2 := by
  induction items generalizing state with
  | nil => exact .inl marked
  | cons v items ih =>
    rcases ih marked with before | pending
    · by_cases pushed : w ∈ (reach state v).2
      · rw [foldl_cons]
        exact .inr (pending_foldl pushed)
      · unfold reach at before pushed
        grind
    · exact .inr pending

theorem marked_pending (held : ∀ w ∈ state.2, state.1[w]? = some true) :
    ∀ w ∈ (items.foldl reach state).2, (items.foldl reach state).1[w]? = some true := by
  induction items generalizing state with
  | nil => exact held
  | cons v items ih =>
    refine ih fun w pending => marked_reach.2 ?_
    unfold reach at pending
    grind

end

section

variable {count : Nat} {next : Nat → List Nat} {start : Nat → Prop}

/-- What the loop keeps: a marked vertex is reached from the start, and what it names is marked
too, unless it is still pending. -/
structure Inv (count : Nat) (next : Nat → List Nat) (start : Nat → Prop)
    (state : List Bool × List Nat) : Prop where
  sized : state.1.length = count
  begun : ∀ v, start v → state.1[v]? = some true
  pending : ∀ v ∈ state.2, state.1[v]? = some true
  reached : ∀ v, state.1[v]? = some true →
    ∃ w, start w ∧ ReflTransGen (fun v w => w ∈ next v ∧ w < count) w v
  closed : ∀ v, state.1[v]? = some true → v ∈ state.2 ∨
    ∀ w ∈ next v, w < count → state.1[w]? = some true

theorem Inv.pop {marks : List Bool} {v : Nat} {pending : List Nat}
    (inv : Inv count next start (marks, v :: pending)) :
    Inv count next start ((next v).foldl reach (marks, pending)) := by
  have own := inv.reached v (inv.pending v mem_cons_self)
  refine ⟨length_foldl.trans inv.sized, fun w begun => ?_, ?_, fun w marked => ?_,
    fun w marked => ?_⟩
  · exact marked_foldl.2 (.inl (inv.begun w begun))
  · exact marked_pending fun w waiting => inv.pending w (mem_cons_of_mem _ waiting)
  · rcases marked_foldl.1 marked with before | ⟨named, within⟩
    · exact inv.reached w before
    · obtain ⟨first, begun, path⟩ := own
      exact ⟨first, begun, path.tail ⟨named, inv.sized ▸ within⟩⟩
  · rcases fresh_foldl marked with before | fresh
    · rcases inv.closed w before with waiting | closed
      · rcases mem_cons.1 waiting with rfl | waiting
        · exact .inr fun u named within => marked_foldl.2 (.inr ⟨named, inv.sized.symm ▸ within⟩)
        · exact .inl (pending_foldl waiting)
      · exact .inr fun u named within => marked_foldl.2 (.inl (closed u named within))
    · exact .inl fresh

theorem Inv.marked_iff {marks : List Bool} (inv : Inv count next start (marks, [])) {v : Nat} :
    marks[v]? = some true ↔
      ∃ w, start w ∧ ReflTransGen (fun v w => w ∈ next v ∧ w < count) w v := by
  refine ⟨inv.reached v, ?_⟩
  rintro ⟨w, begun, path⟩
  induction path with
  | refl => exact inv.begun w begun
  | tail _ edge ih =>
    exact (inv.closed _ ih).elim (absurd · not_mem_nil) fun closed => closed _ edge.1 edge.2

/-- A run marks exactly what the start reaches. -/
theorem drain_iff {fuel : Nat} {state : List Bool × List Nat} (inv : Inv count next start state)
    (enough : left state ≤ fuel) {v : Nat} : (drain next fuel state)[v]? = some true ↔
      ∃ w, start w ∧ ReflTransGen (fun v w => w ∈ next v ∧ w < count) w v := by
  obtain ⟨marks, pending⟩ := state
  induction fuel generalizing marks pending with
  | zero =>
    have empty : pending = [] := eq_nil_of_length_eq_zero (by simp only [left] at enough; omega)
    subst empty
    exact inv.marked_iff
  | succ fuel ih =>
    cases pending with
    | nil => exact inv.marked_iff
    | cons v pending =>
      refine ih _ _ inv.pop ?_
      rw [left_foldl]
      simp only [left, length_cons] at enough ⊢
      omega

end

end LichenVm.Worklist
