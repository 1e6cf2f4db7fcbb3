import LichenVm.ArtifactContainer
import Mathlib.Data.Finset.Card
import Mathlib.Order.Interval.Finset.Nat

/-! The reader's walk along the lexical parents accepts every forest. -/

open List Option

namespace LichenVm

/-- Each parent is a function of the list, and lies below its child in some order. -/
structure ParentsFall (functions : List StaticFunction) (rank : Nat → Nat) : Prop where
  inside : ∀ (index : Nat) (entry : StaticFunction) (parent : StaticFunctionId),
    functions[index]? = some entry → entry.parent = some parent → parent.index < functions.length
  falls : ∀ (index : Nat) (entry : StaticFunction) (parent : StaticFunctionId),
    functions[index]? = some entry → entry.parent = some parent → rank parent.index < rank index

def below (count : Nat) (rank : Nat → Nat) (index : Nat) : Nat :=
  ((Finset.range count).filter fun other => rank other < rank index).card

theorem below_le (count : Nat) (rank : Nat → Nat) (index : Nat) : below count rank index ≤ count := by
  have inside := Finset.card_filter_le (Finset.range count) fun other => rank other < rank index
  rwa [Finset.card_range] at inside

variable {rank : Nat → Nat}

theorem below_lt {count : Nat} {parent index : Nat} (inside : parent < count)
    (falls : rank parent < rank index) : below count rank parent < below count rank index := by
  refine Finset.card_lt_card ((Finset.ssubset_iff_of_subset fun other member => ?_).2
    ⟨parent, ?_, ?_⟩)
  · simp only [Finset.mem_filter] at member ⊢
    exact ⟨member.1, member.2.trans falls⟩
  · simp [inside, falls]
  · simp

variable {functions : List StaticFunction}

theorem ParentsFall.bounded
    (falls : ParentsFall functions rank) : ParentsFall functions (below functions.length rank) where
  inside := falls.inside
  falls index entry parent found up :=
    below_lt (falls.inside index entry parent found up) (falls.falls index entry parent found up)

/-- The walk ends, and the functions it leaves on a chain are the ones it lists. -/
theorem walkChain_some
    (falls : ParentsFall functions rank) (fuel : Nat) (state : List ChainMark) (chain : List Nat)
    (current : Nat) (length : state.length = functions.length) (inside : current < functions.length)
    (enough : rank current < fuel)
    (above : ∀ index, state[index]? = some .onChain → rank current < rank index)
    (listed : ∀ index, state[index]? = some .onChain → index ∈ chain) :
    ∃ state' chain', walkChain functions fuel state chain current = some (state', chain') ∧
      state'.length = functions.length ∧
      ∀ index, state'[index]? = some .onChain → index ∈ chain' := by
  induction fuel generalizing state chain current with
  | zero => omega
  | succ fuel ih =>
    let marked := state.set current .onChain
    have count : marked.length = functions.length := by simpa [marked] using length
    have read : ∀ index, marked[index]? = some .onChain →
        index = current ∨ state[index]? = some .onChain := by
      intro index held
      by_cases same : index = current
      · exact Or.inl same
      · rw [getElem?_set_ne (Ne.symm same)] at held
        exact Or.inr held
    have member : ∀ index, marked[index]? = some .onChain → index ∈ chain ++ [current] := by
      intro index held
      rcases read index held with rfl | before
      · simp
      · exact mem_append_left _ (listed index before)
    rw [walkChain]
    cases up : functions[current]?.bind StaticFunction.parent with
    | none => exact ⟨marked, chain ++ [current], rfl, count, member⟩
    | some parent =>
      obtain ⟨entry, found, named⟩ := bind_eq_some_iff.1 up
      have bound := falls.inside current entry parent found named
      have falling := falls.falls current entry parent found named
      have higher : ∀ index, marked[index]? = some .onChain → rank parent.index < rank index := by
        intro index held
        rcases read index held with rfl | before
        · exact falling
        · exact falling.trans (above index before)
      obtain ⟨mark, at_parent⟩ : ∃ mark, marked[parent.index]? = some mark :=
        ⟨_, getElem?_eq_getElem (by omega)⟩
      cases mark with
      | onChain =>
        have loop := higher parent.index at_parent
        omega
      | settled =>
        refine ⟨marked, chain ++ [current], ?_, count, member⟩
        simp only [marked] at at_parent
        simp only [at_parent]
        rfl
      | unvisited =>
        obtain ⟨state', chain', walked, rest⟩ := ih marked (chain ++ [current]) parent.index
          count bound (by omega) higher member
        refine ⟨state', chain', ?_, rest⟩
        simp only [marked] at at_parent
        simp only [at_parent]
        exact walked

section

variable (chain : List Nat) (state : List ChainMark)

theorem settled_fold (listed : ∀ index : Nat, state[index]? = some .onChain → index ∈ chain)
    (index : Nat) :
    (chain.foldl (fun state index => state.set index .settled) state)[index]? ≠ some .onChain := by
  induction chain generalizing state with
  | nil => exact fun held => by simpa using listed index held
  | cons first chain ih =>
    refine ih _ fun other held => ?_
    by_cases same : first = other
    · subst same
      rw [List.getElem?_set_self'] at held
      cases before : state[first]? with
      | none | some mark => simp [before] at held
    · rw [getElem?_set_ne same] at held
      exact (mem_cons.1 (listed other held)).resolve_left (Ne.symm same)

theorem length_settled_fold :
    (chain.foldl (fun state index => state.set index .settled) state).length = state.length := by
  induction chain generalizing state with
  | nil => rfl
  | cons first chain ih =>
    rw [foldl_cons, ih]
    exact length_set

end

/-- No function is left on a chain, and every one has a mark. -/
structure Settled (functions : List StaticFunction) (state : List ChainMark) : Prop where
  length : state.length = functions.length
  none : ∀ index : Nat, state[index]? ≠ some .onChain

section

variable (falls : ParentsFall functions rank) (bounded : ∀ index, rank index ≤ functions.length)

include falls bounded

theorem settleChain_some {state : List ChainMark} (settled : Settled functions state)
    {start : Nat} (inside : start < functions.length) :
    ∃ state', settleChain functions state start = some state' ∧ Settled functions state' := by
  by_cases fresh : state[start]? = some .unvisited
  · obtain ⟨state', chain, walked, length, listed⟩ := walkChain_some falls (functions.length + 1)
      state [] start settled.length inside (Nat.lt_succ_of_le (bounded start))
      (fun index held => absurd held (settled.none index))
      (fun index held => absurd held (settled.none index))
    refine ⟨chain.foldl (fun state index => state.set index .settled) state', ?_, ?_, ?_⟩
    · rw [settleChain, if_pos fresh, walked]
      rfl
    · rw [length_settled_fold, length]
    · exact settled_fold chain state' listed
  · exact ⟨state, if_neg fresh, settled⟩

theorem settleAll_some (starts : List Nat) (inside : ∀ start ∈ starts, start < functions.length)
    {state : List ChainMark} (settled : Settled functions state) :
    (starts.foldlM (settleChain functions) state).isSome := by
  induction starts generalizing state with
  | nil => rfl
  | cons start starts ih =>
    obtain ⟨state', walked, settled'⟩ :=
      settleChain_some falls bounded settled (inside start mem_cons_self)
    rw [foldlM_cons, walked]
    exact ih (fun other member => inside other (mem_cons_of_mem _ member)) settled'

end

theorem checkParentForest_of_falls
    (falls : ParentsFall functions rank) : checkParentForest functions := by
  refine settleAll_some falls.bounded (below_le _ _) _ (fun start member => mem_range.1 member)
    ⟨length_replicate, fun index held => ?_⟩
  rw [getElem?_replicate] at held
  split at held
  · cases held
  · cases held

end LichenVm
