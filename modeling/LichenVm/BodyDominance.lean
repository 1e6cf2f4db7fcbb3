import LichenVm.KernelBody
import LichenVm.Settle
import LichenVm.Dominators
import Mathlib.Data.Finset.Prod
import Mathlib.Data.Finset.Range
import Mathlib.Data.List.GetD

open List

namespace LichenVm.KernelIr

open Worklist Settle Dominators

/-- Whether a dominator table states a candidate of a block. -/
def States (table : List (List Bool)) (block candidate : Nat) : Prop :=
  (table.getD block []).getD candidate false = true

instance (table : List (List Bool)) (block candidate : Nat) :
    Decidable (States table block candidate) := inferInstanceAs (Decidable (_ = true))

/-- A table with one row for each block and one flag for each candidate in it. -/
structure Square (count : Nat) (table : List (List Bool)) : Prop where
  rows : table.length = count
  width : ∀ row ∈ table, row.length = count

def stated (count : Nat) (table : List (List Bool)) : Nat :=
  ((Finset.range count ×ˢ Finset.range count).filter fun place =>
    States table place.1 place.2).card

theorem stated_le (count : Nat) (table : List (List Bool)) : stated count table ≤ count * count := by
  apply Nat.le_trans (Finset.card_filter_le _ _)
  rw [Finset.card_product, Finset.card_range]

variable {count : Nat}

theorem row_length {table : List (List Bool)} (square : Square count table)
    {block : Nat} (within : block < count) : (table.getD block []).length = count := by
  have inside : block < table.length := by rw [square.rows]; exact within
  rw [getD_eq_getElem _ _ inside]
  exact square.width _ (getElem_mem inside)

theorem within_of_states {table : List (List Bool)} (square : Square count table)
    {block candidate : Nat} (held : States table block candidate) :
    block < count ∧ candidate < count := by
  unfold States at held
  have within : block < count := by
    by_contra beyond
    rw [getD_eq_default table [] (by rw [square.rows]; omega)] at held
    cases held
  have width := row_length square within
  refine ⟨within, ?_⟩
  by_contra beyond
  rw [getD_eq_default (table.getD block []) false (by omega)] at held
  cases held

theorem row_ext {a b : List Bool} (same : a.length = b.length)
    (agree : ∀ c, a.getD c false = b.getD c false) : a = b := by
  apply ext_getElem same
  intro c left right
  have at_c := agree c
  rwa [getD_eq_getElem _ _ left, getD_eq_getElem _ _ right] at at_c

theorem zipWith_and (a b : List Bool) (c : Nat) :
    (List.zipWith (· && ·) a b).getD c false = (a.getD c false && b.getD c false) := by
  simp only [getD_eq_getElem?_getD, List.getElem?_zipWith]
  cases a[c]? <;> cases b[c]? <;> simp

section

variable (rows : Nat → List Bool) (items : List Nat) (row : List Bool)

theorem foldl_zipWith_and (c : Nat) :
    (items.foldl (fun next i => List.zipWith (· && ·) next (rows i)) row).getD c false =
      (row.getD c false && items.all fun i => (rows i).getD c false) := by
  induction items generalizing row with
  | nil => simp
  | cons i items ih => rw [foldl_cons, ih, zipWith_and, all_cons, Bool.and_assoc]

theorem foldl_zipWith_length (width : row.length = count)
    (all : ∀ i ∈ items, (rows i).length = count) :
    (items.foldl (fun next i => List.zipWith (· && ·) next (rows i)) row).length = count := by
  induction items generalizing row with
  | nil => exact width
  | cons i items ih =>
    rw [foldl_cons]
    apply ih
    · rw [length_zipWith, width, all i mem_cons_self, Nat.min_self]
    · exact fun j member => all j (mem_cons_of_mem _ member)

end

theorem getD_set (row : List Bool) (i c : Nat) (flag : Bool) (within : i < row.length) :
    (row.set i flag).getD c false = if i = c then flag else row.getD c false := by
  simp only [getD_eq_getElem?_getD, getElem?_set]
  split
  · rename_i same
    subst same
    rfl
  · rfl

namespace KernelBody

variable (body : KernelBody)

/-- The blocks a path from the entry reaches. -/
def reaches : Nat → Bool :=
  reached body.blocks.length body.successors [body.entry]

variable {block : Nat}

theorem lt_of_reaches (entered : body.entry < body.blocks.length)
    (seen : body.reaches block) : block < body.blocks.length := by
  rcases origin_of_reached seen with member | ⟨predecessor, -, named⟩
  · rw [mem_singleton.1 member]
    exact entered
  · exact of_decide_eq_true (mem_filter.1 named).2

/-- What a block keeps of a table: itself, and what all its predecessors have. -/
def narrowed (reachable : Nat → Bool) (dominators : List (List Bool)) (block : Nat) : List Bool :=
  ((body.predecessors reachable block).foldl (fun next predecessor =>
    List.zipWith (· && ·) next (dominators.getD predecessor []))
    (List.replicate body.blocks.length true)).set block true

def sweepBlock (reachable : Nat → Bool) (block : Nat) (dominators : List (List Bool)) :
    List (List Bool) :=
  if block = body.entry ∨ reachable block = false then dominators
  else dominators.set block (body.narrowed reachable dominators block)

theorem dominanceLoop_eq (reachable : Nat → Bool) (fuel : Nat) (dominators : List (List Bool)) :
    body.dominanceLoop reachable fuel dominators =
      settle (body.dominanceSweep reachable) fuel dominators := by
  induction fuel generalizing dominators with
  | zero => rfl
  | succ fuel ih =>
    simp only [dominanceLoop, settle]
    split
    · rfl
    · exact ih _

variable {reachable : Nat → Bool}

theorem mem_predecessors {predecessor : Nat} : predecessor ∈ body.predecessors reachable block ↔
      predecessor < body.blocks.length ∧ reachable predecessor ∧
        block ∈ body.successors predecessor := by
  unfold predecessors
  simp only [mem_flatMap, mem_range]
  constructor
  · rintro ⟨index, within, member⟩
    split at member
    · rename_i held
      obtain ⟨target, named, kept⟩ := mem_filterMap.1 member
      split at kept
      · rename_i same
        cases kept
        subst same
        exact ⟨within, held, named⟩
      · cases kept
    · cases member
  · rintro ⟨within, held, named⟩
    refine ⟨predecessor, within, ?_⟩
    rw [if_pos held]
    exact mem_filterMap.2 ⟨block, named, if_pos rfl⟩

section

variable {table : List (List Bool)} (square : Square body.blocks.length table)

include square

theorem narrowed_length (block : Nat) :
    (body.narrowed reachable table block).length = body.blocks.length := by
  unfold narrowed
  rw [length_set]
  apply foldl_zipWith_length _ _ _ length_replicate
  intro predecessor member
  exact row_length square (body.mem_predecessors.1 member).1

theorem states_narrowed (within : block < body.blocks.length) (candidate : Nat) :
    (body.narrowed reachable table block).getD candidate false ↔
      candidate < body.blocks.length ∧ (candidate = block ∨
        ∀ predecessor ∈ body.predecessors reachable block, States table predecessor candidate) := by
  have width : (body.narrowed reachable table block).length = _ := body.narrowed_length square block
  rw [narrowed, length_set] at width
  unfold narrowed
  rw [getD_set _ _ _ _ (by rwa [width]), foldl_zipWith_and]
  by_cases same : block = candidate
  · subst same
    simp [within]
  · rw [if_neg same]
    by_cases inside : candidate < body.blocks.length
    · simp [inside, Ne.symm same, States]
    · simp [inside]

end

/-- What every sweep keeps of a table: the entry has itself only, and no block has less than its
predecessors have in common. -/
structure Narrowing (table : List (List Bool)) : Prop where
  square : Square body.blocks.length table
  start : ∀ candidate, States table body.entry candidate → candidate = body.entry
  above : ∀ block < body.blocks.length, block ≠ body.entry → body.reaches block = true →
    ∀ candidate, (body.narrowed body.reaches table block).getD candidate false = true →
      States table block candidate

variable {body} {table : List (List Bool)}

theorem states_set (within : block < table.length) (row : List Bool) (other c : Nat) :
    States (table.set block row) other c ↔
      if other = block then row.getD c false = true else States table other c := by
  have found : (table.set block row).getD other [] =
      if other = block then row else table.getD other [] := by
    simp only [getD_eq_getElem?_getD, getElem?_set]
    by_cases same : block = other
    · subst same
      rw [if_pos rfl, if_pos within, if_pos rfl]
      rfl
    · rw [if_neg same, if_neg (Ne.symm same)]
  unfold States
  rw [found]
  split <;> rfl

theorem square_set {count : Nat} (square : Square count table) {row : List Bool}
    (width : row.length = count) : Square count (table.set block row) := by
  constructor
  · rw [length_set, square.rows]
  · intro other member
    rcases mem_or_eq_of_mem_set member with old | rfl
    · exact square.width other old
    · exact width

section

variable {count : Nat} {other : List (List Bool)} (square : Square count table)
  (square' : Square count other)

include square square'

theorem table_ext
    (same : ∀ block candidate, States table block candidate ↔ States other block candidate) :
    table = other := by
  apply ext_getElem (by rw [square.rows, square'.rows])
  intro block left right
  have width := square.width _ (getElem_mem left)
  have width' := square'.width _ (getElem_mem right)
  apply row_ext (by rw [width, width'])
  intro candidate
  have agree := same block candidate
  unfold States at agree
  rw [getD_eq_getElem _ _ left, getD_eq_getElem _ _ right] at agree
  exact Bool.eq_iff_iff.2 agree

theorem stated_lt
    (less : ∀ block candidate, States other block candidate → States table block candidate)
    (moved : other ≠ table) : stated count other < stated count table := by
  by_contra many
  apply moved
  have equal := Finset.eq_of_subset_of_card_le
    (Finset.monotone_filter_right (Finset.range count ×ˢ Finset.range count)
      (fun place _ => less place.1 place.2)) (Nat.le_of_not_lt many)
  apply table_ext square' square
  intro block candidate
  constructor
  · exact less block candidate
  · intro held
    have inside := within_of_states square held
    have member : (block, candidate) ∈ (Finset.range count ×ˢ Finset.range count).filter
        fun place => States table place.1 place.2 := by
      simp [inside, held]
    rw [← equal] at member
    exact (Finset.mem_filter.1 member).2

end

theorem sweepBlock_visited (visited : block ≠ body.entry) (reached : body.reaches block) :
    body.sweepBlock body.reaches block table =
      table.set block (body.narrowed body.reaches table block) := by
  apply if_neg
  rintro (home | outside)
  · exact visited home
  · rw [reached] at outside
    cases outside

/-- One visit narrows a table: it keeps what every sweep keeps, and drops a candidate where it
changes anything. -/
theorem sweepBlock_falls (within : block < body.blocks.length) :
    Falls body.Narrowing (stated body.blocks.length) (body.sweepBlock body.reaches block) := by
  by_cases skipped : block = body.entry ∨ body.reaches block = false
  · have same : ∀ table, body.sweepBlock body.reaches block table = table :=
      fun table => if_pos skipped
    exact ⟨fun table held => (by rw [same]; exact held), fun table _ => Or.inl (same table)⟩
  have visited : block ≠ body.entry := fun home => skipped (Or.inl home)
  have reached : body.reaches block := by
    cases known : body.reaches block
    · exact absurd (Or.inr known) skipped
    · rfl
  have falls : ∀ table, body.Narrowing table → ∀ other candidate,
      States (table.set block (body.narrowed body.reaches table block)) other candidate →
        States table other candidate := by
    intro table held other candidate stays
    rw [states_set (by rw [held.square.rows]; exact within)] at stays
    split at stays
    · rename_i same
      subst same
      exact held.above other within visited reached candidate stays
    · exact stays
  have squares : ∀ table, body.Narrowing table → Square body.blocks.length
      (table.set block (body.narrowed body.reaches table block)) := fun table held =>
    square_set held.square (body.narrowed_length held.square block)
  constructor
  · intro table held
    rw [sweepBlock_visited visited reached]
    refine ⟨squares table held, ?_, ?_⟩
    · exact fun candidate stays => held.start candidate (falls table held _ _ stays)
    · intro other inside away seen candidate kept
      rw [body.states_narrowed (squares table held) inside] at kept
      have before : (body.narrowed body.reaches table other).getD candidate false := by
        rw [body.states_narrowed held.square inside]
        refine ⟨kept.1, kept.2.imp_right fun all predecessor member => ?_⟩
        exact falls table held _ _ (all predecessor member)
      rw [states_set (by rw [held.square.rows]; exact within)]
      split
      · rename_i same
        subst same
        exact before
      · exact held.above other inside away seen candidate before
  · intro table held
    rw [sweepBlock_visited visited reached]
    by_cases same : table.set block (body.narrowed body.reaches table block) = table
    · exact Or.inl same
    · exact Or.inr (stated_lt held.square (squares table held) (falls table held) same)

/-- No sweep drops a reached candidate that every walk to a reached block passes. -/
def Spares (body : KernelBody) (table : List (List Bool)) : Prop :=
  ∀ block candidate, body.reaches block → body.reaches candidate →
    Above (fun v w => w ∈ body.successors v) body.entry candidate block → States table block candidate

theorem sweepBlock_spares (entered : body.entry < body.blocks.length)
    (within : block < body.blocks.length) (held : body.Narrowing table)
    (spares : body.Spares table) : body.Spares (body.sweepBlock body.reaches block table) := by
  unfold sweepBlock
  split
  · exact spares
  intro other candidate seen known above
  rw [states_set (by rw [held.square.rows]; exact within)]
  split
  · rename_i same
    subst same
    rw [body.states_narrowed held.square within]
    refine ⟨body.lt_of_reaches entered known, or_iff_not_imp_left.2 fun apart predecessor member => ?_⟩
    obtain ⟨-, reached, along⟩ := body.mem_predecessors.1 member
    exact spares predecessor candidate reached known (above.backward along apart)
  · exact spares other candidate seen known above

variable (body)

/-- The table the sweeps start from: every reachable block has all reachable blocks, but the
entry itself only. -/
def unswept : List (List Bool) :=
  (List.range body.blocks.length).map fun block =>
    if block = body.entry then (List.replicate body.blocks.length false).set block true
    else if body.reaches block then
      ((List.range body.blocks.length).map body.reaches).set block true
    else List.replicate body.blocks.length false

theorem dominance_eq : body.dominance =
    { reachable := (List.range body.blocks.length).map body.reaches
      dominators := body.dominanceLoop body.reaches
        (body.blocks.length * body.blocks.length + 1) body.unswept } :=
  rfl

theorem square_unswept : Square body.blocks.length body.unswept := by
  constructor
  · rw [unswept, length_map, length_range]
  · intro row member
    obtain ⟨block, -, rfl⟩ := mem_map.1 member
    split
    · rw [length_set, length_replicate]
    · split
      · rw [length_set, length_map, length_range]
      · rw [length_replicate]

theorem unswept_row (within : block < body.blocks.length) : body.unswept.getD block [] =
      if block = body.entry then (List.replicate body.blocks.length false).set block true
      else if body.reaches block then
        ((List.range body.blocks.length).map body.reaches).set block true
      else List.replicate body.blocks.length false := by
  rw [getD_eq_getElem _ _ (by rw [body.square_unswept.rows]; exact within)]
  simp only [unswept, getElem_map, getElem_range]

theorem reaches_of_flag {candidate : Nat}
    (flag : ((List.range body.blocks.length).map body.reaches).getD candidate false) :
    body.reaches candidate := by
  by_cases within : candidate < body.blocks.length
  · rw [getD_eq_getElem _ _ (by simpa using within)] at flag
    simpa using flag
  · rw [getD_eq_default _ _ (by simpa using within)] at flag
    cases flag

section

variable (entered : body.entry < body.blocks.length)

include entered

theorem reaches_of_unswept {candidate : Nat} (held : States body.unswept block candidate) :
    body.reaches candidate := by
  have within := within_of_states body.square_unswept held
  unfold States at held
  rw [body.unswept_row within.1] at held
  split at held
  · rename_i home
    rw [getD_set _ _ _ _ (by simpa using within.1)] at held
    split at held
    · rename_i same
      rw [← same, home]
      exact reached_of_mem mem_cons_self entered
    · simp at held
  · split at held
    · rename_i reached
      rw [getD_set _ _ _ _ (by simpa using within.1)] at held
      split at held
      · rename_i same
        rw [← same]
        exact reached
      · exact body.reaches_of_flag held
    · simp at held

theorem narrowing_unswept : body.Narrowing body.unswept := by
  refine ⟨body.square_unswept, ?_, ?_⟩
  · intro candidate held
    unfold States at held
    rw [body.unswept_row entered, if_pos rfl, getD_set _ _ _ _ (by simpa using entered)] at held
    split at held
    · rename_i same
      exact same.symm
    · simp at held
  · intro block within away reached candidate kept
    obtain ⟨inside, kept⟩ := (body.states_narrowed body.square_unswept within candidate).1 kept
    unfold States
    rw [body.unswept_row within, if_neg away, if_pos reached,
      getD_set _ _ _ _ (by simpa using within)]
    split
    · rfl
    · rename_i other
      rcases origin_of_reached reached with member | ⟨predecessor, seen, named⟩
      · exact absurd (mem_singleton.1 member) away
      · have known : body.reaches candidate := by
          apply body.reaches_of_unswept entered
          apply kept.resolve_left (Ne.symm other) predecessor
          exact body.mem_predecessors.2 ⟨body.lt_of_reaches entered seen, seen, named⟩
        rw [getD_eq_getElem _ _ (by simpa using inside)]
        simpa using known

theorem spares_unswept : body.Spares body.unswept := by
  intro block candidate seen known above
  have within := body.lt_of_reaches entered seen
  unfold States
  rw [body.unswept_row within, if_pos seen]
  split
  · rename_i home
    subst home
    rw [(above [] .start).resolve_right not_mem_nil, getD_set _ _ _ _ (by simpa using within),
      if_pos rfl]
  · rw [getD_set _ _ _ _ (by simpa using within)]
    split
    · rfl
    · rw [getD_eq_getElem _ _ (by simpa using body.lt_of_reaches entered known)]
      simpa using known

theorem dominators_settled :
    (body.Narrowing body.dominance.dominators ∧ body.Spares body.dominance.dominators) ∧
      body.dominanceSweep body.reaches body.dominance.dominators = body.dominance.dominators := by
  have pass : Falls (fun table => body.Narrowing table ∧ body.Spares table)
      (stated body.blocks.length) (body.dominanceSweep body.reaches) :=
    Falls.pass _ fun block member =>
      have falls := sweepBlock_falls (mem_range.1 member)
      ⟨fun table held => ⟨falls.keeps table held.1,
        sweepBlock_spares entered (mem_range.1 member) held.1 held.2⟩,
        fun table held => falls.lowers table held.1⟩
  rw [body.dominance_eq]
  simp only [dominanceLoop_eq]
  apply pass.settled _ _ ⟨body.narrowing_unswept entered, body.spares_unswept entered⟩
  exact Nat.lt_succ_of_le (stated_le _ _)

theorem reaches_of_walk {trail : List Nat}
    (walked : Dominators.Walk (fun v w => w ∈ body.successors v) body.entry trail block) :
    body.reaches block := by
  induction walked with
  | start => exact reached_of_mem mem_cons_self entered
  | step _ along ih =>
    exact reached_next ih along (of_decide_eq_true (mem_filter.1 along).2)

/-- The dominator table is sound: every path from the entry to a block passes what the table
states of it. -/
theorem dominates_closed :
    Closed (fun v w => w ∈ body.successors v) body.entry
      fun block candidate => body.dominance.dominates block candidate := by
  obtain ⟨⟨held, -⟩, settled⟩ := body.dominators_settled entered
  constructor
  · exact held.start
  · intro trail v w walked along away candidate above
    have seen := body.reaches_of_walk entered walked
    have within : w < body.blocks.length := of_decide_eq_true (mem_filter.1 along).2
    have reached := reached_next seen along within
    have still := still_of_pass _
      (fun block member => sweepBlock_falls (mem_range.1 member)) held settled w
      (mem_range.2 within)
    rw [sweepBlock_visited away reached] at still
    change States body.dominance.dominators w candidate at above
    rw [← still, states_set (by rw [held.square.rows]; exact within), if_pos rfl,
      body.states_narrowed held.square within] at above
    apply above.2.imp_right
    intro all
    apply all
    exact body.mem_predecessors.2 ⟨body.lt_of_reaches entered seen, seen, along⟩

end

/-- The dominator table is exact: it states of a block what every path from the entry to it
passes. -/
theorem dominates_iff {body : KernelBody} (entered : body.entry < body.blocks.length)
    {trail : List Nat}
    (walked : Dominators.Walk (fun v w => w ∈ body.successors v) body.entry trail block)
    {candidate : Nat} : body.dominance.dominates block candidate ↔
      Above (fun v w => w ∈ body.successors v) body.entry candidate block := by
  refine ⟨fun stated _ walked => (body.dominates_closed entered).on_walk walked stated,
    fun above => ?_⟩
  have known : body.reaches candidate := by
    rcases above trail walked with rfl | passed
    · exact body.reaches_of_walk entered walked
    · obtain ⟨_, back, -⟩ := walked.back passed
      exact body.reaches_of_walk entered back
  exact (body.dominators_settled entered).1.2 _ _ (body.reaches_of_walk entered walked) known above

/-- Two branches that meet again. -/
def diamond : KernelBody where
  values := []
  blocks := [⟨[], [], .condBr 0 ⟨1, []⟩ ⟨2, []⟩⟩, ⟨[], [], .br ⟨3, []⟩⟩, ⟨[], [], .br ⟨3, []⟩⟩,
    ⟨[], [], .return []⟩]
  entry := 0

theorem dominates_iff_diamond : diamond.dominance.dominates 3 0 ↔
    Above (fun v w => w ∈ diamond.successors v) diamond.entry 0 3 :=
  dominates_iff (by decide) (.step (.step .start (by decide : 1 ∈ diamond.successors 0)) (by decide))

end KernelBody

end LichenVm.KernelIr
