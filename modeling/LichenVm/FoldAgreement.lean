import LichenVm.FoldTiles

open List

namespace LichenVm.FusionBridge

open Fusion KernelIr Reassociation

theorem slotWord_linear (start stride : Nat) (step : Nat) :
    slotWord (.ofNat 64 start) (.ofNat 64 stride) none step = .ofNat 64 (start + stride * step) := by
  induction step with
  | zero => rfl
  | succ step ih =>
    show slotWord _ _ none step + BitVec.ofNat 64 stride = _
    rw [ih, ← BitVec.ofNat_add]
    ring

section

variable {width step : Nat} (small : width < 2 ^ 64) (within : step < width)

include small within

theorem slotWord_within : slotWord 0 1 (some (.ofNat 64 width)) step = .ofNat 64 step := by
  induction step with
  | zero => rfl
  | succ step ih =>
    show (slotWord 0 1 (some _) step + 1) % BitVec.ofNat 64 width = _
    rw [ih (by omega)]
    apply BitVec.eq_of_toNat_eq
    rw [BitVec.toNat_umod, BitVec.toNat_add, BitVec.toNat_ofNat, BitVec.toNat_ofNat,
      BitVec.toNat_ofNat]
    have one : (1 : BitVec 64).toNat = 1 := rfl
    rw [one, Nat.mod_eq_of_lt (show step < 2 ^ 64 by omega),
      Nat.mod_eq_of_lt (show step + 1 < 2 ^ 64 by omega), Nat.mod_eq_of_lt small,
      Nat.mod_eq_of_lt within]

theorem backWord_within : (backWord (some (.ofNat 64 width)) (.ofNat 64 step)).toNat = step := by
  show (BitVec.ofNat 64 step % BitVec.ofNat 64 width).toNat = step
  rw [BitVec.toNat_umod, BitVec.toNat_ofNat, BitVec.toNat_ofNat,
    Nat.mod_eq_of_lt (show step < 2 ^ 64 by omega), Nat.mod_eq_of_lt small, Nat.mod_eq_of_lt within]

end

namespace Launch

variable (launch : Launch)

theorem width_small : launch.laneWidth.toNat < 2 ^ 32 :=
  UInt32.toNat_lt launch.laneWidth

theorem count_small : launch.count < 2 ^ 60 := by
  have fits := launch.fits
  unfold count
  omega

theorem count_pos : 0 < launch.count :=
  Nat.mul_pos launch.occupied launch.wide

theorem width_le_count : launch.laneWidth.toNat ≤ launch.count :=
  Nat.le_mul_of_pos_left _ launch.occupied

theorem steps : ((BitVec.ofNat 64 launch.count + .ofNat 64 (launch.laneWidth.toNat - 1)) /
    BitVec.ofNat 64 launch.laneWidth.toNat).toNat = launch.groups := by
  have width := launch.width_small
  have count := launch.count_small
  have wide := launch.wide
  rw [BitVec.toNat_udiv, ← BitVec.ofNat_add, BitVec.toNat_ofNat, BitVec.toNat_ofNat,
    Nat.mod_eq_of_lt (by omega), Nat.mod_eq_of_lt (by omega)]
  unfold Launch.count
  rw [add_comm, Nat.add_mul_div_right _ _ wide, Nat.div_eq_of_lt (by omega), zero_add]

end Launch

def base (laneWidth lane : Nat) : Nat := lane / laneWidth * laneWidth

section Values

variable {folding : Folding} (buffers : Buffers folding.stated) (launch : Launch)

theorem staged_eq (lane : Nat) : folding.staged buffers launch.laneWidth launch.count lane =
      folded folding.combines folding.seed (fun step => folding.contributes buffers
          (.ofNat 64 (lane + launch.laneWidth.toNat * step))) launch.groups := by
  unfold Folding.staged
  rw [launch.steps]
  congr 1
  funext step
  rw [slotWord_linear]

theorem sequential_eq {lane : Nat} (small : lane < 2 ^ 60) : folding.sequential buffers lane =
      folded folding.combines folding.seed
        (fun step => folding.contributes buffers (.ofNat 64 step)) (lane + 1) := by
  unfold Folding.sequential
  have stop : (BitVec.ofNat 64 lane + 1).toNat = lane + 1 := by
    rw [BitVec.toNat_add, BitVec.toNat_ofNat]
    have one : (1 : BitVec 64).toNat = 1 := rfl
    rw [one, Nat.mod_eq_of_lt (by omega), Nat.mod_eq_of_lt (by omega)]
  congr 1
  funext step
  have linear := slotWord_linear 0 1 step
  rw [zero_add, one_mul] at linear
  exact congrArg _ linear

theorem restored_eq (slices : Slices) : folding.restored slices launch.laneWidth 0 =
      folded folding.combines folding.seed (slices 0) launch.laneWidth.toNat := by
  have width := launch.width_small
  unfold Folding.restored
  have bound : (BitVec.ofNat 64 launch.laneWidth.toNat).toNat = launch.laneWidth.toNat := by
    rw [BitVec.toNat_ofNat, Nat.mod_eq_of_lt (by omega)]
  rw [bound]
  apply folded_congr
  intro step within
  rw [slotWord_within (by omega) within, backWord_within (by omega) within]
  rfl

variable (folding) in
theorem combines_number (left right : Traced) : (folding.combines left right).number =
      Number.bin folding.stated folding.combine left.number right.number := rfl

theorem folded_elements (values : Nat → Traced) (count element : Nat) :
    element ∈ (folded folding.combines folding.seed values count).elements ↔
      ∃ step < count, element ∈ (values step).elements := by
  induction count with
  | zero =>
    show element ∈ ([] : List Nat) ↔ _
    simp
  | succ count ih =>
    show element ∈ [folded folding.combines folding.seed values count, values count].flatMap
      Traced.elements ↔ _
    simp only [flatMap_cons, flatMap_nil, append_nil, mem_append, ih]
    constructor
    · rintro (⟨step, inside, member⟩ | member)
      · exact ⟨step, Nat.lt_succ_of_lt inside, member⟩
      · exact ⟨count, Nat.lt_succ_self count, member⟩
    · rintro ⟨step, inside, member⟩
      by_cases last : step = count
      · subst last
        exact .inr member
      · exact .inl ⟨step, by omega, member⟩

/-- What a lane of a tiled launch stores: the fold of what its group staged. -/
noncomputable def tileValue (folding : Folding) (buffers : Buffers folding.stated)
    (launch : Launch) (lane : Nat) : Traced :=
  folded folding.combines folding.seed
    (fun slot => folding.staged buffers launch.laneWidth launch.count
      (base launch.laneWidth.toNat lane + slot)) launch.laneWidth.toNat

/-- The number a tiled lane stores is the fold of as many elements as the launch counts, from its
group's first lane on. -/
theorem tileValue_number (licensed : Licensed folding.combine)
    (kept : Number.bin folding.stated folding.combine folding.seed.number folding.seed.number =
      folding.seed.number) (lane : Nat) :
    (tileValue folding buffers launch lane).number =
      folded (Number.bin folding.stated folding.combine) folding.seed.number
        (fun step => (folding.contributes buffers
          (.ofNat 64 (base launch.laneWidth.toNat lane + step))).number) launch.count := by
  have := licensed.associative folding.stated
  have := licensed.commutative folding.stated
  have inner : ∀ slot, (folding.staged buffers launch.laneWidth launch.count
      (base launch.laneWidth.toNat lane + slot)).number =
        folded (Number.bin folding.stated folding.combine) folding.seed.number
          (fun step => (folding.contributes buffers (.ofNat 64 (base launch.laneWidth.toNat lane +
            (slot + launch.laneWidth.toNat * step)))).number) launch.groups := by
    intro slot
    rw [staged_eq, folded_map Traced.number (combines_number folding)]
    simp only [add_assoc]
  unfold tileValue
  rw [folded_map Traced.number (combines_number folding)]
  simp only [inner]
  rw [folded_strided kept fun step => (folding.contributes buffers
    (.ofNat 64 (base launch.laneWidth.toNat lane + step))).number, mul_comm]
  rfl

theorem tileValue_elements (reads : folding.element.readsBuffer) {lane : Nat}
    (inside : lane < launch.count) (element : Nat) :
    element ∈ (tileValue folding buffers launch lane).elements ↔
      folding.usesElement ∧ ∃ slot < launch.laneWidth.toNat, ∃ step < launch.groups,
        element = base launch.laneWidth.toNat lane + slot + launch.laneWidth.toNat * step := by
  have small := launch.count_small
  have below : base launch.laneWidth.toNat lane ≤ lane := Nat.div_mul_le_self _ _
  have width := launch.width_small
  have address : ∀ slot < launch.laneWidth.toNat, ∀ step < launch.groups,
      (BitVec.ofNat 64 (base launch.laneWidth.toNat lane + slot +
        launch.laneWidth.toNat * step)).toNat =
      base launch.laneWidth.toNat lane + slot + launch.laneWidth.toNat * step := by
    intro slot within step taken
    have product : launch.laneWidth.toNat * step ≤ launch.count := by
      unfold Launch.count
      rw [mul_comm launch.groups]
      exact Nat.mul_le_mul_left _ (le_of_lt taken)
    rw [BitVec.toNat_ofNat, Nat.mod_eq_of_lt (by omega)]
  unfold tileValue
  rw [folded_elements]
  constructor
  · rintro ⟨slot, within, member⟩
    rw [staged_eq, folded_elements] at member
    obtain ⟨step, taken, member⟩ := member
    rw [contributes_elements buffers reads, address slot within step taken] at member
    exact ⟨member.1, slot, within, step, taken, member.2⟩
  · rintro ⟨uses, slot, within, step, taken, same⟩
    refine ⟨slot, within, ?_⟩
    rw [staged_eq, folded_elements]
    refine ⟨step, taken, ?_⟩
    rw [contributes_elements buffers reads, address slot within step taken]
    exact ⟨uses, same⟩

end Values

section Traces

variable {stated : ScalarClass} {buffers : Buffers stated} {slices : Slices}

theorem LaneRuns.unique {body : KernelBody} {count lane : Nat} {trace other : List (Event Traced)}
    (runs : LaneRuns buffers slices body count lane trace)
    (again : LaneRuns buffers slices body count lane other) : trace = other := by
  obtain ⟨values, ends⟩ := runs
  obtain ⟨values', ends'⟩ := again
  exact congrArg Prod.snd (KernelBody.Returns.unique ends ends')

theorem stored_none {position address : Nat} {events : List (Event Traced)}
    (quiet : ∀ event ∈ events, event.op = .bufferReadCall stated ∨ event.op = .sliceReadCall stated ∨
      event.op = .sliceWriteCall stated) :
    events.filterMap (storedBy position address) = [] := by
  apply filterMap_eq_nil_iff.2
  rintro ⟨op, operands⟩ member
  rcases quiet _ member with rfl | rfl | rfl <;> rfl

theorem staged_none {ordinal slot : Nat} {events : List (Event Traced)}
    (quiet : ∀ event ∈ events, event.op = .bufferReadCall stated ∨ event.op = .sliceReadCall stated ∨
      event.op = .bufferWriteCall stated) :
    events.filterMap (stagedBy ordinal slot) = [] := by
  apply filterMap_eq_nil_iff.2
  rintro ⟨op, operands⟩ member
  rcases quiet _ member with rfl | rfl | rfl <;> rfl

theorem range_one {α : Type} (value : Nat → α) (count at_ : Nat) :
    ((List.range count).flatMap fun lane => if lane = at_ then [value lane] else []) =
      if at_ < count then [value at_] else [] := by
  induction count with
  | zero => rfl
  | succ count ih =>
    rw [range_succ, flatMap_append, ih, flatMap_singleton]
    rcases Nat.lt_trichotomy at_ count with before | rfl | beyond
    · rw [if_pos before, if_neg (ne_of_gt before), if_pos (by omega), append_nil]
    · rw [if_neg (lt_irrefl _), if_pos rfl, if_pos (Nat.lt_succ_self _), nil_append]
    · rw [if_neg (by omega), if_neg (ne_of_lt beyond), if_neg (by omega)]
      rfl

end Traces

section Launched

variable {folding : Folding} (folds : FoldsBuffer folding) (buffers : Buffers folding.stated)
  (launch : Launch)

/-- The body a tiled fold builds over slice zero. -/
def tiledBody (folding : Folding) (laneWidth : UInt32) : KernelBody :=
  (folding.tile laneWidth 0 (Builder.new folding.stated)).2.body

variable {lane slot : Nat}

theorem base_lt (inside : lane < launch.count) (within : slot < launch.laneWidth.toNat) :
    base launch.laneWidth.toNat lane + slot < launch.count := by
  have group : lane / launch.laneWidth.toNat < launch.groups :=
    Nat.div_lt_of_lt_mul (by rw [mul_comm]; exact inside)
  calc base launch.laneWidth.toNat lane + slot
      < (lane / launch.laneWidth.toNat + 1) * launch.laneWidth.toNat := by
        unfold base
        rw [Nat.succ_mul]
        omega
    _ ≤ launch.count := Nat.mul_le_mul_right _ group

theorem ofNat_lane {lane : Nat} (inside : lane < launch.count) :
    (BitVec.ofNat 64 lane).toNat = lane := by
  have small := launch.count_small
  rw [BitVec.toNat_ofNat, Nat.mod_eq_of_lt (by omega)]

theorem stagedBy_eq (inside : lane < launch.count) (value : Traced) :
    stagedBy 0 slot ⟨.sliceWriteCall folding.stated, [.plain (.word (.ofNat 64 0)),
      .plain (.word (.ofNat 64 lane % .ofNat 64 launch.laneWidth.toNat)), value]⟩ =
      if lane % launch.laneWidth.toNat = slot then some value else none := by
  have width := launch.width_small
  have into : (BitVec.ofNat 64 lane % BitVec.ofNat 64 launch.laneWidth.toNat).toNat =
      lane % launch.laneWidth.toNat := by
    rw [BitVec.toNat_umod, ofNat_lane launch inside, BitVec.toNat_ofNat,
      Nat.mod_eq_of_lt (show launch.laneWidth.toNat < 2 ^ 64 by omega)]
  show (if (BitVec.ofNat 64 0).toNat = 0 ∧
    (BitVec.ofNat 64 lane % BitVec.ofNat 64 launch.laneWidth.toNat).toNat = slot then _ else _) = _
  rw [into]
  simp

theorem storedBy_eq {lane address : Nat} (inside : lane < launch.count) (value : Traced) :
    storedBy 0 address ⟨.bufferWriteCall folding.stated,
      [.plain (.word 0), .plain (.word (.ofNat 64 lane)), value]⟩ =
      if lane = address then some value else none := by
  show (if (0 : BitVec 64).toNat = 0 ∧ (BitVec.ofNat 64 lane).toNat = address then _ else _) = _
  rw [ofNat_lane launch inside]
  simp

include folds

variable {slices : Slices}

/-- What a lane leaves of its group's slice, before any of it is read back. -/
theorem lane_staged {lane : Nat} (inside : lane < launch.count) {trace : List (Event Traced)}
    (runs : LaneRuns buffers slices (tiledBody folding launch.laneWidth) launch.count lane trace)
    (slot : Nat) :
    (trace.takeWhile fun event => !readsSlice event).filterMap (stagedBy 0 slot) =
      if lane % launch.laneWidth.toNat = slot then
        [folding.staged buffers launch.laneWidth launch.count lane] else [] := by
  obtain ⟨names, built⟩ := tiled_built folds buffers slices launch.laneWidth 0
  obtain ⟨events, more, again, quiet, reads⟩ := built.runs folds.reads launch.count lane
  rw [runs.unique again, append_assoc, append_assoc, ← append_assoc]
  rw [takeWhile_append_of_pos, filterMap_append, filterMap_append]
  · rw [staged_none fun event member => .inl (quiet event member)]
    have rest : ∀ last : Event Traced, last.op = .bufferWriteCall folding.stated →
        ((more ++ [last]).takeWhile fun event => !readsSlice event).filterMap
          (stagedBy 0 slot) = [] := by
      intro last stores
      apply staged_none
      intro event member
      rcases mem_append.1 (takeWhile_subset _ member) with member | member
      · exact .inr (.inl (reads event member))
      · rw [mem_singleton.1 member]
        exact .inr (.inr stores)
    rw [rest _ rfl, append_nil, nil_append, filterMap_cons, stagedBy_eq launch inside,
      filterMap_nil]
    by_cases same : lane % launch.laneWidth.toNat = slot
    · rw [if_pos same, if_pos same]
    · rw [if_neg same, if_neg same]
  · intro event member
    rcases mem_append.1 member with member | member
    · unfold readsSlice
      rw [quiet event member]
      rfl
    · rw [mem_singleton.1 member]
      rfl

theorem group_staged {staging : Nat → List (Event Traced)}
    (runs : ∀ lane < launch.count, LaneRuns buffers slices (tiledBody folding launch.laneWidth)
      launch.count lane (staging lane)) (inside : lane < launch.count)
    (within : slot < launch.laneWidth.toNat) :
    stagedSlices ((groupOf launch.laneWidth.toNat lane).map staging) 0 slot =
      folding.staged buffers launch.laneWidth launch.count
        (base launch.laneWidth.toNat lane + slot) := by
  unfold stagedSlices groupOf
  have lanes : ((((List.range launch.laneWidth.toNat).map fun offset =>
        lane / launch.laneWidth.toNat * launch.laneWidth.toNat + offset).map staging).flatMap
      fun trace => trace.takeWhile fun event => !readsSlice event).filterMap (stagedBy 0 slot) =
      (List.range launch.laneWidth.toNat).flatMap fun offset => if offset = slot then
        [folding.staged buffers launch.laneWidth launch.count
          (base launch.laneWidth.toNat lane + offset)] else [] := by
    rw [map_map, flatMap_map, filterMap_flatMap]
    apply flatMap_congr
    intro offset member
    have short := mem_range.1 member
    have lt := base_lt launch inside short
    have own := lane_staged folds buffers launch lt (runs _ lt) slot
    have slots : (base launch.laneWidth.toNat lane + offset) % launch.laneWidth.toNat = offset := by
      unfold base
      rw [Nat.mul_add_mod_self_right, Nat.mod_eq_of_lt short]
    rw [slots] at own
    exact own
  rw [lanes, range_one (fun offset => folding.staged buffers launch.laneWidth launch.count
    (base launch.laneWidth.toNat lane + offset)), if_pos within]
  rfl

theorem lane_stored {lane : Nat} (inside : lane < launch.count) {trace : List (Event Traced)}
    (runs : LaneRuns buffers slices (tiledBody folding launch.laneWidth) launch.count lane trace)
    (staged : ∀ slot < launch.laneWidth.toNat, slices 0 slot =
      folding.staged buffers launch.laneWidth launch.count
        (base launch.laneWidth.toNat lane + slot)) (address : Nat) :
    trace.filterMap (storedBy 0 address) =
      if lane = address then [tileValue folding buffers launch lane] else [] := by
  obtain ⟨names, built⟩ := tiled_built folds buffers slices launch.laneWidth 0
  obtain ⟨events, more, again, quiet, reads⟩ := built.runs folds.reads launch.count lane
  have value : folding.restored slices launch.laneWidth 0 =
      tileValue folding buffers launch lane := by
    rw [restored_eq]
    exact folded_congr staged
  rw [runs.unique again, filterMap_append, stored_none, nil_append, filterMap_cons,
    storedBy_eq launch inside, filterMap_nil, value]
  · by_cases same : lane = address
    · rw [if_pos same, if_pos same]
    · rw [if_neg same, if_neg same]
  · intro event member
    rcases mem_append.1 member with member | member
    · rcases mem_append.1 member with member | member
      · exact .inl (quiet event member)
      · rw [mem_singleton.1 member]
        exact .inr (.inr rfl)
    · exact .inr (.inl (reads event member))

/-- A tiled launch stores at each of its addresses the fold of what the lane's group staged. -/
theorem stores_tiled (address : Nat) (value : Traced) :
    Stores buffers launch (tiledBody folding launch.laneWidth) 0 address value ↔
      address < launch.count ∧ value = tileValue folding buffers launch address := by
  have stored : ∀ staging traces : Nat → List (Event Traced),
      (∀ lane < launch.count, LaneRuns buffers (fun _ _ => default)
        (tiledBody folding launch.laneWidth) launch.count lane (staging lane)) →
      (∀ lane < launch.count, LaneRuns buffers
        (stagedSlices ((groupOf launch.laneWidth.toNat lane).map staging))
        (tiledBody folding launch.laneWidth) launch.count lane (traces lane)) →
      (((List.range launch.count).flatMap traces).filterMap (storedBy 0 address)) =
        if address < launch.count then [tileValue folding buffers launch address] else [] := by
    intro staging traces first second
    rw [filterMap_flatMap, ← range_one]
    apply flatMap_congr
    intro lane member
    have inside := mem_range.1 member
    exact lane_stored folds buffers launch inside (second lane inside)
      (fun slot within => group_staged folds buffers launch first inside within) address
  constructor
  · rintro ⟨staging, traces, first, second, last⟩
    rw [stored staging traces first second] at last
    by_cases inside : address < launch.count
    · rw [if_pos inside] at last
      exact ⟨inside, (Option.some.inj last).symm⟩
    · rw [if_neg inside] at last
      cases last
  · rintro ⟨inside, rfl⟩
    have some : ∀ (slices : Slices) (lane : Nat), ∃ trace, LaneRuns buffers slices
        (tiledBody folding launch.laneWidth) launch.count lane trace := by
      intro slices lane
      obtain ⟨names, built⟩ := tiled_built folds buffers slices launch.laneWidth 0
      obtain ⟨events, more, runs, -, -⟩ := built.runs folds.reads launch.count lane
      exact ⟨_, runs⟩
    choose trace runs using some
    refine ⟨trace fun _ _ => default, fun lane => trace (stagedSlices
      ((groupOf launch.laneWidth.toNat lane).map (trace fun _ _ => default))) lane,
      fun lane _ => runs _ lane, fun lane _ => runs _ lane, ?_⟩
    rw [stored _ _ (fun lane _ => runs _ lane) (fun lane _ => runs _ lane), if_pos inside]
    rfl

/-- A per-lane launch stores at each of its addresses the fold up to it. -/
theorem stores_perLane {address : Nat} (inside : address < launch.count) :
    Stores buffers launch folding.perLane 0 address (folding.sequential buffers address) := by
  have some : ∀ (slices : Slices) (lane : Nat), ∃ events, LaneRuns buffers slices folding.perLane
      launch.count lane (events ++ [⟨.bufferWriteCall folding.stated, [.plain (.word 0),
        .plain (.word (.ofNat 64 lane)), folding.sequential buffers lane]⟩]) ∧
      ∀ event ∈ events, event.op = .bufferReadCall folding.stated := by
    intro slices lane
    obtain ⟨names, built⟩ := perLane_built folds buffers slices
    exact built.runs folds.reads launch.count lane
  choose events runs quiet using some
  refine ⟨fun lane => _, fun lane => _, fun lane _ => runs _ lane, fun lane _ => runs _ lane, ?_⟩
  have stored : ∀ lane ∈ List.range launch.count, ∀ slices,
      List.filterMap (storedBy 0 address) (events slices lane ++
        [⟨.bufferWriteCall folding.stated, [.plain (.word 0), .plain (.word (.ofNat 64 lane)),
          folding.sequential buffers lane]⟩]) =
        if lane = address then [folding.sequential buffers lane] else [] := by
    intro lane member slices
    rw [filterMap_append, stored_none fun event member => .inl (quiet slices lane event member),
      nil_append, filterMap_cons, storedBy_eq launch (mem_range.1 member),
      filterMap_nil]
    by_cases same : lane = address
    · rw [if_pos same, if_pos same]
    · rw [if_neg same, if_neg same]
  rw [filterMap_flatMap, flatMap_congr fun lane member => stored lane member _,
    range_one fun lane => folding.sequential buffers lane, if_pos inside]
  rfl

end Launched

theorem Folding.new_ok {reduction : Reduction F64} {element : Element} {stated : ScalarClass}
    {folding : Folding} (made : Folding.new reduction element stated = .ok folding) :
    ∃ combine datum, lowered reduction.combine = some combine ∧ datumOf element stated = .ok datum ∧
      folding = ⟨combine, stated, .of reduction.identity stated, element, datum⟩ := by
  unfold Folding.new at made
  split at made
  · cases made
  split at made
  · cases made
  rename_i combine some
  dsimp only at made
  split at made
  · cases made
  cases datum : datumOf element stated with
  | error refusal =>
    rw [datum] at made
    cases made
  | ok datum =>
    rw [datum] at made
    cases made
    exact ⟨combine, _, some, rfl, rfl⟩

theorem datumOf_fits {element : Element} {stated : ScalarClass} {datum : List Step}
    (made : datumOf element stated = .ok datum) {position : Nat} {function : Expr F64}
    (source : element = .function position function) :
    stepsFit 0 datum ∧ datum ≠ [] := by
  subst source
  unfold datumOf at made
  dsimp only at made
  split at made
  · rename_i steps compiled
    cases made
    exact compile_fits compiled
  · cases made

theorem tiled_ok (folding : Folding) (launch : Launch) : ∃ tiled,
    folding.tiled launch.laneWidth 0 = .ok tiled ∧ tiled.body = tiledBody folding launch.laneWidth := by
  have some : launch.laneWidth ≠ 0 := by
    intro zero
    have wide := launch.wide
    rw [zero] at wide
    exact lt_irrefl _ wide
  unfold Folding.tiled tiledBody
  rw [if_neg some]
  generalize folding.tile launch.laneWidth 0 (Builder.new folding.stated) = built
  exact ⟨_, rfl, rfl⟩

theorem base_last (launch : Launch) : base launch.laneWidth.toNat (launch.count - 1) =
      (launch.groups - 1) * launch.laneWidth.toNat := by
  have wide := launch.wide
  have occupied := launch.occupied
  unfold base Launch.count
  obtain ⟨groups, same⟩ : ∃ groups, launch.groups = groups + 1 := ⟨launch.groups - 1, by omega⟩
  rw [same, Nat.succ_mul, Nat.add_sub_cancel, Nat.add_sub_assoc wide, add_comm,
    Nat.add_mul_div_right _ _ wide, Nat.div_eq_of_lt (by omega), zero_add]

/-- **A tiled fold answers the per-lane fold where the launch is one group**, or where the datum
function never uses the element it reads. The lanes of a later group start at their own index and
take the steps of the whole launch, so they fold addresses past its count. -/
theorem tiled_answers_per_lane {reduction : Reduction F64} {element : Element}
    {stated : ScalarClass} {folding : Folding}
    (made : Folding.new reduction element stated = .ok folding)
    (unit : declaresUnit reduction = true) (reads : element.readsBuffer = true)
    (buffers : Buffers folding.stated) (launch : Launch) :
    Agrees folding buffers launch ↔ launch.groups = 1 ∨ folding.usesElement = false := by
  obtain ⟨combine, datum, some, compiled, same⟩ := Folding.new_ok made
  obtain ⟨licensed, kept⟩ := seed_kept unit some stated
  have folds : FoldsBuffer folding := by
    subst same
    exact ⟨reads, fun position function source => datumOf_fits compiled source⟩
  have combines : Licensed folding.combine := by
    subst same
    exact licensed
  have seeds : Number.bin folding.stated folding.combine folding.seed.number folding.seed.number =
      folding.seed.number := by
    subst same
    exact kept
  obtain ⟨tiled, built, body⟩ := tiled_ok folding launch
  have last : launch.count - 1 < launch.count := Nat.sub_lt launch.count_pos Nat.one_pos
  have small := launch.count_small
  constructor
  · intro agrees
    by_contra neither
    rw [not_or, Bool.not_eq_false] at neither
    obtain ⟨several, uses⟩ := neither
    have stored := (stores_tiled folds buffers launch _ _).2 ⟨last, rfl⟩
    rw [← body] at stored
    -- The first lane of the last group reads the address of the count in its second step.
    have beyond := agrees.within tiled built _ _ stored launch.count
      ((tileValue_elements buffers launch folds.reads last _).2
        ⟨uses, 0, launch.wide, 1, by have := launch.occupied; omega, by
          rw [base_last, add_zero, mul_one, ← Nat.succ_mul]
          have occupied := launch.occupied
          unfold Launch.count
          congr 1
          omega⟩)
    exact lt_irrefl _ beyond
  · intro condition
    constructor
    · refine ⟨tiled, tileValue folding buffers launch (launch.count - 1), _, built, ?_,
        stores_perLane folds buffers launch last, ?_⟩
      · rw [body]
        exact (stores_tiled folds buffers launch _ _).2 ⟨last, rfl⟩
      · rw [tileValue_number buffers launch combines seeds, sequential_eq buffers (by omega),
          folded_map Traced.number (combines_number folding), Nat.sub_add_cancel launch.count_pos]
        apply folded_congr
        intro step _
        rcases condition with one | unused
        · rw [base_last, one, Nat.sub_self, zero_mul, zero_add]
        · rw [contributes_same buffers folds.reads unused _ (.ofNat 64 step)]
    · intro tiled' built' address stored stores entered member
      cases built.symm.trans built'
      rw [body, stores_tiled folds buffers launch] at stores
      obtain ⟨inside, rfl⟩ := stores
      obtain ⟨uses, slot, within, step, taken, rfl⟩ :=
        (tileValue_elements buffers launch folds.reads inside entered).1 member
      rcases condition with one | unused
      · have first : base launch.laneWidth.toNat address = 0 := by
          have width : launch.count = launch.laneWidth.toNat := by
            unfold Launch.count
            rw [one, one_mul]
          unfold base
          rw [Nat.div_eq_of_lt (by omega), zero_mul]
        have none : step = 0 := by omega
        have atMost := launch.width_le_count
        rw [first, none, mul_zero]
        omega
      · rw [unused] at uses
        cases uses

def sumReduction : Reduction F64 where
  combine := .add
  identity := F64.zero

def sumFolding : Folding :=
  ⟨.add, .int, .of F64.zero .int, .buffer 0, []⟩

def sumContents : Buffers .int := fun _ address =>
  if address = 0 then (5 : BitVec 64) else if address = 1 then (7 : BitVec 64) else (0 : BitVec 64)

def twoGroups : Launch := ⟨1, 2, by decide, by decide, by decide⟩
def oneGroup : Launch := ⟨2, 1, by decide, by decide, by decide⟩

theorem tiled_answers_one_group : Agrees sumFolding sumContents oneGroup :=
  (tiled_answers_per_lane (show Folding.new sumReduction (.buffer 0) .int = .ok sumFolding from rfl)
    rfl rfl sumContents oneGroup).2 (.inl rfl)

/-- The second group of a sum over two lanes reads the address past them, and stores `7` where the
per-lane fold stores `12`. -/
theorem second_group_reads_past : ¬ Agrees sumFolding sumContents twoGroups ∧
    (tileValue sumFolding sumContents twoGroups 1).number.bits = 7 ∧
    (sumFolding.sequential sumContents 1).number.bits = 12 := by
  refine ⟨?_, by decide +kernel, by decide +kernel⟩
  intro agrees
  have folds : FoldsBuffer sumFolding := ⟨rfl, fun _ _ source => by cases source⟩
  obtain ⟨tiled, built, body⟩ := tiled_ok sumFolding twoGroups
  have stored := (stores_tiled folds sumContents twoGroups 1 _).2 ⟨by decide, rfl⟩
  rw [← body] at stored
  have reads : sumFolding.element.readsBuffer = true := rfl
  have entered : 2 ∈ (tileValue sumFolding sumContents twoGroups 1).elements :=
    (@tileValue_elements sumFolding sumContents twoGroups reads 1 (by decide) 2).2
      ⟨rfl, 0, by decide, 1, by decide, by decide⟩
  exact absurd (agrees.within tiled built 1 _ stored 2 entered) (by decide)

end LichenVm.FusionBridge
