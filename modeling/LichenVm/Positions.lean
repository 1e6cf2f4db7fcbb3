import LichenVm.KernelFragment
import LichenVm.PlacedTable

/-! The buffer positions a kernel body addresses, tallied as it is emitted. -/

namespace LichenVm.KernelIr

open PlacedTable

/-- The positions recorded so far. The emission count is of writes, and an ordinal may be written more
than once. -/
structure Positions where
  emissions : Nat := 0
  /-- One past the highest input position read. -/
  reads : Nat := 0
  writeClasses : List ScalarClass := []
  readClasses : List (Option ScalarClass) := []
  declaredInputs : List (Option ScalarClass) := []
  elementClass : Option ScalarClass := none

/-- One record of an emission. -/
inductive PositionRecord where
  | read (position : Nat)
  | write (ordinal : Nat) (stated : ScalarClass)

namespace Positions

/-- The tally a body's lowering starts from, with its parameter's roles where it has them. -/
def forParams (roles : Option KernelRoles) : Positions where
  declaredInputs := (roles.map KernelRoles.inputClasses).getD []

/-- The class of a position nothing states one for. -/
def filler (tally : Positions) : ScalarClass :=
  tally.elementClass.getD .int

def declaredInputClass (tally : Positions) (position : Nat) : ScalarClass :=
  (tally.declaredInputs[position]?.join).getD tally.filler

def inputClasses (tally : Positions) (declared : Nat) : List ScalarClass :=
  (List.range (max declared tally.readClasses.length)).map fun position =>
    (tally.readClasses[position]?.join).getD (tally.declaredInputClass position)

/-- Record a read of an input position, and answer its class. -/
def recordRead (tally : Positions) (position : Nat) : Positions × ScalarClass :=
  let stated := tally.declaredInputClass position
  ({ tally with
      reads := max tally.reads (position + 1)
      readClasses := (resize tally.readClasses (position + 1) none).set position (some stated) },
    stated)

def recordWrite (tally : Positions) (ordinal : Nat) (stated : ScalarClass) : Positions :=
  { tally with
    emissions := tally.emissions + 1
    writeClasses := (resize tally.writeClasses (ordinal + 1) tally.filler).set ordinal stated }

def outputClasses (tally : Positions) : List ScalarClass :=
  tally.writeClasses

def record (tally : Positions) : PositionRecord → Positions
  | .read position => (tally.recordRead position).1
  | .write ordinal stated => tally.recordWrite ordinal stated

def recordAll (tally : Positions) (records : List PositionRecord) : Positions :=
  records.foldl record tally

def readsOf (tally : Positions) (records : List PositionRecord) : List (Nat × ScalarClass) :=
  records.filterMap fun
    | .read position => some (position, tally.declaredInputClass position)
    | .write _ _ => none

def writesOf (records : List PositionRecord) : List (Nat × ScalarClass) :=
  records.filterMap fun
    | .read _ => none
    | .write ordinal stated => some (ordinal, stated)

/-- A tally nothing is recorded in yet. -/
def Fresh (tally : Positions) : Prop :=
  tally.writeClasses = [] ∧ tally.readClasses = []

/-- Every position up to the highest holds what was last recorded there, whatever the order. -/
def Tallied (tally : Positions) (records : List PositionRecord) (declared : Nat) : Prop :=
  (tally.recordAll records).inputClasses declared =
      (List.range (max declared (above (tally.readsOf records)))).map (fun position =>
        (lastAt (tally.readsOf records) position).getD (tally.declaredInputClass position)) ∧
    (tally.recordAll records).outputClasses = described tally.filler (writesOf records)

variable {tally : Positions}

theorem recordAll_concat (records : List PositionRecord) (last : PositionRecord) :
    tally.recordAll (records ++ [last]) = (tally.recordAll records).record last := by
  simp [recordAll]

theorem recordAll_states (records : List PositionRecord) :
    (tally.recordAll records).filler = tally.filler ∧
      (tally.recordAll records).declaredInputClass = tally.declaredInputClass := by
  induction records using List.reverseRecOn with
  | nil => exact ⟨rfl, rfl⟩
  | append_singleton records last ih =>
    rw [recordAll_concat]
    cases last with
    | read position => exact ih
    | write ordinal stated => exact ih

section

variable (fresh : tally.Fresh) (records : List PositionRecord)

include fresh records

theorem outputClasses_eq :
    (tally.recordAll records).outputClasses = placed tally.filler (writesOf records) := by
  induction records using List.reverseRecOn with
  | nil => exact fresh.1
  | append_singleton records last ih =>
    rw [recordAll_concat]
    cases last with
    | read position =>
      have same : writesOf (records ++ [.read position]) = writesOf records := by simp [writesOf]
      rw [same]
      exact ih
    | write ordinal stated =>
      have grown : writesOf (records ++ [.write ordinal stated]) =
          writesOf records ++ [(ordinal, stated)] := by simp [writesOf]
      rw [grown, placed_concat, ← ih, ← (recordAll_states records).1]
      rfl

theorem readClasses_length :
    (tally.recordAll records).readClasses.length =
      (placed tally.filler (tally.readsOf records)).length := by
  induction records using List.reverseRecOn with
  | nil =>
    show tally.readClasses.length = 0
    rw [fresh.2]
    rfl
  | append_singleton records last ih =>
    rw [recordAll_concat]
    cases last with
    | read position =>
      have grown : tally.readsOf (records ++ [.read position]) =
          tally.readsOf records ++ [(position, tally.declaredInputClass position)] := by
        simp [readsOf]
      rw [grown, length_placed_concat]
      simp [record, recordRead]
    | write ordinal stated =>
      have same : tally.readsOf (records ++ [.write ordinal stated]) = tally.readsOf records := by
        simp [readsOf]
      rw [same]
      exact ih

/-- A read's entry, where it is held, is its position's declared class. -/
theorem readClasses_declared (position : Nat) :
    ∀ stated, (tally.recordAll records).readClasses[position]?.join = some stated →
      stated = tally.declaredInputClass position := by
  induction records using List.reverseRecOn with
  | nil =>
    intro stated held
    rw [show (tally.recordAll []).readClasses = [] from fresh.2] at held
    cases held
  | append_singleton records last ih =>
    rw [recordAll_concat]
    cases last with
    | write ordinal stated => exact ih
    | read other =>
      intro stated held
      replace held : ((place none (tally.recordAll records).readClasses
          (other, some ((tally.recordAll records).declaredInputClass other)))[position]?).join =
        some stated := held
      rw [getElem?_place, (recordAll_states records).2] at held
      split at held
      · next here =>
        cases held
        rw [here]
      · split at held
        · apply ih
          cases found : (tally.recordAll records).readClasses[position]? with
          | none =>
            rw [found] at held
            cases held
          | some entry =>
            rw [found] at held
            exact held
        · cases held

theorem inputClasses_eq (declared : Nat) :
    (tally.recordAll records).inputClasses declared =
      (List.range (max declared (placed tally.filler (tally.readsOf records)).length)).map
        tally.declaredInputClass := by
  unfold inputClasses
  rw [readClasses_length fresh, (recordAll_states records).2]
  apply List.map_congr_left
  intro position _
  cases held : (tally.recordAll records).readClasses[position]?.join with
  | none => rfl
  | some stated => exact readClasses_declared fresh records position stated held

end

theorem lastAt_readsOf (records : List PositionRecord) (position : Nat) :
    (lastAt (tally.readsOf records) position).getD (tally.declaredInputClass position) =
      tally.declaredInputClass position := by
  induction records using List.reverseRecOn with
  | nil => rfl
  | append_singleton records last ih =>
    cases last with
    | read other =>
      have grown : tally.readsOf (records ++ [.read other]) =
          tally.readsOf records ++ [(other, tally.declaredInputClass other)] := by simp [readsOf]
      rw [grown, lastAt_concat]
      split
      · next here =>
        rw [← here]
        rfl
      · exact ih
    | write ordinal stated =>
      have same : tally.readsOf (records ++ [.write ordinal stated]) = tally.readsOf records := by
        simp [readsOf]
      rw [same]
      exact ih

/-- The tally is right exactly when the declared inputs cover every read or the last read is the
highest, and the last write is the highest and cuts off no class but the one a hole holds. -/
theorem tallied_iff (fresh : tally.Fresh) (records : List PositionRecord) (declared : Nat) :
    tally.Tallied records declared ↔
      (above (tally.readsOf records) ≤ declared ∨ EndsHighest (tally.readsOf records)) ∧
        Kept tally.filler (writesOf records) := by
  unfold Tallied
  rw [outputClasses_eq fresh, placed_eq_described_iff, inputClasses_eq fresh,
    ← @length_placed_iff _ tally.filler]
  refine and_congr ?_ Iff.rfl
  have entries : (List.range (max declared (above (tally.readsOf records)))).map (fun position =>
        (lastAt (tally.readsOf records) position).getD (tally.declaredInputClass position)) =
      (List.range (max declared (above (tally.readsOf records)))).map tally.declaredInputClass :=
    List.map_congr_left fun position _ => lastAt_readsOf records position
  have short : (placed tally.filler (tally.readsOf records)).length ≤ above (tally.readsOf records) :=
    length_placed_le
  rw [entries]
  constructor
  · intro same
    have lengths := congrArg List.length same
    simp only [List.length_map, List.length_range] at lengths
    omega
  · intro covers
    have bound : max declared (placed tally.filler (tally.readsOf records)).length =
        max declared (above (tally.readsOf records)) := by omega
    rw [bound]

theorem ascending_tallied_iff :
    (forParams none).Tallied [.read 0, .write 0 .int, .write 1 .float] 1 ↔
      (above ((forParams none).readsOf [.read 0, .write 0 .int, .write 1 .float]) ≤ 1 ∨
          EndsHighest ((forParams none).readsOf [.read 0, .write 0 .int, .write 1 .float])) ∧
        Kept (forParams none).filler (writesOf [.read 0, .write 0 .int, .write 1 .float]) :=
  tallied_iff ⟨rfl, rfl⟩ _ _

/-- A write of output `0` behind a write of output `1` drops the second output's class. -/
theorem descending_loses : ¬ (forParams none).Tallied [.write 1 .float, .write 0 .int] 0 := by
  intro tallied
  have outputs := tallied.2
  revert outputs
  decide

end Positions

end LichenVm.KernelIr
