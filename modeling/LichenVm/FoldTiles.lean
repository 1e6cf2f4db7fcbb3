import LichenVm.FoldLanes
import Mathlib.Data.List.GetD

open List

namespace LichenVm.FusionBridge

open Fusion KernelIr Reassociation

/-- The operators a fold may combine with. -/
inductive Licensed : KernelBin → Prop
  | add : Licensed .add
  | mul : Licensed .mul
  | max : Licensed .max
  | min : Licensed .min

namespace Licensed

variable {op : KernelBin} (licensed : Licensed op)

include licensed

theorem words : ∃ f : BitVec 64 → BitVec 64 → BitVec 64, Std.Associative f ∧ Std.Commutative f ∧
    ∀ left right, Number.wordBin left right op = .word (f left right) := by
  cases licensed with
  | add => exact ⟨_, ⟨BitVec.add_assoc⟩, ⟨BitVec.add_comm⟩, fun _ _ => rfl⟩
  | mul => exact ⟨_, ⟨BitVec.mul_assoc⟩, ⟨BitVec.mul_comm⟩, fun _ _ => rfl⟩
  | max =>
    refine ⟨fun left right => if right < left then left else right, ⟨?_⟩, ⟨?_⟩, fun _ _ => rfl⟩
    · intro first second third
      by_cases one : second < first <;> by_cases two : third < second <;>
        by_cases three : third < first <;> simp [one, two, three] <;> bv_omega
    · intro first second
      by_cases one : second < first <;> by_cases two : first < second <;>
        simp [one, two] <;> bv_omega
  | min =>
    refine ⟨fun left right => if left < right then left else right, ⟨?_⟩, ⟨?_⟩, fun _ _ => rfl⟩
    · intro first second third
      by_cases one : first < second <;> by_cases two : second < third <;>
        by_cases three : first < third <;> simp [one, two, three] <;> bv_omega
    · intro first second
      by_cases one : first < second <;> by_cases two : second < first <;>
        simp [one, two] <;> bv_omega

theorem exacts : ∃ f : EReal → EReal → EReal, Std.Associative f ∧ Std.Commutative f ∧
    ∀ left right, Number.exactBin left right op = .exact (f left right) := by
  cases licensed with
  | add => exact ⟨_, ⟨add_assoc⟩, ⟨add_comm⟩, fun _ _ => rfl⟩
  | mul => exact ⟨_, ⟨mul_assoc⟩, ⟨mul_comm⟩, fun _ _ => rfl⟩
  | max =>
    refine ⟨_, ⟨max_assoc⟩, ⟨max_comm⟩, fun left right => ?_⟩
    unfold Number.exactBin
    by_cases less : right < left
    · rw [if_pos less, max_eq_left (le_of_lt less)]
    · rw [if_neg less, max_eq_right (le_of_not_gt less)]
  | min =>
    refine ⟨_, ⟨min_assoc⟩, ⟨min_comm⟩, fun left right => ?_⟩
    unfold Number.exactBin
    by_cases less : left < right
    · rw [if_pos less, min_eq_left (le_of_lt less)]
    · rw [if_neg less, min_eq_right (le_of_not_gt less)]

theorem associative (stated : ScalarClass) : Std.Associative (Number.bin stated op) := by
  obtain ⟨f, ⟨wordAssoc⟩, -, words⟩ := licensed.words
  obtain ⟨g, ⟨exactAssoc⟩, -, exacts⟩ := licensed.exacts
  refine ⟨fun first second third => ?_⟩
  cases stated <;> cases first <;> cases second <;> cases third <;>
    simp [Number.bin, words, exacts, wordAssoc, exactAssoc]

theorem commutative (stated : ScalarClass) : Std.Commutative (Number.bin stated op) := by
  obtain ⟨f, -, ⟨wordComm⟩, words⟩ := licensed.words
  obtain ⟨g, -, ⟨exactComm⟩, exacts⟩ := licensed.exacts
  refine ⟨fun first second => ?_⟩
  cases stated <;> cases first <;> cases second <;> simp [Number.bin, words, exacts]
  · exact wordComm _ _
  · exact exactComm _ _
  · exact exactComm _ _

end Licensed

theorem single_zero : single 0 = 0 := by
  simp [single]

theorem single_negZero : single 0x80000000 = 0 := by
  simp [single]

theorem single_one : single 0x3F800000 = 1 := by
  have exponent : (0x3F800000 : BitVec 32).toNat / 2 ^ 23 % 2 ^ 8 = 127 := by decide
  have fraction : (0x3F800000 : BitVec 32).toNat % 2 ^ 23 = 0 := by decide
  have positive : (0x3F800000 : BitVec 32).msb = false := by decide
  unfold single
  rw [exponent, fraction, positive]
  norm_num

/-- A fold that starts from its combine's unit starts from a value its combine keeps. -/
theorem seed_kept {reduction : Reduction F64} (unit : declaresUnit reduction)
    {combine : KernelBin} (some : lowered reduction.combine = some combine) (stated : ScalarClass) :
    Licensed combine ∧
      let seed := Number.literal (Identity.of reduction.identity stated).bits stated
      Number.bin stated combine seed seed = seed := by
  obtain ⟨operator, identity⟩ := reduction
  have idempotent : ∀ op, (∀ word, Number.wordBin word word op = .word word) →
      (∀ value, Number.exactBin value value op = .exact value) →
      let seed := Number.literal (Identity.of identity stated).bits stated
      Number.bin stated op seed seed = seed := by
    intro op words exacts
    cases stated with
    | int => exact words _
    | float => exact exacts _
    | bFloat16 => exact exacts _
  cases operator with
  | add =>
    cases some
    refine ⟨.add, ?_⟩
    have zero : ∀ bits : BitVec 64, bits.setWidth 32 = 0 ∨ bits.setWidth 32 = 0x80000000 →
        single (bits.setWidth 32) = 0 := by
      rintro bits (same | same)
      · rw [same, single_zero]
      · rw [same, single_negZero]
    simp only [declaresUnit, Bool.or_eq_true, beq_iff_eq] at unit
    have real : single (((F64.asF32 identity).setWidth 64).setWidth 32) = 0 := by
      apply zero
      rcases unit with rfl | rfl
      · exact .inl (by decide)
      · exact .inr (by decide)
    have integer : F64.asI64 identity = 0 := by
      rcases unit with rfl | rfl <;> decide +kernel
    cases stated with
    | int =>
      show Number.word (F64.asI64 identity + F64.asI64 identity) = .word (F64.asI64 identity)
      rw [integer]
      rfl
    | float | bFloat16 =>
      show Number.exact (single (((F64.asF32 identity).setWidth 64).setWidth 32) +
        single (((F64.asF32 identity).setWidth 64).setWidth 32)) = .exact (single _)
      rw [real, add_zero]
      exact congrArg Number.exact real.symm
  | mul =>
    cases some
    refine ⟨.mul, ?_⟩
    simp only [declaresUnit, beq_iff_eq] at unit
    subst unit
    have real : single (((F64.asF32 F64.one).setWidth 64).setWidth 32) = 1 := by
      rw [← single_one]
      congr 1
    cases stated with
    | int => rfl
    | float | bFloat16 =>
      show Number.exact (single (((F64.asF32 F64.one).setWidth 64).setWidth 32) *
        single (((F64.asF32 F64.one).setWidth 64).setWidth 32)) = .exact (single _)
      rw [real, mul_one]
      exact congrArg Number.exact real.symm
  | max =>
    cases some
    refine ⟨.max, idempotent .max ?_ ?_⟩
    · intro word
      simp [Number.wordBin]
    · intro value
      simp [Number.exactBin]
  | min =>
    cases some
    refine ⟨.min, idempotent .min ?_ ?_⟩
    · intro word
      simp [Number.wordBin]
    · intro value
      simp [Number.exactBin]
  | sub => cases unit
  | div => cases unit
  | lessThan => cases unit
  | greaterThan => cases unit
  | lessEqual => cases unit
  | greaterEqual => cases unit
  | equal => cases unit
  | notEqual => cases unit

/-- The values of a datum function's steps hold the datum's elements where the datum enters
them. -/
def Entered (datum : Traced) (values : List Traced) (enters : List Bool) : Prop :=
  values.length = enters.length ∧ ∀ index element, element ∈ (values.getD index default).elements ↔
      enters.getD index false = true ∧ element ∈ datum.elements

/-- Two runs of a datum function agree where the datum does not enter. -/
def Apart (values others : List Traced) (enters : List Bool) : Prop :=
  values.length = enters.length ∧ others.length = enters.length ∧ ∀ index,
    enters.getD index false = false → values.getD index default = others.getD index default

theorem getD_append_one {α : Type} (items : List α) (item fallback : α) (index : Nat) :
    (items ++ [item]).getD index fallback =
      if index = items.length then item else items.getD index fallback := by
  rcases Nat.lt_trichotomy index items.length with before | rfl | beyond
  · rw [if_neg (Nat.ne_of_lt before), getD_append _ _ _ _ before]
  · simp
  · rw [if_neg (Nat.ne_of_gt beyond), getD_eq_default _ _ (Nat.le_of_lt beyond), getD_eq_default]
    rw [length_append, length_singleton]
    exact beyond

theorem Entered.append {datum value : Traced} {values : List Traced} {enters : List Bool}
    {entered : Bool} (before : Entered datum values enters)
    (own : ∀ element, element ∈ value.elements ↔ entered ∧ element ∈ datum.elements) :
    Entered datum (values ++ [value]) (enters ++ [entered]) := by
  refine ⟨by rw [length_append, length_append, before.1]; rfl, ?_⟩
  intro index element
  rw [getD_append_one, getD_append_one, before.1]
  split
  · exact own element
  · exact before.2 index element

theorem Apart.append {value other : Traced} {values others : List Traced} {enters : List Bool}
    {entered : Bool} (before : Apart values others enters)
    (own : entered = false → value = other) :
    Apart (values ++ [value]) (others ++ [other]) (enters ++ [entered]) := by
  refine ⟨by rw [length_append, length_append, before.1]; rfl,
    by rw [length_append, length_append, before.2.1]; rfl, ?_⟩
  intro index
  rw [getD_append_one, getD_append_one, getD_append_one, before.1, before.2.1]
  split
  · exact own
  · exact before.2.2 index

theorem evaluate_entered (stated : ScalarClass) (datum : Traced) (steps : List Step)
    (values : List Traced) (enters : List Bool) (before : Entered datum values enters) :
    Entered datum (evaluate stated datum steps values) (datumEnters steps enters) := by
  induction steps generalizing values enters with
  | nil => exact before
  | cons step steps ih =>
    cases step with
    | datum => exact ih _ _ (before.append fun element => by simp)
    | constant bits => exact ih _ _ (before.append fun element => by simp [Traced.plain])
    | binary operator left right =>
      refine ih _ _ (before.append fun element => ?_)
      have one := before.2 left element
      have two := before.2 right element
      simp only [Traced.meaning, flatMap_cons, flatMap_nil, append_nil,
        mem_append, one, two, Bool.or_eq_true]
      exact or_and_right.symm

theorem evaluate_apart (stated : ScalarClass) (datum other : Traced) (steps : List Step)
    (values others : List Traced) (enters : List Bool) (before : Apart values others enters) :
    Apart (evaluate stated datum steps values) (evaluate stated other steps others)
      (datumEnters steps enters) := by
  induction steps generalizing values others enters with
  | nil => exact before
  | cons step steps ih =>
    cases step with
    | datum => exact ih _ _ _ (before.append fun never => by cases never)
    | constant bits => exact ih _ _ _ (before.append fun _ => rfl)
    | binary operator left right =>
      refine ih _ _ _ (before.append fun neither => ?_)
      rw [Bool.or_eq_false_iff] at neither
      rw [before.2.2 left neither.1, before.2.2 right neither.2]

theorem getLast_getD {α : Type} (items : List α) (fallback : α) :
    items.getLast?.getD fallback = items.getD (items.length - 1) fallback := by
  rw [List.getLast?_eq_getElem?, getD_eq_getElem?_getD]

section Contributes

variable {folding : Folding} (buffers : Buffers folding.stated)
  (reads : folding.element.readsBuffer)

include reads

/-- An element enters what is contributed at its own address, if it is used at all. -/
theorem contributes_elements (address : BitVec 64) (element : Nat) :
    element ∈ (folding.contributes buffers address).elements ↔
      folding.usesElement ∧ element = address.toNat := by
  unfold Folding.contributes Folding.usesElement
  cases source : folding.element with
  | slice ordinal observed | address =>
    rw [source] at reads
    cases reads
  | buffer position =>
    show element ∈ [address.toNat] ↔ true ∧ element = address.toNat
    simp
  | function position function =>
    have entered := evaluate_entered folding.stated
      (fetched buffers (fun _ _ => default) position (.plain (.word address))) folding.datum
      [] [] ⟨rfl, fun index element => by
        simp [getD_eq_getElem?_getD, default]⟩
    show element ∈ ((List.getLast? (evaluate _ _ _ _)).getD default).elements ↔ _
    rw [getLast_getD, entered.1, entered.2]
    rw [getLast_getD]
    show _ ∧ element ∈ [address.toNat] ↔ _
    simp

/-- A datum the element does not enter is one value, whatever the address. -/
theorem contributes_same (unused : folding.usesElement = false) (address other : BitVec 64) :
    folding.contributes buffers address = folding.contributes buffers other := by
  unfold Folding.usesElement at unused
  unfold Folding.contributes
  cases source : folding.element with
  | slice ordinal observed | address =>
    rw [source] at reads
    cases reads
  | buffer position =>
    rw [source] at unused
    cases unused
  | function position function =>
    rw [source] at unused
    have apart := evaluate_apart folding.stated
      (fetched buffers (fun _ _ => default) position (.plain (.word address)))
      (fetched buffers (fun _ _ => default) position (.plain (.word other))) folding.datum
      [] [] [] ⟨rfl, rfl, fun _ _ => rfl⟩
    show (List.getLast? (evaluate _ _ _ _)).getD default =
      (List.getLast? (evaluate _ _ _ _)).getD default
    rw [getLast_getD] at unused
    rw [getLast_getD, getLast_getD, apart.1, apart.2.1]
    exact apart.2.2 _ unused

end Contributes

end LichenVm.FusionBridge
