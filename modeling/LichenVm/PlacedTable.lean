import Mathlib.Algebra.Order.Ring.Nat
import Mathlib.Data.List.Basic
import Mathlib.Data.List.Range

/-! A table resized to each position an entry is placed at. -/

open List

namespace LichenVm.PlacedTable

variable {α : Type}

/-- A table of the length asked for: cut, or filled up. -/
def resize (table : List α) (length : Nat) (filler : α) : List α :=
  table.take length ++ List.replicate (length - table.length) filler

def place (filler : α) (table : List α) (record : Nat × α) : List α :=
  (resize table (record.1 + 1) filler).set record.1 record.2

def placed (filler : α) (records : List (Nat × α)) : List α :=
  records.foldl (place filler) []

/-- One past the highest position recorded. -/
def above (records : List (Nat × α)) : Nat :=
  records.foldl (fun bound record => max bound (record.1 + 1)) 0

def lastAt (records : List (Nat × α)) (position : Nat) : Option α :=
  (records.reverse.find? fun record => record.1 == position).map Prod.snd

/-- The table the records describe, whatever their order. -/
def described (filler : α) (records : List (Nat × α)) : List α :=
  (List.range (above records)).map fun position => (lastAt records position).getD filler

/-- No record is at a higher position than the last. -/
def EndsHighest (records : List (Nat × α)) : Prop :=
  ∀ before position entry, records = before ++ [(position, entry)] →
    ∀ record ∈ before, record.1 ≤ position

/-- The last record is at the highest position, and an entry that a later record at a lower position
follows is the one a hole holds. -/
def Kept (filler : α) (records : List (Nat × α)) : Prop :=
  EndsHighest records ∧ ∀ before position entry after, records = before ++ (position, entry) :: after →
    (∀ record ∈ after, record.1 ≠ position) → (∃ record ∈ after, record.1 < position) → entry = filler

section Resize

variable {table : List α} {length : Nat} {filler : α}

@[simp] theorem length_resize : (resize table length filler).length = length := by
  simp only [resize, length_append, length_take, length_replicate]
  omega

theorem getElem?_resize {position : Nat} (within : position < length) :
    (resize table length filler)[position]? = some ((table[position]?).getD filler) := by
  unfold resize
  by_cases held : position < table.length
  · rw [getElem?_append_left (by rw [length_take]; omega), getElem?_take_of_lt within,
      getElem?_eq_getElem held]
    rfl
  · have short : (table.take length).length = table.length := by
      rw [length_take]
      omega
    rw [getElem?_append_right (by omega), short, List.getElem?_replicate_of_lt (by omega),
      getElem?_eq_none (by omega)]
    rfl

end Resize

section Place

variable {filler : α} {table : List α}

@[simp] theorem length_place (record : Nat × α) : (place filler table record).length = record.1 + 1 := by
  simp [place]

theorem getElem?_place (record : Nat × α) (position : Nat) :
    (place filler table record)[position]? =
      if position = record.1 then some record.2
      else if position < record.1 then some ((table[position]?).getD filler) else none := by
  unfold place
  rcases Nat.lt_trichotomy position record.1 with below | here | beyond
  · rw [if_neg (by omega), if_pos below, getElem?_set_ne (by omega), getElem?_resize (by omega)]
  · rw [if_pos here, here, getElem?_set_self (by simp)]
  · rw [if_neg (by omega), if_neg (by omega), getElem?_eq_none (by simp; omega)]

end Place

section Records

variable {filler : α} {records : List (Nat × α)} (record : Nat × α)

theorem placed_concat :
    placed filler (records ++ [record]) = place filler (placed filler records) record := by
  simp [placed]

@[simp] theorem above_concat (record : Nat × α) :
    above (records ++ [record]) = max (above records) (record.1 + 1) := by
  simp [above]

theorem above_le {bound : Nat} : above records ≤ bound ↔ ∀ record ∈ records, record.1 < bound := by
  induction records using List.reverseRecOn with
  | nil => simp [above]
  | append_singleton records record ih =>
    rw [above_concat, Nat.max_le, ih]
    constructor
    · rintro ⟨before, last⟩ other member
      rcases mem_append.1 member with inside | inside
      · exact before other inside
      · rw [mem_singleton.1 inside]
        omega
    · intro all
      exact ⟨fun other member => all other (mem_append_left _ member),
        all record (mem_append_right _ (mem_singleton_self record))⟩

theorem lastAt_concat (position : Nat) : lastAt (records ++ [record]) position =
      if record.1 = position then some record.2 else lastAt records position := by
  unfold lastAt
  rw [reverse_append, reverse_singleton, singleton_append, List.find?_cons]
  by_cases here : record.1 = position
  · rw [if_pos here, beq_iff_eq.2 here]
    rfl
  · rw [if_neg here, beq_eq_false_iff_ne.2 here]

theorem length_placed_concat : (placed filler (records ++ [record])).length = record.1 + 1 := by
  rw [placed_concat, length_place]

theorem held_concat (position : Nat) :
    ((placed filler (records ++ [record]))[position]?).getD filler =
      if position = record.1 then record.2
      else if position < record.1 then ((placed filler records)[position]?).getD filler else filler := by
  rw [placed_concat, getElem?_place]
  split
  · rfl
  · split <;> rfl

variable {before after : List (Nat × α)} {position : Nat} {entry : α}

theorem held_behind {record : Nat × α} (apart : record.1 ≠ position) :
    ((placed filler (before ++ (position, entry) :: (after ++ [record])))[position]?).getD filler =
      if position < record.1 then
        ((placed filler (before ++ (position, entry) :: after))[position]?).getD filler
      else filler := by
  have shape : before ++ (position, entry) :: (after ++ [record]) =
      (before ++ (position, entry) :: after) ++ [record] := by simp
  rw [shape, held_concat, if_neg (Ne.symm apart)]

section

variable (last : ∀ record ∈ after, record.1 ≠ position)

include last

theorem held_after :
    ((placed filler (before ++ (position, entry) :: after))[position]?).getD filler = entry ∨
    (∃ record ∈ after, record.1 < position) ∧
      ((placed filler (before ++ (position, entry) :: after))[position]?).getD filler = filler := by
  induction after using List.reverseRecOn with
  | nil =>
    left
    rw [held_concat, if_pos rfl]
  | append_singleton after record ih =>
    have apart := last record (by simp)
    rw [held_behind apart]
    by_cases beyond : position < record.1
    · rw [if_pos beyond]
      rcases ih fun other member => last other (by simp [member]) with kept | ⟨⟨other, member, below⟩, cut⟩
      · exact .inl kept
      · exact .inr ⟨⟨other, by simp [member], below⟩, cut⟩
    · rw [if_neg beyond]
      exact .inr ⟨⟨record, by simp, by omega⟩, rfl⟩

theorem held_cut (cut : ∃ record ∈ after, record.1 < position) :
    ((placed filler (before ++ (position, entry) :: after))[position]?).getD filler = filler := by
  induction after using List.reverseRecOn with
  | nil =>
    obtain ⟨record, member, -⟩ := cut
    cases member
  | append_singleton after record ih =>
    have apart := last record (by simp)
    rw [held_behind apart]
    by_cases beyond : position < record.1
    · rw [if_pos beyond]
      apply ih fun other member => last other (by simp [member])
      obtain ⟨other, member, below⟩ := cut
      rcases mem_append.1 member with inside | inside
      · exact ⟨other, inside, below⟩
      · rw [mem_singleton.1 inside] at below
        omega
    · rw [if_neg beyond]

end

theorem exists_last (member : position ∈ records.map Prod.fst) :
    ∃ before entry after, records = before ++ (position, entry) :: after ∧
      (∀ record ∈ after, record.1 ≠ position) ∧ lastAt records position = some entry := by
  induction records using List.reverseRecOn with
  | nil => cases member
  | append_singleton records record ih =>
    by_cases here : record.1 = position
    · refine ⟨records, record.2, [], by rw [← here], fun _ inside => absurd inside not_mem_nil, ?_⟩
      rw [lastAt_concat, if_pos here]
    · have inside : position ∈ records.map Prod.fst := by
        rw [map_append] at member
        rcases mem_append.1 member with inside | inside
        · exact inside
        · exact absurd (mem_singleton.1 inside).symm here
      obtain ⟨before, entry, after, rfl, last, found⟩ := ih inside
      refine ⟨before, entry, after ++ [record], by simp, fun other within => ?_, ?_⟩
      · rcases mem_append.1 within with within | within
        · exact last other within
        · rw [mem_singleton.1 within]
          exact here
      · rw [lastAt_concat, if_neg here, found]

theorem lastAt_of_last (last : ∀ record ∈ after, record.1 ≠ position) :
    lastAt (before ++ (position, entry) :: after) position = some entry := by
  induction after using List.reverseRecOn with
  | nil => rw [lastAt_concat, if_pos rfl]
  | append_singleton after record ih =>
    have shape : before ++ (position, entry) :: (after ++ [record]) =
        (before ++ (position, entry) :: after) ++ [record] := by simp
    rw [shape, lastAt_concat, if_neg (last record (by simp))]
    exact ih fun other member => last other (by simp [member])

section

variable (absent : position ∉ records.map Prod.fst)

include absent

theorem lastAt_unrecorded : lastAt records position = none := by
  induction records using List.reverseRecOn with
  | nil => rfl
  | append_singleton records record ih =>
    simp only [map_append, map_cons, map_nil, mem_append, mem_singleton, not_or] at absent
    rw [lastAt_concat, if_neg (Ne.symm absent.2), ih absent.1]

theorem held_unrecorded : ((placed filler records)[position]?).getD filler = filler := by
  induction records using List.reverseRecOn with
  | nil => rfl
  | append_singleton records record ih =>
    simp only [map_append, map_cons, map_nil, mem_append, mem_singleton, not_or] at absent
    rw [held_concat, if_neg absent.2]
    split
    · exact ih absent.1
    · rfl

end

theorem held_iff : (∀ position, ((placed filler records)[position]?).getD filler =
      (lastAt records position).getD filler) ↔
    ∀ before position entry after, records = before ++ (position, entry) :: after →
      (∀ record ∈ after, record.1 ≠ position) → (∃ record ∈ after, record.1 < position) →
        entry = filler := by
  constructor
  · rintro holds before position entry after rfl last cut
    have same := holds position
    rw [held_cut last cut, lastAt_of_last last] at same
    exact same.symm
  · intro kept position
    by_cases member : position ∈ records.map Prod.fst
    · obtain ⟨before, entry, after, rfl, last, found⟩ := exists_last member
      rw [found]
      rcases held_after last with held | ⟨cut, held⟩
      · exact held
      · exact held.trans (kept before position entry after rfl last cut).symm
    · rw [held_unrecorded member, lastAt_unrecorded member]
      rfl

theorem length_placed_le : (placed filler records).length ≤ above records := by
  rcases eq_nil_or_concat records with rfl | ⟨before, last, rfl⟩
  · exact Nat.le_refl 0
  · rw [concat_eq_append, length_placed_concat, above_concat]
    exact Nat.le_max_right _ _

theorem length_placed_iff : (placed filler records).length = above records ↔ EndsHighest records := by
  rcases eq_nil_or_concat records with rfl | ⟨before, last, rfl⟩
  · exact ⟨fun _ before _ _ same => by simp at same, fun _ => rfl⟩
  · rw [concat_eq_append, length_placed_concat, above_concat]
    have highest : last.1 + 1 = max (above before) (last.1 + 1) ↔
        ∀ record ∈ before, record.1 ≤ last.1 := by
      rw [eq_comm, max_eq_right_iff, above_le]
      exact forall₂_congr fun _ _ => Nat.lt_succ_iff
    rw [highest]
    constructor
    · intro all other position entry same
      obtain ⟨rfl, ends⟩ := append_inj' same rfl
      cases ends
      exact all
    · exact fun all => all before last.1 last.2 rfl

theorem getElem?_described (within : position < above records) :
    (described filler records)[position]? = some ((lastAt records position).getD filler) := by
  unfold described
  rw [getElem?_map, getElem?_range within]
  rfl

theorem lastAt_above (beyond : above records ≤ position) : lastAt records position = none := by
  apply lastAt_unrecorded
  intro member
  obtain ⟨record, inside, rfl⟩ := mem_map.1 member
  have within := above_le.1 beyond record inside
  omega

/-- The table is the one the records describe exactly when its last record is at the highest position
and it cuts off nothing but holes. -/
theorem placed_eq_described_iff : placed filler records = described filler records ↔ Kept filler records := by
  have length_described : (described filler records).length = above records := by simp [described]
  constructor
  · intro same
    refine ⟨length_placed_iff.1 (by rw [same, length_described]), held_iff.1 fun position => ?_⟩
    rw [same]
    by_cases within : position < above records
    · rw [getElem?_described within]
      rfl
    · rw [getElem?_eq_none (by omega), lastAt_above (by omega)]
  · rintro ⟨highest, holes⟩
    have length : (placed filler records).length = above records := length_placed_iff.2 highest
    have held := held_iff.2 holes
    apply ext_getElem?
    intro position
    by_cases within : position < above records
    · have entry := held position
      rw [getElem?_described within, ← entry, getElem?_eq_getElem (by omega)]
      rfl
    · rw [getElem?_eq_none (by omega), getElem?_eq_none (by omega)]

end Records

end LichenVm.PlacedTable
