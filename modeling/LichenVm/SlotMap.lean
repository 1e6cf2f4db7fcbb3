import Mathlib.Algebra.Order.Ring.Nat
import Mathlib.Data.List.Basic
import Mathlib.Data.List.Nodup
import Mathlib.Data.List.Perm.Subperm

/-- A key of a slot map whose keys carry the tag `τ`. Index `0` is the null key, which
no map ever hands out. -/
structure SlotKey (τ : Type) where
  index : Nat

instance SlotKey.decidableEq (τ : Type) : DecidableEq (SlotKey τ) := fun a b =>
  decidable_of_iff (a.index = b.index) (by cases a; cases b; simp)

instance SlotKey.lawfulBEq (τ : Type) : LawfulBEq (SlotKey τ) := inferInstance

instance SlotKey.inhabited (τ : Type) : Inhabited (SlotKey τ) := ⟨⟨0⟩⟩

@[ext] theorem SlotKey.ext {τ : Type} {a b : SlotKey τ} (same : a.index = b.index) : a = b := by
  cases a; cases b; simp_all

/-- A slot map: slot `i` holds the value inserted `i`-th, or nothing once it was removed.
A slot is never filled twice, so a removed key never names a later value. -/
structure SlotMap (τ V : Type) where
  slots : List (Option V) := []
  deriving DecidableEq

namespace SlotMap

variable {τ V : Type}

def get (m : SlotMap τ V) (key : SlotKey τ) : Option V :=
  match key.index with
  | 0 => none
  | index + 1 => m.slots[index]?.join

def containsKey (m : SlotMap τ V) (key : SlotKey τ) : Bool :=
  (m.get key).isSome

/-- The key the next insertion hands out. -/
def nextKey (m : SlotMap τ V) : SlotKey τ :=
  ⟨m.slots.length + 1⟩

def insert (m : SlotMap τ V) (value : V) : SlotMap τ V :=
  ⟨m.slots ++ [some value]⟩

/-- Rewrite a live value in place. A key without a value is left alone. -/
def modify (m : SlotMap τ V) (key : SlotKey τ) (f : V → V) : SlotMap τ V :=
  match key.index with
  | 0 => m
  | index + 1 => ⟨m.slots.modify index (Option.map f)⟩

def remove (m : SlotMap τ V) (key : SlotKey τ) : SlotMap τ V :=
  match key.index with
  | 0 => m
  | index + 1 => ⟨m.slots.set index none⟩

/-- The live keys, in slot order. -/
def keys (m : SlotMap τ V) : List (SlotKey τ) :=
  ((List.range m.slots.length).map fun index => (⟨index + 1⟩ : SlotKey τ)).filter m.containsKey

variable (m : SlotMap τ V) (key : SlotKey τ)

theorem get_of_fresh (fresh : m.slots.length < key.index) : m.get key = none := by
  obtain ⟨_ | index⟩ := key
  · simp at fresh
  · simp only [get]
    rw [List.getElem?_eq_none (by simp at fresh; omega)]
    rfl

theorem index_le_of_get (value : V) (found : m.get key = some value) :
    key.index ≤ m.slots.length := by
  by_contra outside
  rw [get_of_fresh m key (by omega)] at found
  cases found

theorem get_nextKey : m.get m.nextKey = none :=
  get_of_fresh m _ (by simp [nextKey])

@[simp] theorem get_insert_nextKey (m : SlotMap τ V) (value : V) :
    (m.insert value).get m.nextKey = some value := by
  simp [get, insert, nextKey]

theorem get_insert_of_ne (value : V) (key : SlotKey τ) (other : key ≠ m.nextKey) :
    (m.insert value).get key = m.get key := by
  obtain ⟨_ | index⟩ := key
  · rfl
  · have apart : index ≠ m.slots.length := by
      intro same
      exact other (by simp [nextKey, same])
    simp only [get, insert, List.getElem?_append]
    split
    · rfl
    · rw [List.getElem?_eq_none (by simp; omega), List.getElem?_eq_none (by omega)]

theorem get_insert (value : V) (key : SlotKey τ) :
    (m.insert value).get key = if key = m.nextKey then some value else m.get key := by
  split
  · next same => rw [same, get_insert_nextKey]
  · next other => exact get_insert_of_ne m value key other

variable (key other : SlotKey τ)

theorem get_modify (f : V → V) :
    (m.modify key f).get other = if other = key then (m.get other).map f else m.get other := by
  obtain ⟨_ | index⟩ := key
  · obtain ⟨_ | index'⟩ := other
    · simp [get]
    · rw [if_neg (by simp)]
      rfl
  · obtain ⟨_ | index'⟩ := other
    · rw [if_neg (by simp)]
      rfl
    · simp only [modify, get, List.getElem?_modify]
      by_cases same : index = index'
      · subst same
        cases m.slots[index]? <;> simp
      · rw [if_neg (by simp; omega)]
        simp [same]

@[simp] theorem get_modify_self (m : SlotMap τ V) (key : SlotKey τ) (f : V → V) :
    (m.modify key f).get key = (m.get key).map f := by
  rw [get_modify, if_pos rfl]

theorem get_modify_of_ne (f : V → V) (apart : other ≠ key) :
    (m.modify key f).get other = m.get other := by
  rw [get_modify, if_neg apart]

theorem get_remove : (m.remove key).get other = if other = key then none else m.get other := by
  obtain ⟨_ | index⟩ := key
  · obtain ⟨_ | index'⟩ := other
    · simp [get]
    · rw [if_neg (by simp)]
      rfl
  · obtain ⟨_ | index'⟩ := other
    · rw [if_neg (by simp)]
      rfl
    · simp only [remove, get, List.getElem?_set]
      by_cases same : index = index'
      · subst same
        simp only [if_true]
        split <;> rfl
      · rw [if_neg same, if_neg (by simp; omega)]

@[simp] theorem containsKey_eq_true (m : SlotMap τ V) (key : SlotKey τ) :
    m.containsKey key ↔ ∃ value, m.get key = some value := by
  simp [containsKey, Option.isSome_iff_exists]

theorem containsKey_modify (f : V → V) :
    (m.modify key f).containsKey other = m.containsKey other := by
  simp only [containsKey, get_modify]
  split <;> simp

@[simp] theorem slots_length_modify (m : SlotMap τ V) (key : SlotKey τ) (f : V → V) :
    (m.modify key f).slots.length = m.slots.length := by
  obtain ⟨_ | index⟩ := key <;> simp [modify]

@[simp] theorem slots_length_remove (m : SlotMap τ V) (key : SlotKey τ) :
    (m.remove key).slots.length = m.slots.length := by
  obtain ⟨_ | index⟩ := key <;> simp [remove]

theorem mem_keys : key ∈ m.keys ↔ m.containsKey key := by
  simp only [keys, List.mem_filter, List.mem_map, List.mem_range]
  constructor
  · exact fun found => found.2
  · intro live
    refine ⟨?_, live⟩
    obtain ⟨value, found⟩ := (containsKey_eq_true m key).1 live
    have bounded := index_le_of_get m key value found
    obtain ⟨_ | index⟩ := key
    · simp [get] at found
    · exact ⟨index, by simp at bounded; omega, rfl⟩

theorem keys_nodup : m.keys.Nodup := by
  refine List.Nodup.filter _ (List.Nodup.map ?_ List.nodup_range)
  intro i j same
  simpa using same

theorem length_le_of_live (members : List (SlotKey τ)) (distinct : members.Nodup)
    (live : ∀ key ∈ members, m.containsKey key) : members.length ≤ m.slots.length := by
  have inside : members ⊆ m.keys := fun key found => (mem_keys m key).2 (live key found)
  calc members.length
      ≤ m.keys.length := (List.subperm_of_subset distinct inside).length_le
    _ ≤ _ := List.length_filter_le _ _
    _ = m.slots.length := by simp

end SlotMap
