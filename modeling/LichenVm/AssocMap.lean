import Mathlib.Algebra.Order.Ring.Nat
import Mathlib.Data.List.Basic

/-- A finite map as its list of entries. The entry of a key is the first one naming it. -/
structure AssocMap (K V : Type) where
  entries : List (K × V) := []
  deriving DecidableEq

namespace AssocMap

variable {K V : Type} [DecidableEq K]

def get (m : AssocMap K V) (key : K) : Option V :=
  (m.entries.find? fun entry => entry.1 = key).map Prod.snd

def containsKey (m : AssocMap K V) (key : K) : Bool :=
  (m.get key).isSome

def remove (m : AssocMap K V) (key : K) : AssocMap K V :=
  ⟨m.entries.filter fun entry => entry.1 ≠ key⟩

def insert (m : AssocMap K V) (key : K) (value : V) : AssocMap K V :=
  ⟨(key, value) :: (m.remove key).entries⟩

/-- Keep the entries `keep` answers for, each with the value it answers. -/
def filterMap (m : AssocMap K V) (keep : K → V → Option V) : AssocMap K V :=
  ⟨m.entries.filterMap fun entry => (keep entry.1 entry.2).map (entry.1, ·)⟩

/-- Keep the entries that satisfy `keep`. -/
def retain (m : AssocMap K V) (keep : K → V → Bool) : AssocMap K V :=
  ⟨m.entries.filter fun entry => keep entry.1 entry.2⟩

@[simp] theorem get_insert_self (m : AssocMap K V) (key : K) (value : V) :
    (m.insert key value).get key = some value := by
  simp [get, insert]

variable (m : AssocMap K V)

theorem get_remove (key other : K) :
    (m.remove key).get other = if other = key then none else m.get other := by
  simp only [get, remove, List.find?_filter]
  split
  · next same =>
    subst same
    simp
  · next apart =>
    congr 2
    funext entry
    by_cases same : entry.1 = other
    · simp [same, apart]
    · simp [same]

theorem get_insert (key other : K) (value : V) :
    (m.insert key value).get other = if other = key then some value else m.get other := by
  by_cases same : other = key
  · rw [same, get_insert_self, if_pos rfl]
  · have step : (m.insert key value).get other = (m.remove key).get other := by
      simp only [get, insert, List.find?_cons]
      rw [show decide (key = other) = false by simp [Ne.symm same]]
    rw [step, get_remove, if_neg same, if_neg same]

theorem mem_of_get (key : K) (value : V) (found : m.get key = some value) :
    (key, value) ∈ m.entries := by
  obtain ⟨entry, first, rfl⟩ := Option.map_eq_some_iff.1 found
  have same : entry.1 = key := by simpa using List.find?_some first
  rw [← same]
  exact List.mem_of_find?_eq_some first

end AssocMap
