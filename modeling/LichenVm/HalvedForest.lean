import Mathlib.Algebra.Order.Ring.Nat
import Mathlib.Logic.Function.Basic

/-! A union-find without ranks, whose searches halve the path they climb. -/

open Function

namespace HalvedForest

variable {K : Type} [DecidableEq K]

/-- The root above a node, after the nodes on the way are pointed past their parents. -/
def root : Nat → (K → K) → K → K × (K → K)
  | 0, reach, node => (node, reach)
  | fuel + 1, reach, node =>
    if reach node = node then (node, reach)
    else
      let reach := update reach node (reach (reach node))
      root fuel reach (reach node)

/-- The two classes become one, under the first one's root. -/
def join (fuel : Nat) (reach : K → K) (one other : K) : K → K :=
  let first := root fuel reach one
  let second := root fuel first.2 other
  if first.1 ≠ second.1 then update second.2 second.1 first.1 else second.2

def joined (fuel : Nat) (edges : List (K × K)) (reach : K → K) : K → K :=
  edges.foldl (fun reach edge => join fuel reach edge.1 edge.2) reach

/-- The roots of the keys, each search halving the paths of the next ones. -/
def roots (fuel : Nat) : (K → K) → List K → List K
  | _, [] => []
  | reach, key :: keys =>
    let found := root fuel reach key
    found.1 :: roots fuel found.2 keys

/-- The second key's class gets the name of the first one's. -/
def rename (name : K → K) (one other key : K) : K :=
  if name key = name other then name one else name key

def renamed (edges : List (K × K)) (name : K → K) : K → K :=
  edges.foldl (fun name edge => rename name edge.1 edge.2) name

/-- Every node climbs to its name, by falling ranks. -/
structure Climbs (reach name : K → K) (rank : K → Nat) : Prop where
  keeps : ∀ key, name (reach key) = name key
  tops : ∀ key, reach key = key → name key = key
  falls : ∀ key, reach key ≠ key → rank (reach key) < rank key
  ground : ∀ key, reach key = key → rank key = 0

section Climbs

variable {reach name : K → K} {rank : K → Nat}

omit [DecidableEq K] in
theorem climbs_id : Climbs (id : K → K) id fun _ => 0 where
  keeps _ := rfl
  tops _ _ := rfl
  falls _ apart := absurd rfl apart
  ground _ _ := rfl

section

variable (climbs : Climbs reach name rank)

include climbs

omit [DecidableEq K] in
theorem Climbs.top (key : K) : reach (name key) = name key := by
  induction least : rank key using Nat.strong_induction_on generalizing key with
  | _ _ ih =>
    subst least
    by_cases top : reach key = key
    · rw [climbs.tops key top, top]
    · rw [← climbs.keeps key]
      exact ih _ (climbs.falls key top) (reach key) rfl

omit [DecidableEq K] in
theorem Climbs.name_name (key : K) : name (name key) = name key :=
  climbs.tops _ (climbs.top key)

/-- Pointing a node past its parent keeps every name and every rank. -/
theorem Climbs.halve {node : K} (below : reach node ≠ node) :
    Climbs (update reach node (reach (reach node))) name rank ∧
      rank (reach (reach node)) < rank node := by
  have fall : rank (reach (reach node)) < rank node := by
    have first := climbs.falls node below
    by_cases top : reach (reach node) = reach node
    · rw [top]
      exact first
    · exact (climbs.falls _ top).trans first
  have apart : reach (reach node) ≠ node := by
    intro same
    rw [same] at fall
    exact Nat.lt_irrefl _ fall
  refine ⟨⟨fun key => ?_, fun key => ?_, fun key => ?_, fun key => ?_⟩, fall⟩
  · by_cases same : key = node
    · rw [same, update_self, climbs.keeps, climbs.keeps]
    · rw [update_of_ne same, climbs.keeps]
  · by_cases same : key = node
    · rw [same, update_self]
      exact fun held => absurd held apart
    · rw [update_of_ne same]
      exact climbs.tops key
  · by_cases same : key = node
    · rw [same, update_self]
      exact fun _ => fall
    · rw [update_of_ne same]
      exact climbs.falls key
  · by_cases same : key = node
    · rw [same, update_self]
      exact fun held => absurd held apart
    · rw [update_of_ne same]
      exact climbs.ground key

theorem Climbs.root {fuel : Nat} {node : K} (enough : rank node < fuel) :
    (root fuel reach node).1 = name node ∧ Climbs (root fuel reach node).2 name rank := by
  induction fuel generalizing reach node with
  | zero => omega
  | succ fuel ih =>
    rw [HalvedForest.root]
    by_cases top : reach node = node
    · rw [if_pos top]
      exact ⟨(climbs.tops node top).symm, climbs⟩
    · rw [if_neg top]
      obtain ⟨halved, fall⟩ := climbs.halve top
      dsimp only
      rw [update_self]
      obtain ⟨found, kept⟩ := ih halved (show rank (reach (reach node)) < fuel by omega)
      rw [found, climbs.keeps, climbs.keeps]
      exact ⟨rfl, kept⟩

/-- A union renames one class, and raises its ranks by one. -/
theorem Climbs.join {fuel steps : Nat} (bounded : ∀ key, rank key ≤ steps) (enough : steps < fuel)
    (one other : K) :
    ∃ rank', Climbs (join fuel reach one other) (rename name one other) rank' ∧
      ∀ key, rank' key ≤ steps + 1 := by
  obtain ⟨first, climbs⟩ := climbs.root (Nat.lt_of_le_of_lt (bounded one) enough)
  obtain ⟨second, climbs⟩ := climbs.root (Nat.lt_of_le_of_lt (bounded other) enough)
  rw [HalvedForest.join, first, second]
  generalize (HalvedForest.root fuel (HalvedForest.root fuel reach one).2 other).2 = reach' at climbs ⊢
  by_cases same : name one = name other
  · have stays : rename name one other = name := by
      funext key
      rw [rename]
      split
      · next held => rw [same, held]
      · rfl
    rw [if_neg (not_not.2 same), stays]
    exact ⟨rank, climbs, fun key => Nat.le_succ_of_le (bounded key)⟩
  rw [if_pos same]
  -- The names of the two classes, in the new naming.
  have own : ∀ key, name key = name other → rename name one other key = name one :=
    fun key held => if_pos held
  have others : ∀ key, name key ≠ name other → rename name one other key = name key :=
    fun key held => if_neg held
  refine ⟨fun key => if name key = name other then rank key + 1 else rank key,
    ⟨fun key => ?_, fun key => ?_, fun key => ?_, fun key => ?_⟩, fun key => ?_⟩
  · by_cases held : key = name other
    · rw [held, update_self, others _ (by rwa [climbs.name_name]), climbs.name_name,
        own _ (climbs.name_name other)]
    · rw [update_of_ne held, rename, rename, climbs.keeps]
  · by_cases held : key = name other
    · rw [held, update_self]
      exact fun top => absurd top same
    · rw [update_of_ne held]
      intro top
      have named := climbs.tops key top
      have apart : name key ≠ name other := fun same => held (named.symm.trans same)
      rw [others key apart, named]
  · by_cases held : key = name other
    · rw [held, update_self]
      intro _
      have ground := climbs.ground _ (climbs.top one)
      rw [if_neg (by rwa [climbs.name_name]), if_pos (climbs.name_name other), ground]
      omega
    · rw [update_of_ne held]
      intro below
      have fall := climbs.falls key below
      rw [climbs.keeps]
      split
      · omega
      · exact fall
  · by_cases held : key = name other
    · rw [held, update_self]
      exact fun top => absurd top same
    · rw [update_of_ne held]
      intro top
      have named := climbs.tops key top
      have apart : name key ≠ name other := fun same => held (named.symm.trans same)
      rw [if_neg apart]
      exact climbs.ground key top
  · have bound := bounded key
    dsimp only
    split <;> omega

end

theorem Climbs.joined (edges : List (K × K)) {fuel steps : Nat} (climbs : Climbs reach name rank)
    (bounded : ∀ key, rank key ≤ steps) (enough : steps + edges.length ≤ fuel) :
    ∃ rank', Climbs (joined fuel edges reach) (renamed edges name) rank' ∧
      ∀ key, rank' key ≤ steps + edges.length := by
  induction edges generalizing reach name rank steps with
  | nil => exact ⟨rank, climbs, bounded⟩
  | cons edge edges ih =>
    rw [List.length_cons] at enough ⊢
    obtain ⟨rank', climbs', bounded'⟩ := climbs.join bounded (show steps < fuel by omega) edge.1 edge.2
    obtain ⟨rank'', climbs'', bounded''⟩ := ih climbs' bounded' (by omega)
    exact ⟨rank'', climbs'', fun key => by have bound := bounded'' key; omega⟩

theorem Climbs.roots (climbs : Climbs reach name rank) {fuel : Nat}
    (enough : ∀ key, rank key < fuel) (keys : List K) : roots fuel reach keys = keys.map name := by
  induction keys generalizing reach with
  | nil => rfl
  | cons key keys ih =>
    obtain ⟨found, climbs'⟩ := climbs.root (enough key)
    rw [HalvedForest.roots, List.map_cons, found, ih climbs']

end Climbs

theorem roots_joined (edges : List (K × K)) (keys : List K) :
    roots (edges.length + 1) (joined (edges.length + 1) edges id) keys = keys.map (renamed edges id) := by
  obtain ⟨rank, climbs, bounded⟩ := Climbs.joined edges (@climbs_id K) (fun _ => Nat.le_refl 0)
    (show 0 + edges.length ≤ edges.length + 1 by omega)
  exact climbs.roots (fun key => by have bound := bounded key; omega) keys

end HalvedForest
