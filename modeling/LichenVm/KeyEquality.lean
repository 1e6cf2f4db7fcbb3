import LichenVm.KeyContent
import LichenVm.Tables
import Mathlib.Data.List.ProdSigma

open List Option

namespace LichenVm

variable {P : Program}

theorem Value.eq_of_valueEq {one two : Value P} (same : one.valueEq two) :
    one = two ∨ ∃ a b, one = .ext a ∧ two = .ext b := by
  cases one with
  | ext a =>
    cases two with
    | ext b => exact .inr ⟨a, b, rfl, rfl⟩
    | low b => exact .inl (eq_of_beq same)
  | low a => exact .inl (eq_of_beq same)

namespace AncestorPairs

variable {K : Type} [DecidableEq K]

/-- The pairs of a path, each there once and in both orientations. -/
structure Formed (path : AncestorPairs K) : Prop where
  distinct : path.exprs.Nodup
  symmetric : ∀ a b, (a, b) ∈ path.exprs → (b, a) ∈ path.exprs

theorem formed_empty : ({} : AncestorPairs K).Formed :=
  ⟨nodup_nil, fun _ _ member => absurd member not_mem_nil⟩

theorem mem_of_contains {path : AncestorPairs K} {a b : K} (held : path.contains a b) :
    (a, b) ∈ path.exprs := by
  simpa [contains] using held

theorem Formed.insert {path : AncestorPairs K} (formed : path.Formed) {a b : K} (apart : a ≠ b)
    (fresh : path.contains a b = false) : (path.insert a b).Formed := by
  have new : (a, b) ∉ path.exprs := by simpa [contains] using fresh
  have turned : (b, a) ∉ path.exprs := fun member => new (formed.symmetric b a member)
  refine ⟨?_, fun c d member => ?_⟩
  · refine nodup_cons.2 ⟨?_, nodup_cons.2 ⟨turned, formed.distinct⟩⟩
    rintro (_ | ⟨_, member⟩)
    · exact apart rfl
    · exact new member
  · simp only [AncestorPairs.insert, mem_cons, Prod.mk.injEq] at member ⊢
    rcases member with ⟨rfl, rfl⟩ | ⟨rfl, rfl⟩ | member
    · exact .inr (.inl ⟨rfl, rfl⟩)
    · exact .inl ⟨rfl, rfl⟩
    · exact .inr (.inr (formed.symmetric c d member))

end AncestorPairs

namespace Module

theorem hashStep_key (m : Module P) (walk : UnfoldMode → AnyNodeId → Option KeyState)
    (functionHash : AnyFunctionId → Option (Option UInt64)) (id : AnyNodeId) :
    m.hashStep walk functionHash .key id = (m.readValue id).bind fun value =>
      match value with
      | none => some .undecided
      | some value => m.hashValue walk functionHash .key value := rfl

section Law

variable {m : Module P} {walk : UnfoldMode → AnyNodeId → Option KeyState}
  {functionHash : AnyFunctionId → Option (Option UInt64)}
  {compare : AnyNodeId → AnyNodeId → Option Bool}
  (agree : ∀ a b, compare a b = some true → walk .key a = walk .key b)

include agree

theorem hashItems_of_keyItemsEq {one two : List ArrayItem} (count : one.length = two.length)
    (same : m.keyItemsEq compare one two = some true) (hash : UInt64) :
    m.hashItems walk .key one hash = m.hashItems walk .key two hash := by
  induction one generalizing two hash with
  | nil =>
    obtain rfl := length_eq_zero_iff.1 count.symm
    rfl
  | cons ia as ih =>
    cases two with
    | nil => cases count
    | cons ib bs =>
      have rest := Nat.succ.inj count
      unfold keyItemsEq at same
      unfold hashItems
      by_cases slot : (ia.template || ib.template)
      · rw [if_pos slot] at same
        split at same
        · rename_i both
          have left : ia.template := by
            rw [both, Bool.or_self] at slot
            rw [both, slot]
          rw [if_pos ⟨left, rfl⟩, if_pos ⟨both ▸ left, rfl⟩]
          exact ih rest same _
        · cases same
      · rw [if_neg slot] at same
        obtain ⟨left, right⟩ := Bool.or_eq_false_iff.1 (Bool.eq_false_iff.2 slot)
        obtain ⟨a, content, same⟩ := bind_eq_some_iff.1 same
        obtain ⟨b, content', same⟩ := bind_eq_some_iff.1 same
        obtain ⟨equal, compared, same⟩ := bind_eq_some_iff.1 same
        cases equal with
        | false => cases same
        | true =>
          rw [if_neg (by simp [left]), if_neg (by simp [right]), content, content']
          show (walk .key a).bind _ = (walk .key b).bind _
          rw [agree a b compared]
          cases walk .key b with
          | none => rfl
          | some state =>
            cases state with
            | hashed itemHash => exact ih rest same _
            | undecided => rfl
            | unhashable => rfl

theorem hashStep_of_keyEqStep {a b : AnyNodeId} (same : m.keyEqStep compare a b = some true) :
    m.hashStep walk functionHash .key a = m.hashStep walk functionHash .key b := by
  obtain ⟨va, reads, same⟩ := bind_eq_some_iff.1 same
  obtain ⟨vb, reads', same⟩ := bind_eq_some_iff.1 same
  rw [hashStep_key, hashStep_key, reads, reads', bind_some, bind_some]
  split at same
  · rename_i pa pb
    split at same
    · rename_i count
      exact hashItems_of_keyItemsEq agree count same ARRAY_SEED
    · cases same
  · rename_i ta tb
    rw [of_decide_eq_true (some.inj same)]
  · rename_i va vb _ _
    rcases Value.eq_of_valueEq (some.inj same) with rfl | ⟨x, y, rfl, rfl⟩
    · rfl
    · rfl
  · cases same

end Law

variable {m : Module P}

/-- Equal keys unfold alike at every depth, when the pairs assumed equal on the path do: by
induction on the depth, a pair on the path being taken one level shallower. -/
theorem content_of_keyEqFrom (depth : Nat) : ∀ (fuel : Nat)
    (path : AncestorPairs AnyNodeId) (a b : AnyNodeId), m.keyEqFrom fuel path a b = some true →
    (∀ pair ∈ path.exprs, ∀ k ≤ depth, m.content k .key pair.1 = m.content k .key pair.2) →
    ∀ k ≤ depth, m.content k .key a = m.content k .key b := by
  induction depth with
  | zero =>
    intro fuel path a b _ _ k least
    obtain rfl := Nat.le_zero.1 least
    rfl
  | succ depth ih =>
    intro fuel path a b same assumed k bound
    have below := ih fuel path a b same fun pair member k less =>
      assumed pair member k (Nat.le_succ_of_le less)
    rcases Nat.le_or_eq_of_le_succ bound with less | rfl
    · exact below k less
    cases fuel with
    | zero => cases same
    | succ fuel =>
      unfold keyEqFrom at same
      split at same
      · rename_i one
        rw [one]
      split at same
      · rename_i held
        exact assumed (a, b) (AncestorPairs.mem_of_contains held) _ (Nat.le_refl _)
      · refine hashStep_of_keyEqStep (fun c d compared => ?_) same
        apply ih fuel (path.insert a b) c d compared _ depth (Nat.le_refl _)
        intro pair member k less
        simp only [AncestorPairs.insert, mem_cons] at member
        rcases member with rfl | rfl | member
        · exact below k less
        · exact (below k less).symm
        · exact assumed pair member k (Nat.le_succ_of_le less)

theorem contentHash_of_structuralEq {a b : AnyNodeId} (same : m.structuralEq a b = some true) :
    m.contentHash a = m.contentHash b := by
  rw [contentHash_eq, contentHash_eq]
  exact content_of_keyEqFrom UNFOLD_DEPTH _ {} a b same
    (fun _ member => absurd member not_mem_nil) UNFOLD_DEPTH (Nat.le_refl _)

/-- Every ref an array holds is registered. -/
def Registered (m : Module P) : Prop :=
  ∀ id array, m.readValue id = some (some (.low (.array array))) →
    ∀ item ∈ array.items, (m.readValue item.node).isSome

theorem mem_keyNodes {id : AnyNodeId} {value : Value P}
    (held : m.readValue id = some (some value)) : id ∈ m.keyNodes := by
  cases id with
  | dynamic node =>
    obtain ⟨entry, found, -⟩ := bind_eq_some_iff.1 (some.inj held)
    apply mem_append_left
    rw [List.mem_map]
    exact ⟨node, (SlotMap.mem_keys _ _).2 ((SlotMap.containsKey_eq_true _ _).2 ⟨entry, found⟩),
      rfl⟩
  | static sref =>
    obtain ⟨entry, found, -⟩ := map_eq_some_iff.1 held
    obtain ⟨home, registered, found⟩ := bind_eq_some_iff.1 found
    obtain ⟨package, filed, rfl⟩ := map_eq_some_iff.1 registered
    apply mem_append_right
    rw [mem_flatMap]
    refine ⟨(sref.module, package), AssocMap.mem_of_get _ _ _ filed, ?_⟩
    rw [List.mem_map]
    exact ⟨sref.index.index, mem_range.2 (List.getElem?_eq_some_iff.1 found).1, rfl⟩

theorem slotContent_readable (registered : m.Registered) {id : AnyNodeId}
    (readable : (m.readValue id).isSome) :
    ∃ content, m.slotContent id = some content ∧ (m.readValue content).isSome := by
  obtain ⟨value, held⟩ := isSome_iff_exists.1 readable
  refine ⟨_, by rw [slotContent, held, map_some], ?_⟩
  have reads : m.nodeValue id = value := by
    cases id with
    | dynamic node => exact some.inj held
    | static sref =>
      obtain ⟨entry, found, rfl⟩ := map_eq_some_iff.1 held
      obtain ⟨home, registered, found⟩ := bind_eq_some_iff.1 found
      rw [nodeValue, staticRead, registered, bind_some, StaticModule.read, found, bind_some]
  unfold elementValueNode
  rw [reads]
  split
  · rename_i array
    split
    · cases first : array.items with
      | nil => exact readable
      | cons item rest =>
        exact registered id array held item (by rw [first]; exact mem_cons_self)
    · exact readable
  · exact readable

theorem keyItemsEq_isSome (registered : m.Registered)
    {compare : AnyNodeId → AnyNodeId → Option Bool}
    (returns : ∀ a b, (m.readValue a).isSome → (m.readValue b).isSome → (compare a b).isSome)
    {one two : List ArrayItem} (left : ∀ item ∈ one, (m.readValue item.node).isSome)
    (right : ∀ item ∈ two, (m.readValue item.node).isSome) :
    (m.keyItemsEq compare one two).isSome := by
  induction one generalizing two with
  | nil => rfl
  | cons ia as ih =>
    cases two with
    | nil => rfl
    | cons ib bs =>
      have rest := ih (fun item member => left item (mem_cons_of_mem _ member))
        (fun item member => right item (mem_cons_of_mem _ member))
      unfold keyItemsEq
      split
      · split
        · exact rest
        · rfl
      · obtain ⟨a, content, readable⟩ :=
          slotContent_readable registered (left ia mem_cons_self)
        obtain ⟨b, content', readable'⟩ :=
          slotContent_readable registered (right ib mem_cons_self)
        obtain ⟨equal, compared⟩ := isSome_iff_exists.1 (returns a b readable readable')
        simp only [content, content', compared, bind_eq_bind, bind_some]
        cases equal with
        | false => rfl
        | true => exact rest

theorem path_length {path : AncestorPairs AnyNodeId} (formed : path.Formed)
    (inside : ∀ pair ∈ path.exprs, pair.1 ∈ m.keyNodes ∧ pair.2 ∈ m.keyNodes) :
    path.exprs.length ≤ m.keyNodes.length * m.keyNodes.length := by
  rw [← length_product]
  apply (List.Nodup.subperm formed.distinct _).length_le
  intro pair member
  exact pair_mem_product.2 (inside pair member)

/-- A descent that has fuel for the pairs left returns: by induction on the fuel, each level taking
a new pair. -/
theorem keyEqFrom_isSome (registered : m.Registered) (fuel : Nat) :
    ∀ (path : AncestorPairs AnyNodeId) (a b : AnyNodeId), path.Formed →
      (∀ pair ∈ path.exprs, pair.1 ∈ m.keyNodes ∧ pair.2 ∈ m.keyNodes) →
      (m.readValue a).isSome → (m.readValue b).isSome →
      m.keyNodes.length * m.keyNodes.length + 1 ≤ fuel + path.exprs.length →
      (m.keyEqFrom fuel path a b).isSome := by
  induction fuel with
  | zero =>
    intro path a b formed inside _ _ enough
    have most := path_length formed inside
    omega
  | succ fuel ih =>
    intro path a b formed inside left right enough
    unfold keyEqFrom
    split
    · rfl
    rename_i apart
    split
    · rfl
    rename_i fresh
    obtain ⟨va, reads⟩ := isSome_iff_exists.1 left
    obtain ⟨vb, reads'⟩ := isSome_iff_exists.1 right
    unfold keyEqStep
    simp only [reads, reads', bind_eq_bind, bind_some]
    split
    · rename_i pa pb
      split
      · refine keyItemsEq_isSome registered (fun c d first second => ?_) (registered a pa reads)
          (registered b pb reads')
        refine ih _ c d (formed.insert apart (Bool.eq_false_iff.2 fresh)) ?_ first second ?_
        · intro pair member
          have one := mem_keyNodes reads
          have two := mem_keyNodes reads'
          simp only [AncestorPairs.insert, mem_cons] at member
          rcases member with rfl | rfl | member
          · exact ⟨one, two⟩
          · exact ⟨two, one⟩
          · exact inside pair member
        · simp only [AncestorPairs.insert, length_cons]
          omega
      · rfl
    · rfl
    · rfl
    · rfl

theorem structuralEq_isSome (registered : m.Registered) {a b : AnyNodeId}
    (left : (m.readValue a).isSome) (right : (m.readValue b).isSome) :
    (m.structuralEq a b).isSome :=
  keyEqFrom_isSome registered _ {} a b AncestorPairs.formed_empty
    (fun _ member => absurd member not_mem_nil) left right (Nat.le_refl _)

end Module

end LichenVm
