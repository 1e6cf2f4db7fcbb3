import LichenVm.SortedRun
import LichenVm.UnifyFrames

open List Option

namespace LichenVm

variable {P : Program}

def defaultAttribute (defaults : Option (AnyHandle ArrayItem)) (canonical : Nat) :
    Option AnyNodeId :=
  defaults.bind fun defaults => defaults.items[EXPR_ATTR_BASE + canonical]?.map ArrayItem.node

/-- Canonical attribute `canonical` of `array`, or the default's slot when `layout` omits it. -/
def attributeAt (array : ArrayValue) (layout : List Nat) (defaults : Option (AnyHandle ArrayItem))
    (canonical : Nat) : Option AnyNodeId :=
  match SortedRun.position layout canonical with
  | some position => array.items[EXPR_ATTR_BASE + position]?.map ArrayItem.node
  | none => defaultAttribute defaults canonical

namespace Module

/-- Register the attribute layout `indices` and answer its id. A layout in flight keeps its id. -/
def registerAttributeLayout (m : Module P) (indices : List Nat) : Nat × Module P :=
  if m.attributeLayouts.contains indices then (m.attributeLayouts.idxOf indices, m)
  else (m.attributeLayouts.length, { m with attributeLayouts := m.attributeLayouts ++ [indices] })

/-- The layout registered under `id`, or the empty layout for an id none holds. -/
def attributeLayout (m : Module P) (id : Nat) : List Nat := m.attributeLayouts[id]?.getD []

/-- Canonical attribute `canonical` of the array `value`, as the full-width view reads it. An
unregistered module panics: the outer `none`. -/
def arrayAttribute (m : Module P) (value : LowValue) (canonical : Nat) :
    Option (Option AnyNodeId) :=
  match value with
  | .array array =>
    match array.handle with
    | .dynamic _ =>
      some (attributeAt array (m.attributeLayout array.layout) m.defaultAttributes canonical)
    | .static handle =>
      (m.staticModule handle.module).map fun home =>
        attributeAt array (home.attributeLayouts[array.layout]?.getD [])
          (home.defaultAttributes.map .static) canonical
  | _ => some none

/-- The empty layout is entry 0 of every registry of layouts. -/
def PlainFirst (m : Module P) : Prop :=
  m.attributeLayouts[0]? = some [] ∧
    ∀ key home, m.staticModule key = some home → home.attributeLayouts[0]? = some []

theorem registerAttributeLayout_plainFirst {m : Module P} (plain : m.PlainFirst)
    (indices : List Nat) : (m.registerAttributeLayout indices).2.PlainFirst := by
  unfold registerAttributeLayout
  split
  · exact plain
  · refine ⟨?_, plain.2⟩
    have within := (List.getElem?_eq_some_iff.1 plain.1).1
    rw [← plain.1]
    exact getElem?_append_left within

theorem PlainFirst.layoutOf {m : Module P} (plain : m.PlainFirst) {array : ArrayValue}
    {layout : List Nat} (read : m.layoutOf array = some layout) (zero : array.layout = 0) :
    layout = [] := by
  simp only [Module.layoutOf, zero] at read
  cases home : array.handle with
  | dynamic handle =>
    rw [home] at read
    simp [plain.1] at read
    exact read
  | static handle =>
    rw [home] at read
    obtain ⟨found, registered, same⟩ := map_eq_some_iff.1 read
    rw [plain.2 _ _ registered] at same
    exact same.symm

end Module

theorem attributeSlots_eq (array : ArrayValue) {layout : List Nat}
    (increasing : layout.Pairwise (· < ·)) (defaults : Option (AnyHandle ArrayItem)) :
    attributeSlots array.items layout =
      layout.map fun canonical => (canonical, attributeAt array layout defaults canonical) := by
  apply ext_getElem?
  intro position
  simp only [attributeSlots, getElem?_mapIdx, getElem?_map]
  cases found : layout[position]? with
  | none => rfl
  | some canonical =>
    have lands := (SortedRun.position_eq_some_iff increasing).2 found
    simp [attributeAt, lands]

/-- The attributes both layouts list, where both slots are held. -/
def sharedSlots (left right : List Nat) (f g : Nat → Option AnyNodeId) :
    List (Nat × AnyNodeId × AnyNodeId) :=
  (left.filter right.contains).filterMap fun canonical =>
    match f canonical, g canonical with
    | some na, some nb => some (EXPR_ATTR_BASE + canonical, na, nb)
    | _, _ => none

/-- The merge of two strictly increasing layouts pairs what both list. The induction is on the
fuel: each step takes an entry off one side or off both. -/
theorem mergeAttributes_eq (f g : Nat → Option AnyNodeId) (fuel : Nat) (left right : List Nat)
    (enough : left.length + right.length ≤ fuel) (leftIncreasing : left.Pairwise (· < ·))
    (rightIncreasing : right.Pairwise (· < ·)) :
    mergeAttributes fuel (left.map fun canonical => (canonical, f canonical))
      (right.map fun canonical => (canonical, g canonical)) = sharedSlots left right f g := by
  induction fuel generalizing left right with
  | zero =>
    have none : left = [] := eq_nil_of_length_eq_zero (by omega)
    subst none
    rfl
  | succ fuel ih =>
    cases left with
    | nil => rfl
    | cons l left =>
      cases right with
      | nil => simp [mergeAttributes, sharedSlots]
      | cons r right =>
        have aboveL := pairwise_cons.1 leftIncreasing
        have aboveR := pairwise_cons.1 rightIncreasing
        simp only [length_cons] at enough
        simp only [map_cons, mergeAttributes]
        by_cases less : l < r
        · -- Every entry on the right is above `l`: no one shares it.
          have rest := ih left (r :: right) (by simp; omega) aboveL.2 rightIncreasing
          have missed : l ∉ r :: right := by
            intro member
            rcases mem_cons.1 member with same | member
            · omega
            · have := aboveR.1 l member
              omega
          rw [if_pos less]
          simp only [map_cons] at rest
          rw [rest]
          simp only [sharedSlots]
          rw [filter_cons_of_neg (by simpa using missed)]
        · rw [if_neg less]
          by_cases greater : r < l
          · have rest := ih (l :: left) right (by simp; omega) leftIncreasing aboveR.2
            rw [if_pos greater]
            simp only [map_cons] at rest
            rw [rest]
            simp only [sharedSlots]
            rw [filter_congr fun c member => ?_]
            have above : r < c := by
              rcases mem_cons.1 member with rfl | member
              · exact greater
              · have := aboveL.1 c member
                omega
            have apart : c ≠ r := by omega
            simp [apart]
          · have same : l = r := by omega
            subst same
            have rest := ih left right (by omega) aboveL.2 aboveR.2
            have shares : left.filter (l :: right).contains = left.filter right.contains := by
              apply filter_congr
              intro c member
              have := aboveL.1 c member
              have apart : c ≠ l := by omega
              simp [apart]
            simp only [sharedSlots] at rest ⊢
            rw [filter_cons_of_pos (by simp), shares]
            cases held : f l with
            | none => simp [held, rest]
            | some na =>
              cases heldB : g l with
              | none | some nb => simp [held, heldB, rest]

namespace Module

/-- The pairs `unifyItems` descends into, in order: up to the first that disagrees. -/
def descents (inner : Unifier P) (d : Descent) :
    List (Nat × AnyNodeId × AnyNodeId) → Module P → List (Nat × AnyNodeId × AnyNodeId)
  | [], _ => []
  | pair :: rest, m =>
    match m.unifyItem inner d pair.1 pair.2.1 pair.2.2 with
    | some (true, m) => pair :: descents inner d rest m
    | _ => [pair]

/-- The pairs `unifyArrayItems` descends into, in order. -/
def arrayDescents (inner : Unifier P) (d : Descent) (a b : ArrayValue) (m : Module P) :
    List (Nat × AnyNodeId × AnyNodeId) :=
  if a = b then []
  else if a.layout = 0 ∧ b.layout = 0 ∧ a.items.length ≠ b.items.length then []
  else
    descents inner d (leadingItems a b) m ++
      match unifyItems inner d (leadingItems a b) m with
      | some (true, m) =>
        match m.layoutOf a, m.layoutOf b with
        | some left, some right =>
          let left := attributeSlots a.items left
          let right := attributeSlots b.items right
          descents inner d (mergeAttributes (left.length + right.length) left right) m
        | _, _ => []
      | _ => []

section Descents

variable (inner : Unifier P) (d : Descent)

section

variable (first second : List (Nat × AnyNodeId × AnyNodeId)) (m : Module P)

theorem unifyItems_append :
    unifyItems inner d (first ++ second) m = (unifyItems inner d first m).bind fun answer =>
        if answer.1 then unifyItems inner d second answer.2 else some (false, answer.2) := by
  induction first generalizing m with
  | nil => rfl
  | cons pair rest ih =>
    simp only [cons_append, unifyItems]
    cases met : m.unifyItem inner d pair.1 pair.2.1 pair.2.2 with
    | none => rfl
    | some answer =>
      by_cases agrees : answer.1
      · simp [agrees, ih]
      · simp [agrees]

theorem descents_append :
    descents inner d (first ++ second) m = descents inner d first m ++
        match unifyItems inner d first m with
        | some (true, m) => descents inner d second m
        | _ => [] := by
  induction first generalizing m with
  | nil => rfl
  | cons pair rest ih =>
    simp only [cons_append, descents, unifyItems]
    cases met : m.unifyItem inner d pair.1 pair.2.1 pair.2.2 with
    | none => simp
    | some answer =>
      obtain ⟨agrees, after⟩ := answer
      cases agrees with
      | false => simp
      | true => simp [ih after]

end

theorem descents_prefix (pairs : List (Nat × AnyNodeId × AnyNodeId)) (m : Module P) :
    descents inner d pairs m <+: pairs := by
  induction pairs generalizing m with
  | nil => exact nil_prefix
  | cons pair rest ih =>
    simp only [descents]
    split
    · next after _ => exact cons_prefix_cons.2 ⟨rfl, ih after⟩
    · exact cons_prefix_cons.2 ⟨rfl, nil_prefix⟩

theorem descents_of_agrees {pairs : List (Nat × AnyNodeId × AnyNodeId)} {m m' : Module P}
    (agreed : unifyItems inner d pairs m = some (true, m')) : descents inner d pairs m = pairs := by
  induction pairs generalizing m with
  | nil => rfl
  | cons pair rest ih =>
    obtain ⟨⟨agrees, after⟩, met, agreed⟩ := bind_eq_some_iff.1 agreed
    cases agrees with
    | false => cases agreed
    | true =>
      simp only [descents]
      rw [met]
      exact congrArg (pair :: ·) (ih agreed)

end Descents

/-- The leading positions both arrays reach. -/
def leadingPairs (a b : ArrayValue) : List (Nat × AnyNodeId × AnyNodeId) :=
  (List.range (min 2 (min a.items.length b.items.length))).filterMap fun index =>
    match a.items[index]?, b.items[index]? with
    | some ia, some ib => some (index, ia.node, ib.node)
    | _, _ => none

/-- Each canonical index both layouts list, with the slots the full-width view reads for it. -/
def attributePairs (m : Module P) (a b : ArrayValue) (left right : List Nat) :
    List (Nat × AnyNodeId × AnyNodeId) :=
  sharedSlots left right (fun canonical => (m.arrayAttribute (.array a) canonical).join)
    fun canonical => (m.arrayAttribute (.array b) canonical).join

theorem leadingItems_eq {a b : ArrayValue} (attributed : ¬ (a.layout = 0 ∧ b.layout = 0)) :
    leadingItems a b = leadingPairs a b := by
  simp only [leadingItems, if_neg attributed, leadingPairs, EXPR_ATTR_BASE]
  generalize a.items = left, b.items = right
  rcases left with _ | ⟨a₀, _ | ⟨a₁, left⟩⟩
  · simp
  · rcases right with _ | ⟨b₀, right⟩
    · simp
    · simp
  · rcases right with _ | ⟨b₀, _ | ⟨b₁, right⟩⟩
    · simp
    · simp
    · simp [range_succ]

theorem slots_eq_attributes {m : Module P} {array : ArrayValue} {layout : List Nat}
    (read : m.layoutOf array = some layout) (increasing : layout.Pairwise (· < ·)) :
    attributeSlots array.items layout = layout.map fun canonical =>
        (canonical, (m.arrayAttribute (.array array) canonical).join) := by
  simp only [arrayAttribute]
  simp only [layoutOf] at read
  cases home : array.handle with
  | dynamic handle =>
    rw [home] at read
    cases read
    exact attributeSlots_eq array increasing m.defaultAttributes
  | static handle =>
    rw [home] at read
    obtain ⟨found, registered, rfl⟩ := map_eq_some_iff.1 read
    simp only [registered]
    exact attributeSlots_eq array increasing (found.defaultAttributes.map .static)

theorem layoutOf_unified {m m' : Module P} (unified : Unified m m') (array : ArrayValue) :
    m'.layoutOf array = m.layoutOf array := by
  rw [unified.only]
  rfl

section Meeting

variable {m : Module P} (plain : m.PlainFirst) {a b : ArrayValue} (differ : a ≠ b)
  {left right : List Nat} (readLeft : m.layoutOf a = some left)
  (readRight : m.layoutOf b = some right) (leftIncreasing : left.Pairwise (· < ·))
  (rightIncreasing : right.Pairwise (· < ·)) (attributed : left ≠ [] ∨ right ≠ [])
include plain differ readLeft readRight leftIncreasing rightIncreasing attributed

/-- Comparing the two arrays is comparing their leading positions, then the attributes both list.
The leading comparisons leave both layouts as they were. -/
theorem meets_pairs (depth : Nat) (d : Descent) : m.arrayDescents (unifyInner depth) d a b =
        descents (unifyInner depth) d (leadingPairs a b ++ m.attributePairs a b left right) m ∧
      m.unifyArrayItems (unifyInner depth) d a b =
        unifyItems (unifyInner depth) d (leadingPairs a b ++ m.attributePairs a b left right) m := by
  have notPlain : ¬ (a.layout = 0 ∧ b.layout = 0) := by
    rintro ⟨zeroA, zeroB⟩
    rcases attributed with some | some
    · exact some (plain.layoutOf readLeft zeroA)
    · exact some (plain.layoutOf readRight zeroB)
  have unequal : ¬ (a.layout = 0 ∧ b.layout = 0 ∧ a.items.length ≠ b.items.length) :=
    fun both => notPlain ⟨both.1, both.2.1⟩
  have merged : mergeAttributes
      ((attributeSlots a.items left).length + (attributeSlots b.items right).length)
      (attributeSlots a.items left) (attributeSlots b.items right) =
        m.attributePairs a b left right := by
    rw [slots_eq_attributes readLeft leftIncreasing, slots_eq_attributes readRight rightIncreasing]
    exact mergeAttributes_eq _ _ _ left right (by simp) leftIncreasing rightIncreasing
  have after : ∀ m', unifyItems (unifyInner depth) d (leadingPairs a b) m = some (true, m') →
      m'.layoutOf a = some left ∧ m'.layoutOf b = some right := by
    intro m' ran
    have unified := unified_rule.unifyItems (unified_rule.unifyInner depth) _ ran
    exact ⟨(layoutOf_unified unified a).trans readLeft, (layoutOf_unified unified b).trans readRight⟩
  rw [descents_append, unifyItems_append]
  unfold arrayDescents unifyArrayItems
  rw [if_neg differ, if_neg differ, if_neg unequal, if_neg unequal, leadingItems_eq notPlain]
  cases ran : unifyItems (unifyInner depth) d (leadingPairs a b) m with
  | none => exact ⟨rfl, rfl⟩
  | some answer =>
    obtain ⟨agrees, m'⟩ := answer
    cases agrees with
    | false => exact ⟨rfl, rfl⟩
    | true =>
      obtain ⟨layoutA, layoutB⟩ := after m' ran
      simp only [layoutA, layoutB, merged, bind_eq_bind, bind_some, if_true]
      exact ⟨trivial, trivial⟩

/-- Attributes meet attributes: two different arrays, not both of the empty layout, are descended
into at the leading positions both reach and at the slots of each canonical index both list, and
at no other pair; none is skipped while the comparisons agree. -/
theorem attributes_meet_attributes (depth : Nat) (d : Descent) :
    m.arrayDescents (unifyInner depth) d a b <+:
        leadingPairs a b ++ m.attributePairs a b left right ∧
      (∀ m', m.unifyArrayItems (unifyInner depth) d a b = some (true, m') →
        m.arrayDescents (unifyInner depth) d a b =
          leadingPairs a b ++ m.attributePairs a b left right) ∧
      m.unifyArrayItems (unifyInner depth) d a b =
        unifyItems (unifyInner depth) d (leadingPairs a b ++ m.attributePairs a b left right) m := by
  obtain ⟨descended, compared⟩ := meets_pairs plain differ readLeft readRight leftIncreasing
    rightIncreasing attributed depth d
  refine ⟨?_, ?_, compared⟩
  · rw [descended]
    exact descents_prefix _ d _ m
  · intro m' agreed
    rw [compared] at agreed
    rw [descended]
    exact descents_of_agrees _ d agreed

end Meeting

/-- Eight empty nodes in one block, and two schema tails that overlap in attribute 2. -/
def twoTails : Module Program.plain :=
  let m : Module Program.plain := (List.range 8).foldl (fun m _ => (m.addNode ⟨1⟩ none none).2)
    { blocks := SlotMap.insert {} { parent := none } }
  ((m.registerAttributeLayout [0, 2]).2.registerAttributeLayout [2, 3]).2

/-- Attributes 0 and 2 in full. -/
def wholeTail : ArrayValue :=
  { handle := .dynamic { block := ⟨1⟩, address := 0, items :=
      [⟨.dynamic ⟨1⟩, false, false⟩, ⟨.dynamic ⟨2⟩, false, false⟩, ⟨.dynamic ⟨3⟩, false, false⟩,
        ⟨.dynamic ⟨4⟩, false, false⟩] },
    layout := 1 }

/-- Attributes 2 and 3, cut off before the slot of 3. -/
def cutTail : ArrayValue :=
  { handle := .dynamic { block := ⟨1⟩, address := 1, items :=
      [⟨.dynamic ⟨5⟩, false, false⟩, ⟨.dynamic ⟨6⟩, false, false⟩, ⟨.dynamic ⟨7⟩, false, false⟩] },
    layout := 2 }

theorem twoTails_plain : twoTails.PlainFirst :=
  registerAttributeLayout_plainFirst (registerAttributeLayout_plainFirst
    ⟨rfl, fun _ _ registered => by cases registered⟩ [0, 2]) [2, 3]

/-- The two tails meet in both leading positions and in attribute 2. -/
theorem tails_meet_in_two :
    twoTails.unifyArrayItems (unifyInner MAX_VALUE_DEPTH) { root := (⟨1⟩, ⟨5⟩) } wholeTail cutTail =
        unifyItems (unifyInner MAX_VALUE_DEPTH) { root := (⟨1⟩, ⟨5⟩) }
          (leadingPairs wholeTail cutTail ++ twoTails.attributePairs wholeTail cutTail [0, 2] [2, 3])
          twoTails ∧
      leadingPairs wholeTail cutTail ++ twoTails.attributePairs wholeTail cutTail [0, 2] [2, 3] =
        [(0, .dynamic ⟨1⟩, .dynamic ⟨5⟩), (1, .dynamic ⟨2⟩, .dynamic ⟨6⟩),
          (4, .dynamic ⟨4⟩, .dynamic ⟨7⟩)] :=
  ⟨(attributes_meet_attributes twoTails_plain (by decide) rfl rfl (by decide) (by decide)
    (Or.inl (by decide)) MAX_VALUE_DEPTH { root := (⟨1⟩, ⟨5⟩) }).2.2, by decide +kernel⟩

/-- An array compared with itself is one value: it has four pairs to meet in, and none is descended
into. -/
theorem itself_meets_nothing : twoTails.layoutOf wholeTail = some [0, 2] ∧
      twoTails.unifyArrayItems (unifyInner MAX_VALUE_DEPTH) { root := (⟨1⟩, ⟨1⟩) } wholeTail
        wholeTail = some (true, twoTails) ∧
      twoTails.arrayDescents (unifyInner MAX_VALUE_DEPTH) { root := (⟨1⟩, ⟨1⟩) } wholeTail
        wholeTail = [] ∧
      leadingPairs wholeTail wholeTail ++
          twoTails.attributePairs wholeTail wholeTail [0, 2] [0, 2] =
        [(0, .dynamic ⟨1⟩, .dynamic ⟨1⟩), (1, .dynamic ⟨2⟩, .dynamic ⟨2⟩),
          (2, .dynamic ⟨3⟩, .dynamic ⟨3⟩), (4, .dynamic ⟨4⟩, .dynamic ⟨4⟩)] :=
  ⟨rfl, if_pos rfl, if_pos rfl, by decide +kernel⟩

end Module

end LichenVm
