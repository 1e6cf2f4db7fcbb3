import LichenVm.KernelDomain

open List
open Option (some.inj some.injEq)

namespace LichenVm.KernelDomain

open KernelIr KernelShape

theorem induct {motive : LowShape → Prop} (usize : motive .usize) (float : motive .float)
    (tuple : ∀ positions, (∀ item, some item ∈ positions → motive item) → motive (.tuple positions))
    (array : ∀ element length, (∀ item, element = some item → motive item) →
      motive (.array element length))
    (function : ∀ domain codomain, motive (.function domain codomain))
    (table : ∀ key value, motive (.table key value)) (shape : LowShape) : motive shape := by
  refine @LowShape.rec motive (fun positions => ∀ item, some item ∈ positions → motive item)
    (fun position => ∀ item, position = some item → motive item) usize float
    (fun positions each => tuple positions each) (fun element length each => array element length each)
    (fun domain codomain _ _ => function domain codomain) (fun key value _ _ => table key value)
    ?_ ?_ ?_ ?_ shape
  · intro item member
    exact absurd member (by simp)
  · intro head tail here later item member
    rcases mem_cons.1 member with rfl | member
    · exact here item rfl
    · exact later item member
  · intro item absent
    exact absurd absent (by simp)
  · intro item holds other same
    rw [← some.inj same]
    exact holds

mutual

/-- The scalar leaves of a shape, in order, each with the path that reaches it. -/
def leaves : LowShape → List (List Nat × ScalarClass)
  | .usize => [([], .int)]
  | .float => [([], .float)]
  | .tuple positions => leavesFrom 0 positions
  | .array none _ => []
  | .array (some element) length =>
    (List.range length).flatMap fun index =>
      (leaves element).map fun leaf => (index :: leaf.1, leaf.2)
  | .function _ _ | .table _ _ => []

def leavesFrom : Nat → List (Option LowShape) → List (List Nat × ScalarClass)
  | _, [] => []
  | first, none :: rest => leavesFrom (first + 1) rest
  | first, some item :: rest =>
    (leaves item).map (fun leaf => (first :: leaf.1, leaf.2)) ++ leavesFrom (first + 1) rest

end

section Arguments

variable {P : Program}

def slotValue (m : Module P) (node : AnyNodeId) : Option LowValue :=
  (m.elementValueNode node).bind fun value => (m.nodeValue value).bind Value.asLow

mutual

/-- The node holds an argument value of the shape. -/
def Argument (m : Module P) : LowShape → AnyNodeId → Prop
  | .usize, node => ∃ n, slotValue m node = some (.usize n)
  | .float, node => ∃ bits, slotValue m node = some (.float bits)
  | .tuple positions, node =>
    ∃ array, slotValue m node = some (.array array) ∧ ArgumentItems m positions array.items
  | .array none _, _ => False
  | .array (some element) length, node =>
    ∃ array, slotValue m node = some (.array array) ∧ array.items.length = length ∧
      ∀ item ∈ array.items, Argument m element item.node
  | .function _ _, node => ∃ function, slotValue m node = some (.function function)
  | .table _ _, node => ∃ table, slotValue m node = some (.table table)

def ArgumentItems (m : Module P) : List (Option LowShape) → List ArrayItem → Prop
  | [], items => items = []
  | none :: _, _ => False
  | some shape :: rest, items =>
    ∃ item later, items = item :: later ∧ Argument m shape item.node ∧ ArgumentItems m rest later

end

/-- The scalar an argument holds at a leaf's path. -/
def scalarAt (m : Module P) : List Nat → AnyNodeId → Option ScalarValue
  | [], node =>
    match slotValue m node with
    | some (.usize n) => some (.int n)
    | some (.float bits) => some (.float bits)
    | _ => none
  | index :: path, node =>
    match slotValue m node with
    | some (.array array) => array.items[index]?.bind fun item => scalarAt m path item.node
    | _ => none

end Arguments

/-- The flattenings of a shape agree: on how many positions there are, on the class of each, on
where a leaf is and on the words an argument fills them with. -/
structure FlatteningsAgree (shape : LowShape) : Prop where
  arity : (leaves shape).length = flatArity shape ∧
    (scalarClassesOf shape).length = flatArity shape ∧
    (kernelShape shape).flatArity = flatArity shape
  classes : ∀ index, index < flatArity shape →
    (scalarClassesOf shape)[index]? = some (classAt shape index) ∧
      (kernelShape shape).leafClasses[index]? = some (classAt shape index)
  offsets : ∀ (index : Nat) leaf, (leaves shape)[index]? = some leaf →
    flattenOffset shape leaf.1 = .ok index ∧ walkOffsets shape leaf.1 = some (index, false) ∧
      (scalarClassesOf shape)[index]? = some leaf.2
  arguments : ∀ (P : Program) (m : Module P) node, Argument m shape node →
    ∃ words, (∃ fuel, collectArgs m fuel node [] = .ok words) ∧ words.length = flatArity shape ∧
      ∀ (index : Nat) leaf, (leaves shape)[index]? = some leaf →
        ∃ word, words[index]? = some word ∧ scalarAt m leaf.1 node = some word ∧
          word.stated = leaf.2

/-- A scalar, or a tuple of such shapes: no position is an array, a function or a table. -/
inductive Plain : LowShape → Prop
  | usize : Plain .usize
  | float : Plain .float
  | tuple {positions : List (Option LowShape)} (known : none ∉ positions)
      (each : ∀ item, some item ∈ positions → Plain item) : Plain (.tuple positions)

/-! ### A plain shape -/

variable {item : LowShape}

theorem Plain.cons {rest : List (Option LowShape)}
    (plain : Plain (.tuple (some item :: rest))) : Plain item ∧ Plain (.tuple rest) := by
  cases plain with
  | tuple known each =>
    refine ⟨each item (by simp), .tuple (fun absent => known (by simp [absent])) ?_⟩
    intro other member
    exact each other (by simp [member])

theorem Plain.not_none {rest : List (Option LowShape)} : ¬ Plain (.tuple (none :: rest)) := by
  intro plain
  cases plain with
  | tuple known _ => exact known (by simp)

theorem leavesFrom_length (positions : List (Option LowShape)) :
    ∀ first second, (leavesFrom first positions).length = (leavesFrom second positions).length := by
  induction positions with
  | nil =>
    intro first second
    rfl
  | cons position rest ih =>
    intro first second
    cases position with
    | none =>
      exact ih _ _
    | some item =>
      rw [leavesFrom, leavesFrom, length_append, length_append, length_map,
        length_map, ih (first + 1) (second + 1)]

variable {shape : LowShape}

theorem leaves_length (plain : Plain shape) : (leaves shape).length = flatArity shape := by
  induction plain with
  | usize => rfl
  | float => rfl
  | @tuple positions known each ih =>
    rw [leaves, flatArity]
    clear each
    induction positions with
    | nil => rfl
    | cons position rest rest_ih =>
      cases position with
      | none => exact absurd mem_cons_self known
      | some item =>
        rw [leavesFrom, flatAritySlots, length_append, length_map, ih item (by simp),
          leavesFrom_length rest 1 0, rest_ih (fun absent => known (by simp [absent]))
            (fun other member => ih other (by simp [member]))]

@[simp] theorem skippedArity_zero (positions : List (Option LowShape)) :
    skippedArity positions 0 = 0 := by
  cases positions <;> rfl

@[simp] theorem skippedArity_succ (item : LowShape) (rest : List (Option LowShape)) (index : Nat) :
    skippedArity (some item :: rest) (index + 1) = flatArity item + skippedArity rest index := rfl

variable {positions : List (Option LowShape)}

/-- A leaf of a tuple is a leaf of one of its positions, past the positions before it. -/
theorem leaf_of_tuple (plain : Plain (.tuple positions)) :
    ∀ (first index : Nat) leaf, (leavesFrom first positions)[index]? = some leaf →
      ∃ at_ item path within, leaf.1 = (first + at_) :: path ∧ positions[at_]? = some (some item) ∧
        (leaves item)[within]? = some (path, leaf.2) ∧ within < flatArity item ∧
          index = skippedArity positions at_ + within := by
  induction positions with
  | nil =>
    intro first index leaf held
    simp [leavesFrom] at held
  | cons position rest ih =>
    intro first index leaf held
    cases position with
    | none => exact absurd plain Plain.not_none
    | some item =>
      obtain ⟨plainItem, plainRest⟩ := plain.cons
      have length := leaves_length plainItem
      rw [leavesFrom] at held
      rcases lt_or_ge index (flatArity item) with less | past
      · rw [getElem?_append_left (by rw [length_map]; omega), getElem?_map] at held
        obtain ⟨inner, found, rfl⟩ := Option.map_eq_some_iff.1 held
        exact ⟨0, item, inner.1, index, rfl, rfl, found, less, by simp⟩
      · rw [getElem?_append_right (by rw [length_map]; omega), length_map, length] at held
        obtain ⟨at_, other, path, within, reached, found, inner, less, same⟩ :=
          ih plainRest (first + 1) (index - flatArity item) leaf held
        refine ⟨at_ + 1, other, path, within, ?_, found, inner, less, ?_⟩
        · rw [reached, add_assoc, add_comm 1]
        · rw [skippedArity_succ]
          omega

section

variable (plain : Plain shape)

include plain

theorem scalarClassesOf_eq : scalarClassesOf shape = (leaves shape).map Prod.snd := by
  induction plain with
  | usize => rfl
  | float => rfl
  | @tuple positions known each ih =>
    clear each
    have general : ∀ first, flattenClasses positions = (leavesFrom first positions).map Prod.snd := by
      induction positions with
      | nil =>
        intro first
        rfl
      | cons position rest rest_ih =>
        intro first
        cases position with
        | none => exact absurd mem_cons_self known
        | some item =>
          rw [flattenClasses, leavesFrom, map_append, map_map, ih item (by simp),
            rest_ih (fun absent => known (by simp [absent]))
              (fun other member => ih other (by simp [member])) (first + 1)]
          rfl
    exact general 0

theorem kernelShape_leafClasses : (kernelShape shape).leafClasses = scalarClassesOf shape := by
  induction plain with
  | usize => rfl
  | float => rfl
  | @tuple positions known each ih =>
    rw [kernelShape, leafClasses, scalarClassesOf]
    clear each
    induction positions with
    | nil => rfl
    | cons position rest rest_ih =>
      cases position with
      | none => exact absurd mem_cons_self known
      | some item =>
        rw [kernelShapes, leafClassesOf, flattenClasses, ih item (by simp),
          rest_ih (fun absent => known (by simp [absent]))
            (fun other member => ih other (by simp [member]))]

theorem kernelShape_flatArity : (kernelShape shape).flatArity = flatArity shape := by
  induction plain with
  | usize => rfl
  | float => rfl
  | @tuple positions known each ih =>
    rw [kernelShape, KernelShape.flatArity, flatArity]
    clear each
    induction positions with
    | nil => rfl
    | cons position rest rest_ih =>
      cases position with
      | none => exact absurd mem_cons_self known
      | some item =>
        rw [kernelShapes, flatArityOf, flatAritySlots, ih item (by simp),
          rest_ih (fun absent => known (by simp [absent]))
            (fun other member => ih other (by simp [member]))]

end

theorem classAtPositions_skipped
    {at_ within : Nat} (known : none ∉ positions) (found : positions[at_]? = some (some item))
    (less : within < flatArity item) :
    classAtPositions positions (skippedArity positions at_ + within) = classAt item within := by
  induction at_ generalizing positions with
  | zero =>
    cases positions with
    | nil => simp at found
    | cons position rest =>
      cases found
      rw [skippedArity_zero, zero_add, classAtPositions, if_pos less]
  | succ at_ ih =>
    cases positions with
    | nil => simp at found
    | cons position rest =>
      cases position with
      | none => exact absurd mem_cons_self known
      | some other =>
        have shorter : flatArity other + skippedArity rest at_ + within - flatArity other =
            skippedArity rest at_ + within := by omega
        rw [skippedArity_succ, classAtPositions, if_neg (by omega), shorter]
        exact ih (fun absent => known (by simp [absent])) found

theorem classAt_leaf (plain : Plain shape) :
    ∀ (index : Nat) leaf, (leaves shape)[index]? = some leaf → classAt shape index = leaf.2 := by
  induction plain with
  | usize | float =>
    intro index leaf held
    have inside := mem_of_getElem? held
    rw [mem_singleton.1 inside]
    rfl
  | @tuple positions known each ih =>
    intro index leaf held
    obtain ⟨at_, item, path, within, _, found, inner, less, rfl⟩ :=
      leaf_of_tuple (.tuple known each) 0 index leaf held
    rw [classAt, classAtPositions_skipped known found less,
      ih item (mem_of_getElem? found) within _ inner]

/-- A leaf's path flattens to the leaf's index. -/
theorem flattenFrom_leaf (domain : LowShape) (plain : Plain shape) :
    ∀ (index : Nat) leaf, (leaves shape)[index]? = some leaf → ∀ offset,
      flattenFrom domain leaf.1 shape offset = .ok (offset + index) ∧
        walkFrom leaf.1 shape offset = some (offset + index, false) := by
  induction plain with
  | usize | float =>
    intro index leaf held offset
    obtain ⟨less, rfl⟩ := List.getElem?_eq_some_iff.1 held
    obtain rfl : index = 0 := Nat.lt_one_iff.1 less
    exact ⟨rfl, rfl⟩
  | @tuple positions known each ih =>
    intro index leaf held offset
    obtain ⟨at_, item, path, within, reached, found, inner, less, rfl⟩ :=
      leaf_of_tuple (.tuple known each) 0 index leaf held
    rw [reached, zero_add]
    obtain ⟨flattened, walked⟩ := ih item (mem_of_getElem? found) within _ inner
      (offset + skippedArity positions at_)
    have inside : at_ < positions.length := (List.getElem?_eq_some_iff.1 found).1
    constructor
    · rw [flattenFrom, if_neg (by omega), found]
      simp only [Option.join_some, Option.getD_some]
      rw [flattened, add_assoc]
    · rw [walkFrom, found]
      simp only
      rw [walked, add_assoc]

/-! ### The words of an argument -/

section Collected

variable {P : Program} {m : Module P}

mutual

/-- How deep an argument of a shape nests. -/
def depth : LowShape → Nat
  | .tuple positions => depths positions + 1
  | _ => 1

def depths : List (Option LowShape) → Nat
  | [] => 0
  | none :: rest => depths rest
  | some item :: rest => max (depth item) (depths rest)

end

/-- The words fill the leaves, one each and in order. -/
def Fills (m : Module P) (node : AnyNodeId) (places : List (List Nat × ScalarClass))
    (words : List ScalarValue) : Prop :=
  List.Forall₂ (fun leaf word => scalarAt m leaf.1 node = some word ∧ word.stated = leaf.2)
    places words

theorem depth_le {positions : List (Option LowShape)} {item : LowShape}
    (member : some item ∈ positions) : depth item ≤ depths positions := by
  induction positions with
  | nil => exact absurd member (by simp)
  | cons position rest ih =>
    rcases mem_cons.1 member with rfl | later
    · rw [depths]
      exact le_max_left _ _
    · cases position with
      | none => exact ih later
      | some other =>
        exact le_trans (ih later) (le_max_right _ _)

variable {node : AnyNodeId} {fuel : Nat} {path : List Nat}

theorem collectArgs_usize {n : Nat} (held : slotValue m node = some (.usize n)) :
    collectArgs m (fuel + 1) node path = .ok [ScalarValue.int n] := by
  obtain ⟨value, slot, read⟩ := Option.bind_eq_some_iff.1 held
  simp only [collectArgs, slot, read]

theorem collectArgs_float {bits : UInt32} (held : slotValue m node = some (.float bits)) :
    collectArgs m (fuel + 1) node path = .ok [ScalarValue.float bits] := by
  obtain ⟨value, slot, read⟩ := Option.bind_eq_some_iff.1 held
  simp only [collectArgs, slot, read]

section

variable {array : ArrayValue} (held : slotValue m node = some (.array array))

include held

theorem collectArgs_array :
    collectArgs m (fuel + 1) node path = (array.items.zipIdx.mapM fun place =>
        collectArgs m fuel place.1.node (path ++ [place.2])).map List.flatten := by
  obtain ⟨value, slot, read⟩ := Option.bind_eq_some_iff.1 held
  simp only [collectArgs, slot, read]

/-- The leaves of the positions from `first` on are filled by the items from there on. -/
theorem collect_items (positions : List (Option LowShape))
    (each : ∀ shape, some shape ∈ positions → ∀ inner, Argument m shape inner →
      ∀ place, ∃ words, collectArgs m fuel inner (path ++ [place]) = .ok words ∧
        Fills m inner (leaves shape) words) :
    ∀ first items, array.items.drop first = items → ArgumentItems m positions items →
      ∃ words, (items.zipIdx first).mapM (fun place =>
          collectArgs m fuel place.1.node (path ++ [place.2])) = .ok words ∧
        Fills m node (leavesFrom first positions) words.flatten := by
  induction positions with
  | nil =>
    intro first items _ holds
    subst holds
    exact ⟨[], rfl, .nil⟩
  | cons position rest ih =>
    intro first items dropped holds
    cases position with
    | none => exact absurd holds (by simp [ArgumentItems])
    | some shape =>
      obtain ⟨item, later, rfl, here, there⟩ := holds
      obtain ⟨words, collected, filled⟩ := each shape (by simp) item.node here first
      have tail : array.items.drop (first + 1) = later := by
        rw [← drop_drop, dropped]
        rfl
      obtain ⟨others, rest_collected, rest_filled⟩ :=
        ih (fun other member => each other (by simp [member])) (first + 1) later tail there
      refine ⟨words :: others, ?_, ?_⟩
      · rw [zipIdx_cons, mapM_cons, collected, rest_collected]
        rfl
      · rw [leavesFrom, flatten_cons]
        refine rel_append ?_ rest_filled
        have found : array.items[first]? = some item := by
          have head := congrArg (fun items => items[0]?) dropped
          simpa using head
        have through : ∀ (leaf : List Nat × ScalarClass) word, scalarAt m leaf.1 item.node = some word ∧ word.stated = leaf.2 →
            scalarAt m (first :: leaf.1) node = some word ∧ word.stated = leaf.2 := by
          intro leaf word reads
          rw [scalarAt, held]
          simp only [found, Option.bind_some]
          exact reads
        rw [forall₂_map_left_iff]
        exact filled.imp through

end

theorem fills_at {places : List (List Nat × ScalarClass)}
    {words : List ScalarValue} (filled : Fills m node places words) :
    ∀ {index : Nat} {leaf}, places[index]? = some leaf →
      ∃ word, words[index]? = some word ∧ scalarAt m leaf.1 node = some word ∧
        word.stated = leaf.2 := by
  induction filled with
  | nil =>
    intro index leaf held
    simp at held
  | cons here _ ih =>
    intro index leaf held
    cases index with
    | zero =>
      rw [← some.inj held]
      exact ⟨_, rfl, here⟩
    | succ index => exact ih held

/-- An argument of a plain shape is collected word for word. -/
theorem collectArgs_plain {shape : LowShape} (plain : Plain shape) :
    ∀ fuel, depth shape ≤ fuel → ∀ node, Argument m shape node → ∀ path,
      ∃ words, collectArgs m fuel node path = .ok words ∧ Fills m node (leaves shape) words := by
  induction plain with
  | usize =>
    intro fuel bound node holds path
    obtain ⟨n, held⟩ := holds
    obtain ⟨fuel, rfl⟩ : ∃ less, fuel = less + 1 := ⟨fuel - 1, by simp [depth] at bound; omega⟩
    refine ⟨[.int n], collectArgs_usize held, .cons ⟨?_, rfl⟩ .nil⟩
    rw [scalarAt, held]
  | float =>
    intro fuel bound node holds path
    obtain ⟨bits, held⟩ := holds
    obtain ⟨fuel, rfl⟩ : ∃ less, fuel = less + 1 := ⟨fuel - 1, by simp [depth] at bound; omega⟩
    refine ⟨[.float bits], collectArgs_float held, .cons ⟨?_, rfl⟩ .nil⟩
    rw [scalarAt, held]
  | @tuple positions known each ih =>
    intro fuel bound node holds path
    obtain ⟨array, held, items⟩ := holds
    obtain ⟨fuel, rfl⟩ : ∃ less, fuel = less + 1 := ⟨fuel - 1, by simp [depth] at bound; omega⟩
    rw [depth] at bound
    have each_item : ∀ shape, some shape ∈ positions → ∀ inner, Argument m shape inner →
        ∀ place, ∃ words, collectArgs m fuel inner (path ++ [place]) = .ok words ∧
          Fills m inner (leaves shape) words := by
      intro shape member inner argument place
      have shallower := depth_le member
      exact ih shape member fuel (by omega) inner argument _
    obtain ⟨words, collected, filled⟩ :=
      collect_items held positions each_item 0 array.items rfl items
    refine ⟨words.flatten, ?_, filled⟩
    rw [collectArgs_array held, collected]
    rfl

end Collected

/-! ### The shapes that agree -/

theorem known_tuple (known : knownShapes positions) :
    none ∉ positions ∧ ∀ item, some item ∈ positions → knownShape item := by
  induction positions with
  | nil => exact ⟨by simp, by simp⟩
  | cons position rest ih =>
    rw [knownShapes, Bool.and_eq_true] at known
    obtain ⟨none_rest, each⟩ := ih known.2
    cases position with
    | none => exact absurd known.1 (by simp [domainIsKnown])
    | some item =>
      have here : knownShape item := known.1
      refine ⟨by simp [none_rest], ?_⟩
      intro other member
      rcases mem_cons.1 member with same | later
      · rw [some.inj same]
        exact here
      · exact each other later

/-- A leaf of a shape no path flattens to. -/
def Unreached (shape : LowShape) : Prop :=
  ∃ leaf ∈ leaves shape, ∀ domain offset index, flattenFrom domain leaf.1 shape offset ≠ .ok index

theorem mem_leavesFrom {at_ : Nat}
    {leaf : List Nat × ScalarClass} (first : Nat) (found : positions[at_]? = some (some item))
    (inside : leaf ∈ leaves item) : ((first + at_) :: leaf.1, leaf.2) ∈ leavesFrom first positions := by
  induction positions generalizing first at_ with
  | nil => simp at found
  | cons position rest ih =>
    cases at_ with
    | zero =>
      cases found
      exact mem_append_left _ (mem_map.2 ⟨leaf, inside, rfl⟩)
    | succ at_ =>
      have later := ih (first + 1) found
      have same : first + (at_ + 1) = first + 1 + at_ := by omega
      rw [same]
      cases position with
      | none => exact later
      | some other =>
        exact mem_append_right _ later

theorem leavesFrom_short (stated : none ∉ positions)
    (short : ∀ item, some item ∈ positions → (leaves item).length ≤ flatArity item ∧
      ((leaves item).length = flatArity item → Plain item)) :
    (leavesFrom 0 positions).length ≤ flatAritySlots positions ∧
      ((leavesFrom 0 positions).length = flatAritySlots positions →
        ∀ item, some item ∈ positions → Plain item) := by
  induction positions with
  | nil => exact ⟨le_refl _, fun _ item member => absurd member (by simp)⟩
  | cons position rest ih =>
    cases position with
    | none => exact absurd mem_cons_self stated
    | some item =>
      obtain ⟨fewer, equal⟩ := ih (fun absent => stated (by simp [absent]))
        (fun other member => short other (by simp [member]))
      obtain ⟨here, plain⟩ := short item (by simp)
      rw [leavesFrom, flatAritySlots, length_append, length_map, leavesFrom_length rest 1 0]
      refine ⟨by omega, ?_⟩
      intro same other member
      rcases mem_cons.1 member with found | later
      · rw [some.inj found]
        exact plain (by omega)
      · exact equal (by omega) other later

/-- Where every leaf is reached, a position that is no scalar has none. -/
theorem leaves_short (shape : LowShape) : knownShape shape → ¬ Unreached shape →
    (leaves shape).length ≤ flatArity shape ∧
      ((leaves shape).length = flatArity shape → Plain shape) := by
  induction shape using induct with
  | usize => exact fun _ _ => ⟨le_refl _, fun _ => .usize⟩
  | float => exact fun _ _ => ⟨le_refl _, fun _ => .float⟩
  | function domain codomain | table key value =>
    intro _ _
    exact ⟨Nat.zero_le _, fun same => absurd same (by simp [leaves, flatArity])⟩
  | array element length ih =>
    intro known reached
    have empty : leaves (.array element length) = [] := by
      by_contra some_leaf
      obtain ⟨leaf, member⟩ := exists_mem_of_ne_nil _ some_leaf
      apply reached
      refine ⟨leaf, member, ?_⟩
      intro domain offset index
      cases element with
      | none => exact absurd known (by simp [knownShape, domainIsKnown])
      | some element =>
        rw [leaves, mem_flatMap] at member
        obtain ⟨place, _, within⟩ := member
        obtain ⟨inner, _, rfl⟩ := mem_map.1 within
        simp [flattenFrom]
    rw [empty]
    exact ⟨Nat.zero_le _, fun same => absurd same (by simp [flatArity])⟩
  | tuple positions ih =>
    intro known reached
    obtain ⟨stated, each⟩ := known_tuple known
    have reached_within : ∀ item, some item ∈ positions → ¬ Unreached item := by
      rintro item member ⟨leaf, inside, never⟩
      obtain ⟨at_, found⟩ := mem_iff_getElem?.1 member
      apply reached
      refine ⟨(at_ :: leaf.1, leaf.2), ?_, ?_⟩
      · rw [leaves]
        simpa using mem_leavesFrom 0 found inside
      · intro domain offset index
        have bound : at_ < positions.length := (List.getElem?_eq_some_iff.1 found).1
        rw [flattenFrom, if_neg (by omega), found]
        exact never domain _ index
    have short : ∀ item, some item ∈ positions → (leaves item).length ≤ flatArity item ∧
        ((leaves item).length = flatArity item → Plain item) := fun item member =>
      ih item member (each item member) (reached_within item member)
    obtain ⟨fewer, equal⟩ := leavesFrom_short stated short
    exact ⟨fewer, fun same => .tuple stated (equal same)⟩

theorem known_of_accepted {domain : Option LowShape} {statement : DomainStatement} (accepted :
    kernelDomain domain statement = .ok shape) :
    knownShape shape := by
  unfold kernelDomain at accepted
  by_cases known : domainIsKnown domain
  · rw [if_pos known] at accepted
    cases domain with
    | none => exact absurd accepted (by simp)
    | some stated =>
      cases stated with
      | usize | float =>
        rw [← Except.ok.inj accepted]
        rfl
      | tuple positions =>
        rw [← Except.ok.inj accepted]
        exact known
      | array element length | function domain codomain | table key value =>
        exact absurd accepted (by simp)
  · rw [if_neg known] at accepted
    cases statement with
    | struct | absent => exact absurd accepted (by simp)
    | shape =>
      cases unreadable : domain.bind firstUnreadablePosition with
      | none | some position => simp [unreadable] at accepted

/-- The flattenings of a shape a kernel domain accepts agree exactly when no position of it is an
array, a function or a table. -/
theorem flatteningsAgree_iff (domain : Option LowShape) (statement : DomainStatement)
    (shape : LowShape) (accepted : kernelDomain domain statement = .ok shape) :
    FlatteningsAgree shape ↔ Plain shape := by
  have known := known_of_accepted accepted
  constructor
  · intro agree
    refine (leaves_short shape known ?_).2 agree.arity.1
    rintro ⟨leaf, member, never⟩
    obtain ⟨index, held⟩ := mem_iff_getElem?.1 member
    exact never shape 0 index (agree.offsets index leaf held).1
  · intro plain
    have classes := scalarClassesOf_eq plain
    have length := leaves_length plain
    have leaf_at {index : Nat} (less : index < flatArity shape) :
        ∃ leaf, (leaves shape)[index]? = some leaf :=
      ⟨_, getElem?_eq_getElem (by omega)⟩
    have class_at {index : Nat} {leaf : List Nat × ScalarClass}
        (held : (leaves shape)[index]? = some leaf) :
        (scalarClassesOf shape)[index]? = some leaf.2 := by
      rw [classes, getElem?_map, held]
      rfl
    refine ⟨⟨length, ?_, kernelShape_flatArity plain⟩, ?_, ?_, ?_⟩
    · rw [classes, length_map, length]
    · intro index less
      obtain ⟨leaf, held⟩ := leaf_at less
      rw [kernelShape_leafClasses plain, classAt_leaf plain index leaf held, class_at held]
      exact ⟨rfl, rfl⟩
    · intro index leaf held
      obtain ⟨flattened, walked⟩ := flattenFrom_leaf shape plain index leaf held 0
      rw [zero_add] at flattened walked
      exact ⟨flattened, walked, class_at held⟩
    · intro P m node argument
      obtain ⟨words, collected, filled⟩ :=
        collectArgs_plain plain (depth shape) (le_refl _) node argument []
      refine ⟨words, ⟨_, collected⟩, ?_, ?_⟩
      · rw [← List.Forall₂.length_eq filled, length]
      · intro index leaf held
        exact fills_at filled held

/-- A tuple of a float and a pair of integers. -/
theorem flatteningsAgree_nested :
    FlatteningsAgree (.tuple [some .float, some (.tuple [some .usize, some .usize])]) :=
  (flatteningsAgree_iff (some (.tuple [some .float, some (.tuple [some .usize, some .usize])]))
    .shape _ rfl).2
    (.tuple (by simp) fun item member => by
      simp only [mem_cons, some.injEq, not_mem_nil, or_false] at member
      rcases member with rfl | rfl
      · exact .float
      · refine .tuple (by simp) fun inner within => ?_
        simp only [mem_cons, some.injEq, not_mem_nil, or_false, or_self] at within
        rw [within]
        exact .usize)

/-- An array of floats in a tuple is one local the body takes for an integer and the fragment for a
float. -/
theorem flatteningsAgree_not_array :
    kernelDomain (some (.tuple [some (.array (some .float) 3), some .usize])) .shape =
        .ok (.tuple [some (.array (some .float) 3), some .usize]) ∧
      scalarClassesOf (.tuple [some (.array (some .float) 3), some .usize]) = [.int, .int] ∧
      (kernelShape (.tuple [some (.array (some .float) 3), some .usize])).leafClasses =
        [.float, .int] ∧
      ¬ FlatteningsAgree (.tuple [some (.array (some .float) 3), some .usize]) := by
  refine ⟨rfl, rfl, rfl, ?_⟩
  intro agree
  have read := agree.classes 0 (by decide)
  exact absurd (read.1.trans read.2.symm) (by decide)

end LichenVm.KernelDomain
