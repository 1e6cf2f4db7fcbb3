import LichenVm.SortedRun
import Mathlib.Data.List.Range

open List Option

namespace LichenVm.StructInstances

variable {Name : Type}

/-- A struct's name table: each named field with its position, ordered by the names' hashes, the
entries of one hash in the definition's order. A struct of wholly unnamed fields has none. -/
def buildStructNames (hash : Name → Nat) (names : List (Option Name)) :
    Option (List (Name × Nat)) :=
  if names ≠ [] ∧ names.all Option.isNone = true then none
  else some (SortedRun.sortByKey (fun entry => hash entry.1)
    (names.zipIdx.filterMap fun field => field.1.map (·, field.2)))

def nameTableIndex [DecidableEq Name] (table : List (Name × Nat)) (name : Name) : Option Nat :=
  (table.find? fun entry => entry.1 = name).map Prod.snd

def structFieldName (table : List (Name × Nat)) (position : Nat) : Option Name :=
  (table.find? fun entry => entry.2 = position).map Prod.fst

/-- A recorded refusal of a call: where it is reported and the name it spells. -/
inductive Refusal (Name : Type) where
  | duplicateField (argument : Nat) (name : Name)
  | unknownField (argument : Nat) (name : Name)
  | excessField (argument : Nat)
  | missingField (name : Option Name)
  deriving DecidableEq

/-- A pairing under way: the argument of each position, the cursor of the positional arguments,
and what was refused. -/
structure Pairing (Name : Type) where
  assign : List (Option Nat) := []
  next : Nat := 0
  valid : Bool := true
  unknownField : Bool := false
  refusals : List (Refusal Name) := []

/-- Grow a list with empty slots. A longer list is left alone. -/
def resize (slots : List (Option Nat)) (length : Nat) : List (Option Nat) :=
  slots ++ List.replicate (length - slots.length) none

namespace Pairing

def claimNamed (field : Name → Option Nat) (s : Pairing Name) (argument : Option Name × Nat) :
    Pairing Name :=
  match argument.1 with
  | none => s
  | some name =>
    match field name with
    | some position =>
      let assign := resize s.assign (position + 1)
      if assign[position]?.join.isSome then
        { s with assign, valid := false,
                 refusals := s.refusals ++ [.duplicateField argument.2 name] }
      else { s with assign := assign.set position (some argument.2) }
    | none =>
      { s with valid := false, unknownField := true,
               refusals := s.refusals ++ [.unknownField argument.2 name] }

/-- The first position from the cursor on that nobody claimed, or the end. -/
def skipClaimed (s : Pairing Name) : Nat :=
  s.next + ((s.assign.drop s.next).takeWhile Option.isSome).length

/-- A positional argument fills the lowest-numbered unclaimed position. -/
def claimPositional (length : Nat) (s : Pairing Name) (argument : Option Name × Nat) :
    Pairing Name :=
  if argument.1.isSome then s
  else
    let next := s.skipClaimed
    if next < s.assign.length then
      { s with assign := s.assign.set next (some argument.2), next := next + 1 }
    else if length ≤ s.assign.length then
      -- Every definition position is claimed.
      { s with next, valid := false, refusals := s.refusals ++ [.excessField argument.2] }
    else { s with assign := s.assign ++ [some argument.2], next := next + 1 }

/-- The missing fields, when every named argument is known. -/
def claimMissing (fieldName : Nat → Option Name) (length : Nat) (s : Pairing Name) :
    Pairing Name :=
  if s.unknownField then s
  else
    let assign := resize s.assign length
    let missing := (assign.take length).zipIdx.filterMap fun slot =>
      if slot.1.isNone then some (Refusal.missingField (fieldName slot.2)) else none
    { s with assign, valid := s.valid && missing.isEmpty, refusals := s.refusals ++ missing }

end Pairing

/-- The arguments in the definition's order, whether the call matched the definition, and what was
refused. -/
structure Reordering (Name : Type) where
  ordered : List Nat
  valid : Bool
  refusals : List (Refusal Name)

def reorderArguments [DecidableEq Name] (table : Option (List (Name × Nat)))
    (argNames : List (Option Name)) (length : Nat) : Reordering Name :=
  let field := fun name => table.bind fun table => nameTableIndex table name
  let fieldName := fun position => table.bind fun table => structFieldName table position
  let named := argNames.zipIdx.foldl (Pairing.claimNamed field) {}
  let filled := argNames.zipIdx.foldl (Pairing.claimPositional length) named
  let paired := filled.claimMissing fieldName length
  { ordered := (paired.assign.take length).filterMap id
    valid := paired.valid
    refusals := paired.refusals }

/-- The fields an instantiation unifies, each with its argument: none when the call is refused. -/
def fieldUnifies (length : Nat) (answer : Reordering Name) : List (Nat × Nat) :=
  if answer.valid then
    answer.ordered.zipIdx.filterMap fun argument =>
      if argument.2 < length then some (argument.2, argument.1) else none
  else []

section Slots

/-- Put the arguments into the empty slots, in order. -/
def fill : List (Option Nat) → List Nat → List (Option Nat)
  | some held :: slots, arguments => some held :: fill slots arguments
  | none :: slots, argument :: arguments => some argument :: fill slots arguments
  | none :: slots, [] => none :: fill slots []
  | [], _ => []

/-- The indices of the empty slots, counted from `base`. -/
def vacant (base : Nat) : List (Option Nat) → List Nat
  | [] => []
  | some _ :: slots => vacant (base + 1) slots
  | none :: slots => base :: vacant (base + 1) slots

theorem fill_length (slots : List (Option Nat)) (arguments : List Nat) :
    (fill slots arguments).length = slots.length := by
  fun_induction fill slots arguments <;> simp_all

theorem vacant_length (base : Nat) (slots : List (Option Nat)) :
    (vacant base slots).length = slots.countP Option.isNone := by
  fun_induction vacant base slots <;> simp_all

variable {slots : List (Option Nat)}

theorem vacant_ge {base index : Nat} (inside : index ∈ vacant base slots) : base ≤ index := by
  induction slots generalizing base with
  | nil => cases inside
  | cons slot slots ih =>
    cases slot with
    | some held => exact Nat.le_of_succ_le (ih inside)
    | none =>
      rcases mem_cons.1 inside with rfl | inside
      · exact le_refl _
      · exact Nat.le_of_succ_le (ih inside)

section

variable (slots : List (Option Nat)) (arguments : List Nat)

theorem base_not_mem_zip (base held : Nat) :
    (held, base) ∉ arguments.zip (vacant (base + 1) slots) := by
  intro inside
  have := vacant_ge (of_mem_zip inside).2
  omega

/-- A slot holds what it held, or the argument of its turn. -/
theorem fill_eq_some_iff (base index held : Nat) :
    (fill slots arguments)[index]? = some (some held) ↔ slots[index]? = some (some held) ∨
        (held, base + index) ∈ arguments.zip (vacant base slots) := by
  induction slots generalizing arguments base index with
  | nil => simp [fill, vacant]
  | cons slot slots ih =>
    have shift (index : Nat) : base + (index + 1) = base + 1 + index := by omega
    have later (arguments : List Nat) := base_not_mem_zip slots arguments base held
    cases slot with
    | some taken =>
      cases index with
      | zero => simp [fill, vacant, later]
      | succ index =>
        rw [fill, vacant, shift index]
        exact ih arguments (base + 1) index
    | none =>
      cases arguments with
      | nil =>
        cases index with
        | zero => simp [fill]
        | succ index =>
          rw [fill, zip_nil_left]
          simpa using ih [] (base + 1) index
      | cons argument arguments =>
        rw [fill, vacant, zip_cons_cons, mem_cons]
        cases index with
        | zero =>
          constructor
          · intro here
            exact .inr (.inl (Prod.ext (some.inj (some.inj here)).symm rfl))
          · rintro (here | here | here)
            · cases here
            · exact congrArg (fun pair : Nat × Nat => some (some pair.1)) here.symm
            · exact absurd here (later arguments)
        | succ index =>
          have apart : (held, base + (index + 1)) ≠ (argument, base) := fun same => by
            have := congrArg Prod.snd same
            omega
          rw [or_iff_right apart, shift index]
          exact ih arguments (base + 1) index

theorem none_mem_fill :
    none ∈ fill slots arguments ↔ arguments.length < slots.countP Option.isNone := by
  fun_induction fill slots arguments with
  | case1 held slots arguments ih => simp [ih]
  | case2 slots argument arguments ih => simp [ih]
  | case3 slots ih => simp
  | case4 => simp

end

theorem fill_of_full (full : none ∉ slots) (arguments : List Nat) :
    fill slots arguments = slots := by
  induction slots with
  | nil => rfl
  | cons slot slots ih =>
    cases slot with
    | none => exact absurd (mem_cons_self ..) full
    | some held => rw [fill, ih fun inside => full (mem_cons_of_mem _ inside)]

theorem fill_cons {first : Nat}
    (before : ∀ index < first, slots[index]?.join.isSome) (empty : slots[first]? = some none)
    (argument : Nat) (arguments : List Nat) :
    fill slots (argument :: arguments) = fill (slots.set first (some argument)) arguments := by
  induction slots generalizing first with
  | nil => cases empty
  | cons slot slots ih =>
    cases first with
    | zero =>
      cases (some.inj empty : slot = none)
      rfl
    | succ first =>
      have held := before 0 (Nat.succ_pos first)
      cases slot with
      | none => cases held
      | some held =>
        rw [fill, set_cons_succ, fill]
        rw [ih (fun index below => before (index + 1) (Nat.succ_lt_succ below)) empty]

theorem vacant_map (claimant : Nat → Option Nat) (base count : Nat) :
    vacant base ((List.range' base count).map claimant) =
      (List.range' base count).filter fun position => (claimant position).isNone := by
  induction count generalizing base with
  | zero => rfl
  | succ count ih =>
    rw [List.range'_succ, map_cons]
    cases held : claimant base with
    | none => rw [vacant, filter_cons_of_pos (by rw [held]; rfl), ih]
    | some argument => rw [vacant, filter_cons_of_neg (by rw [held]; simp), ih]

end Slots

section

variable (slots : List (Option Nat))

include slots

theorem join_resize (length index : Nat) :
    (resize slots length)[index]?.join = slots[index]?.join := by
  unfold resize
  rw [getElem?_append]
  split
  · rfl
  · next beyond =>
    rw [getElem?_replicate, getElem?_eq_none (Nat.le_of_not_lt beyond)]
    split <;> rfl

theorem resize_length (length : Nat) : (resize slots length).length = max slots.length length := by
  simp only [resize, length_append, length_replicate]
  omega

theorem join_set {at' : Nat} (inside : at' < slots.length) (held index : Nat) :
    (slots.set at' (some held))[index]?.join =
      if index = at' then some held else slots[index]?.join := by
  by_cases same : index = at'
  · rw [if_pos same, same, getElem?_set_self inside]
    rfl
  · rw [if_neg same, getElem?_set_ne (Ne.symm same)]

end

section Named

variable (field : Name → Option Nat) (length : Nat)

def namedPosition (argument : Option Name × Nat) : Option Nat := argument.1.bind field

/-- What the named arguments passed so far have claimed. -/
structure NamedPhase (passed : List (Option Name × Nat)) (s : Pairing Name) : Prop where
  next : s.next = 0
  bounded : s.assign.length ≤ length
  holds : ∀ position argument, s.assign[position]?.join = some argument →
    ∃ entry ∈ passed, entry.2 = argument ∧ namedPosition field entry = some position
  taken : ∀ entry ∈ passed, ∀ position, namedPosition field entry = some position →
    s.assign[position]?.join.isSome
  valid : s.valid = true ↔ (∀ entry ∈ passed, entry.1.isSome → (namedPosition field entry).isSome) ∧
      (passed.filterMap (namedPosition field)).Nodup
  unknown : s.unknownField = true → s.valid = false
  refused : s.valid = false → s.refusals ≠ []

variable {field length} {passed : List (Option Name × Nat)} {s : Pairing Name}

section

variable (phase : NamedPhase field length passed s)

include phase

theorem NamedPhase.mem_iff (position : Nat) :
    position ∈ passed.filterMap (namedPosition field) ↔ s.assign[position]?.join.isSome := by
  rw [mem_filterMap]
  constructor
  · rintro ⟨entry, inside, names⟩
    exact phase.taken entry inside position names
  · intro held
    obtain ⟨argument, held⟩ := isSome_iff_exists.1 held
    obtain ⟨entry, inside, -, names⟩ := phase.holds position argument held
    exact ⟨entry, inside, names⟩

theorem NamedPhase.noName (argument : Nat) :
    NamedPhase field length (passed ++ [(none, argument)]) s where
  next := phase.next
  bounded := phase.bounded
  holds position held at' := by
    obtain ⟨entry, inside, rest⟩ := phase.holds position held at'
    exact ⟨entry, mem_append_left _ inside, rest⟩
  taken entry inside position names := by
    rcases mem_append.1 inside with inside | inside
    · exact phase.taken entry inside position names
    · rw [mem_singleton.1 inside] at names
      cases names
  valid := by
    rw [phase.valid, filterMap_append, filterMap_cons_none rfl]
    simp [or_imp, forall_and]
  unknown := phase.unknown
  refused := phase.refused

theorem NamedPhase.unknownName {name : Name} (unknown : field name = none) (argument : Nat) :
    NamedPhase field length (passed ++ [(some name, argument)])
      (s.claimNamed field (some name, argument)) := by
  have step : s.claimNamed field (some name, argument) =
      { s with valid := false, unknownField := true,
               refusals := s.refusals ++ [.unknownField argument name] } := by
    simp only [Pairing.claimNamed, unknown]
  have nothing : namedPosition field (some name, argument) = none := unknown
  rw [step]
  exact
    { next := phase.next
      bounded := phase.bounded
      holds := fun position held at' => by
        obtain ⟨entry, inside, rest⟩ := phase.holds position held at'
        exact ⟨entry, mem_append_left _ inside, rest⟩
      taken := fun entry inside position names => by
        rcases mem_append.1 inside with inside | inside
        · exact phase.taken entry inside position names
        · rw [mem_singleton.1 inside, nothing] at names
          cases names
      valid := by
        refine iff_of_false Bool.false_ne_true fun both => ?_
        have known := both.1 (some name, argument) (by simp) rfl
        rw [nothing] at known
        cases known
      unknown := fun _ => rfl
      refused := fun _ => by simp }

end

section

variable (inRange : ∀ name position, field name = some position → position < length)

include inRange

theorem NamedPhase.knownName (phase : NamedPhase field length passed s) {name : Name}
    {position : Nat} (known : field name = some position) (argument : Nat) :
    NamedPhase field length (passed ++ [(some name, argument)])
      (s.claimNamed field (some name, argument)) := by
  have names : namedPosition field (some name, argument) = some position := known
  have below := inRange name position known
  have grown : (resize s.assign (position + 1)).length ≤ length := by
    have := phase.bounded
    rw [resize_length]
    omega
  have inside : position < (resize s.assign (position + 1)).length := by
    rw [resize_length]
    omega
  have claims : (passed ++ [(some name, argument)]).filterMap (namedPosition field) =
      passed.filterMap (namedPosition field) ++ [position] := by
    rw [filterMap_append, filterMap_cons_some names]
    rfl
  have knows : (∀ entry ∈ passed ++ [(some name, argument)], entry.1.isSome →
        (namedPosition field entry).isSome) ↔
      ∀ entry ∈ passed, entry.1.isSome → (namedPosition field entry).isSome := by
    simp [or_imp, forall_and, names]
  by_cases occupied : s.assign[position]?.join.isSome
  · have step : s.claimNamed field (some name, argument) =
        { s with assign := resize s.assign (position + 1), valid := false,
                 refusals := s.refusals ++ [.duplicateField argument name] } := by
      simp only [Pairing.claimNamed, known, join_resize, occupied, if_true]
    rw [step]
    exact
      { next := phase.next
        bounded := grown
        holds := fun position held at' => by
          rw [join_resize] at at'
          obtain ⟨entry, inside, rest⟩ := phase.holds position held at'
          exact ⟨entry, mem_append_left _ inside, rest⟩
        taken := fun entry member other claims => by
          rw [join_resize]
          rcases mem_append.1 member with member | member
          · exact phase.taken entry member other claims
          · rw [mem_singleton.1 member, names] at claims
            cases claims
            exact occupied
        valid := by
          refine iff_of_false Bool.false_ne_true fun both => ?_
          have apart := both.2
          rw [claims, nodup_append] at apart
          exact apart.2.2 position ((phase.mem_iff position).2 occupied) position
            (mem_singleton_self _) rfl
        unknown := fun _ => rfl
        refused := fun _ => by simp }
  · have step : s.claimNamed field (some name, argument) =
        { s with assign := (resize s.assign (position + 1)).set position (some argument) } := by
      simp only [Pairing.claimNamed, known, join_resize, occupied, if_false, Bool.false_eq_true]
    rw [step]
    exact
      { next := phase.next
        bounded := by rw [length_set]; exact grown
        holds := fun other held at' => by
          rw [join_set _ inside, join_resize] at at'
          split at at'
          · next same =>
            cases at'
            exact ⟨_, mem_append_right _ (mem_singleton_self _), rfl, same ▸ names⟩
          · obtain ⟨entry, inside, rest⟩ := phase.holds other held at'
            exact ⟨entry, mem_append_left _ inside, rest⟩
        taken := fun entry member other claims => by
          rw [join_set _ inside, join_resize]
          split
          · rfl
          · next apart =>
            rcases mem_append.1 member with member | member
            · exact phase.taken entry member other claims
            · rw [mem_singleton.1 member, names] at claims
              exact absurd (some.inj claims).symm apart
        valid := by
          rw [phase.valid, knows, claims, nodup_append]
          have fresh : position ∉ passed.filterMap (namedPosition field) :=
            fun here => occupied ((phase.mem_iff position).1 here)
          simp only [nodup_singleton, mem_singleton, true_and]
          refine and_congr_right fun _ => ?_
          exact ⟨fun apart => ⟨apart, fun a inside b same hit => fresh (same ▸ hit ▸ inside)⟩,
            And.left⟩
        unknown := phase.unknown
        refused := phase.refused }

theorem NamedPhase.step (phase : NamedPhase field length passed s) (argument : Option Name × Nat) :
    NamedPhase field length (passed ++ [argument]) (s.claimNamed field argument) := by
  obtain ⟨name, index⟩ := argument
  cases name with
  | none => exact phase.noName index
  | some name =>
    cases found : field name with
    | none => exact phase.unknownName found index
    | some position => exact phase.knownName inRange found index

theorem NamedPhase.foldl (arguments : List (Option Name × Nat))
    (phase : NamedPhase field length passed s) :
    NamedPhase field length (passed ++ arguments)
      (arguments.foldl (Pairing.claimNamed field) s) := by
  induction arguments generalizing passed s with
  | nil => rwa [append_nil]
  | cons argument arguments ih =>
    rw [append_cons]
    exact ih (phase.step inRange argument)

end

theorem NamedPhase.start : NamedPhase field length [] ({} : Pairing Name) where
  next := rfl
  bounded := Nat.zero_le _
  holds _ _ held := by cases held
  taken _ inside := by cases inside
  valid := by simp
  unknown unknown := by cases unknown
  refused invalid := by cases invalid

theorem namedPosition_join {argNames : List (Option Name)} {entry : Option Name × Nat}
    (inside : entry ∈ argNames.zipIdx) (field : Name → Option Nat) :
    namedPosition field entry = argNames[entry.2]?.join.bind field := by
  rw [mem_zipIdx_iff_getElem?.1 inside]
  rfl

theorem mem_zipIdx_of_named {argNames : List (Option Name)} {field : Name → Option Nat}
    {argument position : Nat} (names : argNames[argument]?.join.bind field = some position) :
    ∃ name, (some name, argument) ∈ argNames.zipIdx ∧ field name = some position := by
  cases here : argNames[argument]?.join with
  | none => rw [here] at names; cases names
  | some name =>
    rw [here] at names
    exact ⟨name, mem_zipIdx_iff_getElem?.2 (join_eq_some_iff.1 here), names⟩

/-- No two arguments name one field. -/
theorem named_nodup_iff (argNames : List (Option Name)) (field : Name → Option Nat) :
    (argNames.zipIdx.filterMap (namedPosition field)).Nodup ↔
      ∀ position argument argument' : Nat, argNames[argument]?.join.bind field = some position →
        argNames[argument']?.join.bind field = some position → argument = argument' := by
  have entry (index : Nat) (inside : index < argNames.zipIdx.length) :
      namedPosition field argNames.zipIdx[index] = argNames[index]?.join.bind field := by
    rw [namedPosition_join (getElem_mem inside), getElem_zipIdx, zero_add]
  rw [List.Nodup, pairwise_filterMap, pairwise_iff_getElem]
  constructor
  · intro apart position argument argument' one two
    obtain ⟨name, here, -⟩ := mem_zipIdx_of_named one
    obtain ⟨name', there, -⟩ := mem_zipIdx_of_named two
    have inside : argument < argNames.zipIdx.length := by
      rw [length_zipIdx]
      exact (List.getElem?_eq_some_iff.1 (mem_zipIdx_iff_getElem?.1 here)).1
    have inside' : argument' < argNames.zipIdx.length := by
      rw [length_zipIdx]
      exact (List.getElem?_eq_some_iff.1 (mem_zipIdx_iff_getElem?.1 there)).1
    rw [← entry argument inside] at one
    rw [← entry argument' inside'] at two
    rcases Nat.lt_trichotomy argument argument' with early | same | late
    · exact absurd rfl (apart argument argument' inside inside' early position one position two)
    · exact same
    · exact absurd rfl (apart argument' argument inside' inside late position two position one)
  · intro apart argument argument' inside inside' early position one position' two same
    subst same
    rw [entry argument inside] at one
    rw [entry argument' inside'] at two
    exact absurd (apart position argument argument' one two) (ne_of_lt early)

end Named

section Positional

variable (length : Nat)

/-- The argument of each definition position. -/
def padded (slots : List (Option Nat)) : List (Option Nat) :=
  (List.range length).map fun position => slots[position]?.join

variable {length} (slots : List (Option Nat))

theorem padded_getElem? (position : Nat) :
    (padded length slots)[position]? =
      if position < length then some slots[position]?.join else none := by
  unfold padded
  rw [getElem?_map]
  split
  · next below => rw [getElem?_range below]; rfl
  · next beyond =>
    rw [getElem?_eq_none (by rw [length_range]; exact Nat.le_of_not_lt beyond)]
    rfl

variable {at' : Nat}

theorem padded_update {slots slots' : List (Option Nat)} {held : Nat}
    (update : ∀ index, slots'[index]?.join = if index = at' then some held else slots[index]?.join) :
    padded length slots' = (padded length slots).set at' (some held) := by
  apply ext_getElem?
  intro index
  rw [padded_getElem?, getElem?_set, update, padded_getElem?]
  have long : (padded length slots).length = length := by simp [padded]
  rw [long]
  by_cases same : index = at'
  · subst same
    simp
  · rw [if_neg same, if_neg (Ne.symm same)]

/-- Everything before the cursor is claimed. -/
structure Cursor (s : Pairing Name) : Prop where
  inside : s.next ≤ s.assign.length
  claimed : ∀ position < s.next, s.assign[position]?.join.isSome

theorem takeWhile_isSome :
    (slots.takeWhile Option.isSome).length ≤ slots.length ∧
      (∀ index < (slots.takeWhile Option.isSome).length, slots[index]?.join.isSome) ∧
      slots[(slots.takeWhile Option.isSome).length]?.join = none := by
  induction slots with
  | nil => exact ⟨le_refl _, fun _ below => absurd below (Nat.not_lt_zero _), rfl⟩
  | cons slot slots ih =>
    cases slot with
    | none => exact ⟨Nat.zero_le _, fun _ below => absurd below (Nat.not_lt_zero _), rfl⟩
    | some held =>
      refine ⟨Nat.succ_le_succ ih.1, fun index below => ?_, ih.2.2⟩
      cases index with
      | zero => rfl
      | succ index => exact ih.2.1 index (Nat.lt_of_succ_lt_succ below)

variable {s : Pairing Name}

theorem Cursor.skipClaimed (cursor : Cursor s) : s.skipClaimed ≤ s.assign.length ∧
      (∀ position < s.skipClaimed, s.assign[position]?.join.isSome) ∧
      s.assign[s.skipClaimed]?.join = none := by
  have walk := takeWhile_isSome (s.assign.drop s.next)
  have shorter := walk.1
  rw [length_drop] at shorter
  have inside := cursor.inside
  unfold Pairing.skipClaimed
  refine ⟨by omega, fun position below => ?_, ?_⟩
  · by_cases before : position < s.next
    · exact cursor.claimed position before
    · have passed := walk.2.1 (position - s.next) (by omega)
      rw [getElem?_drop] at passed
      rwa [show s.next + (position - s.next) = position by omega] at passed
  · have stop := walk.2.2
    rwa [getElem?_drop] at stop

/-- What the positional arguments of the calls `turns` made of a pairing. -/
structure Filled (length : Nat) (s : Pairing Name) (turns : List Nat) (s' : Pairing Name) :
    Prop where
  slots : padded length s'.assign = fill (padded length s.assign) turns
  bounded : s'.assign.length ≤ length
  unknownField : s'.unknownField = s.unknownField
  valid : s'.valid = true ↔
    s.valid = true ∧ turns.length ≤ (padded length s.assign).countP Option.isNone
  refused : (s.valid = false → s.refusals ≠ []) → s'.valid = false → s'.refusals ≠ []

theorem fill_nil : fill slots [] = slots := by
  induction slots with
  | nil => rfl
  | cons slot slots ih => cases slot <;> simp [fill, ih]

theorem Filled.refl (bounded : s.assign.length ≤ length) : Filled length s [] s where
  slots := (fill_nil _).symm
  bounded := bounded
  unknownField := rfl
  valid := by simp
  refused reported := reported

theorem countP_set_none {slots : List (Option Nat)} (empty : slots[at']? = some none) (held : Nat) :
    (slots.set at' (some held)).countP Option.isNone + 1 = slots.countP Option.isNone := by
  induction slots generalizing at' with
  | nil => cases empty
  | cons slot slots ih =>
    cases at' with
    | zero =>
      cases (some.inj empty : slot = none)
      simp
    | succ at' =>
      have rest := @ih at' empty
      rw [set_cons_succ, countP_cons, countP_cons]
      omega

variable {argument : Nat}

/-- A positional argument takes the first unclaimed field. -/
theorem Filled.claim {s' t : Pairing Name} {turns : List Nat}
    (below : at' < length) (before : ∀ position < at', s.assign[position]?.join.isSome)
    (empty : s.assign[at']?.join = none)
    (update : ∀ index, t.assign[index]?.join =
      if index = at' then some argument else s.assign[index]?.join)
    (valid : t.valid = s.valid) (unknown : t.unknownField = s.unknownField)
    (refusals : t.refusals = s.refusals) (rest : Filled length t turns s') :
    Filled length s (argument :: turns) s' := by
  have slots := @padded_update length _ _ _ _ update
  have hole : (padded length s.assign)[at']? = some none := by
    rw [padded_getElem?, if_pos below, empty]
  have first : fill (padded length s.assign) (argument :: turns) =
      fill (padded length t.assign) turns := by
    rw [slots]
    refine fill_cons (fun index early => ?_) hole argument turns
    rw [padded_getElem?, if_pos (lt_trans early below)]
    exact before index early
  exact
    { slots := rest.slots.trans first.symm
      bounded := rest.bounded
      unknownField := rest.unknownField.trans unknown
      valid := by
        have count := countP_set_none hole argument
        rw [rest.valid, valid, slots, length_cons, ← count]
        refine and_congr_right fun _ => ?_
        omega
      refused := fun reported => rest.refused (by rw [valid, refusals]; exact reported) }

/-- An argument with no unclaimed field left is an excess. -/
theorem Filled.excess {s' t : Pairing Name} {turns : List Nat}
    (full : ∀ position < length, s.assign[position]?.join.isSome)
    (assign : t.assign = s.assign) (valid : t.valid = false)
    (unknown : t.unknownField = s.unknownField) (refusals : t.refusals ≠ [])
    (rest : Filled length t turns s') : Filled length s (argument :: turns) s' := by
  have nowhere : none ∉ padded length s.assign := by
    intro inside
    obtain ⟨position, below, empty⟩ := List.mem_map.1 inside
    have held := full position (mem_range.1 below)
    rw [empty] at held
    cases held
  have none' : (padded length s.assign).countP Option.isNone = 0 := by
    rw [countP_eq_zero]
    intro slot inside empty
    exact nowhere (isNone_iff_eq_none.1 empty ▸ inside)
  have slots := rest.slots
  rw [assign, fill_of_full nowhere] at slots
  exact
    { slots := slots.trans (fill_of_full nowhere _).symm
      bounded := rest.bounded
      unknownField := rest.unknownField.trans unknown
      valid := by
        rw [rest.valid, valid, none', length_cons]
        exact iff_of_false (fun both => Bool.false_ne_true both.1) (fun both => by omega)
      refused := fun _ => rest.refused fun _ => refusals }

/-- The positional arguments of a call, in call order. -/
def turnsOf (arguments : List (Option Name × Nat)) : List Nat :=
  arguments.filterMap fun argument => if argument.1.isNone then some argument.2 else none

theorem filled_foldl (arguments : List (Option Name × Nat)) (cursor : Cursor s)
    (bounded : s.assign.length ≤ length) :
    Filled length s (turnsOf arguments) (arguments.foldl (Pairing.claimPositional length) s) := by
  induction arguments generalizing s with
  | nil => exact Filled.refl bounded
  | cons argument arguments ih =>
    obtain ⟨name, argument⟩ := argument
    cases name with
    | some name => exact ih cursor bounded
    | none =>
      obtain ⟨inside, before, empty⟩ := cursor.skipClaimed
      show Filled length s (argument :: turnsOf arguments)
        (arguments.foldl (Pairing.claimPositional length)
          (s.claimPositional length (none, argument)))
      by_cases held : s.skipClaimed < s.assign.length
      · have step : s.claimPositional length (none, argument) =
            { s with assign := s.assign.set s.skipClaimed (some argument),
                     next := s.skipClaimed + 1 } := by
          simp only [Pairing.claimPositional, held, if_true, isSome_none, if_false,
            Bool.false_eq_true]
        rw [step]
        have rest := @ih { s with assign := s.assign.set s.skipClaimed (some argument),
                                  next := s.skipClaimed + 1 } ⟨?_, fun position early => ?_⟩ ?_
        · exact Filled.claim (t := { s with assign := s.assign.set s.skipClaimed (some argument),
                                            next := s.skipClaimed + 1 })
            (lt_of_lt_of_le held bounded) before empty (join_set s.assign held argument)
            rfl rfl rfl rest
        · rw [length_set]
          exact held
        · rw [join_set s.assign held]
          split
          · rfl
          · exact before position (by simp only at early; omega)
        · rw [length_set]
          exact bounded
      · have stop : s.skipClaimed = s.assign.length := by omega
        by_cases room : length ≤ s.assign.length
        · have step : s.claimPositional length (none, argument) =
              { s with next := s.skipClaimed, valid := false,
                       refusals := s.refusals ++ [.excessField argument] } := by
            simp only [Pairing.claimPositional, held, room, if_true, isSome_none, if_false,
              Bool.false_eq_true]
          rw [step]
          exact Filled.excess
            (t := { s with next := s.skipClaimed, valid := false,
                           refusals := s.refusals ++ [.excessField argument] })
            (fun position below => before position (by omega)) rfl rfl rfl (by simp)
            (ih ⟨inside, before⟩ bounded)
        · have step : s.claimPositional length (none, argument) =
              { s with assign := s.assign ++ [some argument], next := s.skipClaimed + 1 } := by
            simp only [Pairing.claimPositional, held, room, isSome_none, if_false,
              Bool.false_eq_true]
          have update (index : Nat) : (s.assign ++ [some argument])[index]?.join =
              if index = s.skipClaimed then some argument else s.assign[index]?.join := by
            rw [stop]
            rcases Nat.lt_trichotomy index s.assign.length with early | same | late
            · rw [getElem?_append_left early, if_neg (ne_of_lt early)]
            · subst same
              simp
            · rw [if_neg (ne_of_gt late), getElem?_eq_none (le_of_lt late),
                getElem?_eq_none (by rw [length_append]; exact late)]
          rw [step]
          have rest := @ih { s with assign := s.assign ++ [some argument],
                                    next := s.skipClaimed + 1 } ⟨?_, fun position early => ?_⟩ ?_
          · exact Filled.claim (t := { s with assign := s.assign ++ [some argument],
                                              next := s.skipClaimed + 1 })
              (by omega) before empty update rfl rfl rfl rest
          · rw [length_append, stop]
            exact le_refl _
          · rw [update]
            split
            · rfl
            · exact before position (by simp only at early; omega)
          · rw [length_append]
            simp only [length_singleton]
            omega

/-- The positional arguments of a call, in call order. -/
def positional (argNames : List (Option Name)) : List Nat := turnsOf argNames.zipIdx

theorem mem_positional {argNames : List (Option Name)} :
    argument ∈ positional argNames ↔ argNames[argument]? = some none := by
  rw [positional, turnsOf, mem_filterMap]
  constructor
  · rintro ⟨entry, inside, found⟩
    split at found
    · next empty =>
      cases found
      rw [mem_zipIdx_iff_getElem?] at inside
      rw [inside, isNone_iff_eq_none.1 empty]
    · cases found
  · intro here
    exact ⟨(none, argument), mem_zipIdx_iff_getElem?.2 here, rfl⟩

theorem positional_nodup (argNames : List (Option Name)) : (positional argNames).Nodup := by
  unfold positional turnsOf
  rw [List.Nodup, pairwise_filterMap]
  have indices : (argNames.zipIdx.map Prod.snd).Nodup := by
    rw [zipIdx_map_snd]
    exact nodup_range'
  rw [List.Nodup, pairwise_map] at indices
  refine indices.imp fun apart b first b' second same => apart ?_
  split at first
  · split at second
    · rw [some.inj first, some.inj second, same]
    · cases second
  · cases first

end Positional

section Zip

variable {α β : Type} {left : List α} {right : List β} {a : α}

theorem mem_zip_iff {b : β} :
    (a, b) ∈ left.zip right ↔ ∃ turn : Nat, left[turn]? = some a ∧ right[turn]? = some b := by
  rw [mem_iff_getElem?]
  exact exists_congr fun _ => getElem?_zip_eq_some

theorem getElem?_inj {items : List α} (nodup : items.Nodup) {i j : Nat}
    (here : items[i]? = some a) (there : items[j]? = some a) : i = j := by
  obtain ⟨inside, rfl⟩ := List.getElem?_eq_some_iff.1 here
  exact (getElem?_inj inside nodup).1 (here.trans there.symm)

theorem covered_right_iff (nodup : right.Nodup) :
    (∀ b ∈ right, ∃ a, (a, b) ∈ left.zip right) ↔ right.length ≤ left.length := by
  constructor
  · intro covers
    by_contra short
    have inside : left.length < right.length := Nat.lt_of_not_le short
    have last := getElem?_eq_getElem inside
    obtain ⟨a, pair⟩ := covers _ (mem_of_getElem? last)
    obtain ⟨turn, held, here⟩ := mem_zip_iff.1 pair
    have same := getElem?_inj nodup here last
    have early := (List.getElem?_eq_some_iff.1 held).1
    omega
  · intro long b inside
    obtain ⟨turn, here⟩ := mem_iff_getElem?.1 inside
    have early := (List.getElem?_eq_some_iff.1 here).1
    exact ⟨_, mem_zip_iff.2 ⟨turn, getElem?_eq_getElem (lt_of_lt_of_le early long), here⟩⟩

theorem covered_left_iff (nodup : left.Nodup) :
    (∀ a ∈ left, ∃ b, (a, b) ∈ left.zip right) ↔ left.length ≤ right.length := by
  rw [← @covered_right_iff β α right left nodup]
  refine forall₂_congr fun a _ => exists_congr fun b => ?_
  rw [mem_zip_iff, mem_zip_iff]
  exact exists_congr fun _ => and_comm

theorem zip_apart (nodup : right.Nodup) {a' : α} {b : β}
    (one : (a, b) ∈ left.zip right) (two : (a', b) ∈ left.zip right) : a = a' := by
  obtain ⟨turn, held, here⟩ := mem_zip_iff.1 one
  obtain ⟨turn', held', here'⟩ := mem_zip_iff.1 two
  rw [getElem?_inj nodup here here', held'] at held
  exact (some.inj held).symm

end Zip

section Matching

variable [DecidableEq Name]

def fieldNamed (names : List (Option Name)) (name : Name) : Option Nat :=
  names.findIdx? fun field => field = some name

/-- The fields no argument names, in the definition's order. -/
def unnamed (names argNames : List (Option Name)) : List Nat :=
  (List.range names.length).filter fun position =>
    !argNames.any fun argument => argument.bind (fieldNamed names) = some position

/-- An argument claims a field: it names it, or its turn among the positional arguments is the
field's turn among the fields nobody names. -/
def Claims (names argNames : List (Option Name)) (argument position : Nat) : Prop :=
  argNames[argument]?.join.bind (fieldNamed names) = some position ∨
    (argument, position) ∈ (positional argNames).zip (unnamed names argNames)

/-- A call that fits a definition. -/
structure Fits (names argNames : List (Option Name)) : Prop where
  known : ∀ name, some name ∈ argNames → some name ∈ names
  apart : ∀ position argument argument', Claims names argNames argument position →
    Claims names argNames argument' position → argument = argument'
  claimed : ∀ position < names.length, ∃ argument, Claims names argNames argument position
  placed : ∀ argument ∈ positional argNames, ∃ position, Claims names argNames argument position

theorem find?_entries (names : List (Option Name)) (name : Name) (base : Nat) :
    ((names.zipIdx base).filterMap fun field => field.1.map (·, field.2)).find?
        (fun entry => decide (entry.1 = name)) =
      (names.findIdx? fun field => field = some name).map fun index => (name, base + index) := by
  induction names generalizing base with
  | nil => rfl
  | cons field names ih =>
    have shift : (fun index => (name, base + 1 + index)) =
        fun index => (name, base + (index + 1)) := by
      funext index
      exact Prod.ext rfl (by simp only; omega)
    rw [zipIdx_cons, List.findIdx?_cons]
    cases field with
    | none =>
      rw [filterMap_cons_none rfl, ih, shift, if_neg (by simp), Option.map_map]
      rfl
    | some other =>
      have head : (((some other, base) :: names.zipIdx (base + 1)).filterMap fun field =>
            field.1.map (·, field.2)) =
          (other, base) :: (names.zipIdx (base + 1)).filterMap fun field =>
            field.1.map (·, field.2) := rfl
      rw [head, List.find?_cons]
      by_cases same : other = name
      · subst same
        simp
      · simp only [same, decide_false, some.injEq, Bool.false_eq_true, if_false,
          Option.map_map, ih, shift]
        rfl

theorem buildStructNames_index (hash : Name → Nat) (names : List (Option Name)) (name : Name) :
    ((buildStructNames hash names).bind fun table => nameTableIndex table name) =
      fieldNamed names name := by
  unfold buildStructNames fieldNamed
  split
  · next anonymous =>
    rw [bind_none, eq_comm, List.findIdx?_eq_none_iff]
    intro field inside
    have unnamed := List.all_eq_true.1 anonymous.2 field inside
    rw [isNone_iff_eq_none.1 unnamed]
    rfl
  · -- The entries of one hash keep the definition's order, so the first of a name stays first.
    have agree : (fun entry : Name × Nat => decide (decide (hash entry.1 = hash name) ∧
          decide (entry.1 = name))) = fun entry => decide (entry.1 = name) := by
      funext entry
      by_cases same : entry.1 = name <;> simp [same]
    have stable := congrArg (List.find? fun entry => decide (entry.1 = name))
      (SortedRun.sortByKey_stable (fun entry : Name × Nat => hash entry.1)
        (names.zipIdx.filterMap fun field => field.1.map (·, field.2)) (hash name))
    rw [List.find?_filter, List.find?_filter, agree, find?_entries] at stable
    rw [bind_some, nameTableIndex, stable, Option.map_map]
    simp

variable {names : List (Option Name)} {position : Nat}

theorem fieldNamed_lt {name : Name}
    (named : fieldNamed names name = some position) : position < names.length :=
  (List.findIdx?_eq_some_iff_getElem.1 named).1

theorem fieldNamed_isSome (names : List (Option Name)) (name : Name) :
    (fieldNamed names name).isSome ↔ some name ∈ names := by
  rw [fieldNamed, List.findIdx?_isSome, List.any_eq_true]
  simp

theorem unnamed_nodup (names argNames : List (Option Name)) : (unnamed names argNames).Nodup :=
  nodup_range.filter _

/-- Some argument names the field. -/
def Named (names argNames : List (Option Name)) (position : Nat) : Prop :=
  ∃ argument : Nat, argNames[argument]?.join.bind (fieldNamed names) = some position

theorem any_named_iff {argNames : List (Option Name)} :
    (argNames.any fun argument => argument.bind (fieldNamed names) = some position) ↔
      Named names argNames position := by
  rw [List.any_eq_true]
  constructor
  · rintro ⟨name, inside, named⟩
    obtain ⟨argument, here⟩ := mem_iff_getElem?.1 inside
    exact ⟨argument, by rw [here]; exact of_decide_eq_true named⟩
  · rintro ⟨argument, named⟩
    cases here : argNames[argument]? with
    | none => rw [here] at named; cases named
    | some name =>
      rw [here] at named
      exact ⟨name, mem_of_getElem? here, decide_eq_true named⟩

theorem mem_unnamed {argNames : List (Option Name)} : position ∈ unnamed names argNames ↔
      position < names.length ∧ ¬ Named names argNames position := by
  rw [unnamed, mem_filter, mem_range, Bool.not_eq_true', ← Bool.not_eq_true, any_named_iff]

end Matching

section Reordered

variable [DecidableEq Name] {names argNames : List (Option Name)} {s : Pairing Name}

section

variable (phase : NamedPhase (fieldNamed names) names.length argNames.zipIdx s)

include phase

theorem NamedPhase.named_iff (position : Nat) :
    s.assign[position]?.join.isSome ↔ Named names argNames position := by
  rw [← phase.mem_iff, mem_filterMap]
  constructor
  · rintro ⟨entry, inside, named⟩
    exact ⟨entry.2, by rw [← namedPosition_join inside]; exact named⟩
  · rintro ⟨argument, named⟩
    obtain ⟨name, inside, found⟩ := mem_zipIdx_of_named named
    exact ⟨_, inside, found⟩

theorem NamedPhase.vacant_eq :
    vacant 0 (padded names.length s.assign) = unnamed names argNames := by
  unfold padded unnamed
  rw [range_eq_range', vacant_map]
  refine filter_congr fun position inside => ?_
  rw [Bool.eq_iff_iff, Bool.not_eq_true', ← Bool.not_eq_true, any_named_iff, ← phase.named_iff,
    isNone_iff_eq_none, not_isSome_iff_eq_none]

theorem NamedPhase.valid_iff :
    s.valid ↔ (∀ name, some name ∈ argNames → some name ∈ names) ∧
      ∀ position argument argument' : Nat,
        argNames[argument]?.join.bind (fieldNamed names) = some position →
        argNames[argument']?.join.bind (fieldNamed names) = some position →
        argument = argument' := by
  rw [phase.valid, named_nodup_iff]
  refine and_congr_left fun _ => ⟨fun known name inside => ?_, fun known entry inside named => ?_⟩
  · obtain ⟨argument, here⟩ := mem_iff_getElem?.1 inside
    have found := known (some name, argument) (mem_zipIdx_iff_getElem?.2 here) rfl
    exact (fieldNamed_isSome names name).1 found
  · obtain ⟨name, argument⟩ := entry
    cases name with
    | none => cases named
    | some name =>
      have here := mem_zipIdx_iff_getElem?.1 inside
      exact (fieldNamed_isSome names name).2 (known name (mem_of_getElem? here))

theorem NamedPhase.assign_iff (valid : s.valid) (position argument : Nat) :
    (padded names.length s.assign)[position]? = some (some argument) ↔
      argNames[argument]?.join.bind (fieldNamed names) = some position := by
  have apart := (phase.valid_iff.1 valid).2
  rw [padded_getElem?]
  constructor
  · intro held
    split at held
    · obtain ⟨entry, inside, same, named⟩ :=
        phase.holds position argument (some.inj held)
      rw [namedPosition_join inside, same] at named
      exact named
    · cases held
  · intro named
    obtain ⟨name, -, found⟩ := mem_zipIdx_of_named named
    have taken := (phase.named_iff position).2 ⟨argument, named⟩
    obtain ⟨argument', held⟩ := isSome_iff_exists.1 taken
    obtain ⟨entry, inside, same, named'⟩ := phase.holds position argument' held
    rw [namedPosition_join inside, same] at named'
    rw [if_pos (fieldNamed_lt found), held, apart position argument argument' named named']

theorem NamedPhase.claims_iff (valid : s.valid) (position argument : Nat) :
    (fill (padded names.length s.assign) (positional argNames))[position]? = some (some argument) ↔
      Claims names argNames argument position := by
  rw [fill_eq_some_iff _ _ 0, zero_add, phase.vacant_eq, phase.assign_iff valid]
  rfl

end

theorem claims_apart (apart : ∀ position argument argument' : Nat,
      argNames[argument]?.join.bind (fieldNamed names) = some position →
      argNames[argument']?.join.bind (fieldNamed names) = some position → argument = argument')
    {position argument argument' : Nat} (one : Claims names argNames argument position)
    (two : Claims names argNames argument' position) : argument = argument' := by
  have nobody {argument argument' : Nat}
      (named : argNames[argument]?.join.bind (fieldNamed names) = some position)
      (turn : (argument', position) ∈ (positional argNames).zip (unnamed names argNames)) : False :=
    (mem_unnamed.1 (of_mem_zip turn).2).2 ⟨argument, named⟩
  rcases one with one | one
  · rcases two with two | two
    · exact apart position argument argument' one two
    · exact (nobody one two).elim
  · rcases two with two | two
    · exact (nobody two one).elim
    · exact zip_apart (unnamed_nodup names argNames) one two

theorem claimed_iff :
    (∀ position < names.length, ∃ argument, Claims names argNames argument position) ↔
      (unnamed names argNames).length ≤ (positional argNames).length := by
  rw [← covered_right_iff (unnamed_nodup names argNames)]
  constructor
  · intro claimed position inside
    obtain ⟨below, nobody⟩ := mem_unnamed.1 inside
    obtain ⟨argument, claims⟩ := claimed position below
    exact ⟨argument, claims.resolve_left fun named => nobody ⟨argument, named⟩⟩
  · intro covers position below
    by_cases named : Named names argNames position
    · obtain ⟨argument, named⟩ := named
      exact ⟨argument, .inl named⟩
    · obtain ⟨argument, turn⟩ := covers position (mem_unnamed.2 ⟨below, named⟩)
      exact ⟨argument, .inr turn⟩

theorem placed_iff :
    (∀ argument ∈ positional argNames, ∃ position, Claims names argNames argument position) ↔
      (positional argNames).length ≤ (unnamed names argNames).length := by
  rw [← covered_left_iff (positional_nodup argNames)]
  refine forall₂_congr fun argument inside => exists_congr fun position => or_iff_right ?_
  intro named
  rw [mem_positional.1 inside] at named
  cases named

theorem fits_iff : Fits names argNames ↔ ((∀ name, some name ∈ argNames → some name ∈ names) ∧
        ∀ position argument argument' : Nat,
          argNames[argument]?.join.bind (fieldNamed names) = some position →
          argNames[argument']?.join.bind (fieldNamed names) = some position →
          argument = argument') ∧
      (unnamed names argNames).length = (positional argNames).length := by
  constructor
  · intro fits
    have enough := claimed_iff.1 fits.claimed
    have few := placed_iff.1 fits.placed
    exact ⟨⟨fits.known, fun position argument argument' one two =>
      fits.apart position argument argument' (.inl one) (.inl two)⟩, le_antisymm enough few⟩
  · rintro ⟨⟨known, apart⟩, same⟩
    exact
      { known := known
        apart := fun position argument argument' one two => claims_apart apart one two
        claimed := claimed_iff.2 (le_of_eq same)
        placed := placed_iff.2 (le_of_eq same.symm) }

end Reordered

section Missing

theorem take_resize {slots : List (Option Nat)} {length : Nat} (bounded : slots.length ≤ length) :
    (resize slots length).take length = padded length slots := by
  have long : (resize slots length).length = length := by
    rw [resize_length]
    omega
  rw [take_of_length_le (le_of_eq long)]
  apply ext_getElem?
  intro position
  rw [padded_getElem?, ← join_resize slots length]
  split
  · next below =>
    rw [← long] at below
    rw [getElem?_eq_getElem below]
    rfl
  · next beyond => exact getElem?_eq_none (by omega)

theorem missing_isEmpty (fieldName : Nat → Option Name) (slots : List (Option Nat)) (base : Nat) :
    ((slots.zipIdx base).filterMap fun slot =>
        if slot.1.isNone then some (Refusal.missingField (fieldName slot.2)) else none).isEmpty =
      true ↔ none ∉ slots := by
  induction slots generalizing base with
  | nil => simp
  | cons slot slots ih =>
    cases slot with
    | none => simp
    | some held =>
      rw [zipIdx_cons, filterMap_cons_none rfl, ih]
      simp

theorem filterMap_id_of_full {slots : List (Option Nat)} (full : none ∉ slots) :
    (slots.filterMap id).map some = slots := by
  induction slots with
  | nil => rfl
  | cons slot slots ih =>
    cases slot with
    | none => exact absurd (mem_cons_self ..) full
    | some held =>
      exact congrArg (some held :: ·) (ih fun inside => full (mem_cons_of_mem _ inside))

variable {length : Nat} {s : Pairing Name}

section

variable (fieldName : Nat → Option Name)

include fieldName

theorem claimMissing_valid (bounded : s.assign.length ≤ length)
    (unknown : s.unknownField → s.valid = false) :
    (s.claimMissing fieldName length).valid ↔
      s.valid ∧ none ∉ padded length s.assign := by
  unfold Pairing.claimMissing
  split
  · next known =>
    refine iff_of_false (fun valid => ?_) fun both => ?_
    · rw [unknown known] at valid
      cases valid
    · have valid := both.1
      rw [unknown known] at valid
      cases valid
  · simp only [Bool.and_eq_true]
    rw [missing_isEmpty, take_resize bounded]

theorem claimMissing_refused (refused : s.valid = false → s.refusals ≠ [])
    (invalid : (s.claimMissing fieldName length).valid = false) :
    (s.claimMissing fieldName length).refusals ≠ [] := by
  unfold Pairing.claimMissing at invalid ⊢
  split at invalid
  · next known =>
    rw [if_pos known]
    exact refused invalid
  · next known =>
    rw [if_neg known]
    intro nothing
    obtain ⟨before, after⟩ := append_eq_nil_iff.1 nothing
    have valid : s.valid := by
      by_contra invalid
      exact refused (Bool.not_eq_true _ ▸ invalid) before
    simp only [valid, after, isEmpty_nil, Bool.and_self, Bool.true_eq_false] at invalid

theorem claimMissing_ordered (bounded : s.assign.length ≤ length)
    (unknown : s.unknownField → s.valid = false)
    (valid : (s.claimMissing fieldName length).valid) :
    (((s.claimMissing fieldName length).assign.take length).filterMap id).map some =
      padded length s.assign := by
  obtain ⟨was, full⟩ := (claimMissing_valid fieldName bounded unknown).1 valid
  have known : ¬ s.unknownField := fun known => by
    rw [unknown known] at was
    cases was
  have grown : (s.claimMissing fieldName length).assign = resize s.assign length := by
    simp only [Pairing.claimMissing, known, if_false, Bool.false_eq_true]
  rw [grown, take_resize bounded, filterMap_id_of_full full]

end

theorem mem_fieldUnifies {answer : Reordering Name} (valid : answer.valid)
    (full : answer.ordered.length = length) (position argument : Nat) :
    (position, argument) ∈ fieldUnifies length answer ↔
      answer.ordered[position]? = some argument := by
  rw [fieldUnifies, if_pos valid, mem_filterMap]
  constructor
  · rintro ⟨entry, inside, found⟩
    split at found
    · cases found
      exact mem_zipIdx_iff_getElem?.1 inside
    · cases found
  · intro held
    have below : position < length := full ▸ (List.getElem?_eq_some_iff.1 held).1
    exact ⟨(argument, position), mem_zipIdx_iff_getElem?.2 held, if_pos below⟩

end Missing

section Instances

variable [DecidableEq Name] (hash : Name → Nat) (names argNames : List (Option Name))

/-- The pairing of a call after its named arguments. -/
def namedPairing : Pairing Name :=
  argNames.zipIdx.foldl (Pairing.claimNamed (fieldNamed names)) {}

theorem namedPairing_phase :
    NamedPhase (fieldNamed names) names.length argNames.zipIdx (namedPairing names argNames) :=
  NamedPhase.foldl (fun _ _ => fieldNamed_lt) argNames.zipIdx .start

/-- The pairing of a call after its positional arguments. -/
def filledPairing : Pairing Name :=
  argNames.zipIdx.foldl (Pairing.claimPositional names.length) (namedPairing names argNames)

theorem filledPairing_filled :
    Filled names.length (namedPairing names argNames) (positional argNames)
      (filledPairing names argNames) := by
  have phase := namedPairing_phase names argNames
  refine filled_foldl argNames.zipIdx ⟨?_, fun position early => ?_⟩ phase.bounded
  · rw [phase.next]
    exact Nat.zero_le _
  · rw [phase.next] at early
    exact absurd early (Nat.not_lt_zero _)

theorem filledPairing_unknown : (filledPairing names argNames).unknownField →
      (filledPairing names argNames).valid = false := by
  have filled := filledPairing_filled names argNames
  intro unknown
  rw [filled.unknownField] at unknown
  rw [← Bool.not_eq_true, filled.valid, (namedPairing_phase names argNames).unknown unknown]
  exact fun both => Bool.false_ne_true both.1

theorem filledPairing_refused : (filledPairing names argNames).valid = false →
      (filledPairing names argNames).refusals ≠ [] :=
  (filledPairing_filled names argNames).refused (namedPairing_phase names argNames).refused

/-- The field names a call's refusals spell. -/
def spelled (position : Nat) : Option Name :=
  (buildStructNames hash names).bind fun table => structFieldName table position

theorem reorderArguments_eq : reorderArguments (buildStructNames hash names) argNames names.length =
      let paired := (filledPairing names argNames).claimMissing (spelled hash names) names.length
      { ordered := (paired.assign.take names.length).filterMap id
        valid := paired.valid
        refusals := paired.refusals } := by
  have field : (fun name => (buildStructNames hash names).bind fun table =>
      nameTableIndex table name) = fieldNamed names :=
    funext (buildStructNames_index hash names)
  simp only [reorderArguments, field]
  rfl

theorem reorderArguments_valid_iff :
    (reorderArguments (buildStructNames hash names) argNames names.length).valid ↔
      Fits names argNames := by
  have phase := namedPairing_phase names argNames
  have filled := filledPairing_filled names argNames
  rw [reorderArguments_eq, claimMissing_valid _ filled.bounded (filledPairing_unknown names argNames),
    filled.valid, filled.slots, none_mem_fill, ← vacant_length 0, phase.vacant_eq, phase.valid_iff,
    fits_iff, and_assoc]
  refine and_congr_right fun _ => ?_
  omega

section

variable
  (valid : (reorderArguments (buildStructNames hash names) argNames names.length).valid)

include valid

theorem reorderArguments_ordered :
    (reorderArguments (buildStructNames hash names) argNames names.length).ordered.map some =
      fill (padded names.length (namedPairing names argNames).assign) (positional argNames) := by
  have filled := filledPairing_filled names argNames
  rw [reorderArguments_eq] at valid ⊢
  rw [← filled.slots]
  exact claimMissing_ordered _ filled.bounded (filledPairing_unknown names argNames) valid

theorem reorderArguments_claims (position argument : Nat) :
    (reorderArguments (buildStructNames hash names) argNames names.length).ordered[position]? =
        some argument ↔ Claims names argNames argument position := by
  have filled := filledPairing_filled names argNames
  have held : (namedPairing names argNames).valid := by
    have paired := valid
    rw [reorderArguments_eq, claimMissing_valid _ filled.bounded
      (filledPairing_unknown names argNames), filled.valid] at paired
    exact paired.1.1
  rw [← (namedPairing_phase names argNames).claims_iff held,
    ← reorderArguments_ordered hash names argNames valid, getElem?_map]
  simp

end

/-- An instantiation is accepted just when it fits the definition. Accepted, every field takes the
argument that claims it and unifies with it. Refused, something was reported and nothing unifies. -/
theorem reorderArguments_pairs :
    let answer := reorderArguments (buildStructNames hash names) argNames names.length
    (answer.valid = true ↔ Fits names argNames) ∧ (answer.valid = true →
        answer.ordered.length = names.length ∧ ∀ position argument : Nat,
            (answer.ordered[position]? = some argument ↔ Claims names argNames argument position) ∧
              ((position, argument) ∈ fieldUnifies names.length answer ↔
                Claims names argNames argument position)) ∧
      (answer.valid = false → answer.refusals ≠ [] ∧ fieldUnifies names.length answer = []) := by
  intro answer
  refine ⟨reorderArguments_valid_iff hash names argNames, fun valid => ?_, fun invalid => ⟨?_, ?_⟩⟩
  · have full : answer.ordered.length = names.length := by
      have row := congrArg List.length (reorderArguments_ordered hash names argNames valid)
      rw [length_map, fill_length, padded, length_map, length_range] at row
      exact row
    have claims := reorderArguments_claims hash names argNames valid
    exact ⟨full, fun position argument => ⟨claims position argument,
      (mem_fieldUnifies valid full position argument).trans (claims position argument)⟩⟩
  · have eq : answer = _ := reorderArguments_eq hash names argNames
    rw [eq] at invalid ⊢
    exact claimMissing_refused _ (filledPairing_refused names argNames) invalid
  · rw [fieldUnifies, if_neg (by rw [invalid]; exact Bool.false_ne_true)]

end Instances

/-- A positional argument past the last field is refused though every field is claimed once. -/
theorem excess_refused :
    ¬ ((reorderArguments (buildStructNames id [some 0]) [none, none] 1).valid = true ↔
      (∀ name, some name ∈ [none, none] → some name ∈ [some 0]) ∧
        (∀ position argument argument', Claims [some 0] [none, none] argument position →
          Claims [some 0] [none, none] argument' position → argument = argument') ∧
        ∀ position < 1, ∃ argument, Claims [some 0] [none, none] argument position) := by
  have unfit : ¬ (reorderArguments (buildStructNames id [some 0]) [none, none] 1).valid = true := by
    decide +kernel
  refine fun claim => unfit (claim.2 ⟨by simp, fun position argument argument' one two => ?_,
    fun position below => ?_⟩)
  · refine claims_apart (fun position argument argument' one two => ?_) one two
    obtain ⟨name, inside, -⟩ := mem_zipIdx_of_named one
    simp at inside
  · rw [Nat.lt_one_iff.1 below]
    exact ⟨0, .inr (by decide +kernel)⟩

end LichenVm.StructInstances
