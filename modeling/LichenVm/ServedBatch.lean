import LichenVm.DeviceRegistry
import LichenVm.GraphRun
import Mathlib.Data.List.Perm.Basic

/-! A served batch: the slots of its sequences, the caches it holds on the device, and the step that
advances them. -/

open List

namespace LichenVm.Serve

open KernelIr (ScalarClass)

/-- A buffer the device holds, by its id. -/
abbrev ResidentBuffer := Nat

/-- The slots of a batch: a free one stands at the capacity. -/
structure Slots where
  sequences : Nat
  capacity : Nat
  positions : List Nat

namespace Slots

def new (sequences capacity : Nat) : Slots where
  sequences
  capacity
  positions := replicate sequences capacity

def lanes (slots : Slots) (dim : Nat) : Nat := slots.sequences * slots.capacity * dim

def active (slots : Slots) : Nat := slots.positions.countP (· < slots.capacity)

/-- Take a free slot, at position zero. -/
def admitSequence (slots : Slots) : Option (Nat × Slots) := do
  let free ← slots.positions.findIdx? (slots.capacity ≤ ·)
  some (free, { slots with positions := slots.positions.set free 0 })

def retire (slots : Slots) (slot : Nat) : Slots :=
  { slots with positions := slots.positions.set slot slots.capacity }

def move (slots : Slots) (next : Nat → Nat) : Slots :=
  { slots with
    positions := slots.positions.map fun position =>
      if position < slots.capacity then next position else position }

def adopt (slots : Slots) (after : Nat) : Slots := slots.move fun _ => min after slots.capacity

def advance (slots : Slots) : Slots := slots.move (· + 1)

/-- A slot holds a sequence: its position is inside its cache. -/
def live (slots : Slots) (slot : Nat) : Bool := slots.positions[slot]?.any (· < slots.capacity)

end Slots

/-- What a step's argument list depends on. -/
inductive Shape where
  | append
  | decode (weights : ResidentBuffer) (rows : Nat)
  | sample (weights : ResidentBuffer) (rows : Nat)

/-- The weights, which stay the caller's. -/
def Shape.weights : Shape → Option ResidentBuffer
  | append => none
  | decode weights _ | sample weights _ => some weights

inductive RunArgument where
  | count (number : Int)
  | float (bits : BitVec 32)
  | buffer (stated : ScalarClass) (data : List UInt8)
  | resident (buffer : ResidentBuffer)

inductive RunResult where
  | resident (buffer : ResidentBuffer)
  | buffer (stated : ScalarClass) (data : List UInt8)

/-- The residents among what a step answers. -/
def residents (results : List RunResult) : List ResidentBuffer :=
  results.filterMap fun result =>
    match result with
    | .resident buffer => some buffer
    | .buffer _ _ => none

structure ServeRefusal where
  program : List String

structure Service where
  shape : Shape
  dim : Nat
  temperature : BitVec 32
  seed : BitVec 32
  tokens : Option ResidentBuffer := none
  keys : Option ResidentBuffer := none
  values : Option ResidentBuffer := none
  slots : Slots

namespace Service

/-- The tokens and the caches of the last step. -/
def held (service : Service) : List ResidentBuffer :=
  service.tokens.toList ++ service.keys.toList ++ service.values.toList

/-- Take the caches of a prefill: the batch, and what is released for them. -/
def adopt (service : Service) (keys values : ResidentBuffer) (positions : Nat) :
    Service × List ResidentBuffer :=
  ({ service with slots := service.slots.adopt positions, tokens := none, keys := some keys,
                  values := some values }, service.held)

/-- A cache as an argument: zeros where there is none. -/
def cacheArgument (lanes : Nat) : Option ResidentBuffer → RunArgument
  | some buffer => .resident buffer
  | none => .buffer .float (replicate (lanes * ScalarClass.float.byteWidth) 0)

/-- What the held step is run on. -/
def arguments (service : Service) (keys values : RunArgument) : List RunArgument :=
  let lanes := service.slots.lanes service.dim
  let sequences := service.slots.sequences
  (match service.shape with
    | .append => [.count lanes]
    | .decode weights rows =>
      [.count sequences, .count (sequences * rows), .count lanes, .resident weights]
    | .sample weights rows =>
      [.count sequences, .count (sequences * rows), .count lanes, .float service.temperature,
        .float service.seed, .resident weights]) ++
    [cacheArgument lanes service.keys, cacheArgument lanes service.values, keys, values,
      .buffer .int (service.slots.positions.flatMap littleEndian)]

/-- The tokens and the caches that a step answered. -/
def answered : List RunResult → Option (Option ResidentBuffer × ResidentBuffer × ResidentBuffer)
  | [.resident keys, .resident values] => some (none, keys, values)
  | [.resident tokens, .resident keys, .resident values] => some (some tokens, keys, values)
  | _ => none

/-- Run the held step: how many sequences advanced, the batch, and what is released for its new
caches. -/
def step (service : Service) (keys values : RunArgument)
    (prepared : List RunArgument → Except ServeRefusal (List RunResult)) :
    Except ServeRefusal (Nat × Service × List ResidentBuffer) := do
  let results ← prepared (service.arguments keys values)
  match answered results with
  | none => .error ⟨["a step answers with its caches, or with a token and its caches, and this " ++
      "one answered otherwise"]⟩
  | some (tokens, keys, values) =>
    .ok (service.slots.active, { service with tokens, keys := some keys, values := some values
                                              slots := service.slots.advance }, service.held)

end Service

/-- A call on a batch. The prepared step answers as the device does. -/
inductive Op where
  | admitSequence
  | retire (slot : Nat)
  | setSampler (temperature seed : BitVec 32)
  | adopt (keys values : ResidentBuffer) (positions : Nat)
  | step (keys values : RunArgument)
    (prepared : List RunArgument → Except ServeRefusal (List RunResult))

/-- A batch, the buffers it was handed or a step produced, those it released, and how many words each
slot's cache holds. -/
structure World where
  service : Service
  given : List ResidentBuffer := []
  released : List ResidentBuffer := []
  words : Nat → Nat := fun _ => 0

namespace World

def answers (world : World) (keys values : RunArgument)
    (prepared : List RunArgument → Except ServeRefusal (List RunResult)) : List RunResult :=
  (prepared (world.service.arguments keys values)).toOption.getD []

/-- The buffers a call brings. -/
def arrivals (world : World) : Op → List ResidentBuffer
  | .adopt keys values _ => [keys, values]
  | .step keys values prepared => residents (world.answers keys values prepared)
  | _ => []

/-- Count the words of every live slot anew. -/
def count (world : World) (next : Nat → Nat) : Nat → Nat := fun slot =>
  if world.service.slots.live slot then next (world.words slot) else world.words slot

def apply (world : World) (op : Op) : World :=
  let given := world.given ++ world.arrivals op
  let service := world.service
  match op with
  | .admitSequence =>
    match service.slots.admitSequence with
    | none => world
    | some (slot, slots) =>
      { world with service := { service with slots }, words := Function.update world.words slot 0 }
  | .retire slot => { world with service := { service with slots := service.slots.retire slot } }
  | .setSampler temperature seed => { world with service := { service with temperature, seed } }
  | .adopt keys values positions =>
    let (after, freed) := service.adopt keys values positions
    { service := after, given, released := world.released ++ freed
      words := world.count fun _ => min positions service.slots.capacity }
  | .step keys values prepared =>
    match service.step keys values prepared with
    | .error _ => { world with given }
    | .ok (_, after, freed) =>
      { service := after, given, released := world.released ++ freed, words := world.count (· + 1) }

/-- The buffers a call brings are new ones and not the weights, and a step that answers any buffer
answers its caches, or a token and its caches. -/
structure Fair (world : World) (op : Op) : Prop where
  once : (world.arrivals op).Nodup
  new : ∀ buffer ∈ world.arrivals op,
    buffer ∉ world.given ∧ world.service.shape.weights ≠ some buffer
  expected : ∀ keys values prepared, op = .step keys values prepared → world.arrivals op ≠ [] →
    Service.answered (world.answers keys values prepared) ≠ none

/-- Each live slot stands at the number of words its cache holds, and none past its capacity. -/
def Counts (slots : Slots) (words : Nat → Nat) : Prop :=
  ∀ slot position, slots.positions[slot]? = some position → position ≤ slots.capacity ∧
    (position < slots.capacity → position = words slot)

/-- Each buffer is held or was released, once; the weights are neither; and the slots stand at what
their caches hold. -/
structure Conserves (world : World) : Prop where
  once : world.given.Nodup
  owned : world.given.Perm (world.service.held ++ world.released)
  weights : ∀ buffer ∈ world.given, world.service.shape.weights ≠ some buffer
  counts : Counts world.service.slots world.words

/-- A batch that was just opened, and what fair calls make of it. -/
inductive Reached : World → Prop where
  | opened (shape : Shape) (sequences capacity dim : Nat) (temperature seed : BitVec 32) :
    Reached { service := { shape, dim, temperature, seed, slots := .new sequences capacity } }
  | call {world : World} (reached : Reached world) (op : Op) (fair : world.Fair op) :
    Reached (world.apply op)

variable {world : World}

theorem residents_answered {results : List RunResult} {tokens : Option ResidentBuffer}
    {keys values : ResidentBuffer}
    (expected : Service.answered results = some (tokens, keys, values)) :
    residents results = tokens.toList ++ [keys, values] := by
  unfold Service.answered at expected
  split at expected
  · cases expected
    rfl
  · cases expected
    rfl
  · cases expected

/-- What a step does: it answers otherwise than a step may, or it replaces what is held. -/
theorem step_cases (service : Service) (keys values : RunArgument)
    (prepared : List RunArgument → Except ServeRefusal (List RunResult)) :
    (∃ refusal, service.step keys values prepared = .error refusal ∧ Service.answered
      ((prepared (service.arguments keys values)).toOption.getD []) = none) ∨
    ∃ tokens' keys' values', Service.answered
        ((prepared (service.arguments keys values)).toOption.getD []) =
          some (tokens', keys', values') ∧
      service.step keys values prepared = .ok (service.slots.active, { service with
        tokens := tokens', keys := some keys', values := some values'
        slots := service.slots.advance }, service.held) := by
  unfold Service.step
  cases prepared (service.arguments keys values) with
  | error refusal => exact .inl ⟨refusal, rfl, rfl⟩
  | ok results =>
    have yields : (Except.ok results : Except ServeRefusal _).toOption.getD [] = results := rfl
    cases found : Service.answered results with
    | none =>
      left
      simp only [bind, Except.bind, yields, found]
      exact ⟨_, rfl, trivial⟩
    | some taken =>
      obtain ⟨tokens', keys', values'⟩ := taken
      refine .inr ⟨tokens', keys', values', yields ▸ found, ?_⟩
      simp only [bind, Except.bind, found]

/-- Moving the live slots and counting their words anew agree where they do at each slot. -/
theorem counts_move {next next' : Nat → Nat} (counts : Counts world.service.slots world.words)
    (moved : ∀ position < world.service.slots.capacity,
      next position ≤ world.service.slots.capacity ∧ next position = next' position) :
    Counts (world.service.slots.move next) (world.count next') := by
  intro slot position at_slot
  obtain ⟨before, found, rfl⟩ : ∃ before, world.service.slots.positions[slot]? = some before ∧
      (if before < world.service.slots.capacity then next before else before) = position := by
    simpa [Slots.move] using at_slot
  obtain ⟨bounded, stands⟩ := counts slot before found
  by_cases live : before < world.service.slots.capacity
  · have counted : world.count next' slot = next' before := by
      simp [count, Slots.live, found, live, ← stands live]
    rw [if_pos live, counted]
    exact ⟨(moved before live).1, fun _ => (moved before live).2⟩
  · rw [if_neg live]
    exact ⟨bounded, fun inside => absurd inside live⟩

/-- Setting one slot's position, to where its words stand unless it frees the slot. -/
theorem counts_set {slots : Slots} {words words' : Nat → Nat} {slot position : Nat}
    (counts : Counts slots words) (bounded : position ≤ slots.capacity)
    (stands : position < slots.capacity → position = words' slot)
    (others : ∀ other, other ≠ slot → words' other = words other) :
    Counts { slots with positions := slots.positions.set slot position } words' := by
  intro other found at_other
  rw [getElem?_set] at at_other
  split at at_other
  next same =>
    split at at_other
    · cases at_other
      exact ⟨bounded, same ▸ stands⟩
    · cases at_other
  next apart => exact others other (Ne.symm apart) ▸ counts other found at_other

/-- What holds of the buffers when the held ones are released for those that arrive. -/
theorem conserves_replace {world after : World} {op : Op} (conserves : world.Conserves)
    (fair : world.Fair op) (given : after.given = world.given ++ world.arrivals op)
    (held : after.service.held = world.arrivals op)
    (released : after.released = world.released ++ world.service.held)
    (shape : after.service.shape = world.service.shape)
    (counts : Counts after.service.slots after.words) : after.Conserves where
  once := by
    rw [given, nodup_append]
    exact ⟨conserves.once, fair.once, fun _ old _ arrived same =>
      (fair.new _ arrived).1 (same ▸ old)⟩
  owned := by
    rw [given, held, released]
    exact perm_append_comm.trans
      ((conserves.owned.trans perm_append_comm).append_left (world.arrivals op))
  weights := by
    intro buffer owned
    rw [shape]
    rw [given, mem_append] at owned
    exact owned.elim (conserves.weights buffer) fun arrived => (fair.new buffer arrived).2
  counts

/-- A refused step brings nothing, and the world stays as it was. -/
theorem refused_step {keys values : RunArgument}
    {prepared : List RunArgument → Except ServeRefusal (List RunResult)} {refusal : ServeRefusal}
    (fair : world.Fair (.step keys values prepared))
    (refused : world.service.step keys values prepared = .error refusal) :
    world.apply (.step keys values prepared) = world := by
  have none_arrived : world.arrivals (.step keys values prepared) = [] := by
    rcases step_cases world.service keys values prepared with
      ⟨_, _, otherwise⟩ | ⟨_, _, _, _, stepped⟩
    · by_contra some_arrived
      exact fair.expected _ _ _ rfl some_arrived otherwise
    · rw [stepped] at refused
      cases refused
  simp only [apply, refused, none_arrived, append_nil]

/-- A fair call keeps what holds of a batch. -/
theorem conserves_apply {op : Op} (conserves : world.Conserves) (fair : world.Fair op) :
    (world.apply op).Conserves := by
  cases op with
  | admitSequence =>
    simp only [apply]
    cases admitted : world.service.slots.admitSequence with
    | none => exact conserves
    | some taken =>
      obtain ⟨free, _, same⟩ := Option.bind_eq_some_iff.1 admitted
      cases same
      have counts : Counts { world.service.slots with
          positions := world.service.slots.positions.set free 0 }
          (Function.update world.words free 0) :=
        counts_set conserves.counts (Nat.zero_le _) (fun _ => by simp)
          fun _ apart => Function.update_of_ne apart ..
      exact { conserves with counts }
  | retire slot =>
    exact { conserves with
      counts := counts_set conserves.counts (Nat.le_refl _)
        (fun inside => absurd inside (Nat.lt_irrefl _)) fun _ _ => rfl }
  | setSampler temperature seed => exact { conserves with }
  | adopt keys values positions =>
    refine conserves_replace conserves fair rfl rfl rfl rfl ?_
    exact counts_move conserves.counts fun _ _ => ⟨Nat.min_le_right .., rfl⟩
  | step keys values prepared =>
    rcases step_cases world.service keys values prepared with
      ⟨refusal, refused, _⟩ | ⟨tokens', keys', values', expected, stepped⟩
    · rwa [refused_step fair refused]
    · have arrived : world.arrivals (.step keys values prepared) =
          tokens'.toList ++ [keys', values'] := residents_answered expected
      refine conserves_replace conserves fair ?_ ?_ ?_ ?_ ?_
      all_goals simp only [apply, stepped]
      · rw [arrived]
        simp [Service.held]
      · exact counts_move conserves.counts fun _ inside => ⟨inside, rfl⟩

/-- A batch that fair calls made conserves its buffers and its positions, and a step it refuses leaves
it as it was. -/
theorem reached_conserves (reached : Reached world) :
    world.Conserves ∧ ∀ keys values prepared refusal, world.Fair (.step keys values prepared) →
      world.service.step keys values prepared = .error refusal →
      world.apply (.step keys values prepared) = world := by
  refine ⟨?_, fun _ _ _ _ fair refused => refused_step fair refused⟩
  induction reached with
  | opened shape sequences capacity dim temperature seed =>
    refine ⟨nodup_nil, Perm.refl _, by simp, ?_⟩
    intro slot position found
    obtain ⟨_, rfl⟩ : slot < sequences ∧ capacity = position := by
      simpa [Slots.new, getElem?_replicate] using found
    exact ⟨Nat.le_refl _, fun inside => absurd inside (Nat.lt_irrefl _)⟩
  | call reached op fair conserves => exact conserves_apply conserves fair

/-- A batch of one sequence, which takes the caches of a prefill and makes a step. -/
theorem reached_conserves_one :
    let batch : World := { service := { shape := .append, dim := 1, temperature := 0, seed := 0,
                                        slots := .new 1 4 } }
    let word := RunArgument.buffer .float [0, 0, 0, 0]
    let stepped := ((batch.apply .admitSequence).apply (.adopt 7 8 2)).apply
      (.step word word fun _ => .ok [.resident 9, .resident 10])
    stepped.Conserves ∧ ∀ keys values prepared refusal, stepped.Fair (.step keys values prepared) →
      stepped.service.step keys values prepared = .error refusal →
      stepped.apply (.step keys values prepared) = stepped := by
  intro batch word stepped
  have admitted : Reached (batch.apply .admitSequence) :=
    .call (.opened ..) _ ⟨by decide, by decide, fun _ _ _ same => by cases same⟩
  have adopted : Reached ((batch.apply .admitSequence).apply (.adopt 7 8 2)) :=
    .call admitted _ ⟨by decide, by decide, fun _ _ _ same => by cases same⟩
  refine reached_conserves (.call adopted _ ⟨by decide, by decide, fun _ _ _ same _ => ?_⟩)
  cases same
  exact Option.some_ne_none _

/-- Taking the caches that are held releases them, as does a step that answers one it was given; a
buffer among unexpected results is lost. -/
theorem held_cache_is_released :
    let batch : World := { service := { shape := .append, dim := 1, temperature := 0, seed := 0,
                                        slots := .new 1 4 } }
    let word := RunArgument.buffer .float [0, 0, 0, 0]
    let adopted := batch.apply (.adopt 7 8 2)
    let again := adopted.apply (.adopt 7 8 2)
    let answered := adopted.apply (.step word word fun _ => .ok [.resident 7, .resident 9])
    let unexpected := batch.apply (.step word word fun _ => .ok [.resident 7])
    (7 ∈ again.service.held ∧ 7 ∈ again.released) ∧
      (7 ∈ answered.service.held ∧ 7 ∈ answered.released) ∧
      unexpected.given = [7] ∧ unexpected.service.held = [] ∧ unexpected.released = [] := by
  decide

end World

end LichenVm.Serve
