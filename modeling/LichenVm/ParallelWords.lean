import LichenVm.Interleaving
import LichenVm.ParallelRun
import Mathlib.Data.Nat.Lattice

open List

namespace LichenVm.ParallelRun

open KernelIr Interleaving Relation

/-- What one access does to the word it addresses. -/
inductive Change where
  | write (value : Word)
  | add (value : Word)
  deriving DecidableEq

def Change.isAdd : Change → Bool
  | .write _ => false
  | .add _ => true

/-- An access of an output: the element it addresses and what it does there. -/
structure Effect where
  position : Nat
  index : Nat
  change : Change
  deriving DecidableEq

namespace Effect

def addresses (position index : Nat) (effect : Effect) : Bool :=
  effect.position == position && effect.index == index

end Effect

theorem addresses_iff {position index : Nat} {effect : Effect} :
    effect.addresses position index ↔ effect.position = position ∧ effect.index = index := by
  simp [Effect.addresses]

namespace Lane

/-- What a call does to the outputs, its reads answered by the inputs. -/
def effects (read : Nat → Nat → Word) : Lane → List Effect
  | .returns | .traps _ => []
  | .read element position index next =>
    (next (toWasmi element (read (positionOf position) (positionOf index)))).effects read
  | .write element position index value next =>
    ⟨positionOf position, positionOf index, .write (valueWord element value)⟩ :: next.effects read
  | .atomic element position index value next =>
    ⟨positionOf position, positionOf index, .add (valueWord element value)⟩ :: next.effects read

/-- Why a call does not return. -/
def trap (read : Nat → Nat → Word) : Lane → Option String
  | .returns => none
  | .traps message => some message
  | .read element position index next =>
    (next (toWasmi element (read (positionOf position) (positionOf index)))).trap read
  | .write _ _ _ _ next | .atomic _ _ _ _ next => next.trap read

end Lane

/-- The word a change leaves, an add made in the class `stated`. -/
def Change.act (addFloat : BitVec 32 → BitVec 32 → BitVec 32) (stated : ScalarClass)
    (word : Word) : Change → Word
  | .write value => value
  | .add value => addWord addFloat stated word value

/-- One access on the outputs, an add made in the class `classes` gives its buffer. -/
def perform (addFloat : BitVec 32 → BitVec 32 → BitVec 32) (classes : Nat → ScalarClass)
    (outputs : Outputs) (effect : Effect) : Outputs :=
  outputs.update effect.position effect.index fun word =>
    effect.change.act addFloat (classes effect.position) word

namespace Prepared

variable (addFloat : BitVec 32 → BitVec 32 → BitVec 32) (run : Prepared)

def effects (index : Nat) : List Effect :=
  (run.lane index).effects run.read

/-- Every access of the launch, lane by lane. -/
def allEffects : List Effect :=
  (List.range run.count).flatMap run.effects

/-- The lanes one after the other over zeroed outputs, every add in the class of the buffer it
addresses. -/
def inOrder : Outputs :=
  run.allEffects.foldl (perform addFloat run.outputClass) run.zeroed

/-- What the lanes do to one element, lane by lane. -/
def changesAt (position index : Nat) : List Change :=
  (run.allEffects.filter (Effect.addresses position index)).map Effect.change

/-- An element holds what the lanes leave there in order. One of a real class that is only added
to may hold the sum of the same addends in another order. -/
def Agrees (position index : Nat) (word : Word) : Prop :=
  some word = (run.inOrder addFloat).word position index ∨
    run.outputClass position ≠ .int ∧ ∃ addends order : List Word,
      run.changesAt position index = addends.map Change.add ∧ order.Perm addends ∧
        word = order.foldl (addWord addFloat .float) 0

/-- Buffers of the same classes and lengths whose elements agree. -/
def SameBuffers (buffers reference : List BufferWords) : Prop :=
  buffers.map (fun buffer => (buffer.stated, buffer.words.length)) =
      reference.map (fun buffer => (buffer.stated, buffer.words.length)) ∧
    ∀ (position index : Nat) (word : Word),
      (buffers[position]?.bind (·.words[index]?)) = some word →
        run.Agrees addFloat position index word

end Prepared

/-- The launch on one thread: the lanes `0, 1, ..., count - 1` in order. -/
def sequential (addFloat : BitVec 32 → BitVec 32 → BitVec 32) (launch : Launch) :
    Except Refusal (List BufferWords) :=
  match prepare launch with
  | .error refusal => .error refusal
  | .ok run =>
    match run.linked with
    | .error message => .error (.lane message)
    | .ok _ =>
      match (List.range run.count).findSome? fun index => (run.lane index).trap run.read with
      | some message => .error (.lane message)
      | none => .ok (run.tagged (run.inOrder addFloat))

/-- Both refuse, or both answer the same buffers. -/
def SameAnswer (addFloat : BitVec 32 → BitVec 32 → BitVec 32) (launch : Launch) :
    Except Refusal (List BufferWords) → Except Refusal (List BufferWords) → Prop
  | .error _, .error _ => True
  | .ok buffers, .ok reference =>
    ∀ run, prepare launch = .ok run → run.SameBuffers addFloat buffers reference
  | _, _ => False

/-- The lanes of a launch write disjoint elements or add atomically: an element two lanes address
is only added to. -/
def LanesDisjoint (launch : Launch) : Prop :=
  ∀ run, prepare launch = .ok run → ∀ first last, first < run.count → last < run.count →
    first ≠ last → ∀ left ∈ run.effects first, ∀ right ∈ run.effects last,
      left.position = right.position → left.index = right.index →
        left.change.isAdd = true ∧ right.change.isAdd = true

/-- No lane adds to an element whose buffer is of another kind of class, integer or real, than the
fragment. -/
def AddsInClass (launch : Launch) : Prop :=
  ∀ run, prepare launch = .ok run → ∀ effect ∈ run.allEffects, effect.change.isAdd = true →
    (run.zeroed.word effect.position effect.index).isSome →
      (run.outputClass effect.position = .int ↔ fragmentClass run.fragment = .int)

/-- A launch runs as on one thread, on any number of workers and in any order of their steps. -/
structure RunsInOrder (addFloat : BitVec 32 → BitVec 32 → BitVec 32) (launch : Launch) : Prop where
  /-- Every lane is in exactly one chunk. -/
  once : ∀ run, prepare launch = .ok run → ∀ workers, 0 < workers →
    ((chunks run.count workers).flatMap fun chunk => List.range' chunk.1 (chunk.2 - chunk.1)) =
      List.range run.count
  /-- A step of a worker changes no element but the one it addresses. -/
  elsewhere : ∀ run, prepare launch = .ok run → ∀ outputs worker outputs' next,
    WorkerStep addFloat run outputs worker outputs' next →
      outputs' = outputs ∨ ∃ position index, ∀ other otherIndex,
        (other, otherIndex) ≠ (position, index) →
          outputs'.word other otherIndex = outputs.word other otherIndex
  /-- An add changes every word it may find in the class of the buffer it addresses. -/
  classes : ∀ run, prepare launch = .ok run → ∀ effect ∈ run.allEffects,
    (run.zeroed.word effect.position effect.index).isSome → ∀ word,
      effect.change.act addFloat (fragmentClass run.fragment) word =
        effect.change.act addFloat (run.outputClass effect.position) word
  /-- No order of the steps is stuck before every worker is through. -/
  ends : ∀ run, prepare launch = .ok run → ∀ workers state,
    ReflTransGen (Step addFloat run) (start run workers) state →
      ∃ last, ReflTransGen (Step addFloat run) state last ∧ ∀ worker ∈ last.workers, worker.Finished
  agrees : ∀ workers, 0 < workers → ∀ outcome, RunParallelKernel addFloat launch workers outcome →
    SameAnswer addFloat launch outcome (sequential addFloat launch)

/-! ### Words and effects -/

namespace Outputs

theorem word_update (outputs : Outputs) (position index other otherIndex : Nat)
    (change : Word → Word) :
    (outputs.update position index change).word other otherIndex =
      if position = other ∧ index = otherIndex then (outputs.word other otherIndex).map change
      else outputs.word other otherIndex := by
  unfold word update
  rw [getElem?_modify]
  by_cases same : position = other
  · subst same
    cases outputs[position]? with
    | none => simp
    | some buffer =>
      by_cases sameIndex : index = otherIndex <;> simp [sameIndex]
  · simp [same]

/-- Two changes that agree on the word held are one change. -/
theorem update_congr {outputs : Outputs} {position index : Nat} {first last : Word → Word}
    (same : ∀ word, outputs.word position index = some word → first word = last word) :
    outputs.update position index first = outputs.update position index last := by
  unfold update
  apply ext_getElem?
  intro other
  rw [getElem?_modify, getElem?_modify]
  by_cases here : position = other
  · subst here
    cases held : outputs[position]? with
    | none => rfl
    | some buffer =>
      simp only [if_true, Option.map_eq_map, Option.map_some, Option.some.injEq]
      apply ext_getElem?
      intro slot
      rw [getElem?_modify, getElem?_modify]
      by_cases there : index = slot
      · subst there
        cases found : buffer[index]? with
        | none => rfl
        | some word =>
          have value : outputs.word position index = some word := by
            rw [Outputs.word, held]
            exact found
          simp [same word value]
      · simp [there]
  · simp [here]

theorem update_self {outputs : Outputs} {position index : Nat} {change : Word → Word}
    (absent : outputs.word position index = none) :
    outputs.update position index change = outputs := by
  have same : outputs.update position index change = outputs.update position index id :=
    update_congr fun word held => by simp [absent] at held
  rw [same]
  apply ext_getElem?
  intro other
  rw [update, getElem?_modify]
  by_cases here : position = other
  · cases held : outputs[other]? with
    | none => simp
    | some buffer => simp [here, modify_id]
  · simp [here]

theorem lengths_update (outputs : Outputs) (position index : Nat) (change : Word → Word) :
    (outputs.update position index change).map List.length = outputs.map List.length := by
  unfold update
  apply ext_getElem?
  intro other
  rw [getElem?_map, getElem?_map, getElem?_modify]
  by_cases here : position = other
  · cases outputs[other]? with
    | none => simp
    | some buffer => simp [here]
  · simp [here]

end Outputs

section Effects

variable (addFloat : BitVec 32 → BitVec 32 → BitVec 32)

theorem lengths_performed (classes : Nat → ScalarClass) (order : List Effect) :
    ∀ outputs : Outputs, (order.foldl (perform addFloat classes) outputs).map List.length =
      outputs.map List.length := by
  induction order with
  | nil =>
    intro outputs
    rfl
  | cons effect order ih =>
    intro outputs
    rw [foldl_cons, ih, perform, Outputs.lengths_update]

theorem word_performed (classes : Nat → ScalarClass) (position index : Nat) (order : List Effect) :
    ∀ outputs : Outputs, (order.foldl (perform addFloat classes) outputs).word position index =
      (outputs.word position index).map fun word =>
        ((order.filter (Effect.addresses position index)).map Effect.change).foldl
          (Change.act addFloat (classes position)) word := by
  induction order with
  | nil =>
    intro outputs
    simp
  | cons effect order ih =>
    intro outputs
    rw [foldl_cons, ih, perform, Outputs.word_update]
    by_cases here : effect.position = position ∧ effect.index = index
    · have kept : effect.addresses position index := addresses_iff.2 here
      obtain ⟨samePosition, sameIndex⟩ := here
      rw [filter_cons_of_pos kept]
      simp only [samePosition, sameIndex, and_self, if_true, Option.map_map, map_cons, foldl_cons]
      rfl
    · have dropped : ¬ effect.addresses position index := fun kept =>
        here (addresses_iff.1 kept)
      rw [filter_cons_of_neg dropped, if_neg here]

end Effects

/-! ### One step -/

section Steps

variable {addFloat : BitVec 32 → BitVec 32 → BitVec 32} {run : Prepared}

namespace Worker

/-- What a worker still does to the outputs. -/
def remaining (run : Prepared) (worker : Worker) : List Effect :=
  (match worker.phase with
    | .between | .failed _ => []
    | .calling lane => lane.effects run.read
    | .adding position index addend _ next =>
      ⟨position, index, .add addend⟩ :: next.effects run.read) ++
    worker.pending.flatMap run.effects

/-- A worker that failed or calls a lane that does not return. -/
def Doomed (run : Prepared) (worker : Worker) : Prop :=
  (match worker.phase with
    | .between => False
    | .failed _ => True
    | .calling lane | .adding _ _ _ _ lane => (lane.trap run.read).isSome = true) ∨
    ∃ index ∈ worker.pending, ((run.lane index).trap run.read).isSome = true

/-- A float add under way is of a fragment that is not of integers. -/
def Kept (run : Prepared) (worker : Worker) : Prop :=
  match worker.phase with
  | .adding _ _ _ _ _ => fragmentClass run.fragment ≠ .int
  | _ => True

end Worker

theorem addWord_real {stated : ScalarClass} (real : stated ≠ .int) :
    addWord addFloat stated = addWord addFloat .float := by
  cases stated with
  | int => exact absurd rfl real
  | float => rfl
  | bFloat16 => rfl

variable {outputs outputs' : Outputs} {worker next : Worker}

section

variable (step : WorkerStep addFloat run outputs worker outputs' next)

include step

theorem kept_step (kept : worker.Kept run) : next.Kept run := by
  cases step with
  | load current real present => exact real
  | reload actual => exact kept
  | _ => trivial

theorem doomed_step : next.Doomed run ↔ worker.Doomed run := by
  cases step with
  | call => simp [Worker.Doomed]
  | _ => simp [Worker.Doomed, Lane.trap]

/-- A step of a worker that does not fail does nothing to the outputs, or the first of what the
worker has left to do. -/
theorem remaining_step (kept : worker.Kept run) (sound : ¬ worker.Doomed run) :
    outputs' = outputs ∧ next.remaining run = worker.remaining run ∨
      ∃ effect, worker.remaining run = effect :: next.remaining run ∧
        outputs' = perform addFloat (fun _ => fragmentClass run.fragment) outputs effect := by
  cases step with
  | call => exact .inl ⟨rfl, by simp [Worker.remaining, Prepared.effects]⟩
  | returns | read => exact .inl ⟨rfl, by simp [Worker.remaining, Lane.effects]⟩
  | traps => exact absurd (by simp [Worker.Doomed, Lane.trap]) sound
  | write => exact .inr ⟨_, rfl, rfl⟩
  | outside absent =>
    refine .inr ⟨_, rfl, ?_⟩
    exact (Outputs.update_self absent).symm
  | fetchAdd integer =>
    refine .inr ⟨_, rfl, ?_⟩
    simp only [perform, Change.act, integer, addWord]
  | load current real present | reload actual => exact .inl ⟨rfl, rfl⟩
  | exchange held =>
    refine .inr ⟨_, rfl, ?_⟩
    apply Outputs.update_congr
    intro word found
    rw [Option.some.inj (held.symm.trans found)]
    simp only [Change.act]
    rw [addWord_real kept]

theorem elsewhere_step :
    outputs' = outputs ∨ ∃ position index, ∀ other otherIndex,
      (other, otherIndex) ≠ (position, index) →
        outputs'.word other otherIndex = outputs.word other otherIndex := by
  have elsewhere (position index : Nat) (change : Word → Word) (other otherIndex : Nat)
      (apart : (other, otherIndex) ≠ (position, index)) :
      (outputs.update position index change).word other otherIndex =
        outputs.word other otherIndex := by
    rw [Outputs.word_update, if_neg]
    rintro ⟨rfl, rfl⟩
    exact apart rfl
  cases step with
  | write | fetchAdd integer | exchange held => exact .inr ⟨_, _, elsewhere _ _ _⟩
  | _ => exact .inl rfl

end

theorem finished_remaining (finished : worker.Finished)
    (sound : ¬ worker.Doomed run) : worker.remaining run = [] := by
  rcases finished with ⟨message, failed⟩ | ⟨none, between⟩
  · exact absurd (by simp [Worker.Doomed, failed]) sound
  · simp [Worker.remaining, none, between]

theorem doomed_of_finished (finished : worker.Finished) :
    worker.Doomed run ↔ worker.failure.isSome := by
  rcases finished with ⟨message, failed⟩ | ⟨none, between⟩
  · simp [Worker.Doomed, Worker.failure, failed]
  · simp [Worker.Doomed, Worker.failure, none, between]

end Steps

/-! ### Whole runs -/

section Runs

variable {addFloat : BitVec 32 → BitVec 32 → BitVec 32} {run : Prepared}

/-- What holds of the workers of every state of a run that fails nowhere. -/
def Sound (run : Prepared) (state : State) : Prop :=
  ∀ worker ∈ state.workers, worker.Kept run ∧ ¬ worker.Doomed run

variable {state : State}

theorem sound_step {next : State} (step : Step addFloat run state next)
    (sound : Sound run state) : Sound run next := by
  cases step with
  | @worker outputs before after current outputs' changed spawned step =>
    intro worker member
    rcases mem_append.1 member with earlier | later
    · exact sound worker (mem_append_left _ earlier)
    · rcases mem_cons.1 later with rfl | later
      · obtain ⟨kept, safe⟩ := sound current (by simp)
        exact ⟨kept_step step kept, fun doomed => safe ((doomed_step step).1 doomed)⟩
      · exact sound worker (by simp [later])

variable {last : State}

section

variable (steps : ReflTransGen (Step addFloat run) state last)

include steps

/-- The outputs of a finished run are what the workers had left to do, done in some order that
keeps each worker's own. -/
theorem run_interleaves (finished : ∀ worker ∈ last.workers, worker.Finished) :
    Sound run state → ∃ order, Interleaves (state.workers.map (Worker.remaining run)) order ∧
      last.outputs =
        order.foldl (perform addFloat fun _ => fragmentClass run.fragment) state.outputs := by
  induction steps using ReflTransGen.head_induction_on with
  | refl =>
    intro sound
    refine ⟨[], .done ?_, rfl⟩
    intro list member
    obtain ⟨worker, within, rfl⟩ := mem_map.1 member
    exact finished_remaining (finished worker within) (sound worker within).2
  | head step _ ih =>
    intro sound
    obtain ⟨order, interleaved, held⟩ := ih (sound_step step sound)
    cases step with
    | @worker outputs before after current outputs' changed spawned step =>
      obtain ⟨kept, safe⟩ := sound current (by simp)
      simp only [map_append, map_cons] at interleaved ⊢
      rcases remaining_step step kept safe with ⟨same, left⟩ | ⟨effect, left, done⟩
      · rw [← left]
        subst same
        exact ⟨order, interleaved, held⟩
      · rw [left]
        subst done
        exact ⟨effect :: order, .take interleaved, held⟩

theorem doomed_run :
    (∃ worker ∈ last.workers, worker.Doomed run) ↔ ∃ worker ∈ state.workers, worker.Doomed run := by
  induction steps with
  | refl => exact Iff.rfl
  | tail _ step ih =>
    rw [← ih]
    cases step with
    | worker spawned step => simp [or_and_right, exists_or, doomed_step step]

theorem workers_length : last.workers.length = state.workers.length := by
  induction steps with
  | refl => rfl
  | tail _ step ih =>
    rw [← ih]
    cases step with
    | worker spawned step => simp

end

end Runs

/-! ### Every run can be ended -/

section Progress

variable {addFloat : BitVec 32 → BitVec 32 → BitVec 32} {run : Prepared}

/-- Steps of one worker, the others waiting. -/
inductive WorkerSteps (addFloat : BitVec 32 → BitVec 32 → BitVec 32) (run : Prepared) :
    Outputs → Worker → Outputs → Worker → Prop
  | refl {outputs worker} : WorkerSteps addFloat run outputs worker outputs worker
  | head {outputs worker middle next last final}
      (step : WorkerStep addFloat run outputs worker middle next)
      (steps : WorkerSteps addFloat run middle next last final) :
      WorkerSteps addFloat run outputs worker last final

variable {next : Worker}

theorem WorkerSteps.trans {outputs middle last : Outputs} {worker final : Worker}
    (first : WorkerSteps addFloat run outputs worker middle next)
    (second : WorkerSteps addFloat run middle next last final) :
    WorkerSteps addFloat run outputs worker last final := by
  induction first with
  | refl => exact second
  | head step _ ih => exact .head step (ih second)

variable {base : Nat}

theorem adding_ends {pending : List Nat} {position index : Nat}
    {addend current : Word} {next : Lane} {outputs : Outputs}
    (present : (outputs.word position index).isSome) :
    ∃ last, WorkerSteps addFloat run outputs ⟨base, pending, .adding position index addend current next⟩
      last ⟨base, pending, .calling next⟩ := by
  obtain ⟨word, held⟩ := Option.isSome_iff_exists.1 present
  exact ⟨_, .head (.reload word) (.head (.exchange held) .refl)⟩

/-- A call comes to its end, by induction on what it asks of the host. -/
theorem call_ends {pending : List Nat} (lane : Lane) :
    ∀ outputs, ∃ last phase, WorkerSteps addFloat run outputs ⟨base, pending, .calling lane⟩ last
      ⟨base, pending, phase⟩ ∧ (phase = .between ∨ ∃ message, phase = .failed message) := by
  induction lane with
  | returns =>
    intro outputs
    exact ⟨outputs, .between, .head .returns .refl, .inl rfl⟩
  | traps message =>
    intro outputs
    exact ⟨outputs, .failed message, .head .traps .refl, .inr ⟨message, rfl⟩⟩
  | read element position index next ih =>
    intro outputs
    obtain ⟨last, phase, steps, ended⟩ := ih _ outputs
    exact ⟨last, phase, .head .read steps, ended⟩
  | write element position index value next ih =>
    intro outputs
    obtain ⟨last, phase, steps, ended⟩ := ih _
    exact ⟨last, phase, .head .write steps, ended⟩
  | atomic element position index value next ih =>
    intro outputs
    cases held : outputs.word (positionOf position) (positionOf index) with
    | none =>
      obtain ⟨last, phase, steps, ended⟩ := ih outputs
      exact ⟨last, phase, .head (.outside held) steps, ended⟩
    | some word =>
      by_cases integer : fragmentClass run.fragment = .int
      · obtain ⟨last, phase, steps, ended⟩ := ih _
        exact ⟨last, phase, .head (.fetchAdd integer) steps, ended⟩
      · obtain ⟨last, phase, steps, ended⟩ := ih _
        exact ⟨last, phase, .head (.load word integer (by simp [held]))
          (.head (.exchange held) steps), ended⟩

theorem pending_ends (pending : List Nat) :
    ∀ outputs, ∃ last final, WorkerSteps addFloat run outputs ⟨base, pending, .between⟩ last final ∧
      final.Finished := by
  induction pending with
  | nil =>
    intro outputs
    exact ⟨outputs, _, .refl, .inr ⟨rfl, rfl⟩⟩
  | cons index pending ih =>
    intro outputs
    obtain ⟨middle, phase, called, rfl | ⟨message, rfl⟩⟩ :=
      @call_ends addFloat run base pending (run.lane index) outputs
    · obtain ⟨last, final, steps, finished⟩ := ih middle
      exact ⟨last, final, (WorkerSteps.head .call called).trans steps, finished⟩
    · exact ⟨middle, _, .head .call called, .inl ⟨message, rfl⟩⟩

/-- A float add under way addresses an element there is. -/
def Worker.Addresses (outputs : Outputs) (worker : Worker) : Prop :=
  match worker.phase with
  | .adding position index _ _ _ => (outputs.word position index).isSome
  | _ => True

theorem worker_ends {outputs : Outputs} {worker : Worker} (addresses : worker.Addresses outputs) :
    ∃ last final, WorkerSteps addFloat run outputs worker last final ∧ final.Finished := by
  obtain ⟨base, pending, phase⟩ := worker
  have called (lane : Lane) (outputs : Outputs) : ∃ last final, WorkerSteps addFloat run outputs
      ⟨base, pending, .calling lane⟩ last final ∧ final.Finished := by
    obtain ⟨middle, phase, steps, rfl | ⟨message, rfl⟩⟩ :=
      @call_ends addFloat run base pending lane outputs
    · obtain ⟨last, final, more, finished⟩ := @pending_ends addFloat run base pending middle
      exact ⟨last, final, steps.trans more, finished⟩
    · exact ⟨middle, _, steps, .inl ⟨message, rfl⟩⟩
  cases phase with
  | between => exact pending_ends pending outputs
  | calling lane => exact called lane outputs
  | adding position index addend current next =>
    obtain ⟨middle, added⟩ :=
      @adding_ends addFloat run base pending position index addend current next outputs addresses
    obtain ⟨last, final, steps, finished⟩ := called next middle
    exact ⟨last, final, added.trans steps, finished⟩
  | failed message => exact ⟨outputs, _, .refl, .inl ⟨message, rfl⟩⟩

theorem isSome_word_update (outputs : Outputs) (position index other otherIndex : Nat)
    (change : Word → Word) :
    ((outputs.update position index change).word other otherIndex).isSome =
      (outputs.word other otherIndex).isSome := by
  rw [Outputs.word_update]
  split <;> simp

variable {outputs' : Outputs}

theorem isSome_word_step {outputs : Outputs} {worker : Worker}
    (step : WorkerStep addFloat run outputs worker outputs' next) (position index : Nat) :
    (outputs'.word position index).isSome = (outputs.word position index).isSome := by
  cases step with
  | write | fetchAdd integer | exchange held => exact isSome_word_update _ _ _ _ _ _
  | _ => rfl

theorem addresses_frame {outputs : Outputs} {worker : Worker} (same : ∀ position index,
      (outputs'.word position index).isSome = (outputs.word position index).isSome) :
    worker.Addresses outputs' ↔ worker.Addresses outputs := by
  unfold Worker.Addresses
  cases worker.phase with
  | adding position index addend current next => simp [same]
  | _ => exact Iff.rfl

theorem addresses_step {outputs : Outputs} {worker : Worker}
    (step : WorkerStep addFloat run outputs worker outputs' next)
    (addresses : worker.Addresses outputs) : next.Addresses outputs' := by
  cases step with
  | load current real present => exact present
  | reload actual => exact addresses
  | _ => trivial

theorem steps_of_worker {before after : List Worker} {outputs last : Outputs}
    {worker final : Worker} (through : ∀ earlier ∈ before, earlier.Finished)
    (steps : WorkerSteps addFloat run outputs worker last final) :
    ReflTransGen (Step addFloat run) ⟨outputs, before ++ worker :: after⟩
        ⟨last, before ++ final :: after⟩ ∧
      ∀ position index, (last.word position index).isSome = (outputs.word position index).isSome := by
  induction steps with
  | refl => exact ⟨.refl, fun _ _ => rfl⟩
  | head step _ ih =>
    obtain ⟨rest, same⟩ := ih
    refine ⟨.head (.worker (fun earlier member _ => through earlier member) step) rest, ?_⟩
    intro position index
    rw [same, isSome_word_step step]

/-- The workers are brought to their ends one after the other. -/
theorem state_ends (after : List Worker) :
    ∀ (before : List Worker) (outputs : Outputs), (∀ worker ∈ before, worker.Finished) →
      (∀ worker ∈ after, worker.Addresses outputs) →
      ∃ last, ReflTransGen (Step addFloat run) ⟨outputs, before ++ after⟩ last ∧
        ∀ worker ∈ last.workers, worker.Finished := by
  induction after with
  | nil =>
    intro before outputs through _
    exact ⟨_, .refl, by simpa using through⟩
  | cons worker after ih =>
    intro before outputs through addresses
    obtain ⟨middle, final, steps, finished⟩ :=
      @worker_ends addFloat run outputs worker (addresses worker (by simp))
    obtain ⟨first, same⟩ :=
      @steps_of_worker addFloat run before after outputs middle worker final through steps
    obtain ⟨last, rest, done⟩ := ih (before ++ [final]) middle (fun other member => by
        rcases mem_append.1 member with earlier | here
        · exact through other earlier
        · rw [mem_singleton.1 here]
          exact finished)
      (fun other member => (addresses_frame same).2 (addresses other (by simp [member])))
    rw [append_assoc, singleton_append] at rest
    exact ⟨last, first.trans rest, done⟩

theorem addresses_run {state last : State} (steps : ReflTransGen (Step addFloat run) state last)
    (addresses : ∀ worker ∈ state.workers, worker.Addresses state.outputs) :
    ∀ worker ∈ last.workers, worker.Addresses last.outputs := by
  induction steps with
  | refl => exact addresses
  | tail _ step ih =>
    cases step with
    | @worker outputs before after current outputs' changed spawned step =>
      intro worker member
      have frame {other : Worker} : other.Addresses outputs' ↔ other.Addresses outputs :=
        addresses_frame (isSome_word_step step)
      rcases mem_append.1 member with earlier | later
      · exact frame.2 (ih worker (mem_append_left _ earlier))
      · rcases mem_cons.1 later with rfl | later
        · exact addresses_step step (ih current (by simp))
        · exact frame.2 (ih worker (by simp [later]))

end Progress

end LichenVm.ParallelRun
