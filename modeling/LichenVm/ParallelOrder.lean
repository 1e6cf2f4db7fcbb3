import LichenVm.ParallelWords

open List Option

namespace LichenVm.ParallelRun

open KernelIr Interleaving Relation

/-! ### The chunks -/

theorem ranges_flatten {bounds : Nat → Nat} (first : bounds 0 = 0)
    (rises : ∀ index, bounds index ≤ bounds (index + 1)) (workers : Nat) :
    ((List.range workers).flatMap fun index =>
      List.range' (bounds index) (bounds (index + 1) - bounds index)) =
        List.range (bounds workers) := by
  induction workers with
  | zero => simp [first]
  | succ workers ih =>
    have joined := @List.range'_append_1 0 (bounds workers) (bounds (workers + 1) - bounds workers)
    rw [zero_add, Nat.add_sub_cancel' (rises workers)] at joined
    rw [range_succ, flatMap_append, ih, flatMap_singleton, range_eq_range', range_eq_range', joined]

def bound (count workers index : Nat) : Nat :=
  index * (count / workers) + min index (count % workers)

theorem chunks_eq (count workers : Nat) :
    chunks count workers = (List.range workers).map fun index =>
      (bound count workers index, bound count workers (index + 1)) := by
  apply ext_getElem
  · simp [chunks, chunkBounds]
  · intro index left right
    simp [chunks, chunkBounds, bound]

theorem bound_rises (count workers index : Nat) :
    bound count workers index ≤ bound count workers (index + 1) := by
  unfold bound
  rw [Nat.succ_mul]
  have longer : min index (count % workers) ≤ min (index + 1) (count % workers) := by omega
  have := Nat.le_add_right (index * (count / workers)) (count / workers)
  exact add_le_add this longer

theorem bound_last {count workers : Nat} (positive : 0 < workers) :
    bound count workers workers = count := by
  have less := Nat.mod_lt count positive
  unfold bound
  rw [min_eq_right (le_of_lt less)]
  exact Nat.div_add_mod count workers

theorem chunks_once (count : Nat) {workers : Nat} (positive : 0 < workers) :
    ((chunks count workers).flatMap fun chunk => List.range' chunk.1 (chunk.2 - chunk.1)) =
      List.range count := by
  rw [chunks_eq, flatMap_map,
    @ranges_flatten (bound count workers) (by simp [bound]) (bound_rises count workers),
    bound_last positive]

theorem bound_mono (count workers : Nat) {first last : Nat} (order : first ≤ last) :
    bound count workers first ≤ bound count workers last := by
  induction order with
  | refl => exact le_refl _
  | step _ ih => exact le_trans ih (bound_rises count workers _)

/-! ### What a launch answers -/

section Answers

variable {addFloat : BitVec 32 → BitVec 32 → BitVec 32} {run : Prepared}

/-- A launch fails where the module does not link, or a lane does not return. -/
def Fails (run : Prepared) : Prop :=
  (∃ message, run.linked = .error message) ∨
    ∃ index, index < run.count ∧ ((run.lane index).trap run.read).isSome = true

variable {workers : Nat}

theorem mem_chunks (positive : 0 < workers) (count index : Nat) :
    index < count ↔ ∃ chunk ∈ chunks count workers,
      index ∈ List.range' chunk.1 (chunk.2 - chunk.1) := by
  rw [← mem_range, ← chunks_once count positive, mem_flatMap]

theorem doomed_start {chunk : Nat × Nat} :
    (Worker.start run chunk).Doomed run ↔ (∃ message, run.linked = .error message) ∨
      ∃ index ∈ List.range' chunk.1 (chunk.2 - chunk.1),
        ((run.lane index).trap run.read).isSome := by
  unfold Worker.Doomed Worker.start
  cases linked : run.linked with
  | error message => simp
  | ok main => simp

theorem doomed_iff_fails (positive : 0 < workers) :
    (∃ worker ∈ (start run workers).workers, worker.Doomed run) ↔ Fails run := by
  have some_chunk : chunks run.count workers ≠ [] := by
    rw [chunks_eq]
    simp
    omega
  simp only [start, List.mem_map, exists_exists_and_eq_and, doomed_start]
  constructor
  · rintro ⟨chunk, member, ⟨message, linked⟩ | ⟨index, within, traps⟩⟩
    · exact .inl ⟨message, linked⟩
    · exact .inr ⟨index, (mem_chunks positive _ _).2 ⟨chunk, member, within⟩, traps⟩
  · rintro (⟨message, linked⟩ | ⟨index, less, traps⟩)
    · obtain ⟨chunk, member⟩ := exists_mem_of_ne_nil _ some_chunk
      exact ⟨chunk, member, .inl ⟨message, linked⟩⟩
    · obtain ⟨chunk, member, within⟩ := (mem_chunks positive _ _).1 less
      exact ⟨chunk, member, .inr ⟨index, within, traps⟩⟩

theorem collect_ok {state : State} (none : ∀ worker ∈ state.workers, worker.failure = none) :
    collect run workers state = .ok (run.tagged state.outputs) := by
  unfold collect
  rw [List.findSome?_eq_none_iff.2]
  intro entry member
  have within := (of_mem_zip (fst_mem_of_mem_zipIdx member)).1
  rw [reported, none _ within]
  rfl

theorem collect_error {state : State}
    (same : state.workers.length = (chunks run.count workers).length)
    (fails : ∃ worker ∈ state.workers, worker.failure.isSome) :
    ∃ refusal, collect run workers state = .error refusal := by
  obtain ⟨worker, member, failed⟩ := fails
  obtain ⟨index, bound, rfl⟩ := mem_iff_getElem.1 member
  unfold collect
  cases found : (state.workers.zip (chunks run.count workers)).zipIdx.findSome?
      (reported workers) with
  | some refusal => exact ⟨refusal, rfl⟩
  | none =>
    have bound' : index < (chunks run.count workers).length := by omega
    have entry : ((state.workers[index], (chunks run.count workers)[index]), index) ∈
        (state.workers.zip (chunks run.count workers)).zipIdx := by
      apply mk_mem_zipIdx_iff_getElem?.2
      rw [getElem?_zip_eq_some]
      exact ⟨getElem?_eq_getElem bound, getElem?_eq_getElem bound'⟩
    have nothing := List.findSome?_eq_none_iff.1 found _ entry
    rw [reported, map_eq_none_iff] at nothing
    rw [nothing] at failed
    exact absurd failed (by simp)

section

variable {launch : Launch} (gate : prepare launch = .ok run)

include gate

theorem sequential_error (fails : Fails run) :
    ∃ refusal, sequential addFloat launch = .error refusal := by
  unfold sequential
  rcases fails with ⟨message, linked⟩ | ⟨index, less, traps⟩
  · exact ⟨.lane message, by simp only [gate, linked]⟩
  · cases linked : run.linked with
    | error message => exact ⟨.lane message, by simp only [gate, linked]⟩
    | ok main =>
      cases found : (List.range run.count).findSome? fun index =>
          (run.lane index).trap run.read with
      | some message => exact ⟨.lane message, by simp only [gate, linked, found]⟩
      | none =>
        have nothing := List.findSome?_eq_none_iff.1 found index (mem_range.2 less)
        rw [nothing] at traps
        exact absurd traps (by simp)

theorem sequential_ok (safe : ¬ Fails run) :
    sequential addFloat launch = .ok (run.tagged (run.inOrder addFloat)) := by
  unfold sequential
  cases linked : run.linked with
  | error message => exact absurd (.inl ⟨message, linked⟩) safe
  | ok main =>
    have none : ((List.range run.count).findSome? fun index =>
        (run.lane index).trap run.read) = none := by
      apply List.findSome?_eq_none_iff.2
      intro index member
      have returns : ¬ ((run.lane index).trap run.read).isSome := fun traps =>
        safe (.inr ⟨index, mem_range.1 member, traps⟩)
      exact not_isSome_iff_eq_none.1 returns
    simp only [gate, linked, none]

end

theorem remaining_start (safe : ¬ Fails run) :
    (start run workers).workers.map (Worker.remaining run) =
      (chunks run.count workers).map fun chunk =>
        (List.range' chunk.1 (chunk.2 - chunk.1)).flatMap run.effects := by
  simp only [start, List.map_map]
  apply List.map_congr_left
  intro chunk _
  simp only [Function.comp, Worker.remaining, Worker.start]
  cases linked : run.linked with
  | error message => exact absurd (.inl ⟨message, linked⟩) safe
  | ok main => rfl

theorem flatten_start (positive : 0 < workers) (safe : ¬ Fails run) :
    ((start run workers).workers.map (Worker.remaining run)).flatten = run.allEffects := by
  rw [remaining_start safe, ← flatMap_def, Prepared.allEffects, ← chunks_once run.count positive,
    flatMap_assoc]

theorem kept_start :
    ∀ worker ∈ (start run workers).workers, worker.Kept run ∧ worker.Addresses run.zeroed := by
  intro worker member
  obtain ⟨chunk, _, rfl⟩ := List.mem_map.1 member
  unfold Worker.Kept Worker.Addresses Worker.start
  cases run.linked <;> exact ⟨trivial, trivial⟩

end Answers

/-! ### Any order of the steps -/

section Orders

variable {addFloat : BitVec 32 → BitVec 32 → BitVec 32} {run : Prepared}

def Change.value : Change → Word
  | .write value | .add value => value

theorem adds_eq {changes : List Change} (adds : ∀ change ∈ changes, change.isAdd) :
    changes = (changes.map Change.value).map Change.add := by
  rw [List.map_map]
  conv_lhs => rw [← List.map_id changes]
  apply List.map_congr_left
  intro change member
  have added := adds change member
  cases change with
  | write value => exact absurd added (by simp [Change.isAdd])
  | add value => rfl

theorem mem_allEffects {effect : Effect} :
    effect ∈ run.allEffects ↔ ∃ lane, lane < run.count ∧ effect ∈ run.effects lane := by
  simp [Prepared.allEffects]

variable {position index : Nat}

theorem zeroed_word {word : Word}
    (held : run.zeroed.word position index = some word) : word = 0 := by
  unfold Outputs.word Prepared.zeroed at held
  rw [getElem?_map] at held
  cases ordinal : (List.range run.fragment.outputs)[position]? with
  | none => simp [ordinal] at held
  | some found =>
    simp only [ordinal, map_some, bind_some] at held
    exact eq_of_mem_replicate (mem_of_getElem? held)

theorem fold_congr {α : Type} {first last : Word → α → Word} (items : List α)
    (same : ∀ item ∈ items, ∀ word, first word item = last word item) :
    ∀ word, items.foldl first word = items.foldl last word := by
  induction items with
  | nil =>
    intro word
    rfl
  | cons item items ih =>
    intro word
    rw [foldl_cons, foldl_cons, same item (by simp),
      ih fun other member => same other (by simp [member])]

/-- Integer adds may be made in any order. -/
theorem fold_integers {changes order : List Change} (perm : order.Perm changes)
    (adds : ∀ change ∈ order, change.isAdd) :
    ∀ word, order.foldl (Change.act addFloat .int) word =
      changes.foldl (Change.act addFloat .int) word := by
  induction perm with
  | nil =>
    intro word
    rfl
  | cons change _ ih =>
    intro word
    exact ih (fun other member => adds other (by simp [member])) _
  | swap first second rest =>
    intro word
    have one := adds second (by simp)
    have two := adds first (by simp)
    cases first with
    | write value => exact absurd two (by simp [Change.isAdd])
    | add value =>
      cases second with
      | write other => exact absurd one (by simp [Change.isAdd])
      | add other =>
        simp only [foldl_cons, Change.act, addWord]
        rw [BitVec.add_assoc, BitVec.add_comm other value, ← BitVec.add_assoc]
  | trans left _ first second =>
    intro word
    rw [first adds, second fun other member => adds other (left.mem_iff.2 member)]

theorem lane_of_write
    (disjoint : ∀ first last, first < run.count → last < run.count → first ≠ last →
      ∀ left ∈ run.effects first, ∀ right ∈ run.effects last, left.position = right.position →
        left.index = right.index → left.change.isAdd ∧ right.change.isAdd)
    {writer lane : Nat} {write effect : Effect} (inside : writer < run.count)
    (less : lane < run.count) (written : write ∈ run.effects writer)
    (plain : ¬ write.change.isAdd) (member : effect ∈ run.effects lane)
    (here : write.addresses position index) (there : effect.addresses position index) :
    lane = writer := by
  by_contra apart
  obtain ⟨writePosition, writeIndex⟩ := addresses_iff.1 here
  obtain ⟨effectPosition, effectIndex⟩ := addresses_iff.1 there
  have both := disjoint lane writer less inside apart effect member write written
    (by rw [effectPosition, writePosition]) (by rw [effectIndex, writeIndex])
  exact plain both.2

theorem mem_chunk_effects {workers lane : Nat} {effects : List Effect}
    (held : (((chunks run.count workers).map fun chunk =>
      (List.range' chunk.1 (chunk.2 - chunk.1)).flatMap run.effects)[lane]?) = some effects)
    (some : effects.filter (Effect.addresses position index) ≠ []) :
    ∃ here, bound run.count workers lane ≤ here ∧ here < bound run.count workers (lane + 1) ∧
      ∃ effect ∈ run.effects here, effect.addresses position index := by
  rw [chunks_eq, List.map_map, getElem?_map] at held
  cases ordinal : (List.range workers)[lane]? with
  | none => simp [ordinal] at held
  | some found =>
    obtain ⟨_, rfl⟩ := List.getElem?_eq_some_iff.1 ordinal
    simp only [ordinal, map_some, Option.some.injEq, getElem_range, Function.comp] at held
    obtain ⟨effect, member⟩ := exists_mem_of_ne_nil _ some
    obtain ⟨within, addressed⟩ := mem_filter.1 member
    rw [← held, mem_flatMap] at within
    obtain ⟨here, range, done⟩ := within
    obtain ⟨gap, less, rfl⟩ := mem_range'.1 range
    exact ⟨_, by omega, by omega, effect, done, addressed⟩

/-- Whatever the order of the steps, an element is left as the lanes leave it in order. -/
theorem agrees_of_order {launch : Launch} {workers : Nat} (gate : prepare launch = .ok run)
    (positive : 0 < workers) (disjoint : LanesDisjoint launch) (inClass : AddsInClass launch)
    {order : List Effect}
    (interleaved : Interleaves ((chunks run.count workers).map fun chunk =>
      (List.range' chunk.1 (chunk.2 - chunk.1)).flatMap run.effects) order)
    (flat : ((chunks run.count workers).map fun chunk =>
      (List.range' chunk.1 (chunk.2 - chunk.1)).flatMap run.effects).flatten = run.allEffects)
    {word : Word}
    (held : (order.foldl (perform addFloat fun _ => fragmentClass run.fragment) run.zeroed).word
      position index = some word) :
    run.Agrees addFloat position index word := by
  rw [word_performed] at held
  obtain ⟨zero, present, value⟩ := map_eq_some_iff.1 held
  have isZero := zeroed_word present
  subst isZero
  have perm : (order.filter (Effect.addresses position index)).Perm
      (run.allEffects.filter (Effect.addresses position index)) := by
    rw [← flat]
    exact interleaved.perm.filter _
  have changed := perm.map Effect.change
  -- every change is made in the class of the buffer
  have sameClass : ∀ change ∈ (order.filter (Effect.addresses position index)).map Effect.change,
      ∀ word, change.act addFloat (fragmentClass run.fragment) word =
        change.act addFloat (run.outputClass position) word := by
    intro change member word
    obtain ⟨effect, within, rfl⟩ := List.mem_map.1 (changed.mem_iff.1 member)
    obtain ⟨made, addressed⟩ := mem_filter.1 within
    obtain ⟨rfl, rfl⟩ := addresses_iff.1 addressed
    cases kind : effect.change with
    | write value => rfl
    | add value =>
      have agree := inClass run gate effect made (by simp [kind, Change.isAdd]) (by simp [present])
      by_cases integer : fragmentClass run.fragment = .int
      · rw [integer, agree.2 integer]
      · simp only [Change.act]
        rw [addWord_real integer, addWord_real fun buffer => integer (agree.1 buffer)]
  rw [fold_congr _ sameClass] at value
  have reference : (run.inOrder addFloat).word position index = some
      ((run.changesAt position index).foldl (Change.act addFloat (run.outputClass position)) 0) := by
    rw [Prepared.inOrder, word_performed, present]
    rfl
  by_cases adds : ∀ change ∈ run.changesAt position index, change.isAdd
  · have orderAdds : ∀ change ∈ (order.filter (Effect.addresses position index)).map Effect.change,
        change.isAdd := fun change member => adds change (changed.mem_iff.1 member)
    by_cases integer : run.outputClass position = .int
    · left
      rw [reference, ← value, integer, fold_integers changed orderAdds]
      rfl
    · right
      refine ⟨integer, (run.changesAt position index).map Change.value,
        ((order.filter (Effect.addresses position index)).map Effect.change).map Change.value,
        adds_eq adds, changed.map _, ?_⟩
      rw [← value]
      conv_lhs => rw [adds_eq orderAdds]
      rw [foldl_map]
      simp only [Change.act]
      rw [addWord_real integer]
  · left
    obtain ⟨change, member, plain⟩ : ∃ change ∈ run.changesAt position index,
        ¬ change.isAdd := by
      by_contra none
      exact adds fun change member => by
        by_contra plain
        exact none ⟨change, member, plain⟩
    obtain ⟨write, within, rfl⟩ := List.mem_map.1 member
    obtain ⟨made, here⟩ := mem_filter.1 within
    obtain ⟨writer, inside, written⟩ := mem_allEffects.1 made
    have single := filter_eq_of_single (Effect.addresses position index) interleaved ?_
    · rw [reference, ← value, single, flat]
      rfl
    · intro first last before left right heldLeft heldRight
      by_contra both
      rw [not_or] at both
      obtain ⟨one, oneLow, oneHigh, effect, done, there⟩ := mem_chunk_effects heldLeft both.1
      obtain ⟨two, twoLow, twoHigh, other, otherDone, otherThere⟩ :=
        mem_chunk_effects heldRight both.2
      have apart : bound run.count workers (first + 1) ≤ bound run.count workers last :=
        bound_mono run.count workers before
      have bounded : last < workers := by
        obtain ⟨less, _⟩ := List.getElem?_eq_some_iff.1 heldRight
        simpa [chunks_eq] using less
      have top : bound run.count workers (last + 1) ≤ bound run.count workers workers :=
        bound_mono run.count workers bounded
      rw [bound_last positive] at top
      have sameOne := lane_of_write (disjoint run gate) inside (by omega) written plain done here there
      have sameTwo := lane_of_write (disjoint run gate) inside (by omega) written plain otherDone
        here otherThere
      omega

end Orders

/-! ### The run is the sequential run -/

section Refinement

variable {addFloat : BitVec 32 → BitVec 32 → BitVec 32} {launch : Launch}

theorem addWord_differs {first last : ScalarClass} {value : Word}
    (same : ∀ word, addWord addFloat first word value = addWord addFloat last word value) :
    first = .int ↔ last = .int := by
  have differs {stated : ScalarClass} (real : stated ≠ .int) :
      addWord addFloat stated ((2 : Word) ^ 32 - value) value ≠ (2 : Word) ^ 32 - value + value := by
    intro equal
    rw [addWord_real real, BitVec.sub_add_cancel] at equal
    have low : (addWord addFloat .float ((2 : Word) ^ 32 - value) value).toNat < 2 ^ 32 := by
      simp only [addWord, BitVec.toNat_setWidth]
      exact lt_of_le_of_lt (Nat.mod_le _ _) (BitVec.isLt _)
    rw [equal] at low
    exact absurd low (by decide)
  have here := same ((2 : Word) ^ 32 - value)
  constructor
  · rintro rfl
    by_contra real
    exact differs real here.symm
  · rintro rfl
    by_contra real
    exact differs real here

theorem lengths_tagged (run : Prepared) {outputs reference : Outputs}
    (same : outputs.map List.length = reference.map List.length) :
    (run.tagged outputs).map (fun buffer => (buffer.stated, buffer.words.length)) =
      (run.tagged reference).map (fun buffer => (buffer.stated, buffer.words.length)) := by
  apply ext_getElem?
  intro position
  have here := congrArg (fun lengths => lengths[position]?) same
  simp only [getElem?_map] at here
  simp only [Prepared.tagged, getElem?_map, getElem?_zipIdx]
  cases left : outputs[position]? with
  | none =>
    rw [left] at here
    cases right : reference[position]? with
    | none => rfl
    | some other => simp [right] at here
  | some words =>
    rw [left] at here
    cases right : reference[position]? with
    | none => simp [right] at here
    | some other =>
      rw [right] at here
      simpa using here

theorem word_tagged (run : Prepared) (outputs : Outputs) (position index : Nat) :
    ((run.tagged outputs)[position]?.bind (·.words[index]?)) = outputs.word position index := by
  simp only [Prepared.tagged, getElem?_map, getElem?_zipIdx, Outputs.word]
  cases outputs[position]? <;> rfl

/-- What a finished run answers is what the lanes answer one after the other. -/
theorem agrees_of_run {workers : Nat} (positive : 0 < workers) (disjoint : LanesDisjoint launch)
    (inClass : AddsInClass launch) {run : Prepared} {last : State}
    (gate : prepare launch = .ok run)
    (steps : ReflTransGen (Step addFloat run) (start run workers) last)
    (finished : ∀ worker ∈ last.workers, worker.Finished) :
    SameAnswer addFloat launch (collect run workers last) (sequential addFloat launch) := by
  have decided := (doomed_run steps).trans (doomed_iff_fails positive)
  by_cases fails : Fails run
  · obtain ⟨worker, member, doomed⟩ := decided.2 fails
    have same : last.workers.length = (chunks run.count workers).length := by
      rw [workers_length steps, start, length_map]
    obtain ⟨refusal, answered⟩ := collect_error same
      ⟨worker, member, (doomed_of_finished (finished worker member)).1 doomed⟩
    obtain ⟨other, reference⟩ := @sequential_error addFloat run launch gate fails
    rw [answered, reference]
    trivial
  · have quiet : ∀ worker ∈ last.workers, worker.failure = none := by
      intro worker member
      apply not_isSome_iff_eq_none.1
      intro failed
      exact fails (decided.1 ⟨worker, member,
        (doomed_of_finished (finished worker member)).2 failed⟩)
    have sound : Sound run (start run workers) := fun worker member =>
      ⟨(kept_start worker member).1, fun doomed =>
        fails ((doomed_iff_fails positive).1 ⟨worker, member, doomed⟩)⟩
    obtain ⟨order, interleaved, held⟩ := run_interleaves steps finished sound
    have flat := flatten_start positive fails
    rw [remaining_start fails] at interleaved flat
    rw [collect_ok quiet, sequential_ok gate fails]
    intro found gated
    rw [gate] at gated
    cases gated
    constructor
    · apply lengths_tagged
      rw [held, Prepared.inOrder, lengths_performed, lengths_performed]
      rfl
    · intro position index word there
      rw [word_tagged, held] at there
      exact agrees_of_order gate positive disjoint inClass interleaved flat there

/-- A launch whose lanes write disjoint elements or add atomically runs as on one thread, on any
number of workers and in any order of their steps, exactly when every add is to a buffer of the
kind of class the fragment is lowered in. -/
theorem runParallelKernel_inOrder_iff (addFloat : BitVec 32 → BitVec 32 → BitVec 32)
    (launch : Launch) (disjoint : LanesDisjoint launch) :
    RunsInOrder addFloat launch ↔ AddsInClass launch := by
  constructor
  · intro runs run gate effect made added present
    cases kind : effect.change with
    | write value => exact absurd added (by simp [kind, Change.isAdd])
    | add value =>
      have same := runs.classes run gate effect made present
      rw [kind] at same
      exact (addWord_differs same).symm
  · intro inClass
    refine ⟨?_, ?_, ?_, ?_, ?_⟩
    · intro run _ workers positive
      exact chunks_once run.count positive
    · intro run _ outputs worker outputs' next step
      exact elsewhere_step step
    · intro run gate effect made present word
      cases kind : effect.change with
      | write value => rfl
      | add value =>
        have agree := inClass run gate effect made (by simp [kind, Change.isAdd]) present
        by_cases integer : fragmentClass run.fragment = .int
        · rw [integer, agree.2 integer]
        · simp only [Change.act]
          rw [addWord_real integer, addWord_real fun buffer => integer (agree.1 buffer)]
    · intro run _ workers state steps
      have addresses := addresses_run steps fun worker member => (kept_start worker member).2
      exact state_ends state.workers [] state.outputs (by simp) addresses
    · intro workers positive outcome answered
      cases answered with
      | refused gate =>
        unfold sequential
        rw [gate]
        trivial
      | ran gate steps finished =>
        exact agrees_of_run positive disjoint inClass gate steps finished

end Refinement

/-! ### A launch of integer adds, and one of mixed classes -/

/-- Float addition at zero. -/
def addZero (left right : BitVec 32) : BitVec 32 :=
  if left = 0 then right else left

def launchShape : KernelShape :=
  .tuple [.scalar .int, .scalar .int]

/-- Every lane adds its index to the one element of an integer buffer. -/
def sumLaunch : Launch where
  fragment :=
    { paramShape := launchShape
      roles := { outputExtents := [some 1] }
      body := ⟨[.blockParam 0 0, .blockParam 0 1, .instr (.const .int 0) [] [.int],
        .instr (.bufferAtomicAddCall .int) [2, 2, 1] []], [⟨[0, 1], [2, 3], .return []⟩], 0, false, []⟩
      inputs := 0
      outputs := 1
      inputClasses := []
      outputClasses := [.int]
      resultClasses := []
      target := ⟨.i64, 1, 1⟩ }
  leaves := [3]
  inputs := []
  assembled := .ok
    { imports := [.int]
      main := some fun args =>
        .atomic .int (.i64 0) (.i64 0) (args.getLastD (.i64 0)) .returns }

theorem sumLaunch_disjoint : LanesDisjoint sumLaunch := by
  intro run gate first last _ _ _ left leftMember right rightMember _ _
  cases gate
  have added (lane : Nat) (effect : Effect)
      (member : effect ∈ Lane.effects (fun _ _ => 0)
        (.atomic .int (.i64 0) (.i64 0) (.i64 (BitVec.ofNat 64 lane)) .returns)) :
      effect.change.isAdd := by
    simp only [Lane.effects, mem_singleton] at member
    rw [member]
    rfl
  exact ⟨added first left leftMember, added last right rightMember⟩

theorem sumLaunch_inOrder_iff :
    LanesDisjoint sumLaunch ∧ (RunsInOrder addZero sumLaunch ↔ AddsInClass sumLaunch) :=
  ⟨sumLaunch_disjoint, runParallelKernel_inOrder_iff addZero sumLaunch sumLaunch_disjoint⟩

/-- One lane writes a float and adds 2 ^ 32 to an element of an integer buffer. -/
def mixedLaunch : Launch where
  fragment :=
    { paramShape := launchShape
      roles := { outputExtents := [none, none] }
      body := ⟨[.blockParam 0 0, .blockParam 0 1, .instr (.const .int 0) [] [.int],
        .instr (.const .float 0x3F800000) [] [.float], .instr (.bufferWriteCall .float) [2, 1, 3] [],
        .instr (.const .int 1) [] [.int], .instr (.const .int 0x100000000) [] [.int],
        .instr (.bufferAtomicAddCall .int) [5, 1, 6] []],
        [⟨[0, 1], [2, 3, 4, 5, 6, 7], .return []⟩], 0, false, []⟩
      inputs := 0
      outputs := 2
      inputClasses := []
      outputClasses := [.float, .int]
      resultClasses := []
      target := ⟨.i64, 1, 1⟩ }
  leaves := [1]
  inputs := []
  assembled := .ok
    { imports := [.int, .float]
      main := some fun args =>
        .write .float (.i64 0) (args.getLastD (.i64 0)) (.f32 0x3F800000)
          (.atomic .int (.i64 1) (args.getLastD (.i64 0)) (.i64 0x100000000) .returns) }

def mixedRun : Prepared :=
  ⟨mixedLaunch.fragment, [1], [], ⟨[.int, .float], some fun args =>
    .write .float (.i64 0) (args.getLastD (.i64 0)) (.f32 0x3F800000)
      (.atomic .int (.i64 1) (args.getLastD (.i64 0)) (.i64 0x100000000) .returns), ""⟩, 1⟩

theorem mixedRun_steps : ReflTransGen (Step addZero mixedRun) (start mixedRun 1)
    ⟨[[0x3F800000], [0]], [⟨0, [], .between⟩]⟩ := by
  have alone {outputs outputs' : Outputs} {worker next : Worker}
      (step : WorkerStep addZero mixedRun outputs worker outputs' next) :
      Step addZero mixedRun ⟨outputs, [worker]⟩ ⟨outputs', [next]⟩ :=
    @Step.worker addZero mixedRun outputs [] [] worker outputs' next (by simp) step
  refine .head (alone .call) (.head (alone .write) (.head (alone (.load 0 (by decide) (by decide)))
    (.head (alone (.exchange (by decide))) (.head (alone .returns) ?_))))
  exact .refl

/-- The run leaves 0 where the lanes in order leave 2 ^ 32. -/
theorem mixedLaunch_diverges : LanesDisjoint mixedLaunch ∧ ¬ RunsInOrder addZero mixedLaunch := by
  constructor
  · intro run gate first last less within apart
    cases gate
    have one : first < 1 := less
    have two : last < 1 := within
    omega
  · intro runs
    have answered : RunParallelKernel addZero mixedLaunch 1
        (.ok [⟨.float, [0x3F800000]⟩, ⟨.int, [0]⟩]) :=
      .ran rfl mixedRun_steps fun worker member => by
        rw [mem_singleton.1 member]
        exact .inr ⟨rfl, rfl⟩
    have same := runs.agrees 1 (by decide) _ answered
    have inOrder : mixedRun.inOrder addZero = [[0x3F800000], [0x100000000]] := by decide
    rcases (same mixedRun rfl).2 1 0 0 rfl with equal | ⟨real, _⟩
    · rw [inOrder] at equal
      exact absurd equal (by decide)
    · exact real rfl

end LichenVm.ParallelRun
