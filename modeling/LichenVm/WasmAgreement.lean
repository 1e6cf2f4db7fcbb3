import LichenVm.WasmLowered

open List Option Function

namespace LichenVm.Wasm

open KernelIr Traverse KernelBody

variable {ctx : ModuleCtx} {body : KernelBody} {types : List (Option Ty)}
  {chunk : ValueId → List Operation} {values : ValueId → Option Slot} {function : FunctionBody}

variable {value : ValueId}

theorem receive_at {Value : Type} {params : List ValueId} (distinct : params.Nodup)
    {handed : List Value} {position : Nat} {item : Value}
    (found : params[position]? = some value) (given : handed[position]? = some item)
    (bound : ValueId → Value) : receive params handed bound value = item := by
  induction params generalizing handed position bound with
  | nil => cases found
  | cons param params ih =>
    rw [nodup_cons] at distinct
    cases handed with
    | nil => cases given
    | cons first handed =>
      show receive params handed _ value = item
      cases position with
      | zero =>
        cases found
        cases given
        rw [receive_outside distinct.1]
        exact update_self ..
      | succ position => exact ih distinct.2 found given _

theorem mem_reads {terminator : KernelIr.Terminator} {branch : Br}
    (taken : branch ∈ terminator.branches) {arg : ValueId} (handed : arg ∈ branch.args) :
    arg ∈ terminator.reads := by
  cases terminator with
  | «return» values => cases taken
  | br other =>
    rw [mem_singleton.1 taken] at handed
    exact handed
  | condBr cond ifTrue ifFalse =>
    apply mem_cons_of_mem
    rcases mem_cons.1 taken with rfl | taken
    · exact mem_append_left _ handed
    · rw [mem_singleton.1 taken] at handed
      exact mem_append_right _ handed

section

variable (single : body.SingleAssignment) (valid : body.validate = .ok ())

include single valid

theorem before_of_stems {root : ValueId} {block place : Nat} (sits : body.Sits root block place)
    (stems : Stems body value root) (apart : value ≠ root) {home position : Nat}
    {trail : List Nat} (listed : (body.block home).instrs[position]? = some value)
    (reached : body.Path trail home) : body.Before root home position := by
  induction stems generalizing home position trail with
  | refl value => exact absurd rfl apart
  | @step value arg root source target classes member found rest ih =>
    have operand : arg ∈ body.operands value := by
      unfold KernelBody.operands
      rw [found]
      exact mem_cons_self
    have inside := (gated_of_validate valid).operands home
      (within_of_instr listed) position value listed arg operand
    by_cases same : arg = root
    · subst same
      exact before_of_inScope single valid sits inside
    · have defined : arg ∈ body.listed := by
        cases rest with
        | refl => exact absurd rfl same
        | step defined _ _ => exact defined
      obtain ⟨other, place, lists⟩ := place_of_listed defined
      have first := before_of_inScope single valid (.listed lists) inside
      obtain ⟨earlier, along⟩ := first.reached single valid lists reached
      exact (ih sits same lists along).trans single valid lists first reached

theorem stems_apart {root : ValueId} {block place : Nat} {trail : List Nat}
    (sits : body.Sits root block place) (stems : Stems body value root)
    (reached : body.Path trail block) (before : body.Before value block place) : value = root := by
  by_contra apart
  have defined : value ∈ body.listed := by
    cases stems with
    | refl => exact absurd rfl apart
    | step defined _ _ => exact defined
  obtain ⟨home, position, listed⟩ := place_of_listed defined
  obtain ⟨earlier, along⟩ := before.reached single valid listed reached
  exact (before_of_stems single valid sits stems apart listed along).not_rebound single valid sits
    listed reached before

end

theorem executeAll_append {Real : Type} {floats : Floats Real}
    {signatures : Nat → Option Signature} {answer : List (Call Real) → Call Real → Word Real}
    (first second : List Operation) (state : State Real) :
    FunctionBody.executeAll floats signatures answer (first ++ second) state =
      (FunctionBody.executeAll floats signatures answer first state).bind
        (FunctionBody.executeAll floats signatures answer second) :=
  foldlM_append ..

/-- A run of the function is where a run of the body is: it made the same calls, and whatever is
bound holds the same. -/
structure Agrees {Real : Type} (ctx : ModuleCtx) (body : KernelBody)
    (values : ValueId → Option Slot) (position : Nat) (frame : Frame (Datum Real))
    (state : State Real) : Prop where
  block : state.block = frame.block
  calls : state.calls = frame.trace.map ctx.callOf
  holds : ∀ value slot, values value = some slot → body.Before value frame.block position →
    Holds state.words slot (frame.bound value)

/-- What the steps of both runs rest on. -/
structure Simulation (ctx : ModuleCtx) (body : KernelBody) (types : List (Option Ty))
    (chunk : ValueId → List Operation) (values : ValueId → Option Slot)
    (function : FunctionBody) : Prop where
  single : body.SingleAssignment
  valid : body.validate = .ok ()
  typing : Typing ctx body types
  lowered : Lowered ctx body types chunk values function

namespace Simulation

variable (sim : Simulation ctx body types chunk values function)

include sim

variable {value : ValueId}

theorem sits {slot : Slot} (known : values value = some slot) :
    ∃ home place, body.Sits value home place := by
  rcases sim.lowered.known value slot known with ⟨block, member⟩ | listed
  · exact ⟨block, 0, .received member⟩
  · obtain ⟨block, position, place⟩ := place_of_listed listed
    exact ⟨block, position + 1, .listed place⟩

variable {position : Nat}

theorem before {slot : Slot} (known : values value = some slot) {block : Nat}
    (inside : body.outOfScope body.dominance block position value = none) :
    body.Before value block position := by
  obtain ⟨home, place, sits⟩ := sim.sits known
  exact before_of_inScope sim.single sim.valid sits inside

variable {Real : Type} {frame : Frame (Datum Real)} {state : State Real}

theorem operands_hold (agrees : Agrees ctx body values position frame state) {args : List ValueId}
    {operands : List Slot} (read : args.mapM values = some operands)
    (inside : ∀ arg ∈ args, body.outOfScope body.dominance frame.block position arg = none) :
    List.Forall₂ (Holds state.words) operands (args.map frame.bound) := by
  induction args generalizing operands with
  | nil =>
    cases read
    exact .nil
  | cons arg args ih =>
    rw [mapM_cons] at read
    obtain ⟨slot, known, read⟩ := bind_eq_some_iff.1 read
    obtain ⟨rest, others, same⟩ := bind_eq_some_iff.1 read
    cases same
    exact .cons (agrees.holds arg slot known (sim.before known (inside arg mem_cons_self)))
      (ih others fun other member => inside other (mem_cons_of_mem _ member))

theorem unknown {op : KernelInstr} {args : List ValueId} {classes : List ScalarClass}
    (found : body.values[value]? = some (.instr op args classes)) (nothing : op.produces = 0) :
    values value = none := by
  cases known : values value with
  | none => rfl
  | some slot =>
    have decided := sim.typing.instr _ _ _ _ found _ (sim.lowered.typed _ _ known)
    obtain ⟨operands, -, decided⟩ := bind_eq_some_iff.1 decided
    cases op <;> first | cases nothing; done | cases decided

variable {signatures : Nat → Option Signature} {floats : Floats Real}

variable {after : Frame (Datum Real)} {trail : List Nat}

/-- What is left of an agreement when a listed value is bound: everything else that is in scope
held before what it holds now, and the value holds what it was given. -/
theorem next_agrees {next : State Real} (agrees : Agrees ctx body values position frame state)
    (listed : (body.block frame.block).instrs[position]? = some value)
    (reached : body.Path trail frame.block) (block : after.block = frame.block)
    (stays : next.block = state.block) (calls : next.calls = after.trace.map ctx.callOf)
    (others : ∀ other, other ≠ value → after.bound other = frame.bound other)
    (own : ∀ slot, values value = some slot → Holds next.words slot (after.bound value))
    (kept : ∀ made, (∀ operation ∈ chunk value, operation.value ≠ made) →
      next.words made = state.words made) : Agrees ctx body values (position + 1) after next := by
  refine ⟨stays.trans (agrees.block.trans block.symm), calls, ?_⟩
  intro other slot known before
  rw [block] at before
  by_cases same : other = value
  · subst same
    exact own slot known
  · rcases before.next listed with equal | earlier
    · exact absurd equal same
    · obtain ⟨word, ty⟩ := agrees.holds other slot known earlier
      rw [others other same]
      refine ⟨?_, ty⟩
      rw [kept slot.1 ?_]
      · exact word
      · intro operation member equal
        have stems := sim.lowered.origin value (listed_of_instr listed) operation member
          other slot known equal.symm
        exact same (stems_apart sim.single sim.valid (.listed listed) stems reached before)

section

variable (declares : Declares ctx signatures) (host : Host Real signatures)

include declares host

theorem performOne (agrees : Agrees ctx body values position frame state) {value : ValueId}
    (listed : (body.block frame.block).instrs[position]? = some value)
    (reached : body.Path trail frame.block)
    (performed : body.performOne floats ctx.domain (host.reply ctx) frame value = some after) :
    after.block = frame.block ∧ ∃ next,
      FunctionBody.executeAll floats signatures host.words (chunk value) state = some next ∧
        Agrees ctx body values (position + 1) after next := by
  have member := listed_of_instr listed
  obtain ⟨op, args, classes, operands, fresh, emission, found, read, below, emitted, known, made⟩ :=
    (sim.lowered.chunks value member).inv
  have operand : body.operands value = args := by
    unfold KernelBody.operands
    rw [found]
  have holds := sim.operands_hold agrees read fun arg inside =>
    (gated_of_validate sim.valid).operands frame.block
      (within_of_instr listed) position value listed arg (operand.symm ▸ inside)
  unfold KernelBody.performOne at performed
  rw [found] at performed
  dsimp only at performed
  split at performed
  · rename_i acts
    split at performed
    · rename_i accepts
      cases performed
      obtain ⟨words, did⟩ := emitted.acts declares host acts holds accepts
      refine ⟨rfl, _, made ▸ did.ran, ?_⟩
      have answered : host.reply ctx frame.trace ⟨op, args.map frame.bound⟩ =
          host.answer state.calls (ctx.callOf ⟨op, args.map frame.bound⟩) := by
        rw [agrees.calls]
        rfl
      refine sim.next_agrees agrees listed reached rfl rfl ?_ ?_ ?_ (made ▸ did.kept)
      · dsimp only
        rw [agrees.calls, map_append]
        rfl
      · intro other apart
        split
        · rfl
        · exact update_of_ne apart _ _
      · intro slot held
        by_cases nothing : op.produces = 0
        · rw [sim.unknown found nothing] at held
          cases held
        · obtain ⟨left, slots, holds⟩ := did.left nothing
          have same := known left slots
          rw [held] at same
          cases same
          dsimp only
          rw [if_neg nothing, update_self, answered]
          exact holds
    · cases performed
  · rename_i pure
    obtain ⟨datum, leaves, same⟩ := map_eq_some_iff.1 performed
    cases same
    obtain ⟨words, ran, computes⟩ : ∃ words, FunctionBody.executeAll floats signatures host.words
        emission.operations state = some { state with words } ∧
          Computes emission datum state.words words :=
      emitted.computes (Bool.eq_false_iff.2 pure) holds below leaves
    refine ⟨rfl, _, made ▸ ran, ?_⟩
    refine sim.next_agrees agrees listed reached rfl rfl agrees.calls ?_ ?_ (made ▸ computes.kept)
    · intro other apart
      exact update_of_ne apart _ _
    · intro slot held
      obtain ⟨left, slots, holds⟩ := computes.slot
      have same := known left slots
      rw [held] at same
      cases same
      dsimp only
      rw [update_self]
      exact holds

theorem perform {rest done : List ValueId}
    (agrees : Agrees ctx body values done.length frame state)
    (whole : (body.block frame.block).instrs = done ++ rest)
    (reached : body.Path trail frame.block)
    (performed : body.perform floats ctx.domain (host.reply ctx) rest frame = some after) :
    after.block = frame.block ∧ ∃ next,
      FunctionBody.executeAll floats signatures host.words (rest.flatMap chunk) state = some next ∧
        Agrees ctx body values (body.block frame.block).instrs.length after next := by
  induction rest generalizing done frame state with
  | nil =>
    cases performed
    rw [append_nil] at whole
    refine ⟨rfl, state, rfl, ?_⟩
    rw [whole]
    exact agrees
  | cons value rest ih =>
    obtain ⟨middle, first, performed⟩ := bind_eq_some_iff.1 performed
    have listed : (body.block frame.block).instrs[done.length]? = some value := by
      rw [whole, getElem?_append_right (Nat.le_refl _), Nat.sub_self]
      rfl
    obtain ⟨block, next, ran, agrees⟩ :=
      sim.performOne declares host agrees listed reached first
    have split : (body.block middle.block).instrs = (done ++ [value]) ++ rest := by
      rw [block, whole, append_assoc]
      rfl
    have length : (done ++ [value]).length = done.length + 1 := length_append ..
    rw [← length] at agrees
    obtain ⟨stays, last, others, agrees⟩ := ih agrees split (block ▸ reached) performed
    refine ⟨stays.trans block, last, ?_, block ▸ agrees⟩
    rw [flatMap_cons, executeAll_append, ran]
    exact others

end

theorem arrives {block : Nat} (home : frame.block = block)
    (agrees : Agrees ctx body values (body.block block).instrs.length frame state) (reached :
    body.Path trail block)
    {branch : Br} (taken : branch ∈ (body.block block).terminator.branches)
    (within : block < body.blocks.length) {target : BlockTarget}
    (targets : Targets values branch target) :
    body.Path (block :: trail) branch.target ∧
      Agrees ctx body values 0 (body.arrive branch frame) (function.enter target state) := by
  have gated := gated_of_validate sim.valid
  obtain ⟨present, arity⟩ := gated.handed block within branch taken
  have along : branch.target ∈ body.successors block :=
    mem_filter.2 ⟨mem_map_of_mem taken, decide_eq_true present⟩
  have path : body.Path (block :: trail) branch.target := .step reached along
  refine ⟨path, targets.block, agrees.calls, ?_⟩
  intro value slot known before
  have handed : branch.args ∈ body.incomingArguments branch.target := by
    unfold incomingArguments
    refine mem_filterMap.2 ⟨branch, mem_flatMap.2 ⟨body.block block,
      mem_of_getElem? (block_found within), taken⟩, ?_⟩
    rw [if_pos rfl]
  obtain ⟨slots, read, args⟩ := targets.args
  show Holds (receive ((function.block target.block).params.map Prod.fst)
    (target.args.map state.words) state.words) slot
    (receive (body.block branch.target).params (branch.args.map frame.bound) frame.bound value)
  rw [targets.block, args]
  by_cases member : value ∈ (body.block branch.target).params
  · obtain ⟨position, place⟩ := mem_iff_getElem?.1 member
    obtain ⟨own, same, inside⟩ := sim.lowered.params branch.target present position value place
    rw [known] at same
    cases same
    have bound : position < branch.args.length := by
      rw [arity]
      exact (List.getElem?_eq_some_iff.1 place).1
    have given := getElem?_eq_getElem bound
    have found := getElem?_of_mapM _ _ _ read position
    rw [given, bind_some] at found
    have count := length_of_mapM _ _ _ read
    obtain ⟨shared, held⟩ : ∃ shared, slots[position]? = some shared :=
      ⟨_, getElem?_eq_getElem (count.symm ▸ bound)⟩
    rw [held] at found
    have scope : body.outOfScope body.dominance frame.block
        (body.block block).instrs.length branch.args[position] = none := by
      rw [home]
      exact gated.terminator block within _ (mem_reads taken (getElem_mem bound))
    obtain ⟨word, ty⟩ := agrees.holds _ _ found.symm (sim.before found.symm scope)
    have typed := sim.typing.edges value branch.target position
      (sim.single.received _ _ _ place) branch.args handed _ given _
      (sim.lowered.typed _ _ found.symm)
    rw [sim.lowered.typed _ _ known] at typed
    have left : receive (body.block branch.target).params (branch.args.map frame.bound) frame.bound
        value = frame.bound branch.args[position] := by
      apply receive_at (params_nodup sim.single _) place
      rw [getElem?_map, given]
      rfl
    have right : receive ((function.block branch.target).params.map Prod.fst)
        ((slots.map Prod.fst).map state.words) state.words slot.1 = state.words shared.1 := by
      apply receive_at (sim.lowered.distinct _)
      · rw [getElem?_map, inside]
        rfl
      · rw [getElem?_map, getElem?_map, held]
        rfl
    rw [left]
    exact ⟨right.trans word, ty.trans (some.inj typed).symm⟩
  · rcases before.entered along with inside | earlier
    · exact absurd inside member
    · have outside : slot.1 ∉ (function.block branch.target).params.map Prod.fst := by
        intro inside
        obtain ⟨param, among, same⟩ := mem_map.1 inside
        obtain ⟨received, own, stems⟩ := sim.lowered.root _ param among value slot known same.symm
        have equal := stems_apart sim.single sim.valid (.received own) stems path before
        exact member (equal ▸ own)
      rw [receive_outside member]
      obtain ⟨word, ty⟩ := agrees.holds value slot known (home ▸ earlier)
      exact ⟨(receive_outside outside _ _).trans word, ty⟩

end Simulation

/-- What a run of the function has to show where a run of the body shows something: as many blocks,
the same calls, and the same values returned. -/
def Agreed {Real : Type} (ctx : ModuleCtx) :
    Observed (Datum Real) (Event (Datum Real)) → Observed (Word Real) (Call Real) → Prop
  | .going trace, shown => shown = .going (trace.map ctx.callOf)
  | .returned values trace, shown =>
    shown = .returned (values.map Word.of) (trace.map ctx.callOf)
  -- The body says nothing about such a run.
  | .undefined, _ => True

namespace Simulation

variable (sim : Simulation ctx body types chunk values function) {Real : Type}
  {signatures : Nat → Option Signature} {floats : Floats Real}

include sim

/-- Where both runs go on, they agree in a block that exists. -/
structure Continues (ctx : ModuleCtx) (body : KernelBody) (values : ValueId → Option Slot)
    (function : FunctionBody) (trail : List Nat) (frame : Frame (Datum Real)) (last : State Real)
    (after : Frame (Datum Real)) (next : State Real) : Prop where
  departs : body.depart frame = .continues after
  leaves : function.leave last = .continues next
  reached : body.Path trail after.block
  present : after.block < body.blocks.length
  agrees : Agrees ctx body values 0 after next

variable {frame : Frame (Datum Real)} {state : State Real} {trail : List Nat}

theorem branches {block : Nat} (home : frame.block = block) (within : block < body.blocks.length)
    (agrees : Agrees ctx body values (body.block block).instrs.length frame state)
    (reached : body.Path trail block) {cond : ValueId} {ifTrue ifFalse : Br} {narrowed : Nat}
    {yes no : BlockTarget}
    (ended : (body.block block).terminator = .condBr cond ifTrue ifFalse)
    (final : (function.block block).terminator = .condBr narrowed yes no)
    (first : Targets values ifTrue yes) (second : Targets values ifFalse no) {held : Bool}
    (taken : (frame.bound cond).taken = some held)
    (word : state.words narrowed = .ofBool held) :
    ∃ after next, Continues ctx body values function (block :: trail) frame state after next := by
  have stands : state.block = block := agrees.block.trans home
  have source : body.depart frame =
      .continues (body.arrive (if held then ifTrue else ifFalse) frame) := by
    unfold depart
    rw [home, ended]
    dsimp only
    rw [taken]
    cases held <;> rfl
  have target : function.leave state =
      .continues (function.enter (if held then yes else no) state) := by
    unfold FunctionBody.leave
    rw [stands, final]
    dsimp only
    rw [word]
    cases held <;> rfl
  have chosen : (if held then ifTrue else ifFalse) ∈ (body.block block).terminator.branches := by
    rw [ended]
    cases held with
    | false => exact mem_cons_of_mem _ mem_cons_self
    | true => exact mem_cons_self
  have targets : Targets values (if held then ifTrue else ifFalse) (if held then yes else no) := by
    cases held with
    | false => exact second
    | true => exact first
  obtain ⟨path, arrived⟩ := sim.arrives home agrees reached chosen within targets
  exact ⟨_, _, source, target, path,
    ((gated_of_validate sim.valid).handed block within _ chosen).1, arrived⟩

theorem departs (floats : Floats Real) (host : Host Real signatures)
    {block : Nat} (home : frame.block = block) (within : block < body.blocks.length)
    (agrees : Agrees ctx body values (body.block block).instrs.length frame state)
    (reached : body.Path trail block) {tail : List Operation} {fresh : Nat}
    (closes : Closes values fresh (body.block block).terminator tail
      (function.block block).terminator)
    (below : ∀ value slot, values value = some slot → slot.1 < fresh) :
    body.depart frame = .stuck ∨
    ∃ last, FunctionBody.executeAll floats signatures host.words tail state = some last ∧
      ((∃ after next, Continues ctx body values function (block :: trail) frame last after next) ∨
        ∃ data, body.depart frame = .returns data frame.trace ∧
          function.leave last = .returns (data.map Word.of) (frame.trace.map ctx.callOf)) := by
  have gated := gated_of_validate sim.valid
  have stands : state.block = block := agrees.block.trans home
  have scope : ∀ value ∈ (body.block block).terminator.reads,
      body.outOfScope body.dominance frame.block (body.block block).instrs.length value = none :=
    fun value member => home ▸ gated.terminator block within value member
  generalize ended : (body.block block).terminator = source at closes scope
  generalize final : (function.block block).terminator = target at closes
  cases closes with
  | @«return» named held read =>
    refine Or.inr ⟨state, rfl, Or.inr ⟨named.map frame.bound, ?_, ?_⟩⟩
    · unfold depart
      rw [home, ended]
    · unfold FunctionBody.leave
      rw [stands, final]
      dsimp only
      rw [tys_of_holds (sim.operands_hold agrees read scope), agrees.calls]
  | @br branch target targets =>
    refine Or.inr ⟨state, rfl, Or.inl ?_⟩
    have taken : branch ∈ (body.block block).terminator.branches := by
      rw [ended]
      exact mem_cons_self
    obtain ⟨path, arrived⟩ := sim.arrives home agrees reached taken within targets
    refine ⟨_, _, ?_, ?_, path, (gated.handed block within branch taken).1, arrived⟩
    · unfold depart
      rw [home, ended]
    · unfold FunctionBody.leave
      rw [stands, final]
  | @narrow cond ifTrue ifFalse slot yes no read ty first second =>
    have holds := agrees.holds cond slot read (sim.before read (scope cond mem_cons_self))
    have typed := holds.ty.trans ty
    have word := holds.word
    cases datum : frame.bound cond with
    | int bits | float number =>
      rw [datum] at typed
      cases typed
    | condition held =>
      rw [datum] at word
      exact Or.inr ⟨state, rfl, Or.inl (sim.branches home within agrees reached ended final
        first second (by rw [datum]; rfl) word)⟩
  | @wrap cond ifTrue ifFalse slot yes no read ty first second =>
    have holds := agrees.holds cond slot read (sim.before read (scope cond mem_cons_self))
    have typed := holds.ty.trans ty
    have word := holds.word
    cases datum : frame.bound cond with
    | condition held | float number =>
      rw [datum] at typed
      cases typed
    | int bits =>
      cases truth : Datum.truth? bits with
      | none =>
        left
        unfold depart
        rw [home, ended]
        have nowhere : (frame.bound cond).taken = none := by
          rw [datum]
          exact truth
        dsimp only
        rw [nowhere]
      | some held =>
        right
        rw [datum] at word
        have ran : Operator.i32WrapI64.run floats ([slot.1].map state.words) =
            some (.ofBool held) := by
          rw [map_cons, map_nil, word]
          exact wrap_run truth
        refine ⟨{ state with words := update state.words fresh (.ofBool held) }, ?_,
          Or.inl ?_⟩
        · show (FunctionBody.execute floats signatures host.words state _).bind _ = _
          rw [execute_run ran]
          rfl
        · have kept : Agrees ctx body values (body.block block).instrs.length frame
              { state with words := update state.words fresh (.ofBool held) } := by
            refine ⟨agrees.block, agrees.calls, ?_⟩
            intro value shared known before
            obtain ⟨same, ty⟩ := agrees.holds value shared known before
            refine ⟨?_, ty⟩
            exact (update_of_ne (Nat.ne_of_lt (below value shared known)) _ _).trans same
          refine sim.branches home within kept reached ended final first second ?_
            (update_self ..)
          rw [datum]
          exact truth

/-- Block by block, a run of the function shows what a run of the body shows. -/
theorem observes (declares : Declares ctx signatures) (host : Host Real signatures) (fuel : Nat)
    (agrees : Agrees ctx body values 0 frame state) (reached : body.Path trail frame.block)
    (present : frame.block < body.blocks.length) :
    Agreed ctx (body.observe floats ctx.domain (host.reply ctx) fuel frame)
      (function.observe floats signatures host.words fuel state) := by
  induction fuel generalizing frame state trail with
  | zero =>
    show Observed.going state.calls = _
    rw [agrees.calls]
  | succ fuel ih =>
    unfold observe
    cases performed : body.perform floats ctx.domain (host.reply ctx)
        (body.block frame.block).instrs frame with
    | none => exact trivial
    | some middle =>
      dsimp only
      have start : Agrees ctx body values ([] : List ValueId).length frame state := agrees
      obtain ⟨block, next, ran, carried⟩ := sim.perform declares host start rfl reached performed
      obtain ⟨tail, fresh, operations, closes, below⟩ :=
        sim.lowered.closes frame.block present
      unfold FunctionBody.observe
      rw [agrees.block, operations, executeAll_append, ran, bind_some]
      rcases sim.departs floats host block present carried reached closes below with
        stuck | ⟨last, ended, ⟨after, arrived, continues⟩ | ⟨data, departs, leaves⟩⟩
      · rw [stuck]
        exact trivial
      · rw [ended, continues.departs]
        dsimp only
        rw [continues.leaves]
        exact ih continues.agrees continues.reached continues.present
      · rw [ended, departs]
        dsimp only
        rw [leaves]
        rfl

/-- Where the arguments are of the types the function receives, both runs start in agreement. -/
theorem starts (first : body.entry = 0) {args : List (Datum Real)}
    (typed : args.map (fun datum => (Word.of datum).ty) = ctx.leaves.map valueType) :
    Agrees ctx body values 0 (body.enter args) (function.start (args.map Word.of)) := by
  refine ⟨first.symm, rfl, ?_⟩
  rintro value slot known ⟨home, place, sits, stands⟩
  have top : home = body.entry := by
    rcases stands with ⟨same, -⟩ | ⟨-, above⟩
    · exact same
    · rcases above [] .start with same | member
      · exact same
      · cases member
  subst top
  rcases stands with ⟨-, least⟩ | ⟨away, -⟩
  · cases sits with
    | listed found => cases least
    | received member =>
      obtain ⟨position, found⟩ := mem_iff_getElem?.1 member
      have present := (gated_of_validate sim.valid).entered
      obtain ⟨own, same, inside⟩ := sim.lowered.params body.entry present position value found
      rw [known] at same
      cases same
      rw [first, sim.lowered.entered] at inside
      have tys := congrArg (·[position]?) (numbered_map_snd 0 (ctx.leaves.map valueType))
      simp only [getElem?_map, inside, map_some] at tys
      have each := congrArg (·[position]?) typed
      simp only [getElem?_map] at each
      rw [← tys] at each
      obtain ⟨datum, given, ty⟩ := map_eq_some_iff.1 each
      have left : (body.enter args).bound value = datum :=
        receive_at (params_nodup sim.single _) found given _
      have right : (function.start (args.map Word.of)).words slot.1 = .of datum := by
        have named : ((function.block 0).params.map Prod.fst)[position]? = some slot.1 := by
          rw [getElem?_map, sim.lowered.entered, inside]
          rfl
        have handed : (args.map Word.of)[position]? = some (.of datum) := by
          rw [getElem?_map, given]
          rfl
        exact receive_at (sim.lowered.distinct 0) named handed _
      rw [left]
      exact ⟨right, ty⟩
  · exact absurd rfl away

end Simulation

end LichenVm.Wasm
