import LichenVm.WasmTypes

open List Function

namespace LichenVm.Wasm

open KernelIr Traverse FunctionBody

/-- The representation a value of the body has in the function. -/
def Word.of {Real : Type} : Datum Real → Word Real
  | .int bits => .i64 bits
  | .float number => .f32 number
  | .condition held => .ofBool held

/-- What one instruction may become. -/
inductive Emitted (ctx : ModuleCtx) (fresh : Nat) : KernelInstr → List Slot → Emission → Prop
  | constInt (bits : BitVec 64) (operands : List Slot) :
      Emitted ctx fresh (.const .int bits) operands (.one fresh (.i64Const bits) [] .i64)
  | constFloat (bits : BitVec 64) (operands : List Slot) : Emitted ctx fresh (.const .float bits)
      operands (.one fresh (.f32Const (bits.setWidth 32)) [] .f32)
  | max {stated : ScalarClass} {lhs rhs : Slot} {native : Operator}
      (found : binaryOperator stated .gt = .ok native) : Emitted ctx fresh (.bin stated .max)
        [lhs, rhs] (.two fresh native [lhs.1, rhs.1] .select [lhs.1, rhs.1, fresh]
          (valueType stated))
  | min {stated : ScalarClass} {lhs rhs : Slot} {native : Operator}
      (found : binaryOperator stated .lt = .ok native) : Emitted ctx fresh (.bin stated .min)
        [lhs, rhs] (.two fresh native [lhs.1, rhs.1] .select [lhs.1, rhs.1, fresh]
          (valueType stated))
  | comparison {stated : ScalarClass} {op : KernelBin} {lhs rhs : Slot} {native : Operator}
      (found : binaryOperator stated op = .ok native) (compares : op.isComparison = true) :
      Emitted ctx fresh (.bin stated op) [lhs, rhs]
        (.two fresh native [lhs.1, rhs.1] .i64ExtendI32U [fresh] .i64)
  | arithmetic {stated : ScalarClass} {op : KernelBin} {lhs rhs : Slot} {native : Operator}
      (found : binaryOperator stated op = .ok native) (computes : op.isComparison = false) :
      Emitted ctx fresh (.bin stated op) [lhs, rhs]
        (.one fresh native [lhs.1, rhs.1] (valueType stated))
  | negate {operand : Slot} : Emitted ctx fresh .negate [operand]
      (.one fresh .f32Neg [operand.1] .f32)
  | wrap {operand : Slot} : Emitted ctx fresh .i32WrapI64 [operand]
      (.one fresh .i32WrapI64 [operand.1] .i32)
  | select {chosen otherwise selector : Slot} (same : chosen.2 = otherwise.2) :
      Emitted ctx fresh .select [chosen, otherwise, selector]
        (.one fresh .select [chosen.1, otherwise.1, selector.1] chosen.2)
  | reclassified {source target : ScalarClass} {operand : Slot}
      (same : operand.2 = valueType target) :
      Emitted ctx fresh (.conv source target) [operand] ⟨[], some operand⟩
  | toFloat {source : ScalarClass} {operand : Slot} (seen : operand.2 = .i64) :
      Emitted ctx fresh (.conv source .float) [operand]
        (.one fresh .f32ConvertI64U [operand.1] .f32)
  | toInt {source : ScalarClass} {operand : Slot} (seen : operand.2 = .f32) :
      Emitted ctx fresh (.conv source .int) [operand] (.one fresh .i64TruncF32U [operand.1] .i64)
  | call {callee : KernelIr.KernelId} {operands : List Slot} {position : Nat} {target : KernelFragment}
      {result : Ty} (placed : ctx.index callee = some position)
      (found : ctx.callees[position]? = some target)
      (results : target.resultClasses.map valueType = [result]) :
      Emitted ctx fresh (.callKernel callee) operands
        (.one fresh (.call (ctx.imports.base + position)) (operands.map Prod.fst) result)
  | read {stated : ScalarClass} {position index : Slot} {functionIndex : Nat}
      (found : ctx.imports.read stated = some functionIndex) :
      Emitted ctx fresh (.bufferReadCall stated) [position, index]
        (.one fresh (.call functionIndex) [position.1, index.1] (valueType stated))
  | write {stated : ScalarClass} {position index value : Slot} {functionIndex : Nat}
      (found : ctx.imports.write stated = some functionIndex) :
      Emitted ctx fresh (.bufferWriteCall stated) [position, index, value]
        ⟨[⟨fresh, .call functionIndex, [position.1, index.1, value.1], []⟩], none⟩
  | atomicAdd {stated : ScalarClass} {position index value : Slot} {functionIndex : Nat}
      (found : ctx.imports.atomic stated = some functionIndex) :
      Emitted ctx fresh (.bufferAtomicAddCall stated) [position, index, value]
        ⟨[⟨fresh, .call functionIndex, [position.1, index.1, value.1], []⟩], none⟩

variable {ctx : ModuleCtx} {fresh : Nat} {emission : Emission}

theorem emitted_call {callee : KernelIr.KernelId} {operands : List Slot}
    (lowered : ctx.lowerCall callee operands fresh = .ok emission) :
    Emitted ctx fresh (.callKernel callee) operands emission := by
  unfold ModuleCtx.lowerCall at lowered
  obtain ⟨arity, -, lowered⟩ := bind_ok.1 lowered
  split at lowered
  · cases lowered
  · rename_i position placed
    split at lowered
    · cases lowered
    · rename_i target found
      split at lowered
      · cases lowered
      · rename_i result results
        split at lowered
        · cases lowered
          exact .call placed found results
        · cases lowered
      · cases lowered

theorem emitted_conv {source target : ScalarClass} {operand : Slot}
    (lowered : ModuleCtx.lowerConv source target operand fresh = .ok emission) :
    Emitted ctx fresh (.conv source target) [operand] emission := by
  unfold ModuleCtx.lowerConv at lowered
  split at lowered
  · rename_i same
    cases lowered
    exact .reclassified same
  · rename_i different
    obtain ⟨value, seen⟩ := operand
    cases seen with
    | i32 => cases target <;> cases lowered
    | i64 =>
      cases target with
      | int => exact absurd rfl different
      | float =>
        cases lowered
        exact .toFloat rfl
      | bFloat16 => cases lowered
    | f32 =>
      cases target with
      | int =>
        cases lowered
        exact .toInt rfl
      | float | bFloat16 => exact absurd rfl different

theorem emitted_of_emission {instr : ValueId} {op : KernelInstr} {operands : List Slot} (lowered :
    ctx.emission instr op operands fresh = .ok emission) :
    Emitted ctx fresh op operands emission := by
  unfold ModuleCtx.emission at lowered
  split at lowered
  · split at lowered
    · cases lowered
      exact .constInt _ _
    · cases lowered
      exact .constFloat _ _
    · cases lowered
  · obtain ⟨native, found, same⟩ := bind_ok.1 lowered
    cases same
    exact .max found
  · obtain ⟨native, found, same⟩ := bind_ok.1 lowered
    cases same
    exact .min found
  · obtain ⟨native, found, lowered⟩ := bind_ok.1 lowered
    split at lowered
    · rename_i compares
      cases lowered
      exact .comparison found compares
    · rename_i computes
      cases lowered
      exact .arithmetic found (Bool.eq_false_iff.2 computes)
  · cases lowered
    exact .negate
  · cases lowered
    exact .wrap
  · split at lowered
    · rename_i same
      cases lowered
      exact .select same
    · cases lowered
  · exact emitted_conv lowered
  · cases lowered
  · cases lowered
  · cases lowered
  · cases lowered
  · cases lowered
  · cases lowered
  · cases lowered
  · exact emitted_call lowered
  · split at lowered
    · cases lowered
    · rename_i functionIndex found
      cases lowered
      exact .read found
  · unfold ModuleCtx.lowerWrite at lowered
    split at lowered
    · cases lowered
    · rename_i functionIndex found
      cases lowered
      exact .write found
  · unfold ModuleCtx.lowerWrite at lowered
    split at lowered
    · cases lowered
    · rename_i functionIndex found
      cases lowered
      exact .atomicAdd found
  · cases lowered
  · cases lowered
  · cases lowered
  · cases lowered

/-- The function of the module that does what an instruction that acts does. -/
def ModuleCtx.functionOf (ctx : ModuleCtx) : KernelInstr → Option Nat
  | .bufferReadCall stated => ctx.imports.read stated
  | .bufferWriteCall stated => ctx.imports.write stated
  | .bufferAtomicAddCall stated => ctx.imports.atomic stated
  | .callKernel callee => (ctx.index callee).map (ctx.imports.base + ·)
  | _ => none

def ModuleCtx.domain (ctx : ModuleCtx) (callee : KernelIr.KernelId) : List ScalarClass :=
  match (ctx.index callee).bind (ctx.callees[·]?) with
  | some target => target.paramShape.leafClasses
  | none => []

/-- The call an executed instruction is. -/
def ModuleCtx.callOf {Real : Type} (ctx : ModuleCtx) (event : Event (Datum Real)) : Call Real :=
  ⟨(ctx.functionOf event.op).getD 0, event.operands.map Word.of⟩

/-- The signatures of a module whose imports and functions are where a context says. -/
structure Declares (ctx : ModuleCtx) (signatures : Nat → Option Signature) : Prop where
  read : ∀ stated functionIndex, ctx.imports.read stated = some functionIndex →
    signatures functionIndex = some ⟨[.i64, .i64], [valueType stated]⟩
  write : ∀ stated functionIndex, ctx.imports.write stated = some functionIndex →
    signatures functionIndex = some ⟨[.i64, .i64, valueType stated], []⟩
  atomic : ∀ stated functionIndex, ctx.imports.atomic stated = some functionIndex →
    signatures functionIndex = some ⟨[.i64, .i64, valueType stated], []⟩
  call : ∀ (position : Nat) (target : KernelFragment), ctx.callees[position]? = some target →
    signatures (ctx.imports.base + position) = some
      ⟨target.paramShape.leafClasses.map valueType, target.resultClasses.map valueType⟩

/-- What the buffers and the other functions of a module answer, call after call. An answer is of the
type its function returns. -/
structure Host (Real : Type) (signatures : Nat → Option Signature) where
  answer : List (Call Real) → Call Real → Datum Real
  typed : ∀ calls call signature ty, signatures call.functionIndex = some signature →
    signature.returns.head? = some ty → (Word.of (answer calls call)).ty = ty

namespace Host

variable {Real : Type} {signatures : Nat → Option Signature} (host : Host Real signatures)

/-- What the host answers a function of the module. -/
def words (calls : List (Call Real)) (call : Call Real) : Word Real :=
  Word.of (host.answer calls call)

/-- What the same host answers a body. -/
def reply (ctx : ModuleCtx) (trace : List (Event (Datum Real))) (event : Event (Datum Real)) :
    Datum Real :=
  host.answer (trace.map ctx.callOf) (ctx.callOf event)

end Host

variable {Real : Type} {stated : ScalarClass} {datum : Datum Real}

theorem ty_of_isOf (is : datum.isOf stated) : (Word.of datum).ty = valueType stated := by
  cases stated <;> cases datum <;> first | rfl | cases is

variable {op : KernelBin} {native : Operator} {a b : Datum Real}

section

variable (floats : Floats Real) (found : binaryOperator stated op = .ok native)

include floats found

/-- The native operator of an arithmetic one computes what the body's does. Only a division asks
whether it is defined. -/
theorem run_arithmetic (computes : op.isComparison = false)
    (leaves : (KernelInstr.bin stated op).leavesOf floats [a, b] = some datum) :
    native.run floats [.of a, .of b] = some (.of datum) ∧
      (Word.of datum).ty = valueType stated := by
  cases stated with
  | int =>
    cases a <;> cases b <;> try cases leaves
    rename_i a b
    replace leaves : op.onInts a b = some datum := leaves
    cases op <;> cases found <;> cases computes
    case int.int.int.div.refl.refl | int.int.int.rem.refl.refl =>
      simp only [KernelBin.onInts] at leaves
      split at leaves
      · cases leaves
      · rename_i nonzero
        cases leaves
        exact ⟨if_neg nonzero, rfl⟩
    all_goals
      cases leaves
      exact ⟨rfl, rfl⟩
  | float =>
    cases a <;> cases b <;> try cases leaves
    rename_i a b
    replace leaves : op.onFloats floats a b = some datum := leaves
    cases op <;> cases found <;> cases computes <;> cases leaves <;> exact ⟨rfl, rfl⟩
  | bFloat16 => cases op <;> cases found

theorem run_comparison (compares : op.isComparison)
    (leaves : (KernelInstr.bin stated op).leavesOf floats [a, b] = some datum) :
    ∃ held, native.run floats [.of a, .of b] = some (.ofBool held) ∧ datum = .ofBool held := by
  cases stated with
  | int =>
    cases a <;> cases b <;> try cases leaves
    rename_i a b
    replace leaves : op.onInts a b = some datum := leaves
    cases op <;> cases found <;> cases compares <;> cases leaves <;> exact ⟨_, rfl, rfl⟩
  | float =>
    cases a <;> cases b <;> try cases leaves
    rename_i a b
    replace leaves : op.onFloats floats a b = some datum := leaves
    cases op <;> cases found <;> cases compares <;> cases leaves <;> exact ⟨_, rfl, rfl⟩
  | bFloat16 => cases op <;> cases found

end

theorem run_extremum (floats : Floats Real) {compared : KernelBin} (pair :
    op = .max ∧ compared = .gt ∨ op = .min ∧ compared = .lt)
    (found : binaryOperator stated compared = .ok native)
    (leaves : (KernelInstr.bin stated op).leavesOf floats [a, b] = some datum) :
    ∃ held, native.run floats [.of a, .of b] = some (.ofBool held) ∧
      datum = (if held then a else b) ∧ (Word.of a).ty = valueType stated ∧
      (Word.of b).ty = valueType stated := by
  cases stated with
  | int =>
    cases a <;> cases b <;> try cases leaves
    rename_i a b
    replace leaves : op.onInts a b = some datum := leaves
    rcases pair with ⟨rfl, rfl⟩ | ⟨rfl, rfl⟩ <;> cases found <;> cases leaves <;>
      refine ⟨_, rfl, ?_, rfl, rfl⟩
    · by_cases less : b < a
      · simp [less]
      · simp [less]
    · by_cases less : a < b
      · simp [less]
      · simp [less]
  | float =>
    cases a <;> cases b <;> try cases leaves
    rename_i a b
    replace leaves : op.onFloats floats a b = some datum := leaves
    rcases pair with ⟨rfl, rfl⟩ | ⟨rfl, rfl⟩ <;> cases found <;> cases leaves <;>
      refine ⟨_, rfl, ?_, rfl, rfl⟩
    · cases floats.gt a b <;> rfl
    · cases floats.lt a b <;> rfl
  | bFloat16 => rcases pair with ⟨-, rfl⟩ | ⟨-, rfl⟩ <;> cases found

/-- A slot holds a value in the representation it is known by. -/
structure Holds (words : Nat → Word Real) (slot : Slot) (datum : Datum Real) : Prop where
  word : words slot.1 = .of datum
  ty : (Word.of datum).ty = slot.2

section Run

variable {floats : Floats Real} {signatures : Nat → Option Signature}
  {answer : List (Call Real) → Call Real → Word Real}

variable {operator : Operator} {state : State Real} {args : List Nat} {word : Word Real}

section

variable (ran : operator.run floats (args.map state.words) = some word)

include ran

theorem execute_run (value : Nat) (results : List Ty) :
    execute floats signatures answer state ⟨value, operator, args, results⟩ =
      some { state with words := update state.words value word } := by
  unfold execute
  cases operator with
  | call functionIndex => cases ran
  | _ =>
    dsimp only
    rw [ran]
    rfl

theorem one_runs (fresh : Nat) (ty : Ty) :
    executeAll floats signatures answer
      (Emission.one fresh operator args ty).operations state =
        some { state with words := update state.words fresh word } := by
  show (execute floats signatures answer state _).bind _ = _
  rw [execute_run ran]
  rfl

end

variable {words : Nat → Word Real}

theorem const_run (ran : operator.run floats [] = some word) :
    operator.run floats (([] : List Nat).map words) = some word := ran

theorem two_runs {first second : Operator} {operands : List Nat}
    {middle : Word Real} (word : Word Real) {fresh : Nat}
    (ran : first.run floats (args.map state.words) = some middle)
    (then_ : second.run floats (operands.map (update state.words fresh middle)) =
      some word) (ty : Ty) :
    executeAll floats signatures answer
      (Emission.two fresh first args second operands ty).operations state =
        some { state with
          words := update (update state.words fresh middle) (fresh + 1) word } := by
  show (execute floats signatures answer state _).bind _ = _
  rw [execute_run ran]
  show (execute floats signatures answer _ _).bind _ = _
  rw [execute_run then_]
  rfl

/-- What an emission computes: the slot of its value holds it, and no value that is not the
emission's changes. -/
structure Computes (emission : Emission) (datum : Datum Real) (before after : Nat → Word Real) :
    Prop where
  slot : ∃ slot, emission.slot = some slot ∧ Holds after slot datum
  kept : ∀ value, (∀ operation ∈ emission.operations, operation.value ≠ value) →
    after value = before value

variable {ty : Ty}

theorem computes_one (datum : Datum Real)
    (typed : (Word.of datum).ty = ty) (fresh : Nat) (operator : Operator) (args : List Nat) :
    Computes (.one fresh operator args ty) datum words
      (update words fresh (.of datum)) := by
  refine ⟨⟨(fresh, ty), rfl, update_self .., typed⟩, ?_⟩
  intro value apart
  exact update_of_ne (Ne.symm (apart _ mem_cons_self)) _ _

theorem computes_two (datum : Datum Real) {middle : Word Real}
    (typed : (Word.of datum).ty = ty) (fresh : Nat) (first second : Operator)
    (args operands : List Nat) :
    Computes (.two fresh first args second operands ty) datum words
      (update (update words fresh middle) (fresh + 1) (.of datum)) := by
  refine ⟨⟨(fresh + 1, ty), rfl, update_self .., typed⟩, ?_⟩
  intro value apart
  rw [update_of_ne (Ne.symm (apart _ (mem_cons_of_mem _ mem_cons_self))),
    update_of_ne (Ne.symm (apart _ mem_cons_self))]

theorem select_run {a b : Datum Real} (first : (Word.of a).ty = ty)
    (second : (Word.of b).ty = ty) (held : Bool) :
    Operator.select.run floats [.of a, .of b, .ofBool held] =
      some (Word.of (if held then a else b)) := by
  have same : (Word.of a).ty = (Word.of b).ty := first.trans second.symm
  cases held with
  | false | true => exact (if_pos same).trans rfl

theorem extend_ofBool (held : Bool) :
    Operator.i64ExtendI32U.run floats [.ofBool held] = some (.of (Datum.ofBool held)) := by
  cases held <;> rfl

theorem wrap_run {bits : BitVec 64} {held : Bool} (truth : Datum.truth? bits = some held) :
    Operator.i32WrapI64.run floats [(Word.i64 bits : Word Real)] = some (.ofBool held) := by
  unfold Datum.truth? at truth
  split at truth
  · rename_i zero
    cases truth
    rw [zero]
    rfl
  · split at truth
    · rename_i one
      cases truth
      rw [one]
      rfl
    · cases truth

theorem extremum {stated : ScalarClass} {op compared : KernelBin} {native : Operator}
    (pair : op = .max ∧ compared = .gt ∨ op = .min ∧ compared = .lt)
    (found : binaryOperator stated compared = .ok native) {lhs rhs : Slot}
    {a b datum : Datum Real} (first : Holds state.words lhs a) (second : Holds state.words rhs b)
    (left : lhs.1 < fresh) (right : rhs.1 < fresh)
    (leaves : (KernelInstr.bin stated op).leavesOf floats [a, b] = some datum) :
    ∃ words, executeAll floats signatures answer (Emission.two fresh native
        [lhs.1, rhs.1] .select [lhs.1, rhs.1, fresh] (valueType stated)).operations state =
      some { state with words } ∧ Computes (Emission.two fresh native
        [lhs.1, rhs.1] .select [lhs.1, rhs.1, fresh] (valueType stated)) datum state.words words := by
  obtain ⟨held, ran, rfl, one, other⟩ := run_extremum floats pair found leaves
  rw [← first.word, ← second.word] at ran
  refine ⟨_, two_runs (.of (if held then a else b)) ran ?_ _,
    computes_two _ ?_ fresh _ _ _ _⟩
  · rw [map_cons, map_cons, map_cons, map_nil, update_self,
      update_of_ne (Nat.ne_of_lt left), update_of_ne (Nat.ne_of_lt right),
      first.word, second.word]
    exact select_run one other held
  · cases held with
    | false => exact other
    | true => exact one

/-- An emission computes what its instruction leaves of what its operands hold. -/
theorem Emitted.computes {op : KernelInstr} {operands : List Slot} {emission : Emission}
    (emitted : Emitted ctx fresh op operands emission) (pure : op.acts = false)
    {data : List (Datum Real)}
    (holds : List.Forall₂ (Holds state.words) operands data)
    (below : ∀ slot ∈ operands, slot.1 < fresh) {datum : Datum Real}
    (leaves : op.leavesOf floats data = some datum) :
    ∃ words, executeAll floats signatures answer emission.operations state =
      some { state with words } ∧ Computes emission datum state.words words := by
  cases emitted with
  | constInt bits =>
    cases data with
    | cons first data => cases leaves
    | nil =>
      cases leaves
      cases holds
      exact ⟨_, one_runs (const_run rfl) fresh _, computes_one (.int bits) rfl fresh _ _⟩
  | constFloat bits =>
    cases data with
    | cons first data => cases leaves
    | nil =>
      cases leaves
      cases holds
      exact ⟨_, one_runs (const_run rfl) fresh _, computes_one (.float _) rfl fresh _ _⟩
  | @max stated lhs rhs native found =>
    obtain _ | ⟨first, _ | ⟨second, _ | _⟩⟩ := holds
    exact extremum (Or.inl ⟨rfl, rfl⟩) found first second (below _ mem_cons_self)
      (below _ (mem_cons_of_mem _ mem_cons_self)) leaves
  | @min stated lhs rhs native found =>
    obtain _ | ⟨first, _ | ⟨second, _ | _⟩⟩ := holds
    exact extremum (Or.inr ⟨rfl, rfl⟩) found first second (below _ mem_cons_self)
      (below _ (mem_cons_of_mem _ mem_cons_self)) leaves
  | @comparison stated op lhs rhs native found compares =>
    obtain _ | ⟨first, _ | ⟨second, _ | _⟩⟩ := holds
    obtain ⟨held, ran, rfl⟩ := run_comparison floats found compares leaves
    rw [← first.word, ← second.word] at ran
    refine ⟨_, two_runs (.of (Datum.ofBool held)) ran ?_ _,
      computes_two (.ofBool held) rfl fresh _ _ _ _⟩
    rw [map_cons, map_nil, update_self]
    exact extend_ofBool held
  | @arithmetic stated op lhs rhs native found computes =>
    obtain _ | ⟨first, _ | ⟨second, _ | _⟩⟩ := holds
    obtain ⟨ran, typed⟩ := run_arithmetic floats found computes leaves
    rw [← first.word, ← second.word] at ran
    exact ⟨_, one_runs ran fresh _, computes_one _ typed fresh _ _⟩
  | negate =>
    obtain _ | ⟨first, _ | _⟩ := holds
    rename_i a
    cases a <;> cases leaves
    rename_i number
    refine ⟨_, one_runs ?_ fresh _, computes_one (.float (floats.negate number)) rfl fresh _ _⟩
    rw [map_cons, map_nil, first.word]
    rfl
  | wrap =>
    obtain _ | ⟨first, _ | _⟩ := holds
    rename_i a
    cases a <;> try cases leaves
    obtain ⟨held, truth, rfl⟩ := Option.map_eq_some_iff.1 leaves
    refine ⟨_, one_runs ?_ fresh _, computes_one (.condition held) rfl fresh _ _⟩
    rw [map_cons, map_nil, first.word]
    exact wrap_run truth
  | select same =>
    obtain _ | ⟨first, _ | ⟨second, _ | ⟨third, _ | _⟩⟩⟩ := holds
    rename_i a b c
    cases c <;> try cases leaves
    rename_i held
    refine ⟨_, one_runs ?_ fresh _, computes_one (if held then a else b) ?_ fresh _ _⟩
    · rw [map_cons, map_cons, map_cons, map_nil, first.word, second.word, third.word]
      exact select_run first.ty (second.ty.trans same.symm) held
    · cases held with
      | false => exact second.ty.trans same.symm
      | true => exact first.ty
  | @reclassified source target operand same =>
    obtain _ | ⟨first, _ | _⟩ := holds
    rename_i a
    have unmoved : datum = a := by
      have typed := first.ty.trans same
      cases source <;> cases target <;> cases a <;>
        first | (cases leaves; done) | (cases leaves; rfl) | cases typed
    refine ⟨state.words, rfl, ⟨operand, rfl, ?_⟩, fun _ _ => rfl⟩
    rw [unmoved]
    exact first
  | @toFloat source operand seen =>
    obtain _ | ⟨first, _ | _⟩ := holds
    rename_i a
    have typed := first.ty.trans seen
    cases a with
    | int bits =>
      have same : datum = .float (floats.ofInt bits) := by
        cases source <;> cases leaves
        rfl
      rw [same]
      refine ⟨_, one_runs ?_ fresh _, computes_one (.float _) rfl fresh _ _⟩
      rw [map_cons, map_nil, first.word]
      rfl
    | float number => cases typed
    | condition held => cases typed
  | @toInt source operand seen =>
    obtain _ | ⟨first, _ | _⟩ := holds
    rename_i a
    have typed := first.ty.trans seen
    cases a with
    | int bits => cases typed
    | float number =>
      have found : (floats.toInt number).map Datum.int = some datum := by
        cases source <;> first | cases leaves | exact leaves
      obtain ⟨bits, truncated, rfl⟩ := Option.map_eq_some_iff.1 found
      refine ⟨_, one_runs ?_ fresh _, computes_one (.int bits) rfl fresh _ _⟩
      rw [map_cons, map_nil, first.word]
      show (floats.toInt number).map Word.i64 = _
      rw [truncated]
      rfl
    | condition held => cases typed
  | call placed found results => cases pure
  | read found => cases pure
  | write found => cases pure
  | atomicAdd found => cases pure

end Run

section Act

variable {floats : Floats Real} {signatures : Nat → Option Signature}

variable {operands : List Slot} {data : List (Datum Real)}

theorem tys_of_holds {words : Nat → Word Real} (holds : List.Forall₂ (Holds words) operands data) :
    (operands.map Prod.fst).map words = data.map Word.of := by
  induction holds with
  | nil => rfl
  | cons first rest ih => rw [map_cons, map_cons, map_cons, ih, first.word]

variable {state : State Real} {functionIndex : Nat}

theorem call_runs (host : Host Real signatures) (holds : List.Forall₂
    (Holds state.words) operands data) {signature : Signature}
    (declared : signatures functionIndex = some signature)
    (typed : data.map (fun datum => (Word.of datum).ty) = signature.params) (value : Nat)
    (results : List Ty) :
    executeAll floats signatures host.words
      [⟨value, .call functionIndex, operands.map Prod.fst, results⟩] state =
        some { state with
          words := match results with
            | [] => state.words
            | _ :: _ => update state.words value
                (host.words state.calls ⟨functionIndex, data.map Word.of⟩)
          calls := state.calls ++ [⟨functionIndex, data.map Word.of⟩] } := by
  show (execute floats signatures host.words state _).bind _ = _
  unfold execute
  dsimp only
  rw [declared, tys_of_holds holds]
  dsimp only
  rw [if_pos (by rw [map_map]; exact typed)]
  rfl

theorem tys_of_domain {domain : List ScalarClass} (count : data.length = domain.length)
    (each : ((domain.zip data).all fun (leaf, operand) => operand.isOf leaf)) :
    data.map (fun datum => (Word.of datum).ty) = domain.map valueType := by
  induction domain generalizing data with
  | nil => rw [length_eq_zero_iff.1 count]; rfl
  | cons leaf domain ih =>
    cases data with
    | nil => cases count
    | cons datum data =>
      rw [zip_cons_cons, all_cons, Bool.and_eq_true] at each
      rw [map_cons, map_cons, ty_of_isOf each.1, ih (Nat.succ.inj count) each.2]

/-- What an emission does: it makes the call, and its value, if it leaves one, is the answer. -/
structure Acts (floats : Floats Real) (ctx : ModuleCtx) (host : Host Real signatures)
    (event : Event (Datum Real)) (emission : Emission) (before : State Real)
    (after : Nat → Word Real) : Prop where
  ran : executeAll floats signatures host.words emission.operations before =
    some { before with words := after, calls := before.calls ++ [ctx.callOf event] }
  left : event.op.produces ≠ 0 → ∃ slot, emission.slot = some slot ∧
    Holds after slot (host.answer before.calls (ctx.callOf event))
  none : event.op.produces = 0 → emission.slot = none
  kept : ∀ value, (∀ operation ∈ emission.operations, operation.value ≠ value) →
    after value = before.words value

variable {op : KernelInstr}

theorem callOf_eq (named : ctx.functionOf op = some functionIndex) (data : List (Datum Real)) :
    ctx.callOf ⟨op, data⟩ = ⟨functionIndex, data.map Word.of⟩ := by
  unfold ModuleCtx.callOf
  rw [named]
  rfl

section

variable (host : Host Real signatures) (holds : List.Forall₂ (Holds state.words) operands data)
  (named : ctx.functionOf op = some functionIndex)

include host holds named

theorem acts_answered {params : List Ty} {ty : Ty}
    (declared : signatures functionIndex = some ⟨params, [ty]⟩)
    (typed : data.map (fun datum => (Word.of datum).ty) = params) (leaves : op.produces ≠ 0) :
    ∃ words, Acts floats ctx host ⟨op, data⟩
      (.one fresh (.call functionIndex) (operands.map Prod.fst) ty) state words := by
  refine ⟨update state.words fresh
    (host.words state.calls ⟨functionIndex, data.map Word.of⟩), ?_, ?_, ?_, ?_⟩
  · rw [callOf_eq named]
    exact call_runs host holds declared typed fresh [ty]
  · intro _
    refine ⟨(fresh, ty), rfl, ?_, ?_⟩
    · rw [callOf_eq named]
      exact update_self ..
    · rw [callOf_eq named]
      exact host.typed _ _ _ _ declared rfl
  · exact fun nothing => absurd nothing leaves
  · intro value apart
    exact update_of_ne (Ne.symm (apart _ mem_cons_self)) _ _

theorem acts_silent {signature : Signature} (declared : signatures functionIndex = some signature)
    (typed : data.map (fun datum => (Word.of datum).ty) = signature.params)
    (nothing : op.produces = 0) :
    ∃ words, Acts floats ctx host ⟨op, data⟩
      ⟨[⟨fresh, .call functionIndex, operands.map Prod.fst, []⟩], none⟩ state words := by
  refine ⟨state.words, ?_, ?_, fun _ => rfl, fun _ _ => rfl⟩
  · rw [callOf_eq named]
    exact call_runs host holds declared typed fresh []
  · exact fun leaves => absurd nothing leaves

end

section

variable {emission : Emission} (emitted : Emitted ctx fresh op operands emission)

include emitted

/-- An emission does what its instruction does to what its operands hold. -/
theorem Emitted.acts (declares : Declares ctx signatures) (host : Host Real signatures)
    (acts : op.acts) (holds : List.Forall₂ (Holds state.words) operands data)
    (accepts : op.accepts ctx.domain data) :
    ∃ words, Acts floats ctx host ⟨op, data⟩ emission state words := by
  cases emitted with
  | @call callee _ position target result placed found results =>
    have domain : ctx.domain callee = target.paramShape.leafClasses := by
      unfold ModuleCtx.domain
      rw [placed, Option.bind_some, found]
    have declared := declares.call position target found
    rw [results] at declared
    replace accepts : (data.length == (ctx.domain callee).length &&
      ((ctx.domain callee).zip data).all fun (leaf, operand) => operand.isOf leaf) := accepts
    rw [Bool.and_eq_true, beq_iff_eq, domain] at accepts
    have named : ctx.functionOf (.callKernel callee) = some (ctx.imports.base + position) := by
      show (ctx.index callee).map _ = _
      rw [placed]
      rfl
    exact acts_answered host holds named declared (tys_of_domain accepts.1 accepts.2)
      Nat.one_ne_zero
  | @read stated position index functionIndex found =>
    obtain _ | ⟨first, _ | ⟨second, _ | _⟩⟩ := id holds
    rename_i a b
    replace accepts : (a.isOf .int && b.isOf .int) := accepts
    rw [Bool.and_eq_true] at accepts
    have named : ctx.functionOf (.bufferReadCall stated) = some functionIndex := found
    refine acts_answered host holds named (declares.read _ _ found) ?_ Nat.one_ne_zero
    rw [map_cons, map_cons, ty_of_isOf accepts.1, ty_of_isOf accepts.2]
    rfl
  | @write stated position index value functionIndex found =>
    obtain _ | ⟨first, _ | ⟨second, _ | ⟨third, _ | _⟩⟩⟩ := id holds
    rename_i a b c
    replace accepts : (a.isOf .int && b.isOf .int && c.isOf stated) := accepts
    rw [Bool.and_eq_true, Bool.and_eq_true] at accepts
    have named : ctx.functionOf (.bufferWriteCall stated) = some functionIndex := found
    refine acts_silent host holds named (declares.write _ _ found) ?_ rfl
    rw [map_cons, map_cons, map_cons, ty_of_isOf accepts.1.1,
      ty_of_isOf accepts.1.2, ty_of_isOf accepts.2]
    rfl
  | @atomicAdd stated position index value functionIndex found =>
    obtain _ | ⟨first, _ | ⟨second, _ | ⟨third, _ | _⟩⟩⟩ := id holds
    rename_i a b c
    replace accepts : (a.isOf .int && b.isOf .int && c.isOf stated) := accepts
    rw [Bool.and_eq_true, Bool.and_eq_true] at accepts
    have named : ctx.functionOf (.bufferAtomicAddCall stated) = some functionIndex := found
    refine acts_silent host holds named (declares.atomic _ _ found) ?_ rfl
    rw [map_cons, map_cons, map_cons, ty_of_isOf accepts.1.1,
      ty_of_isOf accepts.1.2, ty_of_isOf accepts.2]
    rfl
  | _ => cases acts

theorem Emitted.slot_cases {slot : Slot} (left : emission.slot = some slot) :
    (∃ operation ∈ emission.operations, operation.value = slot.1) ∨
      emission.operations = [] ∧ operands = [slot] ∧ ∃ source target, op = .conv source target := by
  cases emitted with
  | reclassified same =>
    cases left
    exact Or.inr ⟨rfl, rfl, _, _, rfl⟩
  | write found => cases left
  | atomicAdd found => cases left
  | max found | min found | comparison found compares =>
    cases left
    exact Or.inl ⟨_, mem_cons_of_mem _ mem_cons_self, rfl⟩
  | _ =>
    cases left
    exact Or.inl ⟨_, mem_cons_self, rfl⟩

theorem Emitted.numbered :
    ∀ operation ∈ emission.operations, fresh ≤ operation.value ∧
      operation.value < fresh + emission.operations.length := by
  cases emitted with
  | reclassified same => exact fun _ member => absurd member not_mem_nil
  | max found | min found | comparison found compares =>
    intro operation member
    rcases mem_cons.1 member with rfl | member
    · exact ⟨Nat.le_refl _, Nat.lt_add_of_pos_right Nat.two_pos⟩
    · rw [mem_singleton.1 member]
      exact ⟨Nat.le_succ _, Nat.lt_succ_self _⟩
  | _ =>
    intro operation member
    rw [mem_singleton.1 member]
    exact ⟨Nat.le_refl _, Nat.lt_succ_self _⟩

theorem Emitted.typed {slot : Slot} (left : emission.slot = some slot) :
    ctx.instructionType op (operands.map Prod.snd) = some slot.2 := by
  cases emitted with
  | comparison found compares =>
    cases left
    exact if_pos compares
  | arithmetic found computes =>
    cases left
    exact if_neg (Bool.eq_false_iff.1 computes)
  | reclassified same =>
    cases left
    exact congrArg some same.symm
  | @call callee _ position target result placed found results =>
    cases left
    have bound : (ctx.index callee).bind (ctx.callees[·]?) = some target := by
      rw [placed, Option.bind_some, found]
    simp only [ModuleCtx.instructionType, bound]
    rw [← List.head?_map, results]
    rfl
  | write found => cases left
  | atomicAdd found => cases left
  | _ =>
    cases left
    rfl

end

end Act

end LichenVm.Wasm
