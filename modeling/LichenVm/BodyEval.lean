import LichenVm.KernelBody

open List Function

namespace LichenVm.KernelIr

/-- What the operators and the conditions of a body mean, over the values it computes with. -/
structure Meaning (Value : Type) where
  compute : KernelInstr → List Value → Value
  /-- The way a condition branches, when it is one. -/
  taken : Value → Option Bool

/-- Whether an instruction reaches past the values of its own body. -/
def KernelInstr.acts : KernelInstr → Bool
  | .callKernel _ | .bufferReadCall _ | .outputReadCall _ | .bufferWriteCall _
  | .bufferAtomicAddCall _ | .sliceWriteCall _ | .sliceReadCall _ => true
  | _ => false

/-- One executed instruction that acts, with the values it was given. -/
structure Event (Value : Type) where
  op : KernelInstr
  operands : List Value

/-- Where an execution stands: the block it is about to execute, what each value holds, and what
it did. -/
structure Frame (Value : Type) where
  block : Nat
  bound : ValueId → Value
  trace : List (Event Value)

/-- What a block leaves. -/
inductive Next (Value : Type) where
  | continues (frame : Frame Value)
  | returns (values : List Value) (trace : List (Event Value))
  | stuck

/-- The parameters of a block hold what they are handed, all at once. -/
def receive {Value : Type} (params : List ValueId) (values : List Value)
    (bound : ValueId → Value) : ValueId → Value :=
  (params.zip values).foldl (fun bound pair => update bound pair.1 pair.2) bound

namespace KernelBody

section Eval

variable {Value : Type} (body : KernelBody) (meaning : Meaning Value)
  (reply : List (Event Value) → Event Value → Value)

/-- Execute one listed value. What an instruction that acts leaves is the answer to what was done
so far and to itself. -/
def executeOne (frame : Frame Value) (value : ValueId) : Frame Value :=
  match body.values[value]? with
  | some (.instr op args _) =>
    let operands := args.map frame.bound
    if op.acts then
      { frame with
        bound := if op.produces = 0 then frame.bound
          else update frame.bound value (reply frame.trace ⟨op, operands⟩)
        trace := frame.trace ++ [⟨op, operands⟩] }
    else
      { frame with bound := update frame.bound value (meaning.compute op operands) }
  | _ => frame

def execute (instrs : List ValueId) (frame : Frame Value) : Frame Value :=
  instrs.foldl (body.executeOne meaning reply) frame

/-- Arrive at a branch's target. -/
def arrive (branch : Br) (frame : Frame Value) : Frame Value :=
  { frame with
    block := branch.target
    bound := receive (body.block branch.target).params (branch.args.map frame.bound) frame.bound }

/-- Leave a block its instructions have executed. -/
def leave (frame : Frame Value) : Next Value :=
  match (body.block frame.block).terminator with
  | .return values => .returns (values.map frame.bound) frame.trace
  | .br branch => .continues (body.arrive branch frame)
  | .condBr cond ifTrue ifFalse =>
    match meaning.taken (frame.bound cond) with
    | some true => .continues (body.arrive ifTrue frame)
    | some false => .continues (body.arrive ifFalse frame)
    | none => .stuck

def next (frame : Frame Value) : Next Value :=
  body.leave meaning (body.execute meaning reply (body.block frame.block).instrs frame)

def run : Nat → Frame Value → Option (List Value × List (Event Value))
  | 0, _ => none
  | fuel + 1, frame =>
    match body.next meaning reply frame with
    | .continues after => run fuel after
    | .returns values trace => some (values, trace)
    | .stuck => none

/-- A body enters with its parameters bound. -/
def enter [Inhabited Value] (args : List Value) : Frame Value :=
  ⟨body.entry, receive body.parameters args fun _ => default, []⟩

/-- Where an execution ends, with everything it did. -/
def Returns (frame : Frame Value) (result : List Value × List (Event Value)) : Prop :=
  ∃ fuel, body.run meaning reply fuel frame = some result

/-- What a listed value does, once everything it reads is bound. -/
def eventAt (bound : ValueId → Value) (value : ValueId) : Option (Event Value) :=
  match body.values[value]? with
  | some (.instr op args _) => if op.acts then some ⟨op, args.map bound⟩ else none
  | _ => none

variable {body meaning reply} {frame : Frame Value} {result : List Value × List (Event Value)}

theorem Returns.continues {after : Frame Value}
    (stepped : body.next meaning reply frame = .continues after)
    (ends : body.Returns meaning reply after result) : body.Returns meaning reply frame result := by
  obtain ⟨fuel, ran⟩ := ends
  refine ⟨fuel + 1, ?_⟩
  rw [run, stepped]
  exact ran

theorem Returns.ends {values : List Value} {trace : List (Event Value)}
    (stepped : body.next meaning reply frame = .returns values trace) :
    body.Returns meaning reply frame (values, trace) := by
  refine ⟨1, ?_⟩
  rw [run, stepped]

variable {other : List Value × List (Event Value)}

theorem run_unique {first second : Nat} (ran : body.run meaning reply first frame = some result)
    (again : body.run meaning reply second frame = some other) : result = other := by
  induction first generalizing frame second with
  | zero => cases ran
  | succ first ih =>
    cases second with
    | zero => cases again
    | succ second =>
      rw [run] at ran again
      cases stepped : body.next meaning reply frame with
      | continues after =>
        rw [stepped] at ran again
        exact ih ran again
      | returns values trace =>
        rw [stepped] at ran again
        exact Option.some.inj (ran.symm.trans again)
      | stuck =>
        rw [stepped] at ran
        cases ran

theorem Returns.unique (ends : body.Returns meaning reply frame result)
    (again : body.Returns meaning reply frame other) : result = other := by
  obtain ⟨first, ran⟩ := ends
  obtain ⟨second, reran⟩ := again
  exact run_unique ran reran

@[simp]
theorem executeOne_block (frame : Frame Value) (value : ValueId) :
    (body.executeOne meaning reply frame value).block = frame.block := by
  unfold executeOne
  split
  · dsimp only
    split
    · rfl
    · rfl
  · rfl

@[simp]
theorem execute_block (instrs : List ValueId) (frame : Frame Value) :
    (body.execute meaning reply instrs frame).block = frame.block := by
  induction instrs generalizing frame with
  | nil => rfl
  | cons value instrs ih =>
    show (body.execute meaning reply instrs _).block = _
    rw [ih, executeOne_block]

variable {value : ValueId}

theorem executeOne_other {other : ValueId} (apart : other ≠ value) :
    (body.executeOne meaning reply frame value).bound other = frame.bound other := by
  unfold executeOne
  split
  · dsimp only
    split
    · dsimp only
      split
      · rfl
      · exact update_of_ne apart _ _
    · exact update_of_ne apart _ _
  · rfl

variable {instrs : List ValueId}

theorem execute_outside (outside : value ∉ instrs) (frame : Frame Value) :
    (body.execute meaning reply instrs frame).bound value = frame.bound value := by
  induction instrs generalizing frame with
  | nil => rfl
  | cons first instrs ih =>
    show (body.execute meaning reply instrs _).bound value = _
    rw [mem_cons, not_or] at outside
    rw [ih outside.2, executeOne_other outside.1]

/-- The values of a list are numbered in its order, and each reads only what is numbered before
it. -/
structure Ordered (body : KernelBody) (instrs : List ValueId) : Prop where
  sorted : instrs.Pairwise (· < ·)
  earlier : ∀ value ∈ instrs, ∀ op args classes,
    body.values[value]? = some (.instr op args classes) → ∀ arg ∈ args, arg < value

theorem Ordered.tail (ordered : body.Ordered (value :: instrs)) : body.Ordered instrs :=
  ⟨(pairwise_cons.1 ordered.sorted).2,
    fun other member => ordered.earlier other (mem_cons_of_mem _ member)⟩

theorem Ordered.kept {other : ValueId}
    (ordered : body.Ordered (value :: instrs)) (before : other ≤ value) (frame : Frame Value) :
    (body.execute meaning reply instrs frame).bound other = frame.bound other := by
  apply execute_outside
  intro member
  have after := (pairwise_cons.1 ordered.sorted).1 other member
  exact absurd after (Nat.not_lt.2 before)

variable {op : KernelInstr} {args : List ValueId} {classes : List ScalarClass}

theorem Ordered.operands
    (ordered : body.Ordered (value :: instrs)) (found : body.values[value]? = some
    (.instr op args classes))
    (frame : Frame Value) :
    args.map (body.execute meaning reply (value :: instrs) frame).bound = args.map frame.bound := by
  apply map_congr_left
  intro arg member
  have before := ordered.earlier value mem_cons_self op args classes found arg member
  show (body.execute meaning reply instrs _).bound arg = _
  rw [ordered.kept (Nat.le_of_lt before), executeOne_other (Nat.ne_of_lt before)]

theorem Ordered.computes (ordered : body.Ordered instrs)
    (member : value ∈ instrs) (found : body.values[value]? = some (.instr op args classes))
    (pure : op.acts = false) (frame : Frame Value) :
    (body.execute meaning reply instrs frame).bound value =
      meaning.compute op (args.map (body.execute meaning reply instrs frame).bound) := by
  induction instrs generalizing frame with
  | nil => cases member
  | cons first instrs ih =>
    rcases mem_cons.1 member with rfl | later
    · rw [ordered.operands found]
      show (body.execute meaning reply instrs _).bound value = _
      rw [ordered.kept (Nat.le_refl _)]
      simp only [executeOne, found, pure]
      exact update_self ..
    · exact ih ordered.tail later (body.executeOne meaning reply frame first)

theorem Ordered.answers {answer : Event Value → Value}
    (ordered : body.Ordered instrs) (member : value ∈ instrs)
    (found : body.values[value]? = some (.instr op args classes)) (acts : op.acts)
    (leaves : op.produces ≠ 0) (frame : Frame Value) :
    (body.execute meaning (fun _ => answer) instrs frame).bound value =
      answer ⟨op, args.map (body.execute meaning (fun _ => answer) instrs frame).bound⟩ := by
  induction instrs generalizing frame with
  | nil => cases member
  | cons first instrs ih =>
    rcases mem_cons.1 member with rfl | later
    · rw [ordered.operands found]
      show (body.execute meaning (fun _ => answer) instrs _).bound value = _
      rw [ordered.kept (Nat.le_refl _)]
      simp only [executeOne, found, acts, leaves, if_true, if_false]
      exact update_self ..
    · exact ih ordered.tail later (body.executeOne meaning (fun _ => answer) frame first)

/-- What a list does, read off what its values hold at its end. -/
theorem Ordered.traces (ordered : body.Ordered instrs) (frame : Frame Value) :
    (body.execute meaning reply instrs frame).trace = frame.trace ++
      instrs.filterMap (body.eventAt (body.execute meaning reply instrs frame).bound) := by
  induction instrs generalizing frame with
  | nil => exact (append_nil _).symm
  | cons value instrs ih =>
    have first : body.eventAt (body.execute meaning reply (value :: instrs) frame).bound value =
        body.eventAt frame.bound value := by
      unfold eventAt
      split
      · rename_i op args classes found
        rw [ordered.operands found]
      · rfl
    have one : (body.executeOne meaning reply frame value).trace =
        frame.trace ++ (body.eventAt frame.bound value).toList := by
      unfold executeOne eventAt
      split
      · split
        · rfl
        · exact (append_nil _).symm
      · exact (append_nil _).symm
    have rest := ih ordered.tail (body.executeOne meaning reply frame value)
    rw [one] at rest
    show (body.execute meaning reply instrs _).trace = _
    rw [rest, filterMap_cons, first, append_assoc]
    cases body.eventAt frame.bound value with
    | none => rfl
    | some event => rfl

end Eval

end KernelBody

theorem receive_outside {Value : Type} {params : List ValueId} {value : ValueId}
    (outside : value ∉ params) (values : List Value) (bound : ValueId → Value) :
    receive params values bound value = bound value := by
  unfold receive
  induction params generalizing values bound with
  | nil => rfl
  | cons param params ih =>
    rw [mem_cons, not_or] at outside
    cases values with
    | nil => rfl
    | cons first values =>
      rw [zip_cons_cons, foldl_cons, ih outside.2, update_of_ne outside.1]

theorem receive_map {Value : Type} {params : List ValueId} (distinct : params.Nodup)
    {values : List Value} (arity : values.length = params.length) (bound : ValueId → Value) :
    params.map (receive params values bound) = values := by
  induction params generalizing values bound with
  | nil => exact (length_eq_zero_iff.1 arity).symm
  | cons param params ih =>
    cases values with
    | nil => cases arity
    | cons first values =>
      rw [nodup_cons] at distinct
      have own : receive (param :: params) (first :: values) bound param = first := by
        show receive params values _ param = _
        rw [receive_outside distinct.1]
        exact update_self ..
      rw [map_cons, own]
      congr 1
      exact ih distinct.2 (Nat.succ.inj arity) _

end LichenVm.KernelIr
