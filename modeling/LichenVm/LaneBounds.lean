import LichenVm.IndexBounds
import LichenVm.BodyRun

/-! The lanes of an execution, against the intervals and the accesses the barrier scan accepts. -/

open List Option

namespace LichenVm.KernelIr

open Worklist

def Terminator.decides : Terminator → List ValueId
  | .condBr cond _ _ => [cond]
  | _ => []

/-- Where a lane stands: its frame, how many of its block's instructions it executed, and the
values it has bound. -/
structure LaneState (Real : Type) where
  frame : Frame (Datum Real)
  position : Nat
  bound : List ValueId

namespace KernelBody

section Lanes

variable {Real : Type} (body : KernelBody) (floats : Floats Real)
  (domain : KernelId → List ScalarClass)
  (reply : List (Event (Datum Real)) → Event (Datum Real) → Datum Real)

/-- The value the next step of a lane executes. -/
def nextListed (state : LaneState Real) : Option ValueId :=
  (body.block state.frame.block).instrs[state.position]?

/-- A lane executes what its block lists, in order, and then takes a branch. What it reads is
bound. What the memory and the other lanes give it is what its `reply` answers. -/
inductive LaneStep : LaneState Real → LaneState Real → Prop
  | execute {state : LaneState Real} {value : ValueId} {after : Frame (Datum Real)}
      (listed : body.nextListed state = some value)
      (ready : ∀ arg ∈ body.operands value, arg ∈ state.bound)
      (performed : body.performOne floats domain reply state.frame value = some after) :
      LaneStep state ⟨after, state.position + 1, body.leaves value ++ state.bound⟩
  | transfer {state : LaneState Real} {branch : Br} (finished : body.nextListed state = none)
      (taken : branch ∈ (body.block state.frame.block).terminator.branches)
      (ready : ∀ arg ∈ (body.block state.frame.block).terminator.decides ++ branch.args,
        arg ∈ state.bound)
      (departed : body.depart state.frame = .continues (body.arrive branch state.frame)) :
      LaneStep state ⟨body.arrive branch state.frame, 0,
        (body.block branch.target).params.take branch.args.length ++ state.bound⟩

/-- A lane enters with a value for each parameter it is handed one for. -/
def laneStart (args : List (Datum Real)) : LaneState Real :=
  ⟨body.enter args, 0, body.parameters.take args.length⟩

/-- The next step takes no select to an integer above both what its second operand holds and a
truth value. -/
def SelectKept (state : LaneState Real) : Prop :=
  ∀ (value first second cond : ValueId) (classes : List ScalarClass) (n : BitVec 64),
    body.nextListed state = some value →
    body.values[value]? = some (.instr .select [first, second, cond] classes) →
    state.frame.bound cond = .condition true → state.frame.bound first = .int n →
    n.toNat ≤ 1 ∨ ∃ m, state.frame.bound second = .int m ∧ n.toNat ≤ m.toNat

/-- The states of the runs whose steps all keep their selects. -/
def LaneRuns (args : List (Datum Real)) (state : LaneState Real) : Prop :=
  Relation.ReflTransGen
    (fun before after => body.LaneStep floats domain reply before after ∧ body.SelectKept before)
    (body.laneStart args) state

/-- What the values that a lane has bound hold is inside every bound the scan may answer for them. -/
def Bounded (state : LaneState Real) : Prop :=
  ∀ value ∈ state.bound, ∀ i, body.Bounds value i → i.Holds (state.frame.bound value)

variable {body floats domain reply} {block : Nat}

theorem block_absent (absent : ¬ block < body.blocks.length) :
    body.block block = ⟨[], [], .return []⟩ := by
  unfold KernelBody.block
  rw [getD_eq_getElem?_getD, getElem?_eq_none (Nat.not_lt.1 absent)]
  rfl

theorem params_found (received : ParamsReceived body.blocks body.values)
    {param : ValueId} (member : param ∈ (body.block block).params) :
    ∃ owner index, body.values[param]? = some (.blockParam owner index) := by
  by_cases within : block < body.blocks.length
  · exact received _ (mem_of_getElem? (block_found within)) param member
  · rw [block_absent within] at member
    cases member

variable {value : ValueId} {i : Interval}

theorem bounds_param {index : Nat}
    (param : body.values[value]? = some (.blockParam block index)) (bounds : body.Bounds value i) :
    i = .unbounded := by
  cases bounds with
  | unbounded => rfl
  | const found | fixed found _ | one found _ _ | two found _ _ _ =>
    rw [param] at found; cases found

variable {op : KernelInstr}

theorem boundRule_acts (acts : op.acts) (args : List ValueId) :
    body.boundRule op args = .fixed .unbounded := by
  cases op <;> first | rfl | cases acts

variable {args : List ValueId} {classes : List ScalarClass}

/-- How a bound of an instruction comes about. -/
theorem Bounds.of_instr (bounds : body.Bounds value i)
    (found : body.values[value]? = some (.instr op args classes)) :
    i = .unbounded ∨ (∃ bits, op = .const .int bits ∧ i = ⟨bits.toNat, bits.toNat⟩) ∨
      body.boundRule op args = .fixed i ∨
      (∃ position answer left, body.boundRule op args = .one position answer ∧ i = answer left ∧
        ∀ arg, args[position]? = some arg → body.Bounds arg left) ∨
      ∃ first second answer left right, body.boundRule op args = .two first second answer ∧
        i = answer left right ∧ (∀ arg, args[first]? = some arg → body.Bounds arg left) ∧
        ∀ arg, args[second]? = some arg → body.Bounds arg right := by
  cases bounds with
  | unbounded => exact .inl rfl
  | const found' =>
    rw [found] at found'
    cases found'
    exact .inr (.inl ⟨_, rfl, rfl⟩)
  | fixed found' rule =>
    rw [found] at found'
    cases found'
    exact .inr (.inr (.inl rule))
  | one found' rule asked =>
    rw [found] at found'
    cases found'
    exact .inr (.inr (.inr (.inl ⟨_, _, _, rule, rfl, asked⟩)))
  | two found' rule asked asked' =>
    rw [found] at found'
    cases found'
    exact .inr (.inr (.inr (.inr ⟨_, _, _, _, _, rule, rfl, asked, asked'⟩)))

theorem bounds_acts
    (found : body.values[value]? = some (.instr op args classes)) (acts : op.acts)
    (bounds : body.Bounds value i) : i = .unbounded := by
  have rule := @boundRule_acts body op acts args
  rcases bounds.of_instr found with whole | ⟨bits, same, -⟩ | fixed | ⟨_, _, _, one, -⟩ |
    ⟨_, _, _, _, _, two, -⟩
  · exact whole
  · rw [same] at acts
    cases acts
  · rw [rule] at fixed
    exact (BoundRule.fixed.inj fixed).symm
  · rw [rule] at one
    cases one
  · rw [rule] at two
    cases two

variable {operands : List (Datum Real)} {datum : Datum Real}

theorem leavesOf_bin {op : KernelBin}
    (left : (KernelInstr.bin .int op).leavesOf floats operands = some datum) :
    ∃ a b, operands = [.int a, .int b] ∧ op.onInts a b = some datum := by
  rcases operands with _ | ⟨a, _ | ⟨b, _ | ⟨c, rest⟩⟩⟩
  · cases left
  · cases a <;> cases left
  · cases a <;> cases b <;> first
      | exact ⟨_, _, rfl, left⟩
      | cases left
  · cases a <;> cases b <;> cases left

theorem leavesOf_select (left : KernelInstr.select.leavesOf floats operands = some datum) :
    ∃ a b held, operands = [a, b, .condition held] ∧ datum = if held then a else b := by
  rcases operands with _ | ⟨a, _ | ⟨b, _ | ⟨c, _ | ⟨d, rest⟩⟩⟩⟩
  · cases left
  · cases left
  · cases left
  · cases c with
    | condition held => exact ⟨a, b, held, rfl, (some.inj left).symm⟩
    | int bits => cases left
    | float number => cases left
  · cases c <;> cases left

theorem leavesOf_wrap (left : KernelInstr.i32WrapI64.leavesOf floats operands = some datum) :
    ∃ held, datum = .condition held := by
  rcases operands with _ | ⟨a, _ | ⟨b, rest⟩⟩
  · cases left
  · cases a with
    | int bits =>
      obtain ⟨held, -, same⟩ := map_eq_some_iff.1 left
      exact ⟨held, same.symm⟩
    | float number => cases left
    | condition held => cases left
  · cases a <;> cases left

theorem onInts_comparison {op : KernelBin} (compares : op.isComparison) {a b : BitVec 64}
    (left : op.onInts a b = some datum) : ∃ held, datum = .ofBool held := by
  cases op <;> first
    | exact ⟨_, (some.inj left).symm⟩
    | cases compares

theorem fixed_bin_holds {op : KernelBin} (rule : body.boundRule (.bin .int op) args = .fixed i)
    (left : (KernelInstr.bin .int op).leavesOf floats operands = some datum) : i.Holds datum := by
  have answer : i = if op.isComparison then ⟨0, 1⟩ else .unbounded := by
    cases op <;> first
      | exact (BoundRule.fixed.inj rule).symm
      | cases rule
  rw [answer]
  obtain ⟨a, b, -, left⟩ := leavesOf_bin left
  by_cases compares : op.isComparison
  · obtain ⟨held, same⟩ := onInts_comparison compares left
    rw [if_pos compares, same]
    exact Interval.holds_ofBool held
  · rw [if_neg compares]
    exact Interval.holds_unbounded datum

theorem fixed_holds (rule : body.boundRule op args = .fixed i)
    (left : op.leavesOf floats operands = some datum) : i.Holds datum := by
  have whole (same : BoundRule.fixed .unbounded = .fixed i) : i.Holds datum :=
    BoundRule.fixed.inj same ▸ Interval.holds_unbounded datum
  cases op with
  | bin stated operator =>
    cases stated with
    | int => exact fixed_bin_holds rule left
    | float => exact whole rule
    | bFloat16 => exact whole rule
  | i32WrapI64 =>
    obtain ⟨held, same⟩ := leavesOf_wrap left
    rw [same, ← BoundRule.fixed.inj rule]
    exact ⟨rfl, Nat.le_refl _⟩
  | select => cases rule
  | _ => exact whole rule

/-- A rule that reads its first operand bounds what a quotient or a remainder leaves. -/
theorem one_holds {position : Nat}
    {answer : Interval → Interval} (rule : body.boundRule op args = .one position answer)
    (left : op.leavesOf floats operands = some datum)
    (known : ∀ m b, body.constant args[1]? = some m → operands[1]? = some (.int b) → b.toNat = m)
    (inside : ∀ operand, operands[position]? = some operand → i.Holds operand) :
    (answer i).Holds datum := by
  cases op with
  | bin stated operator =>
    cases stated with
    | int =>
      obtain ⟨a, b, rfl, computed⟩ := leavesOf_bin left
      cases operator with
      | div =>
        cases rule
        have dividend := inside (.int a) rfl
        unfold KernelBin.onInts at computed
        dsimp only at computed
        split at computed
        · cases computed
        · rw [← some.inj computed]
          exact Interval.holds_quotient dividend
      | rem =>
        cases rule
        have dividend := inside (.int a) rfl
        unfold KernelBin.onInts at computed
        dsimp only at computed
        split at computed
        · cases computed
        · rw [← some.inj computed]
          exact Interval.holds_modulo (fun m found => known m b found rfl) dividend
      | _ => cases rule
    | float => cases rule
    | bFloat16 => cases rule
  | _ => cases rule

/-- A rule that reads two operands bounds what the instruction leaves, where a select does not
leave an integer above what the rule reads. -/
theorem two_holds {first second : Nat}
    {answer : Interval → Interval → Interval} {j : Interval} (rule :
    body.boundRule op args = .two first second answer)
    (left : op.leavesOf floats operands = some datum)
    (inside : ∀ operand, operands[first]? = some operand → i.Holds operand)
    (inside' : ∀ operand, operands[second]? = some operand → j.Holds operand)
    (kept : ∀ n b, op = .select → operands = [.int n, b, .condition true] →
      n.toNat ≤ 1 ∨ ∃ m, b = .int m ∧ n.toNat ≤ m.toNat) :
    (answer i j).Holds datum := by
  cases op with
  | bin stated operator =>
    cases stated with
    | int =>
      obtain ⟨a, b, rfl, computed⟩ := leavesOf_bin left
      cases operator with
      | add =>
        cases rule
        cases computed
        exact Interval.holds_plus (inside (.int a) rfl) (inside' (.int b) rfl)
      | mul =>
        cases rule
        cases computed
        exact Interval.holds_times (inside (.int a) rfl) (inside' (.int b) rfl)
      | max =>
        cases rule
        cases computed
        exact Interval.holds_larger (inside (.int a) rfl) (inside' (.int b) rfl)
      | min =>
        cases rule
        cases computed
        exact Interval.holds_smaller (inside (.int a) rfl) (inside' (.int b) rfl)
      | _ => cases rule
    | float => cases rule
    | bFloat16 => cases rule
  | select =>
    obtain ⟨a, b, held, rfl, same⟩ := leavesOf_select left
    cases rule
    have other := inside b rfl
    have truth := inside' (.condition held) rfl
    cases held with
    | false =>
      rw [same, if_neg Bool.false_ne_true]
      exact Interval.holds_join other
    | true =>
      rw [same, if_pos rfl]
      cases a with
      | float number => trivial
      | condition held => exact Interval.holds_join_right truth
      | int n =>
        show min i.low j.low ≤ n.toNat ∧ n.toNat ≤ max i.high j.high
        have low := truth.1
        have high := truth.2
        rcases kept n b rfl rfl with small | ⟨m, rfl, below⟩
        · omega
        · have most := other.2
          omega
  | _ => cases rule

/-- What an instruction leaves is inside each of its bounds. -/
theorem computed_holds {bound : ValueId → Datum Real}
    (found : body.values[value]? = some (.instr op args classes))
    (inside : ∀ arg ∈ args, ∀ i, body.Bounds arg i → i.Holds (bound arg))
    (left : op.leavesOf floats (args.map bound) = some datum)
    (kept : ∀ n b, op = .select → args.map bound = [.int n, b, .condition true] →
      n.toNat ≤ 1 ∨ ∃ m, b = .int m ∧ n.toNat ≤ m.toNat) (bounds : body.Bounds value i) :
    i.Holds datum := by
  have operand {position : Nat} {i : Interval}
      (asked : ∀ arg, args[position]? = some arg → body.Bounds arg i) (operand : Datum Real)
      (given : (args.map bound)[position]? = some operand) : i.Holds operand := by
    rw [getElem?_map] at given
    obtain ⟨arg, at_, same⟩ := map_eq_some_iff.1 given
    rw [← same]
    exact inside arg (mem_of_getElem? at_) i (asked arg at_)
  rcases bounds.of_instr found with rfl | ⟨bits, rfl, rfl⟩ | rule |
    ⟨position, answer, first, rule, rfl, asked⟩ |
    ⟨position, position', answer, first, second, rule, rfl, asked, asked'⟩
  · exact Interval.holds_unbounded datum
  · cases given : args.map bound with
    | nil =>
      rw [given] at left
      rw [← some.inj left]
      exact ⟨Nat.le_refl _, Nat.le_refl _⟩
    | cons operand rest =>
      rw [given] at left
      cases left
  · exact fixed_holds rule left
  · refine one_holds rule left (fun m b stands given => ?_) (operand asked)
    rw [getElem?_map] at given
    obtain ⟨arg, at_, same⟩ := map_eq_some_iff.1 given
    rw [at_] at stands
    unfold constant at stands
    split at stands
    · next bits _ _ stated =>
      have exact_ := inside arg (mem_of_getElem? at_) _ (.const stated)
      rw [same] at exact_
      have low := exact_.1
      have high := exact_.2
      rw [← some.inj stands]
      exact Nat.le_antisymm high low
    · cases stands
  · exact two_holds rule left (operand asked) (operand asked') kept

variable {state : LaneState Real}

/-- Executing a listed value keeps what is bound inside its bounds. -/
theorem Bounded.execute (bounded : body.Bounded state)
    {after : Frame (Datum Real)} (listed : body.nextListed state = some value)
    (ready : ∀ arg ∈ body.operands value, arg ∈ state.bound)
    (performed : body.performOne floats domain reply state.frame value = some after)
    (kept : body.SelectKept state) :
    body.Bounded ⟨after, state.position + 1, body.leaves value ++ state.bound⟩ := by
  intro other member i bounds
  unfold performOne at performed
  unfold leaves at member
  unfold operands at ready
  cases found : body.values[value]? with
  | none =>
    rw [found] at performed member
    rw [← some.inj performed]
    exact bounded other member i bounds
  | some definition =>
    rw [found] at performed member ready
    cases definition with
    | blockParam block index =>
      rw [← some.inj performed]
      exact bounded other member i bounds
    | instr op args classes =>
      dsimp only at performed member ready ⊢
      have updated (datum : Datum Real) (own : other = value → i.Holds datum)
          (rest : other ≠ value → other ∈ state.bound) :
          i.Holds (Function.update state.frame.bound value datum other) := by
        by_cases same : other = value
        · subst same
          rw [Function.update_self]
          exact own rfl
        · rw [Function.update_of_ne same]
          exact bounded other (rest same) i bounds
      have rest (apart : other ≠ value) : other ∈ state.bound := by
        rcases mem_append.1 member with own | before
        · split at own
          · cases own
          · exact absurd (mem_singleton.1 own) apart
        · exact before
      by_cases acts : op.acts
      · rw [if_pos acts] at performed
        split at performed
        · rw [← some.inj performed]
          by_cases nothing : op.produces = 0
          · rw [if_pos nothing] at member ⊢
            exact bounded other member i bounds
          · rw [if_neg nothing]
            refine updated _ (fun same => ?_) rest
            rw [bounds_acts (same ▸ found) acts bounds]
            exact Interval.holds_unbounded _
        · cases performed
      · rw [if_neg acts] at performed
        obtain ⟨datum, left, same⟩ := map_eq_some_iff.1 performed
        rw [← same]
        refine updated datum (fun own => ?_) rest
        subst own
        apply computed_holds found (fun arg member => bounded arg (ready arg member)) left _ bounds
        intro n b select operands
        rw [select] at found
        rcases args with _ | ⟨x, _ | ⟨y, _ | ⟨z, _ | ⟨w, args⟩⟩⟩⟩
        · cases operands
        · exact absurd (congrArg List.length operands) (by simp)
        · exact absurd (congrArg List.length operands) (by simp)
        · simp only [map_cons, map_nil, List.cons.injEq, and_true] at operands
          rw [← operands.2.1]
          exact kept other x y z classes n listed found operands.2.2 operands.1
        · exact absurd (congrArg List.length operands) (by simp)

section

variable (received : ParamsReceived body.blocks body.values)

include received

theorem Bounded.transfer (bounded : body.Bounded state) (branch : Br) :
    body.Bounded ⟨body.arrive branch state.frame, 0,
      (body.block branch.target).params.take branch.args.length ++ state.bound⟩ := by
  intro value member i bounds
  by_cases param : value ∈ (body.block branch.target).params
  · obtain ⟨block, index, found⟩ := params_found received param
    rw [bounds_param found bounds]
    exact Interval.holds_unbounded _
  · show i.Holds (receive _ _ state.frame.bound value)
    rw [receive_outside param]
    rcases mem_append.1 member with taken | before
    · exact absurd (mem_of_mem_take taken) param
    · exact bounded value before i bounds

theorem bounded_start (args : List (Datum Real)) : body.Bounded (body.laneStart args) := by
  intro value member i bounds
  obtain ⟨block, index, found⟩ := params_found received (mem_of_mem_take member)
  rw [bounds_param found bounds]
  exact Interval.holds_unbounded _

theorem LaneRuns.bounded {args : List (Datum Real)}
    (runs : body.LaneRuns floats domain reply args state) : body.Bounded state := by
  induction runs with
  | refl => exact bounded_start received args
  | tail _ step ih =>
    obtain ⟨step, kept⟩ := step
    cases step with
    | execute listed ready performed => exact ih.execute listed ready performed kept
    | transfer finished taken ready departed => exact ih.transfer received _

end

end Lanes

end KernelBody

end LichenVm.KernelIr
