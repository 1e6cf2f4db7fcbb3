import LichenVm.FoldElements

/-! What a compiled datum function computes, whatever its operators mean. -/

open List Option

namespace LichenVm.FusionBridge

open Fusion KernelIr

/-- A meaning of the constants and the operators a datum function is replayed over. -/
structure Operations (V : Type) where
  constant : BitVec 64 → V
  apply : KernelBin → V → V → V

namespace Operations

variable {V : Type} (ops : Operations V) (stated : ScalarClass) (datum : V)

/-- The value of an expression at a datum. -/
def value : Expr F64 → Option V
  | .var name => if name = .DATUM then some datum else none
  | .unary _ _ => none
  | .constant literal => some (ops.constant (Identity.of literal stated).bits)
  | .binary operator left right => do
    let operator ← lowered operator
    let left ← value left
    let right ← value right
    some (ops.apply operator left right)

def step (values : List V) : Step → Option (List V)
  | .datum => some (values ++ [datum])
  | .constant bits => some (values ++ [ops.constant bits])
  | .binary operator left right => do
    let left ← values[left]?
    let right ← values[right]?
    some (values ++ [ops.apply operator left right])

def replayed (values : List V) (steps : List Step) : Option (List V) :=
  steps.foldlM (ops.step datum) values

/-- The last value the steps leave. -/
def last (steps : List Step) : Option V :=
  (ops.replayed datum [] steps).bind List.getLast?

/-- What the steps of an expression leave last, and what they leave just before it. -/
def leaves : Expr F64 → Option (V × Option V)
  | .var name => if name = .DATUM then some (datum, none) else none
  | .unary _ _ => none
  | .constant literal => some (ops.constant (Identity.of literal stated).bits, none)
  | .binary operator left right => do
    let operator ← lowered operator
    let left ← leaves left
    let right ← leaves right
    -- The left operand is read one step before the right one's last.
    some (ops.apply operator (right.2.getD left.1) right.1, some right.1)

/-- The operators of a body, over values traced to the elements they come from. -/
noncomputable def traced (stated : ScalarClass) : Operations Traced where
  constant bits := .plain (Number.literal bits stated)
  apply operator left right := Traced.meaning.compute (.bin stated operator) [left, right]

end Operations

/-- The replay leaves the value of the expression, whatever the operators mean. -/
def Computes (stated : ScalarClass) (expression : Expr F64) (steps : List Step) : Prop :=
  ∀ (V : Type) (ops : Operations V) (datum : V),
    ∃ v, ops.last datum steps = some v ∧ ops.value stated datum expression = some v

/-- Two expressions a body reads as one, at the class it computes in. -/
def alike (stated : ScalarClass) : Expr F64 → Expr F64 → Bool
  | .var name, .var other => name = other
  | .constant value, .constant other => (Identity.of value stated).bits = (Identity.of other stated).bits
  | .binary operator left right, .binary other left' right' =>
    operator = other && alike stated left left' && alike stated right right'
  | _, _ => false

def rightOperand : Expr F64 → Option (Expr F64)
  | .binary _ _ right => some right
  | _ => none

/-- Every compound right operand ends in what stands to its left. -/
def EndsInLeft (stated : ScalarClass) : Expr F64 → Prop
  | .constant _ => True
  | .var _ => True
  | .unary _ operand => EndsInLeft stated operand
  | .binary _ left right =>
    EndsInLeft stated left ∧ EndsInLeft stated right ∧
      ∀ last, rightOperand right = some last → alike stated left last = true

section Replays

variable {V : Type} {ops : Operations V} {stated : ScalarClass} {datum : V}

theorem replayed_append (values : List V) (steps more : List Step) :
    ops.replayed datum values (steps ++ more) =
      (ops.replayed datum values steps).bind fun reached => ops.replayed datum reached more :=
  foldlM_append

theorem replayed_singleton (values : List V) (step : Step) :
    ops.replayed datum values [step] = ops.step datum values step := by
  exact bind_fun_some _

/-- Steps in order are replayed as they are evaluated. -/
theorem replayed_evaluate {own : ScalarClass} {datum : Traced} (steps : List Step)
    (values : List Traced) (fits : stepsFit values.length steps) :
    (Operations.traced own).replayed datum values steps = some (evaluate own datum steps values) := by
  induction steps generalizing values with
  | nil => rfl
  | cons step steps ih =>
    have next : ∀ value : Traced, stepsFit (values.length + 1) steps →
        stepsFit (values ++ [value]).length steps := by
      intro value fits
      rw [length_append]
      exact fits
    cases step with
    | datum | constant bits => exact ih _ (next _ fits)
    | binary operator left right =>
      simp only [stepsFit, Bool.and_eq_true, decide_eq_true_eq] at fits
      obtain ⟨⟨first, second⟩, fits⟩ := fits
      have at_ : ∀ {index : Nat}, index < values.length →
          values[index]? = some (values.getD index default) := by
        intro index short
        rw [getD_eq_getElem?_getD, getElem?_eq_getElem short, getD_some]
      show (Option.bind (values[left]?.bind fun a => values[right]?.bind fun b => _) _) = _
      rw [at_ first, at_ second]
      exact ih _ (next _ fits)

theorem getElem?_before_last {α : Type} (items more : List α) (a b : α) :
    (items ++ [a] ++ more ++ [b])[(items ++ [a] ++ more).length - 1]? =
      some (more.getLast?.getD a) := by
  have short : (items ++ [a] ++ more).length - 1 < (items ++ [a] ++ more).length := by
    simp only [length_append, length_singleton]
    omega
  rw [getElem?_append_left short, ← List.getLast?_eq_getElem?, List.getLast?_append,
    List.getLast?_concat]
  cases more.getLast? <;> rfl

/-- What the steps an expression contributes leave, over the values of those before them. -/
theorem stepOf_replays (ops : Operations V) (datum : V) {expression : Expr F64} {steps compiled : List Step}
    (compiles : stepOf stated expression steps = some compiled) :
    ∃ own left, compiled = steps ++ own ∧ ops.leaves stated datum expression = some left ∧
      ∀ values : List V, values.length = steps.length → ∃ before,
        ops.replayed datum values own = some (values ++ before ++ [left.1]) ∧
        before.length + 1 = own.length ∧ before.getLast? = left.2 := by
  induction expression generalizing steps compiled with
  | constant literal =>
    refine ⟨_, _, (some.inj compiles).symm, rfl, fun values _ => ⟨[], ?_, rfl, rfl⟩⟩
    rw [replayed_singleton, append_nil]
    rfl
  | var name =>
    rw [stepOf] at compiles
    split at compiles
    · next slot =>
      refine ⟨_, _, (some.inj compiles).symm, if_pos slot, fun values _ => ⟨[], ?_, rfl, rfl⟩⟩
      rw [replayed_singleton, append_nil]
      rfl
    · cases compiles
  | unary operator operand => cases compiles
  | binary operator left right first second =>
    simp only [stepOf, bind_eq_bind, bind_eq_some_iff] at compiles
    obtain ⟨op, lowers, middle, leftSome, after, rightSome, same⟩ := compiles
    obtain ⟨own, a, rfl, leavesLeft, replaysLeft⟩ := first leftSome
    obtain ⟨more, b, rfl, leavesRight, replaysRight⟩ := second rightSome
    refine ⟨own ++ more ++ [.binary op (steps ++ own ++ more).length.pred.pred
      (steps ++ own ++ more).length.pred],
      (ops.apply op (b.2.getD a.1) b.1, some b.1), ?_, ?_, ?_⟩
    · exact (some.inj same).symm.trans (by simp only [append_assoc]; rfl)
    · rw [Operations.leaves, lowers, leavesLeft, leavesRight]
      rfl
    intro values length
    obtain ⟨before, replayed, count, last⟩ := replaysLeft values length
    obtain ⟨before', replayed', count', last'⟩ := replaysRight (values ++ before ++ [a.1])
      (by simp only [length_append, length_singleton]; omega)
    refine ⟨before ++ [a.1] ++ before' ++ [b.1], ?_, ?_, ?_⟩
    · -- The right operand left `before'` and its value; the index before that value is read.
      have size : (steps ++ own ++ more).length =
          (values ++ before ++ [a.1] ++ before').length + 1 := by
        simp only [length_append, length_singleton]
        omega
      rw [replayed_append, replayed_append, replayed, bind_some, replayed',
        bind_some, replayed_singleton, size]
      have read : (values ++ before ++ [a.1] ++ before' ++ [b.1])[
          ((values ++ before ++ [a.1] ++ before').length + 1).pred.pred]? =
          some (b.2.getD a.1) := by
        rw [← last', Nat.pred_succ]
        exact getElem?_before_last (values ++ before) before' a.1 b.1
      have read' : (values ++ before ++ [a.1] ++ before' ++ [b.1])[
          ((values ++ before ++ [a.1] ++ before').length + 1).pred]? = some b.1 := by
        rw [Nat.pred_succ, getElem?_concat_length]
      show (Option.bind _ fun x => Option.bind _ _) = _
      rw [read, read']
      simp only [bind_some, append_assoc]
    · simp only [length_append, length_singleton]
      omega
    · exact List.getLast?_concat

end Replays

section Compiled

variable {V : Type} {ops : Operations V} {stated : ScalarClass} {datum : V}

theorem last_compiled {expression : Expr F64} {steps : List Step}
    (compiles : compile expression stated = some steps) :
    ∃ left, ops.leaves stated datum expression = some left ∧ ops.last datum steps = some left.1 := by
  obtain ⟨own, left, rfl, leaves, replays⟩ := stepOf_replays ops datum compiles
  obtain ⟨before, replayed, -, -⟩ := replays [] rfl
  refine ⟨left, leaves, ?_⟩
  rw [Operations.last, replayed, bind_some, List.getLast?_concat]

theorem value_alike {first second : Expr F64} (same : alike stated first second) :
    ops.value stated datum first = ops.value stated datum second := by
  induction first generalizing second with
  | constant literal =>
    cases second with
    | constant other =>
      rw [Operations.value, Operations.value, of_decide_eq_true same]
    | _ => cases same
  | var name =>
    cases second with
    | var other => rw [of_decide_eq_true same]
    | _ => cases same
  | unary operator operand => cases same
  | binary operator left right ih ih' =>
    cases second with
    | binary other left' right' =>
      simp only [alike, Bool.and_eq_true, decide_eq_true_eq] at same
      obtain ⟨⟨rfl, first⟩, second⟩ := same
      rw [Operations.value, Operations.value, ih first, ih' second]
    | _ => cases same

theorem leaves_of_endsInLeft {expression : Expr F64} {left : V × Option V}
    (leaves : ops.leaves stated datum expression = some left) (ends : EndsInLeft stated expression) :
    ops.value stated datum expression = some left.1 ∧
      left.2 = (rightOperand expression).bind (ops.value stated datum) := by
  induction expression generalizing left with
  | constant literal =>
    cases leaves
    exact ⟨rfl, rfl⟩
  | var name =>
    rw [Operations.leaves] at leaves
    split at leaves
    · next slot =>
      cases leaves
      exact ⟨if_pos slot, rfl⟩
    · cases leaves
  | unary operator operand => cases leaves
  | binary operator first second ih ih' =>
    simp only [Operations.leaves, bind_eq_bind, bind_eq_some_iff] at leaves
    obtain ⟨op, lowers, a, leavesFirst, b, leavesSecond, same⟩ := leaves
    cases same
    obtain ⟨has, -⟩ := ih leavesFirst ends.1
    obtain ⟨has', before⟩ := ih' leavesSecond ends.2.1
    -- What the right operand's last step follows is the left operand, or alike it.
    have reads : b.2.getD a.1 = a.1 := by
      rw [before]
      cases rightmost : rightOperand second with
      | none => rfl
      | some last =>
        rw [bind_some, ← value_alike (ends.2.2 last rightmost), has, getD_some]
    refine ⟨?_, has'.symm⟩
    rw [Operations.value, lowers, has, has', reads]
    rfl

end Compiled

/-- What an expression means with no meaning of its operators but themselves. -/
inductive Written where
  | datum
  | constant (bits : BitVec 64)
  | binary (operator : KernelBin) (left right : Written)

def Written.operations : Operations Written where
  constant := .constant
  apply := .binary

section Written

variable {stated : ScalarClass} {op : KernelBin}

theorem lowered_injective {operator other : BinaryOp} (first : lowered operator = some op)
    (second : lowered other = some op) : operator = other := by
  cases operator <;> cases first <;> cases other <;> cases second <;> rfl

variable {expression : Expr F64}

theorem written_datum (has : Written.operations.value stated .datum expression = some .datum) :
    expression = .var .DATUM := by
  cases expression with
  | constant literal => cases has
  | var name =>
    rw [Operations.value] at has
    split at has
    · next slot => rw [slot]
    · cases has
  | unary operator operand => cases has
  | binary operator left right =>
    simp only [Operations.value, bind_eq_bind, bind_eq_some_iff] at has
    obtain ⟨op, -, a, -, b, -, same⟩ := has
    cases same

theorem written_constant {bits : BitVec 64}
    (has : Written.operations.value stated .datum expression = some (.constant bits)) :
    ∃ literal, expression = .constant literal ∧ (Identity.of literal stated).bits = bits := by
  cases expression with
  | constant literal => exact ⟨literal, rfl, Written.constant.inj (some.inj has)⟩
  | var name =>
    rw [Operations.value] at has
    split at has
    · cases has
    · cases has
  | unary operator operand => cases has
  | binary operator left right =>
    simp only [Operations.value, bind_eq_bind, bind_eq_some_iff] at has
    obtain ⟨op, -, a, -, b, -, same⟩ := has
    cases same

variable {a b : Written}

theorem written_binary
    (has : Written.operations.value stated .datum expression = some (.binary op a b)) :
    ∃ operator left right, expression = .binary operator left right ∧ lowered operator = some op ∧
      Written.operations.value stated .datum left = some a ∧
      Written.operations.value stated .datum right = some b := by
  cases expression with
  | constant literal => cases has
  | var name =>
    rw [Operations.value] at has
    split at has
    · cases has
    · cases has
  | unary operator operand => cases has
  | binary operator left right =>
    simp only [Operations.value, bind_eq_bind, bind_eq_some_iff] at has
    obtain ⟨op', lowers, a', first, b', second, same⟩ := has
    obtain ⟨rfl, rfl, rfl⟩ := Written.binary.inj (some.inj same)
    exact ⟨operator, left, right, rfl, lowers, first, second⟩

theorem alike_of_value {first second : Expr F64} {written : Written}
    (has : Written.operations.value stated .datum first = some written)
    (has' : Written.operations.value stated .datum second = some written) :
    alike stated first second := by
  induction written generalizing first second with
  | datum =>
    rw [written_datum has, written_datum has']
    rfl
  | constant bits =>
    obtain ⟨literal, rfl, same⟩ := written_constant has
    obtain ⟨other, rfl, same'⟩ := written_constant has'
    exact decide_eq_true (same.trans same'.symm)
  | binary op a b ih ih' =>
    obtain ⟨operator, left, right, rfl, lowers, leftHas, rightHas⟩ := written_binary has
    obtain ⟨other, left', right', rfl, lowers', leftHas', rightHas'⟩ := written_binary has'
    simp only [alike, Bool.and_eq_true, decide_eq_true_eq]
    exact ⟨⟨lowered_injective lowers lowers', ih leftHas leftHas'⟩, ih' rightHas rightHas'⟩

theorem value_rightOperand {last : Expr F64}
    (has : Written.operations.value stated .datum expression = some (.binary op a b))
    (rightmost : rightOperand expression = some last) :
    Written.operations.value stated .datum last = some b := by
  obtain ⟨operator, left, right, rfl, -, -, rightHas⟩ := written_binary has
  cases rightmost
  exact rightHas

theorem rightOperand_of_value
    (has : Written.operations.value stated .datum expression = some (.binary op a b)) :
    ∃ last, rightOperand expression = some last := by
  obtain ⟨operator, left, right, rfl, -⟩ := written_binary has
  exact ⟨right, rfl⟩

/-- Of two expressions written the same, both end their compound right operands in the left ones. -/
theorem EndsInLeft.of_value {first second : Expr F64} {written : Written}
    (has : Written.operations.value stated .datum first = some written)
    (has' : Written.operations.value stated .datum second = some written)
    (ends : EndsInLeft stated second) : EndsInLeft stated first := by
  induction written generalizing first second with
  | datum =>
    rw [written_datum has]
    trivial
  | constant bits =>
    obtain ⟨literal, rfl, -⟩ := written_constant has
    trivial
  | binary op a b ih ih' =>
    obtain ⟨operator, left, right, rfl, -, leftHas, rightHas⟩ := written_binary has
    obtain ⟨other, left', right', rfl, -, leftHas', rightHas'⟩ := written_binary has'
    refine ⟨ih leftHas leftHas' ends.1, ih' rightHas rightHas' ends.2.1, fun last rightmost => ?_⟩
    cases right with
    | binary inner first second =>
      cases rightmost
      obtain ⟨op', lowers, v, firstHas, w, secondHas, same⟩ := by
        simpa only [Operations.value, bind_eq_bind, bind_eq_some_iff] using rightHas
      cases same
      obtain ⟨last', rightmost'⟩ := rightOperand_of_value rightHas'
      have has := value_rightOperand rightHas' rightmost'
      rw [← value_alike (ends.2.2 last' rightmost'), leftHas'] at has
      exact alike_of_value leftHas (secondHas.trans has.symm)
    | _ => cases rightmost

theorem endsInLeft_of_leaves {left : Written × Option Written}
    (leaves : Written.operations.leaves stated .datum expression = some left)
    (has : Written.operations.value stated .datum expression = some left.1) :
    EndsInLeft stated expression ∧
      left.2 = (rightOperand expression).bind (Written.operations.value stated .datum) := by
  induction expression generalizing left with
  | constant literal =>
    cases leaves
    exact ⟨trivial, rfl⟩
  | var name =>
    rw [Operations.leaves] at leaves
    split at leaves
    · next slot =>
      cases leaves
      exact ⟨trivial, rfl⟩
    · cases leaves
  | unary operator operand => cases leaves
  | binary operator first second ih ih' =>
    simp only [Operations.leaves, bind_eq_bind, bind_eq_some_iff] at leaves
    obtain ⟨op, lowers, a, leavesFirst, b, leavesSecond, same⟩ := leaves
    cases same
    simp only [Operations.value, bind_eq_bind, bind_eq_some_iff] at has
    obtain ⟨op', lowers', v, firstHas, w, secondHas, equal⟩ := has
    obtain ⟨rfl, read, rfl⟩ := Written.binary.inj (some.inj equal)
    obtain ⟨secondEnds, before⟩ := ih' leavesSecond secondHas
    refine ⟨?_, secondHas.symm⟩
    cases rightmost : rightOperand second with
    | none =>
      rw [rightmost] at before
      rw [before] at read
      obtain ⟨firstEnds, -⟩ := ih leavesFirst (firstHas.trans (congrArg some read))
      exact ⟨firstEnds, secondEnds, fun last found => absurd (rightmost.symm.trans found) (by simp)⟩
    | some last =>
      -- The left operand is not read: it is written as what ends the right one is.
      rw [rightmost, bind_some] at before
      obtain ⟨lastHas, lastEnds⟩ : Written.operations.value stated .datum last = some v ∧
          EndsInLeft stated last := by
        cases second with
        | binary inner left right =>
          cases rightmost
          obtain ⟨op', lowers, u, -, w, lastHas, -⟩ := by
            simpa only [Operations.value, bind_eq_bind, bind_eq_some_iff] using
              secondHas
          rw [before, lastHas, getD_some] at read
          exact ⟨lastHas.trans (congrArg some read.symm), secondEnds.2.1⟩
        | _ => cases rightmost
      refine ⟨.of_value firstHas lastHas lastEnds, secondEnds, fun other found => ?_⟩
      cases rightmost.symm.trans found
      exact alike_of_value firstHas lastHas

end Written

/-- A compiled datum function computes its expression, whatever its operators mean, exactly where
every compound right operand ends in what stands to its left. -/
theorem computes_iff_endsInLeft {stated : ScalarClass} {expression : Expr F64} {steps : List Step}
    (compiles : compile expression stated = some steps) :
    Computes stated expression steps ↔ EndsInLeft stated expression := by
  constructor
  · intro computes
    obtain ⟨v, last, has⟩ := computes Written Written.operations .datum
    obtain ⟨left, leaves, last'⟩ := last_compiled compiles
    cases last'.symm.trans last
    exact (endsInLeft_of_leaves leaves has).1
  · intro ends V ops datum
    obtain ⟨left, leaves, last⟩ := last_compiled compiles
    exact ⟨left.1, last, (leaves_of_endsInLeft leaves ends).1⟩

theorem contribution_value {stated : ScalarClass} {expression : Expr F64} {steps : List Step}
    (compiles : compile expression stated = some steps) (ends : EndsInLeft stated expression)
    (buffers : Buffers stated) (slices : Slices) (position : Nat) (address : Traced) :
    (Operations.traced stated).value stated (fetched buffers slices position address) expression =
      some (contribution buffers slices (.function position expression) steps address) := by
  obtain ⟨left, leaves, last⟩ := @last_compiled _ (Operations.traced stated) stated
    (fetched buffers slices position address) _ _ compiles
  rw [Operations.last, replayed_evaluate steps [] (compile_fits compiles).1, bind_some] at last
  rw [(leaves_of_endsInLeft leaves ends).1]
  show some left.1 = some ((List.getLast? (evaluate _ _ steps [])).getD default)
  rw [last, getD_some]

/-- A chain that leans to the left is computed. -/
theorem computes_iff_endsInLeft_chain :
    Computes .float (.binary .sub (.binary .mul (.var .DATUM) (.constant F64.one)) (.constant F64.one))
      [.datum, .constant 0x3F800000, .binary .mul 0 1, .constant 0x3F800000, .binary .sub 2 3] ↔
    EndsInLeft .float
      (.binary .sub (.binary .mul (.var .DATUM) (.constant F64.one)) (.constant F64.one)) :=
  computes_iff_endsInLeft rfl

/-- The integers a body of that class computes over. -/
def words : Operations (BitVec 64) where
  constant bits := bits
  apply operator left right := (Number.wordBin left right operator).bits

/-- Of a difference in a difference, the outer one is taken of the inner one's own subtrahend. -/
theorem nested_difference_misread :
    compile (.binary .sub (.var .DATUM) (.binary .sub (.var .DATUM) (.constant F64.one))) .int =
        some [.datum, .datum, .constant 1, .binary .sub 1 2, .binary .sub 2 3] ∧
      words.last 5 [.datum, .datum, .constant 1, .binary .sub 1 2, .binary .sub 2 3] = some (-3) ∧
      words.value .int 5
        (.binary .sub (.var .DATUM) (.binary .sub (.var .DATUM) (.constant F64.one))) = some 1 ∧
      ¬ Computes .int (.binary .sub (.var .DATUM) (.binary .sub (.var .DATUM) (.constant F64.one)))
        [.datum, .datum, .constant 1, .binary .sub 1 2, .binary .sub 2 3] := by
  have last : words.last 5 [.datum, .datum, .constant 1, .binary .sub 1 2, .binary .sub 2 3] =
      some (-3) := by decide +kernel
  have has : words.value .int 5
      (.binary .sub (.var .DATUM) (.binary .sub (.var .DATUM) (.constant F64.one))) = some 1 := by
    decide +kernel
  refine ⟨rfl, last, has, fun computes => ?_⟩
  obtain ⟨v, last', has'⟩ := computes _ words 5
  have same := (last'.symm.trans last).symm.trans (has'.symm.trans has)
  exact absurd same (by decide)

end LichenVm.FusionBridge
