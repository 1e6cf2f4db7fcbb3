import LichenVm.FusionDistributes

/-! The derived rolling update computes what the two passes compute. -/

open List Option

namespace LichenVm.Fusion

open LoggedRun Scalars

variable {L K : Type} [Literal L] [Field K] [LinearOrder K]

section Occurrences

theorem same_refl_var (name : Variable) : (Expr.var name : Expr L).same (.var name) := by
  simp [Expr.same, Expr.cmp, Variable.cmp, compareOfLessAndEq]

variable (S : Scalars L K) {at_ : Variable → K}

theorem not_mem_of_occurrences {expr : Expr L} {name : Variable}
    (absent : expr.occurrences (.var name) = 0) : name ∉ expr.collectVariables := by
  induction expr with
  | constant literal => exact not_mem_nil
  | var other =>
    intro member
    obtain rfl := mem_singleton.1 member
    simp [Expr.occurrences, same_refl_var] at absent
  | unary operator operand ih =>
    simp only [Expr.occurrences] at absent
    exact ih (by omega)
  | binary operator left right ih ih' =>
    simp only [Expr.occurrences] at absent
    intro member
    rcases mem_append.1 member with first | second
    · exact ih (by omega) first
    · exact ih' (by omega) second

theorem value_of_occurrences {expr target : Expr L} {v : K} (occurs : expr.occurrences target ≠ 0)
    (worth : S.value at_ expr = some v) : ∃ k, S.value at_ target = some k := by
  have here : ∀ {node : Expr L} {v : K}, node.same target → S.value at_ node = some v →
      ∃ k, S.value at_ target = some k := by
    intro node v same worth
    exact ⟨v, same_eq S same ▸ worth⟩
  induction expr generalizing v with
  | constant literal | var other =>
    refine here ?_ worth
    by_contra apart
    simp [Expr.occurrences, apart] at occurs
  | unary operator operand ih =>
    by_cases same : (Expr.unary operator operand).same target
    · exact here same worth
    · obtain ⟨a, has, -⟩ := bind_eq_some_iff.1 worth
      exact ih (by simpa [Expr.occurrences, same] using occurs) has
  | binary operator left right ih ih' =>
    by_cases same : (Expr.binary operator left right).same target
    · exact here same worth
    · obtain ⟨a, has, worth⟩ := bind_eq_some_iff.1 worth
      obtain ⟨b, has', -⟩ := bind_eq_some_iff.1 worth
      have either : left.occurrences target ≠ 0 ∨ right.occurrences target ≠ 0 := by
        simp only [Expr.occurrences, same] at occurs
        simp only [Bool.toNat_false] at occurs
        omega
      rcases either with first | second
      · exact ih first has
      · exact ih' second has'

theorem value_replaceOnce {source replacement expr : Expr L}
    (same : S.value at_ replacement = S.value at_ source) :
    S.value at_ (replaceOnce source replacement expr) = S.value at_ expr := by
  have here : ∀ {node : Expr L}, node.same source →
      S.value at_ replacement = S.value at_ node := by
    intro node equal
    rw [same_eq S equal, same]
  induction expr with
  | constant literal | var name =>
    unfold replaceOnce
    split
    · next equal => exact here equal
    · rfl
  | unary operator operand ih =>
    unfold replaceOnce
    split
    · next equal => exact here equal
    · rw [value, value, ih]
  | binary operator left right ih ih' =>
    unfold replaceOnce
    split
    · next equal => exact here equal
    · rw [value, value, ih, ih']

/-- A producer-free subexpression reads what the expression does, but the producer's value. -/
theorem collectProducerFree_over {allowed : Variable → Prop} {expr source : Expr L}
    {producer : Variable} (reads : Over allowed expr)
    (free : source ∈ collectProducerFree producer expr) :
    Over (fun name => allowed name ∧ name ≠ producer) source := by
  have here : ∀ {node : Expr L}, Over allowed node → node.occurrences (.var producer) = 0 →
      Over (fun name => allowed name ∧ name ≠ producer) node := by
    intro node reads absent name member
    exact ⟨reads name member, fun same => not_mem_of_occurrences absent (same ▸ member)⟩
  induction expr with
  | constant literal =>
    rw [mem_singleton.1 free]
    exact over_constant literal
  | var name =>
    unfold collectProducerFree at free
    split at free
    · next absent =>
      rw [mem_singleton.1 free]
      exact here reads absent
    · cases free
  | unary operator operand ih =>
    unfold collectProducerFree at free
    split at free
    · next absent =>
      rw [mem_singleton.1 free]
      exact here reads absent
    · exact ih reads free
  | binary operator left right ih ih' =>
    unfold collectProducerFree at free
    split at free
    · next absent =>
      rw [mem_singleton.1 free]
      exact here reads absent
    · rcases mem_append.1 free with first | second
      · exact ih (over_binary.1 reads).1 first
      · exact ih' (over_binary.1 reads).2 second

end Occurrences

section Inversion

/-- The ways an expression is solved for a variable. -/
inductive Walks (parameter : Variable) : Expr L → Expr L → Expr L → Prop
  | here (rhs : Expr L) : Walks parameter (.var parameter) rhs rhs
  | unary {operator inverse : UnaryOp} {operand rhs solution : Expr L}
      (inverts : operator.inverse = some inverse)
      (below : Walks parameter operand (.unary inverse rhs) solution) :
      Walks parameter (.unary operator operand) rhs solution
  | addLeft {left right rhs solution : Expr L}
      (below : Walks parameter left (.binary .sub rhs left) solution) :
      Walks parameter (.binary .add left right) rhs solution
  | addRight {left right rhs solution : Expr L}
      (below : Walks parameter right (.binary .sub rhs right) solution) :
      Walks parameter (.binary .add left right) rhs solution
  | subLeft {left right rhs solution : Expr L}
      (below : Walks parameter left (.binary .add rhs right) solution) :
      Walks parameter (.binary .sub left right) rhs solution
  | subRight {left right rhs solution : Expr L}
      (below : Walks parameter right (.binary .sub left rhs) solution) :
      Walks parameter (.binary .sub left right) rhs solution
  | mulLeft {left right rhs solution : Expr L}
      (below : Walks parameter left (.binary .div rhs right) solution) :
      Walks parameter (.binary .mul left right) rhs solution
  | mulRight {left right rhs solution : Expr L}
      (below : Walks parameter right (.binary .div rhs left) solution) :
      Walks parameter (.binary .mul left right) rhs solution
  | divLeft {left right rhs solution : Expr L}
      (below : Walks parameter left (.binary .mul rhs right) solution) :
      Walks parameter (.binary .div left right) rhs solution
  | divRight {left right rhs solution : Expr L}
      (below : Walks parameter right (.binary .div left rhs) solution) :
      Walks parameter (.binary .div left right) rhs solution

variable (S : Scalars L K) {at_ : Variable → K} {parameter : Variable}
  {node rhs solution : Expr L}

include S in
theorem walks_of_walk (walked : walk (.var parameter) node rhs = .ok solution) :
    Walks parameter node rhs solution := by
  have here : ∀ {node : Expr L}, node.same (.var parameter) → rhs = solution →
      Walks parameter node rhs solution := by
    intro node same equal
    rw [same_eq S same, ← equal]
    exact .here rhs
  induction node generalizing rhs with
  | constant literal | var name =>
    unfold walk at walked
    split at walked
    · next same => exact here same (Except.ok.inj walked)
    · cases walked
  | unary operator operand ih =>
    unfold walk at walked
    split at walked
    · next same => exact here same (Except.ok.inj walked)
    split at walked
    · cases walked
    · next inverse inverts =>
      exact .unary inverts (ih walked fun same equal => by
        rw [same_eq S same, ← equal]
        exact .here _)
  | binary operator left right ih ih' =>
    have first : ∀ {rhs : Expr L}, walk (.var parameter) left rhs = .ok solution →
        Walks parameter left rhs solution := fun walked => ih walked fun same equal => by
      rw [same_eq S same, ← equal]
      exact .here _
    have second : ∀ {rhs : Expr L}, walk (.var parameter) right rhs = .ok solution →
        Walks parameter right rhs solution := fun walked => ih' walked fun same equal => by
      rw [same_eq S same, ← equal]
      exact .here _
    unfold walk at walked
    split at walked
    · next same => exact here same (Except.ok.inj walked)
    cases holds : decide (0 < left.occurrences (.var parameter)) with
    | true =>
      rw [holds] at walked
      cases operator with
      | add => exact .addLeft (first walked)
      | sub => exact .subLeft (first walked)
      | mul => exact .mulLeft (first walked)
      | div => exact .divLeft (first walked)
      | _ => cases walked
    | false =>
      rw [holds] at walked
      cases operator with
      | add => exact .addRight (second walked)
      | sub => exact .subRight (second walked)
      | mul => exact .mulRight (second walked)
      | div => exact .divRight (second walked)
      | _ => cases walked

section

variable (walks : Walks parameter node rhs solution)

include walks

omit [Literal L] in
theorem Walks.names : parameter ∈ node.collectVariables := by
  induction walks with
  | here rhs => exact mem_cons_self
  | unary _ _ ih => exact ih
  | addLeft _ ih | subLeft _ ih | mulLeft _ ih | divLeft _ ih => exact mem_append_left _ ih
  | addRight _ ih | subRight _ ih | mulRight _ ih | divRight _ ih => exact mem_append_right _ ih

omit [Literal L] in
theorem Walks.reads : ∀ name ∈ rhs.collectVariables, name ∈ solution.collectVariables := by
  induction walks with
  | here rhs => exact fun name => id
  | unary _ _ ih => exact ih
  | addLeft _ ih | addRight _ ih | subLeft _ ih | mulLeft _ ih | mulRight _ ih | divLeft _ ih =>
    exact fun name member => ih name (mem_append_left _ member)
  | subRight _ ih | divRight _ ih => exact fun name member => ih name (mem_append_right _ member)

/-- A solution with a value is of a right-hand side with one. -/
theorem Walks.defined {b : K} (worth : S.value at_ solution = some b) :
    ∃ a, S.value at_ rhs = some a := by
  have under : ∀ {operator : UnaryOp} {operand : Expr L},
      (∃ a, S.value at_ (.unary operator operand) = some a) → ∃ a, S.value at_ operand = some a := by
    rintro operator operand ⟨a, has⟩
    obtain ⟨c, first, -⟩ := bind_eq_some_iff.1 has
    exact ⟨c, first⟩
  have left_ : ∀ {operator : BinaryOp} {left right : Expr L},
      (∃ a, S.value at_ (.binary operator left right) = some a) → ∃ a, S.value at_ left = some a := by
    rintro operator left right ⟨a, has⟩
    obtain ⟨c, first, -⟩ := bind_eq_some_iff.1 has
    exact ⟨c, first⟩
  have right_ : ∀ {operator : BinaryOp} {left right : Expr L},
      (∃ a, S.value at_ (.binary operator left right) = some a) → ∃ a, S.value at_ right = some a := by
    rintro operator left right ⟨a, has⟩
    obtain ⟨c, -, has⟩ := bind_eq_some_iff.1 has
    obtain ⟨d, second, -⟩ := bind_eq_some_iff.1 has
    exact ⟨d, second⟩
  induction walks with
  | here rhs => exact ⟨b, worth⟩
  | unary _ _ ih => exact under (ih worth)
  | addLeft _ ih | addRight _ ih | subLeft _ ih | mulLeft _ ih | mulRight _ ih | divLeft _ ih =>
    exact left_ (ih worth)
  | subRight _ ih | divRight _ ih => exact right_ (ih worth)

/-- A solution that does not read the parameter has its value, where the right-hand side has the
value of the expression. -/
theorem Walks.solves (free : parameter ∉ solution.collectVariables) {a b : K}
    (worth : S.value at_ node = some a) (equal : S.value at_ rhs = some a)
    (solved : S.value at_ solution = some b) : b = at_ parameter := by
  induction walks generalizing a with
  | here rhs =>
    cases solved.symm.trans equal
    exact (some.inj worth).symm
  | @unary operator inverse operand rhs solution inverts below ih =>
    obtain ⟨c, has, applies⟩ := bind_eq_some_iff.1 worth
    refine ih free has ?_ solved
    rw [value, equal]
    cases operator with
    | neg =>
      cases inverts
      cases applies
      exact congrArg some (neg_neg c)
    | exp => cases inverts; exact S.ln_exp c a applies
    | ln => cases inverts; exact S.exp_ln c a applies
    | _ => cases inverts
  | addLeft below ih | addRight below ih =>
    exact absurd (below.reads _ (mem_append_right _ below.names)) free
  | subLeft below ih =>
    obtain ⟨c, d, first, second, rest⟩ := value_binary worth
    cases rest
    refine ih free first ?_ solved
    rw [value, equal, second]
    exact congrArg some (sub_add_cancel c d)
  | subRight below ih =>
    obtain ⟨c, d, first, second, rest⟩ := value_binary worth
    cases rest
    refine ih free second ?_ solved
    rw [value, first, equal]
    exact congrArg some (sub_sub_cancel c d)
  | mulLeft below ih =>
    obtain ⟨c, d, first, second, rest⟩ := value_binary worth
    cases rest
    obtain ⟨e, quotient⟩ := below.defined S solved
    rw [value, equal, second, bind_some, bind_some, binary] at quotient
    have nonzero : d ≠ 0 := fun zero => by rw [if_pos zero] at quotient; cases quotient
    refine ih free first ?_ solved
    rw [value, equal, second, bind_some, bind_some, binary, if_neg nonzero,
      mul_div_cancel_right₀ c nonzero]
  | mulRight below ih =>
    obtain ⟨c, d, first, second, rest⟩ := value_binary worth
    cases rest
    obtain ⟨e, quotient⟩ := below.defined S solved
    rw [value, equal, first, bind_some, bind_some, binary] at quotient
    have nonzero : c ≠ 0 := fun zero => by rw [if_pos zero] at quotient; cases quotient
    refine ih free second ?_ solved
    rw [value, equal, first, bind_some, bind_some, binary, if_neg nonzero,
      mul_div_cancel_left₀ d nonzero]
  | divLeft below ih =>
    obtain ⟨c, d, first, second, rest⟩ := value_binary worth
    rw [binary] at rest
    have nonzero : d ≠ 0 := fun zero => by rw [if_pos zero] at rest; cases rest
    rw [if_neg nonzero, some.injEq] at rest
    refine ih free first ?_ solved
    rw [value, equal, second, bind_some, bind_some, binary, ← rest, div_mul_cancel₀ c nonzero]
  | divRight below ih =>
    obtain ⟨c, d, first, second, rest⟩ := value_binary worth
    rw [binary] at rest
    have nonzero : d ≠ 0 := fun zero => by rw [if_pos zero] at rest; cases rest
    rw [if_neg nonzero, some.injEq] at rest
    obtain ⟨e, quotient⟩ := below.defined S solved
    rw [value, first, equal, bind_some, bind_some, binary] at quotient
    have known : a ≠ 0 := fun zero => by rw [if_pos zero] at quotient; cases quotient
    refine ih free second ?_ solved
    have back : c / a = d := by
      rw [← rest] at known ⊢
      have top : c ≠ 0 := fun zero => known (by rw [zero, zero_div])
      rw [div_div_cancel₀ top]
    rw [value, first, equal, bind_some, bind_some, binary, if_neg known, back]

end

end Inversion

section Repair

variable (S : Scalars L K)

/-- The slots of an element function, bound. -/
def elementSlots (d r : K) (name : Variable) : K :=
  if name = .DATUM then d else if name = .PRODUCER then r else 0

def IsElementSlot (name : Variable) : Prop := name = .DATUM ∨ name = .PRODUCER

/-- An element function, of a datum and the producer's value. -/
def element (elementFunction : Expr L) (d r : K) : Option K :=
  S.value (elementSlots d r) elementFunction

theorem abstraction_of_ok {elementFunction : Expr L} {producer : Variable}
    {abstraction : Abstraction L}
    (abstracts : abstractElementFunction elementFunction producer = .ok abstraction) :
    abstraction.source ∈ collectProducerFree producer elementFunction ∧
      elementFunction.occurrences abstraction.source ≠ 0 ∧
      abstraction.template =
        replaceOnce abstraction.source (.var .PARAMETER) elementFunction := by
  unfold abstractElementFunction at abstracts
  split at abstracts
  · cases abstracts
  split at abstracts
  · cases abstracts
  next source first =>
  dsimp only at abstracts
  split at abstracts
  · cases abstracts
  next once =>
  cases abstracts
  exact ⟨mem_of_head? first, by simp only; omega, rfl⟩

include S in
theorem walks_of_invert {expr inverse : Expr L} {parameter argument : Variable}
    (inverts : invert expr (.var parameter) argument = .ok inverse) :
    Walks parameter expr (.var argument) inverse := by
  unfold invert at inverts
  split at inverts
  · cases inverts
  · exact walks_of_walk S inverts
  · cases inverts

variable {bound : Variable → Option (Expr L)}

omit [Literal L] in
theorem mem_substitute {expr : Expr L} {name other : Variable}
    (reads : name ∈ expr.collectVariables)
    (member : other ∈ ((bound name).getD (.var name)).collectVariables) :
    other ∈ (expr.substitute bound).collectVariables := by
  induction expr with
  | constant literal => exact absurd reads not_mem_nil
  | var here =>
    rw [mem_singleton.1 reads] at member
    exact member
  | unary operator operand ih => exact ih reads
  | binary operator left right ih ih' =>
    rcases mem_append.1 reads with first | second
    · exact mem_append_left _ (ih first)
    · exact mem_append_right _ (ih' second)

variable {S} {at_ : Variable → K}

theorem value_of_substitute {expr : Expr L} {v : K}
    (worth : S.value at_ (expr.substitute bound) = some v) {name : Variable}
    (reads : name ∈ expr.collectVariables) :
    ∃ k, S.value at_ ((bound name).getD (.var name)) = some k := by
  induction expr generalizing v with
  | constant literal => exact absurd reads not_mem_nil
  | var here =>
    rw [mem_singleton.1 reads]
    exact ⟨v, worth⟩
  | unary operator operand ih =>
    obtain ⟨a, has, -⟩ := bind_eq_some_iff.1 worth
    exact ih has reads
  | binary operator left right ih ih' =>
    obtain ⟨a, has, rest⟩ := bind_eq_some_iff.1 worth
    obtain ⟨b, has', -⟩ := bind_eq_some_iff.1 rest
    rcases mem_append.1 reads with first | second
    · exact ih has first
    · exact ih' has' second

/-- The repair of an element's value is its value at the producer's next value. -/
theorem repairBody_value {elementFunction inverse : Expr L} {abstraction : Abstraction L}
    (reads : Over IsElementSlot elementFunction)
    (abstracts : abstractElementFunction elementFunction .PRODUCER = .ok abstraction)
    (inverts : invert abstraction.template (.var .PARAMETER) .REPAIR_ARGUMENT = .ok inverse)
    (inside : Over IsSlot (repairBody abstraction inverse)) {d r r' a b : K}
    (worth : element S elementFunction d r = some a)
    (repaired : S.value (slots a r r') (repairBody abstraction inverse) = some b) :
    element S elementFunction d r' = some b := by
  obtain ⟨free, occurs, template⟩ := abstraction_of_ok abstracts
  have walks := walks_of_invert S inverts
  obtain ⟨k, source⟩ := value_of_occurrences S occurs worth
  have sourceOver := collectProducerFree_over reads free
  -- The datum, the parameter's value and the three slots, all bound at once.
  let at_ : Variable → K := fun name =>
    if name = .DATUM then d else if name = .PARAMETER then k else slots a r r' name
  let later : Variable → K := fun name => if name = .PRODUCER then r' else at_ name
  have sourceAt : S.value at_ abstraction.source = some k := by
    rw [← source]
    apply value_congr
    intro name member
    obtain ⟨rfl | rfl, other⟩ := sourceOver name member
    · rfl
    · exact absurd rfl other
  have source_ : S.value at_ (.var .PARAMETER) = S.value at_ abstraction.source := sourceAt.symm
  have sourceLater : S.value later abstraction.source = some k := by
    rw [← sourceAt]
    apply value_congr
    intro name member
    exact if_neg (sourceOver name member).2
  have later_ : S.value later (.var .PARAMETER) = S.value later abstraction.source :=
    sourceLater.symm
  have templateAt : S.value at_ abstraction.template = some a := by
    rw [template, value_replaceOnce S source_, ← worth]
    apply value_congr
    intro name member
    rcases reads name member with rfl | rfl <;> rfl
  have bodyAt : S.value at_ (repairBody abstraction inverse) = some b := by
    rw [← repaired]
    apply value_congr
    intro name member
    rcases inside name member with rfl | rfl | rfl <;> rfl
  have unread : Variable.PARAMETER ∉ inverse.collectVariables := by
    intro member
    have bound : Variable.PARAMETER ∈ ((bindings [(Variable.PARAMETER, inverse),
        (.PRODUCER, .var .PRODUCER_NEXT)] .PARAMETER).getD (.var .PARAMETER)).collectVariables :=
      member
    have slot := inside _ (mem_substitute walks.names bound)
    revert slot
    unfold IsSlot
    decide
  obtain ⟨k', solved⟩ := value_of_substitute bodyAt walks.names
  have solution : S.value at_ inverse = some k := by
    have found := walks.solves S unread templateAt rfl solved
    rw [show k = k' from found.symm]
    exact solved
  have substituted : S.value at_ (repairBody abstraction inverse) =
      S.value later abstraction.template := by
    apply value_substitute
    intro name member
    by_cases parameter : name = .PARAMETER
    · subst parameter
      exact solution
    by_cases producer : name = .PRODUCER
    · subst producer
      rfl
    · have unbound : bindings [(Variable.PARAMETER, inverse), (.PRODUCER, .var .PRODUCER_NEXT)] name =
          none := by
        simp [bindings, Ne.symm parameter, Ne.symm producer]
      rw [unbound]
      show some (at_ name) = some (later name)
      rw [show later name = at_ name from if_neg producer]
  rw [← bodyAt, substituted, template, value_replaceOnce S later_]
  apply value_congr
  intro name member
  rcases reads name member with rfl | rfl <;> rfl

end Repair

end LichenVm.Fusion
