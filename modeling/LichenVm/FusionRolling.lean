import LichenVm.FusionDerive
import Mathlib.Data.List.Induction

/-! The emitted loop body, run over the data, against the two passes it stands for. -/

open List Option

namespace LichenVm.Fusion

open LoggedRun Scalars

variable {L K : Type} [Literal L] [Field K] [LinearOrder K]

section Passes

variable (S : Scalars L K)

/-- The producer's fold of a list of data. -/
def produced (operator : BinaryOp) (first : K) (rest : List K) : Option K :=
  rest.foldlM (binary operator) first

/-- The consumer's fold of the elements of a list of data, at one producer value. -/
def consumed (elementFunction : Expr L) (operator : BinaryOp) (r first : K) (rest : List K) : Option K :=
  (element S elementFunction first r).bind fun start =>
    rest.foldlM (fun t d => (element S elementFunction d r).bind (binary operator t)) start

/-- The whole producer pass, and then the whole consumer pass at its result. -/
def twoPass (producer : BinaryOp) (elementFunction : Expr L) (consumer : BinaryOp) (first : K)
    (rest : List K) : Option (K × K) :=
  (produced producer first rest).bind fun r =>
    (consumed S elementFunction consumer r first rest).map fun t => (r, t)

/-- One assignment of the loop body, over the values of the variables before it. -/
def Assignment.run (assignment : Assignment L) (at_ : Variable → K) : Option (Variable → K) :=
  (S.value at_ assignment.value).map fun v name => if name = assignment.target then v else at_ name

/-- The loop body's variables before a step. -/
def stepSlots (r t d : K) (name : Variable) : K :=
  if name = .PRODUCER then r else if name = .CONSUMER_STATE then t else if name = .DATUM then d else 0

/-- The loop body for one datum: the assignments in order, each seeing the ones before it. -/
def step (steps : List (Assignment L)) (state : K × K) (d : K) : Option (K × K) :=
  (steps.foldlM (fun at_ (assignment : Assignment L) => assignment.run S at_) (stepSlots state.1 state.2 d)).map
    fun at_ => (at_ .PRODUCER_NEXT, at_ .CONSUMER_NEXT)

/-- The fused loop: it starts at the first datum, and steps over each later one. -/
def rolling (steps : List (Assignment L)) (elementFunction : Expr L) (first : K) (rest : List K) :
    Option (K × K) :=
  (element S elementFunction first first).bind fun t => rest.foldlM (step S steps) (first, t)

theorem foldlM_snoc {A B : Type} {step : A → B → Option A} {start : A} {items : List B} {item : B} :
    (items ++ [item]).foldlM step start =
      (items.foldlM step start).bind fun reached => step reached item := by
  rw [foldlM_append]
  cases items.foldlM step start with
  | none => rfl
  | some reached => exact bind_pure (step reached item)

theorem produced_snoc {operator : BinaryOp} {first d : K} {rest : List K} :
    produced operator first (rest ++ [d]) =
      (produced operator first rest).bind fun r => binary operator r d :=
  foldlM_snoc

theorem consumed_snoc {elementFunction : Expr L} {operator : BinaryOp} {r first d : K} {rest : List K} :
    consumed S elementFunction operator r first (rest ++ [d]) =
      (consumed S elementFunction operator r first rest).bind fun t =>
        (element S elementFunction d r).bind (binary operator t) := by
  unfold consumed
  cases element S elementFunction first r with
  | none => rfl
  | some start => exact foldlM_snoc

theorem rolling_snoc {steps : List (Assignment L)} {elementFunction : Expr L} {first d : K}
    {rest : List K} :
    rolling S steps elementFunction first (rest ++ [d]) =
      (rolling S steps elementFunction first rest).bind fun state => step S steps state d := by
  unfold rolling
  cases element S elementFunction first first with
  | none => rfl
  | some t => exact foldlM_snoc

/-- The data on which nothing divides by zero or takes a logarithm outside its domain: the elements
at each producer value reached, and the repair of each of them and of each of their folds. -/
structure InDomain (producer : BinaryOp) (elementFunction : Expr L) (consumer : BinaryOp)
    (repair : Expr L) (first : K) (rest : List K) : Prop where
  elements : ∀ {seen : List K} {r : K}, seen <+: rest → produced producer first seen = some r →
    ∀ d ∈ first :: seen, ∃ a, element S elementFunction d r = some a
  repairs : ∀ {seen : List K} {d r r' : K}, seen ++ [d] <+: rest →
    produced producer first seen = some r → produced producer first (seen ++ [d]) = some r' →
    ∀ before ∈ first :: seen, ∀ a, element S elementFunction before r = some a →
      ∃ b, S.value (slots a r r') repair = some b
  folds : ∀ {seen some_ : List K} {d r r' : K}, seen ++ [d] <+: rest → some_ <+: seen →
    produced producer first seen = some r → produced producer first (seen ++ [d]) = some r' →
    ∀ t, consumed S elementFunction consumer r first some_ = some t →
      ∃ b, S.value (slots t r r') repair = some b

end Passes

section Derivation

variable (S : Scalars L K)

/-- A canonical form that has every value the expression has. -/
def Keeping (expr canonical : Expr L) : Prop :=
  ∀ at_ v, S.value at_ expr = some v → S.value at_ canonical = some v

/-- What a derivation is known to have checked and written. -/
structure Derived (producer : BinaryOp) (elementFunction : Expr L) (consumer : BinaryOp)
    (fused : FusedReduction L) : Prop where
  abstracts : abstractElementFunction elementFunction .PRODUCER = .ok fused.abstraction
  inverts : invert fused.abstraction.template (.var .PARAMETER) .REPAIR_ARGUMENT = .ok fused.inverse
  inside : Over IsSlot (repairBody fused.abstraction fused.inverse)
  within : Over IsSlot fused.repair.body
  keeps : Keeping S (repairBody fused.abstraction fused.inverse) fused.repair.body
  distributes : ∀ r r' x y xy a b ab c, binary consumer x y = some xy →
    fused.repair.repaired S r r' x = some a → fused.repair.repaired S r r' y = some b →
    binary consumer a b = some ab → fused.repair.repaired S r r' xy = some c → c = ab
  emits : ∃ first second, fused.steps = [⟨.PRODUCER_NEXT, first⟩, ⟨.CONSUMER_NEXT, second⟩] ∧
    Keeping S (.binary producer (.var .PRODUCER) (.var .DATUM)) first ∧
    Keeping S (.binary consumer
      (fused.repair.apply (.var .CONSUMER_STATE) (.var .PRODUCER) (.var .PRODUCER_NEXT))
      (substituteAll elementFunction [(.PRODUCER, .var .PRODUCER_NEXT)])) second

variable {S} [IsStrictOrderedRing K]

omit [Literal L] in
theorem meets_ofExcept {A B : Type} {sound : Rewrite L → Prop} {result : Except (FusionRefusal L) A}
    {next : A → Deriver L B} {good : B → Unit → Prop}
    (goes : ∀ a, result = .ok a → Meets sound (next a) () good fun _ _ => True) :
    Meets sound (ofExcept result >>= next) () good fun _ _ => True := by
  cases result with
  | ok a => exact meets_step rfl (goes a rfl)
  | error refusal => exact meets_bind (meets_stop trivial)

omit [Literal L] in
theorem over_of_outside {body : Expr L} (none : (body.freeVariables.filter fun name =>
      name ∉ [Variable.REPAIR_ARGUMENT, .PRODUCER, .PRODUCER_NEXT]) = []) : Over IsSlot body := by
  intro name member
  have listed : name ∈ body.freeVariables :=
    (mem_insertionSort _).2 (mem_dedup.2 member)
  have slot := filter_eq_nil_iff.1 none name listed
  simp only [decide_not, Bool.not_eq_true', decide_eq_false_iff_not, not_not] at slot
  simpa [IsSlot] using slot

/-- A derivation that answers, whose rewritings are all exact, checked and wrote what it should. -/
theorem derive_meets (fuel : Nat) (producer consumer : Reduction L) (elementFunction : Expr L) :
    Meets (Rewrite.Exact S) (derive fuel producer elementFunction consumer) ()
      (fun fused _ => Derived S producer.combine elementFunction consumer.combine fused)
      fun _ _ => True := by
  apply meets_ofExcept
  intro abstraction abstracts
  apply meets_ofExcept
  intro inverse inverted
  have inverts : invert abstraction.template (.var .PARAMETER) .REPAIR_ARGUMENT = .ok inverse := by
    revert inverted
    cases invert abstraction.template (.var .PARAMETER) .REPAIR_ARGUMENT with
    | ok solution => exact fun inverted => congrArg Except.ok (Except.ok.inj inverted)
    | error cause => exact fun inverted => nomatch inverted
  apply meets_bind
  unfold RepairFunction.new
  dsimp only
  split
  · next none =>
    have inside := over_of_outside none
    apply meets_bind
    refine Meets.mono (canonicalize_meets S fuel _) (fun body _ canonical => ?_) fun _ _ _ => trivial
    have within : Over IsSlot body := canonical.2 _ inside
    refine meets_pure (meets_bind ?_)
    apply meets_bind
    refine Meets.mono (distributivity_meets (show Over IsSlot (RepairFunction.mk body).body from within) fuel _)
      (fun _ _ distributes => ?_) fun _ _ _ => trivial
    apply meets_bind
    refine Meets.mono (canonicalize_meets S fuel _) (fun first _ keepsFirst => ?_) fun _ _ _ => trivial
    apply meets_bind
    refine Meets.mono (canonicalize_meets S fuel _) (fun second _ keepsSecond => ?_) fun _ _ _ => trivial
    refine meets_pure (meets_pure ?_)
    exact ⟨abstracts, inverts, inside, within, canonical.1, distributes,
      first, second, rfl, keepsFirst.1, keepsSecond.1⟩
  · exact meets_stop trivial

end Derivation

section Agreement

variable {S : Scalars L K} {producer consumer : BinaryOp} {elementFunction : Expr L}
  {fused : FusedReduction L} {first : K} {rest : List K}

theorem Derived.repaired (derived : Derived S producer elementFunction consumer fused) {x r r' b : K}
    (worth : S.value (slots x r r') (repairBody fused.abstraction fused.inverse) = some b) :
    fused.repair.repaired S r r' x = some b :=
  derived.keeps _ b worth

section

variable (derived : Derived S producer elementFunction consumer fused)
  (reads : Over IsElementSlot elementFunction)

include derived reads

/-- Repairing a fold of the elements at one producer value gives their fold at the next. -/
theorem Derived.consumed_repaired {combine : K → K → K} (combines : Combines consumer combine)
    (domain : InDomain S producer elementFunction consumer
      (repairBody fused.abstraction fused.inverse) first rest) {seen some_ : List K}
    {d r r' t : K} (ahead : seen ++ [d] <+: rest) (within : some_ <+: seen)
    (before : produced producer first seen = some r)
    (after : produced producer first (seen ++ [d]) = some r')
    (folded : consumed S elementFunction consumer r first some_ = some t) :
    ∃ t', fused.repair.repaired S r r' t = some t' ∧
      consumed S elementFunction consumer r' first some_ = some t' := by
  -- On the elements folded: each one's repair is its value at the next producer value, and the
  -- repair of a combination is the combination of the repairs.
  have elementwise : ∀ e ∈ first :: seen, ∀ a, element S elementFunction e r = some a →
      ∃ b, fused.repair.repaired S r r' a = some b ∧ element S elementFunction e r' = some b := by
    intro e member a worth
    obtain ⟨b, repaired⟩ := domain.repairs ahead before after e member a worth
    exact ⟨b, derived.repaired repaired,
      repairBody_value reads derived.abstracts derived.inverts derived.inside worth repaired⟩
  induction some_ using List.reverseRecOn generalizing t with
  | nil =>
    have start : element S elementFunction first r = some t := by
      simpa [consumed] using folded
    obtain ⟨b, repaired, next⟩ := elementwise first mem_cons_self t start
    exact ⟨b, repaired, by simpa [consumed] using next⟩
  | append_singleton some_ e ih =>
    rw [consumed_snoc] at folded
    obtain ⟨t₀, earlier, folded⟩ := bind_eq_some_iff.1 folded
    obtain ⟨a, worth, folded⟩ := bind_eq_some_iff.1 folded
    have shorter : some_ <+: seen := (prefix_append _ _).trans within
    obtain ⟨b₀, repaired₀, next₀⟩ := ih shorter earlier
    have member : e ∈ first :: seen :=
      mem_cons_of_mem _ (within.subset (mem_append_right _ mem_cons_self))
    obtain ⟨b, repaired, next⟩ := elementwise e member a worth
    have whole : consumed S elementFunction consumer r first (some_ ++ [e]) = some t := by
      rw [consumed_snoc, earlier, bind_some, worth]
      exact folded
    obtain ⟨t', repaired'⟩ := domain.folds ahead within before after t whole
    have together := combines.binary b₀ b
    have same := derived.distributes r r' t₀ a t b₀ b _ t' folded repaired₀ repaired together
      (derived.repaired repaired')
    refine ⟨t', derived.repaired repaired', ?_⟩
    rw [consumed_snoc, next₀, bind_some, next, bind_some, together, same]

/-- One run of the emitted loop body. -/
theorem Derived.step_value {r t d r' t' e v : K} (next : binary producer r d = some r')
    (repaired : fused.repair.repaired S r r' t = some t')
    (worth : element S elementFunction d r' = some e) (combined : binary consumer t' e = some v) :
    step S fused.steps (r, t) d = some (r', v) := by
  obtain ⟨one, two, emitted, keepsOne, keepsTwo⟩ := derived.emits
  have first_ : S.value (stepSlots r t d) one = some r' := by
    apply keepsOne
    exact next
  let at_ : Variable → K := fun name => if name = .PRODUCER_NEXT then r' else stepSlots r t d name
  have elementAtNext :
      S.value at_ (substituteAll elementFunction [(.PRODUCER, .var .PRODUCER_NEXT)]) = some e := by
    rw [← worth]
    apply value_substitute
    intro name member
    rcases reads name member with rfl | rfl <;> rfl
  have second : S.value at_ two = some v := by
    apply keepsTwo
    rw [value, RepairFunction.apply_value derived.within (show S.value at_ _ = some t from rfl)
      (show S.value at_ _ = some r from rfl) (show S.value at_ _ = some r' from rfl), repaired,
      elementAtNext]
    exact combined
  rw [step, emitted, foldlM_cons, Assignment.run, first_]
  show Option.map _ (Assignment.run S ⟨.CONSUMER_NEXT, two⟩ at_ >>= _) = _
  rw [Assignment.run, second]
  rfl

/-- The loop reaches what the two passes do, after every datum. -/
theorem Derived.rolling_eq {fold combine : K → K → K} (folds : Combines producer fold)
    (combines : Combines consumer combine)
    (domain : InDomain S producer elementFunction consumer
      (repairBody fused.abstraction fused.inverse) first rest) {seen : List K}
    (ahead : seen <+: rest) :
    ∃ r t, produced producer first seen = some r ∧
      consumed S elementFunction consumer r first seen = some t ∧
      rolling S fused.steps elementFunction first seen = some (r, t) := by
  induction seen using List.reverseRecOn with
  | nil =>
    obtain ⟨t, start⟩ := domain.elements ahead rfl first mem_cons_self
    refine ⟨first, t, rfl, ?_, ?_⟩
    · simpa [consumed] using start
    · simp [rolling, start]
  | append_singleton seen d ih =>
    obtain ⟨r, t, before, folded, rolled⟩ := ih ((prefix_append _ _).trans ahead)
    have next := folds.binary r d
    have after : produced producer first (seen ++ [d]) = some (fold r d) := by
      rw [produced_snoc, before, bind_some, next]
    obtain ⟨t', repaired, folded'⟩ :=
      derived.consumed_repaired reads combines domain ahead prefix_rfl before after folded
    obtain ⟨e, worth⟩ := domain.elements ahead after d
      (mem_cons_of_mem _ (mem_append_right _ mem_cons_self))
    have combined := combines.binary t' e
    refine ⟨fold r d, combine t' e, after, ?_, ?_⟩
    · rw [consumed_snoc, folded', bind_some, worth, bind_some, combined]
    · rw [rolling_snoc, rolled, bind_some]
      exact derived.step_value reads next repaired worth combined

end

variable [IsStrictOrderedRing K]

/-- The combines a reduction may have. -/
def Reduces (operator : BinaryOp) : Prop :=
  operator = .add ∨ operator = .mul ∨ operator = .max ∨ operator = .min

theorem Reduces.combines {operator : BinaryOp} (reduces : Reduces operator) :
    ∃ combine : K → K → K, Combines operator combine := by
  rcases reduces with rfl | rfl | rfl | rfl
  · exact ⟨_, combines_add⟩
  · exact ⟨_, combines_mul⟩
  · exact ⟨_, combines_max⟩
  · exact ⟨_, combines_min⟩

end Agreement

section Demo

variable {S : Scalars L ℚ}

def Expr.decidableRational (S : Scalars L ℚ) : (expr : Expr L) → Decidable (expr.Rational S)
  | .constant literal =>
    decidable_of_iff ((S.read literal).isSome = true) isSome_iff_exists
  | .var _ => .isTrue trivial
  | .unary operator operand =>
    have := operand.decidableRational S
    inferInstanceAs (Decidable ((operator = .neg ∨ operator = .square ∨ operator = .relu) ∧
      operand.Rational S))
  | .binary operator left right =>
    have := left.decidableRational S
    have := right.decidableRational S
    inferInstanceAs (Decidable (operator ≠ .div ∧ left.Rational S ∧ right.Rational S))

instance (expr : Expr L) : Decidable (expr.Rational S) := expr.decidableRational S

theorem inDomain_of_rational {producer consumer : BinaryOp} {elementFunction repair : Expr L}
    (rational : elementFunction.Rational S) (rational' : repair.Rational S) (first : ℚ)
    (rest : List ℚ) : InDomain S producer elementFunction consumer repair first rest :=
  ⟨fun _ _ _ _ => rational.total _, fun _ _ _ _ _ _ _ => rational'.total _,
    fun _ _ _ _ _ _ => rational'.total _⟩

/-- One relation, or operands of a relation without a zero among them. -/
def Rewrite.plain : Rewrite L → Bool
  | .joined relations => relations == 1
  | .dropped operands => operands.all fun operand => !operand.isLiteral Literal.zero
  | _ => false

theorem Rewrite.exact_of_plain (S : Scalars L K) {rewrite : Rewrite L}
    (plain : rewrite.plain) : rewrite.Exact S := by
  cases rewrite with
  | joined relations => exact eq_of_beq plain
  | dropped operands =>
    left
    intro operand member
    simpa using all_eq_true.1 plain operand member
  | _ => cases plain

def SUM : Reduction ℚ := { combine := .add, identity := 0 }

def MAXIMUM : Reduction ℚ := { combine := .max, identity := 0 }

/-- The distance of a datum from the sum. -/
def DISTANCE : Expr ℚ := .binary .sub (.var .DATUM) (.var .PRODUCER)

/-- The distance of a datum from the square of the sum. -/
def SQUARE_DISTANCE : Expr ℚ :=
  .binary .sub (.var .DATUM) (.binary .mul (.var .PRODUCER) (.var .PRODUCER))

end Demo

end LichenVm.Fusion
