import LichenVm.FusionSound

/-! A canonical form reads no other variables than the expression it is of. -/

open List Option

namespace LichenVm.Fusion

open LoggedRun Literal

variable {L : Type}

/-- An expression that reads some variables only. -/
def Over (allowed : Variable → Prop) (expr : Expr L) : Prop :=
  ∀ name ∈ expr.collectVariables, allowed name

section Shapes

variable {allowed : Variable → Prop} {operand left right : Expr L} {operator : BinaryOp}
  {terms : List (Expr L)}

theorem over_constant (literal : L) : Over allowed (.constant literal) :=
  fun _ member => absurd member not_mem_nil

theorem over_unary {operator : UnaryOp} : Over allowed (.unary operator operand) ↔ Over allowed operand :=
  Iff.rfl

theorem over_binary :
    Over allowed (.binary operator left right) ↔ Over allowed left ∧ Over allowed right :=
  forall_mem_append

theorem flatten_over (reads : ∀ term ∈ terms, Over allowed term) :
    ∀ term ∈ flatten terms operator, Over allowed term := by
  intro term member
  obtain ⟨operand, listed, inside⟩ := mem_flatMap.1 member
  have holds := reads operand listed
  split at inside
  · split at inside
    · rcases mem_pair.1 inside with rfl | rfl
      · exact (over_binary.1 holds).1
      · exact (over_binary.1 holds).2
    · rw [mem_singleton.1 inside]
      exact holds
  · rw [mem_singleton.1 inside]
    exact holds

theorem relationOperands_over {relation : Relation} {term : Expr L} (reads : Over allowed term) :
    ∀ operand ∈ relationOperands relation term, Over allowed operand := by
  have leaf : ∀ {term : Expr L}, Over allowed term → ∀ operand ∈ [term], Over allowed operand :=
    fun holds operand member => mem_singleton.1 member ▸ holds
  induction term with
  | binary operator left right ihLeft ihRight =>
    unfold relationOperands
    split
    · intro operand member
      rcases mem_append.1 member with first | second
      · exact ihLeft (over_binary.1 reads).1 operand first
      · exact ihRight (over_binary.1 reads).2 operand second
    · exact leaf reads
  | constant literal => exact leaf reads
  | var name => exact leaf reads
  | unary operator operand ih => exact leaf reads

theorem relationParts_over {term : Expr L} {parts : Relation × List (Expr L)}
    (reads : Over allowed term) (found : relationParts term = some parts) :
    ∀ operand ∈ parts.2, Over allowed operand := by
  obtain ⟨operator, -, found⟩ := bind_eq_some_iff.1 found
  obtain ⟨relation, -, rfl⟩ := map_eq_some_iff.1 found
  exact relationOperands_over reads

variable [Literal L]

theorem sort_over (reads : ∀ term ∈ terms, Over allowed term) :
    ∀ term ∈ Expr.sort terms, Over allowed term := fun term member =>
  reads term ((perm_insertionSort _ _).mem_iff.1 member)

end Shapes

section Lists

variable {sound : Rewrite L → Prop} {allowed : Variable → Prop} {terms : List (Expr L)}

variable (operator : BinaryOp)

theorem finish_over (empty : L) (reads : ∀ term ∈ terms, Over allowed term) :
    Answers sound (finish operator empty terms) (Over allowed) := by
  induction terms with
  | nil => exact yields_pure (over_constant empty)
  | cons term terms ih =>
    obtain ⟨first, rest⟩ := forall_mem_cons.1 reads
    cases terms with
    | nil => exact yields_pure first
    | cons next others =>
      apply yields_bind (ih rest)
      intro node second
      apply yields_spend
      exact yields_pure (over_binary.2 ⟨first, second⟩)

theorem gatherConstants_over (literal : L → L → L) (accumulated : Option L)
    (reads : ∀ term ∈ terms, Over allowed term) :
    Answers sound (gatherConstants operator literal accumulated terms) fun gathered =>
      ∀ term ∈ gathered.2, Over allowed term := by
  induction terms generalizing accumulated with
  | nil =>
    unfold gatherConstants
    exact yields_pure fun _ member => absurd member not_mem_nil
  | cons term terms ih =>
    obtain ⟨first, rest⟩ := forall_mem_cons.1 reads
    have others : ∀ accumulated, Answers sound
        (gatherConstants operator literal accumulated terms >>= fun gathered =>
          pure (gathered.1, term :: gathered.2)) fun gathered =>
            ∀ term ∈ gathered.2, Over allowed term := by
      intro accumulated
      apply yields_bind (ih accumulated rest)
      intro gathered holds
      exact yields_pure (forall_mem_cons.2 ⟨first, holds⟩)
    cases term with
    | constant value =>
      cases accumulated with
      | none => unfold gatherConstants; exact ih (some value) rest
      | some previous =>
        unfold gatherConstants
        apply yields_note
        exact fun _ => ih _ rest
    | var name | unary inner operand | binary inner left right =>
      unfold gatherConstants; exact others accumulated

theorem foldConstants_over (literal : L → L → L) (reads : ∀ term ∈ terms, Over allowed term) :
    Answers sound (foldConstants operator literal terms) fun folded =>
      ∀ term ∈ folded, Over allowed term := by
  unfold foldConstants
  apply yields_bind (gatherConstants_over operator literal none reads)
  intro gathered holds
  apply yields_pure
  intro term member
  rcases mem_append.1 member with rest | last
  · exact holds term rest
  · obtain ⟨value, -, rfl⟩ := mem_map.1 last
    exact over_constant value

variable [Literal L]

theorem cancelFrom_over (steps index : Nat) (reads : ∀ term ∈ terms, Over allowed term) :
    Answers sound (cancelFrom steps index terms) fun kept => ∀ term ∈ kept, Over allowed term := by
  induction steps generalizing index terms with
  | zero => exact yields_pure reads
  | succ steps ih =>
    unfold cancelFrom
    split
    · exact yields_pure reads
    split
    · exact ih (index + 1) reads
    · apply yields_note
      intro _
      exact ih index fun term member =>
        reads term (mem_of_mem_eraseIdx (mem_of_mem_eraseIdx member))

theorem additiveSum_over (reads : ∀ term ∈ terms, Over allowed term) :
    Answers sound (additiveSum terms) (Over allowed) := by
  unfold additiveSum
  apply yields_bind (cancelFrom_over _ 0 (sort_over reads))
  exact fun kept holds => finish_over .add zero holds

theorem buildSumTerms_over {builder : List (Expr L) → Builder L (Expr L)}
    (builds : ∀ kept, (∀ term ∈ kept, Over allowed term) →
      Answers sound (builder kept) (Over allowed))
    (reads : ∀ term ∈ terms, Over allowed term) :
    Answers sound (buildSumTerms builder terms) (Over allowed) := by
  unfold buildSumTerms
  apply yields_bind (foldConstants_over .add add reads)
  intro folded holds
  apply yields_bind (cancelFrom_over _ 0 (sort_over fun term member =>
    holds term (mem_of_mem_filter member)))
  intro kept holds
  split
  · exact builds kept holds
  · exact additiveSum_over holds

theorem buildRelation_over (relation : Relation) (reads : ∀ term ∈ terms, Over allowed term) :
    Answers sound (buildRelation terms relation) (Over allowed) := by
  unfold buildRelation
  apply yields_note
  intro _
  exact finish_over relation.operator zero fun term member =>
    reads term (mem_of_mem_filter member)

end Lists

section Recursion

variable [Literal L] (sound : Rewrite L → Prop) (allowed : Variable → Prop)

/-- Every builder answers an expression over the variables it was given. -/
structure Closed (fuel : Nat) : Prop where
  build : ∀ {expr : Expr L}, Over allowed expr → Answers sound (build fuel expr) (Over allowed)
  buildUnary : ∀ {operator : UnaryOp} {operand : Expr L}, Over allowed operand →
    Answers sound (buildUnary fuel operator operand) (Over allowed)
  buildBinary : ∀ {operator : BinaryOp} {left right : Expr L}, Over allowed left →
    Over allowed right → Answers sound (buildBinary fuel operator left right) (Over allowed)
  buildComparison : ∀ {operator : BinaryOp} {left right : Expr L}, Over allowed left →
    Over allowed right → Answers sound (buildComparison fuel operator left right) (Over allowed)
  buildSum : ∀ {terms : List (Expr L)}, (∀ term ∈ terms, Over allowed term) →
    Answers sound (buildSum fuel terms) (Over allowed)
  signedTerm : ∀ {term : Expr L}, Over allowed term →
    Answers sound (signedTerm fuel term) (Over allowed)
  recursiveSum : ∀ {terms : List (Expr L)}, (∀ term ∈ terms, Over allowed term) →
    Answers sound (recursiveSum fuel terms) (Over allowed)
  distributeKey : ∀ {operand key : Expr L}, Over allowed operand → Over allowed key →
    Answers sound (distributeKey fuel operand key) (Over allowed)
  applyKeyOverRelation : ∀ {term key : Expr L}, Over allowed term → Over allowed key →
    Answers sound (applyKeyOverRelation fuel term key) (Over allowed)
  buildProduct : ∀ {factors : List (Expr L)}, (∀ factor ∈ factors, Over allowed factor) →
    Answers sound (buildProduct fuel factors) (Over allowed)
  distributeProduct : ∀ {factors : List (Expr L)} {index : Nat},
    (∀ factor ∈ factors, Over allowed factor) →
    Answers sound (distributeProduct fuel factors index) (Over allowed)
  exponentProduct : ∀ {operand : Expr L}, Over allowed operand →
    Answers sound (exponentProduct fuel operand) (Over allowed)
  negate : ∀ {expr : Expr L}, Over allowed expr → Answers sound (negate fuel expr) (Over allowed)
  negateRelation : ∀ {relation : Relation} {term : Expr L}, Over allowed term →
    Answers sound (negateRelation fuel relation term) (Over allowed)

section Steps

variable {sound allowed} {fuel : Nat} (closed : Closed sound allowed fuel)

include closed

theorem Closed.build_step {expr : Expr L} (reads : Over allowed expr) :
    Answers sound (Fusion.build (fuel + 1) expr) (Over allowed) := by
  cases expr with
  | constant literal | var name => exact yields_pure reads
  | unary operator operand => exact closed.buildUnary reads
  | binary operator left right =>
    exact closed.buildBinary (over_binary.1 reads).1 (over_binary.1 reads).2

theorem Closed.buildUnary_step {operator : UnaryOp} {operand : Expr L}
    (reads : Over allowed operand) :
    Answers sound (Fusion.buildUnary (fuel + 1) operator operand) (Over allowed) := by
  unfold Fusion.buildUnary
  split
  · next inner under =>
    apply closed.build
    unfold undone at under
    split at under <;> first | (obtain rfl := some.inj under; exact reads) | cases under
  apply yields_bind (closed.build reads)
  intro built reads
  split
  · apply yields_note
    intro _
    apply yields_spend
    exact yields_pure (over_constant _)
  split
  · exact closed.exponentProduct reads
  split
  · exact closed.negate reads
  apply yields_spend
  exact yields_pure reads

section

variable {left right : Expr L} (reads : Over allowed left) (reads' : Over allowed right)

include reads reads'

theorem Closed.build_two {next : Expr L → Expr L → Builder L (Expr L)}
    (goes : ∀ left right, Over allowed left → Over allowed right →
      Answers sound (next left right) (Over allowed)) :
    Answers sound (Fusion.build fuel left >>= fun left => Fusion.build fuel right >>= fun right =>
      next left right) (Over allowed) := by
  apply yields_bind (closed.build reads)
  intro left reads
  apply yields_bind (closed.build reads')
  exact fun right reads' => goes left right reads reads'

omit closed in
theorem over_pair : ∀ term ∈ [left, right], Over allowed term := by
  intro term member
  rcases mem_pair.1 member with rfl | rfl
  · exact reads
  · exact reads'

end

section

variable {operator : BinaryOp} {left right : Expr L} (reads : Over allowed left)
  (reads' : Over allowed right)

include reads reads'

theorem Closed.buildBinary_step :
    Answers sound (Fusion.buildBinary (fuel + 1) operator left right) (Over allowed) := by
  have extremum : ∀ (operator : BinaryOp) (literal : L → L → L) (left right : Expr L),
      Over allowed left → Over allowed right → Answers sound (do
        let folded ← foldConstants operator literal (flatten [left, right] operator)
        finish operator zero (Expr.sort folded)) (Over allowed) := by
    intro operator literal left right reads reads'
    apply yields_bind (foldConstants_over operator literal (flatten_over (over_pair reads reads')))
    exact fun folded holds => finish_over operator zero (sort_over holds)
  unfold Fusion.buildBinary
  cases operator with
  | sub =>
    apply closed.build_two reads reads'
    intro left right reads reads'
    apply yields_bind (closed.negate reads')
    exact fun negated reads' => closed.buildSum (over_pair reads reads')
  | add =>
    exact closed.build_two reads reads' fun left right reads reads' =>
      closed.buildSum (over_pair reads reads')
  | mul =>
    exact closed.build_two reads reads' fun left right reads reads' =>
      closed.buildProduct (over_pair reads reads')
  | max => exact closed.build_two reads reads' (extremum .max max)
  | min => exact closed.build_two reads reads' (extremum .min min)
  | div =>
    apply closed.build_two reads reads'
    intro left right reads reads'
    have node : Over allowed (.binary .div left right) := over_binary.2 ⟨reads, reads'⟩
    split
    · split
      · apply yields_spend
        apply yields_pure
        next value divisor _ _ _ =>
        cases infinityOf value divisor with
        | none => exact node
        | some infinity => exact over_constant infinity
      · apply yields_note
        intro _
        apply yields_spend
        exact yields_pure (over_constant _)
    · apply yields_spend
      exact yields_pure node
  | _ => exact closed.buildComparison reads reads'

theorem Closed.buildComparison_step :
    Answers sound (Fusion.buildComparison (fuel + 1) operator left right) (Over allowed) := by
  unfold Fusion.buildComparison
  apply closed.build_two reads reads'
  intro left right reads reads'
  have node : Over allowed (.binary (canonicalComparison operator left right).1
      (canonicalComparison operator left right).2.1
      (canonicalComparison operator left right).2.2) := by
    unfold canonicalComparison
    split
    · exact over_binary.2 ⟨reads', reads⟩
    · exact over_binary.2 ⟨reads, reads'⟩
  revert node
  generalize canonicalComparison operator left right = canonical
  intro node
  dsimp only at node ⊢
  split
  · apply yields_note
    intro _
    apply yields_spend
    exact yields_pure (over_constant _)
  split
  · apply yields_note
    intro _
    apply yields_spend
    exact yields_pure (over_constant _)
  · apply yields_spend
    exact yields_pure node

end

theorem Closed.buildSum_step {terms : List (Expr L)} (reads : ∀ term ∈ terms, Over allowed term) :
    Answers sound (Fusion.buildSum (fuel + 1) terms) (Over allowed) := by
  unfold Fusion.buildSum
  apply yields_bind (answers_each fun term member => closed.signedTerm (reads term member))
  exact fun signed holds => buildSumTerms_over (fun kept holds => closed.recursiveSum holds)
    (flatten_over holds)

theorem Closed.signedTerm_step {term : Expr L} (reads : Over allowed term) :
    Answers sound (Fusion.signedTerm (fuel + 1) term) (Over allowed) := by
  cases term with
  | unary operator magnitude =>
    cases operator with
    | neg =>
      unfold Fusion.signedTerm
      split
      · exact closed.negate reads
      · exact yields_pure reads
    | _ => exact yields_pure reads
  | constant literal | var name | binary operator left right => exact yields_pure reads

theorem Closed.recursiveSum_step {terms : List (Expr L)}
    (reads : ∀ term ∈ terms, Over allowed term) :
    Answers sound (Fusion.recursiveSum (fuel + 1) terms) (Over allowed) := by
  unfold Fusion.recursiveSum
  dsimp only
  split
  · exact buildSumTerms_over (fun kept holds => additiveSum_over holds) reads
  apply yields_bind (buildSumTerms_over (fun kept holds => closed.recursiveSum holds)
    fun term member => reads term (mem_of_mem_filter member))
  intro key holds
  apply yields_note
  intro _
  apply yields_bind (answers_each fun operand member => ?_)
  · exact fun parts holds => buildRelation_over _ holds
  · obtain ⟨parts, listed, inside⟩ := mem_flatMap.1 member
    obtain ⟨term, member, found⟩ := mem_filterMap.1 listed
    exact closed.distributeKey (relationParts_over (reads term member) found operand inside) holds

theorem Closed.distributeKey_step {operand key : Expr L} (reads : Over allowed operand)
    (reads' : Over allowed key) :
    Answers sound (Fusion.distributeKey (fuel + 1) operand key) (Over allowed) := by
  unfold Fusion.distributeKey
  apply yields_bind (closed.buildSum (over_pair reads reads'))
  intro summed holds
  split
  · exact closed.applyKeyOverRelation holds (over_constant _)
  · exact yields_pure holds

theorem Closed.applyKeyOverRelation_step {term key : Expr L} (reads : Over allowed term)
    (reads' : Over allowed key) :
    Answers sound (Fusion.applyKeyOverRelation (fuel + 1) term key) (Over allowed) := by
  unfold Fusion.applyKeyOverRelation
  split
  · exact closed.buildSum (over_pair reads reads')
  next nested operands parts =>
  apply yields_bind (answers_each fun operand member => ?_)
  · exact fun parts holds => buildRelation_over nested holds
  · apply yields_bind (closed.buildSum (over_pair (relationParts_over reads parts operand member) reads'))
    exact fun summed holds => closed.applyKeyOverRelation holds (over_constant _)

theorem Closed.buildProduct_step {factors : List (Expr L)}
    (reads : ∀ factor ∈ factors, Over allowed factor) :
    Answers sound (Fusion.buildProduct (fuel + 1) factors) (Over allowed) := by
  unfold Fusion.buildProduct
  apply yields_bind (foldConstants_over .mul mul (flatten_over reads))
  intro folded holds
  have kept : ∀ factor ∈ folded.filter (fun factor => !factor.isLiteral one),
      Over allowed factor := fun factor member => holds factor (mem_of_mem_filter member)
  split
  · apply yields_spend
    exact yields_pure (over_constant _)
  dsimp only
  split
  · exact closed.distributeProduct kept
  · exact finish_over .mul one (sort_over kept)

theorem Closed.distributeProduct_step {factors : List (Expr L)} {index : Nat}
    (reads : ∀ factor ∈ factors, Over allowed factor) :
    Answers sound (Fusion.distributeProduct (fuel + 1) factors index) (Over allowed) := by
  unfold Fusion.distributeProduct
  split
  · next left right found =>
    have sum := over_binary.1 (reads _ (mem_of_getElem? found))
    apply yields_bind (answers_each fun term member => ?_)
    · exact fun products holds => closed.buildSum holds
    · apply closed.buildProduct
      intro factor listed
      rcases mem_append.1 listed with other | last
      · exact reads factor (mem_of_mem_eraseIdx other)
      · rw [mem_singleton.1 last]
        exact over_pair sum.1 sum.2 term member
  · exact yields_stop _

theorem Closed.exponentProduct_step {operand : Expr L} (reads : Over allowed operand) :
    Answers sound (Fusion.exponentProduct (fuel + 1) operand) (Over allowed) := by
  cases operand with
  | binary operator left right =>
    cases operator with
    | add =>
      unfold Fusion.exponentProduct
      apply yields_bind (closed.buildUnary (over_binary.1 reads).1)
      intro left first
      apply yields_bind (closed.buildUnary (over_binary.1 reads).2)
      exact fun right second => closed.buildProduct (over_pair first second)
    | _ => exact yields_stop _
  | constant literal | var name | unary operator operand => exact yields_stop _

theorem Closed.negateRelation_step {relation : Relation} {term : Expr L} (reads : Over allowed term) :
    Answers sound (Fusion.negateRelation (fuel + 1) relation term) (Over allowed) := by
  unfold Fusion.negateRelation
  apply yields_bind (answers_each fun operand member =>
    closed.negate (relationOperands_over reads operand member))
  exact fun negated holds => finish_over _ zero (sort_over holds)

theorem Closed.negate_step {expr : Expr L} (reads : Over allowed expr) :
    Answers sound (Fusion.negate (fuel + 1) expr) (Over allowed) := by
  have kept : Answers sound (spend >>= fun _ => Fusion.build fuel expr >>= fun operand =>
      pure (.unary .neg operand)) (Over allowed) := by
    apply yields_spend
    apply yields_bind (closed.build reads)
    exact fun operand holds => yields_pure (over_unary.2 holds)
  cases expr with
  | constant literal =>
    unfold Fusion.negate
    apply yields_note
    intro _
    apply yields_spend
    exact yields_pure (over_constant _)
  | var name => exact kept
  | unary operator operand =>
    cases operator with
    | neg => exact closed.build reads
    | _ => exact kept
  | binary operator left right =>
    cases operator with
    | add => exact closed.buildBinary (over_binary.1 reads).1 (over_binary.1 reads).2
    | mul =>
      unfold Fusion.negate
      apply yields_note
      exact fun _ => closed.buildBinary (over_binary.1 reads).1 (over_binary.1 reads).2
    | max | min => exact closed.negateRelation reads
    | _ => exact kept

end Steps

theorem closed (fuel : Nat) : Closed sound allowed fuel := by
  induction fuel with
  | zero => constructor <;> intros <;> exact yields_stop _
  | succ fuel ih =>
    exact
      { build := ih.build_step
        buildUnary := ih.buildUnary_step
        buildBinary := ih.buildBinary_step
        buildComparison := ih.buildComparison_step
        buildSum := ih.buildSum_step
        signedTerm := ih.signedTerm_step
        recursiveSum := ih.recursiveSum_step
        distributeKey := ih.distributeKey_step
        applyKeyOverRelation := ih.applyKeyOverRelation_step
        buildProduct := ih.buildProduct_step
        distributeProduct := ih.distributeProduct_step
        exponentProduct := ih.exponentProduct_step
        negate := ih.negate_step
        negateRelation := ih.negateRelation_step }

theorem normalize_over {allowed : Variable → Prop} {fuel : Nat} {expr n : Expr L}
    (ran : (normalize fuel expr).answer = .ok n) (reads : Over allowed expr) : Over allowed n := by
  have ends := (closed (fun _ => True) allowed fuel).build reads NORMALIZATION_BUDGET
    fun _ _ => trivial
  rcases ends.cases with ⟨a, answered, holds⟩ | ⟨stop, answered, -⟩
  · cases answered.symm.trans ran
    exact holds
  · cases answered.symm.trans ran

end Recursion

end LichenVm.Fusion
