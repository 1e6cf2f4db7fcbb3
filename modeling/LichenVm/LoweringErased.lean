import Mathlib.Data.Option.Basic
import LichenVm.KeyInjective
import LichenVm.Lowering

/-! What the lowering does not read: spans, the names of uses and of block statements, and `@loop`
marks on values that are no functions. -/

open List

namespace LichenVm.Lowering

open Ast HighIr

/-- Compilers that differ in spans and in the cells they record only. -/
structure Same (c c' : Compiler) : Prop where
  ir : c.ir = c'.ir
  reusable : c.reusable = c'.reusable
  binderToExpr : c.binderToExpr = c'.binderToExpr
  fnParents : c.fnParents = c'.fnParents
  prelude : c.prelude = c'.prelude

/-- The same value, or a panic both times. -/
def Alike {A : Type} : Option (A × Compiler) → Option (A × Compiler) → Prop :=
  Option.Rel fun made made' => made.1 = made'.1 ∧ Same made.2 made'.2

/-- Two lowerings that agree from such compilers on. -/
def Agrees {A : Type} (first second : CompileM A) : Prop :=
  ∀ c c', Same c c' → Alike (first c) (second c')

variable {A : Type}

theorem Agrees.pure (value : A) : Agrees (Pure.pure value) (Pure.pure value) :=
  fun _ _ same => .some ⟨rfl, same⟩

variable {B : Type}

theorem Alike.bind {made made' : Option (A × Compiler)} {next next' : A → CompileM B}
    (here : Alike made made')
    (later : ∀ value d d', made = some (value, d) → Same d d' →
      Alike (next value d) (next' value d')) :
    Alike (made.bind fun state => next state.1 state.2)
      (made'.bind fun state => next' state.1 state.2) := by
  cases here with
  | none => exact .none
  | @some state state' both =>
    obtain ⟨value, d⟩ := state
    obtain ⟨value', d'⟩ := state'
    obtain ⟨equal, same⟩ := both
    subst equal
    exact later value d d' rfl same

section

variable {first second : CompileM A} {next next' : A → CompileM B} (here : Agrees first second)

include here

theorem Agrees.bindOf
    (later : ∀ value c d d', first c = some (value, d) → Same d d' →
      Alike (next value d) (next' value d')) : Agrees (first >>= next) (second >>= next') :=
  fun c c' same => (here c c' same).bind fun value d d' made => later value c d d' made

theorem Agrees.bind (later : ∀ value, Agrees (next value) (next' value)) :
    Agrees (first >>= next) (second >>= next') :=
  here.bindOf fun value _ d d' _ same => later value d d' same

end

theorem agrees_allocWith (make : IR → ExprId × IR) (span span' : Span) :
    Agrees (allocWith make span) (allocWith make span') := by
  intro c c' same
  unfold allocWith
  rw [same.ir]
  exact .some ⟨rfl, ⟨rfl, same.reusable, same.binderToExpr, same.fnParents, same.prelude⟩⟩

theorem agrees_alloc (kind : ExprKind) (span span' : Span) :
    Agrees (alloc kind span) (alloc kind span') := agrees_allocWith _ _ _

theorem agrees_modifyIr (f : IR → IR) : Agrees (modifyIr f) (modifyIr f) :=
  fun _ _ same => .some ⟨rfl, ⟨congrArg f same.ir, same.reusable, same.binderToExpr, same.fnParents,
    same.prelude⟩⟩

theorem agrees_setBinder (bound : BinderId) (expr : ExprId) :
    Agrees (setBinder bound expr) (setBinder bound expr) := by
  intro c c' same
  unfold setBinder
  rw [same.binderToExpr]
  exact .some ⟨rfl, ⟨same.ir, same.reusable, rfl, same.fnParents, same.prelude⟩⟩

theorem agrees_binder (bound : BinderId) : Agrees (binder bound) (binder bound) := by
  intro c c' same
  unfold binder
  rw [same.binderToExpr]
  split
  · exact .some ⟨rfl, same⟩
  · exact .none

theorem agrees_expect (bound : Option BinderId) : Agrees (expect bound) (expect bound) := by
  intro c c' same
  cases bound with
  | none => exact .none
  | some bound => exact .some ⟨rfl, same⟩

theorem agrees_reusable (bound : Option BinderId) : Agrees (reusable bound) (reusable bound) := by
  intro c c' same
  unfold reusable
  rw [same.reusable]
  exact .some ⟨rfl, same⟩

theorem agrees_routedOperator (operator : BinOp) :
    Agrees (routedOperator operator) (routedOperator operator) := by
  intro c c' same
  unfold routedOperator
  rw [same.prelude]
  exact .some ⟨rfl, same⟩

theorem agrees_parent : Agrees parent parent := by
  intro c c' same
  unfold parent
  rw [same.fnParents]
  exact .some ⟨rfl, same⟩

theorem agrees_pushParent (function : ExprId) :
    Agrees (pushParent function) (pushParent function) := by
  intro c c' same
  unfold pushParent
  rw [same.fnParents]
  exact .some ⟨rfl, ⟨same.ir, same.reusable, same.binderToExpr, rfl, same.prelude⟩⟩

theorem agrees_popParent : Agrees popParent popParent := by
  intro c c' same
  unfold popParent
  rw [same.fnParents]
  exact .some ⟨rfl, ⟨same.ir, same.reusable, same.binderToExpr, rfl, same.prelude⟩⟩

theorem agrees_recordCell (statement statement' : Stmt Value) (id : ExprId) :
    Agrees (recordCell statement id) (recordCell statement' id) := by
  have still : ∀ (statement : Stmt Value) c, ∃ d, recordCell statement id c = some ((), d) ∧
      Same c d := by
    intro statement c
    have own : Same c c := ⟨rfl, rfl, rfl, rfl, rfl⟩
    unfold recordCell
    split
    · split
      · exact ⟨_, rfl, ⟨rfl, rfl, rfl, rfl, rfl⟩⟩
      · exact ⟨c, rfl, own⟩
    · exact ⟨c, rfl, own⟩
  intro c c' same
  obtain ⟨d, made, first⟩ := still statement c
  obtain ⟨d', made', second⟩ := still statement' c'
  rw [made, made']
  exact .some ⟨rfl, ⟨first.ir.symm.trans (same.ir.trans second.ir),
    first.reusable.symm.trans (same.reusable.trans second.reusable),
    first.binderToExpr.symm.trans (same.binderToExpr.trans second.binderToExpr),
    first.fnParents.symm.trans (same.fnParents.trans second.fnParents),
    first.prelude.symm.trans (same.prelude.trans second.prelude)⟩⟩

/-- A kind that a `@loop` mark is stamped on. -/
def isFunction : ExprKind → Bool
  | .function _ _ _ _ _ _ => true
  | _ => false

/-- A lowering that never comes out as a function's node. -/
def Plain (lower : CompileM ExprId) : Prop :=
  ∀ c id d, lower c = some (id, d) → ∀ kind, d.ir.expr[id]? = some kind → isFunction kind = false

theorem Plain.bind {lower : CompileM A} {next : A → CompileM ExprId}
    (later : ∀ value, Plain (next value)) : Plain (lower >>= next) := by
  intro c id d made
  obtain ⟨value, state, -, rest⟩ := bind_some.1 made
  exact later value state id d rest

/-- An allocator of the IR that gives a new expression a kind that is no function. -/
def PlainAlloc (make : IR → ExprId × IR) : Prop :=
  ∀ ir kind, (make ir).2.expr[(make ir).1]? = some kind → isFunction kind = false

variable {kind : ExprKind}

theorem plainAlloc_alloc (plain : isFunction kind = false) : PlainAlloc (IR.alloc kind) := by
  intro ir found here
  have last : (ir.expr ++ [kind])[ir.expr.length]? = some kind := getElem?_concat_length
  change (ir.expr ++ [kind])[ir.expr.length]? = some found at here
  rw [last] at here
  rw [← Option.some.inj here]
  exact plain

theorem plain_allocWith {make : IR → ExprId × IR} (plain : PlainAlloc make) (span : Span) :
    Plain (allocWith make span) := by
  intro c id d made kind found
  unfold allocWith at made
  cases made
  exact plain c.ir kind found

theorem plain_alloc (plain : isFunction kind = false) (span : Span) :
    Plain (alloc kind span) := plain_allocWith (plainAlloc_alloc plain) span

theorem stamp_of_plain (plain : isFunction kind = false) (looping : Bool) :
    stamp looping kind = kind := by
  cases kind with
  | function _ _ _ _ _ _ => cases plain
  | _ => rfl

theorem agrees_transplant {looping looping' : Bool} (p value : ExprId) {c c' : Compiler}
    (same : Same c c') (marks : looping = looping' ∨
      ∀ kind, c.ir.expr[value]? = some kind → isFunction kind = false) :
    Alike (transplant looping p value c) (transplant looping' p value c') := by
  unfold transplant
  rw [← same.ir]
  cases found : c.ir.expr[value]? with
  | none => exact .none
  | some kind =>
    have equal : stamp looping kind = stamp looping' kind := by
      rcases marks with rfl | plain
      · rfl
      · rw [stamp_of_plain (plain kind found), stamp_of_plain (plain kind found)]
    dsimp only
    rw [equal]
    exact .some ⟨rfl, ⟨rfl, same.reusable, same.binderToExpr, same.fnParents, same.prelude⟩⟩

/-- Statements of which the lowering reads the same. -/
inductive Twin : Stmt Value → Stmt Value → Prop
  | expr {value value' : Value} (own : Agrees value.compile value'.compile) :
      Twin (.expr value) (.expr value')
  | binding {bound bound' : Binding Value} (own : Agrees bound.value.compile bound'.value.compile)
      (isName : bound.value.isName = bound'.value.isName) (binder : bound.binder = bound'.binder)
      (restrictive : bound.restrictive = bound'.restrictive)
      (looping : bound.restrictive = true ∨ bound.value.isName = true ∨
        bound.looping = bound'.looping ∨ Plain bound.value.compile) :
      Twin (.binding bound) (.binding bound')

variable {statements statements' : List (Stmt Value)}

theorem agrees_reserve (twins : List.Forall₂ Twin statements statements') :
    Agrees (reserve statements) (reserve statements') := by
  induction twins with
  | nil => exact .pure ()
  | @cons statement statement' rest rest' twin _ ih =>
    cases twin with
    | expr own => exact ih
    | @binding bound bound' own isName binder restrictive looping =>
      unfold reserve
      rw [← restrictive, ← binder]
      split
      · exact ih
      · exact (agrees_expect _).bind fun here => (agrees_alloc _ _ _).bind fun p =>
          (agrees_modifyIr _).bind fun _ => (agrees_setBinder _ _).bind fun _ => ih

theorem agrees_readCell {bound bound' : Binding Value}
    (restrictive : bound.restrictive = bound'.restrictive) (here : BinderId)
    (exported : StaticNodeId) :
    Agrees (readCell bound here exported) (readCell bound' here exported) := by
  unfold readCell
  rw [← restrictive]
  split
  · exact (agrees_alloc _ _ _).bind fun id => (agrees_setBinder _ _).bind fun _ => .pure id
  · exact (agrees_binder _).bind fun p => (agrees_modifyIr _).bind fun _ =>
      (agrees_setBinder _ _).bind fun _ => .pure p

theorem agrees_compileStatement {statement statement' : Stmt Value}
    (twin : Twin statement statement') :
    Agrees (compileStatement statement) (compileStatement statement') := by
  cases twin with
  | expr own => exact own
  | @binding bound bound' own isName here restrictive looping =>
    show Agrees (reusable bound.binder >>= _) (reusable bound'.binder >>= _)
    rw [← here]
    refine (agrees_reusable _).bind fun clean => ?_
    cases clean with
    | some cell => exact agrees_readCell restrictive cell.1 cell.2
    | none =>
      show Agrees (compileBinding bound) (compileBinding bound')
      unfold compileBinding
      rw [← restrictive, ← here, ← isName]
      split
      · exact own.bind fun id => (agrees_expect _).bind fun here =>
          (agrees_setBinder _ _).bind fun _ => .pure id
      · rename_i wide
        refine (agrees_expect _).bind fun here => (agrees_binder _).bind fun p => ?_
        split
        · exact own.bind fun value => (agrees_modifyIr _).bind fun _ =>
            (agrees_setBinder _ _).bind fun _ => .pure value
        · rename_i other
          refine own.bindOf fun value c d d' made same => ?_
          have moved : Alike (transplant bound.looping p value d)
              (transplant bound'.looping p value d') := by
            apply agrees_transplant p value same
            rcases looping with restricted | named | equal | plain
            · exact absurd restricted wide
            · exact absurd named other
            · exact Or.inl equal
            · exact Or.inr (plain c value d made)
          exact moved.bind fun _ e e' _ same => Agrees.pure p e e' same

section

variable (twins : List.Forall₂ Twin statements statements')

include twins

theorem agrees_compileStatements :
    Agrees (compileStatements statements) (compileStatements statements') := by
  induction twins with
  | nil => exact .pure []
  | cons twin _ ih =>
    exact (agrees_compileStatement twin).bind fun id => (agrees_recordCell _ _ id).bind fun _ =>
      ih.bind fun ids => .pure (id :: ids)

theorem agrees_compileScopeStatements :
    Agrees (compileScopeStatements statements) (compileScopeStatements statements') :=
  (agrees_reserve twins).bind fun _ => agrees_compileStatements twins

end

theorem agrees_wrap (statements : List ExprId) (final : ExprId) (span span' : Span) :
    Agrees (wrap statements final span) (wrap statements final span') := by
  unfold wrap
  generalize (if statements.getLast? = some final then statements.dropLast else statements) = kept
  dsimp only
  split
  · exact .pure final
  · exact (agrees_allocWith _ _ _).bind fun tuple => (agrees_alloc _ _ _).bind fun index =>
      agrees_alloc _ _ _

/-- What the record made of a field depends on. -/
def headOf {E : Type} (field : RecordField E) : RecordField Unit :=
  ⟨field.name, none, (), field.isPublic, field.field, false, false, noSpan⟩

theorem emitted_headOf {E : Type} (fields : List (RecordField E)) (ids : List ExprId) :
    emitted fields ids = emitted (fields.map headOf) ids := by
  have places : (fields.map headOf).zip ids =
      (fields.zip ids).map (Prod.map headOf id) := by
    rw [← zip_map_left]
  unfold emitted
  dsimp only
  rw [places, filter_map, map_map, any_map]
  rfl

theorem agrees_compileRecordFields {fields fields' : List (RecordField Value)} (span span' : Span)
    (heads : fields.map headOf = fields'.map headOf)
    (twins : List.Forall₂ Twin (fields.map fieldStmt) (fields'.map fieldStmt)) :
    Agrees (compileRecordFields fields span) (compileRecordFields fields' span') := by
  refine (agrees_compileScopeStatements twins).bind fun ids => ?_
  rw [emitted_headOf fields, heads, ← emitted_headOf fields']
  exact (agrees_allocWith _ _ _).bind fun value => (agrees_allocWith _ _ _).bind fun record =>
    .pure (ids, record)

theorem agrees_annotate (value : ExprId) (type : Option ExprId)
    (spelled : List (LangAttr × ExprId)) (marks : List Text) (span span' : Span) :
    Agrees (annotate value type spelled marks span) (annotate value type spelled marks span') := by
  have made : Agrees (annotated value type spelled span) (annotated value type spelled span') := by
    unfold annotated
    split
    · exact .pure value
    · exact (agrees_allocWith _ _ _).bind fun id => (agrees_modifyIr _).bind fun _ => .pure id
  exact made.bind fun id => (agrees_modifyIr _).bind fun _ => .pure id

theorem compileElements_eq (elements : List Expr) : compileElements elements = compileAll elements := by
  induction elements with
  | nil => rfl
  | cons element rest ih =>
    rw [compileAll, ← ih]
    cases element <;> rfl

theorem depthsOf_eraseAll (elements : List Expr) : depthsOf (eraseAll elements) = depthsOf elements := by
  unfold depthsOf
  rw [eraseAll_eq, map_map]
  have same : markDepth ∘ Expr.erase = markDepth := by
    funext element
    cases element <;> rfl
  rw [same]

section

variable {values : List Expr}

/-- What the values of a scope's statements promise: to agree, and to be no functions unless they
may be. -/
structure Erasable (e : Expr) : Prop where
  agrees : Agrees (compileExpr e) (compileExpr e.erase)
  plain : e.mayBeFunction = false → Plain (compileExpr e)

theorem agrees_compileAll (each : ∀ e ∈ values, Erasable e) :
    Agrees (compileAll values) (compileAll (eraseAll values)) := by
  induction values with
  | nil => exact .pure []
  | cons value rest ih =>
    have own := each value mem_cons_self
    have others := ih fun e member => each e (mem_cons_of_mem _ member)
    exact own.agrees.bind fun id => others.bind fun ids => .pure (id :: ids)

theorem agrees_compileOpt {value : Option Expr} (own : ∀ e ∈ value, Erasable e) :
    Agrees (compileOpt value) (compileOpt (eraseOpt value)) := by
  cases value with
  | none => exact .pure none
  | some inner => exact (own inner rfl).agrees.bind fun id => .pure (some id)

theorem agrees_compileFields {fields : List (StructFieldValue Expr)}
    (each : ∀ f ∈ fields, Erasable f.value) :
    Agrees (compileFields fields) (compileFields (eraseFields fields)) := by
  induction fields with
  | nil => exact .pure []
  | cons field rest ih =>
    have own := each field mem_cons_self
    have others := ih fun f member => each f (mem_cons_of_mem _ member)
    exact own.agrees.bind fun id => others.bind fun ids => .pure (id :: ids)

theorem agrees_compilePairs {entries : List (Expr × Expr)}
    (each : ∀ e ∈ entries, Erasable e.1 ∧ Erasable e.2) :
    Agrees (compilePairs entries) (compilePairs (erasePairs entries)) := by
  induction entries with
  | nil => exact .pure []
  | cons entry rest ih =>
    have own := each entry mem_cons_self
    have others := ih fun e member => each e (mem_cons_of_mem _ member)
    exact own.1.agrees.bind fun key => own.2.agrees.bind fun value => others.bind fun ids =>
      .pure ((key, value) :: ids)

theorem isName_erase (e : Expr) : e.erase.isName = e.isName := by cases e <;> rfl

theorem Erasable.stamps {e : Expr} (own : Erasable e) (restrictive looping : Bool) :
    restrictive ∨ e.isName ∨
      looping = (looping && !restrictive && e.stampable) ∨ Plain (compileExpr e) := by
  unfold Expr.stampable
  cases restrictive with
  | true => exact Or.inl rfl
  | false =>
    cases named : e.isName with
    | true => exact Or.inr (Or.inl rfl)
    | false =>
      cases plain : e.mayBeFunction with
      | true => exact Or.inr (Or.inr (Or.inl (by cases looping <;> rfl)))
      | false => exact Or.inr (Or.inr (Or.inr (own.plain plain)))

theorem twins_valuesOf {statements : List (Stmt Expr)} (each : ∀ s ∈ statements, Erasable s.value) :
    List.Forall₂ Twin (valuesOf statements) (valuesOf (eraseStmts statements)) := by
  induction statements with
  | nil => exact .nil
  | cons statement rest ih =>
    have own := each statement mem_cons_self
    have others := ih fun s member => each s (mem_cons_of_mem _ member)
    cases statement with
    | expr value => exact .cons (.expr own.agrees) others
    | binding bound =>
      obtain ⟨name, span, here, value, restrictive, cached, looping⟩ := bound
      exact .cons (.binding own.agrees (isName_erase value).symm rfl rfl
        (own.stamps restrictive looping)) others

theorem heads_recordValues (fields : List (RecordField Expr)) :
    (recordValues fields).map headOf = (recordValues (eraseRecord fields)).map headOf := by
  induction fields with
  | nil => rfl
  | cons field rest ih =>
    rw [recordValues, eraseRecord, recordValues, map_cons, map_cons, ih]
    rfl

theorem twins_recordValues {fields : List (RecordField Expr)}
    (each : ∀ f ∈ fields, Erasable f.value) :
    List.Forall₂ Twin ((recordValues fields).map fieldStmt)
      ((recordValues (eraseRecord fields)).map fieldStmt) := by
  induction fields with
  | nil => exact .nil
  | cons field rest ih =>
    have own := each field mem_cons_self
    have others := ih fun f member => each f (mem_cons_of_mem _ member)
    obtain ⟨name, here, value, isPublic, kept, cached, looping, span⟩ := field
    refine .cons ?_ others
    cases name with
    | none => exact .expr own.agrees
    | some name =>
      have stamps := own.stamps (!kept) looping
      rw [Bool.not_not] at stamps
      refine .binding own.agrees (isName_erase value).symm rfl rfl ?_
      show (!kept) ∨ _ ∨ looping = (looping && true && kept && value.stampable) ∨ _
      rw [Bool.and_true]
      exact stamps

end

theorem plainAlloc_variadic (elements : List ExprId) {make : ChildRange → ExprKind}
    (plain : ∀ range, isFunction (make range) = false) :
    PlainAlloc (IR.allocVariadic elements make) :=
  fun ir => plainAlloc_alloc (plain _) (ir.extendChildren elements).2

theorem plain_wrap {result : CompileM ExprId} (plain : Plain result) (statements : List ExprId)
    (span : Span) : Plain (result >>= fun final => wrap statements final span) := by
  intro c id d made
  obtain ⟨final, state, found, rest⟩ := bind_some.1 made
  unfold wrap at rest
  generalize (if statements.getLast? = some final then statements.dropLast else statements) = kept
    at rest
  split at rest
  · cases rest
    exact plain c _ _ found
  · have last : Plain (allocWith (IR.allocTuple (kept ++ [final])) span >>= fun tuple =>
        alloc (.literal (.int ((kept ++ [final]).length - 1))) span >>= fun index =>
          alloc (.field tuple index) span) :=
      .bind fun tuple => .bind fun index => plain_alloc rfl _
    exact last state id d rest

theorem addMarks_expr (id : ExprId) (marks : List Text) (ir : IR) :
    (marks.foldl (fun ir mark => ir.addMark id mark) ir).expr = ir.expr := by
  induction marks generalizing ir with
  | nil => rfl
  | cons mark marks ih => exact ih (ir.addMark id mark)

theorem setSchema_expr (e : ExprId) (schema : Schema) (ir : IR) :
    (ir.setSchema e schema).expr = ir.expr := by
  unfold IR.setSchema IR.internSchema
  split
  rename_i made
  split at made
  · cases made
    rfl
  · cases made
    rfl

theorem plain_marked {lower : CompileM ExprId} (plain : Plain lower) (marks : List Text) :
    Plain (lower >>= fun id => addMarks id marks >>= fun _ => pure id) := by
  intro c id d made kind here
  obtain ⟨noted, state, found, rest⟩ := bind_some.1 made
  cases rest
  rw [addMarks_expr] at here
  exact plain c _ _ found kind here

theorem plain_annotated {value : ExprId} {type : Option ExprId} {spelled : List (LangAttr × ExprId)}
    (written : ¬(type.isNone && spelled.isEmpty)) (span : Span) :
    Plain (annotated value type spelled span) := by
  intro c id d made kind here
  unfold annotated at made
  rw [if_neg written] at made
  obtain ⟨allocated, state, first, rest⟩ := bind_some.1 made
  cases rest
  apply plain_allocWith (plainAlloc_variadic (spelled.map Prod.snd)
    (fun range => (rfl : isFunction (.annotated value type range) = false))) span c _ _ first kind
  split at here
  · exact here
  · rw [setSchema_expr] at here
    exact here

theorem plain_opt {inner : Expr} {next : Option ExprId → CompileM ExprId}
    (later : ∀ id, Plain (next (some id))) : Plain (compileOpt (some inner) >>= next) := by
  intro c id d made
  obtain ⟨value, state, found, rest⟩ := bind_some.1 made
  obtain ⟨own, state', -, last⟩ := bind_some.1 found
  cases last
  exact later own state id d rest

theorem plain_written {value : Expr} {type perspective refinement doc : Option Expr}
    {marks : List Text} {span : Span} (plain : value.mayBeFunction = false → Plain (compileExpr value))
    (other : (Expr.annotated value type perspective refinement doc marks span).mayBeFunction =
      false) : Plain (compileExpr (.annotated value type perspective refinement doc marks span)) := by
  cases type with
  | some type =>
    refine .bind fun value => plain_opt fun type => .bind fun perspective => .bind fun doc =>
      .bind fun refinement => plain_marked (plain_annotated ?_ span) marks
    exact Bool.false_ne_true
  | none =>
    cases perspective with
    | some perspective =>
      refine .bind fun value => .bind fun type => plain_opt fun perspective => .bind fun doc =>
        .bind fun refinement => plain_marked (plain_annotated ?_ span) marks
      rw [Bool.and_eq_true]
      exact fun both => Bool.false_ne_true both.2
    | none =>
      cases doc with
      | some doc =>
        refine .bind fun value => .bind fun type => .bind fun perspective => plain_opt fun doc =>
          .bind fun refinement => plain_marked (plain_annotated ?_ span) marks
        rw [Bool.and_eq_true]
        intro both
        cases perspective <;> exact Bool.false_ne_true both.2
      | none =>
        cases refinement with
        | some refinement =>
          refine .bind fun value => .bind fun type => .bind fun perspective =>
            .bind fun doc => plain_opt fun refinement =>
              plain_marked (plain_annotated ?_ span) marks
          rw [Bool.and_eq_true]
          intro both
          cases perspective <;> cases doc <;> exact Bool.false_ne_true both.2
        | none => exact plain_marked (plain other) marks

theorem plain_compileRecordFields (fields : List (RecordField Value)) (span : Span) :
    Plain (compileRecordFields fields span >>= fun made => pure made.2) := by
  intro c id d made
  obtain ⟨pair, state, found, rest⟩ := bind_some.1 made
  cases rest
  obtain ⟨ids, inner, -, found⟩ := bind_some.1 found
  obtain ⟨value, tupled, -, found⟩ := bind_some.1 found
  obtain ⟨record, last, made, rest⟩ := bind_some.1 found
  cases rest
  exact plain_allocWith (fun ir => plainAlloc_alloc rfl _) span tupled _ _ made

theorem names_eraseFields (fields : List (StructFieldValue Expr)) :
    (eraseFields fields).map (fun field => some field.name) =
      fields.map fun field => some field.name := by
  rw [eraseFields_eq, map_map]
  rfl

/-- What the lowering does not read can be erased. -/
theorem erasable (e : Expr) : Erasable e := by
  induction e using Expr.induction with
  | int value span | float bits span | str content span | typeConst constant span
  | placeholder span | any span | err range start =>
    exact ⟨agrees_alloc _ _ _, fun _ => plain_alloc rfl _⟩
  | name text span binder =>
    refine ⟨?_, fun other => by cases other⟩
    cases binder with
    | none => exact agrees_alloc _ _ _
    | some id => exact agrees_binder id
  | lambda parameter parameterSpan binder type perspective body span ih ih' own =>
    refine ⟨?_, fun other => by cases other⟩
    have some : (eraseOpt perspective).isSome = perspective.isSome := by
      cases perspective <;> rfl
    show Agrees (parent >>= _) (parent >>= _)
    rw [some]
    exact agrees_parent.bind fun parent => (agrees_alloc _ _ _).bind fun functionId =>
      (agrees_alloc _ _ _).bind fun parameterId => (agrees_modifyIr _).bind fun _ =>
      (agrees_expect _).bind fun here => (agrees_setBinder _ _).bind fun _ =>
      (agrees_compileOpt ih).bind fun type =>
      (agrees_compileOpt ih').bind fun attr =>
      (agrees_pushParent _).bind fun _ => own.agrees.bind fun body =>
      agrees_popParent.bind fun _ => (agrees_modifyIr _).bind fun _ => .pure functionId
  | apply function argument span ih ih' | unify actual expected span ih ih'
  | index array position span ih ih' | fieldRead container key span ih ih'
  | tableFind container key span ih ih' | array template length span ih ih' =>
    exact ⟨ih.agrees.bind fun first => ih'.agrees.bind fun second => agrees_alloc _ _ _,
      fun _ => .bind fun first => .bind fun second => plain_alloc rfl _⟩
  | templateUnify actual template span ih ih' =>
    exact ⟨ih.agrees.bind fun actual => ih'.agrees.bind fun template =>
      (agrees_alloc _ _ _).bind fun hole => (agrees_alloc _ _ _).bind fun expected =>
      agrees_alloc _ _ _, fun _ => .bind fun actual => .bind fun template => .bind fun hole =>
      .bind fun expected => plain_alloc rfl _⟩
  | binOp operator left right span ih ih' =>
    constructor
    · refine ih.agrees.bind fun left => ih'.agrees.bind fun right =>
        (agrees_routedOperator operator).bind fun routed => ?_
      cases routed with
      | none => exact agrees_alloc _ _ _
      | some here =>
        exact (agrees_allocWith _ _ _).bind fun operands => (agrees_binder _).bind fun function =>
          agrees_alloc _ _ _
    · refine fun _ => .bind fun left => .bind fun right => .bind fun routed => ?_
      cases routed with
      | none => exact plain_alloc rfl _
      | some here => exact .bind fun operands => .bind fun function => plain_alloc rfl _
  | cond condition thenBranch elseBranch span ih ih' own =>
    exact ⟨ih.agrees.bind fun condition => ih'.agrees.bind fun thenBranch =>
      own.agrees.bind fun elseBranch => (agrees_allocWith _ _ _).bind fun branches =>
      agrees_alloc _ _ _, fun _ => .bind fun condition => .bind fun thenBranch =>
      .bind fun elseBranch => .bind fun branches => plain_alloc rfl _⟩
  | assert value span ih =>
    exact ⟨ih.agrees.bind fun condition => agrees_alloc _ _ _,
      fun _ => .bind fun condition => plain_alloc rfl _⟩
  | keyword operator operands span ih | nativeCall op args span ih | tuple elements span ih
  | set members span ih =>
    exact ⟨(agrees_compileAll ih).bind fun ids =>
      agrees_allocWith _ _ _,
      fun _ => .bind fun ids => plain_allocWith (plainAlloc_variadic _ fun _ => rfl) _⟩
  | namedFieldRead container name span ih =>
    exact ⟨ih.agrees.bind fun container => agrees_alloc _ _ _,
      fun _ => .bind fun container => plain_alloc rfl _⟩
  | annotated value type perspective refinement doc marks span own typed viewed refined doced =>
    constructor
    · exact own.agrees.bind fun value =>
        (agrees_compileOpt typed).bind fun type =>
        (agrees_compileOpt viewed).bind fun perspective =>
        (agrees_compileOpt doced).bind fun doc =>
        (agrees_compileOpt refined).bind fun refinement =>
        agrees_annotate _ _ _ _ _ _
    · exact plain_written own.plain
  | typeSet element span ih =>
    exact ⟨ih.agrees.bind fun element => agrees_allocWith _ _ _,
      fun _ => .bind fun element => plain_allocWith (plainAlloc_variadic _ fun _ => rfl) _⟩
  | typeTable key value span ih ih' =>
    exact ⟨ih.agrees.bind fun key => ih'.agrees.bind fun value => agrees_allocWith _ _ _,
      fun _ => .bind fun key => .bind fun value =>
        plain_allocWith (plainAlloc_variadic _ fun _ => rfl) _⟩
  | structInst callee fields span own ih =>
    constructor
    · show Agrees (compileExpr callee >>= _) (compileExpr callee.erase >>= _)
      rw [names_eraseFields]
      exact own.agrees.bind fun template => (agrees_alloc _ _ _).bind fun hole =>
        (agrees_alloc _ _ _).bind fun template =>
        (agrees_compileFields ih).bind fun ids =>
        (agrees_allocWith _ _ _).bind fun value => agrees_allocWith _ _ _
    · exact fun _ => .bind fun template => .bind fun hole => .bind fun template => .bind fun ids =>
        .bind fun value => plain_allocWith (fun ir => plainAlloc_alloc rfl _) _
  | structValue fields span ih =>
    constructor
    · show Agrees (compileFields fields >>= _) (compileFields (eraseFields fields) >>= _)
      rw [names_eraseFields]
      exact (agrees_compileFields ih).bind fun ids =>
        agrees_allocWith _ _ _
    · exact fun _ => .bind fun ids => plain_allocWith (fun ir => plainAlloc_alloc rfl _) _
  | arrayInst template elements span own ih =>
    constructor
    · show Agrees (compileExpr template >>= _) (compileExpr template.erase >>= _)
      rw [compileElements_eq, compileElements_eq, depthsOf_eraseAll]
      exact own.agrees.bind fun template => (agrees_alloc _ _ _).bind fun hole =>
        (agrees_alloc _ _ _).bind fun template =>
        (agrees_compileAll ih).bind fun ids =>
        agrees_allocWith _ _ _
    · exact fun _ => .bind fun template => .bind fun hole => .bind fun template => .bind fun ids =>
        plain_allocWith (fun ir => plainAlloc_alloc rfl _) _
  | table entries span ih =>
    exact ⟨(agrees_compilePairs ih).bind fun ids => agrees_allocWith _ _ _,
      fun _ => .bind fun ids => plain_allocWith (plainAlloc_variadic _ fun _ => rfl) _⟩
  | shallow inner depth span ih => exact ⟨ih.agrees, ih.plain⟩
  | block statements result span ih own =>
    exact ⟨(agrees_compileScopeStatements (twins_valuesOf ih)).bind fun ids =>
      own.agrees.bind fun final => agrees_wrap _ _ _ _,
      fun other => .bind fun ids => plain_wrap (own.plain other) ids span⟩
  | recordBlock fields span ih =>
    constructor
    · exact (agrees_compileRecordFields _ _ (heads_recordValues fields)
        (twins_recordValues ih)).bind fun made => .pure made.2
    · exact fun _ => plain_compileRecordFields _ _
  | gc inner span ih =>
    exact ⟨ih.agrees.bind fun inner => agrees_alloc _ _ _,
      fun _ => .bind fun inner => plain_alloc rfl _⟩

end LichenVm.Lowering
