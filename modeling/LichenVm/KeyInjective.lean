import LichenVm.KeyReader

open List

namespace LichenVm.Ast

open PrefixCode KeyWriter Codes

section

variable (binders : Option BinderId → Words)

/-- A field's words in a record block. -/
def KeyWriter.blockField (field : RecordField Expr) : Words :=
  flag field.name.isSome ++ (flag field.field ++ (flag field.isPublic ++ (flag field.cached ++
    ((field.name.map text).getD [] ++ (binders field.binder ++ expr binders field.value)))))

/-- A statement's words in a block. -/
def KeyWriter.stmt : Stmt Expr → Words
  | .binding bound =>
    0 :: (flag bound.restrictive ++ (flag bound.cached ++ (binders bound.binder ++
      expr binders bound.value)))
  | .expr value => 1 :: expr binders value

theorem exprs_eq (values : List Expr) : exprs binders values = values.flatMap (expr binders) := by
  induction values with
  | nil => rfl
  | cons value rest ih => rw [exprs, ih, flatMap_cons]

theorem fieldValues_eq (fields : List (StructFieldValue Expr)) : fieldValues binders fields =
      fields.flatMap fun field => text field.name ++ expr binders field.value := by
  induction fields with
  | nil => rfl
  | cons field rest ih =>
    rw [show field = ⟨field.name, field.value⟩ from rfl, fieldValues, ih, flatMap_cons]

theorem pairs_eq (entries : List (Expr × Expr)) : pairs binders entries =
      entries.flatMap fun entry => expr binders entry.1 ++ expr binders entry.2 := by
  induction entries with
  | nil => rfl
  | cons entry rest ih =>
    rw [show entry = (entry.1, entry.2) from rfl, pairs, ih, flatMap_cons]

theorem stmts_eq (statements : List (Stmt Expr)) :
    stmts binders statements = statements.flatMap (KeyWriter.stmt binders) := by
  induction statements with
  | nil => rfl
  | cons statement rest ih => cases statement <;> rw [stmts, ih, flatMap_cons] <;> rfl

theorem recordFields_eq (fields : List (RecordField Expr)) :
    recordFields binders fields = fields.flatMap (KeyWriter.blockField binders) := by
  induction fields with
  | nil => rfl
  | cons field rest ih =>
    rw [recordFields, ih, flatMap_cons]
    rfl

end

theorem omissionsAll_eq (values : List Expr) :
    omissionsAll values = values.flatMap Expr.omissions := by
  induction values with
  | nil => rfl
  | cons value rest ih => rw [omissionsAll, ih, flatMap_cons]

variable (fields : List (StructFieldValue Expr))

theorem omissionsFields_eq :
    omissionsFields fields = fields.flatMap fun field => field.value.omissions := by
  induction fields with
  | nil => rfl
  | cons field rest ih =>
    rw [show field = ⟨field.name, field.value⟩ from rfl, omissionsFields, ih, flatMap_cons]

theorem omissionsPairs_eq (entries : List (Expr × Expr)) :
    omissionsPairs entries = entries.flatMap fun entry => entry.1.omissions ++ entry.2.omissions := by
  induction entries with
  | nil => rfl
  | cons entry rest ih =>
    rw [show entry = (entry.1, entry.2) from rfl, omissionsPairs, ih, flatMap_cons]

theorem omissionsStmts_eq (statements : List (Stmt Expr)) :
    omissionsStmts statements = statements.flatMap Stmt.omissions := by
  induction statements with
  | nil => rfl
  | cons statement rest ih => cases statement <;> rw [omissionsStmts, ih, flatMap_cons] <;> rfl

theorem omissionsRecord_eq (fields : List (RecordField Expr)) :
    omissionsRecord fields = fields.flatMap RecordField.omissions := by
  induction fields with
  | nil => rfl
  | cons field rest ih =>
    rw [omissionsRecord, ih, flatMap_cons]
    rfl

theorem eraseAll_eq (values : List Expr) : eraseAll values = values.map Expr.erase := by
  induction values with
  | nil => rfl
  | cons value rest ih => rw [eraseAll, ih, map_cons]

theorem eraseFields_eq :
    eraseFields fields = fields.map fun field => ⟨field.name, field.value.erase⟩ := by
  induction fields with
  | nil => rfl
  | cons field rest ih =>
    rw [show field = ⟨field.name, field.value⟩ from rfl, eraseFields, ih, map_cons]

theorem erasePairs_eq (entries : List (Expr × Expr)) :
    erasePairs entries = entries.map fun entry => (entry.1.erase, entry.2.erase) := by
  induction entries with
  | nil => rfl
  | cons entry rest ih =>
    rw [show entry = (entry.1, entry.2) from rfl, erasePairs, ih, map_cons]

theorem eraseStmts_eq (statements : List (Stmt Expr)) :
    eraseStmts statements = statements.map Stmt.erase := by
  induction statements with
  | nil => rfl
  | cons statement rest ih => cases statement <;> rw [eraseStmts, ih, map_cons] <;> rfl

theorem eraseRecord_eq (fields : List (RecordField Expr)) :
    eraseRecord fields = fields.map RecordField.erase := by
  induction fields with
  | nil => rfl
  | cons field rest ih =>
    rw [eraseRecord, ih, map_cons]
    rfl

/-! The reader takes what the writer wrote. -/

theorem codes_choice {A : Type} {choices : List A} {word : A → Nat} {value : A}
    (found : choices.find? (fun choice => word choice == word value) = some value) :
    Codes (KeyReader.choice choices word) [word value] ([] : List Omission) value := by
  intro words omitted
  change (choices.find? (fun choice => word choice == word value)).bind
    (fun choice => some (choice, (⟨words, omitted⟩ : Input Nat Omission))) = _
  rw [found]
  rfl

theorem codes_typeConst (constant : TypeConst) :
    Codes KeyReader.typeConst [KeyWriter.typeConst constant] [] constant :=
  codes_choice (by cases constant <;> rfl)

theorem codes_binOp (operator : BinOp) :
    Codes KeyReader.binOp [KeyWriter.binOp operator] [] operator :=
  codes_choice (by cases operator <;> rfl)

theorem codes_keyword (operator : PrefixOp) :
    Codes KeyReader.keyword [KeyWriter.keyword operator] [] operator :=
  codes_choice (by cases operator <;> rfl)

theorem codes_flag (value : Bool) : Codes KeyReader.flag (flag value) [] value := by
  have read : Codes KeyReader.flag (flag value) [] (value.toNat == 1) :=
    (codes_next value.toNat).map _
  cases value <;> exact read

theorem codes_text (content : Text) : Codes KeyReader.text (text content) [] content := by
  have bytes : Codes (times next (content.map UInt8.toNat).length : KeyReader (List Nat))
      ((content.map UInt8.toNat).flatMap fun word => [word])
      ((content.map UInt8.toNat).flatMap fun _ => [])
      ((content.map UInt8.toNat).map fun word => word) :=
    times fun word _ => codes_next word
  rw [flatMap_singleton', map_id', length_map] at bytes
  have none : ((content.map UInt8.toNat).flatMap fun _ => ([] : List Omission)) = [] := by
    rw [flatMap_eq_nil_iff]
    exact fun _ _ => rfl
  rw [none] at bytes
  have whole := bytes.map fun words => words.map UInt8.ofNat
  have same : (content.map UInt8.toNat).map UInt8.ofNat = content := by
    rw [map_map]
    refine (map_congr_left fun byte _ => ?_).trans (map_id _)
    exact UInt8.ofNat_toNat
  rw [same] at whole
  unfold KeyReader.text text
  apply Codes.next
  exact whole

theorem codes_binder (binder : Option BinderId) :
    Codes KeyReader.binder (binderId binder) [] binder := by
  cases binder with
  | none => exact fun _ _ => rfl
  | some binder =>
    have read := (codes_next (V := Omission) binder.val).map fun word =>
      if inside : word < 18446744073709551615 then some (⟨word, inside⟩ : BinderId) else none
    rw [dif_pos binder.isLt] at read
    exact read

theorem le_flatMap {A : Type} {items : List A} {written : A → Words} {item : A}
    (member : item ∈ items) : (written item).length ≤ (items.flatMap written).length := by
  obtain ⟨before, after, rfl⟩ := append_of_mem member
  rw [flatMap_append, flatMap_cons, length_append, length_append]
  omega

theorem value_le_stmt (statement : Stmt Expr) :
    (expr binderId statement.value).length ≤ (KeyWriter.stmt binderId statement).length := by
  cases statement with
  | expr value => exact Nat.le_succ _
  | binding bound =>
    show (expr binderId bound.value).length ≤ _
    simp only [KeyWriter.stmt, length_cons, length_append]
    omega

theorem value_le_blockField (field : RecordField Expr) :
    (expr binderId field.value).length ≤ (KeyWriter.blockField binderId field).length := by
  simp only [KeyWriter.blockField, length_append]
  omega

/-- The reader takes the key of an expression, given what the key leaves out. -/
def Coded (read : KeyReader Expr) (e : Expr) : Prop :=
  Codes read (expr binderId e) e.omissions e.erase

/-- An expression's key is read with as much fuel as it has words. -/
def Fuelled (e : Expr) : Prop :=
  ∀ fuel, (expr binderId e).length ≤ fuel → Coded (KeyReader.expr fuel) e

section

variable {fuel : Nat}

section

variable {values : List Expr} (each : ∀ e ∈ values, Fuelled e)
  (enough : (exprs binderId values).length ≤ fuel)

include each enough

theorem codes_times :
    Codes (times (KeyReader.expr fuel) values.length) (exprs binderId values) (omissionsAll values)
      (eraseAll values) := by
  rw [exprs_eq] at enough ⊢
  rw [omissionsAll_eq, eraseAll_eq]
  exact times fun e member => each e member fuel ((le_flatMap member).trans enough)

theorem codes_exprs :
    Codes (KeyReader.exprs (KeyReader.expr fuel)) (values.length :: exprs binderId values)
      (omissionsAll values) (eraseAll values) :=
  Codes.next (codes_times each enough)

end

theorem codes_optExpr {value : Option Expr} (own : ∀ e ∈ value, Fuelled e)
    (enough : (optExpr binderId value).length ≤ fuel) :
    Codes (KeyReader.optExpr (KeyReader.expr fuel)) (optExpr binderId value) (omissionsOpt value)
      (eraseOpt value) := by
  cases value with
  | none => exact (codes_flag false).bind (codes_pure none)
  | some inner =>
    exact (codes_flag true).bind ((own inner rfl fuel (Nat.le_of_succ_le enough)).map some)

theorem codes_fieldValues {fields : List (StructFieldValue Expr)}
    (each : ∀ f ∈ fields, Fuelled f.value) (enough : (fieldValues binderId fields).length ≤ fuel) :
    Codes (times (KeyReader.fieldValue (KeyReader.expr fuel)) fields.length)
      (fieldValues binderId fields) (omissionsFields fields) (eraseFields fields) := by
  rw [fieldValues_eq] at enough ⊢
  rw [omissionsFields_eq, eraseFields_eq]
  refine times fun field member => (codes_text field.name).bind
    ((each field member fuel ?_).map (StructFieldValue.mk field.name))
  have within := (le_flatMap member).trans enough
  rw [length_append] at within
  omega

theorem codes_pairs {entries : List (Expr × Expr)}
    (each : ∀ e ∈ entries, Fuelled e.1 ∧ Fuelled e.2)
    (enough : (pairs binderId entries).length ≤ fuel) :
    Codes (times (KeyReader.pair (KeyReader.expr fuel)) entries.length) (pairs binderId entries)
      (omissionsPairs entries) (erasePairs entries) := by
  rw [pairs_eq] at enough ⊢
  rw [omissionsPairs_eq, erasePairs_eq]
  refine times fun entry member => ?_
  have within := (le_flatMap member).trans enough
  rw [length_append] at within
  obtain ⟨first, second⟩ := each entry member
  exact (first fuel (by omega)).bind ((second fuel (by omega)).map (Prod.mk entry.1.erase))

theorem codes_looping (stamped : Bool) :
    Codes KeyReader.looping [] [.looping stamped] stamped := fun _ _ => rfl

theorem codes_marks (count : Nat) : Codes KeyReader.count [] [.marks count] count := fun _ _ => rfl

theorem codes_operands (count : Nat) :
    Codes KeyReader.count [] [.operands count] count := fun _ _ => rfl

theorem codes_isTypeSet (value : Bool) :
    Codes KeyReader.isTypeSet [] [.isTypeSet value] value := fun _ _ => rfl

theorem codes_stmt {read : KeyReader Expr} {statement : Stmt Expr}
    (own : Coded read statement.value) : Codes (KeyReader.stmt read) (KeyWriter.stmt binderId statement) statement.omissions
      statement.erase := by
  cases statement with
  | expr value => exact Codes.next (own.map Stmt.expr)
  | binding bound =>
    exact Codes.next ((codes_flag _).bind ((codes_flag _).bind ((codes_binder _).bind
      ((codes_looping _).bind (own.map _)))))

theorem codes_stmts {statements : List (Stmt Expr)} (each : ∀ s ∈ statements, Fuelled s.value)
    (enough : (stmts binderId statements).length ≤ fuel) :
    Codes (times (KeyReader.stmt (KeyReader.expr fuel)) statements.length)
      (stmts binderId statements) (omissionsStmts statements) (eraseStmts statements) := by
  rw [stmts_eq] at enough ⊢
  rw [omissionsStmts_eq, eraseStmts_eq]
  exact times fun statement member => codes_stmt (each statement member fuel
    ((value_le_stmt statement).trans ((le_flatMap member).trans enough)))

theorem codes_fieldName (name : Option Text) :
    Codes (KeyReader.fieldName name.isSome) ((name.map text).getD []) [] name := by
  cases name with
  | none => exact codes_pure none
  | some name => exact (codes_text name).map some

theorem codes_recordFields {fields : List (RecordField Expr)}
    (each : ∀ f ∈ fields, Fuelled f.value)
    (enough : (recordFields binderId fields).length ≤ fuel) :
    Codes (times (KeyReader.recordField (KeyReader.expr fuel)) fields.length)
      (recordFields binderId fields) (omissionsRecord fields) (eraseRecord fields) := by
  rw [recordFields_eq] at enough ⊢
  rw [omissionsRecord_eq, eraseRecord_eq]
  refine times fun field member => ?_
  have own := each field member fuel
    ((value_le_blockField field).trans ((le_flatMap member).trans enough))
  exact (codes_flag _).bind ((codes_flag _).bind ((codes_flag _).bind ((codes_flag _).bind
    ((codes_fieldName _).bind ((codes_binder _).bind ((codes_looping _).bind (own.map _)))))))

end

theorem coded_expr (e : Expr) : Fuelled e := by
  have opened : ∀ {tag : Nat} {words : Words} {omitted : List Omission} {made : Expr},
      (∀ fuel, words.length ≤ fuel →
        Codes (KeyReader.form (KeyReader.expr fuel) tag) words omitted made) →
      ∀ fuel, (tag :: words).length ≤ fuel →
        Codes (KeyReader.expr fuel) (tag :: words) omitted made := by
    intro tag words omitted made form fuel enough
    rw [length_cons] at enough
    cases fuel with
    | zero => omega
    | succ fuel => exact Codes.next (form fuel (Nat.le_of_succ_le_succ enough))
  induction e using Expr.induction with
  | int value span => exact opened fun _ _ => (codes_next value).map _
  | float bits span =>
    refine opened fun _ _ => ?_
    have read := (codes_next bits.toNat).map (V := Omission) fun word =>
      Expr.float (UInt32.ofNat word) noSpan
    rw [UInt32.ofNat_toNat] at read
    exact read
  | str content span => exact opened fun _ _ => (codes_text content).map _
  | typeConst constant span => exact opened fun _ _ => (codes_typeConst constant).map _
  | name text span binder => exact opened fun _ _ => (codes_binder binder).map _
  | placeholder span | err range start => exact opened fun _ _ => codes_pure _
  | any span => exact opened fun _ _ => (codes_isTypeSet false).bind (codes_pure _)
  | lambda parameter parameterSpan binder type perspective body span ih ih' own =>
    refine opened fun fuel enough => ?_
    rw [length_append, length_append, length_cons, length_append, length_cons] at enough
    exact (codes_binder binder).bind ((codes_optExpr ih (by omega)).bind (Codes.next
      ((codes_optExpr ih' (by omega)).bind (Codes.next ((own fuel (by omega)).map _)))))
  | apply function argument span ih ih' | unify actual expected span ih ih'
  | templateUnify actual template span ih ih' | index array position span ih ih'
  | fieldRead container key span ih ih' | tableFind container key span ih ih'
  | typeTable key value span ih ih' | array template length span ih ih' =>
    refine opened fun fuel enough => ?_
    rw [length_append] at enough
    exact (ih fuel (by omega)).bind ((ih' fuel (by omega)).map _)
  | binOp operator left right span ih ih' =>
    refine opened fun fuel enough => ?_
    rw [length_cons, length_append] at enough
    exact (codes_binOp operator).bind ((ih fuel (by omega)).bind ((ih' fuel (by omega)).map _))
  | cond condition thenBranch elseBranch span ih ih' own =>
    refine opened fun fuel enough => ?_
    rw [length_append, length_append] at enough
    exact (ih fuel (by omega)).bind ((ih' fuel (by omega)).bind ((own fuel (by omega)).map _))
  | assert value span ih =>
    exact opened fun fuel enough => (ih fuel enough).map _
  | keyword operator operands span ih =>
    refine opened fun fuel enough => ?_
    rw [length_cons] at enough
    exact (codes_keyword operator).bind ((codes_operands _).bind
      ((codes_times ih (by omega)).map _))
  | nativeCall op args span ih =>
    refine opened fun fuel enough => ?_
    rw [length_append, length_cons] at enough
    exact (codes_text op).bind ((codes_exprs ih (by omega)).map _)
  | namedFieldRead container name span ih =>
    refine opened fun fuel enough => ?_
    rw [length_append] at enough
    have read : Codes (KeyReader.form (KeyReader.expr fuel) 32)
        (expr binderId container ++ text name) (container.omissions ++ [])
        (.namedFieldRead container.erase name noSpan) :=
      (ih fuel (by omega)).bind ((codes_text name).map _)
    rw [append_nil] at read
    exact read
  | annotated value type perspective refinement doc marks span own typed viewed refined doced =>
    refine opened fun fuel enough => ?_
    rw [length_append, length_append, length_append, length_append, length_append] at enough
    have texts : Codes (times KeyReader.text marks.length) (marks.flatMap text)
        (marks.flatMap fun _ => []) (marks.map fun mark => mark) :=
      times fun mark _ => codes_text mark
    have none : (marks.flatMap fun _ => ([] : List Omission)) = [] := by
      rw [flatMap_eq_nil_iff]
      exact fun _ _ => rfl
    rw [none, map_id'] at texts
    exact (own fuel (by omega)).bind ((codes_optExpr typed (by omega)).bind
      ((codes_optExpr viewed (by omega)).bind ((codes_optExpr doced (by omega)).bind
        ((codes_optExpr refined (by omega)).bind ((codes_marks _).bind (texts.map _))))))
  | tuple elements span ih =>
    refine opened fun fuel enough => ?_
    rw [length_cons] at enough
    exact (codes_exprs ih (by omega)).map _
  | set members span ih =>
    refine opened fun fuel enough => ?_
    rw [length_cons] at enough
    exact (codes_exprs ih (by omega)).map _
  | typeSet element span ih =>
    exact opened fun fuel enough => (codes_isTypeSet true).bind ((ih fuel enough).map _)
  | structInst callee fields span own ih =>
    refine opened fun fuel enough => ?_
    rw [length_append, length_cons] at enough
    exact (own fuel (by omega)).bind (Codes.next ((codes_fieldValues ih (by omega)).map _))
  | structValue fields span ih =>
    refine opened fun fuel enough => ?_
    rw [length_cons] at enough
    exact Codes.next ((codes_fieldValues ih (by omega)).map _)
  | arrayInst template elements span own ih =>
    refine opened fun fuel enough => ?_
    rw [length_append, length_cons] at enough
    exact (own fuel (by omega)).bind ((codes_exprs ih (by omega)).map _)
  | table entries span ih =>
    refine opened fun fuel enough => ?_
    rw [length_cons] at enough
    exact Codes.next ((codes_pairs ih (by omega)).map _)
  | shallow inner depth span ih =>
    refine opened fun fuel enough => ?_
    rw [length_cons] at enough
    exact Codes.next ((ih fuel (by omega)).map _)
  | block statements result span ih own =>
    refine opened fun fuel enough => ?_
    rw [length_cons, length_append] at enough
    exact Codes.next ((codes_stmts ih (by omega)).bind ((own fuel (by omega)).map _))
  | recordBlock fields span ih =>
    refine opened fun fuel enough => ?_
    rw [length_cons] at enough
    exact Codes.next ((codes_recordFields ih (by omega)).map _)
  | gc inner span ih => exact opened fun fuel enough => (ih fuel enough).map _

theorem codes_blockStmt {fuel : Nat} (statement : BlockStmt)
    (own : Coded (KeyReader.expr fuel) statement.stmt.value) :
    Codes (KeyReader.blockStmt fuel) (recordField binderId statement) statement.stmt.omissions
      statement.erase := by
  obtain ⟨stmt, isPublic⟩ := statement
  cases stmt with
  | expr value =>
    exact Codes.next ((codes_flag false).bind ((codes_flag true).bind ((codes_flag isPublic).bind
      (own.map _))))
  | binding bound =>
    have kept : (!(!bound.restrictive)) = bound.restrictive := Bool.not_not _
    have read : Codes (KeyReader.blockStmt fuel)
        (recordField binderId ⟨.binding bound, isPublic⟩) (Stmt.omissions (.binding bound))
        ⟨.binding ⟨bound.name, noSpan, bound.binder, bound.value.erase, !(!bound.restrictive),
          bound.cached, bound.looping && !bound.restrictive && bound.value.stampable⟩,
          isPublic⟩ :=
      Codes.next ((codes_flag true).bind ((codes_flag _).bind ((codes_flag isPublic).bind
        ((codes_text bound.name).bind ((codes_flag _).bind ((codes_binder _).bind
          ((codes_looping _).bind (own.map _))))))))
    rw [kept] at read
    exact read

theorem value_le_recordField (statement : BlockStmt) :
    (expr binderId statement.stmt.value).length ≤ (recordField binderId statement).length := by
  obtain ⟨stmt, isPublic⟩ := statement
  cases stmt with
  | expr value =>
    show (expr binderId value).length ≤ _
    simp only [recordField, length_cons, length_append]
    omega
  | binding bound =>
    show (expr binderId bound.value).length ≤ _
    simp only [recordField, length_cons, length_append]
    omega

theorem codes_program (p : Program) {fuel : Nat} (enough : (program binderId p).length ≤ fuel) :
    Codes (KeyReader.program fuel) (program binderId p) p.omissions p.erase := by
  obtain ⟨statements, tail, errorBlocks, stmtRanges⟩ := p
  cases tail with
  | none =>
    have each : Codes (times (KeyReader.blockStmt fuel) statements.length)
        (statements.flatMap (recordField binderId))
        (statements.flatMap fun statement => statement.stmt.omissions)
        (statements.map BlockStmt.erase) := by
      refine times fun statement member => codes_blockStmt statement ?_
      apply coded_expr
      have listed := @le_flatMap _ statements (recordField binderId) statement member
      have own := value_le_recordField statement
      simp only [program, length_append, length_cons] at enough
      omega
    have read : Codes (KeyReader.program fuel)
        (flag true ++ statements.length :: statements.flatMap (recordField binderId))
        ((statements.flatMap fun statement => statement.stmt.omissions))
        ⟨statements.map BlockStmt.erase, none, [], []⟩ :=
      (codes_flag true).bind (Codes.next (each.map _))
    rw [Program.omissions, omissionsOpt, append_nil]
    exact read
  | some tail =>
    have sized : (stmts binderId (statements.map BlockStmt.stmt)).length ≤ fuel ∧
        (expr binderId tail).length ≤ fuel := by
      simp only [program, length_append, length_cons] at enough
      omega
    have each := codes_stmts (fun statement _ => coded_expr statement.value) sized.1
    rw [length_map, omissionsStmts_eq, flatMap_map, eraseStmts_eq, map_map] at each
    have read : Codes (KeyReader.program fuel)
        (flag false ++ statements.length ::
          (stmts binderId (statements.map BlockStmt.stmt) ++ 2 :: expr binderId tail))
        ((statements.flatMap fun statement => statement.stmt.omissions) ++ tail.omissions)
        ⟨(statements.map (Stmt.erase ∘ BlockStmt.stmt)).map fun statement => ⟨statement, false⟩,
          some tail.erase, [], []⟩ :=
      (codes_flag false).bind (Codes.next (each.bind
        (Codes.next ((coded_expr tail fuel sized.2).map _))))
    rw [map_map] at read
    exact read

theorem erase_eq_of_contentKey {p q : Program} (keys : contentKey p = contentKey q)
    (left : p.omissions = q.omissions) : p.erase = q.erase := by
  have words : program binderId p = program binderId q := (List.cons.inj keys).2
  have first := codes_program p (Nat.le_refl _)
  have second := codes_program q (Nat.le_refl _)
  rw [words, left] at first
  exact first.unique second

end LichenVm.Ast
