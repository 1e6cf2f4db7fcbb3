import LichenVm.LoweringErased

namespace LichenVm.Lowering

open Ast HighIr

theorem topField_erase (statement : BlockStmt) :
    topField statement.erase = (topField statement).erase := by
  obtain ⟨stmt, isPublic⟩ := statement
  cases stmt with
  | expr value =>
    have span : value.erase.span = noSpan := by cases value <;> rfl
    show RecordField.mk none none value.erase isPublic true false false value.erase.span = _
    rw [span]
    rfl
  | binding bound =>
    show RecordField.mk (some bound.name) bound.binder bound.value.erase isPublic
      (!bound.restrictive) bound.cached
      (bound.looping && !bound.restrictive && bound.value.stampable) noSpan = _
    unfold RecordField.erase topField
    dsimp only [Option.isSome_some]
    rw [Bool.and_true]

theorem agrees_compileProgram (p : Ast.Program) :
    Agrees (compileProgram p) (compileProgram p.erase) := by
  obtain ⟨statements, tail, errorBlocks, stmtRanges⟩ := p
  cases tail with
  | some tail =>
    have stmts : (statements.map fun statement => BlockStmt.mk statement.stmt.erase false).map
        BlockStmt.stmt = eraseStmts (statements.map BlockStmt.stmt) := by
      rw [eraseStmts_eq, List.map_map, List.map_map]
      rfl
    show Agrees (compileScopeStatements (valuesOf (statements.map BlockStmt.stmt)) >>= _)
      (compileScopeStatements (valuesOf ((statements.map fun statement =>
        BlockStmt.mk statement.stmt.erase false).map BlockStmt.stmt)) >>= _)
    rw [stmts]
    exact (agrees_compileScopeStatements (twins_valuesOf fun s _ => erasable s.value)).bind fun ids =>
      (erasable tail).agrees.bind fun final => .pure (ids, final)
  | none =>
    have fields : (statements.map BlockStmt.erase).map topField =
        eraseRecord (statements.map topField) := by
      rw [eraseRecord_eq, List.map_map, List.map_map]
      exact List.map_congr_left fun statement _ => topField_erase statement
    show Agrees (compileRecordFields (recordValues (statements.map topField)) _)
      (compileRecordFields (recordValues ((statements.map BlockStmt.erase).map topField)) _)
    rw [fields]
    exact agrees_compileRecordFields _ _ (heads_recordValues _)
      (twins_recordValues fun f _ => erasable f.value)

theorem agrees_seedImports (imports : List ImportBinder) :
    Agrees (seedImports imports) (seedImports imports) := by
  induction imports with
  | nil => exact .pure ()
  | cons bound rest ih =>
    exact (agrees_alloc _ _ _).bind fun id => (agrees_setBinder _ _).bind fun _ => ih

/-- The IR a lowering answers, its spans and cells aside. -/
def irOf (p : Ast.Program) (imports : List ImportBinder) (prelude : List (Text × BinderId))
    (cells : Option (Path → Option StaticNodeId)) : Option IR :=
  (compileResolved p imports prelude cells).map Prod.fst

theorem irOf_eq_of_alike {made made' : Option ((List ExprId × ExprId) × Compiler)}
    (alike : Alike made made') :
    made.map (fun made => { made.2.ir with stmtRoots := made.1.1, root := made.1.2 }) =
      made'.map fun made => { made.2.ir with stmtRoots := made.1.1, root := made.1.2 } := by
  cases alike with
  | none => rfl
  | some both =>
    rw [Option.map_some, Option.map_some, both.1, both.2.ir]

theorem irOf_eq (p : Ast.Program) (imports : List ImportBinder) (prelude : List (Text × BinderId))
    (cells : Option (Path → Option StaticNodeId)) :
    irOf p imports prelude cells =
      (compileTop p imports (Compiler.start p prelude cells)).map fun made =>
        { made.2.ir with stmtRoots := made.1.1, root := made.1.2 } := by
  unfold irOf compileResolved
  rw [Option.map_map]
  rfl

/-- Programs with one key that leaves out the same, and whose marked bindings have the same clean
cells, are lowered to one IR. -/
theorem irOf_eq_of_contentKey {p q : Ast.Program} (imports : List ImportBinder)
    (prelude : List (Text × BinderId)) (cells : Option (Path → Option StaticNodeId))
    (left : p.omissions = q.omissions) (clean : cleanCells p cells = cleanCells q cells)
    (keys : contentKey p = contentKey q) :
    irOf p imports prelude cells = irOf q imports prelude cells := by
  have erased := erase_eq_of_contentKey keys left
  -- Each of the two is lowered as what they both erase to.
  have toErased : ∀ r : Ast.Program, cleanCells r cells = cleanCells p cells →
      irOf r imports prelude cells =
        (compileTop r.erase imports (Compiler.start p prelude cells)).map fun made =>
          { made.2.ir with stmtRoots := made.1.1, root := made.1.2 } := by
    intro r same
    rw [irOf_eq]
    apply irOf_eq_of_alike
    have top : Agrees (compileTop r imports) (compileTop r.erase imports) :=
      (agrees_seedImports imports).bind fun _ => agrees_compileProgram r
    exact top _ _ ⟨rfl, same, rfl, rfl, rfl⟩
  rw [toErased p rfl, toErased q clean.symm, erased]

section

/-- `f := x => x; f`, with or without a `@loop` mark on `f`, at a span and under names of its own. -/
def identity (span : Span) (f x : Text) (looping : Bool) : Ast.Program :=
  ⟨[⟨.binding ⟨f, span, some 0,
      .lambda x span (some 1) none none (.name x span (some 1)) span, false, false, looping⟩, false⟩],
    some (.name f span (some 0)), [], []⟩

/-- Renamed and moved, the function has the same key and the same IR. -/
theorem irOf_identity :
    contentKey (identity (1, 1) [102] [120] true) = contentKey (identity (2, 7) [103] [121] true) ∧
      irOf (identity (1, 1) [102] [120] true) [] [] none =
        irOf (identity (2, 7) [103] [121] true) [] [] none :=
  ⟨by decide +kernel, irOf_eq_of_contentKey [] [] none (by decide +kernel) rfl (by decide +kernel)⟩

/-- The key does not tell a function marked `@loop` from one that is not. -/
theorem contentKey_drops_loop :
    contentKey (identity (1, 1) [102] [120] true) = contentKey (identity (1, 1) [102] [120] false) ∧
      irOf (identity (1, 1) [102] [120] true) [] [] none ≠
        irOf (identity (1, 1) [102] [120] false) [] [] none := by
  decide +kernel

end

end LichenVm.Lowering
