import LichenVm.Lowering
import LichenVm.Occurrences
import LichenVm.Worklist

/-! Dirty propagation: which retained cells an edit invalidates. -/

open List Relation

namespace LichenVm.Ast.Dirty

/-- One statement's dependency contribution. -/
structure Deps where
  /-- Every binder its subtree declares, at any depth. -/
  declares : List BinderId
  /-- Every binder that a use of a name in its subtree resolves to. -/
  reads : List BinderId

/-- What a statement contributes: a binder it declares, then its value's own. -/
def collect : Stmt Expr → List (BinderId ⊕ Expr)
  | .binding bound => bound.binder.toList.map .inl ++ [.inr bound.value]
  | .expr value => [.inr value]

/-- What `walk` meets in an expression: the binders it declares and the parts it enters. -/
def visits : Expr → List (BinderId ⊕ Expr)
  | .lambda _ _ binder type perspective body _ =>
    binder.toList.map .inl ++ (type.toList ++ perspective.toList ++ [body]).map .inr
  | .annotated value type perspective refinement doc _ _ =>
    (value :: (type.toList ++ perspective.toList ++ doc.toList ++ refinement.toList)).map .inr
  | .block statements result _ => statements.flatMap collect ++ [.inr result]
  | .recordBlock fields _ =>
    fields.flatMap fun field => field.binder.toList.map .inl ++ [.inr field.value]
  | e => (parts e).map .inr

/-- The binder a use of a name resolves to. -/
def used : Expr → List BinderId
  | .name _ _ binder => binder.toList
  | _ => []

/-- The binders that an expression's own form declares. -/
def bound : Expr → List BinderId
  | .lambda _ _ binder _ _ _ _ => binder.toList
  | .block statements _ _ => statements.flatMap fun
    | .binding bound => bound.binder.toList
    | .expr _ => []
  | .recordBlock fields _ => fields.flatMap fun field => field.binder.toList
  | _ => []

theorem mem_visits_part {e part : Expr} : .inr part ∈ visits e ↔ part ∈ parts e := by
  cases e with
  | annotated => simp [visits, parts, or_comm]
  | block statements result span =>
    simp only [visits, parts, mem_append, mem_flatMap, mem_map, mem_singleton]
    refine or_congr (exists_congr fun statement => and_congr_right fun _ => ?_) (by simp)
    cases statement <;> simp [collect, Stmt.value, eq_comm]
  | recordBlock fields span => simp [visits, parts, eq_comm]
  | _ => simp [visits, parts]

variable {binder : BinderId}

theorem mem_visits_bound {e : Expr} : .inl binder ∈ visits e ↔ binder ∈ bound e := by
  cases e with
  | block statements result span =>
    simp only [visits, bound, mem_append, mem_flatMap, mem_singleton, reduceCtorEq, or_false]
    refine exists_congr fun statement => and_congr_right fun _ => ?_
    cases statement <;> simp [collect]
  | _ => simp [visits, bound]

/-- The binders an expression declares, to the left, and reads, in the order of the walk. -/
def walk (e : Expr) : List (BinderId ⊕ BinderId) :=
  (used e).map .inr ++ (visits e).attach.flatMap fun visit =>
    match visit with
    | ⟨.inl binder, _⟩ => [.inl binder]
    | ⟨.inr part, _⟩ => walk part
termination_by sizeOf e
decreasing_by exact sizeOf_part (mem_visits_part.1 ‹_›)

/-- What is contributed at one place of the walk. -/
def entered (visit : BinderId ⊕ Expr) : List (BinderId ⊕ BinderId) :=
  visit.elim (fun binder => [.inl binder]) walk

theorem walk_eq (e : Expr) : walk e = (used e).map .inr ++ (visits e).flatMap entered := by
  rw [walk]
  congr 1
  rw [flatMap_subtype (g := entered), unattach_attach]
  intro visit _
  cases visit <;> rfl

/-- The walk leaves out no occurrence below an expression. -/
theorem mem_walk {e : Expr} {event : BinderId ⊕ BinderId} :
    event ∈ walk e ↔ ∃ below ∈ occurrences e,
      event ∈ (bound below).map .inl ++ (used below).map .inr := by
  induction e using parts_induction with
  | step e ih =>
    rw [walk_eq, occurrences_eq]
    constructor
    · intro met
      rcases mem_append.1 met with own | met
      · exact ⟨e, mem_cons_self, mem_append_right _ own⟩
      · obtain ⟨visit, inside, met⟩ := mem_flatMap.1 met
        cases visit with
        | inl binder =>
          cases mem_singleton.1 met
          have own := mem_visits_bound.1 inside
          exact ⟨e, mem_cons_self, mem_append_left _ (mem_map_of_mem own)⟩
        | inr part =>
          have inside := mem_visits_part.1 inside
          obtain ⟨below, occurs, own⟩ := (ih part inside).1 met
          exact ⟨below, mem_cons_of_mem _ (mem_flatMap.2 ⟨part, inside, occurs⟩), own⟩
    · rintro ⟨below, occurs, own⟩
      rcases mem_cons.1 occurs with rfl | occurs
      · rcases mem_append.1 own with declares | reads
        · obtain ⟨binder, declared, rfl⟩ := mem_map.1 declares
          exact mem_append_right _ (mem_flatMap.2
            ⟨.inl binder, mem_visits_bound.2 declared, mem_singleton.2 rfl⟩)
        · exact mem_append_left _ reads
      · obtain ⟨part, inside, occurs⟩ := mem_flatMap.1 occurs
        have met := (ih part inside).2 ⟨below, occurs, own⟩
        exact mem_append_right _ (mem_flatMap.2 ⟨.inr part, mem_visits_part.2 inside, met⟩)

def contributed (events : List (BinderId ⊕ BinderId)) : Deps where
  declares := events.filterMap Sum.getLeft?
  reads := events.filterMap Sum.getRight?

/-- One entry for each statement, and one for the tail when there is one. -/
def dependencies (p : Program) : List Deps :=
  (p.statements.map fun statement => contributed ((collect statement.stmt).flatMap entered)) ++
    p.expr.toList.map fun tail => contributed (walk tail)

/-- The statements that read a binder, once for each use. -/
def readersOf (deps : List Deps) (binder : BinderId) : List Nat :=
  deps.zipIdx.flatMap fun entry => (entry.1.reads.filter (· = binder)).map fun _ => entry.2

def declaresAt (deps : List Deps) (statement : Nat) : List BinderId :=
  (deps[statement]?.map Deps.declares).getD []

/-- The statements the edit reaches: re-parsed ones, and their transitive readers. The window is a
range, so that it marks none of its statements twice. -/
def dirtyStatements (deps : List Deps) (window : Nat × Nat) : List Nat :=
  let begun := (List.range' window.1 (window.2 - window.1)).foldl Worklist.reach
    (replicate deps.length false, [])
  let dirty := Worklist.drain (fun statement => (declaresAt deps statement).flatMap (readersOf deps))
    (Worklist.left begun) begun
  (List.range deps.length).filter fun statement => dirty[statement]? = some true

/-- The marked bindings an edit invalidates, by occurrence path. -/
def dirtyMarkedPaths (previous current : Program) (previousWindow currentWindow : Nat × Nat) :
    List Path :=
  [(previous, previousWindow), (current, currentWindow)].flatMap fun side =>
    (dirtyStatements (dependencies side.1) side.2).flatMap fun statement =>
      (declaresAt (dependencies side.1) statement).filterMap fun binder =>
        (Lowering.cachedBindings side.1 binder).map Prod.fst

/-! What the walk finds, in terms of the program. -/

/-- A program's statements, its tail among them. -/
def topLevel (p : Program) : List (Stmt Expr) :=
  p.statements.map BlockStmt.stmt ++ p.expr.toList.map .expr

/-- A statement declares its own binder and every binder of an occurrence below it. -/
def Declares (statement : Stmt Expr) (binder : BinderId) : Prop :=
  (∃ own, statement = .binding own ∧ own.binder = some binder) ∨
    ∃ below ∈ occurrences statement.value, binder ∈ bound below

/-- A use of a name below the statement resolves to the binder. -/
def Names (statement : Stmt Expr) (binder : BinderId) : Prop :=
  ∃ below ∈ occurrences statement.value, binder ∈ used below

/-- One top-level statement reads a binder that the other declares. -/
def Reads (p : Program) (declaring reading : Nat) : Prop :=
  ∃ one other binder, (topLevel p)[declaring]? = some one ∧ (topLevel p)[reading]? = some other ∧
    Declares one binder ∧ Names other binder

theorem dependencies_eq (p : Program) : dependencies p =
    (topLevel p).map fun statement => contributed ((collect statement).flatMap entered) := by
  simp [dependencies, topLevel, collect, entered, Function.comp_def]

theorem mem_declares {statement : Stmt Expr} :
    binder ∈ (contributed ((collect statement).flatMap entered)).declares ↔
      Declares statement binder := by
  cases statement <;>
    simp [contributed, collect, entered, Declares, Stmt.value, mem_walk, Sum.getLeft?_eq_some_iff]

theorem mem_reads {statement : Stmt Expr} :
    binder ∈ (contributed ((collect statement).flatMap entered)).reads ↔
      Names statement binder := by
  cases statement <;>
    simp [contributed, collect, entered, Names, Stmt.value, mem_walk, Sum.getRight?_eq_some_iff]

variable {p : Program} {statement : Nat}

theorem mem_declaresAt :
    binder ∈ declaresAt (dependencies p) statement ↔
      ∃ one, (topLevel p)[statement]? = some one ∧ Declares one binder := by
  rw [declaresAt, dependencies_eq, getElem?_map]
  cases (topLevel p)[statement]? with
  | none => simp
  | some one => simp [mem_declares]

theorem mem_readersOf :
    statement ∈ readersOf (dependencies p) binder ↔
      ∃ one, (topLevel p)[statement]? = some one ∧ Names one binder := by
  simp only [readersOf, dependencies_eq, mem_flatMap, mem_map, mem_filter, decide_eq_true_eq]
  constructor
  · rintro ⟨⟨deps, place⟩, listed, read, ⟨member, rfl⟩, rfl⟩
    rw [mem_zipIdx_iff_getElem?, getElem?_map] at listed
    obtain ⟨one, found, rfl⟩ := Option.map_eq_some_iff.1 listed
    exact ⟨one, found, mem_reads.1 member⟩
  · rintro ⟨one, found, names⟩
    refine ⟨(_, statement), ?_, binder, ⟨mem_reads.2 names, rfl⟩, rfl⟩
    rw [mem_zipIdx_iff_getElem?, getElem?_map, found]
    rfl

theorem mem_readers {statement reader : Nat} :
    reader ∈ (declaresAt (dependencies p) statement).flatMap (readersOf (dependencies p)) ∧
      reader < (dependencies p).length ↔ Reads p statement reader := by
  constructor
  · rintro ⟨listed, -⟩
    obtain ⟨binder, declared, read⟩ := mem_flatMap.1 listed
    obtain ⟨one, found, declares⟩ := mem_declaresAt.1 declared
    obtain ⟨other, found', names⟩ := mem_readersOf.1 read
    exact ⟨one, other, binder, found, found', declares, names⟩
  · rintro ⟨one, other, binder, found, found', declares, names⟩
    refine ⟨mem_flatMap.2 ⟨binder, mem_declaresAt.2 ⟨one, found, declares⟩,
      mem_readersOf.2 ⟨other, found', names⟩⟩, ?_⟩
    rw [dependencies_eq, length_map]
    exact (List.getElem?_eq_some_iff.1 found').1

/-- The window is marked and pending before anything is popped. -/
theorem inv_window (count : Nat) (next : Nat → List Nat) (window : Nat × Nat) :
    Worklist.Inv count next (fun v => window.1 ≤ v ∧ v < window.2 ∧ v < count)
      ((List.range' window.1 (window.2 - window.1)).foldl Worklist.reach
        (replicate count false, [])) := by
  have unmarked (v : Nat) : ¬ (replicate count false)[v]? = some true := by
    rw [getElem?_replicate]
    split <;> simp
  refine ⟨Worklist.length_foldl.trans length_replicate, fun v begun => ?_,
    Worklist.marked_pending (by simp), fun v marked => ?_, fun v marked => ?_⟩
  · refine Worklist.marked_foldl.2 (.inr ⟨mem_range'_1.2 ⟨begun.1, ?_⟩, ?_⟩)
    · omega
    · rw [length_replicate]
      exact begun.2.2
  · obtain ⟨listed, within⟩ := (Worklist.marked_foldl.1 marked).resolve_left (unmarked v)
    have listed := mem_range'_1.1 listed
    rw [length_replicate] at within
    exact ⟨v, ⟨listed.1, by omega, within⟩, .refl⟩
  · exact .inl ((Worklist.fresh_foldl marked).resolve_left (unmarked v))

theorem mem_dirtyStatements {window : Nat × Nat} :
    statement ∈ dirtyStatements (dependencies p) window ↔
      ∃ edited, (window.1 ≤ edited ∧ edited < window.2 ∧ edited < (topLevel p).length) ∧
        ReflTransGen (Reads p) edited statement := by
  have sized : (dependencies p).length = (topLevel p).length := by
    rw [dependencies_eq, length_map]
  have marked := Worklist.drain_iff (inv_window (dependencies p).length
    (fun statement => (declaresAt (dependencies p) statement).flatMap (readersOf (dependencies p)))
    window) (Nat.le_refl _) (v := statement)
  simp only [mem_readers] at marked
  rw [sized] at marked
  rw [dirtyStatements, mem_filter, decide_eq_true_eq, sized, marked, and_iff_right_iff_imp]
  rintro ⟨edited, begun, path⟩
  rw [mem_range]
  cases path with
  | refl => exact begun.2.2
  | tail _ edge =>
    obtain ⟨_, _, _, -, found, -⟩ := edge
    exact (List.getElem?_eq_some_iff.1 found).1

/-- A retained cell is invalidated exactly if a statement that declares its binder is reached from
the edit, in the previous program or in the current one. -/
theorem mem_dirtyMarkedPaths {previous current : Program}
    {previousWindow currentWindow : Nat × Nat} {path : Path} :
    path ∈ dirtyMarkedPaths previous current previousWindow currentWindow ↔
      ∃ side ∈ [(previous, previousWindow), (current, currentWindow)],
        ∃ edited statement one binder name,
          (side.2.1 ≤ edited ∧ edited < side.2.2 ∧ edited < (topLevel side.1).length) ∧
          ReflTransGen (Reads side.1) edited statement ∧
          (topLevel side.1)[statement]? = some one ∧ Declares one binder ∧
          Lowering.cachedBindings side.1 binder = some (path, name) := by
  rw [dirtyMarkedPaths, mem_flatMap]
  refine exists_congr fun side => and_congr_right fun _ => ?_
  constructor
  · intro invalid
    obtain ⟨statement, dirty, invalid⟩ := mem_flatMap.1 invalid
    obtain ⟨binder, declared, marked⟩ := mem_filterMap.1 invalid
    obtain ⟨⟨_, name⟩, cell, rfl⟩ := Option.map_eq_some_iff.1 marked
    obtain ⟨edited, begun, reached⟩ := mem_dirtyStatements.1 dirty
    obtain ⟨one, found, declares⟩ := mem_declaresAt.1 declared
    exact ⟨edited, statement, one, binder, name, begun, reached, found, declares, cell⟩
  · rintro ⟨edited, statement, one, binder, name, begun, reached, found, declares, cell⟩
    refine mem_flatMap.2 ⟨statement, mem_dirtyStatements.2 ⟨edited, begun, reached⟩, ?_⟩
    exact mem_filterMap.2 ⟨binder, mem_declaresAt.2 ⟨one, found, declares⟩, by rw [cell]; rfl⟩

end LichenVm.Ast.Dirty
