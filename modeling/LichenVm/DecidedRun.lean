import LichenVm.HeldValues
import Mathlib.Logic.Relation

open Option

namespace LichenVm

open DisjointSet

/-- One write of an evaluation to its module, through the module's own writers. -/
inductive Write {P : Program} (m : Module P) : Module P → Prop
  | call {m' : Module P} (op : Op P) (tree : op.keepsTree m = true) (ran : op.run m = some m') :
      Write m m'
  | unifyRef {m' : Module P} (a b answer : AnyNodeId) (ran : m.unifyRef a b = some (answer, m')) :
      Write m m'
  | valueIfAbsent (node : NodeId) (value : Option (Value P))
      (live : m.nodes.containsKey node = true) : Write m (m.writeNodeValueIfAbsent node value)
  | answer {m' : Module P} (node : NodeId) (value : Value P)
      (ran : m.writeNodeAnswer node value = some m') : Write m m'
  | find (node : NodeId) : Write m (m.find node).2
  /-- A write of a node's marks: its run stamp, its verdicts, its origin. -/
  | mark (node : NodeId) (f : Node P → Node P) (value : ∀ entry, (f entry).value = entry.value)
      (equality : ∀ entry, (f entry).equality = entry.equality)
      (block : ∀ entry, (f entry).block = entry.block)
      (owner : ∀ entry, (f entry).function = entry.function) : Write m (m.modifyNode node f)
  /-- A write of a block's arena or its declared root. -/
  | home (block : BlockId) (f : Block → Block) (parent : ∀ entry, (f entry).parent = entry.parent)
      (children : ∀ entry, (f entry).children = entry.children)
      (nodes : ∀ entry, (f entry).nodes = entry.nodes) : Write m (m.modifyBlock block f)
  /-- A write of a function's shell: its cells, its asserts, its origin. -/
  | shell (function : FunctionId) (f : Function → Function)
      (parent : ∀ entry, (f entry).parent = entry.parent)
      (scope : ∀ entry, (f entry).scope = entry.scope) : Write m (m.modifyFunction function f)
  /-- A write beside the node, block and function tables. -/
  | record {m' : Module P} (nodes : m'.nodes = m.nodes) (functions : m'.functions = m.functions)
      (blocks : m'.blocks = m.blocks) : Write m m'

/-- Any number of writes. -/
def Writes {P : Program} : Module P → Module P → Prop := Relation.ReflTransGen Write

namespace Writes

theorem one {P : Program} {m m' : Module P} (write : Write m m') : Writes m m' :=
  Relation.ReflTransGen.single write

theorem andThen {P : Program} {first second third : Module P} (one : Writes first second)
    (two : Writes second third) : Writes first third :=
  Relation.ReflTransGen.trans one two

end Writes

namespace Module

variable {P : Program} {m m' : Module P}

/-- One write keeps what holds between two calls. -/
theorem Settled.write (settled : Settled m) (write : Write m m') :
    Settled m' ∧ Carries Moved m m' := by
  have exact : Settled m' ∧ Carries Eq m m' → Settled m' ∧ Carries Moved m m' :=
    fun ⟨settled', carries⟩ => ⟨settled', carries.moved⟩
  cases write with
  | call op tree ran =>
    obtain ⟨settled', carries, -⟩ := settled.run op tree ran
    exact ⟨settled', carries⟩
  | unifyRef a b answer ran =>
    exact exact (settled.of_decides (unifyRef_decides settled.formed settled.decided ran))
  | valueIfAbsent node value live => exact exact (settled.writeNodeValueIfAbsent live value)
  | answer node value ran => exact exact (settled.writeNodeAnswer ran)
  | find node =>
    exact exact (settled.of_keeps (find_keeps settled.formed node).toKeeps (find_values m node))
  | mark node f value equality block owner =>
    exact exact (settled.of_keeps (modifyNode_keeps m node f equality block owner)
      (modifyNode_values m node f value))
  | home block f parent children nodes =>
    have tree := settled.tree.modifyBlock block f parent children fun entry node listed => by
      rw [nodes]
      exact listed
    refine exact (settled.of_same ⟨⟨settled.formed, ?_, settled.owners⟩, tree⟩ (Compresses.refl _)
      rfl (SameValues.of_nodes rfl))
    obtain ⟨above, nested⟩ := settled.nested
    exact ⟨above, nested.of_functions rfl fun _ entry found => ⟨entry, found, rfl, rfl⟩⟩
  | shell function f parent scope =>
    have slots : (m.modifyFunction function f).functions.slots.length =
        m.functions.slots.length := SlotMap.slots_length_modify _ _ _
    refine exact (settled.of_same ⟨⟨settled.formed, ?_, ?_⟩, ?_⟩ (Compresses.refl _) rfl
      (SameValues.of_nodes rfl))
    · obtain ⟨above, nested⟩ := settled.nested
      refine ⟨above, nested.of_functions slots fun other entry found => ?_⟩
      simp only [modifyFunction, SlotMap.get_modify] at found
      split at found
      · obtain ⟨before, found', rfl⟩ := map_eq_some_iff.1 found
        exact ⟨before, found', scope before, parent before⟩
      · exact ⟨entry, found, rfl, rfl⟩
    · intro node owner owned
      rw [slots]
      exact settled.owners node owner owned
    · exact ⟨settled.tree.homed, settled.tree.parent, settled.tree.child, settled.tree.handedOut⟩
  | record nodes functions blocks => exact exact (settled.of_tables nodes functions blocks)

theorem Settled.writes (settled : Settled m) (writes : Writes m m') :
    Settled m' ∧ Carries Moved m m' := by
  induction writes with
  | refl => exact ⟨settled, Carries.refl (fun value => .refl value) m⟩
  | tail _ write ih =>
    obtain ⟨settled', carries⟩ := ih
    obtain ⟨last, carries'⟩ := settled'.write write
    exact ⟨last, carries.trans (fun _ _ _ => Relation.EqvGen.trans _ _ _) carries'⟩

/-- An evaluation that writes through the module's own writers alone. -/
def WritesOnly (dispatch : Dispatch P) : Prop :=
  ∀ m node answer m', dispatch m node = some (answer, m') → Writes m m'

theorem setVisiting_writes (m : Module P) (node : NodeId) (visiting : Bool) :
    Writes m (m.setVisiting node visiting) :=
  Writes.one (.mark node (fun entry => { entry with visiting }) (fun _ => rfl) (fun _ => rfl)
    (fun _ => rfl) fun _ => rfl)

variable {α : Type} {node : NodeId}

theorem retainNode_writes {body : Module P → Option (α × Module P)} {answer : α}
    (each : ∀ m answer m', body m = some (answer, m') → Writes m m')
    (ran : m.retainNode node body = some (answer, m')) : Writes m m' := by
  obtain ⟨⟨_, middle⟩, ran', same⟩ := map_eq_some_iff.1 ran
  cases same
  exact ((setVisiting_writes m node true).andThen (each _ _ _ ran')).andThen
    (setVisiting_writes middle node false)

theorem foldlM_writes {step : Module P → α → Option (Module P)}
    (each : ∀ m item m', step m item = some m' → Writes m m') (items : List α) :
    ∀ {m m' : Module P}, items.foldlM step m = some m' → Writes m m' := by
  induction items with
  | nil =>
    intro m m' ran
    cases ran
    exact .refl
  | cons item items ih =>
    intro m m' ran
    obtain ⟨middle, first, rest⟩ := bind_eq_some_iff.1 ran
    exact (each _ _ _ first).andThen (ih rest)

theorem writes_of_guarded {guard : Prop} [Decidable guard]
    {walk : Option (Module P)} {read : Module P → Option α} {answer : α}
    (each : ∀ first, walk = some first → Writes m first)
    (ran : (if guard then walk.bind read else (some m).bind read) = some answer) :
    ∃ first, Writes m first ∧ read first = some answer := by
  split at ran
  · obtain ⟨first, walked, ran⟩ := bind_eq_some_iff.1 ran
    exact ⟨first, each first walked, ran⟩
  · exact ⟨m, .refl, ran⟩

section Evaluator

variable {evaluate : Module P → NodeId → Evaluated P} (reads : WritesOnly evaluate)
include reads

theorem evaluateClassFirst_writes {m m' : Module P} {node : NodeId}
    (ran : m.evaluateClassFirst evaluate node = some m') : Writes m m' := by
  have found : Writes m (m.find node).2 := Writes.one (.find node)
  simp only [evaluateClassFirst] at ran
  split at ran
  · cases ran
    exact found
  · split at ran
    · cases ran
      exact found
    · obtain ⟨middle, walked, ran⟩ := bind_eq_some_iff.1 ran
      cases ran
      have visited := foldlM_writes (fun m member m' ran => ?_) _ walked
      · have entered : Write (m.find node).2 { (m.find node).2 with
            evaluatingClasses := (m.find node).1 :: (m.find node).2.evaluatingClasses } :=
          .record rfl rfl rfl
        exact ((found.andThen (Writes.one entered)).andThen visited).andThen
          (Writes.one (.record rfl rfl rfl))
      · split at ran
        · obtain ⟨⟨answer, after⟩, ran', rfl⟩ := map_eq_some_iff.1 ran
          exact reads _ _ _ _ ran'
        · cases ran
          exact .refl

variable {dispatch : Dispatch P} (attempts : WritesOnly dispatch)
include attempts

theorem evaluateHere_writes {m m' : Module P} {node : NodeId} {answer : Option (Value P)}
    (ran : evaluateHere dispatch evaluate node m = some (answer, m')) : Writes m m' := by
  unfold evaluateHere at ran
  dsimp only at ran
  obtain ⟨first, before, ran⟩ := writes_of_guarded
    (fun first walked => evaluateClassFirst_writes reads walked) ran
  have stays : ∀ {value : Option (Value P)}, some (value, first) = some (answer, m') → Writes m m' := by
    intro value same
    cases same
    exact before
  have runs : ∀ {value : Option (Value P)} {after : Module P},
      (first.retainNode node fun m => dispatch m node) = some (value, after) → Writes m after :=
    fun ran => before.andThen (retainNode_writes (fun _ _ _ ran => attempts _ _ _ _ ran) ran)
  split at ran
  · exact stays ran
  · exact stays ran
  · split at ran
    · obtain ⟨⟨value, after⟩, retained, ran⟩ := bind_eq_some_iff.1 ran
      cases ran
      exact runs retained
    · exact stays ran
  · split at ran
    · split at ran
      · cases ran
      · exact stays ran
    · split at ran
      · exact stays ran
      · split at ran
        · exact stays ran
        · exact runs ran

end Evaluator

variable {answer : Option (Value P)}

theorem evaluateBlock_writes {evaluate : Module P → Evaluated P} {root : NodeId}
    (each : ∀ m answer m', evaluate m = some (answer, m') → Writes m m')
    (ran : m.evaluateBlock evaluate root = some (answer, m')) : Writes m m' := by
  obtain ⟨block, homed, ran⟩ := bind_eq_some_iff.1 ran
  obtain ⟨⟨value, middle⟩, evaluated, ran⟩ := bind_eq_some_iff.1 ran
  have before : Writes m middle :=
    (Writes.one (.home block (fun entry => { entry with scopeRoot := none }) (fun _ => rfl)
      (fun _ => rfl) fun _ => rfl)).andThen (each _ _ _ evaluated)
  have ends : ∀ decided : Bool, (decided → middle.nodes.containsKey root) →
      (if decided then some ((middle.garbageCollect root).1.or value, (middle.garbageCollect root).2)
        else some (value, middle.modifyBlock block fun entry => { entry with scopeRoot := some root })) =
        some (answer, m') → Writes m m' := by
    intro decided lives ran
    split at ran
    · next held =>
      cases ran
      exact before.andThen (Writes.one (.call (.garbageCollect root) rfl (by
        simp [Op.run, lives held])))
    · cases ran
      exact before.andThen (Writes.one (.home block
        (fun entry => { entry with scopeRoot := some root }) (fun _ => rfl) (fun _ => rfl) fun _ => rfl))
  refine ends _ (fun decided => ?_) ran
  rw [SlotMap.containsKey]
  cases found : middle.nodes.get root with
  | none => simp [nodeValue, found] at decided
  | some entry => rfl

section Dispatch

variable {dispatch : Dispatch P} (attempts : WritesOnly dispatch)
include attempts

theorem evaluateNodeBody_writes (fuel : Nat) : ∀ {m m' : Module P} {node : NodeId}
    {referer : Option BlockId} {answer : Option (Value P)},
    evaluateNodeBody dispatch fuel m node referer = some (answer, m') → Writes m m' := by
  induction fuel with
  | zero => exact fun ran => nomatch ran
  | succ fuel ih =>
    intro m m' node referer answer ran
    have here : ∀ m answer m', evaluateHere dispatch
        (fun m member => evaluateNodeBody dispatch fuel m member none) node m = some (answer, m') →
        Writes m m' :=
      fun _ _ _ ran => evaluateHere_writes (fun _ _ _ _ ran => ih ran) attempts ran
    simp only [evaluateNodeBody] at ran
    split at ran
    · cases ran
    · split at ran
      · exact evaluateBlock_writes here ran
      · exact here _ _ _ ran

variable {m m' : Module P}

theorem evaluateNode_writes {node : AnyNodeId} {referer : Option BlockId}
    {answer : Option (Value P)} (ran : m.evaluateNode dispatch node referer = some (answer, m')) :
    Writes m m' := by
  cases node with
  | dynamic node => exact evaluateNodeBody_writes attempts _ ran
  | static sref =>
    cases ran
    exact .refl

theorem aliasRead_writes {reader target : NodeId}
    (ran : m.aliasRead dispatch reader target = some m') : Writes m m' := by
  obtain ⟨entry, -, ran⟩ := bind_eq_some_iff.1 ran
  split at ran
  · cases ran
    exact .refl
  · obtain ⟨⟨representative, joined⟩, unified, ran⟩ := bind_eq_some_iff.1 ran
    obtain ⟨⟨answer, after⟩, evaluated, ran⟩ := bind_eq_some_iff.1 ran
    cases ran
    have joins : Write m joined := .call (.unify reader target) rfl (by simp [Op.run, unified])
    have truncates : Write joined
        { joined with unifyErrors := joined.unifyErrors.take m.unifyErrors.length } :=
      .record rfl rfl rfl
    exact ((Writes.one joins).andThen (Writes.one truncates)).andThen
      (evaluateNode_writes attempts evaluated)

section

variable {visit : Module P → AnyNodeId → Option BlockId → Evaluated P}
  (visits : ∀ m edge block answer m', visit m edge block = some (answer, m') → Writes m m')

include visits

omit attempts in
theorem descendDeep_writes {m m' : Module P} {node : NodeId} {value : Option (Value P)}
    (ran : m.descendDeep visit node value = some m') : Writes m m' := by
  have walks : ∀ edges : List AnyNodeId,
      ((m.retainNode node fun m =>
        let block := m.homeOf node
        (edges.foldlM (fun m edge => (visit m edge block).map Prod.snd) m).map
          fun m => ((), m)).map Prod.snd) = some m' → Writes m m' := by
    intro edges ran
    obtain ⟨⟨answer, after⟩, retained, rfl⟩ := map_eq_some_iff.1 ran
    refine retainNode_writes (fun m answer m' ran => ?_) retained
    obtain ⟨last, walked, same⟩ := map_eq_some_iff.1 ran
    cases same
    refine foldlM_writes (fun m edge m' ran => ?_) _ walked
    obtain ⟨⟨answer, after⟩, visited, rfl⟩ := map_eq_some_iff.1 ran
    exact visits _ _ _ _ _ visited
  simp only [descendDeep] at ran
  split at ran
  · exact walks _ ran
  · exact walks _ ran
  · cases ran
    exact .refl

omit attempts in
theorem operandIsUndecided_writes {m m' : Module P} {node : NodeId} {current : Option BlockId}
    {isOpen : Bool} (ran : m.operandIsUndecided visit node current = some (isOpen, m')) :
    Writes m m' := by
  simp only [operandIsUndecided] at ran
  split at ran
  · obtain ⟨⟨answer, after⟩, visited, same⟩ := map_eq_some_iff.1 ran
    cases same
    exact visits _ _ _ _ _ visited
  · cases ran
    exact .refl

end

/-- The walk of a deep evaluation. -/
theorem evaluateNodeDeepInner_writes (fuel : Nat) : ∀ {m m' : Module P} {node : AnyNodeId}
    {current : Option BlockId} {answer : Option (Value P)},
    evaluateNodeDeepInner dispatch fuel m node current = some (answer, m') → Writes m m' := by
  have mark : ∀ (m : Module P) node (f : Node P → Node P), (∀ entry, (f entry).value = entry.value) →
      (∀ entry, (f entry).equality = entry.equality) → (∀ entry, (f entry).block = entry.block) →
      (∀ entry, (f entry).function = entry.function) → Writes m (m.modifyNode node f) :=
    fun m node f value equality block owner => Writes.one (.mark node f value equality block owner)
  induction fuel with
  | zero =>
    intro m m' node current answer ran
    cases node with
    | dynamic node => cases ran
    | static sref =>
      cases ran
      exact .refl
  | succ fuel ih =>
    intro m m' node current answer ran
    cases node with
    | static sref =>
      cases ran
      exact .refl
    | dynamic node =>
      unfold evaluateNodeDeepInner at ran
      obtain ⟨entry, -, ran⟩ := bind_eq_some_iff.1 ran
      split at ran
      · cases ran
        exact .refl
      · split at ran
        · cases ran
          exact mark m node (fun entry => { entry with assumedConcrete := true }) (fun _ => rfl)
            (fun _ => rfl) (fun _ => rfl) fun _ => rfl
        · split at ran
          · cases ran
            simp only [recordDepthExhausted]
            split
            · exact Writes.one (.record rfl rfl rfl)
            · exact .refl
          · split at ran
            · cases ran
              exact mark m node
                (fun entry => { entry with evaluatedDeep := some { undecided := false } })
                (fun _ => rfl) (fun _ => rfl) (fun _ => rfl) fun _ => rfl
            · obtain ⟨⟨value, first⟩, evaluated, ran⟩ := bind_eq_some_iff.1 ran
              obtain ⟨second, descended, ran⟩ := bind_eq_some_iff.1 ran
              obtain ⟨⟨isOpen, third⟩, operand, ran⟩ := bind_eq_some_iff.1 ran
              obtain ⟨-, rfl⟩ := Prod.mk.inj (some.inj ran)
              have visits : ∀ m edge block answer m',
                  evaluateNodeDeepInner dispatch fuel m edge block = some (answer, m') →
                  Writes m m' := fun _ _ _ _ _ ran => ih ran
              have entered : Writes m m.enterDeep := Writes.one (.record rfl rfl rfl)
              have walked := ((entered.andThen (evaluateNode_writes attempts evaluated)).andThen
                (descendDeep_writes visits descended)).andThen
                (operandIsUndecided_writes visits operand)
              have settled := mark third node (fun entry => { entry with
                evaluatedDeep := some { undecided := isOpen || third.valueIsUndecided value }
                assumedConcrete := false }) (fun _ => rfl) (fun _ => rfl) (fun _ => rfl) fun _ => rfl
              exact (walked.andThen settled).andThen (Writes.one (.record rfl rfl rfl))

theorem keyState_writes {key : AnyNodeId} {state : KeyState}
    (ran : m.keyState dispatch key = some (state, m')) : Writes m m' := by
  cases key with
  | dynamic node =>
    obtain ⟨⟨answer, after⟩, evaluated, ran⟩ := bind_eq_some_iff.1 ran
    obtain ⟨entry, -, ran⟩ := bind_eq_some_iff.1 ran
    have deep : Writes m after := evaluateNodeDeepInner_writes attempts _ evaluated
    split at ran
    · cases ran
      exact deep
    · obtain ⟨_, -, same⟩ := map_eq_some_iff.1 ran
      cases same
      exact deep
  | static sref =>
    obtain ⟨entry, -, ran⟩ := bind_eq_some_iff.1 ran
    split at ran
    · cases ran
      exact .refl
    · obtain ⟨_, -, same⟩ := map_eq_some_iff.1 ran
      cases same
      exact .refl

end Dispatch

theorem ranUndecided_writes (ran : m.ranUndecided node = some (answer, m')) : Writes m m' := by
  cases ran
  exact Writes.one (.mark node (fun entry => { entry with runned := true }) (fun _ => rfl)
    (fun _ => rfl) (fun _ => rfl) fun _ => rfl)

theorem commitAnswer_writes {value : Option (Value P)}
    (ran : m.commitAnswer node value = some (answer, m')) : Writes m m' := by
  cases value with
  | none => exact ranUndecided_writes ran
  | some value =>
    obtain ⟨after, wrote, same⟩ := map_eq_some_iff.1 ran
    cases same
    exact Writes.one (.answer node value wrote)

theorem evalFailure_writes {error : EvalError}
    (ran : m.evalFailure error = some (answer, m')) : Writes m m' := by
  cases ran
  exact Writes.one (.record rfl rfl rfl)

theorem tableMiss_writes {table key : AnyNodeId}
    (ran : m.tableMiss table key = some (answer, m')) : Writes m m' := by
  cases ran
  exact Writes.one (.record rfl rfl rfl)

theorem attempted_writes {attempt : Dispatch P} (writes : WritesOnly attempt)
    (ran : ((attempt m node).bind fun tried => tried.2.commitAnswer node tried.1) =
      some (answer, m')) : Writes m m' := by
  obtain ⟨⟨value, after⟩, attempted, ran⟩ := bind_eq_some_iff.1 ran
  exact (writes _ _ _ _ attempted).andThen (commitAnswer_writes ran)

section Operators

variable {dispatch : Dispatch P} (attempts : WritesOnly dispatch)
include attempts

variable {block : BlockId} {answer : Option (Value P)} {m m' : Module P}

theorem readElement_writes {node : NodeId} {element : AnyNodeId}
    (ran : m.readElement dispatch node block element = some (answer, m')) : Writes m m' := by
  cases element with
  | static sref =>
    cases ran
    exact .refl
  | dynamic element =>
    have found : Writes m ((m.find element).2.find node).2 :=
      (Writes.one (.find element)).andThen (Writes.one (.find node))
    simp only [readElement] at ran
    split at ran
    · cases ran
      exact found.andThen (Writes.one (.find node))
    · obtain ⟨⟨value, after⟩, evaluated, ran⟩ := bind_eq_some_iff.1 ran
      have read := found.andThen (evaluateNode_writes attempts evaluated)
      cases value with
      | some value =>
        cases ran
        exact read
      | none =>
        obtain ⟨last, aliased, same⟩ := map_eq_some_iff.1 ran
        cases same
        exact read.andThen (aliasRead_writes attempts aliased)

theorem evaluateIndex_writes : WritesOnly (evaluateIndex dispatch) := by
  intro m node answer m' ran
  obtain ⟨entry, -, ran⟩ := bind_eq_some_iff.1 ran
  obtain ⟨operands, -, ran⟩ := bind_eq_some_iff.1 ran
  obtain ⟨⟨operand, first⟩, evaluated, ran⟩ := bind_eq_some_iff.1 ran
  have read := evaluateNode_writes attempts evaluated
  dsimp only at ran
  split at ran
  · cases ran
    exact read
  · obtain ⟨target, -, ran⟩ := bind_eq_some_iff.1 ran
    obtain ⟨subscript, -, ran⟩ := bind_eq_some_iff.1 ran
    obtain ⟨⟨index, second⟩, evaluated', ran⟩ := bind_eq_some_iff.1 ran
    have read' := read.andThen (evaluateNode_writes attempts evaluated')
    split at ran
    · cases ran
      exact read'
    · cases ran
      exact read'
    · obtain ⟨⟨container, third⟩, evaluated'', ran⟩ := bind_eq_some_iff.1 ran
      have read'' := read'.andThen (evaluateNode_writes attempts evaluated'')
      split at ran
      · cases ran
        exact read''
      · cases ran
        exact read''
      · split at ran
        · exact read''.andThen (readElement_writes attempts ran)
        · exact read''.andThen (evalFailure_writes ran)
      · exact read''.andThen (evalFailure_writes ran)
    · exact read'.andThen (evalFailure_writes ran)
  · cases ran

theorem unifyActual_writes {actual : AnyNodeId}
    (ran : m.unifyActual dispatch block actual = some (answer, m')) : Writes m m' := by
  simp only [unifyActual] at ran
  split at ran
  · obtain ⟨⟨value, after⟩, evaluated, ran⟩ := bind_eq_some_iff.1 ran
    have read := evaluateNode_writes attempts evaluated
    split at ran
    · cases ran
      exact read
    · cases ran
      exact read
  · exact evaluateNode_writes attempts ran

theorem evaluateUnify_writes : WritesOnly (evaluateUnify dispatch) := by
  intro m node answer m' ran
  obtain ⟨entry, -, ran⟩ := bind_eq_some_iff.1 ran
  obtain ⟨operands, -, ran⟩ := bind_eq_some_iff.1 ran
  obtain ⟨⟨operand, first⟩, evaluated, ran⟩ := bind_eq_some_iff.1 ran
  have read := evaluateNode_writes attempts evaluated
  dsimp only at ran
  split at ran
  · cases ran
    exact read
  · obtain ⟨left, -, ran⟩ := bind_eq_some_iff.1 ran
    obtain ⟨right, -, ran⟩ := bind_eq_some_iff.1 ran
    obtain ⟨⟨actual, second⟩, evaluated', ran⟩ := bind_eq_some_iff.1 ran
    have read' := read.andThen (unifyActual_writes attempts evaluated')
    split at ran
    · cases ran
      exact read'
    · obtain ⟨⟨expected, third⟩, evaluated'', ran⟩ := bind_eq_some_iff.1 ran
      have read'' := read'.andThen (evaluateNode_writes attempts evaluated'')
      split at ran
      · cases ran
        exact read''
      · obtain ⟨⟨representative, unified⟩, joined, ran⟩ := bind_eq_some_iff.1 ran
        have last := read''.andThen (Writes.one (.unifyRef left.node right.node representative joined))
        split at ran
        · cases ran
          exact last
        · cases ran
          exact last
  · cases ran

theorem finishTableGet_writes {node : NodeId} {found : Option AnyNodeId}
    (ran : m.finishTableGet dispatch node found block = some (answer, m')) : Writes m m' := by
  cases found with
  | none =>
    obtain ⟨⟨table, key⟩, -, ran⟩ := bind_eq_some_iff.1 ran
    exact tableMiss_writes ran
  | some element =>
    cases element with
    | static sref =>
      cases ran
      exact .refl
    | dynamic element =>
      obtain ⟨joined, aliased, ran⟩ := bind_eq_some_iff.1 ran
      exact (aliasRead_writes attempts aliased).andThen (evaluateNode_writes attempts ran)

theorem runTableGet_writes : WritesOnly (runTableGet dispatch) := by
  intro m node answer m' ran
  obtain ⟨entry, -, ran⟩ := bind_eq_some_iff.1 ran
  obtain ⟨operands, -, ran⟩ := bind_eq_some_iff.1 ran
  obtain ⟨⟨operand, first⟩, evaluated, ran⟩ := bind_eq_some_iff.1 ran
  have read := evaluateNode_writes attempts evaluated
  dsimp only at ran
  split at ran
  · exact read.andThen (ranUndecided_writes ran)
  · obtain ⟨table, -, ran⟩ := bind_eq_some_iff.1 ran
    obtain ⟨key, -, ran⟩ := bind_eq_some_iff.1 ran
    obtain ⟨⟨target, second⟩, evaluated', ran⟩ := bind_eq_some_iff.1 ran
    have read' := read.andThen (evaluateNode_writes attempts evaluated')
    split at ran
    · exact read'.andThen (ranUndecided_writes ran)
    · obtain ⟨⟨state, third⟩, keyed, ran⟩ := bind_eq_some_iff.1 ran
      have read'' := read'.andThen (keyState_writes attempts keyed)
      split at ran
      · cases ran
        exact read''
      · exact read''.andThen (tableMiss_writes ran)
      · obtain ⟨found, -, ran⟩ := bind_eq_some_iff.1 ran
        obtain ⟨⟨value, last⟩, finished, ran⟩ := bind_eq_some_iff.1 ran
        exact (read''.andThen (finishTableGet_writes attempts finished)).andThen
          (commitAnswer_writes ran)
    · obtain ⟨⟨value, third⟩, missed, ran⟩ := bind_eq_some_iff.1 ran
      exact (read'.andThen (tableMiss_writes missed)).andThen (commitAnswer_writes ran)
    · cases ran
  · cases ran

theorem evaluateNodeOperation_writes {calls : Dispatch P} (called : WritesOnly calls) :
    WritesOnly (evaluateNodeOperation calls dispatch) := by
  intro m node answer m' ran
  obtain ⟨entry, -, ran⟩ := bind_eq_some_iff.1 ran
  obtain ⟨operation, -, ran⟩ := bind_eq_some_iff.1 ran
  split at ran
  · exact runTableGet_writes attempts _ _ _ _ ran
  · exact attempted_writes (evaluateIndex_writes attempts) ran
  · exact attempted_writes (evaluateUnify_writes attempts) ran
  · exact attempted_writes called ran

end Operators

theorem dispatchWith_writes {calls : Dispatch P} (called : WritesOnly calls) (fuel : Nat) :
    WritesOnly (dispatchWith calls fuel) := by
  induction fuel with
  | zero => exact fun _ _ _ _ ran => nomatch ran
  | succ fuel ih => exact evaluateNodeOperation_writes ih called

end Module

/-- A call that adds nodes, joins classes or writes values. -/
inductive ClassOp (P : Program) where
  | addBlock (parent : Option BlockId)
  | addNode (block : BlockId) (operation : Option (Operation P)) (value : Option (Value P))
  | unify (a b : NodeId)
  | unifyRef (a b : AnyNodeId)
  | writeNodeValueIfAbsent (node : NodeId) (value : Option (Value P))
  | writeNodeAnswer (node : NodeId) (value : Value P)
  | aliasRead (reader target : NodeId)
  | dropBlock (block : BlockId)

namespace ClassOp

variable {P : Program}

/-- Run one call; `calls` attempts the operators an aliased read may reach that call out, and
`fuel` bounds the nesting of its attempts. A call that panics, or names an id the module does not
hold, runs to nothing. -/
def run (calls : Dispatch P) (fuel : Nat) (m : Module P) : ClassOp P → Option (Module P)
  | addBlock parent => Op.run m (.addBlock parent)
  | addNode block operation value => Op.run m (.addNode block operation value)
  | unify a b => Op.run m (.unify a b)
  | unifyRef a b => (m.unifyRef a b).map Prod.snd
  | writeNodeValueIfAbsent node value =>
    if m.nodes.containsKey node then some (m.writeNodeValueIfAbsent node value) else none
  | writeNodeAnswer node value => m.writeNodeAnswer node value
  | aliasRead reader target => m.aliasRead (Module.dispatchWith calls fuel) reader target
  | dropBlock block => Op.run m (.dropBlock block)

/-- What a call may do to a held value: an aliased read evaluates, which may end a scope and move
its payloads, and every other call leaves the value as it is. -/
def keeps : ClassOp P → Value P → Value P → Prop
  | aliasRead _ _ => Moved
  | _ => Eq

theorem run_settled {calls : Dispatch P} (called : Module.WritesOnly calls) (fuel : Nat)
    {m m' : Module P} (settled : Module.Settled m) (op : ClassOp P)
    (ran : op.run calls fuel m = some m') : Module.Settled m' ∧ Module.Carries op.keeps m m' := by
  have plain : ∀ call : Op P, call.keepsTree m → call.collects = false →
      call.run m = some m' → Module.Settled m' ∧ Module.Carries Eq m m' := by
    intro call tree stays ran
    obtain ⟨settled', -, carries⟩ := settled.run call tree ran
    exact ⟨settled', carries stays⟩
  cases op with
  | addBlock parent => exact plain (.addBlock parent) rfl rfl ran
  | addNode block operation value => exact plain (.addNode block operation value) rfl rfl ran
  | unify a b => exact plain (.unify a b) rfl rfl ran
  | unifyRef a b =>
    obtain ⟨⟨answer, after⟩, unified, rfl⟩ := map_eq_some_iff.1 ran
    exact settled.of_decides (Module.unifyRef_decides settled.formed settled.decided unified)
  | writeNodeValueIfAbsent node value =>
    simp only [run, ite_none_right_eq_some, some.injEq] at ran
    obtain ⟨live, rfl⟩ := ran
    exact settled.writeNodeValueIfAbsent live value
  | writeNodeAnswer node value => exact settled.writeNodeAnswer ran
  | aliasRead reader target =>
    exact settled.writes (Module.aliasRead_writes (Module.dispatchWith_writes called fuel) ran)
  | dropBlock block => exact plain (.dropBlock block) rfl rfl ran

end ClassOp

/-- The states a module reaches from its start by class calls. -/
inductive ClassReaches {P : Program} (calls : Dispatch P) : Module P → Prop
  | start (registry : Registry P) : ClassReaches calls { registry }
  | step {m m' : Module P} (op : ClassOp P) (fuel : Nat) (reached : ClassReaches calls m)
      (ran : op.run calls fuel m = some m') : ClassReaches calls m'

namespace ClassReaches

variable {P : Program}

def runAll (calls : Dispatch P) (fuel : Nat) : List (ClassOp P) → Module P → Option (Module P)
  | [], m => some m
  | op :: ops, m => (op.run calls fuel m).bind (runAll calls fuel ops)

theorem of_runAll {calls : Dispatch P} {fuel : Nat} {m m' : Module P} (ops : List (ClassOp P))
    (reached : ClassReaches calls m) (ran : runAll calls fuel ops m = some m') :
    ClassReaches calls m' := by
  induction ops generalizing m with
  | nil =>
    cases ran
    exact reached
  | cons op ops ih =>
    obtain ⟨middle, first, rest⟩ := bind_eq_some_iff.1 ran
    exact ih (reached.step op fuel first) rest

end ClassReaches

/-- In every state reached, each class holds a value or none as a whole, and whatever call comes
next replaces no value that a slot holds. -/
theorem one_class_one_decidedness {P : Program} {calls : Dispatch P}
    (called : Module.WritesOnly calls) {m : Module P} (reached : ClassReaches calls m) :
    m.OneDecided ∧ ∀ (op : ClassOp P) (fuel : Nat) (m' : Module P),
      op.run calls fuel m = some m' → Module.Carries op.keeps m m' := by
  have settled : Module.Settled m := by
    induction reached with
    | start registry => exact Module.Settled.start registry
    | step op fuel _ ran ih => exact (op.run_settled called fuel ih ran).1
  exact ⟨settled.decided, fun op fuel m' ran => (op.run_settled called fuel settled ran).2⟩

def arrayAt (address : Nat) (nodes : List NodeId) : Value Program.plain :=
  .low (.array { handle := .dynamic ⟨⟨1⟩, address, nodes.map fun node => { node := .dynamic node }⟩ })

/-- An index that reads an undecided element joins its class, and a later unification decides both. -/
def aliasedElement : List (ClassOp Program.plain) :=
  [.addBlock none, .addNode ⟨1⟩ none none, .addNode ⟨1⟩ none (some (arrayAt 0 [⟨1⟩])),
    .addNode ⟨1⟩ none (some (.low (.usize 0))), .addNode ⟨1⟩ none (some (arrayAt 1 [⟨2⟩, ⟨3⟩])),
    .addNode ⟨1⟩ (some { operator := .low .index, operand := some ⟨4⟩ }) none,
    .addNode ⟨1⟩ none none, .aliasRead ⟨6⟩ ⟨5⟩, .addNode ⟨1⟩ none (some (.low (.usize 7))),
    .unify ⟨1⟩ ⟨7⟩]

theorem aliasedElement_decided : ∃ m : Module Program.plain,
    ClassReaches.runAll (fun _ _ => none) 3 aliasedElement {} = some m ∧
      m.valueOf ⟨5⟩ = some (.low (.usize 7)) ∧ m.OneDecided ∧
      ∀ m', (ClassOp.dropBlock ⟨1⟩).run (fun _ _ => none) 3 m = some m' →
        Module.Carries Eq m m' := by
  obtain ⟨m, ran⟩ := isSome_iff_exists.1 (by decide +kernel :
    (ClassReaches.runAll (fun _ _ => none) 3 aliasedElement {}).isSome = true)
  have value : m.valueOf ⟨5⟩ = some (.low (.usize 7)) := by
    have held : (ClassReaches.runAll (fun _ _ => none) 3 aliasedElement {}).map
        (fun m => m.valueOf ⟨5⟩) = some (some (.low (.usize 7))) := by decide +kernel
    rw [ran] at held
    exact some.inj held
  have calls : Module.WritesOnly (P := Program.plain) fun _ _ => none :=
    fun _ _ _ _ ran => nomatch ran
  have both := one_class_one_decidedness calls
    (ClassReaches.of_runAll aliasedElement (.start {}) ran)
  exact ⟨m, ran, value, both.1, both.2 (.dropBlock ⟨1⟩) 3⟩

end LichenVm
