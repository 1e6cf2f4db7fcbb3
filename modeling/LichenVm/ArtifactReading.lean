import LichenVm.ArtifactContainer
import LichenVm.Traverse

/-! Reading back an artifact that stands: each index names what it should, and each payload lies
where its handle says. -/

namespace LichenVm

open ByteStream PrefixCode Traverse Codes

variable {P : Program}

mutual

/-- The levels of a shape marker, its own included. -/
def LowShape.levels : LowShape → Nat
  | .tuple positions => mostLevels positions + 1
  | .array element _ => shapeLevels element + 1
  | .function parameter result => max (shapeLevels parameter) (shapeLevels result) + 1
  | .table key value => max (shapeLevels key) (shapeLevels value) + 1
  | _ => 1

def shapeLevels : Option LowShape → Nat
  | some shape => shape.levels
  | none => 1

def mostLevels : List (Option LowShape) → Nat
  | [] => 0
  | position :: positions => max (shapeLevels position) (mostLevels positions)

end

theorem shapeLevels_le_most {positions : List (Option LowShape)} {position : Option LowShape}
    (member : position ∈ positions) : shapeLevels position ≤ mostLevels positions := by
  induction positions with
  | nil => cases member
  | cons first positions ih =>
    rcases List.mem_cons.1 member with rfl | later
    · exact Nat.le_max_left _ _
    · exact le_trans (ih later) (Nat.le_max_right _ _)

theorem shapeLevels_pos (shape : Option LowShape) : 0 < shapeLevels shape := by
  rcases shape with _ | shape
  · exact Nat.one_pos
  · cases shape <;> simp [shapeLevels, LowShape.levels]

theorem writeLowShapes_eq (positions : List (Option LowShape)) :
    writeLowShapes positions = positions.flatMap writeLowShape := by
  induction positions with
  | nil => rfl
  | cons position positions ih => rw [writeLowShapes, ih, List.flatMap_cons]

theorem writeLowShape_costs (shape : Option LowShape) : 1 ≤ byteLength (writeLowShape shape) := by
  rcases shape with _ | shape
  · simp [writeLowShape, Word.size]
  · cases shape <;> simp [writeLowShape, LowShape.write, Word.size]

/-- A shape that nests within the cap is read back. The induction is on the levels the cap still
allows. -/
theorem codes_lowShape {room : Nat} {shape : Option LowShape} (fits : shapeLevels shape ≤ room) :
    Codes (readLowShape room) (writeLowShape shape) [] shape := by
  induction room generalizing shape with
  | zero =>
    have level := shapeLevels_pos shape
    omega
  | succ room ih =>
    rcases shape with _ | shape
    · exact word rfl (codes_pure _)
    cases shape with
    | usize | float => exact word rfl (codes_pure _)
    | tuple positions =>
      have each : ∀ position ∈ positions,
          Codes (readLowShape room) (writeLowShape position) [] position := by
        intro position member
        have inside := shapeLevels_le_most member
        simp only [shapeLevels, LowShape.levels] at fits
        exact ih (by omega)
      have all := codes_counted (fun position _ => writeLowShape_costs position) each
      rw [List.map_id', ← writeLowShapes_eq] at all
      exact word rfl (all.map _)
    | array element length =>
      simp only [shapeLevels, LowShape.levels] at fits
      have inner : shapeLevels element ≤ room := by omega
      exact word rfl ((ih inner).bind (word rfl (codes_pure _)))
    | function parameter result =>
      simp only [shapeLevels, LowShape.levels] at fits
      have left : shapeLevels parameter ≤ room := by omega
      have right : shapeLevels result ≤ room := by omega
      exact word rfl ((ih left).bind ((ih right).map _))
    | table key value =>
      simp only [shapeLevels, LowShape.levels] at fits
      have left : shapeLevels key ≤ room := by omega
      have right : shapeLevels value ≤ room := by omega
      exact word rfl ((ih left).bind ((ih right).map _))

variable {count : Nat}

theorem codes_nodeId {node : LocalNodeId} (inside : node.index < count) :
    Codes (readNodeId count) (writeNodeId node) [] node :=
  word rfl (check (decide_eq_true inside) (codes_pure node))

theorem codes_functionId (function : StaticFunctionId) :
    Codes readFunctionId (writeFunctionId function) [] function :=
  word rfl (codes_pure function)

variable {A : Type} {words : Words}

theorem writeSome_eq {write : A → Option Words} {field : Option A}
    (wrote : writeSome write field = some words) :
    words = writeOption (fun value => (write value).getD []) field ∧
      ∀ value, field = some value → ∃ inner, write value = some inner := by
  cases field with
  | none => exact ⟨(Option.some.inj wrote).symm, nofun⟩
  | some value =>
    obtain ⟨inner, ran, rfl⟩ := Option.map_eq_some_iff.1 wrote
    refine ⟨by rw [writeOption, ran]; rfl, ?_⟩
    rintro other ⟨⟩
    exact ⟨inner, ran⟩

section

variable {read : Reader Arena A} {write : A → Option Words} {field : Option A}
  (wrote : writeSome write field = some words)
  (inner : ∀ value inner, field = some value → write value = some inner → Codes read inner [] value)

include wrote inner

theorem codes_writeSome : Codes (optionally read) words [] field := by
  obtain ⟨rfl, ran⟩ := writeSome_eq wrote
  refine codes_optionally fun value held => ?_
  obtain ⟨made, ran⟩ := ran value held
  have same : (write value).getD [] = made := by rw [ran]; rfl
  rw [same]
  exact inner value made held ran

theorem codes_taggedSome : Codes (tagged read) words [] field := by
  obtain ⟨rfl, ran⟩ := writeSome_eq wrote
  refine codes_tagged fun value held => ?_
  obtain ⟨made, ran⟩ := ran value held
  have same : (write value).getD [] = made := by rw [ran]; rfl
  rw [same]
  exact inner value made held ran

end

/-- What reading a node back needs. -/
structure StaticNode.Stands (count : Nat) (key : ModuleKey) (arena : Arena) (modules : Modules P)
    (node : StaticNode P) : Prop where
  value : ∀ value, node.value = some value → value.Readable key arena modules
  operand : ∀ operation operand, node.operation = some operation →
    operation.operand = some operand → operand.index < count
  parent : ∀ parent, node.equality.parent = some parent → parent.index < count
  next : ∀ next, node.equality.next = some next → next.index < count
  tail : ∀ tail, node.equality.tail = some tail → tail.index < count
  shape : shapeLevels node.lowShape ≤ MAX_LOW_SHAPE_DEPTH

theorem codes_deep (deep : EvaluatedDeep) : Codes readDeep (writeDeep deep) [] deep :=
  (codes_flag deep.undecided).map EvaluatedDeep.mk

section

variable {codec : ArtifactCodec P} (inverse : codec.Inverse)

include inverse

theorem codes_operation {operation : StaticOperation P}
    (inside : ∀ operand, operation.operand = some operand → operand.index < count)
    (wrote : writeOperation codec operation = some words) :
    Codes (readOperation codec count) words [] operation := by
  obtain ⟨operator, ran, wrote⟩ := Option.bind_eq_some_iff.1 wrote
  cases wrote
  exact (codec.codes_operator inverse ran).bind
    ((codes_optionally fun operand held => codes_nodeId (inside operand held)).map _)

theorem codes_node {key : ModuleKey} {arena : Arena} {modules : Modules P} {node : StaticNode P}
    (stands : node.Stands count key arena modules)
    (wrote : writeNode codec modules node = some words) :
    Codes (readNode codec key arena modules count) words [] node := by
  obtain ⟨value, wroteValue, wrote⟩ := Option.bind_eq_some_iff.1 wrote
  obtain ⟨operation, wroteOperation, wrote⟩ := Option.bind_eq_some_iff.1 wrote
  cases wrote
  have values := codes_writeSome wroteValue fun value inner held ran =>
    codec.codes_value inverse (stands.value value held) ran
  have operations := codes_writeSome wroteOperation fun operation inner held ran =>
    codes_operation inverse (fun operand names => stands.operand operation operand held names) ran
  refine values.bind (operations.bind ?_)
  refine (codes_optionally fun parent held => codes_nodeId (stands.parent parent held)).bind ?_
  refine (codes_optionally fun next held => codes_nodeId (stands.next next held)).bind ?_
  refine (codes_optionally fun tail held => codes_nodeId (stands.tail tail held)).bind ?_
  refine word rfl ?_
  refine (codes_tagged fun owner _ => codes_functionId owner).bind ?_
  refine (codes_flag node.runned).bind ?_
  refine (codes_tagged fun deep _ => codes_deep deep).bind ?_
  exact (codes_lowShape stands.shape).map _

end

/-- Every index of a function names a node. -/
structure StaticFunction.Stands (count : Nat) (function : StaticFunction) : Prop where
  parameter : function.parameter.index < count
  result : function.return.index < count
  returnType : function.returnType.index < count
  asserts : ∀ node ∈ function.asserts, node.index < count
  nodes : ∀ node ∈ function.nodes, node.index < count

theorem codes_nodeIds {nodes : List LocalNodeId} (inside : ∀ node ∈ nodes, node.index < count) :
    Codes (counted (readNodeId count)) (writeList writeNodeId nodes) [] nodes := by
  have each : ∀ node ∈ nodes, Codes (readNodeId count) (writeNodeId node) [] node :=
    fun node member => codes_nodeId (inside node member)
  have all := codes_counted (fun _ _ => by simp only [writeNodeId, byteLength_cons, Word.size]; omega) each
  rwa [List.map_id'] at all

theorem codes_function {function : StaticFunction} (stands : function.Stands count) :
    Codes (readFunction count) (writeFunction function) []
      { function with openCaptures := false } := by
  refine (codes_nodeId stands.parameter).bind ?_
  refine (codes_nodeId stands.result).bind ?_
  refine (codes_nodeId stands.returnType).bind ?_
  have origins : ∀ origin, Codes readOrigin (writeOrigin origin) [] origin :=
    fun origin => word rfl (word rfl (codes_pure origin))
  refine (codes_tagged fun origin _ => origins origin).bind ?_
  refine (codes_nodeIds stands.asserts).bind ((codes_nodeIds stands.nodes).bind ?_)
  exact (codes_tagged fun parent _ => codes_functionId parent).map _

theorem writeFunction_costs (function : StaticFunction) :
    1 ≤ byteLength (writeFunction function) := by
  simp only [writeFunction, byteLength_cons, Word.size]
  omega

theorem codes_pairs {pairs : List (LocalNodeId × LocalNodeId)}
    (inside : ∀ pair ∈ pairs, pair.1.index < count ∧ pair.2.index < count) :
    Codes (counted (readPair count)) (writeList writePair pairs) [] pairs := by
  have each : ∀ pair ∈ pairs, Codes (readPair count) (writePair pair) [] pair := by
    intro pair member
    have left := codes_nodeId (inside pair member).1
    exact left.bind ((codes_nodeId (inside pair member).2).map _)
  have all := codes_counted (fun _ _ => by simp only [writePair, byteLength_cons, Word.size]; omega) each
  rwa [List.map_id'] at all

theorem codes_layout (layout : List Nat) : Codes (counted u32 : Reader Arena (List Nat))
      (writeList (fun canonical => [.u32 canonical]) layout) [] layout := by
  have each : ∀ canonical ∈ layout,
      Codes (u32 : Reader Arena Nat) [.u32 canonical] [] canonical :=
    fun canonical _ => codes_expect rfl
  have all := codes_counted (fun _ _ => by simp only [byteLength_cons, Word.size]; omega) each
  rwa [List.map_id'] at all

theorem codes_layouts (layouts : List (List Nat)) :
    Codes (counted (counted u32) : Reader Arena (List (List Nat)))
      (writeList (writeList fun canonical => [.u32 canonical]) layouts) [] layouts := by
  have all := codes_counted
    (fun _ _ => by simp only [writeList, byteLength_cons, Word.size]; omega)
    fun layout (_ : layout ∈ layouts) => codes_layout layout
  rwa [List.map_id'] at all

end LichenVm
