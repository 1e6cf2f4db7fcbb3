import LichenVm.ArtifactReading
import LichenVm.FreezeFrames
import LichenVm.ParentForest

open List Option

namespace LichenVm

open ByteStream PrefixCode Traverse Codes

variable {P : Program}

namespace StaticModule

/-- The module as the reader has it before it recomputes the verdicts and the scopes. -/
def bare (home : StaticModule P) : StaticModule P :=
  { home with
    functions := home.functions.map fun function => { function with openCaptures := false }
    readOnly := false
    scopes := []
    scopeSummaries := [] }

/-- A portable artifact whose every index, link and handle names what it should, and whose
verdicts and scopes are the ones its tables give. -/
structure Stands (home : StaticModule P) (modules : Modules P) : Prop where
  node : ∀ node ∈ home.nodes, node.Stands home.nodes.length home.key home.arena modules
  owner : ∀ node ∈ home.nodes, ∀ owner, node.owner = some owner →
    owner.index < home.functions.length
  function : ∀ function ∈ home.functions, function.Stands home.nodes.length
  parents : ∃ rank, ParentsFall home.functions rank
  owners : ∀ pair ∈ home.applyResultOwners.entries,
    pair.1.index < home.nodes.length ∧ pair.2.index < home.nodes.length
  sources : ∀ pair ∈ home.fieldSources.entries,
    pair.1.index < home.nodes.length ∧ pair.2.index < home.nodes.length
  defaults : ∀ handle, home.defaultAttributes = some handle →
    handle.Lies Payload.items? home.key home.arena modules
  filled : home.bare.fillOpenCaptures.fillScopeSummaries = home

/-- The module with its two records as the reader collects them. -/
def collected (home : StaticModule P) : StaticModule P :=
  { home with
    applyResultOwners := ⟨sortedEntries home.applyResultOwners⟩
    fieldSources := ⟨sortedEntries home.fieldSources⟩ }

/-- The same module: every table is equal, and the two records answer every key alike. -/
structure Reread (home back : StaticModule P) : Prop where
  tables : { back with
    applyResultOwners := home.applyResultOwners, fieldSources := home.fieldSources } = home
  owners : ∀ node, back.applyResultOwners.get node = home.applyResultOwners.get node
  sources : ∀ node, back.fieldSources.get node = home.fieldSources.get node

variable (home : StaticModule P)

theorem capturesOpen_collected (fuel : Nat) (scope visited stack : List LocalNodeId) :
    home.collected.capturesOpen fuel scope visited stack =
      home.capturesOpen fuel scope visited stack := by
  induction fuel generalizing scope visited stack with
  | zero => rfl
  | succ fuel ih =>
    simp only [capturesOpen, ih]
    rfl

theorem staticScope_collected (fuel : Nat) (index : StaticFunctionId) :
    home.collected.staticScope fuel index = home.staticScope fuel index := by
  induction fuel generalizing index with
  | zero => rfl
  | succ fuel ih =>
    simp only [staticScope, ih]
    rfl

theorem fill_collected :
    home.collected.fillOpenCaptures.fillScopeSummaries =
      home.fillOpenCaptures.fillScopeSummaries.collected := by
  have verdicts : home.collected.fillOpenCaptures = home.fillOpenCaptures.collected := by
    simp only [fillOpenCaptures, hasOpenCaptures, capturesOpen_collected]
    rfl
  rw [verdicts]
  simp only [fillScopeSummaries, staticScope_collected]
  rfl

end StaticModule

theorem get_sortedEntries (record : AssocMap LocalNodeId LocalNodeId) (node : LocalNodeId) :
    (⟨sortedEntries record⟩ : AssocMap LocalNodeId LocalNodeId).get node = record.get node := by
  let own := fun entry : LocalNodeId × LocalNodeId => decide (entry.1 = node)
  have kept : (sortedEntries record).filter own = record.entries.filter own := by
    have level : (record.entries.filter own).Pairwise fun left right =>
        left.1.index ≤ right.1.index := by
      refine pairwise_of_forall_mem_list fun left inLeft right inRight => ?_
      have one : left.1 = node := by simpa [own] using (mem_filter.1 inLeft).2
      have two : right.1 = node := by simpa [own] using (mem_filter.1 inRight).2
      rw [one, two]
    have inside := (sublist_insertionSort level filter_sublist).filter own
    rw [List.filter_filter] at inside
    simp only [Bool.and_self] at inside
    have count := ((perm_insertionSort
      (fun left right : LocalNodeId × LocalNodeId => left.1.index ≤ right.1.index)
      record.entries).filter own).length_eq
    exact (inside.eq_of_length count.symm).symm
  have first : ∀ entries : List (LocalNodeId × LocalNodeId),
      entries.find? own = (entries.filter own).head? := fun entries => by
    rw [List.head?_filter]
  change ((sortedEntries record).find? own).map Prod.snd = (record.entries.find? own).map Prod.snd
  rw [first, kept, ← first]

theorem flatten_of_mapM {A : Type} {write : A → Option Words} {items : List A}
    {written : List Words} (ran : items.mapM write = some written) :
    written.flatten = items.flatMap fun item => (write item).getD [] := by
  induction items generalizing written with
  | nil =>
    obtain rfl : written = [] := by simpa using ran.symm
    rfl
  | cons item items ih =>
    rw [mapM_cons] at ran
    obtain ⟨first, here, ran⟩ := bind_eq_some_iff.1 ran
    obtain ⟨rest, later, same⟩ := bind_eq_some_iff.1 ran
    cases same
    rw [flatten_cons, flatMap_cons, here, ih later]
    rfl

theorem writeNode_costs {codec : ArtifactCodec P} {modules : Modules P} {node : StaticNode P}
    {words : Words} (wrote : writeNode codec modules node = some words) : 1 ≤ byteLength words := by
  obtain ⟨value, -, wrote⟩ := bind_eq_some_iff.1 wrote
  obtain ⟨operation, -, wrote⟩ := bind_eq_some_iff.1 wrote
  cases wrote
  simp only [byteLength_append, byteLength_cons, Word.size]
  omega

section Standing

variable {codec : ArtifactCodec P} {home : StaticModule P} {modules : Modules P}

theorem codes_nodes (inverse : codec.Inverse) (stands : home.Stands modules) {written : List Words}
    (wrote : home.nodes.mapM (writeNode codec modules) = some written) :
    Codes (listOf (readNode codec home.key home.arena modules home.nodes.length) home.nodes.length)
      written.flatten [] home.nodes := by
  have each : ∀ node ∈ home.nodes, ∃ words, writeNode codec modules node = some words := by
    intro node member
    exact isSome_iff_exists.1 (isSome_of_mapM _ _ (by rw [wrote]; rfl) node member)
  have all : Codes (listOf (readNode codec home.key home.arena modules home.nodes.length)
      home.nodes.length) (home.nodes.flatMap fun node => (writeNode codec modules node).getD []) []
      (home.nodes.map fun node => node) := by
    refine codes_listOf ?_ ?_ <;> intro node member <;> obtain ⟨words, ran⟩ := each node member
    · rw [ran]
      exact writeNode_costs ran
    · rw [ran]
      exact codes_node inverse (stands.node node member) ran
  rwa [List.map_id', ← flatten_of_mapM wrote] at all

theorem codes_functions (stands : home.Stands modules) :
    Codes (counted (readFunction home.nodes.length)) (writeList writeFunction home.functions) []
      home.bare.functions :=
  codes_counted (fun function _ => writeFunction_costs function)
    fun function member => codes_function (stands.function function member)

theorem bare_functions_get (home : StaticModule P) {index : Nat} {entry : StaticFunction}
    (found : home.bare.functions[index]? = some entry) : ∃ source,
      home.functions[index]? = some source ∧ entry = { source with openCaptures := false } := by
  simp only [StaticModule.bare, getElem?_map] at found
  obtain ⟨source, at_index, rfl⟩ := map_eq_some_iff.1 found
  exact ⟨source, at_index, rfl⟩

theorem bare_functions_length (home : StaticModule P) :
    home.bare.functions.length = home.functions.length := length_map _

namespace StaticModule

/-- An artifact as a reader has it once it has recomputed the verdicts and the scopes. -/
def refilled (home : StaticModule P) : StaticModule P := home.bare.fillOpenCaptures.fillScopeSummaries

theorem refilled_bare (home : StaticModule P) : home.refilled.bare = home.bare := by
  simp [refilled, bare, fillScopeSummaries, fillOpenCaptures]

variable {home : StaticModule P}

theorem refilled_functions_get {index : Nat} {entry : StaticFunction}
    (found : home.refilled.functions[index]? = some entry) :
    ∃ source, home.functions[index]? = some source ∧
      entry = { source with openCaptures := entry.openCaptures } := by
  have found : (home.bare.functions.map fun function =>
      { function with openCaptures := home.bare.hasOpenCaptures function })[index]? = some entry := found
  rw [getElem?_map] at found
  obtain ⟨bare, at_index, rfl⟩ := map_eq_some_iff.1 found
  obtain ⟨source, at_source, rfl⟩ := bare_functions_get home at_index
  exact ⟨source, at_source, rfl⟩

theorem refilled_functions_length : home.refilled.functions.length = home.functions.length :=
  (length_map _).trans (bare_functions_length home)

theorem refilled_function {function : StaticFunction}
    (member : function ∈ home.refilled.functions) :
    ∃ source ∈ home.functions, ∃ verdict, function = { source with openCaptures := verdict } := by
  obtain ⟨index, found⟩ := mem_iff_getElem?.1 member
  obtain ⟨source, at_source, same⟩ := refilled_functions_get found
  exact ⟨source, mem_of_getElem? at_source, _, same⟩

end StaticModule

theorem checkFunctionLinks_of_stands (stands : home.Stands modules) :
    checkFunctionLinks home.nodes home.bare.functions := by
  obtain ⟨rank, falls⟩ := stands.parents
  have falls' : ParentsFall home.bare.functions rank := by
    refine ⟨?_, ?_⟩ <;> intro index entry parent found up <;>
      obtain ⟨source, at_index, rfl⟩ := bare_functions_get home found
    · rw [bare_functions_length]
      exact falls.inside index source parent at_index up
    · exact falls.falls index source parent at_index up
  rw [checkFunctionLinks, Bool.and_eq_true, Bool.and_eq_true]
  refine ⟨⟨?_, ?_⟩, checkParentForest_of_falls falls'⟩
  · refine List.all_eq_true.2 fun node member => ?_
    cases owner : node.owner with
    | none => rfl
    | some owner' =>
      have inside := stands.owner node member owner' owner
      simp [bare_functions_length, inside]
  · refine List.all_eq_true.2 fun function member => ?_
    obtain ⟨index, found⟩ := mem_iff_getElem?.1 member
    cases up : function.parent with
    | none => rfl
    | some parent => simpa using falls'.inside index function parent found up

theorem codes_record {count : Nat} {record : AssocMap LocalNodeId LocalNodeId}
    (inside : ∀ pair ∈ record.entries, pair.1.index < count ∧ pair.2.index < count) :
    Codes (counted (readPair count)) (writeList writePair (sortedEntries record)) []
      (sortedEntries record) :=
  codes_pairs fun pair member => inside pair (by
    simpa [sortedEntries, mem_insertionSort] using member)

/-- The reader takes the body an artifact that stands was written as. -/
theorem codes_body (inverse : codec.Inverse) (stands : home.Stands modules) {out : LocalNodeId}
    (inside : out.index < home.nodes.length) {body : Words}
    (wrote : serializeBody codec home modules out = some body) :
    Codes (readBody codec home.key modules) body [] (home.collected, out) := by
  obtain ⟨nodes, wroteNodes, wrote⟩ := bind_eq_some_iff.1 wrote
  obtain ⟨defaults, wroteDefaults, wrote⟩ := bind_eq_some_iff.1 wrote
  cases wrote
  have attributes := codes_taggedSome wroteDefaults fun handle _ held ran =>
    codes_relocatedHandle (stands.defaults handle held) ran
  refine word rfl (word rfl (word rfl (check (decide_eq_true rfl) ?_)))
  refine word rfl (check (decide_eq_true inside) ?_)
  refine (codes_nodes inverse stands wroteNodes).bind ((codes_functions stands).bind ?_)
  refine check (checkFunctionLinks_of_stands stands) ?_
  refine (codes_record stands.owners).bind ((codes_record stands.sources).bind ?_)
  refine (codes_layouts home.attributeLayouts).bind ?_
  have whole := attributes.map fun defaults => (({ home.bare.collected with
    defaultAttributes := defaults } : StaticModule P).fillOpenCaptures.fillScopeSummaries, out)
  have same : ({ home.bare.collected with defaultAttributes := home.defaultAttributes } :
      StaticModule P).fillOpenCaptures.fillScopeSummaries = home.collected := by
    have filled := StaticModule.fill_collected home.bare
    rw [stands.filled] at filled
    exact filled
  rw [same] at whole
  exact whole

theorem codes_header (codec : ArtifactCodec P) (key : ModuleKey) (hash digest : List UInt8) :
    Codes (readHeader codec key hash) [.bytes artifactMagic, .u32 ARTIFACT_FORMAT_VERSION,
      .u64 key.raw, .bytes hash, .u64 codec.arenaAlign, .bytes digest] [] digest := by
  refine word rfl (check (decide_eq_true rfl) ?_)
  refine word rfl (check (decide_eq_true rfl) ?_)
  refine word rfl (check (decide_eq_true rfl) ?_)
  refine word rfl (check (decide_eq_true rfl) ?_)
  refine word rfl (check (decide_eq_true rfl) ?_)
  exact codes_expect rfl

/-- What an artifact was written as is read back as the artifact and its export. -/
theorem deserialize_of_stands (inverse : codec.Inverse) (stands : home.Stands modules)
    {hash : List UInt8} {out : LocalNodeId} (inside : out.index < home.nodes.length) {words : Words}
    (wrote : serializeArtifactWith codec home modules hash out = some words) :
    deserializeArtifactWith codec words home.key hash modules = some (home.collected, out) := by
  obtain ⟨body, wroteBody, wrote⟩ := bind_eq_some_iff.1 wrote
  cases wrote
  have header : readHeader codec home.key hash ⟨.bytes artifactMagic ::
      .u32 ARTIFACT_FORMAT_VERSION :: .u64 home.key.raw :: .bytes hash ::
        .u64 codec.arenaAlign :: .bytes (codec.sha256 body) :: body, []⟩ =
      some (codec.sha256 body, ⟨body, []⟩) :=
    codes_header codec home.key hash (codec.sha256 body) body []
  have read : readBody codec home.key modules ⟨body ++ [], []⟩ =
      some ((home.collected, out), ⟨[], []⟩) := codes_body inverse stands inside wroteBody [] []
  rw [append_nil] at read
  have checked : check (A := Arena) (decide (codec.sha256 body = codec.sha256 body)) ⟨body, []⟩ =
      some ((), ⟨body, []⟩) := if_pos (decide_eq_true rfl)
  have whole : readArtifact codec home.key hash modules ⟨.bytes artifactMagic ::
      .u32 ARTIFACT_FORMAT_VERSION :: .u64 home.key.raw :: .bytes hash ::
        .u64 codec.arenaAlign :: .bytes (codec.sha256 body) :: body, []⟩ =
      some ((home.collected, out), ⟨[], []⟩) := by
    change (readHeader codec home.key hash _).bind _ = _
    rw [header]
    change (check (decide (codec.sha256 body = codec.sha256 body)) ⟨body, []⟩).bind _ = _
    rw [checked]
    change (readBody codec home.key modules ⟨body, []⟩).bind _ = _
    rw [read]
    rfl
  rw [deserializeArtifactWith, whole]
  rfl

theorem reread_collected (home : StaticModule P) : home.Reread home.collected where
  tables := rfl
  owners := get_sortedEntries home.applyResultOwners
  sources := get_sortedEntries home.fieldSources

end Standing

end LichenVm
