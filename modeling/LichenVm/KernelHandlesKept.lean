import LichenVm.KernelHandles
import LichenVm.StoredArtifact

/-! What a kernel handle read from an artifact names in the process that reads it. -/

open List
open Option (some.inj)

namespace LichenVm

open ByteStream PrefixCode Codes Program KernelRegistry StaticModule
open KernelIr (ScalarClass)

section Codec

theorem codes_class (element : ScalarClass) : Codes readClass [writeClass element] [] element := by
  cases element <;> exact word rfl (supply rfl (codes_pure _))

theorem codes_backend (backend : Backend) : Codes readBackend [writeBackend backend] [] backend := by
  cases backend <;> exact word rfl (supply rfl (codes_pure _))

theorem codes_kernelId (id : KernelId) : Codes readKernelId [writeKernelId id] [] id := by
  have whole := codes_pure (W := Word Arena) (V := Unit) (UInt64.ofNat id.toNat)
  rw [UInt64.ofNat_toNat] at whole
  exact word rfl (by rw [UInt64.ofNat_toNat]; exact whole)

theorem ComputeValue.codes_value {value : ComputeValue} {words : Words}
    (wrote : value.writeValue = some words) : ∃ bare, Codes readValue words [] bare ∧
      (value.handle = none → bare = value) ∧ bare.handle.isSome = value.handle.isSome ∧
        ∀ payload, value.handle = some payload → bare.setHandle payload = value := by
  cases value with
  | kernel id =>
    cases wrote
    refine ⟨.kernel id, word rfl ?_, fun _ => rfl, rfl, fun _ carries => by cases carries⟩
    exact (codes_kernelId id).map _
  | parKernel id backend =>
    cases wrote
    refine ⟨.parKernel id backend, word rfl ?_, fun _ => rfl, rfl,
      fun _ carries => by cases carries⟩
    exact (codes_kernelId id).bind ((codes_backend backend).map _)
  | buffer payload element =>
    cases wrote
    refine ⟨_, word rfl ((codes_class element).map _), fun bare => (by cases bare), rfl,
      fun payload' carries => ?_⟩
    cases carries
    rfl
  | _ => cases wrote

theorem ComputeOperator.ofTag_tag (operator : ComputeOperator) :
    ofTag operator.tag = some operator := by
  cases operator <;> rfl

/-- The host's leaves are named apart from the compute leaf's. -/
structure ArtifactCodec.Beside {Q : Program} (codec : ArtifactCodec Q) : Prop where
  value : ∀ value, codec.valueLeaf value ≠ COMPUTE_VALUE
  operator : ∀ operator, codec.operatorLeaf operator ≠ COMPUTE_OPERATOR
  lowValue : codec.lowValue ≠ COMPUTE_VALUE
  lowOperator : codec.lowOperator ≠ COMPUTE_OPERATOR

section Composed

variable {Q : Program} {codec : ArtifactCodec Q}

theorem ArtifactCodec.withCompute_readExt : codec.withCompute.readExt COMPUTE_VALUE = (do
    let value ← ComputeValue.readValue
    pure (.inl value)) :=
  rfl

theorem ArtifactCodec.withCompute_readExtOperator :
    codec.withCompute.readExtOperator COMPUTE_OPERATOR = (do
      let tag ← u8
      let operator ← supply (ComputeOperator.ofTag tag)
      pure (.inl operator)) :=
  rfl

theorem ArtifactCodec.Beside.readExt (beside : codec.Beside) (value : Q.Ext) :
    codec.withCompute.readExt (codec.valueLeaf value) = (do
      let value ← codec.readExt (codec.valueLeaf value)
      pure (.inr value)) :=
  if_neg (beside.value value)

theorem ArtifactCodec.Beside.readExtOperator (beside : codec.Beside) (operator : Q.ExtOperator) :
    codec.withCompute.readExtOperator (codec.operatorLeaf operator) = (do
      let operator ← codec.readExtOperator (codec.operatorLeaf operator)
      pure (.inr operator)) :=
  if_neg (beside.operator operator)

/-- The composed codec's two sides are exact inverses when the host's are. -/
theorem ArtifactCodec.Inverse.withCompute (inverse : codec.Inverse) (beside : codec.Beside) :
    codec.withCompute.Inverse := by
  refine ⟨fun value => ?_, fun operator => ?_, fun value words wrote => ?_,
    fun operator words wrote => ?_⟩
  · cases value with
    | inl value => exact beside.lowValue.symm
    | inr value => exact inverse.valueLeaf value
  · cases operator with
    | inl operator => exact beside.lowOperator.symm
    | inr operator => exact inverse.operatorLeaf operator
  · cases value with
    | inl value =>
      obtain ⟨bare, reads, plain, carries, filled⟩ := ComputeValue.codes_value wrote
      refine ⟨.inl bare, ?_, fun none => congrArg Sum.inl (plain none), carries,
        fun payload held => congrArg Sum.inl (filled payload held)⟩
      show Codes (codec.withCompute.readExt COMPUTE_VALUE) words [] _
      exact reads.map Sum.inl
    | inr value =>
      obtain ⟨bare, reads, plain, carries, filled⟩ := inverse.value value words wrote
      refine ⟨.inr bare, ?_, fun none => congrArg Sum.inr (plain none), carries,
        fun payload held => congrArg Sum.inr (filled payload held)⟩
      show Codes (codec.withCompute.readExt (codec.valueLeaf value)) words [] _
      rw [beside.readExt]
      exact reads.map Sum.inr
  · cases operator with
    | inl operator =>
      cases wrote
      show Codes (codec.withCompute.readExtOperator COMPUTE_OPERATOR) _ [] _
      exact word rfl (supply operator.ofTag_tag (codes_pure _))
    | inr operator =>
      have reads := inverse.operator operator words wrote
      show Codes (codec.withCompute.readExtOperator (codec.operatorLeaf operator)) words [] _
      rw [beside.readExtOperator]
      exact reads.map Sum.inr

end Composed

end Codec

section Registering

variable {Fragment Claim : Type} [DecidableEq Fragment] [DecidableEq Claim]
  {digest : KernelEntry Fragment Claim → UInt64}

namespace KernelRegistry

variable {registry after : KernelRegistry Fragment Claim} {entry : KernelEntry Fragment Claim}
  {id : KernelId}

omit [DecidableEq Fragment] [DecidableEq Claim] in
theorem probe_free {steps : Nat} {start : KernelId} (found : registry.probe steps start = some id) :
    registry.entries.get id = none := by
  induction steps generalizing start with
  | zero => cases found
  | succ steps ih =>
    unfold probe at found
    split at found
    · exact ih found
    · rename_i free
      cases found
      exact Option.not_isSome_iff_eq_none.1 free

section

variable (compiled : registry.internKernel digest entry = some (id, after))

include compiled

theorem internKernel_cases :
    (registry.index.get (digest entry) = some id ∧ registry.entries.get id = some entry ∧
      after = registry) ∨
    ((∀ other, registry.index.get (digest entry) = some other →
        registry.entries.get other ≠ some entry) ∧
      registry.idForDigest (digest entry) = some id ∧ registry.entries.get id = none ∧
      after = { entries := registry.entries.insert id entry
                index := registry.index.insert (digest entry) id }) := by
  unfold internKernel at compiled
  split at compiled
  · rename_i known held
    obtain ⟨indexed, same⟩ := Option.filter_eq_some_iff.1 held
    cases compiled
    exact .inl ⟨indexed, of_decide_eq_true same, rfl⟩
  · rename_i unknown
    obtain ⟨given, probed, filed⟩ := Option.bind_eq_some_iff.1 compiled
    cases filed
    refine .inr ⟨fun other indexed same => ?_, probed, probe_free probed, rfl⟩
    have kept : (registry.index.get (digest entry)).filter
        (fun id => registry.entries.get id = some entry) = some other :=
      Option.filter_eq_some_iff.2 ⟨indexed, decide_eq_true same⟩
    rw [unknown] at kept
    cases kept

/-- A compile adds its kernel under the id it answers, and nothing else. -/
theorem get_internKernel {named : KernelId} {kernel : KernelEntry Fragment Claim} :
    after.entries.get named = some kernel ↔
      registry.entries.get named = some kernel ∨ (named, kernel) = (id, entry) := by
  rcases internKernel_cases compiled with ⟨-, held, rfl⟩ | ⟨-, -, free, rfl⟩
  · constructor
    · exact Or.inl
    · rintro (known | same)
      · exact known
      · cases same
        exact held
  · show (registry.entries.insert id entry).get named = some kernel ↔ _
    rw [AssocMap.get_insert]
    by_cases same : named = id
    · subst same
      rw [if_pos rfl, free]
      constructor
      · intro held
        rw [some.inj held]
        exact .inr rfl
      · rintro (known | same)
        · cases known
        · rw [(Prod.mk.inj same).2]
    · rw [if_neg same]
      constructor
      · exact Or.inl
      · rintro (known | other)
        · exact known
        · exact absurd (Prod.mk.inj other).1 same

end

variable {given : List (KernelId × KernelEntry Fragment Claim)}

theorem get_internAll {entries : List (KernelEntry Fragment Claim)}
    (compiled : internAll digest registry entries = some (given, after)) {named : KernelId}
    {kernel : KernelEntry Fragment Claim} :
    after.entries.get named = some kernel ↔
      registry.entries.get named = some kernel ∨ (named, kernel) ∈ given := by
  induction entries generalizing registry given with
  | nil =>
    cases compiled
    simp only [not_mem_nil, or_false]
  | cons entry entries ih =>
    obtain ⟨first, ran, compiled⟩ := Option.bind_eq_some_iff.1 compiled
    obtain ⟨others, rest, compiled⟩ := Option.bind_eq_some_iff.1 compiled
    cases compiled
    rw [ih rest, get_internKernel ran, mem_cons, or_assoc]

/-- Every kernel is filed under its digest, and found by it. -/
def Direct (digest : KernelEntry Fragment Claim → UInt64)
    (registry : KernelRegistry Fragment Claim) : Prop :=
  ∀ id kernel, registry.entries.get id = some kernel →
    id = digest kernel ∧ registry.index.get (digest kernel) = some id

omit [DecidableEq Fragment] [DecidableEq Claim] in
theorem idForDigest_of_free {start : UInt64} (free : registry.entries.get start = none) :
    registry.idForDigest start = some start := by
  have absent : registry.entries.containsKey start = false := by
    rw [AssocMap.containsKey, free]
    rfl
  rw [idForDigest, probe, absent]
  rfl

/-- Where no two kernels share a digest, a compile answers the digest. -/
theorem Direct.internKernel (direct : registry.Direct digest)
    (apart : ∀ named kernel, registry.entries.get named = some kernel →
      digest kernel = digest entry → kernel = entry)
    (compiled : registry.internKernel digest entry = some (id, after)) :
    id = digest entry ∧ after.Direct digest := by
  rcases internKernel_cases compiled with ⟨-, held, rfl⟩ | ⟨unknown, probed, -, rfl⟩
  · exact ⟨(direct id entry held).1, direct⟩
  · have free : registry.entries.get (digest entry) = none := by
      cases held : registry.entries.get (digest entry) with
      | none => rfl
      | some kernel =>
        obtain ⟨filed, indexed⟩ := direct _ kernel held
        obtain rfl := apart _ kernel held filed.symm
        exact absurd held (unknown _ indexed)
    rw [idForDigest_of_free free] at probed
    cases probed
    refine ⟨rfl, fun named kernel held => ?_⟩
    rcases (get_internKernel compiled).1 held with known | same
    · obtain ⟨filed, indexed⟩ := direct named kernel known
      have other : digest kernel ≠ digest entry := by
        intro same
        rw [filed, same, free] at known
        cases known
      refine ⟨filed, ?_⟩
      show (registry.index.insert (digest entry) (digest entry)).get (digest kernel) = _
      rw [AssocMap.get_insert, if_neg other, indexed]
    · cases same
      exact ⟨rfl, AssocMap.get_insert_self _ _ _⟩

theorem Direct.internAll {all entries : List (KernelEntry Fragment Claim)}
    (apart : ∀ kernel ∈ all, ∀ other ∈ all, digest kernel = digest other → kernel = other)
    (inside : ∀ entry ∈ entries, entry ∈ all)
    (known : ∀ named kernel, registry.entries.get named = some kernel → kernel ∈ all)
    (direct : registry.Direct digest)
    (compiled : internAll digest registry entries = some (given, after)) :
    given = entries.map fun entry => (digest entry, entry) := by
  induction entries generalizing registry given with
  | nil =>
    cases compiled
    rfl
  | cons entry entries ih =>
    obtain ⟨first, ran, compiled⟩ := Option.bind_eq_some_iff.1 compiled
    obtain ⟨others, rest, compiled⟩ := Option.bind_eq_some_iff.1 compiled
    cases compiled
    have listed := inside entry mem_cons_self
    obtain ⟨filed, direct'⟩ := direct.internKernel
      (fun named kernel held => apart kernel (known named kernel held) entry listed) ran
    have known' : ∀ named kernel, first.2.entries.get named = some kernel → kernel ∈ all := by
      intro named kernel held
      rcases (get_internKernel ran).1 held with earlier | same
      · exact known named kernel earlier
      · rw [(Prod.mk.inj same).2]
        exact listed
    rw [map_cons, ih (fun other member => inside other (mem_cons_of_mem _ member))
      known' direct' rest, filed]

theorem direct_empty : ({} : KernelRegistry Fragment Claim).Direct digest :=
  fun _ _ held => by cases held

end KernelRegistry

end Registering

section Loaded

variable {P : Program}

theorem serializeArtifactWith_refilled (codec : ArtifactCodec P) (home : StaticModule P)
    (modules : Modules P) (hash : List UInt8) (out : LocalNodeId) :
    serializeArtifactWith codec home.refilled modules hash out =
      serializeArtifactWith codec home modules hash out := by
  have functions : writeList writeFunction home.refilled.functions =
      writeList writeFunction home.functions := by
    simp only [refilled, fillScopeSummaries, fillOpenCaptures,
      bare, writeList, length_map, flatMap_map]
    rfl
  unfold serializeArtifactWith serializeBody
  rw [functions]
  rfl

theorem frozen_nodes_reread {m : Module P} {mode : FreezeMode} {key : ModuleKey}
    {nodeIds : List NodeId} {functionIds : List FunctionId} {home : StaticModule P}
    {codec : ArtifactCodec P} {modules : Modules P} {hash : List UInt8} {out : LocalNodeId}
    {words : Words} (inverse : codec.Inverse)
    (froze : m.freezeSet key nodeIds functionIds mode = some home)
    (storable : m.Storable key nodeIds functionIds modules)
    (own : ∀ own, modules key = some own → own = home)
    (shapes : ∀ node ∈ home.nodes, shapeLevels node.lowShape ≤ MAX_LOW_SHAPE_DEPTH)
    (inside : out.index < home.nodes.length)
    (wrote : serializeArtifactWith codec home modules hash out = some words) :
    ∃ back, deserializeArtifactWith codec words key hash modules = some (back, out) ∧
      back.nodes = home.nodes := by
  rw [← serializeArtifactWith_refilled] at wrote
  have filed : home.refilled.key = key := (Module.freezeSet_frozen froze).key
  have read := deserialize_of_stands inverse
    (Module.freezeSet_refilled_stands froze storable own shapes) inside wrote
  rw [filed] at read
  exact ⟨home.refilled.collected, read, rfl⟩

end Loaded

section Kept

variable {Q : Program} {Fragment Claim : Type}

/-- Every kernel the artifact names is in one process what it is in the other. -/
def KernelRegistry.Keeps (saver loader : KernelRegistry Fragment Claim)
    (handles : List KernelHandle) : Prop :=
  ∀ handle ∈ handles, ∀ fragment, saver.kernelFragment handle.id = some fragment →
    loader.kernelFragment handle.id = some fragment

variable [DecidableEq Fragment] [DecidableEq Claim]
  {digest : KernelEntry Fragment Claim → UInt64} {es fs : List (KernelEntry Fragment Claim)}
  {saved loaded : List (KernelId × KernelEntry Fragment Claim)}
  {saver loader : KernelRegistry Fragment Claim}

namespace KernelRegistry

theorem kernelFragment_iff (compiled : internAll digest {} es = some (saved, saver))
    {id : KernelId} {fragment : Fragment} :
    saver.kernelFragment id = some fragment ↔ ∃ kernel, (id, kernel) ∈ saved ∧
      kernel.fragment = fragment := by
  have named : ∀ kernel, saver.entries.get id = some kernel ↔ (id, kernel) ∈ saved := by
    intro kernel
    rw [get_internAll compiled]
    constructor
    · rintro (held | member)
      · cases held
      · exact member
    · exact Or.inr
  rw [kernelFragment, Option.map_eq_some_iff]
  constructor
  · rintro ⟨kernel, held, same⟩
    exact ⟨kernel, (named kernel).1 held, same⟩
  · rintro ⟨kernel, member, same⟩
    exact ⟨kernel, (named kernel).2 member, same⟩

theorem mem_of_direct {all : List (KernelEntry Fragment Claim)}
    (apart : ∀ kernel ∈ all, ∀ other ∈ all, digest kernel = digest other → kernel = other)
    (inside : ∀ entry ∈ es, entry ∈ all) (compiled : internAll digest {} es = some (saved, saver))
    {id : KernelId} {kernel : KernelEntry Fragment Claim} :
    (id, kernel) ∈ saved ↔ kernel ∈ es ∧ id = digest kernel := by
  rw [direct_empty.internAll apart inside (fun _ _ held => by cases held) compiled, mem_map]
  constructor
  · rintro ⟨entry, member, same⟩
    cases same
    exact ⟨member, rfl⟩
  · rintro ⟨member, rfl⟩
    exact ⟨kernel, member, rfl⟩

end KernelRegistry

/-- A handle read back keeps its meaning exactly when the process that reads it compiles a kernel of
that fragment and is answered the handle's id. Where no digests collide, that is to compile the kernel
that the handle named. -/
theorem kernel_handles_resolve {m : Module Q.withCompute} {mode : FreezeMode} {key : ModuleKey}
    {nodeIds : List NodeId} {functionIds : List FunctionId} {home : StaticModule Q.withCompute}
    {codec : ArtifactCodec Q} {modules : Modules Q.withCompute} {hash : List UInt8}
    {out : LocalNodeId} {words : Words} (inverse : codec.Inverse) (beside : codec.Beside)
    (froze : m.freezeSet key nodeIds functionIds mode = some home)
    (storable : m.Storable key nodeIds functionIds modules)
    (own : ∀ own, modules key = some own → own = home)
    (shapes : ∀ node ∈ home.nodes, shapeLevels node.lowShape ≤ MAX_LOW_SHAPE_DEPTH)
    (inside : out.index < home.nodes.length)
    (wrote : serializeArtifactWith codec.withCompute home modules hash out = some words)
    (saving : internAll digest {} es = some (saved, saver))
    (loading : internAll digest {} fs = some (loaded, loader)) :
    ∃ back, deserializeArtifactWith codec.withCompute words key hash modules = some (back, out) ∧
      back.kernelHandles = home.kernelHandles ∧
      (saver.Keeps loader back.kernelHandles ↔ ∀ handle ∈ home.kernelHandles, ∀ fragment,
        saver.kernelFragment handle.id = some fragment →
          ∃ kernel, (handle.id, kernel) ∈ loaded ∧ kernel.fragment = fragment) ∧
      ((∀ kernel ∈ es ++ fs, ∀ other ∈ es ++ fs, digest kernel = digest other → kernel = other) →
        (saver.Keeps loader back.kernelHandles ↔ ∀ handle ∈ home.kernelHandles, ∀ kernel,
          saver.entries.get handle.id = some kernel → kernel ∈ fs)) := by
  obtain ⟨back, read, nodes⟩ := frozen_nodes_reread (inverse.withCompute beside) froze storable own
    shapes inside wrote
  have handles : back.kernelHandles = home.kernelHandles := by
    rw [kernelHandles, nodes, kernelHandles]
  have compiles : saver.Keeps loader home.kernelHandles ↔ ∀ handle ∈ home.kernelHandles, ∀ fragment,
      saver.kernelFragment handle.id = some fragment →
        ∃ kernel, (handle.id, kernel) ∈ loaded ∧ kernel.fragment = fragment := by
    refine forall₂_congr fun handle _ => forall₂_congr fun fragment _ => ?_
    exact kernelFragment_iff loading
  refine ⟨back, read, handles, by rw [handles]; exact compiles, fun apart => ?_⟩
  have givenSaver : ∀ {id kernel}, (id, kernel) ∈ saved ↔ kernel ∈ es ∧ id = digest kernel :=
    mem_of_direct apart (fun _ member => mem_append_left _ member) saving
  have givenLoader : ∀ {id kernel}, (id, kernel) ∈ loaded ↔ kernel ∈ fs ∧ id = digest kernel :=
    mem_of_direct apart (fun _ member => mem_append_right _ member) loading
  rw [handles, compiles]
  refine forall₂_congr fun handle _ => ⟨fun keeps kernel named => ?_, fun listed fragment named => ?_⟩
  · obtain ⟨known, filed⟩ := givenSaver.1 (((get_internAll saving).1 named).resolve_left
      fun held => by cases held)
    obtain ⟨other, given, -⟩ := keeps kernel.fragment (by rw [kernelFragment, named]; rfl)
    obtain ⟨compiled, same⟩ := givenLoader.1 given
    rw [apart kernel (mem_append_left _ known) other (mem_append_right _ compiled)
      (filed.symm.trans same)]
    exact compiled
  · obtain ⟨kernel, held, rfl⟩ := Option.map_eq_some_iff.1 named
    have given := ((get_internAll saving).1 held).resolve_left fun held => by cases held
    exact ⟨kernel, givenLoader.2 ⟨listed kernel held, (givenSaver.1 given).2⟩, rfl⟩

end Kept

section Processes

/-- A body that returns at once. -/
def emptyBody (exactFloatArithmetic : Bool) : KernelIr.KernelBody where
  values := []
  blocks := [{ params := [], instrs := [], terminator := KernelIr.Terminator.return [] }]
  entry := 0
  exactFloatArithmetic

/-- A cell that is one kernel, to run on a device. -/
def kernelCell : Module plain.withCompute where
  nodes := ⟨[some { value := some (.ext (.inl (.parKernel 7 .gpu))), block := ⟨1⟩
                    equality := { tail := some ⟨1⟩, size := 1 } }]⟩
  blocks := ⟨[some { parent := none, nodes := [⟨1⟩] }]⟩

def kernelModules : Modules plain.withCompute := fun named =>
  if named = ⟨5⟩ then kernelCell.freezeSet ⟨5⟩ [⟨1⟩] [] .readOnly else none

theorem kernelCell_storable : kernelCell.Storable ⟨5⟩ [⟨1⟩] [] kernelModules := by
  refine ⟨by decide, ?_, nofun, fun _ => 0, nofun⟩
  intro node member entry value found held
  obtain rfl := mem_singleton.1 member
  cases found
  cases held
  exact fun handle carries => by cases carries

theorem plainCodec_beside : plainCodec.Beside := ⟨nofun, nofun, by decide, by decide⟩

/-- The bodies, and a digest that they share. -/
def firstKernel : KernelEntry KernelIr.KernelBody Unit := { fragment := emptyBody false, claim := none }

def otherKernel : KernelEntry KernelIr.KernelBody Unit := { fragment := emptyBody true, claim := none }

def sameDigest : KernelEntry KernelIr.KernelBody Unit → UInt64 := fun _ => 7

theorem kernelCell_written : ∃ home words, kernelCell.freezeSet ⟨5⟩ [⟨1⟩] [] .readOnly = some home ∧
    home.kernelHandles = [{ id := 7, backend := some .gpu }] ∧ home.nodes.length = 1 ∧
      (∀ node ∈ home.nodes, shapeLevels node.lowShape ≤ MAX_LOW_SHAPE_DEPTH) ∧
        serializeArtifactWith plainCodec.withCompute home kernelModules [1] ⟨0⟩ = some words := by
  obtain ⟨home, froze⟩ := Option.isSome_iff_exists.1
    (by decide +kernel : (kernelCell.freezeSet ⟨5⟩ [⟨1⟩] [] .readOnly).isSome)
  have read : ∀ {A : Type} (f : StaticModule plain.withCompute → A) (value : A),
      (kernelCell.freezeSet ⟨5⟩ [⟨1⟩] [] .readOnly).map f = some value → f home = value := by
    intro A f value held
    rw [froze] at held
    exact some.inj held
  have shapes := read (fun home => home.nodes.all fun node =>
    decide (shapeLevels node.lowShape ≤ MAX_LOW_SHAPE_DEPTH)) true (by decide +kernel)
  obtain ⟨words, wrote⟩ := Option.isSome_iff_exists.1
    (read (fun home => (serializeArtifactWith plainCodec.withCompute home kernelModules [1] ⟨0⟩).isSome)
      true (by decide +kernel))
  exact ⟨home, words, froze, read kernelHandles _ (by decide +kernel),
    read (fun home => home.nodes.length) 1 (by decide +kernel),
    fun node member => of_decide_eq_true (all_eq_true.1 shapes node member), wrote⟩

theorem kernelCell_own {home : StaticModule plain.withCompute}
    (froze : kernelCell.freezeSet ⟨5⟩ [⟨1⟩] [] .readOnly = some home)
    (own : StaticModule plain.withCompute) (supplied : kernelModules ⟨5⟩ = some own) :
    own = home :=
  some.inj (supplied.symm.trans froze)

/-- A process that compiles the kernel finds it under the handle that it reads. -/
theorem kernel_handles_resolve_recompiled : ∃ home words back saved saver loaded loader,
    kernelCell.freezeSet ⟨5⟩ [⟨1⟩] [] .readOnly = some home ∧
    serializeArtifactWith plainCodec.withCompute home kernelModules [1] ⟨0⟩ = some words ∧
    deserializeArtifactWith plainCodec.withCompute words ⟨5⟩ [1] kernelModules = some (back, ⟨0⟩) ∧
    internAll sameDigest {} [firstKernel] = some (saved, saver) ∧
    internAll sameDigest {} [firstKernel, otherKernel] = some (loaded, loader) ∧
    saver.Keeps loader back.kernelHandles := by
  obtain ⟨home, words, froze, handles, count, shapes, wrote⟩ := kernelCell_written
  obtain ⟨⟨saved, saver⟩, saving⟩ := Option.isSome_iff_exists.1 (by decide +kernel :
    (internAll sameDigest {} [firstKernel]).isSome = true)
  obtain ⟨⟨loaded, loader⟩, loading⟩ := Option.isSome_iff_exists.1 (by decide +kernel :
    (internAll sameDigest {} [firstKernel, otherKernel]).isSome = true)
  obtain ⟨back, read, -, keeps, -⟩ := kernel_handles_resolve plainCodec_inverse plainCodec_beside
    froze kernelCell_storable (kernelCell_own froze) shapes (by rw [count]; decide) wrote saving loading
  refine ⟨home, words, back, saved, saver, loaded, loader, froze, wrote, read, saving, loading,
    keeps.2 fun handle member fragment named => ?_⟩
  rw [handles] at member
  obtain rfl := mem_singleton.1 member
  have first : (internAll sameDigest {} [firstKernel]).map
      (fun compiled => compiled.2.kernelFragment 7) = some (some firstKernel.fragment) := by
    decide +kernel
  have given : (internAll sameDigest {} [firstKernel, otherKernel]).map
      (fun compiled => compiled.1.contains (7, firstKernel)) = some true := by
    decide +kernel
  rw [saving] at first
  rw [loading] at given
  refine ⟨firstKernel, contains_iff_mem.1 (some.inj given), ?_⟩
  exact some.inj ((some.inj first).symm.trans named)

/-- A process that keeps the cell compiles nothing, and finds no kernel under the handle that it reads.
One that compiles kernels of one digest in another order finds another kernel there. -/
theorem kept_cell_handle_dangles : ∃ home words back,
    kernelCell.freezeSet ⟨5⟩ [⟨1⟩] [] .readOnly = some home ∧
    serializeArtifactWith plainCodec.withCompute home kernelModules [1] ⟨0⟩ = some words ∧
    deserializeArtifactWith plainCodec.withCompute words ⟨5⟩ [1] kernelModules = some (back, ⟨0⟩) ∧
    back.kernelHandles = [{ id := 7, backend := some .gpu }] ∧
    (internAll sameDigest {} [firstKernel, otherKernel]).map
      (fun compiled => compiled.2.kernelFragment 7) = some (some firstKernel.fragment) ∧
    (internAll sameDigest {} []).map
      (fun compiled => compiled.2.kernelFragment 7) = some none ∧
    (internAll sameDigest {} [otherKernel, firstKernel]).map
      (fun compiled => compiled.2.kernelFragment 7) = some (some otherKernel.fragment) ∧
    otherKernel.fragment ≠ firstKernel.fragment := by
  obtain ⟨home, words, froze, handles, count, shapes, wrote⟩ := kernelCell_written
  obtain ⟨back, read, nodes⟩ := frozen_nodes_reread
    (plainCodec_inverse.withCompute plainCodec_beside) froze kernelCell_storable (kernelCell_own froze)
    shapes (by rw [count]; decide) wrote
  refine ⟨home, words, back, froze, wrote, read, ?_, by decide +kernel, by decide +kernel,
    by decide +kernel, by decide +kernel⟩
  rw [kernelHandles, nodes]
  exact handles

end Processes

end LichenVm
