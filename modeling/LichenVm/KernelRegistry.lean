import LichenVm.ArtifactFreshness
import LichenVm.ClaimAssembly
import LichenVm.KernelFragment

/-! The kernel registry: fragments interned by the digest of what they were compiled to. -/

open List
open Option (some.inj some.injEq)

namespace LichenVm.KernelIr

/-- One registered kernel: its fragment, and the interface it was compiled for. -/
structure KernelEntry where
  fragment : KernelFragment
  claim : Option HighIr.KernelClaim := none
  deriving DecidableEq

/-- The kernels by id, and the ids by digest. -/
structure KernelRegistry where
  kernels : AssocMap KernelId KernelEntry := {}
  index : AssocMap (BitVec 64) KernelId := {}

/-- The id a digest names: the digest itself, or the next free one beside it. One past as many
ids as there are entries is enough. -/
def idForDigest (digest : BitVec 64) (kernels : AssocMap KernelId KernelEntry) : Option KernelId :=
  ((range (kernels.entries.length + 1)).map fun step => (digest + BitVec.ofNat 64 step).toNat).find?
    fun id => !kernels.containsKey id

section Interning

variable (entryDigest : KernelEntry → BitVec 64)

/-- Register an entry, and answer its id: the index's one where that is of an equal entry. -/
def KernelRegistry.intern (registry : KernelRegistry) (entry : KernelEntry) :
    Option (KernelId × KernelRegistry) :=
  let digest := entryDigest entry
  match (registry.index.get digest).filter fun id => registry.kernels.get id = some entry with
  | some id => some (id, registry)
  | none => do
    let id ← idForDigest digest registry.kernels
    some (id, ⟨registry.kernels.insert id entry, registry.index.insert digest id⟩)

/-- A registry after a sequence of calls, the latest first, each with the id it returned. -/
inductive Interned : List (KernelEntry × KernelId) → KernelRegistry → Prop where
  | fresh : Interned [] {}
  | intern {calls : List (KernelEntry × KernelId)} {registry registry' : KernelRegistry}
    {entry : KernelEntry} {id : KernelId} (before : Interned calls registry)
    (answered : registry.intern entryDigest entry = some (id, registry')) :
    Interned ((entry, id) :: calls) registry'

/-- Two calls return one id exactly when their entries are equal, and an id resolves to its
entry. -/
structure Identifies (calls : List (KernelEntry × KernelId)) (registry : KernelRegistry) :
    Prop where
  same : ∀ call ∈ calls, ∀ call' ∈ calls, call.2 = call'.2 ↔ call.1 = call'.1
  resolves : ∀ call ∈ calls, registry.kernels.get call.2 = some call.1

/-- Each entry that was interned before is the latest one of its digest when it is interned again.
The entries come the latest first. -/
def Unshadowed : List KernelEntry → Prop
  | [] => True
  | entry :: earlier =>
    (entry ∈ earlier →
      earlier.find? (fun other => entryDigest other = entryDigest entry) = some entry) ∧
    Unshadowed earlier

variable {entryDigest} {calls : List (KernelEntry × KernelId)} {registry registry' : KernelRegistry}
  {entry : KernelEntry} {id : KernelId}

variable {kernels : AssocMap KernelId KernelEntry}

theorem idForDigest_free {digest : BitVec 64} (found : idForDigest digest kernels = some id) :
    kernels.get id = none := by
  have free := find?_some found
  rwa [Bool.not_eq_true', AssocMap.containsKey, Option.isSome_eq_false_iff,
    Option.isNone_iff_eq_none] at free

theorem intern_cases (answered : registry.intern entryDigest entry = some (id, registry')) :
    registry.index.get (entryDigest entry) = some id ∧ registry.kernels.get id = some entry ∧
      registry' = registry ∨
    (∀ other, registry.index.get (entryDigest entry) = some other →
      registry.kernels.get other ≠ some entry) ∧ registry.kernels.get id = none ∧
      registry' = ⟨registry.kernels.insert id entry, registry.index.insert (entryDigest entry) id⟩ := by
  unfold KernelRegistry.intern at answered
  dsimp only at answered
  cases hit : (registry.index.get (entryDigest entry)).filter fun id =>
      registry.kernels.get id = some entry with
  | some other =>
    rw [hit] at answered
    cases answered
    obtain ⟨found, equal⟩ := Option.filter_eq_some_iff.1 hit
    exact .inl ⟨found, of_decide_eq_true equal, rfl⟩
  | none =>
    rw [hit] at answered
    obtain ⟨free, probed, same⟩ := Option.bind_eq_some_iff.1 answered
    cases same
    refine .inr ⟨fun other found equal => ?_, idForDigest_free probed, rfl⟩
    rw [found, Option.filter_some, if_pos (decide_eq_true equal)] at hit
    cases hit

section

variable (reached : Interned entryDigest calls registry)

include reached

/-- What a registry holds: the ids that were returned, each with its entry, and by digest the id of
the latest call. -/
theorem Interned.holds :
    (∀ id entry, registry.kernels.get id = some entry ↔ (entry, id) ∈ calls) ∧
      ∀ digest, registry.index.get digest =
        (calls.find? fun call => entryDigest call.1 = digest).map Prod.snd := by
  induction reached with
  | fresh => exact ⟨fun id entry => by simp [AssocMap.get], fun digest => rfl⟩
  | @intern calls registry registry' entry id before answered ih =>
    obtain ⟨held, latest⟩ := ih
    rcases intern_cases answered with ⟨indexed, found, rfl⟩ | ⟨-, free, rfl⟩
    · refine ⟨fun other entry' => ?_, fun digest => ?_⟩
      · rw [held, mem_cons, Prod.mk.injEq]
        refine ⟨.inr, fun either => either.elim ?_ fun plain => plain⟩
        rintro ⟨rfl, rfl⟩
        exact (held _ _).1 found
      · rw [find?_cons]
        by_cases same : entryDigest entry = digest
        · rw [decide_eq_true same, ← same, indexed]
          rfl
        · rw [decide_eq_false same, latest]
    · refine ⟨fun other entry' => ?_, fun digest => ?_⟩
      · rw [AssocMap.get_insert, mem_cons, Prod.mk.injEq, ← held]
        by_cases same : other = id
        · rw [if_pos same, some.injEq, same, free]
          simp [eq_comm]
        · simp [same]
      · rw [AssocMap.get_insert, find?_cons, latest]
        by_cases same : entryDigest entry = digest
        · rw [decide_eq_true same, if_pos same.symm]
          rfl
        · rw [decide_eq_false same, if_neg (Ne.symm same)]

/-- Calls for equal entries return one id exactly when no entry was shadowed. -/
theorem Interned.functional_iff :
    (∀ call ∈ calls, ∀ call' ∈ calls, call.1 = call'.1 → call.2 = call'.2) ↔
      Unshadowed entryDigest (calls.map Prod.fst) := by
  induction reached with
  | fresh => simp [Unshadowed]
  | @intern calls registry registry' entry id before answered ih =>
    obtain ⟨held, latest⟩ := before.holds
    have again : (calls.map Prod.fst).find? (fun other => entryDigest other = entryDigest entry) =
        (calls.find? fun call => entryDigest call.1 = entryDigest entry).map Prod.fst := find?_map ..
    rw [map_cons, Unshadowed, ← ih, again]
    constructor
    · intro functional
      refine ⟨fun known => ?_, fun call member call' member' => functional call
        (mem_cons_of_mem _ member) call' (mem_cons_of_mem _ member')⟩
      obtain ⟨⟨_, other⟩, member, rfl⟩ := mem_map.1 known
      have same := functional _ mem_cons_self _ (mem_cons_of_mem _ member) rfl
      dsimp only at same
      subst same
      have found := (held id _).2 member
      rcases intern_cases answered with ⟨indexed, -, -⟩ | ⟨-, free, -⟩
      · rw [latest] at indexed
        obtain ⟨⟨entry', _⟩, first, rfl⟩ := Option.map_eq_some_iff.1 indexed
        rw [first]
        exact ((held _ _).2 (mem_of_find?_eq_some first)).symm.trans found
      · rw [free] at found
        cases found
    · rintro ⟨shadow, functional⟩
      -- A call for an entry that was interned before finds it in the index.
      have own : ∀ call ∈ calls, call.1 = entry → id = call.2 := by
        rintro ⟨_, other⟩ member rfl
        obtain ⟨⟨entry', first⟩, found, rfl⟩ := Option.map_eq_some_iff.1
          (shadow (mem_map.2 ⟨_, member, rfl⟩))
        have indexed : registry.index.get (entryDigest entry') = some first := by
          rw [latest, found]
          rfl
        have listed := mem_of_find?_eq_some found
        rcases intern_cases answered with ⟨indexed', -, -⟩ | ⟨missed, -, -⟩
        · rw [some.inj (indexed'.symm.trans indexed)]
          exact functional _ listed _ member rfl
        · exact absurd ((held _ _).2 listed) (missed first indexed)
      intro call member call' member' same
      rcases mem_cons.1 member with rfl | member
      · rcases mem_cons.1 member' with rfl | member'
        · rfl
        · exact own call' member' same.symm
      · rcases mem_cons.1 member' with rfl | member'
        · exact (own call member same).symm
        · exact functional call member call' member' same

theorem Interned.identifies_iff :
    Identifies calls registry ↔ Unshadowed entryDigest (calls.map Prod.fst) := by
  rw [← reached.functional_iff]
  have resolves : ∀ call ∈ calls, registry.kernels.get call.2 = some call.1 := fun call member =>
    (reached.holds.1 _ _).2 member
  refine ⟨fun known call member call' member' => (known.same call member call' member').2,
    fun functional => ⟨fun call member call' member' => ⟨fun same => ?_,
      functional call member call' member'⟩, resolves⟩⟩
  have found := resolves call member
  rw [same, resolves call' member'] at found
  exact (some.inj found).symm

end

end Interning

section LaunchSets

/-- Every instruction of a body, in block order. -/
def KernelBody.instrs (body : KernelBody) : List KernelInstr :=
  (body.blocks.flatMap BasicBlock.instrs).filterMap fun (value : ValueId) =>
    match body.values[value]? with
    | some (.instr op _ _) => some op
    | _ => none

/-- Queue the callee of an instruction, the first time it is met. -/
def enqueue (walk : List KernelId × List KernelId) : KernelInstr → List KernelId × List KernelId
  | .callKernel callee => if callee ∈ walk.1 then walk else (callee :: walk.1, walk.2 ++ [callee])
  | _ => walk

/-- The fragments a queue leads to, in the order they are met. -/
def launchWalk (kernels : AssocMap KernelId KernelEntry) :
    Nat → List KernelId × List KernelId → Option (List KernelFragment)
  | _, (_, []) => some []
  | 0, _ => none
  | fuel + 1, (seen, id :: queue) => do
    let entry ← kernels.get id
    let rest ← launchWalk kernels fuel (entry.fragment.body.instrs.foldl enqueue (seen, queue))
    some (entry.fragment :: rest)

/-- The launch set rooted at `root`. An id is queued once, and one with no entry ends the walk. -/
def launchSet (kernels : AssocMap KernelId KernelEntry) (root : KernelId) :
    Option (List KernelFragment) :=
  launchWalk kernels (kernels.entries.length + 1) ([root], [root])

variable (fragmentDigest : KernelFragment → BitVec 64) (sha256 : List UInt8 → Digest)

/-- The text a launch set's identity is the digest of. -/
def folded (fragments : List KernelFragment) : List UInt8 :=
  fragments.flatMap fun fragment => littleEndian (fragmentDigest fragment).toNat

def launchSetDigest (kernels : AssocMap KernelId KernelEntry) (root : KernelId) : Option Digest :=
  (launchSet kernels root).map fun fragments => sha256 (folded fragmentDigest fragments)

/-- No two of the fragments of two launch sets share a digest, and the texts they fold to do not. -/
structure Distinguished (fragments fragments' : List KernelFragment) : Prop where
  fragment : ∀ fragment ∈ fragments, ∀ fragment' ∈ fragments',
    fragmentDigest fragment = fragmentDigest fragment' → fragment = fragment'
  text : sha256 (folded fragmentDigest fragments) = sha256 (folded fragmentDigest fragments') →
    folded fragmentDigest fragments = folded fragmentDigest fragments'

variable {fragmentDigest} {sha256}

theorem folded_inj {fragments fragments' : List KernelFragment}
    (apart : ∀ fragment ∈ fragments, ∀ fragment' ∈ fragments',
      fragmentDigest fragment = fragmentDigest fragment' → fragment = fragment')
    (same : folded fragmentDigest fragments = folded fragmentDigest fragments') :
    fragments = fragments' := by
  have width : ∀ word, (littleEndian word).length = 8 := fun word => by simp [littleEndian]
  unfold folded at same
  induction fragments generalizing fragments' with
  | nil =>
    cases fragments' with
    | nil => rfl
    | cons fragment' fragments' =>
      have lengths := congrArg length same
      rw [flatMap_cons, length_append, width, flatMap_nil, length_nil] at lengths
      omega
  | cons fragment fragments ih =>
    cases fragments' with
    | nil =>
      have lengths := congrArg length same
      rw [flatMap_cons, length_append, width, flatMap_nil, length_nil] at lengths
      omega
    | cons fragment' fragments' =>
      obtain ⟨words, rest⟩ := append_inj same (by rw [width, width])
      have digests := littleEndian_inj (BitVec.isLt _) (BitVec.isLt _) words
      rw [apart fragment mem_cons_self fragment' mem_cons_self (BitVec.eq_of_toNat_eq digests),
        ih (fun first member second member' => apart first (mem_cons_of_mem _ member) second
          (mem_cons_of_mem _ member')) rest]

/-- **An id names one entry, and an entry one id, exactly when no entry is interned again after
another one took its digest in the index.** Launch sets of one identity are the same fragments, one
by one, where their digests and texts do not collide. -/
theorem intern_identifies_iff {entryDigest : KernelEntry → BitVec 64}
    {calls : List (KernelEntry × KernelId)} {registry : KernelRegistry}
    (reached : Interned entryDigest calls registry) :
    (Identifies calls registry ↔ Unshadowed entryDigest (calls.map Prod.fst)) ∧
      ∀ root root' fragments fragments', launchSet registry.kernels root = some fragments →
        launchSet registry.kernels root' = some fragments' →
        Distinguished fragmentDigest sha256 fragments fragments' →
        launchSetDigest fragmentDigest sha256 registry.kernels root =
          launchSetDigest fragmentDigest sha256 registry.kernels root' → fragments = fragments' := by
  refine ⟨reached.identifies_iff, fun root root' fragments fragments' set set' apart same => ?_⟩
  rw [launchSetDigest, launchSetDigest, set, set'] at same
  exact folded_inj apart.fragment (apart.text (some.inj same))

/-- A kernel with nothing in its body. -/
def bare (outputs : Nat) : KernelEntry where
  fragment := {
    paramShape := .scalar .int, roles := {}, body := ⟨[], [], 0, false, []⟩, inputs := 0, outputs,
    inputClasses := [], outputClasses := [], resultClasses := [], target := ⟨.i64, 64, 1⟩ }

theorem intern_identifies_iff_two : ∃ registry, Identifies [(bare 1, 1), (bare 0, 0)] registry :=
  ⟨_, (@intern_identifies_iff (fun _ => 0) id _ _ _
    (.intern (.intern .fresh rfl) rfl : Interned (fun _ => 0) _ _)).1.2
    ⟨by decide, by decide, trivial⟩⟩

/-- Three kernels of one digest, the last of them the first one again: it gets a second id. -/
theorem shadowed_kernel_gets_second_id :
    ∃ registry, Interned (fun _ => 0) [(bare 0, 2), (bare 1, 1), (bare 0, 0)] registry ∧
      ¬ Identifies [(bare 0, 2), (bare 1, 1), (bare 0, 0)] registry := by
  refine ⟨_, .intern (.intern (.intern .fresh rfl) rfl) rfl, fun known => ?_⟩
  have same := (known.same _ mem_cons_self _ (mem_of_mem_getLast? rfl)).2 rfl
  exact absurd same (by decide)

end LaunchSets

end LichenVm.KernelIr
