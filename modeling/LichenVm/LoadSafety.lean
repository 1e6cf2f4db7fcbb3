import LichenVm.LoadFrames
import LichenVm.StoredArtifact

/-! A load never aborts while every step of it is sound. -/

open List Option

namespace LichenVm

open Ast (Text)
open LoggedRun
open World (Frame InFlight Placed Serves)

variable {P : Program}

/-- What a step needs of the world before it. A verified file whose module the registry holds is
filed as its record says: from the source it has now, with no library's bytes, against the
identities its dependencies have now. A package is compiled against imports that reach only
registered modules, and not the package's own. -/
def Visit.Sound : Visit P → Prop
  | .verified world path source =>
    ∀ entry origin, world.device.entries.get (.onDisk path) = some entry →
      world.registry.builtFrom.get entry.key = some origin →
      origin = { source, libraries := [], deps := depIdentities world.device.entries entry.deps }
  | .compiles world key imports =>
    ∀ named, world.registry.filed.ReachedFrom (imports.map fun handle => handle.export.module) named →
      world.registry.filed.containsKey named = true ∧ named ≠ key
  | .reused _ => True
  | .built _ => True

theorem Registry.not_reachedFrom_nil {registry : Registry P} {named : ModuleKey} :
    ¬ registry.ReachedFrom [] named := by
  intro reached
  induction reached with
  | start member => cases member
  | step _ _ _ ih => exact ih

namespace Loader

variable {host : Toolchain P} {index levels : Nat} {held kept : FilePath → Prop} {missing : Option Text}
  {world : World P} {A : Type}

/-- A load keeps the world standing, and stops only for what is `allowed`. -/
abbrev Safe (host : Toolchain P) (index levels : Nat) (held kept : FilePath → Prop)
    (missing : Option Text) (allowed : Stop → Prop) (run : Loader P A) (world : World P)
    (good : A → World P → Prop) : Prop :=
  Keeps Visit.Sound (InFlight host index levels held missing) (Frame index kept) allowed run world good

theorem frame_trans (world world' world'' : World P) (first : Frame index kept world world')
    (second : Frame index kept world' world'') : Frame index kept world world'' :=
  first.trans second

theorem alloc_flight (flight : InFlight host index levels held missing world) (file : FileId)
    (outside : ∀ path, kept path → file ≠ .onDisk path) :
    InFlight host index levels held missing { world with device := (world.device.alloc file).2 } ∧
      Frame index kept world { world with device := (world.device.alloc file).2 } ∧
      ∃ entry, (world.device.alloc file).2.entries.get file = some entry ∧
        entry.key = (world.device.alloc file).1 := by
  obtain ⟨formed, ⟨entry, found, same, was⟩, others, stays⟩ :=
    DeviceRegistry.alloc_spec flight.standing.device file
  have step := flight.setDevice kept formed (fun other old held => ?_) (fun other new held => ?_)
    fun path keeps => others _ (outside path keeps).symm
  · exact ⟨step.1, step.2, entry, found, same⟩
  · by_cases here : other = file
    · rw [here] at held ⊢
      exact ⟨old, stays old held, rfl⟩
    · exact ⟨old, (others other here).trans held, rfl⟩
  · by_cases here : other = file
    · rw [here, found] at held
      cases held
      rcases was with before | pending
      · exact flight.standing.recorded file entry before
      · rw [pending.2]
        exact fun dep member => absurd member not_mem_nil
    · rw [others other here] at held
      exact flight.standing.recorded other new held

/-- What an embedded source is registered as. -/
structure Embedded (name : Text) (handle : PackageHandle) (world : World P) : Prop where
  served : handle.path = builtinPath name
  «export» : handle.export.module = handle.key
  placed : world.Placed (.embedded name) handle.key

variable {name : Text} {key : ModuleKey}

theorem builtinHandle_some (standing : world.Standing host)
    {handle : PackageHandle} (found : builtinHandle world.registry name key = some handle) :
    handle.path = builtinPath name ∧ handle.export.module = handle.key ∧ handle.key = key ∧
      world.registry.filed.containsKey key := by
  obtain ⟨package, filed, found⟩ := bind_eq_some_iff.1 found
  obtain ⟨record, recorded, found⟩ := bind_eq_some_iff.1 found
  obtain ⟨place, exports, found⟩ := bind_eq_some_iff.1 found
  cases found
  have present : world.registry.filed.containsKey key :=
    isSome_iff_exists.2 ⟨package, filed⟩
  have own := standing.exported key present
  rw [recorded, bind_some, exports] at own
  exact ⟨rfl, some.inj own, rfl, present⟩

theorem builtinHandle_none (standing : world.Standing host)
    (absent : builtinHandle world.registry name key = none) :
    world.registry.filed.containsKey key = false := by
  cases filed : world.registry.filed.get key with
  | none =>
    show (world.registry.filed.get key).isSome = false
    rw [filed]
    rfl
  | some package =>
    have own := standing.exported key (isSome_iff_exists.2 ⟨package, filed⟩)
    cases recorded : world.registry.metas.get key with
    | none =>
      rw [recorded] at own
      cases own
    | some record =>
      cases exports : record.export with
      | none =>
        rw [recorded, bind_some, exports] at own
        cases own
      | some place => simp [builtinHandle, filed, recorded, exports] at absent

theorem alloc_known {device : DeviceRegistry} {file : FileId} {entry : Entry}
    (found : device.entries.get file = some entry) : device.alloc file = (entry.key, device) := by
  simp only [DeviceRegistry.alloc, found]

theorem freeze_filed (registry : PackageRegistry P) {m : Module P}
    (freezes : (m.fromModule key).isSome)
    (names : ∀ named ∈ m.referencedKeys, registry.filed.containsKey named)
    (fresh : registry.filed.containsKey key = false) (hash : Digest) (origin : Origin) :
    ∃ artifact, registry.freeze m key hash origin = some
      { filed := registry.filed.file key hash artifact, metas := registry.metas.insert key {}
        builtFrom := registry.builtFrom.insert key origin } := by
  obtain ⟨artifact, froze⟩ := isSome_iff_exists.1 freezes
  refine ⟨artifact, ?_⟩
  have every : m.referencedKeys.all registry.filed.containsKey := List.all_eq_true.2 names
  simp [PackageRegistry.freeze, Registry.freezeMapped, every, fresh, froze]

theorem setRegistry_ran {change : PackageRegistry P → Option (PackageRegistry P)}
    {registry : PackageRegistry P} (changed : change world.registry = some registry) :
    setRegistry change world = ⟨.ok (), { world with registry }, []⟩ := by
  unfold setRegistry
  rw [bind_ran Run.state rfl, bind_ran (Run.orStop _ _)]
  · rfl
  · rw [changed]
    rfl

section Rules

variable {B : Type} {allowed : Stop → Prop} {good : A → World P → Prop}

theorem safe_state {next : World P → Loader P A}
    (goes : Safe host index levels held kept missing allowed (next world) world good) :
    Safe host index levels held kept missing allowed (Run.state >>= next) world good :=
  keeps_step Run.state rfl frame_trans (.refl _ _ _) goes

theorem safe_store {next : PackageStore → Loader P A}
    (goes : Safe host index levels held kept missing allowed (next (world.stores index)) world good) :
    Safe host index levels held kept missing allowed (store index >>= next) world good :=
  keeps_step (store index) rfl frame_trans (.refl _ _ _) goes

variable {next : Unit → Loader P A} {change : PackageStore → PackageStore}

theorem safe_setStore (framed : Frame index kept world (world.setStore index change))
    (goes : Safe host index levels held kept missing allowed (next ()) (world.setStore index change) good) :
    Safe host index levels held kept missing allowed (setStore index change >>= next) world good :=
  keeps_step (setStore index change) rfl frame_trans framed goes

theorem meets_setStore {bad : Stop → World P → Prop}
    (meets : Meets Visit.Sound (next ()) (world.setStore index change) good bad) :
    Meets Visit.Sound (setStore index change >>= next) world good bad :=
  meets_step (rfl : setStore index change world = ⟨.ok (), world.setStore index change, []⟩) meets

theorem safe_alloc {next : ModuleKey → Loader P A} {file : FileId}
    (framed : Frame index kept world { world with device := (world.device.alloc file).2 })
    (goes : Safe host index levels held kept missing allowed (next (world.device.alloc file).1)
      { world with device := (world.device.alloc file).2 } good) :
    Safe host index levels held kept missing allowed (alloc file >>= next) world good :=
  keeps_step (alloc file) rfl frame_trans framed goes

theorem safe_file {file set : PackageRegistry P → Option (PackageRegistry P)}
    {filed registry : PackageRegistry P} (files : file world.registry = some filed)
    (sets : set filed = some registry) (framed : Frame index kept world { world with registry })
    (goes : Safe host index levels held kept missing allowed (next ()) { world with registry } good) :
    Safe host index levels held kept missing allowed
      (setRegistry file >>= fun _ => setRegistry set >>= next) world good := by
  have first := setRegistry_ran files
  have second : setRegistry set { world with registry := filed } =
      ⟨.ok (), { world with registry }, []⟩ := setRegistry_ran sets
  exact meets_step first (meets_step second (goes.after frame_trans framed))

end Rules

theorem fileEmbedded_safe (compiles : host.Compiles)
    (flight : InFlight host index levels held missing world) {source : Text} {entry : Entry}
    (known : source = host.core ∨ source ∈ host.natives.map Prod.snd)
    (recorded : world.device.entries.get (.embedded name) = some entry)
    (fresh : world.registry.filed.containsKey entry.key = false) :
    Safe host index levels held kept missing (fun _ => False) (fileEmbedded host name source) world
      (Embedded name) := by
  unfold fileEmbedded
  apply safe_state
  apply keeps_orStop (.refl _ _) flight
  · intro refused
    have compiled := compiles.embedded source world.registry.filed known
    rw [refused] at compiled
    cases compiled
  intro compiled ran
  have alone : ∀ named ∈ compiled.module.referencedKeys,
      world.registry.filed.containsKey named := fun named member =>
    absurd (compiles.names _ _ _ ran named member) Registry.not_reachedFrom_nil
  apply safe_alloc
  · rw [alloc_known recorded]
    exact .refl _ _ _
  rw [alloc_known recorded]
  let hash := artifactHash host.sha256 (host.sha256 source) []
  let origin : Origin := { source, libraries := [], deps := [] }
  obtain ⟨artifact, froze⟩ := freeze_filed world.registry (compiles.freezes _ _ _ entry.key ran) alone
    fresh hash origin
  let handle : PackageHandle :=
    { path := builtinPath name, key := entry.key, «export» := compiled.place entry.key compiled.root
      direct := compiled.terms.map fun term => (term.1, compiled.place entry.key term.2) }
  let record : PackageMeta := { «export» := some handle.export, direct := handle.direct }
  have folds : hash = origin.hash host.sha256 := by
    show _ = artifactHash host.sha256 (host.sha256 (source ++ [])) []
    rw [append_nil]
  obtain ⟨flight', framed⟩ := flight.file world.registry artifact origin record (fun _ _ => rfl) rfl rfl
    folds rfl rfl fun path _ other found same =>
      FileId.noConfusion (flight.standing.device.apart _ _ _ _ found recorded same)
  apply safe_file froze (world.registry.setPackageMeta_filed _ _ _ _ record) framed
  apply keeps_pure (.refl _ _) flight'
  exact ⟨rfl, rfl, ⟨entry, recorded, rfl⟩, world.registry.filing_containsKey _ _ _ _ _⟩

theorem serve_flight (flight : InFlight host index levels held missing world)
    {handle : PackageHandle} (embeds : host.embeds name) (registered : Embedded name handle world)
    (change : PackageStore → PackageStore)
    (same : change (world.stores index) = { world.stores index with
      native := (world.stores index).native.insert name handle
      compiled := (change (world.stores index)).compiled }) :
    InFlight host index levels held missing (world.setStore index change) ∧
      Frame index kept world (world.setStore index change) ∧
      ((world.setStore index change).stores index).native.get name = some handle := by
  have own : (world.setStore index change).stores index = change (world.stores index) := if_pos rfl
  have gets : ∀ other, (change (world.stores index)).native.get other =
      if other = name then some handle else (world.stores index).native.get other := by
    intro other
    rw [same]
    exact AssocMap.get_insert _ _ _ _
  have stands := flight.standing.stores index
  have step := flight.setStore kept missing change ⟨fun other found held => ?_, ?_, ?_⟩ (fun other member apart => ?_)
    (by rw [same]) (fun path held => by rw [same]; exact held) fun other held => ?_
  · exact ⟨step.1, step.2, by rw [own, gets, if_pos rfl]⟩
  · rw [gets] at held
    split at held
    · next here =>
      cases held
      rw [here]
      exact ⟨embeds, registered.served, registered.export, registered.placed⟩
    · exact stands.native other found held
  · rw [same]
    exact stands.packages
  · rw [same]
    exact stands.pending
  · have waits := flight.waits index other member (by rw [if_pos rfl]; exact apart)
    rcases waits with pending | served
    · left
      rw [same]
      exact pending
    · right
      show ((change (world.stores index)).native.get other).isSome
      rw [gets]
      split
      · rfl
      · exact served
  · show ((change (world.stores index)).native.get other).isSome
    rw [gets]
    split
    · rfl
    · exact held

theorem registeredBuiltin_ran (world : World P) (name : Text) : registeredBuiltin name world =
      ⟨.ok (builtinHandle world.registry name (world.device.alloc (.embedded name)).1),
        { world with device := (world.device.alloc (.embedded name)).2 }, []⟩ := rfl

theorem registerEmbedded_safe (compiles : host.Compiles)
    (flight : InFlight host index levels held missing world) {count : Nat} {source : Text}
    (known : source = host.core ∨ source ∈ host.natives.map Prod.snd) (embeds : host.embeds name) :
    Safe host index levels held kept missing (fun _ => False)
      (registerEmbedded host index count name source) world
      fun handle world => Embedded name handle world ∧
        (world.stores index).native.get name = some handle := by
  obtain ⟨allocated, framed, entry, recorded, same⟩ := alloc_flight flight (.embedded name)
    fun path keeps => FileId.noConfusion
  unfold registerEmbedded
  apply keeps_step (registeredBuiltin name) (registeredBuiltin_ran world name) frame_trans framed
  cases found : builtinHandle world.registry name (world.device.alloc (.embedded name)).1 with
  | some handle =>
    obtain ⟨served, own, key, filed⟩ := builtinHandle_some flight.standing found
    have registered : Embedded name handle
        { world with device := (world.device.alloc (.embedded name)).2 } :=
      ⟨served, own, ⟨entry, recorded, by rw [same, key]⟩, by rw [key]; exact filed⟩
    obtain ⟨flight', framed', there⟩ := serve_flight allocated embeds registered
      (fun store => { store with native := store.native.insert name handle }) rfl
    apply safe_setStore framed'
    exact keeps_pure (.refl _ _) flight' ⟨⟨served, own, registered.placed.frame framed'⟩, there⟩
  | none =>
    have fresh := builtinHandle_none flight.standing found
    apply keeps_bind frame_trans
      (fileEmbedded_safe compiles allocated known recorded (by rw [same]; exact fresh))
    intro handle world' flight' framed' registered
    obtain ⟨served, framed'', there⟩ := serve_flight flight' embeds registered
      (fun store => { store with
        native := store.native.insert name handle, compiled := store.compiled + count }) rfl
    apply safe_setStore framed''
    exact keeps_pure (.refl _ _) served
      ⟨⟨registered.served, registered.export, registered.placed.frame framed''⟩, there⟩

theorem served_flight (flight : InFlight host index levels held (some name) world)
    (served : (world.stores index).native.containsKey name) :
    InFlight host index levels held none world := by
  refine ⟨flight.standing, fun other found member apart => ?_, flight.once, flight.present,
    flight.room, flight.holds⟩
  have waits := flight.waits other found member
  by_cases same : other = index
  · rw [if_pos same] at waits
    by_cases here : found = name
    · rw [same, here]
      exact .inr served
    · exact waits fun missing => here (some.inj missing).symm
  · rw [if_neg same] at waits
    exact waits nofun

theorem materializePendingNative_safe (compiles : host.Compiles)
    (flight : InFlight host index levels held none world) (name : Text) :
    Safe host index levels held kept none (fun _ => False) (materializePendingNative host index name)
      world fun _ world =>
        name ∈ host.natives.map Prod.fst → (world.stores index).native.containsKey name := by
  have stands := flight.standing.stores index
  unfold materializePendingNative
  apply safe_store
  cases found : (world.stores index).pendingNative.find? fun entry => entry.1 = name with
  | none =>
    apply keeps_pure (.refl _ _) flight
    intro member
    have waits := flight.waits index name member (by rw [if_pos rfl]; exact nofun)
    rcases waits with pending | served
    · obtain ⟨entry, listed, same⟩ := List.mem_map.1 pending
      have apart := List.find?_eq_none.1 found entry listed
      exact absurd (decide_eq_true same) apart
    · exact served
  | some entry =>
    have named : entry.1 = name := by simpa using List.find?_some found
    have member := stands.pending entry (mem_of_find?_eq_some found)
    let change : PackageStore → PackageStore := fun store =>
      { store with pendingNative := store.pendingNative.eraseP fun entry => entry.1 = name }
    have waits : (change (world.stores index)).Waits host (some name) := by
      intro other listed apart
      have waits := flight.waits index other listed (by rw [if_pos rfl]; exact nofun)
      rcases waits with pending | served
      · obtain ⟨kept, inside, same⟩ := List.mem_map.1 pending
        have stays : kept ∈ (world.stores index).pendingNative.eraseP fun entry => entry.1 = name := by
          rw [mem_eraseP_of_neg]
          · exact inside
          · rw [same, decide_eq_true_eq]
            exact fun here => apart (congrArg some here.symm)
        exact .inl (List.mem_map.2 ⟨kept, stays, same⟩)
      · exact .inr served
    obtain ⟨erased, framed⟩ := flight.setStore kept (some name) change
      ⟨stands.native, stands.packages, fun other kept => stands.pending other (mem_of_mem_eraseP kept)⟩
      waits rfl (fun _ => id) fun _ => id
    have registered : Safe host index levels held kept (some name) (fun _ => False)
        (registerNative host index entry.1 entry.2) (world.setStore index change) _ :=
      registerEmbedded_safe compiles erased (.inr (List.mem_map_of_mem member))
        (.inr (List.mem_map_of_mem member))
    apply meets_setStore
    apply meets_bind
    refine Meets.mono registered (fun handle world' ends => ?_) fun _ _ ends => ends.2.2.elim
    obtain ⟨flight', framed', -, served⟩ := ends
    have present : (world'.stores index).native.containsKey name := by
      rw [← named]
      exact isSome_iff_exists.2 ⟨handle, served⟩
    exact meets_pure ⟨served_flight flight' present, framed.trans framed', fun _ => present⟩

section Recursion

variable {load : FilePath → Loader P PackageHandle}

abbrev Diagnosed (stop : Stop) : Prop := stop = .diagnostics

variable {good : A → World P → Prop}

theorem safe_orDiagnose {B : Type} {answer : Option B} {next : B → Loader P A} (flight :
    InFlight host index levels held missing world)
    (present : ∀ b, answer = some b →
      Safe host index levels held kept missing Diagnosed (next b) world good) :
    Safe host index levels held kept missing Diagnosed (Run.orStop .diagnostics answer >>= next)
      world good :=
  keeps_orStop (.refl _ _) flight (fun _ => rfl) present

theorem safe_diagnose (flight : InFlight host index levels held missing world) :
    Safe host index levels held kept missing Diagnosed (Run.stop .diagnostics) world good :=
  keeps_stop (.refl _ _) flight rfl

/-- What the loads of a package's imports keep. -/
def Loads (host : Toolchain P) (index levels : Nat) (held : FilePath → Prop)
    (load : FilePath → Loader P PackageHandle) : Prop :=
  ∀ path world, InFlight host index levels held none world →
    Safe host index levels held held none Diagnosed (load path) world (Serves host index path)

variable {run : Loader P A}

theorem Safe.keeping {kept' : FilePath → Prop} {allowed : Stop → Prop} (safe :
    Safe host index levels held kept missing allowed run world good)
    (fewer : ∀ path, kept' path → kept path) :
    Safe host index levels held kept' missing allowed run world good :=
  Meets.mono safe (fun _ _ ends => ⟨ends.1, ends.2.1.mono fewer, ends.2.2⟩)
    fun _ _ ends => ⟨ends.1, ends.2.1.mono fewer, ends.2.2⟩

theorem Safe.allowing {allowed : Stop → Prop}
    (safe : Safe host index levels held kept missing (fun _ => False) run world good) :
    Safe host index levels held kept missing allowed run world good :=
  Meets.mono safe (fun _ _ ends => ends) fun _ _ ends => ⟨ends.1, ends.2.1, ends.2.2.elim⟩

theorem tolerate_safe (safe : Safe host index levels held kept missing Diagnosed run world good) :
    Safe host index levels held kept missing Diagnosed (tolerate run) world
      fun found world => ∀ a, found = some a → good a world := by
  unfold tolerate
  apply meets_attempt
  refine Meets.mono safe (fun a world' ends => ?_) fun stop world' ends => ?_
  · refine meets_pure ⟨ends.1, ends.2.1, fun other same => ?_⟩
    cases same
    exact ends.2.2
  · obtain ⟨flight, framed, rfl⟩ := ends
    exact meets_pure ⟨flight, framed, fun a found => by cases found⟩

section

variable (loads : Loads host index levels held load)
  (flight : InFlight host index levels held none world)

include loads flight

theorem resolveImport_safe (base : FilePath) (text : Text) :
    Safe host index levels held held none Diagnosed (resolveImport host index load base text) world
      fun handle world => ∃ path, world.Serves host index path handle := by
  unfold resolveImport
  apply safe_store
  apply safe_orDiagnose flight
  intro path _
  exact Keeps.mono (loads path world flight) fun handle _ _ _ serves => ⟨path, serves⟩

theorem preprocess_safe (path : FilePath) (header : Header) :
    Safe host index levels held held none Diagnosed (preprocess host index load path header) world
      fun imports world => ∀ handle ∈ imports, ∃ path, world.Serves host index path handle := by
  let served : Option PackageHandle → World P → Prop := fun found world =>
    ∀ handle, found = some handle → ∃ path, world.Serves host index path handle
  have stable : ∀ found (w w' : World P), Frame index held w w' → served found w → served found w' := by
    intro found w w' framed serves handle same
    obtain ⟨path, serves⟩ := serves handle same
    exact ⟨path, serves.frame framed⟩
  unfold preprocess
  apply keeps_bind frame_trans
  · apply keeps_each (fun _ found w => served found w) (.refl _ _) frame_trans
      (fun _ found w w' _ => stable found w w') flight
    intro text _ w flight' _
    exact tolerate_safe (resolveImport_safe loads flight' path text)
  intro imports w flight' _ fits
  apply keeps_bind frame_trans (tolerate_safe (loads (builtinPath CORE_PATH) w flight'))
  intro prelude w' flight'' framed first
  split
  · exact safe_diagnose flight''
  · cases collected : (prelude :: imports).mapM id with
    | none => exact safe_diagnose flight''
    | some handles =>
      apply keeps_pure (.refl _ _) flight''
      intro handle member
      obtain ⟨found, inside, same⟩ := Traverse.exists_of_mem_mapM _ _ _ collected handle member
      rcases mem_cons.1 inside with here | later
      · rw [here] at same
        exact ⟨_, first handle same⟩
      · obtain ⟨text, -, serves⟩ := fits.2 found later
        exact stable found w w' framed serves handle same

end

section

variable (flight : InFlight host index levels held none world)

include flight

theorem link_safe (path : FilePath) :
    Safe host index levels held kept none Diagnosed (link host index path) world fun _ _ => True := by
  unfold link
  apply safe_state
  apply safe_orDiagnose flight
  intro bytes _
  apply safe_store
  cases (world.stores index).linked.findIdx? fun entry => entry.1 = path with
  | some id => exact keeps_pure (.refl _ _) flight trivial
  | none =>
    simp only
    split
    · have stands := flight.standing.stores index
      obtain ⟨flight', framed⟩ := flight.setStore kept none
        (fun store => { store with linked := store.linked ++ [(path, bytes)] })
        ⟨stands.native, stands.packages, stands.pending⟩
        (by have waits := flight.waits index; rw [if_pos rfl] at waits; exact waits)
        rfl (fun _ => id) fun _ => id
      apply safe_setStore framed
      exact keeps_pure (.refl _ _) flight' trivial
    · exact safe_diagnose flight

theorem linkAll_safe (base : FilePath) (texts : List Text) (loaded : List Nat) :
    Safe host index levels held kept none Diagnosed (linkAll host index base texts loaded) world
      fun _ _ => True := by
  induction texts generalizing loaded world with
  | nil => exact keeps_pure (.refl _ _) flight trivial
  | cons text texts ih =>
    unfold linkAll
    apply keeps_bind frame_trans (link_safe flight (host.linkPath base text))
    intro id w flight' _ _
    split
    · exact ih flight' loaded
    · apply keeps_bind frame_trans (ih flight' (loaded ++ [id]))
      intro linked w' flight'' _ _
      exact keeps_pure (.refl _ _) flight'' trivial

end

theorem fileId_dependencyPath {file : FileId} (names : host.Names file) :
    host.fileId (dependencyPath file) = file := by
  cases file with
  | embedded name => exact if_pos names
  | onDisk path => exact if_neg names

variable {path : FilePath}

theorem loadArtifact_safe (flight : InFlight host index levels held none world)
    {verified : Verified} {origin : Origin} {entry : Entry} (plain : ¬ host.embeds path.name)
    (apart : ¬ kept path) (recorded : world.device.entries.get (.onDisk path) = some entry)
    (key : verified.key = entry.key) (fresh : world.registry.filed.containsKey verified.key = false)
    (folds : verified.hash = origin.hash host.sha256)
    (filed : ∀ dep ∈ verified.deps, world.registry.filed.containsKey dep.2) :
    Safe host index levels held kept none Diagnosed (loadArtifact host index path verified origin)
      world fun found world => ∀ handle, found = some handle → world.Serves host index path handle := by
  unfold loadArtifact
  apply safe_state
  have every : verified.deps.all (fun dep => world.registry.filed.containsKey dep.2) :=
    List.all_eq_true.2 filed
  simp only [every, Bool.not_true, Bool.false_eq_true, if_false]
  split
  · exact keeps_pure (.refl _ _) flight fun handle same => by cases same
  next artifact place _ =>
  have other : ∀ other, kept other → ∀ record, world.device.entries.get (.onDisk other) = some record →
      record.key ≠ verified.key := by
    intro other keeps record found same
    have one := flight.standing.device.apart _ _ _ _ found recorded (same.trans key)
    exact apart (FileId.onDisk.inj one ▸ keeps)
  let record : PackageMeta := { «export» := some { module := verified.key, index := place } }
  obtain ⟨flight', framed⟩ := flight.file world.registry artifact origin record (fun _ _ => rfl) rfl rfl
    folds rfl rfl other
  have inserts : world.registry.insertModule verified.key verified.hash artifact origin = some
      { filed := world.registry.filed.file verified.key verified.hash artifact
        metas := world.registry.metas.insert verified.key {}
        builtFrom := world.registry.builtFrom.insert verified.key origin } := by
    simp only [PackageRegistry.insertModule, fresh, Bool.false_eq_true, if_false]
  apply safe_file inserts (world.registry.setPackageMeta_filed _ _ _ _ record) framed
  have stands := flight'.standing.stores index
  obtain ⟨flight'', framed'⟩ := flight'.setStore kept none
    (fun store => { store with loadedFromCache := store.loadedFromCache + 1 })
    ⟨stands.native, stands.packages, stands.pending⟩
    (by have waits := flight'.waits index; rw [if_pos rfl] at waits; exact waits)
    rfl (fun _ => id) fun _ => id
  apply safe_setStore framed'
  apply keeps_note
  intro _
  refine keeps_pure (.refl _ _) flight'' fun handle same => ?_
  cases same
  have own : host.fileId path = .onDisk path := if_neg plain
  refine ⟨by rw [own]; rfl, rfl, ?_, fun embeds => absurd embeds plain⟩
  rw [own]
  exact ⟨⟨entry, recorded, key.symm⟩, world.registry.filing_containsKey _ _ _ _ _⟩

/-- Reuse a verified file's module, or load it from the device: it is never found reclaimed. -/
theorem tryReuse_safe (loads : Loads host index levels held load)
    (flight : InFlight host index levels held none world) {source : Text}
    {verified : Verified} (plain : ¬ host.embeds path.name) (apart : ¬ kept path) (own : held path)
    (fewer : ∀ path, kept path → held path)
    (checks : world.device.verify host.sha256 world.files (.onDisk path) source = some verified)
    (sound : Visit.Sound (.verified world path source)) :
    Safe host index levels held kept none Diagnosed (tryReuse host index load path verified
        { source, libraries := [], deps := depIdentities world.device.entries verified.deps })
      world fun found world => ∀ handle, found = some handle → world.Serves host index path handle := by
  obtain ⟨entry, recorded, hashes, key, deps, hash, keys⟩ := DeviceRegistry.verify_some checks
  let served (dep : FileId × ModuleKey) (handle : PackageHandle) (w : World P) : Prop :=
    w.Serves host index (dependencyPath dep.1) handle
  unfold tryReuse
  have loaded : Safe host index levels held held none Diagnosed
      (Run.each (fun dep => load (dependencyPath dep.1)) verified.deps) world _ :=
    keeps_each served (.refl _ _) frame_trans
      (fun _ _ _ _ _ framed serves => serves.frame framed) flight
      fun dep _ w flight' _ => loads (dependencyPath dep.1) w flight'
  apply keeps_bind frame_trans
    (Safe.keeping (Keeps.mono loaded fun _ _ _ framed fits => And.intro framed fits.1) fewer)
  rintro handles w flight' - ⟨framed, fits⟩
  have recorded' : w.device.entries.get (.onDisk path) = some entry :=
    (framed.entries path own).trans recorded
  have placed : host.fileId path = .onDisk path := if_neg plain
  apply safe_state
  cases found : w.registry.filed.get verified.key with
  | some package =>
    have before : world.registry.filed.get entry.key = some package := by
      rw [← framed.modules path own entry recorded, ← key]
      exact found
    obtain ⟨origin, built, folds⟩ := flight.standing.hashed _ _ before
    have same : package.hash = verified.hash := by
      rw [folds, sound entry origin recorded built, hash, ← hashes]
      simp only [Origin.hash, append_nil]
    have filed : w.registry.filed.containsKey verified.key :=
      isSome_iff_exists.2 ⟨package, found⟩
    have exports := flight'.standing.exported _ filed
    obtain ⟨place, exported, module⟩ := map_eq_some_iff.1 exports
    simp only [same, if_true, exported]
    refine keeps_pure (.refl _ _) flight' fun handle same => ?_
    cases same
    refine ⟨by rw [placed]; rfl, module, ?_, fun embeds => absurd embeds plain⟩
    rw [placed]
    exact ⟨⟨entry, recorded', key.symm⟩, filed⟩
  | none =>
    have fresh : w.registry.filed.containsKey verified.key = false := by
      show (w.registry.filed.get verified.key).isSome = false
      rw [found]
      rfl
    apply loadArtifact_safe flight' plain apart recorded' key fresh
    · rw [hash, ← hashes, deps]
      simp only [Origin.hash, append_nil]
    · intro dep member
      obtain ⟨handle, -, serves⟩ := fits dep member
      have names := flight.standing.recorded _ _ recorded dep (deps ▸ member)
      obtain ⟨⟨record, there, same⟩, filed⟩ := serves.placed
      rw [fileId_dependencyPath names] at there
      obtain ⟨old, was, oldKey⟩ := keys dep (deps ▸ member)
      obtain ⟨record', there', kept⟩ := framed.records _ _ was
      rw [there] at there'
      cases there'
      rw [← oldKey, ← kept, same]
      exact filed

theorem dependencyFileId_names (standing : world.Standing host)
    {handle : PackageHandle} (serves : world.Serves host index path handle) :
    host.Names (dependencyFileId (world.stores index) handle.path) := by
  unfold dependencyFileId
  split
  · next served =>
    obtain ⟨native, held⟩ := isSome_iff_exists.1 served
    exact ((standing.stores index).native _ _ held).1
  · next absent =>
    by_cases embeds : host.embeds path.name
    · have there := serves.native embeds
      rw [serves.served, Toolchain.fileId, if_pos embeds] at absent
      exact absurd there absent
    · rw [serves.served, Toolchain.fileId, if_neg embeds]
      exact embeds

theorem publish_safe (flight : InFlight host index levels held none world)
    {source : Text} {handle : PackageHandle} {hash : Digest} {deps : List (FileId × ModuleKey)}
    (apart : ¬ kept path) (placed : world.Placed (.onDisk path) handle.key)
    (names : ∀ dep ∈ deps, host.Names dep.1) :
    Safe host index levels held kept none Diagnosed (publish host path source handle hash deps) world
      fun _ _ => True := by
  obtain ⟨⟨entry, recorded, key⟩, filed⟩ := placed
  obtain ⟨package, found⟩ := isSome_iff_exists.1 filed
  have found : world.registry.filed.get handle.key = some package := found
  unfold publish
  apply safe_state
  rw [found]
  apply keeps_step (Run.orStop .assertion (some package)) rfl frame_trans (.refl _ _ _)
  simp only
  split
  · exact keeps_pure (.refl _ _) flight trivial
  next words _ =>
  let device := if host.takes (.onDisk path) words then
      world.device.storeArtifact (.onDisk path) words else world.device
  have same : device.entries = world.device.entries := by
    show (ite _ _ _ : DeviceRegistry).entries = _
    split <;> rfl
  have formed : device.Formed := by
    apply flight.standing.device.of_keys
    · show (ite _ _ _ : DeviceRegistry).nextKey = _
      split <;> rfl
    · show (ite _ _ _ : DeviceRegistry).free = _
      split <;> rfl
    · intro file entry there
      rw [same] at there
      exact ⟨entry, there, rfl⟩
  obtain ⟨device', published, formed', completed, others, -⟩ :=
    formed.publish host.sha256 (same ▸ recorded) (host.sha256 source) deps
  rw [key] at published
  have ran : Run.orStop Stop.assertion
      (device.publish host.sha256 (.onDisk path) handle.key (host.sha256 source) deps) world =
        (⟨.ok device', world, []⟩ : RunEnd (World P) (Visit P) Stop DeviceRegistry) := by
    rw [published]
    rfl
  apply keeps_step _ ran frame_trans (.refl _ _ _)
  have step := flight.setDevice kept formed' (fun file old was => ?_) (fun file record there => ?_)
    (fun other keeps => ?_)
  · exact keeps_step (Run.update _) rfl frame_trans step.2 (keeps_pure (.refl _ _) step.1 trivial)
  · by_cases here : file = .onDisk path
    · rw [here, recorded] at was
      cases was
      rw [here]
      exact ⟨_, completed, rfl⟩
    · rw [others file here, same]
      exact ⟨old, was, rfl⟩
  · by_cases here : file = .onDisk path
    · rw [here, completed] at there
      cases there
      exact names
    · rw [others file here, same] at there
      exact flight.standing.recorded file record there
  · rw [others _ fun same => apart (FileId.onDisk.inj same ▸ keeps), same]

theorem compilePackage_safe (compiles : host.Compiles)
    (flight : InFlight host index levels held none world) (source : Text)
    (header : Header) {imports : List PackageHandle} (plain : ¬ host.embeds path.name)
    (apart : ¬ kept path)
    (serves : ∀ handle ∈ imports, ∃ path, world.Serves host index path handle) :
    Safe host index levels held kept none Diagnosed
      (compilePackage host index path source header imports) world (Serves host index path) := by
  unfold compilePackage
  apply keeps_bind frame_trans (linkAll_safe flight path header.links [])
  intro linked w flight framed _
  have serves : ∀ handle ∈ imports, ∃ path, w.Serves host index path handle := by
    intro handle member
    obtain ⟨path, served⟩ := serves handle member
    exact ⟨path, served.frame framed⟩
  apply safe_store
  apply safe_state
  obtain ⟨flight', framed', entry, recorded, key⟩ := alloc_flight flight (.onDisk path)
    fun other keeps same => apart (FileId.onDisk.inj same ▸ keeps)
  apply safe_alloc framed'
  apply keeps_note
  intro sound
  rw [← key] at sound ⊢
  apply safe_orDiagnose flight'
  intro compiled ran
  let base : PackageRegistry P := { w.registry with
    filed := { w.registry.filed with entries := w.registry.filed.entries.remove entry.key } }
  have bare : ∀ other, base.filed.get other =
      if other = entry.key then none else w.registry.filed.get other := fun other =>
    AssocMap.get_remove _ _ _
  have names : ∀ named ∈ compiled.module.referencedKeys, base.filed.containsKey named := by
    intro named member
    obtain ⟨filed, other⟩ := sound named (compiles.names _ _ _ ran named member)
    show (base.filed.get named).isSome
    rw [bare, if_neg other]
    exact filed
  have fresh : base.filed.containsKey entry.key = false := by
    show (base.filed.get entry.key).isSome = false
    rw [bare, if_pos rfl]
    rfl
  let deps := imports.map fun handle =>
    (dependencyFileId (w.stores index) handle.path, handle.export.module)
  let libraries := linked.flatMap fun link => (w.files.get link.2).getD []
  let hash := w.device.artifactIdentity host.sha256 (host.sha256 (source ++ libraries)) deps
  let origin : Origin := { source, libraries, deps := depIdentities w.device.entries deps }
  have folds : hash = origin.hash host.sha256 := rfl
  obtain ⟨artifact, froze⟩ := freeze_filed base (compiles.freezes _ _ _ entry.key ran) names fresh
    hash origin
  let handle : PackageHandle :=
    { path, key := entry.key, «export» := compiled.place entry.key compiled.root }
  let record : PackageMeta := { «export» := some handle.export }
  obtain ⟨flight'', framed''⟩ := flight'.file base artifact origin record
    (fun other differs => (bare other).trans (if_neg differs)) rfl rfl folds rfl rfl
    fun other keeps found there same => apart
      (FileId.onDisk.inj (flight'.standing.device.apart _ _ _ _ there recorded same) ▸ keeps)
  apply safe_file froze (base.setPackageMeta_filed _ _ _ _ record) framed''
  have placed : host.fileId path = .onDisk path := if_neg plain
  have there := base.filing_containsKey entry.key hash artifact origin record
  apply keeps_bind frame_trans (publish_safe flight'' apart ⟨⟨entry, recorded, rfl⟩, there⟩ ?_)
  · intro _ w' published framed _
    have stands := published.standing.stores index
    obtain ⟨ended, framed'⟩ := published.setStore kept none
      (fun store => { store with compiled := store.compiled + 1 })
      ⟨stands.native, stands.packages, stands.pending⟩
      (by have waits := published.waits index; rw [if_pos rfl] at waits; exact waits)
      rfl (fun _ => id) fun _ => id
    apply safe_setStore framed'
    apply keeps_note
    intro _
    refine keeps_pure (.refl _ _) ended ⟨by rw [placed]; rfl, rfl, ?_, fun embeds => absurd embeds plain⟩
    rw [placed]
    exact World.Placed.frame (World.Placed.frame ⟨⟨entry, recorded, rfl⟩, there⟩ framed) framed'
  · intro dep member
    obtain ⟨imported, listed, rfl⟩ := List.mem_map.1 member
    obtain ⟨_, served⟩ := serves imported listed
    exact dependencyFileId_names flight.standing served

section

variable (compiles : host.Compiles) (loads : Loads host index levels held load)
  (flight : InFlight host index levels held none world)

include compiles loads flight

theorem buildPackage_safe (source : Text) (plain : ¬ host.embeds path.name) (apart : ¬ kept path)
    (fewer : ∀ path, kept path → held path) :
    Safe host index levels held kept none Diagnosed (buildPackage host index load path source) world
      (Serves host index path) := by
  have stands := flight.standing.stores index
  unfold buildPackage
  obtain ⟨flight', framed⟩ := flight.setStore kept none
    (fun store => { store with vendored := (host.header source).staged ++ store.vendored })
    ⟨stands.native, stands.packages, stands.pending⟩
    (by have waits := flight.waits index; rw [if_pos rfl] at waits; exact waits)
    rfl (fun _ => id) fun _ => id
  apply safe_setStore framed
  split
  · exact safe_diagnose flight'
  · apply keeps_bind frame_trans (Safe.keeping (preprocess_safe loads flight' path _) fewer)
    intro imports w flight'' _ serves
    exact compilePackage_safe compiles flight'' source _ plain apart serves

theorem loadPackageInner_safe (plain : ¬ host.embeds path.name) (apart : ¬ kept path)
    (own : held path) (fewer : ∀ path, kept path → held path) :
    Safe host index levels held kept none Diagnosed (loadPackageInner host index load path) world
      (Serves host index path) := by
  unfold loadPackageInner
  apply safe_state
  apply safe_orDiagnose flight
  intro source _
  split
  · exact buildPackage_safe compiles loads flight source plain apart fewer
  · next verified checks =>
    apply keeps_note
    intro sound
    apply keeps_bind frame_trans (tryReuse_safe loads flight plain apart own fewer checks sound)
    intro reused w flight' _ serves
    split
    · next handle => exact keeps_pure (.refl _ _) flight' (serves handle rfl)
    · exact buildPackage_safe compiles loads flight' source plain apart fewer

end

theorem loadFile_safe (compiles : host.Compiles) (loads : ∀ held, Loads host index levels held load)
    (flight : InFlight host index (levels + 1) held none world)
    (plain : ¬ host.embeds path.name) :
    Safe host index (levels + 1) held held none Diagnosed (loadFile host index load path) world
      (Serves host index path) := by
  have placed : host.fileId path = .onDisk path := if_neg plain
  unfold loadFile
  apply safe_state
  apply safe_store
  split
  · exact safe_diagnose flight
  next present =>
  split
  · exact safe_diagnose flight
  next apart =>
  split
  · next handle found =>
    obtain ⟨-, served, own, there⟩ := (flight.standing.stores index).packages path handle found
    exact keeps_pure (.refl _ _) flight
      ⟨by rw [placed]; exact served, own, by rw [placed]; exact there, fun embeds => absurd embeds plain⟩
  next absent =>
  have fresh : ¬ held path := by
    intro keeps
    rcases flight.holds path keeps with entered | loaded
    · exact apart entered
    · obtain ⟨handle, there⟩ := isSome_iff_exists.1 loaded
      rw [absent] at there
      cases there
  have entered := flight.push (by simpa using present) apart
  have inner := loadPackageInner_safe compiles (loads _) entered plain fresh (.inl rfl)
    fun other keeps => .inr keeps
  apply meets_setStore
  apply meets_attempt
  refine Meets.mono inner (fun handle w ends => ?_) fun stop w ends => ?_
  · obtain ⟨inside, framed, serves⟩ := ends
    obtain ⟨flight', framed'⟩ := flight.pop inside framed
    apply meets_setStore
    apply Keeps.after frame_trans framed'
    have stands := flight'.standing.stores index
    let left : World P := w.setStore index fun store => { store with loading := store.loading.tail }
    have stays : left.Serves host index path handle := by
      refine ⟨serves.served, serves.export, serves.placed, fun embeds => absurd embeds plain⟩
    have loaded : ∀ other found, ((left.stores index).packages.insert path handle).get other = some found →
        ¬ host.embeds other.name ∧ found.path = other ∧ found.export.module = found.key ∧
          left.Placed (.onDisk other) found.key := by
      intro other found there
      rw [AssocMap.get_insert] at there
      split at there
      · next same =>
        cases there
        have path := stays.served
        have own := stays.placed
        rw [placed] at path own
        rw [same]
        exact ⟨plain, path, stays.export, own⟩
      · exact stands.packages other found there
    have keeps : ∀ other, (left.stores index).packages.containsKey other →
        ((left.stores index).packages.insert path handle).containsKey other := by
      intro other there
      show (((left.stores index).packages.insert path handle).get other).isSome
      rw [AssocMap.get_insert]
      split
      · rfl
      · exact there
    obtain ⟨ended, framed''⟩ := flight'.setStore held none
      (fun store => { store with packages := store.packages.insert path handle })
      ⟨stands.native, loaded, stands.pending⟩
      (by have waits := flight'.waits index; rw [if_pos rfl] at waits; exact waits)
      rfl keeps fun _ => id
    apply safe_setStore framed''
    exact keeps_pure (.refl _ _) ended (stays.frame framed'')
  · obtain ⟨inside, framed, rfl⟩ := ends
    obtain ⟨flight', framed'⟩ := flight.pop inside framed
    apply meets_setStore
    exact Keeps.after frame_trans framed' (safe_diagnose flight')

end Recursion

theorem InFlight.loading_le (flight : InFlight host index levels held missing world) :
    (world.stores index).loading.length ≤ world.files.entries.length := by
  have inside : (world.stores index).loading ⊆ world.files.entries.map Prod.fst := by
    intro path member
    obtain ⟨content, found⟩ := isSome_iff_exists.1 (flight.present path member)
    exact List.mem_map.2 ⟨_, AssocMap.mem_of_get _ _ _ found, rfl⟩
  have fewer := (subperm_of_subset flight.once inside).length_le
  rwa [length_map] at fewer

/-- A load with a level for each file keeps the world standing. -/
theorem loadPackage_safe (compiles : host.Compiles) (levels : Nat) (held : FilePath → Prop) :
    Loads host index levels held (loadPackage host index levels) := by
  induction levels generalizing held with
  | zero =>
    intro path world flight
    have room := flight.room
    have fewer := InFlight.loading_le flight
    omega
  | succ levels ih =>
    intro path world flight
    unfold loadPackage
    apply keeps_bind frame_trans (materializePendingNative_safe compiles flight path.name).allowing
    intro _ w flight framed served
    apply safe_store
    split
    · next handle found =>
      obtain ⟨embeds, path', own, placed⟩ := (flight.standing.stores index).native _ _ found
      have at_ : host.fileId path = .embedded path.name := if_pos embeds
      exact keeps_pure (.refl _ _) flight ⟨by rw [at_]; exact path', own, by rw [at_]; exact placed,
        fun _ => isSome_iff_exists.2 ⟨handle, found⟩⟩
    next absent =>
    have unserved : path.name ∉ host.natives.map Prod.fst := by
      intro member
      obtain ⟨handle, found⟩ := isSome_iff_exists.1 (served member)
      rw [absent] at found
      cases found
    split
    · next core =>
      have embeds : host.embeds path.name := .inl core
      have at_ : host.fileId path = .embedded path.name := if_pos embeds
      have registered : Safe host index (levels + 1) held held none (fun _ => False)
          (registerEmbedded host index 0 CORE_PATH host.core) w
          (fun handle world => Embedded CORE_PATH handle world ∧
            (world.stores index).native.get CORE_PATH = some handle) :=
        registerEmbedded_safe compiles flight (.inl rfl) (.inl (rfl : CORE_PATH = CORE_PATH))
      refine Keeps.mono (Safe.allowing registered) fun handle w' _ _ ends => ?_
      obtain ⟨embedded, found⟩ := ends
      refine ⟨by rw [at_, core]; exact embedded.served, embedded.export, by rw [at_, core]; exact embedded.placed,
        fun _ => isSome_iff_exists.2 ⟨handle, by rw [core]; exact found⟩⟩
    next other =>
    split
    · exact loadFile_safe compiles ih flight fun embeds => embeds.elim other unserved
    · exact safe_diagnose flight

end Loader

namespace World

variable {host : Toolchain P} {world : World P}

/-- A world between two loads. -/
structure Idle (host : Toolchain P) (world : World P) : Prop where
  standing : world.Standing host
  waits : ∀ index, (world.stores index).Waits host none
  idle : ∀ index, (world.stores index).loading = []

theorem Idle.start (files : AssocMap FilePath Text) : (World.start host files).Idle host := by
  refine ⟨⟨⟨nofun, nofun, nofun, .nil⟩, nofun, nofun, nofun, fun index => ⟨nofun, nofun, fun _ => id⟩⟩,
    fun index name member _ => .inl member, fun _ => rfl⟩

def visits (host : Toolchain P) (world : World P) : LoadStep → List (Visit P)
  | .load index path => (world.load host index path).log
  | .edit _ _ => []
  | .restart => []

theorem Idle.load (compiles : host.Compiles) (idle : world.Idle host) (index : Nat) (path : FilePath)
    (sound : ∀ visit ∈ (world.load host index path).log, visit.Sound) :
    (world.load host index path).state.Idle host ∧
      ((∃ handle, (world.load host index path).answer = .ok handle) ∨
        (world.load host index path).answer = .error .diagnostics) := by
  have flight : InFlight host index (world.files.entries.length + 1) (fun _ => False) none world := by
    refine ⟨idle.standing, fun other => ?_, ?_, ?_, by omega, fun _ => False.elim⟩
    · rw [ite_self]
      exact idle.waits other
    · rw [idle.idle]
      exact .nil
    · rw [idle.idle]
      exact fun path member => absurd member not_mem_nil
  have ends := Loader.loadPackage_safe compiles _ _ path world flight sound
  have left : ∀ state, InFlight host index (world.files.entries.length + 1) (fun _ => False) none state →
      Frame index (fun _ => False) world state → state.Idle host := by
    intro state flight framed
    refine ⟨flight.standing, fun other => ?_, fun other => ?_⟩
    · have waits := flight.waits other
      rwa [ite_self] at waits
    · by_cases same : other = index
      · rw [same, framed.loading, idle.idle]
      · rw [framed.others other same, idle.idle]
  rcases RunEnd.Ends.cases ends with ⟨handle, answered, ended⟩ | ⟨stop, answered, ended⟩
  · exact ⟨left _ ended.1 ended.2.1, .inl ⟨handle, answered⟩⟩
  · obtain ⟨flight', framed, rfl⟩ := ended
    exact ⟨left _ flight' framed, .inr answered⟩

theorem Idle.run (compiles : host.Compiles) (idle : world.Idle host) (step : LoadStep)
    (sound : ∀ visit ∈ world.visits host step, visit.Sound) : (world.run host step).Idle host := by
  cases step with
  | load index path => exact (idle.load compiles index path sound).1
  | edit path content => exact ⟨⟨idle.standing.device, idle.standing.recorded, idle.standing.hashed,
      idle.standing.exported, fun index => (idle.standing.stores index).placed fun _ _ placed => placed⟩,
      idle.waits, idle.idle⟩
  | restart =>
    refine ⟨⟨idle.standing.device, idle.standing.recorded, nofun, nofun,
      fun index => ⟨nofun, nofun, fun _ => id⟩⟩, fun index name member _ => .inl member, fun _ => rfl⟩

/-- The worlds that runs of sound steps reach. -/
inductive Reaches (host : Toolchain P) : World P → Prop
  | start (files : AssocMap FilePath Text) : Reaches host (World.start host files)
  | step {world : World P} (step : LoadStep) (reached : Reaches host world)
      (sound : ∀ visit ∈ world.visits host step, visit.Sound) : Reaches host (world.run host step)

theorem Reaches.idle (compiles : host.Compiles) (reached : Reaches host world) : world.Idle host := by
  induction reached with
  | start files => exact .start files
  | step step _ sound ih => exact ih.run compiles step sound

end World

/-- In a run whose steps are sound, a load answers a handle or diagnostics. -/
theorem load_never_aborts {host : Toolchain P} (compiles : host.Compiles) {world : World P}
    (reached : World.Reaches host world) (index : Nat) (path : FilePath)
    (sound : ∀ visit ∈ (world.load host index path).log, visit.Sound) :
    (∃ handle, (world.load host index path).answer = .ok handle) ∨
      (world.load host index path).answer = .error .diagnostics :=
  ((reached.idle compiles).load compiles index path sound).2

/-- Enough for a step to be sound: its imports name nothing further. -/
def Visit.plainly : Visit P → Bool
  | .verified world path source =>
    (world.device.entries.get (.onDisk path)).all fun entry =>
      (world.registry.builtFrom.get entry.key).all fun origin =>
        origin = { source, libraries := [], deps := depIdentities world.device.entries entry.deps }
  | .compiles world key imports => imports.all fun handle =>
    decide (handle.export.module ≠ key) &&
      (world.registry.filed.get handle.export.module).any fun package => package.refs.isEmpty
  | .reused _ => true
  | .built _ => true

theorem Visit.sound_of_plainly {visit : Visit P} (plainly : visit.plainly) : visit.Sound := by
  cases visit with
  | verified world path source =>
    intro entry origin found built
    simpa [Visit.plainly, found, built] using plainly
  | compiles world key imports =>
    have each : ∀ named ∈ imports.map fun handle => handle.export.module, named ≠ key ∧
        ∃ package, world.registry.filed.get named = some package ∧ package.refs = [] := by
      intro named member
      obtain ⟨handle, listed, rfl⟩ := List.mem_map.1 member
      simpa [Option.any_eq_true] using List.all_eq_true.1 plainly handle listed
    intro named reached
    have listed : named ∈ imports.map fun handle => handle.export.module := by
      induction reached with
      | start listed => exact listed
      | step _ found names ih =>
        obtain ⟨-, package, there, bare⟩ := each _ ih
        rw [found] at there
        cases there
        rw [bare] at names
        cases names
    obtain ⟨apart, package, there, -⟩ := each named listed
    exact ⟨isSome_iff_exists.2 ⟨package, there⟩, apart⟩
  | reused path => trivial
  | built path => trivial

def numberModule : Module Program.plain where
  nodes := ⟨[some { value := some (.low (.usize 7)), block := ⟨1⟩, runned := true
                    equality := { tail := some ⟨1⟩, size := 1 } }]⟩
  blocks := ⟨[some { parent := none, nodes := [⟨1⟩], functions := [] }]⟩

/-- The header of a source of letters: "i" imports the file of the next one, "l" links it. -/
def letterHeader : Text → Header
  | 105 :: name :: rest => { letterHeader rest with imports := [name] :: (letterHeader rest).imports }
  | 108 :: name :: rest => { letterHeader rest with links := [name] :: (letterHeader rest).links }
  | _ :: rest => letterHeader rest
  | [] => {}

def letterPath (name : Text) : FilePath := { directory := [47], name := name ++ packageExtension }

/-- A host whose sources all compile to one number. -/
def letterHost : Toolchain Program.plain where
  codec := plainCodec
  sha256 := fun text => 1 :: text
  runtimeOnly := fun _ => false
  header := letterHeader
  resolve := fun _ _ name => some (letterPath name)
  linkPath := fun _ name => { directory := [47], name }
  links := fun _ _ => true
  compile := fun _ _ => some { module := numberModule, root := ⟨1⟩ }
  core := []
  natives := []
  takes := fun _ _ => true

theorem letterHost_compiles : letterHost.Compiles where
  freezes := by
    rintro _ _ _ key ⟨⟩
    rfl
  names := by
    rintro _ _ _ ⟨⟩ named member
    have alone : numberModule.referencedKeys = [] := by decide
    exact absurd (alone ▸ member) not_mem_nil
  embedded := fun _ _ _ => rfl

/-- "a" imports "b" and links nothing; "c" links the library "d". -/
def letterFiles : AssocMap FilePath Text :=
  ⟨[(letterPath [97], [105, 98]), (letterPath [98], []), (letterPath [99], [108, 100])
    , ({ directory := [47], name := [100] }, [9])]⟩

theorem load_never_aborts_twice :
    let world := (World.start letterHost letterFiles).run letterHost (.load 0 (letterPath [97]))
    (∃ handle, (world.load letterHost 1 (letterPath [97])).answer = .ok handle) ∨
      (world.load letterHost 1 (letterPath [97])).answer = .error .diagnostics :=
  load_never_aborts letterHost_compiles
    (.step (.load 0 (letterPath [97])) (.start letterFiles) fun visit member =>
      Visit.sound_of_plainly (List.all_eq_true.1 (by decide +kernel :
        ((World.start letterHost letterFiles).visits letterHost (.load 0 (letterPath [97]))).all
          Visit.plainly = true) visit member))
    1 (letterPath [97]) fun visit member =>
      Visit.sound_of_plainly (List.all_eq_true.1 (by decide +kernel :
        (((World.start letterHost letterFiles).run letterHost (.load 0 (letterPath [97]))).load
          letterHost 1 (letterPath [97])).log.all Visit.plainly = true) visit member)

/-- A package that links a library is filed under its bytes and recorded without them: the next
store that loads it aborts. -/
theorem linkedPackage_reclaimed : letterHost.Compiles ∧
      let world := (World.start letterHost letterFiles).run letterHost (.load 0 (letterPath [99]))
      (world.load letterHost 1 (letterPath [99])).stopped = some .reclaimed :=
  ⟨letterHost_compiles, by decide +kernel⟩

end LichenVm
