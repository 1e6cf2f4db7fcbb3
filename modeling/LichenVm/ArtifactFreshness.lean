import LichenVm.DeviceRecords

/-! Whether a verified artifact is fresh: what its identity says of the packages below it. -/

open List Option

namespace LichenVm

open AssocMap
open Ast (Text)

section Fold

def artifactText (source : Digest) (deps : List (ModuleKey × Digest)) : Text :=
  source ++ deps.flatMap fun dep => littleEndian dep.1.raw ++ dep.2

theorem artifactHash_eq (sha256 : Text → Digest) (source : Digest)
    (deps : List (ModuleKey × Digest)) :
    artifactHash sha256 source deps = sha256 (artifactText source deps) :=
  rfl

theorem littleEndian_inj {word other : Nat} (fits : word < 2 ^ 64) (fits' : other < 2 ^ 64)
    (same : littleEndian word = littleEndian other) : word = other := by
  have bytes : ∀ place < 8, word / 2 ^ (8 * place) % 256 = other / 2 ^ (8 * place) % 256 := by
    intro place below
    have here := congrArg (fun bytes => bytes[place]?) same
    simp only [littleEndian, getElem?_map, getElem?_range below, map_some,
      some.injEq] at here
    have here := congrArg UInt8.toNat here
    simpa only [UInt8.toNat_ofNat', Nat.shiftRight_eq_div_pow] using here
  have b0 := bytes 0 (by omega)
  have b1 := bytes 1 (by omega)
  have b2 := bytes 2 (by omega)
  have b3 := bytes 3 (by omega)
  have b4 := bytes 4 (by omega)
  have b5 := bytes 5 (by omega)
  have b6 := bytes 6 (by omega)
  have b7 := bytes 7 (by omega)
  omega

/-- A dependency as a fold writes it: a `u64` and a digest. -/
def FoldsInto (dep : ModuleKey × Digest) : Prop := dep.1.raw < 2 ^ 64 ∧ dep.2.length = 32

variable {deps deps' : List (ModuleKey × Digest)}

theorem fold_inj (fits : ∀ dep ∈ deps, FoldsInto dep) (fits' : ∀ dep ∈ deps', FoldsInto dep)
    (same : (deps.flatMap fun dep => littleEndian dep.1.raw ++ dep.2) =
      deps'.flatMap fun dep => littleEndian dep.1.raw ++ dep.2) : deps = deps' := by
  have width : ∀ word, (littleEndian word).length = 8 := fun word => by simp [littleEndian]
  induction deps generalizing deps' with
  | nil =>
    cases deps' with
    | nil => rfl
    | cons dep rest =>
      have lengths := congrArg List.length same
      simp only [flatMap_nil, flatMap_cons, length_append, width, length_nil] at lengths
      omega
  | cons dep rest ih =>
    cases deps' with
    | nil =>
      have lengths := congrArg List.length same
      simp only [flatMap_nil, flatMap_cons, length_append, width, length_nil] at lengths
      omega
    | cons dep' rest' =>
      obtain ⟨word, wide⟩ := fits dep mem_cons_self
      obtain ⟨word', wide'⟩ := fits' dep' mem_cons_self
      simp only [flatMap_cons, append_assoc] at same
      obtain ⟨keys, same⟩ := append_inj same (by rw [width, width])
      obtain ⟨identities, same⟩ := append_inj same (by rw [wide, wide'])
      have key : dep.1 = dep'.1 := by
        have raw := littleEndian_inj word word' keys
        cases first : dep.1
        cases second : dep'.1
        simpa [first, second] using raw
      rw [Prod.ext key identities, ih (fun dep member => fits dep (mem_cons_of_mem _ member))
          (fun dep member => fits' dep (mem_cons_of_mem _ member)) same]

theorem artifactText_inj {source source' : Digest} (wide : source.length = 32)
    (wide' : source'.length = 32) (fits : ∀ dep ∈ deps, FoldsInto dep)
    (fits' : ∀ dep ∈ deps', FoldsInto dep)
    (same : artifactText source deps = artifactText source' deps') :
    source = source' ∧ deps = deps' := by
  obtain ⟨sources, folds⟩ := append_inj same (by rw [wide, wide'])
  exact ⟨sources, fold_inj fits fits' folds⟩

end Fold

/-- The identity a file's record contributes to an importer's fold. -/
def identityOf (entries : AssocMap FileId Entry) (file : FileId) : Digest :=
  ((entries.get file).map Entry.artifact).getD UNKNOWN_IDENTITY

theorem depIdentities_eq (entries : AssocMap FileId Entry) (deps : List (FileId × ModuleKey)) :
    depIdentities entries deps = deps.map fun dep => (dep.2, identityOf entries dep.1) :=
  rfl

/-- The source hash and the identity a file's record has: all zeros where nothing is published. -/
def standing (entries : AssocMap FileId Entry) (file : FileId) : Digest × Digest :=
  ((entries.get file).map fun entry => (entry.sourceHash, entry.artifact)).getD
    (UNKNOWN_IDENTITY, UNKNOWN_IDENTITY)

/-- The packages below a file, at any depth. -/
inductive DependsOn (entries : AssocMap FileId Entry) (file : FileId) : FileId → Prop
  | direct {entry : Entry} {dep : FileId} (found : entries.get file = some entry)
      (names : dep ∈ entry.deps.map Prod.fst) : DependsOn entries file dep
  | deeper {middle dep : FileId} {entry : Entry} (above : DependsOn entries file middle)
      (found : entries.get middle = some entry) (names : dep ∈ entry.deps.map Prod.fst) :
      DependsOn entries file dep

theorem DependsOn.named {entries : AssocMap FileId Entry} {file dep : FileId}
    (below : DependsOn entries file dep) :
    ∃ importer entry, entries.get importer = some entry ∧ dep ∈ entry.deps.map Prod.fst := by
  cases below with
  | direct found names | deeper above found names => exact ⟨_, _, found, names⟩

variable (sha256 : Text → Digest)

/-- A record whose identity is the one its dependencies' records give it now. -/
def UpToDate (entries : AssocMap FileId Entry) (entry : Entry) : Prop :=
  entry.artifact = artifactHash sha256 entry.sourceHash (depIdentities entries entry.deps)

/-- Every published package that another one depends on is up to date. -/
def SettledEntries (entries : AssocMap FileId Entry) : Prop :=
  ∀ file entry dep record, entries.get file = some entry → dep ∈ entry.deps.map Prod.fst →
    entries.get dep = some record → record.artifact ≠ UNKNOWN_IDENTITY →
    UpToDate sha256 entries record

/-- SHA-256 without collisions on the texts that are hashed. -/
structure CollisionFree (hashed : Text → Prop) : Prop where
  wide : ∀ text, (sha256 text).length = 32
  known : ∀ text, sha256 text ≠ UNKNOWN_IDENTITY
  apart : ∀ text other, hashed text → hashed other → sha256 text = sha256 other → text = other

variable (imports : FileId → Text → List FileId) (hashed : Text → Prop)

/-- The texts of the identities that the records give each other are among the hashed ones. -/
def FoldsHashed (entries : AssocMap FileId Entry) : Prop :=
  ∀ file entry, entries.get file = some entry → entry.artifact ≠ UNKNOWN_IDENTITY →
    hashed (artifactText entry.sourceHash (depIdentities entries entry.deps))

/-- A record between its allocation and its publication. -/
def Entry.Pending (entry : Entry) : Prop :=
  entry.artifact = UNKNOWN_IDENTITY ∧ entry.sourceHash = UNKNOWN_IDENTITY ∧ entry.deps = []

/-- A published record: of a source that imports its dependencies, with an identity folded from
some that they had. -/
structure Entry.Published (file : FileId) (entry : Entry) : Prop where
  source : ∃ source, hashed source ∧ entry.sourceHash = sha256 source ∧
    imports file source = entry.deps.map Prod.fst
  fold : ∃ identities, entry.artifact = artifactHash sha256 entry.sourceHash identities ∧
    hashed (artifactText entry.sourceHash identities) ∧ ∀ dep ∈ identities, FoldsInto dep
  keys : ∀ dep ∈ entry.deps, dep.2.raw < 2 ^ 64

def Recorded (entries : AssocMap FileId Entry) : Prop :=
  ∀ file entry, entries.get file = some entry →
    entry.Pending ∨ entry.Published sha256 imports hashed file

section Tables

variable {sha256 imports hashed} {entries entries' : AssocMap FileId Entry}

variable {file : FileId} {entry : Entry}

section

variable (free : CollisionFree sha256 hashed)
  (published : entry.Published sha256 imports hashed file)

include free published

theorem Entry.Published.known : entry.artifact ≠ UNKNOWN_IDENTITY := by
  obtain ⟨identities, folds, -⟩ := published.fold
  rw [folds, artifactHash_eq]
  exact free.known _

theorem Entry.Published.wide : entry.sourceHash.length = 32 := by
  obtain ⟨source, -, hashes, -⟩ := published.source
  rw [hashes]
  exact free.wide _

end

theorem Recorded.published (recorded : Recorded sha256 imports hashed entries) (found :
    entries.get file = some entry)
    (known : entry.artifact ≠ UNKNOWN_IDENTITY) :
    entry.Published sha256 imports hashed file :=
  (recorded file entry found).resolve_left fun pending => known pending.1

section

variable (free : CollisionFree sha256 hashed) (recorded : Recorded sha256 imports hashed entries)

include free recorded

theorem Recorded.identity_wide (file : FileId) : (identityOf entries file).length = 32 := by
  unfold identityOf
  cases found : entries.get file with
  | none => simp [UNKNOWN_IDENTITY]
  | some entry =>
    rcases recorded file entry found with ⟨unknown, -, -⟩ | published
    · simp [unknown, UNKNOWN_IDENTITY]
    · obtain ⟨identities, folds, -⟩ := published.fold
      simp only [map_some, getD_some, folds, artifactHash_eq]
      exact free.wide _

theorem Recorded.folds {deps : List (FileId × ModuleKey)}
    (keys : ∀ dep ∈ deps, dep.2.raw < 2 ^ 64) :
    ∀ dep ∈ depIdentities entries deps, FoldsInto dep := by
  intro dep member
  obtain ⟨named, listed, rfl⟩ := List.mem_map.1 member
  exact ⟨keys named listed, recorded.identity_wide free named.1⟩

/-- One identity in two tables is that of one source hash. -/
theorem standing_of_identity (recorded' : Recorded sha256 imports hashed entries')
    (same : identityOf entries file = identityOf entries' file) :
    standing entries file = standing entries' file := by
  have unpublished : ∀ {table : AssocMap FileId Entry}, Recorded sha256 imports hashed table →
      identityOf table file = UNKNOWN_IDENTITY →
      standing table file = (UNKNOWN_IDENTITY, UNKNOWN_IDENTITY) := by
    intro table holds unknown
    unfold identityOf at unknown
    unfold standing
    cases found : table.get file with
    | none => rfl
    | some entry =>
      rw [found] at unknown
      rcases holds file entry found with ⟨artifact, source, -⟩ | published
      · simp [artifact, source]
      · exact absurd unknown (published.known free)
  by_cases known : identityOf entries file = UNKNOWN_IDENTITY
  · rw [unpublished recorded known, unpublished recorded' (same ▸ known)]
  have known' : identityOf entries' file ≠ UNKNOWN_IDENTITY := same ▸ known
  unfold identityOf at same known known'
  unfold standing
  cases found : entries.get file with
  | none => rw [found] at known; exact absurd rfl known
  | some entry =>
    cases found' : entries'.get file with
    | none => rw [found'] at known'; exact absurd rfl known'
    | some entry' =>
      rw [found] at same known
      rw [found'] at same known'
      simp only [map_some, getD_some] at same known known' ⊢
      have published := recorded.published found known
      have published' := recorded'.published found' known'
      obtain ⟨identities, folds, text, fits⟩ := published.fold
      obtain ⟨identities', folds', text', fits'⟩ := published'.fold
      have texts := free.apart _ _ text text' (folds.symm.trans (same.trans folds'))
      rw [same, (artifactText_inj (published.wide free) (published'.wide free) fits fits' texts).1]

section

variable (recorded' : Recorded sha256 imports hashed entries') (folds : FoldsHashed hashed entries)
  (folds' : FoldsHashed hashed entries')

include recorded' folds folds'

/-- Records of one source and one identity, both up to date, stand on the same dependencies. -/
theorem UpToDate.same_below {entry' : Entry} (found : entries.get file = some entry)
    (found' : entries'.get file = some entry') (known : entry.artifact ≠ UNKNOWN_IDENTITY)
    (artifact : entry.artifact = entry'.artifact) (source : entry.sourceHash = entry'.sourceHash)
    (current : UpToDate sha256 entries entry) (current' : UpToDate sha256 entries' entry') :
    entry.deps = entry'.deps ∧
      ∀ dep ∈ entry.deps.map Prod.fst, standing entries dep = standing entries' dep := by
  have known' : entry'.artifact ≠ UNKNOWN_IDENTITY := artifact ▸ known
  have published := recorded.published found known
  have published' := recorded'.published found' known'
  obtain ⟨text, hashes, digest, lists⟩ := published.source
  obtain ⟨text', hashes', digest', lists'⟩ := published'.source
  have sources : text = text' := free.apart _ _ hashes hashes' (by rw [← digest, ← digest', source])
  have files : entry.deps.map Prod.fst = entry'.deps.map Prod.fst := by
    rw [← lists, ← lists', sources]
  have texts := free.apart _ _ (folds _ _ found known) (folds' _ _ found' known')
    (current.symm.trans (artifact.trans current'))
  have identities := (artifactText_inj (published.wide free) (published'.wide free)
    (recorded.folds free published.keys) (recorded'.folds free published'.keys) texts).2
  rw [depIdentities_eq, depIdentities_eq] at identities
  have keys : entry.deps.map Prod.snd = entry'.deps.map Prod.snd := by
    have firsts := congrArg (List.map Prod.fst) identities
    rw [List.map_map, List.map_map] at firsts
    exact firsts
  have deps : entry.deps = entry'.deps := by
    rw [← zip_unzip entry.deps, ← zip_unzip entry'.deps]
    simp only [unzip_fst, unzip_snd, files, keys]
  refine ⟨deps, fun dep member => ?_⟩
  obtain ⟨named, listed, rfl⟩ := List.mem_map.1 member
  rw [← deps] at identities
  have pair := map_inj_left.1 identities named listed
  exact standing_of_identity free recorded recorded' (congrArg Prod.snd pair)

/-- Where one record is up to date in two settled tables, so is all that it stands on. -/
theorem DependsOn.unchanged (settled : SettledEntries sha256 entries)
    (settled' : SettledEntries sha256 entries') (found : entries.get file = some entry)
    (found' : entries'.get file = some entry) (known : entry.artifact ≠ UNKNOWN_IDENTITY)
    (current : UpToDate sha256 entries entry) (current' : UpToDate sha256 entries' entry)
    {dep : FileId} (below : DependsOn entries file dep) :
    DependsOn entries' file dep ∧ standing entries dep = standing entries' dep := by
  induction below with
  | direct there names =>
    cases found.symm.trans there
    exact ⟨.direct found' names, (UpToDate.same_below free recorded recorded' folds folds' found found'
      known rfl rfl current current').2 _ names⟩
  | @deeper middle dep record above there names ih =>
    obtain ⟨above', same⟩ := ih
    have published : record.artifact ≠ UNKNOWN_IDENTITY := by
      rcases recorded middle record there with ⟨-, -, none⟩ | published
      · rw [none] at names
        exact absurd names not_mem_nil
      · exact published.known free
    cases there' : entries'.get middle with
    | none =>
      simp only [standing, there, there', map_some, getD_some, map_none,
        getD_none, Prod.mk.injEq] at same
      exact absurd same.2 published
    | some record' =>
      simp only [standing, there, there', map_some, getD_some, Prod.mk.injEq] at same
      obtain ⟨importer, naming, imported, named⟩ := above.named
      obtain ⟨importer', naming', imported', named'⟩ := above'.named
      have now := settled _ _ _ _ imported named there published
      have now' := settled' _ _ _ _ imported' named' there' (same.2 ▸ published)
      obtain ⟨deps, standings⟩ := UpToDate.same_below free recorded recorded' folds folds' there
        there' published same.2 same.1 now now'
      exact ⟨.deeper above' there' (deps ▸ names), standings _ names⟩

end

end

end Tables

/-- A device store beside the source files. -/
structure StoreHistory where
  device : DeviceRegistry := {}
  files : AssocMap FilePath Text := {}
  /-- The records as they stood when each file was last published: nothing reads them. -/
  publishedAt : AssocMap FileId (AssocMap FileId Entry) := {}
  deriving DecidableEq

/-- A call of the device registry, or a change to a source file. -/
inductive StoreCall where
  | alloc (file : FileId)
  | publish (file : FileId) (key : ModuleKey) (source : Text) (deps : List (FileId × ModuleKey))
  | remove (file : FileId)
  | edit (path : FilePath) (source : Text)
  | erase (path : FilePath)

/-- The store after a call: `none` is a panic. -/
def StoreHistory.run (history : StoreHistory) : StoreCall → Option StoreHistory
  | .alloc file => some { history with device := (history.device.alloc file).2 }
  | .publish file key source deps =>
    (history.device.publish sha256 file key (sha256 source) deps).map fun device =>
      { history with device, publishedAt := history.publishedAt.insert file device.entries }
  | .remove file => some { history with device := (history.device.remove file).2 }
  | .edit path source => some { history with files := history.files.insert path source }
  | .erase path => some { history with files := history.files.remove path }

/-- A package is published with the dependencies its source imports, each under a `u64` key. -/
def StoreCall.Allowed : StoreCall → Prop
  | .publish file _ source deps =>
    hashed source ∧ imports file source = deps.map Prod.fst ∧ ∀ dep ∈ deps, dep.2.raw < 2 ^ 64
  | _ => True

/-- A run in which no call leaves a package that another one depends on out of date. -/
inductive SettledRun : StoreHistory → Prop
  | start (files : AssocMap FilePath Text) : SettledRun { files }
  | step {history history' : StoreHistory} {call : StoreCall} (before : SettledRun history)
      (allowed : call.Allowed imports hashed) (ran : history.run sha256 call = some history')
      (folds : FoldsHashed hashed history'.device.entries)
      (settled : SettledEntries sha256 history'.device.entries) : SettledRun history'

/-- What the records say at any point of a settled run, and said when each was published. -/
structure StoreHistory.Kept (history : StoreHistory) : Prop where
  recorded : Recorded sha256 imports hashed history.device.entries
  before : ∀ file entry, history.device.entries.get file = some entry →
    entry.artifact ≠ UNKNOWN_IDENTITY → ∃ entries, history.publishedAt.get file = some entries ∧
      entries.get file = some entry ∧ UpToDate sha256 entries entry ∧
      Recorded sha256 imports hashed entries ∧ FoldsHashed hashed entries ∧
      SettledEntries sha256 entries

section Runs

variable {sha256 imports hashed} {history history' : StoreHistory}

section

variable (kept : history.Kept sha256 imports hashed) (file : FileId)

include kept file

theorem StoreHistory.Kept.alloc :
    StoreHistory.Kept sha256 imports hashed
      { history with device := (history.device.alloc file).2 } := by
  have taken : history.device.takeIndex.2.entries = history.device.entries := by
    unfold DeviceRegistry.takeIndex
    split <;> rfl
  cases found : history.device.entries.get file with
  | some entry =>
    simp only [DeviceRegistry.alloc, found]
    exact kept
  | none =>
    simp only [DeviceRegistry.alloc, found, taken]
    refine ⟨fun other entry there => ?_, fun other entry there known => ?_⟩
    · simp only [get_insert] at there
      split at there
      · cases there
        exact .inl ⟨rfl, rfl, rfl⟩
      · exact kept.recorded other entry there
    · simp only [get_insert] at there
      split at there
      · cases there
        exact absurd rfl known
      · exact kept.before other entry there known

theorem StoreHistory.Kept.remove :
    StoreHistory.Kept sha256 imports hashed
      { history with device := (history.device.remove file).2 } := by
  have fewer : ∀ other entry, (history.device.remove file).2.entries.get other = some entry →
      history.device.entries.get other = some entry := by
    intro other entry there
    unfold DeviceRegistry.remove at there
    split at there
    · exact there
    · split at there
      · exact there
      · rw [DeviceRegistry.drop, get_remove] at there
        split at there
        · cases there
        · exact there
  exact ⟨fun other entry there => kept.recorded other entry (fewer other entry there),
    fun other entry there known => kept.before other entry (fewer other entry there) known⟩

end

theorem StoreHistory.Kept.publish (free : CollisionFree sha256 hashed)
    (acyclic : ∀ file source, file ∉ imports file source)
    (kept : history.Kept sha256 imports hashed) {file : FileId} {key : ModuleKey} {source : Text}
    {deps : List (FileId × ModuleKey)} (text : hashed source)
    (lists : imports file source = deps.map Prod.fst) (keys : ∀ dep ∈ deps, dep.2.raw < 2 ^ 64)
    {device : DeviceRegistry}
    (ran : history.device.publish sha256 file key (sha256 source) deps = some device)
    (folds : FoldsHashed hashed device.entries) (settled : SettledEntries sha256 device.entries) :
    StoreHistory.Kept sha256 imports hashed
      { history with device, publishedAt := history.publishedAt.insert file device.entries } := by
  unfold DeviceRegistry.publish at ran
  split at ran
  · cases ran
  next old there =>
  split at ran
  · cases ran
  next same =>
  cases ran
  let entry : Entry := { key, deps, sourceHash := sha256 source
                         artifact := history.device.artifactIdentity sha256 (sha256 source) deps }
  let entries := history.device.entries.insert file entry
  have known : entry.artifact ≠ UNKNOWN_IDENTITY := free.known _
  have found : entries.get file = some entry := get_insert_self _ _ _
  have apart : ∀ dep ∈ deps, identityOf entries dep.1 = identityOf history.device.entries dep.1 := by
    intro dep member
    have other : dep.1 ≠ file := by
      intro same
      have named : dep.1 ∈ imports file source := lists ▸ List.mem_map_of_mem member
      exact acyclic file source (same ▸ named)
    unfold identityOf
    rw [get_insert, if_neg other]
  have identities : depIdentities entries deps = depIdentities history.device.entries deps := by
    rw [depIdentities_eq, depIdentities_eq]
    apply List.map_congr_left
    intro dep member
    rw [apart dep member]
  have current : UpToDate sha256 entries entry := by
    show artifactHash _ _ (depIdentities history.device.entries deps) = artifactHash _ _ (depIdentities entries deps)
    rw [identities]
  have published : entry.Published sha256 imports hashed file :=
    { source := ⟨source, text, rfl, lists⟩
      fold := ⟨depIdentities history.device.entries deps, rfl, by
        have here := folds file entry found known
        rw [show depIdentities _ entry.deps = _ from identities] at here
        exact here, kept.recorded.folds free keys⟩
      keys }
  have recorded : Recorded sha256 imports hashed entries := by
    intro other entry' there'
    rw [get_insert] at there'
    split at there'
    · next at_ =>
      cases there'
      exact .inr (at_ ▸ published)
    · exact kept.recorded other entry' there'
  refine ⟨recorded, fun other entry' there' known' => ?_⟩
  have there'' := there'
  simp only [get_insert] at there'
  split at there'
  · next at_ =>
    cases there'
    exact ⟨entries, by rw [at_]; exact get_insert_self _ _ _, there'', current, recorded, folds, settled⟩
  · next at_ =>
    obtain ⟨entries', listed, rest⟩ := kept.before other entry' there' known'
    refine ⟨entries', ?_, rest⟩
    show (history.publishedAt.insert file _).get other = _
    rw [get_insert, if_neg at_]
    exact listed

theorem SettledRun.kept (free : CollisionFree sha256 hashed)
    (acyclic : ∀ file source, file ∉ imports file source)
    (run : SettledRun sha256 imports hashed history) : history.Kept sha256 imports hashed := by
  induction run with
  | start files => exact ⟨fun file entry there => (by cases there), fun file entry there => (by cases there)⟩
  | @step history history' call before allowed ran folds settled kept =>
    cases call with
    | alloc file =>
      cases ran
      exact kept.alloc file
    | publish file key source deps =>
      obtain ⟨device, published, rfl⟩ := map_eq_some_iff.1 ran
      exact kept.publish free acyclic allowed.1 allowed.2.1 allowed.2.2 published folds settled
    | remove file =>
      cases ran
      exact kept.remove file
    | edit path source | erase path =>
      cases ran
      exact ⟨kept.recorded, kept.before⟩

section

variable (run : SettledRun sha256 imports hashed history)

include run

theorem SettledRun.settled : SettledEntries sha256 history.device.entries := by
  cases run with
  | start files => intro file entry dep record there; cases there
  | step before allowed ran folds settled => exact settled

theorem SettledRun.folds : FoldsHashed hashed history.device.entries := by
  cases run with
  | start files => intro file entry there; cases there
  | step before allowed ran folds settled => exact folds

end

/-- Where a package verifies under the identity it was last published with, every package below it
is the one it was published over. -/
theorem verified_dependencies_unchanged (free : CollisionFree sha256 hashed)
    (acyclic : ∀ file source, file ∉ imports file source)
    (run : SettledRun sha256 imports hashed history) {file : FileId} {source : Text}
    {verified : Verified} {entries : AssocMap FileId Entry} {entry : Entry}
    (checks : history.device.verify sha256 history.files file source = some verified)
    (published : history.publishedAt.get file = some entries)
    (recorded : entries.get file = some entry) (same : verified.hash = entry.artifact) :
    ∀ dep, (DependsOn history.device.entries file dep ↔ DependsOn entries file dep) ∧
      (DependsOn history.device.entries file dep →
        standing history.device.entries dep = standing entries dep) := by
  have kept := run.kept free acyclic
  obtain ⟨now, found, hashes, -, -, answers, -⟩ := DeviceRegistry.verify_some checks
  have known : now.artifact ≠ UNKNOWN_IDENTITY := by
    rcases kept.recorded file now found with ⟨-, unknown, -⟩ | there
    · exact absurd (hashes.trans unknown) (free.known source)
    · exact there.known free
  obtain ⟨entries', published', there, current', before, folds', settled'⟩ := kept.before file now found known
  obtain rfl := some.inj (published'.symm.trans published)
  obtain rfl := some.inj (there.symm.trans recorded)
  have current : UpToDate sha256 history.device.entries now := same.symm.trans answers
  intro dep
  have forth : ∀ {dep}, DependsOn history.device.entries file dep → _ := fun below =>
    below.unchanged free kept.recorded before run.folds folds' run.settled settled' found there known
      current current'
  have back : DependsOn entries' file dep → DependsOn history.device.entries file dep := fun below =>
    (below.unchanged free before kept.recorded folds' run.folds settled' run.settled there found known
      current' current).1
  exact ⟨⟨fun below => (forth below).1, back⟩, fun below => (forth below).2⟩

end Runs

section Checks

variable {sha256 imports}

theorem settledEntries_iff (entries : AssocMap FileId Entry) :
    SettledEntries sha256 entries ↔ ∀ item ∈ entries.entries, entries.get item.1 = some item.2 →
      ∀ dep ∈ item.2.deps.map Prod.fst, ∀ record ∈ (entries.get dep).toList,
        record.artifact ≠ UNKNOWN_IDENTITY → UpToDate sha256 entries record := by
  constructor
  · intro settled item _ found dep names record there known
    exact settled item.1 item.2 dep record found names (mem_toList.1 there) known
  · intro checked file entry dep record found names there known
    exact checked (file, entry) (mem_of_get _ _ _ found) found dep names record
      (mem_toList.2 there) known

theorem foldsHashed_iff (hashed : Text → Prop) (entries : AssocMap FileId Entry) :
    FoldsHashed hashed entries ↔ ∀ item ∈ entries.entries, entries.get item.1 = some item.2 →
      item.2.artifact ≠ UNKNOWN_IDENTITY →
        hashed (artifactText item.2.sourceHash (depIdentities entries item.2.deps)) := by
  constructor
  · intro folds item _ found known
    exact folds item.1 item.2 found known
  · intro checked file entry found known
    exact checked (file, entry) (mem_of_get _ _ _ found) found known

instance (entries : AssocMap FileId Entry) (entry : Entry) :
    Decidable (UpToDate sha256 entries entry) :=
  inferInstanceAs (Decidable (_ = _))

instance (entries : AssocMap FileId Entry) : Decidable (SettledEntries sha256 entries) :=
  decidable_of_iff _ (settledEntries_iff entries).symm

instance (hashed : Text → Prop) [DecidablePred hashed] (entries : AssocMap FileId Entry) :
    Decidable (FoldsHashed hashed entries) :=
  decidable_of_iff _ (foldsHashed_iff hashed entries).symm

instance (hashed : Text → Prop) [DecidablePred hashed] (call : StoreCall) :
    Decidable (call.Allowed imports hashed) :=
  match call with
  | .publish _ _ _ _ => inferInstanceAs (Decidable (_ ∧ _ ∧ _))
  | .alloc _ | .remove _ | .edit _ _ | .erase _ => inferInstanceAs (Decidable True)

end Checks

/-- Make the calls while each keeps the run settled. -/
def settledCalls [DecidablePred hashed] (history : StoreHistory) :
    List StoreCall → Option StoreHistory
  | [] => some history
  | call :: calls => do
    let next ← history.run sha256 call
    if call.Allowed imports hashed ∧ FoldsHashed hashed next.device.entries ∧
        SettledEntries sha256 next.device.entries then settledCalls next calls
    else none

variable {sha256 imports hashed} in
theorem SettledRun.of_calls [DecidablePred hashed] {history history' : StoreHistory}
    {calls : List StoreCall} (run : SettledRun sha256 imports hashed history)
    (settles : settledCalls sha256 imports hashed history calls = some history') :
    SettledRun sha256 imports hashed history' := by
  induction calls generalizing history with
  | nil =>
    cases settles
    exact run
  | cons call calls ih =>
    obtain ⟨next, ran, settles⟩ := bind_eq_some_iff.1 settles
    split at settles
    · next holds => exact ih (run.step holds.1 ran holds.2.1 holds.2.2) settles
    · cases settles

section Demo

/-- A digest that tells short texts apart. -/
def checksum (text : Text) : Digest :=
  let sum := text.foldl (fun sum byte => sum * 257 + byte.toNat + 1) 1
  1 :: (List.range 31).map fun place => UInt8.ofNat (sum >>> (8 * place))

def demoFile (name : UInt8) : FileId := .onDisk ⟨[], [name]⟩

/-- Package 3 imports package 2, which imports package 1. -/
def demoImports (file : FileId) (_ : Text) : List FileId :=
  if file = demoFile 3 then [demoFile 2] else if file = demoFile 2 then [demoFile 1] else []

/-- Publish the three packages, from the bottom. -/
def demoCalls : List StoreCall :=
  [.edit ⟨[], [1]⟩ [1], .edit ⟨[], [2]⟩ [2], .edit ⟨[], [3]⟩ [3], .alloc (demoFile 1),
    .alloc (demoFile 2), .alloc (demoFile 3), .publish (demoFile 1) ⟨0⟩ [1] [],
    .publish (demoFile 2) ⟨1⟩ [2] [(demoFile 1, ⟨0⟩)], .publish (demoFile 3) ⟨2⟩ [3] [(demoFile 2, ⟨1⟩)]]

/-- The texts these calls hash. -/
def demoTexts : List Text :=
  let first := artifactText (checksum [1]) []
  let second := artifactText (checksum [2]) [(⟨0⟩, checksum first)]
  [[1], [2], [3], [4], first, second, artifactText (checksum [3]) [(⟨1⟩, checksum second)],
    artifactText (checksum [2]) [(⟨0⟩, UNKNOWN_IDENTITY)], artifactText (checksum [4]) []]

theorem checksum_collisionFree : CollisionFree checksum (demoTexts.contains ·) := by
  have apart : ∀ text ∈ demoTexts, ∀ other ∈ demoTexts, checksum text = checksum other → text = other := by
    decide +kernel
  refine ⟨fun text => by simp [checksum], fun text same => ?_, fun text other listed listed' =>
    apart text (contains_iff_mem.1 listed) other (contains_iff_mem.1 listed')⟩
  have first := congrArg List.head? same
  simp [checksum, UNKNOWN_IDENTITY] at first

/-- The store once the three are published. -/
def demoHistory : StoreHistory :=
  (settledCalls checksum demoImports (demoTexts.contains · = true) {} demoCalls).getD {}

/-- The records that package 3 was published over. -/
def demoEntries : AssocMap FileId Entry := (demoHistory.publishedAt.get (demoFile 3)).getD {}

theorem demoHistory_settled : SettledRun checksum demoImports (demoTexts.contains ·) demoHistory := by
  have settles : settledCalls checksum demoImports (demoTexts.contains ·) {} demoCalls = some demoHistory := by
    decide +kernel
  exact .of_calls (.start {}) settles

theorem demoHistory_dependsOn : DependsOn demoHistory.device.entries (demoFile 3) (demoFile 1) := by
  have found : (demoHistory.device.entries.get (demoFile 3)).isSome := by decide +kernel
  obtain ⟨top, found⟩ := isSome_iff_exists.1 found
  have found' : (demoHistory.device.entries.get (demoFile 2)).isSome := by decide +kernel
  obtain ⟨middle, found'⟩ := isSome_iff_exists.1 found'
  have names : demoFile 2 ∈
      (((demoHistory.device.entries.get (demoFile 3)).map Entry.deps).getD []).map Prod.fst := by
    decide +kernel
  have names' : demoFile 1 ∈
      (((demoHistory.device.entries.get (demoFile 2)).map Entry.deps).getD []).map Prod.fst := by
    decide +kernel
  rw [found] at names
  rw [found'] at names'
  exact .deeper (.direct found names) found' names'

/-- Package 3 verifies, over the package 1 it was published over. -/
theorem verified_dependencies_unchanged_demo :
    standing demoHistory.device.entries (demoFile 1) = standing demoEntries (demoFile 1) := by
  have checks : (demoHistory.device.verify checksum demoHistory.files (demoFile 3) [3]).map
      Verified.hash = (demoEntries.get (demoFile 3)).map Entry.artifact := by decide +kernel
  have recorded : (demoEntries.get (demoFile 3)).isSome = true := by decide +kernel
  obtain ⟨entry, recorded⟩ := isSome_iff_exists.1 recorded
  rw [recorded, map_some, map_eq_some_iff] at checks
  obtain ⟨verified, checks, same⟩ := checks
  exact (verified_dependencies_unchanged checksum_collisionFree (by
      intro file source
      unfold demoImports
      split
      · next at_ => rw [at_]; decide
      · split
        · next at_ => rw [at_]; decide
        · exact not_mem_nil) demoHistory_settled checks (by decide +kernel) recorded same
    (demoFile 1)).2 demoHistory_dependsOn

/-- The store once package 1 has been edited and published again, on its own. -/
def editedHistory : StoreHistory :=
  ((demoHistory.run checksum (.edit ⟨[], [1]⟩ [4])).bind fun history =>
    history.run checksum (.publish (demoFile 1) ⟨0⟩ [4] [])).getD {}

/-- Package 3 still verifies, under the identity it was published with. -/
theorem republished_below_unseen :
    ((demoHistory.run checksum (.edit ⟨[], [1]⟩ [4])).bind fun history =>
      history.run checksum (.publish (demoFile 1) ⟨0⟩ [4] [])) = some editedHistory ∧
    (editedHistory.device.verify checksum editedHistory.files (demoFile 3) [3]).map Verified.hash =
      some (identityOf demoEntries (demoFile 3)) ∧
    editedHistory.publishedAt.get (demoFile 3) = some demoEntries ∧
    ((editedHistory.device.entries.get (demoFile 3)).map Entry.deps = some [(demoFile 2, ⟨1⟩)] ∧
      (editedHistory.device.entries.get (demoFile 2)).map Entry.deps = some [(demoFile 1, ⟨0⟩)]) ∧
    standing editedHistory.device.entries (demoFile 1) ≠ standing demoEntries (demoFile 1) := by
  decide +kernel

end Demo

end LichenVm
