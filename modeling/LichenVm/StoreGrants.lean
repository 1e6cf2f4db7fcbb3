import LichenVm.ArtifactFreshness
import LichenVm.StoreLockSafety

/-! The keys that processes are handed, between their allocation and their publication. -/

open List Option

namespace LichenVm.StoreLock

open DeviceRegistry
open Ast (Text)

/-- No removal and no collection drops a record that another process was handed and has not yet
published. -/
def GrantsKept (sha256 : Text → Digest) (store : Store) : Act → Prop
  | .go pid order => ∀ process call memory, store.processes.get pid = some process →
      process.phase = .running call → call.perform sha256 order process.memory = some memory →
      ∀ other process', store.processes.get other = some process' → other ≠ pid →
        ∀ grant ∈ process'.granted, (memory.entries.get grant.1).isSome
  | _ => True

section Grants

/-- A registry still has the record that a key was handed out for. -/
def Records (device : DeviceRegistry) (grant : FileId × ModuleKey) : Prop :=
  ∃ entry, device.entries.get grant.1 = some entry ∧ entry.key = grant.2

def RegistryFile.Saves (file : RegistryFile) (grant : FileId × ModuleKey) : Prop :=
  ∃ device, file = .readable device ∧ Records device grant

def Phase.saves : Phase → Option IndexCall
  | .saving call | .replacing call => some call
  | _ => none

/-- The keys handed out and not yet published are those of saved records, and stay so once what a
process is saving is saved. -/
structure Grants (store : Store) : Prop where
  recorded : ∀ pid process, store.processes.get pid = some process → ∀ grant ∈ process.granted,
    store.registry.Saves grant
  carried : ∀ pid process call, store.processes.get pid = some process →
    process.phase.saves = some call →
    (∀ other process', other ≠ pid → store.processes.get other = some process' →
      ∀ grant ∈ process'.granted, Records process.memory grant) ∧
    ∀ grant ∈ process.grantsAfter call, Records process.memory grant

variable {sha256 : Text → Digest} {store : Store} {pid : Nat} {process : Process} {call : IndexCall}

theorem Phase.saves_holds {phase : Phase} (saves : phase.saves = some call) :
    phase.holds := by
  cases phase <;> first | rfl | cases saves

variable {store' : Store} {after : Process}

theorem Grants.put (grants : Grants store) (same : store'.processes = store.processes)
    (recorded : ∀ other process', other ≠ pid → store.processes.get other = some process' →
      ∀ grant ∈ process'.granted, store'.registry.Saves grant)
    (own : ∀ grant ∈ after.granted, store'.registry.Saves grant)
    (carried : ∀ call, after.phase.saves = some call →
      (∀ other process', other ≠ pid → store.processes.get other = some process' →
        ∀ grant ∈ process'.granted, Records after.memory grant) ∧
      ∀ grant ∈ after.grantsAfter call, Records after.memory grant)
    (others : ∀ other process' call, other ≠ pid → store.processes.get other = some process' →
      process'.phase.saves = some call → ∀ grant ∈ after.granted, Records process'.memory grant) :
    Grants (store'.put pid after) := by
  refine ⟨fun other process' found => ?_, fun p first call found saves => ⟨?_, ?_⟩⟩
  · rcases put_cases same found with ⟨here, rfl⟩ | ⟨apart, was⟩
    · exact own
    · exact recorded other process' apart was
  · intro q second apart found'
    rcases put_cases same found with ⟨here, rfl⟩ | ⟨away, was⟩
    · rcases put_cases same found' with ⟨here', rfl⟩ | ⟨away', was'⟩
      · exact absurd (here'.trans here.symm) apart
      · exact (carried call saves).1 q second away' was'
    · rcases put_cases same found' with ⟨here', rfl⟩ | ⟨away', was'⟩
      · exact others p first call away was saves
      · exact (grants.carried p first call was saves).1 q second apart was'
  · rcases put_cases same found with ⟨here, rfl⟩ | ⟨away, was⟩
    · exact (carried call saves).2
    · exact (grants.carried p first call was saves).2

theorem Grants.quiet (grants : Grants store)
    (found : store.processes.get pid = some process) (same : store'.processes = store.processes)
    (registry : store'.registry = store.registry)
    (fewer : ∀ grant ∈ after.granted, grant ∈ process.granted) (calm : after.phase.saves = none) :
    Grants (store'.put pid after) := by
  refine grants.put same (fun other process' _ was grant member => ?_) (fun grant member => ?_)
    (fun call saves => ?_) fun other process' call apart was saves grant member => ?_
  · rw [registry]
    exact grants.recorded other process' was grant member
  · rw [registry]
    exact grants.recorded pid process found grant (fewer grant member)
  · rw [calm] at saves
    cases saves
  · exact (grants.carried other process' call was saves).1 pid process (Ne.symm apart) found grant
      (fewer grant member)

theorem Process.proceed_quiet (process : Process) (call : Option IndexCall) :
    (process.proceed call).granted = process.granted ∧ (process.proceed call).phase.saves = none := by
  cases call <;> exact ⟨rfl, rfl⟩

variable {device : DeviceRegistry} {grant : FileId × ModuleKey}

theorem Records.extends {device' : DeviceRegistry}
    (keeps : device.Extends device') (records : Records device grant) : Records device' grant := by
  obtain ⟨entry, found, key⟩ := records
  obtain ⟨entry', found', same⟩ := keeps grant.1 entry found
  exact ⟨entry', found', same.trans key⟩

theorem Records.shrinks {device' : DeviceRegistry}
    (shrinks : device.Shrinks device') (still : (device'.entries.get grant.1).isSome)
    (records : Records device grant) : Records device' grant := by
  obtain ⟨entry, found, key⟩ := records
  obtain ⟨entry', found'⟩ := isSome_iff_exists.1 still
  rw [shrinks grant.1 entry' found', some.injEq] at found
  exact ⟨entry', found', found ▸ key⟩

variable {order : List FileId}

theorem perform_records {memory : DeviceRegistry}
    (formed : device.Formed) (ran : call.perform sha256 order device = some memory) (records :
    Records device grant)
    (still : (memory.entries.get grant.1).isSome) : Records memory grant := by
  cases call with
  | alloc file =>
    cases ran
    exact records.extends (alloc_extends formed file)
  | publish file key source deps =>
    exact records.extends (publish_some formed ran).2
  | gc =>
    cases ran
    exact records.shrinks (gc_spec formed order).2 still
  | remove file =>
    cases ran
    exact records.shrinks (remove_spec formed file).2 still

/-- The keys that a process holds once its call is saved are those of records it saves. -/
theorem grantsAfter_records {memory : DeviceRegistry} (formed : process.memory.Formed)
    (ran : call.perform sha256 order process.memory = some memory) (loaded : after.memory = memory)
    (granted : after.granted = process.granted)
    (records : ∀ grant ∈ process.granted, Records process.memory grant) :
    ∀ grant ∈ after.grantsAfter call, Records memory grant := by
  intro grant member
  cases call with
  | alloc file =>
    cases ran
    rw [Process.grantsAfter, loaded, granted] at member
    rcases mem_append.1 member with new | old
    · obtain ⟨entry, found, rfl⟩ := map_eq_some_iff.1 (mem_toList.1 new)
      exact ⟨entry, found, rfl⟩
    · exact (records grant old).extends (alloc_extends formed file)
  | publish file key source deps =>
    rw [Process.grantsAfter, granted] at member
    exact (records grant (mem_of_mem_filter member)).extends
      (publish_some formed ran).2
  | gc | remove file =>
    rw [Process.grantsAfter, granted, loaded, mem_filter] at member
    exact perform_records formed ran (records grant member.1) member.2

theorem RegistryFile.Saves.isReadable {file : RegistryFile}
    (saves : file.Saves grant) : file.isReadable := by
  obtain ⟨device, rfl, -⟩ := saves
  rfl

section

variable (grants : Grants store) (inv : Inv store) (found : store.processes.get pid = some process)

include grants inv found

theorem Grants.loaded (at_ : process.phase = .running call) {other : Nat} {process' : Process}
    (was : store.processes.get other = some process') :
    ∀ grant ∈ process'.granted, Records process.memory grant := by
  intro grant member
  obtain ⟨device, there, records⟩ := grants.recorded other process' was grant member
  rw [(inv.fits pid process found).loaded call device at_ there]
  exact records

/-- One operation of a process keeps the records behind the keys, when no call drops one of them. -/
theorem Grants.advance (locks : LockKept store (.go pid order))
    (kept : GrantsKept sha256 store (.go pid order))
    (stepped : store.advance sha256 pid process order = some store') : Grants store' := by
  have fits := inv.fits pid process found
  have quiet : ∀ {after : Process}, after.granted = process.granted → after.phase.saves = none →
      Grants (store.put pid after) := fun same calm =>
    grants.quiet found rfl rfl (fun grant member => same ▸ member) calm
  have proceeds : ∀ {after : Process} (call : Option IndexCall), after.granted = process.granted →
      Grants (store.put pid (after.proceed call)) := fun call same =>
    quiet ((Process.proceed_quiet _ call).1.trans same) (Process.proceed_quiet _ call).2
  unfold Store.advance at stepped
  cases at_ : process.phase with
  | idle | stopped =>
    rw [at_] at stepped
    cases stepped
  | waiting call =>
    simp only [at_] at stepped
    split at stepped
    · cases stepped
      exact grants.quiet found rfl rfl (fun _ member => member) rfl
    · cases stepped
      exact quiet rfl rfl
  | found call =>
    simp only [at_] at stepped
    split at stepped
    · cases stepped
      exact quiet rfl rfl
    · split at stepped
      · cases stepped
        exact quiet rfl rfl
      · cases stepped
        exact quiet rfl rfl
  | breaking call serial =>
    simp only [at_] at stepped
    cases stepped
    exact grants.quiet found rfl rfl (fun _ member => member) rfl
  | reading call =>
    simp only [at_] at stepped
    split at stepped
    · cases stepped
      exact proceeds call rfl
    · cases stepped
      exact proceeds call rfl
    · split at stepped
      · cases stepped
        exact proceeds call rfl
      · cases stepped
        exact quiet rfl rfl
  | checking call =>
    simp only [at_] at stepped
    split at stepped
    · cases stepped
      exact proceeds call rfl
    · cases stepped
      exact quiet rfl rfl
  | moving call =>
    have unreadable : store.registry.isReadable = false := by
      cases call with
      | none => exact RegistryFile.isReadable_false ((locks process found).2 at_)
      | some call => exact fits.unread (by rw [at_]; rfl)
    -- With no readable registry, no process holds a key.
    have bare : ∀ other process', store.processes.get other = some process' →
        ∀ grant ∈ process'.granted, False := by
      intro other process' was grant member
      have readable := (grants.recorded other process' was grant member).isReadable
      rw [unreadable] at readable
      cases readable
    obtain ⟨granted, calm⟩ := process.recover.proceed_quiet call
    have own : ∀ grant ∈ (process.recover.proceed call).granted, False := by
      rw [granted]
      exact bare pid process found
    simp only [at_] at stepped
    cases stepped
    refine grants.put rfl (fun other process' _ was grant member =>
      (bare other process' was grant member).elim) (fun grant member => (own grant member).elim)
      (fun call saves => ?_) fun _ _ _ _ _ _ grant member => (own grant member).elim
    rw [calm] at saves
    cases saves
  | running call =>
    have formed : process.memory.Formed := inv.loaded_formed found at_
    simp only [at_] at stepped
    split at stepped
    · split at stepped
      · cases stepped
        exact quiet rfl rfl
      · next memory ran =>
        cases stepped
        refine grants.put rfl (fun other process' _ was => grants.recorded other process' was)
          (grants.recorded pid process found) (fun call' saves => ?_) ?_
        · cases saves
          refine ⟨fun other process' apart was grant member => ?_, ?_⟩
          · exact perform_records formed ran (grants.loaded inv found at_ was grant member)
              (kept process call memory found at_ ran other process' was apart grant member)
          · exact grantsAfter_records formed ran rfl rfl (grants.loaded inv found at_ found)
        · intro other process' call' apart was saves
          -- Nobody else is saving.
          exact absurd (inv.exclusive other pid process' process was found
            (Phase.saves_holds saves) (by rw [at_]; rfl)) apart
    · cases stepped
  | saving call =>
    have carried := grants.carried pid process call found (by rw [at_]; rfl)
    simp only [at_] at stepped
    cases stepped
    refine grants.put rfl (fun other process' _ was => grants.recorded other process' was)
      (grants.recorded pid process found) (fun call' saves => ?_)
      fun other process' call' apart was saves => ?_
    · cases saves
      exact carried
    · exact absurd (inv.exclusive other pid process' process was found
        (Phase.saves_holds saves) (by rw [at_]; rfl)) apart
  | replacing call =>
    have carried := grants.carried pid process call found (by rw [at_]; rfl)
    simp only [at_] at stepped
    rw [fits.written call at_] at stepped
    cases stepped
    refine grants.put rfl (fun other process' apart was grant member =>
      ⟨_, rfl, carried.1 other process' apart was grant member⟩) (fun grant member =>
      ⟨_, rfl, carried.2 grant member⟩) (fun call' saves => by cases saves)
      fun other process' call' apart was saves => ?_
    exact absurd (inv.exclusive other pid process' process was found
      (Phase.saves_holds saves) (by rw [at_]; rfl)) apart
  | leaving panicked =>
    simp only [at_] at stepped
    cases stepped
    refine grants.quiet found rfl rfl ?_ ?_
    · split
      · exact fun _ member => absurd member not_mem_nil
      · exact fun _ member => member
    · split <;> rfl

end

theorem Grants.step {act : Act} (grants : Grants store) (inv : Inv store)
    (locks : LockKept store act) (kept : GrantsKept sha256 store act)
    (stepped : store.step sha256 act = some store') : Grants store' := by
  cases act with
  | tick elapsed =>
    cases stepped
    exact ⟨grants.recorded, grants.carried⟩
  | start pid =>
    simp only [Store.step] at stepped
    split at stepped
    · cases stepped
    cases stepped
    exact grants.put rfl (fun other process' _ was => grants.recorded other process' was)
      (fun _ member => absurd member not_mem_nil) (fun _ saves => by cases saves)
      fun _ _ _ _ _ _ _ member => absurd member not_mem_nil
  | call pid call =>
    obtain ⟨process, found, stepped⟩ := bind_eq_some_iff.1 stepped
    split at stepped
    · cases stepped
      exact grants.quiet found rfl rfl (fun _ member => member) rfl
    · cases stepped
  | go pid order =>
    obtain ⟨process, found, stepped⟩ := bind_eq_some_iff.1 stepped
    exact grants.advance inv found locks kept stepped
  | crash pid =>
    obtain ⟨process, found, stepped⟩ := bind_eq_some_iff.1 stepped
    cases stepped
    exact grants.quiet found rfl rfl (fun _ member => absurd member not_mem_nil) rfl

theorem Store.Initial.grants (initial : store.Initial) : Grants store := by
  have none : ∀ {pid process}, store.processes.get pid = some process → False := by
    intro pid process found
    rw [initial.processes pid] at found
    cases found
  exact ⟨fun _ _ found => (none found).elim, fun _ _ _ found => (none found).elim⟩

end Grants

/-- While locks are kept, one process at most is inside the lock, and the saved registry gives no key
to two files or to the free list; while records handed out are kept too, no publish panics. -/
theorem shared_store_safe (sha256 : Text → Digest) : (∀ store, StoreRun sha256 LockKept store →
      (∀ p q process process', store.processes.get p = some process →
        store.processes.get q = some process' → process.phase.holds = true →
        process'.phase.holds = true → p = q) ∧
      ∀ device, store.registry = .readable device →
        (∀ file other entry entry', device.entries.get file = some entry →
          device.entries.get other = some entry' → entry.key = entry'.key → file = other) ∧
        ∀ file entry, device.entries.get file = some entry → entry.key.raw ∉ device.free) ∧
    (∀ store, StoreRun sha256 (fun store act => LockKept store act ∧ GrantsKept sha256 store act) store →
      ∀ pid process file key source deps, store.processes.get pid = some process →
        process.phase = .running (.publish file key source deps) → (file, key) ∈ process.granted →
        ∃ device, process.memory.publish sha256 file key source deps = some device) := by
  refine ⟨fun store run => ?_, fun store run => ?_⟩
  · have inv := run.inv fun _ _ kept => kept
    refine ⟨inv.exclusive, fun device there => ?_⟩
    have formed := inv.saved device there
    exact ⟨formed.apart, fun file entry found => (formed.taken file entry found).2⟩
  · have inv := run.inv fun _ _ kept => kept.1
    have grants : Grants store := run.induct (fun _ initial => initial.grants)
      fun _ _ _ run grants kept stepped =>
        grants.step (run.inv fun _ _ kept => kept.1) kept.1 kept.2 stepped
    intro pid process file key source deps found at_ granted
    obtain ⟨entry, there, same⟩ := grants.loaded inv found at_ found (file, key) granted
    obtain ⟨device, published, -⟩ :=
      (inv.loaded_formed found at_).publish sha256 there source deps
    have same : entry.key = key := same
    exact ⟨device, same ▸ published⟩

section Demo

theorem prompt_iff (store : Store) :
    (∀ item ∈ store.processes.entries, store.processes.get item.1 = some item.2 →
      item.2.phase.holds → store.now ≤ item.2.lock.created + LOCK_STALE) ↔ store.Prompt := by
  constructor
  · intro checked pid process found
    exact checked (pid, process) (AssocMap.mem_of_get _ _ _ found) found
  · intro prompt item _ found
    exact prompt item.1 item.2 found

instance (store : Store) : Decidable store.Prompt := decidable_of_iff _ (prompt_iff store)

def keepsLock (store : Store) : Act → Bool
  | .go pid _ => (store.processes.get pid).all fun process =>
    match process.phase with
    | .breaking _ serial => store.lock.all fun lock => lock.serial == serial
    | .moving none => !store.registry.isReadable
    | _ => true
  | _ => true

/-- Whether a step keeps the records handed out. -/
def keepsGrants (sha256 : Text → Digest) (store : Store) : Act → Bool
  | .go pid order => (store.processes.get pid).all fun process =>
    match process.phase with
    | .running call => (call.perform sha256 order process.memory).all fun memory =>
      store.processes.entries.all fun item =>
        item.1 == pid || item.2.granted.all fun grant => (memory.entries.get grant.1).isSome
    | _ => true
  | _ => true

variable {store : Store}

theorem lockKept_of {act : Act} (kept : keepsLock store act) : LockKept store act := by
  cases act with
  | go pid order =>
    intro process found
    simp only [keepsLock, found, all_some] at kept
    refine ⟨fun call serial lock at_ there => ?_, fun at_ device there => ?_⟩
    · simpa [at_, there] using kept
    · simp [at_, there, RegistryFile.isReadable] at kept
  | _ => trivial

theorem grantsKept_of {sha256 : Text → Digest} {act : Act}
    (kept : keepsGrants sha256 store act) : GrantsKept sha256 store act := by
  cases act with
  | go pid order =>
    intro process call memory found at_ ran other process' was apart grant member
    simp only [keepsGrants, found, all_some, at_, ran, List.all_eq_true] at kept
    have kept := kept (other, process') (AssocMap.mem_of_get _ _ _ was)
    simp only [apart, beq_iff_eq, Bool.or_eq_true, false_or, List.all_eq_true] at kept
    exact kept grant member
  | _ => trivial

/-- Take steps, each with prompt holders after it. -/
def promptly (sha256 : Text → Digest) (allowed : Store → Act → Bool) (store : Store) :
    List Act → Option Store
  | [] => some store
  | act :: acts => do
    let next ← store.step sha256 act
    if allowed store act = true ∧ next.Prompt then promptly sha256 allowed next acts else none

theorem StoreRun.of_acts {sha256 : Text → Digest} {keeps : Store → Act → Prop}
    {allowed : Store → Act → Bool} (sound : ∀ store act, allowed store act → keeps store act)
    {acts : List Act} {store' : Store} (run : StoreRun sha256 keeps store)
    (ran : promptly sha256 allowed store acts = some store') : StoreRun sha256 keeps store' := by
  induction acts generalizing store with
  | nil =>
    cases ran
    exact run
  | cons act acts ih =>
    obtain ⟨next, stepped, ran⟩ := bind_eq_some_iff.1 ran
    split at ran
    · next holds => exact ih (run.step (sound _ _ holds.1) stepped holds.2) ran
    · cases ran

theorem initial_empty : ({} : Store).Initial :=
  ⟨fun _ => rfl, (fun _ there => by cases there), fun _ there => by cases there⟩

/-- A process takes its next operations. -/
def goes (pid count : Nat) (order : List FileId) : List Act := List.replicate count (.go pid order)

def sharedFile (name : UInt8) : FileId := .embedded [name]

/-- Three processes open the store. -/
def opens : List Act := [.start 0, .start 1, .start 2] ++ goes 0 1 [] ++ goes 1 1 [] ++ goes 2 1 []

/-- One allocates; another crashes in the lock; a third breaks it, and the first comes to publish. -/
def publishing : List Act :=
  opens ++ [.call 0 (.alloc (sharedFile 1))] ++ goes 0 6 [] ++ [.call 1 (.alloc (sharedFile 2))] ++
    goes 1 1 [] ++ [.crash 1, .tick 10001] ++
    [.call 0 (.publish (sharedFile 1) ⟨0⟩ (checksum [7]) []), .call 2 (.alloc (sharedFile 2))] ++
    goes 0 3 [] ++ goes 2 6 [sharedFile 1] ++ goes 0 2 []

/-- Two processes test one lock that a crashed process left, and each removes what is there. -/
def breakingTwice : List Act :=
  opens ++ [.call 0 (.alloc (sharedFile 1))] ++ goes 0 1 [] ++ [.crash 0, .tick 10001] ++
    [.call 1 (.alloc (sharedFile 1)), .call 2 (.alloc (sharedFile 2))] ++
    goes 1 2 [] ++ goes 2 2 [] ++ goes 1 2 [] ++ goes 2 2 []

/-- A record is removed between its allocation and its publication. -/
def removing : List Act :=
  opens ++ [.call 0 (.alloc (sharedFile 1))] ++ goes 0 6 [] ++ [.call 1 (.remove (sharedFile 1))] ++
    goes 1 6 [sharedFile 1] ++ [.call 0 (.publish (sharedFile 1) ⟨0⟩ (checksum [7]) [])] ++ goes 0 2 []

/-- The state that steps lead to, from an empty store. -/
def reached (acts : List Act) : Store :=
  (promptly checksum (fun _ _ => true) {} acts).getD {}

/-- What a process is, in a state that steps lead to. -/
def process (acts : List Act) (pid : Nat) : Process :=
  ((reached acts).processes.get pid).getD { phase := .idle }

theorem shared_store_safe_publishing :
    ∃ device, (process publishing 0).memory.publish checksum (sharedFile 1) ⟨0⟩ (checksum [7]) [] =
      some device := by
  have ran : promptly checksum (fun store act => keepsLock store act && keepsGrants checksum store act)
      {} publishing = some (reached publishing) := by
    decide +kernel
  have run : StoreRun checksum (fun store act => LockKept store act ∧ GrantsKept checksum store act)
      (reached publishing) := by
    refine .of_acts (fun store act allowed => ?_) (.start initial_empty) ran
    rw [Bool.and_eq_true] at allowed
    exact ⟨lockKept_of allowed.1, grantsKept_of allowed.2⟩
  exact (shared_store_safe checksum).2 (reached publishing) run 0 (process publishing 0) (sharedFile 1)
    ⟨0⟩ (checksum [7]) [] (by decide +kernel) (by decide +kernel) (by decide +kernel)

/-- Two processes inside the lock at once; and a publish that panics, with every lock kept. -/
theorem stale_lock_broken_twice : (StoreRun checksum (fun _ _ => True) (reached breakingTwice) ∧
      (reached breakingTwice).processes.get 1 = some (process breakingTwice 1) ∧
      (reached breakingTwice).processes.get 2 = some (process breakingTwice 2) ∧
      (process breakingTwice 1).phase.holds = true ∧ (process breakingTwice 2).phase.holds = true) ∧
    StoreRun checksum LockKept (reached removing) ∧
      (reached removing).processes.get 0 = some (process removing 0) ∧
      (process removing 0).phase = .running (.publish (sharedFile 1) ⟨0⟩ (checksum [7]) []) ∧
      (sharedFile 1, ⟨0⟩) ∈ (process removing 0).granted ∧
      (process removing 0).memory.publish checksum (sharedFile 1) ⟨0⟩ (checksum [7]) [] = none := by
  have twice : promptly checksum (fun _ _ => true) {} breakingTwice = some (reached breakingTwice) := by
    decide +kernel
  have removed : promptly checksum keepsLock {} removing = some (reached removing) := by
    decide +kernel
  refine ⟨⟨.of_acts (fun _ _ _ => trivial) (.start initial_empty) twice, by decide +kernel⟩,
    .of_acts (fun _ _ => lockKept_of) (.start initial_empty) removed, by decide +kernel⟩

end Demo

end LichenVm.StoreLock
