import LichenVm.DeviceRecords
import LichenVm.StoreLock

/-! What the lock of a device store keeps, whatever the processes do in whatever order. -/

open Option (some.inj)

namespace LichenVm.StoreLock

open DeviceRegistry
open Ast (Text)

/-- Every process inside `with_lock` has been there no longer than the stale threshold. -/
def Store.Prompt (store : Store) : Prop :=
  ∀ pid process, store.processes.get pid = some process → process.phase.holds = true →
    store.now ≤ process.lock.created + LOCK_STALE

/-- The lock directory removed as stale is the one that was found stale, and the registry file moved
aside by a process that opens the store is still unreadable, where there is one. -/
def LockKept (store : Store) : Act → Prop
  | .go pid _ => ∀ process, store.processes.get pid = some process →
      (∀ call serial lock, process.phase = .breaking call serial → store.lock = some lock →
        lock.serial = serial) ∧
      (process.phase = .moving none → ∀ device, store.registry ≠ .readable device)
  | _ => True

/-- A store that no process uses yet. A crash may have left a lock directory and a temporary file. -/
structure Store.Initial (store : Store) : Prop where
  processes : ∀ pid, store.processes.get pid = none
  serial : ∀ lock, store.lock = some lock → lock.serial < store.serial
  registry : ∀ device, store.registry = .readable device → device.Formed

/-- The states of the runs whose steps all keep something, with prompt holders. -/
inductive StoreRun (sha256 : Text → Digest) (keeps : Store → Act → Prop) : Store → Prop
  | start {store : Store} (initial : store.Initial) : StoreRun sha256 keeps store
  | step {store store' : Store} {act : Act} (run : StoreRun sha256 keeps store)
      (kept : keeps store act) (stepped : store.step sha256 act = some store')
      (prompt : store'.Prompt) : StoreRun sha256 keeps store'

section Invariants

/-- Whether what a process has in memory is still what it read. -/
def Phase.unsaved : Phase → Bool
  | .saving _ | .replacing _ | .stopped => false
  | _ => true

/-- Whether a process has found the registry file unreadable, under the lock. -/
def Phase.recovering : Phase → Bool
  | .checking call | .moving call => call.isSome
  | _ => false

def RegistryFile.isReadable : RegistryFile → Bool
  | .readable _ => true
  | _ => false

/-- What one process knows of the store. -/
structure Fits (store : Store) (process : Process) : Prop where
  lock : process.phase.holds = true → store.lock = some process.lock
  observed : ∀ call serial, process.phase = .breaking call serial → serial < store.serial
  blank : store.registry.isReadable = false → process.phase.unsaved = true → process.memory = {}
  unread : process.phase.recovering = true → store.registry.isReadable = false
  loaded : ∀ call device, process.phase = .running call → store.registry = .readable device →
    process.memory = device
  formed : process.phase.holds = true → process.phase.unsaved = false → process.memory.Formed
  written : ∀ call, process.phase = .replacing call → store.temp = some process.memory

/-- What holds between the steps of a run whose locks are kept. -/
structure Inv (store : Store) : Prop where
  exclusive : ∀ p q process process', store.processes.get p = some process →
    store.processes.get q = some process' → process.phase.holds = true →
    process'.phase.holds = true → p = q
  serial : ∀ lock, store.lock = some lock → lock.serial < store.serial
  saved : ∀ device, store.registry = .readable device → device.Formed
  fits : ∀ pid process, store.processes.get pid = some process → Fits store process
  stale : ∀ p q process process' call serial, store.processes.get p = some process →
    store.processes.get q = some process' → process.phase = .breaking call serial →
    process'.phase.holds = true → process'.lock.serial ≠ serial

theorem get_put (store : Store) (pid other : Nat) (process : Process) :
    (store.put pid process).processes.get other =
      if other = pid then some process else store.processes.get other :=
  AssocMap.get_insert _ _ _ _

variable {sha256 : Text → Digest} {store : Store} {pid : Nat} {process : Process}

theorem Phase.recovering_holds {phase : Phase} (recovering : phase.recovering) :
    phase.holds := by
  cases phase <;> first | exact recovering | cases recovering

theorem Fits.outside (free : process.phase.holds = false)
    (observed : ∀ call serial, process.phase = .breaking call serial → serial < store.serial)
    (blank : store.registry.isReadable = false → process.phase.unsaved →
      process.memory = {}) : Fits store process := by
  have absent : ∀ {phase : Phase}, phase.holds → process.phase = phase → False := by
    intro phase holds same
    rw [same, holds] at free
    cases free
  exact ⟨fun holds => (absent holds rfl).elim, observed, blank,
    fun recovering => (absent (Phase.recovering_holds recovering) rfl).elim,
    fun _ _ at_ => (absent rfl at_).elim, fun holds => (absent holds rfl).elim,
    fun _ at_ => (absent rfl at_).elim⟩

theorem Fits.inside (unsaved : process.phase.unsaved) (lock : store.lock = some process.lock)
    (holds : process.phase.holds)
    (blank : store.registry.isReadable = false → process.memory = {})
    (unread : process.phase.recovering → store.registry.isReadable = false)
    (loaded : ∀ call device, process.phase = .running call → store.registry = .readable device →
      process.memory = device) : Fits store process := by
  refine ⟨fun _ => lock, fun call serial at_ => ?_, fun unreadable _ => blank unreadable, unread,
    loaded, fun _ saved => ?_, fun call at_ => ?_⟩
  · rw [at_] at holds
    cases holds
  · rw [unsaved] at saved
    cases saved
  · rw [at_] at unsaved
    cases unsaved

theorem Fits.saving (saved : process.phase.unsaved = false) (lock : store.lock = some process.lock)
    (holds : process.phase.holds) (formed : process.memory.Formed)
    (written : ∀ call, process.phase = .replacing call → store.temp = some process.memory) :
    Fits store process := by
  refine ⟨fun _ => lock, fun call serial at_ => ?_, fun _ unsaved => ?_, fun recovering => ?_,
    fun call device at_ => ?_, fun _ _ => formed, written⟩
  · rw [at_] at holds
    cases holds
  · rw [saved] at unsaved
    cases unsaved
  · revert saved recovering
    cases process.phase <;> simp [Phase.recovering, Phase.unsaved]
  · rw [at_] at saved
    cases saved

variable {store' : Store}

theorem Fits.aside (fits : Fits store process) (free : process.phase.holds = false)
    (more : store.serial ≤ store'.serial)
    (readable : store'.registry.isReadable = false → store.registry.isReadable = false) :
    Fits store' process :=
  .outside free (fun call serial at_ => Nat.lt_of_lt_of_le (fits.observed call serial at_) more)
    fun unreadable => fits.blank (readable unreadable)

theorem Fits.put (fits : Fits store process) (pid : Nat) (other : Process) :
    Fits (store.put pid other) process :=
  ⟨fits.lock, fits.observed, fits.blank, fits.unread, fits.loaded, fits.formed, fits.written⟩

theorem put_cases {after : Process} {other : Nat} {process' : Process}
    (same : store'.processes = store.processes)
    (found : (store'.put pid after).processes.get other = some process') :
    (other = pid ∧ process' = after) ∨ (other ≠ pid ∧ store.processes.get other = some process') := by
  rw [get_put, same] at found
  split at found
  · next here => exact .inl ⟨here, (some.inj found).symm⟩
  · next apart => exact .inr ⟨apart, found⟩

/-- A process steps, and leaves what the others know and what its own memory comes from. -/
theorem Inv.put (inv : Inv store) (same : store'.processes = store.processes)
    (serial : ∀ lock, store'.lock = some lock → lock.serial < store'.serial)
    (saved : ∀ device, store'.registry = .readable device → device.Formed)
    (others : ∀ other process', other ≠ pid → store.processes.get other = some process' →
      Fits store' process') (own : Fits store' process)
    (alone : process.phase.holds → ∀ other process', other ≠ pid →
      store.processes.get other = some process' → process'.phase.holds = false)
    (breaks : ∀ call serial, process.phase = .breaking call serial → ∀ other process', other ≠ pid →
      store.processes.get other = some process' → process'.phase.holds →
      process'.lock.serial ≠ serial)
    (broken : process.phase.holds → ∀ other process' call serial, other ≠ pid →
      store.processes.get other = some process' → process'.phase = .breaking call serial →
      process.lock.serial ≠ serial) : Inv (store'.put pid process) := by
  refine ⟨?_, serial, saved, ?_, ?_⟩
  · intro p q first second found found' holds holds'
    rcases put_cases same found with ⟨here, rfl⟩ | ⟨apart, was⟩
    · rcases put_cases same found' with ⟨here', rfl⟩ | ⟨apart', was'⟩
      · rw [here, here']
      · exact absurd holds' (by simp [alone holds q second apart' was'])
    · rcases put_cases same found' with ⟨here', rfl⟩ | ⟨apart', was'⟩
      · exact absurd holds (by simp [alone holds' p first apart was])
      · exact inv.exclusive p q first second was was' holds holds'
  · intro p process' found
    rcases put_cases same found with ⟨here, rfl⟩ | ⟨apart, was⟩
    · exact own.put pid process'
    · exact (others p process' apart was).put pid process
  · intro p q first second call serial found found' at_ holds
    rcases put_cases same found with ⟨here, rfl⟩ | ⟨apart, was⟩
    · rcases put_cases same found' with ⟨here', rfl⟩ | ⟨apart', was'⟩
      · rw [at_] at holds
        cases holds
      · exact breaks call serial at_ q second apart' was' holds
    · rcases put_cases same found' with ⟨here', rfl⟩ | ⟨apart', was'⟩
      · exact broken holds p first call serial apart was at_
      · exact inv.stale p q first second call serial was was' at_ holds

section

variable {after : Process} (inv : Inv store)

include inv

theorem Inv.within (store' : Store) (found : store.processes.get pid = some process)
    (same : store'.processes = store.processes) (lock : store'.lock = store.lock)
    (serial : store'.serial = store.serial)
    (saved : ∀ device, store'.registry = .readable device → device.Formed)
    (others : ∀ other process', other ≠ pid → store.processes.get other = some process' →
      Fits store' process') (own : Fits store' after)
    (holds : after.phase.holds → process.phase.holds ∧ after.lock = process.lock)
    (breaks : ∀ call serial, after.phase = .breaking call serial → ∀ other process',
      store.processes.get other = some process' → process'.phase.holds →
      process'.lock.serial ≠ serial) : Inv (store'.put pid after) := by
  refine inv.put same (fun dir there => ?_) saved others own (fun inside other process' apart was => ?_)
    (fun call serial at_ other process' _ was => breaks call serial at_ other process' was)
    fun inside other process' call n apart was at_ => ?_
  · rw [serial]
    exact inv.serial dir (lock.symm.trans there)
  · by_contra held
    exact apart (inv.exclusive other pid process' process was found (by simpa using held)
      (holds inside).1)
  · rw [(holds inside).2]
    exact inv.stale other pid process' process call n was found at_ (holds inside).1

theorem Inv.alone (found : store.processes.get pid = some process) (own : Fits store after)
    (holds : after.phase.holds → process.phase.holds ∧ after.lock = process.lock)
    (calm : ∀ call serial, after.phase ≠ .breaking call serial) : Inv (store.put pid after) :=
  inv.within _ found rfl rfl rfl inv.saved (fun other process' _ was => inv.fits other process' was) own
    holds fun call serial at_ => (calm call serial at_).elim

theorem Inv.released
    (out : ∀ other process', other ≠ pid → store.processes.get other = some process' →
      process'.phase.holds = false) (free : after.phase.holds = false)
    (calm : ∀ call serial, after.phase ≠ .breaking call serial)
    (blank : store.registry.isReadable = false → after.phase.unsaved → after.memory = {}) :
    Inv ({ store with lock := none }.put pid after) := by
  refine inv.put rfl (fun _ there => by cases there) inv.saved
    (fun other process' apart was => (inv.fits other process' was).aside (out other process' apart was)
      (Nat.le_refl _) id)
    (.outside free (fun call serial at_ => (calm call serial at_).elim) blank) (fun holds => ?_)
    (fun call serial at_ => (calm call serial at_).elim) fun holds => ?_
  · rw [free] at holds
    cases holds
  · rw [free] at holds
    cases holds

end

variable {call : IndexCall}

/-- The lock directory is created: nobody is inside. -/
theorem Inv.entered (inv : Inv store) (none : store.lock = none)
    (found : store.processes.get pid = some process) (unsaved : process.phase.unsaved) :
    Inv ({ store with
      lock := some { serial := store.serial, created := store.now }
      serial := store.serial + 1 }.put pid { process with
        phase := .reading (some call)
        lock := { serial := store.serial, created := store.now } }) := by
  have out : ∀ other process', store.processes.get other = some process' →
      process'.phase.holds = false := by
    intro other process' was
    by_contra held
    have there := (inv.fits other process' was).lock (by simpa using held)
    rw [none] at there
    cases there
  refine inv.put rfl (fun lock there => ?_) inv.saved
    (fun other process' _ was => (inv.fits other process' was).aside (out other process' was)
      (Nat.le_succ _) id)
    (.inside rfl rfl rfl (fun unreadable => (inv.fits pid process found).blank unreadable unsaved)
      (fun recovering => by cases recovering) fun _ _ at_ => by cases at_)
    (fun _ other process' _ was => out other process' was)
    (fun _ _ at_ => by cases at_) fun _ other process' call' n apart was at_ => ?_
  · cases there
    exact Nat.lt_succ_self _
  · have := (inv.fits other process' was).observed call' n at_
    simp only [ne_eq]
    omega

theorem perform_formed {device memory : DeviceRegistry} {order : List FileId}
    (formed : device.Formed) (ran : call.perform sha256 order device = some memory) :
    memory.Formed := by
  cases call with
  | alloc file =>
    cases ran
    exact (alloc_spec formed file).1
  | publish file key source deps => exact (publish_some formed ran).1
  | gc =>
    cases ran
    exact (gc_spec formed order).1
  | remove file =>
    cases ran
    exact (remove_spec formed file).1

theorem RegistryFile.readable_of {file : RegistryFile} (readable : file.isReadable) :
    ∃ device, file = .readable device := by
  cases file with
  | readable device => exact ⟨device, rfl⟩
  | _ => cases readable

theorem Inv.loaded_formed (inv : Inv store) (found : store.processes.get pid = some process)
    (at_ : process.phase = .running call) : process.memory.Formed := by
  have fits := inv.fits pid process found
  cases readable : store.registry.isReadable with
  | false =>
    rw [fits.blank readable (by rw [at_]; rfl)]
    exact formed_empty
  | true =>
    obtain ⟨device, there⟩ := RegistryFile.readable_of readable
    rw [fits.loaded call device at_ there]
    exact inv.saved device there

theorem Inv.proceeds {call : Option IndexCall} {loaded : Process} (inv : Inv store) (store' : Store)
    (found : store.processes.get pid = some process) (same : store'.processes = store.processes)
    (lock : store'.lock = store.lock) (serial : store'.serial = store.serial)
    (saved : ∀ device, store'.registry = .readable device → device.Formed)
    (others : ∀ other process', other ≠ pid → store.processes.get other = some process' →
      Fits store' process')
    (holds : call.isSome → process.phase.holds)
    (own : loaded.lock = process.lock)
    (blank : store'.registry.isReadable = false → loaded.memory = {})
    (read : ∀ device, store'.registry = .readable device → loaded.memory = device) :
    Inv (store'.put pid (loaded.proceed call)) := by
  cases call with
  | none =>
    refine inv.within _ found same lock serial saved others (.outside rfl
      (fun _ _ at_ => by cases at_) fun unreadable _ => blank unreadable)
      (fun inside => by cases inside) fun _ _ at_ => by cases at_
  | some call =>
    have held := (inv.fits pid process found).lock (holds rfl)
    refine inv.within _ found same lock serial saved others (.inside rfl ?_ rfl blank
      (fun recovering => by cases recovering) fun _ device _ there => read device there)
      (fun _ => ⟨holds rfl, own⟩) fun _ _ at_ => by cases at_
    rw [lock, held]
    exact congrArg some own.symm

theorem Inv.recovers {call : Option IndexCall} {phase : Phase} (inv : Inv store)
    (found : store.processes.get pid = some process)
    (next : phase = .checking call ∨ phase = .moving call)
    (holds : call.isSome → process.phase.holds)
    (unread : call.isSome → store.registry.isReadable = false)
    (blank : store.registry.isReadable = false → process.memory = {}) :
    Inv (store.put pid { process with phase }) := by
  have inside : phase.holds = call.isSome := by rcases next with rfl | rfl <;> rfl
  have unsaved : phase.unsaved := by rcases next with rfl | rfl <;> rfl
  have calm : ∀ call' serial, phase ≠ .breaking call' serial := by
    rcases next with rfl | rfl <;> simp
  refine inv.alone found ?_ (fun held => ⟨holds (inside.symm.trans held), rfl⟩) calm
  by_cases locked : call.isSome
  · have held := (inv.fits pid process found).lock (holds locked)
    refine .inside unsaved held (inside.trans locked) blank (fun _ => unread locked) ?_
    intro call' device at_ there
    rcases next with rfl | rfl <;> cases at_
  · refine .outside (by simpa [inside] using locked) (fun call' serial at_ => (calm _ _ at_).elim) ?_
    exact fun unreadable _ => blank unreadable

theorem RegistryFile.isReadable_false {file : RegistryFile}
    (unreadable : ∀ device, file ≠ .readable device) : file.isReadable = false := by
  cases file with
  | readable device => exact absurd rfl (unreadable device)
  | _ => rfl

/-- One operation of a process keeps the invariant, when it keeps the lock. -/
theorem Inv.advance {order : List FileId} (inv : Inv store) (prompt : store.Prompt)
    (found : store.processes.get pid = some process) (kept : LockKept store (.go pid order))
    (stepped : store.advance sha256 pid process order = some store') : Inv store' := by
  have fits := inv.fits pid process found
  have others : ∀ other process', other ≠ pid → store.processes.get other = some process' →
      Fits store process' := fun other process' _ was => inv.fits other process' was
  have out : process.phase.holds → ∀ other process', other ≠ pid →
      store.processes.get other = some process' → process'.phase.holds = false := by
    intro holds other process' apart was
    by_contra inside
    exact apart (inv.exclusive other pid process' process was found (by simpa using inside) holds)
  obtain ⟨breaks, moves⟩ := kept process found
  unfold Store.advance at stepped
  cases at_ : process.phase with
  | idle | stopped =>
    rw [at_] at stepped
    cases stepped
  | waiting call =>
    simp only [at_] at stepped
    split at stepped
    · next none =>
      cases stepped
      exact inv.entered none found (by rw [at_]; rfl)
    · cases stepped
      refine inv.alone found (.outside rfl (fun _ _ at_ => by cases at_) fun unreadable _ =>
        fits.blank unreadable (by rw [at_]; rfl)) (fun inside => by cases inside)
        fun _ _ at_ => by cases at_
  | found call =>
    have waits : Inv (store.put pid { process with phase := .waiting call }) :=
      inv.alone found (.outside rfl (fun _ _ at_ => by cases at_) fun unreadable _ =>
        fits.blank unreadable (by rw [at_]; rfl)) (fun inside => by cases inside)
        fun _ _ at_ => by cases at_
    simp only [at_] at stepped
    split at stepped
    · cases stepped
      exact waits
    next lock there =>
    split at stepped
    · next old =>
      cases stepped
      refine inv.within _ found rfl rfl rfl inv.saved others (.outside rfl ?_ fun unreadable _ =>
        fits.blank unreadable (by rw [at_]; rfl)) (fun inside => by cases inside) ?_
      · intro call' serial at_'
        cases at_'
        exact inv.serial lock there
      · intro call' serial at_' other process' was inside same
        cases at_'
        -- A lock that is held is too young to be stale.
        have held := (inv.fits other process' was).lock inside
        rw [there] at held
        have young := prompt other process' was inside
        rw [← some.inj held] at young
        omega
    · cases stepped
      exact waits
  | breaking call serial =>
    simp only [at_] at stepped
    cases stepped
    refine inv.released (fun other process' _ was => ?_) rfl (fun _ _ at_ => by cases at_)
      fun unreadable _ => fits.blank unreadable (by rw [at_]; rfl)
    -- A process inside holds the lock directory that is there, which is not the stale one.
    by_contra inside
    have inside : process'.phase.holds := by simpa using inside
    have held := (inv.fits other process' was).lock inside
    exact inv.stale pid other process process' call serial found was at_ inside
      (breaks call serial _ at_ held)
  | reading call =>
    have holds : call.isSome → process.phase.holds := fun some => by rw [at_]; exact some
    simp only [at_] at stepped
    split at stepped
    · next missing =>
      cases stepped
      exact inv.proceeds _ found rfl rfl rfl inv.saved others holds rfl
        (fun unreadable => fits.blank unreadable (by rw [at_]; rfl))
        fun device there => by rw [missing] at there; cases there
    · next device readable =>
      cases stepped
      exact inv.proceeds _ found rfl rfl rfl inv.saved others holds rfl
        (fun unreadable => by rw [readable] at unreadable; cases unreadable)
        fun device' there => RegistryFile.readable.inj (readable.symm.trans there)
    · next unreadable =>
      split at stepped
      · cases stepped
        exact inv.proceeds _ found rfl rfl rfl inv.saved others holds rfl
          (fun unreadable => fits.blank unreadable (by rw [at_]; rfl))
          fun device there => by rw [unreadable] at there; cases there
      · cases stepped
        exact inv.recovers found (.inl rfl) holds (fun _ => by rw [unreadable]; rfl)
          fun unreadable => fits.blank unreadable (by rw [at_]; rfl)
  | checking call =>
    have holds : call.isSome → process.phase.holds := fun some => by rw [at_]; exact some
    simp only [at_] at stepped
    split at stepped
    · next missing =>
      cases stepped
      have blank := fits.blank (by rw [missing]; rfl) (by rw [at_]; rfl)
      exact inv.proceeds _ found rfl rfl rfl inv.saved others holds rfl
        (fun _ => by rw [Process.recover, blank])
        fun device there => by rw [missing] at there; cases there
    · cases stepped
      exact inv.recovers found (.inr rfl) holds (fun some => fits.unread (by rw [at_]; exact some))
        fun unreadable => fits.blank unreadable (by rw [at_]; rfl)
  | moving call =>
    have unreadable : store.registry.isReadable = false := by
      cases call with
      | none => exact RegistryFile.isReadable_false (moves at_)
      | some call => exact fits.unread (by rw [at_]; rfl)
    simp only [at_] at stepped
    cases stepped
    refine inv.proceeds { store with registry := .missing } found rfl rfl rfl
      (fun _ there => by cases there) (fun other process' apart was => ?_)
      (fun some => by rw [at_]; exact some) rfl
      (fun _ => by rw [Process.recover, fits.blank unreadable (by rw [at_]; rfl)])
      fun _ there => by cases there
    have knows := inv.fits other process' was
    exact ⟨knows.lock, knows.observed, fun _ => knows.blank unreadable, fun _ => rfl,
      (fun _ _ _ there => by cases there), knows.formed, knows.written⟩
  | running call =>
    have held := fits.lock (by rw [at_]; rfl)
    have formed := inv.loaded_formed found at_
    simp only [at_] at stepped
    split at stepped
    · split at stepped
      · cases stepped
        refine inv.alone found (.inside rfl held rfl (fun unreadable =>
          fits.blank unreadable (by rw [at_]; rfl)) (fun recovering => by cases recovering)
          fun _ _ at_ => by cases at_) (fun _ => ⟨by rw [at_]; rfl, rfl⟩) fun _ _ at_ => by cases at_
      · next memory ran =>
        cases stepped
        refine inv.alone found (.saving rfl held rfl (perform_formed formed ran)
          fun _ at_ => by cases at_) (fun _ => ⟨by rw [at_]; rfl, rfl⟩) fun _ _ at_ => by cases at_
    · cases stepped
  | saving call =>
    have held := fits.lock (by rw [at_]; rfl)
    have formed := fits.formed (by rw [at_]; rfl) (by rw [at_]; rfl)
    simp only [at_] at stepped
    cases stepped
    refine inv.within { store with temp := some process.memory } found rfl rfl rfl inv.saved
      (fun other process' apart was => ?_) (.saving rfl held rfl formed fun _ _ => rfl)
      (fun _ => ⟨by rw [at_]; rfl, rfl⟩) fun _ _ at_ => by cases at_
    exact (inv.fits other process' was).aside (out (by rw [at_]; rfl) other process' apart was)
      (Nat.le_refl _) id
  | replacing call =>
    have held := fits.lock (by rw [at_]; rfl)
    have formed := fits.formed (by rw [at_]; rfl) (by rw [at_]; rfl)
    simp only [at_] at stepped
    rw [fits.written call at_] at stepped
    cases stepped
    refine inv.within { store with registry := .readable process.memory, temp := none }
      found rfl rfl rfl (fun device there => RegistryFile.readable.inj there ▸ formed)
      (fun other process' apart was => ?_) (.inside rfl held rfl (fun unreadable => by cases unreadable)
        (fun recovering => by cases recovering) fun _ _ at_ => by cases at_)
      (fun _ => ⟨by rw [at_]; rfl, rfl⟩) fun _ _ at_ => by cases at_
    exact (inv.fits other process' was).aside (out (by rw [at_]; rfl) other process' apart was)
      (Nat.le_refl _) fun unreadable => by cases unreadable
  | leaving panicked =>
    simp only [at_] at stepped
    cases stepped
    refine inv.released (out (by rw [at_]; rfl)) ?_ ?_ fun unreadable unsaved => ?_
    · split <;> rfl
    · split <;> exact fun _ _ at_ => by cases at_
    · revert unsaved
      split
      · exact fun unsaved => by cases unsaved
      · exact fun _ => fits.blank unreadable (by rw [at_]; rfl)

/-- Every step of a run keeps the invariant, when it keeps the lock. -/
theorem Inv.step {act : Act} (inv : Inv store) (prompt : store.Prompt) (kept : LockKept store act)
    (stepped : store.step sha256 act = some store') : Inv store' := by
  cases act with
  | tick elapsed =>
    cases stepped
    refine ⟨inv.exclusive, inv.serial, inv.saved, fun pid process found => ?_, inv.stale⟩
    have fits := inv.fits pid process found
    exact ⟨fits.lock, fits.observed, fits.blank, fits.unread, fits.loaded, fits.formed, fits.written⟩
  | start pid =>
    simp only [Store.step] at stepped
    split at stepped
    · cases stepped
    cases stepped
    exact inv.put rfl inv.serial inv.saved (fun other process' _ was => inv.fits other process' was)
      (.outside rfl (fun _ _ at_ => by cases at_) fun _ _ => rfl) (fun holds => by cases holds)
      (fun _ _ at_ => by cases at_) fun holds => by cases holds
  | call pid call =>
    obtain ⟨process, found, stepped⟩ := Option.bind_eq_some_iff.1 stepped
    split at stepped
    · next idle =>
      cases stepped
      exact inv.alone found (.outside rfl (fun _ _ at_ => by cases at_) fun unreadable _ =>
        (inv.fits pid process found).blank unreadable (by rw [idle]; rfl))
        (fun holds => by cases holds) fun _ _ at_ => by cases at_
    · cases stepped
  | go pid order =>
    obtain ⟨process, found, stepped⟩ := Option.bind_eq_some_iff.1 stepped
    exact inv.advance prompt found kept stepped
  | crash pid =>
    obtain ⟨process, found, stepped⟩ := Option.bind_eq_some_iff.1 stepped
    cases stepped
    exact inv.alone found (.outside rfl (fun _ _ at_ => by cases at_) fun _ unsaved => by cases unsaved)
      (fun holds => by cases holds) fun _ _ at_ => by cases at_

theorem Store.Initial.inv (initial : store.Initial) : Inv store := by
  have none : ∀ {pid process}, store.processes.get pid = some process → False := by
    intro pid process found
    rw [initial.processes pid] at found
    cases found
  exact ⟨fun _ _ _ _ found => (none found).elim, initial.serial, initial.registry,
    fun _ _ found => (none found).elim, fun _ _ _ _ _ _ found => (none found).elim⟩

theorem Store.Initial.prompt (initial : store.Initial) : store.Prompt := by
  intro pid process found
  rw [initial.processes pid] at found
  cases found

variable {keeps : Store → Act → Prop}

theorem StoreRun.prompt (run : StoreRun sha256 keeps store) : store.Prompt := by
  cases run with
  | start initial => exact initial.prompt
  | step _ _ _ prompt => exact prompt

theorem StoreRun.induct {holds : Store → Prop} (run : StoreRun sha256 keeps store)
    (starts : ∀ store, store.Initial → holds store)
    (steps : ∀ store store' act, StoreRun sha256 keeps store → holds store → keeps store act →
      store.step sha256 act = some store' → holds store') : holds store := by
  induction run with
  | start initial => exact starts _ initial
  | step run kept stepped _ ih => exact steps _ _ _ run ih kept stepped

theorem StoreRun.inv (locks : ∀ store act, keeps store act → LockKept store act)
    (run : StoreRun sha256 keeps store) : Inv store :=
  run.induct (fun _ initial => initial.inv) fun _ _ _ run inv kept stepped =>
    inv.step run.prompt (locks _ _ kept) stepped

end Invariants

end LichenVm.StoreLock
