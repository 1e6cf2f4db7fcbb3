import LichenVm.DeviceRegistry

/-! Processes that share one device store: the lock directory, the registry file, and what each
process does to them one file operation at a time. -/

namespace LichenVm.StoreLock

open Ast (Text)

/-- The lock's stale threshold, in milliseconds: an older lock is a crashed holder's. -/
def LOCK_STALE : Nat := 10000

/-- The lock directory. Its serial tells one creation of it from another. -/
structure LockDir where
  serial : Nat
  created : Nat
  deriving DecidableEq

inductive RegistryFile where
  | missing
  | unreadable
  | readable (device : DeviceRegistry)
  deriving DecidableEq

/-- A mutation of the index, made under the lock. -/
inductive IndexCall where
  | alloc (file : FileId)
  | publish (file : FileId) (key : ModuleKey) (source : Digest) (deps : List (FileId × ModuleKey))
  | gc
  | remove (file : FileId)
  deriving DecidableEq

/-- What a process is about to do. With a call it is in `with_lock`; without one it opens the store,
which takes no lock. -/
inductive Phase where
  | idle
  /-- Create the lock directory. -/
  | waiting (call : IndexCall)
  /-- Test the age of the lock directory that is there. -/
  | found (call : IndexCall)
  /-- Remove the lock directory that was stale. -/
  | breaking (call : IndexCall) (serial : Nat)
  /-- Read the registry file. -/
  | reading (call : Option IndexCall)
  /-- See whether the unreadable registry file is still there. -/
  | checking (call : Option IndexCall)
  /-- Move the registry file aside. -/
  | moving (call : Option IndexCall)
  /-- Mutate the index in memory. -/
  | running (call : IndexCall)
  /-- Write the temporary file. -/
  | saving (call : IndexCall)
  /-- Rename the temporary file. -/
  | replacing (call : IndexCall)
  /-- Remove the lock directory. -/
  | leaving (panicked : Bool)
  | stopped
  deriving DecidableEq

/-- Is a process that is about to do this inside `with_lock`, past the acquisition? -/
def Phase.holds : Phase → Bool
  | .reading call | .checking call | .moving call => call.isSome
  | .running _ | .saving _ | .replacing _ | .leaving _ => true
  | .idle | .waiting _ | .found _ | .breaking _ _ | .stopped => false

structure Process where
  phase : Phase
  /-- The index as the process has it in memory. -/
  memory : DeviceRegistry := {}
  /-- Whether it already recovered from an unreadable registry file. -/
  recovered : Bool := false
  /-- The lock directory that it created last. -/
  lock : LockDir := ⟨0, 0⟩
  /-- The keys that it was handed, and has neither published nor removed itself. -/
  granted : List (FileId × ModuleKey) := []
  deriving DecidableEq

structure Store where
  now : Nat := 0
  lock : Option LockDir := none
  /-- The serial of the next lock directory. -/
  serial : Nat := 0
  registry : RegistryFile := .missing
  /-- The temporary file that a save writes. -/
  temp : Option DeviceRegistry := none
  processes : AssocMap Nat Process := {}
  deriving DecidableEq

/-- One step of the store: time passes, or one process starts, calls, goes on or crashes. -/
inductive Act where
  | tick (elapsed : Nat)
  | start (pid : Nat)
  | call (pid : Nat) (call : IndexCall)
  /-- The process's next operation. The order is that in which the table's files come. -/
  | go (pid : Nat) (order : List FileId)
  | crash (pid : Nat)
  deriving DecidableEq

section Steps

variable (sha256 : Text → Digest)

/-- The mutation, in memory: `none` is a panic. -/
def IndexCall.perform (order : List FileId) (device : DeviceRegistry) :
    IndexCall → Option DeviceRegistry
  | .alloc file => some (device.alloc file).2
  | .publish file key source deps => device.publish sha256 file key source deps
  | .gc => some (device.gc order).2
  | .remove file => some (device.remove file).2

namespace Process

/-- A fresh, empty table over the same key space. -/
def recover (process : Process) : Process :=
  { process with memory := { nextKey := process.memory.nextKey }, recovered := true }

/-- The registry is loaded: go on with the call, or with nothing. -/
def proceed (process : Process) : Option IndexCall → Process
  | none => { process with phase := .idle }
  | some call => { process with phase := .running call }

/-- The keys it holds unpublished once a call has been saved. -/
def grantsAfter (process : Process) : IndexCall → List (FileId × ModuleKey)
  | .alloc file =>
    ((process.memory.entries.get file).map fun entry => (file, entry.key)).toList ++ process.granted
  | .publish file _ _ _ => process.granted.filter fun grant => grant.1 ≠ file
  | .gc | .remove _ =>
    process.granted.filter fun grant => (process.memory.entries.get grant.1).isSome

end Process

namespace Store

def put (store : Store) (pid : Nat) (process : Process) : Store :=
  { store with processes := store.processes.insert pid process }

/-- One operation of a process. -/
def advance (store : Store) (pid : Nat) (process : Process) (order : List FileId) : Option Store :=
  match process.phase with
  | .idle | .stopped => none
  | .waiting call =>
    match store.lock with
    | none =>
      let lock : LockDir := { serial := store.serial, created := store.now }
      some ({ store with lock := some lock, serial := store.serial + 1 }.put pid
        { process with phase := .reading (some call), lock })
    | some _ => some (store.put pid { process with phase := .found call })
  | .found call =>
    match store.lock with
    | none => some (store.put pid { process with phase := .waiting call })
    | some lock =>
      if lock.created + LOCK_STALE < store.now then
        some (store.put pid { process with phase := .breaking call lock.serial })
      else some (store.put pid { process with phase := .waiting call })
  | .breaking call _ =>
    -- Whatever lock directory is there by now.
    some ({ store with lock := none }.put pid { process with phase := .waiting call })
  | .reading call =>
    match store.registry with
    | .missing => some (store.put pid (process.proceed call))
    | .readable device =>
      some (store.put pid ({ process with memory := device, recovered := false }.proceed call))
    | .unreadable =>
      if process.recovered then some (store.put pid (process.proceed call))
      else some (store.put pid { process with phase := .checking call })
  | .checking call =>
    if store.registry = .missing then some (store.put pid (process.recover.proceed call))
    else some (store.put pid { process with phase := .moving call })
  | .moving call =>
    -- Whatever registry file is there by now.
    some ({ store with registry := .missing }.put pid (process.recover.proceed call))
  | .running call =>
    if order.Perm (process.memory.entries.entries.map Prod.fst) then
      match call.perform sha256 order process.memory with
      | none => some (store.put pid { process with phase := .leaving true })
      | some memory => some (store.put pid { process with phase := .saving call, memory })
    else none
  | .saving call =>
    some ({ store with temp := some process.memory }.put pid { process with phase := .replacing call })
  | .replacing call =>
    let after := { process with phase := .leaving false, granted := process.grantsAfter call }
    match store.temp with
    | none => some (store.put pid after)
    | some device => some ({ store with registry := .readable device, temp := none }.put pid after)
  | .leaving panicked =>
    some ({ store with lock := none }.put pid
      (if panicked then { process with phase := .stopped, granted := [] }
      else { process with phase := .idle }))

def step (store : Store) : Act → Option Store
  | .tick elapsed => some { store with now := store.now + elapsed }
  | .start pid =>
    match store.processes.get pid with
    | some _ => none
    | none => some (store.put pid { phase := .reading none })
  | .call pid call => do
    let process ← store.processes.get pid
    if process.phase = .idle then some (store.put pid { process with phase := .waiting call })
    else none
  | .go pid order => do
    let process ← store.processes.get pid
    store.advance sha256 pid process order
  | .crash pid => do
    let process ← store.processes.get pid
    some (store.put pid { process with phase := .stopped, granted := [] })

end Store

end Steps

end LichenVm.StoreLock
