import LichenVm.DeviceRegistry

/-! What the calls of the device registry do to its records. -/

open List Option

namespace LichenVm

open AssocMap
open Ast (Text)

namespace DeviceRegistry

/-- Every record has a key of its own, which the allocator does not hand out again. -/
structure Formed (device : DeviceRegistry) : Prop where
  apart : ∀ file other entry entry', device.entries.get file = some entry →
    device.entries.get other = some entry' → entry.key = entry'.key → file = other
  taken : ∀ file entry, device.entries.get file = some entry →
    entry.key.raw < device.nextKey ∧ entry.key.raw ∉ device.free
  free : ∀ index ∈ device.free, index < device.nextKey
  once : device.free.Nodup

/-- A record is kept when its key is. -/
def Extends (device device' : DeviceRegistry) : Prop :=
  ∀ file entry, device.entries.get file = some entry →
    ∃ entry', device'.entries.get file = some entry' ∧ entry'.key = entry.key

theorem Extends.refl (device : DeviceRegistry) : device.Extends device :=
  fun _ entry found => ⟨entry, found, rfl⟩

variable {device device' : DeviceRegistry}

theorem Extends.trans {device'' : DeviceRegistry} (first : device.Extends device')
    (second : device'.Extends device'') : device.Extends device'' := by
  intro file entry found
  obtain ⟨entry', found', same⟩ := first file entry found
  obtain ⟨entry'', found'', same'⟩ := second file entry' found'
  exact ⟨entry'', found'', same'.trans same⟩

section

variable (formed : device.Formed)

include formed

theorem takeIndex_fresh :
    (∀ file entry, device.entries.get file = some entry → entry.key.raw ≠ device.takeIndex.1) ∧
    device.takeIndex.2.entries = device.entries ∧
    device.takeIndex.1 < device.takeIndex.2.nextKey ∧ device.takeIndex.1 ∉ device.takeIndex.2.free ∧
    device.nextKey ≤ device.takeIndex.2.nextKey ∧
    (∀ index ∈ device.takeIndex.2.free, index ∈ device.free) ∧ device.takeIndex.2.free.Nodup := by
  cases listed : device.free with
  | nil =>
    simp only [takeIndex, listed]
    refine ⟨fun file entry found => ?_, trivial, by omega, not_mem_nil, by omega,
      fun _ member => member, .nil⟩
    have := (formed.taken file entry found).1
    omega
  | cons index free =>
    have once := formed.once
    rw [listed, nodup_cons] at once
    simp only [takeIndex, listed]
    refine ⟨fun file entry found same => ?_, trivial, formed.free index (by simp [listed]), once.1,
      by omega, fun _ member => mem_cons_of_mem _ member, once.2⟩
    have := (formed.taken file entry found).2
    rw [listed, same] at this
    exact this mem_cons_self

/-- What an allocation does: the record is there, pending when it was not before. -/
theorem alloc_spec (file : FileId) : (device.alloc file).2.Formed ∧
    (∃ entry, (device.alloc file).2.entries.get file = some entry ∧ entry.key = (device.alloc file).1 ∧
      ((device.entries.get file = some entry) ∨ (device.entries.get file = none ∧ entry.deps = []))) ∧
    (∀ other, other ≠ file → (device.alloc file).2.entries.get other = device.entries.get other) ∧
    (∀ entry, device.entries.get file = some entry →
      (device.alloc file).2.entries.get file = some entry) := by
  cases found : device.entries.get file with
  | some entry =>
    simp only [alloc, found]
    exact ⟨formed, ⟨entry, rfl, rfl, .inl rfl⟩, fun _ _ => trivial, fun _ same => same⟩
  | none =>
    obtain ⟨fresh, same, below, unused, more, kept, once⟩ := takeIndex_fresh formed
    simp only [alloc, found]
    refine ⟨⟨?_, ?_, ?_, once⟩, ?_, ?_, ?_⟩
    · intro file' other entry entry' holds holds' keys
      simp only [same, get_insert] at holds holds'
      split at holds <;> split at holds'
      · simp_all
      · cases holds
        exact absurd (congrArg ModuleKey.raw keys).symm (fresh other entry' holds')
      · cases holds'
        exact absurd (congrArg ModuleKey.raw keys) (fresh file' entry holds)
      · exact formed.apart file' other entry entry' holds holds' keys
    · intro file' entry holds
      simp only [same, get_insert] at holds
      split at holds
      · cases holds
        exact ⟨below, unused⟩
      · have taken := formed.taken file' entry holds
        exact ⟨by simpa using Nat.lt_of_lt_of_le taken.1 more, fun member => taken.2 (kept _ member)⟩
    · intro index member
      exact Nat.lt_of_lt_of_le (formed.free index (kept index member)) more
    · exact ⟨_, get_insert_self _ _ _, rfl, .inr ⟨trivial, rfl⟩⟩
    · intro other apart
      rw [get_insert, if_neg apart, same]
    · intro entry held
      cases held

theorem Formed.of_keys (next : device'.nextKey = device.nextKey)
    (free : device'.free = device.free)
    (keys : ∀ file entry', device'.entries.get file = some entry' →
      ∃ entry, device.entries.get file = some entry ∧ entry.key = entry'.key) : device'.Formed := by
  refine ⟨fun file other entry entry' found found' same => ?_, fun file entry found => ?_,
    by rw [next, free]; exact formed.free, by rw [free]; exact formed.once⟩
  · obtain ⟨old, was, key⟩ := keys file entry found
    obtain ⟨old', was', key'⟩ := keys other entry' found'
    exact formed.apart file other old old' was was' (by rw [key, key', same])
  · obtain ⟨old, was, key⟩ := keys file entry found
    rw [next, free, ← key]
    exact formed.taken file old was

end

variable {file : FileId}

theorem Formed.publish (formed : device.Formed) (sha256 : Text → Digest) {entry : Entry} (found :
    device.entries.get file = some entry)
    (source : Digest) (deps : List (FileId × ModuleKey)) :
    ∃ device', DeviceRegistry.publish sha256 device file entry.key source deps = some device' ∧ device'.Formed ∧
      device'.entries.get file = some { key := entry.key, sourceHash := source, deps
                                        artifact := device.artifactIdentity sha256 source deps } ∧
      (∀ other, other ≠ file → device'.entries.get other = device.entries.get other) ∧
      device'.artifacts = device.artifacts := by
  simp only [DeviceRegistry.publish, found, ne_eq, not_true_eq_false, if_false]
  refine ⟨_, rfl, formed.of_keys rfl rfl fun other entry' holds => ?_,
    get_insert_self _ _ _, fun other apart => ?_, rfl⟩
  · simp only [get_insert] at holds
    split at holds
    · next same =>
      cases holds
      exact ⟨entry, same ▸ found, rfl⟩
    · exact ⟨entry', holds, rfl⟩
  · rw [get_insert, if_neg apart]

theorem formed_empty : ({} : DeviceRegistry).Formed :=
  ⟨fun _ _ _ _ found => absurd found (by simp [AssocMap.get]),
    fun _ _ found => absurd found (by simp [AssocMap.get]),
    fun _ member => absurd member not_mem_nil, .nil⟩

theorem reclaim_perm {index : Nat} {free : List Nat} (new : index ∉ free) :
    (reclaim index free).Perm (index :: free) := by
  induction free with
  | nil => exact .refl _
  | cons first rest ih =>
    obtain ⟨apart, new⟩ := not_or.1 (mt mem_cons.2 new)
    unfold reclaim
    split
    · exact .refl _
    · exact ((ih new).cons first).trans (List.Perm.swap index first rest)

theorem Formed.drop (formed : device.Formed)
    {entry : Entry} (found : device.entries.get file = some entry) :
    (device.drop file entry.key).Formed := by
  have taken := formed.taken file entry found
  have freed := reclaim_perm taken.2
  have kept : ∀ other entry', (device.drop file entry.key).entries.get other = some entry' →
      other ≠ file ∧ device.entries.get other = some entry' := by
    intro other entry' holds
    simp only [DeviceRegistry.drop, get_remove] at holds
    split at holds
    · cases holds
    · next apart => exact ⟨apart, holds⟩
  refine ⟨fun file' other entry' entry'' holds holds' => ?_, fun other entry' holds => ?_,
    fun index member => ?_, freed.nodup_iff.2 (nodup_cons.2 ⟨taken.2, formed.once⟩)⟩
  · exact formed.apart file' other entry' entry'' (kept _ _ holds).2 (kept _ _ holds').2
  · obtain ⟨apart, holds⟩ := kept other entry' holds
    refine ⟨(formed.taken other entry' holds).1, fun member => ?_⟩
    rcases mem_cons.1 (freed.mem_iff.1 member) with same | free
    · exact apart (formed.apart other file entry' entry holds found (congrArg ModuleKey.mk same))
    · exact (formed.taken other entry' holds).2 free
  · rcases mem_cons.1 (freed.mem_iff.1 member) with same | free
    · exact same ▸ taken.1
    · exact formed.free index free

/-- A record of the first registry that is still in the second one is as it was. -/
def Shrinks (device device' : DeviceRegistry) : Prop :=
  ∀ file entry, device'.entries.get file = some entry → device.entries.get file = some entry

theorem drop_shrinks (device : DeviceRegistry) (file : FileId) (key : ModuleKey) :
    device.Shrinks (device.drop file key) := by
  intro other entry found
  simp only [drop, get_remove] at found
  split at found
  · cases found
  · exact found

variable {counted : Nat × DeviceRegistry}

theorem collect_spec (formed : counted.2.Formed) (file : FileId) :
    (collect counted file).2.Formed ∧ counted.2.Shrinks (collect counted file).2 := by
  unfold collect
  split
  · exact ⟨formed, fun _ _ => id⟩
  · next entry found =>
    split
    · exact ⟨formed, fun _ _ => id⟩
    · exact ⟨formed.drop found, drop_shrinks _ _ _⟩

theorem foldl_collect_spec {files : List FileId} (formed : counted.2.Formed) :
    (files.foldl collect counted).2.Formed ∧ counted.2.Shrinks (files.foldl collect counted).2 := by
  induction files generalizing counted with
  | nil => exact ⟨formed, fun _ _ => id⟩
  | cons file files ih =>
    obtain ⟨formed', shrinks⟩ := collect_spec formed file
    obtain ⟨formed'', shrinks'⟩ := ih formed'
    exact ⟨formed'', fun file' entry found => shrinks file' entry (shrinks' file' entry found)⟩

theorem gc_spec (formed : device.Formed) (order : List FileId) :
    (device.gc order).2.Formed ∧ device.Shrinks (device.gc order).2 :=
  foldl_collect_spec formed

theorem remove_spec (formed : device.Formed) (file : FileId) :
    (device.remove file).2.Formed ∧ device.Shrinks (device.remove file).2 := by
  unfold remove
  split
  · exact ⟨formed, fun _ _ => id⟩
  · next entry found =>
    split
    · exact ⟨formed, fun _ _ => id⟩
    · exact ⟨formed.drop found, drop_shrinks _ _ _⟩

theorem publish_some {sha256 : Text → Digest}
    {key : ModuleKey} {source : Digest} {deps : List (FileId × ModuleKey)} (formed : device.Formed)
    (published : device.publish sha256 file key source deps = some device') :
    device'.Formed ∧ device.Extends device' := by
  cases found : device.entries.get file with
  | none =>
    rw [publish, found] at published
    cases published
  | some entry =>
    by_cases same : entry.key = key
    · obtain ⟨next, answered, formed', own, others, -⟩ := formed.publish sha256 found source deps
      rw [← same, answered] at published
      cases published
      refine ⟨formed', fun other record held => ?_⟩
      by_cases here : other = file
      · rw [here, found] at held
        cases held
        exact ⟨_, (congrArg _ here).trans own, rfl⟩
      · exact ⟨record, (others other here).trans held, rfl⟩
    · simp only [publish, found] at published
      rw [if_pos same] at published
      cases published

theorem alloc_extends (formed : device.Formed) (file : FileId) :
    device.Extends (device.alloc file).2 := by
  obtain ⟨-, -, others, own⟩ := alloc_spec formed file
  intro other entry found
  by_cases here : other = file
  · exact ⟨entry, here ▸ own entry (here ▸ found), rfl⟩
  · exact ⟨entry, (others other here).trans found, rfl⟩

end DeviceRegistry

variable {check : List FileId → FileId → Text → Option (List FileId)}

variable {entries : AssocMap FileId Entry}

variable {files : AssocMap FilePath Text}

theorem verifyDep_some {visited after : List FileId} {dep : FileId × ModuleKey}
    (checks : verifyDep files entries check visited dep = some after) :
    ∃ entry, entries.get dep.1 = some entry ∧ entry.key = dep.2 := by
  obtain ⟨entry, found, checks⟩ := bind_eq_some_iff.1 checks
  split at checks
  · cases checks
  · next same => exact ⟨entry, found, not_not.1 same⟩

theorem verifyDeps_some {deps : List (FileId × ModuleKey)} {visited after : List FileId}
    (checks : deps.foldlM (verifyDep files entries check) visited = some after) :
    ∀ dep ∈ deps, ∃ entry, entries.get dep.1 = some entry ∧ entry.key = dep.2 := by
  induction deps generalizing visited with
  | nil => exact fun dep member => absurd member not_mem_nil
  | cons first rest ih =>
    obtain ⟨middle, here, later⟩ := bind_eq_some_iff.1 checks
    intro dep member
    rcases mem_cons.1 member with same | there
    · exact same ▸ verifyDep_some here
    · exact ih later dep there

namespace DeviceRegistry

theorem verify_some {device : DeviceRegistry} {sha256 : Text → Digest}
    {files : AssocMap FilePath Text} {file : FileId} {source : Text} {verified : Verified}
    (checks : device.verify sha256 files file source = some verified) :
    ∃ entry, device.entries.get file = some entry ∧ sha256 source = entry.sourceHash ∧
      verified.key = entry.key ∧ verified.deps = entry.deps ∧
      verified.hash = artifactHash sha256 entry.sourceHash (depIdentities device.entries entry.deps) ∧
      ∀ dep ∈ entry.deps, ∃ record, device.entries.get dep.1 = some record ∧ record.key = dep.2 := by
  obtain ⟨entry, found, checks⟩ := bind_eq_some_iff.1 checks
  split at checks
  · cases checks
  next hashes =>
  have hashes := not_not.1 hashes
  obtain ⟨visited, walks, checks⟩ := bind_eq_some_iff.1 checks
  cases checks
  refine ⟨entry, found, hashes, rfl, rfl, rfl, ?_⟩
  obtain ⟨entry', found', walks⟩ := bind_eq_some_iff.1 walks
  rw [found] at found'
  cases found'
  rw [if_neg (not_not.2 hashes)] at walks
  exact verifyDeps_some walks

end DeviceRegistry

end LichenVm
