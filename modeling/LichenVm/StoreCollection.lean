import LichenVm.DeviceRecords
import Mathlib.Data.List.Dedup

/-! What a collection of the device registry keeps, in the order its table is walked. -/

open List

namespace LichenVm.DeviceRegistry

variable {device device' : DeviceRegistry} {file other : FileId} {order : List FileId}

/-- A record of `file` depends on the key of `other`. -/
def Names (device : DeviceRegistry) (file other : FileId) : Prop :=
  ∃ entry entry', (file, entry) ∈ device.entries.entries ∧ device.entries.get other = some entry' ∧
    ∃ dep ∈ entry.deps, dep.2 = entry'.key

/-- A chain of dependencies from a source the cache keeps reaches a file. -/
inductive Rooted (device : DeviceRegistry) : FileId → Prop where
  | lichen {file : FileId} (held : device.entries.get file ≠ none) (kept : file.isLichen) :
    Rooted device file
  | named {file other : FileId} (rooted : Rooted device file) (names : device.Names file other) :
    Rooted device other

/-- An order the table's files can come in. -/
structure Lists (device : DeviceRegistry) (order : List FileId) : Prop where
  once : order.Nodup
  mem : ∀ file, file ∈ order ↔ device.entries.get file ≠ none

/-- A collection removes the files no chain reaches and nothing else, a second one removes nothing,
and no record left names a key that was freed. -/
structure Complete (device : DeviceRegistry) (order : List FileId) : Prop where
  keeps : ∀ file, device.Rooted file →
    (device.gc order).2.entries.get file = device.entries.get file
  removes : ∀ file, ¬ device.Rooted file → (device.gc order).2.entries.get file = none
  again : ∀ order', (device.gc order).2.Lists order' →
    (device.gc order).2.gc order' = (0, (device.gc order).2)
  unnamed : ∀ file entry, device.entries.get file = some entry →
    (device.gc order).2.entries.get file = none → ∀ other entry',
    (other, entry') ∈ (device.gc order).2.entries.entries → ∀ dep ∈ entry'.deps, dep.2 ≠ entry.key

theorem referenced_iff {entry : Entry} (found : device.entries.get file = some entry) :
    device.referenced file entry.key ↔ ∃ other, other ≠ file ∧ device.Names other file := by
  unfold referenced Names
  simp only [any_eq_true, Bool.and_eq_true, decide_eq_true_eq, found, Option.some.injEq]
  constructor
  · rintro ⟨⟨other, entry'⟩, member, apart, named⟩
    exact ⟨other, apart, entry', entry, member, rfl, named⟩
  · rintro ⟨other, apart, entry', _, member, rfl, named⟩
    exact ⟨(other, entry'), member, apart, named⟩

theorem Rooted.held (rooted : device.Rooted file) : device.entries.get file ≠ none := by
  cases rooted with
  | lichen held kept => exact held
  | named rooted names =>
    obtain ⟨_, entry, -, found, -⟩ := names
    rw [found]
    exact Option.some_ne_none entry

/-- The first file on a chain to one that is not kept itself is another one. -/
theorem Rooted.namer (rooted : device.Rooted file) (dead : file.isLichen = false) :
    ∃ other, other ≠ file ∧ device.Rooted other ∧ device.Names other file := by
  induction rooted with
  | lichen held kept => rw [kept] at dead; cases dead
  | @named first last rooted names ih =>
    by_cases same : first = last
    · exact same ▸ ih (same ▸ dead)
    · exact ⟨first, same, rooted, names⟩

theorem mem_files :
    file ∈ device.entries.entries.map Prod.fst ↔ device.entries.get file ≠ none := by
  rw [AssocMap.get, ne_eq, Option.map_eq_none_iff, find?_eq_none]
  simp

/-- What is left of a registry when the files that satisfy `gone` are dropped. -/
structure Left (device : DeviceRegistry) (gone : FileId → Prop) (device' : DeviceRegistry) :
    Prop where
  records : ∀ record, record ∈ device'.entries.entries ↔
    record ∈ device.entries.entries ∧ ¬ gone record.1
  kept : ∀ file, ¬ gone file → device'.entries.get file = device.entries.get file
  none : ∀ file, gone file → device'.entries.get file = none

namespace Left

variable {gone : FileId → Prop} (left : Left device gone device')

theorem refl (device : DeviceRegistry) :
    Left device (fun file => device.entries.get file = Option.none) device := by
  refine ⟨fun record => ⟨fun member => ⟨member, ?_⟩, And.left⟩, fun _ _ => rfl, fun _ => id⟩
  exact mem_files.1 (mem_map_of_mem member)

include left

theorem congr {gone' : FileId → Prop} (same : ∀ file, gone file ↔ gone' file) :
    Left device gone' device' :=
  (funext fun file => propext (same file) : gone = gone') ▸ left

theorem drop (file : FileId) (key : ModuleKey) :
    Left device (fun other => gone other ∨ other = file) (device'.drop file key) := by
  have entries : (device'.drop file key).entries = device'.entries.remove file := rfl
  refine ⟨fun record => ?_, fun other stays => ?_, fun other dropped => ?_⟩
  · rw [entries, AssocMap.remove, mem_filter, left.records, decide_eq_true_eq]
    tauto
  · obtain ⟨stays, apart⟩ := not_or.1 stays
    rw [entries, AssocMap.get_remove, if_neg apart, left.kept other stays]
  · rw [entries, AssocMap.get_remove]
    split
    · rfl
    · next apart => exact left.none other (dropped.resolve_right apart)

theorem names_iff (stays : ¬ gone other) :
    device'.Names file other ↔ device.Names file other ∧ ¬ gone file := by
  unfold Names
  simp only [left.records, left.kept other stays]
  constructor
  · rintro ⟨entry, entry', ⟨member, here⟩, found, named⟩
    exact ⟨⟨entry, entry', member, found, named⟩, here⟩
  · rintro ⟨⟨entry, entry', member, found, named⟩, here⟩
    exact ⟨entry, entry', ⟨member, here⟩, found, named⟩

end Left

variable (counted : Nat × DeviceRegistry)

/-- Collecting one file: it is dropped exactly when no other file's record names it. -/
theorem collect_cases (file : FileId) :
    (((∃ other, other ≠ file ∧ counted.2.Names other file) ∨ counted.2.entries.get file = none) ∧
      collect counted file = counted) ∨
    (∀ other, other ≠ file → ¬ counted.2.Names other file) ∧
      ∃ entry, counted.2.entries.get file = some entry ∧
        collect counted file = (counted.1 + 1, counted.2.drop file entry.key) := by
  unfold collect
  cases found : counted.2.entries.get file with
  | none => exact .inl ⟨.inr rfl, rfl⟩
  | some entry =>
    cases named : counted.2.referenced file entry.key with
    | true => exact .inl ⟨.inl ((referenced_iff found).1 named), if_pos named⟩
    | false =>
      refine .inr ⟨fun other apart names => ?_, entry, rfl, if_neg (by simp [named])⟩
      rw [(referenced_iff found).2 ⟨other, apart, names⟩] at named
      cases named

/-- No file that a chain does not reach is named by another one. -/
def Apart (device : DeviceRegistry) : Prop :=
  ∀ file other, file ≠ other → ¬ device.Rooted file → ¬ device.Rooted other →
    ¬ device.Names file other

/-- A walk over files the cache does not keep drops those of them no chain reaches, where none of
these names another. -/
theorem foldl_collect_left (isolated : device.Apart) {gone : FileId → Prop}
    {counted : Nat × DeviceRegistry} (left : Left device gone counted.2)
    (unrooted : ∀ file, gone file → ¬ device.Rooted file) (files : List FileId)
    (dead : ∀ file ∈ files, file.isLichen = false ∧ device.entries.get file ≠ none) :
    Left device (fun file => gone file ∨ file ∈ files ∧ ¬ device.Rooted file)
      (files.foldl collect counted).2 := by
  induction files generalizing counted gone with
  | nil => simpa using left
  | cons file files ih =>
    have rest : ∀ other ∈ files, _ := fun other member => dead other (mem_cons_of_mem file member)
    obtain ⟨notKept, held⟩ := dead file mem_cons_self
    obtain ⟨named, same⟩ | ⟨bare, entry, found, same⟩ := collect_cases counted file
    · rw [foldl_cons, same]
      -- A file that is not dropped is gone already or has a chain to it.
      have settled : gone file ∨ device.Rooted file := by
        by_contra open_
        obtain ⟨here, unreached⟩ := not_or.1 open_
        rcases named with ⟨other, apart, names⟩ | missing
        · have names' := ((left.names_iff here).1 names).1
          by_cases rooted : device.Rooted other
          · exact unreached (rooted.named names')
          · exact isolated other file apart rooted unreached names'
        · rw [left.kept file here] at missing
          exact held missing
      refine (ih left unrooted rest).congr fun other => ?_
      rw [mem_cons]
      constructor
      · rintro (before | ⟨later, free⟩)
        · exact .inl before
        · exact .inr ⟨.inr later, free⟩
      · rintro (before | ⟨rfl | later, free⟩)
        · exact .inl before
        · exact .inl (settled.resolve_right free)
        · exact .inr ⟨later, free⟩
    · have here : ¬ gone file := fun before => by rw [left.none file before] at found; cases found
      have free : ¬ device.Rooted file := by
        intro rooted
        obtain ⟨other, apart, rooted', names⟩ := rooted.namer notKept
        exact bare other apart ((left.names_iff here).2 ⟨names, fun before =>
          unrooted other before rooted'⟩)
      have unrooted' : ∀ other, gone other ∨ other = file → ¬ device.Rooted other := by
        rintro other (before | rfl)
        · exact unrooted other before
        · exact free
      have next := @ih _ (counted.1 + 1, _) (left.drop file entry.key) unrooted' rest
      rw [foldl_cons, same]
      refine next.congr fun other => ?_
      rw [mem_cons]
      constructor
      · rintro ((before | rfl) | ⟨later, free'⟩)
        · exact .inl before
        · exact .inr ⟨.inl rfl, free⟩
        · exact .inr ⟨.inr later, free'⟩
      · rintro (before | ⟨rfl | later, free'⟩)
        · exact .inl (.inl before)
        · exact .inl (.inr rfl)
        · exact .inr ⟨later, free'⟩

theorem gc_left (isolated : device.Apart) (lists : device.Lists order) :
    Left device (fun file => ¬ device.Rooted file) (device.gc order).2 := by
  have walked := @foldl_collect_left _ isolated _ (0, device) (.refl device)
    (fun _ missing rooted => rooted.held missing) (order.filter fun file => !file.isLichen)
    fun file member => by
      rw [mem_filter, Bool.not_eq_true'] at member
      exact ⟨member.2, (lists.mem file).1 member.1⟩
  refine walked.congr fun file => ?_
  rw [mem_filter, Bool.not_eq_true', lists.mem]
  constructor
  · rintro (missing | ⟨-, free⟩)
    · exact fun rooted => rooted.held missing
    · exact free
  · intro free
    by_cases held : device.entries.get file = none
    · exact .inl held
    · exact .inr ⟨⟨held, Bool.eq_false_iff.2 fun kept => free (.lichen held kept)⟩, free⟩

theorem foldl_collect_same {files : List FileId}
    (each : ∀ file ∈ files, collect counted file = counted) :
    files.foldl collect counted = counted := by
  induction files with
  | nil => rfl
  | cons file files ih =>
    rw [foldl_cons, each file mem_cons_self]
    exact ih fun other member => each other (mem_cons_of_mem file member)

theorem collect_of_named {counted : Nat × DeviceRegistry} (apart : other ≠ file)
    (names : counted.2.Names other file) : collect counted file = counted := by
  rcases collect_cases counted file with ⟨-, same⟩ | ⟨bare, -⟩
  · exact same
  · exact absurd names (bare other apart)

theorem complete_of_apart (isolated : device.Apart) (lists : device.Lists order) :
    Complete device order := by
  have left := gc_left isolated lists
  refine ⟨fun file rooted => left.kept file (not_not.2 rooted), left.none,
    fun order' lists' => ?_, fun file entry found dropped other entry' member dep listed same => ?_⟩
  · refine foldl_collect_same _ fun file member => ?_
    rw [mem_filter, Bool.not_eq_true', lists'.mem] at member
    -- A file that is left has a chain to it, so another one that is left names it.
    have rooted : device.Rooted file := not_not.1 fun free => member.1 (left.none file free)
    obtain ⟨other, apart, rooted', names⟩ := rooted.namer member.2
    exact collect_of_named apart ((left.names_iff (not_not.2 rooted)).2
      ⟨names, not_not.2 rooted'⟩)
  · obtain ⟨member, rooted⟩ := (left.records _).1 member
    have free : ¬ device.Rooted file := fun rooted => by
      rw [left.kept file (not_not.2 rooted), found] at dropped
      cases dropped
    exact free ((not_not.1 rooted).named ⟨entry', entry, member, found, dep, listed, same⟩)

theorem foldl_collect_stays {files : List FileId} (absent : file ∉ files) :
    (files.foldl collect counted).2.entries.get file = counted.2.entries.get file := by
  induction files generalizing counted with
  | nil => rfl
  | cons first files ih =>
    obtain ⟨apart, absent⟩ := not_or.1 (mt mem_cons.2 absent)
    rw [foldl_cons, ih _ absent]
    rcases collect_cases counted first with ⟨-, same⟩ | ⟨-, entry, -, same⟩
    · rw [same]
    · rw [same, drop, AssocMap.get_remove, if_neg apart]

/-- **A collection is complete in every order exactly when no file that no chain reaches is named
by another such file**: one that is met before a file naming it stays. -/
theorem gc_complete_iff (device : DeviceRegistry) :
    (∀ order, device.Lists order → Complete device order) ↔ device.Apart := by
  refine ⟨fun complete file other apart free free' names => ?_,
    fun isolated order lists => complete_of_apart isolated lists⟩
  obtain ⟨-, entry, -, found, -⟩ := id names
  have held : device.entries.get other ≠ none := by rw [found]; exact Option.some_ne_none entry
  have dead : other.isLichen = false := Bool.eq_false_iff.2 fun kept => free' (.lichen held kept)
  -- The order that meets the named file first.
  have listed : other ∈ (device.entries.entries.map Prod.fst).dedup := mem_dedup.2 (mem_files.2 held)
  have first := perm_cons_erase listed
  have once := first.nodup_iff.1 (nodup_dedup _)
  have lists : device.Lists (other :: _) :=
    ⟨once, fun file => by rw [← first.mem_iff, mem_dedup, mem_files]⟩
  have cut := (complete _ lists).removes other free'
  have kept : collect (0, device) other = (0, device) := collect_of_named apart names
  rw [gc, filter_cons_of_pos (by rw [dead]; rfl), foldl_cons, kept,
    foldl_collect_stays _ fun member => (nodup_cons.1 once).1 (mem_of_mem_filter member)] at cut
  exact held cut

theorem Rooted.root (rooted : device.Rooted file) :
    ∃ first, device.entries.get first ≠ none ∧ first.isLichen := by
  induction rooted with
  | lichen held kept => exact ⟨_, held, kept⟩
  | named rooted names ih => exact ih

/-- A file that is no source of the cache's. -/
def script (name : Ast.Byte) : FileId :=
  .onDisk ⟨[], [name]⟩

/-- Two such files, the second of which depends on the first. -/
def chain : DeviceRegistry where
  entries := ⟨[(script 0, ⟨⟨0⟩, [], [], []⟩), (script 1, ⟨⟨1⟩, [], [], [(script 0, ⟨0⟩)]⟩)]⟩

/-- Met first, the dependency stays behind the file that named it; met last, it goes. -/
theorem chain_outlives_its_head :
    chain.Lists [script 0, script 1] ∧ chain.Lists [script 1, script 0] ∧
      ¬ chain.Rooted (script 0) ∧
      (chain.gc [script 0, script 1]).2.entries.get (script 0) ≠ none ∧
      (chain.gc [script 1, script 0]).2.entries.get (script 0) = none ∧
      ((chain.gc [script 0, script 1]).2.gc [script 0]).1 = 1 := by
  refine ⟨⟨by decide, fun _ => @mem_files chain _⟩, ⟨by decide, fun file => ?_⟩,
    fun rooted => ?_, by decide, by decide, by decide⟩
  · rw [← @mem_files chain _, (Perm.swap (script 0) (script 1) []).mem_iff]
    rfl
  · obtain ⟨first, held, kept⟩ := rooted.root
    have none : ∀ file ∈ [script 0, script 1], file.isLichen = false := by decide
    rw [none first (mem_files.2 held)] at kept
    cases kept

end LichenVm.DeviceRegistry
