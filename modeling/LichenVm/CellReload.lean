import LichenVm.CellCache
import LichenVm.Eviction
import LichenVm.StoredArtifact

open List Option

namespace LichenVm

open AssocMap Program CacheWorld Registry
open Ast (Path Text)

variable {P : Program}

abbrev FrozenLog (P : Program) := List (ModuleKey × StaticModule P)

/-- Every reference resolves to what it named when the artifact was frozen. -/
def CellRegistry.Resolves (registry : CellRegistry P) (against : FrozenLog P) : Prop :=
  ∀ pair ∈ against, registry.frozenAs.get pair.1 = some pair.2

/-- Every cell that a session's first compile loaded and kept has only references that resolve to
what they named. -/
def CacheWorld.KeptResolve (world : CacheWorld P) : Prop :=
  ∀ index store registry, (world.sessions index).kept = some (store, registry) →
    ∀ entry ∈ store.cells.entries, registry.Resolves entry.2.against

/-- One artifact alone was ever frozen under a key. -/
def HandedOutOnce (log : FrozenLog P) (key : ModuleKey) : Prop :=
  ∀ left ∈ log, ∀ right ∈ log, left.1 = key → right.1 = key → left.2 = right.2

/-- No record that a first compile reads depends on a cell key under which two artifacts were
frozen. -/
def CacheWorld.KeysApart (host : Host P) (world : CacheWorld P) : CacheStep P → Prop
  | .compile index input =>
    let session := world.sessions index
    session.loads = true →
      ∀ record ∈ host.read world.disk session.source input.listing, ∀ reference ∈ record.refs,
        reference.1.isCell = true → HandedOutOnce world.log reference.1
  | _ => True

/-- A registry's entries are what they were frozen as: a cell's artifact was frozen under its key
by some process, and a package's is the one its identity names. -/
structure CellRegistry.Filed (host : Host P) (log : FrozenLog P) (registry : CellRegistry P) :
    Prop where
  entries : ∀ key, registry.filed.containsKey key = (registry.frozenAs.get key).isSome
  logged : ∀ key home, registry.frozenAs.get key = some home → key.isCell = true → (key, home) ∈ log
  packages : ∀ key package, registry.filed.get key = some package → key.isCell = false →
    registry.frozenAs.get key = some (host.package key package.hash)

/-- What a registry holds stays as it was. -/
structure CellRegistry.Grows (before after : CellRegistry P) : Prop where
  filed : ∀ key package, before.filed.get key = some package → after.filed.get key = some package
  frozenAs : ∀ key home, before.frozenAs.get key = some home → after.frozenAs.get key = some home

/-- A record says what its artifact was frozen as and against. -/
structure Record.Fits (host : Host P) (log : FrozenLog P) (record : Record P) : Prop where
  logged : (record.module, record.frozenAs) ∈ log
  cells : ∀ pair ∈ record.against, pair.1.isCell = true → pair ∈ log
  listed : ∀ pair ∈ record.against, ∃ hash, (pair.1, hash) ∈ record.refs ∧
    (pair.1.isCell = false → pair.2 = host.package pair.1 hash)

theorem cellKey_isCell (next : Nat) : (⟨CELL_KEY_BIT ||| next⟩ : ModuleKey).isCell := by
  refine decide_eq_true fun same => ?_
  have bit := congrArg (fun raw : Nat => raw.testBit 63) same
  simp only [CELL_KEY_BIT, Nat.testBit_and, Nat.testBit_or, Nat.testBit_two_pow_self,
    Nat.zero_testBit, Bool.true_or, Bool.and_true, reduceCtorEq] at bit

namespace CellRegistry

variable {host : Host P} {log log' : FrozenLog P} {registry registry' : CellRegistry P}

theorem Grows.refl (registry : CellRegistry P) : Grows registry registry :=
  ⟨fun _ _ found => found, fun _ _ found => found⟩

theorem Grows.trans {middle : CellRegistry P} (first : Grows registry middle)
    (second : Grows middle registry') : Grows registry registry' :=
  ⟨fun key package found => second.filed key package (first.filed key package found),
    fun key home found => second.frozenAs key home (first.frozenAs key home found)⟩

theorem Resolves.grow {against : FrozenLog P} (resolves : registry.Resolves against)
    (grows : Grows registry registry') : registry'.Resolves against :=
  fun pair member => grows.frozenAs pair.1 pair.2 (resolves pair member)

theorem Filed.mono (filed : Filed host log registry) (more : ∀ pair ∈ log, pair ∈ log') :
    Filed host log' registry :=
  ⟨filed.entries, fun key home held cell => more _ (filed.logged key home held cell),
    filed.packages⟩

variable {key : ModuleKey}

section

variable (filed : Filed host log registry)

include filed

/-- Filing under a key in the cell space leaves every other entry as it was. -/
theorem Filed.insert {hash : Hash} {artifact home : StaticModule P} {next : Nat}
    (cell : key.isCell) (logged : (key, home) ∈ log) :
    Filed host log { registry with
      filed := registry.filed.file key hash artifact, nextCellKey := next
      frozenAs := registry.frozenAs.insert key home } := by
  refine ⟨fun other => ?_, fun other held => ?_, fun other package => ?_⟩
  · show ((registry.filed.file key hash artifact).get other).isSome = _
    rw [get_file, get_insert]
    split
    · rfl
    · exact filed.entries other
  · rw [get_insert]
    split
    · next same =>
      rintro ⟨⟩ -
      rw [same]
      exact logged
    · exact filed.logged other held
  · rw [get_file, get_insert]
    split
    · next same =>
      rintro - outside
      rw [same, cell] at outside
      cases outside
    · exact filed.packages other package

theorem Filed.grows_insert (hash : Hash) (artifact home : StaticModule P) (next : Nat)
    (fresh : registry.filed.containsKey key = false) :
    Grows registry { registry with
      filed := registry.filed.file key hash artifact, nextCellKey := next
      frozenAs := registry.frozenAs.insert key home } := by
  have absent : (registry.frozenAs.get key).isSome = false := (filed.entries key).symm.trans fresh
  refine ⟨fun other package found => ?_, fun other held found => ?_⟩
  · rw [get_file, if_neg]
    · exact found
    · rintro rfl
      have present : registry.filed.containsKey other := by
        show (registry.filed.get other).isSome
        rw [found]
        rfl
      rw [present] at fresh
      cases fresh
  · rw [get_insert, if_neg]
    · exact found
    · rintro rfl
      rw [found] at absent
      cases absent

theorem Filed.filePackage {hash : Hash} (outside : key.isCell = false) :
    Filed host log (registry.filePackage key hash (host.package key hash)) := by
  refine ⟨fun other => ?_, fun other held => ?_, fun other package => ?_⟩
  · show ((registry.filed.file key hash (host.package key hash)).get other).isSome =
      ((registry.frozenAs.insert key (host.package key hash)).get other).isSome
    rw [get_file, get_insert]
    split
    · rfl
    · exact filed.entries other
  · show (registry.frozenAs.insert key (host.package key hash)).get other = _ → _
    rw [get_insert]
    split
    · next same =>
      rintro - cell
      rw [same, outside] at cell
      cases cell
    · exact filed.logged other held
  · show (registry.filed.file key hash (host.package key hash)).get other = _ → _ →
      (registry.frozenAs.insert key (host.package key hash)).get other = _
    rw [get_file, get_insert]
    split
    · next same =>
      rintro ⟨⟩ -
      rw [same]
    · exact filed.packages other package

theorem Filed.evict (key : ModuleKey) : Filed host log (registry.evict key).2 := by
  by_cases freed : (registry.filed.evict key).1 = .freed
  · have left : (registry.filed.evict key).2 =
        { registry.filed with entries := registry.filed.entries.remove key } := by
      simp only [Registry.evict] at freed ⊢
      split at freed
      · cases freed
      · split at freed
        · cases freed
        · next present unnamed => simp [present, unnamed]
    have whole : (registry.evict key).2 = { registry with
        filed := { registry.filed with entries := registry.filed.entries.remove key }
        frozenAs := registry.frozenAs.remove key } := by
      simp [CellRegistry.evict, freed, left]
    rw [whole]
    refine ⟨fun other => ?_, fun other held => ?_, fun other package => ?_⟩
    · show ((registry.filed.entries.remove key).get other).isSome = _
      rw [get_remove, get_remove]
      split
      · rfl
      · exact filed.entries other
    · rw [get_remove]
      split
      · intro left
        cases left
      · exact filed.logged other held
    · show (registry.filed.entries.remove key).get other = _ → _
      rw [get_remove, get_remove]
      split
      · intro left
        cases left
      · exact filed.packages other package
  · have left : (registry.filed.evict key).2 = registry.filed := by
      simp only [Registry.evict] at freed ⊢
      split at freed
      · next absent => simp [absent]
      · split at freed
        · next present named => simp [present, named]
        · exact absurd rfl freed
    have whole : (registry.evict key).2 = registry := by
      simp [CellRegistry.evict, freed, left]
    rw [whole]
    exact filed

end

end CellRegistry

section Loading

variable {host : Host P} {log : FrozenLog P}

theorem AssocMap.mem_insert {K V : Type} [DecidableEq K] {m : AssocMap K V} {key : K} {value : V}
    {entry : K × V} (member : entry ∈ (m.insert key value).entries) :
    entry = (key, value) ∨ entry ∈ m.entries := by
  rcases mem_cons.1 member with same | old
  · exact Or.inl same
  · exact Or.inr (mem_of_mem_filter old)

variable {store : CellStore P} {source : Text} {entry : Path × Cell P}

theorem CellStore.mem_record {path : Path} {reference : StaticNodeId} {against : FrozenLog P}
    (member : entry ∈ (store.record path source reference against).cells.entries) :
    entry.2.against = against ∨ entry ∈ store.cells.entries := by
  rcases AssocMap.mem_insert member with rfl | old
  · exact Or.inl rfl
  · exact Or.inr old

theorem CellStore.mem_setKey {path : Path} {key : Option (List Nat)} (member : entry ∈
    (store.setKey path key).cells.entries) :
    ∃ old ∈ store.cells.entries, old.2.against = entry.2.against := by
  simp only [CellStore.setKey] at member
  split at member
  · next cell found =>
    rcases AssocMap.mem_insert member with rfl | old
    · exact ⟨(path, cell), mem_of_get _ _ _ found, rfl⟩
    · exact ⟨entry, old, rfl⟩
  · exact ⟨entry, member, rfl⟩

theorem CellStore.mem_retain {keep : Path → Bool}
    (member : entry ∈ (store.retain keep).1.cells.entries) : entry ∈ store.cells.entries :=
  mem_of_mem_filter member

/-- The dependencies of a sound record are the artifacts it was frozen against. -/
theorem Record.sound_resolves {registry : CellRegistry P} (filed : registry.Filed host log)
    {record : Record P} (fits : record.Fits host log)
    (apart : ∀ reference ∈ record.refs, reference.1.isCell → HandedOutOnce log reference.1)
    (sound : record.sound registry.filed) : registry.Resolves record.against := by
  intro pair member
  obtain ⟨hash, listed, package⟩ := fits.listed pair member
  have checked := all_eq_true.1 sound (pair.1, hash) listed
  cases found : registry.filed.get pair.1 with
  | none => simp [found] at checked
  | some held =>
    have same : held.hash = hash := by simpa [found] using checked
    cases cell : pair.1.isCell with
    | false => rw [filed.packages pair.1 held found cell, same, package cell]
    | true =>
      have present : (registry.frozenAs.get pair.1).isSome := by
        rw [← filed.entries]
        show (registry.filed.get pair.1).isSome
        rw [found]
        rfl
      obtain ⟨home, at_key⟩ := isSome_iff_exists.1 present
      have once := apart _ listed cell (pair.1, home) (filed.logged pair.1 home at_key cell)
        pair (fits.cells pair member cell) rfl rfl
      rw [at_key]
      exact congrArg some once

/-- What loading has made of a session's store and registry. -/
structure Loaded (host : Host P) (log : FrozenLog P) (before : CellRegistry P)
    (loaded : CellStore P × CellRegistry P) : Prop where
  filed : loaded.2.Filed host log
  grows : CellRegistry.Grows before loaded.2
  resolve : ∀ entry ∈ loaded.1.cells.entries, loaded.2.Resolves entry.2.against

variable {loaded loaded' : CellStore P × CellRegistry P}

theorem loadRecord_loaded {before : CellRegistry P} (inv : Loaded host log before loaded)
    {record : Record P} (fits : record.Fits host log)
    (apart : ∀ reference ∈ record.refs, reference.1.isCell → HandedOutOnce log reference.1)
    (ran : loadRecord host.codec source loaded record = some loaded') :
    Loaded host log before loaded' := by
  obtain ⟨store, registry⟩ := loaded
  simp only [loadRecord] at ran
  split at ran
  · cases ran
    exact inv
  next fresh =>
  split at ran
  · cases ran
    exact inv
  next sound =>
  have sound : record.sound registry.filed := by simpa using sound
  split at ran
  · cases ran
    exact inv
  next artifact out _ =>
  obtain ⟨filedIn, inserted, ran⟩ := bind_eq_some_iff.1 ran
  obtain ⟨reserved, reserves, ran⟩ := bind_eq_some_iff.1 ran
  cases ran
  have fresh : registry.filed.containsKey record.module = false := by simpa using fresh
  simp only [CellRegistry.insertModule, fresh, Bool.false_eq_true, if_false] at inserted
  cases inserted
  simp only [CellRegistry.reserveCellKey] at reserves
  split at reserves
  · next cell =>
    cases reserves
    have grows := inv.filed.grows_insert unsetHash
      { artifact with readOnly := record.readOnly } record.frozenAs
      (max registry.nextCellKey (record.module.raw &&& (CELL_KEY_BIT - 1))) fresh
    refine ⟨inv.filed.insert cell fits.logged, inv.grows.trans grows, ?_⟩
    intro entry member
    obtain ⟨old, recorded, same⟩ := CellStore.mem_setKey member
    rw [← same]
    rcases CellStore.mem_record recorded with new | old'
    · rw [new]
      exact (Record.sound_resolves inv.filed fits apart sound).grow grows
    · exact (inv.resolve old old').grow grows
  · cases reserves

theorem loadCells_loaded {before : CellRegistry P} {records : List (Record P)}
    (inv : Loaded host log before loaded) (fits : ∀ record ∈ records, record.Fits host log)
    (apart : ∀ record ∈ records, ∀ reference ∈ record.refs, reference.1.isCell →
      HandedOutOnce log reference.1)
    (ran : loadCells host.codec source records loaded = some loaded') :
    Loaded host log before loaded' := by
  induction records generalizing loaded with
  | nil =>
    cases ran
    exact inv
  | cons record records ih =>
    obtain ⟨middle, first, later⟩ := bind_eq_some_iff.1 ran
    exact ih (loadRecord_loaded inv (fits record mem_cons_self) (apart record mem_cons_self) first)
      (fun other member => fits other (mem_cons_of_mem _ member))
      (fun other member => apart other (mem_cons_of_mem _ member)) later

end Loading

section Freezing

variable {host : Host P}

/-- A cell just frozen: its artifact is filed, and its references are the artifact's own, each
resolving to what it was frozen against. -/
structure CellRegistry.Fresh (registry : CellRegistry P) (cell : Cell P) : Prop where
  isCell : cell.reference.module.isCell = true
  resolves : registry.Resolves cell.against
  listed : ∃ package, registry.filed.get cell.reference.module = some package ∧
    ∀ pair ∈ cell.against, pair.1 ∈ package.refs ∧ pair.1 ≠ cell.reference.module

variable {registry registry' : CellRegistry P}

theorem CellRegistry.Fresh.grow {cell : Cell P} (fresh : registry.Fresh cell)
    (grows : CellRegistry.Grows registry registry') : registry'.Fresh cell := by
  obtain ⟨package, found, listed⟩ := fresh.listed
  exact ⟨fresh.isCell, fresh.resolves.grow grows, package, grows.filed _ _ found, listed⟩

/-- What freezing has made of the cells whose bindings were compiled. -/
structure CellState.Frozen (host : Host P) (compiled : List Path) (before after : CellState P) :
    Prop where
  filed : after.registry.Filed host after.log
  grows : CellRegistry.Grows before.registry after.registry
  log : ∀ pair ∈ before.log, pair ∈ after.log
  fresh : ∀ path ∈ compiled, ∀ cell, after.store.cells.get path = some cell →
    after.registry.Fresh cell

theorem freezeCell_spec {log : FrozenLog P} {m : Module P} {root : NodeId} {mode : FreezeMode}
    {key : ModuleKey} {artifact : StaticModule P} (filed : registry.Filed host log)
    (froze : registry.freezeCell m root mode = some (key, artifact, registry')) :
    key.isCell ∧ registry'.Filed host ((key, artifact) :: log) ∧
      CellRegistry.Grows registry registry' ∧
      ∃ package, registry'.filed.get key = some package ∧ package.refs = artifact.referencedKeys := by
  obtain ⟨inner, closed, froze⟩ := bind_eq_some_iff.1 froze
  obtain ⟨package, found, froze⟩ := bind_eq_some_iff.1 froze
  obtain ⟨rfl, rfl, rfl⟩ := Prod.mk.inj (some.inj froze) |>.imp_right Prod.mk.inj
  have cell := cellKey_isCell (registry.nextCellKey + 1)
  simp only [freezeClosureMapped] at closed
  split at closed
  · cases closed
  next fresh =>
  split at closed
  · cases closed
  obtain ⟨home, -, rfl⟩ := map_eq_some_iff.1 closed
  rw [get_file, if_pos rfl] at found
  cases found
  have fresh : registry.filed.containsKey ⟨CELL_KEY_BIT ||| (registry.nextCellKey + 1)⟩ = false := by
    simpa [CellRegistry.allocateCellKey] using fresh
  have more :
      CellRegistry.Filed host ((⟨CELL_KEY_BIT ||| (registry.nextCellKey + 1)⟩, home) :: log) registry :=
    filed.mono fun pair member => mem_cons_of_mem _ member
  exact ⟨cell, more.insert cell mem_cons_self, filed.grows_insert _ _ _ _ fresh,
    { module := home, hash := unsetHash, refs := home.referencedKeys },
    (get_file _ _ _ _ _).trans (if_pos rfl), rfl⟩

variable {before state state' : CellState P}

theorem freezeCompiled_frozen {build : Build P} {source : Text} {compiled : List Path}
    (inv : CellState.Frozen host compiled before state) {cell : Lowering.CompiledCell}
    (ran : freezeCompiled build source state cell = some state') :
    CellState.Frozen host compiled before state' := by
  simp only [freezeCompiled] at ran
  split at ran
  · cases ran
    exact inv
  next root _ =>
  split at ran
  · cases ran
    exact inv
  obtain ⟨⟨key, artifact, registry⟩, froze, ran⟩ := bind_eq_some_iff.1 ran
  cases ran
  obtain ⟨isCell, filed, grows, package, found, refs⟩ := freezeCell_spec inv.filed froze
  refine ⟨filed, inv.grows.trans grows, fun pair member => mem_cons_of_mem _ (inv.log pair member),
    ?_⟩
  intro path member held at_path
  rw [CellStore.record, get_insert] at at_path
  split at at_path
  · cases at_path
    have source : ∀ pair : ModuleKey × StaticModule P, pair ∈
        (artifact.referencedKeys.filter fun named => decide (named ≠ key)).filterMap (fun named =>
          (state.registry.frozenAs.get named).map fun home => (named, home)) →
        pair.1 ∈ artifact.referencedKeys ∧ pair.1 ≠ key ∧
          state.registry.frozenAs.get pair.1 = some pair.2 := by
      intro pair inside
      obtain ⟨named, kept, resolved⟩ := mem_filterMap.1 inside
      obtain ⟨home, at_named, rfl⟩ := map_eq_some_iff.1 resolved
      obtain ⟨inRefs, apart⟩ := mem_filter.1 kept
      exact ⟨inRefs, of_decide_eq_true apart, at_named⟩
    refine ⟨isCell, fun pair inside => grows.frozenAs _ _ (source pair inside).2.2, package, found,
      fun pair inside => ?_⟩
    rw [refs]
    exact ⟨(source pair inside).1, (source pair inside).2.1⟩
  · exact (inv.fresh path member held at_path).grow grows

theorem freezeCells_frozen {build : Build P} {source : Text} {cells : List Lowering.CompiledCell}
    {compiled : List Path} (inv : CellState.Frozen host compiled before state)
    (ran : cells.foldlM (freezeCompiled build source) state = some state') :
    CellState.Frozen host compiled before state' := by
  induction cells generalizing state with
  | nil =>
    cases ran
    exact inv
  | cons cell cells ih =>
    obtain ⟨middle, first, later⟩ := bind_eq_some_iff.1 ran
    exact ih (freezeCompiled_frozen inv first) later

end Freezing

section Saving

variable {host : Host P} {log : FrozenLog P} {store : CellStore P} {path : Path}

theorem CellStore.get_setKey {other : Path} {key : Option (List Nat)}
    {cell : Cell P} (found : (store.setKey path key).cells.get other = some cell) :
    ∃ old, store.cells.get other = some old ∧ old.reference = cell.reference ∧
      old.against = cell.against := by
  simp only [CellStore.setKey] at found
  split at found
  · next held at_path =>
    rw [get_insert] at found
    split at found
    · next same =>
      cases found
      exact ⟨held, by rw [same]; exact at_path, rfl, rfl⟩
    · exact ⟨cell, found, rfl, rfl⟩
  · exact ⟨cell, found, rfl, rfl⟩

theorem CellStore.get_setKeys {after : List (Path × Option (List Nat))} {cell : Cell P}
    (found : (after.foldl (fun store (path, key) => store.setKey path key) store).cells.get path =
      some cell) :
    ∃ old, store.cells.get path = some old ∧ old.reference = cell.reference ∧
      old.against = cell.against := by
  induction after generalizing store with
  | nil => exact ⟨cell, found, rfl, rfl⟩
  | cons entry after ih =>
    obtain ⟨middle, found, reference, against⟩ := ih found
    obtain ⟨old, found, reference', against'⟩ := CellStore.get_setKey found
    exact ⟨old, found, reference'.trans reference, against'.trans against⟩

/-- The record of a cell just frozen says what it was frozen as and against. -/
theorem saveRecord_fits {registry : CellRegistry P} (filed : registry.Filed host log) {record :
    Record P}
    (fresh : ∀ cell, store.cells.get path = some cell → registry.Fresh cell)
    (saved : saveRecord host.codec store registry path = some record) : record.Fits host log := by
  obtain ⟨cell, found, saved⟩ := bind_eq_some_iff.1 saved
  obtain ⟨key, -, saved⟩ := bind_eq_some_iff.1 saved
  obtain ⟨package, at_module, saved⟩ := bind_eq_some_iff.1 saved
  obtain ⟨home, frozenAs, saved⟩ := bind_eq_some_iff.1 saved
  obtain ⟨refs, hashes, saved⟩ := bind_eq_some_iff.1 saved
  obtain ⟨artifact, -, saved⟩ := bind_eq_some_iff.1 saved
  cases saved
  obtain ⟨isCell, resolves, package', at_module', listed⟩ := fresh cell found
  cases at_module.symm.trans at_module'
  refine ⟨filed.logged _ _ frozenAs isCell, ?_, ?_⟩
  · exact fun pair member cell => filed.logged pair.1 pair.2 (resolves pair member) cell
  · intro pair member
    obtain ⟨inRefs, apart⟩ := listed pair member
    have kept : pair.1 ∈ package.refs.filter fun named => decide (named ≠ cell.reference.module) :=
      mem_filter.2 ⟨inRefs, decide_eq_true apart⟩
    obtain ⟨image, ran⟩ := isSome_iff_exists.1
      (Traverse.isSome_of_mapM _ _ (by rw [hashes]; rfl) pair.1 kept)
    obtain ⟨dependency, at_named, rfl⟩ := map_eq_some_iff.1 ran
    refine ⟨dependency.hash, ?_, fun outside => ?_⟩
    · obtain ⟨position, at_position⟩ := mem_iff_getElem?.1 kept
      have image := Traverse.getElem?_of_mapM _ _ _ hashes position
      rw [at_position, bind_some, ran] at image
      exact mem_of_getElem? image
    · have resolved := resolves pair member
      rw [filed.packages pair.1 dependency at_named outside] at resolved
      exact (some.inj resolved).symm

theorem Record.Fits.mono {record : Record P} {log' : FrozenLog P} (fits : record.Fits host log)
    (more : ∀ pair ∈ log, pair ∈ log') : record.Fits host log' :=
  ⟨more _ fits.logged, fun pair member cell => more pair (fits.cells pair member cell), fits.listed⟩

theorem Host.mem_write {disk : Disk P} {source : Text} {records : List (Record P)}
    {entry : FileName × Record P} (member : entry ∈ (host.write disk source records).entries) :
    entry.2 ∈ records ∨ entry ∈ disk.entries := by
  induction records generalizing disk with
  | nil => exact Or.inr member
  | cons record records ih =>
    rcases ih member with later | now
    · exact Or.inl (mem_cons_of_mem _ later)
    · rcases AssocMap.mem_insert now with rfl | old
      · exact Or.inl mem_cons_self
      · exact Or.inr old

end Saving

namespace CacheWorld

variable {host : Host P} {world world' : CacheWorld P}

/-- The invariant of the processes that share a cache directory. -/
structure Standing (host : Host P) (world : CacheWorld P) : Prop where
  filed : ∀ index, (world.registries index).Filed host world.log
  records : ∀ entry ∈ world.disk.entries, entry.2.Fits host world.log
  /-- A session that has not compiled retains no cell. -/
  empty : ∀ index, (world.sessions index).compiled = false →
    (world.sessions index).store.cells.entries = []
  kept : world.KeptResolve

theorem Standing.start (sessions : Nat → Session P) : Standing host (start sessions) :=
  ⟨fun _ => ⟨fun _ => rfl, nofun, nofun⟩, nofun, fun _ _ => rfl, nofun⟩

theorem setRegistry_self (world : CacheWorld P) (index : Nat) (registry : CellRegistry P) :
    (world.setRegistry index registry).registries index = registry := if_pos rfl

theorem filed_setRegistry (standing : Standing host world) (target : Nat)
    {registry : CellRegistry P} (filed : registry.Filed host world.log) (index : Nat) :
    ((world.setRegistry target registry).registries index).Filed host world.log := by
  by_cases same : index = target
  · rw [same, setRegistry_self]
    exact filed
  · have apart : (world.setRegistry target registry).registries index = world.registries index :=
      if_neg same
    rw [apart]
    exact standing.filed index

variable {session : Session P}

theorem Standing.setSession (standing : Standing host world) (target : Nat)
    (empty : session.compiled = false → session.store.cells.entries = [])
    (kept : session.kept = (world.sessions target).kept) :
    Standing host (world.setSession target session) := by
  refine ⟨standing.filed, standing.records, fun index => ?_, fun index store registry held => ?_⟩
  · by_cases same : index = target
    · have here : (world.setSession target session).sessions index = session := if_pos same
      rw [here]
      exact empty
    · have apart : (world.setSession target session).sessions index = world.sessions index :=
        if_neg same
      rw [apart]
      exact standing.empty index
  · by_cases same : index = target
    · have here : (world.setSession target session).sessions index = session := if_pos same
      rw [here, kept] at held
      exact standing.kept target store registry held
    · have apart : (world.setSession target session).sessions index = world.sessions index :=
        if_neg same
      rw [apart] at held
      exact standing.kept index store registry held

variable {index : Nat} {input : Input P}

theorem load_loaded (standing : Standing host world)
    (apart : world.KeysApart host (.compile index input)) {loaded : CellStore P × CellRegistry P}
    (ran : world.load host (world.sessions index) input = some loaded) :
    loaded.2.Filed host world.log ∧ ((world.sessions index).loads →
      ∀ entry ∈ loaded.1.cells.entries, loaded.2.Resolves entry.2.against) := by
  simp only [load] at ran
  split at ran
  · next loads =>
    have fresh : (world.sessions index).compiled = false := by
      simp only [Session.loads, Bool.and_eq_true, Bool.not_eq_true'] at loads
      exact loads.1.1
    have start : Loaded host world.log (world.registries (world.sessions index).registry)
        ((world.sessions index).store, world.registries (world.sessions index).registry) := by
      refine ⟨standing.filed _, .refl _, fun entry member => ?_⟩
      rw [standing.empty index fresh] at member
      cases member
    have done := loadCells_loaded start (fun record member => ?_) (apart loads) ran
    · exact ⟨done.filed, fun _ => done.resolve⟩
    · obtain ⟨name, -, found⟩ := mem_filterMap.1 member
      exact standing.records _ (mem_of_get _ _ _ found)
  · next skips =>
    cases ran
    exact ⟨standing.filed _, fun loads => absurd loads skips⟩

theorem reconcile_subset {store : CellStore P} :
    ∀ entry ∈ (reconcile session input store).1.cells.entries, entry ∈ store.cells.entries :=
  fun _ member => CellStore.mem_retain (CellStore.mem_retain member)

theorem saveCells_records {frozen : List Path}
    {state : CellState P} {disk : Disk P} (filed : state.registry.Filed host state.log)
    (fresh : ∀ path ∈ frozen, ∀ cell, state.store.cells.get path = some cell →
      state.registry.Fresh cell)
    (before : ∀ entry ∈ disk.entries, entry.2.Fits host state.log) :
    ∀ entry ∈ (saveCells host session input frozen state disk).2.entries,
      entry.2.Fits host state.log := by
  intro entry member
  simp only [saveCells] at member
  split at member
  · rcases Host.mem_write (mem_of_mem_filter member) with written | old
    · obtain ⟨path, inside, saved⟩ := mem_filterMap.1 (mem_of_mem_take written)
      refine saveRecord_fits filed (fun cell found => ?_) saved
      obtain ⟨old, at_path, reference, against⟩ := CellStore.get_setKeys found
      obtain ⟨isCell, resolves, listed⟩ := fresh path inside old at_path
      rw [reference] at isCell listed
      rw [against] at resolves listed
      exact ⟨isCell, resolves, listed⟩
    · exact before entry old
  · exact before entry member

section

variable (standing : Standing host world)

include standing

theorem compileWith_standing {store : CellStore P} {dropped : List ModuleKey}
    {registry : CellRegistry P} (filed : registry.Filed host world.log)
    (resolve : (world.sessions index).loads →
      ∀ entry ∈ store.cells.entries, registry.Resolves entry.2.against)
    (ran : world.compileWith host index input store dropped registry = some world') :
    Standing host world' := by
  obtain ⟨state, froze, ran⟩ := bind_eq_some_iff.1 ran
  cases ran
  generalize paths : (input.compiled.filter fun cell =>
    (store.reference cell.path).isNone).map Lowering.CompiledCell.path = frozen
  have start : CellState.Frozen host frozen { store, registry, log := world.log }
      { store, registry, log := world.log } := by
    refine ⟨filed, .refl _, fun _ member => member, fun path inside cell found => ?_⟩
    rw [← paths] at inside
    obtain ⟨compiled, listed, rfl⟩ := mem_map.1 inside
    have absent := (mem_filter.1 listed).2
    simp [CellStore.reference, found] at absent
  have done : CellState.Frozen host frozen { store, registry, log := world.log } state := by
    simp only [freezeCells] at froze
    split at froze
    · exact freezeCells_frozen start froze
    · cases froze
      exact start
  refine ⟨fun other => ?_, ?_, fun other => ?_, fun other store' registry' held => ?_⟩
  · by_cases same : other = (world.sessions index).registry
    · simp only [if_pos same]
      exact done.filed
    · simp only [if_neg same]
      exact (standing.filed other).mono done.log
  · exact saveCells_records done.filed done.fresh fun entry member =>
      (standing.records entry member).mono done.log
  · by_cases same : other = index
    · simp only [if_pos same]
      intro held
      cases held
    · simp only [if_neg same]
      exact standing.empty other
  · by_cases same : other = index
    · simp only [if_pos same] at held
      split at held
      · next loads =>
        cases held
        exact resolve loads
      · exact standing.kept index store' registry' held
    · simp only [if_neg same] at held
      exact standing.kept other store' registry' held

theorem compile_standing (apart : world.KeysApart host (.compile index input))
    (ran : world.compile host index input = some world') : Standing host world' := by
  obtain ⟨loaded, read, ran⟩ := bind_eq_some_iff.1 ran
  obtain ⟨filed, resolve⟩ := load_loaded standing apart read
  exact compileWith_standing standing filed
    (fun loads entry member => resolve loads entry (reconcile_subset entry member)) ran

theorem run_standing (step : CacheStep P) (apart : world.KeysApart host step)
    (ran : world.run host step = some world') : Standing host world' := by
  cases step with
  | compile index input => exact compile_standing standing apart ran
  | file index key hash =>
    simp only [run] at ran
    split at ran
    · cases ran
    · next outside =>
      cases ran
      exact ⟨filed_setRegistry standing index
        ((standing.filed index).filePackage (by simpa using outside)),
        standing.records, standing.empty, standing.kept⟩
  | evict index key =>
    simp only [run] at ran
    split at ran
    · cases ran
    · cases ran
      have evicted : Standing host (world.setRegistry (world.sessions index).registry
          ((world.registries (world.sessions index).registry).evict key).2) :=
        ⟨filed_setRegistry standing _ ((standing.filed _).evict key), standing.records,
          standing.empty, standing.kept⟩
      exact evicted.setSession index (standing.empty index) rfl
  | setMode index evaluates | setReadOnly index names =>
    cases ran
    exact standing.setSession index (standing.empty index) rfl

end

theorem Reaches.standing (reached : Reaches host (CacheWorld.KeysApart host) world) :
    Standing host world := by
  induction reached with
  | start sessions => exact .start sessions
  | step step _ admitted ran ih => exact run_standing ih step admitted ran

end CacheWorld

/-- In a run whose first compiles read no record that depends on a cell key of two artifacts,
every cell a first compile loads and keeps has only references that resolve to the artifacts it
was frozen against. -/
theorem reloaded_cells_resolve {host : Host P} {world : CacheWorld P}
    (reached : CacheWorld.Reaches host (CacheWorld.KeysApart host) world) : world.KeptResolve :=
  reached.standing.kept

namespace CacheWorld

def runAll (host : Host P) (admits : CacheWorld P → CacheStep P → Bool) :
    List (CacheStep P) → CacheWorld P → Option (CacheWorld P)
  | [], world => some world
  | step :: steps, world =>
    if admits world step then (world.run host step).bind (runAll host admits steps) else none

theorem Reaches.of_runAll {host : Host P} {admits : CacheWorld P → CacheStep P → Bool}
    {admitted : CacheWorld P → CacheStep P → Prop}
    (implies : ∀ world step, admits world step → admitted world step)
    {world world' : CacheWorld P} (steps : List (CacheStep P))
    (reached : Reaches host admitted world)
    (ran : runAll host admits steps world = some world') : Reaches host admitted world' := by
  induction steps generalizing world with
  | nil =>
    cases ran
    exact reached
  | cons step steps ih =>
    simp only [runAll] at ran
    split at ran
    · next allowed =>
      obtain ⟨middle, first, later⟩ := bind_eq_some_iff.1 ran
      exact ih (reached.step step (implies _ _ allowed) first) later
    · cases ran

/-- Every cell key has been handed out once. -/
def keysDistinct (world : CacheWorld P) (_ : CacheStep P) : Bool :=
  decide (world.log.map Prod.fst).Nodup

theorem keysApart_of_distinct (host : Host P) (world : CacheWorld P) (step : CacheStep P)
    (distinct : world.keysDistinct step) : world.KeysApart host step := by
  have once : ∀ key, HandedOutOnce world.log key := by
    intro key left inLeft right inRight same same'
    have nodup : (world.log.map Prod.fst).Nodup := of_decide_eq_true distinct
    exact congrArg Prod.snd (inj_on_of_nodup_map nodup inLeft inRight (same.trans same'.symm))
  cases step with
  | compile index input => exact fun _ _ _ reference _ _ => once reference.1
  | _ => trivial

end CacheWorld

/-- The rendering of a path that names its file. -/
def pathDebug (path : Path) : Text :=
  let step : Ast.Step → Text
    | .name name => [78, 97, 109, 101, 40, 34] ++ name ++ [34, 41]
    | .index index =>
      [73, 110, 100, 101, 120, 40] ++
        (Nat.repr index).toList.map (fun digit => UInt8.ofNat digit.toNat) ++ [41]
    | .tail => [84, 97, 105, 108]
  [80, 97, 116, 104, 40, 91] ++ [44, 32].intercalate (path.map step) ++ [93, 41]

def plainHost : Host plain where
  codec := plainCodec
  vocabulary := [76]
  pathText := pathDebug
  package := fun key _ => { key, nodes := [], functions := [] }

def oneNumber (number : Nat) : Module plain where
  nodes := ⟨[
    some { value := some (.low (.array { handle := .dynamic {
             block := ⟨1⟩, address := 0, items := [{ node := .dynamic ⟨2⟩ }] } }))
           block := ⟨1⟩, equality := { tail := some ⟨1⟩, size := 1 } },
    some { value := some (.low (.usize number)), block := ⟨1⟩
           equality := { tail := some ⟨2⟩, size := 1 } }]⟩
  blocks := ⟨[some { parent := none, nodes := [⟨1⟩, ⟨2⟩] }]⟩

def firstCellKey : ModuleKey := ⟨CELL_KEY_BIT ||| 1⟩

/-- A module that reads the array of the first cell back. -/
def readsFirst : Module plain where
  nodes := ⟨[some {
    value := some (.low (.array { handle := .static {
      module := firstCellKey, offset := 0
      items := [{ node := .static { module := firstCellKey, index := ⟨1⟩ } }] } }))
    block := ⟨1⟩, equality := { tail := some ⟨1⟩, size := 1 } }]⟩
  blocks := ⟨[some { parent := none, nodes := [⟨1⟩] }]⟩

def xPath : Path := [.name [120]]
def yPath : Path := [.name [121]]
def zPath : Path := [.name [122]]

/-- A compile of marked bindings, whose keys are their positions, that checks `m` and freezes the
binding at `path` from its first node. -/
def compileOf (marked : List Path) (m : Module plain) (path : Path) : Input plain where
  listing := marked.map fun path => tag (pathDebug path)
  after := marked.map fun path => (path, some [path.length])
  dirty := []
  marked := marked
  build := { ok := true, module := m, term := fun _ => some ⟨1⟩ }
  compiled := [{ path, name := [], expr := 0 }]
  written := 1
  stays := fun _ => false

/-- Sessions 0 and 2 edit one source, 1 and 3 another; 2 and 3 share a registry. -/
def fourSessions (index : Nat) : Session plain where
  registry := min index 2
  source := if index % 2 = 0 then [65] else [66]
  cached := true
  saves := true

/-- The first process of each source numbers its cells from one; the second source's second cell
reads its first. A third process loads both sources. -/
def crossedSources : List (CacheStep plain) :=
  [.compile 0 (compileOf [xPath] (oneNumber 1) xPath),
    .compile 1 (compileOf [yPath] (oneNumber 2) yPath),
    .compile 1 (compileOf [yPath, zPath] readsFirst zPath),
    .compile 2 (compileOf [xPath] (oneNumber 1) xPath),
    .compile 3 (compileOf [yPath, zPath] (oneNumber 2) yPath)]

/-- The third process reads the second source's second cell over the first source's. -/
theorem crossedSources_diverge : ¬ ∀ world : CacheWorld plain,
    CacheWorld.Reaches plainHost (fun _ _ => True) world → world.KeptResolve := by
  intro claim
  obtain ⟨world, ran⟩ := isSome_iff_exists.1 (by decide +kernel :
    (runAll plainHost (fun _ _ => true) crossedSources
      (start fourSessions)).isSome = true)
  have reached : CacheWorld.Reaches plainHost (fun _ _ => True) world :=
    CacheWorld.Reaches.of_runAll (fun _ _ _ => trivial) crossedSources (.start fourSessions) ran
  -- The value its reference names is read in the registry, and as it was frozen.
  have differs : ((world.sessions 3).kept.map fun kept => kept.1.cells.entries.all fun entry =>
      entry.2.against.all fun pair => decide
        ((kept.2.frozenAs.get pair.1).bind (·.read ⟨1⟩) = pair.2.read ⟨1⟩)) = some false := by
    have held : (runAll plainHost (fun _ _ => true) crossedSources
        (start fourSessions)).map (fun world =>
          (world.sessions 3).kept.map fun kept => kept.1.cells.entries.all fun entry =>
            entry.2.against.all fun pair => decide
              ((kept.2.frozenAs.get pair.1).bind (·.read ⟨1⟩) = pair.2.read ⟨1⟩)) =
        some (some false) := by decide +kernel
    rw [ran] at held
    exact some.inj held
  obtain ⟨kept, held, read⟩ := map_eq_some_iff.1 differs
  have resolves := claim world reached 3 kept.1 kept.2 held
  have same : (kept.1.cells.entries.all fun entry => entry.2.against.all fun pair => decide
      ((kept.2.frozenAs.get pair.1).bind (·.read ⟨1⟩) = pair.2.read ⟨1⟩)) = true := by
    refine all_eq_true.2 fun entry member => all_eq_true.2 fun pair inside => ?_
    exact decide_eq_true (by rw [resolves entry member pair inside]; rfl)
  rw [same] at read
  cases read

/-- One source's cells, reloaded by a later process. -/
def reloadedSource : List (CacheStep plain) :=
  [.compile 1 (compileOf [yPath] (oneNumber 2) yPath),
    .compile 1 (compileOf [yPath, zPath] readsFirst zPath),
    .compile 3 (compileOf [yPath, zPath] (oneNumber 2) yPath)]

theorem reloadedSource_resolves : ∃ world : CacheWorld plain,
    runAll plainHost keysDistinct reloadedSource
        (start fourSessions) = some world ∧
      ((world.sessions 3).kept.map fun kept => kept.1.cells.entries.length) = some 2 ∧
        world.KeptResolve := by
  obtain ⟨world, ran⟩ := isSome_iff_exists.1 (by decide +kernel :
    (runAll plainHost keysDistinct reloadedSource
      (start fourSessions)).isSome = true)
  have count : ((world.sessions 3).kept.map fun kept => kept.1.cells.entries.length) = some 2 := by
    have held : (runAll plainHost keysDistinct reloadedSource
        (start fourSessions)).map (fun world =>
          (world.sessions 3).kept.map fun kept => kept.1.cells.entries.length) =
        some (some 2) := by decide +kernel
    rw [ran] at held
    exact some.inj held
  exact ⟨world, ran, count, reloaded_cells_resolve (CacheWorld.Reaches.of_runAll
    (keysApart_of_distinct plainHost) reloadedSource (.start fourSessions) ran)⟩

end LichenVm
