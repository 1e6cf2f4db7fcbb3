import LichenVm.ByteStream
import LichenVm.Module

/-! The artifact codec of values and operators. -/

open Option

namespace LichenVm

open ByteStream PrefixCode Codes

variable {P : Program}

/-- A payload in an arena. -/
inductive Payload where
  | items (items : List ArrayItem)
  | entries (entries : List TableItem)
  | bytes (run : List UInt8)
  deriving DecidableEq

namespace Payload

def items? : Payload → Option (List ArrayItem)
  | .items held => some held
  | _ => none

def entries? : Payload → Option (List TableItem)
  | .entries held => some held
  | _ => none

def bytes? : Payload → Option (List UInt8)
  | .bytes run => some run
  | _ => none

end Payload

/-- An arena's bytes, as the payloads laid out in them and where each lies. -/
abbrev Arena := List (Nat × Payload)

namespace Arena

def payload (arena : Arena) (offset : Nat) : Option Payload :=
  (arena.find? fun placed => placed.1 = offset).map Prod.snd

def read {α : Type} (kind : Payload → Option (List α)) (arena : Arena) (offset length : Nat) :
    Option (List α) :=
  ((arena.payload offset).bind kind).filter fun items => items.length = length

end Arena

def AnyHandle.placed {α : Type} (key : ModuleKey) (kind : List α → Payload) : AnyHandle α → Arena
  | .dynamic _ => []
  | .static handle => if handle.module = key then [(handle.offset, kind handle.items)] else []

def Value.placed (key : ModuleKey) : Value P → Arena
  | .low (.array array) => array.handle.placed key .items
  | .low (.table table) => table.placed key .entries
  | .low _ => []
  | .ext value => ((P.handle value).map fun handle => handle.placed key .bytes).getD []

/-- The arena of a frozen module: a freeze lays out the payloads its nodes and its default
attribute array hold, and no others. -/
def StaticModule.arena (home : StaticModule P) : Arena :=
  (home.nodes.flatMap fun node => (node.value.map (Value.placed home.key)).getD []) ++
    (home.defaultAttributes.map fun handle =>
      (AnyHandle.static handle).placed home.key .items).getD []

/-- The modules supplied beside an artifact, by key. -/
abbrev Modules (P : Program) := ModuleKey → Option (StaticModule P)

abbrev Words := List (Word Arena)

/-- A leaf name past 255 bytes is refused. -/
def writeLeaf (name : List UInt8) : Option Words :=
  if name.length > 255 then none else some [.u8 name.length, .bytes name]

def leafName : Reader Arena (List UInt8) := do
  let length ← u8
  take length

/-- The owner's key, the payload's offset and its length. A module that is not supplied panics:
`none` here. -/
def writeRelocatedHandle {α : Type} (modules : Modules P) (handle : StaticHandle α) : Option Words :=
  (modules handle.module).map fun _ =>
    [.u64 handle.module.raw, .u64 handle.offset, .u64 handle.items.length]

/-- The owner's arena is the artifact's own for its key, else the supplied module's. -/
def readRelocatedHandle {α : Type} (kind : Payload → Option (List α)) (key : ModuleKey)
    (arena : Arena) (modules : Modules P) : Reader Arena (StaticHandle α) := do
  let owner ← u64
  let offset ← u64
  let length ← u64
  let home ← supply
    (if (⟨owner⟩ : ModuleKey) = key then some arena else (modules ⟨owner⟩).map StaticModule.arena)
  let items ← supply (home.read kind offset length)
  pure { module := ⟨owner⟩, offset, items }

def utf8 (text : String) : List UInt8 := text.toByteArray.data.toList

/-- Whether a function ref names a function of the module it names, when that one is supplied. -/
def functionSupplied (modules : Modules P) (function : StaticFunctionRef) : Bool :=
  (modules function.module).all fun owner => decide (function.index.index < owner.functions.length)

namespace LowValue

/-- A dynamic payload or function ref is refused: a freeze leaves none. -/
def writeValue (modules : Modules P) : LowValue → Option Words
  | usize n => some [.u8 0, .u64 n]
  | float bits => some [.u8 8, .u32 bits.toNat]
  | array ⟨.static handle, layout⟩ =>
    (writeRelocatedHandle modules handle).map fun words => .u8 1 :: (words ++ [.u32 layout])
  | array ⟨.dynamic _, _⟩ => Option.none
  | table (.static handle) => (writeRelocatedHandle modules handle).map fun words => .u8 6 :: words
  | table (.dynamic _) => Option.none
  | function (.static sref) => some [.u8 2, .u64 sref.module.raw, .u64 sref.index.index]
  | function (.dynamic _) => Option.none
  | none => some [.u8 3]
  | error => some [.u8 7]
  | any => some [.u8 9]
  | str text => some [.u8 5, .u32 ((utf8 text).length % 2 ^ 32), .bytes (utf8 text)]

/-- Read the value a tag announces. Tag 4 is reserved. -/
def readTagged (key : ModuleKey) (arena : Arena) (modules : Modules P) : Nat → Reader Arena LowValue
  | 0 => do
    let n ← u64
    pure (usize n)
  | 8 => do
    let bits ← u32
    pure (float (UInt32.ofNat bits))
  | 1 => do
    let handle ← readRelocatedHandle Payload.items? key arena modules
    let layout ← u32
    pure (array { handle := .static handle, layout })
  | 2 => do
    let module ← u64
    let index ← u64
    let sref : StaticFunctionRef := { module := ⟨module⟩, index := ⟨index⟩ }
    check (functionSupplied modules sref)
    pure (function (.static sref))
  | 3 => pure none
  | 7 => pure error
  | 9 => pure any
  | 5 => do
    let length ← u32
    let run ← take length
    let text ← supply (String.fromUTF8? ⟨⟨run⟩⟩)
    pure (str text)
  | 6 => do
    let handle ← readRelocatedHandle Payload.entries? key arena modules
    pure (table (.static handle))
  | _ => refuse

def readValue (key : ModuleKey) (arena : Arena) (modules : Modules P) : Reader Arena LowValue := do
  let tag ← u8
  readTagged key arena modules tag

end LowValue

namespace LowOperator

def writeOperator : LowOperator → Words
  | index => [.u8 0]
  | apply => [.u8 1]
  | tableGet => [.u8 2]
  | unify => [.u8 4]
  | external library entry => [.u8 3, .u32 library, .u32 entry]

def readTagged : Nat → Reader Arena LowOperator
  | 0 => pure index
  | 1 => pure apply
  | 2 => pure tableGet
  | 3 => do
    let library ← u32
    let entry ← u32
    pure (external library entry)
  | 4 => pure unify
  | _ => refuse

def readOperator : Reader Arena LowOperator := do
  let tag ← u8
  readTagged tag

end LowOperator

/-- The vocabulary's codec: its leaf names, and what it writes after each. A leaf value's payload
handle comes last, relocated. -/
structure ArtifactCodec (P : Program) where
  lowValue : List UInt8
  lowOperator : List UInt8
  valueLeaf : P.Ext → List UInt8
  operatorLeaf : P.ExtOperator → List UInt8
  /-- Refused for a value no artifact can carry. -/
  writeExt : P.Ext → Option Words
  writeExtOperator : P.ExtOperator → Option Words
  /-- The value of a leaf, before its payload is read. -/
  readExt : List UInt8 → Reader Arena P.Ext
  readExtOperator : List UInt8 → Reader Arena P.ExtOperator
  sha256 : Words → List UInt8
  arenaAlign : Nat

namespace ArtifactCodec

/-- The contract of the leaf codecs: their names are apart, and the two sides of each are exact
inverses. -/
structure Inverse (codec : ArtifactCodec P) : Prop where
  valueLeaf : ∀ value, codec.valueLeaf value ≠ codec.lowValue
  operatorLeaf : ∀ operator, codec.operatorLeaf operator ≠ codec.lowOperator
  value : ∀ value words, codec.writeExt value = some words → ∃ bare,
    Codes (codec.readExt (codec.valueLeaf value)) words [] bare ∧
      (P.handle value = none → bare = value) ∧ ((P.handle bare).isSome = (P.handle value).isSome) ∧
        ∀ payload, P.handle value = some payload → P.setHandle bare payload = value
  operator : ∀ operator words, codec.writeExtOperator operator = some words →
    Codes (codec.readExtOperator (codec.operatorLeaf operator)) words [] operator

def writePayload (modules : Modules P) : Option (AnyHandle UInt8) → Option Words
  | none => some []
  | some (.static handle) => writeRelocatedHandle modules handle
  | some (.dynamic _) => none

def writeValue (codec : ArtifactCodec P) (modules : Modules P) : Value P → Option Words
  | .low value => do
    let name ← writeLeaf codec.lowValue
    let body ← value.writeValue modules
    some (name ++ body)
  | .ext value => do
    let name ← writeLeaf (codec.valueLeaf value)
    let body ← codec.writeExt value
    let payload ← writePayload modules (P.handle value)
    some (name ++ (body ++ payload))

def readPayload (key : ModuleKey) (arena : Arena) (modules : Modules P) (value : P.Ext) :
    Reader Arena P.Ext :=
  if (P.handle value).isSome then do
    let handle ← readRelocatedHandle Payload.bytes? key arena modules
    pure (P.setHandle value (.static handle))
  else pure value

def readValue (codec : ArtifactCodec P) (key : ModuleKey) (arena : Arena) (modules : Modules P) :
    Reader Arena (Value P) := do
  let name ← leafName
  if name = codec.lowValue then
    let value ← LowValue.readValue key arena modules
    pure (.low value)
  else
    let bare ← codec.readExt name
    let value ← readPayload key arena modules bare
    pure (.ext value)

def writeOperator (codec : ArtifactCodec P) : Operator P → Option Words
  | .low operator => do
    let name ← writeLeaf codec.lowOperator
    some (name ++ operator.writeOperator)
  | .ext operator => do
    let name ← writeLeaf (codec.operatorLeaf operator)
    let body ← codec.writeExtOperator operator
    some (name ++ body)

def readOperator (codec : ArtifactCodec P) : Reader Arena (Operator P) := do
  let name ← leafName
  if name = codec.lowOperator then
    let operator ← LowOperator.readOperator
    pure (.low operator)
  else
    let operator ← codec.readExtOperator name
    pure (.ext operator)

end ArtifactCodec

/-- A handle's payload lies in the arena of its home: the artifact's own arena, or that of the
supplied module it names. -/
def StaticHandle.Lies {α : Type} (kind : Payload → Option (List α)) (key : ModuleKey)
    (arena : Arena) (modules : Modules P) (handle : StaticHandle α) : Prop :=
  ∃ home, (if handle.module = key then some arena
      else (modules handle.module).map StaticModule.arena) = some home ∧
    (home.payload handle.offset).bind kind = some handle.items

/-- What reading a value back needs: its payload lies in its home, a function it names is there,
and a string's length fits its field. -/
def Value.Readable (key : ModuleKey) (arena : Arena) (modules : Modules P) : Value P → Prop
  | .low (.array ⟨.static handle, _⟩) => handle.Lies Payload.items? key arena modules
  | .low (.table (.static handle)) => handle.Lies Payload.entries? key arena modules
  | .low (.function (.static sref)) => functionSupplied modules sref = true
  | .low (.str text) => (utf8 text).length < 2 ^ 32
  | .low _ => True
  | .ext value =>
    ∀ handle, P.handle value = some (.static handle) → handle.Lies Payload.bytes? key arena modules

theorem codes_relocatedHandle {α : Type} {kind : Payload → Option (List α)} {key : ModuleKey}
    {arena : Arena} {modules : Modules P} {handle : StaticHandle α} {words : Words}
    (lies : handle.Lies kind key arena modules)
    (wrote : writeRelocatedHandle modules handle = some words) :
    Codes (readRelocatedHandle kind key arena modules) words [] handle := by
  obtain ⟨_, -, rfl⟩ := map_eq_some_iff.1 wrote
  obtain ⟨home, at_home, at_offset⟩ := lies
  have found : home.read kind handle.offset handle.items.length = some handle.items := by
    simp [Arena.read, at_offset]
  exact word rfl (word rfl (word rfl
    (supply at_home (supply found (codes_pure handle)))))

theorem codes_leafName {name : List UInt8} {words : Words} (wrote : writeLeaf name = some words) :
    Codes leafName words [] name := by
  simp only [writeLeaf] at wrote
  split at wrote
  · cases wrote
  · cases wrote
    exact word rfl (codes_expect (if_pos rfl))

theorem fromUTF8_utf8 (text : String) : String.fromUTF8? ⟨⟨utf8 text⟩⟩ = some text := by
  have bytes : (⟨⟨utf8 text⟩⟩ : ByteArray) = text.toByteArray := by simp [utf8]
  rw [bytes, String.fromUTF8?, dif_pos (by simpa using text.isValidUTF8)]
  rfl

theorem LowValue.codes_value {key : ModuleKey} {arena : Arena} {modules : Modules P}
    {value : LowValue} {words : Words}
    (readable : Value.Readable key arena modules (.low value))
    (wrote : value.writeValue modules = some words) :
    Codes (readValue key arena modules) words [] value := by
  cases value with
  | usize n =>
    cases wrote
    exact word rfl (word rfl (codes_pure _))
  | float bits =>
    cases wrote
    have whole := codes_pure (W := Word Arena) (V := Unit) (LowValue.float (UInt32.ofNat bits.toNat))
    rw [UInt32.ofNat_toNat] at whole
    exact word rfl (word rfl (by rw [UInt32.ofNat_toNat]; exact whole))
  | str text =>
    cases wrote
    have fits : (utf8 text).length % 2 ^ 32 = (utf8 text).length := Nat.mod_eq_of_lt readable
    refine word rfl (word rfl (word (if_pos fits.symm) ?_))
    exact supply (fromUTF8_utf8 text) (codes_pure _)
  | array array =>
    obtain ⟨handle, layout⟩ := array
    cases handle with
    | dynamic handle => cases wrote
    | static handle =>
      obtain ⟨words, relocated, rfl⟩ := map_eq_some_iff.1 wrote
      exact word rfl ((codes_relocatedHandle readable relocated).bind
        (word rfl (codes_pure _)))
  | table table =>
    cases table with
    | dynamic handle => cases wrote
    | static handle =>
      obtain ⟨words, relocated, rfl⟩ := map_eq_some_iff.1 wrote
      exact word rfl ((codes_relocatedHandle readable relocated).map _)
  | function function =>
    cases function with
    | dynamic function => cases wrote
    | static sref =>
      cases wrote
      exact word rfl (word rfl (word rfl (check readable (codes_pure _))))
  | none | error | any =>
    cases wrote
    exact word rfl (codes_pure _)

theorem LowOperator.codes_operator (operator : LowOperator) :
    Codes readOperator operator.writeOperator [] operator := by
  cases operator with
  | external library entry =>
    exact word rfl (word rfl (word rfl (codes_pure _)))
  | _ => exact word rfl (codes_pure _)

namespace ArtifactCodec

variable {codec : ArtifactCodec P} {key : ModuleKey} {arena : Arena} {modules : Modules P}

theorem codes_value (inverse : codec.Inverse) {value : Value P} {words : Words}
    (readable : value.Readable key arena modules)
    (wrote : codec.writeValue modules value = some words) :
    Codes (codec.readValue key arena modules) words [] value := by
  cases value with
  | low value =>
    obtain ⟨name, named, wrote⟩ := bind_eq_some_iff.1 wrote
    obtain ⟨body, inner, wrote⟩ := bind_eq_some_iff.1 wrote
    cases wrote
    refine (codes_leafName named).bind ?_
    rw [if_pos rfl]
    exact (LowValue.codes_value readable inner).map _
  | ext value =>
    obtain ⟨name, named, wrote⟩ := bind_eq_some_iff.1 wrote
    obtain ⟨body, inner, wrote⟩ := bind_eq_some_iff.1 wrote
    obtain ⟨payload, relocated, wrote⟩ := bind_eq_some_iff.1 wrote
    cases wrote
    obtain ⟨bare, reads, plain, carries, filled⟩ := inverse.value value body inner
    refine (codes_leafName named).bind ?_
    rw [if_neg (inverse.valueLeaf value)]
    refine reads.bind ?_
    cases held : P.handle value with
    | none =>
      rw [held] at relocated carries
      cases relocated
      obtain rfl := plain held
      have bare : readPayload key arena modules bare = pure bare := if_neg (by simp [carries])
      rw [bare]
      exact codes_pure _
    | some handle =>
      rw [held] at relocated carries
      cases handle with
      | dynamic handle => cases relocated
      | static handle =>
        have payload : readPayload key arena modules bare = (do
            let handle ← readRelocatedHandle Payload.bytes? key arena modules
            pure (P.setHandle bare (.static handle))) := if_pos (by simpa using carries)
        rw [payload]
        have home := codes_relocatedHandle (readable handle held) relocated
        have whole := (home.map fun handle => P.setHandle bare (.static handle)).map Value.ext
        rw [filled (.static handle) held] at whole
        exact whole

theorem codes_operator (inverse : codec.Inverse) {operator : Operator P} {words : Words}
    (wrote : codec.writeOperator operator = some words) :
    Codes codec.readOperator words [] operator := by
  cases operator with
  | low operator =>
    obtain ⟨name, named, wrote⟩ := bind_eq_some_iff.1 wrote
    cases wrote
    refine (codes_leafName named).bind ?_
    rw [if_pos rfl]
    exact (LowOperator.codes_operator operator).map _
  | ext operator =>
    obtain ⟨name, named, wrote⟩ := bind_eq_some_iff.1 wrote
    obtain ⟨body, inner, wrote⟩ := bind_eq_some_iff.1 wrote
    cases wrote
    refine (codes_leafName named).bind ?_
    rw [if_neg (inverse.operatorLeaf operator)]
    exact (inverse.operator operator body inner).map _

end ArtifactCodec

end LichenVm
