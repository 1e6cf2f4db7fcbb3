import Mathlib.Algebra.Order.Ring.Nat
import LichenVm.PrefixCode

/-! A byte stream as the typed words its writer pushed, read back in their order. -/

namespace LichenVm.ByteStream

open PrefixCode

/-- One write: a fixed-width integer, a run of bytes, or a block of memory copied whole. -/
inductive Word (A : Type) where
  | u8 (value : Nat)
  | u32 (value : Nat)
  | u64 (value : Nat)
  | bytes (run : List UInt8)
  | block (content : A)
  deriving DecidableEq

variable {A B I : Type}

namespace Word

/-- The bytes a write pushes. A block is read before any length that is checked against them. -/
def size : Word A → Nat
  | u8 _ => 1
  | u32 _ => 4
  | u64 _ => 8
  | bytes run => run.length
  | block _ => 0

def u8? : Word A → Option Nat
  | u8 value => some value
  | _ => none

def u32? : Word A → Option Nat
  | u32 value => some value
  | _ => none

def u64? : Word A → Option Nat
  | u64 value => some value
  | _ => none

/-- A run of exactly `length` bytes. -/
def take? (length : Nat) : Word A → Option (List UInt8)
  | bytes run => if run.length = length then some run else none
  | _ => none

/-- A run whose length the format fixes. -/
def bytes? : Word A → Option (List UInt8)
  | bytes run => some run
  | _ => none

def block? : Word A → Option A
  | block content => some content
  | _ => none

end Word

def byteLength (words : List (Word A)) : Nat := (words.map Word.size).sum

@[simp] theorem byteLength_cons (word : Word A) (words : List (Word A)) :
    byteLength (word :: words) = word.size + byteLength words := by simp [byteLength]

@[simp] theorem byteLength_append (words words' : List (Word A)) :
    byteLength (words ++ words') = byteLength words + byteLength words' := by simp [byteLength]

theorem length_le_byteLength {items : List I} {written : I → List (Word A)}
    (costs : ∀ item ∈ items, 1 ≤ byteLength (written item)) :
    items.length ≤ byteLength (items.flatMap written) := by
  induction items with
  | nil => exact Nat.zero_le _
  | cons item items ih =>
    have first := costs item List.mem_cons_self
    have later := ih fun other member => costs other (List.mem_cons_of_mem _ member)
    simp only [List.length_cons, List.flatMap_cons, byteLength_append]
    omega

abbrev Reader (A B : Type) := PrefixCode.Reader (Word A) Unit B

/-- Take the next word when it is of the kind asked for. -/
def expect (kind : Word A → Option B) : Reader A B := fun input =>
  match input.words with
  | [] => none
  | word :: words => (kind word).map fun value => (value, { input with words })

def u8 : Reader A Nat := expect Word.u8?

def u32 : Reader A Nat := expect Word.u32?

def u64 : Reader A Nat := expect Word.u64?

def take (length : Nat) : Reader A (List UInt8) := expect (Word.take? length)

def bytes : Reader A (List UInt8) := expect Word.bytes?

def block : Reader A A := expect Word.block?

def refuse : Reader A B := fun _ => none

/-- Refuse the stream unless the test holds. -/
def check (holds : Bool) : Reader A Unit := fun input => if holds then some ((), input) else none

/-- Take what a lookup answers, or refuse the stream. -/
def supply (found : Option B) : Reader A B := fun input => found.map fun value => (value, input)

def unread : Reader A (List (Word A)) := fun input => some (input.words, input)

/-- Refuse a declared count past the bytes left to encode it. -/
def reserve (count : Nat) : Reader A Unit := fun input =>
  if count ≤ byteLength input.words then some ((), input) else none

/-- As many items as were declared. -/
def listOf (read : Reader A B) (count : Nat) : Reader A (List B) := do
  reserve count
  times read count

/-- A declared count, then as many items. -/
def counted (read : Reader A B) : Reader A (List B) := do
  let count ← u64
  listOf read count

/-- An optional field whose tag is read as zero or not. -/
def optionally (read : Reader A B) : Reader A (Option B) := do
  let tag ← u8
  if tag ≠ 0 then
    let value ← read
    pure (some value)
  else pure none

/-- An optional field whose tag must be 0 or 1. -/
def tagged (read : Reader A B) : Reader A (Option B) := do
  let tag ← u8
  if tag = 0 then pure none
  else if tag = 1 then
    let value ← read
    pure (some value)
  else refuse

/-- A boolean byte. -/
def flag : Reader A Bool := do
  let tag ← u8
  pure (decide (tag ≠ 0))

def writeOption (write : B → List (Word A)) : Option B → List (Word A)
  | none => [.u8 0]
  | some value => .u8 1 :: write value

def writeList (write : B → List (Word A)) (items : List B) : List (Word A) :=
  .u64 items.length :: items.flatMap write

def writeFlag (value : Bool) : Word A := .u8 value.toNat

theorem codes_expect {kind : Word A → Option B} {word : Word A} {value : B}
    (matching : kind word = some value) : Codes (expect kind) [word] [] value := by
  intro words omitted
  change (kind word).map _ = _
  rw [matching]
  rfl

variable {read : Reader A B} {value : B} {words : List (Word A)}

theorem Codes.word {C : Type} {kind : Word A → Option C} {word : Word A} {got : C}
    {rest : C → Reader A B} (matching : kind word = some got)
    (later : Codes (rest got) words [] value) :
    Codes (expect kind >>= rest) (word :: words) [] value :=
  (codes_expect matching).bind later

theorem Codes.check {holds : Bool} {rest : Unit → Reader A B} (passed : holds)
    (later : Codes (rest ()) words [] value) :
    Codes (ByteStream.check holds >>= rest) words [] value := by
  rw [passed]
  exact fun more omitted => later more omitted

theorem Codes.supply {C : Type} {found : Option C} {got : C} {rest : C → Reader A B}
    (present : found = some got) (later : Codes (rest got) words [] value) :
    Codes (ByteStream.supply found >>= rest) words [] value := by
  rw [present]
  exact fun more omitted => later more omitted

section

variable {write : B → List (Word A)} {field : Option B}
  (inner : ∀ value, field = some value → Codes read (write value) [] value)

include inner

theorem codes_optionally : Codes (optionally read) (writeOption write field) [] field := by
  cases field with
  | none => exact Codes.word rfl (codes_pure none)
  | some value => exact Codes.word rfl ((inner value rfl).map some)

theorem codes_tagged : Codes (tagged read) (writeOption write field) [] field := by
  cases field with
  | none => exact Codes.word rfl (codes_pure none)
  | some value => exact Codes.word rfl ((inner value rfl).map some)

end

theorem codes_flag (value : Bool) : Codes (flag : Reader A Bool) [writeFlag value] [] value := by
  cases value <;> exact Codes.word rfl (codes_pure _)

section

variable {items : List I} {write : I → List (Word A)} {made : I → B}
  (costs : ∀ item ∈ items, 1 ≤ byteLength (write item))
  (each : ∀ item ∈ items, Codes read (write item) [] (made item))

include costs each

theorem codes_listOf :
    Codes (listOf read items.length) (items.flatMap write) [] (items.map made) := by
  intro more omitted
  have room : items.length ≤ byteLength (items.flatMap write ++ more) := by
    have own := length_le_byteLength costs
    simp only [byteLength_append]
    omega
  have all : Codes (times read items.length) (items.flatMap write)
      (items.flatMap fun _ => ([] : List Unit)) (items.map made) := Codes.times each
  have rest := all more omitted
  have nothing : (items.flatMap fun _ : I => ([] : List Unit)) = [] := by simp
  rw [nothing] at rest
  change (reserve items.length ⟨items.flatMap write ++ more, omitted⟩).bind _ = _
  rw [show reserve items.length ⟨items.flatMap write ++ more, omitted⟩ =
    some ((), ⟨items.flatMap write ++ more, omitted⟩) from if_pos room]
  exact rest

theorem codes_counted :
    Codes (counted read) (.u64 items.length :: items.flatMap write) [] (items.map made) :=
  Codes.word rfl (codes_listOf costs each)

end

end LichenVm.ByteStream
