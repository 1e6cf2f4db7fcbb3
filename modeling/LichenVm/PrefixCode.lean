import Mathlib.Data.List.Basic

/-! Reading back what a writer wrote without separators, given what it left out. -/

namespace LichenVm.PrefixCode

variable {W V A B : Type}

/-- The words written, and what the writer left out, each in the order of the writing. -/
structure Input (W V : Type) where
  words : List W
  omitted : List V

abbrev Reader (W V : Type) := StateT (Input W V) Option

def next : Reader W V W := fun input =>
  match input.words with
  | [] => none
  | word :: words => some (word, { input with words })

def nextOmitted : Reader W V V := fun input =>
  match input.omitted with
  | [] => none
  | value :: omitted => some (value, { input with omitted })

def times (read : Reader W V A) : Nat → Reader W V (List A)
  | 0 => pure []
  | n + 1 => do
    let first ← read
    let rest ← times read n
    pure (first :: rest)

/-- The reader takes these words and omissions for this value, whatever follows them. -/
def Codes (read : Reader W V A) (words : List W) (omitted : List V) (value : A) : Prop :=
  ∀ words' omitted', read ⟨words ++ words', omitted ++ omitted'⟩ = some (value, ⟨words', omitted'⟩)

theorem codes_pure (value : A) : Codes (pure value : Reader W V A) [] [] value := fun _ _ => rfl

theorem codes_next (word : W) : Codes (next : Reader W V W) [word] [] word := fun _ _ => rfl

variable {read : Reader W V A} {words words' : List W} {omitted omitted' : List V} {value : A}

theorem Codes.bind {next : A → Reader W V B} {made : B} (first : Codes read words omitted value)
    (second : Codes (next value) words' omitted' made) :
    Codes (read >>= next) (words ++ words') (omitted ++ omitted') made := by
  intro more more'
  have step := first (words' ++ more) (omitted' ++ more')
  have rest := second more more'
  rw [List.append_assoc, List.append_assoc]
  change (read _).bind _ = _
  rw [step]
  exact rest

theorem Codes.map (first : Codes read words omitted value) (f : A → B) :
    Codes (read >>= fun a => pure (f a)) words omitted (f value) := by
  have whole : Codes (read >>= fun a => pure (f a)) (words ++ []) (omitted ++ []) (f value) :=
    first.bind (codes_pure (f value))
  rw [List.append_nil, List.append_nil] at whole
  exact whole

theorem Codes.next {rest : W → Reader W V A} {word : W}
    (later : Codes (rest word) words omitted value) :
    Codes (PrefixCode.next >>= rest) (word :: words) omitted value :=
  (codes_next word).bind later

theorem Codes.times {I : Type} {items : List I} {written : I → List W} {left : I → List V}
    {made : I → A} (each : ∀ item ∈ items, Codes read (written item) (left item) (made item)) :
    Codes (times read items.length) (items.flatMap written) (items.flatMap left)
      (items.map made) := by
  induction items with
  | nil => exact codes_pure []
  | cons item items ih =>
    have first := each item List.mem_cons_self
    have rest := ih fun other member => each other (List.mem_cons_of_mem _ member)
    exact first.bind (rest.map (made item :: ·))

theorem Codes.unique {other : A} (first : Codes read words omitted value)
    (second : Codes read words omitted other) : value = other := by
  have here := first [] []
  rw [second [] []] at here
  exact (congrArg Prod.fst (Option.some.inj here)).symm

end LichenVm.PrefixCode
