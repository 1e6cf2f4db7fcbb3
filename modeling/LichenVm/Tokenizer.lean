import LichenVm.AssocMap
import Mathlib.Data.List.Nodup

/-! Byte-level pair encoding: a text to the ids of its tokens, and back. -/

open List

namespace LichenVm.Serve

abbrev Text := List Char

def utf8 (text : Text) : List UInt8 := text.flatMap String.utf8EncodeChar

inductive TokenizerRefusal where
  | weights (reason : String)

/-- The symbols of the bytes so far, and the next one: a printable byte is its own character, and the
rest are numbered in order. -/
def addSymbol (symbols : List Char × Nat) (byte : Nat) : List Char × Nat :=
  if 33 ≤ byte ∧ byte ≤ 126 ∨ 161 ≤ byte ∧ byte ≤ 172 ∨ 174 ≤ byte then
    (symbols.1 ++ [Char.ofNat byte], symbols.2)
  else (symbols.1 ++ [Char.ofNat symbols.2], symbols.2 + 1)

def byteSymbols : List Char := ((range 256).foldl addSymbol ([], 256)).1

def forward (byte : UInt8) : Char := byteSymbols.getD byte.toNat '\x00'

/-- The last byte that was given the symbol. -/
def inverse (symbol : Char) : Option UInt8 :=
  ((range 256).reverse.map UInt8.ofNat).find? fun byte => forward byte = symbol

/-- A tokenizer. The split and the normalised form are those of its libraries. -/
structure Tokenizer where
  vocabulary : AssocMap Text Nat
  ranks : AssocMap (Text × Text) Nat
  added : List (Text × Nat)
  split : Text → List Text
  nfc : Text → Text

def rankAt (ranks : AssocMap (Text × Text) Nat) (symbols : List Text) (index : Nat) : Option Nat := do
  let left ← symbols[index]?
  let right ← symbols[index + 1]?
  ranks.get (left, right)

/-- Hold the pair at an index where its rank is below the one held. -/
def better (rank : Nat → Option Nat) (best : Option (Nat × Nat)) (index : Nat) : Option (Nat × Nat) :=
  match rank index with
  | some rank => if best.all (rank < ·.1) then some (rank, index) else best
  | none => best

def bestPair (ranks : AssocMap (Text × Text) Nat) (symbols : List Text) : Option (Nat × Nat) :=
  (range (symbols.length - 1)).foldl (better (rankAt ranks symbols)) none

/-- Put the pair at an index in one symbol. -/
def mergeAt (symbols : List Text) (index : Nat) : List Text :=
  symbols.take index ++ [((symbols.drop index).take 2).flatten] ++ symbols.drop (index + 2)

/-- Merge until no pair has a rank. A merge leaves one symbol less, so as many as there are suffice. -/
def merged (ranks : AssocMap (Text × Text) Nat) : Nat → List Text → List Text
  | 0, symbols => symbols
  | fuel + 1, symbols =>
    match bestPair ranks symbols with
    | some (_, index) => merged ranks fuel (mergeAt symbols index)
    | none => symbols

def symbolsOf (piece : Text) : List Text := (utf8 piece).map fun byte => [forward byte]

/-- The merge procedure by its rule: the pair of the lowest rank first, the leftmost among equals. -/
inductive Merges (ranks : AssocMap (Text × Text) Nat) : List Text → List Text → Prop where
  | done {symbols : List Text} (unranked : ∀ index, rankAt ranks symbols index = none) :
    Merges ranks symbols symbols
  | step {symbols final : List Text} (index rank : Nat) (ranked : rankAt ranks symbols index = some rank)
    (lowest : ∀ other rank', rankAt ranks symbols other = some rank' →
      rank < rank' ∨ rank = rank' ∧ index ≤ other)
    (rest : Merges ranks (mergeAt symbols index) final) : Merges ranks symbols final

/-- Whether a second byte may follow the first of a sequence of three or four bytes. -/
def acceptsSecond (first second : UInt8) : Bool :=
  if first = 0xE0 then 0xA0 ≤ second && second ≤ 0xBF
  else if first = 0xED then 0x80 ≤ second && second ≤ 0x9F
  else if first = 0xF0 then 0x90 ≤ second && second ≤ 0xBF
  else if first = 0xF4 then 0x80 ≤ second && second ≤ 0x8F
  else 0xE1 ≤ first && first ≤ 0xF3 && 0x80 ≤ second && second ≤ 0xBF

/-- How many bytes one replacement character stands for, where no character starts. -/
def invalidLength : List UInt8 → Nat
  | first :: second :: rest =>
    if acceptsSecond first second then
      if 0xF0 ≤ first ∧ rest.head?.any (fun third => 0x80 ≤ third && third ≤ 0xBF) then 3 else 2
    else 1
  | _ => 1

/-- The text of bytes, with a replacement character for what is none. -/
def decodeLossy : Nat → List UInt8 → Text
  | 0, _ | _, [] => []
  | fuel + 1, first :: rest =>
    let bytes := first :: rest
    match bytes.toByteArray.utf8DecodeChar? 0 with
    | some char => char :: decodeLossy fuel (bytes.drop char.utf8Size)
    | none => Char.ofNat 0xFFFD :: decodeLossy fuel (bytes.drop (invalidLength bytes))

def fromUtf8Lossy (bytes : List UInt8) : Text := decodeLossy bytes.length bytes

/-- The tokens that a scan takes from a text. -/
def taken (added : List (Text × Nat)) : Nat → Text → List (Text × Nat)
  | 0, _ | _, [] => []
  | fuel + 1, rest =>
    match added.find? fun token => token.1.isPrefixOf rest with
    | some token => token :: taken added fuel (rest.drop token.1.length)
    | none => taken added fuel rest.tail

namespace Tokenizer

variable (tokenizer : Tokenizer)

def encodeSymbol (symbol : Text) : Except TokenizerRefusal Nat :=
  match tokenizer.vocabulary.get symbol with
  | some id => .ok id
  | none => .error (.weights ("the vocabulary holds no token for " ++
      (String.ofList symbol).quote ++ ", which the merges produced"))

def encodePiece (piece : Text) : Except TokenizerRefusal (List Nat) :=
  let symbols := symbolsOf piece
  (merged tokenizer.ranks symbols.length symbols).mapM tokenizer.encodeSymbol

def encodeOrdinary (ordinary : Text) : Except TokenizerRefusal (List Nat) :=
  flatten <$> (tokenizer.split ordinary).mapM tokenizer.encodePiece

/-- The ids so far with those of the ordinary text before a token. -/
def flush (ordinary : Text) (ids : List Nat) : Except TokenizerRefusal (List Nat) :=
  if ordinary = [] then .ok ids else (ids ++ ·) <$> tokenizer.encodeOrdinary ordinary

/-- Scan the rest of a text. `none` has not ended yet. -/
def scan : Nat → Text → Text → List Nat → Option (Except TokenizerRefusal (List Nat))
  | _, [], ordinary, ids => some (tokenizer.flush ordinary ids)
  | 0, _ :: _, _, _ => none
  | fuel + 1, first :: rest, ordinary, ids =>
    match tokenizer.added.find? fun token => token.1.isPrefixOf (first :: rest) with
    | some (content, id) =>
      match tokenizer.flush ordinary ids with
      | .ok ids => scan fuel ((first :: rest).drop content.length) [] (ids ++ [id])
      | .error refusal => some (.error refusal)
    | none => scan fuel rest (ordinary ++ [first]) ids

def encode (fuel : Nat) (text : Text) : Option (Except TokenizerRefusal (List Nat)) :=
  tokenizer.scan fuel (tokenizer.nfc text) [] []

def bytesOf (id : Nat) : List UInt8 :=
  match tokenizer.vocabulary.entries.find? fun entry => entry.2 = id with
  | some (token, _) => token.filterMap inverse
  | none => []

def decode (ids : List Nat) : Text := fromUtf8Lossy (ids.flatMap tokenizer.bytesOf)

/-- An injective vocabulary of every byte's symbol, every merge and every added token. -/
structure Complete : Prop where
  injective : ∀ entry ∈ tokenizer.vocabulary.entries, ∀ other ∈ tokenizer.vocabulary.entries,
    entry.2 = other.2 → entry.1 = other.1
  bytes : ∀ byte, ∃ id, tokenizer.vocabulary.get [forward byte] = some id
  merges : ∀ left right rank, tokenizer.ranks.get (left, right) = some rank →
    ∃ id, tokenizer.vocabulary.get (left ++ right) = some id
  added : ∀ token ∈ tokenizer.added, tokenizer.vocabulary.get token.1 = some token.2

end Tokenizer

section Symbols

def code (byte : Nat) : Nat :=
  if 33 ≤ byte ∧ byte ≤ 126 ∨ 161 ≤ byte ∧ byte ≤ 172 ∨ 174 ≤ byte then byte
  else if byte < 33 then 256 + byte else if byte < 161 then 162 + byte else 323

theorem byteSymbols_eq : byteSymbols = (range 256).map fun byte => Char.ofNat (code byte) := by
  decide +kernel

theorem forward_toNat (byte : UInt8) : (forward byte).toNat = code byte.toNat := by
  have below := byte.toNat_lt
  have small : code byte.toNat < 324 := by
    unfold code
    split_ifs <;> omega
  have symbol : forward byte = Char.ofNat (code byte.toNat) := by
    rw [forward, byteSymbols_eq, getD_eq_getElem?_getD, getElem?_map, getElem?_range below]
    rfl
  rw [symbol, Char.ofNat, dif_pos (.inl (by omega))]
  rfl

theorem forward_injective {byte other : UInt8} (same : forward byte = forward other) :
    byte = other := by
  have codes := congrArg Char.toNat same
  rw [forward_toNat, forward_toNat] at codes
  have below := byte.toNat_lt
  have below' := other.toNat_lt
  unfold code at codes
  rw [← UInt8.toNat_inj]
  split_ifs at codes <;> omega

theorem inverse_forward (byte : UInt8) : inverse (forward byte) = some byte := by
  have listed : byte ∈ (range 256).reverse.map UInt8.ofNat :=
    mem_map.2 ⟨byte.toNat, by simpa using byte.toNat_lt, UInt8.ofNat_toNat⟩
  unfold inverse
  cases found : ((range 256).reverse.map UInt8.ofNat).find? fun other => forward other = forward byte with
  | none => exact absurd (decide_eq_true rfl) (find?_eq_none.1 found byte listed)
  | some other => exact congrArg some (forward_injective (by simpa using find?_some found))

/-- A character that is its own byte's symbol. -/
def Plain (token : Text) : Prop := ∀ symbol ∈ token, 33 ≤ symbol.toNat ∧ symbol.toNat ≤ 126

theorem Plain.spells {token : Text} (plain : Plain token) : token.filterMap inverse = utf8 token := by
  induction token with
  | nil => rfl
  | cons symbol token ih =>
    obtain ⟨own, rest⟩ := forall_mem_cons.1 plain
    have byte : (UInt8.ofNat symbol.toNat).toNat = symbol.toNat := by
      rw [UInt8.toNat_ofNat']
      omega
    have symbol_eq : forward (UInt8.ofNat symbol.toNat) = symbol := by
      rw [← Char.toNat_inj, forward_toNat, byte, code, if_pos (.inl own)]
    have inverts := inverse_forward (UInt8.ofNat symbol.toNat)
    rw [symbol_eq] at inverts
    have single : String.utf8EncodeChar symbol = [UInt8.ofNat symbol.toNat] := by
      have small : symbol.val.toNat ≤ 0x7f := Nat.le_trans own.2 (by decide)
      rw [String.utf8EncodeChar, if_pos small]
      rfl
    rw [filterMap_cons_some inverts, ih rest]
    exact (congrArg (· ++ utf8 token) single).symm

end Symbols

section Merging

/-- The best of the pairs below an index: none has a rank, or its rank is the lowest and it is the
leftmost of that rank. -/
def Best (rank : Nat → Option Nat) (count : Nat) : Option (Nat × Nat) → Prop
  | none => ∀ index < count, rank index = none
  | some (held, index) => index < count ∧ rank index = some held ∧
    ∀ other < count, ∀ rank', rank other = some rank' → held < rank' ∨ held = rank' ∧ index ≤ other

theorem best_foldl (rank : Nat → Option Nat) (count : Nat) :
    Best rank count ((range count).foldl (better rank) none) := by
  induction count with
  | zero => exact fun _ below => absurd below (Nat.not_lt_zero _)
  | succ count ih =>
    rw [range_succ, foldl_append, foldl_cons, foldl_nil]
    generalize (range count).foldl (better rank) none = best at ih
    unfold better
    cases here : rank count with
    | none =>
      cases best with
      | none => exact Nat.forall_lt_succ_right.2 ⟨ih, here⟩
      | some held =>
        obtain ⟨below, ranked, lowest⟩ := ih
        refine ⟨Nat.lt_succ_of_lt below, ranked, Nat.forall_lt_succ_right.2 ⟨lowest, ?_⟩⟩
        intro rank' ranked'
        cases here.symm.trans ranked'
    | some own =>
      have last : ∀ rank', rank count = some rank' → own < rank' ∨ own = rank' ∧ count ≤ count :=
        fun rank' ranked' => .inr ⟨Option.some.inj (here.symm.trans ranked'), Nat.le_refl _⟩
      cases best with
      | none =>
        refine ⟨Nat.lt_succ_self _, here, Nat.forall_lt_succ_right.2 ⟨?_, last⟩⟩
        intro other below rank' ranked'
        cases (ih other below).symm.trans ranked'
      | some held =>
        obtain ⟨below, ranked, lowest⟩ := ih
        dsimp only [Option.all]
        split
        · next less =>
          have less := of_decide_eq_true less
          refine ⟨Nat.lt_succ_self _, here, Nat.forall_lt_succ_right.2 ⟨?_, last⟩⟩
          intro other below rank' ranked'
          rcases lowest other below rank' ranked' with below | ⟨same, _⟩ <;> omega
        · next least =>
          have least := of_decide_eq_false (Bool.eq_false_iff.2 least)
          refine ⟨Nat.lt_succ_of_lt below, ranked, Nat.forall_lt_succ_right.2 ⟨lowest, ?_⟩⟩
          intro rank' ranked'
          cases here.symm.trans ranked'
          omega

variable {ranks : AssocMap (Text × Text) Nat}

section

variable {symbols : List Text} {index rank : Nat} (ranked : rankAt ranks symbols index = some rank)

include ranked

theorem rankAt_eq_some : ∃ left right,
      symbols[index]? = some left ∧ symbols[index + 1]? = some right ∧
        ranks.get (left, right) = some rank := by
  obtain ⟨left, at_left, ranked⟩ := Option.bind_eq_some_iff.1 ranked
  obtain ⟨right, at_right, ranked⟩ := Option.bind_eq_some_iff.1 ranked
  exact ⟨left, right, at_left, at_right, ranked⟩

theorem rankAt_inside : index < symbols.length - 1 := by
  obtain ⟨_, _, -, at_right, -⟩ := rankAt_eq_some ranked
  have := (List.getElem?_eq_some_iff.1 at_right).1
  omega

end

/-- The loop merges by the rule. -/
theorem merges_merged (fuel : Nat) (symbols : List Text) (enough : symbols.length ≤ fuel) :
    Merges ranks symbols (merged ranks fuel symbols) := by
  induction fuel generalizing symbols with
  | zero =>
    cases length_eq_zero_iff.1 (Nat.le_zero.1 enough)
    exact .done fun _ => rfl
  | succ fuel ih =>
    have best := best_foldl (rankAt ranks symbols) (symbols.length - 1)
    unfold merged
    cases found : bestPair ranks symbols with
    | none =>
      rw [show foldl _ _ _ = none from found] at best
      refine .done fun index => ?_
      cases ranked : rankAt ranks symbols index with
      | none => rfl
      | some rank => exact ranked.symm.trans (best index (rankAt_inside ranked))
    | some held =>
      rw [show foldl _ _ _ = some held from found] at best
      obtain ⟨below, ranked, lowest⟩ := best
      refine .step held.2 held.1 ranked
        (fun other rank' ranked' => lowest other (rankAt_inside ranked') rank' ranked') (ih _ ?_)
      simp only [mergeAt, length_append, length_take, length_cons, length_nil, length_drop]
      omega

/-- Merging keeps what the symbols spell, and makes symbols that a merge names. -/
theorem Merges.keeps {known : Text → Prop} {symbols final : List Text}
    (named : ∀ left right rank, ranks.get (left, right) = some rank → known (left ++ right))
    (merges : Merges ranks symbols final) (all : ∀ symbol ∈ symbols, known symbol) :
    final.flatten = symbols.flatten ∧ ∀ symbol ∈ final, known symbol := by
  induction merges with
  | done => exact ⟨rfl, all⟩
  | @step symbols _ index rank ranked _ _ ih =>
    obtain ⟨left, right, at_left, at_right, ranked⟩ := rankAt_eq_some ranked
    obtain ⟨inside, rfl⟩ := List.getElem?_eq_some_iff.1 at_left
    obtain ⟨inside', rfl⟩ := List.getElem?_eq_some_iff.1 at_right
    have two : symbols.drop index = symbols[index] :: symbols[index + 1] :: symbols.drop (index + 2) := by
      rw [drop_eq_getElem_cons inside, drop_eq_getElem_cons inside']
    have joined : mergeAt symbols index = symbols.take index ++
        [symbols[index] ++ symbols[index + 1]] ++ symbols.drop (index + 2) := by
      rw [mergeAt, two]
      exact congrArg (_ ++ [·] ++ _) (congrArg (_ ++ ·) (append_nil _))
    obtain ⟨spells, known⟩ := ih (by
      rw [joined]
      simp only [mem_append, mem_singleton]
      rintro symbol ((member | rfl) | member)
      · exact all symbol (mem_of_mem_take member)
      · exact named _ _ _ ranked
      · exact all symbol (mem_of_mem_drop member))
    refine ⟨?_, known⟩
    rw [spells, joined]
    conv_rhs => rw [← take_append_drop index symbols, two]
    simp only [flatten_append, flatten_cons, flatten_nil, append_nil, append_assoc]

end Merging

/-- Bytes that spell a text are decoded as that text. -/
theorem fromUtf8Lossy_utf8 (text : Text) : fromUtf8Lossy (utf8 text) = text := by
  have decodes (fuel : Nat) (enough : (utf8 text).length ≤ fuel) : decodeLossy fuel (utf8 text) = text := by
    induction text generalizing fuel with
    | nil => cases fuel <;> rfl
    | cons char text ih =>
      have bytes : utf8 (char :: text) = String.utf8EncodeChar char ++ utf8 text := rfl
      have size := String.length_utf8EncodeChar char
      have positive := char.utf8Size_pos
      rw [bytes, length_append, size] at enough
      obtain ⟨fuel, rfl⟩ := Nat.exists_eq_add_one.2 (Nat.lt_of_lt_of_le positive (by omega : _ ≤ fuel))
      have starts : (String.utf8EncodeChar char ++ utf8 text).toByteArray.utf8DecodeChar? 0 = some char := by
        rw [toByteArray_append]
        exact ByteArray.utf8DecodeChar?_utf8EncodeChar_append
      cases shape : String.utf8EncodeChar char ++ utf8 text with
      | nil =>
        have empty := congrArg length shape
        rw [length_append, size, length_nil] at empty
        omega
      | cons first rest =>
        rw [bytes, shape, decodeLossy, ← shape, starts]
        dsimp only
        rw [← size, drop_left, ih fuel (by omega)]
  exact decodes _ (Nat.le_refl _)

/-- A map whose answers all spell what their sources do. -/
theorem mapM_spells {A B C : Type} {read : A → Except TokenizerRefusal B} {spell : B → List C}
    {spelled : A → List C} {items : List A}
    (each : ∀ item ∈ items, ∃ answer, read item = .ok answer ∧ spell answer = spelled item) :
    ∃ answers, items.mapM read = .ok answers ∧ answers.flatMap spell = items.flatMap spelled := by
  induction items with
  | nil => exact ⟨[], rfl, rfl⟩
  | cons item items ih =>
    obtain ⟨⟨answer, reads, spells⟩, rest⟩ := forall_mem_cons.1 each
    obtain ⟨answers, readRest, spellRest⟩ := ih rest
    refine ⟨answer :: answers, ?_, congrArg₂ (· ++ ·) spells spellRest⟩
    rw [mapM_cons, reads, readRest]
    rfl

namespace Tokenizer

variable {tokenizer : Tokenizer}

def spelled (tokenizer : Tokenizer) (ids : List Nat) : List UInt8 := ids.flatMap tokenizer.bytesOf

namespace Complete

variable (complete : tokenizer.Complete)

include complete

theorem bytesOf_id {token : Text} {id : Nat} (found : tokenizer.vocabulary.get token = some id) :
    tokenizer.bytesOf id = token.filterMap inverse := by
  have listed := AssocMap.mem_of_get _ _ _ found
  unfold bytesOf
  cases first : tokenizer.vocabulary.entries.find? fun entry => entry.2 = id with
  | none => exact absurd (decide_eq_true rfl) (find?_eq_none.1 first _ listed)
  | some entry =>
    have same := complete.injective _ (mem_of_find?_eq_some first) _ listed
      (of_decide_eq_true (find?_some (p := fun entry : Text × Nat => entry.2 = id) first))
    exact congrArg (filterMap inverse) same

theorem encodePiece_spells (piece : Text) :
    ∃ ids, tokenizer.encodePiece piece = .ok ids ∧ tokenizer.spelled ids = utf8 piece := by
  have known : ∀ symbol ∈ symbolsOf piece, ∃ id, tokenizer.vocabulary.get symbol = some id := by
    intro symbol member
    obtain ⟨byte, -, rfl⟩ := mem_map.1 member
    exact complete.bytes byte
  obtain ⟨spells, named⟩ :=
    (merges_merged _ (symbolsOf piece) (Nat.le_refl _)).keeps complete.merges known
  have each : ∀ symbol ∈ merged tokenizer.ranks (symbolsOf piece).length (symbolsOf piece),
      ∃ id, tokenizer.encodeSymbol symbol = .ok id ∧ tokenizer.bytesOf id = symbol.filterMap inverse := by
    intro symbol member
    obtain ⟨id, found⟩ := named symbol member
    exact ⟨id, by rw [encodeSymbol, found], complete.bytesOf_id found⟩
  obtain ⟨ids, encodes, same⟩ := mapM_spells each
  refine ⟨ids, encodes, same.trans ?_⟩
  rw [flatMap_def, ← filterMap_flatten, spells, symbolsOf]
  generalize utf8 piece = bytes
  induction bytes with
  | nil => rfl
  | cons byte bytes ih =>
    rw [map_cons, flatten_cons, cons_append, nil_append, filterMap_cons_some (inverse_forward byte), ih]

variable (covers : ∀ text, (tokenizer.split text).flatten = text)

include covers

theorem flush_spells (ordinary : Text) (ids : List Nat) :
    ∃ more, tokenizer.flush ordinary ids = .ok (ids ++ more) ∧
      tokenizer.spelled more = utf8 ordinary := by
  unfold flush
  split
  · next empty => exact ⟨[], by rw [append_nil], by rw [empty]; rfl⟩
  · obtain ⟨pieces, encodes, same⟩ := mapM_spells fun piece _ => complete.encodePiece_spells piece
    refine ⟨pieces.flatten, by rw [encodeOrdinary, encodes]; rfl, ?_⟩
    rw [spelled, flatten_eq_flatMap, flatMap_assoc]
    refine same.trans ?_
    conv_rhs => rw [utf8, ← covers ordinary, flatten_eq_flatMap, flatMap_assoc]
    rfl

/-- A scan over tokens that spell themselves ends, and what it answers spells the rest of the text. -/
theorem scan_spells (fuel : Nat) (rest ordinary : Text) (ids : List Nat)
    (enough : rest.length ≤ fuel)
    (plain : ∀ token ∈ taken tokenizer.added fuel rest, token.1 ≠ [] ∧ Plain token.1) :
    ∃ more, tokenizer.scan fuel rest ordinary ids = some (.ok (ids ++ more)) ∧
      tokenizer.spelled more = utf8 (ordinary ++ rest) := by
  induction fuel generalizing rest ordinary ids with
  | zero =>
    cases length_eq_zero_iff.1 (Nat.le_zero.1 enough)
    obtain ⟨more, flushes, spells⟩ := complete.flush_spells covers ordinary ids
    exact ⟨more, by rw [scan, flushes], by rw [append_nil, spells]⟩
  | succ fuel ih =>
    cases rest with
    | nil =>
      obtain ⟨more, flushes, spells⟩ := complete.flush_spells covers ordinary ids
      exact ⟨more, by rw [scan, flushes], by rw [append_nil, spells]⟩
    | cons first rest =>
      rw [length_cons] at enough
      unfold scan
      unfold taken at plain
      cases found : tokenizer.added.find? fun token => token.1.isPrefixOf (first :: rest) with
      | none =>
        rw [found] at plain
        obtain ⟨more, scans, spells⟩ := ih rest (ordinary ++ [first]) ids (by omega) plain
        exact ⟨more, scans, by rw [spells, append_assoc]; rfl⟩
      | some token =>
        rw [found] at plain
        obtain ⟨⟨some_content, plain⟩, later⟩ := forall_mem_cons.1 plain
        obtain ⟨after, whole⟩ := isPrefixOf_iff_prefix.1 (find?_some
          (p := fun token : Text × Nat => token.1.isPrefixOf (first :: rest)) found)
        have shorter := length_pos_iff.2 some_content
        have sizes := congrArg length whole
        rw [length_append, length_cons] at sizes
        obtain ⟨before, flushes, spells⟩ := complete.flush_spells covers ordinary ids
        obtain ⟨more, scans, spellsMore⟩ := ih after [] (ids ++ before ++ [token.2]) (by omega) (by
          rwa [← whole, drop_left] at later)
        have own := complete.bytesOf_id (complete.added _ (mem_of_find?_eq_some found))
        refine ⟨before ++ [token.2] ++ more, ?_, ?_⟩
        · rw [← whole]
          simpa only [flushes, drop_left, append_assoc] using scans
        · rw [← whole]
          simp only [spelled, utf8, flatMap_append, flatMap_singleton, own, plain.spells, nil_append] at spells spellsMore ⊢
          rw [spells, spellsMore, append_assoc]

end Complete

/-- **Over tokens that are not empty and that are their own bytes' symbols, what a text is encoded to
spells its normalised form.** Each piece is merged by the rule. -/
theorem decode_encode (complete : tokenizer.Complete)
    (covers : ∀ text, (tokenizer.split text).flatten = text) (text : Text)
    (plain : ∀ token ∈ taken tokenizer.added (tokenizer.nfc text).length (tokenizer.nfc text),
      token.1 ≠ [] ∧ Plain token.1) :
    (∃ fuel ids, tokenizer.encode fuel text = some (.ok ids) ∧
      tokenizer.decode ids = tokenizer.nfc text) ∧
    ∀ piece, Merges tokenizer.ranks (symbolsOf piece)
      (merged tokenizer.ranks (symbolsOf piece).length (symbolsOf piece)) := by
  refine ⟨?_, fun piece => merges_merged _ _ (Nat.le_refl _)⟩
  obtain ⟨ids, encodes, spells⟩ := complete.scan_spells covers _ _ [] [] (Nat.le_refl _) plain
  exact ⟨_, ids, encodes, (congrArg fromUtf8Lossy spells).trans (fromUtf8Lossy_utf8 _)⟩

/-- A tokenizer of the single bytes and one added token, a space. -/
def spaced : Tokenizer where
  vocabulary := ⟨(range 256).map (fun byte => ([forward (UInt8.ofNat byte)], byte)) ++ [([' '], 256)]⟩
  ranks := {}
  added := [([' '], 256)]
  split text := [text]
  nfc text := text

theorem forward_ne_space (byte : UInt8) : forward byte ≠ ' ' := by
  intro same
  have codes := congrArg Char.toNat same
  rw [forward_toNat, show ' '.toNat = 32 from rfl] at codes
  unfold code at codes
  split_ifs at codes <;> omega

theorem spaced_complete : spaced.Complete where
  injective entry member other member' same := by
    have token : ∀ entry ∈ spaced.vocabulary.entries,
        entry.1 = if entry.2 < 256 then [forward (UInt8.ofNat entry.2)] else [' '] := by
      intro entry member
      rcases mem_append.1 member with member | member
      · obtain ⟨byte, inside, rfl⟩ := mem_map.1 member
        exact (if_pos (mem_range.1 inside)).symm
      · cases mem_singleton.1 member
        rfl
    rw [token entry member, token other member', same]
  bytes byte := by
    have listed : ([forward byte], byte.toNat) ∈ spaced.vocabulary.entries :=
      mem_append_left _ (mem_map.2 ⟨byte.toNat, mem_range.2 byte.toNat_lt, by rw [UInt8.ofNat_toNat]⟩)
    cases found : spaced.vocabulary.get [forward byte] with
    | none => exact absurd (decide_eq_true rfl) (find?_eq_none.1 (Option.map_eq_none_iff.1 found) _ listed)
    | some id => exact ⟨id, rfl⟩
  merges left right rank ranked := by cases ranked
  added token member := by
    cases mem_singleton.1 member
    have absent : ((range 256).map fun byte => ([forward (UInt8.ofNat byte)], byte)).find?
        (fun entry => entry.1 = [' ']) = none := by
      rw [find?_eq_none]
      rintro entry member same
      obtain ⟨byte, -, rfl⟩ := mem_map.1 member
      exact forward_ne_space _ (cons.inj (of_decide_eq_true same)).1
    rw [AssocMap.get, spaced, find?_append, absent]
    rfl

theorem decode_encode_letter :
    (∃ fuel ids, spaced.encode fuel ['h'] = some (.ok ids) ∧ spaced.decode ids = ['h']) ∧
      ∀ piece, Merges spaced.ranks (symbolsOf piece)
        (merged spaced.ranks (symbolsOf piece).length (symbolsOf piece)) :=
  decode_encode spaced_complete (fun text => append_nil text) ['h'] (forall_mem_nil _)

/-- The added token of a space is decoded as nothing. -/
theorem added_space_is_dropped : spaced.Complete ∧ (∀ text, (spaced.split text).flatten = text) ∧
    ¬ ∃ fuel ids, spaced.encode fuel [' '] = some (.ok ids) ∧
      spaced.decode ids = spaced.nfc [' '] := by
  refine ⟨spaced_complete, fun text => append_nil text, ?_⟩
  rintro ⟨fuel, ids, encodes, decodes⟩
  have unknown : inverse ' ' = none := find?_eq_none.2 fun byte _ same =>
    forward_ne_space byte (of_decide_eq_true same)
  cases fuel with
  | zero => cases encodes
  | succ fuel =>
    have found : spaced.scan (fuel + 1) [' '] [] [] = some (.ok [256]) := by
      rw [scan]
      cases fuel <;> rfl
    cases found.symm.trans encodes
    have spells := spaced_complete.bytesOf_id (spaced_complete.added _ (mem_singleton.2 rfl))
    rw [filterMap_cons_none unknown] at spells
    rw [decode, flatMap_singleton, spells] at decodes
    cases decodes

end Tokenizer

end LichenVm.Serve
