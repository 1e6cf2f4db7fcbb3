import LichenVm.ReusedTokens

open List Option

namespace LichenVm.Lexer

open LongestMatch RawToken

variable {F : Type} {parseFloat : List Byte → F} {lines lines' : List Nat}

/-- The edit makes the integer literal before it a float literal: the literal's point is the last
byte before the edit, and a digit is the first one in it. -/
def GrowsFloat (new : List Byte) (a base : Nat) (last : Option (Token F)) : Prop :=
  ∃ token value digit, last = some token ∧ token.kind = .int value ∧ token.stop + 1 = a + base ∧
    new[a - 1]? = some 46 ∧ new[a]? = some digit ∧ isDigit digit = true

theorem take_succ_of_getElem? {text : List Byte} {k : Nat} {b : Byte} (found : text[k]? = some b) :
    text.take (k + 1) = text.take k ++ [b] := by
  rw [take_add_one, found]
  rfl

/-- A word that reaches into the edit from a piece before it is the float literal an integer
literal grows to. -/
theorem reaches_past {old new : List Byte} {a b base : Nat} (edit : Edit old new a b)
    {piece : Piece Byte RawToken} (member : piece ∈ pieces tokenizer base old)
    (before : piece.stop < a + base) {k : Nat} (positive : 0 < k)
    (within : k ≤ (new.drop a).length)
    (recognised : Recognised ((old.take a).drop (piece.start - base) ++ (new.drop a).take k)) :
    piece.stop + 1 = a + base ∧ piece.found = some .intLit ∧ new[a - 1]? = some 46 ∧
      ∃ digit, new[a]? = some digit ∧ isDigit digit := by
  have start := start_le_of_mem member
  have wide := start_lt_stop member
  have begins := begins_of_mem _ _ member
  have inOld := edit.inOld
  have common : ∀ n ≤ a + base - piece.start,
      (old.drop (piece.start - base)).take n = ((old.take a).drop (piece.start - base)).take n := by
    intro n short
    rw [drop_take, take_take, min_eq_left (by omega)]
  generalize word : (old.take a).drop (piece.start - base) = first at recognised common
  have width : first.length = a + base - piece.start := by
    rw [← word, length_drop, length_take, min_eq_left inOld]
    omega
  have whole := common first.length (by omega)
  rw [take_length] at whole
  have size : piece.slice.length = piece.stop - piece.start := by
    unfold Piece.stop
    omega
  have filled : first ≠ [] := by
    rw [← length_pos_iff]
    omega
  rcases recognised_of_append filled recognised with shorter | sigil | ⟨digits, same, int, int'⟩
  · exfalso
    apply shorter
    rw [← whole]
    exact begins.longer (by omega) (by rw [length_drop]; omega)
  · rw [sigil, length_singleton] at width
    omega
  · have length : first.length = digits.length + 1 := by
      rw [same, length_append, length_singleton]
    have own : (old.drop (piece.start - base)).take digits.length = digits := by
      rw [common _ (by omega), same, take_append_of_le_length (le_refl _), take_length]
    have recognise := recognise_int int
    have long : digits.length ≤ piece.slice.length := by
      by_contra short
      have none := begins.longer (Nat.lt_of_not_le short) (by rw [length_drop]; omega)
      rw [own, recognise] at none
      cases none
    have size' : piece.slice.length = digits.length := by omega
    have slice : piece.slice = digits := by rw [begins.slice, size', own]
    refine ⟨by omega, ?_, ?_, ?_⟩
    · cases found : piece.found with
      | none =>
        have none := begins.rejected found (k := digits.length)
          (by have := length_pos_iff.2 (isInt_iff.1 int).1; omega)
          (by rw [length_drop]; omega)
        rw [own, recognise] at none
        cases none
      | some raw =>
        have here := begins.recognised found
        rw [slice, recognise] at here
        exact here.symm
    · have last : (old.take a)[a - 1]? = some 46 := by
        have tail : ((old.take a).drop (piece.start - base))[digits.length]? = some 46 := by
          rw [word, same]
          simp
        rw [getElem?_drop] at tail
        rwa [show piece.start - base + digits.length = a - 1 by omega] at tail
      rw [edit.before, getElem?_take] at last
      split at last
      · exact last
      · cases last
    · obtain ⟨filled', all⟩ := isInt_iff.1 int'
      cases after : new.drop a with
      | nil =>
        rw [after] at within
        simp only [length_nil] at within
        omega
      | cons digit more =>
        refine ⟨digit, ?_, ?_⟩
        · have head : (new.drop a)[0]? = some digit := by rw [after]; rfl
          rwa [getElem?_drop, add_zero] at head
        · apply all
          rw [after, show k = k - 1 + 1 by omega, take_succ_cons]
          exact mem_cons_self

/-- The new source splits as the old one does over pieces before the edit that none of the words
reaching into it begins in. -/
theorem scans_before {old new : List Byte} {a b base last : Nat} (edit : Edit old new a b)
    {first rest : List (Piece Byte RawToken)} {text : List Byte}
    (split : pieces tokenizer base old = first ++ rest)
    (scanned : Scans tokenizer base old first last text) (within : last ≤ a + base)
    (before : ∀ piece ∈ first, piece.stop < a + base)
    (ungrown : ∀ piece ∈ first, piece.stop + 1 = a + base → piece.found = some .intLit →
      new[a - 1]? = some 46 → ∀ digit, new[a]? = some digit → isDigit digit = false) :
    Scans tokenizer base new first last (new.drop (last - base)) := by
  have inOld := edit.inOld
  have width : (old.take a).length = a := by rw [length_take, min_eq_left inOld]
  have made : Scans tokenizer base (old.take a ++ new.drop a) first last
      ((old.take a).drop (last - base) ++ new.drop a) :=
    scanned.transfer (old.take a) (take_append_drop a old).symm (by rw [width]; omega)
    (by
      intro piece member _
      have := before piece member
      omega)
    (by
      intro piece member k positive short
      by_contra recognised
      obtain ⟨ends, found, point, digit, here, shown⟩ := reaches_past edit
        (by rw [split]; exact mem_append_left _ member) (before piece member) positive short
        recognised
      have hidden := ungrown piece member ends found point digit here
      rw [shown] at hidden
      cases hidden)
  have whole : old.take a ++ new.drop a = new := by rw [edit.before, take_append_drop]
  rw [whole] at made
  have same := made.drop_eq.2.1
  rwa [same] at made

variable {made : List (Piece Byte RawToken)}

theorem span_of_mem_stream {previous : Option Nat}
    {token : Token F} (member : token ∈ stream parseFloat lines previous made) :
    token.span = lineCol lines token.start := by
  induction made generalizing previous with
  | nil => cases member
  | cons piece made ih =>
    rw [stream_cons, mem_append, mem_append] at member
    rcases member with (marked | yielded) | later
    · exact (marker_spec marked).2.2.2.1
    · exact (yield?_spec (mem_toList.1 yielded)).2.2.2.2
    · exact ih later

section

variable (previous : Option Nat) (made : List (Piece Byte RawToken))

theorem stream_lines :
    stream parseFloat lines' previous made =
      (stream parseFloat lines previous made).map fun token =>
        { token with span := lineCol lines' token.start } := by
  have shifted := @stream_shift F parseFloat lines' lines 0 previous made
  have still : made.map (Piece.shift 0) = made := by
    rw [show (Piece.shift 0 : Piece Byte RawToken → _) = id from rfl, List.map_id]
  have still' : previous.map (· + 0) = previous := by cases previous <;> rfl
  rw [still, still'] at shifted
  exact shifted

theorem stream_lines_iff :
    stream parseFloat lines previous made = stream parseFloat lines' previous made ↔
      ∀ token ∈ stream parseFloat lines previous made,
        lineCol lines token.start = lineCol lines' token.start := by
  constructor
  · intro same token member
    have here := span_of_mem_stream member
    rw [same] at member
    rw [← here]
    exact span_of_mem_stream member
  · intro agree
    rw [@stream_lines F parseFloat lines lines' previous made]
    refine ((List.map_congr_left fun token member => ?_).trans (List.map_id _)).symm
    obtain ⟨kind, span, start, stop⟩ := token
    have here := span_of_mem_stream member
    have there := agree _ member
    dsimp only at here there
    rw [id, here, there]

end

variable (parseFloat lines')

/-- The tokens of the rest of a source, from a place in it. -/
def tokensFrom (new : List Byte) (base place : Nat) (previous : Option Nat) : List (Token F) :=
  stream parseFloat lines' previous (pieces tokenizer place (new.drop (place - base)))

/-- The end of the last reused token that is not a marker. -/
def reusedEnd (base : Nat) (kept : List (Token F)) : Nat :=
  ((lastReal kept).map Token.stop).getD base

/-- The markers the reused tokens end with. -/
def trailing (kept : List (Token F)) : List (Token F) :=
  (kept.reverse.takeWhile fun token => token.glueEnd.isSome).reverse

variable {parseFloat lines'}

theorem tokensFrom_cons {new : List Byte} {base place : Nat} {previous : Option Nat}
    {token : Token F} (before : List (Token F)) {later : List (Token F)} (inside : base ≤ place)
    (split : tokensFrom parseFloat lines' new base place previous = before ++ token :: later) :
    token :: later = tokensFrom parseFloat lines' new base token.start token.glueEnd := by
  obtain ⟨order, same⟩ := stream_from split
  rw [same, drop_drop, show place - base + (token.start - place) = token.start - base by omega]
  rfl

/-- Lexing on from two places meets when the first two tokens do, the markers before included. -/
theorem meets_iff {new : List Byte} {base place place' : Nat} {previous previous' : Option Nat}
    {glue : List (Token F)} (inside : base ≤ place) (inside' : base ≤ place')
    (few : glue.length ≤ 1) :
    tokensFrom parseFloat lines' new base place previous =
        glue ++ tokensFrom parseFloat lines' new base place' previous' ↔
      (tokensFrom parseFloat lines' new base place previous).take 2 =
        (glue ++ tokensFrom parseFloat lines' new base place' previous').take 2 := by
  refine ⟨congrArg _, fun same => ?_⟩
  cases glue with
  | nil =>
    rw [nil_append] at same ⊢
    cases left : tokensFrom parseFloat lines' new base place previous with
    | nil =>
      rw [left] at same
      cases right : tokensFrom parseFloat lines' new base place' previous' with
      | nil => rfl
      | cons token later =>
        rw [right] at same
        cases same
    | cons token later =>
      cases right : tokensFrom parseFloat lines' new base place' previous' with
      | nil =>
        rw [left, right] at same
        cases same
      | cons token' later' =>
        rw [left, right] at same
        obtain ⟨rfl, -⟩ := List.cons.inj same
        rw [tokensFrom_cons [] inside left, tokensFrom_cons [] inside' right]
  | cons marker glue =>
    have alone : glue = [] := by
      rw [length_cons] at few
      exact eq_nil_of_length_eq_zero (by omega)
    subst alone
    rw [singleton_append] at same ⊢
    cases left : tokensFrom parseFloat lines' new base place previous with
    | nil =>
      rw [left] at same
      cases same
    | cons token later =>
      rw [left] at same
      obtain ⟨rfl, tails⟩ := List.cons.inj same
      cases right : tokensFrom parseFloat lines' new base place' previous' with
      | nil =>
        rw [right] at tails
        cases later with
        | nil => rfl
        | cons _ _ => cases tails
      | cons second rest =>
        rw [right] at tails
        cases later with
        | nil => cases tails
        | cons second' rest' =>
          obtain ⟨rfl, -⟩ := List.cons.inj tails
          rw [tokensFrom_cons [token] inside left, tokensFrom_cons [] inside' right]

theorem rawToKind_int {raw : RawToken} {slice : List Byte} {value : Nat}
    (read : rawToKind parseFloat raw slice = .ok (.int value)) : raw = .intLit := by
  unfold rawToKind at read
  all_goals
    dsimp only at read
    repeat' split at read
  all_goals first | rfl | cases read

theorem Reused.last_spec {a : Nat} {kept : List (Token F)}
    (reused : Reused parseFloat lines none made a kept) (base : Nat) :
    reusedEnd base kept = (reused.first.getLast?.map Piece.stop).getD base ∧
      (lastReal kept).bind Token.endAfter = (reused.first.getLast?.map endAfter).getD none := by
  unfold reusedEnd
  rw [reused.lastReal_eq]
  cases found : reused.first.getLast? with
  | none => exact ⟨rfl, rfl⟩
  | some piece =>
    obtain ⟨token, yielded⟩ := isSome_iff_exists.1 (reused.yields piece found)
    rw [bind_some, yielded]
    exact ⟨(yield?_spec yielded).2.2.2.1, (endAfter_of_yield? yielded).symm⟩

section

variable {old new : List Byte} {a b base : Nat} {kept : List (Token F)}

variable {piece : Piece Byte RawToken}

theorem last_of_ends {first rest : List (Piece Byte RawToken)}
    (split : pieces tokenizer base old = first ++ rest)
    (before : ∀ piece ∈ first, piece.stop < a + base)
    (member : piece ∈ first) (ends : piece.stop + 1 = a + base) : first.getLast? = some piece := by
  obtain ⟨earlier, later, rfl⟩ := append_of_mem member
  cases later with
  | nil => exact List.getLast?_concat
  | cons next later =>
    exfalso
    have inside : next ∈ earlier ++ piece :: next :: later := by simp
    have listed : next ∈ pieces tokenizer base old := by
      rw [split]
      exact mem_append_left _ inside
    have wide := start_lt_stop listed
    have ordered : (pieces tokenizer base old).Pairwise fun first second =>
        first.stop ≤ second.start := pieces_pairwise base old
    rw [split, append_assoc, pairwise_append] at ordered
    have follows := (pairwise_cons.1 ordered.2.1).1 next (by simp)
    have ends' := before next inside
    omega

theorem Reused.grown (reused : Reused parseFloat lines none (pieces tokenizer base old)
    (a + base) kept) (found : reused.first.getLast? = some piece)
    (int : piece.found = some .intLit) (ends : piece.stop + 1 = a + base)
    (point : new[a - 1]? = some 46) {digit : Byte} (here : new[a]? = some digit)
    (shown : isDigit digit) : GrowsFloat new a base (lastReal kept) := by
  obtain ⟨token, yielded⟩ := isSome_iff_exists.1 (reused.yields piece found)
  have last : lastReal kept = some token := by
    rw [reused.lastReal_eq, found]
    exact yielded
  unfold yield? at yielded
  rw [int] at yielded
  dsimp only [rawToKind] at yielded
  split at yielded
  · rename_i kind read
    split at read
    · rename_i value _
      cases read
      cases yielded
      exact ⟨_, value, digit, last, rfl, ends, point, here, shown⟩
    · cases read
  · cases yielded

/-- Where no literal grows, the new source begins with the reused tokens and goes on from the end
of the last one. -/
theorem stream_of_reused (edit : Edit old new a b)
    (reused : Reused parseFloat lines none (pieces tokenizer base old) (a + base) kept)
    (literal : ¬ GrowsFloat new a base (lastReal kept)) :
    base ≤ reusedEnd base kept ∧
    stream parseFloat lines' none (pieces tokenizer base new) =
      stream parseFloat lines' none reused.first ++
        tokensFrom parseFloat lines' new base (reusedEnd base kept)
          ((lastReal kept).bind Token.endAfter) := by
  obtain ⟨last, text, scanned, -, same⟩ := scans_of_append base old reused.split
  obtain ⟨ends, seed⟩ := reused.last_spec base
  have order := scanned.drop_eq.1
  have within : last ≤ a + base := by
    cases found : reused.first.getLast? with
    | none =>
      rw [same, found]
      exact Nat.le_add_left _ _
    | some piece =>
      have before := reused.before piece (mem_of_getLast? found)
      rw [same, found]
      exact le_of_lt before
  have made := scans_before edit reused.split scanned within reused.before (by
    intro piece member ends int point digit here
    cases shown : isDigit digit with
    | false => rfl
    | true =>
      exfalso
      apply literal
      exact reused.grown (last_of_ends reused.split reused.before member ends) int ends point here
        shown)
  rw [ends, seed, ← same]
  refine ⟨order, ?_⟩
  rw [made.pieces_eq, stream_append]
  rfl

theorem munch_grown (edit : Edit old new a b)
    (member : piece ∈ pieces tokenizer base old) (int : piece.found = some .intLit)
    (ends : piece.stop + 1 = a + base) (point : new[a - 1]? = some 46) {digit : Byte}
    (here : new[a]? = some digit) (shown : isDigit digit) :
    ∃ c rest found n, new.drop (piece.start - base) = c :: rest ∧ tokenizer.blank c = false ∧
      munch tokenizer (c :: rest) = some (found, n) ∧ piece.slice.length + 2 ≤ n := by
  have start := start_le_of_mem member
  have begins := begins_of_mem _ _ member
  have size : piece.stop = piece.start + piece.slice.length := rfl
  have accepted : accepts piece.slice .intLit := by
    have found := begins.recognised int
    exact List.find?_some (p := accepts piece.slice) found
  have digits : isInt piece.slice := accepted
  -- The literal, its point and the digit after it, in the new source.
  have slice : (new.drop (piece.start - base)).take piece.slice.length = piece.slice := by
    have common : (old.take a).drop (piece.start - base) = (new.take a).drop (piece.start - base) := by
      rw [edit.before]
    have both := congrArg (List.take piece.slice.length) common
    rw [drop_take, drop_take, take_take, take_take, min_eq_left (by omega)]
      at both
    rw [← both]
    exact begins.slice.symm
  have word : (new.drop (piece.start - base)).take (piece.slice.length + 2) =
      piece.slice ++ 46 :: [digit] := by
    have first : (new.drop (piece.start - base))[piece.slice.length]? = some 46 := by
      rw [getElem?_drop, show piece.start - base + piece.slice.length = a - 1 by omega]
      exact point
    have second : (new.drop (piece.start - base))[piece.slice.length + 1]? = some digit := by
      rw [getElem?_drop, show piece.start - base + (piece.slice.length + 1) = a by omega]
      exact here
    rw [take_succ_of_getElem? second, take_succ_of_getElem? first, slice, append_assoc]
    rfl
  have recognised : Recognised ((new.drop (piece.start - base)).take (piece.slice.length + 2)) := by
    rw [word]
    apply @recognised_of_accepts _ .floatLit
    exact floatLit_accepts digits (isInt_iff.2 ⟨by simp, by simpa using shown⟩)
  have long : piece.slice.length + 2 ≤ (new.drop (piece.start - base)).length := by
    have whole := congrArg List.length word
    rw [length_take, length_append] at whole
    simp only [length_cons, length_nil] at whole
    omega
  cases text : new.drop (piece.start - base) with
  | nil =>
    rw [text, length_nil] at long
    omega
  | cons c rest =>
    rw [text] at word recognised long
    have visible : tokenizer.blank c = false := by
      cases own : piece.slice with
      | nil => exact absurd own begins.filled
      | cons d more =>
        rw [own, length_cons, take_succ_cons, cons_append] at word
        obtain ⟨rfl, -⟩ := List.cons.inj word
        rw [own] at digits
        have digit' := (isInt_iff.1 digits).2 c mem_cons_self
        cases blank : tokenizer.blank c with
        | false => rfl
        | true =>
          exfalso
          change (c == 32 || c == 9 || c == 13) at blank
          simp only [Bool.or_eq_true, beq_iff_eq] at blank
          rcases blank with (rfl | rfl) | rfl
          all_goals exact absurd digit' (by decide)
    cases hit : munch tokenizer (c :: rest) with
    | none =>
      exfalso
      apply recognised
      exact longest_none.1 hit _ (Nat.succ_pos _) long
    | some pair =>
      refine ⟨c, rest, pair.1, pair.2, rfl, visible, by rw [hit], ?_⟩
      by_contra short
      apply recognised
      exact (longest_some.1 hit).2.2.2 _ (by omega) long

theorem first_of_stream {previous : Option Nat} {text : List Byte}
    {token : Token F} {rest : List (Token F)} {pos : Nat}
    (same : token :: rest =
      stream parseFloat lines previous (piece :: pieces tokenizer piece.stop text) ++
        [eofToken lines pos])
    (real : token.kind ≠ .glue) (more : token.kind ≠ .eof) :
    token.stop = piece.stop ∨ piece.stop ≤ token.start := by
  rw [stream_cons] at same
  unfold marker at same
  split at same
  · have first := (List.cons.inj same).1
    rw [first] at real
    exact absurd rfl real
  · rw [nil_append] at same
    cases yielded : yield? parseFloat lines piece with
    | some word =>
      left
      rw [yielded] at same
      have first := (List.cons.inj same).1
      rw [first]
      exact (yield?_spec yielded).2.2.2.1
    | none =>
      right
      rw [yielded, toList_none, nil_append] at same
      cases later : stream parseFloat lines (endAfter piece) (pieces tokenizer piece.stop text) with
      | nil =>
        rw [later] at same
        have first := (List.cons.inj same).1
        rw [first] at more
        exact absurd rfl more
      | cons word words =>
        rw [later] at same
        have first := (List.cons.inj same).1
        have split : stream parseFloat lines (endAfter piece)
            (pieces tokenizer piece.stop text) = [] ++ word :: words := later
        rw [first]
        exact (stream_from split).1

/-- A literal that grows is not the token the new source has there. -/
theorem differs_of_growth (edit : Edit old new a b)
    (reused : Reused parseFloat lines none (pieces tokenizer base old) (a + base) kept)
    (grows : GrowsFloat new a base (lastReal kept)) (tail : List (Token F)) (pos : Nat) :
    kept ++ tail ≠ stream parseFloat lines' none (pieces tokenizer base new) ++
      [eofToken lines' pos] := by
  intro same
  obtain ⟨token, value, digit, last, kind, ends, point, here, shown⟩ := grows
  rw [reused.lastReal_eq] at last
  obtain ⟨first, rest, glue, split, rfl, before, yields, markers, few⟩ := reused
  obtain ⟨piece, found, yielded⟩ := bind_eq_some_iff.1 last
  obtain ⟨others, rfl⟩ := List.getLast?_eq_some_iff.1 found
  have spec := yield?_spec yielded
  have int : piece.found = some .intLit := by
    unfold yield? at yielded
    split at yielded
    · cases yielded
    · rename_i raw raw'
      split at yielded
      · rename_i kind' read
        cases yielded
        dsimp only at kind
        rw [kind] at read
        exact raw'.trans (congrArg some (rawToKind_int read))
      · cases yielded
  rw [append_assoc, singleton_append] at split
  have member : piece ∈ pieces tokenizer base old := by rw [split]; simp
  have ordered : (pieces tokenizer base old).Pairwise fun first second =>
      first.stop ≤ second.start := pieces_pairwise base old
  rw [split, pairwise_append] at ordered
  have wide := start_lt_stop member
  obtain ⟨q, u, scanned, next, -⟩ := scans_of_append base old split
  obtain ⟨v, blanks, -⟩ := scans_first q u next
  have whole := scanned.trans blanks
  rw [append_nil] at whole
  have made := scans_before edit split whole (by omega)
    (fun other inside => before other (mem_append_left _ inside))
    (by
      intro other inside ends'
      have follows := ordered.2.2 other inside piece mem_cons_self
      omega)
  obtain ⟨c, text, raw, n, start, visible, hit, longer⟩ :=
    munch_grown edit member int (by omega) point here shown
  have within := (munch_bounds hit).2
  have unmarked : ∀ previous, marker lines previous piece = ([] : List (Token F)) := by
    intro previous
    unfold marker
    rw [int]
    exact if_neg fun glued => absurd glued.1 Bool.false_ne_true
  rw [made.pieces_eq, start, pieces_matched visible hit, stream_append, stream_append, stream_cons,
    unmarked, yielded, stream_nil, append_nil, nil_append, toList_some,
    append_assoc, append_assoc, append_assoc, singleton_append] at same
  have lengths : (stream parseFloat lines none others).length =
      (stream parseFloat lines' none others).length := by
    rw [@stream_lines F parseFloat lines lines' none others, length_map]
  have tails := (append_inj same lengths).2
  have stop : (Piece.mk (some raw) ((c :: text).take n) piece.start).stop = piece.start + n := by
    unfold Piece.stop
    rw [length_take, min_eq_left within]
  rw [← stop] at tails
  have size : piece.stop = piece.start + piece.slice.length := rfl
  rcases first_of_stream tails spec.1 spec.2.1 with ends' | later
  · omega
  · omega

end

theorem span_of_mem_lexWith {code : List Byte} {base : Nat} {token : Token F}
    (member : token ∈ (lexWith parseFloat lines code base).tokens) :
    token.span = lineCol lines token.start := by
  rcases mem_append.1 member with member | last
  · exact span_of_mem_stream member
  · rw [mem_singleton.1 last]
    rfl

theorem Reused.trailing_eq {a : Nat} {kept : List (Token F)}
    (reused : Reused parseFloat lines none made a kept) : trailing kept = reused.glue := by
  obtain ⟨first, rest, glue, split, rfl, before, yields, markers, few⟩ := reused
  have marked : ∀ token ∈ glue.reverse, token.glueEnd.isSome := by
    intro token member
    unfold Token.glueEnd
    rw [markers token (mem_reverse.1 member)]
    rfl
  unfold trailing
  rw [reverse_append, takeWhile_append_of_pos marked]
  have stops : (stream parseFloat lines none first).reverse.takeWhile
      (fun token => token.glueEnd.isSome) = [] := by
    rcases eq_nil_or_concat first with rfl | ⟨others, piece, rfl⟩
    · rfl
    · rw [concat_eq_append] at yields ⊢
      obtain ⟨token, yielded⟩ := isSome_iff_exists.1 (yields piece List.getLast?_concat)
      have real := glueEnd_of_ne (yield?_spec yielded).1
      rw [stream_append, stream_cons, yielded, stream_nil, append_nil, ← append_assoc,
        toList_some, reverse_append, reverse_singleton, singleton_append]
      apply takeWhile_cons_of_neg
      rw [real]
      exact Bool.false_ne_true
  rw [stops, append_nil, reverse_reverse]

/-- What lexing again over an edit relies on. -/
structure Resumes (parseFloat : List Byte → F) (lines lines' : List Nat) (new : List Byte)
    (base a : Nat) (prev : List (Token F)) : Prop where
  /-- The reused tokens stand on the lines they stood on. -/
  spans : ∀ token ∈ reused prev (a + base), lineCol lines token.start = lineCol lines' token.start
  /-- The restart, an offset of the old source, is a position of the new one. -/
  boundary : isCharBoundary new (restart prev (a + base) - base) = true
  /-- The edit does not make the integer literal before it a float literal. -/
  literal : ¬ GrowsFloat new a base (lastReal (reused prev (a + base)))
  /-- From the last reused token on, the next tokens are those from the restart on. -/
  meets :
    let kept := reused prev (a + base)
    let previous := (lastReal kept).bind Token.endAfter
    (tokensFrom parseFloat lines' new base (reusedEnd base kept) previous).take 2 =
      (trailing kept ++
        tokensFrom parseFloat lines' new base (restart prev (a + base)) previous).take 2

variable [DecidableEq F]

/-- Re-lexing over the edit gives the tokens of lexing the new source exactly when nothing the
edit changes lies between the last reused token and the restart. -/
theorem lexResume_eq_lexWith_iff (parseFloat : List Byte → F) (lines lines' : List Nat)
    (old new : List Byte) (base : Nat) :
    (lexResume parseFloat lines' (lexWith parseFloat lines old base).tokens old new base
        ((editSpan old new).1 + base) ((editSpan old new).2 + base)).map Lexed.tokens =
      some (lexWith parseFloat lines' new base).tokens ↔
    Resumes parseFloat lines lines' new base (editSpan old new).1
      (lexWith parseFloat lines old base).tokens := by
  have edit := edit_editSpan old new
  generalize (editSpan old new).1 = a at edit ⊢
  generalize (editSpan old new).2 = b at edit ⊢
  rw [lexResume_tokens edit rfl, seedPrevEnd_eq]
  generalize lexed : (lexWith parseFloat lines old base).tokens = prev
  have tokens : prev = stream parseFloat lines none (pieces tokenizer base old) ++
      [eofToken lines (base + old.length)] := lexed.symm
  have inOld := edit.inOld
  obtain ⟨split⟩ : Nonempty (Reused parseFloat lines none (pieces tokenizer base old) (a + base)
      (reused prev (a + base))) := by
    rw [tokens]
    apply reused_split
    · exact pieces_pairwise base old
    · exact fun piece member => start_lt_stop member
    · show a + base ≤ base + old.length
      omega
  have spans : ∀ token ∈ reused prev (a + base), token.span = lineCol lines token.start := by
    intro token member
    rw [← lexed] at member
    exact span_of_mem_lexWith (mem_of_mem_take member)
  have inside : base ≤ restart prev (a + base) := by
    obtain ⟨token, member, same⟩ := @restart_of_lexWith F parseFloat lines old base a inOld
    rw [← lexed, same]
    exact base_le_start member
  have whole : (lexWith parseFloat lines' new base).tokens =
      stream parseFloat lines' none (pieces tokenizer base new) ++
        [eofToken lines' (base + new.length)] := rfl
  have lengths : (stream parseFloat lines none split.first).length =
      (stream parseFloat lines' none split.first).length := by
    rw [@stream_lines F parseFloat lines lines' none split.first, length_map]
  rw [whole]
  change (if _ then some (reused prev (a + base) ++ (tokensFrom parseFloat lines' new base
    (restart prev (a + base)) ((lastReal (reused prev (a + base))).bind Token.endAfter) ++ _))
    else none) = _ ↔ _
  have meets := @meets_iff F parseFloat lines' new base (reusedEnd base (reused prev (a + base)))
    (restart prev (a + base)) ((lastReal (reused prev (a + base))).bind Token.endAfter)
    ((lastReal (reused prev (a + base))).bind Token.endAfter) split.glue
  constructor
  · intro same
    split at same
    · rename_i boundary
      have same := some.inj same
      have literal : ¬ GrowsFloat new a base (lastReal (reused prev (a + base))) :=
        fun grows => differs_of_growth edit split grows _ _ same
      obtain ⟨order, rest⟩ := @stream_of_reused F parseFloat lines lines' _ _ _ _ _ _ edit split literal
      rw [← append_assoc, append_left_inj, rest] at same
      have parts := (congrArg (· ++ tokensFrom parseFloat lines' new base (restart prev (a + base))
        ((lastReal (reused prev (a + base))).bind Token.endAfter)) split.tokens).symm.trans same
      rw [append_assoc] at parts
      obtain ⟨firsts, rests⟩ := append_inj parts lengths
      refine ⟨?_, boundary, literal, ?_⟩
      · intro token member
        rw [← spans token member]
        have parts := member
        rw [split.tokens, mem_append, firsts] at parts
        rcases parts with early | marker
        · exact span_of_mem_stream early
        · apply @span_of_mem_stream F parseFloat lines' _ _ token
          have later := mem_append_left (tokensFrom parseFloat lines' new base
            (restart prev (a + base)) ((lastReal (reused prev (a + base))).bind Token.endAfter)) marker
          rw [rests] at later
          exact later
      · dsimp only
        rw [split.trailing_eq]
        exact (meets order inside split.few).1 rests.symm
    · cases same
  · rintro ⟨table, boundary, literal, meet⟩
    rw [if_pos boundary]
    obtain ⟨order, rest⟩ := @stream_of_reused F parseFloat lines lines' _ _ _ _ _ _ edit split literal
    dsimp only at meet
    rw [split.trailing_eq] at meet
    have rests := (meets order inside split.few).2 meet
    have firsts : stream parseFloat lines none split.first =
        stream parseFloat lines' none split.first := by
      rw [stream_lines_iff]
      intro token member
      apply table
      rw [split.tokens]
      exact mem_append_left _ member
    rw [rest, rests, ← append_assoc, ← append_assoc, ← firsts, ← split.tokens]

/-- A token written over one of several blanks, between the end of the last reused token and the
restart at the next one, is lost. -/
theorem lexResume_loses_token : (lexResume List.length (lineStarts (bytes "x z y"))
        (lexWith List.length (lineStarts (bytes "x  y")) (bytes "x  y") 0).tokens
        (bytes "x  y") (bytes "x z y") 0
        ((editSpan (bytes "x  y") (bytes "x z y")).1 + 0)
        ((editSpan (bytes "x  y") (bytes "x z y")).2 + 0)).map Lexed.tokens ≠
      some (lexWith List.length (lineStarts (bytes "x z y")) (bytes "x z y") 0).tokens := by
  decide +kernel

end LichenVm.Lexer
