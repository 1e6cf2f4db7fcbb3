import LichenVm.Lexer

open List Option

namespace LichenVm.Lexer

open LongestMatch

variable {F : Type} (parseFloat : List Byte → F) (lines : List Nat)

/-- The tokens lexing pieces pushes. -/
def stream (previous : Option Nat) (made : List (Piece Byte RawToken)) : List (Token F) :=
  (lexLoop parseFloat lines previous made).filterMap Event.token?

/-- The token a piece yields, its glue marker aside. -/
def yield? (piece : Piece Byte RawToken) : Option (Token F) :=
  match piece.found with
  | none => none
  | some raw =>
    match rawToKind parseFloat raw piece.slice with
    | .ok kind => some ⟨kind, lineCol lines piece.start, piece.start, piece.stop⟩
    | .error _ => none

/-- The glue marker before a piece, given the end of the last token before it. -/
def marker (previous : Option Nat) (piece : Piece Byte RawToken) : List (Token F) :=
  if (piece.found.map RawToken.isPostfixDelim).getD false = true ∧ previous = some piece.start then
    [⟨.glue, lineCol lines piece.start, piece.start, piece.start⟩]
  else []

variable {parseFloat lines}

/-- The end that lexing on from a token starts with: a marker stands at the end of the token it
follows. -/
def Token.glueEnd (token : Token F) : Option Nat :=
  match token.kind with
  | .glue => some token.start
  | _ => none

variable {token : Token F}

theorem glueEnd_of_ne (plain : token.kind ≠ .glue) : token.glueEnd = none := by
  unfold Token.glueEnd
  split
  · contradiction
  · rfl

variable (previous : Option Nat)

theorem stream_nil : stream parseFloat lines previous [] = [] := rfl

theorem stream_cons (piece : Piece Byte RawToken) (later : List (Piece Byte RawToken)) :
    stream parseFloat lines previous (piece :: later) =
      marker lines previous piece ++ (yield? parseFloat lines piece).toList ++
        stream parseFloat lines (endAfter piece) later := by
  unfold stream
  rw [lexLoop, filterMap_append]
  congr 1
  unfold pushed marker yield?
  obtain ⟨found, slice, start⟩ := piece
  cases found with
  | none => rfl
  | some raw =>
    cases raw with
    | separator => rfl
    | _ =>
      dsimp only [map_some, getD_some]
      rw [filterMap_append]
      refine congrArg₂ (· ++ ·) ?_ ?_
      · split <;> rfl
      · cases rawToKind parseFloat _ slice <;> rfl

theorem stream_append (first later : List (Piece Byte RawToken)) :
    stream parseFloat lines previous (first ++ later) = stream parseFloat lines previous first ++
        stream parseFloat lines ((first.getLast?.map endAfter).getD previous) later := by
  induction first generalizing previous with
  | nil => rfl
  | cons piece first ih =>
    rw [cons_append, stream_cons, stream_cons, ih, ← append_assoc]
    congr 2
    cases first with
    | nil => rfl
    | cons second first => simp [List.getLast?_cons]

theorem rawToKind_ne {raw : RawToken} {slice : List Byte} {kind : TokenKind F}
    (read : rawToKind parseFloat raw slice = .ok kind) : kind ≠ .glue ∧ kind ≠ .eof := by
  unfold rawToKind at read
  cases raw
  all_goals
    dsimp only at read
    repeat' split at read
    all_goals cases read
    all_goals exact ⟨fun same => (by cases same), fun same => (by cases same)⟩

theorem yield?_spec {piece : Piece Byte RawToken}
    (yielded : yield? parseFloat lines piece = some token) :
    token.kind ≠ .glue ∧ token.kind ≠ .eof ∧ token.start = piece.start ∧ token.stop = piece.stop ∧
      token.span = lineCol lines token.start := by
  unfold yield? at yielded
  split at yielded
  · cases yielded
  · split at yielded
    · rename_i kind read
      cases yielded
      exact ⟨(rawToKind_ne read).1, (rawToKind_ne read).2, rfl, rfl, rfl⟩
    · cases yielded

variable {previous : Option Nat}

theorem marker_spec {piece : Piece Byte RawToken} (member : token ∈ marker lines previous piece) :
    token.kind = .glue ∧ token.start = piece.start ∧ token.stop = piece.start ∧
      token.span = lineCol lines token.start ∧ previous = some piece.start := by
  unfold marker at member
  split at member
  · rename_i glued
    rw [mem_singleton.1 member]
    exact ⟨rfl, rfl, rfl, rfl, glued.2⟩
  · cases member

theorem marker_none (piece : Piece Byte RawToken) :
    marker lines none piece = ([] : List (Token F)) := by
  unfold marker
  apply if_neg
  rintro ⟨-, same⟩
  cases same

/-- The tokens from one on are those of lexing the text from where it starts. -/
theorem stream_from {start : Nat} {text : List Byte} {before later : List (Token F)}
    (split : stream parseFloat lines previous (pieces tokenizer start text) =
      before ++ token :: later) :
    start ≤ token.start ∧ token :: later = stream parseFloat lines token.glueEnd
      (pieces tokenizer token.start (text.drop (token.start - start))) := by
  generalize made : pieces tokenizer start text = list at split
  induction list generalizing start text previous before with
  | nil =>
    rw [stream_nil] at split
    simp at split
  | cons piece rest ih =>
    obtain ⟨here, scanned, tail, past, next⟩ := scans_first start text made
    obtain ⟨order, rfl, -⟩ := scanned.drop_eq
    obtain ⟨order', rfl, -⟩ := past.drop_eq
    have own : pieces tokenizer piece.start (text.drop (piece.start - start)) = piece :: rest := by
      rw [← made, scanned.pieces_eq]
      rfl
    have away : (text.drop (piece.start - start)).drop (piece.stop - piece.start) =
        text.drop (piece.stop - start) := by
      rw [drop_drop, show piece.start - start + (piece.stop - piece.start) =
        piece.stop - start by omega]
    rw [away] at next
    have further : ∀ before,
        stream parseFloat lines (endAfter piece) rest = before ++ token :: later →
          start ≤ token.start ∧ token :: later = stream parseFloat lines token.glueEnd
            (pieces tokenizer token.start (text.drop (token.start - start))) := by
      intro before split
      obtain ⟨order'', same⟩ := ih next split
      refine ⟨by omega, ?_⟩
      have whole : piece.stop - start + (token.start - piece.stop) = token.start - start := by
        omega
      rw [drop_drop, whole] at same
      exact same
    have unmarked : ∀ before, (yield? parseFloat lines piece).toList ++
        stream parseFloat lines (endAfter piece) rest = before ++ token :: later →
          start ≤ token.start ∧ token :: later = stream parseFloat lines token.glueEnd
            (pieces tokenizer token.start (text.drop (token.start - start))) := by
      intro before split
      cases yielded : yield? parseFloat lines piece with
      | none =>
        rw [yielded] at split
        exact further before split
      | some word =>
        have spec := yield?_spec yielded
        rw [yielded, toList_some, singleton_append] at split
        cases before with
        | cons _ before => exact further before (List.cons.inj split).2
        | nil =>
          obtain ⟨rfl, others⟩ := List.cons.inj split
          refine ⟨by omega, ?_⟩
          rw [glueEnd_of_ne spec.1, spec.2.2.1, own, stream_cons, marker_none, nil_append,
            yielded, ← others]
          rfl
    rw [stream_cons, append_assoc] at split
    unfold marker at split
    split at split
    · rename_i glued
      cases before with
      | cons _ before => exact unmarked before (List.cons.inj split).2
      | nil =>
        obtain ⟨rfl, _⟩ := List.cons.inj split
        refine ⟨order, ?_⟩
        show _ = stream parseFloat lines (some piece.start) _
        rw [own, stream_cons, append_assoc, marker, if_pos ⟨glued.1, rfl⟩]
        exact split.symm
    · exact unmarked before split

theorem kind_of_mem_stream {made : List (Piece Byte RawToken)}
    (member : token ∈ stream parseFloat lines previous made) : token.kind ≠ .eof := by
  induction made generalizing previous with
  | nil => cases member
  | cons piece made ih =>
    rw [stream_cons, mem_append, mem_append] at member
    rcases member with (marked | yielded) | later
    · rw [(marker_spec marked).1]
      exact fun same => (by cases same)
    · exact (yield?_spec (mem_toList.1 yielded)).2.1
    · exact ih later

theorem mem_stream {made : List (Piece Byte RawToken)} (filled : token.start < token.stop) :
    token ∈ stream parseFloat lines previous made ↔
      ∃ piece ∈ made, yield? parseFloat lines piece = some token := by
  induction made generalizing previous with
  | nil => simp [stream_nil]
  | cons piece made ih =>
    have plain : token ∉ marker lines previous piece := by
      intro marked
      have spec := marker_spec marked
      omega
    simp [stream_cons, plain, ih]

theorem isSome_yield? {made : List (Piece Byte RawToken)}
    (clean : (lexLoop parseFloat lines previous made).filterMap Event.error? = []) :
    ∀ piece ∈ made, (yield? parseFloat lines piece).isSome := by
  induction made generalizing previous with
  | nil => exact nofun
  | cons piece made ih =>
    rw [lexLoop, filterMap_append, append_eq_nil_iff] at clean
    refine forall_mem_cons.2 ⟨?_, ih clean.2⟩
    have own := clean.1
    unfold pushed at own
    unfold yield?
    obtain ⟨found, slice, start⟩ := piece
    cases found with
    | none => cases own
    | some raw =>
      dsimp only at own ⊢
      cases raw with
      | separator => rfl
      | _ =>
        rw [filterMap_append, append_eq_nil_iff] at own
        cases read : rawToKind parseFloat _ slice with
        | ok kind => rfl
        | error message =>
          rw [read] at own
          cases own.2

/-- A source that lexes without an error loses nothing: every byte that is no blank lies in exactly
one token. -/
theorem visible_in_one_token {code : List Byte} {base place : Nat} {b : Byte}
    (clean : (lexWith parseFloat lines code base).errors = []) (found : code[place]? = some b)
    (visible : isBlank b = false) : ∃! token,
      token ∈ (lexWith parseFloat lines code base).tokens ∧
        token.start ≤ base + place ∧ base + place < token.stop := by
  obtain ⟨piece, member, covers⟩ := @exists_piece _ _ tokenizer _ base code _ found visible
  obtain ⟨token, yields⟩ := isSome_iff_exists.1 (isSome_yield? clean piece member)
  have spec := yield?_spec yields
  refine ⟨token, ⟨mem_append_left _ ((mem_stream (by omega)).2 ⟨piece, member, yields⟩),
    by omega⟩, ?_⟩
  rintro other ⟨listed, covers'⟩
  rcases mem_append.1 listed with listed | last
  · obtain ⟨piece', member', yields'⟩ := (mem_stream (by omega)).1 listed
    have spec' := yield?_spec yields'
    -- The pieces are apart, so one of them alone holds the place.
    have ordered := @pieces_pairwise _ _ tokenizer base code
    have same : piece' = piece :=
      Pairwise.forall_of_forall_of_flip (R := fun p q => p.start ≤ base + place ∧
        base + place < p.stop → q.start ≤ base + place ∧ base + place < q.stop → p = q)
        (fun _ _ _ _ => rfl) (ordered.imp fun _ _ _ => by omega) (ordered.imp fun _ _ _ => by omega)
        member' member (by omega) covers
    rw [same, yields] at yields'
    exact (some.inj yields').symm
  · cases mem_singleton.1 last
    dsimp only [eofToken] at covers'
    omega

theorem visible_in_one_token_plus : ∃! token,
    token ∈ (lexWith (fun _ => ()) [0] [43] 0).tokens ∧ token.start ≤ 0 + 0 ∧ 0 + 0 < token.stop :=
  visible_in_one_token rfl rfl rfl

/-- A token of lexing on from 0 where lexing on from `start` puts it. -/
def placed (lines : List Nat) (start : Nat) (token : Token F) : Token F :=
  ⟨token.kind, lineCol lines (token.start + start), token.start + start, token.stop + start⟩

theorem endAfter_shift (d : Nat) (piece : Piece Byte RawToken) :
    endAfter (piece.shift d) = (endAfter piece).map (· + d) := by
  obtain ⟨found, slice, start⟩ := piece
  cases found with
  | none => rfl
  | some raw =>
    cases raw with
    | separator => rfl
    | _ => exact congrArg some (Piece.shift_stop d _)

section

variable (other : List Nat) (d : Nat)

include other d

theorem marker_shift (previous : Option Nat) (piece : Piece Byte RawToken) :
    marker lines (previous.map (· + d)) (piece.shift d) =
      (marker other previous piece : List (Token F)).map (placed lines d) := by
  have same : previous.map (· + d) = some (piece.shift d).start ↔ previous = some piece.start := by
    cases previous with
    | none => exact ⟨fun none => (by cases none), fun none => (by cases none)⟩
    | some stop =>
      show some (stop + d) = some (piece.start + d) ↔ _
      simp only [some.injEq]
      omega
  unfold marker
  by_cases glued : (piece.found.map RawToken.isPostfixDelim).getD false ∧
      previous = some piece.start
  · rw [if_pos glued, if_pos ⟨glued.1, same.2 glued.2⟩]
    rfl
  · rw [if_neg glued, if_neg fun both => glued ⟨both.1, same.1 both.2⟩]
    rfl

theorem yield?_shift (piece : Piece Byte RawToken) :
    yield? parseFloat lines (piece.shift d) =
      (yield? parseFloat other piece).map (placed lines d) := by
  obtain ⟨found, slice, start⟩ := piece
  cases found with
  | none => rfl
  | some raw =>
    unfold yield?
    dsimp only [Piece.shift]
    cases read : rawToKind parseFloat raw slice with
    | ok kind =>
      show some _ = some _
      rw [placed, show (Piece.mk (some raw) slice (start + d)).stop =
        (Piece.mk (some raw) slice start).stop + d from Piece.shift_stop d ⟨some raw, slice, start⟩]
    | error message => rfl

theorem stream_shift (previous : Option Nat) (made : List (Piece Byte RawToken)) :
    stream parseFloat lines (previous.map (· + d)) (made.map (Piece.shift d)) =
      (stream parseFloat other previous made).map (placed lines d) := by
  induction made generalizing previous with
  | nil => rfl
  | cons piece made ih =>
    rw [map_cons, stream_cons, stream_cons, map_append, map_append,
      endAfter_shift, ih, marker_shift other, yield?_shift other]
    cases yield? parseFloat other piece <;> rfl

end

variable [DecidableEq F]

/-- What the loop leaves out is found among the old tokens. -/
theorem resumeLoop_spec (prev : List (Token F)) (delta : Int) (b j : Nat) (events : List (Event F)) :
    match (resumeLoop prev delta b j events).2 with
    | none => (resumeLoop prev delta b j events).1 = events
    | some found => ∃ token later probe, events.filterMap Event.token? =
          (resumeLoop prev delta b j events).1.filterMap Event.token? ++ token :: later ∧
        (resync prev probe token delta b).2 = some found := by
  induction events generalizing j with
  | nil => exact rfl
  | cons event events ih =>
    cases event with
    | error diag =>
      have rest := ih j
      unfold resumeLoop
      split
      · rename_i none
        rw [none] at rest
        exact congrArg _ rest
      · rename_i found some
        rw [some] at rest
        exact rest
    | token token =>
      unfold resumeLoop
      cases probed : resync prev j token delta b with
      | mk k answer =>
        cases answer with
        | some found =>
          exact ⟨token, events.filterMap Event.token?, j, rfl, by rw [probed]⟩
        | none =>
          have rest := ih k
          split
          · rename_i none
            rw [none] at rest
            exact congrArg _ rest
          · rename_i found some
            rw [some] at rest
            obtain ⟨token', later, probe, split, hit⟩ := rest
            exact ⟨token', later, probe, congrArg (token :: ·) split, hit⟩

end LichenVm.Lexer
